import HieroCryptography.Rust.Outcome

namespace HieroCryptography.Rust

variable {α β V : Type}

abbrev Bytes := List UInt8

def ascii (s : String) : Bytes := s.toUTF8.toList

def leBytes : ℕ → ℕ → Bytes
  | 0, _ => []
  | width + 1, n => UInt8.ofNat n :: leBytes width (n / 256)

def ofLeBytes (bytes : Bytes) : ℕ := bytes.foldr (fun b n ↦ b.toNat + 256 * n) 0

theorem length_leBytes (width n : ℕ) : (leBytes width n).length = width := by
  induction width generalizing n with
  | zero => rfl
  | succ width ih => rw [leBytes, List.length_cons, ih]

theorem ofLeBytes_leBytes {width n : ℕ} (h : n < 256 ^ width) :
    ofLeBytes (leBytes width n) = n := by
  induction width generalizing n with
  | zero =>
    obtain rfl : n = 0 := by simpa using h
    rfl
  | succ width ih =>
    have hrest : ofLeBytes (leBytes width (n / 256)) = n / 256 :=
      ih (by rw [pow_succ] at h; omega)
    have hhead : (UInt8.ofNat n).toNat = n % 256 := by simp
    rw [leBytes, ofLeBytes, List.foldr_cons, ← ofLeBytes, hrest, hhead]
    omega

theorem leBytes_ofLeBytes (bytes : Bytes) : leBytes bytes.length (ofLeBytes bytes) = bytes := by
  induction bytes with
  | nil => rfl
  | cons b bytes ih =>
    have hlt := b.toNat_lt
    have hcons : ofLeBytes (b :: bytes) = b.toNat + 256 * ofLeBytes bytes := rfl
    have hhead : UInt8.ofNat (b.toNat + 256 * ofLeBytes bytes) = b := by
      apply UInt8.toNat_inj.mp
      rw [UInt8.toNat_ofNat']
      omega
    have htail : (b.toNat + 256 * ofLeBytes bytes) / 256 = ofLeBytes bytes := by omega
    rw [List.length_cons, leBytes, hcons, hhead, htail, ih]

theorem toNat_ofNat_of_lt {n : ℕ} (h : n < 2 ^ 64) : (UInt64.ofNat n).toNat = n :=
  UInt64.toNat_ofNat_of_lt' h

def checkedAdd (a b : UInt64) : Option UInt64 :=
  if a.toNat + b.toNat < 2 ^ 64 then some (a + b) else none

theorem checkedAdd_eq_none_iff {a b : UInt64} :
    checkedAdd a b = none ↔ 2 ^ 64 ≤ a.toNat + b.toNat := by
  unfold checkedAdd
  split <;> simp_all

theorem checkedAdd_eq_some_iff {a b c : UInt64} :
    checkedAdd a b = some c ↔ c.toNat = a.toNat + b.toNat := by
  unfold checkedAdd
  split
  · rename_i h
    rw [Option.some.injEq, ← UInt64.toNat_inj, UInt64.toNat_add, Nat.mod_eq_of_lt h, eq_comm]
  · have hc := c.toNat_lt
    simp only [reduceCtorEq, false_iff]
    omega

/-- A hash map with numeric keys. The list order stands for whatever order the
map iterates in. -/
structure HashMap (V : Type) where
  entries : List (ℕ × V)
  nodup : (entries.map Prod.fst).Nodup

namespace HashMap

variable (m : HashMap V)

def len : ℕ := m.entries.length

def keys : List ℕ := m.entries.map Prod.fst

def values : List V := m.entries.map Prod.snd

def get (i : ℕ) : Option V := m.entries.lookup i

def empty : HashMap V := ⟨[], List.nodup_nil⟩

def singleton (i : ℕ) (v : V) : HashMap V := ⟨[(i, v)], List.nodup_singleton i⟩

theorem lookup_of_mem {entries : List (ℕ × V)} (hn : (entries.map Prod.fst).Nodup) {i : ℕ} {v : V}
    (h : (i, v) ∈ entries) : entries.lookup i = some v := by
  induction entries with
  | nil => cases h
  | cons e es ih =>
    obtain ⟨j, w⟩ := e
    rw [List.map_cons, List.nodup_cons] at hn
    rcases List.mem_cons.mp h with he | he
    · obtain ⟨rfl, rfl⟩ := Prod.mk.inj he
      simp [List.lookup]
    · have hij : i ≠ j := by
        rintro rfl
        exact hn.1 (List.mem_map.mpr ⟨_, he, rfl⟩)
      rw [List.lookup, beq_false_of_ne hij]
      exact ih hn.2 he

theorem mem_of_lookup {entries : List (ℕ × V)} {i : ℕ} {v : V}
    (h : entries.lookup i = some v) : (i, v) ∈ entries := by
  induction entries with
  | nil => cases h
  | cons e es ih =>
    obtain ⟨j, w⟩ := e
    by_cases hij : i = j
    · subst j
      simp only [List.lookup, beq_self_eq_true, Option.some.injEq] at h
      simp [h]
    · rw [List.lookup, beq_false_of_ne hij] at h
      exact List.mem_cons_of_mem _ (ih h)

theorem get_eq_some_iff {i : ℕ} {v : V} : m.get i = some v ↔ (i, v) ∈ m.entries :=
  ⟨mem_of_lookup, lookup_of_mem m.nodup⟩

theorem mem_keys_of_get {i : ℕ} {v : V} (h : m.get i = some v) : i ∈ m.keys :=
  List.mem_map.mpr ⟨_, m.get_eq_some_iff.mp h, rfl⟩

theorem get_of_mem_keys {i : ℕ} (h : i ∈ m.keys) : ∃ v, m.get i = some v := by
  obtain ⟨⟨j, v⟩, hv, rfl⟩ := List.mem_map.mp h
  exact ⟨v, m.get_eq_some_iff.mpr hv⟩

def insert (i : ℕ) (v : V) : HashMap V where
  entries := (i, v) :: m.entries.filter (·.1 ≠ i)
  nodup := by
    rw [List.map_cons, List.nodup_cons]
    refine ⟨fun h ↦ ?_, m.nodup.sublist (List.filter_sublist.map Prod.fst)⟩
    obtain ⟨e, he, hi⟩ := List.mem_map.mp h
    simp_all

theorem get_insert (i j : ℕ) (v : V) :
    (m.insert i v).get j = if j = i then some v else m.get j := by
  refine Option.ext fun w ↦ ?_
  rw [get_eq_some_iff, insert]
  split
  · subst j
    simp [eq_comm]
  · rename_i hij
    simp [hij, get_eq_some_iff]

theorem get_foldl_insert (entries : List (ℕ × α)) (f : α → V) (i : ℕ) :
    (entries.foldl (fun m e ↦ m.insert e.1 (f e.2)) m).get i =
      ((entries.reverse.lookup i).map f).or (m.get i) := by
  induction entries generalizing m with
  | nil => rfl
  | cons e entries ih =>
    rw [List.foldl_cons, ih, get_insert, List.reverse_cons, List.lookup_append]
    cases entries.reverse.lookup i with
    | some a => rfl
    | none =>
      by_cases hi : i = e.1
      · simp [hi, List.lookup]
      · simp [hi, List.lookup, beq_false_of_ne hi]

theorem lookup_eq_of_perm {entries entries' : List (ℕ × V)}
    (hnodup : (entries.map Prod.fst).Nodup) (h : entries.Perm entries') (i : ℕ) :
    entries.lookup i = entries'.lookup i := by
  have hnodup' := (h.map Prod.fst).nodup_iff.mp hnodup
  refine Option.ext fun v ↦ ⟨fun hv ↦ ?_, fun hv ↦ ?_⟩
  · exact lookup_of_mem hnodup' (h.mem_iff.mp (mem_of_lookup hv))
  · exact lookup_of_mem hnodup (h.mem_iff.mpr (mem_of_lookup hv))

/-- Maps that hold the same differ at most in the order they iterate in. -/
theorem perm_of_get_eq {m m' : HashMap V} (h : ∀ i, m.get i = m'.get i) :
    m.entries.Perm m'.entries := by
  apply (List.perm_ext_iff_of_nodup (m.nodup.of_map _) (m'.nodup.of_map _)).mpr
  rintro ⟨i, v⟩
  rw [← get_eq_some_iff, ← get_eq_some_iff, h i]

end HashMap

section Lookup

open Finset

variable {f : V → ℤ} {entries : List (ℕ × V)}

theorem lookup_cons_elim (e : ℕ × V) (i : ℕ) : (List.lookup i (e :: entries)).elim 0 f =
    if i = e.1 then f e.2 else (entries.lookup i).elim 0 f := by
  by_cases hi : i = e.1
  · simp [List.lookup, hi]
  · simp [List.lookup, hi, beq_false_of_ne hi]

theorem lookup_elim_nonneg (hf : ∀ e ∈ entries, 0 ≤ f e.2) (i : ℕ) :
    0 ≤ (entries.lookup i).elim 0 f := by
  cases h : entries.lookup i with
  | none => exact le_rfl
  | some v => exact hf _ (HashMap.mem_of_lookup h)

theorem sum_lookup_le (hf : ∀ e ∈ entries, 0 ≤ f e.2) (s : Finset ℕ) :
    ∑ i ∈ s, (entries.lookup i).elim 0 f ≤ (entries.map fun e ↦ f e.2).sum := by
  induction entries with
  | nil => simp
  | cons e entries ih =>
    rw [List.forall_mem_cons] at hf
    have hterm : ∀ i ∈ s, (List.lookup i (e :: entries)).elim 0 f ≤
        (if i = e.1 then f e.2 else 0) + (entries.lookup i).elim 0 f := by
      intro i _
      have hi := lookup_elim_nonneg hf.2 i
      rw [lookup_cons_elim]
      split <;> omega
    have hhead : ∑ i ∈ s, (if i = e.1 then f e.2 else 0) ≤ f e.2 := by
      rw [sum_ite_eq']
      split
      · exact le_rfl
      · exact hf.1
    calc
      _ ≤ ∑ i ∈ s, ((if i = e.1 then f e.2 else 0) + (entries.lookup i).elim 0 f) :=
        sum_le_sum hterm
      _ ≤ f e.2 + (entries.map fun e ↦ f e.2).sum := by
        rw [sum_add_distrib]
        exact add_le_add hhead (ih hf.2)
      _ = _ := by rw [List.map_cons, List.sum_cons]

theorem sum_lookup_filter {M : Type} [AddCommMonoid M] (f : V → M)
    (hnodup : (entries.map Prod.fst).Nodup) (s : Finset ℕ) :
    ∑ i ∈ s, (entries.lookup i).elim 0 f =
      ((entries.filter (·.1 ∈ s)).map fun e ↦ f e.2).sum := by
  induction entries with
  | nil => simp
  | cons e entries ih =>
    rw [List.map_cons, List.nodup_cons] at hnodup
    have hterm (i : ℕ) : (List.lookup i (e :: entries)).elim 0 f =
        (if i = e.1 then f e.2 else 0) + (entries.lookup i).elim 0 f := by
      by_cases hi : i = e.1
      · have hnone : entries.lookup i = none := by
          refine Option.eq_none_iff_forall_ne_some.mpr fun v hv ↦ hnodup.1 ?_
          exact List.mem_map.mpr ⟨(i, v), HashMap.mem_of_lookup hv, hi⟩
        rw [hnone]
        simp [List.lookup, hi]
      · simp [List.lookup, hi, beq_false_of_ne hi]
    simp only [hterm]
    rw [sum_add_distrib, ih hnodup.2, sum_ite_eq']
    by_cases he : e.1 ∈ s
    · simp [he]
    · simp [he]

theorem sum_range_lookup {n : ℕ} (hn : (entries.map Prod.fst).Nodup)
    (hlt : ∀ e ∈ entries, e.1 < n) :
    ∑ i ∈ range n, (entries.lookup i).elim 0 f = (entries.map fun e ↦ f e.2).sum := by
  rw [sum_lookup_filter f hn, List.filter_eq_self.mpr]
  intro e he
  exact decide_eq_true (mem_range.mpr (hlt e he))

end Lookup

end HieroCryptography.Rust
