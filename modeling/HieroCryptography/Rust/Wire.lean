import HieroCryptography.Rust.Collections

namespace HieroCryptography.Rust

variable {α β : Type}

/-- A byte format: a writer, and a reader that takes one value off the front of its input. -/
structure Wire (α : Type) where
  write : α → Bytes
  read : Bytes → Option (α × Bytes)

namespace Wire

def nat (width : ℕ) : Wire ℕ where
  write n := leBytes width n
  read bytes :=
    if width ≤ bytes.length then some (ofLeBytes (bytes.take width), bytes.drop width) else none

def pair (u : Wire α) (v : Wire β) : Wire (α × β) where
  write p := u.write p.1 ++ v.write p.2
  read bytes := do
    let (a, bytes) ← u.read bytes
    let (b, bytes) ← v.read bytes
    some ((a, b), bytes)

/-- The same bytes as another type, of which the reader may refuse some values. -/
def refine (w : Wire α) (f : α → Option β) (g : β → α) : Wire β where
  write b := w.write (g b)
  read bytes := do
    let (a, bytes) ← w.read bytes
    let b ← f a
    some (b, bytes)

def record (w : Wire α) (f : α → β) (g : β → α) : Wire β := w.refine (fun a ↦ some (f a)) g

def readMany (w : Wire α) : ℕ → Bytes → Option (List α × Bytes)
  | 0, bytes => some ([], bytes)
  | n + 1, bytes => do
    let (a, bytes) ← w.read bytes
    let (as, bytes) ← w.readMany n bytes
    some (a :: as, bytes)

def writeVec (write : α → Bytes) (as : List α) : Bytes :=
  (nat 8).write as.length ++ as.flatMap write

/-- The readers of the serialization crates are taken to refuse what they cannot read. That they
never panic or run out of memory on it, however long a vector it announces, is assumed. -/
def vec (w : Wire α) : Wire (List α) where
  write := writeVec w.write
  read bytes := do
    let (n, bytes) ← (nat 8).read bytes
    w.readMany n bytes

/-- A residue in a fixed count of bytes, of which the reader refuses numbers not reduced. -/
def residue (n width : ℕ) : Wire (ZMod n) :=
  (nat width).refine (fun m ↦ if m < n then some (m : ZMod n) else none) ZMod.val

def byte : Wire UInt8 where
  write b := [b]
  read
    | [] => none
    | b :: bytes => some (b, bytes)

def bool : Wire Bool :=
  byte.refine (fun b ↦ if b = 0 then some false else if b = 1 then some true else none)
    fun b ↦ if b then 1 else 0

def array (w : Wire α) (n : ℕ) : Wire (Vector α n) where
  write v := v.toList.flatMap w.write
  read bytes := do
    let (as, bytes) ← w.readMany n bytes
    if h : as.length = n then some (⟨as.toArray, h⟩, bytes) else none

/-- The variants of an enumeration: a number in four bytes, then the variant's own fields. -/
def tagged (tag : α → ℕ) (variant : ℕ → Option (Wire α)) : Wire α where
  write a := (nat 4).write (tag a) ++ ((variant (tag a)).elim [] fun w ↦ w.write a)
  read bytes := do
    let (t, bytes) ← (nat 4).read bytes
    let w ← variant t
    w.read bytes

def variant (w : Wire β) (f : β → α) (g : α → Option β) : Wire α where
  write a := (g a).elim [] w.write
  read bytes := (w.read bytes).map fun (b, bytes) ↦ (f b, bytes)

/-- The value at the front of the input, whatever follows it. -/
def decode (w : Wire α) (bytes : Bytes) : Option α := (w.read bytes).map Prod.fst

/-- The reader gives back a written value, and leaves what follows it. -/
def Reads (w : Wire α) (a : α) : Prop := ∀ rest, w.read (w.write a ++ rest) = some (a, rest)

def Takes (w : Wire α) (k : ℕ) : Prop :=
  ∀ bytes a rest, w.read bytes = some (a, rest) → bytes.length = k + rest.length

def Shrinks (w : Wire α) : Prop :=
  ∀ bytes a rest, w.read bytes = some (a, rest) → rest.length ≤ bytes.length

/-- The reader accepts a value in its written form only. -/
def Canonical (w : Wire α) : Prop :=
  ∀ bytes a rest, w.read bytes = some (a, rest) → bytes = w.write a ++ rest

section Inversion

variable {u : Wire α} {v : Wire β} {w : Wire α} {bytes rest : Bytes}

theorem pair_read_iff {p : α × β} : (u.pair v).read bytes = some (p, rest) ↔
    ∃ middle, u.read bytes = some (p.1, middle) ∧ v.read middle = some (p.2, rest) := by
  simp only [Wire.pair, Option.bind_eq_bind, Option.bind_eq_some_iff]
  constructor
  · intro ⟨⟨a, middle⟩, ha, ⟨b, rest'⟩, hb, hp⟩
    cases hp
    exact ⟨middle, ha, hb⟩
  · intro ⟨middle, ha, hb⟩
    exact ⟨_, ha, _, hb, rfl⟩

theorem refine_read_iff {f : α → Option β} {g : β → α} {b : β} :
    (w.refine f g).read bytes = some (b, rest) ↔
      ∃ a, w.read bytes = some (a, rest) ∧ f a = some b := by
  simp only [Wire.refine, Option.bind_eq_bind, Option.bind_eq_some_iff]
  constructor
  · intro ⟨⟨a, rest'⟩, ha, b', hb, hp⟩
    cases hp
    exact ⟨a, ha, hb⟩
  · intro ⟨a, ha, hb⟩
    exact ⟨_, ha, _, hb, rfl⟩

theorem readMany_succ_iff {n : ℕ} {as : List α} :
    w.readMany (n + 1) bytes = some (as, rest) ↔ ∃ a as' middle, as = a :: as' ∧
      w.read bytes = some (a, middle) ∧ w.readMany n middle = some (as', rest) := by
  simp only [Wire.readMany, Option.bind_eq_bind, Option.bind_eq_some_iff]
  constructor
  · intro ⟨⟨a, middle⟩, ha, ⟨as', rest'⟩, has, hp⟩
    cases hp
    exact ⟨a, as', middle, rfl, ha, has⟩
  · intro ⟨a, as', middle, h, ha, has⟩
    subst h
    exact ⟨_, ha, _, has, rfl⟩

theorem vec_read_iff {as : List α} : w.vec.read bytes = some (as, rest) ↔
    ∃ n middle, (nat 8).read bytes = some (n, middle) ∧
      w.readMany n middle = some (as, rest) := by
  simp only [Wire.vec, Option.bind_eq_bind, Option.bind_eq_some_iff, Prod.exists]

theorem array_read_iff {n : ℕ} {v : Vector α n} : (w.array n).read bytes = some (v, rest) ↔
    w.readMany n bytes = some (v.toList, rest) := by
  simp only [Wire.array, Option.bind_eq_bind, Option.bind_eq_some_iff, Prod.exists]
  constructor
  · intro ⟨as, rest', has, h⟩
    split at h
    · cases h
      exact has
    · cases h
  · intro h
    refine ⟨_, _, h, ?_⟩
    rw [dif_pos (Vector.length_toList)]
    rfl

theorem variant_read_iff {w : Wire β} {f : β → α} {g : α → Option β} {a : α} :
    (w.variant f g).read bytes = some (a, rest) ↔
      ∃ b, w.read bytes = some (b, rest) ∧ f b = a := by
  simp only [Wire.variant, Option.map_eq_some_iff, Prod.exists, Prod.mk.injEq]
  constructor
  · intro ⟨b, rest', hb, ha, hrest⟩
    exact ⟨b, hrest ▸ hb, ha⟩
  · intro ⟨b, hb, ha⟩
    exact ⟨b, rest, hb, ha, rfl⟩

theorem tagged_read_iff {tag : α → ℕ} {variants : ℕ → Option (Wire α)} {a : α} :
    (tagged tag variants).read bytes = some (a, rest) ↔
      ∃ t middle v, (nat 4).read bytes = some (t, middle) ∧ variants t = some v ∧
        v.read middle = some (a, rest) := by
  simp only [Wire.tagged, Option.bind_eq_bind, Option.bind_eq_some_iff, Prod.exists]
  constructor
  · intro ⟨t, middle, ht, v, hv, ha⟩
    exact ⟨t, middle, v, ht, hv, ha⟩
  · intro ⟨t, middle, v, ht, hv, ha⟩
    exact ⟨t, middle, ht, v, hv, ha⟩

end Inversion

section Reads

variable {u : Wire α} {v : Wire β} {w : Wire α}

theorem nat_reads {width n : ℕ} (h : n < 256 ^ width) : (nat width).Reads n := by
  intro rest
  have hlen := length_leBytes width n
  have hle : width ≤ (leBytes width n ++ rest).length := by
    rw [List.length_append, hlen]
    exact Nat.le_add_right width rest.length
  simp only [nat, if_pos hle, List.take_left' hlen, List.drop_left' hlen, ofLeBytes_leBytes h]

theorem Reads.pair {a : α} {b : β} (ha : u.Reads a) (hb : v.Reads b) :
    (u.pair v).Reads (a, b) := by
  intro rest
  simp only [Wire.pair, List.append_assoc, ha _, hb _, Option.bind_eq_bind, Option.bind_some]

theorem Reads.refine {f : α → Option β} {g : β → α} {b : β} (h : w.Reads (g b))
    (hf : f (g b) = some b) : (w.refine f g).Reads b := by
  intro rest
  simp only [Wire.refine, h _, hf, Option.bind_eq_bind, Option.bind_some]

theorem Reads.record {f : α → β} {g : β → α} {b : β} (h : w.Reads (g b)) (hf : f (g b) = b) :
    (w.record f g).Reads b :=
  h.refine (congrArg some hf)

theorem readMany_flatMap {as : List α} (h : ∀ a ∈ as, w.Reads a) (rest : Bytes) :
    w.readMany as.length (as.flatMap w.write ++ rest) = some (as, rest) := by
  induction as with
  | nil => rfl
  | cons a as ih =>
    rw [List.forall_mem_cons] at h
    simp only [List.length_cons, readMany, List.flatMap_cons, List.append_assoc, h.1 _, ih h.2,
      Option.bind_eq_bind, Option.bind_some]

theorem Reads.vec {as : List α} (hlen : as.length < 2 ^ 64) (h : ∀ a ∈ as, w.Reads a) :
    w.vec.Reads as := by
  intro rest
  have hn : (nat 8).Reads as.length := nat_reads (by omega)
  simp only [Wire.vec, writeVec, List.append_assoc, hn _, readMany_flatMap h, Option.bind_eq_bind,
    Option.bind_some]

theorem residue_reads {n width : ℕ} [NeZero n] (h : n ≤ 256 ^ width) (x : ZMod n) :
    (residue n width).Reads x := by
  have hval : x.val < n := ZMod.val_lt x
  apply (nat_reads (hval.trans_le h)).refine
  rw [if_pos hval, ZMod.natCast_zmod_val]

theorem byte_reads (b : UInt8) : byte.Reads b := fun _ ↦ rfl

theorem bool_reads (b : Bool) : bool.Reads b := (byte_reads _).refine (by cases b <;> rfl)

theorem Reads.array {n : ℕ} {v : Vector α n} (h : ∀ a ∈ v.toList, w.Reads a) :
    (w.array n).Reads v := by
  intro rest
  have hmany := readMany_flatMap h rest
  rw [Vector.length_toList] at hmany
  exact array_read_iff.mpr hmany

theorem Reads.variant {w : Wire β} {f : β → α} {g : α → Option β} {a : α} {b : β}
    (hb : w.Reads b) (hg : g a = some b) (hf : f b = a) : (w.variant f g).Reads a := by
  intro rest
  simp only [Wire.variant, hg, Option.elim_some, hb rest, Option.map_some, hf]

theorem Reads.tagged {tag : α → ℕ} {variants : ℕ → Option (Wire α)} {a : α} {v : Wire α}
    (htag : tag a < 256 ^ 4) (hv : variants (tag a) = some v) (ha : v.Reads a) :
    (tagged tag variants).Reads a := by
  intro rest
  simp only [Wire.tagged, hv, Option.elim_some, List.append_assoc, nat_reads htag _, ha rest,
    Option.bind_eq_bind, Option.bind_some]

theorem Reads.read_write {a : α} (h : w.Reads a) : w.read (w.write a) = some (a, []) := by
  have := h []
  rwa [List.append_nil] at this

theorem Reads.decode_write {a : α} (h : w.Reads a) : w.decode (w.write a) = some a := by
  rw [Wire.decode, h.read_write, Option.map_some]

end Reads

section Takes

variable {u : Wire α} {v : Wire β} {w : Wire α} {k l : ℕ}

theorem nat_takes (width : ℕ) : (nat width).Takes width := by
  intro bytes a rest h
  simp only [nat, Option.ite_none_right_eq_some, Option.some.injEq, Prod.mk.injEq] at h
  obtain ⟨hle, -, rfl⟩ := h
  rw [List.length_drop]
  omega

theorem Takes.pair (hu : u.Takes k) (hv : v.Takes l) : (u.pair v).Takes (k + l) := by
  intro bytes p rest h
  obtain ⟨middle, ha, hb⟩ := pair_read_iff.mp h
  rw [hu _ _ _ ha, hv _ _ _ hb, Nat.add_assoc]

theorem Takes.refine (hw : w.Takes k) (f : α → Option β) (g : β → α) :
    (w.refine f g).Takes k := by
  intro bytes b rest h
  obtain ⟨a, ha, hb⟩ := refine_read_iff.mp h
  exact hw _ _ _ ha

theorem Takes.record (hw : w.Takes k) (f : α → β) (g : β → α) : (w.record f g).Takes k :=
  hw.refine _ g

theorem residue_takes (n width : ℕ) : (residue n width).Takes width :=
  (nat_takes width).refine _ _

theorem byte_takes : byte.Takes 1 := by
  intro bytes b rest h
  cases bytes with
  | nil => cases h
  | cons b' bytes =>
    cases h
    exact Nat.add_comm _ _

theorem Takes.shrinks (hw : w.Takes k) : w.Shrinks := by
  intro bytes a rest h
  rw [hw _ _ _ h]
  exact Nat.le_add_left ..

theorem Takes.length_write (hw : w.Takes k) {a : α} (h : w.Reads a) :
    (w.write a).length = k :=
  hw _ _ _ h.read_write

theorem Takes.readMany (hw : w.Takes k) (n : ℕ) {bytes rest : Bytes} {as : List α}
    (h : w.readMany n bytes = some (as, rest)) :
    as.length = n ∧ bytes.length = k * n + rest.length := by
  induction n generalizing bytes as with
  | zero =>
    cases h
    simp
  | succ n ih =>
    obtain ⟨a, as', middle, has, ha, hmany⟩ := readMany_succ_iff.mp h
    obtain ⟨hlen, hbytes⟩ := ih hmany
    refine ⟨by rw [has, List.length_cons, hlen], ?_⟩
    rw [hw _ _ _ ha, hbytes, Nat.mul_succ]
    omega

theorem Takes.array (hw : w.Takes k) (n : ℕ) : (w.array n).Takes (k * n) := by
  intro bytes v rest h
  exact (hw.readMany n (array_read_iff.mp h)).2

theorem Takes.variant {w : Wire β} (hw : w.Takes k) (f : β → α) (g : α → Option β) :
    (w.variant f g).Takes k := by
  intro bytes a rest h
  obtain ⟨b, hb, -⟩ := variant_read_iff.mp h
  exact hw _ _ _ hb

theorem Takes.vec (hw : w.Takes k) {bytes rest : Bytes} {as : List α}
    (h : w.vec.read bytes = some (as, rest)) :
    bytes.length = 8 + k * as.length + rest.length := by
  obtain ⟨n, middle, hn, hmany⟩ := vec_read_iff.mp h
  obtain ⟨rfl, hbytes⟩ := hw.readMany n hmany
  rw [nat_takes 8 _ _ _ hn, hbytes, Nat.add_assoc]

theorem Takes.write_ne_nil (hw : w.Takes k) (hk : 0 < k) {a : α} (ha : w.Reads a) :
    w.write a ≠ [] := by
  apply List.ne_nil_of_length_pos
  rwa [hw.length_write ha]

theorem Takes.length_write_vec (hw : w.Takes k) {as : List α} (h : ∀ a ∈ as, w.Reads a) :
    (w.vec.write as).length = 8 + k * as.length := by
  have hmany := (hw.readMany _ (readMany_flatMap h [])).2
  simp only [List.append_nil, List.length_nil, Nat.add_zero] at hmany
  simp only [Wire.vec, writeVec, List.length_append, hmany, nat, length_leBytes]

end Takes

section Canonical

variable {u : Wire α} {v : Wire β} {w : Wire α}

theorem nat_canonical (width : ℕ) : (nat width).Canonical := by
  intro bytes n rest h
  simp only [nat, Option.ite_none_right_eq_some, Option.some.injEq, Prod.mk.injEq] at h ⊢
  obtain ⟨hle, rfl, rfl⟩ := h
  have hwidth : (bytes.take width).length = width := List.length_take_of_le hle
  have hbytes := leBytes_ofLeBytes (bytes.take width)
  rw [hwidth] at hbytes
  rw [hbytes, List.take_append_drop]

theorem Canonical.pair (hu : u.Canonical) (hv : v.Canonical) : (u.pair v).Canonical := by
  intro bytes p rest h
  obtain ⟨middle, ha, hb⟩ := pair_read_iff.mp h
  rw [hu _ _ _ ha, hv _ _ _ hb, Wire.pair, List.append_assoc]

theorem Canonical.refine (hw : w.Canonical) {f : α → Option β} {g : β → α}
    (hfg : ∀ a b, f a = some b → g b = a) : (w.refine f g).Canonical := by
  intro bytes b rest h
  obtain ⟨a, ha, hb⟩ := refine_read_iff.mp h
  rw [hw _ _ _ ha, ← hfg a b hb]
  rfl

theorem Canonical.record (hw : w.Canonical) {f : α → β} {g : β → α} (hfg : ∀ a, g (f a) = a) :
    (w.record f g).Canonical := by
  apply hw.refine
  intro a b h
  cases h
  exact hfg a

theorem residue_canonical (n width : ℕ) : (residue n width).Canonical := by
  apply (nat_canonical width).refine
  intro m x h
  obtain ⟨hlt, hx⟩ := Option.ite_none_right_eq_some.mp h
  cases hx
  exact ZMod.val_cast_of_lt hlt

end Canonical

end Wire

end HieroCryptography.Rust
