import Mathlib

namespace HieroCryptography.Foundation

/-- A number in base 128, most significant first, with the high bit set on every byte but the
last. -/
def base128 (n : ℕ) : List UInt8 :=
  (Nat.digits 128 (n / 128)).reverse.map (fun d ↦ UInt8.ofNat (128 + d)) ++ [UInt8.ofNat (n % 128)]

/-- Reads consecutive numbers, in the middle of one of which `acc` has been read. A number must not
start with a zero. -/
def readBase128 (acc : ℕ) : List UInt8 → Option (List ℕ)
  | [] => if acc = 0 then some [] else none
  | b :: bytes =>
    if b.toNat < 128 then (readBase128 0 bytes).map ((128 * acc + b.toNat) :: ·)
    else if 128 * acc + (b.toNat - 128) = 0 then none
    else readBase128 (128 * acc + (b.toNat - 128)) bytes

theorem length_base128_le_iff {n width : ℕ} :
    (base128 n).length ≤ width + 1 ↔ n < 128 ^ (width + 1) := by
  rw [base128, List.length_append, List.length_map, List.length_reverse, List.length_singleton,
    Nat.add_le_add_iff_right, Nat.digits_length_le_iff (by norm_num), pow_succ,
    Nat.div_lt_iff_lt_mul (by norm_num)]

section Read

theorem readBase128_continued (m : ℕ) (bytes : List UInt8) :
    readBase128 0 ((Nat.digits 128 m).reverse.map (fun d ↦ UInt8.ofNat (128 + d)) ++ bytes) =
      readBase128 m bytes := by
  induction m using Nat.strongRecOn generalizing bytes with
  | ind m ih =>
    rcases Nat.eq_zero_or_pos m with rfl | hm
    · simp
    · have hbyte : (UInt8.ofNat (128 + m % 128)).toNat = 128 + m % 128 := by
        rw [UInt8.toNat_ofNat']
        omega
      rw [Nat.digits_def' (by norm_num) hm, List.reverse_cons, List.map_append, List.append_assoc,
        ih (m / 128) (by omega), List.map_singleton, List.singleton_append, readBase128, hbyte,
        Nat.add_sub_cancel_left, Nat.div_add_mod, if_neg (by omega), if_neg (by omega)]

theorem readBase128_append (n : ℕ) (bytes : List UInt8) :
    readBase128 0 (base128 n ++ bytes) = (readBase128 0 bytes).map (n :: ·) := by
  have hbyte : (UInt8.ofNat (n % 128)).toNat = n % 128 := by
    rw [UInt8.toNat_ofNat']
    omega
  rw [base128, List.append_assoc, readBase128_continued, List.singleton_append, readBase128, hbyte,
    if_pos (by omega), Nat.div_add_mod]

theorem readBase128_flatMap (values : List ℕ) :
    readBase128 0 (values.flatMap base128) = some values := by
  induction values with
  | nil => rfl
  | cons n values ih => rw [List.flatMap_cons, readBase128_append, ih, Option.map_some]

theorem flatMap_base128_inj {values values' : List ℕ} :
    values.flatMap base128 = values'.flatMap base128 ↔ values = values' := by
  constructor
  · intro h
    have hread := readBase128_flatMap values
    rw [h, readBase128_flatMap] at hread
    exact (Option.some.inj hread).symm
  · exact congrArg _

theorem forall_some_of_filterMap_eq {α : Type} {g : α → Option α} {xs : List α}
    (h : xs.filterMap g = xs) : ∀ x ∈ xs, g x = some x := by
  induction xs with
  | nil => exact nofun
  | cons x xs ih =>
    cases hx : g x with
    | none =>
      rw [List.filterMap_cons_none hx] at h
      have hle := List.length_filterMap_le g xs
      rw [h, List.length_cons] at hle
      omega
    | some y =>
      rw [List.filterMap_cons_some hx] at h
      obtain ⟨rfl, hrest⟩ := List.cons.inj h
      exact List.forall_mem_cons.mpr ⟨hx, ih hrest⟩

/-- When some numbers are encoded as others, and some left out, the bytes still show it. -/
theorem forall_some_of_flatMap_base128 {g : ℕ → Option ℕ} {values : List ℕ}
    (h : (values.flatMap fun v ↦ (g v).elim [] base128) = values.flatMap base128) :
    ∀ v ∈ values, g v = some v := by
  have hfilter (values : List ℕ) : (values.flatMap fun v ↦ (g v).elim [] base128) =
      (values.filterMap g).flatMap base128 := by
    induction values with
    | nil => rfl
    | cons v values ih =>
      rw [List.flatMap_cons, ih]
      cases hv : g v with
      | none => rw [List.filterMap_cons_none hv, Option.elim_none, List.nil_append]
      | some w => rw [List.filterMap_cons_some hv, Option.elim_some, List.flatMap_cons]
  rw [hfilter, flatMap_base128_inj] at h
  exact forall_some_of_filterMap_eq h

end Read

section Digits

variable {digit : ℕ → ℕ}

def ofSeptets (digit : ℕ → ℕ) (n : ℕ) : ℕ := Nat.ofDigits 128 ((List.range n).map digit)

def septets (digit : ℕ → ℕ) : ℕ → List UInt8
  | 0 => []
  | n + 1 => UInt8.ofNat (digit n + if n = 0 then 0 else 128) :: septets digit n

/-- The first `n` digits from the most significant that is not zero. -/
def strippedSeptets (digit : ℕ → ℕ) : ℕ → List UInt8
  | 0 => []
  | n + 1 => if digit n = 0 then strippedSeptets digit n else septets digit (n + 1)

theorem length_septets (digit : ℕ → ℕ) (n : ℕ) : (septets digit n).length = n := by
  induction n with
  | zero => rfl
  | succ n ih => rw [septets, List.length_cons, ih]

theorem ofSeptets_succ (digit : ℕ → ℕ) (n : ℕ) :
    ofSeptets digit (n + 1) = digit 0 + 128 * ofSeptets (fun k ↦ digit (k + 1)) n := by
  rw [ofSeptets, List.range_succ_eq_map, List.map_cons, List.map_map, Nat.ofDigits_cons]
  rfl

theorem ofSeptets_succ_high (digit : ℕ → ℕ) (n : ℕ) :
    ofSeptets digit (n + 1) = ofSeptets digit n + 128 ^ n * digit n := by
  rw [ofSeptets, List.range_succ, List.map_append, List.map_singleton, Nat.ofDigits_append,
    Nat.ofDigits_singleton, List.length_map, List.length_range, ofSeptets]

theorem septets_succ_eq (digit : ℕ → ℕ) (n : ℕ) :
    septets digit (n + 1) = (((List.range n).map fun k ↦ digit (k + 1)).reverse.map
      fun d ↦ UInt8.ofNat (128 + d)) ++ [UInt8.ofNat (digit 0)] := by
  induction n with
  | zero => rfl
  | succ n ih =>
    rw [septets, ih, if_neg (Nat.succ_ne_zero n), List.range_succ, List.map_append,
      List.map_singleton, List.reverse_append, List.map_append, Nat.add_comm _ 128]
    rfl

theorem septets_eq_base128 (hdigit : ∀ k, digit k < 128) {n : ℕ} (h : digit n ≠ 0) :
    septets digit (n + 1) = base128 (ofSeptets digit (n + 1)) := by
  have hlow := hdigit 0
  have hdiv : ofSeptets digit (n + 1) / 128 = ofSeptets (fun k ↦ digit (k + 1)) n := by
    rw [ofSeptets_succ]
    omega
  have hmod : ofSeptets digit (n + 1) % 128 = digit 0 := by
    rw [ofSeptets_succ]
    omega
  have hdigits : Nat.digits 128 (ofSeptets (fun k ↦ digit (k + 1)) n) =
      (List.range n).map fun k ↦ digit (k + 1) := by
    refine Nat.digits_ofDigits 128 (by norm_num) _ (fun d hd ↦ ?_) fun hne ↦ ?_
    · obtain ⟨k, -, rfl⟩ := List.mem_map.mp hd
      exact hdigit (k + 1)
    · cases n with
      | zero => exact absurd rfl hne
      | succ n =>
        rw [List.getLast_map (by simp), List.getLast_range]
        exact h
  rw [base128, hdiv, hmod, hdigits, septets_succ_eq]

theorem strippedSeptets_eq (hdigit : ∀ k, digit k < 128) (n : ℕ) :
    strippedSeptets digit n =
      if ofSeptets digit n = 0 then [] else base128 (ofSeptets digit n) := by
  induction n with
  | zero => rfl
  | succ n ih =>
    rw [strippedSeptets]
    by_cases h : digit n = 0
    · rw [if_pos h, ih, ofSeptets_succ_high, h, Nat.mul_zero, Nat.add_zero]
    · have hpos : ofSeptets digit (n + 1) ≠ 0 := by
        rw [ofSeptets_succ_high]
        have hhigh : 0 < 128 ^ n * digit n := by positivity
        omega
      rw [if_neg h, if_neg hpos, septets_eq_base128 hdigit h]

theorem ofSeptets_eq_iff (hdigit : ∀ k, digit k < 128) {n v : ℕ} (hv : v < 128 ^ n) :
    ofSeptets digit n = v ↔ ∀ k < n, digit k = v / 128 ^ k % 128 := by
  induction n generalizing digit v with
  | zero =>
    obtain rfl : v = 0 := Nat.lt_one_iff.mp hv
    exact ⟨fun _ k hk ↦ absurd hk (Nat.not_lt_zero k), fun _ ↦ rfl⟩
  | succ n ih =>
    have hlow := hdigit 0
    have hdiv : v / 128 < 128 ^ n := Nat.div_lt_of_lt_mul (by rwa [pow_succ'] at hv)
    have hsplit : ofSeptets digit (n + 1) = v ↔
        digit 0 = v % 128 ∧ ofSeptets (fun k ↦ digit (k + 1)) n = v / 128 := by
      rw [ofSeptets_succ]
      omega
    rw [hsplit, ih (fun k ↦ hdigit (k + 1)) hdiv]
    constructor
    · rintro ⟨h0, hrest⟩ k hk
      cases k with
      | zero => rw [pow_zero, Nat.div_one, h0]
      | succ k =>
        rw [hrest k (by omega), Nat.div_div_eq_div_mul, ← pow_succ']
    · intro h
      refine ⟨by simpa using h 0 (Nat.succ_pos n), fun k hk ↦ ?_⟩
      rw [h (k + 1) (by omega), Nat.div_div_eq_div_mul, ← pow_succ']

end Digits

end HieroCryptography.Foundation
