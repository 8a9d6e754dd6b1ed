import Mathlib

namespace HieroCryptography.Foundation

def ofBigEndian (bytes : List UInt8) : ℕ := bytes.foldl (fun acc b ↦ 256 * acc + b.toNat) 0

def toBigEndian : ℕ → ℕ → List UInt8
  | 0, _ => []
  | width + 1, n => toBigEndian width (n / 256) ++ [UInt8.ofNat n]

@[simp] theorem ofBigEndian_nil : ofBigEndian [] = 0 := rfl

theorem ofBigEndian_append_singleton (bytes : List UInt8) (b : UInt8) :
    ofBigEndian (bytes ++ [b]) = 256 * ofBigEndian bytes + b.toNat :=
  List.foldl_append

@[simp] theorem length_toBigEndian (width n : ℕ) : (toBigEndian width n).length = width := by
  induction width generalizing n with
  | zero => rfl
  | succ width ih => rw [toBigEndian, List.length_append, ih, List.length_singleton]

theorem ofBigEndian_toBigEndian {width n : ℕ} (h : n < 256 ^ width) :
    ofBigEndian (toBigEndian width n) = n := by
  induction width generalizing n with
  | zero => rw [Nat.lt_one_iff.mp h, toBigEndian, ofBigEndian_nil]
  | succ width ih =>
    have hdiv : n / 256 < 256 ^ width := Nat.div_lt_of_lt_mul (by rwa [pow_succ'] at h)
    rw [toBigEndian, ofBigEndian_append_singleton, ih hdiv, UInt8.toNat_ofNat']
    exact Nat.div_add_mod n 256

theorem toBigEndian_ofBigEndian (bytes : List UInt8) :
    toBigEndian bytes.length (ofBigEndian bytes) = bytes := by
  induction bytes using List.reverseRecOn with
  | nil => rfl
  | append_singleton bytes b ih =>
    have hb := b.toNat_lt
    have hdiv : (256 * ofBigEndian bytes + b.toNat) / 256 = ofBigEndian bytes := by omega
    have hmod : UInt8.ofNat (256 * ofBigEndian bytes + b.toNat) = b := by
      rw [← UInt8.toNat_inj, UInt8.toNat_ofNat']
      omega
    rw [List.length_append, List.length_singleton, toBigEndian, ofBigEndian_append_singleton,
      hdiv, hmod, ih]

theorem ofBigEndian_eq_iff {bytes : List UInt8} {width n : ℕ} (hlen : bytes.length = width)
    (h : n < 256 ^ width) : ofBigEndian bytes = n ↔ bytes = toBigEndian width n := by
  constructor
  · rintro rfl
    rw [← hlen, toBigEndian_ofBigEndian]
  · rintro rfl
    exact ofBigEndian_toBigEndian h

theorem lt_pow_of_lt_two_pow {n bits width : ℕ} (h : n < 2 ^ bits) (hbits : bits ≤ 8 * width) :
    n < 256 ^ width :=
  calc n < 2 ^ bits := h
    _ ≤ 2 ^ (8 * width) := Nat.pow_le_pow_right Nat.two_pos hbits
    _ = 256 ^ width := pow_mul 2 8 width

theorem div_pow_lt_of_lt_two_pow {n total bits width : ℕ} (h : n < 2 ^ total)
    (htotal : total = 8 * width + bits) : n / 256 ^ width < 2 ^ bits := by
  refine Nat.div_lt_of_lt_mul ?_
  rwa [htotal, pow_add, pow_mul] at h

theorem toBigEndian_succ (width n : ℕ) :
    toBigEndian (width + 1) n = UInt8.ofNat (n / 256 ^ width) :: toBigEndian width n := by
  induction width generalizing n with
  | zero => simp [toBigEndian]
  | succ width ih =>
    rw [toBigEndian, ih, Nat.div_div_eq_div_mul, ← pow_succ', List.cons_append]
    rfl

theorem getElem?_toBigEndian {width n i : ℕ} (h : i < width) :
    (toBigEndian width n)[width - i - 1]? = some (UInt8.ofNat (n / 256 ^ i)) := by
  induction width generalizing n i with
  | zero => exact absurd h (Nat.not_lt_zero i)
  | succ width ih =>
    rw [toBigEndian]
    cases i with
    | zero => simp
    | succ i =>
      have hindex : width + 1 - (i + 1) - 1 = width - i - 1 := by omega
      rw [hindex, List.getElem?_append_left (by rw [length_toBigEndian]; omega), ih (by omega),
        Nat.div_div_eq_div_mul, ← pow_succ']

theorem toBigEndian_zero (width : ℕ) : toBigEndian width 0 = List.replicate width 0 := by
  induction width with
  | zero => rfl
  | succ width ih => rw [toBigEndian, Nat.zero_div, ih, List.replicate_succ']; rfl

section Chunks

variable {α : Type}

def chunk (m : ℕ) (xs : List α) (i : ℕ) : List α := (xs.take ((i + 1) * m)).drop (i * m)

theorem length_chunk {m n i : ℕ} {xs : List α} (hlen : xs.length = n * m) (hi : i < n) :
    (chunk m xs i).length = m := by
  have hle : (i + 1) * m ≤ n * m := Nat.mul_le_mul_right m hi
  rw [chunk, List.length_drop, List.length_take, hlen, Nat.min_eq_left hle, Nat.succ_mul,
    Nat.add_sub_cancel_left]

theorem flatMap_chunk (m n : ℕ) (xs : List α) :
    (List.range n).flatMap (chunk m xs) = xs.take (n * m) := by
  induction n with
  | zero => simp
  | succ n ih =>
    have hle : n * m ≤ (n + 1) * m := Nat.mul_le_mul_right m n.le_succ
    have htake : (xs.take ((n + 1) * m)).take (n * m) = xs.take (n * m) := by
      rw [List.take_take, Nat.min_eq_left hle]
    rw [List.range_succ, List.flatMap_append, List.flatMap_singleton, ih, chunk, ← htake,
      List.take_append_drop]

theorem length_flatMap_range {f : ℕ → List α} {m n : ℕ} (h : ∀ i < n, (f i).length = m) :
    ((List.range n).flatMap f).length = n * m := by
  induction n with
  | zero => simp
  | succ n ih =>
    rw [List.range_succ, List.flatMap_append, List.length_append, List.flatMap_singleton,
      ih fun i hi ↦ h i (hi.trans n.lt_succ_self), h n n.lt_succ_self, Nat.succ_mul]

theorem chunk_flatMap {f : ℕ → List α} {m n i : ℕ} (h : ∀ i < n, (f i).length = m) (hi : i < n) :
    chunk m ((List.range n).flatMap f) i = f i := by
  induction n with
  | zero => exact absurd hi (Nat.not_lt_zero i)
  | succ n ih =>
    have hprev := fun i hi ↦ h i (Nat.lt_trans hi n.lt_succ_self)
    have hlen := length_flatMap_range hprev
    rw [List.range_succ, List.flatMap_append, List.flatMap_singleton]
    rcases Nat.lt_succ_iff_lt_or_eq.mp hi with hi | rfl
    · have hle : (i + 1) * m ≤ ((List.range n).flatMap f).length := by
        rw [hlen]
        exact Nat.mul_le_mul_right m hi
      rw [chunk, List.take_append_of_le_length hle]
      exact ih hprev hi
    · have hall : ((List.range i).flatMap f ++ f i).length ≤ (i + 1) * m := by
        rw [List.length_append, hlen, h i hi, Nat.succ_mul]
      rw [chunk, List.take_of_length_le hall, List.drop_left' hlen]

theorem flatMap_inj_of_length {β : Type} {f g : β → List α} {xs : List β}
    (hlen : ∀ x ∈ xs, (f x).length = (g x).length) (h : xs.flatMap f = xs.flatMap g) :
    ∀ x ∈ xs, f x = g x := by
  induction xs with
  | nil => exact fun x hx ↦ absurd hx List.not_mem_nil
  | cons x xs ih =>
    rw [List.forall_mem_cons] at hlen ⊢
    rw [List.flatMap_cons, List.flatMap_cons] at h
    obtain ⟨hx, hxs⟩ := List.append_inj h hlen.1
    exact ⟨hx, ih hlen.2 hxs⟩

theorem ofBigEndian_chunks_iff {bytes : List UInt8} {width n : ℕ} {values : ℕ → ℕ}
    (hlen : bytes.length = n * width) (hvalues : ∀ i, values i < 256 ^ width) :
    (∀ i < n, ofBigEndian (chunk width bytes i) = values i) ↔
      bytes = (List.range n).flatMap fun i ↦ toBigEndian width (values i) := by
  constructor
  · intro h
    rw [← List.take_length (l := bytes), hlen, ← flatMap_chunk]
    refine List.flatMap_congr fun i hi ↦ ?_
    have hi' := List.mem_range.mp hi
    exact (ofBigEndian_eq_iff (length_chunk hlen hi') (hvalues i)).mp (h i hi')
  · rintro rfl i hi
    rw [chunk_flatMap (fun i _ ↦ length_toBigEndian width (values i)) hi,
      ofBigEndian_toBigEndian (hvalues i)]

end Chunks

/-- An encoding whose outputs can be cut off the end of a longer string: no two values have
the same encoding, and all encodings are equally long. -/
structure FixedWidth {α : Type} (encode : α → List UInt8) : Prop where
  injective : Function.Injective encode
  length_eq : ∀ x y, (encode x).length = (encode y).length

theorem FixedWidth.append_inj {α : Type} {encode : α → List UInt8} (h : FixedWidth encode)
    {bytes bytes' : List UInt8} {x y : α} :
    bytes ++ encode x = bytes' ++ encode y ↔ bytes = bytes' ∧ x = y := by
  constructor
  · intro heq
    obtain ⟨hbytes, hxy⟩ := List.append_inj' heq (h.length_eq x y)
    exact ⟨hbytes, h.injective hxy⟩
  · intro heq
    rw [heq.1, heq.2]

end HieroCryptography.Foundation
