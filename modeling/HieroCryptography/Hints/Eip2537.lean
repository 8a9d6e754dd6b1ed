import HieroCryptography.Rust.Outcome
import HieroCryptography.Foundation.Bytes

namespace HieroCryptography.Hints

open Rust Foundation

variable {p : ℕ}

/-- An affine point with coordinates below the modulus `p`. The identity has zero coordinates. -/
structure P1Affine (p : ℕ) where
  x : Fin p
  y : Fin p
  deriving DecidableEq

structure Fp2 (p : ℕ) where
  c0 : Fin p
  c1 : Fin p
  deriving DecidableEq

structure P2Affine (p : ℕ) where
  x : Fp2 p
  y : Fp2 p
  deriving DecidableEq

/-- The coordinates in the order in which EIP-2537 writes them. -/
def P1Affine.coordinate (P : P1Affine p) : ℕ → ℕ
  | 0 => P.x
  | _ => P.y

def P2Affine.coordinate (P : P2Affine p) : ℕ → ℕ
  | 0 => P.x.c0
  | 1 => P.x.c1
  | 2 => P.y.c0
  | _ => P.y.c1

def P1Affine.IsIdentity (P : P1Affine p) : Prop := P.x.val = 0 ∧ P.y.val = 0

def P2Affine.IsIdentity (P : P2Affine p) : Prop :=
  P.x.c0.val = 0 ∧ P.x.c1.val = 0 ∧ P.y.c0.val = 0 ∧ P.y.c1.val = 0

structure Blst (p : ℕ) where
  p1Deserialize : List UInt8 → Option (P1Affine p)
  p1AffineInG1 : P1Affine p → Bool
  p2Deserialize : List UInt8 → Option (P2Affine p)
  p2AffineInG2 : P2Affine p → Bool

def zcashFlagsMask : UInt8 := 0xe0

/-- With the flags clear, the bytes are read as big-endian coordinates, which must be those of a
curve point and below the modulus. The coordinates in the extension are written `c1` first. -/
structure Blst.Documented (B : Blst p) (OnCurve1 : P1Affine p → Prop)
    (OnCurve2 : P2Affine p → Prop) : Prop where
  modulus_lt : p < 2 ^ 381
  p1 : ∀ bytes P, bytes.length = 96 → (∀ b ∈ bytes.head?, b &&& zcashFlagsMask = 0) →
    (B.p1Deserialize bytes = some P ↔ OnCurve1 P ∧ ofBigEndian (chunk 48 bytes 0) = P.x ∧
      ofBigEndian (chunk 48 bytes 1) = P.y)
  p2 : ∀ bytes P, bytes.length = 192 → (∀ b ∈ bytes.head?, b &&& zcashFlagsMask = 0) →
    (B.p2Deserialize bytes = some P ↔ OnCurve2 P ∧ ofBigEndian (chunk 48 bytes 0) = P.x.c1 ∧
      ofBigEndian (chunk 48 bytes 1) = P.x.c0 ∧ ofBigEndian (chunk 48 bytes 2) = P.y.c1 ∧
      ofBigEndian (chunk 48 bytes 3) = P.y.c0)

def Blst.ValidG1 (B : Blst p) (OnCurve1 : P1Affine p → Prop) (P : P1Affine p) : Prop :=
  OnCurve1 P ∧ B.p1AffineInG1 P = true ∧ ¬P.IsIdentity

def Blst.ValidG2 (B : Blst p) (OnCurve2 : P2Affine p → Prop) (P : P2Affine p) : Prop :=
  OnCurve2 P ∧ B.p2AffineInG2 P = true ∧ ¬P.IsIdentity

section Encode

def fqToBe48 (fq : Fin p) : List UInt8 := toBigEndian 48 fq

/-- `result[start..].copy_from_slice(src)`, for a slice of the length of `src`. -/
def copyFromSlice (result : List UInt8) (start : ℕ) (src : List UInt8) : List UInt8 :=
  result.take start ++ src ++ result.drop (start + src.length)

def g1ToEip2537 (point : P1Affine p) : List UInt8 :=
  let result := List.replicate 128 0
  let result := copyFromSlice result 16 (fqToBe48 point.x)
  copyFromSlice result 80 (fqToBe48 point.y)

def g2ToEip2537 (point : P2Affine p) : List UInt8 :=
  let result := List.replicate 256 0
  let result := copyFromSlice result 16 (fqToBe48 point.x.c0)
  let result := copyFromSlice result 80 (fqToBe48 point.x.c1)
  let result := copyFromSlice result 144 (fqToBe48 point.y.c0)
  copyFromSlice result 208 (fqToBe48 point.y.c1)

end Encode

section Decode

def fpLengthBytes : ℕ := 48

def eip2537FpPaddingLengthBytes : ℕ := 16

def eip2537FpLengthBytes : ℕ := eip2537FpPaddingLengthBytes + fpLengthBytes

def appendElement (encoded serialized : List UInt8) (element : ℕ) : Outcome Unit (List UInt8) := do
  let padded ← slice encoded (element * eip2537FpLengthBytes) ((element + 1) * eip2537FpLengthBytes)
  let (padding, fp) := padded.splitAt eip2537FpPaddingLengthBytes
  require (!padding.any (· != 0)) ()
  .ok (serialized ++ fp)

/-- `fail ()` is `None`. -/
def eip2537ToZcash (encoded : List UInt8) (order : List ℕ) : Outcome Unit (List UInt8) := do
  require (!(encoded.length != order.length * eip2537FpLengthBytes || encoded.all (· == 0))) ()
  let serialized ← order.foldlM (appendElement encoded) []
  let first ← index serialized 0
  require (first &&& zcashFlagsMask == 0) ()
  .ok serialized

def pointFromEip2537 {Pt : Type} (order : List ℕ) (deserialize : List UInt8 → Option Pt)
    (inGroup : Pt → Bool) (encoded : List UInt8) : Outcome Unit Pt := do
  let serialized ← eip2537ToZcash encoded order
  let point ← okOr (deserialize serialized) ()
  require (inGroup point) ()
  .ok point

def g1FromEip2537 (B : Blst p) : List UInt8 → Outcome Unit (P1Affine p) :=
  pointFromEip2537 [0, 1] B.p1Deserialize B.p1AffineInG1

def g2FromEip2537 (B : Blst p) : List UInt8 → Outcome Unit (P2Affine p) :=
  pointFromEip2537 [1, 0, 3, 2] B.p2Deserialize B.p2AffineInG2

end Decode

def eip2537Fp (n : ℕ) : List UInt8 := List.replicate 16 0 ++ toBigEndian 48 n

@[simp] theorem length_eip2537Fp (n : ℕ) : (eip2537Fp n).length = 64 := by
  rw [eip2537Fp, List.length_append, List.length_replicate, length_toBigEndian]

theorem copyFromSlice_fp (written : List UInt8) (n k : ℕ) :
    copyFromSlice (written ++ List.replicate (64 * (k + 1)) 0) (written.length + 16)
        (toBigEndian 48 n) = (written ++ eip2537Fp n) ++ List.replicate (64 * k) 0 := by
  have hzeros : List.replicate (64 * (k + 1)) (0 : UInt8) =
      List.replicate 16 0 ++ (List.replicate 48 0 ++ List.replicate (64 * k) 0) := by
    rw [List.replicate_append_replicate, List.replicate_append_replicate]
    congr 1
    omega
  have hstart : written.length + 16 = (written ++ List.replicate 16 (0 : UInt8)).length := by
    rw [List.length_append, List.length_replicate]
  rw [hzeros, ← List.append_assoc, hstart, copyFromSlice, List.take_left, ← List.drop_drop,
    List.drop_left, length_toBigEndian, List.drop_left' List.length_replicate, eip2537Fp]
  simp only [List.append_assoc]

theorem g1ToEip2537_eq (P : P1Affine p) :
    g1ToEip2537 P = (List.range 2).flatMap fun i ↦ eip2537Fp (P.coordinate i) := by
  have hx := copyFromSlice_fp [] P.x 1
  have hy := copyFromSlice_fp (eip2537Fp P.x) P.y 0
  rw [length_eip2537Fp] at hy
  simp only [List.length_nil, List.nil_append, Nat.reduceAdd, Nat.reduceMul, List.replicate_zero,
    List.append_nil] at hx hy
  have hrange : List.range 2 = [0, 1] := rfl
  simp only [g1ToEip2537, fqToBe48, hx, hy, hrange, List.flatMap_cons, List.flatMap_nil,
    List.append_nil, P1Affine.coordinate]

theorem g2ToEip2537_eq (P : P2Affine p) :
    g2ToEip2537 P = (List.range 4).flatMap fun i ↦ eip2537Fp (P.coordinate i) := by
  have hx0 := copyFromSlice_fp [] P.x.c0 3
  have hx1 := copyFromSlice_fp (eip2537Fp P.x.c0) P.x.c1 2
  have hy0 := copyFromSlice_fp (eip2537Fp P.x.c0 ++ eip2537Fp P.x.c1) P.y.c0 1
  have hy1 := copyFromSlice_fp (eip2537Fp P.x.c0 ++ eip2537Fp P.x.c1 ++ eip2537Fp P.y.c0) P.y.c1 0
  simp only [List.length_nil, List.nil_append, List.length_append, length_eip2537Fp,
    Nat.reduceAdd, Nat.reduceMul, List.replicate_zero, List.append_nil] at hx0 hx1 hy0 hy1
  have hrange : List.range 4 = [0, 1, 2, 3] := rfl
  rw [g2ToEip2537, fqToBe48, hx0, fqToBe48, hx1, fqToBe48, hy0, fqToBe48, hy1, hrange]
  simp only [List.flatMap_cons, List.flatMap_nil, List.append_nil, List.append_assoc,
    P2Affine.coordinate]

section Zcash

variable {encoded serialized : List UInt8} {order : List ℕ}

theorem appendElement_eq {element : ℕ} (h : (element + 1) * 64 ≤ encoded.length) :
    appendElement encoded serialized element =
      require (!((chunk 64 encoded element).take 16).any (· != 0)) () >>= fun _ ↦
        .ok (serialized ++ (chunk 64 encoded element).drop 16) := by
  have hslice : (slice encoded (element * 64) ((element + 1) * 64) : Outcome Unit _) =
      .ok (chunk 64 encoded element) :=
    slice_of_le (Nat.mul_le_mul_right 64 element.le_succ) h
  simp only [appendElement, eip2537FpLengthBytes, eip2537FpPaddingLengthBytes, fpLengthBytes,
    Nat.reduceAdd, hslice, ok_bind, List.splitAt_eq]

theorem appendElement_ok_iff {element : ℕ} {result : List UInt8}
    (h : (element + 1) * 64 ≤ encoded.length) :
    appendElement encoded serialized element = .ok result ↔
      (chunk 64 encoded element).take 16 = List.replicate 16 0 ∧
        result = serialized ++ (chunk 64 encoded element).drop 16 := by
  have hlen : ((chunk 64 encoded element).take 16).length = 16 := by
    rw [List.length_take, chunk, List.length_drop, List.length_take]
    omega
  have hzero : ((chunk 64 encoded element).take 16).any (· != 0) = false ↔
      (chunk 64 encoded element).take 16 = List.replicate 16 0 := by
    rw [List.eq_replicate_iff, List.any_eq_false]
    simp [hlen]
  simp only [appendElement_eq h, bind_ok_iff, require_ok_iff, Bool.not_eq_true', hzero,
    Except.ok.injEq, exists_and_left, exists_const, eq_comm (b := result)]

theorem foldlM_appendElement_ok_iff (h : ∀ i ∈ order, (i + 1) * 64 ≤ encoded.length)
    {result : List UInt8} : order.foldlM (appendElement encoded) serialized = .ok result ↔
      (∀ i ∈ order, (chunk 64 encoded i).take 16 = List.replicate 16 0) ∧
        result = serialized ++ order.flatMap fun i ↦ (chunk 64 encoded i).drop 16 := by
  induction order generalizing serialized with
  | nil => simp [eq_comm]
  | cons element order ih =>
    rw [List.forall_mem_cons] at h
    simp only [List.foldlM_cons, bind_ok_iff, appendElement_ok_iff h.1, ih h.2,
      List.forall_mem_cons, List.flatMap_cons]
    constructor
    · rintro ⟨_, ⟨hpad, rfl⟩, hpads, rfl⟩
      exact ⟨⟨hpad, hpads⟩, List.append_assoc _ _ _⟩
    · rintro ⟨⟨hpad, hpads⟩, rfl⟩
      exact ⟨_, ⟨hpad, rfl⟩, hpads, (List.append_assoc _ _ _).symm⟩

theorem lengthCheck_iff : (!(encoded.length != order.length * eip2537FpLengthBytes ||
    encoded.all (· == 0))) = true ↔
      encoded.length = order.length * 64 ∧ ∃ b ∈ encoded, b ≠ 0 := by
  simp [eip2537FpLengthBytes, eip2537FpPaddingLengthBytes, fpLengthBytes]

theorem element_bounds (horder : ∀ i ∈ order, i < order.length)
    (hlen : encoded.length = order.length * 64) : ∀ i ∈ order, (i + 1) * 64 ≤ encoded.length :=
  fun i hi ↦ hlen ▸ Nat.mul_le_mul_right 64 (horder i hi)

theorem length_elements (horder : ∀ i ∈ order, i < order.length)
    (hlen : encoded.length = order.length * 64) :
    (order.flatMap fun i ↦ (chunk 64 encoded i).drop 16).length = order.length * 48 := by
  have hpieces : ∀ i ∈ order, ((chunk 64 encoded i).drop 16).length = 48 := fun i hi ↦ by
    rw [List.length_drop, length_chunk hlen (horder i hi)]
  rw [List.length_flatMap, List.map_congr_left hpieces, List.map_const', List.sum_replicate,
    smul_eq_mul]

theorem eip2537ToZcash_ok_iff (horder : ∀ i ∈ order, i < order.length) :
    eip2537ToZcash encoded order = .ok serialized ↔
      encoded.length = order.length * 64 ∧ (∃ b ∈ encoded, b ≠ 0) ∧
      (∀ i ∈ order, (chunk 64 encoded i).take 16 = List.replicate 16 0) ∧
      serialized = (order.flatMap fun i ↦ (chunk 64 encoded i).drop 16) ∧
      ∃ first, serialized[0]? = some first ∧ first &&& zcashFlagsMask = 0 := by
  constructor
  · intro h
    obtain ⟨_, hcheck, h⟩ := bind_ok_iff.mp h
    obtain ⟨hlen, hnonzero⟩ := lengthCheck_iff.mp (require_ok_iff.mp hcheck)
    obtain ⟨s, hs, h⟩ := bind_ok_iff.mp h
    obtain ⟨hpads, rfl⟩ := (foldlM_appendElement_ok_iff (element_bounds horder hlen)).mp hs
    obtain ⟨first, hfirst, h⟩ := bind_ok_iff.mp h
    obtain ⟨_, hflags, h⟩ := bind_ok_iff.mp h
    obtain rfl := Except.ok.inj h
    exact ⟨hlen, hnonzero, hpads, rfl, first, index_ok_iff.mp hfirst,
      beq_iff_eq.mp (require_ok_iff.mp hflags)⟩
  · rintro ⟨hlen, hnonzero, hpads, hs, first, hfirst, hflags⟩
    refine bind_ok_iff.mpr ⟨(), require_ok_iff.mpr (lengthCheck_iff.mpr ⟨hlen, hnonzero⟩), ?_⟩
    refine bind_ok_iff.mpr ⟨serialized,
      (foldlM_appendElement_ok_iff (element_bounds horder hlen)).mpr ⟨hpads, hs⟩, ?_⟩
    refine bind_ok_iff.mpr ⟨first, index_ok_iff.mpr hfirst, ?_⟩
    exact bind_ok_iff.mpr ⟨(), require_ok_iff.mpr (beq_iff_eq.mpr hflags), rfl⟩

theorem exists_ne_zero_iff {n : ℕ} (h : n < 2 ^ 381) : (∃ b ∈ eip2537Fp n, b ≠ 0) ↔ n ≠ 0 := by
  have hlt : n < 256 ^ 48 := lt_pow_of_lt_two_pow h (by norm_num)
  constructor
  · rintro ⟨b, hb, hne⟩ rfl
    rw [eip2537Fp, toBigEndian_zero, List.replicate_append_replicate] at hb
    exact hne (List.eq_of_mem_replicate hb)
  · intro hne
    by_contra hall
    push Not at hall
    have hzero : toBigEndian 48 n = List.replicate 48 0 :=
      List.eq_replicate_iff.mpr ⟨length_toBigEndian 48 n,
        fun b hb ↦ hall b (List.mem_append_right _ hb)⟩
    rw [← toBigEndian_zero] at hzero
    have := congrArg ofBigEndian hzero
    rw [ofBigEndian_toBigEndian hlt, ofBigEndian_toBigEndian (by norm_num)] at this
    exact hne this

theorem flags_clear {n : ℕ} (h : n < 2 ^ 381) : ∃ first rest,
    toBigEndian 48 n = first :: rest ∧ first &&& zcashFlagsMask = 0 := by
  refine ⟨_, _, toBigEndian_succ 47 n, ?_⟩
  have hsmall : n / 256 ^ 47 < 2 ^ 5 := div_pow_lt_of_lt_two_pow h (by norm_num)
  generalize n / 256 ^ 47 = m at hsmall
  interval_cases m <;> decide

/-- The serialization of some coordinates comes from their encoding and from no other. -/
theorem eip2537ToZcash_coordinates {coordinate : ℕ → ℕ} (hlt : ∀ i, coordinate i < 2 ^ 381)
    (horder : ∀ i, i ∈ order ↔ i < order.length) (hne : order ≠ []) :
    eip2537ToZcash encoded order = .ok (order.flatMap fun i ↦ toBigEndian 48 (coordinate i)) ↔
      encoded = ((List.range order.length).flatMap fun i ↦ eip2537Fp (coordinate i)) ∧
        ∃ i < order.length, coordinate i ≠ 0 := by
  rw [eip2537ToZcash_ok_iff fun i hi ↦ (horder i).mp hi]
  constructor
  · rintro ⟨hlen, hnonzero, hpads, hserialized, -⟩
    have hfps : ∀ i ∈ order, toBigEndian 48 (coordinate i) = (chunk 64 encoded i).drop 16 := by
      refine flatMap_inj_of_length (fun i hi ↦ ?_) hserialized
      rw [length_toBigEndian, List.length_drop, length_chunk hlen ((horder i).mp hi)]
    have hencoded : encoded =
        (List.range order.length).flatMap fun i ↦ eip2537Fp (coordinate i) := by
      rw [← List.take_length (l := encoded), hlen, ← flatMap_chunk]
      refine List.flatMap_congr fun i hi ↦ ?_
      have hi' := (horder i).mpr (List.mem_range.mp hi)
      rw [eip2537Fp, hfps i hi', ← hpads i hi', List.take_append_drop]
    refine ⟨hencoded, ?_⟩
    rw [hencoded] at hnonzero
    obtain ⟨b, hb, hb0⟩ := hnonzero
    obtain ⟨i, hi, hbi⟩ := List.mem_flatMap.mp hb
    exact ⟨i, List.mem_range.mp hi, (exists_ne_zero_iff (hlt i)).mp ⟨b, hbi, hb0⟩⟩
  · rintro ⟨rfl, i, hi, hi0⟩
    have hchunk : ∀ j ∈ order, chunk 64 ((List.range order.length).flatMap
        fun i ↦ eip2537Fp (coordinate i)) j = eip2537Fp (coordinate j) :=
      fun j hj ↦ chunk_flatMap (fun i _ ↦ length_eip2537Fp _) ((horder j).mp hj)
    refine ⟨length_flatMap_range fun i _ ↦ length_eip2537Fp _, ?_, fun j hj ↦ ?_, ?_, ?_⟩
    · obtain ⟨b, hb, hb0⟩ := (exists_ne_zero_iff (hlt i)).mpr hi0
      exact ⟨b, List.mem_flatMap.mpr ⟨i, List.mem_range.mpr hi, hb⟩, hb0⟩
    · rw [hchunk j hj, eip2537Fp, List.take_left' List.length_replicate]
    · refine List.flatMap_congr fun j hj ↦ ?_
      rw [hchunk j hj, eip2537Fp, List.drop_left' List.length_replicate]
    · obtain ⟨j, rest, rfl⟩ := List.exists_cons_of_ne_nil hne
      obtain ⟨first, tail, hfirst, hflags⟩ := flags_clear (hlt j)
      exact ⟨first, by rw [List.flatMap_cons, hfirst]; rfl, hflags⟩

theorem foldlM_appendElement_ne_unwind (h : ∀ i ∈ order, (i + 1) * 64 ≤ encoded.length) :
    order.foldlM (appendElement encoded) serialized ≠ unwind := by
  apply foldlM_ne_unwind
  intro serialized element helement
  rw [appendElement_eq (h element helement)]
  exact bind_ne_unwind (require_ne_unwind _ _) fun _ _ ↦ nofun

theorem eip2537ToZcash_ne_unwind (horder : ∀ i ∈ order, i < order.length) (hne : order ≠ []) :
    eip2537ToZcash encoded order ≠ unwind := by
  refine bind_ne_unwind (require_ne_unwind _ _) fun _ hcheck ↦ ?_
  obtain ⟨hlen, -⟩ := lengthCheck_iff.mp (require_ok_iff.mp hcheck)
  have hbounds := element_bounds horder hlen
  refine bind_ne_unwind (foldlM_appendElement_ne_unwind hbounds) fun s hs ↦ ?_
  obtain ⟨-, rfl⟩ := (foldlM_appendElement_ok_iff hbounds).mp hs
  have hpos : 0 < ([] ++ order.flatMap fun i ↦ (chunk 64 encoded i).drop 16).length := by
    have := List.length_pos_of_ne_nil hne
    rw [List.nil_append, length_elements horder hlen]
    omega
  rw [index_of_getElem? (List.getElem?_eq_getElem hpos), ok_bind]
  exact bind_ne_unwind (require_ne_unwind _ _) fun _ _ ↦ nofun

theorem eip2537ToZcash_wellFormed (horder : ∀ i ∈ order, i < order.length)
    (h : eip2537ToZcash encoded order = .ok serialized) :
    serialized.length = order.length * 48 ∧
      ∀ b ∈ serialized.head?, b &&& zcashFlagsMask = 0 := by
  obtain ⟨hlen, -, -, rfl, first, hfirst, hflags⟩ := (eip2537ToZcash_ok_iff horder).mp h
  refine ⟨length_elements horder hlen, fun b hb ↦ ?_⟩
  rw [List.head?_eq_getElem?, hfirst] at hb
  obtain rfl := Option.some.inj hb
  exact hflags

end Zcash

section Point

variable {Pt : Type} {OnCurve : Pt → Prop} {coordinate : Pt → ℕ → ℕ} {order : List ℕ}
  {deserialize : List UInt8 → Option Pt} {inGroup : Pt → Bool} {encoded : List UInt8}

theorem pointFromEip2537_ok_iff (horder : ∀ i, i ∈ order ↔ i < order.length) (hne : order ≠ [])
    (hlt : ∀ P i, coordinate P i < 2 ^ 381)
    (hread : ∀ bytes P, bytes.length = order.length * 48 →
      (∀ b ∈ bytes.head?, b &&& zcashFlagsMask = 0) → (deserialize bytes = some P ↔
        OnCurve P ∧ bytes = order.flatMap fun i ↦ toBigEndian 48 (coordinate P i))) {P : Pt} :
    pointFromEip2537 order deserialize inGroup encoded = .ok P ↔
      (OnCurve P ∧ inGroup P = true ∧ ∃ i < order.length, coordinate P i ≠ 0) ∧
        encoded = (List.range order.length).flatMap fun i ↦ eip2537Fp (coordinate P i) := by
  have hzcash : eip2537ToZcash encoded order = _ ↔ _ :=
    eip2537ToZcash_coordinates (hlt P) horder hne
  constructor
  · intro h
    obtain ⟨serialized, hserialized, h⟩ := bind_ok_iff.mp h
    obtain ⟨P', hP', h⟩ := bind_ok_iff.mp h
    obtain ⟨_, hgroup, h⟩ := bind_ok_iff.mp h
    obtain rfl := Except.ok.inj h
    obtain ⟨hlen, hflags⟩ := eip2537ToZcash_wellFormed (fun i hi ↦ (horder i).mp hi) hserialized
    obtain ⟨hcurve, rfl⟩ := (hread _ _ hlen hflags).mp (okOr_ok_iff.mp hP')
    obtain ⟨hencoded, hnonzero⟩ := hzcash.mp hserialized
    exact ⟨⟨hcurve, require_ok_iff.mp hgroup, hnonzero⟩, hencoded⟩
  · rintro ⟨⟨hcurve, hgroup, hnonzero⟩, hencoded⟩
    have hserialized := hzcash.mpr ⟨hencoded, hnonzero⟩
    obtain ⟨hlen, hflags⟩ := eip2537ToZcash_wellFormed (fun i hi ↦ (horder i).mp hi) hserialized
    have hP := (hread _ P hlen hflags).mpr ⟨hcurve, rfl⟩
    exact bind_ok_iff.mpr ⟨_, hserialized, bind_ok_iff.mpr ⟨P, okOr_ok_iff.mpr hP,
      bind_ok_iff.mpr ⟨(), require_ok_iff.mpr hgroup, rfl⟩⟩⟩

theorem pointFromEip2537_ne_unwind (horder : ∀ i ∈ order, i < order.length) (hne : order ≠ []) :
    pointFromEip2537 order deserialize inGroup encoded ≠ unwind := by
  refine bind_ne_unwind (eip2537ToZcash_ne_unwind horder hne) fun serialized _ ↦ ?_
  refine bind_ne_unwind (okOr_ne_unwind _ _) fun P _ ↦ ?_
  exact bind_ne_unwind (require_ne_unwind _ _) fun _ _ ↦ nofun

end Point

section Codec

variable {B : Blst p} {OnCurve1 : P1Affine p → Prop} {OnCurve2 : P2Affine p → Prop}
  {encoded : List UInt8}

theorem P1Affine.coordinate_lt (hp : p < 2 ^ 381) (P : P1Affine p) (i : ℕ) :
    P.coordinate i < 2 ^ 381 := by
  unfold coordinate
  split
  · exact P.x.isLt.trans hp
  · exact P.y.isLt.trans hp

theorem P2Affine.coordinate_lt (hp : p < 2 ^ 381) (P : P2Affine p) (i : ℕ) :
    P.coordinate i < 2 ^ 381 := by
  unfold coordinate
  split
  · exact P.x.c0.isLt.trans hp
  · exact P.x.c1.isLt.trans hp
  · exact P.y.c0.isLt.trans hp
  · exact P.y.c1.isLt.trans hp

theorem P1Affine.exists_coordinate_ne_zero (P : P1Affine p) :
    (∃ i < 2, P.coordinate i ≠ 0) ↔ ¬P.IsIdentity := by
  rw [IsIdentity, not_and_or]
  constructor
  · rintro ⟨i, hi, hne⟩
    interval_cases i
    · exact Or.inl hne
    · exact Or.inr hne
  · rintro (hne | hne)
    · exact ⟨0, by norm_num, hne⟩
    · exact ⟨1, by norm_num, hne⟩

theorem P2Affine.exists_coordinate_ne_zero (P : P2Affine p) :
    (∃ i < 4, P.coordinate i ≠ 0) ↔ ¬P.IsIdentity := by
  rw [IsIdentity, not_and_or, not_and_or, not_and_or]
  constructor
  · rintro ⟨i, hi, hne⟩
    interval_cases i
    · exact Or.inl hne
    · exact Or.inr (Or.inl hne)
    · exact Or.inr (Or.inr (Or.inl hne))
    · exact Or.inr (Or.inr (Or.inr hne))
  · rintro (hne | hne | hne | hne)
    · exact ⟨0, by norm_num, hne⟩
    · exact ⟨1, by norm_num, hne⟩
    · exact ⟨2, by norm_num, hne⟩
    · exact ⟨3, by norm_num, hne⟩

theorem mem_g1Order (i : ℕ) : i ∈ [0, 1] ↔ i < 2 := by
  simp
  omega

theorem mem_g2Order (i : ℕ) : i ∈ [1, 0, 3, 2] ↔ i < 4 := by
  simp
  omega

theorem g1FromEip2537_ok_iff (h : B.Documented OnCurve1 OnCurve2) {P : P1Affine p} :
    g1FromEip2537 B encoded = .ok P ↔ B.ValidG1 OnCurve1 P ∧ encoded = g1ToEip2537 P := by
  have hlt := P1Affine.coordinate_lt h.modulus_lt
  rw [Blst.ValidG1, ← P.exists_coordinate_ne_zero, g1ToEip2537_eq]
  refine pointFromEip2537_ok_iff mem_g1Order (List.cons_ne_nil _ _) hlt fun bytes P hlen hflags ↦ ?_
  rw [h.p1 bytes P hlen hflags]
  refine and_congr_right fun _ ↦ ?_
  have hvalues : ∀ i, P.coordinate i < 256 ^ 48 :=
    fun i ↦ lt_pow_of_lt_two_pow (hlt P i) (by norm_num)
  have hread := ofBigEndian_chunks_iff (n := 2) hlen hvalues
  simp only [← List.mem_range] at hread
  simpa [P1Affine.coordinate, List.range_succ] using hread

theorem g2FromEip2537_ok_iff (h : B.Documented OnCurve1 OnCurve2) {P : P2Affine p} :
    g2FromEip2537 B encoded = .ok P ↔ B.ValidG2 OnCurve2 P ∧ encoded = g2ToEip2537 P := by
  have hlt := P2Affine.coordinate_lt h.modulus_lt
  rw [Blst.ValidG2, ← P.exists_coordinate_ne_zero, g2ToEip2537_eq]
  refine pointFromEip2537_ok_iff mem_g2Order (List.cons_ne_nil _ _) hlt fun bytes P hlen hflags ↦ ?_
  rw [h.p2 bytes P hlen hflags]
  refine and_congr_right fun _ ↦ ?_
  have hvalues : ∀ i, P.coordinate ([1, 0, 3, 2].getD i 0) < 256 ^ 48 :=
    fun i ↦ lt_pow_of_lt_two_pow (hlt P _) (by norm_num)
  have hread := ofBigEndian_chunks_iff (n := 4) hlen hvalues
  simp only [← List.mem_range] at hread
  simpa [P2Affine.coordinate, List.range_succ] using hread

theorem bijOn_of_ok_iff {Pt : Type} {decode : List UInt8 → Outcome Unit Pt}
    {encode : Pt → List UInt8} {Valid : Pt → Prop}
    (h : ∀ encoded P, decode encoded = .ok P ↔ Valid P ∧ encoded = encode P) :
    Set.BijOn encode {P | Valid P} {encoded | ∃ P, decode encoded = .ok P} := by
  refine ⟨fun P hP ↦ ⟨P, (h _ P).mpr ⟨hP, rfl⟩⟩, fun P hP Q hQ heq ↦ ?_, ?_⟩
  · have hdecode := (h _ Q).mpr ⟨hQ, rfl⟩
    rw [← heq, (h _ P).mpr ⟨hP, rfl⟩] at hdecode
    exact Except.ok.inj hdecode
  · rintro encoded ⟨P, hP⟩
    obtain ⟨hvalid, rfl⟩ := (h _ P).mp hP
    exact ⟨P, hvalid, rfl⟩

/-- The decoders invert the encoders on the valid points, accept nothing that the encoders do not
write, and never panic. -/
theorem eip2537_codecs_inverse (B : Blst p) (OnCurve1 : P1Affine p → Prop)
    (OnCurve2 : P2Affine p → Prop) (h : B.Documented OnCurve1 OnCurve2) :
    (∀ P, B.ValidG1 OnCurve1 P → g1FromEip2537 B (g1ToEip2537 P) = .ok P) ∧
    (∀ P, B.ValidG2 OnCurve2 P → g2FromEip2537 B (g2ToEip2537 P) = .ok P) ∧
    (∀ encoded P, g1FromEip2537 B encoded = .ok P →
      B.ValidG1 OnCurve1 P ∧ encoded = g1ToEip2537 P) ∧
    (∀ encoded P, g2FromEip2537 B encoded = .ok P →
      B.ValidG2 OnCurve2 P ∧ encoded = g2ToEip2537 P) ∧
    Set.BijOn g1ToEip2537 {P | B.ValidG1 OnCurve1 P} {e | ∃ P, g1FromEip2537 B e = .ok P} ∧
    Set.BijOn g2ToEip2537 {P | B.ValidG2 OnCurve2 P} {e | ∃ P, g2FromEip2537 B e = .ok P} ∧
    ∀ encoded, g1FromEip2537 B encoded ≠ unwind ∧ g2FromEip2537 B encoded ≠ unwind := by
  refine ⟨fun P hP ↦ (g1FromEip2537_ok_iff h).mpr ⟨hP, rfl⟩,
    fun P hP ↦ (g2FromEip2537_ok_iff h).mpr ⟨hP, rfl⟩,
    fun encoded P ↦ (g1FromEip2537_ok_iff h).mp, fun encoded P ↦ (g2FromEip2537_ok_iff h).mp,
    bijOn_of_ok_iff fun _ _ ↦ g1FromEip2537_ok_iff h,
    bijOn_of_ok_iff fun _ _ ↦ g2FromEip2537_ok_iff h, fun encoded ↦ ⟨?_, ?_⟩⟩
  · exact pointFromEip2537_ne_unwind (fun i ↦ (mem_g1Order i).mp) (List.cons_ne_nil _ _)
  · exact pointFromEip2537_ne_unwind (fun i ↦ (mem_g2Order i).mp) (List.cons_ne_nil _ _)

end Codec

section Reading

def readingBlst (p : ℕ) (onCurve1 : P1Affine p → Bool) (onCurve2 : P2Affine p → Bool) : Blst p where
  p1Deserialize bytes :=
    let x := ofBigEndian (chunk 48 bytes 0)
    let y := ofBigEndian (chunk 48 bytes 1)
    if h : x < p ∧ y < p then some ⟨⟨x, h.1⟩, ⟨y, h.2⟩⟩ |>.filter onCurve1 else none
  p1AffineInG1 _ := true
  p2Deserialize bytes :=
    let x1 := ofBigEndian (chunk 48 bytes 0)
    let x0 := ofBigEndian (chunk 48 bytes 1)
    let y1 := ofBigEndian (chunk 48 bytes 2)
    let y0 := ofBigEndian (chunk 48 bytes 3)
    if h : (x0 < p ∧ x1 < p) ∧ y0 < p ∧ y1 < p then
      some ⟨⟨⟨x0, h.1.1⟩, ⟨x1, h.1.2⟩⟩, ⟨⟨y0, h.2.1⟩, ⟨y1, h.2.2⟩⟩⟩ |>.filter onCurve2
    else none
  p2AffineInG2 _ := true

theorem readingBlst_documented (hp : p < 2 ^ 381) (onCurve1 : P1Affine p → Bool)
    (onCurve2 : P2Affine p → Bool) : (readingBlst p onCurve1 onCurve2).Documented
      (fun P ↦ onCurve1 P = true) (fun P ↦ onCurve2 P = true) where
  modulus_lt := hp
  p1 bytes P _ _ := by
    constructor
    · intro h
      simp only [readingBlst] at h
      split at h
      · obtain ⟨hP, hcurve⟩ := Option.filter_eq_some_iff.mp h
        obtain rfl := Option.some.inj hP
        exact ⟨hcurve, rfl, rfl⟩
      · cases h
    · rintro ⟨hcurve, hx, hy⟩
      have hP : (⟨⟨_, hx ▸ P.x.isLt⟩, ⟨_, hy ▸ P.y.isLt⟩⟩ : P1Affine p) = P :=
        congrArg₂ P1Affine.mk (Fin.ext hx) (Fin.ext hy)
      simp only [readingBlst]
      rw [dif_pos ⟨hx ▸ P.x.isLt, hy ▸ P.y.isLt⟩, hP]
      exact Option.filter_eq_some_iff.mpr ⟨rfl, hcurve⟩
  p2 bytes P _ _ := by
    constructor
    · intro h
      simp only [readingBlst] at h
      split at h
      · obtain ⟨hP, hcurve⟩ := Option.filter_eq_some_iff.mp h
        obtain rfl := Option.some.inj hP
        exact ⟨hcurve, rfl, rfl, rfl, rfl⟩
      · cases h
    · rintro ⟨hcurve, hx1, hx0, hy1, hy0⟩
      have hP : (⟨⟨⟨_, hx0 ▸ P.x.c0.isLt⟩, ⟨_, hx1 ▸ P.x.c1.isLt⟩⟩,
          ⟨⟨_, hy0 ▸ P.y.c0.isLt⟩, ⟨_, hy1 ▸ P.y.c1.isLt⟩⟩⟩ : P2Affine p) = P :=
        congrArg₂ P2Affine.mk (congrArg₂ Fp2.mk (Fin.ext hx0) (Fin.ext hx1))
          (congrArg₂ Fp2.mk (Fin.ext hy0) (Fin.ext hy1))
      simp only [readingBlst]
      rw [dif_pos ⟨⟨hx0 ▸ P.x.c0.isLt, hx1 ▸ P.x.c1.isLt⟩, hy0 ▸ P.y.c0.isLt, hy1 ▸ P.y.c1.isLt⟩,
        hP]
      exact Option.filter_eq_some_iff.mpr ⟨rfl, hcurve⟩

/-- On the curve `y² = x³ + 4` over seven elements, and on its points over the base field. -/
def sevenBlst : Blst 7 :=
  readingBlst 7 (fun P ↦ P.y * P.y == P.x * P.x * P.x + 4)
    (fun P ↦ P.x.c1 == 0 && P.y.c1 == 0 && P.y.c0 * P.y.c0 == P.x.c0 * P.x.c0 * P.x.c0 + 4)

theorem seven_lt_two_pow {bits : ℕ} (h : 3 ≤ bits) : 7 < 2 ^ bits :=
  lt_of_lt_of_le (by norm_num) (Nat.pow_le_pow_right Nat.two_pos h)

theorem eip2537_codecs_inverse_seven :
    g1FromEip2537 sevenBlst (g1ToEip2537 (⟨0, 2⟩ : P1Affine 7)) = .ok ⟨0, 2⟩ ∧
      g2FromEip2537 sevenBlst (g2ToEip2537 (⟨⟨0, 0⟩, ⟨5, 0⟩⟩ : P2Affine 7)) =
        .ok ⟨⟨0, 0⟩, ⟨5, 0⟩⟩ := by
  obtain ⟨hg1, hg2, -⟩ := eip2537_codecs_inverse sevenBlst _ _
    (readingBlst_documented (seven_lt_two_pow (by norm_num)) _ _)
  exact ⟨hg1 ⟨0, 2⟩ ⟨by decide, rfl, by simp [P1Affine.IsIdentity]⟩,
    hg2 ⟨⟨0, 0⟩, ⟨5, 0⟩⟩ ⟨by decide, rfl, by simp [P2Affine.IsIdentity]⟩⟩

end Reading

end HieroCryptography.Hints
