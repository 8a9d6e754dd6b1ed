import HieroCryptography.Foundation.Bits
import HieroCryptography.Security.Oid

namespace HieroCryptography.Security

open Rust Foundation

namespace OID

section Septet

/-- The bit from which the code takes a septet, which should be `7 * sp`. The table repeats after
eight septets, and not after seven. -/
def septetStart (sp : ℕ) : ℕ := 8 * (7 * sp / 8) + 7 * (sp % 7) % 8

def takenSeptet (v sp : ℕ) : ℕ := v / 2 ^ septetStart sp % 128

theorem takenSeptet_lt (v sp : ℕ) : takenSeptet v sp < 128 := Nat.mod_lt _ (by norm_num)

theorem pick_bits (lsb msb i j s : ℕ) :
    (lsb &&& (2 ^ i - 1) <<< s) >>> s ||| (msb &&& (2 ^ j - 1)) <<< i =
      2 ^ i * (msb % 2 ^ j) + lsb / 2 ^ s % 2 ^ i := by
  have hlow : lsb / 2 ^ s % 2 ^ i < 2 ^ i := Nat.mod_lt _ (Nat.two_pow_pos i)
  rw [Nat.shiftRight_and_distrib, Nat.shiftLeft_shiftRight, Nat.and_two_pow_sub_one_eq_mod,
    Nat.and_two_pow_sub_one_eq_mod, Nat.shiftRight_eq_div_pow, Nat.shiftLeft_eq, Nat.mul_comm,
    Nat.or_comm, ← Nat.two_pow_add_eq_or_of_lt hlow]

theorem mask_value {lsb i : ℕ} (msb : ℕ) (hlsb : lsb < 256) (hi : i < 7) :
    ∃ mask, masks[i]? = some mask ∧
      (lsb &&& mask.lsbMask) >>> mask.lsbShift ||| (msb &&& mask.msbMask) <<< mask.msbShift =
        (lsb + 256 * msb) / 2 ^ (7 * i % 8) % 128 := by
  rcases Nat.eq_zero_or_pos i with rfl | hpos
  · refine ⟨⟨0, 0, 2 ^ 7 - 1, 0⟩, rfl, ?_⟩
    simp only [Nat.and_two_pow_sub_one_eq_mod, Nat.and_zero, Nat.shiftLeft_zero,
      Nat.shiftRight_zero, Nat.or_zero, Nat.mul_zero, Nat.zero_mod, pow_zero, Nat.div_one]
    omega
  · have hrow : masks[i]? = some ⟨2 ^ (7 - i) - 1, i, (2 ^ i - 1) <<< (8 - i), 8 - i⟩ := by
      interval_cases i <;> rfl
    refine ⟨_, hrow, (pick_bits lsb msb i (7 - i) (8 - i)).trans ?_⟩
    interval_cases i <;> norm_num <;> omega

theorem two_bytes_mod {x t : ℕ} (ht : t < 8) :
    (x % 256 + 256 * (x / 256 % 256)) / 2 ^ t % 128 = x / 2 ^ t % 128 := by
  interval_cases t <;> norm_num <;> omega

variable {v width sp : ℕ}

theorem byteAt_toBigEndian (v : ℕ) {i : ℕ} (h : i < width) :
    ∃ b, byteAt (toBigEndian width v) ((width : ℤ) - i - 1) = .ok b ∧
      b.toNat = v / 256 ^ i % 256 := by
  refine ⟨UInt8.ofNat (v / 256 ^ i), ?_, UInt8.toNat_ofNat'⟩
  have hnat : ((width : ℤ) - i - 1).toNat = width - i - 1 := by omega
  rw [byteAt, if_pos (by omega), hnat, index_of_getElem? (getElem?_toBigEndian h)]

/-- The bounds check fails exactly when there is no byte for the low part of the septet. -/
theorem septetAt_toBigEndian (hv : v < 256 ^ width) (sp : ℕ) :
    septetAt (toBigEndian width v) sp =
      if 7 * sp / 8 < width then .ok (takenSeptet v sp) else unwind := by
  have hi : sp % 7 < 7 := Nat.mod_lt sp (by norm_num)
  have hq : (sp : ℤ) * 7 / 8 = (7 * sp / 8 : ℕ) := by omega
  obtain ⟨q, hq'⟩ : ∃ q, q = 7 * sp / 8 := ⟨_, rfl⟩
  have hbits : (v / 256 ^ q % 256 + 256 * (v / 256 ^ (q + 1) % 256)) / 2 ^ (7 * (sp % 7) % 8) %
      128 = takenSeptet v sp := by
    rw [takenSeptet, pow_succ, ← Nat.div_div_eq_div_mul, two_bytes_mod (Nat.mod_lt _ (by norm_num)),
      Nat.div_div_eq_div_mul, septetStart, pow_add, pow_mul, hq']
    norm_num
  obtain ⟨mask, hmask, hvalue⟩ := mask_value (v / 256 ^ (q + 1) % 256)
    (Nat.mod_lt (v / 256 ^ q) (by norm_num)) hi
  rw [hbits] at hvalue
  rw [septetAt, index_of_getElem? hmask, ok_bind, length_toBigEndian, hq, ← hq']
  by_cases hlsb : q < width
  · obtain ⟨lsb, hread, hlow⟩ := byteAt_toBigEndian v hlsb
    simp only [if_pos hlsb, hread, ok_bind, hlow]
    by_cases hmsb : q + 1 < width
    · obtain ⟨msb, hread', hhigh⟩ := byteAt_toBigEndian v hmsb
      have hindex : (width : ℤ) - q - 1 - 1 = (width : ℤ) - (q + 1 : ℕ) - 1 := by omega
      rw [hindex, if_pos (by omega), hread', ok_bind, hhigh, hvalue]
    · -- the first byte of the number has no byte before it, and the code takes zero bits there
      have hfar : v / 256 ^ (q + 1) = 0 :=
        Nat.div_eq_of_lt (hv.trans_le (Nat.pow_le_pow_right (by norm_num) (by omega)))
      rw [if_neg (by omega), ← hvalue, hfar, Nat.zero_mod, Nat.zero_and, Nat.zero_shiftLeft,
        Nat.or_zero]
  · simp only [if_neg hlsb, byteAt, if_neg (show ¬ (0 : ℤ) ≤ width - q - 1 by omega)]
    rfl

end Septet

section Buffer

variable {size pos : ℕ} {content out out' bytes : List UInt8}

structure Filled (size : ℕ) (content out : List UInt8) (pos : ℕ) : Prop where
  length_out : out.length = size
  length_content : content.length = pos
  take_out : out.take pos = content

def pushAll (out : List UInt8) (offset : ℕ) : List UInt8 → Outcome String (List UInt8)
  | [] => .ok out
  | b :: bytes => do
    let out ← setAt out offset b
    pushAll out (offset + 1) bytes

theorem Filled.pos_le (h : Filled size content out pos) : pos ≤ out.length := by
  have hlen := congrArg List.length h.take_out
  rw [List.length_take, h.length_content] at hlen
  exact hlen ▸ Nat.min_le_right _ _

theorem Filled.set (h : Filled size content out pos) (hpos : pos < size) (b : UInt8) :
    Filled size (content ++ [b]) (out.set pos b) (pos + 1) := by
  have hlt : pos < out.length := h.length_out ▸ hpos
  refine ⟨?_, ?_, ?_⟩
  · rw [List.length_set, h.length_out]
  · rw [List.length_append, h.length_content, List.length_singleton]
  · rw [List.take_succ_eq_append_getElem (by rwa [List.length_set]), List.getElem_set_self,
      List.take_set_of_le (Nat.le_refl pos), h.take_out]

theorem Filled.pushAll_ok (h : Filled size content out pos) (hfits : pos + bytes.length ≤ size) :
    ∃ out', pushAll out pos bytes = .ok out' ∧
      Filled size (content ++ bytes) out' (pos + bytes.length) := by
  induction bytes generalizing content out pos with
  | nil => exact ⟨out, rfl, by rwa [List.append_nil]⟩
  | cons b bytes ih =>
    rw [List.length_cons] at hfits ⊢
    obtain ⟨out', hpush, hfilled⟩ := ih (h.set (by omega) b) (by omega)
    refine ⟨out', ?_, ?_⟩
    · rw [pushAll, setAt_of_lt (by rw [h.length_out]; omega), ok_bind, hpush]
    · rwa [List.append_assoc, List.singleton_append, Nat.add_assoc, Nat.add_comm 1] at hfilled

theorem Filled.of_pushAll (h : Filled size content out pos)
    (hpush : pushAll out pos bytes = .ok out') :
    Filled size (content ++ bytes) out' (pos + bytes.length) := by
  have hfits : pos + bytes.length ≤ size := by
    induction bytes generalizing content out pos with
    | nil => exact h.length_out ▸ h.pos_le
    | cons b bytes ih =>
      obtain ⟨out₁, hset, hrest⟩ := bind_ok_iff.mp hpush
      obtain ⟨hlt, rfl⟩ := setAt_ok_iff.mp hset
      have hle := ih (h.set (h.length_out ▸ hlt) b) hrest
      rw [List.length_cons]
      omega
  obtain ⟨out₁, hpush', hfilled⟩ := h.pushAll_ok hfits
  rwa [Except.ok.inj (hpush.symm.trans hpush')]

end Buffer

section Pack

variable {b : List UInt8} {digit : ℕ → ℕ} {out : List UInt8} {offset : ℕ}

theorem packedByte {value : ℕ} (h : value < 128) (sp : ℕ) :
    UInt8.ofNat ((if sp > 0 then value ||| 0x80 else value) &&& 0xff) =
      UInt8.ofNat (value + if sp = 0 then 0 else 128) := by
  have hor : value ||| 0x80 = value + 128 := by
    rw [Nat.or_comm, Nat.add_comm]
    exact (Nat.two_pow_add_eq_or_of_lt (i := 7) h 1).symm
  have hand (n : ℕ) : n &&& 0xff = n % 256 := Nat.and_two_pow_sub_one_eq_mod n 8
  rw [hor, hand]
  cases sp with
  | zero => rw [if_neg (Nat.lt_irrefl 0), if_pos rfl, Nat.add_zero, Nat.mod_eq_of_lt (by omega)]
  | succ sp =>
    rw [if_pos (Nat.succ_pos sp), if_neg (Nat.succ_ne_zero sp), Nat.mod_eq_of_lt (by omega)]

theorem packSeptet_push {s : Packing} {sp value : ℕ} (hread : septetAt b sp = .ok value)
    (hvalue : value < 128) (h : ¬(s.skipLeadingZeros = true ∧ value = 0)) :
    packSeptet b s sp =
      (setAt s.out s.offset (UInt8.ofNat (value + if sp = 0 then 0 else 128)) >>=
        fun out ↦ .ok ⟨out, s.offset + 1, false⟩) := by
  have hcond : (s.skipLeadingZeros && value == 0) = false := by
    rw [Bool.eq_false_iff, Ne, Bool.and_eq_true, beq_iff_eq]
    exact h
  rw [packSeptet, hread, ok_bind, hcond, ← packedByte hvalue sp]
  rfl

theorem range_succ_reverse (n : ℕ) :
    (List.range (n + 1)).reverse = n :: (List.range n).reverse := by
  rw [List.range_succ, List.reverse_append]
  rfl

theorem foldlM_packSeptet {n : ℕ} (hread : ∀ sp < n, septetAt b sp = .ok (digit sp))
    (hdigit : ∀ sp, digit sp < 128) :
    (List.range n).reverse.foldlM (packSeptet b) ⟨out, offset, false⟩ =
      (pushAll out offset (septets digit n) >>= fun out ↦ .ok ⟨out, offset + n, false⟩) := by
  induction n generalizing out offset with
  | zero => rfl
  | succ n ih =>
    have hpush := packSeptet_push (s := ⟨out, offset, false⟩) (hread n (Nat.lt_succ_self n))
      (hdigit n) fun h ↦ Bool.false_ne_true h.1
    rw [range_succ_reverse, List.foldlM_cons, hpush, septets, pushAll, bind_assoc, bind_assoc]
    refine bind_congr fun out ↦ ?_
    rw [ok_bind, ih fun sp hsp ↦ hread sp (Nat.lt_succ_of_lt hsp), Nat.add_assoc, Nat.add_comm 1]

theorem foldlM_packSeptet_skipping {n : ℕ} (hread : ∀ sp < n, septetAt b sp = .ok (digit sp))
    (hdigit : ∀ sp, digit sp < 128) :
    (List.range n).reverse.foldlM (packSeptet b) ⟨out, offset, true⟩ =
      (pushAll out offset (strippedSeptets digit n) >>= fun out ↦
        .ok ⟨out, offset + (strippedSeptets digit n).length,
          (strippedSeptets digit n).isEmpty⟩) := by
  induction n with
  | zero => rfl
  | succ n ih =>
    have hread' : ∀ sp < n, septetAt b sp = .ok (digit sp) :=
      fun sp hsp ↦ hread sp (Nat.lt_succ_of_lt hsp)
    rw [range_succ_reverse, List.foldlM_cons, strippedSeptets]
    by_cases h : digit n = 0
    · have hskip : packSeptet b ⟨out, offset, true⟩ n = .ok ⟨out, offset, true⟩ := by
        rw [packSeptet, hread n (Nat.lt_succ_self n), h]
        rfl
      rw [if_pos h, hskip, ok_bind, ih hread']
    · rw [if_neg h, packSeptet_push (hread n (Nat.lt_succ_self n)) (hdigit n) fun h' ↦ h h'.2,
        length_septets, septets, pushAll, bind_assoc, bind_assoc]
      refine bind_congr fun out ↦ ?_
      rw [ok_bind, foldlM_packSeptet hread' hdigit, Nat.add_assoc, Nat.add_comm 1]
      rfl

def byteLength (v : ℕ) : ℕ := v.size / 8 + 1

theorem toByteArray_natCast (v : ℕ) :
    DerWriter.toByteArray v = toBigEndian (byteLength v) v ∧ v < 256 ^ byteLength v := by
  have hlt : v < 256 ^ byteLength v :=
    lt_pow_of_lt_two_pow (Nat.lt_size_self v) (by rw [byteLength]; omega)
  refine ⟨?_, hlt⟩
  have hmod : ((v : ℤ) % 256 ^ byteLength v).toNat = v := by
    rw [Int.emod_eq_of_lt (Int.natCast_nonneg v) (by exact_mod_cast hlt), Int.toNat_natCast]
  rw [DerWriter.toByteArray]
  exact congrArg (toBigEndian (byteLength v)) hmod

def packedBytes (v : ℕ) : List UInt8 :=
  if v = 0 then [0] else strippedSeptets (takenSeptet v) (byteLength v * 8 / 7 + 1)

theorem septet_in_bounds {v sp : ℕ} (h : ¬7 ∣ byteLength v) (hsp : sp < byteLength v * 8 / 7 + 1) :
    7 * sp / 8 < byteLength v := by
  have hne : 7 * (byteLength v * 8 / 7) ≠ byteLength v * 8 := by omega
  omega

theorem pack7Oid_natCast {v : ℕ} (hv : v ≠ 0) :
    pack7Oid v out offset =
      if byteLength v > (2 ^ 31 - 1) / 8 then fail ("BigInteger is too large: " ++ toString (v : ℤ))
      else if 7 ∣ byteLength v then unwind
      else pushAll out offset (packedBytes v) >>= fun out ↦ .ok (out, (packedBytes v).length) := by
  obtain ⟨hbytes, hlt⟩ := toByteArray_natCast v
  have hread (sp : ℕ) := septetAt_toBigEndian hlt sp
  rw [pack7Oid, if_neg (by exact_mod_cast hv), hbytes]
  simp only [length_toBigEndian]
  by_cases hlarge : byteLength v > (2 ^ 31 - 1) / 8
  · rw [if_pos hlarge, decide_eq_true hlarge]
    rfl
  rw [if_neg hlarge, decide_eq_false hlarge]
  by_cases hseven : 7 ∣ byteLength v
  · have hstart : septetAt (toBigEndian (byteLength v) v) (byteLength v * 8 / 7) = unwind := by
      rw [hread, if_neg (by omega)]
    rw [if_pos hseven, range_succ_reverse, List.foldlM_cons, packSeptet, hstart]
    rfl
  · rw [if_neg hseven, foldlM_packSeptet_skipping
      (fun sp hsp ↦ (hread sp).trans (if_pos (septet_in_bounds hseven hsp)))
      (takenSeptet_lt v), packedBytes, if_neg hv]
    simp [bind_assoc]

theorem pack7Oid_ok_iff {v n : ℕ} {out' : List UInt8} :
    pack7Oid v out offset = .ok (out', n) ↔
      (v = 0 ∨ byteLength v ≤ (2 ^ 31 - 1) / 8 ∧ ¬7 ∣ byteLength v) ∧
        pushAll out offset (packedBytes v) = .ok out' ∧ (packedBytes v).length = n := by
  rcases Nat.eq_zero_or_pos v with rfl | hv
  · rw [and_iff_right (Or.inl rfl)]
    change (setAt out offset 0 >>= fun out ↦ .ok (out, 1)) = .ok (out', n) ↔
      (setAt out offset 0 >>= fun out ↦ .ok out) = .ok out' ∧ 1 = n
    cases (setAt out offset 0 : Outcome String (List UInt8)) <;> simp
  · rw [pack7Oid_natCast hv.ne', or_iff_right hv.ne']
    split
    · next hlarge => exact iff_of_false nofun fun h ↦ absurd h.1.1 (Nat.not_le.mpr hlarge)
    · next hlarge =>
      split
      · next hseven => simp [hseven]
      · next hseven =>
        rw [and_iff_right ⟨Nat.not_lt.mp hlarge, hseven⟩]
        cases pushAll out offset (packedBytes v) <;> simp

end Pack

section Classes

/-- The bit that the code takes in the place of a bit. -/
def takenBit (i : ℕ) : ℕ := septetStart (i / 7) + i % 7

/-- Bytes and septets start together again after 392 bits. Within such a round, the bits that are
taken for one another: each of the first 49 bits by itself, but the bits up to 55 with bit 48, then
blocks of 49 bits of one, two, one, four, one and one class, and the rest with the first bit of the
next round. A class has the name of one of its bits. -/
def classInRound (r : ℕ) : ℕ :=
  if r ≤ 48 then r
  else if r < 56 then 48
  else if r < 105 then 62
  else if r < 147 then 117 + (r + 1) % 2
  else if r < 154 then if r % 3 = 1 then 117 else 118
  else if r < 203 then 172
  else if r < 245 then 227 + (r + 1) % 4
  else if r < 252 then 227 + (r % 5 + 1) % 4
  else if r < 301 then 282
  else if r < 350 then 336
  else 392

def bitClass (i : ℕ) : ℕ := 392 * (i / 392) + classInRound (i % 392)

theorem takenBit_add (q r : ℕ) : takenBit (392 * q + r) = 392 * q + takenBit r := by
  have hseptet : (392 * q + r) / 7 = 56 * q + r / 7 := by omega
  have hbit : (392 * q + r) % 7 = r % 7 := by omega
  have hstart (sp : ℕ) : septetStart (56 * q + sp) = 392 * q + septetStart sp := by
    have hmod : (56 * q + sp) % 7 = sp % 7 := by omega
    rw [septetStart, septetStart, hmod]
    omega
  rw [takenBit, takenBit, hseptet, hbit, hstart, Nat.add_assoc]

theorem bitClass_add (q r : ℕ) : bitClass (392 * q + r) = 392 * q + bitClass r := by
  rw [bitClass, bitClass, Nat.mul_add_mod, Nat.mul_add_div (by norm_num), Nat.mul_add,
    Nat.add_assoc]

theorem bitClass_takenBit (i : ℕ) : bitClass (takenBit i) = bitClass i := by
  have hround : ∀ r < 392, bitClass (takenBit r) = bitClass r := by decide +kernel
  rw [← Nat.div_add_mod i 392, takenBit_add, bitClass_add, bitClass_add,
    hround _ (Nat.mod_lt i (by norm_num))]

theorem exists_iterate_takenBit (i : ℕ) : ∃ n, takenBit^[n] i = bitClass i := by
  have hround : ∀ r < 392, ∃ n < 43, takenBit^[n] r = bitClass r := by decide +kernel
  obtain ⟨n, -, hn⟩ := hround _ (Nat.mod_lt i (by norm_num))
  have hshift (q r : ℕ) : takenBit^[n] (392 * q + r) = 392 * q + takenBit^[n] r :=
    (Function.Semiconj.iterate_right (fun r ↦ (takenBit_add q r).symm) n r).symm
  refine ⟨n, ?_⟩
  rw [← Nat.div_add_mod i 392, hshift, hn, bitClass_add]

theorem testBit_septet (v start j : ℕ) :
    (v / 2 ^ start % 128).testBit j = (decide (j < 7) && v.testBit (start + j)) := by
  rw [show 128 = 2 ^ 7 from rfl, Nat.testBit_mod_two_pow, Nat.testBit_div_two_pow, Nat.add_comm]

/-- Every septet is the right one exactly when the bits of a class are alike. -/
theorem forall_takenSeptet_iff {v : ℕ} : (∀ sp, takenSeptet v sp = v / 2 ^ (7 * sp) % 128) ↔
    ∀ i j, bitClass i = bitClass j → v.testBit i = v.testBit j := by
  rw [← forall_step_iff bitClass_takenBit exists_iterate_takenBit]
  constructor
  · intro h i
    have hbit := congrArg (Nat.testBit · (i % 7)) (h (i / 7))
    have hlt : i % 7 < 7 := Nat.mod_lt i (by norm_num)
    simp only [takenSeptet, testBit_septet, hlt, decide_true, Bool.true_and] at hbit
    rw [takenBit, hbit, Nat.div_add_mod]
  · intro h sp
    refine Nat.eq_of_testBit_eq fun j ↦ ?_
    rw [takenSeptet, testBit_septet, testBit_septet]
    by_cases hj : j < 7
    · have hbit := h (7 * sp + j)
      rw [takenBit, Nat.mul_add_div (by norm_num), Nat.div_eq_of_lt hj, Nat.mul_add_mod,
        Nat.mod_eq_of_lt hj, Nat.add_zero] at hbit
      rw [hbit]
    · simp [hj]

theorem bitClass_of_le {i : ℕ} (h : i ≤ 48) : bitClass i = i := by
  rw [bitClass, Nat.div_eq_of_lt (by omega), Nat.mod_eq_of_lt (by omega), classInRound, if_pos h,
    Nat.mul_zero, Nat.zero_add]

theorem bitClass_of_lt_56 {i : ℕ} (h : 48 ≤ i) (h' : i < 56) : bitClass i = 48 := by
  rw [bitClass, classInRound]
  split_ifs <;> omega

theorem bitClass_of_lt_105 {i : ℕ} (h : 56 ≤ i) (h' : i < 105) : bitClass i = 62 := by
  rw [bitClass, classInRound]
  split_ifs <;> omega

theorem le_bitClass {i : ℕ} (h : 56 ≤ i) : 56 ≤ bitClass i := by
  rw [bitClass, classInRound]
  split_ifs <;> omega

end Classes

section Packs

variable {v : ℕ}

def packedValue (v : ℕ) : Option ℕ :=
  if v = 0 then some 0
  else if ofSeptets (takenSeptet v) (byteLength v * 8 / 7 + 1) = 0 then none
  else some (ofSeptets (takenSeptet v) (byteLength v * 8 / 7 + 1))

/-- The bytes of the number do not come in sevens, and its bits are alike in every class. -/
def Packs (v : ℕ) : Prop :=
  ¬7 ∣ v.size / 8 + 1 ∧ ∀ i j, bitClass i = bitClass j → v.testBit i = v.testBit j

theorem packedBytes_eq (v : ℕ) : packedBytes v = (packedValue v).elim [] base128 := by
  rw [packedBytes, packedValue]
  by_cases hv : v = 0
  · rw [if_pos hv, if_pos hv]
    rfl
  · rw [if_neg hv, if_neg hv, strippedSeptets_eq (takenSeptet_lt v)]
    split <;> rfl

theorem div_two_pow_eq_zero {bit : ℕ} (h : 8 * byteLength v ≤ bit) : v / 2 ^ bit = 0 := by
  refine Nat.div_eq_of_lt ((toByteArray_natCast v).2.trans_le ?_)
  rw [show 256 = 2 ^ 8 from rfl, ← pow_mul]
  exact Nat.pow_le_pow_right Nat.two_pos h

theorem packedValue_eq_some_iff (hv : v ≠ 0) : packedValue v = some v ↔
    ∀ sp, takenSeptet v sp = v / 2 ^ (7 * sp) % 128 := by
  have hpow (sp : ℕ) : 128 ^ sp = 2 ^ (7 * sp) := by rw [pow_mul]; norm_num
  have hlt : v < 128 ^ (byteLength v * 8 / 7 + 1) := by
    rw [hpow, ← Nat.div_eq_zero_iff_lt (Nat.two_pow_pos _)]
    exact div_two_pow_eq_zero (by omega)
  have hsome : packedValue v = some v ↔
      ofSeptets (takenSeptet v) (byteLength v * 8 / 7 + 1) = v := by
    rw [packedValue, if_neg hv]
    split
    · next h0 => simp [h0, Ne.symm hv]
    · exact Option.some_inj
  rw [hsome, ofSeptets_eq_iff (takenSeptet_lt v) hlt]
  simp only [hpow]
  refine ⟨fun h sp ↦ ?_, fun h sp _ ↦ h sp⟩
  rcases Nat.lt_or_ge sp (byteLength v * 8 / 7 + 1) with hsp | hsp
  · exact h sp hsp
  · -- both septets are beyond the last byte
    have hfar : byteLength v ≤ 7 * sp / 8 := by omega
    have hstart : 8 * byteLength v ≤ septetStart sp := by
      rw [septetStart]
      omega
    rw [takenSeptet, div_two_pow_eq_zero hstart, div_two_pow_eq_zero (by omega)]

theorem packs_iff : Packs v ↔ (v = 0 ∨ ¬7 ∣ byteLength v) ∧ packedValue v = some v := by
  by_cases hv : v = 0
  · subst hv
    exact ⟨fun _ ↦ ⟨Or.inl rfl, rfl⟩, fun _ ↦ ⟨by decide, by simp⟩⟩
  · rw [packedValue_eq_some_iff hv, forall_takenSeptet_iff, or_iff_right hv]
    rfl

theorem Packs.packedBytes (h : Packs v) : packedBytes v = base128 v := by
  rw [packedBytes_eq, (packs_iff.mp h).2, Option.elim_some]

/-- Below `2 ^ 56` only one class has more than one bit. -/
theorem packs_of_alike (hseven : ¬7 ∣ v.size / 8 + 1) (hhigh : v < 2 ^ 56)
    (halike : ∀ i, 48 ≤ i → i < 56 → v.testBit i = v.testBit 48) : Packs v := by
  have hzero {bit : ℕ} (hbit : 56 ≤ bit) : v.testBit bit = false :=
    Nat.testBit_lt_two_pow (hhigh.trans_le (Nat.pow_le_pow_right two_pos hbit))
  have hclass (i : ℕ) : v.testBit (bitClass i) = v.testBit i := by
    rcases Nat.lt_or_ge i 48 with hi | hi
    · rw [bitClass_of_le hi.le]
    · rcases Nat.lt_or_ge i 56 with hi' | hi'
      · rw [bitClass_of_lt_56 hi hi', halike i hi hi']
      · rw [hzero hi', hzero (le_bitClass hi')]
  exact ⟨hseven, fun i j hij ↦ by rw [← hclass i, hij, hclass j]⟩

theorem packs_of_lt (h : v < 2 ^ 47) : Packs v := by
  have hsize : v.size ≤ 47 := Nat.size_le.mpr h
  have hzero {bit : ℕ} (hbit : 47 ≤ bit) : v.testBit bit = false :=
    Nat.testBit_lt_two_pow (h.trans_le (Nat.pow_le_pow_right two_pos hbit))
  refine packs_of_alike (by omega) (h.trans (by norm_num)) fun i hi _ ↦ ?_
  rw [hzero (by omega), hzero (by norm_num)]

theorem top_byte_iff (hhigh : v < 2 ^ 56) :
    2 ^ 56 - 2 ^ 48 ≤ v ↔ ∀ i, 48 ≤ i → i < 56 → v.testBit i = true := by
  have hfull : 2 ^ 56 - 2 ^ 48 ≤ v ↔ v / 2 ^ 48 = 2 ^ 8 - 1 := by omega
  rw [hfull]
  constructor
  · intro hdiv i hi hi'
    have hbit := Nat.testBit_div_two_pow v (i := i - 48) (n := 48)
    rw [hdiv, Nat.testBit_two_pow_sub_one, Nat.sub_add_cancel hi] at hbit
    rw [← hbit, decide_eq_true (by omega)]
  · intro h
    refine Nat.eq_of_testBit_eq fun i ↦ ?_
    rw [Nat.testBit_div_two_pow, Nat.testBit_two_pow_sub_one]
    by_cases hi : i < 8
    · rw [h _ (by omega) (by omega), decide_eq_true hi]
    · rw [decide_eq_false hi]
      exact Nat.testBit_lt_two_pow (hhigh.trans_le (Nat.pow_le_pow_right two_pos (by omega)))

theorem Packs.lt_two_pow_56 (h : Packs v) (hlt : v < 2 ^ 105) : v < 2 ^ 56 := by
  by_contra hge
  obtain ⟨i, hi, hbit⟩ := Nat.exists_ge_and_testBit_of_ge_two_pow (Nat.le_of_not_lt hge)
  have hi' : i < 105 := (Nat.pow_lt_pow_iff_right one_lt_two).mp
    ((Nat.ge_two_pow_of_testBit hbit).trans_lt hlt)
  -- the top bit of the block is set as well, and the number has fourteen bytes
  rw [h.2 i 104 (by rw [bitClass_of_lt_105 hi hi']; rfl)] at hbit
  have hsize : 104 < v.size := Nat.lt_size.mpr (Nat.ge_two_pow_of_testBit hbit)
  have hsize' : v.size ≤ 105 := Nat.size_le.mpr hlt
  exact h.1 (by omega)

theorem packs_iff_of_lt (hlt : v < 2 ^ 105) :
    Packs v ↔ v < 2 ^ 47 ∨ 2 ^ 56 - 2 ^ 48 ≤ v ∧ v < 2 ^ 56 := by
  constructor
  · intro h
    refine or_iff_not_imp_left.mpr fun hlow ↦ ?_
    have hhigh := h.lt_two_pow_56 hlt
    have hsize : 47 < v.size := Nat.lt_size.mpr (Nat.le_of_not_lt hlow)
    have hsize' : v.size ≤ 56 := Nat.size_le.mpr hhigh
    -- numbers of 48 to 55 bits have seven bytes
    have hfull : 55 < v.size := by
      have hseven := h.1
      omega
    have htop : v.testBit 55 = true :=
      Nat.testBit_of_two_pow_le_and_two_pow_add_one_gt (Nat.lt_size.mp hfull) hhigh
    refine ⟨(top_byte_iff hhigh).mpr fun i hi hi' ↦ ?_, hhigh⟩
    rw [← htop]
    exact h.2 i 55 (bitClass_of_lt_56 hi hi')
  · rintro (hlow | ⟨hlow, hhigh⟩)
    · exact packs_of_lt hlow
    · have hbits := (top_byte_iff hhigh).mp hlow
      have hsize : 55 < v.size := Nat.lt_size.mpr (le_trans (by norm_num) hlow)
      have hsize' : v.size ≤ 56 := Nat.size_le.mpr hhigh
      refine packs_of_alike (by omega) hhigh fun i hi hi' ↦ ?_
      rw [hbits i hi hi', hbits 48 le_rfl (by norm_num)]

end Packs

end OID

end HieroCryptography.Security
