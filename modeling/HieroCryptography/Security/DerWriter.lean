import HieroCryptography.Security.DerOutputStream

namespace HieroCryptography.Security

open Rust Foundation

def lowByte (i : Int32) : UInt8 := i.toUInt32.toUInt8

/-- Every method of the class is the list of the `write` calls that it makes. -/
abbrev Writes := List Write

namespace DerWriter

def tagBoolean : UInt8 := 0x01

def tagInteger : UInt8 := 0x02

def tagBitString : UInt8 := 0x03

def tagOctetString : UInt8 := 0x04

def tagNull : UInt8 := 0x05

def tagObjectId : UInt8 := 0x06

def tagUtf8String : UInt8 := 0x0c

def tagPrintableString : UInt8 := 0x13

def tagUtcTime : UInt8 := 0x17

def tagGeneralizedTime : UInt8 := 0x18

def tagSequence : UInt8 := 0x30

def tagSet : UInt8 := 0x31

def tagContext : UInt8 := 0x80

def tagTbsCertificate : UInt8 := 0xa0

def createTag (tagClass : UInt8) (form : Bool) (val : Int8) : Outcome String UInt8 := do
  require (!(val < 0 || val > 30)) "val must be between 0 and 30."
  let tag := tagClass ||| val.toUInt8
  .ok (if form then tag ||| 0x20 else tag)

def putLength (len : Int32) : Writes :=
  if len < 128 then [.byte (lowByte len)]
  else if len < 256 then [.byte 0x81, .byte (lowByte len)]
  else if len < 65536 then [.byte 0x82, .byte (lowByte (len >>> 8)), .byte (lowByte len)]
  else if len < 16777216 then
    [.byte 0x83, .byte (lowByte (len >>> 16)), .byte (lowByte (len >>> 8)), .byte (lowByte len)]
  else
    [.byte 0x84, .byte (lowByte (len >>> 24)), .byte (lowByte (len >>> 16)),
      .byte (lowByte (len >>> 8)), .byte (lowByte len)]

def bitLength : ℤ → ℕ
  | .ofNat n => n.size
  | .negSucc n => n.size

/-- `BigInteger.toByteArray`: the shortest two's complement form with a sign bit. -/
def toByteArray (i : ℤ) : List UInt8 :=
  let width := bitLength i / 8 + 1
  toBigEndian width (i % 256 ^ width).toNat

def putInteger (i : ℤ) : Writes :=
  let buf := toByteArray i
  .byte tagInteger :: (putLength (Int32.ofNat buf.length) ++
    [.slice buf 0 buf.length (Nat.zero_add _).le])

def putByteInteger (i : UInt8) : Writes := .byte tagInteger :: (putLength 1 ++ [.byte i])

def putSlice (tag : UInt8) (buf : List UInt8) (offset length : ℕ)
    (inside : offset + length ≤ buf.length) : Writes :=
  .byte tag :: (putLength (Int32.ofNat length) ++ [.slice buf offset length inside])

def put (tag : UInt8) (buf : List UInt8) : Writes :=
  putSlice tag buf 0 buf.length (Nat.zero_add _).le

def putNull : Writes := .byte tagNull :: putLength 0

def putBitString (bits : List UInt8) : Writes :=
  .byte tagBitString :: (putLength (Int32.ofNat (bits.length + 1)) ++ [.byte 0, .bytes bits])

def putBoolean (b : Bool) : Writes :=
  .byte tagBoolean :: (putLength 1 ++ [.byte (if b then 0xff else 0)])

end DerWriter

section PutLength

variable {n : ℕ}

theorem lowByte_ofNat (n : ℕ) : lowByte (Int32.ofNat n) = UInt8.ofNat n := by
  have hbits : (Int32.ofNat n).toUInt32.toNat = n % 2 ^ 32 := BitVec.toNat_ofNat n 32
  rw [lowByte, ← UInt8.toNat_inj, UInt32.toNat_toUInt8, UInt8.toNat_ofNat', hbits]
  omega

theorem lowByte_shiftRight (h : n < 2 ^ 31) (shift : Int32) (k : ℕ)
    (hk : (shift.toBitVec.smod 32).toNat = 8 * k) :
    lowByte (Int32.ofNat n >>> shift) = UInt8.ofNat (n / 256 ^ k) := by
  have hbits : (Int32.ofNat n).toBitVec = BitVec.ofNat 32 n := rfl
  have hlt : n < 2 ^ 32 := h.trans (by norm_num)
  have hmsb : (BitVec.ofNat 32 n).msb = false := by
    rw [BitVec.msb_eq_false_iff_two_mul_lt, BitVec.toNat_ofNat, Nat.mod_eq_of_lt hlt]
    omega
  have hshift : (Int32.ofNat n >>> shift).toUInt32.toNat = n / 256 ^ k := by
    change (Int32.ofNat n >>> shift).toBitVec.toNat = n / (2 ^ 8) ^ k
    rw [Int32.toBitVec_shiftRight, hbits, BitVec.sshiftRight', hk,
      BitVec.sshiftRight_eq_of_msb_false hmsb, BitVec.toNat_ushiftRight, BitVec.toNat_ofNat,
      Nat.mod_eq_of_lt hlt, Nat.shiftRight_eq_div_pow, pow_mul]
  rw [lowByte, ← UInt8.toNat_inj, UInt32.toNat_toUInt8, hshift, UInt8.toNat_ofNat']

theorem ofNat_lt_iff (h : n < 2 ^ 31) {bound : ℕ} (hbound : bound < 2 ^ 31) :
    Int32.ofNat n < Int32.ofNat bound ↔ n < bound := by
  rw [Int32.lt_iff_toInt_lt, Int32.toInt_ofNat_of_lt h, Int32.toInt_ofNat_of_lt hbound,
    Nat.cast_lt]

theorem derLength_long (width : ℕ) (hlong : 128 ≤ n) (hlow : 256 ^ width ≤ n)
    (hhigh : n < 256 ^ (width + 1)) :
    derLength n = UInt8.ofNat (128 + (width + 1)) :: toBigEndian (width + 1) n := by
  have hwidth := (byteWidth_eq_iff (by omega)).mpr ⟨hlow, hhigh⟩
  rw [derLength, if_neg (by omega), hwidth]

/-- The five branches write the shortest form of the length. -/
theorem contents_putLength (h : n < 2 ^ 31) :
    (DerWriter.putLength (Int32.ofNat n)).flatMap Write.contents = derLength n := by
  have h128 : Int32.ofNat n < 128 ↔ n < 128 := ofNat_lt_iff h (by norm_num)
  have h256 : Int32.ofNat n < 256 ↔ n < 256 := ofNat_lt_iff h (by norm_num)
  have h65536 : Int32.ofNat n < 65536 ↔ n < 65536 := ofNat_lt_iff h (by norm_num)
  have h16777216 : Int32.ofNat n < 16777216 ↔ n < 16777216 := ofNat_lt_iff h (by norm_num)
  have hbyte : UInt8.ofNat n = UInt8.ofNat (n / 256 ^ 0) := by rw [pow_zero, Nat.div_one]
  simp only [DerWriter.putLength, h128, h256, h65536, h16777216, lowByte_ofNat,
    lowByte_shiftRight h 8 1 (by decide), lowByte_shiftRight h 16 2 (by decide),
    lowByte_shiftRight h 24 3 (by decide)]
  rcases Nat.lt_or_ge n 128 with h0 | h0
  · rw [if_pos h0, derLength, if_pos h0]
    rfl
  rw [if_neg h0.not_gt]
  rcases Nat.lt_or_ge n 256 with h1 | h1
  · rw [if_pos h1, derLength_long 0 h0 (by omega) (by omega)]
    rfl
  rw [if_neg h1.not_gt]
  rcases Nat.lt_or_ge n 65536 with h2 | h2
  · rw [if_pos h2, derLength_long 1 h0 (by omega) (by omega), hbyte, toBigEndian_succ,
      toBigEndian_succ]
    rfl
  rw [if_neg h2.not_gt]
  rcases Nat.lt_or_ge n 16777216 with h3 | h3
  · rw [if_pos h3, derLength_long 2 h0 (by omega) (by omega), hbyte, toBigEndian_succ,
      toBigEndian_succ, toBigEndian_succ]
    rfl
  · rw [if_neg h3.not_gt, derLength_long 3 h0 (by omega) (by omega), hbyte, toBigEndian_succ,
      toBigEndian_succ, toBigEndian_succ, toBigEndian_succ]
    rfl

end PutLength

end HieroCryptography.Security
