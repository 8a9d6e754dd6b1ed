import HieroCryptography.Foundation.Base128
import HieroCryptography.Security.Nodes

namespace HieroCryptography.Security

open Rust Foundation

/-- A string of the language, as UTF-16 code units. -/
abbrev JavaString := List UInt16

def codeUnit (c : Char) : UInt16 := UInt16.ofNat c.toNat

section BigInteger

/-- Where the decimal digits among the code units start. -/
def decimalZeros : List ℕ :=
  [0x30, 0x660, 0x6f0, 0x7c0, 0x966, 0x9e6, 0xa66, 0xae6, 0xb66, 0xbe6, 0xc66, 0xce6, 0xd66, 0xde6,
    0xe50, 0xed0, 0xf20, 0x1040, 0x1090, 0x17e0, 0x1810, 0x1946, 0x19d0, 0x1a80, 0x1a90, 0x1b50,
    0x1bb0, 0x1c40, 0x1c50, 0xa620, 0xa8d0, 0xa900, 0xa9d0, 0xa9f0, 0xaa50, 0xabf0, 0xff10]

/-- `Character.digit(c, 10)`. -/
def characterDigit (c : UInt16) : Option ℕ :=
  (decimalZeros.find? fun start ↦ start ≤ c.toNat && c.toNat < start + 10).map (c.toNat - ·)

def appendDigit (n : ℕ) (c : UInt16) : Outcome String ℕ := do
  let d ← okOr (characterDigit c) "NumberFormatException"
  .ok (10 * n + d)

def parseMagnitude (digits : JavaString) : Outcome String ℕ := do
  require (!digits.isEmpty) "NumberFormatException"
  digits.foldlM appendDigit 0

/-- `new BigInteger(val)`. There may be one sign, at the start. Exceptions of the language's own
library are carried as their names. -/
def parseBigInteger (val : JavaString) : Outcome String ℤ :=
  let minus := codeUnit '-'
  let plus := codeUnit '+'
  if val.contains minus then do
    require (val.head? == some minus && !val.tail.contains minus && !val.contains plus)
      "NumberFormatException"
    let n ← parseMagnitude val.tail
    .ok (-n)
  else if val.contains plus then do
    require (val.head? == some plus && !val.tail.contains plus) "NumberFormatException"
    let n ← parseMagnitude val.tail
    .ok n
  else do
    let n ← parseMagnitude val
    .ok n

def intValueExact (i : ℤ) : Outcome String ℤ := do
  require (-2 ^ 31 ≤ i && i < 2 ^ 31) "ArithmeticException"
  .ok i

end BigInteger

structure OID where
  oid : JavaString

namespace OID

def maximumOidSize : ℕ := 4096

/-- A row of the table: what is taken from two consecutive bytes. -/
structure Mask where
  msbMask : ℕ
  msbShift : ℕ
  lsbMask : ℕ
  lsbShift : ℕ

def masks : List Mask :=
  [⟨0b00000000, 0, 0b01111111, 0⟩,
    ⟨0b00111111, 1, 0b10000000, 7⟩,
    ⟨0b00011111, 2, 0b11000000, 6⟩,
    ⟨0b00001111, 3, 0b11100000, 5⟩,
    ⟨0b00000111, 4, 0b11110000, 4⟩,
    ⟨0b00000011, 5, 0b11111000, 3⟩,
    ⟨0b00000001, 6, 0b11111100, 2⟩,
    ⟨0b00000000, 7, 0b11111110, 1⟩]

def byteAt (b : List UInt8) (i : ℤ) : Outcome String UInt8 :=
  if 0 ≤ i then index b i.toNat else unwind

/-- The value that a turn of the loop of `pack7Oid` takes from the bytes. -/
def septetAt (b : List UInt8) (sp : ℕ) : Outcome String ℕ := do
  let mask ← index masks (sp % 7)
  let lsbIndex : ℤ := b.length - sp * 7 / 8 - 1
  let lsb ← byteAt b lsbIndex
  let value := (lsb.toNat &&& mask.lsbMask) >>> mask.lsbShift
  let msbIndex := lsbIndex - 1
  if msbIndex ≥ 0 then do
    let msb ← byteAt b msbIndex
    .ok (value ||| (msb.toNat &&& mask.msbMask) <<< mask.msbShift)
  else .ok value

structure Packing where
  out : List UInt8
  offset : ℕ
  skipLeadingZeros : Bool

def packSeptet (b : List UInt8) (s : Packing) (sp : ℕ) : Outcome String Packing := do
  let value ← septetAt b sp
  if s.skipLeadingZeros && value == 0 then .ok s
  else do
    let value := if sp > 0 then value ||| 0x80 else value
    let out ← setAt s.out s.offset (UInt8.ofNat (value &&& 0xff))
    .ok ⟨out, s.offset + 1, false⟩

/-- The buffer and the number of bytes that have been put in it. -/
def pack7Oid (input : ℤ) (out : List UInt8) (offset : ℕ) : Outcome String (List UInt8 × ℕ) :=
  if input = 0 then do
    let out ← setAt out offset 0
    .ok (out, 1)
  else do
    let b := DerWriter.toByteArray input
    require (!(b.length > (2 ^ 31 - 1) / 8)) ("BigInteger is too large: " ++ toString input)
    let s ← (List.range (b.length * 8 / 7 + 1)).reverse.foldlM (packSeptet b) ⟨out, offset, true⟩
    .ok (s.out, s.offset - offset)

def checkFirstComponent (first : ℤ) : Outcome String Unit :=
  require (!(first < 0 || first > 2)) ("First oid component is invalid: " ++ toString first)

def checkSecondComponent (first second : ℤ) : Outcome String Unit :=
  require (!(second.sign == -1 || first != 2 && second > 39))
    ("Second oid component is invalid: " ++ toString second ++ " for first: " ++ toString first)

def checkOtherComponent (i : ℕ) (num : ℤ) : Outcome String Unit :=
  require (!(num.sign == -1)) ("oid component " ++ toString (i + 1) ++
    " must be non-negative, got " ++ toString num)

def checkOidSize (oidLength : ℤ) : Outcome String Unit := do
  require (!(oidLength < 0)) ("Encoded length was negative: " ++ toString oidLength)
  require (!(oidLength > maximumOidSize)) ("Encoded length " ++ toString oidLength ++ " exceeds " ++
    toString maximumOidSize)

def checkCount (count : ℕ) : Outcome String Unit :=
  require (!(count < 2)) "Must be at least two oid components"

structure Components where
  tmp : List UInt8
  pos : ℕ
  first : ℤ
  count : ℕ

def packedNumber (s : Components) (bignum : ℤ) : Outcome String ℤ :=
  if s.count = 1 then do
    checkSecondComponent s.first bignum
    .ok (bignum + 40 * s.first)
  else do
    checkOtherComponent s.count bignum
    .ok bignum

def addComponent (s : Components) (comp : JavaString) : Outcome String Components := do
  let bignum ← parseBigInteger comp
  let s : Components ←
    if s.count = 0 then do
      let first ← intValueExact bignum
      checkFirstComponent first
      .ok { s with first := first }
    else do
      let bignum ← packedNumber s bignum
      let (tmp, packed) ← pack7Oid bignum s.tmp s.pos
      .ok { s with tmp := tmp, pos := s.pos + packed }
  let s : Components := { s with count := s.count + 1 }
  checkOidSize s.pos
  .ok s

def writes (oid : OID) : Outcome String Writes := do
  let s ← (oid.oid.splitOn (codeUnit '.')).foldlM addComponent
    ⟨List.replicate oid.oid.length 0, 0, 0, 0⟩
  checkCount s.count
  if inside : 0 + s.pos ≤ s.tmp.length then
    .ok (DerWriter.putSlice DerWriter.tagObjectId s.tmp 0 s.pos inside)
  else unwind

def emit (oid : OID) (os : DerOutputStream) : Outcome String DerOutputStream := do
  let calls ← oid.writes
  calls.foldlM DerOutputStream.write os

end OID

section Decimal

def decimal (n : ℕ) : JavaString := (Nat.toDigits 10 n).map codeUnit

theorem decimal_of_lt {n : ℕ} (h : n < 10) : decimal n = [codeUnit n.digitChar] := by
  rw [decimal, Nat.toDigits_of_lt_base h, List.map_singleton]

theorem decimal_of_le {n : ℕ} (h : 10 ≤ n) :
    decimal n = decimal (n / 10) ++ [codeUnit (n % 10).digitChar] := by
  rw [decimal, Nat.toDigits_of_base_le (by norm_num) h, List.map_append, List.map_singleton,
    decimal]

theorem decimal_induction {motive : ℕ → Prop} (digit : ∀ n < 10, motive n)
    (append : ∀ n, 10 ≤ n → motive (n / 10) → motive n) (n : ℕ) : motive n := by
  induction n using Nat.strongRecOn with
  | ind n ih =>
    rcases Nat.lt_or_ge n 10 with h | h
    · exact digit n h
    · exact append n h (ih (n / 10) (by omega))

theorem codeUnit_digitChar {d : ℕ} (h : d < 10) :
    (codeUnit d.digitChar).toNat = 48 + d ∧ characterDigit (codeUnit d.digitChar) = some d := by
  interval_cases d <;> decide

theorem mem_decimal {n : ℕ} {c : UInt16} (h : c ∈ decimal n) : 48 ≤ c.toNat := by
  induction n using decimal_induction with
  | digit n hn =>
    rw [decimal_of_lt hn, List.mem_singleton] at h
    rw [h, (codeUnit_digitChar hn).1]
    omega
  | append n hn ih =>
    rw [decimal_of_le hn, List.mem_append, List.mem_singleton] at h
    rcases h with h | rfl
    · exact ih h
    · rw [(codeUnit_digitChar (Nat.mod_lt n (by norm_num))).1]
      omega

theorem notMem_decimal {c : Char} (h : (codeUnit c).toNat < 48) (n : ℕ) :
    codeUnit c ∉ decimal n := fun hmem ↦ absurd (mem_decimal hmem) (by omega)

theorem decimal_ne_nil (n : ℕ) : decimal n ≠ [] := by
  induction n using decimal_induction with
  | digit n hn => rw [decimal_of_lt hn]; exact nofun
  | append n hn ih => rw [decimal_of_le hn]; exact List.append_ne_nil_of_right_ne_nil _ nofun

theorem lt_pow_length_decimal (n : ℕ) : n < 10 ^ (decimal n).length := by
  induction n using decimal_induction with
  | digit n hn => rwa [decimal_of_lt hn, List.length_singleton, pow_one]
  | append n hn ih =>
    rw [decimal_of_le hn, List.length_append, List.length_singleton, pow_succ]
    omega

theorem foldlM_appendDigit_decimal (n : ℕ) : (decimal n).foldlM appendDigit 0 = .ok n := by
  have hdigit (m d : ℕ) (hd : d < 10) :
      appendDigit m (codeUnit d.digitChar) = .ok (10 * m + d) := by
    rw [appendDigit, (codeUnit_digitChar hd).2, okOr_some, ok_bind]
  induction n using decimal_induction with
  | digit n hn =>
    rw [decimal_of_lt hn, List.foldlM_cons, hdigit 0 n hn, ok_bind, Nat.mul_zero, Nat.zero_add]
    rfl
  | append n hn ih =>
    rw [decimal_of_le hn, List.foldlM_append, ih, ok_bind, List.foldlM_cons,
      hdigit _ _ (Nat.mod_lt n (by norm_num)), ok_bind, Nat.div_add_mod]
    rfl

theorem parseBigInteger_decimal (n : ℕ) : parseBigInteger (decimal n) = .ok (n : ℤ) := by
  have hminus : (decimal n).contains (codeUnit '-') = false := by
    rw [List.contains_eq_mem, decide_eq_false_iff_not]
    exact notMem_decimal (by decide) n
  have hplus : (decimal n).contains (codeUnit '+') = false := by
    rw [List.contains_eq_mem, decide_eq_false_iff_not]
    exact notMem_decimal (by decide) n
  have hempty : (decimal n).isEmpty = false := List.isEmpty_eq_false_iff.mpr (decimal_ne_nil n)
  have hmagnitude : parseMagnitude (decimal n) = .ok n := by
    rw [parseMagnitude, hempty, foldlM_appendDigit_decimal]
    rfl
  simp only [parseBigInteger, hminus, hplus, hmagnitude]
  rfl

end Decimal

end HieroCryptography.Security
