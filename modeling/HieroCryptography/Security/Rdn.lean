import HieroCryptography.Foundation.PaddedOrder
import HieroCryptography.Security.Oid

namespace HieroCryptography.Security

open Rust Foundation

section Strings

/-- The code points of a string, with nothing for a surrogate that is not part of a pair. -/
def codePoints : JavaString → List (Option ℕ)
  | [] => []
  | [c] => [if 0xd800 ≤ c.toNat ∧ c.toNat < 0xe000 then none else some c.toNat]
  | c :: c' :: rest =>
    if 0xd800 ≤ c.toNat ∧ c.toNat < 0xdc00 ∧ 0xdc00 ≤ c'.toNat ∧ c'.toNat < 0xe000 then
      some (0x10000 + 0x400 * (c.toNat - 0xd800) + (c'.toNat - 0xdc00)) :: codePoints rest
    else if 0xd800 ≤ c.toNat ∧ c.toNat < 0xe000 then none :: codePoints (c' :: rest)
    else some c.toNat :: codePoints (c' :: rest)

def utf8Bytes (n : ℕ) : List UInt8 :=
  if n < 0x80 then [UInt8.ofNat n]
  else if n < 0x800 then [UInt8.ofNat (0xc0 + n / 0x40), UInt8.ofNat (0x80 + n % 0x40)]
  else if n < 0x10000 then
    [UInt8.ofNat (0xe0 + n / 0x1000), UInt8.ofNat (0x80 + n / 0x40 % 0x40),
      UInt8.ofNat (0x80 + n % 0x40)]
  else
    [UInt8.ofNat (0xf0 + n / 0x40000), UInt8.ofNat (0x80 + n / 0x1000 % 0x40),
      UInt8.ofNat (0x80 + n / 0x40 % 0x40), UInt8.ofNat (0x80 + n % 0x40)]

/-- `getBytes(UTF_8)`, with a question mark for what is malformed. -/
def getBytesUtf8 (str : JavaString) : List UInt8 :=
  (codePoints str).flatMap fun point ↦ point.elim [0x3f] utf8Bytes

def getBytesAscii (str : JavaString) : List UInt8 :=
  (codePoints str).map fun point ↦ point.elim 0x3f fun n ↦
    if n < 0x80 then UInt8.ofNat n else 0x3f

end Strings

def isPrintable (c : UInt16) : Bool :=
  codeUnit 'a' ≤ c && c ≤ codeUnit 'z' || codeUnit 'A' ≤ c && c ≤ codeUnit 'Z' ||
    codeUnit '0' ≤ c && c ≤ codeUnit '9' || (" '()+,-./:=?".toList.map codeUnit).contains c

/-- The constructor refuses other tags, and strings that do not match their tag. -/
structure DerString where
  str : JavaString
  tag : UInt8
  supported : tag = DerWriter.tagUtf8String ∨
    tag = DerWriter.tagPrintableString ∧ str.all isPrintable = true

namespace DerString

def printableStringPattern : String := "^[a-zA-Z0-9 \\'\\(\\)\\+\\,\\-\\.\\/\\:\\=\\?]*$"

def text (str : JavaString) : String :=
  String.ofList ((codePoints str).map fun point ↦ Char.ofNat (point.getD 0x3f))

def create (str : JavaString) (tag : UInt8) : Outcome String DerString :=
  if htag : tag = DerWriter.tagUtf8String ∨ tag = DerWriter.tagPrintableString then
    if hstr : tag = DerWriter.tagPrintableString → str.all isPrintable = true then
      .ok ⟨str, tag, htag.imp_right fun h ↦ ⟨h, hstr h⟩⟩
    else fail ("Unsupported PRINTABLE_STRING: `" ++ text str ++ "`, doesn't match `" ++
      printableStringPattern ++ "`")
  else fail ("Unsupported tag: " ++ toString tag.toInt8.toInt)

def bytes (string : DerString) : List UInt8 :=
  if string.tag = DerWriter.tagPrintableString then getBytesAscii string.str
  else getBytesUtf8 string.str

def emit (string : DerString) (os : DerOutputStream) : Outcome String DerOutputStream :=
  (DerWriter.put string.tag string.bytes).foldlM DerOutputStream.write os

end DerString

structure AVA where
  oid : OID
  value : DerString

namespace AVA

def emit (ava : AVA) (os : DerOutputStream) : Outcome String DerOutputStream := do
  let os ← ava.oid.emit os
  ava.value.emit os

def encode (ava : AVA) (os : DerOutputStream) : Outcome String DerOutputStream :=
  encodeTag ava.emit DerWriter.tagSequence os

def toByteArray (ava : AVA) : Outcome String (List UInt8) := do
  let os ← ava.encode .new
  .ok os.toByteArray

end AVA

/-- The first difference of two bytes at the same index, or the difference of the lengths. -/
def ByteArrayLexOrder.compare (bytes1 bytes2 : List UInt8) : ℤ :=
  let diff := (bytes1.zip bytes2).findSome? fun (b1, b2) ↦
    if (b1.toNat : ℤ) - b2.toNat ≠ 0 then some ((b1.toNat : ℤ) - b2.toNat) else none
  diff.getD (bytes1.length - bytes2.length)

structure RDN where
  avaList : List AVA

namespace RDN

def emit (rdn : RDN) (os : DerOutputStream) : Outcome String DerOutputStream := do
  let encodings ← rdn.avaList.mapM AVA.toByteArray
  let sorted := encodings.mergeSort fun a b ↦ ByteArrayLexOrder.compare a b ≤ 0
  sorted.foldlM (fun os b ↦ os.write (.bytes b)) os

def encode (rdn : RDN) (os : DerOutputStream) : Outcome String DerOutputStream :=
  encodeTag rdn.emit DerWriter.tagSet os

end RDN

section Order

def octets (bytes : List UInt8) : List ℕ := bytes.map UInt8.toNat

/-- The order of the components of a SET OF: unsigned, with the shorter of two padded at its end
with zero octets. -/
def SetOfLe (a b : List UInt8) : Prop := PaddedLe (octets a) (octets b)

theorem octets_injective : Function.Injective octets :=
  List.map_injective_iff.mpr fun _ _ h ↦ UInt8.toNat_inj.mp h

theorem octets_prefix_iff {a b : List UInt8} : octets a <+: octets b ↔ a <+: b := by
  constructor
  · intro h
    rw [List.prefix_iff_eq_take, octets, octets, List.length_map, ← List.map_take] at h
    exact List.prefix_iff_eq_take.mpr (octets_injective h)
  · exact fun h ↦ h.map _

namespace ByteArrayLexOrder

variable {a b c : List UInt8}

theorem compare_nil_left (b : List UInt8) : compare [] b = -b.length := by
  simp [compare]

theorem compare_nil_right (a : List UInt8) : compare a [] = a.length := by
  simp [compare]

theorem compare_cons (x y : UInt8) (a b : List UInt8) :
    compare (x :: a) (y :: b) = if x = y then compare a b else (x.toNat : ℤ) - y.toNat := by
  by_cases h : x = y
  · simp [compare, h]
  · have hdiff : (x.toNat : ℤ) - y.toNat ≠ 0 := by
      rwa [sub_ne_zero, Ne, Nat.cast_inj, UInt8.toNat_inj]
    simp [compare, hdiff, h]

theorem compare_swap (a b : List UInt8) : compare b a = -compare a b := by
  induction a generalizing b with
  | nil => rw [compare_nil_left, compare_nil_right, neg_neg]
  | cons x a ih =>
    cases b with
    | nil => rw [compare_nil_left, compare_nil_right]
    | cons y b =>
      rw [compare_cons, compare_cons, ih]
      by_cases h : x = y
      · rw [if_pos h.symm, if_pos h]
      · rw [if_neg (Ne.symm h), if_neg h, neg_sub]

theorem compare_lt_zero_iff : compare a b < 0 ↔ octets a < octets b := by
  induction a generalizing b with
  | nil =>
    rw [compare_nil_left]
    cases b with
    | nil => simp [octets]
    | cons y b => simp [octets, List.nil_lt_cons]; omega
  | cons x a ih =>
    cases b with
    | nil =>
      rw [compare_nil_right]
      simp [octets]
      omega
    | cons y b =>
      rw [compare_cons, octets, octets, List.map_cons, List.map_cons, List.cons_lt_cons_iff,
        UInt8.toNat_inj]
      by_cases h : x = y
      · subst h
        simpa [octets] using ih
      · simp [h]

theorem compare_le_zero_iff : compare a b ≤ 0 ↔ octets a ≤ octets b := by
  have hneg : compare a b ≤ 0 ↔ ¬compare b a < 0 := by
    rw [compare_swap a b]
    omega
  rw [hneg, compare_lt_zero_iff, not_lt]

theorem compare_eq_zero_iff : compare a b = 0 ↔ a = b := by
  have hswap := compare_swap a b
  have hle : compare a b = 0 ↔ compare a b ≤ 0 ∧ compare b a ≤ 0 := by omega
  rw [hle, compare_le_zero_iff, compare_le_zero_iff, ← octets_injective.eq_iff]
  exact le_antisymm_iff.symm

theorem compare_le_zero_trans (h : compare a b ≤ 0) (h' : compare b c ≤ 0) : compare a c ≤ 0 := by
  rw [compare_le_zero_iff] at h h' ⊢
  exact h.trans h'

theorem compare_le_zero_total (a b : List UInt8) : compare a b ≤ 0 ∨ compare b a ≤ 0 := by
  rw [compare_le_zero_iff, compare_le_zero_iff]
  exact le_total _ _

end ByteArrayLexOrder

end Order

section Attributes

/-- Encoded on its own, without an exception and in an array of the language. -/
def AVA.Encodable (ava : AVA) : Prop :=
  ∃ bytes, ava.toByteArray = .ok bytes ∧ bytes.length < 2 ^ 31

def AVA.encoding (ava : AVA) : List UInt8 :=
  match ava.toByteArray with
  | .ok bytes => bytes
  | .error _ => []

variable {ava ava' : AVA}

theorem exists_emit_ok_of_encodeTag {emit : DerOutputStream → Outcome String DerOutputStream}
    {tag : UInt8} {os os' : DerOutputStream} (h : encodeTag emit tag os = .ok os') :
    ∃ os₁ os₂, emit os₁ = .ok os₂ := by
  obtain ⟨⟨index, os₁⟩, -, h⟩ := bind_ok_iff.mp h
  obtain ⟨os₂, hemit, -⟩ := bind_ok_iff.mp h
  exact ⟨os₁, os₂, hemit⟩

theorem AVA.emit_emitted {calls : Writes} (h : ava.oid.writes = .ok calls) (os : DerOutputStream)
    (m : ℕ) (hlevel : os.Level m) :
    ∃ os', ava.emit os = .ok os' ∧ DerOutputStream.Emitted m
      (calls.flatMap Write.contents ++
        (DerWriter.put ava.value.tag ava.value.bytes).flatMap Write.contents) os os' := by
  obtain ⟨os₁, hoid, he⟩ := hlevel.writeAll calls
  obtain ⟨os₂, hvalue, he'⟩ := he.level.writeAll (DerWriter.put ava.value.tag ava.value.bytes)
  refine ⟨os₂, ?_, he.trans he'⟩
  rw [AVA.emit, OID.emit, h, ok_bind, hoid, ok_bind, DerString.emit, hvalue]

theorem AVA.Encodable.exists_item (h : ava.Encodable) : ∃ body, body.length < 2 ^ 31 ∧
    ava.toByteArray = .ok (Item.mk DerWriter.tagSequence body).encoding := by
  obtain ⟨bytes, hok, hlen⟩ := h
  obtain ⟨os, hencode, hbytes⟩ := bind_ok_iff.mp hok
  obtain ⟨os₁, os₂, hemit⟩ := exists_emit_ok_of_encodeTag hencode
  obtain ⟨os₃, hoid, -⟩ := bind_ok_iff.mp hemit
  obtain ⟨calls, hcalls, -⟩ := bind_ok_iff.mp hoid
  obtain ⟨os', hencode', he⟩ := encodeTag_boxed (AVA.emit_emitted hcalls) DerOutputStream.level_new
    DerWriter.tagSequence
  obtain rfl : os = os' := Except.ok.inj (hencode.symm.trans hencode')
  have hboxed : bytes = boxed DerWriter.tagSequence _ :=
    (Except.ok.inj hbytes).symm.trans he.buf
  have hbody := length_lt_length_boxed DerWriter.tagSequence (calls.flatMap Write.contents ++
    (DerWriter.put ava.value.tag ava.value.bytes).flatMap Write.contents)
  rw [← hboxed] at hbody
  refine ⟨_, hbody.trans hlen, ?_⟩
  rw [hok, hboxed, boxed_eq_encoding (hbody.trans hlen)]

theorem AVA.Encodable.toByteArray_eq (h : ava.Encodable) : ava.toByteArray = .ok ava.encoding := by
  obtain ⟨bytes, hok, -⟩ := h
  rw [AVA.encoding, hok]

theorem AVA.Encodable.eq_of_isPrefix (h : ava.Encodable) (h' : ava'.Encodable)
    (hstart : ava.encoding <+: ava'.encoding) : ava.encoding = ava'.encoding := by
  obtain ⟨body, hlen, hbody⟩ := h.exists_item
  obtain ⟨body', hlen', hbody'⟩ := h'.exists_item
  rw [Except.ok.inj (h.toByteArray_eq.symm.trans hbody),
    Except.ok.inj (h'.toByteArray_eq.symm.trans hbody')] at hstart ⊢
  exact congrArg Item.encoding
    (eq_of_encoding_isPrefix lowTag_sequence lowTag_sequence hlen hlen' hstart)

theorem AVA.Encodable.compare_le_zero_iff (h : ava.Encodable) (h' : ava'.Encodable) :
    ByteArrayLexOrder.compare ava.encoding ava'.encoding ≤ 0 ↔
      SetOfLe ava.encoding ava'.encoding := by
  rw [ByteArrayLexOrder.compare_le_zero_iff, SetOfLe, paddedLe_iff_le]
  · exact fun hp ↦ congrArg octets (h.eq_of_isPrefix h' (octets_prefix_iff.mp hp))
  · exact fun hp ↦ congrArg octets (h'.eq_of_isPrefix h (octets_prefix_iff.mp hp))

end Attributes

section Sorted

variable {avas avas' : List AVA}

def RDN.sortedEncodings (avas : List AVA) : List (List UInt8) :=
  (avas.map AVA.encoding).mergeSort fun a b ↦ ByteArrayLexOrder.compare a b ≤ 0

theorem RDN.pairwise_sortedEncodings (avas : List AVA) :
    (sortedEncodings avas).Pairwise fun a b ↦ ByteArrayLexOrder.compare a b ≤ 0 := by
  have hsorted : (sortedEncodings avas).Pairwise fun a b ↦
      decide (ByteArrayLexOrder.compare a b ≤ 0) = true := by
    refine List.pairwise_mergeSort (fun a b c h h' ↦ ?_) (fun a b ↦ ?_) _
    · exact decide_eq_true (ByteArrayLexOrder.compare_le_zero_trans (of_decide_eq_true h)
        (of_decide_eq_true h'))
    · simpa using ByteArrayLexOrder.compare_le_zero_total a b
  exact hsorted.imp of_decide_eq_true

theorem RDN.sortedEncodings_perm (h : avas.Perm avas') :
    sortedEncodings avas = sortedEncodings avas' := by
  refine List.Perm.eq_of_pairwise (fun a b _ _ hle hle' ↦ ?_) (pairwise_sortedEncodings avas)
    (pairwise_sortedEncodings avas') ?_
  · have hswap := ByteArrayLexOrder.compare_swap a b
    exact ByteArrayLexOrder.compare_eq_zero_iff.mp (by omega)
  · exact (List.mergeSort_perm _ _).trans ((h.map _).trans (List.mergeSort_perm _ _).symm)

theorem RDN.emit_eq (h : ∀ ava ∈ avas, ava.Encodable) (os : DerOutputStream) :
    (RDN.mk avas).emit os =
      ((sortedEncodings avas).map Write.bytes).foldlM DerOutputStream.write os := by
  have hencodings : avas.mapM AVA.toByteArray = .ok (avas.map AVA.encoding) :=
    mapM_ok_of_forall fun ava hava ↦ (h ava hava).toByteArray_eq
  rw [RDN.emit, hencodings, ok_bind, List.foldlM_map]
  rfl

theorem RDN.emit_emitted (h : ∀ ava ∈ avas, ava.Encodable) (os : DerOutputStream) (m : ℕ)
    (hlevel : os.Level m) : ∃ os', (RDN.mk avas).emit os = .ok os' ∧
      DerOutputStream.Emitted m (sortedEncodings avas).flatten os os' := by
  obtain ⟨os', hwrite, he⟩ := hlevel.writeAll ((sortedEncodings avas).map Write.bytes)
  refine ⟨os', (RDN.emit_eq h os).trans hwrite, ?_⟩
  rwa [List.flatMap_map, show (fun b ↦ (Write.bytes b).contents) = id from rfl,
    List.flatMap_id] at he

end Sorted

/-- The attributes of a relative distinguished name are written in the order of a SET OF, whatever
order they are given in. The comparator breaks ties by length instead of padding, which makes no
difference to encodings. -/
theorem rdn_encoding_canonical :
    (∀ avas avas' : List AVA, (∀ ava ∈ avas, ava.Encodable) → avas.Perm avas' →
      (∀ os, (RDN.mk avas).encode os = (RDN.mk avas').encode os) ∧
      ∃ sorted : List (List UInt8), sorted.Perm (avas.map AVA.encoding) ∧ sorted.Pairwise SetOfLe ∧
        (sorted.flatten.length < 2 ^ 31 → boxed DerWriter.tagSet sorted.flatten =
          (Item.mk DerWriter.tagSet sorted.flatten).encoding) ∧
        ∀ os : DerOutputStream, os.lengthsIndex = -1 → os.lengths ≠ some [] → ∃ lengths,
          (RDN.mk avas).encode os =
            .ok ⟨os.buf ++ boxed DerWriter.tagSet sorted.flatten, lengths, -1⟩) ∧
    ((∀ a b, ByteArrayLexOrder.compare a b = 0 ↔ a = b) ∧
      (∀ a b, ByteArrayLexOrder.compare b a = -ByteArrayLexOrder.compare a b) ∧
      ∀ a b c, ByteArrayLexOrder.compare a b ≤ 0 → ByteArrayLexOrder.compare b c ≤ 0 →
        ByteArrayLexOrder.compare a c ≤ 0) ∧
    ∀ ava ava' : AVA, ava.Encodable → ava'.Encodable →
      (ByteArrayLexOrder.compare ava.encoding ava'.encoding ≤ 0 ↔
        SetOfLe ava.encoding ava'.encoding) := by
  refine ⟨fun avas avas' h hperm ↦ ⟨fun os ↦ ?_, RDN.sortedEncodings avas,
    List.mergeSort_perm _ _, ?_, fun hlen ↦ boxed_eq_encoding hlen _, fun os hindex hlengths ↦ ?_⟩,
    ⟨fun _ _ ↦ ByteArrayLexOrder.compare_eq_zero_iff, ByteArrayLexOrder.compare_swap,
      fun _ _ _ ↦ ByteArrayLexOrder.compare_le_zero_trans⟩,
    fun _ _ h h' ↦ h.compare_le_zero_iff h'⟩
  · have h' : ∀ ava ∈ avas', ava.Encodable := fun ava hava ↦ h ava (hperm.mem_iff.mpr hava)
    have hemit : (RDN.mk avas).emit = (RDN.mk avas').emit := funext fun os ↦ by
      rw [RDN.emit_eq h, RDN.emit_eq h', RDN.sortedEncodings_perm hperm]
    rw [RDN.encode, RDN.encode, hemit]
  · -- the comparator agrees with the order of a SET OF on encodings, not on arbitrary bytes
    have hmem : ∀ a ∈ RDN.sortedEncodings avas,
        ∃ ava : AVA, ava.Encodable ∧ ava.encoding = a := by
      intro a ha
      obtain ⟨ava, hava, rfl⟩ := List.mem_map.mp ((List.mergeSort_perm _ _).mem_iff.mp ha)
      exact ⟨ava, h ava hava, rfl⟩
    refine (RDN.pairwise_sortedEncodings avas).imp_of_mem fun {a b} ha hb hle ↦ ?_
    obtain ⟨ava, hava, rfl⟩ := hmem a ha
    obtain ⟨ava', hava', rfl⟩ := hmem b hb
    exact (hava.compare_le_zero_iff hava').mp hle
  · obtain ⟨os', hencode, he⟩ := encodeTag_boxed (RDN.emit_emitted h) (level_zero hindex hlengths)
      DerWriter.tagSet
    have hindex' : os'.lengthsIndex = -1 := he.level.index_eq
    refine ⟨os'.lengths, hencode.trans ?_⟩
    rw [← hindex', ← show _ = os.buf ++ boxed _ _ from he.buf]

def countryAttribute : AVA :=
  ⟨OID.mk ("2.5.4.6".toList.map codeUnit), "US".toList.map codeUnit, DerWriter.tagPrintableString,
    Or.inr ⟨rfl, by decide⟩⟩

def nameAttribute : AVA :=
  ⟨OID.mk ("2.5.4.3".toList.map codeUnit), "node".toList.map codeUnit, DerWriter.tagUtf8String,
    Or.inl rfl⟩

theorem rdn_encoding_canonical_pair :
    countryAttribute.toByteArray = .ok [0x30, 9, 6, 3, 0x55, 4, 6, 0x13, 2, 0x55, 0x53] ∧
      (RDN.mk [countryAttribute, nameAttribute]).encode .new =
        (RDN.mk [nameAttribute, countryAttribute]).encode .new := by
  have hcountry : countryAttribute.toByteArray =
      .ok [0x30, 9, 6, 3, 0x55, 4, 6, 0x13, 2, 0x55, 0x53] := by decide +kernel
  have hname : nameAttribute.toByteArray =
      .ok [0x30, 11, 6, 3, 0x55, 4, 3, 0x0c, 4, 0x6e, 0x6f, 0x64, 0x65] := by decide +kernel
  have h : ∀ ava ∈ [countryAttribute, nameAttribute], ava.Encodable :=
    List.forall_mem_cons.mpr ⟨⟨_, hcountry, by decide⟩,
      List.forall_mem_singleton.mpr ⟨_, hname, by decide⟩⟩
  exact ⟨hcountry, (rdn_encoding_canonical.1 _ _ h (List.Perm.swap _ _ _)).1 .new⟩

end HieroCryptography.Security
