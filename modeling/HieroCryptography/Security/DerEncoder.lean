import HieroCryptography.Security.DerWriter

namespace HieroCryptography.Security

open Rust Foundation

/-- What the `emit` method of an encoder does with the stream: calls of `write`, and of `encode` of
other encoders, which box a body with a tag. -/
inductive Emission
  | done
  | write (call : Write) (next : Emission)
  | encode (tag : UInt8) (body next : Emission)

/-- An encoder. Some override `encode` to skip the boxing, and then there is no tag. -/
structure DerEncoder where
  tag : Option UInt8
  body : Emission

def encodeTag (emit : DerOutputStream → Outcome String DerOutputStream) (tag : UInt8)
    (os : DerOutputStream) : Outcome String DerOutputStream := do
  let (index, os) ← os.startMeasuringLength
  let os ← emit os
  let (length, os) ← os.finishMeasuringLength index
  let os ← os.write (.byte tag)
  let os ← (DerWriter.putLength length).foldlM DerOutputStream.write os
  if os.isMeasuringLength then os.addLength length else emit os

namespace Emission

def emit : Emission → DerOutputStream → Outcome String DerOutputStream
  | done => .ok
  | write call next => fun os ↦ os.write call >>= emit next
  | encode tag body next => fun os ↦ encodeTag (emit body) tag os >>= emit next

def append : Emission → Emission → Emission
  | done, rest => rest
  | write call next, rest => write call (next.append rest)
  | encode tag body next, rest => encode tag body (next.append rest)

def ofWrites (calls : Writes) : Emission := calls.foldr write done

/-- The bytes that the body stands for, with every inner body in a buffer of its own. -/
def bytes : Emission → List UInt8
  | done => []
  | write call next => call.contents ++ next.bytes
  | encode tag body next => (Item.mk tag body.bytes).encoding ++ next.bytes

end Emission

namespace DerEncoder

def call (encoder : DerEncoder) : Emission :=
  match encoder.tag with
  | some tag => .encode tag encoder.body .done
  | none => encoder.body

def encode (encoder : DerEncoder) (os : DerOutputStream) : Outcome String DerOutputStream :=
  encoder.call.emit os

def wrap (tag : UInt8) (encoder : DerEncoder) : DerEncoder := ⟨some tag, encoder.call⟩

def toByteArray (encoder : DerEncoder) : Outcome String (List UInt8) := do
  let os ← encoder.encode .new
  .ok os.toByteArray

/-- The encoding in one pass, from the inside out. -/
def reference (encoder : DerEncoder) : List UInt8 :=
  match encoder.tag with
  | some tag => (Item.mk tag encoder.body.bytes).encoding
  | none => encoder.body.bytes

end DerEncoder

section TwoPass

variable {os : DerOutputStream} {m : ℕ}

open DerOutputStream

theorem measured_emitted {emit : DerOutputStream → Outcome String DerOutputStream}
    {body : List UInt8}
    (hemit : ∀ os m, os.Level m → ∃ os', emit os = .ok os' ∧ Emitted m body os os')
    (h : os.Level m) : ∃ os₁ os₂ os₃, os.startMeasuringLength = .ok ((m : ℤ), os₁) ∧
      emit os₁ = .ok os₂ ∧ os₂.finishMeasuringLength m = .ok (Int32.ofNat body.length, os₃) ∧
      Emitted m [] os os₃ := by
  obtain ⟨os₁, hstart, hlevel, hbuf, htop, hbelow⟩ := h.startMeasuringLength
  obtain ⟨os₂, hemit, he⟩ := hemit os₁ (m + 1) hlevel
  have htop' : os₂.stack[m]? = some (Int32.ofNat body.length) := by
    rw [he.top m rfl, htop, Option.map_some, Int32.zero_add]
  have hkept : ∀ j < m, os₂.stack[j]? = os.stack[j]? :=
    fun j hj ↦ (he.below j (Nat.succ_lt_succ hj)).trans (hbelow j hj)
  refine ⟨os₁, os₂, _, hstart, hemit, he.level.finishMeasuringLength htop',
    ⟨rfl, Nat.le_of_succ_le he.level.room, he.level.grows⟩, ?_, fun k hk ↦ ?_, fun j hj ↦ ?_⟩
  · have hbuf' := he.buf
    rw [if_neg (Nat.succ_ne_zero m), hbuf] at hbuf'
    simpa using hbuf'
  · have hadd : (fun length : Int32 ↦ length + Int32.ofNat ([] : List UInt8).length) = id :=
      funext fun length ↦ Int32.add_zero length
    rw [hadd, Option.map_id]
    exact hkept k (hk ▸ Nat.lt_succ_self k)
  · exact hkept j (Nat.lt_of_succ_lt hj)

def boxed (tag : UInt8) (body : List UInt8) : List UInt8 :=
  (.byte tag :: DerWriter.putLength (Int32.ofNat body.length) : Writes).flatMap Write.contents ++
    body

theorem boxed_eq_encoding {body : List UInt8} (h : body.length < 2 ^ 31) (tag : UInt8) :
    boxed tag body = (Item.mk tag body).encoding := by
  rw [boxed, List.flatMap_cons, contents_putLength h]
  rfl

theorem length_lt_length_boxed (tag : UInt8) (body : List UInt8) :
    body.length < (boxed tag body).length := by
  rw [boxed, List.flatMap_cons, List.length_append, List.length_append, Write.contents,
    List.length_singleton]
  omega

/-- Boxing measures the body one level further in, and then writes or measures it where it is. -/
theorem encodeTag_boxed {emit : DerOutputStream → Outcome String DerOutputStream}
    {body : List UInt8}
    (hemit : ∀ os m, os.Level m → ∃ os', emit os = .ok os' ∧ Emitted m body os os')
    (h : os.Level m) (tag : UInt8) :
    ∃ os', encodeTag emit tag os = .ok os' ∧ Emitted m (boxed tag body) os os' := by
  obtain ⟨os₁, os₂, os₃, hstart, hmeasure, hfinish, he⟩ := measured_emitted hemit h
  obtain ⟨os₄, hhead, he'⟩ := he.level.writeAll
    (.byte tag :: DerWriter.putLength (Int32.ofNat body.length))
  rw [List.foldlM_cons] at hhead
  have hlast : ∃ os₅, (if os₄.isMeasuringLength then os₄.addLength (Int32.ofNat body.length)
      else emit os₄) = .ok os₅ ∧ Emitted m body os₄ os₅ := by
    rw [he'.level.isMeasuringLength]
    cases m with
    | zero => exact hemit os₄ 0 he'.level
    | succ m => exact he'.level.addLength body
  obtain ⟨os₅, hlast, he''⟩ := hlast
  refine ⟨os₅, ?_, he.trans (he'.trans he'')⟩
  rw [encodeTag, hstart, ok_bind]
  simp only [hmeasure, hfinish, ok_bind]
  rw [← bind_assoc, hhead, ok_bind, hlast]

theorem encodeTag_emitted {emit : DerOutputStream → Outcome String DerOutputStream}
    {body : List UInt8} (hbody : body.length < 2 ^ 31)
    (hemit : ∀ os m, os.Level m → ∃ os', emit os = .ok os' ∧ Emitted m body os os')
    (h : os.Level m) (tag : UInt8) :
    ∃ os', encodeTag emit tag os = .ok os' ∧ Emitted m (Item.mk tag body).encoding os os' := by
  rw [← boxed_eq_encoding hbody]
  exact encodeTag_boxed hemit h tag

theorem Emission.emit_emitted (e : Emission) (hsize : e.bytes.length < 2 ^ 31) (h : os.Level m) :
    ∃ os', e.emit os = .ok os' ∧ Emitted m e.bytes os os' := by
  induction e generalizing os m with
  | done => exact ⟨os, rfl, .refl h⟩
  | write call next ih =>
    rw [bytes, List.length_append] at hsize
    obtain ⟨os', hcall, hemitted⟩ := h.write call
    obtain ⟨os'', hnext, hemitted'⟩ := ih (by omega) hemitted.level
    exact ⟨os'', by simp only [emit, hcall, ok_bind, hnext], hemitted.trans hemitted'⟩
  | encode tag body next ihbody ih =>
    have hcontent : body.bytes.length < _ := (Item.mk tag body.bytes).length_content_lt
    rw [bytes, List.length_append] at hsize
    obtain ⟨os', hbox, hemitted⟩ := encodeTag_emitted (by omega)
      (fun os m hos ↦ ihbody (by omega) hos) h tag
    obtain ⟨os'', hnext, hemitted'⟩ := ih (by omega) hemitted.level
    exact ⟨os'', by simp only [emit, hbox, ok_bind, hnext], hemitted.trans hemitted'⟩

theorem level_zero (hindex : os.lengthsIndex = -1) (hlengths : os.lengths ≠ some []) :
    os.Level 0 := by
  refine ⟨hindex, Nat.zero_le _, fun lengths h ↦ List.length_pos_of_ne_nil ?_⟩
  rintro rfl
  exact hlengths h

theorem level_succ {k : ℕ} {lengths : List Int32} (hindex : os.lengthsIndex = k)
    (hlengths : os.lengths = some lengths) (hk : k < lengths.length) : os.Level (k + 1) := by
  refine ⟨by simpa using hindex, ?_, ?_⟩
  · rw [stack, hlengths]
    exact hk
  · intro lengths' h
    obtain rfl := Option.some.inj (hlengths.symm.trans h)
    omega

namespace DerEncoder

variable (encoder : DerEncoder)

theorem bytes_call : encoder.call.bytes = encoder.reference := by
  unfold call reference
  split
  · rw [Emission.bytes, Emission.bytes, List.append_nil]
  · rfl

theorem encode_emitted (hsize : encoder.reference.length < 2 ^ 31) (h : os.Level m) :
    ∃ os', encoder.encode os = .ok os' ∧ Emitted m encoder.reference os os' := by
  rw [← bytes_call] at hsize ⊢
  exact encoder.call.emit_emitted hsize h

theorem encode_writing (hsize : encoder.reference.length < 2 ^ 31) (h : os.Level 0) :
    ∃ lengths, encoder.encode os = .ok ⟨os.buf ++ encoder.reference, lengths, -1⟩ ∧
      lengths ≠ some [] := by
  obtain ⟨os', hok, hemitted⟩ := encoder.encode_emitted hsize h
  refine ⟨os'.lengths, ?_, fun hnil ↦ absurd (hemitted.level.grows [] hnil) (Nat.lt_irrefl 0)⟩
  have hindex : os'.lengthsIndex = -1 := hemitted.level.index_eq
  rw [hok, ← hindex, ← show _ = os.buf ++ encoder.reference from hemitted.buf]

theorem toByteArray_eq (hsize : encoder.reference.length < 2 ^ 31) :
    encoder.toByteArray = .ok encoder.reference := by
  obtain ⟨lengths, hok, -⟩ := encoder.encode_writing hsize level_new
  rw [toByteArray, hok]
  rfl

theorem encode_measuring (hsize : encoder.reference.length < 2 ^ 31) {k : ℕ} {lengths : List Int32}
    (hlengths : os.lengths = some lengths) (h : os.Level (k + 1)) :
    ∃ lengths', encoder.encode os = .ok ⟨os.buf, some lengths', k⟩ ∧ k < lengths'.length ∧
      lengths'[k]? = lengths[k]?.map (· + Int32.ofNat encoder.reference.length) ∧
      ∀ j < k, lengths'[j]? = lengths[j]? := by
  obtain ⟨os', hok, hemitted⟩ := encoder.encode_emitted hsize h
  have hstack : os.stack = lengths := by rw [stack, hlengths, Option.getD_some]
  have hindex : os'.lengthsIndex = k := by
    rw [hemitted.level.index_eq]
    omega
  refine ⟨os'.stack, ?_, hemitted.level.room, hstack ▸ hemitted.top k rfl,
    fun j hj ↦ hstack ▸ hemitted.below j (Nat.succ_lt_succ hj)⟩
  have hbuf := hemitted.buf
  rw [if_neg (Nat.succ_ne_zero k)] at hbuf
  rw [hok, ← hindex, ← hemitted.level.lengths_eq, ← hbuf]

end DerEncoder

end TwoPass

/-- An encoder of any depth writes what is computed from the inside out with a buffer for every
body. While a length is measured it only adds the number of bytes to it. No access to the stack of
lengths is out of bounds, and no measurement is finished out of turn. -/
theorem two_pass_encoding (encoder : DerEncoder) (hsize : encoder.reference.length < 2 ^ 31) :
    (∀ os : DerOutputStream, os.lengthsIndex = -1 → os.lengths ≠ some [] → ∃ lengths,
      encoder.encode os = .ok ⟨os.buf ++ encoder.reference, lengths, -1⟩ ∧ lengths ≠ some []) ∧
    (∀ (os : DerOutputStream) (k : ℕ) (lengths : List Int32) (length : Int32),
      os.lengthsIndex = k → os.lengths = some lengths → lengths[k]? = some length →
      0 ≤ length.toInt → length.toInt + encoder.reference.length < 2 ^ 31 →
      ∃ lengths' length', encoder.encode os = .ok ⟨os.buf, some lengths', k⟩ ∧
        lengths'[k]? = some length' ∧
        length'.toInt = length.toInt + encoder.reference.length ∧
        ∀ j < k, lengths'[j]? = lengths[j]?) ∧
    (∀ tag, (DerEncoder.wrap tag encoder).reference = (Item.mk tag encoder.reference).encoding) ∧
    encoder.toByteArray = .ok encoder.reference := by
  refine ⟨fun os hindex hlengths ↦ encoder.encode_writing hsize (level_zero hindex hlengths), ?_,
    fun tag ↦ ?_, encoder.toByteArray_eq hsize⟩
  · intro os k lengths length hindex hlengths hlength hnonneg htotal
    have hk := (List.getElem?_eq_some_iff.mp hlength).1
    obtain ⟨lengths', hok, -, htop, hbelow⟩ :=
      encoder.encode_measuring hsize hlengths (level_succ hindex hlengths hk)
    rw [hlength, Option.map_some] at htop
    refine ⟨lengths', _, hok, htop, ?_, hbelow⟩
    rw [Int32.toInt_add, Int32.toInt_ofNat_of_lt hsize]
    exact Int.bmod_eq_of_le (by omega) (by omega)
  · rw [DerEncoder.wrap, DerEncoder.reference, encoder.bytes_call]

/-- Boxes nested deeper than the stack of lengths is at first. -/
def nestedEncoder : DerEncoder :=
  (DerEncoder.wrap DerWriter.tagSequence)^[20]
    ⟨some DerWriter.tagOctetString, .write (.bytes [1, 2, 3]) .done⟩

theorem two_pass_encoding_nested :
    nestedEncoder.reference.length = 45 ∧
      nestedEncoder.toByteArray = .ok nestedEncoder.reference := by
  have hlen : nestedEncoder.reference.length = 45 := by decide +kernel
  refine ⟨hlen, ?_⟩
  exact (two_pass_encoding nestedEncoder (by rw [hlen]; norm_num)).2.2.2

end HieroCryptography.Security
