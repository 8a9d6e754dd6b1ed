import HieroCryptography.Rust.Outcome
import HieroCryptography.Foundation.Tlv

namespace HieroCryptography.Security

open Rust Foundation

/-- The stream writes to `buf`, or measures lengths on a stack. `lengths` is null until the first
measurement, and `lengthsIndex` is -1 while the stream writes. -/
structure DerOutputStream where
  buf : List UInt8
  lengths : Option (List Int32)
  lengthsIndex : ℤ

inductive Write
  | byte (b : UInt8)
  | slice (b : List UInt8) (off len : ℕ) (inside : off + len ≤ b.length)
  | bytes (b : List UInt8)

namespace Write

def contents : Write → List UInt8
  | byte b => [b]
  | slice b off len _ => (b.drop off).take len
  | bytes b => b

def measured : Write → Int32
  | byte _ => 1
  | slice _ _ len _ => Int32.ofNat len
  | bytes b => Int32.ofNat b.length

theorem measured_eq (call : Write) : call.measured = Int32.ofNat call.contents.length := by
  cases call with
  | byte b => rfl
  | slice b off len inside =>
    have hlen : ((b.drop off).take len).length = len := by
      rw [List.length_take, List.length_drop]
      omega
    rw [measured, contents, hlen]
  | bytes b => rfl

end Write

namespace DerOutputStream

def initialLengthsStackSize : ℕ := 16

def new : DerOutputStream := ⟨[], none, -1⟩

def toByteArray (os : DerOutputStream) : List UInt8 := os.buf

/-- The lengths stay allocated. -/
def reset (os : DerOutputStream) : DerOutputStream := { os with buf := [] }

def isMeasuringLength (os : DerOutputStream) : Bool := os.lengthsIndex > -1

/-- An assignment to `lengths[lengthsIndex]`, with the null and bounds checks of the language. -/
def updateLength (os : DerOutputStream) (f : Int32 → Int32) : Outcome String DerOutputStream :=
  match os.lengths with
  | none => unwind
  | some lengths =>
    if 0 ≤ os.lengthsIndex ∧ os.lengthsIndex < lengths.length then
      .ok { os with lengths := some (lengths.modify os.lengthsIndex.toNat f) }
    else unwind

def copyOf (lengths : List Int32) (newLength : ℕ) : List Int32 :=
  lengths.take newLength ++ List.replicate (newLength - lengths.length) 0

def growLengths (lengths : Option (List Int32)) (lengthsIndex : ℤ) : List Int32 :=
  match lengths with
  | none => List.replicate initialLengthsStackSize 0
  | some lengths =>
    if lengths.length ≤ lengthsIndex then copyOf lengths (lengths.length * 2) else lengths

def startMeasuringLength (os : DerOutputStream) : Outcome String (ℤ × DerOutputStream) := do
  let os : DerOutputStream := { os with lengthsIndex := os.lengthsIndex + 1 }
  let os : DerOutputStream := { os with lengths := some (growLengths os.lengths os.lengthsIndex) }
  let os ← os.updateLength fun _ ↦ 0
  .ok (os.lengthsIndex, os)

def addLength (os : DerOutputStream) (length : Int32) : Outcome String DerOutputStream :=
  os.updateLength (· + length)

def currentLength (os : DerOutputStream) : Outcome String Int32 :=
  match os.lengths with
  | none => unwind
  | some lengths =>
    if 0 ≤ os.lengthsIndex then index lengths os.lengthsIndex.toNat else unwind

def finishMeasuringLength (os : DerOutputStream) (index : ℤ) :
    Outcome String (Int32 × DerOutputStream) :=
  if index ≠ os.lengthsIndex then
    fail ("Finishing length measuring " ++ toString index ++ " while " ++
      toString os.lengthsIndex ++ " is running")
  else do
    let length ← os.currentLength
    .ok (length, { os with lengthsIndex := os.lengthsIndex - 1 })

def write (os : DerOutputStream) (call : Write) : Outcome String DerOutputStream :=
  if os.isMeasuringLength then os.addLength call.measured
  else .ok { os with buf := os.buf ++ call.contents }

def stack (os : DerOutputStream) : List Int32 := os.lengths.getD []

/-- The stream is inside `m` measurements. An allocated stack is not empty, so that it grows. -/
structure Level (os : DerOutputStream) (m : ℕ) : Prop where
  index_eq : os.lengthsIndex = m - 1
  room : m ≤ os.stack.length
  grows : ∀ lengths, os.lengths = some lengths → 0 < lengths.length

/-- What emitting some bytes does to a stream inside `m` measurements: outside of all they are
written, and inside only the innermost length changes. -/
structure Emitted (m : ℕ) (bytes : List UInt8) (os os' : DerOutputStream) : Prop where
  level : os'.Level m
  buf : os'.buf = if m = 0 then os.buf ++ bytes else os.buf
  top : ∀ k, m = k + 1 → os'.stack[k]? = os.stack[k]?.map (· + Int32.ofNat bytes.length)
  below : ∀ j, j + 1 < m → os'.stack[j]? = os.stack[j]?

variable {os os' os'' : DerOutputStream} {m : ℕ} {bytes bytes' : List UInt8}

theorem level_new : new.Level 0 := ⟨rfl, Nat.zero_le _, nofun⟩

theorem Level.reset (h : os.Level m) : os.reset.Level m := ⟨h.index_eq, h.room, h.grows⟩

theorem Level.lengths_eq (h : os.Level (m + 1)) : os.lengths = some os.stack := by
  cases hlengths : os.lengths with
  | none =>
    have hroom := h.room
    rw [stack, hlengths] at hroom
    exact absurd hroom (Nat.not_succ_le_zero m)
  | some lengths => rw [stack, hlengths, Option.getD_some]

theorem Level.isMeasuringLength (h : os.Level m) : os.isMeasuringLength = decide (m ≠ 0) := by
  rw [DerOutputStream.isMeasuringLength, h.index_eq]
  exact decide_eq_decide.mpr (by omega)

theorem Level.updateLength (h : os.Level (m + 1)) (f : Int32 → Int32) :
    os.updateLength f = .ok { os with lengths := some (os.stack.modify m f) } := by
  have hindex : os.lengthsIndex = m := by
    rw [h.index_eq]
    omega
  have hroom := h.room
  rw [DerOutputStream.updateLength, h.lengths_eq]
  simp only [hindex, Int.toNat_natCast]
  rw [if_pos ⟨by omega, by omega⟩]

theorem Emitted.refl (h : os.Level m) : Emitted m [] os os :=
  ⟨h, by simp, fun k _ ↦ by cases os.stack[k]? <;> simp, fun _ _ ↦ rfl⟩

theorem Emitted.trans (h : Emitted m bytes os os') (h' : Emitted m bytes' os' os'') :
    Emitted m (bytes ++ bytes') os os'' := by
  refine ⟨h'.level, ?_, fun k hk ↦ ?_, fun j hj ↦ (h'.below j hj).trans (h.below j hj)⟩
  · rw [h'.buf, h.buf]
    split <;> simp
  · rw [h'.top k hk, h.top k hk, Option.map_map, List.length_append, Int32.ofNat_add]
    congr 1
    funext length
    exact Int32.add_assoc _ _ _

theorem Level.addLength (h : os.Level (m + 1)) (bytes : List UInt8) :
    ∃ os', os.addLength (Int32.ofNat bytes.length) = .ok os' ∧ Emitted (m + 1) bytes os os' := by
  refine ⟨_, h.updateLength _, ⟨h.index_eq, ?_, ?_⟩, rfl, fun k hk ↦ ?_, fun j hj ↦ ?_⟩
  · simpa [stack] using h.room
  · rintro lengths ⟨⟩
    have hroom := h.room
    rw [List.length_modify]
    omega
  · obtain rfl : m = k := Nat.succ.inj hk
    simp [stack]
  · have hne : m ≠ j := by omega
    simp [stack, hne]

theorem Level.write (h : os.Level m) (call : Write) :
    ∃ os', os.write call = .ok os' ∧ Emitted m call.contents os os' := by
  rw [DerOutputStream.write, h.isMeasuringLength]
  cases m with
  | zero =>
    exact ⟨{ os with buf := os.buf ++ call.contents }, rfl, ⟨h.index_eq, h.room, h.grows⟩, rfl,
      fun k hk ↦ absurd hk (Nat.succ_ne_zero k).symm, fun _ _ ↦ rfl⟩
  | succ m =>
    rw [call.measured_eq]
    exact h.addLength call.contents

theorem Level.writeAll (h : os.Level m) (calls : List Write) :
    ∃ os', calls.foldlM DerOutputStream.write os = .ok os' ∧
      Emitted m (calls.flatMap Write.contents) os os' := by
  induction calls generalizing os with
  | nil => exact ⟨os, rfl, .refl h⟩
  | cons call calls ih =>
    obtain ⟨os', hcall, hemitted⟩ := h.write call
    obtain ⟨os'', hcalls, hemitted'⟩ := ih hemitted.level
    exact ⟨os'', by rw [List.foldlM_cons, hcall, ok_bind, hcalls], hemitted.trans hemitted'⟩

theorem foldlM_write_writing (calls : List Write) (os : DerOutputStream)
    (h : os.lengthsIndex = -1) :
    calls.foldlM write os =
      .ok { os with buf := os.buf ++ calls.flatMap Write.contents } := by
  induction calls generalizing os with
  | nil => simp
  | cons call calls ih =>
    have hwrite : os.write call = .ok { os with buf := os.buf ++ call.contents } := by
      simp [write, isMeasuringLength, h]
    have hrest := ih { os with buf := os.buf ++ call.contents } h
    rw [List.foldlM_cons, hwrite, ok_bind, hrest, List.flatMap_cons, List.append_assoc]

theorem copyOf_double (lengths : List Int32) :
    copyOf lengths (lengths.length * 2) = lengths ++ List.replicate lengths.length 0 := by
  have hrest : lengths.length * 2 - lengths.length = lengths.length := by omega
  rw [copyOf, List.take_of_length_le (by omega), hrest]

theorem Level.growLengths (h : os.Level m) : ∃ more,
    growLengths os.lengths m = os.stack ++ more ∧ m < (os.stack ++ more).length := by
  have hroom := h.room
  have hgrows := h.grows
  rw [stack] at hroom ⊢
  cases hlengths : os.lengths with
  | none =>
    rw [hlengths] at hroom
    obtain rfl : m = 0 := Nat.le_zero.mp hroom
    exact ⟨List.replicate initialLengthsStackSize 0, rfl, by decide⟩
  | some lengths =>
    rw [hlengths, Option.getD_some] at hroom
    have hpos := hgrows lengths hlengths
    simp only [Option.getD_some, DerOutputStream.growLengths]
    by_cases hfull : (lengths.length : ℤ) ≤ m
    · refine ⟨List.replicate lengths.length 0, by rw [if_pos hfull, copyOf_double], ?_⟩
      rw [List.length_append, List.length_replicate]
      omega
    · refine ⟨[], by rw [if_neg hfull, List.append_nil], ?_⟩
      rw [List.append_nil]
      omega

theorem Level.startMeasuringLength (h : os.Level m) :
    ∃ os', os.startMeasuringLength = .ok ((m : ℤ), os') ∧ os'.Level (m + 1) ∧ os'.buf = os.buf ∧
      os'.stack[m]? = some 0 ∧ ∀ j < m, os'.stack[j]? = os.stack[j]? := by
  obtain ⟨more, hgrow, hroom⟩ := h.growLengths
  have hindex : os.lengthsIndex + 1 = m := by
    rw [h.index_eq]
    omega
  -- the state between the growth of the stack and the new zero on top of it
  have hgrown : Level ⟨os.buf, some (os.stack ++ more), m⟩ (m + 1) := by
    refine ⟨by simp, hroom, ?_⟩
    rintro lengths ⟨⟩
    omega
  refine ⟨⟨os.buf, some ((os.stack ++ more).modify m fun _ ↦ 0), m⟩, ?_, ⟨?_, ?_, ?_⟩, rfl, ?_, ?_⟩
  · rw [DerOutputStream.startMeasuringLength]
    simp only [hindex, hgrow, hgrown.updateLength, ok_bind]
    rfl
  · exact hgrown.index_eq
  · simpa [stack] using hroom
  · rintro lengths ⟨⟩
    rw [List.length_modify]
    omega
  · change ((os.stack ++ more).modify m fun _ ↦ 0)[m]? = some 0
    rw [List.getElem?_modify_eq, List.getElem?_eq_getElem hroom]
    rfl
  · intro j hj
    have hne : m ≠ j := by omega
    change ((os.stack ++ more).modify m fun _ ↦ 0)[j]? = os.stack[j]?
    rw [List.getElem?_modify_ne _ _ hne, List.getElem?_append_left (Nat.lt_of_lt_of_le hj h.room)]

theorem Level.finishMeasuringLength (h : os.Level (m + 1)) {length : Int32}
    (hlength : os.stack[m]? = some length) :
    os.finishMeasuringLength m = .ok (length, { os with lengthsIndex := m - 1 }) := by
  have hindex : os.lengthsIndex = m := by
    rw [h.index_eq]
    omega
  have hcurrent : os.currentLength = .ok length := by
    rw [currentLength, h.lengths_eq]
    simp only [hindex, Int.toNat_natCast, Int.natCast_nonneg, if_true]
    exact index_of_getElem? hlength
  rw [DerOutputStream.finishMeasuringLength, hindex, if_neg (not_not.mpr rfl), hcurrent, ok_bind]

end DerOutputStream

end HieroCryptography.Security
