import HieroCryptography.Rust.Wire
import HieroCryptography.Wraps.LineEngine

namespace HieroCryptography.Wraps

open Rust

variable {T : Type} {E : Engine}

def Bincode.ofWire (w : Wire T) (errorText : Bytes → String) : Bincode T where
  encodeToVec value := .ok (w.write value)
  decodeFromSlice bytes :=
    match w.read bytes with
    | some (value, rest) => .ok (value, bytes.length - rest.length)
    | none => .error (errorText bytes)

section OfWire

variable {w : Wire T} {errorText : Bytes → String}

theorem encode_ofWire_ok_iff {value : T} {bytes : Bytes} :
    encode (.ofWire w errorText) value = .ok bytes ↔ w.write value = bytes := by
  simp only [encode, Bincode.ofWire, Except.ok.injEq]

theorem Bincode.ofWire_roundTrips (h : ∀ value, w.Reads value) :
    (Bincode.ofWire w errorText).RoundTrips := by
  intro value
  exact ⟨_, rfl, by simp [Bincode.ofWire, (h value).read_write]⟩

theorem decode_ofWire_write (h : ∀ value, w.Reads value) (value : T) :
    decode (.ofWire w errorText) (w.write value) = .ok value :=
  (Bincode.ofWire_roundTrips h).decode_of_encode (encode_ofWire_ok_iff.mpr rfl)

/-- Bytes are accepted when the format reads them to their end. -/
theorem decode_ofWire_ok_iff (hw : w.Shrinks) {bytes : Bytes} {value : T} :
    decode (.ofWire w errorText) bytes = .ok value ↔ w.read bytes = some (value, []) := by
  cases h : w.read bytes with
  | none => simp [decode, Bincode.ofWire, h]
  | some p =>
    obtain ⟨value', rest⟩ := p
    have hle := hw _ _ _ h
    have hend : bytes.length - rest.length = bytes.length ↔ rest = [] := by
      rw [← List.length_eq_zero_iff]
      omega
    simp only [decode, Bincode.ofWire, h, ne_eq, hend]
    by_cases hrest : rest = [] <;> simp [hrest]

theorem length_of_decode {k : ℕ} (hw : w.Takes k) {bytes : Bytes} {value : T}
    (h : decode (.ofWire w errorText) bytes = .ok value) : bytes.length = k :=
  hw _ _ _ ((decode_ofWire_ok_iff hw.shrinks).mp h)

theorem decode_ofWire_canonical (hshrinks : w.Shrinks) (hcanonical : w.Canonical)
    (hreads : ∀ value, w.Reads value) {bytes : Bytes} {value : T} :
    decode (.ofWire w errorText) bytes = .ok value ↔ w.write value = bytes := by
  rw [decode_ofWire_ok_iff hshrinks]
  constructor
  · intro h
    rw [hcanonical _ _ _ h, List.append_nil]
  · intro h
    rw [← h, (hreads value).read_write]

end OfWire

/-- The compressed points of an engine, in as many bytes as an element of either field. The reader
may accept other encodings of a point as well. -/
structure GroupCodec (E : Engine) where
  point : Wire E.GE
  point_reads : ∀ p, point.Reads p
  point_takes : point.Takes 32
  scalar_le : E.scalarModulus ≤ 256 ^ 32
  errorText : Bytes → String

def digestWire : Wire Digest := Wire.byte.array 32

def bitVectorWire : Wire BitVector := Wire.bool.array maxAbSize

def signingProtocolMessageWire : Wire Bytes := Wire.byte.vec

namespace GroupCodec

variable (C : GroupCodec E)

/-! The derived formats: the fields in the order of their declaration. -/

def base (_ : GroupCodec E) : Wire E.Base := Wire.residue E.baseModulus 32

def scalar (_ : GroupCodec E) : Wire E.Scalar := Wire.residue E.scalarModulus 32

def rotationMessage : Wire (RotationMessage E) :=
  (C.base.pair C.base).record (fun p ↦ ⟨p.1, p.2⟩) fun m ↦ (m.addressBookHash, m.hintsVkHash)

def signature : Wire (Signature E) :=
  (C.base.pair C.scalar).record (fun p ↦ ⟨p.1, p.2⟩) fun sig ↦ (sig.e, sig.s)

def schnorrMultiSignature : Wire (BitVector × Signature E) := bitVectorWire.pair C.signature

def schnorrPoK : Wire (SchnorrPoK E) :=
  (C.point.pair (C.scalar.pair C.scalar)).record (fun p ↦ ⟨p.1, p.2.1, p.2.2⟩)
    fun pok ↦ (pok.commitment, pok.challenge, pok.response)

def schnorrAttestedPubKey : Wire (E.GE × SchnorrPoK E) := C.point.pair C.schnorrPoK

def roundTag : RoundMessage E → ℕ
  | .round1 _ => 0
  | .round2 _ => 1
  | .round3 _ => 2

def roundVariant : ℕ → Option (Wire (RoundMessage E))
  | 0 => some (digestWire.variant (fun d ↦ .round1 ⟨d⟩)
      fun m ↦ m.asRound1.map MultisigRound1.nonceCommitment)
  | 1 => some (C.point.variant (fun r ↦ .round2 ⟨r⟩)
      fun m ↦ m.asRound2.map MultisigRound2.noncePoint)
  | 2 => some (C.signature.variant (fun sig ↦ .round3 ⟨sig⟩)
      fun m ↦ m.asRound3.map MultisigRound3.partialSignature)
  | _ => none

def roundMessage : Wire (RoundMessage E) := .tagged roundTag C.roundVariant

def serde : Serde E where
  rotationMessage := .ofWire C.rotationMessage C.errorText
  roundMessage := .ofWire C.roundMessage C.errorText

section Reads

theorem base_reads (x : E.Base) : C.base.Reads x :=
  Wire.residue_reads (E.base_le_scalar.trans C.scalar_le) x

theorem scalar_reads (x : E.Scalar) : C.scalar.Reads x := Wire.residue_reads C.scalar_le x

theorem rotationMessage_reads (m : RotationMessage E) : C.rotationMessage.Reads m := by
  apply Wire.Reads.record _ rfl
  exact (C.base_reads _).pair (C.base_reads _)

theorem signature_reads (sig : Signature E) : C.signature.Reads sig := by
  apply Wire.Reads.record _ rfl
  exact (C.base_reads _).pair (C.scalar_reads _)

theorem schnorrMultiSignature_reads (sig : BitVector × Signature E) :
    C.schnorrMultiSignature.Reads sig :=
  (Wire.Reads.array fun b _ ↦ Wire.bool_reads b).pair (C.signature_reads sig.2)

theorem schnorrPoK_reads (pok : SchnorrPoK E) : C.schnorrPoK.Reads pok := by
  apply Wire.Reads.record _ rfl
  exact (C.point_reads _).pair ((C.scalar_reads _).pair (C.scalar_reads _))

theorem schnorrAttestedPubKey_reads (key : E.GE × SchnorrPoK E) :
    C.schnorrAttestedPubKey.Reads key :=
  (C.point_reads key.1).pair (C.schnorrPoK_reads key.2)

theorem digestWire_reads (d : Digest) : digestWire.Reads d :=
  .array fun b _ ↦ Wire.byte_reads b

theorem roundMessage_reads (m : RoundMessage E) : C.roundMessage.Reads m := by
  cases m with
  | round1 payload =>
    exact .tagged (by decide : 0 < 256 ^ 4) rfl ((digestWire_reads _).variant rfl rfl)
  | round2 payload =>
    exact .tagged (by decide : 1 < 256 ^ 4) rfl ((C.point_reads _).variant rfl rfl)
  | round3 payload =>
    exact .tagged (by decide : 2 < 256 ^ 4) rfl ((C.signature_reads _).variant rfl rfl)

end Reads

section Takes

theorem base_takes : C.base.Takes 32 := Wire.residue_takes _ 32

theorem scalar_takes : C.scalar.Takes 32 := Wire.residue_takes _ 32

theorem rotationMessage_takes : C.rotationMessage.Takes 64 :=
  (C.base_takes.pair C.base_takes).record _ _

theorem signature_takes : C.signature.Takes 64 := (C.base_takes.pair C.scalar_takes).record _ _

theorem bitVectorWire_takes : bitVectorWire.Takes 64 := (Wire.byte_takes.refine _ _).array _

theorem schnorrMultiSignature_takes : C.schnorrMultiSignature.Takes 128 :=
  bitVectorWire_takes.pair C.signature_takes

theorem schnorrPoK_takes : C.schnorrPoK.Takes 96 :=
  (C.point_takes.pair (C.scalar_takes.pair C.scalar_takes)).record _ _

theorem schnorrAttestedPubKey_takes : C.schnorrAttestedPubKey.Takes 128 :=
  C.point_takes.pair C.schnorrPoK_takes

theorem digestWire_takes : digestWire.Takes 32 := Wire.byte_takes.array _

end Takes

def roundSize : RoundMessage E → ℕ
  | .round1 _ => 36
  | .round2 _ => 36
  | .round3 _ => 68

theorem roundMessage_size {m : RoundMessage E} {bytes rest : Bytes}
    (h : C.roundMessage.read bytes = some (m, rest)) :
    bytes.length = roundSize m + rest.length := by
  obtain ⟨t, middle, v, ht, hv, hm⟩ := Wire.tagged_read_iff.mp h
  rw [Wire.nat_takes 4 _ _ _ ht]
  match t, hv with
  | 0, rfl =>
    rw [digestWire_takes.variant _ _ _ _ _ hm]
    obtain ⟨d, -, rfl⟩ := Wire.variant_read_iff.mp hm
    exact (Nat.add_assoc ..).symm
  | 1, rfl =>
    rw [C.point_takes.variant _ _ _ _ _ hm]
    obtain ⟨r, -, rfl⟩ := Wire.variant_read_iff.mp hm
    exact (Nat.add_assoc ..).symm
  | 2, rfl =>
    rw [C.signature_takes.variant _ _ _ _ _ hm]
    obtain ⟨sig, -, rfl⟩ := Wire.variant_read_iff.mp hm
    exact (Nat.add_assoc ..).symm

theorem roundMessage_shrinks : C.roundMessage.Shrinks := by
  intro bytes m rest h
  rw [C.roundMessage_size h]
  exact Nat.le_add_left ..

theorem rotationMessage_roundTrips : C.serde.rotationMessage.RoundTrips :=
  Bincode.ofWire_roundTrips C.rotationMessage_reads

theorem roundMessage_roundTrips : C.serde.roundMessage.RoundTrips :=
  Bincode.ofWire_roundTrips C.roundMessage_reads

theorem rotationMessage_canonical : C.rotationMessage.Canonical := by
  have hbase : C.base.Canonical := Wire.residue_canonical _ 32
  exact (hbase.pair hbase).record fun _ ↦ rfl

theorem decode_rotationMessage_iff {bytes : Bytes} {msg : RotationMessage E} :
    decode C.serde.rotationMessage bytes = .ok msg ↔ C.rotationMessage.write msg = bytes :=
  decode_ofWire_canonical C.rotationMessage_takes.shrinks C.rotationMessage_canonical
    C.rotationMessage_reads

end GroupCodec

theorem lineModulus_le : lineModulus ≤ 256 ^ 32 := by decide

def lineCodec (sponge : ℕ → List (ZMod lineModulus) → ZMod lineModulus) :
    GroupCodec (lineEngine sponge) where
  point := Wire.residue lineModulus 32
  point_reads := fun p ↦ Wire.residue_reads (n := lineModulus) lineModulus_le p
  point_takes := Wire.residue_takes _ 32
  scalar_le := lineModulus_le
  errorText := fun _ ↦ "invalid value"

abbrev zeroCodec : GroupCodec zeroLine := lineCodec fun _ _ ↦ 0

end HieroCryptography.Wraps
