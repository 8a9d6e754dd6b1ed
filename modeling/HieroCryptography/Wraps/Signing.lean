import HieroCryptography.Wraps.AddressBook

namespace HieroCryptography.Wraps

open Rust

variable {E : Engine}

/-- The two field elements a committee signs: the hash of the next book and of the hints
verification key that goes with it. -/
structure RotationMessage (E : Engine) where
  addressBookHash : E.Base
  hintsVkHash : E.Base
  deriving DecidableEq

def RotationMessage.elements (message : RotationMessage E) : List E.Base :=
  [message.addressBookHash, message.hintsVkHash]

structure Serde (E : Engine) where
  rotationMessage : Bincode (RotationMessage E)
  roundMessage : Bincode (RoundMessage E)

inductive SigningProtocolPhase
  | r1
  | r2
  | r3
  | aggregate
  deriving DecidableEq, Repr

def SigningProtocolPhase.debug : SigningProtocolPhase → String
  | .r1 => "R1"
  | .r2 => "R2"
  | .r3 => "R3"
  | .aggregate => "Aggregate"

inductive SigningProtocolObject (E : Engine)
  | protocolMessage (bytes : Bytes)
  | protocolOutput (multisignature : BitVector × Signature E)
  deriving DecidableEq

def RoundMessage.asRound1 : RoundMessage E → Option MultisigRound1
  | .round1 payload => some payload
  | _ => none

def RoundMessage.asRound2 : RoundMessage E → Option (MultisigRound2 E)
  | .round2 payload => some payload
  | _ => none

def RoundMessage.asRound3 : RoundMessage E → Option (MultisigRound3 E)
  | .round3 payload => some payload
  | _ => none

section

variable (S : Serde E)

def decodeRotationMessage (bytes : Bytes) : Result (RotationMessage E) :=
  mapErr (fun e ↦ .invalidInput s!"invalid rotation message: {e.display}")
    (decode S.rotationMessage bytes)

def decodeRoundMessages {T : Type} (messages : List Bytes) (round : String)
    (payload : RoundMessage E → Option T) : Result (List T) :=
  messages.zipIdx.mapM fun (bytes, i) ↦ do
    let message ← mapErr
      (fun e ↦ .invalidInput s!"invalid {round} message from signer {i}: {e.display}")
      (decode S.roundMessage bytes)
    okOr (payload message)
      (.invalidInput s!"{round} message from signer {i} has the wrong round tag")

/-- Whether a phase needs entropy and a signing key, and how many messages of each round. -/
def phaseNeeds (phase : SigningProtocolPhase) (n : ℕ) : Bool × Bool × ℕ × ℕ × ℕ :=
  match phase with
  | .r1 => (true, false, 0, 0, 0)
  | .r2 => (true, false, n, 0, 0)
  | .r3 => (true, true, n, n, 0)
  | .aggregate => (false, false, n, n, n)

def validateSigningPhase (phase : SigningProtocolPhase) (numSigners : ℕ)
    (hasEntropy hasSigningKey : Bool) (roundCounts : ℕ × ℕ × ℕ) : Result Unit := do
  let (needsEntropy, needsSigningKey, c1, c2, c3) := phaseNeeds phase numSigners
  require (¬ (needsEntropy && !hasEntropy))
    (.invalidInput s!"{phase.debug} requires session entropy")
  require (¬ (needsSigningKey && !hasSigningKey))
    (.invalidInput "R3 requires the caller's signing key")
  require (¬ roundCounts ≠ (c1, c2, c3)) (.invalidInput
    s!"{phase.debug} requires round-message counts [{c1}, {c2}, {c3}] in signing-subset order")

def encodeProtocolMessage (message : RoundMessage E) : Result (SigningProtocolObject E) := do
  let bytes ← encode S.roundMessage message
  .ok (.protocolMessage bytes)

/-- What a phase works on, once its arguments have been checked and decoded. -/
structure SigningInputs (E : Engine) where
  bitvector : BitVector
  participants : List E.GE
  message : RotationMessage E
  round1 : List MultisigRound1
  round2 : List (MultisigRound2 E)
  round3 : List (MultisigRound3 E)

def signingInputs (phase : SigningProtocolPhase) (hasEntropy : Bool) (messageToSign : Bytes)
    (hasSigningKey : Bool) (addressBook : AddressBook E) (bitvector : List Bool)
    (round1Messages round2Messages round3Messages : List Bytes) : Result (SigningInputs E) := do
  require (verifyAddressBook addressBook) (.invalidInput "invalid signing address book")
  let bitvector ← padBitvector bitvector
  let outside ← slice bitvector.toList addressBook.length maxAbSize
  require (¬ outside.any id) (.invalidInput "bitvector selects a seat outside the address book")
  rejectSentinelSigners addressBook bitvector
  let participants := signingSubset addressBook bitvector
  require (¬ (phase ≠ .r1 ∧ participants.isEmpty))
    (.invalidInput "a signing set must have at least one member")
  validateSigningPhase phase participants.length hasEntropy hasSigningKey
    (round1Messages.length, round2Messages.length, round3Messages.length)
  let message ← decodeRotationMessage S messageToSign
  let round1 ← decodeRoundMessages S round1Messages "round-1" RoundMessage.asRound1
  let round2 ← decodeRoundMessages S round2Messages "round-2" RoundMessage.asRound2
  let round3 ← decodeRoundMessages S round3Messages "round-3" RoundMessage.asRound3
  .ok { bitvector, participants, message, round1, round2, round3 }

def runPhase (phase : SigningProtocolPhase) (protocolInstanceEntropy : Option Digest)
    (signingKey : Option E.Scalar) (inputs : SigningInputs E) :
    Result (SigningProtocolObject E) :=
  let message := inputs.message.elements
  match phase with
  | .r1 => do
    let seed ← expect protocolInstanceEntropy
    encodeProtocolMessage S (.round1 (Multisig.round1 seed message))
  | .r2 => do
    let seed ← expect protocolInstanceEntropy
    require (inputs.round1.contains (Multisig.round1 seed message))
      (.invalidInput "R2 is missing the caller's round-1 commitment")
    encodeProtocolMessage S (.round2 (Multisig.round2 seed message))
  | .r3 => do
    let seed ← expect protocolInstanceEntropy
    let sk ← expect signingKey
    let share ← Multisig.round3 seed message sk inputs.participants inputs.round1 inputs.round2
    encodeProtocolMessage S (.round3 share)
  | .aggregate => do
    let signature ←
      Multisig.aggregate message inputs.participants inputs.round1 inputs.round2 inputs.round3
    .ok (.protocolOutput (inputs.bitvector, signature))

def signingProtocol (phase : SigningProtocolPhase) (protocolInstanceEntropy : Option Digest)
    (messageToSign : Bytes) (signingKey : Option E.Scalar) (addressBook : AddressBook E)
    (bitvector : List Bool) (round1Messages round2Messages round3Messages : List Bytes) :
    Result (SigningProtocolObject E) := do
  let inputs ← signingInputs S phase protocolInstanceEntropy.isSome messageToSign
    signingKey.isSome addressBook bitvector round1Messages round2Messages round3Messages
  runPhase S phase protocolInstanceEntropy signingKey inputs

def verifyJoint (participants : List E.GE) (message : RotationMessage E)
    (signature : Signature E) : Result Bool :=
  checkOrReturnFalse (¬ participants.isEmpty) do
    let joint ← Multisig.aggregateKey participants
    checkOrReturnFalse (¬ isInfinity joint)
      (.ok (Schnorr.verify joint message.elements signature))

def verifySignature (addressBook : AddressBook E) (message : Bytes)
    (multisignature : BitVector × Signature E) : Result Bool := do
  let message ← decodeRotationMessage S message
  let (bitvector, signature) := multisignature
  checkOrReturnFalse (verifyAddressBook addressBook) do
    let outside ← slice bitvector.toList addressBook.length maxAbSize
    checkOrReturnFalse (¬ outside.any id) do
      rejectSentinelSigners addressBook bitvector
      let addressBook ← padAddressBook addressBook
      match subsetWeight addressBook bitvector with
      | none => .ok false
      | some (signingWeight, totalWeight) =>
        checkOrReturnFalse (meetsThreshold signingWeight totalWeight)
          (verifyJoint (signingSubset addressBook bitvector) message signature)

/-- The bytes of a message of some round, and the payload they carry. -/
def Carries {T : Type} (payload : RoundMessage E → Option T) (bytes : Bytes) (t : T) : Prop :=
  ∃ message, decode S.roundMessage bytes = .ok message ∧ payload message = some t

variable {S}

theorem decodeRotationMessage_ok_iff {bytes : Bytes} {message : RotationMessage E} :
    decodeRotationMessage S bytes = .ok message ↔ decode S.rotationMessage bytes = .ok message :=
  mapErr_ok_iff

theorem decodeRoundMessages_ok_iff {T : Type} {messages : List Bytes} {round : String}
    {payload : RoundMessage E → Option T} {ts : List T} :
    decodeRoundMessages S messages round payload = .ok ts ↔
      List.Forall₂ (Carries S payload) messages ts := by
  have hfst := List.forall₂_map_left_iff (R := Carries S payload) (f := Prod.fst)
    (l := messages.zipIdx) (u := ts)
  rw [List.zipIdx_map_fst] at hfst
  rw [hfst, decodeRoundMessages, mapM_ok_iff]
  simp only [bind_ok_iff, mapErr_ok_iff, okOr_ok_iff, Carries]

theorem validateSigningPhase_ok_iff {phase : SigningProtocolPhase} {n : ℕ}
    {hasEntropy hasSigningKey : Bool} {counts : ℕ × ℕ × ℕ} {u : Unit} :
    validateSigningPhase phase n hasEntropy hasSigningKey counts = .ok u ↔
      ((phaseNeeds phase n).1 = true → hasEntropy = true) ∧
      ((phaseNeeds phase n).2.1 = true → hasSigningKey = true) ∧
      counts = (phaseNeeds phase n).2.2 := by
  simp only [validateSigningPhase, bind_ok_iff, require_ok_iff, exists_const, decide_eq_true_eq,
    ne_eq, not_not]
  cases hasEntropy <;> cases hasSigningKey <;> simp

structure Checked (S : Serde E) (phase : SigningProtocolPhase) (hasEntropy : Bool)
    (messageToSign : Bytes) (hasSigningKey : Bool) (addressBook : AddressBook E)
    (bitvector : List Bool) (round1Messages round2Messages round3Messages : List Bytes)
    (inputs : SigningInputs E) : Prop where
  valid : ValidBook addressBook
  padded : padBitvector bitvector = .ok inputs.bitvector
  inside : ∀ signed ∈ inputs.bitvector.toList.drop addressBook.length, signed = false
  held : ∀ seat ∈ seats addressBook inputs.bitvector, seat.2 = true → seat.1.pubKey ≠ 0
  participants : inputs.participants = signingSubset addressBook inputs.bitvector
  nonempty : phase ≠ .r1 → inputs.participants ≠ []
  phaseOk : validateSigningPhase phase inputs.participants.length hasEntropy hasSigningKey
    (round1Messages.length, round2Messages.length, round3Messages.length) = .ok ()
  message : decodeRotationMessage S messageToSign = .ok inputs.message
  round1 : List.Forall₂ (Carries S RoundMessage.asRound1) round1Messages inputs.round1
  round2 : List.Forall₂ (Carries S RoundMessage.asRound2) round2Messages inputs.round2
  round3 : List.Forall₂ (Carries S RoundMessage.asRound3) round3Messages inputs.round3

theorem slice_outside_ok_iff {bitvector : BitVector} {n : ℕ} {outside : List Bool} :
    (slice bitvector.toList n maxAbSize : Result (List Bool)) = .ok outside ↔
      n ≤ maxAbSize ∧ outside = bitvector.toList.drop n := by
  rw [slice, Vector.length_toList, List.take_of_length_le (by simp)]
  split <;> simp_all [eq_comm, unwind]

theorem signingInputs_ok_iff {phase : SigningProtocolPhase} {hasEntropy : Bool}
    {messageToSign : Bytes} {hasSigningKey : Bool} {addressBook : AddressBook E}
    {bitvector : List Bool} {round1Messages round2Messages round3Messages : List Bytes}
    {inputs : SigningInputs E} :
    signingInputs S phase hasEntropy messageToSign hasSigningKey addressBook bitvector
        round1Messages round2Messages round3Messages = .ok inputs ↔
      Checked S phase hasEntropy messageToSign hasSigningKey addressBook bitvector
        round1Messages round2Messages round3Messages inputs := by
  simp only [signingInputs, bind_ok_iff, require_ok_iff, decide_eq_true_eq,
    verifyAddressBook_eq_true_iff, slice_outside_ok_iff, decodeRoundMessages_ok_iff,
    rejectSentinelSigners_ok_iff, Except.ok.injEq]
  constructor
  · rintro ⟨-, hvalid, bits, hbits, outside, ⟨-, rfl⟩, -, hinside, -, hheld, -, hne, u, hphase,
      message, hmessage, r1, hr1, r2, hr2, r3, hr3, rfl⟩
    refine ⟨hvalid, hbits, ?_, hheld, rfl, ?_, hphase, hmessage, hr1, hr2, hr3⟩
    · simpa using hinside
    · intro hp hempty
      exact hne ⟨hp, List.isEmpty_iff.mpr hempty⟩
  · intro h
    refine ⟨(), h.valid, _, h.padded, _, ⟨h.valid.size, rfl⟩, (), ?_, (), h.held, (), ?_, (), ?_,
      _, h.message, _, h.round1, _, h.round2, _, h.round3, ?_⟩
    · simpa using h.inside
    · rintro ⟨hp, hempty⟩
      exact h.nonempty hp (h.participants ▸ List.isEmpty_iff.mp hempty)
    · exact h.participants ▸ h.phaseOk
    · rw [← h.participants]

theorem verifyJoint_of_ne_zero {participants : List E.GE} (hne : participants ≠ [])
    (hjoint : participants.sum ≠ 0) (message : RotationMessage E) (signature : Signature E) :
    verifyJoint participants message signature =
      .ok (Schnorr.verify participants.sum message.elements signature) := by
  have hkey := Multisig.aggregateKey_ok_iff.mpr ⟨hne, rfl⟩
  simp [verifyJoint, hkey, hne, hjoint]

/-- On a valid book, with a bitvector that stays inside it and selects no empty seat, and
a joint key that is not the identity, the verdict is the majority and the equation. -/
theorem verifySignature_eq {addressBook : AddressBook E} (hvalid : ValidBook addressBook)
    {messageBytes : Bytes} {message : RotationMessage E}
    (hmessage : decodeRotationMessage S messageBytes = .ok message) {bitvector : BitVector}
    (hinside : ∀ signed ∈ bitvector.toList.drop addressBook.length, signed = false)
    (hheld : ∀ seat ∈ seats addressBook bitvector, seat.2 = true → seat.1.pubKey ≠ 0)
    (hne : signingSubset addressBook bitvector ≠ [])
    (hjoint : (signingSubset addressBook bitvector).sum ≠ 0) (signature : Signature E) :
    verifySignature S addressBook messageBytes (bitvector, signature) =
      .ok (decide (totalWeight addressBook < 2 * signingWeight addressBook bitvector) &&
        Schnorr.verify (signingSubset addressBook bitvector).sum message.elements signature) := by
  have hslice : (slice bitvector.toList addressBook.length maxAbSize : Result (List Bool)) = _ :=
    slice_outside_ok_iff.mpr ⟨hvalid.size, rfl⟩
  have hany : (bitvector.toList.drop addressBook.length).any id = false := by
    rw [List.any_eq_false]
    intro signed hsigned
    simp [hinside signed hsigned]
  have hreject : rejectSentinelSigners addressBook bitvector = .ok () :=
    rejectSentinelSigners_ok_iff.mpr hheld
  have hpad := padAddressBook_ok_iff.mpr ⟨hvalid.size, rfl⟩
  obtain ⟨signing, total, hweight, hmajority⟩ := subsetWeight_paddedBook hvalid bitvector
  simp only [verifySignature, hmessage, ok_bind, verifyAddressBook_eq_true_iff.mpr hvalid,
    checkOrReturnFalse_true, hslice, hany, Bool.false_eq_true, not_false_eq_true, decide_true,
    hreject, hpad, hweight, signingSubset_paddedBook, verifyJoint_of_ne_zero hne hjoint,
    ← hmajority]
  cases meetsThreshold signing total <;> simp

/-- What `Ok(true)` establishes of a signature, check by check. -/
structure Signed (addressBook : AddressBook E) (bitvector : BitVector) (next : List E.Base)
    (signature : Signature E) : Prop where
  valid : ValidBook addressBook
  inside : ∀ signed ∈ bitvector.toList.drop addressBook.length, signed = false
  held : ∀ seat ∈ seats addressBook bitvector, seat.2 = true → seat.1.pubKey ≠ 0
  majority : totalWeight addressBook < 2 * signingWeight addressBook bitvector
  joint : (signingSubset addressBook bitvector).sum ≠ 0
  verified : Schnorr.verify (signingSubset addressBook bitvector).sum next signature = true

theorem verifyJoint_ok_true_iff {participants : List E.GE} {message : RotationMessage E}
    {signature : Signature E} :
    verifyJoint participants message signature = .ok true ↔ participants.sum ≠ 0 ∧
      Schnorr.verify participants.sum message.elements signature = true := by
  by_cases hne : participants = []
  · simp [verifyJoint, hne]
  · have hkey := Multisig.aggregateKey_ok_iff.mpr ⟨hne, rfl⟩
    simp [verifyJoint, hkey, hne, checkOrReturnFalse_ok_true_iff]

theorem verifySignature_ok_true_iff {addressBook : AddressBook E} {messageBytes : Bytes}
    {bitvector : BitVector} {signature : Signature E} :
    verifySignature S addressBook messageBytes (bitvector, signature) = .ok true ↔
      ∃ message, decodeRotationMessage S messageBytes = .ok message ∧
        Signed addressBook bitvector message.elements signature := by
  constructor
  · intro h
    simp only [verifySignature, bind_ok_iff, checkOrReturnFalse_ok_true_iff,
      verifyAddressBook_eq_true_iff, slice_outside_ok_iff, rejectSentinelSigners_ok_iff,
      padAddressBook_ok_iff] at h
    obtain ⟨message, hmessage, hvalid, _, ⟨-, rfl⟩, hinside, -, hheld, _, ⟨-, rfl⟩, hrest⟩ := h
    obtain ⟨signing, total, hweight, hmajority⟩ := subsetWeight_paddedBook hvalid bitvector
    rw [hweight] at hrest
    simp only [checkOrReturnFalse_ok_true_iff, verifyJoint_ok_true_iff, hmajority,
      signingSubset_paddedBook] at hrest
    exact ⟨message, hmessage, hvalid, by simpa using hinside, hheld, hrest.1, hrest.2.1, hrest.2.2⟩
  · rintro ⟨message, hmessage, h⟩
    have hne : signingSubset addressBook bitvector ≠ [] := by
      intro hempty
      exact h.joint (by rw [hempty, List.sum_nil])
    rw [verifySignature_eq h.valid hmessage h.inside h.held hne h.joint, h.verified,
      decide_eq_true h.majority]
    rfl

theorem signingProtocol_ok_iff {phase : SigningProtocolPhase} {entropy : Option Digest}
    {message : Bytes} {key : Option E.Scalar} {book : AddressBook E} {bits : List Bool}
    {r1 r2 r3 : List Bytes} {out : SigningProtocolObject E} :
    signingProtocol S phase entropy message key book bits r1 r2 r3 = .ok out ↔
      ∃ inputs, Checked S phase entropy.isSome message key.isSome book bits r1 r2 r3 inputs ∧
        runPhase S phase entropy key inputs = .ok out := by
  simp only [signingProtocol, bind_ok_iff, signingInputs_ok_iff]

theorem runPhase_aggregate_ok_iff {entropy : Option Digest} {key : Option E.Scalar}
    {inputs : SigningInputs E} {out : SigningProtocolObject E} :
    runPhase S .aggregate entropy key inputs = .ok out ↔
      ∃ sig, Multisig.aggregate inputs.message.elements inputs.participants inputs.round1
          inputs.round2 inputs.round3 = .ok sig ∧
        out = .protocolOutput (inputs.bitvector, sig) := by
  simp only [runPhase, bind_ok_iff, Except.ok.injEq, eq_comm (b := out)]

theorem encodeProtocolMessage_ok_iff {message : RoundMessage E} {out : SigningProtocolObject E} :
    encodeProtocolMessage S message = .ok out ↔
      ∃ bytes, encode S.roundMessage message = .ok bytes ∧ out = .protocolMessage bytes := by
  simp only [encodeProtocolMessage, bind_ok_iff, Except.ok.injEq, eq_comm (b := out)]

theorem runPhase_r3_ok_iff {entropy : Option Digest} {key : Option E.Scalar}
    {inputs : SigningInputs E} {out : SigningProtocolObject E} :
    runPhase S .r3 entropy key inputs = .ok out ↔
      ∃ seed sk share bytes, entropy = some seed ∧ key = some sk ∧
        Multisig.round3 seed inputs.message.elements sk inputs.participants inputs.round1
          inputs.round2 = .ok share ∧
        encode S.roundMessage (.round3 share) = .ok bytes ∧ out = .protocolMessage bytes := by
  simp only [runPhase, bind_ok_iff, expect_ok_iff, encodeProtocolMessage_ok_iff]
  constructor
  · rintro ⟨seed, hseed, sk, hsk, share, hshare, bytes, hbytes, rfl⟩
    exact ⟨seed, sk, share, bytes, hseed, hsk, hshare, hbytes, rfl⟩
  · rintro ⟨seed, sk, share, bytes, hseed, hsk, hshare, hbytes, rfl⟩
    exact ⟨seed, hseed, sk, hsk, share, hshare, bytes, hbytes, rfl⟩

end

end HieroCryptography.Wraps
