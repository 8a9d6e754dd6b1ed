import HieroCryptography.Hints.LibraryBridge
import HieroCryptography.Wraps.Jni

namespace HieroCryptography.Wraps

open Rust Native

variable {E : Engine}

def bridgeMaxAbSize : ℕ := Hints.maxSignersNum.toNat

def entropySize : ℕ := 32

def round1MessageSize : ℕ := 44

def round2MessageSize : ℕ := 44

def round3MessageSize : ℕ := 76

def ledgerIdLengthBytes : ℕ := 64

def uncompressedWrapsProofLengthBytes : ℕ := 3076656

def compressedWrapsProofLengthBytes : ℕ := 11368

def allOfLength (arrays : List (Option Bytes)) (size : ℕ) : Bool :=
  arrays.all fun array ↦ array.elim false fun bytes ↦ bytes.length = size

def validateSchnorrPublicKeys (schnorrPublicKeys : List (Option Bytes)) : Bool :=
  allOfLength schnorrPublicKeys 128

def validateRoundMessages (roundMessages : List (Option Bytes)) (size : ℕ) : Bool :=
  allOfLength roundMessages size

/-- One turn of the sum, which a negative weight ends as well. -/
def addWeight (sum weight : Int64) : Option Int64 :=
  if weight < 0 then none else Hints.addExact sum weight

def validateWeightsSum (weights : List Int64) : Bool :=
  match weights.foldlM addWeight 0 with
  | some sum => sum ≤ Hints.maxSumOfWeights
  | none => false

/-- The arguments of `runSigningProtocolPhase`, with empty arrays in place of null ones. -/
structure SigningRequest where
  instanceEntropy : Option Bytes
  messageToSign : Bytes
  schnorrPrivateKey : Option Bytes
  book : BookArrays
  signers : List Bool
  round1Messages : List (Option Bytes)
  round2Messages : List (Option Bytes)
  round3Messages : List (Option Bytes)

namespace BookArrays

def aligned (book : BookArrays) : Bool :=
  book.weights.length = book.schnorrPublicKeys.length &&
    book.nodeIds.length = book.schnorrPublicKeys.length

end BookArrays

namespace SigningRequest

variable (r : SigningRequest)

/-- `if (phase != SigningProtocolPhase.Aggregate) { .. }`. -/
def hasSecrets : Bool :=
  r.schnorrPrivateKey.isSome && r.instanceEntropy.elim false fun entropy ↦
    entropy.length = entropySize

def numOfActualSigners : ℕ := r.signers.count true

/-- The loop over the signers, for the array that `Arrays.equals` compares with. -/
def selectsSentinel (sentinelPublicKey : Option Bytes) : Bool :=
  (r.signers.zip r.book.schnorrPublicKeys).any fun (signed, key) ↦
    signed && key = sentinelPublicKey

def hasBook : Bool :=
  r.book.schnorrPublicKeys.length ≠ 0 && validateSchnorrPublicKeys r.book.schnorrPublicKeys &&
    r.book.aligned

def acceptsPhase : SigningProtocolPhase → Bool
  | .r1 =>
    r.book.schnorrPublicKeys.isEmpty && r.round1Messages.isEmpty && r.round2Messages.isEmpty &&
      r.round3Messages.isEmpty
  | .r2 =>
    validateRoundMessages r.round1Messages round1MessageSize && r.round2Messages.isEmpty &&
      r.round3Messages.isEmpty && r.hasBook && r.numOfActualSigners = r.round1Messages.length
  | .r3 =>
    validateRoundMessages r.round1Messages round1MessageSize &&
      validateRoundMessages r.round2Messages round2MessageSize && r.round3Messages.isEmpty &&
      r.hasBook && r.numOfActualSigners = r.round1Messages.length &&
      r.numOfActualSigners = r.round2Messages.length
  | .aggregate =>
    r.schnorrPrivateKey.isNone && r.instanceEntropy.isNone &&
      validateRoundMessages r.round1Messages round1MessageSize &&
      validateRoundMessages r.round2Messages round2MessageSize &&
      validateRoundMessages r.round3Messages round3MessageSize &&
      r.hasBook && r.numOfActualSigners = r.round1Messages.length &&
      r.numOfActualSigners = r.round2Messages.length &&
      r.numOfActualSigners = r.round3Messages.length

def acceptsSizes : Bool :=
  (r.schnorrPrivateKey.elim true fun key ↦ key.length ≤ bridgeMaxAbSize) &&
    r.book.schnorrPublicKeys.length ≤ bridgeMaxAbSize &&
    r.book.weights.length ≤ bridgeMaxAbSize && r.book.nodeIds.length ≤ bridgeMaxAbSize &&
    r.signers.length ≤ bridgeMaxAbSize && r.round1Messages.length ≤ bridgeMaxAbSize &&
    r.round2Messages.length ≤ bridgeMaxAbSize && r.round3Messages.length ≤ bridgeMaxAbSize

def accepts (sentinelPublicKey : Option Bytes) (phase : SigningProtocolPhase) : Bool :=
  (phase = .aggregate || r.hasSecrets) &&
    r.signers.length = r.book.schnorrPublicKeys.length && ¬ r.selectsSentinel sentinelPublicKey &&
    ¬ (r.book.schnorrPublicKeys.length ≠ 0 &&
      r.numOfActualSigners > r.book.schnorrPublicKeys.length) &&
    r.acceptsPhase phase && r.acceptsSizes

end SigningRequest

def bookArrays (schnorrPublicKeys : Option (List (Option Bytes)))
    (weights nodeIds : Option (List Int64)) : Option BookArrays := do
  let schnorrPublicKeys ← schnorrPublicKeys
  let weights ← weights
  let nodeIds ← nodeIds
  some { schnorrPublicKeys, weights, nodeIds }

def BookArrays.accepts (book : BookArrays) : Bool :=
  book.schnorrPublicKeys.length ≤ bridgeMaxAbSize && book.aligned &&
    validateWeightsSum book.weights && validateSchnorrPublicKeys book.schnorrPublicKeys

namespace GroupCodec

variable (C : GroupCodec E)

def generateSchnorrKeys (seed : Option Bytes) : Option (Bytes × Bytes) := do
  let seed ← seed
  if seed.length ≠ entropySize then none else catchUnwind (C.generateSchnorrKeysImpl seed)

/-- The bytes the field `sentinelPublicKey` takes, once it has been set. -/
def sentinelPublicKey : Option Bytes := catchUnwind C.provideSentinelPublicKey

def callPhase (phase : SigningProtocolPhase) (r : SigningRequest) : Native Bytes :=
  C.runSigningProtocolPhaseImpl phase.ordinal r.instanceEntropy r.messageToSign
    r.schnorrPrivateKey r.book r.signers r.round1Messages r.round2Messages r.round3Messages

def runSigningProtocolPhase (sentinelPublicKey : Option Bytes)
    (phase : Option SigningProtocolPhase)
    (instanceEntropy messageToSign schnorrPrivateKey : Option Bytes)
    (schnorrPublicKeys : Option (List (Option Bytes))) (weights nodeIds : Option (List Int64))
    (signers : Option (List Bool))
    (round1Messages round2Messages round3Messages : Option (List (Option Bytes))) :
    Option Bytes := do
  let phase ← phase
  let messageToSign ← messageToSign
  let r : SigningRequest :=
    { instanceEntropy, messageToSign, schnorrPrivateKey
      book := ⟨schnorrPublicKeys.getD [], weights.getD [], nodeIds.getD []⟩
      signers := signers.getD []
      round1Messages := round1Messages.getD []
      round2Messages := round2Messages.getD []
      round3Messages := round3Messages.getD [] }
  if r.accepts sentinelPublicKey phase then catchUnwind (C.callPhase phase r) else none

def verifySignature (schnorrPublicKeys : Option (List (Option Bytes)))
    (weights nodeIds : Option (List Int64)) (messageToSign signature : Option Bytes) : Bool :=
  match bookArrays schnorrPublicKeys weights nodeIds, messageToSign, signature with
  | some book, some messageToSign, some signature =>
    book.schnorrPublicKeys.length ≠ 0 && book.schnorrPublicKeys.length ≤ bridgeMaxAbSize &&
      book.aligned && messageToSign.length ≠ 0 && signature.length ≠ 0 &&
      validateSchnorrPublicKeys book.schnorrPublicKeys &&
      catchUnwindBool (C.verifySignatureImpl book messageToSign signature)
  | _, _, _ => false

def hashAddressBook (schnorrPublicKeys : Option (List (Option Bytes)))
    (weights nodeIds : Option (List Int64)) : Option Bytes := do
  let book ← bookArrays schnorrPublicKeys weights nodeIds
  if book.accepts then catchUnwind (C.hashAddressBookImpl book) else none

def hashArray (array : Option Bytes) : Option Bytes := do
  let array ← array
  if array.length = 0 then none else catchUnwind (C.hashArrayImpl array)

def computeNetworkID (schnorrPublicKeys : Option (List (Option Bytes)))
    (weights nodeIds : Option (List Int64)) (hintsVerificationKey : Option Bytes) :
    Option Bytes := do
  let book ← bookArrays schnorrPublicKeys weights nodeIds
  let hintsVerificationKey ← hintsVerificationKey
  if book.accepts && hintsVerificationKey.length ≠ 0 then
    catchUnwind (C.formatRotationMessageImpl book hintsVerificationKey)
  else none

section Proofs

variable {N : Nova E} (P : ProofSerde N)

/-- The two cells are what the native library holds once `isProofSupported` has answered
`proofSupported`. -/
def constructWrapsProof (publicParams : Option (Option N.PublicParams)) (proofSupported : Bool)
    (genesisAddressBookHash : Option Bytes)
    (prevSchnorrPublicKeys : Option (List (Option Bytes)))
    (prevWeights prevNodeIds : Option (List Int64))
    (nextSchnorrPublicKeys : Option (List (Option Bytes)))
    (nextWeights nextNodeIds : Option (List Int64))
    (prevProof tssVerificationKey aggregateSignature : Option Bytes) : Option (Bytes × Bytes) := do
  if ¬ proofSupported then none
  else
    let genesisAddressBookHash ← genesisAddressBookHash
    let prev ← bookArrays prevSchnorrPublicKeys prevWeights prevNodeIds
    let next ← bookArrays nextSchnorrPublicKeys nextWeights nextNodeIds
    let tssVerificationKey ← tssVerificationKey
    let aggregateSignature ← aggregateSignature
    if genesisAddressBookHash.length ≠ 0 && prev.schnorrPublicKeys.length ≠ 0 && prev.accepts &&
        next.schnorrPublicKeys.length ≠ 0 && next.accepts && tssVerificationKey.length ≠ 0 &&
        aggregateSignature.length ≠ 0 then
      catchUnwind (C.constructWrapsProofImpl P publicParams genesisAddressBookHash prev next
        prevProof tssVerificationKey aggregateSignature)
    else none

def verifyCompressedProof (compressedVerifyingKey : Option (Option N.VerifierKey))
    (verificationSupported : Bool) (compressedProof ledgerId tssVerificationKey : Option Bytes) :
    Bool :=
  verificationSupported &&
    match ledgerId, tssVerificationKey, compressedProof with
    | some ledgerId, some tssVerificationKey, some compressedProof =>
      ledgerId.length = ledgerIdLengthBytes &&
        tssVerificationKey.length = Hints.tssVerificationKeyLengthBytes &&
        compressedProof.length = compressedWrapsProofLengthBytes &&
        catchUnwindBool (C.verifyCompressedProofImpl P compressedVerifyingKey compressedProof
          ledgerId tssVerificationKey)
    | _, _, _ => false

def verifyUncompressedProof (publicParams : Option (Option N.PublicParams))
    (proofSupported : Bool) (uncompressedProof ledgerId tssVerificationKey : Option Bytes) :
    Bool :=
  proofSupported &&
    match ledgerId, tssVerificationKey, uncompressedProof with
    | some ledgerId, some tssVerificationKey, some uncompressedProof =>
      ledgerId.length = ledgerIdLengthBytes &&
        tssVerificationKey.length = Hints.tssVerificationKeyLengthBytes &&
        uncompressedProof.length = uncompressedWrapsProofLengthBytes &&
        catchUnwindBool (C.verifyUncompressedProofImpl P publicParams uncompressedProof
          ledgerId tssVerificationKey)
    | _, _, _ => false

end Proofs

/-- A phase, run through the bridge with no null argument but the secrets. -/
def signingPhase (phase : SigningProtocolPhase) (r : SigningRequest) : Option Bytes :=
  C.runSigningProtocolPhase C.sentinelPublicKey (some phase) r.instanceEntropy
    (some r.messageToSign) r.schnorrPrivateKey (some r.book.schnorrPublicKeys)
    (some r.book.weights) (some r.book.nodeIds) (some r.signers) (some r.round1Messages)
    (some r.round2Messages) (some r.round3Messages)

end GroupCodec

structure SigningCall (E : Engine) where
  entropy : Option Digest
  key : Option E.Scalar
  book : AddressBook E
  round1 : List Bytes
  round2 : List Bytes
  round3 : List Bytes

def SigningCall.run (c : SigningCall E) (S : Serde E) (phase : SigningProtocolPhase)
    (message : Bytes) (bits : List Bool) : Result (SigningProtocolObject E) :=
  signingProtocol S phase c.entropy message c.key c.book bits c.round1 c.round2 c.round3

namespace GroupCodec

variable (C : GroupCodec E)

structure Decodes (r : SigningRequest) (c : SigningCall E) : Prop where
  entropy : Option.Rel (fun bytes seed ↦ seed.toList = bytes) r.instanceEntropy c.entropy
  key : Option.Rel (fun bytes sk ↦ decode (C.bincode C.scalar) bytes = .ok sk)
    r.schnorrPrivateKey c.key
  book : C.buildAddressBook r.book = .ok c.book
  round1 : List.Forall₂ (C.Holds signingProtocolMessageWire) r.round1Messages c.round1
  round2 : List.Forall₂ (C.Holds signingProtocolMessageWire) r.round2Messages c.round2
  round3 : List.Forall₂ (C.Holds signingProtocolMessageWire) r.round3Messages c.round3

def writeObject : SigningProtocolObject E → Bytes
  | .protocolMessage msgEncoded => signingProtocolMessageWire.write msgEncoded
  | .protocolOutput signature => C.schnorrMultiSignature.write signature

section Specs

variable {C} {phase : SigningProtocolPhase} {r : SigningRequest}

theorem signingPhase_eq_some_iff {out : Bytes} : C.signingPhase phase r = some out ↔
    r.accepts C.sentinelPublicKey phase = true ∧ C.callPhase phase r = .ok out := by
  rw [← catchUnwind_eq_some_iff]
  exact Option.ite_none_right_eq_some

theorem callPhase_ok_iff {out : Bytes} : C.callPhase phase r = .ok out ↔
    ∃ c, C.Decodes r c ∧ ∃ obj, c.run C.serde phase r.messageToSign r.signers = .ok obj ∧
      C.writeObject obj = out := by
  simp only [callPhase, runSigningProtocolPhaseImpl, phaseOfOrdinal_ordinal, okOr_some, ok_bind,
    bind_ok_iff, ifPresent_ok_iff, buildEntropyArray_ok_iff, deserializeFromJbyteArray_ok_iff,
    buildVector_ok_iff, orNull_ok_iff]
  constructor
  · rintro ⟨entropy, hentropy, key, hkey, book, hbook, r1, hr1, r2, hr2, r3, hr3, obj, hobj, hout⟩
    refine ⟨⟨entropy, key, book, r1, r2, r3⟩, ⟨hentropy, hkey, hbook, hr1, hr2, hr3⟩, obj, hobj, ?_⟩
    cases obj <;> exact Except.ok.inj hout
  · rintro ⟨c, h, obj, hobj, hout⟩
    refine ⟨_, h.entropy, _, h.key, _, h.book, _, h.round1, _, h.round2, _, h.round3, obj, hobj, ?_⟩
    cases obj <;> exact congrArg Except.ok hout

end Specs

end GroupCodec

end HieroCryptography.Wraps
