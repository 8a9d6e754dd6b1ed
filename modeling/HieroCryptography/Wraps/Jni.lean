import HieroCryptography.Rust.Native
import HieroCryptography.Wraps.Proof
import HieroCryptography.Wraps.Serialization

namespace HieroCryptography.Wraps

open Rust Native

variable {E : Engine}

def expandSeed (E : Engine) (seed : Digest) : Digest × Digest :=
  (E.sha256 (seed.toList ++ [0]), E.sha256 (seed.toList ++ [1]))

def keygen (E : Engine) (seed : Digest) : E.Scalar × E.GE × SchnorrPoK E :=
  let (keySeed, pokSeed) := expandSeed E seed
  let kp := Schnorr.keygen (E.randomScalar keySeed)
  let pok := Schnorr.proveKnowledge kp (E.randomScalar pokSeed)
  (kp.sk, kp.pk, pok)

def sentinelKeygen : E.GE × SchnorrPoK E := sentinelAttestedPubkey

def buildEntropyArray (randomArray : Bytes) : Native Digest :=
  if h : randomArray.length = 32 then .ok ⟨randomArray.toArray, h⟩ else fail ()

theorem buildEntropyArray_ok_iff {bytes : Bytes} {seed : Digest} :
    buildEntropyArray bytes = .ok seed ↔ seed.toList = bytes := by
  unfold buildEntropyArray
  split
  · rename_i h
    rw [Except.ok.injEq]
    constructor
    · rintro rfl
      rfl
    · rintro rfl
      exact Vector.toList_inj.mp rfl
  · rename_i h
    refine ⟨fun hfail ↦ absurd hfail (fail_ne_ok _ _), ?_⟩
    rintro rfl
    exact absurd (Vector.length_toList) h

def SigningProtocolPhase.ordinal : SigningProtocolPhase → ℤ
  | .r1 => 0
  | .r2 => 1
  | .r3 => 2
  | .aggregate => 3

def phaseOfOrdinal : ℤ → Option SigningProtocolPhase
  | 0 => some .r1
  | 1 => some .r2
  | 2 => some .r3
  | 3 => some .aggregate
  | _ => none

@[simp] theorem phaseOfOrdinal_ordinal (phase : SigningProtocolPhase) :
    phaseOfOrdinal phase.ordinal = some phase := by
  cases phase <;> rfl

/-- The arrays of an address book as they come from the virtual machine: one row a seat. -/
structure BookArrays where
  schnorrPublicKeys : List (Option Bytes)
  weights : List Int64
  nodeIds : List Int64

def BookArrays.rows (arrays : BookArrays) : List (Option Bytes × Int64 × Int64) :=
  arrays.schnorrPublicKeys.zip (arrays.weights.zip arrays.nodeIds)

namespace GroupCodec

variable (C : GroupCodec E)

def bincode {T : Type} (w : Wire T) : Bincode T := .ofWire w C.errorText

def serializeToJbyteArray {T : Type} (w : Wire T) (obj : T) : Native Bytes :=
  orNull (encode (C.bincode w) obj)

def deserializeFromJbyteArray {T : Type} (w : Wire T) (javaByteArray : Bytes) : Native T :=
  orNull (decode (C.bincode w) javaByteArray)

def deserializeElement {T : Type} (w : Wire T) (jobj : Option Bytes) : Native T := do
  let bytes ← okOr jobj ()
  C.deserializeFromJbyteArray w bytes

def buildVector {T : Type} (w : Wire T) (javaArray : List (Option Bytes)) : Native (List T) :=
  javaArray.mapM (C.deserializeElement w)

def seatAt (schnorrPublicKeysJarray : List (Option Bytes)) (weightsJlong nodeIdsJlong : List Int64)
    (i : ℕ) : Native (AddressBookEntry E) := do
  let weight ← index weightsJlong i
  require (¬ weight < 0) ()
  let jobj ← okOr schnorrPublicKeysJarray[i]? ()
  let (pubKey, pok) ← C.deserializeElement C.schnorrAttestedPubKey jobj
  let nodeId ← index nodeIdsJlong i
  .ok { nodeId := (nodeId.toUInt64.toNat : E.Base), pubKey, pok, weight := weight.toUInt64 }

def buildAddressBook (arrays : BookArrays) : Native (AddressBook E) := do
  let numOfKeys := arrays.schnorrPublicKeys.length
  let weightsJlong ← arrayRegion arrays.weights numOfKeys
  let nodeIdsJlong ← arrayRegion arrays.nodeIds numOfKeys
  (List.range numOfKeys).mapM (C.seatAt arrays.schnorrPublicKeys weightsJlong nodeIdsJlong)

def generateSchnorrKeysImpl (randomJarray : Bytes) : Native (Bytes × Bytes) := do
  let randomArr ← buildEntropyArray randomJarray
  let (privateKey, publicKey) := keygen E randomArr
  let serializedPrivateKey ← C.serializeToJbyteArray C.scalar privateKey
  let serializedPublicKey ← C.serializeToJbyteArray C.schnorrAttestedPubKey publicKey
  .ok (serializedPrivateKey, serializedPublicKey)

def provideSentinelPublicKey : Native Bytes :=
  C.serializeToJbyteArray C.schnorrAttestedPubKey sentinelKeygen

def runSigningProtocolPhaseImpl (phaseOrdinal : ℤ) (randomJarray : Option Bytes)
    (messageJarray : Bytes) (schnorrPrivateKeyJarray : Option Bytes) (book : BookArrays)
    (signersJarray : List Bool)
    (round1messagesJarray round2messagesJarray round3messagesJarray : List (Option Bytes)) :
    Native Bytes := do
  let phase ← okOr (phaseOfOrdinal phaseOrdinal) ()
  let randomArr ← ifPresent buildEntropyArray randomJarray
  let signingKey ← ifPresent (C.deserializeFromJbyteArray C.scalar) schnorrPrivateKeyJarray
  let ab ← C.buildAddressBook book
  let round1messages ← C.buildVector signingProtocolMessageWire round1messagesJarray
  let round2messages ← C.buildVector signingProtocolMessageWire round2messagesJarray
  let round3messages ← C.buildVector signingProtocolMessageWire round3messagesJarray
  let obj ← orNull (signingProtocol C.serde phase randomArr messageJarray signingKey ab
    signersJarray round1messages round2messages round3messages)
  match obj with
  | .protocolMessage msgEncoded =>
    C.serializeToJbyteArray signingProtocolMessageWire msgEncoded
  | .protocolOutput signature => C.serializeToJbyteArray C.schnorrMultiSignature signature

def verifySignatureImpl (book : BookArrays) (messageJarray signatureJarray : Bytes) :
    Native Bool := do
  let ab ← C.buildAddressBook book
  let signature ← C.deserializeFromJbyteArray C.schnorrMultiSignature signatureJarray
  orNull (verifySignature C.serde ab messageJarray signature)

def hashAddressBookImpl (book : BookArrays) : Native Bytes := do
  let ab ← C.buildAddressBook book
  let hash ← orNull (computeAddressbookHash ab)
  C.serializeToJbyteArray C.base hash

def hashArrayImpl (inputJarray : Bytes) : Native Bytes := do
  require (¬ inputJarray.isEmpty) ()
  C.serializeToJbyteArray C.base (computeHintsVkHash E inputJarray)

def formatRotationMessageImpl (book : BookArrays) (tssVkJarray : Bytes) : Native Bytes := do
  let ab ← C.buildAddressBook book
  orNull (computeRotationMessage C.serde ab tssVkJarray)

section Proofs

variable {N : Nova E} (P : ProofSerde N)

/-- The two proofs go into the fields of a `Proof`. The parameters are what the cell
`PUBLIC_PARAMS` holds: nothing before a load, and no parameters after one that failed. -/
def constructWrapsProofImpl (publicParams : Option (Option N.PublicParams))
    (abGenesisHashJarray : Bytes) (prev next : BookArrays) (prevProofJarray : Option Bytes)
    (tssVkJarray signatureJarray : Bytes) : Native (Bytes × Bytes) := do
  let abGenesisHash ← C.deserializeFromJbyteArray C.base abGenesisHashJarray
  let prevAb ← C.buildAddressBook prev
  let nextAb ← C.buildAddressBook next
  let signature ← C.deserializeFromJbyteArray C.schnorrMultiSignature signatureJarray
  let pp ← okOr publicParams.join ()
  orNull (constructWrapsProof C.serde P pp abGenesisHash prevAb nextAb prevProofJarray tssVkJarray
    signature)

def verifyCompressedProofImpl (compressedVerifyingKey : Option (Option N.VerifierKey))
    (compressedProofJarray ledgerIdJarray tssVkJarray : Bytes) : Native Bool := do
  let optionVk ← okOr compressedVerifyingKey ()
  let vk ← okOr optionVk ()
  orNull (verifyCompressedWrapsProof C.serde P vk compressedProofJarray ledgerIdJarray tssVkJarray)

def verifyUncompressedProofImpl (publicParams : Option (Option N.PublicParams))
    (uncompressedProofJarray ledgerIdJarray tssVkJarray : Bytes) : Native Bool := do
  let pp ← okOr publicParams.join ()
  orNull (verifyUncompressedWrapsProof C.serde P pp uncompressedProofJarray ledgerIdJarray
    tssVkJarray)

end Proofs

def Holds {T : Type} (w : Wire T) (jobj : Option Bytes) (value : T) : Prop :=
  ∃ bytes, jobj = some bytes ∧ decode (C.bincode w) bytes = .ok value

structure IsSeat (row : Option Bytes × Int64 × Int64) (entry : AddressBookEntry E) : Prop where
  key : C.Holds C.schnorrAttestedPubKey row.1 (entry.pubKey, entry.pok)
  nonneg : ¬ row.2.1 < 0
  weight : entry.weight = row.2.1.toUInt64
  nodeId : entry.nodeId = (row.2.2.toUInt64.toNat : E.Base)

section Specs

variable {C} {T : Type} {w : Wire T}

theorem deserializeFromJbyteArray_ok_iff {bytes : Bytes} {value : T} :
    C.deserializeFromJbyteArray w bytes = .ok value ↔ decode (C.bincode w) bytes = .ok value :=
  orNull_ok_iff

@[simp] theorem serializeToJbyteArray_eq (obj : T) :
    C.serializeToJbyteArray w obj = .ok (w.write obj) := rfl

theorem deserializeElement_ok_iff {jobj : Option Bytes} {value : T} :
    C.deserializeElement w jobj = .ok value ↔ C.Holds w jobj value := by
  simp only [deserializeElement, bind_ok_iff, okOr_ok_iff, deserializeFromJbyteArray_ok_iff, Holds]

theorem buildVector_ok_iff {javaArray : List (Option Bytes)} {values : List T} :
    C.buildVector w javaArray = .ok values ↔ List.Forall₂ (C.Holds w) javaArray values := by
  simp only [buildVector, mapM_ok_iff, deserializeElement_ok_iff]

theorem seatAt_ok_iff {keys : List (Option Bytes)} {weights nodeIds : List Int64} {i : ℕ}
    {key : Option Bytes} {weight nodeId : Int64} (hkey : keys[i]? = some key)
    (hweight : weights[i]? = some weight) (hnodeId : nodeIds[i]? = some nodeId)
    {entry : AddressBookEntry E} :
    C.seatAt keys weights nodeIds i = .ok entry ↔ C.IsSeat (key, weight, nodeId) entry := by
  simp only [seatAt, index_of_getElem? hweight, index_of_getElem? hnodeId, hkey, okOr_some,
    ok_bind, bind_ok_iff, require_ok_iff, decide_eq_true_eq, deserializeElement_ok_iff,
    Except.ok.injEq, exists_const, Prod.exists]
  constructor
  · rintro ⟨hnonneg, pubKey, pok, hkey, rfl⟩
    exact ⟨hkey, hnonneg, rfl, rfl⟩
  · rintro ⟨hkey, hnonneg, hweight, hnodeId⟩
    refine ⟨hnonneg, _, _, hkey, ?_⟩
    rw [← hweight, ← hnodeId]

theorem buildAddressBook_ok_iff {arrays : BookArrays} {ab : AddressBook E} :
    C.buildAddressBook arrays = .ok ab ↔
      arrays.schnorrPublicKeys.length ≤ arrays.weights.length ∧
      arrays.schnorrPublicKeys.length ≤ arrays.nodeIds.length ∧
      List.Forall₂ C.IsSeat arrays.rows ab := by
  obtain ⟨keys, weights, nodeIds⟩ := arrays
  have hloop : ∀ ws ns : List Int64, ws.length = keys.length → ns.length = keys.length →
      ((List.range keys.length).mapM (C.seatAt keys ws ns) = .ok ab ↔
        List.Forall₂ C.IsSeat (keys.zip (ws.zip ns)) ab) := by
    intro ws ns hws hns
    have hlen : (keys.zip (ws.zip ns)).length = keys.length := by simp [hws, hns]
    rw [← mapM_range_length_ok_iff (f := C.seatAt keys ws ns), hlen]
    rintro i ⟨key, weight, nodeId⟩ hrow entry
    obtain ⟨hkey, hrest⟩ := List.getElem?_zip_eq_some.mp hrow
    obtain ⟨hweight, hnodeId⟩ := List.getElem?_zip_eq_some.mp hrest
    exact seatAt_ok_iff hkey hweight hnodeId
  -- The rows end with the keys, so that the regions hold all of them.
  have hrows : keys.zip ((weights.take keys.length).zip (nodeIds.take keys.length)) =
      keys.zip (weights.zip nodeIds) := by
    have htake := List.take_of_length_le (l := keys.zip (weights.zip nodeIds))
      (i := keys.length) (by simp)
    rw [List.zip, List.take_zipWith, List.take_length, List.zip, List.take_zipWith] at htake
    exact htake
  simp only [buildAddressBook, bind_ok_iff, arrayRegion_ok_iff, BookArrays.rows]
  constructor
  · rintro ⟨_, ⟨hweights, rfl⟩, _, ⟨hnodeIds, rfl⟩, h⟩
    rw [← hrows]
    exact ⟨hweights, hnodeIds, (hloop _ _ (by simpa) (by simpa)).mp h⟩
  · rintro ⟨hweights, hnodeIds, h⟩
    rw [← hrows] at h
    exact ⟨_, ⟨hweights, rfl⟩, _, ⟨hnodeIds, rfl⟩, (hloop _ _ (by simpa) (by simpa)).mpr h⟩

end Specs

end GroupCodec

end HieroCryptography.Wraps
