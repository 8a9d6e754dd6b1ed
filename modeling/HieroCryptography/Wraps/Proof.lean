import HieroCryptography.Wraps.Circuit

namespace HieroCryptography.Wraps

open Foundation Rust

variable {E : Engine}

/-- The proof library as the crate calls it, with its errors as text. That it answers each call is
assumed: panics inside the library are not modelled. -/
structure Nova (E : Engine) where
  PublicParams : Type
  RecursiveSNARK : Type
  CompressedSNARK : Type
  ProverKey : Type
  VerifierKey : Type
  new : PublicParams → RotationCircuit E → List E.Base → Except String RecursiveSNARK
  numSteps : RecursiveSNARK → ℕ
  outputs : RecursiveSNARK → List E.Base
  proveStep : RecursiveSNARK → PublicParams → RotationCircuit E → Except String RecursiveSNARK
  verify : RecursiveSNARK → PublicParams → ℕ → List E.Base → Except String (List E.Base)
  setup : PublicParams → Except String (ProverKey × VerifierKey)
  prove : PublicParams → ProverKey → RecursiveSNARK → Except String CompressedSNARK
  verifyCompressed :
    CompressedSNARK → VerifierKey → ℕ → List E.Base → Except String (List E.Base)

structure WrapsProof (E : Engine) (Snark : Type) where
  numSteps : ℕ
  z0 : List E.Base
  zi : List E.Base
  snark : Snark

abbrev UncompressedWrapsProof (N : Nova E) := WrapsProof E N.RecursiveSNARK

abbrev CompressedWrapsProof (N : Nova E) := WrapsProof E N.CompressedSNARK

structure ProofSerde (N : Nova E) where
  uncompressed : Bincode (UncompressedWrapsProof N)
  compressed : Bincode (CompressedWrapsProof N)

def attempt {α : Type} (what : String) : Except String α → Result α
  | .ok a => .ok a
  | .error e => fail (.cryptography s!"{what}: {e}")

theorem attempt_ok_iff {α : Type} {what : String} {x : Except String α} {a : α} :
    attempt what x = .ok a ↔ x = .ok a := by
  cases x <;> simp [attempt]

def computeAddressbookHash (ab : AddressBook E) : Result E.Base := do
  require (verifyAddressBook ab) (.invalidInput
    ("address book is too large, has duplicate nonidentity keys or an invalid key proof, " ++
      "or its total effective weight exceeds u64::MAX"))
  let padded ← padAddressBook ab
  .ok (hashAddressBook padded)

def computeHintsVkHash (E : Engine) (hintsVk : Bytes) : E.Base := hashHintsVk E hintsVk

def computeRotationMessage (S : Serde E) (abNext : AddressBook E) (hintsVk : Bytes) :
    Result Bytes := do
  let abHash ← computeAddressbookHash abNext
  encode S.rotationMessage ⟨abHash, computeHintsVkHash E hintsVk⟩

section

variable {N : Nova E} (S : Serde E) (P : ProofSerde N)

def setupCompressedVerifier (N : Nova E) (pp : N.PublicParams) : Result N.VerifierKey := do
  let (_, inner) ← attempt "compressed verifier setup failed" (N.setup pp)
  .ok inner

def matchesState (verified : Except String (List E.Base)) (zi : List E.Base) : Bool :=
  match verified with
  | .ok z => z = zi
  | .error _ => false

def verifyUncompressedWrapsProof (pp : N.PublicParams) (runningProof ledgerId hintsVk : Bytes) :
    Result Bool := do
  let ledger ← decodeRotationMessage S ledgerId
  let running ← decode P.uncompressed runningProof
  checkOrReturnFalse (running.z0.length = 2 && running.zi.length = 2) do
    let abHash ← index running.z0 0
    let genesisHintsVkHash ← index running.z0 1
    let hintsVkHash ← index running.zi 1
    checkOrReturnFalse (abHash = ledger.addressBookHash && genesisHintsVkHash = ledger.hintsVkHash
        && hintsVkHash = computeHintsVkHash E hintsVk)
      (.ok (matchesState (N.verify running.snark pp running.numSteps running.z0) running.zi))

def verifyCompressedWrapsProof (vk : N.VerifierKey) (proofSerialized ledgerId hintsVk : Bytes) :
    Result Bool := do
  let ledger ← decodeRotationMessage S ledgerId
  let proof ← decode P.compressed proofSerialized
  checkOrReturnFalse (proof.z0.length = 2 && proof.zi.length = 2) do
    let abHash ← index proof.z0 0
    let genesisHintsVkHash ← index proof.z0 1
    let hintsVkHash ← index proof.zi 1
    let genesisOk := abHash = ledger.addressBookHash && genesisHintsVkHash = ledger.hintsVkHash
    let hintsOk := hintsVkHash = computeHintsVkHash E hintsVk
    match N.verifyCompressed proof.snark vk proof.numSteps proof.z0 with
    | .ok zi => .ok (genesisOk && hintsOk && zi = proof.zi)
    | .error _ => .ok false

/-- The native checks of `construct_wraps_proof`, and the circuit they lead to. -/
def rotationCircuit (abGenesisHash : E.Base) (prevAb nextAb : AddressBook E) (isGenesis : Bool)
    (hintsVk : Bytes) (multiSignature : BitVector × Signature E) :
    Result (RotationCircuit E) := do
  let (bitvector, signature) := multiSignature
  require (verifyAddressBook prevAb) (.invalidInput "invalid previous address book")
  require (verifyAddressBook nextAb) (.invalidInput "invalid next address book")
  let outside ← slice bitvector.toList prevAb.length maxAbSize
  require (¬ outside.any id)
    (.invalidInput "bitvector selects a seat outside the previous address book")
  let prevAb ← padAddressBook prevAb
  let nextAb ← padAddressBook nextAb
  let prevAbHash := hashAddressBook prevAb
  let nextAbHash := hashAddressBook nextAb
  require (¬ (isGenesis ∧ abGenesisHash ≠ prevAbHash)) (.invalidInput
    ("no previous proof, so this is genesis; but the previous address book does not hash to " ++
      "the genesis hash"))
  require (¬ (isGenesis ∧ nextAbHash ≠ prevAbHash))
    (.invalidInput "a genesis step must rotate the address book onto itself")
  let message ← computeRotationMessage S nextAb hintsVk
  let verified ← verifySignature S prevAb message multiSignature
  require verified (.invalidInput "Schnorr multisignature verification failed")
  let msg ← decodeRotationMessage S message
  .ok { prevAb, bitvector, sig := signature, msg }

def runningProof (pp : N.PublicParams) (prevProof : Option Bytes) (circuit : RotationCircuit E)
    (hintsVk : Bytes) : Result (UncompressedWrapsProof N) :=
  match prevProof with
  | none => do
    let z0 := [hashAddressBook circuit.prevAb, computeHintsVkHash E hintsVk]
    let snark ← attempt "could not start the chain" (N.new pp circuit z0)
    .ok { numSteps := N.numSteps snark, z0, zi := N.outputs snark, snark }
  | some bytes => do
    let running ← decode P.uncompressed bytes
    require (¬ (running.numSteps = 0 ∨ running.z0.length ≠ 2 ∨ running.zi.length ≠ 2 ∨
        running.numSteps ≠ N.numSteps running.snark ∨ running.zi ≠ N.outputs running.snark))
      (.invalidInput "previous running proof metadata does not match its SNARK")
    .ok running

def advance (pp : N.PublicParams) (abGenesisHash : E.Base) (hintsVk : Bytes)
    (circuit : RotationCircuit E) (running : UncompressedWrapsProof N) :
    Result (Bytes × Bytes) := do
  let snark ← attempt "proving the rotation failed" (N.proveStep running.snark pp circuit)
  let running := { running with snark, numSteps := N.numSteps snark, zi := N.outputs snark }
  let genesisHintsVkHash ← index running.z0 1
  let notReallyLedgerId ← encode S.rotationMessage ⟨abGenesisHash, genesisHintsVkHash⟩
  let uncompressed ← encode P.uncompressed running
  let verified ← verifyUncompressedWrapsProof S P pp uncompressed notReallyLedgerId hintsVk
  require verified (.cryptography "the uncompressed proof just produced does not verify")
  let (pk, vk) ← attempt "compressing SNARK setup failed" (N.setup pp)
  let snark ← attempt "compressing the proof failed" (N.prove pp pk running.snark)
  let compressed ← encode P.compressed { running with snark }
  let verified ← verifyCompressedWrapsProof S P vk compressed notReallyLedgerId hintsVk
  require verified (.cryptography "the compressed proof just produced does not verify")
  .ok (uncompressed, compressed)

def constructWrapsProof (pp : N.PublicParams) (abGenesisHash : E.Base)
    (prevAb nextAb : AddressBook E) (prevProof : Option Bytes) (hintsVk : Bytes)
    (multiSignature : BitVector × Signature E) : Result (Bytes × Bytes) := do
  let circuit ←
    rotationCircuit S abGenesisHash prevAb nextAb prevProof.isNone hintsVk multiSignature
  let running ← runningProof P pp prevProof circuit hintsVk
  advance S P pp abGenesisHash hintsVk circuit running

end

section

variable {N : Nova E} {S : Serde E} {P : ProofSerde N}

theorem computeAddressbookHash_ok_iff {ab : AddressBook E} {hash : E.Base} :
    computeAddressbookHash ab = .ok hash ↔
      ValidBook ab ∧ hash = hashAddressBook (paddedBook ab) := by
  simp only [computeAddressbookHash, bind_ok_iff, require_ok_iff, exists_const,
    verifyAddressBook_eq_true_iff, padAddressBook_ok_iff, Except.ok.injEq, eq_comm (b := hash)]
  constructor
  · rintro ⟨hvalid, _, ⟨-, rfl⟩, h⟩
    exact ⟨hvalid, h⟩
  · rintro ⟨hvalid, h⟩
    exact ⟨hvalid, _, ⟨hvalid.size, rfl⟩, h⟩

def rotationMessage (ab : AddressBook E) (hintsVk : Bytes) : RotationMessage E :=
  ⟨hashAddressBook (paddedBook ab), hashHintsVk E hintsVk⟩

theorem computeRotationMessage_ok_iff {ab : AddressBook E} {hintsVk bytes : Bytes} :
    computeRotationMessage S ab hintsVk = .ok bytes ↔
      ValidBook ab ∧ encode S.rotationMessage (rotationMessage ab hintsVk) = .ok bytes := by
  simp only [computeRotationMessage, bind_ok_iff, computeAddressbookHash_ok_iff]
  constructor
  · rintro ⟨_, ⟨hvalid, rfl⟩, h⟩
    exact ⟨hvalid, h⟩
  · rintro ⟨hvalid, h⟩
    exact ⟨_, ⟨hvalid, rfl⟩, h⟩

theorem decode_computeRotationMessage (hS : S.rotationMessage.RoundTrips) {ab : AddressBook E}
    {hintsVk bytes : Bytes} (h : computeRotationMessage S ab hintsVk = .ok bytes) :
    decodeRotationMessage S bytes = .ok (rotationMessage ab hintsVk) :=
  decodeRotationMessage_ok_iff.mpr (hS.decode_of_encode (computeRotationMessage_ok_iff.mp h).2)

theorem matchesState_eq_true_iff {verified : Except String (List E.Base)} {zi : List E.Base} :
    matchesState verified zi = true ↔ verified = .ok zi := by
  cases verified <;> simp [matchesState]

/-- The verdict of both verifiers: the proof starts at the ledger, carries the hints key,
and the library confirms its end. -/
def WrapsProof.accepts {Snark : Type} (proof : WrapsProof E Snark)
    (verified : Except String (List E.Base)) (ledger : RotationMessage E) (hintsVk : Bytes) :
    Bool :=
  proof.z0 = ledger.elements && proof.zi.length = 2 &&
    proof.zi[1]? = some (hashHintsVk E hintsVk) && matchesState verified proof.zi

theorem WrapsProof.accepts_eq_true_iff {Snark : Type} {proof : WrapsProof E Snark}
    {verified : Except String (List E.Base)} {ledger : RotationMessage E} {hintsVk : Bytes} :
    proof.accepts verified ledger hintsVk = true ↔ proof.z0 = ledger.elements ∧
      (∃ abHash, proof.zi = [abHash, hashHintsVk E hintsVk]) ∧ verified = .ok proof.zi := by
  have hends : (proof.zi.length = 2 ∧ proof.zi[1]? = some (hashHintsVk E hintsVk)) ↔
      ∃ abHash, proof.zi = [abHash, hashHintsVk E hintsVk] := by
    constructor
    · rintro ⟨hlen, hone⟩
      obtain ⟨a, b, hzi⟩ := List.length_eq_two.mp hlen
      rw [hzi] at hone ⊢
      exact ⟨a, by simpa using hone⟩
    · rintro ⟨abHash, hzi⟩
      simp [hzi]
  simp only [accepts, Bool.and_eq_true, decide_eq_true_eq, matchesState_eq_true_iff, ← hends,
    and_assoc]

theorem WrapsProof.accepts_of_verified {Snark : Type} {proof : WrapsProof E Snark}
    {verified : Except String (List E.Base)} (h : verified = .ok proof.zi)
    (hlen : proof.zi.length = 2) {ledger : RotationMessage E} {hintsVk : Bytes} :
    proof.accepts verified ledger hintsVk = decide (ledger.elements = proof.z0 ∧
      proof.zi[1]? = some (computeHintsVkHash E hintsVk)) := by
  rw [accepts, matchesState_eq_true_iff.mpr h, decide_eq_true hlen, Bool.and_true, Bool.and_true,
    ← Bool.decide_and, computeHintsVkHash]
  simp only [eq_comm]

theorem WrapsProof.accepts_pairs {Snark : Type} {n : ℕ} {a b c d : E.Base} {snark : Snark}
    {verified : Except String (List E.Base)} {ledger : RotationMessage E} {hintsVk : Bytes} :
    (⟨n, [a, b], [c, d], snark⟩ : WrapsProof E Snark).accepts verified ledger hintsVk =
      (a = ledger.addressBookHash && b = ledger.hintsVkHash && d = hashHintsVk E hintsVk &&
        matchesState verified [c, d]) := by
  simp [accepts, RotationMessage.elements]

theorem WrapsProof.accepts_eq_false {Snark : Type} {proof : WrapsProof E Snark}
    {verified : Except String (List E.Base)} {ledger : RotationMessage E} {hintsVk : Bytes}
    (h : ¬(proof.z0.length = 2 ∧ proof.zi.length = 2)) :
    proof.accepts verified ledger hintsVk = false := by
  rw [← Bool.not_eq_true, WrapsProof.accepts_eq_true_iff]
  rintro ⟨hz0, ⟨abHash, hzi⟩, -⟩
  exact h ⟨by rw [hz0]; rfl, by rw [hzi]; rfl⟩

theorem verifyUncompressedWrapsProof_eq {pp : N.PublicParams} {proof ledgerId hintsVk : Bytes}
    {ledger : RotationMessage E} {running : UncompressedWrapsProof N}
    (hledger : decodeRotationMessage S ledgerId = .ok ledger)
    (hproof : decode P.uncompressed proof = .ok running) :
    verifyUncompressedWrapsProof S P pp proof ledgerId hintsVk =
      .ok (running.accepts (N.verify running.snark pp running.numSteps running.z0) ledger
        hintsVk) := by
  rw [verifyUncompressedWrapsProof, hledger, ok_bind, hproof, ok_bind]
  by_cases hlen : running.z0.length = 2 ∧ running.zi.length = 2
  · obtain ⟨numSteps, z0, zi, snark⟩ := running
    obtain ⟨a, b, rfl⟩ := List.length_eq_two.mp hlen.1
    obtain ⟨c, d, rfl⟩ := List.length_eq_two.mp hlen.2
    rw [WrapsProof.accepts_pairs, ← checkOrReturnFalse_ok]
    rfl
  · rw [WrapsProof.accepts_eq_false hlen, checkOrReturnFalse, if_neg (by simpa using hlen)]

theorem verifyCompressedWrapsProof_eq {vk : N.VerifierKey} {bytes ledgerId hintsVk : Bytes}
    {ledger : RotationMessage E} {proof : CompressedWrapsProof N}
    (hledger : decodeRotationMessage S ledgerId = .ok ledger)
    (hproof : decode P.compressed bytes = .ok proof) :
    verifyCompressedWrapsProof S P vk bytes ledgerId hintsVk =
      .ok (proof.accepts (N.verifyCompressed proof.snark vk proof.numSteps proof.z0) ledger
        hintsVk) := by
  rw [verifyCompressedWrapsProof, hledger, ok_bind, hproof, ok_bind]
  by_cases hlen : proof.z0.length = 2 ∧ proof.zi.length = 2
  · obtain ⟨numSteps, z0, zi, snark⟩ := proof
    obtain ⟨a, b, rfl⟩ := List.length_eq_two.mp hlen.1
    obtain ⟨c, d, rfl⟩ := List.length_eq_two.mp hlen.2
    rw [WrapsProof.accepts_pairs]
    change (match N.verifyCompressed snark vk numSteps [a, b] with
      | .ok zi => _
      | .error _ => _) = _
    cases N.verifyCompressed snark vk numSteps [a, b] with
    | ok zi => rfl
    | error e => simp [matchesState]
  · rw [WrapsProof.accepts_eq_false hlen, checkOrReturnFalse, if_neg (by simpa using hlen)]

end

end HieroCryptography.Wraps
