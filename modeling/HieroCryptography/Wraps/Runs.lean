import HieroCryptography.Wraps.Padding
import HieroCryptography.Wraps.Chain

namespace HieroCryptography.Wraps

open Foundation Rust Synthesis

variable {E : Engine}

/-- What varies from one call of `construct_wraps_proof` to the next. -/
structure Rotation (E : Engine) where
  prevAb : AddressBook E
  nextAb : AddressBook E
  hintsVk : Bytes
  multiSignature : BitVector × Signature E

/-- Successful calls in a row: the first starts the chain, and each later one is fed the
running proof of the call before it. -/
inductive Runs {N : Nova E} (S : Serde E) (P : ProofSerde N) (pp : N.PublicParams)
    (abGenesisHash : E.Base) : List (Rotation E) → Bytes → Bytes → Prop
  | genesis {call : Rotation E} {running compressed : Bytes} :
      constructWrapsProof S P pp abGenesisHash call.prevAb call.nextAb none call.hintsVk
        call.multiSignature = .ok (running, compressed) →
      Runs S P pp abGenesisHash [call] running compressed
  | resume {calls : List (Rotation E)} {call : Rotation E}
      {running compressed running' compressed' : Bytes} :
      Runs S P pp abGenesisHash calls running compressed →
      constructWrapsProof S P pp abGenesisHash call.prevAb call.nextAb (some running) call.hintsVk
        call.multiSignature = .ok (running', compressed') →
      Runs S P pp abGenesisHash (calls ++ [call]) running' compressed'

section

variable {N : Nova E} {S : Serde E} {P : ProofSerde N} {pp : N.PublicParams}

structure Checks (abGenesisHash : E.Base) (call : Rotation E) (isGenesis : Bool)
    (circuit : RotationCircuit E) : Prop where
  book : circuit.prevAb = paddedBook call.prevAb
  length : circuit.prevAb.length = maxAbSize
  message : circuit.msg = rotationMessage call.nextAb call.hintsVk
  rules : NativeRules circuit.prevAb circuit.bitvector circuit.sig circuit.msg.elements
  genesis : isGenesis = true → hashAddressBook (paddedBook call.prevAb) = abGenesisHash ∧
    hashAddressBook (paddedBook call.nextAb) = abGenesisHash

theorem checks_of_rotationCircuit (hS : S.rotationMessage.RoundTrips) {abGenesisHash : E.Base}
    {call : Rotation E} {isGenesis : Bool} {circuit : RotationCircuit E}
    (h : rotationCircuit S abGenesisHash call.prevAb call.nextAb isGenesis call.hintsVk
      call.multiSignature = .ok circuit) : Checks abGenesisHash call isGenesis circuit := by
  obtain ⟨prevAb, nextAb, hintsVk, bitvector, sig⟩ := call
  simp only [rotationCircuit, bind_ok_iff, require_ok_iff, exists_const,
    verifyAddressBook_eq_true_iff, padAddressBook_ok_iff, decide_eq_true_eq, not_and,
    not_not, Except.ok.injEq, ne_eq] at h
  obtain ⟨hprev, hnext, -, -, -, -, ⟨-, rfl⟩, -, ⟨-, rfl⟩, hgenesis, honto, message, hmessage, -,
    hverified, rfl, msg, hmsg, rfl⟩ := h
  have hpadded : rotationMessage (paddedBook nextAb) hintsVk = rotationMessage nextAb hintsVk := by
    rw [rotationMessage, paddedBook_paddedBook hnext.size, rotationMessage]
  rw [decode_computeRotationMessage hS hmessage, Except.ok.injEq, hpadded] at hmsg
  subst hmsg
  obtain ⟨msg, hmsg, hsigned⟩ := verifySignature_ok_true_iff.mp hverified
  rw [decode_computeRotationMessage hS hmessage, Except.ok.injEq, hpadded] at hmsg
  subst hmsg
  refine ⟨rfl, length_paddedBook hprev.size, rfl, ?_, fun htrue ↦ ?_⟩
  · have hrules := (nativeRules_paddedBook_iff hsigned.valid).mpr
      ⟨hsigned.majority, hsigned.joint, hsigned.verified⟩
    rwa [paddedBook_paddedBook hprev.size] at hrules
  · exact ⟨(hgenesis htrue).symm, (honto htrue).trans (hgenesis htrue).symm⟩

/-- The two byte strings carry proofs of one statement, and the library confirms both. -/
structure ProofPair (P : ProofSerde N) (pp : N.PublicParams) (running compressed : Bytes)
    (numSteps : ℕ) (z0 zi : List E.Base) (snark : N.RecursiveSNARK) : Prop where
  running : decode P.uncompressed running = .ok ⟨numSteps, z0, zi, snark⟩
  verified : N.verify snark pp numSteps z0 = .ok zi
  compressed : ∃ pk vk csnark, N.setup pp = .ok (pk, vk) ∧
    decode P.compressed compressed = .ok ⟨numSteps, z0, zi, csnark⟩ ∧
      N.verifyCompressed csnark vk numSteps z0 = .ok zi

theorem verifyCompressedWrapsProof_congr {P' : ProofSerde N} {proof proof' : Bytes}
    (h : decode P'.compressed proof' = decode P.compressed proof) (vk : N.VerifierKey)
    (ledgerId hintsVk : Bytes) : verifyCompressedWrapsProof S P' vk proof' ledgerId hintsVk =
      verifyCompressedWrapsProof S P vk proof ledgerId hintsVk := by
  rw [verifyCompressedWrapsProof, h, verifyCompressedWrapsProof]

/-- What a step proves does not depend on the format of the compressed proofs. -/
theorem constructWrapsProof_recompressed (hC : P.compressed.RoundTrips) {abGenesisHash : E.Base}
    {prevAb nextAb : AddressBook E} {prevProof : Option Bytes} {hintsVk : Bytes}
    {multiSignature : BitVector × Signature E} {running compressed : Bytes}
    (h : constructWrapsProof S P pp abGenesisHash prevAb nextAb prevProof hintsVk multiSignature =
      .ok (running, compressed)) :
    ∃ proof, ∀ (T : Bincode (CompressedWrapsProof N)) (bytes : Bytes), T.RoundTrips →
      encode T proof = .ok bytes →
      constructWrapsProof S ⟨P.uncompressed, T⟩ pp abGenesisHash prevAb nextAb prevProof hintsVk
        multiSignature = .ok (running, bytes) := by
  simp only [constructWrapsProof, advance, bind_ok_iff, require_ok_iff, exists_const,
    Except.ok.injEq, Prod.mk.injEq] at h
  obtain ⟨circuit, hcircuit, before, hbefore, snark, hsnark, hash, hhash, ledgerId, hledger,
    uncompressed, huncompressed, _, hverified, rfl, ⟨pk, vk⟩, hsetup, csnark, hcsnark, bytes,
    hbytes, _, hverified', rfl, rfl, rfl⟩ := h
  refine ⟨⟨N.numSteps snark, before.z0, N.outputs snark, csnark⟩, fun T bytes' hT hbytes' ↦ ?_⟩
  have hdecode := (hT.decode_of_encode hbytes').trans (hC.decode_of_encode hbytes).symm
  simp only [constructWrapsProof, advance, bind_ok_iff, require_ok_iff, exists_const,
    Except.ok.injEq, Prod.mk.injEq]
  exact ⟨circuit, hcircuit, before, hbefore, snark, hsnark, hash, hhash, ledgerId, hledger,
    uncompressed, huncompressed, _, hverified, rfl, (pk, vk), hsetup, csnark, hcsnark, bytes',
    hbytes', _, (verifyCompressedWrapsProof_congr hdecode vk ledgerId hintsVk).trans hverified',
    rfl, rfl, rfl⟩

/-- A successful step hands out a pair of proofs of the advanced statement, which starts at
the genesis hash and ends with the hints key of the call. -/
theorem proofPair_of_advance (hS : S.rotationMessage.RoundTrips)
    (hU : P.uncompressed.RoundTrips) (hC : P.compressed.RoundTrips) {abGenesisHash : E.Base}
    {hintsVk : Bytes} {circuit : RotationCircuit E} {proof : UncompressedWrapsProof N}
    {running compressed : Bytes}
    (h : advance S P pp abGenesisHash hintsVk circuit proof = .ok (running, compressed)) :
    ∃ snark, N.proveStep proof.snark pp circuit = .ok snark ∧
      ProofPair P pp running compressed (N.numSteps snark) proof.z0 (N.outputs snark) snark ∧
      ∃ genesisHintsVkHash, proof.z0 = [abGenesisHash, genesisHintsVkHash] := by
  simp only [advance, bind_ok_iff, attempt_ok_iff, require_ok_iff, Except.ok.injEq,
    Prod.mk.injEq] at h
  obtain ⟨snark, hstep, hash, hhash, ledgerId, hledger, bytes, hbytes, -, hverified, -, rfl,
    ⟨pk, vk⟩, hsetup, csnark, hprove, bytes', hbytes', -, hverified', -, rfl, rfl, rfl⟩ := h
  have hledger := decodeRotationMessage_ok_iff.mpr (hS.decode_of_encode hledger)
  have hbytes := hU.decode_of_encode hbytes
  have hbytes' := hC.decode_of_encode hbytes'
  rw [verifyUncompressedWrapsProof_eq hledger hbytes, Except.ok.injEq,
    WrapsProof.accepts_eq_true_iff] at hverified
  rw [verifyCompressedWrapsProof_eq hledger hbytes', Except.ok.injEq,
    WrapsProof.accepts_eq_true_iff] at hverified'
  exact ⟨snark, hstep, ⟨hbytes, hverified.2.2, pk, vk, csnark, hsetup, hbytes', hverified'.2.2⟩,
    hash, hverified.1⟩

theorem ProofPair.verdict {running compressed : Bytes} {numSteps : ℕ} {z0 zi : List E.Base}
    {snark : N.RecursiveSNARK} (h : ProofPair P pp running compressed numSteps z0 zi snark)
    (hlen : zi.length = 2) {ledgerId hintsVk : Bytes} {ledger : RotationMessage E}
    (hledger : decodeRotationMessage S ledgerId = .ok ledger) {vk : N.VerifierKey}
    (hvk : setupCompressedVerifier N pp = .ok vk) :
    verifyUncompressedWrapsProof S P pp running ledgerId hintsVk =
        .ok (decide (ledger.elements = z0 ∧ zi[1]? = some (computeHintsVkHash E hintsVk))) ∧
      verifyCompressedWrapsProof S P vk compressed ledgerId hintsVk =
        .ok (decide (ledger.elements = z0 ∧ zi[1]? = some (computeHintsVkHash E hintsVk))) := by
  obtain ⟨pk, vk', csnark, hsetup, hcompressed, hverified⟩ := h.compressed
  obtain rfl : vk' = vk := by
    simpa [setupCompressedVerifier, hsetup, attempt] using hvk
  rw [verifyUncompressedWrapsProof_eq hledger h.running,
    WrapsProof.accepts_of_verified h.verified hlen,
    verifyCompressedWrapsProof_eq hledger hcompressed,
    WrapsProof.accepts_of_verified hverified hlen]
  exact ⟨rfl, rfl⟩

end

section Ideal

variable {G : Gadgets E} {S : Serde E} {P : ProofSerde (idealNova G)}
  {pp : (idealNova G).PublicParams}

/-- What a run has attained: proofs of a statement with as many steps as calls, from the
genesis hash and the first hints key to the last book and its hints key. -/
structure Attained (P : ProofSerde (idealNova G)) (pp : (idealNova G).PublicParams)
    (abGenesisHash : E.Base) (calls : List (Rotation E)) (running compressed : Bytes)
    (first last : Rotation E) : Prop where
  head : calls.head? = some first
  getLast : calls.getLast? = some last
  proofs : ∃ snark, ProofPair P pp running compressed calls.length
    [abGenesisHash, computeHintsVkHash E first.hintsVk]
    (rotationMessage last.nextAb last.hintsVk).elements snark
  prevGenesis : hashAddressBook (paddedBook first.prevAb) = abGenesisHash
  nextGenesis : hashAddressBook (paddedBook first.nextAb) = abGenesisHash
  chained : calls.IsChain fun a b ↦
    hashAddressBook (paddedBook b.prevAb) = hashAddressBook (paddedBook a.nextAb)

theorem attained_genesis (hE : G.Enforcing) (hS : G.Serving)
    (hR : S.rotationMessage.RoundTrips) (hU : P.uncompressed.RoundTrips)
    (hC : P.compressed.RoundTrips) {abGenesisHash : E.Base} {call : Rotation E}
    {running compressed : Bytes}
    (h : constructWrapsProof S P pp abGenesisHash call.prevAb call.nextAb none call.hintsVk
      call.multiSignature = .ok (running, compressed)) :
    Attained P pp abGenesisHash [call] running compressed call call := by
  simp only [constructWrapsProof, bind_ok_iff] at h
  obtain ⟨circuit, hcircuit, proof, hproof, hadvance⟩ := h
  have hchecks := checks_of_rotationCircuit hR hcircuit
  obtain ⟨hprev, hnext⟩ := hchecks.genesis rfl
  simp only [runningProof, bind_ok_iff, attempt_ok_iff, Except.ok.injEq] at hproof
  obtain ⟨snark, hnew, rfl⟩ := hproof
  obtain ⟨zi, hstep, rfl⟩ := idealNova_new_ok_iff.mp hnew
  obtain ⟨-, rfl⟩ := (idealStep_iff hE hS hchecks.length hchecks.rules).mp hstep
  obtain ⟨snark', hprove, hpair, -⟩ := proofPair_of_advance hR hU hC hadvance
  rw [idealNova_first_proveStep circuit rfl] at hprove
  cases hprove
  rw [hchecks.book, hchecks.message, hprev] at hpair
  exact ⟨rfl, rfl, ⟨_, hpair⟩, hprev, hnext, .singleton call⟩

theorem attained_resume (hE : G.Enforcing) (hS : G.Serving)
    (hR : S.rotationMessage.RoundTrips) (hU : P.uncompressed.RoundTrips)
    (hC : P.compressed.RoundTrips) {abGenesisHash : E.Base} {calls : List (Rotation E)}
    {call first last : Rotation E} {running compressed running' compressed' : Bytes}
    (hattained : Attained P pp abGenesisHash calls running compressed first last)
    (h : constructWrapsProof S P pp abGenesisHash call.prevAb call.nextAb (some running)
      call.hintsVk call.multiSignature = .ok (running', compressed')) :
    Attained P pp abGenesisHash (calls ++ [call]) running' compressed' first call := by
  obtain ⟨snark, hpair⟩ := hattained.proofs
  obtain ⟨hpos, hcount, -, -, -, hzi⟩ := IdealProof.verify_ok_iff.mp hpair.verified
  simp only [constructWrapsProof, bind_ok_iff] at h
  obtain ⟨circuit, hcircuit, proof, hproof, hadvance⟩ := h
  have hchecks := checks_of_rotationCircuit hR hcircuit
  simp only [runningProof, bind_ok_iff, hpair.running, Except.ok.injEq, exists_eq_left'] at hproof
  obtain ⟨-, -, rfl⟩ := hproof
  obtain ⟨snark', hprove, hpair', -⟩ := proofPair_of_advance hR hU hC hadvance
  have hstarted : IdealProof.numSteps snark ≠ 0 := hcount ▸ hpos
  obtain ⟨zi, hstep, rfl⟩ := (idealNova_proveStep_ok_iff hstarted).mp hprove
  obtain ⟨⟨b, hcommit⟩, rfl⟩ := (idealStep_iff hE hS hchecks.length hchecks.rules).mp hstep
  -- The state the step starts from is the one the last call has signed.
  have hchained : hashAddressBook (paddedBook call.prevAb) =
      hashAddressBook (paddedBook last.nextAb) := by
    rw [hzi, hchecks.book] at hcommit
    exact (List.cons.inj hcommit).1.symm
  refine ⟨?_, List.getLast?_concat, ?_, hattained.prevGenesis, hattained.nextGenesis, ?_⟩
  · rw [List.head?_append, hattained.head, Option.some_or]
  · rw [List.length_append, List.length_singleton, ← hchecks.message, ← hcount]
    exact ⟨_, hpair'⟩
  · refine List.isChain_append.mpr ⟨hattained.chained, .singleton call, ?_⟩
    intro a ha b hb
    rw [hattained.getLast] at ha
    cases ha
    cases hb
    exact hchained

theorem attained_of_runs (hE : G.Enforcing) (hS : G.Serving)
    (hR : S.rotationMessage.RoundTrips) (hU : P.uncompressed.RoundTrips)
    (hC : P.compressed.RoundTrips) {abGenesisHash : E.Base} {calls : List (Rotation E)}
    {running compressed : Bytes} (h : Runs S P pp abGenesisHash calls running compressed) :
    ∃ first last, Attained P pp abGenesisHash calls running compressed first last := by
  induction h with
  | genesis h => exact ⟨_, _, attained_genesis hE hS hR hU hC h⟩
  | resume _ h ih =>
    obtain ⟨first, last, hattained⟩ := ih
    exact ⟨first, _, attained_resume hE hS hR hU hC hattained h⟩

theorem exists_advance (hR : S.rotationMessage.RoundTrips) (hU : P.uncompressed.RoundTrips)
    (hC : P.compressed.RoundTrips) {abGenesisHash h a : E.Base} {hintsVk : Bytes}
    {circuit : RotationCircuit E} (proof : WrapsProof E (IdealProof E)) {snark : IdealProof E}
    (hstep : (idealNova G).proveStep proof.snark pp circuit = .ok snark)
    (hz0 : proof.z0 = [abGenesisHash, h]) (hsame : snark.z0 = proof.z0)
    (hzi : snark.zi = [a, hashHintsVk E hintsVk])
    (hverify : snark.verify G snark.numSteps snark.z0 = .ok snark.zi) :
    ∃ running compressed,
      advance S P pp abGenesisHash hintsVk circuit proof = .ok (running, compressed) := by
  let statement : WrapsProof E (IdealProof E) := ⟨snark.numSteps, proof.z0, snark.zi, snark⟩
  obtain ⟨ledgerId, hledger, hledger'⟩ := hR.decode_encode ⟨abGenesisHash, h⟩
  obtain ⟨running, hrunning, hrunning'⟩ := hU.decode_encode statement
  obtain ⟨compressed, hcompressed, hcompressed'⟩ := hC.decode_encode statement
  have hprove : (idealNova G).prove pp () snark = .ok snark := by
    change (snark.verify G snark.numSteps snark.z0).map _ = _
    rw [hverify]
    rfl
  obtain ⟨htrue, htrue'⟩ := idealNova_accepts pp () (decodeRotationMessage_ok_iff.mpr hledger')
    hrunning' hcompressed' hz0 hzi (hsame ▸ hverify)
  refine ⟨running, compressed, ?_⟩
  simp only [advance, bind_ok_iff, attempt_ok_iff, require_ok_iff, Except.ok.injEq]
  exact ⟨snark, hstep, h, index_ok_iff.mpr (by rw [hz0]; rfl), ledgerId, hledger, running, hrunning,
    true, htrue, (), rfl, ((), ()), rfl, snark, hprove, compressed, hcompressed, true, htrue', (),
    rfl, rfl⟩

theorem construct_genesis_succeeds (pp : (idealNova G).PublicParams) (hE : G.Enforcing)
    (hS : G.Serving) (hR : S.rotationMessage.RoundTrips) (hU : P.uncompressed.RoundTrips)
    (hC : P.compressed.RoundTrips) {abGenesisHash : E.Base} (call : Rotation E)
    {circuit : RotationCircuit E}
    (h : rotationCircuit S abGenesisHash call.prevAb call.nextAb true call.hintsVk
      call.multiSignature = .ok circuit) :
    ∃ running compressed, constructWrapsProof S P pp abGenesisHash call.prevAb call.nextAb none
      call.hintsVk call.multiSignature = .ok (running, compressed) := by
  have hchecks := checks_of_rotationCircuit hR h
  have hhash : hashAddressBook circuit.prevAb = abGenesisHash := by
    rw [hchecks.book]
    exact (hchecks.genesis rfl).1
  let z0 := [hashAddressBook circuit.prevAb, computeHintsVkHash E call.hintsVk]
  have hstep : idealStep G circuit z0 = some circuit.msg.elements :=
    (idealStep_iff hE hS hchecks.length hchecks.rules).mpr ⟨⟨_, rfl⟩, rfl⟩
  let started : IdealProof E := ⟨z0, circuit.msg.elements, [circuit], 0⟩
  have hnew : (idealNova G).new pp circuit z0 = .ok started :=
    idealNova_new_ok_iff.mpr ⟨_, hstep, rfl⟩
  have hprove : (idealNova G).proveStep started pp circuit = .ok _ :=
    idealNova_first_proveStep circuit rfl
  have hrunning : runningProof P pp none circuit call.hintsVk =
      .ok ⟨0, z0, circuit.msg.elements, started⟩ := by
    simp only [runningProof]
    rw [attempt_ok_iff.mpr hnew]
    rfl
  obtain ⟨running, compressed, hadvance⟩ := exists_advance hR hU hC
    ⟨0, z0, circuit.msg.elements, started⟩ hprove (congrArg (fun a ↦ [a, _]) hhash) rfl
    (congrArg RotationMessage.elements hchecks.message)
    (IdealProof.verify_ok_iff.mpr ⟨one_ne_zero, rfl, rfl, rfl,
      (replay_singleton z0 circuit).trans hstep, rfl⟩)
  refine ⟨running, compressed, ?_⟩
  rw [constructWrapsProof, Option.isNone_none, h, ok_bind, hrunning, ok_bind]
  exact hadvance

theorem construct_resume_succeeds (hE : G.Enforcing) (hS : G.Serving)
    (hR : S.rotationMessage.RoundTrips) (hU : P.uncompressed.RoundTrips)
    (hC : P.compressed.RoundTrips) {abGenesisHash : E.Base} {calls : List (Rotation E)}
    {first last : Rotation E} {running compressed : Bytes}
    (hattained : Attained P pp abGenesisHash calls running compressed first last)
    (call : Rotation E) {circuit : RotationCircuit E}
    (h : rotationCircuit S abGenesisHash call.prevAb call.nextAb false call.hintsVk
      call.multiSignature = .ok circuit)
    (hchained : hashAddressBook (paddedBook call.prevAb) =
      hashAddressBook (paddedBook last.nextAb)) :
    ∃ running' compressed', constructWrapsProof S P pp abGenesisHash call.prevAb call.nextAb
      (some running) call.hintsVk call.multiSignature = .ok (running', compressed') := by
  have hchecks := checks_of_rotationCircuit hR h
  obtain ⟨snark, hpair⟩ := hattained.proofs
  obtain ⟨hpos, hcount, hz0, hlen, hreplay, hzi⟩ := IdealProof.verify_ok_iff.mp hpair.verified
  have hstep : idealStep G circuit (IdealProof.zi snark) = some circuit.msg.elements := by
    rw [hzi, RotationMessage.elements, rotationMessage, ← hchained, ← hchecks.book]
    exact (idealStep_iff hE hS hchecks.length hchecks.rules).mpr ⟨⟨_, rfl⟩, rfl⟩
  have hstarted : IdealProof.numSteps snark ≠ 0 := hcount ▸ hpos
  have hprove : (idealNova G).proveStep snark pp circuit = .ok _ :=
    (idealNova_proveStep_ok_iff hstarted).mpr ⟨_, hstep, rfl⟩
  have hrunning : runningProof P pp (some running) circuit call.hintsVk =
      .ok ⟨calls.length, [abGenesisHash, computeHintsVkHash E first.hintsVk],
        (rotationMessage last.nextAb last.hintsVk).elements, snark⟩ := by
    simp only [runningProof, hpair.running, ok_bind]
    refine bind_ok_iff.mpr ⟨(), require_ok_iff.mpr ?_, rfl⟩
    simp only [not_or, ne_eq, not_not, decide_eq_true_eq]
    exact ⟨hpos, rfl, rfl, hcount.symm, hzi.symm⟩
  have hreplay' : replay G (IdealProof.z0 snark) (IdealProof.steps snark ++ [circuit]) =
      some circuit.msg.elements := by
    rw [hz0, replay_append_singleton hreplay circuit, ← hzi, hstep]
  have hlen' : (IdealProof.steps snark ++ [circuit]).length = IdealProof.numSteps snark + 1 := by
    rw [List.length_append, List.length_singleton, hlen, hcount]
  obtain ⟨running', compressed', hadvance⟩ := exists_advance hR hU hC
    ⟨calls.length, _, _, snark⟩ hprove rfl hz0
    (congrArg RotationMessage.elements hchecks.message)
    (IdealProof.verify_ok_iff.mpr ⟨Nat.succ_ne_zero _, rfl, rfl, hlen', hreplay', rfl⟩)
  refine ⟨running', compressed', ?_⟩
  rw [constructWrapsProof, Option.isNone_some, h, ok_bind, hrunning, ok_bind]
  exact hadvance

/-- Successful runs of proof construction over the ideal library, of any length. The books
are chained from the genesis book on, both proofs carry the statement of the whole run, and
both verifiers accept them exactly for its ledger and its last hints key. -/
theorem construct_runs_attain (hE : G.Enforcing) (hS : G.Serving)
    (hR : S.rotationMessage.RoundTrips) (hU : P.uncompressed.RoundTrips)
    (hC : P.compressed.RoundTrips) {abGenesisHash : E.Base} {calls : List (Rotation E)}
    {running compressed : Bytes} (h : Runs S P pp abGenesisHash calls running compressed) :
    ∃ first last, calls.head? = some first ∧ calls.getLast? = some last ∧
      (calls.IsChain fun a b ↦
        hashAddressBook (paddedBook b.prevAb) = hashAddressBook (paddedBook a.nextAb)) ∧
      hashAddressBook (paddedBook first.prevAb) = abGenesisHash ∧
      hashAddressBook (paddedBook first.nextAb) = abGenesisHash ∧
      ∃ u c, decode P.uncompressed running = .ok u ∧ decode P.compressed compressed = .ok c ∧
        u.numSteps = calls.length ∧ u.z0 = [abGenesisHash, computeHintsVkHash E first.hintsVk] ∧
        u.zi = [hashAddressBook (paddedBook last.nextAb), computeHintsVkHash E last.hintsVk] ∧
        c.numSteps = u.numSteps ∧ c.z0 = u.z0 ∧ c.zi = u.zi ∧
        ∀ ledgerId ledger hintsVk vk, decodeRotationMessage S ledgerId = .ok ledger →
          setupCompressedVerifier (idealNova G) pp = .ok vk →
          verifyUncompressedWrapsProof S P pp running ledgerId hintsVk =
              .ok (decide (ledger.elements = u.z0 ∧
                u.zi[1]? = some (computeHintsVkHash E hintsVk))) ∧
            verifyCompressedWrapsProof S P vk compressed ledgerId hintsVk =
              .ok (decide (ledger.elements = u.z0 ∧
                u.zi[1]? = some (computeHintsVkHash E hintsVk))) := by
  obtain ⟨first, last, hattained⟩ := attained_of_runs hE hS hR hU hC h
  obtain ⟨snark, hpair⟩ := hattained.proofs
  obtain ⟨pk, vk', csnark, -, hcompressed, -⟩ := hpair.compressed
  refine ⟨first, last, hattained.head, hattained.getLast, hattained.chained,
    hattained.prevGenesis, hattained.nextGenesis, _, _, hpair.running, hcompressed, rfl, rfl, rfl,
    rfl, rfl, rfl, fun ledgerId ledger hintsVk vk hledger hvk ↦ ?_⟩
  exact hpair.verdict rfl hledger hvk

end Ideal

def pairRotation (hintsVk : Bytes) : Rotation markedLine :=
  ⟨pairBook markedLine, pairBook markedLine, hintsVk, pairBits, 0, 0⟩

theorem rotationCircuit_pair (isGenesis : Bool) (hintsVk : Bytes) :
    rotationCircuit (codeSerde markedLine) 1 (pairBook markedLine) (pairBook markedLine) isGenesis
      hintsVk (pairBits, ⟨0, 0⟩) = .ok (pairCircuit hintsVk) := by
  have hsize : (pairBook markedLine).length + (maxAbSize - (pairBook markedLine).length) ≤
      maxAbSize := show 3 + (64 - 3) ≤ 64 by decide
  obtain ⟨message, hmessage⟩ := exists_pairLedger hintsVk
  have hdecoded := decode_computeRotationMessage (Bincode.ofEncodable_roundTrips _) hmessage
  have hpadded : computeRotationMessage (codeSerde markedLine)
      (paddedBook (pairBook markedLine)) hintsVk = .ok message := by
    rw [computeRotationMessage, paddedBook, computeAddressbookHash_append_padding hsize]
    exact hmessage
  have hverified : verifySignature (codeSerde markedLine) (paddedBook (pairBook markedLine)) message
      (pairBits, ⟨0, 0⟩) = .ok true := by
    rw [paddedBook, verifySignature_append_padding _ hsize message pairBits_inside]
    exact verifySignature_ok_true_iff.mpr ⟨_, hdecoded, pairBook_signed (verify_marked _ _ _)⟩
  have hslice : (slice pairBits.toList (pairBook markedLine).length maxAbSize :
      Result (List Bool)) = _ := slice_outside_ok_iff.mpr ⟨pairBook_valid.size, rfl⟩
  simp only [rotationCircuit, verifyAddressBook_eq_true_iff.mpr pairBook_valid, require_true,
    ok_bind, hslice, any_drop_eq_false le_rfl pairBits_inside,
    padAddressBook_ok_iff.mpr ⟨pairBook_valid.size, rfl⟩, hash_pair, hpadded, hverified, hdecoded]
  simp
  rfl

theorem construct_runs_attain_pair : ∃ running compressed,
    Runs (codeSerde markedLine) (codeProofSerde markedGadgets) () 1
        [pairRotation [], pairRotation [7]] running compressed ∧
      ∃ u, decode (codeProofSerde markedGadgets).uncompressed running = .ok u ∧ u.numSteps = 2 := by
  have hE := directGadgets_enforcing markedDecoder
  have hS := directGadgets_serving markedDecoder
  have hR := Bincode.ofEncodable_roundTrips (RotationMessage markedLine)
  have hP := Bincode.ofEncodable_roundTrips (WrapsProof markedLine (IdealProof markedLine))
  obtain ⟨running, compressed, hfirst⟩ :=
    construct_genesis_succeeds (P := codeProofSerde markedGadgets) () hE hS hR hP hP
      (pairRotation []) (rotationCircuit_pair true [])
  have hattained := attained_genesis hE hS hR hP hP hfirst
  obtain ⟨running', compressed', hsecond⟩ :=
    construct_resume_succeeds hE hS hR hP hP hattained (pairRotation [7])
      (rotationCircuit_pair false [7]) rfl
  have hruns := (Runs.genesis hfirst).resume hsecond
  obtain ⟨_, _, _, _, _, _, _, u, _, hu, _, hsteps, -⟩ :=
    construct_runs_attain hE hS hR hP hP hruns
  exact ⟨running', compressed', hruns, u, hu, hsteps⟩

end HieroCryptography.Wraps
