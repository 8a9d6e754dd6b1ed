import HieroCryptography.Wraps.IdealNova
import HieroCryptography.Wraps.Refinement

namespace HieroCryptography.Wraps

open Foundation Rust Synthesis

variable {E : Engine} {G : Gadgets E}

/-- Some advice and some assignment satisfy the circuit between the two states. -/
def SatisfiedStep (G : Gadgets E) (z z' : List E.Base) : Prop :=
  ∃ (self : RotationCircuit E) (zIn zOut : List (AllocatedNum E.Base))
    (cs cs' : ConstraintSystem E.Base) (v : ℕ → E.Base),
    self.synthesize G zIn cs = .ok (zOut, cs') ∧ cs'.Satisfied v ∧
      zIn.map (AllocatedNum.eval v) = z ∧ zOut.map (AllocatedNum.eval v) = z'

structure IsChain (G : Gadgets E) (m : ℕ) (z0 zm : List E.Base) (states : ℕ → List E.Base) :
    Prop where
  nonempty : 1 ≤ m
  start : states 0 = z0
  finish : states m = zm
  step : ∀ i < m, SatisfiedStep G (states i) (states (i + 1))

/-- What is assumed of a verifier of the proof library: behind every proof it accepts there
is a chain of satisfied steps between the states it confirms. -/
structure Extractor (G : Gadgets E) {Snark : Type}
    (verify : Snark → ℕ → List E.Base → Except String (List E.Base)) where
  states : Snark → ℕ → List E.Base → ℕ → List E.Base
  sound : ∀ snark m z0 zm, verify snark m z0 = .ok zm → IsChain G m z0 zm (states snark m z0)

def CommitsTo (z : List E.Base) (ab : AddressBook E) : Prop :=
  z[0]? = some (hashAddressBook (paddedBook ab))

/-- The trust boundary, on the states of one chain: the books on it are the only known
preimages of their commitments, and what one of them signs with a strict majority has been
built by `compute_rotation_message`. -/
structure TrustBoundary (S : Serde E) (m : ℕ) (states : ℕ → List E.Base) : Prop where
  binds : ∀ i < m, ∀ ab, ValidBook ab → CommitsTo (states i) ab → BindsBook (paddedBook ab)
  endorsed : ∀ i < m, ∀ ab, ValidBook ab → CommitsTo (states i) ab → ∀ bitvector sig,
    NativeRules (paddedBook ab) bitvector sig (states (i + 1)) →
      ∃ next hintsVk bytes message, computeRotationMessage S next hintsVk = .ok bytes ∧
        decodeRotationMessage S bytes = .ok message ∧ states (i + 1) = message.elements

/-- A chain of `m` rotations from the genesis book, each authorised by the book before. -/
structure AuthorisedChain (genesis : AddressBook E) (ledger : RotationMessage E)
    (hintsVk : Bytes) (m : ℕ) (z : ℕ → List E.Base) (books : ℕ → AddressBook E) : Prop where
  nonempty : 1 ≤ m
  start : z 0 = ledger.elements
  genesis : books 0 = genesis
  valid : ∀ i < m, ValidBook (books i)
  commits : ∀ i < m, CommitsTo (z i) (books i)
  unique : ∀ i < m, ∀ other : AddressBook E, other.length = maxAbSize →
    (z i)[0]? = some (hashAddressBook other) →
      other.map seatData = (paddedBook (books i)).map seatData
  authorised : ∀ i < m, ∃ bitvector sig,
    totalWeight (books i) < 2 * signingWeight (books i) bitvector ∧
      (signingSubset (books i) bitvector).sum ≠ 0 ∧
        Schnorr.verify (signingSubset (books i) bitvector).sum (z (i + 1)) sig = true
  finish : (z m)[1]? = some (hashHintsVk E hintsVk)

theorem rules_of_satisfiedStep (hG : G.Enforcing) {ab : AddressBook E} (hvalid : ValidBook ab)
    (hbind : BindsBook (paddedBook ab)) {z z' : List E.Base} (hcommits : CommitsTo z ab)
    (hstep : SatisfiedStep G z z') :
    ∃ bitvector sig, NativeRules (paddedBook ab) bitvector sig z' := by
  obtain ⟨self, zIn, zOut, cs, cs', v, hrun, hsat, rfl, rfl⟩ := hstep
  rw [CommitsTo, List.getElem?_map, Option.map_eq_some_iff] at hcommits
  obtain ⟨z0, hz0, heval⟩ := hcommits
  exact (sound_synthesize hG self zIn cs zOut cs' hrun).2 v hsat _
    (length_paddedBook hvalid.size) hbind z0 hz0 heval

theorem exists_book (hG : G.Enforcing) {S : Serde E} (hS : S.rotationMessage.RoundTrips) {m : ℕ}
    {states : ℕ → List E.Base} (hstep : ∀ i < m, SatisfiedStep G (states i) (states (i + 1)))
    (htrust : TrustBoundary S m states) {genesis : AddressBook E} (hgenesis : ValidBook genesis)
    (hstart : CommitsTo (states 0) genesis) (i : ℕ) (hi : i < m) :
    ∃ ab, ValidBook ab ∧ CommitsTo (states i) ab := by
  induction i with
  | zero => exact ⟨genesis, hgenesis, hstart⟩
  | succ i ih =>
    obtain ⟨ab, hvalid, hcommits⟩ := ih (by omega)
    obtain ⟨bitvector, sig, hrules⟩ := rules_of_satisfiedStep hG hvalid
      (htrust.binds i (by omega) ab hvalid hcommits) hcommits (hstep i (by omega))
    obtain ⟨next, hintsVk, bytes, message, hbytes, hmessage, hstate⟩ :=
      htrust.endorsed i (by omega) ab hvalid hcommits bitvector sig hrules
    rw [decode_computeRotationMessage hS hbytes, Except.ok.injEq] at hmessage
    subst hmessage
    refine ⟨next, (computeRotationMessage_ok_iff.mp hbytes).1, ?_⟩
    rw [CommitsTo, hstate]
    rfl

theorem BindsBook.seatData_eq {ab other : AddressBook E} (hbind : BindsBook ab)
    (hlen : other.length = maxAbSize) (hhash : hashAddressBook other = hashAddressBook ab) :
    other.map seatData = ab.map seatData := by
  refine elements_eq_iff.mp (hbind _ ?_ hhash)
  rw [length_flatMap_entryElements, hlen]

theorem authorisedChain_of_isChain (hG : G.Enforcing) {S : Serde E}
    (hS : S.rotationMessage.RoundTrips) {genesis : AddressBook E} {genesisVk hintsVk : Bytes}
    (hgenesis : ValidBook genesis) {m : ℕ} {zm : List E.Base} {states : ℕ → List E.Base}
    (hchain : IsChain G m (rotationMessage genesis genesisVk).elements zm states)
    (htrust : TrustBoundary S m states) (hfinish : zm[1]? = some (hashHintsVk E hintsVk)) :
    ∃ books,
      AuthorisedChain genesis (rotationMessage genesis genesisVk) hintsVk m states books := by
  have hstart : CommitsTo (states 0) genesis := by
    rw [CommitsTo, hchain.start]
    rfl
  choose! book hvalid hcommits using
    exists_book hG hS hchain.step htrust hgenesis hstart
  let books : ℕ → AddressBook E := fun i ↦ if i = 0 then genesis else book i
  have hbooks : ∀ i < m, ValidBook (books i) ∧ CommitsTo (states i) (books i) := by
    intro i hi
    by_cases hzero : i = 0
    · simp only [books, hzero, if_true]
      exact ⟨hgenesis, hstart⟩
    · simp only [books, hzero, if_false]
      exact ⟨hvalid i hi, hcommits i hi⟩
  refine ⟨books, hchain.nonempty, hchain.start, rfl, fun i hi ↦ (hbooks i hi).1,
    fun i hi ↦ (hbooks i hi).2, ?_, ?_, by rwa [hchain.finish]⟩
  · intro i hi other hlen hhash
    have hbind := htrust.binds i hi _ (hbooks i hi).1 (hbooks i hi).2
    exact hbind.seatData_eq hlen (Option.some.inj (hhash.symm.trans (hbooks i hi).2))
  · intro i hi
    have hbind := htrust.binds i hi _ (hbooks i hi).1 (hbooks i hi).2
    obtain ⟨bitvector, sig, hrules⟩ :=
      rules_of_satisfiedStep hG (hbooks i hi).1 hbind (hbooks i hi).2 (hchain.step i hi)
    exact ⟨bitvector, sig, (nativeRules_paddedBook_iff (hbooks i hi).1).mp hrules⟩

theorem satisfiedStep_of_idealStep (hG : G.Enforcing) {circuit : RotationCircuit E}
    {z z' : List E.Base} (h : idealStep G circuit z = some z') : SatisfiedStep G z z' := by
  obtain ⟨zOut, cs, hrun, hsat, rfl⟩ := idealStep_eq_some_iff.mp h
  have hagrees := (sound_synthesize hG circuit _ _ _ _ hrun).1.agrees cs.agrees_witness
  exact ⟨circuit, _, zOut, _, cs, cs.witness, hrun, hsat, eval_stateInputs hagrees, rfl⟩

theorem replay_take_succ {z0 zi : List E.Base} {steps : List (RotationCircuit E)}
    (h : replay G z0 steps = some zi) {i : ℕ} (hi : i < steps.length) :
    ∃ z z', replay G z0 (steps.take i) = some z ∧ replay G z0 (steps.take (i + 1)) = some z' ∧
      idealStep G steps[i] z = some z' := by
  have hsplit : steps = steps.take (i + 1) ++ steps.drop (i + 1) := (List.take_append_drop ..).symm
  rw [hsplit, replay, List.foldlM_append, Option.bind_eq_bind, Option.bind_eq_some_iff] at h
  obtain ⟨z', hz', -⟩ := h
  have hz := hz'
  rw [List.take_succ_eq_append_getElem hi, List.foldlM_append, Option.bind_eq_bind,
    Option.bind_eq_some_iff] at hz
  obtain ⟨z, hz, hlast⟩ := hz
  refine ⟨z, z', hz, hz', ?_⟩
  simpa [List.foldlM_cons, List.foldlM_nil] using hlast

/-- The chain behind an ideal proof is the one it lists. -/
def idealExtractor (hG : G.Enforcing) :
    Extractor G fun proof : IdealProof E ↦ proof.verify G where
  states proof _ z0 i := (replay G z0 (proof.steps.take i)).getD []
  sound proof m z0 zm h := by
    obtain ⟨hpos, -, -, hlen, hreplay, -⟩ := IdealProof.verify_ok_iff.mp h
    refine ⟨Nat.one_le_iff_ne_zero.mpr hpos, rfl, ?_, fun i hi ↦ ?_⟩
    · rw [← hlen, List.take_length, hreplay, Option.getD_some]
    · obtain ⟨z, z', hz, hz', hstep⟩ := replay_take_succ hreplay (hlen ▸ hi)
      rw [hz, hz']
      exact satisfiedStep_of_idealStep hG hstep

theorem isChain_of_accepts {Snark : Type}
    {verify : Snark → ℕ → List E.Base → Except String (List E.Base)} (X : Extractor G verify)
    {proof : WrapsProof E Snark} {ledger : RotationMessage E} {hintsVk : Bytes}
    (h : proof.accepts (verify proof.snark proof.numSteps proof.z0) ledger hintsVk = true) :
    IsChain G proof.numSteps ledger.elements proof.zi
        (X.states proof.snark proof.numSteps proof.z0) ∧
      proof.zi[1]? = some (hashHintsVk E hintsVk) := by
  obtain ⟨hstart, ⟨abHash, hzi⟩, hverified⟩ := WrapsProof.accepts_eq_true_iff.mp h
  have hchain := X.sound _ _ _ _ hverified
  rw [hstart] at hchain ⊢
  exact ⟨hchain, by rw [hzi]; rfl⟩

section

variable {N : Nova E} {S : Serde E} {P : ProofSerde N}

/-- Every accepted proof, running or compressed, stands for a chain of rotations from the
genesis book of the ledger to the hints key at hand, each authorised by a strict majority
of the book before it. -/
theorem accepted_proof_authorised (hG : G.Enforcing) (hS : S.rotationMessage.RoundTrips)
    (pp : N.PublicParams) (vk : N.VerifierKey) (X : Extractor G fun snark ↦ N.verify snark pp)
    (Y : Extractor G fun snark ↦ N.verifyCompressed snark vk) {genesis : AddressBook E}
    {genesisVk ledgerId : Bytes}
    (hledger : computeRotationMessage S genesis genesisVk = .ok ledgerId) (bytes hintsVk : Bytes) :
    ∃ ledger, decodeRotationMessage S ledgerId = .ok ledger ∧
      (verifyUncompressedWrapsProof S P pp bytes ledgerId hintsVk = .ok true →
        ∃ proof, decode P.uncompressed bytes = .ok proof ∧
          (TrustBoundary S proof.numSteps (X.states proof.snark proof.numSteps proof.z0) →
            ∃ books, AuthorisedChain genesis ledger hintsVk proof.numSteps
              (X.states proof.snark proof.numSteps proof.z0) books)) ∧
      (verifyCompressedWrapsProof S P vk bytes ledgerId hintsVk = .ok true →
        ∃ proof, decode P.compressed bytes = .ok proof ∧
          (TrustBoundary S proof.numSteps (Y.states proof.snark proof.numSteps proof.z0) →
            ∃ books, AuthorisedChain genesis ledger hintsVk proof.numSteps
              (Y.states proof.snark proof.numSteps proof.z0) books)) := by
  have hvalid := (computeRotationMessage_ok_iff.mp hledger).1
  have hdecoded := decode_computeRotationMessage hS hledger
  refine ⟨_, hdecoded, fun h ↦ ?_, fun h ↦ ?_⟩
  · have hrun := h
    rw [verifyUncompressedWrapsProof, hdecoded, ok_bind, bind_ok_iff] at hrun
    obtain ⟨proof, hproof, -⟩ := hrun
    rw [verifyUncompressedWrapsProof_eq hdecoded hproof, Except.ok.injEq] at h
    obtain ⟨hchain, hfinish⟩ := isChain_of_accepts X h
    exact ⟨proof, hproof, fun htrust ↦
      authorisedChain_of_isChain hG hS hvalid hchain htrust hfinish⟩
  · have hrun := h
    rw [verifyCompressedWrapsProof, hdecoded, ok_bind, bind_ok_iff] at hrun
    obtain ⟨proof, hproof, -⟩ := hrun
    rw [verifyCompressedWrapsProof_eq hdecoded hproof, Except.ok.injEq] at h
    obtain ⟨hchain, hfinish⟩ := isChain_of_accepts Y h
    exact ⟨proof, hproof, fun htrust ↦
      authorisedChain_of_isChain hG hS hvalid hchain htrust hfinish⟩

end

section Codes

variable {E : Engine}

instance encodableUInt64 : Encodable UInt64 :=
  .ofLeftInverse UInt64.toNat UInt64.ofNat fun x ↦ by simp

variable [Encodable E.GE]

instance : Encodable (SchnorrPoK E) :=
  .ofLeftInverse (fun pok ↦ (pok.commitment, pok.challenge, pok.response))
    (fun p ↦ ⟨p.1, p.2.1, p.2.2⟩) fun _ ↦ rfl

instance : Encodable (AddressBookEntry E) :=
  .ofLeftInverse (fun entry ↦ (entry.nodeId, entry.pubKey, entry.pok, entry.weight))
    (fun p ↦ ⟨p.1, p.2.1, p.2.2.1, p.2.2.2⟩) fun _ ↦ rfl

instance : Encodable (RotationCircuit E) :=
  .ofLeftInverse (fun circuit ↦ (circuit.prevAb, circuit.bitvector, circuit.sig, circuit.msg))
    (fun p ↦ ⟨p.1, p.2.1, p.2.2.1, p.2.2.2⟩) fun _ ↦ rfl

instance : Encodable (IdealProof E) :=
  .ofLeftInverse (fun proof ↦ (proof.z0, proof.zi, proof.steps, proof.numSteps))
    (fun p ↦ ⟨p.1, p.2.1, p.2.2.1, p.2.2.2⟩) fun _ ↦ rfl

omit [Encodable E.GE] in
instance {Snark : Type} [Encodable Snark] : Encodable (WrapsProof E Snark) :=
  .ofLeftInverse (fun proof ↦ (proof.numSteps, proof.z0, proof.zi, proof.snark))
    (fun p ↦ ⟨p.1, p.2.1, p.2.2.1, p.2.2.2⟩) fun _ ↦ rfl

def codeProofSerde (G : Gadgets E) : ProofSerde (idealNova G) where
  uncompressed := .ofEncodable (WrapsProof E (IdealProof E))
  compressed := .ofEncodable (WrapsProof E (IdealProof E))

end Codes

abbrev markedGadgets : Gadgets markedLine := directGadgets markedDecoder

def pairCircuit (hintsVk : Bytes) : RotationCircuit markedLine where
  prevAb := paddedBook (pairBook markedLine)
  bitvector := pairBits
  sig := ⟨0, 0⟩
  msg := rotationMessage (pairBook markedLine) hintsVk

def pairState (hintsVk : Bytes) : List markedLine.Base :=
  (rotationMessage (pairBook markedLine) hintsVk).elements

theorem pairState_eq (hintsVk : Bytes) :
    pairState hintsVk = [1, hashHintsVk markedLine hintsVk] := by
  rw [pairState, RotationMessage.elements, rotationMessage, hash_pair]

theorem idealStep_pair (hintsVk nextVk : Bytes) :
    idealStep markedGadgets (pairCircuit nextVk) (pairState hintsVk) = some (pairState nextVk) := by
  refine (idealStep_iff (directGadgets_enforcing markedDecoder)
    (directGadgets_serving markedDecoder) (length_paddedBook pairBook_valid.size)
    (pairRules _)).mpr ⟨⟨hashHintsVk markedLine hintsVk, ?_⟩, rfl⟩
  rw [pairState_eq]
  exact congrArg (fun a ↦ [a, hashHintsVk markedLine hintsVk]) hash_pair.symm

/-- The rotations of a committee that keeps its seats and changes its hints key. -/
def pairSteps (hintsVks : ℕ → Bytes) (n : ℕ) : List (RotationCircuit markedLine) :=
  (List.range n).map fun i ↦ pairCircuit (hintsVks (i + 1))

theorem replay_pairSteps (hintsVks : ℕ → Bytes) (n : ℕ) :
    replay markedGadgets (pairState (hintsVks 0)) (pairSteps hintsVks n) =
      some (pairState (hintsVks n)) := by
  induction n with
  | zero => rfl
  | succ n ih =>
    rw [pairSteps, List.range_succ, List.map_append, List.map_singleton]
    exact (replay_append_singleton ih _).trans (idealStep_pair _ _)

def pairProof (hintsVks : ℕ → Bytes) (n : ℕ) : IdealProof markedLine where
  z0 := pairState (hintsVks 0)
  zi := pairState (hintsVks n)
  steps := pairSteps hintsVks n
  numSteps := n

theorem verify_pairProof (hintsVks : ℕ → Bytes) {n : ℕ} (hn : n ≠ 0) :
    (pairProof hintsVks n).verify markedGadgets n (pairState (hintsVks 0)) =
      .ok (pairState (hintsVks n)) :=
  IdealProof.verify_ok_iff.mpr ⟨hn, rfl, rfl, by simp [pairProof, pairSteps],
    replay_pairSteps hintsVks n, rfl⟩

def pairWrapsProof (hintsVks : ℕ → Bytes) (n : ℕ) :
    WrapsProof markedLine (IdealProof markedLine) where
  numSteps := n
  z0 := pairState (hintsVks 0)
  zi := pairState (hintsVks n)
  snark := pairProof hintsVks n

theorem exists_pairLedger (hintsVk : Bytes) : ∃ ledgerId,
    computeRotationMessage (codeSerde markedLine) (pairBook markedLine) hintsVk = .ok ledgerId := by
  have hround := Bincode.ofEncodable_roundTrips (RotationMessage markedLine)
  obtain ⟨bytes, hbytes, -⟩ := hround.decode_encode (rotationMessage (pairBook markedLine) hintsVk)
  exact ⟨bytes, computeRotationMessage_ok_iff.mpr ⟨pairBook_valid, hbytes⟩⟩

theorem idealExtractor_states_pair (hG : markedGadgets.Enforcing) (hintsVks : ℕ → Bytes) {n i : ℕ}
    (hi : i ≤ n) (m : ℕ) :
    (idealExtractor hG).states (pairProof hintsVks n) m (pairState (hintsVks 0)) i =
      pairState (hintsVks i) := by
  have htake : (pairSteps hintsVks n).take i = pairSteps hintsVks i := by
    rw [pairSteps, ← List.map_take, List.take_range, min_eq_left hi, pairSteps]
  change (replay markedGadgets _ ((pairSteps hintsVks n).take i)).getD [] = _
  rw [htake, replay_pairSteps, Option.getD_some]

theorem pair_trustBoundary {hintsVks : ℕ → Bytes} {n : ℕ} {z : ℕ → List markedLine.Base}
    (h : ∀ i ≤ n, z i = pairState (hintsVks i)) : TrustBoundary (codeSerde markedLine) n z := by
  constructor
  · intro i hi ab hvalid hcommits elements hlen hhash
    rw [CommitsTo, h i hi.le, pairState_eq] at hcommits
    have hone : hashAddressBook (paddedBook ab) = 1 := (Option.some.inj hcommits).symm
    rw [hone, squeeze_book_eq_one_iff] at hhash
    rw [hashAddressBook, squeeze_book_eq_one_iff] at hone
    rw [hhash, hone]
  · intro i hi ab hvalid hcommits bitvector sig hrules
    obtain ⟨bytes, hbytes⟩ := exists_pairLedger (hintsVks (i + 1))
    exact ⟨_, _, bytes, _, hbytes,
      decode_computeRotationMessage (Bincode.ofEncodable_roundTrips _) hbytes, h (i + 1) hi⟩

/-- The committee of two, rotated onto itself twice: both forms of the proof are accepted,
the chain behind them keeps within the trust boundary, and it is authorised. -/
theorem accepted_proof_authorised_two_steps :
    ∃ (ledgerId bytes : Bytes) (z : ℕ → List markedLine.Base),
      verifyUncompressedWrapsProof (codeSerde markedLine) (codeProofSerde markedGadgets) () bytes
        ledgerId [2] = .ok true ∧
      verifyCompressedWrapsProof (codeSerde markedLine) (codeProofSerde markedGadgets) () bytes
        ledgerId [2] = .ok true ∧
      TrustBoundary (codeSerde markedLine) 2 z ∧
      ∃ ledger books, AuthorisedChain (pairBook markedLine) ledger [2] 2 z books := by
  let hintsVks (i : ℕ) : Bytes := [UInt8.ofNat i]
  obtain ⟨ledgerId, hledger⟩ := exists_pairLedger (hintsVks 0)
  have hdecoded := decode_computeRotationMessage (Bincode.ofEncodable_roundTrips _) hledger
  obtain ⟨bytes, -, hbytes⟩ :=
    (Bincode.ofEncodable_roundTrips _).decode_encode (pairWrapsProof hintsVks 2)
  obtain ⟨hrunning, hcompressed⟩ := idealNova_accepts (P := codeProofSerde markedGadgets) () ()
    hdecoded hbytes hbytes rfl (pairState_eq [2]) (verify_pairProof hintsVks two_ne_zero)
  have hG := directGadgets_enforcing markedDecoder
  obtain ⟨ledger, -, hchain, -⟩ := accepted_proof_authorised (N := idealNova markedGadgets)
    (P := codeProofSerde markedGadgets) hG
    (Bincode.ofEncodable_roundTrips _) () () (idealExtractor hG) (idealExtractor hG) hledger bytes
    [2]
  obtain ⟨proof, hproof, hauthorised⟩ := hchain hrunning
  obtain rfl : pairWrapsProof hintsVks 2 = proof := Except.ok.inj (hbytes.symm.trans hproof)
  have htrust : TrustBoundary (codeSerde markedLine) 2
      ((idealExtractor hG).states (pairProof hintsVks 2) 2 (pairState (hintsVks 0))) :=
    pair_trustBoundary fun i hi ↦ idealExtractor_states_pair hG hintsVks hi 2
  obtain ⟨books, hbooks⟩ := hauthorised htrust
  exact ⟨ledgerId, bytes, _, hrunning, hcompressed, htrust, ledger, books, hbooks⟩

end HieroCryptography.Wraps
