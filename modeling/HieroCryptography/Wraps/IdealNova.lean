import HieroCryptography.Wraps.CircuitComplete
import HieroCryptography.Wraps.Proof

namespace HieroCryptography.Wraps

open Foundation Rust Synthesis

variable {E : Engine} {G : Gadgets E}

theorem committed_of_satisfied (hE : G.Enforcing) (hS : G.Serving) {self : RotationCircuit E}
    {zIn zOut : List (AllocatedNum E.Base)} {cs cs' : ConstraintSystem E.Base}
    (hrun : self.synthesize G zIn cs = .ok (zOut, cs')) {v : ℕ → E.Base} (hagrees : cs'.Agrees v)
    (hsat : cs'.Satisfied v) :
    ∃ z0, zIn[0]? = some z0 ∧ z0.eval v = hashAddressBook self.prevAb := by
  obtain ⟨_, cs₁, h₁, hrun⟩ := run_bind_ok_iff.mp hrun
  obtain ⟨_, cs₂, h₂, hrun⟩ := run_bind_ok_iff.mp hrun
  obtain ⟨seats, cs₃, hseats, hrun⟩ := run_bind_ok_iff.mp hrun
  obtain ⟨hAb, cs₄, hhash, hrun⟩ := run_bind_ok_iff.mp hrun
  have hbook := (complete_allocSeats hS self.prevAb).of_run hseats fun _ _ ↦ trivial
  have hcommit := (hS.sponge dsAddressBook _ (self.prevAb.flatMap entryElements)).of_run hhash
    fun v hv ↦ List.rel_flatMap (hbook v hv) fun _ _ h ↦ h
  have hsound : Sound _ fun v (_ : List (AllocatedNum E.Base)) ↦
      ∃ z0, zIn[0]? = some z0 ∧ hAb.eval v = z0.eval v :=
    Sound.bind (sound_natively (index zIn 0)) fun z ↦
      Sound.bind (sound_enforceEqual hAb z) fun _ ↦
      Sound.bind (sound_allocBits self.bitvector.toList) fun bits ↦
      Sound.bind (sound_checkMajority hE self.prevAb self.bitvector seats bits) fun _ ↦
      Sound.bind (sound_allocJointKey hE seats bits) fun pk ↦
      (sound_checkSignature hE self.sig self.msg pk).mono
        fun v _ _ _ _ _ heq hz ↦ ⟨z, index_ok_iff.mp hz, heq⟩
  obtain ⟨hext, hrest⟩ := hsound cs₄ zOut cs' hrun
  obtain ⟨z0, hz0, heq⟩ := hrest v hsat
  exact ⟨z0, hz0, heq.symm.trans (hcommit v (hext.agrees hagrees)).2⟩

def stateInputs (z : List E.Base) : List (AllocatedNum E.Base) :=
  z.zipIdx.map fun (a, i) ↦ ⟨some a, .aux i⟩

def stateSystem (z : List E.Base) : ConstraintSystem E.Base := ⟨z, []⟩

theorem eval_stateInputs {z : List E.Base} {v : ℕ → E.Base} (h : (stateSystem z).Agrees v) :
    (stateInputs z).map (AllocatedNum.eval v) = z := by
  rw [stateInputs, List.map_map]
  conv_rhs => rw [← List.zipIdx_map_fst 0 z]
  apply List.map_congr_left
  rintro ⟨a, i⟩ hmem
  exact h i a (List.mem_zipIdx_iff_getElem?.mp hmem)

/-- The next state, if the prover's own witness satisfies the step. -/
def idealStep (G : Gadgets E) (circuit : RotationCircuit E) (z : List E.Base) :
    Option (List E.Base) :=
  match circuit.synthesize G (stateInputs z) (stateSystem z) with
  | .ok (zOut, cs) =>
    if ∀ c ∈ cs.constraints, c.Holds cs.witness then
      some (zOut.map (AllocatedNum.eval cs.witness))
    else none
  | .error _ => none

theorem idealStep_eq_some_iff {circuit : RotationCircuit E} {z z' : List E.Base} :
    idealStep G circuit z = some z' ↔
      ∃ zOut cs, circuit.synthesize G (stateInputs z) (stateSystem z) = .ok (zOut, cs) ∧
        cs.Satisfied cs.witness ∧ zOut.map (AllocatedNum.eval cs.witness) = z' := by
  unfold idealStep
  cases circuit.synthesize G (stateInputs z) (stateSystem z) with
  | error e => simp
  | ok p =>
    obtain ⟨zOut, cs⟩ := p
    simp only [Option.ite_none_right_eq_some, Option.some.injEq, Except.ok.injEq, Prod.mk.injEq]
    constructor
    · rintro ⟨hsat, rfl⟩
      exact ⟨zOut, cs, ⟨rfl, rfl⟩, hsat, rfl⟩
    · rintro ⟨_, _, ⟨rfl, rfl⟩, hsat, rfl⟩
      exact ⟨hsat, rfl⟩

theorem length_of_synthesize {self : RotationCircuit E} {zIn zOut : List (AllocatedNum E.Base)}
    {cs cs' : ConstraintSystem E.Base} (h : self.synthesize G zIn cs = .ok (zOut, cs')) :
    zIn.length = 2 := by
  obtain ⟨_, _, hensure, -⟩ := run_bind_ok_iff.mp h
  simpa using ensure_ok_iff.mp (natively_ok_iff.mp hensure).1

theorem idealStep_iff (hE : G.Enforcing) (hS : G.Serving) {circuit : RotationCircuit E}
    (hlen : circuit.prevAb.length = maxAbSize)
    (hrules : NativeRules circuit.prevAb circuit.bitvector circuit.sig circuit.msg.elements)
    {z z' : List E.Base} :
    idealStep G circuit z = some z' ↔
      (∃ b, z = [hashAddressBook circuit.prevAb, b]) ∧ z' = circuit.msg.elements := by
  have hcomplete : ∀ b, ∃ zOut cs, circuit.synthesize G
      (stateInputs [hashAddressBook circuit.prevAb, b])
        (stateSystem [hashAddressBook circuit.prevAb, b]) = .ok (zOut, cs) ∧
      cs.Satisfied cs.witness ∧ zOut.map (AllocatedNum.eval cs.witness) = circuit.msg.elements := by
    intro b
    obtain ⟨zOut, cs, hrun, -, hall⟩ := complete_synthesize hS circuit hlen hrules
      ⟨some (hashAddressBook circuit.prevAb), .aux 0⟩ ⟨some b, .aux 1⟩
      (stateSystem [hashAddressBook circuit.prevAb, b]) fun v hv ↦ hv 0 _ rfl
    obtain ⟨hsat, hout⟩ := hall _ cs.agrees_witness
    exact ⟨zOut, cs, hrun, hsat fun c hc ↦ absurd hc List.not_mem_nil, eval_of_carries hout⟩
  rw [idealStep_eq_some_iff]
  constructor
  · rintro ⟨zOut, cs, hrun, hsat, rfl⟩
    have htwo : z.length = 2 := by simpa [stateInputs] using length_of_synthesize hrun
    obtain ⟨a, b, rfl⟩ := List.length_eq_two.mp htwo
    obtain ⟨z0, hz0, heval⟩ := committed_of_satisfied hE hS hrun cs.agrees_witness hsat
    have hagrees := (sound_synthesize hE circuit _ _ _ _ hrun).1.agrees cs.agrees_witness
    obtain rfl : ⟨some a, .aux 0⟩ = z0 := Option.some.inj hz0
    obtain rfl : a = hashAddressBook circuit.prevAb := (hagrees 0 a rfl).symm.trans heval
    obtain ⟨zOut', cs', hrun', -, hout⟩ := hcomplete b
    rw [hrun] at hrun'
    cases hrun'
    exact ⟨⟨b, rfl⟩, hout⟩
  · rintro ⟨⟨b, rfl⟩, rfl⟩
    exact hcomplete b

structure IdealProof (E : Engine) where
  z0 : List E.Base
  zi : List E.Base
  steps : List (RotationCircuit E)
  numSteps : ℕ

def replay (G : Gadgets E) (z0 : List E.Base) (steps : List (RotationCircuit E)) :
    Option (List E.Base) :=
  steps.foldlM (fun z circuit ↦ idealStep G circuit z) z0

theorem replay_singleton (z0 : List E.Base) (circuit : RotationCircuit E) :
    replay G z0 [circuit] = idealStep G circuit z0 := by
  simp [replay]

theorem replay_append_singleton {z0 : List E.Base} {steps : List (RotationCircuit E)}
    {z : List E.Base} (h : replay G z0 steps = some z) (circuit : RotationCircuit E) :
    replay G z0 (steps ++ [circuit]) = idealStep G circuit z := by
  rw [replay] at h
  rw [replay, List.foldlM_append, h, Option.bind_eq_bind, Option.bind_some]
  exact replay_singleton z circuit

/-- A proof is good when it has steps, as many as it says, and they lead where it says. -/
def IdealProof.verify (G : Gadgets E) (proof : IdealProof E) (numSteps : ℕ) (z0 : List E.Base) :
    Except String (List E.Base) :=
  if numSteps ≠ 0 ∧ proof.numSteps = numSteps ∧ proof.z0 = z0 ∧ proof.steps.length = numSteps ∧
      replay G z0 proof.steps = some proof.zi then
    .ok proof.zi
  else .error "ProofVerifyError"

/-- The proof library, idealised: a proof is its list of satisfied steps, compression keeps
it, and verification is exact. As in the library, `new` does the work of the first step and
the first `prove_step` only counts it. -/
def idealNova (G : Gadgets E) : Nova E where
  PublicParams := Unit
  RecursiveSNARK := IdealProof E
  CompressedSNARK := IdealProof E
  ProverKey := Unit
  VerifierKey := Unit
  new _ circuit z0 :=
    match idealStep G circuit z0 with
    | some zi => .ok { z0, zi, steps := [circuit], numSteps := 0 }
    | none => .error "UnSat"
  numSteps := IdealProof.numSteps
  outputs := IdealProof.zi
  proveStep proof _ circuit :=
    if proof.numSteps = 0 then .ok { proof with numSteps := 1 }
    else
      match idealStep G circuit proof.zi with
      | some zi => .ok { proof with
          zi, steps := proof.steps ++ [circuit], numSteps := proof.numSteps + 1 }
      | none => .error "UnSat"
  verify proof _ := proof.verify G
  setup _ := .ok ((), ())
  prove _ _ proof := (proof.verify G proof.numSteps proof.z0).map fun _ ↦ proof
  verifyCompressed proof _ := proof.verify G

theorem IdealProof.verify_ok_iff {proof : IdealProof E} {numSteps : ℕ} {z0 zi : List E.Base} :
    proof.verify G numSteps z0 = .ok zi ↔ numSteps ≠ 0 ∧ proof.numSteps = numSteps ∧
      proof.z0 = z0 ∧ proof.steps.length = numSteps ∧ replay G z0 proof.steps = some zi ∧
        proof.zi = zi := by
  unfold IdealProof.verify
  split
  · rename_i h
    obtain ⟨hpos, hsteps, hz0, hlen, hreplay⟩ := h
    simp only [Except.ok.injEq, hreplay, Option.some.injEq]
    exact ⟨fun hzi ↦ ⟨hpos, hsteps, hz0, hlen, hzi, hzi⟩, fun h ↦ h.2.2.2.2.1⟩
  · rename_i h
    simp only [reduceCtorEq, false_iff]
    rintro ⟨hpos, hsteps, hz0, hlen, hreplay, hzi⟩
    exact h ⟨hpos, hsteps, hz0, hlen, hzi ▸ hreplay⟩

theorem idealNova_new_ok_iff {pp : (idealNova G).PublicParams} {circuit : RotationCircuit E}
    {z0 : List E.Base} {proof : IdealProof E} :
    (idealNova G).new pp circuit z0 = .ok proof ↔
      ∃ zi, idealStep G circuit z0 = some zi ∧ proof = ⟨z0, zi, [circuit], 0⟩ := by
  simp only [idealNova]
  cases idealStep G circuit z0 <;> simp [eq_comm]

theorem idealNova_first_proveStep {pp : (idealNova G).PublicParams} (circuit : RotationCircuit E)
    {proof : IdealProof E} (h : proof.numSteps = 0) :
    (idealNova G).proveStep proof pp circuit = .ok { proof with numSteps := 1 } :=
  if_pos h

theorem idealNova_proveStep_ok_iff {pp : (idealNova G).PublicParams} {circuit : RotationCircuit E}
    {proof proof' : IdealProof E} (h : proof.numSteps ≠ 0) :
    (idealNova G).proveStep proof pp circuit = .ok proof' ↔
      ∃ zi, idealStep G circuit proof.zi = some zi ∧
        proof' = ⟨proof.z0, zi, proof.steps ++ [circuit], proof.numSteps + 1⟩ := by
  simp only [idealNova, if_neg h]
  cases idealStep G circuit proof.zi <;> simp [eq_comm]

theorem idealNova_accepts {S : Serde E} {P : ProofSerde (idealNova G)}
    (pp : (idealNova G).PublicParams) (vk : (idealNova G).VerifierKey)
    {ledgerId running compressed hintsVk : Bytes} {ledger : RotationMessage E}
    {proof : WrapsProof E (IdealProof E)}
    (hledger : decodeRotationMessage S ledgerId = .ok ledger)
    (hrunning : decode P.uncompressed running = .ok proof)
    (hcompressed : decode P.compressed compressed = .ok proof)
    (hstart : proof.z0 = ledger.elements) {abHash : E.Base}
    (hcurrent : proof.zi = [abHash, hashHintsVk E hintsVk])
    (hverify : proof.snark.verify G proof.numSteps proof.z0 = .ok proof.zi) :
    verifyUncompressedWrapsProof S P pp running ledgerId hintsVk = .ok true ∧
      verifyCompressedWrapsProof S P vk compressed ledgerId hintsVk = .ok true := by
  have haccepts := WrapsProof.accepts_eq_true_iff.mpr ⟨hstart, ⟨abHash, hcurrent⟩, hverify⟩
  exact ⟨(verifyUncompressedWrapsProof_eq hledger hrunning).trans (congrArg Except.ok haccepts),
    (verifyCompressedWrapsProof_eq hledger hcompressed).trans (congrArg Except.ok haccepts)⟩

end HieroCryptography.Wraps
