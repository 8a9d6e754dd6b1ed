import HieroCryptography.Wraps.DirectGadgets
import HieroCryptography.Wraps.LineEngine

namespace HieroCryptography.Wraps

open Foundation Rust Synthesis

variable {E : Engine} {G : Gadgets E}

/-- The circuit and the native rules agree on every book of the circuit's length. What an
assignment satisfies, a dishonest prover's included, the rules accept; and what the rules
accept, the allocated witness satisfies, with the message as the next state. -/
theorem rotation_circuit_refines (hE : G.Enforcing) (hS : G.Serving) (ab : AddressBook E)
    (hlen : ab.length = maxAbSize) (hbind : BindsBook ab) :
    (∀ (self : RotationCircuit E) zIn cs zOut cs' v, self.synthesize G zIn cs = .ok (zOut, cs') →
      cs'.Satisfied v → (∃ z0, zIn[0]? = some z0 ∧ z0.eval v = hashAddressBook ab) →
        ∃ bitvector sig, NativeRules ab bitvector sig (zOut.map (AllocatedNum.eval v))) ∧
    ∀ bitvector sig (msg : RotationMessage E), NativeRules ab bitvector sig msg.elements →
      ∀ cs z0 z1, (∀ v, cs.Agrees v → z0.eval v = hashAddressBook ab) →
        ∃ zOut cs', RotationCircuit.synthesize G ⟨ab, bitvector, sig, msg⟩ [z0, z1] cs =
            .ok (zOut, cs') ∧
          ∀ v, cs'.Agrees v → (cs.Satisfied v → cs'.Satisfied v) ∧
            zOut.map (AllocatedNum.eval v) = msg.elements := by
  constructor
  · rintro self zIn cs zOut cs' v hrun hsat ⟨z0, hz0, hstate⟩
    exact (sound_synthesize hE self zIn cs zOut cs' hrun).2 v hsat ab hlen hbind z0 hz0 hstate
  · intro bitvector sig msg hrules cs z0 z1 hstate
    obtain ⟨zOut, cs', hrun, -, hall⟩ :=
      complete_synthesize hS ⟨ab, bitvector, sig, msg⟩ hlen hrules z0 z1 cs hstate
    exact ⟨zOut, cs', hrun, fun v hv ↦ ⟨(hall v hv).1, eval_of_carries (hall v hv).2⟩⟩

def allocatedState (z0 z1 : E.Base) : ConstraintSystem E.Base × List (AllocatedNum E.Base) :=
  (⟨[z0, z1], []⟩, [⟨some z0, .aux 0⟩, ⟨some z1, .aux 1⟩])

def pairElements : List (ZMod lineModulus) :=
  (paddedBook (pairBook zeroLine)).flatMap entryElements

/-- A sponge that knows one preimage of a book and squeezes zero from everything else. -/
def markingSponge (ds : ℕ) (elements : List (ZMod lineModulus)) : ZMod lineModulus :=
  if ds = dsAddressBook ∧ elements = pairElements then 1 else 0

theorem markingSponge_book_eq_one_iff {elements : List (ZMod lineModulus)} :
    markingSponge dsAddressBook elements = 1 ↔ elements = pairElements := by
  simp [markingSponge]

abbrev markedLine : Engine := lineEngine markingSponge

def markedDecoder : PointDecoder markedLine where
  decodePoint values := values.headD (0 : ZMod lineModulus)
  decode_encode _ := rfl

theorem squeeze_book_eq_one_iff {elements : List markedLine.Base} :
    markedLine.poseidon dsAddressBook elements = 1 ↔ elements = pairElements :=
  markingSponge_book_eq_one_iff

/-- The elements of a book do not depend on the sponge. -/
theorem elements_pair :
    (paddedBook (pairBook markedLine)).flatMap entryElements = pairElements := rfl

theorem hash_pair : hashAddressBook (paddedBook (pairBook markedLine)) = 1 := by
  rw [hashAddressBook, squeeze_book_eq_one_iff, elements_pair]

theorem bindsBook_pair : BindsBook (paddedBook (pairBook markedLine)) := by
  intro elements _ hhash
  rw [hash_pair, squeeze_book_eq_one_iff] at hhash
  rw [hhash, elements_pair]

theorem verify_marked (pk : markedLine.GE) (next : List markedLine.Base) (s : markedLine.Scalar) :
    Schnorr.verify pk next ⟨0, s⟩ = true :=
  line_verify_zero (fun _ ↦ if_neg fun h ↦ absurd h.1 (by decide)) pk next s

theorem pairRules (next : List markedLine.Base) :
    NativeRules (paddedBook (pairBook markedLine)) pairBits ⟨0, 0⟩ next := by
  rw [nativeRules_paddedBook_iff pairBook_valid]
  exact ⟨pairBook_majority, pairBook_joint, verify_marked _ _ _⟩

/-- The committee of two signs itself on the marked line: the hash has no other preimage,
the native rules hold, and the witness satisfies the circuit. -/
theorem rotation_circuit_refines_pair :
    BindsBook (paddedBook (pairBook markedLine)) ∧
      NativeRules (paddedBook (pairBook markedLine)) pairBits ⟨0, 0⟩ [1, 0] ∧
      ∃ zOut cs', RotationCircuit.synthesize (directGadgets markedDecoder)
          ⟨paddedBook (pairBook markedLine), pairBits, ⟨0, 0⟩, ⟨1, 0⟩⟩ (allocatedState 1 0).2
          (allocatedState 1 0).1 = .ok (zOut, cs') ∧ cs'.Satisfied cs'.witness := by
  obtain ⟨zOut, cs', hrun, hall⟩ := (rotation_circuit_refines
    (directGadgets_enforcing markedDecoder) (directGadgets_serving markedDecoder) _
    (length_paddedBook pairBook_valid.size) bindsBook_pair).2 pairBits ⟨0, 0⟩ ⟨1, 0⟩ (pairRules _)
    (allocatedState 1 0).1 ⟨some 1, .aux 0⟩ ⟨some 0, .aux 1⟩
    fun v hv ↦ (hv 0 1 rfl).trans hash_pair.symm
  exact ⟨bindsBook_pair, pairRules _, zOut, cs', hrun,
    (hall _ cs'.agrees_witness).1 fun c hc ↦ absurd hc List.not_mem_nil⟩

end HieroCryptography.Wraps
