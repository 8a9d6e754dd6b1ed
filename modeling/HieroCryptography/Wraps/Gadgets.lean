import HieroCryptography.Foundation.ConstraintSystem
import HieroCryptography.Wraps.AddressBook

namespace HieroCryptography.Wraps

open Foundation Rust Synthesis

/-- What can go wrong while a circuit is built; errors of the library are carried as text. -/
inductive SynthesisError
  | assignmentMissing
  | library (text : String)
  deriving DecidableEq, Repr

abbrev Circuit (E : Engine) (α : Type) := Synthesis E.Base (Abort SynthesisError) α

structure AllocatedPoint (E : Engine) where
  x : AllocatedNum E.Base
  y : AllocatedNum E.Base
  isInfinity : AllocatedNum E.Base

inductive Boolean
  | is (bit : AllocatedBit)
  | not (bit : AllocatedBit)
  | constant (b : Bool)

def numBits (n : ℕ) : ℕ := Nat.size n

variable {E : Engine}

namespace AllocatedPoint

def coordinates (p : AllocatedPoint E) : List (AllocatedNum E.Base) := [p.x, p.y, p.isInfinity]

def Denotes (v : ℕ → E.Base) (p : AllocatedPoint E) (P : E.GE) : Prop :=
  p.coordinates.map (AllocatedNum.eval v) = encodePoint P

def Holds (v : ℕ → E.Base) (p : AllocatedPoint E) (P : E.GE) : Prop :=
  List.Forall₂ (AllocatedNum.Carries v) p.coordinates (encodePoint P)

end AllocatedPoint

structure Gadgets (E : Engine) where
  leBitsToNum : List AllocatedBit → Circuit E (AllocatedNum E.Base)
  toBitsLeStrict : AllocatedNum E.Base → Circuit E (List Boolean)
  allocZero : Circuit E (AllocatedNum E.Base)
  allocPoint : E.Base × E.Base × Bool → Circuit E (AllocatedPoint E)
  checkOnCurve : AllocatedPoint E → Circuit E Unit
  defaultPoint : Circuit E (AllocatedPoint E)
  selectPointOrInfinity : AllocatedPoint E → Boolean → Circuit E (AllocatedPoint E)
  add : AllocatedPoint E → AllocatedPoint E → Circuit E (AllocatedPoint E)
  negate : AllocatedPoint E → Circuit E (AllocatedPoint E)
  scalarMul : AllocatedPoint E → List AllocatedBit → Circuit E (AllocatedPoint E)
  allocConstant : E.Base × E.Base → AllocatedNum E.Base → Circuit E (AllocatedPoint E)
  sponge : ℕ → List (AllocatedNum E.Base) → Circuit E (AllocatedNum E.Base)

/-- What the gadgets enforce on every assignment, a dishonest prover's included: on
encodings of points they compute the group operations, on bits the number, on elements the
native sponge. -/
structure Gadgets.Enforcing (G : Gadgets E) : Prop where
  leBitsToNum : ∀ bits, Sound (G.leBitsToNum bits) fun v num ↦
    ∀ bs, List.Forall₂ (AllocatedBit.Is v) bits bs → num.eval v = (ofBits bs : E.Base)
  toBitsLeStrict : ∀ x, Sound (G.toBitsLeStrict x) fun v booleans ↦
    ∃ bits, booleans = bits.map Boolean.is ∧
      List.Forall₂ (AllocatedBit.Is v) bits (leBitsOf (x.eval v) (numBits E.baseModulus))
  allocZero : Sound G.allocZero fun v zero ↦ zero.eval v = 0
  allocPoint : ∀ c, Sound (G.allocPoint c) fun _ _ ↦ True
  checkOnCurve : ∀ p, Sound (G.checkOnCurve p) fun _ _ ↦ True
  defaultPoint : Sound G.defaultPoint fun v p ↦ p.Denotes v 0
  selectPointOrInfinity : ∀ p bit, Sound (G.selectPointOrInfinity p (.is bit)) fun v q ↦
    ∀ P b, p.Denotes v P → bit.Is v b → q.Denotes v (if b then P else 0)
  add : ∀ p q, Sound (G.add p q) fun v r ↦
    ∀ P Q, p.Denotes v P → q.Denotes v Q → r.Denotes v (P + Q)
  negate : ∀ p, Sound (G.negate p) fun v q ↦ ∀ P, p.Denotes v P → q.Denotes v (-P)
  scalarMul : ∀ p bits, Sound (G.scalarMul p bits) fun v q ↦
    ∀ P bs, p.Denotes v P → List.Forall₂ (AllocatedBit.Is v) bits bs →
      q.Denotes v (ofBits bs • P)
  allocConstant : ∀ x y zero, Sound (G.allocConstant (x, y) zero) fun v p ↦
    zero.eval v = 0 → p.coordinates.map (AllocatedNum.eval v) = [x, y, 0]
  sponge : ∀ ds elements, Sound (G.sponge ds elements) fun v hash ↦
    hash.eval v = E.poseidon ds (elements.map (AllocatedNum.eval v))

/-- What the gadgets do for an honest prover: given values that are what they stand for,
they return without an error and their constraints hold. -/
structure Gadgets.Serving (G : Gadgets E) : Prop where
  leBitsToNum : ∀ bits bs, Complete (G.leBitsToNum bits)
    (fun v ↦ List.Forall₂ (AllocatedBit.Carries v) bits bs)
    fun v num ↦ num.Carries v (ofBits bs : E.Base)
  toBitsLeStrict : ∀ x a, Complete (G.toBitsLeStrict x) (fun v ↦ x.Carries v a)
    fun v booleans ↦ ∃ bits, booleans = bits.map Boolean.is ∧
      List.Forall₂ (AllocatedBit.Carries v) bits (leBitsOf a (numBits E.baseModulus))
  allocZero : Complete G.allocZero (fun _ ↦ True) fun v zero ↦ zero.Carries v 0
  allocPoint : ∀ P, Complete (G.allocPoint (E.toCoordinates P)) (fun _ ↦ True)
    fun v p ↦ p.Holds v P
  checkOnCurve : ∀ p P, Complete (G.checkOnCurve p) (fun v ↦ p.Holds v P) fun _ _ ↦ True
  defaultPoint : Complete G.defaultPoint (fun _ ↦ True) fun v p ↦ p.Holds v 0
  selectPointOrInfinity : ∀ p bit P b, Complete (G.selectPointOrInfinity p (.is bit))
    (fun v ↦ p.Holds v P ∧ bit.Carries v b) fun v q ↦ q.Holds v (if b then P else 0)
  add : ∀ p q P Q, Complete (G.add p q) (fun v ↦ p.Holds v P ∧ q.Holds v Q)
    fun v r ↦ r.Holds v (P + Q)
  negate : ∀ p P, Complete (G.negate p) (fun v ↦ p.Holds v P) fun v q ↦ q.Holds v (-P)
  scalarMul : ∀ p bits P bs, bs ≠ [] → Complete (G.scalarMul p bits)
    (fun v ↦ p.Holds v P ∧ List.Forall₂ (AllocatedBit.Carries v) bits bs)
    fun v q ↦ q.Holds v (ofBits bs • P)
  allocConstant : ∀ x y zero, Complete (G.allocConstant (x, y) zero)
    (fun v ↦ zero.Carries v 0) fun v p ↦
      List.Forall₂ (AllocatedNum.Carries v) p.coordinates [x, y, 0]
  sponge : ∀ ds elements values, Complete (G.sponge ds elements)
    (fun v ↦ List.Forall₂ (AllocatedNum.Carries v) elements values)
    fun v hash ↦ hash.Carries v (E.poseidon ds values)

end HieroCryptography.Wraps
