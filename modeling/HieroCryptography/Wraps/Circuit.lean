import HieroCryptography.Wraps.Gadgets
import HieroCryptography.Wraps.Signing

namespace HieroCryptography.Wraps

open Foundation Rust Synthesis

structure RotationCircuit (E : Engine) where
  prevAb : AddressBook E
  bitvector : BitVector
  sig : Signature E
  msg : RotationMessage E

variable {E : Engine} (G : Gadgets E)

def poseidonCircuit (domainSep : ℕ) (elements : List (AllocatedNum E.Base)) :
    Circuit E (AllocatedNum E.Base) :=
  G.sponge domainSep elements

/-- The match that insists on an allocated bit. -/
def allocatedBit : Boolean → Outcome SynthesisError AllocatedBit
  | .is bit => .ok bit
  | _ => unwind

def truncateToChallengeCircuit (x : AllocatedNum E.Base) : Circuit E (AllocatedNum E.Base) := do
  let bits ← G.toBitsLeStrict x
  let low ← natively (do
    let low ← slice bits 0 numChallengeBits
    low.mapM allocatedBit)
  G.leBitsToNum low

def allocBits (bits : List Bool) : Circuit E (List AllocatedBit) :=
  bits.mapM fun b ↦ allocBit (.ok b)

def enforceEqual (a b : AllocatedNum E.Base) : Circuit E Unit :=
  enforce [(1, a.wire), (-1, b.wire)] [(1, .one)] []

def getValue (num : AllocatedNum E.Base) : Outcome SynthesisError E.Base :=
  okOr num.value .assignmentMissing

def sumOf (terms : List (AllocatedNum E.Base)) : Circuit E (AllocatedNum E.Base) := do
  let value := terms.foldlM (fun acc term ↦ term.value.map (acc + ·)) 0
  let sum ← allocNum (okOr value .assignmentMissing)
  enforce (terms.map fun term ↦ (1, term.wire)) [(1, .one)] [(1, sum.wire)]
  pure sum

def enforceRange (value : AllocatedNum E.Base) (numBits : ℕ) : Circuit E Unit := do
  let bits := value.value.map fun x ↦ leBitsOf x numBits
  let allocated ← (List.range numBits).mapM fun i ↦
    allocBit (do
      let b ← okOr bits .assignmentMissing
      index b i)
  let recomposed ← G.leBitsToNum allocated
  enforceEqual value recomposed

def enforceGreaterThan (a b : AllocatedNum E.Base) (boundBits : ℕ) : Circuit E Unit := do
  let difference ← allocNum (do
    let a ← getValue a
    let b ← getValue b
    .ok (a - b - 1))
  enforce [(1, a.wire), (-1, b.wire), (-1, .one)] [(1, .one)] [(1, difference.wire)]
  enforceRange G difference boundBits

structure SeatAdvice (E : Engine) where
  key : AllocatedPoint E
  weight : AllocatedNum E.Base
  nodeId : AllocatedNum E.Base

def SeatAdvice.elements (seat : SeatAdvice E) : List (AllocatedNum E.Base) :=
  seat.nodeId :: seat.key.coordinates ++ [seat.weight]

def allocSeat (entry : AddressBookEntry E) : Circuit E (SeatAdvice E) := do
  let key ← G.allocPoint (E.toCoordinates entry.pubKey)
  G.checkOnCurve key
  let weight ← allocNum (.ok (entry.weight.toNat : E.Base))
  enforceRange G weight weightBits
  let nodeId ← allocNum (.ok entry.nodeId)
  pure { key, weight, nodeId }

/-- The constraint `effective = weight * (1 - is_infinity)` of one seat. -/
def allocEffective (entry : AddressBookEntry E) (seat : SeatAdvice E) :
    Circuit E (AllocatedNum E.Base) := do
  let effective ← allocNum
    (.ok (if isInfinity entry.pubKey then 0 else (entry.weight.toNat : E.Base)))
  enforce [(1, seat.weight.wire)] [(1, .one), (-1, seat.key.isInfinity.wire)]
    [(1, effective.wire)]
  pure effective

/-- The constraint `masked = bit * effective` of one seat. -/
def allocMasked (signed : Bool) (effective : AllocatedNum E.Base) (bit : AllocatedBit) :
    Circuit E (AllocatedNum E.Base) := do
  let masked ← allocNum (do
    let effective ← getValue effective
    .ok (if signed then effective else 0))
  enforce [(1, bit.wire)] [(1, effective.wire)] [(1, masked.wire)]
  pure masked

/-- Check 2: the signing subset carries more than half of the total weight. -/
def checkMajority (prevAb : AddressBook E) (bitvector : BitVector) (seats : List (SeatAdvice E))
    (bits : List AllocatedBit) : Circuit E Unit := do
  let effectiveWeights ← (prevAb.zip seats).mapM fun (entry, seat) ↦ allocEffective entry seat
  let maskedWeights ← (bitvector.toList.zip (effectiveWeights.zip bits)).mapM
    fun (signed, effective, bit) ↦ allocMasked signed effective bit
  let signingWeight ← sumOf maskedWeights
  let totalWeight ← sumOf effectiveWeights
  enforceRange G totalWeight weightBits
  let remainingWeight ← allocNum (do
    let total ← getValue totalWeight
    let signing ← getValue signingWeight
    .ok (total - signing))
  enforce [(1, totalWeight.wire), (-1, signingWeight.wire)] [(1, .one)]
    [(1, remainingWeight.wire)]
  enforceGreaterThan G signingWeight remainingWeight weightBits

def allocJointKey (seats : List (SeatAdvice E)) (bits : List AllocatedBit) :
    Circuit E (AllocatedPoint E) := do
  let start ← G.defaultPoint
  let pk ← (seats.zip bits).foldlM (fun pk (seat, bit) ↦ do
    let masked ← G.selectPointOrInfinity seat.key (.is bit)
    G.add pk masked) start
  enforce [(1, pk.isInfinity.wire)] [(1, .one)] []
  pure pk

def allocNoncePoint (pk : AllocatedPoint E) (sBits eBits : List AllocatedBit) :
    Circuit E (AllocatedPoint E) := do
  let (genX, genY, genIsInfinity) := E.toCoordinates E.gen
  natively (ensure (!genIsInfinity))
  let zero ← G.allocZero
  let g ← G.allocConstant (genX, genY) zero
  let sG ← G.scalarMul g sBits
  let ePk ← G.scalarMul pk eBits
  let negEPk ← G.negate ePk
  G.add sG negEPk

/-- Check 3: the signature on the next state verifies under the joint key. -/
def checkSignature (sig : Signature E) (msg : RotationMessage E) (pk : AllocatedPoint E) :
    Circuit E (List (AllocatedNum E.Base)) := do
  let nextAbHash ← allocNum (.ok msg.addressBookHash)
  let nextHintsVkHash ← allocNum (.ok msg.hintsVkHash)
  let sBits ← allocBits (leBitsOf sig.s (numBits E.scalarModulus))
  let eBits ← allocBits (leBitsOf sig.e numChallengeBits)
  let e ← G.leBitsToNum eBits
  let r ← allocNoncePoint G pk sBits eBits
  let hash ← poseidonCircuit G dsChallenge
    (pk.coordinates ++ r.coordinates ++ [nextAbHash, nextHintsVkHash])
  let eExpected ← truncateToChallengeCircuit G hash
  enforceEqual e eExpected
  pure [nextAbHash, nextHintsVkHash]

def RotationCircuit.synthesize (self : RotationCircuit E) (zIn : List (AllocatedNum E.Base)) :
    Circuit E (List (AllocatedNum E.Base)) := do
  natively (ensure (zIn.length = 2))
  natively (ensure (self.prevAb.length = maxAbSize))
  let seats ← self.prevAb.mapM (allocSeat G)
  let hAb ← poseidonCircuit G dsAddressBook (seats.flatMap SeatAdvice.elements)
  let z0 ← natively (index zIn 0)
  enforceEqual hAb z0
  let bits ← allocBits self.bitvector.toList
  checkMajority G self.prevAb self.bitvector seats bits
  let pk ← allocJointKey G seats bits
  checkSignature G self.sig self.msg pk

end HieroCryptography.Wraps
