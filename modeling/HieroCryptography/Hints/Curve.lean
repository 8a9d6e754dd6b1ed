import HieroCryptography.Rust.Collections
import HieroCryptography.Foundation.DensePolynomial
import HieroCryptography.Foundation.Lucas
import HieroCryptography.Foundation.PairingGroups

namespace HieroCryptography.Hints

open Foundation Rust

/-- The order of the BLS12-381 groups. -/
def frModulus : ℕ := 0x73eda753299d7d483339d80809a1d80553bda402fffe5bfeffffffff00000001

def frFactors : List (ℕ × ℕ) :=
  [(2, 32), (3, 1), (11, 1), (19, 1), (10177, 1), (125527, 1), (859267, 1), (906349, 2),
    (2508409, 1), (2529403, 1), (52437899, 1), (254760293, 2)]

theorem frFactors_prime : ∀ f ∈ frFactors, f.1.Prime := by
  simp only [frFactors, List.forall_mem_cons]
  norm_num

theorem frModulus_prime : frModulus.Prime :=
  prime_of_lucasTest 7 255 frFactors_prime (by decide +kernel)

instance : Fact frModulus.Prime := ⟨frModulus_prime⟩

abbrev Fr := ZMod frModulus

/-- The order arkworks puts on field elements: that of their canonical representatives. -/
def Fr.gt (a b : Fr) : Bool := b.val < a.val

def frRoot : ℕ := 0x16a2a19edfe81f20d09b681922c813b4b63683508c2280b93829971f439f0d2b

theorem frRoot_primitive : IsPrimitiveRoot (frRoot : Fr) (2 ^ 32) := by
  have hone : (frRoot : Fr) ^ 2 ^ (31 + 1) = 1 :=
    pow_eq_one_of_powMod (m := frModulus) 33 (by decide) (by decide +kernel)
  have hne : ¬ (frRoot : Fr) ^ 2 ^ 31 = 1 :=
    pow_ne_one_of_powMod (m := frModulus) 32 (by decide) (by decide) (by decide +kernel)
  have hord : orderOf (frRoot : Fr) = 2 ^ 32 := orderOf_eq_prime_pow hne hone
  exact hord ▸ IsPrimitiveRoot.orderOf _

def frFft : FftField Fr where
  twoAdicity := 32
  twoAdicRootOfUnity := frRoot
  primitive := frRoot_primitive

/-- The curve library: the groups with their pairing, and the hashes, encodings and
generators the scheme takes from it. Nothing is assumed of the latter. -/
structure Curve extends PairingGroups Fr where
  mapToCurve : (dst msg : Bytes) → Except String G2
  hashToField : (dst msg : Bytes) → Fr
  sha256 : Bytes → Bytes
  compressG1 : G1 → Bytes
  compressG2 : G2 → Bytes
  compressFr : Fr → Bytes
  uncompressG1 : G1 → Bytes
  uncompressG2 : G2 → Bytes
  Rng : Type
  fromSeed : Bytes → Rng
  fillBytes : Rng → ℕ → Bytes × Rng
  randFr : Rng → Fr × Rng

/-- The scalar field as a curve over itself: every group is the field, the pairing its
product, and the hashes are constant. -/
def scalarCurve : Curve where
  G1 := Fr
  G2 := Fr
  GT := Fr
  g := 1
  h := 1
  bilinear := LinearMap.mul Fr Fr
  g_spans := fun x ↦ ⟨x, mul_one x⟩
  h_spans := fun y ↦ ⟨y, mul_one y⟩
  nondegenerate := by simp
  mapToCurve := fun _ _ ↦ .ok 1
  hashToField := fun _ _ ↦ 0
  sha256 := fun _ ↦ []
  compressG1 := fun x ↦ leBytes 32 x.val
  compressG2 := fun x ↦ leBytes 32 x.val
  compressFr := fun x ↦ leBytes 32 x.val
  uncompressG1 := fun x ↦ leBytes 32 x.val
  uncompressG2 := fun x ↦ leBytes 32 x.val
  Rng := Unit
  fromSeed := fun _ ↦ ()
  fillBytes := fun _ m ↦ (List.replicate m 0, ())
  randFr := fun _ ↦ (1, ())

/-- `HinTSError`; errors of the libraries are carried as their text. -/
inductive HinTSError
  | encodingError (err : String)
  | hashingError (err : String)
  | invalidNetworkSize (n : ℕ)
  | insufficientCRS (d : ℕ)
  | invalidInput (s : String)
  | cryptographyCatastrophe (s : String)
  deriving DecidableEq, Repr

abbrev Result (α : Type) := Outcome HinTSError α

end HieroCryptography.Hints
