import HieroCryptography.Rust.Collections

namespace HieroCryptography.Wraps

open Rust

def maxAbSize : ℕ := 64

def weightBits : ℕ := 64

def numChallengeBits : ℕ := 128

def dsAddressBook : ℕ := 1

def dsChallenge : ℕ := 3

def dstHintsVk : Bytes := ascii "WRAPS-hints-vk-v1"

def dstPok : Bytes := ascii "WRAPS-schnorr-pok-sha256-mod-v4"

def dstNonceCommitment : Bytes := ascii "WRAPS-schnorr-nonce-commitment-v1"

/-- Thirty-two bytes: a digest, or entropy of `ENTROPY_SIZE`. -/
abbrev Digest := Vector UInt8 32

inductive WrapsError
  | invalidInput (msg : String)
  | cryptography (msg : String)
  deriving DecidableEq, Repr

def WrapsError.display : WrapsError → String
  | .invalidInput msg => s!"invalid input: {msg}"
  | .cryptography msg => s!"cryptography error: {msg}"

abbrev Result (α : Type) := Outcome WrapsError α

/-- The curve engine and the hashes the crate runs on. The scalar field is at least as
large as the base field, so that a base element always fits when it is switched over;
of the hashes nothing is assumed. -/
structure Engine where
  baseModulus : ℕ
  scalarModulus : ℕ
  [base_prime : Fact baseModulus.Prime]
  [scalar_prime : Fact scalarModulus.Prime]
  challenge_lt : 2 ^ numChallengeBits < baseModulus
  base_le_scalar : baseModulus ≤ scalarModulus
  GE : Type
  [addCommGroupGE : AddCommGroup GE]
  [moduleGE : Module (ZMod scalarModulus) GE]
  [decidableEqGE : DecidableEq GE]
  gen : GE
  gen_ne_zero : gen ≠ 0
  toCoordinates : GE → ZMod baseModulus × ZMod baseModulus × Bool
  toCoordinates_injective : Function.Injective toCoordinates
  toCoordinates_infinity : ∀ p, (toCoordinates p).2.2 = true ↔ p = 0
  /-- A sponge that absorbs the elements under a domain separator and squeezes one. -/
  poseidon : ℕ → List (ZMod baseModulus) → ZMod baseModulus
  sha256 : Bytes → Digest
  /-- `Scalar::random` on a ChaCha20 stream with the given seed. -/
  randomScalar : Digest → ZMod scalarModulus

namespace Engine

attribute [instance] base_prime scalar_prime addCommGroupGE moduleGE decidableEqGE

variable (E : Engine)

abbrev Base := ZMod E.baseModulus

abbrev Scalar := ZMod E.scalarModulus

end Engine

variable {E : Engine}

def isInfinity (p : E.GE) : Bool := (E.toCoordinates p).2.2

@[simp] theorem isInfinity_eq_true_iff {p : E.GE} : isInfinity p = true ↔ p = 0 :=
  E.toCoordinates_infinity p

@[simp] theorem isInfinity_eq_false_iff {p : E.GE} : isInfinity p = false ↔ p ≠ 0 := by
  rw [← Bool.not_eq_true, isInfinity_eq_true_iff]

def encodePoint (p : E.GE) : List E.Base :=
  [(E.toCoordinates p).1, (E.toCoordinates p).2.1, if isInfinity p then 1 else 0]

theorem encodePoint_injective : Function.Injective (encodePoint (E := E)) := by
  intro p q h
  simp only [encodePoint, List.cons.injEq, and_true] at h
  obtain ⟨hx, hy, hinf⟩ := h
  apply E.toCoordinates_injective
  refine Prod.ext hx (Prod.ext hy ?_)
  change isInfinity p = isInfinity q
  cases hp : isInfinity p <;> cases hq : isInfinity q <;> simp_all

def toRepr {n : ℕ} (x : ZMod n) : Bytes := leBytes 32 x.val

/-- `field_switch`: the same canonical representative, read in the scalar field. -/
def fieldSwitch (x : E.Base) : E.Scalar := (x.val : E.Scalar)

def leBitsOf {n : ℕ} (x : ZMod n) (numBits : ℕ) : List Bool :=
  (List.range numBits).map fun i ↦ x.val.testBit i

/-- A big-endian digest reduced into a field, by Horner's rule. -/
def reduceDigest {n : ℕ} (digest : Digest) : ZMod n :=
  digest.toList.foldl (fun acc byte ↦ acc * 256 + (byte.toNat : ZMod n)) 0

/-- The serializer of one type, with its errors as text: `decodeFromSlice` returns the
value and the number of bytes it consumed. -/
structure Bincode (T : Type) where
  encodeToVec : T → Except String Bytes
  decodeFromSlice : Bytes → Except String (T × ℕ)

namespace Bincode

variable {T : Type} (S : Bincode T)

def RoundTrips : Prop :=
  ∀ value, ∃ bytes, S.encodeToVec value = .ok bytes ∧
    S.decodeFromSlice bytes = .ok (value, bytes.length)

end Bincode

section Serialization

variable {T : Type} (S : Bincode T)

def encode (value : T) : Result Bytes :=
  match S.encodeToVec value with
  | .ok bytes => .ok bytes
  | .error e => fail (.cryptography s!"serialization failed: {e}")

def decode (bytes : Bytes) : Result T :=
  match S.decodeFromSlice bytes with
  | .ok (value, consumed) =>
    if consumed ≠ bytes.length then
      fail (.invalidInput "trailing bytes after serialized value")
    else .ok value
  | .error e => fail (.cryptography s!"deserialization failed: {e}")

variable {S}

theorem Bincode.RoundTrips.decode_encode (h : S.RoundTrips) (value : T) :
    ∃ bytes, encode S value = .ok bytes ∧ decode S bytes = .ok value := by
  obtain ⟨bytes, henc, hdec⟩ := h value
  exact ⟨bytes, by simp [encode, henc], by simp [decode, hdec]⟩

theorem Bincode.RoundTrips.decode_of_encode (h : S.RoundTrips) {value : T} {bytes : Bytes}
    (henc : encode S value = .ok bytes) : decode S bytes = .ok value := by
  obtain ⟨bytes', henc', hdec⟩ := h.decode_encode value
  rw [henc, Except.ok.injEq] at henc'
  exact henc' ▸ hdec

end Serialization

/-- Which seats of a book signed, always at the width the circuit has. -/
abbrev BitVector := Vector Bool maxAbSize

def padBitvector (bitvector : List Bool) : Result BitVector := do
  require (¬ bitvector.length > maxAbSize) (.invalidInput
    s!"bitvector has {bitvector.length} bits, more than the {maxAbSize} seats the circuit can take")
  .ok (Vector.ofFn fun i ↦ bitvector.getD i false)

theorem padBitvector_ok_iff {bitvector : List Bool} {bits : BitVector} :
    padBitvector bitvector = .ok bits ↔ bitvector.length ≤ maxAbSize ∧
      bits.toList = bitvector ++ List.replicate (maxAbSize - bitvector.length) false := by
  simp only [padBitvector, bind_ok_iff, require_ok_iff, exists_const, decide_eq_true_eq, not_lt,
    Except.ok.injEq]
  refine and_congr_right fun hle ↦ ?_
  have hlist : (Vector.ofFn fun i : Fin maxAbSize ↦ bitvector.getD i false).toList =
      bitvector ++ List.replicate (maxAbSize - bitvector.length) false := by
    apply List.ext_getElem
    · simp only [Vector.length_toList, List.length_append, List.length_replicate]
      omega
    · intro i h₁ h₂
      simp only [Vector.toList_ofFn, List.getElem_ofFn, List.getElem_append,
        List.getElem_replicate]
      split
      · rename_i h
        simp [h]
      · rename_i h
        simp [Nat.le_of_not_lt h]
  rw [← hlist, Vector.toList_inj, eq_comm]

end HieroCryptography.Wraps
