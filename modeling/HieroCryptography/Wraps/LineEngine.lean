import HieroCryptography.Foundation.Lucas
import HieroCryptography.Wraps.Signing

namespace HieroCryptography.Wraps

open Foundation Rust

def lineModulus : ℕ := 5 * 2 ^ 127 + 1

def lineFactors : List (ℕ × ℕ) := [(2, 127), (5, 1)]

theorem lineFactors_prime : ∀ f ∈ lineFactors, f.1.Prime := by
  simp only [lineFactors, List.forall_mem_cons]
  norm_num

theorem lineModulus_prime : lineModulus.Prime :=
  prime_of_lucasTest 17 130 lineFactors_prime (by decide +kernel)

instance : Fact lineModulus.Prime := ⟨lineModulus_prime⟩

instance : NeZero lineModulus := ⟨lineModulus_prime.ne_zero⟩

/-- A digest that copies the head of the last ninety-six bytes. -/
def copyDigest (bytes : Bytes) : Digest :=
  Vector.ofFn fun i ↦ (bytes.drop (bytes.length - 96)).getD i 0

/-- The additive group of a prime field as an engine, for a given sponge. -/
def lineEngine (sponge : ℕ → List (ZMod lineModulus) → ZMod lineModulus) : Engine where
  baseModulus := lineModulus
  scalarModulus := lineModulus
  challenge_lt := by decide
  base_le_scalar := le_rfl
  GE := ZMod lineModulus
  gen := 1
  gen_ne_zero := one_ne_zero
  toCoordinates := fun p ↦ (p, 0, p = 0)
  toCoordinates_injective := fun _ _ h ↦ congrArg Prod.fst h
  toCoordinates_infinity := fun _ ↦ decide_eq_true_iff
  poseidon := sponge
  sha256 := copyDigest
  randomScalar := fun seed ↦ (ofLeBytes seed.toList : ZMod lineModulus)

abbrev zeroLine : Engine := lineEngine fun _ _ ↦ 0

theorem copyDigest_append (pre head rest : Bytes) (hhead : head.length = 32)
    (hrest : rest.length = 64) : (copyDigest (pre ++ (head ++ rest))).toList = head := by
  have hdrop : (pre ++ (head ++ rest)).drop ((pre ++ (head ++ rest)).length - 96) =
      head ++ rest := by
    rw [List.length_append, List.length_append, hhead, hrest, Nat.add_sub_cancel, List.drop_left]
  rw [copyDigest, hdrop, Vector.toList_ofFn]
  apply List.ext_getElem (by rw [List.length_ofFn, hhead])
  intro i h₁ h₂
  rw [List.getElem_ofFn, List.getD_eq_getElem?_getD, List.getElem?_append_left h₂,
    List.getElem?_eq_getElem h₂, Option.getD_some]

/-- Nonce commitments of the line do not collide: the digest shows the point. -/
theorem line_commitNonce_injective {sponge : ℕ → List (ZMod lineModulus) → ZMod lineModulus} :
    Function.Injective (Multisig.commitNonce (E := lineEngine sponge)) := by
  have hshown : ∀ r : (lineEngine sponge).GE,
      ofLeBytes (Multisig.commitNonce r).nonceCommitment.toList =
        ZMod.val (n := lineModulus) r := by
    intro r
    have hbytes : (Multisig.commitNonce r).nonceCommitment.toList =
        leBytes 32 (ZMod.val (n := lineModulus) r) :=
      copyDigest_append _ _ _ (length_leBytes ..) (by simp [toRepr, length_leBytes])
    rw [hbytes, ofLeBytes_leBytes]
    exact (ZMod.val_lt _).trans (by decide)
  intro r r' h
  apply ZMod.val_injective lineModulus
  rw [← hshown r, ← hshown r', h]

theorem line_verify_zero {sponge : ℕ → List (ZMod lineModulus) → ZMod lineModulus}
    (hzero : ∀ elements, sponge dsChallenge elements = 0) (pk : (lineEngine sponge).GE)
    (next : List (lineEngine sponge).Base) (s : (lineEngine sponge).Scalar) :
    Schnorr.verify pk next ⟨0, s⟩ = true := by
  have hsqueeze (elements : List (lineEngine sponge).Base) :
      (lineEngine sponge).poseidon dsChallenge elements = 0 := hzero elements
  rw [Schnorr.verify, decide_eq_true_eq, Schnorr.challenge, hsqueeze, truncateToChallenge_eq,
    ofBits_leBitsOf (by rw [ZMod.val_zero]; decide), ZMod.val_zero, Nat.cast_zero]

theorem ofLeBytes_map_ofNat {digits : List ℕ} (h : ∀ d ∈ digits, d < 256) :
    ofLeBytes (digits.map UInt8.ofNat) = Nat.ofDigits 256 digits := by
  induction digits with
  | nil => rfl
  | cons d digits ih =>
    rw [List.forall_mem_cons] at h
    have hd : (UInt8.ofNat d).toNat = d := UInt8.toNat_ofNat_of_lt' h.1
    rw [Nat.ofDigits_cons, ← ih h.2, List.map_cons]
    simp [ofLeBytes, hd]

def Bincode.ofEncodable (T : Type) [Encodable T] : Bincode T where
  encodeToVec value := .ok ((Nat.digits 256 (Encodable.encode value)).map UInt8.ofNat)
  decodeFromSlice bytes :=
    match Encodable.decode (ofLeBytes bytes) with
    | some value => .ok (value, bytes.length)
    | none => .error "not the code of a value"

theorem Bincode.ofEncodable_roundTrips (T : Type) [Encodable T] :
    (Bincode.ofEncodable T).RoundTrips := by
  intro value
  refine ⟨_, rfl, ?_⟩
  have hcode : ofLeBytes ((Nat.digits 256 (Encodable.encode value)).map UInt8.ofNat) =
      Encodable.encode value := by
    rw [ofLeBytes_map_ofNat fun d hd ↦ Nat.digits_lt_base (by norm_num) hd, Nat.ofDigits_digits]
  simp only [Bincode.ofEncodable, hcode, Encodable.encodek]

/-- A format changed so that one value is written as given bytes, and every other behind them. -/
def Bincode.placing {T : Type} [DecidableEq T] (S : Bincode T) (value : T) (bytes : Bytes) :
    Bincode T where
  encodeToVec x := if x = value then .ok bytes else (S.encodeToVec x).map (bytes ++ 0 :: ·)
  decodeFromSlice input :=
    if input = bytes then .ok (value, bytes.length)
    else (S.decodeFromSlice (input.drop (bytes.length + 1))).map fun out ↦
      (out.1, bytes.length + 1 + out.2)

theorem Bincode.placing_roundTrips {T : Type} [DecidableEq T] {S : Bincode T} (hS : S.RoundTrips)
    (value : T) (bytes : Bytes) : (S.placing value bytes).RoundTrips := by
  intro x
  by_cases hx : x = value
  · exact ⟨bytes, if_pos hx, by rw [hx]; exact if_pos rfl⟩
  · obtain ⟨code, henc, hdec⟩ := hS x
    have hlen : (bytes ++ 0 :: code).length = bytes.length + 1 + code.length := by
      rw [List.length_append, List.length_cons]
      omega
    have hne : bytes ++ 0 :: code ≠ bytes := by
      intro h
      rw [h] at hlen
      omega
    have hdrop : (bytes ++ 0 :: code).drop (bytes.length + 1) = code := by simp
    refine ⟨bytes ++ 0 :: code, ?_, ?_⟩
    · simp only [placing, if_neg hx, henc, Except.map]
    · simp only [placing, if_neg hne, hdrop, hdec, Except.map, hlen]

instance encodableZMod {n : ℕ} [NeZero n] : Encodable (ZMod n) :=
  .ofLeftInverse ZMod.val Nat.cast ZMod.natCast_zmod_val

instance {sponge : ℕ → List (ZMod lineModulus) → ZMod lineModulus} :
    Encodable (lineEngine sponge).GE := inferInstanceAs (Encodable (ZMod lineModulus))

instance encodableUInt8 : Encodable UInt8 := .ofLeftInverse UInt8.toNat UInt8.ofNat fun x ↦ by simp

instance encodableVector {α : Type} [Encodable α] {n : ℕ} : Encodable (Vector α n) :=
  .ofLeftInjection Vector.toList
    (fun as ↦ if h : as.toArray.size = n then some ⟨as.toArray, h⟩ else none)
    fun v ↦ by simp [Vector.toList]

variable {E : Engine}

instance : NeZero E.baseModulus := ⟨E.base_prime.out.ne_zero⟩

instance : NeZero E.scalarModulus := ⟨E.scalar_prime.out.ne_zero⟩

instance : Encodable (RotationMessage E) :=
  .ofLeftInverse (fun m ↦ (m.addressBookHash, m.hintsVkHash)) (fun p ↦ ⟨p.1, p.2⟩) fun _ ↦ rfl

instance : Encodable (Signature E) :=
  .ofLeftInverse (fun sig ↦ (sig.e, sig.s)) (fun p ↦ ⟨p.1, p.2⟩) fun _ ↦ rfl

instance [Encodable E.GE] : Encodable (RoundMessage E) :=
  .ofLeftInverse (β := RoundMessage E) (α := Digest ⊕ E.GE ⊕ Signature E)
    (fun
      | .round1 m => .inl m.nonceCommitment
      | .round2 m => .inr (.inl m.noncePoint)
      | .round3 m => .inr (.inr m.partialSignature))
    (fun
      | .inl digest => .round1 ⟨digest⟩
      | .inr (.inl r) => .round2 ⟨r⟩
      | .inr (.inr sig) => .round3 ⟨sig⟩)
    fun m ↦ by cases m <;> rfl

def codeSerde (E : Engine) [Encodable E.GE] : Serde E where
  rotationMessage := .ofEncodable _
  roundMessage := .ofEncodable _

theorem exists_message (E : Engine) [Encodable E.GE] (msg : RotationMessage E) :
    ∃ bytes, decodeRotationMessage (codeSerde E) bytes = .ok msg := by
  obtain ⟨bytes, -, hdecode⟩ := (Bincode.ofEncodable_roundTrips _).decode_encode msg
  exact ⟨bytes, decodeRotationMessage_ok_iff.mpr hdecode⟩

def heldSeat (nodeId : E.Base) (sk : E.Scalar) : AddressBookEntry E where
  nodeId := nodeId
  pubKey := (Schnorr.keygen sk : Keypair E).pk
  pok := Schnorr.proveKnowledge (Schnorr.keygen sk) 1
  weight := 1

/-- A seat nobody holds, heavier than those somebody holds. -/
def vacantSeat : AddressBookEntry E := { paddingEntry with weight := 5 }

/-- A committee of two, with a vacant seat between them. -/
def pairBook (E : Engine) : AddressBook E := [heldSeat 0 1, vacantSeat, heldSeat 1 (1 + 1)]

def pairBits : BitVector := Vector.ofFn fun i ↦ [true, false, true].getD i false

theorem padBitvector_pair : padBitvector [true, false, true] = .ok pairBits := rfl

theorem isInfinity_vacantSeat : isInfinity (vacantSeat : AddressBookEntry E).pubKey = true :=
  isInfinity_sentinel

theorem scalar_natCast_ne_zero {n : ℕ} (hpos : 0 < n) (h : n ≤ 2 ^ numChallengeBits) :
    (n : E.Scalar) ≠ 0 := by
  rw [ne_eq, ZMod.natCast_eq_zero_iff]
  exact Nat.not_dvd_of_pos_of_lt hpos (h.trans_lt (E.challenge_lt.trans_le E.base_le_scalar))

theorem first_pk {nodeId : E.Base} : (heldSeat nodeId 1).pubKey = E.gen := one_smul _ _

theorem second_pk {nodeId : E.Base} : (heldSeat nodeId (1 + 1)).pubKey = E.gen + E.gen := by
  change (1 + 1 : E.Scalar) • E.gen = _
  rw [add_smul, one_smul]

theorem heldSeat_weight {nodeId : E.Base} {sk : E.Scalar} : (heldSeat nodeId sk).weight = 1 := rfl

theorem gen_add_gen_ne_zero : E.gen + E.gen ≠ 0 := by
  have h := smul_ne_zero (scalar_natCast_ne_zero (E := E) (n := 2) (by decide) (by decide))
    E.gen_ne_zero
  rwa [Nat.cast_smul_eq_nsmul, two_nsmul] at h

theorem isInfinity_gen : isInfinity E.gen = false := isInfinity_eq_false_iff.mpr E.gen_ne_zero

theorem isInfinity_gen_add_gen : isInfinity (E.gen + E.gen) = false :=
  isInfinity_eq_false_iff.mpr gen_add_gen_ne_zero

theorem effectiveWeight_pairBook : (pairBook E).map effectiveWeight = [1, 0, 1] := by
  simp only [pairBook, List.map_cons, List.map_nil, effectiveWeight, first_pk, second_pk,
    isInfinity_gen, isInfinity_gen_add_gen, isInfinity_vacantSeat]
  rfl

theorem pairBook_valid : ValidBook (pairBook E) where
  size := show 3 ≤ 64 by decide
  distinct := by
    simp only [pairBook, liveKeys_cons, first_pk, second_pk, isInfinity_gen,
      isInfinity_gen_add_gen, isInfinity_vacantSeat, Bool.false_eq_true, if_false, if_true]
    simp [liveKeys, E.gen_ne_zero]
  attested := by
    simp only [pairBook, List.forall_mem_cons]
    exact ⟨fun _ ↦ Schnorr.verifyKnowledge_proveKnowledge _ _,
      fun h ↦ absurd (isInfinity_eq_true_iff.mp isInfinity_vacantSeat) h,
      fun _ ↦ Schnorr.verifyKnowledge_proveKnowledge _ _, by simp⟩
  weight_lt := by
    rw [totalWeight, effectiveWeight_pairBook]
    decide

theorem seats_pair : seats (pairBook E) pairBits = (pairBook E).zip [true, false, true] := rfl

theorem signingSubset_pair : signingSubset (pairBook E) pairBits = [E.gen, E.gen + E.gen] := by
  rw [signingSubset, seats_pair]
  simp [pairBook, signerKey, first_pk, second_pk, E.gen_ne_zero, gen_add_gen_ne_zero]

theorem pair_sum_ne_zero : [E.gen, E.gen + E.gen].sum ≠ 0 := by
  have h := smul_ne_zero (scalar_natCast_ne_zero (E := E) (n := 3) (by decide) (by decide))
    E.gen_ne_zero
  rw [Nat.cast_smul_eq_nsmul, succ_nsmul', two_nsmul] at h
  simpa using h

theorem pairBook_joint : (signingSubset (pairBook E) pairBits).sum ≠ 0 := by
  rw [signingSubset_pair]
  exact pair_sum_ne_zero

theorem pairBook_majority :
    2 * signingWeight (pairBook E) pairBits > totalWeight (pairBook E) := by
  rw [totalWeight, effectiveWeight_pairBook, signingWeight, seats_pair]
  simp [pairBook, effectiveWeight, first_pk, second_pk, E.gen_ne_zero, gen_add_gen_ne_zero,
    heldSeat_weight]

end HieroCryptography.Wraps
