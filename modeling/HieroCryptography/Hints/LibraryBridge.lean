import HieroCryptography.Hints.Jni

namespace HieroCryptography.Hints

open Rust

def maxSignersNum : ℤ := 63

def minAggregationKeySize : ℕ := 49

def aggregateSignatureLengthBytes : ℕ := 9 * 96 + 192 + 6 * 32

def tssVerificationKeyLengthBytes : ℕ := 1096

/-- The product is taken over longs, where it cannot overflow. -/
def validateCrs (crs : Option Bytes) (n : Int32) : Bool :=
  n.toInt > 0 && n.toInt ≤ maxSignersNum + 1 && (n &&& (n - 1)) == 0 &&
    crs.elim false fun crs ↦ (crs.length : ℤ) ≥ 304 + n.toInt * 288

def inferNFromCrsLength (crs : Bytes) : ℤ := ((crs.length : ℤ) - 304).tdiv 288

def validatePartyId (partyId n : ℤ) : Bool :=
  n ≤ maxSignersNum + 1 && partyId ≥ 0 && partyId < n - 1

def isNonEmpty (array : Option Bytes) : Bool := array.elim false fun bytes ↦ bytes.length ≠ 0

def validatePartialSignatures (parties : List Int32)
    (partialSignatures : List (Option Bytes)) : Bool :=
  partialSignatures.length ≠ 0 && parties.length = partialSignatures.length &&
    partialSignatures.all isNonEmpty

namespace PointCodec

open Native

variable {E : Curve} (P : PointCodec E)

def initCrs (signersNum : Int16) : Option Bytes :=
  if signersNum.toInt < 1 || signersNum.toInt > maxSignersNum + 1 then none
  else catchUnwind (P.initCrsImpl signersNum)

def updateCrs (prevCrs random : Option Bytes) : Option Bytes := do
  let prevCrs ← prevCrs
  let random ← random
  if prevCrs.length = 0 || random.length ≠ 32 then none
  else catchUnwind (P.updateCrsImpl prevCrs random)

def verifyCrs (prevCrs nextCrs contributionProof : Option Bytes) : Bool :=
  match prevCrs, nextCrs, contributionProof with
  | some prevCrs, some nextCrs, some contributionProof =>
    prevCrs.length ≠ 0 && nextCrs.length ≠ 0 &&
      catchUnwindBool (P.verifyCrsImpl prevCrs nextCrs contributionProof)
  | _, _, _ => false

def pruneCrs (prevCrs : Option Bytes) (signersNum : Int16) : Option Bytes := do
  let prevCrs ← prevCrs
  if signersNum.toInt < 1 || signersNum.toInt > maxSignersNum + 1 then none
  else catchUnwind (P.pruneCrsImpl prevCrs signersNum)

def computeHints (crs secretKey : Option Bytes) (partyId n : Int32) : Option Bytes := do
  if validateCrs crs n && validatePartyId partyId.toInt n.toInt then
    let crs ← crs
    let secretKey ← secretKey
    catchUnwind (P.computeHintsImpl crs secretKey partyId n)
  else none

def validateHintsKey (crs hintsPublicKey : Option Bytes) (partyId n : Int32) : Bool :=
  match crs, hintsPublicKey with
  | some crs, some hintsPublicKey =>
    validateCrs crs n && validatePartyId partyId.toInt n.toInt &&
      catchUnwindBool (P.validateHintsKeyImpl crs hintsPublicKey partyId n)
  | _, _ => false

def preprocess (crs : Option Bytes) (parties : Option (List Int32))
    (hintsPublicKeys : Option (List (Option Bytes))) (weights : Option (List Int64)) (n : Int32) :
    Option (Bytes × Bytes) := do
  if validateCrs crs n then
    let crs ← crs
    let parties ← parties
    let hintsPublicKeys ← hintsPublicKeys
    let weights ← weights
    if validateWeightsSum weights && ¬ (parties.length : ℤ) ≥ n.toInt &&
        hintsPublicKeys.length = parties.length && weights.length = parties.length &&
        parties.all (fun party ↦ validatePartyId party.toInt n.toInt) &&
        hintsPublicKeys.all Option.isSome && weights.all (¬ · < 0) then
      catchUnwind (P.preprocessImpl crs parties hintsPublicKeys weights n)
    else none
  else none

def signBls (message privateKey : Option Bytes) : Option Bytes := do
  let message ← message
  let privateKey ← privateKey
  if message.length = 0 || privateKey.length = 0 then none
  else catchUnwind (P.signBlsImpl message privateKey)

def verifyBls (signature message aggregationKey : Option Bytes) (partyId : Int32) : Bool :=
  match signature, message, aggregationKey with
  | some signature, some message, some aggregationKey =>
    signature.length ≠ 0 && message.length ≠ 0 &&
      ¬ aggregationKey.length < minAggregationKeySize &&
      ¬ partyId.toInt < 0 && ¬ partyId.toInt ≥ maxSignersNum &&
      catchUnwindBool (P.verifyBlsImpl signature message aggregationKey partyId)
  | _, _, _ => false

/-- The scalar `r` is the one the native batch check draws. -/
def verifyBlsBatch (message aggregationKey : Option Bytes) (parties : Option (List Int32))
    (partialSignatures : Option (List (Option Bytes))) (r : Fr) : Bool :=
  match message, aggregationKey, parties, partialSignatures with
  | some message, some aggregationKey, some parties, some partialSignatures =>
    message.length ≠ 0 && ¬ aggregationKey.length < minAggregationKeySize &&
      parties.length ≠ 0 && validatePartialSignatures parties partialSignatures &&
      parties.all (fun party ↦ validatePartyId party.toInt (maxSignersNum + 1)) &&
      catchUnwindBool (P.verifyBlsBatchImpl message aggregationKey parties partialSignatures r)
  | _, _, _, _ => false

def aggregateSignatures (crs aggregationKey verificationKey : Option Bytes)
    (parties : Option (List Int32)) (partialSignatures : Option (List (Option Bytes))) :
    Option Bytes := do
  let crs ← crs
  let aggregationKey ← aggregationKey
  let verificationKey ← verificationKey
  let parties ← parties
  let partialSignatures ← partialSignatures
  if crs.length ≠ 0 && ¬ aggregationKey.length < minAggregationKeySize &&
      verificationKey.length ≠ 0 && parties.length ≠ 0 &&
      validatePartialSignatures parties partialSignatures &&
      parties.all (fun party ↦ validatePartyId party.toInt (inferNFromCrsLength crs)) then
    catchUnwind (P.aggregateSignaturesImpl crs aggregationKey verificationKey parties
      partialSignatures)
  else none

def verifyAggregate (signature message verificationKey : Option Bytes)
    (thresholdNumerator thresholdDenominator : Int64) : Bool :=
  match signature, message, verificationKey with
  | some signature, some message, some verificationKey =>
    signature.length = aggregateSignatureLengthBytes && message.length ≠ 0 &&
      verificationKey.length = tssVerificationKeyLengthBytes &&
      ¬ thresholdNumerator ≤ 0 && ¬ thresholdDenominator ≤ 0 &&
      catchUnwindBool (P.verifyAggregateImpl signature message verificationKey thresholdNumerator
        thresholdDenominator)
  | _, _, _ => false

def verifyAggregateMajority (signature message verificationKey : Option Bytes) : Bool :=
  P.verifyAggregate signature message verificationKey 1 2

end PointCodec

section Guards

theorem powerOfTwo_table : ∀ m < 65, 0 < m →
    (((Int32.ofNat m &&& (Int32.ofNat m - 1)) == 0) = true ↔ ∃ k < 7, m = 2 ^ k) := by
  decide +kernel

theorem isPowerOfTwo_iff {n : Int32} (hpos : 0 < n.toInt) (hle : n.toInt ≤ 64) :
    ((n &&& (n - 1)) == 0) = true ↔ ∃ k < 7, n.toInt = 2 ^ k := by
  obtain ⟨m, hm⟩ := Int.eq_ofNat_of_zero_le hpos.le
  have hn : n = Int32.ofNat m := by
    rw [← Int32.ofInt_toInt n, hm]
    rfl
  have htable := powerOfTwo_table m (by omega) (by omega)
  rw [← hn] at htable
  rw [htable, hm]
  norm_cast

theorem maxSignersNum_add_one : maxSignersNum + 1 = 64 := rfl

theorem validateCrs_iff {crs : Bytes} {n : Int32} : validateCrs (some crs) n = true ↔
    ∃ k < 7, n.toInt = 2 ^ k ∧ 304 + 2 ^ k * 288 ≤ crs.length := by
  simp only [validateCrs, Bool.and_eq_true, decide_eq_true_eq, gt_iff_lt, Option.elim_some,
    ge_iff_le, and_assoc]
  rw [maxSignersNum_add_one]
  constructor
  · intro ⟨hpos, hle, hbits, hlen⟩
    obtain ⟨k, hk, hn⟩ := (isPowerOfTwo_iff hpos hle).mp hbits
    refine ⟨k, hk, hn, ?_⟩
    rw [hn] at hlen
    exact_mod_cast hlen
  · intro ⟨k, hk, hn, hlen⟩
    have hpow : (2 : ℤ) ^ k ≤ 2 ^ 6 := pow_le_pow_right₀ (by norm_num) (by omega)
    have hpos : (0 : ℤ) < 2 ^ k := by positivity
    refine ⟨hn ▸ hpos, hn ▸ hpow, ?_, ?_⟩
    · exact (isPowerOfTwo_iff (hn ▸ hpos) (hn ▸ hpow)).mpr ⟨k, hk, hn⟩
    · rw [hn]
      exact_mod_cast hlen

theorem validatePartyId_iff {partyId n : ℤ} :
    validatePartyId partyId n = true ↔ n ≤ 64 ∧ 0 ≤ partyId ∧ partyId < n - 1 := by
  simp only [validatePartyId, Bool.and_eq_true, decide_eq_true_eq, ge_iff_le, and_assoc]
  rw [maxSignersNum_add_one]

end Guards

namespace PointCodec

open Native

variable {E : Curve} {P : PointCodec E}

/-! What each method answers, in terms of the objects behind its arrays. -/

theorem deserializeJbyteArray_ok_iff {T : Type} {w : Wire T} {jarray : Bytes} {a : T} :
    deserializeJbyteArray w jarray = .ok a ↔ w.decode jarray = some a :=
  okOr_ok_iff

theorem computeHints_eq_some_iff {crs secretKey out : Bytes} {partyId n : Int32} :
    P.computeHints (some crs) (some secretKey) partyId n = some out ↔
      validateCrs (some crs) n = true ∧ validatePartyId partyId.toInt n.toInt = true ∧
      ∃ c sk hint, P.crs.decode crs = some c ∧ P.secretKey.decode secretKey = some sk ∧
        hintGen c (asUsize n.toInt) (asUsize partyId.toInt) sk = .ok hint ∧
        P.extendedPublicKey.write hint = out := by
  simp only [computeHints, Option.ite_none_right_eq_some, Bool.and_eq_true, Option.bind_eq_bind,
    Option.bind_some, catchUnwind_eq_some_iff, computeHintsImpl, bind_ok_iff,
    deserializeJbyteArray_ok_iff, orNull_ok_iff, Except.ok.injEq, and_assoc, exists_and_left]

theorem validateHintsKey_eq_true_iff {crs hints : Bytes} {partyId n : Int32} :
    P.validateHintsKey (some crs) (some hints) partyId n = true ↔
      validateCrs (some crs) n = true ∧ validatePartyId partyId.toInt n.toInt = true ∧
      ∃ c hint, P.crs.decode crs = some c ∧ P.extendedPublicKey.decode hints = some hint ∧
        verifyHint c (asUsize n.toInt) (asUsize partyId.toInt) hint = .ok true := by
  simp only [validateHintsKey, Bool.and_eq_true, catchUnwindBool_eq_true_iff, validateHintsKeyImpl,
    bind_ok_iff, deserializeJbyteArray_ok_iff, orNull_ok_iff, and_assoc, exists_and_left]

theorem signBls_eq_some_iff {message privateKey out : Bytes} :
    P.signBls (some message) (some privateKey) = some out ↔
      message ≠ [] ∧ privateKey ≠ [] ∧ ∃ sk σ, P.secretKey.decode privateKey = some sk ∧
        sign message sk = .ok σ ∧ P.g2.write σ = out := by
  simp only [signBls, Option.bind_eq_bind, Option.bind_some, Option.ite_none_left_eq_some,
    Bool.or_eq_true, decide_eq_true_eq, not_or, List.length_eq_zero_iff, catchUnwind_eq_some_iff,
    signBlsImpl, bind_ok_iff, deserializeJbyteArray_ok_iff, orNull_ok_iff, Except.ok.injEq,
    and_assoc, exists_and_left, ne_eq]

theorem verifyBls_eq_true_iff {signature message aggregationKey : Bytes} {partyId : Int32} :
    P.verifyBls (some signature) (some message) (some aggregationKey) partyId = true ↔
      signature ≠ [] ∧ message ≠ [] ∧ minAggregationKeySize ≤ aggregationKey.length ∧
      0 ≤ partyId.toInt ∧ partyId.toInt < maxSignersNum ∧
      ∃ ak σ, P.aggregationKey.decode aggregationKey = some ak ∧ P.g2.decode signature = some σ ∧
        partialVerify message ak (asUsize partyId.toInt) σ = .ok true := by
  simp only [verifyBls, Bool.and_eq_true, decide_eq_true_eq, ne_eq, List.length_eq_zero_iff,
    not_lt, not_le, ge_iff_le, catchUnwindBool_eq_true_iff, verifyBlsImpl, bind_ok_iff,
    deserializeJbyteArray_ok_iff, orNull_ok_iff, and_assoc, exists_and_left]

theorem verifyAggregate_eq_true_iff {signature message verificationKey : Bytes}
    {num den : Int64} :
    P.verifyAggregate (some signature) (some message) (some verificationKey) num den = true ↔
      signature.length = aggregateSignatureLengthBytes ∧ message ≠ [] ∧
      verificationKey.length = tssVerificationKeyLengthBytes ∧ 0 < num ∧ 0 < den ∧
      ∃ π vk, P.thresholdSignature.decode signature = some π ∧
        P.verificationKey.decode verificationKey = some vk ∧
        verify message vk π (longToFr num, longToFr den) = .ok true := by
  simp only [verifyAggregate, Bool.and_eq_true, decide_eq_true_eq, ne_eq, List.length_eq_zero_iff,
    Int64.not_le, catchUnwindBool_eq_true_iff, verifyAggregateImpl, bind_ok_iff,
    deserializeJbyteArray_ok_iff, orNull_ok_iff, and_assoc, exists_and_left]

theorem verifyCrs_eq_true_iff {prevCrs nextCrs contributionProof : Bytes} :
    P.verifyCrs (some prevCrs) (some nextCrs) (some contributionProof) = true ↔
      prevCrs ≠ [] ∧ nextCrs ≠ [] ∧ ∃ prev next proof, P.crs.decode prevCrs = some prev ∧
        P.crs.decode nextCrs = some next ∧
        P.contributionProof.decode contributionProof = some proof ∧
        verifyContribution prev next proof = .ok true := by
  simp only [verifyCrs, Bool.and_eq_true, decide_eq_true_eq, ne_eq, List.length_eq_zero_iff,
    catchUnwindBool_eq_true_iff, verifyCrsImpl, bind_ok_iff, deserializeJbyteArray_ok_iff,
    orNull_ok_iff, and_assoc, exists_and_left]

theorem buildEntropyArray_ok_iff {random seed : Bytes} :
    buildEntropyArray random = .ok seed ↔ random.length = randomSize ∧ random = seed := by
  simp only [buildEntropyArray, bind_ok_iff, require_ok_iff, decide_eq_true_eq, exists_and_left,
    exists_const, Except.ok.injEq]

theorem updateCrs_eq_some_iff {prevCrs random out : Bytes} :
    P.updateCrs (some prevCrs) (some random) = some out ↔
      prevCrs ≠ [] ∧ random.length = randomSize ∧ ∃ prev next proof,
        P.crs.decode prevCrs = some prev ∧ contribute prev random = .ok (next, proof) ∧
        P.crs.write next ++ P.contributionProof.write proof = out := by
  simp only [updateCrs, Option.bind_eq_bind, Option.bind_some, Option.ite_none_left_eq_some,
    Bool.or_eq_true, decide_eq_true_eq, not_or, List.length_eq_zero_iff, catchUnwind_eq_some_iff,
    updateCrsImpl, bind_ok_iff, deserializeJbyteArray_ok_iff, orNull_ok_iff, Except.ok.injEq,
    buildEntropyArray_ok_iff, and_assoc, exists_and_left, exists_eq_left', ne_eq, Prod.exists,
    not_not]
  constructor
  · intro ⟨hne, _, prev, hprev, hlen, next, proof, hcontribute, hout⟩
    exact ⟨hne, hlen, prev, hprev, next, proof, hcontribute, hout⟩
  · intro ⟨hne, hlen, prev, hprev, next, proof, hcontribute, hout⟩
    exact ⟨hne, hlen, prev, hprev, hlen, next, proof, hcontribute, hout⟩

theorem pruneCrs_eq_some_iff {prevCrs out : Bytes} {signersNum : Int16} :
    P.pruneCrs (some prevCrs) signersNum = some out ↔
      1 ≤ signersNum.toInt ∧ signersNum.toInt ≤ 64 ∧ ∃ prev crs,
        P.crs.decode prevCrs = some prev ∧
        Hints.pruneCrs prev (asUsize signersNum.toInt) = .ok crs ∧ P.crs.write crs = out := by
  simp only [pruneCrs, Option.bind_eq_bind, Option.bind_some, Option.ite_none_left_eq_some,
    Bool.or_eq_true, decide_eq_true_eq, not_or, not_lt, gt_iff_lt, catchUnwind_eq_some_iff,
    pruneCrsImpl, bind_ok_iff, deserializeJbyteArray_ok_iff, orNull_ok_iff, Except.ok.injEq,
    and_assoc, exists_and_left]
  rw [maxSignersNum_add_one]

theorem generateSecretKey_eq_some_iff {random out : Bytes} :
    catchUnwind (P.generateSecretKey (some random)) = some out ↔
      random.length = randomSize ∧ ∃ sk, keygen E random = .ok sk ∧
        P.secretKey.write sk = out := by
  simp only [catchUnwind_eq_some_iff, generateSecretKey, okOr_some, ok_bind, bind_ok_iff,
    buildEntropyArray_ok_iff, orNull_ok_iff, Except.ok.injEq, and_assoc, exists_and_left,
    exists_eq_left']

def Elements {T : Type} (w : Wire T) : List (Option Bytes) → List T → Prop :=
  List.Forall₂ fun element object ↦ element.bind w.decode = some object

theorem deserializeElements_ok_iff {T : Type} {w : Wire T} {jarray : List (Option Bytes)}
    {objects : List T} {length : ℕ} (h : jarray.length = length) :
    deserializeElements w jarray length = .ok objects ↔ Elements w jarray objects := by
  subst length
  rw [deserializeElements, mapM_range_ok_iff, Elements, List.forall₂_iff_get]
  constructor
  · rintro ⟨hlen, h⟩
    refine ⟨hlen.symm, fun i h₁ h₂ ↦ ?_⟩
    have hi := h i objects[i] (List.getElem?_eq_getElem h₂)
    simp only [List.getElem?_eq_getElem h₁, okOr_some, ok_bind, bind_ok_iff, okOr_ok_iff,
      deserializeJbyteArray_ok_iff] at hi
    obtain ⟨bytes, hbytes, hobject⟩ := hi
    rw [List.get_eq_getElem, hbytes]
    exact hobject
  · rintro ⟨hlen, h⟩
    refine ⟨hlen.symm, fun i object hi ↦ ?_⟩
    obtain ⟨h₂, rfl⟩ := List.getElem?_eq_some_iff.mp hi
    have h₁ : i < jarray.length := hlen ▸ h₂
    obtain ⟨bytes, hbytes, hobject⟩ := Option.bind_eq_some_iff.mp (h i h₁ h₂)
    rw [List.get_eq_getElem] at hbytes
    simp only [List.getElem?_eq_getElem h₁, okOr_some, ok_bind, hbytes]
    exact deserializeJbyteArray_ok_iff.mpr hobject

theorem Elements.isSome {T : Type} {w : Wire T} {jarray : List (Option Bytes)} {objects : List T}
    (h : Elements w jarray objects) : ∀ element ∈ jarray, element.isSome = true := by
  intro element he
  obtain ⟨i, hi, rfl⟩ := List.mem_iff_getElem.mp he
  have hlen := List.Forall₂.length_eq h
  obtain ⟨bytes, hbytes, -⟩ := Option.bind_eq_some_iff.mp
    ((List.forall₂_iff_get.mp h).2 i hi (hlen ▸ hi))
  rw [List.get_eq_getElem] at hbytes
  rw [hbytes, Option.isSome_some]

theorem preprocess_eq_some_iff {crs : Bytes} {parties : List Int32} {hints : List (Option Bytes)}
    {weights : List Int64} {n : Int32} {out : Bytes × Bytes} :
    P.preprocess (some crs) (some parties) (some hints) (some weights) n = some out ↔
      validateCrs (some crs) n = true ∧ acceptsWeights weights = true ∧
      (parties.length : ℤ) < n.toInt ∧ hints.length = parties.length ∧
      weights.length = parties.length ∧
      (∀ party ∈ parties, validatePartyId party.toInt n.toInt = true) ∧
      ∃ c epks vk ak, P.crs.decode crs = some c ∧ Elements P.extendedPublicKey hints epks ∧
        Hints.preprocess (asUsize n.toInt) c (signerInfo
          ((parties.map fun party ↦ asUsize party.toInt).zip (weights.zip epks))) =
          .ok (vk, ak) ∧
        (P.verificationKey.write vk, P.aggregationKey.write ak) = out := by
  have himpl (hhints : hints.length = parties.length) (hweights : weights.length = parties.length) :
      P.preprocessImpl crs parties hints weights n = .ok out ↔
        ∃ c epks vk ak, P.crs.decode crs = some c ∧ Elements P.extendedPublicKey hints epks ∧
          Hints.preprocess (asUsize n.toInt) c (signerInfo
            ((parties.map fun party ↦ asUsize party.toInt).zip (weights.zip epks))) =
            .ok (vk, ak) ∧
          (P.verificationKey.write vk, P.aggregationKey.write ak) = out := by
    simp only [preprocessImpl, arrayRegion_of_eq, hweights, bind_ok_iff,
      deserializeJbyteArray_ok_iff, deserializeElements_ok_iff hhints, ok_bind, orNull_ok_iff,
      Prod.exists, Except.ok.injEq, exists_and_left]
  simp only [preprocess, Option.ite_none_right_eq_some, Bool.and_eq_true, Option.bind_eq_bind,
    Option.bind_some, catchUnwind_eq_some_iff, List.all_eq_true, decide_eq_true_eq, not_le,
    ge_iff_le, acceptsWeights, and_assoc]
  constructor
  · rintro ⟨hcrs, hsum, hcount, hhints, hweights, hparties, -, hneg, h⟩
    exact ⟨hcrs, hsum, hneg, hcount, hhints, hweights, hparties, (himpl hhints hweights).mp h⟩
  · rintro ⟨hcrs, hsum, hneg, hcount, hhints, hweights, hparties, h⟩
    obtain ⟨_, _, _, _, _, hepks, _⟩ := id h
    exact ⟨hcrs, hsum, hcount, hhints, hweights, hparties, hepks.isSome, hneg,
      (himpl hhints hweights).mpr h⟩

theorem validatePartialSignatures_iff {parties : List Int32} {signatures : List (Option Bytes)} :
    validatePartialSignatures parties signatures = true ↔ signatures ≠ [] ∧
      parties.length = signatures.length ∧ ∀ σ ∈ signatures, isNonEmpty σ = true := by
  simp only [validatePartialSignatures, Bool.and_eq_true, decide_eq_true_eq, List.all_eq_true,
    ne_eq, List.length_eq_zero_iff, and_assoc]

theorem parties_ne_nil {parties : List Int32} {signatures : List (Option Bytes)}
    (h : validatePartialSignatures parties signatures = true) : parties ≠ [] := by
  obtain ⟨hne, hlen, -⟩ := validatePartialSignatures_iff.mp h
  rintro rfl
  exact hne (List.length_eq_zero_iff.mp hlen.symm)

theorem aggregateSignatures_eq_some_iff {crs ak vk out : Bytes} {parties : List Int32}
    {signatures : List (Option Bytes)} :
    P.aggregateSignatures (some crs) (some ak) (some vk) (some parties) (some signatures) =
        some out ↔
      crs ≠ [] ∧ minAggregationKeySize ≤ ak.length ∧ vk ≠ [] ∧
      validatePartialSignatures parties signatures = true ∧
      (∀ party ∈ parties, validatePartyId party.toInt (inferNFromCrsLength crs) = true) ∧
      ∃ c aggKey verKey σs π, P.crs.decode crs = some c ∧
        P.aggregationKey.decode ak = some aggKey ∧ P.verificationKey.decode vk = some verKey ∧
        Elements P.g2 signatures σs ∧
        aggregate c aggKey verKey (partialSignatureMap
          ((parties.map fun party ↦ asUsize party.toInt).zip σs)) = .ok π ∧
        P.thresholdSignature.write π = out := by
  have himpl (h : validatePartialSignatures parties signatures = true) :
      P.aggregateSignaturesImpl crs ak vk parties signatures = .ok out ↔
        ∃ c aggKey verKey σs π, P.crs.decode crs = some c ∧
          P.aggregationKey.decode ak = some aggKey ∧ P.verificationKey.decode vk = some verKey ∧
          Elements P.g2 signatures σs ∧
          aggregate c aggKey verKey (partialSignatureMap
            ((parties.map fun party ↦ asUsize party.toInt).zip σs)) = .ok π ∧
          P.thresholdSignature.write π = out := by
    have hlen := (validatePartialSignatures_iff.mp h).2.1
    simp only [aggregateSignaturesImpl, arrayRegion_of_eq, bind_ok_iff,
      deserializeJbyteArray_ok_iff, deserializeElements_ok_iff hlen.symm, ok_bind, orNull_ok_iff,
      Except.ok.injEq, exists_and_left]
  simp only [aggregateSignatures, Option.ite_none_right_eq_some, Bool.and_eq_true,
    Option.bind_eq_bind, Option.bind_some, catchUnwind_eq_some_iff, List.all_eq_true,
    decide_eq_true_eq, not_lt, ne_eq, List.length_eq_zero_iff, and_assoc]
  constructor
  · rintro ⟨hcrs, hak, hvk, -, hsigs, hparties, h⟩
    exact ⟨hcrs, hak, hvk, hsigs, hparties, (himpl hsigs).mp h⟩
  · rintro ⟨hcrs, hak, hvk, hsigs, hparties, h⟩
    exact ⟨hcrs, hak, hvk, parties_ne_nil hsigs, hsigs, hparties, (himpl hsigs).mpr h⟩

theorem verifyBlsBatch_eq_true_iff {message ak : Bytes} {parties : List Int32}
    {signatures : List (Option Bytes)} {r : Fr} :
    P.verifyBlsBatch (some message) (some ak) (some parties) (some signatures) r = true ↔
      message ≠ [] ∧ minAggregationKeySize ≤ ak.length ∧
      validatePartialSignatures parties signatures = true ∧
      (∀ party ∈ parties, validatePartyId party.toInt 64 = true) ∧
      ∃ aggKey σs, P.aggregationKey.decode ak = some aggKey ∧ Elements P.g2 signatures σs ∧
        partialVerifyBatch message aggKey (parties.map fun party ↦ asUsize party.toInt) σs r =
          .ok true := by
  have himpl (h : validatePartialSignatures parties signatures = true) :
      P.verifyBlsBatchImpl message ak parties signatures r = .ok true ↔
        ∃ aggKey σs, P.aggregationKey.decode ak = some aggKey ∧ Elements P.g2 signatures σs ∧
          partialVerifyBatch message aggKey (parties.map fun party ↦ asUsize party.toInt) σs r =
            .ok true := by
    have hlen := (validatePartialSignatures_iff.mp h).2.1
    simp only [verifyBlsBatchImpl, arrayRegion_of_eq, bind_ok_iff, deserializeJbyteArray_ok_iff,
      deserializeElements_ok_iff hlen.symm, ok_bind, orNull_ok_iff, exists_and_left]
  simp only [verifyBlsBatch, Bool.and_eq_true, catchUnwindBool_eq_true_iff, List.all_eq_true,
    decide_eq_true_eq, not_lt, ne_eq, List.length_eq_zero_iff, and_assoc]
  rw [maxSignersNum_add_one]
  constructor
  · rintro ⟨hmsg, hak, -, hsigs, hparties, h⟩
    exact ⟨hmsg, hak, hsigs, hparties, (himpl hsigs).mp h⟩
  · rintro ⟨hmsg, hak, hsigs, hparties, h⟩
    exact ⟨hmsg, hak, parties_ne_nil hsigs, hsigs, hparties, (himpl hsigs).mpr h⟩

variable (P) in
theorem inferNFromCrsLength_write {crs : CRS E} {d : ℕ} (hg : crs.powersOfG.length = d + 1)
    (hh : crs.powersOfH.length = d + 1) : inferNFromCrsLength (P.crs.write crs) = d := by
  have hlen : (P.crs.write crs).length = 304 + 288 * d := by
    rw [P.length_write_crs, hg, hh]
    omega
  rw [inferNFromCrsLength, hlen, Int.tdiv_eq_ediv_of_nonneg (by omega)]
  omega

end PointCodec

end HieroCryptography.Hints
