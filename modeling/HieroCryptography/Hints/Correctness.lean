import HieroCryptography.Hints.Verify

namespace HieroCryptography.Hints

open Polynomial Foundation Rust Kzg

variable {E : Curve}

def registeredWeight (signerInfo : HashMap (Fr × ExtendedPublicKey E)) (i : ℕ) : Fr :=
  (signerInfo.get i).elim 0 Prod.fst

def registeredKey (signerInfo : HashMap (Fr × ExtendedPublicKey E)) (i : ℕ) : E.G1 :=
  (signerInfo.get i).elim 0 fun v ↦ v.2.pkI

namespace Setting

variable {crs : CRS E} {n : ℕ} {τ : Fr} {S : Setting crs n τ} {w s : ℕ → Fr}
  {signerInfo : HashMap (Fr × ExtendedPublicKey E)}

theorem Registered.weight (h : Registered signerInfo n w s) {i : ℕ} (hi : i < n) :
    registeredWeight signerInfo i = w i := by
  unfold registeredWeight
  cases hget : signerInfo.get i with
  | none => exact (h.absent i hi hget).1.symm
  | some v => exact (h.present i v.1 v.2 hget).2.1.symm

theorem Registered.key (h : Registered signerInfo n w s) {i : ℕ} (hi : i < n) :
    registeredKey signerInfo i = s i • E.g := by
  unfold registeredKey
  cases hget : signerInfo.get i with
  | none => rw [(h.absent i hi hget).2, zero_smul]; rfl
  | some v => exact (h.present i v.1 v.2 hget).2.2.1

theorem Registered.sum_key (h : Registered signerInfo n w s) {signers : List ℕ}
    (hsigners : ∀ i ∈ signers, i < n) :
    (signers.map (registeredKey signerInfo)).sum = (signers.map s).sum • E.g := by
  rw [List.map_congr_left fun i hi ↦ h.key (hsigners i hi), List.sum_smul, List.map_map]
  rfl

theorem partialVerify_ok_true_iff {msg : Bytes} {i : ℕ} {σ : E.G2} :
    partialVerify msg (S.aggregationKey w s) i σ = .ok true ↔
      i < n - 1 ∧ s i ≠ 0 ∧ σ ≠ 0 ∧ ∃ H, hashToG2 E msg = .ok H ∧ σ = s i • H := by
  have hn := S.one_lt
  have hwf : aggregationKeyIsWellFormed (S.aggregationKey w s) = true := by
    simp [aggregationKeyIsWellFormed_iff, aggregationKey]
  have hak : (S.aggregationKey w s).n = n := rfl
  have hpair (H : E.G2) : E.pairing (s i • E.g) H = E.pairing E.g σ ↔ σ = s i • H := by
    obtain ⟨c, rfl⟩ := E.h_spans H
    rw [eq_comm, E.pairing_g_eq_iff, smul_smul]
  simp only [partialVerify, hwf, S.valid, Utils.usizeSub_one_of_isNValid S.valid, require_true, hak,
    bind_ok_iff, require_ok_iff,
    exists_const, index_ok_iff, checkOrReturnFalse_ok_true_iff, decide_eq_true_eq,
    Except.ok.injEq, not_le, ok_bind, ge_iff_le]
  refine and_congr_right fun hi ↦ ?_
  have hpk : (S.aggregationKey w s).pks[i]? = some (s i • E.g) := by
    simp [aggregationKey, show i < n by omega]
  simp only [hpk, Option.some.injEq, exists_eq_left', ne_eq, E.smul_g_eq_zero, hpair]

theorem sumcheckCheck_of_hold {π : ThresholdSignature E} {B Qz Qx PS : Fr[X]} {aggWeight key : Fr}
    (h : Relations.Hold S.domain (S.domain.interpolant w) (S.domain.interpolant s) B PS Qz Qx
      aggWeight key)
    (hb : π.bOfTauCom = B.eval τ • E.g) (hz : π.qzOfTauCom = Qz.eval τ • E.g)
    (hx : π.qxOfTauCom = Qx.eval τ • E.g) (hpk : π.aggPk = key • E.g) :
    sumcheckCheck (S.verificationKey w s) π
      (E.pairing π.qxOfTauCom (S.verificationKey w s).h1) = true := by
  have hτ := congrArg (eval τ) h.sumcheck
  rw [eval_mul, eval_add, eval_add, eval_C, eval_mul, eval_mul, eval_X] at hτ
  simp only [sumcheckCheck, verificationKey, hb, hz, hx, hpk, E.pairing_smul,
    E.pairing_smul_left key, ← add_smul, decide_eq_true_eq]
  rw [hτ]
  congr 1
  ring

theorem degreeCheck_of_eq {π : ThresholdSignature E} {Qx : Fr[X]}
    (hx : π.qxOfTauCom = Qx.eval τ • E.g) (hxτ : π.qxOfTauMulTauCom = (Qx.eval τ * τ) • E.g) :
    degreeCheck (S.verificationKey w s) π
      (E.pairing π.qxOfTauCom (S.verificationKey w s).h1) = true := by
  simp only [degreeCheck, verificationKey, hx, hxτ, E.pairing_smul, E.pairing_smul_left,
    decide_true]

/-- The signature of an honest aggregator over the keys of weights `w` and secrets `s`. -/
structure Aggregated (S : Setting crs n τ) (w s : ℕ → Fr) (signers : List ℕ) (aggSig : E.G2)
    (r : Fr) (π : ThresholdSignature E) : Prop where
  aggWeight : π.aggWeight = (signers.map w).sum
  aggPk : π.aggPk = ((signers.map s).sum / n) • E.g
  aggSig : π.aggSig = aggSig
  challenges : ∃ χq χop, deriveChallenges (S.verificationKey w s) π = .ok (χq, r, χop) ∧
    mergedRelationCheck (S.verificationKey w s) π S.domain.groupGen χq r =
      .ok (decide (r ^ n ≠ 1)) ∧
    openingAtRCheck (S.verificationKey w s) π r χop = true
  openingDivω : openingAtRDivωCheck (S.verificationKey w s) π (r / S.domain.groupGen) = true
  sumcheck : sumcheckCheck (S.verificationKey w s) π
    (E.pairing π.qxOfTauCom (S.verificationKey w s).h1) = true
  degree : degreeCheck (S.verificationKey w s) π
    (E.pairing π.qxOfTauCom (S.verificationKey w s).h1) = true

/-- Aggregation over honest keys succeeds for every set of signers below the reserved slot. -/
theorem aggregate_ok (S : Setting crs n τ) {w s : ℕ → Fr} (hw : w (n - 1) = 0)
    (hs : s (n - 1) = 0) {partialSignatures : HashMap E.G2}
    (hkeys : ∀ i ∈ partialSignatures.keys, i < n - 1) :
    ∃ π r, aggregate crs (S.aggregationKey w s) (S.verificationKey w s) partialSignatures = .ok π ∧
      Aggregated S w s partialSignatures.keys ((1 / n : Fr) • partialSignatures.values.sum) r
        π := by
  set signers := partialSignatures.keys with hsigners
  set b := signerBit n signers with hb
  have hn := S.one_lt
  have hnodup : signers.Nodup := partialSignatures.nodup
  have hweight : Relations.aggWeight n w b = (signers.map w).sum := sum_signerBit hnodup hkeys w
  have hkey : ∑ i ∈ Finset.range n, b i * s i = (signers.map s).sum := by
    rw [← sum_signerBit hnodup hkeys s]
    obtain ⟨m, rfl⟩ : ∃ m, n = m + 1 := ⟨n - 1, by omega⟩
    rw [Nat.add_sub_cancel] at hs
    rw [Finset.sum_range_succ, hs, mul_zero, add_zero]
    rfl
  have hhold := Relations.honest_hold S.domain (w := w) (s := s) (b := b) (by rwa [S.size])
    (fun i _ ↦ signerBit_binary n signers i) (by rw [S.size]; exact signerBit_reserved n signers)
    (by rwa [S.size])
  rw [S.size] at hhold
  obtain ⟨π, exact, χq, r, χop, hprove, hexact, hπ⟩ := prove_ok S (S.verificationKey w s)
    (S.aggregationKey w s) (S.honestWitness w s partialSignatures) w (Relations.parsum n w b) b
    rfl rfl rfl rfl
  have hdvd := hhold.merged χq
  have hwf : aggregationKeyIsWellFormed (S.aggregationKey w s) = true := by
    simp [aggregationKeyIsWellFormed_iff, aggregationKey]
  have hagg : aggregate crs (S.aggregationKey w s) (S.verificationKey w s) partialSignatures =
      .ok π := by
    unfold aggregate
    have hak : (S.aggregationKey w s).n = n := rfl
    simp only [hwf, hak, S.supports, S.valid, require_true, S.assembleWitness_ok w s hkeys, hprove,
      hexact.mpr hdvd, ok_bind]
  refine ⟨π, r, hagg, hπ.aggWeight.trans hweight, ?_, hπ.aggSig, ⟨χq, χop, hπ.challenges, ?_, ?_⟩,
    openingAtRDivωCheck_of_proved hπ, ?_, degreeCheck_of_eq hπ.qx hπ.qxMul⟩
  · rw [hπ.aggPk, ← hkey]
    rfl
  · exact mergedRelationCheck_ok rfl hπ
      (EuclideanDomain.mul_div_cancel' S.domain.vanishing_monic.ne_zero hdvd)
  · exact openingAtRCheck_of_proved hπ
  · exact sumcheckCheck_of_hold hhold hπ.bCom hπ.qz hπ.qx hπ.aggPk

theorem Aggregated.verify_iff {signers : List ℕ} {H aggSig : E.G2} {r : Fr}
    {π : ThresholdSignature E} (h : Aggregated S w s signers aggSig r π) {msg : Bytes}
    (hH : hashToG2 E msg = .ok H) (hH0 : H ≠ 0)
    (hsig : aggSig = (1 / n : Fr) • (signers.map s).sum • H) (hkey : (signers.map s).sum ≠ 0)
    (num den : Fr) :
    verify msg (S.verificationKey w s) π (num, den) = .ok true ↔
      (den * π.aggWeight).gt (num * (S.verificationKey w s).totalWeight) = true ∧ r ^ n ≠ 1 := by
  have hn0 : (n : Fr) ≠ 0 := S.size ▸ S.domain.size_ne_zero
  have hω := S.domain.groupGen_ne_zero
  obtain ⟨χq, χop, hchal, hmerged, hopen⟩ := h.challenges
  have hpk0 : π.aggPk ≠ 0 := by
    rw [h.aggPk, ne_eq, E.smul_g_eq_zero]
    exact div_ne_zero hkey hn0
  have hsig0 : π.aggSig ≠ 0 := by
    rw [h.aggSig, hsig]
    exact smul_ne_zero (one_div_ne_zero hn0) (smul_ne_zero hkey hH0)
  have hbls : blsCheck msg (S.verificationKey w s) π = .ok true := by
    unfold blsCheck
    rw [hH, ok_bind, h.aggPk, h.aggSig, hsig, smul_smul]
    simp only [verificationKey, E.pairing_smul_left, E.pairing_smul_right, one_div_mul_eq_div,
      decide_true]
  have hroot : Utils.nthRootOfUnity frFft (S.verificationKey w s).n = some S.domain.groupGen :=
    Utils.nthRootOfUnity_of_domain S.radix2
  have hvalid : Utils.isNValid (S.verificationKey w s).n = true := S.valid
  unfold verify exceedsThreshold
  simp only [hvalid, hpk0, hsig0, hbls, hroot, hchal, hmerged, hopen, h.openingDivω, h.sumcheck,
    h.degree, fieldDiv_of_ne _ hω, okOr_some, ok_bind, checkOrReturnFalse_true, ne_eq,
    not_false_eq_true, decide_true, checkOrReturnFalse_ok_true_iff, decide_eq_true_eq, and_true]

theorem values_sum_eq {partialSignatures : HashMap E.G2} {H : E.G2}
    (h : ∀ i σ, partialSignatures.get i = some σ → σ = s i • H) :
    partialSignatures.values.sum = (partialSignatures.keys.map s).sum • H := by
  have hmap : partialSignatures.values = partialSignatures.keys.map fun i ↦ s i • H := by
    simp only [HashMap.values, HashMap.keys, List.map_map]
    refine List.map_congr_left fun e he ↦ ?_
    exact h e.1 e.2 (partialSignatures.get_eq_some_iff.mpr he)
  rw [hmap]
  induction partialSignatures.keys with
  | nil => simp
  | cons i keys ih => simp [ih, add_smul]

end Setting

open Setting

/-- End to end: over keys that `preprocess` accepts, any partial signatures that verify
aggregate, to the weight of exactly their signers, and the result verifies exactly when that
weight is above the threshold, the signers' keys do not cancel and the evaluation point is off
the domain. -/
theorem aggregate_verifies_iff {k : ℕ} (hk : 1 ≤ k) (hk' : k ≤ 31) {crs : CRS E} {τ : Fr}
    (hcrs : WellFormed crs τ) (hg : 2 ^ k < crs.powersOfG.length)
    (hh : 2 ^ k < crs.powersOfH.length) {signerInfo : HashMap (Fr × ExtendedPublicKey E)}
    {vk : VerificationKey E} {ak : AggregationKey E}
    (hpre : preprocess (2 ^ k) crs signerInfo = .ok (vk, ak)) (msg : Bytes)
    {partialSignatures : HashMap E.G2}
    (hsigs : ∀ i σ, partialSignatures.get i = some σ → partialVerify msg ak i σ = .ok true) :
    ∃ π χq r χop, aggregate crs ak vk partialSignatures = .ok π ∧
      deriveChallenges vk π = .ok (χq, r, χop) ∧
      (∀ i ∈ partialSignatures.keys, (signerInfo.get i).isSome) ∧
      π.aggWeight = (partialSignatures.keys.map (registeredWeight signerInfo)).sum ∧
      ∀ num den, verify msg vk π (num, den) = .ok true ↔
        (den * π.aggWeight).gt (num * vk.totalWeight) = true ∧
        (partialSignatures.keys.map (registeredKey signerInfo)).sum ≠ 0 ∧ r ^ 2 ^ k ≠ 1 := by
  have hvalid : Utils.isNValid (2 ^ k) = true := Utils.isNValid_iff.mpr ⟨k, hk, rfl⟩
  obtain ⟨U⟩ := Universe.nonempty hvalid (Nat.pow_le_pow_right two_pos hk')
  let S : Setting crs (2 ^ k) τ := ⟨U, hcrs, crsSupports_iff.mpr ⟨hg, hh⟩⟩
  obtain ⟨w, s, hreg, rfl, rfl⟩ := S.preprocess_spec hpre
  obtain ⟨hw, hs⟩ := hreg.reserved (Nat.two_pow_pos k)
  have hsig (i : ℕ) (σ : E.G2) (hσ : partialSignatures.get i = some σ) :=
    partialVerify_ok_true_iff.mp (hsigs i σ hσ)
  have hkeys : ∀ i ∈ partialSignatures.keys, i < 2 ^ k - 1 := fun i hi ↦ by
    obtain ⟨σ, hσ⟩ := partialSignatures.get_of_mem_keys hi
    exact (hsig i σ hσ).1
  have hlt : ∀ i ∈ partialSignatures.keys, i < 2 ^ k := fun i hi ↦ by
    have := hkeys i hi
    omega
  obtain ⟨π, r, hagg, hπ⟩ := aggregate_ok S hw hs hkeys
  obtain ⟨χq, χop, hchal, -⟩ := hπ.challenges
  refine ⟨π, χq, r, χop, hagg, hchal, fun i hi ↦ ?_, ?_, fun num den ↦ ?_⟩
  · obtain ⟨σ, hσ⟩ := partialSignatures.get_of_mem_keys hi
    by_contra hnone
    exact (hsig i σ hσ).2.1 (hreg.absent i (hlt i hi) (by simpa using hnone)).2
  · rw [hπ.aggWeight]
    exact congrArg List.sum (List.map_congr_left fun i hi ↦ (hreg.weight (hlt i hi)).symm)
  rw [hreg.sum_key hlt, ne_eq, E.smul_g_eq_zero]
  by_cases hsum : (partialSignatures.keys.map s).sum = 0
  · have hpk : π.aggPk = 0 := by rw [hπ.aggPk, hsum, zero_div, zero_smul]
    unfold verify
    simp [hpk, hsum, checkOrReturnFalse_ok_true_iff]
  · -- the keys do not cancel, so someone signed and the message has a nonzero hash
    obtain ⟨i, hi⟩ : ∃ i, i ∈ partialSignatures.keys := by
      by_contra hnone
      apply hsum
      rw [List.eq_nil_iff_forall_not_mem.mpr (not_exists.mp hnone)]
      rfl
    obtain ⟨σ, hσ⟩ := partialSignatures.get_of_mem_keys hi
    obtain ⟨-, -, hσ0, H, hH, hσH⟩ := hsig i σ hσ
    have hH0 : H ≠ 0 := fun h0 ↦ hσ0 (by rw [hσH, h0, smul_zero])
    have hall (j : ℕ) (ρ : E.G2) (hρ : partialSignatures.get j = some ρ) : ρ = s j • H := by
      obtain ⟨-, -, -, H', hH', hρH⟩ := hsig j ρ hρ
      obtain rfl : H = H' := Except.ok.inj (hH.symm.trans hH')
      exact hρH
    rw [hπ.verify_iff hH hH0 (by rw [values_sum_eq hall]) hsum]
    simp [hsum]

theorem aggregate_verifies_iff_pair :
    ∃ (hint : ℕ → ExtendedPublicKey scalarCurve) (vk : VerificationKey scalarCurve)
      (ak : AggregationKey scalarCurve) (π : ThresholdSignature scalarCurve),
      preprocess (2 ^ 2) powersOfTwo (pairOf (1, hint 0) (2, hint 1)) = .ok (vk, ak) ∧
      aggregate powersOfTwo ak vk (pairOf scalarCurve.h ((2 : Fr) • scalarCurve.h)) = .ok π ∧
      verify [] vk π (1, 2) = .ok true := by
  obtain ⟨S, hint, w, s, hpre, hreg, hs₀, hs₁, htotal⟩ := exists_preprocessed_pair 1 2
  let sigs : HashMap scalarCurve.G2 := pairOf scalarCurve.h ((2 : Fr) • scalarCurve.h)
  have h2 : (2 : Fr) ≠ 0 := by decide +kernel
  have hsigs (i : ℕ) (σ) (hσ : sigs.get i = some σ) :
      partialVerify [] (S.aggregationKey w s) i σ = .ok true := by
    rw [partialVerify_ok_true_iff]
    rw [get_pairOf] at hσ
    split at hσ
    · next hi =>
      obtain rfl := Option.some.inj hσ
      rw [hi, hs₁]
      exact ⟨by decide, h2, smul_ne_zero h2 scalarCurve.h_ne_zero, scalarCurve.h, rfl, rfl⟩
    · split at hσ
      · next hi =>
        obtain rfl := Option.some.inj hσ
        rw [hi, hs₀]
        exact ⟨by decide, one_ne_zero, scalarCurve.h_ne_zero, scalarCurve.h, rfl,
          (one_smul Fr _).symm⟩
      · cases hσ
  obtain ⟨π, χq, r, χop, hagg, hchal, -, hweight, hiff⟩ := aggregate_verifies_iff (k := 2)
    one_le_two (by decide) S.wellFormed (by decide) (by decide) hpre [] hsigs
  refine ⟨hint, _, _, π, hpre, hagg, (hiff 1 2).mpr ⟨?_, ?_, ?_⟩⟩
  · have hall : π.aggWeight = 2 + 1 := by
      rw [hweight]
      simp [sigs, keys_pairOf, registeredWeight, get_pairOf]
    rw [htotal, hall]
    decide +kernel
  · have hkeys : ∀ i ∈ sigs.keys, i < 2 ^ 2 := by simp [sigs, keys_pairOf]
    have hsum : (sigs.keys.map s).sum = 2 + 1 := by simp [sigs, keys_pairOf, hs₀, hs₁]
    rw [hreg.sum_key hkeys, hsum, ne_eq, scalarCurve.smul_g_eq_zero]
    decide +kernel
  · obtain rfl : r = 0 := by
      have h := Except.ok.inj hchal
      exact (Prod.mk.inj (Prod.mk.inj h).2).1.symm
    simp

end HieroCryptography.Hints
