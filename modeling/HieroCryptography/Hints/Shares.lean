import HieroCryptography.Hints.Correctness

namespace HieroCryptography.Hints

open Foundation Rust Kzg

variable {E : Curve}

namespace Setting

variable {crs : CRS E} {n : ℕ} {τ : Fr} {S : Setting crs n τ} {w s : ℕ → Fr}

/-- Of the shares only their sum matters: it has to be the signature of the joint key. -/
theorem Aggregated.verify_iff_sum {signers : List ℕ} {sum : E.G2} {r : Fr}
    {π : ThresholdSignature E} (h : Aggregated S w s signers ((1 / n : Fr) • sum) r π)
    {msg : Bytes} {num den : Fr} :
    verify msg (S.verificationKey w s) π (num, den) = .ok true ↔
      (den * π.aggWeight).gt (num * (S.verificationKey w s).totalWeight) = true ∧
      (signers.map s).sum ≠ 0 ∧ r ^ n ≠ 1 ∧ sum ≠ 0 ∧
      ∃ H, hashToG2 E msg = .ok H ∧ sum = (signers.map s).sum • H := by
  have hn0 : (n : Fr) ≠ 0 := S.size ▸ S.domain.size_ne_zero
  have hω := S.domain.groupGen_ne_zero
  obtain ⟨χq, χop, hchal, hmerged, hopen⟩ := h.challenges
  have hpk : π.aggPk = 0 ↔ (signers.map s).sum = 0 := by
    rw [h.aggPk, E.smul_g_eq_zero, div_eq_zero_iff, or_iff_left hn0]
  have hsig : π.aggSig = 0 ↔ sum = 0 := by
    rw [h.aggSig, smul_eq_zero_iff_right (one_div_ne_zero hn0)]
  have hroot : Utils.nthRootOfUnity frFft (S.verificationKey w s).n = some S.domain.groupGen :=
    Utils.nthRootOfUnity_of_domain S.radix2
  have hvalid : Utils.isNValid (S.verificationKey w s).n = true := S.valid
  have hbls (H : E.G2) : E.pairing π.aggPk H = E.pairing (S.verificationKey w s).g0 π.aggSig ↔
      sum = (signers.map s).sum • H := by
    obtain ⟨c, rfl⟩ := E.h_spans H
    have hg0 : (S.verificationKey w s).g0 = E.g := rfl
    have hdiv : (signers.map s).sum / n * c = 1 / n * ((signers.map s).sum * c) := by ring
    rw [hg0, eq_comm, h.aggPk, E.pairing_g_eq_iff, h.aggSig, hdiv, ← smul_smul (1 / (n : Fr)),
      smul_right_inj (one_div_ne_zero hn0), smul_smul]
  simp only [verify, exceedsThreshold, blsCheck, hvalid, hroot, hchal, hmerged, hopen,
    h.openingDivω, h.sumcheck, h.degree, fieldDiv_of_ne _ hω, okOr_some, ok_bind,
    checkOrReturnFalse_true, checkOrReturnFalse_ok_true_iff, decide_eq_true_eq, ne_eq, hpk, hsig,
    bind_ok_iff, hbls, Except.ok.injEq, and_true]
  constructor
  · rintro ⟨hkey, hsum, hgt, _, ⟨H, hH, rfl⟩, heq, hr⟩
    exact ⟨hgt, hkey, hr, hsum, H, hH, of_decide_eq_true heq⟩
  · rintro ⟨hgt, hkey, hr, hsum, H, hH, heq⟩
    exact ⟨hkey, hsum, hgt, _, ⟨H, hH, rfl⟩, decide_eq_true heq, hr⟩

end Setting

open Setting

section Order

theorem preprocess_of_get_eq {n : ℕ} {crs : CRS E}
    {signerInfo signerInfo' : HashMap (Fr × ExtendedPublicKey E)}
    (h : ∀ i, signerInfo.get i = signerInfo'.get i) {keys : VerificationKey E × AggregationKey E}
    (hpre : preprocess n crs signerInfo = .ok keys) : preprocess n crs signerInfo' = .ok keys := by
  have hperm := HashMap.perm_of_get_eq h
  have hlen : signerInfo.len = signerInfo'.len := hperm.length_eq
  have hslot : slotKey crs n signerInfo = slotKey crs n signerInfo' := by
    funext i
    rw [slotKey, slotKey, h i]
  have hkeys : checkPartyIndices n signerInfo.keys = .ok () →
      checkPartyIndices n signerInfo'.keys = .ok () := by
    simp only [checkPartyIndices_ok_iff]
    exact fun hall i hi ↦ hall i ((hperm.map Prod.fst).mem_iff.mpr hi)
  simp only [preprocess, bind_ok_iff, hlen, hslot] at hpre ⊢
  obtain ⟨u, hvalid, u', hcount, u'', hcheck, hrest⟩ := hpre
  exact ⟨u, hvalid, u', hcount, (), hkeys hcheck, hrest⟩

theorem markSigner_comm {n i j : ℕ} {bitmap marked : List Fr}
    (h : (markSigner n bitmap i >>= (markSigner n · j)) = .ok marked) :
    (markSigner n bitmap j >>= (markSigner n · i)) = .ok marked := by
  simp only [markSigner, bind_ok_iff, require_ok_iff, setAt_ok_iff, usizeSub_ok_iff,
    exists_const] at h ⊢
  obtain ⟨_, ⟨last, hlast, hi, hil, rfl⟩, last', ⟨hn, rfl⟩, hj, hjl, rfl⟩ := h
  rw [List.length_set] at hjl
  refine ⟨_, ⟨last, hlast, ?_, hjl, rfl⟩, last, hlast, hi, ?_, ?_⟩
  · rwa [← hlast.2]
  · rwa [List.length_set]
  · by_cases hij : i = j
    · rw [hij]
    · rw [List.set_comm _ _ (Ne.symm hij)]

theorem aggregate_of_get_eq {crs : CRS E} {ak : AggregationKey E} {vk : VerificationKey E}
    {shares shares' : HashMap E.G2} (h : ∀ i, shares.get i = shares'.get i)
    {π : ThresholdSignature E} (hagg : aggregate crs ak vk shares = .ok π) :
    aggregate crs ak vk shares' = .ok π := by
  have hperm := HashMap.perm_of_get_eq h
  have hsum : shares.values.sum = shares'.values.sum := (hperm.map Prod.snd).sum_eq
  simp only [aggregate, assembleWitness, bind_ok_iff, hsum] at hagg ⊢
  obtain ⟨u, hwf, u', hcrs, u'', hn, witness, ⟨nInv, hinv, signers, hmark, hwitness⟩, hrest⟩ := hagg
  have hmark' : shares'.keys.foldlM (markSigner ak.n) (List.replicate ak.n 0) = .ok signers :=
    foldlM_ok_of_perm (f := markSigner ak.n) (fun _ _ _ _ ↦ markSigner_comm)
      (hperm.map Prod.fst) hmark
  exact ⟨u, hwf, u', hcrs, u'', hn, witness, ⟨nInv, hinv, signers, hmark', hwitness⟩, hrest⟩

end Order

end HieroCryptography.Hints
