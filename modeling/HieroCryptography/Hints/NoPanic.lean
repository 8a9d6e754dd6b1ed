import HieroCryptography.Foundation.Lists
import HieroCryptography.Rust.Meets
import HieroCryptography.Hints.Verify
import HieroCryptography.Hints.Batch
import HieroCryptography.Hints.Setup

namespace HieroCryptography.Hints

open Polynomial Foundation Rust DensePolynomial Kzg

variable {E : Curve}

theorem commit_meets {G : Type} [AddCommGroup G] [Module Fr G] (powers : List G)
    {p : DensePolynomial Fr} {P : Fr[X]} (hp : p.Denotes P) :
    Meets (commit powers p) fun _ ↦ True := by
  refine (meets_of_ok hp.degree rfl).bind fun d hd ↦ ?_
  refine (meets_require _ _).bind fun _ hlen ↦ ?_
  refine (meets_slice (Nat.zero_le _) (of_decide_eq_true hlen)).bind fun bases _ ↦ ?_
  exact meets_ok trivial

theorem commitG1_meets (crs : CRS E) {p : DensePolynomial Fr} {P : Fr[X]} (hp : p.Denotes P) :
    Meets (commitG1 crs p) fun _ ↦ True :=
  commit_meets _ hp

theorem commitG2_meets (crs : CRS E) {p : DensePolynomial Fr} {P : Fr[X]} (hp : p.Denotes P) :
    Meets (commitG2 crs p) fun _ ↦ True :=
  commit_meets _ hp

theorem computeOpeningProof_meets (crs : CRS E) {p : DensePolynomial Fr} {P : Fr[X]}
    (hp : p.Denotes P) (z : Fr) : Meets (computeOpeningProof crs p z) fun _ ↦ True := by
  obtain ⟨q, Q, -, hq, heq⟩ := computeOpeningProof_eq crs hp z
  rw [heq]
  exact commitG1_meets crs hq

theorem hashToG2_meets (E : Curve) (msg : Bytes) : Meets (hashToG2 E msg) fun _ ↦ True := by
  unfold hashToG2
  split
  · exact meets_ok trivial
  · exact meets_fail _ _

theorem Universe.of_supports {crs : CRS E} {n : ℕ} (hlen : crs.powersOfG.length ≤ 2 ^ 31)
    (hvalid : Utils.isNValid n = true) (hsupp : crsSupports crs n = true) :
    Nonempty (Universe n) :=
  Universe.nonempty hvalid ((crsSupports_iff.mp hsupp).1.le.trans hlen)

section Hint

variable {crs : CRS E} {n i : ℕ}

theorem checkHintInput_meets (crs : CRS E) (n i : ℕ) : Meets (checkHintInput crs n i)
    fun _ ↦ Utils.isNValid n = true ∧ i < n ∧ crsSupports crs n = true := by
  refine (meets_require _ _).bind fun _ hvalid ↦ ?_
  refine (meets_require _ _).bind fun _ hi ↦ ?_
  exact (meets_require _ _).mono fun _ hsupp ↦ ⟨hvalid, of_decide_eq_true hi, hsupp⟩

def FitsSlot (n i : ℕ) (hint : ExtendedPublicKey E) : Prop :=
  hint.i = i ∧ hint.qzITerms.length = n

theorem hintGen_meets (hlen : crs.powersOfG.length ≤ 2 ^ 31) (n i : ℕ) (sk : SecretKey E) :
    Meets (hintGen crs n i sk) (FitsSlot n i) := by
  refine (checkHintInput_meets crs n i).bind fun _ h ↦ ?_
  obtain ⟨hvalid, hi, hsupp⟩ := h
  obtain ⟨U⟩ := Universe.of_supports hlen hvalid hsupp
  obtain ⟨l, hl, hld⟩ := lagrangeNI_ok U.radix2 U.size i
  obtain ⟨num, quotient, hnum, hquot, hnumd, hquotd⟩ := qxTerms_ok hld
  have hscaled {p : DensePolynomial Fr} {P : Fr[X]} (hp : p.Denotes P) :=
    commitG1_meets crs (Utils.denotes_polyEvalMultC hp sk.secret)
  have hcross : ∀ j ∈ List.range n, Meets (do
      let f ← crossTerm n i j l (Utils.computeVanishingPoly n)
      commitG1 crs (Utils.polyEvalMultC f sk.secret)) fun _ ↦ True := by
    intro j _
    obtain ⟨f, hf, hfd⟩ := crossTerm_ok U (j := j) hld
    rw [hf, ok_bind]
    exact hscaled hfd
  simp only [hl, hnum, hquot, ok_bind]
  refine (meets_mapM hcross).bind fun qzTerms hqz ↦ ?_
  refine (hscaled hquotd).bind fun _ _ ↦ ?_
  refine (hscaled hnumd).bind fun _ _ ↦ ?_
  refine (commitG1_meets crs (Utils.denotes_computeConstantPoly _)).bind fun _ _ ↦ ?_
  refine (hscaled hld).bind fun _ _ ↦ ?_
  refine (commitG2_meets crs (Utils.denotes_polyEvalMultC hld _)).bind fun _ _ ↦ ?_
  exact meets_ok ⟨rfl, by simpa using hqz.length_eq.symm⟩

theorem fitsSlot_of_verifyHint {n i : ℕ} {hint : ExtendedPublicKey E}
    (h : verifyHint crs n i hint = .ok true) : FitsSlot n i hint := by
  simp only [verifyHint, bind_ok_iff, checkOrReturnFalse_ok_true_iff, decide_eq_true_eq] at h
  obtain ⟨-, -, hi, -, hqz, -⟩ := h
  exact ⟨hi, hqz.symm⟩

theorem crossCheck_meets {n i j : ℕ} (U : Universe n) {l : DensePolynomial Fr}
    (hl : l.Denotes (U.domain.basis i)) {hint : ExtendedPublicKey E}
    (hj : j < hint.qzITerms.length) (h0 : E.G2) :
    Meets (do
      let f ← crossTerm n i j l (Utils.computeVanishingPoly n)
      let fCom ← commitG2 crs f
      let qzITerm ← index hint.qzITerms j
      (.ok (decide (E.pairing qzITerm h0 = E.pairing hint.pkI fCom)) : Result Bool))
      fun _ ↦ True := by
  obtain ⟨f, hf, hfd⟩ := crossTerm_ok U (j := j) hl
  rw [hf, ok_bind]
  refine (commitG2_meets crs hfd).bind fun _ _ ↦ ?_
  exact (meets_index hj).bind fun _ _ ↦ meets_ok trivial

theorem verifyHint_meets (hlen : crs.powersOfG.length ≤ 2 ^ 31) (n i : ℕ)
    (hint : ExtendedPublicKey E) :
    Meets (verifyHint crs n i hint) fun ok ↦ ok = true → FitsSlot n i hint := by
  refine ⟨?_, fun ok h htrue ↦ fitsSlot_of_verifyHint (htrue ▸ h)⟩
  refine ((checkHintInput_meets crs n i).bind (Q := fun _ ↦ True) fun _ h ↦ ?_).1
  obtain ⟨hvalid, hi, hsupp⟩ := h
  have hpowers := crsSupports_iff.mp hsupp
  obtain ⟨U⟩ := Universe.of_supports hlen hvalid hsupp
  obtain ⟨l, hl, hld⟩ := lagrangeNI_ok U.radix2 U.size i
  obtain ⟨num, quotient, hnum, hquot, hnumd, hquotd⟩ := qxTerms_ok hld
  refine meets_checkOrReturnFalse fun _ ↦ meets_checkOrReturnFalse fun _ ↦ ?_
  refine meets_checkOrReturnFalse fun hterms ↦ meets_checkOrReturnFalse fun _ ↦ ?_
  refine meets_checkOrReturnFalse fun _ ↦ meets_checkOrReturnFalse fun _ ↦ ?_
  refine meets_checkOrReturnFalse fun _ ↦ meets_checkOrReturnFalse fun _ ↦ ?_
  refine meets_checkOrReturnFalse fun _ ↦ ?_
  refine (meets_of_ok rfl trivial).bind (P := fun _ ↦ True) fun pok _ ↦ ?_
  refine meets_checkOrReturnFalse fun _ ↦ ?_
  simp only [hl, hnum, hquot, ok_bind]
  refine (commitG2_meets crs hld).bind fun _ _ ↦ ?_
  refine (meets_index (by omega)).bind fun h0 _ ↦ ?_
  refine meets_checkOrReturnFalse fun _ ↦ ?_
  refine (meets_index (by omega)).bind fun g0 _ ↦ ?_
  refine meets_checkOrReturnFalse fun _ ↦ ?_
  -- the length check above keeps the loop's index inside the list
  have hterm (j : ℕ) (hj : j ∈ List.range n) : j < hint.qzITerms.length := by
    rw [← of_decide_eq_true hterms]
    exact List.mem_range.mp hj
  refine (meets_allM fun j hj ↦ crossCheck_meets U hld (hterm j hj) h0).bind fun crossOk _ ↦ ?_
  refine meets_checkOrReturnFalse fun _ ↦ ?_
  refine (commitG2_meets crs hquotd).bind fun _ _ ↦ ?_
  refine meets_checkOrReturnFalse fun _ ↦ ?_
  refine (commitG2_meets crs hnumd).bind fun _ _ ↦ ?_
  exact meets_checkOrReturnFalse fun _ ↦ meets_ok trivial

end Hint

section Preprocess

variable {crs : CRS E} {n : ℕ}

theorem slotKey_meets (hlen : crs.powersOfG.length ≤ 2 ^ 31)
    (signerInfo : HashMap (Fr × ExtendedPublicKey E)) (i : ℕ) :
    Meets (slotKey crs n signerInfo i) fun slot ↦ FitsSlot n i slot.2 := by
  unfold slotKey
  cases signerInfo.get i with
  | some v =>
    refine (meets_require _ _).bind fun _ _ ↦ ?_
    refine (verifyHint_meets hlen n i v.2).bind fun ok hfits ↦ ?_
    refine (meets_require _ _).bind fun _ hok ↦ ?_
    exact meets_ok (hfits hok)
  | none =>
    refine (meets_of_ok rfl trivial).bind (P := fun _ ↦ True) fun pop _ ↦ ?_
    exact (hintGen_meets hlen n i _).bind fun hint hfits ↦ meets_ok hfits

theorem preprocessQzContributions_meets {q1 : List (List E.G1)}
    (h : ∀ row ∈ q1, row.length = q1.length) :
    Meets (preprocessQzContributions q1) fun _ ↦ True := by
  have hentry {i j : ℕ} (hi : i < q1.length) (hj : j < q1.length) :
      Meets (index q1 j >>= fun row ↦ (index row i : Result E.G1)) fun _ ↦ True := by
    refine (meets_index hj).bind fun row hrow ↦ ?_
    exact (meets_index (h row (List.mem_of_getElem? hrow) ▸ hi)).mono fun _ _ ↦ trivial
  refine (meets_mapM (R := fun _ _ ↦ True) fun i hi ↦ ?_).mono fun _ _ ↦ trivial
  have hi' := List.mem_range.mp hi
  rw [← bind_assoc]
  refine (hentry hi' hi').bind fun own _ ↦ ?_
  refine meets_foldlM (I := fun _ ↦ True) trivial fun j hj com _ ↦ ?_
  split
  · rw [← bind_assoc]
    exact (hentry hi' (List.mem_range.mp hj)).bind fun _ _ ↦ meets_ok trivial
  · exact meets_ok trivial

theorem interpolate_of_length (U : Universe n) {evals : List Fr} (h : evals.length = n) :
    ∃ (p : DensePolynomial Fr) (P : Fr[X]), interpolate evals = .ok p ∧ p.Denotes P ∧
      P.natDegree < n := by
  obtain ⟨p, hp, hd⟩ := Utils.interpolate_ok frFft evals (D := U.domain) (by rw [h, U.radix2])
  exact ⟨p, _, by simp [interpolate, hp], hd, U.interpolant_natDegree_lt _⟩

theorem assembleKeys_meets (U : Universe n) (hsupp : crsSupports crs n = true) {weights : List Fr}
    (hweights : weights.length = n) {epks : List (ExtendedPublicKey E)}
    (hepks : List.Forall₂ (FitsSlot n) (List.range n) epks) :
    Meets (assembleKeys crs n weights epks) fun _ ↦ True := by
  have hn := U.one_lt
  have hpowers := crsSupports_iff.mp hsupp
  obtain ⟨epk, rfl, hfits⟩ := exists_eq_map_range (by omega) hepks
  obtain ⟨w, W, hw, hwd, -⟩ := interpolate_of_length U hweights
  obtain ⟨l, hl, hld⟩ := lagrangeNI_ok U.radix2 U.size (n - 1)
  have hz := Utils.denotes_computeVanishingPoly U.domain
  rw [U.size] at hz
  have hcol := Contributions.collect_ok fun i hi ↦ (hfits i hi).1
  have hrows : ∀ row ∈ (Contributions.upTo n epk n).qz,
      row.length = (Contributions.upTo n epk n).qz.length := by
    intro row hrow
    rw [Contributions.upTo, filled_self] at hrow ⊢
    obtain ⟨i, hi, rfl⟩ := List.mem_map.mp hrow
    rw [(hfits i (List.mem_range.mp hi)).2, List.length_map, List.length_range]
  unfold assembleKeys
  simp only [hw, hcol, usizeSub_of_le hn.le, hl, ok_bind]
  refine (meets_index (by omega)).bind fun g0 _ ↦ ?_
  refine (meets_index (by omega)).bind fun h0 _ ↦ ?_
  refine (meets_index (by omega)).bind fun h1 _ ↦ ?_
  refine (commitG1_meets crs hld).bind fun _ _ ↦ ?_
  refine (commitG1_meets crs hwd).bind fun _ _ ↦ ?_
  refine (commitG2_meets crs hz).bind fun _ _ ↦ ?_
  refine (preprocessQzContributions_meets hrows).bind fun qzTerms _ ↦ ?_
  exact (meets_require _ _).bind fun _ _ ↦ meets_ok trivial

theorem checkPartyIndices_meets (hn : 1 ≤ n) (keys : List ℕ) :
    Meets (checkPartyIndices n keys) fun _ ↦ True := by
  refine meets_forM fun partyId _ ↦ ?_
  refine (meets_usizeSub hn).bind fun reserved _ ↦ ?_
  exact (meets_require _ _).mono fun _ _ ↦ trivial

theorem preprocess_meets (hlen : crs.powersOfG.length ≤ 2 ^ 31) (n : ℕ)
    (signerInfo : HashMap (Fr × ExtendedPublicKey E)) :
    Meets (preprocess n crs signerInfo) fun _ ↦ True := by
  refine (meets_require _ _).bind fun _ hvalid ↦ ?_
  refine (meets_require _ _).bind fun _ _ ↦ ?_
  refine (checkPartyIndices_meets (Utils.one_lt_of_isNValid hvalid).le _).bind fun _ _ ↦ ?_
  refine (meets_require _ _).bind fun _ hsupp ↦ ?_
  obtain ⟨U⟩ := Universe.of_supports hlen hvalid hsupp
  refine (meets_mapM fun i _ ↦ slotKey_meets hlen signerInfo i).bind fun slots hslots ↦ ?_
  refine assembleKeys_meets U hsupp ?_ ?_
  · rw [List.length_map, ← hslots.length_eq, List.length_range]
  · exact List.forall₂_map_right_iff.mpr hslots

end Preprocess

section PartialVerify

theorem partialVerify_meets (msg : Bytes) (ak : AggregationKey E) (partyId : ℕ) (sig : E.G2) :
    Meets (partialVerify msg ak partyId sig) fun _ ↦ True := by
  refine (meets_require _ _).bind fun _ hvalid ↦ ?_
  refine (meets_require _ _).bind fun _ hwf ↦ ?_
  refine (meets_usizeSub (Utils.one_lt_of_isNValid hvalid).le).bind fun last hlast ↦ ?_
  refine (meets_require _ _).bind fun _ hid ↦ ?_
  have hpks := (aggregationKeyIsWellFormed_iff.mp hwf).2.1
  have hlt := of_decide_eq_true hid
  refine (meets_index (by omega)).bind fun pk _ ↦ ?_
  refine meets_checkOrReturnFalse fun _ ↦ meets_checkOrReturnFalse fun _ ↦ ?_
  exact (hashToG2_meets E msg).bind fun _ _ ↦ meets_ok trivial

theorem partialVerifyBatch_meets (msg : Bytes) (ak : AggregationKey E) (signerIds : List ℕ)
    (signatures : List E.G2) (r : Fr) :
    Meets (partialVerifyBatch msg ak signerIds signatures r) fun _ ↦ True := by
  refine (meets_require _ _).bind fun _ hvalid ↦ ?_
  refine (meets_require _ _).bind fun _ hwf ↦ ?_
  refine (meets_require _ _).bind fun _ _ ↦ ?_
  refine (meets_require _ _).bind fun _ _ ↦ ?_
  refine (meets_usizeSub (Utils.one_lt_of_isNValid hvalid).le).bind fun last hlast ↦ ?_
  refine (meets_require _ _).bind fun _ hids ↦ ?_
  have hpks := (aggregationKeyIsWellFormed_iff.mp hwf).2.1
  have hkey : ∀ id ∈ signerIds, Meets (index ak.pks id : Result E.G1) fun _ ↦ True := by
    intro id hid
    simp only [decide_eq_true_eq, Bool.not_eq_true, List.any_eq_false] at hids
    have hlt := hids id hid
    exact (meets_index (by omega)).mono fun _ _ ↦ trivial
  refine (meets_allM fun id hid ↦ (hkey id hid).bind fun _ _ ↦ meets_ok trivial).bind fun _ _ ↦ ?_
  refine meets_checkOrReturnFalse fun _ ↦ meets_checkOrReturnFalse fun _ ↦ ?_
  refine (meets_mapM hkey).bind fun pks _ ↦ ?_
  exact (hashToG2_meets E msg).bind fun _ _ ↦ meets_ok trivial

end PartialVerify

section Aggregate

theorem natCast_ne_zero_of_isNValid {n : ℕ} (h : Utils.isNValid n = true) : (n : Fr) ≠ 0 := by
  obtain ⟨k, -, rfl⟩ := Utils.isNValid_iff.mp h
  have htwo : (2 : Fr) ≠ 0 := by decide +kernel
  rw [Nat.cast_pow, Nat.cast_ofNat]
  exact pow_ne_zero k htwo

theorem length_runningSumsFrom (sum : Fr) (xs : List (Fr × Fr)) :
    (runningSumsFrom sum xs).length = xs.length := by
  induction xs generalizing sum with
  | nil => rfl
  | cons x xs ih => rw [runningSumsFrom, List.length_cons, ih, List.length_cons]

theorem markSigner_meets {n : ℕ} (hn : 1 < n) {bitmap : List Fr} (hlen : bitmap.length = n)
    (i : ℕ) : Meets (markSigner n bitmap i) fun bitmap' ↦ bitmap'.length = n := by
  refine (meets_usizeSub hn).bind fun last hlast ↦ ?_
  refine (meets_require _ _).bind fun _ hi ↦ ?_
  have hle := of_decide_eq_true hi
  exact (meets_setAt (by omega) _).mono fun _ h ↦ h.trans hlen

theorem assembleWitness_meets {ak : AggregationKey E} (hvalid : Utils.isNValid ak.n = true)
    (hweights : ak.weights.length = ak.n) (partialSignatures : HashMap E.G2) :
    Meets (assembleWitness ak partialSignatures) fun witness ↦
      witness.bitmap.length = ak.n ∧ witness.parsum.length = ak.n := by
  have hn := Utils.one_lt_of_isNValid hvalid
  refine (meets_fieldDiv _ (natCast_ne_zero_of_isNValid hvalid)).bind fun nInv _ ↦ ?_
  refine (meets_foldlM (I := fun bitmap ↦ bitmap.length = ak.n) List.length_replicate
    fun i _ bitmap hlen ↦ markSigner_meets hn hlen i).bind fun signers hsigners ↦ ?_
  refine (meets_usizeSub hn.le).bind fun last hlast ↦ ?_
  refine (meets_setAt (by omega) _).bind fun bitmap hbitmap ↦ ?_
  refine (meets_setAt (by omega) _).bind fun weights hw ↦ ?_
  refine meets_ok ⟨hbitmap.trans hsigners, ?_⟩
  rw [runningSums, length_runningSumsFrom, List.length_zip]
  omega

theorem proveWithChallenges_meets {n : ℕ} (U : Universe n) (crs : CRS E) {ak : AggregationKey E}
    (hak : ak.n = n) (hweights : ak.weights.length = n) (vk : VerificationKey E)
    {witness : Witness E} (hbitmap : witness.bitmap.length = n)
    (hparsum : witness.parsum.length = n) :
    Meets (proveWithChallenges crs ak vk witness) fun _ ↦ True := by
  obtain ⟨b, B, hb, hbd, hB⟩ := interpolate_of_length U hbitmap
  obtain ⟨psw, PS, hps, hpsd, hPS⟩ := interpolate_of_length U hparsum
  obtain ⟨w, W, hw, hwd, hW⟩ := interpolate_of_length U hweights
  obtain ⟨l, hl, hld⟩ := lagrangeNI_ok U.radix2 U.size (n - 1)
  obtain ⟨polys, hpolys, hpolysd⟩ := relationPolys_ok U hbd hpsd hwd (by rwa [U.size]) hB hPS hW
    witness.aggWeight
  have hω := U.domain.groupGen_ne_zero
  unfold proveWithChallenges
  simp only [hak, U.radix2, okOr_some, hb, hps, hw, usizeSub_of_le U.one_lt.le, hl, hpolys, ok_bind]
  refine (commitG1_meets crs hbd).bind fun bCom _ ↦ ?_
  refine (commitG1_meets crs hpsd).bind fun psCom _ ↦ ?_
  refine (meets_of_ok rfl trivial).bind (P := fun _ ↦ True) fun t₁ _ ↦ ?_
  obtain ⟨p, hp, -⟩ := mergePolys_ok hpolysd (t₁.challenge E dstQuotientMerge)
  have hquot := (denotes_divideByVanishingPoly p U.domain).1
  rw [hp, ok_bind]
  refine (commitG1_meets crs hquot).bind fun qCom _ ↦ ?_
  refine (meets_of_ok rfl trivial).bind (P := fun _ ↦ True) fun t₂ _ ↦ ?_
  refine (meets_fieldDiv _ hω).bind fun rDivω _ ↦ ?_
  refine (meets_of_ok rfl trivial).bind (P := fun _ ↦ True) fun t₃ _ ↦ ?_
  obtain ⟨q, hq, hqd⟩ := mergePolys_ok (.cons hquot (.cons hpsd (.cons hbd (.cons hwd .nil))))
    (t₃.challenge E dstOpeningBatch)
  rw [hq, ok_bind]
  refine (computeOpeningProof_meets crs hqd _).bind fun _ _ ↦ ?_
  refine (computeOpeningProof_meets crs hpsd _).bind fun _ _ ↦ ?_
  exact meets_ok trivial

theorem aggregate_meets {crs : CRS E} (hlen : crs.powersOfG.length ≤ 2 ^ 31)
    (ak : AggregationKey E) (vk : VerificationKey E) (partialSignatures : HashMap E.G2) :
    Meets (aggregate crs ak vk partialSignatures) fun _ ↦ True := by
  refine (meets_require _ _).bind fun _ hwf ↦ ?_
  refine (meets_require _ _).bind fun _ hsupp ↦ ?_
  refine (meets_require _ _).bind fun _ hvalid ↦ ?_
  have hweights := (aggregationKeyIsWellFormed_iff.mp hwf).1
  obtain ⟨U⟩ := Universe.of_supports hlen hvalid hsupp
  refine (assembleWitness_meets hvalid hweights partialSignatures).bind fun witness hwit ↦ ?_
  refine Meets.bind (P := fun _ ↦ True) ?_ fun proved _ ↦ ?_
  · refine (proveWithChallenges_meets U crs rfl hweights vk hwit.1 hwit.2).bind fun _ _ ↦ ?_
    exact meets_ok trivial
  · exact (meets_require _ _).bind fun _ _ ↦ meets_ok trivial

end Aggregate

section Verify

theorem mergedRelationCheck_meets {D : Domain Fr} {vk : VerificationKey E} (hvk : vk.n = D.size)
    (π : ThresholdSignature E) (χq r : Fr) :
    Meets (mergedRelationCheck vk π D.groupGen χq r) fun _ ↦ True := by
  by_cases hr : r ^ D.size = 1
  · exact meets_of_ok (mergedRelationCheck_on_domain (hvk ▸ hr) π _ χq) trivial
  · exact meets_of_ok (mergedRelationCheck_off_domain hvk hr π χq) trivial

theorem verify_meets (msg : Bytes) (vk : VerificationKey E) (π : ThresholdSignature E)
    (fraction : Fr × Fr) : Meets (verify msg vk π fraction) fun _ ↦ True := by
  refine meets_checkOrReturnFalse fun hvalid ↦ meets_checkOrReturnFalse fun _ ↦ ?_
  refine meets_checkOrReturnFalse fun _ ↦ meets_checkOrReturnFalse fun _ ↦ ?_
  refine Meets.bind (P := fun _ ↦ True)
    ((hashToG2_meets E msg).bind fun _ _ ↦ meets_ok trivial) fun bls _ ↦ ?_
  refine meets_checkOrReturnFalse fun _ ↦ ?_
  refine (meets_okOr _ _).bind fun ω hω ↦ ?_
  obtain ⟨D, hD, rfl⟩ := Option.map_eq_some_iff.mp hω
  obtain ⟨k, -, hk⟩ := Utils.isNValid_iff.mp hvalid
  have hvk : vk.n = D.size := by
    rw [hk] at hD ⊢
    exact (radix2Domain_size frFft hD).symm
  refine (meets_of_ok rfl trivial).bind (P := fun _ ↦ True) fun challenges _ ↦ ?_
  refine (mergedRelationCheck_meets hvk π _ _).bind fun merged _ ↦ ?_
  refine meets_checkOrReturnFalse fun _ ↦ meets_checkOrReturnFalse fun _ ↦ ?_
  refine (meets_fieldDiv _ D.groupGen_ne_zero).bind fun rDivω _ ↦ ?_
  refine meets_checkOrReturnFalse fun _ ↦ meets_checkOrReturnFalse fun _ ↦ ?_
  exact meets_checkOrReturnFalse fun _ ↦ meets_ok trivial

end Verify

section Setup

theorem validateCrsTowerLengths_meets (prevCrs nextCrs : CRS E) :
    Meets (validateCrsTowerLengths prevCrs nextCrs) fun len ↦ 3 ≤ len ∧
      prevCrs.powersOfG.length = len ∧ prevCrs.powersOfH.length = len ∧
      nextCrs.powersOfG.length = len ∧ nextCrs.powersOfH.length = len := by
  refine ⟨?_, fun len ↦ validateCrsTowerLengths_ok_iff.mp⟩
  refine ((meets_require _ _).bind (Q := fun _ ↦ True) fun _ _ ↦ ?_).1
  exact (meets_require _ _).bind fun _ _ ↦ meets_ok trivial

theorem contribute_meets (crs : CRS E) (seed : Bytes) :
    Meets (contribute crs seed) fun _ ↦ True := by
  refine (validateCrsTowerLengths_meets crs crs).bind fun len hlen ↦ ?_
  refine (meets_usizeSub (by omega)).bind fun degree hdegree ↦ ?_
  refine (meets_index (by omega)).bind fun prevP1 _ ↦ ?_
  refine (meets_index ?_).bind fun nextP1 _ ↦ ?_
  · rw [List.length_zipWith, List.length_map, List.length_range]
    omega
  · exact (meets_of_ok rfl trivial).bind (P := fun _ ↦ True) fun _ _ ↦ meets_ok trivial

theorem pruneCrs_meets (crs : CRS E) (newDegree : ℕ) :
    Meets (pruneCrs crs newDegree) fun _ ↦ True := by
  refine (validateCrsTowerLengths_meets crs crs).bind fun len hlen ↦ ?_
  refine (meets_require _ _).bind fun _ hle ↦ ?_
  have hlt := of_decide_eq_true hle
  refine (meets_slice (Nat.zero_le _) (by omega)).bind fun _ _ ↦ ?_
  exact (meets_slice (Nat.zero_le _) (by omega)).bind fun _ _ ↦ meets_ok trivial

theorem checkedMsm_meets {G : Type} [AddCommGroup G] [Module Fr G] (bases : List G)
    (scalars : List Fr) : Meets (checkedMsm bases scalars) fun _ ↦ True := by
  unfold checkedMsm
  split
  · exact meets_ok trivial
  · exact meets_fail _ _

theorem check2_meets {crs : CRS E} {len : ℕ} (hlen : 3 ≤ len) (hg : crs.powersOfG.length = len)
    (hh : crs.powersOfH.length = len) : Meets (check2 crs) fun _ ↦ True := by
  refine (meets_usizeSub (by omega)).bind fun n hn ↦ ?_
  refine (meets_slice (by omega) (by omega)).bind fun _ _ ↦ ?_
  refine (meets_usizeSub (by omega)).bind fun last _ ↦ ?_
  refine (checkedMsm_meets _ _).bind fun _ _ ↦ ?_
  refine (meets_slice (by omega) (by omega)).bind fun _ _ ↦ ?_
  refine (checkedMsm_meets _ _).bind fun _ _ ↦ ?_
  refine (meets_index (by omega)).bind fun _ _ ↦ ?_
  refine (meets_slice (by omega) (by omega)).bind fun _ _ ↦ ?_
  refine (checkedMsm_meets _ _).bind fun _ _ ↦ ?_
  refine (meets_index (by omega)).bind fun _ _ ↦ ?_
  refine (meets_slice (by omega) (by omega)).bind fun _ _ ↦ ?_
  exact (checkedMsm_meets _ _).bind fun _ _ ↦ meets_ok trivial

theorem check3_meets {crs : CRS E} {len : ℕ} (hlen : 3 ≤ len) (hg : crs.powersOfG.length = len)
    (hh : crs.powersOfH.length = len) : Meets (check3 crs) fun _ ↦ True := by
  have hH {i : ℕ} (hi : i < 3) (test : E.G2 → Bool) : Meets (do
      let h ← (index crs.powersOfH i : Result E.G2)
      .ok (test h)) fun _ ↦ True :=
    (meets_index (by omega)).bind fun _ _ ↦ meets_ok trivial
  refine (meets_index (by omega)).bind fun g0 _ ↦ ?_
  refine (meets_checkOrReturnFalse fun _ ↦ hH (by omega) _).bind fun c1 _ ↦ ?_
  refine (meets_index (by omega)).bind fun g1 _ ↦ ?_
  exact (meets_checkOrReturnFalse fun _ ↦ hH (by omega) _).bind fun _ _ ↦ meets_ok trivial

theorem orFalse_meets {ε : Type} {x : Outcome ε Bool} (h : Meets x fun _ ↦ True) :
    Meets (orFalse x : Result Bool) fun _ ↦ True := by
  obtain ⟨b, hb⟩ : ∃ b, (orFalse x : Result Bool) = .ok b := exists_orFalse_ok h.1
  exact meets_of_ok hb trivial

theorem verifyContribution_meets (prevCrs nextCrs : CRS E) (proof : ContributionProof E) :
    Meets (verifyContribution prevCrs nextCrs proof) fun _ ↦ True := by
  have hlengths := validateCrsTowerLengths_meets prevCrs nextCrs
  unfold verifyContribution
  cases hval : validateCrsTowerLengths prevCrs nextCrs with
  | error e => exact meets_ok trivial
  | ok len =>
    obtain ⟨hlen, hprev, -, hg, hh⟩ := hlengths.2 len hval
    refine (meets_index (by omega)).bind fun prevP1 _ ↦ ?_
    refine (meets_index (by omega)).bind fun nextP1 _ ↦ ?_
    refine (orFalse_meets (meets_of_ok rfl trivial)).bind fun c1 _ ↦ ?_
    refine (orFalse_meets (check2_meets hlen hg hh)).bind fun c2 _ ↦ ?_
    exact (check3_meets hlen hg hh).bind fun _ _ ↦ meets_ok trivial

end Setup

/-- Whatever is deserialized, no entry point panics: not on an index, a subtraction, a division
or the degree of a polynomial. The bound on the tower keeps every product of two polynomials
within the largest domain of the field. -/
theorem entry_points_never_panic (crs : CRS E) (hlen : crs.powersOfG.length ≤ 2 ^ 31) :
    (∀ n i sk, hintGen crs n i sk ≠ unwind) ∧
    (∀ n i hint, verifyHint crs n i hint ≠ unwind) ∧
    (∀ n signerInfo, preprocess n crs signerInfo ≠ unwind) ∧
    (∀ msg (ak : AggregationKey E) partyId sig, partialVerify msg ak partyId sig ≠ unwind) ∧
    (∀ msg (ak : AggregationKey E) signerIds signatures r,
      partialVerifyBatch msg ak signerIds signatures r ≠ unwind) ∧
    (∀ ak vk partialSignatures, aggregate crs ak vk partialSignatures ≠ unwind) ∧
    (∀ msg (vk : VerificationKey E) π fraction, verify msg vk π fraction ≠ unwind) ∧
    (∀ (crs : CRS E) seed, contribute crs seed ≠ unwind) ∧
    (∀ (prevCrs nextCrs : CRS E) proof, verifyContribution prevCrs nextCrs proof ≠ unwind) ∧
    ∀ (crs : CRS E) newDegree, pruneCrs crs newDegree ≠ unwind :=
  ⟨fun n i sk ↦ (hintGen_meets hlen n i sk).1,
    fun n i hint ↦ (verifyHint_meets hlen n i hint).1,
    fun n signerInfo ↦ (preprocess_meets hlen n signerInfo).1,
    fun msg ak partyId sig ↦ (partialVerify_meets msg ak partyId sig).1,
    fun msg ak signerIds signatures r ↦
      (partialVerifyBatch_meets msg ak signerIds signatures r).1,
    fun ak vk partialSignatures ↦ (aggregate_meets hlen ak vk partialSignatures).1,
    fun msg vk π fraction ↦ (verify_meets msg vk π fraction).1,
    fun crs seed ↦ (contribute_meets crs seed).1,
    fun prevCrs nextCrs proof ↦ (verifyContribution_meets prevCrs nextCrs proof).1,
    fun crs newDegree ↦ (pruneCrs_meets crs newDegree).1⟩

/-- A key for the second of four slots, and a hint for it that has too few terms. -/
theorem entry_points_never_panic_four :
    powersOfTwo.powersOfG.length = 5 ∧
      hintGen powersOfTwo 4 1 ⟨1 + 1, ⟨0, 0, 0⟩⟩ ≠ unwind ∧
      verifyHint powersOfTwo 4 1 ⟨1, 4, scalarCurve.g, ⟨0, 0, 0⟩, scalarCurve.g, scalarCurve.h,
        [scalarCurve.g], scalarCurve.g, scalarCurve.g⟩ ≠ unwind := by
  obtain ⟨hgen, hverify, -⟩ := entry_points_never_panic powersOfTwo (by decide)
  exact ⟨rfl, hgen _ _ _, hverify _ _ _⟩

end HieroCryptography.Hints
