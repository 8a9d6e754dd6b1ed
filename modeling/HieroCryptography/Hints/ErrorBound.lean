import HieroCryptography.Hints.Verify

namespace HieroCryptography.Hints

open Polynomial Foundation Rust DensePolynomial Finset

variable {E : Curve}

namespace Relations

variable (D : Domain Fr)

noncomputable def all (W PS B : Fr[X]) (aggWeight : Fr) : List Fr[X] :=
  [p1 D W PS B aggWeight, p2 B, p3 D PS, p4 D B]

variable {D} {W PS B Q : Fr[X]} {aggWeight χ : Fr}

theorem vanishing_dvd_merged_iff : D.vanishing ∣ merged D W PS B aggWeight χ ↔
    ∀ i < D.size, horner χ ((all D W PS B aggWeight).map (eval (D.node i))) = 0 := by
  simp only [D.vanishing_dvd_iff, merged, eval_horner, all]

theorem vanishing_dvd_merged_of_forall
    (h : ∀ P ∈ all D W PS B aggWeight, ∀ i < D.size, P.eval (D.node i) = 0) (χ : Fr) :
    D.vanishing ∣ merged D W PS B aggWeight χ := by
  refine vanishing_dvd_merged_iff.mpr fun i hi ↦ horner_eq_zero_of_forall ?_ χ
  exact List.forall_mem_map.mpr fun P hP ↦ h P hP i hi

theorem ncard_vanishing_dvd_merged_le
    (h : ∃ P ∈ all D W PS B aggWeight, ∃ i < D.size, P.eval (D.node i) ≠ 0) :
    {χ | D.vanishing ∣ merged D W PS B aggWeight χ}.ncard ≤ 3 := by
  obtain ⟨P, hP, i, hi, hne⟩ := h
  have hsub : {χ | D.vanishing ∣ merged D W PS B aggWeight χ} ⊆
      {χ | horner χ ((all D W PS B aggWeight).map (eval (D.node i))) = 0} :=
    fun χ hχ ↦ vanishing_dvd_merged_iff.mp hχ i hi
  exact (Set.ncard_le_ncard hsub).trans
    (ncard_horner_eq_zero_le ⟨_, List.mem_map_of_mem hP, hne⟩)

end Relations

open Relations

section Prove

variable {crs : CRS E} {ak : AggregationKey E} {vk : VerificationKey E} {witness : Witness E}
  {D : Domain Fr} {weights : ℕ → Fr} {PS B : Fr[X]} {aggWeight : Fr}

/-- The key and the witness from which `prove` interpolates the given polynomials. -/
structure Interpolated (D : Domain Fr) (weights : ℕ → Fr) (PS B : Fr[X]) (aggWeight : Fr)
    (ak : AggregationKey E) (witness : Witness E) : Prop where
  size : ak.n = D.size
  weights : ak.weights = (List.range D.size).map weights
  aggWeight : witness.aggWeight = aggWeight
  parsum : ∃ ps, witness.parsum = (List.range D.size).map ps ∧ PS = D.interpolant ps
  bitmap : ∃ b, witness.bitmap = (List.range D.size).map b ∧ B = D.interpolant b

theorem prove_exact_iff (hD : radix2Domain frFft D.size = some D)
    (hwit : Interpolated D weights PS B aggWeight ak witness) {π : ThresholdSignature E}
    {exact : Bool} (h : prove crs ak vk witness = .ok (π, exact)) :
    ∃ χq r χop, deriveChallenges vk π = .ok (χq, r, χop) ∧
      (exact = true ↔ D.vanishing ∣ merged D (D.interpolant weights) PS B aggWeight χq) := by
  obtain ⟨hn, hweights, rfl, ⟨ps, hparsum, rfl⟩, b, hbitmap, rfl⟩ := hwit
  obtain ⟨bp, hb, hbd⟩ := interpolate_denotes hD rfl b
  obtain ⟨pp, hp, hpd⟩ := interpolate_denotes hD rfl ps
  obtain ⟨wp, hw, hwd⟩ := interpolate_denotes hD rfl weights
  obtain ⟨l, hl, hld⟩ := lagrangeNI_ok hD rfl (D.size - 1)
  obtain ⟨⟨χq, r, χop⟩, hprove⟩ := prove_ok_iff.mp h
  refine ⟨χq, r, χop, deriveChallenges_of_prove hprove, ?_⟩
  simp only [proveWithChallenges, hn, hD, okOr_some, ok_bind, bind_ok_iff, hweights, hparsum,
    hbitmap, hb, hp, hw, usizeSub_of_le (Nat.succ_le_of_lt D.size_pos), hl, Except.ok.injEq,
    Prod.mk.injEq] at hprove
  obtain ⟨bCom, -, psCom, -, t₁, -, polys, hpolys, pm, hpm, qCom, -, t₂, -, rDivω, -, t₃, -,
    qOfX, -, O, -, O', -, -, rfl, rfl, -, -⟩ := hprove
  obtain ⟨pm', hpm', hpmd⟩ := mergePolys_ok
    (relationPolys_denotes hbd hpd hwd hld hpolys) (t₁.challenge E dstQuotientMerge)
  rw [hpm] at hpm'
  cases hpm'
  exact hpmd.remainder_isZero_iff D

end Prove

theorem ncard_mergedRelationCheck_le {D : Domain Fr} {vk : VerificationKey E}
    (hvk : vk.n = D.size) {W PS B Q : Fr[X]} {d : ℕ} (hd : D.size ≤ d) (hW : W.natDegree ≤ d)
    (hPS : PS.natDegree ≤ d) (hB : B.natDegree ≤ d) (hQ : Q.natDegree ≤ d) {aggWeight χ : Fr}
    (hne : merged D W PS B aggWeight χ ≠ Q * D.vanishing) {π : Fr → ThresholdSignature E}
    (hweight : ∀ r, (π r).aggWeight = aggWeight) (heval : ∀ r, Evaluations D W PS B Q r (π r)) :
    {r | mergedRelationCheck vk (π r) D.groupGen χ r = .ok true}.ncard ≤ 2 * d := by
  have hmerged := natDegree_merged_le D (by omega : D.size - 1 ≤ d) hW hPS hB aggWeight χ
  have hprod : (Q * D.vanishing).natDegree ≤ d + d :=
    natDegree_mul_le_of_le hQ (D.vanishing_natDegree.le.trans hd)
  refine ncard_le_of_forall_mem (fun r hr ↦ ?_) (card_eval_eq_zero_le (sub_ne_zero.mpr hne)
    (d := 2 * d) ((natDegree_sub_le _ _).trans (by rw [two_mul]; exact max_le hmerged hprod)))
  rw [mergedRelationCheck_eq hvk (heval r), hweight, Except.ok.injEq, decide_eq_true_eq] at hr
  exact mem_filter.mpr ⟨mem_univ r, by rw [eval_sub, hr.2, sub_self]⟩

/-- What each of the three challenges lets through. Relations that do not all hold on the
domain are merged into one that does by at most three values of the first; a quotient that is
not the exact one passes the check at `r` for at most `2 d` values of the second; evaluations
that are not all true are merged into the true combination by at most three values of the
third. -/
theorem merged_proof_error_bound {k : ℕ} {D : Domain Fr}
    (hD : radix2Domain frFft (2 ^ k) = some D) (weights : ℕ → Fr) (aggWeight : Fr) {d : ℕ}
    (hd : 2 ^ k ≤ d) {B PS Q : Fr[X]} (hB : B.natDegree ≤ d) (hPS : PS.natDegree ≤ d)
    (hQ : Q.natDegree ≤ d) :
    let W := D.interpolant weights
    let relations := all D W PS B aggWeight
    let P := merged D W PS B aggWeight
    ((∃ R ∈ relations, ∃ i < 2 ^ k, R.eval (D.groupGen ^ i) ≠ 0) →
      {χ | X ^ 2 ^ k - 1 ∣ P χ}.ncard ≤ 3) ∧
    ((∀ R ∈ relations, ∀ i < 2 ^ k, R.eval (D.groupGen ^ i) = 0) → ∀ χ, X ^ 2 ^ k - 1 ∣ P χ) ∧
    (∀ polys χ, List.Forall₂ Denotes polys relations →
      ∃ p, mergePolys polys χ = .ok p ∧ p.Denotes (P χ)) ∧
    (∀ (crs : CRS E) ak vk witness, Interpolated D weights PS B aggWeight ak witness →
      (∀ τ, Setting crs (2 ^ k) τ → ∃ π exact, prove crs ak vk witness = .ok (π, exact)) ∧
      ∀ π exact, prove crs ak vk witness = .ok (π, exact) →
        ∃ χq r χop, deriveChallenges vk π = .ok (χq, r, χop) ∧
          (exact = true ↔ X ^ 2 ^ k - 1 ∣ P χq)) ∧
    (∀ χ, P χ ≠ Q * (X ^ 2 ^ k - 1) →
      ∀ (vk : VerificationKey E) (π : Fr → ThresholdSignature E), vk.n = 2 ^ k →
      (∀ r, (π r).aggWeight = aggWeight) → (∀ r, Evaluations D W PS B Q r (π r)) →
      {r | mergedRelationCheck vk (π r) D.groupGen χ r = .ok true}.ncard ≤ 2 * d) ∧
    ∀ r qMrgOfR parsumOfR bOfR wOfR,
      [qMrgOfR, parsumOfR, bOfR, wOfR] ≠ [Q.eval r, PS.eval r, B.eval r, W.eval r] →
      {χ | mergeScalars [qMrgOfR, parsumOfR, bOfR, wOfR] χ =
        mergeScalars [Q.eval r, PS.eval r, B.eval r, W.eval r] χ}.ncard ≤ 3 := by
  intro W relations P
  have hsize := radix2Domain_size frFft hD
  have hW : W.natDegree ≤ d :=
    (D.interpolant_natDegree_lt weights).le.trans (hsize.le.trans hd)
  rw [← hsize] at hd hD ⊢
  refine ⟨ncard_vanishing_dvd_merged_le, vanishing_dvd_merged_of_forall,
    fun polys χ h ↦ mergePolys_ok h χ, fun crs ak vk witness hwit ↦ ⟨fun τ S ↦ ?_, ?_⟩,
    fun χ hne vk π hvk ↦ ncard_mergedRelationCheck_le hvk hd hW hPS hB hQ hne, ?_⟩
  · obtain ⟨hn, hweights, -, ⟨ps, hparsum, -⟩, b, hbitmap, -⟩ := hwit
    obtain ⟨π, exact, χq, r, χop, hprove, -⟩ :=
      prove_ok S vk ak witness weights ps b hn hweights hparsum hbitmap
    exact ⟨π, exact, hprove⟩
  · exact fun π exact h ↦ prove_exact_iff hD hwit h
  · intro r qMrgOfR parsumOfR bOfR wOfR hne
    simp only [mergeScalars_eq_horner]
    exact ncard_horner_eq_le (by rfl) hne

/-- Four slots and a bitmap that is not binary: the second relation fails everywhere. -/
theorem merged_proof_error_bound_four : ∃ D, radix2Domain frFft (2 ^ 2) = some D ∧
    (p2 (C 2)).eval (D.groupGen ^ 0) ≠ 0 ∧
      {χ | X ^ 2 ^ 2 - 1 ∣ merged D (D.interpolant fun _ ↦ 1) 0 (C 2) 0 χ}.ncard ≤ 3 := by
  obtain ⟨D, hD, -⟩ := radix2Domain_two_pow frFft (k := 2) (by decide)
  have hfails : (p2 (C 2)).eval (D.groupGen ^ 0) ≠ 0 := by
    rw [eval_p2, eval_C]
    decide +kernel
  have hdeg (c : Fr) : (C c).natDegree ≤ 2 ^ 2 := (natDegree_C c).trans_le (Nat.zero_le _)
  have hzero : (0 : Fr[X]).natDegree ≤ 2 ^ 2 := natDegree_zero.trans_le (Nat.zero_le _)
  have hbound := merged_proof_error_bound (E := scalarCurve) hD (fun _ ↦ 1) 0 le_rfl (hdeg 2) hzero
    hzero
  exact ⟨D, hD, hfails, hbound.1 ⟨p2 (C 2), by simp [all], 0, by decide, hfails⟩⟩

end HieroCryptography.Hints
