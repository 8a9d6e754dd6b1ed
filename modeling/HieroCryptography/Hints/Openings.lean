import HieroCryptography.Hints.Verify

namespace HieroCryptography.Hints

open Polynomial Foundation Rust DensePolynomial Kzg

variable {E : Curve}

theorem forall₂_denotes_toPoly {polys : List (DensePolynomial Fr)} (h : ∀ p ∈ polys, p.Valid) :
    List.Forall₂ Denotes polys (polys.map toPoly) := by
  rw [List.forall₂_map_right_iff, List.forall₂_same]
  intro p hp
  exact ⟨h p hp, rfl⟩

/-- The folds over polynomials, scalars and points stay in step: a merged commitment opens, at
every point, to the merged evaluations and to nothing else. A commitment fails exactly when the
degree reaches the length of the tower. -/
theorem merged_opening_exact {crs : CRS E} {τ : Fr} (hcrs : WellFormed crs τ)
    {vk : VerificationKey E} (hg0 : vk.g0 = E.g) (hh0 : vk.h0 = E.h) (hh1 : vk.h1 = τ • E.h)
    {polys : List (DensePolynomial Fr)} (hne : polys ≠ []) (hvalid : ∀ p ∈ polys, p.Valid)
    (hdeg : ∀ p ∈ polys, p.toPoly.natDegree < crs.powersOfG.length) (χ z : Fr) :
    (∃ merged coms proof, mergePolys polys χ = .ok merged ∧
      polys.mapM (commitG1 crs) = .ok coms ∧
      commitG1 crs merged = .ok (mergePoints coms χ) ∧
      merged.evaluate z = mergeScalars (polys.map fun p ↦ p.evaluate z) χ ∧
      computeOpeningProof crs merged z = .ok proof ∧
      ∀ y, verifyOpening vk (mergePoints coms χ) z y proof = true ↔
        y = mergeScalars (polys.map fun p ↦ p.evaluate z) χ) ∧
    ∀ p : DensePolynomial Fr, p.Valid →
      (commitG1 crs p = fail (.insufficientCRS p.toPoly.natDegree) ↔
        crs.powersOfG.length ≤ p.toPoly.natDegree) ∧
      ((∃ com, commitG1 crs p = .ok com) ↔ p.toPoly.natDegree < crs.powersOfG.length) := by
  refine ⟨?_, fun p hp ↦ commit_outcome _ ⟨hp, rfl⟩⟩
  obtain ⟨p₀, hp₀⟩ := List.exists_mem_of_ne_nil _ hne
  have hpos : 0 < crs.powersOfG.length := (Nat.zero_le _).trans_lt (hdeg p₀ hp₀)
  obtain ⟨merged, hmerged, hmergedd⟩ := mergePolys_ok (forall₂_denotes_toPoly hvalid) χ
  set P := horner χ (polys.map toPoly) with hP
  have hPdeg : P.natDegree < crs.powersOfG.length := by
    apply Relations.natDegree_horner_lt hpos
    intro Q hQ
    obtain ⟨p, hp, rfl⟩ := List.mem_map.mp hQ
    exact hdeg p hp
  have hcoms : polys.mapM (commitG1 crs) = .ok (polys.map fun p ↦ p.toPoly.eval τ • E.g) :=
    mapM_ok_of_forall fun p hp ↦ commit_ok hcrs.g ⟨hvalid p hp, rfl⟩ (hdeg p hp)
  have hpoints : mergePoints (polys.map fun p ↦ p.toPoly.eval τ • E.g) χ = P.eval τ • E.g := by
    rw [mergePoints_eq_horner, hP, eval_horner, ← horner_smul_g, List.map_map, List.map_map]
    rfl
  have hscalars : mergeScalars (polys.map fun p ↦ p.evaluate z) χ = P.eval z := by
    rw [mergeScalars_eq_horner, hP, eval_horner, List.map_map]
    exact congrArg _ (List.map_congr_left fun p _ ↦ evaluate_eq p z)
  obtain ⟨Q, hQ, hproof⟩ := computeOpeningProof_ok hcrs hmergedd hPdeg z
  refine ⟨merged, _, _, hmerged, hcoms, ?_, ?_, hproof, ?_⟩
  · rw [hpoints]
    exact commit_ok hcrs.g hmergedd hPdeg
  · rw [hscalars, evaluate_eq, hmergedd.2]
  · intro y
    rw [hpoints, hscalars]
    exact verifyOpening_quotient_iff hg0 hh0 hh1 hQ y

theorem merged_opening_exact_line : ∃ (vk : VerificationKey scalarCurve) (com proof : Fr),
    verifyOpening vk com 7 23 proof = true ∧ verifyOpening vk com 7 24 proof = false := by
  obtain ⟨S⟩ := exists_powersOfTwo
  have hvalid : ∀ p ∈ [(⟨[1, 1]⟩ : DensePolynomial Fr), ⟨[3]⟩], p.Valid := by
    simp only [List.forall_mem_cons, Valid]
    exact ⟨Or.inr (by decide), Or.inr (by decide), by simp⟩
  have hdeg : ∀ p ∈ [(⟨[1, 1]⟩ : DensePolynomial Fr), ⟨[3]⟩],
      p.toPoly.natDegree < powersOfTwo.powersOfG.length := by
    intro p hp
    have hlen : p.coeffs.length ≤ 2 := by
      revert p
      simp
    have hle : p.toPoly.natDegree ≤ 2 :=
      natDegree_le_iff_degree_le.mpr ((coeffsPoly_degree_lt _).le.trans (by exact_mod_cast hlen))
    exact hle.trans_lt (by decide)
  have hg0 : (S.verificationKey 0 0).g0 = scalarCurve.g := rfl
  obtain ⟨⟨merged, coms, proof, -, -, -, -, -, hiff⟩, -⟩ := merged_opening_exact S.wellFormed
    hg0 rfl rfl (List.cons_ne_nil _ _) hvalid hdeg 5 7
  refine ⟨S.verificationKey 0 0, mergePoints coms 5, proof, (hiff 23).mpr ?_, ?_⟩
  · decide +kernel
  · rw [← Bool.not_eq_true, hiff 24]
    decide +kernel

end HieroCryptography.Hints
