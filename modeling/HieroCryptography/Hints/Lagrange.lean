import HieroCryptography.Hints.Verify

namespace HieroCryptography.Hints

open Polynomial Foundation Rust DensePolynomial

/-- `num / den` as the code takes it, with nothing lost in the remainder it drops. -/
def ExactQuotient (num den quotient : DensePolynomial Fr) : Prop :=
  (num.div den : Result _) = .ok quotient ∧ den.toPoly * quotient.toPoly = num.toPoly

structure IsLagrange (n : ℕ) (ω : Fr) (i : ℕ) (l : DensePolynomial Fr) : Prop where
  degree : (l.degree : Result ℕ) = .ok (n - 1)
  self : l.evaluate (ω ^ i) = 1
  other : ∀ j < n, j ≠ i → l.evaluate (ω ^ j) = 0
  constant : l.evaluate 0 = 1 / n

theorem ExactQuotient.of_denotes {num den quotient : DensePolynomial Fr} {N D Q : Fr[X]}
    (hdiv : (num.div den : Result _) = .ok quotient) (hnum : num.Denotes N) (hden : den.Denotes D)
    (hquotient : quotient.Denotes Q) (h : D * Q = N) : ExactQuotient num den quotient :=
  ⟨hdiv, by rw [hnum.2, hden.2, hquotient.2, h]⟩

theorem exactQuotient_qx {l : DensePolynomial Fr} {L : Fr[X]} (hl : l.Denotes L) :
    ∃ num quotient, (l.sub (Utils.computeConstantPoly (l.evaluate 0)) : Result _) = .ok num ∧
      num.toPoly = l.toPoly - C (l.evaluate 0) ∧
      ExactQuotient num Utils.computeXMonomial quotient := by
  obtain ⟨num, quotient, hnum, hquotient, hnumd, hquotientd⟩ := qxTerms_ok hl
  have hsub := hl.of_sub_ok (Utils.denotes_computeConstantPoly _) hnum
  refine ⟨num, quotient, hnum, ?_, ?_⟩
  · rw [hsub.2, hl.2]
  · exact .of_denotes hquotient hnumd Utils.denotes_computeXMonomial hquotientd X_mul

section Universe

variable {n i : ℕ} (U : Universe n) {l : DensePolynomial Fr} (hl : l.Denotes (U.domain.basis i))

include hl

theorem exactQuotient_lagrangePoly
    (hdiv : ((Utils.polyEvalMultC (Utils.computeVanishingPoly n) (U.domain.groupGen ^ i / n)).div
      ⟨[0 - U.domain.groupGen ^ i, 1]⟩ : Result _) = .ok l) :
    ExactQuotient (Utils.polyEvalMultC (Utils.computeVanishingPoly n) (U.domain.groupGen ^ i / n))
      ⟨[0 - U.domain.groupGen ^ i, 1]⟩ l := by
  have hnum := Utils.denotes_polyEvalMultC U.denotes_vanishing (U.domain.groupGen ^ i / n)
  apply ExactQuotient.of_denotes hdiv hnum (Utils.denotes_linear _) hl
  have h := U.domain.sub_mul_basis i
  rwa [U.size] at h

theorem isLagrange_of_denotes (hi : i < n) : IsLagrange n U.domain.groupGen i l := by
  have hsize := U.size
  refine ⟨?_, ?_, ?_, ?_⟩
  · rw [hl.degree, Domain.basis_natDegree, hsize]
  · rw [evaluate_eq, hl.2]
    exact U.domain.eval_basis_self i
  · intro j hj hji
    rw [evaluate_eq, hl.2]
    exact U.domain.eval_basis_of_ne (by omega) (by omega) hji.symm
  · rw [evaluate_eq, hl.2, Domain.eval_zero_basis, hsize]

theorem exactQuotient_crossTerm (hi : i < n) {j : ℕ} (hj : j < n) :
    ∃ num f, crossNumerator n i j l = .ok num ∧
      crossTerm n i j l (Utils.computeVanishingPoly n) = .ok f ∧
      ExactQuotient num (Utils.computeVanishingPoly n) f ∧
      ∃ lj, (Utils.lagrangePoly frFft n j : Result _) = .ok (some lj) ∧
        num.toPoly = if i = j then l.toPoly ^ 2 - l.toPoly else l.toPoly * lj.toPoly := by
  have hsize := U.size
  obtain ⟨num, hnum, hnumd⟩ := crossNumerator_ok U (j := j) hl
  obtain ⟨f, hf, hfd⟩ := crossTerm_ok U (j := j) hl
  obtain ⟨lj, hlj, hljd⟩ := Utils.lagrangePoly_ok (ε := HinTSError) U.radix2 U.size j
  have hdiv : (num.div (Utils.computeVanishingPoly n) : Result _) = .ok f := by
    rwa [crossTerm, hnum, ok_bind] at hf
  refine ⟨num, f, hnum, hf, ?_, lj, hlj, ?_⟩
  · apply ExactQuotient.of_denotes hdiv hnumd U.denotes_vanishing hfd
    exact U.domain.vanishing_mul_cross (by omega) (by omega)
  · rw [hnumd.2, hl.2, hljd.2]
    split
    · subst j
      rw [sq]
    · rw [sub_zero]

end Universe

/-- Every division behind the Lagrange polynomials is exact, and the closed form the verifier
evaluates is the polynomial the prover builds. -/
theorem lagrange_exact_and_closed_form {n k : ℕ} (hn : n = 2 ^ k) (hk : 1 ≤ k) (hk31 : k ≤ 31) :
    ∃ ω : Fr, Utils.nthRootOfUnity frFft n = some ω ∧ IsPrimitiveRoot ω n ∧
      (∀ i < n, ∃ l, (Utils.lagrangePoly frFft n i : Result _) = .ok (some l) ∧
        ExactQuotient (Utils.polyEvalMultC (Utils.computeVanishingPoly n) (ω ^ i / n))
          ⟨[0 - ω ^ i, 1]⟩ l ∧
        IsLagrange n ω i l ∧
        (∀ j < n, ∃ num f, crossNumerator n i j l = .ok num ∧
          crossTerm n i j l (Utils.computeVanishingPoly n) = .ok f ∧
          ExactQuotient num (Utils.computeVanishingPoly n) f ∧
          ∃ lj, (Utils.lagrangePoly frFft n j : Result _) = .ok (some lj) ∧
            num.toPoly = if i = j then l.toPoly ^ 2 - l.toPoly else l.toPoly * lj.toPoly) ∧
        ∃ num quotient,
          (l.sub (Utils.computeConstantPoly (l.evaluate 0)) : Result _) = .ok num ∧
          num.toPoly = l.toPoly - C (l.evaluate 0) ∧
          ExactQuotient num Utils.computeXMonomial quotient) ∧
      ∀ r : Fr, r ^ n ≠ 1 →
        ∃ l, (Utils.lagrangePoly frFft n (n - 1) : Result _) = .ok (some l) ∧
          lNMinus1OfR n ω r = .ok (l.evaluate r) ∧
          ∀ {E : Curve} (vk : VerificationKey E) (π : ThresholdSignature E) (χ : Fr), vk.n = n →
            mergedRelationCheck vk π ω χ r = .ok (decide (mergeScalars
              (relationsAt π (l.evaluate r)) χ = π.qMrgOfR * (r ^ n - 1))) := by
  have hvalid : Utils.isNValid n = true := Utils.isNValid_iff.mpr ⟨k, hk, hn⟩
  have hbound : n ≤ 2 ^ 31 := hn ▸ Nat.pow_le_pow_right two_pos hk31
  obtain ⟨U⟩ := Universe.nonempty hvalid hbound
  have hprimitive : IsPrimitiveRoot U.domain.groupGen n := by
    have h := U.domain.primitive
    rwa [U.size] at h
  refine ⟨U.domain.groupGen, Utils.nthRootOfUnity_of_domain U.radix2, hprimitive, ?_, ?_⟩
  · intro i hi
    obtain ⟨l, hl, hdiv, hld⟩ := Utils.lagrangePoly_quotient (ε := HinTSError) U.radix2 U.size i
    refine ⟨l, hl, ?_, isLagrange_of_denotes U hld hi, ?_, exactQuotient_qx hld⟩
    · exact exactQuotient_lagrangePoly U hld hdiv
    · intro j hj
      exact exactQuotient_crossTerm U hld hi hj
  · intro r hr
    obtain ⟨l, hl, hld⟩ := Utils.lagrangePoly_ok (ε := HinTSError) U.radix2 U.size (n - 1)
    have hclosed : lNMinus1OfR n U.domain.groupGen r = .ok (l.evaluate r) := by
      have h := lNMinus1OfR_ok U.domain (U.size.symm ▸ hr)
      rwa [U.size, ← hld.2, ← evaluate_eq] at h
    refine ⟨l, hl, hclosed, ?_⟩
    intro E vk π χ hvk
    rw [mergedRelationCheck, hvk, hclosed, decide_eq_true (sub_ne_zero.mpr hr),
      checkOrReturnFalse_true, ok_bind]

theorem lagrange_exact_and_closed_form_four :
    ∃ (ω : Fr) (l : DensePolynomial Fr), Utils.nthRootOfUnity frFft 4 = some ω ∧
      (Utils.lagrangePoly frFft 4 3 : Result _) = .ok (some l) ∧ l.evaluate 0 = 1 / 4 ∧
      lNMinus1OfR 4 ω 3 = .ok (l.evaluate 3) := by
  obtain ⟨ω, hroot, -, hall, hclosed⟩ :=
    lagrange_exact_and_closed_form (n := 4) (k := 2) rfl one_le_two (by norm_num)
  have hoff : (3 : Fr) ^ 4 ≠ 1 := by decide +kernel
  obtain ⟨l, hl, -, hlagrange, -⟩ := hall 3 (by norm_num)
  obtain ⟨l', hl', hvalue, -⟩ := hclosed 3 hoff
  have hsame : l = l' := by
    rw [hl] at hl'
    simpa using hl'
  refine ⟨ω, l, hroot, hl, by simpa using hlagrange.constant, ?_⟩
  rw [hvalue, hsame]

end HieroCryptography.Hints
