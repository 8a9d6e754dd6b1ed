import HieroCryptography.Foundation.DensePolynomial

namespace HieroCryptography.Hints.Utils

open Polynomial Foundation Rust DensePolynomial

variable {F : Type} [Field F] [DecidableEq F] {ε : Type}

def computeVanishingPoly (n : ℕ) : DensePolynomial F :=
  ⟨(List.range (n + 1)).map fun i ↦ if i = 0 then 0 - 1 else if i < n then 0 else 1⟩

def interpolatePolyOverMultSubgroup (S : FftField F) (evals : List F) :
    Option (DensePolynomial F) :=
  (radix2Domain S evals.length).map fun d ↦ interpolate d evals

def computeXMonomial : DensePolynomial F := ⟨[0, 1]⟩

def computeConstantPoly (c : F) : DensePolynomial F := ⟨[c]⟩

/-- `f(ω X)`; the zeroth coefficient is not touched. -/
def polyDomainMultω (f : DensePolynomial F) (ω : F) : Outcome ε (DensePolynomial F) := do
  let d ← f.degree
  .ok ⟨f.coeffs.mapIdx fun i c ↦ if 1 ≤ i ∧ i < d + 1 then c * ω ^ i else c⟩

def polyEvalMultC (f : DensePolynomial F) (c : F) : DensePolynomial F :=
  if f.coeffs.isEmpty then f else ⟨f.coeffs.map fun a ↦ a * c⟩

def nthRootOfUnity (S : FftField F) (n : ℕ) : Option F :=
  (radix2Domain S n).map fun d ↦ d.groupGen

def lagrangePoly (S : FftField F) (n i : ℕ) : Outcome ε (Option (DensePolynomial F)) :=
  match nthRootOfUnity S n with
  | none => .ok none
  | some ω => do
    let factor ← fieldDiv (ω ^ i) (n : F)
    let numerator := computeVanishingPoly n
    let denominator : DensePolynomial F := ⟨[0 - ω ^ i, 1]⟩
    let quotient ← (polyEvalMultC numerator factor).div denominator
    .ok (some quotient)

def isNValid (n : ℕ) : Bool := n > 1 && (n &&& (n - 1)) = 0

theorem isNValid_iff {n : ℕ} : isNValid n = true ↔ ∃ k, 1 ≤ k ∧ n = 2 ^ k := by
  simp only [isNValid, Bool.and_eq_true, decide_eq_true_eq]
  constructor
  · rintro ⟨hn, hand⟩
    obtain ⟨k, rfl⟩ := (Nat.and_sub_one_eq_zero_iff_isPowerOfTwo (by omega)).mp hand
    refine ⟨k, ?_, rfl⟩
    by_contra hk
    obtain rfl : k = 0 := by omega
    simp at hn
  · rintro ⟨k, hk, rfl⟩
    exact ⟨Nat.one_lt_two_pow (by omega),
      (Nat.and_sub_one_eq_zero_iff_isPowerOfTwo (Nat.two_pow_pos k).ne').mpr ⟨k, rfl⟩⟩

theorem one_lt_of_isNValid {n : ℕ} (h : isNValid n = true) : 1 < n := by
  simp only [isNValid, Bool.and_eq_true, decide_eq_true_eq] at h
  exact h.1

theorem usizeSub_one_of_isNValid {n : ℕ} (h : isNValid n = true) :
    (usizeSub n 1 : Outcome ε ℕ) = .ok (n - 1) :=
  usizeSub_of_le (one_lt_of_isNValid h).le

omit [DecidableEq F] in
theorem toPoly_computeVanishingPoly {n : ℕ} (hn : 0 < n) :
    (computeVanishingPoly n : DensePolynomial F).toPoly = X ^ n - 1 := by
  ext i
  rw [toPoly, coeff_coeffsPoly, coeff_sub, coeff_X_pow, coeff_one, computeVanishingPoly]
  rcases lt_trichotomy i n with hi | rfl | hi
  · rw [List.getD_eq_getElem _ _ (by simp; omega)]
    by_cases h0 : i = 0
    · subst i
      simp [hn.ne]
    · simp [h0, hi, hi.ne]
  · rw [List.getD_eq_getElem _ _ (by simp)]
    simp [hn.ne']
  · rw [List.getD_eq_default _ _ (by simp; omega)]
    have h0 : i ≠ 0 := by omega
    simp [hi.ne', h0]

theorem denotes_computeVanishingPoly (D : Domain F) :
    (computeVanishingPoly D.size : DensePolynomial F).Denotes D.vanishing := by
  refine ⟨Or.inr ?_, toPoly_computeVanishingPoly D.size_pos⟩
  rw [computeVanishingPoly, List.range_succ, List.map_append, List.map_singleton,
    List.getLast?_append]
  simp [D.size_pos.ne']

theorem denotes_computeConstantPoly (c : F) :
    (computeConstantPoly c).Denotes (C c) := by
  refine ⟨?_, by simp [toPoly, computeConstantPoly]⟩
  by_cases hc : c = 0
  · exact Or.inl (by simp [isZero, computeConstantPoly, hc])
  · exact Or.inr (by simpa [computeConstantPoly] using hc)

theorem denotes_linear (z : F) : (⟨[0 - z, 1]⟩ : DensePolynomial F).Denotes (X - C z) := by
  refine ⟨Or.inr (by simp), ?_⟩
  simp only [toPoly, coeffsPoly_cons, coeffsPoly_nil, zero_sub, C_neg, C_1]
  ring

theorem denotes_computeXMonomial : (computeXMonomial : DensePolynomial F).Denotes X :=
  ⟨Or.inr (by simp [computeXMonomial]), by simp [toPoly, computeXMonomial]⟩

omit [DecidableEq F] in
theorem toPoly_polyEvalMultC (f : DensePolynomial F) (c : F) :
    (polyEvalMultC f c).toPoly = C c * f.toPoly := by
  unfold polyEvalMultC
  split
  · rename_i h
    simp [toPoly, List.isEmpty_iff.mp h]
  · have h := coeffsPoly_coeffsSmul c f.coeffs
    simpa only [toPoly, coeffsSmul, mul_comm c] using h

theorem denotes_polyEvalMultC {f : DensePolynomial F} {P : F[X]} (hf : f.Denotes P) (c : F) :
    (polyEvalMultC f c).Denotes (C c * P) := by
  refine ⟨?_, by rw [toPoly_polyEvalMultC, hf.2]⟩
  by_cases h0 : C c * P = 0
  · exact Or.inl ((isZero_iff _).mpr (by rw [toPoly_polyEvalMultC, hf.2, h0]))
  · obtain ⟨hc, hP⟩ := mul_ne_zero_iff.mp h0
    have hlast := hf.1.resolve_left (by rw [isZero_iff, hf.2]; exact hP)
    refine Or.inr ?_
    unfold polyEvalMultC
    split
    · exact hlast
    · rw [List.getLast?_map]
      intro h
      obtain ⟨a, ha, hac⟩ := Option.map_eq_some_iff.mp h
      rcases mul_eq_zero.mp hac with rfl | rfl
      · exact hlast ha
      · exact hc C_0

theorem polyDomainMultω_ok {f : DensePolynomial F} {P : F[X]} (hf : f.Denotes P) {ω : F}
    (hω : ω ≠ 0) :
    ∃ r, (polyDomainMultω f ω : Outcome ε _) = .ok r ∧ r.Denotes (P.comp (C ω * X)) := by
  unfold polyDomainMultω
  rw [hf.degree, ok_bind]
  refine ⟨_, rfl, ?_⟩
  set g : DensePolynomial F :=
    ⟨f.coeffs.mapIdx fun i c ↦ if 1 ≤ i ∧ i < P.natDegree + 1 then c * ω ^ i else c⟩ with hg
  have hcoeff (i : ℕ) : g.coeffs.getD i 0 = f.coeffs.getD i 0 * ω ^ i := by
    simp only [hg, List.getD_eq_getElem?_getD, List.getElem?_mapIdx]
    cases hi : f.coeffs[i]? with
    | none => simp
    | some c =>
      simp only [Option.map_some, Option.getD_some]
      split
      · rfl
      · rcases Nat.eq_zero_or_pos i with rfl | hpos
        · simp
        · -- what the loop leaves out above the degree is zero anyway
          have hdeg : P.natDegree < i := by omega
          have hc : c = 0 := by
            have := coeff_coeffsPoly f.coeffs i
            rw [← toPoly, hf.2, coeff_eq_zero_of_natDegree_lt hdeg, List.getD_eq_getElem?_getD,
              hi] at this
            exact this.symm
          simp [hc]
  have hpoly : g.toPoly = P.comp (C ω * X) := by
    ext i
    rw [toPoly, coeff_coeffsPoly, hcoeff, comp_C_mul_X_coeff, ← hf.2, toPoly, coeff_coeffsPoly]
  refine ⟨?_, hpoly⟩
  by_cases h0 : g.isZero = true
  · exact Or.inl h0
  refine Or.inr fun hlast ↦ ?_
  have hlen : g.coeffs.length = f.coeffs.length := by simp [hg]
  have hP : P ≠ 0 := by
    rintro rfl
    exact h0 ((isZero_iff _).mpr (by rw [hpoly, zero_comp]))
  apply hf.1.resolve_left (by rw [isZero_iff, hf.2]; exact hP)
  have hpos : 0 < f.coeffs.length := by rw [hf.length hP]; omega
  rw [List.getLast?_eq_getElem?, List.getElem?_eq_getElem (by omega)] at hlast ⊢
  have h := hcoeff (f.coeffs.length - 1)
  rw [List.getD_eq_getElem _ _ (by omega), List.getD_eq_getElem _ _ (by omega)] at h
  simp only [hlen, Option.some.injEq] at hlast ⊢
  rw [hlast] at h
  exact (mul_eq_zero.mp h.symm).resolve_right (pow_ne_zero _ hω)

omit [DecidableEq F] in
theorem nthRootOfUnity_of_domain {S : FftField F} {n : ℕ} {D : Domain F}
    (h : radix2Domain S n = some D) : nthRootOfUnity S n = some D.groupGen := by
  simp [nthRootOfUnity, h]

theorem lagrangePoly_quotient {S : FftField F} {n : ℕ} {D : Domain F}
    (h : radix2Domain S n = some D) (hn : D.size = n) (i : ℕ) :
    ∃ r, (lagrangePoly S n i : Outcome ε _) = .ok (some r) ∧
      ((polyEvalMultC (computeVanishingPoly n) (D.groupGen ^ i / n)).div
        ⟨[0 - D.groupGen ^ i, 1]⟩ : Outcome ε _) = .ok r ∧ r.Denotes (D.basis i) := by
  subst hn
  have hnum : (polyEvalMultC (computeVanishingPoly D.size) (D.groupGen ^ i / D.size)).Denotes
      (C (D.node i / D.size) * D.vanishing) :=
    denotes_polyEvalMultC (denotes_computeVanishingPoly D) _
  rw [← D.sub_mul_basis] at hnum
  obtain ⟨r, hr, hd⟩ := hnum.div_exact (ε := ε) (denotes_linear (D.groupGen ^ i))
    (X_sub_C_ne_zero _)
  refine ⟨r, ?_, hr, hd⟩
  unfold lagrangePoly
  rw [nthRootOfUnity_of_domain h]
  simp only [fieldDiv_of_ne _ D.size_ne_zero, ok_bind, hr]

theorem lagrangePoly_ok {S : FftField F} {n : ℕ} {D : Domain F} (h : radix2Domain S n = some D)
    (hn : D.size = n) (i : ℕ) :
    ∃ r, (lagrangePoly S n i : Outcome ε _) = .ok (some r) ∧ r.Denotes (D.basis i) := by
  obtain ⟨r, hr, -, hd⟩ := lagrangePoly_quotient (ε := ε) h hn i
  exact ⟨r, hr, hd⟩

theorem interpolate_ok (S : FftField F) (evals : List F) {D : Domain F}
    (h : radix2Domain S evals.length = some D) :
    ∃ r, interpolatePolyOverMultSubgroup S evals = some r ∧
      r.Denotes (D.interpolant fun i ↦ evals.getD i 0) :=
  ⟨_, by simp [interpolatePolyOverMultSubgroup, h], denotes_interpolate D evals⟩

end HieroCryptography.Hints.Utils
