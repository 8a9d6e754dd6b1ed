import HieroCryptography.Foundation.BivariateRoots
import HieroCryptography.Hints.Setup

namespace HieroCryptography.Hints

open Polynomial Foundation Rust Kzg

variable {E : Curve}

def IsPowersOfTau (crs : CRS E) : Prop := ∃ τ : Fr, τ ≠ 0 ∧ WellFormed crs τ

/-- Two towers given by the discrete logarithms of their elements. -/
def fromExponents (E : Curve) (d : ℕ) (a b : ℕ → Fr) : CRS E where
  powersOfG := (List.range (d + 1)).map fun i ↦ a i • E.g
  powersOfH := (List.range (d + 1)).map fun i ↦ b i • E.h

theorem exists_exponents {crs : CRS E} {d : ℕ} (hg : crs.powersOfG.length = d + 1)
    (hh : crs.powersOfH.length = d + 1) : ∃ a b, crs = fromExponents E d a b := by
  have htower {G : Type} [AddCommGroup G] [Module Fr G] {g : G} (hspan : ∀ x, ∃ c : Fr, c • g = x)
      {xs : List G} (hlen : xs.length = d + 1) :
      ∃ a : ℕ → Fr, xs = (List.range (d + 1)).map fun i ↦ a i • g := by
    choose c hc using hspan
    refine ⟨fun i ↦ c (xs.getD i 0), List.ext_getElem (by simpa using hlen) fun i h₁ _ ↦ ?_⟩
    rw [List.getElem_map, List.getElem_range, hc, List.getD_eq_getElem _ _ h₁]
  obtain ⟨a, ha⟩ := htower E.g_spans hg
  obtain ⟨b, hb⟩ := htower E.h_spans hh
  refine ⟨a, b, ?_⟩
  rw [fromExponents, ← ha, ← hb]

section Equation

variable {G : Type} [AddCommGroup G] [Module Fr G]

theorem msm_range' (g : G) (a : ℕ → Fr) (ρ : Fr) (p q m : ℕ) :
    msm ((List.range' p m).map fun i ↦ a i • g) ((List.range' q m).map fun i ↦ ρ ^ i) =
      (∑ i ∈ Finset.range m, a (p + i) * ρ ^ (q + i)) • g := by
  induction m generalizing p q with
  | zero => simp [msm]
  | succ m ih =>
    have htail := ih (p + 1) (q + 1)
    simp only [msm, List.range'_succ, List.map_cons, List.zipWith_cons_cons, List.sum_cons]
      at htail ⊢
    rw [htail, Finset.sum_range_succ', smul_smul, ← add_smul]
    simp only [Nat.add_zero, Nat.add_right_comm _ 1, Nat.add_assoc _ _ 1]
    congr 1
    ring

theorem checkedMsm_range' (g : G) (a : ℕ → Fr) (ρ : Fr) {p q m l : ℕ} (hm : l + 1 - q = m) :
    checkedMsm ((List.range' p m).map fun i ↦ a i • g) (powersFromTo ρ q l) =
      .ok ((∑ i ∈ Finset.range m, a (p + i) * ρ ^ (q + i)) • g) := by
  unfold checkedMsm powersFromTo
  rw [hm, if_pos (by simp), msm_range']

end Equation

noncomputable def sequencePoly (d : ℕ) (a : ℕ → Fr) : Fr[X] := coeffsPoly ((List.range d).map a)

theorem sequencePoly_coeff {d i : ℕ} (hi : i < d) (a : ℕ → Fr) :
    (sequencePoly d a).coeff i = a i := by
  rw [sequencePoly, coeff_coeffsPoly, List.getD_eq_getElem _ _ (by simpa using hi)]
  simp

theorem sequencePoly_natDegree_le {d : ℕ} (hd : 0 < d) (a : ℕ → Fr) :
    (sequencePoly d a).natDegree ≤ d - 1 := by
  have hdeg : (sequencePoly d a).degree < d := by
    simpa [sequencePoly] using coeffsPoly_degree_lt ((List.range d).map a)
  by_cases h0 : sequencePoly d a = 0
  · rw [h0, natDegree_zero]
    exact Nat.zero_le _
  · have := (natDegree_lt_iff_degree_lt h0).mpr hdeg
    omega

/-- The pairing equation compares two products, of the towers and of the towers shifted by
one place, in two independent variables. -/
theorem check2Equation_eq {d : ℕ} (hd : 2 ≤ d) (a b : ℕ → Fr) (ρ1 ρ2 : Fr) :
    check2Equation (fromExponents E d a b) ρ1 ρ2 = .ok (decide (
      (sequencePoly d fun i ↦ a (i + 1)).eval ρ1 * (sequencePoly d b).eval ρ2 =
        (sequencePoly d a).eval ρ1 * (sequencePoly d fun i ↦ b (i + 1)).eval ρ2)) := by
  obtain ⟨m, rfl⟩ : ∃ m, d = m + 1 := ⟨d - 1, by omega⟩
  have hshift (a : ℕ → Fr) (ρ : Fr) : ∑ i ∈ Finset.range (m + 1), a (1 + i) * ρ ^ (0 + i) =
      (sequencePoly (m + 1) fun i ↦ a (i + 1)).eval ρ := by
    rw [sequencePoly, eval_coeffsPoly_map_range]
    simp only [Nat.zero_add, Nat.add_comm 1]
  have hplain (a : ℕ → Fr) (ρ : Fr) :
      ∑ i ∈ Finset.range m, a (1 + i) * ρ ^ (1 + i) + a 0 = (sequencePoly (m + 1) a).eval ρ := by
    rw [sequencePoly, eval_coeffsPoly_map_range, Finset.sum_range_succ', pow_zero, mul_one]
    simp only [Nat.add_comm 1]
  unfold check2Equation
  simp only [fromExponents, List.length_map, List.length_range,
    usizeSub_of_le (show 1 ≤ m + 1 + 1 by omega), usizeSub_of_le (show 1 ≤ m + 1 by omega),
    Nat.add_sub_cancel, ok_bind]
  simp only [slice_map_range (show 1 ≤ m + 1 + 1 by omega) le_rfl,
    slice_map_range (show 1 ≤ m + 1 by omega) (show m + 1 ≤ m + 1 + 1 by omega),
    Nat.add_sub_cancel, ok_bind, checkedMsm_range' _ _ _ (show m + 1 - 0 = m + 1 by omega),
    checkedMsm_range' _ _ _ (show m + 1 - 1 = m by omega),
    index_map_range _ (show 0 < m + 1 + 1 by omega), ← add_smul, hshift, hplain, E.pairing_smul_inj]

def check2Passing (crs : CRS E) : Finset (Fr × Fr) :=
  {ρ | check2Equation crs ρ.1 ρ.2 = .ok true}

theorem mem_check2Passing {crs : CRS E} {ρ : Fr × Fr} :
    ρ ∈ check2Passing crs ↔ check2Equation crs ρ.1 ρ.2 = .ok true := by
  simp [check2Passing]

theorem wellFormed_fromExponents_iff {d : ℕ} {a b : ℕ → Fr} {τ : Fr} :
    WellFormed (fromExponents E d a b) τ ↔ ∀ i ≤ d, a i = τ ^ i ∧ b i = τ ^ i := by
  constructor
  · rintro ⟨hg, hh⟩ i hi
    have hg' := hg i (a i • E.g) (by simp [fromExponents, Nat.lt_succ_of_le hi])
    have hh' := hh i (b i • E.h) (by simp [fromExponents, Nat.lt_succ_of_le hi])
    exact ⟨E.smul_g_inj.mp hg', E.smul_h_inj.mp hh'⟩
  · intro h
    constructor
    · intro i x hx
      obtain ⟨hi, rfl⟩ := List.getElem?_eq_some_iff.mp hx
      have hi' : i ≤ d := by simpa [fromExponents, Nat.lt_succ_iff] using hi
      simp [fromExponents, (h i hi').1]
    · intro i x hx
      obtain ⟨hi, rfl⟩ := List.getElem?_eq_some_iff.mp hx
      have hi' : i ≤ d := by simpa [fromExponents, Nat.lt_succ_iff] using hi
      simp [fromExponents, (h i hi').2]

theorem check3_fromExponents_iff {d : ℕ} (hd : 1 ≤ d) {a b : ℕ → Fr} :
    check3 (fromExponents E d a b) = .ok true ↔ a 0 = 1 ∧ b 0 = 1 ∧ a 1 ≠ 0 ∧ b 1 ≠ 0 := by
  have hone : 1 < d + 1 := by omega
  have hg : a 0 • E.g = E.g ↔ a 0 = 1 := by
    rw [← E.smul_g_inj, one_smul]
  have hh : b 0 • E.h = E.h ↔ b 0 = 1 := by
    rw [← E.smul_h_inj, one_smul]
  rw [check3_ok_true_iff]
  simp [fromExponents, hone, hg, hh, E.smul_g_eq_zero, E.smul_h_eq_zero]

theorem isPowersOfTau_of_consistent {d : ℕ} (hd : 1 ≤ d) {a b : ℕ → Fr} (ha : a 0 = 1)
    (hb : b 0 = 1) (ha1 : a 1 ≠ 0) (h : ∀ i < d, ∀ j < d, a (i + 1) * b j = a i * b (j + 1)) :
    IsPowersOfTau (fromExponents E d a b) := by
  have hab : a 1 = b 1 := by simpa [ha, hb] using h 0 (by omega) 0 (by omega)
  refine ⟨a 1, ha1, wellFormed_fromExponents_iff.mpr fun i hi ↦ ?_⟩
  induction i with
  | zero => simp [ha, hb]
  | succ i ih =>
    obtain ⟨hai, hbi⟩ := ih (by omega)
    have hg := h i (by omega) 0 (by omega)
    have hh := h 0 (by omega) i (by omega)
    rw [hb, mul_one, Nat.zero_add, hai, ← hab] at hg
    rw [ha, one_mul, Nat.zero_add, hbi] at hh
    exact ⟨by rw [hg, pow_succ], by rw [← hh, pow_succ']⟩

theorem check2Equation_of_isPowersOfTau {crs : CRS E} {d : ℕ} (hd : 2 ≤ d)
    (hg : crs.powersOfG.length = d + 1) (hh : crs.powersOfH.length = d + 1)
    (h : IsPowersOfTau crs) (ρ1 ρ2 : Fr) : check2Equation crs ρ1 ρ2 = .ok true := by
  obtain ⟨a, b, rfl⟩ := exists_exponents hg hh
  obtain ⟨τ, -, hτ⟩ := h
  rw [wellFormed_fromExponents_iff] at hτ
  have hshift (a : ℕ → Fr) (ha : ∀ i ≤ d, a i = τ ^ i) (ρ : Fr) :
      (sequencePoly d fun i ↦ a (i + 1)).eval ρ = τ * (sequencePoly d a).eval ρ := by
    simp only [sequencePoly, eval_coeffsPoly_map_range, Finset.mul_sum]
    refine Finset.sum_congr rfl fun i hi ↦ ?_
    have hi' := Finset.mem_range.mp hi
    rw [ha (i + 1) (by omega), ha i (by omega), pow_succ']
    ring
  rw [check2Equation_eq hd, hshift a (fun i hi ↦ (hτ i hi).1), hshift b (fun i hi ↦ (hτ i hi).2)]
  congr 1
  exact decide_eq_true (by ring)

theorem card_check2Passing_le {crs : CRS E} {d : ℕ} (hd : 2 ≤ d)
    (hg : crs.powersOfG.length = d + 1) (hh : crs.powersOfH.length = d + 1)
    (h3 : check3 crs = .ok true) (h : ¬ IsPowersOfTau crs) :
    (check2Passing crs).card ≤ 2 * (d - 1) * Fintype.card Fr := by
  obtain ⟨a, b, rfl⟩ := exists_exponents hg hh
  obtain ⟨ha, hb, ha1, -⟩ := (check3_fromExponents_iff (by omega)).mp h3
  have hne : ∃ i j, (sequencePoly d fun i ↦ a (i + 1)).coeff i * (sequencePoly d b).coeff j ≠
      (sequencePoly d a).coeff i * (sequencePoly d fun i ↦ b (i + 1)).coeff j := by
    by_contra hall
    push Not at hall
    refine h (isPowersOfTau_of_consistent (by omega) ha hb ha1 fun i hi j hj ↦ ?_)
    simpa only [sequencePoly_coeff hi, sequencePoly_coeff hj] using hall i j
  have hdeg (a : ℕ → Fr) := sequencePoly_natDegree_le (show 0 < d by omega) a
  have hcard := card_separated_products_le (hdeg _) (hdeg _) (hdeg _) (hdeg _) hne
  simpa only [check2Passing, check2Equation_eq hd, Except.ok.injEq, decide_eq_true_eq] using hcard

/-- Soundness of the ceremony: what the batched pairing check and an accepted contribution
are worth, and what follows for every string on a chain of accepted contributions. -/
theorem ceremony_sound (E : Curve) :
    (∀ (crs : CRS E) (d : ℕ), 2 ≤ d → crs.powersOfG.length = d + 1 →
      crs.powersOfH.length = d + 1 → check3 crs = .ok true →
      (IsPowersOfTau crs → ∀ ρ1 ρ2, check2Equation crs ρ1 ρ2 = .ok true) ∧
      (¬ IsPowersOfTau crs → (check2Passing crs).card ≤ 2 * (d - 1) * Fintype.card Fr)) ∧
    (∀ (prev next : CRS E) (proof : ContributionProof E),
      verifyContribution prev next proof = .ok true → ∃ len p q h, 3 ≤ len ∧
        prev.powersOfG.length = len ∧ prev.powersOfH.length = len ∧
        next.powersOfG.length = len ∧ next.powersOfH.length = len ∧
        check3 next = .ok true ∧ check2 next = .ok true ∧
        prev.powersOfG[1]? = some p ∧ next.powersOfG[1]? = some q ∧
        randomOracle p q proof.p1MulZ = .ok h ∧
        proof.zPlusHr • p = proof.p1MulZ + h • q) ∧
    (∀ (d k : ℕ) (c : ℕ → CRS E) (proof : ℕ → ContributionProof E), c 0 = init E d →
      (∀ i < k, verifyContribution (c i) (c (i + 1)) (proof i) = .ok true) →
      ∀ i, 1 ≤ i → i ≤ k → (c i).powersOfG.length = d + 1 ∧ (c i).powersOfH.length = d + 1 ∧
        (IsPowersOfTau (c i) ∨ check2Oracle (c i) ∈ check2Passing (c i) ∧
          (check2Passing (c i)).card ≤ 2 * (d - 1) * Fintype.card Fr)) := by
  have hstep (prev next : CRS E) (proof : ContributionProof E)
      (h : verifyContribution prev next proof = .ok true) : ∃ len p q h, 3 ≤ len ∧
        prev.powersOfG.length = len ∧ prev.powersOfH.length = len ∧
        next.powersOfG.length = len ∧ next.powersOfH.length = len ∧
        check3 next = .ok true ∧ check2 next = .ok true ∧
        prev.powersOfG[1]? = some p ∧ next.powersOfG[1]? = some q ∧
        randomOracle p q proof.p1MulZ = .ok h ∧
        proof.zPlusHr • p = proof.p1MulZ + h • q := by
    obtain ⟨⟨len, hlen⟩, ⟨p, q, hp, hq, h1⟩, h2, h3⟩ := verifyContribution_ok_true.mp h
    obtain ⟨h3len, hpg, hph, hng, hnh⟩ := validateCrsTowerLengths_ok_iff.mp hlen
    simp only [check1, bind_ok_iff, Except.ok.injEq, decide_eq_true_eq] at h1
    obtain ⟨r, hr, heq⟩ := h1
    exact ⟨len, p, q, r, h3len, hpg, hph, hng, hnh, h3, h2, hp, hq, hr, heq⟩
  refine ⟨fun crs d hd hg hh h3 ↦ ⟨check2Equation_of_isPowersOfTau hd hg hh,
    card_check2Passing_le hd hg hh h3⟩, hstep, fun d k c proof h0 hver ↦ ?_⟩
  -- lengths are handed down the chain, starting from those of `init`
  have hlen : ∀ i ≤ k, (c i).powersOfG.length = d + 1 ∧ (c i).powersOfH.length = d + 1 := by
    intro i hi
    induction i with
    | zero => simp [h0, init]
    | succ i ih =>
      obtain ⟨len, _, _, _, -, hpg, hph, hng, hnh, -⟩ := hstep _ _ _ (hver i (by omega))
      have := ih (by omega)
      omega
  intro i hi hik
  obtain ⟨j, rfl⟩ : ∃ j, i = j + 1 := ⟨i - 1, by omega⟩
  obtain ⟨len, _, _, _, h3len, -, -, hng, -, h3, h2, -⟩ := hstep _ _ _ (hver j (by omega))
  obtain ⟨hg, hh⟩ := hlen (j + 1) hik
  refine ⟨hg, hh, or_iff_not_imp_left.mpr fun hbad ↦ ⟨?_, ?_⟩⟩
  · rw [mem_check2Passing, ← check2]
    exact h2
  · exact card_check2Passing_le (by omega) hg hh h3 hbad

section Run

def powersOfTau (E : Curve) (d : ℕ) (τ : Fr) : CRS E :=
  fromExponents E d (fun i ↦ τ ^ i) (fun i ↦ τ ^ i)

theorem powersOfTau_length (d : ℕ) (τ : Fr) : (powersOfTau E d τ).powersOfG.length = d + 1 ∧
    (powersOfTau E d τ).powersOfH.length = d + 1 := by
  simp [powersOfTau, fromExponents]

theorem init_eq_powersOfTau (d : ℕ) : init E d = powersOfTau E d 1 := by
  simp [init, powersOfTau, fromExponents]

theorem validateCrsTowerLengths_powersOfTau {d : ℕ} (hd : 2 ≤ d) (τ τ' : Fr) :
    validateCrsTowerLengths (powersOfTau E d τ) (powersOfTau E d τ') = .ok (d + 1) := by
  have h := powersOfTau_length (E := E) d τ
  have h' := powersOfTau_length (E := E) d τ'
  exact validateCrsTowerLengths_ok_iff.mpr ⟨by omega, h.1, h.2, h'.1, h'.2⟩

theorem powersOfTau_second {d : ℕ} (hd : 2 ≤ d) (τ : Fr) :
    (powersOfTau E d τ).powersOfG[1]? = some (τ • E.g) := by
  simp [powersOfTau, fromExponents, show 1 < d + 1 by omega]

theorem pruneCrs_powersOfTau {d d' : ℕ} (hd : 2 ≤ d) (h : d' ≤ d) (τ : Fr) :
    pruneCrs (powersOfTau E d τ) d' = .ok (powersOfTau E d' τ) := by
  unfold pruneCrs
  have hle : ¬ d' ≥ d + 1 := by omega
  simp only [validateCrsTowerLengths_powersOfTau hd, decide_eq_true hle, require_true, ok_bind]
  simp only [powersOfTau, fromExponents, slice_map_range (Nat.zero_le _)
    (show d' + 1 ≤ d + 1 by omega), ok_bind, Nat.sub_zero, ← List.range_eq_range']

def contributedScalar (E : Curve) (seed : Bytes) : Fr := (E.randFr (E.fromSeed seed)).1

/-- Contributing multiplies the secret, and its proof does not depend on the degree. -/
theorem contribute_powersOfTau (τ : Fr) (seed : Bytes) :
    ∃ proof, (∀ d, 2 ≤ d → contribute (powersOfTau E d τ) seed =
        .ok (powersOfTau E d (τ * contributedScalar E seed), proof)) ∧
      check1 (τ • E.g) ((τ * contributedScalar E seed) • E.g) proof = .ok true := by
  set r := contributedScalar E seed with hr
  have hproof : ∃ proof, schnorrNizk (τ • E.g) ((τ * r) • E.g) r (E.randFr (E.fromSeed seed)).2 =
      .ok proof ∧ check1 (τ • E.g) ((τ * r) • E.g) proof = .ok true := by
    refine ⟨_, rfl, ?_⟩
    simp only [check1, randomOracle, ok_bind]
    congr 1
    exact decide_eq_true (by module)
  obtain ⟨proof, hnizk, hcheck⟩ := hproof
  refine ⟨proof, fun d hd ↦ ?_, hcheck⟩
  have hnext {G : Type} [AddCommGroup G] [Module Fr G] (g : G) :
      List.zipWith (fun g s ↦ s • g) ((List.range (d + 1)).map fun i ↦ τ ^ i • g)
        ((List.range (d + 1)).map fun i ↦ r ^ i) =
      (List.range (d + 1)).map fun i ↦ (τ * r) ^ i • g := by
    rw [List.zipWith_map, List.zipWith_self]
    refine List.map_congr_left fun i _ ↦ ?_
    rw [smul_smul, mul_pow, mul_comm]
  have hG : List.zipWith (fun g s ↦ s • g) (powersOfTau E d τ).powersOfG
      ((List.range (d + 1)).map fun i ↦ r ^ i) = (powersOfTau E d (τ * r)).powersOfG := hnext E.g
  have hH : List.zipWith (fun h s ↦ s • h) (powersOfTau E d τ).powersOfH
      ((List.range (d + 1)).map fun i ↦ r ^ i) = (powersOfTau E d (τ * r)).powersOfH := hnext E.h
  unfold contribute
  simp only [validateCrsTowerLengths_powersOfTau hd, usizeSub_of_le (Nat.le_add_left 1 d), ok_bind,
    Nat.add_sub_cancel]
  rw [show (E.randFr (E.fromSeed seed)).1 = r from rfl, hG, hH,
    index_of_getElem? (powersOfTau_second hd τ), ok_bind,
    index_of_getElem? (powersOfTau_second hd (τ * r)), ok_bind, hnizk, ok_bind]

theorem verifyContribution_powersOfTau {d : ℕ} (hd : 2 ≤ d) {τ r : Fr} (h : τ * r ≠ 0)
    {proof : ContributionProof E} (hproof : check1 (τ • E.g) ((τ * r) • E.g) proof = .ok true) :
    verifyContribution (powersOfTau E d τ) (powersOfTau E d (τ * r)) proof = .ok true := by
  have hlen := powersOfTau_length (E := E) d (τ * r)
  have hpow : IsPowersOfTau (powersOfTau E d (τ * r)) :=
    ⟨τ * r, h, wellFormed_fromExponents_iff.mpr fun _ _ ↦ ⟨rfl, rfl⟩⟩
  refine verifyContribution_ok_true.mpr ⟨⟨_, validateCrsTowerLengths_powersOfTau hd _ _⟩,
    ⟨_, _, powersOfTau_second hd τ, powersOfTau_second hd (τ * r), hproof⟩,
    check2Equation_of_isPowersOfTau hd hlen.1 hlen.2 hpow _ _, ?_⟩
  rw [powersOfTau, check3_fromExponents_iff (by omega)]
  simpa using h

inductive Operation
  | contribute (seed : Bytes)
  | prune (newDegree : ℕ)

structure Contribution (E : Curve) where
  prev : CRS E
  next : CRS E
  proof : ContributionProof E

def runOperation (crs : CRS E) : Operation → Result (CRS E × List (Contribution E))
  | .contribute seed => do
    let (next, proof) ← contribute crs seed
    .ok (next, [⟨crs, next, proof⟩])
  | .prune newDegree => do
    let next ← pruneCrs crs newDegree
    .ok (next, [])

def run (crs : CRS E) : List Operation → Result (CRS E × List (Contribution E))
  | [] => .ok (crs, [])
  | op :: ops => do
    let (next, log) ← runOperation crs op
    let (last, rest) ← run next ops
    .ok (last, log ++ rest)

def degreeAfter (d : ℕ) : List Operation → ℕ
  | [] => d
  | .contribute _ :: ops => degreeAfter d ops
  | .prune d' :: ops => degreeAfter d' ops

def contributedScalars (E : Curve) : List Operation → List Fr
  | [] => []
  | .contribute seed :: ops => contributedScalar E seed :: contributedScalars E ops
  | .prune _ :: ops => contributedScalars E ops

/-- Operations that may follow a string of degree `d`: contributions of nonzero scalars, and
prunings to a degree between two and the current one. -/
def Admissible (E : Curve) (d : ℕ) : List Operation → Prop
  | [] => True
  | .contribute seed :: ops => contributedScalar E seed ≠ 0 ∧ Admissible E d ops
  | .prune d' :: ops => 2 ≤ d' ∧ d' ≤ d ∧ Admissible E d' ops

theorem Admissible.two_le_degreeAfter {d : ℕ} (hd : 2 ≤ d) {ops : List Operation}
    (h : Admissible E d ops) : 2 ≤ degreeAfter d ops := by
  induction ops generalizing d with
  | nil => exact hd
  | cons op ops ih =>
    cases op with
    | contribute seed => exact ih hd h.2
    | prune d' => exact ih h.1 h.2.2

/-- The strings of a run are those of the product of the scalars contributed so far. -/
theorem run_powersOfTau {d : ℕ} (hd : 2 ≤ d) {τ : Fr} (hτ : τ ≠ 0) {ops : List Operation}
    (h : Admissible E d ops) :
    ∃ log, run (powersOfTau E d τ) ops =
        .ok (powersOfTau E (degreeAfter d ops) (τ * (contributedScalars E ops).prod), log) ∧
      log.length = (contributedScalars E ops).length ∧
      ∀ c ∈ log, verifyContribution c.prev c.next c.proof = .ok true := by
  induction ops generalizing d τ with
  | nil => exact ⟨[], by simp [run, degreeAfter, contributedScalars]⟩
  | cons op ops ih =>
    cases op with
    | contribute seed =>
      obtain ⟨hr, hops⟩ := h
      obtain ⟨proof, hcontribute, hcheck⟩ := contribute_powersOfTau (E := E) τ seed
      obtain ⟨log, hrun, hlen, hlog⟩ := ih hd (mul_ne_zero hτ hr) hops
      refine ⟨⟨powersOfTau E d τ, powersOfTau E d (τ * contributedScalar E seed), proof⟩ :: log,
        ?_, ?_, List.forall_mem_cons.mpr
        ⟨verifyContribution_powersOfTau hd (mul_ne_zero hτ hr) hcheck, hlog⟩⟩
      · simp only [run, runOperation, hcontribute d hd, hrun, ok_bind, degreeAfter,
          contributedScalars, List.prod_cons, mul_assoc, List.singleton_append]
      · simp [contributedScalars, hlen]
    | prune d' =>
      obtain ⟨hd', hle, hops⟩ := h
      obtain ⟨log, hrun, hlen, hlog⟩ := ih hd' hτ hops
      refine ⟨log, ?_, hlen, hlog⟩
      simp only [run, runOperation, pruneCrs_powersOfTau hd hle, hrun, ok_bind, degreeAfter,
        contributedScalars, List.nil_append]

theorem run_init_invariant {d : ℕ} (hd : 2 ≤ d) {ops : List Operation} (h : Admissible E d ops) :
    ∃ crs log, run (init E d) ops = .ok (crs, log) ∧
      crs.powersOfG = (List.range (degreeAfter d ops + 1)).map (fun j ↦
        (contributedScalars E ops).prod ^ j • E.g) ∧
      crs.powersOfH = (List.range (degreeAfter d ops + 1)).map (fun j ↦
        (contributedScalars E ops).prod ^ j • E.h) ∧
      log.length = (contributedScalars E ops).length ∧
      (∀ c ∈ log, verifyContribution c.prev c.next c.proof = .ok true) ∧
      ∀ seed d', 2 ≤ d' → d' ≤ degreeAfter d ops → ∃ next proof pruned nextPruned,
        contribute crs seed = .ok (next, proof) ∧ pruneCrs next d' = .ok nextPruned ∧
        pruneCrs crs d' = .ok pruned ∧ contribute pruned seed = .ok (nextPruned, proof) := by
  obtain ⟨log, hrun, hlen, hlog⟩ := run_powersOfTau hd one_ne_zero h
  rw [← init_eq_powersOfTau, one_mul] at hrun
  have hdegree := h.two_le_degreeAfter hd
  refine ⟨_, log, hrun, rfl, rfl, hlen, hlog, fun seed d' hd' hle ↦ ?_⟩
  obtain ⟨proof, hcontribute, -⟩ := contribute_powersOfTau (E := E)
    (contributedScalars E ops).prod seed
  exact ⟨_, proof, _, _, hcontribute _ hdegree, pruneCrs_powersOfTau hdegree hle _,
    pruneCrs_powersOfTau hdegree hle _, hcontribute d' hd'⟩

theorem run_init_invariant_contribute_prune :
    ∃ (crs : CRS scalarCurve) (log : List (Contribution scalarCurve)),
      run (init scalarCurve 3) [.contribute [0], .prune 2, .contribute [1]] = .ok (crs, log) ∧
      log.length = 2 ∧ ∀ c ∈ log, verifyContribution c.prev c.next c.proof = .ok true := by
  have hadm : Admissible scalarCurve 3 [.contribute [0], .prune 2, .contribute [1]] :=
    ⟨one_ne_zero, by decide, by decide, one_ne_zero, trivial⟩
  obtain ⟨crs, log, hrun, -, -, hlen, hlog, -⟩ := run_init_invariant (by decide) hadm
  exact ⟨crs, log, hrun, hlen, hlog⟩

theorem ceremony_sound_two_steps :
    ∃ (crs : ℕ → CRS scalarCurve) (proof : ℕ → ContributionProof scalarCurve),
      crs 0 = init scalarCurve 2 ∧
      (∀ i < 2, verifyContribution (crs i) (crs (i + 1)) (proof i) = .ok true) ∧
      (crs 2).powersOfG.length = 3 ∧ (IsPowersOfTau (crs 2) ∨
        check2Oracle (crs 2) ∈ check2Passing (crs 2) ∧
          (check2Passing (crs 2)).card ≤ 2 * (2 - 1) * Fintype.card Fr) := by
  have hscalar : contributedScalar scalarCurve [] ≠ 0 := one_ne_zero
  let crs (i : ℕ) := powersOfTau scalarCurve 2 (contributedScalar scalarCurve [] ^ i)
  have hstep (i : ℕ) : ∃ proof, verifyContribution (crs i) (crs (i + 1)) proof = .ok true := by
    obtain ⟨proof, -, hcheck⟩ := contribute_powersOfTau (E := scalarCurve)
      (contributedScalar scalarCurve [] ^ i) []
    have hver := verifyContribution_powersOfTau (E := scalarCurve) le_rfl
      (mul_ne_zero (pow_ne_zero i hscalar) hscalar) hcheck
    rw [← pow_succ] at hver
    exact ⟨proof, hver⟩
  choose proof hver using hstep
  have hinit : crs 0 = init scalarCurve 2 := by
    rw [init_eq_powersOfTau]
    exact congrArg (powersOfTau scalarCurve 2) (pow_zero _)
  obtain ⟨-, -, hchain⟩ := ceremony_sound scalarCurve
  obtain ⟨hlen, -, hgood⟩ := hchain 2 2 crs proof hinit (fun i _ ↦ hver i) 2 one_le_two le_rfl
  exact ⟨crs, proof, hinit, fun i _ ↦ hver i, hlen, hgood⟩

end Run

end HieroCryptography.Hints
