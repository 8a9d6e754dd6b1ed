import HieroCryptography.Hints.Curve
import HieroCryptography.Hints.Utils

namespace HieroCryptography.Hints.Kzg

open Polynomial Foundation Rust DensePolynomial

variable {E : Curve}

structure UniversalParams (E : Curve) where
  powersOfG : List E.G1
  powersOfH : List E.G2

section Commit

variable {G : Type} [AddCommGroup G] [Module Fr G]

/-- A multi-scalar multiplication, over the shorter of the two lists. -/
def msm (bases : List G) (scalars : List Fr) : G :=
  (List.zipWith (fun b s ↦ s • b) bases scalars).sum

def commit (powers : List G) (polynomial : DensePolynomial Fr) : Result G := do
  let d ← polynomial.degree
  require (d < powers.length) (.insufficientCRS d)
  let bases ← slice powers 0 (d + 1)
  .ok (msm bases polynomial.coeffs)

def IsTower (τ : Fr) (g : G) (powers : List G) : Prop :=
  ∀ j x, powers[j]? = some x → x = τ ^ j • g

theorem msm_shifted {τ : Fr} {g : G} (k : ℕ) (bases : List G) (cs : List Fr)
    (h : ∀ j x, bases[j]? = some x → x = τ ^ (k + j) • g) :
    msm bases cs = (τ ^ k * (coeffsPoly (cs.take bases.length)).eval τ) • g := by
  induction bases generalizing k cs with
  | nil => simp [msm]
  | cons b bases ih =>
    cases cs with
    | nil => simp [msm]
    | cons c cs =>
      have hb : b = τ ^ k • g := by simpa using h 0 b rfl
      have htail := ih (k + 1) cs fun j x hx ↦ by
        have := h (j + 1) x (by simpa using hx)
        rwa [Nat.add_comm j, ← Nat.add_assoc] at this
      simp only [msm, List.zipWith_cons_cons, List.sum_cons] at htail ⊢
      rw [htail, hb, smul_smul, ← add_smul]
      simp only [List.length_cons, List.take_succ_cons, coeffsPoly_cons, eval_add, eval_C, eval_mul,
        eval_X, pow_succ]
      congr 1
      ring

theorem msm_tower {τ : Fr} {g : G} {bases : List G} (h : IsTower τ g bases) (cs : List Fr) :
    msm bases cs = (coeffsPoly (cs.take bases.length)).eval τ • g := by
  simpa using msm_shifted 0 bases cs fun j x hx ↦ by simpa using h j x hx

theorem isTower_map_range (τ : Fr) (g : G) (len : ℕ) :
    IsTower τ g ((List.range len).map fun j ↦ τ ^ j • g) := by
  intro j x hx
  obtain ⟨i, hi, rfl⟩ := List.getElem?_eq_some_iff.mp hx
  simp

theorem IsTower.take {τ : Fr} {g : G} {powers : List G} (h : IsTower τ g powers) (m : ℕ) :
    IsTower τ g (powers.take m) := by
  intro j x hx
  rw [List.getElem?_take] at hx
  split at hx
  · exact h j x hx
  · cases hx

theorem IsTower.head {τ : Fr} {g : G} {powers : List G} (h : IsTower τ g powers)
    (hlen : 0 < powers.length) : powers[0]? = some g := by
  rw [List.getElem?_eq_getElem hlen]
  simpa using h 0 _ (List.getElem?_eq_getElem hlen)

theorem IsTower.second {τ : Fr} {g : G} {powers : List G} (h : IsTower τ g powers)
    (hlen : 1 < powers.length) : powers[1]? = some (τ • g) := by
  rw [List.getElem?_eq_getElem hlen]
  simpa using h 1 _ (List.getElem?_eq_getElem hlen)

theorem commit_ok {τ : Fr} {g : G} {powers : List G} (h : IsTower τ g powers)
    {p : DensePolynomial Fr} {P : Fr[X]} (hp : p.Denotes P) (hdeg : P.natDegree < powers.length) :
    commit powers p = .ok (P.eval τ • g) := by
  unfold commit
  rw [hp.degree, ok_bind, decide_eq_true hdeg, require_true, ok_bind,
    slice_of_le (Nat.zero_le _) hdeg, ok_bind, List.drop_zero, msm_tower (h.take _)]
  congr 3
  rw [List.length_take, Nat.min_eq_left hdeg]
  by_cases h0 : P = 0
  · have hz : coeffsPoly p.coeffs = 0 := by rw [← toPoly, hp.2, h0]
    rw [h0, coeffsPoly_eq_zero_iff]
    intro x hx
    exact (coeffsPoly_eq_zero_iff _).mp hz x (List.mem_of_mem_take hx)
  · rw [List.take_of_length_le (hp.length h0).le, ← toPoly, hp.2]

/-- Whatever the tower holds, only its length can make a commitment fail. -/
theorem commit_outcome (powers : List G) {p : DensePolynomial Fr} {P : Fr[X]}
    (hp : p.Denotes P) :
    (commit powers p = fail (.insufficientCRS P.natDegree) ↔ powers.length ≤ P.natDegree) ∧
      ((∃ com, commit powers p = .ok com) ↔ P.natDegree < powers.length) := by
  unfold commit
  rw [hp.degree, ok_bind]
  by_cases hdeg : P.natDegree < powers.length
  · rw [decide_eq_true hdeg, require_true, ok_bind, slice_of_le (Nat.zero_le _) hdeg, ok_bind]
    exact ⟨iff_of_false nofun hdeg.not_ge, iff_of_true ⟨_, rfl⟩ hdeg⟩
  · rw [decide_eq_false hdeg, require_false]
    exact ⟨iff_of_true rfl (not_lt.mp hdeg), iff_of_false (fun ⟨_, h⟩ ↦ nomatch h) hdeg⟩

end Commit

def commitG1 (params : UniversalParams E) (polynomial : DensePolynomial Fr) : Result E.G1 :=
  commit params.powersOfG polynomial

def commitG2 (params : UniversalParams E) (polynomial : DensePolynomial Fr) : Result E.G2 :=
  commit params.powersOfH polynomial

def computeOpeningProof (params : UniversalParams E) (polynomial : DensePolynomial Fr)
    (point : Fr) : Result E.G1 := do
  let eval := polynomial.evaluate point
  let evalAsPoly := truncate ⟨[eval]⟩
  let numerator ← polynomial.sub evalAsPoly
  let divisor := truncate ⟨[0 - point, 1]⟩
  let witnessPolynomial ← numerator.div divisor
  commitG1 params witnessPolynomial

structure WellFormed (crs : UniversalParams E) (τ : Fr) : Prop where
  g : IsTower τ E.g crs.powersOfG
  h : IsTower τ E.h crs.powersOfH

/-- An opening proof commits to the exact quotient `(f - f(z)) / (X - z)`. -/
theorem computeOpeningProof_eq (crs : UniversalParams E) {p : DensePolynomial Fr} {P : Fr[X]}
    (hp : p.Denotes P) (z : Fr) :
    ∃ (q : DensePolynomial Fr) (Q : Fr[X]), (X - C z) * Q = P - C (P.eval z) ∧ q.Denotes Q ∧
      computeOpeningProof crs p z = commitG1 crs q := by
  have heval : (truncate ⟨[p.evaluate z]⟩ : DensePolynomial Fr).Denotes (C (P.eval z)) := by
    rw [evaluate_eq, hp.2]
    have h := denotes_truncate (⟨[P.eval z]⟩ : DensePolynomial Fr)
    rwa [toPoly, coeffsPoly_cons, coeffsPoly_nil, mul_zero, add_zero] at h
  have hdiv : (truncate ⟨[0 - z, 1]⟩ : DensePolynomial Fr).Denotes (X - C z) := by
    have h := denotes_truncate (⟨[0 - z, 1]⟩ : DensePolynomial Fr)
    rwa [(Utils.denotes_linear z).2] at h
  obtain ⟨num, hnum, hnumd⟩ := hp.sub (ε := HinTSError) heval
  have hroot : (P - C (P.eval z)).IsRoot z := by simp
  obtain ⟨Q, hQ⟩ := dvd_iff_isRoot.mpr hroot
  rw [hQ] at hnumd
  obtain ⟨q, hq, hqd⟩ := hnumd.div_exact (ε := HinTSError) hdiv (X_sub_C_ne_zero z)
  refine ⟨q, Q, hQ.symm, hqd, ?_⟩
  unfold computeOpeningProof
  simp only [hnum, ok_bind, hq]

theorem natDegree_quotient_le {P Q : Fr[X]} {z : Fr} (h : (X - C z) * Q = P - C (P.eval z)) :
    Q.natDegree ≤ P.natDegree := by
  by_cases h0 : Q = 0
  · simp [h0]
  · have hdeg := congrArg Polynomial.natDegree h
    rw [natDegree_mul (X_sub_C_ne_zero z) h0, natDegree_X_sub_C, natDegree_sub_C] at hdeg
    omega

theorem computeOpeningProof_ok {crs : UniversalParams E} {τ : Fr} (hcrs : WellFormed crs τ)
    {p : DensePolynomial Fr} {P : Fr[X]} (hp : p.Denotes P)
    (hdeg : P.natDegree < crs.powersOfG.length) (z : Fr) :
    ∃ Q : Fr[X], (X - C z) * Q = P - C (P.eval z) ∧
      computeOpeningProof crs p z = .ok (Q.eval τ • E.g) := by
  obtain ⟨q, Q, hQ, hqd, hproof⟩ := computeOpeningProof_eq crs hp z
  refine ⟨Q, hQ, ?_⟩
  rw [hproof, commitG1, commit_ok hcrs.g hqd ((natDegree_quotient_le hQ).trans_lt hdeg)]

end HieroCryptography.Hints.Kzg
