import Mathlib

namespace HieroCryptography.Foundation

open Polynomial Finset

variable {F : Type} [Field F]

/-- A multiplicative subgroup of a field, given by its size and a generator. -/
structure Domain (F : Type) [Field F] where
  size : ℕ
  groupGen : F
  size_pos : 0 < size
  primitive : IsPrimitiveRoot groupGen size

namespace Domain

variable (D : Domain F)

def node (i : ℕ) : F := D.groupGen ^ i

theorem node_pow_size (i : ℕ) : D.node i ^ D.size = 1 := by
  rw [node, ← pow_mul, mul_comm, pow_mul, D.primitive.pow_eq_one, one_pow]

theorem groupGen_ne_zero : D.groupGen ≠ 0 := D.primitive.ne_zero D.size_pos.ne'

theorem node_ne_zero (i : ℕ) : D.node i ≠ 0 := pow_ne_zero i D.groupGen_ne_zero

theorem node_injOn : Set.InjOn D.node (range D.size) := by
  intro i hi j hj h
  exact D.primitive.pow_inj (mem_range.mp hi) (mem_range.mp hj) h

theorem size_ne_zero : (D.size : F) ≠ 0 := by
  have : NeZero D.size := ⟨D.size_pos.ne'⟩
  exact (D.primitive.neZero').out

theorem node_div_groupGen (i : ℕ) : D.node (i + 1) / D.groupGen = D.node i := by
  rw [node, node, pow_succ, mul_div_assoc, div_self D.groupGen_ne_zero, mul_one]

theorem node_zero_div_groupGen : D.node 0 / D.groupGen = D.node (D.size - 1) := by
  rw [div_eq_iff D.groupGen_ne_zero, node, node, ← pow_succ, Nat.sub_add_cancel D.size_pos,
    D.primitive.pow_eq_one, pow_zero]

noncomputable def vanishing : F[X] := X ^ D.size - 1

theorem eval_vanishing (r : F) : D.vanishing.eval r = r ^ D.size - 1 := by simp [vanishing]

theorem eval_vanishing_node (i : ℕ) : D.vanishing.eval (D.node i) = 0 := by
  rw [eval_vanishing, node_pow_size, sub_self]

theorem vanishing_monic : D.vanishing.Monic := by
  simpa [vanishing] using monic_X_pow_sub_C (1 : F) D.size_pos.ne'

theorem vanishing_natDegree : D.vanishing.natDegree = D.size := by
  simpa [vanishing] using natDegree_X_pow_sub_C (R := F) (n := D.size) (r := 1)

theorem vanishing_eq_prod : D.vanishing = ∏ i ∈ range D.size, (X - C (D.node i)) := by
  have hdeg : (∏ i ∈ range D.size, (X - C (D.node i))).natDegree = D.size := by
    rw [natDegree_prod_of_monic _ _ (fun i _ ↦ monic_X_sub_C _)]
    simp
  have hsub : (D.vanishing - ∏ i ∈ range D.size, (X - C (D.node i))).degree <
      (range D.size).card := by
    rw [card_range]
    refine lt_of_lt_of_le (degree_sub_lt_left ?_ D.vanishing_monic.ne_zero ?_) ?_
    · rw [degree_eq_natDegree D.vanishing_monic.ne_zero, D.vanishing_natDegree,
        degree_eq_natDegree (monic_prod_of_monic _ _ fun i _ ↦ monic_X_sub_C _).ne_zero, hdeg]
    · rw [D.vanishing_monic.leadingCoeff,
        (monic_prod_of_monic _ _ fun i _ ↦ monic_X_sub_C _).leadingCoeff]
    · rw [degree_eq_natDegree D.vanishing_monic.ne_zero, D.vanishing_natDegree]
  refine eq_of_degree_sub_lt_of_eval_index_eq _ D.node_injOn hsub fun i hi ↦ ?_
  rw [eval_vanishing_node, eval_prod]
  exact (prod_eq_zero hi (by simp)).symm

theorem vanishing_dvd_iff (P : F[X]) :
    D.vanishing ∣ P ↔ ∀ i < D.size, P.eval (D.node i) = 0 := by
  constructor
  · rintro ⟨Q, rfl⟩ i _
    rw [eval_mul, eval_vanishing_node, zero_mul]
  · intro h
    rw [vanishing_eq_prod]
    apply prod_dvd_of_coprime
    · intro i hi j hj hij
      refine isCoprime_X_sub_C_of_isUnit_sub (sub_ne_zero.mpr fun he ↦ hij ?_).isUnit
      exact D.node_injOn hi hj he
    · intro i hi
      exact dvd_iff_isRoot.mpr (h i (mem_range.mp hi))

theorem eq_of_eval_node {P Q : F[X]} (hP : P.degree < D.size) (hQ : Q.degree < D.size)
    (h : ∀ i < D.size, P.eval (D.node i) = Q.eval (D.node i)) : P = Q :=
  eq_of_degrees_lt_of_eval_index_eq (range D.size) D.node_injOn (by simpa using hP)
    (by simpa using hQ) (fun i hi ↦ h i (mem_range.mp hi))

noncomputable def basis (i : ℕ) : F[X] :=
  C (D.node i / D.size) * (D.vanishing /ₘ (X - C (D.node i)))

theorem sub_mul_basis (i : ℕ) :
    (X - C (D.node i)) * D.basis i = C (D.node i / D.size) * D.vanishing := by
  have h := mul_divByMonic_eq_iff_isRoot.mpr (D.eval_vanishing_node i)
  rw [basis, mul_left_comm, h]

theorem basis_natDegree (i : ℕ) : (D.basis i).natDegree = D.size - 1 := by
  rw [basis, natDegree_C_mul (div_ne_zero (D.node_ne_zero i) D.size_ne_zero),
    natDegree_divByMonic _ (monic_X_sub_C _), vanishing_natDegree, natDegree_X_sub_C]

theorem basis_degree_lt (i : ℕ) : (D.basis i).degree < D.size := by
  refine degree_le_natDegree.trans_lt ?_
  rw [basis_natDegree]
  exact_mod_cast Nat.sub_lt D.size_pos one_pos

theorem eval_basis_self (i : ℕ) : (D.basis i).eval (D.node i) = 1 := by
  -- differentiating `sub_mul_basis` turns the removable singularity into a value
  have h := congrArg (fun P ↦ (derivative P).eval (D.node i)) (D.sub_mul_basis i)
  simp only [derivative_mul, derivative_sub, derivative_X, derivative_C, eval_add, eval_mul,
    eval_sub, eval_X, eval_C, sub_self, zero_mul, sub_zero, one_mul, add_zero, zero_add, vanishing,
    derivative_X_pow, derivative_one, eval_pow] at h
  rw [h, mul_comm (D.size : F), ← mul_assoc, div_mul_eq_mul_div, ← pow_succ',
    Nat.sub_add_cancel D.size_pos, node_pow_size, div_mul_cancel₀ _ D.size_ne_zero]

theorem eval_basis_of_ne {i j : ℕ} (hi : i < D.size) (hj : j < D.size) (hij : i ≠ j) :
    (D.basis i).eval (D.node j) = 0 := by
  have h := congrArg (eval (D.node j)) (D.sub_mul_basis i)
  simp only [eval_mul, eval_sub, eval_X, eval_C, eval_vanishing_node, mul_zero] at h
  refine (mul_eq_zero.mp h).resolve_left (sub_ne_zero.mpr fun he ↦ hij ?_)
  exact D.node_injOn (mem_coe.mpr (mem_range.mpr hi)) (mem_coe.mpr (mem_range.mpr hj)) he.symm

theorem eval_basis {i j : ℕ} (hi : i < D.size) (hj : j < D.size) :
    (D.basis i).eval (D.node j) = if i = j then 1 else 0 := by
  split
  · subst j; exact D.eval_basis_self i
  · exact D.eval_basis_of_ne hi hj ‹_›

theorem eval_zero_basis (i : ℕ) : (D.basis i).eval 0 = 1 / D.size := by
  have h := congrArg (eval 0) (D.sub_mul_basis i)
  simp only [eval_mul, eval_sub, eval_X, eval_C, eval_vanishing, zero_sub,
    zero_pow D.size_pos.ne'] at h
  have hn := D.node_ne_zero i
  rw [← mul_right_inj' (neg_ne_zero.mpr hn), h]
  ring

/-- Off the domain the Lagrange polynomials have the closed form that needs no
polynomial arithmetic. -/
theorem eval_basis_of_pow_ne {r : F} (hr : r ^ D.size ≠ 1) (i : ℕ) :
    (D.basis i).eval r = D.node i / D.size * ((r ^ D.size - 1) / (r - D.node i)) := by
  have h := congrArg (eval r) (D.sub_mul_basis i)
  simp only [eval_mul, eval_sub, eval_X, eval_C, eval_vanishing] at h
  have hne : r - D.node i ≠ 0 := by
    intro he
    rw [sub_eq_zero.mp he] at hr
    exact hr (D.node_pow_size i)
  rw [← mul_div_assoc, ← h, mul_div_cancel_left₀ _ hne]

noncomputable def interpolant (e : ℕ → F) : F[X] := ∑ i ∈ range D.size, C (e i) * D.basis i

theorem eval_interpolant (e : ℕ → F) {j : ℕ} (hj : j < D.size) :
    (D.interpolant e).eval (D.node j) = e j := by
  rw [interpolant, eval_finsetSum, sum_eq_single_of_mem j (mem_range.mpr hj)]
  · rw [eval_mul, eval_C, eval_basis_self, mul_one]
  · intro i hi hij
    rw [eval_mul, D.eval_basis_of_ne (mem_range.mp hi) hj hij, mul_zero]

theorem interpolant_degree_lt (e : ℕ → F) : (D.interpolant e).degree < D.size := by
  refine (degree_sum_le _ _).trans_lt ?_
  rw [Finset.sup_lt_iff (WithBot.bot_lt_coe _)]
  intro i _
  refine (degree_mul_le _ _).trans_lt (lt_of_le_of_lt ?_ (D.basis_degree_lt i))
  exact (add_le_add_left degree_C_le _).trans (zero_add _).le

theorem interpolant_natDegree_lt (e : ℕ → F) : (D.interpolant e).natDegree < D.size := by
  by_cases h : D.interpolant e = 0
  · rw [h, natDegree_zero]; exact D.size_pos
  · exact (natDegree_lt_iff_degree_lt h).mpr (D.interpolant_degree_lt e)

theorem eq_interpolant {P : F[X]} {e : ℕ → F} (hP : P.degree < D.size)
    (h : ∀ i < D.size, P.eval (D.node i) = e i) : P = D.interpolant e :=
  D.eq_of_eval_node hP (D.interpolant_degree_lt e) fun i hi ↦ by
    rw [h i hi, D.eval_interpolant e hi]

/-- What the vanishing polynomial divides out of a product of two Lagrange
polynomials, which agree with one of them, or with zero, on the domain. -/
noncomputable def cross (i j : ℕ) : F[X] :=
  (D.basis i * D.basis j - if i = j then D.basis i else 0) / D.vanishing

theorem vanishing_mul_cross {i j : ℕ} (hi : i < D.size) (hj : j < D.size) :
    D.vanishing * D.cross i j = D.basis i * D.basis j - if i = j then D.basis i else 0 := by
  refine EuclideanDomain.mul_div_cancel' D.vanishing_monic.ne_zero
    ((D.vanishing_dvd_iff _).mpr fun k hk ↦ ?_)
  by_cases hij : i = j
  · subst j
    rw [if_pos rfl, eval_sub, eval_mul, D.eval_basis hi hk]
    split <;> simp
  · rw [if_neg hij, sub_zero, eval_mul, D.eval_basis hi hk, D.eval_basis hj hk]
    split
    · rw [if_neg (fun h ↦ hij (by omega)), mul_zero]
    · rw [zero_mul]

theorem cross_natDegree_lt (i j : ℕ) : (D.cross i j).natDegree < D.size := by
  have hnum : (D.basis i * D.basis j - if i = j then D.basis i else 0).natDegree ≤
      (D.size - 1) + (D.size - 1) := by
    refine (natDegree_sub_le _ _).trans (max_le ?_ ?_)
    · exact natDegree_mul_le.trans (by rw [basis_natDegree, basis_natDegree])
    · split
      · rw [basis_natDegree]; omega
      · rw [natDegree_zero]; omega
  have hpos := D.size_pos
  rw [cross, ← divByMonic_eq_div _ D.vanishing_monic, natDegree_divByMonic _ D.vanishing_monic,
    vanishing_natDegree]
  omega

theorem cross_comm {i j : ℕ} : D.cross i j = D.cross j i := by
  by_cases hij : i = j
  · rw [hij]
  · rw [cross, cross, if_neg hij, if_neg (Ne.symm hij), mul_comm]

theorem interpolant_mul (b s : ℕ → F) :
    D.interpolant b * D.interpolant s = D.interpolant (fun i ↦ b i * s i) +
      (∑ i ∈ range D.size, ∑ j ∈ range D.size, C (b i * s j) * D.cross i j) * D.vanishing := by
  have hterm : ∀ i ∈ range D.size, ∀ j ∈ range D.size,
      C (b i) * D.basis i * (C (s j) * D.basis j) =
        (if i = j then C (b i * s j) * D.basis i else 0) +
          C (b i * s j) * D.cross i j * D.vanishing := by
    intro i hi j hj
    have h := D.vanishing_mul_cross (mem_range.mp hi) (mem_range.mp hj)
    rw [mul_assoc _ (D.cross i j), mul_comm (D.cross i j), h, C_mul]
    split <;> ring
  simp only [interpolant]
  rw [sum_mul_sum, sum_mul, ← sum_add_distrib]
  refine sum_congr rfl fun i hi ↦ ?_
  rw [sum_congr rfl (hterm i hi), sum_add_distrib, sum_mul, sum_ite_eq, if_pos hi]

theorem interpolant_eq_mean_add (e : ℕ → F) :
    D.interpolant e = C ((∑ i ∈ range D.size, e i) / D.size) +
      (∑ i ∈ range D.size, C (e i) * (D.basis i).divX) * X := by
  have hbasis (i : ℕ) : D.basis i = (D.basis i).divX * X + C (1 / (D.size : F)) := by
    have h := (divX_mul_X_add (D.basis i)).symm
    rwa [coeff_zero_eq_eval_zero, eval_zero_basis] at h
  have hterm (i : ℕ) : C (e i) * D.basis i = C (e i / D.size) + C (e i) * (D.basis i).divX * X := by
    conv_lhs => rw [hbasis i]
    rw [div_eq_mul_one_div (e i), C_mul]
    ring
  rw [interpolant, sum_div, map_sum, sum_mul, ← sum_add_distrib]
  exact sum_congr rfl fun i _ ↦ hterm i

theorem sum_node_pow {k : ℕ} (hk : k < D.size) :
    ∑ i ∈ range D.size, D.node i ^ k = if k = 0 then (D.size : F) else 0 := by
  split
  · subst k; simp
  · have hne : D.groupGen ^ k ≠ 1 := D.primitive.pow_ne_one_of_pos_of_lt ‹_› hk
    have hs : ∑ i ∈ range D.size, D.node i ^ k = ∑ i ∈ range D.size, (D.groupGen ^ k) ^ i :=
      sum_congr rfl fun i _ ↦ by rw [node, ← pow_mul, ← pow_mul, mul_comm]
    rw [hs, geom_sum_eq hne, ← pow_mul, mul_comm k, pow_mul, D.primitive.pow_eq_one, one_pow,
      sub_self, zero_div]

theorem sum_div_groupGen (f : F → F) :
    ∑ i ∈ range D.size, f (D.node i / D.groupGen) = ∑ i ∈ range D.size, f (D.node i) := by
  obtain ⟨m, hm⟩ : ∃ m, D.size = m + 1 := ⟨D.size - 1, (Nat.sub_add_cancel D.size_pos).symm⟩
  have hlast : D.node 0 / D.groupGen = D.node m := by
    rw [D.node_zero_div_groupGen, hm, Nat.add_sub_cancel]
  rw [hm, sum_range_succ', sum_range_succ, hlast]
  simp only [node_div_groupGen]

theorem sum_eval_of_natDegree_lt {P : F[X]} (hP : P.natDegree < D.size) :
    ∑ i ∈ range D.size, P.eval (D.node i) = D.size * P.coeff 0 := by
  calc
    _ = ∑ i ∈ range D.size, ∑ k ∈ range D.size, P.coeff k * D.node i ^ k :=
      sum_congr rfl fun i _ ↦ eval_eq_sum_range' hP _
    _ = ∑ k ∈ range D.size, P.coeff k * ∑ i ∈ range D.size, D.node i ^ k := by
      rw [sum_comm]
      exact sum_congr rfl fun k _ ↦ (mul_sum _ _ _).symm
    _ = P.coeff 0 * D.size := by
      rw [sum_eq_single_of_mem 0 (mem_range.mpr D.size_pos)]
      · rw [D.sum_node_pow D.size_pos, if_pos rfl]
      · intro k hk h0
        rw [D.sum_node_pow (mem_range.mp hk), if_neg h0, mul_zero]
    _ = _ := mul_comm _ _

/-- The univariate sumcheck: a decomposition with a low-degree last quotient
determines the sum over the domain. -/
theorem sum_eval_of_decomposition {P Qz Qx : F[X]} {a : F}
    (h : P = C a + Qz * D.vanishing + Qx * X) (hQx : Qx.natDegree + 1 < D.size) :
    ∑ i ∈ range D.size, P.eval (D.node i) = D.size * a := by
  have hX : (Qx * X).natDegree < D.size :=
    (natDegree_mul_le.trans (Nat.add_le_add_left natDegree_X_le _)).trans_lt hQx
  have hsum := D.sum_eval_of_natDegree_lt hX
  rw [mul_coeff_zero, coeff_X_zero, mul_zero, mul_zero] at hsum
  have hz (i : ℕ) : (Qz * D.vanishing).eval (D.node i) = 0 := by
    rw [eval_mul, eval_vanishing_node, mul_zero]
  simp only [h, eval_add, eval_C, hz, add_zero, sum_add_distrib, hsum, sum_const, card_range,
    nsmul_eq_mul]

end Domain

end HieroCryptography.Foundation
