import Mathlib

namespace HieroCryptography.Foundation

open Polynomial Finset

variable {F : Type} [Field F] [Fintype F] [DecidableEq F]

theorem card_eval_eq_zero_le {P : F[X]} (hP : P ≠ 0) {d : ℕ} (hd : P.natDegree ≤ d) :
    #{x : F | P.eval x = 0} ≤ d := by
  have hsub : univ.filter (fun x : F ↦ P.eval x = 0) ⊆ P.roots.toFinset := fun x hx ↦
    Multiset.mem_toFinset.mpr ((mem_roots hP).mpr (mem_filter.mp hx).2)
  calc
    _ ≤ #P.roots.toFinset := card_le_card hsub
    _ ≤ P.roots.card := Multiset.toFinset_card_le _
    _ ≤ d := (card_roots' P).trans hd

omit [Field F] [Fintype F] [DecidableEq F] in
theorem ncard_le_of_forall_mem {p : F → Prop} {s : Finset F} {m : ℕ} (h : ∀ x, p x → x ∈ s)
    (hs : #s ≤ m) : {x | p x}.ncard ≤ m := by
  have hsub : {x | p x} ⊆ (s : Set F) := h
  calc
    _ ≤ (s : Set F).ncard := Set.ncard_le_ncard hsub s.finite_toSet
    _ = #s := Set.ncard_coe_finset s
    _ ≤ m := hs

theorem card_evalEval_eq_zero_le {P : F[X][X]} (hP : P ≠ 0) {k m : ℕ} (hm : P.natDegree ≤ m)
    (hk : ∀ j, (P.coeff j).natDegree ≤ k) :
    #{z : F × F | P.evalEval z.1 z.2 = 0} ≤ (k + m) * Fintype.card F := by
  obtain ⟨j, hj⟩ : ∃ j, P.coeff j ≠ 0 := by
    by_contra h
    push Not at h
    exact hP (Polynomial.ext fun j ↦ by rw [h j, coeff_zero])
  -- for `x` off the roots of that coefficient, `P(x, Y)` is a nonzero polynomial
  have hfiber (x : F) : #{y : F | P.evalEval x y = 0} ≤
      (if (P.coeff j).eval x = 0 then Fintype.card F else 0) + m := by
    split
    · exact (card_le_univ _).trans (Nat.le_add_right _ _)
    · rename_i hx
      have hmap : P.map (evalRingHom x) ≠ 0 := fun h0 ↦ hx (by
        have := congrArg (fun Q ↦ Q.coeff j) h0
        simpa using this)
      have hroots := card_eval_eq_zero_le hmap (natDegree_map_le.trans hm)
      simpa only [map_evalRingHom_eval, zero_add] using hroots
  calc
    #{z : F × F | P.evalEval z.1 z.2 = 0} = ∑ x : F, #{y : F | P.evalEval x y = 0} := by
      rw [card_eq_sum_ones, sum_filter, Fintype.sum_prod_type]
      refine sum_congr rfl fun x _ ↦ ?_
      rw [card_eq_sum_ones, sum_filter]
    _ ≤ ∑ x : F, ((if (P.coeff j).eval x = 0 then Fintype.card F else 0) + m) :=
      sum_le_sum fun x _ ↦ hfiber x
    _ = #{x : F | (P.coeff j).eval x = 0} * Fintype.card F + Fintype.card F * m := by
      rw [sum_add_distrib, ← sum_filter, sum_const, sum_const, card_univ, smul_eq_mul, smul_eq_mul]
    _ ≤ k * Fintype.card F + Fintype.card F * m :=
      Nat.add_le_add_right (Nat.mul_le_mul_right _ (card_eval_eq_zero_le hj (hk j))) _
    _ = (k + m) * Fintype.card F := by ring

/-- Two products of univariate polynomials in separate variables agree on few pairs, unless
all their coefficients do. -/
theorem card_separated_products_le {A A' B B' : F[X]} {m : ℕ} (hA : A.natDegree ≤ m)
    (hA' : A'.natDegree ≤ m) (hB : B.natDegree ≤ m) (hB' : B'.natDegree ≤ m)
    (hne : ∃ i j, A.coeff i * B.coeff j ≠ A'.coeff i * B'.coeff j) :
    #{z : F × F | A.eval z.1 * B.eval z.2 = A'.eval z.1 * B'.eval z.2} ≤
      2 * m * Fintype.card F := by
  set P : F[X][X] := C A * B.map C - C A' * B'.map C with hPdef
  have hcoeff (j : ℕ) : P.coeff j = A * C (B.coeff j) - A' * C (B'.coeff j) := by
    rw [hPdef, coeff_sub, coeff_C_mul, coeff_C_mul, coeff_map, coeff_map]
  have hP : P ≠ 0 := by
    obtain ⟨i, j, hij⟩ := hne
    intro h0
    have hcj := congrArg (fun Q ↦ (Q.coeff j).coeff i) h0
    simp only [hcoeff, coeff_sub, coeff_mul_C, coeff_zero] at hcj
    exact hij (sub_eq_zero.mp hcj)
  have hsub {R : Type} [Ring R] {P Q : R[X]} (hP : P.natDegree ≤ m) (hQ : Q.natDegree ≤ m) :
      (P - Q).natDegree ≤ m := (natDegree_sub_le P Q).trans (max_le hP hQ)
  have hY : P.natDegree ≤ m := hsub
    ((natDegree_C_mul_le _ _).trans (natDegree_map_le.trans hB))
    ((natDegree_C_mul_le _ _).trans (natDegree_map_le.trans hB'))
  have hX (j : ℕ) : (P.coeff j).natDegree ≤ m := by
    rw [hcoeff]
    exact hsub ((natDegree_mul_C_le _ _).trans hA) ((natDegree_mul_C_le _ _).trans hA')
  have heval (x y : F) : P.evalEval x y = 0 ↔
      A.eval x * B.eval y = A'.eval x * B'.eval y := by
    rw [hPdef, evalEval_sub, evalEval_mul, evalEval_mul, evalEval_C, evalEval_C, evalEval_map_C,
      evalEval_map_C, sub_eq_zero]
  have h := card_evalEval_eq_zero_le hP hY hX
  simp only [heval] at h
  rwa [two_mul]

end HieroCryptography.Foundation
