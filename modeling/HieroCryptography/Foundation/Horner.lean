import HieroCryptography.Foundation.BivariateRoots
import HieroCryptography.Foundation.DensePolynomial

namespace HieroCryptography.Foundation

open Rust

variable {F M N ε α : Type} [Field F] [AddCommGroup M] [AddCommGroup N] [Module F M] [Module F N]

/-- The combination `x₀ + χ x₁ + χ² x₂ + ...`. -/
def horner (χ : F) (xs : List M) : M := xs.foldr (fun x acc ↦ x + χ • acc) 0

@[simp] theorem horner_nil (χ : F) : horner χ ([] : List M) = 0 := rfl

@[simp] theorem horner_cons (χ : F) (x : M) (xs : List M) :
    horner χ (x :: xs) = x + χ • horner χ xs := rfl

theorem map_horner (f : M →ₗ[F] N) (χ : F) (xs : List M) :
    f (horner χ xs) = horner χ (xs.map f) := by
  induction xs with
  | nil => simp
  | cons x xs ih => simp [ih]

theorem foldl_reverse_eq_horner (χ : F) (xs : List M) (step : M → M → M)
    (hstep : ∀ acc x, step acc x = χ • acc + x) :
    xs.reverse.foldl step 0 = horner χ xs := by
  induction xs with
  | nil => rfl
  | cons x xs ih =>
    rw [List.reverse_cons, List.foldl_append, ih, List.foldl_cons, List.foldl_nil, hstep,
      horner_cons, add_comm]

theorem foldlM_reverse_horner {χ : F} (rel : α → M → Prop) {step : α → α → Outcome ε α}
    (hstep : ∀ {acc x A X}, rel acc A → rel x X → ∃ r, step acc x = .ok r ∧ rel r (χ • A + X))
    {init : α} (hinit : rel init 0) {xs : List α} {Xs : List M} (h : List.Forall₂ rel xs Xs) :
    ∃ r, xs.reverse.foldlM step init = .ok r ∧ rel r (horner χ Xs) := by
  induction h with
  | nil => exact ⟨init, rfl, hinit⟩
  | cons hx _ ih =>
    obtain ⟨acc, hacc, hrel⟩ := ih
    obtain ⟨r, hr, hrel'⟩ := hstep hrel hx
    refine ⟨r, ?_, ?_⟩
    · rw [List.reverse_cons, List.foldlM_append, hacc, ok_bind, List.foldlM_cons, hr, ok_bind]
      rfl
    · rwa [horner_cons, add_comm]

section Roots

open Polynomial Finset

theorem eval_coeffsPoly_eq_horner (χ : F) (xs : List F) :
    (coeffsPoly xs).eval χ = horner χ xs := eval_coeffsPoly xs χ

theorem horner_replicate_zero (χ : F) (n : ℕ) : horner χ (List.replicate n (0 : M)) = 0 := by
  induction n with
  | zero => rfl
  | succ n ih => rw [List.replicate_succ, horner_cons, ih, smul_zero, add_zero]

theorem horner_eq_zero_of_forall {xs : List M} (h : ∀ x ∈ xs, x = 0) (χ : F) :
    horner χ xs = 0 := by
  rw [List.eq_replicate_of_mem h, horner_replicate_zero]

variable [Fintype F] [DecidableEq F]

/-- Two lists of scalars that differ are merged into the same scalar by few challenges. -/
theorem card_horner_eq_le {xs ys : List F} (hlen : xs.length = ys.length) (hne : xs ≠ ys) :
    #{χ : F | horner χ xs = horner χ ys} ≤ xs.length - 1 := by
  have hpoly : coeffsPoly xs - coeffsPoly ys ≠ 0 := by
    intro h
    refine hne (List.ext_getElem hlen fun i hx hy ↦ ?_)
    have hi := congrArg (fun P ↦ P.coeff i) (sub_eq_zero.mp h)
    simp only [coeff_coeffsPoly] at hi
    rwa [List.getD_eq_getElem _ _ hx, List.getD_eq_getElem _ _ hy] at hi
  have hdeg (zs : List F) (h : zs.length = xs.length) :
      (coeffsPoly zs).natDegree ≤ xs.length - 1 := by
    refine natDegree_le_iff_coeff_eq_zero.mpr fun i hi ↦ ?_
    rw [coeff_coeffsPoly, List.getD_eq_default _ _ (by omega)]
  have h := card_eval_eq_zero_le hpoly
    ((natDegree_sub_le _ _).trans (max_le (hdeg xs rfl) (hdeg ys hlen.symm)))
  simpa only [eval_sub, eval_coeffsPoly_eq_horner, sub_eq_zero] using h

theorem ncard_horner_eq_le {xs ys : List M} (hlen : xs.length = ys.length) (hne : xs ≠ ys) :
    {χ : F | horner χ xs = horner χ ys}.ncard ≤ xs.length - 1 := by
  obtain ⟨f, hf⟩ : ∃ f : M →ₗ[F] F, xs.map f ≠ ys.map f := by
    by_contra! hall
    refine hne (List.ext_getElem hlen fun i hx hy ↦ ?_)
    refine sub_eq_zero.mp ((Module.forall_dual_apply_eq_zero_iff F _).mp fun f ↦ ?_)
    have hi := List.getElem_of_eq (hall f) (by simpa using hx)
    rw [List.getElem_map, List.getElem_map] at hi
    rw [map_sub, hi, sub_self]
  have hcard := card_horner_eq_le (by simpa using hlen) hf
  rw [List.length_map] at hcard
  refine ncard_le_of_forall_mem (fun χ hχ ↦ mem_filter.mpr ⟨mem_univ χ, ?_⟩) hcard
  rw [← map_horner, ← map_horner, hχ]

theorem ncard_horner_eq_zero_le {xs : List M} (h : ∃ x ∈ xs, x ≠ 0) :
    {χ : F | horner χ xs = 0}.ncard ≤ xs.length - 1 := by
  have hne : xs ≠ List.replicate xs.length 0 := by
    obtain ⟨x, hx, h0⟩ := h
    exact fun heq ↦ h0 (List.eq_of_mem_replicate (heq ▸ hx))
  simpa only [horner_replicate_zero] using
    ncard_horner_eq_le (F := F) List.length_replicate.symm hne

end Roots

end HieroCryptography.Foundation
