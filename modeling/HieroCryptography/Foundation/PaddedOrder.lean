import Mathlib

namespace HieroCryptography.Foundation

variable {α : Type} [LinearOrder α]

theorem cons_le_cons {x y : α} {xs ys : List α} :
    x :: xs ≤ y :: ys ↔ x < y ∨ x = y ∧ xs ≤ ys := by
  rw [← not_lt, List.cons_lt_cons_iff, not_or, not_lt, not_and, not_lt]
  constructor
  · rintro ⟨hle, h⟩
    exact hle.lt_or_eq.imp_right fun heq ↦ ⟨heq, h heq.symm⟩
  · rintro (hlt | ⟨rfl, hle⟩)
    · exact ⟨hlt.le, fun heq ↦ absurd heq hlt.ne'⟩
    · exact ⟨le_rfl, fun _ ↦ hle⟩

variable [OrderBot α]

def padTo (n : ℕ) (xs : List α) : List α := xs ++ List.replicate (n - xs.length) ⊥

def PaddedLe (xs ys : List α) : Prop := padTo ys.length xs ≤ padTo xs.length ys

theorem padTo_cons (n : ℕ) (x : α) (xs : List α) : padTo (n + 1) (x :: xs) = x :: padTo n xs := by
  rw [padTo, List.length_cons, Nat.add_sub_add_right, List.cons_append, padTo]

theorem paddedLe_cons {x y : α} {xs ys : List α} :
    PaddedLe (x :: xs) (y :: ys) ↔ x < y ∨ x = y ∧ PaddedLe xs ys := by
  rw [PaddedLe, List.length_cons, List.length_cons, padTo_cons, padTo_cons, cons_le_cons, PaddedLe]

/-- Padding matters only to a list that is the start of another. -/
theorem paddedLe_iff_le {xs ys : List α} (hxy : xs <+: ys → xs = ys) (hyx : ys <+: xs → ys = xs) :
    PaddedLe xs ys ↔ xs ≤ ys := by
  induction xs generalizing ys with
  | nil =>
    obtain rfl := hxy List.nil_prefix
    exact Iff.rfl
  | cons x xs ih =>
    cases ys with
    | nil => exact absurd (hyx List.nil_prefix) (List.cons_ne_nil x xs).symm
    | cons y ys =>
      rw [paddedLe_cons, cons_le_cons]
      refine or_congr_right (and_congr_right fun h ↦ ?_)
      subst h
      refine ih (fun h ↦ ?_) fun h ↦ ?_
      · exact (List.cons.inj (hxy (List.cons_prefix_cons.mpr ⟨rfl, h⟩))).2
      · exact (List.cons.inj (hyx (List.cons_prefix_cons.mpr ⟨rfl, h⟩))).2

end HieroCryptography.Foundation
