import Mathlib

namespace HieroCryptography.Foundation

/-- Cyclic groups over a scalar field with a non-degenerate bilinear pairing,
all written additively. -/
structure PairingGroups (F : Type) [Field F] where
  G1 : Type
  G2 : Type
  GT : Type
  [addCommGroupG1 : AddCommGroup G1]
  [addCommGroupG2 : AddCommGroup G2]
  [addCommGroupGT : AddCommGroup GT]
  [moduleG1 : Module F G1]
  [moduleG2 : Module F G2]
  [moduleGT : Module F GT]
  [decidableEqG1 : DecidableEq G1]
  [decidableEqG2 : DecidableEq G2]
  [decidableEqGT : DecidableEq GT]
  g : G1
  h : G2
  bilinear : G1 →ₗ[F] G2 →ₗ[F] GT
  g_spans : ∀ x : G1, ∃ c : F, c • g = x
  h_spans : ∀ y : G2, ∃ c : F, c • h = y
  nondegenerate : bilinear g h ≠ 0

namespace PairingGroups

attribute [instance] addCommGroupG1 addCommGroupG2 addCommGroupGT moduleG1 moduleG2 moduleGT
  decidableEqG1 decidableEqG2 decidableEqGT

variable {F : Type} [Field F] (E : PairingGroups F)

def pairing (x : E.G1) (y : E.G2) : E.GT := E.bilinear x y

theorem bilinear_apply (x : E.G1) (y : E.G2) : E.bilinear x y = E.pairing x y := rfl

theorem g_ne_zero : E.g ≠ 0 := by
  intro h
  apply E.nondegenerate
  rw [h, map_zero, LinearMap.zero_apply]

theorem h_ne_zero : E.h ≠ 0 := by
  intro h
  apply E.nondegenerate
  rw [h, map_zero]

theorem smul_g_inj {a b : F} : a • E.g = b • E.g ↔ a = b :=
  ⟨fun h ↦ smul_left_injective F E.g_ne_zero h, fun h ↦ h ▸ rfl⟩

theorem smul_h_inj {a b : F} : a • E.h = b • E.h ↔ a = b :=
  ⟨fun h ↦ smul_left_injective F E.h_ne_zero h, fun h ↦ h ▸ rfl⟩

theorem smul_g_eq_zero {a : F} : a • E.g = 0 ↔ a = 0 := by
  rw [smul_eq_zero, or_iff_left E.g_ne_zero]

theorem smul_h_eq_zero {a : F} : a • E.h = 0 ↔ a = 0 := by
  rw [smul_eq_zero, or_iff_left E.h_ne_zero]

theorem pairing_smul_left (c : F) (x : E.G1) (y : E.G2) :
    E.pairing (c • x) y = c • E.pairing x y :=
  LinearMap.map_smul₂ _ _ _ _

theorem pairing_smul_right (c : F) (x : E.G1) (y : E.G2) :
    E.pairing x (c • y) = c • E.pairing x y :=
  map_smul _ _ _

theorem pairing_smul (a b : F) : E.pairing (a • E.g) (b • E.h) = (a * b) • E.pairing E.g E.h := by
  rw [pairing_smul_left, pairing_smul_right, smul_smul]

theorem pairing_smul_inj {a b c d : F} :
    E.pairing (a • E.g) (b • E.h) = E.pairing (c • E.g) (d • E.h) ↔ a * b = c * d := by
  rw [pairing_smul, pairing_smul]
  exact ⟨fun h ↦ smul_left_injective F E.nondegenerate h, fun h ↦ h ▸ rfl⟩

theorem pairing_left_inj {y : E.G2} (hy : y ≠ 0) {x x' : E.G1} :
    E.pairing x y = E.pairing x' y ↔ x = x' := by
  obtain ⟨c, rfl⟩ := E.h_spans y
  obtain ⟨a, rfl⟩ := E.g_spans x
  obtain ⟨b, rfl⟩ := E.g_spans x'
  have hc : c ≠ 0 := fun h0 ↦ hy (E.smul_h_eq_zero.mpr h0)
  rw [pairing_smul_inj, smul_g_inj, mul_left_inj' hc]

theorem pairing_right_inj {x : E.G1} (hx : x ≠ 0) {y y' : E.G2} :
    E.pairing x y = E.pairing x y' ↔ y = y' := by
  obtain ⟨c, rfl⟩ := E.g_spans x
  obtain ⟨a, rfl⟩ := E.h_spans y
  obtain ⟨b, rfl⟩ := E.h_spans y'
  have hc : c ≠ 0 := fun h0 ↦ hx (E.smul_g_eq_zero.mpr h0)
  rw [pairing_smul_inj, smul_h_inj, mul_right_inj' hc]

theorem pairing_h_eq_iff {x y : E.G1} {c : F} :
    E.pairing x E.h = E.pairing y (c • E.h) ↔ x = c • y := by
  obtain ⟨a, rfl⟩ := E.g_spans x
  obtain ⟨b, rfl⟩ := E.g_spans y
  have h := E.pairing_smul_inj (a := a) (b := 1) (c := b) (d := c)
  rw [one_smul, mul_one, mul_comm b] at h
  rw [h, smul_smul, smul_g_inj]

theorem pairing_g_eq_iff {x : E.G2} {b c : F} :
    E.pairing E.g x = E.pairing (b • E.g) (c • E.h) ↔ x = (b * c) • E.h := by
  obtain ⟨a, rfl⟩ := E.h_spans x
  have h := E.pairing_smul_inj (a := 1) (b := a) (c := b) (d := c)
  rw [one_smul, one_mul] at h
  rw [h, smul_h_inj]

end PairingGroups

end HieroCryptography.Foundation
