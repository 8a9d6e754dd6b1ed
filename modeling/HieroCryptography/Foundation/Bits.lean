import Mathlib

namespace HieroCryptography.Foundation

/-- The number with the given bits, least significant first. -/
def ofBits : List Bool → ℕ
  | [] => 0
  | b :: bs => b.toNat + 2 * ofBits bs

theorem ofBits_lt (bs : List Bool) : ofBits bs < 2 ^ bs.length := by
  induction bs with
  | nil => simp [ofBits]
  | cons b bs ih =>
    have hb := b.toNat_lt
    rw [ofBits, List.length_cons, pow_succ]
    omega

theorem ofBits_testBit (x n : ℕ) : ofBits ((List.range n).map x.testBit) = x % 2 ^ n := by
  induction n generalizing x with
  | zero => simp [ofBits, Nat.mod_one]
  | succ n ih =>
    have htail : (List.range n).map (x.testBit ∘ Nat.succ) = (List.range n).map (x / 2).testBit :=
      List.map_congr_left fun i _ ↦ Nat.testBit_succ x i
    rw [List.range_succ_eq_map, List.map_cons, List.map_map, ofBits, htail, ih,
      Nat.testBit_zero, pow_succ', Nat.mod_mul]
    rcases Nat.mod_two_eq_zero_or_one x with h | h <;> simp [h]

theorem foldl_doubling {R : Type} [CommRing R] (bs : List Bool) (acc coeff : R) :
    (bs.foldl (fun (s : R × R) bit ↦ (if bit then s.1 + s.2 else s.1, s.2 + s.2))
      (acc, coeff)).1 = acc + coeff * (ofBits bs : R) := by
  induction bs generalizing acc coeff with
  | nil => simp [ofBits]
  | cons b bs ih =>
    rw [List.foldl_cons, ih, ofBits]
    cases b <;> push_cast [Bool.toNat] <;> simp <;> ring

/-- A function does not change along a map exactly when it is constant on the classes whose
representatives the map leads to. -/
theorem forall_step_iff {α β : Type} {step rep : α → α} (hrep : ∀ a, rep (step a) = rep a)
    (hreach : ∀ a, ∃ n, step^[n] a = rep a) (f : α → β) :
    (∀ a, f (step a) = f a) ↔ ∀ a b, rep a = rep b → f a = f b := by
  constructor
  · intro hstep a b hab
    have hrun (n : ℕ) (a : α) : f (step^[n] a) = f a := by
      induction n generalizing a with
      | zero => rfl
      | succ n ih => rw [Function.iterate_succ_apply, ih, hstep]
    obtain ⟨n, hn⟩ := hreach a
    obtain ⟨m, hm⟩ := hreach b
    rw [← hrun n a, hn, hab, ← hm, hrun]
  · exact fun h a ↦ h (step a) a (hrep a)

end HieroCryptography.Foundation
