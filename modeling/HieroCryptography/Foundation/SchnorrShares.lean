import Mathlib

namespace HieroCryptography.Foundation.SchnorrShares

variable {F G : Type} [Field F] [AddCommGroup G] [Module F G]

def opened (g : G) (e : F) (pk : G) (s : F) : G := s • g - e • pk

theorem opened_respond (g : G) (e sk k : F) : opened g e (sk • g) (k + sk * e) = k • g := by
  rw [opened, add_smul, mul_comm, mul_smul, add_sub_cancel_right]

/-- Shares answering one challenge add up: their sum opens, under the sum of the keys, to
the sum of the nonce points. -/
theorem opened_sum (g : G) (e : F) (keys : List G) (responses : List F)
    (hlen : responses.length = keys.length) :
    opened g e keys.sum responses.sum = (List.zipWith (opened g e) keys responses).sum := by
  induction keys generalizing responses with
  | nil =>
    obtain rfl := List.length_eq_zero_iff.mp hlen
    simp [opened]
  | cons pk keys ih =>
    cases responses with
    | nil => cases hlen
    | cons s responses =>
      have htail := ih responses (by simpa using hlen)
      rw [List.zipWith_cons_cons, List.sum_cons, List.sum_cons, List.sum_cons, ← htail]
      simp only [opened, add_smul, smul_add]
      abel

end HieroCryptography.Foundation.SchnorrShares
