import Mathlib

namespace HieroCryptography.Foundation

/-- `a ^ e % m` by squaring, for exponents of at most `bits` bits. -/
def powMod (m a : ℕ) : ℕ → ℕ → ℕ
  | 0, _ => 1
  | bits + 1, e =>
    let half := powMod m a bits (e / 2)
    if e % 2 = 1 then half * half % m * a % m else half * half % m

theorem powMod_cast (m a bits e : ℕ) (he : e < 2 ^ bits) :
    (powMod m a bits e : ZMod m) = (a : ZMod m) ^ e := by
  induction bits generalizing e with
  | zero =>
    obtain rfl : e = 0 := by simpa using he
    simp [powMod]
  | succ bits ih =>
    have hhalf := ih (e / 2) (by rw [pow_succ] at he; omega)
    have hdm := Nat.div_add_mod e 2
    have hsq : (a : ZMod m) ^ (2 * (e / 2)) =
        (powMod m a bits (e / 2) : ZMod m) * powMod m a bits (e / 2) := by
      rw [two_mul, pow_add, hhalf]
    simp only [powMod]
    split
    · rename_i hodd
      rw [hodd] at hdm
      conv_rhs => rw [← hdm, pow_succ, hsq]
      simp only [ZMod.natCast_mod, Nat.cast_mul]
    · have heven : e % 2 = 0 := by omega
      rw [heven, add_zero] at hdm
      conv_rhs => rw [← hdm, hsq]
      simp only [ZMod.natCast_mod, Nat.cast_mul]

theorem pow_eq_one_of_powMod {m a e : ℕ} (bits : ℕ) (he : e < 2 ^ bits)
    (h : powMod m a bits e = 1) : (a : ZMod m) ^ e = 1 := by
  rw [← powMod_cast m a bits e he, h, Nat.cast_one]

theorem powMod_lt {m : ℕ} (hm : 1 < m) (a bits e : ℕ) : powMod m a bits e < m := by
  cases bits with
  | zero => exact hm
  | succ bits =>
    simp only [powMod]
    split <;> exact Nat.mod_lt _ (by omega)

theorem pow_ne_one_of_powMod {m a e : ℕ} (bits : ℕ) (hm : 1 < m) (he : e < 2 ^ bits)
    (h : powMod m a bits e ≠ 1) : (a : ZMod m) ^ e ≠ 1 := by
  intro h1
  apply h
  rw [← powMod_cast m a bits e he, ← Nat.cast_one] at h1
  have hval := congrArg ZMod.val h1
  rwa [ZMod.val_cast_of_lt (powMod_lt hm a bits e), ZMod.val_cast_of_lt hm] at hval

/-- The Lucas test over a listed factorisation of `p - 1`. -/
def lucasTest (p a bits : ℕ) (factors : List (ℕ × ℕ)) : Bool :=
  1 < p && p ≤ 2 ^ bits && (factors.map fun f ↦ f.1 ^ f.2).prod = p - 1 &&
    powMod p a bits (p - 1) = 1 && factors.all fun f ↦ powMod p a bits ((p - 1) / f.1) ≠ 1

theorem prime_of_lucasTest {p : ℕ} (a bits : ℕ) {factors : List (ℕ × ℕ)}
    (hprime : ∀ f ∈ factors, f.1.Prime) (h : lucasTest p a bits factors = true) : p.Prime := by
  simp only [lucasTest, Bool.and_eq_true, decide_eq_true_eq, List.all_eq_true] at h
  obtain ⟨⟨⟨⟨hp, hbits⟩, hprod⟩, hone⟩, hne⟩ := h
  refine lucas_primality p a (pow_eq_one_of_powMod bits (by omega) hone) fun q hq hdvd ↦ ?_
  rw [← hprod] at hdvd
  obtain ⟨x, hx, hqx⟩ := (Prime.dvd_prod_iff hq.prime).mp hdvd
  obtain ⟨f, hf, rfl⟩ := List.mem_map.mp hx
  obtain rfl := (Nat.prime_dvd_prime_iff_eq hq (hprime f hf)).mp (hq.dvd_of_dvd_pow hqx)
  have hle := Nat.div_le_self (p - 1) f.1
  exact pow_ne_one_of_powMod bits hp (by omega) (hne f hf)

end HieroCryptography.Foundation
