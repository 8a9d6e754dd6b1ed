import HieroCryptography.Foundation.Horner
import HieroCryptography.Hints.Curve

namespace HieroCryptography.Hints

open Polynomial Foundation Finset

namespace Relations

variable (D : Domain Fr)

/-- The running sum steps by the weights of the signers, the reserved slot taking the
aggregate weight away again. -/
noncomputable def p1 (W PS B : Fr[X]) (aggWeight : Fr) : Fr[X] :=
  PS - PS.comp (C (1 / D.groupGen) * X) - (W - C aggWeight * D.basis (D.size - 1)) * B

/-- The bitmap is binary. -/
noncomputable def p2 (B : Fr[X]) : Fr[X] := B * B - B

/-- The running sum ends at zero. -/
noncomputable def p3 (PS : Fr[X]) : Fr[X] := D.basis (D.size - 1) * PS

/-- The reserved slot is set. -/
noncomputable def p4 (B : Fr[X]) : Fr[X] := D.basis (D.size - 1) * (B - 1)

theorem eval_p1 (W PS B : Fr[X]) (aggWeight r : Fr) :
    (p1 D W PS B aggWeight).eval r = PS.eval r - PS.eval (r / D.groupGen) -
      (W.eval r - aggWeight * (D.basis (D.size - 1)).eval r) * B.eval r := by
  simp only [p1, eval_sub, eval_mul, eval_comp, eval_C, eval_X, one_div_mul_eq_div]

theorem eval_p2 (B : Fr[X]) (r : Fr) : (p2 B).eval r = B.eval r * B.eval r - B.eval r := by
  simp only [p2, eval_sub, eval_mul]

theorem eval_p3 (PS : Fr[X]) (r : Fr) :
    (p3 D PS).eval r = (D.basis (D.size - 1)).eval r * PS.eval r := eval_mul

theorem eval_p4 (B : Fr[X]) (r : Fr) :
    (p4 D B).eval r = (D.basis (D.size - 1)).eval r * (B.eval r - 1) := by
  simp only [p4, eval_mul, eval_sub, eval_one]

noncomputable def merged (W PS B : Fr[X]) (aggWeight χ : Fr) : Fr[X] :=
  horner χ [p1 D W PS B aggWeight, p2 B, p3 D PS, p4 D B]

theorem natDegree_horner_le {d : ℕ} (χ : Fr) {Ps : List Fr[X]} (h : ∀ P ∈ Ps, P.natDegree ≤ d) :
    (horner χ Ps).natDegree ≤ d := by
  induction Ps with
  | nil => simp
  | cons P Ps ih =>
    rw [List.forall_mem_cons] at h
    exact natDegree_add_le_of_degree_le h.1 ((natDegree_smul_le _ _).trans (ih h.2))

theorem natDegree_horner_lt {d : ℕ} (hd : 0 < d) (χ : Fr) {Ps : List Fr[X]}
    (h : ∀ P ∈ Ps, P.natDegree < d) : (horner χ Ps).natDegree < d := by
  have hle := natDegree_horner_le (d := d - 1) χ fun P hP ↦ Nat.le_sub_one_of_lt (h P hP)
  omega

theorem natDegree_merged_le {W PS B : Fr[X]} {d : ℕ} (hd : D.size - 1 ≤ d) (hW : W.natDegree ≤ d)
    (hPS : PS.natDegree ≤ d) (hB : B.natDegree ≤ d) (aggWeight χ : Fr) :
    (merged D W PS B aggWeight χ).natDegree ≤ d + d := by
  have hmul {P Q : Fr[X]} (hP : P.natDegree ≤ d) (hQ : Q.natDegree ≤ d) :
      (P * Q).natDegree ≤ d + d := natDegree_mul_le_of_le hP hQ
  have hsub {P Q : Fr[X]} {d : ℕ} (hP : P.natDegree ≤ d) (hQ : Q.natDegree ≤ d) :
      (P - Q).natDegree ≤ d := (natDegree_sub_le P Q).trans (max_le hP hQ)
  have hcomp : (PS.comp (C (1 / D.groupGen) * X)).natDegree ≤ PS.natDegree := by
    exact natDegree_comp_le.trans (mul_le_of_le_one_right (Nat.zero_le _)
      ((natDegree_C_mul_le _ _).trans natDegree_X_le))
  have hL := (D.basis_natDegree (D.size - 1)).le.trans hd
  refine natDegree_horner_le χ ?_
  simp only [List.forall_mem_cons, List.not_mem_nil, false_imp_iff, implies_true, and_true]
  refine ⟨hsub (hsub (by omega) (by omega)) (hmul (hsub hW ?_) hB),
    hsub (hmul hB hB) (by omega), hmul hL hPS, hmul hL (hsub hB ?_)⟩
  · exact (natDegree_C_mul_le _ _).trans hL
  · rw [natDegree_one]
    omega

theorem natDegree_merged_div_lt {W PS B : Fr[X]} (hW : W.natDegree < D.size)
    (hPS : PS.natDegree < D.size) (hB : B.natDegree < D.size) (aggWeight χ : Fr) :
    (merged D W PS B aggWeight χ / D.vanishing).natDegree < D.size := by
  have hmerged := natDegree_merged_le D le_rfl (Nat.le_sub_one_of_lt hW)
    (Nat.le_sub_one_of_lt hPS) (Nat.le_sub_one_of_lt hB) aggWeight χ
  have hpos := D.size_pos
  rw [← divByMonic_eq_div _ D.vanishing_monic, natDegree_divByMonic _ D.vanishing_monic,
    D.vanishing_natDegree]
  omega

/-- What `verify` enforces of the committed polynomials: the four relations on the whole
domain, and the sumcheck for the aggregate key with its degree bound. -/
structure Hold (W SK B PS Qz Qx : Fr[X]) (aggWeight aggKey : Fr) : Prop where
  p1 : D.vanishing ∣ p1 D W PS B aggWeight
  p2 : D.vanishing ∣ p2 B
  p3 : D.vanishing ∣ p3 D PS
  p4 : D.vanishing ∣ p4 D B
  sumcheck : B * SK = C aggKey + Qz * D.vanishing + Qx * X
  degree : Qx.natDegree ≤ D.size - 2

variable {D}

theorem Hold.merged {W SK B PS Qz Qx : Fr[X]} {aggWeight aggKey : Fr}
    (h : Hold D W SK B PS Qz Qx aggWeight aggKey) (χ : Fr) :
    D.vanishing ∣ merged D W PS B aggWeight χ := by
  have hsmul {P Q : Fr[X]} (hP : D.vanishing ∣ P) (hQ : D.vanishing ∣ Q) :
      D.vanishing ∣ P + χ • Q := dvd_add hP (dvd_smul_of_dvd χ hQ)
  exact hsmul h.p1 (hsmul h.p2 (hsmul h.p3 (hsmul h.p4 (dvd_zero _))))

theorem Hold.binary {W SK B PS Qz Qx : Fr[X]} {aggWeight aggKey : Fr}
    (h : Hold D W SK B PS Qz Qx aggWeight aggKey) {i : ℕ} (hi : i < D.size) :
    B.eval (D.node i) = 0 ∨ B.eval (D.node i) = 1 := by
  have h2 := (D.vanishing_dvd_iff _).mp h.p2 i hi
  rw [eval_p2, ← mul_sub_one, mul_eq_zero, sub_eq_zero] at h2
  exact h2

theorem Hold.reserved {W SK B PS Qz Qx : Fr[X]} {aggWeight aggKey : Fr}
    (h : Hold D W SK B PS Qz Qx aggWeight aggKey) : B.eval (D.node (D.size - 1)) = 1 := by
  have h4 := (D.vanishing_dvd_iff _).mp h.p4 _ (Nat.sub_lt D.size_pos one_pos)
  rwa [eval_p4, D.eval_basis_self, one_mul, sub_eq_zero] at h4

theorem Hold.balance {w : ℕ → Fr} {SK B PS Qz Qx : Fr[X]} {aggWeight aggKey : Fr}
    (h : Hold D (D.interpolant w) SK B PS Qz Qx aggWeight aggKey) :
    ∑ i ∈ range D.size, w i * B.eval (D.node i) = aggWeight := by
  have hlast : D.size - 1 ∈ range D.size := mem_range.mpr (Nat.sub_lt D.size_pos one_pos)
  have hstep : ∀ i ∈ range D.size, PS.eval (D.node i) - PS.eval (D.node i / D.groupGen) =
      w i * B.eval (D.node i) -
        if D.size - 1 = i then aggWeight * B.eval (D.node i) else 0 := by
    intro i hi
    have hi' := mem_range.mp hi
    have h1 := (D.vanishing_dvd_iff _).mp h.p1 i hi'
    rw [eval_p1, D.eval_interpolant w hi', D.eval_basis (mem_range.mp hlast) hi', sub_eq_zero] at h1
    rw [h1]
    split <;> ring
  have hsum := sum_congr rfl hstep
  rw [sum_sub_distrib, D.sum_div_groupGen (fun r ↦ PS.eval r), sub_self, sum_sub_distrib,
    sum_ite_eq, if_pos hlast, h.reserved, mul_one] at hsum
  exact (sub_eq_zero.mp hsum.symm)

section Honest

variable (D)

def aggWeight (n : ℕ) (w b : ℕ → Fr) : Fr := ∑ i ∈ range (n - 1), b i * w i

/-- The inclusive running sums, the reserved slot carrying minus the aggregate weight. -/
def parsum (n : ℕ) (w b : ℕ → Fr) (i : ℕ) : Fr :=
  ∑ j ∈ range (i + 1), b j * if j = n - 1 then 0 - aggWeight n w b else w j

noncomputable def qz (b s : ℕ → Fr) : Fr[X] :=
  ∑ i ∈ range D.size, ∑ j ∈ range D.size, C (b i * s j) * D.cross i j

noncomputable def qx (b s : ℕ → Fr) : Fr[X] :=
  ∑ i ∈ range D.size, C (b i * s i) * (D.basis i).divX

theorem eval_qz (b s : ℕ → Fr) (τ : Fr) : (qz D b s).eval τ =
    ∑ i ∈ range D.size, b i * ∑ j ∈ range D.size, (D.cross i j).eval τ * s j := by
  rw [qz, eval_finsetSum]
  refine sum_congr rfl fun i _ ↦ ?_
  rw [eval_finsetSum, mul_sum]
  refine sum_congr rfl fun j _ ↦ ?_
  rw [eval_mul, eval_C, mul_assoc, mul_comm (s j)]

theorem eval_qx (b s : ℕ → Fr) (τ : Fr) : (qx D b s).eval τ =
    ∑ i ∈ range D.size, b i * ((D.basis i).divX.eval τ * s i) := by
  rw [qx, eval_finsetSum]
  refine sum_congr rfl fun i _ ↦ ?_
  rw [eval_mul, eval_C, mul_assoc, mul_comm (s i)]

theorem parsum_of_lt {n i : ℕ} (hi : i < n - 1) (w b : ℕ → Fr) :
    parsum n w b i = ∑ j ∈ range (i + 1), b j * w j := by
  refine sum_congr rfl fun j hj ↦ ?_
  have hj' := mem_range.mp hj
  rw [if_neg (by omega)]

theorem parsum_last {n : ℕ} (hn : 1 < n) {w b : ℕ → Fr} (hb : b (n - 1) = 1) :
    parsum n w b (n - 1) = 0 := by
  obtain ⟨m, rfl⟩ : ∃ m, n = m + 1 + 1 := ⟨n - 2, by omega⟩
  have hprev := parsum_of_lt (n := m + 1 + 1) (i := m) (by omega) w b
  rw [parsum] at hprev ⊢
  rw [Nat.add_sub_cancel] at hb hprev ⊢
  rw [sum_range_succ, if_pos rfl, hprev, hb, aggWeight, Nat.add_sub_cancel]
  ring

/-- One step back on the domain the running sum lacks the last term; before the first slot it is
the sum of all, which is zero. -/
theorem eval_parsum_div_groupGen (hn : 1 < D.size) {w b : ℕ → Fr} (hlast : b (D.size - 1) = 1)
    {i : ℕ} (hi : i < D.size) :
    (D.interpolant (parsum D.size w b)).eval (D.node i / D.groupGen) =
      parsum D.size w b i - b i * if i = D.size - 1 then 0 - aggWeight D.size w b else w i := by
  cases i with
  | zero =>
    rw [D.node_zero_div_groupGen, D.eval_interpolant _ (Nat.sub_lt D.size_pos one_pos),
      parsum_last hn hlast, parsum, sum_range_one, sub_self]
  | succ i =>
    rw [D.node_div_groupGen, D.eval_interpolant _ (by omega), parsum, parsum,
      sum_range_succ _ (i + 1), add_sub_cancel_right]

theorem honest_hold (hn : 1 < D.size) {w s b : ℕ → Fr} (hb : ∀ i < D.size, b i = 0 ∨ b i = 1)
    (hlast : b (D.size - 1) = 1) (hw : w (D.size - 1) = 0) :
    Hold D (D.interpolant w) (D.interpolant s) (D.interpolant b)
      (D.interpolant (parsum D.size w b)) (qz D b s) (qx D b s) (aggWeight D.size w b)
      ((∑ i ∈ range D.size, b i * s i) / D.size) := by
  have hreserved : D.size - 1 < D.size := Nat.sub_lt D.size_pos one_pos
  constructor
  · refine (D.vanishing_dvd_iff _).mpr fun i hi ↦ ?_
    rw [eval_p1, eval_parsum_div_groupGen D hn hlast hi, D.eval_interpolant _ hi,
      D.eval_interpolant _ hi, D.eval_interpolant _ hi, D.eval_basis hreserved hi]
    by_cases hir : i = D.size - 1
    · rw [if_pos hir, if_pos hir.symm, hir, hw]
      ring
    · rw [if_neg hir, if_neg (Ne.symm hir)]
      ring
  · refine (D.vanishing_dvd_iff _).mpr fun i hi ↦ ?_
    rw [eval_p2, D.eval_interpolant _ hi]
    rcases hb i hi with h | h <;> rw [h] <;> ring
  · refine (D.vanishing_dvd_iff _).mpr fun i hi ↦ ?_
    rw [eval_p3, D.eval_interpolant _ hi, D.eval_basis hreserved hi]
    split
    · subst i
      rw [parsum_last hn hlast, mul_zero]
    · rw [zero_mul]
  · refine (D.vanishing_dvd_iff _).mpr fun i hi ↦ ?_
    rw [eval_p4, D.eval_interpolant _ hi, D.eval_basis hreserved hi]
    split
    · subst i
      rw [hlast, sub_self, mul_zero]
    · rw [zero_mul]
  · rw [D.interpolant_mul, D.interpolant_eq_mean_add]
    exact add_right_comm _ _ _
  · refine natDegree_sum_le_of_forall_le _ _ fun i _ ↦ (natDegree_C_mul_le _ _).trans ?_
    rw [natDegree_divX_eq_natDegree_tsub_one, D.basis_natDegree]
    omega

end Honest

end Relations

open Relations

/-- The relations leave an aggregator no choice beyond the set of signers: its bitmap is
binary with the reserved slot set, and the weight and key it claims are those of the set. -/
theorem relations_determine_weight_and_key {k : ℕ} (hk : 0 < k) (D : Domain Fr)
    (hsize : D.size = 2 ^ k) {w s : ℕ → Fr} (hw : w (2 ^ k - 1) = 0) {B PS Qz Qx : Fr[X]}
    {aggWeight aggKey : Fr}
    (h : Hold D (D.interpolant w) (D.interpolant s) B PS Qz Qx aggWeight aggKey) :
    (∀ i < 2 ^ k, B.eval (D.groupGen ^ i) = 0 ∨ B.eval (D.groupGen ^ i) = 1) ∧
      B.eval (D.groupGen ^ (2 ^ k - 1)) = 1 ∧
      aggWeight = ∑ i ∈ range (2 ^ k - 1), B.eval (D.groupGen ^ i) * w i ∧
      aggKey = 1 / (2 ^ k : ℕ) * ∑ i ∈ range (2 ^ k), B.eval (D.groupGen ^ i) * s i := by
  have hn : 1 < 2 ^ k := Nat.one_lt_two_pow hk.ne'
  rw [← hsize] at hw hn ⊢
  refine ⟨fun i hi ↦ h.binary hi, h.reserved, ?_, ?_⟩
  · have hbal := h.balance
    obtain ⟨m, hm⟩ : ∃ m, D.size = m + 1 := ⟨D.size - 1, by omega⟩
    rw [hm, Nat.add_sub_cancel] at hw ⊢
    rw [hm, sum_range_succ, hw, zero_mul, add_zero] at hbal
    rw [← hbal]
    exact sum_congr rfl fun i _ ↦ mul_comm _ _
  · have hdeg := h.degree
    have hsum := D.sum_eval_of_decomposition h.sumcheck (by omega)
    have hval : ∑ i ∈ range D.size, B.eval (D.node i) * s i = D.size * aggKey := by
      rw [← hsum]
      refine sum_congr rfl fun i hi ↦ ?_
      rw [eval_mul, D.eval_interpolant s (mem_range.mp hi)]
    have hval' : ∑ i ∈ range D.size, B.eval (D.groupGen ^ i) * s i = D.size * aggKey := hval
    rw [hval', one_div, inv_mul_cancel_left₀ D.size_ne_zero]

/-- Four slots: the first two sign, the third one is empty and the last one reserved. -/
theorem relations_determine_weight_and_key_four :
    ∃ D : Domain Fr, D.size = 2 ^ 2 ∧ ∃ (B PS Qz Qx : Fr[X]) (aggWeight aggKey : Fr),
      Hold D (D.interpolant fun i ↦ if i < 2 then i + 1 else 0)
        (D.interpolant fun i ↦ if i < 2 then i + 2 else 0) B PS Qz Qx aggWeight aggKey ∧
      B.eval (D.groupGen ^ (2 ^ 2 - 1)) = 1 ∧ aggWeight = 3 ∧ aggKey = 5 / 4 := by
  obtain ⟨D, -, hsize⟩ := radix2Domain_two_pow frFft (k := 2) (by decide)
  let b (i : ℕ) : Fr := if i = 2 then 0 else 1
  have hbinary (i : ℕ) : b i = 0 ∨ b i = 1 := by
    by_cases hi : i = 2 <;> simp [b, hi]
  have hhold := honest_hold D (by rw [hsize]; decide) (w := fun i ↦ if i < 2 then i + 1 else 0)
    (s := fun i ↦ if i < 2 then i + 2 else 0) (b := b) (fun i _ ↦ hbinary i)
    (by rw [hsize]; rfl) (by rw [hsize]; rfl)
  obtain ⟨-, hreserved, hweight, hkey⟩ :=
    relations_determine_weight_and_key two_pos D hsize rfl hhold
  have hbits (m : ℕ) (hm : m ≤ 4) (f : ℕ → Fr) :
      ∑ i ∈ range m, (D.interpolant b).eval (D.groupGen ^ i) * f i = ∑ i ∈ range m, b i * f i := by
    refine sum_congr rfl fun i hi ↦ congrArg (· * f i) (D.eval_interpolant b ?_)
    exact hsize.symm ▸ (mem_range.mp hi).trans_le hm
  refine ⟨D, hsize, _, _, _, _, _, _, hhold, hreserved, ?_, ?_⟩
  · rw [hweight, hbits _ (by decide)]
    decide +kernel
  · rw [hkey, hbits _ (by decide)]
    decide +kernel

end HieroCryptography.Hints
