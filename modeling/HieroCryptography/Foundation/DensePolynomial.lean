import HieroCryptography.Rust.Outcome
import HieroCryptography.Foundation.EvaluationDomain

namespace HieroCryptography.Foundation

open Polynomial Rust

variable {F : Type} [Field F] {ε : Type}

/-- A field with a large two-power subgroup, for radix-two transforms. -/
structure FftField (F : Type) [Field F] where
  twoAdicity : ℕ
  twoAdicRootOfUnity : F
  primitive : IsPrimitiveRoot twoAdicRootOfUnity (2 ^ twoAdicity)

/-- `Radix2EvaluationDomain::new`: the subgroup of the next power of two, if
the field has one. -/
def radix2Domain (S : FftField F) (numCoeffs : ℕ) : Option (Domain F) :=
  if h : Nat.clog 2 numCoeffs ≤ S.twoAdicity then
    some {
      size := 2 ^ Nat.clog 2 numCoeffs
      groupGen := S.twoAdicRootOfUnity ^ 2 ^ (S.twoAdicity - Nat.clog 2 numCoeffs)
      size_pos := Nat.two_pow_pos _
      primitive := S.primitive.pow (Nat.two_pow_pos _) (by
        rw [← pow_add, Nat.sub_add_cancel h]) }
  else none

theorem radix2Domain_two_pow (S : FftField F) {k : ℕ} (hk : k ≤ S.twoAdicity) :
    ∃ D, radix2Domain S (2 ^ k) = some D ∧ D.size = 2 ^ k := by
  have hc : Nat.clog 2 (2 ^ k) = k := Nat.clog_pow 2 k one_lt_two
  have hk' : Nat.clog 2 (2 ^ k) ≤ S.twoAdicity := by rwa [hc]
  refine ⟨_, dif_pos hk', ?_⟩
  simp only [hc]

theorem radix2Domain_size (S : FftField F) {k : ℕ} {D : Domain F}
    (h : radix2Domain S (2 ^ k) = some D) : D.size = 2 ^ k := by
  have hc : Nat.clog 2 (2 ^ k) = k := Nat.clog_pow 2 k one_lt_two
  unfold radix2Domain at h
  split at h
  · obtain rfl := Option.some.inj h
    simp only [hc]
  · cases h

theorem radix2Domain_ne_none (S : FftField F) {m : ℕ} (h : m ≤ 2 ^ S.twoAdicity) :
    radix2Domain S m ≠ none := by
  have hc : Nat.clog 2 m ≤ S.twoAdicity := Nat.clog_le_of_le_pow h
  simp [radix2Domain, hc]

/-- A dense univariate polynomial: its coefficients, lowest degree first. -/
structure DensePolynomial (F : Type) where
  coeffs : List F
  deriving DecidableEq, Repr

def coeffsAdd : List F → List F → List F
  | [], ys => ys
  | x :: xs, [] => x :: xs
  | x :: xs, y :: ys => (x + y) :: coeffsAdd xs ys

def coeffsSmul (c : F) (xs : List F) : List F := xs.map (c * ·)

def coeffsMul : List F → List F → List F
  | [], _ => []
  | x :: xs, ys => coeffsAdd (coeffsSmul x ys) (0 :: coeffsMul xs ys)

def coeffsDivMod (d : List F) (lead : F) : List F → List F × List F
  | [] => ([], [])
  | c :: cs =>
    let qr := coeffsDivMod d lead cs
    let k := (c :: qr.2).getD (d.length - 1) 0 / lead
    (k :: qr.1, (coeffsAdd (c :: qr.2) (coeffsSmul (-k) d)).take (d.length - 1))

def ifft (D : Domain F) (evals : List F) : List F :=
  (List.range D.size).map fun j ↦
    ((List.range D.size).map fun i ↦ evals.getD i 0 * (D.groupGen⁻¹) ^ (i * j)).sum / D.size

noncomputable def coeffsPoly (xs : List F) : F[X] := xs.foldr (fun c P ↦ C c + X * P) 0

@[simp] theorem coeffsPoly_nil : coeffsPoly ([] : List F) = 0 := rfl

@[simp] theorem coeffsPoly_cons (c : F) (xs : List F) :
    coeffsPoly (c :: xs) = C c + X * coeffsPoly xs := rfl

theorem coeff_coeffsPoly (xs : List F) (i : ℕ) : (coeffsPoly xs).coeff i = xs.getD i 0 := by
  induction xs generalizing i with
  | nil => simp
  | cons c xs ih =>
    cases i with
    | zero => simp
    | succ i => simp [ih]

theorem coeffsPoly_append (xs ys : List F) :
    coeffsPoly (xs ++ ys) = coeffsPoly xs + X ^ xs.length * coeffsPoly ys := by
  induction xs with
  | nil => simp
  | cons c xs ih =>
    simp only [List.cons_append, coeffsPoly_cons, ih, List.length_cons, pow_succ']
    ring

theorem coeffsPoly_coeffsAdd (xs ys : List F) :
    coeffsPoly (coeffsAdd xs ys) = coeffsPoly xs + coeffsPoly ys := by
  induction xs generalizing ys with
  | nil => simp [coeffsAdd]
  | cons x xs ih =>
    cases ys with
    | nil => simp [coeffsAdd]
    | cons y ys =>
      simp only [coeffsAdd, coeffsPoly_cons, ih, C_add]
      ring

theorem coeffsPoly_coeffsSmul (c : F) (xs : List F) :
    coeffsPoly (coeffsSmul c xs) = C c * coeffsPoly xs := by
  induction xs with
  | nil => simp [coeffsSmul]
  | cons x xs ih =>
    simp only [coeffsSmul, List.map_cons, coeffsPoly_cons, C_mul] at ih ⊢
    rw [ih]
    ring

theorem coeffsPoly_coeffsMul (xs ys : List F) :
    coeffsPoly (coeffsMul xs ys) = coeffsPoly xs * coeffsPoly ys := by
  induction xs with
  | nil => simp [coeffsMul]
  | cons x xs ih =>
    simp only [coeffsMul, coeffsPoly_coeffsAdd, coeffsPoly_coeffsSmul, coeffsPoly_cons, ih,
      C_0, zero_add]
    ring

theorem coeffsPoly_eq_zero_iff (xs : List F) : coeffsPoly xs = 0 ↔ ∀ x ∈ xs, x = 0 := by
  constructor
  · intro h x hx
    obtain ⟨i, hi, rfl⟩ := List.mem_iff_getElem.mp hx
    have hc := coeff_coeffsPoly xs i
    rw [h, coeff_zero, List.getD_eq_getElem _ _ hi] at hc
    exact hc.symm
  · intro h
    ext i
    rw [coeff_coeffsPoly, coeff_zero]
    by_cases hi : i < xs.length
    · rw [List.getD_eq_getElem _ _ hi]
      exact h _ (List.getElem_mem hi)
    · exact List.getD_eq_default _ _ (not_lt.mp hi)

theorem coeffsPoly_degree_lt (xs : List F) : (coeffsPoly xs).degree < xs.length := by
  rw [degree_lt_iff_coeff_zero]
  intro i hi
  rw [coeff_coeffsPoly]
  exact List.getD_eq_default _ _ hi

theorem eval_coeffsPoly (xs : List F) (r : F) :
    (coeffsPoly xs).eval r = xs.foldr (fun c acc ↦ c + r * acc) 0 := by
  induction xs with
  | nil => simp
  | cons c xs ih => simp [ih]

theorem coeffsAdd_length (xs ys : List F) :
    (coeffsAdd xs ys).length = max xs.length ys.length := by
  induction xs generalizing ys with
  | nil => simp [coeffsAdd]
  | cons x xs ih =>
    cases ys with
    | nil => simp [coeffsAdd]
    | cons y ys => simp only [coeffsAdd, List.length_cons, ih]; omega

theorem coeffsPoly_take_of_coeff_zero {xs : List F} {m : ℕ} (hlen : xs.length ≤ m + 1)
    (h : xs.getD m 0 = 0) : coeffsPoly (xs.take m) = coeffsPoly xs := by
  ext i
  rw [coeff_coeffsPoly, coeff_coeffsPoly]
  rcases lt_trichotomy i m with hi | rfl | hi
  · simp [List.getD_eq_getElem?_getD, List.getElem?_take_of_lt hi]
  · rw [h]
    exact List.getD_eq_default _ _ (by simp)
  · rw [List.getD_eq_default _ _ (by simp; omega), List.getD_eq_default _ _ (by omega)]

theorem coeffsAdd_getD (xs ys : List F) (i : ℕ) :
    (coeffsAdd xs ys).getD i 0 = xs.getD i 0 + ys.getD i 0 := by
  rw [← coeff_coeffsPoly, coeffsPoly_coeffsAdd, coeff_add, coeff_coeffsPoly, coeff_coeffsPoly]

theorem coeffsSmul_getD (c : F) (xs : List F) (i : ℕ) :
    (coeffsSmul c xs).getD i 0 = c * xs.getD i 0 := by
  rw [← coeff_coeffsPoly, coeffsPoly_coeffsSmul, coeff_C_mul, coeff_coeffsPoly]

theorem coeffsDivMod_spec {d : List F} {lead : F} (hd : 0 < d.length) (hl : lead ≠ 0)
    (hlast : d.getD (d.length - 1) 0 = lead) (cs : List F) :
    coeffsPoly cs = coeffsPoly (coeffsDivMod d lead cs).1 * coeffsPoly d +
        coeffsPoly (coeffsDivMod d lead cs).2 ∧
      (coeffsDivMod d lead cs).2.length ≤ d.length - 1 := by
  induction cs with
  | nil => simp [coeffsDivMod]
  | cons c cs ih =>
    obtain ⟨heq, hlen⟩ := ih
    simp only [coeffsDivMod]
    set q := (coeffsDivMod d lead cs).1
    set r := (coeffsDivMod d lead cs).2
    set k := (c :: r).getD (d.length - 1) 0 / lead with hk
    refine ⟨?_, by simp⟩
    rw [coeffsPoly_take_of_coeff_zero, coeffsPoly_coeffsAdd, coeffsPoly_coeffsSmul,
      coeffsPoly_cons, coeffsPoly_cons, coeffsPoly_cons, heq, C_neg]
    · ring
    · rw [coeffsAdd_length]
      simp only [List.length_cons, coeffsSmul, List.length_map]
      omega
    · rw [coeffsAdd_getD, coeffsSmul_getD, hlast, hk, neg_mul, div_mul_cancel₀ _ hl,
        add_neg_cancel]

theorem eval_coeffsPoly_map_range (m : ℕ) (f : ℕ → F) (r : F) :
    (coeffsPoly ((List.range m).map f)).eval r = ∑ j ∈ Finset.range m, f j * r ^ j := by
  have hdeg : (coeffsPoly ((List.range m).map f)).degree < m := by
    simpa using coeffsPoly_degree_lt ((List.range m).map f)
  rw [eval_eq_sum_range' (n := m + 1), Finset.sum_range_succ, coeff_coeffsPoly,
    List.getD_eq_default _ _ (by simp), zero_mul, add_zero]
  · refine Finset.sum_congr rfl fun j hj ↦ ?_
    rw [coeff_coeffsPoly, List.getD_eq_getElem _ _ (by simpa using hj)]
    simp
  · exact Nat.lt_succ_of_le (natDegree_le_iff_degree_le.mpr hdeg.le)

theorem sum_map_range {M : Type} [AddCommMonoid M] (n : ℕ) (f : ℕ → M) :
    ((List.range n).map f).sum = ∑ i ∈ Finset.range n, f i := rfl

theorem ifft_degree_lt (D : Domain F) (evals : List F) :
    (coeffsPoly (ifft D evals)).degree < D.size := by
  simpa [ifft] using coeffsPoly_degree_lt (ifft D evals)

theorem eval_coeffsPoly_ifft (D : Domain F) (evals : List F) {i : ℕ} (hi : i < D.size) :
    (coeffsPoly (ifft D evals)).eval (D.node i) = evals.getD i 0 := by
  have hterm (j l : ℕ) : evals.getD l 0 * (D.groupGen⁻¹) ^ (l * j) / D.size * D.node i ^ j =
      evals.getD l 0 * ((D.node i / D.node l) ^ j / D.size) := by
    rw [Domain.node, Domain.node, div_pow, ← pow_mul, ← pow_mul, inv_pow]
    ring
  -- by orthogonality only the `l = i` term of the double sum survives
  have horth (l : ℕ) (hl : l < D.size) :
      ∑ j ∈ Finset.range D.size, (D.node i / D.node l) ^ j = if l = i then (D.size : F) else 0 := by
    split
    · subst l
      simp [div_self (D.node_ne_zero i)]
    · rename_i hne
      have h1 : D.node i / D.node l ≠ 1 := by
        rw [Ne, div_eq_one_iff_eq (D.node_ne_zero l)]
        exact fun h ↦ hne (D.node_injOn (by simpa using hl) (by simpa using hi) h.symm)
      rw [geom_sum_eq h1, div_pow, D.node_pow_size, D.node_pow_size, div_one, sub_self, zero_div]
  calc
    _ = ∑ j ∈ Finset.range D.size, ∑ l ∈ Finset.range D.size,
          evals.getD l 0 * ((D.node i / D.node l) ^ j / D.size) := by
      rw [ifft, eval_coeffsPoly_map_range]
      refine Finset.sum_congr rfl fun j _ ↦ ?_
      rw [sum_map_range, Finset.sum_div, Finset.sum_mul]
      exact Finset.sum_congr rfl fun l _ ↦ hterm j l
    _ = ∑ l ∈ Finset.range D.size, evals.getD l 0 * (if l = i then 1 else 0) := by
      rw [Finset.sum_comm]
      refine Finset.sum_congr rfl fun l hl ↦ ?_
      rw [← Finset.mul_sum, ← Finset.sum_div, horth l (Finset.mem_range.mp hl)]
      split
      · rw [div_self D.size_ne_zero]
      · rw [zero_div]
    _ = _ := by simp [hi]

theorem coeffsPoly_ifft (D : Domain F) (evals : List F) :
    coeffsPoly (ifft D evals) = D.interpolant (fun i ↦ evals.getD i 0) :=
  D.eq_interpolant (ifft_degree_lt D evals) fun _ hi ↦ eval_coeffsPoly_ifft D evals hi

namespace DensePolynomial

variable [DecidableEq F]

def isZero (p : DensePolynomial F) : Bool := p.coeffs.all (· = 0)

def truncate (p : DensePolynomial F) : DensePolynomial F := ⟨p.coeffs.rdropWhile (· = 0)⟩

/-- The degree, which must not be asked of a nonzero polynomial stored with a
zero leading coefficient. -/
def degree (p : DensePolynomial F) : Outcome ε ℕ :=
  if p.isZero then .ok 0
  else if p.coeffs.getLast? = some 0 then unwind
  else .ok (p.coeffs.length - 1)

def evaluate (p : DensePolynomial F) (r : F) : F := p.coeffs.foldr (fun c acc ↦ c + r * acc) 0

def add (p q : DensePolynomial F) : Outcome ε (DensePolynomial F) :=
  if p.isZero then .ok q
  else if q.isZero then .ok p
  else do
    let _ ← p.degree
    let _ ← q.degree
    .ok (truncate ⟨coeffsAdd p.coeffs q.coeffs⟩)

def sub (p q : DensePolynomial F) : Outcome ε (DensePolynomial F) :=
  if p.isZero then .ok (truncate ⟨coeffsSmul (-1) q.coeffs⟩)
  else if q.isZero then .ok p.truncate
  else do
    let _ ← p.degree
    let _ ← q.degree
    .ok (truncate ⟨coeffsAdd p.coeffs (coeffsSmul (-1) q.coeffs)⟩)

/-- Multiplication goes through a domain that holds the product, and panics
when the field has none. -/
def mul (S : FftField F) (p q : DensePolynomial F) : Outcome ε (DensePolynomial F) :=
  if p.isZero || q.isZero then .ok ⟨[]⟩
  else match radix2Domain S (p.coeffs.length + q.coeffs.length - 1) with
    | none => unwind
    | some _ => .ok (truncate ⟨coeffsMul p.coeffs q.coeffs⟩)

def div (p q : DensePolynomial F) : Outcome ε (DensePolynomial F) :=
  if p.isZero then .ok ⟨[]⟩
  else if q.isZero then unwind
  else do
    let dp ← p.degree
    let dq ← q.degree
    if dp < dq then .ok ⟨[]⟩
    else .ok (truncate ⟨(coeffsDivMod q.coeffs (q.coeffs.getLastD 0) p.coeffs).1⟩)

def divideByVanishingPoly (p : DensePolynomial F) (D : Domain F) :
    DensePolynomial F × DensePolynomial F :=
  let qr := coeffsDivMod (-1 :: List.replicate (D.size - 1) 0 ++ [1]) 1 p.coeffs
  (truncate ⟨qr.1⟩, truncate ⟨qr.2⟩)

def interpolate (D : Domain F) (evals : List F) : DensePolynomial F := truncate ⟨ifft D evals⟩

noncomputable def toPoly (p : DensePolynomial F) : F[X] := coeffsPoly p.coeffs

/-- The stored forms on which `degree` does not panic. -/
def Valid (p : DensePolynomial F) : Prop := p.isZero = true ∨ p.coeffs.getLast? ≠ some 0

/-- A stored form of the given polynomial. -/
def Denotes (p : DensePolynomial F) (P : F[X]) : Prop := p.Valid ∧ p.toPoly = P

theorem isZero_iff (p : DensePolynomial F) : p.isZero = true ↔ p.toPoly = 0 := by
  simp [isZero, toPoly, coeffsPoly_eq_zero_iff]

theorem isZero_eq_false_iff (p : DensePolynomial F) : p.isZero = false ↔ p.toPoly ≠ 0 := by
  rw [← Bool.not_eq_true, Ne, isZero_iff]

theorem toPoly_truncate (p : DensePolynomial F) : p.truncate.toPoly = p.toPoly := by
  have h : p.coeffs.rdropWhile (fun x ↦ decide (x = 0)) ++
      p.coeffs.rtakeWhile (fun x ↦ decide (x = 0)) = p.coeffs :=
    List.rdropWhile_append_rtakeWhile
  have hz : coeffsPoly (p.coeffs.rtakeWhile fun x ↦ decide (x = 0)) = 0 := by
    rw [coeffsPoly_eq_zero_iff]
    intro x hx
    simpa using List.mem_rtakeWhile_imp hx
  unfold toPoly truncate
  conv_rhs => rw [← h]
  rw [coeffsPoly_append, hz, mul_zero, add_zero]

theorem truncate_valid (p : DensePolynomial F) : p.truncate.Valid := by
  by_cases hnil : p.coeffs.rdropWhile (fun x ↦ decide (x = 0)) = []
  · exact Or.inl (by simp [isZero, truncate, hnil])
  · refine Or.inr fun h ↦ ?_
    have hlast := List.rdropWhile_last_not (fun x : F ↦ decide (x = 0)) p.coeffs hnil
    rw [truncate, List.getLast?_eq_some_getLast hnil, Option.some.injEq] at h
    simp [h] at hlast

theorem denotes_truncate (p : DensePolynomial F) : p.truncate.Denotes p.toPoly :=
  ⟨p.truncate_valid, p.toPoly_truncate⟩

omit [DecidableEq F] in
theorem evaluate_eq (p : DensePolynomial F) (r : F) : p.evaluate r = p.toPoly.eval r :=
  (eval_coeffsPoly p.coeffs r).symm

theorem Valid.natDegree {p : DensePolynomial F} (h : p.Valid) (h0 : p.isZero = false) :
    p.toPoly.natDegree = p.coeffs.length - 1 := by
  have hlast := h.resolve_left (by simp [h0])
  have hne : p.coeffs ≠ [] := by
    intro hnil
    simp [isZero, hnil] at h0
  have hpos := List.length_pos_of_ne_nil hne
  apply natDegree_eq_of_degree_eq_some
  apply le_antisymm
  · rw [degree_le_iff_coeff_zero]
    intro i hi
    have hi' : p.coeffs.length ≤ i := by
      have : p.coeffs.length - 1 < i := by exact_mod_cast hi
      omega
    rw [toPoly, coeff_coeffsPoly, List.getD_eq_default _ _ hi']
  · apply le_degree_of_ne_zero
    rw [toPoly, coeff_coeffsPoly, List.getD_eq_getElem _ _ (by omega)]
    intro hz
    apply hlast
    rw [List.getLast?_eq_getElem?, List.getElem?_eq_getElem (by omega), hz]

theorem Denotes.degree {p : DensePolynomial F} {P : F[X]} (h : p.Denotes P) :
    (p.degree : Outcome ε ℕ) = .ok P.natDegree := by
  obtain ⟨hv, rfl⟩ := h
  unfold DensePolynomial.degree
  cases h0 : p.isZero
  · have hlast := hv.resolve_left (by simp [h0])
    simp only [Bool.false_eq_true, if_false, if_neg hlast, hv.natDegree h0]
  · simp [(p.isZero_iff).mp h0]

theorem Denotes.add {p q : DensePolynomial F} {P Q : F[X]} (hp : p.Denotes P) (hq : q.Denotes Q) :
    ∃ r, (p.add q : Outcome ε _) = .ok r ∧ r.Denotes (P + Q) := by
  unfold DensePolynomial.add
  split_ifs with h0 h1
  · have hP := hp.2.symm.trans (p.isZero_iff.mp h0)
    exact ⟨q, rfl, by rwa [hP, zero_add]⟩
  · have hQ := hq.2.symm.trans (q.isZero_iff.mp h1)
    exact ⟨p, rfl, by rwa [hQ, add_zero]⟩
  · rw [hp.degree, hq.degree]
    refine ⟨_, rfl, ?_⟩
    have h := denotes_truncate (⟨coeffsAdd p.coeffs q.coeffs⟩ : DensePolynomial F)
    rwa [toPoly, coeffsPoly_coeffsAdd, ← toPoly, ← toPoly, hp.2, hq.2] at h

theorem Denotes.sub {p q : DensePolynomial F} {P Q : F[X]} (hp : p.Denotes P) (hq : q.Denotes Q) :
    ∃ r, (p.sub q : Outcome ε _) = .ok r ∧ r.Denotes (P - Q) := by
  have hneg : coeffsPoly (coeffsSmul (-1) q.coeffs) = -Q := by
    rw [coeffsPoly_coeffsSmul, ← toPoly, hq.2, C_neg, C_1, neg_one_mul]
  unfold DensePolynomial.sub
  split_ifs with h0 h1
  · have hP := hp.2.symm.trans (p.isZero_iff.mp h0)
    have h := denotes_truncate (⟨coeffsSmul (-1) q.coeffs⟩ : DensePolynomial F)
    rw [toPoly, hneg] at h
    exact ⟨_, rfl, by simpa [hP] using h⟩
  · have hQ := hq.2.symm.trans (q.isZero_iff.mp h1)
    exact ⟨_, rfl, by simpa [hQ, hp.2] using p.denotes_truncate⟩
  · rw [hp.degree, hq.degree]
    refine ⟨_, rfl, ?_⟩
    have h := denotes_truncate
      (⟨coeffsAdd p.coeffs (coeffsSmul (-1) q.coeffs)⟩ : DensePolynomial F)
    rwa [toPoly, coeffsPoly_coeffsAdd, hneg, ← toPoly, hp.2, ← sub_eq_add_neg] at h

theorem Denotes.of_sub_ok {p q r : DensePolynomial F} {P Q : F[X]} (hp : p.Denotes P)
    (hq : q.Denotes Q) (h : (p.sub q : Outcome ε _) = .ok r) : r.Denotes (P - Q) := by
  obtain ⟨r', hr, hd⟩ := hp.sub (ε := ε) hq
  rw [h] at hr
  cases hr
  exact hd

theorem Denotes.length {p : DensePolynomial F} {P : F[X]} (hp : p.Denotes P) (h0 : P ≠ 0) :
    p.coeffs.length = P.natDegree + 1 := by
  obtain ⟨hv, rfl⟩ := hp
  have hz := p.isZero_eq_false_iff.mpr h0
  have hne : p.coeffs ≠ [] := by
    intro hnil
    simp [isZero, hnil] at hz
  rw [hv.natDegree hz, Nat.sub_add_cancel (List.length_pos_of_ne_nil hne)]

theorem Denotes.of_mul_ok {S : FftField F} {p q r : DensePolynomial F} {P Q : F[X]}
    (hp : p.Denotes P) (hq : q.Denotes Q) (h : (p.mul S q : Outcome ε _) = .ok r) :
    r.Denotes (P * Q) := by
  unfold DensePolynomial.mul at h
  split_ifs at h with h0
  · obtain rfl := Except.ok.inj h
    refine ⟨Or.inl rfl, ?_⟩
    rcases Bool.or_eq_true _ _ |>.mp h0 with h0 | h0
    · simp [toPoly, hp.2.symm.trans (p.isZero_iff.mp h0)]
    · simp [toPoly, hq.2.symm.trans (q.isZero_iff.mp h0)]
  · split at h
    · cases h
    · obtain rfl := Except.ok.inj h
      have ht := denotes_truncate (⟨coeffsMul p.coeffs q.coeffs⟩ : DensePolynomial F)
      rwa [toPoly, coeffsPoly_coeffsMul, ← toPoly, ← toPoly, hp.2, hq.2] at ht

theorem Denotes.mul (S : FftField F) {p q : DensePolynomial F} {P Q : F[X]} (hp : p.Denotes P)
    (hq : q.Denotes Q) (h : P.natDegree + Q.natDegree + 1 ≤ 2 ^ S.twoAdicity) :
    ∃ r, (p.mul S q : Outcome ε _) = .ok r ∧ r.Denotes (P * Q) := by
  have hok : ∃ r, (p.mul S q : Outcome ε _) = .ok r := by
    unfold DensePolynomial.mul
    split_ifs with h0
    · exact ⟨_, rfl⟩
    · rw [Bool.or_eq_true, not_or, isZero_iff, isZero_iff, hp.2, hq.2] at h0
      rw [hp.length h0.1, hq.length h0.2]
      have hdom := radix2Domain_ne_none S
        (show P.natDegree + 1 + (Q.natDegree + 1) - 1 ≤ 2 ^ S.twoAdicity by omega)
      obtain ⟨D, hD⟩ := Option.ne_none_iff_exists'.mp hdom
      rw [hD]
      exact ⟨_, rfl⟩
  obtain ⟨r, hr⟩ := hok
  exact ⟨r, hr, hp.of_mul_ok hq hr⟩

omit [DecidableEq F] in
theorem coeffsDivMod_eq {d : List F} {lead : F} (hd : 0 < d.length) (hl : lead ≠ 0)
    (hlast : d.getD (d.length - 1) 0 = lead) (cs : List F) :
    coeffsPoly (coeffsDivMod d lead cs).1 = coeffsPoly cs / coeffsPoly d ∧
      coeffsPoly (coeffsDivMod d lead cs).2 = coeffsPoly cs % coeffsPoly d := by
  obtain ⟨heq, hlen⟩ := coeffsDivMod_spec hd hl hlast cs
  have hd0 : coeffsPoly d ≠ 0 := by
    intro h
    rw [← coeff_coeffsPoly, h, coeff_zero] at hlast
    exact hl hlast.symm
  have hdeg : (coeffsPoly (coeffsDivMod d lead cs).2).degree < (coeffsPoly d).degree := by
    refine (coeffsPoly_degree_lt _).trans_le ((Nat.cast_le.mpr hlen).trans ?_)
    apply le_degree_of_ne_zero
    rw [coeff_coeffsPoly, hlast]
    exact hl
  have hdm := EuclideanDomain.div_add_mod (coeffsPoly cs) (coeffsPoly d)
  set q := coeffsPoly (coeffsDivMod d lead cs).1
  set r := coeffsPoly (coeffsDivMod d lead cs).2
  -- two divisions with small remainders: the quotients differ by a multiple of too small a degree
  have hdiff : (q - coeffsPoly cs / coeffsPoly d) * coeffsPoly d =
      coeffsPoly cs % coeffsPoly d - r := by
    linear_combination -heq - hdm
  have hlt : (coeffsPoly cs % coeffsPoly d - r).degree < (coeffsPoly d).degree :=
    (degree_sub_le _ _).trans_lt (max_lt (degree_mod_lt _ hd0) hdeg)
  have hq : q - coeffsPoly cs / coeffsPoly d = 0 := by
    by_contra hne
    rw [← hdiff, degree_mul] at hlt
    exact absurd (le_add_of_nonneg_left (zero_le_degree_iff.mpr hne)) (not_le.mpr hlt)
  rw [hq, zero_mul] at hdiff
  exact ⟨sub_eq_zero.mp hq, (sub_eq_zero.mp hdiff.symm).symm⟩

theorem Denotes.div {p q : DensePolynomial F} {P Q : F[X]} (hp : p.Denotes P) (hq : q.Denotes Q)
    (h0 : Q ≠ 0) : ∃ r, (p.div q : Outcome ε _) = .ok r ∧ r.Denotes (P / Q) := by
  unfold DensePolynomial.div
  split_ifs with hpz hqz
  · refine ⟨_, rfl, Or.inl rfl, ?_⟩
    simp [toPoly, hp.2.symm.trans (p.isZero_iff.mp hpz)]
  · exact absurd (hq.2.symm.trans (q.isZero_iff.mp hqz)) h0
  · rw [hp.degree, hq.degree, ok_bind, ok_bind]
    split_ifs with hlt
    · refine ⟨_, rfl, Or.inl rfl, ?_⟩
      rw [(Polynomial.div_eq_zero_iff h0).mpr (degree_lt_degree hlt)]
      rfl
    · refine ⟨_, rfl, ?_⟩
      have hlen := hq.length h0
      have hlast : q.coeffs.getD (q.coeffs.length - 1) 0 = q.coeffs.getLastD 0 := by
        rw [List.getD_eq_getElem?_getD, ← List.getLast?_eq_getElem?, List.getLastD_eq_getLast?]
      have hne : q.coeffs.getLastD 0 ≠ 0 := by
        rw [← hlast, ← coeff_coeffsPoly, ← toPoly, hq.2, hlen, Nat.add_sub_cancel]
        exact leadingCoeff_ne_zero.mpr h0
      have ht := denotes_truncate
        (⟨(coeffsDivMod q.coeffs (q.coeffs.getLastD 0) p.coeffs).1⟩ : DensePolynomial F)
      rwa [toPoly, (coeffsDivMod_eq (by omega) hne hlast _).1, ← toPoly, ← toPoly, hp.2, hq.2] at ht

theorem Denotes.div_exact {p q : DensePolynomial F} {Q R : F[X]} (hp : p.Denotes (Q * R))
    (hq : q.Denotes Q) (h0 : Q ≠ 0) : ∃ r, (p.div q : Outcome ε _) = .ok r ∧ r.Denotes R := by
  have h := hp.div (ε := ε) hq h0
  rwa [mul_div_cancel_left₀ _ h0] at h

theorem denotes_divideByVanishingPoly (p : DensePolynomial F) (D : Domain F) :
    (p.divideByVanishingPoly D).1.Denotes (p.toPoly / D.vanishing) ∧
      (p.divideByVanishingPoly D).2.Denotes (p.toPoly % D.vanishing) := by
  have hv : coeffsPoly (-1 :: List.replicate (D.size - 1) 0 ++ [(1 : F)]) = D.vanishing := by
    have hz : coeffsPoly (List.replicate (D.size - 1) (0 : F)) = 0 := by
      rw [coeffsPoly_eq_zero_iff]
      intro x hx
      exact List.eq_of_mem_replicate hx
    rw [coeffsPoly_append, coeffsPoly_cons, hz]
    simp only [List.length_cons, List.length_replicate, Nat.sub_add_cancel D.size_pos,
      coeffsPoly_cons, coeffsPoly_nil, mul_zero, add_zero, C_neg, C_1, mul_one, Domain.vanishing]
    ring
  have hlen : (-1 :: List.replicate (D.size - 1) 0 ++ [(1 : F)]).length = D.size + 1 := by
    have := D.size_pos
    simp
    omega
  have hlast : (-1 :: List.replicate (D.size - 1) 0 ++ [(1 : F)]).getD
      ((-1 :: List.replicate (D.size - 1) 0 ++ [(1 : F)]).length - 1) 0 = 1 := by
    rw [hlen, ← coeff_coeffsPoly, hv, Nat.add_sub_cancel, ← D.vanishing_natDegree]
    exact D.vanishing_monic
  have h := coeffsDivMod_eq (by omega) one_ne_zero hlast p.coeffs
  rw [hv] at h
  refine ⟨?_, ?_⟩
  · have ht := denotes_truncate
      (⟨(coeffsDivMod (-1 :: List.replicate (D.size - 1) 0 ++ [1]) 1 p.coeffs).1⟩ :
        DensePolynomial F)
    rwa [toPoly, h.1] at ht
  · have ht := denotes_truncate
      (⟨(coeffsDivMod (-1 :: List.replicate (D.size - 1) 0 ++ [1]) 1 p.coeffs).2⟩ :
        DensePolynomial F)
    rwa [toPoly, h.2] at ht

theorem Denotes.remainder_isZero_iff {p : DensePolynomial F} {P : F[X]} (hp : p.Denotes P)
    (D : Domain F) : (p.divideByVanishingPoly D).2.isZero = true ↔ D.vanishing ∣ P := by
  rw [← EuclideanDomain.mod_eq_zero, isZero_iff, (denotes_divideByVanishingPoly p D).2.2, hp.2]

theorem denotes_interpolate (D : Domain F) (evals : List F) :
    (interpolate D evals).Denotes (D.interpolant fun i ↦ evals.getD i 0) := by
  have h := denotes_truncate (⟨ifft D evals⟩ : DensePolynomial F)
  rwa [toPoly, coeffsPoly_ifft] at h

end DensePolynomial

end HieroCryptography.Foundation
