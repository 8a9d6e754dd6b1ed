import HieroCryptography.Hints.Keys

namespace HieroCryptography.Hints

open Polynomial Foundation Rust DensePolynomial Kzg

variable {E : Curve}

def lagrangeNI (n i : ℕ) : Result (DensePolynomial Fr) := do
  let l ← Utils.lagrangePoly frFft n i
  okOr l (.cryptographyCatastrophe s!"Unable to compute Lagrange<n,i>(x) for i = {i}, n = {n}")

def lagrangeNJ (n j : ℕ) : Result (DensePolynomial Fr) := do
  let l ← Utils.lagrangePoly frFft n j
  okOr l (.cryptographyCatastrophe s!"Unable to compute Lagrange<n,j>(x) for j = {j}, n = {n}")

/-- The checks with which `hint_gen` and `verify_hint` both start. -/
def checkHintInput (crs : CRS E) (n i : ℕ) : Result Unit := do
  require (Utils.isNValid n) (.invalidNetworkSize n)
  require (i < n) (.invalidInput s!"Invalid index i = {i} greater than n = {n}")
  require (crsSupports crs n) (.insufficientCRS n)

def crossNumerator (n i j : ℕ) (lIOfX : DensePolynomial Fr) : Result (DensePolynomial Fr) :=
  if i = j then do
    let square ← lIOfX.mul frFft lIOfX
    square.sub lIOfX
  else do
    let lJOfX ← lagrangeNJ n j
    lJOfX.mul frFft lIOfX

/-- The polynomial of the `j`-th turn of the loops of `hint_gen` and `verify_hint`. -/
def crossTerm (n i j : ℕ) (lIOfX zOfX : DensePolynomial Fr) : Result (DensePolynomial Fr) := do
  let num ← crossNumerator n i j lIOfX
  num.div zOfX

def hintGen (crs : CRS E) (n i : ℕ) (skWithPop : SecretKey E) : Result (ExtendedPublicKey E) := do
  checkHintInput crs n i
  let sk := skWithPop.secret
  let lIOfX ← lagrangeNI n i
  let zOfX := Utils.computeVanishingPoly n
  let qzTerms ← (List.range n).mapM fun j ↦ do
    let f ← crossTerm n i j lIOfX zOfX
    commitG1 crs (Utils.polyEvalMultC f sk)
  let lIOf0Poly := Utils.computeConstantPoly (lIOfX.evaluate 0)
  let num ← lIOfX.sub lIOf0Poly
  let quotient ← num.div Utils.computeXMonomial
  let qxTermCom ← commitG1 crs (Utils.polyEvalMultC quotient sk)
  let qxTermMulTauCom ← commitG1 crs (Utils.polyEvalMultC num sk)
  let pk ← commitG1 crs (Utils.computeConstantPoly sk)
  let skTimesLIOfX := Utils.polyEvalMultC lIOfX sk
  let comSkLIG1 ← commitG1 crs skTimesLIOfX
  let comSkLIG2 ← commitG2 crs skTimesLIOfX
  .ok {
    i := i
    n := n
    pkI := pk
    pokI := skWithPop.pop
    skILIOfTauCom1 := comSkLIG1
    skILIOfTauCom2 := comSkLIG2
    qzITerms := qzTerms
    qxITerm := qxTermCom
    qxITermMulTau := qxTermMulTauCom }

/-- `HinTS::verify_hint`: an error for bad inputs, `false` for a bad hint. -/
def verifyHint (crs : CRS E) (n i : ℕ) (hint : ExtendedPublicKey E) : Result Bool := do
  checkHintInput crs n i
  checkOrReturnFalse (hint.i = i) <| checkOrReturnFalse (hint.n = n) <|
    checkOrReturnFalse (n = hint.qzITerms.length) <| checkOrReturnFalse (hint.pkI ≠ 0) <|
    checkOrReturnFalse (hint.skILIOfTauCom1 ≠ 0) <| checkOrReturnFalse (hint.skILIOfTauCom2 ≠ 0) <|
    checkOrReturnFalse (hint.qxITerm ≠ 0) <| checkOrReturnFalse (hint.qxITermMulTau ≠ 0) <|
    checkOrReturnFalse (hint.qzITerms.all (· ≠ 0)) <| do
  let pok ← verifyProofOfKnowledge hint.pokI hint.pkI
  checkOrReturnFalse pok <| do
  let lIOfX ← lagrangeNI n i
  let zOfX := Utils.computeVanishingPoly n
  let lIOfTauCom ← commitG2 crs lIOfX
  let h0 ← index crs.powersOfH 0
  let rhs := E.pairing hint.pkI lIOfTauCom
  checkOrReturnFalse (E.pairing hint.skILIOfTauCom1 h0 = rhs) <| do
  let g0 ← index crs.powersOfG 0
  checkOrReturnFalse (E.pairing g0 hint.skILIOfTauCom2 = rhs) <| do
  let crossOk ← (List.range n).allM fun j ↦ do
    let f ← crossTerm n i j lIOfX zOfX
    let fCom ← commitG2 crs f
    let qzITerm ← index hint.qzITerms j
    .ok (E.pairing qzITerm h0 = E.pairing hint.pkI fCom)
  checkOrReturnFalse crossOk <| do
  let lIOf0Poly := Utils.computeConstantPoly (lIOfX.evaluate 0)
  let num ← lIOfX.sub lIOf0Poly
  let quotient ← num.div Utils.computeXMonomial
  let qxTermCom ← commitG2 crs quotient
  checkOrReturnFalse (E.pairing hint.qxITerm h0 = E.pairing hint.pkI qxTermCom) <| do
  let qxTermMulTauCom ← commitG2 crs num
  checkOrReturnFalse (E.pairing hint.qxITermMulTau h0 = E.pairing hint.pkI qxTermMulTauCom) <|
    .ok true

/-- The elements that `verify_hint` compares with the identity. The commitment of the proof of
possession is not one of them. -/
structure ExtendedPublicKey.NoIdentity (hint : ExtendedPublicKey E) : Prop where
  pk : hint.pkI ≠ 0
  com1 : hint.skILIOfTauCom1 ≠ 0
  com2 : hint.skILIOfTauCom2 ≠ 0
  qx : hint.qxITerm ≠ 0
  qxMul : hint.qxITermMulTau ≠ 0
  qz : ∀ q ∈ hint.qzITerms, q ≠ 0

/-- A universe size with room for the arithmetic: the field has a domain of `n` points, and
one of `2 n` points for the products of two polynomials over it. -/
structure Universe (n : ℕ) where
  domain : Domain Fr
  radix2 : radix2Domain frFft n = some domain
  size : domain.size = n
  valid : Utils.isNValid n = true
  bound : 2 * n ≤ 2 ^ 32

theorem Universe.nonempty {n : ℕ} (hv : Utils.isNValid n = true) (h : n ≤ 2 ^ 31) :
    Nonempty (Universe n) := by
  obtain ⟨k, hk, rfl⟩ := Utils.isNValid_iff.mp hv
  have hk32 : k ≤ 31 := (Nat.pow_le_pow_iff_right one_lt_two).mp h
  obtain ⟨D, hD, hsize⟩ := radix2Domain_two_pow frFft (show k ≤ frFft.twoAdicity from by
    change k ≤ 32; omega)
  exact ⟨⟨D, hD, hsize, hv, by omega⟩⟩

theorem Universe.one_lt {n : ℕ} (U : Universe n) : 1 < n := Utils.one_lt_of_isNValid U.valid

/-- What the correctness of the scheme is about: a reference string made from a secret `τ`,
long enough for a universe of size `n`. -/
structure Setting (crs : CRS E) (n : ℕ) (τ : Fr) extends Universe n where
  wellFormed : WellFormed crs τ
  supports : crsSupports crs n = true

section Specs

variable {crs : CRS E} {n : ℕ} {τ : Fr}

theorem lagrangeNI_ok {D : Domain Fr} (hD : radix2Domain frFft n = some D) (hsize : D.size = n)
    (i : ℕ) : ∃ l, lagrangeNI n i = .ok l ∧ l.Denotes (D.basis i) := by
  obtain ⟨l, hl, hd⟩ := Utils.lagrangePoly_ok (ε := HinTSError) hD hsize i
  exact ⟨l, by simp [lagrangeNI, hl], hd⟩

theorem lagrangeNJ_ok (U : Universe n) (j : ℕ) :
    ∃ l, lagrangeNJ n j = .ok l ∧ l.Denotes (U.domain.basis j) := by
  obtain ⟨l, hl, hd⟩ := Utils.lagrangePoly_ok (ε := HinTSError) U.radix2 U.size j
  exact ⟨l, by simp [lagrangeNJ, hl], hd⟩

theorem Universe.mul_ok (U : Universe n) {p q : DensePolynomial Fr} {P Q : Fr[X]}
    (hp : p.Denotes P) (hq : q.Denotes Q) (hP : P.natDegree < n) (hQ : Q.natDegree < n) :
    ∃ r, (p.mul frFft q : Result _) = .ok r ∧ r.Denotes (P * Q) := by
  have hbound := U.bound
  exact hp.mul frFft hq (show _ ≤ 2 ^ 32 by omega)

theorem Universe.basis_natDegree_lt (U : Universe n) (i : ℕ) :
    (U.domain.basis i).natDegree < n := by
  have h := U.one_lt
  rw [Domain.basis_natDegree, U.size]
  omega

theorem Universe.interpolant_natDegree_lt (U : Universe n) (e : ℕ → Fr) :
    (U.domain.interpolant e).natDegree < n := by
  have h := U.domain.interpolant_natDegree_lt e
  rwa [U.size] at h

theorem Universe.denotes_vanishing (U : Universe n) :
    (Utils.computeVanishingPoly n : DensePolynomial Fr).Denotes U.domain.vanishing := by
  have h := Utils.denotes_computeVanishingPoly U.domain
  rwa [U.size] at h

theorem crossNumerator_ok (U : Universe n) {i j : ℕ} {l : DensePolynomial Fr}
    (hl : l.Denotes (U.domain.basis i)) :
    ∃ num, crossNumerator n i j l = .ok num ∧ num.Denotes
      (U.domain.basis i * U.domain.basis j - if i = j then U.domain.basis i else 0) := by
  unfold crossNumerator
  split_ifs with hij
  · subst j
    obtain ⟨sq, hsq, hsqd⟩ := U.mul_ok hl hl (U.basis_natDegree_lt i) (U.basis_natDegree_lt i)
    rw [hsq, ok_bind]
    exact hsqd.sub hl
  · obtain ⟨lj, hlj, hljd⟩ := lagrangeNJ_ok U j
    rw [hlj, ok_bind, sub_zero, mul_comm]
    exact U.mul_ok hljd hl (U.basis_natDegree_lt j) (U.basis_natDegree_lt i)

theorem crossTerm_ok (U : Universe n) {i j : ℕ} {l : DensePolynomial Fr}
    (hl : l.Denotes (U.domain.basis i)) :
    ∃ f, crossTerm n i j l (Utils.computeVanishingPoly n) = .ok f ∧
      f.Denotes (U.domain.cross i j) := by
  obtain ⟨num, hnum, hnumd⟩ := crossNumerator_ok U (j := j) hl
  unfold crossTerm
  rw [hnum, ok_bind]
  exact hnumd.div U.denotes_vanishing U.domain.vanishing_monic.ne_zero

theorem qxTerms_ok {l : DensePolynomial Fr} {L : Fr[X]} (hl : l.Denotes L) :
    ∃ num quotient : DensePolynomial Fr,
      (l.sub (Utils.computeConstantPoly (l.evaluate 0)) : Result _) = .ok num ∧
      (num.div Utils.computeXMonomial : Result _) = .ok quotient ∧
      num.Denotes (L.divX * X) ∧ quotient.Denotes L.divX := by
  have hconst := Utils.denotes_computeConstantPoly (l.evaluate 0)
  obtain ⟨num, hnum, hnumd⟩ := hl.sub (ε := HinTSError) hconst
  have hpoly : L - C (l.evaluate 0) = X * L.divX := by
    rw [evaluate_eq, hl.2, ← coeff_zero_eq_eval_zero, sub_eq_iff_eq_add, X_mul, divX_mul_X_add]
  rw [hpoly] at hnumd
  obtain ⟨quotient, hq, hqd⟩ := hnumd.div_exact (ε := HinTSError)
    Utils.denotes_computeXMonomial X_ne_zero
  exact ⟨num, quotient, hnum, hq, X_mul (p := L.divX) ▸ hnumd, hqd⟩

namespace Setting

variable (S : Setting crs n τ)

include S

theorem checkHintInput_ok {i : ℕ} (hi : i < n) : checkHintInput crs n i = .ok () := by
  simp [checkHintInput, S.valid, hi, S.supports]

theorem commitG1_ok {p : DensePolynomial Fr} {P : Fr[X]} (hp : p.Denotes P)
    (h : P.natDegree ≤ n) : commitG1 crs p = .ok (P.eval τ • E.g) :=
  commit_ok S.wellFormed.g hp (h.trans_lt (crsSupports_iff.mp S.supports).1)

theorem commitG2_ok {p : DensePolynomial Fr} {P : Fr[X]} (hp : p.Denotes P)
    (h : P.natDegree ≤ n) : commitG2 crs p = .ok (P.eval τ • E.h) :=
  commit_ok S.wellFormed.h hp (h.trans_lt (crsSupports_iff.mp S.supports).2)

theorem index_powersOfG : (index crs.powersOfG 0 : Result E.G1) = .ok E.g :=
  index_of_getElem? (S.wellFormed.g.head (by have := crsSupports_iff.mp S.supports; omega))

theorem index_powersOfH : (index crs.powersOfH 0 : Result E.G2) = .ok E.h :=
  index_of_getElem? (S.wellFormed.h.head (by have := crsSupports_iff.mp S.supports; omega))

theorem index_powersOfH_one : (index crs.powersOfH 1 : Result E.G2) = .ok (τ • E.h) :=
  index_of_getElem? (S.wellFormed.h.second (by
    have := crsSupports_iff.mp S.supports
    have := S.one_lt
    omega))

theorem cross_natDegree_le (i j : ℕ) : (S.domain.cross i j).natDegree ≤ n := by
  have h := S.domain.cross_natDegree_lt i j
  rw [S.size] at h
  exact h.le

theorem divX_natDegree_le (i : ℕ) : (S.domain.basis i).divX.natDegree ≤ n :=
  natDegree_divX_le.trans (S.basis_natDegree_lt i).le

theorem divX_mul_X_natDegree_le (i : ℕ) : ((S.domain.basis i).divX * X).natDegree ≤ n := by
  refine natDegree_mul_le.trans ?_
  have h := S.basis_natDegree_lt i
  rw [natDegree_divX_eq_natDegree_tsub_one, natDegree_X]
  omega

/-- Every element of a hint is the one computed from the secret key `s`. -/
structure HonestHint (i : ℕ) (s : Fr) (hint : ExtendedPublicKey E) : Prop where
  index : hint.i = i
  size : hint.n = n
  pk : hint.pkI = s • E.g
  com1 : hint.skILIOfTauCom1 = ((S.domain.basis i).eval τ * s) • E.g
  com2 : hint.skILIOfTauCom2 = (s * (S.domain.basis i).eval τ) • E.h
  qz : hint.qzITerms = (List.range n).map fun j ↦ ((S.domain.cross i j).eval τ * s) • E.g
  qx : hint.qxITerm = ((S.domain.basis i).divX.eval τ * s) • E.g
  qxMul : hint.qxITermMulTau = ((S.domain.basis i).divX.eval τ * τ * s) • E.g

theorem hintGen_ok {i : ℕ} (hi : i < n) (sk : SecretKey E) :
    ∃ hint, hintGen crs n i sk = .ok hint ∧ S.HonestHint i sk.secret hint ∧
      hint.pokI = sk.pop := by
  obtain ⟨l, hl, hld⟩ := lagrangeNI_ok S.radix2 S.size i
  obtain ⟨num, quotient, hnum, hquot, hnumd, hquotd⟩ := qxTerms_ok hld
  have hqz : ((List.range n).mapM fun j ↦ do
      let f ← crossTerm n i j l (Utils.computeVanishingPoly n)
      commitG1 crs (Utils.polyEvalMultC f sk.secret)) =
      .ok ((List.range n).map fun j ↦ ((S.domain.cross i j).eval τ * sk.secret) • E.g) := by
    refine mapM_ok_of_forall fun j _ ↦ ?_
    obtain ⟨f, hf, hfd⟩ := crossTerm_ok S.toUniverse (j := j) hld
    rw [hf, ok_bind, S.commitG1_ok (Utils.denotes_polyEvalMultC hfd _)
      ((natDegree_C_mul_le _ _).trans (S.cross_natDegree_le i j))]
    rw [eval_mul, eval_C, mul_comm]
  have hqx := S.commitG1_ok (Utils.denotes_polyEvalMultC hquotd sk.secret)
    ((natDegree_C_mul_le _ _).trans (S.divX_natDegree_le i))
  have hqxMul := S.commitG1_ok (Utils.denotes_polyEvalMultC hnumd sk.secret)
    ((natDegree_C_mul_le _ _).trans (S.divX_mul_X_natDegree_le i))
  have hpk := S.commitG1_ok (Utils.denotes_computeConstantPoly sk.secret)
    ((natDegree_C _).le.trans (Nat.zero_le _))
  have hbasis := (natDegree_C_mul_le sk.secret _).trans (S.basis_natDegree_lt i).le
  have hcom1 := S.commitG1_ok (Utils.denotes_polyEvalMultC hld sk.secret) hbasis
  have hcom2 := S.commitG2_ok (Utils.denotes_polyEvalMultC hld sk.secret) hbasis
  rw [eval_C] at hpk
  rw [eval_mul, eval_C] at hcom2
  rw [eval_mul, eval_C, mul_comm] at hqx hcom1
  rw [eval_mul, eval_C, mul_comm, eval_mul, eval_X] at hqxMul
  unfold hintGen
  simp only [S.checkHintInput_ok hi, hl, hqz, hnum, hquot, hqx, hqxMul, hpk, hcom1, hcom2, ok_bind]
  exact ⟨_, rfl, ⟨rfl, rfl, rfl, rfl, rfl, rfl, rfl, rfl⟩, rfl⟩

theorem crossChecks_ok_true_iff {i : ℕ} {l : DensePolynomial Fr} {hint : ExtendedPublicKey E}
    (hl : l.Denotes (S.domain.basis i)) (hlen : n = hint.qzITerms.length) :
    ((List.range n).allM fun j ↦ do
      let f ← crossTerm n i j l (Utils.computeVanishingPoly n)
      let fCom ← commitG2 crs f
      let qzITerm ← index hint.qzITerms j
      (.ok (E.pairing qzITerm E.h = E.pairing hint.pkI fCom) : Result Bool)) = .ok true ↔
      hint.qzITerms = (List.range n).map fun j ↦ (S.domain.cross i j).eval τ • hint.pkI := by
  have hstep (j : ℕ) : (do
      let f ← crossTerm n i j l (Utils.computeVanishingPoly n)
      let fCom ← commitG2 crs f
      let qzITerm ← index hint.qzITerms j
      (.ok (E.pairing qzITerm E.h = E.pairing hint.pkI fCom) : Result Bool)) = .ok true ↔
      hint.qzITerms[j]? = some ((S.domain.cross i j).eval τ • hint.pkI) := by
    obtain ⟨f, hf, hfd⟩ := crossTerm_ok S.toUniverse (j := j) hl
    rw [hf, ok_bind, S.commitG2_ok hfd (S.cross_natDegree_le i j), ok_bind, bind_ok_iff]
    simp only [index_ok_iff, Except.ok.injEq, decide_eq_true_eq, E.pairing_h_eq_iff,
      exists_eq_right]
  rw [allM_ok_true_iff]
  simp only [hstep, List.mem_range]
  constructor
  · intro h
    apply List.ext_getElem?
    intro j
    by_cases hj : j < n
    · rw [h j hj]
      simp [hj]
    · rw [List.getElem?_eq_none (by omega), List.getElem?_eq_none (by simpa using hj)]
  · intro h j hj
    rw [h]
    simp [hj]

theorem verifyHint_ok_true_iff {i : ℕ} (hi : i < n) (hint : ExtendedPublicKey E) :
    verifyHint crs n i hint = .ok true ↔ hint.NoIdentity ∧
      verifyProofOfKnowledge hint.pokI hint.pkI = .ok true ∧ ∃ s, S.HonestHint i s hint := by
  obtain ⟨l, hl, hld⟩ := lagrangeNI_ok S.radix2 S.size i
  obtain ⟨num, quotient, hnum, hquot, hnumd, hquotd⟩ := qxTerms_ok hld
  have hli := S.commitG2_ok hld (S.basis_natDegree_lt i).le
  have hqx := S.commitG2_ok hquotd (S.divX_natDegree_le i)
  have hqxMul := S.commitG2_ok hnumd (S.divX_mul_X_natDegree_le i)
  obtain ⟨s, hs⟩ := E.g_spans hint.pkI
  unfold verifyHint
  simp only [S.checkHintInput_ok hi, hl, hnum, hquot, hli, hqx, hqxMul, S.index_powersOfG,
    S.index_powersOfH, ok_bind, checkOrReturnFalse_ok_true_iff, decide_eq_true_eq,
    bind_ok_iff, List.all_eq_true, E.pairing_h_eq_iff]
  constructor
  · rintro ⟨rfl, rfl, hlen, hpk, hcom1, hcom2, hqx, hqxMul, hqz, ok, hpok, rfl, h1, h2, ok', hcross,
      rfl, h3, h4, -⟩
    refine ⟨⟨hpk, hcom1, hcom2, hqx, hqxMul, hqz⟩, hpok, s, rfl, rfl, hs.symm, ?_, ?_, ?_, ?_, ?_⟩
    · rw [h1, ← hs, smul_smul]
    · rwa [← hs, E.pairing_g_eq_iff] at h2
    · rw [(S.crossChecks_ok_true_iff hld hlen).mp hcross]
      simp only [← hs, smul_smul]
    · rw [h3, ← hs, smul_smul]
    · rw [h4, ← hs, smul_smul, eval_mul, eval_X]
  · rintro ⟨⟨hpk, hcom1, hcom2, hqx, hqxMul, hqz⟩, hpok, s', hh⟩
    obtain rfl : s' = s := by rw [← E.smul_g_inj, hs, hh.pk]
    have hlen : n = hint.qzITerms.length := by simp [hh.qz]
    refine ⟨hh.index, hh.size, hlen, hpk, hcom1, hcom2, hqx, hqxMul, hqz, true, hpok, rfl, ?_, ?_,
      true, ?_, rfl, ?_, ?_, trivial⟩
    · rw [hh.com1, hh.pk, smul_smul]
    · rw [hh.pk, E.pairing_g_eq_iff, hh.com2]
    · rw [S.crossChecks_ok_true_iff hld hlen, hh.qz]
      simp only [hh.pk, smul_smul]
    · rw [hh.qx, hh.pk, smul_smul]
    · rw [hh.qxMul, hh.pk, smul_smul, eval_mul, eval_X]

/-- The values of the secret for which some honest hint has an identity element. -/
def Degenerate (i : ℕ) : Prop :=
  τ = 0 ∨ τ ^ n = 1 ∨ (S.domain.basis i).eval τ = 1 ∨ (S.domain.basis i).eval τ = 1 / n

theorem eval_basis_ne_zero (hτ : τ ^ n ≠ 1) (i : ℕ) : (S.domain.basis i).eval τ ≠ 0 := by
  intro h
  have heq := congrArg (eval τ) (S.domain.sub_mul_basis i)
  rw [eval_mul, h, mul_zero, eval_mul, eval_C, S.domain.eval_vanishing, S.size] at heq
  have hnode := div_ne_zero (S.domain.node_ne_zero i) S.domain.size_ne_zero
  rw [S.size] at hnode
  exact (mul_ne_zero hnode (sub_ne_zero.mpr hτ)) heq.symm

theorem eval_cross_ne_zero {i j : ℕ} (hi : i < n) (hj : j < n) (h : ¬ S.Degenerate i) :
    (S.domain.cross i j).eval τ ≠ 0 := by
  simp only [Degenerate, not_or] at h
  obtain ⟨-, hτ, h1, -⟩ := h
  have heq := congrArg (eval τ) (S.domain.vanishing_mul_cross (i := i) (j := j)
    (by rwa [S.size]) (by rwa [S.size]))
  intro h0
  rw [eval_mul, h0, mul_zero, eval_sub, eval_mul] at heq
  have hbi := S.eval_basis_ne_zero hτ i
  have hbj := S.eval_basis_ne_zero hτ j
  by_cases hij : i = j
  · subst j
    rw [if_pos rfl, eq_comm, sub_eq_zero] at heq
    exact h1 (mul_left_cancel₀ hbi (heq.trans (mul_one _).symm))
  · rw [if_neg hij, eval_zero, sub_zero] at heq
    exact mul_ne_zero hbi hbj heq.symm

omit S in
theorem HonestHint.noIdentity {S : Setting crs n τ} {i : ℕ} {s : Fr} {hint : ExtendedPublicKey E}
    (hh : S.HonestHint i s hint) (hi : i < n) (hs : s ≠ 0) (h : ¬ S.Degenerate i) :
    hint.NoIdentity := by
  have h' := h
  simp only [Degenerate, not_or] at h'
  obtain ⟨h0, hτ, -, hn⟩ := h'
  have hbasis := S.eval_basis_ne_zero hτ i
  have hdivX : (S.domain.basis i).divX.eval τ ≠ 0 := by
    intro hz
    have heq := congrArg (eval τ) (divX_mul_X_add (S.domain.basis i))
    rw [coeff_zero_eq_eval_zero, S.domain.eval_zero_basis, eval_add, eval_mul, hz, zero_mul,
      zero_add, eval_C, S.size] at heq
    exact hn heq.symm
  constructor
  · rw [hh.pk, ne_eq, E.smul_g_eq_zero]
    exact hs
  · rw [hh.com1, ne_eq, E.smul_g_eq_zero]
    exact mul_ne_zero hbasis hs
  · rw [hh.com2, ne_eq, E.smul_h_eq_zero]
    exact mul_ne_zero hs hbasis
  · rw [hh.qx, ne_eq, E.smul_g_eq_zero]
    exact mul_ne_zero hdivX hs
  · rw [hh.qxMul, ne_eq, E.smul_g_eq_zero]
    exact mul_ne_zero (mul_ne_zero hdivX h0) hs
  · intro q hq
    rw [hh.qz] at hq
    obtain ⟨j, hj, rfl⟩ := List.mem_map.mp hq
    rw [ne_eq, E.smul_g_eq_zero]
    exact mul_ne_zero (S.eval_cross_ne_zero hi (List.mem_range.mp hj) h) hs

theorem hintGen_verifies {i : ℕ} (hi : i < n) (sk : SecretKey E) (hs : sk.secret ≠ 0)
    (hpop : verifyProofOfKnowledge sk.pop (sk.secret • E.g) = .ok true) (h : ¬ S.Degenerate i) :
    ∃ hint, hintGen crs n i sk = .ok hint ∧ S.HonestHint i sk.secret hint ∧
      verifyHint crs n i hint = .ok true := by
  obtain ⟨hint, hgen, hh, hpok⟩ := S.hintGen_ok hi sk
  refine ⟨hint, hgen, hh, (S.verifyHint_ok_true_iff hi hint).mpr ⟨hh.noIdentity hi hs h, ?_, _, hh⟩⟩
  rw [hpok, hh.pk]
  exact hpop

omit S in
theorem HonestHint.eq {S : Setting crs n τ} {i : ℕ} {s : Fr} {hint honest : ExtendedPublicKey E}
    (hh : S.HonestHint i s hint) (hgen : S.HonestHint i s honest) :
    hint = { honest with pokI := hint.pokI } := by
  cases hint
  cases honest
  simp only [ExtendedPublicKey.mk.injEq, true_and]
  exact ⟨hh.index.trans hgen.index.symm, hh.size.trans hgen.size.symm, hh.pk.trans hgen.pk.symm,
    hh.com1.trans hgen.com1.symm, hh.com2.trans hgen.com2.symm, hh.qz.trans hgen.qz.symm,
    hh.qx.trans hgen.qx.symm, hh.qxMul.trans hgen.qxMul.symm⟩

end Setting

end Specs

/-- The hints that are accepted are those that `hint_gen` makes, with any proof of possession
that verifies. -/
theorem verify_hint_iff_generated {k : ℕ} (hk : 1 ≤ k) (hk' : k ≤ 31) {crs : CRS E} {τ : Fr}
    (hcrs : WellFormed crs τ) (hg : 2 ^ k < crs.powersOfG.length)
    (hh : 2 ^ k < crs.powersOfH.length) {i : ℕ} (hi : i < 2 ^ k) (hint : ExtendedPublicKey E) :
    verifyHint crs (2 ^ k) i hint = .ok true ↔
      verifyProofOfKnowledge hint.pokI hint.pkI = .ok true ∧
      (∀ sk : SecretKey E, hint.pkI = sk.secret • E.g →
        ∃ honest, hintGen crs (2 ^ k) i sk = .ok honest ∧
          hint = { honest with pokI := hint.pokI }) ∧
      hint.NoIdentity := by
  obtain ⟨U⟩ := Universe.nonempty (Utils.isNValid_iff.mpr ⟨k, hk, rfl⟩)
    (Nat.pow_le_pow_right two_pos hk')
  let S : Setting crs (2 ^ k) τ := ⟨U, hcrs, crsSupports_iff.mpr ⟨hg, hh⟩⟩
  rw [S.verifyHint_ok_true_iff hi hint]
  constructor
  · rintro ⟨hid, hpok, s, hs⟩
    refine ⟨hpok, fun sk hsk ↦ ?_, hid⟩
    obtain rfl : s = sk.secret := E.smul_g_inj.mp (hs.pk.symm.trans hsk)
    obtain ⟨honest, hgen, hhonest, -⟩ := S.hintGen_ok hi sk
    exact ⟨honest, hgen, hs.eq hhonest⟩
  · rintro ⟨hpok, hall, hid⟩
    obtain ⟨s, hs⟩ := E.g_spans hint.pkI
    obtain ⟨honest, hgen, heq⟩ := hall ⟨s, hint.pokI⟩ hs.symm
    obtain ⟨honest', hgen', hhonest, -⟩ := S.hintGen_ok hi ⟨s, hint.pokI⟩
    obtain rfl : honest = honest' := Except.ok.inj (hgen.symm.trans hgen')
    refine ⟨hid, hpok, s, ?_⟩
    rw [heq]
    exact ⟨hhonest.index, hhonest.size, hhonest.pk, hhonest.com1, hhonest.com2, hhonest.qz,
      hhonest.qx, hhonest.qxMul⟩

theorem Setting.not_degenerate_four {crs : CRS E} (S : Setting crs (2 ^ 2) 2) (i : ℕ) :
    ¬ S.Degenerate i := by
  have hsize := S.size
  have hbasis := congrArg (eval 2) (S.domain.sub_mul_basis i)
  have hnode := S.domain.node_pow_size i
  simp only [eval_mul, eval_sub, eval_X, eval_C, S.domain.eval_vanishing, hsize] at hbasis hnode
  have h4 : ((2 ^ 2 : ℕ) : Fr) ≠ 0 := by decide +kernel
  -- the slot's point would be a fraction whose fourth power is not one
  have hfraction {a b : Fr} (hpow : b ^ 2 ^ 2 ≠ a ^ 2 ^ 2) (h : b = a * S.domain.node i) : False :=
    hpow (by rw [h, mul_pow, hnode, mul_one])
  rintro (h | h | h | h)
  · exact absurd h (by decide +kernel)
  · exact absurd h (by decide +kernel)
  · rw [h] at hbasis
    refine hfraction (a := 19) (b := 8) (by decide +kernel) ?_
    field_simp at hbasis
    push_cast at hbasis
    linear_combination hbasis
  · rw [h] at hbasis
    refine hfraction (a := 16) (b := 2) (by decide +kernel) ?_
    field_simp at hbasis
    linear_combination hbasis

def powersOfTwo : CRS scalarCurve where
  powersOfG := (List.range 5).map fun j ↦ (2 : Fr) ^ j • scalarCurve.g
  powersOfH := (List.range 5).map fun j ↦ (2 : Fr) ^ j • scalarCurve.h

theorem exists_powersOfTwo : Nonempty (Setting powersOfTwo (2 ^ 2) 2) := by
  obtain ⟨U⟩ := Universe.nonempty (n := 2 ^ 2) (by decide) (by decide)
  exact ⟨⟨U, ⟨isTower_map_range _ _ _, isTower_map_range _ _ _⟩, by decide⟩⟩

theorem exists_registered_parties :
    ∃ (S : Setting powersOfTwo (2 ^ 2) 2) (hint : ℕ → ExtendedPublicKey scalarCurve),
      ∀ i < 2, S.HonestHint i (i + 1) (hint i) ∧
        verifyHint powersOfTwo (2 ^ 2) i (hint i) = .ok true := by
  obtain ⟨S⟩ := exists_powersOfTwo
  have hparty (i : ℕ) : ∃ hint, i < 2 → S.HonestHint i (i + 1) hint ∧
      verifyHint powersOfTwo (2 ^ 2) i hint = .ok true := by
    by_cases hi : i < 2
    · have hkey : (i : Fr) + 1 ≠ 0 := by interval_cases i <;> decide +kernel
      obtain ⟨pop, -, hpop⟩ := generateProofOfKnowledge_ok scalarCurve (i + 1) []
      obtain ⟨hint, -, hh, hver⟩ := S.hintGen_verifies (i := i) (by omega) ⟨i + 1, pop⟩ hkey hpop
        (S.not_degenerate_four i)
      exact ⟨hint, fun _ ↦ ⟨hh, hver⟩⟩
    · exact ⟨⟨0, 0, 0, ⟨0, 0, 0⟩, 0, 0, [], 0, 0⟩, fun h ↦ absurd h hi⟩
  choose hint hhint using hparty
  exact ⟨S, hint, hhint⟩

theorem verify_hint_iff_generated_second : ∃ hint honest : ExtendedPublicKey scalarCurve,
    verifyHint powersOfTwo (2 ^ 2) 1 hint = .ok true ∧
      hintGen powersOfTwo (2 ^ 2) 1 ⟨2, hint.pokI⟩ = .ok honest ∧
      hint = { honest with pokI := hint.pokI } := by
  obtain ⟨S, hint, hhint⟩ := exists_registered_parties
  obtain ⟨hh, hver⟩ := hhint 1 one_lt_two
  rw [Nat.cast_one, one_add_one_eq_two] at hh
  obtain ⟨-, hall, -⟩ := (verify_hint_iff_generated (k := 2) one_le_two (by decide) S.wellFormed
    (by decide) (by decide) (by decide) (hint 1)).mp hver
  obtain ⟨honest, hgen, heq⟩ := hall ⟨2, (hint 1).pokI⟩ hh.pk
  exact ⟨hint 1, honest, hver, hgen, heq⟩

/-- With the nonce zero the commitment of the proof of possession is the identity, and the hint is
accepted all the same. -/
theorem verify_hint_accepts_identity : ∃ hint : ExtendedPublicKey scalarCurve,
    verifyHint powersOfTwo (2 ^ 2) 1 hint = .ok true ∧ hint.pokI.commitment = 0 := by
  obtain ⟨S⟩ := exists_powersOfTwo
  obtain ⟨c, hc⟩ : ∃ c, proofOfKnowledgeRandomOracle scalarCurve.g
      ((2 : Fr) • scalarCurve.g) 0 = .ok c := ⟨_, rfl⟩
  let pop : ProofOfPossesion scalarCurve := ⟨0, c, c * 2⟩
  have hpop : verifyProofOfKnowledge pop ((2 : Fr) • scalarCurve.g) = .ok true := by
    simp [verifyProofOfKnowledge, pop, hc, mul_smul]
  obtain ⟨hint, hgen, -, hver⟩ := S.hintGen_verifies (i := 1) (by decide) ⟨2, pop⟩
    (show (2 : Fr) ≠ 0 by decide +kernel) hpop (S.not_degenerate_four 1)
  obtain ⟨honest, hgen', -, hpok⟩ := S.hintGen_ok (i := 1) (by decide) ⟨2, pop⟩
  obtain rfl : hint = honest := Except.ok.inj (hgen.symm.trans hgen')
  exact ⟨hint, hver, by rw [hpok]⟩

end HieroCryptography.Hints
