import HieroCryptography.Hints.Aggregate

namespace HieroCryptography.Hints

open Polynomial Foundation Rust Kzg

variable {E : Curve}

def mergeScalars (values : List Fr) (χ : Fr) : Fr :=
  values.reverse.foldl (fun acc v ↦ acc * χ + v) 0

def mergePoints (points : List E.G1) (χ : Fr) : E.G1 :=
  points.reverse.foldl (fun acc p ↦ χ • acc + p) 0

def verifyOpening (vp : VerificationKey E) (commitment : E.G1) (point evaluation : Fr)
    (openingProof : E.G1) : Bool :=
  let evalCom := evaluation • vp.g0
  let pointCom := point • vp.h0
  E.pairing (commitment - evalCom) vp.h0 = E.pairing openingProof (vp.h1 - pointCom)

def blsCheck (msg : Bytes) (vk : VerificationKey E) (π : ThresholdSignature E) : Result Bool := do
  let h ← hashToG2 E msg
  .ok (E.pairing π.aggPk h = E.pairing vk.g0 π.aggSig)

/-- `L_{n-1}(r)` as `merged_relation_check` computes it, with no polynomial in sight. -/
def lNMinus1OfR (n : ℕ) (ω r : Fr) : Result Fr := do
  let last ← usizeSub n 1
  let ωPowNMinus1 := ω ^ last
  let scale ← fieldDiv ωPowNMinus1 (n : Fr)
  let quotient ← fieldDiv (r ^ n - 1) (r - ωPowNMinus1)
  .ok (scale * quotient)

def relationsAt (π : ThresholdSignature E) (lNMinus1OfR : Fr) : List Fr :=
  let p1 := π.parsumOfR - π.parsumOfRDivω - (π.wOfR - π.aggWeight * lNMinus1OfR) * π.bOfR
  let p2 := π.bOfR * π.bOfR - π.bOfR
  let p3 := lNMinus1OfR * π.parsumOfR
  let p4 := lNMinus1OfR * (π.bOfR - 1)
  [p1, p2, p3, p4]

/-- The merged relation at `r`. It fails on the domain, where the division would panic. -/
def mergedRelationCheck (vk : VerificationKey E) (π : ThresholdSignature E) (ω χq r : Fr) :
    Result Bool :=
  let vanishingOfR := r ^ vk.n - 1
  checkOrReturnFalse (vanishingOfR ≠ 0) <| do
  let l ← lNMinus1OfR vk.n ω r
  .ok (mergeScalars (relationsAt π l) χq = π.qMrgOfR * vanishingOfR)

def openingAtRCheck (vk : VerificationKey E) (π : ThresholdSignature E) (r χop : Fr) : Bool :=
  let qOfTauCom := mergePoints [π.qMrgOfTauCom, π.parsumOfTauCom, π.bOfTauCom, vk.wOfTauCom] χop
  let qOfR := mergeScalars [π.qMrgOfR, π.parsumOfR, π.bOfR, π.wOfR] χop
  verifyOpening vk qOfTauCom r qOfR π.openingProofR

def openingAtRDivωCheck (vk : VerificationKey E) (π : ThresholdSignature E) (rDivω : Fr) : Bool :=
  verifyOpening vk π.parsumOfTauCom rDivω π.parsumOfRDivω π.openingProofRDivω

def sumcheckCheck (vk : VerificationKey E) (π : ThresholdSignature E) (eQxTau : E.GT) : Bool :=
  let lhs := E.pairing π.bOfTauCom vk.skOfTauCom
  let x1 := E.pairing π.qzOfTauCom vk.zOfTauCom
  let x3 := E.pairing π.aggPk vk.h0
  lhs = x1 + eQxTau + x3

def degreeCheck (vk : VerificationKey E) (π : ThresholdSignature E) (eQxTau : E.GT) : Bool :=
  eQxTau = E.pairing π.qxOfTauMulTauCom vk.h0

/-- Whether the weight exceeds the fraction of the total, compared as field elements. -/
def exceedsThreshold (vk : VerificationKey E) (aggWeight : Fr) (fraction : Fr × Fr) : Bool :=
  (fraction.2 * aggWeight).gt (fraction.1 * vk.totalWeight)

def verify (msg : Bytes) (vk : VerificationKey E) (π : ThresholdSignature E)
    (fraction : Fr × Fr) : Result Bool :=
  checkOrReturnFalse (Utils.isNValid vk.n) <| checkOrReturnFalse (π.aggPk ≠ 0) <|
    checkOrReturnFalse (π.aggSig ≠ 0) <|
    checkOrReturnFalse (exceedsThreshold vk π.aggWeight fraction) <| do
  let bls ← blsCheck msg vk π
  checkOrReturnFalse bls <| do
  let ω ← okOr (Utils.nthRootOfUnity frFft vk.n) (.cryptographyCatastrophe
    s!"Unable to construct Radix2EvaluationDomain for n = {vk.n}")
  let (χq, r, χop) ← deriveChallenges vk π
  let merged ← mergedRelationCheck vk π ω χq r
  checkOrReturnFalse merged <| checkOrReturnFalse (openingAtRCheck vk π r χop) <| do
  let rDivω ← fieldDiv r ω
  checkOrReturnFalse (openingAtRDivωCheck vk π rDivω) <|
  let eQxTau := E.pairing π.qxOfTauCom vk.h1
  checkOrReturnFalse (sumcheckCheck vk π eQxTau) <|
    checkOrReturnFalse (degreeCheck vk π eQxTau) <| .ok true

theorem mergeScalars_eq_horner (values : List Fr) (χ : Fr) :
    mergeScalars values χ = horner χ values :=
  foldl_reverse_eq_horner χ values _ fun acc v ↦ by rw [smul_eq_mul, mul_comm]

theorem mergePoints_eq_horner (points : List E.G1) (χ : Fr) :
    mergePoints points χ = horner χ points :=
  foldl_reverse_eq_horner χ points _ fun _ _ ↦ rfl

theorem eval_horner (χ r : Fr) (Ps : List Fr[X]) :
    (horner χ Ps).eval r = horner χ (Ps.map (eval r)) :=
  map_horner (leval r) χ Ps

theorem horner_smul_g (χ : Fr) (xs : List Fr) :
    horner χ (xs.map fun x ↦ x • E.g) = horner χ xs • E.g :=
  (map_horner (LinearMap.toSpanSingleton Fr E.G1 E.g) χ xs).symm

structure Evaluations (D : Domain Fr) (W PS B Q : Fr[X]) (r : Fr) (π : ThresholdSignature E) :
    Prop where
  parsumOfR : π.parsumOfR = PS.eval r
  parsumOfRDivω : π.parsumOfRDivω = PS.eval (r / D.groupGen)
  wOfR : π.wOfR = W.eval r
  bOfR : π.bOfR = B.eval r
  qMrgOfR : π.qMrgOfR = Q.eval r

theorem Proved.evaluations {crs : CRS E} {n : ℕ} {τ : Fr} {S : Setting crs n τ}
    {vk : VerificationKey E} {witness : Witness E} {W PS B Q : Fr[X]} {χq r χop : Fr}
    {π : ThresholdSignature E} (h : Proved S vk witness W PS B Q χq r χop π) :
    Evaluations S.domain W PS B Q r π :=
  ⟨h.parsumOfR, h.parsumOfRDivω, h.wOfR, h.bOfR, h.qMrgOfR⟩

theorem mergedRelationCheck_on_domain {vk : VerificationKey E} {r : Fr} (hr : r ^ vk.n = 1)
    (π : ThresholdSignature E) (ω χ : Fr) : mergedRelationCheck vk π ω χ r = .ok false := by
  simp [mergedRelationCheck, hr]

theorem lNMinus1OfR_ok (D : Domain Fr) {r : Fr} (hr : r ^ D.size ≠ 1) :
    lNMinus1OfR D.size D.groupGen r = .ok ((D.basis (D.size - 1)).eval r) := by
  have hnode : r - D.groupGen ^ (D.size - 1) ≠ 0 := by
    intro h0
    exact hr (sub_eq_zero.mp h0 ▸ D.node_pow_size (D.size - 1))
  unfold lNMinus1OfR
  simp only [usizeSub_of_le (Nat.succ_le_of_lt D.size_pos), fieldDiv_of_ne _ D.size_ne_zero,
    fieldDiv_of_ne _ hnode, ok_bind]
  rw [D.eval_basis_of_pow_ne hr, Domain.node]

theorem mergedRelationCheck_off_domain {D : Domain Fr} {vk : VerificationKey E}
    (hvk : vk.n = D.size) {r : Fr} (hr : r ^ D.size ≠ 1) (π : ThresholdSignature E) (χ : Fr) :
    mergedRelationCheck vk π D.groupGen χ r =
      .ok (decide (horner χ (relationsAt π ((D.basis (D.size - 1)).eval r)) =
        π.qMrgOfR * (r ^ D.size - 1))) := by
  have hr' : r ^ D.size - 1 ≠ 0 := sub_ne_zero.mpr hr
  rw [mergedRelationCheck, hvk, decide_eq_true hr', checkOrReturnFalse_true,
    lNMinus1OfR_ok D hr, ok_bind, mergeScalars_eq_horner]

/-- On true evaluations the check compares the merged polynomial with the claimed quotient
times the vanishing polynomial, at one point off the domain. -/
theorem mergedRelationCheck_eq {D : Domain Fr} {vk : VerificationKey E} (hvk : vk.n = D.size)
    {W PS B Q : Fr[X]} {χ r : Fr} {π : ThresholdSignature E} (h : Evaluations D W PS B Q r π) :
    mergedRelationCheck vk π D.groupGen χ r = .ok (decide (r ^ D.size ≠ 1 ∧
      (Relations.merged D W PS B π.aggWeight χ).eval r = (Q * D.vanishing).eval r)) := by
  by_cases hr : r ^ D.size = 1
  · rw [mergedRelationCheck_on_domain (hvk ▸ hr)]
    simp [hr]
  rw [mergedRelationCheck_off_domain hvk hr, Relations.merged, eval_horner, eval_mul,
    D.eval_vanishing]
  simp only [List.map_cons, List.map_nil, Relations.eval_p1, Relations.eval_p2, Relations.eval_p3,
    Relations.eval_p4, relationsAt, h.parsumOfR, h.parsumOfRDivω, h.wOfR, h.bOfR, h.qMrgOfR,
    ne_eq, hr, not_false_eq_true, true_and]

theorem verifyOpening_quotient_iff {vk : VerificationKey E} {τ : Fr} (hg0 : vk.g0 = E.g)
    (hh0 : vk.h0 = E.h) (hh1 : vk.h1 = τ • E.h) {P O : Fr[X]} {z : Fr}
    (h : (X - C z) * O = P - C (P.eval z)) (y : Fr) :
    verifyOpening vk (P.eval τ • E.g) z y (O.eval τ • E.g) = true ↔ y = P.eval z := by
  have hτ := congrArg (eval τ) h
  rw [eval_mul, eval_sub, eval_X, eval_C, eval_sub, eval_C] at hτ
  simp only [verifyOpening, hg0, hh0, hh1, ← sub_smul, decide_eq_true_eq]
  have hpair := E.pairing_smul_inj (a := P.eval τ - y) (b := 1) (c := O.eval τ) (d := τ - z)
  rw [one_smul] at hpair
  rw [hpair, mul_one, mul_comm, hτ, sub_right_inj]

namespace Setting

variable {crs : CRS E} {n : ℕ} {τ : Fr} (S : Setting crs n τ) (w s : ℕ → Fr)

theorem verifyOpening_of_quotient {P O : Fr[X]} {z : Fr}
    (h : (X - C z) * O = P - C (P.eval z)) :
    verifyOpening (S.verificationKey w s) (P.eval τ • E.g) z (P.eval z) (O.eval τ • E.g) =
      true :=
  (verifyOpening_quotient_iff rfl rfl rfl h _).mpr rfl

variable {S w s}
variable {witness : Witness E} {vk : VerificationKey E} {PS B Q : Fr[X]} {χq r χop : Fr}
  {π : ThresholdSignature E}

theorem mergedRelationCheck_ok (hvk : vk.n = n)
    (h : Proved S vk witness (S.domain.interpolant w) PS B Q χq r χop π)
    (hQ : S.domain.vanishing * Q = Relations.merged S.domain (S.domain.interpolant w) PS B
      witness.aggWeight χq) :
    mergedRelationCheck vk π S.domain.groupGen χq r = .ok (decide (r ^ n ≠ 1)) := by
  rw [mergedRelationCheck_eq (hvk.trans S.size.symm) h.evaluations, h.aggWeight, ← hQ, mul_comm,
    S.size]
  simp

theorem openingAtRCheck_of_proved
    (h : Proved S (S.verificationKey w s) witness (S.domain.interpolant w) PS B Q χq r χop π) :
    openingAtRCheck (S.verificationKey w s) π r χop = true := by
  obtain ⟨O, hO, hproof⟩ := h.opening
  have hver := S.verifyOpening_of_quotient w s hO
  unfold openingAtRCheck
  rw [mergePoints_eq_horner, mergeScalars_eq_horner, h.qMrgCom, h.parsumCom, h.bCom, h.qMrgOfR,
    h.parsumOfR, h.bOfR, h.wOfR, hproof]
  rw [eval_horner, eval_horner, ← horner_smul_g] at hver
  exact hver

theorem openingAtRDivωCheck_of_proved
    (h : Proved S (S.verificationKey w s) witness (S.domain.interpolant w) PS B Q χq r χop π) :
    openingAtRDivωCheck (S.verificationKey w s) π (r / S.domain.groupGen) = true := by
  obtain ⟨O, hO, hproof⟩ := h.openingDivω
  unfold openingAtRDivωCheck
  rw [h.parsumCom, h.parsumOfRDivω, hproof]
  exact S.verifyOpening_of_quotient w s hO

end Setting

end HieroCryptography.Hints
