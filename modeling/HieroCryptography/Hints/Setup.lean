import HieroCryptography.Rust.Wire
import HieroCryptography.Hints.Keys

namespace HieroCryptography.Hints

open Rust Kzg

variable {E : Curve}

structure ContributionProof (E : Curve) where
  p1MulZ : E.G1
  zPlusHr : Fr

def validateCrsTowerLengths (prevCrs nextCrs : CRS E) : Result ℕ := do
  let prevG := prevCrs.powersOfG.length
  let prevH := prevCrs.powersOfH.length
  let nextG := nextCrs.powersOfG.length
  let nextH := nextCrs.powersOfH.length
  require (¬ prevG < 3) (.insufficientCRS prevG)
  require (¬ (prevG ≠ nextG ∨ prevH ≠ nextH ∨ prevG ≠ prevH)) (.invalidInput
    s!"CRS tower lengths are inconsistent: previous G1 = {prevG}, previous G2 = {prevH}, next G1 = {nextG}, next G2 = {nextH}")
  .ok prevG

def init (E : Curve) (degree : ℕ) : CRS E where
  powersOfG := List.replicate (degree + 1) E.g
  powersOfH := List.replicate (degree + 1) E.h

def pruneCrs (crs : CRS E) (newDegree : ℕ) : Result (CRS E) := do
  let crsLen ← validateCrsTowerLengths crs crs
  require (¬ newDegree ≥ crsLen) (.insufficientCRS newDegree)
  let powersOfG ← slice crs.powersOfG 0 (newDegree + 1)
  let powersOfH ← slice crs.powersOfH 0 (newDegree + 1)
  .ok { powersOfG, powersOfH }

def randomOracle (prevP1 nextP1 prevP1MulZ : E.G1) : Result Fr :=
  .ok (E.hashToField (ascii "HINTS_POWERS_OF_TAU_BLS12381:FIAT_SHAMIR")
    (E.compressG1 prevP1 ++ E.compressG1 nextP1 ++ E.compressG1 prevP1MulZ))

def schnorrNizk (prevP1 nextP1 : E.G1) (r : Fr) (rng : E.Rng) : Result (ContributionProof E) := do
  let z := (E.randFr rng).1
  let p1MulZ := z • prevP1
  let h ← randomOracle prevP1 nextP1 p1MulZ
  .ok { p1MulZ, zPlusHr := z + h * r }

def contribute (crs : CRS E) (seed : Bytes) : Result (CRS E × ContributionProof E) := do
  let (r, rng) := E.randFr (E.fromSeed seed)
  let crsLen ← validateCrsTowerLengths crs crs
  let degree ← usizeSub crsLen 1
  let powersOfR := (List.range (degree + 1)).map fun i ↦ r ^ i
  let nextCrs := {
    powersOfG := List.zipWith (fun g s ↦ s • g) crs.powersOfG powersOfR
    powersOfH := List.zipWith (fun h s ↦ s • h) crs.powersOfH powersOfR }
  let prevP1 ← index crs.powersOfG 1
  let nextP1 ← index nextCrs.powersOfG 1
  let proof ← schnorrNizk prevP1 nextP1 r rng
  .ok (nextCrs, proof)

def check1 (prevP1 nextP1 : E.G1) (proof : ContributionProof E) : Result Bool := do
  let h ← randomOracle prevP1 nextP1 proof.p1MulZ
  .ok (proof.zPlusHr • prevP1 = proof.p1MulZ + h • nextP1)

def serializeUncompressed (crs : CRS E) : Bytes :=
  Wire.writeVec E.uncompressG1 crs.powersOfG ++ Wire.writeVec E.uncompressG2 crs.powersOfH

/-- The two oracle scalars of `check2`, told apart by a last byte. -/
def check2Oracle (crs : CRS E) : Fr × Fr :=
  let crsBytes := serializeUncompressed crs
  ((ofLeBytes (E.sha256 (crsBytes ++ [1])) : Fr), (ofLeBytes (E.sha256 (crsBytes ++ [2])) : Fr))

/-- `VariableBaseMSM::msm`, which refuses lists of different lengths. -/
def checkedMsm {G : Type} [AddCommGroup G] [Module Fr G] (bases : List G) (scalars : List Fr) :
    Outcome ℕ G :=
  if bases.length = scalars.length then .ok (msm bases scalars)
  else fail (min bases.length scalars.length)

def powersFromTo (ρ : Fr) (a b : ℕ) : List Fr := (List.range' a (b + 1 - a)).map fun i ↦ ρ ^ i

def check2Equation (crs : CRS E) (ρ1 ρ2 : Fr) : Outcome ℕ Bool := do
  let n ← usizeSub crs.powersOfG.length 1
  let shiftedG ← slice crs.powersOfG 1 (n + 1)
  let last ← usizeSub n 1
  let lhsLhs ← checkedMsm shiftedG (powersFromTo ρ1 0 last)
  let middleH ← slice crs.powersOfH 1 n
  let tailH ← checkedMsm middleH (powersFromTo ρ2 1 last)
  let h0 ← index crs.powersOfH 0
  let lhsRhs := tailH + h0
  let middleG ← slice crs.powersOfG 1 n
  let tailG ← checkedMsm middleG (powersFromTo ρ1 1 last)
  let g0 ← index crs.powersOfG 0
  let rhsLhs := tailG + g0
  let shiftedH ← slice crs.powersOfH 1 (n + 1)
  let rhsRhs ← checkedMsm shiftedH (powersFromTo ρ2 0 last)
  .ok (E.pairing lhsLhs lhsRhs = E.pairing rhsLhs rhsRhs)

def check2 (crs : CRS E) : Outcome ℕ Bool :=
  check2Equation crs (check2Oracle crs).1 (check2Oracle crs).2

def check3 (crs : CRS E) : Result Bool := do
  let g0 ← index crs.powersOfG 0
  let c1 ← checkOrReturnFalse (g0 = E.g) (do
    let h0 ← index crs.powersOfH 0
    .ok (h0 = E.h))
  let g1 ← index crs.powersOfG 1
  let c2 ← checkOrReturnFalse (g1 ≠ 0) (do
    let h1 ← index crs.powersOfH 1
    .ok (h1 ≠ 0))
  .ok (c1 && c2)

def verifyContribution (prevCrs nextCrs : CRS E) (proof : ContributionProof E) : Result Bool :=
  match validateCrsTowerLengths prevCrs nextCrs with
  | .error _ => .ok false
  | .ok _ => do
    let prevP1 ← index prevCrs.powersOfG 1
    let nextP1 ← index nextCrs.powersOfG 1
    let c1 ← orFalse (check1 prevP1 nextP1 proof)
    let c2 ← orFalse (check2 nextCrs)
    let c3 ← check3 nextCrs
    .ok (c1 && c2 && c3)

theorem validateCrsTowerLengths_ok_iff {prevCrs nextCrs : CRS E} {len : ℕ} :
    validateCrsTowerLengths prevCrs nextCrs = .ok len ↔ 3 ≤ len ∧
      prevCrs.powersOfG.length = len ∧ prevCrs.powersOfH.length = len ∧
      nextCrs.powersOfG.length = len ∧ nextCrs.powersOfH.length = len := by
  simp only [validateCrsTowerLengths, bind_ok_iff, require_ok_iff, exists_const,
    decide_eq_true_eq, Except.ok.injEq]
  omega

theorem check3_ok_true_iff {crs : CRS E} :
    check3 crs = .ok true ↔ crs.powersOfG[0]? = some E.g ∧ crs.powersOfH[0]? = some E.h ∧
      (∃ g1, crs.powersOfG[1]? = some g1 ∧ g1 ≠ 0) ∧
      ∃ h1, crs.powersOfH[1]? = some h1 ∧ h1 ≠ 0 := by
  simp only [check3, bind_ok_iff, index_ok_iff, Except.ok.injEq, Bool.and_eq_true]
  constructor
  · rintro ⟨g0, hg0, c1, hc1, g1, hg1, c2, hc2, rfl, rfl⟩
    simp only [checkOrReturnFalse_ok_true_iff, bind_ok_iff, index_ok_iff, Except.ok.injEq,
      decide_eq_true_eq] at hc1 hc2
    obtain ⟨rfl, h0, hh0, rfl⟩ := hc1
    obtain ⟨hg1', h1, hh1, hh1'⟩ := hc2
    exact ⟨hg0, hh0, ⟨g1, hg1, hg1'⟩, h1, hh1, hh1'⟩
  · rintro ⟨hg0, hh0, ⟨g1, hg1, hg1'⟩, h1, hh1, hh1'⟩
    refine ⟨E.g, hg0, true, ?_, g1, hg1, true, ?_, rfl, rfl⟩
    · simp [index_of_getElem? hh0]
    · simp [index_of_getElem? hh1, hg1', hh1']

theorem verifyContribution_ok_true {prevCrs nextCrs : CRS E} {proof : ContributionProof E} :
    verifyContribution prevCrs nextCrs proof = .ok true ↔
      (∃ len, validateCrsTowerLengths prevCrs nextCrs = .ok len) ∧
      (∃ p q, prevCrs.powersOfG[1]? = some p ∧ nextCrs.powersOfG[1]? = some q ∧
        check1 p q proof = .ok true) ∧
      check2 nextCrs = .ok true ∧ check3 nextCrs = .ok true := by
  unfold verifyContribution
  cases hlen : validateCrsTowerLengths prevCrs nextCrs with
  | error e => simp
  | ok len =>
    simp only [bind_ok_iff, index_ok_iff, Except.ok.injEq, Bool.and_eq_true, exists_eq', true_and]
    constructor
    · rintro ⟨p, hp, q, hq, c1, h1, c2, h2, c3, h3, ⟨rfl, rfl⟩, rfl⟩
      exact ⟨⟨p, q, hp, hq, orFalse_ok_true_iff.mp h1⟩, orFalse_ok_true_iff.mp h2, h3⟩
    · rintro ⟨⟨p, q, hp, hq, h1⟩, h2, h3⟩
      exact ⟨p, hp, q, hq, true, orFalse_ok_true_iff.mpr h1, true, orFalse_ok_true_iff.mpr h2,
        true, h3, ⟨rfl, rfl⟩, rfl⟩

end HieroCryptography.Hints
