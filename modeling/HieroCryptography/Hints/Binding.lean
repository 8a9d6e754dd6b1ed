import HieroCryptography.Foundation.Bytes
import HieroCryptography.Hints.Aggregate

namespace HieroCryptography.Hints

open Foundation Rust

variable {E : Curve}

structure Curve.CanonicalEncodings (E : Curve) : Prop where
  g1 : FixedWidth E.compressG1
  g2 : FixedWidth E.compressG2
  fr : FixedWidth E.compressFr

/-- The bytes hashed for the three challenges, in the order they are drawn. -/
def challengeInputs (vk : VerificationKey E) (π : ThresholdSignature E) :
    Result (Bytes × Bytes × Bytes) := do
  let round1 ← absorbRound1 Transcript.new vk π.aggPk π.aggWeight π.bOfTauCom
    π.parsumOfTauCom π.qxOfTauCom π.qzOfTauCom π.qxOfTauMulTauCom
  let round2 ← absorbRound2 round1 π.qMrgOfTauCom
  let round3 ← absorbRound3 E round2 π.parsumOfR π.parsumOfRDivω π.wOfR π.bOfR π.qMrgOfR
  .ok (round1.bytes, round2.bytes, round3.bytes)

structure Round1Agrees (vk vk' : VerificationKey E) (π π' : ThresholdSignature E) : Prop where
  vk : vk = vk'
  aggPk : π.aggPk = π'.aggPk
  aggWeight : π.aggWeight = π'.aggWeight
  bOfTauCom : π.bOfTauCom = π'.bOfTauCom
  parsumOfTauCom : π.parsumOfTauCom = π'.parsumOfTauCom
  qxOfTauCom : π.qxOfTauCom = π'.qxOfTauCom
  qzOfTauCom : π.qzOfTauCom = π'.qzOfTauCom
  qxOfTauMulTauCom : π.qxOfTauMulTauCom = π'.qxOfTauMulTauCom

structure EvaluationsAgree (π π' : ThresholdSignature E) : Prop where
  parsumOfR : π.parsumOfR = π'.parsumOfR
  parsumOfRDivω : π.parsumOfRDivω = π'.parsumOfRDivω
  wOfR : π.wOfR = π'.wOfR
  bOfR : π.bOfR = π'.bOfR
  qMrgOfR : π.qMrgOfR = π'.qMrgOfR

theorem leBytes_inj {width n n' : ℕ} (hn : n < 256 ^ width) (hn' : n' < 256 ^ width) :
    leBytes width n = leBytes width n' ↔ n = n' := by
  constructor
  · intro h
    rw [← ofLeBytes_leBytes hn, h, ofLeBytes_leBytes hn']
  · exact congrArg _

theorem serializeCompressed_inj (hE : E.CanonicalEncodings) {vk vk' : VerificationKey E}
    (hn : vk.n < 2 ^ 64) (hn' : vk'.n < 2 ^ 64) :
    vk.serializeCompressed = vk'.serializeCompressed ↔ vk = vk' := by
  cases vk
  cases vk'
  simp only [VerificationKey.serializeCompressed, hE.g1.append_inj, hE.g2.append_inj,
    hE.fr.append_inj, @leBytes_inj 8 _ _ hn hn', VerificationKey.mk.injEq, and_assoc]

theorem round1_inj (hE : E.CanonicalEncodings) {vk vk' : VerificationKey E} (hn : vk.n < 2 ^ 64)
    (hn' : vk'.n < 2 ^ 64) {π π' : ThresholdSignature E} :
    vk.serializeCompressed ++ E.compressG1 π.aggPk ++ E.compressFr π.aggWeight ++
      E.compressG1 π.bOfTauCom ++ E.compressG1 π.parsumOfTauCom ++ E.compressG1 π.qxOfTauCom ++
      E.compressG1 π.qzOfTauCom ++ E.compressG1 π.qxOfTauMulTauCom =
    vk'.serializeCompressed ++ E.compressG1 π'.aggPk ++ E.compressFr π'.aggWeight ++
      E.compressG1 π'.bOfTauCom ++ E.compressG1 π'.parsumOfTauCom ++ E.compressG1 π'.qxOfTauCom ++
      E.compressG1 π'.qzOfTauCom ++ E.compressG1 π'.qxOfTauMulTauCom ↔
    Round1Agrees vk vk' π π' := by
  simp only [hE.g1.append_inj, hE.fr.append_inj, serializeCompressed_inj hE hn hn', and_assoc]
  constructor
  · intro h
    obtain ⟨hvk, hpk, hweight, hb, hps, hqx, hqz, hmul⟩ := h
    exact ⟨hvk, hpk, hweight, hb, hps, hqx, hqz, hmul⟩
  · intro h
    exact ⟨h.vk, h.aggPk, h.aggWeight, h.bOfTauCom, h.parsumOfTauCom, h.qxOfTauCom, h.qzOfTauCom,
      h.qxOfTauMulTauCom⟩

theorem round3_inj (hE : E.CanonicalEncodings) {bytes bytes' : Bytes}
    {π π' : ThresholdSignature E} :
    bytes ++ E.compressFr π.parsumOfR ++ E.compressFr π.parsumOfRDivω ++ E.compressFr π.wOfR ++
      E.compressFr π.bOfR ++ E.compressFr π.qMrgOfR =
    bytes' ++ E.compressFr π'.parsumOfR ++ E.compressFr π'.parsumOfRDivω ++ E.compressFr π'.wOfR ++
      E.compressFr π'.bOfR ++ E.compressFr π'.qMrgOfR ↔
    bytes = bytes' ∧ EvaluationsAgree π π' := by
  simp only [hE.fr.append_inj, and_assoc]
  refine and_congr_right fun _ ↦ ?_
  constructor
  · intro h
    obtain ⟨hps, hpsω, hw, hb, hq⟩ := h
    exact ⟨hps, hpsω, hw, hb, hq⟩
  · intro h
    exact ⟨h.parsumOfR, h.parsumOfRDivω, h.wOfR, h.bOfR, h.qMrgOfR⟩

/-- What is hashed for a challenge determines the items of its rounds and nothing else, and a
prover uses the challenges that its signature determines. -/
theorem transcript_binds_and_agrees (hE : E.CanonicalEncodings) {vk vk' : VerificationKey E}
    (hn : vk.n < 2 ^ 64) (hn' : vk'.n < 2 ^ 64) (π π' : ThresholdSignature E) :
    (∃ inputs inputs', challengeInputs vk π = .ok inputs ∧ challengeInputs vk' π' = .ok inputs' ∧
      deriveChallenges vk π = .ok (E.hashToField dstQuotientMerge inputs.1,
        E.hashToField dstEvaluationPoint inputs.2.1, E.hashToField dstOpeningBatch inputs.2.2) ∧
      (inputs.1 = inputs'.1 ↔ Round1Agrees vk vk' π π') ∧
      (inputs.2.1 = inputs'.2.1 ↔
        Round1Agrees vk vk' π π' ∧ π.qMrgOfTauCom = π'.qMrgOfTauCom) ∧
      (inputs.2.2 = inputs'.2.2 ↔ (Round1Agrees vk vk' π π' ∧
        π.qMrgOfTauCom = π'.qMrgOfTauCom) ∧ EvaluationsAgree π π')) ∧
    ∀ crs ak witness proved exact, prove crs ak vk witness = .ok (proved, exact) →
      ∃ challenges, proveWithChallenges crs ak vk witness = .ok (proved, exact, challenges) ∧
        deriveChallenges vk proved = .ok challenges := by
  constructor
  · refine ⟨_, _, rfl, rfl, rfl, ?_, ?_, ?_⟩
    · exact round1_inj hE hn hn'
    · exact hE.g1.append_inj.trans (and_congr_left fun _ ↦ round1_inj hE hn hn')
    · refine (round3_inj hE).trans (and_congr_left fun _ ↦ ?_)
      exact hE.g1.append_inj.trans (and_congr_left fun _ ↦ round1_inj hE hn hn')
  · intro crs ak witness proved exact h
    obtain ⟨challenges, hprove⟩ := prove_ok_iff.mp h
    exact ⟨challenges, hprove, deriveChallenges_of_prove hprove⟩

theorem fixedWidth_leBytes_val : FixedWidth fun x : Fr ↦ leBytes 32 x.val where
  injective := by
    intro x y h
    have hlt (z : Fr) : z.val < 256 ^ 32 := z.val_lt.trans (by decide)
    exact ZMod.val_injective _ ((leBytes_inj (hlt x) (hlt y)).mp h)
  length_eq := fun _ _ ↦ by rw [length_leBytes, length_leBytes]

theorem scalarCurve_canonicalEncodings : scalarCurve.CanonicalEncodings :=
  ⟨fixedWidth_leBytes_val, fixedWidth_leBytes_val, fixedWidth_leBytes_val⟩

def signatureOfKey (aggPk : Fr) : ThresholdSignature scalarCurve where
  aggPk := aggPk
  aggWeight := 0
  aggSig := (0 : Fr)
  bOfTauCom := (0 : Fr)
  qxOfTauCom := (0 : Fr)
  qxOfTauMulTauCom := (0 : Fr)
  qzOfTauCom := (0 : Fr)
  parsumOfTauCom := (0 : Fr)
  qMrgOfTauCom := (0 : Fr)
  openingProofR := (0 : Fr)
  openingProofRDivω := (0 : Fr)
  parsumOfR := 0
  parsumOfRDivω := 0
  wOfR := 0
  bOfR := 0
  qMrgOfR := 0

def zeroVerificationKey : VerificationKey scalarCurve where
  n := 2
  totalWeight := 0
  g0 := (0 : Fr)
  h0 := (0 : Fr)
  h1 := (0 : Fr)
  lNMinus1OfTauCom := (0 : Fr)
  wOfTauCom := (0 : Fr)
  skOfTauCom := (0 : Fr)
  zOfTauCom := (0 : Fr)

theorem transcript_binds_and_agrees_keys : ∃ inputs inputs',
    challengeInputs zeroVerificationKey (signatureOfKey 0) = .ok inputs ∧
      challengeInputs zeroVerificationKey (signatureOfKey 1) = .ok inputs' ∧
      inputs.1 ≠ inputs'.1 := by
  have hn : zeroVerificationKey.n < 2 ^ 64 := by decide
  obtain ⟨⟨inputs, inputs', h, h', -, hiff, -⟩, -⟩ := transcript_binds_and_agrees
    scalarCurve_canonicalEncodings hn hn (signatureOfKey 0) (signatureOfKey 1)
  refine ⟨inputs, inputs', h, h', fun heq ↦ ?_⟩
  have hkeys : (0 : Fr) = 1 := (hiff.mp heq).aggPk
  exact zero_ne_one hkeys

end HieroCryptography.Hints
