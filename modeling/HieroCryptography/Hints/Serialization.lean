import HieroCryptography.Rust.Wire
import HieroCryptography.Hints.Setup

namespace HieroCryptography.Hints

open Rust

/-- The uncompressed points of the curve library: fixed widths, and readers that give back every
point of the prime-order groups. They may accept other encodings of a point as well. -/
structure PointCodec (E : Curve) where
  readG1 : Bytes → Option (E.G1 × Bytes)
  readG2 : Bytes → Option (E.G2 × Bytes)
  g1_reads : ∀ p, (Wire.mk E.uncompressG1 readG1).Reads p
  g2_reads : ∀ p, (Wire.mk E.uncompressG2 readG2).Reads p
  g1_takes : (Wire.mk E.uncompressG1 readG1).Takes 96
  g2_takes : (Wire.mk E.uncompressG2 readG2).Takes 192

theorem frModulus_le {width : ℕ} (h : 32 ≤ width) : frModulus ≤ 256 ^ width :=
  (show frModulus ≤ 256 ^ 32 by decide).trans (Nat.pow_le_pow_right (by decide) h)

def frWire : Wire Fr := Wire.residue frModulus 32

theorem frWire_reads (x : Fr) : frWire.Reads x := Wire.residue_reads (frModulus_le le_rfl) x

theorem frWire_takes : frWire.Takes 32 := Wire.residue_takes _ 32

abbrev usizeWire : Wire ℕ := Wire.nat 8

theorem usizeWire_reads {n : ℕ} (h : n < 2 ^ 64) : usizeWire.Reads n :=
  Wire.nat_reads (by omega)

namespace PointCodec

variable {E : Curve} (P : PointCodec E)

def g1 : Wire E.G1 := ⟨E.uncompressG1, P.readG1⟩

def g2 : Wire E.G2 := ⟨E.uncompressG2, P.readG2⟩

/-! The derived formats: the fields in the order of their declaration. -/

def proofOfPossesion : Wire (ProofOfPossesion E) :=
  (P.g1.pair (frWire.pair frWire)).record (fun (commitment, challenge, response) ↦
    { commitment, challenge, response }) fun pop ↦ (pop.commitment, pop.challenge, pop.response)

def secretKey : Wire (SecretKey E) :=
  (frWire.pair P.proofOfPossesion).record (fun (secret, pop) ↦ { secret, pop })
    fun sk ↦ (sk.secret, sk.pop)

def thresholdSignature : Wire (ThresholdSignature E) :=
  (P.g1.pair <| frWire.pair <| P.g2.pair <| P.g1.pair <| P.g1.pair <| P.g1.pair <| P.g1.pair <|
    P.g1.pair <| P.g1.pair <| P.g1.pair <| P.g1.pair <| frWire.pair <| frWire.pair <|
    frWire.pair <| frWire.pair frWire).record
    (fun (aggPk, aggWeight, aggSig, bOfTauCom, qxOfTauCom, qxOfTauMulTauCom, qzOfTauCom,
      parsumOfTauCom, qMrgOfTauCom, openingProofR, openingProofRDivω, parsumOfR, parsumOfRDivω,
      wOfR, bOfR, qMrgOfR) ↦
      { aggPk, aggWeight, aggSig, bOfTauCom, qxOfTauCom, qxOfTauMulTauCom, qzOfTauCom,
        parsumOfTauCom, qMrgOfTauCom, openingProofR, openingProofRDivω, parsumOfR, parsumOfRDivω,
        wOfR, bOfR, qMrgOfR })
    fun π ↦ (π.aggPk, π.aggWeight, π.aggSig, π.bOfTauCom, π.qxOfTauCom, π.qxOfTauMulTauCom,
      π.qzOfTauCom, π.parsumOfTauCom, π.qMrgOfTauCom, π.openingProofR, π.openingProofRDivω,
      π.parsumOfR, π.parsumOfRDivω, π.wOfR, π.bOfR, π.qMrgOfR)

def extendedPublicKey : Wire (ExtendedPublicKey E) :=
  (usizeWire.pair <| usizeWire.pair <| P.g1.pair <| P.proofOfPossesion.pair <| P.g1.pair <|
    P.g2.pair <| P.g1.vec.pair <| P.g1.pair P.g1).record
    (fun (i, n, pkI, pokI, skILIOfTauCom1, skILIOfTauCom2, qzITerms, qxITerm, qxITermMulTau) ↦
      { i, n, pkI, pokI, skILIOfTauCom1, skILIOfTauCom2, qzITerms, qxITerm, qxITermMulTau })
    fun epk ↦ (epk.i, epk.n, epk.pkI, epk.pokI, epk.skILIOfTauCom1, epk.skILIOfTauCom2,
      epk.qzITerms, epk.qxITerm, epk.qxITermMulTau)

def aggregationKey : Wire (AggregationKey E) :=
  (usizeWire.pair <| frWire.vec.pair <| P.g1.vec.pair <| P.g1.vec.pair <| P.g1.vec.pair
    P.g1.vec).record
    (fun (n, weights, pks, qzTerms, qxTerms, qxMulTauTerms) ↦
      { n, weights, pks, qzTerms, qxTerms, qxMulTauTerms })
    fun ak ↦ (ak.n, ak.weights, ak.pks, ak.qzTerms, ak.qxTerms, ak.qxMulTauTerms)

def verificationKey : Wire (VerificationKey E) :=
  (usizeWire.pair <| frWire.pair <| P.g1.pair <| P.g2.pair <| P.g2.pair <| P.g1.pair <|
    P.g1.pair <| P.g2.pair P.g2).record
    (fun (n, totalWeight, g0, h0, h1, lNMinus1OfTauCom, wOfTauCom, skOfTauCom, zOfTauCom) ↦
      { n, totalWeight, g0, h0, h1, lNMinus1OfTauCom, wOfTauCom, skOfTauCom, zOfTauCom })
    fun vk ↦ (vk.n, vk.totalWeight, vk.g0, vk.h0, vk.h1, vk.lNMinus1OfTauCom, vk.wOfTauCom,
      vk.skOfTauCom, vk.zOfTauCom)

def towers : Wire (CRS E) :=
  (P.g1.vec.pair P.g2.vec).record (fun (powersOfG, powersOfH) ↦ { powersOfG, powersOfH })
    fun crs ↦ (crs.powersOfG, crs.powersOfH)

/-- The bytes of a string are those that `check2` hashes. -/
def crs : Wire (CRS E) := { P.towers with write := serializeUncompressed }

theorem crs_eq : P.crs = P.towers := rfl

def contributionProof : Wire (ContributionProof E) :=
  (P.g1.pair frWire).record (fun (p1MulZ, zPlusHr) ↦ { p1MulZ, zPlusHr })
    fun proof ↦ (proof.p1MulZ, proof.zPlusHr)

section Reads

theorem reads_g1 (p : E.G1) : P.g1.Reads p := P.g1_reads p

theorem reads_g2 (p : E.G2) : P.g2.Reads p := P.g2_reads p

theorem reads_g1_vec {ps : List E.G1} (h : ps.length < 2 ^ 64) : P.g1.vec.Reads ps :=
  .vec h fun p _ ↦ P.reads_g1 p

theorem reads_g2_vec {ps : List E.G2} (h : ps.length < 2 ^ 64) : P.g2.vec.Reads ps :=
  .vec h fun p _ ↦ P.reads_g2 p

theorem proofOfPossesion_reads (pop : ProofOfPossesion E) : P.proofOfPossesion.Reads pop := by
  apply Wire.Reads.record _ rfl
  exact (P.reads_g1 _).pair ((frWire_reads _).pair (frWire_reads _))

theorem secretKey_reads (sk : SecretKey E) : P.secretKey.Reads sk := by
  apply Wire.Reads.record _ rfl
  exact (frWire_reads _).pair (P.proofOfPossesion_reads _)

theorem thresholdSignature_reads (π : ThresholdSignature E) : P.thresholdSignature.Reads π := by
  have hf := frWire_reads
  have h1 := P.reads_g1
  apply Wire.Reads.record _ rfl
  exact (h1 _).pair <| (hf _).pair <| (P.reads_g2 _).pair <| (h1 _).pair <| (h1 _).pair <|
    (h1 _).pair <| (h1 _).pair <| (h1 _).pair <| (h1 _).pair <| (h1 _).pair <| (h1 _).pair <|
    (hf _).pair <| (hf _).pair <| (hf _).pair <| (hf _).pair (hf _)

theorem extendedPublicKey_reads {epk : ExtendedPublicKey E} (hi : epk.i < 2 ^ 64)
    (hn : epk.n < 2 ^ 64) (hterms : epk.qzITerms.length < 2 ^ 64) :
    P.extendedPublicKey.Reads epk := by
  have h1 := P.reads_g1
  apply Wire.Reads.record _ rfl
  exact (usizeWire_reads hi).pair <| (usizeWire_reads hn).pair <| (h1 _).pair <|
    (P.proofOfPossesion_reads _).pair <| (h1 _).pair <| (P.reads_g2 _).pair <|
    (P.reads_g1_vec hterms).pair <| (h1 _).pair (h1 _)

theorem aggregationKey_reads {ak : AggregationKey E} (h : aggregationKeyIsWellFormed ak = true)
    (hn : ak.n < 2 ^ 64) : P.aggregationKey.Reads ak := by
  obtain ⟨hw, hpks, hqz, hqx, hqxτ⟩ := aggregationKeyIsWellFormed_iff.mp h
  apply Wire.Reads.record _ rfl
  exact (usizeWire_reads hn).pair <| (Wire.Reads.vec (hw ▸ hn) fun w _ ↦ frWire_reads w).pair <|
    (P.reads_g1_vec (hpks ▸ hn)).pair <| (P.reads_g1_vec (hqz ▸ hn)).pair <|
    (P.reads_g1_vec (hqx ▸ hn)).pair (P.reads_g1_vec (hqxτ ▸ hn))

theorem verificationKey_reads {vk : VerificationKey E} (hn : vk.n < 2 ^ 64) :
    P.verificationKey.Reads vk := by
  have h1 := P.reads_g1
  have h2 := P.reads_g2
  apply Wire.Reads.record _ rfl
  exact (usizeWire_reads hn).pair <| (frWire_reads _).pair <| (h1 _).pair <| (h2 _).pair <|
    (h2 _).pair <| (h1 _).pair <| (h1 _).pair <| (h2 _).pair (h2 _)

theorem crs_reads {crs : CRS E} (hg : crs.powersOfG.length < 2 ^ 64)
    (hh : crs.powersOfH.length < 2 ^ 64) : P.crs.Reads crs := by
  rw [crs_eq]
  apply Wire.Reads.record _ rfl
  exact (P.reads_g1_vec hg).pair (P.reads_g2_vec hh)

theorem contributionProof_reads (proof : ContributionProof E) :
    P.contributionProof.Reads proof := by
  apply Wire.Reads.record _ rfl
  exact (P.reads_g1 _).pair (frWire_reads _)

end Reads

section Takes

theorem thresholdSignature_takes : P.thresholdSignature.Takes (9 * 96 + 192 + 6 * 32) := by
  have hf := frWire_takes
  have h1 : P.g1.Takes 96 := P.g1_takes
  have h2 : P.g2.Takes 192 := P.g2_takes
  exact (h1.pair <| hf.pair <| h2.pair <| h1.pair <| h1.pair <| h1.pair <| h1.pair <| h1.pair <|
    h1.pair <| h1.pair <| h1.pair <| hf.pair <| hf.pair <| hf.pair <| hf.pair hf).record _ _

theorem verificationKey_takes : P.verificationKey.Takes 1096 := by
  have h1 : P.g1.Takes 96 := P.g1_takes
  have h2 : P.g2.Takes 192 := P.g2_takes
  exact ((Wire.nat_takes 8).pair <| frWire_takes.pair <| h1.pair <| h2.pair <| h2.pair <|
    h1.pair <| h1.pair <| h2.pair h2).record _ _

theorem secretKey_takes : P.secretKey.Takes 192 :=
  (frWire_takes.pair ((P.g1_takes.pair (frWire_takes.pair frWire_takes)).record _ _)).record _ _

theorem contributionProof_takes : P.contributionProof.Takes 128 :=
  (P.g1_takes.pair frWire_takes).record _ _

theorem length_write_crs (crs : CRS E) : (P.crs.write crs).length =
    16 + 96 * crs.powersOfG.length + 192 * crs.powersOfH.length := by
  have h1 : P.g1.Takes 96 := P.g1_takes
  have h2 : P.g2.Takes 192 := P.g2_takes
  have hg := h1.length_write_vec fun p (_ : p ∈ crs.powersOfG) ↦ P.reads_g1 p
  have hh := h2.length_write_vec fun p (_ : p ∈ crs.powersOfH) ↦ P.reads_g2 p
  have : (P.crs.write crs) = P.g1.vec.write crs.powersOfG ++ P.g2.vec.write crs.powersOfH := rfl
  rw [this, List.length_append, hg, hh]
  omega

theorem length_write_aggregationKey {ak : AggregationKey E}
    (h : aggregationKeyIsWellFormed ak = true) :
    (P.aggregationKey.write ak).length = 48 + 416 * ak.n := by
  obtain ⟨hw, hpks, hqz, hqx, hqxτ⟩ := aggregationKeyIsWellFormed_iff.mp h
  have h1 : P.g1.Takes 96 := P.g1_takes
  have hlen (points : List E.G1) := h1.length_write_vec fun p (_ : p ∈ points) ↦ P.reads_g1 p
  have hweights := frWire_takes.length_write_vec fun w (_ : w ∈ ak.weights) ↦ frWire_reads w
  have : P.aggregationKey.write ak = leBytes 8 ak.n ++ (frWire.vec.write ak.weights ++
      (P.g1.vec.write ak.pks ++ (P.g1.vec.write ak.qzTerms ++
        (P.g1.vec.write ak.qxTerms ++ P.g1.vec.write ak.qxMulTauTerms)))) := rfl
  simp only [this, List.length_append, length_leBytes, hweights, hlen, hw, hpks, hqz, hqx, hqxτ]
  omega

end Takes

end PointCodec

/-- The scalar field as a curve whose points have the widths of the real ones. -/
def wideCurve : Curve :=
  { scalarCurve with
    uncompressG1 := (Wire.residue frModulus 96).write
    uncompressG2 := (Wire.residue frModulus 192).write }

def wideCodec : PointCodec wideCurve where
  readG1 := (Wire.residue frModulus 96).read
  readG2 := (Wire.residue frModulus 192).read
  g1_reads := Wire.residue_reads (frModulus_le (by decide))
  g2_reads := Wire.residue_reads (frModulus_le (by decide))
  g1_takes := Wire.residue_takes frModulus 96
  g2_takes := Wire.residue_takes frModulus 192

end HieroCryptography.Hints
