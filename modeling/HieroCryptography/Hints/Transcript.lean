import HieroCryptography.Hints.Keys

namespace HieroCryptography.Hints

open Rust

structure Transcript where
  bytes : Bytes

namespace Transcript

def new : Transcript := ⟨[]⟩

def absorb {T : Type} (serializeCompressed : T → Bytes) (item : T) (t : Transcript) :
    Result Transcript :=
  .ok ⟨t.bytes ++ serializeCompressed item⟩

def challenge (E : Curve) (t : Transcript) (dst : Bytes) : Fr := E.hashToField dst t.bytes

end Transcript

open Transcript

variable {E : Curve}

def dstQuotientMerge : Bytes := ascii "HINTS_SIG_BLS12381:FIAT_SHAMIR_V2_QUOTIENT_MERGE"

def dstEvaluationPoint : Bytes := ascii "HINTS_SIG_BLS12381:FIAT_SHAMIR_V2_EVALUATION_POINT"

def dstOpeningBatch : Bytes := ascii "HINTS_SIG_BLS12381:FIAT_SHAMIR_V2_OPENING_BATCH"

def absorbRound1 (transcript : Transcript) (vk : VerificationKey E) (aggPk : E.G1) (aggWeight : Fr)
    (bOfTauCom parsumOfTauCom qxOfTauCom qzOfTauCom qxOfTauMulTauCom : E.G1) :
    Result Transcript := do
  let transcript ← transcript.absorb VerificationKey.serializeCompressed vk
  let transcript ← transcript.absorb E.compressG1 aggPk
  let transcript ← transcript.absorb E.compressFr aggWeight
  let transcript ← transcript.absorb E.compressG1 bOfTauCom
  let transcript ← transcript.absorb E.compressG1 parsumOfTauCom
  let transcript ← transcript.absorb E.compressG1 qxOfTauCom
  let transcript ← transcript.absorb E.compressG1 qzOfTauCom
  transcript.absorb E.compressG1 qxOfTauMulTauCom

def absorbRound2 (transcript : Transcript) (qMrgOfTauCom : E.G1) : Result Transcript :=
  transcript.absorb E.compressG1 qMrgOfTauCom

def absorbRound3 (E : Curve) (transcript : Transcript)
    (parsumOfR parsumOfRDivω wOfR bOfR qMrgOfR : Fr) : Result Transcript := do
  let transcript ← transcript.absorb E.compressFr parsumOfR
  let transcript ← transcript.absorb E.compressFr parsumOfRDivω
  let transcript ← transcript.absorb E.compressFr wOfR
  let transcript ← transcript.absorb E.compressFr bOfR
  transcript.absorb E.compressFr qMrgOfR

theorem absorbRound1_ok (t : Transcript) (vk : VerificationKey E) (aggPk : E.G1) (aggWeight : Fr)
    (b ps qx qz qxMul : E.G1) : ∃ t', absorbRound1 t vk aggPk aggWeight b ps qx qz qxMul = .ok t' :=
  ⟨_, rfl⟩

theorem absorbRound2_ok (t : Transcript) (q : E.G1) : ∃ t', absorbRound2 t q = .ok t' := ⟨_, rfl⟩

theorem absorbRound3_ok (E : Curve) (t : Transcript) (ps psω w b q : Fr) :
    ∃ t', absorbRound3 E t ps psω w b q = .ok t' :=
  ⟨_, rfl⟩

def deriveChallenges (vk : VerificationKey E) (π : ThresholdSignature E) :
    Result (Fr × Fr × Fr) := do
  let transcript ← absorbRound1 Transcript.new vk π.aggPk π.aggWeight π.bOfTauCom
    π.parsumOfTauCom π.qxOfTauCom π.qzOfTauCom π.qxOfTauMulTauCom
  let χq := transcript.challenge E dstQuotientMerge
  let transcript ← absorbRound2 transcript π.qMrgOfTauCom
  let r := transcript.challenge E dstEvaluationPoint
  let transcript ← absorbRound3 E transcript π.parsumOfR π.parsumOfRDivω π.wOfR π.bOfR π.qMrgOfR
  let χop := transcript.challenge E dstOpeningBatch
  .ok (χq, r, χop)

end HieroCryptography.Hints
