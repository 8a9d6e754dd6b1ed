import HieroCryptography.Hints.Kzg

namespace HieroCryptography.Hints

open Rust

def randomSize : ℕ := 32

abbrev CRS (E : Curve) := Kzg.UniversalParams E

structure ProofOfPossesion (E : Curve) where
  commitment : E.G1
  challenge : Fr
  response : Fr

structure SecretKey (E : Curve) where
  secret : Fr
  pop : ProofOfPossesion E

structure ThresholdSignature (E : Curve) where
  aggPk : E.G1
  aggWeight : Fr
  aggSig : E.G2
  bOfTauCom : E.G1
  qxOfTauCom : E.G1
  qxOfTauMulTauCom : E.G1
  qzOfTauCom : E.G1
  parsumOfTauCom : E.G1
  qMrgOfTauCom : E.G1
  openingProofR : E.G1
  openingProofRDivω : E.G1
  parsumOfR : Fr
  parsumOfRDivω : Fr
  wOfR : Fr
  bOfR : Fr
  qMrgOfR : Fr

structure ExtendedPublicKey (E : Curve) where
  i : ℕ
  n : ℕ
  pkI : E.G1
  pokI : ProofOfPossesion E
  skILIOfTauCom1 : E.G1
  skILIOfTauCom2 : E.G2
  qzITerms : List E.G1
  qxITerm : E.G1
  qxITermMulTau : E.G1

structure AggregationKey (E : Curve) where
  n : ℕ
  weights : List Fr
  pks : List E.G1
  qzTerms : List E.G1
  qxTerms : List E.G1
  qxMulTauTerms : List E.G1

structure VerificationKey (E : Curve) where
  n : ℕ
  totalWeight : Fr
  g0 : E.G1
  h0 : E.G2
  h1 : E.G2
  lNMinus1OfTauCom : E.G1
  wOfTauCom : E.G1
  skOfTauCom : E.G2
  zOfTauCom : E.G2

variable {E : Curve}

/-- The derived compressed encoding: the fields in order, a `usize` as eight bytes. -/
def VerificationKey.serializeCompressed (vk : VerificationKey E) : Bytes :=
  leBytes 8 vk.n ++ E.compressFr vk.totalWeight ++ E.compressG1 vk.g0 ++ E.compressG2 vk.h0 ++
    E.compressG2 vk.h1 ++ E.compressG1 vk.lNMinus1OfTauCom ++ E.compressG1 vk.wOfTauCom ++
    E.compressG2 vk.skOfTauCom ++ E.compressG2 vk.zOfTauCom

def crsSupports (crs : CRS E) (n : ℕ) : Bool :=
  n < crs.powersOfG.length && n < crs.powersOfH.length

theorem crsSupports_iff {crs : CRS E} {n : ℕ} :
    crsSupports crs n = true ↔ n < crs.powersOfG.length ∧ n < crs.powersOfH.length := by
  simp [crsSupports]

def aggregationKeyIsWellFormed (ak : AggregationKey E) : Bool :=
  ak.weights.length = ak.n && ak.pks.length = ak.n && ak.qzTerms.length = ak.n &&
    ak.qxTerms.length = ak.n && ak.qxMulTauTerms.length = ak.n

theorem aggregationKeyIsWellFormed_iff {ak : AggregationKey E} :
    aggregationKeyIsWellFormed ak = true ↔ ak.weights.length = ak.n ∧ ak.pks.length = ak.n ∧
      ak.qzTerms.length = ak.n ∧ ak.qxTerms.length = ak.n ∧ ak.qxMulTauTerms.length = ak.n := by
  simp [aggregationKeyIsWellFormed, and_assoc]

def hashToG2 (E : Curve) (msg : Bytes) : Result E.G2 :=
  match E.mapToCurve (ascii "BLS_SIG_BLS12381G2_XMD:SHA-256_SSWU_RO_POP_") msg with
  | .ok p => .ok p
  | .error e => fail (.hashingError e)

section ProofOfKnowledge

def proofOfKnowledgeRandomOracle (g statement commitment : E.G1) : Result Fr :=
  .ok (E.hashToField (ascii "HINTS_SIG_BLS12381:FIAT_SHAMIR_POP")
    (E.compressG1 g ++ E.compressG1 statement ++ E.compressG1 commitment))

def generateProofOfKnowledge (E : Curve) (x : Fr) (seed : Bytes) :
    Result (ProofOfPossesion E) := do
  let g := E.g
  let statement := x • g
  let r := (E.randFr (E.fromSeed seed)).1
  let commitment := r • g
  let challenge ← proofOfKnowledgeRandomOracle g statement commitment
  let response := r + challenge * x
  .ok { commitment, challenge, response }

def verifyProofOfKnowledge (pok : ProofOfPossesion E) (pubkey : E.G1) : Result Bool := do
  let g := E.g
  let challenge ← proofOfKnowledgeRandomOracle g pubkey pok.commitment
  let lhs := pok.response • g
  let rhs := pok.commitment + pok.challenge • pubkey
  .ok (lhs = rhs && challenge = pok.challenge)

theorem generateProofOfKnowledge_ok (E : Curve) (x : Fr) (seed : Bytes) :
    ∃ pok, generateProofOfKnowledge E x seed = .ok pok ∧
      verifyProofOfKnowledge pok (x • E.g) = .ok true := by
  refine ⟨_, rfl, ?_⟩
  simp [verifyProofOfKnowledge, proofOfKnowledgeRandomOracle, add_smul, mul_smul]

end ProofOfKnowledge

def keygen (E : Curve) (seed : Bytes) : Result (SecretKey E) := do
  let (secretSeed, rng) := E.fillBytes (E.fromSeed seed) 32
  let (proofSeed, _) := E.fillBytes rng 32
  let secret := (E.randFr (E.fromSeed secretSeed)).1
  let pop ← generateProofOfKnowledge E secret proofSeed
  .ok { secret, pop }

end HieroCryptography.Hints
