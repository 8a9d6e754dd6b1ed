import HieroCryptography.Rust.Native
import HieroCryptography.Hints.Serialization
import HieroCryptography.Hints.Batch
import HieroCryptography.Hints.Threshold

namespace HieroCryptography.Hints

open Rust

/-- `jni_util::deserialize_jbyte_array`, and a cache's `get`, which answers the same. -/
def deserializeJbyteArray {T : Type} (w : Wire T) (jarray : Bytes) : Native T :=
  okOr (w.decode jarray) ()

def buildEntropyArray (randomArray : Bytes) : Native Bytes := do
  require (randomArray.length = randomSize) ()
  .ok randomArray

def deserializeElements {T : Type} (w : Wire T) (jarray : List (Option Bytes)) (length : ℕ) :
    Native (List T) :=
  (List.range length).mapM fun i ↦ do
    let element ← okOr jarray[i]? ()
    let bytes ← okOr element ()
    deserializeJbyteArray w bytes

def partialSignatureMap {E : Curve} (entries : List (ℕ × E.G2)) : HashMap E.G2 :=
  entries.foldl (fun m e ↦ m.insert e.1 e.2) .empty

namespace PointCodec

open Native

variable {E : Curve} (P : PointCodec E)

def generateSecretKey (randomJarray : Option Bytes) : Native Bytes := do
  let random ← okOr randomJarray ()
  let randomArr ← buildEntropyArray random
  let secretKey ← orNull (keygen E randomArr)
  .ok (P.secretKey.write secretKey)

def computeHintsImpl (crsJarray secretKeyJarray : Bytes) (partyId n : Int32) : Native Bytes := do
  let crs ← deserializeJbyteArray P.crs crsJarray
  let secretKey ← deserializeJbyteArray P.secretKey secretKeyJarray
  let hint ← orNull (hintGen crs (asUsize n.toInt) (asUsize partyId.toInt) secretKey)
  .ok (P.extendedPublicKey.write hint)

def validateHintsKeyImpl (crsJarray hintsJarray : Bytes) (partyId n : Int32) : Native Bool := do
  let crs ← deserializeJbyteArray P.crs crsJarray
  let hints ← deserializeJbyteArray P.extendedPublicKey hintsJarray
  orNull (verifyHint crs (asUsize n.toInt) (asUsize partyId.toInt) hints)

/-- The two keys go into the fields of an `AggregationAndVerificationKeys`. -/
def preprocessImpl (crsJarray : Bytes) (partiesJarray : List Int32)
    (hintsJarray : List (Option Bytes)) (weightsJarray : List Int64) (n : Int32) :
    Native (Bytes × Bytes) := do
  let crs ← deserializeJbyteArray P.crs crsJarray
  let numOfKeys := partiesJarray.length
  let keys ← arrayRegion partiesJarray numOfKeys
  let weights ← arrayRegion weightsJarray numOfKeys
  let hintsArray ← deserializeElements P.extendedPublicKey hintsJarray numOfKeys
  let entries := (keys.map fun key ↦ asUsize key.toInt).zip (weights.zip hintsArray)
  let (vk, ak) ← orNull (preprocess (asUsize n.toInt) crs (signerInfo entries))
  .ok (P.verificationKey.write vk, P.aggregationKey.write ak)

def signBlsImpl (messageJarray secretKeyJarray : Bytes) : Native Bytes := do
  let secretKey ← deserializeJbyteArray P.secretKey secretKeyJarray
  let signature ← orNull (sign messageJarray secretKey)
  .ok (P.g2.write signature)

def verifyBlsImpl (signatureJarray messageJarray aggregationKeyJarray : Bytes) (partyId : Int32) :
    Native Bool := do
  let aggregationKey ← deserializeJbyteArray P.aggregationKey aggregationKeyJarray
  let signature ← deserializeJbyteArray P.g2 signatureJarray
  orNull (partialVerify messageJarray aggregationKey (asUsize partyId.toInt) signature)

def verifyBlsBatchImpl (messageJarray aggregationKeyJarray : Bytes) (partiesJarray : List Int32)
    (partialSignaturesJarray : List (Option Bytes)) (r : Fr) : Native Bool := do
  let aggregationKey ← deserializeJbyteArray P.aggregationKey aggregationKeyJarray
  let numOfKeys := partiesJarray.length
  let keys ← arrayRegion partiesJarray numOfKeys
  let partialSignatures ← deserializeElements P.g2 partialSignaturesJarray numOfKeys
  orNull (partialVerifyBatch messageJarray aggregationKey (keys.map fun key ↦ asUsize key.toInt)
    partialSignatures r)

def aggregateSignaturesImpl (crsJarray aggregationKeyJarray verificationKeyJarray : Bytes)
    (partiesJarray : List Int32) (partialSignaturesJarray : List (Option Bytes)) :
    Native Bytes := do
  let crs ← deserializeJbyteArray P.crs crsJarray
  let aggregationKey ← deserializeJbyteArray P.aggregationKey aggregationKeyJarray
  let verificationKey ← deserializeJbyteArray P.verificationKey verificationKeyJarray
  let numOfKeys := partiesJarray.length
  let keys ← arrayRegion partiesJarray numOfKeys
  let partialSignatures ← deserializeElements P.g2 partialSignaturesJarray numOfKeys
  let entries := (keys.map fun key ↦ asUsize key.toInt).zip partialSignatures
  let thresholdSignature ← orNull
    (aggregate crs aggregationKey verificationKey (partialSignatureMap entries))
  .ok (P.thresholdSignature.write thresholdSignature)

def verifyAggregateImpl (signatureJarray messageJarray verificationKeyJarray : Bytes)
    (thresholdNumerator thresholdDenominator : Int64) : Native Bool := do
  let signature ← deserializeJbyteArray P.thresholdSignature signatureJarray
  let verificationKey ← deserializeJbyteArray P.verificationKey verificationKeyJarray
  orNull (verify messageJarray verificationKey signature
    (longToFr thresholdNumerator, longToFr thresholdDenominator))

def initCrsImpl (signersNum : Int16) : Native Bytes :=
  .ok (P.crs.write (init E (asUsize signersNum.toInt)))

def updateCrsImpl (prevCrsArray randomArray : Bytes) : Native Bytes := do
  let prevCrs ← deserializeJbyteArray P.crs prevCrsArray
  let randomArr ← buildEntropyArray randomArray
  let (crs, contributionProof) ← orNull (contribute prevCrs randomArr)
  .ok (P.crs.write crs ++ P.contributionProof.write contributionProof)

def verifyCrsImpl (prevCrsArray nextCrsArray contributionProofArray : Bytes) : Native Bool := do
  let prevCrs ← deserializeJbyteArray P.crs prevCrsArray
  let nextCrs ← deserializeJbyteArray P.crs nextCrsArray
  let contributionProof ← deserializeJbyteArray P.contributionProof contributionProofArray
  orNull (verifyContribution prevCrs nextCrs contributionProof)

def pruneCrsImpl (prevCrsArray : Bytes) (signersNum : Int16) : Native Bytes := do
  let prevCrs ← deserializeJbyteArray P.crs prevCrsArray
  let crs ← orNull (pruneCrs prevCrs (asUsize signersNum.toInt))
  .ok (P.crs.write crs)

end PointCodec

end HieroCryptography.Hints
