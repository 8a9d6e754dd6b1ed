import HieroCryptography.Foundation.Bits
import HieroCryptography.Foundation.SchnorrShares
import HieroCryptography.Wraps.Engine

namespace HieroCryptography.Wraps

open Foundation Rust

variable {E : Engine}

def truncateToChallenge (x : E.Base) : E.Base :=
  ((leBitsOf x numChallengeBits).foldl
    (fun (acc, coeff) bit ↦ (if bit then acc + coeff else acc, coeff + coeff)) (0, 1)).1

theorem ofBits_leBitsOf {n : ℕ} [NeZero n] {a : ZMod n} {k : ℕ} (h : a.val < 2 ^ k) :
    ofBits (leBitsOf a k) = a.val := by
  rw [leBitsOf, ofBits_testBit, Nat.mod_eq_of_lt h]

theorem truncateToChallenge_eq (x : E.Base) :
    truncateToChallenge x = (ofBits (leBitsOf x numChallengeBits) : E.Base) := by
  have h := foldl_doubling (leBitsOf x numChallengeBits) (0 : E.Base) 1
  rw [zero_add, one_mul] at h
  exact h

structure Keypair (E : Engine) where
  sk : E.Scalar
  pk : E.GE

structure Signature (E : Engine) where
  e : E.Base
  s : E.Scalar
  deriving DecidableEq

structure SchnorrPoK (E : Engine) where
  commitment : E.GE
  challenge : E.Scalar
  response : E.Scalar
  deriving DecidableEq

namespace Schnorr

def challenge (pk r : E.GE) (msg : List E.Base) : E.Base :=
  truncateToChallenge (E.poseidon dsChallenge (encodePoint pk ++ encodePoint r ++ msg))

def keygen (sk : E.Scalar) : Keypair E := { sk, pk := sk • E.gen }

/-- Signing with the sampled nonce `k`. -/
def sign (kp : Keypair E) (msg : List E.Base) (k : E.Scalar) : Signature E :=
  let e := challenge kp.pk (k • E.gen) msg
  { e, s := k + kp.sk * fieldSwitch e }

def verify (pk : E.GE) (msg : List E.Base) (sig : Signature E) : Bool :=
  challenge pk (sig.s • E.gen - fieldSwitch sig.e • pk) msg = sig.e

def pokChallenge (pk commitment : E.GE) : E.Scalar :=
  reduceDigest (E.sha256
    (dstPok ++ [E.gen, pk, commitment].flatMap fun p ↦ (encodePoint p).flatMap toRepr))

def proveKnowledge (kp : Keypair E) (r : E.Scalar) : SchnorrPoK E :=
  let commitment := r • E.gen
  let challenge := pokChallenge kp.pk commitment
  { commitment, challenge, response := r + kp.sk * challenge }

def verifyKnowledge (pk : E.GE) (pok : SchnorrPoK E) : Bool :=
  if pokChallenge pk pok.commitment ≠ pok.challenge then false
  else pok.response • E.gen = pok.commitment + pok.challenge • pk

theorem verifyKnowledge_proveKnowledge (sk r : E.Scalar) :
    verifyKnowledge (keygen sk).pk (proveKnowledge (keygen sk) r) = true := by
  simp [verifyKnowledge, proveKnowledge, keygen, add_smul, mul_smul, mul_comm sk]

end Schnorr

structure MultisigRound1 where
  nonceCommitment : Digest
  deriving DecidableEq

structure MultisigRound2 (E : Engine) where
  noncePoint : E.GE
  deriving DecidableEq

structure MultisigRound3 (E : Engine) where
  partialSignature : Signature E
  deriving DecidableEq

inductive RoundMessage (E : Engine)
  | round1 (payload : MultisigRound1)
  | round2 (payload : MultisigRound2 E)
  | round3 (payload : MultisigRound3 E)
  deriving DecidableEq

namespace Multisig

def nonce (protocolInstanceEntropy : Digest) (msg : List E.Base) : E.Scalar :=
  E.randomScalar (E.sha256 (protocolInstanceEntropy.toList ++ msg.flatMap toRepr))

def commitNonce (r : E.GE) : MultisigRound1 where
  nonceCommitment := E.sha256 (dstNonceCommitment ++ (encodePoint r).flatMap toRepr)

def aggregateKey (publicKeys : List E.GE) : Result E.GE :=
  match publicKeys with
  | [] => fail (.invalidInput "a signing set must have at least one member")
  | pk :: rest => .ok (rest.foldl (· + ·) pk)

def round1 (protocolInstanceEntropy : Digest) (msg : List E.Base) : MultisigRound1 :=
  commitNonce (nonce protocolInstanceEntropy msg • E.gen)

def round2 (protocolInstanceEntropy : Digest) (msg : List E.Base) : MultisigRound2 E where
  noncePoint := nonce protocolInstanceEntropy msg • E.gen

def checkOpenings (round1 : List MultisigRound1) (round2 : List (MultisigRound2 E)) :
    Result Unit :=
  round2.zipIdx.forM fun (r, i) ↦ do
    let commitment ← index round1 i
    require (commitNonce r.noncePoint = commitment)
      (.invalidInput s!"signer {i}: the round-2 nonce does not open its round-1 commitment")

def challenge (msg : List E.Base) (publicKeys : List E.GE) (round1 : List MultisigRound1)
    (round2 : List (MultisigRound2 E)) : Result E.Base := do
  let n := publicKeys.length
  require (¬ n = 0) (.invalidInput "a signing set must have at least one member")
  require (¬ (round1.length ≠ n ∨ round2.length ≠ n))
    (.invalidInput "round-1 and round-2 message counts must match the signing set")
  checkOpenings round1 round2
  let aggregateR ← aggregateKey (round2.map MultisigRound2.noncePoint)
  let aggregatePk ← aggregateKey publicKeys
  require (¬ isInfinity aggregatePk)
    (.invalidInput "the signing set's aggregate public key must not be the identity")
  .ok (Schnorr.challenge aggregatePk aggregateR msg)

def round3 (protocolInstanceEntropy : Digest) (msg : List E.Base) (sk : E.Scalar)
    (publicKeys : List E.GE) (round1 : List MultisigRound1) (round2 : List (MultisigRound2 E)) :
    Result (MultisigRound3 E) := do
  let e ← challenge msg publicKeys round1 round2
  let nonce := nonce protocolInstanceEntropy msg
  let pk := sk • E.gen
  let noncePoint := nonce • E.gen
  let signer ← okOr (publicKeys.findIdx? (· = pk))
    (.invalidInput "R3 signing key is not in the signing subset")
  let own ← index round2 signer
  require (¬ own.noncePoint ≠ noncePoint) (.invalidInput
    "R3 session entropy or message does not match the signer's round-2 nonce")
  .ok { partialSignature := { e, s := nonce + sk * fieldSwitch e } }

def checkShares (e : E.Base) (publicKeys : List E.GE) (round2 : List (MultisigRound2 E))
    (round3 : List (MultisigRound3 E)) : Result Unit :=
  round3.zipIdx.forM fun (share, i) ↦ do
    require (¬ share.partialSignature.e ≠ e)
      (.invalidInput s!"signer {i}: partial signature answers a different challenge")
    let pk ← index publicKeys i
    let r ← index round2 i
    require (¬ share.partialSignature.s • E.gen - fieldSwitch e • pk ≠ r.noncePoint) (.invalidInput
      s!"signer {i}: partial signature does not verify against its own nonce and key")

def aggregate (msg : List E.Base) (publicKeys : List E.GE) (round1 : List MultisigRound1)
    (round2 : List (MultisigRound2 E)) (round3 : List (MultisigRound3 E)) :
    Result (Signature E) := do
  require (¬ round3.length ≠ publicKeys.length)
    (.invalidInput "round-3 message count must match the signing set")
  let e ← challenge msg publicKeys round1 round2
  checkShares e publicKeys round2 round3
  .ok { e, s := round3.foldl (fun acc share ↦ acc + share.partialSignature.s) 0 }

theorem aggregateKey_ok_iff {publicKeys : List E.GE} {joint : E.GE} :
    aggregateKey publicKeys = .ok joint ↔ publicKeys ≠ [] ∧ joint = publicKeys.sum := by
  cases publicKeys with
  | nil => simp [aggregateKey]
  | cons pk rest =>
    rw [List.sum_eq_foldl, List.foldl_cons, zero_add]
    simp [aggregateKey, eq_comm]

theorem checkOpenings_ok_iff {round1 : List MultisigRound1} {round2 : List (MultisigRound2 E)}
    (hlen : round1.length = round2.length) {u : Unit} :
    checkOpenings round1 round2 = .ok u ↔
      round1 = round2.map fun r ↦ commitNonce r.noncePoint := by
  simp only [checkOpenings, forM_ok_iff, Prod.forall, List.mem_zipIdx_iff_getElem?, bind_ok_iff,
    index_ok_iff, require_ok_iff, decide_eq_true_eq]
  constructor
  · intro h
    apply List.ext_getElem (by simpa using hlen)
    intro i h₁ h₂
    rw [List.length_map] at h₂
    obtain ⟨c, hc, hopen⟩ := h round2[i] i (List.getElem?_eq_getElem h₂)
    rw [List.getElem?_eq_getElem h₁, Option.some.injEq] at hc
    rw [List.getElem_map, hopen, hc]
  · rintro rfl r i hr
    exact ⟨_, by rw [List.getElem?_map, hr, Option.map_some], rfl⟩

theorem challenge_ok_iff {msg : List E.Base} {publicKeys : List E.GE}
    {round1 : List MultisigRound1} {round2 : List (MultisigRound2 E)} {e : E.Base} :
    challenge msg publicKeys round1 round2 = .ok e ↔ publicKeys ≠ [] ∧
      round2.length = publicKeys.length ∧
      round1 = round2.map (fun r ↦ commitNonce r.noncePoint) ∧ publicKeys.sum ≠ 0 ∧
      e = Schnorr.challenge publicKeys.sum (round2.map MultisigRound2.noncePoint).sum msg := by
  simp only [challenge, bind_ok_iff, require_ok_iff, decide_eq_true_eq, List.length_eq_zero_iff,
    not_or, ne_eq, not_not, aggregateKey_ok_iff, Bool.not_eq_true, isInfinity_eq_false_iff,
    Except.ok.injEq]
  constructor
  · rintro ⟨-, hne, -, ⟨hlen₁, hlen₂⟩, u, hopen, r, ⟨-, rfl⟩, pk, ⟨-, rfl⟩, -, hpk, rfl⟩
    rw [checkOpenings_ok_iff (hlen₁.trans hlen₂.symm)] at hopen
    exact ⟨hne, hlen₂, hopen, hpk, rfl⟩
  · rintro ⟨hne, hlen, hopen, hpk, rfl⟩
    have hlen₁ : round1.length = round2.length := by simp [hopen]
    have hne₂ : round2.map MultisigRound2.noncePoint ≠ [] := by
      rw [← List.length_pos_iff, List.length_map, hlen]
      exact List.length_pos_iff.mpr hne
    exact ⟨(), hne, (), ⟨hlen₁.trans hlen, hlen⟩, (), (checkOpenings_ok_iff hlen₁).mpr hopen,
      _, ⟨hne₂, rfl⟩, _, ⟨hne, rfl⟩, (), hpk, rfl⟩

/-- One list of commitments can be opened in one way only, when commitments do not collide. -/
theorem challenge_unique (hcommit : Function.Injective (commitNonce (E := E)))
    {msg : List E.Base} {publicKeys : List E.GE} {round1 : List MultisigRound1}
    {round2 round2' : List (MultisigRound2 E)} {e e' : E.Base}
    (h : challenge msg publicKeys round1 round2 = .ok e)
    (h' : challenge msg publicKeys round1 round2' = .ok e') : round2' = round2 ∧ e' = e := by
  obtain ⟨-, -, hopen, -, he⟩ := challenge_ok_iff.mp h
  obtain ⟨-, -, hopen', -, he'⟩ := challenge_ok_iff.mp h'
  have hinj : Function.Injective fun r : MultisigRound2 E ↦ commitNonce r.noncePoint := by
    rintro ⟨r⟩ ⟨r'⟩ hr
    exact congrArg MultisigRound2.mk (hcommit hr)
  have hsame : round2' = round2 := hinj.list_map (hopen'.symm.trans hopen)
  exact ⟨hsame, by rw [he, he', hsame]⟩

theorem round3_ok_iff {entropy : Digest} {msg : List E.Base} {sk : E.Scalar}
    {publicKeys : List E.GE} {round1 : List MultisigRound1} {round2 : List (MultisigRound2 E)}
    {share : MultisigRound3 E} :
    round3 entropy msg sk publicKeys round1 round2 = .ok share ↔
      ∃ e, challenge msg publicKeys round1 round2 = .ok e ∧
        (∃ signer, publicKeys.findIdx? (· = sk • E.gen) = some signer ∧
          round2[signer]? = some (Multisig.round2 entropy msg)) ∧
        share = ⟨⟨e, nonce entropy msg + sk * fieldSwitch e⟩⟩ := by
  simp only [round3, bind_ok_iff, okOr_ok_iff, index_ok_iff, require_ok_iff, decide_eq_true_eq,
    ne_eq, not_not, Except.ok.injEq, exists_const]
  constructor
  · rintro ⟨e, he, signer, hsigner, own, hown, hnonce, rfl⟩
    refine ⟨e, he, ⟨signer, hsigner, ?_⟩, rfl⟩
    rw [hown, Multisig.round2, ← hnonce]
  · rintro ⟨e, he, ⟨signer, hsigner, hown⟩, rfl⟩
    exact ⟨e, he, signer, hsigner, _, hown, rfl, rfl⟩

theorem checkShares_ok_iff {e : E.Base} {publicKeys : List E.GE}
    {round2 : List (MultisigRound2 E)} {round3 : List (MultisigRound3 E)}
    (hlen₂ : round2.length = publicKeys.length) (hlen₃ : round3.length = publicKeys.length)
    {u : Unit} :
    checkShares e publicKeys round2 round3 = .ok u ↔
      (∀ share ∈ round3, share.partialSignature.e = e) ∧
      List.zipWith (SchnorrShares.opened E.gen (fieldSwitch e)) publicKeys
        (round3.map fun share ↦ share.partialSignature.s) =
        round2.map MultisigRound2.noncePoint := by
  simp only [checkShares, forM_ok_iff, Prod.forall, List.mem_zipIdx_iff_getElem?, bind_ok_iff,
    index_ok_iff, require_ok_iff, decide_eq_true_eq, ne_eq, not_not, exists_const]
  constructor
  · intro h
    refine ⟨fun share hshare ↦ ?_, ?_⟩
    · obtain ⟨i, hi⟩ := List.mem_iff_getElem?.mp hshare
      exact (h share i hi).1
    · apply List.ext_getElem (by simp [hlen₂, hlen₃])
      intro i h₁ h₂
      rw [List.length_map] at h₂
      obtain ⟨-, pk, hpk, r, hr, hopen⟩ := h (round3.get ⟨i, by omega⟩) i (by simp)
      rw [List.getElem?_eq_getElem (by omega), Option.some.injEq] at hpk
      rw [List.getElem?_eq_getElem h₂, Option.some.injEq] at hr
      simpa [SchnorrShares.opened, hpk, hr] using hopen
  · rintro ⟨he, hopen⟩ share i hi
    have hlt : i < round3.length := (List.getElem?_eq_some_iff.mp hi).1
    refine ⟨he share (List.mem_of_getElem? hi), publicKeys.get ⟨i, by omega⟩, by simp,
      round2.get ⟨i, by omega⟩, by simp, ?_⟩
    have hat := congrArg (·[i]?) hopen
    rw [List.getElem?_zipWith, List.getElem?_map, hi, List.getElem?_eq_getElem (by omega),
      List.getElem?_map, List.getElem?_eq_getElem (by omega)] at hat
    exact Option.some.inj hat

theorem responses_foldl (round3 : List (MultisigRound3 E)) :
    round3.foldl (fun acc share ↦ acc + share.partialSignature.s) 0 =
      (round3.map fun share ↦ share.partialSignature.s).sum := by
  rw [List.sum_eq_foldl, List.foldl_map]

theorem aggregate_ok_iff {msg : List E.Base} {publicKeys : List E.GE}
    {round1 : List MultisigRound1} {round2 : List (MultisigRound2 E)}
    {round3 : List (MultisigRound3 E)} {sig : Signature E} :
    aggregate msg publicKeys round1 round2 round3 = .ok sig ↔
      round3.length = publicKeys.length ∧
      challenge msg publicKeys round1 round2 = .ok sig.e ∧
      (∀ share ∈ round3, share.partialSignature.e = sig.e) ∧
      List.zipWith (SchnorrShares.opened E.gen (fieldSwitch sig.e)) publicKeys
        (round3.map fun share ↦ share.partialSignature.s) =
        round2.map MultisigRound2.noncePoint ∧
      sig.s = (round3.map fun share ↦ share.partialSignature.s).sum := by
  simp only [aggregate, bind_ok_iff, require_ok_iff, decide_eq_true_eq, ne_eq, not_not,
    Except.ok.injEq, exists_const, responses_foldl]
  constructor
  · rintro ⟨hlen, e, he, u, hshares, rfl⟩
    have hlen₂ := (challenge_ok_iff.mp he).2.1
    obtain ⟨hall, hopen⟩ := (checkShares_ok_iff hlen₂ hlen).mp hshares
    exact ⟨hlen, he, hall, hopen, rfl⟩
  · rintro ⟨hlen, he, hall, hopen, hs⟩
    have hlen₂ := (challenge_ok_iff.mp he).2.1
    refine ⟨hlen, sig.e, he, (), (checkShares_ok_iff hlen₂ hlen).mpr ⟨hall, hopen⟩, ?_⟩
    rw [← hs]

/-- Whatever the shares, what aggregation returns is a signature under the joint key. -/
theorem verify_of_aggregate_ok {msg : List E.Base} {publicKeys : List E.GE}
    {round1 : List MultisigRound1} {round2 : List (MultisigRound2 E)}
    {round3 : List (MultisigRound3 E)} {sig : Signature E}
    (h : aggregate msg publicKeys round1 round2 round3 = .ok sig) :
    Schnorr.verify publicKeys.sum msg sig = true := by
  obtain ⟨hlen, he, -, hopen, hs⟩ := aggregate_ok_iff.mp h
  obtain ⟨-, -, -, -, hchallenge⟩ := challenge_ok_iff.mp he
  have hsum := SchnorrShares.opened_sum E.gen (fieldSwitch sig.e) publicKeys
    (round3.map fun share ↦ share.partialSignature.s) (by simpa using hlen)
  rw [hopen, ← hs, SchnorrShares.opened] at hsum
  rw [Schnorr.verify, hsum, ← hchallenge, decide_eq_true_eq]

end Multisig

end HieroCryptography.Wraps
