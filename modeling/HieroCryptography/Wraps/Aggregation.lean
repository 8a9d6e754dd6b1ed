import HieroCryptography.Wraps.LineEngine

namespace HieroCryptography.Wraps

open Foundation Rust

variable {E : Engine} {S : Serde E}

structure Signer (E : Engine) where
  sk : E.Scalar
  entropy : Digest

namespace Signer

def pk (signer : Signer E) : E.GE := signer.sk • E.gen

/-- The three messages an honest party has to send, the last for the challenge `e`. -/
def round1 (msg : List E.Base) (signer : Signer E) : MultisigRound1 :=
  Multisig.round1 signer.entropy msg

def round2 (msg : List E.Base) (signer : Signer E) : MultisigRound2 E :=
  Multisig.round2 signer.entropy msg

def round3 (msg : List E.Base) (e : E.Base) (signer : Signer E) : MultisigRound3 E :=
  ⟨⟨e, Multisig.nonce signer.entropy msg + signer.sk * fieldSwitch e⟩⟩

end Signer

def honestChallenge (msg : List E.Base) (signers : List (Signer E)) : E.Base :=
  Schnorr.challenge (signers.map Signer.pk).sum
    ((signers.map (Signer.round2 msg)).map MultisigRound2.noncePoint).sum msg

namespace Multisig

variable {msg : List E.Base} {signers : List (Signer E)}

theorem challenge_honest (hne : signers ≠ []) (hjoint : (signers.map Signer.pk).sum ≠ 0) :
    challenge msg (signers.map Signer.pk) (signers.map (Signer.round1 msg))
      (signers.map (Signer.round2 msg)) = .ok (honestChallenge msg signers) := by
  rw [challenge_ok_iff]
  refine ⟨by simpa using hne, by simp, ?_, hjoint, rfl⟩
  rw [List.map_map]
  rfl

theorem round3_honest (hne : signers ≠ []) (hjoint : (signers.map Signer.pk).sum ≠ 0)
    (hnodup : (signers.map Signer.pk).Nodup) {signer : Signer E} (hmem : signer ∈ signers) :
    round3 signer.entropy msg signer.sk (signers.map Signer.pk) (signers.map (Signer.round1 msg))
      (signers.map (Signer.round2 msg)) =
        .ok (signer.round3 msg (honestChallenge msg signers)) := by
  obtain ⟨i, hi⟩ := List.mem_iff_getElem?.mp hmem
  refine round3_ok_iff.mpr ⟨_, challenge_honest hne hjoint, ⟨i, ?_, ?_⟩, rfl⟩
  · refine findIdx?_of_nodup hnodup ?_
    rw [List.getElem?_map, hi]
    rfl
  · rw [List.getElem?_map, hi]
    rfl

theorem aggregate_honest (msg : List E.Base) (hne : signers ≠ [])
    (hjoint : (signers.map Signer.pk).sum ≠ 0) :
    ∃ sig, aggregate msg (signers.map Signer.pk) (signers.map (Signer.round1 msg))
      (signers.map (Signer.round2 msg))
      (signers.map (Signer.round3 msg (honestChallenge msg signers))) = .ok sig := by
  refine ⟨⟨honestChallenge msg signers, _⟩, aggregate_ok_iff.mpr ⟨by simp,
    challenge_honest hne hjoint, ?_, ?_, rfl⟩⟩
  · intro share hshare
    obtain ⟨signer, -, rfl⟩ := List.mem_map.mp hshare
    rfl
  · rw [List.map_map, List.map_map, List.zipWith_map, List.zipWith_self]
    apply List.map_congr_left
    intro signer _
    exact SchnorrShares.opened_respond E.gen _ signer.sk _

end Multisig

/-- A session all of whose selected seats are held by honest parties, listed in the order
of the signing subset. -/
structure HonestSession (S : Serde E) (book : AddressBook E) (bits : List Bool)
    (bitvector : BitVector) (message : Bytes) (msg : RotationMessage E)
    (signers : List (Signer E)) : Prop where
  valid : ValidBook book
  padded : padBitvector bits = .ok bitvector
  inside : ∀ signed ∈ bitvector.toList.drop book.length, signed = false
  held : ∀ seat ∈ seats book bitvector, seat.2 = true → seat.1.pubKey ≠ 0
  nonempty : signers ≠ []
  keys : signers.map Signer.pk = signingSubset book bitvector
  joint : (signers.map Signer.pk).sum ≠ 0
  message : decodeRotationMessage S message = .ok msg

namespace HonestSession

variable {book : AddressBook E} {bits : List Bool} {bitvector : BitVector} {message : Bytes}
  {msg : RotationMessage E} {signers : List (Signer E)}

theorem nodup (h : HonestSession S book bits bitvector message msg signers) :
    (signers.map Signer.pk).Nodup :=
  h.keys ▸ signingSubset_nodup h.valid bitvector

theorem checked (h : HonestSession S book bits bitvector message msg signers)
    {phase : SigningProtocolPhase} {hasEntropy hasKey : Bool} {r1 r2 r3 : List Bytes}
    {round1 : List MultisigRound1} {round2 : List (MultisigRound2 E)}
    {round3 : List (MultisigRound3 E)}
    (hr1 : List.Forall₂ (Carries S RoundMessage.asRound1) r1 round1)
    (hr2 : List.Forall₂ (Carries S RoundMessage.asRound2) r2 round2)
    (hr3 : List.Forall₂ (Carries S RoundMessage.asRound3) r3 round3)
    (hphase : validateSigningPhase phase signers.length hasEntropy hasKey
      (round1.length, round2.length, round3.length) = .ok ()) :
    Checked S phase hasEntropy message hasKey book bits r1 r2 r3
      ⟨bitvector, signers.map Signer.pk, msg, round1, round2, round3⟩ := by
  refine ⟨h.valid, h.padded, h.inside, h.held, h.keys, fun _ ↦ ?_, ?_, h.message, hr1, hr2, hr3⟩
  · simpa using h.nonempty
  · rw [List.length_map, hr1.length_eq, hr2.length_eq, hr3.length_eq]
    exact hphase

end HonestSession

theorem carries_map (hrt : S.roundMessage.RoundTrips) {T : Type}
    (payload : RoundMessage E → Option T) {messageOf : T → RoundMessage E}
    (hpayload : ∀ t, payload (messageOf t) = some t) {signers : List (Signer E)}
    {send : Signer E → T} {sent : List Bytes}
    (h : List.Forall₂ (fun signer bytes ↦
      encode S.roundMessage (messageOf (send signer)) = .ok bytes) signers sent) :
    List.Forall₂ (Carries S payload) sent (signers.map send) := by
  rw [List.forall₂_map_right_iff]
  refine h.flip.imp fun bytes signer hbytes ↦ ?_
  exact ⟨messageOf (send signer), hrt.decode_of_encode hbytes, hpayload _⟩

theorem exists_sent (hrt : S.roundMessage.RoundTrips) (signers : List (Signer E))
    (messageOf : Signer E → RoundMessage E) :
    ∃ sent, List.Forall₂ (fun signer bytes ↦
      encode S.roundMessage (messageOf signer) = .ok bytes) signers sent := by
  choose bytesOf hbytes using fun signer ↦ (hrt.decode_encode (messageOf signer))
  refine ⟨signers.map bytesOf, ?_⟩
  rw [List.forall₂_map_right_iff, List.forall₂_same]
  exact fun signer _ ↦ (hbytes signer).1

theorem forall₂_calls {signers : List (Signer E)} {messageOf : Signer E → RoundMessage E}
    {sent : List Bytes} {call : Signer E → Result (SigningProtocolObject E)}
    (hsent : List.Forall₂ (fun signer bytes ↦
      encode S.roundMessage (messageOf signer) = .ok bytes) signers sent)
    (hcall : ∀ signer ∈ signers, ∀ bytes, encode S.roundMessage (messageOf signer) = .ok bytes →
      call signer = .ok (.protocolMessage bytes)) :
    List.Forall₂ (fun signer bytes ↦ call signer = .ok (.protocolMessage bytes)) signers sent := by
  induction hsent with
  | nil => exact .nil
  | cons hbytes _ ih =>
    refine .cons (hcall _ List.mem_cons_self _ hbytes) (ih fun signer hmem ↦ ?_)
    exact hcall signer (List.mem_cons_of_mem _ hmem)

namespace HonestSession

variable {book : AddressBook E} {bits : List Bool} {bitvector : BitVector} {message : Bytes}
  {msg : RotationMessage E} {signers : List (Signer E)} {r1 r2 r3 : List Bytes}

theorem call_r1 (h : HonestSession S book bits bitvector message msg signers)
    (signer : Signer E) {bytes : Bytes}
    (hbytes : encode S.roundMessage (.round1 (signer.round1 msg.elements)) = .ok bytes) :
    signingProtocol S .r1 (some signer.entropy) message (some signer.sk) book bits [] [] [] =
      .ok (.protocolMessage bytes) := by
  refine signingProtocol_ok_iff.mpr ⟨_, h.checked .nil .nil .nil ?_, ?_⟩
  · simp [validateSigningPhase_ok_iff, phaseNeeds]
  · exact encodeProtocolMessage_ok_iff.mpr ⟨bytes, hbytes, rfl⟩

theorem call_r2 (h : HonestSession S book bits bitvector message msg signers)
    (hr1 : List.Forall₂ (Carries S RoundMessage.asRound1) r1
      (signers.map (Signer.round1 msg.elements)))
    {signer : Signer E} (hmem : signer ∈ signers) {bytes : Bytes}
    (hbytes : encode S.roundMessage (.round2 (signer.round2 msg.elements)) = .ok bytes) :
    signingProtocol S .r2 (some signer.entropy) message (some signer.sk) book bits r1 [] [] =
      .ok (.protocolMessage bytes) := by
  refine signingProtocol_ok_iff.mpr ⟨_, h.checked hr1 .nil .nil ?_, ?_⟩
  · simp [validateSigningPhase_ok_iff, phaseNeeds]
  · have hown : (signers.map (Signer.round1 msg.elements)).contains
        (Multisig.round1 signer.entropy msg.elements) = true :=
      List.contains_iff_mem.mpr (List.mem_map.mpr ⟨signer, hmem, rfl⟩)
    simp only [runPhase, expect_some, ok_bind, hown, require_true]
    exact encodeProtocolMessage_ok_iff.mpr ⟨bytes, hbytes, rfl⟩

theorem call_r3 (h : HonestSession S book bits bitvector message msg signers)
    (hr1 : List.Forall₂ (Carries S RoundMessage.asRound1) r1
      (signers.map (Signer.round1 msg.elements)))
    (hr2 : List.Forall₂ (Carries S RoundMessage.asRound2) r2
      (signers.map (Signer.round2 msg.elements)))
    {signer : Signer E} (hmem : signer ∈ signers) {bytes : Bytes}
    (hbytes : encode S.roundMessage (.round3
      (signer.round3 msg.elements (honestChallenge msg.elements signers))) = .ok bytes) :
    signingProtocol S .r3 (some signer.entropy) message (some signer.sk) book bits r1 r2 [] =
      .ok (.protocolMessage bytes) := by
  refine signingProtocol_ok_iff.mpr ⟨_, h.checked hr1 hr2 .nil ?_, ?_⟩
  · simp [validateSigningPhase_ok_iff, phaseNeeds]
  · exact runPhase_r3_ok_iff.mpr ⟨_, _, _, bytes, rfl, rfl,
      Multisig.round3_honest h.nonempty h.joint h.nodup hmem, hbytes, rfl⟩

theorem call_aggregate (h : HonestSession S book bits bitvector message msg signers)
    (hr1 : List.Forall₂ (Carries S RoundMessage.asRound1) r1
      (signers.map (Signer.round1 msg.elements)))
    (hr2 : List.Forall₂ (Carries S RoundMessage.asRound2) r2
      (signers.map (Signer.round2 msg.elements)))
    (hr3 : List.Forall₂ (Carries S RoundMessage.asRound3) r3
      (signers.map (Signer.round3 msg.elements (honestChallenge msg.elements signers)))) :
    ∃ sig, (∀ entropy key, signingProtocol S .aggregate entropy message key book bits r1 r2 r3 =
        .ok (.protocolOutput (bitvector, sig))) ∧
      Schnorr.verify (signingSubset book bitvector).sum msg.elements sig = true := by
  obtain ⟨sig, hsig⟩ := Multisig.aggregate_honest msg.elements h.nonempty h.joint
  refine ⟨sig, fun entropy key ↦ ?_, h.keys ▸ Multisig.verify_of_aggregate_ok hsig⟩
  refine signingProtocol_ok_iff.mpr ⟨_, h.checked hr1 hr2 hr3 ?_, ?_⟩
  · simp [validateSigningPhase_ok_iff, phaseNeeds]
  · exact runPhase_aggregate_ok_iff.mpr ⟨sig, hsig, rfl⟩

theorem completes (h : HonestSession S book bits bitvector message msg signers)
    (hrt : S.roundMessage.RoundTrips) :
    ∃ r1 r2 r3 sig,
      List.Forall₂ (fun signer bytes ↦ signingProtocol S .r1 (some signer.entropy) message
        (some signer.sk) book bits [] [] [] = .ok (.protocolMessage bytes)) signers r1 ∧
      List.Forall₂ (fun signer bytes ↦ signingProtocol S .r2 (some signer.entropy) message
        (some signer.sk) book bits r1 [] [] = .ok (.protocolMessage bytes)) signers r2 ∧
      List.Forall₂ (fun signer bytes ↦ signingProtocol S .r3 (some signer.entropy) message
        (some signer.sk) book bits r1 r2 [] = .ok (.protocolMessage bytes)) signers r3 ∧
      (∀ entropy key, signingProtocol S .aggregate entropy message key book bits r1 r2 r3 =
        .ok (.protocolOutput (bitvector, sig))) ∧
      Schnorr.verify (signingSubset book bitvector).sum msg.elements sig = true := by
  obtain ⟨r1, hsent1⟩ := exists_sent hrt signers fun signer ↦ .round1 (signer.round1 msg.elements)
  obtain ⟨r2, hsent2⟩ := exists_sent hrt signers fun signer ↦ .round2 (signer.round2 msg.elements)
  obtain ⟨r3, hsent3⟩ := exists_sent hrt signers fun signer ↦
    .round3 (signer.round3 msg.elements (honestChallenge msg.elements signers))
  have hr1 := carries_map hrt RoundMessage.asRound1 (fun _ ↦ rfl) hsent1
  have hr2 := carries_map hrt RoundMessage.asRound2 (fun _ ↦ rfl) hsent2
  have hr3 := carries_map hrt RoundMessage.asRound3 (fun _ ↦ rfl) hsent3
  obtain ⟨sig, hagg, hverify⟩ := h.call_aggregate hr1 hr2 hr3
  refine ⟨r1, r2, r3, sig, ?_, ?_, ?_, hagg, hverify⟩
  · exact forall₂_calls hsent1 fun signer _ _ hbytes ↦ h.call_r1 signer hbytes
  · exact forall₂_calls hsent2 fun signer hmem _ hbytes ↦ h.call_r2 hr1 hmem hbytes
  · exact forall₂_calls hsent3 fun signer hmem _ hbytes ↦ h.call_r3 hr1 hr2 hmem hbytes

end HonestSession

theorem getElem?_padded_iff {bits : List Bool} {bitvector : BitVector}
    (h : padBitvector bits = .ok bitvector) {i : ℕ} :
    bitvector.toList[i]? = some true ↔ bits[i]? = some true := by
  rw [(padBitvector_ok_iff.mp h).2, List.getElem?_append]
  split
  · rfl
  · rename_i hle
    rw [List.getElem?_replicate, List.getElem?_eq_none (by omega)]
    split <;> simp

theorem HonestSession.of_seats {book : AddressBook E} (hbook : verifyAddressBook book = true)
    {bits : List Bool} {bitvector : BitVector} (hpad : padBitvector bits = .ok bitvector)
    (hsome : true ∈ bits) (hseats : ∀ i : ℕ, bits[i]? = some true →
      ∃ entry : AddressBookEntry E, book[i]? = some entry ∧ entry.pubKey ≠ 0)
    {signers : List (Signer E)} (hkeys : signers.map Signer.pk = signingSubset book bitvector)
    (hjoint : (signingSubset book bitvector).sum ≠ 0) {message : Bytes} {msg : RotationMessage E}
    (hmessage : decodeRotationMessage S message = .ok msg) :
    HonestSession S book bits bitvector message msg signers where
  valid := verifyAddressBook_eq_true_iff.mp hbook
  padded := hpad
  inside := by
    intro signed hsigned
    rw [← Bool.not_eq_true]
    rintro rfl
    obtain ⟨j, hj⟩ := List.mem_iff_getElem?.mp hsigned
    rw [List.getElem?_drop, getElem?_padded_iff hpad] at hj
    obtain ⟨entry, hentry, -⟩ := hseats _ hj
    rw [List.getElem?_eq_none (by omega)] at hentry
    cases hentry
  held := by
    rintro ⟨entry, signed⟩ hseat rfl
    obtain ⟨i, hi⟩ := List.mem_iff_getElem?.mp hseat
    obtain ⟨hentry, hbit⟩ := List.getElem?_zip_eq_some.mp hi
    obtain ⟨entry', hentry', hlive⟩ := hseats i ((getElem?_padded_iff hpad).mp hbit)
    obtain rfl : entry = entry' := Option.some.inj (hentry.symm.trans hentry')
    exact hlive
  nonempty := by
    obtain ⟨i, hi⟩ := List.mem_iff_getElem?.mp hsome
    obtain ⟨entry, hentry, hlive⟩ := hseats i hi
    have hseat : (entry, true) ∈ seats book bitvector := List.mem_iff_getElem?.mpr
      ⟨i, List.getElem?_zip_eq_some.mpr ⟨hentry, (getElem?_padded_iff hpad).mpr hi⟩⟩
    have hmem : entry.pubKey ∈ signingSubset book bitvector :=
      List.mem_filterMap.mpr ⟨_, hseat, by simp [signerKey, hlive]⟩
    rintro rfl
    rw [← hkeys] at hmem
    cases hmem
  keys := hkeys
  joint := hkeys ▸ hjoint
  message := hmessage

theorem verifySignature_of_aggregate {hasEntropy hasKey : Bool} {message : Bytes}
    {book : AddressBook E} {bits : List Bool} {r1 r2 r3 : List Bytes} {inputs : SigningInputs E}
    (hin : Checked S .aggregate hasEntropy message hasKey book bits r1 r2 r3 inputs)
    {sig : Signature E} (hagg : Multisig.aggregate inputs.message.elements inputs.participants
      inputs.round1 inputs.round2 inputs.round3 = .ok sig) :
    verifySignature S book message (inputs.bitvector, sig) =
      .ok (decide (totalWeight book < 2 * signingWeight book inputs.bitvector)) := by
  have hverify := Multisig.verify_of_aggregate_ok hagg
  obtain ⟨-, hchallenge, -⟩ := Multisig.aggregate_ok_iff.mp hagg
  obtain ⟨hne, -, -, hjoint, -⟩ := Multisig.challenge_ok_iff.mp hchallenge
  rw [hin.participants] at hverify hne hjoint
  rw [verifySignature_eq hin.valid hin.message hin.inside hin.held hne hjoint, hverify,
    Bool.and_true]

def pairSigners (E : Engine) : List (Signer E) :=
  [⟨1, Vector.replicate 32 0⟩, ⟨1 + 1, Vector.replicate 32 1⟩]

theorem pairSigners_keys : (pairSigners E).map Signer.pk = signingSubset (pairBook E) pairBits := by
  rw [signingSubset_pair]
  simp [pairSigners, Signer.pk, add_smul]

theorem pairBook_seats (i : ℕ) (h : [true, false, true][i]? = some true) :
    ∃ entry : AddressBookEntry E, (pairBook E)[i]? = some entry ∧ entry.pubKey ≠ 0 := by
  match i, h with
  | 0, _ => exact ⟨_, rfl, first_pk.symm ▸ E.gen_ne_zero⟩
  | 2, _ => exact ⟨_, rfl, second_pk.symm ▸ gen_add_gen_ne_zero⟩

theorem pairSession {message : Bytes} {msg : RotationMessage E}
    (hmessage : decodeRotationMessage S message = .ok msg) :
    HonestSession S (pairBook E) [true, false, true] pairBits message msg (pairSigners E) :=
  .of_seats (verifyAddressBook_eq_true_iff.mpr pairBook_valid) padBitvector_pair
    List.mem_cons_self pairBook_seats pairSigners_keys pairBook_joint hmessage

/-- Aggregation never emits a bad signature, whatever bytes the signers have sent: the
joint key of the selected seats is not the identity, the signature is valid under it, and
`verify_signature` returns whether those seats hold a strict majority. -/
theorem aggregate_output_verifies {entropy : Option Digest} {message : Bytes}
    {key : Option E.Scalar} {book : AddressBook E} {bits : List Bool} {r1 r2 r3 : List Bytes}
    {bitvector : BitVector} {sig : Signature E}
    (h : signingProtocol S .aggregate entropy message key book bits r1 r2 r3 =
      .ok (.protocolOutput (bitvector, sig))) :
    ∃ msg joint, decodeRotationMessage S message = .ok msg ∧
      padBitvector bits = .ok bitvector ∧
      Multisig.aggregateKey (signingSubset book bitvector) = .ok joint ∧ joint ≠ 0 ∧
      Schnorr.verify joint msg.elements sig = true ∧
      verifySignature S book message (bitvector, sig) =
        .ok (decide (totalWeight book < 2 * signingWeight book bitvector)) := by
  obtain ⟨inputs, hin, hrun⟩ := signingProtocol_ok_iff.mp h
  obtain ⟨sig', hagg, hout⟩ := runPhase_aggregate_ok_iff.mp hrun
  obtain ⟨rfl, rfl⟩ : bitvector = inputs.bitvector ∧ sig = sig' := by simpa using hout
  have hverify := Multisig.verify_of_aggregate_ok hagg
  obtain ⟨-, hchallenge, -⟩ := Multisig.aggregate_ok_iff.mp hagg
  obtain ⟨hne, -, -, hjoint, -⟩ := Multisig.challenge_ok_iff.mp hchallenge
  rw [hin.participants] at hverify hne hjoint
  exact ⟨inputs.message, _, hin.message, hin.padded, Multisig.aggregateKey_ok_iff.mpr ⟨hne, rfl⟩,
    hjoint, hverify, verifySignature_of_aggregate hin hagg⟩

theorem aggregate_output_verifies_pair :
    ∃ message r1 r2 r3 sig, signingProtocol (codeSerde zeroLine) .aggregate none
        message none (pairBook _) [true, false, true] r1 r2 r3 =
          .ok (.protocolOutput (pairBits, sig)) ∧
      verifySignature (codeSerde zeroLine) (pairBook _) message (pairBits, sig) =
        .ok true := by
  obtain ⟨message, hmessage⟩ := exists_message zeroLine ⟨0, 0⟩
  obtain ⟨r1, r2, r3, sig, -, -, -, hagg, -⟩ :=
    (pairSession hmessage).completes (Bincode.ofEncodable_roundTrips _)
  obtain ⟨_, _, -, -, -, -, -, hverdict⟩ := aggregate_output_verifies (hagg none none)
  exact ⟨message, r1, r2, r3, sig, hagg none none,
    hverdict.trans (congrArg _ (decide_eq_true pairBook_majority))⟩

/-- Honest signing completes. On an accepted book, with at least one seat selected, all
selected seats in the book and held by somebody, and a joint key that is not the identity:
every call of the three rounds returns a message, aggregation returns a multisignature, and
it verifies exactly when the selected seats hold a strict majority. -/
theorem honest_signing_completes (hrt : S.roundMessage.RoundTrips) {book : AddressBook E}
    (hbook : verifyAddressBook book = true) {bits : List Bool} {bitvector : BitVector}
    (hpad : padBitvector bits = .ok bitvector) (hsome : true ∈ bits)
    (hseats : ∀ i : ℕ, bits[i]? = some true →
      ∃ entry : AddressBookEntry E, book[i]? = some entry ∧ entry.pubKey ≠ 0)
    {signers : List (Signer E)}
    (hkeys : signers.map Signer.pk = signingSubset book bitvector)
    (hjoint : (signingSubset book bitvector).sum ≠ 0) {message : Bytes} {msg : RotationMessage E}
    (hmessage : decodeRotationMessage S message = .ok msg) :
    ∃ r1 r2 r3 sig,
      List.Forall₂ (fun signer bytes ↦ signingProtocol S .r1 (some signer.entropy) message
        (some signer.sk) book bits [] [] [] = .ok (.protocolMessage bytes)) signers r1 ∧
      List.Forall₂ (fun signer bytes ↦ signingProtocol S .r2 (some signer.entropy) message
        (some signer.sk) book bits r1 [] [] = .ok (.protocolMessage bytes)) signers r2 ∧
      List.Forall₂ (fun signer bytes ↦ signingProtocol S .r3 (some signer.entropy) message
        (some signer.sk) book bits r1 r2 [] = .ok (.protocolMessage bytes)) signers r3 ∧
      (∀ entropy key, signingProtocol S .aggregate entropy message key book bits r1 r2 r3 =
        .ok (.protocolOutput (bitvector, sig))) ∧
      verifySignature S book message (bitvector, sig) =
        .ok (decide (2 * signingWeight book bitvector > totalWeight book)) := by
  have h := HonestSession.of_seats hbook hpad hsome hseats hkeys hjoint hmessage
  obtain ⟨r1, r2, r3, sig, h1, h2, h3, hagg, hverify⟩ := h.completes hrt
  have hne : signingSubset book bitvector ≠ [] := by
    rw [← hkeys]
    simpa using h.nonempty
  refine ⟨r1, r2, r3, sig, h1, h2, h3, hagg, ?_⟩
  rw [verifySignature_eq h.valid hmessage h.inside h.held hne hjoint, hverify, Bool.and_true]

theorem honest_signing_completes_pair :
    ∃ message r1 r2 r3 sig, signingProtocol (codeSerde zeroLine) .aggregate none
        message none (pairBook _) [true, false, true] r1 r2 r3 =
          .ok (.protocolOutput (pairBits, sig)) ∧
      verifySignature (codeSerde zeroLine) (pairBook _) message (pairBits, sig) =
        .ok true := by
  obtain ⟨message, hmessage⟩ := exists_message zeroLine ⟨0, 0⟩
  obtain ⟨r1, r2, r3, sig, -, -, -, hagg, hverdict⟩ :=
    honest_signing_completes (Bincode.ofEncodable_roundTrips _)
      (verifyAddressBook_eq_true_iff.mpr pairBook_valid) padBitvector_pair List.mem_cons_self
      pairBook_seats pairSigners_keys pairBook_joint hmessage
  exact ⟨message, r1, r2, r3, sig, hagg none none,
    hverdict.trans (congrArg _ (decide_eq_true pairBook_majority))⟩

end HieroCryptography.Wraps
