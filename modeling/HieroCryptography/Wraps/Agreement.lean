import HieroCryptography.Wraps.Aggregation

namespace HieroCryptography.Wraps

open Rust

variable {E : Engine} {S : Serde E}

/-- The challenge an answer of round 3, or a finished signature, carries. -/
def SigningProtocolObject.Answers (S : Serde E) (e : E.Base) : SigningProtocolObject E → Prop
  | .protocolMessage bytes =>
    ∃ share, encode S.roundMessage (.round3 share) = .ok bytes ∧ share.partialSignature.e = e
  | .protocolOutput (_, sig) => sig.e = e

theorem challenge_of_ok {phase : SigningProtocolPhase} (hphase : phase = .r3 ∨ phase = .aggregate)
    {entropy : Option Digest} {key : Option E.Scalar} {inputs : SigningInputs E}
    {out : SigningProtocolObject E} (h : runPhase S phase entropy key inputs = .ok out) :
    ∃ e, Multisig.challenge inputs.message.elements inputs.participants inputs.round1
      inputs.round2 = .ok e ∧ out.Answers S e := by
  rcases hphase with rfl | rfl
  · obtain ⟨seed, sk, share, bytes, -, -, hshare, hbytes, rfl⟩ := runPhase_r3_ok_iff.mp h
    obtain ⟨e, he, -, hanswer⟩ := Multisig.round3_ok_iff.mp hshare
    exact ⟨e, he, share, hbytes, by rw [hanswer]⟩
  · obtain ⟨sig, hagg, rfl⟩ := runPhase_aggregate_ok_iff.mp h
    exact ⟨sig.e, (Multisig.aggregate_ok_iff.mp hagg).2.1, rfl⟩

theorem Carries.unique {T : Type} {payload : RoundMessage E → Option T} {bytes : Bytes} {t t' : T}
    (h : Carries S payload bytes t) (h' : Carries S payload bytes t') : t = t' := by
  obtain ⟨m, hm, ht⟩ := h
  obtain ⟨m', hm', ht'⟩ := h'
  obtain rfl : m = m' := Except.ok.inj (hm.symm.trans hm')
  exact Option.some.inj (ht.symm.trans ht')

theorem Carries.list_unique {T : Type} {payload : RoundMessage E → Option T}
    {messages : List Bytes} {ts ts' : List T} (h : List.Forall₂ (Carries S payload) messages ts)
    (h' : List.Forall₂ (Carries S payload) messages ts') : ts = ts' :=
  List.right_unique_forall₂' (R := Carries S payload) (fun _ _ _ ↦ Carries.unique) h h'

/-- Calls on one book, bitvector, message and list of round-1 messages work on the same
statement, the same signers and the same commitments. -/
theorem Checked.same_session {phase phase' : SigningProtocolPhase}
    {hasEntropy hasEntropy' hasKey hasKey' : Bool} {message : Bytes} {book : AddressBook E}
    {bits : List Bool} {r1 r2 r3 r2' r3' : List Bytes} {inputs inputs' : SigningInputs E}
    (h : Checked S phase hasEntropy message hasKey book bits r1 r2 r3 inputs)
    (h' : Checked S phase' hasEntropy' message hasKey' book bits r1 r2' r3' inputs') :
    inputs'.message = inputs.message ∧ inputs'.participants = inputs.participants ∧
      inputs'.round1 = inputs.round1 := by
  have hbits : inputs'.bitvector = inputs.bitvector :=
    Except.ok.inj (h'.padded.symm.trans h.padded)
  refine ⟨Except.ok.inj (h'.message.symm.trans h.message), ?_,
    Carries.list_unique h'.round1 h.round1⟩
  rw [h'.participants, h.participants, hbits]

def CommittedAt (S : Serde E) (book : AddressBook E) (bits : List Bool) (r1 : List Bytes)
    (pk noncePoint : E.GE) : Prop :=
  ∃ (bitvector : BitVector) (signer : ℕ) (bytes : Bytes), padBitvector bits = .ok bitvector ∧
    (signingSubset book bitvector)[signer]? = some pk ∧ r1[signer]? = some bytes ∧
    Carries S RoundMessage.asRound1 bytes (Multisig.commitNonce noncePoint)

/-- What the round-1 messages of a session leave open: nothing. Every call that gets past
the openings has seen the list `round2` of nonce points and answers the challenge `e`; and
an answer of round 3 is determined by the caller's entropy and key, with the nonce that is
committed to at the caller's own position. -/
structure Settles (S : Serde E) (message : Bytes) (book : AddressBook E) (bits : List Bool)
    (r1 : List Bytes) (msg : RotationMessage E) (round2 : List (MultisigRound2 E)) (e : E.Base) :
    Prop where
  opened : ∀ phase, phase = .r3 ∨ phase = .aggregate → ∀ entropy key r2 r3 out,
    signingProtocol S phase entropy message key book bits r1 r2 r3 = .ok out →
      List.Forall₂ (Carries S RoundMessage.asRound2) r2 round2 ∧ out.Answers S e
  answered : ∀ seed sk r2 r3 out,
    signingProtocol S .r3 (some seed) message (some sk) book bits r1 r2 r3 = .ok out →
      decodeRotationMessage S message = .ok msg ∧
      encodeProtocolMessage S (.round3
        ⟨⟨e, Multisig.nonce seed msg.elements + sk * fieldSwitch e⟩⟩) = .ok out ∧
      CommittedAt S book bits r1 (sk • E.gen) (Multisig.nonce seed msg.elements • E.gen)
  released_once : ∀ seed sk r2 r3 r2' r3' out out',
    signingProtocol S .r3 (some seed) message (some sk) book bits r1 r2 r3 = .ok out →
    signingProtocol S .r3 (some seed) message (some sk) book bits r1 r2' r3' = .ok out' →
      out = out'

section

variable {message : Bytes} {book : AddressBook E} {bits : List Bool} {r1 : List Bytes}
  {phase₀ : SigningProtocolPhase} {hasEntropy₀ hasKey₀ : Bool} {r2₀ r3₀ : List Bytes}
  {inputs₀ : SigningInputs E} {e : E.Base}

theorem opened_of_checked (hcommit : Function.Injective (Multisig.commitNonce (E := E)))
    (h₀ : Checked S phase₀ hasEntropy₀ message hasKey₀ book bits r1 r2₀ r3₀ inputs₀)
    (he : Multisig.challenge inputs₀.message.elements inputs₀.participants inputs₀.round1
      inputs₀.round2 = .ok e)
    {phase : SigningProtocolPhase} (hphase : phase = .r3 ∨ phase = .aggregate)
    {entropy : Option Digest} {key : Option E.Scalar} {r2 r3 : List Bytes}
    {out : SigningProtocolObject E}
    (h : signingProtocol S phase entropy message key book bits r1 r2 r3 = .ok out) :
    List.Forall₂ (Carries S RoundMessage.asRound2) r2 inputs₀.round2 ∧ out.Answers S e := by
  obtain ⟨inputs, hin, hrun⟩ := signingProtocol_ok_iff.mp h
  obtain ⟨e', he', hout⟩ := challenge_of_ok hphase hrun
  obtain ⟨hmsg, hkeys, hr1⟩ := h₀.same_session hin
  rw [hmsg, hkeys, hr1] at he'
  obtain ⟨hr2, rfl⟩ := Multisig.challenge_unique hcommit he he'
  exact ⟨hr2 ▸ hin.round2, hout⟩

theorem getElem?_of_findIdx? {pks : List E.GE} {pk : E.GE} {i : ℕ}
    (h : pks.findIdx? (· = pk) = some i) : pks[i]? = some pk := by
  obtain ⟨hlt, hpk, -⟩ := List.findIdx?_eq_some_iff_getElem.mp h
  rw [List.getElem?_eq_getElem hlt, of_decide_eq_true hpk]

theorem answered_of_checked (hcommit : Function.Injective (Multisig.commitNonce (E := E)))
    (h₀ : Checked S phase₀ hasEntropy₀ message hasKey₀ book bits r1 r2₀ r3₀ inputs₀)
    (he : Multisig.challenge inputs₀.message.elements inputs₀.participants inputs₀.round1
      inputs₀.round2 = .ok e)
    {seed : Digest} {sk : E.Scalar} {r2 r3 : List Bytes} {out : SigningProtocolObject E}
    (h : signingProtocol S .r3 (some seed) message (some sk) book bits r1 r2 r3 = .ok out) :
    encodeProtocolMessage S (.round3
      ⟨⟨e, Multisig.nonce seed inputs₀.message.elements + sk * fieldSwitch e⟩⟩) = .ok out ∧
    CommittedAt S book bits r1 (sk • E.gen)
      (Multisig.nonce seed inputs₀.message.elements • E.gen) := by
  obtain ⟨inputs, hin, hrun⟩ := signingProtocol_ok_iff.mp h
  obtain ⟨_, _, share, bytes, ⟨⟩, ⟨⟩, hshare, hbytes, rfl⟩ := runPhase_r3_ok_iff.mp hrun
  obtain ⟨e', he', ⟨signer, hsigner, hown⟩, rfl⟩ := Multisig.round3_ok_iff.mp hshare
  have hopen := (Multisig.challenge_ok_iff.mp he').2.2.1
  obtain ⟨hmsg, hkeys, hr1⟩ := h₀.same_session hin
  rw [hmsg, hkeys, hr1] at he'
  obtain ⟨-, rfl⟩ := Multisig.challenge_unique hcommit he he'
  rw [hmsg] at hbytes hown
  refine ⟨encodeProtocolMessage_ok_iff.mpr ⟨bytes, hbytes, rfl⟩, ?_⟩
  -- The commitment at the caller's position is the one its own opening was checked against.
  have hcommitted : inputs.round1[signer]? = some
      (Multisig.commitNonce (Multisig.nonce seed inputs₀.message.elements • E.gen)) := by
    rw [hopen, List.getElem?_map, hown]
    rfl
  have hlt : signer < r1.length := by
    rw [hin.round1.length_eq]
    exact (List.getElem?_eq_some_iff.mp hcommitted).1
  refine ⟨inputs.bitvector, signer, r1[signer], hin.padded, ?_, List.getElem?_eq_getElem hlt, ?_⟩
  · rw [← hin.participants]
    exact getElem?_of_findIdx? hsigner
  · obtain ⟨hlt', hat⟩ := List.getElem?_eq_some_iff.mp hcommitted
    rw [← hat]
    exact List.Forall₂.get hin.round1 hlt hlt'

end

/-- Agreement under equivocation: when nonce commitments do not collide, whatever round-2
and round-3 messages an adversary sends to each caller, the round-1 messages settle the
nonce points, the challenge and every answer of a session. -/
theorem round1_settles_session (hcommit : Function.Injective (Multisig.commitNonce (E := E)))
    (message : Bytes) (book : AddressBook E) (bits : List Bool) (r1 : List Bytes) :
    ∃ msg round2 e, Settles S message book bits r1 msg round2 e := by
  by_cases hcall : ∃ phase, (phase = .r3 ∨ phase = .aggregate) ∧ ∃ entropy key r2 r3 out,
      signingProtocol S phase entropy message key book bits r1 r2 r3 = .ok out
  · obtain ⟨phase, hphase, entropy, key, r2, r3, out, h⟩ := hcall
    obtain ⟨inputs, hin, hrun⟩ := signingProtocol_ok_iff.mp h
    obtain ⟨e, he, -⟩ := challenge_of_ok hphase hrun
    refine ⟨inputs.message, inputs.round2, e, ?_, ?_, ?_⟩
    · intro phase hphase entropy key r2 r3 out h
      exact opened_of_checked hcommit hin he hphase h
    · intro seed sk r2 r3 out h
      exact ⟨hin.message, answered_of_checked hcommit hin he h⟩
    · intro seed sk r2 r3 r2' r3' out out' h h'
      have hout := (answered_of_checked hcommit hin he h).1
      have hout' := (answered_of_checked hcommit hin he h').1
      exact Except.ok.inj (hout.symm.trans hout')
  · -- No call of the session succeeds, so there is nothing to agree on.
    refine ⟨⟨0, 0⟩, [], 0, ?_, ?_, ?_⟩
    · intro phase hphase entropy key r2 r3 out h
      exact absurd ⟨phase, hphase, entropy, key, r2, r3, out, h⟩ hcall
    · intro seed sk r2 r3 out h
      exact absurd ⟨.r3, .inl rfl, _, _, r2, r3, out, h⟩ hcall
    · intro seed sk r2 r3 _ _ out _ h
      exact absurd ⟨.r3, .inl rfl, _, _, r2, r3, out, h⟩ hcall

theorem round1_settles_session_pair :
    ∃ message r1 r2 r3 msg round2 e,
      List.Forall₂ (fun signer bytes ↦ signingProtocol (codeSerde zeroLine) .r3
        (some signer.entropy) message (some signer.sk) (pairBook _) [true, false, true] r1 r2 [] =
          .ok (.protocolMessage bytes)) (pairSigners zeroLine) r3 ∧
      Settles (codeSerde zeroLine) message (pairBook _) [true, false, true] r1 msg round2 e := by
  obtain ⟨message, hmessage⟩ := exists_message zeroLine ⟨0, 0⟩
  obtain ⟨r1, r2, r3, sig, -, -, hr3, -, -⟩ :=
    (pairSession hmessage).completes (Bincode.ofEncodable_roundTrips _)
  obtain ⟨msg, round2, e, hsettles⟩ :=
    round1_settles_session line_commitNonce_injective message (pairBook _) [true, false, true] r1
  exact ⟨message, r1, r2, r3, msg, round2, e, hr3, hsettles⟩

end HieroCryptography.Wraps
