import HieroCryptography.Wraps.BridgeSigning

namespace HieroCryptography.Wraps

open Rust Native

variable {E : Engine}

/-- A seat of a committee: the seed of its Schnorr keys, unless nobody holds it, and the entropy
its holder brings to a session. -/
structure Member where
  seed : Option Digest
  entropy : Digest
  weight : Int64
  nodeId : Int64
  signs : Bool

namespace Member

variable (E) in
def key (m : Member) : E.GE × SchnorrPoK E :=
  m.seed.elim sentinelKeygen fun seed ↦ (keygen E seed).2

variable (E) in
def entry (m : Member) : AddressBookEntry E where
  nodeId := (m.nodeId.toUInt64.toNat : E.Base)
  pubKey := (m.key E).1
  pok := (m.key E).2
  weight := m.weight.toUInt64

variable (E) in
/-- The party that signs for the seat; the secret of an empty one is zero. -/
def signer (m : Member) : Signer E := ⟨m.seed.elim 0 fun seed ↦ (keygen E seed).1, m.entropy⟩

theorem signer_pk (m : Member) : (m.signer E).pk = (m.entry E).pubKey := by
  rw [signer, entry, key]
  cases m.seed <;> rfl

def heldWeight (m : Member) : ℕ := if m.seed.isSome then m.weight.toUInt64.toNat else 0

end Member

theorem exists_padBitvector (bits : List Bool) (h : bits.length ≤ maxAbSize) :
    ∃ bitvector, padBitvector bits = .ok bitvector := by
  rw [padBitvector, decide_eq_true (Nat.not_lt.mpr h), require_true, ok_bind]
  exact ⟨_, rfl⟩

/-- A committee whose seats fit the bridge, with keys that are all different and not the identity,
and in which only seats somebody holds are to sign. -/
structure Committee (E : Engine) (members : List Member) : Prop where
  size : members.length ≤ bridgeMaxAbSize
  nonneg : ∀ m ∈ members, ¬ m.weight < 0
  held : ∀ m ∈ members, m.seed.isSome = true → (m.key E).1 ≠ 0
  distinct : ((members.filter fun m ↦ m.seed.isSome).map fun m ↦ (m.key E).1).Nodup
  weight_lt : (members.map Member.heldWeight).sum < 2 ^ 64
  signers : ∀ m ∈ members, m.signs = true → m.seed.isSome = true

namespace Committee

variable {members : List Member}

theorem isInfinity_entry (h : Committee E members) {m : Member} (hm : m ∈ members) :
    isInfinity (m.entry E).pubKey = !m.seed.isSome := by
  cases hseed : m.seed with
  | none =>
    have hzero : (m.entry E).pubKey = 0 := by
      rw [Member.entry, Member.key, hseed]
      exact zero_smul _ _
    rw [hzero, isInfinity_eq_true_iff.mpr rfl]
    rfl
  | some seed =>
    have hne : (m.entry E).pubKey ≠ 0 := h.held m hm (by rw [hseed]; rfl)
    rw [isInfinity_eq_false_iff.mpr hne]
    rfl

theorem effectiveWeight_entry (h : Committee E members) {m : Member} (hm : m ∈ members) :
    effectiveWeight (m.entry E) = m.heldWeight := by
  rw [effectiveWeight, h.isInfinity_entry hm, Member.heldWeight]
  cases m.seed.isSome <;> rfl

theorem totalWeight_entries (h : Committee E members) :
    totalWeight (members.map (Member.entry E)) = (members.map Member.heldWeight).sum := by
  rw [totalWeight, List.map_map]
  congr 1
  exact List.map_congr_left fun m hm ↦ h.effectiveWeight_entry hm

theorem validBook (h : Committee E members) : ValidBook (members.map (Member.entry E)) where
  size := by
    have := h.size
    rw [List.length_map]
    exact this.trans (by decide)
  distinct := by
    have hlive : liveKeys (members.map (Member.entry E)) =
        (members.filter fun m ↦ m.seed.isSome).map fun m ↦ (m.key E).1 := by
      rw [liveKeys, List.map_map, List.filter_map]
      congr 1
      refine List.filter_congr fun m hm ↦ ?_
      have := h.isInfinity_entry hm
      simp only [Function.comp_apply]
      rw [this, Bool.not_not]
    rw [hlive]
    exact h.distinct
  attested := by
    intro entry hentry hne
    obtain ⟨m, hm, rfl⟩ := List.mem_map.mp hentry
    cases hseed : m.seed with
    | none =>
      have := h.isInfinity_entry hm
      rw [isInfinity_eq_false_iff.mpr hne, hseed] at this
      cases this
    | some seed =>
      rw [Member.entry, Member.key, hseed]
      exact Schnorr.verifyKnowledge_proveKnowledge _ _
  weight_lt := h.totalWeight_entries ▸ h.weight_lt

section Session

variable {bitvector : BitVector} (hpad : padBitvector (members.map Member.signs) = .ok bitvector)
include hpad

theorem seats_entries : seats (members.map (Member.entry E)) bitvector =
    members.map fun m ↦ (m.entry E, m.signs) := by
  rw [seats_of_length_eq hpad (by simp), List.zip_map']

theorem signingSubset_entries (h : Committee E members) :
    signingSubset (members.map (Member.entry E)) bitvector =
      ((members.filter Member.signs).map (Member.signer E)).map Signer.pk := by
  rw [signingSubset, seats_entries hpad, List.filterMap_map, List.map_map,
    ← List.filterMap_eq_map, List.filterMap_filter]
  refine List.filterMap_congr fun m hm ↦ ?_
  cases hsigns : m.signs with
  | false => simp [signerKey, hsigns]
  | true =>
    have := h.isInfinity_entry hm
    rw [h.signers m hm hsigns] at this
    simp [signerKey, hsigns, this, Member.signer_pk]

theorem signingWeight_entries (h : Committee E members) :
    signingWeight (members.map (Member.entry E)) bitvector =
      ((members.filter Member.signs).map Member.heldWeight).sum := by
  rw [signingWeight, seats_entries hpad, List.map_map]
  refine (List.sum_map_ite (fun m : Member ↦ m.signs = true) (fun m ↦ effectiveWeight (m.entry E))
    (fun _ ↦ 0) members).trans ?_
  rw [List.map_const', List.sum_replicate, smul_zero, add_zero]
  simp only [Bool.decide_eq_true]
  congr 1
  exact List.map_congr_left fun m hm ↦ h.effectiveWeight_entry (List.mem_of_mem_filter hm)

theorem honestSession (h : Committee E members) (hsome : ∃ m ∈ members, m.signs = true)
    (hjoint : (((members.filter Member.signs).map (Member.signer E)).map Signer.pk).sum ≠ 0)
    {S : Serde E} {message : Bytes} {msg : RotationMessage E}
    (hmessage : decodeRotationMessage S message = .ok msg) :
    HonestSession S (members.map (Member.entry E)) (members.map Member.signs) bitvector message msg
      ((members.filter Member.signs).map (Member.signer E)) where
  valid := h.validBook
  padded := hpad
  inside := by
    rw [(padBitvector_ok_iff.mp hpad).2, List.drop_left' (by simp)]
    exact fun signed hsigned ↦ (List.mem_replicate.mp hsigned).2
  held := by
    rw [seats_entries hpad]
    intro seat hseat hsigned
    obtain ⟨m, hm, rfl⟩ := List.mem_map.mp hseat
    exact h.held m hm (h.signers m hm hsigned)
  nonempty := by
    obtain ⟨m, hm, hsigns⟩ := hsome
    rw [ne_eq, List.map_eq_nil_iff]
    exact List.ne_nil_of_mem (List.mem_filter.mpr ⟨hm, hsigns⟩)
  keys := (signingSubset_entries hpad h).symm
  joint := hjoint
  message := hmessage

end Session

end Committee

namespace GroupCodec

variable (C : GroupCodec E)

def publicKey (m : Member) : Option Bytes :=
  match m.seed with
  | some seed => (C.generateSchnorrKeys (some seed.toList)).map Prod.snd
  | none => C.sentinelPublicKey

def privateKey (m : Member) : Option Bytes :=
  m.seed.bind fun seed ↦ (C.generateSchnorrKeys (some seed.toList)).map Prod.fst

def committeeArrays (members : List Member) : BookArrays where
  schnorrPublicKeys := members.map C.publicKey
  weights := members.map Member.weight
  nodeIds := members.map Member.nodeId

def memberPhase (phase : SigningProtocolPhase) (members : List Member) (message : Bytes)
    (r1 r2 : Option (List (Option Bytes))) (m : Member) : Option Bytes :=
  let arrays := C.committeeArrays members
  C.runSigningProtocolPhase C.sentinelPublicKey (some phase) (some m.entropy.toList) (some message)
    (C.privateKey m) (some arrays.schnorrPublicKeys) (some arrays.weights) (some arrays.nodeIds)
    (some (members.map Member.signs)) r1 r2 none

/-- The first phase, which is run without a book. -/
def memberCommits (message : Bytes) (m : Member) : Option Bytes :=
  C.runSigningProtocolPhase C.sentinelPublicKey (some .r1) (some m.entropy.toList) (some message)
    (C.privateKey m) none none none none none none none

def aggregatePhase (members : List Member) (message : Bytes)
    (r1 r2 r3 : List (Option Bytes)) : Option Bytes :=
  let arrays := C.committeeArrays members
  C.runSigningProtocolPhase C.sentinelPublicKey (some .aggregate) none (some message) none
    (some arrays.schnorrPublicKeys) (some arrays.weights) (some arrays.nodeIds)
    (some (members.map Member.signs)) (some r1) (some r2) (some r3)

section Keys

theorem generateSchnorrKeys_eq (seed : Digest) : C.generateSchnorrKeys (some seed.toList) =
    some (C.scalar.write (keygen E seed).1, C.schnorrAttestedPubKey.write (keygen E seed).2) := by
  have hlen : ¬ seed.toList.length ≠ entropySize := by simp [entropySize]
  simp only [generateSchnorrKeys, Option.bind_eq_bind, Option.bind_some, if_neg hlen,
    generateSchnorrKeysImpl, buildEntropyArray_ok_iff.mpr (rfl : seed.toList = _), ok_bind,
    serializeToJbyteArray_eq]
  rfl

theorem publicKey_eq (m : Member) :
    C.publicKey m = some (C.schnorrAttestedPubKey.write (m.key E)) := by
  rw [publicKey, Member.key]
  cases m.seed with
  | none => rfl
  | some seed =>
    dsimp only
    rw [C.generateSchnorrKeys_eq seed]
    rfl

theorem privateKey_eq {m : Member} (h : m.seed.isSome = true) :
    C.privateKey m = some (C.scalar.write (m.signer E).sk) := by
  obtain ⟨seed, hseed⟩ := Option.isSome_iff_exists.mp h
  rw [privateKey, Member.signer, hseed, Option.bind_some, C.generateSchnorrKeys_eq seed]
  rfl

theorem decode_privateKey {m : Member} (h : m.seed.isSome = true) :
    Option.Rel (fun bytes sk ↦ decode (C.bincode C.scalar) bytes = .ok sk) (C.privateKey m)
      (some (m.signer E).sk) := by
  rw [C.privateKey_eq h]
  exact .some (decode_ofWire_write C.scalar_reads _)

theorem buildAddressBook_committee {members : List Member} (h : Committee E members) :
    C.buildAddressBook (C.committeeArrays members) = .ok (members.map (Member.entry E)) := by
  refine buildAddressBook_ok_iff.mpr ⟨by simp [committeeArrays], by simp [committeeArrays], ?_⟩
  rw [BookArrays.rows, committeeArrays]
  dsimp only
  rw [List.zip_map', List.zip_map', List.forall₂_map_left_iff, List.forall₂_map_right_iff,
    List.forall₂_same]
  intro m hm
  exact ⟨⟨_, C.publicKey_eq m, decode_ofWire_write C.schnorrAttestedPubKey_reads _⟩,
    h.nonneg m hm, rfl, rfl⟩

theorem validateSchnorrPublicKeys_committee (members : List Member) :
    validateSchnorrPublicKeys (C.committeeArrays members).schnorrPublicKeys = true := by
  refine allOfLength_eq_true_iff.mpr fun key hkey ↦ ?_
  obtain ⟨m, -, rfl⟩ := List.mem_map.mp hkey
  exact ⟨_, C.publicKey_eq m,
    C.schnorrAttestedPubKey_takes.length_write (C.schnorrAttestedPubKey_reads _)⟩

end Keys

section Messages

def protocolMessage (m : RoundMessage E) : Bytes :=
  signingProtocolMessageWire.write (C.roundMessage.write m)

theorem length_roundMessage (m : RoundMessage E) : (C.roundMessage.write m).length = roundSize m :=
  C.roundMessage_size (C.roundMessage_reads m).read_write

theorem holds_protocolMessage (m : RoundMessage E) :
    C.Holds signingProtocolMessageWire (some (C.protocolMessage m)) (C.roundMessage.write m) := by
  have hlen : (C.roundMessage.write m).length < 2 ^ 64 := by
    rw [C.length_roundMessage]
    cases m <;> simp [roundSize]
  have hreads : signingProtocolMessageWire.Reads (C.roundMessage.write m) :=
    .vec hlen fun b _ ↦ Wire.byte_reads b
  exact ⟨_, rfl, (decode_ofWire_ok_iff signingProtocolMessageWire_shrinks).mpr hreads.read_write⟩

theorem holds_messages (signers : List (Signer E)) (send : Signer E → RoundMessage E) :
    List.Forall₂ (C.Holds signingProtocolMessageWire)
      ((signers.map fun signer ↦ C.protocolMessage (send signer)).map some)
      (signers.map fun signer ↦ C.roundMessage.write (send signer)) := by
  rw [List.forall₂_map_left_iff, List.forall₂_map_left_iff, List.forall₂_map_right_iff,
    List.forall₂_same]
  exact fun signer _ ↦ C.holds_protocolMessage (send signer)

theorem carries_messages {T : Type} (payload : RoundMessage E → Option T)
    (messageOf : T → RoundMessage E) (hpayload : ∀ t, payload (messageOf t) = some t)
    (signers : List (Signer E)) (send : Signer E → T) :
    List.Forall₂ (Carries C.serde payload)
      (signers.map fun signer ↦ C.roundMessage.write (messageOf (send signer)))
      (signers.map send) := by
  refine carries_map C.roundMessage_roundTrips payload hpayload ?_
  rw [List.forall₂_map_right_iff, List.forall₂_same]
  exact fun signer _ ↦ encode_ofWire_ok_iff.mpr rfl

theorem carries_round1 (msg : List E.Base) (signers : List (Signer E)) :
    List.Forall₂ (Carries C.serde RoundMessage.asRound1)
      (signers.map fun signer ↦ C.roundMessage.write (.round1 (signer.round1 msg)))
      (signers.map (Signer.round1 msg)) :=
  C.carries_messages RoundMessage.asRound1 .round1 (fun _ ↦ rfl) signers _

theorem carries_round2 (msg : List E.Base) (signers : List (Signer E)) :
    List.Forall₂ (Carries C.serde RoundMessage.asRound2)
      (signers.map fun signer ↦ C.roundMessage.write (.round2 (signer.round2 msg)))
      (signers.map (Signer.round2 msg)) :=
  C.carries_messages RoundMessage.asRound2 .round2 (fun _ ↦ rfl) signers _

end Messages

section Calls

variable {C}

theorem signingPhase_of_run {phase : SigningProtocolPhase} {r : SigningRequest}
    {c : SigningCall E} (hlimits : r.WithinLimits phase) (hargs : r.ArgumentsOf phase)
    (hdec : C.Decodes r c) {obj : SigningProtocolObject E}
    (hrun : c.run C.serde phase r.messageToSign r.signers = .ok obj) :
    C.signingPhase phase r = some (C.writeObject obj) := by
  have hcall := callPhase_ok_iff.mpr ⟨c, hdec, obj, hrun, rfl⟩
  exact signingPhase_eq_some_iff.mpr ⟨accepts_of_callPhase hlimits hargs hcall, hcall⟩

theorem validBook_nil : ValidBook ([] : AddressBook E) :=
  ⟨Nat.zero_le _, by simp [liveKeys], by simp, by simp [totalWeight]⟩

/-- The first phase needs no book to return the commitment. -/
theorem run_r1_of_empty {S : Serde E} {message : Bytes} {msg : RotationMessage E}
    (hmessage : decodeRotationMessage S message = .ok msg) (signer : Signer E) {bytes : Bytes}
    (hbytes : encode S.roundMessage (.round1 (signer.round1 msg.elements)) = .ok bytes) :
    signingProtocol S .r1 (some signer.entropy) message (some signer.sk) [] [] [] [] [] =
      .ok (.protocolMessage bytes) := by
  refine signingProtocol_ok_iff.mpr
    ⟨⟨Vector.replicate maxAbSize false, [], msg, [], [], []⟩, ?_, ?_⟩
  · refine ⟨validBook_nil, ?_, ?_, by simp [seats],
      rfl, fun h ↦ absurd rfl h, ?_, hmessage, .nil, .nil, .nil⟩
    · exact padBitvector_ok_iff.mpr ⟨by simp, by simp⟩
    · intro signed hsigned
      rw [List.length_nil, List.drop_zero, Vector.toList_replicate] at hsigned
      exact (List.mem_replicate.mp hsigned).2
    · simp [validateSigningPhase_ok_iff, phaseNeeds]
  · exact encodeProtocolMessage_ok_iff.mpr ⟨bytes, hbytes, rfl⟩

variable {members : List Member}

theorem withinLimits_committee (h : Committee E members) {phase : SigningProtocolPhase}
    {r : SigningRequest} (hbook : r.book = C.committeeArrays members)
    (hsigners : r.signers = members.map Member.signs) : r.WithinLimits phase := by
  have hsize := h.size
  refine ⟨?_, ?_, ?_, ?_, fun _ ↦ ?_⟩
  · simpa [hbook, committeeArrays] using hsize
  · simpa [hbook, committeeArrays] using hsize
  · simpa [hbook, committeeArrays] using hsize
  · simp [hbook, hsigners, committeeArrays]
  · simp [hbook, BookArrays.aligned, committeeArrays]

theorem argumentsOf_secrets {phase : SigningProtocolPhase} {r : SigningRequest} {m : Member}
    (hseed : m.seed.isSome = true) (hkey : r.schnorrPrivateKey = C.privateKey m)
    (hentropy : r.instanceEntropy = some m.entropy.toList)
    (hfirst : phase = .r1 → r.book.schnorrPublicKeys = []) (hlast : phase ≠ .aggregate) :
    r.ArgumentsOf phase := by
  refine ⟨hfirst, fun _ ↦ ?_, fun h ↦ absurd h hlast⟩
  rw [hkey, hentropy, C.privateKey_eq hseed]
  exact ⟨rfl, rfl⟩

theorem memberCommits_eq {message : Bytes} {msg : RotationMessage E}
    (hmessage : decodeRotationMessage C.serde message = .ok msg) {m : Member}
    (hseed : m.seed.isSome = true) :
    C.memberCommits message m =
      some (C.protocolMessage (.round1 ((m.signer E).round1 msg.elements))) := by
  refine signingPhase_of_run (c := ⟨some m.entropy, some (m.signer E).sk, [], [], [], []⟩)
    (r := ⟨some m.entropy.toList, message, C.privateKey m, ⟨[], [], []⟩, [], [], [], []⟩) ?_
    (argumentsOf_secrets hseed rfl rfl (fun _ ↦ rfl) (by decide)) ?_
    (run_r1_of_empty hmessage (m.signer E) (encode_ofWire_ok_iff.mpr rfl))
  · exact ⟨by simp, by simp, by simp, rfl, fun h ↦ absurd rfl h⟩
  · exact ⟨.some rfl, C.decode_privateKey hseed, rfl, .nil, .nil, .nil⟩

section Rounds

variable {bitvector : BitVector} {message : Bytes} {msg : RotationMessage E}

abbrev signingParties (E : Engine) (members : List Member) : List (Signer E) :=
  (members.filter Member.signs).map (Member.signer E)

abbrev sentRound1 (C : GroupCodec E) (msg : RotationMessage E) (signer : Signer E) : Bytes :=
  C.protocolMessage (.round1 (signer.round1 msg.elements))

abbrev sentRound2 (C : GroupCodec E) (msg : RotationMessage E) (signer : Signer E) : Bytes :=
  C.protocolMessage (.round2 (signer.round2 msg.elements))

abbrev sentRound3 (C : GroupCodec E) (msg : RotationMessage E) (members : List Member)
    (signer : Signer E) : Bytes :=
  C.protocolMessage (.round3 (signer.round3 msg.elements
    (honestChallenge msg.elements (signingParties E members))))

theorem signingParties_pk : ((members.filter Member.signs).map fun m ↦ (m.key E).1) =
    (signingParties E members).map Signer.pk := by
  rw [List.map_map]
  exact List.map_congr_left fun m _ ↦ (Member.signer_pk m).symm

theorem forall₂_parties {call : Member → Option Bytes} {send : Signer E → Bytes}
    (h : ∀ m ∈ members.filter Member.signs, call m = some (send (m.signer E))) :
    List.Forall₂ (fun m sent ↦ call m = some sent) (members.filter Member.signs)
      ((signingParties E members).map send) := by
  rwa [List.forall₂_map_right_iff, List.forall₂_map_right_iff, List.forall₂_same]

variable (hcommittee : Committee E members)
  (h : HonestSession C.serde (members.map (Member.entry E)) (members.map Member.signs) bitvector
    message msg (signingParties E members))
include hcommittee h

theorem memberPhase_r2_eq {m : Member} (hm : m ∈ members.filter Member.signs) :
    C.memberPhase .r2 members message
      (some (((signingParties E members).map (C.sentRound1 msg)).map some)) none m =
        some (C.sentRound2 msg (m.signer E)) := by
  have hseed := hcommittee.signers m (List.mem_of_mem_filter hm) (List.mem_filter.mp hm).2
  have hr1 := C.carries_round1 msg.elements (signingParties E members)
  refine signingPhase_of_run
    (c := ⟨some m.entropy, some (m.signer E).sk, members.map (Member.entry E), _, [], []⟩)
    (r := ⟨some m.entropy.toList, message, C.privateKey m, C.committeeArrays members,
      members.map Member.signs, _, [], []⟩)
    (withinLimits_committee hcommittee rfl rfl)
    (argumentsOf_secrets hseed rfl rfl (fun h ↦ absurd h (by decide)) (by decide)) ?_
    (h.call_r2 hr1 (List.mem_map_of_mem hm) (encode_ofWire_ok_iff.mpr rfl))
  exact ⟨.some rfl, C.decode_privateKey hseed, C.buildAddressBook_committee hcommittee,
    C.holds_messages _ _, .nil, .nil⟩

theorem memberPhase_r3_eq {m : Member} (hm : m ∈ members.filter Member.signs) :
    C.memberPhase .r3 members message
      (some (((signingParties E members).map (C.sentRound1 msg)).map some))
      (some (((signingParties E members).map (C.sentRound2 msg)).map some)) m =
        some (C.sentRound3 msg members (m.signer E)) := by
  have hseed := hcommittee.signers m (List.mem_of_mem_filter hm) (List.mem_filter.mp hm).2
  have hr1 := C.carries_round1 msg.elements (signingParties E members)
  have hr2 := C.carries_round2 msg.elements (signingParties E members)
  refine signingPhase_of_run
    (c := ⟨some m.entropy, some (m.signer E).sk, members.map (Member.entry E), _, _, []⟩)
    (r := ⟨some m.entropy.toList, message, C.privateKey m, C.committeeArrays members,
      members.map Member.signs, _, _, []⟩)
    (withinLimits_committee hcommittee rfl rfl)
    (argumentsOf_secrets hseed rfl rfl (fun h ↦ absurd h (by decide)) (by decide)) ?_
    (h.call_r3 hr1 hr2 (List.mem_map_of_mem hm) (encode_ofWire_ok_iff.mpr rfl))
  exact ⟨.some rfl, C.decode_privateKey hseed, C.buildAddressBook_committee hcommittee,
    C.holds_messages _ _, C.holds_messages _ _, .nil⟩

theorem aggregatePhase_eq :
    ∃ sig, C.aggregatePhase members message
        (((signingParties E members).map (C.sentRound1 msg)).map some)
        (((signingParties E members).map (C.sentRound2 msg)).map some)
        (((signingParties E members).map (C.sentRound3 msg members)).map some) =
          some (C.schnorrMultiSignature.write (bitvector, sig)) ∧
      Schnorr.verify (signingSubset (members.map (Member.entry E)) bitvector).sum msg.elements sig =
        true := by
  have hr1 := C.carries_round1 msg.elements (signingParties E members)
  have hr2 := C.carries_round2 msg.elements (signingParties E members)
  have hr3 := C.carries_messages RoundMessage.asRound3 .round3 (fun _ ↦ rfl)
    (signingParties E members)
    (Signer.round3 msg.elements (honestChallenge msg.elements (signingParties E members)))
  obtain ⟨sig, hagg, hverify⟩ := h.call_aggregate hr1 hr2 hr3
  refine ⟨sig, signingPhase_of_run
    (c := ⟨none, none, members.map (Member.entry E), _, _, _⟩)
    (r := ⟨none, message, none, C.committeeArrays members, members.map Member.signs, _, _, _⟩)
    (withinLimits_committee hcommittee rfl rfl)
    ⟨fun h ↦ absurd h (by decide), fun h ↦ absurd rfl h, fun _ ↦ ⟨rfl, rfl⟩⟩ ?_ (hagg none none),
    hverify⟩
  exact ⟨.none, .none, C.buildAddressBook_committee hcommittee,
    C.holds_messages _ _, C.holds_messages _ _, C.holds_messages _ _⟩

theorem verifySignature_committee {sig : Signature E}
    (hverify : Schnorr.verify (signingSubset (members.map (Member.entry E)) bitvector).sum
      msg.elements sig = true) :
    C.verifySignature (some (C.committeeArrays members).schnorrPublicKeys)
        (some (C.committeeArrays members).weights) (some (C.committeeArrays members).nodeIds)
        (some message) (some (C.schnorrMultiSignature.write (bitvector, sig))) =
      decide ((members.map Member.heldWeight).sum <
        2 * ((members.filter Member.signs).map Member.heldWeight).sum) := by
  have hne : signingSubset (members.map (Member.entry E)) bitvector ≠ [] := by
    rw [← h.keys]
    simpa using h.nonempty
  have hmembers : members ≠ [] := by
    rintro rfl
    exact hne rfl
  refine verifySignature_of_native (by simpa [committeeArrays] using hmembers)
    (by simpa [committeeArrays] using hcommittee.size)
    (by simp [BookArrays.aligned, committeeArrays]) (C.validateSchnorrPublicKeys_committee members)
    (C.buildAddressBook_committee hcommittee) h.message rfl ?_
  rw [verifySignature_eq h.valid h.message h.inside h.held hne (h.keys ▸ h.joint), hverify,
    Bool.and_true, hcommittee.totalWeight_entries,
    Committee.signingWeight_entries h.padded hcommittee]

end Rounds

theorem computeNetworkID_eq_some_iff {keys : Option (List (Option Bytes))}
    {weights nodeIds : Option (List Int64)} {hintsVk : Option Bytes} {message : Bytes} :
    C.computeNetworkID keys weights nodeIds hintsVk = some message ↔
      ∃ arrays vk ab, bookArrays keys weights nodeIds = some arrays ∧ hintsVk = some vk ∧
        arrays.accepts = true ∧ vk ≠ [] ∧ C.buildAddressBook arrays = .ok ab ∧ ValidBook ab ∧
        C.rotationMessage.write (Wraps.rotationMessage ab vk) = message := by
  simp only [computeNetworkID, Option.bind_eq_bind, Option.bind_eq_some_iff,
    Option.ite_none_right_eq_some, catchUnwind_eq_some_iff, formatRotationMessageImpl, bind_ok_iff,
    orNull_ok_iff, computeRotationMessage_ok_iff, Bool.and_eq_true, decide_eq_true_eq, ne_eq,
    List.length_eq_zero_iff, serde, encode_ofWire_ok_iff]
  constructor
  · rintro ⟨arrays, harrays, vk, hvk, ⟨haccepts, hne⟩, ab, hab, hvalid, hwrite⟩
    exact ⟨arrays, vk, ab, harrays, hvk, haccepts, hne, hab, hvalid, hwrite⟩
  · rintro ⟨arrays, vk, ab, harrays, hvk, haccepts, hne, hab, hvalid, hwrite⟩
    exact ⟨arrays, harrays, vk, hvk, ⟨haccepts, hne⟩, ab, hab, hvalid, hwrite⟩

theorem decode_of_computeNetworkID {keys : Option (List (Option Bytes))}
    {weights nodeIds : Option (List Int64)} {hintsVk : Option Bytes} {message : Bytes}
    (h : C.computeNetworkID keys weights nodeIds hintsVk = some message) :
    ∃ msg, decodeRotationMessage C.serde message = .ok msg := by
  obtain ⟨_, _, _, -, -, -, -, -, -, rfl⟩ := computeNetworkID_eq_some_iff.mp h
  exact ⟨_, decodeRotationMessage_ok_iff.mpr (decode_ofWire_write C.rotationMessage_reads _)⟩

end Calls

/-- A seed that begins with a byte, whose key on the line is that multiple of the generator. -/
def seedOf (b : UInt8) : Digest := Vector.ofFn fun i ↦ if i.val = 0 then b else 0

def pairMembers : List Member :=
  [⟨some (seedOf 1), Vector.replicate 32 0, 1, 0, true⟩,
    ⟨none, Vector.replicate 32 0, 5, 1, false⟩,
    ⟨some (seedOf 2), Vector.replicate 32 1, 1, 2, true⟩]

theorem keygen_seedOf {b : UInt8} {k : ℕ}
    (h : ofLeBytes (copyDigest ((seedOf b).toList ++ [0])).toList = k) :
    (keygen zeroLine (seedOf b)).2.1 = (k : zeroLine.Scalar) • zeroLine.gen := by
  change ((ofLeBytes (copyDigest ((seedOf b).toList ++ [0])).toList : ℕ) : zeroLine.Scalar) •
    zeroLine.gen = _
  rw [h]

theorem pairMembers_keys :
    (pairMembers.filter Member.signs).map (fun m ↦ (m.key zeroLine).1) =
      [zeroLine.gen, zeroLine.gen + zeroLine.gen] := by
  have h1 := keygen_seedOf (b := 1) (k := 1) (by decide)
  have h2 := keygen_seedOf (b := 2) (k := 1 + 1) (by decide)
  rw [Nat.cast_one, one_smul] at h1
  rw [Nat.cast_add, Nat.cast_one, add_smul, one_smul] at h2
  exact congrArg₂ (fun p q ↦ [p, q]) h1 h2

theorem pairMembers_joint :
    ((pairMembers.filter Member.signs).map fun m ↦ (m.key zeroLine).1).sum ≠ 0 := by
  rw [pairMembers_keys]
  exact pair_sum_ne_zero

theorem pairCommittee : Committee zeroLine pairMembers := by
  have hkeys := pairMembers_keys
  have hheld : ∀ pk ∈ (pairMembers.filter Member.signs).map fun m ↦ (m.key zeroLine).1, pk ≠ 0 := by
    rw [hkeys]
    simp [zeroLine.gen_ne_zero, gen_add_gen_ne_zero]
  have hsigns : ∀ m ∈ pairMembers, m.seed.isSome = true → m.signs = true := by decide
  refine ⟨by decide, by decide, fun m hm hsome ↦ hheld _ (List.mem_map_of_mem ?_), ?_, by decide,
    by decide⟩
  · exact List.mem_filter.mpr ⟨hm, hsigns m hm hsome⟩
  · change ((pairMembers.filter Member.signs).map fun m ↦ (m.key zeroLine).1).Nodup
    rw [hkeys]
    simp [zeroLine.gen_ne_zero]

theorem exists_pair_signer : ∃ m ∈ pairMembers, m.signs = true := ⟨_, List.mem_cons_self, rfl⟩

theorem exists_networkID (C : GroupCodec E) :
    ∃ message, C.computeNetworkID (some []) (some []) (some []) (some [0]) = some message :=
  ⟨_, computeNetworkID_eq_some_iff.mpr ⟨⟨[], [], []⟩, [0], [], rfl, rfl, by decide, by decide, rfl,
    validBook_nil, rfl⟩⟩

/-- A session of honest members completes through the bridge. The message is the identifier of some
next network; each member commits without a book, opens its commitment, and answers with the
messages of the others before it; anybody aggregates; and the bridge verifies the multisignature
exactly when the seats that signed outweigh half of the seats somebody holds. -/
theorem signing_session_through_bridge (C : GroupCodec E) {members : List Member}
    (hcommittee : Committee E members) (hsome : ∃ m ∈ members, m.signs = true)
    (hjoint : ((members.filter Member.signs).map fun m ↦ (m.key E).1).sum ≠ 0)
    {nextKeys : Option (List (Option Bytes))} {nextWeights nextNodeIds : Option (List Int64)}
    {hintsVk : Option Bytes} {message : Bytes}
    (hmessage : C.computeNetworkID nextKeys nextWeights nextNodeIds hintsVk = some message) :
    ∃ r1 r2 r3 out,
      List.Forall₂ (fun m sent ↦ C.memberCommits message m = some sent)
        (members.filter Member.signs) r1 ∧
      List.Forall₂ (fun m sent ↦ C.memberPhase .r2 members message (some (r1.map some)) none m =
        some sent) (members.filter Member.signs) r2 ∧
      List.Forall₂ (fun m sent ↦ C.memberPhase .r3 members message (some (r1.map some))
        (some (r2.map some)) m = some sent) (members.filter Member.signs) r3 ∧
      C.aggregatePhase members message (r1.map some) (r2.map some) (r3.map some) = some out ∧
      C.verifySignature (some (C.committeeArrays members).schnorrPublicKeys)
          (some (C.committeeArrays members).weights) (some (C.committeeArrays members).nodeIds)
          (some message) (some out) =
        decide ((members.map Member.heldWeight).sum <
          2 * ((members.filter Member.signs).map Member.heldWeight).sum) := by
  obtain ⟨msg, hmsg⟩ := decode_of_computeNetworkID hmessage
  obtain ⟨bitvector, hpad⟩ := exists_padBitvector (members.map Member.signs) (by
    rw [List.length_map]
    exact hcommittee.size.trans (by decide))
  have h := Committee.honestSession hpad hcommittee hsome (signingParties_pk ▸ hjoint) hmsg
  obtain ⟨sig, hagg, hverify⟩ := aggregatePhase_eq hcommittee h
  refine ⟨(signingParties E members).map (C.sentRound1 msg),
    (signingParties E members).map (C.sentRound2 msg),
    (signingParties E members).map (C.sentRound3 msg members), _, ?_, ?_, ?_, ?_,
    verifySignature_committee hcommittee h hverify⟩
  · refine forall₂_parties fun m hm ↦ ?_
    have hmem := List.mem_filter.mp hm
    exact memberCommits_eq hmsg (hcommittee.signers m hmem.1 hmem.2)
  · exact forall₂_parties fun m hm ↦ memberPhase_r2_eq hcommittee h hm
  · exact forall₂_parties fun m hm ↦ memberPhase_r3_eq hcommittee h hm
  · exact hagg

theorem signing_session_through_bridge_pair :
    ∃ message out, zeroCodec.verifySignature
      (some (zeroCodec.committeeArrays pairMembers).schnorrPublicKeys) (some [1, 5, 1])
      (some [0, 1, 2]) (some message) (some out) = true := by
  obtain ⟨message, hmessage⟩ := exists_networkID zeroCodec
  obtain ⟨_, _, _, out, -, -, -, -, hverdict⟩ := signing_session_through_bridge _ pairCommittee
    exists_pair_signer pairMembers_joint hmessage
  exact ⟨message, out, hverdict.trans (by decide)⟩

/-- Whatever the arguments of the last phase, and whatever bytes the signers have sent: a
multisignature the bridge returns has the length the bridge expects of one, and the bridge verifies
it, on the same book and message, exactly when the selected seats hold a strict majority. -/
theorem bridge_output_verifies (C : GroupCodec E) {entropy key message : Option Bytes}
    {keys : Option (List (Option Bytes))} {weights nodeIds : Option (List Int64)}
    {signers : Option (List Bool)} {r1 r2 r3 : Option (List (Option Bytes))} {out : Bytes}
    (h : C.runSigningProtocolPhase C.sentinelPublicKey (some .aggregate) entropy message key keys
      weights nodeIds signers r1 r2 r3 = some out) :
    ∃ arrays book bits bitvector, bookArrays keys weights nodeIds = some arrays ∧
      C.buildAddressBook arrays = .ok book ∧ signers = some bits ∧
      padBitvector bits = .ok bitvector ∧ out.length = 128 ∧
      C.verifySignature keys weights nodeIds message (some out) =
        decide (totalWeight book < 2 * signingWeight book bitvector) := by
  cases message with
  | none => cases h
  | some message =>
    rw [runSigningProtocolPhase_eq_signingPhase, signingPhase_eq_some_iff] at h
    obtain ⟨haccepts, hcall⟩ := h
    obtain ⟨c, hdec, obj, hrun, hout⟩ := callPhase_ok_iff.mp hcall
    obtain ⟨inputs, hin, hphase⟩ := signingProtocol_ok_iff.mp hrun
    obtain ⟨sig, hagg, rfl⟩ := runPhase_aggregate_ok_iff.mp hphase
    have hlimits := withinLimits_of_accepts haccepts
    have hbook := hasBook_of_accepts (by decide) haccepts
    simp only [SigningRequest.hasBook, Bool.and_eq_true, decide_eq_true_eq] at hbook
    obtain ⟨⟨hne, hvalid⟩, haligned⟩ := hbook
    have hlengths := haligned
    simp only [BookArrays.aligned, Bool.and_eq_true, decide_eq_true_eq] at hlengths
    have hverdict := verifySignature_of_native hne hlimits.size haligned hvalid hdec.book
      hin.message hout (verifySignature_of_aggregate hin hagg)
    -- None of the arrays was null, for the native code has found a seat and its bit.
    have hkeys := eq_some_of_getD_length keys hne
    have hweights := eq_some_of_getD_length weights (hlengths.1.trans_ne hne)
    have hnodeIds := eq_some_of_getD_length nodeIds (hlengths.2.trans_ne hne)
    have hsigners := eq_some_of_getD_length signers (hlimits.signers.trans_ne hne)
    rw [hkeys, hweights, hnodeIds, hsigners]
    refine ⟨_, c.book, _, inputs.bitvector, rfl, hdec.book, rfl, hin.padded, ?_, hverdict⟩
    rw [← hout]
    exact C.schnorrMultiSignature_takes.length_write (C.schnorrMultiSignature_reads _)

theorem bridge_output_verifies_pair :
    ∃ message r1 r2 r3 out bitvector,
      zeroCodec.aggregatePhase pairMembers message r1 r2 r3 = some out ∧
      padBitvector [true, false, true] = .ok bitvector ∧ out.length = 128 := by
  obtain ⟨message, hmessage⟩ := exists_networkID zeroCodec
  obtain ⟨msg, hmsg⟩ := decode_of_computeNetworkID hmessage
  obtain ⟨bitvector, hpad⟩ := exists_padBitvector (pairMembers.map Member.signs) (by decide)
  obtain ⟨sig, hagg, -⟩ := aggregatePhase_eq pairCommittee (pairCommittee.honestSession hpad
    exists_pair_signer (signingParties_pk ▸ pairMembers_joint) hmsg)
  obtain ⟨_, _, _, _, -, -, -, -, hlen, -⟩ := bridge_output_verifies _ hagg
  exact ⟨message, _, _, _, _, bitvector, hagg, hpad, hlen⟩

end GroupCodec

end HieroCryptography.Wraps
