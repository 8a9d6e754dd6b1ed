import HieroCryptography.Wraps.Aggregation
import HieroCryptography.Wraps.LibraryBridge

namespace HieroCryptography.Wraps

open Foundation Rust Native

variable {E : Engine}

theorem allOfLength_eq_true_iff {arrays : List (Option Bytes)} {size : ℕ} :
    allOfLength arrays size = true ↔
      ∀ array ∈ arrays, ∃ bytes, array = some bytes ∧ bytes.length = size := by
  rw [allOfLength, List.all_eq_true]
  refine forall₂_congr fun array _ ↦ ?_
  cases array <;> simp

theorem seats_of_length_eq {book : AddressBook E} {bits : List Bool} {bitvector : BitVector}
    (hpad : padBitvector bits = .ok bitvector) (hlen : bits.length = book.length) :
    seats book bitvector = book.zip bits := by
  rw [seats, (padBitvector_ok_iff.mp hpad).2]
  conv_lhs => rw [← List.append_nil book, List.zip_append hlen.symm]
  rw [List.zip_nil_left, List.append_nil]

theorem length_signingSubset {book : AddressBook E} {bits : List Bool} {bitvector : BitVector}
    (hpad : padBitvector bits = .ok bitvector) (hlen : bits.length = book.length)
    (hheld : ∀ seat ∈ seats book bitvector, seat.2 = true → seat.1.pubKey ≠ 0) :
    (signingSubset book bitvector).length = bits.count true := by
  have hsome : ∀ seat ∈ seats book bitvector, (signerKey seat).isSome = true ↔ seat.2 = true := by
    intro seat hseat
    have := hheld seat hseat
    cases h : seat.2 <;> simp_all [signerKey]
  rw [signingSubset, List.length_filterMap_eq_countP, List.countP_congr hsome,
    seats_of_length_eq hpad hlen]
  have hsnd : (book.zip bits).map Prod.snd = bits := List.map_snd_zip hlen.le
  conv_rhs => rw [← hsnd, List.count, List.countP_map]
  exact List.countP_congr fun seat _ ↦ by simp

namespace GroupCodec

variable {C : GroupCodec E}

section Sizes

theorem Holds.attestedPubKey_size {jobj : Option Bytes} {key : E.GE × SchnorrPoK E}
    (h : C.Holds C.schnorrAttestedPubKey jobj key) :
    ∃ bytes, jobj = some bytes ∧ bytes.length = 128 := by
  obtain ⟨bytes, rfl, hdec⟩ := h
  exact ⟨bytes, rfl, length_of_decode C.schnorrAttestedPubKey_takes hdec⟩

theorem signingProtocolMessageWire_shrinks : signingProtocolMessageWire.Shrinks := by
  intro bytes message rest h
  rw [Wire.byte_takes.vec h]
  exact Nat.le_add_left ..

theorem Holds.protocolMessage_size {jobj : Option Bytes} {message : Bytes}
    (h : C.Holds signingProtocolMessageWire jobj message) :
    ∃ bytes, jobj = some bytes ∧ bytes.length = 8 + message.length := by
  obtain ⟨bytes, rfl, hdec⟩ := h
  have hread := (decode_ofWire_ok_iff signingProtocolMessageWire_shrinks).mp hdec
  refine ⟨bytes, rfl, ?_⟩
  rw [Wire.byte_takes.vec hread, Nat.one_mul]
  rfl

theorem carries_size {T : Type} {payload : RoundMessage E → Option T} {bytes : Bytes} {t : T}
    (h : Carries C.serde payload bytes t) :
    ∃ m, payload m = some t ∧ bytes.length = roundSize m := by
  obtain ⟨m, hdec, hm⟩ := h
  exact ⟨m, hm, C.roundMessage_size ((decode_ofWire_ok_iff C.roundMessage_shrinks).mp hdec)⟩

theorem validateRoundMessages_of_carries {T : Type} {payload : RoundMessage E → Option T} {k : ℕ}
    (hk : ∀ m t, payload m = some t → roundSize m = k) {arrays : List (Option Bytes)}
    {messages : List Bytes} {payloads : List T}
    (hheld : List.Forall₂ (C.Holds signingProtocolMessageWire) arrays messages)
    (hcarry : List.Forall₂ (Carries C.serde payload) messages payloads) :
    validateRoundMessages arrays (8 + k) = true := by
  apply allOfLength_eq_true_iff.mpr
  induction hheld generalizing payloads with
  | nil => simp
  | cons hhead _ ih =>
    obtain ⟨t, payloads, hpayload, hrest, rfl⟩ := List.forall₂_cons_left_iff.mp hcarry
    refine List.forall_mem_cons.mpr ⟨?_, ih hrest⟩
    obtain ⟨m, hm, hsize⟩ := carries_size hpayload
    rw [← hk m t hm, ← hsize]
    exact hhead.protocolMessage_size

end Sizes

end GroupCodec

/-- Limits of the bridge's own. The native code also takes a book of 64 seats, signers that end
before the book does, and weights or node ids that go on behind it. -/
structure SigningRequest.WithinLimits (phase : SigningProtocolPhase) (r : SigningRequest) :
    Prop where
  size : r.book.schnorrPublicKeys.length ≤ bridgeMaxAbSize
  weights : r.book.weights.length ≤ bridgeMaxAbSize
  nodeIds : r.book.nodeIds.length ≤ bridgeMaxAbSize
  signers : r.signers.length = r.book.schnorrPublicKeys.length
  aligned : phase ≠ .r1 → r.book.aligned = true

/-- Which arguments the bridge takes in a phase: no keys in the first one, and the secrets of the
caller in all but the last. The native code takes keys in every phase, and any secrets that it does
not need. -/
structure SigningRequest.ArgumentsOf (phase : SigningProtocolPhase) (r : SigningRequest) :
    Prop where
  first : phase = .r1 → r.book.schnorrPublicKeys = []
  secrets : phase ≠ .aggregate → r.schnorrPrivateKey.isSome = true ∧ r.instanceEntropy.isSome = true
  noSecrets : phase = .aggregate → r.schnorrPrivateKey = none ∧ r.instanceEntropy = none

namespace GroupCodec

variable {C : GroupCodec E}

section Checks

variable {r : SigningRequest} {c : SigningCall E} {phase : SigningProtocolPhase}

theorem seat_of_key {book : BookArrays} {ab : AddressBook E} (h : C.buildAddressBook book = .ok ab)
    {i : ℕ} {key : Option Bytes} (hkey : book.schnorrPublicKeys[i]? = some key) :
    ∃ entry, ab[i]? = some entry ∧
      C.Holds C.schnorrAttestedPubKey key (entry.pubKey, entry.pok) := by
  obtain ⟨hweights, hnodeIds, hrows⟩ := buildAddressBook_ok_iff.mp h
  obtain ⟨hi, rfl⟩ := List.getElem?_eq_some_iff.mp hkey
  have hrow : i < book.rows.length := by
    simp only [BookArrays.rows, List.length_zip]
    omega
  obtain ⟨entry, hentry, hseat⟩ := exists_of_forall₂ hrows (List.getElem?_eq_getElem hrow)
  refine ⟨entry, hentry, ?_⟩
  have := hseat.key
  simpa only [BookArrays.rows, List.getElem_zip] using this

theorem sentinelPubkey_eq_zero : (sentinelPubkey : E.GE) = 0 := zero_smul _ _

/-- The native code takes the sentinel for a seat nobody holds. -/
theorem holds_sentinel {key : E.GE × SchnorrPoK E}
    (h : C.Holds C.schnorrAttestedPubKey C.sentinelPublicKey key) : key.1 = 0 := by
  obtain ⟨bytes, hbytes, hdec⟩ := h
  obtain rfl : C.schnorrAttestedPubKey.write sentinelKeygen = bytes := Option.some.inj hbytes
  rw [bincode, decode_ofWire_write C.schnorrAttestedPubKey_reads, Except.ok.injEq] at hdec
  rw [← hdec]
  exact sentinelPubkey_eq_zero

theorem length_of_decodes (h : C.Decodes r c) :
    c.book.length = r.book.schnorrPublicKeys.length := by
  obtain ⟨hweights, hnodeIds, hrows⟩ := buildAddressBook_ok_iff.mp h.book
  rw [← hrows.length_eq, BookArrays.rows, List.length_zip, List.length_zip]
  omega

theorem validateSchnorrPublicKeys_of_decodes (h : C.Decodes r c) :
    validateSchnorrPublicKeys r.book.schnorrPublicKeys = true := by
  obtain ⟨hweights, hnodeIds, hrows⟩ := buildAddressBook_ok_iff.mp h.book
  refine allOfLength_eq_true_iff.mpr fun key hkey ↦ ?_
  obtain ⟨i, hi⟩ := List.mem_iff_getElem?.mp hkey
  obtain ⟨entry, -, hheld⟩ := seat_of_key h.book hi
  exact hheld.attestedPubKey_size

theorem selectsSentinel_of_held (h : C.Decodes r c)
    (hlen : r.signers.length = r.book.schnorrPublicKeys.length) {bitvector : BitVector}
    (hpad : padBitvector r.signers = .ok bitvector)
    (hheld : ∀ seat ∈ seats c.book bitvector, seat.2 = true → seat.1.pubKey ≠ 0) :
    r.selectsSentinel C.sentinelPublicKey = false := by
  rw [SigningRequest.selectsSentinel, List.any_eq_false]
  rintro ⟨signed, key⟩ hmem hselected
  obtain ⟨rfl, hkey⟩ : signed = true ∧ key = C.sentinelPublicKey := by simpa using hselected
  obtain ⟨i, hi⟩ := List.mem_iff_getElem?.mp hmem
  obtain ⟨hsigned, hkeys⟩ := List.getElem?_zip_eq_some.mp hi
  obtain ⟨entry, hentry, hholds⟩ := seat_of_key h.book hkeys
  rw [seats_of_length_eq hpad (hlen.trans (length_of_decodes h).symm)] at hheld
  have hseat : (entry, true) ∈ c.book.zip r.signers :=
    List.mem_iff_getElem?.mpr ⟨i, List.getElem?_zip_eq_some.mpr ⟨hentry, hsigned⟩⟩
  exact hheld _ hseat rfl (holds_sentinel (hkey ▸ hholds))

theorem hasSecrets_of_decodes (hdec : C.Decodes r c)
    (h : r.schnorrPrivateKey.isSome = true ∧ r.instanceEntropy.isSome = true) :
    r.hasSecrets = true := by
  obtain ⟨entropy, hentropy⟩ := Option.isSome_iff_exists.mp h.2
  have hrel := hdec.entropy
  rw [hentropy] at hrel
  generalize c.entropy = seed at hrel
  cases hrel with
  | some hseed => simp [SigningRequest.hasSecrets, h.1, hentropy, ← hseed, entropySize]

theorem acceptsSizes_of_decodes (hlimits : r.WithinLimits phase) (hdec : C.Decodes r c)
    (h1 : r.round1Messages.length ≤ r.numOfActualSigners)
    (h2 : r.round2Messages.length ≤ r.numOfActualSigners)
    (h3 : r.round3Messages.length ≤ r.numOfActualSigners) : r.acceptsSizes = true := by
  have hkey : (r.schnorrPrivateKey.elim true fun key ↦ key.length ≤ bridgeMaxAbSize) = true := by
    have hrel := hdec.key
    cases hkey : r.schnorrPrivateKey with
    | none => rfl
    | some key =>
      rw [hkey] at hrel
      generalize c.key = sk at hrel
      cases hrel with
      | some hsk =>
        have hlen := length_of_decode C.scalar_takes hsk
        simp [hlen, bridgeMaxAbSize, Hints.maxSignersNum]
  have hcount : r.numOfActualSigners ≤ r.signers.length := List.count_le_length
  have hsize := hlimits.size
  have hweights := hlimits.weights
  have hnodeIds := hlimits.nodeIds
  have hsigners := hlimits.signers
  simp only [SigningRequest.acceptsSizes, hkey, Bool.true_and, Bool.and_eq_true, decide_eq_true_eq]
  omega

theorem hasBook_of_decodes (hlimits : r.WithinLimits phase) (hphase : phase ≠ .r1)
    (hdec : C.Decodes r c) (hne : r.numOfActualSigners ≠ 0) : r.hasBook = true := by
  have hcount : r.numOfActualSigners ≤ r.signers.length := List.count_le_length
  have hsigners := hlimits.signers
  have hkeys : r.book.schnorrPublicKeys.length ≠ 0 := by omega
  simp only [SigningRequest.hasBook, hkeys, validateSchnorrPublicKeys_of_decodes hdec,
    hlimits.aligned hphase, ne_eq, not_false_eq_true, decide_true, Bool.and_true]

theorem acceptsPhase_of_checked (hlimits : r.WithinLimits phase) (hargs : r.ArgumentsOf phase)
    (hdec : C.Decodes r c) {inputs : SigningInputs E}
    (hin : Checked C.serde phase c.entropy.isSome r.messageToSign c.key.isSome c.book r.signers
      c.round1 c.round2 c.round3 inputs)
    (hnum : inputs.participants.length = r.numOfActualSigners)
    (hcounts : (r.round1Messages.length, r.round2Messages.length, r.round3Messages.length) =
      (phaseNeeds phase r.numOfActualSigners).2.2) : r.acceptsPhase phase = true := by
  have hbook (hphase : phase ≠ .r1) : r.hasBook = true := by
    refine hasBook_of_decodes hlimits hphase hdec ?_
    rw [← hnum, ne_eq, List.length_eq_zero_iff]
    exact hin.nonempty hphase
  have hr1 : validateRoundMessages r.round1Messages round1MessageSize = true :=
    validateRoundMessages_of_carries (k := 36) (by rintro (_ | _ | _) _ ⟨⟩; rfl) hdec.round1
      hin.round1
  have hr2 : validateRoundMessages r.round2Messages round2MessageSize = true :=
    validateRoundMessages_of_carries (k := 36) (by rintro (_ | _ | _) _ ⟨⟩; rfl) hdec.round2
      hin.round2
  have hr3 : validateRoundMessages r.round3Messages round3MessageSize = true :=
    validateRoundMessages_of_carries (k := 68) (by rintro (_ | _ | _) _ ⟨⟩; rfl) hdec.round3
      hin.round3
  simp only [phaseNeeds] at hcounts
  cases phase with
  | r1 =>
    simp only [Prod.mk.injEq, List.length_eq_zero_iff] at hcounts
    simp [SigningRequest.acceptsPhase, hargs.first rfl, hcounts]
  | r2 =>
    simp only [Prod.mk.injEq, List.length_eq_zero_iff] at hcounts
    simp [SigningRequest.acceptsPhase, hr1, hbook (by decide), hcounts]
  | r3 =>
    simp only [Prod.mk.injEq, List.length_eq_zero_iff] at hcounts
    simp [SigningRequest.acceptsPhase, hr1, hr2, hbook (by decide), hcounts]
  | aggregate =>
    simp only [Prod.mk.injEq] at hcounts
    simp [SigningRequest.acceptsPhase, hr1, hr2, hr3, hbook (by decide), hcounts,
      hargs.noSecrets rfl]

theorem accepts_of_callPhase (hlimits : r.WithinLimits phase) (hargs : r.ArgumentsOf phase)
    {out : Bytes} (h : C.callPhase phase r = .ok out) :
    r.accepts C.sentinelPublicKey phase = true := by
  obtain ⟨c, hdec, obj, hrun, -⟩ := callPhase_ok_iff.mp h
  obtain ⟨inputs, hin, -⟩ := signingProtocol_ok_iff.mp hrun
  have hlen : r.signers.length = c.book.length :=
    hlimits.signers.trans (length_of_decodes hdec).symm
  have hnum : inputs.participants.length = r.numOfActualSigners := by
    rw [hin.participants]
    exact length_signingSubset hin.padded hlen hin.held
  have hcounts := (validateSigningPhase_ok_iff.mp hin.phaseOk).2.2
  rw [hnum, ← hdec.round1.length_eq, ← hdec.round2.length_eq, ← hdec.round3.length_eq] at hcounts
  have hsecrets : (phase = .aggregate || r.hasSecrets) = true := by
    by_cases hphase : phase = .aggregate
    · simp [hphase]
    · simp [hasSecrets_of_decodes hdec (hargs.secrets hphase)]
  have hcount : r.numOfActualSigners ≤ r.book.schnorrPublicKeys.length :=
    List.count_le_length.trans hlimits.signers.le
  have hsizes : r.acceptsSizes = true := by
    have hle : (phaseNeeds phase r.numOfActualSigners).2.2.1 ≤ r.numOfActualSigners ∧
        (phaseNeeds phase r.numOfActualSigners).2.2.2.1 ≤ r.numOfActualSigners ∧
        (phaseNeeds phase r.numOfActualSigners).2.2.2.2 ≤ r.numOfActualSigners := by
      cases phase <;> simp [phaseNeeds]
    rw [← hcounts] at hle
    exact acceptsSizes_of_decodes hlimits hdec hle.1 hle.2.1 hle.2.2
  have hsentinel := selectsSentinel_of_held hdec hlimits.signers hin.padded hin.held
  simp only [SigningRequest.accepts, hsecrets, hlimits.signers, hsentinel,
    acceptsPhase_of_checked hlimits hargs hdec hin hnum hcounts, hsizes, gt_iff_lt,
    Nat.not_lt.mpr hcount, Bool.false_eq_true, decide_true, decide_false, not_false_eq_true,
    Bool.and_false, Bool.and_true]

theorem hasBook_of_accepts {sentinel : Option Bytes} (hphase : phase ≠ .r1)
    (h : r.accepts sentinel phase = true) : r.hasBook = true := by
  simp only [SigningRequest.accepts, Bool.and_eq_true] at h
  cases phase with
  | r1 => exact absurd rfl hphase
  | r2 => simp_all [SigningRequest.acceptsPhase]
  | r3 => simp_all [SigningRequest.acceptsPhase]
  | aggregate => simp_all [SigningRequest.acceptsPhase]

theorem withinLimits_of_accepts {sentinel : Option Bytes} (h : r.accepts sentinel phase = true) :
    r.WithinLimits phase := by
  have hchecks := h
  simp only [SigningRequest.accepts, SigningRequest.acceptsSizes, Bool.and_eq_true,
    decide_eq_true_eq] at hchecks
  obtain ⟨⟨⟨⟨⟨-, hsigners⟩, -⟩, -⟩, -⟩, hsizes⟩ := hchecks
  refine ⟨by omega, by omega, by omega, hsigners, fun hne ↦ ?_⟩
  have hbook := hasBook_of_accepts hne h
  simp only [SigningRequest.hasBook, Bool.and_eq_true] at hbook
  exact hbook.2

end Checks

section Verdict

variable {r : SigningRequest}

theorem verifySignature_of_native {book : BookArrays} {message signature : Bytes}
    (hne : book.schnorrPublicKeys.length ≠ 0)
    (hsize : book.schnorrPublicKeys.length ≤ bridgeMaxAbSize) (haligned : book.aligned = true)
    (hkeys : validateSchnorrPublicKeys book.schnorrPublicKeys = true) {ab : AddressBook E}
    (hbook : C.buildAddressBook book = .ok ab) {msg : RotationMessage E}
    (hmessage : decodeRotationMessage C.serde message = .ok msg) {sig : BitVector × Signature E}
    (hsig : C.schnorrMultiSignature.write sig = signature) {verdict : Bool}
    (h : Wraps.verifySignature C.serde ab message sig = .ok verdict) :
    C.verifySignature (some book.schnorrPublicKeys) (some book.weights) (some book.nodeIds)
      (some message) (some signature) = verdict := by
  have hmessage_len : message.length = 64 :=
    length_of_decode C.rotationMessage_takes (decodeRotationMessage_ok_iff.mp hmessage)
  have hsig_len : signature.length = 128 := by
    rw [← hsig]
    exact C.schnorrMultiSignature_takes.length_write (C.schnorrMultiSignature_reads sig)
  have hdec : decode (C.bincode C.schnorrMultiSignature) signature = .ok sig := by
    rw [← hsig]
    exact decode_ofWire_write C.schnorrMultiSignature_reads sig
  have hnative : C.verifySignatureImpl book message signature = .ok verdict := by
    rw [verifySignatureImpl, hbook, ok_bind, deserializeFromJbyteArray_ok_iff.mpr hdec, ok_bind]
    exact orNull_ok_iff.mpr h
  simp only [GroupCodec.verifySignature, bookArrays, Option.bind_eq_bind, Option.bind_some, hne,
    hsize, haligned, hkeys, hmessage_len, hsig_len, hnative, ne_eq, not_false_eq_true,
    OfNat.ofNat_ne_zero, decide_true, Bool.true_and]
  rfl

theorem runSigningProtocolPhase_eq_signingPhase (phase : SigningProtocolPhase)
    (entropy key : Option Bytes) (message : Bytes) (keys : Option (List (Option Bytes)))
    (weights nodeIds : Option (List Int64)) (signers : Option (List Bool))
    (r1 r2 r3 : Option (List (Option Bytes))) :
    C.runSigningProtocolPhase C.sentinelPublicKey (some phase) entropy (some message) key keys
        weights nodeIds signers r1 r2 r3 =
      C.signingPhase phase ⟨entropy, message, key,
        ⟨keys.getD [], weights.getD [], nodeIds.getD []⟩, signers.getD [], r1.getD [], r2.getD [],
        r3.getD []⟩ := rfl

theorem eq_some_of_getD_length {α : Type} (array : Option (List α))
    (h : (array.getD []).length ≠ 0) : array = some (array.getD []) := by
  cases array with
  | none => exact absurd rfl h
  | some _ => rfl

end Verdict

end GroupCodec

end HieroCryptography.Wraps
