import HieroCryptography.Wraps.BridgeSession
import HieroCryptography.Wraps.Runs

namespace HieroCryptography.Wraps

open Foundation Rust Native Synthesis

variable {E : Engine}

theorem exists_rotationCircuit {S : Serde E} (hR : S.rotationMessage.RoundTrips)
    (abGenesisHash : E.Base) (isGenesis : Bool) (call : Rotation E) (hnext : ValidBook call.nextAb)
    (hsigned : Signed call.prevAb call.multiSignature.1
      (rotationMessage call.nextAb call.hintsVk).elements call.multiSignature.2)
    (hgenesis : isGenesis = true → hashAddressBook (paddedBook call.prevAb) = abGenesisHash ∧
      hashAddressBook (paddedBook call.nextAb) = abGenesisHash) :
    ∃ circuit, rotationCircuit S abGenesisHash call.prevAb call.nextAb isGenesis call.hintsVk
      call.multiSignature = .ok circuit := by
  obtain ⟨prev, next, hintsVk, bitvector, sig⟩ := call
  dsimp only at hnext hsigned hgenesis ⊢
  have hprev := hsigned.valid
  have hfit {ab : AddressBook E} (h : ValidBook ab) :
      ab.length + (maxAbSize - ab.length) ≤ maxAbSize := by
    have := h.size
    omega
  obtain ⟨message, hencoded, -⟩ := hR.decode_encode (rotationMessage next hintsVk)
  have hmessage := computeRotationMessage_ok_iff.mpr ⟨hnext, hencoded⟩
  have hdecoded := decode_computeRotationMessage hR hmessage
  have hpadded : computeRotationMessage S (paddedBook next) hintsVk = .ok message := by
    rw [computeRotationMessage, paddedBook, computeAddressbookHash_append_padding (hfit hnext)]
    exact hmessage
  have hverified : verifySignature S (paddedBook prev) message (bitvector, sig) = .ok true := by
    rw [paddedBook, verifySignature_append_padding S (hfit hprev) message hsigned.inside]
    exact verifySignature_ok_true_iff.mpr ⟨_, hdecoded, hsigned⟩
  have hslice : (slice bitvector.toList prev.length maxAbSize : Result (List Bool)) = _ :=
    slice_outside_ok_iff.mpr ⟨hprev.size, rfl⟩
  refine ⟨⟨paddedBook prev, bitvector, sig, rotationMessage next hintsVk⟩, ?_⟩
  simp only [rotationCircuit, verifyAddressBook_eq_true_iff.mpr hprev,
    verifyAddressBook_eq_true_iff.mpr hnext, require_true, ok_bind, hslice,
    any_drop_eq_false le_rfl hsigned.inside, padAddressBook_ok_iff.mpr ⟨hprev.size, rfl⟩,
    padAddressBook_ok_iff.mpr ⟨hnext.size, rfl⟩, hpadded, hverified, hdecoded]
  cases isGenesis with
  | false => simp
  | true =>
    obtain ⟨hfirst, honto⟩ := hgenesis rfl
    simp [hfirst, honto]

/-- A change of the address book that is to be made through the bridge: the seats of the book in
force, with those that are to sign, the arrays of the next book, and the key that comes with it. -/
structure Handover where
  members : List Member
  next : BookArrays
  tssVerificationKey : Bytes

namespace GroupCodec

variable (C : GroupCodec E)

def prevArrays (h : Handover) : BookArrays := C.committeeArrays h.members

def handoverMessage (h : Handover) : Option Bytes :=
  C.computeNetworkID (some h.next.schnorrPublicKeys) (some h.next.weights) (some h.next.nodeIds)
    (some h.tssVerificationKey)

/-- The signers outweigh the others, their keys do not cancel, and the next book is accepted. -/
structure Ready (h : Handover) : Prop where
  committee : Committee E h.members
  joint : ((h.members.filter Member.signs).map fun m ↦ (m.key E).1).sum ≠ 0
  majority : (h.members.map Member.heldWeight).sum <
    2 * ((h.members.filter Member.signs).map Member.heldWeight).sum
  nonempty : h.next.schnorrPublicKeys ≠ []
  message : (C.handoverMessage h).isSome = true

/-- The bytes are the outcome of a session that the signers held through the bridge. -/
def SignedBy (h : Handover) (signature : Bytes) : Prop :=
  ∃ message r1 r2 r3, C.handoverMessage h = some message ∧
    List.Forall₂ (fun m sent ↦ C.memberCommits message m = some sent)
      (h.members.filter Member.signs) r1 ∧
    List.Forall₂ (fun m sent ↦ C.memberPhase .r2 h.members message (some (r1.map some)) none m =
      some sent) (h.members.filter Member.signs) r2 ∧
    List.Forall₂ (fun m sent ↦ C.memberPhase .r3 h.members message (some (r1.map some))
      (some (r2.map some)) m = some sent) (h.members.filter Member.signs) r3 ∧
    C.aggregatePhase h.members message (r1.map some) (r2.map some) (r3.map some) = some signature

def proveHandover {N : Nova E} (P : ProofSerde N) (pp : N.PublicParams) (genesisHash : Bytes)
    (proof : Option (Bytes × Bytes)) (signed : Handover × Bytes) :
    Option (Option (Bytes × Bytes)) :=
  let prev := C.prevArrays signed.1
  let next := signed.1.next
  (C.constructWrapsProof P (some (some pp)) true (some genesisHash) (some prev.schnorrPublicKeys)
    (some prev.weights) (some prev.nodeIds) (some next.schnorrPublicKeys) (some next.weights)
    (some next.nodeIds) (proof.map Prod.fst) (some signed.1.tssVerificationKey)
    (some signed.2)).map some

/-- A signed handover stands for a rotation that native code can prove. -/
structure Carried (h : Handover) (signature : Bytes) (call : Rotation E) : Prop where
  prev : C.buildAddressBook (C.prevArrays h) = .ok call.prevAb
  prevSome : (C.prevArrays h).schnorrPublicKeys ≠ []
  next : C.buildAddressBook h.next = .ok call.nextAb
  nextSome : h.next.schnorrPublicKeys ≠ []
  nextAccepted : h.next.accepts = true
  nextValid : ValidBook call.nextAb
  key : h.tssVerificationKey ≠ []
  hintsVk : call.hintsVk = h.tssVerificationKey
  signature : signature = C.schnorrMultiSignature.write call.multiSignature
  signed : Signed call.prevAb call.multiSignature.1
    (Wraps.rotationMessage call.nextAb call.hintsVk).elements call.multiSignature.2

section Sessions

variable {C}

theorem Ready.exists_signer {h : Handover} (hready : C.Ready h) :
    ∃ m ∈ h.members, m.signs = true := by
  have hne : h.members.filter Member.signs ≠ [] := by
    intro hnil
    have := hready.joint
    rw [hnil] at this
    exact this rfl
  obtain ⟨m, hm⟩ := List.exists_mem_of_ne_nil _ hne
  exact ⟨m, List.mem_filter.mp hm⟩

theorem exists_carried {h : Handover} (hready : C.Ready h) :
    ∃ signature call, C.SignedBy h signature ∧ C.Carried h signature call := by
  obtain ⟨message, hmessage⟩ := Option.isSome_iff_exists.mp hready.message
  obtain ⟨arrays, vk, nextAb, harrays, hvk, haccepts, hkey, hnext, hvalid, hwrite⟩ :=
    computeNetworkID_eq_some_iff.mp hmessage
  cases harrays
  cases hvk
  have hdecoded : decodeRotationMessage C.serde message = .ok (Wraps.rotationMessage nextAb _) :=
    decodeRotationMessage_ok_iff.mpr (C.decode_rotationMessage_iff.mpr hwrite)
  have hcommittee := hready.committee
  have hsome := hready.exists_signer
  obtain ⟨bitvector, hpad⟩ := exists_padBitvector (h.members.map Member.signs) (by
    rw [List.length_map]
    exact hcommittee.size.trans (by decide))
  have hsession := hcommittee.honestSession hpad hsome (signingParties_pk ▸ hready.joint) hdecoded
  obtain ⟨sig, hagg, hverify⟩ := aggregatePhase_eq hcommittee hsession
  refine ⟨_, ⟨h.members.map (Member.entry E), nextAb, h.tssVerificationKey, bitvector, sig⟩,
    ⟨message, _, _, _, hmessage, ?_, ?_, ?_, hagg⟩, ?_⟩
  · refine forall₂_parties fun m hm ↦ ?_
    have hmem := List.mem_filter.mp hm
    exact memberCommits_eq hdecoded (hcommittee.signers m hmem.1 hmem.2)
  · exact forall₂_parties fun m hm ↦ memberPhase_r2_eq hcommittee hsession hm
  · exact forall₂_parties fun m hm ↦ memberPhase_r3_eq hcommittee hsession hm
  · refine ⟨C.buildAddressBook_committee hcommittee, ?_, hnext, hready.nonempty, haccepts, hvalid,
      hkey, rfl, rfl, ?_⟩
    · obtain ⟨m, hm, -⟩ := hsome
      rw [prevArrays, committeeArrays, ne_eq, List.map_eq_nil_iff]
      exact List.ne_nil_of_mem hm
    · refine ⟨hsession.valid, hsession.inside, hsession.held, ?_, hsession.keys ▸ hsession.joint,
        hverify⟩
      rw [hcommittee.totalWeight_entries, Committee.signingWeight_entries hpad hcommittee]
      exact hready.majority

theorem Carried.handoverMessage {h : Handover} {signature : Bytes} {call : Rotation E}
    (hcarried : C.Carried h signature call) : C.handoverMessage h =
      some (C.rotationMessage.write (Wraps.rotationMessage call.nextAb call.hintsVk)) := by
  rw [hcarried.hintsVk]
  exact computeNetworkID_eq_some_iff.mpr ⟨h.next, _, _, rfl, rfl, hcarried.nextAccepted,
    hcarried.key, hcarried.next, hcarried.nextValid, rfl⟩

end Sessions

section Proving

variable {C} {N : Nova E} {P : ProofSerde N} {pp : N.PublicParams}

theorem proveHandover_eq_some_iff {genesisHash : Bytes} {proof : Option (Bytes × Bytes)}
    {h : Handover} {signature : Bytes} {out : Bytes × Bytes} :
    C.proveHandover P pp genesisHash proof (h, signature) = some (some out) ↔
      (genesisHash ≠ [] ∧ (C.prevArrays h).schnorrPublicKeys ≠ [] ∧
        (C.prevArrays h).accepts = true ∧ h.next.schnorrPublicKeys ≠ [] ∧ h.next.accepts = true ∧
        h.tssVerificationKey ≠ [] ∧ signature ≠ []) ∧
      C.constructWrapsProofImpl P (some (some pp)) genesisHash (C.prevArrays h) h.next
        (proof.map Prod.fst) h.tssVerificationKey signature = .ok out := by
  simp only [proveHandover, constructWrapsProof, bookArrays, Option.bind_eq_bind, Option.bind_some,
    not_true_eq_false, if_false, Option.map_eq_some_iff, Option.some.injEq, exists_eq_right]
  split
  · next hchecks =>
    have hchecks' : genesisHash ≠ [] ∧ (C.prevArrays h).schnorrPublicKeys ≠ [] ∧
        (C.prevArrays h).accepts = true ∧ h.next.schnorrPublicKeys ≠ [] ∧ h.next.accepts = true ∧
        h.tssVerificationKey ≠ [] ∧ signature ≠ [] := by simpa [and_assoc] using hchecks
    rw [catchUnwind_eq_some_iff]
    exact (and_iff_right hchecks').symm
  · next hchecks =>
    refine iff_of_false (Option.some_ne_none out).symm fun hout ↦ hchecks ?_
    simpa [and_assoc] using hout.1

theorem proveHandover_of_native {h : Handover} {signature : Bytes} {call : Rotation E}
    (hcarried : C.Carried h signature call) (haccepts : (C.prevArrays h).accepts = true)
    {abGenesisHash : E.Base} {proof : Option (Bytes × Bytes)} {out : Bytes × Bytes}
    (hout : Wraps.constructWrapsProof C.serde P pp abGenesisHash call.prevAb call.nextAb
      (proof.map Prod.fst) call.hintsVk call.multiSignature = .ok out) :
    C.proveHandover P pp (C.base.write abGenesisHash) proof (h, signature) = some (some out) := by
  refine proveHandover_eq_some_iff.mpr ⟨⟨C.base_takes.write_ne_nil (by decide) (C.base_reads _),
    hcarried.prevSome, haccepts, hcarried.nextSome, hcarried.nextAccepted, hcarried.key, ?_⟩, ?_⟩
  · rw [hcarried.signature]
    exact C.schnorrMultiSignature_takes.write_ne_nil (by decide) (C.schnorrMultiSignature_reads _)
  · simp only [constructWrapsProofImpl, bind_ok_iff, deserializeFromJbyteArray_ok_iff, okOr_ok_iff,
      orNull_ok_iff]
    refine ⟨_, decode_ofWire_write C.base_reads _, _, hcarried.prev, _, hcarried.next, _, ?_, pp,
      rfl, hcarried.hintsVk ▸ hout⟩
    rw [hcarried.signature]
    exact decode_ofWire_write C.schnorrMultiSignature_reads _

theorem proveHandover_recompressed (hC : P.compressed.RoundTrips) {genesisHash : Bytes}
    {proof : Option (Bytes × Bytes)} {signed : Handover × Bytes} {running compressed : Bytes}
    (hout : C.proveHandover P pp genesisHash proof signed = some (some (running, compressed))) :
    ∃ value, ∀ (T : Bincode (CompressedWrapsProof N)) (bytes : Bytes)
      (proof' : Option (Bytes × Bytes)), T.RoundTrips → encode T value = .ok bytes →
      proof'.map Prod.fst = proof.map Prod.fst →
      C.proveHandover ⟨P.uncompressed, T⟩ pp genesisHash proof' signed =
        some (some (running, bytes)) := by
  obtain ⟨h, signature⟩ := signed
  obtain ⟨hchecks, hnative⟩ := proveHandover_eq_some_iff.mp hout
  simp only [constructWrapsProofImpl, bind_ok_iff, orNull_ok_iff] at hnative
  obtain ⟨hash, hhash, prev, hprev, next, hnext, sig, hsig, pp', hpp, hconstruct⟩ := hnative
  obtain ⟨value, hvalue⟩ := constructWrapsProof_recompressed hC hconstruct
  refine ⟨value, fun T bytes proof' hT hbytes hproof ↦
    proveHandover_eq_some_iff.mpr ⟨hchecks, ?_⟩⟩
  simp only [constructWrapsProofImpl, bind_ok_iff, orNull_ok_iff, hproof]
  exact ⟨hash, hhash, prev, hprev, next, hnext, sig, hsig, pp', hpp, hvalue T bytes hT hbytes⟩

theorem proveHandover_some {genesisHash : Bytes} {proof : Option (Bytes × Bytes)}
    {signed : Handover × Bytes} {proof' : Option (Bytes × Bytes)}
    (hout : C.proveHandover P pp genesisHash proof signed = some proof') :
    ∃ running compressed, proof' = some (running, compressed) := by
  obtain ⟨out, -, rfl⟩ := Option.map_eq_some_iff.mp hout
  exact ⟨out.1, out.2, rfl⟩

theorem foldlM_recompressed (hC : P.compressed.RoundTrips) {genesisHash : Bytes}
    {steps : List (Handover × Bytes)} (hne : steps ≠ []) {proof : Option (Bytes × Bytes)}
    {running compressed : Bytes}
    (hout : steps.foldlM (C.proveHandover P pp genesisHash) proof =
      some (some (running, compressed))) :
    ∃ value, ∀ (T : Bincode (CompressedWrapsProof N)) (bytes : Bytes)
      (proof' : Option (Bytes × Bytes)), T.RoundTrips → encode T value = .ok bytes →
      proof'.map Prod.fst = proof.map Prod.fst →
      steps.foldlM (C.proveHandover ⟨P.uncompressed, T⟩ pp genesisHash) proof' =
        some (some (running, bytes)) := by
  induction steps generalizing proof with
  | nil => exact absurd rfl hne
  | cons step rest ih =>
    rw [List.foldlM_cons, Option.bind_eq_bind, Option.bind_eq_some_iff] at hout
    obtain ⟨next, hstep, hrest⟩ := hout
    obtain ⟨running₁, compressed₁, rfl⟩ := proveHandover_some hstep
    obtain ⟨value₁, hvalue₁⟩ := proveHandover_recompressed hC hstep
    cases rest with
    | nil =>
      cases hrest
      refine ⟨value₁, fun T bytes proof' hT hbytes hproof ↦ ?_⟩
      rw [List.foldlM_cons, hvalue₁ T bytes proof' hT hbytes hproof]
      rfl
    | cons step' rest =>
      obtain ⟨value, hvalue⟩ := ih (List.cons_ne_nil _ _) hrest
      refine ⟨value, fun T bytes proof' hT hbytes hproof ↦ ?_⟩
      obtain ⟨bytes₁, hbytes₁, -⟩ := hT.decode_encode value₁
      rw [List.foldlM_cons, hvalue₁ T bytes₁ proof' hT hbytes₁ hproof]
      exact hvalue T bytes _ hT hbytes rfl

theorem verifyCompressedProof_eq_true_iff {vk : N.VerifierKey}
    {proof ledgerId tssVk : Bytes} :
    C.verifyCompressedProof P (some (some vk)) true (some proof) (some ledgerId) (some tssVk) =
        true ↔
      ledgerId.length = ledgerIdLengthBytes ∧ tssVk.length = Hints.tssVerificationKeyLengthBytes ∧
        proof.length = compressedWrapsProofLengthBytes ∧
        verifyCompressedWrapsProof C.serde P vk proof ledgerId tssVk = .ok true := by
  simp only [verifyCompressedProof, Bool.true_and, Bool.and_eq_true, decide_eq_true_eq,
    catchUnwindBool_eq_true_iff, verifyCompressedProofImpl, okOr_some, ok_bind, orNull_ok_iff,
    and_assoc]

theorem verifyUncompressedProof_eq_true_iff {proof ledgerId tssVk : Bytes} :
    C.verifyUncompressedProof P (some (some pp)) true (some proof) (some ledgerId) (some tssVk) =
        true ↔
      ledgerId.length = ledgerIdLengthBytes ∧ tssVk.length = Hints.tssVerificationKeyLengthBytes ∧
        proof.length = uncompressedWrapsProofLengthBytes ∧
        verifyUncompressedWrapsProof C.serde P pp proof ledgerId tssVk = .ok true := by
  simp only [verifyUncompressedProof, Bool.true_and, Bool.and_eq_true, decide_eq_true_eq,
    catchUnwindBool_eq_true_iff, verifyUncompressedProofImpl, Option.join_some, okOr_some, ok_bind,
    orNull_ok_iff, and_assoc]

end Proving

section Verdict

variable {C} {N : Nova E} {P : ProofSerde N} {pp : N.PublicParams}

theorem elements_eq_iff {ledgerId : Bytes} {ledger' : RotationMessage E}
    (hledger' : decodeRotationMessage C.serde ledgerId = .ok ledger') (ledger : RotationMessage E) :
    ledger'.elements = ledger.elements ↔ C.rotationMessage.write ledger = ledgerId := by
  constructor
  · intro h
    obtain ⟨a, b⟩ := ledger
    obtain ⟨a', b'⟩ := ledger'
    cases h
    exact C.decode_rotationMessage_iff.mp (decodeRotationMessage_ok_iff.mp hledger')
  · intro h
    have hdecoded := decodeRotationMessage_ok_iff.mpr (C.decode_rotationMessage_iff.mpr h)
    rw [hledger'] at hdecoded
    cases hdecoded
    rfl

theorem verdict_iff {running compressed : Bytes} {numSteps : ℕ} {z0 zi : List E.Base}
    {snark : N.RecursiveSNARK} (hpair : ProofPair P pp running compressed numSteps z0 zi snark)
    (hlen : zi.length = 2) {vk : N.VerifierKey} (hvk : setupCompressedVerifier N pp = .ok vk)
    {ledger : RotationMessage E} (hz0 : ledger.elements = z0) (ledgerId tssVk : Bytes) :
    (verifyUncompressedWrapsProof C.serde P pp running ledgerId tssVk = .ok true ↔
      C.rotationMessage.write ledger = ledgerId ∧
        zi[1]? = some (computeHintsVkHash E tssVk)) ∧
    (verifyCompressedWrapsProof C.serde P vk compressed ledgerId tssVk = .ok true ↔
      C.rotationMessage.write ledger = ledgerId ∧
        zi[1]? = some (computeHintsVkHash E tssVk)) := by
  subst hz0
  by_cases hledger : ∃ ledger', decodeRotationMessage C.serde ledgerId = .ok ledger'
  · obtain ⟨ledger', hledger'⟩ := hledger
    obtain ⟨huncompressed, hcompressed⟩ :
        verifyUncompressedWrapsProof C.serde P pp running ledgerId tssVk = _ ∧
          verifyCompressedWrapsProof C.serde P vk compressed ledgerId tssVk = _ :=
      hpair.verdict hlen hledger' hvk
    rw [huncompressed, hcompressed, Except.ok.injEq, decide_eq_true_eq,
      elements_eq_iff hledger']
    exact ⟨Iff.rfl, Iff.rfl⟩
  · have hnot : ¬ C.rotationMessage.write ledger = ledgerId := by
      intro h
      exact hledger ⟨ledger, decodeRotationMessage_ok_iff.mpr (C.decode_rotationMessage_iff.mpr h)⟩
    constructor <;>
    · refine ⟨fun h ↦ ?_, fun h ↦ absurd h.1 hnot⟩
      obtain ⟨ledger', hledger', -⟩ := bind_ok_iff.mp h
      exact absurd ⟨ledger', hledger'⟩ hledger

theorem length_rotationMessage (message : RotationMessage E) :
    (C.rotationMessage.write message).length = ledgerIdLengthBytes :=
  C.rotationMessage_takes.length_write (C.rotationMessage_reads message)

/-- The bridge's check of the identifier's length follows from the check of the identifier. -/
theorem length_and_write_iff {message : RotationMessage E} {ledgerId : Bytes} {p q r : Prop} :
    (ledgerId.length = ledgerIdLengthBytes ∧ p ∧ q ∧ C.rotationMessage.write message = ledgerId ∧
      r) ↔ q ∧ p ∧ ledgerId = C.rotationMessage.write message ∧ r := by
  constructor
  · rintro ⟨-, hp, hq, rfl, hr⟩
    exact ⟨hq, hp, rfl, hr⟩
  · rintro ⟨hq, hp, rfl, hr⟩
    exact ⟨length_rotationMessage message, hp, hq, rfl, hr⟩

theorem elements_key_iff {ab : AddressBook E} {hintsVk tssVk : Bytes} :
    (Wraps.rotationMessage ab hintsVk).elements[1]? = some (computeHintsVkHash E tssVk) ↔
      computeHintsVkHash E tssVk = computeHintsVkHash E hintsVk := by
  change some (computeHintsVkHash E hintsVk) = some _ ↔ _
  rw [Option.some.injEq, eq_comm]

theorem hashAddressBook_of_valid {arrays : BookArrays} {ab : AddressBook E}
    (haccepts : arrays.accepts = true) (hab : C.buildAddressBook arrays = .ok ab)
    (hvalid : ValidBook ab) :
    C.hashAddressBook (some arrays.schnorrPublicKeys) (some arrays.weights)
      (some arrays.nodeIds) = some (C.base.write (Wraps.hashAddressBook (paddedBook ab))) := by
  have hnative : C.hashAddressBookImpl arrays =
      .ok (C.base.write (Wraps.hashAddressBook (paddedBook ab))) := by
    rw [hashAddressBookImpl, hab, ok_bind,
      orNull_ok_iff.mpr (computeAddressbookHash_ok_iff.mpr ⟨hvalid, rfl⟩)]
    rfl
  simp only [hashAddressBook, bookArrays, Option.bind_eq_bind, Option.bind_some]
  rw [if_pos haccepts]
  exact catchUnwind_eq_some_iff.mpr hnative

end Verdict

section History

variable {C} {G : Gadgets E} {P : ProofSerde (idealNova G)} {pp : (idealNova G).PublicParams}
  (hE : G.Enforcing) (hS : G.Serving) (hU : P.uncompressed.RoundTrips)
  (hC : P.compressed.RoundTrips)
include hE hS hU hC

variable (pp) in
theorem exists_genesis {h : Handover} {signature : Bytes} {call : Rotation E}
    (hcarried : C.Carried h signature call) (honto : h.next = C.prevArrays h) :
    ∃ running compressed,
      C.proveHandover P pp (C.base.write (Wraps.hashAddressBook (paddedBook call.prevAb))) none
        (h, signature) = some (some (running, compressed)) ∧
      Attained P pp (Wraps.hashAddressBook (paddedBook call.prevAb)) [call] running compressed
        call call := by
  have hsame : call.nextAb = call.prevAb := by
    have hnext := hcarried.next
    rw [honto, hcarried.prev] at hnext
    exact (Except.ok.inj hnext).symm
  obtain ⟨circuit, hcircuit⟩ := exists_rotationCircuit C.rotationMessage_roundTrips
    (Wraps.hashAddressBook (paddedBook call.prevAb)) true call hcarried.nextValid hcarried.signed
    fun _ ↦ ⟨rfl, congrArg (fun ab ↦ Wraps.hashAddressBook (paddedBook ab)) hsame⟩
  obtain ⟨running, compressed, hnative⟩ := construct_genesis_succeeds pp hE hS
    C.rotationMessage_roundTrips hU hC call hcircuit
  refine ⟨running, compressed, proveHandover_of_native hcarried ?_ hnative,
    attained_genesis hE hS C.rotationMessage_roundTrips hU hC hnative⟩
  rw [← honto]
  exact hcarried.nextAccepted

theorem exists_resume {abGenesisHash : E.Base} {calls : List (Rotation E)}
    {first last : Rotation E} {running compressed : Bytes}
    (hattained : Attained P pp abGenesisHash calls running compressed first last)
    {before h : Handover} {signature signature' : Bytes} {call : Rotation E}
    (hlast : C.Carried before signature last) (hcarried : C.Carried h signature' call)
    (hchained : C.prevArrays h = before.next) :
    ∃ running' compressed',
      C.proveHandover P pp (C.base.write abGenesisHash) (some (running, compressed))
        (h, signature') = some (some (running', compressed')) ∧
      Attained P pp abGenesisHash (calls ++ [call]) running' compressed' first call := by
  have hsame : call.prevAb = last.nextAb := by
    have hprev := hcarried.prev
    rw [hchained, hlast.next] at hprev
    exact (Except.ok.inj hprev).symm
  obtain ⟨circuit, hcircuit⟩ := exists_rotationCircuit C.rotationMessage_roundTrips
    abGenesisHash false call hcarried.nextValid hcarried.signed fun hfalse ↦ Bool.noConfusion hfalse
  obtain ⟨running', compressed', hnative⟩ := construct_resume_succeeds hE hS
    C.rotationMessage_roundTrips hU hC hattained call hcircuit
    (congrArg (fun ab ↦ Wraps.hashAddressBook (paddedBook ab)) hsame)
  refine ⟨running', compressed', proveHandover_of_native hcarried ?_ hnative,
    attained_resume hE hS C.rotationMessage_roundTrips hU hC hattained hnative⟩
  rw [hchained]
  exact hlast.nextAccepted

theorem exists_history {abGenesisHash : E.Base} {first : Rotation E} (rest : List Handover)
    {calls : List (Rotation E)} {last : Rotation E} {running compressed : Bytes}
    (hattained : Attained P pp abGenesisHash calls running compressed first last)
    {before : Handover} {signature : Bytes} (hlast : C.Carried before signature last)
    (hready : ∀ h ∈ rest, C.Ready h)
    (hchain : (before :: rest).IsChain fun a b ↦ C.prevArrays b = a.next) :
    ∃ signatures running' compressed' calls' last', List.Forall₂ C.SignedBy rest signatures ∧
      (rest.zip signatures).foldlM (C.proveHandover P pp (C.base.write abGenesisHash))
        (some (running, compressed)) = some (some (running', compressed')) ∧
      Attained P pp abGenesisHash calls' running' compressed' first last' ∧
      last'.hintsVk = (rest.getLastD before).tssVerificationKey := by
  induction rest generalizing before signature calls last running compressed with
  | nil =>
    exact ⟨[], running, compressed, calls, last, .nil, rfl, hattained, hlast.hintsVk⟩
  | cons h rest ih =>
    obtain ⟨hchained, hrest⟩ := List.isChain_cons_cons.mp hchain
    rw [List.forall_mem_cons] at hready
    obtain ⟨signature', call, hsigned, hcarried⟩ := exists_carried hready.1
    obtain ⟨running₁, compressed₁, hstep, hattained₁⟩ :=
      exists_resume hE hS hU hC hattained hlast hcarried hchained
    obtain ⟨signatures, running', compressed', calls', last', hsigned', hfold, hend, hvk⟩ :=
      ih hattained₁ hcarried hready.2 hrest
    refine ⟨signature' :: signatures, running', compressed', calls', last', .cons hsigned hsigned',
      ?_, hend, ?_⟩
    · rw [List.zip_cons_cons, List.foldlM_cons, hstep]
      exact hfold
    · rw [hvk, List.getLastD_cons]

end History

/-- A history has been held through the bridge: every step was signed and proved, and of all
identifiers and keys, the proofs at its end are accepted for those of the first network and the
last step. -/
structure Lived (C : GroupCodec E) {N : Nova E} (P : ProofSerde N) (pp : N.PublicParams)
    (first : Handover) (rest : List Handover) (genesisHash ledgerId : Bytes)
    (signatures : List Bytes) (running compressed : Bytes) : Prop where
  hash : C.hashAddressBook (some (C.prevArrays first).schnorrPublicKeys)
    (some (C.prevArrays first).weights) (some (C.prevArrays first).nodeIds) = some genesisHash
  identified : C.handoverMessage first = some ledgerId
  signed : List.Forall₂ C.SignedBy (first :: rest) signatures
  proved : ((first :: rest).zip signatures).foldlM (C.proveHandover P pp genesisHash) none =
    some (some (running, compressed))
  uncompressed_iff : ∀ ledgerId' tssVk, C.verifyUncompressedProof P (some (some pp)) true
      (some running) (some ledgerId') (some tssVk) = true ↔
    running.length = uncompressedWrapsProofLengthBytes ∧
      tssVk.length = Hints.tssVerificationKeyLengthBytes ∧ ledgerId' = ledgerId ∧
      computeHintsVkHash E tssVk = computeHintsVkHash E (rest.getLastD first).tssVerificationKey
  compressed_iff : ∀ vk, setupCompressedVerifier N pp = .ok vk → ∀ ledgerId' tssVk,
    C.verifyCompressedProof P (some (some vk)) true (some compressed) (some ledgerId')
        (some tssVk) = true ↔
      compressed.length = compressedWrapsProofLengthBytes ∧
        tssVk.length = Hints.tssVerificationKeyLengthBytes ∧ ledgerId' = ledgerId ∧
        computeHintsVkHash E tssVk = computeHintsVkHash E (rest.getLastD first).tssVerificationKey

theorem Lived.length_ledgerId {C : GroupCodec E} {N : Nova E} {P : ProofSerde N}
    {pp : N.PublicParams} {first : Handover} {rest : List Handover} {genesisHash ledgerId : Bytes}
    {signatures : List Bytes} {running compressed : Bytes}
    (h : C.Lived P pp first rest genesisHash ledgerId signatures running compressed) :
    ledgerId.length = ledgerIdLengthBytes := by
  obtain ⟨_, _, _, -, -, -, -, -, -, rfl⟩ := computeNetworkID_eq_some_iff.mp h.identified
  exact length_rotationMessage _

theorem exists_lived (C : GroupCodec E) {G : Gadgets E} (hE : G.Enforcing) (hS : G.Serving)
    {P : ProofSerde (idealNova G)} (hU : P.uncompressed.RoundTrips)
    (hC : P.compressed.RoundTrips) (pp : (idealNova G).PublicParams) {first : Handover}
    {rest : List Handover} (hready : ∀ h ∈ first :: rest, C.Ready h)
    (honto : first.next = C.prevArrays first)
    (hchain : (first :: rest).IsChain fun a b ↦ C.prevArrays b = a.next) :
    ∃ genesisHash ledgerId signatures running compressed,
      C.Lived P pp first rest genesisHash ledgerId signatures running compressed := by
  rw [List.forall_mem_cons] at hready
  obtain ⟨signature, call, hsigned, hcarried⟩ := exists_carried hready.1
  obtain ⟨running₁, compressed₁, hstep, hattained₁⟩ :=
    exists_genesis pp hE hS hU hC hcarried honto
  obtain ⟨signatures, running, compressed, calls, last, hsigned', hfold, hattained, hvk⟩ :=
    exists_history hE hS hU hC rest hattained₁ hcarried hready.2 hchain
  obtain ⟨snark, hpair⟩ := hattained.proofs
  have hhash := hashAddressBook_of_valid (honto ▸ hcarried.nextAccepted) hcarried.prev
    hcarried.signed.valid
  have hledger := hcarried.handoverMessage
  rw [Wraps.rotationMessage, hattained₁.nextGenesis] at hledger
  have hends (vk : (idealNova G).VerifierKey) (hsetup : setupCompressedVerifier _ pp = .ok vk)
      (ledgerId' tssVk : Bytes) := verdict_iff (C := C) hpair rfl hsetup
    (show RotationMessage.elements ⟨_, _⟩ = _ from rfl) ledgerId' tssVk
  refine ⟨_, _, signature :: signatures, running, compressed, hhash, hledger,
    .cons hsigned hsigned', ?_, fun ledgerId' tssVk ↦ ?_, fun vk hsetup ledgerId' tssVk ↦ ?_⟩
  · rw [List.zip_cons_cons, List.foldlM_cons, hstep]
    exact hfold
  · rw [verifyUncompressedProof_eq_true_iff, (hends () rfl ledgerId' tssVk).1, elements_key_iff,
      hvk]
    exact length_and_write_iff
  · rw [verifyCompressedProof_eq_true_iff, (hends vk hsetup ledgerId' tssVk).2, elements_key_iff,
      hvk]
    exact length_and_write_iff

theorem rightUnique_signedBy (C : GroupCodec E) : Relator.RightUnique C.SignedBy := by
  rintro h signature signature' ⟨message, r1, r2, r3, hmessage, hr1, hr2, hr3, hagg⟩
    ⟨message', r1', r2', r3', hmessage', hr1', hr2', hr3', hagg'⟩
  have hsent (call : Member → Option Bytes) :
      Relator.RightUnique fun m sent ↦ call m = some sent :=
    fun _ _ _ hsent hsent' ↦ Option.some.inj (hsent.symm.trans hsent')
  obtain rfl := Option.some.inj (hmessage.symm.trans hmessage')
  obtain rfl := (hsent _).forall₂ hr1 hr1'
  obtain rfl := (hsent _).forall₂ hr2 hr2'
  obtain rfl := (hsent _).forall₂ hr3 hr3'
  exact Option.some.inj (hagg.symm.trans hagg')

/-- Whatever length the bridge asks of a compressed proof, there is a format in which the proof at
the end of a history has it. -/
theorem exists_format_of_length (C : GroupCodec E) {G : Gadgets E} (hE : G.Enforcing)
    (hS : G.Serving) {P : ProofSerde (idealNova G)} (hU : P.uncompressed.RoundTrips)
    (hC : P.compressed.RoundTrips) (pp : (idealNova G).PublicParams) {first : Handover}
    {rest : List Handover} (hready : ∀ h ∈ first :: rest, C.Ready h)
    (honto : first.next = C.prevArrays first)
    (hchain : (first :: rest).IsChain fun a b ↦ C.prevArrays b = a.next) (length : ℕ) :
    ∃ T : Bincode (CompressedWrapsProof (idealNova G)), T.RoundTrips ∧
      ∀ genesisHash signatures running compressed,
        C.hashAddressBook (some (C.prevArrays first).schnorrPublicKeys)
          (some (C.prevArrays first).weights) (some (C.prevArrays first).nodeIds) =
            some genesisHash →
        List.Forall₂ C.SignedBy (first :: rest) signatures →
        ((first :: rest).zip signatures).foldlM
          (C.proveHandover ⟨P.uncompressed, T⟩ pp genesisHash) none =
            some (some (running, compressed)) → compressed.length = length := by
  classical
  obtain ⟨genesisHash, ledgerId, signatures, running, compressed, hlived⟩ :=
    exists_lived C hE hS hU hC pp hready honto hchain
  have hne : (first :: rest).zip signatures ≠ [] := by
    obtain ⟨_, _, -, -, rfl⟩ := List.forall₂_cons_left_iff.mp hlived.signed
    exact List.cons_ne_nil _ _
  obtain ⟨value, hvalue⟩ := foldlM_recompressed hC hne hlived.proved
  refine ⟨P.compressed.placing value (List.replicate length 0), Bincode.placing_roundTrips hC _ _,
    fun genesisHash' signatures' running' compressed' hhash hsigned hproved ↦ ?_⟩
  -- both histories start from one hash and carry one list of signatures
  obtain rfl := Option.some.inj (hlived.hash.symm.trans hhash)
  obtain rfl := (rightUnique_signedBy C).forall₂ hlived.signed hsigned
  have hsame := (hvalue _ (List.replicate length 0) none (Bincode.placing_roundTrips hC _ _)
    (by simp [encode, Bincode.placing]) rfl).symm.trans hproved
  cases hsame
  exact List.length_replicate

/-- The life of a network, held through the bridge by honest signers, over a proof library that is
ideal. From a genesis step of the first book onto itself on, every handover is signed and proved,
however many there are; and of all identifiers and keys, the two proofs at the end are accepted for
the identifier of the first network and the last key, if their lengths are those the bridge asks
for. -/
theorem network_lives_through_bridge (C : GroupCodec E) {G : Gadgets E} (hE : G.Enforcing)
    (hS : G.Serving) {P : ProofSerde (idealNova G)} (hU : P.uncompressed.RoundTrips)
    (hC : P.compressed.RoundTrips) (pp : (idealNova G).PublicParams) (first : Handover)
    (rest : List Handover) (hready : ∀ h ∈ first :: rest, C.Ready h)
    (honto : first.next = C.prevArrays first)
    (hchain : (first :: rest).IsChain fun a b ↦ C.prevArrays b = a.next) :
    ∃ genesisHash ledgerId signatures running compressed,
      C.hashAddressBook (some (C.prevArrays first).schnorrPublicKeys)
        (some (C.prevArrays first).weights) (some (C.prevArrays first).nodeIds) =
          some genesisHash ∧
      C.handoverMessage first = some ledgerId ∧
      List.Forall₂ C.SignedBy (first :: rest) signatures ∧
      ((first :: rest).zip signatures).foldlM (C.proveHandover P pp genesisHash) none =
        some (some (running, compressed)) ∧
      ∀ vk, setupCompressedVerifier (idealNova G) pp = .ok vk → ∀ ledgerId' tssVk,
        (C.verifyUncompressedProof P (some (some pp)) true (some running) (some ledgerId')
            (some tssVk) = true ↔
          running.length = uncompressedWrapsProofLengthBytes ∧
            tssVk.length = Hints.tssVerificationKeyLengthBytes ∧ ledgerId' = ledgerId ∧
            computeHintsVkHash E tssVk =
              computeHintsVkHash E (rest.getLastD first).tssVerificationKey) ∧
        (C.verifyCompressedProof P (some (some vk)) true (some compressed) (some ledgerId')
            (some tssVk) = true ↔
          compressed.length = compressedWrapsProofLengthBytes ∧
            tssVk.length = Hints.tssVerificationKeyLengthBytes ∧ ledgerId' = ledgerId ∧
            computeHintsVkHash E tssVk =
              computeHintsVkHash E (rest.getLastD first).tssVerificationKey) := by
  obtain ⟨genesisHash, ledgerId, signatures, running, compressed, h⟩ :=
    exists_lived C hE hS hU hC pp hready honto hchain
  exact ⟨genesisHash, ledgerId, signatures, running, compressed, h.hash, h.identified, h.signed,
    h.proved, fun vk hvk ledgerId' tssVk ↦
      ⟨h.uncompressed_iff ledgerId' tssVk, h.compressed_iff vk hvk ledgerId' tssVk⟩⟩

def pairHandover (tssVk : Bytes) : Handover :=
  ⟨pairMembers, zeroCodec.committeeArrays pairMembers, tssVk⟩

theorem pairHandover_ready {tssVk : Bytes} (h : tssVk ≠ []) :
    zeroCodec.Ready (pairHandover tssVk) := by
  have hmajority : (pairMembers.map Member.heldWeight).sum <
      2 * ((pairMembers.filter Member.signs).map Member.heldWeight).sum := by decide
  refine ⟨pairCommittee, pairMembers_joint, hmajority, List.cons_ne_nil _ _, ?_⟩
  have haccepts : (zeroCodec.committeeArrays pairMembers).accepts = true := by
    rw [BookArrays.accepts, zeroCodec.validateSchnorrPublicKeys_committee]
    rfl
  exact Option.isSome_iff_exists.mpr ⟨_, computeNetworkID_eq_some_iff.mpr
    ⟨_, tssVk, _, rfl, rfl, haccepts, h, zeroCodec.buildAddressBook_committee pairCommittee,
      pairCommittee.validBook, rfl⟩⟩

def zeroDecoder : PointDecoder zeroLine where
  decodePoint values := values.headD (0 : ZMod lineModulus)
  decode_encode _ := rfl

def pairProofSerde (T : Bincode (WrapsProof zeroLine (IdealProof zeroLine))) :
    ProofSerde (idealNova (directGadgets zeroDecoder)) where
  uncompressed := .ofEncodable (WrapsProof zeroLine (IdealProof zeroLine))
  compressed := T

theorem pairProofSerde_roundTrips (T : Bincode (WrapsProof zeroLine (IdealProof zeroLine))) :
    (pairProofSerde T).uncompressed.RoundTrips :=
  Bincode.ofEncodable_roundTrips (WrapsProof zeroLine (IdealProof zeroLine))

theorem pairHandovers_ready {tssVk : Bytes} (h : tssVk ≠ []) :
    ∀ step ∈ [pairHandover [1], pairHandover tssVk], zeroCodec.Ready step :=
  List.forall_mem_cons.mpr ⟨pairHandover_ready (by decide),
    List.forall_mem_singleton.mpr (pairHandover_ready h)⟩

theorem pairHandovers_chain (tssVk : Bytes) : [pairHandover [1], pairHandover tssVk].IsChain
    fun a b ↦ zeroCodec.prevArrays b = a.next := .cons_cons rfl (.singleton _)

theorem exists_pair_format {tssVk : Bytes} (h : tssVk ≠ []) :
    ∃ T : Bincode (WrapsProof zeroLine (IdealProof zeroLine)), T.RoundTrips ∧
      ∀ genesisHash signatures running compressed,
        zeroCodec.hashAddressBook (some (zeroCodec.committeeArrays pairMembers).schnorrPublicKeys)
          (some (zeroCodec.committeeArrays pairMembers).weights)
          (some (zeroCodec.committeeArrays pairMembers).nodeIds) = some genesisHash →
        List.Forall₂ zeroCodec.SignedBy [pairHandover [1], pairHandover tssVk] signatures →
        ([pairHandover [1], pairHandover tssVk].zip signatures).foldlM
          (zeroCodec.proveHandover (pairProofSerde T) () genesisHash) none =
            some (some (running, compressed)) →
        compressed.length = compressedWrapsProofLengthBytes :=
  have hP := Bincode.ofEncodable_roundTrips (WrapsProof zeroLine (IdealProof zeroLine))
  exists_format_of_length zeroCodec (directGadgets_enforcing zeroDecoder)
    (directGadgets_serving zeroDecoder) (P := codeProofSerde (directGadgets zeroDecoder)) hP hP ()
    (pairHandovers_ready h) rfl (pairHandovers_chain tssVk) compressedWrapsProofLengthBytes

/-- Two steps, in a format in which the proof at their end has the length the bridge asks for. -/
theorem network_lives_through_bridge_pair :
    ∃ T genesisHash ledgerId signatures running compressed,
      zeroCodec.handoverMessage (pairHandover [1]) = some ledgerId ∧
      ([pairHandover [1], pairHandover (List.replicate 1096 7)].zip signatures).foldlM
        (zeroCodec.proveHandover (pairProofSerde T) () genesisHash) none =
          some (some (running, compressed)) ∧
      zeroCodec.verifyCompressedProof (pairProofSerde T) (some (some ())) true (some compressed)
        (some ledgerId) (some (List.replicate 1096 7)) = true := by
  have hne : (List.replicate 1096 7 : Bytes) ≠ [] := List.cons_ne_nil _ _
  obtain ⟨T, hT, hlength⟩ := exists_pair_format hne
  obtain ⟨genesisHash, ledgerId, signatures, running, compressed, hhash, hledger, hsigned, hfold,
    hverdict⟩ := network_lives_through_bridge zeroCodec (directGadgets_enforcing zeroDecoder)
      (directGadgets_serving zeroDecoder) (pairProofSerde_roundTrips T) hT () _ _
      (pairHandovers_ready hne) rfl (pairHandovers_chain _)
  exact ⟨T, genesisHash, ledgerId, signatures, running, compressed, hledger, hfold,
    (hverdict () rfl ledgerId _).2.mpr ⟨hlength _ _ _ _ hhash hsigned hfold,
      List.length_replicate, rfl, rfl⟩⟩

end GroupCodec

end HieroCryptography.Wraps
