import HieroCryptography.Security.Nodes

namespace HieroCryptography.Security

open Rust Foundation

structure SignatureAlgorithm where
  signatureAlgorithm : String
  oid : List UInt8
  needsNullParam : Bool

def SignatureAlgorithm.emit (algorithm : SignatureAlgorithm) : Nodes :=
  .leaf (.put DerWriter.tagObjectId algorithm.oid)
    (if algorithm.needsNullParam then .leaf .putNull .nil else .nil)

/-- The names, the interval and the extensions are given by what they emit, and the public key by
the item it is encoded as. -/
structure X509CertificateInfo where
  distinguishedName : Nodes
  publicKey : Item
  caDistinguishedName : Nodes
  serialNumber : ℤ
  validityInterval : Nodes
  signatureAlgorithm : SignatureAlgorithm
  extensions : Option Nodes

namespace X509CertificateInfo

def extensionsTag : UInt8 := 0xa3

example : DerWriter.createTag DerWriter.tagContext true 3 = .ok extensionsTag := rfl

def version3 : UInt8 := 2

def emit (info : X509CertificateInfo) : Nodes :=
  .box DerWriter.tagTbsCertificate (.leaf (.putByteInteger version3) .nil) <|
  .leaf (.putInteger info.serialNumber) <|
  .box DerWriter.tagSequence info.signatureAlgorithm.emit <|
  .box DerWriter.tagSequence info.caDistinguishedName <|
  .box DerWriter.tagSequence info.validityInterval <|
  .box DerWriter.tagSequence info.distinguishedName <|
  .leaf (.writeBytes info.publicKey) <|
  match info.extensions with
  | none => .nil
  | some extensions => .box extensionsTag (.box DerWriter.tagSequence extensions .nil) .nil

def encoder (info : X509CertificateInfo) : DerEncoder :=
  ⟨some DerWriter.tagSequence, info.emit.emission⟩

end X509CertificateInfo

structure SignedX509Certificate where
  rawCert : List UInt8
  signatureAlgorithm : SignatureAlgorithm
  signature : List UInt8

namespace SignedX509Certificate

def emit (cert : SignedX509Certificate) : Emission :=
  .write (.bytes cert.rawCert) <|
  .encode DerWriter.tagSequence cert.signatureAlgorithm.emit.emission <|
  Emission.ofWrites (DerWriter.putBitString cert.signature)

def encoder (cert : SignedX509Certificate) : DerEncoder :=
  ⟨some DerWriter.tagSequence, cert.emit⟩

end SignedX509Certificate

/-- `X509CertificateSigner.sign`, up to the bytes of the certificate. The signer, which is given the
name of the algorithm, may throw. -/
def sign (signer : String → List UInt8 → Except String (List UInt8)) (info : X509CertificateInfo) :
    Outcome String (List UInt8) := do
  let os ← info.encoder.encode .new
  let rawCert := os.toByteArray
  let signature ← (signer info.signatureAlgorithm.signatureAlgorithm rawCert).mapError Abort.err
  let os ← SignedX509Certificate.encoder ⟨rawCert, info.signatureAlgorithm, signature⟩
    |>.encode os.reset
  .ok os.toByteArray

section Signed

variable (info : X509CertificateInfo) (signature : List UInt8)

def X509CertificateInfo.tbsCertificate : Item := ⟨DerWriter.tagSequence, info.emit.bytes⟩

def X509CertificateInfo.signed : Nodes :=
  .leaf (.writeBytes info.tbsCertificate) <|
  .box DerWriter.tagSequence info.signatureAlgorithm.emit <|
  .leaf (.putBitString signature) .nil

theorem Emission.append_done (e : Emission) : e.append .done = e := by
  induction e with
  | done => rfl
  | write call next ih => rw [append, ih]
  | encode tag body next _ ih => rw [append, ih]

theorem emission_signed : (info.signed signature).emission = SignedX509Certificate.emit
    ⟨info.tbsCertificate.encoding, info.signatureAlgorithm, signature⟩ := by
  change Emission.write _ (Emission.encode _ _ ((Emission.ofWrites _).append .done)) = _
  rw [Emission.append_done]
  rfl

variable {info signature}

theorem length_tbsCertificate_lt
    (hsize : (Item.mk DerWriter.tagSequence (info.signed signature).bytes).encoding.length <
      2 ^ 31) : info.tbsCertificate.encoding.length < 2 ^ 31 :=
  calc info.tbsCertificate.encoding.length
    _ ≤ (info.signed signature).bytes.length := length_encoding_le_of_mem List.mem_cons_self
    _ < _ := Item.length_content_lt ⟨DerWriter.tagSequence, _⟩
    _ < 2 ^ 31 := hsize

theorem lowTags_signed (h : info.emit.LowTags) : (info.signed signature).LowTags := by
  have hbits : lowTag DerWriter.tagBitString = true := by decide
  exact ⟨lowTag_sequence, lowTag_sequence, h.2.2.2.2.1, hbits, trivial⟩

/-- The stream that the certificate was encoded with is used again after a reset. -/
theorem sign_eq {signer : String → List UInt8 → Except String (List UInt8)}
    (hsigner : signer info.signatureAlgorithm.signatureAlgorithm info.tbsCertificate.encoding =
      .ok signature)
    (hsize : (Item.mk DerWriter.tagSequence (info.signed signature).bytes).encoding.length <
      2 ^ 31) :
    sign signer info =
      .ok (Item.mk DerWriter.tagSequence (info.signed signature).bytes).encoding := by
  have hsigned := Nodes.reference_boxed _ hsize
  have htbs := length_tbsCertificate_lt hsize
  have hraw : info.encoder.reference = info.tbsCertificate.encoding := Nodes.reference_boxed _ htbs
  rw [← hraw] at htbs
  obtain ⟨lengths, hok, hlengths⟩ := info.encoder.encode_writing htbs DerOutputStream.level_new
  have hencode : info.encoder.encode .new =
      .ok ⟨info.tbsCertificate.encoding, lengths, -1⟩ := hraw ▸ hok
  have hreset : DerOutputStream.Level ⟨[], lengths, -1⟩ 0 := level_zero rfl hlengths
  rw [emission_signed] at hsigned
  rw [← hsigned] at hsize ⊢
  obtain ⟨lengths', hok', -⟩ := DerEncoder.encode_writing _ hsize hreset
  simp only [sign, hencode, ok_bind, DerOutputStream.toByteArray, DerOutputStream.reset, hsigner,
    Except.mapError, SignedX509Certificate.encoder, hok', List.nil_append]

end Signed

/-- The bytes of a tree of boxes and items can be read back: at every box of every depth they are
cut into the items that were emitted. So trees that differ have different bytes, and a signed
certificate is cut into what was signed, the algorithm and the signature. -/
theorem certificates_uniquely_decodable :
    (∀ (tag : UInt8) (body : Nodes), lowTag tag = true → body.LowTags →
      (Item.mk tag body.bytes).encoding.length < 2 ^ 31 →
      ∃ out, (DerEncoder.mk (some tag) body.emission).toByteArray = .ok out ∧
        readItem out = some (⟨tag, body.bytes⟩, []) ∧
        ∀ b ∈ body :: body.bodies, splitItems b.bytes = some b.items) ∧
    (∀ (tag tag' : UInt8) (body body' : Nodes), lowTag tag = true → lowTag tag' = true →
      body.LowTags → body'.LowTags → (Item.mk tag body.bytes).encoding.length < 2 ^ 31 →
      (Item.mk tag' body'.bytes).encoding.length < 2 ^ 31 → body.Aligned body' →
      (DerEncoder.mk (some tag) body.emission).toByteArray =
        (DerEncoder.mk (some tag') body'.emission).toByteArray → tag = tag' ∧ body.Same body') ∧
    ∀ (signer : String → List UInt8 → Except String (List UInt8)) (info : X509CertificateInfo)
      (signature : List UInt8), info.emit.LowTags →
      signer info.signatureAlgorithm.signatureAlgorithm info.tbsCertificate.encoding =
        .ok signature →
      (Item.mk DerWriter.tagSequence (info.signed signature).bytes).encoding.length < 2 ^ 31 →
      ∃ out body, sign signer info = .ok out ∧
        readItem out = some (⟨DerWriter.tagSequence, body⟩, []) ∧
        splitItems body = some [info.tbsCertificate,
          ⟨DerWriter.tagSequence, info.signatureAlgorithm.emit.bytes⟩,
          ⟨DerWriter.tagBitString, 0 :: signature⟩] ∧
        splitItems info.emit.bytes = some info.emit.items := by
  refine ⟨?_, ?_, ?_⟩
  · intro tag body htag htags hsize
    have hcontent : body.bytes.length < _ := (Item.mk tag body.bytes).length_content_lt
    refine ⟨_, Nodes.toByteArray_boxed tag hsize, readItem_encoding htag (hcontent.trans hsize), ?_⟩
    rw [List.forall_mem_cons]
    refine ⟨Nodes.splitItems_bytes htags (hcontent.trans hsize), fun b hb ↦ ?_⟩
    obtain ⟨htags', hlt⟩ := Nodes.of_mem_bodies htags hb
    exact Nodes.splitItems_bytes htags' (by omega)
  · intro tag tag' body body' htag htag' htags htags' hsize hsize' haligned heq
    have hcontent := (Item.mk tag body.bytes).length_content_lt.trans hsize
    have hcontent' := (Item.mk tag' body'.bytes).length_content_lt.trans hsize'
    rw [Nodes.toByteArray_boxed tag hsize, Nodes.toByteArray_boxed tag' hsize',
      Except.ok.injEq] at heq
    obtain ⟨htags_eq, hbytes⟩ := Item.mk.inj (eq_of_encoding_eq htag htag' hcontent hcontent' heq)
    exact ⟨htags_eq, .of_bytes_eq haligned htags htags' hcontent hbytes⟩
  · intro signer info signature htags hsigner hsize
    have hbody : (info.signed signature).bytes.length < 2 ^ 31 :=
      (Item.length_content_lt ⟨DerWriter.tagSequence, _⟩).trans hsize
    have htbs : info.emit.bytes.length < 2 ^ 31 :=
      info.tbsCertificate.length_content_lt.trans (length_tbsCertificate_lt hsize)
    exact ⟨_, _, sign_eq hsigner hsize, readItem_encoding lowTag_sequence hbody,
      Nodes.splitItems_bytes (lowTags_signed htags) hbody, Nodes.splitItems_bytes htags htbs⟩

def smallInfo : X509CertificateInfo where
  distinguishedName := .nil
  publicKey := ⟨DerWriter.tagSequence, [7]⟩
  caDistinguishedName := .nil
  serialNumber := 128
  validityInterval := .nil
  signatureAlgorithm := ⟨"Ed25519", [0x2b, 0x65, 0x70], false⟩
  extensions := some .nil

theorem certificates_uniquely_decodable_small :
    ∃ out body, sign (fun _ _ ↦ .ok [1, 2]) smallInfo = .ok out ∧
      readItem out = some (⟨DerWriter.tagSequence, body⟩, []) ∧
      splitItems body = some [smallInfo.tbsCertificate,
        ⟨DerWriter.tagSequence, [0x06, 0x03, 0x2b, 0x65, 0x70]⟩,
        ⟨DerWriter.tagBitString, [0, 1, 2]⟩] := by
  obtain ⟨out, body, hsign, hread, hsplit, -⟩ := certificates_uniquely_decodable.2.2
    (fun _ _ ↦ .ok [1, 2]) smallInfo [1, 2]
    ⟨rfl, ⟨rfl, trivial⟩, rfl, rfl, ⟨rfl, trivial⟩, rfl, trivial, rfl, trivial, rfl, trivial, rfl,
      rfl, ⟨rfl, trivial, trivial⟩, trivial⟩ rfl (by decide +kernel)
  exact ⟨out, body, hsign, hread, hsplit⟩

end HieroCryptography.Security
