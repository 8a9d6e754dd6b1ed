import HieroCryptography.Rust.Collections
import HieroCryptography.Foundation.PairingGroups
import HieroCryptography.Hints.Eip2537

namespace HieroCryptography.Hints

open Rust Foundation

variable {p : ℕ} {F : Type} [Field F]

section Model

structure BlstGroup (p : ℕ) extends Blst p where
  P1 : Type
  p1FromAffine : P1Affine p → P1
  p1Cneg : P1 → Bool → P1
  p1AddOrDouble : P1 → P1 → P1
  p1IsInf : P1 → Bool
  p1ToAffine : P1 → P1Affine p
  coreVerifyPkInG1 : (pk : P1Affine p) → (signature : P2Affine p) → (hash : Bool) →
    (msg dst aug : Bytes) → Bool

variable (B : BlstGroup p)

def ethereumDst : Bytes := ascii "BLS_SIG_BLS12381G2_XMD:SHA-256_SSWU_RO_POP_"

def verifySigners (signers : B.P1) (message : Bytes) (signature : P2Affine p) : Bool :=
  if B.p1IsInf signers then false
  else B.coreVerifyPkInG1 (B.p1ToAffine signers) signature true message ethereumDst []

def subtractNonSigner (signers : B.P1) (encoded : Bytes) : Outcome Unit B.P1 := do
  let nonSigner ← g1FromEip2537 B.toBlst encoded
  .ok (B.p1AddOrDouble signers (B.p1Cneg (B.p1FromAffine nonSigner) true))

def verifySyncAggregate (aggregatePublicKey : Bytes) (nonSignerPublicKeys : List Bytes)
    (message signature : Bytes) : Outcome Empty Bool :=
  orFalse do
    let aggregatePublicKey ← g1FromEip2537 B.toBlst aggregatePublicKey
    let signature ← g2FromEip2537 B.toBlst signature
    let signers ← nonSignerPublicKeys.foldlM (subtractNonSigner B)
      (B.p1FromAffine aggregatePublicKey)
    .ok (verifySigners B signers message signature)

end Model

/-- What blst computes. A projective point may represent an element of the group in many ways;
on those that do, the functions are the operations of the group, and the signature check is
the pairing equation. -/
structure BlstGroup.Computes (B : BlstGroup p) (OnCurve1 : P1Affine p → Prop)
    (OnCurve2 : P2Affine p → Prop) (E : PairingGroups F) where
  documented : B.toBlst.Documented OnCurve1 OnCurve2
  point1 : P1Affine p → E.G1
  point2 : P2Affine p → E.G2
  hashToG2 : (dst msg : Bytes) → E.G2
  Represents : B.P1 → E.G1 → Prop
  fromAffine : ∀ P, B.ValidG1 OnCurve1 P → Represents (B.p1FromAffine P) (point1 P)
  cneg : ∀ a x, Represents a x → Represents (B.p1Cneg a true) (-x)
  addOrDouble : ∀ a x b y, Represents a x → Represents b y →
    Represents (B.p1AddOrDouble a b) (x + y)
  isInf_iff : ∀ a x, Represents a x → (B.p1IsInf a = true ↔ x = 0)
  toAffine : ∀ a x, Represents a x → x ≠ 0 →
    B.ValidG1 OnCurve1 (B.p1ToAffine a) ∧ point1 (B.p1ToAffine a) = x
  coreVerify_iff : ∀ pk signature msg dst, B.ValidG1 OnCurve1 pk → B.ValidG2 OnCurve2 signature →
    (B.coreVerifyPkInG1 pk signature true msg dst [] = true ↔
      E.pairing (point1 pk) (hashToG2 dst msg) = E.pairing E.g (point2 signature))

namespace BlstGroup.Computes

variable {B : BlstGroup p} {OnCurve1 : P1Affine p → Prop} {OnCurve2 : P2Affine p → Prop}
  {E : PairingGroups F} (C : B.Computes OnCurve1 OnCurve2 E)

def keySum (keys : List (P1Affine p)) : E.G1 := (keys.map C.point1).sum

theorem keySum_cons (key : P1Affine p) (keys : List (P1Affine p)) :
    C.keySum (key :: keys) = C.point1 key + C.keySum keys := List.sum_cons

theorem keySum_append (keys keys' : List (P1Affine p)) :
    C.keySum (keys ++ keys') = C.keySum keys + C.keySum keys' := by
  rw [keySum, List.map_append, List.sum_append, keySum, keySum]

theorem keySum_perm {keys keys' : List (P1Affine p)} (h : keys.Perm keys') :
    C.keySum keys = C.keySum keys' := (h.map C.point1).sum_eq

theorem exists_aggregate {keys : List (P1Affine p)} (hkeys : ∀ key ∈ keys, B.ValidG1 OnCurve1 key)
    (hsum : C.keySum keys ≠ 0) :
    ∃ aggregate, B.ValidG1 OnCurve1 aggregate ∧ C.point1 aggregate = C.keySum keys := by
  have hrepresents : keys ≠ [] → ∃ a, C.Represents a (C.keySum keys) := by
    clear hsum
    induction keys with
    | nil => exact fun h ↦ absurd rfl h
    | cons key keys ih =>
      intro _
      rw [List.forall_mem_cons] at hkeys
      have hkey := C.fromAffine key hkeys.1
      cases keys with
      | nil => exact ⟨_, by rwa [keySum_cons, keySum, List.map_nil, List.sum_nil, add_zero]⟩
      | cons key' keys =>
        obtain ⟨a, ha⟩ := ih hkeys.2 (List.cons_ne_nil _ _)
        exact ⟨_, C.keySum_cons key _ ▸ C.addOrDouble _ _ _ _ hkey ha⟩
  obtain ⟨a, ha⟩ := hrepresents fun h ↦ hsum (by rw [h]; rfl)
  exact ⟨_, C.toAffine a _ ha hsum⟩

theorem foldlM_subtractNonSigner {nonSigners : List (P1Affine p)}
    (hvalid : ∀ key ∈ nonSigners, B.ValidG1 OnCurve1 key) {signers : B.P1} {x : E.G1}
    (h : C.Represents signers x) :
    ∃ rest, (nonSigners.map g1ToEip2537).foldlM (subtractNonSigner B) signers = .ok rest ∧
      C.Represents rest (x - C.keySum nonSigners) := by
  induction nonSigners generalizing signers x with
  | nil => exact ⟨signers, rfl, by simpa [keySum] using h⟩
  | cons key nonSigners ih =>
    rw [List.forall_mem_cons] at hvalid
    have hdecode := (g1FromEip2537_ok_iff C.documented).mpr ⟨hvalid.1, rfl⟩
    have hstep := C.addOrDouble _ _ _ _ h (C.cneg _ _ (C.fromAffine key hvalid.1))
    obtain ⟨rest, hrest, hrepresents⟩ := ih hvalid.2 hstep
    refine ⟨rest, ?_, ?_⟩
    · rw [List.map_cons, List.foldlM_cons, subtractNonSigner, hdecode]
      exact hrest
    · rwa [keySum_cons, ← sub_sub, sub_eq_add_neg x]

theorem verifySigners_iff {signers : B.P1} {x : E.G1} (h : C.Represents signers x)
    {message : Bytes} {signature : P2Affine p} (hsignature : B.ValidG2 OnCurve2 signature) :
    verifySigners B signers message signature = true ↔ x ≠ 0 ∧
      E.pairing x (C.hashToG2 ethereumDst message) = E.pairing E.g (C.point2 signature) := by
  unfold verifySigners
  split
  next hinf => simp [(C.isInf_iff _ _ h).mp hinf]
  next hinf =>
    have hx : x ≠ 0 := fun h0 ↦ hinf ((C.isInf_iff _ _ h).mpr h0)
    obtain ⟨hvalid, hpoint⟩ := C.toAffine _ _ h hx
    rw [C.coreVerify_iff _ _ _ _ hvalid hsignature, hpoint]
    exact (and_iff_right hx).symm

end BlstGroup.Computes

variable {B : BlstGroup p} {OnCurve1 : P1Affine p → Prop} {OnCurve2 : P2Affine p → Prop}

theorem g1FromEip2537_ne_unwind (encoded : Bytes) : g1FromEip2537 B.toBlst encoded ≠ unwind :=
  pointFromEip2537_ne_unwind (fun i ↦ (mem_g1Order i).mp) (List.cons_ne_nil _ _)

theorem g2FromEip2537_ne_unwind (encoded : Bytes) : g2FromEip2537 B.toBlst encoded ≠ unwind :=
  pointFromEip2537_ne_unwind (fun i ↦ (mem_g2Order i).mp) (List.cons_ne_nil _ _)

theorem forall_decodes_of_foldlM {encodings : List Bytes} {signers rest : B.P1}
    (h : encodings.foldlM (subtractNonSigner B) signers = .ok rest) :
    ∀ encoded ∈ encodings, ∃ P, g1FromEip2537 B.toBlst encoded = .ok P := by
  induction encodings generalizing signers with
  | nil => exact nofun
  | cons encoded encodings ih =>
    rw [List.foldlM_cons] at h
    obtain ⟨signers', hstep, hrest⟩ := bind_ok_iff.mp h
    obtain ⟨P, hP, -⟩ := bind_ok_iff.mp hstep
    exact List.forall_mem_cons.mpr ⟨⟨P, hP⟩, ih hrest⟩

theorem foldlM_subtractNonSigner_ne_unwind (encodings : List Bytes) (signers : B.P1) :
    encodings.foldlM (subtractNonSigner B) signers ≠ unwind :=
  foldlM_ne_unwind fun _ encoded _ ↦
    bind_ne_unwind (g1FromEip2537_ne_unwind encoded) fun _ _ ↦ nofun

theorem exists_verifySyncAggregate_ok (B : BlstGroup p) (aggregate : Bytes)
    (nonSigners : List Bytes) (message signature : Bytes) :
    ∃ b, verifySyncAggregate B aggregate nonSigners message signature = .ok b := by
  apply exists_orFalse_ok
  refine bind_ne_unwind (g1FromEip2537_ne_unwind _) fun _ _ ↦ ?_
  refine bind_ne_unwind (g2FromEip2537_ne_unwind _) fun _ _ ↦ ?_
  exact bind_ne_unwind (foldlM_subtractNonSigner_ne_unwind _ _) fun _ _ ↦ nofun

theorem verifySyncAggregate_ok_true_iff {aggregate message signature : Bytes}
    {nonSigners : List Bytes} :
    verifySyncAggregate B aggregate nonSigners message signature = .ok true ↔
      ∃ P, g1FromEip2537 B.toBlst aggregate = .ok P ∧
      ∃ σ, g2FromEip2537 B.toBlst signature = .ok σ ∧
      ∃ rest, nonSigners.foldlM (subtractNonSigner B) (B.p1FromAffine P) = .ok rest ∧
        verifySigners B rest message σ = true := by
  rw [verifySyncAggregate, orFalse_ok_true_iff]
  simp only [bind_ok_iff, Except.ok.injEq]

theorem g1FromEip2537_zeros (P : P1Affine p) :
    g1FromEip2537 B.toBlst (List.replicate 128 0) ≠ .ok P := by
  have hfail : eip2537ToZcash (List.replicate 128 0) [0, 1] = fail () := by
    have hzeros : (List.replicate 128 (0 : UInt8)).all (· == 0) = true := by decide
    rw [eip2537ToZcash, hzeros, Bool.or_true]
    rfl
  rw [g1FromEip2537, pointFromEip2537, hfail]
  exact nofun

/-- Subtracting the keys of those who did not sign from the key of the whole committee gives the
verdict on the sum of the keys of those who did. -/
theorem verifySyncAggregate_iff_direct (B : BlstGroup p) (E : PairingGroups F)
    (C : B.Computes OnCurve1 OnCurve2 E) :
    (∀ keys signers nonSigners : List (P1Affine p), (∀ key ∈ keys, B.ValidG1 OnCurve1 key) →
      C.keySum keys ≠ 0 → keys.Perm (signers ++ nonSigners) →
      (∃ aggregate, B.ValidG1 OnCurve1 aggregate ∧ C.point1 aggregate = C.keySum keys) ∧
      ∀ aggregate, B.ValidG1 OnCurve1 aggregate → C.point1 aggregate = C.keySum keys →
        ∀ message signature,
          (verifySyncAggregate B (g1ToEip2537 aggregate) (nonSigners.map g1ToEip2537) message
              signature = .ok true ↔
            ∃ σ, g2FromEip2537 B.toBlst signature = .ok σ ∧ B.ValidG2 OnCurve2 σ ∧
              C.keySum signers ≠ 0 ∧
              E.pairing (C.keySum signers) (C.hashToG2 ethereumDst message) =
                E.pairing E.g (C.point2 σ))) ∧
    (∀ aggregate nonSigners message signature, ∀ encoded ∈ nonSigners,
      (encoded = List.replicate 128 0 ∨
        ∀ P, B.ValidG1 OnCurve1 P → encoded ≠ g1ToEip2537 P) →
      verifySyncAggregate B aggregate nonSigners message signature = .ok false) ∧
    ∀ aggregate nonSigners message signature,
      ∃ b, verifySyncAggregate B aggregate nonSigners message signature = .ok b := by
  refine ⟨fun keys signers nonSigners hkeys hsum hperm ↦ ⟨C.exists_aggregate hkeys hsum, ?_⟩, ?_,
    exists_verifySyncAggregate_ok B⟩
  · intro aggregate haggregate hpoint message signature
    have hdecode := (g1FromEip2537_ok_iff C.documented).mpr ⟨haggregate, rfl⟩
    have hnonSigners : ∀ key ∈ nonSigners, B.ValidG1 OnCurve1 key :=
      fun key hkey ↦ hkeys key (hperm.mem_iff.mpr (List.mem_append_right _ hkey))
    obtain ⟨rest, hrest, hrepresents⟩ :=
      C.foldlM_subtractNonSigner hnonSigners (C.fromAffine aggregate haggregate)
    -- only the sum matters: the committee may be split in any order
    have hsigners : C.point1 aggregate - C.keySum nonSigners = C.keySum signers := by
      rw [hpoint, C.keySum_perm hperm, C.keySum_append, add_sub_cancel_right]
    rw [hsigners] at hrepresents
    rw [verifySyncAggregate_ok_true_iff]
    constructor
    · rintro ⟨P, hP, σ, hσ, rest', hrest', hverify⟩
      obtain rfl := Except.ok.inj (hdecode.symm.trans hP)
      obtain rfl := Except.ok.inj (hrest.symm.trans hrest')
      obtain ⟨hvalid, -⟩ := (g2FromEip2537_ok_iff C.documented).mp hσ
      exact ⟨σ, hσ, hvalid, (C.verifySigners_iff hrepresents hvalid).mp hverify⟩
    · rintro ⟨σ, hσ, hvalid, hequation⟩
      exact ⟨aggregate, hdecode, σ, hσ, rest, hrest,
        (C.verifySigners_iff hrepresents hvalid).mpr hequation⟩
  · intro aggregate nonSigners message signature encoded hmem hbad
    obtain ⟨b, hb⟩ := exists_verifySyncAggregate_ok B aggregate nonSigners message signature
    cases b with
    | false => exact hb
    | true =>
      obtain ⟨P, -, σ, -, rest, hrest, -⟩ := verifySyncAggregate_ok_true_iff.mp hb
      obtain ⟨Q, hQ⟩ := forall_decodes_of_foldlM hrest encoded hmem
      rcases hbad with rfl | hbad
      · exact absurd hQ (g1FromEip2537_zeros Q)
      · obtain ⟨hvalid, rfl⟩ := (g1FromEip2537_ok_iff C.documented).mp hQ
        exact absurd rfl (hbad Q hvalid)

section Seven

instance factPrimeSeven : Fact (Nat.Prime 7) := ⟨by norm_num⟩

/-- The seven residues as groups paired by their product. -/
def sevenGroups : PairingGroups (ZMod 7) where
  G1 := ZMod 7
  G2 := ZMod 7
  GT := ZMod 7
  g := 1
  h := 1
  bilinear := LinearMap.mul (ZMod 7) (ZMod 7)
  g_spans x := ⟨x, mul_one x⟩
  h_spans y := ⟨y, mul_one y⟩
  nondegenerate := by simp

def residueOnCurve1 (P : P1Affine 7) : Bool := P.y.val == 0

def residueOnCurve2 (P : P2Affine 7) : Bool :=
  P.x.c1.val == 0 && P.y.c0.val == 0 && P.y.c1.val == 0

def residueBlst : BlstGroup 7 where
  toBlst := readingBlst 7 residueOnCurve1 residueOnCurve2
  P1 := ZMod 7
  p1FromAffine P := P.x
  p1Cneg a flag := if flag then -a else a
  p1AddOrDouble a b := a + b
  p1IsInf a := a == 0
  p1ToAffine a := ⟨a, (0 : ZMod 7)⟩
  coreVerifyPkInG1 pk signature _ _ _ _ := pk.x.val == signature.x.c0.val

theorem residue_pairing_iff (x y : Fin 7) :
    sevenGroups.pairing x (1 : ZMod 7) = sevenGroups.pairing sevenGroups.g y ↔ x.val = y.val := by
  have hleft : sevenGroups.pairing x (1 : ZMod 7) = x := mul_one (x : ZMod 7)
  have hright : sevenGroups.pairing sevenGroups.g y = y := one_mul (y : ZMod 7)
  rw [hleft, hright]
  exact Fin.ext_iff

def residueComputes : residueBlst.Computes (fun P ↦ residueOnCurve1 P = true)
    (fun P ↦ residueOnCurve2 P = true) sevenGroups where
  documented := readingBlst_documented (seven_lt_two_pow (by norm_num)) _ _
  point1 P := P.x
  point2 P := P.x.c0
  hashToG2 _ _ := (1 : ZMod 7)
  Represents a x := a = x
  fromAffine _ _ := rfl
  cneg a x h := by
    subst h
    rfl
  addOrDouble a x b y h h' := by
    subst h h'
    rfl
  isInf_iff a x h := by
    subst h
    exact beq_iff_eq
  toAffine a x h hx := by
    subst h
    exact ⟨⟨rfl, rfl, fun h0 ↦ hx (Fin.ext h0.1)⟩, rfl⟩
  coreVerify_iff pk signature _ _ _ _ :=
    beq_iff_eq.trans (residue_pairing_iff pk.x signature.x.c0).symm

theorem verifySyncAggregate_iff_direct_seven :
    verifySyncAggregate residueBlst (g1ToEip2537 (⟨3, 0⟩ : P1Affine 7))
      [g1ToEip2537 (⟨1, 0⟩ : P1Affine 7)] [] (g2ToEip2537 (⟨⟨2, 0⟩, ⟨0, 0⟩⟩ : P2Affine 7)) =
        .ok true := by
  have hvalid (x : Fin 7) (hx : x ≠ 0) :
      residueBlst.ValidG1 (fun P ↦ residueOnCurve1 P = true) ⟨x, 0⟩ :=
    ⟨rfl, rfl, fun h0 ↦ hx (Fin.ext h0.1)⟩
  have hsigma : residueBlst.ValidG2 (fun P ↦ residueOnCurve2 P = true) ⟨⟨2, 0⟩, ⟨0, 0⟩⟩ :=
    ⟨rfl, rfl, fun h0 ↦ absurd h0.1 (by decide)⟩
  have hkeys : ∀ key ∈ [⟨1, 0⟩, ⟨2, 0⟩],
      residueBlst.ValidG1 (fun P ↦ residueOnCurve1 P = true) key :=
    List.forall_mem_cons.mpr ⟨hvalid 1 (by decide),
      List.forall_mem_singleton.mpr (hvalid 2 (by decide))⟩
  have hdirect := verifySyncAggregate_iff_direct residueBlst sevenGroups residueComputes
  obtain ⟨-, hiff⟩ := hdirect.1 [⟨1, 0⟩, ⟨2, 0⟩] [⟨2, 0⟩] [⟨1, 0⟩] hkeys (by decide)
    (List.Perm.swap _ _ _)
  refine (hiff ⟨3, 0⟩ (hvalid 3 (by decide)) (by decide) [] _).mpr ⟨_, ?_, hsigma, ?_, ?_⟩
  · exact (g2FromEip2537_ok_iff residueComputes.documented).mpr ⟨hsigma, rfl⟩
  · decide
  · decide

end Seven

end HieroCryptography.Hints
