import HieroCryptography.Hints.Correctness

namespace HieroCryptography.Hints

open Polynomial Foundation Rust Kzg

variable {E : Curve}

/-- A verification key whose elements in the second group are those of a secret `τ` and of the
value `sk` of the key polynomial at it. -/
structure KeyOf (vk : VerificationKey E) (τ sk : Fr) : Prop where
  g0_generates : ∀ x : E.G1, ∃ c : Fr, c • vk.g0 = x
  h0_generates : ∀ y : E.G2, ∃ c : Fr, c • vk.h0 = y
  h1 : vk.h1 = τ • vk.h0
  z : vk.zOfTauCom = (τ ^ vk.n - 1) • vk.h0
  sk : vk.skOfTauCom = sk • vk.h0

inductive OneFieldChanged (π : ThresholdSignature E) : ThresholdSignature E → Prop
  | aggPk (x : E.G1) (h : x ≠ π.aggPk) : OneFieldChanged π { π with aggPk := x }
  | aggSig (x : E.G2) (h : x ≠ π.aggSig) : OneFieldChanged π { π with aggSig := x }
  | bOfTauCom (x : E.G1) (h : x ≠ π.bOfTauCom) : OneFieldChanged π { π with bOfTauCom := x }
  | qxOfTauCom (x : E.G1) (h : x ≠ π.qxOfTauCom) : OneFieldChanged π { π with qxOfTauCom := x }
  | qxOfTauMulTauCom (x : E.G1) (h : x ≠ π.qxOfTauMulTauCom) :
      OneFieldChanged π { π with qxOfTauMulTauCom := x }
  | qzOfTauCom (x : E.G1) (h : x ≠ π.qzOfTauCom) : OneFieldChanged π { π with qzOfTauCom := x }
  | openingProofR (x : E.G1) (h : x ≠ π.openingProofR) :
      OneFieldChanged π { π with openingProofR := x }
  | openingProofRDivω (x : E.G1) (h : x ≠ π.openingProofRDivω) :
      OneFieldChanged π { π with openingProofRDivω := x }
  | parsumOfRDivω (x : Fr) (h : x ≠ π.parsumOfRDivω) :
      OneFieldChanged π { π with parsumOfRDivω := x }
  | qMrgOfR (x : Fr) (h : x ≠ π.qMrgOfR) : OneFieldChanged π { π with qMrgOfR := x }

theorem ne_zero_of_generates {G : Type} [AddCommGroup G] [Module Fr G] {g y : G} (hy : y ≠ 0)
    (h : ∀ x : G, ∃ c : Fr, c • g = x) : g ≠ 0 := by
  intro h0
  obtain ⟨c, hc⟩ := h y
  apply hy
  rw [← hc, h0, smul_zero]

namespace KeyOf

variable {vk : VerificationKey E} {τ sk : Fr} (hvk : KeyOf vk τ sk)

include hvk

theorem g0_ne_zero : vk.g0 ≠ 0 := ne_zero_of_generates E.g_ne_zero hvk.g0_generates

theorem h0_ne_zero : vk.h0 ≠ 0 := ne_zero_of_generates E.h_ne_zero hvk.h0_generates

theorem h1_ne_zero (hτ : τ ≠ 0) : vk.h1 ≠ 0 := by
  rw [hvk.h1]
  exact smul_ne_zero hτ hvk.h0_ne_zero

theorem z_ne_zero (hz : τ ^ vk.n - 1 ≠ 0) : vk.zOfTauCom ≠ 0 := by
  rw [hvk.z]
  exact smul_ne_zero hz hvk.h0_ne_zero

theorem sk_ne_zero (hsk : sk ≠ 0) : vk.skOfTauCom ≠ 0 := by
  rw [hvk.sk]
  exact smul_ne_zero hsk hvk.h0_ne_zero

theorem openingProof_unique {commitment : E.G1} {point evaluation : Fr} (hpoint : point ≠ τ)
    {proof proof' : E.G1} (h : verifyOpening vk commitment point evaluation proof = true)
    (h' : verifyOpening vk commitment point evaluation proof' = true) : proof' = proof := by
  have hshift : vk.h1 - point • vk.h0 ≠ 0 := by
    rw [hvk.h1, ← sub_smul]
    exact smul_ne_zero (sub_ne_zero.mpr hpoint.symm) hvk.h0_ne_zero
  simp only [verifyOpening, decide_eq_true_eq] at h h'
  exact (E.pairing_left_inj hshift).mp (h'.symm.trans h)

theorem evaluation_unique {commitment : E.G1} {point : Fr} {proof : E.G1}
    {evaluation evaluation' : Fr} (h : verifyOpening vk commitment point evaluation proof = true)
    (h' : verifyOpening vk commitment point evaluation' proof = true) :
    evaluation' = evaluation := by
  simp only [verifyOpening, decide_eq_true_eq] at h h'
  have hcom := (E.pairing_left_inj hvk.h0_ne_zero).mp (h'.trans h.symm)
  exact smul_left_injective Fr hvk.g0_ne_zero (sub_right_injective hcom)

end KeyOf

structure Accepted (vk : VerificationKey E) (H : E.G2) (D : Domain Fr)
    (π : ThresholdSignature E) (χq r χop : Fr) : Prop where
  bls : E.pairing π.aggPk H = E.pairing vk.g0 π.aggSig
  offDomain : r ^ D.size ≠ 1
  merged : horner χq (relationsAt π ((D.basis (D.size - 1)).eval r)) = π.qMrgOfR * (r ^ D.size - 1)
  openingAtR : openingAtRCheck vk π r χop = true
  openingAtRDivω : openingAtRDivωCheck vk π (r / D.groupGen) = true
  sumcheck : E.pairing π.bOfTauCom vk.skOfTauCom = E.pairing π.qzOfTauCom vk.zOfTauCom +
    E.pairing π.qxOfTauCom vk.h1 + E.pairing π.aggPk vk.h0
  degree : E.pairing π.qxOfTauCom vk.h1 = E.pairing π.qxOfTauMulTauCom vk.h0

section Verify

variable {vk : VerificationKey E} {H : E.G2} {D : Domain Fr} {msg : Bytes} {fraction : Fr × Fr}

theorem domain_of_root {ω : Fr} (hvalid : Utils.isNValid vk.n = true)
    (hω : Utils.nthRootOfUnity frFft vk.n = some ω) :
    ∃ D : Domain Fr, vk.n = D.size ∧ D.groupGen = ω := by
  obtain ⟨D, hD, rfl⟩ := Option.map_eq_some_iff.mp hω
  obtain ⟨k, -, hk⟩ := Utils.isNValid_iff.mp hvalid
  refine ⟨D, ?_, rfl⟩
  rw [hk] at hD ⊢
  exact (radix2Domain_size frFft hD).symm

theorem accepted_of_verify (hH : hashToG2 E msg = .ok H) (hD : vk.n = D.size)
    (hω : Utils.nthRootOfUnity frFft vk.n = some D.groupGen) {π : ThresholdSignature E}
    {χq r χop : Fr} (hch : deriveChallenges vk π = .ok (χq, r, χop))
    (h : verify msg vk π fraction = .ok true) : Accepted vk H D π χq r χop := by
  simp only [verify, blsCheck, hH, hω, hch, okOr_some, ok_bind, checkOrReturnFalse_ok_true_iff,
    bind_ok_iff, fieldDiv_ok_iff, sumcheckCheck, degreeCheck, decide_eq_true_eq] at h
  obtain ⟨-, -, -, -, hbls, ok, hmerged, rfl, hopen, -, ⟨-, rfl⟩, hopenω, hsum, hdeg, -⟩ := h
  by_cases hr : r ^ D.size = 1
  · rw [mergedRelationCheck_on_domain (hD ▸ hr)] at hmerged
    cases hmerged
  · rw [mergedRelationCheck_off_domain hD hr, Except.ok.injEq, decide_eq_true_eq] at hmerged
    exact ⟨hbls, hr, hmerged, hopen, hopenω, hsum, hdeg⟩

theorem exists_ok_of_rest {ε : Type} {cond : Bool} {rest : Outcome ε Bool}
    (h : ∃ b, rest = .ok b) : ∃ b, checkOrReturnFalse cond rest = .ok b := by
  cases cond with
  | false => exact ⟨false, rfl⟩
  | true => exact h

theorem exists_verify_ok (hH : hashToG2 E msg = .ok H) (hD : vk.n = D.size)
    (hω : Utils.nthRootOfUnity frFft vk.n = some D.groupGen) (π : ThresholdSignature E) :
    ∃ b, verify msg vk π fraction = .ok b := by
  obtain ⟨⟨χq, r, χop⟩, hch⟩ : ∃ challenges, deriveChallenges vk π = .ok challenges := ⟨_, rfl⟩
  have hmerged : ∃ b, mergedRelationCheck vk π D.groupGen χq r = .ok b := by
    by_cases hr : r ^ D.size = 1
    · exact ⟨_, mergedRelationCheck_on_domain (hD ▸ hr) π _ χq⟩
    · exact ⟨_, mergedRelationCheck_off_domain hD hr π χq⟩
  obtain ⟨merged, hmerged⟩ := hmerged
  unfold verify
  simp only [blsCheck, hH, hω, hch, hmerged, okOr_some, ok_bind,
    fieldDiv_of_ne _ D.groupGen_ne_zero]
  iterate 10 apply exists_ok_of_rest
  exact ⟨true, rfl⟩

end Verify

/-- An accepted signature leaves no choice in any of ten fields, whatever the hash: of the two
signatures the same check fails for one. -/
theorem accepted_field_is_unique {vk : VerificationKey E} {τ sk : Fr} (hvk : KeyOf vk τ sk)
    (hτ : τ ≠ 0) (hz : τ ^ vk.n - 1 ≠ 0) (hsk : sk ≠ 0) {H : E.G2} (hH0 : H ≠ 0) {D : Domain Fr}
    {π π' : ThresholdSignature E} {χq r χop χq' r' χop' : Fr}
    (hch : deriveChallenges vk π = .ok (χq, r, χop))
    (hch' : deriveChallenges vk π' = .ok (χq', r', χop')) (hr : r ≠ τ)
    (hrω : r ≠ τ * D.groupGen) (h : Accepted vk H D π χq r χop)
    (h' : Accepted vk H D π' χq' r' χop') : ¬ OneFieldChanged π π' := by
  have hω := D.groupGen_ne_zero
  obtain ⟨rfl, hrest⟩ := Prod.mk.inj (Except.ok.inj hch)
  obtain ⟨rfl, rfl⟩ := Prod.mk.inj hrest
  obtain ⟨rfl, hrest'⟩ := Prod.mk.inj (Except.ok.inj hch')
  obtain ⟨rfl, rfl⟩ := Prod.mk.inj hrest'
  intro hchanged
  -- each field stands alone in one of the checks, on a side that determines it
  cases hchanged with
  | aggPk x hx =>
    exact hx ((E.pairing_left_inj hH0).mp (h'.bls.trans h.bls.symm))
  | aggSig x hx =>
    exact hx ((E.pairing_right_inj hvk.g0_ne_zero).mp (h'.bls.symm.trans h.bls))
  | bOfTauCom x hx =>
    exact hx ((E.pairing_left_inj (hvk.sk_ne_zero hsk)).mp (h'.sumcheck.trans h.sumcheck.symm))
  | qxOfTauCom x hx =>
    exact hx ((E.pairing_left_inj (hvk.h1_ne_zero hτ)).mp (h'.degree.trans h.degree.symm))
  | qxOfTauMulTauCom x hx =>
    exact hx ((E.pairing_left_inj hvk.h0_ne_zero).mp (h'.degree.symm.trans h.degree))
  | qzOfTauCom x hx =>
    have hsum := h'.sumcheck.symm.trans h.sumcheck
    rw [add_left_inj, add_left_inj] at hsum
    exact hx ((E.pairing_left_inj (hvk.z_ne_zero hz)).mp hsum)
  | openingProofR x hx =>
    exact hx (hvk.openingProof_unique hr h.openingAtR h'.openingAtR)
  | openingProofRDivω x hx =>
    have hpoint : _ / D.groupGen ≠ τ := fun heq ↦ hrω ((div_eq_iff hω).mp heq)
    exact hx (hvk.openingProof_unique hpoint h.openingAtRDivω h'.openingAtRDivω)
  | parsumOfRDivω x hx =>
    exact hx (hvk.evaluation_unique h.openingAtRDivω h'.openingAtRDivω)
  | qMrgOfR x hx =>
    have hq := h'.merged.symm.trans h.merged
    exact hx (mul_right_cancel₀ (sub_ne_zero.mpr h.offDomain) hq)

theorem isNValid_of_verify {vk : VerificationKey E} {msg : Bytes} {π : ThresholdSignature E}
    {fraction : Fr × Fr} (h : verify msg vk π fraction = .ok true) :
    Utils.isNValid vk.n = true := by
  rw [verify, checkOrReturnFalse_ok_true_iff] at h
  exact h.1

/-- No accepted signature can be changed in one of these fields and be accepted again. -/
theorem verify_rejects_one_field_changed {vk : VerificationKey E} {τ sk : Fr}
    (hvk : KeyOf vk τ sk) (hτ : τ ≠ 0) (hz : τ ^ vk.n - 1 ≠ 0) (hsk : sk ≠ 0) {msg : Bytes}
    {H : E.G2} (hH : hashToG2 E msg = .ok H) (hH0 : H ≠ 0) {fraction : Fr × Fr}
    {π : ThresholdSignature E} (hacc : verify msg vk π fraction = .ok true) {ω χq r χop : Fr}
    (hω : Utils.nthRootOfUnity frFft vk.n = some ω)
    (hch : deriveChallenges vk π = .ok (χq, r, χop)) (hr : r ≠ τ) (hrω : r ≠ τ * ω)
    {π' : ThresholdSignature E} (hπ' : OneFieldChanged π π') :
    verify msg vk π' fraction = .ok false := by
  obtain ⟨D, hD, rfl⟩ := domain_of_root (isNValid_of_verify hacc) hω
  obtain ⟨⟨χq', r', χop'⟩, hch'⟩ : ∃ challenges, deriveChallenges vk π' = .ok challenges :=
    ⟨_, rfl⟩
  obtain ⟨b, hb⟩ : ∃ b, verify msg vk π' fraction = .ok b := exists_verify_ok hH hD hω π'
  cases b with
  | false => exact hb
  | true =>
    have haccepted := accepted_of_verify hH hD hω hch hacc
    have haccepted' := accepted_of_verify hH hD hω hch' hb
    exact absurd hπ' (accepted_field_is_unique hvk hτ hz hsk hH0 hch hch' hr hrω haccepted
      haccepted')

namespace Setting

theorem keyOf_verificationKey {crs : CRS E} {n : ℕ} {τ : Fr} (S : Setting crs n τ)
    (w s : ℕ → Fr) : KeyOf (S.verificationKey w s) τ ((S.domain.interpolant s).eval τ) where
  g0_generates := E.g_spans
  h0_generates := E.h_spans
  h1 := rfl
  z := by
    rw [verificationKey, S.domain.eval_vanishing, S.size]
  sk := rfl

end Setting

def pairKeys (i : ℕ) : Fr := if i = 0 then 1 else if i = 1 then 1 + 1 else 0

theorem eval_interpolant_pairKeys_ne_zero (S : Setting powersOfTwo (2 ^ 2) 2) :
    (S.domain.interpolant pairKeys).eval 2 ≠ 0 := by
  have hbasis (i : ℕ) := congrArg (eval 2) (S.domain.sub_mul_basis i)
  have hnode := S.domain.node_pow_size 1
  have hinterp : (S.domain.interpolant pairKeys).eval 2 =
      (S.domain.basis 0).eval 2 + 2 * (S.domain.basis 1).eval 2 := by
    rw [Domain.interpolant, S.size]
    simp [Finset.sum_range_succ, pairKeys, one_add_one_eq_two]
  simp only [eval_mul, eval_sub, eval_X, eval_C, S.domain.eval_vanishing, S.size] at hbasis hnode
  have h₀ := hbasis 0
  have h₁ := hbasis 1
  rw [Domain.node, pow_zero] at h₀
  intro hzero
  rw [hinterp] at hzero
  -- the second point of the domain would be minus two
  have hpoint : (15 / 4 : Fr) * (2 + S.domain.node 1) = 0 := by
    push_cast at h₀ h₁
    linear_combination (2 - S.domain.node 1) * hzero - (2 - S.domain.node 1) * h₀ - 2 * h₁
  have hminus : S.domain.node 1 = -2 := by
    have hfactor : (15 / 4 : Fr) ≠ 0 := by decide +kernel
    linear_combination (mul_eq_zero.mp hpoint).resolve_left hfactor
  rw [hminus] at hnode
  exact absurd hnode (by decide +kernel)

theorem exists_accepted_signature :
    ∃ (S : Setting powersOfTwo (2 ^ 2) 2) (π : ThresholdSignature scalarCurve) (χq χop : Fr),
      deriveChallenges (S.verificationKey pairKeys pairKeys) π = .ok (χq, 0, χop) ∧
      verify [] (S.verificationKey pairKeys pairKeys) π (1, 2) = .ok true := by
  obtain ⟨S⟩ := exists_powersOfTwo
  let sigs : HashMap scalarCurve.G2 := pairOf scalarCurve.h ((2 : Fr) • scalarCurve.h)
  have hkeys : ∀ i ∈ sigs.keys, i < 2 ^ 2 - 1 := by simp [sigs, keys_pairOf]
  obtain ⟨π, r, -, hπ⟩ := Setting.aggregate_ok S (w := pairKeys) (s := pairKeys) rfl rfl hkeys
  obtain ⟨χq, χop, hch, -⟩ := hπ.challenges
  have hr : 0 = r := (Prod.mk.inj (Prod.mk.inj (Except.ok.inj hch)).2).1
  subst hr
  refine ⟨S, π, χq, χop, hch, ?_⟩
  have hsum : (sigs.keys.map pairKeys).sum = 3 := by decide +kernel
  have hsig : (1 / (2 ^ 2 : ℕ) : Fr) • sigs.values.sum =
      (1 / (2 ^ 2 : ℕ) : Fr) • (sigs.keys.map pairKeys).sum • scalarCurve.h := by
    have hvalues : sigs.values.sum = (3 : Fr) • scalarCurve.h := by decide +kernel
    rw [hsum, hvalues]
  have hweight : π.aggWeight = 3 := hπ.aggWeight.trans hsum
  have htotal : (S.verificationKey pairKeys pairKeys).totalWeight = 3 := by
    change ∑ i ∈ Finset.range (2 ^ 2), pairKeys i = 3
    decide +kernel
  have hkey : (sigs.keys.map pairKeys).sum ≠ 0 := by rw [hsum]; decide +kernel
  rw [hπ.verify_iff (H := scalarCurve.h) rfl scalarCurve.h_ne_zero hsig hkey, hweight, htotal]
  exact ⟨by decide +kernel, by decide +kernel⟩

theorem verify_rejects_one_field_changed_pair :
    ∃ (vk : VerificationKey scalarCurve) (π : ThresholdSignature scalarCurve),
      verify [] vk π (1, 2) = .ok true ∧
      verify [] vk { π with aggPk := π.aggPk + scalarCurve.g } (1, 2) = .ok false := by
  obtain ⟨S, π, χq, χop, hch, hacc⟩ := exists_accepted_signature
  have hτ : (2 : Fr) ≠ 0 := by decide +kernel
  have hz : (2 : Fr) ^ 2 ^ 2 - 1 ≠ 0 := by decide +kernel
  have hω := S.domain.groupGen_ne_zero
  refine ⟨S.verificationKey pairKeys pairKeys, π, hacc, ?_⟩
  refine verify_rejects_one_field_changed (S.keyOf_verificationKey pairKeys pairKeys) hτ hz
    (eval_interpolant_pairKeys_ne_zero S) (H := scalarCurve.h) rfl scalarCurve.h_ne_zero hacc
    (Utils.nthRootOfUnity_of_domain S.radix2) hch hτ.symm (mul_ne_zero hτ hω).symm ?_
  apply OneFieldChanged.aggPk
  intro heq
  exact scalarCurve.g_ne_zero (left_eq_add.mp heq.symm)

end HieroCryptography.Hints
