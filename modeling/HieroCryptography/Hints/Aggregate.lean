import HieroCryptography.Hints.Preprocess
import HieroCryptography.Hints.Relations
import HieroCryptography.Hints.Transcript

namespace HieroCryptography.Hints

open Polynomial Foundation Rust DensePolynomial Kzg

variable {E : Curve}

def sign (msg : Bytes) (sk : SecretKey E) : Result E.G2 := do
  let h ← hashToG2 E msg
  .ok (sk.secret • h)

def partialVerify (msg : Bytes) (ak : AggregationKey E) (partyId : ℕ) (sig : E.G2) :
    Result Bool := do
  require (Utils.isNValid ak.n) (.invalidNetworkSize ak.n)
  require (aggregationKeyIsWellFormed ak)
    (.invalidInput s!"malformed aggregation key: n = {ak.n}")
  let last ← usizeSub ak.n 1
  require (¬ partyId ≥ last) (.invalidInput s!"signer_id {partyId} out of range")
  let pk ← index ak.pks partyId
  checkOrReturnFalse (pk ≠ 0) <| checkOrReturnFalse (sig ≠ 0) <| do
  let h ← hashToG2 E msg
  .ok (E.pairing pk h = E.pairing E.g sig)

structure Witness (E : Curve) where
  bitmap : List Fr
  parsum : List Fr
  aggWeight : Fr
  aggPk : E.G1
  aggSig : E.G2
  qzOfTauCom : E.G1
  qxOfTauCom : E.G1
  qxOfTauMulTauCom : E.G1

def runningSumsFrom (sum : Fr) : List (Fr × Fr) → List Fr
  | [] => []
  | (w, b) :: rest => (sum + b * w) :: runningSumsFrom (sum + b * w) rest

def runningSums (weights bitmap : List Fr) : List Fr := runningSumsFrom 0 (weights.zip bitmap)

def innerProduct {G : Type} [AddCommGroup G] (elements : List G) (bitmap : List Fr) : G :=
  (((elements.zip bitmap).filter fun p ↦ p.2 = 1).map Prod.fst).sum

def markSigner (n : ℕ) (bitmap : List Fr) (i : ℕ) : Result (List Fr) := do
  let last ← usizeSub n 2
  require (¬ i > last) (.invalidInput s!"Invalid party ID {i}: must be <= n - 2 ({last})")
  setAt bitmap i 1

def assembleWitness (ak : AggregationKey E) (partialSignatures : HashMap E.G2) :
    Result (Witness E) := do
  let n := ak.n
  let nInv ← fieldDiv 1 (n : Fr)
  let signers ← partialSignatures.keys.foldlM (markSigner n) (List.replicate n 0)
  let aggWeight := (signers.zip ak.weights).foldl (fun acc p ↦ acc + p.1 * p.2) 0
  let last ← usizeSub n 1
  let bitmap ← setAt signers last 1
  let weights ← setAt ak.weights last (0 - aggWeight)
  .ok {
    bitmap
    parsum := runningSums weights bitmap
    aggWeight
    aggPk := nInv • innerProduct ak.pks bitmap
    aggSig := nInv • partialSignatures.values.sum
    qzOfTauCom := innerProduct ak.qzTerms bitmap
    qxOfTauCom := innerProduct ak.qxTerms bitmap
    qxOfTauMulTauCom := innerProduct ak.qxMulTauTerms bitmap }

/-- Horner's rule, from the last polynomial on. -/
def mergePolys (polys : List (DensePolynomial Fr)) (χ : Fr) : Result (DensePolynomial Fr) :=
  polys.reverse.foldlM (fun acc p ↦ (Utils.polyEvalMultC acc χ).add p) ⟨[]⟩

/-- The polynomials `p1` to `p4` of `prove`. -/
def relationPolys (ω : Fr) (bOfX pswOfX wOfX lNMinus1OfX : DensePolynomial Fr) (aggWeight : Fr) :
    Result (List (DensePolynomial Fr)) := do
  let ωInv ← fieldDiv 1 ω
  let pswOfXDivω ← Utils.polyDomainMultω pswOfX ωInv
  let wAdjOfX ← wOfX.sub (Utils.polyEvalMultC lNMinus1OfX aggWeight)
  let one := Utils.computeConstantPoly 1
  let step ← pswOfX.sub pswOfXDivω
  let weighted ← wAdjOfX.mul frFft bOfX
  let p1OfX ← step.sub weighted
  let square ← bOfX.mul frFft bOfX
  let p2OfX ← square.sub bOfX
  let p3OfX ← lNMinus1OfX.mul frFft pswOfX
  let bMinusOne ← bOfX.sub one
  let p4OfX ← lNMinus1OfX.mul frFft bMinusOne
  .ok [p1OfX, p2OfX, p3OfX, p4OfX]

/-- The body of `prove`, which also shows the three challenges it draws. -/
def proveWithChallenges (crs : CRS E) (ak : AggregationKey E) (vk : VerificationKey E)
    (witness : Witness E) : Result (ThresholdSignature E × Bool × Fr × Fr × Fr) := do
  let n := ak.n
  let domain ← okOr (radix2Domain frFft n) (.cryptographyCatastrophe
    s!"Unable to construct Radix2EvaluationDomain for n = {n}")
  let ω := domain.groupGen
  let bOfX ← interpolate witness.bitmap
  let pswOfX ← interpolate witness.parsum
  let wOfX ← interpolate ak.weights
  let last ← usizeSub n 1
  let lNMinus1OfX ← lagrangeNI n last
  let bOfTauCom ← commitG1 crs bOfX
  let parsumOfTauCom ← commitG1 crs pswOfX
  let transcript ← absorbRound1 Transcript.new vk witness.aggPk witness.aggWeight bOfTauCom
    parsumOfTauCom witness.qxOfTauCom witness.qzOfTauCom witness.qxOfTauMulTauCom
  let χq := transcript.challenge E dstQuotientMerge
  let polys ← relationPolys ω bOfX pswOfX wOfX lNMinus1OfX witness.aggWeight
  let pMrgOfX ← mergePolys polys χq
  let qMrgOfX := (pMrgOfX.divideByVanishingPoly domain).1
  let remainder := (pMrgOfX.divideByVanishingPoly domain).2
  let exact := remainder.coeffs.all (· = 0)
  let qMrgOfTauCom ← commitG1 crs qMrgOfX
  let transcript ← absorbRound2 transcript qMrgOfTauCom
  let r := transcript.challenge E dstEvaluationPoint
  let rDivω ← fieldDiv r ω
  let parsumOfR := pswOfX.evaluate r
  let parsumOfRDivω := pswOfX.evaluate rDivω
  let wOfR := wOfX.evaluate r
  let bOfR := bOfX.evaluate r
  let qMrgOfR := qMrgOfX.evaluate r
  let transcript ← absorbRound3 E transcript parsumOfR parsumOfRDivω wOfR bOfR qMrgOfR
  let χop := transcript.challenge E dstOpeningBatch
  let qOfX ← mergePolys [qMrgOfX, pswOfX, bOfX, wOfX] χop
  let openingProofR ← computeOpeningProof crs qOfX r
  let openingProofRDivω ← computeOpeningProof crs pswOfX rDivω
  .ok ({
    aggPk := witness.aggPk
    aggWeight := witness.aggWeight
    aggSig := witness.aggSig
    bOfTauCom
    qxOfTauCom := witness.qxOfTauCom
    qxOfTauMulTauCom := witness.qxOfTauMulTauCom
    qzOfTauCom := witness.qzOfTauCom
    parsumOfTauCom, qMrgOfTauCom, openingProofR, openingProofRDivω
    parsumOfR, parsumOfRDivω, wOfR, bOfR, qMrgOfR }, exact, χq, r, χop)

def prove (crs : CRS E) (ak : AggregationKey E) (vk : VerificationKey E) (witness : Witness E) :
    Result (ThresholdSignature E × Bool) := do
  let (π, exact, _) ← proveWithChallenges crs ak vk witness
  .ok (π, exact)

def aggregate (crs : CRS E) (ak : AggregationKey E) (vk : VerificationKey E)
    (partialSignatures : HashMap E.G2) : Result (ThresholdSignature E) := do
  let n := ak.n
  require (aggregationKeyIsWellFormed ak) (.invalidInput s!"malformed aggregation key: n = {n}")
  require (crsSupports crs n) (.insufficientCRS n)
  require (Utils.isNValid n) (.invalidNetworkSize n)
  let witness ← assembleWitness ak partialSignatures
  let (π, exact) ← prove crs ak vk witness
  require exact (.invalidInput "aggregation inputs do not satisfy the hinTS relations")
  .ok π

section Lists

theorem runningSumsFrom_range' (f : ℕ → Fr × Fr) (k m : ℕ) :
    runningSumsFrom (∑ j ∈ Finset.range k, (f j).2 * (f j).1) ((List.range' k m).map f) =
      (List.range' k m).map fun i ↦ ∑ j ∈ Finset.range (i + 1), (f j).2 * (f j).1 := by
  induction m generalizing k with
  | zero => rfl
  | succ m ih =>
    rw [List.range'_succ, List.map_cons, List.map_cons, runningSumsFrom, ← Finset.sum_range_succ,
      ih]

theorem runningSums_map_range (n : ℕ) (w b : ℕ → Fr) :
    runningSums ((List.range n).map w) ((List.range n).map b) =
      (List.range n).map fun i ↦ ∑ j ∈ Finset.range (i + 1), b j * w j := by
  rw [runningSums, List.zip_map', List.range_eq_range']
  exact runningSumsFrom_range' (fun i ↦ (w i, b i)) 0 n

theorem innerProduct_map_range {G : Type} [AddCommGroup G] [Module Fr G] {n : ℕ} (x : ℕ → G)
    {b : ℕ → Fr} (hb : ∀ i < n, b i = 0 ∨ b i = 1) :
    innerProduct ((List.range n).map x) ((List.range n).map b) =
      ∑ i ∈ Finset.range n, b i • x i := by
  rw [innerProduct, List.zip_map', List.filter_map, List.map_map]
  have hsum (l : List ℕ) (hl : ∀ i ∈ l, b i = 0 ∨ b i = 1) :
      ((l.filter fun i ↦ b i = 1).map x).sum = (l.map fun i ↦ b i • x i).sum := by
    induction l with
    | nil => rfl
    | cons i l ih =>
      rw [List.forall_mem_cons] at hl
      rcases hl.1 with h | h
      · simp [h, ih hl.2]
      · simp [h, ih hl.2]
  exact hsum _ fun i hi ↦ hb i (List.mem_range.mp hi)

theorem foldl_weights_map_range (n : ℕ) (b w : ℕ → Fr) :
    (((List.range n).map b).zip ((List.range n).map w)).foldl (fun acc p ↦ acc + p.1 * p.2) 0 =
      ∑ i ∈ Finset.range n, b i * w i := by
  have hsum := foldl_add_map_range n fun i ↦ b i * w i
  rw [List.foldl_map] at hsum
  rw [List.zip_map', List.foldl_map, hsum]

theorem markSigners_range {n : ℕ} (hn : 1 < n) {keys : List ℕ} {bitmap bitmap' : List Fr}
    (h : keys.foldlM (markSigner n) bitmap = .ok bitmap') : ∀ i ∈ keys, i < n - 1 := by
  induction keys generalizing bitmap with
  | nil => exact fun i hi ↦ absurd hi List.not_mem_nil
  | cons i keys ih =>
    rw [List.foldlM_cons, bind_ok_iff] at h
    obtain ⟨next, hnext, hrest⟩ := h
    simp only [markSigner, usizeSub_of_le hn, ok_bind, bind_ok_iff, require_ok_iff, exists_const,
      decide_eq_true_eq] at hnext
    exact List.forall_mem_cons.mpr ⟨by omega, ih hrest⟩

theorem markSigners_ok {n : ℕ} (keys : List ℕ) (h : ∀ i ∈ keys, i < n - 1) (f : ℕ → Fr) :
    keys.foldlM (markSigner n) ((List.range n).map f) =
      .ok ((List.range n).map fun i ↦ if i ∈ keys then 1 else f i) := by
  induction keys generalizing f with
  | nil => simp
  | cons i keys ih =>
    rw [List.forall_mem_cons] at h
    have hrange : ¬ i > n - 2 := by omega
    rw [List.foldlM_cons, markSigner, usizeSub_of_le (by omega), ok_bind, decide_eq_true hrange,
      require_true, ok_bind, setAt_map_range (by omega), ok_bind, ih h.2]
    congr 2
    funext j
    simp only [List.mem_cons, Function.update_apply]
    by_cases hj : j = i <;> simp [hj]

end Lists

/-- The bits of an aggregator: one for each signer, and the reserved slot. -/
def signerBit (n : ℕ) (signers : List ℕ) (i : ℕ) : Fr :=
  if i ∈ signers ∨ i = n - 1 then 1 else 0

theorem signerBit_binary (n : ℕ) (signers : List ℕ) (i : ℕ) :
    signerBit n signers i = 0 ∨ signerBit n signers i = 1 := by
  unfold signerBit
  split
  · exact Or.inr rfl
  · exact Or.inl rfl

theorem signerBit_reserved (n : ℕ) (signers : List ℕ) : signerBit n signers (n - 1) = 1 :=
  if_pos (Or.inr rfl)

theorem sum_signerBit {M : Type} [AddCommGroup M] [Module Fr M] {n : ℕ} {signers : List ℕ}
    (hnodup : signers.Nodup) (hlt : ∀ i ∈ signers, i < n - 1) (x : ℕ → M) :
    ∑ i ∈ Finset.range (n - 1), signerBit n signers i • x i = (signers.map x).sum := by
  have hbit : ∀ i ∈ Finset.range (n - 1),
      signerBit n signers i • x i = if i ∈ signers.toFinset then x i else 0 := by
    intro i hi
    have hne : i ≠ n - 1 := (Finset.mem_range.mp hi).ne
    simp [signerBit, hne, ite_smul]
  have hsub : signers.toFinset ⊆ Finset.range (n - 1) := fun i hi ↦
    Finset.mem_range.mpr (hlt i (List.mem_toFinset.mp hi))
  rw [Finset.sum_congr rfl hbit, Finset.sum_ite_mem, Finset.inter_eq_right.mpr hsub,
    List.sum_toFinset x hnodup]

namespace Setting

variable {crs : CRS E} {n : ℕ} {τ : Fr} (S : Setting crs n τ)

noncomputable def honestWitness (w s : ℕ → Fr) (partialSignatures : HashMap E.G2) : Witness E :=
  let b := signerBit n partialSignatures.keys
  { bitmap := (List.range n).map b
    parsum := (List.range n).map (Relations.parsum n w b)
    aggWeight := Relations.aggWeight n w b
    aggPk := ((∑ i ∈ Finset.range n, b i * s i) / n) • E.g
    aggSig := (1 / n : Fr) • partialSignatures.values.sum
    qzOfTauCom := (Relations.qz S.domain b s).eval τ • E.g
    qxOfTauCom := (Relations.qx S.domain b s).eval τ • E.g
    qxOfTauMulTauCom := ((Relations.qx S.domain b s).eval τ * τ) • E.g }

theorem innerProduct_smul_g {b : ℕ → Fr} (hb : ∀ i < n, b i = 0 ∨ b i = 1) (x : ℕ → Fr) :
    innerProduct ((List.range n).map fun i ↦ x i • E.g) ((List.range n).map b) =
      (∑ i ∈ Finset.range n, b i * x i) • E.g := by
  rw [innerProduct_map_range _ hb, Finset.sum_smul]
  simp only [smul_smul]

theorem assembleWitness_ok (w s : ℕ → Fr) {partialSignatures : HashMap E.G2}
    (hkeys : ∀ i ∈ partialSignatures.keys, i < n - 1) :
    assembleWitness (S.aggregationKey w s) partialSignatures =
      .ok (S.honestWitness w s partialSignatures) := by
  set b := signerBit n partialSignatures.keys with hb
  have hn := S.one_lt
  have hn0 : (n : Fr) ≠ 0 := S.size ▸ S.domain.size_ne_zero
  have hbin : ∀ i < n, b i = 0 ∨ b i = 1 := fun i _ ↦ signerBit_binary n _ i
  have hmark := markSigners_ok partialSignatures.keys hkeys fun _ ↦ 0
  rw [List.map_const', List.length_range] at hmark
  -- the loop sets the signers' bits only; the reserved one is set after the weights are summed
  have hbits : Function.update (fun i ↦ if i ∈ partialSignatures.keys then (1 : Fr) else 0)
      (n - 1) 1 = b := by
    funext i
    by_cases hi : i = n - 1 <;> simp [hb, signerBit, hi]
  have hweight : (((List.range n).map fun i ↦
      if i ∈ partialSignatures.keys then (1 : Fr) else 0).zip ((List.range n).map w)).foldl
        (fun acc p ↦ acc + p.1 * p.2) 0 = Relations.aggWeight n w b := by
    rw [foldl_weights_map_range]
    obtain ⟨m, rfl⟩ : ∃ m, n = m + 1 := ⟨n - 1, by omega⟩
    have hlast : m ∉ partialSignatures.keys := fun hm ↦ lt_irrefl _ (hkeys m hm)
    rw [Finset.sum_range_succ, if_neg hlast, zero_mul, add_zero, Relations.aggWeight,
      Nat.add_sub_cancel]
    refine Finset.sum_congr rfl fun i hi ↦ ?_
    have hne : i ≠ m := (Finset.mem_range.mp hi).ne
    simp [hb, signerBit, hne]
  have hparsum : (List.range n).map (fun i ↦ ∑ j ∈ Finset.range (i + 1),
      b j * Function.update w (n - 1) (0 - Relations.aggWeight n w b) j) =
      (List.range n).map (Relations.parsum n w b) := by
    simp only [Function.update_apply]
    rfl
  unfold assembleWitness
  simp only [aggregationKey, fieldDiv_of_ne _ hn0, hmark, hweight, usizeSub_of_le hn.le, ok_bind,
    setAt_map_range (show n - 1 < n by omega), hbits, runningSums_map_range, hparsum,
    innerProduct_smul_g hbin, honestWitness, smul_smul, ← hb]
  congr 3
  · rw [one_div_mul_eq_div]
  · rw [Relations.eval_qz, S.size]
  · rw [Relations.eval_qx, S.size]
  · rw [Relations.eval_qx, S.size, Finset.sum_mul]
    refine Finset.sum_congr rfl fun i _ ↦ ?_
    ring

end Setting

section Prove

theorem prove_ok_iff {crs : CRS E} {ak : AggregationKey E} {vk : VerificationKey E}
    {witness : Witness E} {π : ThresholdSignature E} {exact : Bool} :
    prove crs ak vk witness = .ok (π, exact) ↔
      ∃ challenges, proveWithChallenges crs ak vk witness = .ok (π, exact, challenges) := by
  rw [prove, bind_ok_iff]
  constructor
  · intro h
    obtain ⟨⟨π', exact', challenges⟩, hprove, hret⟩ := h
    obtain ⟨rfl, rfl⟩ := Prod.mk.inj (Except.ok.inj hret)
    exact ⟨challenges, hprove⟩
  · intro h
    obtain ⟨challenges, hprove⟩ := h
    exact ⟨_, hprove, rfl⟩

/-- The prover draws the challenges that the verifier derives from the signature. -/
theorem deriveChallenges_of_prove {crs : CRS E} {ak : AggregationKey E} {vk : VerificationKey E}
    {witness : Witness E} {π : ThresholdSignature E} {exact : Bool} {challenges : Fr × Fr × Fr}
    (h : proveWithChallenges crs ak vk witness = .ok (π, exact, challenges)) :
    deriveChallenges vk π = .ok challenges := by
  simp only [proveWithChallenges, bind_ok_iff, Except.ok.injEq, Prod.mk.injEq] at h
  obtain ⟨domain, -, b, -, psw, -, w, -, last, -, l, -, bCom, -, pswCom, -, t₁, ht₁, polys, -, p, -,
    qCom, -, t₂, ht₂, rDivω, -, t₃, ht₃, q, -, openR, -, openRDivω, -, rfl, -, rfl⟩ := h
  simp only [deriveChallenges, ht₁, ht₂, ht₃, ok_bind]

theorem mergePolys_ok {polys : List (DensePolynomial Fr)} {Ps : List Fr[X]}
    (h : List.Forall₂ Denotes polys Ps) (χ : Fr) :
    ∃ r, mergePolys polys χ = .ok r ∧ r.Denotes (horner χ Ps) := by
  refine foldlM_reverse_horner Denotes (fun {acc x A P} hacc hx ↦ ?_) ?_ h
  · rw [smul_eq_C_mul]
    exact (Utils.denotes_polyEvalMultC hacc χ).add hx
  · exact ⟨Or.inl rfl, rfl⟩

variable {n : ℕ}

theorem relationPolys_ok (U : Universe n) {b psw w l : DensePolynomial Fr} {B PS W : Fr[X]}
    (hb : b.Denotes B) (hps : psw.Denotes PS) (hw : w.Denotes W)
    (hl : l.Denotes (U.domain.basis (U.domain.size - 1))) (hB : B.natDegree < n)
    (hPS : PS.natDegree < n) (hW : W.natDegree < n) (aggWeight : Fr) :
    ∃ polys, relationPolys U.domain.groupGen b psw w l aggWeight = .ok polys ∧
      List.Forall₂ Denotes polys [Relations.p1 U.domain W PS B aggWeight, Relations.p2 B,
        Relations.p3 U.domain PS, Relations.p4 U.domain B] := by
  have hL := U.basis_natDegree_lt (U.domain.size - 1)
  have hω := U.domain.groupGen_ne_zero
  have hone : (Utils.computeConstantPoly (1 : Fr)).Denotes 1 := by
    simpa using Utils.denotes_computeConstantPoly (1 : Fr)
  have hadj : (W - C aggWeight * U.domain.basis (U.domain.size - 1)).natDegree < n :=
    (natDegree_sub_le _ _).trans_lt (max_lt hW ((natDegree_C_mul_le _ _).trans_lt hL))
  have hB1 : (B - 1).natDegree < n :=
    (natDegree_sub_le _ _).trans_lt (max_lt hB (by rw [natDegree_one]; omega))
  obtain ⟨shifted, hshift, hshiftd⟩ := Utils.polyDomainMultω_ok (ε := HinTSError) hps
    (one_div_ne_zero hω)
  obtain ⟨adj, hadjOk, hadjd⟩ := hw.sub (ε := HinTSError) (Utils.denotes_polyEvalMultC hl aggWeight)
  obtain ⟨step, hstep, hstepd⟩ := hps.sub (ε := HinTSError) hshiftd
  obtain ⟨weighted, hwt, hwtd⟩ := U.mul_ok hadjd hb hadj hB
  obtain ⟨p1, hp1, hp1d⟩ := hstepd.sub (ε := HinTSError) hwtd
  obtain ⟨square, hsq, hsqd⟩ := U.mul_ok hb hb hB hB
  obtain ⟨p2, hp2, hp2d⟩ := hsqd.sub (ε := HinTSError) hb
  obtain ⟨p3, hp3, hp3d⟩ := U.mul_ok hl hps hL hPS
  obtain ⟨b1, hb1, hb1d⟩ := hb.sub (ε := HinTSError) hone
  obtain ⟨p4, hp4, hp4d⟩ := U.mul_ok hl hb1d hL hB1
  refine ⟨[p1, p2, p3, p4], ?_, ?_⟩
  · unfold relationPolys
    simp only [fieldDiv_of_ne _ hω, hshift, hadjOk, hstep, hwt, hp1, hsq, hp2, hp3, hb1, hp4,
      ok_bind]
  · exact .cons hp1d (.cons hp2d (.cons hp3d (.cons hp4d .nil)))

theorem relationPolys_denotes {D : Domain Fr} {b psw w l : DensePolynomial Fr} {B PS W : Fr[X]}
    (hb : b.Denotes B) (hps : psw.Denotes PS) (hw : w.Denotes W)
    (hl : l.Denotes (D.basis (D.size - 1))) {aggWeight : Fr} {polys : List (DensePolynomial Fr)}
    (h : relationPolys D.groupGen b psw w l aggWeight = .ok polys) :
    List.Forall₂ Denotes polys [Relations.p1 D W PS B aggWeight, Relations.p2 B,
      Relations.p3 D PS, Relations.p4 D B] := by
  have hone : (Utils.computeConstantPoly (1 : Fr)).Denotes 1 := by
    simpa using Utils.denotes_computeConstantPoly (1 : Fr)
  obtain ⟨shifted, hshift, hshiftd⟩ := Utils.polyDomainMultω_ok (ε := HinTSError) hps
    (one_div_ne_zero D.groupGen_ne_zero)
  simp only [relationPolys, fieldDiv_of_ne _ D.groupGen_ne_zero, ok_bind, hshift, bind_ok_iff,
    Except.ok.injEq] at h
  obtain ⟨adj, hadj, step, hstep, weighted, hwt, p1, hp1, square, hsq, p2, hp2, p3, hp3, b1, hb1,
    p4, hp4, rfl⟩ := h
  have hadjd := hw.of_sub_ok (Utils.denotes_polyEvalMultC hl aggWeight) hadj
  have hstepd := hps.of_sub_ok hshiftd hstep
  exact .cons (hstepd.of_sub_ok (hadjd.of_mul_ok hb hwt) hp1)
    (.cons ((hb.of_mul_ok hb hsq).of_sub_ok hb hp2)
      (.cons (hl.of_mul_ok hps hp3) (.cons (hl.of_mul_ok (hb.of_sub_ok hone hb1) hp4) .nil)))

variable {crs : CRS E} {τ : Fr}

/-- A signature that `prove` computes from the polynomials of a witness, with the quotient `Q`
of the merged relation. -/
structure Proved (S : Setting crs n τ) (vk : VerificationKey E) (witness : Witness E)
    (W PS B Q : Fr[X]) (χq r χop : Fr) (π : ThresholdSignature E) : Prop where
  challenges : deriveChallenges vk π = .ok (χq, r, χop)
  aggPk : π.aggPk = witness.aggPk
  aggWeight : π.aggWeight = witness.aggWeight
  aggSig : π.aggSig = witness.aggSig
  qz : π.qzOfTauCom = witness.qzOfTauCom
  qx : π.qxOfTauCom = witness.qxOfTauCom
  qxMul : π.qxOfTauMulTauCom = witness.qxOfTauMulTauCom
  bCom : π.bOfTauCom = B.eval τ • E.g
  parsumCom : π.parsumOfTauCom = PS.eval τ • E.g
  qMrgCom : π.qMrgOfTauCom = Q.eval τ • E.g
  parsumOfR : π.parsumOfR = PS.eval r
  parsumOfRDivω : π.parsumOfRDivω = PS.eval (r / S.domain.groupGen)
  wOfR : π.wOfR = W.eval r
  bOfR : π.bOfR = B.eval r
  qMrgOfR : π.qMrgOfR = Q.eval r
  opening : ∃ O : Fr[X], (X - C r) * O =
      horner χop [Q, PS, B, W] - C ((horner χop [Q, PS, B, W]).eval r) ∧
    π.openingProofR = O.eval τ • E.g
  openingDivω : ∃ O : Fr[X], (X - C (r / S.domain.groupGen)) * O =
      PS - C (PS.eval (r / S.domain.groupGen)) ∧
    π.openingProofRDivω = O.eval τ • E.g

/-- `prove` succeeds on every bitmap and every running sums, and reports whether the merged
relation holds on the domain. -/
theorem prove_ok (S : Setting crs n τ) (vk : VerificationKey E) (ak : AggregationKey E)
    (witness : Witness E) (w ps b : ℕ → Fr) (hn : ak.n = n)
    (hweights : ak.weights = (List.range n).map w)
    (hparsum : witness.parsum = (List.range n).map ps)
    (hbitmap : witness.bitmap = (List.range n).map b) :
    ∃ π exact χq r χop, prove crs ak vk witness = .ok (π, exact) ∧
      (exact = true ↔ S.domain.vanishing ∣ Relations.merged S.domain (S.domain.interpolant w)
        (S.domain.interpolant ps) (S.domain.interpolant b) witness.aggWeight χq) ∧
      Proved S vk witness (S.domain.interpolant w) (S.domain.interpolant ps)
        (S.domain.interpolant b) (Relations.merged S.domain (S.domain.interpolant w)
          (S.domain.interpolant ps) (S.domain.interpolant b) witness.aggWeight χq /
            S.domain.vanishing) χq r χop π := by
  have hlt := S.interpolant_natDegree_lt
  have hpos := S.one_lt
  have hlen := (crsSupports_iff.mp S.supports).1
  have hω := S.domain.groupGen_ne_zero
  -- first round: the committed polynomials
  obtain ⟨bp, hb, hbd⟩ := interpolate_denotes S.radix2 S.size b
  obtain ⟨pp, hp, hpd⟩ := interpolate_denotes S.radix2 S.size ps
  obtain ⟨wp, hw, hwd⟩ := interpolate_denotes S.radix2 S.size w
  obtain ⟨l, hl, hld⟩ := lagrangeNI_ok S.radix2 S.size (n - 1)
  have hbCom := S.commitG1_ok hbd (hlt b).le
  have hpCom := S.commitG1_ok hpd (hlt ps).le
  obtain ⟨t₁, ht₁⟩ := absorbRound1_ok Transcript.new vk witness.aggPk witness.aggWeight
    ((S.domain.interpolant b).eval τ • E.g) ((S.domain.interpolant ps).eval τ • E.g)
    witness.qxOfTauCom witness.qzOfTauCom witness.qxOfTauMulTauCom
  set χq := t₁.challenge E dstQuotientMerge with hχq
  -- second round: the merged relation and its quotient, whose remainder is only reported
  obtain ⟨polys, hpolys, hpolysd⟩ := relationPolys_ok S.toUniverse hbd hpd hwd (by rwa [S.size])
    (hlt b) (hlt ps) (hlt w) witness.aggWeight
  obtain ⟨pm, hpm, hpmd⟩ := mergePolys_ok hpolysd χq
  set P := Relations.merged S.domain (S.domain.interpolant w) (S.domain.interpolant ps)
    (S.domain.interpolant b) witness.aggWeight χq with hP
  obtain ⟨hquot, -⟩ := denotes_divideByVanishingPoly pm S.domain
  rw [hpmd.2] at hquot
  change (pm.divideByVanishingPoly S.domain).1.Denotes (P / S.domain.vanishing) at hquot
  have hQ : (P / S.domain.vanishing).natDegree < n := by
    have hlt' := S.domain.interpolant_natDegree_lt
    have h := Relations.natDegree_merged_div_lt S.domain (hlt' w) (hlt' ps) (hlt' b)
      witness.aggWeight χq
    rwa [← hP, S.size] at h
  have hqCom := S.commitG1_ok hquot hQ.le
  obtain ⟨t₂, ht₂⟩ := absorbRound2_ok t₁ ((P / S.domain.vanishing).eval τ • E.g)
  set r := t₂.challenge E dstEvaluationPoint with hr
  -- third round: the evaluations, and one opening proof for all of them at `r`
  obtain ⟨t₃, ht₃⟩ := absorbRound3_ok E t₂ ((S.domain.interpolant ps).eval r)
    ((S.domain.interpolant ps).eval (r / S.domain.groupGen)) ((S.domain.interpolant w).eval r)
    ((S.domain.interpolant b).eval r) ((P / S.domain.vanishing).eval r)
  set χop := t₃.challenge E dstOpeningBatch with hχop
  obtain ⟨qp, hq, hqd⟩ := mergePolys_ok (.cons hquot (.cons hpd (.cons hbd (.cons hwd .nil)))) χop
  have hqdeg : (horner χop [P / S.domain.vanishing, S.domain.interpolant ps,
      S.domain.interpolant b, S.domain.interpolant w]).natDegree < n := by
    apply Relations.natDegree_horner_lt (by omega)
    simp only [List.forall_mem_cons, List.not_mem_nil, false_imp_iff, implies_true, and_true]
    exact ⟨hQ, hlt ps, hlt b, hlt w⟩
  obtain ⟨O, hO, hopen⟩ := computeOpeningProof_ok S.wellFormed hqd (hqdeg.trans hlen) r
  obtain ⟨O', hO', hopen'⟩ := computeOpeningProof_ok S.wellFormed hpd
    ((hlt ps).trans hlen) (r / S.domain.groupGen)
  have hexact := hpmd.remainder_isZero_iff S.domain
  unfold prove proveWithChallenges
  simp only [hn, hweights, hparsum, hbitmap, S.radix2, okOr_some, hb, hp, hw,
    usizeSub_of_le hpos.le, hl, hbCom, hpCom, ht₁, ← hχq, hpolys, hpm, hqCom, ht₂, ← hr,
    fieldDiv_of_ne _ hω, evaluate_eq, hpd.2, hwd.2, hbd.2, hquot.2, ht₃, ← hχop, hq, hopen, hopen',
    ok_bind]
  refine ⟨_, _, χq, r, χop, rfl, hexact, ?_⟩
  constructor
  case challenges =>
    simp only [deriveChallenges, ht₁, ← hχq, ht₂, ← hr, ht₃, ← hχop, ok_bind]
  case opening => exact ⟨O, hO, rfl⟩
  case openingDivω => exact ⟨O', hO', rfl⟩
  all_goals rfl

end Prove

end HieroCryptography.Hints
