import HieroCryptography.Hints.Hint

namespace HieroCryptography.Hints

open Polynomial Foundation Rust DensePolynomial Kzg

variable {E : Curve}

structure Contributions (E : Curve) where
  qz : List (List E.G1)
  qx : List E.G1
  qxMulTau : List E.G1
  pks : List E.G1
  skLOfTauComs : List E.G2

def Contributions.new (E : Curve) (n : ℕ) : Contributions E where
  qz := List.replicate n []
  qx := List.replicate n 0
  qxMulTau := List.replicate n 0
  pks := List.replicate n 0
  skLOfTauComs := List.replicate n 0

def Contributions.place (c : Contributions E) (hint : ExtendedPublicKey E) :
    Result (Contributions E) := do
  let qz ← setAt c.qz hint.i hint.qzITerms
  let qx ← setAt c.qx hint.i hint.qxITerm
  let qxMulTau ← setAt c.qxMulTau hint.i hint.qxITermMulTau
  let pks ← setAt c.pks hint.i hint.pkI
  let skLOfTauComs ← setAt c.skLOfTauComs hint.i hint.skILIOfTauCom2
  .ok { qz, qx, qxMulTau, pks, skLOfTauComs }

/-- Party `i`'s own term, then the cross terms the other parties published for it. -/
def preprocessQzContributions (q1 : List (List E.G1)) : Result (List E.G1) :=
  let n := q1.length
  (List.range n).mapM fun i ↦ do
    let row ← index q1 i
    let own ← index row i
    (List.range n).foldlM (fun com j ↦
      if i ≠ j then do
        let row ← index q1 j
        let contribution ← index row i
        .ok (com + contribution)
      else .ok com) own

def interpolate (evals : List Fr) : Result (DensePolynomial Fr) :=
  okOr (Utils.interpolatePolyOverMultSubgroup frFft evals) (.cryptographyCatastrophe
    s!"Unable to construct Radix2EvaluationDomain for n = {evals.length}")

def checkPartyIndices (n : ℕ) (keys : List ℕ) : Result Unit :=
  keys.forM fun partyId ↦ do
    let reserved ← usizeSub n 1
    require (¬ partyId ≥ reserved) (.invalidInput
      s!"party index {partyId} is not below the reserved index {reserved}")

def slotKey (crs : CRS E) (n : ℕ) (signerInfo : HashMap (Fr × ExtendedPublicKey E)) (i : ℕ) :
    Result (Fr × ExtendedPublicKey E) :=
  match signerInfo.get i with
  | some (weight, hint) => do
    require (hint.n = n)
      (.invalidInput s!"Invalid hint: got hint.n = {hint.n}, expected n = {n}")
    let ok ← verifyHint crs n i hint
    require ok (.invalidInput s!"Invalid hint: hint verification failed for i = {i}")
    .ok (weight, hint)
  | none => do
    let pop ← generateProofOfKnowledge E 0 (List.replicate randomSize 0)
    let hint ← hintGen crs n i { secret := 0, pop }
    .ok (0, hint)

def assembleKeys (crs : CRS E) (n : ℕ) (weights : List Fr) (epks : List (ExtendedPublicKey E)) :
    Result (VerificationKey E × AggregationKey E) := do
  let wOfX ← interpolate weights
  let c ← epks.foldlM Contributions.place (Contributions.new E n)
  let zOfX := Utils.computeVanishingPoly n
  let last ← usizeSub n 1
  let lNMinus1OfX ← lagrangeNI n last
  let totalWeight := weights.foldl (· + ·) 0
  let g0 ← index crs.powersOfG 0
  let h0 ← index crs.powersOfH 0
  let h1 ← index crs.powersOfH 1
  let lNMinus1OfTauCom ← commitG1 crs lNMinus1OfX
  let wOfTauCom ← commitG1 crs wOfX
  let zOfTauCom ← commitG2 crs zOfX
  let vk := {
    n, totalWeight, g0, h0, h1, lNMinus1OfTauCom, wOfTauCom
    skOfTauCom := c.skLOfTauComs.sum
    zOfTauCom }
  let qzTerms ← preprocessQzContributions c.qz
  let ak := {
    n, weights, pks := c.pks, qzTerms
    qxTerms := c.qx
    qxMulTauTerms := c.qxMulTau }
  require (aggregationKeyIsWellFormed ak) (.cryptographyCatastrophe
    s!"preprocess produced an inconsistent aggregation key for n = {n}")
  .ok (vk, ak)

def preprocess (n : ℕ) (crs : CRS E) (signerInfo : HashMap (Fr × ExtendedPublicKey E)) :
    Result (VerificationKey E × AggregationKey E) := do
  require (Utils.isNValid n) (.invalidNetworkSize n)
  require (¬ signerInfo.len + 1 > n) (.invalidNetworkSize n)
  checkPartyIndices n signerInfo.keys
  require (crsSupports crs n) (.insufficientCRS n)
  let slots ← (List.range n).mapM (slotKey crs n signerInfo)
  assembleKeys crs n (slots.map Prod.fst) (slots.map Prod.snd)

def filled {α : Type} (n k : ℕ) (f : ℕ → α) (default : α) : List α :=
  (List.range n).map fun i ↦ if i < k then f i else default

theorem filled_zero {α : Type} (n : ℕ) (f : ℕ → α) (d : α) :
    filled n 0 f d = List.replicate n d := by
  simp [filled]

theorem filled_self {α : Type} (n : ℕ) (f : ℕ → α) (d : α) :
    filled n n f d = (List.range n).map f :=
  List.map_congr_left fun _ hi ↦ if_pos (List.mem_range.mp hi)

theorem setAt_filled {α : Type} {n k : ℕ} (hk : k < n) (f : ℕ → α) (d : α) :
    (setAt (filled n k f d) k (f k) : Result (List α)) = .ok (filled n (k + 1) f d) := by
  rw [setAt_of_lt (by simpa [filled] using hk)]
  congr 1
  apply List.ext_getElem
  · simp [filled]
  · intro i h₁ h₂
    simp only [filled, List.getElem_set, List.getElem_map, List.getElem_range]
    rcases lt_trichotomy i k with hi | rfl | hi
    · simp [hi, hi.ne', Nat.lt_succ_of_lt hi]
    · simp
    · simp [hi.ne, not_lt.mpr hi.le, not_lt.mpr (Nat.succ_le_of_lt hi)]

def Contributions.upTo (n : ℕ) (epk : ℕ → ExtendedPublicKey E) (k : ℕ) : Contributions E where
  qz := filled n k (fun i ↦ (epk i).qzITerms) []
  qx := filled n k (fun i ↦ (epk i).qxITerm) 0
  qxMulTau := filled n k (fun i ↦ (epk i).qxITermMulTau) 0
  pks := filled n k (fun i ↦ (epk i).pkI) 0
  skLOfTauComs := filled n k (fun i ↦ (epk i).skILIOfTauCom2) 0

theorem Contributions.place_upTo {n k : ℕ} {epk : ℕ → ExtendedPublicKey E} (hk : k < n)
    (h : (epk k).i = k) : (upTo n epk k).place (epk k) = .ok (upTo n epk (k + 1)) := by
  unfold place
  simp only [h, upTo, setAt_filled hk (fun i ↦ (epk i).qzITerms),
    setAt_filled hk (fun i ↦ (epk i).qxITerm), setAt_filled hk (fun i ↦ (epk i).qxITermMulTau),
    setAt_filled hk (fun i ↦ (epk i).pkI), setAt_filled hk (fun i ↦ (epk i).skILIOfTauCom2),
    ok_bind]

theorem Contributions.collect_ok {n : ℕ} {epk : ℕ → ExtendedPublicKey E}
    (h : ∀ i < n, (epk i).i = i) :
    ((List.range n).map epk).foldlM place (new E n) = .ok (upTo n epk n) := by
  have hnew : new E n = upTo n epk 0 := by simp only [new, upTo, filled_zero]
  have hfold := foldlM_ok_of_states place ((List.range n).map epk) (upTo n epk) ?_
  · rw [hnew, hfold, List.length_map, List.length_range]
  · intro k hint hget
    obtain ⟨hk, rfl⟩ := List.getElem?_eq_some_iff.mp hget
    rw [List.length_map, List.length_range] at hk
    simpa using place_upTo hk (h k hk)

theorem checkPartyIndices_ok_iff {n : ℕ} {keys : List ℕ} :
    checkPartyIndices n keys = .ok () ↔ ∀ i ∈ keys, i < n - 1 := by
  rw [checkPartyIndices, forM_ok_iff]
  apply forall₂_congr
  intro i _
  simp only [bind_ok_iff, usizeSub_ok_iff, require_ok_iff, decide_eq_true_eq, not_le]
  constructor
  · intro h
    obtain ⟨reserved, ⟨-, rfl⟩, hlt⟩ := h
    exact hlt
  · intro hlt
    exact ⟨n - 1, ⟨by omega, rfl⟩, hlt⟩

theorem interpolate_denotes {n : ℕ} {D : Domain Fr} (hD : radix2Domain frFft n = some D)
    (hsize : D.size = n) (e : ℕ → Fr) :
    ∃ p, interpolate ((List.range n).map e) = .ok p ∧ p.Denotes (D.interpolant e) := by
  obtain ⟨p, hp, hd⟩ := Utils.interpolate_ok frFft ((List.range n).map e) (D := D)
    (by simpa using hD)
  refine ⟨p, by simp [interpolate, hp], ?_⟩
  have he : D.interpolant (fun i ↦ ((List.range n).map e).getD i 0) = D.interpolant e := by
    refine Finset.sum_congr rfl fun i hi ↦ ?_
    have hin : i < n := by simpa [hsize] using hi
    simp [hin]
  rwa [he] at hd

theorem foldl_add_map_range (n : ℕ) (w : ℕ → Fr) :
    ((List.range n).map w).foldl (· + ·) 0 = ∑ i ∈ Finset.range n, w i := by
  rw [← List.sum_eq_foldl, sum_map_range]

namespace Setting

variable {crs : CRS E} {n : ℕ} {τ : Fr} (S : Setting crs n τ)

noncomputable def verificationKey (w s : ℕ → Fr) : VerificationKey E where
  n := n
  totalWeight := ∑ i ∈ Finset.range n, w i
  g0 := E.g
  h0 := E.h
  h1 := τ • E.h
  lNMinus1OfTauCom := (S.domain.basis (n - 1)).eval τ • E.g
  wOfTauCom := (S.domain.interpolant w).eval τ • E.g
  skOfTauCom := (S.domain.interpolant s).eval τ • E.h
  zOfTauCom := S.domain.vanishing.eval τ • E.h

noncomputable def aggregationKey (w s : ℕ → Fr) : AggregationKey E where
  n := n
  weights := (List.range n).map w
  pks := (List.range n).map fun i ↦ s i • E.g
  qzTerms := (List.range n).map fun i ↦
    (∑ j ∈ Finset.range n, (S.domain.cross i j).eval τ * s j) • E.g
  qxTerms := (List.range n).map fun i ↦ ((S.domain.basis i).divX.eval τ * s i) • E.g
  qxMulTauTerms := (List.range n).map fun i ↦ ((S.domain.basis i).divX.eval τ * τ * s i) • E.g

theorem preprocessQzContributions_ok (w s : ℕ → Fr) :
    preprocessQzContributions ((List.range n).map fun i ↦
      (List.range n).map fun j ↦ ((S.domain.cross i j).eval τ * s i) • E.g) =
      .ok (S.aggregationKey w s).qzTerms := by
  unfold preprocessQzContributions
  rw [List.length_map, List.length_range]
  refine mapM_ok_of_forall fun i hi ↦ ?_
  have hi' := List.mem_range.mp hi
  set term : ℕ → Fr := fun j ↦ (S.domain.cross j i).eval τ * s j with hterm
  simp only [index_map_range _ hi', ok_bind]
  -- after `k` turns the own term and the cross terms of the parties below `k` are added up
  have hfold := foldlM_ok_of_states (ε := HinTSError)
    (fun com j ↦ if i ≠ j then do
        let row ← index ((List.range n).map fun i ↦ (List.range n).map fun j ↦
          ((S.domain.cross i j).eval τ * s i) • E.g) j
        let contribution ← index row i
        .ok (com + contribution)
      else .ok com)
    (List.range n) (fun k ↦ (term i + ∑ j ∈ (Finset.range k).erase i, term j) • E.g) ?_
  · rw [Finset.range_zero, Finset.erase_empty, Finset.sum_empty, add_zero, List.length_range,
      Finset.add_sum_erase _ _ (Finset.mem_range.mpr hi')] at hfold
    rw [hfold]
    simp only [hterm, S.domain.cross_comm (i := i)]
  · intro k j hj
    obtain ⟨hk, rfl⟩ := List.getElem?_eq_some_iff.mp hj
    rw [List.length_range] at hk
    rw [List.getElem_range, Finset.range_add_one]
    by_cases hik : i = k
    · subst k
      rw [if_neg (not_not.mpr rfl), Finset.erase_insert Finset.notMem_range_self,
        Finset.erase_eq_of_notMem Finset.notMem_range_self]
    · rw [if_pos hik, Finset.erase_insert_of_ne (Ne.symm hik), Finset.sum_insert (by simp)]
      simp only [index_map_range _ hk, index_map_range _ hi', ok_bind]
      rw [← add_smul]
      congr 2
      simp only [hterm]
      ring

theorem assembleKeys_ok {w s : ℕ → Fr} {epk : ℕ → ExtendedPublicKey E}
    (h : ∀ i < n, S.HonestHint i (s i) (epk i)) :
    assembleKeys crs n ((List.range n).map w) ((List.range n).map epk) =
      .ok (S.verificationKey w s, S.aggregationKey w s) := by
  obtain ⟨wp, hw, hwd⟩ := interpolate_denotes S.radix2 S.size w
  obtain ⟨l, hl, hld⟩ := lagrangeNI_ok S.radix2 S.size (n - 1)
  have hz := S.denotes_vanishing
  have hzn : S.domain.vanishing.natDegree ≤ n := by rw [Domain.vanishing_natDegree, S.size]
  have hwn := S.interpolant_natDegree_lt w
  have hmap {α : Type} (f g : ℕ → α) (hfg : ∀ i < n, f i = g i) (d : α) :
      filled n n f d = (List.range n).map g := by
    rw [filled_self]
    exact List.map_congr_left fun i hi ↦ hfg i (List.mem_range.mp hi)
  have hcol := Contributions.collect_ok fun i hi ↦ (h i hi).index
  unfold Contributions.upTo at hcol
  rw [hmap _ _ fun i hi ↦ (h i hi).qz, hmap _ _ fun i hi ↦ (h i hi).qx,
    hmap _ _ fun i hi ↦ (h i hi).qxMul, hmap _ _ fun i hi ↦ (h i hi).pk,
    hmap _ _ fun i hi ↦ (h i hi).com2] at hcol
  have hsk : ((List.range n).map fun i ↦ (s i * (S.domain.basis i).eval τ) • E.h).sum =
      (S.domain.interpolant s).eval τ • E.h := by
    rw [sum_map_range, ← Finset.sum_smul, Domain.interpolant, eval_finsetSum, S.size]
    simp only [eval_mul, eval_C]
  unfold assembleKeys
  simp only [hw, hcol, usizeSub_of_le S.one_lt.le, hl, S.index_powersOfG, S.index_powersOfH,
    S.index_powersOfH_one, S.commitG1_ok hld (S.basis_natDegree_lt _).le,
    S.commitG1_ok hwd hwn.le, S.commitG2_ok hz hzn, S.preprocessQzContributions_ok w s, hsk,
    foldl_add_map_range, ok_bind]
  have hwf : aggregationKeyIsWellFormed (S.aggregationKey w s) = true := by
    simp [aggregationKeyIsWellFormed_iff, aggregationKey]
  unfold aggregationKey at hwf ⊢
  rw [hwf, require_true, ok_bind]
  rfl

/-- A slot carries an honest key: the registered one, or that of the secret key zero. -/
theorem slotKey_ok {signerInfo : HashMap (Fr × ExtendedPublicKey E)} {i : ℕ} (hi : i < n)
    {slot : Fr × ExtendedPublicKey E} (h : slotKey crs n signerInfo i = .ok slot) :
    ∃ s, S.HonestHint i s slot.2 ∧ (signerInfo.get i = none → slot.1 = 0 ∧ s = 0) ∧
      ∀ v, signerInfo.get i = some v → v = slot ∧ s ≠ 0 := by
  unfold slotKey at h
  cases hget : signerInfo.get i with
  | some v =>
    obtain ⟨weight, hint⟩ := v
    simp only [hget, bind_ok_iff, require_ok_iff, exists_const] at h
    obtain ⟨-, ok, hver, rfl, hslot⟩ := h
    obtain rfl := Except.ok.inj hslot
    obtain ⟨hne, -, s, hs⟩ := (S.verifyHint_ok_true_iff hi hint).mp hver
    refine ⟨s, hs, by simp, fun v hv ↦ ⟨(Option.some.inj hv).symm, ?_⟩⟩
    rintro rfl
    exact hne.pk (by rw [hs.pk, zero_smul])
  | none =>
    obtain ⟨pop, hpop, -⟩ := generateProofOfKnowledge_ok E 0 (List.replicate randomSize 0)
    obtain ⟨hint, hgen, hh, -⟩ := S.hintGen_ok hi { secret := 0, pop }
    simp only [hget, hpop, hgen, ok_bind] at h
    obtain rfl := Except.ok.inj h
    exact ⟨0, hh, fun _ ↦ ⟨rfl, rfl⟩, by simp⟩

include S in
theorem slotKey_of_accepted {signerInfo : HashMap (Fr × ExtendedPublicKey E)} {i : ℕ} (hi : i < n)
    (h : ∀ v, signerInfo.get i = some v → verifyHint crs n i v.2 = .ok true) :
    ∃ slot, slotKey crs n signerInfo i = .ok slot := by
  unfold slotKey
  cases hget : signerInfo.get i with
  | some v =>
    have hver := h v hget
    obtain ⟨-, -, s, hs⟩ := (S.verifyHint_ok_true_iff hi v.2).mp hver
    exact ⟨v, by simp [hs.size, hver]⟩
  | none =>
    obtain ⟨pop, hpop, -⟩ := generateProofOfKnowledge_ok E 0 (List.replicate randomSize 0)
    obtain ⟨hint, hgen, -⟩ := S.hintGen_ok hi { secret := 0, pop }
    exact ⟨(0, hint), by simp [hpop, hgen]⟩

/-- What a weight and a secret key per slot have to do with the registered parties. -/
structure Registered (signerInfo : HashMap (Fr × ExtendedPublicKey E)) (n : ℕ) (w s : ℕ → Fr) :
    Prop where
  absent : ∀ i < n, signerInfo.get i = none → w i = 0 ∧ s i = 0
  present : ∀ i weight hint, signerInfo.get i = some (weight, hint) →
    i < n - 1 ∧ w i = weight ∧ hint.pkI = s i • E.g ∧ s i ≠ 0

omit S in
theorem Registered.reserved {signerInfo : HashMap (Fr × ExtendedPublicKey E)} {w s : ℕ → Fr}
    (h : Registered signerInfo n w s) (hn : 0 < n) : w (n - 1) = 0 ∧ s (n - 1) = 0 := by
  apply h.absent (n - 1) (Nat.sub_lt hn one_pos)
  cases hget : signerInfo.get (n - 1) with
  | none => rfl
  | some v => exact absurd (h.present _ _ _ hget).1 (lt_irrefl _)

/-- Whatever the map, the keys of a successful `preprocess` are those of the registered
weights and secret keys, with zeros everywhere else. -/
theorem preprocess_spec {signerInfo : HashMap (Fr × ExtendedPublicKey E)} {vk : VerificationKey E}
    {ak : AggregationKey E} (h : preprocess n crs signerInfo = .ok (vk, ak)) :
    ∃ w s : ℕ → Fr, Registered signerInfo n w s ∧ vk = S.verificationKey w s ∧
      ak = S.aggregationKey w s := by
  simp only [preprocess, bind_ok_iff, require_ok_iff, exists_const] at h
  obtain ⟨-, -, _, hkeys, -, slots, hslots, hkeysOk⟩ := h
  have hlt := checkPartyIndices_ok_iff.mp hkeys
  obtain ⟨hlen, hget⟩ := mapM_range_ok_iff.mp hslots
  have hn := S.one_lt
  set d := slots.get ⟨0, by omega⟩
  have hslot (i : ℕ) (hi : i < n) : slots[i]? = some (slots.getD i d) := by
    rw [List.getD_eq_getElem _ _ (by omega), List.getElem?_eq_getElem (by omega)]
  have hmap : slots = (List.range n).map fun i ↦ slots.getD i d := by
    refine List.ext_getElem (by simpa using hlen) fun i h₁ _ ↦ ?_
    rw [List.getElem_map, List.getElem_range, List.getD_eq_getElem _ _ h₁]
  have hspec (i : ℕ) (hi : i < n) := S.slotKey_ok hi (hget i _ (hslot i hi))
  choose! s hs hnone hsome using hspec
  rw [hmap, List.map_map, List.map_map] at hkeysOk
  have hassemble := S.assembleKeys_ok (w := fun i ↦ (slots.getD i d).1) hs
  obtain ⟨rfl, rfl⟩ := Prod.mk.inj (Except.ok.inj (hkeysOk.symm.trans hassemble))
  refine ⟨_, s, ⟨hnone, fun i weight hint hi ↦ ?_⟩, rfl, rfl⟩
  have hin := hlt i (signerInfo.mem_keys_of_get hi)
  obtain ⟨heq, hne⟩ := hsome i (by omega) _ hi
  have hpk := (hs i (by omega)).pk
  rw [← heq] at hpk
  exact ⟨hin, by rw [← heq], hpk, hne⟩

include S in
theorem preprocess_ok (signerInfo : HashMap (Fr × ExtendedPublicKey E))
    (h : ∀ i v, signerInfo.get i = some v → i < n - 1 ∧ verifyHint crs n i v.2 = .ok true) :
    ∃ vk ak, preprocess n crs signerInfo = .ok (vk, ak) := by
  have hlt : ∀ i ∈ signerInfo.keys, i < n - 1 := fun i hi ↦ by
    obtain ⟨v, hv⟩ := signerInfo.get_of_mem_keys hi
    exact (h i v hv).1
  have hn := S.one_lt
  have hlen : ¬ signerInfo.len + 1 > n := by
    have hsub : signerInfo.keys ⊆ List.range (n - 1) := fun i hi ↦ List.mem_range.mpr (hlt i hi)
    have hle := (List.subperm_of_subset signerInfo.nodup hsub).length_le
    simp only [List.length_map, List.length_range] at hle
    unfold HashMap.len
    omega
  have hslot (i : ℕ) (hi : i < n) := S.slotKey_of_accepted hi fun v hv ↦ (h i v hv).2
  have hne : Nonempty (Fr × ExtendedPublicKey E) := (hslot 0 (by omega)).nonempty
  choose! slot hslotOk using hslot
  have hmapM : (List.range n).mapM (slotKey crs n signerInfo) = .ok ((List.range n).map slot) :=
    mapM_ok_of_forall fun i hi ↦ hslotOk i (List.mem_range.mp hi)
  have hspec (i : ℕ) (hi : i < n) := S.slotKey_ok hi (hslotOk i hi)
  choose! s hs hnone hsome using hspec
  unfold preprocess
  rw [S.valid, require_true, ok_bind, decide_eq_true hlen, require_true, ok_bind,
    checkPartyIndices_ok_iff.mpr hlt, ok_bind, S.supports, require_true, ok_bind, hmapM, ok_bind,
    List.map_map, List.map_map]
  exact ⟨_, _, S.assembleKeys_ok hs⟩

end Setting

def pairOf {V : Type} (first second : V) : HashMap V :=
  (HashMap.empty.insert 0 first).insert 1 second

theorem get_pairOf {V : Type} (first second : V) (i : ℕ) : (pairOf first second).get i =
    if i = 1 then some second else if i = 0 then some first else none := by
  rw [pairOf, HashMap.get_insert, HashMap.get_insert]
  rfl

theorem keys_pairOf {V : Type} (first second : V) : (pairOf first second).keys = [1, 0] := rfl

/-- Two parties are registered with the keys one and two, and a third slot stays empty. -/
theorem exists_preprocessed_pair (w₀ w₁ : Fr) :
    ∃ (S : Setting powersOfTwo (2 ^ 2) 2) (hint : ℕ → ExtendedPublicKey scalarCurve)
      (w s : ℕ → Fr), preprocess (2 ^ 2) powersOfTwo (pairOf (w₀, hint 0) (w₁, hint 1)) =
        .ok (S.verificationKey w s, S.aggregationKey w s) ∧
      Setting.Registered (pairOf (w₀, hint 0) (w₁, hint 1)) (2 ^ 2) w s ∧ s 0 = 1 ∧ s 1 = 2 ∧
      (S.verificationKey w s).totalWeight = w₀ + w₁ := by
  obtain ⟨S, hint, hhint⟩ := exists_registered_parties
  obtain ⟨hh₀, hver₀⟩ := hhint 0 two_pos
  obtain ⟨hh₁, hver₁⟩ := hhint 1 one_lt_two
  let info := pairOf (w₀, hint 0) (w₁, hint 1)
  obtain ⟨vk, ak, hpre⟩ := S.preprocess_ok info fun i v hv ↦ by
    rw [get_pairOf] at hv
    split at hv
    · next hi => exact ⟨by omega, by rw [hi, ← Option.some.inj hv]; exact hver₁⟩
    · split at hv
      · next hi => exact ⟨by omega, by rw [hi, ← Option.some.inj hv]; exact hver₀⟩
      · cases hv
  obtain ⟨w, s, hreg, rfl, rfl⟩ := S.preprocess_spec hpre
  obtain ⟨-, hw₀, hpk₀, -⟩ := hreg.present 0 w₀ (hint 0) rfl
  obtain ⟨-, hw₁, hpk₁, -⟩ := hreg.present 1 w₁ (hint 1) rfl
  obtain ⟨hw₂, -⟩ := hreg.absent 2 (by decide) rfl
  obtain ⟨hw₃, -⟩ := hreg.absent 3 (by decide) rfl
  refine ⟨S, hint, w, s, hpre, hreg, ?_, ?_, ?_⟩
  · rw [← scalarCurve.smul_g_inj, ← hpk₀, hh₀.pk, Nat.cast_zero, zero_add]
  · rw [← scalarCurve.smul_g_inj, ← hpk₁, hh₁.pk, Nat.cast_one, one_add_one_eq_two]
  · simp [Setting.verificationKey, Finset.sum_range_succ, hw₀, hw₁, hw₂, hw₃]

end HieroCryptography.Hints
