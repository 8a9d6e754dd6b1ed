import HieroCryptography.Hints.Aggregate

namespace HieroCryptography.Hints

open Foundation Rust Kzg

variable {E : Curve}

/-- `HinTS::partial_verify_batch`, for the scalar `r` it draws once the batch is fixed. -/
def partialVerifyBatch (msg : Bytes) (ak : AggregationKey E) (signerIds : List ℕ)
    (signatures : List E.G2) (r : Fr) : Result Bool := do
  require (Utils.isNValid ak.n) (.invalidNetworkSize ak.n)
  require (aggregationKeyIsWellFormed ak)
    (.invalidInput s!"malformed aggregation key: n = {ak.n}")
  require (signerIds.length = signatures.length)
    (.invalidInput "signer_ids and signatures must be of the same size")
  require (¬ signerIds.isEmpty) (.invalidInput "signer_ids must not be empty")
  let last ← usizeSub ak.n 1
  require (¬ signerIds.any (· ≥ last))
    (.invalidInput "One or more signer_ids are out of range")
  let keysHeld ← signerIds.allM fun id ↦ do
    let pk ← index ak.pks id
    .ok (pk ≠ 0)
  checkOrReturnFalse keysHeld <| checkOrReturnFalse (signatures.all (· ≠ 0)) <| do
  let coefficients := List.iterate (· * r) 1 signatures.length
  let pks ← signerIds.mapM (index ak.pks)
  let apk := msm pks coefficients
  let aggSig := msm signatures coefficients
  let h ← hashToG2 E msg
  .ok (E.pairing apk h = E.pairing E.g aggSig)

theorem msm_iterate {G : Type} [AddCommGroup G] [Module Fr G] (r c : Fr) (xs : List G) :
    msm xs (List.iterate (· * r) c xs.length) = c • horner r xs := by
  induction xs generalizing c with
  | nil => simp [msm]
  | cons x xs ih =>
    have htail := ih (c * r)
    simp only [msm, List.length_cons, List.iterate, List.zipWith_cons_cons,
      List.sum_cons] at htail ⊢
    rw [htail, horner_cons, smul_add, smul_smul]

/-- What both functions ask of their inputs before they look at a signature. -/
structure Eligible (ak : AggregationKey E) (signerIds : List ℕ) : Prop where
  valid : Utils.isNValid ak.n = true
  wellFormed : aggregationKeyIsWellFormed ak = true
  inRange : ∀ id ∈ signerIds, id < ak.n - 1

variable {msg : Bytes} {ak : AggregationKey E} {H : E.G2}

theorem eligible_iff_forall {signerIds : List ℕ} (hne : signerIds ≠ []) :
    Eligible ak signerIds ↔ ∀ id ∈ signerIds, Eligible ak [id] := by
  constructor
  · exact fun h id hid ↦ ⟨h.valid, h.wellFormed, List.forall_mem_singleton.mpr (h.inRange id hid)⟩
  · intro h
    obtain ⟨id, hid⟩ := List.exists_mem_of_ne_nil _ hne
    exact ⟨(h id hid).valid, (h id hid).wellFormed,
      fun j hj ↦ (h j hj).inRange j List.mem_cons_self⟩

def keyAt (ak : AggregationKey E) (id : ℕ) : E.G1 := ak.pks.getD id 0

theorem Eligible.index_eq {signerIds : List ℕ} (h : Eligible ak signerIds) {id : ℕ}
    (hid : id ∈ signerIds) : (index ak.pks id : Result E.G1) = .ok (keyAt ak id) := by
  have hlen := (aggregationKeyIsWellFormed_iff.mp h.wellFormed).2.1
  have hlt := h.inRange id hid
  rw [index_ok_iff, keyAt, List.getD_eq_getElem _ _ (by omega), List.getElem?_eq_getElem]

def accepts (H : E.G2) (pk : E.G1) (σ : E.G2) : Bool :=
  pk ≠ 0 && (σ ≠ 0 && E.pairing pk H = E.pairing E.g σ)

theorem partialVerify_eq (hH : hashToG2 E msg = .ok H) {signerIds : List ℕ}
    (h : Eligible ak signerIds) {id : ℕ} (hid : id ∈ signerIds) (σ : E.G2) :
    partialVerify msg ak id σ = .ok (accepts H (keyAt ak id) σ) := by
  have hlt := h.inRange id hid
  simp only [partialVerify, h.valid, h.wellFormed, require_true, ok_bind,
    Utils.usizeSub_one_of_isNValid h.valid, ge_iff_le, not_le, hlt,
    decide_true, h.index_eq hid, hH, checkOrReturnFalse_ok, accepts]

theorem partialVerifyBatch_eq (hH : hashToG2 E msg = .ok H) {signerIds : List ℕ}
    {signatures : List E.G2} (h : Eligible ak signerIds)
    (hlen : signerIds.length = signatures.length) (hne : signerIds ≠ []) (r : Fr) :
    partialVerifyBatch msg ak signerIds signatures r =
      .ok ((signerIds.map (keyAt ak)).all (· ≠ 0) && (signatures.all (· ≠ 0) &&
        E.pairing (horner r (signerIds.map (keyAt ak))) H =
          E.pairing E.g (horner r signatures))) := by
  have hany : signerIds.any (fun id ↦ decide (id ≥ ak.n - 1)) = false := by
    simp only [List.any_eq_false, decide_eq_true_eq, ge_iff_le, not_le]
    exact h.inRange
  have hkeys := mapM_ok_of_forall (g := keyAt ak) fun id hid ↦ h.index_eq hid
  have hheld := allM_ok_of_forall (f := fun id ↦ do
    let pk ← (index ak.pks id : Result E.G1)
    .ok (decide (pk ≠ 0))) (g := fun id ↦ decide (keyAt ak id ≠ 0)) fun id hid ↦ by
      rw [h.index_eq hid, ok_bind]
  have hapk := msm_iterate r 1 (signerIds.map (keyAt ak))
  have hagg := msm_iterate r 1 signatures
  rw [List.length_map, hlen, one_smul] at hapk
  rw [one_smul] at hagg
  simp only [partialVerifyBatch, h.valid, h.wellFormed, require_true, ok_bind,
    Utils.usizeSub_one_of_isNValid h.valid, hlen, decide_true,
    hne, List.isEmpty_iff, not_false_eq_true, hany, Bool.false_eq_true, hheld, hkeys, hapk, hagg,
    hH, checkOrReturnFalse_ok, List.all_map]
  rfl

theorem hash_of_partialVerifyBatch {signerIds : List ℕ} {signatures : List E.G2} {r : Fr}
    (h : partialVerifyBatch msg ak signerIds signatures r = .ok true) :
    ∃ H, hashToG2 E msg = .ok H := by
  simp only [partialVerifyBatch, bind_ok_iff, checkOrReturnFalse_ok_true_iff] at h
  obtain ⟨-, -, -, -, -, -, -, -, -, -, -, -, -, -, -, -, -, -, H, hH, -⟩ := h
  exact ⟨H, hH⟩

theorem hash_of_partialVerify {id : ℕ} {σ : E.G2} (h : partialVerify msg ak id σ = .ok true) :
    ∃ H, hashToG2 E msg = .ok H := by
  simp only [partialVerify, bind_ok_iff, checkOrReturnFalse_ok_true_iff] at h
  obtain ⟨-, -, -, -, -, -, -, -, -, -, -, -, H, hH, -⟩ := h
  exact ⟨H, hH⟩

theorem partialVerify_fails_iff (hH : hashToG2 E msg = .ok H) {id : ℕ} {σ : E.G2} :
    (∃ e, partialVerify msg ak id σ = fail e) ↔ ¬ Eligible ak [id] := by
  constructor
  · rintro ⟨e, he⟩ h
    rw [partialVerify_eq hH h List.mem_cons_self] at he
    cases he
  · intro h
    by_cases hv : Utils.isNValid ak.n = true
    case neg => exact ⟨_, by rw [partialVerify, Bool.eq_false_of_not_eq_true hv]; rfl⟩
    simp only [partialVerify, Utils.usizeSub_one_of_isNValid hv, ok_bind, require_bind_fails_iff]
    by_contra! hall
    obtain ⟨-, hwf, hid, -⟩ := hall
    refine h ⟨hv, by simpa using hwf, List.forall_mem_singleton.mpr ?_⟩
    simpa only [ne_eq, decide_eq_false_iff_not, not_not, ge_iff_le, not_le] using hid

theorem partialVerifyBatch_fails_iff (hH : hashToG2 E msg = .ok H) {signerIds : List ℕ}
    {signatures : List E.G2} {r : Fr} :
    (∃ e, partialVerifyBatch msg ak signerIds signatures r = fail e) ↔
      ¬ (Eligible ak signerIds ∧ signerIds.length = signatures.length ∧ signerIds ≠ []) := by
  constructor
  · rintro ⟨e, he⟩ ⟨h, hlen, hne⟩
    rw [partialVerifyBatch_eq hH h hlen hne] at he
    cases he
  · intro h
    by_cases hv : Utils.isNValid ak.n = true
    case neg => exact ⟨_, by rw [partialVerifyBatch, Bool.eq_false_of_not_eq_true hv]; rfl⟩
    simp only [partialVerifyBatch, Utils.usizeSub_one_of_isNValid hv, ok_bind,
      require_bind_fails_iff]
    by_contra! hall
    obtain ⟨-, hwf, hlen, hne, hids, -⟩ := hall
    refine h ⟨⟨hv, by simpa using hwf, ?_⟩, by simpa using hlen, by simpa using hne⟩
    simpa only [ne_eq, decide_eq_false_iff_not, not_not, Bool.not_eq_true, List.any_eq_false,
      decide_eq_true_eq, ge_iff_le, not_le] using hids

theorem forall₂_accepts_iff {pks : List E.G1} {signatures : List E.G2}
    (hlen : pks.length = signatures.length) :
    List.Forall₂ (fun pk σ ↦ accepts H pk σ = true) pks signatures ↔
      (∀ pk ∈ pks, pk ≠ 0) ∧ (∀ σ ∈ signatures, σ ≠ 0) ∧
        pks.map (E.bilinear.flip H) = signatures.map (E.bilinear E.g) := by
  induction pks generalizing signatures with
  | nil =>
    obtain rfl := List.length_eq_zero_iff.mp hlen.symm
    simp
  | cons pk pks ih =>
    cases signatures with
    | nil => cases hlen
    | cons σ signatures =>
      rw [List.forall₂_cons, ih (Nat.succ.inj hlen)]
      simp only [accepts, Bool.and_eq_true, decide_eq_true_eq, List.forall_mem_cons, List.map_cons,
        List.cons.injEq, LinearMap.flip_apply, E.bilinear_apply]
      tauto

theorem forall_partialVerify_iff (hH : hashToG2 E msg = .ok H) {signerIds : List ℕ}
    {signatures : List E.G2} (h : Eligible ak signerIds)
    (hlen : signerIds.length = signatures.length) :
    (∀ entry ∈ signerIds.zip signatures, partialVerify msg ak entry.1 entry.2 = .ok true) ↔
      (∀ pk ∈ signerIds.map (keyAt ak), pk ≠ 0) ∧ (∀ σ ∈ signatures, σ ≠ 0) ∧
        (signerIds.map (keyAt ak)).map (E.bilinear.flip H) = signatures.map (E.bilinear E.g) := by
  have hentry : ∀ entry ∈ signerIds.zip signatures, partialVerify msg ak entry.1 entry.2 =
      .ok (accepts H (keyAt ak entry.1) entry.2) := fun entry hmem ↦
    partialVerify_eq hH h (List.of_mem_zip hmem).1 entry.2
  rw [← forall₂_accepts_iff ((List.length_map _).trans hlen), List.forall₂_map_left_iff,
    List.forall₂_iff_zip]
  constructor
  · refine fun hall ↦ ⟨hlen, fun {id σ} hmem ↦ ?_⟩
    exact Except.ok.inj ((hentry _ hmem).symm.trans (hall _ hmem))
  · rintro ⟨-, hall⟩ entry hmem
    rw [hentry entry hmem, hall hmem]

theorem partialVerifyBatch_ok_true_iff (hH : hashToG2 E msg = .ok H) {signerIds : List ℕ}
    {signatures : List E.G2} (h : Eligible ak signerIds)
    (hlen : signerIds.length = signatures.length) (hne : signerIds ≠ []) {r : Fr} :
    partialVerifyBatch msg ak signerIds signatures r = .ok true ↔
      (∀ pk ∈ signerIds.map (keyAt ak), pk ≠ 0) ∧ (∀ σ ∈ signatures, σ ≠ 0) ∧
        horner r ((signerIds.map (keyAt ak)).map (E.bilinear.flip H)) =
          horner r (signatures.map (E.bilinear E.g)) := by
  rw [partialVerifyBatch_eq hH h hlen hne, ← map_horner, ← map_horner]
  simp only [Except.ok.injEq, Bool.and_eq_true, List.all_eq_true, decide_eq_true_eq,
    LinearMap.flip_apply, E.bilinear_apply]

theorem partialVerifyBatch_of_forall (hH : hashToG2 E msg = .ok H) {signerIds : List ℕ}
    {signatures : List E.G2} (hlen : signerIds.length = signatures.length) (hne : signerIds ≠ [])
    (hall : ∀ entry ∈ signerIds.zip signatures,
      partialVerify msg ak entry.1 entry.2 = .ok true) (r : Fr) :
    partialVerifyBatch msg ak signerIds signatures r = .ok true := by
  have helig : Eligible ak signerIds := by
    refine (eligible_iff_forall hne).mpr fun id hid ↦ ?_
    obtain ⟨i, hi, rfl⟩ := List.getElem_of_mem hid
    have hi' : i < (signerIds.zip signatures).length := by
      rwa [List.length_zip, ← hlen, min_self]
    have hentry := hall _ (List.getElem_mem hi')
    rw [List.getElem_zip] at hentry
    by_contra h
    obtain ⟨e, he⟩ := (partialVerify_fails_iff (σ := signatures[i]) hH).mpr h
    exact fail_ne_ok e true (he.symm.trans hentry)
  obtain ⟨hpks, hsigs, heq⟩ := (forall_partialVerify_iff hH helig hlen).mp hall
  exact (partialVerifyBatch_ok_true_iff hH helig hlen hne).mpr ⟨hpks, hsigs, heq ▸ rfl⟩

theorem ncard_partialVerifyBatch_le (hH : hashToG2 E msg = .ok H) {signerIds : List ℕ}
    {signatures : List E.G2} (hsome : ∃ entry ∈ signerIds.zip signatures,
      partialVerify msg ak entry.1 entry.2 ≠ .ok true) :
    {r | partialVerifyBatch msg ak signerIds signatures r = .ok true}.ncard ≤
      signerIds.length - 1 := by
  by_cases h : Eligible ak signerIds ∧ signerIds.length = signatures.length ∧ signerIds ≠ []
  · obtain ⟨helig, hlen, hne⟩ := h
    simp only [partialVerifyBatch_ok_true_iff hH helig hlen hne]
    rcases Set.eq_empty_or_nonempty {r : Fr | (∀ pk ∈ signerIds.map (keyAt ak), pk ≠ 0) ∧
        (∀ σ ∈ signatures, σ ≠ 0) ∧
        horner r ((signerIds.map (keyAt ak)).map (E.bilinear.flip H)) =
          horner r (signatures.map (E.bilinear E.g))} with hempty | ⟨r₀, hpks, hsigs, -⟩
    · rw [hempty, Set.ncard_empty]
      exact Nat.zero_le _
    · -- no element is the identity, so the rejected entry fails its pairing equation
      have hdiff : (signerIds.map (keyAt ak)).map (E.bilinear.flip H) ≠
          signatures.map (E.bilinear E.g) := by
        intro heq
        obtain ⟨entry, hmem, hrejected⟩ := hsome
        exact hrejected
          ((forall_partialVerify_iff hH helig hlen).mpr ⟨hpks, hsigs, heq⟩ entry hmem)
      have hcard := ncard_horner_eq_le (F := Fr) (by simpa using hlen) hdiff
      rw [List.length_map, List.length_map] at hcard
      exact (Set.ncard_le_ncard fun r hr ↦ hr.2.2).trans hcard
  · have hempty : {r | partialVerifyBatch msg ak signerIds signatures r = .ok true} = ∅ := by
      refine Set.eq_empty_of_forall_notMem fun r hr ↦ ?_
      obtain ⟨e, he⟩ := (partialVerifyBatch_fails_iff hH).mpr h
      exact fail_ne_ok e true (he.symm.trans hr)
    rw [hempty, Set.ncard_empty]
    exact Nat.zero_le _

/-- The batch check accepts when every entry is accepted, and otherwise for fewer scalars than
the batch has entries. It fails where the single check fails on some listed signer, and on
lists that are empty or of different lengths. -/
theorem partial_verify_batch_agrees (hhash : ∀ msg, ∃ H, hashToG2 E msg = .ok H) (msg : Bytes)
    (ak : AggregationKey E) (signerIds : List ℕ) (signatures : List E.G2) :
    (signerIds.length = signatures.length → signerIds ≠ [] →
      (∀ id ∈ signerIds, id < ak.n - 1) →
      ((∀ entry ∈ signerIds.zip signatures, partialVerify msg ak entry.1 entry.2 = .ok true) →
        ∀ r, partialVerifyBatch msg ak signerIds signatures r = .ok true) ∧
      ((∃ entry ∈ signerIds.zip signatures, partialVerify msg ak entry.1 entry.2 ≠ .ok true) →
        {r | partialVerifyBatch msg ak signerIds signatures r = .ok true}.ncard ≤
          signerIds.length - 1)) ∧
    ∀ σ r, (∃ e, partialVerifyBatch msg ak signerIds signatures r = fail e) ↔
      (∃ id ∈ signerIds, ∃ e, partialVerify msg ak id σ = fail e) ∨ signerIds = [] ∨
        signerIds.length ≠ signatures.length := by
  obtain ⟨H, hH⟩ := hhash msg
  refine ⟨fun hlen hne _ ↦ ⟨fun hall r ↦ partialVerifyBatch_of_forall hH hlen hne hall r,
    ncard_partialVerifyBatch_le hH⟩, fun σ r ↦ ?_⟩
  rw [partialVerifyBatch_fails_iff hH]
  simp only [partialVerify_fails_iff hH]
  by_cases hne : signerIds = []
  · simp [hne]
  · simp only [eligible_iff_forall hne, ne_eq, hne, not_false_eq_true, and_true, false_or,
      not_and_or, not_forall, exists_prop]

def pairKey : AggregationKey scalarCurve :=
  ⟨4, [1, 1, 0, 0], [scalarCurve.g, scalarCurve.g + scalarCurve.g, 0, 0], [0, 0, 0, 0],
    [0, 0, 0, 0], [0, 0, 0, 0]⟩

/-- Two signatures off by opposite errors have the right sum, and pass for one scalar at
most. -/
theorem partial_verify_batch_agrees_offsetting :
    (∀ msg, ∃ H, hashToG2 scalarCurve msg = .ok H) ∧
      partialVerify [] pairKey 0 (4 : Fr) = .ok false ∧
      partialVerifyBatch [] pairKey [0, 1] [(4 : Fr), (-1 : Fr)] 1 = .ok true ∧
      {r | partialVerifyBatch [] pairKey [0, 1] [(4 : Fr), (-1 : Fr)] r = .ok true}.ncard ≤ 1 := by
  have hhash : ∀ msg, ∃ H, hashToG2 scalarCurve msg = .ok H := fun _ ↦ ⟨(1 : Fr), rfl⟩
  refine ⟨hhash, by decide +kernel, by decide +kernel, ?_⟩
  exact ((partial_verify_batch_agrees hhash [] pairKey [0, 1] [(4 : Fr), (-1 : Fr)]).1 rfl
    (by decide) (by decide)).2 ⟨(0, (4 : Fr)), List.mem_cons_self, by decide +kernel⟩

end HieroCryptography.Hints
