import HieroCryptography.Hints.BridgeArrays
import HieroCryptography.Hints.BridgeCeremony

namespace HieroCryptography.Hints

open Foundation Rust Kzg

variable {E : Curve}

namespace PointCodec

variable (P : PointCodec E)

def publicKeyOf (row : Registration) : Option E.G1 :=
  (P.extendedPublicKey.decode row.hintsPublicKey).map (·.pkI)

/-- The point at which the verifier of an aggregate signature has the polynomials opened. -/
def evaluationPoint (verificationKey signature : Bytes) : Option Fr := do
  let vk ← P.verificationKey.decode verificationKey
  let π ← P.thresholdSignature.decode signature
  let (_, r, _) ← (deriveChallenges vk π).toOption
  some r

section Session

variable {crs : CRS E} {k d : ℕ} {τ : Fr} {n : Int32} {rows : List Registration}

theorem asUsize_of_eq_two_pow (hk : k ≤ 6) (hn : n.toInt = 2 ^ k) : asUsize n.toInt = 2 ^ k := by
  have hle : 2 ^ k ≤ 2 ^ 6 := Nat.pow_le_pow_right two_pos hk
  have hcast : n.toInt = ((2 ^ k : ℕ) : ℤ) := by rw [hn]; norm_cast
  rw [hcast, asUsize_of_nonneg (Int.natCast_nonneg _) (by omega), Int.toNat_natCast]

theorem exists_setting (hk : 1 ≤ k) (hk' : k ≤ 6) (hcrs : WellFormed crs τ)
    (hlen : 2 ^ k < crs.powersOfG.length) (hlen' : 2 ^ k < crs.powersOfH.length) :
    Nonempty (Setting crs (2 ^ k) τ) := by
  have hvalid : Utils.isNValid (2 ^ k) = true := Utils.isNValid_iff.mpr ⟨k, hk, rfl⟩
  have hle : 2 ^ k ≤ 2 ^ 6 := Nat.pow_le_pow_right two_pos hk'
  obtain ⟨U⟩ := Universe.nonempty hvalid (by omega)
  exact ⟨⟨U, hcrs, crsSupports_iff.mpr ⟨hlen, hlen'⟩⟩⟩

theorem validateCrs_write (hk : k ≤ 6) (hn : n.toInt = 2 ^ k)
    (hlen : 2 ^ k < crs.powersOfG.length) (hlen' : 2 ^ k < crs.powersOfH.length) :
    validateCrs (some (P.crs.write crs)) n = true := by
  refine validateCrs_iff.mpr ⟨k, by omega, hn, ?_⟩
  rw [P.length_write_crs]
  omega

theorem slot_lt {partyId : Int32} (hn : n.toInt = 2 ^ k)
    (h : validatePartyId partyId.toInt n.toInt = true) : slot partyId < 2 ^ k - 1 := by
  obtain ⟨-, hpos, hlt⟩ := validatePartyId_iff.mp h
  have hcast : n.toInt = ((2 ^ k : ℕ) : ℤ) := by rw [hn]; norm_cast
  have := partyId.toInt_lt
  rw [slot, asUsize_of_nonneg hpos (by omega)]
  omega

theorem exists_hints (hk : k ≤ 6) (hn : n.toInt = 2 ^ k) (hfits : Fits crs)
    (hhints : ∀ r ∈ rows, P.validateHintsKey (some (P.crs.write crs)) (some r.hintsPublicKey)
      r.partyId n = true) :
    ∃ epk : Registration → ExtendedPublicKey E, ∀ r ∈ rows,
      P.extendedPublicKey.decode r.hintsPublicKey = some (epk r) ∧
      verifyHint crs (2 ^ k) (slot r.partyId) (epk r) = .ok true := by
  have hex (r : Registration) (hr : r ∈ rows) : ∃ hint,
      P.extendedPublicKey.decode r.hintsPublicKey = some hint ∧
        verifyHint crs (2 ^ k) (slot r.partyId) hint = .ok true := by
    obtain ⟨-, -, c, hint, hc, hhint, hver⟩ := validateHintsKey_eq_true_iff.mp (hhints r hr)
    obtain rfl := Option.some.inj (hc.symm.trans (P.decode_write_crs hfits))
    rw [asUsize_of_eq_two_pow hk hn] at hver
    exact ⟨hint, hhint, hver⟩
  choose! epk hepk using hex
  exact ⟨epk, hepk⟩

theorem mem_of_get_signerInfo {epk : Registration → ExtendedPublicKey E} {i : ℕ}
    {v : Fr × ExtendedPublicKey E}
    (h : (signerInfo (rows.map fun r ↦ (slot r.partyId, r.weight, epk r))).get i = some v) :
    ∃ r ∈ rows, slot r.partyId = i ∧ v.2 = epk r := by
  rw [get_signerInfo, Option.map_eq_some_iff] at h
  obtain ⟨u, hu, rfl⟩ := h
  obtain ⟨r, hr, he⟩ := List.mem_map.mp (List.mem_reverse.mp (HashMap.mem_of_lookup hu))
  obtain ⟨rfl, rfl⟩ := Prod.mk.inj he
  exact ⟨r, hr, rfl, rfl⟩

theorem get_signerInfo_of_mem (hnodup : (rows.map (·.partyId)).Nodup)
    (epk : Registration → ExtendedPublicKey E) {r : Registration} (hr : r ∈ rows) :
    (signerInfo (rows.map fun r ↦ (slot r.partyId, r.weight, epk r))).get (slot r.partyId) =
      some (longToFr r.weight, epk r) := by
  have hentry : (slot r.partyId, r.weight, epk r) ∈
      (rows.map fun r ↦ (slot r.partyId, r.weight, epk r)).reverse :=
    List.mem_reverse.mpr (List.mem_map_of_mem hr)
  have hkeys : ((rows.map fun r ↦ (slot r.partyId, r.weight, epk r)).reverse.map
      Prod.fst).Nodup := by
    rw [List.map_reverse, List.nodup_reverse, List.map_map]
    exact nodup_slots hnodup
  rw [get_signerInfo, HashMap.lookup_of_mem hkeys hentry]
  rfl

theorem rows_length_lt (hnodup : (rows.map (·.partyId)).Nodup)
    (h : ∀ r ∈ rows, slot r.partyId < 2 ^ k - 1) : rows.length < 2 ^ k := by
  have hsub : (rows.map fun r ↦ slot r.partyId) ⊆ List.range (2 ^ k - 1) := by
    intro i hi
    obtain ⟨r, hr, rfl⟩ := List.mem_map.mp hi
    exact List.mem_range.mpr (h r hr)
  have hle := ((nodup_slots hnodup).subperm hsub).length_le
  rw [List.length_map, List.length_range] at hle
  have := Nat.two_pow_pos k
  omega

variable (S : Setting crs (2 ^ k) τ) (w s : ℕ → Fr)

theorem reads_verificationKey (hk : k ≤ 6) :
    P.verificationKey.Reads (S.verificationKey w s) := by
  have hle : 2 ^ k ≤ 2 ^ 6 := Nat.pow_le_pow_right two_pos hk
  exact P.verificationKey_reads (show 2 ^ k < 2 ^ 64 by omega)

theorem decode_verificationKey (hk : k ≤ 6) :
    P.verificationKey.decode (P.verificationKey.write (S.verificationKey w s)) =
      some (S.verificationKey w s) :=
  (P.reads_verificationKey S w s hk).decode_write

theorem decode_aggregationKey (hk : k ≤ 6) :
    P.aggregationKey.decode (P.aggregationKey.write (S.aggregationKey w s)) =
      some (S.aggregationKey w s) := by
  have hle : 2 ^ k ≤ 2 ^ 6 := Nat.pow_le_pow_right two_pos hk
  have hn : (S.aggregationKey w s).n = 2 ^ k := rfl
  have hwf : aggregationKeyIsWellFormed (S.aggregationKey w s) = true := by
    simp [aggregationKeyIsWellFormed_iff, Setting.aggregationKey]
  exact (P.aggregationKey_reads hwf (by omega)).decode_write

theorem verifyBls_aggregationKey_iff (hk : k ≤ 6) {signature message : Bytes} {partyId : Int32} :
    P.verifyBls (some signature) (some message)
        (some (P.aggregationKey.write (S.aggregationKey w s))) partyId = true ↔
      signature ≠ [] ∧ message ≠ [] ∧
      minAggregationKeySize ≤ (P.aggregationKey.write (S.aggregationKey w s)).length ∧
      0 ≤ partyId.toInt ∧ partyId.toInt < maxSignersNum ∧
      slot partyId < 2 ^ k - 1 ∧ s (slot partyId) ≠ 0 ∧
      ∃ H, hashToG2 E message = .ok H ∧ H ≠ 0 ∧
        P.g2.decode signature = some (s (slot partyId) • H) := by
  rw [verifyBls_eq_true_iff]
  rw [P.decode_aggregationKey S w s hk]
  refine and_congr_right fun _ ↦ and_congr_right fun _ ↦ and_congr_right fun _ ↦
    and_congr_right fun _ ↦ and_congr_right fun _ ↦ ⟨?_, ?_⟩
  · rintro ⟨_, σ, heq, hσ, hver⟩
    obtain rfl := Option.some.inj heq
    obtain ⟨hlt, hs, hσ0, H, hH, rfl⟩ := Setting.partialVerify_ok_true_iff.mp hver
    refine ⟨hlt, hs, H, hH, fun h0 ↦ hσ0 ?_, hσ⟩
    rw [h0, smul_zero]
  · rintro ⟨hlt, hs, H, hH, hH0, hσ⟩
    exact ⟨_, _, rfl, hσ, Setting.partialVerify_ok_true_iff.mpr
      ⟨hlt, hs, smul_ne_zero hs hH0, H, hH, rfl⟩⟩

theorem preprocessRows_ok (hk : k ≤ 6) (hfits : Fits crs) (hlen : 2 ^ k < crs.powersOfG.length)
    (hlen' : 2 ^ k < crs.powersOfH.length) (hn : n.toInt = 2 ^ k)
    (hnodup : (rows.map (·.partyId)).Nodup)
    (hweights : acceptsWeights (rows.map (·.weight)) = true)
    (hids : ∀ r ∈ rows, validatePartyId r.partyId.toInt n.toInt = true)
    {epk : Registration → ExtendedPublicKey E}
    (hepk : ∀ r ∈ rows, P.extendedPublicKey.decode r.hintsPublicKey = some (epk r) ∧
      verifyHint crs (2 ^ k) (slot r.partyId) (epk r) = .ok true) :
    ∃ w s, Setting.Registered
        (signerInfo (rows.map fun r ↦ (slot r.partyId, r.weight, epk r))) (2 ^ k) w s ∧
      P.preprocessRows (P.crs.write crs) rows n =
        some (P.verificationKey.write (S.verificationKey w s),
          P.aggregationKey.write (S.aggregationKey w s)) := by
  set entries := rows.map fun r ↦ (slot r.partyId, r.weight, epk r) with hentries
  obtain ⟨vk, ak, hpre⟩ := S.preprocess_ok (signerInfo entries) fun i v hv ↦ by
    obtain ⟨r, hr, rfl, hown⟩ := mem_of_get_signerInfo hv
    rw [hown]
    exact ⟨slot_lt hn (hids r hr), (hepk r hr).2⟩
  obtain ⟨w, s, hreg, rfl, rfl⟩ := S.preprocess_spec hpre
  refine ⟨w, s, hreg, preprocessRows_eq_some_iff.mpr ⟨P.validateCrs_write hk hn hlen hlen',
    hweights, ?_, hids, crs, epk, _, _, P.decode_write_crs hfits, fun r hr ↦ (hepk r hr).1, ?_,
    rfl⟩⟩
  · have hcast : n.toInt = ((2 ^ k : ℕ) : ℤ) := by rw [hn]; norm_cast
    rw [hcast]
    exact_mod_cast rows_length_lt hnodup fun r hr ↦ slot_lt hn (hids r hr)
  · rw [asUsize_of_eq_two_pow hk hn]
    exact hpre

variable {w s} {epk : Registration → ExtendedPublicKey E}

theorem verificationKey_length (hk : k ≤ 6) :
    (P.verificationKey.write (S.verificationKey w s)).length = tssVerificationKeyLengthBytes :=
  P.verificationKey_takes.length_write (P.reads_verificationKey S w s hk)

theorem registered_weights (hnodup : (rows.map (·.partyId)).Nodup)
    (hids : ∀ r ∈ rows, slot r.partyId < 2 ^ k)
    (hreg : Setting.Registered
      (signerInfo (rows.map fun r ↦ (slot r.partyId, r.weight, epk r))) (2 ^ k) w s)
    {shares : List Share} {σ : Share → E.G2} {keys : List ℕ}
    (hkeys : keys = (partialSignatureMap (shares.map fun s ↦ (slot s.partyId, σ s))).keys)
    (hlt : ∀ i ∈ keys, i < 2 ^ k) :
    ∑ i ∈ Finset.range (2 ^ k), w i = (((rows.map (·.weight.toInt)).sum : ℤ) : Fr) ∧
    (keys.map w).sum = ((((signedRows rows shares).map (·.weight.toInt)).sum : ℤ) : Fr) := by
  set entries := rows.map fun r ↦ (slot r.partyId, r.weight, epk r) with hentries
  have hw (i : ℕ) (hi : i < 2 ^ k) : w i = (weightOf entries i : Fr) := by
    rw [← hreg.weight hi, registeredWeight_signerInfo]
  constructor
  · rw [Finset.sum_congr rfl fun i hi ↦ hw i (Finset.mem_range.mp hi), ← Int.cast_sum]
    congr 1
    have hsum := sum_rows (nodup_slots hnodup) (fun r ↦ (r.weight, epk r)) (fun v ↦ v.1.toInt)
      (Finset.range (2 ^ k))
    rw [List.filter_eq_self.mpr fun r hr ↦ decide_eq_true (Finset.mem_range.mpr (hids r hr))]
      at hsum
    exact hsum
  · have hmap : keys.map w = (keys.map (weightOf entries)).map (Int.cast : ℤ → Fr) := by
      rw [List.map_map]
      exact List.map_congr_left fun i hi ↦ hw i (hlt i hi)
    have hsum := sum_signers σ hnodup shares (fun r ↦ (r.weight, epk r))
      (fun v ↦ v.1.toInt)
    rw [hmap, ← Int.cast_list_sum, hkeys]
    exact congrArg Int.cast hsum

theorem registered_keys (hnodup : (rows.map (·.partyId)).Nodup) {shares : List Share}
    (hepk : ∀ r ∈ rows, P.extendedPublicKey.decode r.hintsPublicKey = some (epk r))
    {σ : Share → E.G2} :
    ((partialSignatureMap (shares.map fun s ↦ (slot s.partyId, σ s))).keys.map (registeredKey
      (signerInfo (rows.map fun r ↦ (slot r.partyId, r.weight, epk r))))).sum =
      ((signedRows rows shares).filterMap P.publicKeyOf).sum := by
  have hkey (i : ℕ) : registeredKey
      (signerInfo (rows.map fun r ↦ (slot r.partyId, r.weight, epk r))) i =
      ((rows.map fun r ↦ (slot r.partyId, r.weight, epk r)).reverse.lookup i).elim 0
        fun v ↦ v.2.pkI := by
    rw [registeredKey, get_signerInfo]
    cases (rows.map fun r ↦ (slot r.partyId, r.weight, epk r)).reverse.lookup i <;> rfl
  have hpks : (signedRows rows shares).filterMap P.publicKeyOf =
      (signedRows rows shares).map fun r ↦ (epk r).pkI := by
    rw [← List.filterMap_eq_map]
    refine List.filterMap_congr fun r hr ↦ ?_
    rw [publicKeyOf, hepk r (List.mem_of_mem_filter hr)]
    rfl
  rw [List.map_congr_left fun i _ ↦ hkey i, hpks]
  exact sum_signers σ hnodup shares (fun r ↦ (r.weight, epk r)) fun v ↦ v.2.pkI

theorem mem_rows_of_ne_zero (hreg : Setting.Registered
      (signerInfo (rows.map fun r ↦ (slot r.partyId, r.weight, epk r))) (2 ^ k) w s)
    {partyId : Int32} (hlt : slot partyId < 2 ^ k) (hs : s (slot partyId) ≠ 0) :
    partyId ∈ rows.map (·.partyId) := by
  cases hget : (signerInfo (rows.map fun r ↦ (slot r.partyId, r.weight, epk r))).get
      (slot partyId) with
  | none => exact absurd (hreg.absent _ hlt hget).2 hs
  | some v =>
    obtain ⟨r, hr, heq, -⟩ := mem_of_get_signerInfo hget
    exact List.mem_map.mpr ⟨r, hr, slot_injective heq⟩

theorem evaluationPoint_of_challenges (hk : k ≤ 6) {π : ThresholdSignature E} {χq r χop : Fr}
    (h : deriveChallenges (S.verificationKey w s) π = .ok (χq, r, χop)) :
    P.evaluationPoint (P.verificationKey.write (S.verificationKey w s))
      (P.thresholdSignature.write π) = some r := by
  rw [evaluationPoint, P.decode_verificationKey S w s hk, Option.bind_eq_bind, Option.bind_some,
    (P.thresholdSignature_reads π).decode_write, Option.bind_eq_bind, Option.bind_some, h]
  rfl

theorem sum_weights_bounds (hweights : acceptsWeights (rows.map (·.weight)) = true)
    {rows' : List Registration} (h : rows'.Sublist rows) :
    0 ≤ (rows'.map (·.weight.toInt)).sum ∧ (rows'.map (·.weight.toInt)).sum < 2 ^ 63 := by
  obtain ⟨hpos, hsum⟩ := acceptsWeights_bounds hweights
  rw [List.map_map] at hsum
  have hpos' : ∀ x ∈ rows.map (·.weight.toInt), 0 ≤ x := by
    intro x hx
    obtain ⟨r, hr, rfl⟩ := List.mem_map.mp hx
    exact hpos _ (List.mem_map_of_mem hr)
  have hsub := h.map (·.weight.toInt)
  exact ⟨List.sum_nonneg fun x hx ↦ hpos' x (hsub.subset hx),
    (hsub.sum_le_sum hpos').trans_lt hsum⟩

theorem gt_weights_iff (hweights : acceptsWeights (rows.map (·.weight)) = true)
    {rows' : List Registration} (h : rows'.Sublist rows) {num den : Int64} (hnum : 0 < num)
    (hden : 0 < den) :
    (longToFr den * (((rows'.map (·.weight.toInt)).sum : ℤ) : Fr)).gt
        (longToFr num * (((rows.map (·.weight.toInt)).sum : ℤ) : Fr)) = true ↔
      num.toInt * (rows.map (·.weight.toInt)).sum <
        den.toInt * (rows'.map (·.weight.toInt)).sum := by
  rw [Int64.lt_iff_toInt_lt] at hnum hden
  exact gt_mul_iff ⟨hden.le, den.toInt_lt⟩ (sum_weights_bounds hweights h)
    ⟨hnum.le, num.toInt_lt⟩ (sum_weights_bounds hweights (List.Sublist.refl _))

theorem get_partialSignatureMap_smul {H : E.G2} {shares : List Share} {i : ℕ} {ρ : E.G2}
    (h : (partialSignatureMap (shares.map fun sh ↦ (slot sh.partyId, s (slot sh.partyId) • H))).get
      i = some ρ) : ρ = s i • H := by
  rw [get_partialSignatureMap] at h
  obtain ⟨sh, -, he⟩ := List.mem_map.mp (List.mem_reverse.mp (HashMap.mem_of_lookup h))
  obtain ⟨rfl, rfl⟩ := Prod.mk.inj he
  rfl

theorem verifyAggregate_shares_iff (hk : k ≤ 6) (hnodup : (rows.map (·.partyId)).Nodup)
    (hslots : ∀ r ∈ rows, slot r.partyId < 2 ^ k - 1)
    (hweights : acceptsWeights (rows.map (·.weight)) = true)
    (hepk : ∀ r ∈ rows, P.extendedPublicKey.decode r.hintsPublicKey = some (epk r))
    (hreg : Setting.Registered
      (signerInfo (rows.map fun r ↦ (slot r.partyId, r.weight, epk r))) (2 ^ k) w s)
    {message : Bytes} (hmsg : message ≠ []) {H : E.G2} (hH : hashToG2 E message = .ok H)
    (hH0 : H ≠ 0) {shares : List Share} {m : HashMap E.G2}
    (hm : m = partialSignatureMap (shares.map fun sh ↦ (slot sh.partyId, s (slot sh.partyId) • H)))
    (hkeys : ∀ i ∈ m.keys, i < 2 ^ k) {r : Fr} {π : ThresholdSignature E}
    (hπ : Setting.Aggregated S w s m.keys ((1 / (2 ^ k : ℕ) : Fr) • m.values.sum) r π)
    (num den : Int64) :
    P.verifyAggregate (some (P.thresholdSignature.write π)) (some message)
        (some (P.verificationKey.write (S.verificationKey w s))) num den = true ↔
      0 < num ∧ 0 < den ∧
      num.toInt * (rows.map (·.weight.toInt)).sum <
        den.toInt * ((signedRows rows shares).map (·.weight.toInt)).sum ∧
      ((signedRows rows shares).filterMap P.publicKeyOf).sum ≠ 0 ∧ r ^ 2 ^ k ≠ 1 := by
  have hπReads := P.thresholdSignature_reads π
  have hπLen := P.thresholdSignature_takes.length_write hπReads
  have hget (i : ℕ) (ρ : E.G2) (h : m.get i = some ρ) : ρ = s i • H := by
    rw [hm] at h
    exact get_partialSignatureMap_smul h
  have hsum := Setting.values_sum_eq hget
  obtain ⟨htotal, hsigned⟩ := registered_weights hnodup
    (fun r hr ↦ (hslots r hr).trans_le (Nat.sub_le _ _)) hreg (congrArg HashMap.keys hm) hkeys
  have hkey : (m.keys.map s).sum = 0 ↔
      ((signedRows rows shares).filterMap P.publicKeyOf).sum = 0 := by
    rw [← P.registered_keys hnodup hepk, ← hm, hreg.sum_key hkeys, E.smul_g_eq_zero]
  have hgt (hnum : 0 < num) (hden : 0 < den) :
      (longToFr den * π.aggWeight).gt (longToFr num * (S.verificationKey w s).totalWeight) = true ↔
        num.toInt * (rows.map (·.weight.toInt)).sum <
          den.toInt * ((signedRows rows shares).map (·.weight.toInt)).sum := by
    have hvkTotal : (S.verificationKey w s).totalWeight = ∑ i ∈ Finset.range (2 ^ k), w i := rfl
    rw [hπ.aggWeight, hsigned, hvkTotal, htotal]
    exact gt_weights_iff hweights List.filter_sublist hnum hden
  rw [verifyAggregate_eq_true_iff, hπReads.decode_write, P.decode_verificationKey S w s hk]
  constructor
  · rintro ⟨-, -, -, hnum, hden, _, _, hπeq, hvkeq, hver⟩
    obtain rfl := Option.some.inj hπeq
    obtain rfl := Option.some.inj hvkeq
    obtain ⟨hpass, hkey0, hr, -⟩ := hπ.verify_iff_sum.mp hver
    exact ⟨hnum, hden, (hgt hnum hden).mp hpass, fun h0 ↦ hkey0 (hkey.mpr h0), hr⟩
  · rintro ⟨hnum, hden, hpass, hkey0, hr⟩
    have hkey0' : (m.keys.map s).sum ≠ 0 := fun h0 ↦ hkey0 (hkey.mp h0)
    refine ⟨hπLen, hmsg, P.verificationKey_length S hk, hnum, hden, _, _, rfl, rfl,
      hπ.verify_iff_sum.mpr ⟨(hgt hnum hden).mpr hpass, hkey0', hr, ?_, H, hH, hsum⟩⟩
    rw [hsum]
    exact smul_ne_zero hkey0' hH0

theorem keygen_ok (E : Curve) (seed : Bytes) : ∃ sk, keygen E seed = .ok sk ∧
    verifyProofOfKnowledge sk.pop (sk.secret • E.g) = .ok true := by
  rcases h₁ : E.fillBytes (E.fromSeed seed) 32 with ⟨secretSeed, rng⟩
  rcases h₂ : E.fillBytes rng 32 with ⟨proofSeed, rng'⟩
  obtain ⟨pop, hgen, hver⟩ :=
    generateProofOfKnowledge_ok E (E.randFr (E.fromSeed secretSeed)).1 proofSeed
  exact ⟨⟨_, pop⟩, by simp only [keygen, h₁, h₂, hgen, ok_bind], hver⟩

theorem aggregationKey_size :
    minAggregationKeySize ≤ (P.aggregationKey.write (S.aggregationKey w s)).length := by
  have hwf : aggregationKeyIsWellFormed (S.aggregationKey w s) = true := by
    simp [aggregationKeyIsWellFormed_iff, Setting.aggregationKey]
  have hn : (S.aggregationKey w s).n = 2 ^ k := rfl
  have := Nat.two_pow_pos k
  rw [P.length_write_aggregationKey hwf, hn, minAggregationKeySize]
  omega

theorem decode_hint (hk : k ≤ 6) {i : ℕ} (hi : i < 2 ^ k) {x : Fr} {hint : ExtendedPublicKey E}
    (hhint : S.HonestHint i x hint) :
    P.extendedPublicKey.decode (P.extendedPublicKey.write hint) = some hint := by
  have hle : 2 ^ k ≤ 2 ^ 6 := Nat.pow_le_pow_right two_pos hk
  refine (P.extendedPublicKey_reads ?_ ?_ ?_).decode_write
  · rw [hhint.index]
    omega
  · rw [hhint.size]
    omega
  · rw [hhint.qz, List.length_map, List.length_range]
    omega

theorem honest_share_accepted (hk : k ≤ 6) (hfits : Fits crs) (hn : n.toInt = 2 ^ k)
    {sk : SecretKey E} {hint : ExtendedPublicKey E} {partyId : Int32}
    (hid : validatePartyId partyId.toInt n.toInt = true)
    (hhint : S.HonestHint (slot partyId) sk.secret hint)
    (hdecode : P.extendedPublicKey.decode (P.extendedPublicKey.write hint) = some hint)
    {vk ak : Bytes} {weight : Int64}
    (hrows : P.preprocessRows (P.crs.write crs) rows n = some (vk, ak))
    (hnodup : (rows.map (·.partyId)).Nodup)
    (hmem : ⟨partyId, P.extendedPublicKey.write hint, weight⟩ ∈ rows) {message : Bytes} {H : E.G2}
    (hmsg : message ≠ []) (hH : hashToG2 E message = .ok H) (hH0 : H ≠ 0) :
    ∃ σ, P.signBls (some message) (some (P.secretKey.write sk)) = some σ ∧
      P.verifyBls (some σ) (some message) (some ak) partyId = true := by
  obtain ⟨-, -, -, -, c, epk, vk', ak', hc, hepk, hpre, hout⟩ :=
    preprocessRows_eq_some_iff.mp hrows
  obtain rfl := Option.some.inj (hc.symm.trans (P.decode_write_crs hfits))
  rw [asUsize_of_eq_two_pow hk hn] at hpre
  obtain ⟨w, s, hreg, rfl, rfl⟩ := S.preprocess_spec hpre
  obtain ⟨-, rfl⟩ := Prod.mk.inj hout
  have hown : epk ⟨partyId, P.extendedPublicKey.write hint, weight⟩ = hint :=
    Option.some.inj ((hepk _ hmem).symm.trans hdecode)
  have hget := get_signerInfo_of_mem hnodup epk hmem
  rw [hown] at hget
  obtain ⟨-, -, hpk, hs0⟩ := hreg.present _ _ _ hget
  have hs : s (slot partyId) = sk.secret := E.smul_g_inj.mp (hpk.symm.trans hhint.pk)
  have hsign : sign message sk = .ok (sk.secret • H) := by rw [sign, hH, ok_bind]
  have hσ := P.reads_g2 (sk.secret • H)
  have hsk := P.secretKey_reads sk
  have hslot := slot_lt hn hid
  obtain ⟨hn64, hpos, hlt⟩ := validatePartyId_iff.mp hid
  refine ⟨P.g2.write (sk.secret • H), signBls_eq_some_iff.mpr ⟨hmsg,
    P.secretKey_takes.write_ne_nil (by decide) hsk, sk, _, hsk.decode_write, hsign, rfl⟩,
    (P.verifyBls_aggregationKey_iff S w s hk).mpr ⟨P.g2_takes.write_ne_nil (by decide) hσ, hmsg,
      P.aggregationKey_size S, hpos, ?_, hslot, hs0, H, hH, hH0, hs ▸ hσ.decode_write⟩⟩
  rw [maxSignersNum]
  omega

/-- What the keys of a session are good for, whatever shares they are shown. -/
structure SessionKeys (crs : Bytes) (rows : List Registration) (k : ℕ) (vk ak : Bytes) : Prop where
  length : vk.length = tssVerificationKeyLengthBytes
  aggregates : ∀ message shares, shares ≠ [] →
    (∀ s ∈ shares, P.verifyBls (some s.partialSignature) (some message) (some ak)
      s.partyId = true) →
    (∀ s ∈ shares, s.partyId ∈ rows.map (·.partyId)) ∧
    ∃ π, P.aggregateShares crs ak vk shares = some π ∧
      π.length = aggregateSignatureLengthBytes ∧
      ∀ num den, P.verifyAggregate (some π) (some message) (some vk) num den = true ↔
        0 < num ∧ 0 < den ∧
        num.toInt * (rows.map (·.weight.toInt)).sum <
          den.toInt * ((signedRows rows shares).map (·.weight.toInt)).sum ∧
        ((signedRows rows shares).filterMap P.publicKeyOf).sum ≠ 0 ∧
        ∃ r, P.evaluationPoint vk π = some r ∧ r ^ 2 ^ k ≠ 1

theorem shares_of_verifyBls (hk : k ≤ 6) {message : Bytes} {shares : List Share}
    (hne : shares ≠ [])
    (hver : ∀ sh ∈ shares, P.verifyBls (some sh.partialSignature) (some message)
      (some (P.aggregationKey.write (S.aggregationKey w s))) sh.partyId = true) :
    message ≠ [] ∧ ∃ H, hashToG2 E message = .ok H ∧ H ≠ 0 ∧ ∀ sh ∈ shares,
      sh.partialSignature ≠ [] ∧ 0 ≤ sh.partyId.toInt ∧ slot sh.partyId < 2 ^ k - 1 ∧
      s (slot sh.partyId) ≠ 0 ∧
      P.g2.decode sh.partialSignature = some (s (slot sh.partyId) • H) := by
  simp only [P.verifyBls_aggregationKey_iff S w s hk] at hver
  obtain ⟨first, hfirst⟩ := List.exists_mem_of_ne_nil shares hne
  obtain ⟨-, hmsg, -, -, -, -, -, H, hH, hH0, -⟩ := hver first hfirst
  refine ⟨hmsg, H, hH, hH0, fun sh hsh ↦ ?_⟩
  obtain ⟨hsig, -, -, hpos, -, hlt, hs0, H', hH', -, hdecode⟩ := hver sh hsh
  -- all shares are over one message, so the point the first was checked against is everyone's
  obtain rfl : H = H' := Except.ok.inj (hH.symm.trans hH')
  exact ⟨hsig, hpos, hlt, hs0, hdecode⟩

theorem aggregateShares_ok (hk : k ≤ 6) (hfits : Fits crs) (hg : crs.powersOfG.length = d + 1)
    (hh : crs.powersOfH.length = d + 1) (hkd : 2 ^ k ≤ d) (hd : d ≤ 64)
    (hw : w (2 ^ k - 1) = 0) (hs : s (2 ^ k - 1) = 0) {H : E.G2} {shares : List Share}
    (hne : shares ≠ [])
    (hshares : ∀ sh ∈ shares, sh.partialSignature ≠ [] ∧ 0 ≤ sh.partyId.toInt ∧
      slot sh.partyId < 2 ^ k - 1 ∧ s (slot sh.partyId) ≠ 0 ∧
      P.g2.decode sh.partialSignature = some (s (slot sh.partyId) • H))
    {m : HashMap E.G2}
    (hm : m = partialSignatureMap (shares.map fun sh ↦ (slot sh.partyId, s (slot sh.partyId) • H)))
    (hkeys : ∀ i ∈ m.keys, i < 2 ^ k - 1) :
    ∃ π r, Setting.Aggregated S w s m.keys ((1 / (2 ^ k : ℕ) : Fr) • m.values.sum) r π ∧
      P.aggregateShares (P.crs.write crs) (P.aggregationKey.write (S.aggregationKey w s))
        (P.verificationKey.write (S.verificationKey w s)) shares =
        some (P.thresholdSignature.write π) := by
  obtain ⟨π, r, hagg, hπ⟩ := Setting.aggregate_ok S hw hs hkeys
  refine ⟨π, r, hπ, aggregateShares_eq_some_iff.mpr ⟨P.write_crs_ne_nil crs,
    P.aggregationKey_size S, ?_, hne, fun sh hsh ↦ (hshares sh hsh).1, fun sh hsh ↦ ?_, crs, _, _,
    _, π, P.decode_write_crs hfits, P.decode_aggregationKey S w s hk,
    P.decode_verificationKey S w s hk, fun sh hsh ↦ (hshares sh hsh).2.2.2.2, hm ▸ hagg, rfl⟩⟩
  · exact List.ne_nil_of_length_pos (by rw [P.verificationKey_length S hk]; decide)
  · obtain ⟨-, hpos, hlt, -⟩ := hshares sh hsh
    have := sh.partyId.toInt_lt
    rw [slot, asUsize_of_nonneg hpos (by omega)] at hlt
    rw [P.inferNFromCrsLength_write hg hh]
    exact validatePartyId_iff.mpr ⟨by omega, hpos, by omega⟩

theorem exists_sessionKeys (hk : 1 ≤ k) (hk' : k ≤ 6) (hcrs : WellFormed crs τ)
    (hg : crs.powersOfG.length = d + 1) (hh : crs.powersOfH.length = d + 1) (hkd : 2 ^ k ≤ d)
    (hd : d ≤ 64) (hn : n.toInt = 2 ^ k) (hnodup : (rows.map (·.partyId)).Nodup)
    (hweights : acceptsWeights (rows.map (·.weight)) = true)
    (hhints : ∀ r ∈ rows, P.validateHintsKey (some (P.crs.write crs)) (some r.hintsPublicKey)
      r.partyId n = true) :
    ∃ vk ak, P.preprocessRows (P.crs.write crs) rows n = some (vk, ak) ∧
      P.SessionKeys (P.crs.write crs) rows k vk ak := by
  have hfits : Fits crs := ⟨by omega, by omega⟩
  obtain ⟨S⟩ := exists_setting hk hk' hcrs (by omega) (by omega)
  have hids (r : Registration) (hr : r ∈ rows) : validatePartyId r.partyId.toInt n.toInt = true :=
    (validateHintsKey_eq_true_iff.mp (hhints r hr)).2.1
  obtain ⟨epk, hepk⟩ := P.exists_hints hk' hn hfits hhints
  obtain ⟨w, s, hreg, hpre⟩ := P.preprocessRows_ok S hk' hfits (by omega) (by omega) hn hnodup
    hweights hids hepk
  obtain ⟨hw, hs⟩ := hreg.reserved (Nat.two_pow_pos k)
  refine ⟨_, _, hpre, P.verificationKey_length S hk', fun message shares hne hver ↦ ?_⟩
  obtain ⟨hmsg, H, hH, hH0, hshares⟩ := P.shares_of_verifyBls S hk' hne hver
  set m := partialSignatureMap
    (shares.map fun sh ↦ (slot sh.partyId, s (slot sh.partyId) • H)) with hm
  have hkeys : ∀ i ∈ m.keys, i < 2 ^ k - 1 := by
    intro i hi
    rw [← List.mem_toFinset, hm, keys_partialSignatureMap, List.mem_toFinset, List.map_map] at hi
    obtain ⟨sh, hsh, rfl⟩ := List.mem_map.mp hi
    exact (hshares sh hsh).2.2.1
  obtain ⟨π, r, hπ, hagg⟩ :=
    P.aggregateShares_ok S hk' hfits hg hh hkd hd hw hs hne hshares hm hkeys
  obtain ⟨χq, χop, hchal, -⟩ := hπ.challenges
  refine ⟨fun sh hsh ↦ ?_, P.thresholdSignature.write π, hagg,
    P.thresholdSignature_takes.length_write (P.thresholdSignature_reads π), fun num den ↦ ?_⟩
  · obtain ⟨-, -, hlt, hs0, -⟩ := hshares sh hsh
    exact mem_rows_of_ne_zero hreg (by omega) hs0
  · rw [P.verifyAggregate_shares_iff S hk' hnodup (fun r hr ↦ slot_lt hn (hids r hr)) hweights
      (fun r hr ↦ (hepk r hr).1) hreg hmsg hH hH0 hm
      (fun i hi ↦ (hkeys i hi).trans_le (Nat.sub_le _ _)) hπ,
      P.evaluationPoint_of_challenges S hk' hchal]
    simp only [Option.some.injEq, exists_eq_left']

/-- A session held through the bridge over the string of a ceremony. The hints and the shares may
be any bytes, as long as each passed its check. The keys then come out, every such share comes from
a registered party, and the aggregate of any number of shares verifies exactly when the weights of
the signers exceed the threshold as integers, the signers' keys do not cancel and the evaluation
point is off the domain. -/
theorem session_through_bridge (hk : 1 ≤ k) (hk' : k ≤ 6) (hcrs : WellFormed crs τ)
    (hg : crs.powersOfG.length = d + 1) (hh : crs.powersOfH.length = d + 1) (hkd : 2 ^ k ≤ d)
    (hd : d ≤ 64) (hn : n.toInt = 2 ^ k) (hnodup : (rows.map (·.partyId)).Nodup)
    (hweights : acceptsWeights (rows.map (·.weight)) = true)
    (hhints : ∀ r ∈ rows, P.validateHintsKey (some (P.crs.write crs)) (some r.hintsPublicKey)
      r.partyId n = true) :
    ∃ vk ak, P.preprocessRows (P.crs.write crs) rows n = some (vk, ak) ∧
      vk.length = tssVerificationKeyLengthBytes ∧
      ∀ message shares, shares ≠ [] →
        (∀ s ∈ shares, P.verifyBls (some s.partialSignature) (some message) (some ak)
          s.partyId = true) →
        (∀ s ∈ shares, s.partyId ∈ rows.map (·.partyId)) ∧
        ∃ π, P.aggregateShares (P.crs.write crs) ak vk shares = some π ∧
          π.length = aggregateSignatureLengthBytes ∧
          ∀ num den, P.verifyAggregate (some π) (some message) (some vk) num den = true ↔
            0 < num ∧ 0 < den ∧
            num.toInt * (rows.map (·.weight.toInt)).sum <
              den.toInt * ((signedRows rows shares).map (·.weight.toInt)).sum ∧
            ((signedRows rows shares).filterMap P.publicKeyOf).sum ≠ 0 ∧
            ∃ r, P.evaluationPoint vk π = some r ∧ r ^ 2 ^ k ≠ 1 := by
  obtain ⟨vk, ak, hpre, h⟩ :=
    P.exists_sessionKeys hk hk' hcrs hg hh hkd hd hn hnodup hweights hhints
  exact ⟨vk, ak, hpre, h.length, h.aggregates⟩

def pairCrs : CRS wideCurve := powersOfTau wideCurve 4 (1 + 1)

theorem wellFormed_pairCrs : WellFormed pairCrs 2 := by
  rw [← one_add_one_eq_two]
  exact wellFormed_fromExponents_iff.mpr fun _ _ ↦ ⟨rfl, rfl⟩

theorem fits_pairCrs : Fits pairCrs := ⟨by decide, by decide⟩

theorem exists_pair_party (S : Setting pairCrs (2 ^ 2) 2) (partyId : Int32) (h : slot partyId < 2) :
    ∃ (sk : SecretKey wideCurve) (hint : ExtendedPublicKey wideCurve),
      sk.secret = slot partyId + 1 ∧ S.HonestHint (slot partyId) sk.secret hint ∧
      wideCodec.extendedPublicKey.decode (wideCodec.extendedPublicKey.write hint) = some hint ∧
      verifyHint pairCrs (2 ^ 2) (slot partyId) hint = .ok true := by
  have hkey : ((slot partyId : ℕ) : Fr) + 1 ≠ 0 := by
    generalize slot partyId = i at h ⊢
    interval_cases i <;> decide +kernel
  obtain ⟨pop, -, hpop⟩ := generateProofOfKnowledge_ok wideCurve (slot partyId + 1) []
  obtain ⟨hint, -, hh, hver⟩ := S.hintGen_verifies (i := slot partyId) (by omega)
    ⟨slot partyId + 1, pop⟩ hkey hpop (S.not_degenerate_four _)
  exact ⟨⟨slot partyId + 1, pop⟩, hint, rfl, hh, decode_hint wideCodec S (by decide) (by omega) hh,
    hver⟩

def pairRows (hint₀ hint₁ : ExtendedPublicKey wideCurve) : List Registration :=
  [⟨0, wideCodec.extendedPublicKey.write hint₀, 1⟩, ⟨1, wideCodec.extendedPublicKey.write hint₁, 2⟩]

theorem validateHintsKey_pair {hint : ExtendedPublicKey wideCurve} (partyId : Int32)
    (hid : validatePartyId partyId.toInt (4 : Int32).toInt = true)
    (hdecode : wideCodec.extendedPublicKey.decode (wideCodec.extendedPublicKey.write hint) =
      some hint) (hver : verifyHint pairCrs (2 ^ 2) (slot partyId) hint = .ok true) :
    wideCodec.validateHintsKey (some (wideCodec.crs.write pairCrs))
      (some (wideCodec.extendedPublicKey.write hint)) partyId 4 = true :=
  validateHintsKey_eq_true_iff.mpr ⟨by decide +kernel, hid, pairCrs, hint,
    wideCodec.decode_write_crs fits_pairCrs, hdecode, hver⟩

theorem exists_pair_rows (S : Setting pairCrs (2 ^ 2) 2) :
    ∃ (sk₀ sk₁ : SecretKey wideCurve) (hint₀ hint₁ : ExtendedPublicKey wideCurve),
      sk₀.secret = 1 ∧ sk₁.secret = 1 + 1 ∧ S.HonestHint (slot 0) sk₀.secret hint₀ ∧
      S.HonestHint (slot 1) sk₁.secret hint₁ ∧
      wideCodec.extendedPublicKey.decode (wideCodec.extendedPublicKey.write hint₀) = some hint₀ ∧
      wideCodec.extendedPublicKey.decode (wideCodec.extendedPublicKey.write hint₁) = some hint₁ ∧
      ∀ r ∈ pairRows hint₀ hint₁, wideCodec.validateHintsKey (some (wideCodec.crs.write pairCrs))
        (some r.hintsPublicKey) r.partyId 4 = true := by
  obtain ⟨sk₀, hint₀, hsk₀, hh₀, hdecode₀, hver₀⟩ := exists_pair_party S 0 (by decide)
  obtain ⟨sk₁, hint₁, hsk₁, hh₁, hdecode₁, hver₁⟩ := exists_pair_party S 1 (by decide)
  have hslot₀ : slot 0 = 0 := by decide
  have hslot₁ : slot 1 = 1 := by decide
  rw [hslot₀, Nat.cast_zero, zero_add] at hsk₀
  rw [hslot₁, Nat.cast_one] at hsk₁
  exact ⟨sk₀, sk₁, hint₀, hint₁, hsk₀, hsk₁, hh₀, hh₁, hdecode₀, hdecode₁,
    List.forall_mem_cons.mpr ⟨validateHintsKey_pair 0 rfl hdecode₀ hver₀,
      List.forall_mem_singleton.mpr (validateHintsKey_pair 1 rfl hdecode₁ hver₁)⟩⟩

theorem exists_pair_setting : Nonempty (Setting pairCrs (2 ^ 2) 2) :=
  exists_setting one_le_two (by decide) wellFormed_pairCrs (by decide) (by decide)

theorem pairRows_nodup (hint₀ hint₁ : ExtendedPublicKey wideCurve) :
    ((pairRows hint₀ hint₁).map (·.partyId)).Nodup := show [0, 1].Nodup by decide

theorem pairRows_weights (hint₀ hint₁ : ExtendedPublicKey wideCurve) :
    acceptsWeights ((pairRows hint₀ hint₁).map (·.weight)) = true :=
  show acceptsWeights [1, 2] = true by decide

theorem exists_pair_session : ∃ hint₀ hint₁ vk ak σ₀ σ₁,
    (∀ r ∈ pairRows hint₀ hint₁, wideCodec.validateHintsKey (some (wideCodec.crs.write pairCrs))
      (some r.hintsPublicKey) r.partyId 4 = true) ∧
    wideCodec.preprocessRows (wideCodec.crs.write pairCrs) (pairRows hint₀ hint₁) 4 =
      some (vk, ak) ∧ vk.length = tssVerificationKeyLengthBytes ∧
    wideCodec.verifyBls (some σ₀) (some [1]) (some ak) 0 = true ∧
    wideCodec.verifyBls (some σ₁) (some [1]) (some ak) 1 = true ∧
    ((pairRows hint₀ hint₁).filterMap wideCodec.publicKeyOf).sum ≠ 0 := by
  obtain ⟨S⟩ := exists_pair_setting
  obtain ⟨sk₀, sk₁, hint₀, hint₁, hsk₀, hsk₁, hh₀, hh₁, hdecode₀, hdecode₁, hvalid⟩ :=
    exists_pair_rows S
  have hnodup := pairRows_nodup hint₀ hint₁
  obtain ⟨vk, ak, hpre, hsession⟩ := wideCodec.exists_sessionKeys one_le_two (by decide)
    wellFormed_pairCrs rfl rfl le_rfl (by decide) (show (4 : Int32).toInt = 2 ^ 2 from rfl) hnodup
    (pairRows_weights _ _) hvalid
  have hmsg : ([1] : Bytes) ≠ [] := by decide
  have hH : hashToG2 wideCurve [1] = .ok wideCurve.h := rfl
  obtain ⟨σ₀, -, hσ₀⟩ := wideCodec.honest_share_accepted S (by decide) fits_pairCrs rfl (by decide)
    hh₀ hdecode₀ hpre hnodup List.mem_cons_self hmsg hH wideCurve.h_ne_zero
  obtain ⟨σ₁, -, hσ₁⟩ := wideCodec.honest_share_accepted S (by decide) fits_pairCrs rfl (by decide)
    hh₁ hdecode₁ hpre hnodup (List.mem_cons_of_mem _ (List.mem_singleton_self _)) hmsg hH
    wideCurve.h_ne_zero
  refine ⟨hint₀, hint₁, vk, ak, σ₀, σ₁, hvalid, hpre, hsession.length, hσ₀, hσ₁, ?_⟩
  have hkey : (1 + (1 + 1) : Fr) ≠ 0 := by decide +kernel
  have hpks : (pairRows hint₀ hint₁).filterMap wideCodec.publicKeyOf = [hint₀.pkI, hint₁.pkI] := by
    simp only [pairRows, List.filterMap_cons, List.filterMap_nil, publicKeyOf, hdecode₀, hdecode₁,
      Option.map_some]
  rw [hpks, List.sum_cons, List.sum_singleton, hh₀.pk, hh₁.pk, hsk₀, hsk₁, ← add_smul]
  exact smul_ne_zero hkey wideCurve.g_ne_zero

/-- The toy curve hashes everything to zero. -/
theorem evaluationPoint_wide {crs ak vk π : Bytes} {shares : List Share}
    (h : wideCodec.aggregateShares crs ak vk shares = some π) :
    wideCodec.evaluationPoint vk π = some 0 := by
  obtain ⟨-, -, -, -, -, -, _, _, _, _, π', -, -, hvk, -, -, rfl⟩ :=
    aggregateShares_eq_some_iff.mp h
  rw [evaluationPoint, hvk, Option.bind_eq_bind, Option.bind_some,
    (wideCodec.thresholdSignature_reads π').decode_write, Option.bind_eq_bind, Option.bind_some]
  rfl

/-- Two parties sign, in a universe with a third seat that nobody took. -/
theorem session_through_bridge_pair : ∃ hint₀ hint₁ vk ak σ₀ σ₁ π,
    wideCodec.preprocessRows (wideCodec.crs.write pairCrs) (pairRows hint₀ hint₁) 4 =
        some (vk, ak) ∧
      wideCodec.verifyBls (some σ₀) (some [1]) (some ak) 0 = true ∧
      wideCodec.verifyBls (some σ₁) (some [1]) (some ak) 1 = true ∧
      wideCodec.aggregateShares (wideCodec.crs.write pairCrs) ak vk [⟨0, σ₀⟩, ⟨1, σ₁⟩] = some π ∧
      wideCodec.verifyAggregate (some π) (some [1]) (some vk) 1 2 = true := by
  obtain ⟨hint₀, hint₁, vk, ak, σ₀, σ₁, hvalid, hpre, -, hσ₀, hσ₁, hkeys⟩ := exists_pair_session
  obtain ⟨vk', ak', hpre', -, hsession⟩ := wideCodec.session_through_bridge one_le_two (by decide)
    wellFormed_pairCrs rfl rfl le_rfl (by decide) (show (4 : Int32).toInt = 2 ^ 2 from rfl)
    (pairRows_nodup _ _) (pairRows_weights _ _) hvalid
  cases hpre.symm.trans hpre'
  obtain ⟨-, π, hagg, -, hiff⟩ := hsession [1] [⟨0, σ₀⟩, ⟨1, σ₁⟩] (List.cons_ne_nil _ _)
    (List.forall_mem_cons.mpr ⟨hσ₀, List.forall_mem_singleton.mpr hσ₁⟩)
  exact ⟨hint₀, hint₁, vk, ak, σ₀, σ₁, π, hpre, hσ₀, hσ₁, hagg, (hiff 1 2).mpr
    ⟨by decide, by decide, (by decide : (1 : ℤ) * (1 + 2) < 2 * (1 + 2)), hkeys, 0,
      evaluationPoint_wide hagg, by simp⟩⟩

/-- As long as no party is listed twice, neither the order in which the caller lists the parties nor
the order in which the native maps iterate matters: the same registrations give the same keys and
the same shares the same signature, byte for byte. -/
theorem rows_in_any_order (crs : Bytes) :
    (∀ n rows rows', rows.Perm rows' → (rows.map (·.partyId)).Nodup →
      P.preprocessRows crs rows n = P.preprocessRows crs rows' n) ∧
    ∀ ak vk shares shares', shares.Perm shares' → (shares.map (·.partyId)).Nodup →
      P.aggregateShares crs ak vk shares = P.aggregateShares crs ak vk shares' := by
  constructor
  · intro n rows rows' h hnodup
    have hnodup' := (h.map (·.partyId)).nodup_iff.mp hnodup
    exact Option.ext fun out ↦
      ⟨P.preprocessRows_of_perm h hnodup, P.preprocessRows_of_perm h.symm hnodup'⟩
  · intro ak vk shares shares' h hnodup
    have hnodup' := (h.map (·.partyId)).nodup_iff.mp hnodup
    exact Option.ext fun out ↦
      ⟨P.aggregateShares_of_perm h hnodup, P.aggregateShares_of_perm h.symm hnodup'⟩

theorem rows_in_any_order_swap : ∃ hint₀ hint₁ keys,
    wideCodec.preprocessRows (wideCodec.crs.write pairCrs) (pairRows hint₀ hint₁) 4 = some keys ∧
      wideCodec.preprocessRows (wideCodec.crs.write pairCrs) (pairRows hint₀ hint₁).reverse 4 =
        some keys := by
  obtain ⟨hint₀, hint₁, vk, ak, -, -, -, hpre, -⟩ := exists_pair_session
  exact ⟨hint₀, hint₁, _, hpre, ((wideCodec.rows_in_any_order _).1 4 _ _
    (List.reverse_perm _).symm (pairRows_nodup _ _)).symm.trans hpre⟩

theorem zip_shares (shares : List Share) (σ : Share → E.G2) :
    (shares.map fun s ↦ slot s.partyId).zip (shares.map σ) =
      shares.map fun s ↦ (slot s.partyId, σ s) := List.zip_map'

theorem verifyShares_of_forall {message ak : Bytes} {shares : List Share} (hne : shares ≠ [])
    (hall : ∀ s ∈ shares, P.verifyBls (some s.partialSignature) (some message) (some ak)
      s.partyId = true) (r : Fr) : P.verifyShares message ak shares r = true := by
  simp only [verifyBls_eq_true_iff] at hall
  obtain ⟨first, hfirst⟩ := List.exists_mem_of_ne_nil shares hne
  obtain ⟨-, hmsg, hak, -, -, aggKey, _, haggKey, -, hver⟩ := hall first hfirst
  obtain ⟨H, hH⟩ := hash_of_partialVerify hver
  have hex (s : Share) (hs : s ∈ shares) : ∃ σ, P.g2.decode s.partialSignature = some σ ∧
      partialVerify message aggKey (slot s.partyId) σ = .ok true := by
    obtain ⟨-, -, -, -, -, aggKey', σ, haggKey', hσ, hver⟩ := hall s hs
    obtain rfl := Option.some.inj (haggKey.symm.trans haggKey')
    exact ⟨σ, hσ, hver⟩
  choose! σ hσ using hex
  refine verifyShares_eq_true_iff.mpr ⟨hmsg, hak, hne, fun s hs ↦ (hall s hs).1,
    fun s hs ↦ ⟨(hall s hs).2.2.2.1, (hall s hs).2.2.2.2.1⟩, aggKey, σ, haggKey,
    fun s hs ↦ (hσ s hs).1, partialVerifyBatch_of_forall hH (by simp) (by simpa using hne) ?_ r⟩
  rw [zip_shares]
  exact List.forall_mem_map.mpr fun s hs ↦ (hσ s hs).2

theorem ncard_verifyShares_le {message ak : Bytes} {shares : List Share}
    (hsome : ∃ s ∈ shares, P.verifyBls (some s.partialSignature) (some message) (some ak)
      s.partyId = false) :
    {r | P.verifyShares message ak shares r = true}.ncard ≤ shares.length - 1 := by
  rcases Set.eq_empty_or_nonempty {r | P.verifyShares message ak shares r = true}
    with hempty | ⟨r₀, hr₀⟩
  · rw [hempty, Set.ncard_empty]
    exact Nat.zero_le _
  -- the batch passes for some scalar, so all but the pairing equation of the bad share is right
  obtain ⟨hmsg, hak, -, hsigs, hids, aggKey, σ, haggKey, hσ, hbatch⟩ :=
    verifyShares_eq_true_iff.mp hr₀
  obtain ⟨H, hH⟩ := hash_of_partialVerifyBatch hbatch
  have hrejected : ∃ entry ∈ (shares.map fun s ↦ slot s.partyId).zip (shares.map σ),
      partialVerify message aggKey entry.1 entry.2 ≠ .ok true := by
    obtain ⟨s, hs, hfalse⟩ := hsome
    rw [zip_shares]
    refine ⟨_, List.mem_map_of_mem hs, fun hver ↦ Bool.eq_false_iff.mp hfalse ?_⟩
    exact verifyBls_eq_true_iff.mpr ⟨hsigs s hs, hmsg, hak, (hids s hs).1, (hids s hs).2, aggKey,
      σ s, haggKey, hσ s hs, hver⟩
  have hcard := ncard_partialVerifyBatch_le hH hrejected
  rw [List.length_map] at hcard
  refine (Set.ncard_le_ncard fun r hr ↦ ?_).trans hcard
  obtain ⟨-, -, -, -, -, aggKey', σ', haggKey', hσ', hbatch'⟩ := verifyShares_eq_true_iff.mp hr
  obtain rfl := Option.some.inj (haggKey.symm.trans haggKey')
  have hsame : shares.map σ' = shares.map σ := List.map_congr_left fun s hs ↦
    Option.some.inj ((hσ' s hs).symm.trans (hσ s hs))
  exact hsame ▸ hbatch'

/-- The batch check of the bridge against its single check, over any bytes. Shares that pass one by
one pass together, whatever scalar is drawn; if one does not, fewer scalars than there are shares
let the batch through. -/
theorem batch_through_bridge (message ak : Bytes) (shares : List Share) (hne : shares ≠ []) :
    ((∀ s ∈ shares, P.verifyBls (some s.partialSignature) (some message) (some ak)
        s.partyId = true) → ∀ r, P.verifyShares message ak shares r = true) ∧
    ((∃ s ∈ shares, P.verifyBls (some s.partialSignature) (some message) (some ak)
        s.partyId = false) →
      {r | P.verifyShares message ak shares r = true}.ncard ≤ shares.length - 1) :=
  ⟨P.verifyShares_of_forall hne, P.ncard_verifyShares_le⟩

theorem batch_through_bridge_pair : ∃ hint₀ hint₁ vk ak σ₀ σ₁,
    wideCodec.preprocessRows (wideCodec.crs.write pairCrs) (pairRows hint₀ hint₁) 4 =
        some (vk, ak) ∧
      ∀ r, wideCodec.verifyShares [1] ak [⟨0, σ₀⟩, ⟨1, σ₁⟩] r = true := by
  obtain ⟨hint₀, hint₁, vk, ak, σ₀, σ₁, -, hpre, -, hσ₀, hσ₁, -⟩ := exists_pair_session
  exact ⟨hint₀, hint₁, vk, ak, σ₀, σ₁, hpre, (wideCodec.batch_through_bridge [1] ak
    [⟨0, σ₀⟩, ⟨1, σ₁⟩] (List.cons_ne_nil _ _)).1
    (List.forall_mem_cons.mpr ⟨hσ₀, List.forall_mem_singleton.mpr hσ₁⟩)⟩

/-- A party that follows the protocol gets hints, which are accepted unless one of the points that
are checked for it is the identity. Once it is registered with them, its signatures are accepted. -/
theorem honest_party_through_bridge (hk : 1 ≤ k) (hk' : k ≤ 6) (hcrs : WellFormed crs τ)
    (hg : crs.powersOfG.length = d + 1) (hh : crs.powersOfH.length = d + 1) (hkd : 2 ^ k ≤ d)
    (hd : d ≤ 64) (hn : n.toInt = 2 ^ k) {random : Bytes} (hrandom : random.length = randomSize)
    {partyId : Int32} (hid : validatePartyId partyId.toInt n.toInt = true) :
    ∃ sk hints, Native.catchUnwind (P.generateSecretKey (some random)) = some sk ∧
      P.computeHints (some (P.crs.write crs)) (some sk) partyId n = some hints ∧
      (P.validateHintsKey (some (P.crs.write crs)) (some hints) partyId n = true ↔
        ∃ epk, P.extendedPublicKey.decode hints = some epk ∧ epk.NoIdentity) ∧
      ∀ rows vk ak weight, P.preprocessRows (P.crs.write crs) rows n = some (vk, ak) →
        (rows.map (·.partyId)).Nodup → ⟨partyId, hints, weight⟩ ∈ rows →
        ∀ message H, message ≠ [] → hashToG2 E message = .ok H → H ≠ 0 →
          ∃ σ, P.signBls (some message) (some sk) = some σ ∧
            P.verifyBls (some σ) (some message) (some ak) partyId = true := by
  have hfits : Fits crs := ⟨by omega, by omega⟩
  have hlen : 2 ^ k < crs.powersOfG.length := by omega
  have hlen' : 2 ^ k < crs.powersOfH.length := by omega
  obtain ⟨S⟩ := exists_setting hk hk' hcrs hlen hlen'
  have hcrsOk := P.validateCrs_write hk' hn hlen hlen'
  have husize := asUsize_of_eq_two_pow hk' hn
  have hslot := slot_lt hn hid
  have hslot' : slot partyId < 2 ^ k := by omega
  obtain ⟨sk, hkeygen, hpok⟩ := keygen_ok E random
  have hskDecode := (P.secretKey_reads sk).decode_write
  obtain ⟨hint, hgen, hhint, hpop⟩ := S.hintGen_ok hslot' sk
  have hhintDecode := P.decode_hint S hk' hslot' hhint
  refine ⟨_, _, generateSecretKey_eq_some_iff.mpr ⟨hrandom, sk, hkeygen, rfl⟩,
    computeHints_eq_some_iff.mpr ⟨hcrsOk, hid, crs, sk, hint, P.decode_write_crs hfits, hskDecode,
      by rw [husize]; exact hgen, rfl⟩, ?_, ?_⟩
  · rw [validateHintsKey_eq_true_iff, hhintDecode, P.decode_write_crs hfits, husize]
    constructor
    · rintro ⟨-, -, _, _, hc, hepk, hver⟩
      obtain rfl := Option.some.inj hc
      obtain rfl := Option.some.inj hepk
      exact ⟨hint, rfl, ((S.verifyHint_ok_true_iff hslot' hint).mp hver).1⟩
    · rintro ⟨_, hepk, hid'⟩
      obtain rfl := Option.some.inj hepk
      refine ⟨hcrsOk, hid, crs, hint, rfl, rfl, (S.verifyHint_ok_true_iff hslot' hint).mpr
        ⟨hid', ?_, sk.secret, hhint⟩⟩
      rw [hpop, hhint.pk]
      exact hpok
  · intro rows vk ak weight hrows hnodup hmem message H hmsg hH hH0
    exact P.honest_share_accepted S hk' hfits hn hid hhint hhintDecode hrows hnodup hmem hmsg hH hH0

theorem honest_party_through_bridge_second : ∃ sk hints,
    Native.catchUnwind (wideCodec.generateSecretKey (some (List.replicate 32 0))) = some sk ∧
      wideCodec.computeHints (some (wideCodec.crs.write pairCrs)) (some sk) 1 4 = some hints := by
  obtain ⟨sk, hints, hsk, hhints, -⟩ := wideCodec.honest_party_through_bridge one_le_two
    (by decide) wellFormed_pairCrs rfl rfl le_rfl (by decide)
    (show (4 : Int32).toInt = 2 ^ 2 from rfl) List.length_replicate
    (show validatePartyId (1 : Int32).toInt (4 : Int32).toInt = true by decide)
  exact ⟨sk, hints, hsk, hhints⟩

end Session

end PointCodec

end HieroCryptography.Hints
