import HieroCryptography.Hints.LibraryBridge
import HieroCryptography.Hints.Shares

namespace HieroCryptography.Hints

open Foundation Rust Kzg

variable {E : Curve}

/-- What the arrays of `preprocess` say of one party. -/
structure Registration where
  partyId : Int32
  hintsPublicKey : Bytes
  weight : Int64

/-- What the arrays of `aggregateSignatures` say of one signer. -/
structure Share where
  partyId : Int32
  partialSignature : Bytes

/-- A party id as native code sees it. -/
def slot (partyId : Int32) : ℕ := asUsize partyId.toInt

theorem slot_injective : Function.Injective slot := by
  intro a b h
  have ha := a.toInt_lt
  have ha' := a.le_toInt
  have hb := b.toInt_lt
  have hb' := b.le_toInt
  apply Int32.toInt_inj.mp
  simp only [slot, asUsize] at h
  omega

namespace PointCodec

variable (P : PointCodec E)

def preprocessRows (crs : Bytes) (rows : List Registration) (n : Int32) : Option (Bytes × Bytes) :=
  P.preprocess (some crs) (some (rows.map (·.partyId))) (some (rows.map fun r ↦ r.hintsPublicKey))
    (some (rows.map (·.weight))) n

def aggregateShares (crs aggregationKey verificationKey : Bytes) (shares : List Share) :
    Option Bytes :=
  P.aggregateSignatures (some crs) (some aggregationKey) (some verificationKey)
    (some (shares.map (·.partyId))) (some (shares.map fun s ↦ s.partialSignature))

def verifyShares (message aggregationKey : Bytes) (shares : List Share) (r : Fr) : Bool :=
  P.verifyBlsBatch (some message) (some aggregationKey) (some (shares.map (·.partyId)))
    (some (shares.map fun s ↦ s.partialSignature)) r

end PointCodec

section Arrays

variable {T R : Type} {w : Wire T} {rows : List R}

theorem elements_map_iff {bytes : R → Bytes} {f : R → T} :
    PointCodec.Elements w (rows.map fun r ↦ some (bytes r)) (rows.map f) ↔
      ∀ r ∈ rows, w.decode (bytes r) = some (f r) := by
  rw [PointCodec.Elements, List.forall₂_map_left_iff, List.forall₂_map_right_iff, List.forall₂_same]
  rfl

theorem exists_map_of_elements [Nonempty T] {bytes : R → Bytes} {objects : List T}
    (h : PointCodec.Elements w (rows.map fun r ↦ some (bytes r)) objects) :
    ∃ f, objects = rows.map f ∧ ∀ r ∈ rows, w.decode (bytes r) = some (f r) := by
  classical
  let f : R → T := fun r ↦ (w.decode (bytes r)).getD (Classical.arbitrary T)
  have hobjects : objects = rows.map f := by
    rw [PointCodec.Elements, List.forall₂_map_left_iff] at h
    induction h with
    | nil => rfl
    | cons hr _ ih =>
      have hhead : w.decode (bytes _) = some _ := hr
      rw [List.map_cons, ← ih]
      simp only [f, hhead, Option.getD_some]
  exact ⟨f, hobjects, elements_map_iff.mp (hobjects ▸ h)⟩

end Arrays

namespace PointCodec

variable {P : PointCodec E}

instance : Nonempty (ExtendedPublicKey E) :=
  ⟨⟨0, 0, 0, ⟨0, 0, 0⟩, 0, 0, [], 0, 0⟩⟩

theorem preprocessRows_eq_some_iff {crs : Bytes} {rows : List Registration} {n : Int32}
    {out : Bytes × Bytes} : P.preprocessRows crs rows n = some out ↔
      validateCrs (some crs) n = true ∧ acceptsWeights (rows.map (·.weight)) = true ∧
      (rows.length : ℤ) < n.toInt ∧
      (∀ r ∈ rows, validatePartyId r.partyId.toInt n.toInt = true) ∧
      ∃ (c : CRS E) (epk : Registration → ExtendedPublicKey E) (vk : VerificationKey E)
        (ak : AggregationKey E), P.crs.decode crs = some c ∧
        (∀ r ∈ rows, P.extendedPublicKey.decode r.hintsPublicKey = some (epk r)) ∧
        Hints.preprocess (asUsize n.toInt) c
          (signerInfo (rows.map fun r ↦ (slot r.partyId, r.weight, epk r))) = .ok (vk, ak) ∧
        (P.verificationKey.write vk, P.aggregationKey.write ak) = out := by
  have hzip (epk : Registration → ExtendedPublicKey E) :
      ((rows.map (·.partyId)).map fun party ↦ asUsize party.toInt).zip
        ((rows.map (·.weight)).zip (rows.map epk)) =
        rows.map fun r ↦ (slot r.partyId, r.weight, epk r) := by
    rw [List.map_map, List.zip_map', List.zip_map']
    rfl
  rw [preprocessRows, preprocess_eq_some_iff]
  simp only [List.length_map, List.forall_mem_map, true_and]
  refine and_congr_right fun _ ↦ and_congr_right fun _ ↦ and_congr_right fun _ ↦
    and_congr_right fun _ ↦ ⟨?_, ?_⟩
  · rintro ⟨c, epks, vk, ak, hc, hepks, hpre, hout⟩
    obtain ⟨epk, rfl, hepk⟩ := exists_map_of_elements hepks
    rw [hzip] at hpre
    exact ⟨c, epk, vk, ak, hc, hepk, hpre, hout⟩
  · rintro ⟨c, epk, vk, ak, hc, hepk, hpre, hout⟩
    refine ⟨c, rows.map epk, vk, ak, hc, elements_map_iff.mpr hepk, ?_, hout⟩
    rw [hzip]
    exact hpre

theorem aggregateShares_eq_some_iff {crs ak vk out : Bytes} {shares : List Share} :
    P.aggregateShares crs ak vk shares = some out ↔
      crs ≠ [] ∧ minAggregationKeySize ≤ ak.length ∧ vk ≠ [] ∧ shares ≠ [] ∧
      (∀ s ∈ shares, s.partialSignature ≠ []) ∧
      (∀ s ∈ shares, validatePartyId s.partyId.toInt (inferNFromCrsLength crs) = true) ∧
      ∃ (c : CRS E) (aggKey : AggregationKey E) (verKey : VerificationKey E) (σ : Share → E.G2)
        (π : ThresholdSignature E), P.crs.decode crs = some c ∧
        P.aggregationKey.decode ak = some aggKey ∧ P.verificationKey.decode vk = some verKey ∧
        (∀ s ∈ shares, P.g2.decode s.partialSignature = some (σ s)) ∧
        aggregate c aggKey verKey
          (partialSignatureMap (shares.map fun s ↦ (slot s.partyId, σ s))) = .ok π ∧
        P.thresholdSignature.write π = out := by
  have hzip (σ : Share → E.G2) :
      ((shares.map (·.partyId)).map fun party ↦ asUsize party.toInt).zip (shares.map σ) =
        shares.map fun s ↦ (slot s.partyId, σ s) := by
    rw [List.map_map, List.zip_map']
    rfl
  rw [aggregateShares, aggregateSignatures_eq_some_iff, validatePartialSignatures_iff]
  simp only [List.length_map, List.forall_mem_map, true_and, isNonEmpty, Option.elim_some,
    decide_eq_true_eq, ne_eq, List.length_eq_zero_iff, List.map_eq_nil_iff, and_assoc]
  refine and_congr_right fun _ ↦ and_congr_right fun _ ↦ and_congr_right fun _ ↦
    and_congr_right fun _ ↦ and_congr_right fun _ ↦ and_congr_right fun _ ↦ ⟨?_, ?_⟩
  · rintro ⟨c, aggKey, verKey, σs, π, hc, hak, hvk, hσs, hagg, hout⟩
    obtain ⟨σ, rfl, hσ⟩ := exists_map_of_elements hσs
    rw [hzip] at hagg
    exact ⟨c, aggKey, verKey, σ, π, hc, hak, hvk, hσ, hagg, hout⟩
  · rintro ⟨c, aggKey, verKey, σ, π, hc, hak, hvk, hσ, hagg, hout⟩
    refine ⟨c, aggKey, verKey, shares.map σ, π, hc, hak, hvk, elements_map_iff.mpr hσ, ?_, hout⟩
    rw [hzip]
    exact hagg

theorem verifyShares_eq_true_iff {message ak : Bytes} {shares : List Share} {r : Fr} :
    P.verifyShares message ak shares r = true ↔
      message ≠ [] ∧ minAggregationKeySize ≤ ak.length ∧ shares ≠ [] ∧
      (∀ s ∈ shares, s.partialSignature ≠ []) ∧
      (∀ s ∈ shares, 0 ≤ s.partyId.toInt ∧ s.partyId.toInt < maxSignersNum) ∧
      ∃ (aggKey : AggregationKey E) (σ : Share → E.G2), P.aggregationKey.decode ak = some aggKey ∧
        (∀ s ∈ shares, P.g2.decode s.partialSignature = some (σ s)) ∧
        partialVerifyBatch message aggKey (shares.map fun s ↦ slot s.partyId) (shares.map σ) r =
          .ok true := by
  have hids : (shares.map (·.partyId)).map (fun party ↦ asUsize party.toInt) =
      shares.map fun s ↦ slot s.partyId := List.map_map
  rw [verifyShares, verifyBlsBatch_eq_true_iff, validatePartialSignatures_iff, hids]
  simp only [List.length_map, List.forall_mem_map, true_and, isNonEmpty, Option.elim_some,
    decide_eq_true_eq, ne_eq, List.length_eq_zero_iff, List.map_eq_nil_iff, and_assoc,
    validatePartyId_iff, le_refl]
  refine and_congr_right fun _ ↦ and_congr_right fun _ ↦ and_congr_right fun _ ↦
    and_congr_right fun _ ↦ and_congr_right fun _ ↦ exists_congr fun aggKey ↦ ⟨?_, ?_⟩
  · rintro ⟨σs, hak, hσs, hbatch⟩
    obtain ⟨σ, rfl, hσ⟩ := exists_map_of_elements hσs
    exact ⟨σ, hak, hσ, hbatch⟩
  · rintro ⟨σ, hak, hσ, hbatch⟩
    exact ⟨shares.map σ, hak, elements_map_iff.mpr hσ, hbatch⟩

end PointCodec

theorem nodup_slots {rows : List Registration} (h : (rows.map (·.partyId)).Nodup) :
    (rows.map fun r ↦ slot r.partyId).Nodup := by
  have := h.map slot_injective
  rwa [List.map_map] at this

section Order

theorem exists_foldlM_addExact {weights : List Int64} {init : Int64} (hinit : 0 ≤ init.toInt)
    (hpos : ∀ w ∈ weights, 0 ≤ w.toInt)
    (hsum : init.toInt + (weights.map Int64.toInt).sum < 2 ^ 63) :
    ∃ sum, weights.foldlM addExact init = some sum := by
  induction weights generalizing init with
  | nil => exact ⟨init, rfl⟩
  | cons w weights ih =>
    rw [List.forall_mem_cons] at hpos
    rw [List.map_cons, List.sum_cons] at hsum
    have hrest : 0 ≤ (weights.map Int64.toInt).sum :=
      List.sum_nonneg fun x hx ↦ by
        obtain ⟨y, hy, rfl⟩ := List.mem_map.mp hx
        exact hpos.2 y hy
    have hadd : addExact init w = some (Int64.ofInt (init.toInt + w.toInt)) :=
      if_pos ⟨by omega, by omega⟩
    have hnext := addExact_eq_some hadd
    rw [List.foldlM_cons, hadd, Option.bind_eq_bind, Option.bind_some]
    exact ih (by omega) hpos.2 (by omega)

theorem acceptsWeights_iff {weights : List Int64} : acceptsWeights weights = true ↔
    (∀ w ∈ weights, 0 ≤ w.toInt) ∧ (weights.map Int64.toInt).sum < 2 ^ 63 := by
  refine ⟨acceptsWeights_bounds, ?_⟩
  rintro ⟨hpos, hsum⟩
  obtain ⟨sum, hfold⟩ : ∃ sum, weights.foldlM addExact 0 = some sum :=
    exists_foldlM_addExact le_rfl hpos (by simpa using hsum)
  have hval := foldlM_addExact hfold
  have hnonneg : 0 ≤ (weights.map Int64.toInt).sum := List.sum_nonneg fun x hx ↦ by
    obtain ⟨y, hy, rfl⟩ := List.mem_map.mp hx
    exact hpos y hy
  have hsum0 : 0 ≤ sum := Int64.le_iff_toInt_le.mpr (by rw [hval]; simpa using hnonneg)
  have hmax : sum ≤ maxSumOfWeights := by
    have := sum.toInt_lt
    exact Int64.le_iff_toInt_le.mpr (Int.lt_add_one_iff.mp (by exact this))
  simp only [acceptsWeights, validateWeightsSum, hfold, Bool.and_eq_true, decide_eq_true_eq,
    List.all_eq_true, hsum0, hmax, and_self, true_and]
  intro w hw
  rw [Int64.lt_iff_toInt_lt, not_lt]
  exact hpos w hw

theorem get_signerInfo (entries : List (ℕ × Int64 × ExtendedPublicKey E)) (i : ℕ) :
    (signerInfo entries).get i =
      (entries.reverse.lookup i).map fun v ↦ (longToFr v.1, v.2) := by
  have hget := HashMap.get_foldl_insert .empty entries (fun v ↦ (longToFr v.1, v.2)) i
  exact hget.trans Option.or_none

theorem get_partialSignatureMap (entries : List (ℕ × E.G2)) (i : ℕ) :
    (partialSignatureMap entries).get i = entries.reverse.lookup i := by
  have hget := HashMap.get_foldl_insert .empty entries id i
  rw [Option.map_id] at hget
  exact hget.trans Option.or_none

theorem lookup_reverse_of_perm {V R : Type} {rows rows' : List R} {key : R → ℕ}
    (h : rows.Perm rows') (hnodup : (rows.map key).Nodup) (value : R → V) (i : ℕ) :
    (rows.map fun r ↦ (key r, value r)).reverse.lookup i =
      (rows'.map fun r ↦ (key r, value r)).reverse.lookup i := by
  refine HashMap.lookup_eq_of_perm ?_ ?_ i
  · rw [List.map_reverse, List.nodup_reverse, List.map_map]
    exact hnodup
  · exact (List.reverse_perm _).trans ((h.map _).trans (List.reverse_perm _).symm)

namespace PointCodec

variable (P : PointCodec E)

theorem preprocessRows_of_perm {crs : Bytes} {n : Int32} {rows rows' : List Registration}
    (h : rows.Perm rows') (hnodup : (rows.map (·.partyId)).Nodup) {out : Bytes × Bytes}
    (hout : P.preprocessRows crs rows n = some out) : P.preprocessRows crs rows' n = some out := by
  obtain ⟨hcrs, hweights, hcount, hparties, c, epk, vk, ak, hc, hepk, hpre, hout⟩ :=
    preprocessRows_eq_some_iff.mp hout
  refine preprocessRows_eq_some_iff.mpr ⟨hcrs, ?_, h.length_eq ▸ hcount,
    fun r hr ↦ hparties r (h.mem_iff.mpr hr), c, epk, vk, ak, hc,
    fun r hr ↦ hepk r (h.mem_iff.mpr hr), preprocess_of_get_eq (fun i ↦ ?_) hpre, hout⟩
  · obtain ⟨hpos, hsum⟩ := acceptsWeights_iff.mp hweights
    have hperm := h.map (·.weight)
    refine acceptsWeights_iff.mpr ⟨fun w hw ↦ hpos w (hperm.mem_iff.mpr hw), ?_⟩
    rwa [← (hperm.map Int64.toInt).sum_eq]
  · rw [get_signerInfo, get_signerInfo, lookup_reverse_of_perm h (nodup_slots hnodup)]

theorem aggregateShares_of_perm {crs ak vk out : Bytes} {shares shares' : List Share}
    (h : shares.Perm shares') (hnodup : (shares.map (·.partyId)).Nodup)
    (hout : P.aggregateShares crs ak vk shares = some out) :
    P.aggregateShares crs ak vk shares' = some out := by
  obtain ⟨hcrs, hak, hvk, hne, hsigs, hparties, c, aggKey, verKey, σ, π, hc, haggKey, hverKey, hσ,
    hagg, hout⟩ := aggregateShares_eq_some_iff.mp hout
  have hslots : (shares.map fun s ↦ slot s.partyId).Nodup := by
    have := hnodup.map slot_injective
    rwa [List.map_map] at this
  refine aggregateShares_eq_some_iff.mpr ⟨hcrs, hak, hvk, fun h' ↦ hne ?_,
    fun s hs ↦ hsigs s (h.mem_iff.mpr hs), fun s hs ↦ hparties s (h.mem_iff.mpr hs), c, aggKey,
    verKey, σ, π, hc, haggKey, hverKey, fun s hs ↦ hσ s (h.mem_iff.mpr hs),
    aggregate_of_get_eq (fun i ↦ ?_) hagg, hout⟩
  · exact (h' ▸ h).eq_nil
  · rw [get_partialSignatureMap, get_partialSignatureMap, lookup_reverse_of_perm h hslots]

end PointCodec

end Order

section Sums

theorem sum_rows {R V M : Type} [AddCommMonoid M] {rows : List R} {key : R → ℕ}
    (hnodup : (rows.map key).Nodup) (value : R → V) (f : V → M) (s : Finset ℕ) :
    ∑ i ∈ s, ((rows.map fun r ↦ (key r, value r)).reverse.lookup i).elim 0 f =
      ((rows.filter (key · ∈ s)).map fun r ↦ f (value r)).sum := by
  have hkeys : ((rows.map fun r ↦ (key r, value r)).map Prod.fst).Nodup := by
    rw [List.map_map]
    exact hnodup
  have hlookup (i : ℕ) := HashMap.lookup_eq_of_perm hkeys (List.reverse_perm _).symm i
  simp only [← hlookup]
  rw [sum_lookup_filter f hkeys, List.filter_map, List.map_map]
  rfl

def signedRows (rows : List Registration) (shares : List Share) : List Registration :=
  rows.filter fun r ↦ r.partyId ∈ shares.map (·.partyId)

theorem keys_partialSignatureMap (entries : List (ℕ × E.G2)) :
    (partialSignatureMap entries).keys.toFinset = (entries.map Prod.fst).toFinset := by
  ext i
  rw [List.mem_toFinset, List.mem_toFinset]
  constructor
  · intro hi
    obtain ⟨v, hv⟩ := HashMap.get_of_mem_keys _ hi
    rw [get_partialSignatureMap] at hv
    exact List.mem_map.mpr ⟨(i, v), List.mem_reverse.mp (HashMap.mem_of_lookup hv), rfl⟩
  · intro hi
    obtain ⟨e, he, rfl⟩ := List.mem_map.mp hi
    cases hlookup : entries.reverse.lookup e.1 with
    | none => simpa using List.lookup_eq_none_iff.mp hlookup e (List.mem_reverse.mpr he)
    | some v =>
      exact HashMap.mem_keys_of_get _ ((get_partialSignatureMap entries e.1).trans hlookup)

variable {rows : List Registration} (epk : Registration → ExtendedPublicKey E)
  {shares : List Share} (σ : Share → E.G2)

theorem filter_signers (shares : List Share) (rows : List Registration) :
    (rows.filter fun r ↦ slot r.partyId ∈ (shares.map fun s ↦ slot s.partyId).toFinset) =
      signedRows rows shares := by
  refine List.filter_congr fun r _ ↦ decide_eq_decide.mpr ?_
  rw [List.mem_toFinset, List.mem_map, List.mem_map]
  exact exists_congr fun s ↦ and_congr_right fun _ ↦ slot_injective.eq_iff

/-- Summed over the signers, whatever the arrays say of a party is summed over its row. -/
theorem sum_signers {V M : Type} [AddCommMonoid M] (hnodup : (rows.map (·.partyId)).Nodup)
    (shares : List Share) (value : Registration → V) (f : V → M) :
    ((partialSignatureMap (shares.map fun s ↦ (slot s.partyId, σ s))).keys.map fun i ↦
      ((rows.map fun r ↦ (slot r.partyId, value r)).reverse.lookup i).elim 0 f).sum =
      ((signedRows rows shares).map fun r ↦ f (value r)).sum := by
  set m := partialSignatureMap (shares.map fun s ↦ (slot s.partyId, σ s)) with hm
  have hkeys : m.keys.Nodup := m.nodup
  rw [← List.sum_toFinset _ hkeys, hm, keys_partialSignatureMap, sum_rows (nodup_slots hnodup),
    List.map_map]
  exact congrArg (fun l ↦ (List.map _ l).sum) (filter_signers shares rows)

end Sums

end HieroCryptography.Hints
