import HieroCryptography.Hints.Correctness

namespace HieroCryptography.Hints

open Finset Rust

variable {E : Curve}

section Bridge

/-- `Math.addExact` of two longs; it throws on overflow. -/
def addExact (a b : Int64) : Option Int64 :=
  if -2 ^ 63 ≤ a.toInt + b.toInt ∧ a.toInt + b.toInt < 2 ^ 63 then
    some (Int64.ofInt (a.toInt + b.toInt))
  else none

def maxSumOfWeights : Int64 := Int64.maxValue

def validateWeightsSum (weights : List Int64) : Bool :=
  match weights.foldlM addExact 0 with
  | some sum => 0 ≤ sum && sum ≤ maxSumOfWeights
  | none => false

def acceptsWeights (weights : List Int64) : Bool :=
  validateWeightsSum weights && weights.all (¬ · < 0)

def longToFr (x : Int64) : Fr := (x.toInt : Fr)

def signerInfo (entries : List (ℕ × Int64 × ExtendedPublicKey E)) :
    HashMap (Fr × ExtendedPublicKey E) :=
  entries.foldl (fun m e ↦ m.insert e.1 (longToFr e.2.1, e.2.2)) .empty

def weightOf (entries : List (ℕ × Int64 × ExtendedPublicKey E)) (i : ℕ) : ℤ :=
  (entries.reverse.lookup i).elim 0 fun v ↦ v.1.toInt

theorem addExact_eq_some {a b c : Int64} (h : addExact a b = some c) :
    c.toInt = a.toInt + b.toInt := by
  unfold addExact at h
  split at h
  · rename_i hrange
    obtain rfl := Option.some.inj h
    exact Int64.toInt_ofInt_of_le hrange.1 hrange.2
  · cases h

theorem foldlM_addExact {weights : List Int64} {init sum : Int64}
    (h : weights.foldlM addExact init = some sum) :
    sum.toInt = init.toInt + (weights.map Int64.toInt).sum := by
  induction weights generalizing init with
  | nil =>
    obtain rfl := Option.some.inj h
    simp
  | cons w weights ih =>
    rw [List.foldlM_cons, Option.bind_eq_bind, Option.bind_eq_some_iff] at h
    obtain ⟨next, hnext, hrest⟩ := h
    rw [ih hrest, addExact_eq_some hnext, List.map_cons, List.sum_cons, add_assoc]

theorem acceptsWeights_bounds {weights : List Int64} (h : acceptsWeights weights = true) :
    (∀ w ∈ weights, 0 ≤ w.toInt) ∧ (weights.map Int64.toInt).sum < 2 ^ 63 := by
  simp only [acceptsWeights, validateWeightsSum, Bool.and_eq_true] at h
  obtain ⟨hsum, hall⟩ := h
  split at hsum
  · rename_i sum hfold
    have hval := foldlM_addExact hfold
    rw [show (0 : Int64).toInt = 0 from rfl, zero_add] at hval
    refine ⟨fun w hw ↦ ?_, hval ▸ sum.toInt_lt⟩
    have hw' := of_decide_eq_true (List.all_eq_true.mp hall w hw)
    rw [Int64.lt_iff_toInt_lt, not_lt] at hw'
    exact hw'
  · cases hsum

theorem registeredWeight_signerInfo (entries : List (ℕ × Int64 × ExtendedPublicKey E)) (i : ℕ) :
    registeredWeight (signerInfo entries) i = (weightOf entries i : Fr) := by
  have hget := HashMap.get_foldl_insert .empty entries (fun v ↦ (longToFr v.1, v.2)) i
  rw [registeredWeight, signerInfo, hget, weightOf]
  cases entries.reverse.lookup i with
  | none => simp [HashMap.get, HashMap.empty]
  | some v => rfl

variable {entries : List (ℕ × Int64 × ExtendedPublicKey E)}

theorem mem_keys_signerInfo {e : ℕ × Int64 × ExtendedPublicKey E} (he : e ∈ entries) :
    e.1 ∈ (signerInfo entries).keys := by
  have hget := HashMap.get_foldl_insert .empty entries (fun v ↦ (longToFr v.1, v.2)) e.1
  cases hlookup : entries.reverse.lookup e.1 with
  | none => simpa using List.lookup_eq_none_iff.mp hlookup e (List.mem_reverse.mpr he)
  | some v =>
    rw [hlookup] at hget
    exact HashMap.mem_keys_of_get _ hget

theorem weightOf_nonneg (h : acceptsWeights (entries.map fun e ↦ e.2.1) = true) (i : ℕ) :
    0 ≤ weightOf entries i := by
  refine lookup_elim_nonneg (fun e he ↦ ?_) i
  exact (acceptsWeights_bounds h).1 _ (List.mem_map.mpr ⟨e, List.mem_reverse.mp he, rfl⟩)

theorem sum_weightOf_bounds (h : acceptsWeights (entries.map fun e ↦ e.2.1) = true)
    (s : Finset ℕ) : 0 ≤ ∑ i ∈ s, weightOf entries i ∧ ∑ i ∈ s, weightOf entries i < 2 ^ 63 := by
  obtain ⟨hpos, hsum⟩ := acceptsWeights_bounds h
  refine ⟨sum_nonneg fun i _ ↦ weightOf_nonneg h i, ?_⟩
  have hle := sum_lookup_le (f := fun v : Int64 × ExtendedPublicKey E ↦ v.1.toInt)
    (fun e he ↦ hpos _ (List.mem_map.mpr ⟨e, List.mem_reverse.mp he, rfl⟩)) s
  rw [List.map_reverse, List.sum_reverse] at hle
  rw [List.map_map] at hsum
  exact hle.trans_lt hsum

theorem sum_range_weightOf {n : ℕ} (hn : (entries.map Prod.fst).Nodup)
    (hlt : ∀ e ∈ entries, e.1 < n) :
    ∑ i ∈ range n, weightOf entries i = ((entries.map fun e ↦ e.2.1).map Int64.toInt).sum := by
  have hnodup : (entries.reverse.map Prod.fst).Nodup := by
    rwa [List.map_reverse, List.nodup_reverse]
  have h := sum_range_lookup (f := fun v : Int64 × ExtendedPublicKey E ↦ v.1.toInt) hnodup
    fun e he ↦ hlt e (List.mem_reverse.mp he)
  rw [List.map_reverse, List.sum_reverse] at h
  rw [List.map_map]
  exact h

end Bridge

section Weights

variable {crs : CRS E} {n : ℕ} {info : HashMap (Fr × ExtendedPublicKey E)}
  {vk : VerificationKey E} {ak : AggregationKey E}

theorem slotKey_weight {i : ℕ} {slot : Fr × ExtendedPublicKey E}
    (h : slotKey crs n info i = .ok slot) : slot.1 = registeredWeight info i := by
  unfold slotKey at h
  rw [registeredWeight]
  split at h
  · rename_i weight hint hget
    simp only [bind_ok_iff, require_ok_iff, exists_const, Except.ok.injEq] at h
    obtain ⟨-, -, -, -, rfl⟩ := h
    rw [hget]
    rfl
  · rename_i hget
    simp only [bind_ok_iff, Except.ok.injEq] at h
    obtain ⟨-, -, -, -, rfl⟩ := h
    rw [hget]
    rfl

theorem preprocess_weights (h : preprocess n crs info = .ok (vk, ak)) :
    1 < n ∧ (∀ i ∈ info.keys, i < n - 1) ∧ ak.n = n ∧
      ak.weights = (List.range n).map (registeredWeight info) ∧
      vk.totalWeight = ∑ i ∈ range n, registeredWeight info i := by
  simp only [preprocess, bind_ok_iff, require_ok_iff, exists_const] at h
  obtain ⟨hvalid, -, _, hkeys, -, slots, hslots, hassemble⟩ := h
  obtain ⟨k, hk, rfl⟩ := Utils.isNValid_iff.mp hvalid
  obtain ⟨hlen, hget⟩ := mapM_range_ok_iff.mp hslots
  have hweights : slots.map Prod.fst = (List.range (2 ^ k)).map (registeredWeight info) := by
    refine List.ext_getElem (by simpa using hlen) fun i h₁ h₂ ↦ ?_
    rw [List.getElem_map, List.getElem_map, List.getElem_range]
    exact slotKey_weight (hget i _ (List.getElem?_eq_getElem _))
  rw [hweights] at hassemble
  simp only [assembleKeys, bind_ok_iff, require_ok_iff, exists_const, Except.ok.injEq,
    Prod.mk.injEq] at hassemble
  obtain ⟨-, -, -, -, -, -, -, -, -, -, -, -, -, -, -, -, -, -, -, -, -, -, -, rfl, rfl⟩ :=
    hassemble
  exact ⟨Nat.one_lt_two_pow (by omega), checkPartyIndices_ok_iff.mp hkeys, rfl, rfl,
    foldl_add_map_range _ _⟩

theorem assembleWitness_aggWeight {partialSignatures : HashMap E.G2} {witness : Witness E}
    {w : ℕ → Fr} (hn : 1 < ak.n) (hweights : ak.weights = (List.range ak.n).map w)
    (h : assembleWitness ak partialSignatures = .ok witness) :
    partialSignatures.keys.toFinset ⊆ range ak.n ∧
      witness.aggWeight = ∑ i ∈ partialSignatures.keys.toFinset, w i := by
  simp only [assembleWitness, bind_ok_iff, Except.ok.injEq] at h
  obtain ⟨-, -, signers, hsigners, -, -, -, -, -, -, rfl⟩ := h
  have hkeys := markSigners_range hn hsigners
  have hmark := markSigners_ok partialSignatures.keys hkeys fun _ ↦ 0
  rw [List.map_const', List.length_range, hsigners, Except.ok.injEq] at hmark
  have hsub : partialSignatures.keys.toFinset ⊆ range ak.n := fun i hi ↦
    mem_range.mpr ((hkeys i (List.mem_toFinset.mp hi)).trans_le (Nat.sub_le _ _))
  refine ⟨hsub, ?_⟩
  simp only [hmark, hweights, foldl_weights_map_range, ite_mul, one_mul, zero_mul,
    ← List.mem_toFinset, sum_ite_mem, inter_eq_right.mpr hsub]

end Weights

def passesThreshold (vk : VerificationKey E) (aggWeight : Fr) (num den : Int64) : Bool :=
  exceedsThreshold vk aggWeight (longToFr num, longToFr den)

/-- Products of two values below `2 ^ 63` are compared in the field as they are. -/
theorem gt_mul_iff {a b c d : ℤ} (ha : 0 ≤ a ∧ a < 2 ^ 63) (hb : 0 ≤ b ∧ b < 2 ^ 63)
    (hc : 0 ≤ c ∧ c < 2 ^ 63) (hd : 0 ≤ d ∧ d < 2 ^ 63) :
    ((a : Fr) * b).gt ((c : Fr) * d) = true ↔ c * d < a * b := by
  have hval {x y : ℕ} (hx : x < 2 ^ 63) (hy : y < 2 ^ 63) : ((x : Fr) * y).val = x * y := by
    have hlt : x * y < frModulus := (Nat.mul_lt_mul'' hx hy).trans (by decide)
    rw [← Nat.cast_mul, ZMod.val_natCast_of_lt hlt]
  lift a to ℕ using ha.1
  lift b to ℕ using hb.1
  lift c to ℕ using hc.1
  lift d to ℕ using hd.1
  have hlt {x : ℕ} (h : (x : ℤ) < 2 ^ 63) : x < 2 ^ 63 := by exact_mod_cast h
  rw [Fr.gt, decide_eq_true_eq]
  push_cast
  rw [hval (hlt hc.2) (hlt hd.2), hval (hlt ha.2) (hlt hb.2)]
  exact_mod_cast Iff.rfl

theorem not_both_exceed {num den total weight weight' : ℤ} (hden : 0 ≤ den) (htotal : 0 ≤ total)
    (hhalf : den ≤ 2 * num) (hle : weight + weight' ≤ total) :
    ¬ (num * total < den * weight ∧ num * total < den * weight') := by
  rintro ⟨hpass, hpass'⟩
  refine lt_irrefl (2 * num * total) ?_
  calc
    2 * num * total = num * total + num * total := by ring
    _ < den * weight + den * weight' := add_lt_add hpass hpass'
    _ = den * (weight + weight') := by ring
    _ ≤ den * total := mul_le_mul_of_nonneg_left hle hden
    _ ≤ 2 * num * total := mul_le_mul_of_nonneg_right hhalf htotal

/-- The threshold is compared exactly, so two disjoint sets of signers cannot both exceed a
half, and more signers never lose a threshold that fewer have passed. -/
theorem threshold_exact {crs : CRS E} {n : ℕ} {entries : List (ℕ × Int64 × ExtendedPublicKey E)}
    (hweights : acceptsWeights (entries.map fun e ↦ e.2.1) = true) {vk : VerificationKey E}
    {ak : AggregationKey E} (hpre : preprocess n crs (signerInfo entries) = .ok (vk, ak))
    {num den : Int64} (hnum : 0 < num) (hden : 0 < den) :
    ((entries.map Prod.fst).Nodup → ∑ i ∈ range n, weightOf entries i =
      ((entries.map fun e ↦ e.2.1).map Int64.toInt).sum) ∧
    (∀ sigs witness, assembleWitness ak sigs = .ok witness →
      (passesThreshold vk witness.aggWeight num den = true ↔
        num.toInt * ∑ i ∈ range n, weightOf entries i <
          den.toInt * ∑ i ∈ sigs.keys.toFinset, weightOf entries i)) ∧
    (den.toInt ≤ 2 * num.toInt → ∀ sigs sigs' witness witness',
      assembleWitness ak sigs = .ok witness → assembleWitness ak sigs' = .ok witness' →
      sigs.keys.Disjoint sigs'.keys → ¬ (passesThreshold vk witness.aggWeight num den = true ∧
        passesThreshold vk witness'.aggWeight num den = true)) ∧
    ∀ sigs sigs' witness witness', assembleWitness ak sigs = .ok witness →
      assembleWitness ak sigs' = .ok witness' → sigs.keys ⊆ sigs'.keys →
      passesThreshold vk witness.aggWeight num den = true →
      passesThreshold vk witness'.aggWeight num den = true := by
  obtain ⟨hn, hkeys, rfl, hslots, htotal⟩ := preprocess_weights hpre
  rw [Int64.lt_iff_toInt_lt] at hnum hden
  -- all products stay below the modulus, so the field's order is the integers'
  have hexact {sigs : HashMap E.G2} {witness : Witness E}
      (h : assembleWitness ak sigs = .ok witness) : sigs.keys.toFinset ⊆ range ak.n ∧
        (passesThreshold vk witness.aggWeight num den = true ↔
          num.toInt * ∑ i ∈ range ak.n, weightOf entries i <
            den.toInt * ∑ i ∈ sigs.keys.toFinset, weightOf entries i) := by
    obtain ⟨hsub, hagg⟩ := assembleWitness_aggWeight hn hslots h
    refine ⟨hsub, ?_⟩
    simp only [registeredWeight_signerInfo, ← Int.cast_sum] at htotal hagg
    rw [passesThreshold, exceedsThreshold, htotal, hagg]
    exact gt_mul_iff ⟨hden.le, den.toInt_lt⟩ (sum_weightOf_bounds hweights _)
      ⟨hnum.le, num.toInt_lt⟩ (sum_weightOf_bounds hweights _)
  refine ⟨fun hnodup ↦ sum_range_weightOf hnodup fun e he ↦ ?_, fun sigs witness h ↦ (hexact h).2,
    ?_, ?_⟩
  · exact (hkeys e.1 (mem_keys_signerInfo he)).trans_le (Nat.sub_le _ _)
  · intro hhalf sigs sigs' witness witness' h h' hdisj
    obtain ⟨hsub, hiff⟩ := hexact h
    obtain ⟨hsub', hiff'⟩ := hexact h'
    rw [hiff, hiff']
    apply not_both_exceed hden.le (sum_weightOf_bounds hweights _).1 hhalf
    rw [← sum_union (List.disjoint_toFinset_iff_disjoint.mpr hdisj)]
    exact sum_le_sum_of_subset_of_nonneg (union_subset hsub hsub') fun i _ _ ↦
      weightOf_nonneg hweights i
  · intro sigs sigs' witness witness' h h' hsub
    rw [(hexact h).2, (hexact h').2]
    refine fun hpass ↦ hpass.trans_le (mul_le_mul_of_nonneg_left ?_ hden.le)
    refine sum_le_sum_of_subset_of_nonneg (fun i hi ↦ ?_) fun i _ _ ↦ weightOf_nonneg hweights i
    exact List.mem_toFinset.mpr (hsub (List.mem_toFinset.mp hi))

theorem threshold_exact_pair : acceptsWeights [1, 2] = true ∧
    ∃ (hint : ℕ → ExtendedPublicKey scalarCurve) (vk : VerificationKey scalarCurve)
      (ak : AggregationKey scalarCurve) (light heavy : Witness scalarCurve),
      preprocess (2 ^ 2) powersOfTwo (signerInfo [(0, 1, hint 0), (1, 2, hint 1)]) =
        .ok (vk, ak) ∧
      assembleWitness ak (.singleton 0 scalarCurve.h) = .ok light ∧
      assembleWitness ak (.singleton 1 scalarCurve.h) = .ok heavy ∧
      passesThreshold vk light.aggWeight 1 2 = false ∧
      passesThreshold vk heavy.aggWeight 1 2 = true := by
  obtain ⟨S, hint, w, s, hpre, -⟩ := exists_preprocessed_pair (longToFr 1) (longToFr 2)
  let entries : List (ℕ × Int64 × ExtendedPublicKey scalarCurve) :=
    [(0, 1, hint 0), (1, 2, hint 1)]
  have hinfo : signerInfo entries = pairOf (longToFr 1, hint 0) (longToFr 2, hint 1) := rfl
  rw [← hinfo] at hpre
  have hlight := S.assembleWitness_ok w s
    (show ∀ i ∈ (HashMap.singleton 0 scalarCurve.h).keys, i < 2 ^ 2 - 1 by
      simp [HashMap.keys, HashMap.singleton])
  have hheavy := S.assembleWitness_ok w s
    (show ∀ i ∈ (HashMap.singleton 1 scalarCurve.h).keys, i < 2 ^ 2 - 1 by
      simp [HashMap.keys, HashMap.singleton])
  have haccepts : acceptsWeights (entries.map fun e ↦ e.2.1) = true :=
    show acceptsWeights [1, 2] = true by decide
  obtain ⟨-, hexact, -⟩ := threshold_exact haccepts hpre
    (show (0 : Int64) < 1 by decide) (show (0 : Int64) < 2 by decide)
  refine ⟨haccepts, hint, _, _, _, _, hpre, hlight, hheavy, ?_, (hexact _ _ hheavy).mpr ?_⟩
  · rw [← Bool.not_eq_true, hexact _ _ hlight]
    simp [sum_range_succ, weightOf, entries, HashMap.keys, HashMap.singleton, List.lookup]
  · simp [sum_range_succ, weightOf, entries, HashMap.keys, HashMap.singleton, List.lookup]

end HieroCryptography.Hints
