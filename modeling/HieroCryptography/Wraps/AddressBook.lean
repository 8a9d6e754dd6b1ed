import HieroCryptography.Foundation.Lists
import HieroCryptography.Wraps.Schnorr

namespace HieroCryptography.Wraps

open Foundation Rust

variable {E : Engine}

structure AddressBookEntry (E : Engine) where
  nodeId : E.Base
  pubKey : E.GE
  pok : SchnorrPoK E
  weight : UInt64
  deriving DecidableEq

abbrev AddressBook (E : Engine) := List (AddressBookEntry E)

def sentinelPubkey : E.GE := (0 : E.Scalar) • E.gen

def sentinelAttestedPubkey : E.GE × SchnorrPoK E :=
  (sentinelPubkey, { commitment := sentinelPubkey, challenge := 0, response := 0 })

def paddingEntry : AddressBookEntry E where
  nodeId := -1
  pubKey := sentinelAttestedPubkey.1
  pok := sentinelAttestedPubkey.2
  weight := 0

def paddedBook (ab : AddressBook E) : AddressBook E :=
  ab ++ List.replicate (maxAbSize - ab.length) paddingEntry

def padAddressBook (ab : AddressBook E) : Result (AddressBook E) := do
  require (¬ ab.length > maxAbSize) (.invalidInput
    s!"address book has {ab.length} entries, more than the {maxAbSize} the circuit can take")
  .ok (paddedBook ab)

def entryElements (entry : AddressBookEntry E) : List E.Base :=
  entry.nodeId :: encodePoint entry.pubKey ++ [(entry.weight.toNat : E.Base)]

def hashAddressBook (ab : AddressBook E) : E.Base :=
  E.poseidon dsAddressBook (ab.flatMap entryElements)

/-- The traversal of `verify_address_book`, with its two accumulators. -/
def verifySeats : AddressBook E → List E.GE → UInt64 → Bool
  | [], _, _ => true
  | entry :: rest, seenKeys, totalWeight =>
    if isInfinity entry.pubKey then verifySeats rest seenKeys totalWeight
    else if seenKeys.contains entry.pubKey then false
    else
      match checkedAdd totalWeight entry.weight with
      | none => false
      | some total =>
        Schnorr.verifyKnowledge entry.pubKey entry.pok &&
          verifySeats rest (seenKeys ++ [entry.pubKey]) total

def verifyAddressBook (ab : AddressBook E) : Bool :=
  if ab.length > maxAbSize then false else verifySeats ab [] 0

def hashHintsVk (E : Engine) (vkBytes : Bytes) : E.Base :=
  reduceDigest (E.sha256 (dstHintsVk ++ vkBytes))

def seats (ab : AddressBook E) (bitvector : BitVector) : List (AddressBookEntry E × Bool) :=
  ab.zip bitvector.toList

def signerKey (seat : AddressBookEntry E × Bool) : Option E.GE :=
  if seat.2 && !isInfinity seat.1.pubKey then some seat.1.pubKey else none

def signingSubset (ab : AddressBook E) (bitvector : BitVector) : List E.GE :=
  (seats ab bitvector).filterMap signerKey

def rejectSentinelSigners (ab : AddressBook E) (bitvector : BitVector) : Result Unit :=
  match (seats ab bitvector).findIdx? fun (entry, signed) ↦ signed && isInfinity entry.pubKey with
  | some seat => fail (.invalidInput s!"bitvector selects sentinel seat {seat}")
  | none => .ok ()

def weighSeat (sums : UInt64 × UInt64) (seat : AddressBookEntry E × Bool) :
    Option (UInt64 × UInt64) := do
  let effective := if isInfinity seat.1.pubKey then 0 else seat.1.weight
  let total ← checkedAdd sums.2 effective
  let signing ← (if seat.2 then checkedAdd sums.1 effective else some sums.1)
  some (signing, total)

def subsetWeight (ab : AddressBook E) (bitvector : BitVector) : Option (UInt64 × UInt64) :=
  if ab.length > maxAbSize then none
  else (seats ab bitvector).foldlM weighSeat (0, 0)

def meetsThreshold (signing total : UInt64) : Bool := signing ≤ total && signing > total / 2

theorem meetsThreshold_iff {signing total : UInt64} :
    meetsThreshold signing total = true ↔
      signing.toNat ≤ total.toNat ∧ total.toNat < 2 * signing.toNat := by
  rw [meetsThreshold, Bool.and_eq_true, decide_eq_true_eq, decide_eq_true_eq,
    UInt64.le_iff_toNat_le, gt_iff_lt, UInt64.lt_iff_toNat_lt, UInt64.toNat_div]
  change _ ∧ _ / 2 < _ ↔ _
  omega

/-- What a seat counts for: nothing when its key is the identity. -/
def effectiveWeight (entry : AddressBookEntry E) : ℕ :=
  if isInfinity entry.pubKey then 0 else entry.weight.toNat

def totalWeight (ab : AddressBook E) : ℕ := (ab.map effectiveWeight).sum

def signingWeight (ab : AddressBook E) (bitvector : BitVector) : ℕ :=
  ((seats ab bitvector).map fun seat ↦ if seat.2 then effectiveWeight seat.1 else 0).sum

theorem weighSeat_eq_some_iff {sums sums' : UInt64 × UInt64} {seat : AddressBookEntry E × Bool} :
    weighSeat sums seat = some sums' ↔
      sums'.1.toNat = sums.1.toNat + (if seat.2 then effectiveWeight seat.1 else 0) ∧
        sums'.2.toNat = sums.2.toNat + effectiveWeight seat.1 := by
  obtain ⟨entry, signed⟩ := seat
  obtain ⟨signing', total'⟩ := sums'
  have heff : (if isInfinity entry.pubKey then 0 else entry.weight : UInt64).toNat =
      effectiveWeight entry := by
    unfold effectiveWeight
    split <;> rfl
  simp only [weighSeat, Option.bind_eq_bind, Option.bind_eq_some_iff, checkedAdd_eq_some_iff, heff,
    Option.some.injEq, Prod.mk.injEq]
  cases signed with
  | false =>
    simp only [Bool.false_eq_true, if_false, Option.some.injEq, add_zero, UInt64.toNat_inj]
    constructor
    · rintro ⟨total, htotal, signing, rfl, rfl, rfl⟩
      exact ⟨rfl, htotal⟩
    · rintro ⟨rfl, htotal⟩
      exact ⟨total', htotal, sums.1, rfl, rfl, rfl⟩
  | true =>
    simp only [if_true, checkedAdd_eq_some_iff, heff]
    constructor
    · rintro ⟨total, htotal, signing, hsigning, rfl, rfl⟩
      exact ⟨hsigning, htotal⟩
    · rintro ⟨hsigning, htotal⟩
      exact ⟨total', htotal, signing', hsigning, rfl, rfl⟩

theorem foldlM_weighSeat_eq_some_iff {seats : List (AddressBookEntry E × Bool)}
    {sums sums' : UInt64 × UInt64} :
    seats.foldlM weighSeat sums = some sums' ↔
      sums'.1.toNat = sums.1.toNat +
          (seats.map fun seat ↦ if seat.2 then effectiveWeight seat.1 else 0).sum ∧
        sums'.2.toNat = sums.2.toNat + (seats.map fun seat ↦ effectiveWeight seat.1).sum := by
  induction seats generalizing sums with
  | nil =>
    simp only [List.foldlM_nil, pure, Option.some.injEq, List.map_nil, List.sum_nil, add_zero,
      UInt64.toNat_inj, Prod.ext_iff, eq_comm]
  | cons seat seats ih =>
    simp only [List.foldlM_cons, Option.bind_eq_bind, Option.bind_eq_some_iff, ih,
      weighSeat_eq_some_iff, List.map_cons, List.sum_cons]
    constructor
    · rintro ⟨mid, ⟨hm₁, hm₂⟩, h₁, h₂⟩
      omega
    · rintro ⟨h₁, h₂⟩
      have hlt₁ := sums'.1.toNat_lt
      have hlt₂ := sums'.2.toNat_lt
      refine ⟨(UInt64.ofNat (sums.1.toNat + if seat.2 then effectiveWeight seat.1 else 0),
        UInt64.ofNat (sums.2.toNat + effectiveWeight seat.1)), ?_⟩
      rw [toNat_ofNat_of_lt (by omega), toNat_ofNat_of_lt (by omega)]
      omega

theorem seats_map_fst {ab : AddressBook E} (hsize : ab.length ≤ maxAbSize)
    (bitvector : BitVector) : (seats ab bitvector).map Prod.fst = ab := by
  rw [seats, List.map_fst_zip]
  simpa using hsize

/-- The weighing loop returns the two sums, or nothing when the total is too large. -/
theorem subsetWeight_eq_some_iff {ab : AddressBook E} {bitvector : BitVector}
    {signing total : UInt64} :
    subsetWeight ab bitvector = some (signing, total) ↔ ab.length ≤ maxAbSize ∧
      signing.toNat = signingWeight ab bitvector ∧ total.toNat = totalWeight ab := by
  by_cases hsize : ab.length ≤ maxAbSize
  · have htotal : ((seats ab bitvector).map fun seat ↦ effectiveWeight seat.1) =
        ab.map effectiveWeight := by
      conv_rhs => rw [← seats_map_fst hsize bitvector, List.map_map]
      rfl
    rw [subsetWeight, if_neg (by omega), foldlM_weighSeat_eq_some_iff, htotal]
    simp [hsize, signingWeight, totalWeight]
  · simp [subsetWeight, hsize, Nat.lt_of_not_le hsize]

theorem signingWeight_le_totalWeight {ab : AddressBook E} (hsize : ab.length ≤ maxAbSize)
    (bitvector : BitVector) : signingWeight ab bitvector ≤ totalWeight ab := by
  rw [totalWeight]
  conv_rhs => rw [← seats_map_fst hsize bitvector, List.map_map]
  apply List.sum_le_sum
  intro seat _
  rw [Function.comp_apply]
  split <;> omega

theorem subsetWeight_majority {ab : AddressBook E} (hsize : ab.length ≤ maxAbSize)
    (htotal : totalWeight ab < 2 ^ 64) (bitvector : BitVector) :
    ∃ signing total, subsetWeight ab bitvector = some (signing, total) ∧
      (meetsThreshold signing total = true ↔
        totalWeight ab < 2 * signingWeight ab bitvector) := by
  have hle := signingWeight_le_totalWeight hsize bitvector
  have hsigning : (UInt64.ofNat (signingWeight ab bitvector)).toNat = signingWeight ab bitvector :=
    toNat_ofNat_of_lt (by omega)
  have hfits : (UInt64.ofNat (totalWeight ab)).toNat = totalWeight ab :=
    toNat_ofNat_of_lt htotal
  refine ⟨_, _, subsetWeight_eq_some_iff.mpr ⟨hsize, hsigning, hfits⟩, ?_⟩
  rw [meetsThreshold_iff, hsigning, hfits]
  exact and_iff_right hle

def liveKeys (ab : AddressBook E) : List E.GE :=
  (ab.map AddressBookEntry.pubKey).filter fun pk ↦ !isInfinity pk

structure ValidBook (ab : AddressBook E) : Prop where
  size : ab.length ≤ maxAbSize
  distinct : (liveKeys ab).Nodup
  attested : ∀ entry ∈ ab, entry.pubKey ≠ 0 →
    Schnorr.verifyKnowledge entry.pubKey entry.pok = true
  weight_lt : totalWeight ab < 2 ^ 64

theorem liveKeys_cons (entry : AddressBookEntry E) (ab : AddressBook E) :
    liveKeys (entry :: ab) =
      if isInfinity entry.pubKey then liveKeys ab else entry.pubKey :: liveKeys ab := by
  cases h : isInfinity entry.pubKey <;> simp [liveKeys, h]

theorem totalWeight_cons (entry : AddressBookEntry E) (ab : AddressBook E) :
    totalWeight (entry :: ab) = effectiveWeight entry + totalWeight ab := by
  simp [totalWeight]

theorem verifySeats_eq_true_iff {ab : AddressBook E} {seenKeys : List E.GE} {total : UInt64} :
    verifySeats ab seenKeys total = true ↔ (liveKeys ab).Nodup ∧
      (∀ pk ∈ liveKeys ab, pk ∉ seenKeys) ∧
      (∀ entry ∈ ab, entry.pubKey ≠ 0 →
        Schnorr.verifyKnowledge entry.pubKey entry.pok = true) ∧
      total.toNat + totalWeight ab < 2 ^ 64 := by
  induction ab generalizing seenKeys total with
  | nil =>
    simpa [verifySeats, liveKeys, totalWeight] using total.toNat_lt
  | cons entry ab ih =>
    rw [liveKeys_cons, totalWeight_cons, List.forall_mem_cons]
    cases hinf : isInfinity entry.pubKey with
    | true =>
      rw [verifySeats, if_pos hinf, ih]
      simp [effectiveWeight, isInfinity_eq_true_iff.mp hinf]
    | false =>
      have hlive := isInfinity_eq_false_iff.mp hinf
      have heff : effectiveWeight entry = entry.weight.toNat := by simp [effectiveWeight, hinf]
      rw [verifySeats, hinf, heff]
      simp only [Bool.false_eq_true, if_false, List.contains_iff_mem, List.nodup_cons,
        List.forall_mem_cons]
      -- a key seen before and an overflow end the traversal before the proof is looked at
      by_cases hseen : entry.pubKey ∈ seenKeys
      · simp [hseen]
      rw [if_neg hseen]
      cases hadd : checkedAdd total entry.weight with
      | none =>
        have hover := checkedAdd_eq_none_iff.mp hadd
        simp only [Bool.false_eq_true, false_iff]
        omega
      | some total' =>
        rw [checkedAdd_eq_some_iff] at hadd
        simp only [Bool.and_eq_true, ih, List.mem_append, List.mem_singleton, not_or]
        constructor
        · rintro ⟨hpok, hnodup, hnew, hrest, hlt⟩
          exact ⟨⟨fun hmem ↦ (hnew _ hmem).2 rfl, hnodup⟩, ⟨hseen, fun pk hpk ↦ (hnew pk hpk).1⟩,
            ⟨fun _ ↦ hpok, hrest⟩, by omega⟩
        · rintro ⟨⟨hnotin, hnodup⟩, ⟨-, hnew⟩, ⟨hpok, hrest⟩, hlt⟩
          refine ⟨hpok hlive, hnodup, fun pk hpk ↦ ⟨hnew pk hpk, ?_⟩, hrest, by omega⟩
          rintro rfl
          exact hnotin hpk

theorem verifyAddressBook_eq_true_iff {ab : AddressBook E} :
    verifyAddressBook ab = true ↔ ValidBook ab := by
  unfold verifyAddressBook
  split
  · rename_i hsize
    simp only [Bool.false_eq_true, false_iff]
    exact fun h ↦ absurd h.size (by omega)
  · rename_i hsize
    rw [verifySeats_eq_true_iff]
    constructor
    · rintro ⟨hnodup, -, hpok, hlt⟩
      exact ⟨by omega, hnodup, hpok, by simpa using hlt⟩
    · intro h
      exact ⟨h.distinct, by simp, h.attested, by simpa using h.weight_lt⟩

theorem isInfinity_sentinel : isInfinity (sentinelPubkey : E.GE) = true := by
  rw [isInfinity_eq_true_iff, sentinelPubkey, zero_smul]

theorem padAddressBook_ok_iff {ab padded : AddressBook E} :
    padAddressBook ab = .ok padded ↔ ab.length ≤ maxAbSize ∧ padded = paddedBook ab := by
  simp only [padAddressBook, bind_ok_iff, require_ok_iff, exists_const, decide_eq_true_eq, not_lt,
    Except.ok.injEq, eq_comm (b := padded)]

theorem mem_padding_seats {k : ℕ} {bits : List Bool} {seat : AddressBookEntry E × Bool}
    (h : seat ∈ (List.replicate k paddingEntry).zip bits) : isInfinity seat.1.pubKey = true := by
  have hentry := (List.mem_replicate.mp (List.of_mem_zip h).1).2
  rw [hentry]
  exact isInfinity_sentinel

theorem signingSubset_append_padding (ab : AddressBook E) (k : ℕ) (bitvector : BitVector) :
    signingSubset (ab ++ List.replicate k paddingEntry) bitvector = signingSubset ab bitvector := by
  rw [signingSubset, seats, zip_append_drop, List.filterMap_append, signingSubset, seats]
  convert List.append_nil _
  rw [List.filterMap_eq_nil_iff]
  intro seat hseat
  simp [signerKey, mem_padding_seats hseat]

theorem totalWeight_append_padding (ab : AddressBook E) (k : ℕ) :
    totalWeight (ab ++ List.replicate k paddingEntry) = totalWeight ab := by
  have hpad : effectiveWeight (paddingEntry : AddressBookEntry E) = 0 :=
    if_pos isInfinity_sentinel
  simp [totalWeight, hpad]

theorem signingWeight_append_padding (ab : AddressBook E) (k : ℕ) (bitvector : BitVector) :
    signingWeight (ab ++ List.replicate k paddingEntry) bitvector =
      signingWeight ab bitvector := by
  rw [signingWeight, seats, zip_append_drop, List.map_append, List.sum_append, signingWeight, seats]
  convert Nat.add_zero _
  apply List.sum_eq_zero
  intro x hx
  obtain ⟨seat, hseat, rfl⟩ := List.mem_map.mp hx
  simp [effectiveWeight, mem_padding_seats hseat]

theorem length_paddedBook {ab : AddressBook E} (hsize : ab.length ≤ maxAbSize) :
    (paddedBook ab).length = maxAbSize := by
  rw [paddedBook, List.length_append, List.length_replicate]
  omega

theorem paddedBook_paddedBook {ab : AddressBook E} (hsize : ab.length ≤ maxAbSize) :
    paddedBook (paddedBook ab) = paddedBook ab := by
  rw [paddedBook, length_paddedBook hsize, Nat.sub_self, List.replicate_zero, List.append_nil]

theorem signingSubset_paddedBook (ab : AddressBook E) (bitvector : BitVector) :
    signingSubset (paddedBook ab) bitvector = signingSubset ab bitvector :=
  signingSubset_append_padding ..

theorem totalWeight_paddedBook (ab : AddressBook E) :
    totalWeight (paddedBook ab) = totalWeight ab :=
  totalWeight_append_padding ..

theorem signingWeight_paddedBook (ab : AddressBook E) (bitvector : BitVector) :
    signingWeight (paddedBook ab) bitvector = signingWeight ab bitvector :=
  signingWeight_append_padding ..

theorem subsetWeight_paddedBook {ab : AddressBook E} (hvalid : ValidBook ab)
    (bitvector : BitVector) :
    ∃ signing total, subsetWeight (paddedBook ab) bitvector = some (signing, total) ∧
      (meetsThreshold signing total = true ↔
        totalWeight ab < 2 * signingWeight ab bitvector) := by
  have hfits : totalWeight (paddedBook ab) < 2 ^ 64 := by
    rw [totalWeight_paddedBook]
    exact hvalid.weight_lt
  obtain ⟨signing, total, hweight, hmajority⟩ :=
    subsetWeight_majority (length_paddedBook hvalid.size).le hfits bitvector
  rw [totalWeight_paddedBook, signingWeight_paddedBook] at hmajority
  exact ⟨signing, total, hweight, hmajority⟩

theorem filterMap_signerKey_sublist (seats : List (AddressBookEntry E × Bool)) :
    (seats.filterMap signerKey).Sublist (liveKeys (seats.map Prod.fst)) := by
  induction seats with
  | nil => exact .slnil
  | cons seat seats ih =>
    obtain ⟨entry, signed⟩ := seat
    rw [List.map_cons, liveKeys_cons]
    cases hinf : isInfinity entry.pubKey with
    | true =>
      rw [List.filterMap_cons_none (by simp [signerKey, hinf])]
      exact ih
    | false =>
      cases signed with
      | true =>
        rw [List.filterMap_cons_some (b := entry.pubKey) (by simp [signerKey, hinf])]
        exact ih.cons_cons _
      | false =>
        rw [List.filterMap_cons_none rfl]
        exact ih.cons _

theorem signingSubset_nodup {ab : AddressBook E} (h : ValidBook ab) (bitvector : BitVector) :
    (signingSubset ab bitvector).Nodup := by
  have hsub := filterMap_signerKey_sublist (seats ab bitvector)
  rw [seats_map_fst h.size] at hsub
  exact hsub.nodup h.distinct

theorem rejectSentinelSigners_ok_iff {ab : AddressBook E} {bitvector : BitVector} {u : Unit} :
    rejectSentinelSigners ab bitvector = .ok u ↔
      ∀ seat ∈ seats ab bitvector, seat.2 = true → seat.1.pubKey ≠ 0 := by
  unfold rejectSentinelSigners
  split
  · rename_i seat hseat
    obtain ⟨hlt, hsel, -⟩ := List.findIdx?_eq_some_iff_getElem.mp hseat
    simp only [Bool.and_eq_true, isInfinity_eq_true_iff] at hsel
    simp only [fail_ne_ok, false_iff]
    exact fun h ↦ h _ (List.getElem_mem hlt) hsel.1 hsel.2
  · rename_i hnone
    rw [List.findIdx?_eq_none_iff] at hnone
    simp only [true_iff]
    intro seat hseat hsigned
    simpa [hsigned] using hnone seat hseat

/-- What the commitment holds of a seat: everything but the proof of knowledge. -/
def seatData (entry : AddressBookEntry E) : E.Base × E.GE × UInt64 :=
  (entry.nodeId, entry.pubKey, entry.weight)

theorem length_flatMap_entryElements (ab : AddressBook E) :
    (ab.flatMap entryElements).length = 5 * ab.length := by
  induction ab with
  | nil => rfl
  | cons entry ab ih =>
    rw [List.flatMap_cons, List.length_append, ih, List.length_cons, Nat.mul_succ, Nat.add_comm]
    rfl

theorem weight_cast_injective {w w' : UInt64} (h : (w.toNat : E.Base) = (w'.toNat : E.Base)) :
    w = w' := by
  have hq : 2 ^ 64 < E.baseModulus := lt_trans (by decide) E.challenge_lt
  have hw := congrArg ZMod.val h
  rw [ZMod.val_cast_of_lt (w.toNat_lt.trans hq), ZMod.val_cast_of_lt (w'.toNat_lt.trans hq)] at hw
  exact UInt64.toNat_inj.mp hw

theorem entryElements_eq_iff {a b : AddressBookEntry E} :
    entryElements a = entryElements b ↔ seatData a = seatData b := by
  constructor
  · intro h
    rw [entryElements, entryElements, List.cons_append, List.cons_append, List.cons.injEq] at h
    obtain ⟨hkey, hweight⟩ := List.append_inj h.2 rfl
    exact Prod.ext h.1 (Prod.ext (encodePoint_injective hkey)
      (weight_cast_injective (List.cons.inj hweight).1))
  · intro h
    simp only [seatData, Prod.mk.injEq] at h
    rw [entryElements, entryElements, h.1, h.2.1, h.2.2]

theorem elements_eq_iff {as bs : AddressBook E} :
    as.flatMap entryElements = bs.flatMap entryElements ↔ as.map seatData = bs.map seatData := by
  induction as generalizing bs with
  | nil =>
    cases bs with
    | nil => simp
    | cons b bs => simp [entryElements]
  | cons a as ih =>
    cases bs with
    | nil => simp [entryElements]
    | cons b bs =>
      rw [List.flatMap_cons, List.flatMap_cons, List.map_cons, List.map_cons, List.cons.injEq, ← ih,
        ← entryElements_eq_iff]
      exact ⟨fun h ↦ List.append_inj h rfl, fun h ↦ by rw [h.1, h.2]⟩

end HieroCryptography.Wraps
