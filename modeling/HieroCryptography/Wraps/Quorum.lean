import HieroCryptography.Wraps.LineEngine

namespace HieroCryptography.Wraps

open Foundation Rust

variable {E : Engine}

/-- Whether the seats that signed carry the book, if the book can be weighed at all. -/
def quorumVerdict (ab : AddressBook E) (bitvector : BitVector) : Option Bool :=
  (subsetWeight ab bitvector).map fun sums ↦ meetsThreshold sums.1 sums.2

def SameIfHeld (seat seat' : AddressBookEntry E × Bool) : Prop :=
  seat.1.pubKey = 0 ∧ seat'.1.pubKey = 0 ∨
    seat.1.pubKey = seat'.1.pubKey ∧ seat.1.weight = seat'.1.weight ∧ seat.2 = seat'.2

theorem subsetWeight_eq_none_iff {ab : AddressBook E} (hsize : ab.length ≤ maxAbSize)
    (bitvector : BitVector) : subsetWeight ab bitvector = none ↔ 2 ^ 64 ≤ totalWeight ab := by
  constructor
  · intro hnone
    by_contra hlt
    obtain ⟨signing, total, hsome, -⟩ :=
      subsetWeight_majority hsize (Nat.lt_of_not_le hlt) bitvector
    rw [hnone] at hsome
    cases hsome
  · intro hover
    cases hsums : subsetWeight ab bitvector with
    | none => rfl
    | some sums =>
      have htotal := (subsetWeight_eq_some_iff.mp hsums).2.2
      have hlt := sums.2.toNat_lt
      omega

theorem SameIfHeld.effectiveWeight_eq {seat seat' : AddressBookEntry E × Bool}
    (h : SameIfHeld seat seat') : effectiveWeight seat.1 = effectiveWeight seat'.1 := by
  cases h with
  | inl hempty => simp [effectiveWeight, hempty.1, hempty.2]
  | inr hheld => rw [effectiveWeight, effectiveWeight, hheld.1, hheld.2.1]

theorem SameIfHeld.signedWeight_eq {seat seat' : AddressBookEntry E × Bool}
    (h : SameIfHeld seat seat') : (if seat.2 then effectiveWeight seat.1 else 0) =
      if seat'.2 then effectiveWeight seat'.1 else 0 := by
  rw [← h.effectiveWeight_eq]
  cases h with
  | inl hempty => simp [effectiveWeight, hempty.1]
  | inr hheld => rw [hheld.2.2]

theorem subsetWeight_congr {ab ab' : AddressBook E} {bitvector bitvector' : BitVector}
    (hsize : ab.length ≤ maxAbSize) (hsize' : ab'.length ≤ maxAbSize)
    (h : List.Forall₂ SameIfHeld (seats ab bitvector) (seats ab' bitvector')) :
    subsetWeight ab bitvector = subsetWeight ab' bitvector' := by
  have htotal : totalWeight ab = totalWeight ab' := by
    have hmap := map_eq_of_forall₂ h (f := fun seat ↦ effectiveWeight seat.1)
      fun _ _ hseat ↦ hseat.effectiveWeight_eq
    rw [totalWeight, totalWeight, ← seats_map_fst hsize bitvector,
      ← seats_map_fst hsize' bitvector', List.map_map, List.map_map]
    exact congrArg List.sum hmap
  have hsigning : signingWeight ab bitvector = signingWeight ab' bitvector' :=
    congrArg List.sum (map_eq_of_forall₂ h fun _ _ hseat ↦ hseat.signedWeight_eq)
  apply Option.ext
  intro sums
  rw [subsetWeight_eq_some_iff, subsetWeight_eq_some_iff, htotal, hsigning]
  simp only [hsize, hsize', true_and]

/-- Two majorities of a book have a member in common. -/
theorem exists_common_signer {ab : AddressBook E} {bitvector bitvector' : BitVector}
    (h : totalWeight ab < 2 * signingWeight ab bitvector)
    (h' : totalWeight ab < 2 * signingWeight ab bitvector') :
    ∃ (i : ℕ) (entry : AddressBookEntry E), ab[i]? = some entry ∧ entry.pubKey ≠ 0 ∧
      bitvector[i]? = some true ∧ bitvector'[i]? = some true := by
  by_contra hdisjoint
  have hle := sum_zip_add_sum_zip_le effectiveWeight ab bitvector.toList
    bitvector'.toList fun i entry hentry hb hc ↦ by
      by_contra hweight
      refine hdisjoint ⟨i, entry, hentry, fun hempty ↦ hweight ?_, by simpa using hb,
        by simpa using hc⟩
      simp [effectiveWeight, hempty]
  change signingWeight ab bitvector + signingWeight ab bitvector' ≤ totalWeight ab at hle
  omega

theorem liveKeys_perm {ab ab' : AddressBook E} (h : ab.Perm ab') :
    (liveKeys ab).Perm (liveKeys ab') :=
  (h.map AddressBookEntry.pubKey).filter _

theorem ValidBook.of_perm {ab ab' : AddressBook E} (h : ValidBook ab) (hperm : ab.Perm ab') :
    ValidBook ab' where
  size := hperm.length_eq ▸ h.size
  distinct := (liveKeys_perm hperm).nodup_iff.mp h.distinct
  attested := fun entry hentry ↦ h.attested entry (hperm.mem_iff.mpr hentry)
  weight_lt := by
    have hsum : totalWeight ab = totalWeight ab' := (hperm.map effectiveWeight).sum_eq
    exact hsum ▸ h.weight_lt

theorem validBook_cons_empty_iff {entry : AddressBookEntry E} {ab : AddressBook E}
    (hempty : entry.pubKey = 0) (hsize : (entry :: ab).length ≤ maxAbSize) :
    ValidBook (entry :: ab) ↔ ValidBook ab := by
  have hinf : isInfinity entry.pubKey = true := isInfinity_eq_true_iff.mpr hempty
  have hkeys : liveKeys (entry :: ab) = liveKeys ab := by rw [liveKeys_cons, if_pos hinf]
  have hweight : totalWeight (entry :: ab) = totalWeight ab := by
    rw [totalWeight_cons, effectiveWeight, if_pos hinf, zero_add]
  constructor
  · intro h
    exact ⟨(Nat.le_succ _).trans hsize, hkeys ▸ h.distinct,
      fun other hother ↦ h.attested other (List.mem_cons_of_mem _ hother), hweight ▸ h.weight_lt⟩
  · intro h
    refine ⟨hsize, hkeys ▸ h.distinct, fun other hother hheld ↦ ?_, hweight ▸ h.weight_lt⟩
    cases List.mem_cons.mp hother with
    | inl heq => exact absurd (heq ▸ hempty) hheld
    | inr hmem => exact h.attested other hmem hheld

theorem verifyAddressBook_eq_iff {ab ab' : AddressBook E} :
    verifyAddressBook ab = verifyAddressBook ab' ↔ (ValidBook ab ↔ ValidBook ab') := by
  rw [Bool.eq_iff_iff, verifyAddressBook_eq_true_iff, verifyAddressBook_eq_true_iff]

/-- The traversal of a book decides its specification, whatever the order of the seats and
wherever the empty ones stand. -/
theorem verifyAddressBook_decides_any_order (ab : AddressBook E) :
    (verifyAddressBook ab = true ↔ ab.length ≤ maxAbSize ∧ (liveKeys ab).Nodup ∧
      (∀ entry ∈ ab, entry.pubKey ≠ 0 →
        Schnorr.verifyKnowledge entry.pubKey entry.pok = true) ∧
      totalWeight ab ≤ 2 ^ 64 - 1) ∧
    (∀ ab' : AddressBook E, ab.Perm ab' → verifyAddressBook ab = verifyAddressBook ab') ∧
    (∀ (before after : AddressBook E) (entry : AddressBookEntry E), ab = before ++ after →
      entry.pubKey = 0 → (before ++ entry :: after).length ≤ maxAbSize →
      verifyAddressBook (before ++ entry :: after) = verifyAddressBook ab) := by
  refine ⟨?_, ?_, ?_⟩
  · rw [verifyAddressBook_eq_true_iff]
    constructor
    · intro h
      have hlt := h.weight_lt
      exact ⟨h.size, h.distinct, h.attested, by omega⟩
    · intro h
      obtain ⟨hsize, hdistinct, hattested, hle⟩ := h
      exact ⟨hsize, hdistinct, hattested, by omega⟩
  · intro ab' hperm
    rw [verifyAddressBook_eq_iff]
    exact ⟨fun h ↦ h.of_perm hperm, fun h ↦ h.of_perm hperm.symm⟩
  · intro before after entry hab hempty hsize
    subst hab
    have hperm : (before ++ entry :: after).Perm (entry :: (before ++ after)) := List.perm_middle
    have hsize' : (entry :: (before ++ after)).length ≤ maxAbSize := hperm.length_eq ▸ hsize
    have hseat : ValidBook (entry :: (before ++ after)) ↔ ValidBook (before ++ after) :=
      validBook_cons_empty_iff hempty hsize'
    rw [verifyAddressBook_eq_iff, ← hseat]
    exact ⟨fun h ↦ h.of_perm hperm, fun h ↦ h.of_perm hperm.symm⟩

/-- The weighing loop is exact on the whole range of weights, and the threshold is a strict
majority of the weight that is held. Empty seats have no say, and two quorums intersect. -/
theorem quorum_exact_and_intersecting (ab : AddressBook E) (hsize : ab.length ≤ maxAbSize) :
    (∀ bitvector, subsetWeight ab bitvector = none ↔ 2 ^ 64 - 1 < totalWeight ab) ∧
    (∀ bitvector signing total, subsetWeight ab bitvector = some (signing, total) →
      signing.toNat = signingWeight ab bitvector ∧ total.toNat = totalWeight ab ∧
      (meetsThreshold signing total = true ↔ total.toNat < 2 * signing.toNat)) ∧
    (verifyAddressBook ab = true → ∀ bitvector, (subsetWeight ab bitvector).isSome = true) ∧
    (∀ (ab' : AddressBook E) (bitvector bitvector' : BitVector), ab'.length ≤ maxAbSize →
      List.Forall₂ SameIfHeld (seats ab bitvector) (seats ab' bitvector') →
      quorumVerdict ab bitvector = quorumVerdict ab' bitvector') ∧
    (∀ bitvector bitvector', quorumVerdict ab bitvector = some true →
      quorumVerdict ab bitvector' = some true → ∃ (i : ℕ) (entry : AddressBookEntry E),
        ab[i]? = some entry ∧ entry.pubKey ≠ 0 ∧
        bitvector[i]? = some true ∧ bitvector'[i]? = some true) := by
  have hexact : ∀ bitvector signing total, subsetWeight ab bitvector = some (signing, total) →
      signing.toNat = signingWeight ab bitvector ∧ total.toNat = totalWeight ab ∧
      (meetsThreshold signing total = true ↔ total.toNat < 2 * signing.toNat) := by
    intro bitvector signing total hsome
    obtain ⟨-, hsigning, htotal⟩ := subsetWeight_eq_some_iff.mp hsome
    have hle := signingWeight_le_totalWeight hsize bitvector
    refine ⟨hsigning, htotal, ?_⟩
    rw [meetsThreshold_iff]
    exact and_iff_right (by omega)
  have hmajority : ∀ bitvector, quorumVerdict ab bitvector = some true →
      totalWeight ab < 2 * signingWeight ab bitvector := by
    intro bitvector hverdict
    obtain ⟨⟨signing, total⟩, hsome, hmeets⟩ := Option.map_eq_some_iff.mp hverdict
    obtain ⟨hsigning, htotal, hiff⟩ := hexact bitvector signing total hsome
    have hlt := hiff.mp hmeets
    omega
  refine ⟨fun bitvector ↦ ?_, hexact, fun hvalid bitvector ↦ ?_, ?_, ?_⟩
  · rw [subsetWeight_eq_none_iff hsize]
    omega
  · have hlt := (verifyAddressBook_eq_true_iff.mp hvalid).weight_lt
    obtain ⟨signing, total, hsome, -⟩ := subsetWeight_majority hsize hlt bitvector
    rw [hsome, Option.isSome_some]
  · intro ab' bitvector bitvector' hsize' hsame
    rw [quorumVerdict, quorumVerdict, subsetWeight_congr hsize hsize' hsame]
  · intro bitvector bitvector' h h'
    exact exists_common_signer (hmajority bitvector h) (hmajority bitvector' h')

/-- The two members are a quorum, whatever the bit of the vacant seat. -/
theorem quorum_exact_and_intersecting_pair :
    (pairBook zeroLine).length ≤ maxAbSize ∧
      quorumVerdict (pairBook zeroLine) pairBits = some true ∧
      quorumVerdict (pairBook zeroLine) (Vector.replicate 64 true) = some true ∧
      ∃ (i : ℕ) (entry : AddressBookEntry zeroLine), (pairBook zeroLine)[i]? = some entry ∧
        entry.pubKey ≠ 0 ∧ pairBits[i]? = some true ∧
        (Vector.replicate 64 true : BitVector)[i]? = some true := by
  have hsize : (pairBook zeroLine).length ≤ maxAbSize := pairBook_valid.size
  have hverdict : quorumVerdict (pairBook zeroLine) pairBits = some true := by decide +kernel
  have hall : quorumVerdict (pairBook zeroLine) (Vector.replicate 64 true) = some true := by
    decide +kernel
  obtain ⟨-, -, -, -, hcommon⟩ := quorum_exact_and_intersecting (pairBook zeroLine) hsize
  exact ⟨hsize, hverdict, hall, hcommon _ _ hverdict hall⟩

end HieroCryptography.Wraps
