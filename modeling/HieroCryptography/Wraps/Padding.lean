import HieroCryptography.Wraps.LineEngine
import HieroCryptography.Wraps.Proof

namespace HieroCryptography.Wraps

open Foundation Rust

variable {E : Engine}

section Append

variable (ab : AddressBook E) (k : ℕ)

theorem liveKeys_append_padding : liveKeys (ab ++ List.replicate k paddingEntry) = liveKeys ab := by
  have hempty : liveKeys (List.replicate k (paddingEntry : AddressBookEntry E)) = [] := by
    rw [liveKeys, List.filter_eq_nil_iff, List.map_replicate]
    intro pk hpk
    rw [(List.mem_replicate.mp hpk).2]
    simp only [Bool.not_eq_true', Bool.not_eq_false]
    exact isInfinity_sentinel
  rw [liveKeys, List.map_append, List.filter_append]
  exact (congrArg (liveKeys ab ++ ·) hempty).trans (List.append_nil _)

variable {ab k}

theorem validBook_append_padding_iff (hsize : ab.length + k ≤ maxAbSize) :
    ValidBook (ab ++ List.replicate k paddingEntry) ↔ ValidBook ab := by
  constructor
  · intro h
    refine ⟨by omega, ?_, fun entry hentry ↦ h.attested entry (List.mem_append_left _ hentry), ?_⟩
    · rw [← liveKeys_append_padding ab k]
      exact h.distinct
    · rw [← totalWeight_append_padding ab k]
      exact h.weight_lt
  · intro h
    refine ⟨by simpa using hsize, ?_, fun entry hentry hlive ↦ ?_, ?_⟩
    · rw [liveKeys_append_padding]
      exact h.distinct
    · rcases List.mem_append.mp hentry with hmem | hmem
      · exact h.attested entry hmem hlive
      · rw [(List.mem_replicate.mp hmem).2] at hlive
        exact absurd (isInfinity_eq_true_iff.mp isInfinity_sentinel) hlive
    · rw [totalWeight_append_padding]
      exact h.weight_lt

theorem verifyAddressBook_append_padding (hsize : ab.length + k ≤ maxAbSize) :
    verifyAddressBook (ab ++ List.replicate k paddingEntry) = verifyAddressBook ab := by
  rw [Bool.eq_iff_iff, verifyAddressBook_eq_true_iff, verifyAddressBook_eq_true_iff,
    validBook_append_padding_iff hsize]

theorem paddedBook_append_padding (hsize : ab.length + k ≤ maxAbSize) :
    paddedBook (ab ++ List.replicate k paddingEntry) = paddedBook ab := by
  have hcount : k + (maxAbSize - (ab.length + k)) = maxAbSize - ab.length := by omega
  rw [paddedBook, List.length_append, List.length_replicate, List.append_assoc,
    List.replicate_append_replicate, hcount, paddedBook]

theorem padAddressBook_append_padding (hsize : ab.length + k ≤ maxAbSize) :
    padAddressBook (ab ++ List.replicate k paddingEntry) = padAddressBook ab := by
  rw [padAddressBook_ok_iff.mpr ⟨by simpa using hsize, rfl⟩,
    padAddressBook_ok_iff.mpr ⟨by omega, rfl⟩, paddedBook_append_padding hsize]

theorem computeAddressbookHash_append_padding (hsize : ab.length + k ≤ maxAbSize) :
    computeAddressbookHash (ab ++ List.replicate k paddingEntry) = computeAddressbookHash ab := by
  rw [computeAddressbookHash, verifyAddressBook_append_padding hsize,
    padAddressBook_append_padding hsize, computeAddressbookHash]

theorem padding_seats_unselected {bitvector : BitVector}
    (hinside : ∀ signed ∈ bitvector.toList.drop ab.length, signed = false)
    {seat : AddressBookEntry E × Bool}
    (hseat : seat ∈ (List.replicate k paddingEntry).zip (bitvector.toList.drop ab.length)) :
    seat.2 = false :=
  hinside _ (List.of_mem_zip hseat).2

theorem rejectSentinelSigners_append_padding {bitvector : BitVector}
    (hinside : ∀ signed ∈ bitvector.toList.drop ab.length, signed = false) :
    rejectSentinelSigners (ab ++ List.replicate k paddingEntry) bitvector =
      rejectSentinelSigners ab bitvector := by
  rw [rejectSentinelSigners, seats, zip_append_drop, findIdx?_append_of_forall,
    rejectSentinelSigners, seats]
  intro seat hseat
  simp [padding_seats_unselected hinside hseat]

theorem any_drop_eq_false {bitvector : BitVector} {n m : ℕ} (hle : n ≤ m)
    (hinside : ∀ signed ∈ bitvector.toList.drop n, signed = false) :
    (bitvector.toList.drop m).any id = false := by
  rw [List.any_eq_false]
  intro signed hsigned
  have hmem : signed ∈ bitvector.toList.drop n := by
    obtain ⟨j, rfl⟩ := Nat.exists_eq_add_of_le hle
    rw [← List.drop_drop] at hsigned
    exact List.mem_of_mem_drop hsigned
  simp [hinside signed hmem]

theorem verifySignature_append_padding (S : Serde E) (hsize : ab.length + k ≤ maxAbSize)
    (message : Bytes) {bitvector : BitVector}
    (hinside : ∀ signed ∈ bitvector.toList.drop ab.length, signed = false)
    (signature : Signature E) :
    verifySignature S (ab ++ List.replicate k paddingEntry) message (bitvector, signature) =
      verifySignature S ab message (bitvector, signature) := by
  have hlong : (slice bitvector.toList (ab ++ List.replicate k paddingEntry).length maxAbSize :
      Result (List Bool)) = _ := slice_outside_ok_iff.mpr ⟨by simpa using hsize, rfl⟩
  have hshort : (slice bitvector.toList ab.length maxAbSize : Result (List Bool)) = _ :=
    slice_outside_ok_iff.mpr ⟨by omega, rfl⟩
  have hle : ab.length ≤ (ab ++ List.replicate k (paddingEntry : AddressBookEntry E)).length := by
    simp
  simp only [verifySignature, verifyAddressBook_append_padding hsize, hlong, hshort, ok_bind,
    any_drop_eq_false hle hinside, any_drop_eq_false le_rfl hinside,
    rejectSentinelSigners_append_padding hinside, padAddressBook_append_padding hsize]

end Append

theorem pairBits_inside : ∀ signed ∈ pairBits.toList.drop (pairBook E).length, signed = false :=
  show ∀ signed ∈ pairBits.toList.drop 3, signed = false by decide

theorem pairBook_signed {next : List E.Base} {sig : Signature E}
    (h : Schnorr.verify (signingSubset (pairBook E) pairBits).sum next sig = true) :
    Signed (pairBook E) pairBits next sig where
  valid := pairBook_valid
  inside := pairBits_inside
  held := by
    rw [seats_pair]
    simp [pairBook, first_pk, second_pk, E.gen_ne_zero, gen_add_gen_ne_zero]
  majority := pairBook_majority
  joint := pairBook_joint
  verified := h

end HieroCryptography.Wraps
