import HieroCryptography.Wraps.Circuit

namespace HieroCryptography.Wraps

open Foundation Rust Synthesis

variable {E : Engine} {G : Gadgets E}

theorem exists_bits {v : ℕ → E.Base} {α : Type} {as : List α} {bits : List AllocatedBit}
    (h : List.Forall₂ (fun _ bit ↦ ∃ b, AllocatedBit.Is v bit b) as bits) :
    ∃ bs, List.Forall₂ (AllocatedBit.Is v) bits bs ∧ bs.length = as.length := by
  induction h with
  | nil => exact ⟨[], .nil, rfl⟩
  | cons hb _ ih =>
    obtain ⟨b, hb⟩ := hb
    obtain ⟨bs, hbs, hlen⟩ := ih
    exact ⟨b :: bs, .cons hb hbs, by simp [hlen]⟩

theorem sound_allocBits (bits : List Bool) :
    Sound (allocBits bits : Circuit E _) fun v allocated ↦
      ∃ bs, List.Forall₂ (AllocatedBit.Is v) allocated bs ∧ bs.length = bits.length :=
  (Sound.mapM (fun _ ↦ sound_allocBit _) bits).mono fun _ _ ↦ exists_bits

theorem sound_enforceEqual (a b : AllocatedNum E.Base) :
    Sound (enforceEqual a b) fun v _ ↦ a.eval v = b.eval v := by
  refine (sound_enforce _ _ _).mono fun v _ h ↦ sub_eq_zero.mp ?_
  simpa [AllocatedNum.eval, sub_eq_add_neg] using h

theorem eval_ones (v : ℕ → E.Base) (terms : List (AllocatedNum E.Base)) :
    LinearCombination.eval v (terms.map fun term ↦ (1, term.wire)) =
      (terms.map (AllocatedNum.eval v)).sum := by
  simp only [LinearCombination.eval, List.map_map, Function.comp_def, one_mul]
  rfl

theorem sound_sumOf (terms : List (AllocatedNum E.Base)) :
    Sound (sumOf terms) fun v sum ↦ sum.eval v = (terms.map (AllocatedNum.eval v)).sum := by
  refine Sound.bind (sound_allocNum _) fun sum ↦ Sound.bind (sound_enforce _ _ _) fun _ ↦
    Sound.pure fun v h _ ↦ ?_
  rw [eval_ones] at h
  simpa [AllocatedNum.eval, eq_comm] using h

/-- Bits that are too few to reach the modulus are the representation of their number. -/
theorem val_ofBits {bs : List Bool} (h : bs.length ≤ numChallengeBits) :
    (ofBits bs : E.Base).val = ofBits bs := by
  apply ZMod.val_cast_of_lt
  calc ofBits bs < 2 ^ bs.length := ofBits_lt bs
    _ ≤ 2 ^ numChallengeBits := Nat.pow_le_pow_right (by decide) h
    _ < E.baseModulus := E.challenge_lt

theorem sound_enforceRange (hG : G.Enforcing) (value : AllocatedNum E.Base) {numBits : ℕ}
    (hbits : numBits ≤ numChallengeBits) :
    Sound (enforceRange G value numBits) fun v _ ↦ (value.eval v).val < 2 ^ numBits := by
  refine Sound.bind (Sound.mapM (fun _ ↦ sound_allocBit _) _) fun allocated ↦
    Sound.bind (hG.leBitsToNum allocated) fun recomposed ↦
      (sound_enforceEqual value recomposed).mono fun v _ heq hnum hallocated ↦ ?_
  obtain ⟨bs, hbs, hlen⟩ := exists_bits hallocated
  rw [List.length_range] at hlen
  rw [heq, hnum bs hbs, val_ofBits (by omega), ← hlen]
  exact ofBits_lt bs

theorem sound_enforceGreaterThan (hG : G.Enforcing) (a b : AllocatedNum E.Base) {boundBits : ℕ}
    (hbits : boundBits ≤ numChallengeBits) :
    Sound (enforceGreaterThan G a b boundBits) fun v _ ↦
      (a.eval v - b.eval v - 1).val < 2 ^ boundBits := by
  refine Sound.bind (sound_allocNum _) fun difference ↦ Sound.bind (sound_enforce _ _ _) fun _ ↦
    (sound_enforceRange hG difference hbits).mono fun v _ hrange hdiff _ ↦ ?_
  have heq : a.eval v - b.eval v - 1 = difference.eval v := by
    simp only [LinearCombination.eval_cons, LinearCombination.eval_nil, Variable.eval_one] at hdiff
    simp only [AllocatedNum.eval]
    linear_combination hdiff
  rw [heq]
  exact hrange

theorem sound_allocSeat (hG : G.Enforcing) (entry : AddressBookEntry E) :
    Sound (allocSeat G entry) fun _ _ ↦ True :=
  Sound.bind (hG.allocPoint _) fun key ↦ Sound.bind (hG.checkOnCurve key) fun _ ↦
    Sound.bind (sound_allocNum _) fun weight ↦
      Sound.bind (sound_enforceRange hG weight (by decide)) fun _ ↦
        Sound.bind (sound_allocNum _) fun _ ↦ Sound.pure fun _ _ _ _ _ _ ↦ trivial

def SeatAdvice.Is (v : ℕ → E.Base) (seat : SeatAdvice E) (entry : AddressBookEntry E) : Prop :=
  seat.elements.map (AllocatedNum.eval v) = entryElements entry

theorem SeatAdvice.Is.fields {v : ℕ → E.Base} {seat : SeatAdvice E} {entry : AddressBookEntry E}
    (h : seat.Is v entry) :
    seat.key.Denotes v entry.pubKey ∧ seat.weight.eval v = (entry.weight.toNat : E.Base) := by
  rw [SeatAdvice.Is, SeatAdvice.elements, entryElements, List.cons_append, List.map_cons,
    List.cons_append, List.cons.injEq, List.map_append] at h
  obtain ⟨hkey, hweight⟩ := List.append_inj h.2 rfl
  exact ⟨hkey, (List.cons.inj hweight).1⟩

theorem AllocatedPoint.Denotes.isInfinity {v : ℕ → E.Base} {p : AllocatedPoint E} {P : E.GE}
    (h : p.Denotes v P) : p.isInfinity.eval v = if Wraps.isInfinity P then 1 else 0 := by
  simp only [AllocatedPoint.Denotes, AllocatedPoint.coordinates, encodePoint, List.map_cons,
    List.map_nil, List.cons.injEq] at h
  exact h.2.2.1

def Counts (v : ℕ → E.Base) (num : AllocatedNum E.Base) (n : ℕ) : Prop :=
  num.eval v = (n : E.Base)

/-- Whatever entry the seat is, the number is its effective weight. -/
def Weighs (v : ℕ → E.Base) (seat : SeatAdvice E) (effective : AllocatedNum E.Base) : Prop :=
  ∀ entry, seat.Is v entry → Counts v effective (effectiveWeight entry)

def Masks (v : ℕ → E.Base) (seat : AllocatedNum E.Base × AllocatedBit)
    (masked : AllocatedNum E.Base) : Prop :=
  ∀ w b, Counts v seat.1 w → seat.2.Is v b → Counts v masked (if b then w else 0)

theorem sound_allocEffective (entry : AddressBookEntry E) (seat : SeatAdvice E) :
    Sound (allocEffective entry seat) fun v effective ↦ Weighs v seat effective := by
  refine Sound.bind (sound_allocNum _) fun effective ↦ Sound.bind (sound_enforce _ _ _) fun _ ↦
    Sound.pure fun v h _ held hseat ↦ ?_
  obtain ⟨hkey, hweight⟩ := hseat.fields
  have heff : effective.eval v = seat.weight.eval v * (1 - seat.key.isInfinity.eval v) := by
    simp only [LinearCombination.eval_cons, LinearCombination.eval_nil, Variable.eval_one] at h
    simp only [AllocatedNum.eval]
    linear_combination -h
  rw [Counts, heff, hweight, hkey.isInfinity, effectiveWeight]
  split <;> simp

theorem sound_allocMasked (signed : Bool) (effective : AllocatedNum E.Base) (bit : AllocatedBit) :
    Sound (allocMasked signed effective bit) fun v masked ↦ Masks v (effective, bit) masked := by
  refine Sound.bind (sound_allocNum _) fun masked ↦ Sound.bind (sound_enforce _ _ _) fun _ ↦
    Sound.pure fun v h _ w b hw hb ↦ ?_
  have hmasked : masked.eval v = bit.wire.eval v * effective.eval v := by
    simp only [LinearCombination.eval_cons, LinearCombination.eval_nil] at h
    simp only [AllocatedNum.eval]
    linear_combination -h
  rw [Counts, hmasked, hb, hw]
  cases b <;> simp

theorem sum_eval {v : ℕ → E.Base} {nums : List (AllocatedNum E.Base)} {ns : List ℕ}
    (h : List.Forall₂ (Counts v) nums ns) :
    (nums.map (AllocatedNum.eval v)).sum = ((ns.sum : ℕ) : E.Base) := by
  induction h with
  | nil => simp
  | cons hn _ ih => rw [List.map_cons, List.sum_cons, ih, hn, List.sum_cons, Nat.cast_add]

theorem cast_inj_of_lt {a b : ℕ} (ha : a < E.baseModulus) (hb : b < E.baseModulus)
    (h : (a : E.Base) = (b : E.Base)) : a = b := by
  rw [← ZMod.val_cast_of_lt ha, ← ZMod.val_cast_of_lt hb, h]

/-- The comparison by a bounded difference: operands below the bound cannot wrap around. -/
theorem lt_of_val_sub_lt {a b : ℕ} (ha : a < 2 ^ weightBits) (hb : b < 2 ^ weightBits)
    (h : ((a : E.Base) - (b : E.Base) - 1).val < 2 ^ weightBits) : b < a := by
  have hq := E.challenge_lt
  have hpow : 2 ^ weightBits + 2 ^ weightBits + 1 ≤ 2 ^ numChallengeBits := by decide
  have hcast : (((((a : E.Base) - (b : E.Base) - 1).val + b + 1 : ℕ)) : E.Base) = (a : E.Base) := by
    push_cast [ZMod.natCast_zmod_val]
    ring
  have heq := cast_inj_of_lt (by omega) (by omega) hcast
  omega

theorem totalWeight_le (ab : AddressBook E) : totalWeight ab ≤ ab.length * 2 ^ 64 := by
  have h := List.sum_le_card_nsmul (ab.map effectiveWeight) (2 ^ 64) fun w hw ↦ by
    obtain ⟨entry, -, rfl⟩ := List.mem_map.mp hw
    have := entry.weight.toNat_lt
    unfold effectiveWeight
    split <;> omega
  simpa [totalWeight] using h

theorem majority_of_constraints {total signing : ℕ} (hle : signing ≤ total)
    (htotal : total ≤ maxAbSize * 2 ^ 64)
    (hrange : (total : E.Base).val < 2 ^ weightBits)
    (hcompare : ((signing : E.Base) - ((total : E.Base) - (signing : E.Base)) - 1).val <
      2 ^ weightBits) : total < 2 ^ 64 ∧ total < 2 * signing := by
  have hq : maxAbSize * 2 ^ 64 < E.baseModulus :=
    lt_of_lt_of_le (by decide) E.challenge_lt.le
  rw [ZMod.val_cast_of_lt (by omega)] at hrange
  rw [← Nat.cast_sub hle] at hcompare
  have hlt := lt_of_val_sub_lt (E := E) (by omega) (by omega) hcompare
  exact ⟨hrange, by omega⟩

theorem sound_checkMajority (hG : G.Enforcing) (prevAb : AddressBook E) (bitvector : BitVector)
    (seats : List (SeatAdvice E)) (bits : List AllocatedBit) :
    Sound (checkMajority G prevAb bitvector seats bits) fun v _ ↦
      seats.length ≤ prevAb.length → ∀ (ab : AddressBook E) (chosen : BitVector),
      List.Forall₂ (SeatAdvice.Is v) seats ab →
      List.Forall₂ (AllocatedBit.Is v) bits chosen.toList → ab.length ≤ maxAbSize →
        totalWeight ab < 2 ^ 64 ∧ totalWeight ab < 2 * signingWeight ab chosen := by
  refine Sound.bind (Sound.mapM (fun p : AddressBookEntry E × SeatAdvice E ↦
      sound_allocEffective p.1 p.2) _) fun effective ↦
    Sound.bind (Sound.mapM (fun p : Bool × AllocatedNum E.Base × AllocatedBit ↦
      sound_allocMasked p.1 p.2.1 p.2.2) _) fun masked ↦
    Sound.bind (sound_sumOf masked) fun signing ↦ Sound.bind (sound_sumOf effective) fun total ↦
    Sound.bind (sound_enforceRange hG total (by decide)) fun _ ↦
    Sound.bind (sound_allocNum _) fun remaining ↦ Sound.bind (sound_enforce _ _ _) fun _ ↦
    (sound_enforceGreaterThan hG signing remaining (by decide)).mono
      fun v _ hcompare hremaining _ hrange htotal hsigning hmasked heffective hseats ab chosen
        hab hbs hsize ↦ ?_
  -- the wires of the two loops carry the native weights, seat by seat
  have heff : List.Forall₂ (Counts v) effective (ab.map effectiveWeight) := by
    rw [List.forall₂_map_right_iff]
    exact forall₂_join (forall₂_of_zip (R := Weighs v) hseats heffective) hab
      fun _ _ _ h hseat ↦ h _ hseat
  have hmask : List.Forall₂ (Counts v) masked
      ((Wraps.seats ab chosen).map fun seat ↦
        if seat.2 then effectiveWeight seat.1 else 0) := by
    rw [List.forall₂_map_right_iff]
    rw [List.forall₂_map_right_iff] at heff
    refine forall₂_join (forall₂_of_zip (R := Masks v) ?_ hmasked) (forall₂_zip heff hbs)
      fun _ _ _ h hseat ↦ h _ _ hseat.1 hseat.2
    have hbits := hbs.length_eq
    rw [Vector.length_toList] at hbits
    rw [List.length_zip, Vector.length_toList]
    omega
  rw [sum_eval heff] at htotal
  rw [sum_eval hmask] at hsigning
  have hrem : remaining.eval v = total.eval v - signing.eval v := by
    simp only [LinearCombination.eval_cons, LinearCombination.eval_nil, Variable.eval_one]
      at hremaining
    simp only [AllocatedNum.eval]
    linear_combination -hremaining
  rw [hrem, htotal, hsigning] at hcompare
  rw [htotal] at hrange
  -- at most `maxAbSize` weights of 64 bits cannot wrap around the modulus
  refine majority_of_constraints (signingWeight_le_totalWeight hsize chosen) ?_ hrange hcompare
  exact (totalWeight_le ab).trans (Nat.mul_le_mul_right _ hsize)

def maskedKey (seat : AddressBookEntry E × Bool) : E.GE := if seat.2 then seat.1.pubKey else 0

theorem foldl_maskedKey (seats : List (AddressBookEntry E × Bool)) :
    seats.foldl (fun P seat ↦ P + maskedKey seat) 0 = (seats.filterMap signerKey).sum := by
  have hsum : (seats.map maskedKey).sum = (seats.filterMap signerKey).sum := by
    induction seats with
    | nil => rfl
    | cons seat seats ih =>
      obtain ⟨entry, signed⟩ := seat
      rw [List.map_cons, List.sum_cons, ih, List.filterMap_cons]
      by_cases hzero : entry.pubKey = 0
      · simp [maskedKey, signerKey, hzero]
      · cases signed <;> simp [maskedKey, signerKey, hzero]
  rw [← hsum, List.sum_eq_foldl, List.foldl_map]

theorem sound_allocJointKey (hG : G.Enforcing) (seats : List (SeatAdvice E))
    (bits : List AllocatedBit) :
    Sound (allocJointKey G seats bits) fun v pk ↦ ∀ ab bs,
      List.Forall₂ (SeatAdvice.Is v) seats ab → List.Forall₂ (AllocatedBit.Is v) bits bs →
        pk.Denotes v ((ab.zip bs).filterMap signerKey).sum ∧
          ((ab.zip bs).filterMap signerKey).sum ≠ 0 := by
  have hturn : ∀ (pk : AllocatedPoint E) (seat : SeatAdvice E × AllocatedBit),
      Sound (do
        let masked ← G.selectPointOrInfinity seat.1.key (.is seat.2)
        G.add pk masked) fun v pk' ↦ ∀ (P : E.GE) (native : AddressBookEntry E × Bool),
          pk.Denotes v P → seat.1.Is v native.1 ∧ seat.2.Is v native.2 →
            pk'.Denotes v (P + maskedKey native) := by
    intro pk seat
    refine Sound.bind (hG.selectPointOrInfinity seat.1.key seat.2) fun masked ↦
      (hG.add pk masked).mono fun v pk' hadd hselect P native hP hnative ↦ ?_
    exact hadd P _ hP (hselect _ _ hnative.1.fields.1 hnative.2)
  refine Sound.bind hG.defaultPoint fun start ↦
    Sound.bind (Sound.foldlM hturn (seats.zip bits) start) fun pk ↦
    Sound.bind (sound_enforce _ _ _) fun _ ↦
    Sound.pure fun v hfinite hloop hstart ab bs hab hbs ↦ ?_
  have hpk := hloop 0 (ab.zip bs) hstart (forall₂_zip hab hbs)
  rw [foldl_maskedKey] at hpk
  refine ⟨hpk, fun hzero ↦ ?_⟩
  have hflag := hpk.isInfinity
  rw [isInfinity_eq_true_iff.mpr hzero] at hflag
  simp only [LinearCombination.eval_cons, LinearCombination.eval_nil, Variable.eval_one] at hfinite
  simp only [AllocatedNum.eval] at hflag
  simp [hflag] at hfinite

theorem encodePoint_gen :
    [(E.toCoordinates E.gen).1, (E.toCoordinates E.gen).2.1, 0] = encodePoint E.gen := by
  simp [encodePoint, E.gen_ne_zero]

theorem sound_allocNoncePoint (hG : G.Enforcing) (pk : AllocatedPoint E)
    (sBits eBits : List AllocatedBit) :
    Sound (allocNoncePoint G pk sBits eBits) fun v r ↦ ∀ P sbs ebs, pk.Denotes v P →
      List.Forall₂ (AllocatedBit.Is v) sBits sbs → List.Forall₂ (AllocatedBit.Is v) eBits ebs →
        r.Denotes v ((ofBits sbs : E.Scalar) • E.gen - (ofBits ebs : E.Scalar) • P) := by
  refine Sound.bind (sound_natively _) fun _ ↦ Sound.bind hG.allocZero fun zero ↦
    Sound.bind (hG.allocConstant _ _ zero) fun g ↦ Sound.bind (hG.scalarMul g sBits) fun sG ↦
    Sound.bind (hG.scalarMul pk eBits) fun ePk ↦ Sound.bind (hG.negate ePk) fun negEPk ↦
    (hG.add sG negEPk).mono fun v r hadd hneg hePk hsG hg hzero _ P sbs ebs hP hs he ↦ ?_
  have hgen : g.Denotes v E.gen := (hg hzero).trans encodePoint_gen
  rw [sub_eq_add_neg, Nat.cast_smul_eq_nsmul, Nat.cast_smul_eq_nsmul]
  exact hadd _ _ (hsG _ _ hgen hs) (hneg _ (hePk _ _ hP he))

theorem leBitsOf_take {n : ℕ} (x : ZMod n) {k m : ℕ} (h : k ≤ m) :
    (leBitsOf x m).take k = leBitsOf x k := by
  rw [leBitsOf, ← List.map_take, List.take_range, min_eq_left h, leBitsOf]

theorem numChallengeBits_le : numChallengeBits ≤ numBits E.baseModulus :=
  (Nat.lt_size.mpr E.challenge_lt.le).le

theorem lowBits_eq (bits : List AllocatedBit) (hlen : numChallengeBits ≤ bits.length) :
    (do let low ← slice (bits.map Boolean.is) 0 numChallengeBits
        low.mapM allocatedBit : Outcome SynthesisError _) =
      .ok (bits.take numChallengeBits) := by
  rw [slice_of_le (Nat.zero_le _) (by simpa using hlen), ok_bind, List.drop_zero, ← List.map_take,
    mapM_ok_iff, List.forall₂_map_left_iff, List.forall₂_same]
  exact fun _ _ ↦ rfl

theorem sound_truncateToChallengeCircuit (hG : G.Enforcing) (x : AllocatedNum E.Base) :
    Sound (truncateToChallengeCircuit G x) fun v num ↦
      num.eval v = truncateToChallenge (x.eval v) := by
  refine Sound.bind (hG.toBitsLeStrict x) fun booleans ↦ Sound.bind (sound_natively _) fun low ↦
    (hG.leBitsToNum low).mono fun v num hnum hlow hbits ↦ ?_
  obtain ⟨bits, rfl, hbits⟩ := hbits
  have hlen : numChallengeBits ≤ bits.length := by
    rw [hbits.length_eq, leBitsOf, List.length_map, List.length_range]
    exact numChallengeBits_le
  rw [lowBits_eq bits hlen, Except.ok.injEq] at hlow
  subst hlow
  rw [truncateToChallenge_eq, ← leBitsOf_take _ numChallengeBits_le]
  exact hnum _ (List.forall₂_take _ hbits)

theorem sound_checkSignature (hG : G.Enforcing) (sig : Signature E) (msg : RotationMessage E)
    (pk : AllocatedPoint E) :
    Sound (checkSignature G sig msg pk) fun v zOut ↦ ∀ P, pk.Denotes v P →
      ∃ sig', Schnorr.verify P (zOut.map (AllocatedNum.eval v)) sig' = true := by
  refine Sound.bind (sound_allocNum _) fun nextAbHash ↦
    Sound.bind (sound_allocNum _) fun nextHintsVkHash ↦
    Sound.bind (sound_allocBits _) fun sBits ↦ Sound.bind (sound_allocBits _) fun eBits ↦
    Sound.bind (hG.leBitsToNum eBits) fun e ↦
    Sound.bind (sound_allocNoncePoint hG pk sBits eBits) fun r ↦
    Sound.bind (hG.sponge _ _) fun hash ↦
    Sound.bind (sound_truncateToChallengeCircuit hG hash) fun eExpected ↦
    Sound.bind (sound_enforceEqual e eExpected) fun _ ↦
    Sound.pure fun v heq hexpected hhash hr he hebs hsbs _ _ P hP ↦ ?_
  obtain ⟨sbs, hsbs, -⟩ := hsbs
  obtain ⟨ebs, hebs, hlen⟩ := hebs
  have hval : fieldSwitch (e.eval v) = (ofBits ebs : E.Scalar) := by
    have hle : ebs.length ≤ numChallengeBits := by
      rw [hlen, leBitsOf, List.length_map, List.length_range]
    rw [fieldSwitch, he ebs hebs, val_ofBits hle]
  have hr := hr P sbs ebs hP hsbs hebs
  refine ⟨⟨e.eval v, (ofBits sbs : E.Scalar)⟩, ?_⟩
  rw [Schnorr.verify, decide_eq_true_eq, hval, heq, hexpected, hhash, Schnorr.challenge, ← hP, ← hr]
  simp only [AllocatedPoint.coordinates, List.map_append]

/-- Five elements a seat: a preimage determines every seat. -/
theorem forall₂_is_of_preimage {v : ℕ → E.Base} {seats : List (SeatAdvice E)} {ab : AddressBook E}
    (hlen : seats.length = ab.length)
    (h : (seats.flatMap SeatAdvice.elements).map (AllocatedNum.eval v) =
      ab.flatMap entryElements) : List.Forall₂ (SeatAdvice.Is v) seats ab := by
  induction seats generalizing ab with
  | nil =>
    obtain rfl := List.length_eq_zero_iff.mp hlen.symm
    exact .nil
  | cons seat seats ih =>
    cases ab with
    | nil => cases hlen
    | cons entry ab =>
      rw [List.flatMap_cons, List.map_append, List.flatMap_cons] at h
      obtain ⟨hseat, hrest⟩ := List.append_inj h rfl
      exact .cons hseat (ih (by simpa using hlen) hrest)

/-- The native rules for a rotation away from the book `ab`: the selected seats hold a
strict majority, their joint key is not the identity, and the signature on the next state
verifies under it. -/
structure NativeRules (ab : AddressBook E) (bitvector : BitVector) (sig : Signature E)
    (next : List E.Base) : Prop where
  majority : ∃ signing total, subsetWeight ab bitvector = some (signing, total) ∧
    meetsThreshold signing total = true
  joint : (signingSubset ab bitvector).sum ≠ 0
  verified : Schnorr.verify (signingSubset ab bitvector).sum next sig = true

/-- The hash of a book has no other preimage of the same length. -/
def BindsBook (ab : AddressBook E) : Prop :=
  ∀ elements, elements.length = 5 * maxAbSize →
    E.poseidon dsAddressBook elements = hashAddressBook ab → elements = ab.flatMap entryElements

theorem length_elements (seats : List (SeatAdvice E)) :
    (seats.flatMap SeatAdvice.elements).length = 5 * seats.length := by
  rw [List.length_flatMap,
    show (fun seat : SeatAdvice E ↦ seat.elements.length) = fun _ ↦ 5 from rfl, List.map_const',
    List.sum_replicate, smul_eq_mul, mul_comm]

theorem exists_bitvector {bs : List Bool} (h : bs.length = maxAbSize) :
    ∃ bitvector : BitVector, bitvector.toList = bs :=
  ⟨⟨bs.toArray, h⟩, rfl⟩

/-- Whatever advice satisfies the circuit on the commitment of a book, the native rules
accept the rotation of that book to the state it outputs. -/
theorem sound_synthesize (hG : G.Enforcing) (self : RotationCircuit E)
    (zIn : List (AllocatedNum E.Base)) :
    Sound (self.synthesize G zIn) fun v zOut ↦ ∀ ab : AddressBook E, ab.length = maxAbSize →
      BindsBook ab → ∀ z0, zIn[0]? = some z0 → z0.eval v = hashAddressBook ab →
        ∃ bitvector sig, NativeRules ab bitvector sig (zOut.map (AllocatedNum.eval v)) := by
  refine Sound.bind (sound_natively _) fun _ ↦ Sound.bind (sound_natively _) fun _ ↦
    Sound.bind (Sound.mapM (sound_allocSeat hG) _) fun seats ↦
    Sound.bind (hG.sponge _ _) fun hAb ↦ Sound.bind (sound_natively _) fun z ↦
    Sound.bind (sound_enforceEqual hAb z) fun _ ↦ Sound.bind (sound_allocBits _) fun bits ↦
    Sound.bind (sound_checkMajority hG self.prevAb self.bitvector seats bits) fun _ ↦
    Sound.bind (sound_allocJointKey hG seats bits) fun pk ↦
    (sound_checkSignature hG self.sig self.msg pk).mono
      fun v zOut hsig hkey hmajority hbits heq hz hhash hseats hself _ ab hlen hbind z0 hz0
        hzero ↦ ?_
  have hself : self.prevAb.length = maxAbSize := by simpa using ensure_ok_iff.mp hself
  have hcount : seats.length = maxAbSize := hseats.length_eq.symm.trans hself
  obtain rfl : z = z0 := Option.some.inj ((index_ok_iff.mp hz).symm.trans hz0)
  -- The advised book hashes to the state, so it is `ab`, seat by seat.
  have hab : List.Forall₂ (SeatAdvice.Is v) seats ab := by
    refine forall₂_is_of_preimage (hcount.trans hlen.symm) (hbind _ ?_ ?_)
    · rw [List.length_map, length_elements, hcount]
    · rw [← hhash, heq, hzero]
  obtain ⟨bs, hbs, hbslen⟩ := hbits
  rw [Vector.length_toList] at hbslen
  obtain ⟨bitvector, rfl⟩ := exists_bitvector hbslen
  obtain ⟨htotal, hmajority⟩ := hmajority (by omega) ab bitvector hab hbs hlen.le
  obtain ⟨hpk, hjoint⟩ := hkey ab _ hab hbs
  obtain ⟨sig, hverify⟩ := hsig _ hpk
  obtain ⟨signing, total, hweight, hthreshold⟩ := subsetWeight_majority hlen.le htotal bitvector
  exact ⟨bitvector, sig, ⟨signing, total, hweight, hthreshold.mpr hmajority⟩, hjoint, hverify⟩

end HieroCryptography.Wraps
