import HieroCryptography.Wraps.CircuitSound

namespace HieroCryptography.Wraps

open Foundation Rust Synthesis

variable {E : Engine} {G : Gadgets E}

theorem complete_allocBits (bits : List Bool) {pre : (ℕ → E.Base) → Prop} :
    Complete (allocBits bits : Circuit E _) pre fun v allocated ↦
      List.Forall₂ (AllocatedBit.Carries v) allocated bits := by
  refine (Complete.mapM (R := fun _ b c ↦ b = c) (Q := AllocatedBit.Carries) (fun b c ↦
    Complete.assume (fun _ h ↦ h.2) fun hbc ↦ complete_allocBit (hbc ▸ rfl)) bits bits).mono
      (fun v h ↦ ⟨h, List.forall₂_same.mpr fun _ _ ↦ rfl⟩) fun _ _ _ h ↦ h

theorem complete_enforceEqual (a b : AllocatedNum E.Base) :
    Complete (enforceEqual a b) (fun v ↦ a.eval v = b.eval v) fun _ _ ↦ True := by
  refine (complete_enforce _ _ _).mono (fun v h ↦ ?_) fun _ _ _ h ↦ h
  have hwire : a.wire.eval v = b.wire.eval v := h
  simp [hwire]

theorem foldlM_values {terms : List (AllocatedNum E.Base)} {values : List E.Base}
    (h : List.Forall₂ (fun term a ↦ term.value = some a) terms values) (acc : E.Base) :
    terms.foldlM (fun acc term ↦ term.value.map (acc + ·)) acc = some (acc + values.sum) := by
  induction h generalizing acc with
  | nil => simp
  | cons hterm _ ih =>
    rw [List.foldlM_cons, hterm, Option.map_some, Option.bind_eq_bind, Option.bind_some, ih,
      List.sum_cons, add_assoc]

theorem eval_of_carries {v : ℕ → E.Base} {terms : List (AllocatedNum E.Base)}
    {values : List E.Base} (h : List.Forall₂ (AllocatedNum.Carries v) terms values) :
    terms.map (AllocatedNum.eval v) = values := by
  induction h with
  | nil => rfl
  | cons hterm _ ih => rw [List.map_cons, ih, hterm.2]

theorem complete_sumOf (terms : List (AllocatedNum E.Base)) (values : List E.Base) :
    Complete (sumOf terms) (fun v ↦ List.Forall₂ (AllocatedNum.Carries v) terms values)
      fun v sum ↦ sum.Carries v values.sum := by
  refine Complete.assume (φ := List.Forall₂ (fun term a ↦ AllocatedNum.value term = some a)
    terms values) (fun v h ↦ h.imp fun _ _ h ↦ h.1) fun hvalues ↦ ?_
  have hsum := foldlM_values hvalues 0
  rw [zero_add] at hsum
  refine Complete.bind (complete_allocNum (x := values.sum) (by rw [hsum]; rfl)) fun sum ↦
    Complete.step (complete_enforce _ _ _) (fun v h ↦ ?_) fun _ ↦ Complete.pure fun v h ↦ h.1.2
  have hwire : sum.wire.eval v = values.sum := h.2.2
  rw [eval_ones, eval_of_carries h.1]
  simp [hwire]

theorem complete_enforceRange (hG : G.Serving) (value : AllocatedNum E.Base) {a : E.Base}
    {numBits : ℕ} (h : a.val < 2 ^ numBits) :
    Complete (enforceRange G value numBits) (fun v ↦ value.Carries v a) fun _ _ ↦ True := by
  refine Complete.assume (fun v h ↦ h.1) fun hvalue ↦ ?_
  have hbit : ∀ i < numBits, (do
      let b ← okOr (value.value.map fun x ↦ leBitsOf x numBits) .assignmentMissing
      index b i : Outcome SynthesisError Bool) = .ok (a.val.testBit i) := by
    intro i hi
    rw [hvalue, Option.map_some, okOr_some, ok_bind, leBitsOf, index_map_range _ hi]
  refine Complete.step (Complete.mapM
      (R := fun _ i b ↦ i < numBits ∧ b = a.val.testBit i) (Q := AllocatedBit.Carries)
      (P := fun _ ↦ True) (fun i b ↦ Complete.assume (fun _ h ↦ h.2) fun hi ↦
        complete_allocBit (hi.2 ▸ hbit i hi.1)) _ (leBitsOf a numBits)) (fun v _ ↦ ⟨trivial, ?_⟩)
    fun allocated ↦ Complete.step (hG.leBitsToNum allocated _) (fun v h ↦ h.2) fun recomposed ↦
      (complete_enforceEqual value recomposed).mono (fun v h ↦ ?_) fun _ _ _ h ↦ h
  · rw [leBitsOf, List.forall₂_map_right_iff, List.forall₂_same]
    exact fun i hi ↦ ⟨List.mem_range.mp hi, rfl⟩
  · rw [h.1.1.2, h.2.2, ofBits_leBitsOf ‹_›, ZMod.natCast_zmod_val]

theorem complete_enforceGreaterThan (hG : G.Serving) (a b : AllocatedNum E.Base) {x y : E.Base}
    {boundBits : ℕ} (h : (x - y - 1).val < 2 ^ boundBits) :
    Complete (enforceGreaterThan G a b boundBits) (fun v ↦ a.Carries v x ∧ b.Carries v y)
      fun _ _ ↦ True := by
  refine Complete.assume (fun v h ↦ And.intro h.1.1 h.2.1) fun hvalues ↦ ?_
  refine Complete.bind (complete_allocNum (x := x - y - 1) ?_) fun difference ↦
    Complete.step (complete_enforce _ _ _) (fun v hv ↦ ?_) fun _ ↦
      (complete_enforceRange hG difference h).mono (fun v hv ↦ hv.1.2) fun _ _ _ h ↦ h
  · rw [getValue, hvalues.1, getValue, hvalues.2]
    rfl
  · obtain ⟨⟨ha, hb⟩, hdifference⟩ := hv
    have hx : a.wire.eval v = x := ha.2
    have hy : b.wire.eval v = y := hb.2
    have hd : difference.wire.eval v = x - y - 1 := hdifference.2
    simp only [LinearCombination.eval_cons, LinearCombination.eval_nil, Variable.eval_one, hx, hy,
      hd]
    ring

def SeatAdvice.Holds (v : ℕ → E.Base) (seat : SeatAdvice E) (entry : AddressBookEntry E) : Prop :=
  List.Forall₂ (AllocatedNum.Carries v) seat.elements (entryElements entry)

theorem SeatAdvice.Holds.fields {v : ℕ → E.Base} {seat : SeatAdvice E}
    {entry : AddressBookEntry E} (h : seat.Holds v entry) :
    seat.key.Holds v entry.pubKey ∧ seat.weight.Carries v (entry.weight.toNat : E.Base) := by
  simp only [SeatAdvice.Holds, SeatAdvice.elements, AllocatedPoint.coordinates, entryElements,
    encodePoint, List.cons_append, List.nil_append, List.forall₂_cons] at h
  obtain ⟨-, hx, hy, hinf, hweight, -⟩ := h
  exact ⟨.cons hx (.cons hy (.cons hinf .nil)), hweight⟩

theorem AllocatedPoint.Holds.denotes {v : ℕ → E.Base} {p : AllocatedPoint E} {P : E.GE}
    (h : p.Holds v P) : p.Denotes v P :=
  eval_of_carries h

theorem complete_allocSeat (hG : G.Serving) (entry : AddressBookEntry E)
    {pre : (ℕ → E.Base) → Prop} :
    Complete (allocSeat G entry) pre fun v seat ↦ seat.Holds v entry := by
  have hweight : ((entry.weight.toNat : ℕ) : E.Base).val < 2 ^ weightBits := by
    have hlt := entry.weight.toNat_lt
    have hq := E.challenge_lt
    have hpow : 2 ^ 64 ≤ 2 ^ numChallengeBits := by decide
    rw [ZMod.val_cast_of_lt (by omega)]
    exact hlt
  refine Complete.step (hG.allocPoint entry.pubKey) (fun _ _ ↦ trivial) fun key ↦
    Complete.step (hG.checkOnCurve key entry.pubKey) (fun v h ↦ h.2) fun _ ↦
    Complete.bind (complete_allocNum rfl) fun weight ↦
    Complete.step (complete_enforceRange hG weight hweight) (fun v h ↦ h.2) fun _ ↦
    Complete.bind (complete_allocNum rfl) fun nodeId ↦ Complete.pure fun v h ↦ ?_
  obtain ⟨⟨⟨⟨⟨-, hkey⟩, -⟩, hweight⟩, -⟩, hnode⟩ := h
  exact .cons hnode (List.rel_append hkey (.cons hweight .nil))

theorem complete_allocSeats (hG : G.Serving) (ab : AddressBook E) :
    Complete (ab.mapM (allocSeat G)) (fun _ ↦ True) fun v seats ↦
      List.Forall₂ (SeatAdvice.Holds v) seats ab :=
  (Complete.mapM (P := fun _ ↦ True) (R := fun _ entry held ↦ entry = held)
    (Q := SeatAdvice.Holds) (fun entry _ ↦ Complete.assume (fun _ h ↦ h.2)
      fun hheld ↦ hheld ▸ complete_allocSeat hG entry) ab ab).mono
    (fun _ _ ↦ ⟨trivial, List.forall₂_same.mpr fun _ _ ↦ rfl⟩) fun _ _ _ h ↦ h

theorem complete_allocEffective (entry : AddressBookEntry E) (seat : SeatAdvice E) :
    Complete (allocEffective entry seat) (fun v ↦ seat.Holds v entry) fun v effective ↦
      effective.Carries v (effectiveWeight entry : E.Base) := by
  refine Complete.bind (complete_allocNum (x := (effectiveWeight entry : E.Base)) ?_)
    fun effective ↦ Complete.step (complete_enforce _ _ _) (fun v h ↦ ?_) fun _ ↦
      Complete.pure fun v h ↦ h.1.2
  · unfold effectiveWeight
    split <;> simp
  · obtain ⟨hseat, heffective⟩ := h
    obtain ⟨hkey, hweight⟩ := hseat.fields
    have hflag : seat.key.isInfinity.wire.eval v = if isInfinity entry.pubKey then 1 else 0 :=
      hkey.denotes.isInfinity
    have hw : seat.weight.wire.eval v = (entry.weight.toNat : E.Base) := hweight.2
    have he : effective.wire.eval v = (effectiveWeight entry : E.Base) := heffective.2
    simp only [LinearCombination.eval_cons, LinearCombination.eval_nil, Variable.eval_one, hflag,
      hw, he, effectiveWeight]
    split <;> simp

theorem complete_allocMasked (signed : Bool) (effective : AllocatedNum E.Base)
    (bit : AllocatedBit) (w : ℕ) :
    Complete (allocMasked signed effective bit)
      (fun v ↦ effective.Carries v (w : E.Base) ∧ bit.Carries v signed) fun v masked ↦
        masked.Carries v ((if signed then w else 0 : ℕ) : E.Base) := by
  refine Complete.assume (fun v h ↦ h.1.1) fun hvalue ↦ ?_
  refine Complete.bind (complete_allocNum (x := ((if signed then w else 0 : ℕ) : E.Base)) ?_)
    fun masked ↦ Complete.step (complete_enforce _ _ _) (fun v h ↦ ?_) fun _ ↦
      Complete.pure fun v h ↦ h.1.2
  · rw [getValue, hvalue]
    cases signed <;> simp [okOr_some, ok_bind]
  · obtain ⟨⟨heffective, hbit⟩, hmasked⟩ := h
    have hw : effective.wire.eval v = (w : E.Base) := heffective.2
    have hb : bit.wire.eval v = if signed then 1 else 0 := hbit.2
    have hm : masked.wire.eval v = ((if signed then w else 0 : ℕ) : E.Base) := hmasked.2
    simp only [LinearCombination.eval_cons, LinearCombination.eval_nil, hw, hb, hm]
    cases signed <;> simp

/-- The prover's number is the image of the natural number `n`. -/
def Tallies (v : ℕ → E.Base) (num : AllocatedNum E.Base) (n : ℕ) : Prop :=
  num.Carries v (n : E.Base)

theorem complete_sumOf_nat (terms : List (AllocatedNum E.Base)) (ns : List ℕ) :
    Complete (sumOf terms) (fun v ↦ List.Forall₂ (Tallies v) terms ns)
      fun v sum ↦ Tallies v sum ns.sum := by
  refine (complete_sumOf terms (ns.map Nat.cast)).mono (fun v h ↦ ?_) fun v sum _ hsum ↦ ?_
  · rwa [List.forall₂_map_right_iff]
  · rwa [Tallies, Nat.cast_list_sum]

theorem complete_effectiveWeights (prevAb : AddressBook E) (seats : List (SeatAdvice E)) :
    Complete ((prevAb.zip seats).mapM fun (entry, seat) ↦ allocEffective entry seat)
      (fun v ↦ List.Forall₂ (SeatAdvice.Holds v) seats prevAb) fun v effective ↦
        List.Forall₂ (Tallies v) effective (prevAb.map effectiveWeight) := by
  refine (Complete.mapM (P := fun _ ↦ True)
    (R := fun v p entry ↦ p.1 = entry ∧ SeatAdvice.Holds v p.2 entry)
    (Q := fun v num entry ↦ Tallies v num (effectiveWeight entry)) ?_ _ prevAb).mono
      (fun v h ↦ ⟨trivial, ?_⟩) fun v _ _ h ↦ List.forall₂_map_right_iff.mpr h
  · rintro ⟨entry, seat⟩ held
    refine Complete.assume (fun _ h ↦ h.2.1) ?_
    rintro rfl
    exact (complete_allocEffective entry seat).mono (fun v h ↦ h.2.2) fun _ _ _ h ↦ h
  · simpa using forall₂_zip_map id h

theorem complete_maskedWeights {prevAb : AddressBook E} (hsize : prevAb.length = maxAbSize)
    (bitvector : BitVector) (effective : List (AllocatedNum E.Base)) (bits : List AllocatedBit) :
    Complete ((bitvector.toList.zip (effective.zip bits)).mapM
        fun (signed, effective, bit) ↦ allocMasked signed effective bit)
      (fun v ↦ List.Forall₂ (Tallies v) effective (prevAb.map effectiveWeight) ∧
        List.Forall₂ (AllocatedBit.Carries v) bits bitvector.toList) fun v masked ↦
          List.Forall₂ (Tallies v) masked ((Wraps.seats prevAb bitvector).map fun seat ↦
            if seat.2 then effectiveWeight seat.1 else 0) := by
  refine (Complete.mapM (P := fun _ ↦ True) (R := fun v p (seat : AddressBookEntry E × Bool) ↦
      p.1 = seat.2 ∧ Tallies v p.2.1 (effectiveWeight seat.1) ∧ p.2.2.Carries v seat.2)
    (Q := fun v num seat ↦ Tallies v num (if seat.2 then effectiveWeight seat.1 else 0)) ?_ _
    (Wraps.seats prevAb bitvector)).mono (fun v h ↦ ⟨trivial, ?_⟩)
      fun v _ _ h ↦ List.forall₂_map_right_iff.mpr h
  · rintro ⟨signed, num, bit⟩ ⟨entry, b⟩
    refine Complete.assume (fun _ h ↦ h.2.1) ?_
    rintro rfl
    exact (complete_allocMasked signed num bit _).mono (fun v h ↦ h.2.2) fun _ _ _ h ↦ h
  · have hbits : (Wraps.seats prevAb bitvector).map Prod.snd = bitvector.toList := by
      rw [Wraps.seats, List.map_snd_zip (by rw [Vector.length_toList, hsize])]
    rw [← hbits]
    exact forall₂_zip_map Prod.snd (forall₂_zip (List.forall₂_map_right_iff.mp h.1) h.2)

theorem constraints_of_majority {total signing : ℕ} (hle : signing ≤ total)
    (hfits : total < 2 ^ 64) (hmajority : total < 2 * signing) :
    (total : E.Base).val < 2 ^ weightBits ∧
      ((signing : E.Base) - ((total : E.Base) - (signing : E.Base)) - 1).val < 2 ^ weightBits := by
  have hq := E.challenge_lt
  have hpow : 2 ^ 64 ≤ 2 ^ numChallengeBits := by decide
  have hbits : 2 ^ weightBits = 2 ^ 64 := rfl
  have hdifference : (signing : E.Base) - ((total : E.Base) - (signing : E.Base)) - 1 =
      ((signing - (total - signing) - 1 : ℕ) : E.Base) := by
    rw [Nat.cast_sub (by omega), Nat.cast_sub (by omega), Nat.cast_sub hle, Nat.cast_one]
  rw [hdifference, ZMod.val_cast_of_lt (by omega), ZMod.val_cast_of_lt (by omega)]
  omega

theorem complete_checkMajority (hG : G.Serving) {prevAb : AddressBook E} {bitvector : BitVector}
    (hsize : prevAb.length = maxAbSize) (hfits : totalWeight prevAb < 2 ^ 64)
    (hmajority : totalWeight prevAb < 2 * signingWeight prevAb bitvector)
    (seats : List (SeatAdvice E)) (bits : List AllocatedBit) :
    Complete (checkMajority G prevAb bitvector seats bits)
      (fun v ↦ List.Forall₂ (SeatAdvice.Holds v) seats prevAb ∧
        List.Forall₂ (AllocatedBit.Carries v) bits bitvector.toList) fun _ _ ↦ True := by
  obtain ⟨hrange, hcompare⟩ := constraints_of_majority (E := E)
    (signingWeight_le_totalWeight hsize.le bitvector) hfits hmajority
  refine Complete.step (complete_effectiveWeights prevAb seats) (fun v h ↦ h.1) fun effective ↦
    Complete.step (complete_maskedWeights hsize bitvector effective bits)
      (fun v h ↦ ⟨h.2, h.1.2⟩) fun masked ↦
    Complete.step (complete_sumOf_nat masked _) (fun v h ↦ h.2) fun signing ↦
    Complete.step (complete_sumOf_nat effective _) (fun v h ↦ h.1.1.2) fun total ↦
    Complete.step (complete_enforceRange hG total hrange) (fun v h ↦ h.2) fun _ ↦ ?_
  refine Complete.assume (fun v h ↦ And.intro h.1.2.1 h.1.1.2.1) fun hvalues ↦ ?_
  refine Complete.bind (complete_allocNum (x := (totalWeight prevAb : E.Base) -
      (signingWeight prevAb bitvector : E.Base)) ?_) fun remaining ↦
    Complete.step (complete_enforce _ _ _) (fun v h ↦ ?_) fun _ ↦
    (complete_enforceGreaterThan hG signing remaining hcompare).mono
      (fun v h ↦ ⟨h.1.1.1.1.2, h.1.2⟩) fun _ _ _ h ↦ h
  · rw [getValue, hvalues.1, getValue, hvalues.2]
    rfl
  · have htotal : total.wire.eval v = (totalWeight prevAb : E.Base) := h.1.1.2.2
    have hsigning : signing.wire.eval v = (signingWeight prevAb bitvector : E.Base) :=
      h.1.1.1.2.2
    have hremaining : remaining.wire.eval v = _ := h.2.2
    simp only [LinearCombination.eval_cons, LinearCombination.eval_nil, Variable.eval_one, htotal,
      hsigning, hremaining]
    ring

theorem complete_allocJointKey (hG : G.Serving) {ab : AddressBook E} {bitvector : BitVector}
    (hjoint : (signingSubset ab bitvector).sum ≠ 0) (seats : List (SeatAdvice E))
    (bits : List AllocatedBit) :
    Complete (allocJointKey G seats bits)
      (fun v ↦ List.Forall₂ (SeatAdvice.Holds v) seats ab ∧
        List.Forall₂ (AllocatedBit.Carries v) bits bitvector.toList) fun v pk ↦
          pk.Holds v (signingSubset ab bitvector).sum := by
  rw [signingSubset] at hjoint ⊢
  have hturn : ∀ (pk : AllocatedPoint E) (seat : SeatAdvice E × AllocatedBit) (P : E.GE)
      (native : AddressBookEntry E × Bool), Complete (do
        let masked ← G.selectPointOrInfinity seat.1.key (.is seat.2)
        G.add pk masked) (fun v ↦ True ∧ pk.Holds v P ∧
          seat.1.Holds v native.1 ∧ seat.2.Carries v native.2) fun v pk' ↦
            pk'.Holds v (P + maskedKey native) := by
    intro pk seat P native
    exact Complete.step (hG.selectPointOrInfinity seat.1.key seat.2 native.1.pubKey native.2)
      (fun v h ↦ ⟨h.2.2.1.fields.1, h.2.2.2⟩) fun masked ↦
        (hG.add pk masked P (maskedKey native)).mono (fun v h ↦ ⟨h.1.2.1, h.2⟩) fun _ _ _ h ↦ h
  refine Complete.step hG.defaultPoint (fun _ _ ↦ trivial) fun start ↦
    Complete.step (Complete.foldlM hturn (seats.zip bits) (Wraps.seats ab bitvector) start 0)
      (fun v h ↦ ⟨trivial, h.2, forall₂_zip h.1.1 h.1.2⟩) fun pk ↦ ?_
  rw [foldl_maskedKey]
  refine Complete.step (complete_enforce _ _ _) (fun v h ↦ ?_) fun _ ↦
    Complete.pure fun v h ↦ h.1.2
  have hflag : pk.isInfinity.wire.eval v = 0 := by
    have hinf := h.2.denotes.isInfinity
    rwa [if_neg (fun hzero ↦ hjoint (isInfinity_eq_true_iff.mp hzero))] at hinf
  simp [hflag]

theorem complete_allocNoncePoint (hG : G.Serving) (pk : AllocatedPoint E) {P : E.GE}
    (sBits eBits : List AllocatedBit) {sbs ebs : List Bool} (hsbs : sbs ≠ []) (hebs : ebs ≠ []) :
    Complete (allocNoncePoint G pk sBits eBits) (fun v ↦ pk.Holds v P ∧
      List.Forall₂ (AllocatedBit.Carries v) sBits sbs ∧
        List.Forall₂ (AllocatedBit.Carries v) eBits ebs) fun v r ↦
          r.Holds v ((ofBits sbs : E.Scalar) • E.gen - (ofBits ebs : E.Scalar) • P) := by
  have hfinite :
      ensure (!(E.toCoordinates E.gen).2.2) = (.ok () : Outcome SynthesisError Unit) := by
    rw [ensure_ok_iff, Bool.not_eq_true']
    exact isInfinity_eq_false_iff.mpr E.gen_ne_zero
  rw [sub_eq_add_neg, Nat.cast_smul_eq_nsmul, Nat.cast_smul_eq_nsmul]
  refine Complete.bind (complete_natively hfinite) fun _ ↦
    Complete.step hG.allocZero (fun _ _ ↦ trivial) fun zero ↦
    Complete.step (hG.allocConstant _ _ zero) (fun v h ↦ h.2) fun g ↦
    Complete.step (hG.scalarMul g sBits E.gen sbs hsbs) (fun v h ↦ ⟨?_, h.1.1.1.2.1⟩) fun sG ↦
    Complete.step (hG.scalarMul pk eBits P ebs hebs)
      (fun v h ↦ ⟨h.1.1.1.1.1, h.1.1.1.1.2.2⟩) fun ePk ↦
    Complete.step (hG.negate ePk _) (fun v h ↦ h.2) fun negEPk ↦
    (hG.add sG negEPk _ _).mono (fun v h ↦ ⟨h.1.1.2, h.2⟩) fun _ _ _ h ↦ h
  rw [AllocatedPoint.Holds, ← encodePoint_gen]
  exact h.2

theorem complete_truncateToChallengeCircuit (hG : G.Serving) (x : AllocatedNum E.Base)
    (a : E.Base) :
    Complete (truncateToChallengeCircuit G x) (fun v ↦ x.Carries v a) fun v num ↦
      num.Carries v (truncateToChallenge a) := by
  refine Complete.step (hG.toBitsLeStrict x a) (fun v h ↦ h) fun booleans ↦ ?_
  refine Complete.assume (φ := ∃ bits : List AllocatedBit, booleans = bits.map Boolean.is ∧
    numChallengeBits ≤ bits.length) (fun v h ↦ ?_) ?_
  · obtain ⟨bits, hbits, hcarries⟩ := h.2
    refine ⟨bits, hbits, ?_⟩
    rw [hcarries.length_eq, leBitsOf, List.length_map, List.length_range]
    exact numChallengeBits_le
  · rintro ⟨bits, rfl, hlen⟩
    rw [truncateToChallenge_eq, ← leBitsOf_take _ numChallengeBits_le]
    refine Complete.bind (complete_natively (lowBits_eq bits hlen)) fun low ↦
      (hG.leBitsToNum low _).mono (fun v h ↦ ?_) fun _ _ _ h ↦ h
    obtain ⟨⟨-, bits', hbits', hcarries⟩, rfl⟩ := h
    obtain rfl : bits = bits' := List.map_injective_iff.mpr (fun _ _ h ↦ Boolean.is.inj h) hbits'
    exact List.forall₂_take _ hcarries

theorem val_lt_two_pow_numBits {n : ℕ} [NeZero n] (a : ZMod n) : a.val < 2 ^ numBits n :=
  (ZMod.val_lt a).trans (Nat.lt_size_self n)

theorem numBits_pos {n : ℕ} [NeZero n] : 0 < numBits n :=
  Nat.size_pos.mpr (NeZero.pos n)

theorem leBitsOf_ne_nil {n : ℕ} (x : ZMod n) {k : ℕ} (hk : 0 < k) : leBitsOf x k ≠ [] := by
  apply List.ne_nil_of_length_pos
  rwa [leBitsOf, List.length_map, List.length_range]

theorem val_truncateToChallenge_lt (a : E.Base) :
    (truncateToChallenge a).val < 2 ^ numChallengeBits := by
  have hlen : (leBitsOf a numChallengeBits).length = numChallengeBits := by simp [leBitsOf]
  rw [truncateToChallenge_eq, val_ofBits hlen.le]
  exact (ofBits_lt _).trans_eq (by rw [hlen])

theorem complete_checkSignature (hG : G.Serving) {sig : Signature E} {msg : RotationMessage E}
    {P : E.GE} (hverify : Schnorr.verify P msg.elements sig = true) (pk : AllocatedPoint E) :
    Complete (checkSignature G sig msg pk) (fun v ↦ pk.Holds v P) fun v zOut ↦
      List.Forall₂ (AllocatedNum.Carries v) zOut msg.elements := by
  rw [Schnorr.verify, decide_eq_true_eq] at hverify
  have he : ofBits (leBitsOf sig.e numChallengeBits) = sig.e.val := by
    apply ofBits_leBitsOf
    rw [← hverify]
    exact val_truncateToChallenge_lt _
  have hs : (ofBits (leBitsOf sig.s (numBits E.scalarModulus)) : E.Scalar) = sig.s := by
    rw [ofBits_leBitsOf (val_lt_two_pow_numBits _), ZMod.natCast_zmod_val]
  refine Complete.bind (complete_allocNum rfl) fun nextAbHash ↦
    Complete.bind (complete_allocNum rfl) fun nextHintsVkHash ↦
    Complete.bind (complete_allocBits _) fun sBits ↦
    Complete.bind (complete_allocBits _) fun eBits ↦
    Complete.step (hG.leBitsToNum eBits _) (fun v h ↦ h.2) fun e ↦
    Complete.step (complete_allocNoncePoint hG pk (P := P) sBits eBits
      (leBitsOf_ne_nil _ numBits_pos) (leBitsOf_ne_nil _ (by decide)))
      (fun v h ↦ ⟨h.1.1.1.1.1, h.1.1.2, h.1.2⟩) fun r ↦
    Complete.step (hG.sponge _ _ (encodePoint P ++ encodePoint
        (sig.s • E.gen - fieldSwitch sig.e • P) ++ msg.elements)) (fun v h ↦ ?_) fun hash ↦
    Complete.step (complete_truncateToChallengeCircuit hG hash _) (fun v h ↦ h.2)
      fun eExpected ↦
    Complete.step (complete_enforceEqual e eExpected) (fun v h ↦ ?_) fun _ ↦
    Complete.pure fun v h ↦ ?_
  · obtain ⟨⟨⟨⟨⟨⟨hpk, hab⟩, hvk⟩, -⟩, -⟩, -⟩, hr⟩ := h
    rw [hs, he] at hr
    exact List.rel_append (List.rel_append hpk hr) (.cons hab (.cons hvk .nil))
  · obtain ⟨⟨⟨⟨-, hnum⟩, -⟩, -⟩, hexpected⟩ := h
    rw [hnum.2, hexpected.2, he, ZMod.natCast_zmod_val]
    exact hverify.symm
  · obtain ⟨⟨⟨⟨⟨⟨⟨⟨⟨-, hab⟩, hvk⟩, -⟩, -⟩, -⟩, -⟩, -⟩, -⟩, -⟩ := h
    exact .cons hab (.cons hvk .nil)

theorem NativeRules.majority_weight {ab : AddressBook E} {bitvector : BitVector}
    {sig : Signature E} {next : List E.Base} (h : NativeRules ab bitvector sig next) :
    totalWeight ab < 2 ^ 64 ∧ totalWeight ab < 2 * signingWeight ab bitvector := by
  obtain ⟨signing, total, hweight, hthreshold⟩ := h.majority
  obtain ⟨-, hsigning, htotal⟩ := subsetWeight_eq_some_iff.mp hweight
  obtain ⟨-, hmajority⟩ := meetsThreshold_iff.mp hthreshold
  rw [hsigning, htotal] at hmajority
  exact ⟨htotal ▸ total.toNat_lt, hmajority⟩

/-- On the padded form of a valid book the rules are a strict majority, a joint key that is
not the identity, and a valid signature. -/
theorem nativeRules_paddedBook_iff {ab : AddressBook E} (hvalid : ValidBook ab)
    {bitvector : BitVector} {sig : Signature E} {next : List E.Base} :
    NativeRules (paddedBook ab) bitvector sig next ↔
      totalWeight ab < 2 * signingWeight ab bitvector ∧
        (signingSubset ab bitvector).sum ≠ 0 ∧
          Schnorr.verify (signingSubset ab bitvector).sum next sig = true := by
  constructor
  · intro h
    have hmajority := h.majority_weight.2
    have hjoint := h.joint
    have hverified := h.verified
    rw [totalWeight_paddedBook, signingWeight_paddedBook] at hmajority
    rw [signingSubset_paddedBook] at hjoint hverified
    exact ⟨hmajority, hjoint, hverified⟩
  · rintro ⟨hmajority, hjoint, hverified⟩
    obtain ⟨signing, total, hweight, hthreshold⟩ := subsetWeight_paddedBook hvalid bitvector
    rw [← signingSubset_paddedBook] at hjoint hverified
    exact ⟨⟨signing, total, hweight, hthreshold.mpr hmajority⟩, hjoint, hverified⟩

theorem complete_synthesize (hG : G.Serving) (self : RotationCircuit E)
    (hlen : self.prevAb.length = maxAbSize)
    (hrules : NativeRules self.prevAb self.bitvector self.sig self.msg.elements)
    (z0 z1 : AllocatedNum E.Base) :
    Complete (self.synthesize G [z0, z1]) (fun v ↦ z0.eval v = hashAddressBook self.prevAb)
      fun v zOut ↦ List.Forall₂ (AllocatedNum.Carries v) zOut self.msg.elements := by
  obtain ⟨hfits, hmajority⟩ := hrules.majority_weight
  refine Complete.bind (complete_natively (a := ()) (ensure_ok_iff.mpr rfl)) fun _ ↦
    Complete.bind (complete_natively (a := ()) (ensure_ok_iff.mpr (decide_eq_true hlen))) fun _ ↦
    Complete.step (complete_allocSeats hG self.prevAb) (fun _ _ ↦ trivial) fun seats ↦
    Complete.step (hG.sponge _ _ (self.prevAb.flatMap entryElements))
      (fun v h ↦ ?_) fun hAb ↦
    Complete.bind (complete_natively (a := z0) (index_ok_iff.mpr rfl)) fun z ↦
    Complete.step (complete_enforceEqual hAb z) (fun v h ↦ ?_) fun _ ↦
    Complete.bind (complete_allocBits _) fun bits ↦
    Complete.step (complete_checkMajority hG hlen hfits hmajority seats bits)
      (fun v h ↦ ⟨h.1.1.1.1.2, h.2⟩) fun _ ↦
    Complete.step (complete_allocJointKey hG hrules.joint seats bits)
      (fun v h ↦ ⟨h.1.1.1.1.1.2, h.1.2⟩) fun pk ↦
    (complete_checkSignature hG hrules.verified pk).mono (fun v h ↦ h.2) fun _ _ _ h ↦ h
  · exact List.rel_flatMap h.2 fun _ _ h ↦ h
  · obtain ⟨⟨⟨⟨⟨hz0, -⟩, -⟩, -⟩, hAb⟩, rfl⟩ := h
    exact hAb.2.trans hz0.symm

end HieroCryptography.Wraps
