import HieroCryptography.Wraps.CircuitComplete

namespace HieroCryptography.Wraps

open Foundation Rust Synthesis

variable {E : Engine}

structure PointDecoder (E : Engine) where
  decodePoint : List E.Base → E.GE
  decode_encode : ∀ P, decodePoint (encodePoint P) = P

def directNum (inputs : List (AllocatedNum E.Base)) (f : List E.Base → E.Base) :
    Circuit E (AllocatedNum E.Base) := do
  let values ← natively (inputs.mapM getValue)
  let num ← allocNum (.ok (f values))
  enforceGadget fun v ↦ num.eval v = f (inputs.map (AllocatedNum.eval v))
  pure num

theorem sound_directNum (inputs : List (AllocatedNum E.Base)) (f : List E.Base → E.Base) :
    Sound (directNum inputs f) fun v num ↦
      num.eval v = f (inputs.map (AllocatedNum.eval v)) := by
  refine Sound.bind (sound_natively _) fun _ ↦ Sound.bind (sound_allocNum _) fun num ↦
    Sound.bind (sound_enforceGadget _) fun _ ↦ Sound.pure fun v h _ _ ↦ ?_
  exact of_decide_eq_true h

theorem complete_directNum (inputs : List (AllocatedNum E.Base)) (f : List E.Base → E.Base)
    (values : List E.Base) :
    Complete (directNum inputs f)
      (fun v ↦ List.Forall₂ (AllocatedNum.Carries v) inputs values)
      fun v num ↦ num.Carries v (f values) := by
  refine Complete.assume (φ := inputs.mapM getValue = .ok values) (fun v h ↦ ?_) fun hvalues ↦ ?_
  · rw [mapM_ok_iff]
    exact h.imp fun num a h ↦ by rw [getValue, h.1, okOr_some]
  · refine Complete.bind (complete_natively hvalues) fun _ ↦ Complete.assume (fun v h ↦ h.2) ?_
    rintro rfl
    refine Complete.bind (complete_allocNum rfl) fun num ↦
      Complete.step (complete_enforceGadget _) (fun v h ↦ ?_) fun _ ↦ Complete.pure fun v h ↦ h.1.2
    rw [decide_eq_true_eq, eval_of_carries h.1.1, h.2.2]

def directPoint (inputs : List (AllocatedNum E.Base)) (f : List E.Base → E.GE) :
    Circuit E (AllocatedPoint E) := do
  let x ← directNum inputs fun values ↦ (E.toCoordinates (f values)).1
  let y ← directNum inputs fun values ↦ (E.toCoordinates (f values)).2.1
  let flag ← directNum inputs fun values ↦ if isInfinity (f values) then 1 else 0
  pure ⟨x, y, flag⟩

theorem sound_directPoint (inputs : List (AllocatedNum E.Base)) (f : List E.Base → E.GE) :
    Sound (directPoint inputs f) fun v p ↦
      p.Denotes v (f (inputs.map (AllocatedNum.eval v))) := by
  refine Sound.bind (sound_directNum _ _) fun x ↦ Sound.bind (sound_directNum _ _) fun y ↦
    Sound.bind (sound_directNum _ _) fun flag ↦ Sound.pure fun v hflag hy hx ↦ ?_
  simp only [AllocatedPoint.Denotes, AllocatedPoint.coordinates, List.map_cons, List.map_nil, hx,
    hy, hflag, encodePoint]

theorem complete_directPoint (inputs : List (AllocatedNum E.Base)) (f : List E.Base → E.GE)
    (values : List E.Base) :
    Complete (directPoint inputs f)
      (fun v ↦ List.Forall₂ (AllocatedNum.Carries v) inputs values)
      fun v p ↦ p.Holds v (f values) := by
  refine Complete.bind (complete_directNum inputs _ values) fun x ↦
    Complete.step (complete_directNum inputs _ values) (fun v h ↦ h.1) fun y ↦
    Complete.step (complete_directNum inputs _ values) (fun v h ↦ h.1.1) fun flag ↦
    Complete.pure fun v h ↦ ?_
  exact .cons h.1.1.2 (.cons h.1.2 (.cons h.2 .nil))

def bitNum (bit : AllocatedBit) : AllocatedNum E.Base :=
  ⟨bit.value.map fun b ↦ if b then 1 else 0, bit.wire⟩

def readBits (values : List E.Base) : List Bool := values.map fun x ↦ decide (x = 1)

def writeBits (bs : List Bool) : List E.Base := bs.map fun b ↦ if b then 1 else 0

theorem readBits_writeBits (bs : List Bool) : readBits (writeBits bs : List E.Base) = bs := by
  rw [readBits, writeBits, List.map_map]
  refine (List.map_congr_left fun b _ ↦ ?_).trans (List.map_id bs)
  cases b <;> simp

theorem eval_bitNum {v : ℕ → E.Base} {bits : List AllocatedBit} {bs : List Bool}
    (h : List.Forall₂ (AllocatedBit.Is v) bits bs) :
    (bits.map bitNum).map (AllocatedNum.eval v) = writeBits bs := by
  induction h with
  | nil => rfl
  | cons hb _ ih =>
    rw [List.map_cons, List.map_cons, ih]
    exact congrArg (· :: _) hb

theorem carries_bitNum {v : ℕ → E.Base} {bits : List AllocatedBit} {bs : List Bool}
    (h : List.Forall₂ (AllocatedBit.Carries v) bits bs) :
    List.Forall₂ (AllocatedNum.Carries v) (bits.map bitNum) (writeBits bs) := by
  rw [List.forall₂_map_left_iff, writeBits, List.forall₂_map_right_iff]
  exact h.imp fun bit b h ↦ ⟨by rw [bitNum, h.1, Option.map_some], h.2⟩

def directBit (x : AllocatedNum E.Base) (i : ℕ) : Circuit E AllocatedBit := do
  let bit ← allocBit ((getValue x).map fun a ↦ a.val.testBit i)
  enforceGadget fun v ↦ bit.wire.eval v = if (x.eval v).val.testBit i then 1 else 0
  pure bit

theorem sound_directBit (x : AllocatedNum E.Base) (i : ℕ) :
    Sound (directBit x i) fun v bit ↦ bit.Is v ((x.eval v).val.testBit i) := by
  refine Sound.bind (sound_allocBit _) fun bit ↦ Sound.bind (sound_enforceGadget _) fun _ ↦
    Sound.pure fun v h _ ↦ ?_
  rwa [decide_eq_true_eq] at h

theorem complete_directBit (x : AllocatedNum E.Base) (a : E.Base) (i : ℕ) :
    Complete (directBit x i) (fun v ↦ x.Carries v a) fun v bit ↦
      bit.Carries v (a.val.testBit i) := by
  refine Complete.assume (fun v h ↦ h.1) fun hvalue ↦ ?_
  refine Complete.bind (complete_allocBit (b := a.val.testBit i) ?_) fun bit ↦
    Complete.step (complete_enforceGadget _) (fun v h ↦ ?_) fun _ ↦ Complete.pure fun v h ↦ h.1.2
  · rw [getValue, hvalue]
    rfl
  · rw [decide_eq_true_eq, h.1.2]
    exact h.2.2

variable (D : PointDecoder E)

/-- Gadgets that hold each output to the function it stands for. -/
def directGadgets : Gadgets E where
  leBitsToNum bits := directNum (bits.map bitNum) fun values ↦ (ofBits (readBits values) : E.Base)
  toBitsLeStrict x := do
    let bits ← (List.range (numBits E.baseModulus)).mapM (directBit x)
    pure (bits.map Boolean.is)
  allocZero := directNum [] fun _ ↦ 0
  allocPoint coordinates := do
    let x ← allocNum (.ok coordinates.1)
    let y ← allocNum (.ok coordinates.2.1)
    let flag ← allocNum (.ok (if coordinates.2.2 then 1 else 0))
    pure ⟨x, y, flag⟩
  checkOnCurve _ := pure ()
  defaultPoint := directPoint [] fun _ ↦ 0
  selectPointOrInfinity p
    | .is bit => directPoint (bitNum bit :: p.coordinates) fun values ↦
        if values.head? = some 1 then D.decodePoint values.tail else 0
    | .not bit => directPoint (bitNum bit :: p.coordinates) fun values ↦
        if values.head? = some 1 then 0 else D.decodePoint values.tail
    | .constant b => if b then pure p else directPoint [] fun _ ↦ 0
  add p q := directPoint (p.coordinates ++ q.coordinates) fun values ↦
    D.decodePoint (values.take 3) + D.decodePoint (values.drop 3)
  negate p := directPoint p.coordinates fun values ↦ -D.decodePoint values
  scalarMul p bits := directPoint (p.coordinates ++ bits.map bitNum) fun values ↦
    ofBits (readBits (values.drop 3)) • D.decodePoint (values.take 3)
  allocConstant coordinates zero := do
    let x ← directNum [] fun _ ↦ coordinates.1
    let y ← directNum [] fun _ ↦ coordinates.2
    pure ⟨x, y, zero⟩
  sponge ds elements := directNum elements (E.poseidon ds)

theorem take_encodePoint (P : E.GE) (rest : List E.Base) :
    (encodePoint P ++ rest).take 3 = encodePoint P := rfl

theorem drop_encodePoint (P : E.GE) (rest : List E.Base) :
    (encodePoint P ++ rest).drop 3 = rest := rfl

theorem directGadgets_enforcing : (directGadgets D).Enforcing where
  leBitsToNum bits := (sound_directNum _ _).mono fun v num h bs hbs ↦ by
    rw [h, eval_bitNum hbs, readBits_writeBits]
  toBitsLeStrict x := by
    refine Sound.bind (Sound.mapM (sound_directBit x) _) fun bits ↦ Sound.pure fun v h ↦
      ⟨bits, rfl, ?_⟩
    rw [leBitsOf, List.forall₂_map_right_iff]
    exact h.flip
  allocZero := sound_directNum _ _
  allocPoint c := Sound.bind (sound_allocNum _) fun _ ↦ Sound.bind (sound_allocNum _) fun _ ↦
    Sound.bind (sound_allocNum _) fun _ ↦ Sound.pure fun _ _ _ _ ↦ trivial
  checkOnCurve _ := Sound.pure fun _ ↦ trivial
  defaultPoint := sound_directPoint _ _
  selectPointOrInfinity p bit := (sound_directPoint _ _).mono fun v q h P b hP hb ↦ by
    have hbit : (bitNum bit).eval v = if b then 1 else 0 := hb
    rw [List.map_cons, hP, hbit] at h
    cases b <;> simpa [D.decode_encode] using h
  add p q := (sound_directPoint _ _).mono fun v r h P Q hP hQ ↦ by
    rwa [List.map_append, hP, hQ, take_encodePoint, drop_encodePoint, D.decode_encode,
      D.decode_encode] at h
  negate p := (sound_directPoint _ _).mono fun v q h P hP ↦ by rwa [hP, D.decode_encode] at h
  scalarMul p bits := (sound_directPoint _ _).mono fun v q h P bs hP hbs ↦ by
    rwa [List.map_append, hP, eval_bitNum hbs, take_encodePoint, drop_encodePoint,
      D.decode_encode, readBits_writeBits] at h
  allocConstant x y zero := Sound.bind (sound_directNum _ _) fun _ ↦
    Sound.bind (sound_directNum _ _) fun _ ↦ Sound.pure fun v hy hx hzero ↦ by
      simp [AllocatedPoint.coordinates, hx, hy, hzero]
  sponge ds elements := sound_directNum _ _

theorem directGadgets_serving : (directGadgets D).Serving where
  leBitsToNum bits bs := (complete_directNum _ _ (writeBits bs)).mono
    (fun v h ↦ carries_bitNum h) fun v num _ h ↦ by rwa [readBits_writeBits] at h
  toBitsLeStrict x a := by
    refine Complete.step (Complete.mapM (P := fun v ↦ x.Carries v a)
      (R := fun _ i b ↦ b = a.val.testBit i) (Q := AllocatedBit.Carries) (fun i b ↦
        Complete.assume (fun _ h ↦ h.2) fun hb ↦
          (hb ▸ complete_directBit x a i).mono (fun v h ↦ h.1) fun _ _ _ h ↦ h)
      _ (leBitsOf a (numBits E.baseModulus))) (fun v h ↦ ⟨h, ?_⟩) fun bits ↦
      Complete.pure fun v h ↦ ⟨bits, rfl, h.2⟩
    rw [leBitsOf, List.forall₂_map_right_iff, List.forall₂_same]
    exact fun _ _ ↦ rfl
  allocZero := (complete_directNum _ _ []).mono (fun _ _ ↦ .nil) fun _ _ _ h ↦ h
  allocPoint P := Complete.bind (complete_allocNum rfl) fun x ↦
    Complete.bind (complete_allocNum rfl) fun y ↦ Complete.bind (complete_allocNum rfl) fun flag ↦
    Complete.pure fun v h ↦ .cons h.1.1.2 (.cons h.1.2 (.cons h.2 .nil))
  checkOnCurve p P := Complete.pure fun _ _ ↦ trivial
  defaultPoint := (complete_directPoint _ _ []).mono (fun _ _ ↦ .nil) fun _ _ _ h ↦ h
  selectPointOrInfinity p bit P b := (complete_directPoint _ _
      ((if b then 1 else 0) :: encodePoint P)).mono
    (fun v h ↦ .cons ⟨by rw [bitNum, h.2.1, Option.map_some], h.2.2⟩ h.1) fun v q _ h ↦ by
      cases b <;> simpa [D.decode_encode] using h
  add p q P Q := (complete_directPoint _ _ (encodePoint P ++ encodePoint Q)).mono
    (fun v h ↦ List.rel_append h.1 h.2) fun v r _ h ↦ by
      rwa [take_encodePoint, drop_encodePoint, D.decode_encode, D.decode_encode] at h
  negate p P := (complete_directPoint _ _ (encodePoint P)).mono (fun v h ↦ h) fun v q _ h ↦ by
    rwa [D.decode_encode] at h
  scalarMul p bits P bs _ := (complete_directPoint _ _ (encodePoint P ++ writeBits bs)).mono
    (fun v h ↦ List.rel_append h.1 (carries_bitNum h.2)) fun v q _ h ↦ by
      rwa [take_encodePoint, drop_encodePoint, D.decode_encode, readBits_writeBits] at h
  allocConstant x y zero := Complete.step (complete_directNum [] _ []) (fun _ _ ↦ .nil) fun _ ↦
    Complete.step (complete_directNum [] _ []) (fun _ _ ↦ .nil) fun _ ↦
    Complete.pure fun v h ↦ .cons h.1.2 (.cons h.2 (.cons h.1.1 .nil))
  sponge ds elements values := complete_directNum _ _ values

end HieroCryptography.Wraps
