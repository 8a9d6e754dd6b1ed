import Mathlib

namespace HieroCryptography.Foundation

inductive Variable
  | one
  | aux (index : ℕ)
  deriving DecidableEq, Repr

abbrev LinearCombination (F : Type) := List (F × Variable)

/-- A rank-one constraint, or one that a library gadget has emitted and that is known only
through the assignments it admits. -/
inductive Constraint (F : Type)
  | r1cs (a b c : LinearCombination F)
  | gadget (accepts : (ℕ → F) → Bool)

/-- What has been allocated, with the prover's values, and what has been enforced. -/
structure ConstraintSystem (F : Type) where
  aux : List F
  constraints : List (Constraint F)

/-- A circuit under construction; the errors are those of the surrounding program. -/
abbrev Synthesis (F ε α : Type) := StateT (ConstraintSystem F) (Except ε) α

section

variable {F : Type} [Field F]

def Variable.eval (v : ℕ → F) : Variable → F
  | .one => 1
  | .aux i => v i

def LinearCombination.eval (v : ℕ → F) (lc : LinearCombination F) : F :=
  (lc.map fun t ↦ t.1 * t.2.eval v).sum

@[simp] theorem LinearCombination.eval_nil (v : ℕ → F) :
    LinearCombination.eval v ([] : LinearCombination F) = 0 := rfl

@[simp] theorem LinearCombination.eval_cons (v : ℕ → F) (t : F × Variable)
    (lc : LinearCombination F) :
    LinearCombination.eval v (t :: lc) = t.1 * t.2.eval v + LinearCombination.eval v lc := by
  simp [LinearCombination.eval]

@[simp] theorem Variable.eval_one (v : ℕ → F) : Variable.one.eval v = 1 := rfl

def Constraint.Holds (v : ℕ → F) : Constraint F → Prop
  | .r1cs a b c =>
    LinearCombination.eval v a * LinearCombination.eval v b = LinearCombination.eval v c
  | .gadget accepts => accepts v = true

instance [DecidableEq F] (v : ℕ → F) : (c : Constraint F) → Decidable (c.Holds v)
  | .r1cs a b c => inferInstanceAs (Decidable
      (LinearCombination.eval v a * LinearCombination.eval v b = LinearCombination.eval v c))
  | .gadget accepts => inferInstanceAs (Decidable (accepts v = true))

namespace ConstraintSystem

variable (cs : ConstraintSystem F)

def Satisfied (v : ℕ → F) : Prop := ∀ c ∈ cs.constraints, c.Holds v

def Agrees (v : ℕ → F) : Prop := ∀ (i : ℕ) (x : F), cs.aux[i]? = some x → v i = x

def witness (i : ℕ) : F := cs.aux.getD i 0

theorem agrees_witness : cs.Agrees cs.witness := by
  intro i x hx
  rw [witness, List.getD_eq_getElem?_getD, hx, Option.getD_some]

end ConstraintSystem

/-- A variable together with the value the prover gives it. -/
structure AllocatedNum (F : Type) where
  value : Option F
  wire : Variable

structure AllocatedBit where
  value : Option Bool
  wire : Variable

def AllocatedNum.eval (v : ℕ → F) (num : AllocatedNum F) : F := num.wire.eval v

/-- The prover's value is `a`, and the assignment gives it. -/
def AllocatedNum.Carries (v : ℕ → F) (num : AllocatedNum F) (a : F) : Prop :=
  num.value = some a ∧ num.eval v = a

def AllocatedBit.Is (v : ℕ → F) (bit : AllocatedBit) (b : Bool) : Prop :=
  bit.wire.eval v = if b then 1 else 0

def AllocatedBit.Carries (v : ℕ → F) (bit : AllocatedBit) (b : Bool) : Prop :=
  bit.value = some b ∧ bit.Is v b

namespace Synthesis

variable {ε α β γ σ : Type}

def enforce (a b c : LinearCombination F) : Synthesis F ε Unit := fun cs ↦
  .ok ((), { cs with constraints := cs.constraints ++ [.r1cs a b c] })

def enforceGadget (accepts : (ℕ → F) → Bool) : Synthesis F ε Unit := fun cs ↦
  .ok ((), { cs with constraints := cs.constraints ++ [.gadget accepts] })

/-- A computation that touches no constraint. -/
def natively (x : Except ε α) : Synthesis F ε α := fun cs ↦ x.map (·, cs)

def allocNum (value : Except ε F) : Synthesis F ε (AllocatedNum F) := fun cs ↦ do
  let x ← value
  .ok (⟨some x, .aux cs.aux.length⟩, { cs with aux := cs.aux ++ [x] })

/-- `AllocatedBit::alloc`: the value is zero or one, and `(1 - b) * b = 0`. -/
def allocBit (value : Except ε Bool) : Synthesis F ε AllocatedBit := do
  let num ← allocNum (value.map fun b ↦ if b then 1 else 0)
  enforce [(1, .one), (-1, num.wire)] [(1, num.wire)] []
  pure ⟨value.toOption, num.wire⟩

/-- What was allocated and enforced before stays. -/
structure Extends (cs cs' : ConstraintSystem F) : Prop where
  aux : cs.aux <+: cs'.aux
  constraints : cs.constraints ⊆ cs'.constraints

/-- Every assignment that satisfies what has been built satisfies `post`. -/
def Sound (m : Synthesis F ε α) (post : (ℕ → F) → α → Prop) : Prop :=
  ∀ cs a cs', m cs = .ok (a, cs') → Extends cs cs' ∧ ∀ v, cs'.Satisfied v → post v a

/-- A prover for whom `pre` holds can build, its values satisfy what is added, and `post`
holds for it. -/
def Complete (m : Synthesis F ε α) (pre : (ℕ → F) → Prop) (post : (ℕ → F) → α → Prop) : Prop :=
  ∀ cs, (∀ v, cs.Agrees v → pre v) → ∃ a cs', m cs = .ok (a, cs') ∧ cs.aux <+: cs'.aux ∧
    ∀ v, cs'.Agrees v → (cs.Satisfied v → cs'.Satisfied v) ∧ post v a

omit [Field F] in
theorem run_bind_ok_iff {m : Synthesis F ε α} {f : α → Synthesis F ε β} {cs : ConstraintSystem F}
    {b : β} {cs' : ConstraintSystem F} :
    (m >>= f) cs = .ok (b, cs') ↔ ∃ a mid, m cs = .ok (a, mid) ∧ f a mid = .ok (b, cs') := by
  change (m cs >>= fun p ↦ f p.1 p.2) = _ ↔ _
  cases m cs with
  | error e => simp [bind, Except.bind]
  | ok p =>
    obtain ⟨a, mid⟩ := p
    constructor
    · exact fun h ↦ ⟨a, mid, rfl, h⟩
    · rintro ⟨a', mid', ⟨⟩, h⟩
      exact h

omit [Field F] in
theorem agrees_of_aux {cs cs' : ConstraintSystem F} (h : cs.aux <+: cs'.aux) {v : ℕ → F}
    (hv : cs'.Agrees v) : cs.Agrees v := by
  intro i x hx
  obtain ⟨rest, hrest⟩ := h
  apply hv i x
  rw [← hrest, List.getElem?_append_left (List.getElem?_eq_some_iff.mp hx).1, hx]

omit [Field F] in
theorem Extends.refl (cs : ConstraintSystem F) : Extends cs cs :=
  ⟨List.prefix_rfl, List.Subset.refl _⟩

omit [Field F] in
theorem Extends.trans {cs₁ cs₂ cs₃ : ConstraintSystem F} (h : Extends cs₁ cs₂)
    (h' : Extends cs₂ cs₃) : Extends cs₁ cs₃ :=
  ⟨h.aux.trans h'.aux, List.Subset.trans h.constraints h'.constraints⟩

omit [Field F] in
theorem Extends.enforced (cs : ConstraintSystem F) (c : Constraint F) :
    Extends cs { cs with constraints := cs.constraints ++ [c] } :=
  ⟨List.prefix_rfl, List.subset_append_left _ _⟩

theorem Extends.satisfied {cs cs' : ConstraintSystem F} (h : Extends cs cs') {v : ℕ → F}
    (hv : cs'.Satisfied v) : cs.Satisfied v :=
  fun c hc ↦ hv c (h.constraints hc)

omit [Field F] in
theorem Extends.agrees {cs cs' : ConstraintSystem F} (h : Extends cs cs') {v : ℕ → F}
    (hv : cs'.Agrees v) : cs.Agrees v :=
  agrees_of_aux h.aux hv

omit [Field F] in
theorem natively_ok_iff {x : Except ε α} {cs cs' : ConstraintSystem F} {a : α} :
    natively x cs = .ok (a, cs') ↔ x = .ok a ∧ cs' = cs := by
  cases x with
  | error e => exact ⟨nofun, nofun⟩
  | ok b =>
    constructor
    · rintro ⟨⟩
      exact ⟨rfl, rfl⟩
    · rintro ⟨⟨⟩, rfl⟩
      rfl

section Sound

theorem Sound.pure {a : α} {post : (ℕ → F) → α → Prop} (h : ∀ v, post v a) :
    Sound (pure a : Synthesis F ε α) post := by
  rintro cs _ _ ⟨⟩
  exact ⟨.refl _, fun v _ ↦ h v⟩

theorem Sound.bind {m : Synthesis F ε α} {f : α → Synthesis F ε β} {mid : (ℕ → F) → α → Prop}
    {post : (ℕ → F) → β → Prop} (hm : Sound m mid)
    (hf : ∀ a, Sound (f a) fun v b ↦ mid v a → post v b) : Sound (m >>= f) post := by
  intro cs b cs' h
  obtain ⟨a, cs₁, hrun, hrest⟩ := run_bind_ok_iff.mp h
  obtain ⟨hsub, hmid⟩ := hm cs a cs₁ hrun
  obtain ⟨hsub', hpost⟩ := hf a cs₁ b cs' hrest
  exact ⟨hsub.trans hsub', fun v hv ↦ hpost v hv (hmid v (hsub'.satisfied hv))⟩

theorem Sound.mono {m : Synthesis F ε α} {post post' : (ℕ → F) → α → Prop} (h : Sound m post)
    (himp : ∀ v a, post v a → post' v a) : Sound m post' :=
  fun cs a cs' hrun ↦ ⟨(h cs a cs' hrun).1, fun v hv ↦ himp v a ((h cs a cs' hrun).2 v hv)⟩

theorem sound_enforce (a b c : LinearCombination F) :
    Sound (enforce a b c : Synthesis F ε Unit) fun v _ ↦
      LinearCombination.eval v a * LinearCombination.eval v b = LinearCombination.eval v c := by
  rintro cs _ _ ⟨⟩
  exact ⟨.enforced _ _, fun v hv ↦ hv (.r1cs a b c) (by simp)⟩

theorem sound_enforceGadget (accepts : (ℕ → F) → Bool) :
    Sound (enforceGadget accepts : Synthesis F ε Unit) fun v _ ↦ accepts v = true := by
  rintro cs _ _ ⟨⟩
  exact ⟨.enforced _ _, fun v hv ↦ hv (.gadget accepts) (by simp)⟩

theorem sound_natively (x : Except ε α) :
    Sound (natively x : Synthesis F ε α) fun _ a ↦ x = .ok a := by
  intro cs a cs' h
  cases x with
  | error e => cases h
  | ok b =>
    cases h
    exact ⟨.refl _, fun _ _ ↦ rfl⟩

theorem sound_allocNum (value : Except ε F) :
    Sound (allocNum value) fun _ num ↦ ∃ x, value = .ok x ∧ num.value = some x := by
  intro cs a cs' h
  cases value with
  | error e => cases h
  | ok x =>
    cases h
    exact ⟨⟨List.prefix_append _ _, List.Subset.refl _⟩, fun _ _ ↦ ⟨x, rfl, rfl⟩⟩

theorem sound_allocBit (value : Except ε Bool) :
    Sound (allocBit value : Synthesis F ε AllocatedBit) fun v bit ↦ ∃ b, bit.Is v b := by
  refine Sound.bind (sound_allocNum _) fun num ↦ Sound.bind (sound_enforce _ _ _) fun _ ↦
    Sound.pure fun v hbit _ ↦ ?_
  have hzero : (1 - num.wire.eval v) * num.wire.eval v = 0 := by
    simpa [sub_eq_add_neg] using hbit
  rcases mul_eq_zero.mp hzero with h | h
  · exact ⟨true, (sub_eq_zero.mp h).symm⟩
  · exact ⟨false, h⟩

theorem Sound.mapM {f : α → Synthesis F ε β} {post : (ℕ → F) → α → β → Prop}
    (hf : ∀ a, Sound (f a) fun v b ↦ post v a b) (as : List α) :
    Sound (as.mapM f) fun v bs ↦ List.Forall₂ (post v) as bs := by
  induction as with
  | nil => exact Sound.pure fun _ ↦ .nil
  | cons a as ih =>
    rw [List.mapM_cons]
    exact Sound.bind (hf a) fun b ↦ Sound.bind ih fun bs ↦ Sound.pure fun v hbs hb ↦ .cons hb hbs

theorem Sound.foldlM {f : σ → α → Synthesis F ε σ} {inv : (ℕ → F) → σ → β → Prop}
    {rel : (ℕ → F) → α → γ → Prop} {update : β → γ → β}
    (hf : ∀ s a, Sound (f s a) fun v s' ↦ ∀ b c, inv v s b → rel v a c → inv v s' (update b c))
    (as : List α) (s : σ) :
    Sound (as.foldlM f s) fun v s' ↦
      ∀ b cs, inv v s b → List.Forall₂ (rel v) as cs → inv v s' (cs.foldl update b) := by
  induction as generalizing s with
  | nil =>
    refine Sound.pure fun v b cs hb hcs ↦ ?_
    cases hcs
    exact hb
  | cons a as ih =>
    rw [List.foldlM_cons]
    refine Sound.bind (hf s a) fun s' ↦ (ih s').mono fun v s'' hrest hstep b cs hb hcs ↦ ?_
    obtain ⟨c, cs, hac, hrel, rfl⟩ := List.forall₂_cons_left_iff.mp hcs
    exact hrest (update b c) cs (hstep b c hb hac) hrel

end Sound

section Complete

theorem Complete.pure {a : α} {pre : (ℕ → F) → Prop} {post : (ℕ → F) → α → Prop}
    (h : ∀ v, pre v → post v a) : Complete (pure a : Synthesis F ε α) pre post :=
  fun cs hpre ↦ ⟨a, cs, rfl, List.prefix_rfl, fun v hv ↦ ⟨id, h v (hpre v hv)⟩⟩

theorem Complete.bind {m : Synthesis F ε α} {f : α → Synthesis F ε β} {pre : (ℕ → F) → Prop}
    {mid : (ℕ → F) → α → Prop} {post : (ℕ → F) → β → Prop} (hm : Complete m pre mid)
    (hf : ∀ a, Complete (f a) (fun v ↦ pre v ∧ mid v a) post) : Complete (m >>= f) pre post := by
  intro cs hpre
  obtain ⟨a, cs₁, hrun, hext, hmid⟩ := hm cs hpre
  obtain ⟨b, cs', hrest, hext', hpost⟩ :=
    hf a cs₁ fun v hv ↦ ⟨hpre v (agrees_of_aux hext hv), (hmid v hv).2⟩
  refine ⟨b, cs', run_bind_ok_iff.mpr ⟨a, cs₁, hrun, hrest⟩, hext.trans hext', fun v hv ↦ ?_⟩
  obtain ⟨hsat', hb⟩ := hpost v hv
  exact ⟨fun hsat ↦ hsat' ((hmid v (agrees_of_aux hext' hv)).1 hsat), hb⟩

theorem Complete.mono {m : Synthesis F ε α} {pre pre' : (ℕ → F) → Prop}
    {post post' : (ℕ → F) → α → Prop} (h : Complete m pre post) (hpre : ∀ v, pre' v → pre v)
    (hpost : ∀ v a, pre' v → post v a → post' v a) : Complete m pre' post' := by
  intro cs hcs
  obtain ⟨a, cs', hrun, hext, hall⟩ := h cs fun v hv ↦ hpre v (hcs v hv)
  refine ⟨a, cs', hrun, hext, fun v hv ↦ ⟨(hall v hv).1, ?_⟩⟩
  exact hpost v a (hcs v (agrees_of_aux hext hv)) (hall v hv).2

theorem Complete.step {m : Synthesis F ε α} {f : α → Synthesis F ε β} {pre pre' : (ℕ → F) → Prop}
    {mid : (ℕ → F) → α → Prop} {post : (ℕ → F) → β → Prop} (hm : Complete m pre mid)
    (hpre : ∀ v, pre' v → pre v) (hf : ∀ a, Complete (f a) (fun v ↦ pre' v ∧ mid v a) post) :
    Complete (m >>= f) pre' post :=
  Complete.bind (hm.mono hpre fun _ _ _ h ↦ h) hf

theorem Complete.assume {m : Synthesis F ε α} {pre : (ℕ → F) → Prop}
    {post : (ℕ → F) → α → Prop} {φ : Prop} (hφ : ∀ v, pre v → φ) (h : φ → Complete m pre post) :
    Complete m pre post :=
  fun cs hpre ↦ h (hφ _ (hpre _ cs.agrees_witness)) cs hpre

/-- What is promised of a prover holds of the run it made. -/
theorem Complete.of_run {m : Synthesis F ε α} {pre : (ℕ → F) → Prop}
    {post : (ℕ → F) → α → Prop} (h : Complete m pre post) {cs cs' : ConstraintSystem F} {a : α}
    (hrun : m cs = .ok (a, cs')) (hpre : ∀ v, cs.Agrees v → pre v) :
    ∀ v, cs'.Agrees v → post v a := by
  obtain ⟨b, cs₁, hrun', -, hall⟩ := h cs hpre
  rw [hrun] at hrun'
  cases hrun'
  exact fun v hv ↦ (hall v hv).2

theorem satisfied_append {cs : ConstraintSystem F} {c : Constraint F} {v : ℕ → F}
    (hc : c.Holds v) (h : cs.Satisfied v) :
    ({ cs with constraints := cs.constraints ++ [c] } : ConstraintSystem F).Satisfied v := by
  intro c' hc'
  rcases List.mem_append.mp hc' with hold | hnew
  · exact h c' hold
  · rw [List.mem_singleton.mp hnew]
    exact hc

theorem complete_enforce (a b c : LinearCombination F) :
    Complete (enforce a b c : Synthesis F ε Unit) (fun v ↦ LinearCombination.eval v a *
      LinearCombination.eval v b = LinearCombination.eval v c) fun _ _ ↦ True :=
  fun _ hpre ↦ ⟨(), _, rfl, List.prefix_rfl, fun v hv ↦
    ⟨satisfied_append (c := .r1cs a b c) (hpre v hv), trivial⟩⟩

theorem complete_enforceGadget (accepts : (ℕ → F) → Bool) :
    Complete (enforceGadget accepts : Synthesis F ε Unit) (fun v ↦ accepts v = true)
      fun _ _ ↦ True :=
  fun _ hpre ↦ ⟨(), _, rfl, List.prefix_rfl, fun v hv ↦
    ⟨satisfied_append (c := .gadget accepts) (hpre v hv), trivial⟩⟩

theorem complete_natively {x : Except ε α} {a : α} {pre : (ℕ → F) → Prop} (h : x = .ok a) :
    Complete (natively x : Synthesis F ε α) pre fun _ b ↦ b = a := by
  subst h
  exact fun cs _ ↦ ⟨a, cs, rfl, List.prefix_rfl, fun _ _ ↦ ⟨id, rfl⟩⟩

theorem complete_allocNum {value : Except ε F} {x : F} {pre : (ℕ → F) → Prop}
    (h : value = .ok x) : Complete (allocNum value) pre fun v num ↦ num.Carries v x := by
  subst h
  intro cs _
  refine ⟨_, _, rfl, List.prefix_append _ _, fun v hv ↦ ⟨id, rfl, ?_⟩⟩
  exact hv cs.aux.length x (by simp)

theorem complete_allocBit {value : Except ε Bool} {b : Bool} {pre : (ℕ → F) → Prop}
    (h : value = .ok b) :
    Complete (allocBit value : Synthesis F ε AllocatedBit) pre fun v bit ↦ bit.Carries v b := by
  subst h
  refine Complete.bind (complete_allocNum rfl) fun num ↦
    Complete.step (complete_enforce _ _ _) (fun v hnum ↦ ?_) fun _ ↦
      Complete.pure fun v hv ↦ ⟨rfl, hv.1.2.2⟩
  have hwire : num.wire.eval v = if b then 1 else 0 := hnum.2.2
  cases b <;> simp [hwire]

theorem Complete.mapM {f : α → Synthesis F ε β} {P : (ℕ → F) → Prop}
    {R : (ℕ → F) → α → γ → Prop} {Q : (ℕ → F) → β → γ → Prop}
    (hf : ∀ a c, Complete (f a) (fun v ↦ P v ∧ R v a c) fun v b ↦ Q v b c)
    (as : List α) (cs : List γ) :
    Complete (as.mapM f) (fun v ↦ P v ∧ List.Forall₂ (R v) as cs) fun v bs ↦
      List.Forall₂ (Q v) bs cs := by
  induction as generalizing cs with
  | nil => exact Complete.pure fun v h ↦ by cases h.2; exact .nil
  | cons a as ih =>
    refine Complete.assume (φ := ∃ c cs', cs = c :: cs') (fun v h ↦ ?_) ?_
    · obtain ⟨c, cs', -, -, rfl⟩ := List.forall₂_cons_left_iff.mp h.2
      exact ⟨c, cs', rfl⟩
    · rintro ⟨c, cs, rfl⟩
      rw [List.mapM_cons]
      refine Complete.step (hf a c) (fun v h ↦ ⟨h.1, (List.forall₂_cons.mp h.2).1⟩) fun b ↦
        Complete.step (ih cs) (fun v h ↦ ⟨h.1.1, (List.forall₂_cons.mp h.1.2).2⟩) fun bs ↦ ?_
      exact Complete.pure fun v h ↦ .cons h.1.2 h.2

theorem Complete.foldlM {f : σ → α → Synthesis F ε σ} {P : (ℕ → F) → Prop}
    {I : (ℕ → F) → σ → β → Prop} {R : (ℕ → F) → α → γ → Prop} {update : β → γ → β}
    (hf : ∀ s a b c, Complete (f s a) (fun v ↦ P v ∧ I v s b ∧ R v a c) fun v s' ↦
      I v s' (update b c)) (as : List α) (cs : List γ) (s : σ) (b : β) :
    Complete (as.foldlM f s) (fun v ↦ P v ∧ I v s b ∧ List.Forall₂ (R v) as cs) fun v s' ↦
      I v s' (cs.foldl update b) := by
  induction as generalizing cs s b with
  | nil => exact Complete.pure fun v h ↦ by cases h.2.2; exact h.2.1
  | cons a as ih =>
    refine Complete.assume (φ := ∃ c cs', cs = c :: cs') (fun v h ↦ ?_) ?_
    · obtain ⟨c, cs', -, -, rfl⟩ := List.forall₂_cons_left_iff.mp h.2.2
      exact ⟨c, cs', rfl⟩
    · rintro ⟨c, cs, rfl⟩
      rw [List.foldlM_cons]
      refine Complete.step (hf s a b c)
        (fun v h ↦ ⟨h.1, h.2.1, (List.forall₂_cons.mp h.2.2).1⟩) fun s' ↦ ?_
      exact (ih cs s' (update b c)).mono
        (fun v h ↦ ⟨h.1.1, h.2, (List.forall₂_cons.mp h.1.2.2).2⟩) fun _ _ _ h ↦ h

end Complete

end Synthesis

end

end HieroCryptography.Foundation
