import Mathlib

namespace HieroCryptography.Rust

variable {ε α β γ : Type}

/-- The two ways a call ends without a value: it returns `Err`, or it panics. -/
inductive Abort (ε : Type)
  | err : ε → Abort ε
  | panic : Abort ε
  deriving DecidableEq, Repr

abbrev Outcome (ε α : Type) := Except (Abort ε) α

def fail (e : ε) : Outcome ε α := .error (.err e)

def unwind : Outcome ε α := .error .panic

instance decidableEqUnwind (x : Outcome ε α) : Decidable (x = unwind) :=
  match x with
  | .ok _ => isFalse nofun
  | .error (.err _) => isFalse nofun
  | .error .panic => isTrue rfl

@[simp] theorem ok_bind (a : α) (f : α → Outcome ε β) :
    ((Except.ok a : Outcome ε α) >>= f) = f a := rfl

@[simp] theorem error_bind (x : Abort ε) (f : α → Outcome ε β) :
    ((Except.error x : Outcome ε α) >>= f) = .error x := rfl

@[simp] theorem pure_ok (a : α) : (pure a : Outcome ε α) = .ok a := rfl

@[simp] theorem fail_ne_ok (e : ε) (a : α) : (fail e : Outcome ε α) ≠ .ok a := nofun

@[simp] theorem unwind_ne_ok (a : α) : (unwind : Outcome ε α) ≠ .ok a := nofun

theorem bind_ok_iff {x : Outcome ε α} {f : α → Outcome ε β} {b : β} :
    (x >>= f) = .ok b ↔ ∃ a, x = .ok a ∧ f a = .ok b := by
  cases x <;> simp

/-- `if !cond { return Err(e) }`. -/
def require (cond : Bool) (e : ε) : Outcome ε Unit := if cond then .ok () else fail e

@[simp] theorem require_true (e : ε) : require true e = .ok () := rfl

@[simp] theorem require_false (e : ε) : require false e = fail e := rfl

theorem require_ok_iff {cond : Bool} {e : ε} {u : Unit} :
    require cond e = .ok u ↔ cond = true := by
  cases cond <;> simp

theorem require_bind_fails_iff {cond : Bool} {e : ε} {rest : Unit → Outcome ε α} :
    (∃ e', (require cond e >>= rest) = fail e') ↔ cond = false ∨ ∃ e', rest () = fail e' := by
  cases cond with
  | false => exact ⟨fun _ ↦ Or.inl rfl, fun _ ↦ ⟨e, rfl⟩⟩
  | true => simp

theorem bind_ne_unwind {x : Outcome ε α} {f : α → Outcome ε β} (hx : x ≠ unwind)
    (hf : ∀ a, x = .ok a → f a ≠ unwind) : (x >>= f) ≠ unwind := by
  rcases x with e | a
  · exact fun h ↦ hx (congrArg Except.error (Except.error.inj h))
  · exact hf a rfl

theorem foldlM_ne_unwind {f : β → α → Outcome ε β} {xs : List α} {b : β}
    (h : ∀ b, ∀ a ∈ xs, f b a ≠ unwind) : xs.foldlM f b ≠ unwind := by
  induction xs generalizing b with
  | nil => exact nofun
  | cons a xs ih =>
    rw [List.foldlM_cons]
    exact bind_ne_unwind (h b a List.mem_cons_self) fun _ _ ↦
      ih fun b a ha ↦ h b a (List.mem_cons_of_mem _ ha)

theorem require_ne_unwind (cond : Bool) (e : ε) : require cond e ≠ unwind := by
  cases cond <;> exact nofun

/-- `assert!(cond)`. -/
def ensure (cond : Bool) : Outcome ε Unit := if cond then .ok () else unwind

theorem ensure_ok_iff {cond : Bool} {u : Unit} :
    (ensure cond : Outcome ε Unit) = .ok u ↔ cond = true := by
  cases cond <;> simp [ensure]

def okOr (opt : Option α) (e : ε) : Outcome ε α := opt.elim (fail e) .ok

@[simp] theorem okOr_some (a : α) (e : ε) : okOr (some a) e = .ok a := rfl

@[simp] theorem okOr_none (e : ε) : okOr (none : Option α) e = fail e := rfl

theorem okOr_ok_iff {opt : Option α} {e : ε} {a : α} : okOr opt e = .ok a ↔ opt = some a := by
  cases opt <;> simp

theorem okOr_ne_unwind (opt : Option α) (e : ε) : okOr opt e ≠ unwind := by
  cases opt <;> exact nofun

def expect (opt : Option α) : Outcome ε α := opt.elim unwind .ok

@[simp] theorem expect_some (a : α) : (expect (some a) : Outcome ε α) = .ok a := rfl

theorem expect_ok_iff {opt : Option α} {a : α} :
    (expect opt : Outcome ε α) = .ok a ↔ opt = some a := by
  cases opt <;> simp [expect]

def mapErr {ε' : Type} (f : ε → ε') : Outcome ε α → Outcome ε' α
  | .ok a => .ok a
  | .error (.err e) => fail (f e)
  | .error .panic => unwind

theorem mapErr_ok_iff {ε' : Type} {f : ε → ε'} {x : Outcome ε α} {a : α} :
    mapErr f x = .ok a ↔ x = .ok a := by
  rcases x with (e | _) | b <;> simp [mapErr]

/-- Indexing a vector, with the bounds check of the language. -/
def index (xs : List α) (i : ℕ) : Outcome ε α := xs[i]?.elim unwind .ok

theorem index_of_getElem? {xs : List α} {i : ℕ} {a : α} (h : xs[i]? = some a) :
    (index xs i : Outcome ε α) = .ok a := by simp [index, h]

theorem index_ok_iff {xs : List α} {i : ℕ} {a : α} :
    (index xs i : Outcome ε α) = .ok a ↔ xs[i]? = some a := by
  unfold index
  cases xs[i]? <;> simp

theorem index_map_range (f : ℕ → α) {n i : ℕ} (h : i < n) :
    (index ((List.range n).map f) i : Outcome ε α) = .ok (f i) :=
  index_of_getElem? (by simp [h])

def setAt (xs : List α) (i : ℕ) (a : α) : Outcome ε (List α) :=
  if i < xs.length then .ok (xs.set i a) else unwind

theorem setAt_of_lt {xs : List α} {i : ℕ} (h : i < xs.length) (a : α) :
    (setAt xs i a : Outcome ε (List α)) = .ok (xs.set i a) := if_pos h

theorem setAt_ok_iff {xs xs' : List α} {i : ℕ} {a : α} :
    (setAt xs i a : Outcome ε (List α)) = .ok xs' ↔ i < xs.length ∧ xs.set i a = xs' := by
  unfold setAt
  split <;> simp_all

theorem setAt_map_range {n i : ℕ} (hi : i < n) (f : ℕ → α) (a : α) :
    (setAt ((List.range n).map f) i a : Outcome ε (List α)) =
      .ok ((List.range n).map (Function.update f i a)) := by
  rw [setAt_of_lt (by simpa using hi)]
  congr 1
  refine List.ext_getElem (by simp) fun j h₁ h₂ ↦ ?_
  simp only [List.getElem_set, List.getElem_map, List.getElem_range, Function.update_apply, eq_comm]

def slice (xs : List α) (a b : ℕ) : Outcome ε (List α) :=
  if a ≤ b ∧ b ≤ xs.length then .ok ((xs.take b).drop a) else unwind

theorem slice_of_le {xs : List α} {a b : ℕ} (h : a ≤ b) (hb : b ≤ xs.length) :
    (slice xs a b : Outcome ε (List α)) = .ok ((xs.take b).drop a) := if_pos ⟨h, hb⟩

theorem length_of_slice {xs ys : List α} {a b : ℕ}
    (h : (slice xs a b : Outcome ε (List α)) = .ok ys) : ys.length ≤ xs.length := by
  unfold slice at h
  split at h
  · cases h
    rw [List.length_drop, List.length_take]
    omega
  · cases h

theorem slice_map_range {len p q : ℕ} (hpq : p ≤ q) (hq : q ≤ len) (f : ℕ → α) :
    (slice ((List.range len).map f) p q : Outcome ε (List α)) =
      .ok ((List.range' p (q - p)).map f) := by
  rw [slice_of_le hpq (by simpa using hq)]
  congr 1
  refine List.ext_getElem ?_ fun i h₁ h₂ ↦ ?_
  · simp only [List.length_drop, List.length_take, List.length_map, List.length_range,
      List.length_range']
    omega
  · simp

/-- `a - b` of `usize` values, with the overflow check of the language. -/
def usizeSub (a b : ℕ) : Outcome ε ℕ := if b ≤ a then .ok (a - b) else unwind

theorem usizeSub_of_le {a b : ℕ} (h : b ≤ a) : (usizeSub a b : Outcome ε ℕ) = .ok (a - b) :=
  if_pos h

theorem usizeSub_ok_iff {a b c : ℕ} :
    (usizeSub a b : Outcome ε ℕ) = .ok c ↔ b ≤ a ∧ a - b = c := by
  unfold usizeSub
  split <;> simp_all

/-- Division in a prime field, which panics on a zero divisor. -/
def fieldDiv {F : Type} [Field F] [DecidableEq F] (a b : F) : Outcome ε F :=
  if b = 0 then unwind else .ok (a / b)

theorem fieldDiv_of_ne {F : Type} [Field F] [DecidableEq F] (a : F) {b : F} (h : b ≠ 0) :
    (fieldDiv a b : Outcome ε F) = .ok (a / b) := if_neg h

theorem fieldDiv_ok_iff {F : Type} [Field F] [DecidableEq F] {a b c : F} :
    (fieldDiv a b : Outcome ε F) = .ok c ↔ b ≠ 0 ∧ a / b = c := by
  unfold fieldDiv
  split <;> simp_all

/-- `if !cond { return Ok(false) }`, applied to the rest of the function body. -/
def checkOrReturnFalse (cond : Bool) (rest : Outcome ε Bool) : Outcome ε Bool :=
  if cond then rest else .ok false

@[simp] theorem checkOrReturnFalse_true (rest : Outcome ε Bool) :
    checkOrReturnFalse true rest = rest := rfl

@[simp] theorem checkOrReturnFalse_false (rest : Outcome ε Bool) :
    checkOrReturnFalse false rest = .ok false := rfl

theorem checkOrReturnFalse_ok (cond b : Bool) :
    checkOrReturnFalse cond (.ok b : Outcome ε Bool) = .ok (cond && b) := by
  cases cond <;> rfl

theorem checkOrReturnFalse_ok_true_iff {cond : Bool} {rest : Outcome ε Bool} :
    checkOrReturnFalse cond rest = .ok true ↔ cond = true ∧ rest = .ok true := by
  cases cond <;> simp

/-- `match result { Ok(c) => c, Err(_) => false }`. -/
def orFalse {ε' : Type} : Outcome ε Bool → Outcome ε' Bool
  | .ok c => .ok c
  | .error (.err _) => .ok false
  | .error .panic => unwind

theorem orFalse_ok_true_iff {ε' : Type} {x : Outcome ε Bool} :
    (orFalse x : Outcome ε' Bool) = .ok true ↔ x = .ok true := by
  rcases x with (e | _) | c <;> simp [orFalse]

theorem exists_orFalse_ok {ε' : Type} {x : Outcome ε Bool} (h : x ≠ unwind) :
    ∃ b, (orFalse x : Outcome ε' Bool) = .ok b := by
  rcases x with (e | _) | c
  · exact ⟨false, rfl⟩
  · exact absurd rfl h
  · exact ⟨c, rfl⟩

theorem allM_ok_of_forall {f : α → Outcome ε Bool} {g : α → Bool} {xs : List α}
    (h : ∀ x ∈ xs, f x = .ok (g x)) : xs.allM f = .ok (xs.all g) := by
  induction xs with
  | nil => rfl
  | cons x xs ih =>
    rw [List.forall_mem_cons] at h
    rw [List.allM, h.1, ok_bind, List.all_cons]
    cases g x
    · rfl
    · exact ih h.2

/-- A `for` loop whose body may leave the function with `Ok(false)`. -/
theorem allM_ok_true_iff {body : α → Outcome ε Bool} {as : List α} :
    as.allM body = .ok true ↔ ∀ a ∈ as, body a = .ok true := by
  induction as with
  | nil => simp
  | cons a as ih =>
    rw [List.allM, bind_ok_iff, List.forall_mem_cons, ← ih]
    constructor
    · rintro ⟨b, hb, hs⟩
      cases b with
      | true => exact ⟨hb, hs⟩
      | false => cases hs
    · rintro ⟨hb, hs⟩
      exact ⟨true, hb, hs⟩

theorem forM_ok_iff {body : α → Outcome ε Unit} {as : List α} {u : Unit} :
    as.forM body = .ok u ↔ ∀ a ∈ as, body a = .ok () := by
  induction as with
  | nil => simp
  | cons a as ih =>
    rw [List.forM, bind_ok_iff, List.forall_mem_cons, ← ih]
    exact ⟨fun ⟨_, ha, has⟩ ↦ ⟨ha, has⟩, fun ⟨ha, has⟩ ↦ ⟨(), ha, has⟩⟩

theorem mapM_ok_iff {f : α → Outcome ε β} {xs : List α} {ys : List β} :
    xs.mapM f = .ok ys ↔ List.Forall₂ (fun x y ↦ f x = .ok y) xs ys := by
  induction xs generalizing ys with
  | nil => simp [eq_comm]
  | cons x xs ih =>
    simp only [List.mapM_cons, bind_ok_iff, pure_ok, Except.ok.injEq,
      List.forall₂_cons_left_iff, ih]
    constructor
    · rintro ⟨y, hy, ys', hys, rfl⟩
      exact ⟨y, ys', hy, hys, rfl⟩
    · rintro ⟨y, ys', hy, hys, rfl⟩
      exact ⟨y, hy, ys', hys, rfl⟩

theorem mapM_ok_of_forall {f : α → Outcome ε β} {g : α → β} {xs : List α}
    (h : ∀ x ∈ xs, f x = .ok (g x)) : xs.mapM f = .ok (xs.map g) := by
  rw [mapM_ok_iff, List.forall₂_map_right_iff, List.forall₂_same]
  exact h

theorem mapM_range_ok_iff {f : ℕ → Outcome ε β} {n : ℕ} {ys : List β} :
    (List.range n).mapM f = .ok ys ↔
      ys.length = n ∧ ∀ i y, ys[i]? = some y → f i = .ok y := by
  rw [mapM_ok_iff, List.forall₂_iff_get]
  constructor
  · rintro ⟨hlen, h⟩
    have hn : ys.length = n := by simpa using hlen.symm
    refine ⟨hn, fun i y hy ↦ ?_⟩
    obtain ⟨hi, rfl⟩ := List.getElem?_eq_some_iff.mp hy
    simpa using h i (by simpa [hn] using hi) hi
  · rintro ⟨hn, h⟩
    refine ⟨by simpa using hn.symm, fun i h₁ h₂ ↦ ?_⟩
    simpa using h i ys[i] (List.getElem?_eq_getElem h₂)

theorem mapM_range_length_ok_iff {f : ℕ → Outcome ε β} {xs : List α} {R : α → β → Prop}
    (h : ∀ i x, xs[i]? = some x → ∀ y, f i = .ok y ↔ R x y) {ys : List β} :
    (List.range xs.length).mapM f = .ok ys ↔ List.Forall₂ R xs ys := by
  rw [mapM_range_ok_iff, List.forall₂_iff_get, eq_comm]
  refine and_congr_right fun hlen ↦ ?_
  constructor
  · intro hall i h₁ h₂
    exact (h i _ (List.getElem?_eq_getElem h₁) _).mp (hall i _ (List.getElem?_eq_getElem h₂))
  · intro hall i y hy
    obtain ⟨h₂, rfl⟩ := List.getElem?_eq_some_iff.mp hy
    have h₁ : i < xs.length := hlen ▸ h₂
    exact (h i _ (List.getElem?_eq_getElem h₁) _).mpr (hall i h₁ h₂)

theorem foldlM_ok_of_states (f : β → α → Outcome ε β) (xs : List α) (state : ℕ → β)
    (h : ∀ k x, xs[k]? = some x → f (state k) x = .ok (state (k + 1))) :
    xs.foldlM f (state 0) = .ok (state xs.length) := by
  induction xs generalizing state with
  | nil => rfl
  | cons x xs ih =>
    rw [List.foldlM_cons, h 0 x rfl, ok_bind]
    exact ih (fun k ↦ state (k + 1)) fun k y hy ↦ h (k + 1) y hy

/-- A loop whose steps commute does the same in any order. -/
theorem foldlM_ok_of_perm {f : β → α → Outcome ε β}
    (hf : ∀ b x y c, (f b x >>= (f · y)) = .ok c → (f b y >>= (f · x)) = .ok c) {xs ys : List α}
    (h : xs.Perm ys) {b c : β} (hxs : xs.foldlM f b = .ok c) : ys.foldlM f b = .ok c := by
  induction h generalizing b with
  | nil => exact hxs
  | cons x _ ih =>
    rw [List.foldlM_cons, bind_ok_iff] at hxs ⊢
    obtain ⟨b', hb, hrest⟩ := hxs
    exact ⟨b', hb, ih hrest⟩
  | swap x y l =>
    simp only [List.foldlM_cons, ← bind_assoc] at hxs ⊢
    obtain ⟨b', hb, hrest⟩ := bind_ok_iff.mp hxs
    exact bind_ok_iff.mpr ⟨b', hf b y x b' hb, hrest⟩
  | trans _ _ ih₁ ih₂ => exact ih₂ (ih₁ hxs)

end HieroCryptography.Rust
