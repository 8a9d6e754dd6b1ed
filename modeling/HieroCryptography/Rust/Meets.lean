import HieroCryptography.Rust.Outcome

namespace HieroCryptography.Rust

variable {ε α β : Type}

/-- A call that does not panic, and whose value, if it returns one, satisfies `Q`. -/
def Meets (x : Outcome ε α) (Q : α → Prop) : Prop := x ≠ unwind ∧ ∀ a, x = .ok a → Q a

theorem meets_of_ok {x : Outcome ε α} {a : α} {Q : α → Prop} (h : x = .ok a) (hQ : Q a) :
    Meets x Q := by
  subst h
  refine ⟨(unwind_ne_ok a).symm, ?_⟩
  intro b hb
  cases hb
  exact hQ

theorem meets_ok {a : α} {Q : α → Prop} (hQ : Q a) : Meets (.ok a : Outcome ε α) Q :=
  meets_of_ok rfl hQ

theorem meets_fail (e : ε) (Q : α → Prop) : Meets (fail e) Q := ⟨nofun, nofun⟩

theorem Meets.mono {x : Outcome ε α} {P Q : α → Prop} (h : Meets x P) (hPQ : ∀ a, P a → Q a) :
    Meets x Q :=
  ⟨h.1, fun a ha ↦ hPQ a (h.2 a ha)⟩

theorem Meets.bind {x : Outcome ε α} {f : α → Outcome ε β} {P : α → Prop} {Q : β → Prop}
    (hx : Meets x P) (hf : ∀ a, P a → Meets (f a) Q) : Meets (x >>= f) Q := by
  refine ⟨bind_ne_unwind hx.1 fun a ha ↦ (hf a (hx.2 a ha)).1, ?_⟩
  intro b hb
  obtain ⟨a, ha, hfa⟩ := bind_ok_iff.mp hb
  exact (hf a (hx.2 a ha)).2 b hfa

theorem meets_require (cond : Bool) (e : ε) : Meets (require cond e) fun _ ↦ cond = true :=
  ⟨require_ne_unwind cond e, fun _ h ↦ require_ok_iff.mp h⟩

theorem meets_okOr (opt : Option α) (e : ε) : Meets (okOr opt e) fun a ↦ opt = some a :=
  ⟨okOr_ne_unwind opt e, fun _ h ↦ okOr_ok_iff.mp h⟩

theorem meets_index {xs : List α} {i : ℕ} (h : i < xs.length) :
    Meets (index xs i : Outcome ε α) fun a ↦ xs[i]? = some a :=
  meets_of_ok (index_of_getElem? (List.getElem?_eq_getElem h)) (List.getElem?_eq_getElem h)

theorem meets_setAt {xs : List α} {i : ℕ} (h : i < xs.length) (a : α) :
    Meets (setAt xs i a : Outcome ε (List α)) fun ys ↦ ys.length = xs.length :=
  meets_of_ok (setAt_of_lt h a) List.length_set

theorem meets_slice {xs : List α} {a b : ℕ} (h : a ≤ b) (hb : b ≤ xs.length) :
    Meets (slice xs a b : Outcome ε (List α)) fun _ ↦ True :=
  meets_of_ok (slice_of_le h hb) trivial

theorem meets_usizeSub {a b : ℕ} (h : b ≤ a) :
    Meets (usizeSub a b : Outcome ε ℕ) fun c ↦ c = a - b :=
  meets_of_ok (usizeSub_of_le h) rfl

theorem meets_fieldDiv {F : Type} [Field F] [DecidableEq F] (a : F) {b : F} (h : b ≠ 0) :
    Meets (fieldDiv a b : Outcome ε F) fun _ ↦ True :=
  meets_of_ok (fieldDiv_of_ne a h) trivial

theorem meets_checkOrReturnFalse {cond : Bool} {rest : Outcome ε Bool}
    (h : cond = true → Meets rest fun _ ↦ True) :
    Meets (checkOrReturnFalse cond rest) fun _ ↦ True := by
  cases cond with
  | false => exact meets_ok trivial
  | true => exact h rfl

theorem meets_mapM {f : α → Outcome ε β} {xs : List α} {R : α → β → Prop}
    (h : ∀ x ∈ xs, Meets (f x) (R x)) : Meets (xs.mapM f) fun ys ↦ List.Forall₂ R xs ys := by
  induction xs with
  | nil => exact meets_ok .nil
  | cons x xs ih =>
    rw [List.forall_mem_cons] at h
    rw [List.mapM_cons]
    refine h.1.bind fun y hy ↦ ?_
    refine (ih h.2).bind fun ys hys ↦ ?_
    exact meets_ok (.cons hy hys)

theorem meets_allM {f : α → Outcome ε Bool} {xs : List α}
    (h : ∀ x ∈ xs, Meets (f x) fun _ ↦ True) : Meets (xs.allM f) fun _ ↦ True := by
  induction xs with
  | nil => exact meets_ok trivial
  | cons x xs ih =>
    rw [List.forall_mem_cons] at h
    rw [List.allM]
    refine h.1.bind fun b _ ↦ ?_
    cases b with
    | false => exact meets_ok trivial
    | true => exact ih h.2

theorem meets_forM {f : α → Outcome ε Unit} {xs : List α}
    (h : ∀ x ∈ xs, Meets (f x) fun _ ↦ True) : Meets (xs.forM f) fun _ ↦ True := by
  induction xs with
  | nil => exact meets_ok trivial
  | cons x xs ih =>
    rw [List.forall_mem_cons] at h
    exact h.1.bind fun _ _ ↦ ih h.2

theorem meets_foldlM {f : β → α → Outcome ε β} {xs : List α} {I : β → Prop} {b : β} (hb : I b)
    (h : ∀ x ∈ xs, ∀ b, I b → Meets (f b x) I) : Meets (xs.foldlM f b) I := by
  induction xs generalizing b with
  | nil => exact meets_ok hb
  | cons x xs ih =>
    rw [List.forall_mem_cons] at h
    rw [List.foldlM_cons]
    exact (h.1 b hb).bind fun b' hb' ↦ ih hb' h.2

end HieroCryptography.Rust
