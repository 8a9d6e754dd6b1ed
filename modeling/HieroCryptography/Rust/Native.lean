import HieroCryptography.Rust.Outcome

namespace HieroCryptography.Rust

/-- What the body of a native method does: it returns a value, it returns null (false for a
predicate), or it panics. -/
abbrev Native (α : Type) := Outcome Unit α

namespace Native

variable {ε α β : Type}

/-- `match result { Ok(val) => val, Err(_) => return null }`. -/
def orNull (x : Outcome ε α) : Native α := mapErr (fun _ ↦ ()) x

/-- `catch_unwind(..).unwrap_or_else(..)`: a panic is answered like an error. -/
def catchUnwind (x : Native α) : Option α := x.toOption

def catchUnwindBool (x : Native Bool) : Bool := x.toOption.getD false

theorem orNull_ok_iff {x : Outcome ε α} {a : α} : orNull x = .ok a ↔ x = .ok a := mapErr_ok_iff

theorem catchUnwind_eq_some_iff {x : Native α} {a : α} : catchUnwind x = some a ↔ x = .ok a := by
  cases x <;> simp [catchUnwind, Except.toOption]

theorem catchUnwindBool_eq_true_iff {x : Native Bool} :
    catchUnwindBool x = true ↔ x = .ok true := by
  rcases x with e | b <;> simp [catchUnwindBool, Except.toOption]

/-- `if jarray.is_null() { None } else { Some(..) }`. -/
def ifPresent (f : α → Native β) : Option α → Native (Option β)
  | none => .ok none
  | some a => do
    let b ← f a
    .ok (some b)

theorem ifPresent_ok_iff {f : α → Native β} {a : Option α} {b : Option β} :
    ifPresent f a = .ok b ↔ Option.Rel (fun a b ↦ f a = .ok b) a b := by
  cases a with
  | none => cases b <;> simp [ifPresent]
  | some a => cases b <;> simp [ifPresent, bind_ok_iff]

/-- The first `length` elements, where `get_*_array_region` refuses a shorter array. -/
def arrayRegion (jarray : List α) (length : ℕ) : Native (List α) := do
  require (length ≤ jarray.length) ()
  .ok (jarray.take length)

theorem arrayRegion_ok_iff {jarray region : List α} {length : ℕ} :
    arrayRegion jarray length = .ok region ↔
      length ≤ jarray.length ∧ jarray.take length = region := by
  simp only [arrayRegion, bind_ok_iff, require_ok_iff, exists_const, decide_eq_true_eq,
    Except.ok.injEq]

theorem arrayRegion_of_eq {jarray : List α} {length : ℕ} (h : jarray.length = length) :
    arrayRegion jarray length = .ok jarray :=
  arrayRegion_ok_iff.mpr ⟨h.ge, h ▸ List.take_length⟩

end Native

def asUsize (x : ℤ) : ℕ := (x % 2 ^ 64).toNat

theorem asUsize_of_nonneg {x : ℤ} (h : 0 ≤ x) (hlt : x < 2 ^ 64) : asUsize x = x.toNat := by
  rw [asUsize, Int.emod_eq_of_lt h hlt]

end HieroCryptography.Rust
