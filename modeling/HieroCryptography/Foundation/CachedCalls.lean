import HieroCryptography.Rust.Outcome

namespace HieroCryptography.Foundation

open Rust

variable {σ K V ε : Type}

/-- A cache shared by concurrent calls. A call looks its key up under a lock, computes the value
of a key it has missed without the lock, and inserts the value under the lock. Not every cache
has a reset. -/
structure CacheObject (σ K V ε : Type) where
  lookup : K → σ → Outcome ε (Option V × σ)
  insert : K → V → σ → Outcome ε (V × σ)
  reset : Option (σ → Outcome ε σ)
  compute : K → Except ε V

inductive Call (K V ε : Type)
  | started (key : K)
  | missed (key : K)
  | computed (key : K) (value : V)
  | returned (key : K) (result : Except ε V)

/-- What can happen next: a new call, the next part of the call number `i`, or a reset. -/
inductive Event (K : Type)
  | call (key : K)
  | lookup (i : ℕ)
  | compute (i : ℕ)
  | insert (i : ℕ)
  | reset

/-- All calls so far, with the keys hit or inserted since the last reset, oldest first. A locked
section that does not end normally leaves the system crashed. -/
structure System (σ K V ε : Type) where
  shared : σ
  calls : List (Call K V ε)
  accessed : List K
  crashed : Bool

namespace Call

def key : Call K V ε → K
  | started key | missed key | computed key _ | returned key _ => key

def next (i : ℕ) : Call K V ε → Option (Event K)
  | started _ => some (.lookup i)
  | missed _ => some (.compute i)
  | computed _ _ => some (.insert i)
  | returned _ _ => none

def remaining : Call K V ε → ℕ
  | started _ => 3
  | missed _ => 2
  | computed _ _ => 1
  | returned _ _ => 0

def Sound (compute : K → Except ε V) : Call K V ε → Prop
  | started _ | missed _ => True
  | computed key value => compute key = .ok value
  | returned key result => result = compute key

def PastLookup : Call K V ε → Prop
  | missed _ | computed _ _ => True
  | started _ | returned _ _ => False

end Call

namespace System

variable (O : CacheObject σ K V ε)

def init (shared : σ) : System σ K V ε := ⟨shared, [], [], false⟩

def step (s : System σ K V ε) : Event K → Option (System σ K V ε)
  | .call key => some { s with calls := s.calls ++ [.started key] }
  | .lookup i =>
    match s.crashed, s.calls[i]? with
    | false, some (.started key) =>
      match O.lookup key s.shared with
      | .ok (some value, shared) => some {
          s with
          shared
          calls := s.calls.set i (.returned key (.ok value))
          accessed := s.accessed ++ [key] }
      | .ok (none, shared) => some { s with shared, calls := s.calls.set i (.missed key) }
      | .error _ => some { s with crashed := true }
    | _, _ => none
  | .compute i =>
    match s.calls[i]? with
    | some (.missed key) =>
      match O.compute key with
      | .ok value => some { s with calls := s.calls.set i (.computed key value) }
      | .error e => some { s with calls := s.calls.set i (.returned key (.error e)) }
    | _ => none
  | .insert i =>
    match s.crashed, s.calls[i]? with
    | false, some (.computed key value) =>
      match O.insert key value s.shared with
      | .ok (value, shared) => some {
          s with
          shared
          calls := s.calls.set i (.returned key (.ok value))
          accessed := s.accessed ++ [key] }
      | .error _ => some { s with crashed := true }
    | _, _ => none
  | .reset =>
    match s.crashed, O.reset with
    | false, some reset =>
      match reset s.shared with
      | .ok shared => some { s with shared, accessed := [] }
      | .error _ => some { s with crashed := true }
    | _, _ => none

def run (s : System σ K V ε) (events : List (Event K)) : Option (System σ K V ε) :=
  events.foldlM (step O) s

end System

/-- What the three sections of a cache keep of an invariant, which may depend on the keys
accessed. A call that has missed finds the cache open. -/
structure CacheObject.Keeps (O : CacheObject σ K V ε) (I : List K → σ → Prop) (Open : σ → Prop) :
    Prop where
  lookup : ∀ log s key, I log s → ∃ found s', O.lookup key s = .ok (found, s') ∧ Open s' ∧
    (∀ value, found = some value → O.compute key = .ok value ∧ I (log ++ [key]) s') ∧
    (found = none → I log s')
  insert : ∀ log s key value, I log s → Open s → O.compute key = .ok value →
    ∃ s', O.insert key value s = .ok (value, s') ∧ Open s' ∧ I (log ++ [key]) s'
  reset : ∀ reset ∈ O.reset, ∀ log s, I log s →
    ∃ s', reset s = .ok s' ∧ (Open s → Open s') ∧ I [] s'

structure System.Valid (O : CacheObject σ K V ε) (I : List K → σ → Prop) (Open : σ → Prop)
    (s : System σ K V ε) : Prop where
  shared : I s.accessed s.shared
  sound : ∀ c ∈ s.calls, c.Sound O.compute
  opened : ∀ c ∈ s.calls, c.PastLookup → Open s.shared
  healthy : s.crashed = false

namespace System

variable {O : CacheObject σ K V ε} {I : List K → σ → Prop} {Open : σ → Prop}
  {s s' : System σ K V ε}

theorem valid_init {shared : σ} (h : I [] shared) : (init shared).Valid O I Open :=
  ⟨h, fun _ hc ↦ absurd hc List.not_mem_nil, fun _ hc ↦ absurd hc List.not_mem_nil, rfl⟩

theorem forall_mem_set {p : Call K V ε → Prop} {calls : List (Call K V ε)}
    (h : ∀ c ∈ calls, p c) {i : ℕ} {c : Call K V ε} (hc : p c) : ∀ c' ∈ calls.set i c, p c' := by
  intro c' hc'
  rcases List.mem_or_eq_of_mem_set hc' with hmem | rfl
  · exact h c' hmem
  · exact hc

theorem Valid.advance (h : s.Valid O I Open) {shared : σ} {log : List K} (i : ℕ)
    (c : Call K V ε) (hshared : I log shared) (hopen : Open s.shared → Open shared)
    (hsound : c.Sound O.compute) (hpast : c.PastLookup → Open shared) :
    Valid O I Open ⟨shared, s.calls.set i c, log, false⟩ :=
  ⟨hshared, forall_mem_set h.sound hsound,
    forall_mem_set (fun c' hc' hp ↦ hopen (h.opened c' hc' hp)) hpast, rfl⟩

/-- An unfinished call can always go on, whatever the other calls do, and comes nearer its end. -/
theorem Valid.next (hO : O.Keeps I Open) (h : s.Valid O I Open) {i : ℕ} {c : Call K V ε}
    (hi : s.calls[i]? = some c) {event : Event K} (hnext : c.next i = some event) :
    ∃ s' c', s.step O event = some s' ∧ s'.Valid O I Open ∧ s'.calls = s.calls.set i c' ∧
      c'.key = c.key ∧ c'.remaining < c.remaining := by
  have hmem := List.mem_of_getElem? hi
  cases c with
  | started key =>
    obtain rfl := Option.some.inj hnext
    obtain ⟨found, shared, hok, hopen, hhit, hmiss⟩ := hO.lookup _ _ key h.shared
    cases found with
    | some value =>
      obtain ⟨hvalue, hI⟩ := hhit value rfl
      refine ⟨⟨shared, _, s.accessed ++ [key], false⟩, .returned key (.ok value), ?_, ?_, rfl, rfl,
        Nat.zero_lt_succ 2⟩
      · simp only [step, h.healthy, hi, hok]
      · exact h.advance i _ hI (fun _ ↦ hopen) hvalue.symm False.elim
    | none =>
      refine ⟨⟨shared, _, s.accessed, false⟩, .missed key, ?_, ?_, rfl, rfl, Nat.lt_succ_self 2⟩
      · simp only [step, h.healthy, hi, hok]
      · exact h.advance i (.missed key) (hmiss rfl) (fun _ ↦ hopen) trivial (fun _ ↦ hopen)
  | missed key =>
    obtain rfl := Option.some.inj hnext
    cases hvalue : O.compute key with
    | ok value =>
      refine ⟨⟨s.shared, _, s.accessed, false⟩, .computed key value, ?_, ?_, rfl, rfl,
        Nat.lt_succ_self 1⟩
      · simp only [step, h.healthy, hi, hvalue]
      · exact h.advance i (.computed key value) h.shared id hvalue fun _ ↦ h.opened _ hmem trivial
    | error e =>
      refine ⟨⟨s.shared, _, s.accessed, false⟩, .returned key (.error e), ?_, ?_, rfl, rfl,
        Nat.zero_lt_succ 1⟩
      · simp only [step, h.healthy, hi, hvalue]
      · exact h.advance i (.returned key (.error e)) h.shared id hvalue.symm False.elim
  | computed key value =>
    obtain rfl := Option.some.inj hnext
    have hvalue : O.compute key = .ok value := h.sound _ hmem
    obtain ⟨shared, hok, hopen, hI⟩ :=
      hO.insert _ _ key value h.shared (h.opened _ hmem trivial) hvalue
    refine ⟨⟨shared, _, s.accessed ++ [key], false⟩, .returned key (.ok value), ?_, ?_, rfl, rfl,
      Nat.zero_lt_succ 0⟩
    · simp only [step, h.healthy, hi, hok]
    · exact h.advance i _ hI (fun _ ↦ hopen) hvalue.symm False.elim
  | returned key result => cases hnext

theorem step_cases {event : Event K} (hstep : s.step O event = some s') :
    (∃ key, event = .call key) ∨ event = .reset ∨
      ∃ (i : ℕ) (c : Call K V ε), s.calls[i]? = some c ∧ c.next i = some event := by
  cases event with
  | call key => exact Or.inl ⟨key, rfl⟩
  | reset => exact Or.inr (Or.inl rfl)
  | lookup i =>
    simp only [step] at hstep
    split at hstep
    · next hi => exact Or.inr (Or.inr ⟨i, _, hi, rfl⟩)
    · cases hstep
  | compute i =>
    simp only [step] at hstep
    split at hstep
    · next hi => exact Or.inr (Or.inr ⟨i, _, hi, rfl⟩)
    · cases hstep
  | insert i =>
    simp only [step] at hstep
    split at hstep
    · next hi => exact Or.inr (Or.inr ⟨i, _, hi, rfl⟩)
    · cases hstep

theorem Valid.step_call (h : s.Valid O I Open) {key : K}
    (hstep : s.step O (.call key) = some s') : s'.Valid O I Open := by
  obtain rfl := Option.some.inj hstep
  refine ⟨h.shared, ?_, ?_, h.healthy⟩
  · exact List.forall_mem_append.mpr ⟨h.sound, List.forall_mem_singleton.mpr trivial⟩
  · exact List.forall_mem_append.mpr ⟨h.opened, List.forall_mem_singleton.mpr False.elim⟩

theorem Valid.step_reset (hO : O.Keeps I Open) (h : s.Valid O I Open)
    (hstep : s.step O .reset = some s') : s'.Valid O I Open := by
  cases hreset : O.reset with
  | none => simp [step, hreset] at hstep
  | some reset =>
    obtain ⟨shared, hok, hopen, hI⟩ := hO.reset reset hreset _ _ h.shared
    simp only [step, h.healthy, hreset, hok, Option.some.injEq] at hstep
    subst hstep
    exact ⟨hI, h.sound, fun c hc hp ↦ hopen (h.opened c hc hp), rfl⟩

theorem Valid.step (hO : O.Keeps I Open) (h : s.Valid O I Open) {event : Event K}
    (hstep : s.step O event = some s') : s'.Valid O I Open := by
  obtain ⟨key, rfl⟩ | rfl | ⟨i, c, hi, hnext⟩ := step_cases hstep
  · exact h.step_call hstep
  · exact h.step_reset hO hstep
  · obtain ⟨t, c', ht, hvalid, -⟩ := h.next hO hi hnext
    rwa [Option.some.inj (hstep.symm.trans ht)]

theorem Valid.run (hO : O.Keeps I Open) (h : s.Valid O I Open) {events : List (Event K)}
    (hrun : s.run O events = some s') : s'.Valid O I Open := by
  induction events generalizing s with
  | nil =>
    obtain rfl := Option.some.inj hrun
    exact h
  | cons event events ih =>
    obtain ⟨t, hstep, hrest⟩ := Option.bind_eq_some_iff.mp hrun
    exact ih (h.step hO hstep) hrest

/-- Every call can be brought to its end, where it gives what is computed from its key. -/
theorem Valid.finishes (hO : O.Keeps I Open) (h : s.Valid O I Open) {i : ℕ} {c : Call K V ε}
    (hi : s.calls[i]? = some c) : ∃ events s', events.length ≤ c.remaining ∧
      s.run O events = some s' ∧ s'.calls[i]? = some (.returned c.key (O.compute c.key)) := by
  induction hn : c.remaining using Nat.strong_induction_on generalizing s c with
  | h n ih =>
  subst hn
  cases hnext : c.next i with
  | none =>
    cases c with
    | returned key result =>
      have hresult : result = O.compute key := h.sound _ (List.mem_of_getElem? hi)
      exact ⟨[], s, Nat.zero_le _, rfl, by rw [hi, hresult]; rfl⟩
    | started | missed | computed => cases hnext
  | some event =>
    obtain ⟨t, c', hstep, ht, hcalls, hkey, hlt⟩ := h.next hO hi hnext
    have hi' : t.calls[i]? = some c' := by
      rw [hcalls, List.getElem?_set_self (List.getElem?_eq_some_iff.mp hi).1]
    obtain ⟨events, s', hlen, hrun, hend⟩ := ih _ hlt ht hi' rfl
    refine ⟨event :: events, s', by rw [List.length_cons]; omega, ?_, hkey ▸ hend⟩
    exact Option.bind_eq_some_iff.mpr ⟨t, hstep, hrun⟩

theorem step_compute_shared {i : ℕ} (hstep : s.step O (.compute i) = some s') :
    s'.shared = s.shared ∧ s'.accessed = s.accessed := by
  simp only [System.step] at hstep
  split at hstep
  · split at hstep
    all_goals
      obtain rfl := Option.some.inj hstep
      exact ⟨rfl, rfl⟩
  · cases hstep

end System

end HieroCryptography.Foundation
