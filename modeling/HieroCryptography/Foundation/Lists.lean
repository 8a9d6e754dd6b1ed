import Mathlib

namespace HieroCryptography.Foundation

variable {α β γ δ : Type}

theorem zip_append_drop (xs ys : List α) (bs : List β) :
    (xs ++ ys).zip bs = xs.zip bs ++ ys.zip (bs.drop xs.length) := by
  induction xs generalizing bs with
  | nil => simp
  | cons x xs ih =>
    cases bs with
    | nil => simp
    | cons b bs => simp [ih]

theorem findIdx?_append_of_forall {p : α → Bool} {xs ys : List α}
    (h : ∀ y ∈ ys, p y = false) : (xs ++ ys).findIdx? p = xs.findIdx? p := by
  rw [List.findIdx?_append, List.findIdx?_eq_none_iff.mpr h, Option.map_none, Option.or_none]

theorem findIdx?_of_nodup [DecidableEq α] {xs : List α} (hnodup : xs.Nodup) {x : α} {i : ℕ}
    (h : xs[i]? = some x) : xs.findIdx? (· = x) = some i := by
  obtain ⟨hlt, rfl⟩ := List.getElem?_eq_some_iff.mp h
  refine List.findIdx?_eq_some_iff_getElem.mpr ⟨hlt, by simp, fun j hj ↦ ?_⟩
  rw [decide_eq_true_eq, hnodup.getElem_inj_iff]
  omega

theorem forall₂_join {R : α → β → Prop} {S : α → γ → Prop} {T : β → γ → Prop}
    {as : List α} {bs : List β} {cs : List γ} (h₁ : List.Forall₂ R as bs)
    (h₂ : List.Forall₂ S as cs) (h : ∀ a b c, R a b → S a c → T b c) : List.Forall₂ T bs cs := by
  induction h₁ generalizing cs with
  | nil =>
    cases h₂
    exact .nil
  | cons hab _ ih =>
    cases h₂ with
    | cons hac hrest => exact .cons (h _ _ _ hab hac) (ih hrest)

theorem forall₂_zip {R : α → β → Prop} {S : γ → δ → Prop} {as : List α} {bs : List β}
    {cs : List γ} {ds : List δ} (h₁ : List.Forall₂ R as bs) (h₂ : List.Forall₂ S cs ds) :
    List.Forall₂ (fun p q ↦ R p.1 q.1 ∧ S p.2 q.2) (as.zip cs) (bs.zip ds) := by
  induction h₁ generalizing cs ds with
  | nil => exact .nil
  | cons hab _ ih =>
    cases h₂ with
    | nil => exact .nil
    | cons hcd hrest => exact .cons ⟨hab, hcd⟩ (ih hrest)

theorem forall₂_of_zip {R : β → γ → Prop} {as : List α} {bs : List β} {cs : List γ}
    (hlen : bs.length ≤ as.length) (h : List.Forall₂ (fun p c ↦ R p.2 c) (as.zip bs) cs) :
    List.Forall₂ R bs cs := by
  rw [← List.map_snd_zip hlen, List.forall₂_map_left_iff]
  exact h

theorem forall₂_zip_map {R : α → β → Prop} {as : List α} {bs : List β}
    (f : β → γ) (h : List.Forall₂ R as bs) :
    List.Forall₂ (fun p b ↦ p.1 = f b ∧ R p.2 b) ((bs.map f).zip as) bs := by
  induction h with
  | nil => exact .nil
  | cons hab _ ih => exact .cons ⟨rfl, hab⟩ ih

theorem map_eq_of_forall₂ {R : α → α → Prop} {f : α → β} {xs ys : List α}
    (h : List.Forall₂ R xs ys) (hf : ∀ x y, R x y → f x = f y) : xs.map f = ys.map f := by
  induction h with
  | nil => rfl
  | cons hxy _ ih => rw [List.map_cons, List.map_cons, hf _ _ hxy, ih]

theorem exists_of_forall₂ {R : α → β → Prop} {as : List α} {bs : List β}
    (h : List.Forall₂ R as bs) {i : ℕ} {a : α} (ha : as[i]? = some a) :
    ∃ b, bs[i]? = some b ∧ R a b := by
  obtain ⟨hi, rfl⟩ := List.getElem?_eq_some_iff.mp ha
  have hi' : i < bs.length := h.length_eq ▸ hi
  exact ⟨bs[i], List.getElem?_eq_getElem hi', h.get hi hi'⟩

theorem exists_eq_map_range {n : ℕ} (hn : 0 < n) {R : ℕ → β → Prop} {ys : List β}
    (h : List.Forall₂ R (List.range n) ys) :
    ∃ f : ℕ → β, ys = (List.range n).map f ∧ ∀ i < n, R i (f i) := by
  obtain ⟨hlen, hget⟩ := List.forall₂_iff_get.mp h
  rw [List.length_range] at hlen
  refine ⟨fun i ↦ ys.getD i (ys.get ⟨0, hlen ▸ hn⟩), ?_, ?_⟩
  · refine List.ext_getElem (by simpa using hlen.symm) fun i h₁ _ ↦ ?_
    rw [List.getElem_map, List.getElem_range, List.getD_eq_getElem _ _ h₁]
  · intro i hi
    have hi' : i < ys.length := hlen ▸ hi
    simpa [hi'] using hget i (by simpa using hi) hi'

theorem sum_zip_add_sum_zip_le (weight : α → ℕ) (xs : List α) (bs cs : List Bool)
    (h : ∀ (i : ℕ) (x : α), xs[i]? = some x → bs[i]? = some true →
      cs[i]? = some true → weight x = 0) :
    ((xs.zip bs).map fun p ↦ if p.2 then weight p.1 else 0).sum +
      ((xs.zip cs).map fun p ↦ if p.2 then weight p.1 else 0).sum ≤ (xs.map weight).sum := by
  induction xs generalizing bs cs with
  | nil => simp
  | cons x xs ih =>
    -- the bits may run out before the book does; a missing bit is not set
    have htail := ih bs.tail cs.tail fun i y hy hb hc ↦
      h (i + 1) y hy (by simpa using hb) (by simpa using hc)
    have hhead : (if bs.head? = some true then weight x else 0) +
        (if cs.head? = some true then weight x else 0) ≤ weight x := by
      by_cases hb : bs.head? = some true
      · by_cases hc : cs.head? = some true
        · have hx := h 0 x rfl (by rwa [← List.head?_eq_getElem?])
            (by rwa [← List.head?_eq_getElem?])
          simp [hx]
        · simp [hb, hc]
      · simp only [hb, if_false, zero_add]
        split <;> omega
    have hsplit (ds : List Bool) :
        (((x :: xs).zip ds).map fun p ↦ if p.2 then weight p.1 else 0).sum =
        (if ds.head? = some true then weight x else 0) +
          ((xs.zip ds.tail).map fun p ↦ if p.2 then weight p.1 else 0).sum := by
      cases ds with
      | nil => simp
      | cons d ds => cases d <;> simp
    rw [hsplit, hsplit, List.map_cons, List.sum_cons]
    omega

end HieroCryptography.Foundation
