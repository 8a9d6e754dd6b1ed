import Mathlib

namespace HieroCryptography.Foundation

variable {K V ε : Type} [DecidableEq K]

/-- The last `size` distinct keys of a log of accesses, in order of last use. -/
def recent (size : ℕ) (log : List K) : List K := log.dedup.rtake size

theorem dedup_append_singleton (log : List K) (k : K) :
    (log ++ [k]).dedup = log.dedup.erase k ++ [k] := by
  induction log with
  | nil => rfl
  | cons a log ih =>
    rw [List.cons_append]
    by_cases ha : a ∈ log
    · rw [List.dedup_cons_of_mem ha, List.dedup_cons_of_mem (List.mem_append_left _ ha), ih]
    · rw [List.dedup_cons_of_notMem ha]
      by_cases hk : a = k
      · subst a
        have hk' : k ∉ log.dedup := mt List.mem_dedup.mp ha
        rw [List.dedup_cons_of_mem (List.mem_append_right _ List.mem_cons_self), ih,
          List.erase_cons_head, List.erase_of_not_mem hk']
      · have ha' : a ∉ log ++ [k] := by simp [ha, hk]
        rw [List.dedup_cons_of_notMem ha', ih, List.erase_cons_tail (by simpa using hk),
          List.cons_append]

theorem nodup_recent (size : ℕ) (log : List K) : (recent size log).Nodup :=
  (List.nodup_dedup log).sublist (List.drop_sublist _ _)

theorem length_recent_le (size : ℕ) (log : List K) : (recent size log).length ≤ size := by
  rw [recent, List.rtake, List.length_drop]
  omega

theorem dedup_eq_append_recent (size : ℕ) (log : List K) : ∃ forgotten,
    log.dedup = forgotten ++ recent size log ∧ forgotten.length = log.dedup.length - size :=
  ⟨log.dedup.take (log.dedup.length - size), (List.take_append_drop _ _).symm, by
    rw [List.length_take]
    omega⟩

theorem recent_append_of_mem {size : ℕ} {log : List K} {k : K} (hk : k ∈ recent size log) :
    recent size (log ++ [k]) = (recent size log).erase k ++ [k] := by
  obtain ⟨forgotten, hsplit, hlen⟩ := dedup_eq_append_recent size log
  have hnodup := List.nodup_dedup log
  rw [hsplit, List.nodup_append'] at hnodup
  have hnot : k ∉ forgotten := fun h ↦ hnodup.2.2 h hk
  have hlen' : (log.dedup.erase k ++ [k]).length = log.dedup.length := by
    have hmem : k ∈ log.dedup := hsplit ▸ List.mem_append_right _ hk
    have hpos := List.length_pos_of_mem hmem
    rw [List.length_append, List.length_erase_of_mem hmem, List.length_singleton]
    omega
  rw [recent, List.rtake, dedup_append_singleton, hlen', ← hlen, hsplit,
    List.erase_append_right _ hnot, List.append_assoc, List.drop_left]

theorem recent_append_of_notMem {size : ℕ} {log : List K} {k : K} (hk : k ∉ recent size log) :
    recent size (log ++ [k]) = (recent size log ++ [k]).rtake size := by
  obtain ⟨forgotten, hsplit, hlen⟩ := dedup_eq_append_recent size log
  have herase : log.dedup.erase k = forgotten.erase k ++ recent size log := by
    by_cases hmem : k ∈ forgotten
    · rw [hsplit, List.erase_append_left _ hmem]
    · rw [hsplit, List.erase_append_right _ hmem, List.erase_of_not_mem hk,
        List.erase_of_not_mem hmem]
  have hle := List.length_erase_le (a := k) (l := forgotten)
  have htotal := congrArg List.length hsplit
  rw [List.length_append] at htotal
  set dropped := (forgotten.erase k ++ (recent size log ++ [k])).length - size with hdropped
  rw [List.length_append, List.length_append, List.length_singleton] at hdropped
  have hall : (forgotten.erase k).length ≤ dropped := by omega
  have hrest : dropped - (forgotten.erase k).length = (recent size log ++ [k]).length - size := by
    rw [List.length_append, List.length_singleton]
    omega
  rw [recent, dedup_append_singleton, herase, List.append_assoc, List.rtake, List.rtake,
    ← hrest, List.drop_append, List.drop_eq_nil_of_le hall, List.nil_append]

/-- What is in a cache of the given capacity after a log of accesses: the recent keys in order,
each with the value computed for it. -/
structure Coherent (size : ℕ) (compute : K → Except ε V) (log order : List K)
    (map : AList fun _ : K ↦ V) : Prop where
  recency : order = recent size log
  keys : ∀ k, k ∈ map ↔ k ∈ order
  values : ∀ k v, map.lookup k = some v → compute k = .ok v

namespace Coherent

variable {size : ℕ} {compute : K → Except ε V} {log order : List K} {map : AList fun _ : K ↦ V}
  {k : K} {v : V}

theorem empty : Coherent size compute [] [] ∅ :=
  ⟨by rw [recent, List.dedup_nil, List.rtake_nil], fun k ↦ by simp, fun k v h ↦ by simp at h⟩

theorem nodup (h : Coherent size compute log order map) : order.Nodup :=
  h.recency ▸ nodup_recent size log

theorem length_le (h : Coherent size compute log order map) : order.length ≤ size :=
  h.recency ▸ length_recent_le size log

theorem length_keys (h : Coherent size compute log order map) :
    order.length = map.keys.length := by
  refine (List.perm_of_nodup_nodup_toFinset_eq h.nodup map.keys_nodup ?_).length_eq
  ext k
  rw [List.mem_toFinset, List.mem_toFinset, ← AList.mem_keys, h.keys]

theorem lookup_of_mem (h : Coherent size compute log order map) (hk : k ∈ map) :
    ∃ v, map.lookup k = some v ∧ compute k = .ok v := by
  obtain ⟨v, hv⟩ := Option.isSome_iff_exists.mp (AList.lookup_isSome.mpr hk)
  exact ⟨v, hv, h.values k v hv⟩

theorem touch (h : Coherent size compute log order map) (hk : k ∈ map) :
    Coherent size compute (log ++ [k]) (order.erase k ++ [k]) map := by
  have hmem := (h.keys k).mp hk
  refine ⟨?_, fun j ↦ ?_, h.values⟩
  · rw [h.recency] at hmem ⊢
    rw [recent_append_of_mem hmem]
  · rw [h.keys, List.mem_append, List.mem_singleton, h.nodup.mem_erase_iff]
    by_cases hj : j = k
    · simp [hj, hmem]
    · simp [hj]

theorem values_insert (h : Coherent size compute log order map) (hv : compute k = .ok v) {j : K}
    {w : V} (hw : (map.insert k v).lookup j = some w) : compute j = .ok w := by
  by_cases hj : j = k
  · subst j
    rw [AList.lookup_insert, Option.some.injEq] at hw
    rw [hv, hw]
  · rw [AList.lookup_insert_ne hj] at hw
    exact h.values j w hw

theorem insert (h : Coherent size compute log order map) (hk : k ∉ map) (hv : compute k = .ok v)
    (hroom : (order ++ [k]).length ≤ size) :
    Coherent size compute (log ++ [k]) (order ++ [k]) (map.insert k v) := by
  have hnot := mt (h.keys k).mpr hk
  refine ⟨?_, fun j ↦ ?_, fun j w ↦ h.values_insert hv⟩
  · rw [h.recency] at hnot hroom ⊢
    rw [recent_append_of_notMem hnot, List.rtake, Nat.sub_eq_zero_of_le hroom, List.drop_zero]
  · rw [AList.mem_insert, h.keys, List.mem_append, List.mem_singleton, or_comm]

theorem insert_evict (h : Coherent size compute log order map) (hk : k ∉ map)
    (hv : compute k = .ok v) (hfull : size < (order ++ [k]).length) {e : K} {rest : List K}
    (hfront : order ++ [k] = e :: rest) :
    Coherent size compute (log ++ [k]) rest ((map.insert k v).erase e) := by
  have hnot := mt (h.keys k).mpr hk
  have hle := h.length_le
  have hnodup : (e :: rest).Nodup := by
    rw [← hfront]
    exact h.nodup.append (List.nodup_singleton k) (by simpa using hnot)
  rw [List.nodup_cons] at hnodup
  refine ⟨?_, fun j ↦ ?_, fun j w hw ↦ h.values_insert hv ?_⟩
  · -- the cache was full to the brim, so one key is forgotten
    have hone : (order ++ [k]).length - size = 1 := by
      rw [List.length_append, List.length_singleton] at hfull ⊢
      omega
    rw [h.recency] at hnot hone hfront
    rw [recent_append_of_notMem hnot, List.rtake, hone, hfront, List.drop_one, List.tail_cons]
  · have hj : j ∈ map.insert k v ↔ j ∈ e :: rest := by
      rw [← hfront, AList.mem_insert, h.keys, List.mem_append, List.mem_singleton, or_comm]
    rw [AList.mem_erase, hj, List.mem_cons]
    constructor
    · rintro ⟨hne, hor⟩
      exact hor.resolve_left hne
    · exact fun hmem ↦ ⟨fun hje ↦ hnodup.1 (hje ▸ hmem), Or.inr hmem⟩
  · by_cases hj : j = e
    · subst j
      rw [AList.lookup_erase] at hw
      cases hw
    · rwa [AList.lookup_erase_ne hj] at hw

end Coherent

end HieroCryptography.Foundation
