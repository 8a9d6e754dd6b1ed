import HieroCryptography.Foundation.CachedCalls
import HieroCryptography.Foundation.Recency

namespace HieroCryptography.Tss

open Rust Foundation

variable {K V ε : Type} [DecidableEq K]

/-- The keys in `lru` stand newest first. -/
structure LruCache (K V : Type) [DecidableEq K] where
  cache : AList fun _ : K ↦ V
  lru : List K
  size : ℕ

namespace LruCache

def new (size : ℕ) : LruCache K V := ⟨∅, [], size⟩

def accessKey (self : LruCache K V) (key : K) : LruCache K V :=
  { self with lru := key :: self.lru.erase key }

def hitBlock (key : K) (self : LruCache K V) : Outcome ε (Option V × LruCache K V) :=
  match self.cache.lookup key with
  | some value => .ok (some value, self.accessKey key)
  | none => .ok (none, self)

def evict (self : LruCache K V) : Outcome ε (LruCache K V) := do
  let keyToEvict ← expect self.lru.getLast?
  .ok { self with cache := self.cache.erase keyToEvict, lru := self.lru.dropLast }

def insertBlock (key : K) (value : V) (self : LruCache K V) : Outcome ε (V × LruCache K V) :=
  let self := self.accessKey key
  match self.cache.lookup key with
  | some cached => .ok (cached, self)
  | none => do
    let self : LruCache K V := { self with cache := self.cache.insert key value }
    let self ← if self.cache.keys.length > self.size then self.evict else .ok self
    .ok (value, self)

/-- All calls of `get` on one cache are given the same function. -/
def object (computer : K → Except ε V) : CacheObject (LruCache K V) K V ε where
  lookup := hitBlock
  insert := insertBlock
  reset := none
  compute := computer

structure Coherent (size : ℕ) (computer : K → Except ε V) (log : List K) (c : LruCache K V) :
    Prop where
  size_eq : c.size = size
  contents : Foundation.Coherent size computer log c.lru.reverse c.cache

variable {size : ℕ} {computer : K → Except ε V} {log : List K} {self : LruCache K V} {key : K}
  {value : V}

theorem coherent_new : (new size : LruCache K V).Coherent size computer [] :=
  ⟨rfl, Foundation.Coherent.empty⟩

theorem reverse_accessKey (h : self.lru.reverse.Nodup) :
    (self.accessKey key).lru.reverse = self.lru.reverse.erase key ++ [key] := by
  rw [accessKey, List.reverse_cons, (List.nodup_reverse.mp h).erase_eq_filter, h.erase_eq_filter,
    List.filter_reverse]

theorem Coherent.accessKey (h : self.Coherent size computer log) (hkey : key ∈ self.cache) :
    (self.accessKey key).Coherent size computer (log ++ [key]) := by
  refine ⟨h.size_eq, ?_⟩
  rw [reverse_accessKey h.contents.nodup]
  exact h.contents.touch hkey

theorem hitBlock_of_mem (h : self.Coherent size computer log) (hkey : key ∈ self.cache) :
    ∃ value, (hitBlock key self : Outcome ε _) = .ok (some value, self.accessKey key) ∧
      computer key = .ok value := by
  obtain ⟨value, hlookup, hvalue⟩ := h.contents.lookup_of_mem hkey
  exact ⟨value, by rw [hitBlock, hlookup], hvalue⟩

theorem hitBlock_of_notMem (hkey : key ∉ self.cache) :
    (hitBlock key self : Outcome ε _) = .ok (none, self) := by
  rw [hitBlock, AList.lookup_eq_none.mpr hkey]

/-- The block moves the key to the front before it looks whether the key is there. -/
theorem insertBlock_ok (h : self.Coherent size computer log) (hvalue : computer key = .ok value) :
    ∃ self', (insertBlock key value self : Outcome ε (V × LruCache K V)) = .ok (value, self') ∧
      self'.Coherent size computer (log ++ [key]) := by
  by_cases hkey : key ∈ self.cache
  · -- another call has inserted the key between the two blocks
    obtain ⟨cached, hlookup, hcached⟩ := h.contents.lookup_of_mem hkey
    obtain rfl : value = cached := Except.ok.inj (hvalue.symm.trans hcached)
    refine ⟨self.accessKey key, ?_, h.accessKey hkey⟩
    simp only [insertBlock, LruCache.accessKey, hlookup]
  · have hnot : key ∉ self.lru.reverse := mt (h.contents.keys key).mpr hkey
    have haccess : (self.accessKey key).lru.reverse = self.lru.reverse ++ [key] := by
      rw [reverse_accessKey h.contents.nodup, List.erase_of_not_mem hnot]
    have hlookup : (self.accessKey key).cache.lookup key = none := AList.lookup_eq_none.mpr hkey
    have hcount : ((self.accessKey key).cache.insert key value).keys.length =
        (self.lru.reverse ++ [key]).length := by
      have hkeys : key ∉ self.cache.keys := hkey
      rw [AList.keys_insert, List.length_cons, LruCache.accessKey, List.erase_of_not_mem hkeys,
        ← h.contents.length_keys, List.length_append, List.length_singleton]
    simp only [insertBlock, hlookup, hcount]
    by_cases hfull : (self.lru.reverse ++ [key]).length > (self.accessKey key).size
    · obtain ⟨front, rest, hfront⟩ := List.exists_cons_of_ne_nil
        (List.append_ne_nil_of_right_ne_nil self.lru.reverse (List.cons_ne_nil key []))
      rw [hfront] at haccess
      refine ⟨⟨(self.cache.insert key value).erase front, (self.accessKey key).lru.dropLast,
        self.size⟩, ?_, h.size_eq, ?_⟩
      · rw [if_pos hfull]
        simp only [evict, List.getLast?_eq_head?_reverse, haccess, List.head?_cons, expect_some,
          ok_bind]
        rfl
      · have hrest : (self.accessKey key).lru.dropLast.reverse = rest := by
          rw [← List.tail_reverse, haccess, List.tail_cons]
        rw [hrest]
        exact h.contents.insert_evict hkey hvalue (h.size_eq ▸ hfull) hfront
    · refine ⟨⟨self.cache.insert key value, (self.accessKey key).lru, self.size⟩, ?_, h.size_eq, ?_⟩
      · rw [if_neg hfull]
        rfl
      · rw [haccess]
        exact h.contents.insert hkey hvalue (h.size_eq ▸ Nat.le_of_not_gt hfull)

theorem keeps_coherent : (object computer : CacheObject (LruCache K V) K V ε).Keeps
    (Coherent size computer) (fun _ ↦ True) where
  lookup log self key h := by
    by_cases hkey : key ∈ self.cache
    · obtain ⟨value, hok, hvalue⟩ := hitBlock_of_mem h hkey
      refine ⟨some value, self.accessKey key, hok, trivial, ?_, nofun⟩
      rintro value' ⟨⟩
      exact ⟨hvalue, h.accessKey hkey⟩
    · exact ⟨none, self, hitBlock_of_notMem hkey, trivial, nofun, fun _ ↦ h⟩
  insert log self key value h _ hvalue := by
    obtain ⟨self', hok, h'⟩ := insertBlock_ok h hvalue
    exact ⟨self', hok, trivial, h'⟩
  reset reset hreset := by cases hreset

structure Transparent (size : ℕ) (computer : K → Except ε V)
    (s : System (LruCache K V) K V ε) : Prop where
  returned : ∀ key result, .returned key result ∈ s.calls → result = computer key
  healthy : s.crashed = false
  nodup : s.shared.lru.Nodup
  keys : ∀ key, key ∈ s.shared.lru ↔ key ∈ s.shared.cache
  bounded : s.shared.cache.keys.length ≤ size
  recency : s.shared.lru.reverse = recent size s.accessed
  computing : ∀ i s', s.step (object computer) (.compute i) = some s' → s'.shared = s.shared
  finishes : ∀ (i : ℕ) (c : Call K V ε), s.calls[i]? = some c → ∃ more s',
    more.length ≤ c.remaining ∧ s.run (object computer) more = some s' ∧
      s'.calls[i]? = some (.returned c.key (computer c.key))

theorem transparent_of_run {events : List (Event K)} {s : System (LruCache K V) K V ε}
    (hrun : (System.init (new size)).run (object computer) events = some s) :
    Transparent size computer s := by
  have hinit : (System.init (new size)).Valid (object computer) (Coherent size computer)
      (fun _ ↦ True) := System.valid_init coherent_new
  have hs := hinit.run keeps_coherent hrun
  have hcontents := hs.shared.contents
  refine ⟨fun key result hmem ↦ hs.sound _ hmem, hs.healthy, List.nodup_reverse.mp hcontents.nodup,
    fun key ↦ ?_, ?_, hcontents.recency, fun i s' hstep ↦ (System.step_compute_shared hstep).1,
    fun i c hi ↦ hs.finishes keeps_coherent hi⟩
  · rw [hcontents.keys, List.mem_reverse]
  · rw [← hcontents.length_keys]
    exact hcontents.length_le

end LruCache

end HieroCryptography.Tss
