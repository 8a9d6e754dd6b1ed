import HieroCryptography.Foundation.CachedCalls
import HieroCryptography.Foundation.Recency

namespace HieroCryptography.Hints

open Rust Foundation

section LruCache

variable {K V ε : Type} [DecidableEq K]

structure LruCache (K V : Type) [DecidableEq K] where
  cacheMap : AList fun _ : K ↦ V
  lruList : List K

namespace LruCache

def new : LruCache K V := ⟨∅, []⟩

def pushBackKey (self : LruCache K V) (key : K) : LruCache K V :=
  { self with lruList := self.lruList.filter (fun v ↦ v ≠ key) ++ [key] }

def getIfHit (self : LruCache K V) (key : K) : Option V × LruCache K V :=
  match self.cacheMap.lookup key with
  | some v => (some v, self.pushBackKey key)
  | none => (none, self)

def evict (self : LruCache K V) : Outcome ε (LruCache K V) := do
  let keyToEvict ← expect self.lruList.head?
  .ok ⟨self.cacheMap.erase keyToEvict, self.lruList.tail⟩

def insert (size : ℕ) (self : LruCache K V) (key : K) (value : V) :
    Outcome ε (V × LruCache K V) :=
  match self.getIfHit key with
  | (some v, self) => .ok (v, self)
  | (none, self) => do
    let self := self.pushBackKey key
    let self : LruCache K V := { self with cacheMap := self.cacheMap.insert key value }
    let self ← if self.lruList.length > size then self.evict else .ok self
    ensure (self.lruList.length == self.cacheMap.keys.length)
    .ok (value, self)

def reset (_self : LruCache K V) : LruCache K V := ⟨∅, []⟩

def Coherent (size : ℕ) (compute : K → Except ε V) (log : List K) (self : LruCache K V) : Prop :=
  Foundation.Coherent size compute log self.lruList self.cacheMap

variable {size : ℕ} {compute : K → Except ε V} {log : List K} {self : LruCache K V} {key : K}
  {value : V}

theorem filter_ne_of_nodup {xs : List K} (h : xs.Nodup) :
    xs.filter (fun v ↦ v ≠ key) = xs.erase key := by
  rw [h.erase_eq_filter]
  exact List.filter_congr fun v _ ↦ by simp [bne, beq_eq_decide]

theorem getIfHit_of_mem (h : self.Coherent size compute log) (hkey : key ∈ self.cacheMap) :
    ∃ v, self.getIfHit key = (some v, self.pushBackKey key) ∧ compute key = .ok v ∧
      (self.pushBackKey key).Coherent size compute (log ++ [key]) := by
  obtain ⟨v, hlookup, hv⟩ := h.lookup_of_mem hkey
  refine ⟨v, by rw [getIfHit, hlookup], hv, ?_⟩
  have htouch := h.touch hkey
  rwa [← filter_ne_of_nodup h.nodup] at htouch

theorem getIfHit_of_notMem (hkey : key ∉ self.cacheMap) : self.getIfHit key = (none, self) := by
  rw [getIfHit, AList.lookup_eq_none.mpr hkey]

/-- Inserting cannot fail: the list and the map stay of one length. -/
theorem insert_ok (h : self.Coherent size compute log) (hvalue : compute key = .ok value) :
    ∃ self', (insert size self key value : Outcome ε (V × LruCache K V)) = .ok (value, self') ∧
      self'.Coherent size compute (log ++ [key]) := by
  by_cases hkey : key ∈ self.cacheMap
  · obtain ⟨v, hhit, hv, hself⟩ := getIfHit_of_mem h hkey
    obtain rfl : value = v := Except.ok.inj (hvalue.symm.trans hv)
    exact ⟨self.pushBackKey key, by rw [insert, hhit], hself⟩
  · have hpush : self.pushBackKey key = ⟨self.cacheMap, self.lruList ++ [key]⟩ := by
      rw [pushBackKey, filter_ne_of_nodup h.nodup,
        List.erase_of_not_mem (mt (h.keys key).mpr hkey)]
    simp only [insert, getIfHit_of_notMem hkey, hpush]
    by_cases hfull : (self.lruList ++ [key]).length > size
    · obtain ⟨front, rest, hfront⟩ := List.exists_cons_of_ne_nil
        (List.append_ne_nil_of_right_ne_nil self.lruList (List.cons_ne_nil key []))
      have hself := h.insert_evict hkey hvalue hfull hfront
      refine ⟨⟨(self.cacheMap.insert key value).erase front, rest⟩, ?_, ?_⟩
      · rw [if_pos hfull]
        simp only [evict, hfront, List.head?_cons, expect_some, ok_bind, List.tail_cons,
          hself.length_keys, beq_self_eq_true, ensure, if_true]
      · exact hself
    · have hself := h.insert hkey hvalue (Nat.le_of_not_gt hfull)
      refine ⟨⟨self.cacheMap.insert key value, self.lruList ++ [key]⟩, ?_, hself⟩
      rw [if_neg hfull]
      simp only [ok_bind, hself.length_keys, beq_self_eq_true, ensure, if_true]

end LruCache

end LruCache

section JniMapCache

variable {T ε : Type} {size : ℕ} {deserializeUncompressed : List UInt8 → Except ε T}

/-- What the lock of a `JNIMapCache` guards. It starts empty and is filled by the first call. -/
abbrev CacheCell (T : Type) := Option (LruCache (List UInt8) T)

namespace JniMapCache

def hitSection (vec : List UInt8) : CacheCell T → Outcome ε (Option T × CacheCell T)
  | none => .ok (none, some LruCache.new)
  | some cache => .ok ((cache.getIfHit vec).1, some (cache.getIfHit vec).2)

def insertSection (size : ℕ) (vec : List UInt8) (val : T) (cell : CacheCell T) :
    Outcome ε (T × CacheCell T) := do
  let cache ← expect cell
  let (arc, cache) ← cache.insert size vec val
  .ok (arc, some cache)

def reset (cell : CacheCell T) : Outcome ε (CacheCell T) := .ok (cell.map LruCache.reset)

end JniMapCache

def jniMapCache (size : ℕ) (deserializeUncompressed : List UInt8 → Except ε T) :
    CacheObject (CacheCell T) (List UInt8) T ε where
  lookup := JniMapCache.hitSection
  insert := JniMapCache.insertSection size
  reset := some JniMapCache.reset
  compute := deserializeUncompressed

namespace JniMapCache

def Coherent (size : ℕ) (deserializeUncompressed : List UInt8 → Except ε T)
    (log : List (List UInt8)) : CacheCell T → Prop
  | none => log = []
  | some cache => cache.Coherent size deserializeUncompressed log

theorem keeps_coherent : (jniMapCache size deserializeUncompressed).Keeps
    (Coherent size deserializeUncompressed) (fun cell ↦ cell.isSome) where
  lookup log cell vec h := by
    cases cell with
    | none =>
      obtain rfl : log = [] := h
      refine ⟨none, some LruCache.new, rfl, rfl, nofun, fun _ ↦ ?_⟩
      exact Foundation.Coherent.empty
    | some cache =>
      by_cases hvec : vec ∈ cache.cacheMap
      · obtain ⟨v, hhit, hv, hcache⟩ := LruCache.getIfHit_of_mem h hvec
        refine ⟨some v, some (cache.pushBackKey vec), ?_, rfl, ?_, nofun⟩
        · simp only [jniMapCache, hitSection, hhit]
        · rintro value ⟨⟩
          exact ⟨hv, hcache⟩
      · refine ⟨none, some cache, ?_, rfl, nofun, fun _ ↦ h⟩
        simp only [jniMapCache, hitSection, LruCache.getIfHit_of_notMem hvec]
  insert log cell vec val h hopen hval := by
    obtain ⟨cache, rfl⟩ := Option.isSome_iff_exists.mp hopen
    obtain ⟨cache', hok, hcache⟩ := LruCache.insert_ok h hval
    refine ⟨some cache', ?_, rfl, hcache⟩
    simp only [jniMapCache, insertSection, expect_some, ok_bind, hok]
  reset reset hreset log cell h := by
    obtain rfl := Option.some.inj hreset
    refine ⟨cell.map LruCache.reset, rfl, fun hopen ↦ by simpa using hopen, ?_⟩
    cases cell with
    | none => rfl
    | some cache => exact Foundation.Coherent.empty

end JniMapCache

/-- Whatever the calls and resets that share a cache and however their sections interleave, every
call gives what its own bytes deserialize to, no section panics, and the cache holds the last
distinct keys hit or inserted since the last reset, in order of last use. -/
theorem jni_cache_transparent (size : ℕ) (deserializeUncompressed : List UInt8 → Except ε T)
    (events : List (Event (List UInt8))) (s : System (CacheCell T) (List UInt8) T ε)
    (hrun : (System.init none).run (jniMapCache size deserializeUncompressed) events = some s) :
    (∀ vec result, .returned vec result ∈ s.calls → result = deserializeUncompressed vec) ∧
      s.crashed = false ∧
      (s.shared = none → s.accessed = [] ∧ ∀ vec val, .computed vec val ∉ s.calls) ∧
      (∀ cache, s.shared = some cache → cache.lruList.Nodup ∧
        (∀ key, key ∈ cache.lruList ↔ key ∈ cache.cacheMap) ∧
        cache.lruList.length = cache.cacheMap.keys.length ∧
        cache.lruList = recent size s.accessed) ∧
      ∀ (i : ℕ) (c : Call (List UInt8) T ε), s.calls[i]? = some c → ∃ more s',
        more.length ≤ c.remaining ∧
        s.run (jniMapCache size deserializeUncompressed) more = some s' ∧
        s'.calls[i]? = some (.returned c.key (deserializeUncompressed c.key)) := by
  have hinit : (System.init none).Valid (jniMapCache size deserializeUncompressed)
      (JniMapCache.Coherent size deserializeUncompressed) (fun cell ↦ cell.isSome) :=
    System.valid_init rfl
  have hs := hinit.run JniMapCache.keeps_coherent hrun
  have hshared := hs.shared
  refine ⟨fun vec result hmem ↦ hs.sound _ hmem, hs.healthy, fun hnone ↦ ⟨?_, ?_⟩, ?_, ?_⟩
  · rwa [hnone] at hshared
  · intro vec val hmem
    have hopen := hs.opened _ hmem trivial
    simp [hnone] at hopen
  · intro cache hsome
    rw [hsome] at hshared
    have hcache : cache.Coherent size deserializeUncompressed s.accessed := hshared
    exact ⟨hcache.nodup, fun key ↦ (hcache.keys key).symm, hcache.length_keys, hcache.recency⟩
  · exact fun i c hi ↦ hs.finishes JniMapCache.keeps_coherent hi

/-- Two calls for one key both miss, and a reset falls between the miss and the insert of a
third. -/
def racingEvents : List (Event (List UInt8)) :=
  [.call [1], .call [1], .lookup 0, .lookup 1, .compute 1, .compute 0, .insert 0, .insert 1,
    .call [2], .lookup 2, .reset, .call [], .lookup 3, .compute 3, .compute 2, .insert 2]

def firstByte (vec : List UInt8) : Except Unit UInt8 := vec.head?.elim (.error ()) .ok

theorem jni_cache_transparent_race : ∃ s : System (CacheCell UInt8) (List UInt8) UInt8 Unit,
    (System.init none).run (jniMapCache 1 firstByte) racingEvents = some s ∧
      s.accessed = [[2]] ∧ s.crashed = false ∧
      ∀ vec result, .returned vec result ∈ s.calls → result = firstByte vec := by
  have hrun : ((System.init none).run (jniMapCache 1 firstByte) racingEvents).map
      System.accessed = some [[2]] := by
    decide +kernel
  obtain ⟨s, hs, haccessed⟩ := Option.map_eq_some_iff.mp hrun
  obtain ⟨hreturned, hhealthy, -⟩ := jni_cache_transparent 1 firstByte racingEvents s hs
  exact ⟨s, hs, haccessed, hhealthy, hreturned⟩

end JniMapCache

end HieroCryptography.Hints
