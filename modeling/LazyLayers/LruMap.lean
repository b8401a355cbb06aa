/-
An LRU cache as a map (`lru-cache`, as `memoryStore.ts` sets it up).

The entries stand in a list, the least recently used one first.  The list is one cache that
keeps the laws which the store relies on; it is the one of the hybrid cache's first level,
and concrete runs are evaluated with it.

* `mapLru` — the calls on the list;
* `disposing_mapLru`, `reading_mapLru` — it is a lawful cache.
-/
import LazyLayers.ChargedMap
import LazyLayers.LruCache
import LazyLayers.MemoryStore

namespace MemoryStore

/-- What the store puts into the cache. -/
structure Entry where
  buffer : List UInt8
  bytes : ℕ
  deriving DecidableEq

/-- The entry, without what the LRU cache keeps beside it. -/
def entryOf (e : L1Entry) : Entry := ⟨e.buffer, e.bytes⟩

/-- Each key once, and no more than `max` entries. -/
structure LruMap where
  max : ℕ
  entries : Residents
  nodup : (entries.map Prod.fst).Nodup
  length_le : entries.length ≤ max

namespace LruMap

variable (c : LruMap) (now : ℕ) (key : CacheKey)

def values (l : Residents) : List Entry := l.map fun e => entryOf e.2

/-- Fewer entries, in the same order. -/
def shrink (l : Residents) (h : l.Sublist c.entries) : LruMap :=
  ⟨c.max, l, c.nodup.sublist (h.map Prod.fst), h.length_le.trans c.length_le⟩

def delete : LruMap := c.shrink (c.entries.delete key) List.filter_sublist

def found : Option L1Entry := (c.entries.get key).filter (readable now)

/-- A hit becomes the most recent entry. -/
def refresh (e : L1Entry) (h : c.entries.get key = some e) : LruMap where
  max := c.max
  entries := c.entries.delete key ++ [(key, e)]
  nodup := by
    have hperm := (JsMap.perm_delete c.nodup h).trans (List.perm_append_singleton ..).symm
    exact (hperm.map Prod.fst).nodup_iff.mp c.nodup
  length_le := by
    have hperm := (JsMap.perm_delete c.nodup h).trans (List.perm_append_singleton ..).symm
    exact hperm.length_eq ▸ c.length_le

/-- The entries that stay when one is added: the oldest ones leave. -/
def kept : Residents :=
  (c.entries.delete key).drop ((c.entries.delete key).length + 1 - c.max)

theorem kept_sublist : (c.kept key).Sublist (c.entries.delete key) := List.drop_sublist ..

theorem notMem_delete : key ∉ (c.entries.delete key).map Prod.fst :=
  JsMap.notMem_of_get (JsMap.get_delete_self ..)

/-- A new most recent entry. -/
def insert (e : L1Entry) (h : 0 < c.max) : LruMap where
  max := c.max
  entries := c.kept key ++ [(key, e)]
  nodup := by
    have hsub := (c.kept_sublist key).map Prod.fst
    have hnodup := (c.nodup.sublist (List.filter_sublist.map Prod.fst)).sublist hsub
    rw [List.map_append]
    refine hnodup.append (List.nodup_singleton key) (List.disjoint_singleton.mpr fun hmem => ?_)
    exact c.notMem_delete key (hsub.subset hmem)
  length_le := by
    rw [kept, List.length_append, List.length_drop, List.length_singleton]
    omega

/-- A call, with what it disposes of and what it answers. -/
def run : LruCall ℕ CacheKey Entry → LruAfter LruMap Entry
  | .get now key =>
    match h : c.entries.get key with
    | none => ⟨c, [], none⟩
    | some e =>
      if readable now e then ⟨c.refresh key e h, [], some (entryOf e)⟩
      else ⟨c.delete key, [entryOf e], none⟩
  | .set now key value ttl =>
    if h : 0 < c.max then
      ⟨c.insert key ⟨value.buffer, value.bytes, now + ttl⟩ h,
        (c.entries.get key).toList.map entryOf ++
          values ((c.entries.delete key).take ((c.entries.delete key).length + 1 - c.max)), none⟩
    else ⟨c, [], none⟩
  | .delete key =>
    ⟨c.delete key, (c.entries.get key).toList.map entryOf, none⟩
  | .pop =>
    ⟨c.shrink c.entries.tail (List.tail_sublist _), values (c.entries.take 1),
      c.entries.head?.map fun e => entryOf e.2⟩
  | .clear => ⟨c.shrink [] (List.nil_sublist _), values c.entries, none⟩
  | .purgeStale now =>
    ⟨c.shrink (c.entries.filter fun e => readable now e.2) List.filter_sublist,
      values (c.entries.filter fun e => !readable now e.2), none⟩

end LruMap

/-- The list as an LRU cache. -/
def mapLru : LruCache ℕ CacheKey Entry where
  Cache := LruMap
  make max := ⟨max, [], List.nodup_nil, Nat.zero_le _⟩
  maxSize := LruMap.max
  size c := c.entries.length
  peek c now key := (c.found now key).map entryOf
  has c now key := (c.found now key).isSome
  keys c now := ((c.entries.filter fun e => readable now e.2).map Prod.fst).reverse
  rentries c := c.entries.map fun e => (e.1, entryOf e.2)
  getRemainingTTL c now key := ((c.entries.get key).map fun e => e.expireAt - now).getD 0
  run := LruMap.run

/-! ### The laws -/

namespace LruMap

variable {c : LruMap} {now : ℕ} {key : CacheKey}

theorem values_mapLru (c : mapLru.Cache) : mapLru.values c = values (LruMap.entries c) :=
  List.map_map

/-- The entry of a key, if there is one, and the others. -/
theorem perm_values (c : LruMap) (key : CacheKey) :
    (values (c.entries.delete key) ++ (c.entries.get key).toList.map entryOf).Perm
      (values c.entries) := by
  rcases hget : c.entries.get key with _ | e
  · rw [JsMap.delete_of_notMem (JsMap.notMem_of_get hget)]
    simp
  · have hperm := (JsMap.perm_delete c.nodup hget).map fun e => entryOf e.2
    exact (List.perm_append_singleton ..).trans hperm.symm

theorem found_eq_none_iff : c.found now key = none ↔
    ∀ e, c.entries.get key = some e → readable now e = false := by
  rw [found, Option.filter_eq_none_iff]
  simp only [Bool.not_eq_true]

/-- What can be found in fewer entries can be found in all of them. -/
theorem peek_of_get {c' : LruMap} {later : ℕ} {value : Entry}
    (hget : ∀ e, c'.entries.get key = some e → c.entries.get key = some e)
    (h : mapLru.peek c' later key = some value) : mapLru.peek c later key = some value := by
  obtain ⟨e, he, hvalue⟩ := Option.map_eq_some_iff.mp h
  obtain ⟨hmem, hread⟩ := Option.filter_eq_some_iff.mp he
  exact Option.map_eq_some_iff.mpr
    ⟨e, Option.filter_eq_some_iff.mpr ⟨hget e hmem, hread⟩, hvalue⟩

theorem get_of_sublist {l : Residents} (h : l.Sublist c.entries) {e : L1Entry}
    (hget : JsMap.get l key = some e) : c.entries.get key = some e :=
  JsMap.get_of_mem c.nodup (h.subset (JsMap.mem_of_get hget))

/-- Behind an insertion the key has the new entry. -/
theorem get_insert_self {e : L1Entry} {h : 0 < c.max} :
    (c.insert key e h).entries.get key = some e := by
  have hnone : (c.kept key).get key = none := by
    rcases hget : (c.kept key).get key with _ | old
    · rfl
    · have hmem := ((c.kept_sublist key).map Prod.fst).subset
        (List.mem_map_of_mem (JsMap.mem_of_get hget))
      exact absurd hmem (c.notMem_delete key)
  rw [insert, JsMap.get_append, hnone, Option.none_or, JsMap.get_cons, if_pos rfl]

theorem get_insert_other {key' : CacheKey} (hne : key ≠ key') {e e' : L1Entry} {h : 0 < c.max}
    (hget : (c.insert key e h).entries.get key' = some e') : c.entries.get key' = some e' := by
  rw [insert, JsMap.get_append, JsMap.get_cons, if_neg hne, JsMap.get_nil, Option.or_none] at hget
  exact get_of_sublist ((c.kept_sublist key).trans List.filter_sublist) hget

theorem run_get_none (hget : c.entries.get key = none) :
    c.run (.get now key) = ⟨c, [], none⟩ := by
  rw [run.eq_def]
  dsimp only
  split
  · rfl
  · next e hsome =>
    rw [hget] at hsome
    cases hsome

theorem run_get_some {e : L1Entry} (hget : c.entries.get key = some e) : c.run (.get now key) =
    if readable now e then ⟨c.refresh key e hget, [], some (entryOf e)⟩
    else ⟨c.delete key, [entryOf e], none⟩ := by
  rw [run.eq_def]
  dsimp only
  split
  · next hnone =>
    rw [hget] at hnone
    cases hnone
  · next e' hsome =>
    obtain rfl : e = e' := Option.some.inj (hget.symm.trans hsome)
    rfl

theorem max_run (c : LruMap) (call : LruCall ℕ CacheKey Entry) : (c.run call).cache.max = c.max := by
  cases call with
  | get now key =>
    rcases hget : c.entries.get key with _ | e
    · rw [run_get_none hget]
    · rw [run_get_some hget]
      split <;> rfl
  | set now key value ttl =>
    rw [run.eq_def]
    dsimp only
    split <;> rfl
  | delete key => rfl
  | pop => rfl
  | clear => rfl
  | purgeStale now => rfl

/-- What leaves is disposed of. -/
theorem perm_run (hpositive : 0 < c.max) (call : LruCall ℕ CacheKey Entry) :
    (values (c.run call).cache.entries ++ (c.run call).disposed).Perm
      (LruCache.added call ++ values c.entries) := by
  cases call with
  | get now key =>
    rcases hget : c.entries.get key with _ | e
    · rw [run_get_none hget, List.append_nil]
      rfl
    · have hperm := c.perm_values key
      rw [hget] at hperm
      rw [run_get_some hget]
      split
      · rw [List.append_nil]
        show (values (JsMap.delete c.entries key ++ [(key, e)])).Perm _
        rw [values, List.map_append]
        exact hperm
      · exact hperm
  | set now key value ttl =>
    rw [run.eq_def]
    dsimp only
    rw [dif_pos hpositive]
    have hsplit : values (c.entries.delete key) =
        values ((c.entries.delete key).take ((c.entries.delete key).length + 1 - c.max)) ++
          values (c.kept key) := by
      rw [kept, values, values, values, ← List.map_append, List.take_append_drop]
    have hperm := c.perm_values key
    rw [hsplit] at hperm
    refine List.Perm.trans ?_ (hperm.cons value)
    show (values (c.kept key ++ [(key, ⟨value.buffer, value.bytes, now + ttl⟩)]) ++ _).Perm _
    generalize values ((c.entries.delete key).take _) = evicted
    rw [values, List.map_append, List.map_singleton, List.append_assoc, List.singleton_append]
    refine List.perm_middle.trans (List.Perm.cons value ?_)
    -- the evicted ones and the kept ones change places
    refine (List.Perm.append_left _ List.perm_append_comm).trans ?_
    rw [← List.append_assoc]
    exact List.perm_append_comm.append_right _
  | delete key => exact c.perm_values key
  | pop =>
    -- the first one goes
    show (values c.entries.tail ++ values (c.entries.take 1)).Perm _
    refine List.perm_append_comm.trans ?_
    rw [values, values, ← List.map_append, ← List.drop_one, List.take_append_drop]
    rfl
  | clear => rfl
  | purgeStale now =>
    -- the readable ones stay, the others go
    show (values (c.entries.filter _) ++ values (c.entries.filter _)).Perm _
    rw [values, values, ← List.map_append]
    exact (List.filter_append_perm _ c.entries).map _

theorem answer_get (c : LruMap) (now : ℕ) (key : CacheKey) :
    (c.run (.get now key)).answer = (c.found now key).map entryOf := by
  rcases hget : c.entries.get key with _ | e
  · rw [run_get_none hget, found, hget]
    rfl
  · have hfound : c.found now key = if readable now e then some e else none := by
      rw [found, hget, Option.filter_some]
    rw [run_get_some hget, hfound]
    split <;> rfl

/-- After a set the key has the new entry, or there is no room for any. -/
theorem get_set_self {value : Entry} {ttl : ℕ} {e : L1Entry}
    (hget : (c.run (.set now key value ttl)).cache.entries.get key = some e) :
    e = ⟨value.buffer, value.bytes, now + ttl⟩ := by
  rw [run.eq_def] at hget
  dsimp only at hget
  split at hget
  · rw [get_insert_self, Option.some.injEq] at hget
    exact hget.symm
  · next hzero =>
    have hempty : c.entries = [] :=
      List.length_eq_zero_iff.mp (Nat.le_zero.mp (c.length_le.trans (not_lt.mp hzero)))
    rw [hempty] at hget
    cases hget

theorem get_set_other {value : Entry} {ttl : ℕ} {key' : CacheKey} (hne : key ≠ key') {e : L1Entry}
    (hget : (c.run (.set now key value ttl)).cache.entries.get key' = some e) :
    c.entries.get key' = some e := by
  rw [run.eq_def] at hget
  dsimp only at hget
  split at hget
  · next hpositive => exact get_insert_other (h := hpositive) hne hget
  · exact hget

/-- The other calls add nothing. -/
theorem get_run {call : LruCall ℕ CacheKey Entry} (hadded : LruCache.added call = []) {e : L1Entry}
    (hget : (c.run call).cache.entries.get key = some e) : c.entries.get key = some e := by
  cases call with
  | set now key' value' ttl => cases hadded
  | get now key' =>
    rcases hget' : c.entries.get key' with _ | e'
    · rwa [run_get_none hget'] at hget
    · rw [run_get_some hget'] at hget
      -- a readable entry is put behind the others, so what is there was there
      split at hget
      · rw [refresh, JsMap.get_append, JsMap.get_cons] at hget
        by_cases hk : key' = key
        · subst hk
          rw [JsMap.get_delete_self, Option.none_or, if_pos rfl] at hget
          rwa [← hget]
        · rw [if_neg hk, JsMap.get_nil, Option.or_none] at hget
          exact get_of_sublist List.filter_sublist hget
      · exact get_of_sublist List.filter_sublist hget
  | delete key' => exact get_of_sublist List.filter_sublist hget
  | pop => exact get_of_sublist (List.tail_sublist _) hget
  | clear => cases hget
  | purgeStale now => exact get_of_sublist List.filter_sublist hget

theorem found_later {later : ℕ} (hle : now ≤ later) (hnone : c.found now key = none) :
    c.found later key = none := by
  rw [found_eq_none_iff] at hnone ⊢
  intro e he
  have hold := hnone e he
  simp only [readable, decide_eq_false_iff_not, not_le] at hold ⊢
  omega

theorem peek_eq_some_iff {value : Entry} : mapLru.peek c now key = some value ↔
    ∃ e, (c.entries.get key = some e ∧ readable now e = true) ∧ entryOf e = value := by
  show (c.found now key).map entryOf = some value ↔ _
  rw [Option.map_eq_some_iff]
  simp only [found, Option.filter_eq_some_iff]

end LruMap

open LruMap

theorem disposing_mapLru : mapLru.Disposing where
  values_make := fun _ => rfl
  maxSize_make := fun _ => rfl
  maxSize_run := max_run
  size_le := length_le
  values_clear := fun _ => rfl
  disposed := fun c call hpositive => by
    rw [values_mapLru, values_mapLru]
    exact perm_run hpositive call

theorem reading_mapLru : mapLru.Reading where
  peek_make := fun _ _ _ => rfl
  answer_get := answer_get
  expired := fun _ _ _ _ hle hnone =>
    Option.map_eq_none_iff.mpr (found_later hle (Option.map_eq_none_iff.mp hnone))
  peek_set_self := fun _ _ _ _ _ _ _ h => by
    obtain ⟨e, ⟨hget, -⟩, hvalue⟩ := peek_eq_some_iff.mp h
    rw [← hvalue, get_set_self hget]
    rfl
  peek_set_other := fun _ _ _ _ _ _ _ _ hne => peek_of_get fun _ => get_set_other hne
  peek_delete := fun c key later => by
    show ((JsMap.get (JsMap.delete c.entries key) key).filter (readable later)).map entryOf = none
    rw [JsMap.get_delete_self]
    rfl
  below := fun _ _ hadded _ _ _ => peek_of_get fun _ => get_run hadded

end MemoryStore
