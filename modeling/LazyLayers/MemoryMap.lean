/-
A memory store over a map is the first level of the hybrid cache (`memoryStore.ts`).

The accounting of `MemoryClients.lean` holds over every LRU.  Over the map of `LruMap.lean`
the store does to its entries and to the ledger what `MemoryStore.lean` says, from which the
model of the hybrid cache is built.

* `Counted.mem` — a store over the map, without its counters;
* `mem_setEncoded`, `mem_touch`, `mem_has` — the operations agree.
-/
import LazyLayers.MemoryClients

open Js Pattern

namespace MemoryStore

namespace Counted

/-- A store over the map, without its counters. -/
def mem (s : Counted mapLru) : Mem :=
  ⟨⟨s.store.cache.map LruMap.entries, s.store.history, s.store.decayCursor, s.store.accesses⟩,
    s.budget⟩

variable {s : Counted mapLru} {o : MemoryStoreOptions} {now ttl : ℕ} {key : CacheKey} {c : LruMap}
  {e : Entry} {buffer : List UInt8}

/-- What is disposed of goes back to the ledger. -/
theorem budget_foldl_dispose (l : List Entry) (s : Counted mapLru) : (l.foldl dispose s).budget =
    (l.map Entry.bytes).foldl (fun b n => b.release n .fresh) s.budget := by
  induction l generalizing s with
  | nil => rfl
  | cons e l ih => exact ih (s.dispose e)

theorem mem_call (hc : s.store.cache = some c) (call : LruCall ℕ CacheKey Entry) :
    (s.call call).mem = ⟨⟨some (c.run call).cache.entries, s.store.history, s.store.decayCursor,
      s.store.accesses⟩, ((c.run call).disposed.map Entry.bytes).foldl
        (fun b n => b.release n .fresh) s.budget⟩ := by
  obtain ⟨hstore, -, -⟩ := foldl_dispose (c.run call).disposed
    { s with store := { s.store with cache := some (mapLru.run c call).cache } }
  have hcall : s.call call = (c.run call).disposed.foldl dispose
      { s with store := { s.store with cache := some (mapLru.run c call).cache } } := by
    rw [Counted.call, hc]
    rfl
  rw [hcall, mem, hstore, budget_foldl_dispose]
  rfl

theorem call_of_none (hc : s.store.cache = none) (call : LruCall ℕ CacheKey Entry) :
    s.call call = s := by
  rw [Counted.call, hc]

theorem mem_cache (hc : s.store.cache = some c) : s.mem.store.cache = some c.entries := by
  rw [mem, hc]
  rfl

theorem mem_remove (s : Counted mapLru) (key : CacheKey) : (s.remove key).mem = s.mem.remove key := by
  rcases hc : s.store.cache with _ | c
  · rw [remove, call_of_none hc, Mem.remove, mem, hc]
    rfl
  · rw [remove, mem_call hc, Mem.remove, mem_cache hc]
    dsimp only
    rcases hget : c.entries.get key with _ | e
    · have hsame : c.entries.delete key = c.entries :=
        JsMap.delete_of_notMem (JsMap.notMem_of_get hget)
      simp only [LruMap.run, LruMap.delete, LruMap.shrink, hget, hsame, mem, hc]
      rfl
    · simp only [LruMap.run, LruMap.delete, LruMap.shrink, hget, mem, hc]
      rfl

/-- Popping takes the oldest entries away, one after the other. -/
theorem foldl_pop_eq {l : Residents} (hnodup : (l.map Prod.fst).Nodup) (n : ℕ) {m : Mem}
    (hm : m.store.cache = some l) :
    (List.range n).foldl (fun m _ => m.pop) m = ⟨{ m.store with cache := some (l.drop n) },
      ((l.take n).map fun e => e.2.bytes).foldl (fun b n => b.release n .fresh) m.budget⟩ := by
  induction n with
  | zero =>
    rw [List.drop_zero, ← hm]
    rfl
  | succ n ih =>
    -- pop number `n` takes the first of the entries that the others have left
    rw [List.range_succ, List.foldl_append, ih, List.foldl_cons, List.foldl_nil, Mem.pop]
    rcases hrest : l.drop n with _ | ⟨⟨key, e⟩, rest⟩
    · have hlen : l.length ≤ n := List.drop_eq_nil_iff.mp hrest
      rw [List.drop_eq_nil_of_le (hlen.trans n.le_succ), List.take_of_length_le hlen,
        List.take_of_length_le (hlen.trans n.le_succ)]
    · have hkeys := hnodup.sublist ((List.drop_sublist n l).map Prod.fst)
      rw [hrest, List.map_cons, List.nodup_cons] at hkeys
      have hdelete : JsMap.delete ((key, e) :: rest) key = rest := by
        rw [JsMap.delete, List.filter_cons_of_neg (by simp)]
        exact JsMap.delete_of_notMem hkeys.1
      have hnext : l.drop (n + 1) = rest := by
        rw [← List.drop_drop, hrest]
        rfl
      have htake : l.take (n + 1) = l.take n ++ [(key, e)] := by
        rw [List.take_add, hrest]
        rfl
      rw [hnext, htake, List.map_append, List.foldl_append]
      dsimp only
      rw [Mem.remove]
      dsimp only
      rw [JsMap.get_cons, if_pos rfl]
      dsimp only
      rw [hdelete]
      rfl

theorem mem_pop (s : Counted mapLru) : (s.call .pop).mem = s.mem.pop := by
  rcases hc : s.store.cache with _ | c
  · rw [call_of_none hc, Mem.pop, mem, hc]
    rfl
  · have hpop := foldl_pop_eq c.nodup 1 (mem_cache hc)
    rw [mem_call hc]
    refine Eq.trans ?_ hpop.symm
    simp only [LruMap.run, LruMap.shrink, LruMap.values, List.map_map, mem, List.drop_one]
    rfl

theorem mem_makeRoom (bytes rounds : ℕ) (s : Counted mapLru) :
    (s.makeRoom bytes rounds).1.mem = (s.mem.makeRoom bytes rounds).1 ∧
      (s.makeRoom bytes rounds).2 = (s.mem.makeRoom bytes rounds).2 := by
  induction rounds generalizing s with
  | zero => exact ⟨rfl, rfl⟩
  | succ rounds ih =>
    have hempty : (s.answer .pop).isNone = true ↔ s.mem.size = 0 := by
      rw [answer, Mem.size, mem]
      rcases s.store.cache with _ | c
      · exact iff_of_true rfl rfl
      · show ((c.entries.head?.map fun e => entryOf e.2).isNone = true) ↔ c.entries.length = 0
        cases c.entries <;> simp
    rw [makeRoom, Mem.makeRoom]
    split
    · next hadmits =>
      rw [if_pos (show s.mem.budget.admits bytes = true from hadmits)]
      exact ⟨rfl, rfl⟩
    · next hadmits =>
      rw [if_neg (show ¬ s.mem.budget.admits bytes = true from hadmits)]
      by_cases hsize : s.mem.size = 0
      · rw [if_pos (hempty.mpr hsize), if_pos hsize]
        refine ⟨?_, rfl⟩
        rw [mem_pop, Mem.pop]
        split
        · next key e rest hcache =>
          rw [Mem.size, hcache] at hsize
          cases hsize
        · rfl
      · rw [if_neg (mt hempty.mp hsize), if_neg hsize, ← mem_pop]
        exact ih (s.call .pop)

theorem mem_insert (hc : s.store.cache = some c) (hpositive : 0 < c.max) :
    (s.insert now key e ttl).mem = s.mem.insert key ⟨e.buffer, e.bytes, now + ttl⟩ c.max := by
  have hcall : (s.insert now key e ttl).mem = (s.call (.set now key e ttl)).mem := rfl
  have hremoved : (s.mem.remove key).store.cache = some (c.entries.delete key) := by
    rw [← mem_remove, remove, mem_call hc]
    rfl
  have hnodup := (c.delete key).nodup
  rw [hcall, mem_call hc, Mem.insert]
  dsimp only
  rw [foldl_pop_eq hnodup _ hremoved]
  have hsize : (s.mem.remove key).size = (c.entries.delete key).length := by
    rw [Mem.size, hremoved]
    rfl
  have hbudget : (s.mem.remove key).budget = ((c.entries.get key).toList.map L1Entry.bytes).foldl
      (fun b n => b.release n .fresh) s.budget := by
    rw [← mem_remove, remove, mem_call hc]
    simp only [LruMap.run, List.map_map]
    rfl
  rw [hsize, hbudget, LruMap.run.eq_def]
  dsimp only
  rw [dif_pos hpositive]
  simp only [LruMap.insert, LruMap.kept, LruMap.values, List.map_append, List.map_map,
    List.foldl_append]
  rw [← mem_remove, remove, mem_call hc]
  rfl

/-- The admission policies are the same. -/
theorem worthAdmitting_mem (s : Counted mapLru) (now : ℕ) (key : CacheKey) (bytes : ℕ) :
    s.worthAdmitting now key bytes = s.mem.store.worthAdmitting now key bytes := by
  rw [worthAdmitting, MemoryStore.worthAdmitting, mem]
  dsimp only
  rcases s.store.history with _ | history
  · rfl
  rcases s.store.cache with _ | c
  · rfl
  have hempty : ((mapLru.rentries c).take 8).isEmpty = (c.entries.take 8).isEmpty := by
    show ((c.entries.map fun e => (e.1, entryOf e.2)).take 8).isEmpty = _
    rw [← List.map_take, List.isEmpty_map]
  refine congrArg₂ or hempty ?_
  show ((c.entries.map fun e => (e.1, entryOf e.2)).take 8).any _ = _
  rw [← List.map_take, List.any_map, Bool.eq_iff_iff, List.any_eq_true, List.any_eq_true]
  -- of the oldest entries, one has no time left exactly if it has expired
  refine exists_congr fun p => and_congr_right fun hp => ?_
  have hget := JsMap.get_of_mem c.nodup (List.mem_of_mem_take hp)
  have hremaining : mapLru.getRemainingTTL c now p.1 = p.2.expireAt - now := by
    show ((c.entries.get p.1).map fun e => e.expireAt - now).getD 0 = _
    rw [hget]
    rfl
  rw [Function.comp_apply]
  dsimp only
  rw [hremaining]
  simp only [Nat.le_zero, Nat.sub_eq_zero_iff_le]
  rfl

theorem max_call (s : Counted mapLru) (call : LruCall ℕ CacheKey Entry) :
    (s.call call).store.cache.map LruMap.max = s.store.cache.map LruMap.max := by
  rw [cache_call]
  rcases s.store.cache with _ | c
  · rfl
  · exact congrArg some (LruMap.max_run c call)

theorem max_makeRoom (bytes rounds : ℕ) (s : Counted mapLru) :
    (s.makeRoom bytes rounds).1.store.cache.map LruMap.max = s.store.cache.map LruMap.max := by
  induction rounds generalizing s with
  | zero => rfl
  | succ rounds ih =>
    rw [makeRoom]
    split
    · rfl
    · split
      · exact max_call s .pop
      · exact (ih (s.call .pop)).trans (max_call s .pop)

/-- **The stores agree on writes.** -/
theorem mem_setEncoded (hbound : ∀ c, s.store.cache = some c → c.max = o.maxEntries)
    (hpositive : 0 < o.maxEntries) (httl : 0 < ttl) :
    (s.setEncoded o now key buffer ttl true).mem = s.mem.setEncoded o now key buffer ttl := by
  obtain ⟨hroom, hreserved⟩ :=
    mem_makeRoom (entryBytes buffer key) maxEvictionsPerWrite (s.remove key)
  rw [mem_remove] at hroom hreserved
  rw [setEncoded, Mem.setEncoded]
  rcases hc : s.store.cache with _ | c
  · rw [mem, hc]
    rfl
  have hprior : mapLru.peek c now key = (s.mem.store.entry now key).map entryOf := by
    rw [entry, mem_cache hc]
    rfl
  have hbytes : ((s.mem.store.entry now key).map entryOf).map Entry.bytes =
      (s.mem.store.entry now key).map L1Entry.bytes := Option.map_map ..
  have hsize : s.mem.size = mapLru.size c := by
    rw [Mem.size, mem_cache hc]
    rfl
  rw [mem_cache hc, if_neg (by simp : ¬ (some c.entries).isNone = true)]
  dsimp only
  have hbudget : s.budget = s.mem.budget := rfl
  rw [if_neg (not_le.mpr httl), hprior, hbytes, Option.isNone_map, hsize, worthAdmitting_mem,
    hbudget]
  -- too large, then not worth it, then no room
  split
  · exact mem_remove s key
  split
  · rfl
  rw [← hreserved]
  split
  · rw [if_pos rfl]
    have hmax := (max_makeRoom (entryBytes buffer key) maxEvictionsPerWrite (s.remove key)).trans
      (max_call s (.delete key))
    rw [hc] at hmax
    obtain ⟨c', hc', hmax⟩ := Option.map_eq_some_iff.mp hmax
    have hbound := hmax.trans (hbound c hc)
    rw [mem_insert hc' (hbound ▸ hpositive), hbound, hroom]
  · exact hroom

/-- **The stores agree on reads.** -/
theorem mem_touch (s : Counted mapLru) (now : ℕ) (key : CacheKey) :
    (s.touch now key).mem = s.mem.touch now key := by
  have hrecord : (s.record key).mem = ⟨s.mem.store.record key, s.mem.budget⟩ := by
    rw [record, mem, mem, MemoryStore.record.eq_def, MemoryStore.record.eq_def]
    dsimp only
    rcases hhistory : s.store.history with _ | history
    · simp only [hhistory]
    · rfl
  rw [touch, Mem.touch, ← hrecord]
  dsimp only
  generalize s.record key = s
  rcases hc : s.store.cache with _ | (c : LruMap)
  · rw [call_of_none hc, mem, hc]
    rfl
  · rw [mem_call hc, mem_cache hc]
    dsimp only
    rcases hget : c.entries.get key with _ | e
    · rw [LruMap.run_get_none hget, mem, hc]
      rfl
    · rw [LruMap.run_get_some hget]
      dsimp only
      split
      · rfl
      · rw [Mem.remove, mem_cache hc]
        dsimp only
        rw [hget]
        rfl

theorem mem_has (s : Counted mapLru) (now : ℕ) (key : CacheKey) :
    (s.has now key).mem = (s.mem.has now key).1 := by
  rw [has, Mem.has]
  rcases hc : s.store.cache with _ | c
  · have hnone : s.mem.store.entry now key = none := by
      rw [entry, mem, hc]
      rfl
    rw [hnone, if_neg (by simp), ← mem_remove, remove, call_of_none hc]
  · have hhas : mapLru.has c now key = (s.mem.store.entry now key).isSome := by
      rw [entry, mem_cache hc]
      rfl
    dsimp only
    rw [hhas]
    split
    · rfl
    · exact mem_remove s key

end Counted

end MemoryStore
