/-
The byte ledger that the caches of a process share, and the encoded LRU store on
top of it.

A `MemoryStore` may refuse a write: for its size, under memory pressure, because
the admission policy prefers what is resident, or because no space can be
reserved.  Whatever it decides, a write never leaves the old value behind.

`Mem` is the store over one LRU, a map in order of use, and serves as the first level of the
hybrid cache.  `MemoryClients.lean` has the store over any LRU, and `MemoryMap.lean` shows
that over this map it is `Mem`.

* `entry_setEncoded_self` — after `setEncoded` a readable entry of the key is the
  new one;
* `entry_setEncoded_other` — other keys keep their entry or lose it;
* `entry_deleteByPattern` — a pattern removes the readable entries that match.
-/
import LazyLayers.JsMap
import LazyLayers.Pattern

open Js Pattern

/-- `CacheKey`: a string, or a number with its canonical text. -/
structure CacheKey where
  isNumber : Bool
  text : JsString
  deriving DecidableEq

def CacheKey.ofString (s : JsString) : CacheKey := ⟨false, s⟩

/-- `Buffer.byteLength(String(key))`. -/
def CacheKey.byteLength (key : CacheKey) : ℕ := (utf8 key.text).length

/-! ### The ledger -/

inductive MemoryCategory
  | fresh
  | stale
  | metadata
  | queue
  | coordinationMetadata
  deriving DecidableEq

inductive PressureState
  | normal
  | pressure
  | critical
  deriving DecidableEq

structure MemoryBudget where
  hardCap : ℕ
  target : ℕ
  used : ℕ
  categories : MemoryCategory → ℕ
  state : PressureState

namespace MemoryBudget

variable (b : MemoryBudget)

/-- Whether `tryReserve` succeeds. -/
def admits (bytes : ℕ) : Bool := b.used + bytes ≤ b.target

/-- The ledger after `tryReserve`. -/
def reserve (bytes : ℕ) (category : MemoryCategory) : MemoryBudget :=
  if b.admits bytes then
    { b with
      used := b.used + bytes
      categories := Function.update b.categories category (b.categories category + bytes) }
  else b

def release (bytes : ℕ) (category : MemoryCategory) : MemoryBudget :=
  let amount := min (min bytes (b.categories category)) b.used
  { b with
    used := b.used - amount
    categories := Function.update b.categories category (b.categories category - amount) }

def permitsPromotion (bytes : ℕ) : Bool := b.state = .normal && b.used + bytes ≤ b.target

end MemoryBudget

/-! ### The store -/

structure L1Entry where
  buffer : List UInt8
  bytes : ℕ
  expireAt : ℕ
  deriving DecidableEq

def entryOverhead : ℕ := 160
def historyBytes : ℕ := 4096
def maxEvictionsPerWrite : ℕ := 16

/-- What the constructor takes from the options. -/
structure MemoryStoreOptions where
  maxEntries : ℕ := 1000
  maxEntryBytes : Option ℕ := none
  admissionEnabled : Bool := true

/-- The LRU cache of a store, `none` once closed.  The access history is there only if its
bytes could be reserved. -/
structure MemoryStore (C : Type) where
  cache : Option C
  history : Option (ℕ → ℕ)
  decayCursor : ℕ
  accesses : ℕ

namespace MemoryStore

/-- The 32-bit FNV variant that indexes the history. -/
def hash (key : CacheKey) : ℕ :=
  let seed : UInt32 := if key.isNumber then 2166136260 else 2166136261
  let h := key.text.foldl (fun h u => (h ^^^ u.toUInt32) * 16777619) seed
  h.toNat % historyBytes

/-- `record`: count an access, halving eight slots on every eighth. -/
def record {C : Type} (m : MemoryStore C) (key : CacheKey) : MemoryStore C :=
  match m.history with
  | none => m
  | some history =>
    let accesses := m.accesses + 1
    let decayed : (ℕ → ℕ) × ℕ :=
      if accesses % 8 = 0 then
        (List.range 8).foldl (fun (h, c) _ =>
          (Function.update h (c % historyBytes) (h (c % historyBytes) / 2), c + 1))
          (history, m.decayCursor)
      else (history, m.decayCursor)
    { m with
      history := some (Function.update decayed.1 (hash key) (min 255 (decayed.1 (hash key) + 1)))
      decayCursor := decayed.2
      accesses := accesses }

/-- An entry is stale once more than its TTL has passed. -/
def readable (now : ℕ) (e : L1Entry) : Bool := now ≤ e.expireAt

/-- The resident entries of an LRU cache, least recently used first. -/
abbrev Residents := JsMap CacheKey L1Entry

/-- `peek`: the entry of a key, if it has not expired. -/
def entry (m : MemoryStore Residents) (now : ℕ) (key : CacheKey) : Option L1Entry :=
  (m.cache.bind fun c => c.get key).filter (readable now)

/-- A store together with the ledger it reserves from. -/
structure Mem where
  store : MemoryStore Residents
  budget : MemoryBudget

/-- `cache.delete(key)`, with the dispose callback. -/
def Mem.remove (m : Mem) (key : CacheKey) : Mem :=
  match m.store.cache with
  | none => m
  | some c =>
    match c.get key with
    | none => m
    | some e => ⟨{ m.store with cache := some (c.delete key) }, m.budget.release e.bytes .fresh⟩

/-- `cache.pop()`: evict the least recently used entry, expired or not. -/
def Mem.pop (m : Mem) : Mem :=
  match m.store.cache with
  | some ((key, _) :: _) => m.remove key
  | _ => m

def Mem.size (m : Mem) : ℕ := (m.store.cache.map List.length).getD 0

/-- Reserve, evicting up to `rounds` entries on the way. -/
def Mem.makeRoom (m : Mem) (bytes : ℕ) : ℕ → Mem × Bool
  | 0 => (⟨m.store, m.budget.reserve bytes .fresh⟩, m.budget.admits bytes)
  | rounds + 1 =>
    if m.budget.admits bytes then (⟨m.store, m.budget.reserve bytes .fresh⟩, true)
    else if m.size = 0 then (m, false)
    else m.pop.makeRoom bytes rounds

/-- The admission policy: at least as often used per byte as one of the eight
entries that would have to go.  Shares of bytes are compared exactly. -/
def worthAdmitting (m : MemoryStore Residents) (now : ℕ) (key : CacheKey) (bytes : ℕ) : Bool :=
  match m.history, m.cache with
  | some history, some c =>
    let victims := c.take 8
    victims.isEmpty || victims.any fun (victim, e) =>
      e.expireAt ≤ now ||
        max 1 (history (hash victim)) * bytes ≤ max 1 (history (hash key)) * e.bytes
  | _, _ => false

/-- `cache.set(key, …)` of the LRU: a new most recent entry, the oldest ones
evicted while there are too many. -/
def Mem.insert (m : Mem) (key : CacheKey) (e : L1Entry) (maxEntries : ℕ) : Mem :=
  let m := m.remove key
  let m := (List.range (m.size + 1 - maxEntries)).foldl (fun m _ => m.pop) m
  ⟨{ m.store with cache := m.store.cache.map fun c => c ++ [(key, e)] }, m.budget⟩

def entryBytes (buffer : List UInt8) (key : CacheKey) : ℕ :=
  buffer.length + key.byteLength * 2 + entryOverhead

def maxEntry (o : MemoryStoreOptions) (b : MemoryBudget) : ℕ :=
  o.maxEntryBytes.getD (min (16 * 1024 * 1024) (max 1 (b.hardCap / 4)))

def Mem.setEncoded (m : Mem) (o : MemoryStoreOptions) (now : ℕ) (key : CacheKey)
    (buffer : List UInt8) (ttlMs : ℕ) : Mem :=
  if m.store.cache.isNone then m
  else
    let bytes := entryBytes buffer key
    let prior := m.store.entry now key
    -- a failed replacement cannot keep an obsolete value
    if bytes > maxEntry o m.budget ∨ bytes > m.budget.target ∨ m.budget.state ≠ .normal then
      m.remove key
    else
      let priorBytes := (prior.map L1Entry.bytes).getD 0
      let needsSpace : Bool := m.budget.used + bytes - priorBytes > m.budget.target ||
        (prior.isNone && o.maxEntries ≤ m.size)
      if prior.isNone && needsSpace && o.admissionEnabled &&
          !m.store.worthAdmitting now key bytes then m
      else
        let (room, reserved) := (m.remove key).makeRoom bytes maxEvictionsPerWrite
        if reserved then room.insert key ⟨buffer, bytes, now + ttlMs⟩ o.maxEntries else room

/-- `getEncoded`: counts the access; a hit becomes the most recent entry, an
expired one is dropped. -/
def Mem.touch (m : Mem) (now : ℕ) (key : CacheKey) : Mem :=
  let m : Mem := ⟨m.store.record key, m.budget⟩
  match m.store.cache with
  | none => m
  | some c =>
    match c.get key with
    | none => m
    | some e =>
      if readable now e then
        ⟨{ m.store with cache := some (c.delete key ++ [(key, e)]) }, m.budget⟩
      else m.remove key

/-- `has`: reclaims the key if it has expired. -/
def Mem.has (m : Mem) (now : ℕ) (key : CacheKey) : Mem × Bool :=
  if (m.store.entry now key).isSome then (m, true) else (m.remove key, false)

/-- The keys that iteration visits: those that have not expired. -/
def Mem.keys (m : Mem) (now : ℕ) : List CacheKey :=
  ((m.store.cache.getD []).filter fun e => readable now e.2).map Prod.fst

def Mem.deleteByPattern (m : Mem) (now : ℕ) (pattern : JsString) : Mem :=
  ((m.keys now).filter fun key => matchesPattern key.text pattern).foldl Mem.remove m

def Mem.close (m : Mem) : Mem :=
  let bytes := ((m.store.cache.getD []).map fun e => e.2.bytes).sum
  let budget := m.budget.release bytes .fresh
  ⟨⟨none, none, m.store.decayCursor, m.store.accesses⟩,
    if m.store.history.isSome then budget.release historyBytes .metadata else budget⟩

/-! ### What the operations do to an entry -/

/-- The entry of a key, expired or not. -/
def Mem.resident (m : Mem) (key : CacheKey) : Option L1Entry :=
  m.store.cache.bind fun c => c.get key

theorem Mem.entry_eq (m : Mem) (now : ℕ) (key : CacheKey) :
    m.store.entry now key = (m.resident key).filter (readable now) := rfl

theorem Mem.resident_remove (m : Mem) (key key' : CacheKey) :
    (m.remove key).resident key' = if key = key' then none else m.resident key' := by
  rw [remove, resident, resident]
  rcases hc : m.store.cache with _ | c
  · simp [hc]
  · rcases he : c.get key with _ | e
    · by_cases hk : key = key'
      · subst hk
        simp [hc, he]
      · simp [hc, hk, he]
    · by_cases hk : key = key'
      · subst hk
        simp [he]
      · simp [he, hk, JsMap.get_delete_of_ne]

/-- `m'` has the entries of `m`, or fewer. -/
def Mem.Within (m' m : Mem) : Prop := ∀ key e, m'.resident key = some e → m.resident key = some e

theorem Mem.Within.refl (m : Mem) : m.Within m := fun _ _ h => h

theorem Mem.Within.trans {m m' m'' : Mem} (h : m''.Within m') (h' : m'.Within m) : m''.Within m :=
  fun key e he => h' key e (h key e he)

theorem Mem.remove_within (m : Mem) (key : CacheKey) : (m.remove key).Within m := by
  intro key' e he
  rw [resident_remove] at he
  split at he
  · cases he
  · exact he

theorem Mem.pop_within (m : Mem) : m.pop.Within m := by
  rw [pop]
  split
  · exact m.remove_within _
  · exact .refl m

theorem Mem.makeRoom_within (bytes : ℕ) : ∀ (rounds : ℕ) (m : Mem),
    (m.makeRoom bytes rounds).1.Within m := by
  intro rounds
  induction rounds with
  | zero => exact fun m => .refl m
  | succ rounds ih =>
    intro m
    rw [makeRoom]
    split
    · exact .refl m
    · split
      · exact .refl m
      · exact (ih m.pop).trans m.pop_within

theorem Mem.foldl_pop_within (l : List ℕ) (m : Mem) : (l.foldl (fun m _ => m.pop) m).Within m := by
  induction l generalizing m with
  | nil => exact .refl m
  | cons _ l ih => exact (ih m.pop).trans m.pop_within

theorem Mem.resident_insert {m : Mem} {key key' : CacheKey} {e e' : L1Entry} {maxEntries : ℕ}
    (h : (m.insert key e maxEntries).resident key' = some e') :
    (key = key' ∧ e' = e) ∨ (key ≠ key' ∧ m.resident key' = some e') := by
  have hpop := foldl_pop_within (List.range ((m.remove key).size + 1 - maxEntries)) (m.remove key)
  rw [insert] at h
  generalize (List.range ((m.remove key).size + 1 - maxEntries)).foldl (fun m _ => m.pop)
    (m.remove key) = m' at h hpop
  rw [resident, Option.bind_map] at h
  obtain ⟨c, hc, hget⟩ := Option.bind_eq_some_iff.mp h
  rw [Function.comp_apply, JsMap.get_append] at hget
  -- a hit in the old part survived the eviction, hence it is not the entry of `key`
  rcases hold : c.get key' with _ | old
  · rw [hold, Option.none_or, JsMap.get_cons] at hget
    split at hget
    · rename_i hk
      exact .inl ⟨hk, (Option.some.inj hget).symm⟩
    · cases hget
  · rw [hold, Option.some_or, Option.some.injEq] at hget
    subst hget
    have hm := hpop key' old (by rw [resident, hc]; exact hold)
    rw [resident_remove] at hm
    split at hm
    · cases hm
    · rename_i hk
      exact .inr ⟨hk, hm⟩

/-- A write leaves the new entry, or no readable one. -/
theorem Mem.entry_setEncoded_self {m : Mem} {o : MemoryStoreOptions} {now later : ℕ}
    {key : CacheKey} {buffer : List UInt8} {ttlMs : ℕ} {e : L1Entry} (hnow : now ≤ later)
    (h : (m.setEncoded o now key buffer ttlMs).store.entry later key = some e) :
    e.buffer = buffer := by
  rw [setEncoded] at h
  split at h
  · rename_i hclosed
    rw [Option.isNone_iff_eq_none] at hclosed
    simp [MemoryStore.entry, hclosed] at h
  · dsimp only at h
    split at h
    · rw [entry_eq, resident_remove, if_pos rfl] at h
      cases h
    · split at h
      · -- refused without a look at the key, which had no readable entry to begin with
        rename_i hprior
        simp only [Bool.and_eq_true] at hprior
        have hnone : m.store.entry now key = none := Option.isNone_iff_eq_none.mp hprior.1.1.1
        rw [entry_eq] at h hnone
        obtain ⟨he, hread⟩ := Option.filter_eq_some_iff.mp h
        rw [he] at hnone
        simp only [readable, decide_eq_true_eq, Option.filter_eq_none_iff, Option.some.injEq,
          forall_eq'] at hread hnone
        omega
      · have hroom := makeRoom_within (entryBytes buffer key) maxEvictionsPerWrite (m.remove key)
        split at h
        · rw [entry_eq] at h
          obtain ⟨he, -⟩ := Option.filter_eq_some_iff.mp h
          rcases resident_insert he with ⟨-, rfl⟩ | ⟨hne, -⟩
          · rfl
          · exact absurd rfl hne
        · rw [entry_eq] at h
          obtain ⟨he, -⟩ := Option.filter_eq_some_iff.mp h
          have hrem := hroom key e he
          rw [resident_remove, if_pos rfl] at hrem
          cases hrem

/-- Other keys keep their entry or lose it. -/
theorem Mem.resident_setEncoded_other {m : Mem} {o : MemoryStoreOptions} {now : ℕ}
    {key key' : CacheKey} {buffer : List UInt8} {ttlMs : ℕ} {e : L1Entry} (hk : key ≠ key')
    (h : (m.setEncoded o now key buffer ttlMs).resident key' = some e) :
    m.resident key' = some e := by
  rw [setEncoded] at h
  split at h
  · exact h
  · dsimp only at h
    split at h
    · exact m.remove_within key key' e h
    · split at h
      · exact h
      · have hroom := (makeRoom_within (entryBytes buffer key) maxEvictionsPerWrite
          (m.remove key)).trans (m.remove_within key)
        split at h
        · rcases resident_insert h with ⟨heq, -⟩ | ⟨-, hold⟩
          · exact absurd heq hk
          · exact hroom key' e hold
        · exact hroom key' e h

theorem Mem.resident_touch {m : Mem} {now : ℕ} {key key' : CacheKey} {e : L1Entry}
    (h : (m.touch now key).resident key' = some e) : m.resident key' = some e := by
  have hrec : (m.store.record key).cache = m.store.cache := by
    rw [record]
    split <;> rfl
  rw [touch] at h
  dsimp only at h
  rw [hrec] at h
  rcases hc : m.store.cache with _ | c
  · rw [hc] at h
    simp [resident, hrec, hc] at h
  · rw [hc] at h
    rcases hg : c.get key with _ | e₀
    · simp only [hg] at h
      rw [resident, hrec] at h
      exact h
    · simp only [hg] at h
      split at h
      · rw [resident, Option.bind_some, JsMap.get_append, JsMap.get_cons] at h
        rw [resident, hc, Option.bind_some]
        by_cases hk : key = key'
        · subst hk
          simpa [hg] using h
        · rw [JsMap.get_delete_of_ne _ hk] at h
          simpa [hk] using h
      · have hm := remove_within _ key key' e h
        rw [resident, hrec] at hm
        exact hm

theorem Mem.foldl_remove_within (keys : List CacheKey) (m : Mem) :
    (keys.foldl Mem.remove m).Within m := by
  induction keys generalizing m with
  | nil => exact .refl m
  | cons key keys ih => exact (ih _).trans (m.remove_within key)

theorem Mem.resident_foldl_remove {keys : List CacheKey} {m : Mem} {key : CacheKey}
    (h : key ∈ keys) : (keys.foldl Mem.remove m).resident key = none := by
  induction keys generalizing m with
  | nil => cases h
  | cons k keys ih =>
    rw [List.foldl_cons]
    rcases List.mem_cons.mp h with rfl | h
    · rcases hr : (keys.foldl Mem.remove (m.remove key)).resident key with _ | e
      · rfl
      · have hm := foldl_remove_within keys (m.remove key) key e hr
        rw [resident_remove, if_pos rfl] at hm
        cases hm
    · exact ih h

/-- A pattern removes the readable entries that match it. -/
theorem Mem.entry_deleteByPattern {m : Mem} {now later : ℕ} {pattern : JsString} {key : CacheKey}
    {e : L1Entry} (hnow : now ≤ later)
    (h : (m.deleteByPattern now pattern).store.entry later key = some e) :
    matchesPattern key.text pattern = false ∧ m.store.entry later key = some e := by
  rw [entry_eq] at h
  obtain ⟨he, hread⟩ := Option.filter_eq_some_iff.mp h
  have hm := foldl_remove_within _ m key e he
  refine ⟨?_, by rw [entry_eq, hm]; simp [hread]⟩
  by_contra hmatch
  rw [Bool.not_eq_false] at hmatch
  have hmem : key ∈ (m.keys now).filter fun key => matchesPattern key.text pattern := by
    refine List.mem_filter.mpr ⟨?_, hmatch⟩
    obtain ⟨c, hc, hget⟩ := Option.bind_eq_some_iff.mp hm
    obtain ⟨⟨k, e'⟩, hfind, rfl⟩ := Option.map_eq_some_iff.mp hget
    have hk : k = key := by simpa using List.find?_some hfind
    rw [keys, hc, Option.getD_some]
    refine List.mem_map.mpr ⟨(k, e'), List.mem_filter.mpr ⟨List.mem_of_find?_eq_some hfind, ?_⟩, hk⟩
    simp only [readable, decide_eq_true_eq] at hread ⊢
    omega
  have hnone := resident_foldl_remove (m := m) hmem
  rw [deleteByPattern] at he
  rw [he] at hnone
  cases hnone

theorem Mem.has_within (m : Mem) (now : ℕ) (key : CacheKey) : (m.has now key).1.Within m := by
  rw [has]
  split
  · exact .refl m
  · exact m.remove_within key

end MemoryStore
