/-
Byte accounting of the memory stores that share a budget (`memoryStore.ts`,
`memoryBudget.ts`).

An entry leaves a store on many routes: it is overwritten, popped to make room, evicted
by the LRU or by the budget, expired, matched by a pattern, unreadable, or the store is
closed.  On all of them the LRU calls back, and the callback takes the bytes of the entry
off the counter of the store and releases them.  The bytes of a new entry are reserved
before it exists.  The LRU is a parameter, which disposes of every entry that leaves.

* `Counted` — a store with its ledger and its counters, over any LRU;
* `Counted.call` — a call of the LRU with its callbacks;
* `Counted.setEncoded`, `Counted.get`, … — the operations;
* `Books` — the counter and the ledger agree with the resident entries, up to bytes that
  are reserved for an entry yet to come;
* `World` — several stores, and the sampling that evicts from them;
* `byte_accounting` — the books of every store are in order in every run.
-/
import LazyLayers.Runs
import LazyLayers.Tally
import LazyLayers.LruMap
import LazyLayers.MemoryLedger

open Js Pattern Runs MemoryLedger Tally

namespace MemoryStore

/-! ### A store and what it counts -/

section Store

variable {T : Type}

/-- A store, the ledger that it reserves from, and its counters. -/
structure Counted (lru : LruCache T CacheKey Entry) where
  store : MemoryStore lru.Cache
  budget : MemoryBudget
  bytes : ℤ
  admitted : ℕ
  rejected : ℕ

/-- What `set` is given, after serialization. -/
inductive Written
  | absent
  | unserializable
  | encoded (buffer : List UInt8)

namespace Counted

variable {lru : LruCache T CacheKey Entry}

/-- The dispose callback. -/
def dispose (s : Counted lru) (e : Entry) : Counted lru :=
  { s with bytes := s.bytes - e.bytes, budget := s.budget.release e.bytes .fresh }

/-- A call of the LRU, which a closed store has no more, and its callbacks. -/
def call (s : Counted lru) (call : LruCall T CacheKey Entry) : Counted lru :=
  match s.store.cache with
  | none => s
  | some c =>
    (lru.run c call).disposed.foldl dispose
      { s with store := { s.store with cache := some (lru.run c call).cache } }

def answer (s : Counted lru) (call : LruCall T CacheKey Entry) : Option Entry :=
  s.store.cache.bind fun c => (lru.run c call).answer

def remove (s : Counted lru) (key : CacheKey) : Counted lru := s.call (.delete key)

/-- `rejected++` -/
def reject (s : Counted lru) : Counted lru := { s with rejected := s.rejected + 1 }

def reserve (s : Counted lru) (bytes : ℕ) : Counted lru :=
  { s with budget := s.budget.reserve bytes .fresh }

def release (s : Counted lru) (bytes : ℕ) : Counted lru :=
  { s with budget := s.budget.release bytes .fresh }

/-- Reserve, evicting up to `rounds` entries on the way. -/
def makeRoom (s : Counted lru) (bytes : ℕ) : ℕ → Counted lru × Bool
  | 0 => (s.reserve bytes, s.budget.admits bytes)
  | rounds + 1 =>
    if s.budget.admits bytes then (s.reserve bytes, true)
    else if (s.answer .pop).isNone then (s.call .pop, false)
    else (s.call .pop).makeRoom bytes rounds

/-- `cache.set(key, …)`, and the entry is counted. -/
def insert (s : Counted lru) (now : T) (key : CacheKey) (e : Entry) (ttl : T) : Counted lru :=
  let s := s.call (.set now key e ttl)
  { s with bytes := s.bytes + e.bytes, admitted := s.admitted + 1 }

def record (s : Counted lru) (key : CacheKey) : Counted lru := { s with store := s.store.record key }

/-- `getEncoded` -/
def touch (s : Counted lru) (now : T) (key : CacheKey) : Counted lru :=
  (s.record key).call (.get now key)

/-- `get`; `hit` says whether the entry can be decoded. -/
def get (s : Counted lru) (now : T) (key : CacheKey) (hit : Bool) : Counted lru :=
  if ((s.record key).answer (.get now key)).isSome ∧ hit = false then (s.touch now key).remove key
  else s.touch now key

/-- `has` reclaims the key if it has expired. -/
def has (s : Counted lru) (now : T) (key : CacheKey) : Counted lru :=
  match s.store.cache with
  | none => s
  | some c => if lru.has c now key then s else s.remove key

def deleteByPattern (s : Counted lru) (now : T) (pattern : JsString) : Counted lru :=
  match s.store.cache with
  | none => s
  | some c => ((lru.keys c now).filter fun key => matchesPattern key.text pattern).foldl remove s

def close (s : Counted lru) : Counted lru :=
  if s.store.cache.isNone then s
  else
    let cleared := s.call .clear
    { cleared with
      store := { cleared.store with cache := none, history := none }
      budget := if cleared.store.history.isSome then cleared.budget.release historyBytes .metadata
        else cleared.budget }

/-! ### What a call of the LRU does -/

variable {s s' : Counted lru} {o : MemoryStoreOptions} {now : T} {pending bytes : ℕ}
  {key : CacheKey} {buffer : List UInt8} {e : Entry} {f : MemoryCategory → ℕ}

/-- The bytes of the resident entries. -/
def residentBytes (m : MemoryStore lru.Cache) : ℕ :=
  ((m.cache.elim [] lru.values).map Entry.bytes).sum

/-- What a store has a right to in the ledger. -/
def holds (fresh : ℕ) (history : Bool) : MemoryCategory → ℕ
  | .fresh => fresh
  | .metadata => if history then historyBytes else 0
  | _ => 0

/-- `s'` is what evictions have left of `s`: the ledger has shrunk. -/
structure Shrinks (s' s : Counted lru) : Prop where
  isSome : s'.store.cache.isSome = s.store.cache.isSome
  history : s'.store.history = s.store.history
  admitted : s'.admitted = s.admitted
  target : s'.budget.target = s.budget.target
  used : s'.budget.used ≤ s.budget.used

theorem Shrinks.refl (s : Counted lru) : s.Shrinks s := ⟨rfl, rfl, rfl, rfl, le_rfl⟩

theorem Shrinks.trans {s'' : Counted lru} (h : s''.Shrinks s') (h' : s'.Shrinks s) : s''.Shrinks s :=
  ⟨h.isSome.trans h'.isSome, h.history.trans h'.history, h.admitted.trans h'.admitted,
    h.target.trans h'.target, h.used.trans h'.used⟩

theorem foldl_dispose (l : List Entry) (s : Counted lru) :
    (l.foldl dispose s).store = s.store ∧ (l.foldl dispose s).Shrinks s ∧
      (l.foldl dispose s).bytes = s.bytes - (l.map Entry.bytes).sum := by
  induction l generalizing s with
  | nil => exact ⟨rfl, .refl s, (sub_zero _).symm⟩
  | cons e l ih =>
    obtain ⟨hstore, hshrinks, hbytes⟩ := ih (s.dispose e)
    have hdispose : (s.dispose e).Shrinks s := ⟨rfl, rfl, rfl, rfl, Nat.sub_le ..⟩
    refine ⟨hstore, hshrinks.trans hdispose, hbytes.trans ?_⟩
    rw [List.map_cons, List.sum_cons, Nat.cast_add]
    show s.bytes - e.bytes - _ = _
    omega

theorem shrinks_call (s : Counted lru) (call : LruCall T CacheKey Entry) :
    (s.call call).Shrinks s := by
  rw [Counted.call]
  split
  · exact .refl s
  · next c hc =>
    obtain ⟨-, hshrinks, -⟩ := foldl_dispose (lru.run c call).disposed
      { s with store := { s.store with cache := some (lru.run c call).cache } }
    exact hshrinks.trans ⟨by rw [hc]; rfl, rfl, rfl, rfl, le_rfl⟩

theorem shrinks_remove (s : Counted lru) (key : CacheKey) : (s.remove key).Shrinks s :=
  shrinks_call s _

theorem shrinks_foldl_remove (keys : List CacheKey) (s : Counted lru) :
    (keys.foldl remove s).Shrinks s := by
  induction keys generalizing s with
  | nil => exact .refl s
  | cons key keys ih => exact (ih (s.remove key)).trans (shrinks_remove s key)

theorem cache_call (call : LruCall T CacheKey Entry) :
    (s.call call).store.cache = s.store.cache.map fun c => (lru.run c call).cache := by
  rw [Counted.call]
  split
  · next hc => rw [hc]; rfl
  · next c hc =>
    rw [(foldl_dispose _ _).1, hc]
    rfl

/-! ### The books -/

/-- The counter and the ledger agree with the entries; the rest of the ledger is `f`. -/
structure Books (f : MemoryCategory → ℕ) (o : MemoryStoreOptions) (pending : ℕ) (s : Counted lru) :
    Prop where
  shared : Shared s.budget f (holds (residentBytes s.store + pending) s.store.history.isSome)
  bytes : s.bytes = residentBytes s.store
  bound : ∀ c, s.store.cache = some c → lru.maxSize c = o.maxEntries
  closed : s.store.cache = none → s.store.history = none

theorem update_holds (n n' : ℕ) (history : Bool) :
    Function.update (holds n history) .fresh n' = holds n' history := by
  funext c
  cases c <;> rfl

/-- The callbacks release what has left. -/
theorem shared_foldl_dispose {history : Bool} (l : List Entry) {s : Counted lru} {n : ℕ}
    (h : Shared s.budget f (holds (n + (l.map Entry.bytes).sum) history)) :
    Shared (l.foldl dispose s).budget f (holds n history) := by
  induction l generalizing s with
  | nil => exact h
  | cons e l ih =>
    rw [List.map_cons, List.sum_cons] at h
    refine @ih (s.dispose e) ?_
    have hle : e.bytes ≤ holds (n + (e.bytes + (l.map Entry.bytes).sum)) history .fresh := by
      show e.bytes ≤ n + (e.bytes + _)
      omega
    have hrelease := h.release hle
    rw [update_holds] at hrelease
    have hrest : holds (n + (e.bytes + (l.map Entry.bytes).sum)) history .fresh - e.bytes =
        n + (l.map Entry.bytes).sum := by
      show n + (e.bytes + _) - e.bytes = _
      omega
    rwa [hrest] at hrelease

/-- A call that adds nothing leaves the books in order. -/
theorem Books.call (hlru : lru.Disposing) (hpositive : 0 < o.maxEntries) (h : Books f o pending s)
    {call : LruCall T CacheKey Entry} (hadded : LruCache.added call = []) :
    Books f o pending (s.call call) := by
  rw [Counted.call]
  split
  · exact h
  next c hc =>
  have hmax := h.bound c hc
  have hsum := hlru.sum_run c call (hmax ▸ hpositive) Entry.bytes
  have hbefore : residentBytes s.store = ((lru.values c).map Entry.bytes).sum := by
    rw [residentBytes, hc]
    rfl
  rw [hadded, List.map_nil, List.sum_nil, Nat.zero_add, ← hbefore] at hsum
  obtain ⟨hstore, -, hbytes⟩ := foldl_dispose (lru.run c call).disposed
    { s with store := { s.store with cache := some (lru.run c call).cache } }
  have hafter : residentBytes { s.store with cache := some (lru.run c call).cache } =
      ((lru.values (lru.run c call).cache).map Entry.bytes).sum := rfl
  refine ⟨?_, ?_, fun c' hc' => ?_, fun hnone => ?_⟩
  · rw [hstore]
    refine shared_foldl_dispose _ ?_
    have hshared := h.shared
    rwa [show residentBytes s.store + pending = residentBytes
        { s.store with cache := some (lru.run c call).cache } + pending +
          ((lru.run c call).disposed.map Entry.bytes).sum by rw [hafter]; omega] at hshared
  · rw [hstore, hbytes, hafter]
    show s.bytes - _ = _
    rw [h.bytes]
    omega
  · rw [hstore, Option.some.injEq] at hc'
    rw [← hc', hlru.maxSize_run, hmax]
  · rw [hstore] at hnone
    cases hnone

theorem Books.remove (hlru : lru.Disposing) (hpositive : 0 < o.maxEntries)
    (h : Books f o pending s) (key : CacheKey) : Books f o pending (s.remove key) :=
  h.call hlru hpositive rfl

theorem Books.foldl_remove (hlru : lru.Disposing) (hpositive : 0 < o.maxEntries)
    (keys : List CacheKey) (h : Books f o pending s) :
    Books f o pending (keys.foldl Counted.remove s) := by
  induction keys generalizing s with
  | nil => exact h
  | cons key keys ih => exact ih (h.remove hlru hpositive key)

theorem Books.reject (h : Books f o pending s) : Books f o pending s.reject :=
  ⟨h.shared, h.bytes, h.bound, h.closed⟩

theorem Books.reserve (h : Books f o 0 s) (hadmits : s.budget.admits bytes = true) :
    Books f o bytes (s.reserve bytes) := by
  have hshared : Shared (s.budget.reserve bytes .fresh) f _ := h.shared.reserve hadmits
  rw [update_holds] at hshared
  exact ⟨hshared, h.bytes, h.bound, h.closed⟩

/-- A write that is given up returns what it had reserved. -/
theorem Books.release (h : Books f o bytes s) : Books f o 0 (s.release bytes) := by
  have hle : bytes ≤ holds (residentBytes s.store + bytes) s.store.history.isSome .fresh :=
    Nat.le_add_left ..
  have hshared := h.shared.release hle
  have hrest : holds (residentBytes s.store + bytes) s.store.history.isSome .fresh - bytes =
      residentBytes s.store := Nat.add_sub_cancel ..
  rw [update_holds, hrest] at hshared
  exact ⟨hshared, h.bytes, h.bound, h.closed⟩

/-- What was reserved while making room is reserved, or nothing is. -/
theorem Books.makeRoom (hlru : lru.Disposing) (hpositive : 0 < o.maxEntries) (bytes rounds : ℕ)
    (h : Books f o 0 s) :
    Books f o (if (s.makeRoom bytes rounds).2 then bytes else 0) (s.makeRoom bytes rounds).1 := by
  induction rounds generalizing s with
  | zero =>
    show Books f o (if s.budget.admits bytes then bytes else 0) (s.reserve bytes)
    by_cases hadmits : s.budget.admits bytes
    · rw [if_pos hadmits]
      exact h.reserve hadmits
    · rw [if_neg hadmits, Counted.reserve, MemoryBudget.reserve, if_neg hadmits]
      exact h
  | succ rounds ih =>
    rw [Counted.makeRoom]
    split
    · next hadmits => exact h.reserve hadmits
    · split
      · exact h.call hlru hpositive rfl
      · exact ih (h.call hlru hpositive rfl)

/-- The room that was made, if it was made. -/
theorem makeRoom_spec (bytes rounds : ℕ) (s : Counted lru) :
    (s.makeRoom bytes rounds).1.admitted = s.admitted ∧
      (s.makeRoom bytes rounds).1.store.cache.isSome = s.store.cache.isSome ∧
      ((s.makeRoom bytes rounds).2 = true → (s.makeRoom bytes rounds).1.budget.used ≤
        (s.makeRoom bytes rounds).1.budget.target) := by
  have hreserve : ∀ s : Counted lru, s.budget.admits bytes = true →
      (s.reserve bytes).budget.used ≤ (s.reserve bytes).budget.target := by
    intro s hadmits
    rw [reserve, MemoryBudget.reserve, if_pos hadmits]
    exact of_decide_eq_true hadmits
  induction rounds generalizing s with
  | zero => exact ⟨rfl, rfl, hreserve s⟩
  | succ rounds ih =>
    have hpop := shrinks_call s .pop
    rw [makeRoom]
    split
    · next hadmits => exact ⟨rfl, rfl, fun _ => hreserve s hadmits⟩
    · split
      · exact ⟨hpop.admitted, hpop.isSome, fun hfits => by cases hfits⟩
      · obtain ⟨hadmitted, hsome, hfits⟩ := ih (s.call .pop)
        exact ⟨hadmitted.trans hpop.admitted, hsome.trans hpop.isSome, hfits⟩

/-! ### The operations keep the books -/

/-- The reserved bytes become those of the entry. -/
theorem Books.insert (hlru : lru.Disposing) (hpositive : 0 < o.maxEntries)
    (h : Books f o bytes s) (hsome : s.store.cache.isSome = true) (he : e.bytes = bytes) (ttl : T) :
    Books f o 0 (s.insert now key e ttl) := by
  obtain ⟨c, hc⟩ := Option.isSome_iff_exists.mp hsome
  have hmax := h.bound c hc
  have hsum := hlru.sum_run c (.set now key e ttl) (hmax ▸ hpositive) Entry.bytes
  have hbefore : residentBytes s.store = ((lru.values c).map Entry.bytes).sum := by
    rw [residentBytes, hc]
    rfl
  rw [← hbefore, LruCache.added, List.map_singleton, List.sum_singleton, he] at hsum
  have hcall : s.call (.set now key e ttl) = (lru.run c (.set now key e ttl)).disposed.foldl dispose
      { s with store := { s.store with cache := some (lru.run c (.set now key e ttl)).cache } } := by
    rw [Counted.call, hc]
  obtain ⟨hstore, -, hbytes⟩ := foldl_dispose (lru.run c (.set now key e ttl)).disposed
    { s with store := { s.store with cache := some (lru.run c (.set now key e ttl)).cache } }
  have hafter : residentBytes { s.store with cache := some (lru.run c (.set now key e ttl)).cache } =
      ((lru.values (lru.run c (.set now key e ttl)).cache).map Entry.bytes).sum := rfl
  rw [Counted.insert, hcall]
  dsimp only
  refine ⟨?_, ?_, fun c' hc' => ?_, fun hnone => ?_⟩
  · rw [hstore]
    refine shared_foldl_dispose _ ?_
    have hshared := h.shared
    rwa [show residentBytes s.store + bytes = residentBytes
        { s.store with cache := some (lru.run c (.set now key e ttl)).cache } + 0 +
          ((lru.run c (.set now key e ttl)).disposed.map Entry.bytes).sum by rw [hafter]; omega]
      at hshared
  · rw [hstore, hbytes, hafter, he]
    show s.bytes - _ + _ = _
    rw [h.bytes]
    omega
  · rw [hstore, Option.some.injEq] at hc'
    rw [← hc', hlru.maxSize_run, hmax]
  · rw [hstore] at hnone
    cases hnone

/-- `record` touches the history only. -/
theorem record_spec {C : Type} (m : MemoryStore C) (key : CacheKey) :
    (m.record key).cache = m.cache ∧ (m.record key).history.isSome = m.history.isSome := by
  rw [MemoryStore.record]
  split
  · exact ⟨rfl, rfl⟩
  · next hhistory =>
    rw [hhistory]
    exact ⟨rfl, rfl⟩

theorem Books.record (h : Books f o 0 s) (key : CacheKey) : Books f o 0 (s.record key) := by
  obtain ⟨hcache, hhistory⟩ := record_spec s.store key
  have hbytes : residentBytes (s.store.record key) = residentBytes s.store := by
    rw [residentBytes, hcache]
    rfl
  refine ⟨?_, ?_, fun c hc => ?_, fun hnone => ?_⟩
  · show Shared s.budget f (holds (residentBytes (s.store.record key) + 0)
      (s.store.record key).history.isSome)
    rw [hbytes, hhistory]
    exact h.shared
  · show s.bytes = residentBytes (s.store.record key)
    rw [hbytes]
    exact h.bytes
  · exact h.bound c (hcache ▸ hc)
  · have hnone : (s.store.record key).cache = none := hnone
    rw [hcache] at hnone
    rw [h.closed hnone] at hhistory
    exact Option.isNone_iff_eq_none.mp (Option.isSome_eq_false_iff.mp hhistory)

/-- A hit moves the entry, and a stale one leaves. -/
theorem Books.touch (hlru : lru.Disposing) (hpositive : 0 < o.maxEntries) (h : Books f o 0 s)
    (now : T) (key : CacheKey) : Books f o 0 (s.touch now key) :=
  (h.record key).call hlru hpositive rfl

theorem Books.get (hlru : lru.Disposing) (hpositive : 0 < o.maxEntries) (h : Books f o 0 s)
    (now : T) (key : CacheKey) (hit : Bool) : Books f o 0 (s.get now key hit) := by
  rw [Counted.get]
  split
  · exact (h.touch hlru hpositive now key).remove hlru hpositive key
  · exact h.touch hlru hpositive now key

theorem Books.has (hlru : lru.Disposing) (hpositive : 0 < o.maxEntries) (h : Books f o 0 s)
    (now : T) (key : CacheKey) : Books f o 0 (s.has now key) := by
  rw [Counted.has]
  split
  · exact h
  · split
    · exact h
    · exact h.remove hlru hpositive key

theorem Books.deleteByPattern (hlru : lru.Disposing) (hpositive : 0 < o.maxEntries)
    (h : Books f o 0 s) (now : T) (pattern : JsString) :
    Books f o 0 (s.deleteByPattern now pattern) := by
  rw [Counted.deleteByPattern]
  split
  · exact h
  · exact h.foldl_remove hlru hpositive _

theorem Books.close (hlru : lru.Disposing) (hpositive : 0 < o.maxEntries) (h : Books f o 0 s) :
    Books f o 0 s.close := by
  rw [Counted.close]
  split
  · exact h
  next hopen =>
  obtain ⟨c, hc⟩ := Option.ne_none_iff_exists'.mp fun hnone =>
    hopen (Option.isNone_iff_eq_none.mpr hnone)
  have hbooks := h.call hlru hpositive (show LruCache.added .clear = [] from rfl)
  have hbytes : residentBytes (s.call .clear).store = 0 := by
    rw [residentBytes, cache_call, hc, Option.map_some, Option.elim_some, hlru.values_clear]
    rfl
  dsimp only
  generalize s.call .clear = s' at hbytes hbooks
  have hshared := hbooks.shared
  have hcounter := hbooks.bytes
  rw [hbytes] at hshared hcounter
  refine ⟨?_, hcounter, nofun, fun _ => rfl⟩
  show Shared (if s'.store.history.isSome then _ else _) f (holds (0 + 0) false)
  split
  · next hhistory =>
    rw [hhistory] at hshared
    have hle : historyBytes ≤ holds (0 + 0) true .metadata := le_rfl
    have hrelease := hshared.release hle
    have hzero : Function.update (holds (0 + 0) true) .metadata
        (holds (0 + 0) true .metadata - historyBytes) = holds (0 + 0) false := by
      funext k
      cases k <;> rfl
    rwa [hzero] at hrelease
  · next hhistory =>
    rw [Bool.not_eq_true] at hhistory
    rwa [hhistory] at hshared

theorem admitted_touch : (s.touch now key).admitted = s.admitted :=
  (shrinks_call (s.record key) _).admitted

/-! ### Writes -/

variable [LinearOrder T] [Zero T]

/-- The admission policy: at least as often used per byte as one of the eight entries that
would have to go.  Shares of bytes are compared exactly. -/
def worthAdmitting (s : Counted lru) (now : T) (key : CacheKey) (bytes : ℕ) : Bool :=
  match s.store.history, s.store.cache with
  | some history, some c =>
    let victims := (lru.rentries c).take 8
    victims.isEmpty || victims.any fun (victim, e) =>
      decide (lru.getRemainingTTL c now victim ≤ 0) ||
        max 1 (history (hash victim)) * bytes ≤ max 1 (history (hash key)) * e.bytes
  | _, _ => false

/-- `ttl` is the time to live that the options give; the store throws on one that is not
positive.  `allocates` says whether there is memory for the buffer. -/
def setEncoded (s : Counted lru) (o : MemoryStoreOptions) (now : T) (key : CacheKey)
    (buffer : List UInt8) (ttl : T) (allocates : Bool) : Counted lru :=
  match s.store.cache with
  | none => s
  | some c =>
    if ttl ≤ 0 then s
    else
      let bytes := entryBytes buffer key
      let prior := lru.peek c now key
      if bytes > maxEntry o s.budget ∨ bytes > s.budget.target ∨ s.budget.state ≠ .normal then
        (s.remove key).reject
      else
        let priorBytes := (prior.map Entry.bytes).getD 0
        let needsSpace : Bool := s.budget.used + bytes - priorBytes > s.budget.target ||
          (prior.isNone && o.maxEntries ≤ lru.size c)
        if prior.isNone && needsSpace && o.admissionEnabled && !s.worthAdmitting now key bytes then
          s.reject
        else
          let (room, reserved) := (s.remove key).makeRoom bytes maxEvictionsPerWrite
          if reserved then
            if allocates then room.insert now key ⟨buffer, bytes⟩ ttl
            else room.release bytes
          else room.reject

def set (s : Counted lru) (o : MemoryStoreOptions) (now : T) (key : CacheKey) (value : Written)
    (ttl : T) (allocates : Bool) : Counted lru :=
  if s.store.cache.isNone ∨ ttl ≤ 0 then s
  else
    match value with
    | .absent => s.remove key
    | .unserializable => (s.remove key).reject
    | .encoded buffer => s.setEncoded o now key buffer ttl allocates

theorem Books.setEncoded (hlru : lru.Disposing) (hpositive : 0 < o.maxEntries)
    (h : Books f o 0 s) (now : T) (key : CacheKey) (buffer : List UInt8) (ttl : T)
    (allocates : Bool) : Books f o 0 (s.setEncoded o now key buffer ttl allocates) := by
  rw [Counted.setEncoded]
  split
  · exact h
  next c hc =>
  split
  · exact h
  dsimp only
  split
  · exact (h.remove hlru hpositive key).reject
  split
  · exact h.reject
  have hroom := (h.remove hlru hpositive key).makeRoom hlru hpositive (entryBytes buffer key)
    maxEvictionsPerWrite
  obtain ⟨-, hsome, -⟩ := makeRoom_spec (entryBytes buffer key) maxEvictionsPerWrite (s.remove key)
  split
  · next hreserved =>
    rw [if_pos hreserved] at hroom
    have hsome : ((s.remove key).makeRoom (entryBytes buffer key)
        maxEvictionsPerWrite).1.store.cache.isSome = true := by
      rw [hsome, (shrinks_remove s key).isSome, hc]
      rfl
    split
    · exact hroom.insert hlru hpositive hsome rfl ttl
    · exact hroom.release
  · next hreserved =>
    rw [if_neg hreserved] at hroom
    exact hroom.reject

theorem Books.set (hlru : lru.Disposing) (hpositive : 0 < o.maxEntries) (h : Books f o 0 s)
    (now : T) (key : CacheKey) (value : Written) (ttl : T) (allocates : Bool) :
    Books f o 0 (s.set o now key value ttl allocates) := by
  rw [Counted.set.eq_def]
  split
  · exact h
  · cases value with
    | absent => exact h.remove hlru hpositive key
    | unserializable => exact (h.remove hlru hpositive key).reject
    | encoded buffer => exact h.setEncoded hlru hpositive now key buffer ttl allocates

/-- An admission leaves the ledger within its target. -/
theorem fits_setEncoded {ttl : T} {allocates : Bool}
    (hadmitted : (s.setEncoded o now key buffer ttl allocates).admitted ≠ s.admitted) :
    (s.setEncoded o now key buffer ttl allocates).budget.used ≤
      (s.setEncoded o now key buffer ttl allocates).budget.target := by
  have hremove := (shrinks_remove s key).admitted
  obtain ⟨hroom, -, hfits⟩ :=
    makeRoom_spec (entryBytes buffer key) maxEvictionsPerWrite (s.remove key)
  -- every branch but the last one leaves the counter of admissions as it was
  rw [setEncoded] at hadmitted ⊢
  split
  · next hclosed =>
    rw [hclosed] at hadmitted
    exact absurd rfl hadmitted
  next c hc =>
  rw [hc] at hadmitted
  dsimp only at hadmitted
  split
  · next hthrows =>
    rw [if_pos hthrows] at hadmitted
    exact absurd rfl hadmitted
  next hlives =>
  rw [if_neg hlives] at hadmitted
  dsimp only
  split
  · next hlarge =>
    rw [if_pos hlarge] at hadmitted
    exact absurd hremove hadmitted
  next hsmall =>
  rw [if_neg hsmall] at hadmitted
  split
  · next hcold =>
    rw [if_pos hcold] at hadmitted
    exact absurd rfl hadmitted
  next hwarm =>
  rw [if_neg hwarm] at hadmitted
  split
  · next hreserved =>
    rw [if_pos hreserved] at hadmitted
    split
    · -- the entry goes in, and others may go out
      have hcall := shrinks_call ((s.remove key).makeRoom (entryBytes buffer key)
        maxEvictionsPerWrite).1 (.set now key ⟨buffer, entryBytes buffer key⟩ ttl)
      have hfits := hfits hreserved
      rw [insert]
      dsimp only
      rw [hcall.target]
      exact hcall.used.trans hfits
    · next hnone =>
      rw [if_neg hnone] at hadmitted
      exact absurd (hroom.trans hremove) hadmitted
  · next hrefused =>
    rw [if_neg hrefused] at hadmitted
    exact absurd (hroom.trans hremove) hadmitted

end Counted

/-! ### The operations of a client -/

/-- A call of a store, with the reading of the clock at which it is made. -/
inductive Op (T : Type)
  | set (now : T) (key : CacheKey) (value : Written) (ttl : T) (allocates : Bool)
  | setEncoded (now : T) (key : CacheKey) (buffer : List UInt8) (ttl : T) (allocates : Bool)
  | get (now : T) (key : CacheKey) (hit : Bool)
  | getEncoded (now : T) (key : CacheKey)
  | has (now : T) (key : CacheKey)
  | delete (key : CacheKey)
  | deleteByPattern (now : T) (pattern : JsString)
  | clear
  /-- `size()` and `stats()` -/
  | size (now : T)
  /-- The eviction that the budget asks for. -/
  | evictOne
  | close

variable [LinearOrder T] [Zero T] {lru : LruCache T CacheKey Entry}

def Op.run (o : MemoryStoreOptions) (op : Op T) (s : Counted lru) : Counted lru :=
  match op with
  | .set now key value ttl allocates => s.set o now key value ttl allocates
  | .setEncoded now key buffer ttl allocates => s.setEncoded o now key buffer ttl allocates
  | .get now key hit => s.get now key hit
  | .getEncoded now key => s.touch now key
  | .has now key => s.has now key
  | .delete key => s.remove key
  | .deleteByPattern now pattern => s.deleteByPattern now pattern
  | .clear => s.call .clear
  | .size now => s.call (.purgeStale now)
  | .evictOne => s.call .pop
  | .close => s.close

namespace Counted

variable {s : Counted lru} {o : MemoryStoreOptions} {f : MemoryCategory → ℕ}

theorem Books.run (hlru : lru.Disposing) (hpositive : 0 < o.maxEntries) (h : Books f o 0 s)
    (op : Op T) : Books f o 0 (op.run o s) := by
  cases op with
  | set now key value ttl allocates => exact h.set hlru hpositive now key value ttl allocates
  | setEncoded now key buffer ttl allocates =>
    exact h.setEncoded hlru hpositive now key buffer ttl allocates
  | get now key hit => exact h.get hlru hpositive now key hit
  | getEncoded now key => exact h.touch hlru hpositive now key
  | has now key => exact h.has hlru hpositive now key
  | delete key => exact h.remove hlru hpositive key
  | deleteByPattern now pattern => exact h.deleteByPattern hlru hpositive now pattern
  | clear => exact h.call hlru hpositive rfl
  | size now => exact h.call hlru hpositive rfl
  | evictOne => exact h.call hlru hpositive rfl
  | close => exact h.close hlru hpositive

/-- Only a write admits anything. -/
theorem fits_run {op : Op T} (hadmitted : (op.run o s).admitted ≠ s.admitted) :
    (op.run o s).budget.used ≤ (op.run o s).budget.target := by
  cases op with
  | set now key value ttl allocates =>
    rw [Op.run, set.eq_def] at hadmitted ⊢
    split
    · next hclosed =>
      rw [if_pos hclosed] at hadmitted
      exact absurd rfl hadmitted
    next hopen =>
    rw [if_neg hopen] at hadmitted
    cases value with
    | absent => exact absurd (shrinks_remove s key).admitted hadmitted
    | unserializable => exact absurd (shrinks_remove s key).admitted hadmitted
    | encoded buffer => exact fits_setEncoded hadmitted
  | setEncoded now key buffer ttl allocates => exact fits_setEncoded hadmitted
  | get now key hit =>
    rw [Op.run, get] at hadmitted
    split at hadmitted
    · exact absurd ((shrinks_remove _ key).admitted.trans admitted_touch) hadmitted
    · exact absurd admitted_touch hadmitted
  | getEncoded now key => exact absurd admitted_touch hadmitted
  | has now key =>
    rw [Op.run, has] at hadmitted
    split at hadmitted
    · exact absurd rfl hadmitted
    · split at hadmitted
      · exact absurd rfl hadmitted
      · exact absurd (shrinks_remove s key).admitted hadmitted
  | delete key => exact absurd (shrinks_remove s key).admitted hadmitted
  | deleteByPattern now pattern =>
    rw [Op.run, deleteByPattern] at hadmitted
    split at hadmitted
    · exact absurd rfl hadmitted
    · exact absurd (shrinks_foldl_remove _ s).admitted hadmitted
  | clear => exact absurd (shrinks_call s _).admitted hadmitted
  | size now => exact absurd (shrinks_call s _).admitted hadmitted
  | evictOne => exact absurd (shrinks_call s _).admitted hadmitted
  | close =>
    rw [Op.run, close] at hadmitted
    split at hadmitted
    · exact absurd rfl hadmitted
    · exact absurd (shrinks_call s _).admitted hadmitted

end Counted

/-! ### Stores that share a budget -/

/-- A store of the process.  `held` is what its calls have added to each category of the
ledger, less what they have taken back. -/
structure Client (lru : LruCache T CacheKey Entry) where
  options : MemoryStoreOptions
  store : MemoryStore lru.Cache
  bytes : ℤ
  admitted : ℕ
  rejected : ℕ
  held : MemoryCategory → ℤ

def Client.counted (c : Client lru) (budget : MemoryBudget) : Counted lru :=
  ⟨c.store, budget, c.bytes, c.admitted, c.rejected⟩

/-- A budget, what others than stores hold in it, and the stores; `registered` are the
clients of the budget. -/
structure World (lru : LruCache T CacheKey Entry) where
  budget : MemoryBudget
  others : MemoryCategory → ℕ
  clients : ℕ → Client lru
  count : ℕ
  registered : List ℕ
  cursor : ℕ

namespace World

variable (lru) in
def init (hardCap : ℕ) : World lru :=
  ⟨⟨hardCap, hardCap, 0, fun _ => 0, .normal⟩, fun _ => 0,
    fun _ => ⟨{}, ⟨none, none, 0, 0⟩, 0, 0, 0, fun _ => 0⟩, 0, [], 0⟩

/-- A call of the `i`-th store. -/
def on (w : World lru) (i : ℕ) (op : Op T) : World lru :=
  let c := w.clients i
  let s := op.run c.options (c.counted w.budget)
  { w with
    budget := s.budget
    clients := Function.update w.clients i ⟨c.options, s.store, s.bytes, s.admitted, s.rejected,
      fun k => c.held k + ((s.budget.categories k : ℤ) - w.budget.categories k)⟩ }

/-- The constructor: it rejects bounds that are not positive. -/
def create (w : World lru) (o : MemoryStoreOptions) : World lru :=
  if o.maxEntries = 0 ∨ o.maxEntryBytes = some 0 then w
  else
    let budget := w.budget.reserve historyBytes .metadata
    let history := if w.budget.admits historyBytes then some fun _ => 0 else none
    { w with
      budget := budget
      clients := Function.update w.clients w.count ⟨o, ⟨some (lru.make o.maxEntries), history, 0, 0⟩,
        0, 0, 0, fun k => (budget.categories k : ℤ) - w.budget.categories k⟩
      count := w.count + 1
      registered := w.registered ++ [w.count] }

/-- The clients are asked in turn. -/
def evictBounded : ℕ → World lru → World lru
  | 0, w => w
  | max + 1, w =>
    if w.budget.used ≤ w.budget.target then w
    else
      match w.registered[w.cursor % w.registered.length]? with
      | none => w
      | some i => evictBounded max { w.on i .evictOne with cursor := w.cursor + 1 }

/-- `sample()`; what the signals of the machine make of the target is left open. -/
def sample (w : World lru) (target : ℕ) (state : PressureState) : World lru :=
  evictBounded 32 { w with budget := { w.budget with target := target, state := state } }

/-- What users of the budget other than stores do. -/
def foreign (w : World lru) (f : Foreign) : World lru :=
  let l := Ledger.foreign ⟨w.budget, w.others⟩ f
  { w with budget := l.budget, others := l.others }

end World

/-- A call, after which a closed store is no client any more. -/
def World.call (w : World lru) (i : ℕ) (op : Op T) : World lru :=
  { w.on i op with
    registered := match op with
      | .close => w.registered.erase i
      | _ => w.registered }

inductive Event (T : Type)
  | create (o : MemoryStoreOptions)
  | call (i : ℕ) (op : Op T)
  | sample (target : ℕ) (state : PressureState)
  | foreign (f : Foreign)
  /-- `MemoryBudget.close()` -/
  | closeBudget

def World.step (w : World lru) : Event T → World lru
  | .create o => w.create o
  | .call i op => if i < w.count then w.call i op else w
  | .sample target state => w.sample target state
  | .foreign f => w.foreign f
  | .closeBudget => { w with registered := [] }

/-! ### Every store keeps its books -/

/-- The bytes of the resident entries. -/
def Client.residentBytes (c : Client lru) : ℕ := Counted.residentBytes c.store

/-- What the store has a right to in the ledger. -/
def Client.holds (c : Client lru) : MemoryCategory → ℕ :=
  Counted.holds c.residentBytes c.store.history.isSome

/-- A store whose counter and whose holdings are those of its entries. -/
structure Sound (c : Client lru) : Prop where
  bytes : c.bytes = c.residentBytes
  held : ∀ k, c.held k = c.holds k
  bound : ∀ cache, c.store.cache = some cache → lru.maxSize cache = c.options.maxEntries
  closed : c.store.cache = none → c.store.history = none
  positive : 0 < c.options.maxEntries

/-- The ledger holds what the stores hold, and what others hold. -/
structure Inv (w : World lru) : Prop where
  shared : Shared w.budget w.others fun k => tally (fun c => Client.holds c k) w.clients w.count
  sound : ∀ i < w.count, Sound (w.clients i)
  registered : ∀ i ∈ w.registered, i < w.count

variable {w : World lru}

/-- What the ledger holds for others than the `i`-th store. -/
def rest (w : World lru) (i : ℕ) (k : MemoryCategory) : ℕ :=
  w.others k + (tally (fun c => Client.holds c k) w.clients w.count - (w.clients i).holds k)

omit [LinearOrder T] [Zero T] in
theorem Inv.books (h : Inv w) {i : ℕ} (hi : i < w.count) :
    Counted.Books (rest w i) (w.clients i).options 0 ((w.clients i).counted w.budget) := by
  have hsound := h.sound i hi
  refine ⟨⟨h.shared.used, fun k => ?_⟩, hsound.bytes, hsound.bound, hsound.closed⟩
  have hle := le_tally (fun c : Client lru => c.holds k) w.clients hi
  show w.budget.categories k = rest w i k + (w.clients i).holds k
  rw [h.shared.share k, rest]
  omega

/-- A call changes the share of one store, and the ledger with it. -/
theorem inv_on (hlru : lru.Disposing) (h : Inv w) {i : ℕ} (hi : i < w.count) (op : Op T) :
    Inv (w.on i op) := by
  have hsound := h.sound i hi
  have hbefore := h.books hi
  have hafter := hbefore.run hlru hsound.positive op
  rw [World.on]
  generalize op.run (w.clients i).options ((w.clients i).counted w.budget) = s at hafter
  refine ⟨⟨hafter.shared.used, fun k => ?_⟩, fun j hj => ?_, h.registered⟩
  · have hle := le_tally (fun c : Client lru => c.holds k) w.clients hi
    have htally := tally_update (fun c : Client lru => c.holds k) w.clients hi
      ⟨(w.clients i).options, s.store, s.bytes, s.admitted, s.rejected,
        fun k => (w.clients i).held k + ((s.budget.categories k : ℤ) - w.budget.categories k)⟩
    have hshare : s.budget.categories k = rest w i k +
        Counted.holds (Counted.residentBytes s.store) s.store.history.isSome k :=
      hafter.shared.share k
    have hnew : (⟨(w.clients i).options, s.store, s.bytes, s.admitted, s.rejected, fun k =>
        (w.clients i).held k + ((s.budget.categories k : ℤ) - w.budget.categories k)⟩ :
        Client lru).holds k =
          Counted.holds (Counted.residentBytes s.store) s.store.history.isSome k := rfl
    rw [rest, ← hnew] at hshare
    dsimp only at htally hle ⊢
    omega
  · by_cases hji : j = i
    · subst hji
      dsimp only
      rw [Function.update_self]
      refine ⟨hafter.bytes, fun k => ?_, hafter.bound, hafter.closed, hsound.positive⟩
      have hshare : s.budget.categories k = rest w j k +
          Counted.holds (Counted.residentBytes s.store) s.store.history.isSome k :=
        hafter.shared.share k
      have hshare' : w.budget.categories k = rest w j k + (w.clients j).holds k :=
        hbefore.shared.share k
      have hheld := hsound.held k
      show (w.clients j).held k + ((s.budget.categories k : ℤ) - w.budget.categories k) =
        Counted.holds (Counted.residentBytes s.store) s.store.history.isSome k
      omega
    · dsimp only
      rw [Function.update_of_ne hji]
      exact h.sound j hj

/-- A new store has no entry, and a history if its bytes could be reserved. -/
theorem shared_create {b : MemoryBudget} {f g : MemoryCategory → ℕ} (h : Shared b f g) :
    Shared (b.reserve historyBytes .metadata) f fun k =>
      g k + Counted.holds 0 (b.admits historyBytes) k := by
  by_cases hadmits : b.admits historyBytes = true
  · have hreserve : Shared (b.reserve historyBytes .metadata) f
        (Function.update g .metadata (g .metadata + historyBytes)) := h.reserve hadmits
    have heq : Function.update g .metadata (g .metadata + historyBytes) =
        fun k => g k + Counted.holds 0 true k := by
      funext k
      cases k <;> rfl
    rwa [hadmits, ← heq]
  · have heq : g = fun k => g k + Counted.holds 0 false k := by
      funext k
      cases k <;> rfl
    rw [Bool.not_eq_true] at hadmits
    rw [hadmits, ← heq, MemoryBudget.reserve, hadmits, if_neg Bool.false_ne_true]
    exact h

omit [LinearOrder T] [Zero T] in
theorem inv_create (hlru : lru.Disposing) (h : Inv w) (o : MemoryStoreOptions) :
    Inv (w.create o) := by
  rw [World.create]
  split
  · exact h
  next hvalid =>
  have hpositive : 0 < o.maxEntries := Nat.pos_of_ne_zero fun hzero => hvalid (.inl hzero)
  have hshared := shared_create h.shared
  -- what the new store has a right to
  have hbytes : ∀ history held, (⟨o, ⟨some (lru.make o.maxEntries), history, 0, 0⟩, 0, 0, 0, held⟩ :
      Client lru).residentBytes = 0 := by
    intro history held
    rw [Client.residentBytes, Counted.residentBytes, Option.elim_some, hlru.values_make]
    rfl
  have hholds : ∀ held, (⟨o, ⟨some (lru.make o.maxEntries),
      if w.budget.admits historyBytes then some fun _ => 0 else none, 0, 0⟩, 0, 0, 0, held⟩ :
      Client lru).holds = Counted.holds 0 (w.budget.admits historyBytes) := by
    intro held
    rw [Client.holds, hbytes]
    cases w.budget.admits historyBytes <;> rfl
  refine ⟨⟨hshared.used, fun k => ?_⟩, fun j hj => ?_, fun j hj => ?_⟩
  · rw [tally_alloc, hholds]
    exact hshared.share k
  · by_cases hjn : j = w.count
    · subst hjn
      dsimp only
      rw [Function.update_self]
      refine ⟨?_, fun k => ?_, fun cache hcache => ?_, nofun, hpositive⟩
      · rw [hbytes]
        rfl
      · have hbefore := h.shared.share k
        have hafter := hshared.share k
        rw [hholds]
        dsimp only at hafter ⊢
        omega
      · rw [← Option.some.inj hcache, hlru.maxSize_make]
    · dsimp only
      rw [Function.update_of_ne hjn]
      have hj : j < w.count + 1 := hj
      exact h.sound j (by omega)
  · rcases List.mem_append.mp hj with hold | hnew
    · exact Nat.lt_succ_of_lt (h.registered j hold)
    · rw [List.mem_singleton.mp hnew]
      exact Nat.lt_succ_self _

theorem inv_evictBounded (hlru : lru.Disposing) (max : ℕ) (h : Inv w) : Inv (w.evictBounded max) := by
  induction max generalizing w with
  | zero => exact h
  | succ max ih =>
    rw [World.evictBounded]
    split
    · exact h
    · split
      · exact h
      · next i hi =>
        have hon := inv_on hlru h (h.registered i (List.mem_of_getElem? hi)) .evictOne
        exact ih ⟨hon.shared, hon.sound, hon.registered⟩

omit [LinearOrder T] [Zero T] in
theorem inv_foreign (h : Inv w) (f : Foreign) : Inv (w.foreign f) :=
  ⟨Balanced.foreign (l := ⟨w.budget, w.others⟩) h.shared f, h.sound, h.registered⟩

theorem inv_step (hlru : lru.Disposing) (h : Inv w) (e : Event T) : Inv (w.step e) := by
  cases e with
  | create o => exact inv_create hlru h o
  | call i op =>
    rw [World.step]
    split
    · next hi =>
      have hon := inv_on hlru h hi op
      refine ⟨hon.shared, hon.sound, fun j hj => ?_⟩
      rw [World.call.eq_def] at hj
      dsimp only at hj
      split at hj
      · exact h.registered j (List.mem_of_mem_erase hj)
      · exact h.registered j hj
    · exact h
  | sample target state =>
    exact inv_evictBounded hlru 32 ⟨⟨h.shared.used, h.shared.share⟩, h.sound, h.registered⟩
  | foreign f => exact inv_foreign h f
  | closeBudget => exact ⟨h.shared, h.sound, nofun⟩

omit [LinearOrder T] [Zero T] in
theorem inv_init (hardCap : ℕ) : Inv (World.init lru hardCap) := by
  refine ⟨⟨?_, fun _ => rfl⟩, nofun, nofun⟩
  exact (Finset.sum_const_zero (s := Finset.univ)).symm

/-! ### Admissions leave room -/

theorem admitted_evictBounded (max i : ℕ) (w : World lru) :
    ((w.evictBounded max).clients i).admitted = (w.clients i).admitted := by
  induction max generalizing w with
  | zero => rfl
  | succ max ih =>
    rw [World.evictBounded]
    split
    · rfl
    · split
      · rfl
      · next k hk =>
        rw [ih]
        show ((w.on k .evictOne).clients i).admitted = _
        by_cases hik : i = k
        · subst hik
          rw [World.on]
          dsimp only
          rw [Function.update_self]
          exact (Counted.shrinks_call _ _).admitted
        · rw [World.on]
          dsimp only
          rw [Function.update_of_ne hik]

/-- A store that has admitted an entry leaves the ledger within its target. -/
theorem fits_on {i j : ℕ} {op : Op T}
    (hadmitted : ((w.on j op).clients i).admitted ≠ (w.clients i).admitted) :
    (w.on j op).budget.used ≤ (w.on j op).budget.target := by
  rw [World.on] at hadmitted ⊢
  dsimp only at hadmitted ⊢
  by_cases hij : i = j
  · subst hij
    rw [Function.update_self] at hadmitted
    exact Counted.fits_run hadmitted
  · rw [Function.update_of_ne hij] at hadmitted
    exact absurd rfl hadmitted

theorem fits_step {i : ℕ} (hi : i < w.count) {e : Event T}
    (hadmitted : ((w.step e).clients i).admitted ≠ (w.clients i).admitted) :
    (w.step e).budget.used ≤ (w.step e).budget.target := by
  cases e with
  | create o =>
    rw [World.step, World.create] at hadmitted
    split at hadmitted
    · exact absurd rfl hadmitted
    · dsimp only at hadmitted
      rw [Function.update_of_ne (Nat.ne_of_lt hi)] at hadmitted
      exact absurd rfl hadmitted
  | call j op =>
    rw [World.step] at hadmitted ⊢
    split
    · next hj =>
      rw [if_pos hj] at hadmitted
      exact fits_on hadmitted
    · next hj =>
      rw [if_neg hj] at hadmitted
      exact absurd rfl hadmitted
  | sample target state => exact absurd (admitted_evictBounded 32 i _) hadmitted
  | foreign f => exact absurd rfl hadmitted
  | closeBudget => exact absurd rfl hadmitted

/-! ### Runs -/

variable (lru) (hardCap : ℕ) (events : List (Event T))

/-- The world before the `n`-th event. -/
def world (n : ℕ) : World lru := stateAt World.step (World.init lru hardCap) events n

theorem inv_world (hlru : lru.Disposing) (n : ℕ) : Inv (world lru hardCap events n) :=
  invariant (inv_init hardCap) (fun _ e h => inv_step hlru h e) n

/-- **Byte accounting.**  Over every LRU that disposes of what leaves it and keeps to its size:
every store counts the bytes of its resident entries, and holds as many in the ledger; it
keeps to its bound; once closed it holds nothing; an admission leaves the ledger within its
target. -/
theorem byte_accounting (hlru : lru.Disposing) (n i : ℕ)
    (hi : i < (world lru hardCap events n).count) :
    ((world lru hardCap events n).clients i).bytes =
        ((world lru hardCap events n).clients i).residentBytes ∧
      ((world lru hardCap events n).clients i).held .fresh =
        ((world lru hardCap events n).clients i).bytes ∧
      (∀ cache, ((world lru hardCap events n).clients i).store.cache = some cache →
        lru.size cache ≤ ((world lru hardCap events n).clients i).options.maxEntries) ∧
      (((world lru hardCap events n).clients i).store.cache = none →
        ∀ k, ((world lru hardCap events n).clients i).held k = 0) ∧
      (((world lru hardCap events (n + 1)).clients i).admitted ≠
          ((world lru hardCap events n).clients i).admitted →
        (world lru hardCap events (n + 1)).budget.used ≤
          (world lru hardCap events (n + 1)).budget.target) := by
  have hinv := inv_world lru hardCap events hlru n
  have hsound := hinv.sound i hi
  refine ⟨hsound.bytes, ?_, fun cache hcache => ?_, fun hclosed k => ?_, fun hadmitted => ?_⟩
  · rw [hsound.held .fresh, hsound.bytes]
    rfl
  · rw [← hsound.bound cache hcache]
    exact hlru.size_le cache
  · rw [hsound.held k, Client.holds, Client.residentBytes, Counted.residentBytes, hclosed,
      hsound.closed hclosed]
    cases k <;> rfl
  · rcases hevent : events[n]? with _ | e
    · -- the run is over
      rw [world, world, stateAt_succ_of_none hevent] at hadmitted
      exact absurd rfl hadmitted
    · rw [world, stateAt_succ hevent] at hadmitted ⊢
      exact fits_step hi hadmitted

end Store

/-- A store is created, filled and closed. -/
def fillAndClose : List (Event ℕ) :=
  [.create {}, .call 0 (.setEncoded 0 (.ofString (str "a")) [1, 2, 3] 1000 true), .call 0 .close]

theorem byte_accounting_fillAndClose : 0 < (world mapLru 100000 fillAndClose 2).count ∧
    ((world mapLru 100000 fillAndClose 2).clients 0).bytes = 165 ∧
    ((world mapLru 100000 fillAndClose 2).clients 0).held .fresh =
      ((world mapLru 100000 fillAndClose 2).clients 0).bytes ∧
    (world mapLru 100000 fillAndClose 3).budget.used = 0 :=
  ⟨by decide, by decide,
    (byte_accounting mapLru 100000 fillAndClose disposing_mapLru 2 0 (by decide)).2.1, by decide⟩

end MemoryStore
