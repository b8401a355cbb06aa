/-
The coordination ledgers of a `HybridCache` (`hybridCache.ts`).

Next to each of its maps the cache keeps the bytes that it has charged for the entries,
and reserves them in the shared budget.  The clock is read many times within one call, so
a run is taken apart into the synchronous pieces between two readings: any piece of any
call may come next, and time may pass before it.

* `Exact` — every counter is the sum of the charges of its map, every tracked revision
  counts its guards, and the budget holds what the counters say;
* `exact_apply` — every action of a call keeps the ledgers exact, except that a load
  must not be registered over another one;
* `State.startLoad` — `getOrSet` prunes the load of a key by one reading of the clock and
  ignores it by another, so a load that expires in between is overwritten;
* `ledgers_exact` — without such a coincidence the ledgers are exact in every run, and
  `overwritingRun_leaks` is a run with one.
-/
import LazyLayers.Runs
import LazyLayers.ChargedMap
import LazyLayers.MemoryLedger
import LazyLayers.HybridPrograms

open Js Runs Finset HybridCache MemoryLedger JsMap

namespace HybridLedgers

/-! ### Pieces of calls -/

variable {V : Type} (cfg : Config V)

/-- A guard that has not been released: its key and its revision object. -/
abbrev Guard := CacheKey × ℕ

/-- The guard that `observeKey` hands out. -/
def guardOf (s : State V) (key : CacheKey) : Guard := (key, (s.cellFor key).1)

/-- `getOrSet` from `pruneInflightKey(key)` to its return.  The clock is read when the load
of the key is pruned, when what is left is looked at, and when the new load is entered. -/
def startLoad (s : State V) (key : CacheKey) (o : HybridCache.Options) (pause₁ pause₂ : ℕ) :
    State V :=
  let s := if (s.inflight.get key).any fun e => e.expiresAt ≤ s.now then s.removeInflight key else s
  let s := { s with now := s.now + pause₁ }
  -- a live load is joined
  if (s.inflight.get key).any fun e => s.now < e.expiresAt then s
  else if s.canTrackInflight key cfg.options then
    State.trackInflight { s with now := s.now + pause₂ } key o
  else s

/-- Whether `rememberStale` returns before it has changed anything. -/
def skipsStale (s : State V) (o : HybridCache.Options) : Bool :=
  s.closed || !s.versionedCacheSafe cfg || !o.failSafe || o.staleTtlMs = 0

/-- Whether `rememberStale` has reserved the bytes of its copy. -/
def copiesStale (s : State V) (key : CacheKey) (encoded : Octets) (o : HybridCache.Options) :
    Bool :=
  let bytes := encoded.length + key.byteLength * 2 + 80
  !(o.staleMaxEntries = 0 ∨ o.staleMaxBytes = 0 ∨ bytes > o.staleMaxBytes ∨
    !(s.removeStale key).admits bytes)

/-- `rememberStale` when `Buffer.allocUnsafeSlow` throws. -/
def rememberStaleThrows (s : State V) (key : CacheKey) (encoded : Octets)
    (o : HybridCache.Options) : State V :=
  if skipsStale cfg s o then s
  else if copiesStale s key encoded o then
    (s.removeStale key).reserve (encoded.length + key.byteLength * 2 + 80) .stale
  else s.removeStale key

/-- A cache, the guards that are out, what others hold in the budget, and what the cache
itself has added to each category, less what it has taken back. -/
structure World (V : Type) where
  state : State V
  guards : List Guard
  others : MemoryCategory → ℕ
  held : MemoryCategory → ℤ

/-- A new cache with a new budget. -/
def World.create (hardCap : ℕ) (history : Option (ℕ → ℕ)) (l2 : JsMap JsString (L2Entry V)) :
    World V :=
  ⟨State.create cfg ⟨hardCap, hardCap, 0, fun _ => 0, .normal⟩ history l2, [], fun _ => 0,
    fun _ => 0⟩

/-- The cache does something. -/
def World.own (w : World V) (state : State V) (guards : List Guard) : World V :=
  { w with
    state := state
    guards := guards
    held := fun k => w.held k +
      ((state.mem.budget.categories k : ℤ) - w.state.mem.budget.categories k) }

/-- Others do something. -/
def World.foreign (w : World V) (f : Foreign) : World V :=
  let l := Ledger.foreign ⟨w.state.mem.budget, w.others⟩ f
  { w with
    state := { w.state with mem := { w.state.mem with budget := l.budget } }
    others := l.others }

/-- Guards are released once, and so is the charge of a follower.  A load is registered by
`startLoad` only, and the cache stays open. -/
def World.allows (w : World V) : Act V → Bool
  | .releaseKey g => (g.key, g.cell) ∈ w.guards
  | .follow _ _ => w.state.admits followerMetadataBytes
  | .unfollow => 0 < w.state.activeFollowers
  | .trackInflight _ _ _ | .close => false
  | _ => true

def World.guardsAfter (w : World V) : Act V → List Guard
  | .observeKey _ g _ | .invalidateKey g _ => guardOf w.state g.key :: w.guards
  | .releaseKey g => w.guards.erase (g.key, g.cell)
  | _ => w.guards

/-- The pieces come in any order; among them is the passing of time. -/
inductive Event (V : Type)
  | act (a : Act V)
  | env (e : Env V)
  | startLoad (key : CacheKey) (o : HybridCache.Options) (pause₁ pause₂ : ℕ)
  | rememberStaleThrows (key : CacheKey) (encoded : Octets) (o : HybridCache.Options)
  | foreign (f : Foreign)

def World.step (w : World V) : Event V → World V
  | .act a => if w.allows a then w.own (a.apply cfg w.state) (w.guardsAfter a) else w
  | .env e =>
    match e with
    -- what happens to the budget is what its users do
    | .ledger _ => w
    | e => w.own (e.apply w.state) w.guards
  | .startLoad key o pause₁ pause₂ => w.own (startLoad cfg w.state key o pause₁ pause₂) w.guards
  | .rememberStaleThrows key encoded o =>
    w.own (rememberStaleThrows cfg w.state key encoded o) w.guards
  | .foreign f => w.foreign f

/-- No load expires between the two looks at it, unless there is no room for another one,
and there is memory for every copy. -/
def Steady (s : State V) : Event V → Prop
  | .startLoad key _ pause₁ _ => ∀ e, s.inflight.get key = some e → s.now < e.expiresAt →
    s.now + pause₁ < e.expiresAt ∨ s.canTrackInflight key cfg.options = false
  | .rememberStaleThrows key encoded o =>
    skipsStale cfg s o = true ∨ copiesStale s key encoded o = false
  | _ => True

/-- The ledgers of the cache agree with its maps, its guards and its followers. -/
structure Contract (w : World V) : Prop where
  inflight : w.state.inflightBytes = (w.state.inflight.map fun e => e.2.bytes).sum
  negative : w.state.negativeBytes = (w.state.negative.map fun e => e.2.bytes).sum
  generations : w.state.generationBytes = (w.state.generations.map fun e => keyMetadataBytes e.1).sum
  seenEvents : w.state.seenEventBytes = (w.state.seenEvents.map fun e => keyMetadataBytes e.1).sum
  keyRevisions : w.state.keyRevisionBytes =
    (w.state.keyRevisions.map fun e => (w.state.cells e.2).bytes).sum
  stale : w.state.staleBytes = (w.state.stale.map fun e => e.2.bytes).sum
  bounded : w.state.inflightBytes ≤ 2097152 ∧ w.state.negativeBytes ≤ 2097152 ∧
    w.state.generationBytes ≤ 2097152 ∧ w.state.seenEventBytes ≤ 2097152 ∧
    w.state.keyRevisionBytes ≤ 2097152
  references : ∀ cell < w.state.nextCell, (w.state.cells cell).registered = true →
    (w.state.cells cell).references = (w.guards.countP fun g => g.2 = cell) ∧
      0 < (w.state.cells cell).references
  coordination : w.held .coordinationMetadata =
    ((w.state.inflight.map fun e => e.2.bytes).sum + (w.state.negative.map fun e => e.2.bytes).sum +
      (w.state.generations.map fun e => keyMetadataBytes e.1).sum +
      (w.state.seenEvents.map fun e => keyMetadataBytes e.1).sum +
      (w.state.keyRevisions.map fun e => (w.state.cells e.2).bytes).sum +
      followerMetadataBytes * w.state.activeFollowers : ℕ)
  staleHeld : w.held .stale = ((w.state.stale.map fun e => e.2.bytes).sum : ℕ)

/-! ### The share of the cache in the budget -/

/-- Besides what others hold, the budget holds `coordination` and `stale` bytes of the
cache. -/
structure Owned (b : MemoryBudget) (others : MemoryCategory → ℕ) (coordination stale : ℕ) :
    Prop where
  used : b.used = ∑ c, b.categories c
  coordination : b.categories .coordinationMetadata = others .coordinationMetadata + coordination
  stale : b.categories .stale = others .stale + stale

variable {b : MemoryBudget} {others : MemoryCategory → ℕ} {coordination stale bytes : ℕ}
  {category : MemoryCategory}

theorem Owned.congr (h : Owned b others coordination stale) {coordination' stale' : ℕ}
    (hcoordination : coordination' = coordination) (hstale : stale' = stale) :
    Owned b others coordination' stale' := by
  rw [hcoordination, hstale]
  exact h

theorem Owned.reserve_coordination (h : Owned b others coordination stale)
    (hadmits : b.admits bytes = true) :
    Owned (b.reserve bytes .coordinationMetadata) others (coordination + bytes) stale := by
  obtain ⟨hcategories, hused⟩ := reserve_exact h.used hadmits .coordinationMetadata
  refine ⟨hused, ?_, ?_⟩
  · rw [hcategories, Function.update_self, h.coordination, Nat.add_assoc]
  · rw [hcategories, Function.update_of_ne (by decide), h.stale]

theorem Owned.release_coordination (h : Owned b others coordination stale)
    (hbytes : bytes ≤ coordination) :
    Owned (b.release bytes .coordinationMetadata) others (coordination - bytes) stale := by
  have hle : bytes ≤ b.categories .coordinationMetadata := by
    rw [h.coordination]
    omega
  obtain ⟨hcategories, hused⟩ := release_exact h.used hle
  refine ⟨hused, ?_, ?_⟩
  · rw [hcategories, Function.update_self, h.coordination]
    omega
  · rw [hcategories, Function.update_of_ne (by decide), h.stale]

theorem Owned.reserve_stale (h : Owned b others coordination stale)
    (hadmits : b.admits bytes = true) :
    Owned (b.reserve bytes .stale) others coordination (stale + bytes) := by
  obtain ⟨hcategories, hused⟩ := reserve_exact h.used hadmits .stale
  refine ⟨hused, ?_, ?_⟩
  · rw [hcategories, Function.update_of_ne (by decide), h.coordination]
  · rw [hcategories, Function.update_self, h.stale, Nat.add_assoc]

theorem Owned.release_stale (h : Owned b others coordination stale) (hbytes : bytes ≤ stale) :
    Owned (b.release bytes .stale) others coordination (stale - bytes) := by
  have hle : bytes ≤ b.categories .stale := by
    rw [h.stale]
    omega
  obtain ⟨hcategories, hused⟩ := release_exact h.used hle
  refine ⟨hused, ?_, ?_⟩
  · rw [hcategories, Function.update_of_ne (by decide), h.coordination]
  · rw [hcategories, Function.update_self, h.stale]
    omega

/-- The other categories are no concern of these ledgers. -/
def Apart (category : MemoryCategory) : Prop :=
  category ≠ .coordinationMetadata ∧ category ≠ .stale

theorem Owned.reserve (h : Owned b others coordination stale) (bytes : ℕ)
    (hapart : Apart category) : Owned (b.reserve bytes category) others coordination stale := by
  by_cases hadmits : b.admits bytes = true
  · obtain ⟨hcategories, hused⟩ := reserve_exact h.used hadmits category
    refine ⟨hused, ?_, ?_⟩
    · rw [hcategories, Function.update_of_ne hapart.1.symm, h.coordination]
    · rw [hcategories, Function.update_of_ne hapart.2.symm, h.stale]
  · rw [MemoryBudget.reserve, if_neg hadmits]
    exact h

/-- A release of more than there is is cut down, and takes from nobody else. -/
theorem release_min (b : MemoryBudget) (bytes : ℕ) (category : MemoryCategory) :
    b.release bytes category = b.release (min bytes (b.categories category)) category := by
  have hmin : min (min bytes (b.categories category)) b.used =
      min (min (min bytes (b.categories category)) (b.categories category)) b.used := by omega
  rw [MemoryBudget.release, MemoryBudget.release, ← hmin]

theorem Owned.release (h : Owned b others coordination stale) (bytes : ℕ)
    (hapart : Apart category) : Owned (b.release bytes category) others coordination stale := by
  obtain ⟨hcategories, hused⟩ := release_exact h.used (Nat.min_le_right bytes (b.categories category))
  rw [release_min]
  refine ⟨hused, ?_, ?_⟩
  · rw [hcategories, Function.update_of_ne hapart.1.symm, h.coordination]
  · rw [hcategories, Function.update_of_ne hapart.2.symm, h.stale]

theorem apart_fresh : Apart .fresh := ⟨nofun, nofun⟩

theorem apart_queue : Apart .queue := ⟨nofun, nofun⟩

/-! ### The L1 keeps to its own category -/

/-- Whatever the cache owns in `m.budget` it owns in `m'.budget`. -/
def Keeps (m' m : MemoryStore.Mem) : Prop :=
  ∀ others coordination stale, Owned m.budget others coordination stale →
    Owned m'.budget others coordination stale

variable (m : MemoryStore.Mem)

theorem Keeps.trans {m m' m'' : MemoryStore.Mem} (h : Keeps m'' m') (h' : Keeps m' m) :
    Keeps m'' m :=
  fun others coordination stale hm => h others coordination stale (h' others coordination stale hm)

theorem keeps_remove (key : CacheKey) : Keeps (m.remove key) m := by
  intro others coordination stale hm
  rw [MemoryStore.Mem.remove]
  split
  · exact hm
  · split
    · exact hm
    · exact hm.release _ apart_fresh

theorem keeps_pop : Keeps m.pop m := by
  rw [MemoryStore.Mem.pop]
  split
  · exact keeps_remove m _
  · exact fun _ _ _ hm => hm

theorem keeps_foldl_pop (l : List ℕ) : Keeps (l.foldl (fun m _ => m.pop) m) m := by
  induction l generalizing m with
  | nil => exact fun _ _ _ hm => hm
  | cons _ l ih => exact (ih m.pop).trans (keeps_pop m)

theorem keeps_foldl_remove (keys : List CacheKey) :
    Keeps (keys.foldl MemoryStore.Mem.remove m) m := by
  induction keys generalizing m with
  | nil => exact fun _ _ _ hm => hm
  | cons key keys ih => exact (ih (m.remove key)).trans (keeps_remove m key)

theorem keeps_makeRoom (bytes rounds : ℕ) : Keeps (m.makeRoom bytes rounds).1 m := by
  induction rounds generalizing m with
  | zero => exact fun _ _ _ hm => hm.reserve _ apart_fresh
  | succ rounds ih =>
    rw [MemoryStore.Mem.makeRoom]
    split
    · exact fun _ _ _ hm => hm.reserve _ apart_fresh
    · split
      · exact fun _ _ _ hm => hm
      · exact (ih m.pop).trans (keeps_pop m)

theorem keeps_setEncoded (o : MemoryStoreOptions) (now : ℕ) (key : CacheKey)
    (buffer : List UInt8) (ttlMs : ℕ) : Keeps (m.setEncoded o now key buffer ttlMs) m := by
  have hroom := (keeps_makeRoom (m.remove key) (MemoryStore.entryBytes buffer key)
    maxEvictionsPerWrite).trans (keeps_remove m key)
  rw [MemoryStore.Mem.setEncoded]
  split
  · exact fun _ _ _ hm => hm
  dsimp only
  split
  · exact keeps_remove m key
  split
  · exact fun _ _ _ hm => hm
  split
  · exact ((keeps_foldl_pop _ _).trans (keeps_remove _ key)).trans hroom
  · exact hroom

theorem keeps_touch (now : ℕ) (key : CacheKey) : Keeps (m.touch now key) m := by
  rw [MemoryStore.Mem.touch]
  dsimp only
  rcases (m.store.record key).cache with _ | c
  · exact fun _ _ _ hm => hm
  dsimp only
  rcases c.get key with _ | e
  · exact fun _ _ _ hm => hm
  dsimp only
  split
  · exact fun _ _ _ hm => hm
  · exact keeps_remove ⟨m.store.record key, m.budget⟩ key

theorem keeps_has (now : ℕ) (key : CacheKey) : Keeps (m.has now key).1 m := by
  rw [MemoryStore.Mem.has]
  split
  · exact fun _ _ _ hm => hm
  · exact keeps_remove m key

/-! ### Exact ledgers -/

/-- How many guards are out on a revision. -/
def guardsOn (guards : List Guard) (cell : ℕ) : ℕ := guards.countP fun g => g.2 = cell

/-- Every tracked revision counts the guards on it. -/
structure Revised (cells : ℕ → KeyRevision) (nextCell : ℕ) (keyRevisions : JsMap CacheKey ℕ)
    (guards : List Guard) : Prop where
  tracked : ∀ key cell, keyRevisions.get key = some cell → cell < nextCell ∧
    (cells cell).registered = true ∧ (cells cell).bytes = keyMetadataBytes key.text ∧
    (cells cell).references = guardsOn guards cell ∧ 0 < (cells cell).references
  injective : ∀ key key' cell, keyRevisions.get key = some cell →
    keyRevisions.get key' = some cell → key = key'
  registered : ∀ cell < nextCell, (cells cell).registered = true →
    ∃ key, keyRevisions.get key = some cell
  guarded : ∀ g ∈ guards, g.2 < nextCell ∧
    ((cells g.2).registered = true → keyRevisions.get g.1 = some g.2)

variable {cfg} {s : State V} {guards : List Guard}

/-- What the cache has reserved to coordinate its calls, by its counters. -/
def coordinationBytes (s : State V) : ℕ :=
  s.inflightBytes + s.negativeBytes + s.generationBytes + s.seenEventBytes + s.keyRevisionBytes +
    followerMetadataBytes * s.activeFollowers

/-- The counters are right, and so is the budget. -/
structure Exact (s : State V) (guards : List Guard) (others : MemoryCategory → ℕ) : Prop where
  inflight : Charged s.inflight (fun e => e.2.bytes) s.inflightBytes
  negative : Charged s.negative (fun e => e.2.bytes) s.negativeBytes
  generations : Charged s.generations (fun e => keyMetadataBytes e.1) s.generationBytes
  seenEvents : Charged s.seenEvents (fun e => keyMetadataBytes e.1) s.seenEventBytes
  keyRevisions : Charged s.keyRevisions (fun e => keyMetadataBytes e.1.text) s.keyRevisionBytes
  stale : Charged s.stale (fun e => e.2.bytes) s.staleBytes
  inflight_le : s.inflightBytes ≤ maxAuxiliaryMapBytes
  negative_le : s.negativeBytes ≤ maxAuxiliaryMapBytes
  generation_le : s.generationBytes ≤ maxAuxiliaryMapBytes
  seenEvent_le : s.seenEventBytes ≤ maxAuxiliaryMapBytes
  keyRevision_le : s.keyRevisionBytes ≤ maxAuxiliaryMapBytes
  revised : Revised s.cells s.nextCell s.keyRevisions guards
  owned : Owned s.mem.budget others (coordinationBytes s) s.staleBytes

/-- Nothing of this depends on the clock, on the entries of the L1, or on what others know. -/
theorem Exact.keeps (h : Exact s guards others) {mem : MemoryStore.Mem} (hkeeps : Keeps mem s.mem) :
    Exact { s with mem := mem } guards others :=
  { h with owned := hkeeps _ _ _ h.owned }

/-! ### Entries that leave -/

theorem exact_removeInflight (h : Exact s guards others) (key : CacheKey) :
    Exact (s.removeInflight key) guards others := by
  rw [State.removeInflight]
  split
  · exact h
  next e hget =>
  have hle : e.bytes ≤ s.inflightBytes := h.inflight.le hget
  have hall : e.bytes ≤ coordinationBytes s := by
    rw [coordinationBytes]
    omega
  refine { h with
    inflight := h.inflight.delete hget
    inflight_le := (Nat.sub_le ..).trans h.inflight_le
    owned := (h.owned.release_coordination hall).congr ?_ rfl }
  simp only [coordinationBytes, State.release]
  omega

theorem exact_removeNegative (h : Exact s guards others) (key : CacheKey) :
    Exact (s.removeNegative key) guards others := by
  rw [State.removeNegative]
  split
  · exact h
  next e hget =>
  have hle : e.bytes ≤ s.negativeBytes := h.negative.le hget
  have hall : e.bytes ≤ coordinationBytes s := by
    rw [coordinationBytes]
    omega
  refine { h with
    negative := h.negative.delete hget
    negative_le := (Nat.sub_le ..).trans h.negative_le
    owned := (h.owned.release_coordination hall).congr ?_ rfl }
  simp only [coordinationBytes, State.release]
  omega

theorem exact_removeSeenEvent (h : Exact s guards others) (id : JsString) :
    Exact (s.removeSeenEvent id) guards others := by
  rw [State.removeSeenEvent]
  split
  case isFalse => exact h
  next hhas =>
  obtain ⟨seenAt, hget⟩ := Option.isSome_iff_exists.mp hhas
  have hle : keyMetadataBytes id ≤ s.seenEventBytes := h.seenEvents.le hget
  have hall : keyMetadataBytes id ≤ coordinationBytes s := by
    rw [coordinationBytes]
    omega
  refine { h with
    seenEvents := h.seenEvents.delete hget
    seenEvent_le := (Nat.sub_le ..).trans h.seenEvent_le
    owned := (h.owned.release_coordination hall).congr ?_ rfl }
  simp only [coordinationBytes, State.release]
  omega

theorem exact_removeStale (h : Exact s guards others) (key : CacheKey) :
    Exact (s.removeStale key) guards others := by
  rw [State.removeStale]
  split
  · exact h
  next e hget =>
  have hle : e.bytes ≤ s.staleBytes := h.stale.le hget
  exact { h with
    stale := h.stale.delete hget
    owned := h.owned.release_stale hle }

theorem exact_evictOneStale (h : Exact s guards others) :
    Exact s.evictOneStale guards others := by
  rw [State.evictOneStale]
  split
  · exact exact_removeStale h _
  · exact h

theorem exact_clearInflight (h : Exact s guards others) :
    Exact s.clearInflight guards others := by
  have hall : s.inflightBytes ≤ coordinationBytes s := by
    rw [coordinationBytes]
    omega
  refine { h with
    inflight := charged_nil _
    inflight_le := Nat.zero_le _
    owned := (h.owned.release_coordination hall).congr ?_ rfl }
  simp only [coordinationBytes, State.clearInflight, State.release]
  omega

theorem exact_clearNegative (h : Exact s guards others) :
    Exact s.clearNegative guards others := by
  have hall : s.negativeBytes ≤ coordinationBytes s := by
    rw [coordinationBytes]
    omega
  refine { h with
    negative := charged_nil _
    negative_le := Nat.zero_le _
    owned := (h.owned.release_coordination hall).congr ?_ rfl }
  simp only [coordinationBytes, State.clearNegative, State.release]
  omega

theorem exact_clearStale (h : Exact s guards others) : Exact s.clearStale guards others :=
  { h with
    stale := charged_nil _
    owned := (h.owned.release_stale le_rfl).congr rfl (Nat.sub_self _).symm }

theorem exact_flushL1 (h : Exact s guards others) : Exact s.flushL1 guards others :=
  h.keeps (keeps_foldl_remove s.mem _)

theorem exact_dropLocal (h : Exact s guards others) : Exact s.dropLocal guards others :=
  exact_flushL1 (exact_clearStale (exact_clearNegative (exact_clearInflight h)))

/-- A field that no ledger reads may change. -/
theorem exact_saturate (h : Exact s guards others) :
    Exact s.saturateGenerationTracking guards others := by
  rw [State.saturateGenerationTracking]
  split
  · exact h
  · exact exact_dropLocal { h with }

/-! ### Entries that are made -/

/-- The oldest entries go while there is no room; in the end there is room, or no entry. -/
theorem exact_trimNegative (full : State V → Bool) (n : ℕ) (h : Exact s guards others) :
    Exact (State.trimNegative full n s) guards others := by
  induction n generalizing s with
  | zero => exact h
  | succ n ih =>
    rw [State.trimNegative]
    split
    · refine ih ?_
      rw [State.dropOldestNegative]
      split
      · exact exact_removeNegative h _
      · exact h
    · exact h

theorem length_dropOldestNegative (h : Exact s guards others) :
    s.dropOldestNegative.negative.length = s.negative.length - 1 := by
  rw [State.dropOldestNegative]
  split
  · next key e rest hnegative =>
    have hget : s.negative.get key = some e := by rw [hnegative, get_cons, if_pos rfl]
    have hlength := length_delete h.negative.nodup hget
    rw [State.removeNegative, hget]
    show (JsMap.delete s.negative key).length = _
    omega
  · next hnegative => rw [hnegative]; rfl

theorem trimNegative_room (full : State V → Bool) (n : ℕ) (h : Exact s guards others)
    (hn : s.negative.length ≤ n) : full (State.trimNegative full n s) = false ∨
      (State.trimNegative full n s).negative = [] := by
  induction n generalizing s with
  | zero => exact .inr (List.length_eq_zero_iff.mp (Nat.le_zero.mp hn))
  | succ n ih =>
    rw [State.trimNegative]
    split
    · have hdropped := exact_trimNegative (fun _ => true) 1 h
      have hlength := length_dropOldestNegative h
      exact ih hdropped (by
        show s.dropOldestNegative.negative.length ≤ n
        omega)
    · next hfull => exact .inl (Bool.eq_false_iff.mpr hfull)

theorem get_removeNegative (key : CacheKey) : (s.removeNegative key).negative.get key = none := by
  rw [State.removeNegative]
  split
  · next hnone => exact hnone
  · exact get_delete_self s.negative key

theorem trimNegative_none {key : CacheKey} (full : State V → Bool) (n : ℕ)
    (hnone : s.negative.get key = none) :
    (State.trimNegative full n s).negative.get key = none := by
  induction n generalizing s with
  | zero => exact hnone
  | succ n ih =>
    rw [State.trimNegative]
    split
    · refine ih ?_
      rw [State.dropOldestNegative]
      split
      · rw [State.removeNegative]
        split
        · exact hnone
        · next key' _ _ _ _ e he =>
          rcases hkey : (JsMap.delete s.negative key').get key with _ | e'
          · rfl
          · rw [delete_sub _ _ _ _ hkey] at hnone
            cases hnone
      · exact hnone
    · exact hnone

/-- A new charge is covered by the budget. -/
theorem exact_insertNegative (h : Exact s guards others) {key : CacheKey} {bytes : ℕ}
    (hnone : s.negative.get key = none) (hroom : s.negativeBytes + bytes ≤ maxAuxiliaryMapBytes)
    (hadmits : s.admits bytes = true) (expiresAt : ℕ) :
    Exact { s.reserve bytes .coordinationMetadata with
      negative := s.negative.set key ⟨expiresAt, bytes⟩
      negativeBytes := s.negativeBytes + bytes } guards others := by
  refine { h with
    negative := h.negative.insert hnone ⟨expiresAt, bytes⟩
    negative_le := hroom
    owned := (h.owned.reserve_coordination hadmits).congr ?_ rfl }
  simp only [coordinationBytes, State.reserve]
  omega

theorem exact_setNegative (h : Exact s guards others) (key : CacheKey) (o : HybridCache.Options) :
    Exact (s.setNegative cfg key o) guards others := by
  rw [State.setNegative]
  split
  · exact h
  have htrim := exact_trimNegative (fun s => s.negative.length ≥ o.negativeMaxEntries)
    s.negative.length h
  dsimp only
  generalize State.trimNegative (fun s => decide (s.negative.length ≥ o.negativeMaxEntries))
    s.negative.length s = s₁ at htrim
  split
  · exact htrim
  next hsmall =>
  have hremoved := exact_removeNegative htrim key
  have hnone₁ : (s₁.removeNegative key).negative.get key = none := get_removeNegative key
  generalize s₁.removeNegative key = s₂ at hremoved hnone₁
  have htrim₂ := exact_trimNegative
    (fun s => s.negativeBytes + keyMetadataBytes key.text > maxAuxiliaryMapBytes)
    s₂.negative.length hremoved
  have hnone₂ := trimNegative_none
    (fun s => s.negativeBytes + keyMetadataBytes key.text > maxAuxiliaryMapBytes)
    s₂.negative.length hnone₁
  have hroom := trimNegative_room
    (fun s => s.negativeBytes + keyMetadataBytes key.text > maxAuxiliaryMapBytes)
    s₂.negative.length hremoved le_rfl
  generalize State.trimNegative
    (fun s => decide (s.negativeBytes + keyMetadataBytes key.text > maxAuxiliaryMapBytes))
    s₂.negative.length s₂ = s₃ at htrim₂ hnone₂ hroom
  split
  · exact htrim₂
  next hadmits =>
  refine exact_insertNegative htrim₂ hnone₂ ?_ (by simpa using hadmits) _
  rcases hroom with hroom | hempty
  · exact not_lt.mp (of_decide_eq_false hroom)
  · rw [htrim₂.negative.eq_zero hempty]
    omega

/-! ### Generations -/

theorem exact_storeGeneration (h : Exact s guards others) (key : JsString) (generation : ℕ) :
    Exact (s.storeGeneration key generation) guards others := by
  rw [State.storeGeneration]
  dsimp only
  split
  · exact exact_saturate h
  next hroom =>
  rcases hget : s.generations.get key with _ | old
  · have hhas : s.generations.has key = false := by
      rw [JsMap.has, hget]
      rfl
    rw [hhas] at hroom ⊢
    simp only [Bool.not_eq_true', true_and, not_or, not_le, not_lt, Bool.not_eq_false] at hroom
    obtain ⟨-, -, hbytes, hadmits⟩ := hroom
    refine { h with
      generations := h.generations.insert hget generation
      generation_le := hbytes
      owned := (h.owned.reserve_coordination hadmits).congr ?_ rfl }
    simp only [coordinationBytes, State.reserve, Bool.false_eq_true, if_false]
    omega
  · have hhas : s.generations.has key = true := by
      rw [JsMap.has, hget]
      rfl
    rw [if_pos hhas]
    exact { h with generations := h.generations.replace hget (fun _ => rfl) generation }

theorem exact_advanceAfterDelete (h : Exact s guards others) (key : JsString)
    (generation : Option ℕ) :
    Exact (s.advanceGenerationAfterDelete key generation) guards others := by
  rw [State.advanceGenerationAfterDelete.eq_def]
  split
  · exact exact_storeGeneration h key _
  · exact exact_storeGeneration h key _

theorem exact_advanceAfterRemoteSet (h : Exact s guards others) (key : JsString)
    (generation : Option ℕ) :
    Exact (s.advanceGenerationAfterRemoteSet key generation) guards others := by
  rw [State.advanceGenerationAfterRemoteSet.eq_def]
  split
  · exact h
  · exact exact_storeGeneration h key _

/-! ### Events -/

theorem removeSeenEvent_none {id : JsString} (id' : JsString)
    (hnone : s.seenEvents.get id = none) : (s.removeSeenEvent id').seenEvents.get id = none := by
  rw [State.removeSeenEvent]
  split
  · rcases hid : (JsMap.delete s.seenEvents id').get id with _ | seenAt
    · rfl
    · rw [delete_sub _ _ _ _ hid] at hnone
      cases hnone
  · exact hnone

theorem get_removeSeenEvent (id : JsString) : (s.removeSeenEvent id).seenEvents.get id = none := by
  rw [State.removeSeenEvent]
  split
  · exact get_delete_self s.seenEvents id
  · next hhas => exact Option.not_isSome_iff_eq_none.mp hhas

/-- The oldest events go while there is no room. -/
theorem trimSeen_spec {id : JsString} (maxEntries bytes n : ℕ) (h : Exact s guards others)
    (hnone : s.seenEvents.get id = none) :
    Exact (State.trimSeen maxEntries bytes n s).1 guards others ∧
      (State.trimSeen maxEntries bytes n s).1.seenEvents.get id = none ∧
      ((State.trimSeen maxEntries bytes n s).2 = true →
        (State.trimSeen maxEntries bytes n s).1.seenEventBytes + bytes ≤
          maxAuxiliaryMapBytes) := by
  induction n generalizing s with
  | zero => exact ⟨h, hnone, fun hroom => (of_decide_eq_true hroom).2⟩
  | succ n ih =>
    rw [State.trimSeen]
    split
    · split
      · exact ih (exact_removeSeenEvent h _) (removeSeenEvent_none _ hnone)
      · exact ⟨h, hnone, fun hroom => by cases hroom⟩
    · next hroom =>
      rw [not_or, not_le, not_lt] at hroom
      exact ⟨h, hnone, fun _ => hroom.2⟩

theorem exact_insertSeen (h : Exact s guards others) {id : JsString}
    (hnone : s.seenEvents.get id = none)
    (hroom : s.seenEventBytes + keyMetadataBytes id ≤ maxAuxiliaryMapBytes)
    (hadmits : s.admits (keyMetadataBytes id) = true) (seenAt : ℕ) :
    Exact { s.reserve (keyMetadataBytes id) .coordinationMetadata with
      seenEvents := s.seenEvents.set id seenAt
      seenEventBytes := s.seenEventBytes + keyMetadataBytes id } guards others := by
  refine { h with
    seenEvents := h.seenEvents.insert hnone seenAt
    seenEvent_le := hroom
    owned := (h.owned.reserve_coordination hadmits).congr ?_ rfl }
  simp only [coordinationBytes, State.reserve]
  omega

theorem exact_markEventSeen (h : Exact s guards others) (id : JsString) :
    Exact (s.markEventSeen cfg id) guards others := by
  rw [State.markEventSeen]
  dsimp only
  split
  · exact h
  obtain ⟨htrim, hnone, hroom⟩ := trimSeen_spec cfg.dedupeMaxEntries (keyMetadataBytes id)
    (s.removeSeenEvent id).seenEvents.length (exact_removeSeenEvent h id) (get_removeSeenEvent id)
  generalize State.trimSeen cfg.dedupeMaxEntries (keyMetadataBytes id)
    (s.removeSeenEvent id).seenEvents.length (s.removeSeenEvent id) = trimmed at htrim hnone hroom
  obtain ⟨s', room⟩ := trimmed
  dsimp only at htrim hnone hroom ⊢
  split
  · exact htrim
  next hboth =>
  simp only [Bool.or_eq_true, Bool.not_eq_true', not_or, Bool.not_eq_false] at hboth
  exact exact_insertSeen htrim hnone (hroom hboth.1) hboth.2 _

/-! ### Stale values -/

theorem get_removeStale (key : CacheKey) : (s.removeStale key).stale.get key = none := by
  rw [State.removeStale]
  split
  · next hnone => exact hnone
  · exact get_delete_self s.stale key

theorem exact_trimStale (maxEntries maxBytes n : ℕ) (h : Exact s guards others) :
    Exact (State.trimStale maxEntries maxBytes n s) guards others := by
  induction n generalizing s with
  | zero => exact h
  | succ n ih =>
    rw [State.trimStale]
    split
    · exact ih (exact_evictOneStale h)
    · exact h

theorem exact_insertStale (h : Exact s guards others) {key : CacheKey} {bytes : ℕ}
    (hnone : s.stale.get key = none) (hadmits : s.admits bytes = true) (encoded : Octets)
    (expiresAt : ℕ) :
    Exact { s.reserve bytes .stale with
      stale := s.stale.set key ⟨encoded, bytes, expiresAt⟩
      staleBytes := s.staleBytes + bytes } guards others :=
  { h with
    stale := h.stale.insert hnone ⟨encoded, bytes, expiresAt⟩
    owned := h.owned.reserve_stale hadmits }

theorem exact_rememberStale (h : Exact s guards others) (key : CacheKey) (encoded : Octets)
    (o : HybridCache.Options) : Exact (s.rememberStale cfg key encoded o) guards others := by
  rw [State.rememberStale]
  split
  · exact h
  have hremoved := exact_removeStale h key
  have hnone : (s.removeStale key).stale.get key = none := get_removeStale key
  dsimp only
  generalize s.removeStale key = s₁ at hremoved hnone
  split
  · exact hremoved
  next hfits =>
  simp only [not_or, Bool.not_eq_true', Bool.not_eq_false] at hfits
  exact exact_trimStale _ _ _ (exact_insertStale hremoved hnone hfits.2.2.2 encoded _)

/-! ### Loads in flight -/

/-- A load is registered; the key must have none. -/
theorem exact_trackInflight (h : Exact s guards others) {key : CacheKey} (o : HybridCache.Options)
    (hnone : s.inflight.get key = none)
    (hroom : s.inflightBytes + keyMetadataBytes key.text ≤ maxAuxiliaryMapBytes)
    (hadmits : s.admits (keyMetadataBytes key.text) = true) :
    Exact (s.trackInflight key o) guards others := by
  refine { h with
    inflight := h.inflight.insert hnone ⟨s.nextInflight, keyMetadataBytes key.text, _⟩
    inflight_le := hroom
    owned := (h.owned.reserve_coordination hadmits).congr ?_ rfl }
  simp only [coordinationBytes, State.trackInflight, State.reserve]
  omega

theorem exact_finishInflight (h : Exact s guards others) (key : CacheKey) (id : ℕ)
    (outcome : Except Err (Option V)) :
    Exact (s.finishInflight key id outcome) guards others := by
  rw [State.finishInflight]
  split
  · exact { exact_removeInflight h key with }
  · exact { h with }

theorem exact_follow (h : Exact s guards others) (hadmits : s.admits followerMetadataBytes = true) :
    Exact { s.reserve followerMetadataBytes .coordinationMetadata with
      activeFollowers := s.activeFollowers + 1 } guards others := by
  refine { h with owned := (h.owned.reserve_coordination hadmits).congr ?_ rfl }
  simp only [coordinationBytes, State.reserve, Nat.mul_succ]
  omega

theorem exact_unfollow (h : Exact s guards others) (hpos : 0 < s.activeFollowers) :
    Exact { s.release followerMetadataBytes .coordinationMetadata with
      activeFollowers := s.activeFollowers - 1 } guards others := by
  obtain ⟨n, hn⟩ := Nat.exists_eq_succ_of_ne_zero hpos.ne'
  have hall : followerMetadataBytes ≤ coordinationBytes s := by
    rw [coordinationBytes, hn, Nat.mul_succ]
    omega
  refine { h with owned := (h.owned.release_coordination hall).congr ?_ rfl }
  simp only [coordinationBytes, State.release, hn, Nat.mul_succ, Nat.succ_sub_one]
  omega

/-! ### Guards -/

theorem guardsOn_cons (g : Guard) (guards : List Guard) (cell : ℕ) :
    guardsOn (g :: guards) cell = guardsOn guards cell + if g.2 = cell then 1 else 0 := by
  rw [guardsOn, List.countP_cons]
  simp only [decide_eq_true_eq]
  rfl

theorem guardsOn_erase {g : Guard} (hg : g ∈ guards) (cell : ℕ) :
    guardsOn guards cell = guardsOn (guards.erase g) cell + if g.2 = cell then 1 else 0 := by
  rw [← guardsOn_cons]
  exact (List.perm_cons_erase hg).countP_eq _

variable {cells : ℕ → KeyRevision} {nextCell cell : ℕ} {keyRevisions : JsMap CacheKey ℕ}
  {key : CacheKey}

/-- A new revision has no guard yet. -/
theorem Revised.guardsOn_fresh (h : Revised cells nextCell keyRevisions guards) :
    guardsOn guards nextCell = 0 := by
  refine List.countP_eq_zero.mpr fun g hg => ?_
  rw [decide_eq_true_iff]
  exact Nat.ne_of_lt (h.guarded g hg).1

/-- One more guard on a tracked revision. -/
theorem Revised.observe (h : Revised cells nextCell keyRevisions guards)
    (hget : keyRevisions.get key = some cell) (value : ℕ) :
    Revised (Function.update cells cell
        { cells cell with value := value, references := (cells cell).references + 1 })
      nextCell keyRevisions ((key, cell) :: guards) := by
  have hcell := (h.tracked key cell hget).1
  refine ⟨fun key' cell' hget' => ?_, h.injective, fun cell' hcell' hregistered => ?_,
    fun g hg => ?_⟩
  · obtain ⟨hlt, hregistered, hbytes, hreferences, hpos⟩ := h.tracked key' cell' hget'
    rw [guardsOn_cons]
    by_cases hc : cell' = cell
    · subst hc
      rw [Function.update_self, if_pos rfl]
      exact ⟨hlt, hregistered, hbytes, by rw [hreferences], Nat.succ_pos _⟩
    · rw [Function.update_of_ne hc, if_neg (Ne.symm hc)]
      exact ⟨hlt, hregistered, hbytes, hreferences, hpos⟩
  · by_cases hc : cell' = cell
    · exact ⟨key, hc ▸ hget⟩
    · rw [Function.update_of_ne hc] at hregistered
      exact h.registered cell' hcell' hregistered
  · rcases List.mem_cons.mp hg with rfl | hg
    · exact ⟨hcell, fun _ => hget⟩
    · obtain ⟨hlt, hcurrent⟩ := h.guarded g hg
      refine ⟨hlt, fun hregistered => ?_⟩
      by_cases hc : g.2 = cell
      · exact hcurrent (by rw [hc]; exact (h.tracked key cell hget).2.1)
      · rw [Function.update_of_ne hc] at hregistered
        exact hcurrent hregistered

/-- The first guard on a key that has no tracked revision. -/
theorem Revised.observeNew (h : Revised cells nextCell keyRevisions guards)
    (hget : keyRevisions.get key = none) (value : ℕ) :
    Revised (Function.update cells nextCell ⟨value, 1, keyMetadataBytes key.text, true⟩)
      (nextCell + 1) (keyRevisions.set key nextCell) ((key, nextCell) :: guards) := by
  have hget' : ∀ {key' cell'}, (keyRevisions.set key nextCell).get key' = some cell' →
      (key' = key ∧ cell' = nextCell) ∨ (key' ≠ key ∧ keyRevisions.get key' = some cell') := by
    intro key' cell' hset
    by_cases hk : key = key'
    · subst hk
      rw [get_set_self, Option.some_inj] at hset
      exact .inl ⟨rfl, hset.symm⟩
    · rw [get_set_of_ne _ _ hk] at hset
      exact .inr ⟨Ne.symm hk, hset⟩
  refine ⟨fun key' cell' hset => ?_, fun key₁ key₂ cell' h₁ h₂ => ?_,
    fun cell' hcell' hregistered => ?_, fun g hg => ?_⟩
  · rw [guardsOn_cons]
    rcases hget' hset with ⟨rfl, rfl⟩ | ⟨-, hold⟩
    · rw [Function.update_self, if_pos rfl, h.guardsOn_fresh]
      exact ⟨Nat.lt_succ_self _, rfl, rfl, rfl, Nat.one_pos⟩
    · obtain ⟨hlt, hrest⟩ := h.tracked key' cell' hold
      rw [Function.update_of_ne hlt.ne, if_neg hlt.ne']
      exact ⟨Nat.lt_succ_of_lt hlt, hrest⟩
  · rcases hget' h₁ with ⟨rfl, rfl⟩ | ⟨-, hold₁⟩
    · rcases hget' h₂ with ⟨rfl, -⟩ | ⟨-, hold₂⟩
      · rfl
      · exact absurd (h.tracked key₂ _ hold₂).1 (lt_irrefl _)
    · rcases hget' h₂ with ⟨rfl, rfl⟩ | ⟨-, hold₂⟩
      · exact absurd (h.tracked key₁ _ hold₁).1 (lt_irrefl _)
      · exact h.injective key₁ key₂ cell' hold₁ hold₂
  · by_cases hc : cell' = nextCell
    · exact ⟨key, by rw [hc, get_set_self]⟩
    · rw [Function.update_of_ne hc] at hregistered
      obtain ⟨key', hold⟩ := h.registered cell' (by omega) hregistered
      refine ⟨key', ?_⟩
      rw [get_set_of_ne]
      · exact hold
      · rintro rfl
        rw [hget] at hold
        cases hold
  · rcases List.mem_cons.mp hg with rfl | hg
    · exact ⟨Nat.lt_succ_self _, fun _ => get_set_self ..⟩
    · obtain ⟨hlt, hcurrent⟩ := h.guarded g hg
      rw [Function.update_of_ne hlt.ne]
      refine ⟨Nat.lt_succ_of_lt hlt, fun hregistered => ?_⟩
      have hold := hcurrent hregistered
      rw [get_set_of_ne]
      · exact hold
      · rintro rfl
        rw [hget] at hold
        cases hold

/-- A guard on a revision that could not be tracked. -/
theorem Revised.observeUntracked (h : Revised cells nextCell keyRevisions guards)
    (key : CacheKey) (value bytes : ℕ) :
    Revised (Function.update cells nextCell ⟨value, 1, bytes, false⟩) (nextCell + 1) keyRevisions
      ((key, nextCell) :: guards) := by
  refine ⟨fun key' cell' hget => ?_, h.injective, fun cell' hcell' hregistered => ?_,
    fun g hg => ?_⟩
  · obtain ⟨hlt, hrest⟩ := h.tracked key' cell' hget
    rw [guardsOn_cons, Function.update_of_ne hlt.ne, if_neg hlt.ne']
    exact ⟨Nat.lt_succ_of_lt hlt, hrest⟩
  · by_cases hc : cell' = nextCell
    · rw [hc, Function.update_self] at hregistered
      cases hregistered
    · rw [Function.update_of_ne hc] at hregistered
      exact h.registered cell' (by omega) hregistered
  · rcases List.mem_cons.mp hg with rfl | hg
    · rw [Function.update_self]
      exact ⟨Nat.lt_succ_self _, nofun⟩
    · obtain ⟨hlt, hcurrent⟩ := h.guarded g hg
      rw [Function.update_of_ne hlt.ne]
      exact ⟨Nat.lt_succ_of_lt hlt, hcurrent⟩

/-- The last guard on a tracked revision is released, and the revision forgotten. -/
theorem Revised.releaseLast (h : Revised cells nextCell keyRevisions guards) {g : Guard}
    (hg : g ∈ guards) (hget : keyRevisions.get g.1 = some g.2) :
    Revised (Function.update cells g.2 { cells g.2 with references := 0, registered := false })
      nextCell (JsMap.delete keyRevisions g.1) (guards.erase g) := by
  have hother : ∀ {key' cell'}, (JsMap.delete keyRevisions g.1).get key' = some cell' →
      cell' ≠ g.2 ∧ keyRevisions.get key' = some cell' := by
    intro key' cell' hdelete
    have hold := delete_sub _ _ _ _ hdelete
    refine ⟨?_, hold⟩
    rintro rfl
    rw [h.injective key' g.1 g.2 hold hget, get_delete_self] at hdelete
    cases hdelete
  refine ⟨fun key' cell' hdelete => ?_, fun key₁ key₂ cell' h₁ h₂ => ?_,
    fun cell' hcell' hregistered => ?_, fun g' hg' => ?_⟩
  · obtain ⟨hne, hold⟩ := hother hdelete
    have herase := guardsOn_erase hg cell'
    rw [if_neg (Ne.symm hne), Nat.add_zero] at herase
    rw [Function.update_of_ne hne, ← herase]
    exact h.tracked key' cell' hold
  · exact h.injective key₁ key₂ cell' (hother h₁).2 (hother h₂).2
  · by_cases hc : cell' = g.2
    · rw [hc, Function.update_self] at hregistered
      cases hregistered
    · rw [Function.update_of_ne hc] at hregistered
      obtain ⟨key', hold⟩ := h.registered cell' hcell' hregistered
      refine ⟨key', ?_⟩
      rw [get_delete_of_ne]
      · exact hold
      · rintro rfl
        rw [hget, Option.some_inj] at hold
        exact hc hold.symm
  · obtain ⟨hlt, hcurrent⟩ := h.guarded g' (List.mem_of_mem_erase hg')
    refine ⟨hlt, fun hregistered => ?_⟩
    by_cases hc : g'.2 = g.2
    · rw [hc, Function.update_self] at hregistered
      cases hregistered
    · rw [Function.update_of_ne hc] at hregistered
      have hold := hcurrent hregistered
      rw [get_delete_of_ne]
      · exact hold
      · intro heq
        rw [← heq, hget, Option.some_inj] at hold
        exact hc hold.symm

/-- A guard is released while others are out, or its revision was not tracked. -/
theorem Revised.release (h : Revised cells nextCell keyRevisions guards) {g : Guard}
    (hg : g ∈ guards)
    (hmore : keyRevisions.get g.1 = some g.2 → (cells g.2).references - 1 ≠ 0) :
    Revised (Function.update cells g.2
        { cells g.2 with references := (cells g.2).references - 1 })
      nextCell keyRevisions (guards.erase g) := by
  refine ⟨fun key' cell' hget => ?_, h.injective, fun cell' hcell' hregistered => ?_,
    fun g' hg' => ?_⟩
  · obtain ⟨hlt, hregistered, hbytes, hreferences, hpos⟩ := h.tracked key' cell' hget
    have herase := guardsOn_erase hg cell'
    by_cases hc : cell' = g.2
    · subst hc
      have hmore := hmore ((h.guarded g hg).2 hregistered)
      rw [if_pos rfl] at herase
      rw [Function.update_self]
      refine ⟨hlt, hregistered, hbytes, ?_, Nat.pos_of_ne_zero hmore⟩
      show (cells g.2).references - 1 = _
      omega
    · rw [if_neg (Ne.symm hc), Nat.add_zero] at herase
      rw [Function.update_of_ne hc, ← herase]
      exact ⟨hlt, hregistered, hbytes, hreferences, hpos⟩
  · by_cases hc : cell' = g.2
    · rw [hc, Function.update_self] at hregistered
      exact h.registered cell' hcell' (hc ▸ hregistered)
    · rw [Function.update_of_ne hc] at hregistered
      exact h.registered cell' hcell' hregistered
  · obtain ⟨hlt, hcurrent⟩ := h.guarded g' (List.mem_of_mem_erase hg')
    refine ⟨hlt, fun hregistered => hcurrent ?_⟩
    by_cases hc : g'.2 = g.2
    · rw [hc, Function.update_self] at hregistered
      rw [hc]
      exact hregistered
    · rwa [Function.update_of_ne hc] at hregistered

theorem exact_observeKey (h : Exact s guards others) (key : CacheKey) (mutate : Bool) :
    Exact (s.observeKey key mutate) (guardOf s key :: guards) others := by
  rw [State.observeKey, guardOf, State.cellFor]
  rcases hget : s.keyRevisions.get key with _ | cell
  · dsimp only
    by_cases htrack : s.canTrack key = true
    · rw [if_pos htrack, htrack]
      have htrack := htrack
      simp only [State.canTrack, Bool.and_eq_true, decide_eq_true_eq] at htrack
      refine { h with
        keyRevisions := h.keyRevisions.insert hget s.nextCell
        keyRevision_le := htrack.1
        revised := h.revised.observeNew hget _
        owned := (h.owned.reserve_coordination htrack.2).congr ?_ rfl }
      simp only [coordinationBytes, State.reserve]
      omega
    · rw [if_neg htrack, Bool.eq_false_iff.mpr htrack]
      exact { h with revised := h.revised.observeUntracked key _ _ }
  · exact { h with revised := h.revised.observe hget _ }

theorem exact_releaseKey (h : Exact s guards others) (g : MutationGuard)
    (hg : (g.key, g.cell) ∈ guards) :
    Exact (s.releaseKey g) (guards.erase (g.key, g.cell)) others := by
  rw [State.releaseKey]
  split
  · next hlast =>
    have hbytes := (h.revised.tracked g.key g.cell hlast.2).2.2.1
    have hle : (s.cells g.cell).bytes ≤ s.keyRevisionBytes := by
      rw [hbytes]
      exact h.keyRevisions.le hlast.2
    have hall : (s.cells g.cell).bytes ≤ coordinationBytes s := by
      rw [coordinationBytes]
      omega
    have hcharged := h.keyRevisions.delete hlast.2
    rw [← hbytes] at hcharged
    refine { h with
      keyRevisions := hcharged
      keyRevision_le := (Nat.sub_le ..).trans h.keyRevision_le
      revised := h.revised.releaseLast hg hlast.2
      owned := (h.owned.release_coordination hall).congr ?_ rfl }
    simp only [coordinationBytes, State.release]
    omega
  · next hmore =>
    refine { h with revised := h.revised.release hg fun hget hzero => hmore ⟨hzero, hget⟩ }

/-! ### Calls -/

theorem exact_invalidateKey (h : Exact s guards others) (g : MutationGuard)
    (generation : Option ℕ) :
    Exact (s.invalidateKey g generation) (guardOf s g.key :: guards) others := by
  have hobserved := exact_observeKey h g.key true
  have hremoved := exact_removeStale (exact_removeNegative (exact_removeInflight hobserved g.key)
    g.key) g.key
  have hadvanced := exact_advanceAfterDelete hremoved g.key.text generation
  exact hadvanced.keeps (keeps_remove _ g.storageKey)

theorem exact_foldl {β : Type} {f : State V → β → State V} (l : List β)
    (hf : ∀ {s : State V} x, Exact s guards others → Exact (f s x) guards others)
    (h : Exact s guards others) : Exact (l.foldl f s) guards others := by
  induction l generalizing s with
  | nil => exact h
  | cons x l ih => exact ih (hf x h)

theorem exact_deleteByPatternLocal (h : Exact s guards others) (pattern : JsString) :
    Exact (s.deleteByPatternLocal pattern) guards others := by
  have hstart : Exact { s with mutationEpoch := s.mutationEpoch + 1 } guards others := { h with }
  refine Exact.keeps (exact_foldl _ (fun key h => exact_removeStale h key) ?_)
    (keeps_foldl_remove _ _)
  refine exact_foldl _ (fun key h => exact_removeNegative h key) ?_
  exact exact_foldl _ (fun key h => exact_removeInflight h key) hstart

theorem exact_markInvalidationUntrusted (h : Exact s guards others) :
    Exact s.markInvalidationUntrusted guards others :=
  exact_dropLocal { h with }

/-- A command changes the shared tier only. -/
theorem exact_l2Exec (h : Exact s guards others) (op : L2Op V) :
    Exact (s.l2Exec op) guards others := by
  cases op with
  | get key => exact h
  | has key => exact h
  | set key record ttlMs => exact { h with }
  | delete key => exact { h with }
  | acquireLock key token =>
    rw [State.l2Exec]
    split
    · exact h
    · exact { h with }
  | releaseLock key token =>
    rw [State.l2Exec]
    split
    · exact { h with }
    · exact h
  | publishIfOwner key token record ttlMs =>
    rw [State.l2Exec]
    split
    · exact { h with }
    · exact h

/-! ### Steps -/

variable {w : World V}

/-- An action that a cache can take keeps the ledgers exact. -/
theorem exact_apply (h : Exact w.state w.guards others) (a : Act V) (hallows : w.allows a = true) :
    Exact (a.apply cfg w.state) (w.guardsAfter a) others := by
  cases a with
  | observeKey o g mutate => exact exact_observeKey h g.key mutate
  | invalidateKey g generation => exact exact_invalidateKey h g generation
  | releaseKey g => exact exact_releaseKey h g (of_decide_eq_true hallows)
  | readL1 g hit => exact h.keeps (keeps_touch _ _ _)
  | hasL1 key => exact h.keeps (keeps_has _ _ _)
  | seekL1 key found => exact h.keeps (keeps_has _ _ _)
  | deleteL1 o g => exact h.keeps (keeps_remove _ _)
  | insertL1 o g value buffer ttlMs => exact h.keeps (keeps_setEncoded _ _ _ _ _ _)
  | rememberStale o g value encoded opts => exact exact_rememberStale h g.key encoded opts
  | removeStale key => exact exact_removeStale h key
  | setNegative g opts => exact exact_setNegative h g.key opts
  | removeNegative key => exact exact_removeNegative h key
  | removeInflight key => exact exact_removeInflight h key
  | trackInflight key id opts => cases hallows
  | finishInflight key id outcome => exact exact_finishInflight h key id outcome
  | follow key id => exact exact_follow h hallows
  | unfollow => exact exact_unfollow h (of_decide_eq_true hallows)
  | advanceGeneration key generation => exact exact_advanceAfterRemoteSet h key generation
  | saturate => exact exact_saturate h
  | deleteByPatternLocal pattern => exact exact_deleteByPatternLocal h pattern
  | busStatus status =>
    have hstatus : Exact { w.state with lastBusStatus := some status } w.guards others := { h with }
    rw [Act.apply]
    split
    · exact exact_markInvalidationUntrusted hstatus
    · exact hstatus
  | markInvalidationUntrusted => exact exact_markInvalidationUntrusted h
  | restoreFlush revision => exact exact_dropLocal { h with }
  | close => cases hallows
  | reserveQueue bytes => exact { h with owned := h.owned.reserve bytes apart_queue }
  | releaseQueue bytes => exact { h with owned := h.owned.release bytes apart_queue }
  | execute g op reply => exact exact_l2Exec h op
  | markEventSeen id => exact exact_markEventSeen h id
  | removeSeenEvent id => exact exact_removeSeenEvent h id
  | _ => exact { h with }

theorem exact_env (h : Exact s guards others) (e : Env V) (hledger : ∀ budget, e ≠ .ledger budget) :
    Exact (e.apply s) guards others := by
  cases e with
  | ledger budget => exact absurd rfl (hledger budget)
  | evictStale => exact exact_evictOneStale h
  | evictL1 => exact h.keeps (keeps_pop _)
  | executeAbandoned index =>
    rw [Env.apply]
    split
    · exact { exact_l2Exec h _ with }
    · exact h
  | _ => exact { h with }

/-- What `pruneInflightKey` leaves of a load is live for as long as the first look says. -/
theorem exact_pruned (h : Exact s guards others) (key : CacheKey) {pause₁ : ℕ}
    (hsteady : ∀ e, s.inflight.get key = some e → s.now < e.expiresAt →
      s.now + pause₁ < e.expiresAt ∨ s.canTrackInflight key cfg.options = false) {s' : State V}
    (hs' : s' = if (s.inflight.get key).any fun e => e.expiresAt ≤ s.now
      then s.removeInflight key else s) :
    Exact s' guards others ∧ s'.now = s.now ∧ ∀ e, s'.inflight.get key = some e →
      s.now + pause₁ < e.expiresAt ∨ s'.canTrackInflight key cfg.options = false := by
  split_ifs at hs' with hexpired
  · subst hs'
    refine ⟨exact_removeInflight h key, ?_, fun e he => ?_⟩
    · rw [State.removeInflight]
      split
      · rfl
      · rfl
    · rw [State.removeInflight] at he
      split at he
      · next hnone =>
        rw [hnone] at he
        cases he
      · rw [show JsMap.get _ key = none from get_delete_self s.inflight key] at he
        cases he
  · subst hs'
    refine ⟨h, rfl, fun e he => hsteady e he ?_⟩
    by_contra hlate
    rw [he] at hexpired
    exact hexpired (decide_eq_true (not_lt.mp hlate))

/-- A load that is live at the first look and not at the second would be overwritten, if
there is room for another one. -/
theorem exact_startLoad (h : Exact s guards others) (key : CacheKey) (o : HybridCache.Options)
    {pause₁ : ℕ} (pause₂ : ℕ)
    (hsteady : ∀ e, s.inflight.get key = some e → s.now < e.expiresAt →
      s.now + pause₁ < e.expiresAt ∨ s.canTrackInflight key cfg.options = false) :
    Exact (startLoad cfg s key o pause₁ pause₂) guards others := by
  rw [startLoad]
  dsimp only
  generalize hs' : (if (s.inflight.get key).any fun e => e.expiresAt ≤ s.now
    then s.removeInflight key else s) = s'
  obtain ⟨hexact, hnow, hlive⟩ := exact_pruned h key hsteady hs'.symm
  split
  · exact { hexact with }
  next hdead =>
  split
  · next hroom =>
    have hnone : s'.inflight.get key = none := by
      rcases hget : s'.inflight.get key with _ | e
      · rfl
      · rw [hget, hnow] at hdead
        rcases hlive e hget with hlive | hfull
        · exact absurd (decide_eq_true hlive) hdead
        · exact absurd (hfull.symm.trans hroom) Bool.false_ne_true
    simp only [State.canTrackInflight, Bool.and_eq_true, decide_eq_true_eq] at hroom
    have hstart : Exact { s' with now := s'.now + pause₁ + pause₂ } guards others := { hexact with }
    exact exact_trackInflight hstart o hnone hroom.1.2 hroom.2
  · exact { hexact with }

theorem exact_rememberStaleThrows (h : Exact s guards others) (key : CacheKey) (encoded : Octets)
    (o : HybridCache.Options)
    (hsteady : skipsStale cfg s o = true ∨ copiesStale s key encoded o = false) :
    Exact (rememberStaleThrows cfg s key encoded o) guards others := by
  rw [rememberStaleThrows]
  split
  · exact h
  next hgo =>
  have hno : copiesStale s key encoded o = false := hsteady.resolve_left hgo
  rw [if_neg (by rw [hno]; nofun)]
  exact exact_removeStale h key

theorem share_reserve {f g : MemoryCategory → ℕ} {k : MemoryCategory} {n : ℕ}
    (hshare : f k = g k + n) (category : MemoryCategory) (bytes : ℕ) :
    Function.update f category (f category + bytes) k =
      Function.update g category (g category + bytes) k + n := by
  by_cases hk : k = category
  · subst hk
    rw [Function.update_self, Function.update_self, hshare]
    omega
  · rw [Function.update_of_ne hk, Function.update_of_ne hk, hshare]

theorem share_release {f g : MemoryCategory → ℕ} {k : MemoryCategory} {n : ℕ}
    (hshare : f k = g k + n) {category : MemoryCategory} {bytes : ℕ} (hbytes : bytes ≤ g category) :
    Function.update f category (f category - min bytes (f category)) k =
      Function.update g category (g category - bytes) k + n := by
  by_cases hk : k = category
  · subst hk
    rw [Function.update_self, Function.update_self, hshare]
    omega
  · rw [Function.update_of_ne hk, Function.update_of_ne hk, hshare]

/-- What others hold changes, and the budget with it. -/
theorem Owned.foreign (h : Owned b others coordination stale) (f : Foreign) :
    Owned (Ledger.foreign ⟨b, others⟩ f).budget (Ledger.foreign ⟨b, others⟩ f).others
      coordination stale := by
  cases f with
  | reserve bytes category =>
    rw [Ledger.foreign]
    split
    case isFalse => exact h
    next hadmits =>
    obtain ⟨hcategories, hused⟩ := reserve_exact h.used hadmits category
    refine ⟨hused, ?_, ?_⟩
    · rw [hcategories]
      exact share_reserve h.coordination category bytes
    · rw [hcategories]
      exact share_reserve h.stale category bytes
  | release bytes category =>
    rw [Ledger.foreign]
    split
    case isFalse => exact h
    next hbytes =>
    obtain ⟨hcategories, hused⟩ :=
      release_exact h.used (Nat.min_le_right bytes (b.categories category))
    rw [← release_min] at hcategories hused
    refine ⟨hused, ?_, ?_⟩
    · rw [hcategories]
      exact share_release h.coordination hbytes
    · rw [hcategories]
      exact share_release h.stale hbytes
  | sample target state => exact ⟨h.used, h.coordination, h.stale⟩

/-- The ledgers are exact, and the cache has reserved what they say. -/
structure Inv (w : World V) : Prop where
  exact : Exact w.state w.guards w.others
  coordination : w.held .coordinationMetadata = coordinationBytes w.state
  stale : w.held .stale = w.state.staleBytes

/-- What the cache does to the budget it does to its own share. -/
theorem inv_own (h : Inv w) {state : State V} {guards : List Guard}
    (hexact : Exact state guards w.others) : Inv (w.own state guards) := by
  refine ⟨hexact, ?_, ?_⟩
  · have hbefore := h.exact.owned.coordination
    have hafter := hexact.owned.coordination
    have hheld := h.coordination
    show w.held .coordinationMetadata + ((state.mem.budget.categories .coordinationMetadata : ℤ) -
      w.state.mem.budget.categories .coordinationMetadata) = coordinationBytes state
    omega
  · have hbefore := h.exact.owned.stale
    have hafter := hexact.owned.stale
    have hheld := h.stale
    show w.held .stale + ((state.mem.budget.categories .stale : ℤ) -
      w.state.mem.budget.categories .stale) = state.staleBytes
    omega

theorem inv_step (h : Inv w) (e : Event V) (hsteady : Steady cfg w.state e) :
    Inv (w.step cfg e) := by
  cases e with
  | act a =>
    rw [World.step]
    split
    · next hallows => exact inv_own h (exact_apply h.exact a hallows)
    · exact h
  | env e =>
    rw [World.step.eq_def]
    dsimp only
    split
    · exact h
    · next hledger => exact inv_own h (exact_env h.exact e fun budget => hledger budget)
  | startLoad key o pause₁ pause₂ => exact inv_own h (exact_startLoad h.exact key o pause₂ hsteady)
  | rememberStaleThrows key encoded o =>
    exact inv_own h (exact_rememberStaleThrows h.exact key encoded o hsteady)
  | foreign f =>
    exact ⟨{ h.exact with owned := h.exact.owned.foreign f }, h.coordination, h.stale⟩

theorem inv_create (hardCap : ℕ) (history : Option (ℕ → ℕ)) (l2 : JsMap JsString (L2Entry V)) :
    Inv (World.create cfg hardCap history l2) := by
  refine ⟨⟨charged_nil _, charged_nil _, charged_nil _, charged_nil _, charged_nil _, charged_nil _,
    Nat.zero_le _, Nat.zero_le _, Nat.zero_le _, Nat.zero_le _, Nat.zero_le _,
    ⟨nofun, nofun, nofun, nofun⟩, ⟨?_, rfl, rfl⟩⟩, rfl, rfl⟩
  exact (sum_const_zero (s := univ)).symm

/-! ### Runs -/

/-- The revision objects say what they are charged. -/
theorem Exact.sum_keyRevisions (h : Exact s guards others) :
    (s.keyRevisions.map fun e => (s.cells e.2).bytes).sum = s.keyRevisionBytes := by
  rw [h.keyRevisions.bytes]
  refine congrArg List.sum (List.map_congr_left fun e he => ?_)
  exact (h.revised.tracked e.1 e.2 (get_of_mem h.keyRevisions.nodup he)).2.2.1

theorem Inv.contract (h : Inv w) : Contract w := by
  have hrevisions := h.exact.sum_keyRevisions
  refine ⟨h.exact.inflight.bytes, h.exact.negative.bytes, h.exact.generations.bytes,
    h.exact.seenEvents.bytes, hrevisions.symm, h.exact.stale.bytes,
    ⟨h.exact.inflight_le, h.exact.negative_le, h.exact.generation_le, h.exact.seenEvent_le,
      h.exact.keyRevision_le⟩, fun cell hcell hregistered => ?_, ?_, ?_⟩
  · obtain ⟨key, hget⟩ := h.exact.revised.registered cell hcell hregistered
    exact (h.exact.revised.tracked key cell hget).2.2.2
  · rw [h.coordination, coordinationBytes, hrevisions, ← h.exact.inflight.bytes,
      ← h.exact.negative.bytes, ← h.exact.generations.bytes, ← h.exact.seenEvents.bytes]
  · rw [h.stale, ← h.exact.stale.bytes]

section

variable (cfg) (hardCap : ℕ) (history : Option (ℕ → ℕ)) (l2 : JsMap JsString (L2Entry V))
  (events : List (Event V))

/-- The cache before the `n`-th piece. -/
def world (n : ℕ) : World V :=
  stateAt (World.step cfg) (World.create cfg hardCap history l2) events n

/-- **The ledgers are exact** in every run in which no load expires between the two looks of
one `getOrSet` that has room for another load, and every copy of a stale value finds memory. -/
theorem ledgers_exact (hsteady : ∀ n e, events[n]? = some e →
    Steady cfg (world cfg hardCap history l2 events n).state e) (n : ℕ) :
    Contract (world cfg hardCap history l2 events n) := by
  have hrun : ∀ n, Inv (world cfg hardCap history l2 events n) :=
    invariant_along (inv_create hardCap history l2) fun n e he h => inv_step h e (hsteady n e he)
  exact (hrun n).contract

end

/-! ### Two calls for one key -/

def plainConfig : Config Unit := { codec := ⟨fun _ _ => some [], fun _ => none⟩ }

def sharedKey : CacheKey := .ofString (str "k")

/-- Both calls have missed.  The second one registers its load a little later, and finds that
of the first one live. -/
def steadyRun : List (Event Unit) :=
  [.startLoad sharedKey {} 0 0, .startLoad sharedKey {} 5 0]

theorem ledgers_exact_steadyRun : Contract (world plainConfig 1000000 none [] steadyRun 2) ∧
    (world plainConfig 1000000 none [] steadyRun 2).state.inflightBytes = 98 := by
  refine ⟨ledgers_exact plainConfig 1000000 none [] steadyRun (fun n e he => ?_) 2, by decide⟩
  match n, he with
  | 0, he =>
    cases he
    exact fun e he => nomatch he
  | 1, he =>
    cases he
    have hlive : (world plainConfig 1000000 none [] steadyRun 1).state.inflight.get sharedKey =
        some ⟨0, 98, 20100⟩ := by decide
    intro e he _
    rw [hlive] at he
    cases he
    exact .inl (by decide)

/-- With a TTL of one millisecond the load of the first call is live when the second call
prunes, and expired when it looks again: it is overwritten, and its 98 bytes stay. -/
def overwritingRun : List (Event Unit) :=
  [.startLoad sharedKey { inflightTtlMs := 1 } 0 0, .startLoad sharedKey { inflightTtlMs := 1 } 1 0]

theorem overwritingRun_leaks :
    (world plainConfig 1000000 none [] overwritingRun 2).state.closed = false ∧
      (world plainConfig 1000000 none [] overwritingRun 2).state.inflightBytes = 196 ∧
      ((world plainConfig 1000000 none [] overwritingRun 2).state.inflight.map
        fun e => e.2.bytes) = [98] ∧
      ¬ Contract (world plainConfig 1000000 none [] overwritingRun 2) :=
  ⟨by decide, by decide, by decide, fun h => absurd h.inflight (by decide)⟩

end HybridLedgers
