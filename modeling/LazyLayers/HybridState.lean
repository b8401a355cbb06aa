/-
The state of a `HybridCache` and the synchronous helpers that change it.

Each definition follows the method of the same name.  The shared tier and the
things outside the process that the cache can only observe (lost leases, aborts,
the fill level of the ledger) are part of the state, so that one trace tells the
whole story.

What only observers see is left out: emitted cache events, log lines and the
counters behind the statistics.
-/
import LazyLayers.MemoryStore

open Js Pattern

namespace HybridCache

abbrev Octets := List UInt8

inductive EventBusStatus
  | connecting
  | ready
  | subscribed
  | disconnected
  | error
  deriving DecidableEq

/-- The statuses that revoke trust in what is cached locally. -/
def EventBusStatus.revokes : EventBusStatus → Bool
  | connecting | disconnected | error => true
  | ready | subscribed => false

/-! ### Configuration -/

/-- The JSON text of a codec policy; policies are compared by it. -/
abbrev Policy := JsString

/-- The serializer, which may throw, and the strict decoder, which may miss. -/
structure Codec (V : Type) where
  serialize : Policy → V → Option Octets
  decode : Octets → Option V

/-- The options of a call after they have been merged with those of the cache. -/
structure Options where
  ttlMs : ℕ := 3600000
  l2TtlMs : ℕ := 3600000
  codecL1 : Policy := str "\x7b\x7d"
  codecL2 : Policy := str "\x7b\x7d"
  failSafe : Bool := true
  staleTtlMs : ℕ := 30000
  staleMaxEntries : ℕ := 1000
  staleMaxBytes : ℕ := 16 * 1024 * 1024
  negativeCache : Bool := true
  negativeTtlMs : ℕ := 10000
  negativeMaxEntries : ℕ := 10000
  inflight : Bool := true
  inflightMaxEntries : ℕ := 1024
  inflightTtlMs : ℕ := 20100
  maxWaiters : ℕ := 10000
  distributedLock : Bool := true
  onTimeoutLoad : Bool := false
  originLoad : Bool := true
  deriving DecidableEq

/-- What the shared tier can do. -/
structure L2Features where
  encoded : Bool := true
  locks : Bool := true
  atomicPublication : Bool := true

structure Config (V : Type) where
  codec : Codec V
  /-- The L1's own policy, used where it serializes by itself. -/
  storeCodec : Policy := str "\x7b\x7d"
  versioning : Bool := false
  l2 : Option L2Features := some {}
  options : Options := {}
  /-- Without an L1 every operation on it does nothing. -/
  hasL1 : Bool := true
  l1 : MemoryStoreOptions := {}
  ownsL1 : Bool := true
  eventBus : Bool := true
  subscribes : Bool := true
  broadcastSet : Bool := true
  /-- Whether the event built for a value can be encoded within `broadcastSetMaxBytes`. -/
  broadcastable : CacheKey → V → Bool := fun _ _ => true
  source : JsString := str "cache"
  eventNamespace : Option JsString := none
  dedupeMaxEntries : ℕ := 10000
  dedupeTtlMs : ℕ := 300000
  maxActiveLeaders : ℕ := 1088
  /-- `String(Number(text))` and `Number.isFinite(Number(text))`. -/
  numberText : JsString → JsString := id
  isFiniteNumber : JsString → Bool := fun _ => false

/-! ### State -/

/-- `KeyRevision`. -/
structure KeyRevision where
  value : ℕ
  references : ℕ
  bytes : ℕ
  registered : Bool
  deriving DecidableEq

/-- `MutationGuard`.  The revision object is shared, so the guard names its cell. -/
structure MutationGuard where
  key : CacheKey
  cell : ℕ
  revision : ℕ
  epoch : ℕ
  storageKey : CacheKey
  signal : Option ℕ := none
  publicationAllowed : Bool := true
  deriving DecidableEq

structure StaleEntry where
  encoded : Octets
  bytes : ℕ
  expiresAt : ℕ
  deriving DecidableEq

structure NegativeEntry where
  expiresAt : ℕ
  bytes : ℕ
  deriving DecidableEq

structure InflightEntry where
  id : ℕ
  bytes : ℕ
  expiresAt : ℕ
  deriving DecidableEq

/-- What the shared tier holds: an encoded record or, in a plain store, the value. -/
inductive Record (V : Type)
  | encoded (buffer : Octets)
  | plain (value : V)

/-- A record of the shared tier with the end of its life, if it has one. -/
structure L2Entry (V : Type) where
  record : Record V
  expireAt : Option ℕ

/-- The commands that reach the shared tier one at a time. -/
inductive L2Op (V : Type)
  | get (key : CacheKey)
  | has (key : CacheKey)
  | set (key : CacheKey) (record : Record V) (ttlMs : ℕ)
  | delete (key : CacheKey)
  | acquireLock (key : CacheKey) (token : ℕ)
  | releaseLock (key : CacheKey) (token : ℕ)
  | publishIfOwner (key : CacheKey) (token : ℕ) (record : Record V) (ttlMs : ℕ)

/-- The replies; a hit comes with the life it has left, if it is limited. -/
inductive L2Reply (V : Type)
  | done
  | found (hit : Option (Record V × Option ℕ))
  | flag (value : Bool)
  | published
  | notOwner

/-- How a call of the cache may fail. -/
inductive Err
  | cacheClosed
  | invalidOptions
  | inflightOverload (key : CacheKey)
  | originOverload (key : CacheKey)
  | originClosed
  | lockLost (key : CacheKey)
  | lockTimeout (key : CacheKey)
  | aborted
  | loaderTimeout
  | loaderFailed
  deriving DecidableEq

structure State (V : Type) where
  now : ℕ
  closed : Bool
  invalidationTrusted : Bool
  generationTrackingSaturated : Bool
  mutationEpoch : ℕ
  invalidationRevision : ℕ
  lastBusStatus : Option EventBusStatus
  /-- The revision objects ever created; `keyRevisions` points to the current ones. -/
  cells : ℕ → KeyRevision
  nextCell : ℕ
  keyRevisions : JsMap CacheKey ℕ
  keyRevisionBytes : ℕ
  stale : JsMap CacheKey StaleEntry
  staleBytes : ℕ
  negative : JsMap CacheKey NegativeEntry
  negativeBytes : ℕ
  inflight : JsMap CacheKey InflightEntry
  inflightBytes : ℕ
  nextInflight : ℕ
  /-- How the tracked loads ended: what their promises have settled to. -/
  outcomes : ℕ → Option (Except Err (Option V))
  activeFollowers : ℕ
  generations : JsMap JsString ℕ
  generationBytes : ℕ
  seenEvents : JsMap JsString ℕ
  seenEventBytes : ℕ
  activeLeaders : List ℕ
  /-- Abort controllers and lock tokens are numbered as they are created. -/
  nextController : ℕ
  aborted : ℕ → Bool
  leaseLost : ℕ → Bool
  /-- The controller of the load that a lease controller follows. -/
  leaseParent : ℕ → Option ℕ
  nextToken : ℕ
  mem : MemoryStore.Mem
  l2CircuitOpen : Bool
  eventBusCircuitOpen : Bool
  /-- The shared tier keeps its records and its leases under `String(key)`. -/
  l2 : JsMap JsString (L2Entry V)
  locks : JsMap JsString ℕ
  /-- Commands whose caller gave up but which may still be executed. -/
  abandoned : List (L2Op V)

variable {V : Type} (cfg : Config V)

def maxAuxiliaryMapBytes : ℕ := 2 * 1024 * 1024
def maxGenerationEntries : ℕ := 10000
def maxGenerationBytes : ℕ := 2 * 1024 * 1024
def followerMetadataBytes : ℕ := 160

/-- A cache as it is constructed, over an empty L1 and whatever the other tiers hold. -/
def State.create (budget : MemoryBudget) (history : Option (ℕ → ℕ)) (l2 : JsMap JsString (L2Entry V)) :
    State V where
  now := 0
  closed := false
  invalidationTrusted := !(cfg.eventBus && cfg.subscribes)
  generationTrackingSaturated := false
  mutationEpoch := 0
  invalidationRevision := 0
  lastBusStatus := none
  cells := fun _ => ⟨0, 0, 0, false⟩
  nextCell := 0
  keyRevisions := []
  keyRevisionBytes := 0
  stale := []
  staleBytes := 0
  negative := []
  negativeBytes := 0
  inflight := []
  inflightBytes := 0
  nextInflight := 0
  outcomes := fun _ => none
  activeFollowers := 0
  generations := []
  generationBytes := 0
  seenEvents := []
  seenEventBytes := 0
  activeLeaders := []
  nextController := 0
  aborted := fun _ => false
  leaseLost := fun _ => false
  leaseParent := fun _ => none
  nextToken := 0
  mem := ⟨⟨if cfg.hasL1 then some [] else none, history, 0, 0⟩, budget⟩
  l2CircuitOpen := false
  eventBusCircuitOpen := false
  l2 := l2
  locks := []
  abandoned := []

def keyMetadataBytes (text : JsString) : ℕ := (utf8 text).length * 2 + 96

namespace State

variable (s : State V)

def reserve (bytes : ℕ) (category : MemoryCategory) : State V :=
  { s with mem := { s.mem with budget := s.mem.budget.reserve bytes category } }

def release (bytes : ℕ) (category : MemoryCategory) : State V :=
  { s with mem := { s.mem with budget := s.mem.budget.release bytes category } }

def admits (bytes : ℕ) : Bool := s.mem.budget.admits bytes

def versionedCacheSafe : Bool := !cfg.versioning || !s.generationTrackingSaturated

/-! ### Keys, generations and guards -/

def getGeneration (key : JsString) : ℕ := (s.generations.get key).getD 0

def toStorageKey (key : CacheKey) : CacheKey :=
  if cfg.versioning then
    .ofString (key.text ++ str "::v" ++ (Nat.repr (s.getGeneration key.text)).toList.map
      fun c => UInt16.ofNat c.toNat)
  else key

/-- The cell that `observeKey` uses, and whether it has just been created. -/
def cellFor (key : CacheKey) : ℕ × Bool :=
  match s.keyRevisions.get key with
  | some cell => (cell, false)
  | none => (s.nextCell, true)

/-- Whether a new revision can be tracked. -/
def canTrack (key : CacheKey) : Bool :=
  s.keyRevisionBytes + keyMetadataBytes key.text ≤ maxAuxiliaryMapBytes &&
    s.admits (keyMetadataBytes key.text)

/-- The guard that `observeKey(key, mutate)` returns. -/
def guardFor (key : CacheKey) (mutate : Bool) : MutationGuard where
  key := key
  cell := (s.cellFor key).1
  revision := (if (s.cellFor key).2 then 0 else (s.cells (s.cellFor key).1).value) +
    (if mutate then 1 else 0)
  epoch := s.mutationEpoch
  storageKey := s.toStorageKey cfg key

/-- The state after `observeKey(key, mutate)`. -/
def observeKey (key : CacheKey) (mutate : Bool) : State V :=
  let bytes := keyMetadataBytes key.text
  match s.keyRevisions.get key with
  | some cell =>
    let c := s.cells cell
    let c' := { c with
      value := c.value + (if mutate then 1 else 0), references := c.references + 1 }
    { s with cells := Function.update s.cells cell c' }
  | none =>
    let cell : KeyRevision := ⟨if mutate then 1 else 0, 1, bytes, s.canTrack key⟩
    let s' := if s.canTrack key then
        { s.reserve bytes .coordinationMetadata with
          keyRevisions := s.keyRevisions.set key s.nextCell
          keyRevisionBytes := s.keyRevisionBytes + bytes }
      else s
    { s' with cells := Function.update s.cells s.nextCell cell, nextCell := s.nextCell + 1 }

def releaseKey (g : MutationGuard) : State V :=
  let c := s.cells g.cell
  let references := c.references - 1
  if references = 0 ∧ s.keyRevisions.get g.key = some g.cell then
    { s.release c.bytes .coordinationMetadata with
      cells := Function.update s.cells g.cell { c with references := 0, registered := false }
      keyRevisions := s.keyRevisions.delete g.key
      keyRevisionBytes := s.keyRevisionBytes - c.bytes }
  else { s with cells := Function.update s.cells g.cell { c with references := references } }

/-- An aborted load takes the lease controller that follows it along. -/
def isAborted (controller : ℕ) : Bool :=
  s.aborted controller || (s.leaseParent controller).any s.aborted

def signalAborted (g : MutationGuard) : Bool := g.signal.any s.isAborted

def isCurrent (g : MutationGuard) : Bool :=
  !s.closed && (s.cells g.cell).registered && s.versionedCacheSafe cfg && !s.signalAborted g &&
    g.epoch = s.mutationEpoch && g.revision = (s.cells g.cell).value

/-! ### Stale values -/

def removeStale (key : CacheKey) : State V :=
  match s.stale.get key with
  | none => s
  | some e =>
    { s.release e.bytes .stale with
      stale := s.stale.delete key, staleBytes := s.staleBytes - e.bytes }

def clearStale : State V := { s.release s.staleBytes .stale with stale := [], staleBytes := 0 }

/-- Remove the oldest entry. -/
def evictOneStale : State V :=
  match s.stale with
  | (key, _) :: _ => s.removeStale key
  | [] => s

/-- `while (stale.size > maxEntries || staleBytes > maxBytes)` evict the oldest. -/
def trimStale (maxEntries maxBytes : ℕ) : ℕ → State V → State V
  | 0, s => s
  | n + 1, s =>
    if s.stale.length > maxEntries ∨ s.staleBytes > maxBytes then
      trimStale maxEntries maxBytes n s.evictOneStale
    else s

/-- `rememberStale`, once the value has been encoded. -/
def rememberStale (key : CacheKey) (encoded : Octets) (o : Options) : State V :=
  if s.closed || !s.versionedCacheSafe cfg || !o.failSafe || o.staleTtlMs = 0 then s
  else
    let s := s.removeStale key
    let bytes := encoded.length + key.byteLength * 2 + 80
    if o.staleMaxEntries = 0 ∨ o.staleMaxBytes = 0 ∨ bytes > o.staleMaxBytes ∨
        !s.admits bytes then s
    else
      let s := { s.reserve bytes .stale with
        stale := s.stale.set key ⟨encoded, bytes, s.now + o.staleTtlMs⟩
        staleBytes := s.staleBytes + bytes }
      trimStale o.staleMaxEntries o.staleMaxBytes s.stale.length s

/-! ### Negative entries -/

def removeNegative (key : CacheKey) : State V :=
  match s.negative.get key with
  | none => s
  | some e =>
    { s.release e.bytes .coordinationMetadata with
      negative := s.negative.delete key, negativeBytes := s.negativeBytes - e.bytes }

def clearNegative : State V :=
  { s.release s.negativeBytes .coordinationMetadata with negative := [], negativeBytes := 0 }

def dropOldestNegative : State V :=
  match s.negative with
  | (key, _) :: _ => s.removeNegative key
  | [] => s

def trimNegative (full : State V → Bool) : ℕ → State V → State V
  | 0, s => s
  | n + 1, s => if full s then trimNegative full n s.dropOldestNegative else s

def setNegative (key : CacheKey) (o : Options) : State V :=
  if s.closed || !s.versionedCacheSafe cfg || !s.invalidationTrusted || !o.negativeCache ||
      o.negativeTtlMs = 0 || o.negativeMaxEntries = 0 then s
  else
    let s := trimNegative (fun s => s.negative.length ≥ o.negativeMaxEntries) s.negative.length s
    let bytes := keyMetadataBytes key.text
    if bytes > maxAuxiliaryMapBytes then s
    else
      let s := s.removeNegative key
      let s := trimNegative (fun s => s.negativeBytes + bytes > maxAuxiliaryMapBytes)
        s.negative.length s
      if !s.admits bytes then s
      else
        { s.reserve bytes .coordinationMetadata with
          negative := s.negative.set key ⟨s.now + o.negativeTtlMs, bytes⟩
          negativeBytes := s.negativeBytes + bytes }

/-! ### In-flight loads -/

def removeInflight (key : CacheKey) : State V :=
  match s.inflight.get key with
  | none => s
  | some e =>
    { s.release e.bytes .coordinationMetadata with
      inflight := s.inflight.delete key, inflightBytes := s.inflightBytes - e.bytes }

def clearInflight : State V :=
  { s.release s.inflightBytes .coordinationMetadata with inflight := [], inflightBytes := 0 }

/-- Whether `reserveInflight` succeeds. -/
def canTrackInflight (key : CacheKey) (o : Options) : Bool :=
  0 < o.inflightMaxEntries && s.inflight.length < o.inflightMaxEntries &&
    s.inflightBytes + keyMetadataBytes key.text ≤ maxAuxiliaryMapBytes &&
    s.admits (keyMetadataBytes key.text)

def trackInflight (key : CacheKey) (o : Options) : State V :=
  let bytes := keyMetadataBytes key.text
  { s.reserve bytes .coordinationMetadata with
    inflight := s.inflight.set key ⟨s.nextInflight, bytes, s.now + o.inflightTtlMs⟩
    inflightBytes := s.inflightBytes + bytes
    nextInflight := s.nextInflight + 1 }

/-- A tracked load ends: the entry is removed if it is still its own, and whoever
awaits the promise may go on. -/
def finishInflight (key : CacheKey) (id : ℕ) (outcome : Except Err (Option V)) : State V :=
  let s := if (s.inflight.get key).map InflightEntry.id = some id then s.removeInflight key else s
  { s with outcomes := Function.update s.outcomes id (some outcome) }

/-! ### The L1 -/

def l1Entry (key : CacheKey) : Option L1Entry := s.mem.store.entry s.now key

def l1SetEncoded (key : CacheKey) (buffer : Octets) (ttlMs : ℕ) : State V :=
  { s with mem := s.mem.setEncoded cfg.l1 s.now key buffer ttlMs }

def l1Delete (key : CacheKey) : State V := { s with mem := s.mem.remove key }

def l1Touch (key : CacheKey) : State V := { s with mem := s.mem.touch s.now key }

def l1Has (key : CacheKey) : State V := { s with mem := (s.mem.has s.now key).1 }

def l1DeleteByPattern (pattern : JsString) : State V :=
  { s with mem := s.mem.deleteByPattern s.now pattern }

/-- `this.l1.deleteByPattern('*')`. -/
def flushL1 : State V := s.l1DeleteByPattern [asterisk]

/-! ### Invalidation -/

/-- What every loss of trust in the local tiers drops. -/
def dropLocal : State V := s.clearInflight.clearNegative.clearStale.flushL1

def saturateGenerationTracking : State V :=
  if s.generationTrackingSaturated then s
  else { s with
    generationTrackingSaturated := true
    mutationEpoch := s.mutationEpoch + 1 }.dropLocal

/-- `storeGeneration` for a generation below 2^53, which all callers pass. -/
def storeGeneration (key : JsString) (generation : ℕ) : State V :=
  let bytes := keyMetadataBytes key
  if generation ≥ 2 ^ 53 ∨ (!s.generations.has key ∧ (s.generations.length ≥ maxGenerationEntries ∨
      s.generationBytes + bytes > maxGenerationBytes ∨ !s.admits bytes)) then
    s.saturateGenerationTracking
  else
    let s' := if s.generations.has key then s
      else { s.reserve bytes .coordinationMetadata with
        generationBytes := s.generationBytes + bytes }
    { s' with generations := s'.generations.set key generation }

def advanceGenerationAfterDelete (key : JsString) (generation : Option ℕ) : State V :=
  match generation with
  | some generation => s.storeGeneration key (max (s.getGeneration key) generation)
  | none => s.storeGeneration key (s.getGeneration key + 1)

def advanceGenerationAfterRemoteSet (key : JsString) (generation : Option ℕ) : State V :=
  match generation with
  | none => s
  | some generation => s.storeGeneration key (max (s.getGeneration key) generation)

/-- The synchronous part of `deleteLocal` and of `deleteLocalOnly`. -/
def invalidateKey (g : MutationGuard) (generation : Option ℕ) : State V :=
  let s := s.observeKey g.key true
  let s := s.removeInflight g.key
  let s := s.removeNegative g.key
  let s := s.removeStale g.key
  let s := s.advanceGenerationAfterDelete g.key.text generation
  s.l1Delete g.storageKey

/-- The synchronous part of `deleteByPatternLocal`. -/
def deleteByPatternLocal (pattern : JsString) : State V :=
  let keep : ∀ {β : Type}, JsMap CacheKey β → List CacheKey := fun m =>
    m.keys.filter fun key => matchesPattern key.text pattern
  let s := { s with mutationEpoch := s.mutationEpoch + 1 }
  let s := (keep s.inflight).foldl removeInflight s
  let s := (keep s.negative).foldl removeNegative s
  let s := (keep s.stale).foldl removeStale s
  s.l1DeleteByPattern pattern

def markInvalidationUntrusted : State V :=
  { s with
    invalidationRevision := s.invalidationRevision + 1
    invalidationTrusted := false
    mutationEpoch := s.mutationEpoch + 1 }.dropLocal

/-- The synchronous part of `restoreInvalidationTrust`. -/
def restoreFlush : State V := { s with mutationEpoch := s.mutationEpoch + 1 }.dropLocal

/-- Whether `restoreInvalidationTrust`, begun at `revision`, may trust again. -/
def mayTrust (revision : ℕ) : Bool :=
  revision = s.invalidationRevision && !s.closed && !s.lastBusStatus.any EventBusStatus.revokes

/-- `closeResources` up to its first await. -/
def close : State V :=
  let s := { s with
    closed := true
    mutationEpoch := s.mutationEpoch + 1
    invalidationRevision := s.invalidationRevision + 1
    aborted := fun c => s.aborted c || s.activeLeaders.contains c
    activeLeaders := [] }
  let s := s.clearInflight.clearNegative
  let s := { s.release s.generationBytes .coordinationMetadata with
    generations := [], generationBytes := 0 }
  let s := s.release (s.seenEventBytes + s.keyRevisionBytes) .coordinationMetadata
  let s := { s with
    seenEvents := []
    seenEventBytes := 0
    keyRevisionBytes := 0
    cells := fun c => if s.keyRevisions.any (fun e => e.2 = c) then
      { s.cells c with registered := false } else s.cells c
    keyRevisions := [] }
  let s := s.clearStale
  if cfg.ownsL1 then { s with mem := s.mem.close } else s

/-! ### Event dedupe -/

def removeSeenEvent (id : JsString) : State V :=
  if s.seenEvents.has id then
    { s.release (keyMetadataBytes id) .coordinationMetadata with
      seenEvents := s.seenEvents.delete id
      seenEventBytes := s.seenEventBytes - keyMetadataBytes id }
  else s

def trimSeen (maxEntries bytes : ℕ) : ℕ → State V → State V × Bool
  | 0, s => (s, decide (s.seenEvents.length < maxEntries ∧
      s.seenEventBytes + bytes ≤ maxAuxiliaryMapBytes))
  | n + 1, s =>
    if s.seenEvents.length ≥ maxEntries ∨ s.seenEventBytes + bytes > maxAuxiliaryMapBytes then
      match s.seenEvents with
      | (id, _) :: _ => trimSeen maxEntries bytes n (s.removeSeenEvent id)
      | [] => (s, false)
    else (s, true)

def markEventSeen (id : JsString) : State V :=
  let bytes := keyMetadataBytes id
  if bytes > maxAuxiliaryMapBytes ∨ cfg.dedupeMaxEntries = 0 then s
  else
    let s := s.removeSeenEvent id
    let (s, room) := trimSeen cfg.dedupeMaxEntries bytes s.seenEvents.length s
    if !room || !s.admits bytes then s
    else
      { s.reserve bytes .coordinationMetadata with
        seenEvents := s.seenEvents.set id s.now, seenEventBytes := s.seenEventBytes + bytes }

/-! ### The shared tier -/

/-- What a command does to the shared tier.  A write or delete of an entry also
ends the lease on it. -/
def l2Exec : L2Op V → State V
  | .get _ | .has _ => s
  | .set key record ttlMs =>
    { s with
      l2 := s.l2.set key.text ⟨record, some (s.now + ttlMs)⟩
      locks := s.locks.delete key.text }
  | .delete key => { s with l2 := s.l2.delete key.text, locks := s.locks.delete key.text }
  | .acquireLock key token =>
    if s.locks.has key.text then s else { s with locks := s.locks.set key.text token }
  | .releaseLock key token =>
    if s.locks.get key.text = some token then { s with locks := s.locks.delete key.text } else s
  | .publishIfOwner key token record ttlMs =>
    if s.locks.get key.text = some token then
      { s with l2 := s.l2.set key.text ⟨record, some (s.now + ttlMs)⟩ }
    else s

/-- Redis keeps an entry through the millisecond of its expiry; an entry that goes sooner is
removed by others. -/
def l2Live (e : L2Entry V) : Bool := e.expireAt.all fun t => s.now ≤ t

def l2Result : L2Op V → L2Reply V
  | .get key => .found ((s.l2.get key.text).filter s.l2Live |>.map fun e =>
      (e.record, e.expireAt.map fun t => t - s.now))
  | .has key => .flag ((s.l2.get key.text).any s.l2Live)
  | .set _ _ _ | .delete _ | .releaseLock _ _ => .done
  | .acquireLock key _ => .flag (!s.locks.has key.text)
  | .publishIfOwner key token _ _ =>
    if s.locks.get key.text = some token then .published else .notOwner

end State

end HybridCache
