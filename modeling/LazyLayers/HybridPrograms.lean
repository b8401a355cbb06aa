/-
The asynchronous methods of `HybridCache` as programs.

A program performs labelled acts on the state of `HybridState`; a label names
what the act is done for (the guard it is done under, the value it carries), so
that a trace can be read as the history of the cache.  `await` is a query: the
answer says what the outside world did meanwhile.

* `command`, `runL2` — one command of the shared tier, behind the circuit
  breaker, the byte budget and the operation gate;
* `readValue`, `writeValue`, `loadAndStore`, … — the methods of the same names;
* `Call.body` — the entry points: the public methods, the handler of the event
  bus and the listener for its statuses.
-/
import LazyLayers.Async
import LazyLayers.HybridState

open Js Pattern Async Async.Prog

namespace HybridCache

/-! ### Labels -/

/-- What a guard is taken for. -/
inductive Origin
  | write
  | fill
  | read
  | remote
  deriving DecidableEq

/-- Why an operation on the shared tier failed. -/
inductive L2Failure
  | budget
  | gate
  | failed
  | timedOut
  deriving DecidableEq

/-- An invalidation event; `keyTypes` tells which keys are numbers. -/
inductive EventBody (V : Type)
  | del (keys : List JsString) (keyTypes : Option (List Bool)) (generation : Option ℕ)
  | set (keys : List JsString) (keyTypes : Option (List Bool)) (value : V) (ttlMs : Option ℕ)
      (generation : Option ℕ)
  | pattern (pattern : JsString)

structure InvalidationEvent (V : Type) where
  id : Option JsString
  source : JsString
  ts : ℕ
  scope : Option JsString
  body : EventBody V

/-- What the subscription hands over: whether it is a plain object and the scope it
then carries, and what `decodeInvalidationEvent` makes of it. -/
structure RawEvent (V : Type) where
  isObject : Bool
  scope : Option JsString
  decoded : Option (InvalidationEvent V)

inductive Act (V : Type)
  | observeKey (o : Origin) (g : MutationGuard) (mutate : Bool)
  | invalidateKey (g : MutationGuard) (generation : Option ℕ)
  | releaseKey (g : MutationGuard)
  /-- A lookup that saturated generations forbid. -/
  | refuse (key : CacheKey)
  | readL1 (g : MutationGuard) (hit : Option Octets)
  /-- A lookup that passes over the L1. -/
  | skipL1 (g : MutationGuard)
  | hasL1 (key : CacheKey)
  /-- The lookup of `has`. -/
  | seekL1 (key : CacheKey) (found : Bool)
  | deleteL1 (o : Origin) (g : MutationGuard)
  | insertL1 (o : Origin) (g : MutationGuard) (value : V) (buffer : Octets) (ttlMs : ℕ)
  /-- The built-in L1 has nothing to discard. -/
  | discardObsoleteL1 (o : Origin) (g : MutationGuard)
  | rememberStale (o : Origin) (g : MutationGuard) (value : V) (encoded : Octets) (opts : Options)
  | removeStale (key : CacheKey)
  | staleHit (key : CacheKey) (value : V)
  | setNegative (g : MutationGuard) (opts : Options)
  | removeNegative (key : CacheKey)
  | negativeHit (key : CacheKey)
  | removeInflight (key : CacheKey)
  | trackInflight (key : CacheKey) (id : ℕ) (opts : Options)
  /-- A load that is not shared. -/
  | bypassInflight (key : CacheKey)
  | finishInflight (key : CacheKey) (id : ℕ) (outcome : Except Err (Option V))
  | follow (key : CacheKey) (id : ℕ)
  | unfollow
  /-- A follower receives the outcome of the load it waited for. -/
  | joined (key : CacheKey) (id : ℕ) (outcome : Except Err (Option V))
  | startLoader (key : CacheKey)
  | loaded (key : CacheKey) (value : Option V)
  | advanceGeneration (key : JsString) (generation : Option ℕ)
  | saturate
  | deleteByPatternLocal (pattern : JsString)
  | busStatus (status : EventBusStatus)
  | markInvalidationUntrusted
  | restoreFlush (revision : ℕ)
  | trust (revision : ℕ)
  | close
  | lead (controller : ℕ)
  | unlead (controller : ℕ)
  | startLease (controller parent : ℕ)
  | abort (controller : ℕ)
  | takeToken
  | reserveQueue (bytes : ℕ)
  | releaseQueue (bytes : ℕ)
  | l2Skipped
  | l2Error (failure : L2Failure)
  /-- A command leaves the process, under a guard if it has one. -/
  | dispatch (g : Option MutationGuard) (op : L2Op V)
  | dispatchPattern (pattern : JsString) (keys : List CacheKey)
  /-- A write, publication or priming is given up: its guard has become obsolete. -/
  | skip (o : Origin) (g : MutationGuard)
  | skipDelete (g : MutationGuard)
  /-- The shared tier executes a command. -/
  | execute (g : Option MutationGuard) (op : L2Op V) (reply : L2Reply V)
  /-- The call returned to the process. -/
  | returned (g : Option MutationGuard) (op : L2Op V) (reply : L2Reply V)
  | abandon (ops : List (L2Op V))
  | publish (event : InvalidationEvent V)
  | markEventSeen (id : JsString)
  | removeSeenEvent (id : JsString)
  /-- The handler leaves an event, or what is left of it, alone. -/
  | ignoreEvent
  /-- A key of an event is passed over: its generation is stale. -/
  | ignoreKey (key : JsString)
  /-- Time passes between two readings of the clock in one turn. -/
  | pause (ms : ℕ)

/-- What happens without the cache doing anything. -/
inductive Env (V : Type)
  | tick (ms : ℕ)
  /-- Other users of the ledger reserve, release or come under pressure. -/
  | ledger (budget : MemoryBudget)
  | evictStale
  | evictL1
  | l2Circuit (isOpen : Bool)
  | eventBusCircuit (isOpen : Bool)
  | loseLease (controller : ℕ)
  | executeAbandoned (index : ℕ)
  /-- Other processes change the shared tier; entries and leases expire. -/
  | shared (l2 : JsMap JsString (L2Entry V)) (locks : JsMap JsString ℕ)

section Effects

variable {V : Type} (cfg : Config V)

def Act.apply (s : State V) : Act V → State V
  | observeKey _ g mutate => s.observeKey g.key mutate
  | invalidateKey g generation => s.invalidateKey g generation
  | releaseKey g => s.releaseKey g
  | readL1 g _ => s.l1Touch g.storageKey
  | hasL1 key => s.l1Has key
  | seekL1 key _ => s.l1Has key
  | deleteL1 _ g => s.l1Delete g.storageKey
  | insertL1 _ g _ buffer ttlMs => s.l1SetEncoded cfg g.storageKey buffer ttlMs
  | rememberStale _ g _ encoded opts => s.rememberStale cfg g.key encoded opts
  | removeStale key => s.removeStale key
  | setNegative g opts => s.setNegative cfg g.key opts
  | removeNegative key => s.removeNegative key
  | removeInflight key => s.removeInflight key
  | trackInflight key _ opts => s.trackInflight key opts
  | finishInflight key id outcome => s.finishInflight key id outcome
  | follow _ _ =>
    { s.reserve followerMetadataBytes .coordinationMetadata with
      activeFollowers := s.activeFollowers + 1 }
  | unfollow =>
    { s.release followerMetadataBytes .coordinationMetadata with
      activeFollowers := s.activeFollowers - 1 }
  | advanceGeneration key generation => s.advanceGenerationAfterRemoteSet key generation
  | saturate => s.saturateGenerationTracking
  | deleteByPatternLocal pattern => s.deleteByPatternLocal pattern
  | busStatus status =>
    let s := { s with lastBusStatus := some status }
    if status.revokes then s.markInvalidationUntrusted else s
  | markInvalidationUntrusted => s.markInvalidationUntrusted
  | restoreFlush _ => s.restoreFlush
  | trust _ => { s with invalidationTrusted := true }
  | close => s.close cfg
  | lead controller =>
    { s with
      activeLeaders := s.activeLeaders ++ [controller]
      nextController := s.nextController + 1 }
  | unlead controller => { s with activeLeaders := s.activeLeaders.erase controller }
  | startLease controller parent =>
    { s with
      leaseParent := Function.update s.leaseParent controller (some parent)
      nextController := s.nextController + 1 }
  | abort controller => { s with aborted := Function.update s.aborted controller true }
  | takeToken => { s with nextToken := s.nextToken + 1 }
  | reserveQueue bytes => s.reserve bytes .queue
  | releaseQueue bytes => s.release bytes .queue
  | execute _ op _ => s.l2Exec op
  | abandon ops => { s with abandoned := s.abandoned ++ ops }
  | markEventSeen id => s.markEventSeen cfg id
  | removeSeenEvent id => s.removeSeenEvent id
  | pause ms => { s with now := s.now + ms }
  | refuse _ | skipL1 _ | staleHit _ _ | negativeHit _ | bypassInflight _ | joined _ _ _
  | startLoader _ | loaded _ _ | discardObsoleteL1 _ _ | l2Skipped | l2Error _ | dispatch _ _
  | dispatchPattern _ _ | skip _ _ | skipDelete _ | returned _ _ _ | publish _ | ignoreEvent
  | ignoreKey _ => s

def Env.apply (s : State V) : Env V → State V
  | tick ms => { s with now := s.now + ms }
  | ledger budget => { s with mem := { s.mem with budget := budget } }
  | evictStale => s.evictOneStale
  | evictL1 => { s with mem := s.mem.pop }
  | l2Circuit isOpen => { s with l2CircuitOpen := isOpen }
  | eventBusCircuit isOpen => { s with eventBusCircuitOpen := isOpen }
  | loseLease controller =>
    { s with
      leaseLost := Function.update s.leaseLost controller true
      aborted := Function.update s.aborted controller true }
  | executeAbandoned index =>
    match s.abandoned[index]? with
    | some op => { s.l2Exec op with abandoned := s.abandoned.eraseIdx index }
    | none => s
  | shared l2 locks => { s with l2 := l2, locks := locks }

end Effects

/-! ### Queries -/

/-- How a command fared on its way to the shared tier. -/
inductive Sent
  | executed
  | failed
  | timedOut
  deriving DecidableEq

/-- How the caller's loader ended. -/
inductive Loaded (V : Type)
  | value (v : Option V)
  | failed
  | timedOut

/-- What a program may wait for: the next turn, admission by the operation gate, the
shared tier, its reply, the pages of a scan, the origin gate, the loader, a load in
flight, or the next attempt at a lock. -/
inductive Query
  | hop
  | gate
  | request
  | reply
  | scan
  | origin
  | loader
  | join (id : ℕ)
  | sleep

abbrev Resp (V : Type) : Query → Type
  | .hop => Unit
  | .gate => Bool
  | .request => Sent
  | .reply => Bool
  | .scan => Option (List CacheKey)
  | .origin => Option Err
  | .loader => Loaded V
  | .join _ => Unit
  -- whether it slept at all, and whether the deadline will have passed
  | .sleep => Bool × Bool

abbrev P (V α : Type) := Prog (State V) (Act V) Query (Resp V) Err α

section Programs

variable {V α : Type} (cfg : Config V)

abbrev hop : P V Unit := ask Query.hop
abbrev askGate : P V Bool := ask Query.gate
abbrev askRequest : P V Sent := ask Query.request
abbrev askReply : P V Bool := ask Query.reply
abbrev askScan : P V (Option (List CacheKey)) := ask Query.scan
abbrev askOrigin : P V (Option Err) := ask Query.origin
abbrev askLoader : P V (Loaded V) := ask Query.loader
abbrev askJoin (id : ℕ) : P V Unit := ask (Query.join id)
abbrev askSleep : P V (Bool × Bool) := ask Query.sleep

/-- `await p`: the caller goes on in a later turn. -/
def later (p : P V α) : P V α := p.andThen fun r => hop.andThen fun _ => ofExcept r

/-! ### The shared tier -/

/-- One command.  A caller that times out leaves it behind, still to be executed. -/
def command (g : Option MutationGuard) (op : L2Op V) : P V (Except L2Failure (L2Reply V)) := do
  perform (.dispatch g op)
  let sent ← askRequest
  match sent with
  | .executed => do
    let s ← getState
    perform (.execute g op (s.l2Result op))
    let delivered ← askReply
    if delivered then do
      perform (.returned g op (s.l2Result op))
      pure (.ok (s.l2Result op))
    else pure (.error .failed)
  | .failed => pure (.error .failed)
  | .timedOut => do
    perform (.abandon [op])
    pure (.error .timedOut)

/-- `payloadBytes + Buffer.byteLength(String(keyOrPattern)) * 2 + 128`. -/
def retainedBytes (text : JsString) (payloadBytes : ℕ) : ℕ :=
  payloadBytes + (utf8 text).length * 2 + 128

/-- The end of `runL2`, once its closure has settled. -/
def settle (bytes : ℕ) : Except L2Failure α → P V (Option α)
  | .ok a => do
    perform (.releaseQueue bytes)
    pure (some a)
  -- the underlying operation keeps its reservation until it settles
  | .error .timedOut => do
    perform (.l2Error .timedOut)
    pure none
  | .error failure => do
    perform (.releaseQueue bytes)
    perform (.l2Error failure)
    pure none

/-- `runL2`; `none` stands for the fallback. -/
def runL2 (text : JsString) (payloadBytes : ℕ) (call : P V (Except L2Failure α)) :
    P V (Option α) := do
  let s ← getState
  let bytes := retainedBytes text payloadBytes
  if cfg.l2.isNone then pure none
  else if s.l2CircuitOpen then do
    perform .l2Skipped
    pure none
  else if !s.admits bytes then do
    perform (.l2Error .budget)
    pure none
  else do
    perform (.reserveQueue bytes)
    -- a closed gate rejects at once
    if s.closed then settle bytes (.error .gate)
    else do
      let admitted ← askGate
      if admitted then do
        let r ← call
        settle bytes r
      else settle bytes (.error .gate)

/-- A value read from the shared tier, with the buffer it came in and the life it had
left then. -/
structure L2Hit (V : Type) where
  value : V
  reusable : Option (Octets × Option ℕ)

def decodeRecord (record : Record V) (life : Option ℕ) : Option (L2Hit V) :=
  match record with
  | .encoded buffer => (cfg.codec.decode buffer).map fun v => ⟨v, some (buffer, life)⟩
  | .plain v => some ⟨v, none⟩

/-- The read of `readValue`, of `prime-current` and of `read-after-lease-loss`. -/
def readL2 (g : MutationGuard) : P V (Option (L2Hit V)) := do
  let reply ← runL2 cfg g.storageKey.text 0 (command (some g) (.get g.storageKey))
  match reply with
  | some (.found (some (record, life))) => pure (decodeRecord cfg record life)
  | _ => pure none

/-! ### Guards and lookups -/

def observe (o : Origin) (key : CacheKey) (mutate : Bool) : P V MutationGuard := do
  let s ← getState
  perform (.observeKey o (s.guardFor cfg key mutate) mutate)
  pure (s.guardFor cfg key mutate)

def ensureOpen : P V Unit := do
  let s ← getState
  if s.closed then .throw .cacheClosed else pure ()

/-- `validateCacheBudgets` on the options of a call. -/
def validateCacheBudgets (opts : Options) : P V Unit :=
  if opts.ttlMs = 0 then .throw .invalidOptions else pure ()

def hasNegative (key : CacheKey) : P V Bool := do
  let s ← getState
  if s.closed || !s.versionedCacheSafe cfg || !s.invalidationTrusted then pure false
  else match s.negative.get key with
    | none => pure false
    | some e =>
      if e.expiresAt ≤ s.now then do
        perform (.removeNegative key)
        pure false
      else do
        perform (.negativeHit key)
        pure true

def getStale (key : CacheKey) : P V (Option V) := do
  let s ← getState
  if s.closed || !s.versionedCacheSafe cfg || !s.invalidationTrusted then pure none
  else match s.stale.get key with
    | none => pure none
    | some e =>
      if e.expiresAt ≤ s.now then do
        perform (.removeStale key)
        pure none
      else match cfg.codec.decode e.encoded with
        | none => pure none
        | some v => do
          perform (.staleHit key v)
          pure (some v)

def defaultPolicy : Policy := str "\x7b\x7d"

def rememberStale (o : Origin) (g : MutationGuard) (v : V) (opts : Options)
    (reusable : Option Octets) : P V Unit :=
  match reusable.or (cfg.codec.serialize defaultPolicy v) with
  | some encoded => perform (.rememberStale o g v encoded opts)
  | none => pure ()

/-! ### L1 writes -/

/-- `l1.setEncoded`, or `l1.set` where there is no encoding: the store then tries its
own policy, and drops the entry if that fails too. -/
def setL1Only (o : Origin) (g : MutationGuard) (v : V) (opts : Options)
    (encoded : Option Octets) : P V Unit :=
  if cfg.hasL1 then
    match encoded.or (cfg.codec.serialize cfg.storeCodec v) with
    | some buffer => perform (.insertL1 o g v buffer opts.ttlMs)
    | none => perform (.deleteL1 o g)
  else pure ()

/-- What `promoteToL1` does instead of inserting. -/
def bypass (o : Origin) (g : MutationGuard) (invalidateOnBypass : Bool) : P V Unit :=
  if invalidateOnBypass then do
    perform (.deleteL1 o g)
    hop
  else pure ()

/-- The bytes to promote: those of the shared tier if both tiers use one policy. -/
def promotedBytes (v : V) (opts : Options) (reusable : Option (Octets × Option ℕ)) :
    Option Octets :=
  match reusable with
  | some (buffer, _) =>
    if opts.codecL1 = opts.codecL2 then some buffer else cfg.codec.serialize opts.codecL1 v
  | none => cfg.codec.serialize opts.codecL1 v

def promoteToL1 (o : Origin) (g : MutationGuard) (v : V) (opts : Options)
    (reusable : Option (Octets × Option ℕ)) (invalidateOnBypass : Bool) : P V Unit := do
  let s ← getState
  if !cfg.hasL1 then pure ()
  else match promotedBytes cfg v opts reusable with
    | none => bypass o g invalidateOnBypass
    | some buffer =>
      if !s.mem.budget.permitsPromotion (MemoryStore.entryBytes buffer g.storageKey) then
        bypass o g invalidateOnBypass
      else if reusable.bind Prod.snd = some 0 then bypass o g invalidateOnBypass
      else do
        perform (.insertL1 o g v buffer (((reusable.bind Prod.snd).map (min opts.ttlMs)).getD
          opts.ttlMs))
        hop
        perform (.hasL1 g.storageKey)
        hop

/-! ### Reads -/

/-- The L1 part of `readValue`. -/
def readL1 (g : MutationGuard) : P V (Option V) := do
  let s ← getState
  if !s.invalidationTrusted || !cfg.hasL1 then do
    perform (.skipL1 g)
    pure none
  else do
    let hit := (s.l1Entry g.storageKey).map L1Entry.buffer
    perform (.readL1 g hit)
    hop
    let s ← getState
    match hit with
    | none => pure none
    | some buffer =>
      match cfg.codec.decode buffer with
      | none =>
        -- a corrupt record
        if s.isCurrent cfg g && s.invalidationTrusted then do
          perform (.deleteL1 .read g)
          hop
          pure none
        else pure none
      | some v =>
        if s.isCurrent cfg g && s.invalidationTrusted then do
          rememberStale cfg .read g v cfg.options (some buffer)
          pure (some v)
        else pure (some v)

/-- The rest of the life of a hit at `now`, when its read began at `started`. -/
def L2Hit.agedBy (hit : L2Hit V) (started now : ℕ) : Option (Octets × Option ℕ) :=
  hit.reusable.map fun (buffer, life) => (buffer, life.map fun ms => ms - (now - started))

/-- The L2 part of `readValue`, from its reply on. -/
def promoteHit (g : MutationGuard) (started : ℕ) (hit : L2Hit V) : P V (Option V) := do
  let s ← getState
  if !s.invalidationTrusted || !s.isCurrent cfg g then pure (some hit.value)
  else do
    later (promoteToL1 cfg .read g hit.value cfg.options (hit.agedBy started s.now) false)
    let s ← getState
    if !s.invalidationTrusted || !s.isCurrent cfg g then do
      perform (.discardObsoleteL1 .read g)
      hop
      pure (some hit.value)
    else do
      rememberStale cfg .read g hit.value cfg.options (hit.reusable.map Prod.fst)
      pure (some hit.value)

/-- `this.invalidationTrusted && this.hasNegative(key)`. -/
def trustedNegative (key : CacheKey) : P V Bool := do
  let s ← getState
  if s.invalidationTrusted then hasNegative cfg key else pure false

def readValue (g : MutationGuard) : P V (Option V) := do
  let negative ← trustedNegative cfg g.key
  if negative then pure none
  else do
    let local' ← readL1 cfg g
    match local' with
    | some v => pure (some v)
    | none => do
      let s ← getState
      let hit ← later (readL2 cfg g)
      match hit with
      | none => pure none
      | some hit => promoteHit cfg g s.now hit

def get (key : CacheKey) : P V (Option V) := do
  ensureOpen
  let s ← getState
  if !s.versionedCacheSafe cfg then do
    perform (.refuse key)
    pure none
  else do
    let g ← observe cfg .read key false
    (later (readValue cfg g)).finally' (perform (.releaseKey g))

def has (key : CacheKey) : P V Bool := do
  ensureOpen
  let s ← getState
  if !s.versionedCacheSafe cfg then do
    perform (.refuse key)
    pure false
  else do
    let negative ← hasNegative cfg key
    if negative then pure false
    else do
      let s ← getState
      let storageKey := s.toStorageKey cfg key
      let inL2 : P V Bool := do
        let reply ← runL2 cfg storageKey.text 0 (command none (.has storageKey))
        match reply with
        | some (.flag b) => pure b
        | _ => pure false
      if s.invalidationTrusted && cfg.hasL1 then do
        perform (.seekL1 storageKey (s.l1Entry storageKey).isSome)
        hop
        if (s.l1Entry storageKey).isSome then pure true else inL2
      else inL2

/-! ### Writes -/

/-- The encodings of `writeValue`, for the L1 and for the shared tier. -/
def encodeL1 (v : V) (opts : Options) : Option Octets := cfg.codec.serialize opts.codecL1 v

def encodeL2 (v : V) (opts : Options) : Option Octets :=
  if (cfg.l2.map L2Features.encoded).getD false then cfg.codec.serialize opts.codecL2 v else none

/-- What the shared tier is given for a value. -/
def recordOf (v : V) (encoded : Option Octets) : Record V :=
  match encoded with
  | some buffer => .encoded buffer
  | none => .plain v

/-- The closure that `writeValue` hands to `runL2`. -/
def writeL2 (o : Origin) (g : MutationGuard) (v : V) (opts : Options) :
    P V (Except L2Failure Unit) := do
  let s ← getState
  if !s.isCurrent cfg g then do
    perform (.skip o g)
    hop
    pure (.ok ())
  else do
    let r ← command (some g)
      (.set g.storageKey (recordOf v (encodeL2 cfg v opts)) opts.l2TtlMs)
    pure (r.map fun _ => ())

def writeValue (o : Origin) (g : MutationGuard) (v : V) (opts : Options) : P V Bool := do
  let s ← getState
  if !s.isCurrent cfg g then do
    perform (.skip o g)
    pure false
  else do
    later (setL1Only cfg o g v opts (encodeL1 cfg v opts))
    let s ← getState
    if !s.isCurrent cfg g then do
      perform (.discardObsoleteL1 o g)
      hop
      pure false
    else do
      let _ ← later (runL2 cfg g.storageKey.text
        (((encodeL2 cfg v opts).map List.length).getD 0) (writeL2 cfg o g v opts))
      let s ← getState
      if !s.isCurrent cfg g then do
        perform (.discardObsoleteL1 o g)
        hop
        pure false
      else do
        rememberStale cfg o g v opts ((encodeL1 cfg v opts).or (encodeL2 cfg v opts))
        perform (.removeNegative g.key)
        pure true

def set (key : CacheKey) (v : V) (opts : Options) : P V Unit := do
  ensureOpen
  validateCacheBudgets opts
  let g ← observe cfg .write key true
  (do
    let _ ← later (writeValue cfg .write g v opts)
    pure ()).finally' (perform (.releaseKey g))

/-! ### Invalidation -/

def publishInvalidation (event : InvalidationEvent V) : P V Unit := do
  let s ← getState
  if s.closed || !cfg.eventBus || s.eventBusCircuitOpen then pure ()
  else do
    perform (.publish { event with scope := cfg.eventNamespace })
    hop

/-- The closure that `deleteLocal` hands to `runL2`. -/
def deleteL2 (g : MutationGuard) : P V (Except L2Failure Unit) := do
  let s ← getState
  if !s.closed && (g.revision = (s.cells g.cell).value ||
      g.storageKey ≠ s.toStorageKey cfg g.key) then do
    let r ← command (some g) (.delete g.storageKey)
    pure (r.map fun _ => ())
  else do
    perform (.skipDelete g)
    hop
    pure (.ok ())

/-- `deleteLocal` and, where the publisher owns the shared tier, `deleteLocalOnly`. -/
def deleteLocal (shared : Bool) (key : CacheKey) (generation : Option ℕ) : P V Unit := do
  let s ← getState
  let g := s.guardFor cfg key true
  perform (.invalidateKey g generation)
  (do
    hop
    if shared then do
      let _ ← later (runL2 cfg g.storageKey.text 0 (deleteL2 cfg g))
      pure ()
    else pure ()).finally' (perform (.releaseKey g))

def generationForEvent (s : State V) (key : JsString) : Option ℕ :=
  if s.generationTrackingSaturated && !s.generations.has key then none
  else some (s.getGeneration key)

/-- Event ids are fresh; the model gives them no content. -/
def ownEvent (s : State V) (body : EventBody V) : InvalidationEvent V :=
  ⟨none, cfg.source, s.now, none, body⟩

def delete (key : CacheKey) : P V Unit := do
  ensureOpen
  later (deleteLocal cfg true key none)
  let s ← getState
  later (publishInvalidation cfg (ownEvent cfg s
    (.del [key.text] (some [key.isNumber]) (generationForEvent s key.text))))

/-- Delete the keys that a scan found, one after the other. -/
def deleteScanned : List CacheKey → P V (Except L2Failure Unit)
  | [] => pure (.ok ())
  | key :: keys => do
    let sent ← askRequest
    match sent with
    | .executed => do
      perform (.execute none (.delete key) .done)
      deleteScanned keys
    | .failed => pure (.error .failed)
    | .timedOut => do
      perform (.abandon ((key :: keys).map .delete))
      pure (.error .timedOut)

/-- `l2.deleteByPattern`: a scan sees every matching key that is there when it begins,
in some order, and perhaps others. -/
def deleteByPatternL2 (pattern : JsString) : P V (Except L2Failure Unit) := do
  let s ← getState
  let keys := (s.l2.keys.filter fun text => matchesPattern text pattern).map CacheKey.ofString
  perform (.dispatchPattern pattern keys)
  let scanned ← askScan
  match scanned with
  | none => pure (.error .failed)
  | some order =>
    deleteScanned ((order.filter fun key => matchesPattern key.text pattern) ++ keys)

def deleteByPatternLocal (shared : Bool) (pattern : JsString) : P V Unit := do
  perform (.deleteByPatternLocal pattern)
  hop
  if shared then do
    let _ ← later (runL2 cfg pattern 0 (deleteByPatternL2 pattern))
    pure ()
  else pure ()

def deleteByPattern (pattern : JsString) : P V Unit := do
  ensureOpen
  later (deleteByPatternLocal cfg true pattern)
  let s ← getState
  later (publishInvalidation cfg (ownEvent cfg s (.pattern pattern)))

/-! ### Loads -/

/-- A held lease: its abort controller and the token it was acquired with. -/
structure LoadLease where
  controller : ℕ
  token : ℕ

def throwIfAborted (controller : ℕ) : P V Unit := do
  let s ← getState
  if s.isAborted controller then .throw .aborted else pure ()

def assertOwned (key : CacheKey) (lease : Option LoadLease) : P V Unit := do
  let s ← getState
  match lease with
  | some lease => if s.leaseLost lease.controller then .throw (.lockLost key) else pure ()
  | none => pure ()

def locks : Bool := (cfg.l2.map L2Features.locks).getD false

/-- `getAtomicPublisher(this.l2)`. -/
def atomicPublisher : Bool := (cfg.l2.map L2Features.atomicPublication).getD false

/-- A cached value or a known absence ends the load. -/
def recheck (key : CacheKey) : P V (Option (Option V)) := do
  let cached ← later (get cfg key)
  match cached with
  | some v => pure (some (some v))
  | none => do
    let negative ← hasNegative cfg key
    pure (if negative then some none else none)

def acquireOrigin (opts : Options) : P V Unit :=
  if opts.originLoad then do
    let refused ← askOrigin
    match refused with
    | some e => .throw e
    | none => pure ()
  else pure ()

/-- `runLoaderWithTimeouts`. -/
def runLoader (key : CacheKey) (controller : ℕ) : P V (Option V) := do
  perform (.startLoader key)
  let _ ← getStale cfg key
  let loaded ← askLoader
  match loaded with
  | .value v => do
    perform (.loaded key v)
    pure v
  | .failed => .throw .loaderFailed
  | .timedOut => do
    perform (.abort controller)
    .throw .loaderTimeout

/-- The `try` of `loadAndStore`: an answer found on the way, or the loader's value. -/
def loadValue (key : CacheKey) (opts : Options) (controller : ℕ) (lease : Option LoadLease) :
    P V (Option V ⊕ Option V) := do
  throwIfAborted controller
  assertOwned key lease
  let queued ← recheck cfg key
  match queued with
  | some answer => pure (.inl answer)
  | none => do
    acquireOrigin opts
    throwIfAborted controller
    assertOwned key lease
    let admitted ← later (get cfg key)
    throwIfAborted controller
    assertOwned key lease
    match admitted with
    | some v => pure (.inl (some v))
    | none => do
      let negative ← hasNegative cfg key
      if negative then pure (.inl none)
      else do
        let v ← later (runLoader cfg key controller)
        assertOwned key lease
        pure (.inr v)

/-- The stale value, where the caller accepts one. -/
def failSafe (key : CacheKey) (opts : Options) (otherwise : P V (Option V)) : P V (Option V) := do
  let stale ← getStale cfg key
  if stale.isSome && opts.failSafe then pure stale else otherwise

/-- The broadcast at the end of `loadAndStore`. -/
def broadcast (g : MutationGuard) (v : V) (opts : Options) : P V Unit := do
  let s ← getState
  if cfg.eventBus && cfg.broadcastSet && s.isCurrent cfg g && cfg.broadcastable g.key v then
    later (publishInvalidation cfg (ownEvent cfg s (.set [g.key.text] (some [g.key.isNumber]) v
      (some opts.ttlMs) (generationForEvent s g.key.text))))
  else pure ()

/-- The closure of `publishIfOwner`; `none` is the publication that did not happen. -/
def publishL2 (g : MutationGuard) (token : ℕ) (buffer : Octets) (opts : Options) :
    P V (Except L2Failure (Option (L2Reply V))) := do
  let s ← getState
  if s.isCurrent cfg g then do
    let r ← command (some g) (.publishIfOwner g.storageKey token (.encoded buffer) opts.l2TtlMs)
    pure (r.map some)
  else do
    perform (.skip .fill g)
    hop
    pure (.ok none)

/-- What `loadAndStore` does once its value is published. -/
def installPublished (g : MutationGuard) (v : V) (opts : Options) (buffer : Octets) :
    P V (Option V) := do
  let s ← getState
  if !s.invalidationTrusted || !s.isCurrent cfg g then pure (some v)
  else do
    let encodedL1 := if opts.codecL1 = opts.codecL2 then some buffer
      else cfg.codec.serialize opts.codecL1 v
    later (setL1Only cfg .fill g v opts encodedL1)
    let s ← getState
    if !s.invalidationTrusted || !s.isCurrent cfg g then do
      perform (.discardObsoleteL1 .fill g)
      hop
      pure (some v)
    else do
      rememberStale cfg .fill g v opts (encodedL1.or (some buffer))
      perform (.removeNegative g.key)
      broadcast cfg g v opts
      pure (some v)

/-- Publication under a lease. -/
def publishAtomically (g : MutationGuard) (v : V) (opts : Options) (token : ℕ) :
    P V (Option V) :=
  match cfg.codec.serialize opts.codecL2 v with
  | none => pure (some v)
  | some buffer => do
    let publication ← later (runL2 cfg g.storageKey.text buffer.length
      (publishL2 cfg g token buffer opts))
    match publication with
    | some (some .notOwner) => do
      let winner ← later (readL2 cfg g)
      match winner with
      | some hit => pure (some hit.value)
      | none => .throw (.lockLost g.key)
    | some (some .published) => installPublished cfg g v opts buffer
    | _ => pure (some v)

/-- Publication without the stronger contract. -/
def publishPlainly (g : MutationGuard) (v : V) (opts : Options) (lease : Option LoadLease) :
    P V (Option V) := do
  let written ← later (writeValue cfg .fill g v opts)
  if written then do
    assertOwned g.key lease
    broadcast cfg g v opts
    pure (some v)
  else pure (some v)

/-- `loadAndStore`, once the loader has answered. -/
def storeLoaded (g : MutationGuard) (opts : Options) (lease : Option LoadLease) (v : Option V) :
    P V (Option V) := do
  match v with
  | none => do
    let s ← getState
    if !g.publicationAllowed || !s.isCurrent cfg g then pure none
    else do
      perform (.setNegative g opts)
      failSafe cfg g.key opts (pure none)
  | some v => do
    assertOwned g.key lease
    let s ← getState
    if !g.publicationAllowed || !s.isCurrent cfg g then pure (some v)
    else match lease with
      | some held =>
        if atomicPublisher cfg then publishAtomically cfg g v opts held.token
        else publishPlainly cfg g v opts lease
      | none => publishPlainly cfg g v opts none

def loadAndStore (g : MutationGuard) (opts : Options) (controller : ℕ)
    (lease : Option LoadLease) : P V (Option V) := do
  let outcome ← (loadValue cfg g.key opts controller lease).catching fun e => do
    let v ← failSafe cfg g.key opts (.throw e)
    pure (.inl v)
  match outcome with
  | .inl answer => pure answer
  | .inr v => storeLoaded cfg g opts lease v

/-- A load under the lease it has just acquired. -/
def loadLeased (g : MutationGuard) (opts : Options) (controller token : ℕ) :
    P V (Option V) := do
  let s ← getState
  let lease := s.nextController
  perform (.startLease lease controller)
  (do
    let found ← recheck cfg g.key
    match found with
    | some answer => pure answer
    | none =>
      later (loadAndStore cfg { g with signal := some lease } opts lease (some ⟨lease, token⟩)))
    |>.finally' (do
      let _ ← later (runL2 cfg g.storageKey.text 0
        (command (some g) (.releaseLock g.storageKey token)))
      pure ())

/-- A load without permission to publish under the stronger contract. -/
def loadUnleased (g : MutationGuard) (opts : Options) (controller : ℕ) : P V (Option V) :=
  loadAndStore cfg (if atomicPublisher cfg then { g with publicationAllowed := false } else g)
    opts controller none

/-- The lock did not come free in time. -/
def lockTimedOut (g : MutationGuard) (opts : Options) (controller : ℕ) : P V (Option V) :=
  if opts.onTimeoutLoad then loadUnleased cfg g opts controller
  else failSafe cfg g.key opts (.throw (.lockTimeout g.key))

/-- The wait for the lock; `rounds` bounds the attempts before the deadline. -/
def acquireLoop (g : MutationGuard) (opts : Options) (controller token : ℕ) :
    ℕ → Bool → P V (Option V)
  | 0, _ => lockTimedOut cfg g opts controller
  | rounds + 1, contended => do
    throwIfAborted controller
    ensureOpen
    let acquired ← later (runL2 cfg g.storageKey.text 0
      (command (some g) (.acquireLock g.storageKey token)))
    match acquired, contended with
    | some (.flag true), _ => loadLeased cfg g opts controller token
    | none, false => loadUnleased cfg g opts controller
    | _, _ => do
      let (slept, expired) ← askSleep
      let s ← getState
      if slept && s.isAborted controller then .throw .aborted
      else do
        let found ← recheck cfg g.key
        match found with
        | some answer => pure answer
        | none =>
          if expired then lockTimedOut cfg g opts controller
          else acquireLoop g opts controller token rounds true

def loadWithDistributedLockInternal (g : MutationGuard) (opts : Options) (controller rounds : ℕ) :
    P V (Option V) := do
  if !opts.distributedLock || !locks cfg then loadAndStore cfg g opts controller none
  else do
    let s ← getState
    perform .takeToken
    acquireLoop cfg g opts controller s.nextToken rounds false

def loadWithDistributedLock (key : CacheKey) (opts : Options) (rounds : ℕ) : P V (Option V) := do
  ensureOpen
  let s ← getState
  if s.activeLeaders.length ≥ cfg.maxActiveLeaders then
    failSafe cfg key opts (.throw (.originOverload key))
  else do
    let g ← observe cfg .fill key false
    perform (.lead s.nextController)
    (later (loadWithDistributedLockInternal cfg { g with signal := some s.nextController } opts
      s.nextController rounds)).finally' (do
        perform (.unlead s.nextController)
        perform (.releaseKey g))

/-! ### Single flight -/

/-- The outcome of the load `id`; the wait for it ends only once there is one. -/
def receive (key : CacheKey) (id : ℕ) : P V (Option V) := do
  askJoin id
  let s ← getState
  match s.outcomes id with
  | some outcome => do
    perform (.joined key id outcome)
    ofExcept outcome
  | none => .throw .aborted

def joinInflight (key : CacheKey) (id : ℕ) (opts : Options) : P V (Option V) := do
  let s ← getState
  if s.activeFollowers ≥ min cfg.options.maxWaiters opts.maxWaiters ||
      !s.admits followerMetadataBytes then
    .throw (.inflightOverload key)
  else do
    perform (.follow key id)
    (receive key id).finally' (perform .unfollow)

/-- What time does to a `getOrSet`: how often it asks for the lock before its deadline, and
the milliseconds between two readings of the clock in one turn. -/
structure Timing where
  rounds : ℕ := 0
  /-- From pruning the load of the key to the look at what is left, before the lookup. -/
  early : ℕ := 0
  /-- The same, behind the lookup. -/
  late : ℕ := 0
  /-- From there to the expiry of the new load. -/
  entry : ℕ := 0
  deriving DecidableEq, Repr

def pruneInflightKey (key : CacheKey) : P V Unit := do
  let s ← getState
  if (s.inflight.get key).any fun e => e.expiresAt ≤ s.now then perform (.removeInflight key)
  else pure ()

/-- `pruneInflightKey`, and the load of the key if it is live `ms` milliseconds later. -/
def liveInflight (key : CacheKey) (ms : ℕ) : P V (Option ℕ) := do
  pruneInflightKey key
  perform (.pause ms)
  let s ← getState
  pure (((s.inflight.get key).filter fun e => s.now < e.expiresAt).map InflightEntry.id)

/-- A load that is not shared with other callers. -/
def loadAlone (key : CacheKey) (opts : Options) (rounds : ℕ) : P V (Option V) := do
  perform (.bypassInflight key)
  later (loadWithDistributedLock cfg key opts rounds)

/-- The promise of the load `id`, with its `finally`. -/
def tracked (key : CacheKey) (id : ℕ) (p : P V (Option V)) : P V (Option V) :=
  p.andThen fun outcome => (perform (.finishInflight key id outcome)).andThen fun _ =>
    ofExcept outcome

/-- An expired load that has not been pruned is overwritten. -/
def startLoad (key : CacheKey) (opts : Options) (timing : Timing) : P V (Option V) := do
  let s ← getState
  if s.canTrackInflight key cfg.options then do
    perform (.pause timing.entry)
    perform (.trackInflight key s.nextInflight opts)
    tracked key s.nextInflight (do
      hop
      later (loadWithDistributedLock cfg key opts timing.rounds))
  else loadAlone cfg key opts timing.rounds

/-- `getOrSet` behind its first look at the loads in flight. -/
def getOrLoad (key : CacheKey) (opts : Options) (timing : Timing) : P V (Option V) := do
  let cached ← later (get cfg key)
  match cached with
  | some v => pure (some v)
  | none => do
    let s ← getState
    if s.closed then .throw .originClosed
    else do
      let negative ← trustedNegative cfg key
      if negative then pure none
      else if !opts.inflight then loadAlone cfg key opts timing.rounds
      else do
        let existing ← liveInflight key timing.late
        match existing with
        | some id => joinInflight cfg key id opts
        | none => startLoad cfg key opts timing

def getOrSet (key : CacheKey) (opts : Options) (timing : Timing) : P V (Option V) := do
  ensureOpen
  validateCacheBudgets opts
  if !opts.inflight then getOrLoad cfg key opts timing
  else do
    let existing ← liveInflight key timing.early
    match existing with
    | some id => joinInflight cfg key id opts
    | none => getOrLoad cfg key opts timing

/-! ### The event bus -/

def restoreInvalidationTrust : P V Unit := do
  let s ← getState
  perform (.restoreFlush s.invalidationRevision)
  hop
  let s' ← getState
  if s'.mayTrust s.invalidationRevision then perform (.trust s.invalidationRevision) else pure ()

def onStatus (status : EventBusStatus) : P V Unit := do
  let s ← getState
  if s.closed then pure ()
  else do
    perform (.busStatus status)
    if status = .subscribed then restoreInvalidationTrust else pure ()

def eventKey (rawKey : JsString) (isNumber : Option Bool) : CacheKey :=
  if isNumber = some true then ⟨true, cfg.numberText rawKey⟩ else ⟨false, rawKey⟩

def isStaleGeneration (s : State V) (key : JsString) (generation : Option ℕ) : Bool :=
  generation.any fun n => n < s.getGeneration key

/-- The regression that `applyRemoteDelete` takes as a sign of a restarted peer. -/
def noteRegression (key : JsString) (generation : Option ℕ) : P V Unit := do
  let s ← getState
  if isStaleGeneration s key generation && cfg.versioning then do
    perform .saturate
    hop
  else pure ()

/-- The numeric alias of a key whose type the event does not tell. -/
def deleteAlias (rawKey : JsString) (typed : Bool) (generation : Option ℕ) : P V Unit :=
  if !typed && cfg.numberText rawKey = rawKey && cfg.isFiniteNumber rawKey then
    later (deleteLocal cfg false ⟨true, rawKey⟩ generation)
  else pure ()

def applyRemoteDelete (keyTypes : Option (List Bool)) (generation : Option ℕ) :
    List (JsString × ℕ) → P V Unit
  | [] => pure ()
  | (rawKey, index) :: rest => do
    let s ← getState
    if s.closed then pure ()
    else do
      noteRegression cfg rawKey generation
      later (deleteLocal cfg false (eventKey cfg rawKey (keyTypes.bind fun ts => ts[index]?)) generation)
      deleteAlias cfg rawKey keyTypes.isSome generation
      applyRemoteDelete keyTypes generation rest

/-- The end of `applyRemoteSet` for one key: install `v`, unless the guard became
obsolete meanwhile. -/
def primeWith (rawKey : JsString) (g : MutationGuard) (v : V) (opts : Options)
    (generation : Option ℕ) (reusable : Option (Octets × Option ℕ)) : P V Unit := do
  let s ← getState
  if !s.isCurrent cfg g || !s.invalidationTrusted then perform (.skip .remote g)
  else do
    later (promoteToL1 cfg .remote g v opts reusable true)
    let s ← getState
    if !s.isCurrent cfg g || !s.invalidationTrusted ||
        isStaleGeneration s rawKey generation then do
      perform (.discardObsoleteL1 .remote g)
      hop
    else do
      rememberStale cfg .remote g v opts (reusable.map Prod.fst)
      perform (.removeNegative g.key)
      perform (.removeInflight g.key)

/-- The shared tier knows nothing of the key. -/
def primeAbsent (g : MutationGuard) : P V Unit := do
  let s ← getState
  if !s.isCurrent cfg g || !s.invalidationTrusted then perform (.skip .remote g)
  else do
    perform (.deleteL1 .remote g)
    hop
    perform (.removeNegative g.key)
    perform (.removeStale g.key)

/-- `applyRemoteSet` for one key under its guard. -/
def prime (rawKey : JsString) (g : MutationGuard) (v : V) (opts : Options)
    (generation : Option ℕ) : P V Unit :=
  if cfg.l2.isSome then do
    let s ← getState
    let hit ← later (readL2 cfg g)
    match hit with
    | none => primeAbsent cfg g
    | some hit => do
      let s' ← getState
      primeWith cfg rawKey g hit.value opts generation (hit.agedBy s.now s'.now)
  else primeWith cfg rawKey g v opts generation none

/-- Take the guard of a key, prime it, and give the guard back. -/
def primeKey (rawKey : JsString) (key : CacheKey) (v : V) (opts : Options)
    (generation : Option ℕ) : P V Unit := do
  let g ← observe cfg .remote key true
  (prime cfg rawKey g v opts generation).finally' (perform (.releaseKey g))

def applyRemoteSetKeys (v : V) (opts : Options) (keyTypes : Option (List Bool))
    (generation : Option ℕ) : List (JsString × ℕ) → P V Unit
  | [] => pure ()
  | (rawKey, index) :: rest => do
    let s ← getState
    if s.closed then perform .ignoreEvent
    else if isStaleGeneration s rawKey generation then do
      perform (.ignoreKey rawKey)
      applyRemoteSetKeys v opts keyTypes generation rest
    else do
      perform (.advanceGeneration rawKey generation)
      primeKey cfg rawKey (eventKey cfg rawKey (keyTypes.bind fun ts => ts[index]?)) v opts generation
      applyRemoteSetKeys v opts keyTypes generation rest

def applyRemoteSet (keys : List JsString) (keyTypes : Option (List Bool)) (v : V)
    (ttlMs generation : Option ℕ) : P V Unit := do
  let s ← getState
  if s.closed || !s.invalidationTrusted || !s.versionedCacheSafe cfg ||
      s.generationTrackingSaturated && cfg.l2.isNone then perform .ignoreEvent
  else
    applyRemoteSetKeys cfg v { cfg.options with ttlMs := ttlMs.getD cfg.options.ttlMs } keyTypes
      generation keys.zipIdx

/-- `hasSeenEvent`. -/
def hasSeenEvent (id : JsString) : P V Bool := do
  let s ← getState
  match s.seenEvents.get id with
  | none => pure false
  | some seenAt =>
    if s.now - seenAt > cfg.dedupeTtlMs then do
      perform (.removeSeenEvent id)
      pure false
    else pure true

def applyRemote (event : InvalidationEvent V) : P V Unit :=
  match event.body with
  | .del keys keyTypes generation =>
    later (applyRemoteDelete cfg keyTypes generation keys.zipIdx)
  | .set keys keyTypes v ttlMs generation =>
    later (applyRemoteSet cfg keys keyTypes v ttlMs generation)
  | .pattern pattern => later (deleteByPatternLocal cfg false pattern)

def natText (n : ℕ) : JsString := (Nat.repr n).toList.map fun c => UInt16.ofNat c.toNat

def getLegacyEventId (event : InvalidationEvent V) : JsString :=
  let head : JsString → JsString := fun type =>
    event.source ++ str ":" ++ natText event.ts ++ str ":" ++ type ++ str ":"
  match event.body with
  | .del keys _ _ => head (str "del") ++ List.intercalate (str ",") keys
  | .set keys _ _ _ _ => head (str "set") ++ List.intercalate (str ",") keys
  | .pattern pattern => head (str "pattern") ++ pattern

/-- Another scope, by what the raw event or the decoded one says. -/
def foreignScope (scope : Option JsString) : Bool :=
  cfg.eventNamespace.isSome && scope ≠ cfg.eventNamespace

/-- The handler for an event of this scope that decodes. -/
def onDecoded (event : InvalidationEvent V) : P V Unit := do
  let id := event.id.getD (getLegacyEventId event)
  let seen ← hasSeenEvent cfg id
  if seen then perform .ignoreEvent
  else do
    perform (.markEventSeen id)
    if event.source = cfg.source then perform .ignoreEvent
    else (applyRemote cfg event).catching fun e => do
      perform (.removeSeenEvent id)
      .throw e

def onEvent (raw : RawEvent V) : P V Unit := do
  let s ← getState
  if s.closed || (raw.isObject && foreignScope cfg raw.scope) then perform .ignoreEvent
  else match raw.decoded with
    | none => perform .markInvalidationUntrusted
    | some event =>
      if foreignScope cfg event.scope then perform .ignoreEvent else onDecoded cfg event

def close : P V Unit := do
  let s ← getState
  if s.closed then hop
  else do
    perform .close
    hop

end Programs

/-! ### The system -/

inductive Call (V : Type)
  | get (key : CacheKey)
  | has (key : CacheKey)
  | set (key : CacheKey) (value : V) (opts : Options)
  | getOrSet (key : CacheKey) (opts : Options) (timing : Timing)
  | delete (key : CacheKey)
  | deleteByPattern (pattern : JsString)
  | status (status : EventBusStatus)
  | event (raw : RawEvent V)
  /-- The subscription completes. -/
  | subscribed
  | close

inductive Result (V : Type)
  | done
  | value (v : Option V)
  | flag (b : Bool)

def Call.body {V : Type} (cfg : Config V) : Call V → P V (Result V)
  | get key => .value <$> HybridCache.get cfg key
  | has key => .flag <$> HybridCache.has cfg key
  | set key v opts => (fun _ => .done) <$> HybridCache.set cfg key v opts
  | getOrSet key opts timing => .value <$> HybridCache.getOrSet cfg key opts timing
  | delete key => (fun _ => .done) <$> HybridCache.delete cfg key
  | deleteByPattern pattern => (fun _ => .done) <$> HybridCache.deleteByPattern cfg pattern
  | status st => (fun _ => .done) <$> onStatus st
  | event raw => (fun _ => .done) <$> onEvent cfg raw
  | subscribed => (fun _ => .done) <$> restoreInvalidationTrust
  | close => (fun _ => .done) <$> HybridCache.close

/-- A cache, from the ledger, access history and shared tier it starts with. -/
def system {V : Type} (cfg : Config V) (budget : MemoryBudget) (history : Option (ℕ → ℕ))
    (l2 : JsMap JsString (L2Entry V)) :
    System (State V) (Act V) (Env V) Query (Resp V) Err (Result V) (Call V) where
  init := State.create cfg budget history l2
  apply := Act.apply cfg
  applyEnv := Env.apply
  ready q s := match q with
    | .join id => (s.outcomes id).isSome
    | _ => true
  body := Call.body cfg

end HybridCache
