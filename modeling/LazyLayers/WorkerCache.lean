/-
The cache facade of an edge worker (`CloudflareWorkerCache`).

A facade has a memory of its own in front of the shared key-value store.  Every operation
takes a guard on its key; a mutation of the key makes the older guards obsolete, and what
was read or loaded under an obsolete guard is not put into the memory.  The revisions that
guards refer to are kept only while an operation on the key is under way.

Values are data: copying one runs no code, but it may fail.

* `WorkerMemory` — the memory (`CloudflareWorkerMemoryStore`);
* `State`, `Act` — the fields of the facade, and the synchronous pieces that change them;
* `get`, `getOrSet`, `set`, `delete`, `deleteByPattern`, `close` — the methods, as programs;
* `Rule`, `disciplined` — what an act presupposes, and that the methods keep to it;
* `Balanced` — what a method takes it gives back.
-/
import LazyLayers.Async
import LazyLayers.MemoryStore
import LazyLayers.SerializerPolicy

open Js Pattern Async Async.Prog
open Serializer (Number)

/-! ### The memory -/

structure WorkerEntry (V : Type) where
  value : V
  expiresAt : ℕ

structure WorkerMemory (V : Type) where
  maxEntries : ℕ
  entries : JsMap JsString (WorkerEntry V)

namespace WorkerMemory

variable {V : Type} (m : WorkerMemory V) (now : ℕ) (name : JsString)

/-- `get(key)`: a hit becomes the youngest entry, an expired one is dropped. -/
def get : WorkerMemory V × Option V :=
  match m.entries.get name with
  | none => (m, none)
  | some entry =>
    let entries := m.entries.delete name
    if entry.expiresAt ≤ now then ({ m with entries := entries }, none)
    else ({ m with entries := entries.set name entry }, some entry.value)

/-- `set(key, value, ttlMs)` once the value has been copied. -/
def set (value : V) (ttlMs : ℕ) : WorkerMemory V :=
  let entries := (m.entries.delete name).set name ⟨value, now + ttlMs⟩
  { m with entries := entries.drop (entries.length - m.maxEntries) }

def delete : WorkerMemory V := { m with entries := m.entries.delete name }

def deleteByPattern (pattern : JsString) : WorkerMemory V :=
  { m with entries := m.entries.filter fun e => !matchesPattern e.1 pattern }

end WorkerMemory

namespace WorkerCache

/-! ### State -/

inductive Err
  | cacheClosed
  | rangeError
  | notCloneable
  | failed
  deriving DecidableEq

structure WorkerKeyRevision where
  revision : ℕ
  references : ℤ

/-- `WorkerMutationGuard`.  The revision is shared, so the guard names its cell. -/
structure WorkerMutationGuard where
  name : JsString
  cell : ℕ
  revision : ℕ
  epoch : ℕ
  deriving DecidableEq

structure CacheOptions where
  ttlMs : Option Number := none
  l2TtlMs : Option Number := none

structure Config (V : Type) where
  storePrefix : JsString := str "cache:"
  options : CacheOptions := {}
  l1TtlMs : ℕ := 10000
  maxEntries : ℕ := 1000
  publishes : Bool := false
  cloneable : V → Bool := fun _ => true

/-- Promises and revisions have identities, counted from zero. -/
structure State (V : Type) where
  l1 : WorkerMemory V
  now : ℕ := 0
  inflight : JsMap JsString ℕ := []
  promises : ℕ := 0
  outcomes : ℕ → Option (Except Err (Option V)) := fun _ => none
  keyRevisions : JsMap JsString ℕ := []
  cells : ℕ → WorkerKeyRevision := fun _ => ⟨0, 0⟩
  nextCell : ℕ := 0
  closed : Bool := false
  epoch : ℕ := 0

namespace State

variable {V : Type} (s : State V)

/-- The guard that `observeKey` returns. -/
def guardFor (name : JsString) (mutate : Bool) : WorkerMutationGuard :=
  let cell := (s.keyRevisions.get name).getD s.nextCell
  let revision := if (s.keyRevisions.get name).isSome then (s.cells cell).revision else 0
  ⟨name, cell, if mutate then revision + 1 else revision, s.epoch⟩

def observeKey (name : JsString) (mutate : Bool) : State V :=
  match s.keyRevisions.get name with
  | some cell =>
    let state := s.cells cell
    { s with
      cells := Function.update s.cells cell
        ⟨if mutate then state.revision + 1 else state.revision, state.references + 1⟩ }
  | none =>
    { s with
      cells := Function.update s.cells s.nextCell ⟨if mutate then 1 else 0, 1⟩
      nextCell := s.nextCell + 1
      keyRevisions := s.keyRevisions.set name s.nextCell }

def releaseKey (g : WorkerMutationGuard) : State V :=
  let state := s.cells g.cell
  let references := state.references - 1
  { s with
    cells := Function.update s.cells g.cell { state with references := references }
    keyRevisions := if references = 0 ∧ s.keyRevisions.get g.name = some g.cell then
      s.keyRevisions.delete g.name else s.keyRevisions }

def isCurrent (g : WorkerMutationGuard) : Bool :=
  !s.closed && g.epoch = s.epoch && (s.cells g.cell).revision = g.revision &&
    s.keyRevisions.get g.name = some g.cell

/-- The loop of `deleteByPattern` over the keys under observation. -/
def bumpMatching (pattern : JsString) : State V :=
  s.keyRevisions.foldl (fun s (name, cell) =>
    if matchesPattern name pattern then
      let state := s.cells cell
      { s with
        cells := Function.update s.cells cell { state with revision := state.revision + 1 }
        inflight := s.inflight.delete name }
    else s) s

end State

/-! ### Acts -/

inductive Act (V : Type)
  | observeKey (g : WorkerMutationGuard) (mutate : Bool)
  | releaseKey (g : WorkerMutationGuard)
  | bumpMatching (pattern : JsString)
  | close
  | getL1 (g : WorkerMutationGuard)
  | setL1 (g : WorkerMutationGuard) (value : V) (ttlMs : ℕ)
  | deleteL1 (g : WorkerMutationGuard)
  | deletePatternL1 (pattern : JsString)
  /-- The shared store, or the loader, has given the value. -/
  | found (g : WorkerMutationGuard) (value : V)
  | loaded (g : WorkerMutationGuard) (value : V)
  | dropInflight (g : WorkerMutationGuard)
  | register (name : JsString) (id : ℕ)
  | settle (id : ℕ) (result : Except Err (Option V))
  /-- The `finally` of the flight `id`. -/
  | unregister (name : JsString) (id : ℕ)

variable {V : Type} (cfg : Config V)

def localKey (name : JsString) : JsString := cfg.storePrefix ++ name

def Act.apply (s : State V) : Act V → State V
  | observeKey g mutate => s.observeKey g.name mutate
  | releaseKey g => s.releaseKey g
  | bumpMatching pattern => s.bumpMatching pattern
  | close => { s with closed := true, epoch := s.epoch + 1, inflight := [], keyRevisions := [] }
  | getL1 g => { s with l1 := (s.l1.get s.now (localKey cfg g.name)).1 }
  | setL1 g value ttlMs => { s with l1 := s.l1.set s.now (localKey cfg g.name) value ttlMs }
  | deleteL1 g => { s with l1 := s.l1.delete (localKey cfg g.name) }
  | deletePatternL1 pattern => { s with l1 := s.l1.deleteByPattern (localKey cfg pattern) }
  | found _ _ | loaded _ _ => s
  | dropInflight g => { s with inflight := s.inflight.delete g.name }
  | register name id => { s with inflight := s.inflight.set name id, promises := s.promises + 1 }
  | settle id result => { s with outcomes := Function.update s.outcomes id (some result) }
  | unregister name id =>
    if s.inflight.get name = some id then { s with inflight := s.inflight.delete name } else s

example (s : State V) (g : WorkerMutationGuard) (value : V) :
    Act.apply cfg s (.found g value) = s := by
  rw [Act.apply]

/-! ### Programs -/

/-- What a method waits for.  The answers of the shared store come with the time that
`performance.now()` says has passed meanwhile. -/
inductive Query
  | getWithTtl (key : CacheKey)
  | put (key : CacheKey) (options : CacheOptions)
  | delete (key : CacheKey)
  | deleteByPattern (pattern : JsString)
  | publish
  | loader
  | onError
  | join (id : ℕ)
  | turn

def Resp (V : Type) : Query → Type
  | .getWithTtl _ => Except Err (Option (V × ℚ)) × ℚ
  | .put _ _ => Except Err Unit × ℚ
  | .delete _ | .deleteByPattern _ | .publish => Except Err Unit
  | .loader => Except Err (Option V)
  | .onError => ℚ
  | .join _ | .turn => Unit

abbrev P (V α : Type) := Prog (State V) (Act V) Query (Resp V) Err α

def turn : P V Unit := ask Query.turn

def l2GetWithTtl (key : CacheKey) : P V (Except Err (Option (V × ℚ)) × ℚ) :=
  ask (Query.getWithTtl key)

def l2Set (key : CacheKey) (options : CacheOptions) : P V (Except Err Unit × ℚ) :=
  ask (Query.put key options)

def loader : P V (Except Err (Option V)) := ask Query.loader

/-- `reportError`, and the time since the publication began. -/
def reportError : P V ℚ := ask Query.onError

def settlement (id : ℕ) : P V Unit := ask (Query.join id)

/-- `await p`: the caller goes on in a later turn. -/
def later {α : Type} (p : P V α) : P V α := p.andThen fun r => turn.andThen fun _ => ofExcept r

def ensureOpen : P V Unit := do
  let s ← getState
  if s.closed then .throw .cacheClosed else pure ()

def observe (key : CacheKey) (mutate : Bool) : P V WorkerMutationGuard := do
  let s ← getState
  perform (.observeKey (s.guardFor key.text mutate) mutate)
  pure (s.guardFor key.text mutate)

/-- `this.options.l1?.set(…)`, which copies the value first. -/
def setL1 (g : WorkerMutationGuard) (value : V) (ttlMs : ℕ) : P V Unit :=
  if cfg.cloneable value then perform (.setL1 g value ttlMs) else .throw .notCloneable

/-- `Math.floor(Math.min(this.l1TtlMs, ttlMs - elapsed))`, if that is positive. -/
def remaining (ttlMs : Number) (elapsed : ℚ) : Option ℕ :=
  match ttlMs with
  | .finite ttlMs =>
    let left := ⌊min (cfg.l1TtlMs : ℚ) (ttlMs - elapsed)⌋
    if 0 < left then some left.toNat else none
  | .infinity => some cfg.l1TtlMs
  | .negInfinity | .nan => none

/-- The life of a value that is published with these options. -/
def ttl (options : CacheOptions) : Number :=
  ((options.l2TtlMs.or options.ttlMs).or cfg.options.ttlMs).getD (.finite (60 * 60 * 1000))

/-- `get` under its guard. -/
def read (g : WorkerMutationGuard) (key : CacheKey) : P V (Option V) := do
  let s ← getState
  perform (.getL1 g)
  match (s.l1.get s.now (localKey cfg g.name)).2 with
  | some value => pure (some value)
  | none => do
    let (reply, elapsed) ← l2GetWithTtl key
    match reply with
    | .error e => .throw e
    | .ok none => pure none
    | .ok (some (value, ttlRemainingMs)) => do
      perform (.found g value)
      match remaining cfg (.finite ttlRemainingMs) elapsed with
      | none => pure none
      | some ttlMs => do
        let s ← getState
        if s.isCurrent g then do
          setL1 cfg g value ttlMs
          pure (some value)
        else pure (some value)

def get (key : CacheKey) : P V (Option V) := do
  ensureOpen
  let g ← observe key false
  (read cfg g key).finally' (perform (.releaseKey g))

def publishValue (g : WorkerMutationGuard) (key : CacheKey) (value : V) (options : CacheOptions) :
    P V Unit := do
  let s ← getState
  if !s.isCurrent g then pure ()
  else do
    let (reply, elapsed) ← l2Set key options
    match reply with
    | .error e => .throw e
    | .ok () => do
      let s ← getState
      if !s.isCurrent g then pure ()
      else
        match remaining cfg (ttl cfg options) elapsed with
        | some ttlMs => setL1 cfg g value ttlMs
        | none => pure ()

/-- The fallback of a fill whose publication has failed. -/
def primeAfterFailure (g : WorkerMutationGuard) (value : V) (options : CacheOptions) :
    P V Unit := do
  let elapsed ← reportError
  match remaining cfg (ttl cfg options) elapsed with
  | some ttlMs => do
    let s ← getState
    if s.isCurrent g then setL1 cfg g value ttlMs else pure ()
  | none => pure ()

/-- What a flight does, from its first turn on. -/
def fly (g : WorkerMutationGuard) (key : CacheKey) (options : CacheOptions) : P V (Option V) := do
  turn
  ensureOpen
  let result ← loader
  match result with
  | .error e => .throw e
  | .ok none => pure none
  | .ok (some value) => do
    perform (.loaded g value)
    let s ← getState
    if s.isCurrent g then do
      (later (publishValue cfg g key value options)).catching fun _ =>
        primeAfterFailure cfg g value options
      pure (some value)
    else pure (some value)

/-- The promise of a flight is settled; its leader sees that in a later turn. -/
def settled (id : ℕ) (p : P V (Option V)) : P V (Option V) :=
  p.andThen fun r => do
    perform (.settle id r)
    turn
    ofExcept r

def lead (g : WorkerMutationGuard) (key : CacheKey) (options : CacheOptions) :
    P V (Option V) := do
  let s ← getState
  perform (.register g.name s.promises)
  (settled s.promises (fly cfg g key options)).finally' (perform (.unregister g.name s.promises))

def join (id : ℕ) : P V (Option V) := do
  settlement id
  let s ← getState
  match s.outcomes id with
  | some r => ofExcept r
  | none => pure none

/-- `this.get(key).catch(…)`. -/
def getOrReport (key : CacheKey) : P V (Option V) :=
  (later (get cfg key)).catching fun _ => do
    let _ ← reportError
    pure none

def getOrSet (key : CacheKey) (options : CacheOptions) : P V (Option V) := do
  ensureOpen
  let cached ← getOrReport cfg key
  turn
  match cached with
  | some value => pure (some value)
  | none => do
    ensureOpen
    let s ← getState
    match s.inflight.get key.text with
    | some id => join id
    | none => do
      let g ← observe key false
      (lead cfg g key options).finally' (perform (.releaseKey g))

def l2Delete (key : CacheKey) : P V (Except Err Unit) := ask (Query.delete key)

def l2DeleteByPattern (pattern : JsString) : P V (Except Err Unit) :=
  ask (Query.deleteByPattern pattern)

def publish : P V (Except Err Unit) := ask Query.publish

/-- `invalidateWithQueue` once the shared store has answered. -/
def invalidateWithQueue (reply : Except Err Unit) : P V Unit :=
  match reply with
  | .error .rangeError => .throw .rangeError
  | outcome =>
    if !cfg.publishes then ofExcept outcome
    else do
      let published ← publish
      ofExcept published

def delete (key : CacheKey) : P V Unit := do
  ensureOpen
  let g ← observe key true
  (do
    perform (.dropInflight g)
    perform (.deleteL1 g)
    let reply ← l2Delete key
    later (invalidateWithQueue cfg reply) : P V Unit).finally' (perform (.releaseKey g))

def set (key : CacheKey) (value : Option V) (options : CacheOptions) : P V Unit := do
  ensureOpen
  match value with
  | none => delete cfg key
  | some value => do
    let g ← observe key true
    (do
      perform (.dropInflight g)
      perform (.deleteL1 g)
      later (publishValue cfg g key value options) : P V Unit).finally' (perform (.releaseKey g))

def deleteByPattern (pattern : JsString) : P V Unit := do
  ensureOpen
  perform (.bumpMatching pattern)
  perform (.deletePatternL1 pattern)
  let reply ← l2DeleteByPattern pattern
  later (invalidateWithQueue cfg reply)

def close : P V Unit := do
  let s ← getState
  if s.closed then pure () else perform .close

inductive Call (V : Type)
  | get (key : CacheKey)
  | getOrSet (key : CacheKey) (options : CacheOptions)
  | set (key : CacheKey) (value : Option V) (options : CacheOptions)
  | delete (key : CacheKey)
  | deleteByPattern (pattern : JsString)
  | close

def Call.body : Call V → P V (Option V)
  | get key => WorkerCache.get cfg key
  | getOrSet key options => WorkerCache.getOrSet cfg key options
  | set key value options => (fun _ => none) <$> WorkerCache.set cfg key value options
  | delete key => (fun _ => none) <$> WorkerCache.delete cfg key
  | deleteByPattern pattern => (fun _ => none) <$> WorkerCache.deleteByPattern cfg pattern
  | close => (fun _ => none) <$> WorkerCache.close

/-- The facade with its clock; what is not an act of a call is time that passes. -/
def system : System (State V) (Act V) ℕ Query (Resp V) Err (Option V) (Call V) where
  init := { l1 := ⟨cfg.maxEntries, []⟩ }
  apply := Act.apply cfg
  applyEnv s ms := { s with now := s.now + ms }
  ready q s := match q with
    | .join id => (s.outcomes id).isSome
    | _ => true
  body := Call.body cfg

/-! ### The discipline -/

/-- The call has taken this guard. -/
def Observed (l : List (Act V)) (g : WorkerMutationGuard) : Prop :=
  ∃ mutate, Act.observeKey g mutate ∈ l

/-- Where a value that is put into the memory under a guard comes from: the call sets it, or
the shared store or the loader has given it since. -/
def Given (c : Call V) (l : List (Act V)) (g : WorkerMutationGuard) (value : V) : Prop :=
  (∃ key options, c = .set key (some value) options ∧ g.name = key.text) ∨
    .found g value ∈ l ∨ .loaded g value ∈ l

/-- After the acts `l`, call `c` may perform the act in state `s`. -/
def Rule (c : Call V) (l : List (Act V)) (s : State V) : Act V → Prop
  | .observeKey g mutate => g = s.guardFor g.name mutate
  | .releaseKey g => Observed l g
  | .setL1 g value _ => Observed l g ∧ s.isCurrent g = true ∧ Given c l g value
  | .register _ id => id = s.promises
  | .unregister name id => .register name id ∈ l
  | _ => True

/-- What an act adds to the references that its call holds to a revision. -/
def Act.delta (cell : ℕ) : Act V → ℤ
  | .observeKey g _ => if g.cell = cell then 1 else 0
  | .releaseKey g => if g.cell = cell then -1 else 0
  | _ => 0

/-- As many references are given back as are taken, and every flight is taken out. -/
structure Balanced (u : List (Act V)) : Prop where
  references : ∀ cell, (u.map (Act.delta cell)).sum = 0
  flights : ∀ name id, Act.register name id ∈ u → Act.unregister name id ∈ u

theorem balanced_nil : Balanced ([] : List (Act V)) := ⟨fun _ => rfl, by simp⟩

theorem Balanced.append {u u' : List (Act V)} (h : Balanced u) (h' : Balanced u') :
    Balanced (u ++ u') := by
  refine ⟨fun cell => ?_, fun name id hmem => ?_⟩
  · rw [List.map_append, List.sum_append, h.references, h'.references, add_zero]
  · rcases List.mem_append.mp hmem with hmem | hmem
    · exact List.mem_append_left _ (h.flights name id hmem)
    · exact List.mem_append_right _ (h'.flights name id hmem)

/-- `l'` continues `l` in balance. -/
def Extends (l l' : List (Act V)) : Prop := ∃ u, l' = l ++ u ∧ Balanced u

instance : IsPreorder (List (Act V)) Extends where
  refl l := ⟨[], by simp, balanced_nil⟩
  trans := by
    rintro l l' l'' ⟨u, rfl, hu⟩ ⟨u', rfl, hu'⟩
    exact ⟨u ++ u', by simp, hu.append hu'⟩

/-- An act that takes and gives back nothing. -/
def Act.Quiet (a : Act V) : Prop := (∀ cell, a.delta cell = 0) ∧ ∀ name id, a ≠ .register name id

theorem Act.Quiet.extends {a : Act V} (h : a.Quiet) (l : List (Act V)) : Extends l (l ++ [a]) := by
  refine ⟨[a], rfl, fun cell => ?_, fun name id hmem => ?_⟩
  · simpa using h.1 cell
  · exact absurd (List.mem_singleton.mp hmem).symm (h.2 name id)

theorem Extends.subset {l l' : List (Act V)} (h : Extends l l') : l ⊆ l' := by
  obtain ⟨u, rfl, -⟩ := h
  exact List.subset_append_left l u

theorem Observed.mono {l l' : List (Act V)} {g : WorkerMutationGuard} (h : Observed l g)
    (hsub : l ⊆ l') : Observed l' g := h.imp fun _ hmem => hsub hmem

theorem Given.mono {c : Call V} {l l' : List (Act V)} {g : WorkerMutationGuard} {value : V}
    (h : Given c l g value) (hsub : l ⊆ l') : Given c l' g value :=
  h.imp_right (Or.imp (fun hmem => hsub hmem) fun hmem => hsub hmem)

/-- A guard is taken, used in balance and given back. -/
theorem Extends.release {l l' : List (Act V)} {g : WorkerMutationGuard} {mutate : Bool}
    (h : Extends (l ++ [.observeKey g mutate]) l') : Extends l (l' ++ [.releaseKey g]) := by
  obtain ⟨u, rfl, hu⟩ := h
  refine ⟨[.observeKey g mutate] ++ u ++ [.releaseKey g], by simp, fun cell => ?_, ?_⟩
  · have hone : (if g.cell = cell then (1 : ℤ) else 0) + (if g.cell = cell then -1 else 0) = 0 := by
      split <;> rfl
    rw [List.map_append, List.map_append, List.sum_append, List.sum_append, hu.references]
    simpa [Act.delta] using hone
  · intro name id hmem
    have hu' := hu.flights name id
    simp_all

/-- A flight is registered, flown in balance and taken out. -/
theorem Extends.unregister {l l' : List (Act V)} {name : JsString} {id : ℕ}
    (h : Extends (l ++ [.register name id]) l') : Extends l (l' ++ [.unregister name id]) := by
  obtain ⟨u, rfl, hu⟩ := h
  refine ⟨[.register name id] ++ u ++ [.unregister name id], by simp, fun cell => ?_, ?_⟩
  · rw [List.map_append, List.map_append, List.sum_append, List.sum_append, hu.references]
    simp [Act.delta]
  · intro name' id' hmem
    have hu' := hu.flights name' id'
    simp only [List.mem_append, List.mem_singleton, Act.register.injEq, reduceCtorEq,
      or_false] at hmem
    rcases hmem with ⟨rfl, rfl⟩ | hmem
    · simp
    · simp [hu' hmem]

section Programs

variable {α : Type} {w : World (State V) (Act V) ℕ Query} {c : Call V} {l : List (Act V)}
  {g : WorkerMutationGuard} {value : V}

theorem keeps_turn : Keeps w (Rule c) Extends l (turn : P V Unit) := keeps_ask (w := w) Query.turn

theorem keeps_later {p : P V α} (hp : Keeps w (Rule c) Extends l p) :
    Keeps w (Rule c) Extends l (later p) :=
  hp.andThen fun r _ _ => keeps_turn.andThen fun _ _ _ => keeps_ofExcept r

theorem keeps_ensureOpen : Keeps w (Rule c) Extends l (ensureOpen : P V Unit) := by
  intro s
  rw [ensureOpen, wp_getState]
  split
  · exact keeps_throw Err.cacheClosed s
  · exact keeps_pure () s

/-- A guard is given back on every way out. -/
theorem keeps_guarded {key : CacheKey} {mutate : Bool} {p : WorkerMutationGuard → P V α}
    (hp : ∀ g, g.name = key.text → Keeps w (Rule c) Extends (l ++ [.observeKey g mutate]) (p g)) :
    Keeps w (Rule c) Extends l
      (observe key mutate >>= fun g => (p g).finally' (perform (.releaseKey g))) := by
  intro s
  refine wp_bracket (rfl : s.guardFor key.text mutate = _) (hp _ rfl) fun l' s' hext => ⟨?_, ?_⟩
  · exact ⟨mutate, hext.subset (by simp)⟩
  · exact hext.release

theorem wp_setL1 {ttlMs : ℕ} {s : State V} (hobs : Observed l g) (hcur : s.isCurrent g = true)
    (hgiven : Given c l g value) :
    wp w (Rule c) (setL1 cfg g value ttlMs) (fun _ l' _ => Extends l l') l s := by
  rw [setL1]
  split
  · exact ⟨⟨hobs, hcur, hgiven⟩, Act.Quiet.extends ⟨fun _ => rfl, by simp⟩ l⟩
  · exact keeps_throw Err.notCloneable s

theorem keeps_read {key : CacheKey} (hobs : Observed l g) :
    Keeps w (Rule c) Extends l (read cfg g key) := by
  intro s
  have hgetL1 : (Act.getL1 g : Act V).Quiet := ⟨fun _ => rfl, by simp⟩
  have hgetL1' : l ⊆ l ++ [.getL1 g] := List.subset_append_left _ _
  rw [read, wp_getState]
  refine wp_perform_keeps trivial (hgetL1.extends l) ?_
  split
  · exact keeps_pure _
  refine (keeps_ask (w := w) (Query.getWithTtl key)).bind fun reply l' hext => ?_
  obtain ⟨reply, elapsed⟩ := reply
  dsimp only
  split
  · exact keeps_throw _
  · exact keeps_pure _
  · next value ttlRemainingMs =>
    have hfound : (Act.found g value : Act V).Quiet := ⟨fun _ => rfl, by simp⟩
    refine keeps_perform_bind (fun _ => trivial) (hfound.extends l') ?_
    split
    · exact keeps_pure _
    intro s
    rw [wp_getState]
    split
    · next hcur =>
      have hobs' : Observed (l' ++ [.found g value]) g :=
        ((hobs.mono hgetL1').mono hext.subset).mono (List.subset_append_left _ _)
      refine wp_bind (wp_setL1 cfg hobs' hcur (.inr (.inl (by simp)))) ?_ ?_
      · intro _ l'' s'' hext'
        exact hext'
      · intro _ l'' s'' hext'
        exact hext'
    · exact keeps_pure _ s

theorem keeps_get {key : CacheKey} : Keeps w (Rule c) Extends l (get cfg key) :=
  keeps_ensureOpen.bind fun _ _ _ => keeps_guarded fun _ _ => keeps_read cfg ⟨false, by simp⟩

theorem keeps_publishValue {key : CacheKey} {options : CacheOptions} (hobs : Observed l g)
    (hgiven : Given c l g value) :
    Keeps w (Rule c) Extends l (publishValue cfg g key value options) := by
  intro s
  rw [publishValue, wp_getState]
  split
  · exact keeps_pure () s
  refine Keeps.bind (keeps_ask (w := w) (Query.put key options)) (fun reply l' hext => ?_) s
  obtain ⟨reply, elapsed⟩ := reply
  dsimp only
  split
  · exact keeps_throw _
  intro s
  rw [wp_getState]
  split
  · exact keeps_pure () s
  · split
    · exact wp_setL1 cfg (hobs.mono hext.subset) (by simp_all) (hgiven.mono hext.subset)
    · exact keeps_pure () s

theorem keeps_primeAfterFailure {options : CacheOptions} (hobs : Observed l g)
    (hgiven : Given c l g value) :
    Keeps w (Rule c) Extends l (primeAfterFailure cfg g value options) := by
  refine Keeps.bind (keeps_ask (w := w) Query.onError) fun elapsed l' hext => ?_
  split
  · intro s
    rw [wp_getState]
    split
    · next hcur => exact wp_setL1 cfg (hobs.mono hext.subset) hcur (hgiven.mono hext.subset)
    · exact keeps_pure () s
  · exact keeps_pure ()

theorem keeps_fly {key : CacheKey} {options : CacheOptions} (hobs : Observed l g) :
    Keeps w (Rule c) Extends l (fly cfg g key options) := by
  refine keeps_turn.bind fun _ l₁ h₁ => keeps_ensureOpen.bind fun _ l₂ h₂ => ?_
  refine Keeps.bind (keeps_ask (w := w) Query.loader) fun result l₃ h₃ => ?_
  split
  · exact keeps_throw _
  · exact keeps_pure _
  · next value =>
    have hloaded : (Act.loaded g value : Act V).Quiet := ⟨fun _ => rfl, by simp⟩
    have hobs' : Observed (l₃ ++ [.loaded g value]) g :=
      (((hobs.mono h₁.subset).mono h₂.subset).mono h₃.subset).mono (List.subset_append_left _ _)
    have hgiven : Given c (l₃ ++ [.loaded g value]) g value := .inr (.inr (by simp))
    refine keeps_perform_bind (fun _ => trivial) (hloaded.extends l₃) ?_
    intro s
    rw [wp_getState]
    split
    · refine Keeps.bind ?_ (fun _ _ _ => keeps_pure _) s
      refine (keeps_later (keeps_publishValue cfg hobs' hgiven)).catching fun e l₄ h₄ => ?_
      exact keeps_primeAfterFailure cfg (hobs'.mono h₄.subset) (hgiven.mono h₄.subset)
    · exact keeps_pure _ s

theorem keeps_settled {id : ℕ} {p : P V (Option V)} (hp : Keeps w (Rule c) Extends l p) :
    Keeps w (Rule c) Extends l (settled id p) := by
  refine hp.andThen fun r l' _ => ?_
  have hsettle : (Act.settle id r : Act V).Quiet := ⟨fun _ => rfl, by simp⟩
  refine keeps_perform_bind (fun _ => trivial) (hsettle.extends l') ?_
  exact keeps_turn.bind fun _ _ _ => keeps_ofExcept r

theorem keeps_lead {key : CacheKey} {options : CacheOptions} (hobs : Observed l g) :
    Keeps w (Rule c) Extends l (lead cfg g key options) := by
  intro s
  rw [lead, wp_getState]
  have hobs' : Observed (l ++ [.register g.name s.promises]) g := hobs.mono (by simp)
  refine wp_bracket rfl (keeps_settled (keeps_fly cfg hobs')) fun l' s' hext => ⟨?_, ?_⟩
  · exact hext.subset (by simp)
  · exact hext.unregister

theorem keeps_getOrReport {key : CacheKey} : Keeps w (Rule c) Extends l (getOrReport cfg key) := by
  refine (keeps_later (keeps_get cfg)).catching fun _ _ _ => ?_
  exact Keeps.bind (keeps_ask (w := w) Query.onError) fun _ _ _ => keeps_pure none

theorem keeps_join {id : ℕ} : Keeps w (Rule c) Extends l (join id : P V (Option V)) := by
  refine Keeps.bind (keeps_ask (w := w) (Query.join id)) fun _ l' _ s => ?_
  rw [wp_getState]
  split
  · exact keeps_ofExcept _ s
  · exact keeps_pure _ s

theorem keeps_getOrSet {key : CacheKey} {options : CacheOptions} :
    Keeps w (Rule c) Extends l (getOrSet cfg key options) := by
  refine keeps_ensureOpen.bind fun _ _ _ => (keeps_getOrReport cfg).bind fun cached _ _ => ?_
  refine keeps_turn.bind fun _ l' _ => ?_
  split
  · exact keeps_pure _
  refine keeps_ensureOpen.bind fun _ l'' _ s => ?_
  rw [wp_getState]
  split
  · exact keeps_join s
  · exact keeps_guarded (fun g _ => keeps_lead cfg ⟨false, by simp⟩) s

theorem keeps_invalidateWithQueue (reply : Except Err Unit) :
    Keeps w (Rule c) Extends l (invalidateWithQueue cfg reply : P V Unit) := by
  rw [invalidateWithQueue.eq_def]
  split
  · exact keeps_throw _
  split
  · exact keeps_ofExcept _
  · exact Keeps.bind (keeps_ask (w := w) Query.publish) fun published _ _ => keeps_ofExcept _

/-- The beginning of a mutation of one key. -/
theorem keeps_mutated {p : P V Unit} (hp : ∀ l', l ⊆ l' → Keeps w (Rule c) Extends l' p) :
    Keeps w (Rule c) Extends l
      (perform (.dropInflight g) >>= fun _ => perform (.deleteL1 g) >>= fun _ => p) := by
  have hdrop : (Act.dropInflight g : Act V).Quiet := ⟨fun _ => rfl, by simp⟩
  have hdelete : (Act.deleteL1 g : Act V).Quiet := ⟨fun _ => rfl, by simp⟩
  refine keeps_perform_bind (fun _ => trivial) (hdrop.extends l) ?_
  refine keeps_perform_bind (fun _ => trivial) (hdelete.extends _) ?_
  exact hp _ (by simp)

theorem keeps_delete {key : CacheKey} : Keeps w (Rule c) Extends l (delete cfg key) := by
  refine keeps_ensureOpen.bind fun _ _ _ => keeps_guarded fun g _ => keeps_mutated fun l' _ => ?_
  refine Keeps.bind (keeps_ask (w := w) (Query.delete key)) fun reply _ _ => ?_
  exact keeps_later (keeps_invalidateWithQueue cfg reply)

theorem keeps_set {key : CacheKey} {value : Option V} {options : CacheOptions}
    (hc : c = .set key value options) : Keeps w (Rule c) Extends l (set cfg key value options) := by
  refine keeps_ensureOpen.bind fun _ _ _ => ?_
  split
  · exact keeps_delete cfg
  · next value =>
    refine keeps_guarded fun g hname => keeps_mutated fun l' hsub => ?_
    have hobs : Observed l' g := ⟨true, hsub (by simp)⟩
    exact keeps_later (keeps_publishValue cfg hobs (.inl ⟨key, options, hc, hname⟩))

theorem keeps_deleteByPattern {pattern : JsString} :
    Keeps w (Rule c) Extends l (deleteByPattern cfg pattern) := by
  have hbump : (Act.bumpMatching pattern : Act V).Quiet := ⟨fun _ => rfl, by simp⟩
  have hdelete : (Act.deletePatternL1 pattern : Act V).Quiet := ⟨fun _ => rfl, by simp⟩
  refine keeps_ensureOpen.bind fun _ l' _ => ?_
  refine keeps_perform_bind (fun _ => trivial) (hbump.extends l') ?_
  refine keeps_perform_bind (fun _ => trivial) (hdelete.extends _) ?_
  refine Keeps.bind (keeps_ask (w := w) (Query.deleteByPattern pattern)) fun reply _ _ => ?_
  exact keeps_later (keeps_invalidateWithQueue cfg reply)

theorem keeps_close : Keeps w (Rule c) Extends l (close : P V Unit) := by
  have hclose : (Act.close : Act V).Quiet := ⟨fun _ => rfl, by simp⟩
  intro s
  rw [close, wp_getState]
  split
  · exact keeps_pure () s
  · exact ⟨trivial, hclose.extends l⟩

/-- **Every method keeps to the discipline**, and gives back what it takes. -/
theorem disciplined (c : Call V) : Keeps w (Rule c) Extends l (c.body cfg) := by
  cases c with
  | get key => exact keeps_get cfg
  | getOrSet key options => exact keeps_getOrSet cfg
  | set key value options => exact (keeps_set cfg rfl).map
  | delete key => exact (keeps_delete cfg).map
  | deleteByPattern pattern => exact (keeps_deleteByPattern cfg).map
  | close => exact keeps_close.map

end Programs

end WorkerCache
