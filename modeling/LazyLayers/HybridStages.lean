/-
The stages of a load.

A `getOrSet` decides once whether its load is shared, takes one guard for it, starts its
loader at most once, and a shared load ends once.  The text of the methods shows this
without any look at the state: along every path through them the stages rise.

* `Act.stage` — the stage that an act belongs to;
* `rises_getOrSet`, `rises_set` — the stages of the two methods;
* `Run.staged` — in every run an act of a load comes after those of earlier stages, and
  is the only one of its own.
-/
import LazyLayers.HybridRuns

open Js Pattern Async Async.Prog

namespace HybridCache

variable {V α : Type} {cfg : Config V}

def Act.stage : Act V → ℕ
  | .trackInflight _ _ _ | .bypassInflight _ => 1
  | .observeKey .fill _ _ | .observeKey .write _ _ => 2
  | .startLoader _ => 3
  | .loaded _ _ => 4
  | .finishInflight _ _ _ => 5
  | _ => 0

/-- No act of the program belongs to a stage. -/
abbrev Plain (p : P V α) : Prop := Async.Plain Act.stage p

abbrev Rises (p : P V α) : ℕ → ℕ → Prop := Async.Rises Act.stage p

/-! ### Plain methods -/

theorem plain_later {p : P V α} (h : Plain p) : Plain (later p) :=
  h.andThen fun _ => Async.Plain.andThen plain_ask fun _ => plain_ofExcept

theorem rises_later {p : P V α} {lo hi : ℕ} (h : Rises p lo hi) : Rises (later p) lo hi :=
  h.andThen fun _ => (Async.Plain.andThen plain_ask fun _ => plain_ofExcept).level hi

theorem plain_command (g : Option MutationGuard) (op : L2Op V) : Plain (command g op) := by
  refine Async.Plain.bind (plain_perform rfl) fun _ => Async.Plain.bind plain_ask fun sent => ?_
  cases sent with
  | executed =>
    refine plain_read fun s => Async.Plain.bind (plain_perform rfl) fun _ =>
      Async.Plain.bind plain_ask fun delivered => ?_
    split
    · exact Async.Plain.bind (plain_perform rfl) fun _ => plain_pure
    · exact plain_pure
  | failed => exact plain_pure
  | timedOut => exact Async.Plain.bind (plain_perform rfl) fun _ => plain_pure

theorem plain_settle (bytes : ℕ) (r : Except L2Failure α) : Plain (V := V) (settle bytes r) := by
  rcases r with failure | a
  · cases failure
    case timedOut => exact Async.Plain.bind (plain_perform rfl) fun _ => plain_pure
    all_goals
      exact Async.Plain.bind (plain_perform rfl) fun _ =>
        Async.Plain.bind (plain_perform rfl) fun _ => plain_pure
  · exact Async.Plain.bind (plain_perform rfl) fun _ => plain_pure

theorem plain_runL2 (text : JsString) (payloadBytes : ℕ) {call : P V (Except L2Failure α)}
    (h : Plain call) : Plain (runL2 cfg text payloadBytes call) := by
  refine plain_read fun s => ?_
  dsimp only
  split
  · exact plain_pure
  split
  · exact Async.Plain.bind (plain_perform rfl) fun _ => plain_pure
  split
  · exact Async.Plain.bind (plain_perform rfl) fun _ => plain_pure
  refine Async.Plain.bind (plain_perform rfl) fun _ => ?_
  split
  · exact plain_settle ..
  refine Async.Plain.bind plain_ask fun admitted => ?_
  split
  · exact h.bind fun r => plain_settle ..
  · exact plain_settle ..

theorem plain_readL2 (g : MutationGuard) : Plain (readL2 cfg g) := by
  refine (plain_runL2 _ _ (plain_command _ _)).bind fun reply => ?_
  split <;> exact plain_pure

theorem plain_ensureOpen : Plain (ensureOpen : P V Unit) := by
  refine plain_read fun s => ?_
  split
  · exact plain_throw
  · exact plain_pure

theorem plain_hasNegative (key : CacheKey) : Plain (hasNegative cfg key) := by
  refine plain_read fun s => ?_
  split
  · exact plain_pure
  split
  · exact plain_pure
  split
  · exact Async.Plain.bind (plain_perform rfl) fun _ => plain_pure
  · exact Async.Plain.bind (plain_perform rfl) fun _ => plain_pure

theorem plain_getStale (key : CacheKey) : Plain (getStale cfg key) := by
  refine plain_read fun s => ?_
  split
  · exact plain_pure
  split
  · exact plain_pure
  split
  · exact Async.Plain.bind (plain_perform rfl) fun _ => plain_pure
  split
  · exact plain_pure
  · exact Async.Plain.bind (plain_perform rfl) fun _ => plain_pure

theorem plain_rememberStale (o : Origin) (g : MutationGuard) (v : V) (opts : Options)
    (reusable : Option Octets) : Plain (rememberStale cfg o g v opts reusable) := by
  rw [rememberStale]
  split
  · exact plain_perform rfl
  · exact plain_pure

theorem plain_setL1Only (o : Origin) (g : MutationGuard) (v : V) (opts : Options)
    (encoded : Option Octets) : Plain (setL1Only cfg o g v opts encoded) := by
  rw [setL1Only]
  split
  · split <;> exact plain_perform rfl
  · exact plain_pure

theorem plain_bypass (o : Origin) (g : MutationGuard) (invalidateOnBypass : Bool) :
    Plain (V := V) (bypass o g invalidateOnBypass) := by
  rw [bypass]
  split
  · exact Async.Plain.bind (plain_perform rfl) fun _ => plain_ask
  · exact plain_pure

theorem plain_promoteToL1 (o : Origin) (g : MutationGuard) (v : V) (opts : Options)
    (reusable : Option (Octets × Option ℕ)) (invalidateOnBypass : Bool) :
    Plain (promoteToL1 cfg o g v opts reusable invalidateOnBypass) := by
  refine plain_read fun s => ?_
  split
  · exact plain_pure
  split
  · exact plain_bypass ..
  split
  · exact plain_bypass ..
  split
  · exact plain_bypass ..
  exact Async.Plain.bind (plain_perform rfl) fun _ => Async.Plain.bind plain_ask fun _ =>
    Async.Plain.bind (plain_perform rfl) fun _ => plain_ask

theorem plain_readL1 (g : MutationGuard) : Plain (readL1 cfg g) := by
  refine plain_read fun s => ?_
  split
  · exact Async.Plain.bind (plain_perform rfl) fun _ => plain_pure
  refine Async.Plain.bind (plain_perform rfl) fun _ => Async.Plain.bind plain_ask fun _ =>
    plain_read fun s' => ?_
  split
  · exact plain_pure
  split
  · split
    · exact Async.Plain.bind (plain_perform rfl) fun _ =>
        Async.Plain.bind plain_ask fun _ => plain_pure
    · exact plain_pure
  split
  · exact (plain_rememberStale ..).bind fun _ => plain_pure
  · exact plain_pure

theorem plain_promoteHit (g : MutationGuard) (started : ℕ) (hit : L2Hit V) :
    Plain (promoteHit cfg g started hit) := by
  refine plain_read fun s => ?_
  split
  · exact plain_pure
  refine (plain_later (plain_promoteToL1 ..)).bind fun _ => plain_read fun s' => ?_
  split
  · exact Async.Plain.bind (plain_perform rfl) fun _ =>
      Async.Plain.bind plain_ask fun _ => plain_pure
  · exact (plain_rememberStale ..).bind fun _ => plain_pure

theorem plain_trustedNegative (key : CacheKey) : Plain (trustedNegative cfg key) := by
  refine plain_read fun s => ?_
  split
  · exact plain_hasNegative key
  · exact plain_pure

theorem plain_readValue (g : MutationGuard) : Plain (readValue cfg g) := by
  refine (plain_trustedNegative g.key).bind fun negative => ?_
  split
  · exact plain_pure
  refine (plain_readL1 g).bind fun local' => ?_
  split
  · exact plain_pure
  refine plain_read fun s => (plain_later (plain_readL2 g)).bind fun hit => ?_
  split
  · exact plain_pure
  · exact plain_promoteHit ..

/-- A guard for a read belongs to no stage, and neither does one for a remote event. -/
theorem plain_observe {o : Origin} (key : CacheKey) (mutate : Bool)
    (h : o = .read ∨ o = .remote) : Plain (observe cfg o key mutate) := by
  refine plain_read fun s => Async.Plain.bind (plain_perform ?_) fun _ => plain_pure
  rcases h with rfl | rfl <;> rfl

theorem plain_get (key : CacheKey) : Plain (get cfg key) := by
  refine plain_ensureOpen.bind fun _ => plain_read fun s => ?_
  split
  · exact Async.Plain.bind (plain_perform rfl) fun _ => plain_pure
  refine (plain_observe key false (.inl rfl)).bind fun g => ?_
  exact (plain_later (plain_readValue g)).finally' (plain_perform rfl)

theorem plain_writeL2 (o : Origin) (g : MutationGuard) (v : V) (opts : Options) :
    Plain (writeL2 cfg o g v opts) := by
  refine plain_read fun s => ?_
  split
  · exact Async.Plain.bind (plain_perform rfl) fun _ =>
      Async.Plain.bind plain_ask fun _ => plain_pure
  · exact (plain_command _ _).bind fun _ => plain_pure

theorem plain_writeValue (o : Origin) (g : MutationGuard) (v : V) (opts : Options) :
    Plain (writeValue cfg o g v opts) := by
  have hobsolete : Plain (V := V) (do
      perform (.discardObsoleteL1 o g)
      hop
      pure false) :=
    Async.Plain.bind (plain_perform rfl) fun _ => Async.Plain.bind plain_ask fun _ => plain_pure
  refine plain_read fun s => ?_
  split
  · exact Async.Plain.bind (plain_perform rfl) fun _ => plain_pure
  refine (plain_later (plain_setL1Only ..)).bind fun _ => plain_read fun s₁ => ?_
  split
  · exact hobsolete
  refine (plain_later (plain_runL2 _ _ (plain_writeL2 ..))).bind fun _ => plain_read fun s₂ => ?_
  split
  · exact hobsolete
  exact (plain_rememberStale ..).bind fun _ => Async.Plain.bind (plain_perform rfl) fun _ =>
    plain_pure

theorem plain_publishInvalidation (event : InvalidationEvent V) :
    Plain (publishInvalidation cfg event) := by
  refine plain_read fun s => ?_
  split
  · exact plain_pure
  · exact Async.Plain.bind (plain_perform rfl) fun _ => plain_ask

theorem plain_throwIfAborted (controller : ℕ) : Plain (throwIfAborted controller : P V Unit) := by
  refine plain_read fun s => ?_
  split
  · exact plain_throw
  · exact plain_pure

theorem plain_assertOwned (key : CacheKey) (lease : Option LoadLease) :
    Plain (assertOwned key lease : P V Unit) := by
  refine plain_read fun s => ?_
  split
  · split
    · exact plain_throw
    · exact plain_pure
  · exact plain_pure

theorem plain_recheck (key : CacheKey) : Plain (recheck cfg key) := by
  refine (plain_later (plain_get key)).bind fun cached => ?_
  split
  · exact plain_pure
  · exact (plain_hasNegative key).bind fun _ => plain_pure

theorem plain_acquireOrigin (opts : Options) : Plain (acquireOrigin opts : P V Unit) := by
  rw [acquireOrigin]
  split
  · refine Async.Plain.bind plain_ask fun refused => ?_
    split
    · exact plain_throw
    · exact plain_pure
  · exact plain_pure

theorem plain_failSafe (key : CacheKey) (opts : Options) {otherwise : P V (Option V)}
    (h : Plain otherwise) : Plain (failSafe cfg key opts otherwise) := by
  refine (plain_getStale key).bind fun stale => ?_
  split
  · exact plain_pure
  · exact h

theorem plain_broadcast (g : MutationGuard) (v : V) (opts : Options) :
    Plain (broadcast cfg g v opts) := by
  refine plain_read fun s => ?_
  split
  · exact plain_later (plain_publishInvalidation _)
  · exact plain_pure

theorem plain_publishL2 (g : MutationGuard) (token : ℕ) (buffer : Octets) (opts : Options) :
    Plain (publishL2 cfg g token buffer opts) := by
  refine plain_read fun s => ?_
  split
  · exact (plain_command _ _).bind fun _ => plain_pure
  · exact Async.Plain.bind (plain_perform rfl) fun _ =>
      Async.Plain.bind plain_ask fun _ => plain_pure

theorem plain_installPublished (g : MutationGuard) (v : V) (opts : Options) (buffer : Octets) :
    Plain (installPublished cfg g v opts buffer) := by
  refine plain_read fun s => ?_
  split
  · exact plain_pure
  refine (plain_later (plain_setL1Only ..)).bind fun _ => plain_read fun s₁ => ?_
  split
  · exact Async.Plain.bind (plain_perform rfl) fun _ =>
      Async.Plain.bind plain_ask fun _ => plain_pure
  exact (plain_rememberStale ..).bind fun _ => Async.Plain.bind (plain_perform rfl) fun _ =>
    (plain_broadcast ..).bind fun _ => plain_pure

theorem plain_publishAtomically (g : MutationGuard) (v : V) (opts : Options) (token : ℕ) :
    Plain (publishAtomically cfg g v opts token) := by
  rw [publishAtomically]
  split
  · exact plain_pure
  refine (plain_later (plain_runL2 _ _ (plain_publishL2 ..))).bind fun publication => ?_
  split
  · refine (plain_later (plain_readL2 g)).bind fun winner => ?_
    split
    · exact plain_pure
    · exact plain_throw
  · exact plain_installPublished ..
  · exact plain_pure

theorem plain_publishPlainly (g : MutationGuard) (v : V) (opts : Options)
    (lease : Option LoadLease) : Plain (publishPlainly cfg g v opts lease) := by
  refine (plain_later (plain_writeValue ..)).bind fun written => ?_
  split
  · exact (plain_assertOwned ..).bind fun _ => (plain_broadcast ..).bind fun _ => plain_pure
  · exact plain_pure

theorem plain_storeLoaded (g : MutationGuard) (opts : Options) (lease : Option LoadLease)
    (v : Option V) : Plain (storeLoaded cfg g opts lease v) := by
  cases v with
  | none =>
    refine plain_read fun s => ?_
    split
    · exact plain_pure
    · exact Async.Plain.bind (plain_perform rfl) fun _ => plain_failSafe _ _ plain_pure
  | some v =>
    refine (plain_assertOwned ..).bind fun _ => plain_read fun s => ?_
    split
    · exact plain_pure
    split
    · split
      · exact plain_publishAtomically ..
      · exact plain_publishPlainly ..
    · exact plain_publishPlainly ..

/-! ### Methods with stages -/

theorem rises_runLoader (key : CacheKey) (controller : ℕ) :
    Rises (runLoader cfg key controller) 2 4 := by
  have hstart : Rises (V := V) (perform (.startLoader key)) 2 3 :=
    rises_perform (show 2 < 3 by decide) le_rfl
  refine Async.Rises.bind hstart (by decide) fun _ => ?_
  refine (plain_getStale key).andRises (by decide) fun _ =>
    Async.Plain.andRises plain_ask (by decide) fun loaded => ?_
  cases loaded with
  | value v =>
    have hloaded : Rises (perform (.loaded key v)) 3 4 :=
      rises_perform (show 3 < 4 by decide) le_rfl
    exact Async.Rises.bind hloaded le_rfl fun _ => plain_pure.level 4
  | failed => exact plain_throw.rises (by decide)
  | timedOut =>
    exact Async.Plain.andRises (plain_perform rfl) (by decide) fun _ =>
      plain_throw.rises (by decide)

theorem rises_loadValue (key : CacheKey) (opts : Options) (controller : ℕ)
    (lease : Option LoadLease) : Rises (loadValue cfg key opts controller lease) 2 4 := by
  have hle : 2 ≤ 4 := by decide
  refine (plain_throwIfAborted controller).andRises hle fun _ => ?_
  refine (plain_assertOwned key lease).andRises hle fun _ => ?_
  refine (plain_recheck key).andRises hle fun queued => ?_
  split
  · exact plain_pure.rises hle
  refine (plain_acquireOrigin opts).andRises hle fun _ => ?_
  refine (plain_throwIfAborted controller).andRises hle fun _ => ?_
  refine (plain_assertOwned key lease).andRises hle fun _ => ?_
  refine (plain_later (plain_get key)).andRises hle fun admitted => ?_
  refine (plain_throwIfAborted controller).andRises hle fun _ => ?_
  refine (plain_assertOwned key lease).andRises hle fun _ => ?_
  split
  · exact plain_pure.rises hle
  refine (plain_hasNegative key).andRises hle fun negative => ?_
  split
  · exact plain_pure.rises hle
  refine Async.Rises.bind (rises_later (rises_runLoader key controller)) le_rfl fun v => ?_
  exact ((plain_assertOwned key lease).bind fun _ => plain_pure).level 4

theorem rises_loadAndStore (g : MutationGuard) (opts : Options) (controller : ℕ)
    (lease : Option LoadLease) : Rises (loadAndStore cfg g opts controller lease) 2 4 := by
  have hload := (@rises_loadValue V cfg g.key opts controller lease).catching le_rfl
    (k := fun e => do
      let v ← failSafe cfg g.key opts (.throw e)
      pure (.inl v))
    fun e => ((plain_failSafe g.key opts plain_throw).bind fun _ => plain_pure).level 4
  refine Async.Rises.bind hload le_rfl fun outcome => ?_
  cases outcome with
  | inl answer => exact plain_pure.level 4
  | inr v => exact (plain_storeLoaded g opts lease v).level 4

theorem rises_loadLeased (g : MutationGuard) (opts : Options) (controller token : ℕ) :
    Rises (loadLeased cfg g opts controller token) 2 4 := by
  refine rises_read fun s => Async.Plain.andRises (plain_perform rfl) (by decide) fun _ => ?_
  refine Async.Rises.finally' ?_ ?_
  · refine (plain_recheck g.key).andRises (by decide) fun found => ?_
    split
    · exact plain_pure.rises (by decide)
    · exact rises_later (rises_loadAndStore _ _ _ _)
  · exact (plain_later (plain_runL2 _ _ (plain_command _ _))).bind fun _ => plain_pure

theorem rises_lockTimedOut (g : MutationGuard) (opts : Options) (controller : ℕ) :
    Rises (lockTimedOut cfg g opts controller) 2 4 := by
  rw [lockTimedOut]
  split
  · exact rises_loadAndStore _ _ _ _
  · exact (plain_failSafe _ _ plain_throw).rises (by decide)

theorem rises_acquireLoop (g : MutationGuard) (opts : Options) (controller token : ℕ) :
    ∀ rounds contended, Rises (acquireLoop cfg g opts controller token rounds contended) 2 4 := by
  intro rounds
  induction rounds with
  | zero => exact fun _ => rises_lockTimedOut _ _ _
  | succ rounds ih =>
    intro contended
    have hle : 2 ≤ 4 := by decide
    refine (plain_throwIfAborted controller).andRises hle fun _ => ?_
    refine plain_ensureOpen.andRises hle fun _ => ?_
    refine (plain_later (plain_runL2 _ _ (plain_command _ _))).andRises hle fun acquired => ?_
    split
    · exact rises_loadLeased _ _ _ _
    · exact rises_loadAndStore _ _ _ _
    refine Async.Plain.andRises plain_ask hle fun slept => rises_read fun s => ?_
    split
    · exact plain_throw.rises hle
    refine (plain_recheck g.key).andRises hle fun found => ?_
    split
    · exact plain_pure.rises hle
    split
    · exact rises_lockTimedOut _ _ _
    · exact ih true

theorem rises_loadWithDistributedLockInternal (g : MutationGuard) (opts : Options)
    (controller rounds : ℕ) :
    Rises (loadWithDistributedLockInternal cfg g opts controller rounds) 2 4 := by
  rw [loadWithDistributedLockInternal]
  split
  · exact rises_loadAndStore _ _ _ _
  · exact rises_read fun s => Async.Plain.andRises (plain_perform rfl) (by decide) fun _ =>
      rises_acquireLoop _ _ _ _ _ _

/-- A guard for a fill or a write is a stage of its own. -/
theorem rises_observe {o : Origin} {lo : ℕ} (key : CacheKey) (mutate : Bool)
    (h : o = .fill ∨ o = .write) (hlo : lo < 2) : Rises (observe cfg o key mutate) lo 2 := by
  refine rises_read fun s => ?_
  have hstage : (Act.observeKey (V := V) o (s.guardFor cfg key mutate) mutate).stage = 2 := by
    rcases h with rfl | rfl <;> rfl
  have hobserve : Rises (perform (.observeKey o (s.guardFor cfg key mutate) mutate)) lo 2 :=
    rises_perform (by omega) (by omega)
  exact hobserve.bind le_rfl fun _ => plain_pure.level 2

theorem rises_loadWithDistributedLock (key : CacheKey) (opts : Options) (rounds : ℕ) :
    Rises (loadWithDistributedLock cfg key opts rounds) 1 4 := by
  refine plain_ensureOpen.andRises (by decide) fun _ => rises_read fun s => ?_
  split
  · exact (plain_failSafe _ _ plain_throw).rises (by decide)
  have hobserve : Rises (observe cfg .fill key false) 1 2 :=
    rises_observe key false (.inl rfl) (by decide)
  refine hobserve.bind (by decide) fun g =>
    Async.Plain.andRises (plain_perform rfl) (by decide) fun _ => ?_
  exact (rises_later (rises_loadWithDistributedLockInternal _ _ _ _)).finally'
    (Async.Plain.bind (plain_perform rfl) fun _ => (plain_perform rfl))

/-! ### Single flight -/

theorem plain_receive (key : CacheKey) (id : ℕ) : Plain (receive key id : P V (Option V)) := by
  refine plain_ask.bind fun _ => plain_read fun s => ?_
  split
  · exact Async.Plain.bind (plain_perform rfl) fun _ => plain_ofExcept
  · exact plain_throw

theorem plain_joinInflight (key : CacheKey) (id : ℕ) (opts : Options) :
    Plain (joinInflight cfg key id opts) := by
  refine plain_read fun s => ?_
  split
  · exact plain_throw
  · exact Async.Plain.bind (plain_perform rfl) fun _ =>
      (plain_receive key id).finally' (plain_perform rfl)

theorem plain_pruneInflightKey (key : CacheKey) : Plain (pruneInflightKey key : P V Unit) := by
  refine plain_read fun s => ?_
  split
  · exact plain_perform rfl
  · exact plain_pure

theorem plain_liveInflight (key : CacheKey) (ms : ℕ) :
    Plain (liveInflight key ms : P V (Option ℕ)) := by
  refine (plain_pruneInflightKey key).bind fun _ => ?_
  exact Async.Plain.bind (plain_perform rfl) fun _ => plain_read fun s => plain_pure

theorem rises_loadAlone (key : CacheKey) (opts : Options) (rounds : ℕ) :
    Rises (loadAlone cfg key opts rounds) 0 5 := by
  have hbypass : Rises (V := V) (perform (.bypassInflight key)) 0 1 :=
    rises_perform (show 0 < 1 by decide) le_rfl
  refine hbypass.bind (by decide) fun _ => ?_
  exact (rises_later (rises_loadWithDistributedLock key opts rounds)).to_le (by decide)

theorem rises_tracked (key : CacheKey) (id : ℕ) {p : P V (Option V)} (h : Rises p 1 4) :
    Rises (tracked key id p) 1 5 := by
  refine Async.Rises.andThen h fun outcome => ?_
  have hfinish : Rises (perform (.finishInflight key id outcome)) 4 5 :=
    rises_perform (show 4 < 5 by decide) le_rfl
  exact hfinish.andThen fun _ => plain_ofExcept.level 5

theorem rises_startLoad (key : CacheKey) (opts : Options) (timing : Timing) :
    Rises (startLoad cfg key opts timing) 0 5 := by
  refine rises_read fun s => ?_
  split
  · refine Async.Plain.andRises (plain_perform rfl) (by decide) fun _ => ?_
    have htrack : Rises (V := V) (perform (.trackInflight key s.nextInflight opts)) 0 1 :=
      rises_perform (show 0 < 1 by decide) le_rfl
    refine htrack.bind (by decide) fun _ => rises_tracked key s.nextInflight ?_
    exact plain_ask.andRises (by decide) fun _ =>
      rises_later (rises_loadWithDistributedLock key opts timing.rounds)
  · exact rises_loadAlone key opts timing.rounds

theorem rises_getOrLoad (key : CacheKey) (opts : Options) (timing : Timing) :
    Rises (getOrLoad cfg key opts timing) 0 5 := by
  have hle : 0 ≤ 5 := by decide
  refine (plain_later (plain_get key)).andRises hle fun cached => ?_
  split
  · exact plain_pure.rises hle
  refine rises_read fun s => ?_
  split
  · exact plain_throw.rises hle
  refine (plain_trustedNegative key).andRises hle fun negative => ?_
  split
  · exact plain_pure.rises hle
  split
  · exact rises_loadAlone key opts timing.rounds
  refine (plain_liveInflight key timing.late).andRises hle fun existing => ?_
  split
  · exact (plain_joinInflight _ _ _).rises hle
  · exact rises_startLoad key opts timing

theorem plain_validateCacheBudgets (opts : Options) :
    Plain (validateCacheBudgets opts : P V Unit) := by
  rw [validateCacheBudgets]
  split
  · exact plain_throw
  · exact plain_pure

theorem rises_getOrSet (key : CacheKey) (opts : Options) (timing : Timing) :
    Rises (getOrSet cfg key opts timing) 0 5 := by
  have hle : 0 ≤ 5 := by decide
  refine plain_ensureOpen.andRises hle fun _ => ?_
  refine (plain_validateCacheBudgets opts).andRises hle fun _ => ?_
  split
  · exact rises_getOrLoad key opts timing
  refine (plain_liveInflight key timing.early).andRises hle fun existing => ?_
  split
  · exact (plain_joinInflight _ _ _).rises hle
  · exact rises_getOrLoad key opts timing

theorem rises_set (key : CacheKey) (v : V) (opts : Options) : Rises (set cfg key v opts) 0 2 := by
  have hle : 0 ≤ 2 := by decide
  refine plain_ensureOpen.andRises hle fun _ => ?_
  refine (plain_validateCacheBudgets opts).andRises hle fun _ => ?_
  have hobserve : Rises (observe cfg .write key true) 0 2 :=
    rises_observe key true (.inr rfl) (by decide)
  refine hobserve.bind le_rfl fun g => ?_
  have hwrite := (plain_later (@plain_writeValue V cfg .write g v opts)).bind
    (k := fun _ => (pure () : P V Unit)) fun _ => plain_pure
  exact (hwrite.finally' (plain_perform rfl)).level 2

/-! ### Along a run -/

/-- The calls whose acts have stages. -/
def Call.isStaged : Call V → Bool
  | .getOrSet _ _ _ | .set _ _ _ => true
  | _ => false

/-- The guarantee that acts keep to their stages. -/
def Staged (c : Call V) (l : List (Act V)) (_ : State V) (a : Act V) : Prop :=
  c.isStaged = true → Later Act.stage l a

theorem wp_staged {w : World (State V) (Act V) (Env V) Query} (c : Call V) (s : State V) :
    wp w (Staged c) (c.body cfg) (fun _ _ _ => True) [] s := by
  have hall : ∀ {p : P V (Result V)}, (c.isStaged = true → Rises p 0 5) →
      wp w (Staged c) p (fun _ _ _ => True) [] s := by
    intro p hp
    rcases hc : c.isStaged with _ | _
    · refine wp_of_always (fun l s a hstaged => ?_) fun _ _ _ => trivial
      rw [hc] at hstaged
      cases hstaged
    · refine wp_weaken (fun l s a h _ => h) (wp_of_rises ?_ (hp hc))
      simp
  cases c with
  | getOrSet key opts timing =>
    refine hall fun _ => ?_
    exact (rises_getOrSet key opts timing).bind le_rfl fun _ => plain_pure.level 5
  | set key v opts =>
    refine hall fun _ => ?_
    exact (rises_set key v opts).bind (by decide) fun _ => plain_pure.rises (by decide)
  | _ => exact hall nofun

namespace Run

variable {r : Run V}

/-- Every act of a load or a write is of a later stage than those before it. -/
theorem staged {n i : ℕ} {t : CacheTask V} {a : Act V} (hdoes : r.Does n i a)
    (ht : r.tasks[i]? = some t) (hc : t.call.isStaged = true) :
    Later Act.stage (r.acts i n) a := by
  have hsound : r.final.Sound r.system Staged fun _ _ _ _ => True := Async.sound wp_staged r.events
  obtain ⟨t', ht', -, h⟩ := hsound.keeps n i a hdoes
  obtain rfl := Option.some.inj (ht.symm.trans ht')
  exact h hc

/-- Acts of one stage are one act. -/
theorem same_of_stage {m n i : ℕ} {t : CacheTask V} {a b : Act V} (ha : r.Does m i a)
    (hb : r.Does n i b) (ht : r.tasks[i]? = some t) (hc : t.call.isStaged = true)
    (hstage : a.stage = b.stage) (hne : a.stage ≠ 0) : m = n := by
  rcases Nat.lt_trichotomy m n with hlt | heq | hlt
  · rcases staged hb ht hc with hzero | hlater
    · omega
    · have := hlater a (mem_acts ha hlt)
      omega
  · exact heq
  · rcases staged ha ht hc with hzero | hlater
    · omega
    · have := hlater b (mem_acts hb hlt)
      omega

/-- Acts of a later stage come later. -/
theorem lt_of_stage {m n i : ℕ} {t : CacheTask V} {a b : Act V} (ha : r.Does m i a)
    (hb : r.Does n i b) (ht : r.tasks[i]? = some t) (hc : t.call.isStaged = true)
    (hstage : a.stage < b.stage) (hne : a.stage ≠ 0) : m < n := by
  by_contra hge
  rcases Nat.lt_or_eq_of_le (Nat.le_of_not_lt hge) with hlt | rfl
  · rcases staged ha ht hc with hzero | hlater
    · omega
    · have := hlater b (mem_acts hb hlt)
      omega
  · cases Option.some.inj (ha.symm.trans hb)
    omega

end Run

end HybridCache
