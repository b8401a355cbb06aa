/-
Runs of the cache.

A `Run` is a cache with the schedule it went through.  Every position of its trace
has a state, and every act there satisfies its `Rule`; from this alone follow the
facts about guards that hold in every run.

* `Run.rule` — the rule of an act at its position;
* `Run.ages`, `Run.ok`, `Run.live` — guards along a run;
* `Run.obsolete` — a guard is never current again after a mutation of its key or
  a bump of the epoch.
-/
import LazyLayers.Runs
import LazyLayers.HybridGuards

open Js Pattern Async Runs

namespace HybridCache

/-- A cache and its schedule. -/
structure Run (V : Type) where
  cfg : Config V
  budget : MemoryBudget
  history : Option (ℕ → ℕ)
  l2 : JsMap JsString (L2Entry V)
  events : List (Event (Env V) Query (Resp V) (Call V))

/-- A call that was made on the cache. -/
abbrev CacheTask (V : Type) := Task (State V) (Act V) Query (Resp V) Err (Result V) (Call V)

/-- The calls that a closed cache refuses. -/
def Call.needsOpen {V : Type} : Call V → Bool
  | .get _ | .has _ | .set _ _ _ | .getOrSet _ _ _ | .delete _ | .deleteByPattern _ => true
  | _ => false

namespace Run

variable {V : Type} (r : Run V)

def system : System (State V) (Act V) (Env V) Query (Resp V) Err (Result V) (Call V) :=
  HybridCache.system r.cfg r.budget r.history r.l2

def final : Sys (State V) (Act V) (Env V) Query (Resp V) Err (Result V) (Call V) :=
  r.system.run r.events

def trace : List (Entry (Act V) (Env V)) := r.final.trace

def tasks : List (CacheTask V) := r.final.tasks

/-- The state before position `m` of the trace. -/
def «at» (m : ℕ) : State V := stateAt r.system.stepEntry r.system.init r.trace m

/-- Task `i` performs the act at position `m`. -/
def Does (m i : ℕ) (a : Act V) : Prop := r.trace[m]? = some (.own i a)

/-- The acts of task `i` before position `m`. -/
def acts (i m : ℕ) : List (Act V) := own i (r.trace.take m)

variable {r}

theorem sound : r.final.Sound r.system (Rule r.cfg) (fun c res l _ => c.Finished r.cfg res l) :=
  disciplined ..

theorem rule {m i : ℕ} {a : Act V} (h : r.Does m i a) :
    ∃ t, r.tasks[i]? = some t ∧ t.started ≤ m ∧ Rule r.cfg t.call (r.acts i m) (r.at m) a :=
  sound.keeps m i a h

theorem at_succ {m : ℕ} {x : Entry (Act V) (Env V)} (h : r.trace[m]? = some x) :
    r.at (m + 1) = r.system.stepEntry (r.at m) x := stateAt_succ h

theorem at_succ_own {m i : ℕ} {a : Act V} (h : r.Does m i a) :
    r.at (m + 1) = a.apply r.cfg (r.at m) := at_succ h

/-- An act of the task itself stands before position `m`. -/
theorem does_of_mem {i m : ℕ} {a : Act V} (h : a ∈ r.acts i m) : ∃ n, n < m ∧ r.Does n i a :=
  mem_own_take h

theorem mem_acts {i m n : ℕ} {a : Act V} (h : r.Does n i a) (hlt : n < m) : a ∈ r.acts i m := by
  refine mem_own.mpr ⟨n, ?_⟩
  rw [List.getElem?_take_of_lt hlt]
  exact h

/-- A call begins with the acts up to its first await. -/
theorem does_of_opening {i k : ℕ} {t : CacheTask V} {a : Act V} (ht : r.tasks[i]? = some t)
    (ha : (opening r.system.toWorld (t.call.body r.cfg) (r.at t.started))[k]? = some a) :
    r.Does (t.started + k) i a :=
  opened_at r.system r.events ht ha

theorem acts_length (i : ℕ) : r.acts i r.trace.length = own i r.trace :=
  congrArg (own i) (List.take_length ..)

/-- What the acts of a call tell about it once it has ended. -/
theorem finished {i : ℕ} {t : CacheTask V} {res : Except Err (Result V)}
    (ht : r.tasks[i]? = some t) (hrest : t.rest = Prog.ofExcept res) :
    t.call.Finished r.cfg res (r.acts i r.trace.length) := by
  obtain ⟨-, s, hs⟩ := sound.rest i t ht
  rw [hrest] at hs
  rw [acts_length]
  exact wp_ofExcept.mp hs

/-! ### How calls begin -/

section Openings

variable {α : Type} {w : World (State V) (Act V) (Env V) Query}

theorem opening_ensureOpen (f : Unit → P V α) (s : State V) :
    opening w (ensureOpen >>= f) s = if s.closed then [] else opening w (f ()) s := by
  show opening w ((if s.closed = true then (.throw .cacheClosed : P V Unit) else pure ()) >>= f) s = _
  rcases s.closed with _ | _ <;> rfl

theorem settles_ensureOpen (f : Unit → P V α) (s : State V) :
    settles w (ensureOpen >>= f) s =
      if s.closed then some (.error .cacheClosed) else settles w (f ()) s := by
  show settles w ((if s.closed = true then (.throw .cacheClosed : P V Unit) else pure ()) >>= f) s = _
  rcases s.closed with _ | _ <;> rfl

end Openings

theorem settles_of_closed (w : World (State V) (Act V) (Env V) Query) (cfg : Config V) {c : Call V}
    {s : State V} (hc : c.needsOpen = true) (hclosed : s.closed = true) :
    settles w (c.body cfg) s = some (.error .cacheClosed) ∧ opening w (c.body cfg) s = [] := by
  have hmap : ∀ {α : Type} (f : α → Result V) (k : Unit → P V α),
      settles w (f <$> (ensureOpen >>= k)) s = some (.error .cacheClosed) ∧
        opening w (f <$> (ensureOpen >>= k)) s = [] := by
    intro α f k
    rw [settles_map, opening_map, settles_ensureOpen, opening_ensureOpen, if_pos hclosed,
      if_pos hclosed]
    exact ⟨rfl, rfl⟩
  cases c
  case get key => exact hmap _ _
  case has key => exact hmap _ _
  case set key v opts => exact hmap _ _
  case getOrSet key opts timing => exact hmap _ _
  case delete key => exact hmap _ _
  case deleteByPattern pattern => exact hmap _ _
  all_goals cases hc

/-- A closed cache refuses a call before it has done anything. -/
theorem refused_of_closed {i : ℕ} {t : CacheTask V} (ht : r.tasks[i]? = some t)
    (hc : t.call.needsOpen = true) (hclosed : (r.at t.started).closed = true) :
    t.rest = .throw .cacheClosed ∧ ∀ n a, ¬ r.Does n i a := by
  obtain ⟨hsettles, hopening⟩ := settles_of_closed r.system.toWorld r.cfg hc hclosed
  obtain ⟨hrest, hown⟩ := (opened r.system r.events).settled i t _ ht hsettles
  refine ⟨hrest, fun n a hdoes => ?_⟩
  have hmem : a ∈ own i r.trace := mem_own.mpr ⟨n, hdoes⟩
  rw [show own i r.trace = [] from hown.trans hopening] at hmem
  cases hmem

/-- A deletion invalidates its key in the turn in which it is called. -/
theorem invalidates_at {i : ℕ} {t : CacheTask V} {key : CacheKey} (ht : r.tasks[i]? = some t)
    (hcall : t.call = .delete key) (hopen : (r.at t.started).closed = false) :
    ∃ g, g.key = key ∧ r.Does t.started i (.invalidateKey g none) := by
  refine ⟨(r.at t.started).guardFor r.cfg key true, rfl, does_of_opening ht (k := 0) ?_⟩
  have hbody : opening r.system.toWorld (t.call.body r.cfg) (r.at t.started) =
      opening r.system.toWorld (HybridCache.delete r.cfg key) (r.at t.started) := by
    rw [hcall]
    exact opening_map ..
  rw [hbody, HybridCache.delete, opening_ensureOpen, hopen]
  rfl

/-- A write takes its guard in the turn in which it is called, and never another one. -/
theorem observes_at {i : ℕ} {t : CacheTask V} {key : CacheKey} {v : V} {opts : Options}
    (ht : r.tasks[i]? = some t) (hcall : t.call = .set key v opts) {n : ℕ} {a : Act V}
    (hdoes : r.Does n i a) : (r.at t.started).closed = false ∧
      r.Does t.started i (.observeKey .write ((r.at t.started).guardFor r.cfg key true) true) := by
  have hopen : (r.at t.started).closed = false := by
    by_contra hclosed
    rw [Bool.not_eq_false] at hclosed
    exact (refused_of_closed ht (by rw [hcall]; rfl) hclosed).2 n a hdoes
  refine ⟨hopen, does_of_opening ht (k := 0) ?_⟩
  have hbody : opening r.system.toWorld (t.call.body r.cfg) (r.at t.started) =
      opening r.system.toWorld (HybridCache.set r.cfg key v opts) (r.at t.started) := by
    rw [hcall]
    exact opening_map ..
  rcases Nat.eq_zero_or_pos opts.ttlMs with hzero | hpos
  · -- options that are refused leave no trace
    exfalso
    have hsettles : settles r.system.toWorld (t.call.body r.cfg) (r.at t.started) =
        some (.error .invalidOptions) := by
      rw [hcall]
      refine (settles_map ..).trans ?_
      rw [HybridCache.set, settles_ensureOpen, hopen, validateCacheBudgets, if_pos hzero]
      rfl
    have hopening : opening r.system.toWorld (t.call.body r.cfg) (r.at t.started) = [] := by
      rw [hbody, HybridCache.set, opening_ensureOpen, hopen, validateCacheBudgets, if_pos hzero]
      rfl
    have hown := ((opened r.system r.events).settled i t _ ht hsettles).2
    have hmem : a ∈ own i r.trace := mem_own.mpr ⟨n, hdoes⟩
    rw [show own i r.trace = [] from hown.trans hopening] at hmem
    cases hmem
  · have hne : opts.ttlMs ≠ 0 := by omega
    rw [hbody, HybridCache.set, opening_ensureOpen, hopen, validateCacheBudgets, if_neg hne]
    rfl

/-! ### Guards along a run -/

theorem ages_step (s : State V) (x : Entry (Act V) (Env V)) :
    s.core.Ages (r.system.stepEntry s x).core := by
  cases x with
  | own i a => exact ages_apply s a
  | env e =>
    have hcore : (r.system.stepEntry s (.env e)).core = s.core := core_env s e
    rw [hcore]
    exact .refl _

theorem ages {m n : ℕ} (h : m ≤ n) : (r.at m).core.Ages (r.at n).core := by
  refine invariant_from (P := fun s : State V => (r.at m).core.Ages s.core) (.refl _) ?_ n h
  intro k x _ _ hk
  exact hk.trans (ages_step _ x)

/-- A cache that is closed stays closed. -/
theorem closed_mono {m n : ℕ} (h : m ≤ n) (hclosed : (r.at m).closed = true) :
    (r.at n).closed = true :=
  (ages h).closed hclosed

theorem revisions_env (s : State V) (e : Env V) : (e.apply s).revisions = s.revisions :=
  congrArg Core.revisions (core_env s e)

/-- The guard that an act takes, if it takes one. -/
def Takes (a : Act V) (g : MutationGuard) : Prop :=
  (∃ o mutate, a = .observeKey o g mutate) ∨ ∃ generation, a = .invalidateKey g generation

theorem takes_of_delta {a : Act V} {cell : ℕ} (h : a.delta (.revision cell) = 1) :
    ∃ g, Takes a g ∧ g.cell = cell := by
  cases a
  case observeKey o g mutate =>
    refine ⟨g, .inl ⟨o, mutate, rfl⟩, ?_⟩
    by_contra hne
    simp [Act.delta, hne] at h
  case invalidateKey g generation =>
    refine ⟨g, .inr ⟨generation, rfl⟩, ?_⟩
    by_contra hne
    simp [Act.delta, hne] at h
  case releaseKey g =>
    rw [Act.delta] at h
    split at h <;> cases h
  all_goals simp [Act.delta] at h

/-- What taking a guard does: it is the guard for the state, which then knows it. -/
theorem guard_of_takes {m i : ℕ} {a : Act V} {g : MutationGuard} (h : r.Does m i a)
    (ha : Takes a g) : ∃ mutate, g = (r.at m).guardFor r.cfg g.key mutate ∧
      (r.at (m + 1)).revisions = ((r.at m).observeKey g.key mutate).revisions ∧
      g.epoch ≤ (r.at m).mutationEpoch := by
  obtain ⟨t, -, -, hrule⟩ := rule h
  have hepoch : ∀ {mutate}, g = (r.at m).guardFor r.cfg g.key mutate →
      g.epoch ≤ (r.at m).mutationEpoch := by
    intro mutate hg
    rw [hg]
    exact le_rfl
  rcases ha with ⟨o, mutate, rfl⟩ | ⟨generation, rfl⟩
  · have hg := hrule.2.1
    refine ⟨mutate, hg, ?_, hepoch hg⟩
    rw [at_succ_own h]
    rfl
  · refine ⟨true, hrule, ?_, hepoch hrule⟩
    rw [at_succ_own h]
    exact revisions_invalidateKey ..

theorem ok_step {m : ℕ} {x : Entry (Act V) (Env V)} (hx : r.trace[m]? = some x)
    (hok : (r.at m).revisions.Ok)
    (hbound : ∀ i g, r.Does m i (.releaseKey g) → g.cell < (r.at m).nextCell) :
    (r.system.stepEntry (r.at m) x).revisions.Ok := by
  cases x with
  | env e =>
    have hsame : (r.system.stepEntry (r.at m) (.env e)).revisions = (r.at m).revisions :=
      revisions_env ..
    rw [hsame]
    exact hok
  | own i a =>
    change (a.apply r.cfg (r.at m)).revisions.Ok
    rcases htouch : a.touches with _ | _
    · rw [revisions_apply _ htouch]
      exact hok
    cases a
    case observeKey o g mutate => exact ok_observeKey hok g.key mutate
    case invalidateKey g generation =>
      rw [Act.apply, revisions_invalidateKey]
      exact ok_observeKey hok g.key true
    case releaseKey g => exact ok_releaseKey hok (hbound i g hx)
    case close => exact ok_close hok
    all_goals cases htouch

/-- The revision objects are in order, and every guard that was taken is live. -/
theorem ok_and_live (n : ℕ) (hn : n ≤ r.trace.length) : (r.at n).revisions.Ok ∧
    ∀ m i a g, m < n → r.Does m i a → Takes a g → Live g (r.at n).revisions := by
  have h0 : ∀ m i a g, m < 0 → r.Does m i a → Takes a g → Live g r.system.init.revisions :=
    fun m i a g hm => absurd hm (Nat.not_lt_zero m)
  refine invariant_indexed (P := fun n (s : State V) => s.revisions.Ok ∧ ∀ m i a g, m < n →
    r.Does m i a → Takes a g → Live g s.revisions) ⟨ok_create .., h0⟩ ?_ n hn
  rintro n x hx ⟨hok, hlive⟩
  have hok' : (r.system.stepEntry (r.at n) x).revisions.Ok := by
    refine ok_step hx hok fun i g hrel => ?_
    obtain ⟨t, -, -, l₁, a, ⟨u, hu, -⟩, hdelta⟩ := rule hrel
    obtain ⟨g', htakes, hcell⟩ := takes_of_delta hdelta
    have hmem : a ∈ r.acts i n := by
      rw [hu]
      simp
    obtain ⟨m, hm, hdoes⟩ := does_of_mem hmem
    rw [← hcell]
    exact (hlive m i a g' hm hdoes htakes).1
  refine ⟨hok', fun m i a g hm hdoes htakes => ?_⟩
  rcases Nat.lt_succ_iff_lt_or_eq.mp hm with hlt | rfl
  · have hg := hlive m i a g hlt hdoes htakes
    cases x with
    | own j b => exact live_apply hg b
    | env e =>
      have hsame : (r.system.stepEntry (r.at n) (.env e)).revisions = (r.at n).revisions :=
        revisions_env ..
      exact hsame ▸ hg
  · obtain ⟨mutate, hg, hrev, -⟩ := guard_of_takes hdoes htakes
    have hnext : (r.system.stepEntry (r.at m) x).revisions =
        ((r.at m).observeKey g.key mutate).revisions := by
      rw [← at_succ hx]
      exact hrev
    change Live g (r.system.stepEntry (r.at m) x).revisions
    rw [hnext, hg]
    exact live_guardFor hok g.key mutate

theorem live {m n i : ℕ} {a : Act V} {g : MutationGuard} (hn : n ≤ r.trace.length) (hlt : m < n)
    (hdoes : r.Does m i a) (ha : Takes a g) : Live g (r.at n).revisions :=
  (ok_and_live n hn).2 m i a g hlt hdoes ha

theorem lt_length {m i : ℕ} {a : Act V} (h : r.Does m i a) : m < r.trace.length :=
  (List.getElem?_eq_some_iff.mp h).1

/-- The value at which a guard is taken. -/
theorem value_of_takes {m i : ℕ} {a : Act V} {g : MutationGuard} (h : r.Does m i a)
    (ha : Takes a g) : ((r.at (m + 1)).cells g.cell).value = g.revision := by
  obtain ⟨mutate, hg, hrev, -⟩ := guard_of_takes h ha
  have hvalue : ((r.at (m + 1)).revisions.cells g.cell).value = g.revision := by
    rw [hrev, hg]
    exact value_guardFor (r.at m) g.key mutate
  exact hvalue

/-- The revision objects after a mutation of the key are those after its observation. -/
theorem revisions_of_mutates {s : State V} {a : Act V} {key : CacheKey}
    (h : a.mutates key = true) : (a.apply r.cfg s).revisions = (s.observeKey key true).revisions := by
  cases a
  case observeKey o g mutate =>
    have hboth : mutate = true ∧ g.key = key := by simpa [Act.mutates] using h
    obtain ⟨rfl, rfl⟩ := hboth
    rfl
  case invalidateKey g generation =>
    have hkey : g.key = key := by simpa [Act.mutates] using h
    subst hkey
    exact revisions_invalidateKey ..
  all_goals cases h

theorem isCurrent_base (s : State V) {g g' : MutationGuard} (hbase : g'.base = g.base)
    (hcur : s.isCurrent r.cfg g' = true) : s.closed = false ∧
      (s.cells g.cell).registered = true ∧ g.epoch = s.mutationEpoch ∧
      g.revision = (s.cells g.cell).value := by
  have hcell : g'.base.cell = g.base.cell := congrArg MutationGuard.cell hbase
  have hepoch : g'.base.epoch = g.base.epoch := congrArg MutationGuard.epoch hbase
  have hrevision : g'.base.revision = g.base.revision := congrArg MutationGuard.revision hbase
  change g'.cell = g.cell at hcell
  change g'.epoch = g.epoch at hepoch
  change g'.revision = g.revision at hrevision
  simp only [State.isCurrent, Bool.and_eq_true, Bool.not_eq_true', decide_eq_true_eq, hcell,
    hepoch, hrevision] at hcur
  obtain ⟨⟨⟨⟨⟨hopen, hreg⟩, -⟩, -⟩, hepoch⟩, hvalue⟩ := hcur
  exact ⟨hopen, hreg, hepoch, hvalue⟩

/-- **A guard is never current again** once its key has been mutated, or the epoch
bumped, after it was taken. -/
theorem obsolete {i m n j k : ℕ} {a b : Act V} {g g' : MutationGuard} (hn : n ≤ r.trace.length)
    (htaken : r.Does i j a) (ha : Takes a g) (hdoes : r.Does m k b) (him : i < m) (hmn : m < n)
    (hb : b.mutates g.key = true ∨ b.bumps r.cfg (r.at m) = true) (hbase : g'.base = g.base) :
    (r.at n).isCurrent r.cfg g' = false := by
  by_contra hcur
  rw [Bool.not_eq_false] at hcur
  obtain ⟨-, hreg, hepoch, hvalue⟩ := isCurrent_base (r.at n) hbase hcur
  obtain ⟨-, -, -, htake⟩ := guard_of_takes htaken ha
  have hbefore : (r.at i).core.Ages (r.at m).core := ages (by omega)
  have hafter : (r.at (m + 1)).core.Ages (r.at n).core := ages (by omega)
  rcases hb with hmut | hbump
  · -- the value has grown since
    have hlive : Live g (r.at m).revisions := live (by omega) him htaken ha
    have hsince : (r.at (i + 1)).core.Ages (r.at m).core := ages (by omega)
    have hthen : (r.at (i + 1)).core.Ages (r.at n).core := ages (by omega)
    have hcell : g.cell < (r.at (i + 1)).nextCell := (live (by omega) (by omega) htaken ha).1
    have hregm : ((r.at m).cells g.cell).registered = true := by
      have hmn' : (r.at m).core.Ages (r.at n).core := ages (by omega)
      exact hmn'.registered g.cell hlive.1 hreg
    have hstep : ((r.at m).cells g.cell).value < ((r.at (m + 1)).cells g.cell).value := by
      have hrev := revisions_of_mutates (r := r) (s := r.at m) hmut
      have hlt := value_lt_of_mutation hlive hregm
      rw [← hrev, ← at_succ_own hdoes] at hlt
      exact hlt
    have hstart := value_of_takes htaken ha
    have hgrow : ((r.at (i + 1)).cells g.cell).value ≤ ((r.at m).cells g.cell).value :=
      hsince.value g.cell hcell
    have hend : ((r.at (m + 1)).cells g.cell).value ≤ ((r.at n).cells g.cell).value :=
      hafter.value g.cell (live (by omega) (by omega) htaken ha).1
    omega
  · -- the epoch has grown since
    have hlt := epoch_lt_of_bumps hbump
    rw [← at_succ_own hdoes] at hlt
    have hle : (r.at i).mutationEpoch ≤ (r.at m).mutationEpoch := hbefore.epoch
    have hend : (r.at (m + 1)).mutationEpoch ≤ (r.at n).mutationEpoch := hafter.epoch
    omega

end Run

/-! ### A cache to look at -/

/-- Numbers below 256, one byte each. -/
def byteCodec : Codec ℕ where
  serialize _ v := some [UInt8.ofNat v]
  decode buffer := buffer.head?.map UInt8.toNat

/-- The defaults, without a bus. -/
def quietConfig : Config ℕ := { codec := byteCodec, eventBus := false }

/-- A ledger with room for everything. -/
def roomy : MemoryBudget := ⟨2 ^ 30, 2 ^ 29, 0, fun _ => 0, .normal⟩

/-- Whatever is asked for succeeds at once; loaders answer 7. -/
def healthy : ∀ q, Resp ℕ q
  | .hop => ()
  | .gate => true
  | .request => .executed
  | .reply => true
  | .scan => some []
  | .origin => none
  | .loader => .value (some 7)
  | .join _ => ()
  | .sleep => (true, true)

/-- A run of such a cache. -/
def demo (cfg : Config ℕ) (l2 : JsMap JsString (L2Entry ℕ))
    (events : List (Event (Env ℕ) Query (Resp ℕ) (Call ℕ))) : Run ℕ where
  cfg := cfg
  budget := roomy
  history := none
  l2 := l2
  events := events

/-- The key of the examples. -/
def theKey : CacheKey := ⟨false, str "k"⟩

end HybridCache
