/-
The discipline of the cache: what each act presupposes.

`Rule` states, for every label, what the performing call has done before and what
holds of the state at that moment.  It is the one place where the programs are
taken apart (in `HybridMethods`); what is proved about runs rests on the rule alone.

* `Meets` — a program keeps to the discipline, ends with as many references to
  revision objects as it started with, and satisfies a postcondition about the
  acts of its call;
* `Meets.bind`, `Meets.finally'`, … — how such programs compose;
* `wp_guarded` — a guard is given back on every way out;
* `meets_runL2` — a command behind the breaker, the budget and the gate.
-/
import LazyLayers.HybridPrograms

open Js Pattern Async Async.Prog

namespace HybridCache

variable {V : Type} (cfg : Config V)

/-! ### The rule -/

/-- A guard as it was taken. -/
def MutationGuard.base (g : MutationGuard) : MutationGuard :=
  { g with signal := none, publicationAllowed := true }

/-- What calls take and must give back: references to revision objects, and places
among the followers. -/
inductive Resource
  | revision (cell : ℕ)
  | follower
  deriving DecidableEq

/-- What an act adds to the holdings of its call. -/
def Act.delta (x : Resource) : Act V → ℤ
  | .observeKey _ g _ => if .revision g.cell = x then 1 else 0
  | .invalidateKey g _ => if .revision g.cell = x then 1 else 0
  | .releaseKey g => if .revision g.cell = x then -1 else 0
  | .follow _ _ => if .follower = x then 1 else 0
  | .unfollow => if .follower = x then -1 else 0
  | _ => 0

def balance (l : List (Act V)) (x : Resource) : ℤ := (l.map (Act.delta x)).sum

/-- The acts by which a call joins a load in flight and leaves it. -/
def Act.follows : Act V → Bool
  | .follow _ _ | .joined _ _ _ | .unfollow => true
  | _ => false

/-- `l'` continues `l` without joining a load in flight, with as much taken as given
back. -/
def Extends (l l' : List (Act V)) : Prop :=
  ∃ u, l' = l ++ u ∧ (∀ x, balance u x = 0) ∧ ∀ a ∈ u, a.follows = false

/-- The rest of `l'` after `l` satisfies `P`. -/
def Since (P : List (Act V) → Prop) (l l' : List (Act V)) : Prop := ∃ u, l' = l ++ u ∧ P u

/-- A property that more acts do not undo. -/
def Grows (P : List (Act V) → Prop) : Prop := ∀ ⦃u u'⦄, u ⊆ u' → P u → P u'

/-- The call has taken this guard for this purpose. -/
def Observed (l : List (Act V)) (o : Origin) (g : MutationGuard) : Prop :=
  ∃ mutate, Act.observeKey o g.base mutate ∈ l

/-- The value came out of a read of the shared tier under the guard. -/
def FromL2 (l : List (Act V)) (g : MutationGuard) (v : V) : Prop :=
  ∃ record life hit, Act.returned (some g) (.get g.storageKey) (.found (some (record, life))) ∈ l ∧
    decodeRecord cfg record life = some hit ∧ hit.value = v

/-- The value came out of a read of the L1 under the guard. -/
def FromL1 (l : List (Act V)) (g : MutationGuard) (v : V) : Prop :=
  ∃ buffer, Act.readL1 g (some buffer) ∈ l ∧ cfg.codec.decode buffer = some v

/-- The value was found under the guard, in the L1 or in the shared tier. -/
def Found (l : List (Act V)) (g : MutationGuard) (v : V) : Prop :=
  FromL1 cfg l g v ∨ FromL2 cfg l g v

/-- A lookup of the key found the value. -/
def LookedUp (l : List (Act V)) (key : CacheKey) (v : V) : Prop :=
  ∃ g, g.key = key ∧ Act.observeKey .read g false ∈ l ∧ Found cfg l g v

/-- A lookup of the key found nothing. -/
def Missed (l : List (Act V)) (key : CacheKey) : Prop :=
  (∃ g hit, Act.readL1 g hit ∈ l ∧ g.key = key ∧ hit.bind cfg.codec.decode = none) ∨
    (∃ g, Act.skipL1 g ∈ l ∧ g.key = key) ∨ .refuse key ∈ l ∨ .negativeHit key ∈ l

/-- The commands that give the shared tier a value. -/
def L2Op.writes : L2Op V → Bool
  | .set _ _ _ | .publishIfOwner _ _ _ _ => true
  | _ => false

/-- A load reads the shared tier under its own guard only after a publication. -/
def MayRead (l : List (Act V)) (g : MutationGuard) : Prop :=
  ∃ op reply, op.writes = true ∧ .returned (some g) op reply ∈ l

/-- Where the value that a load of the key ends with comes from. -/
def Loads (l : List (Act V)) (key : CacheKey) (v : V) : Prop :=
  LookedUp cfg l key v ∨ .staleHit key v ∈ l ∨ .loaded key (some v) ∈ l ∨
    ∃ g, g.key = key ∧ Observed l .fill g ∧ MayRead l g ∧ FromL2 cfg l g v

/-- `acquireLock` returned `true` for the key with this token. -/
def Acquired (l : List (Act V)) (key : CacheKey) (token : ℕ) : Prop :=
  ∃ g, Act.returned g (.acquireLock key token) (.flag true) ∈ l

/-- `publishIfOwner` returned `published` for an encoding of the value. -/
def Published (l : List (Act V)) (key : CacheKey) (v : V) : Prop :=
  ∃ g token policy buffer ttlMs, cfg.codec.serialize policy v = some buffer ∧
    Act.returned g (.publishIfOwner key token (.encoded buffer) ttlMs) .published ∈ l

/-- A load that may only publish under a lease. -/
def Call.coordinated : Call V → Bool
  | getOrSet _ opts _ => opts.distributedLock && locks cfg && atomicPublisher cfg
  | _ => false

def Origin.allows : Origin → Call V → Prop
  | .write, .set _ _ _ => True
  | .fill, .getOrSet _ _ _ => True
  | .remote, .event _ => True
  | .read, _ => True
  | _, _ => False

/-- Where a value that is installed locally comes from. -/
def Justified (c : Call V) (l : List (Act V)) (g : MutationGuard) (v : V) : Origin → Prop
  | .write => ∃ opts, c = .set g.key v opts
  | .fill => .loaded g.key (some v) ∈ l ∧
      (c.coordinated cfg = true → Published cfg l g.storageKey v)
  | .read => FromL2 cfg l g v
  | .remote => cfg.l2.isSome = true → FromL2 cfg l g v

/-- Whether the deletion of a key still has to reach the shared tier. -/
def State.mustDelete (s : State V) (g : MutationGuard) : Bool :=
  !s.closed && (g.revision = (s.cells g.cell).value || g.storageKey ≠ s.toStorageKey cfg g.key)

/-- The bytes stand for the value: they decode to it, or they encode it. -/
def Stands (v : V) (buffer : Octets) : Prop :=
  cfg.codec.decode buffer = some v ∨ ∃ policy, cfg.codec.serialize policy v = some buffer

/-- The record is the value, or encodes it. -/
def Record.Holds (v : V) : Record V → Prop
  | .encoded buffer => ∃ policy, cfg.codec.serialize policy v = some buffer
  | .plain u => u = v

/-- The guard entitles its holder to write the value to the shared tier directly. -/
def MayWrite (c : Call V) (l : List (Act V)) (g : MutationGuard) (v : V) : Prop :=
  (Observed l .write g ∧ ∃ opts, c = .set g.key v opts) ∨
    Observed l .fill g ∧ c.coordinated cfg = false ∧ .loaded g.key (some v) ∈ l

/-- What the dispatch of a command presupposes. -/
def MayDispatch (c : Call V) (l : List (Act V)) (s : State V) :
    Option MutationGuard → L2Op V → Prop
  | some g, .set key record _ => key = g.storageKey ∧ s.isCurrent cfg g = true ∧
      ∃ v, record.Holds cfg v ∧ MayWrite cfg c l g v
  | some g, .publishIfOwner key token record _ => key = g.storageKey ∧ s.isCurrent cfg g = true ∧
      Observed l .fill g ∧ Acquired l key token ∧
      ∃ v, record.Holds cfg v ∧ .loaded g.key (some v) ∈ l
  | some g, .delete key => key = g.storageKey ∧ s.mustDelete cfg g = true ∧
      ∃ generation, .invalidateKey g generation ∈ l
  | some g, .get key => key = g.storageKey ∧ ∃ o, Observed l o g ∧ (o = .fill → MayRead l g)
  | _, .acquireLock _ _ | _, .releaseLock _ _ | none, .has _ => True
  | _, _ => False

/-- A command that is on its way: dispatched, or found by a scan. -/
def Sendable (l : List (Act V)) (g : Option MutationGuard) (op : L2Op V) : Prop :=
  .dispatch g op ∈ l ∨ g = none ∧ ∃ key pattern keys, op = .delete key ∧
    .dispatchPattern pattern keys ∈ l ∧ matchesPattern key.text pattern = true

/-- Whether `hasNegative` finds an entry. -/
def State.negativeLive (s : State V) (key : CacheKey) : Bool :=
  !s.closed && s.versionedCacheSafe cfg && s.invalidationTrusted &&
    (s.negative.get key).any fun e => s.now < e.expiresAt

/-- What `getStale` finds. -/
def State.staleLive (s : State V) (key : CacheKey) : Option V :=
  if s.closed || !s.versionedCacheSafe cfg || !s.invalidationTrusted then none
  else ((s.stale.get key).filter fun e => s.now < e.expiresAt).bind fun e =>
    cfg.codec.decode e.encoded

/-- The cache may answer from its local tiers. -/
structure State.Answers (s : State V) : Prop where
  opened : s.closed = false
  trusted : s.invalidationTrusted = true
  safe : s.versionedCacheSafe cfg = true

/-- The call is a load of the key, shared with others or not. -/
def Leads (l : List (Act V)) (key : CacheKey) : Prop :=
  (∃ id opts, .trackInflight key id opts ∈ l) ∨ .bypassInflight key ∈ l

/-- The value has been published under the guard of the one key that the event names. -/
def Announces (l : List (Act V)) (keys : List JsString) (v : V) : Prop :=
  ∃ g, Observed l .fill g ∧ keys = [g.key.text] ∧ Published cfg l g.storageKey v

/-- After the acts `l`, call `c` may perform the act in state `s`. -/
def Rule (c : Call V) (l : List (Act V)) (s : State V) : Act V → Prop
  | .observeKey o g mutate => o.allows c ∧ g = s.guardFor cfg g.key mutate ∧
      (o ≠ .remote → s.closed = false) ∧ (o = .read → s.versionedCacheSafe cfg = true)
  | .invalidateKey g _ => g = s.guardFor cfg g.key true
  | .releaseKey g => ∃ l₁ a, Extends (l₁ ++ [a]) l ∧ a.delta (.revision g.cell) = 1
  | .refuse _ => s.versionedCacheSafe cfg = false
  | .readL1 g hit => Observed l .read g ∧ s.Answers cfg ∧ s.negativeLive cfg g.key = false ∧
      g.storageKey = s.toStorageKey cfg g.key ∧
      hit = (s.l1Entry g.storageKey).map L1Entry.buffer
  | .seekL1 key found => s.Answers cfg ∧ found = (s.l1Entry key).isSome
  | .skipL1 _ => s.invalidationTrusted = false ∨ cfg.hasL1 = false
  | .deleteL1 o g => Observed l o g ∧ s.isCurrent cfg g = true
  | .insertL1 o g v buffer _ => Observed l o g ∧ s.isCurrent cfg g = true ∧
      Justified cfg c l g v o ∧ Stands cfg v buffer
  | .discardObsoleteL1 o g =>
      o = .write → s.isCurrent cfg g = false ∧ 0 < balance l (.revision g.cell)
  | .rememberStale o g v encoded _ => Observed l o g ∧ s.isCurrent cfg g = true ∧
      (Justified cfg c l g v o ∨ o = .read ∧ FromL1 cfg l g v) ∧ Stands cfg v encoded
  | .staleHit key v => s.staleLive cfg key = some v
  | .setNegative g _ => Observed l .fill g ∧ s.isCurrent cfg g = true ∧ .loaded g.key none ∈ l
  | .negativeHit key => s.negativeLive cfg key = true
  | .removeInflight key =>
      (∃ e, s.inflight.get key = some e ∧ e.expiresAt ≤ s.now) ∨ ∃ raw, c = .event raw
  | .trackInflight key id opts => s.closed = false ∧
      (∀ e, s.inflight.get key = some e → e.expiresAt ≤ s.now) ∧
      id = s.nextInflight ∧ ∃ timing, c = .getOrSet key opts timing
  | .bypassInflight key => ∃ opts timing, c = .getOrSet key opts timing ∧
      (opts.inflight = false ∨ s.canTrackInflight key cfg.options = false)
  | .finishInflight key id outcome => ∃ l₁ opts u, l = l₁ ++ .trackInflight key id opts :: u ∧
      ∀ v, outcome = .ok (some v) → Loads cfg u key v
  | .follow key id => s.activeFollowers < cfg.options.maxWaiters ∧
      (s.inflight.get key).map InflightEntry.id = some id
  | .unfollow => ∃ l₁ key id outcome, l = l₁ ++ [.follow key id, .joined key id outcome]
  | .joined key id outcome => .follow key id ∈ l ∧ s.outcomes id = some outcome
  | .startLoader key => s.negativeLive cfg key = false ∧
      (∃ g, g.key = key ∧ Observed l .fill g) ∧
      ∃ l₁ u, l = l₁ ++ u ∧ Leads l₁ key ∧ Missed cfg u key
  | .loaded key _ => .startLoader key ∈ l
  | .restoreFlush revision => revision = s.invalidationRevision
  | .trust revision => .restoreFlush revision ∈ l ∧ s.mayTrust revision = true
  | .dispatch g op => MayDispatch cfg c l s g op
  | .dispatchPattern pattern keys => .deleteByPatternLocal pattern ∈ l ∧
      keys = (s.l2.keys.filter fun text => matchesPattern text pattern).map CacheKey.ofString
  | .skip o g => (s.isCurrent cfg g = false ∨ o = .remote ∧ s.invalidationTrusted = false) ∧
      (o = .write → 0 < balance l (.revision g.cell))
  | .skipDelete g => s.mustDelete cfg g = false
  | .execute g op reply => reply = s.l2Result op ∧ Sendable l g op
  | .returned g op reply => .execute g op reply ∈ l
  | .abandon ops => ∀ op ∈ ops, ∃ g, Sendable l g op
  | .publish event => s.closed = false ∧
    match event.body with
    | .set keys _ v _ _ => c.coordinated cfg = true → Announces cfg l keys v
    | _ => True
  | _ => True

/-! ### Programs that keep to it -/

theorem balance_append (l u : List (Act V)) (x : Resource) :
    balance (l ++ u) x = balance l x + balance u x := by
  simp [balance]

theorem balance_concat (l : List (Act V)) (a : Act V) (x : Resource) :
    balance (l ++ [a]) x = balance l x + a.delta x := by
  simp [balance]

theorem Extends.refl (l : List (Act V)) : Extends l l :=
  ⟨[], by simp, by simp [balance], by simp⟩

theorem Extends.trans {l l' l'' : List (Act V)} (h : Extends l l') (h' : Extends l' l'') :
    Extends l l'' := by
  obtain ⟨u, rfl, hu, hquiet⟩ := h
  obtain ⟨u', rfl, hu', hquiet'⟩ := h'
  refine ⟨u ++ u', by simp, fun x => ?_, fun a ha => ?_⟩
  · rw [balance_append, hu, hu', add_zero]
  · rcases List.mem_append.mp ha with ha | ha
    · exact hquiet a ha
    · exact hquiet' a ha

theorem Extends.subset {l l' : List (Act V)} (h : Extends l l') : l ⊆ l' := by
  obtain ⟨u, rfl, -⟩ := h
  exact List.subset_append_left l u

theorem Extends.balance_eq {l l' : List (Act V)} (h : Extends l l') (x : Resource) :
    balance l' x = balance l x := by
  obtain ⟨u, rfl, hu, -⟩ := h
  rw [balance_append, hu, add_zero]

/-- An act that takes and gives back nothing, and has nothing to do with loads in flight
of others. -/
def Act.Quiet (a : Act V) : Prop := (∀ x, a.delta x = 0) ∧ a.follows = false

theorem Act.Quiet.of_eq {a : Act V} (h : (a.delta, a.follows) = (fun _ => 0, false)) : a.Quiet :=
  ⟨congrFun (congrArg Prod.fst h), congrArg Prod.snd h⟩

theorem Extends.concat {l l' : List (Act V)} (h : Extends l l') {a : Act V}
    (ha : a.Quiet) : Extends l (l' ++ [a]) :=
  h.trans ⟨[a], rfl, by simpa [HybridCache.balance] using ha.1, by simpa using ha.2⟩

/-- A guard is taken, used in balance and given back. -/
theorem Extends.bracket {l l' : List (Act V)} {a : Act V} {g : MutationGuard}
    (h : Extends (l ++ [a]) l')
    (ha : ∀ x, a.delta x = if .revision g.cell = x then 1 else 0) (hquiet : a.follows = false) :
    Extends l (l' ++ [.releaseKey g]) := by
  obtain ⟨u, rfl, hu, hu'⟩ := h
  refine ⟨[a] ++ u ++ [.releaseKey g], by simp, fun x => ?_, ?_⟩
  · have hsum : balance ([a] ++ u ++ [.releaseKey g]) x =
        a.delta x + Act.delta x (Act.releaseKey (V := V) g) := by
      rw [balance_append, balance_append, hu]
      simp [HybridCache.balance]
    rw [hsum, ha]
    change (if _ then _ else _) + (if _ then _ else _) = _
    split <;> rfl
  · intro b hb
    simp only [List.cons_append, List.nil_append, List.mem_cons, List.mem_append,
      List.not_mem_nil, or_false] at hb
    rcases hb with rfl | hb | rfl
    · exact hquiet
    · exact hu' b hb
    · rfl

theorem Since.of_extends {P : List (Act V) → Prop} (hP : Grows P) {l l' l'' : List (Act V)}
    (hext : Extends l l') (h : Since P l' l'') : Since P l l'' := by
  obtain ⟨u, rfl, -⟩ := hext
  obtain ⟨u', rfl, hu'⟩ := h
  exact ⟨u ++ u', by simp, hP (List.subset_append_right u u') hu'⟩

theorem Since.mono {P : List (Act V) → Prop} (hP : Grows P) {l l' l'' : List (Act V)}
    (h : Since P l l') (hext : Extends l' l'') : Since P l l'' := by
  obtain ⟨u, rfl, hu⟩ := h
  obtain ⟨u', rfl, -⟩ := hext
  exact ⟨u ++ u', by simp, hP (List.subset_append_left u u') hu⟩

theorem Since.imp {P P' : List (Act V) → Prop} (himp : ∀ u, P u → P' u) {l l' : List (Act V)}
    (h : Since P l l') : Since P' l l' := by
  obtain ⟨u, hu, hPu⟩ := h
  exact ⟨u, hu, himp u hPu⟩

/-- What holds of the new acts holds of all of them. -/
theorem Since.all {P : List (Act V) → Prop} (hP : Grows P) {l l' : List (Act V)}
    (h : Since P l l') : P l' := by
  obtain ⟨u, rfl, hu⟩ := h
  exact hP (List.subset_append_right l u) hu

theorem Since.and {P P' : List (Act V) → Prop} {l l' : List (Act V)} (h : Since P l l')
    (h' : Since P' l l') : Since (fun u => P u ∧ P' u) l l' := by
  obtain ⟨u, hu, hP⟩ := h
  obtain ⟨u', hu', hP'⟩ := h'
  obtain rfl : u = u' := List.append_cancel_left (hu.symm.trans hu')
  exact ⟨u, hu, hP, hP'⟩

/-- The last act. -/
theorem since_concat {P : List (Act V) → Prop} {l : List (Act V)} {a : Act V} (h : P [a]) :
    Since P l (l ++ [a]) := ⟨[a], rfl, h⟩

theorem grows_mem (a : Act V) : Grows (a ∈ ·) := fun _ _ hsub h => hsub h

theorem Observed.mono {l l' : List (Act V)} {o : Origin} {g : MutationGuard}
    (h : Observed l o g) (hsub : l ⊆ l') : Observed l' o g := by
  obtain ⟨mutate, hmem⟩ := h
  exact ⟨mutate, hsub hmem⟩

theorem Leads.mono {l l' : List (Act V)} {key : CacheKey} (h : Leads l key) (hsub : l ⊆ l') :
    Leads l' key :=
  h.imp (fun ⟨id, opts, hmem⟩ => ⟨id, opts, hsub hmem⟩) fun hmem => hsub hmem

variable {α β : Type} {w : World (State V) (Act V) (Env V) Query} {c : Call V} {l : List (Act V)}

/-- What the programs rely on: acts do what they say, and a load that others wait for
has ended when they go on. -/
class Faithful (cfg : Config V) (w : World (State V) (Act V) (Env V) Query) : Prop where
  apply_eq : ∀ s a, w.apply s a = a.apply cfg s
  ready_join : ∀ id s, w.ready (.join id) s = true → (s.outcomes id).isSome = true

theorem apply_of_faithful (cfg : Config V) [h : Faithful cfg w] (s : State V) (a : Act V) :
    w.apply s a = a.apply cfg s := h.apply_eq s a

theorem outcome_of_ready (cfg : Config V) [h : Faithful cfg w] {id : ℕ} {s : State V}
    (hready : w.ready (.join id) s = true) : (s.outcomes id).isSome = true :=
  h.ready_join id s hready

/-- From the acts `l` on, the program keeps to the discipline in every state and
ends in `Q`. -/
def Meets (w : World (State V) (Act V) (Env V) Query) (c : Call V) (l : List (Act V)) (p : P V α)
    (Q : Except Err α → List (Act V) → Prop) : Prop :=
  ∀ s, wp w (Rule cfg c) p (fun r l' _ => Extends l l' ∧ Q r l') l s

variable {cfg} {p : P V α} {Q : Except Err α → List (Act V) → Prop}

theorem Meets.mono {Q' : Except Err α → List (Act V) → Prop} (h : Meets cfg w c l p Q)
    (himp : ∀ r l', Extends l l' → Q r l' → Q' r l') : Meets cfg w c l p Q' := by
  intro s
  refine wp_mono ?_ (h s)
  rintro r l' - ⟨hext, hQ⟩
  exact ⟨hext, himp r l' hext hQ⟩

theorem meets_pure {a : α} (h : Q (.ok a) l) : Meets cfg w c l (pure a : P V α) Q :=
  fun _ => ⟨.refl l, h⟩

theorem meets_throw {e : Err} (h : Q (.error e) l) : Meets cfg w c l (.throw e : P V α) Q :=
  fun _ => ⟨.refl l, h⟩

/-- A program that has come from `l` to `l'` in balance may go on from there. -/
theorem Meets.at {l' : List (Act V)} (h : Meets cfg w c l' p Q) (hext : Extends l l')
    (s : State V) : wp w (Rule cfg c) p (fun r l' _ => Extends l l' ∧ Q r l') l' s := by
  refine wp_mono ?_ (h s)
  rintro r l'' - ⟨hext', hQ⟩
  exact ⟨hext.trans hext', hQ⟩

theorem Meets.bind {f : α → P V β} {Q' : Except Err β → List (Act V) → Prop}
    (hp : Meets cfg w c l p Q)
    (hok : ∀ a l', Extends l l' → Q (.ok a) l' → Meets cfg w c l' (f a) Q')
    (herr : ∀ e l', Extends l l' → Q (.error e) l' → Q' (.error e) l') :
    Meets cfg w c l (p >>= f) Q' := by
  intro s
  refine wp_bind (hp s) ?_ ?_
  · rintro a l' s' ⟨hext, hQ⟩
    exact (hok a l' hext hQ).at hext s'
  · rintro e l' s' ⟨hext, hQ⟩
    exact ⟨hext, herr e l' hext hQ⟩

/-- An awaited program that starts in a known state. -/
theorem wp_later {s : State V}
    (hp : wp w (Rule cfg c) p (fun r l' _ => Extends l l' ∧ Q r l') l s) :
    wp w (Rule cfg c) (later p) (fun r l' _ => Extends l l' ∧ Q r l') l s := by
  rw [later, wp_andThen]
  refine wp_mono ?_ hp
  rintro r l' s' hend
  rw [wp_andThen]
  intro _ s'' _
  exact wp_ofExcept.mpr hend

theorem Meets.later (hp : Meets cfg w c l p Q) : Meets cfg w c l (later p) Q :=
  fun s => wp_later (hp s)

theorem Meets.catching {f : Err → P V α} {Q' : Except Err α → List (Act V) → Prop}
    (hp : Meets cfg w c l p Q) (hok : ∀ a l', Extends l l' → Q (.ok a) l' → Q' (.ok a) l')
    (herr : ∀ e l', Extends l l' → Q (.error e) l' → Meets cfg w c l' (f e) Q') :
    Meets cfg w c l (p.catching f) Q' := by
  intro s
  refine wp_catching (hp s) ?_ ?_
  · rintro a l' s' ⟨hext, hQ⟩
    exact ⟨hext, hok a l' hext hQ⟩
  · rintro e l' s' ⟨hext, hQ⟩
    exact (herr e l' hext hQ).at hext s'

/-- `finally` with a cleanup that cannot fail. -/
theorem Meets.finally' {f : P V Unit} {Q' : Except Err α → List (Act V) → Prop}
    (hp : Meets cfg w c l p Q)
    (hf : ∀ r l', Extends l l' → Q r l' →
      Meets cfg w c l' f (fun u l'' => u = .ok () ∧ Q' r l'')) :
    Meets cfg w c l (p.finally' f) Q' := by
  intro s
  refine wp_finally (hp s) ?_
  rintro r l' s' ⟨hext, hQ⟩
  refine wp_mono ?_ ((hf r l' hext hQ).at hext s')
  rintro u l'' - ⟨hext', hu, hQ'⟩
  exact ⟨hu, hext', hQ'⟩

theorem meets_read {f : State V → P V α}
    (h : ∀ s, wp w (Rule cfg c) (f s) (fun r l' _ => Extends l l' ∧ Q r l') l s) :
    Meets cfg w c l (getState >>= f) Q := h

theorem meets_ask_bind {q : Query} {f : Resp V q → P V α} (h : ∀ r, Meets cfg w c l (f r) Q) :
    Meets cfg w c l (ask q >>= f) Q :=
  fun _ r s _ => h r s

theorem meets_hop {Q : Except Err Unit → List (Act V) → Prop} (h : Q (.ok ()) l) :
    Meets cfg w c l hop Q :=
  fun _ _ _ _ => ⟨.refl l, h⟩

/-- A quiet act, in a state where it is allowed. -/
theorem wp_perform_then {a : Act V} {f : Unit → P V α} {l₀ : List (Act V)} {s : State V}
    (hquiet : a.Quiet) (hrule : Rule cfg c l s a) (hext : Extends l₀ l)
    (hf : Meets cfg w c (l ++ [a]) (f ()) Q) :
    wp w (Rule cfg c) (perform a >>= f) (fun r l' _ => Extends l₀ l' ∧ Q r l') l s :=
  ⟨hrule, hf.at (hext.concat hquiet) _⟩

theorem meets_perform {a : Act V} {Q : Except Err Unit → List (Act V) → Prop}
    (hquiet : a.Quiet) (hrule : ∀ s, Rule cfg c l s a) (hQ : Q (.ok ()) (l ++ [a])) :
    Meets cfg w c l (perform a) Q :=
  fun s => ⟨hrule s, (Extends.refl l).concat hquiet, hQ⟩

theorem meets_perform_bind {a : Act V} {f : Unit → P V α} (hquiet : a.Quiet)
    (hrule : ∀ s, Rule cfg c l s a) (hf : Meets cfg w c (l ++ [a]) (f ()) Q) :
    Meets cfg w c l (perform a >>= f) Q :=
  fun s => wp_perform_then hquiet (hrule s) (.refl l) hf

theorem Meets.map {f : α → β} (hp : Meets cfg w c l p Q) {Q' : Except Err β → List (Act V) → Prop}
    (himp : ∀ r l', Extends l l' → Q r l' → Q' (r.map f) l') : Meets cfg w c l (f <$> p) Q' := by
  refine Meets.bind (f := fun a => pure (f a)) hp ?_ ?_
  · intro a l' hext hQ
    exact meets_pure (himp _ l' hext hQ)
  · intro e l' hext hQ
    exact himp _ l' hext hQ

/-- The postcondition of a program that does not throw. -/
def Returns (Q : α → List (Act V) → Prop) (r : Except Err α) (l' : List (Act V)) : Prop :=
  ∃ a, r = .ok a ∧ Q a l'

theorem returns_ok {Q : α → List (Act V) → Prop} {a : α} {l' : List (Act V)} (h : Q a l') :
    Returns Q (.ok a) l' := ⟨a, rfl, h⟩

/-- Sequencing after a program that does not throw. -/
theorem wp_next {f : α → P V β} {Q : α → List (Act V) → Prop}
    {Q' : Except Err β → List (Act V) → Prop} {l₀ : List (Act V)} {s : State V}
    (hp : wp w (Rule cfg c) p (fun r l' _ => Extends l l' ∧ Returns Q r l') l s)
    (hext : Extends l₀ l)
    (hok : ∀ a l', Extends l l' → Q a l' → Meets cfg w c l' (f a) Q') :
    wp w (Rule cfg c) (p >>= f) (fun r l' _ => Extends l₀ l' ∧ Q' r l') l s := by
  refine wp_bind hp ?_ ?_
  · rintro a l' s' ⟨hext', b, hb, hQ⟩
    cases hb
    exact (hok a l' hext' hQ).at (hext.trans hext') s'
  · rintro e l' s' ⟨-, b, hb, -⟩
    cases hb

theorem Meets.next {f : α → P V β} {Q : α → List (Act V) → Prop}
    {Q' : Except Err β → List (Act V) → Prop} (hp : Meets cfg w c l p (Returns Q))
    (hok : ∀ a l', Extends l l' → Q a l' → Meets cfg w c l' (f a) Q') :
    Meets cfg w c l (p >>= f) Q' :=
  fun s => wp_next (hp s) (.refl l) hok

/-- A reference that was taken by `a` may be given back. -/
theorem rule_releaseKey {l' : List (Act V)} {a : Act V} {g : MutationGuard}
    (hext : Extends (l ++ [a]) l')
    (ha : ∀ x, a.delta x = if .revision g.cell = x then 1 else 0) (hquiet : a.follows = false)
    (s : State V) :
    Rule cfg c l' s (.releaseKey g) ∧ Extends l (l' ++ [Act.releaseKey g]) :=
  ⟨⟨l, a, hext, by rw [ha, if_pos rfl]⟩, hext.bracket ha hquiet⟩

/-- A guard is taken, used, and given back whatever happens. -/
theorem wp_guarded {a : Act V} {g : MutationGuard} {Q Q' : Except Err α → List (Act V) → Prop}
    {l₀ : List (Act V)} {s : State V} (hrule : Rule cfg c l s a)
    (ha : ∀ x, a.delta x = if .revision g.cell = x then 1 else 0) (hquiet : a.follows = false)
    (hext : Extends l₀ l)
    (hp : wp w (Rule cfg c) p (fun r l' _ => Extends (l ++ [a]) l' ∧ Q r l') (l ++ [a])
      (w.apply s a))
    (hQ : ∀ r l', Extends (l ++ [a]) l' → Q r l' → Q' r (l' ++ [.releaseKey g])) :
    wp w (Rule cfg c) (perform a >>= fun _ => p.finally' (perform (.releaseKey g)))
      (fun r l' _ => Extends l₀ l' ∧ Q' r l') l s := by
  refine ⟨hrule, wp_finally hp ?_⟩
  rintro r l' s' ⟨hext', hr⟩
  obtain ⟨hrel, hback⟩ : Rule cfg c l' s' (.releaseKey g) ∧ Extends l (l' ++ [Act.releaseKey g]) :=
    rule_releaseKey hext' ha hquiet s'
  exact ⟨hrel, rfl, hext.trans hback, hQ r l' hext' hr⟩

/-! ### The shared tier -/

/-- An operation on the shared tier failed, or was refused. -/
def Marked (l : List (Act V)) : Prop := .l2Skipped ∈ l ∨ ∃ failure, .l2Error failure ∈ l

theorem Marked.mono {l' : List (Act V)} (h : Marked l) (hsub : l ⊆ l') : Marked l' :=
  h.imp (fun h => hsub h) fun ⟨failure, h⟩ => ⟨failure, hsub h⟩

theorem wp_command {g : Option MutationGuard} {op : L2Op V} {s : State V}
    (hdisp : MayDispatch cfg c l s g op) :
    wp w (Rule cfg c) (command g op) (fun r l' _ => Extends l l' ∧
      Returns (fun r l' => ∀ reply, r = .ok reply → Since (.returned g op reply ∈ ·) l l') r l')
      l s := by
  refine ⟨hdisp, ?_⟩
  have hext : Extends l (l ++ [Act.dispatch g op]) := (Extends.refl l).concat (.of_eq rfl)
  have hsend : Sendable (l ++ [Act.dispatch g op]) g op := .inl (by simp)
  intro sent s' _
  cases sent with
  | executed =>
    refine wp_perform_then (.of_eq rfl) ⟨rfl, hsend⟩ hext
      (meets_ask_bind fun delivered => ?_)
    split
    · refine meets_perform_bind (.of_eq rfl) (fun _ => ?_) (meets_pure (returns_ok ?_))
      · exact List.mem_concat_self ..
      · intro reply hreply
        cases hreply
        refine ⟨[.dispatch g op, .execute g op (s'.l2Result op), .returned g op (s'.l2Result op)],
          by simp, by simp⟩
    · exact meets_pure (returns_ok nofun)
  | failed => exact ⟨hext, returns_ok nofun⟩
  | timedOut =>
    refine wp_perform_then (.of_eq rfl) ?_ hext (meets_pure (returns_ok nofun))
    intro op' hop'
    rw [List.mem_singleton.mp hop']
    exact ⟨g, hsend⟩

theorem meets_command {g : Option MutationGuard} {op : L2Op V}
    (hdisp : ∀ s, MayDispatch cfg c l s g op) :
    Meets cfg w c l (command g op)
      (Returns fun r l' => ∀ reply, r = .ok reply → Since (.returned g op reply ∈ ·) l l') :=
  fun s => wp_command (hdisp s)

/-- The outcome of `runL2` in terms of what its closure ensures. -/
def Outcome (cfg : Config V) (Q : α → List (Act V) → Prop) (r : Option α) (l' : List (Act V)) :
    Prop :=
  match r with
  | some a => Q a l'
  | none => cfg.l2.isSome = true → Marked l'

theorem meets_settle {bytes : ℕ} {r : Except L2Failure α} {Q : α → List (Act V) → Prop}
    (hQ : ∀ a, r = .ok a → ∀ l', Extends l l' → Q a l') :
    Meets cfg w c l (settle bytes r) (Returns (Outcome cfg Q)) := by
  have hmark : ∀ (l : List (Act V)) failure, Marked (l ++ [Act.l2Error failure]) :=
    fun l failure => .inr ⟨failure, List.mem_concat_self ..⟩
  cases r with
  | ok a =>
    refine meets_perform_bind (.of_eq rfl) (fun _ => trivial) (meets_pure (returns_ok ?_))
    exact hQ a rfl _ ((Extends.refl l).concat (.of_eq rfl))
  | error failure =>
    cases failure
    case timedOut =>
      refine meets_perform_bind (.of_eq rfl) (fun _ => trivial) (meets_pure (returns_ok ?_))
      exact fun _ => hmark l _
    all_goals
      refine meets_perform_bind (.of_eq rfl) (fun _ => trivial)
        (meets_perform_bind (.of_eq rfl) (fun _ => trivial) (meets_pure (returns_ok ?_)))
      exact fun _ => hmark _ _

theorem meets_runL2 {text : JsString} {payloadBytes : ℕ} {call : P V (Except L2Failure α)}
    {Q : α → List (Act V) → Prop}
    (hcall : ∀ l', Extends l l' →
      Meets cfg w c l' call (Returns fun r l'' => ∀ a, r = .ok a → Q a l''))
    (hmono : ∀ a l' l'', Extends l' l'' → Q a l' → Q a l'') :
    Meets cfg w c l (runL2 cfg text payloadBytes call) (Returns (Outcome cfg Q)) := by
  refine meets_read fun s => ?_
  dsimp only
  split
  · rename_i hnone
    refine meets_pure (returns_ok fun hsome => ?_) s
    rw [Option.isNone_iff_eq_none.mp hnone] at hsome
    cases hsome
  split
  · exact wp_perform_then (.of_eq rfl) trivial (.refl l)
      (meets_pure (returns_ok fun _ => .inl (List.mem_concat_self ..)))
  split
  · exact wp_perform_then (.of_eq rfl) trivial (.refl l)
      (meets_pure (returns_ok fun _ => .inr ⟨_, List.mem_concat_self ..⟩))
  refine wp_perform_then (.of_eq rfl) trivial (.refl l) ?_
  split
  · exact meets_settle nofun
  refine meets_ask_bind fun admitted => ?_
  split
  · refine (hcall _ ((Extends.refl l).concat (.of_eq rfl))).next fun r l' _ hr => ?_
    refine meets_settle fun a ha l'' hext => ?_
    exact hmono a l' l'' hext (hr a ha)
  · exact meets_settle nofun

/-- The reply of a single command behind `runL2`. -/
theorem meets_runL2_command {text : JsString} {g : Option MutationGuard} {op : L2Op V}
    (hdisp : ∀ l', Extends l l' → ∀ s, MayDispatch cfg c l' s g op) :
    Meets cfg w c l (runL2 cfg text 0 (command g op))
      (Returns (Outcome cfg fun reply l' => Since (.returned g op reply ∈ ·) l l')) := by
  refine meets_runL2 (fun l' hext => ?_) fun _ _ _ hext h => h.mono (grows_mem _) hext
  refine (meets_command (hdisp l' hext)).mono ?_
  rintro r l'' - ⟨a, rfl, ha⟩
  exact returns_ok fun reply hreply => (ha reply hreply).of_extends (grows_mem _) hext

theorem FromL2.grows (g : MutationGuard) (v : V) : Grows fun u => FromL2 cfg u g v := by
  rintro u u' hsub ⟨record, life, hit, hmem, hhit⟩
  exact ⟨record, life, hit, hsub hmem, hhit⟩

theorem MayRead.mono {l' : List (Act V)} {g : MutationGuard} (h : MayRead l g) (hsub : l ⊆ l') :
    MayRead l' g := by
  obtain ⟨op, reply, hwrites, hmem⟩ := h
  exact ⟨op, reply, hwrites, hsub hmem⟩

/-- The bytes that come with a hit decode to its value. -/
def L2Hit.Sound (cfg : Config V) (hit : L2Hit V) : Prop :=
  ∀ buffer life, hit.reusable = some (buffer, life) → cfg.codec.decode buffer = some hit.value

theorem sound_of_decodeRecord {record : Record V} {life : Option ℕ} {hit : L2Hit V}
    (h : decodeRecord cfg record life = some hit) : hit.Sound cfg := by
  cases record with
  | encoded buffer =>
    obtain ⟨v, hdec, rfl⟩ := Option.map_eq_some_iff.mp h
    intro buffer' life' hreusable
    cases hreusable
    exact hdec
  | plain v =>
    cases h
    exact nofun

theorem meets_readL2 {g : MutationGuard} {o : Origin} (hobs : Observed l o g)
    (hmay : o = .fill → MayRead l g) :
    Meets cfg w c l (readL2 cfg g)
      (Returns fun r l' => ∀ hit, r = some hit →
        Since (fun u => FromL2 cfg u g hit.value) l l' ∧ hit.Sound cfg) := by
  have hdisp : ∀ l', Extends l l' → ∀ s, MayDispatch cfg c l' s (some g) (.get g.storageKey) :=
    fun l' hext s => ⟨rfl, o, hobs.mono hext.subset, fun ho => (hmay ho).mono hext.subset⟩
  refine (meets_runL2_command hdisp).next fun reply l' hext hreply => ?_
  split
  · rename_i record life
    refine meets_pure (returns_ok fun hit hhit => ?_)
    refine ⟨?_, sound_of_decodeRecord hhit⟩
    exact Since.imp (fun u hu => ⟨record, life, hit, hu, hhit, rfl⟩) hreply
  · exact meets_pure (returns_ok nofun)

end HybridCache
