/-
What an act leaves alone.

The tiers of the cache are filled by three acts and emptied by many; the state
that decides whether a guard is current (`Core`) is changed by a dozen.  Here each
act is measured once, so that an invariant has to look only at the acts that
matter to it.

* `Local` — nothing but bookkeeping and, perhaps, fewer local entries;
* `drops_apply` — an act that installs nothing and is not a command only drops
  entries;
* `core_apply` — an act that governs nothing keeps the core;
* `stale_rememberStale`, `negative_setNegative` — what the others install.
-/
import LazyLayers.HybridMethods

open Js Pattern MemoryStore

namespace HybridCache

variable {V : Type} {cfg : Config V}

/-- The revision objects and the map that points to them. -/
structure Revisions where
  cells : ℕ → KeyRevision
  nextCell : ℕ
  keyRevisions : JsMap CacheKey ℕ

/-- What decides whether guards are current and entries trusted. -/
structure Core where
  closed : Bool
  invalidationTrusted : Bool
  generationTrackingSaturated : Bool
  mutationEpoch : ℕ
  invalidationRevision : ℕ
  lastBusStatus : Option EventBusStatus
  revisions : Revisions

def State.revisions (s : State V) : Revisions := ⟨s.cells, s.nextCell, s.keyRevisions⟩

def State.core (s : State V) : Core where
  closed := s.closed
  invalidationTrusted := s.invalidationTrusted
  generationTrackingSaturated := s.generationTrackingSaturated
  mutationEpoch := s.mutationEpoch
  invalidationRevision := s.invalidationRevision
  lastBusStatus := s.lastBusStatus
  revisions := s.revisions

/-- What is counted and queued: the generations, the loads in flight and how they ended,
those who wait for them, and the commands that were left behind. -/
structure Books (V : Type) where
  generations : JsMap JsString ℕ
  nextInflight : ℕ
  outcomes : ℕ → Option (Except Err (Option V))
  activeFollowers : ℕ
  abandoned : List (L2Op V)

def State.books (s : State V) : Books V :=
  ⟨s.generations, s.nextInflight, s.outcomes, s.activeFollowers, s.abandoned⟩

/-- `s'` has the entries of `s`, or fewer, and the same shared tier, and is no earlier. -/
structure Drops (s s' : State V) : Prop where
  now : s.now ≤ s'.now
  l1 : s'.mem.Within s.mem
  stale : s'.stale.Sub s.stale
  negative : s'.negative.Sub s.negative
  inflight : s'.inflight.Sub s.inflight
  l2 : s'.l2 = s.l2

structure Local (s s' : State V) : Prop extends Drops s s' where
  core : s'.core = s.core
  books : s'.books = s.books

theorem Drops.refl (s : State V) : Drops s s := ⟨le_rfl, .refl _, .refl _, .refl _, .refl _, rfl⟩

theorem Drops.trans {s s' s'' : State V} (h : Drops s s') (h' : Drops s' s'') : Drops s s'' :=
  ⟨h.now.trans h'.now, h'.l1.trans h.l1, h'.stale.trans h.stale, h'.negative.trans h.negative,
    h'.inflight.trans h.inflight, h'.l2.trans h.l2⟩

theorem Local.refl (s : State V) : Local s s := ⟨.refl s, rfl, rfl⟩

theorem Local.trans {s s' s'' : State V} (h : Local s s') (h' : Local s' s'') : Local s s'' :=
  ⟨h.toDrops.trans h'.toDrops, h'.core.trans h.core, h'.books.trans h.books⟩

/-! ### The helpers -/

section Helpers

variable (s : State V)

theorem local_removeStale (key : CacheKey) : Local s (s.removeStale key) := by
  rw [State.removeStale]
  split
  · exact .refl s
  · exact ⟨⟨le_rfl, .refl _, JsMap.delete_sub _ _, .refl _, .refl _, rfl⟩, rfl, rfl⟩

theorem local_clearStale : Local s s.clearStale :=
  ⟨⟨le_rfl, .refl _, JsMap.nil_sub _, .refl _, .refl _, rfl⟩, rfl, rfl⟩

theorem local_evictOneStale : Local s s.evictOneStale := by
  rw [State.evictOneStale]
  split
  · exact local_removeStale ..
  · exact .refl s

theorem local_trimStale (maxEntries maxBytes : ℕ) :
    ∀ (n : ℕ) (s : State V), Local s (State.trimStale maxEntries maxBytes n s)
  | 0, s => .refl s
  | n + 1, s => by
    rw [State.trimStale]
    split
    · exact (local_evictOneStale s).trans (local_trimStale maxEntries maxBytes n _)
    · exact .refl s

theorem local_removeNegative (key : CacheKey) : Local s (s.removeNegative key) := by
  rw [State.removeNegative]
  split
  · exact .refl s
  · exact ⟨⟨le_rfl, .refl _, .refl _, JsMap.delete_sub _ _, .refl _, rfl⟩, rfl, rfl⟩

theorem local_clearNegative : Local s s.clearNegative :=
  ⟨⟨le_rfl, .refl _, .refl _, JsMap.nil_sub _, .refl _, rfl⟩, rfl, rfl⟩

theorem local_dropOldestNegative : Local s s.dropOldestNegative := by
  rw [State.dropOldestNegative]
  split
  · exact local_removeNegative ..
  · exact .refl s

theorem local_trimNegative (full : State V → Bool) :
    ∀ (n : ℕ) (s : State V), Local s (State.trimNegative full n s)
  | 0, s => .refl s
  | n + 1, s => by
    rw [State.trimNegative]
    split
    · exact (local_dropOldestNegative s).trans (local_trimNegative full n _)
    · exact .refl s

theorem local_removeInflight (key : CacheKey) : Local s (s.removeInflight key) := by
  rw [State.removeInflight]
  split
  · exact .refl s
  · exact ⟨⟨le_rfl, .refl _, .refl _, .refl _, JsMap.delete_sub _ _, rfl⟩, rfl, rfl⟩

theorem drops_finishInflight (key : CacheKey) (id : ℕ) (outcome : Except Err (Option V)) :
    Drops s (s.finishInflight key id outcome) := by
  rw [State.finishInflight]
  split
  · exact (local_removeInflight s key).toDrops.trans ⟨le_rfl, .refl _, .refl _, .refl _, .refl _, rfl⟩
  · exact ⟨le_rfl, .refl _, .refl _, .refl _, .refl _, rfl⟩

theorem core_finishInflight (key : CacheKey) (id : ℕ) (outcome : Except Err (Option V)) :
    (s.finishInflight key id outcome).core = s.core := by
  rw [State.finishInflight]
  split
  · exact (local_removeInflight s key).core
  · rfl

theorem local_foldl {α : Type} {f : State V → α → State V} (hf : ∀ s a, Local s (f s a)) :
    ∀ (as : List α) (s : State V), Local s (as.foldl f s)
  | [], s => .refl s
  | a :: as, s => (hf s a).trans (local_foldl hf as (f s a))

theorem local_removeSeenEvent (id : JsString) : Local s (s.removeSeenEvent id) := by
  rw [State.removeSeenEvent]
  split
  · exact ⟨⟨le_rfl, .refl _, .refl _, .refl _, .refl _, rfl⟩, rfl, rfl⟩
  · exact .refl s

theorem local_trimSeen (maxEntries bytes : ℕ) :
    ∀ (n : ℕ) (s : State V), Local s (State.trimSeen maxEntries bytes n s).1
  | 0, s => .refl s
  | n + 1, s => by
    rw [State.trimSeen]
    split
    · split
      · exact (local_removeSeenEvent s _).trans (local_trimSeen maxEntries bytes n _)
      · exact .refl s
    · exact .refl s

theorem local_markEventSeen (id : JsString) : Local s (s.markEventSeen cfg id) := by
  rw [State.markEventSeen]
  dsimp only
  split
  · exact .refl s
  have htrim := (local_removeSeenEvent s id).trans (local_trimSeen cfg.dedupeMaxEntries
    (keyMetadataBytes id) (s.removeSeenEvent id).seenEvents.length (s.removeSeenEvent id))
  generalize State.trimSeen cfg.dedupeMaxEntries (keyMetadataBytes id)
    (s.removeSeenEvent id).seenEvents.length (s.removeSeenEvent id) = trimmed at htrim ⊢
  obtain ⟨s₁, room⟩ := trimmed
  dsimp only at htrim ⊢
  split
  · exact htrim
  · exact htrim.trans ⟨⟨le_rfl, .refl _, .refl _, .refl _, .refl _, rfl⟩, rfl, rfl⟩

theorem local_l1Delete (key : CacheKey) : Local s (s.l1Delete key) :=
  ⟨⟨le_rfl, Mem.remove_within _ _, .refl _, .refl _, .refl _, rfl⟩, rfl, rfl⟩

theorem local_l1Touch (key : CacheKey) : Local s (s.l1Touch key) :=
  ⟨⟨le_rfl, fun _ _ h => Mem.resident_touch h, .refl _, .refl _, .refl _, rfl⟩, rfl, rfl⟩

theorem local_l1Has (key : CacheKey) : Local s (s.l1Has key) :=
  ⟨⟨le_rfl, Mem.has_within _ _ _, .refl _, .refl _, .refl _, rfl⟩, rfl, rfl⟩

theorem local_l1DeleteByPattern (pattern : JsString) : Local s (s.l1DeleteByPattern pattern) :=
  ⟨⟨le_rfl, Mem.foldl_remove_within _ _, .refl _, .refl _, .refl _, rfl⟩, rfl, rfl⟩

theorem local_dropLocal : Local s s.dropLocal := by
  have hinflight : Local s s.clearInflight :=
    ⟨⟨le_rfl, .refl _, .refl _, .refl _, JsMap.nil_sub _, rfl⟩, rfl, rfl⟩
  exact ((hinflight.trans (local_clearNegative _)).trans (local_clearStale _)).trans
    (local_l1DeleteByPattern _ _)

/-- Only the core changed. -/
theorem drops_of_eq {s s' : State V} (hnow : s'.now = s.now) (hmem : s'.mem = s.mem)
    (hstale : s'.stale = s.stale) (hneg : s'.negative = s.negative)
    (hinflight : s'.inflight = s.inflight) (hl2 : s'.l2 = s.l2) : Drops s s' :=
  ⟨hnow.ge, hmem ▸ .refl _, hstale ▸ .refl _, hneg ▸ .refl _, hinflight ▸ .refl _, hl2⟩

theorem drops_dropLocal {s s' : State V} (h : Drops s s') : Drops s s'.dropLocal :=
  h.trans (local_dropLocal s').toDrops

theorem drops_saturateGenerationTracking : Drops s s.saturateGenerationTracking := by
  rw [State.saturateGenerationTracking]
  split
  · exact .refl s
  · exact drops_dropLocal (drops_of_eq rfl rfl rfl rfl rfl rfl)

theorem drops_storeGeneration (key : JsString) (generation : ℕ) :
    Drops s (s.storeGeneration key generation) := by
  rw [State.storeGeneration]
  dsimp only
  split
  · exact drops_saturateGenerationTracking s
  · split
    · exact drops_of_eq rfl rfl rfl rfl rfl rfl
    · exact ⟨le_rfl, .refl _, .refl _, .refl _, .refl _, rfl⟩

theorem drops_advanceGenerationAfterDelete (key : JsString) (generation : Option ℕ) :
    Drops s (s.advanceGenerationAfterDelete key generation) := by
  cases generation with
  | some generation => exact drops_storeGeneration s key _
  | none => exact drops_storeGeneration s key _

theorem drops_advanceGenerationAfterRemoteSet (key : JsString) (generation : Option ℕ) :
    Drops s (s.advanceGenerationAfterRemoteSet key generation) := by
  cases generation with
  | some generation => exact drops_storeGeneration s key _
  | none => exact .refl s

theorem drops_observeKey (key : CacheKey) (mutate : Bool) : Drops s (s.observeKey key mutate) := by
  rw [State.observeKey]
  dsimp only
  split
  · exact drops_of_eq rfl rfl rfl rfl rfl rfl
  · split
    · exact ⟨le_rfl, .refl _, .refl _, .refl _, .refl _, rfl⟩
    · exact drops_of_eq rfl rfl rfl rfl rfl rfl

theorem drops_releaseKey (g : MutationGuard) : Drops s (s.releaseKey g) := by
  rw [State.releaseKey]
  dsimp only
  split
  · exact ⟨le_rfl, .refl _, .refl _, .refl _, .refl _, rfl⟩
  · exact drops_of_eq rfl rfl rfl rfl rfl rfl

/-- The state of `invalidateKey` before the generation advances. -/
theorem local_forget (key : CacheKey) :
    Local s (((s.removeInflight key).removeNegative key).removeStale key) :=
  ((local_removeInflight s key).trans (local_removeNegative _ key)).trans (local_removeStale _ key)

theorem drops_invalidateKey (g : MutationGuard) (generation : Option ℕ) :
    Drops s (s.invalidateKey g generation) :=
  (((drops_observeKey s g.key true).trans (local_forget _ g.key).toDrops).trans
    (drops_advanceGenerationAfterDelete _ g.key.text generation)).trans
    (local_l1Delete _ g.storageKey).toDrops

theorem drops_deleteByPatternLocal (pattern : JsString) :
    Drops s (s.deleteByPatternLocal pattern) := by
  rw [State.deleteByPatternLocal]
  dsimp only
  refine Drops.trans ?_ (local_l1DeleteByPattern _ pattern).toDrops
  refine Drops.trans ?_ (local_foldl local_removeStale _ _).toDrops
  refine Drops.trans ?_ (local_foldl local_removeNegative _ _).toDrops
  refine Drops.trans ?_ (local_foldl local_removeInflight _ _).toDrops
  exact drops_of_eq rfl rfl rfl rfl rfl rfl

theorem drops_markInvalidationUntrusted : Drops s s.markInvalidationUntrusted := by
  rw [State.markInvalidationUntrusted]
  exact drops_dropLocal (drops_of_eq rfl rfl rfl rfl rfl rfl)

theorem drops_restoreFlush : Drops s s.restoreFlush := by
  rw [State.restoreFlush]
  exact drops_dropLocal (drops_of_eq rfl rfl rfl rfl rfl rfl)

theorem drops_close : Drops s (s.close cfg) := by
  rw [State.close]
  dsimp only
  split
  · exact ⟨le_rfl, nofun, JsMap.nil_sub _, JsMap.nil_sub _, JsMap.nil_sub _, rfl⟩
  · exact ⟨le_rfl, .refl _, JsMap.nil_sub _, JsMap.nil_sub _, JsMap.nil_sub _, rfl⟩

end Helpers

/-! ### The acts -/

/-- The acts that put entries into the local tiers or track a load. -/
def Act.installs : Act V → Bool
  | .insertL1 _ _ _ _ _ | .rememberStale _ _ _ _ _ | .setNegative _ _
  | .trackInflight _ _ _ => true
  | _ => false

/-- The acts that change the shared tier. -/
def Act.commands : Act V → Bool
  | .execute _ _ _ => true
  | _ => false

/-- The acts that change the core. -/
def Act.governs : Act V → Bool
  | .observeKey _ _ _ | .invalidateKey _ _ | .releaseKey _ | .advanceGeneration _ _ | .saturate
  | .deleteByPatternLocal _ | .busStatus _ | .markInvalidationUntrusted | .restoreFlush _
  | .trust _ | .close => true
  | _ => false

theorem drops_apply (s : State V) {a : Act V} (hinst : a.installs = false)
    (hcmd : a.commands = false) : Drops s (a.apply cfg s) := by
  cases a
  case observeKey o g mutate => exact drops_observeKey ..
  case invalidateKey g generation => exact drops_invalidateKey ..
  case releaseKey g => exact drops_releaseKey ..
  case readL1 g hit => exact (local_l1Touch ..).toDrops
  case hasL1 key => exact (local_l1Has ..).toDrops
  case seekL1 key found => exact (local_l1Has ..).toDrops
  case deleteL1 o g => exact (local_l1Delete ..).toDrops
  case removeStale key => exact (local_removeStale ..).toDrops
  case removeNegative key => exact (local_removeNegative ..).toDrops
  case removeInflight key => exact (local_removeInflight ..).toDrops
  case finishInflight key id outcome => exact drops_finishInflight ..
  case advanceGeneration key generation => exact drops_advanceGenerationAfterRemoteSet ..
  case saturate => exact drops_saturateGenerationTracking ..
  case deleteByPatternLocal pattern => exact drops_deleteByPatternLocal ..
  case busStatus status =>
    rw [Act.apply]
    split
    · refine Drops.trans ?_ (drops_markInvalidationUntrusted _)
      exact drops_of_eq rfl rfl rfl rfl rfl rfl
    · exact drops_of_eq rfl rfl rfl rfl rfl rfl
  case markInvalidationUntrusted => exact drops_markInvalidationUntrusted ..
  case restoreFlush revision => exact drops_restoreFlush ..
  case close => exact drops_close ..
  case markEventSeen id => exact (local_markEventSeen ..).toDrops
  case removeSeenEvent id => exact (local_removeSeenEvent ..).toDrops
  case insertL1 => cases hinst
  case rememberStale => cases hinst
  case setNegative => cases hinst
  case trackInflight => cases hinst
  case execute => cases hcmd
  case pause ms => exact ⟨Nat.le_add_right _ _, .refl _, .refl _, .refl _, .refl _, rfl⟩
  all_goals exact ⟨le_rfl, .refl _, .refl _, .refl _, .refl _, rfl⟩

/-- As `Local`, but with new stale entries in `S` and new absences in `N`. -/
structure Installs (s s' : State V) (S : CacheKey → StaleEntry → Prop) (N : CacheKey → Prop) :
    Prop where
  now : s.now ≤ s'.now
  core : s'.core = s.core
  books : s'.books = s.books
  l1 : s'.mem.Within s.mem
  inflight : s'.inflight.Sub s.inflight
  l2 : s'.l2 = s.l2
  stale : ∀ key e, s'.stale.get key = some e → s.stale.get key = some e ∨ S key e
  negative : ∀ key e, s'.negative.get key = some e → s.negative.get key = some e ∨ N key

theorem Local.installs {s s' : State V} {S : CacheKey → StaleEntry → Prop} {N : CacheKey → Prop}
    (h : Local s s') : Installs s s' S N :=
  ⟨h.now, h.core, h.books, h.l1, h.inflight, h.l2, fun key e he => .inl (h.stale key e he),
    fun key e he => .inl (h.negative key e he)⟩

theorem Installs.between {s s₁ s₂ s' : State V} {S : CacheKey → StaleEntry → Prop}
    {N : CacheKey → Prop} (h : Installs s₁ s₂ S N) (hpre : Local s s₁) (hpost : Local s₂ s') :
    Installs s s' S N where
  now := (hpre.now.trans h.now).trans hpost.now
  core := (hpost.core.trans h.core).trans hpre.core
  books := (hpost.books.trans h.books).trans hpre.books
  l1 := (hpost.l1.trans h.l1).trans hpre.l1
  inflight := (hpost.inflight.trans h.inflight).trans hpre.inflight
  l2 := (hpost.l2.trans h.l2).trans hpre.l2
  stale key e he := (h.stale key e (hpost.stale key e he)).imp (hpre.stale key e) id
  negative key e he := (h.negative key e (hpost.negative key e he)).imp (hpre.negative key e) id

theorem get_of_get_set {K W : Type} [DecidableEq K] {m : JsMap K W} {key key' : K} {e e' : W}
    (h : (m.set key e).get key' = some e') : m.get key' = some e' ∨ key' = key ∧ e' = e := by
  by_cases hk : key = key'
  · subst hk
    rw [JsMap.get_set_self, Option.some.injEq] at h
    exact .inr ⟨rfl, h.symm⟩
  · rw [JsMap.get_set_of_ne m e hk] at h
    exact .inl h

theorem installs_rememberStale (s : State V) (key : CacheKey) (encoded : Octets) (o : Options) :
    Installs s (s.rememberStale cfg key encoded o)
      (fun key' e => key' = key ∧ e.encoded = encoded) fun _ => False := by
  rw [State.rememberStale]
  split
  · exact (Local.refl s).installs
  dsimp only
  have hremove := local_removeStale s key
  generalize s.removeStale key = s₁ at hremove ⊢
  split
  · exact hremove.installs
  refine Installs.between ?_ hremove (local_trimStale ..)
  refine ⟨le_rfl, rfl, rfl, .refl _, .refl _, rfl, fun key' e he => ?_, fun _ _ he => .inl he⟩
  rcases get_of_get_set he with he | ⟨rfl, rfl⟩
  · exact .inl he
  · exact .inr ⟨rfl, rfl⟩

theorem installs_setNegative (s : State V) (key : CacheKey) (o : Options) :
    Installs s (s.setNegative cfg key o) (fun _ _ => False) fun key' => key' = key := by
  rw [State.setNegative]
  split
  · exact (Local.refl s).installs
  dsimp only
  have htrim := local_trimNegative (fun s => decide (s.negative.length ≥ o.negativeMaxEntries))
    s.negative.length s
  generalize State.trimNegative (fun s => decide (s.negative.length ≥ o.negativeMaxEntries))
    s.negative.length s = s₁ at htrim ⊢
  split
  · exact htrim.installs
  have hroom := (local_removeNegative s₁ key).trans (local_trimNegative
    (fun s => decide (s.negativeBytes + keyMetadataBytes key.text > maxAuxiliaryMapBytes))
    (s₁.removeNegative key).negative.length (s₁.removeNegative key))
  generalize State.trimNegative
    (fun s => decide (s.negativeBytes + keyMetadataBytes key.text > maxAuxiliaryMapBytes))
    (s₁.removeNegative key).negative.length (s₁.removeNegative key) = s₂ at hroom ⊢
  split
  · exact (htrim.trans hroom).installs
  refine Installs.between ?_ (htrim.trans hroom) (.refl _)
  refine ⟨le_rfl, rfl, rfl, .refl _, .refl _, rfl, fun _ _ he => .inl he, fun key' e he => ?_⟩
  rcases get_of_get_set he with he | ⟨rfl, -⟩
  · exact .inl he
  · exact .inr rfl

/-- A command changes nothing but the shared tier and its leases. -/
theorem l2Exec_eq (s : State V) (op : L2Op V) :
    ∃ l2 locks, s.l2Exec op = { s with l2 := l2, locks := locks } := by
  cases op
  case acquireLock key token =>
    rw [State.l2Exec]
    split
    · exact ⟨s.l2, s.locks, rfl⟩
    · exact ⟨s.l2, _, rfl⟩
  case releaseLock key token =>
    rw [State.l2Exec]
    split
    · exact ⟨s.l2, _, rfl⟩
    · exact ⟨s.l2, s.locks, rfl⟩
  case publishIfOwner key token record ttlMs =>
    rw [State.l2Exec]
    split
    · exact ⟨_, s.locks, rfl⟩
    · exact ⟨s.l2, s.locks, rfl⟩
  case get key => exact ⟨s.l2, s.locks, rfl⟩
  case has key => exact ⟨s.l2, s.locks, rfl⟩
  case set key record ttlMs => exact ⟨_, _, rfl⟩
  case delete key => exact ⟨_, _, rfl⟩

/-- A projection that does not look at the shared tier survives a command. -/
theorem proj_l2Exec {β : Type} (f : State V → β)
    (hf : ∀ (s : State V) l2 locks, f { s with l2 := l2, locks := locks } = f s) (s : State V)
    (op : L2Op V) : f (s.l2Exec op) = f s := by
  obtain ⟨l2, locks, h⟩ := l2Exec_eq s op
  rw [h]
  exact hf s l2 locks

theorem core_l2Exec (s : State V) (op : L2Op V) : (s.l2Exec op).core = s.core :=
  proj_l2Exec State.core (fun _ _ _ => rfl) s op

theorem inflight_l2Exec (s : State V) (op : L2Op V) : (s.l2Exec op).inflight = s.inflight :=
  proj_l2Exec State.inflight (fun _ _ _ => rfl) s op

theorem books_l2Exec (s : State V) (op : L2Op V) : (s.l2Exec op).books = s.books :=
  proj_l2Exec State.books (fun _ _ _ => rfl) s op

theorem core_apply (s : State V) {a : Act V} (h : a.governs = false) :
    (a.apply cfg s).core = s.core := by
  cases a
  case rememberStale o g v encoded opts => exact (installs_rememberStale ..).core
  case setNegative g opts => exact (installs_setNegative ..).core
  case removeStale key => exact (local_removeStale ..).core
  case removeNegative key => exact (local_removeNegative ..).core
  case removeInflight key => exact (local_removeInflight ..).core
  case finishInflight key id outcome => exact core_finishInflight ..
  case markEventSeen id => exact (local_markEventSeen ..).core
  case removeSeenEvent id => exact (local_removeSeenEvent ..).core
  case execute g op reply => exact core_l2Exec ..
  all_goals first | (cases h; done) | rfl

theorem l2_apply (s : State V) {a : Act V} (h : a.commands = false) :
    (a.apply cfg s).l2 = s.l2 := by
  rcases hinst : a.installs with _ | _
  · exact (drops_apply s hinst h).l2
  cases a
  case insertL1 => rfl
  case rememberStale o g v encoded opts => exact (installs_rememberStale ..).l2
  case setNegative g opts => exact (installs_setNegative ..).l2
  case trackInflight => rfl
  all_goals cases hinst

/-- The acts that change the books. -/
def Act.counts : Act V → Bool
  | .invalidateKey _ _ | .advanceGeneration _ _ | .close | .trackInflight _ _ _
  | .finishInflight _ _ _ | .follow _ _ | .unfollow | .abandon _ => true
  | _ => false

theorem books_observeKey (s : State V) (key : CacheKey) (mutate : Bool) :
    (s.observeKey key mutate).books = s.books := by
  rw [State.observeKey]
  dsimp only
  split
  · rfl
  · split <;> rfl

theorem books_saturateGenerationTracking (s : State V) :
    s.saturateGenerationTracking.books = s.books := by
  rw [State.saturateGenerationTracking]
  split
  · rfl
  · exact (local_dropLocal _).books

theorem books_deleteByPatternLocal (s : State V) (pattern : JsString) :
    (s.deleteByPatternLocal pattern).books = s.books := by
  rw [State.deleteByPatternLocal]
  dsimp only
  rw [(local_l1DeleteByPattern _ _).books, (local_foldl local_removeStale _ _).books,
    (local_foldl local_removeNegative _ _).books, (local_foldl local_removeInflight _ _).books]
  rfl

theorem books_apply (s : State V) {a : Act V} (h : a.counts = false) :
    (a.apply cfg s).books = s.books := by
  cases a
  case observeKey o g mutate => exact books_observeKey ..
  case releaseKey g =>
    rw [Act.apply, State.releaseKey]
    dsimp only
    split <;> rfl
  case rememberStale o g v encoded opts => exact (installs_rememberStale ..).books
  case setNegative g opts => exact (installs_setNegative ..).books
  case removeStale key => exact (local_removeStale ..).books
  case removeNegative key => exact (local_removeNegative ..).books
  case removeInflight key => exact (local_removeInflight ..).books
  case saturate => exact books_saturateGenerationTracking s
  case deleteByPatternLocal pattern => exact books_deleteByPatternLocal s pattern
  case busStatus status =>
    rw [Act.apply]
    split
    · exact (local_dropLocal _).books
    · rfl
  case markInvalidationUntrusted => exact (local_dropLocal _).books
  case restoreFlush revision => exact (local_dropLocal _).books
  case markEventSeen id => exact (local_markEventSeen ..).books
  case removeSeenEvent id => exact (local_removeSeenEvent ..).books
  case execute g op reply => exact books_l2Exec ..
  all_goals first | (cases h; done) | rfl

theorem saturated_saturateGenerationTracking (s : State V) :
    s.saturateGenerationTracking.generationTrackingSaturated = true := by
  have hdrop : ∀ s' : State V, s'.dropLocal.generationTrackingSaturated =
      s'.generationTrackingSaturated :=
    fun s' => congrArg Core.generationTrackingSaturated (local_dropLocal s').core
  rw [State.saturateGenerationTracking]
  split
  · rename_i hsat
    exact hsat
  · rw [hdrop]

/-- To store a generation changes that generation, or the generations are saturated. -/
theorem books_storeGeneration (s : State V) (key : JsString) (generation : ℕ) :
    (generation < 2 ^ 53 ∧ (s.storeGeneration key generation).books =
        { s.books with generations := s.generations.set key generation }) ∨
      (s.storeGeneration key generation).books = s.books ∧
        (s.storeGeneration key generation).generationTrackingSaturated = true := by
  rw [State.storeGeneration]
  dsimp only
  split
  next hrefused =>
    exact .inr ⟨books_saturateGenerationTracking s, saturated_saturateGenerationTracking s⟩
  next hstored =>
    refine .inl ⟨by omega, ?_⟩
    split <;> rfl

/-- The generation that a deletion asks for. -/
def State.nextGeneration (s : State V) (key : JsString) : Option ℕ → ℕ
  | some generation => max (s.getGeneration key) generation
  | none => s.getGeneration key + 1

theorem books_invalidateKey (s : State V) (g : MutationGuard) (generation : Option ℕ) :
    (s.nextGeneration g.key.text generation < 2 ^ 53 ∧
        (s.invalidateKey g generation).books = { s.books with
          generations := s.generations.set g.key.text (s.nextGeneration g.key.text generation) }) ∨
      (s.invalidateKey g generation).books = s.books ∧
        (s.invalidateKey g generation).generationTrackingSaturated = true := by
  rw [State.invalidateKey]
  dsimp only
  have hforget := (local_forget (s.observeKey g.key true) g.key).books
  rw [books_observeKey] at hforget
  generalize (((s.observeKey g.key true).removeInflight g.key).removeNegative g.key).removeStale
    g.key = s₁ at hforget ⊢
  have hgen : s₁.generations = s.generations := congrArg Books.generations hforget
  have hstore : s₁.advanceGenerationAfterDelete g.key.text generation =
      s₁.storeGeneration g.key.text (s.nextGeneration g.key.text generation) := by
    cases generation <;>
      simp only [State.advanceGenerationAfterDelete, State.nextGeneration, State.getGeneration, hgen]
  rw [hstore]
  have h := books_storeGeneration s₁ g.key.text (s.nextGeneration g.key.text generation)
  rw [hforget, hgen] at h
  exact h

theorem books_advanceGenerationAfterRemoteSet (s : State V) (key : JsString)
    (generation : Option ℕ) :
    (s.advanceGenerationAfterRemoteSet key generation).books = s.books ∨
      ∃ n, s.getGeneration key ≤ n ∧ n < 2 ^ 53 ∧
        (s.advanceGenerationAfterRemoteSet key generation).books =
          { s.books with generations := s.generations.set key n } := by
  cases generation with
  | none => exact .inl rfl
  | some n =>
    rcases books_storeGeneration s key (max (s.getGeneration key) n) with ⟨hlt, h⟩ | h
    · exact .inr ⟨_, le_max_left .., hlt, h⟩
    · exact .inl h.1

theorem books_close (s : State V) : (s.close cfg).books = { s.books with generations := [] } := by
  rw [State.close]
  dsimp only
  split <;> rfl

theorem books_finishInflight (s : State V) (key : CacheKey) (id : ℕ)
    (outcome : Except Err (Option V)) : (s.finishInflight key id outcome).books =
      { s.books with outcomes := Function.update s.outcomes id (some outcome) } := by
  rw [State.finishInflight]
  dsimp only
  split
  · have h := (local_removeInflight s key).books
    generalize s.removeInflight key = s₁ at h ⊢
    change ({ s₁.books with outcomes := Function.update s₁.books.outcomes id (some outcome) } :
      Books V) = _
    rw [h]
    rfl
  · rfl

/-- What the acts enter into the books, apart from generations. -/
theorem books_cases (s : State V) (a : Act V) :
    (∃ generations, (a.apply cfg s).books = { s.books with generations := generations }) ∨
    (∃ key id opts, a = .trackInflight key id opts ∧
      (a.apply cfg s).books = { s.books with nextInflight := s.nextInflight + 1 }) ∨
    (∃ key id outcome, a = .finishInflight key id outcome ∧ (a.apply cfg s).books =
      { s.books with outcomes := Function.update s.outcomes id (some outcome) }) ∨
    (∃ key id, a = .follow key id ∧
      (a.apply cfg s).books = { s.books with activeFollowers := s.activeFollowers + 1 }) ∨
    (a = .unfollow ∧
      (a.apply cfg s).books = { s.books with activeFollowers := s.activeFollowers - 1 }) ∨
    ∃ ops, a = .abandon ops ∧
      (a.apply cfg s).books = { s.books with abandoned := s.abandoned ++ ops } := by
  rcases hcount : a.counts with _ | _
  · exact .inl ⟨s.generations, books_apply s hcount⟩
  cases a
  case invalidateKey g generation =>
    rcases books_invalidateKey s g generation with ⟨-, h⟩ | ⟨h, -⟩
    · exact .inl ⟨_, h⟩
    · exact .inl ⟨s.generations, h⟩
  case advanceGeneration key generation =>
    rcases books_advanceGenerationAfterRemoteSet s key generation with h | ⟨n, -, -, h⟩
    · exact .inl ⟨s.generations, h⟩
    · exact .inl ⟨_, h⟩
  case close => exact .inl ⟨[], books_close s⟩
  case trackInflight key id opts => exact .inr (.inl ⟨key, id, opts, rfl, rfl⟩)
  case finishInflight key id outcome =>
    exact .inr (.inr (.inl ⟨key, id, outcome, rfl, books_finishInflight s key id outcome⟩))
  case follow key id => exact .inr (.inr (.inr (.inl ⟨key, id, rfl, rfl⟩)))
  case unfollow => exact .inr (.inr (.inr (.inr (.inl ⟨rfl, rfl⟩))))
  case abandon ops => exact .inr (.inr (.inr (.inr (.inr ⟨ops, rfl, rfl⟩))))
  all_goals cases hcount

/-! ### The environment -/

/-- Outside events take entries away, if anything, and never turn the clock back. -/
theorem env_apply (s : State V) (e : Env V) : s.now ≤ (e.apply s).now ∧
    (e.apply s).mem.Within s.mem ∧ (e.apply s).stale.Sub s.stale ∧
    (e.apply s).negative.Sub s.negative ∧ (e.apply s).inflight.Sub s.inflight := by
  have hexec : ∀ op, (s.l2Exec op).now = s.now ∧ (s.l2Exec op).mem = s.mem ∧
      (s.l2Exec op).stale = s.stale ∧ (s.l2Exec op).negative = s.negative ∧
      (s.l2Exec op).inflight = s.inflight := by
    intro op
    obtain ⟨l2, locks, h⟩ := l2Exec_eq s op
    rw [h]
    exact ⟨rfl, rfl, rfl, rfl, rfl⟩
  cases e
  case tick ms => exact ⟨Nat.le_add_right _ _, .refl _, .refl _, .refl _, .refl _⟩
  case evictStale =>
    have h := local_evictOneStale s
    exact ⟨h.now, h.l1, h.stale, h.negative, h.inflight⟩
  case evictL1 => exact ⟨le_rfl, Mem.pop_within _, .refl _, .refl _, .refl _⟩
  case executeAbandoned index =>
    rw [Env.apply]
    split
    · rename_i op hop
      obtain ⟨hnow, hmem, hstale, hneg, hinflight⟩ := hexec op
      exact ⟨hnow.ge, hmem ▸ .refl _, hstale ▸ .refl _, hneg ▸ .refl _, hinflight ▸ .refl _⟩
    · exact ⟨le_rfl, .refl _, .refl _, .refl _, .refl _⟩
  all_goals exact ⟨le_rfl, .refl _, .refl _, .refl _, .refl _⟩

/-- Outside events leave the books alone, but for the commands that are executed late. -/
theorem books_env (s : State V) (e : Env V) :
    (e.apply s).books = { s.books with abandoned := (e.apply s).abandoned } ∧
      (e.apply s).abandoned ⊆ s.abandoned := by
  have hsame : ∀ s' : State V, s'.books = s.books →
      s'.books = { s.books with abandoned := s'.abandoned } ∧ s'.abandoned ⊆ s.abandoned := by
    intro s' h
    have habandoned : s'.abandoned = s.abandoned := congrArg Books.abandoned h
    rw [habandoned, h]
    exact ⟨rfl, List.Subset.refl _⟩
  cases e
  case evictStale => exact hsame _ (local_evictOneStale s).books
  case executeAbandoned index =>
    rw [Env.apply]
    split
    · rename_i op hop
      obtain ⟨l2, locks, h⟩ := l2Exec_eq s op
      rw [h]
      exact ⟨rfl, List.eraseIdx_subset⟩
    · exact hsame _ rfl
  all_goals exact hsame _ rfl

theorem core_env (s : State V) (e : Env V) : (e.apply s).core = s.core := by
  cases e
  case evictStale => exact (local_evictOneStale s).core
  case executeAbandoned index =>
    rw [Env.apply]
    split
    · exact core_l2Exec s _
    · rfl
  all_goals rfl

end HybridCache
