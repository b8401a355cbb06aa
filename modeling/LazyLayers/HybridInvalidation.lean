/-
The barrier of an invalidation.

A deletion takes the entries of its key out of the local maps and mutates the key; a
pattern takes out what it matches and bumps the epoch.  Both happen in one turn, so work
that is still under way cannot slip in between: what is found afterwards was put there
afterwards, under a guard that was taken no earlier than the invalidation itself.

* `Act.invalidates` — the entries that an act takes away;
* `not_holds_of_invalidates` — they are gone after it;
* `storageKey_of_takes` — without versions a guard stands for the key itself;
* `Run.put_under_newer` — what comes back comes back under a newer guard;
* `Run.invalidation_barrier` — deletions, patterns, events and losses of trust.
-/
import LazyLayers.HybridBarriers

open Js Pattern Async Runs MemoryStore

namespace HybridCache

variable {V : Type} {cfg : Config V}

/-! ### What an invalidation takes away -/

/-- The key that an entry stands under: the storage key in the L1, the key itself in the
other maps. -/
def LocalEntry.key : LocalEntry → CacheKey
  | .l1 key _ | .stale key _ | .negative key _ => key

/-- The entries that an act takes away, whoever put them there. -/
def Act.invalidates : Act V → LocalEntry → Prop
  | .invalidateKey g _, .l1 key _ => key = g.storageKey
  | .invalidateKey g _, x => x.key = g.key
  | .deleteByPatternLocal pattern, x => matchesPattern x.key.text pattern = true
  | .restoreFlush _, _ => True
  | a, _ => a.revokes = true

theorem stale_removeStale (s : State V) (key : CacheKey) :
    (s.removeStale key).stale.get key = none := by
  rw [State.removeStale]
  split
  · assumption
  · exact JsMap.get_delete_self ..

theorem negative_removeNegative (s : State V) (key : CacheKey) :
    (s.removeNegative key).negative.get key = none := by
  rw [State.removeNegative]
  split
  · assumption
  · exact JsMap.get_delete_self ..

section Series

variable {W : Type} {f : State V → CacheKey → State V} {m : State V → JsMap CacheKey W}

theorem foldl_sub (hsub : ∀ s key, (m (f s key)).Sub (m s)) (keys : List CacheKey) (s : State V) :
    (m (keys.foldl f s)).Sub (m s) := by
  induction keys generalizing s with
  | nil => exact .refl _
  | cons key keys ih => exact (ih (f s key)).trans (hsub s key)

/-- What one of a series of removals takes away stays away. -/
theorem foldl_gone (hgone : ∀ s key, (m (f s key)).get key = none)
    (hsub : ∀ s key, (m (f s key)).Sub (m s)) {keys : List CacheKey} {key : CacheKey}
    (hmem : key ∈ keys) (s : State V) : (m (keys.foldl f s)).get key = none := by
  induction keys generalizing s with
  | nil => cases hmem
  | cons key' keys ih =>
    rw [List.foldl_cons]
    rcases List.mem_cons.mp hmem with rfl | hmem
    · by_contra hsome
      obtain ⟨w, hw⟩ := Option.ne_none_iff_exists'.mp hsome
      have hbefore := foldl_sub hsub keys (f s key) key w hw
      rw [hgone] at hbefore
      cases hbefore
    · exact ih hmem (f s key')

/-- The removal of every key that matches leaves none that does. -/
theorem not_get_of_filter (hgone : ∀ s key, (m (f s key)).get key = none)
    (hsub : ∀ s key, (m (f s key)).Sub (m s)) {s : State V} {pattern : JsString} {key : CacheKey}
    {w : W} (hmatch : matchesPattern key.text pattern = true)
    (h : (m (((m s).keys.filter fun key => matchesPattern key.text pattern).foldl f s)).get key =
      some w) : False := by
  have hget := foldl_sub hsub _ s key w h
  have hkeys : key ∈ (m s).keys := List.mem_map.mpr ⟨(key, w), JsMap.mem_of_get hget, rfl⟩
  rw [foldl_gone hgone hsub (List.mem_filter.mpr ⟨hkeys, hmatch⟩)] at h
  cases h

end Series

theorem not_holds_invalidateKey (s : State V) (g : MutationGuard) (generation : Option ℕ)
    {x : LocalEntry} (hx : (Act.invalidateKey (V := V) g generation).invalidates x) :
    ¬ (s.invalidateKey g generation).holds x := by
  intro h
  rw [State.invalidateKey] at h
  generalize hs₁ : ((s.observeKey g.key true).removeInflight g.key).removeNegative g.key = s₁ at h
  have hdrops := drops_advanceGenerationAfterDelete (s₁.removeStale g.key) g.key.text generation
  cases x with
  | l1 key e =>
    have hkey : key = g.storageKey := hx
    subst hkey
    obtain ⟨hres, -⟩ := Option.filter_eq_some_iff.mp (show (Option.filter _ (Mem.resident _ _)) = some e
      from h)
    rw [State.l1Delete, Mem.resident_remove, if_pos rfl] at hres
    cases hres
  | stale key e =>
    have hkey : key = g.key := hx
    subst hkey
    have hbefore := hdrops.stale g.key e h
    rw [stale_removeStale] at hbefore
    cases hbefore
  | negative key e =>
    have hkey : key = g.key := hx
    subst hkey
    have hbefore := (local_removeStale s₁ g.key).negative g.key e (hdrops.negative g.key e h)
    rw [← hs₁, negative_removeNegative] at hbefore
    cases hbefore

theorem not_holds_deleteByPatternLocal (s : State V) (pattern : JsString) {x : LocalEntry}
    (hx : matchesPattern x.key.text pattern = true) :
    ¬ (s.deleteByPatternLocal pattern).holds x := by
  intro h
  rw [State.deleteByPatternLocal] at h
  dsimp only at h
  cases x with
  | l1 key e =>
    have hmiss : matchesPattern key.text pattern = false :=
      (Mem.entry_deleteByPattern le_rfl h).1
    rw [show matchesPattern key.text pattern = true from hx] at hmiss
    cases hmiss
  | stale key e =>
    exact not_get_of_filter (m := State.stale) stale_removeStale
      (fun s key => (local_removeStale s key).stale) hx h
  | negative key e =>
    have hneg := (local_foldl local_removeStale _ _).negative key e h
    exact not_get_of_filter (m := State.negative) negative_removeNegative
      (fun s key => (local_removeNegative s key).negative) hx hneg

/-- What an act invalidates is gone after it. -/
theorem not_holds_of_invalidates (cfg : Config V) (s : State V) {a : Act V} {x : LocalEntry}
    (hx : a.invalidates x) : ¬ (a.apply cfg s).holds x := by
  cases a
  case invalidateKey g generation => exact not_holds_invalidateKey s g generation hx
  case deleteByPatternLocal pattern => exact not_holds_deleteByPatternLocal s pattern hx
  case restoreFlush revision => exact not_holds_dropLocal _ x
  all_goals exact not_holds_of_revokes s hx x

/-! ### What comes back -/

/-- The act supersedes every guard of the key that was taken before it. -/
theorem supersedes_of_invalidates (cfg : Config V) {s : State V} {a : Act V} {x : LocalEntry}
    (hx : a.invalidates x) :
    (∃ g generation, a = .invalidateKey g generation) ∨ a.bumps cfg s = true := by
  cases a
  case invalidateKey g generation => exact .inl ⟨g, generation, rfl⟩
  case deleteByPatternLocal pattern => exact .inr rfl
  case restoreFlush revision => exact .inr rfl
  all_goals exact .inr (Act.bumps_of_revokes hx)

/-- What an act puts somewhere it puts under the key of its guard. -/
theorem key_of_puts {a : Act V} {x : LocalEntry} {o : Origin} {g : MutationGuard}
    (hputs : a.puts x) (hplaces : a.places = some (o, g)) : x.key = g.storageKey ∨ x.key = g.key := by
  cases a
  case insertL1 o' g' v buffer ttlMs =>
    obtain ⟨rfl, rfl⟩ : o' = o ∧ g' = g := by simpa [Act.places] using hplaces
    cases x with
    | l1 key e => exact .inl hputs.1.symm
    | stale key e => exact hputs.elim
    | negative key e => exact hputs.elim
  case rememberStale o' g' v encoded opts =>
    obtain ⟨rfl, rfl⟩ : o' = o ∧ g' = g := by simpa [Act.places] using hplaces
    cases x with
    | l1 key e => exact hputs.elim
    | stale key e => exact .inr hputs.1.symm
    | negative key e => exact hputs.elim
  case setNegative g' opts =>
    obtain ⟨rfl, rfl⟩ : Origin.fill = o ∧ g' = g := by simpa [Act.places] using hplaces
    cases x with
    | l1 key e => exact hputs.elim
    | stale key e => exact hputs.elim
    | negative key e => exact .inr (Eq.symm hputs)
  all_goals cases hplaces

namespace Run

variable {r : Run V}

/-- Without versions the storage key of a guard is its key. -/
theorem storageKey_of_takes (hver : r.cfg.versioning = false) {m i : ℕ} {take : Act V}
    {g : MutationGuard} (hdoes : r.Does m i take) (htakes : Takes take g) :
    g.storageKey = g.key := by
  obtain ⟨mutate, hg, -⟩ := guard_of_takes hdoes htakes
  have hstorage : g.storageKey = (r.at m).toStorageKey r.cfg g.key :=
    congrArg MutationGuard.storageKey hg
  rw [hstorage, State.toStorageKey, hver]
  rfl

/-- The entry was put there after `m`, for a call that took its guard no earlier. -/
def PutSince (r : Run V) (m n : ℕ) (x : LocalEntry) : Prop :=
  ∃ k j b o g, m < k ∧ k < n ∧ r.Does k j b ∧ b.puts x ∧ b.places = some (o, g) ∧
    (r.at k).isCurrent r.cfg g = true ∧
    ∀ l j' take, r.Does l j' take → Takes take g.base → m ≤ l

/-- Where an act supersedes the guards of a key, what is put there later is put there
under a newer guard. -/
theorem newer_of_places {m k i j : ℕ} {a b : Act V} {o : Origin} {g : MutationGuard}
    (hdoes : r.Does m i a) (hmk : m < k) (hb : r.Does k j b) (hplaces : b.places = some (o, g))
    (hsup : a.mutates g.key = true ∨ a.bumps r.cfg (r.at m) = true) :
    ∀ l j' take, r.Does l j' take → Takes take g.base → m ≤ l := by
  intro l j' take htake htakes
  by_contra hlt
  obtain ⟨-, -, hcur⟩ := placed hb hplaces
  have hobsolete : (r.at k).isCurrent r.cfg g = false :=
    obsolete (lt_length hb).le htake htakes hdoes (Nat.lt_of_not_le hlt) hmk hsup rfl
  rw [hcur] at hobsolete
  cases hobsolete

/-- What an act has invalidated comes back only under a guard that was taken since. -/
theorem put_under_newer (hver : r.cfg.versioning = false) {m n i : ℕ} {a : Act V}
    {x : LocalEntry} (hdoes : r.Does m i a) (hinv : a.invalidates x) (hmn : m < n)
    (hn : n ≤ r.trace.length) (hx : (r.at n).holds x) : r.PutSince m n x := by
  rcases put_since (Nat.succ_le_of_lt hmn) hn hx with hold | ⟨k, j, b, hk, hkn, hb, hputs⟩
  · rw [at_succ_own hdoes] at hold
    exact absurd hold (not_holds_of_invalidates _ _ hinv)
  obtain ⟨o, g, hplaces⟩ := Act.places_of_puts hputs
  obtain ⟨-, ⟨m', mutate, -, htaken⟩, hcur⟩ := placed hb hplaces
  have hkey : x.key = g.key := by
    rcases key_of_puts hputs hplaces with hkey | hkey
    · rw [hkey]
      exact storageKey_of_takes hver (g := g.base) htaken (.inl ⟨o, mutate, rfl⟩)
    · exact hkey
  have hsup : a.mutates g.key = true ∨ a.bumps r.cfg (r.at m) = true := by
    rcases supersedes_of_invalidates r.cfg (s := r.at m) hinv with
      ⟨g', generation, rfl⟩ | hbumps
    · left
      have hsame : x.key = g'.key := by
        cases x with
        | l1 key e =>
          exact Eq.trans hinv (storageKey_of_takes hver hdoes (.inr ⟨generation, rfl⟩))
        | stale key e => exact hinv
        | negative key e => exact hinv
      simp [Act.mutates, ← hsame, hkey]
    · exact .inr hbumps
  exact ⟨k, j, b, o, g, hk, hkn, hb, hputs, hplaces, hcur, newer_of_places hdoes hk hb hplaces hsup⟩

end Run

/-- The keys that a call invalidates as it is made. -/
def Call.invalidates : Call V → CacheKey → Prop
  | .delete key, key' => key = key'
  | .deleteByPattern pattern, key' => matchesPattern key'.text pattern = true
  | _, _ => False

namespace Run

variable {r : Run V}

/-- A pattern is invalidated in the turn in which the call is made. -/
theorem invalidates_pattern_at {i : ℕ} {t : CacheTask V} {pattern : JsString}
    (ht : r.tasks[i]? = some t) (hcall : t.call = .deleteByPattern pattern)
    (hopen : (r.at t.started).closed = false) :
    r.Does t.started i (.deleteByPatternLocal pattern) := by
  refine does_of_opening ht (k := 0) ?_
  have hbody : opening r.system.toWorld (t.call.body r.cfg) (r.at t.started) =
      opening r.system.toWorld (HybridCache.deleteByPattern r.cfg pattern) (r.at t.started) := by
    rw [hcall]
    exact opening_map ..
  rw [hbody, HybridCache.deleteByPattern, opening_ensureOpen, hopen]
  rfl

/-- A call that invalidates a key does so at once, for every entry under it. -/
theorem invalidates_now (hver : r.cfg.versioning = false) {i : ℕ} {t : CacheTask V}
    {x : LocalEntry} (ht : r.tasks[i]? = some t) (hcall : t.call.invalidates x.key)
    (hopen : (r.at t.started).closed = false) :
    ∃ a, r.Does t.started i a ∧ a.invalidates x := by
  cases hc : t.call
  case delete key =>
    rw [hc] at hcall
    obtain ⟨g, hkey, hdoes⟩ := invalidates_at ht hc hopen
    have hsame : x.key = g.key := (hkey.trans hcall).symm
    refine ⟨_, hdoes, ?_⟩
    cases x with
    | l1 key e => exact hsame.trans (storageKey_of_takes hver hdoes (.inr ⟨none, rfl⟩)).symm
    | stale key e => exact hsame
    | negative key e => exact hsame
  case deleteByPattern pattern =>
    rw [hc] at hcall
    exact ⟨_, invalidates_pattern_at ht hc hopen, hcall⟩
  all_goals
    rw [hc] at hcall
    exact hcall.elim

/-- **The invalidation barrier.**  In a cache without versions, from the moment a deletion,
a pattern, an event or a loss of trust invalidates an entry, the local tiers hold it again
only if it was put back since, by a call that took its guard since.  The calls `delete` and
`deleteByPattern` invalidate as they are made, so no lookup after them is answered from what
was there, or under way, before. -/
theorem invalidation_barrier (r : Run V) (hver : r.cfg.versioning = false) :
    (∀ m n i a x, r.Does m i a → a.invalidates x → m < n → n ≤ r.trace.length →
      (r.at n).holds x → r.PutSince m n x) ∧
    ∀ (i : ℕ) (t : CacheTask V) n j b x, r.tasks[i]? = some t → t.call.invalidates x.key →
      t.started < n → r.Does n j b → b.answeredBy (r.at n) x → r.PutSince t.started n x := by
  constructor
  · intro m n i a x hdoes hinv hmn hn hx
    exact put_under_newer hver hdoes hinv hmn hn hx
  · intro i t n j b x ht hcall hlt hb hanswered
    have hopen : (r.at t.started).closed = false := by
      by_contra hclosed
      rw [Bool.not_eq_false] at hclosed
      have hlater := closed_mono hlt.le hclosed
      rw [open_of_answeredBy hb hanswered] at hlater
      cases hlater
    obtain ⟨a, hdoes, hinv⟩ := invalidates_now hver ht hcall hopen
    exact put_under_newer hver hdoes hinv hlt (lt_length hb).le (Act.holds_of_answeredBy hanswered)

/-- A deletion, a write that follows it, and a lookup that finds what it wrote. -/
def deletedThenWritten : Run ℕ :=
  demo quietConfig [] [.start (.delete theKey), .start (.set theKey 2 {}), .start (.get theKey),
    .resume 2 healthy]

theorem invalidation_barrier_deletedThenWritten :
    ∃ e, (deletedThenWritten.at 4).l1Entry theKey = some e ∧
      deletedThenWritten.PutSince 0 4 (.l1 theKey e) := by
  obtain ⟨e, he⟩ := Option.isSome_iff_exists.mp
    (show ((deletedThenWritten.at 4).l1Entry theKey).isSome = true by decide)
  refine ⟨e, he, ?_⟩
  exact (invalidation_barrier deletedThenWritten rfl).2 0 deletedThenWritten.tasks[0] 4 2
    (.readL1 ((deletedThenWritten.at 3).guardFor quietConfig theKey false)
      (((deletedThenWritten.at 4).l1Entry theKey).map L1Entry.buffer))
    (.l1 theKey e) rfl rfl (by decide) rfl ⟨e, rfl, he⟩

end Run

end HybridCache
