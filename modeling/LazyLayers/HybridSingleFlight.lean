/-
One load at a time.

A load that is shared stands under its key in the map of loads in flight from the moment it
is tracked.  While it stands there no second one is tracked, and callers of the key join it.
It leaves the map when it ends; an invalidation of its key, an expiry, an event for the key,
a loss of trust or the end of the cache may take it out sooner, and only then can two loads
of one key overlap.  A load that expires between the two looks of a `getOrSet` is not pruned:
the next load of the key overwrites it.

* `Act.cancels` — the acts that take a load out of the map before it has ended;
* `inflight_kept` — every other act leaves the load where it is;
* `Run.tracked_until` — a load stands in the map until it ends or is taken out;
* `Run.ended_by_leader` — it ends in the call that has tracked it, behind its loader;
* `Run.single_flight` — two loads of a key follow each other, or the first was taken out.
-/
import LazyLayers.HybridInvalidation
import LazyLayers.HybridFlights

open Js Pattern Async Runs MemoryStore

namespace HybridCache

variable {V : Type} {cfg : Config V}

/-! ### The map of loads in flight -/

/-- The generations have just become saturated, which empties the local maps. -/
def Act.saturates (cfg : Config V) (s : State V) (a : Act V) : Bool :=
  !s.generationTrackingSaturated && (a.apply cfg s).generationTrackingSaturated

/-- The acts that take the load of a key out of the map, whether it has ended or not. -/
def Act.cancels (cfg : Config V) (s : State V) (key : CacheKey) : Act V → Bool
  | .removeInflight key' => key' = key
  -- an expired load that was not pruned is overwritten
  | .trackInflight key' _ _ =>
      key' = key && (s.inflight.get key).any fun e => e.expiresAt ≤ s.now
  | .invalidateKey g generation =>
      g.key = key || Act.saturates cfg s (.invalidateKey g generation)
  | .deleteByPatternLocal pattern => matchesPattern key.text pattern
  | .busStatus status => status.revokes
  | .markInvalidationUntrusted | .restoreFlush _ | .close => true
  | a => a.saturates cfg s

section Frames

variable (s : State V)

theorem inflight_removeStale (key : CacheKey) : (s.removeStale key).inflight = s.inflight := by
  rw [State.removeStale]
  split <;> rfl

theorem inflight_trimStale (maxEntries maxBytes : ℕ) :
    ∀ (n : ℕ) (s : State V), (State.trimStale maxEntries maxBytes n s).inflight = s.inflight
  | 0, s => rfl
  | n + 1, s => by
    rw [State.trimStale]
    split
    · rw [inflight_trimStale maxEntries maxBytes n, State.evictOneStale]
      split
      · exact inflight_removeStale ..
      · rfl
    · rfl

theorem inflight_removeNegative (key : CacheKey) :
    (s.removeNegative key).inflight = s.inflight := by
  rw [State.removeNegative]
  split <;> rfl

theorem inflight_trimNegative (full : State V → Bool) :
    ∀ (n : ℕ) (s : State V), (State.trimNegative full n s).inflight = s.inflight
  | 0, s => rfl
  | n + 1, s => by
    rw [State.trimNegative]
    split
    · rw [inflight_trimNegative full n, State.dropOldestNegative]
      split
      · exact inflight_removeNegative ..
      · rfl
    · rfl

theorem inflight_removeSeenEvent (id : JsString) :
    (s.removeSeenEvent id).inflight = s.inflight := by
  rw [State.removeSeenEvent]
  split <;> rfl

theorem inflight_trimSeen (maxEntries bytes : ℕ) :
    ∀ (n : ℕ) (s : State V), (State.trimSeen maxEntries bytes n s).1.inflight = s.inflight
  | 0, s => rfl
  | n + 1, s => by
    rw [State.trimSeen]
    split
    · split
      · rw [inflight_trimSeen maxEntries bytes n]
        exact inflight_removeSeenEvent ..
      · rfl
    · rfl

theorem inflight_markEventSeen (id : JsString) :
    (s.markEventSeen cfg id).inflight = s.inflight := by
  rw [State.markEventSeen]
  dsimp only
  split
  · rfl
  · have htrim := inflight_trimSeen cfg.dedupeMaxEntries (keyMetadataBytes id)
      (s.removeSeenEvent id).seenEvents.length (s.removeSeenEvent id)
    rw [inflight_removeSeenEvent] at htrim
    generalize State.trimSeen cfg.dedupeMaxEntries (keyMetadataBytes id)
      (s.removeSeenEvent id).seenEvents.length (s.removeSeenEvent id) = p at htrim ⊢
    obtain ⟨s₁, room⟩ := p
    dsimp only at htrim ⊢
    split
    · exact htrim
    · exact htrim

theorem inflight_rememberStale (key : CacheKey) (encoded : Octets) (o : Options) :
    (s.rememberStale cfg key encoded o).inflight = s.inflight := by
  rw [State.rememberStale]
  split
  · rfl
  dsimp only
  have hremove := inflight_removeStale s key
  generalize s.removeStale key = s₁ at hremove ⊢
  split
  · exact hremove
  · rw [inflight_trimStale]
    exact hremove

theorem inflight_setNegative (key : CacheKey) (o : Options) :
    (s.setNegative cfg key o).inflight = s.inflight := by
  rw [State.setNegative]
  split
  · rfl
  dsimp only
  have htrim := inflight_trimNegative (fun s => decide (s.negative.length ≥ o.negativeMaxEntries))
    s.negative.length s
  generalize State.trimNegative (fun s => decide (s.negative.length ≥ o.negativeMaxEntries))
    s.negative.length s = s₁ at htrim ⊢
  split
  · exact htrim
  have hroom := inflight_trimNegative
    (fun s => decide (s.negativeBytes + keyMetadataBytes key.text > maxAuxiliaryMapBytes))
    (s₁.removeNegative key).negative.length (s₁.removeNegative key)
  rw [inflight_removeNegative, htrim] at hroom
  generalize State.trimNegative
    (fun s => decide (s.negativeBytes + keyMetadataBytes key.text > maxAuxiliaryMapBytes))
    (s₁.removeNegative key).negative.length (s₁.removeNegative key) = s₂ at hroom ⊢
  split
  · exact hroom
  · exact hroom

theorem inflight_observeKey (key : CacheKey) (mutate : Bool) :
    (s.observeKey key mutate).inflight = s.inflight := by
  rw [State.observeKey]
  dsimp only
  split
  · rfl
  · split <;> rfl

theorem inflight_releaseKey (g : MutationGuard) : (s.releaseKey g).inflight = s.inflight := by
  rw [State.releaseKey]
  dsimp only
  split <;> rfl

/-- A generation is stored, or the generations have just become saturated. -/
theorem inflight_storeGeneration (key : JsString) (generation : ℕ) :
    (s.storeGeneration key generation).inflight = s.inflight ∨
      s.generationTrackingSaturated = false ∧
        (s.storeGeneration key generation).generationTrackingSaturated = true := by
  rw [State.storeGeneration]
  dsimp only
  split
  · rcases hsat : s.generationTrackingSaturated with _ | _
    · exact .inr ⟨rfl, saturated_saturateGenerationTracking s⟩
    · rw [State.saturateGenerationTracking, if_pos hsat]
      exact .inl rfl
  · split <;> exact .inl rfl

theorem get_removeInflight_of_ne {key key' : CacheKey} (h : key' ≠ key) :
    (s.removeInflight key').inflight.get key = s.inflight.get key := by
  rw [State.removeInflight]
  split
  · rfl
  · exact JsMap.get_delete_of_ne _ h

theorem get_foldl_removeInflight {keys : List CacheKey} {key : CacheKey} (h : key ∉ keys) :
    ∀ s : State V, (keys.foldl State.removeInflight s).inflight.get key = s.inflight.get key := by
  induction keys with
  | nil => exact fun s => rfl
  | cons key' keys ih =>
    intro s
    rw [List.mem_cons, not_or] at h
    rw [List.foldl_cons, ih h.2]
    exact get_removeInflight_of_ne s (Ne.symm h.1)

theorem inflight_foldl {α : Type} {f : State V → α → State V}
    (hf : ∀ s a, (f s a).inflight = s.inflight) (l : List α) (s : State V) :
    (l.foldl f s).inflight = s.inflight := by
  induction l generalizing s with
  | nil => rfl
  | cons a l ih => rw [List.foldl_cons, ih, hf]

end Frames

theorem get_inflight_invalidateKey {s : State V} {g : MutationGuard} {generation : Option ℕ}
    {key : CacheKey}
    (h : (Act.invalidateKey g generation).cancels cfg s key = false) :
    (s.invalidateKey g generation).inflight.get key = s.inflight.get key := by
  rw [Act.cancels, Bool.or_eq_false_iff, decide_eq_false_iff_not] at h
  obtain ⟨hkey, hsat⟩ := h
  have hsat' : (!s.generationTrackingSaturated &&
      (s.invalidateKey g generation).generationTrackingSaturated) = false := hsat
  -- up to the generations
  have hforget : ((((s.observeKey g.key true).removeInflight g.key).removeNegative
      g.key).removeStale g.key).inflight.get key = s.inflight.get key := by
    rw [inflight_removeStale, inflight_removeNegative, get_removeInflight_of_ne _ hkey,
      inflight_observeKey]
  have hcore : ((((s.observeKey g.key true).removeInflight g.key).removeNegative
      g.key).removeStale g.key).generationTrackingSaturated = s.generationTrackingSaturated :=
    (congrArg Core.generationTrackingSaturated (local_forget (s.observeKey g.key true) g.key).core).trans
      (congrArg Core.generationTrackingSaturated (core_observeKey s g.key true))
  rw [State.invalidateKey] at hsat' ⊢
  generalize (((s.observeKey g.key true).removeInflight g.key).removeNegative
    g.key).removeStale g.key = s₁ at hforget hcore hsat' ⊢
  obtain ⟨n, hn⟩ : ∃ n, s₁.advanceGenerationAfterDelete g.key.text generation =
      s₁.storeGeneration g.key.text n := by
    cases generation with
    | some generation => exact ⟨_, rfl⟩
    | none => exact ⟨_, rfl⟩
  rw [hn] at hsat' ⊢
  rcases inflight_storeGeneration s₁ g.key.text n with hsame | ⟨hnot, hnow⟩
  · exact (congrArg (fun m : JsMap CacheKey InflightEntry => m.get key) hsame).trans hforget
  · have hnow' : ((s₁.storeGeneration g.key.text n).l1Delete
        g.storageKey).generationTrackingSaturated = true := hnow
    rw [hnow', ← hcore, hnot] at hsat'
    cases hsat'

theorem get_inflight_deleteByPatternLocal (s : State V) {pattern : JsString} {key : CacheKey}
    (hmiss : matchesPattern key.text pattern = false) :
    (s.deleteByPatternLocal pattern).inflight.get key = s.inflight.get key := by
  have hgone : ∀ s' : State V, ((s.inflight.keys.filter fun key =>
      matchesPattern key.text pattern).foldl State.removeInflight s').inflight.get key =
        s'.inflight.get key := by
    refine fun s' => get_foldl_removeInflight ?_ s'
    intro hmem
    rw [List.mem_filter, hmiss] at hmem
    cases hmem.2
  rw [State.deleteByPatternLocal]
  simp only [State.l1DeleteByPattern, inflight_foldl inflight_removeStale,
    inflight_foldl inflight_removeNegative]
  exact hgone _

/-- What neither ends a load nor cancels it leaves it where it is. -/
theorem inflight_kept {s : State V} {a : Act V} {key : CacheKey} {e : InflightEntry}
    (he : s.inflight.get key = some e) (hcancels : a.cancels cfg s key = false)
    (hends : ∀ outcome, a ≠ .finishInflight key e.id outcome)
    (htracks : ∀ id opts, a ≠ .trackInflight key id opts) :
    (a.apply cfg s).inflight.get key = some e := by
  have hsame : ∀ {s' : State V}, s'.inflight = s.inflight → s'.inflight.get key = some e := by
    intro s' h
    rw [h]
    exact he
  cases a
  case observeKey o g mutate => exact hsame (inflight_observeKey ..)
  case releaseKey g => exact hsame (inflight_releaseKey ..)
  case invalidateKey g generation => exact (get_inflight_invalidateKey hcancels).trans he
  case rememberStale o g v encoded opts => exact hsame (inflight_rememberStale ..)
  case removeStale key' => exact hsame (inflight_removeStale ..)
  case setNegative g opts => exact hsame (inflight_setNegative ..)
  case removeNegative key' => exact hsame (inflight_removeNegative ..)
  case removeInflight key' =>
    have hne : key' ≠ key := of_decide_eq_false hcancels
    exact (get_removeInflight_of_ne s hne).trans he
  case trackInflight key' id opts =>
    have hne : key' ≠ key := fun heq => htracks id opts (heq ▸ rfl)
    exact (JsMap.get_set_of_ne _ _ hne).trans he
  case finishInflight key' id outcome =>
    rw [Act.apply, State.finishInflight]
    dsimp only
    split
    · rename_i hid
      have hne : key' ≠ key := by
        rintro rfl
        rw [he, Option.map_some, Option.some.injEq] at hid
        exact hends outcome (hid ▸ rfl)
      exact (get_removeInflight_of_ne s hne).trans he
    · exact he
  case advanceGeneration key' generation =>
    cases generation with
    | none => exact he
    | some generation =>
      rcases inflight_storeGeneration s key' (max (s.getGeneration key') generation) with
        hkeep | ⟨hnot, hnow⟩
      · exact hsame hkeep
      · have hquiet : (!s.generationTrackingSaturated && (s.storeGeneration key'
            (max (s.getGeneration key') generation)).generationTrackingSaturated) = false := hcancels
        rw [hnot, hnow] at hquiet
        cases hquiet
  case saturate =>
    have hquiet : (!s.generationTrackingSaturated &&
        s.saturateGenerationTracking.generationTrackingSaturated) = false := hcancels
    rw [saturated_saturateGenerationTracking, Bool.and_true, Bool.not_eq_false'] at hquiet
    refine hsame ?_
    rw [Act.apply, State.saturateGenerationTracking, if_pos hquiet]
  case deleteByPatternLocal pattern =>
    exact (get_inflight_deleteByPatternLocal s hcancels).trans he
  case busStatus status =>
    have hkeep : ¬ status.revokes = true := by
      rw [show status.revokes = false from hcancels]
      exact Bool.false_ne_true
    rw [Act.apply, if_neg hkeep]
    exact he
  case markEventSeen id => exact hsame (inflight_markEventSeen ..)
  case removeSeenEvent id => exact hsame (inflight_removeSeenEvent ..)
  case execute g op reply => exact hsame (inflight_l2Exec s op)
  case markInvalidationUntrusted => cases hcancels
  case restoreFlush revision => cases hcancels
  case close => cases hcancels
  all_goals exact he

theorem inflight_env (s : State V) (e : Env V) : (e.apply s).inflight = s.inflight := by
  cases e
  case evictStale =>
    rw [Env.apply, State.evictOneStale]
    split
    · exact inflight_removeStale ..
    · rfl
  case executeAbandoned index =>
    rw [Env.apply]
    split
    · rename_i op hop
      exact inflight_l2Exec s op
    · rfl
  all_goals rfl

namespace Run

variable {r : Run V}

/-! ### Loads along a run -/

/-- A load that is tracked over another one finds that one expired. -/
theorem cancels_of_track {n i : ℕ} {key : CacheKey} {id : ℕ} {opts : Options} {e : InflightEntry}
    (hdoes : r.Does n i (.trackInflight key id opts))
    (he : (r.at n).inflight.get key = some e) :
    (Act.trackInflight key id opts : Act V).cancels r.cfg (r.at n) key = true := by
  obtain ⟨_, -, -, -, hexpired, -⟩ := rule hdoes
  simp [Act.cancels, he, hexpired e he]

/-- A load stands in the map until it ends or is taken out. -/
theorem tracked_until {m n i : ℕ} {key : CacheKey} {id : ℕ} {opts : Options}
    (htrack : r.Does m i (.trackInflight key id opts)) (hmn : m < n) (hn : n ≤ r.trace.length) :
    (∃ e, (r.at n).inflight.get key = some e ∧ e.id = id) ∨
      ∃ f k b, m < f ∧ f < n ∧ r.Does f k b ∧ (b.cancels r.cfg (r.at f) key = true ∨
        ∃ outcome, b = .finishInflight key id outcome) := by
  induction n, (show m + 1 ≤ n from hmn) using Nat.le_induction with
  | base =>
    left
    rw [at_succ_own htrack]
    exact ⟨_, JsMap.get_set_self .., (id_of_track htrack).symm⟩
  | succ n hk ih =>
    rcases ih hk (by omega) with ⟨e, he, rfl⟩ | ⟨f, k, b, hmf, hfn, hdoes, hwhy⟩
    · have hget : r.trace[n]? = some r.trace[n] := List.getElem?_eq_getElem (by omega)
      rcases hentry : r.trace[n] with ⟨k, b⟩ | x
      · rw [hentry] at hget
        have hdoes : r.Does n k b := hget
        by_cases hwhy : b.cancels r.cfg (r.at n) key = true ∨
            ∃ outcome, b = .finishInflight key e.id outcome
        · exact .inr ⟨n, k, b, hk, Nat.lt_succ_self n, hdoes, hwhy⟩
        · rw [not_or, Bool.not_eq_true] at hwhy
          refine .inl ⟨e, ?_, rfl⟩
          rw [at_succ_own hdoes]
          refine inflight_kept he hwhy.1 (fun outcome hb => hwhy.2 ⟨outcome, hb⟩) ?_
          rintro id' opts' rfl
          -- no second load is tracked while the first one is live
          exact absurd (hwhy.1.symm.trans (cancels_of_track hdoes he)) nofun
      · rw [hentry] at hget
        refine .inl ⟨e, ?_, rfl⟩
        rw [at_succ hget]
        exact (congrArg (fun m : JsMap CacheKey InflightEntry => m.get key)
          (inflight_env (r.at n) x)).trans he
    · exact .inr ⟨f, k, b, hmf, by omega, hdoes, hwhy⟩

/-- A call that tracks a load is staged. -/
theorem staged_of_track {m i : ℕ} {key : CacheKey} {id : ℕ} {opts : Options}
    (htrack : r.Does m i (.trackInflight key id opts)) :
    ∃ t, r.tasks[i]? = some t ∧ t.call.isStaged = true := by
  obtain ⟨t, ht, -, -, -, -, rounds, hcall⟩ := rule htrack
  exact ⟨t, ht, by rw [hcall]; rfl⟩

/-- A load ends in the call that has tracked it, behind all that its loader does. -/
theorem ended_by_leader {m f i k : ℕ} {key : CacheKey} {id : ℕ} {opts : Options}
    {outcome : Except Err (Option V)} (htrack : r.Does m i (.trackInflight key id opts))
    (hends : r.Does f k (.finishInflight key id outcome)) : k = i ∧
      ∀ p, (r.Does p i (.startLoader key) ∨ ∃ v, r.Does p i (.loaded key v)) → p < f := by
  obtain ⟨_, -, -, l₁, opts', u, hsplit, -⟩ := rule hends
  have hmem : .trackInflight key id opts' ∈ r.acts k f := by
    rw [hsplit]
    simp
  obtain ⟨m', -, htrack'⟩ := does_of_mem hmem
  obtain rfl := track_unique htrack htrack'
  obtain ⟨t, ht, hstaged⟩ := staged_of_track htrack
  cases Option.some.inj (htrack.symm.trans htrack')
  refine ⟨rfl, ?_⟩
  rintro p (hp | ⟨v, hp⟩)
  · exact lt_of_stage hp hends ht hstaged (by simp [Act.stage]) nofun
  · exact lt_of_stage hp hends ht hstaged (by simp [Act.stage]) nofun

/-- Of two loads of a key, the first has ended before the second is tracked, or it was taken
out in between, at the latest by the second. -/
theorem tracked_apart {m n i j : ℕ} {key : CacheKey} {id id' : ℕ} {opts opts' : Options}
    (htrack : r.Does m i (.trackInflight key id opts))
    (htrack' : r.Does n j (.trackInflight key id' opts')) (hmn : m < n) :
    (∃ f outcome, m < f ∧ f < n ∧ r.Does f i (.finishInflight key id outcome) ∧
      ∀ p, (r.Does p i (.startLoader key) ∨ ∃ v, r.Does p i (.loaded key v)) → p < f) ∨
    ∃ f k b, m < f ∧ f ≤ n ∧ r.Does f k b ∧ b.cancels r.cfg (r.at f) key = true := by
  rcases tracked_until htrack hmn (lt_length htrack').le with
    ⟨e, he, -⟩ | ⟨f, k, b, hmf, hfn, hdoes, hcancels | ⟨outcome, rfl⟩⟩
  · exact .inr ⟨n, j, _, hmn, le_rfl, htrack', cancels_of_track htrack' he⟩
  · exact .inr ⟨f, k, b, hmf, hfn.le, hdoes, hcancels⟩
  · obtain ⟨rfl, hloader⟩ := ended_by_leader htrack hdoes
    exact .inl ⟨f, outcome, hmf, hfn, hdoes, hloader⟩

/-- Whoever starts a loader has tracked the load before, or leads one that is not shared. -/
theorem leads_of_startLoader {p i : ℕ} {key : CacheKey} (h : r.Does p i (.startLoader key)) :
    (∃ m id opts, m < p ∧ r.Does m i (.trackInflight key id opts)) ∨
      ∃ m, m < p ∧ r.Does m i (.bypassInflight key) := by
  obtain ⟨_, -, -, -, -, l₁, u, hsplit, hleads, -⟩ := rule h
  have hsub : l₁ ⊆ r.acts i p := by
    rw [hsplit]
    exact List.subset_append_left l₁ u
  rcases hleads with ⟨id, opts, hmem⟩ | hmem
  · obtain ⟨m, hm, hdoes⟩ := does_of_mem (hsub hmem)
    exact .inl ⟨m, id, opts, hm, hdoes⟩
  · obtain ⟨m, hm, hdoes⟩ := does_of_mem (hsub hmem)
    exact .inr ⟨m, hm, hdoes⟩

/-- **Single flight.**  When loaders for one key are started twice, at `p` and later at
`p'`, then one of the two loads was not shared, or the first had ended in between, or an
invalidation, an expiry, an event, a loss of trust or the close has taken one of the two out
of the map by the time the other was tracked. -/
theorem single_flight {p p' i j : ℕ} {key : CacheKey} (hp : r.Does p i (.startLoader key))
    (hp' : r.Does p' j (.startLoader key)) (hlt : p < p') :
    (∃ q, r.Does q i (.bypassInflight key) ∨ r.Does q j (.bypassInflight key)) ∨
    (∃ f id outcome, p < f ∧ f < p' ∧ r.Does f i (.finishInflight key id outcome)) ∨
    ∃ q id opts f k b, (r.Does q i (.trackInflight key id opts) ∨
        r.Does q j (.trackInflight key id opts)) ∧ q < f ∧ f < p' ∧ r.Does f k b ∧
      b.cancels r.cfg (r.at f) key = true := by
  rcases leads_of_startLoader hp with ⟨m, id, opts, hm, htrack⟩ | ⟨q, -, hq⟩
  · rcases leads_of_startLoader hp' with ⟨n, id', opts', hn, htrack'⟩ | ⟨q, -, hq⟩
    · rcases Nat.lt_trichotomy m n with hmn | rfl | hnm
      · rcases tracked_apart htrack htrack' hmn with
          ⟨f, outcome, -, hfn, hends, hloader⟩ | ⟨f, k, b, hmf, hfn, hdoes, hcancels⟩
        · exact .inr (.inl ⟨f, id, outcome, hloader p (.inl hp), by omega, hends⟩)
        · exact .inr (.inr ⟨m, id, opts, f, k, b, .inl htrack, hmf, by omega, hdoes, hcancels⟩)
      · -- a call starts one loader
        obtain ⟨t, ht, hstaged⟩ := staged_of_track htrack
        cases Option.some.inj (htrack.symm.trans htrack')
        have hsame := same_of_stage hp hp' ht hstaged rfl nofun
        omega
      · rcases tracked_apart htrack' htrack hnm with
          ⟨f, outcome, -, hfm, -, hloader⟩ | ⟨f, k, b, hnf, hfm, hdoes, hcancels⟩
        · -- the later loader would have been started before its load ended
          have hbefore := hloader p' (.inl hp')
          omega
        · exact .inr (.inr ⟨n, id', opts', f, k, b, .inr htrack', hnf, by omega, hdoes, hcancels⟩)
    · exact .inl ⟨q, .inr hq⟩
  · exact .inl ⟨q, .inl hq⟩

/-- Everything succeeds at once but the loaders, which fail. -/
def loadersFail : ∀ q, Resp ℕ q
  | .loader => .failed
  | q => healthy q

/-- Two loads of a key, one after the other, neither of which finds a value. -/
def twoLoads : Run ℕ :=
  demo { quietConfig with l2 := none } []
    ([.start (.getOrSet theKey {} { rounds := 2 })] ++ List.replicate 20 (.resume 0 loadersFail) ++
      [.start (.getOrSet theKey {} { rounds := 2 })] ++ List.replicate 16 (.resume 1 loadersFail))

/-- Whether the call starts a loader of the key at the position. -/
def startsLoader (r : Run V) (p i : ℕ) (key : CacheKey) : Bool :=
  r.trace[p]?.any fun
    | .own j (.startLoader key') => j = i && key' = key
    | _ => false

theorem does_of_startsLoader {p i : ℕ} {key : CacheKey} (h : r.startsLoader p i key = true) :
    r.Does p i (.startLoader key) := by
  obtain ⟨x, hx, hmatch⟩ := (Option.any_eq_true ..).mp h
  split at hmatch
  · rw [Bool.and_eq_true, decide_eq_true_eq, decide_eq_true_eq] at hmatch
    obtain ⟨rfl, rfl⟩ := hmatch
    exact hx
  · cases hmatch

theorem single_flight_twoLoads :
    (∃ q, twoLoads.Does q 0 (.bypassInflight theKey) ∨
      twoLoads.Does q 1 (.bypassInflight theKey)) ∨
    (∃ f id outcome, 15 < f ∧ f < 34 ∧ twoLoads.Does f 0 (.finishInflight theKey id outcome)) ∨
    ∃ q id opts f k b, (twoLoads.Does q 0 (.trackInflight theKey id opts) ∨
        twoLoads.Does q 1 (.trackInflight theKey id opts)) ∧ q < f ∧ f < 34 ∧
      twoLoads.Does f k b ∧ b.cancels twoLoads.cfg (twoLoads.at f) theKey = true := by
  have hfirst : twoLoads.Does 15 0 (.startLoader theKey) :=
    does_of_startsLoader (by decide +kernel)
  have hsecond : twoLoads.Does 34 1 (.startLoader theKey) :=
    does_of_startsLoader (by decide +kernel)
  exact single_flight hfirst hsecond (by decide)

end Run

end HybridCache
