/-
What ends with the cache, and what ends with the trust in its bus.

Once `close` has been called, every act that would fill a tier, track a load, write to
the shared tier or publish an event is barred by its own rule.  A loss of trust flushes
the local tiers, so that whatever they hold later was put there later.

* `Run.close_is_terminal` — nothing is added anywhere after `close`;
* `Run.flushed` — a loss of trust empties the local tiers;
* `Run.trust_barrier` — what is answered, trusted or readable after a loss of trust is
  younger than it.
-/
import LazyLayers.HybridEntries

open Js Pattern Async Async.Prog Runs MemoryStore

namespace HybridCache

variable {V : Type} {cfg : Config V}

/-! ### Closing -/

/-- The act adds nothing to the map of loads in flight. -/
theorem inflight_apply (s : State V) {a : Act V} (h : ∀ key id opts, a ≠ .trackInflight key id opts) :
    (a.apply cfg s).inflight.Sub s.inflight := by
  rcases hcmd : a.commands with _ | _
  · rcases hinst : a.installs with _ | _
    · exact (drops_apply s hinst hcmd).inflight
    · cases a
      case insertL1 => exact .refl _
      case rememberStale => exact (installs_rememberStale ..).inflight
      case setNegative => exact (installs_setNegative ..).inflight
      case trackInflight key id opts => exact absurd rfl (h key id opts)
      all_goals cases hinst
  · cases a
    case execute g op reply =>
      have hsame : (s.l2Exec op).inflight = s.inflight := inflight_l2Exec s op
      change JsMap.Sub (s.l2Exec op).inflight s.inflight
      rw [hsame]
      exact .refl _
    all_goals cases hcmd

theorem not_closed_of_current {s : State V} {g : MutationGuard} (h : s.isCurrent cfg g = true) :
    s.closed = false := by
  simp only [State.isCurrent, Bool.and_eq_true, Bool.not_eq_true'] at h
  exact h.1.1.1.1.1

namespace Run

variable {r : Run V}

/-- `close` closes the cache in the turn in which it is called. -/
theorem closes {i : ℕ} {t : CacheTask V}
    (ht : r.tasks[i]? = some t) (hcall : t.call = .close) :
    (r.at t.started).closed = true ∨
      r.Does t.started i .close ∧ (r.at (t.started + 1)).closed = true := by
  rcases hclosed : (r.at t.started).closed with _ | _
  · have hopening : opening r.system.toWorld (t.call.body r.cfg) (r.at t.started) = [.close] := by
      rw [hcall]
      refine (opening_map r.system.toWorld (fun _ => Result.done) HybridCache.close _).trans ?_
      change opening r.system.toWorld (if (r.at t.started).closed = true then hop else
        (perform .close >>= fun _ => hop)) (r.at t.started) = [.close]
      rw [hclosed]
      rfl
    have hdoes : r.Does (t.started + 0) i .close := does_of_opening ht (by rw [hopening]; rfl)
    refine .inr ⟨hdoes, ?_⟩
    rw [at_succ_own hdoes]
    exact congrArg Core.closed (core_close _)
  · exact .inl rfl

/-- What an act of a closed cache cannot be. -/
structure Barred (a : Act V) : Prop where
  places : a.places = none
  tracks : ∀ key id opts, a ≠ .trackInflight key id opts
  writes : ∀ g op, a = .dispatch g op → op.writes = false
  publishes : ∀ event, a ≠ .publish event

theorem barred_of_closed {n j : ℕ} {a : Act V} (hclosed : (r.at n).closed = true)
    (hdoes : r.Does n j a) : Barred a := by
  obtain ⟨t, -, -, hrule⟩ := rule hdoes
  have hcurrent : ∀ g, (r.at n).isCurrent r.cfg g = true → False := by
    intro g hcur
    rw [not_closed_of_current hcur] at hclosed
    cases hclosed
  refine ⟨?_, ?_, ?_, ?_⟩
  · rcases hplaces : a.places with _ | ⟨o, g⟩
    · rfl
    · exact (hcurrent g (placed hdoes hplaces).2.2).elim
  · rintro key id opts rfl
    have hopen : (r.at n).closed = false := hrule.1
    rw [hopen] at hclosed
    cases hclosed
  · rintro g op rfl
    cases g with
    | none => cases op <;> first | rfl | exact hrule.elim
    | some g =>
      cases op
      case set key record ttlMs => exact (hcurrent g hrule.2.1).elim
      case publishIfOwner key token record ttlMs => exact (hcurrent g hrule.2.1).elim
      all_goals rfl
  · rintro event rfl
    have hopen : (r.at n).closed = false := hrule.1
    rw [hopen] at hclosed
    cases hclosed

theorem inflight_step {n : ℕ}
    (hbarred : ∀ j a, r.Does n j a → ∀ key id opts, a ≠ .trackInflight key id opts) :
    (r.at (n + 1)).inflight.Sub (r.at n).inflight := by
  rcases hget : r.trace[n]? with _ | x
  · have hsame : r.at (n + 1) = r.at n := stateAt_succ_of_none hget
    rw [hsame]
    exact .refl _
  · rw [at_succ hget]
    cases x with
    | own j a => exact inflight_apply _ (hbarred j a hget)
    | env e => exact (env_apply (r.at n) e).2.2.2.2

/-- **Close is terminal.**  From the call of `close` on no act fills the L1, the stale or
the negative map, tracks a load, dispatches a write to the shared tier or publishes an
event, and none of the local maps gains an entry. -/
theorem close_is_terminal {i n : ℕ}
    {t : CacheTask V}
    (ht : r.tasks[i]? = some t) (hcall : t.call = .close) (hn : t.started ≤ n) :
    (∀ j a, r.Does n j a → Barred a) ∧
      (∀ x, (r.at (n + 1)).holds x → (r.at n).holds x) ∧
      (r.at (n + 1)).inflight.Sub (r.at n).inflight := by
  have hbarred : ∀ j a, r.Does n j a → Barred a := by
    intro j a hdoes
    rcases closes ht hcall with hclosed | ⟨hclose, hclosed⟩
    · exact barred_of_closed (closed_mono hn hclosed) hdoes
    · rcases Nat.lt_or_eq_of_le hn with hlt | rfl
      · exact barred_of_closed (closed_mono hlt hclosed) hdoes
      · -- the act is `close` itself
        have hsame := Option.some.inj (hclose.symm.trans hdoes)
        obtain ⟨-, rfl⟩ : i = j ∧ Act.close = a := by simpa using hsame
        exact ⟨rfl, nofun, nofun, nofun⟩
  refine ⟨hbarred, ?_, inflight_step fun j a hdoes => (hbarred j a hdoes).tracks⟩
  intro x hx
  by_contra hnew
  rcases Nat.lt_or_ge n r.trace.length with hlt | hge
  · obtain ⟨j, a, hdoes, hputs⟩ := put_of_new hlt hx hnew
    obtain ⟨o, g, hplaces⟩ := Act.places_of_puts hputs
    rw [(hbarred j a hdoes).places] at hplaces
    cases hplaces
  · have hsame : r.at (n + 1) = r.at n := stateAt_succ_of_none (List.getElem?_eq_none hge)
    rw [hsame] at hx
    exact hnew hx

/-- A `set` is under way when the cache is closed. -/
def closedMidway : Run ℕ :=
  demo quietConfig [] [.start (.set theKey 1 {}), .start .close, .resume 0 healthy]

theorem close_is_terminal_midway :
    (∀ j a, closedMidway.Does 3 j a → Barred a) ∧
      (∀ x, (closedMidway.at 4).holds x → (closedMidway.at 3).holds x) ∧
      (closedMidway.at 4).inflight.Sub (closedMidway.at 3).inflight :=
  close_is_terminal (i := 1) (n := 3) (t := closedMidway.tasks[1]) rfl rfl (by decide)

end Run

/-! ### Trust -/

/-- A status or a malformed event that makes what is cached locally untrustworthy. -/
def Call.revokes (cfg : Config V) : Call V → Bool
  | .status st => st.revokes
  | .event raw => raw.decoded.isNone && !(raw.isObject && foreignScope cfg raw.scope)
  | _ => false

/-- The acts by which trust is lost. -/
def Act.revokes : Act V → Bool
  | .busStatus status => status.revokes
  | .markInvalidationUntrusted => true
  | _ => false

/-- A lookup that is answered from this entry. -/
def Act.answeredBy (s : State V) : Act V → LocalEntry → Prop
  | .readL1 g _, x => ∃ e, x = .l1 g.storageKey e ∧ s.holds x
  | .seekL1 key _, x => ∃ e, x = .l1 key e ∧ s.holds x
  | .staleHit key _, x => ∃ e, x = .stale key e ∧ s.holds x
  | .negativeHit key, x => ∃ e, x = .negative key e ∧ s.holds x
  | _, _ => False

theorem Act.holds_of_answeredBy {s : State V} {a : Act V} {x : LocalEntry}
    (h : a.answeredBy s x) : s.holds x := by
  cases a
  case readL1 => exact h.choose_spec.2
  case seekL1 => exact h.choose_spec.2
  case staleHit => exact h.choose_spec.2
  case negativeHit => exact h.choose_spec.2
  all_goals exact h.elim

theorem Act.bumps_of_revokes {s : State V} {a : Act V} (h : a.revokes = true) :
    a.bumps cfg s = true := by
  cases a
  case busStatus status => exact h
  case markInvalidationUntrusted => rfl
  all_goals cases h

/-- What every loss of trust drops is all there is. -/
theorem not_holds_dropLocal (s : State V) (x : LocalEntry) : ¬ s.dropLocal.holds x := by
  intro h
  cases x with
  | l1 key e =>
    have hmiss : matchesPattern key.text [asterisk] = false :=
      (Mem.entry_deleteByPattern le_rfl h).1
    rw [matchesPattern_asterisk] at hmiss
    cases hmiss
  | stale key e => cases h
  | negative key e => cases h

theorem not_holds_of_revokes (s : State V) {a : Act V} (h : a.revokes = true) (x : LocalEntry) :
    ¬ (a.apply cfg s).holds x := by
  cases a
  case busStatus status =>
    have hrev : status.revokes = true := h
    rw [Act.apply, if_pos hrev]
    exact not_holds_dropLocal _ x
  case markInvalidationUntrusted => exact not_holds_dropLocal _ x
  all_goals cases h

/-- A loss of trust is one, and it is counted. -/
theorem core_of_revokes (s : State V) {a : Act V} (h : a.revokes = true) :
    (a.apply cfg s).invalidationTrusted = false ∧
      (a.apply cfg s).invalidationRevision = s.invalidationRevision + 1 := by
  cases a
  case busStatus status =>
    have hrev : status.revokes = true := h
    have hcore := @core_busStatus V cfg s status
    rw [if_pos hrev] at hcore
    exact ⟨congrArg Core.invalidationTrusted hcore, congrArg Core.invalidationRevision hcore⟩
  case markInvalidationUntrusted =>
    have hcore := core_markInvalidationUntrusted s
    exact ⟨congrArg Core.invalidationTrusted hcore, congrArg Core.invalidationRevision hcore⟩
  all_goals cases h

/-- Only `trust` makes the cache trust again. -/
theorem trusted_apply {s : State V} {a : Act V} (hnot : ∀ revision, a ≠ .trust revision)
    (h : (a.apply cfg s).invalidationTrusted = true) :
    s.invalidationTrusted = true ∧ a.revokes = false := by
  rcases hrev : a.revokes with _ | _
  · refine ⟨?_, rfl⟩
    rcases hgov : a.governs with _ | _
    · have hcore : (a.apply cfg s).invalidationTrusted = s.invalidationTrusted :=
        congrArg Core.invalidationTrusted (core_apply s hgov)
      rwa [hcore] at h
    have hsat : ∀ {k k' : Core}, Core.Saturates k k' →
        k'.invalidationTrusted = k.invalidationTrusted := by
      rintro k k' (rfl | ⟨-, rfl⟩)
      · rfl
      · rfl
    have hsame : ∀ {k : Core}, (a.apply cfg s).core = k →
        k.invalidationTrusted = s.invalidationTrusted → s.invalidationTrusted = true := by
      intro k hk hk'
      have heq : (a.apply cfg s).invalidationTrusted = k.invalidationTrusted :=
        congrArg Core.invalidationTrusted hk
      rwa [heq, hk'] at h
    cases a
    case observeKey o g mutate => exact hsame (core_observeKey s g.key mutate) rfl
    case releaseKey g => exact hsame (core_releaseKey s g) rfl
    case invalidateKey g generation =>
      refine hsame rfl ((hsat (core_invalidateKey s g generation)).trans ?_)
      rw [core_observeKey]
      rfl
    case advanceGeneration key generation =>
      exact hsame rfl (hsat (core_advanceGenerationAfterRemoteSet s key generation))
    case saturate => exact hsame rfl (hsat (core_saturateGenerationTracking s))
    case deleteByPatternLocal pattern => exact hsame (core_deleteByPatternLocal s pattern) rfl
    case busStatus status =>
      refine hsame (core_busStatus s status) ?_
      have hkeep : status.revokes = false := hrev
      rw [hkeep]
      rfl
    case restoreFlush revision => exact hsame (core_restoreFlush s) rfl
    case trust revision => exact absurd rfl (hnot revision)
    case close => exact hsame (core_close s) rfl
    case markInvalidationUntrusted => cases hrev
    all_goals cases hgov
  · rw [(core_of_revokes s hrev).1] at h
    cases h

namespace Run

variable {r : Run V}

/-- A status or event that revokes trust does so at once, if the cache listens. -/
theorem revokes_at {i : ℕ} {t : CacheTask V}
    (ht : r.tasks[i]? = some t) (hcall : t.call.revokes r.cfg = true)
    (hopen : (r.at t.started).closed = false) :
    ∃ a, a.revokes = true ∧ r.Does t.started i a := by
  cases hc : t.call
  case status status =>
    rw [hc] at hcall
    refine ⟨.busStatus status, hcall, does_of_opening ht (k := 0) ?_⟩
    have hopening : opening r.system.toWorld (t.call.body r.cfg) (r.at t.started) =
        opening r.system.toWorld (onStatus status) (r.at t.started) := by
      rw [hc]
      exact opening_map ..
    rw [hopening, onStatus]
    change (opening r.system.toWorld (if (r.at t.started).closed = true then pure () else _)
      (r.at t.started))[0]? = _
    rw [hopen]
    rfl
  case event raw =>
    rw [hc] at hcall
    simp only [Call.revokes, Bool.and_eq_true, Bool.not_eq_true', Option.isNone_iff_eq_none]
      at hcall
    refine ⟨.markInvalidationUntrusted, rfl, does_of_opening ht (k := 0) ?_⟩
    have hopening : opening r.system.toWorld (t.call.body r.cfg) (r.at t.started) =
        opening r.system.toWorld (onEvent r.cfg raw) (r.at t.started) := by
      rw [hc]
      exact opening_map ..
    rw [hopening, onEvent, hcall.1]
    change (opening r.system.toWorld (if ((r.at t.started).closed ||
      (raw.isObject && foreignScope r.cfg raw.scope)) = true then _ else _)
      (r.at t.started))[0]? = _
    rw [hopen, hcall.2]
    rfl
  all_goals
    rw [hc] at hcall
    cases hcall

/-- After a loss of trust whatever the local tiers hold was put there since. -/
theorem flushed {m n i : ℕ} {a : Act V} {x : LocalEntry} (hdoes : r.Does m i a)
    (hrev : a.revokes = true) (hmn : m < n) (hn : n ≤ r.trace.length) (hx : (r.at n).holds x) :
    ∃ k j b, m < k ∧ k < n ∧ r.Does k j b ∧ b.puts x := by
  rcases put_since (Nat.succ_le_of_lt hmn) hn hx with hold | ⟨k, j, b, hk, hlt, hb, hputs⟩
  · rw [at_succ_own hdoes] at hold
    exact absurd hold (not_holds_of_revokes _ hrev x)
  · exact ⟨k, j, b, by omega, hlt, hb, hputs⟩

/-- A guard from before a loss of trust is never one under which something is placed
after it. -/
theorem taken_since_revocation {m n k i j l : ℕ} {a b take : Act V} {o : Origin}
    {g : MutationGuard} (hrevokes : r.Does m i a) (hrev : a.revokes = true) (hmn : m < n)
    (hplaces : b.places = some (o, g)) (hb : r.Does n j b) (htake : r.Does k l take)
    (htakes : Takes take g.base) : m ≤ k := by
  by_contra hlt
  have hbase : g.base = g.base.base := rfl
  have hobsolete : (r.at n).isCurrent r.cfg g = false :=
    obsolete (lt_length hb).le htake htakes hrevokes (by omega) hmn
      (.inr (Act.bumps_of_revokes hrev)) hbase
  rw [(placed hb hplaces).2.2] at hobsolete
  cases hobsolete

/-- A lookup is answered only while the cache is open. -/
theorem open_of_answeredBy {n j : ℕ} {a : Act V} {x : LocalEntry} (hdoes : r.Does n j a)
    (h : a.answeredBy (r.at n) x) : (r.at n).closed = false := by
  obtain ⟨t, -, -, hrule⟩ := rule hdoes
  cases a
  case readL1 g hit => exact hrule.2.1.opened
  case seekL1 key found => exact hrule.1.opened
  case staleHit key v =>
    have hlive : (r.at n).staleLive r.cfg key = some v := hrule
    rw [State.staleLive] at hlive
    split at hlive
    · cases hlive
    · rename_i hon
      simp only [Bool.or_eq_true, Bool.not_eq_true', not_or, Bool.not_eq_true] at hon
      exact hon.1.1
  case negativeHit key =>
    have hlive : (r.at n).negativeLive r.cfg key = true := hrule
    simp only [State.negativeLive, Bool.and_eq_true, Bool.not_eq_true'] at hlive
    exact hlive.1.1.1
  all_goals exact h.elim

/-- Trust was set at `k`, by a restore whose flush stands at `m`, and has lasted until `n`. -/
structure TrustedSince (r : Run V) (m k n : ℕ) : Prop where
  order : m < k ∧ k < n
  restored : ∃ i revision, r.Does m i (.restoreFlush revision) ∧ r.Does k i (.trust revision)
  before : (r.at k).invalidationTrusted = false
  lasts : ∀ j, k < j → j ≤ n → (r.at j).invalidationTrusted = true
  quiet : ∀ j i a, m ≤ j → j < n → r.Does j i a → a.revokes = false

/-- Between its flush and the moment it trusts again a restore has seen no loss of trust. -/
theorem quiet_of_trust {m k i : ℕ} {revision : ℕ} (hflush : r.Does m i (.restoreFlush revision))
    (htrust : r.Does k i (.trust revision)) {j l : ℕ} {a : Act V} (hmj : m ≤ j) (hjk : j < k)
    (hdoes : r.Does j l a) : a.revokes = false := by
  obtain ⟨_, -, -, hrevision⟩ := rule hflush
  obtain ⟨_, -, -, -, hmay⟩ := rule htrust
  by_contra hrevokes
  rw [Bool.not_eq_false] at hrevokes
  have hstep := (@core_of_revokes V r.cfg (r.at j) _ hrevokes).2
  rw [← at_succ_own hdoes] at hstep
  have hle : (r.at m).invalidationRevision ≤ (r.at j).invalidationRevision := (ages hmj).revision
  have hle' : (r.at (j + 1)).invalidationRevision ≤ (r.at k).invalidationRevision :=
    (ages hjk).revision
  simp only [State.mayTrust, Bool.and_eq_true, decide_eq_true_eq] at hmay
  have hm : revision = (r.at m).invalidationRevision := hrevision
  omega

theorem trustedSince (hsub : (r.cfg.eventBus && r.cfg.subscribes) = true) (n : ℕ)
    (hn : n ≤ r.trace.length) :
    (r.at n).invalidationTrusted = true → ∃ m k, r.TrustedSince m k n := by
  induction n with
  | zero =>
    intro h
    have hinit : (r.at 0).invalidationTrusted = !(r.cfg.eventBus && r.cfg.subscribes) := rfl
    rw [hinit, hsub] at h
    cases h
  | succ n ih =>
    intro h
    have hget : r.trace[n]? = some r.trace[n] := List.getElem?_eq_getElem (by omega)
    -- what happens while the cache trusts already
    have hkeep : (r.at n).invalidationTrusted = true →
        (∀ i a, r.Does n i a → a.revokes = false) → ∃ m k, r.TrustedSince m k (n + 1) := by
      intro htrusted hquiet
      obtain ⟨m, k, hold⟩ := ih (by omega) htrusted
      refine ⟨m, k, ⟨hold.order.1, by have := hold.order.2; omega⟩, hold.restored, hold.before,
        ?_, ?_⟩
      · intro j hkj hj
        rcases Nat.lt_or_eq_of_le hj with hlt | rfl
        · exact hold.lasts j hkj (by omega)
        · exact h
      · intro j i a hmj hj hdoes
        rcases Nat.lt_succ_iff_lt_or_eq.mp hj with hlt | rfl
        · exact hold.quiet j i a hmj hlt hdoes
        · exact hquiet i a hdoes
    rcases hx : r.trace[n] with ⟨i, a⟩ | e
    · rw [hx] at hget
      have hdoes : r.Does n i a := hget
      have hown : ∀ j b, r.Does n j b → b = a := by
        intro j b hb
        have hsame := Option.some.inj (hb.symm.trans hdoes)
        cases hsame
        rfl
      by_cases htrust : ∃ revision, a = .trust revision
      · obtain ⟨revision, rfl⟩ := htrust
        rcases hbefore : (r.at n).invalidationTrusted with _ | _
        · -- this is the restore that sets it
          obtain ⟨-, -, -, hflush, -⟩ := rule hdoes
          obtain ⟨m, hm, hmdoes⟩ := does_of_mem hflush
          refine ⟨m, n, ⟨hm, Nat.lt_succ_self n⟩, ⟨i, revision, hmdoes, hdoes⟩, hbefore, ?_, ?_⟩
          · intro j hnj hj
            obtain rfl : j = n + 1 := by omega
            exact h
          · intro j l b hmj hj hb
            rcases Nat.lt_succ_iff_lt_or_eq.mp hj with hlt | rfl
            · exact quiet_of_trust hmdoes hdoes hmj hlt hb
            · rw [hown l b hb]
              rfl
        · refine hkeep hbefore fun j b hb => ?_
          rw [hown j b hb]
          rfl
      · rw [at_succ_own hdoes] at h
        obtain ⟨htrusted, hquiet⟩ := trusted_apply (fun revision heq => htrust ⟨revision, heq⟩) h
        rw [← at_succ_own hdoes] at h
        refine hkeep htrusted fun j b hb => ?_
        rw [hown j b hb]
        exact hquiet
    · rw [hx] at hget
      have hcore : (r.at (n + 1)).core = (r.at n).core := by
        rw [at_succ hget]
        exact core_env (r.at n) e
      have htrusted : (r.at (n + 1)).invalidationTrusted = (r.at n).invalidationTrusted :=
        congrArg Core.invalidationTrusted hcore
      rw [htrusted] at h
      refine hkeep h fun j b hb => ?_
      cases Option.some.inj (hb.symm.trans hget)

/-- **The trust barrier.**  For a status or a malformed event that revokes trust:

* a lookup that is answered from a local entry afterwards is answered from one that was
  put there since;
* while a subscribing cache trusts, none has arrived since the flush of the restore that
  made it trust;
* an entry of the L1 that is readable afterwards was put there since, under a guard that
  was taken since. -/
theorem trust_barrier (r : Run V) :
    (∀ (i : ℕ) (t : CacheTask V) (n j : ℕ) a x, r.tasks[i]? = some t →
      t.call.revokes r.cfg = true → t.started < n → r.Does n j a → a.answeredBy (r.at n) x →
      ∃ k l b, t.started < k ∧ k < n ∧ r.Does k l b ∧ b.puts x) ∧
    ((r.cfg.eventBus && r.cfg.subscribes) = true →
      ∀ n, n ≤ r.trace.length → (r.at n).invalidationTrusted = true →
        ∃ m k, r.TrustedSince m k n ∧
          ∀ (i : ℕ) (t : CacheTask V), r.tasks[i]? = some t → t.call.revokes r.cfg = true →
            (r.at t.started).closed = false → m ≤ t.started → n ≤ t.started) ∧
    ∀ n key e, n ≤ r.trace.length → (r.at n).l1Entry key = some e →
      ∀ (i : ℕ) (t : CacheTask V), r.tasks[i]? = some t → t.call.revokes r.cfg = true →
        (r.at t.started).closed = false → t.started < n →
        ∃ k j a o g, t.started < k ∧ k < n ∧ r.Does k j a ∧ a.puts (.l1 key e) ∧
          a.places = some (o, g) ∧
          ∀ m l take, r.Does m l take → Takes take g.base → t.started ≤ m := by
  refine ⟨?_, ?_, ?_⟩
  · intro i t n j a x ht hcall hlt hdoes hanswered
    rcases hopen : (r.at t.started).closed with _ | _
    · obtain ⟨b, hrev, hb⟩ := revokes_at ht hcall hopen
      exact flushed hb hrev hlt (lt_length hdoes).le (Act.holds_of_answeredBy hanswered)
    · -- a closed cache answers nothing
      have hclosed : (r.at n).closed = true := closed_mono hlt.le hopen
      rw [open_of_answeredBy hdoes hanswered] at hclosed
      cases hclosed
  · intro hsub n hn htrusted
    obtain ⟨m, k, hsince⟩ := trustedSince hsub n hn htrusted
    refine ⟨m, k, hsince, ?_⟩
    intro i t ht hcall hopen hm
    by_contra hlt
    obtain ⟨b, hrev, hb⟩ := revokes_at ht hcall hopen
    rw [hsince.quiet t.started i b hm (by omega) hb] at hrev
    cases hrev
  · intro n key e hn hentry i t ht hcall hopen hlt
    obtain ⟨b, hrev, hb⟩ := revokes_at ht hcall hopen
    obtain ⟨k, j, a, hk, hkn, ha, hputs⟩ := flushed (x := .l1 key e) hb hrev hlt hn hentry
    obtain ⟨o, g, hplaces⟩ := Act.places_of_puts hputs
    refine ⟨k, j, a, o, g, hk, hkn, ha, hputs, hplaces, ?_⟩
    intro m l take htake htakes
    exact taken_since_revocation hb hrev hk hplaces ha htake htakes

end Run

end HybridCache
