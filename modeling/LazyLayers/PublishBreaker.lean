/-
The circuit breaker in front of the event bus (`circuitBreaker.ts`, as
`publishInvalidation` uses it).

A publish asks `canCall` like a call of L2 does, but it reports its outcome without an
epoch, so the breaker cannot tell that a transition lies between them.  The epoch that
was current at the admission stands in the model for comparison only.  A closed cache
and one without an event bus return before they ask the breaker; they take no turn.

* `publishTurn` — the turns of `publishInvalidation`;
* `Late` — the publish was admitted before the last transition to open or half-open;
* `Disturbs` — the late outcomes that the breaker acts on;
* `ignored_iff` — a late outcome goes unnoticed exactly when it does not disturb;
* `late_outcomes_iff` — whole runs, and that without a disturbance they are the runs of
  a breaker that is told the epochs.
-/
import LazyLayers.CircuitBreaker

open Runs CircuitBreaker

namespace EventBusBreaker

/-- One turn of `publishInvalidation`: it begins, or its `publish` has ended. -/
def publishTurn (o : Options) (s : System) : Event → System
  | .call now =>
    match s.breaker.canCall o now with
    | (true, b) => ⟨b, s.calls ++ [⟨b.epoch, true⟩]⟩
    | (false, b) => ⟨b, s.calls⟩
  | .success i =>
    match s.calls[i]? with
    | some ⟨e, true⟩ => ⟨s.breaker.recordSuccess o none, s.calls.set i ⟨e, false⟩⟩
    | _ => s
  | .failure i now =>
    match s.calls[i]? with
    | some ⟨e, true⟩ => ⟨s.breaker.recordFailure o none now, s.calls.set i ⟨e, false⟩⟩
    | _ => s

/-- The system after the first `n` turns of `acts`. -/
def stateOf (o : Options) (acts : List Event) (n : ℕ) : System :=
  stateAt (publishTurn o) System.init acts n

/-- Publish `i` is outstanding, and since its admission the breaker has opened or
become half-open: each of the two begins a new epoch, and nothing else does. -/
def Late (s : System) (i : ℕ) : Prop := ∃ e < s.breaker.epoch, s.calls[i]? = some ⟨e, true⟩

/-- The breaker acts on a late outcome: on every failure, and on a success unless the
breaker is closed and has counted no failure. -/
def Disturbs (o : Options) (s : System) : Event → Prop
  | .call _ => False
  | .success i => o.enabled ≠ some false ∧ Late s i ∧
      ¬ (s.breaker.state = .closed ∧ s.breaker.failures = 0)
  | .failure i _ => o.enabled ≠ some false ∧ Late s i

/-- A late outcome changes neither the state of the breaker nor its failure count. -/
def Ignored (o : Options) (s : System) (a : Event) : Prop :=
  ∀ i, a.subject = some i → Late s i →
    (publishTurn o s a).breaker.state = s.breaker.state ∧
      (publishTurn o s a).breaker.failures = s.breaker.failures

variable {o : Options} {s : System} {b : Breaker} {now : ℤ} {a : Event} {i n : ℕ}
  {acts : List Event}

/-! ### Reports without an epoch -/

theorem recordSuccess_off (hoff : o.enabled = some false) : b.recordSuccess o none = b := by
  rw [Breaker.recordSuccess, if_pos hoff]

theorem recordFailure_off (hoff : o.enabled = some false) :
    b.recordFailure o none now = b := by
  rw [Breaker.recordFailure, if_pos hoff]

/-- Without an epoch a report counts as one of the current epoch. -/
theorem recordSuccess_none (o : Options) (b : Breaker) :
    b.recordSuccess o none = b.recordSuccess o (some b.epoch) := by
  simp [Breaker.recordSuccess]

theorem recordFailure_none (o : Options) (b : Breaker) (now : ℤ) :
    b.recordFailure o none now = b.recordFailure o (some b.epoch) now := by
  simp [Breaker.recordFailure]

theorem recordSuccess_on (hon : o.enabled ≠ some false) :
    b.recordSuccess o none = ⟨.closed, 0, 0, b.epoch, false⟩ := by
  rw [recordSuccess_none, recordSuccess_current hon]

/-- A failure always leaves its mark. -/
theorem recordFailure_marks (hon : o.enabled ≠ some false) (now : ℤ) :
    ¬ ((b.recordFailure o none now).state = b.state ∧
      (b.recordFailure o none now).failures = b.failures) := by
  rw [recordFailure_none, recordFailure_current hon]
  split_ifs with hhalf hreached
  · -- the probe is decided
    rw [hhalf]
    rintro ⟨h, -⟩
    cases h
  · rintro ⟨-, h⟩
    exact absurd h (Nat.succ_ne_self b.failures)
  · rintro ⟨-, h⟩
    exact absurd h (Nat.succ_ne_self b.failures)

theorem turn_success_late (h : Late s i) :
    (publishTurn o s (.success i)).breaker = s.breaker.recordSuccess o none := by
  obtain ⟨e, -, he⟩ := h
  simp only [publishTurn, he]

theorem turn_failure_late (h : Late s i) :
    (publishTurn o s (.failure i now)).breaker = s.breaker.recordFailure o none now := by
  obtain ⟨e, -, he⟩ := h
  simp only [publishTurn, he]

/-- **A late outcome goes unnoticed exactly when it does not disturb**, in every state. -/
theorem ignored_iff (o : Options) (s : System) (a : Event) :
    Ignored o s a ↔ ¬ Disturbs o s a := by
  cases a with
  | call now =>
    refine iff_of_true ?_ (fun h => h)
    intro i hi
    cases hi
  | success i =>
    constructor
    · rintro hignored ⟨hon, hlate, hloud⟩
      have h := hignored i rfl hlate
      rw [turn_success_late hlate, recordSuccess_on hon] at h
      exact hloud ⟨h.1.symm, h.2.symm⟩
    · intro hquiet j hj hlate
      obtain rfl := Option.some_inj.mp hj
      rw [turn_success_late hlate]
      by_cases hoff : o.enabled = some false
      · rw [recordSuccess_off hoff]
        exact ⟨rfl, rfl⟩
      · have hclosed : s.breaker.state = .closed ∧ s.breaker.failures = 0 := by
          by_contra hloud
          exact hquiet ⟨hoff, hlate, hloud⟩
        rw [recordSuccess_on hoff]
        exact ⟨hclosed.1.symm, hclosed.2.symm⟩
  | failure i now =>
    constructor
    · rintro hignored ⟨hon, hlate⟩
      have h := hignored i rfl hlate
      rw [turn_failure_late hlate] at h
      exact recordFailure_marks hon now h
    · intro hquiet j hj hlate
      obtain rfl := Option.some_inj.mp hj
      have hoff : o.enabled = some false := by
        by_contra hon
        exact hquiet ⟨hon, hlate⟩
      rw [turn_failure_late hlate, recordFailure_off hoff]
      exact ⟨rfl, rfl⟩

/-! ### A breaker that is told the epochs -/

/-- A closed breaker has no probe out and no time of opening. -/
def Rested (b : Breaker) : Prop := b.state = .closed → b.openedAt = 0 ∧ b.probeInFlight = false

theorem rested_turn {s' : System} (ht : Turn o s a s') (h : Rested s.breaker) :
    Rested s'.breaker := by
  cases ht with
  | probe half free =>
    intro hclosed
    rw [half] at hclosed
    cases hclosed
  | cool opened => exact fun hclosed => absurd hclosed (by simp)
  | close current => exact fun _ => ⟨rfl, rfl⟩
  | reopen current half => exact fun hclosed => absurd hclosed (by simp [Breaker.open])
  | trip on current half reached => exact fun hclosed => absurd hclosed (by simp [Breaker.open])
  | _ => exact h

theorem rested_stateOf (o : Options) (acts : List Event) (n : ℕ) :
    Rested (CircuitBreaker.stateOf o acts n).breaker := by
  have h : Inv o (CircuitBreaker.stateOf o acts n) ∧
      Rested (CircuitBreaker.stateOf o acts n).breaker :=
    invariant (P := fun s : System => Inv o s ∧ Rested s.breaker)
      ⟨inv_init, fun _ => ⟨rfl, rfl⟩⟩
      (fun s a h => ⟨inv_step h.1 a, rested_turn (turn h.1.off a) h.2⟩) n
  exact h.2

/-- A turn that does not disturb is the turn of a breaker that is told the epoch. -/
theorem publishTurn_eq (hinv : Inv o s) (hrested : Rested s.breaker) (h : ¬ Disturbs o s a) :
    publishTurn o s a = step o s a := by
  cases a with
  | call now => rfl
  | success i =>
    rcases hi : s.calls[i]? with _ | ⟨e, _ | _⟩
    · simp only [publishTurn, step, hi]
    · simp only [publishTurn, step, hi]
    · have hle : e ≤ s.breaker.epoch := hinv.captured _ (List.mem_of_getElem? hi)
      have hsame : s.breaker.recordSuccess o none = s.breaker.recordSuccess o (some e) := by
        rcases hle.lt_or_eq with hlt | rfl
        · by_cases hoff : o.enabled = some false
          · rw [recordSuccess_off hoff, recordSuccess_stale (Or.inr hoff)]
          · -- the late success finds a breaker that it leaves as it is
            obtain ⟨hclosed, hfailures⟩ :
                s.breaker.state = .closed ∧ s.breaker.failures = 0 := by
              by_contra hloud
              exact h ⟨hoff, ⟨e, hlt, hi⟩, hloud⟩
            obtain ⟨hopenedAt, hprobe⟩ := hrested hclosed
            rw [recordSuccess_on hoff, recordSuccess_stale (Or.inl hlt.ne), ← hclosed,
              ← hfailures, ← hprobe, ← hopenedAt]
        · exact recordSuccess_none o _
      simp only [publishTurn, step, hi, hsame]
  | failure i now =>
    rcases hi : s.calls[i]? with _ | ⟨e, _ | _⟩
    · simp only [publishTurn, step, hi]
    · simp only [publishTurn, step, hi]
    · have hle : e ≤ s.breaker.epoch := hinv.captured _ (List.mem_of_getElem? hi)
      have hsame : s.breaker.recordFailure o none now =
          s.breaker.recordFailure o (some e) now := by
        rcases hle.lt_or_eq with hlt | rfl
        · have hoff : o.enabled = some false := by
            by_contra hon
            exact h ⟨hon, e, hlt, hi⟩
          rw [recordFailure_off hoff, recordFailure_stale (Or.inr hoff)]
        · exact recordFailure_none o _ now
      simp only [publishTurn, step, hi, hsame]

/-- Up to its first disturbance a run is one of a breaker that is told the epochs. -/
theorem stateOf_eq : ∀ n : ℕ, (∀ m < n, ∀ a, acts[m]? = some a →
      ¬ Disturbs o (stateOf o acts m) a) →
    stateOf o acts n = CircuitBreaker.stateOf o acts n := by
  intro n
  induction n with
  | zero =>
    intro _
    rfl
  | succ n ih =>
    intro hquiet
    have hbefore := ih fun m hm => hquiet m (by omega)
    rcases hget : acts[n]? with _ | a
    · -- the run is over
      rw [stateOf, CircuitBreaker.stateOf, stateAt_succ_of_none hget, stateAt_succ_of_none hget]
      exact hbefore
    · have hn := hquiet n (Nat.lt_succ_self n) a hget
      rw [CircuitBreaker.stateOf_succ hget, stateOf, stateAt_succ hget]
      rw [show stateAt (publishTurn o) System.init acts n = stateOf o acts n from rfl]
      rw [hbefore] at hn ⊢
      exact publishTurn_eq (inv_stateOf o acts n) (rested_stateOf o acts n) hn

/-- **Late outcomes at the breaker of the event bus.**  In every interleaving of
publishes with their outcomes and with the clock, for every prefix of the run: the late
outcomes in it change neither the state nor the failure count exactly when none of them
disturbs, and then the prefix is one of a breaker that is told the epochs. -/
theorem late_outcomes_iff (o : Options) (acts : List Event) (n : ℕ) :
    ((∀ m < n, ∀ a, acts[m]? = some a → Ignored o (stateOf o acts m) a) ↔
      ∀ m < n, ∀ a, acts[m]? = some a → ¬ Disturbs o (stateOf o acts m) a) ∧
    ((∀ m < n, ∀ a, acts[m]? = some a → ¬ Disturbs o (stateOf o acts m) a) →
      ∀ m ≤ n, stateOf o acts m = CircuitBreaker.stateOf o acts m) := by
  constructor
  · constructor
    · intro h m hm a ha
      exact (ignored_iff o _ a).mp (h m hm a ha)
    · intro h m hm a ha
      exact (ignored_iff o _ a).mpr (h m hm a ha)
  · intro h m hm
    exact stateOf_eq m fun k hk => h k (by omega)

/-- With the default options. -/
def defaults : Options := ⟨none, none, none⟩

/-- Four publishes begin; three fail, so that the breaker opens, and the fourth succeeds
a millisecond later. -/
def lateSuccess : List Event :=
  [.call 0, .call 0, .call 0, .call 0, .failure 0 1, .failure 1 1, .failure 2 1, .success 3]

/-- Five publishes begin; three fail, the cooldown ends, a probe begins, and the fourth
fails. -/
def lateFailure : List Event :=
  [.call 0, .call 0, .call 0, .call 0, .failure 0 0, .failure 1 0, .failure 2 0, .call 30000,
    .failure 3 30001]

/-- The late success closes the open breaker before its cooldown has elapsed, and the
late failure decides the probe of another publish. -/
theorem late_outcomes_noticed :
    (stateOf defaults lateSuccess 7).calls[3]? = some ⟨0, true⟩ ∧
    (stateOf defaults lateSuccess 7).breaker = ⟨.opened, 3, 1, 1, false⟩ ∧
    (stateOf defaults lateSuccess 8).breaker = ⟨.closed, 0, 0, 1, false⟩ ∧
    (stateOf defaults lateFailure 8).calls[3]? = some ⟨0, true⟩ ∧
    (stateOf defaults lateFailure 8).breaker = ⟨.halfOpen, 3, 0, 2, true⟩ ∧
    (stateOf defaults lateFailure 9).breaker = ⟨.opened, 3, 30001, 3, false⟩ := by
  decide +kernel

end EventBusBreaker
