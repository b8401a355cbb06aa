/-
The circuit breaker in front of L2 (`circuitBreaker.ts`, as `runL2` uses it).

A call asks `canCall` and, when it is admitted, captures `currentEpoch` in the
same turn; whenever it ends it reports with `recordSuccess(epoch)` or
`recordFailure(epoch)`.  Calls end in any order, so a report may come from an
epoch that is long over.

* `canCall`, `recordSuccess`, `recordFailure` — the class, with the clock it read
  as an argument;
* `Inv` — what relates the breaker to the calls that are still out, preserved by
  `inv_step`;
* `history` — what `failures` counts while the breaker is closed;
* `breaker_contract` — probes, late outcomes, and the two ways to open.

The epoch does not advance when a probe closes the breaker.  Late results of that
epoch are harmless because it had one call only, the probe itself (`Inv.probe`).
-/
import LazyLayers.Runs
import Mathlib.Order.Interval.Finset.Nat

open Runs Finset

namespace CircuitBreaker

/-! ### The class -/

inductive BreakerState
  | closed
  | opened
  | halfOpen
  deriving DecidableEq, Repr

/-- `CircuitBreakerOptions`; an absent option is `none`. -/
structure Options where
  enabled : Option Bool
  failureThreshold : Option ℚ
  cooldownMs : Option ℚ

def defaultBreakerFailureThreshold : ℚ := 3

def defaultBreakerCooldownMs : ℚ := 30 * 1000

def Options.getFailureThreshold (o : Options) : ℚ :=
  o.failureThreshold.getD defaultBreakerFailureThreshold

def Options.getCooldownMs (o : Options) : ℚ := o.cooldownMs.getD defaultBreakerCooldownMs

structure Breaker where
  state : BreakerState
  failures : ℕ
  openedAt : ℤ
  epoch : ℕ
  probeInFlight : Bool
  deriving DecidableEq, Repr

def Breaker.init : Breaker := ⟨.closed, 0, 0, 0, false⟩

/-- The transition from open to half-open at the top of `canCall`. -/
def Breaker.cool (o : Options) (now : ℤ) (b : Breaker) : Breaker :=
  if b.state = .opened ∧ o.getCooldownMs ≤ ((now - b.openedAt : ℤ) : ℚ) then
    { b with state := .halfOpen, epoch := b.epoch + 1, probeInFlight := false }
  else b

/-- `canCall()`: the answer, and the breaker afterwards. -/
def Breaker.canCall (o : Options) (now : ℤ) (b : Breaker) : Bool × Breaker :=
  if o.enabled = some false then (true, b)
  else if b.state = .closed then (true, b)
  else if (b.cool o now).state = .halfOpen then
    if (b.cool o now).probeInFlight then (false, b.cool o now)
    else (true, { b.cool o now with probeInFlight := true })
  else (false, b.cool o now)

/-- `recordSuccess(epoch)` -/
def Breaker.recordSuccess (o : Options) (epoch : Option ℕ) (b : Breaker) : Breaker :=
  if o.enabled = some false then b
  else if epoch.isSome ∧ epoch ≠ some b.epoch then b
  else { b with state := .closed, probeInFlight := false, failures := 0, openedAt := 0 }

/-- `open()` -/
def Breaker.open (now : ℤ) (b : Breaker) : Breaker :=
  { b with state := .opened, openedAt := now, epoch := b.epoch + 1, probeInFlight := false }

/-- `recordFailure(epoch)`; what it returns is the state of the result. -/
def Breaker.recordFailure (o : Options) (epoch : Option ℕ) (now : ℤ) (b : Breaker) : Breaker :=
  if o.enabled = some false then b
  else if epoch.isSome ∧ epoch ≠ some b.epoch then b
  else if b.state = .halfOpen then b.open now
  else if o.getFailureThreshold ≤ ((b.failures + 1 : ℕ) : ℚ) then
    { b with failures := b.failures + 1 }.open now
  else { b with failures := b.failures + 1 }

/-! ### The calls -/

/-- An admitted call: the epoch it captured, and whether it has not ended yet. -/
structure Call where
  epoch : ℕ
  outstanding : Bool
  deriving DecidableEq, Repr

structure System where
  breaker : Breaker
  calls : List Call
  deriving DecidableEq, Repr

def System.init : System := ⟨Breaker.init, []⟩

/-- Call `i` is outstanding and was admitted in the current epoch. -/
def System.Current (s : System) (i : ℕ) : Prop :=
  s.calls[i]? = some ⟨s.breaker.epoch, true⟩

instance (s : System) (i : ℕ) : Decidable (s.Current i) :=
  inferInstanceAs (Decidable (_ = _))

/-- `now` is what the clock showed, should the method read it. -/
inductive Event
  | call (now : ℤ)
  | success (i : ℕ)
  | failure (i : ℕ) (now : ℤ)

/-- The call whose outcome is recorded. -/
def Event.subject : Event → Option ℕ
  | .call _ => none
  | .success i => some i
  | .failure i _ => some i

/-- One turn; a call that is not outstanding has nothing to report. -/
def step (o : Options) (s : System) : Event → System
  | .call now =>
    match s.breaker.canCall o now with
    | (true, b) => ⟨b, s.calls ++ [⟨b.epoch, true⟩]⟩
    | (false, b) => ⟨b, s.calls⟩
  | .success i =>
    match s.calls[i]? with
    | some ⟨e, true⟩ => ⟨s.breaker.recordSuccess o (some e), s.calls.set i ⟨e, false⟩⟩
    | _ => s
  | .failure i now =>
    match s.calls[i]? with
    | some ⟨e, true⟩ => ⟨s.breaker.recordFailure o (some e) now, s.calls.set i ⟨e, false⟩⟩
    | _ => s

variable {o : Options} {s : System} {b : Breaker} {now : ℤ} {a : Event} {i : ℕ}

/-! ### What one turn can do -/

/-- The four answers of `canCall`. -/
theorem canCall_cases :
    (b.canCall o now = (true, b) ∧ (o.enabled = some false ∨ b.state = .closed)) ∨
    (b.canCall o now = (false, b) ∧ o.enabled ≠ some false ∧ b.state ≠ .closed) ∨
    (b.canCall o now = (true, { b with probeInFlight := true }) ∧ o.enabled ≠ some false ∧
      b.state = .halfOpen ∧ b.probeInFlight = false) ∨
    (b.canCall o now = (true, ⟨.halfOpen, b.failures, b.openedAt, b.epoch + 1, true⟩) ∧
      o.enabled ≠ some false ∧ b.state = .opened) := by
  unfold Breaker.canCall
  by_cases hoff : o.enabled = some false
  · exact Or.inl ⟨by rw [if_pos hoff], Or.inl hoff⟩
  rw [if_neg hoff]
  by_cases hclosed : b.state = .closed
  · exact Or.inl ⟨by rw [if_pos hclosed], Or.inr hclosed⟩
  rw [if_neg hclosed]
  by_cases hcool : b.state = .opened ∧ o.getCooldownMs ≤ ((now - b.openedAt : ℤ) : ℚ)
  · have hb : b.cool o now = ⟨.halfOpen, b.failures, b.openedAt, b.epoch + 1, false⟩ := by
      rw [Breaker.cool, if_pos hcool]
    refine Or.inr (Or.inr (Or.inr ⟨?_, hoff, hcool.1⟩))
    rw [hb, if_pos rfl, if_neg (by simp)]
  · have hb : b.cool o now = b := by rw [Breaker.cool, if_neg hcool]
    rw [hb]
    by_cases hhalf : b.state = .halfOpen
    · rw [if_pos hhalf]
      by_cases hprobe : b.probeInFlight = true
      · exact Or.inr (Or.inl ⟨by rw [if_pos hprobe], hoff, hclosed⟩)
      · refine Or.inr (Or.inr (Or.inl ⟨by rw [if_neg hprobe], hoff, hhalf, ?_⟩))
        simpa using hprobe
    · exact Or.inr (Or.inl ⟨by rw [if_neg hhalf], hoff, hclosed⟩)

/-- An outcome of another epoch is ignored, and so is every outcome when the breaker is off. -/
theorem recordSuccess_stale {e : ℕ} (h : e ≠ b.epoch ∨ o.enabled = some false) :
    b.recordSuccess o (some e) = b := by
  unfold Breaker.recordSuccess
  split
  · rfl
  · next hon => rw [if_pos ⟨rfl, by simpa using h.resolve_right hon⟩]

theorem recordFailure_stale {e : ℕ} (h : e ≠ b.epoch ∨ o.enabled = some false) :
    b.recordFailure o (some e) now = b := by
  unfold Breaker.recordFailure
  split
  · rfl
  · next hon => rw [if_pos ⟨rfl, by simpa using h.resolve_right hon⟩]

theorem recordSuccess_current (hon : o.enabled ≠ some false) :
    b.recordSuccess o (some b.epoch) = ⟨.closed, 0, 0, b.epoch, false⟩ := by
  rw [Breaker.recordSuccess, if_neg hon, if_neg (by simp)]

theorem recordFailure_current (hon : o.enabled ≠ some false) :
    b.recordFailure o (some b.epoch) now =
      if b.state = .halfOpen then b.open now
      else if o.getFailureThreshold ≤ ((b.failures + 1 : ℕ) : ℚ) then
        { b with failures := b.failures + 1 }.open now
      else { b with failures := b.failures + 1 } := by
  rw [Breaker.recordFailure, if_neg hon, if_neg (by simp)]

/-- Everything that one turn can do. -/
inductive Turn (o : Options) : System → Event → System → Prop
  /-- The call is refused, or there is nothing to report. -/
  | idle {s : System} {a : Event} (nothing : ∀ i, a.subject = some i → ¬ s.Current i) :
      Turn o s a s
  | pass {s : System} {now : ℤ} (closed : s.breaker.state = .closed) :
      Turn o s (.call now) ⟨s.breaker, s.calls ++ [⟨s.breaker.epoch, true⟩]⟩
  | probe {s : System} {now : ℤ} (half : s.breaker.state = .halfOpen)
      (free : s.breaker.probeInFlight = false) :
      Turn o s (.call now)
        ⟨{ s.breaker with probeInFlight := true }, s.calls ++ [⟨s.breaker.epoch, true⟩]⟩
  | cool {s : System} {now : ℤ} (opened : s.breaker.state = .opened) :
      Turn o s (.call now)
        ⟨⟨.halfOpen, s.breaker.failures, s.breaker.openedAt, s.breaker.epoch + 1, true⟩,
          s.calls ++ [⟨s.breaker.epoch + 1, true⟩]⟩
  /-- The outcome of a call of another epoch, or of any call when the breaker is off. -/
  | stale {s : System} {a : Event} {i e : ℕ} (subject : a.subject = some i)
      (outstanding : s.calls[i]? = some ⟨e, true⟩)
      (ignored : e ≠ s.breaker.epoch ∨ o.enabled = some false) :
      Turn o s a ⟨s.breaker, s.calls.set i ⟨e, false⟩⟩
  | close {s : System} {i : ℕ} (current : s.Current i) :
      Turn o s (.success i)
        ⟨⟨.closed, 0, 0, s.breaker.epoch, false⟩, s.calls.set i ⟨s.breaker.epoch, false⟩⟩
  /-- The probe fails. -/
  | reopen {s : System} {i : ℕ} {now : ℤ} (current : s.Current i)
      (half : s.breaker.state = .halfOpen) :
      Turn o s (.failure i now) ⟨s.breaker.open now, s.calls.set i ⟨s.breaker.epoch, false⟩⟩
  | trip {s : System} {i : ℕ} {now : ℤ} (on : o.enabled ≠ some false) (current : s.Current i)
      (half : s.breaker.state ≠ .halfOpen)
      (reached : o.getFailureThreshold ≤ ((s.breaker.failures + 1 : ℕ) : ℚ)) :
      Turn o s (.failure i now)
        ⟨{ s.breaker with failures := s.breaker.failures + 1 }.open now,
          s.calls.set i ⟨s.breaker.epoch, false⟩⟩
  | count {s : System} {i : ℕ} {now : ℤ} (current : s.Current i)
      (half : s.breaker.state ≠ .halfOpen) :
      Turn o s (.failure i now)
        ⟨{ s.breaker with failures := s.breaker.failures + 1 },
          s.calls.set i ⟨s.breaker.epoch, false⟩⟩

theorem turn_call (h : o.enabled = some false → s.breaker.state = .closed) :
    Turn o s (.call now) (step o s (.call now)) := by
  rcases canCall_cases (o := o) (b := s.breaker) with
    ⟨hc, hs⟩ | ⟨hc, -, -⟩ | ⟨hc, -, hs, hp⟩ | ⟨hc, -, hs⟩
  · rw [step, hc]
    exact .pass (hs.elim h id)
  · rw [step, hc]
    exact .idle nofun
  · rw [step, hc]
    exact .probe hs hp
  · rw [step, hc]
    exact .cool hs

/-- A call that is unknown or has ended has nothing to report. -/
theorem not_current {c : Option Call} (hi : s.calls[i]? = c) (hc : ∀ e, c ≠ some ⟨e, true⟩)
    (j : ℕ) (hj : some i = some j) : ¬ s.Current j := by
  obtain rfl := Option.some_inj.mp hj
  intro hcur
  exact hc _ (hi.symm.trans hcur)

theorem turn_success (i : ℕ) : Turn o s (.success i) (step o s (.success i)) := by
  rcases hi : s.calls[i]? with _ | ⟨e, _ | _⟩
  · rw [step, hi]
    exact .idle (not_current hi nofun)
  · rw [step, hi]
    exact .idle (not_current hi nofun)
  · by_cases hstale : e ≠ s.breaker.epoch ∨ o.enabled = some false
    · simp only [step, hi, recordSuccess_stale hstale]
      exact .stale rfl hi hstale
    · obtain ⟨he, hon⟩ := not_or.mp hstale
      obtain rfl := not_not.mp he
      simp only [step, hi, recordSuccess_current hon]
      exact .close hi

theorem turn_failure (i : ℕ) : Turn o s (.failure i now) (step o s (.failure i now)) := by
  rcases hi : s.calls[i]? with _ | ⟨e, _ | _⟩
  · rw [step, hi]
    exact .idle (not_current hi nofun)
  · rw [step, hi]
    exact .idle (not_current hi nofun)
  · by_cases hstale : e ≠ s.breaker.epoch ∨ o.enabled = some false
    · simp only [step, hi, recordFailure_stale hstale]
      exact .stale rfl hi hstale
    · obtain ⟨he, hon⟩ := not_or.mp hstale
      obtain rfl := not_not.mp he
      simp only [step, hi, recordFailure_current hon]
      by_cases hhalf : s.breaker.state = .halfOpen
      · rw [if_pos hhalf]
        exact .reopen hi hhalf
      rw [if_neg hhalf]
      by_cases hreached : o.getFailureThreshold ≤ ((s.breaker.failures + 1 : ℕ) : ℚ)
      · rw [if_pos hreached]
        exact .trip hon hi hhalf hreached
      · rw [if_neg hreached]
        exact .count hi hhalf

/-- A breaker that is off never leaves the closed state, so this covers every turn. -/
theorem turn (h : o.enabled = some false → s.breaker.state = .closed) (a : Event) :
    Turn o s a (step o s a) := by
  cases a with
  | call now => exact turn_call h
  | success i => exact turn_success i
  | failure i now => exact turn_failure i

/-! ### The invariant -/

/-- Epochs of calls are epochs that the breaker has reached; an open breaker has
admitted nothing in its epoch, and a half-open one its probe only. -/
structure Inv (o : Options) (s : System) : Prop where
  off : o.enabled = some false → s.breaker.state = .closed
  captured : ∀ c ∈ s.calls, c.epoch ≤ s.breaker.epoch
  opened : s.breaker.state = .opened → ∀ c ∈ s.calls, c.epoch < s.breaker.epoch
  idle : s.breaker.state = .halfOpen → s.breaker.probeInFlight = false → ∀ i, ¬ s.Current i
  probe : s.breaker.state = .halfOpen → ∀ i j, s.Current i → s.Current j → i = j

theorem inv_init : Inv o System.init :=
  ⟨fun _ => rfl, fun _ h => absurd h List.not_mem_nil, nofun, nofun, nofun⟩

theorem of_getElem?_concat {α : Type} {l : List α} {c d : α} {i : ℕ}
    (h : (l ++ [c])[i]? = some d) : l[i]? = some d ∨ i = l.length := by
  rcases Nat.lt_trichotomy i l.length with hi | hi | hi
  · rw [List.getElem?_append_left hi] at h
    exact Or.inl h
  · exact Or.inr hi
  · rw [List.getElem?_eq_none (by simp; omega)] at h
    cases h

/-- A call that has just ended is not outstanding. -/
theorem of_getElem?_ended {l : List Call} {i j e e' : ℕ}
    (h : (l.set i ⟨e, false⟩)[j]? = some ⟨e', true⟩) : j ≠ i ∧ l[j]? = some ⟨e', true⟩ := by
  by_cases hij : i = j
  · subst hij
    rw [List.getElem?_set_self'] at h
    rcases hi : l[i]? with _ | c
    · rw [hi] at h
      cases h
    · rw [hi] at h
      cases h
  · rw [List.getElem?_set_ne hij] at h
    exact ⟨Ne.symm hij, h⟩

theorem of_mem_ended {l : List Call} {i e : ℕ} {P : ℕ → Prop} (h : ∀ c ∈ l, P c.epoch)
    (hi : l[i]? = some ⟨e, true⟩) : ∀ c ∈ l.set i ⟨e, false⟩, P c.epoch := by
  intro c hc
  rcases List.mem_or_eq_of_mem_set hc with hc | rfl
  · exact h c hc
  · exact h ⟨e, true⟩ (List.mem_of_getElem? hi)

theorem System.Current.mem (h : s.Current i) : ⟨s.breaker.epoch, true⟩ ∈ s.calls :=
  List.mem_of_getElem? h

/-- A current outcome reaches a closed or a half-open breaker. -/
theorem Inv.closed (h : Inv o s) (hi : s.Current i) (hhalf : s.breaker.state ≠ .halfOpen) :
    s.breaker.state = .closed := by
  cases hs : s.breaker.state with
  | closed => rfl
  | opened => exact absurd (h.opened hs _ hi.mem) (lt_irrefl _)
  | halfOpen => exact absurd hs hhalf

/-- Opening: whatever the failures were, no call has the new epoch. -/
theorem Inv.open (h : Inv o s) (hi : s.Current i) (hon : o.enabled ≠ some false) (n : ℕ) :
    Inv o ⟨{ s.breaker with failures := n }.open now,
      s.calls.set i ⟨s.breaker.epoch, false⟩⟩ where
  off hoff := absurd hoff hon
  captured := of_mem_ended (P := (· ≤ s.breaker.epoch + 1))
    (fun c hc => Nat.le_succ_of_le (h.captured c hc)) hi
  opened _ := of_mem_ended (P := (· < s.breaker.epoch + 1))
    (fun c hc => Nat.lt_succ_of_le (h.captured c hc)) hi
  idle := nofun
  probe := nofun

/-- A breaker that is not closed is on. -/
theorem Inv.on (h : Inv o s) (hs : s.breaker.state ≠ .closed) : o.enabled ≠ some false :=
  fun hoff => hs (h.off hoff)

theorem inv_turn {s' : System} (ht : Turn o s a s') (h : Inv o s) : Inv o s' := by
  cases ht with
  | idle nothing => exact h
  | pass closed =>
    refine ⟨fun _ => closed, fun c hc => ?_, fun hs => ?_, fun hs => ?_, fun hs => ?_⟩
    · rcases List.mem_append.mp hc with hc | hc
      · exact h.captured c hc
      · rw [List.mem_singleton.mp hc]
    all_goals
      rw [closed] at hs
      cases hs
  | probe half free =>
    have hon := h.on (by rw [half]; decide)
    refine ⟨fun hoff => absurd hoff hon, fun c hc => ?_, fun hs => ?_, fun _ hp => (by cases hp),
      fun _ i j hi hj => ?_⟩
    · rcases List.mem_append.mp hc with hc | hc
      · exact h.captured c hc
      · rw [List.mem_singleton.mp hc]
    · rw [half] at hs
      cases hs
    · -- nothing was out before, so both are the call that was just admitted
      have hi := (of_getElem?_concat hi).resolve_left (h.idle half free i)
      have hj := (of_getElem?_concat hj).resolve_left (h.idle half free j)
      rw [hi, hj]
  | cool opened =>
    have hon := h.on (by rw [opened]; decide)
    refine ⟨fun hoff => absurd hoff hon, fun c hc => ?_, nofun, fun _ hp => (by cases hp),
      fun _ i j hi hj => ?_⟩
    · rcases List.mem_append.mp hc with hc | hc
      · exact Nat.le_succ_of_le (h.captured c hc)
      · rw [List.mem_singleton.mp hc]
    · have hnew : ∀ k : ℕ, s.calls[k]? ≠ some ⟨s.breaker.epoch + 1, true⟩ := by
        intro k hk
        have := h.captured _ (List.mem_of_getElem? hk)
        simp at this
      have hi := (of_getElem?_concat hi).resolve_left (hnew i)
      have hj := (of_getElem?_concat hj).resolve_left (hnew j)
      rw [hi, hj]
  | stale subject outstanding ignored =>
    refine ⟨h.off, of_mem_ended (P := (· ≤ s.breaker.epoch)) h.captured outstanding,
      fun hs => of_mem_ended (P := (· < s.breaker.epoch)) (h.opened hs) outstanding,
      fun hs hp j hj => h.idle hs hp j (of_getElem?_ended hj).2,
      fun hs j k hj hk => h.probe hs j k (of_getElem?_ended hj).2 (of_getElem?_ended hk).2⟩
  | close current =>
    exact ⟨fun _ => rfl, of_mem_ended (P := (· ≤ s.breaker.epoch)) h.captured current,
      nofun, nofun, nofun⟩
  | reopen current half =>
    exact h.open current (h.on (by rw [half]; decide)) s.breaker.failures
  | trip on current half reached => exact h.open current on _
  | count current half =>
    have hclosed := h.closed current half
    refine ⟨fun _ => hclosed, of_mem_ended (P := (· ≤ s.breaker.epoch)) h.captured current,
      fun hs => ?_, fun hs => ?_, fun hs => ?_⟩
    all_goals
      rw [hclosed] at hs
      cases hs

theorem inv_step (h : Inv o s) (a : Event) : Inv o (step o s a) := inv_turn (turn h.off a) h

/-! ### Runs -/

variable {acts : List Event} {m n : ℕ}

/-- The system after the first `n` turns of `acts`. -/
def stateOf (o : Options) (acts : List Event) (n : ℕ) : System :=
  stateAt (step o) System.init acts n

theorem inv_stateOf (o : Options) (acts : List Event) (n : ℕ) : Inv o (stateOf o acts n) :=
  invariant inv_init (fun _ a h => inv_step h a) n

theorem stateOf_succ (h : acts[n]? = some a) :
    stateOf o acts (n + 1) = step o (stateOf o acts n) a :=
  stateAt_succ h

theorem turn_at (h : acts[n]? = some a) :
    Turn o (stateOf o acts n) a (stateOf o acts (n + 1)) := by
  rw [stateOf_succ h]
  exact turn (inv_stateOf o acts n).off a

/-- An outcome that is not current leaves the breaker alone. -/
theorem Turn.breaker_eq {s' : System} (ht : Turn o s a s') (hi : a.subject = some i)
    (hcur : ¬ s.Current i) : s'.breaker = s.breaker := by
  cases ht with
  | idle nothing => rfl
  | pass closed => cases hi
  | probe half free => cases hi
  | cool opened => cases hi
  | stale subject outstanding ignored => rfl
  | close current => exact absurd (Option.some_inj.mp hi ▸ current) hcur
  | reopen current half => exact absurd (Option.some_inj.mp hi ▸ current) hcur
  | trip on current half reached => exact absurd (Option.some_inj.mp hi ▸ current) hcur
  | count current half => exact absurd (Option.some_inj.mp hi ▸ current) hcur

theorem Turn.epoch_le {s' : System} (ht : Turn o s a s') :
    s.breaker.epoch ≤ s'.breaker.epoch := by
  cases ht with
  | cool opened => exact Nat.le_succ _
  | reopen current half => exact Nat.le_succ _
  | trip on current half reached => exact Nat.le_succ _
  | _ => exact le_rfl

/-- Every transition to open or half-open begins a new epoch. -/
theorem Turn.epoch_lt {s' : System} (ht : Turn o s a s')
    (hne : s'.breaker.state ≠ s.breaker.state) (hclosed : s'.breaker.state ≠ .closed) :
    s.breaker.epoch < s'.breaker.epoch := by
  cases ht with
  | cool opened => exact Nat.lt_succ_self _
  | reopen current half => exact Nat.lt_succ_self _
  | trip on current half reached => exact Nat.lt_succ_self _
  | close current => exact absurd rfl hclosed
  | _ => exact absurd rfl hne

/-- The epoch that a call captured does not change. -/
theorem Turn.captured {s' : System} (ht : Turn o s a s') {c : Call} (hc : s.calls[i]? = some c) :
    ∃ c', s'.calls[i]? = some c' ∧ c'.epoch = c.epoch := by
  have happend : ∀ d, ∃ c', (s.calls ++ [d])[i]? = some c' ∧ c'.epoch = c.epoch := by
    intro d
    refine ⟨c, ?_, rfl⟩
    rw [List.getElem?_append_left (List.getElem?_eq_some_iff.mp hc).1, hc]
  have hset : ∀ j e, s.calls[j]? = some ⟨e, true⟩ →
      ∃ c', (s.calls.set j ⟨e, false⟩)[i]? = some c' ∧ c'.epoch = c.epoch := by
    intro j e hj
    by_cases hij : j = i
    · subst hij
      rw [hj] at hc
      obtain rfl := Option.some_inj.mp hc
      exact ⟨⟨e, false⟩, by rw [List.getElem?_set_self', hj]; rfl, rfl⟩
    · exact ⟨c, by rw [List.getElem?_set_ne hij, hc], rfl⟩
  cases ht with
  | idle nothing => exact ⟨c, hc, rfl⟩
  | pass closed => exact happend _
  | probe half free => exact happend _
  | cool opened => exact happend _
  | stale subject outstanding ignored => exact hset _ _ outstanding
  | close current => exact hset _ _ current
  | reopen current half => exact hset _ _ current
  | trip on current half reached => exact hset _ _ current
  | count current half => exact hset _ _ current

theorem epoch_mono {j : ℕ} (hij : i ≤ j) :
    (stateOf o acts i).breaker.epoch ≤ (stateOf o acts j).breaker.epoch := by
  have hstep : ∀ k a, i ≤ k → acts[k]? = some a →
      (stateOf o acts i).breaker.epoch ≤ (stateOf o acts k).breaker.epoch →
      (stateOf o acts i).breaker.epoch ≤ (step o (stateOf o acts k) a).breaker.epoch := by
    intro k a _ hk hle
    rw [← stateOf_succ hk]
    exact hle.trans (turn_at hk).epoch_le
  exact invariant_from (P := fun t : System => _ ≤ t.breaker.epoch) le_rfl hstep j hij

theorem captured_persists {c : Call} (hc : (stateOf o acts m).calls[i]? = some c) (hmn : m ≤ n) :
    ∃ c', (stateOf o acts n).calls[i]? = some c' ∧ c'.epoch = c.epoch := by
  have hstep : ∀ k a, m ≤ k → acts[k]? = some a →
      (∃ c', (stateOf o acts k).calls[i]? = some c' ∧ c'.epoch = c.epoch) →
      ∃ c', (step o (stateOf o acts k) a).calls[i]? = some c' ∧ c'.epoch = c.epoch := by
    rintro k a _ hk ⟨c', hc', he⟩
    rw [← stateOf_succ hk]
    obtain ⟨c'', hc'', he'⟩ := (turn_at hk).captured hc'
    exact ⟨c'', hc'', he'.trans he⟩
  exact invariant_from (P := fun t : System => ∃ c', t.calls[i]? = some c' ∧ c'.epoch = c.epoch)
    ⟨c, hc, rfl⟩ hstep n hmn

/-- The outcome of a call that is older than the transition at `m` changes nothing. -/
theorem late_outcome (hm : m < n)
    (hne : (stateOf o acts (m + 1)).breaker.state ≠ (stateOf o acts m).breaker.state)
    (hclosed : (stateOf o acts (m + 1)).breaker.state ≠ .closed)
    (hi : i < (stateOf o acts m).calls.length) (ha : acts[n]? = some a)
    (hsubject : a.subject = some i) :
    (stateOf o acts (n + 1)).breaker = (stateOf o acts n).breaker := by
  have hlength : n < acts.length := (List.getElem?_eq_some_iff.mp ha).1
  have htransition : acts[m]? = some acts[m] := List.getElem?_eq_getElem (by omega)
  have hc := List.getElem?_eq_getElem hi
  obtain ⟨c, hc', he⟩ := captured_persists hc hm.le
  refine (turn_at ha).breaker_eq hsubject fun hcur => ?_
  have hlt : (stateOf o acts m).breaker.epoch < (stateOf o acts n).breaker.epoch :=
    ((turn_at htransition).epoch_lt hne hclosed).trans_le (epoch_mono hm)
  have hle := (inv_stateOf o acts m).captured _ (List.mem_of_getElem? hc)
  have hnow : c.epoch = (stateOf o acts n).breaker.epoch := by
    rw [System.Current, hc'] at hcur
    rw [Option.some_inj.mp hcur]
  omega

/-! ### What the failures count -/

/-- The turn records the failure of a current call. -/
def System.fails (s : System) : Event → Bool
  | .failure i _ => decide (s.Current i)
  | _ => false

/-- The turn records the success of a current call. -/
def System.succeeds (s : System) : Event → Bool
  | .success i => decide (s.Current i)
  | _ => false

theorem fails_current (h : s.Current i) : s.fails (.failure i now) = true := decide_eq_true h

/-- How many of the turns from `m` on and before `n` record a current failure. -/
def failuresIn (o : Options) (acts : List Event) (m n : ℕ) : ℕ :=
  #{k ∈ Ico m n | acts[k]?.any (stateOf o acts k).fails}

/-- Before each of these turns the breaker was closed in epoch `e`, and none of
them recorded a current success. -/
def Quiet (o : Options) (acts : List Event) (e m n : ℕ) : Prop :=
  ∀ k, m ≤ k → k < n → (stateOf o acts k).breaker.state = .closed ∧
    (stateOf o acts k).breaker.epoch = e ∧ acts[k]?.any (stateOf o acts k).succeeds = false

theorem failuresIn_succ (ha : acts[n]? = some a) (hmn : m ≤ n) :
    failuresIn o acts m (n + 1) =
      failuresIn o acts m n + if (stateOf o acts n).fails a then 1 else 0 := by
  have hnot : n ∉ {k ∈ Ico m n | acts[k]?.any (stateOf o acts k).fails} := by simp
  rw [failuresIn, failuresIn, ← Finset.insert_Ico_right_eq_Ico_add_one hmn, filter_insert, ha]
  by_cases h : (stateOf o acts n).fails a
  · rw [if_pos (by simpa using h), card_insert_of_notMem hnot, if_pos h]
  · rw [if_neg (by simpa using h), if_neg h]
    rfl

theorem Quiet.succ {e : ℕ} (h : Quiet o acts e m n) (ha : acts[n]? = some a)
    (hclosed : (stateOf o acts n).breaker.state = .closed)
    (he : (stateOf o acts n).breaker.epoch = e) (hs : (stateOf o acts n).succeeds a = false) :
    Quiet o acts e m (n + 1) := by
  intro k hmk hkn
  rcases Nat.lt_succ_iff_lt_or_eq.mp hkn with hlt | rfl
  · exact h k hmk hlt
  · exact ⟨hclosed, he, by rw [ha]; exact hs⟩

/-- `failures` of the closed breaker `s` counts the current failures since some turn `m`,
and there was no current success since then. -/
def Counted (o : Options) (acts : List Event) (n : ℕ) (s : System) : Prop :=
  s.breaker.state = .closed → ∃ m ≤ n,
    s.breaker.failures = failuresIn o acts m n ∧ Quiet o acts s.breaker.epoch m n

/-- A turn that keeps the closed breaker and is no current failure adds nothing. -/
theorem Counted.keep {s' : System} (h : Counted o acts n (stateOf o acts n))
    (ha : acts[n]? = some a) (hb : s'.breaker = (stateOf o acts n).breaker)
    (hfails : (stateOf o acts n).fails a = false)
    (hs : (stateOf o acts n).succeeds a = false) : Counted o acts (n + 1) s' := by
  intro hclosed
  rw [hb] at hclosed ⊢
  obtain ⟨m, hm, hcount, hquiet⟩ := h hclosed
  refine ⟨m, by omega, ?_, hquiet.succ ha hclosed rfl hs⟩
  rw [failuresIn_succ ha hm, hfails]
  exact hcount

/-- The owner of a call that is not current records nothing that counts. -/
theorem not_recorded (h : ∀ i, a.subject = some i → ¬ s.Current i) :
    s.fails a = false ∧ s.succeeds a = false := by
  cases a with
  | call now => exact ⟨rfl, rfl⟩
  | success i => exact ⟨rfl, by simpa [System.succeeds] using h i rfl⟩
  | failure i now => exact ⟨by simpa [System.fails] using h i rfl, rfl⟩

theorem counted_step (hon : o.enabled ≠ some false) (ha : acts[n]? = some a)
    (h : Counted o acts n (stateOf o acts n)) :
    Counted o acts (n + 1) (stateOf o acts (n + 1)) := by
  generalize hs' : stateOf o acts (n + 1) = s'
  have ht : Turn o (stateOf o acts n) a s' := hs' ▸ turn_at ha
  cases ht with
  | idle nothing =>
    obtain ⟨hf, hs⟩ := not_recorded nothing
    exact h.keep ha rfl hf hs
  | pass closed => exact h.keep ha rfl rfl rfl
  | probe half free =>
    intro hclosed
    rw [half] at hclosed
    cases hclosed
  | cool opened => exact nofun
  | stale subject outstanding ignored =>
    have hother := ignored.resolve_right hon
    have hnot : ∀ i, a.subject = some i → ¬ (stateOf o acts n).Current i := by
      intro i hi hcur
      obtain rfl := Option.some_inj.mp (subject.symm.trans hi)
      rw [System.Current, outstanding] at hcur
      exact hother (by injection hcur with hc; injection hc)
    obtain ⟨hf, hs⟩ := not_recorded hnot
    exact h.keep ha rfl hf hs
  | close current =>
    -- the count starts again with the next turn
    refine fun _ => ⟨n + 1, le_rfl, ?_, fun k hk hkn => absurd hkn (by omega)⟩
    simp [failuresIn]
  | reopen current half => exact nofun
  | trip on current half reached => exact nofun
  | count current half =>
    intro hclosed
    obtain ⟨m, hm, hcount, hquiet⟩ := h hclosed
    refine ⟨m, by omega, ?_, hquiet.succ ha hclosed rfl rfl⟩
    rw [failuresIn_succ ha hm, if_pos (fails_current current), ← hcount]

theorem counted (hon : o.enabled ≠ some false) (hn : n ≤ acts.length) :
    Counted o acts n (stateOf o acts n) := by
  induction n with
  | zero => exact fun _ => ⟨0, le_rfl, by simp [failuresIn, stateOf, System.init, Breaker.init],
      fun k _ hk => absurd hk (by omega)⟩
  | succ n ih => exact counted_step hon (List.getElem?_eq_getElem (by omega)) (ih (by omega))

/-! ### The contract -/

/-- A closed breaker opens at the current failure that reaches the threshold. -/
theorem opens_after_threshold (ha : acts[n]? = some a)
    (hclosed : (stateOf o acts n).breaker.state = .closed)
    (hopened : (stateOf o acts (n + 1)).breaker.state = .opened) :
    ∃ m ≤ n, Quiet o acts (stateOf o acts n).breaker.epoch m (n + 1) ∧
      o.getFailureThreshold ≤ failuresIn o acts m (n + 1) := by
  have hlength : n < acts.length := (List.getElem?_eq_some_iff.mp ha).1
  generalize hs' : stateOf o acts (n + 1) = s' at hopened
  have ht : Turn o (stateOf o acts n) a s' := hs' ▸ turn_at ha
  cases ht with
  | trip on current half reached =>
    obtain ⟨m, hm, hcount, hquiet⟩ := counted on hlength.le hclosed
    refine ⟨m, hm, hquiet.succ ha hclosed rfl rfl, ?_⟩
    rw [failuresIn_succ ha hm, if_pos (fails_current current), ← hcount]
    exact reached
  | cool opened => cases hopened
  | close current => cases hopened
  | reopen current half => exact absurd (hclosed.symm.trans half) nofun
  | _ => exact absurd (hclosed.symm.trans hopened) nofun

/-- A half-open breaker opens at the failure of its probe. -/
theorem reopens_by_probe (ha : acts[n]? = some a)
    (hhalf : (stateOf o acts n).breaker.state = .halfOpen)
    (hopened : (stateOf o acts (n + 1)).breaker.state = .opened) :
    ∃ i now, a = .failure i now ∧ (stateOf o acts n).Current i := by
  generalize hs' : stateOf o acts (n + 1) = s' at hopened
  have ht : Turn o (stateOf o acts n) a s' := hs' ▸ turn_at ha
  cases ht with
  | reopen current half => exact ⟨_, _, rfl, current⟩
  | trip on current half reached => exact ⟨_, _, rfl, current⟩
  | cool opened => cases hopened
  | close current => cases hopened
  | _ => exact absurd (hhalf.symm.trans hopened) nofun

/-- Whatever the clock shows and in whatever order calls are admitted and end: a
half-open breaker has at most one call of its epoch out; a call that was admitted
before a transition to open or half-open changes nothing when it ends after it; a
closed breaker opens only after as many current failures as the threshold asks for,
with no current success among them, and a half-open one only when its probe fails;
and the epoch never decreases. -/
theorem breaker_contract (o : Options) (acts : List Event) :
    (∀ n i j, (stateOf o acts n).breaker.state = .halfOpen →
      (stateOf o acts n).Current i → (stateOf o acts n).Current j → i = j) ∧
    (∀ m n i a, m < n →
      (stateOf o acts (m + 1)).breaker.state ≠ (stateOf o acts m).breaker.state →
      (stateOf o acts (m + 1)).breaker.state ≠ .closed →
      i < (stateOf o acts m).calls.length → acts[n]? = some a → a.subject = some i →
      (stateOf o acts (n + 1)).breaker = (stateOf o acts n).breaker) ∧
    (∀ n a, acts[n]? = some a → (stateOf o acts n).breaker.state = .closed →
      (stateOf o acts (n + 1)).breaker.state = .opened →
      ∃ m ≤ n, Quiet o acts (stateOf o acts n).breaker.epoch m (n + 1) ∧
        o.getFailureThreshold ≤ failuresIn o acts m (n + 1)) ∧
    (∀ n a, acts[n]? = some a → (stateOf o acts n).breaker.state = .halfOpen →
      (stateOf o acts (n + 1)).breaker.state = .opened →
      ∃ i now, a = .failure i now ∧ (stateOf o acts n).Current i) ∧
    (∀ m n, m ≤ n → (stateOf o acts m).breaker.epoch ≤ (stateOf o acts n).breaker.epoch) := by
  refine ⟨fun n i j hhalf => (inv_stateOf o acts n).probe hhalf i j, ?_, ?_, ?_, ?_⟩
  · intro m n i a hm hne hclosed hi ha hsubject
    exact late_outcome hm hne hclosed hi ha hsubject
  · intro n a ha hclosed hopened
    exact opens_after_threshold ha hclosed hopened
  · intro n a ha hhalf hopened
    exact reopens_by_probe ha hhalf hopened
  · intro m n hmn
    exact epoch_mono hmn

/-- The first call fails; at 10 the second becomes the probe, the third is refused. -/
example : stateOf ⟨none, some 1, some 10⟩
    [.call 0, .failure 0 0, .call 9, .call 10, .call 11] 5 =
      ⟨⟨.halfOpen, 1, 0, 2, true⟩, [⟨0, false⟩, ⟨2, true⟩]⟩ := by decide

end CircuitBreaker
