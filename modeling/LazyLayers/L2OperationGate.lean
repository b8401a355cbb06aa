/-
The gate in front of the shared store, and the retention of its payloads
(`l2OperationGate.ts` and `HybridCache.runL2`).

`runL2` reserves the bytes of a call in the memory budget, hands the call to the gate
and gives the bytes back when the call has settled, or when it learns that the call was
never made.  The gate gives a slot back when the promise of the call settles, which may
be long after the caller was told that the operation timed out.

A call that the circuit breaker refuses reaches neither the budget nor the gate.  One
`Event` is one job of the event loop.  A promise is said to have settled when its
first reaction runs, and a timer fires only when no microtask is pending, so never
between `start` and the microtask that makes the call.

* `run`, `start`, `pump`, `close` — the gate;
* `Books` — the counters and the ledger agree with the calls;
* `keeps_step` — every step keeps the books, and is one of a gate that grants slots in
  order of arrival (`SlotGate`);
* `l2_contract` — slots, bytes, order, invocations and retention in every run.
-/
import LazyLayers.Runs
import LazyLayers.Tally
import LazyLayers.SlotGate
import LazyLayers.MemoryLedger

open Runs Tally MemoryLedger

namespace L2OperationGate

/-! ### Calls -/

structure Options where
  maxConcurrent : ℕ
  maxQueued : ℕ
  maxQueuedBytes : ℕ
  maxConcurrent_pos : 0 < maxConcurrent

def defaultL2GateMaxConcurrent : ℕ := 64

def defaultL2GateMaxQueued : ℕ := 1024

def defaultL2GateMaxQueuedBytes : ℕ := 32 * 1024 * 1024

/-- `defaultL2OperationGateOptions`; the constructor refuses a limit of no slots. -/
def defaultL2OperationGateOptions (maxConcurrent maxQueued maxQueuedBytes : Option ℕ)
    (hpos : ∀ n, maxConcurrent = some n → 0 < n) : Options where
  maxConcurrent := maxConcurrent.getD defaultL2GateMaxConcurrent
  maxQueued := maxQueued.getD defaultL2GateMaxQueued
  maxQueuedBytes := maxQueuedBytes.getD defaultL2GateMaxQueuedBytes
  maxConcurrent_pos := by
    rcases maxConcurrent with _ | n
    · exact Nat.zero_lt_succ 63
    · exact hpos n rfl

/-- Where a call stands: not in the gate (refused, taken out of the queue, or not yet
offered), in the queue, started with its microtask pending, made, settled with the
promise of the gate still open, or out of its slot. -/
inductive Phase
  | out
  | queued
  | starting
  | running
  | returned
  | settled
  deriving DecidableEq, Repr

/-- The call has been started, and its promise in the gate has not settled. -/
def Phase.holds : Phase → Bool
  | .starting => true
  | .running => true
  | .returned => true
  | _ => false

/-- What the promise of `gate.run` settled with. -/
inductive Outcome
  | closed
  | overloaded
  | timedOut
  | settled (ok : Bool)
  deriving DecidableEq, Repr

/-- One call of `runL2`: `took` says whether it reserved its bytes, `reserved` is the
variable of this name, `releases` counts the releases, `invocations` the calls of
`boundedCall`, and `answered` is set when the `finally` of `runL2` has run. -/
structure Call where
  bytes : ℕ
  took : Bool
  reserved : Bool
  releases : ℕ
  phase : Phase
  dispatched : Bool
  invocations : ℕ
  outcome : Option Outcome
  answered : Bool

def blankCall : Call := ⟨0, false, false, 0, .out, false, 0, none, false⟩

/-- `releaseRetention()`, on the side of the call. -/
def Call.releaseRetention (c : Call) : Call :=
  if c.reserved then { c with reserved := false, releases := c.releases + 1 } else c

/-- The slots, the bytes of the slots and the retained bytes of a call. -/
def Call.slots (c : Call) : ℕ := if c.phase.holds then 1 else 0

def Call.activeBytes (c : Call) : ℕ := if c.phase.holds then c.bytes else 0

def Call.retained (c : Call) : ℕ := if c.reserved then c.bytes else 0

/-! ### The gate -/

/-- The fields of the gate and the budget.  `jobs` are the calls whose microtask is
pending; `arrived`, `granted` and `invoked` list the calls that `run` did not refuse,
that were started and that were made, each in order. -/
structure State where
  active : ℕ
  activeBytes : ℕ
  queuedBytes : ℕ
  queue : List ℕ
  closed : Bool
  rejected : ℕ
  expired : ℕ
  commandTimeouts : ℕ
  jobs : List ℕ
  ledger : Option Ledger
  next : ℕ
  call : ℕ → Call
  arrived : List ℕ
  granted : List ℕ
  invoked : List ℕ

def State.init (ledger : Option Ledger) : State :=
  ⟨0, 0, 0, [], false, 0, 0, 0, [], ledger, 0, fun _ => blankCall, [], [], []⟩

def State.edit (s : State) (i : ℕ) (c : Call) : State :=
  { s with call := Function.update s.call i c }

/-- Call `i` becomes `c`, and then releases its retention. -/
def State.retire (s : State) (i : ℕ) (c : Call) : State :=
  { s.edit i c.releaseRetention with
    ledger := if c.reserved then s.ledger.map fun l => l.release c.bytes .queue else s.ledger }

/-- A call comes into being outside the gate. -/
def State.add (s : State) (c : Call) : State :=
  { s.edit s.next c with next := s.next + 1 }

/-- `start(operation, call, bytes)` -/
def State.start (s : State) (i : ℕ) : State :=
  { s.edit i { s.call i with phase := .starting } with
    active := s.active + 1
    activeBytes := s.activeBytes + (s.call i).bytes
    jobs := s.jobs ++ [i]
    granted := s.granted ++ [i] }

/-- `pump()` starts one waiter. -/
def State.pump (o : Options) (s : State) : State :=
  if s.closed ∨ o.maxConcurrent ≤ s.active then s
  else
    match s.queue with
    | [] => s
    | i :: rest => State.start { s with
        queue := rest, queuedBytes := s.queuedBytes - (s.call i).bytes } i

/-- `run(operation, call, payloadBytes)`, for the latest call. -/
def State.run (o : Options) (s : State) (i : ℕ) : State :=
  let c := s.call i
  if s.closed then s.edit i { c with outcome := some .closed }
  else if s.active < o.maxConcurrent ∧ s.queue = [] then
    State.start { s with arrived := s.arrived ++ [i] } i
  else if o.maxQueued ≤ s.queue.length ∨ o.maxQueuedBytes < s.queuedBytes + c.bytes then
    { s.edit i { c with outcome := some .overloaded } with rejected := s.rejected + 1 }
  else { s.edit i { c with phase := .queued } with
    queue := s.queue ++ [i]
    queuedBytes := s.queuedBytes + c.bytes
    arrived := s.arrived ++ [i] }

/-- The bytes that `runL2` retains for a call. -/
def retainedBytes (key : CacheKey) (payloadBytes : ℕ) : ℕ := payloadBytes + key.byteLength * 2 + 128

/-- `runL2`, up to the `await`. -/
def State.runL2 (o : Options) (s : State) (key : CacheKey) (payloadBytes : ℕ) : State :=
  let bytes := retainedBytes key payloadBytes
  match s.ledger with
  | none => (s.add { blankCall with bytes := bytes }).run o s.next
  | some l =>
    if l.budget.admits bytes then
      State.run o
        { s.add { blankCall with bytes := bytes, took := true, reserved := true } with
          ledger := some (l.reserve bytes .queue) } s.next
    else s.add { blankCall with bytes := bytes, outcome := some .overloaded, answered := true }

/-- `close()` -/
def State.close (s : State) : State :=
  { s with
    closed := true
    queue := []
    queuedBytes := 0
    call := fun i =>
      if i ∈ s.queue then { s.call i with phase := .out, outcome := some .closed } else s.call i }

/-- The oldest microtask makes its call: `boundedCall`, which may throw. -/
def State.begin (s : State) (throws : Bool) : State :=
  match s.jobs with
  | [] => s
  | i :: rest =>
    let c := { s.call i with dispatched := true, invocations := (s.call i).invocations + 1 }
    let r := if throws then s.retire i { c with phase := .returned }
      else s.edit i { c with phase := .running }
    { r with jobs := rest, invoked := s.invoked ++ [i] }

/-- The `finally` of `start`, before its `pump`. -/
def State.vacate (s : State) (i : ℕ) (ok : Bool) : State :=
  let c := s.call i
  { s.edit i { c with
      phase := .settled
      outcome := if c.outcome = none then some (.settled ok) else c.outcome } with
    active := s.active - 1
    activeBytes := s.activeBytes - c.bytes }

/-- The timer of a waiter. -/
def State.expire (s : State) (i : ℕ) : State :=
  { s.edit i { s.call i with phase := .out, outcome := some .overloaded } with
    queue := s.queue.erase i
    queuedBytes := s.queuedBytes - (s.call i).bytes
    expired := s.expired + 1 }

inductive Event
  | runL2 (key : CacheKey) (payloadBytes : ℕ)
  | begin (throws : Bool)
  /-- The promise of the shared store settles. -/
  | callSettled (i : ℕ)
  /-- The promise `underlying` of the gate settles. -/
  | settle (i : ℕ) (ok : Bool)
  /-- The timer of an operation. -/
  | timeout (i : ℕ)
  /-- The timer of a waiter. -/
  | expire (i : ℕ)
  /-- The `finally` of `runL2`. -/
  | answer (i : ℕ)
  | close
  | foreign (f : Foreign)

def step (o : Options) (s : State) : Event → State
  | .runL2 key payloadBytes => s.runL2 o key payloadBytes
  | .begin throws => s.begin throws
  | .callSettled i =>
    if (s.call i).phase = .running then s.retire i { s.call i with phase := .returned } else s
  | .settle i ok => if (s.call i).phase = .returned then (s.vacate i ok).pump o else s
  | .timeout i =>
    if s.jobs = [] ∧ (s.call i).phase.holds ∧ (s.call i).outcome = none then
      { s.edit i { s.call i with outcome := some .timedOut } with
        commandTimeouts := s.commandTimeouts + 1 }
    else s
  | .expire i => if i ∈ s.queue then s.expire i else s
  | .answer i =>
    if (s.call i).outcome = none ∨ (s.call i).answered then s
    else if (s.call i).dispatched then s.edit i { s.call i with answered := true }
    else s.retire i { s.call i with answered := true }
  | .close => s.close
  | .foreign f => { s with ledger := s.ledger.map fun l => l.foreign f }

/-! ### The books -/

/-- What a call has behind it, by where it stands. -/
def Call.Ok (c : Call) : Prop :=
  c.releases + (if c.reserved then 1 else 0) = (if c.took then 1 else 0) ∧
  match c.phase with
  | .out => c.invocations = 0 ∧ c.dispatched = false ∧ c.reserved = (c.took && !c.answered)
  | .queued => c.invocations = 0 ∧ c.dispatched = false ∧ c.reserved = c.took ∧
      c.answered = false ∧ c.outcome = none
  | .starting => c.invocations = 0 ∧ c.dispatched = false ∧ c.reserved = c.took ∧
      c.answered = false ∧ c.outcome = none
  | .running => c.invocations = 1 ∧ c.dispatched = true ∧ c.reserved = c.took
  | .returned => c.invocations = 1 ∧ c.dispatched = true ∧ c.reserved = false
  | .settled => c.invocations = 1 ∧ c.dispatched = true ∧ c.reserved = false

/-- The counters, the lists and the ledger agree with the calls. -/
structure Books (s : State) : Prop where
  active : s.active = tally Call.slots s.call s.next
  activeBytes : s.activeBytes = tally Call.activeBytes s.call s.next
  queuedBytes : s.queuedBytes = (s.queue.map fun i => (s.call i).bytes).sum
  queue : ∀ i, i ∈ s.queue ↔ i < s.next ∧ (s.call i).phase = .queued
  jobs : ∀ i, i ∈ s.jobs ↔ i < s.next ∧ (s.call i).phase = .starting
  granted : s.granted = s.invoked ++ s.jobs
  sorted : s.arrived.Pairwise (· < ·)
  arrived : ∀ i ∈ s.arrived, i < s.next
  closed : s.closed = true → s.queue = []
  ledger : ∀ l, s.ledger = some l →
    Balanced l (Pi.single .queue (tally Call.retained s.call s.next))
  ok : ∀ i, (s.call i).Ok
  fresh : ∀ i, s.next ≤ i → s.call i = blankCall

variable {o : Options} {s s' : State} {i j : ℕ} {c : Call}

/-- One call changes, and the counters and lists with it. -/
theorem Books.edit (h : Books s) (hi : i < s.next) (hok : c.Ok)
    (hbytes : c.bytes = (s.call i).bytes) (hcall : s'.call = Function.update s.call i c)
    (hnext : s'.next = s.next) (harrived : s'.arrived = s.arrived)
    (hactive : s'.active + (s.call i).slots = s.active + c.slots)
    (hactiveBytes : s'.activeBytes + (s.call i).activeBytes = s.activeBytes + c.activeBytes)
    (hqueuedBytes : s'.queuedBytes = (s'.queue.map fun j => (s.call j).bytes).sum)
    (hqueue : ∀ j, j ∈ s'.queue ↔ if j = i then c.phase = .queued else j ∈ s.queue)
    (hjobs : ∀ j, j ∈ s'.jobs ↔ if j = i then c.phase = .starting else j ∈ s.jobs)
    (hgranted : s'.granted = s'.invoked ++ s'.jobs) (hclosed : s'.closed = true → s'.queue = [])
    (hledger : ∀ l, s'.ledger = some l →
      Balanced l (Pi.single .queue (tally Call.retained (Function.update s.call i c) s.next))) :
    Books s' := by
  have hslots := tally_update Call.slots s.call hi c
  have hslotBytes := tally_update Call.activeBytes s.call hi c
  have hsame : ∀ j, (s'.call j).bytes = (s.call j).bytes := by
    intro j
    rw [hcall]
    by_cases hj : j = i
    · subst hj
      rw [Function.update_self, hbytes]
    · rw [Function.update_of_ne hj]
  have hphase : ∀ j, (s'.call j).phase = if j = i then c.phase else (s.call j).phase := by
    intro j
    rw [hcall]
    by_cases hj : j = i
    · subst hj
      rw [Function.update_self, if_pos rfl]
    · rw [Function.update_of_ne hj, if_neg hj]
  refine ⟨?_, ?_, ?_, fun j => ?_, fun j => ?_, hgranted, ?_, ?_, hclosed, ?_, fun j => ?_,
    fun j hj => ?_⟩
  · have hold := h.active
    rw [hnext, hcall]
    omega
  · have hold := h.activeBytes
    rw [hnext, hcall]
    omega
  · rw [hqueuedBytes]
    exact congrArg List.sum (List.map_congr_left fun j _ => (hsame j).symm)
  · rw [hqueue, hphase, hnext]
    by_cases hj : j = i
    · subst hj
      rw [if_pos rfl, if_pos rfl]
      exact ⟨fun hp => ⟨hi, hp⟩, And.right⟩
    · rw [if_neg hj, if_neg hj]
      exact h.queue j
  · rw [hjobs, hphase, hnext]
    by_cases hj : j = i
    · subst hj
      rw [if_pos rfl, if_pos rfl]
      exact ⟨fun hp => ⟨hi, hp⟩, And.right⟩
    · rw [if_neg hj, if_neg hj]
      exact h.jobs j
  · rw [harrived]
    exact h.sorted
  · rw [harrived, hnext]
    exact h.arrived
  · rw [hnext, hcall]
    exact hledger
  · rw [hcall]
    by_cases hj : j = i
    · subst hj
      rw [Function.update_self]
      exact hok
    · rw [Function.update_of_ne hj]
      exact h.ok j
  · rw [hnext] at hj
    rw [hcall, Function.update_of_ne (by omega)]
    exact h.fresh j hj

/-- The call retains what it retained. -/
theorem Books.ledger_keep (h : Books s) (hi : i < s.next) (hc : c.retained = (s.call i).retained)
    {l : Ledger} (hl : s.ledger = some l) :
    Balanced l (Pi.single .queue (tally Call.retained (Function.update s.call i c) s.next)) := by
  have htally := tally_update Call.retained s.call hi c
  have heq : tally Call.retained (Function.update s.call i c) s.next =
      tally Call.retained s.call s.next := by omega
  rw [heq]
  exact h.ledger l hl

/-- The call releases what it retained, if anything. -/
theorem Books.ledger_retire (h : Books s) (hi : i < s.next) (hbytes : c.bytes = (s.call i).bytes)
    (hreserved : c.reserved = (s.call i).reserved) {l : Ledger}
    (hl : (s.retire i c).ledger = some l) :
    Balanced l (Pi.single .queue
      (tally Call.retained (Function.update s.call i c.releaseRetention) s.next)) := by
  have htally := tally_update Call.retained s.call hi c.releaseRetention
  rw [State.retire] at hl
  by_cases hc : c.reserved = true
  · simp only [hc, if_true] at hl
    obtain ⟨l₀, hl₀, rfl⟩ := Option.map_eq_some_iff.mp hl
    rw [Call.retained, Call.retained, Call.releaseRetention, if_pos hc, ← hreserved, if_pos hc,
      if_neg Bool.false_ne_true, ← hbytes, Nat.add_zero] at htally
    rw [Call.releaseRetention, if_pos hc]
    have heq := Nat.eq_sub_of_add_eq htally
    rw [heq]
    refine (h.ledger l₀ hl₀).release_single ?_
    omega
  · simp only [hc] at hl
    rw [Call.releaseRetention, if_neg hc] at htally ⊢
    refine h.ledger_keep hi ?_ hl
    rw [Call.retained, Call.retained, hreserved, hbytes]

theorem Books.not_mem_queue (h : Books s) (hp : (s.call i).phase ≠ .queued) : i ∉ s.queue :=
  fun hmem => hp ((h.queue i).mp hmem).2

theorem Books.not_mem_jobs (h : Books s) (hp : (s.call i).phase ≠ .starting) : i ∉ s.jobs :=
  fun hmem => hp ((h.jobs i).mp hmem).2

/-- A call outside of the queue and of the jobs stays there. -/
theorem Books.move (h : Books s) (hi : i < s.next) (hok : c.Ok)
    (hbytes : c.bytes = (s.call i).bytes)
    (hold : (s.call i).phase ≠ .queued ∧ (s.call i).phase ≠ .starting)
    (hnew : c.phase ≠ .queued ∧ c.phase ≠ .starting) {a b t r : ℕ} {l : Option Ledger}
    (hactive : a + (s.call i).slots = s.active + c.slots)
    (hactiveBytes : b + (s.call i).activeBytes = s.activeBytes + c.activeBytes)
    (hledger : ∀ l', l = some l' →
      Balanced l' (Pi.single .queue (tally Call.retained (Function.update s.call i c) s.next))) :
    Books { s.edit i c with
      active := a, activeBytes := b, ledger := l, commandTimeouts := t, rejected := r } := by
  refine h.edit hi hok hbytes rfl rfl rfl hactive hactiveBytes h.queuedBytes (fun j => ?_)
    (fun j => ?_) h.granted h.closed hledger
  · show j ∈ s.queue ↔ _
    by_cases hj : j = i
    · subst hj
      rw [if_pos rfl]
      exact ⟨fun hmem => absurd hmem (h.not_mem_queue hold.1), fun hp => absurd hp hnew.1⟩
    · rw [if_neg hj]
  · show j ∈ s.jobs ↔ _
    by_cases hj : j = i
    · subst hj
      rw [if_pos rfl]
      exact ⟨fun hmem => absurd hmem (h.not_mem_jobs hold.2), fun hp => absurd hp hnew.2⟩
    · rw [if_neg hj]

/-- A call that is not in the gate enters it, with or without a reservation. -/
theorem Books.add (h : Books s) (hok : c.Ok) (hout : c.phase = .out) {l : Option Ledger}
    (hledger : ∀ l', l = some l' →
      Balanced l' (Pi.single .queue (tally Call.retained s.call s.next + c.retained))) :
    Books { s.add c with ledger := l } := by
  have hcall : ∀ j, j < s.next → Function.update s.call s.next c j = s.call j := fun j hj =>
    Function.update_of_ne (by omega) ..
  have hholds : c.phase.holds = false := by rw [hout]; rfl
  have hnone : ∀ p : Phase, p ≠ .out → ∀ j, (j < s.next + 1 ∧
      (Function.update s.call s.next c j).phase = p) ↔ j < s.next ∧ (s.call j).phase = p := by
    intro p hp j
    by_cases hj : j = s.next
    · subst hj
      rw [Function.update_self, hout]
      exact ⟨fun hmem => absurd hmem.2.symm hp, fun hmem => absurd hmem.1 (lt_irrefl _)⟩
    · rw [Function.update_of_ne hj]
      exact ⟨fun hmem => ⟨by omega, hmem.2⟩, fun hmem => ⟨by omega, hmem.2⟩⟩
  refine ⟨?_, ?_, ?_, fun j => ?_, fun j => ?_, h.granted, h.sorted, fun j hj => ?_, h.closed,
    fun l' hl' => ?_, fun j => ?_, fun j hj => ?_⟩
  · show s.active = tally Call.slots (Function.update s.call s.next c) (s.next + 1)
    rw [tally_alloc, ← h.active, Call.slots, hholds]
    rfl
  · show s.activeBytes = tally Call.activeBytes (Function.update s.call s.next c) (s.next + 1)
    rw [tally_alloc, ← h.activeBytes, Call.activeBytes, hholds]
    rfl
  · show s.queuedBytes = (s.queue.map fun j => (Function.update s.call s.next c j).bytes).sum
    rw [h.queuedBytes]
    refine congrArg List.sum (List.map_congr_left fun j hj => ?_)
    rw [hcall j ((h.queue j).mp hj).1]
  · exact (h.queue j).trans (hnone .queued nofun j).symm
  · exact (h.jobs j).trans (hnone .starting nofun j).symm
  · exact (h.arrived j hj).trans (Nat.lt_succ_self _)
  · show Balanced l' (Pi.single .queue
      (tally Call.retained (Function.update s.call s.next c) (s.next + 1)))
    rw [tally_alloc]
    exact hledger l' hl'
  · show (Function.update s.call s.next c j).Ok
    by_cases hj : j = s.next
    · subst hj
      rw [Function.update_self]
      exact hok
    · rw [Function.update_of_ne hj]
      exact h.ok j
  · have hj : s.next + 1 ≤ j := hj
    show Function.update s.call s.next c j = blankCall
    rw [Function.update_of_ne (by omega)]
    exact h.fresh j (by omega)

theorem Books.lt_next (h : Books s) (hp : (s.call i).phase ≠ .out) : i < s.next := by
  by_contra hle
  exact hp (by rw [h.fresh i (not_lt.mp hle)]; rfl)

theorem Books.arrive (h : Books s) (hi : i < s.next) (hlast : ∀ j ∈ s.arrived, j < i) :
    Books { s with arrived := s.arrived ++ [i] } := by
  refine ⟨h.active, h.activeBytes, h.queuedBytes, h.queue, h.jobs, h.granted, ?_, fun j hj => ?_,
    h.closed, h.ledger, h.ok, h.fresh⟩
  · refine List.pairwise_append.mpr ⟨h.sorted, List.pairwise_singleton _ i, fun j hj k hk => ?_⟩
    rw [List.mem_singleton.mp hk]
    exact hlast j hj
  · rcases List.mem_append.mp hj with hj | hj
    · exact h.arrived j hj
    · rw [List.mem_singleton.mp hj]
      exact hi

/-- Started, a call keeps its reservation. -/
theorem Call.Ok.started (h : c.Ok) (hp : c.phase = .queued ∨
    (c.phase = .out ∧ c.answered = false ∧ c.outcome = none)) :
    Call.Ok { c with phase := .starting } := by
  obtain ⟨hcount, hphase⟩ := h
  refine ⟨hcount, ?_⟩
  rcases hp with hp | ⟨hp, hanswered, houtcome⟩
  · rw [hp] at hphase
    exact hphase
  · rw [hp] at hphase
    refine ⟨hphase.1, hphase.2.1, ?_, hanswered, houtcome⟩
    rw [hphase.2.2, hanswered, Bool.not_false, Bool.and_true]

/-- `start`, for a call that is in the queue of `s` or has just been offered. -/
theorem Books.start (h : Books s) (hi : i < s.next) {queue : List ℕ} {q : ℕ}
    (hp : (s.call i).phase = .queued ∨
      ((s.call i).phase = .out ∧ (s.call i).answered = false ∧ (s.call i).outcome = none))
    (hqueue : ∀ j, j ∈ queue ↔ j ≠ i ∧ j ∈ s.queue)
    (hq : q = (queue.map fun j => (s.call j).bytes).sum) (hopen : s.closed = true → queue = []) :
    Books (State.start { s with queue := queue, queuedBytes := q } i) := by
  have hholds : (s.call i).phase.holds = false := by
    rcases hp with hp | ⟨hp, -⟩
    · rw [hp]; rfl
    · rw [hp]; rfl
  have hjob : (s.call i).phase ≠ .starting := by
    rcases hp with hp | ⟨hp, -⟩
    · rw [hp]; nofun
    · rw [hp]; nofun
  refine h.edit hi ((h.ok i).started hp) rfl rfl rfl rfl ?_ ?_ hq (fun j => ?_) (fun j => ?_) ?_
    hopen fun l hl => h.ledger_keep (c := { s.call i with phase := .starting }) hi rfl hl
  · show s.active + 1 + (s.call i).slots = s.active + 1
    rw [Call.slots, hholds]
    rfl
  · show s.activeBytes + (s.call i).bytes + (s.call i).activeBytes =
      s.activeBytes + (s.call i).bytes
    rw [Call.activeBytes, hholds]
    rfl
  · show j ∈ queue ↔ _
    rw [hqueue]
    by_cases hj : j = i
    · subst hj
      rw [if_pos rfl]
      exact ⟨fun hmem => absurd rfl hmem.1, nofun⟩
    · rw [if_neg hj]
      exact ⟨And.right, fun hmem => ⟨hj, hmem⟩⟩
  · show j ∈ s.jobs ++ [i] ↔ _
    rw [List.mem_append, List.mem_singleton]
    by_cases hj : j = i
    · subst hj
      rw [if_pos rfl]
      exact ⟨fun _ => rfl, fun _ => Or.inr rfl⟩
    · rw [if_neg hj, or_iff_left hj]
  · show s.granted ++ [i] = s.invoked ++ (s.jobs ++ [i])
    rw [h.granted, List.append_assoc]

/-! ### The gate that the state represents -/

def Call.holds (c : Call) : Bool := c.phase.holds

def State.gate (s : State) : SlotGate.Gate ℕ :=
  ⟨holders Call.holds s.call s.next, s.queue, s.arrived, s.granted⟩

structure Inv (o : Options) (s : State) : Prop where
  books : Books s
  gate : SlotGate.Ok o.maxConcurrent s.gate

theorem Books.card (h : Books s) : s.gate.running.card = s.active := by
  rw [h.active]
  exact card_holders ..

/-- Nothing that concerns the gate has changed. -/
theorem gate_edit {s : State} (hc : c.phase.holds = (s.call i).phase.holds) :
    (s.edit i c).gate = s.gate := by
  rw [State.gate, State.gate]
  exact congrArg (fun r => SlotGate.Gate.mk r s.queue s.arrived s.granted) (holders_update_same hc)

/-- What one step does to the books and to the gate. -/
structure Keeps (o : Options) (s s' : State) : Prop where
  books : Books s'
  gate : SlotGate.Step o.maxConcurrent s.gate s'.gate

theorem Keeps.inv (h : Inv o s) (hk : Keeps o s s') : Inv o s' := ⟨hk.books, h.gate.step hk.gate⟩

theorem Keeps.stay (h : Books s') (hgate : s'.gate = s.gate) : Keeps o s s' :=
  ⟨h, hgate ▸ SlotGate.Step.stay⟩

theorem Keeps.refl (h : Inv o s) : Keeps o s s := .stay h.books rfl

/-! ### `run` -/

/-- `run` of a call that has just been added. -/
theorem keeps_run (h : Books s) (hgate : SlotGate.Ok o.maxConcurrent s.gate)
    (hi : i < s.next) (hlast : ∀ j ∈ s.arrived, j < i) (hp : (s.call i).phase = .out)
    (hnew : (s.call i).answered = false ∧ (s.call i).outcome = none) : Keeps o s (s.run o i) := by
  have hok := h.ok i
  have hnotin : i ∉ s.arrived := fun hmem => lt_irrefl i (hlast i hmem)
  have hnotqueued : i ∉ s.queue := h.not_mem_queue (by rw [hp]; nofun)
  -- a refusal only sets the outcome
  have hrefused : ∀ (e : Outcome) (r : ℕ), Keeps o s
      { s.edit i { s.call i with outcome := some e } with rejected := r } := by
    intro e r
    have hapart : (s.call i).phase ≠ .queued ∧ (s.call i).phase ≠ .starting := by
      rw [hp]
      exact ⟨nofun, nofun⟩
    refine .stay (h.move (c := { s.call i with outcome := some e }) hi ?_ rfl hapart hapart rfl rfl
      fun l hl => h.ledger_keep (c := { s.call i with outcome := some e }) hi rfl hl) (gate_edit rfl)
    obtain ⟨hcount, hphase⟩ := hok
    refine ⟨hcount, ?_⟩
    rw [hp] at hphase ⊢
    exact hphase
  rw [State.run]
  split
  · exact hrefused .closed s.rejected
  next hopen =>
  have hopen : s.closed = false := Bool.eq_false_of_not_eq_true hopen
  split
  · next hstart =>
    obtain ⟨hroom, hempty⟩ := hstart
    have harrive := h.arrive hi hlast
    refine ⟨harrive.start hi (Or.inr ⟨hp, hnew⟩) (fun j => ?_) h.queuedBytes h.closed, ?_⟩
    · exact ⟨fun hmem => ⟨fun hj => hnotqueued (hj ▸ hmem), hmem⟩, And.right⟩
    · have hstep := SlotGate.Step.grant (g := s.gate) i hnotin (by rwa [h.card]) hempty
      have hgoal : (State.start { s with arrived := s.arrived ++ [i] } i).gate =
          { s.gate with
            running := insert i s.gate.running
            arrived := s.gate.arrived ++ [i], granted := s.gate.granted ++ [i] } :=
        congrArg (fun r => SlotGate.Gate.mk r s.queue (s.arrived ++ [i]) (s.granted ++ [i]))
          (holders_update_true (p := Call.holds) (x := { s.call i with phase := .starting }) hi rfl)
      rw [hgoal]
      exact hstep
  next hbusy =>
  split
  · exact hrefused .overloaded (s.rejected + 1)
  · -- the queue is not empty only if every slot is taken
    have hfull : o.maxConcurrent ≤ s.gate.running.card := by
      by_contra hroom
      refine hbusy ⟨by rw [← h.card]; exact not_le.mp hroom, ?_⟩
      by_contra hne
      exact hroom (hgate.full hne).ge
    have harrive := h.arrive hi hlast
    refine ⟨harrive.edit (c := { s.call i with phase := .queued }) hi ?_ rfl rfl rfl rfl ?_ ?_ ?_
      (fun j => ?_) (fun j => ?_) h.granted (fun hclosed => ?_)
      (fun l hl => h.ledger_keep (c := { s.call i with phase := .queued }) hi rfl hl), ?_⟩
    · exact hok.started (Or.inr ⟨hp, hnew⟩)
    · show s.active + (s.call i).slots = s.active + 0
      rw [Call.slots, hp]
      rfl
    · show s.activeBytes + (s.call i).activeBytes = s.activeBytes + 0
      rw [Call.activeBytes, hp]
      rfl
    · show s.queuedBytes + (s.call i).bytes = ((s.queue ++ [i]).map fun j => (s.call j).bytes).sum
      rw [List.map_append, List.sum_append, ← h.queuedBytes]
      rfl
    · show j ∈ s.queue ++ [i] ↔ _
      rw [List.mem_append, List.mem_singleton]
      by_cases hj : j = i
      · subst hj
        rw [if_pos rfl]
        exact ⟨fun _ => rfl, fun _ => Or.inr rfl⟩
      · rw [if_neg hj, or_iff_left hj]
    · show j ∈ s.jobs ↔ _
      by_cases hj : j = i
      · subst hj
        rw [if_pos rfl]
        exact ⟨fun hmem => absurd hmem (h.not_mem_jobs (by rw [hp]; nofun)), nofun⟩
      · rw [if_neg hj]
    · exact absurd (hopen.symm.trans hclosed) Bool.false_ne_true
    · have hstep := SlotGate.Step.wait (g := s.gate) i hnotin hfull
      have hgoal : ({ s.edit i { s.call i with phase := .queued } with
            queue := s.queue ++ [i]
            queuedBytes := s.queuedBytes + (s.call i).bytes
            arrived := s.arrived ++ [i] } : State).gate =
          { s.gate with queue := s.gate.queue ++ [i], arrived := s.gate.arrived ++ [i] } :=
        congrArg (fun r => SlotGate.Gate.mk r (s.queue ++ [i]) (s.arrived ++ [i]) s.granted)
          (holders_update_same (by rw [Call.holds, Call.holds, hp]; rfl))
      rw [hgoal]
      exact hstep

/-- A call of `runL2`: its bytes are reserved, or the call is refused right away. -/
theorem keeps_runL2 (h : Inv o s) (key : CacheKey) (payloadBytes : ℕ) :
    Keeps o s (s.runL2 o key payloadBytes) := by
  -- adding a call that is out of the gate leaves the gate as it was
  have hadded : ∀ (c : Call) (l : Option Ledger), c.phase = .out →
      ({ s.add c with ledger := l } : State).gate = s.gate := by
    intro c l hc
    exact congrArg (fun r => SlotGate.Gate.mk r s.queue s.arrived s.granted)
      (holders_alloc (by rw [Call.holds, hc]; rfl))
  have hrun : ∀ (c : Call) (l : Option Ledger), c.Ok → c.phase = .out → c.answered = false →
      c.outcome = none → (∀ l', l = some l' →
        Balanced l' (Pi.single .queue (tally Call.retained s.call s.next + c.retained))) →
      Keeps o s (State.run o { s.add c with ledger := l } s.next) := by
    intro c l hok hout hanswered houtcome hledger
    have hgate := hadded c l hout
    have hself : ({ s.add c with ledger := l } : State).call s.next = c := Function.update_self ..
    have hkeeps : Keeps o { s.add c with ledger := l } (State.run o { s.add c with ledger := l }
        s.next) := by
      refine keeps_run (h.books.add hok hout hledger) (by rw [hgate]; exact h.gate)
        (Nat.lt_succ_self _) h.books.arrived (by rw [hself]; exact hout) ?_
      rw [hself]
      exact ⟨hanswered, houtcome⟩
    refine ⟨hkeeps.books, ?_⟩
    have hstep := hkeeps.gate
    rwa [hgate] at hstep
  rw [State.runL2]
  rcases hl : s.ledger with _ | l
  · simp only
    have hok : Call.Ok { blankCall with bytes := retainedBytes key payloadBytes } :=
      ⟨rfl, rfl, rfl, rfl⟩
    have hnone := hrun _ none hok rfl rfl rfl nofun
    rw [← hl] at hnone
    exact hnone
  · simp only
    split
    · next hadmits =>
      have hok : Call.Ok { blankCall with
          bytes := retainedBytes key payloadBytes, took := true, reserved := true } :=
        ⟨rfl, rfl, rfl, rfl⟩
      refine hrun _ _ hok rfl rfl rfl fun l' hl' => ?_
      rw [← Option.some_inj.mp hl']
      exact (h.books.ledger l hl).reserve_single hadmits
    · have hok : Call.Ok { blankCall with
          bytes := retainedBytes key payloadBytes
          outcome := some .overloaded, answered := true } :=
        ⟨rfl, rfl, rfl, rfl⟩
      have hadd := h.books.add hok rfl (l := s.ledger) fun l' hl' => h.books.ledger l' hl'
      exact .stay hadd (hadded _ s.ledger rfl)

/-! ### A call is made and settles -/

/-- A call that is started and not yet settled moves on, and may retire. -/
theorem keeps_retire (h : Inv o s) (hi : i < s.next) {c : Call}
    (hok : c.releaseRetention.Ok) (hbytes : c.bytes = (s.call i).bytes)
    (hreserved : c.reserved = (s.call i).reserved)
    (hold : (s.call i).phase ≠ .queued ∧ (s.call i).phase ≠ .starting)
    (hnew : c.phase ≠ .queued ∧ c.phase ≠ .starting)
    (hholds : c.phase.holds = (s.call i).phase.holds) : Keeps o s (s.retire i c) := by
  have hphase : c.releaseRetention.phase = c.phase := by
    rw [Call.releaseRetention]
    split <;> rfl
  have hbytes' : c.releaseRetention.bytes = c.bytes := by
    rw [Call.releaseRetention]
    split <;> rfl
  refine .stay (h.books.move hi hok (hbytes'.trans hbytes) hold (by rwa [hphase]) ?_ ?_
    fun l hl => h.books.ledger_retire hi hbytes hreserved hl) (gate_edit (by rw [hphase, hholds]))
  · rw [Call.slots, Call.slots, hphase, hholds]
    rfl
  · rw [Call.activeBytes, Call.activeBytes, hphase, hholds, hbytes', hbytes]
    rfl

/-- The same without a release. -/
theorem keeps_edit (h : Inv o s) (hi : i < s.next) {c : Call} (hok : c.Ok)
    (hbytes : c.bytes = (s.call i).bytes) (hreserved : c.reserved = (s.call i).reserved)
    (hold : (s.call i).phase ≠ .queued ∧ (s.call i).phase ≠ .starting)
    (hnew : c.phase ≠ .queued ∧ c.phase ≠ .starting)
    (hholds : c.phase.holds = (s.call i).phase.holds) (t : ℕ) :
    Keeps o s { s.edit i c with commandTimeouts := t } := by
  refine .stay (h.books.move hi hok hbytes hold hnew ?_ ?_ fun l hl => h.books.ledger_keep hi ?_ hl)
    (gate_edit hholds)
  · rw [Call.slots, Call.slots, hholds]
    rfl
  · rw [Call.activeBytes, Call.activeBytes, hholds, hbytes]
    rfl
  · rw [Call.retained, Call.retained, hreserved, hbytes]

theorem Call.Ok.made (h : c.Ok) (hp : c.phase = .starting) :
    Call.Ok { c with dispatched := true, invocations := c.invocations + 1, phase := .running } := by
  obtain ⟨hcount, hphase⟩ := h
  rw [hp] at hphase
  exact ⟨hcount, by rw [hphase.1], rfl, hphase.2.2.1⟩

/-- When the call has settled, what it took is released. -/
theorem Call.Ok.returned (h : c.Ok) (hp : c.phase = .running) :
    Call.Ok (Call.releaseRetention { c with phase := .returned }) := by
  obtain ⟨hcount, hphase⟩ := h
  rw [hp] at hphase
  obtain ⟨hinvocations, hdispatched, -⟩ := hphase
  rw [Call.releaseRetention]
  split
  · next hreserved =>
    rw [if_pos hreserved] at hcount
    exact ⟨hcount, hinvocations, hdispatched, rfl⟩
  · next hreserved => exact ⟨hcount, hinvocations, hdispatched, Bool.eq_false_of_not_eq_true hreserved⟩

theorem keeps_begin (h : Inv o s) (throws : Bool) : Keeps o s (s.begin throws) := by
  rw [State.begin]
  split
  · exact .refl h
  next i rest hjobs =>
  obtain ⟨hi, hp⟩ := (h.books.jobs i).mp (by rw [hjobs]; exact List.mem_cons_self)
  have hnotqueued : i ∉ s.queue := h.books.not_mem_queue (by rw [hp]; nofun)
  -- the jobs were granted one after the other, so the job of `i` is not there twice
  have hrest : i ∉ rest := by
    have hnodup := h.gate.order.nodup h.gate.nodup
    have hgranted := (List.nodup_append.mp hnodup).1
    rw [show s.gate.granted = s.granted from rfl, h.books.granted, hjobs] at hgranted
    exact (List.nodup_cons.mp (List.nodup_append.mp hgranted).2.1).1
  have hmade : ∀ (c : Call) (l : Option Ledger), c.Ok → c.bytes = (s.call i).bytes →
      c.phase.holds = true → c.phase ≠ .starting → (∀ l', l = some l' →
        Balanced l' (Pi.single .queue
          (tally Call.retained (Function.update s.call i c) s.next))) →
      Keeps o s { s.edit i c with ledger := l, jobs := rest, invoked := s.invoked ++ [i] } := by
    intro c l hok hbytes hholds hleft hledger
    have hsame : c.phase.holds = (s.call i).phase.holds := by
      rw [hholds, hp]
      rfl
    refine .stay (h.books.edit hi hok hbytes rfl rfl rfl ?_ ?_ h.books.queuedBytes (fun j => ?_)
      (fun j => ?_) ?_ h.books.closed hledger) (gate_edit hsame)
    · rw [Call.slots, Call.slots, hsame]
      rfl
    · rw [Call.activeBytes, Call.activeBytes, hsame, hbytes]
      rfl
    · show j ∈ s.queue ↔ _
      by_cases hj : j = i
      · subst hj
        rw [if_pos rfl]
        refine ⟨fun hmem => absurd hmem hnotqueued, fun hqueued => ?_⟩
        rw [hqueued] at hholds
        cases hholds
      · rw [if_neg hj]
    · show j ∈ rest ↔ _
      by_cases hj : j = i
      · subst hj
        rw [if_pos rfl]
        exact ⟨fun hmem => absurd hmem hrest, fun hstarting => absurd hstarting hleft⟩
      · rw [if_neg hj, hjobs, List.mem_cons, or_iff_right hj]
    · show s.granted = s.invoked ++ [i] ++ rest
      rw [h.books.granted, hjobs, List.append_assoc]
      rfl
  have hrunning := (h.books.ok i).made hp
  simp only
  split
  · have hok := hrunning.returned rfl
    refine hmade _ _ hok ?_ ?_ ?_ fun l' hl' => ?_
    · rw [Call.releaseRetention]
      split <;> rfl
    · rw [Call.releaseRetention]
      split <;> rfl
    · rw [Call.releaseRetention]
      split <;> nofun
    · refine h.books.ledger_retire hi ?_ ?_ hl'
      · rfl
      · rfl
  · refine hmade _ s.ledger hrunning rfl rfl nofun fun l' hl' => h.books.ledger_keep hi ?_ hl'
    rfl

/-- An operation settles: its slot goes to the oldest waiter. -/
theorem keeps_settle (h : Inv o s) (hp : (s.call i).phase = .returned) (ok : Bool) :
    Keeps o s ((s.vacate i ok).pump o) := by
  have hi : i < s.next := h.books.lt_next (by rw [hp]; nofun)
  have hapart : (s.call i).phase ≠ .queued ∧ (s.call i).phase ≠ .starting := by
    rw [hp]
    exact ⟨nofun, nofun⟩
  have hmem : i ∈ s.gate.running := mem_holders.mpr ⟨hi, by rw [Call.holds, hp]; rfl⟩
  have hpos : 0 < s.active := by
    rw [← h.books.card]
    exact Finset.card_pos.mpr ⟨i, hmem⟩
  have hle : s.active ≤ o.maxConcurrent := by
    rw [← h.books.card]
    exact h.gate.card
  have hvacant : Books (s.vacate i ok) := by
    have hslot : (s.call i).slots = 1 := by rw [Call.slots, hp]; rfl
    have hbytes : (s.call i).activeBytes = (s.call i).bytes := by rw [Call.activeBytes, hp]; rfl
    have hsum := le_tally Call.activeBytes s.call hi
    rw [← h.books.activeBytes, hbytes] at hsum
    refine h.books.move (c := { s.call i with
        phase := .settled
        outcome := if (s.call i).outcome = none then some (.settled ok) else (s.call i).outcome })
      hi ?_ rfl hapart ⟨nofun, nofun⟩ ?_ ?_ fun l hl => h.books.ledger_keep hi ?_ hl
    · obtain ⟨hcount, hphase⟩ := h.books.ok i
      rw [hp] at hphase
      exact ⟨hcount, hphase⟩
    · rw [hslot]
      exact Nat.sub_add_cancel hpos
    · rw [hbytes]
      exact Nat.sub_add_cancel hsum
    · rfl
  have hgate : (s.vacate i ok).gate = { s.gate with running := s.gate.running.erase i } :=
    congrArg (fun r => SlotGate.Gate.mk r s.queue s.arrived s.granted)
      (holders_update_false (p := Call.holds) rfl)
  rcases hqueue : s.queue with _ | ⟨j, rest⟩
  · have hpump : (s.vacate i ok).pump o = s.vacate i ok := by
      rw [State.pump]
      split
      · rfl
      · rw [show (s.vacate i ok).queue = [] from hqueue]
    rw [hpump]
    refine ⟨hvacant, ?_⟩
    rw [hgate]
    exact .finish i hmem hqueue
  · -- the gate is open, and the slot that is given back goes to `j`
    have hroom : ¬ ((s.vacate i ok).closed = true ∨ o.maxConcurrent ≤ (s.vacate i ok).active) := by
      rintro (hclosed | hfull)
      · rw [h.books.closed hclosed] at hqueue
        cases hqueue
      · have hfull : o.maxConcurrent ≤ s.active - 1 := hfull
        omega
    have hjmem : j ∈ s.queue := by rw [hqueue]; exact List.mem_cons_self
    obtain ⟨hj, hjp⟩ := (h.books.queue j).mp hjmem
    have hne : j ≠ i := by
      rintro rfl
      exact hapart.1 hjp
    have hsame : (s.vacate i ok).call j = s.call j := Function.update_of_ne hne ..
    have hnodup := h.gate.nodup_queue
    rw [show s.gate.queue = s.queue from rfl, hqueue] at hnodup
    have hjrest := (List.nodup_cons.mp hnodup).1
    have hpump : (s.vacate i ok).pump o = State.start { s.vacate i ok with
        queue := rest
        queuedBytes := (s.vacate i ok).queuedBytes - ((s.vacate i ok).call j).bytes } j := by
      rw [State.pump, if_neg hroom, show (s.vacate i ok).queue = j :: rest from hqueue]
    rw [hpump]
    refine ⟨hvacant.start hj (Or.inl (by rw [hsame]; exact hjp)) (fun k => ?_) ?_
      fun hclosed => absurd (Or.inl hclosed) hroom, ?_⟩
    · rw [show (s.vacate i ok).queue = j :: rest from hqueue, List.mem_cons]
      exact ⟨fun hk => ⟨fun hkj => hjrest (hkj ▸ hk), Or.inr hk⟩,
        fun hk => hk.2.resolve_left hk.1⟩
    · rw [hvacant.queuedBytes, show (s.vacate i ok).queue = j :: rest from hqueue, List.map_cons,
        List.sum_cons]
      omega
    · have hgoal : (State.start { s.vacate i ok with
            queue := rest
            queuedBytes := (s.vacate i ok).queuedBytes - ((s.vacate i ok).call j).bytes } j).gate =
          { s.gate with
            running := insert j (s.gate.running.erase i)
            queue := rest, granted := s.gate.granted ++ [j] } := by
        have hrunning := congrArg SlotGate.Gate.running hgate
        rw [show s.gate.running.erase i = (s.vacate i ok).gate.running from hrunning.symm]
        exact congrArg (fun r => SlotGate.Gate.mk r rest s.arrived (s.granted ++ [j]))
          (holders_update_true (p := Call.holds)
            (x := { (s.vacate i ok).call j with phase := .starting }) hj rfl)
      rw [hgoal]
      exact .pass i j rest hmem hqueue

/-! ### Calls that leave the queue -/

theorem Call.Ok.leave (h : c.Ok) (hp : c.phase = .queued) (e : Outcome) :
    Call.Ok { c with phase := .out, outcome := some e } := by
  obtain ⟨hcount, hphase⟩ := h
  rw [hp] at hphase
  obtain ⟨hinvocations, hdispatched, hreserved, hanswered, -⟩ := hphase
  refine ⟨hcount, hinvocations, hdispatched, ?_⟩
  show c.reserved = (c.took && !c.answered)
  rw [hreserved, hanswered, Bool.not_false, Bool.and_true]

theorem keeps_expire (h : Inv o s) (hmem : i ∈ s.queue) : Keeps o s (s.expire i) := by
  obtain ⟨hi, hp⟩ := (h.books.queue i).mp hmem
  have hnodup : s.queue.Nodup := h.gate.nodup_queue
  refine ⟨h.books.edit (c := { s.call i with phase := .out, outcome := some .overloaded }) hi
    ((h.books.ok i).leave hp _) rfl rfl rfl rfl ?_ ?_ ?_ (fun j => ?_) (fun j => ?_)
    h.books.granted (fun hclosed => ?_) fun l hl => h.books.ledger_keep hi ?_ hl, ?_⟩
  · rw [Call.slots, Call.slots, hp]
    rfl
  · rw [Call.activeBytes, Call.activeBytes, hp]
    rfl
  · show s.queuedBytes - (s.call i).bytes = ((s.queue.erase i).map fun j => (s.call j).bytes).sum
    have hsum := List.Perm.sum_eq ((List.perm_cons_erase hmem).map fun j => (s.call j).bytes)
    rw [List.map_cons, List.sum_cons, ← h.books.queuedBytes] at hsum
    omega
  · show j ∈ s.queue.erase i ↔ _
    rw [hnodup.mem_erase_iff]
    by_cases hj : j = i
    · subst hj
      rw [if_pos rfl]
      exact ⟨fun hmem => absurd rfl hmem.1, nofun⟩
    · rw [if_neg hj]
      exact ⟨And.right, fun hmem => ⟨hj, hmem⟩⟩
  · show j ∈ s.jobs ↔ _
    by_cases hj : j = i
    · subst hj
      rw [if_pos rfl]
      exact ⟨fun hmem => absurd hmem (h.books.not_mem_jobs (by rw [hp]; nofun)), nofun⟩
    · rw [if_neg hj]
  · rw [h.books.closed hclosed] at hmem
    cases hmem
  · rfl
  · have hgoal : (s.expire i).gate = { s.gate with queue := s.gate.queue.erase i } :=
      congrArg (fun r => SlotGate.Gate.mk r (s.queue.erase i) s.arrived s.granted)
        (holders_update_same (by rw [Call.holds, Call.holds, hp]; rfl))
    rw [hgoal]
    exact .leave _ List.erase_sublist

theorem keeps_close (h : Inv o s) : Keeps o s s.close := by
  have hcall : ∀ j, s.close.call j = if j ∈ s.queue then
      { s.call j with phase := .out, outcome := some .closed } else s.call j := fun j => rfl
  have hsame : ∀ j, (s.close.call j).phase.holds = (s.call j).phase.holds ∧
      (s.close.call j).bytes = (s.call j).bytes ∧
      (s.close.call j).reserved = (s.call j).reserved := by
    intro j
    rw [hcall]
    split
    · next hmem =>
      rw [((h.books.queue j).mp hmem).2]
      exact ⟨rfl, rfl, rfl⟩
    · exact ⟨rfl, rfl, rfl⟩
  have htally : ∀ f : Call → ℕ, (∀ j, f (s.close.call j) = f (s.call j)) →
      tally f s.close.call s.close.next = tally f s.call s.next := fun f hf =>
    tally_congr f s.call fun j _ => hf j
  refine ⟨⟨?_, ?_, rfl, fun j => ?_, fun j => ?_, h.books.granted, h.books.sorted,
    h.books.arrived, fun _ => rfl, fun l hl => ?_, fun j => ?_, fun j hj => ?_⟩, ?_⟩
  · rw [htally Call.slots fun j => by rw [Call.slots, Call.slots, (hsame j).1]]
    exact h.books.active
  · rw [htally Call.activeBytes fun j => by
      rw [Call.activeBytes, Call.activeBytes, (hsame j).1, (hsame j).2.1]]
    exact h.books.activeBytes
  · refine ⟨nofun, fun hmem => ?_⟩
    have hp := hmem.2
    rw [hcall] at hp
    split at hp
    · cases hp
    · next hout => exact absurd ((h.books.queue j).mpr ⟨hmem.1, hp⟩) hout
  · rw [show s.close.jobs = s.jobs from rfl, h.books.jobs, hcall]
    split
    · next hmem =>
      rw [((h.books.queue j).mp hmem).2]
      exact ⟨(fun hp => nomatch hp.2), fun hp => nomatch hp.2⟩
    · rfl
  · rw [htally Call.retained fun j => by
      rw [Call.retained, Call.retained, (hsame j).2.2, (hsame j).2.1]]
    exact h.books.ledger l hl
  · rw [hcall]
    split
    · next hmem => exact (h.books.ok j).leave ((h.books.queue j).mp hmem).2 _
    · exact h.books.ok j
  · rw [hcall, if_neg fun hmem => absurd ((h.books.queue j).mp hmem).1 (not_lt.mpr hj)]
    exact h.books.fresh j hj
  · have hgoal : s.close.gate = { s.gate with queue := [] } := by
      have hrunning : holders Call.holds s.close.call s.next = holders Call.holds s.call s.next := by
        ext j
        rw [mem_holders, mem_holders, Call.holds, Call.holds, (hsame j).1]
      exact congrArg (fun r => SlotGate.Gate.mk r [] s.arrived s.granted) hrunning
    rw [hgoal]
    exact .leave _ (List.nil_sublist _)

/-! ### Every step -/

/-- The `finally` of `runL2` releases what was never dispatched. -/
theorem keeps_answer (h : Inv o s) (i : ℕ) : Keeps o s (step o s (.answer i)) := by
  rw [step]
  split
  · exact .refl h
  next hanswer =>
  obtain ⟨houtcome, hanswered⟩ := not_or.mp hanswer
  have hi : i < s.next := by
    by_contra hle
    exact houtcome (by rw [h.books.fresh i (not_lt.mp hle)]; rfl)
  obtain ⟨hcount, hphase⟩ := h.books.ok i
  -- a call that waits in the gate has no outcome yet
  have hapart : (s.call i).phase ≠ .queued ∧ (s.call i).phase ≠ .starting := by
    refine ⟨fun hp => ?_, fun hp => ?_⟩
    · rw [hp] at hphase
      exact houtcome hphase.2.2.2.2
    · rw [hp] at hphase
      exact houtcome hphase.2.2.2.2
  split
  · next hdispatched =>
    refine keeps_edit h hi (c := { s.call i with answered := true }) ⟨hcount, ?_⟩ rfl rfl hapart
      hapart rfl s.commandTimeouts
    simp only
    cases hp : (s.call i).phase with
    | out =>
      rw [hp] at hphase
      exact absurd (hdispatched.symm.trans hphase.2.1) nofun
    | queued => exact absurd hp hapart.1
    | starting => exact absurd hp hapart.2
    | running => simpa only [hp] using hphase
    | returned => simpa only [hp] using hphase
    | settled => simpa only [hp] using hphase
  · next hdispatched =>
    have hp : (s.call i).phase = .out := by
      cases hp : (s.call i).phase with
      | out => rfl
      | queued => exact absurd hp hapart.1
      | starting => exact absurd hp hapart.2
      | running =>
        rw [hp] at hphase
        exact absurd hphase.2.1 hdispatched
      | returned =>
        rw [hp] at hphase
        exact absurd hphase.2.1 hdispatched
      | settled =>
        rw [hp] at hphase
        exact absurd hphase.2.1 hdispatched
    rw [hp] at hphase
    refine keeps_retire h hi (c := { s.call i with answered := true }) ?_ rfl rfl hapart hapart rfl
    have hnot : ∀ b : Bool, (b && !true) = false := Bool.and_false
    rw [Call.releaseRetention]
    split
    · next hreserved =>
      rw [if_pos hreserved] at hcount
      refine ⟨hcount, ?_⟩
      simp only [hp]
      exact ⟨hphase.1, hphase.2.1, (hnot _).symm⟩
    · next hreserved =>
      refine ⟨hcount, ?_⟩
      simp only [hp]
      exact ⟨hphase.1, hphase.2.1, (Bool.eq_false_of_not_eq_true hreserved).trans (hnot _).symm⟩

theorem keeps_step (h : Inv o s) (e : Event) : Keeps o s (step o s e) := by
  cases e with
  | runL2 key payloadBytes => exact keeps_runL2 h key payloadBytes
  | begin throws => exact keeps_begin h throws
  | callSettled i =>
    rw [step]
    split
    · next hp =>
      have hi : i < s.next := h.books.lt_next (by rw [hp]; nofun)
      refine keeps_retire h hi ((h.books.ok i).returned hp) rfl rfl ?_ ⟨nofun, nofun⟩ ?_
      · rw [hp]
        exact ⟨nofun, nofun⟩
      · rw [hp]
        rfl
    · exact .refl h
  | settle i ok =>
    rw [step]
    split
    · next hp => exact keeps_settle h hp ok
    · exact .refl h
  | timeout i =>
    rw [step]
    split
    · next htimeout =>
      obtain ⟨hjobs, hholds, -⟩ := htimeout
      have hi : i < s.next := h.books.lt_next fun hp => by
        rw [hp] at hholds
        cases hholds
      -- no microtask is pending, so the call has been made
      have hapart : (s.call i).phase ≠ .queued ∧ (s.call i).phase ≠ .starting := by
        refine ⟨fun hp => ?_, fun hp => ?_⟩
        · rw [hp] at hholds
          cases hholds
        · have hmem := (h.books.jobs i).mpr ⟨hi, hp⟩
          rw [hjobs] at hmem
          cases hmem
      obtain ⟨hcount, hphase⟩ := h.books.ok i
      refine keeps_edit h hi (c := { s.call i with outcome := some .timedOut }) ⟨hcount, ?_⟩ rfl
        rfl hapart hapart rfl _
      simp only
      cases hp : (s.call i).phase with
      | out => simpa only [hp] using hphase
      | queued => exact absurd hp hapart.1
      | starting => exact absurd hp hapart.2
      | running => simpa only [hp] using hphase
      | returned => simpa only [hp] using hphase
      | settled => simpa only [hp] using hphase
    · exact .refl h
  | expire i =>
    rw [step]
    split
    · next hmem => exact keeps_expire h hmem
    · exact .refl h
  | answer i => exact keeps_answer h i
  | close => exact keeps_close h
  | foreign f =>
    refine .stay ⟨h.books.active, h.books.activeBytes, h.books.queuedBytes, h.books.queue,
      h.books.jobs, h.books.granted, h.books.sorted, h.books.arrived, h.books.closed,
      fun l hl => ?_, h.books.ok, h.books.fresh⟩ rfl
    obtain ⟨l₀, hl₀, rfl⟩ := Option.map_eq_some_iff.mp hl
    exact (h.books.ledger l₀ hl₀).foreign f

/-! ### One call over time -/

/-- What never changes back in a call. -/
structure Call.Later (c c' : Call) : Prop where
  bytes : c'.bytes = c.bytes
  took : c'.took = c.took
  releases : c.releases ≤ c'.releases
  invocations : c.invocations ≤ c'.invocations
  out : c.phase = .out → c'.phase = .out

theorem Call.Later.refl (c : Call) : c.Later c := ⟨rfl, rfl, le_rfl, le_rfl, id⟩

theorem Call.Later.trans {c c' c'' : Call} (h : c.Later c') (h' : c'.Later c'') : c.Later c'' :=
  ⟨h'.bytes.trans h.bytes, h'.took.trans h.took, h.releases.trans h'.releases,
    h.invocations.trans h'.invocations, fun hp => h'.out (h.out hp)⟩

theorem Call.later_releaseRetention (c : Call) : c.Later c.releaseRetention := by
  rw [Call.releaseRetention]
  split
  · exact ⟨rfl, rfl, Nat.le_succ _, le_rfl, id⟩
  · exact .refl c

theorem later_edit {c : Call} (hc : (s.call i).Later c) (j : ℕ) :
    (s.call j).Later ((s.edit i c).call j) := by
  show (s.call j).Later (Function.update s.call i c j)
  by_cases hj : j = i
  · subst hj
    rw [Function.update_self]
    exact hc
  · rw [Function.update_of_ne hj]
    exact .refl _

theorem later_retire {c : Call} (hc : (s.call i).Later c) (j : ℕ) :
    (s.call j).Later ((s.retire i c).call j) :=
  later_edit (hc.trans c.later_releaseRetention) j

theorem later_start (hp : (s.call i).phase ≠ .out) (j : ℕ) :
    (s.call j).Later ((s.start i).call j) :=
  later_edit (c := { s.call i with phase := .starting })
    ⟨rfl, rfl, le_rfl, le_rfl, fun hout => absurd hout hp⟩ j

/-- `run` concerns the call that it is given. -/
theorem call_run (o : Options) (s : State) (hj : j ≠ i) : (s.run o i).call j = s.call j := by
  rw [State.run]
  split
  · exact Function.update_of_ne hj ..
  · split
    · exact Function.update_of_ne hj ..
    · split
      · exact Function.update_of_ne hj ..
      · exact Function.update_of_ne hj ..

theorem call_runL2 (o : Options) (s : State) (key : CacheKey) (payloadBytes : ℕ)
    (hj : j ≠ s.next) : (s.runL2 o key payloadBytes).call j = s.call j := by
  rw [State.runL2]
  split
  · rw [call_run o _ hj]
    exact Function.update_of_ne hj ..
  · simp only
    split
    · rw [call_run o _ hj]
      exact Function.update_of_ne hj ..
    · exact Function.update_of_ne hj ..

theorem later_settle (h : Books s) (hp : (s.call i).phase = .returned) (ok : Bool) (j : ℕ) :
    (s.call j).Later (((s.vacate i ok).pump o).call j) := by
  have hvacate : ∀ j, (s.call j).Later ((s.vacate i ok).call j) :=
    later_edit (c := { s.call i with
        phase := .settled
        outcome := if (s.call i).outcome = none then some (.settled ok) else (s.call i).outcome })
      ⟨rfl, rfl, le_rfl, le_rfl, fun hout => absurd (hp.symm.trans hout) nofun⟩
  rw [State.pump]
  split
  · exact hvacate j
  · split
    · exact hvacate j
    · next k rest hqueue =>
      have hk : k ∈ s.queue := by
        rw [show s.queue = k :: rest from hqueue]
        exact List.mem_cons_self
      have hkp := ((h.queue k).mp hk).2
      have hne : k ≠ i := by
        rintro rfl
        exact absurd (hp.symm.trans hkp) nofun
      have hsame : (s.vacate i ok).call k = s.call k := Function.update_of_ne hne ..
      refine (hvacate j).trans (later_start (s := { s.vacate i ok with
        queue := rest
        queuedBytes := (s.vacate i ok).queuedBytes - ((s.vacate i ok).call k).bytes }) ?_ j)
      show ((s.vacate i ok).call k).phase ≠ .out
      rw [hsame, hkp]
      nofun

/-- A call that is out of the gate does not come back, and nothing is taken back. -/
theorem later_step (h : Books s) (e : Event) (hj : j < s.next) :
    (s.call j).Later ((step o s e).call j) := by
  cases e with
  | runL2 key payloadBytes =>
    rw [step, call_runL2 o s key payloadBytes hj.ne]
    exact .refl _
  | begin throws =>
    rw [step, State.begin]
    split
    · exact .refl _
    next i rest hjobs =>
    have hp := ((h.jobs i).mp (by rw [hjobs]; exact List.mem_cons_self)).2
    have hnot : (s.call i).phase ≠ .out := by
      rw [hp]
      nofun
    simp only
    split
    · refine later_retire ?_ j
      exact ⟨rfl, rfl, le_rfl, Nat.le_succ _, fun hout => absurd hout hnot⟩
    · refine later_edit ?_ j
      exact ⟨rfl, rfl, le_rfl, Nat.le_succ _, fun hout => absurd hout hnot⟩
  | callSettled i =>
    rw [step]
    split
    · next hp =>
      refine later_retire ?_ j
      exact ⟨rfl, rfl, le_rfl, le_rfl, fun hout => absurd (hp.symm.trans hout) nofun⟩
    · exact .refl _
  | settle i ok =>
    rw [step]
    split
    · next hp => exact later_settle h hp ok j
    · exact .refl _
  | timeout i =>
    rw [step]
    split
    · exact later_edit (c := { s.call i with outcome := some .timedOut })
        ⟨rfl, rfl, le_rfl, le_rfl, id⟩ j
    · exact .refl _
  | expire i =>
    rw [step]
    split
    · exact later_edit (c := { s.call i with phase := .out, outcome := some .overloaded })
        ⟨rfl, rfl, le_rfl, le_rfl, fun _ => rfl⟩ j
    · exact .refl _
  | answer i =>
    rw [step]
    split
    · exact .refl _
    · split
      · exact later_edit (c := { s.call i with answered := true }) ⟨rfl, rfl, le_rfl, le_rfl, id⟩ j
      · exact later_retire (c := { s.call i with answered := true })
          ⟨rfl, rfl, le_rfl, le_rfl, id⟩ j
  | close =>
    show (s.call j).Later (if j ∈ s.queue then
      { s.call j with phase := .out, outcome := some .closed } else s.call j)
    split
    · exact ⟨rfl, rfl, le_rfl, le_rfl, fun _ => rfl⟩
    · exact .refl _
  | foreign f => exact .refl _

/-! ### Runs -/

/-- A budget in which nothing is retained yet, if there is one. -/
abbrev Start := Option { l : Ledger // Balanced l 0 }

/-- The gate after the first `n` events. -/
def stateOf (o : Options) (start : Start) (events : List Event) (n : ℕ) : State :=
  stateAt (step o) (State.init (start.map Subtype.val)) events n

theorem inv_init (o : Options) (start : Start) : Inv o (State.init (start.map Subtype.val)) where
  books := by
    refine ⟨rfl, rfl, rfl, fun i => ?_, fun i => ?_, rfl, .nil, nofun, fun _ => rfl,
      fun l hl => ?_, fun i => ⟨rfl, rfl, rfl, rfl⟩, fun i _ => rfl⟩
    · exact ⟨nofun, fun hi => absurd hi.1 (Nat.not_lt_zero i)⟩
    · exact ⟨nofun, fun hi => absurd hi.1 (Nat.not_lt_zero i)⟩
    · obtain ⟨l₀, -, rfl⟩ := Option.map_eq_some_iff.mp hl
      rw [show tally Call.retained _ (State.init (start.map Subtype.val)).next = 0 from rfl,
        Pi.single_zero]
      exact l₀.2
  gate := SlotGate.Ok.empty o.maxConcurrent

theorem inv_stateOf (o : Options) (start : Start) (events : List Event) (n : ℕ) :
    Inv o (stateOf o start events n) :=
  invariant (inv_init o start) (fun _ e h => (keeps_step h e).inv h) n

theorem next_run (o : Options) (s : State) (i : ℕ) : (s.run o i).next = s.next := by
  rw [State.run]
  split
  · rfl
  · split
    · rfl
    · split <;> rfl

theorem next_le_step (o : Options) (s : State) (e : Event) : s.next ≤ (step o s e).next := by
  cases e with
  | runL2 key payloadBytes =>
    rw [step, State.runL2]
    split
    · rw [next_run]
      exact Nat.le_succ _
    · simp only
      split
      · rw [next_run]
        exact Nat.le_succ _
      · exact Nat.le_succ _
  | begin throws =>
    rw [step, State.begin]
    split
    · exact le_rfl
    · simp only
      split <;> exact le_rfl
  | settle i ok =>
    rw [step]
    split
    · rw [State.pump]
      split
      · exact le_rfl
      · split <;> exact le_rfl
    · exact le_rfl
  | answer i =>
    rw [step]
    split
    · exact le_rfl
    · split <;> exact le_rfl
  | callSettled i => rw [step]; split <;> exact le_rfl
  | timeout i => rw [step]; split <;> exact le_rfl
  | expire i => rw [step]; split <;> exact le_rfl
  | close => exact le_rfl
  | foreign f => exact le_rfl

/-- A call, once made, only moves on. -/
theorem later_stateOf (o : Options) (start : Start) (events : List Event) {m n : ℕ} (hmn : m ≤ n)
    (hi : i < (stateOf o start events m).next) :
    ((stateOf o start events m).call i).Later ((stateOf o start events n).call i) := by
  have hboth : i < (stateOf o start events n).next ∧
      ((stateOf o start events m).call i).Later ((stateOf o start events n).call i) := by
    refine invariant_from (P := fun s : State => i < s.next ∧
      ((stateOf o start events m).call i).Later (s.call i)) ⟨hi, .refl _⟩ (fun k e _ _ h => ?_) n hmn
    obtain ⟨hlt, hlater⟩ := h
    exact ⟨hlt.trans_le (next_le_step o _ e),
      hlater.trans (later_step (inv_stateOf o start events k).books e hlt)⟩
  exact hboth.2

/-- The call has settled, or `runL2` knows that it was never made. -/
def Call.ended (c : Call) : Bool :=
  match c.phase with
  | .returned => true
  | .settled => true
  | .out => c.answered
  | _ => false

theorem Call.Ok.releases (h : c.Ok) : c.releases = if c.took && c.ended then 1 else 0 := by
  obtain ⟨hcount, hphase⟩ := h
  rw [Call.ended]
  cases hp : c.phase with
  | out =>
    rw [hp] at hphase
    rw [hphase.2.2] at hcount
    revert hcount
    cases c.took <;> cases c.answered <;> simp
  | queued =>
    rw [hp] at hphase
    rw [hphase.2.2.1] at hcount
    simpa using hcount
  | starting =>
    rw [hp] at hphase
    rw [hphase.2.2.1] at hcount
    simpa using hcount
  | running =>
    rw [hp] at hphase
    rw [hphase.2.2] at hcount
    simpa using hcount
  | returned =>
    rw [hp] at hphase
    rw [hphase.2.2] at hcount
    simpa using hcount
  | settled =>
    rw [hp] at hphase
    rw [hphase.2.2] at hcount
    simpa using hcount

theorem Call.Ok.invocations_le (h : c.Ok) : c.invocations ≤ 1 := by
  have hphase := h.2
  cases hp : c.phase with
  | out => rw [hp] at hphase; exact hphase.1 ▸ Nat.zero_le 1
  | queued => rw [hp] at hphase; exact hphase.1 ▸ Nat.zero_le 1
  | starting => rw [hp] at hphase; exact hphase.1 ▸ Nat.zero_le 1
  | running => rw [hp] at hphase; exact hphase.1.le
  | returned => rw [hp] at hphase; exact hphase.1.le
  | settled => rw [hp] at hphase; exact hphase.1.le

/-- What is reserved by a call that has not ended. -/
theorem Call.Ok.retained (h : c.Ok) :
    c.retained = if c.took && !c.ended then c.bytes else 0 := by
  have hcount := h.1
  rw [h.releases] at hcount
  rw [Call.retained]
  revert hcount
  cases c.took <;> cases c.ended <;> cases c.reserved <;> simp

/-- The calls that are started and have not settled. -/
def State.started (s : State) : Finset ℕ := holders Call.holds s.call s.next

/-- Slots, bytes, order, invocations and retention, at every moment of a run. -/
structure Contract (o : Options) (start : Start) (events : List Event) : Prop where
  slots : ∀ n, (stateOf o start events n).active ≤ o.maxConcurrent ∧
    (stateOf o start events n).active = (stateOf o start events n).started.card
  activeBytes : ∀ n, (stateOf o start events n).activeBytes =
    ∑ i ∈ (stateOf o start events n).started, ((stateOf o start events n).call i).bytes
  queuedBytes : ∀ n, (stateOf o start events n).queuedBytes =
    ((stateOf o start events n).queue.map fun i => ((stateOf o start events n).call i).bytes).sum
  queue : ∀ n i, i ∈ (stateOf o start events n).queue ↔
    i < (stateOf o start events n).next ∧ ((stateOf o start events n).call i).phase = .queued
  order : ∀ n, ((stateOf o start events n).granted ++
    (stateOf o start events n).queue).Pairwise (· < ·)
  full : ∀ n, (stateOf o start events n).closed = false → (stateOf o start events n).queue ≠ [] →
    (stateOf o start events n).active = o.maxConcurrent
  invocations : ∀ n i, ((stateOf o start events n).call i).invocations ≤ 1
  invoked : ∀ n, (stateOf o start events n).invoked <+: (stateOf o start events n).granted
  refused : ∀ m n i, m ≤ n → i < (stateOf o start events m).next →
    ((stateOf o start events m).call i).phase = .out →
    ((stateOf o start events n).call i).phase = .out ∧
      ((stateOf o start events n).call i).invocations = 0
  releases : ∀ n i, ((stateOf o start events n).call i).releases =
    if ((stateOf o start events n).call i).took && ((stateOf o start events n).call i).ended
      then 1 else 0
  reserved : ∀ n l, (stateOf o start events n).ledger = some l →
    l.budget.categories .queue = l.others .queue +
      ∑ i ∈ holders (fun c => c.took && !c.ended) (stateOf o start events n).call
        (stateOf o start events n).next, ((stateOf o start events n).call i).bytes

theorem l2_contract (o : Options) (start : Start) (events : List Event) :
    Contract o start events where
  slots n := by
    have h := inv_stateOf o start events n
    exact ⟨by rw [← h.books.card]; exact h.gate.card, h.books.card.symm⟩
  activeBytes n := by
    rw [(inv_stateOf o start events n).books.activeBytes, State.started, sum_holders]
    rfl
  queuedBytes n := (inv_stateOf o start events n).books.queuedBytes
  queue n := (inv_stateOf o start events n).books.queue
  order n := by
    have h := inv_stateOf o start events n
    exact h.books.sorted.sublist h.gate.order
  full n _ hqueue := by
    have h := inv_stateOf o start events n
    rw [← h.books.card]
    exact h.gate.full hqueue
  invocations n i := ((inv_stateOf o start events n).books.ok i).invocations_le
  invoked n := by
    rw [(inv_stateOf o start events n).books.granted]
    exact List.prefix_append _ _
  refused m n i hmn hi hp := by
    have hout := (later_stateOf o start events hmn hi).out hp
    have hphase := ((inv_stateOf o start events n).books.ok i).2
    rw [hout] at hphase
    exact ⟨hout, hphase.1⟩
  releases n i := ((inv_stateOf o start events n).books.ok i).releases
  reserved n l hl := by
    have h := (inv_stateOf o start events n).books
    have hshare := (h.ledger l hl).share .queue
    rw [Pi.single_eq_same] at hshare
    rw [hshare, sum_holders]
    refine congrArg _ (Finset.sum_congr rfl fun i _ => ?_)
    exact (h.ok i).retained

end L2OperationGate
