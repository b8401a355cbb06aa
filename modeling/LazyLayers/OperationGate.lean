/-
The bounded dispatcher of the transaction store (`BoundedOperationGate` and
`RedisOperationStore.dispatch`).

A call waits in the gate's queue, is started, runs `transport.execute` and gives
its slot back when the promise of `execute` settles, which may be long after its
caller was told that it timed out.  Any number of stores may share the gate, and
other code may use it directly.

One `Event` is one job of the event loop.  Jobs interleave freely, with the one
rule of the loop that the protocol rests on: a timer fires only when no
microtask is pending, so never between `start` and the microtask that runs the
call.  Timers are otherwise free to fire at any time.

* `run`, `start`, `pump`, `close` — the gate;
* `catchError` — how `dispatch` classifies what it caught;
* `Inv` — the accounting of the gate and the history of every call, preserved by
  `inv_step`;
* `not_dispatched_truthful` — a call that is told it was not dispatched never
  reaches the transport, before or after.
-/
import LazyLayers.Runs
import Mathlib.Algebra.BigOperators.Group.Finset.Basic

open Runs Finset

namespace OperationGate

/-! ### Errors -/

/-- What a promise of the dispatcher may reject with.  `protocol` stands for every
error that `protocolError` recognises. -/
inductive Thrown
  | unavailable (message : String)
  | gateClosed
  | dispatchTimeout
  | configuration
  | protocol
  | unknown
  | invalidReply
  | other
  deriving DecidableEq, Repr

/-- `OperationUnavailableError` and its subclass `OperationGateClosedError`. -/
def Thrown.beforeDispatch : Thrown → Bool
  | .unavailable _ => true
  | .gateClosed => true
  | _ => false

/-- The `catch` block of `dispatch`. -/
def catchError (operation : String) (dispatched : Bool) (error : Thrown) : Thrown :=
  if error = .protocol then .protocol
  else if error = .configuration then error
  else if error.beforeDispatch ∧ ¬ dispatched then error
  else if ¬ dispatched then .unavailable s!"Transaction {operation} was not dispatched"
  else .unknown

/-! ### State -/

structure Options where
  maxConcurrent : ℕ
  maxQueued : ℕ
  maxQueuedBytes : ℕ
  maxConcurrent_pos : 0 < maxConcurrent

/-- Where a call stands: refused or taken out of the queue, in the queue, started
with its microtask pending, in the transport, settled, or out of its slot. -/
inductive Phase
  | turnedAway
  | queued
  | starting
  | running
  | settled
  | released
  deriving DecidableEq, Repr

/-- One call of `gate.run`.  `store` is the store that made it, if one did;
`dispatched` is the flag of `dispatch`, `executions` counts how often
`transport.execute` was invoked, `result` is what `gate.run` settled with and
`answer` what the caller was given.  A value says whether it decodes. -/
structure Call where
  store : Option ℕ
  operation : String
  bytes : ℕ
  deadline : ℕ
  phase : Phase
  dispatched : Bool
  executions : ℕ
  result : Option (Except Thrown Bool)
  answer : Option (Except Thrown Unit)

/-- The slots a call holds. -/
def Call.slots (c : Call) : ℕ :=
  match c.phase with
  | .starting => 1
  | .running => 1
  | .settled => 1
  | _ => 0

structure State where
  now : ℕ
  active : ℕ
  activeBytes : ℕ
  queuedBytes : ℕ
  queue : List ℕ
  closed : Bool
  rejected : ℕ
  expired : ℕ
  commandTimeouts : ℕ
  closedStores : List ℕ
  /-- The stores whose `transport.canDispatch()` is false. -/
  notReady : List ℕ
  next : ℕ
  call : ℕ → Call

def blankCall : Call := ⟨none, "", 0, 0, .turnedAway, false, 0, none, none⟩

def State.init : State :=
  ⟨0, 0, 0, 0, [], false, 0, 0, 0, [], [], 0, fun _ => blankCall⟩

/-! ### The gate -/

def State.update (s : State) (i : ℕ) (c : Call) : State :=
  { s with call := Function.update s.call i c }

theorem State.call_update_self (s : State) (i : ℕ) (c : Call) : (s.update i c).call i = c :=
  Function.update_self ..

theorem State.call_update_of_ne (s : State) {i j : ℕ} (h : j ≠ i) (c : Call) :
    (s.update i c).call j = s.call j :=
  Function.update_of_ne h ..

/-- The promise of `gate.run` rejects and the call never starts. -/
def State.turnAway (s : State) (i : ℕ) (error : Thrown) : State :=
  s.update i { s.call i with phase := .turnedAway, result := some (.error error) }

/-- `start(operation, call, bytes, deadline)` -/
def State.start (s : State) (i : ℕ) : State :=
  { s.update i { s.call i with phase := .starting } with
    active := s.active + 1
    activeBytes := s.activeBytes + (s.call i).bytes }

/-- The loop of `pump`, on the waiters that are left. -/
def pumpQueue (o : Options) : List ℕ → State → State
  | [], s => { s with queue := [] }
  | i :: rest, s =>
    if s.active < o.maxConcurrent then
      if (s.call i).deadline ≤ s.now then
        pumpQueue o rest
          { s.turnAway i (.unavailable
              s!"Transaction dispatch deadline elapsed for {(s.call i).operation}") with
            queuedBytes := s.queuedBytes - (s.call i).bytes
            expired := s.expired + 1 }
      else
        pumpQueue o rest { s.start i with queuedBytes := s.queuedBytes - (s.call i).bytes }
    else { s with queue := i :: rest }

def State.pump (o : Options) (s : State) : State :=
  if s.closed then s else pumpQueue o s.queue s

/-- `Number.MAX_SAFE_INTEGER` -/
def maxSafeInteger : ℕ := 9007199254740991

/-- What the caller of `gate.run` gave it; a size that is negative or not finite, or a
deadline that is not finite, is `none`.  The sizes are whole numbers of bytes, as those
that the stores pass: a caller of the gate may also give it a fraction, and the sum of
what runs may then be rounded. -/
structure RunOptions where
  bytes : Option ℕ
  deadline : Option ℕ
  aborted : Bool

/-- The size, unless it is refused. -/
def RunOptions.size (options : RunOptions) : Option ℕ :=
  options.bytes.filter fun bytes => bytes ≤ maxSafeInteger

/-- `run(operation, call, options)` for the call `c`, which becomes the next one. -/
def State.run (o : Options) (s : State) (c : Call) (options : RunOptions) : State :=
  let i := s.next
  let s := { s.update i c with next := i + 1 }
  if s.closed then s.turnAway i .gateClosed
  else
    match options.size, options.deadline with
    | none, _ => s.turnAway i (.unavailable "Invalid transaction dispatch size")
    | _, none => s.turnAway i (.unavailable "Invalid transaction dispatch deadline")
    | some bytes, some deadline =>
      let s := s.update i { c with bytes := bytes, deadline := deadline }
      if deadline ≤ s.now then
        s.turnAway i (.unavailable "Transaction dispatch deadline elapsed")
      else if s.active < o.maxConcurrent ∧ s.queue = [] then s.start i
      else if o.maxQueued ≤ s.queue.length ∨ o.maxQueuedBytes < s.queuedBytes + bytes then
        { s.turnAway i (.unavailable s!"Transaction dispatch queue is full for {c.operation}") with
          rejected := s.rejected + 1 }
      else if options.aborted then
        s.turnAway i (.unavailable s!"Transaction dispatch was cancelled for {c.operation}")
      else
        { s.update i { c with bytes := bytes, deadline := deadline, phase := .queued } with
          queue := s.queue ++ [i]
          queuedBytes := s.queuedBytes + bytes }

/-- A waiter leaves the queue without having started. -/
def State.dequeue (s : State) (i : ℕ) (error : Thrown) : State :=
  { s.turnAway i error with
    queue := s.queue.erase i
    queuedBytes := s.queuedBytes - (s.call i).bytes }

/-- The loop of `close`. -/
def turnAwayAll : List ℕ → State → State
  | [], s => s
  | i :: rest, s => turnAwayAll rest (s.turnAway i .gateClosed)

def State.close (s : State) : State :=
  if s.closed then s
  else { turnAwayAll s.queue s with closed := true, queue := [], queuedBytes := 0 }

/-! ### Jobs -/

inductive Event
  /-- A method of store `store` reaches `dispatch`; `elapsed` is what the clock
  advances between the computation of the deadline and its first check. -/
  | submit (store : ℕ) (operation : String) (operationTimeoutMs bytes elapsed : ℕ)
  /-- Other code calls `gate.run`. -/
  | direct (operation : String) (options : RunOptions)
  /-- The microtask that runs the call. -/
  | begin (i : ℕ)
  /-- The promise of the call settles. -/
  | settle (i : ℕ) (r : Except Thrown Bool)
  /-- The `finally` of `start`. -/
  | release (i : ℕ)
  /-- The queue timer. -/
  | expire (i : ℕ)
  /-- The command timer. -/
  | timeout (i : ℕ)
  /-- The abort signal of a direct call. -/
  | abort (i : ℕ)
  /-- The caller's continuation. -/
  | observe (i : ℕ)
  | closeGate
  | closeStore (store : ℕ)
  | ready (store : ℕ) (b : Bool)
  | tick (ms : ℕ)

/-- The call that a store hands to the gate. -/
def Call.ofStore (store : ℕ) (operation : String) : Call :=
  { blankCall with store := some store, operation := operation }

/-- The body of the call that `dispatch` passes to the gate. -/
def State.begin (s : State) (i : ℕ) : State :=
  let c := s.call i
  match c.store with
  | none => s.update i { c with phase := .running }
  | some store =>
    if c.deadline ≤ s.now then
      s.update i { c with
        phase := .settled
        result := c.result.or
          (some (.error (.unavailable "Transaction dispatch deadline elapsed"))) }
    else if store ∈ s.notReady then
      s.update i { c with
        phase := .settled
        result := c.result.or (some (.error (.unavailable "Transaction primary is not ready"))) }
    else
      s.update i { c with
        phase := .running, dispatched := true, executions := c.executions + 1 }

/-- What `dispatch` gives to its caller once `gate.run` has settled. -/
def Call.conclude (c : Call) (r : Except Thrown Bool) : Except Thrown Unit :=
  match r with
  | .ok true => .ok ()
  | .ok false => .error (catchError c.operation c.dispatched .invalidReply)
  | .error e => .error (catchError c.operation c.dispatched e)

/-- No microtask that starts a call is pending. -/
def State.Drained (s : State) : Prop := ∀ i < s.next, (s.call i).phase ≠ .starting

instance (s : State) : Decidable s.Drained := inferInstanceAs (Decidable (∀ i < s.next, _))

/-- One job; a job that cannot run leaves the state as it is. -/
def step (o : Options) (s : State) : Event → State
  | .submit store operation operationTimeoutMs bytes elapsed =>
    if store ∈ s.closedStores then
      { s.update s.next { Call.ofStore store operation with
          result := some (.error (.unavailable "Transaction operation store is closed"))
          answer := some (.error (.unavailable "Transaction operation store is closed")) } with
        next := s.next + 1 }
    else
      State.run o { s with now := s.now + elapsed } (Call.ofStore store operation)
        ⟨some bytes, some (s.now + operationTimeoutMs), false⟩
  | .direct operation options => s.run o { blankCall with operation := operation } options
  | .begin i => if (s.call i).phase = .starting then s.begin i else s
  | .settle i r =>
    if (s.call i).phase = .running then
      s.update i { s.call i with phase := .settled, result := (s.call i).result.or (some r) }
    else s
  | .release i =>
    if (s.call i).phase = .settled then
      State.pump o { s.update i { s.call i with phase := .released } with
        active := s.active - 1
        activeBytes := s.activeBytes - (s.call i).bytes }
    else s
  | .expire i =>
    if s.Drained ∧ i ∈ s.queue then
      { s.dequeue i (.unavailable
          s!"Transaction dispatch queue expired for {(s.call i).operation}") with
        expired := s.expired + 1 }
    else s
  | .timeout i =>
    if s.Drained ∧ ((s.call i).phase = .running ∨ (s.call i).phase = .settled) then
      { s.update i { s.call i with result := (s.call i).result.or (some (.error .dispatchTimeout)) }
        with commandTimeouts := s.commandTimeouts + 1 }
    else s
  | .abort i =>
    if i ∈ s.queue ∧ (s.call i).store = none then
      s.dequeue i (.unavailable s!"Transaction dispatch was cancelled for {(s.call i).operation}")
    else s
  | .observe i =>
    match (s.call i).store, (s.call i).result, (s.call i).answer with
    | some _, some r, none => s.update i { s.call i with answer := some ((s.call i).conclude r) }
    | _, _, _ => s
  | .closeGate => s.close
  | .closeStore store =>
    if store ∈ s.closedStores then s
    else { s.close with closedStores := store :: s.closedStores }
  | .ready store b =>
    { s with notReady := if b then s.notReady.erase store else store :: s.notReady }
  | .tick ms => { s with now := s.now + ms }

/-! ### Calls -/

/-- What holds of every call: the transport is invoked at most once, only after
`dispatched` was set, and never for a call that has been told otherwise. -/
structure Call.Ok (c : Call) : Prop where
  executions : c.executions = if c.dispatched then 1 else 0
  waiting : c.phase = .turnedAway ∨ c.phase = .queued ∨ c.phase = .starting →
    c.dispatched = false
  running : c.phase = .running → c.store.isSome → c.dispatched = true
  result : c.result.isSome → c.phase ≠ .queued ∧ c.phase ≠ .starting
  answer : ∀ e, c.answer = some (.error e) → e.beforeDispatch = true →
    c.dispatched = false ∧ c.result.isSome

theorem Call.Ok.blank {c : Call} (h : c.dispatched = false) (hx : c.executions = 0)
    (hp : c.phase = .turnedAway) (ha : c.answer = none) : c.Ok := by
  refine ⟨by rw [hx, h]; rfl, fun _ => h, fun hr => ?_, fun _ => ?_, fun e he => ?_⟩
  · rw [hp] at hr
    cases hr
  · rw [hp]
    decide
  · rw [ha] at he
    cases he

/-- A call that was never dispatched and does not start any more. -/
theorem Call.Ok.turnAway {c : Call} (h : c.Ok) (hd : c.dispatched = false) (e : Thrown) :
    Call.Ok { c with phase := .turnedAway, result := some (.error e) } :=
  ⟨h.executions, fun _ => hd, fun hr => (by cases hr), fun _ => ⟨nofun, nofun⟩,
    fun e he hb => ⟨(h.answer e he hb).1, rfl⟩⟩

/-- `dispatch` says "not dispatched" only when the flag is not set. -/
theorem catchError_beforeDispatch {operation : String} {dispatched : Bool} {e : Thrown}
    (h : (catchError operation dispatched e).beforeDispatch = true) : dispatched = false := by
  cases dispatched with
  | false => rfl
  | true =>
    unfold catchError at h
    split at h
    · cases h
    · split at h
      · next hconf =>
        rw [hconf] at h
        cases h
      · rw [if_neg (by simp), if_neg (by simp)] at h
        cases h

/-! ### The accounting -/

/-- The sum of `f` over the calls. -/
def State.total (s : State) (f : Call → ℕ) : ℕ := ∑ i ∈ range s.next, f (s.call i)

theorem State.total_update (s : State) (f : Call → ℕ) {i : ℕ} (hi : i < s.next) (c : Call) :
    (s.update i c).total f + f (s.call i) = s.total f + f c := by
  have hmem : i ∈ range s.next := mem_range.mpr hi
  have hrest : ∑ j ∈ (range s.next).erase i, f (Function.update s.call i c j) =
      ∑ j ∈ (range s.next).erase i, f (s.call j) := by
    refine sum_congr rfl fun j hj => ?_
    rw [Function.update_of_ne (ne_of_mem_erase hj)]
  have hnew : (s.update i c).total f = ∑ j ∈ range s.next, f (Function.update s.call i c j) := rfl
  rw [hnew, State.total, ← add_sum_erase _ _ hmem, ← add_sum_erase (range s.next) _ hmem, hrest,
    Function.update_self]
  omega

/-- The bytes held by the slots of a call. -/
def Call.slotBytes (c : Call) : ℕ := c.slots * c.bytes

/-- The accounting of the gate when its queue is `queue`, and the history of each call. -/
structure Core (o : Options) (queue : List ℕ) (s : State) : Prop where
  bounded : s.active ≤ o.maxConcurrent
  active : s.active = s.total Call.slots
  activeBytes : s.activeBytes = s.total Call.slotBytes
  queued : ∀ i, i ∈ queue ↔ i < s.next ∧ (s.call i).phase = .queued
  nodup : queue.Nodup
  queuedBytes : s.queuedBytes = (queue.map fun i => (s.call i).bytes).sum
  fresh : ∀ i, s.next ≤ i → s.call i = blankCall
  calls : ∀ i, (s.call i).Ok

/-- The invariant: the accounting, and no free slot while a call waits. -/
structure Inv (o : Options) (s : State) : Prop extends Core o s.queue s where
  full : s.closed = false → s.queue ≠ [] → s.active = o.maxConcurrent

variable {o : Options} {q q' : List ℕ} {s s' : State} {i : ℕ}

/-- Only the counters and the calls matter to the accounting. -/
theorem Core.frame (h : Core o q s) (hcall : s'.call = s.call) (hnext : s'.next = s.next)
    (hact : s'.active = s.active) (hbytes : s'.activeBytes = s.activeBytes)
    (hqueued : s'.queuedBytes = s.queuedBytes) : Core o q s' := by
  have htotal : ∀ f, s'.total f = s.total f := by
    intro f
    rw [State.total, State.total, hcall, hnext]
  refine ⟨?_, ?_, ?_, ?_, h.nodup, ?_, ?_, ?_⟩
  · rw [hact]
    exact h.bounded
  · rw [hact, htotal]
    exact h.active
  · rw [hbytes, htotal]
    exact h.activeBytes
  · rw [hcall, hnext]
    exact h.queued
  · rw [hqueued, hcall]
    exact h.queuedBytes
  · rw [hcall, hnext]
    exact h.fresh
  · rw [hcall]
    exact h.calls

/-- **One call changes**: its slots and bytes are accounted for, and it enters or
leaves the queue with its phase. -/
theorem Core.move (h : Core o q s) (hi : i < s.next) {c : Call} (hok : c.Ok)
    (hcall : s'.call = Function.update s.call i c) (hnext : s'.next = s.next)
    (hbound : s'.active ≤ o.maxConcurrent)
    (hact : s'.active + (s.call i).slots = s.active + c.slots)
    (hbytes : s'.activeBytes + (s.call i).slotBytes = s.activeBytes + c.slotBytes)
    (hqueue : ∀ j, j ∈ q' ↔ if j = i then c.phase = .queued else j ∈ q) (hnodup : q'.Nodup)
    (hqueued : s'.queuedBytes = (q'.map fun j => (s'.call j).bytes).sum) : Core o q' s' := by
  have htotal : ∀ f, s'.total f + f (s.call i) = s.total f + f c := by
    intro f
    rw [← State.total_update s f hi c, State.total, State.total, hcall, hnext]
    rfl
  refine ⟨hbound, ?_, ?_, ?_, hnodup, hqueued, ?_, ?_⟩
  · have := htotal Call.slots
    have := h.active
    omega
  · have := htotal Call.slotBytes
    have := h.activeBytes
    omega
  · intro j
    rw [hqueue j, hcall, hnext]
    by_cases hj : j = i
    · subst hj
      rw [if_pos rfl, Function.update_self]
      exact ⟨fun hc => ⟨hi, hc⟩, fun hc => hc.2⟩
    · rw [if_neg hj, Function.update_of_ne hj]
      exact h.queued j
  · intro j hj
    rw [hnext] at hj
    rw [hcall, Function.update_of_ne (by omega)]
    exact h.fresh j hj
  · intro j
    rw [hcall]
    by_cases hj : j = i
    · subst hj
      rw [Function.update_self]
      exact hok
    · rw [Function.update_of_ne hj]
      exact h.calls j

/-- A call that changes without entering or leaving the queue or a slot. -/
theorem Core.edit (h : Core o q s) (hi : i < s.next) {c : Call} (hok : c.Ok)
    (hslots : c.slots = (s.call i).slots) (hbytes : c.bytes = (s.call i).bytes)
    (hphase : c.phase = .queued ↔ (s.call i).phase = .queued) : Core o q (s.update i c) := by
  refine h.move hi hok rfl rfl h.bounded ?_ ?_ (fun j => ?_) h.nodup ?_
  · rw [hslots]
    rfl
  · rw [Call.slotBytes, Call.slotBytes, hslots, hbytes]
    rfl
  · split
    · next hj =>
      rw [hj, h.queued i, hphase]
      exact ⟨fun hc => hc.2, fun hc => ⟨hi, hc⟩⟩
    · exact Iff.rfl
  · have hsame : ∀ j, ((s.update i c).call j).bytes = (s.call j).bytes := by
      intro j
      by_cases hj : j = i
      · rw [hj, s.call_update_self, hbytes]
      · rw [s.call_update_of_ne hj]
    simp only [hsame]
    exact h.queuedBytes

/-- A call that does not wait is not in the queue. -/
theorem Core.not_mem (h : Core o q s) (hp : (s.call i).phase ≠ .queued) : i ∉ q :=
  fun hm => hp ((h.queued i).mp hm).2

theorem Core.lt_next (h : Core o q s) (hp : (s.call i).phase ≠ .turnedAway) : i < s.next := by
  by_contra hi
  rw [h.fresh i (by omega)] at hp
  exact hp rfl

/-- The bytes of the other waiters do not change when one call does. -/
theorem queuedBytes_update {c : Call} (hi : i ∉ q) :
    (q.map fun j => ((s.update i c).call j).bytes).sum = (q.map fun j => (s.call j).bytes).sum := by
  congr 1
  refine List.map_congr_left fun j hj => ?_
  have hne : j ≠ i := fun hji => hi (hji ▸ hj)
  rw [s.call_update_of_ne hne]

/-! ### The operations keep the accounting -/

theorem Core.ok_turnAway (h : Core o q s) (hp : (s.call i).phase = .turnedAway ∨
    (s.call i).phase = .queued) (e : Thrown) :
    Call.Ok { s.call i with phase := .turnedAway, result := some (.error e) } := by
  refine (h.calls i).turnAway ((h.calls i).waiting ?_) e
  rcases hp with hp | hp
  · exact .inl hp
  · exact .inr (.inl hp)

/-- A call that waits leaves the queue without starting. -/
theorem Core.leave (h : Core o q s) (hi : i ∈ q) (e : Thrown) (hcall : s'.call =
      Function.update s.call i { s.call i with phase := .turnedAway, result := some (.error e) })
    (hnext : s'.next = s.next) (hact : s'.active = s.active)
    (hbytes : s'.activeBytes = s.activeBytes)
    (hqueued : s'.queuedBytes = s.queuedBytes - (s.call i).bytes) : Core o (q.erase i) s' := by
  obtain ⟨hlt, hphase⟩ := (h.queued i).mp hi
  have hzero : (s.call i).slots = 0 := by rw [Call.slots, hphase]
  refine h.move hlt (h.ok_turnAway (.inr hphase) e) hcall hnext ?_ ?_ ?_ (fun j => ?_)
    (h.nodup.erase i) ?_
  · rw [hact]
    exact h.bounded
  · rw [hact, hzero]
    rfl
  · rw [hbytes, Call.slotBytes, hzero, Call.slotBytes, Nat.zero_mul]
    show s.activeBytes + 0 = s.activeBytes + 0 * _
    rw [Nat.zero_mul]
  · rw [h.nodup.mem_erase_iff]
    split
    · next hj => exact iff_of_false (fun hc => hc.1 hj) nofun
    · next hj => exact ⟨fun hc => hc.2, fun hc => ⟨hj, hc⟩⟩
  · have hsum : (q.map fun j => (s.call j).bytes).sum =
        (s.call i).bytes + ((q.erase i).map fun j => (s.call j).bytes).sum := by
      rw [← List.sum_cons, ← List.map_cons (f := fun j => (s.call j).bytes)]
      exact ((List.perm_cons_erase hi).map _).sum_eq
    have hrest : ((q.erase i).map fun j => (s'.call j).bytes).sum =
        ((q.erase i).map fun j => (s.call j).bytes).sum := by
      rw [hcall]
      exact queuedBytes_update (h.nodup.not_mem_erase)
    have := h.queuedBytes
    omega

/-- A waiting or new call takes a slot. -/
theorem Core.enter (h : Core o q s) (hlt : i < s.next)
    (hp : (s.call i).phase = .queued ∨ (s.call i).phase = .turnedAway)
    (hres : (s.call i).result = none) (hfree : s.active < o.maxConcurrent)
    (hcall : s'.call = Function.update s.call i { s.call i with phase := .starting })
    (hnext : s'.next = s.next) (hact : s'.active = s.active + 1)
    (hbytes : s'.activeBytes = s.activeBytes + (s.call i).bytes)
    (hqueued : s'.queuedBytes = ((q.erase i).map fun j => (s.call j).bytes).sum) :
    Core o (q.erase i) s' := by
  have hzero : (s.call i).slots = 0 := by
    rcases hp with hp | hp <;> rw [Call.slots, hp]
  have hok := h.calls i
  have hd : (s.call i).dispatched = false :=
    hok.waiting (hp.elim (fun hp => .inr (.inl hp)) .inl)
  have hstart : Call.Ok { s.call i with phase := .starting } := by
    refine ⟨hok.executions, fun _ => hd, fun hr => (by cases hr), fun hr => ?_, hok.answer⟩
    rw [show ({ s.call i with phase := Phase.starting } : Call).result = none from hres] at hr
    cases hr
  refine h.move hlt hstart hcall hnext ?_ ?_ ?_ (fun j => ?_) (h.nodup.erase i) ?_
  · omega
  · rw [hact, hzero]
    rfl
  · rw [hbytes, Call.slotBytes, hzero, Call.slotBytes]
    show s.activeBytes + (s.call i).bytes + 0 * _ = s.activeBytes + 1 * (s.call i).bytes
    omega
  · rw [h.nodup.mem_erase_iff]
    split
    · next hj => exact iff_of_false (fun hc => hc.1 hj) nofun
    · next hj => exact ⟨fun hc => hc.2, fun hc => ⟨hj, hc⟩⟩
  · rw [hqueued, hcall]
    exact (queuedBytes_update (h.nodup.not_mem_erase)).symm

/-- The waiter at the head of the queue has not been answered. -/
theorem Core.waiting_result (h : Core o q s) (hi : i ∈ q) : (s.call i).result = none := by
  obtain ⟨-, hphase⟩ := (h.queued i).mp hi
  cases hr : (s.call i).result with
  | none => rfl
  | some r => exact absurd hphase ((h.calls i).result (by rw [hr]; rfl)).1

/-- The loop of `pump` keeps the accounting and stops only when the slots are
full or nobody waits. -/
theorem core_pumpQueue : ∀ (q : List ℕ) (s : State), Core o q s →
    Core o (pumpQueue o q s).queue (pumpQueue o q s) ∧
      ((pumpQueue o q s).queue ≠ [] → (pumpQueue o q s).active = o.maxConcurrent)
  | [], s, h => ⟨h.frame rfl rfl rfl rfl rfl, fun hne => absurd rfl hne⟩
  | i :: rest, s, h => by
    have hi : i ∈ i :: rest := List.mem_cons_self
    have herase : (i :: rest).erase i = rest := List.erase_cons_head i rest
    have hsum : s.queuedBytes - (s.call i).bytes = (rest.map fun j => (s.call j).bytes).sum := by
      rw [h.queuedBytes, List.map_cons, List.sum_cons]
      omega
    rw [pumpQueue]
    split
    · next hfree =>
      split
      · have hleave : Core o ((i :: rest).erase i)
            { s.turnAway i (.unavailable
                s!"Transaction dispatch deadline elapsed for {(s.call i).operation}") with
              queuedBytes := s.queuedBytes - (s.call i).bytes
              expired := s.expired + 1 } := h.leave hi _ rfl rfl rfl rfl rfl
        rw [herase] at hleave
        exact core_pumpQueue rest _ hleave
      · obtain ⟨hlt, hphase⟩ := (h.queued i).mp hi
        have henter : Core o ((i :: rest).erase i)
            { s.start i with queuedBytes := s.queuedBytes - (s.call i).bytes } :=
          h.enter hlt (.inl hphase) (h.waiting_result hi) hfree rfl rfl rfl rfl
            (by rw [herase]; exact hsum)
        rw [herase] at henter
        exact core_pumpQueue rest _ henter
    · next hfull =>
      have hbound := h.bounded
      refine ⟨h.frame rfl rfl rfl rfl rfl, fun _ => ?_⟩
      show s.active = o.maxConcurrent
      omega

theorem turnAwayAll_queuedBytes (q : List ℕ) (s : State) (n : ℕ) :
    turnAwayAll q { s with queuedBytes := n } = { turnAwayAll q s with queuedBytes := n } := by
  induction q generalizing s with
  | nil => rfl
  | cons i rest ih => exact ih (s.turnAway i .gateClosed)

/-- The loop of `close`: everybody who waits is turned away. -/
theorem core_turnAwayAll : ∀ (q : List ℕ) (s : State), Core o q s →
    Core o [] { turnAwayAll q s with queuedBytes := 0 }
  | [], s, h => h.frame rfl rfl rfl rfl h.queuedBytes.symm
  | i :: rest, s, h => by
    have hleave : Core o ((i :: rest).erase i) { s.turnAway i .gateClosed with
        queuedBytes := s.queuedBytes - (s.call i).bytes } :=
      h.leave List.mem_cons_self _ rfl rfl rfl rfl rfl
    rw [List.erase_cons_head] at hleave
    have ih := core_turnAwayAll rest _ hleave
    rw [turnAwayAll_queuedBytes] at ih
    exact ih

/-- A new call, not yet admitted. -/
theorem Core.create (h : Core o q s) {c : Call} (hok : c.Ok) (hp : c.phase = .turnedAway)
    (hcall : s'.call = Function.update s.call s.next c) (hnext : s'.next = s.next + 1)
    (hact : s'.active = s.active) (hbytes : s'.activeBytes = s.activeBytes)
    (hqueued : s'.queuedBytes = s.queuedBytes) : Core o q s' := by
  have hzero : c.slots = 0 := by rw [Call.slots, hp]
  have hnew : s.next ∉ q := fun hm => absurd ((h.queued _).mp hm).1 (Nat.lt_irrefl _)
  have htotal : ∀ f : Call → ℕ, f c = 0 → s'.total f = s.total f := by
    intro f hf
    rw [State.total, hnext, sum_range_succ, hcall, Function.update_self, hf, Nat.add_zero,
      State.total]
    refine sum_congr rfl fun j hj => ?_
    rw [Function.update_of_ne (by have := mem_range.mp hj; omega)]
  refine ⟨?_, ?_, ?_, fun j => ?_, h.nodup, ?_, fun j hj => ?_, fun j => ?_⟩
  · rw [hact]
    exact h.bounded
  · rw [hact, htotal _ hzero]
    exact h.active
  · rw [hbytes, htotal _ (by rw [Call.slotBytes, hzero, Nat.zero_mul])]
    exact h.activeBytes
  · rw [h.queued j, hcall, hnext]
    by_cases hj : j = s.next
    · rw [hj, Function.update_self, hp]
      exact iff_of_false (fun hc => absurd hc.1 (Nat.lt_irrefl _)) fun hc => by cases hc.2
    · rw [Function.update_of_ne hj]
      exact and_congr_left fun _ => ⟨fun hlt => by omega, fun hlt => by omega⟩
  · rw [hqueued, h.queuedBytes, hcall]
    exact (queuedBytes_update hnew).symm
  · rw [hcall, Function.update_of_ne (by omega)]
    exact h.fresh j (by omega)
  · rw [hcall]
    by_cases hj : j = s.next
    · rw [hj, Function.update_self]
      exact hok
    · rw [Function.update_of_ne hj]
      exact h.calls j

/-- A call outside the queue is refused. -/
theorem Core.refuse (h : Core o q s) (hlt : i < s.next) (hp : (s.call i).phase = .turnedAway)
    (e : Thrown) : Core o q (s.turnAway i e) := by
  refine h.edit hlt (h.ok_turnAway (.inl hp) e) ?_ rfl ?_
  · rw [Call.slots, Call.slots, hp]
  · rw [hp]

/-- A call that nobody has looked at yet. -/
structure Call.Fresh (c : Call) : Prop where
  phase : c.phase = .turnedAway
  dispatched : c.dispatched = false
  executions : c.executions = 0
  result : c.result = none
  answer : c.answer = none

theorem Call.Fresh.ok {c : Call} (h : c.Fresh) : c.Ok :=
  .blank h.dispatched h.executions h.phase h.answer

/-- `gate.run` keeps the invariant: the call is refused, starts in a free slot, or
joins a queue behind full slots. -/
theorem inv_run (h : Inv o s) {c : Call} (hc : c.Fresh) (options : RunOptions) :
    Inv o (s.run o c options) := by
  have hcore : ∀ (c' : Call) (s₁ : State), c'.Fresh → s₁.call = Function.update s.call s.next c' →
      s₁.next = s.next + 1 → s₁.active = s.active → s₁.activeBytes = s.activeBytes →
      s₁.queuedBytes = s.queuedBytes → Core o s.queue s₁ :=
    fun c' s₁ hc' hcall hnext hact hbytes hqueued =>
      h.toCore.create hc'.ok hc'.phase hcall hnext hact hbytes hqueued
  -- a refused call changes neither the queue nor the slots
  have hrefuse : ∀ (s₁ : State) (e : Thrown), Core o s.queue s₁ → s₁.next = s.next + 1 →
      (s₁.call s.next).phase = .turnedAway → s₁.queue = s.queue → s₁.closed = s.closed →
      s₁.active = s.active → Inv o (s₁.turnAway s.next e) := by
    intro s₁ e hs₁ hnext hp hq hcl hact
    have hr := hs₁.refuse (by omega) hp e
    refine ⟨?_, fun hopen hne => ?_⟩
    · rw [show (s₁.turnAway s.next e).queue = s.queue from hq]
      exact hr
    · rw [show (s₁.turnAway s.next e).active = s.active from hact]
      refine h.full (hcl ▸ hopen) ?_
      rw [← hq]
      exact hne
  have hself : ∀ c' : Call, c'.Fresh →
      (Function.update s.call s.next c' s.next).phase = .turnedAway := by
    intro c' hc'
    rw [Function.update_self]
    exact hc'.phase
  unfold State.run
  dsimp only
  split
  · exact hrefuse _ _ (hcore c _ hc rfl rfl rfl rfl rfl) rfl (hself c hc) rfl rfl rfl
  · next hopen =>
    split
    · exact hrefuse _ _ (hcore c _ hc rfl rfl rfl rfl rfl) rfl (hself c hc) rfl rfl rfl
    · exact hrefuse _ _ (hcore c _ hc rfl rfl rfl rfl rfl) rfl (hself c hc) rfl rfl rfl
    · next bytes deadline _ _ =>
      have hc' : ({ c with bytes := bytes, deadline := deadline } : Call).Fresh :=
        ⟨hc.phase, hc.dispatched, hc.executions, hc.result, hc.answer⟩
      -- the call is written twice, the second time with its size and deadline
      set s₂ : State := ({ s.update s.next c with next := s.next + 1 } : State).update s.next
        { c with bytes := bytes, deadline := deadline } with hs₂
      have hcall : s₂.call =
          Function.update s.call s.next { c with bytes := bytes, deadline := deadline } :=
        Function.update_idem ..
      have hcall_self : s₂.call s.next = { c with bytes := bytes, deadline := deadline } := by
        rw [hcall, Function.update_self]
      have h₂ : Core o s.queue s₂ := hcore _ s₂ hc' hcall rfl rfl rfl rfl
      have hp₂ : (s₂.call s.next).phase = .turnedAway := by
        rw [hcall]
        exact hself _ hc'
      have hnew : s.next ∉ s.queue := h₂.not_mem (by rw [hp₂]; decide)
      split
      · exact hrefuse _ _ h₂ rfl hp₂ rfl rfl rfl
      · split
        · next hfree =>
          have henter : Core o (s.queue.erase s.next) (s₂.start s.next) :=
            h₂.enter (Nat.lt_succ_self _) (.inr hp₂) (by rw [hcall_self]; exact hc.result) hfree.1
              rfl rfl rfl rfl (by rw [List.erase_of_not_mem hnew]; exact h₂.queuedBytes)
          rw [List.erase_of_not_mem hnew] at henter
          exact ⟨henter, fun _ hne => absurd hfree.2 hne⟩
        · next hbusy =>
          have hfull : s.active = o.maxConcurrent := by
            have hbound := h.bounded
            by_cases hq : s.queue = []
            · by_contra hne
              exact hbusy ⟨by show s.active < _; omega, hq⟩
            · exact h.full (Bool.eq_false_iff.mpr hopen) hq
          split
          · have hr := hrefuse _ (.unavailable
              s!"Transaction dispatch queue is full for {c.operation}") h₂ rfl hp₂ rfl rfl rfl
            exact ⟨hr.toCore.frame rfl rfl rfl rfl rfl, hr.full⟩
          · split
            · exact hrefuse _ _ h₂ rfl hp₂ rfl rfl rfl
            · refine ⟨?_, fun _ _ => hfull⟩
              refine h₂.move (c := { c with bytes := bytes, deadline := deadline, phase := .queued })
                (Nat.lt_succ_self _) ?_ rfl rfl h.bounded ?_ ?_ (fun j => ?_) ?_ ?_
              · exact ⟨hc'.ok.executions, fun _ => hc.dispatched, fun hr => (by cases hr),
                  fun hr => absurd (hc.result ▸ hr) (by simp), hc'.ok.answer⟩
              · rw [Call.slots, hp₂]
                rfl
              · rw [Call.slotBytes, Call.slots, hp₂, Nat.zero_mul, Call.slotBytes, Call.slots,
                  Nat.zero_mul]
                rfl
              · show j ∈ s.queue ++ [s.next] ↔ _
                rw [List.mem_append, List.mem_singleton]
                split
                · next hj => exact iff_of_true (.inr hj) rfl
                · next hj => exact ⟨fun hm => hm.resolve_right hj, .inl⟩
              · exact List.nodup_append.mpr ⟨h.nodup, by simp, fun a ha b hb => by
                  rw [List.mem_singleton] at hb
                  rintro rfl
                  exact hnew (hb ▸ ha)⟩
              · show s.queuedBytes + bytes = ((s.queue ++ [s.next]).map _).sum
                rw [List.map_append, List.sum_append, queuedBytes_update hnew,
                  ← h₂.queuedBytes, List.map_singleton, List.sum_singleton,
                  State.call_update_self]
                rfl

/-- The counters, the queue and the flag decide the invariant. -/
theorem Inv.frame (h : Inv o s) (hcall : s'.call = s.call) (hnext : s'.next = s.next)
    (hact : s'.active = s.active) (hbytes : s'.activeBytes = s.activeBytes)
    (hqueued : s'.queuedBytes = s.queuedBytes) (hq : s'.queue = s.queue)
    (hcl : s'.closed = s.closed) : Inv o s' := by
  refine ⟨?_, fun hopen hne => ?_⟩
  · rw [hq]
    exact h.toCore.frame hcall hnext hact hbytes hqueued
  · rw [hact]
    exact h.full (hcl ▸ hopen) (hq ▸ hne)

/-- A call changes in place. -/
theorem Inv.edit (h : Inv o s) (hi : i < s.next) {c : Call} (hok : c.Ok)
    (hslots : c.slots = (s.call i).slots) (hbytes : c.bytes = (s.call i).bytes)
    (hphase : c.phase = .queued ↔ (s.call i).phase = .queued) : Inv o (s.update i c) :=
  ⟨h.toCore.edit hi hok hslots hbytes hphase, h.full⟩

/-- A waiter is taken out of the queue. -/
theorem Inv.dequeue (h : Inv o s) (hi : i ∈ s.queue) (e : Thrown) : Inv o (s.dequeue i e) := by
  have hleave : Core o (s.queue.erase i) (s.dequeue i e) := h.toCore.leave hi e rfl rfl rfl rfl rfl
  refine ⟨hleave, fun hopen hne => ?_⟩
  refine h.full hopen fun hnil => ?_
  rw [hnil] at hi
  cases hi

theorem inv_close (h : Inv o s) : Inv o s.close := by
  unfold State.close
  split
  · exact h
  · have hcore := core_turnAwayAll s.queue s h.toCore
    exact ⟨hcore.frame rfl rfl rfl rfl rfl, fun hopen => by cases hopen⟩

/-- The body of a call: it settles at once, or it is in the transport from now on. -/
theorem inv_begin (h : Inv o s) (hp : (s.call i).phase = .starting) : Inv o (s.begin i) := by
  have hi := h.lt_next (i := i) (by rw [hp]; decide)
  have hok := h.calls i
  have hd : (s.call i).dispatched = false := hok.waiting (.inr (.inr hp))
  have hone : (s.call i).slots = 1 := by rw [Call.slots, hp]
  have hx : (s.call i).executions = 0 := by rw [hok.executions, hd]; rfl
  -- the two ways in which the body rejects before it dispatches
  have hreject : ∀ e, Inv o (s.update i { s.call i with
      phase := .settled, result := (s.call i).result.or (some (.error e)) }) := by
    intro e
    refine h.edit hi ⟨hok.executions, fun _ => hd, fun hr => (by cases hr),
      fun _ => ⟨nofun, nofun⟩, fun e' he' hb => ⟨hd, ?_⟩⟩ ?_ rfl ?_
    · show ((s.call i).result.or _).isSome
      cases (s.call i).result <;> rfl
    · rw [hone]
      rfl
    · rw [hp]
      exact iff_of_false nofun nofun
  unfold State.begin
  dsimp only
  split
  · next hstore =>
    refine h.edit hi ⟨hok.executions, fun _ => hd, fun _ hs => ?_, fun _ => ⟨nofun, nofun⟩,
      hok.answer⟩ ?_ rfl ?_
    · rw [show ({ s.call i with phase := Phase.running } : Call).store = none from hstore] at hs
      cases hs
    · rw [hone]
      rfl
    · rw [hp]
      exact iff_of_false nofun nofun
  · split
    · exact hreject _
    · split
      · exact hreject _
      · refine h.edit hi ⟨?_, fun hw => ?_, fun _ _ => rfl, fun _ => ⟨nofun, nofun⟩, ?_⟩ ?_ rfl ?_
        · show (s.call i).executions + 1 = _
          rw [hx]
          rfl
        · rcases hw with hw | hw | hw <;> cases hw
        · -- a call that still has to start has not been answered
          intro e he hb
          have hsome := (hok.answer e he hb).2
          exact absurd hp (hok.result hsome).2
        · rw [hone]
          rfl
        · rw [hp]
          exact iff_of_false nofun nofun

/-- The `finally` of `start`: the slot is free, and waiters take it. -/
theorem inv_release (h : Inv o s) (hp : (s.call i).phase = .settled) :
    Inv o (State.pump o { s.update i { s.call i with phase := .released } with
      active := s.active - 1
      activeBytes := s.activeBytes - (s.call i).bytes }) := by
  have hi := h.lt_next (i := i) (by rw [hp]; decide)
  have hok := h.calls i
  have hone : (s.call i).slots = 1 := by rw [Call.slots, hp]
  have hheld : (s.call i).slots ≤ s.active ∧ (s.call i).slotBytes ≤ s.activeBytes := by
    have hmem : i ∈ range s.next := mem_range.mpr hi
    rw [h.active, h.activeBytes]
    exact ⟨single_le_sum (f := fun j => (s.call j).slots) (fun _ _ => Nat.zero_le _) hmem,
      single_le_sum (f := fun j => (s.call j).slotBytes) (fun _ _ => Nat.zero_le _) hmem⟩
  have hbytes : (s.call i).slotBytes = (s.call i).bytes := by
    rw [Call.slotBytes, hone, Nat.one_mul]
  have hfreed : Core o s.queue { s.update i { s.call i with phase := .released } with
      active := s.active - 1
      activeBytes := s.activeBytes - (s.call i).bytes } := by
    refine h.toCore.move (c := { s.call i with phase := .released }) hi
      ⟨hok.executions, fun hw => ?_, fun hr => (by cases hr), fun _ => ⟨nofun, nofun⟩, hok.answer⟩
      rfl rfl ?_ ?_ ?_ (fun j => ?_) h.nodup ?_
    · rcases hw with hw | hw | hw <;> cases hw
    · have := h.bounded
      show s.active - 1 ≤ _
      omega
    · show s.active - 1 + (s.call i).slots = s.active + 0
      omega
    · rw [Call.slotBytes.eq_def { s.call i with phase := .released }]
      show s.activeBytes - (s.call i).bytes + (s.call i).slotBytes = s.activeBytes + 0 * _
      omega
    · split
      · next hj =>
        rw [hj]
        exact iff_of_false (h.not_mem (by rw [hp]; decide)) nofun
      · exact Iff.rfl
    · exact h.queuedBytes.trans (queuedBytes_update (h.not_mem (by rw [hp]; decide))).symm
  unfold State.pump
  split
  · next hclosed => exact ⟨hfreed, fun hopen => absurd hclosed (by rw [hopen]; decide)⟩
  · obtain ⟨hcore, hfull⟩ := core_pumpQueue _ _ hfreed
    exact ⟨hcore, fun _ => hfull⟩

theorem inv_step (h : Inv o s) (e : Event) : Inv o (step o s e) := by
  cases e with
  | submit store operation operationTimeoutMs bytes elapsed =>
    rw [step]
    split
    · refine ⟨h.toCore.create ?_ rfl rfl rfl rfl rfl rfl, h.full⟩
      exact ⟨rfl, fun _ => rfl, fun hr => (by cases hr), fun _ => ⟨nofun, nofun⟩,
        fun _ _ _ => ⟨rfl, rfl⟩⟩
    · have hlater : Inv o { s with now := s.now + elapsed } := h.frame rfl rfl rfl rfl rfl rfl rfl
      exact inv_run hlater ⟨rfl, rfl, rfl, rfl, rfl⟩ _
  | direct operation options => exact inv_run h ⟨rfl, rfl, rfl, rfl, rfl⟩ options
  | begin i =>
    rw [step]
    split
    · next hp => exact inv_begin h hp
    · exact h
  | settle i r =>
    rw [step]
    split
    · next hp =>
      have hok := h.calls i
      refine h.edit (h.lt_next (by rw [hp]; decide)) ⟨hok.executions, fun hw => ?_,
        fun hr => (by cases hr), fun _ => ⟨nofun, nofun⟩, fun e he hb => ?_⟩ ?_ rfl ?_
      · rcases hw with hw | hw | hw <;> cases hw
      · refine ⟨(hok.answer e he hb).1, ?_⟩
        show ((s.call i).result.or _).isSome
        cases (s.call i).result <;> rfl
      · rw [Call.slots, Call.slots, hp]
      · rw [hp]
        exact iff_of_false nofun nofun
    · exact h
  | release i =>
    rw [step]
    split
    · next hp => exact inv_release h hp
    · exact h
  | expire i =>
    rw [step]
    split
    · next hi => exact (h.dequeue hi.2 _).frame rfl rfl rfl rfl rfl rfl rfl
    · exact h
  | timeout i =>
    rw [step]
    split
    · next hi =>
      have hok := h.calls i
      have hne : (s.call i).phase ≠ .turnedAway ∧ (s.call i).phase ≠ .queued ∧
          (s.call i).phase ≠ .starting := by
        rcases hi.2 with hp | hp <;> rw [hp] <;> decide
      have hedit : Inv o (s.update i { s.call i with
          result := (s.call i).result.or (some (.error .dispatchTimeout)) }) := by
        refine h.edit (h.lt_next hne.1) ⟨hok.executions, hok.waiting, hok.running,
          fun _ => hne.2, fun e he hb => ?_⟩ rfl rfl Iff.rfl
        refine ⟨(hok.answer e he hb).1, ?_⟩
        show ((s.call i).result.or _).isSome
        cases (s.call i).result <;> rfl
      exact hedit.frame rfl rfl rfl rfl rfl rfl rfl
    · exact h
  | abort i =>
    rw [step]
    split
    · next hi => exact h.dequeue hi.1 _
    · exact h
  | observe i =>
    rw [step]
    split
    · next store r hstore hres hans =>
      have hok := h.calls i
      have hlt : i < s.next := by
        by_contra hi
        rw [h.fresh i (by omega)] at hstore
        cases hstore
      refine h.edit hlt ⟨hok.executions, hok.waiting, hok.running, hok.result, fun e he hb => ?_⟩
        rfl rfl Iff.rfl
      refine ⟨?_, by show (s.call i).result.isSome; rw [hres]; rfl⟩
      -- the answer comes out of the `catch` block
      have hconc : (s.call i).conclude r = .error e := Option.some_inj.mp he
      unfold Call.conclude at hconc
      split at hconc
      · cases hconc
      · cases hconc
        exact catchError_beforeDispatch hb
      · cases hconc
        exact catchError_beforeDispatch hb
    · exact h
  | closeGate => exact inv_close h
  | closeStore store =>
    rw [step]
    split
    · exact h
    · exact (inv_close h).frame rfl rfl rfl rfl rfl rfl rfl
  | ready store b => exact h.frame rfl rfl rfl rfl rfl rfl rfl
  | tick ms => exact h.frame rfl rfl rfl rfl rfl rfl rfl

theorem inv_init (o : Options) : Inv o .init := by
  refine ⟨⟨Nat.zero_le _, rfl, rfl, fun i => ?_, .nil, rfl, fun _ _ => rfl, fun _ => ?_⟩, nofun⟩
  · exact iff_of_false nofun fun h => absurd h.1 (Nat.not_lt_zero i)
  · exact Call.Ok.blank rfl rfl rfl rfl

/-! ### The life of a call -/

/-- How one job may change a call. -/
inductive Evolves (e : Event) (i : ℕ) (c c' : Call) : Prop
  | stay (hp : c'.phase = c.phase) (hx : c'.executions = c.executions)
  /-- It leaves the queue, in vain or into a slot. -/
  | leave (hq : c.phase = .queued) (hp : c'.phase = .turnedAway ∨ c'.phase = .starting)
      (hx : c'.executions = c.executions)
  | begin (he : e = .begin i) (hq : c.phase = .starting)
      (hp : c'.phase = .running ∨ c'.phase = .settled) (hx : c.executions ≤ c'.executions)
  | settle (r : Except Thrown Bool) (he : e = .settle i r) (hq : c.phase = .running)
      (hp : c'.phase = .settled) (hx : c'.executions = c.executions)
  | release (he : e = .release i) (hq : c.phase = .settled) (hp : c'.phase = .released)
      (hx : c'.executions = c.executions)

theorem Evolves.refl (e : Event) (i : ℕ) (c : Call) : Evolves e i c c := .stay rfl rfl

/-- What the loop of `pump` does to a call. -/
theorem call_pumpQueue (q : List ℕ) (s : State) (j : ℕ) :
    (pumpQueue o q s).call j = s.call j ∨ j ∈ q ∧
      (((pumpQueue o q s).call j).phase = .turnedAway ∨
        ((pumpQueue o q s).call j).phase = .starting) ∧
      ((pumpQueue o q s).call j).executions = (s.call j).executions := by
  induction q generalizing s with
  | nil => exact .inl rfl
  | cons i rest ih =>
    -- the head of the queue becomes `c`, then the loop goes on
    have hhead : ∀ (s₁ : State) (c : Call), s₁.call = Function.update s.call i c →
        (c.phase = .turnedAway ∨ c.phase = .starting) → c.executions = (s.call i).executions →
        (pumpQueue o rest s₁).call j = s.call j ∨ j ∈ i :: rest ∧
          (((pumpQueue o rest s₁).call j).phase = .turnedAway ∨
            ((pumpQueue o rest s₁).call j).phase = .starting) ∧
          ((pumpQueue o rest s₁).call j).executions = (s.call j).executions := by
      intro s₁ c hcall hp hx
      have ih' := ih s₁
      rw [hcall] at ih'
      by_cases hj : j = i
      · subst hj
        rw [Function.update_self] at ih'
        rcases ih' with ih' | ⟨hm, hp', hx'⟩
        · exact .inr ⟨List.mem_cons_self, by rw [ih']; exact hp, by rw [ih']; exact hx⟩
        · exact .inr ⟨List.mem_cons_self, hp', hx'.trans hx⟩
      · rw [Function.update_of_ne hj] at ih'
        exact ih'.imp_right fun ⟨hm, hrest⟩ => ⟨List.mem_cons_of_mem _ hm, hrest⟩
    rw [pumpQueue]
    split
    · split
      · exact hhead _ _ rfl (.inl rfl) rfl
      · exact hhead _ _ rfl (.inr rfl) rfl
    · exact .inl rfl

theorem call_turnAwayAll (q : List ℕ) (s : State) (j : ℕ) :
    (turnAwayAll q s).call j = s.call j ∨ j ∈ q ∧
      ((turnAwayAll q s).call j).phase = .turnedAway ∧
      ((turnAwayAll q s).call j).executions = (s.call j).executions := by
  induction q generalizing s with
  | nil => exact .inl rfl
  | cons i rest ih =>
    have ih' := ih (s.turnAway i .gateClosed)
    by_cases hj : j = i
    · subst hj
      rw [State.turnAway, State.call_update_self] at ih'
      rcases ih' with ih' | ⟨hm, hp, hx⟩
      · have hp := congrArg Call.phase ih'
        have hx := congrArg Call.executions ih'
        exact .inr ⟨List.mem_cons_self, hp, hx⟩
      · exact .inr ⟨List.mem_cons_self, hp, hx⟩
    · rw [State.turnAway, State.call_update_of_ne _ hj] at ih'
      exact ih'.imp_right fun ⟨hm, hrest⟩ => ⟨List.mem_cons_of_mem _ hm, hrest⟩

/-- A change of one call is the only change. -/
theorem evolves_update {e : Event} {j : ℕ} {c : Call} (h : j = i → Evolves e j (s.call j) c) :
    Evolves e j (s.call j) ((s.update i c).call j) := by
  by_cases hj : j = i
  · subst hj
    rw [State.call_update_self]
    exact h rfl
  · rw [State.call_update_of_ne _ hj]
    exact .refl ..

theorem evolves_close (h : Inv o s) (e : Event) (j : ℕ) :
    Evolves e j (s.call j) (s.close.call j) := by
  unfold State.close
  split
  · exact .refl ..
  · rcases call_turnAwayAll s.queue s j with hsame | ⟨hm, hp, hx⟩
    · exact .stay (congrArg Call.phase hsame) (congrArg Call.executions hsame)
    · exact .leave ((h.queued j).mp hm).2 (.inl hp) hx

/-- `gate.run` does not touch the calls that were there before. -/
theorem call_run (s : State) (c : Call) (options : RunOptions) {j : ℕ} (hj : j < s.next) :
    (s.run o c options).call j = s.call j := by
  have hne : j ≠ s.next := by omega
  unfold State.run
  dsimp only
  split
  · simp only [State.turnAway, State.call_update_of_ne _ hne]
  · split
    · simp only [State.turnAway, State.call_update_of_ne _ hne]
    · simp only [State.turnAway, State.call_update_of_ne _ hne]
    · split
      · simp only [State.turnAway, State.call_update_of_ne _ hne]
      · split
        · simp only [State.start, State.call_update_of_ne _ hne]
        · split
          · simp only [State.turnAway, State.call_update_of_ne _ hne]
          · split
            · simp only [State.turnAway, State.call_update_of_ne _ hne]
            · simp only [State.call_update_of_ne _ hne]

theorem evolves_begin {j : ℕ} (hp : (s.call i).phase = .starting) :
    Evolves (.begin i) j (s.call j) ((s.begin i).call j) := by
  unfold State.begin
  dsimp only
  split
  · refine evolves_update fun hj => ?_
    subst hj
    exact .begin rfl hp (.inl rfl) le_rfl
  · split
    · refine evolves_update fun hj => ?_
      subst hj
      exact .begin rfl hp (.inr rfl) le_rfl
    · split
      · refine evolves_update fun hj => ?_
        subst hj
        exact .begin rfl hp (.inr rfl) le_rfl
      · refine evolves_update fun hj => ?_
        subst hj
        exact .begin rfl hp (.inl rfl) (Nat.le_succ _)

theorem evolves_release (h : Inv o s) (hp : (s.call i).phase = .settled) (j : ℕ) :
    Evolves (.release i) j (s.call j) ((step o s (.release i)).call j) := by
  rw [step, if_pos hp]
  have hown : Evolves (.release i) j (s.call j)
      ((s.update i { s.call i with phase := .released }).call j) := by
    refine evolves_update fun hj => ?_
    subst hj
    exact .release rfl hp rfl rfl
  unfold State.pump
  split
  · exact hown
  · rcases call_pumpQueue (o := o) s.queue { s.update i { s.call i with phase := .released } with
        active := s.active - 1
        activeBytes := s.activeBytes - (s.call i).bytes } j with hsame | ⟨hm, hphase, hx⟩
    · have hcall : _ = (s.update i { s.call i with phase := .released }).call j := hsame
      rw [← hcall] at hown
      exact hown
    · have hwait := ((h.queued j).mp hm).2
      have hne : j ≠ i := by
        rintro rfl
        rw [hp] at hwait
        cases hwait
      have hx' : _ = ((s.update i { s.call i with phase := .released }).call j).executions := hx
      rw [State.call_update_of_ne _ hne] at hx'
      exact .leave hwait hphase hx'

/-- **What a job may do to a call.** -/
theorem evolves_step (h : Inv o s) (e : Event) {j : ℕ} (hj : j < s.next) :
    Evolves e j (s.call j) ((step o s e).call j) := by
  cases e with
  | submit store operation operationTimeoutMs bytes elapsed =>
    rw [step]
    split
    · exact evolves_update fun hji => by omega
    · have hsame := call_run (o := o) { s with now := s.now + elapsed }
        (Call.ofStore store operation)
        ⟨some bytes, some (s.now + operationTimeoutMs), false⟩ (j := j) hj
      rw [hsame]
      exact .refl ..
  | direct operation options =>
    rw [step, call_run _ _ _ hj]
    exact .refl ..
  | begin i =>
    rw [step]
    split
    · next hp => exact evolves_begin hp
    · exact .refl ..
  | settle i r =>
    rw [step]
    split
    · next hp =>
      refine evolves_update fun hji => ?_
      subst hji
      exact .settle r rfl hp rfl rfl
    · exact .refl ..
  | release i =>
    by_cases hp : (s.call i).phase = .settled
    · exact evolves_release h hp j
    · rw [step, if_neg hp]
      exact .refl ..
  | expire i =>
    rw [step]
    split
    · next hi =>
      refine evolves_update fun hji => ?_
      subst hji
      exact .leave ((h.queued j).mp hi.2).2 (.inl rfl) rfl
    · exact .refl ..
  | timeout i =>
    rw [step]
    split
    · refine evolves_update fun hji => ?_
      subst hji
      exact .stay rfl rfl
    · exact .refl ..
  | abort i =>
    rw [step]
    split
    · next hi =>
      refine evolves_update fun hji => ?_
      subst hji
      exact .leave ((h.queued j).mp hi.1).2 (.inl rfl) rfl
    · exact .refl ..
  | observe i =>
    rw [step]
    split
    · refine evolves_update fun hji => ?_
      subst hji
      exact .stay rfl rfl
    · exact .refl ..
  | closeGate => exact evolves_close h _ j
  | closeStore store =>
    rw [step]
    split
    · exact .refl ..
    · exact evolves_close h _ j
  | ready store b => exact .refl ..
  | tick ms => exact .refl ..

theorem next_pumpQueue (q : List ℕ) (s : State) : (pumpQueue o q s).next = s.next := by
  induction q generalizing s with
  | nil => rfl
  | cons i rest ih =>
    rw [pumpQueue]
    split
    · split
      · exact ih _
      · exact ih _
    · rfl

theorem next_turnAwayAll (q : List ℕ) (s : State) : (turnAwayAll q s).next = s.next := by
  induction q generalizing s with
  | nil => rfl
  | cons i rest ih => exact ih _

theorem next_close (s : State) : s.close.next = s.next := by
  unfold State.close
  split
  · rfl
  · exact next_turnAwayAll ..

theorem next_run (s : State) (c : Call) (options : RunOptions) :
    (s.run o c options).next = s.next + 1 := by
  unfold State.run
  dsimp only
  repeat' split
  all_goals rfl

theorem next_begin (s : State) (i : ℕ) : (s.begin i).next = s.next := by
  unfold State.begin
  dsimp only
  repeat' split
  all_goals rfl

/-- The number of calls only grows. -/
theorem next_le_step (o : Options) (s : State) (e : Event) : s.next ≤ (step o s e).next := by
  cases e with
  | submit store operation operationTimeoutMs bytes elapsed =>
    rw [step]
    split
    · exact Nat.le_succ _
    · rw [next_run]
      exact Nat.le_succ _
  | direct operation options =>
    rw [step, next_run]
    exact Nat.le_succ _
  | begin i =>
    rw [step]
    split
    · exact (next_begin s i).ge
    · exact le_rfl
  | release i =>
    rw [step]
    split
    · unfold State.pump
      split
      · exact le_rfl
      · rw [next_pumpQueue]
        exact le_rfl
    · exact le_rfl
  | closeGate => exact (next_close s).ge
  | closeStore store =>
    rw [step]
    split
    · exact le_rfl
    · exact (next_close s).ge
  | observe i =>
    rw [step]
    split <;> exact le_rfl
  | settle i r =>
    rw [step]
    split <;> exact le_rfl
  | expire i =>
    rw [step]
    split <;> exact le_rfl
  | timeout i =>
    rw [step]
    split <;> exact le_rfl
  | abort i =>
    rw [step]
    split <;> exact le_rfl
  | ready store b => exact le_rfl
  | tick ms => exact le_rfl

/-! ### Runs -/

/-- The state before the `n`-th job of a run. -/
def State.at (o : Options) (events : List Event) (n : ℕ) : State :=
  stateAt (step o) .init events n

theorem inv_at (o : Options) (events : List Event) (n : ℕ) : Inv o (State.at o events n) :=
  invariant (P := Inv o) (inv_init o) (fun _ e h => inv_step h e) n

theorem Evolves.executions_le {e : Event} {c c' : Call} (h : Evolves e i c c') :
    c.executions ≤ c'.executions := by
  cases h with
  | stay hp hx => exact hx.ge
  | leave hq hp hx => exact hx.ge
  | begin he hq hp hx => exact hx
  | settle r he hq hp hx => exact hx.ge
  | release he hq hp hx => exact hx.ge

/-- What has reached the transport has reached it for good. -/
theorem executions_mono (o : Options) (events : List Event) (i : ℕ) {m n : ℕ} (h : m ≤ n) :
    ((State.at o events m).call i).executions ≤ ((State.at o events n).call i).executions := by
  refine invariant_from (P := fun s : State =>
    ((State.at o events m).call i).executions ≤ (s.call i).executions) le_rfl ?_ n h
  intro k e _ _ hk
  have hinv := inv_at o events k
  refine le_trans hk ?_
  rcases lt_or_ge i (State.at o events k).next with hi | hi
  · exact (evolves_step hinv e hi).executions_le
  · rw [show stateAt (step o) .init events k = State.at o events k from rfl, hinv.fresh i hi]
    exact Nat.zero_le _

/-- A call that has not reached the transport and will not start any more. -/
def Call.Spent (c : Call) : Prop :=
  c.executions = 0 ∧ c.phase ≠ .queued ∧ c.phase ≠ .starting

theorem Evolves.spent {e : Event} {c c' : Call} (h : Evolves e i c c') (hs : c.Spent) :
    c'.Spent := by
  obtain ⟨hx₀, hq₀, hs₀⟩ := hs
  cases h with
  | stay hp hx => exact ⟨hx.trans hx₀, hp ▸ hq₀, hp ▸ hs₀⟩
  | leave hq => exact absurd hq hq₀
  | begin he hq => exact absurd hq hs₀
  | settle r he hq hp hx =>
    refine ⟨hx.trans hx₀, ?_, ?_⟩ <;> rw [hp] <;> decide
  | release he hq hp hx =>
    refine ⟨hx.trans hx₀, ?_, ?_⟩ <;> rw [hp] <;> decide

theorem spent_from {events : List Event} {n : ℕ} (hi : i < (State.at o events n).next)
    (h : ((State.at o events n).call i).Spent) {m : ℕ} (hm : n ≤ m) :
    ((State.at o events m).call i).Spent := by
  have hrun : i < (State.at o events m).next ∧ ((State.at o events m).call i).Spent := by
    refine invariant_from (P := fun s : State => i < s.next ∧ (s.call i).Spent) ⟨hi, h⟩ ?_ m hm
    intro k e _ _ hk
    have hinv := inv_at o events k
    exact ⟨lt_of_lt_of_le hk.1 (next_le_step o _ e), (evolves_step hinv e hk.1).spent hk.2⟩
  exact hrun.2

/-- A call that is answered "not dispatched" is spent. -/
theorem Inv.spent_of_answer (h : Inv o s) {e : Thrown}
    (ha : (s.call i).answer = some (.error e)) (hb : e.beforeDispatch = true) :
    i < s.next ∧ (s.call i).Spent := by
  have hok := h.calls i
  obtain ⟨hd, hres⟩ := hok.answer e ha hb
  refine ⟨?_, ?_, hok.result hres⟩
  · by_contra hi
    rw [h.fresh i (by omega)] at ha
    cases ha
  · rw [hok.executions, hd]
    rfl

/-- **A "not dispatched" error is truthful.**  In every run: a call that is given
an error with `beforeDispatch` has not reached the transport and never will; no
call reaches it twice; the slots are bounded and given back only by a call that
has itself settled; the counters are the sums over the calls; and while the gate
is open nobody waits beside a free slot. -/
theorem not_dispatched_truthful (o : Options) (events : List Event) (n : ℕ) :
    let s := State.at o events n
    (∀ i e, (s.call i).answer = some (.error e) → e.beforeDispatch = true →
      ∀ m, ((State.at o events m).call i).executions = 0) ∧
    (∀ i, (s.call i).executions ≤ 1) ∧
    s.active ≤ o.maxConcurrent ∧
    (∀ e i, events[n]? = some e → (s.call i).slots = 1 →
      ((State.at o events (n + 1)).call i).slots = 0 →
      e = .release i ∧ (s.call i).phase = .settled) ∧
    (∀ e i, events[n]? = some e → (s.call i).slots = 1 → (s.call i).phase ≠ .settled →
      ((State.at o events (n + 1)).call i).phase = .settled → e = .begin i ∨ ∃ r, e = .settle i r) ∧
    s.active = ∑ i ∈ range s.next, (s.call i).slots ∧
    s.activeBytes = ∑ i ∈ range s.next, (s.call i).slots * (s.call i).bytes ∧
    s.queuedBytes = (s.queue.map fun i => (s.call i).bytes).sum ∧
    (∀ i, i ∈ s.queue ↔ i < s.next ∧ (s.call i).phase = .queued) ∧ s.queue.Nodup ∧
    (s.closed = false → s.queue ≠ [] → s.active = o.maxConcurrent) := by
  have h := inv_at o events n
  have hevolve : ∀ e i, events[n]? = some e → ((State.at o events n).call i).slots = 1 →
      Evolves e i ((State.at o events n).call i) ((State.at o events (n + 1)).call i) := by
    intro e i he hslot
    rw [State.at, State.at, stateAt_succ he]
    refine evolves_step h e (h.lt_next fun hp => ?_)
    rw [Call.slots, hp] at hslot
    cases hslot
  refine ⟨fun i e ha hb m => ?_, fun i => ?_, h.bounded, fun e i he hslot hfree => ?_,
    fun e i he hslot hp hp' => ?_, h.active, h.activeBytes, h.queuedBytes, h.queued, h.nodup,
    h.full⟩
  · obtain ⟨hi, hspent⟩ := h.spent_of_answer ha hb
    rcases le_total n m with hm | hm
    · exact (spent_from hi hspent hm).1
    · have hmono := executions_mono o events i hm
      rw [hspent.1] at hmono
      exact Nat.le_zero.mp hmono
  · rw [(h.calls i).executions]
    split <;> decide
  · cases hevolve e i he hslot with
    | stay hp => rw [Call.slots, hp, ← Call.slots] at hfree; omega
    | leave hq => rw [Call.slots, hq] at hslot; cases hslot
    | begin he' hq hp' => rcases hp' with hp' | hp' <;> rw [Call.slots, hp'] at hfree <;> cases hfree
    | settle r he' hq hp' => rw [Call.slots, hp'] at hfree; cases hfree
    | release he' hq => exact ⟨he', hq⟩
  · cases hevolve e i he hslot with
    | stay hsame => exact absurd (hsame ▸ hp') hp
    | leave hq => rw [Call.slots, hq] at hslot; cases hslot
    | begin he' => exact .inl he'
    | settle r he' => exact .inr ⟨r, he'⟩
    | release he' hq => exact absurd hq hp

end OperationGate
