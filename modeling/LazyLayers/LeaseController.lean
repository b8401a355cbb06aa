/-
The lease controller (`maintainOperationLease`).

A process that has acquired a lease keeps a deadline of its own for it: the moment at which
it asked, and the duration that it was told.  It renews in time, one renewal after the
other, and gives the lease up when the deadline has come.  Timers may fire late, replies
may be late, negative or missing; the clock of the process and that of the server run at
one rate, `offset` apart.

* `Controller.assertLive`, `Controller.schedule`, `Controller.resume` — the controller;
* `World.step` — the controller, the server and what is under way between them;
* `lt_recorded` — an answer measured after the request bounds the deadline;
* `lease_conservative` — while the controller calls the lease live, the deadline has not
  come, and it is not a millisecond later than the expiry that the script recorded;
* `deadline_after_expiry` — it may be later by less.
-/
import Mathlib.Data.NNRat.Floor
import LazyLayers.OperationLeases

open Runs Transactions

namespace LeaseController

/-! ### The controller -/

/-- The lease that a `begin` returned, and the expiry that the script had recorded. -/
structure Lease where
  startedAt : ℚ≥0
  remainingMs : ℕ
  recorded : ℕ

inductive TimerKind
  | renewal
  | expiry
  deriving DecidableEq

/-- A timer that has not fired.  Nothing depends on its being on time: it may fire late, or
a little early where the runtime rounds. -/
structure Timer where
  id : ℕ
  kind : TimerKind
  due : ℚ
  deriving DecidableEq

/-- A renewal under way; its reply, and the expiry that is recorded then, once the script
has run. -/
structure Flight where
  requestStartedAt : ℚ≥0
  reply : Option (Reply × ℕ)

structure Controller where
  deadline : ℚ
  stopped : Bool := false
  lostError : Bool := false
  aborted : Bool := false
  renewalTimer : Option ℕ := none
  expiryTimer : Option ℕ := none
  timers : List Timer := []
  nextTimer : ℕ := 0
  flights : List Flight := []
  /-- The expiry that the script had recorded when it gave the duration behind `deadline`. -/
  recorded : ℕ

namespace Controller

variable (c : Controller)

def clearTimeout (id : Option ℕ) : Controller :=
  { c with timers := c.timers.filter fun t => some t.id ≠ id }

def stop : Controller :=
  (({ c with stopped := true } : Controller).clearTimeout c.renewalTimer).clearTimeout c.expiryTimer

def lose : Controller :=
  if c.stopped || c.lostError then c
  else { ({ c with lostError := true } : Controller).stop with aborted := true }

/-- `assertLive()` at `now`, and whether it returns. -/
def assertLive (now : ℚ) : Controller × Bool :=
  let c := if !c.stopped && c.deadline ≤ now then c.lose else c
  (c, !c.lostError)

def schedule (now : ℚ) : Controller :=
  if c.stopped then c
  else
    let remaining := c.deadline - now
    if remaining ≤ 0 then c.lose
    else { c with
      timers := c.timers ++ [⟨c.nextTimer, .expiry, now + max 1 remaining⟩,
        ⟨c.nextTimer + 1, .renewal, now + max 1 (min (remaining / 3) remaining)⟩]
      expiryTimer := some c.nextTimer
      renewalTimer := some (c.nextTimer + 1)
      nextTimer := c.nextTimer + 2 }

/-- The renewal timer has fired. -/
def renew (requestStartedAt : ℚ≥0) (now : ℚ) : Controller :=
  match c.assertLive now with
  | (c, true) => { c with flights := c.flights ++ [⟨requestStartedAt, none⟩] }
  | (c, false) => c.lose

/-- `store.renew` has resolved.  A reply that cannot be decoded is lost like one of another
kind. -/
def resume (requestStartedAt : ℚ≥0) (reply : Reply) (recorded : ℕ) (responseAt now : ℚ) :
    Controller :=
  if c.stopped then c
  else
    match reply with
    | .renewed remainingMs =>
      if c.deadline ≤ responseAt then c.lose
      else
        let c := { c with deadline := requestStartedAt + remainingMs, recorded := recorded }
        if c.deadline ≤ responseAt then c.lose
        else (c.clearTimeout c.expiryTimer).schedule now
    | _ => c.lose

/-- The controller of a lease, before its first look at the clock. -/
def create (lease : Lease) : Controller where
  deadline := lease.startedAt + max 0 (lease.remainingMs : ℚ)
  recorded := lease.recorded

end Controller

/-! ### The system -/

/-- The process: the commands that its store sends for the operation. -/
structure Holder where
  acquire : Request
  renew : Request
  acquire_cmd : acquire.cmd = .begin
  renew_cmd : renew.cmd = .renew
  owner_eq : renew.owner = acquire.owner
  lease_eq : renew.lease = acquire.lease

/-- The clock of the process, the server, and what the process holds.  `expiry` is the last
expiry that the script has recorded for the owner. -/
structure World where
  time : ℚ≥0 := 0
  server : Server
  expiry : Option ℕ := none
  startedAt : Option ℚ≥0 := none
  lease : Option Lease := none
  controller : Option Controller := none

inductive Event
  | advance (d : ℚ≥0)
  /-- The script runs a command of anybody. -/
  | command (q : Request)
  /-- The process looks at its clock, about to send the `begin`. -/
  | capture
  /-- The script runs the `begin` of the process, which learns the reply. -/
  | acquire
  | maintain (d₁ d₂ : ℚ≥0)
  | fire (id : ℕ) (d₁ d₂ : ℚ≥0)
  /-- The script runs a renewal of the process. -/
  | execute (i : ℕ)
  | resolve (i : ℕ) (d₁ d₂ : ℚ≥0)
  | reject (i : ℕ)
  | assertLive (d : ℚ≥0)
  | stop

section Steps

variable (L : Lua) (holder : Holder) (offset : ℚ≥0)

/-- The clock of the server in microseconds, by the clock of the process. -/
def micros (time : ℚ≥0) : ℕ := ⌊(time + offset) * 1000⌋₊

/-- The expiry of the record under the key. -/
def leaseUntil (s : Server) : ℕ := ((s.record L).map Record.leaseUntilMs).getD 0

namespace World

variable (w : World)

/-- Time passes, for both clocks. -/
def advance (d : ℚ≥0) : World :=
  { w with
    time := w.time + d
    server := w.server.step L (.advance (micros offset (w.time + d) - w.server.clock)) }

/-- The script runs. -/
def command (q : Request) : World :=
  let server := w.server.step L (.command q)
  { w with
    server := server
    expiry :=
      match server.record L with
      | some r => if r.state = .pending ∧ r.owner = holder.acquire.owner then some r.leaseUntilMs
        else w.expiry
      | none => w.expiry }

def hold (c : Controller) : World := { w with controller := some c }

/-- The `begin` of the process. -/
def runAcquire (startedAt : ℚ≥0) : World :=
  let w' := w.command L holder holder.acquire
  match (w.server.execute L holder.acquire).reply with
  | .acquired _ remaining => { w' with lease := some ⟨startedAt, remaining, leaseUntil L w'.server⟩ }
  | _ => w'

/-- `maintainOperationLease(store, lease, { startedAt })` -/
def runMaintain (lease : Lease) (d₁ d₂ : ℚ≥0) : World :=
  let c := Controller.create lease
  let w := w.advance L offset d₁
  if c.deadline ≤ w.time then w.hold c.lose
  else
    let w := w.advance L offset d₂
    w.hold (c.schedule w.time)

/-- The callback of a timer. -/
def runTimer (c : Controller) (t : Timer) (d₁ d₂ : ℚ≥0) : World :=
  let c := { c with timers := c.timers.erase t }
  match t.kind with
  | .expiry => w.hold c.lose
  | .renewal =>
    let w₁ := w.advance L offset d₁
    let w₂ := w₁.advance L offset d₂
    w₂.hold (c.renew w₁.time w₂.time)

/-- A renewal of the process reaches the script. -/
def runRenewal (c : Controller) (i : ℕ) (f : Flight) : World :=
  let w' := w.command L holder holder.renew
  let reply := (w.server.execute L holder.renew).reply
  w'.hold { c with flights := c.flights.set i { f with reply := some (reply, leaseUntil L w'.server) } }

/-- The continuation of a renewal. -/
def runReply (c : Controller) (i : ℕ) (f : Flight) (reply : Reply × ℕ) (d₁ d₂ : ℚ≥0) : World :=
  let c := { c with flights := c.flights.eraseIdx i }
  let w₁ := w.advance L offset d₁
  let w₂ := w₁.advance L offset d₂
  w₂.hold (c.resume f.requestStartedAt reply.1 reply.2 w₁.time w₂.time)

def step (w : World) : Event → World
  | .advance d => w.advance L offset d
  | .command q => w.command L holder q
  | .capture => if w.lease.isNone then { w with startedAt := some w.time } else w
  | .acquire =>
    match w.startedAt, w.lease with
    | some startedAt, none => w.runAcquire L holder startedAt
    | _, _ => w
  | .maintain d₁ d₂ =>
    match w.lease, w.controller with
    | some lease, none => w.runMaintain L offset lease d₁ d₂
    | _, _ => w
  | .fire id d₁ d₂ =>
    match w.controller with
    | none => w
    | some c =>
      match c.timers.find? fun t => t.id = id with
      | none => w
      | some t => w.runTimer L offset c t d₁ d₂
  | .execute i =>
    match w.controller with
    | none => w
    | some c =>
      match c.flights[i]? with
      | some f => if f.reply.isNone then w.runRenewal L holder c i f else w
      | none => w
  | .resolve i d₁ d₂ =>
    match w.controller with
    | none => w
    | some c =>
      match c.flights[i]? with
      | some f =>
        match f.reply with
        | some reply => w.runReply L offset c i f reply d₁ d₂
        | none => w
      | none => w
  | .reject i =>
    match w.controller with
    | none => w
    | some c =>
      if i < c.flights.length then
        w.hold ({ c with flights := c.flights.eraseIdx i } : Controller).lose
      else w
  | .assertLive d =>
    match w.controller with
    | none => w
    | some c =>
      let w := w.advance L offset d
      w.hold (c.assertLive w.time).1
  | .stop =>
    match w.controller with
    | none => w
    | some c => w.hold c.stop

/-- No record is under the key, and nothing has happened. -/
def start : World where
  server := ⟨micros offset 0, none⟩

end World

end Steps

/-! ### The controller by itself -/

namespace Controller

variable {c : Controller}

/-- How many renewals are armed or under way. -/
def renewals (c : Controller) : ℕ :=
  c.timers.countP (fun t => t.kind = .renewal) + c.flights.length

/-- What holds of every controller: the signal tells of the loss, a lost lease is stopped,
and there is at most one renewal. -/
structure Sound (c : Controller) : Prop where
  aborted : c.aborted = c.lostError
  stopped : c.lostError = true → c.stopped = true
  renewals : c.renewals ≤ 1

theorem renewals_clearTimeout (id : Option ℕ) : (c.clearTimeout id).renewals ≤ c.renewals :=
  Nat.add_le_add_right (List.Sublist.countP_le List.filter_sublist) _

theorem renewals_stop : c.stop.renewals ≤ c.renewals :=
  (renewals_clearTimeout _).trans (renewals_clearTimeout _)

theorem sound_clearTimeout (h : c.Sound) (id : Option ℕ) : (c.clearTimeout id).Sound :=
  ⟨h.aborted, h.stopped, (renewals_clearTimeout id).trans h.renewals⟩

theorem sound_stop (h : c.Sound) : c.stop.Sound :=
  ⟨h.aborted, fun _ => rfl, renewals_stop.trans h.renewals⟩

theorem sound_lose (h : c.Sound) : c.lose.Sound := by
  rw [lose]
  split
  · exact h
  · exact ⟨rfl, fun _ => rfl, (renewals_stop (c := { c with lostError := true })).trans h.renewals⟩

theorem sound_assertLive (h : c.Sound) (now : ℚ) : (c.assertLive now).1.Sound := by
  rw [assertLive]
  dsimp only
  split
  · exact sound_lose h
  · exact h

/-- A schedule arms a renewal, if there was none. -/
theorem sound_schedule (h : c.Sound) (hnone : c.renewals = 0) (now : ℚ) :
    (c.schedule now).Sound := by
  rw [schedule]
  split
  · exact h
  dsimp only
  split
  · exact sound_lose h
  · refine ⟨h.aborted, h.stopped, ?_⟩
    rw [renewals] at hnone ⊢
    simp only [List.countP_append]
    have htwo : List.countP (fun t : Timer => decide (t.kind = .renewal))
        [⟨c.nextTimer, .expiry, now + max 1 (c.deadline - now)⟩,
          ⟨c.nextTimer + 1, .renewal, now + max 1 (min ((c.deadline - now) / 3) (c.deadline - now))⟩] =
        1 := rfl
    omega

/-- What the operations that follow a renewal do not touch. -/
theorem flights_lose : c.lose.flights = c.flights := by
  rw [lose]
  split <;> rfl

theorem bounds_lose : c.lose.deadline = c.deadline ∧ c.lose.recorded = c.recorded := by
  rw [lose]
  split <;> exact ⟨rfl, rfl⟩

theorem bounds_schedule (now : ℚ) : (c.schedule now).deadline = c.deadline ∧
    (c.schedule now).recorded = c.recorded ∧ (c.schedule now).flights = c.flights := by
  rw [schedule]
  split
  · exact ⟨rfl, rfl, rfl⟩
  dsimp only
  split
  · exact ⟨bounds_lose.1, bounds_lose.2, flights_lose⟩
  · exact ⟨rfl, rfl, rfl⟩

theorem bounds_assertLive (now : ℚ) : (c.assertLive now).1.deadline = c.deadline ∧
    (c.assertLive now).1.recorded = c.recorded ∧ (c.assertLive now).1.flights = c.flights := by
  rw [assertLive]
  dsimp only
  split
  · exact ⟨bounds_lose.1, bounds_lose.2, flights_lose⟩
  · exact ⟨rfl, rfl, rfl⟩

/-- The deadline stays, or it becomes that of the reply. -/
theorem bounds_resume (requestStartedAt : ℚ≥0) (reply : Reply) (recorded : ℕ)
    (responseAt now : ℚ) :
    let c' := c.resume requestStartedAt reply recorded responseAt now
    c'.flights = c.flights ∧ (c'.deadline = c.deadline ∧ c'.recorded = c.recorded ∨
      ∃ d, reply = .renewed d ∧ c'.deadline = requestStartedAt + d ∧ c'.recorded = recorded) := by
  dsimp only
  rw [resume.eq_def]
  split
  · exact ⟨rfl, .inl ⟨rfl, rfl⟩⟩
  split
  next d =>
    split
    · exact ⟨flights_lose, .inl bounds_lose⟩
    dsimp only
    split
    · exact ⟨flights_lose, .inr ⟨d, rfl, bounds_lose⟩⟩
    · obtain ⟨hdeadline, hrecorded, hflights⟩ := bounds_schedule (c := Controller.clearTimeout _ _) now
      exact ⟨hflights, .inr ⟨d, rfl, hdeadline, hrecorded⟩⟩
  next => exact ⟨flights_lose, .inl bounds_lose⟩

theorem sound_resume (h : c.Sound) (hnone : c.renewals = 0) (requestStartedAt : ℚ≥0)
    (reply : Reply) (recorded : ℕ) (responseAt now : ℚ) :
    (c.resume requestStartedAt reply recorded responseAt now).Sound := by
  rw [resume.eq_def]
  split
  · exact h
  split
  next d =>
    split
    · exact sound_lose h
    dsimp only
    split
    · exact sound_lose ⟨h.aborted, h.stopped, h.renewals⟩
    · refine sound_schedule (sound_clearTimeout ?_ _) ?_ now
      · exact ⟨h.aborted, h.stopped, h.renewals⟩
      · exact Nat.le_zero.mp ((renewals_clearTimeout _).trans_eq hnone)
  next => exact sound_lose h

/-! ### A lost lease stays lost -/

theorem lost_lose (h : c.lostError = true) : c.lose = c := by
  rw [lose, h, Bool.or_true, if_pos rfl]

theorem lost_assertLive (hstopped : c.stopped = true) (hlost : c.lostError = true) (now : ℚ) :
    c.assertLive now = (c, false) := by
  rw [assertLive, hstopped, Bool.not_true, Bool.false_and, if_neg Bool.false_ne_true, hlost,
    Bool.not_true]

/-- The callback of a renewal throws, and catches. -/
theorem lost_renew (hstopped : c.stopped = true) (hlost : c.lostError = true)
    (requestStartedAt : ℚ≥0) (now : ℚ) : c.renew requestStartedAt now = c := by
  rw [renew.eq_def, lost_assertLive hstopped hlost]
  exact lost_lose hlost

/-- `assertLive` returns with nothing changed, or it throws. -/
theorem assertLive_cases (now : ℚ) : c.assertLive now = (c, true) ∨
    c.assertLive now = (c, false) ∨ c.assertLive now = (c.lose, false) := by
  rw [assertLive]
  split
  next hlate =>
    rw [Bool.and_eq_true, Bool.not_eq_true'] at hlate
    right; right
    have hlost : c.lose.lostError = true := by
      rw [lose]
      split
      next hdone =>
        rw [hlate.1, Bool.false_or] at hdone
        exact hdone
      next => rfl
    rw [hlost, Bool.not_true]
  next =>
    cases hlost : c.lostError with
    | false => exact .inl rfl
    | true => exact .inr (.inl rfl)

/-- While the controller is not stopped, `assertLive` returns before the deadline only. -/
theorem lt_deadline_of_assertLive {now : ℚ} (hstopped : c.stopped = false)
    (h : (c.assertLive now).2 = true) : now < c.deadline := by
  by_contra hlate
  have hlose : (c.assertLive now).1 = c.lose := by
    rw [assertLive, hstopped, Bool.not_false, Bool.true_and, if_pos (decide_eq_true (not_lt.mp hlate))]
  rcases assertLive_cases (c := c) now with hsame | hsame | hsame
  · -- a controller that is not stopped does not lose its lease without a change
    rw [hsame] at hlose
    have hstop : c.lose.stopped = true ∨ c.lostError = true := by
      rw [lose, hstopped, Bool.false_or]
      split
      next hlost => exact .inr hlost
      next => exact .inl rfl
    rcases hstop with hstop | hlost
    · rw [← hlose, hstopped] at hstop
      cases hstop
    · have hthrows : (c.assertLive now).2 = !(c.assertLive now).1.lostError := rfl
      rw [hsame, hlost] at hthrows
      cases hthrows
  · rw [hsame] at h
    cases h
  · rw [hsame] at h
    cases h

end Controller

/-! ### The clocks -/

section Clocks

variable {L : Lua} {offset : ℚ≥0}

/-- The server counts whole milliseconds. -/
theorem now_bounds {s : Server} {time : ℚ≥0} (h : s.clock = micros offset time) :
    (s.now : ℚ) ≤ time + offset ∧ (time : ℚ) + offset < s.now + 1 := by
  have hnow : s.now = ⌊time + offset⌋₊ := by
    rw [Server.now, h, micros]
    exact_mod_cast Nat.mul_cast_floor_div_cancel (n := 1000) (by norm_num) (time + offset)
  rw [hnow]
  constructor
  · exact_mod_cast Nat.floor_le (zero_le)
  · exact_mod_cast Nat.lt_floor_add_one (time + offset)

theorem micros_mono {time time' : ℚ≥0} (h : time ≤ time') :
    micros offset time ≤ micros offset time' := by
  rw [micros, micros]
  gcongr

theorem clock_command (s : Server) (q : Request) : (s.step L (.command q)).clock = s.clock := by
  rw [Server.step]
  split <;> rfl

/-- What a reply that grants a lease leaves behind. -/
theorem record_of_grant {s : Server} (hc : Coherent L s) {q : Request} {d : ℕ}
    (h : (∃ o, (s.execute L q).reply = .acquired o d) ∨ (s.execute L q).reply = .renewed d) :
    ∃ r, (s.step L (.command q)).record L = some r ∧ r.state = .pending ∧ r.owner = q.owner ∧
      r.leaseUntilMs = s.now + d := by
  obtain ⟨⟨wrote, ht, -⟩, -, -⟩ := command_transition hc q
  generalize hr : s.record L = r at ht
  generalize hr' : (s.step L (.command q)).record L = r' at ht
  generalize hreply : (s.execute L q).reply = reply at ht h
  cases ht with
  | keep hren hacq =>
    rcases h with ⟨o, h⟩ | h
    · exact absurd h (hacq o d)
    · exact absurd h (hren d)
  | reenter hcmd hlive =>
    obtain ⟨hpending, howner, hlt⟩ := hlive
    rcases h with ⟨o, h⟩ | h
    · rw [Reply.acquired.injEq] at h
      exact ⟨_, rfl, hpending, howner, by omega⟩
    · cases h
  | acquire hcmd hprev hlive hlease =>
    rcases h with ⟨o, h⟩ | h
    · rw [Reply.acquired.injEq] at h
      exact ⟨_, rfl, hlive.1, hlive.2.1, by rw [hlease, h.2]⟩
    · cases h
  | renew hcmd hlive hq hlease hret =>
    rcases h with ⟨o, h⟩ | h
    · cases h
    · rw [Reply.renewed.injEq] at h
      exact ⟨_, rfl, hq.1, hq.2.1, by rw [hlease, h]⟩
  | complete hcmd hlive hq hown hres hret =>
    rcases h with ⟨o, h⟩ | h
    · cases h
    · cases h

/-- A live record of an owner is the one from before, or a command of the owner has just
granted what it asked for. -/
theorem pending_command {s : Server} (hc : Coherent L s) {q : Request} {r : Record}
    (h : (s.step L (.command q)).record L = some r) (hpending : r.state = .pending) :
    s.record L = some r ∨ q.owner = r.owner ∧ r.leaseUntilMs = s.now + q.lease := by
  obtain ⟨⟨wrote, ht, -⟩, -, -⟩ := command_transition hc q
  rw [h] at ht
  generalize hr : s.record L = r₀ at ht
  generalize (s.execute L q).reply = reply at ht
  cases ht with
  | keep hren hacq => exact .inl rfl
  | reenter hcmd hlive => exact .inl rfl
  | acquire hcmd hprev hlive hlease => exact .inr ⟨hlive.2.1.symm, hlease⟩
  | renew hcmd hlive hq hlease hret => exact .inr ⟨hq.2.1.symm, hlease⟩
  | complete hcmd hlive hq hown hres hret =>
    rw [hpending] at hq
    cases hq

end Clocks

/-! ### What holds of the system -/

section Invariant

variable (L : Lua) (holder : Holder) (offset : ℚ≥0)

/-- A duration that was told for a request begun at `startedAt` ends within the millisecond
after the expiry that was recorded. -/
def Told (startedAt : ℚ≥0) (d recorded : ℕ) : Prop :=
  (startedAt : ℚ) + offset + d < recorded + 1

/-- If all commands of the owner ask for one duration, the script has since recorded this
expiry or a later one.  `S` says so of the run. -/
def Backed (S : Prop) (w : World) (recorded : ℕ) : Prop :=
  S → ∃ e, w.expiry = some e ∧ recorded ≤ e

structure Held (S : Prop) (w : World) (c : Controller) : Prop where
  sound : c.Sound
  deadline : c.deadline + offset < c.recorded + 1
  backed : Backed S w c.recorded
  started : ∀ f ∈ c.flights, f.requestStartedAt ≤ w.time
  told : ∀ f ∈ c.flights, ∀ d recorded, f.reply = some (.renewed d, recorded) →
    Told offset f.requestStartedAt d recorded ∧ Backed S w recorded

structure Inv (S : Prop) (w : World) : Prop where
  clock : w.server.clock = micros offset w.time
  coherent : Coherent L w.server
  startedAt : ∀ t, w.startedAt = some t → t ≤ w.time
  expiry : S → ∀ e, w.expiry = some e → e ≤ w.server.now + holder.acquire.lease
  record : ∀ r, w.server.record L = some r → r.state = .pending →
    r.owner = holder.acquire.owner → w.expiry = some r.leaseUntilMs
  lease : ∀ l, w.lease = some l → Told offset l.startedAt l.remainingMs l.recorded ∧
    Backed S w l.recorded
  controller : ∀ c, w.controller = some c → Held offset S w c

variable {L holder offset} {S : Prop} {w w' : World} {c : Controller}

/-- Time passes, and expiries are only replaced by later ones. -/
structure Grows (S : Prop) (w w' : World) : Prop where
  time : w.time ≤ w'.time
  expiry : S → ∀ e, w.expiry = some e → ∃ e', w'.expiry = some e' ∧ e ≤ e'

theorem Backed.mono {recorded : ℕ} (h : Backed S w recorded) (hgrows : Grows S w w') :
    Backed S w' recorded := by
  intro hS
  obtain ⟨e, he, hle⟩ := h hS
  obtain ⟨e', he', hle'⟩ := hgrows.expiry hS e he
  exact ⟨e', he', hle.trans hle'⟩

theorem Held.mono (h : Held offset S w c) (hgrows : Grows S w w') : Held offset S w' c where
  sound := h.sound
  deadline := h.deadline
  backed := h.backed.mono hgrows
  started := fun f hf => (h.started f hf).trans hgrows.time
  told := fun f hf d recorded hreply =>
    ⟨(h.told f hf d recorded hreply).1, (h.told f hf d recorded hreply).2.mono hgrows⟩

/-- An operation that keeps the deadline, or moves it to one that was told, and keeps the
renewals under way, or drops some. -/
theorem Held.change (h : Held offset S w c) {c' : Controller} (hsound : c'.Sound)
    (hflights : c'.flights ⊆ c.flights)
    (hdeadline : c'.deadline = c.deadline ∧ c'.recorded = c.recorded ∨
      c'.deadline + offset < c'.recorded + 1 ∧ Backed S w c'.recorded) : Held offset S w c' where
  sound := hsound
  deadline := by
    rcases hdeadline with ⟨hdeadline, hrecorded⟩ | h'
    · rw [hdeadline, hrecorded]
      exact h.deadline
    · exact h'.1
  backed := by
    rcases hdeadline with ⟨-, hrecorded⟩ | h'
    · rw [hrecorded]
      exact h.backed
    · exact h'.2
  started := fun f hf => h.started f (hflights hf)
  told := fun f hf => h.told f (hflights hf)

theorem Held.lose (h : Held offset S w c) : Held offset S w c.lose := by
  refine h.change (Controller.sound_lose h.sound) ?_ (.inl Controller.bounds_lose)
  rw [Controller.flights_lose]
  exact List.Subset.refl _

theorem Inv.hold (h : Inv L holder offset S w) (hc : Held offset S w c) :
    Inv L holder offset S (w.hold c) where
  clock := h.clock
  coherent := h.coherent
  startedAt := h.startedAt
  expiry := h.expiry
  record := h.record
  lease := h.lease
  controller := by
    intro c' hc'
    rw [← Option.some.inj hc']
    exact hc.mono ⟨le_rfl, fun _ e he => ⟨e, he, le_rfl⟩⟩

theorem grows_advance (w : World) (d : ℚ≥0) : Grows S w (w.advance L offset d) where
  time := le_self_add
  expiry := fun _ e he => ⟨e, he, le_rfl⟩

theorem Inv.advance (h : Inv L holder offset S w) (d : ℚ≥0) :
    Inv L holder offset S (w.advance L offset d) where
  clock := by
    show w.server.clock + (micros offset (w.time + d) - w.server.clock) = _
    rw [h.clock]
    exact Nat.add_sub_cancel' (micros_mono le_self_add)
  coherent := coherent_step h.coherent (.advance (micros offset (w.time + d) - w.server.clock))
  startedAt := fun t ht => (h.startedAt t ht).trans le_self_add
  expiry := by
    intro hS e he
    have hnow := (advance_record h.coherent
      (micros offset (w.time + d) - w.server.clock)).1
    exact (h.expiry hS e he).trans (Nat.add_le_add_right hnow _)
  record := by
    intro r hr
    rcases (advance_record h.coherent (micros offset (w.time + d) - w.server.clock)).2 with
      ⟨hsame, -⟩ | ⟨hnone, -⟩
    · exact h.record r (hsame ▸ hr)
    · rw [World.advance, hnone] at hr
      cases hr
  lease := fun l hl => ⟨(h.lease l hl).1, (h.lease l hl).2.mono (grows_advance w d)⟩
  controller := fun c hc => (h.controller c hc).mono (grows_advance w d)

/-- What a command leaves in `expiry`. -/
theorem expiry_command (h : Inv L holder offset S w) {q : Request}
    (hq : S → q.owner = holder.acquire.owner → q.lease = holder.acquire.lease) :
    (w.command L holder q).expiry = w.expiry ∨
      ∃ e, (w.command L holder q).expiry = some e ∧
        (S → e = w.server.now + holder.acquire.lease) := by
  rw [World.command]
  dsimp only
  cases hr : (w.server.step L (.command q)).record L with
  | none => exact .inl rfl
  | some r =>
    dsimp only
    split
    next hown =>
      rcases pending_command h.coherent hr hown.1 with hsame | ⟨howner, hlease⟩
      · exact .inl (h.record r hsame hown.1 hown.2).symm
      · refine .inr ⟨_, rfl, fun hS => ?_⟩
        rw [hlease, hq hS (howner.trans hown.2)]
    next => exact .inl rfl

theorem grows_command (h : Inv L holder offset S w) {q : Request}
    (hq : S → q.owner = holder.acquire.owner → q.lease = holder.acquire.lease) :
    Grows S w (w.command L holder q) where
  time := le_rfl
  expiry := by
    intro hS e he
    rcases expiry_command h hq with hsame | ⟨e', he', hlease⟩
    · exact ⟨e, hsame.trans he, le_rfl⟩
    · refine ⟨e', he', ?_⟩
      rw [hlease hS]
      exact h.expiry hS e he

theorem Inv.command (h : Inv L holder offset S w) {q : Request}
    (hq : S → q.owner = holder.acquire.owner → q.lease = holder.acquire.lease) :
    Inv L holder offset S (w.command L holder q) where
  clock := (clock_command w.server q).trans h.clock
  coherent := coherent_step h.coherent (.command q)
  startedAt := h.startedAt
  expiry := by
    intro hS e he
    have hnow : (w.command L holder q).server.now = w.server.now :=
      (command_transition h.coherent q).2.1
    rw [hnow]
    rcases expiry_command h hq with hsame | ⟨e', he', hlease⟩
    · exact h.expiry hS e (hsame.symm.trans he)
    · rw [he'] at he
      rw [← Option.some.inj he]
      exact (hlease hS).le
  record := by
    intro r hr hpending hown
    have hrecord : (w.server.step L (.command q)).record L = some r := hr
    rw [World.command]
    dsimp only
    rw [hrecord]
    exact if_pos ⟨hpending, hown⟩
  lease := fun l hl => ⟨(h.lease l hl).1, (h.lease l hl).2.mono (grows_command h hq)⟩
  controller := fun c hc => (h.controller c hc).mono (grows_command h hq)

/-- **An answer measured after the request bounds the deadline**: a command that the process
began at `startedAt` tells a duration that ends, from there, less than a millisecond after
the expiry that the script records. -/
theorem lt_recorded (h : Inv L holder offset S w) {q : Request}
    (hq : S → q.owner = holder.acquire.owner → q.lease = holder.acquire.lease)
    (howner : q.owner = holder.acquire.owner) {startedAt : ℚ≥0} (hstarted : startedAt ≤ w.time)
    {d : ℕ} (hreply : (∃ o, (w.server.execute L q).reply = .acquired o d) ∨
      (w.server.execute L q).reply = .renewed d) :
    Told offset startedAt d (leaseUntil L (w.command L holder q).server) ∧
      Backed S (w.command L holder q) (leaseUntil L (w.command L holder q).server) := by
  obtain ⟨r, hr, hpending, hown, huntil⟩ := record_of_grant h.coherent hreply
  have hserver : (w.command L holder q).server.record L = some r := hr
  have hleaseUntil : leaseUntil L (w.command L holder q).server = w.server.now + d := by
    rw [leaseUntil, hserver, ← huntil]
    rfl
  have hnow := (now_bounds h.clock).2
  have hle : (startedAt : ℚ) ≤ w.time := by exact_mod_cast hstarted
  constructor
  · rw [Told, hleaseUntil, Nat.cast_add]
    linarith
  · intro _
    refine ⟨r.leaseUntilMs, ?_, ?_⟩
    · exact (h.command hq).record r hserver hpending (hown.trans howner)
    · rw [hleaseUntil, huntil]

theorem Inv.lend (h : Inv L holder offset S w) (l : Lease)
    (hl : Told offset l.startedAt l.remainingMs l.recorded ∧ Backed S w l.recorded) :
    Inv L holder offset S { w with lease := some l } where
  clock := h.clock
  coherent := h.coherent
  startedAt := h.startedAt
  expiry := h.expiry
  record := h.record
  lease := by
    intro l' hl'
    rw [← Option.some.inj hl']
    exact hl
  controller := fun c hc => (h.controller c hc).mono ⟨le_rfl, fun _ e he => ⟨e, he, le_rfl⟩⟩

theorem Inv.runAcquire (h : Inv L holder offset S w) {startedAt : ℚ≥0}
    (hstarted : startedAt ≤ w.time) : Inv L holder offset S (w.runAcquire L holder startedAt) := by
  rw [World.runAcquire.eq_def]
  dsimp only
  split
  next o remaining hreply =>
    exact (h.command fun _ _ => rfl).lend _
      (lt_recorded h (fun _ _ => rfl) rfl hstarted (.inl ⟨o, hreply⟩))
  next => exact h.command fun _ _ => rfl

theorem held_create {l : Lease} (hl : Told offset l.startedAt l.remainingMs l.recorded ∧
    Backed S w l.recorded) : Held offset S w (Controller.create l) where
  sound := by
    refine ⟨rfl, fun hlost => ?_, Nat.zero_le 1⟩
    cases hlost
  deadline := by
    have htold := hl.1
    rw [Told] at htold
    show (l.startedAt : ℚ) + max 0 (l.remainingMs : ℚ) + offset < l.recorded + 1
    rw [max_eq_right (Nat.cast_nonneg _)]
    linarith
  backed := hl.2
  started := fun f hf => absurd hf List.not_mem_nil
  told := fun f hf => absurd hf List.not_mem_nil

theorem Held.schedule (h : Held offset S w c) (hnone : c.renewals = 0) (now : ℚ) :
    Held offset S w (c.schedule now) := by
  obtain ⟨hdeadline, hrecorded, hflights⟩ := Controller.bounds_schedule (c := c) now
  refine h.change (Controller.sound_schedule h.sound hnone now) ?_ (.inl ⟨hdeadline, hrecorded⟩)
  rw [hflights]
  exact List.Subset.refl _

theorem Inv.runMaintain (h : Inv L holder offset S w) {l : Lease} (hl : w.lease = some l)
    (d₁ d₂ : ℚ≥0) : Inv L holder offset S (w.runMaintain L offset l d₁ d₂) := by
  rw [World.runMaintain]
  dsimp only
  split
  · exact (h.advance d₁).hold (held_create ((h.advance d₁).lease l hl)).lose
  · have h' := (h.advance d₁).advance d₂
    exact h'.hold ((held_create (h'.lease l hl)).schedule rfl _)

/-- Taking a timer off leaves no renewal, if it was one. -/
theorem renewals_erase {t : Timer} (ht : t ∈ c.timers) :
    ({ c with timers := c.timers.erase t } : Controller).renewals +
      (if t.kind = .renewal then 1 else 0) = c.renewals := by
  have hcount := List.countP_erase (fun t : Timer => decide (t.kind = .renewal)) c.timers t
  have hpos : t.kind = .renewal →
      0 < c.timers.countP (fun t : Timer => decide (t.kind = .renewal)) := by
    intro hkind
    exact List.countP_pos_iff.mpr ⟨t, ht, decide_eq_true hkind⟩
  rw [Controller.renewals, Controller.renewals]
  dsimp only
  rw [hcount]
  by_cases hkind : t.kind = .renewal
  · have := hpos hkind
    rw [if_pos ⟨ht, decide_eq_true hkind⟩, if_pos hkind]
    omega
  · rw [if_neg fun h => hkind (of_decide_eq_true h.2), if_neg hkind]
    rfl

theorem Held.erase (h : Held offset S w c) {t : Timer} (ht : t ∈ c.timers) :
    Held offset S w { c with timers := c.timers.erase t } := by
  have hle : ({ c with timers := c.timers.erase t } : Controller).renewals ≤ c.renewals := by
    rw [← renewals_erase ht]
    exact Nat.le_add_right _ _
  exact h.change ⟨h.sound.aborted, h.sound.stopped, hle.trans h.sound.renewals⟩
    (List.Subset.refl _) (.inl ⟨rfl, rfl⟩)

/-- The renewal that has been armed takes off. -/
theorem Held.renew (h : Held offset S w c) (hnone : c.renewals = 0) {requestStartedAt : ℚ≥0}
    (hstarted : requestStartedAt ≤ w.time) (now : ℚ) :
    Held offset S w (c.renew requestStartedAt now) := by
  rw [Controller.renew.eq_def]
  rcases Controller.assertLive_cases (c := c) now with hlive | hlive | hlive
  · rw [hlive]
    dsimp only
    refine ⟨⟨h.sound.aborted, h.sound.stopped, ?_⟩, h.deadline, h.backed, fun f hf => ?_,
      fun f hf d recorded hreply => ?_⟩
    · rw [Controller.renewals] at hnone ⊢
      simp only [List.length_append, List.length_singleton]
      omega
    · rcases List.mem_append.mp hf with hf | hf
      · exact h.started f hf
      · rw [List.mem_singleton.mp hf]
        exact hstarted
    · rcases List.mem_append.mp hf with hf | hf
      · exact h.told f hf d recorded hreply
      · rw [List.mem_singleton.mp hf] at hreply
        cases hreply
  · rw [hlive]
    exact h.lose
  · rw [hlive]
    exact h.lose.lose

theorem Inv.runTimer (h : Inv L holder offset S w) (hc : w.controller = some c) {t : Timer}
    (ht : t ∈ c.timers) (d₁ d₂ : ℚ≥0) : Inv L holder offset S (w.runTimer L offset c t d₁ d₂) := by
  rw [World.runTimer.eq_def]
  have hcount := renewals_erase ht
  have hsingle := (h.controller c hc).sound.renewals
  dsimp only
  split
  next hkind => exact h.hold ((h.controller c hc).erase ht).lose
  next hkind =>
    rw [hkind, if_pos rfl] at hcount
    have h' := (h.advance d₁).advance d₂
    refine h'.hold (((h'.controller c hc).erase ht).renew (by omega) ?_ _)
    exact le_self_add

/-- A renewal under way gets its reply. -/
theorem Inv.runRenewal (h : Inv L holder offset S w) (hc : w.controller = some c) {i : ℕ}
    {f : Flight} (hf : c.flights[i]? = some f) :
    Inv L holder offset S (w.runRenewal L holder c i f) := by
  have hq : S → holder.renew.owner = holder.acquire.owner →
      holder.renew.lease = holder.acquire.lease := fun _ _ => holder.lease_eq
  have hmem : f ∈ c.flights := List.mem_of_getElem? hf
  have hstarted := (h.controller c hc).started f hmem
  have h' := h.command (q := holder.renew) hq
  have hheld : Held offset S _ c := h'.controller c hc
  refine h'.hold ⟨⟨hheld.sound.aborted, hheld.sound.stopped, ?_⟩, hheld.deadline, hheld.backed,
    fun f' hf' => ?_, fun f' hf' d recorded hreply => ?_⟩
  · rw [Controller.renewals, List.length_set]
    exact hheld.sound.renewals
  · rcases List.mem_or_eq_of_mem_set hf' with hf' | rfl
    · exact hheld.started f' hf'
    · exact hstarted
  · rcases List.mem_or_eq_of_mem_set hf' with hf' | rfl
    · exact hheld.told f' hf' d recorded hreply
    · obtain ⟨hanswer, hrecorded⟩ := Prod.mk.inj (Option.some.inj hreply)
      rw [← hrecorded]
      exact lt_recorded h hq holder.owner_eq hstarted (.inr hanswer)

/-- Without the renewal that has settled there is none. -/
theorem renewals_eraseIdx (h : c.Sound) {i : ℕ} (hi : i < c.flights.length) :
    ({ c with flights := c.flights.eraseIdx i } : Controller).renewals = 0 := by
  have hsingle := h.renewals
  rw [Controller.renewals] at hsingle ⊢
  dsimp only
  rw [List.length_eraseIdx_of_lt hi]
  omega

theorem Held.eraseIdx (h : Held offset S w c) {i : ℕ} (hi : i < c.flights.length) :
    Held offset S w { c with flights := c.flights.eraseIdx i } :=
  h.change ⟨h.sound.aborted, h.sound.stopped, (renewals_eraseIdx h.sound hi).trans_le (Nat.zero_le 1)⟩
    (List.eraseIdx_subset) (.inl ⟨rfl, rfl⟩)

theorem Inv.runReply (h : Inv L holder offset S w) (hc : w.controller = some c) {i : ℕ}
    {f : Flight} (hf : c.flights[i]? = some f) {reply : Reply × ℕ} (hreply : f.reply = some reply)
    (d₁ d₂ : ℚ≥0) : Inv L holder offset S (w.runReply L offset c i f reply d₁ d₂) := by
  obtain ⟨hi, -⟩ := List.getElem?_eq_some_iff.mp hf
  have h' := (h.advance d₁).advance d₂
  have hheld : Held offset S _ c := h'.controller c hc
  refine h'.hold ?_
  generalize hearlier : ((w.advance L offset d₁).time : ℚ) = responseAt
  generalize hlater : (((w.advance L offset d₁).advance L offset d₂).time : ℚ) = now
  obtain ⟨hflights, hdeadline⟩ := Controller.bounds_resume
    (c := { c with flights := c.flights.eraseIdx i }) f.requestStartedAt reply.1 reply.2
    responseAt now
  refine (hheld.eraseIdx hi).change (Controller.sound_resume (hheld.eraseIdx hi).sound
    (renewals_eraseIdx hheld.sound hi) _ _ _ _ _) (hflights ▸ List.Subset.refl _) ?_
  rcases hdeadline with hsame | ⟨d, hkind, hdeadline, hrecorded⟩
  · exact .inl hsame
  · obtain ⟨htold, hbacked⟩ := hheld.told f (List.mem_of_getElem? hf) d reply.2
      (by rw [hreply, ← hkind])
    right
    rw [hdeadline, hrecorded]
    refine ⟨?_, hbacked⟩
    rw [Told] at htold
    linarith

/-- Whatever happens next. -/
theorem inv_step (h : Inv L holder offset S w) (e : Event) (hq : ∀ q, e = .command q → S →
    q.owner = holder.acquire.owner → q.lease = holder.acquire.lease) :
    Inv L holder offset S (w.step L holder offset e) := by
  cases e with
  | advance d => exact h.advance d
  | command q => exact h.command (hq q rfl)
  | capture =>
    rw [World.step]
    split
    · refine ⟨h.clock, h.coherent, fun t ht => ?_, h.expiry, h.record, h.lease, fun c hc => ?_⟩
      · rw [← Option.some.inj ht]
      · exact (h.controller c hc).mono ⟨le_rfl, fun _ e he => ⟨e, he, le_rfl⟩⟩
    · exact h
  | acquire =>
    rw [World.step.eq_def]
    dsimp only
    split
    next startedAt hstarted hlease => exact h.runAcquire (h.startedAt startedAt hstarted)
    next => exact h
  | maintain d₁ d₂ =>
    rw [World.step.eq_def]
    dsimp only
    split
    next lease hlease hcontroller => exact h.runMaintain hlease d₁ d₂
    next => exact h
  | fire id d₁ d₂ =>
    rw [World.step.eq_def]
    dsimp only
    split
    next => exact h
    next c hc =>
      split
      next => exact h
      next t ht => exact h.runTimer hc (List.mem_of_find?_eq_some ht) d₁ d₂
  | execute i =>
    rw [World.step.eq_def]
    dsimp only
    split
    next => exact h
    next c hc =>
      split
      next f hf =>
        split
        · exact h.runRenewal hc hf
        · exact h
      next => exact h
  | resolve i d₁ d₂ =>
    rw [World.step.eq_def]
    dsimp only
    split
    next => exact h
    next c hc =>
      split
      next f hf =>
        split
        next reply hreply => exact h.runReply hc hf hreply d₁ d₂
        next => exact h
      next => exact h
  | reject i =>
    rw [World.step.eq_def]
    dsimp only
    split
    next => exact h
    next c hc =>
      split
      next hi => exact h.hold ((h.controller c hc).eraseIdx hi).lose
      next => exact h
  | assertLive d =>
    rw [World.step.eq_def]
    dsimp only
    split
    next => exact h
    next c hc =>
      have hheld := (h.advance d).controller c hc
      obtain ⟨hdeadline, hrecorded, hflights⟩ :=
        Controller.bounds_assertLive (c := c) (w.advance L offset d).time
      exact (h.advance d).hold (hheld.change (Controller.sound_assertLive hheld.sound _)
        (hflights ▸ List.Subset.refl _) (.inl ⟨hdeadline, hrecorded⟩))
  | stop =>
    rw [World.step.eq_def]
    dsimp only
    split
    next => exact h
    next c hc =>
      have hheld := h.controller c hc
      exact h.hold (hheld.change (Controller.sound_stop hheld.sound) (List.Subset.refl _)
        (.inl ⟨rfl, rfl⟩))

/-- A lost lease stays lost, whatever happens next. -/
theorem lost_step (hsound : c.Sound) (hc : w.controller = some c) (hlost : c.lostError = true)
    (e : Event) : ∃ c', (w.step L holder offset e).controller = some c' ∧ c'.lostError = true := by
  have hstopped := hsound.stopped hlost
  have hsame : ∀ {c' : Controller}, c'.lostError = true → ∃ c'', some c'.lose = some c'' ∧
      c''.lostError = true := by
    intro c' h
    exact ⟨_, rfl, by rw [Controller.lost_lose h, h]⟩
  rw [World.step.eq_def]
  cases e with
  | advance d => exact ⟨c, hc, hlost⟩
  | command q => exact ⟨c, hc, hlost⟩
  | capture =>
    dsimp only
    split
    · exact ⟨c, hc, hlost⟩
    · exact ⟨c, hc, hlost⟩
  | acquire =>
    dsimp only
    split
    next startedAt hstarted hlease =>
      rw [World.runAcquire.eq_def]
      dsimp only
      split
      · exact ⟨c, hc, hlost⟩
      · exact ⟨c, hc, hlost⟩
    next => exact ⟨c, hc, hlost⟩
  | maintain d₁ d₂ =>
    dsimp only
    split
    next lease hlease hnone =>
      rw [hc] at hnone
      cases hnone
    next => exact ⟨c, hc, hlost⟩
  | fire id d₁ d₂ =>
    dsimp only
    rw [hc]
    dsimp only
    split
    next => exact ⟨c, hc, hlost⟩
    next t ht =>
      rw [World.runTimer.eq_def]
      dsimp only
      split
      next => exact hsame hlost
      next =>
        refine ⟨_, rfl, ?_⟩
        have hsame := Controller.lost_renew (c := { c with timers := c.timers.erase t }) hstopped
          hlost (w.advance L offset d₁).time ((w.advance L offset d₁).advance L offset d₂).time
        exact (congrArg Controller.lostError hsame).trans hlost
  | execute i =>
    dsimp only
    rw [hc]
    dsimp only
    split
    next f hf =>
      split
      · exact ⟨_, rfl, hlost⟩
      · exact ⟨c, hc, hlost⟩
    next => exact ⟨c, hc, hlost⟩
  | resolve i d₁ d₂ =>
    dsimp only
    rw [hc]
    dsimp only
    split
    next f hf =>
      split
      next reply hreply =>
        refine ⟨_, rfl, ?_⟩
        rw [Controller.resume.eq_def, if_pos hstopped]
        exact hlost
      next => exact ⟨c, hc, hlost⟩
    next => exact ⟨c, hc, hlost⟩
  | reject i =>
    dsimp only
    rw [hc]
    dsimp only
    split
    · exact hsame hlost
    · exact ⟨c, hc, hlost⟩
  | assertLive d =>
    dsimp only
    rw [hc]
    dsimp only
    refine ⟨_, rfl, ?_⟩
    rw [Controller.lost_assertLive hstopped hlost]
    exact hlost
  | stop =>
    dsimp only
    rw [hc]
    exact ⟨_, rfl, hlost⟩

end Invariant

/-! ### Runs -/

section Runs

variable (L : Lua) (holder : Holder) (offset : ℚ≥0) (events : List Event)

/-- The system before the `n`-th event. -/
def world (n : ℕ) : World :=
  stateAt (World.step L holder offset) (World.start offset) events n

/-- Every command of the owner asks for the duration that the store is configured with. -/
def OneDuration : Prop :=
  ∀ q, .command q ∈ events → q.owner = holder.acquire.owner → q.lease = holder.acquire.lease

variable {L holder offset events}

theorem inv_start : Inv L holder offset (OneDuration holder events) (World.start offset) where
  clock := rfl
  coherent := coherent_absent L _
  startedAt := fun t ht => by cases ht
  expiry := fun _ e he => by cases he
  record := fun r hr => by cases hr
  lease := fun l hl => by cases hl
  controller := fun c hc => by cases hc

theorem inv_world (n : ℕ) :
    Inv L holder offset (OneDuration holder events) (world L holder offset events n) := by
  refine invariant_along inv_start (fun m e he hinv => ?_) n
  refine inv_step hinv e fun q hq hone => hone q ?_
  exact hq ▸ List.mem_of_getElem? he

theorem lost_world {n : ℕ} {c : Controller} (hc : (world L holder offset events n).controller = some c)
    (hlost : c.lostError = true) (m : ℕ) (hm : n ≤ m) :
    ∃ c', (world L holder offset events m).controller = some c' ∧ c'.lostError = true := by
  refine invariant_from (P := fun w : World => ∃ c', w.controller = some c' ∧ c'.lostError = true)
    ⟨c, hc, hlost⟩ ?_ m hm
  rintro k e - - ⟨c', hc', hlost'⟩
  exact lost_step ((inv_world k).controller c' hc').sound hc' hlost' e

/-- **The controller errs on the safe side, by the server's milliseconds.**

In every run, for every controller: while `assertLive` returns and `stop` has not been
called, the deadline is still to come, and it is earlier than a millisecond after the expiry
that the script had recorded when it told the duration; if the owner's commands ask for one
duration, also than a millisecond after the expiry that is recorded now.  A lost lease is
never live again, renewals do not overlap, and the signal is aborted exactly if the lease is
lost. -/
theorem lease_conservative (n : ℕ) {c : Controller}
    (hc : (world L holder offset events n).controller = some c) :
    (∀ d : ℚ≥0, c.stopped = false →
      (c.assertLive ((world L holder offset events n).time + d)).2 = true →
      ((world L holder offset events n).time + d : ℚ) < c.deadline ∧
      c.deadline + offset < c.recorded + 1 ∧
      (OneDuration holder events → ∃ e, (world L holder offset events n).expiry = some e ∧
        c.deadline + offset < e + 1 ∧
        ∀ r, (world L holder offset events n).server.record L = some r → r.state = .pending →
          r.owner = holder.acquire.owner → r.leaseUntilMs = e)) ∧
    (c.lostError = true → ∀ m, n ≤ m → ∃ c', (world L holder offset events m).controller = some c' ∧
      c'.lostError = true ∧ ∀ now, (c'.assertLive now).2 = false) ∧
    c.flights.length ≤ 1 ∧ (c.aborted = true ↔ c.lostError = true) := by
  have hinv : Inv L holder offset (OneDuration holder events) (world L holder offset events n) :=
    inv_world n
  have hheld := hinv.controller c hc
  refine ⟨fun d hstopped hlive => ⟨Controller.lt_deadline_of_assertLive hstopped hlive,
    hheld.deadline, fun hone => ?_⟩, fun hlost m hm => ?_, ?_, ?_⟩
  · obtain ⟨e, he, hle⟩ := hheld.backed hone
    have hcast : (c.recorded : ℚ) ≤ e := by exact_mod_cast hle
    refine ⟨e, he, by linarith [hheld.deadline], fun r hr hpending hown => ?_⟩
    have hrecord := hinv.record r hr hpending hown
    rw [he] at hrecord
    exact (Option.some.inj hrecord).symm
  · obtain ⟨c', hc', hlost'⟩ := lost_world hc hlost m hm
    refine ⟨c', hc', hlost', fun now => ?_⟩
    rw [Controller.lost_assertLive (((inv_world m).controller c' hc').sound.stopped hlost') hlost']
  · exact (Nat.le_add_left _ _).trans hheld.sound.renewals
  · rw [hheld.sound.aborted]

/-- The sample owner. -/
def sampleHolder : Holder where
  acquire := firstBegin
  renew := firstRenew
  acquire_cmd := rfl
  renew_cmd := rfl
  owner_eq := rfl
  lease_eq := rfl

/-- Asked half a millisecond into the first one, answered before its end. -/
def lateRun : List Event :=
  [.advance (1 / 2), .capture, .advance (2 / 5), .acquire, .maintain 0 0]

theorem controller_lateRun : ∃ c, (world referenceLua sampleHolder 0 lateRun 5).controller = some c ∧
    c.stopped = false ∧ c.deadline = 61 / 2 ∧
    (c.assertLive (world referenceLua sampleHolder 0 lateRun 5).time).2 = true := by
  have hfields : (world referenceLua sampleHolder 0 lateRun 5).controller.map (fun c => (c.stopped,
      c.deadline, (c.assertLive (world referenceLua sampleHolder 0 lateRun 5).time).2)) =
        some (false, 61 / 2, true) := by
    decide +kernel
  obtain ⟨c, hc, hfields⟩ := Option.map_eq_some_iff.mp hfields
  obtain ⟨hstopped, hrest⟩ := Prod.mk.inj hfields
  obtain ⟨hdeadline, hlive⟩ := Prod.mk.inj hrest
  exact ⟨c, hc, hstopped, hdeadline, hlive⟩

/-- The script runs at 0.9 ms and counts 0: the lease of 30 ms that it records ends before the
deadline of the process, which began at 0.5 ms. -/
theorem deadline_after_expiry : ∃ c,
    (world referenceLua sampleHolder 0 lateRun 5).controller = some c ∧ c.stopped = false ∧
    (c.assertLive (world referenceLua sampleHolder 0 lateRun 5).time).2 = true ∧
    ((world referenceLua sampleHolder 0 lateRun 5).server.record referenceLua).map
      Record.leaseUntilMs = some 30 ∧
    (30 : ℚ) < c.deadline + (0 : ℚ≥0) := by
  obtain ⟨c, hc, hstopped, hdeadline, hlive⟩ := controller_lateRun
  refine ⟨c, hc, hstopped, hlive, by decide +kernel, ?_⟩
  rw [hdeadline]
  norm_num

theorem lease_conservative_lateRun : ∃ c,
    (world referenceLua sampleHolder 0 lateRun 5).controller = some c ∧
    (world referenceLua sampleHolder 0 lateRun 5).time < c.deadline ∧ c.deadline < 31 := by
  obtain ⟨c, hc, hstopped, -, hlive⟩ := controller_lateRun
  obtain ⟨hsafe, -⟩ := lease_conservative 5 hc
  have hone : OneDuration sampleHolder lateRun := by
    intro q hq
    simp [lateRun] at hq
  obtain ⟨hbefore, -, hexpiry⟩ := hsafe 0 hstopped (by rwa [NNRat.cast_zero, add_zero])
  obtain ⟨e, he, hdeadline, -⟩ := hexpiry hone
  have hthirty : (world referenceLua sampleHolder 0 lateRun 5).expiry = some 30 := by
    decide +kernel
  rw [hthirty] at he
  rw [NNRat.cast_zero, add_zero] at hbefore hdeadline
  rw [← Option.some.inj he] at hdeadline
  exact ⟨c, hc, hbefore, by norm_num at hdeadline; exact hdeadline⟩

end Runs

end LeaseController
