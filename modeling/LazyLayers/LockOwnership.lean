/-
Local ownership of the distributed lock (`distributedLock.ts` and the acquisition in
`HybridCache.loadWithDistributedLockInternal`).

A load that has acquired the lock keeps a deadline of its own, moves it when a renewal is
acknowledged, and asks `assertOwned` before it relies on the lock.  The deadline counts
from the moment before the request was sent, and Redis applies the request later, so the
lease outlives the deadline.

A `World` is one such load with the Redis that it talks to.  Both clocks advance together,
by whole milliseconds; the wall clock may jump, though not backwards while an acquisition
is outstanding.  Timers fire at any time after they were armed, replies arrive at any time
after the server has answered, and other clients may call whatever does not fence the
lease: nobody else knows the token.

* `assertOwned`, `schedule`, `renewalCallback` — `maintainLock`;
* `Held` — Redis keeps the lease up to a moment of the local clock;
* `Inv` — it keeps it up to the deadline, and up to what an acknowledgement will make the
  deadline;
* `ownership_contract` — in every run `assertOwned` succeeds only before the deadline and
  before the expiry in Redis, never after a loss, and renewals are made one at a time.
-/
import LazyLayers.Runs
import LazyLayers.RedisFencing

open Runs RedisStore

namespace DistributedLock

/-! ### One load and its Redis -/

/-- What `loadWithDistributedLockInternal` has at hand; `canRenew` says whether the store
has a `renewLock`. -/
structure Use where
  layout : Layout
  storageKey : JsString
  token : Octets
  lockTtlMs : ℤ
  canRenew : Bool

/-- An outstanding `acquireLock`: `acquiredAt` by the wall clock, the moment by the
monotonic clock, and what the server has answered. -/
structure Attempt where
  acquiredAt : ℤ
  sentAt : ℤ
  answer : Option Bool

/-- A renewal that is awaited, or that the server has not yet seen. -/
structure Renewal where
  startedAt : ℤ
  answer : Option Bool
  awaited : Bool

inductive Timer
  | expiry
  | renewal
  deriving DecidableEq, Repr

/-- The variables of `maintainLock`. -/
structure Lease where
  deadline : ℤ
  stopped : Bool
  error : Bool
  renewalTimer : Option ℕ
  expiryTimer : Option ℕ

/-- Redis, `performance.now()` and `Date.now()`, and the load. -/
structure World where
  db : Db
  now : ℤ
  wall : ℤ
  attempt : Option Attempt
  lease : Option Lease
  timers : List (ℕ × Timer)
  nextTimer : ℕ
  renewals : List Renewal

def World.init (db : Db) (now wall : ℤ) : World := ⟨db, now, wall, none, none, [], 0, []⟩

/-- Time passes, for client and server alike. -/
def World.tick (w : World) (ms : ℕ) : World :=
  { w with db := w.db.advance ms, now := w.now + ms, wall := w.wall + ms }

/-- A call reaches Redis. -/
def World.call (u : Use) (w : World) (c : Call) : World × Reply :=
  ({ w with db := (c.run u.layout w.db).1 }, (c.run u.layout w.db).2)

/-! ### `maintainLock` -/

def World.clearTimeout (w : World) (timer : Option ℕ) : World :=
  { w with timers := w.timers.filter fun t => some t.1 ≠ timer }

/-- `stop()` -/
def World.stop (w : World) : World :=
  match w.lease with
  | none => w
  | some l => ({ w with lease := some { l with stopped := true } }.clearTimeout
      l.renewalTimer).clearTimeout l.expiryTimer

/-- `lose()` -/
def World.lose (w : World) : World :=
  match w.lease with
  | none => w
  | some l => if l.stopped then w else World.stop { w with lease := some { l with error := true } }

/-- `assertOwned()`; the flag says whether it returns. -/
def World.assertOwned (w : World) : World × Bool :=
  match w.lease with
  | none => (w, false)
  | some l =>
    if l.stopped = false ∧ l.deadline ≤ w.now then (w.lose, false)
    else (w, !l.error)

/-- `schedule()` -/
def World.schedule (u : Use) (w : World) : World :=
  match w.lease with
  | none => w
  | some l =>
    if u.canRenew then
      { w with
        lease := some { l with
          expiryTimer := some w.nextTimer, renewalTimer := some (w.nextTimer + 1) }
        timers := w.timers ++ [(w.nextTimer, .expiry), (w.nextTimer + 1, .renewal)]
        nextTimer := w.nextTimer + 2 }
    else
      { w with
        lease := some { l with expiryTimer := some w.nextTimer }
        timers := w.timers ++ [(w.nextTimer, .expiry)]
        nextTimer := w.nextTimer + 1 }

/-- `maintainLock(key, ttlMs, acquiredAt, renew)`; time may pass between the readings of
the two clocks. -/
def World.maintainLock (u : Use) (w : World) (acquiredAt : ℤ) (pause : ℕ) : World :=
  let start := w.now
  let w := w.tick pause
  let deadline := start + max 0 (u.lockTtlMs - max 0 (w.wall - acquiredAt))
  World.schedule u { w with lease := some ⟨deadline, false, false, none, none⟩ }

/-- The callback of the renewal timer up to its `await`; time may pass after `startedAt`
has been read. -/
def World.renewalCallback (w : World) (pause : ℕ) : World :=
  let startedAt := w.now
  let r := (w.tick pause).assertOwned
  if r.2 then { r.1 with renewals := r.1.renewals ++ [⟨startedAt, none, true⟩] } else r.1.lose

/-- The callback after its `await`; `none` is a rejection. -/
def World.resume (u : Use) (w : World) (startedAt : ℤ) (renewed : Option Bool) : World :=
  match w.lease, renewed with
  | none, _ => w
  | some _, none => w.lose
  | some l, some renewed =>
    if l.stopped then w
    else
      let r := w.assertOwned
      if r.2 ∧ renewed then
        World.schedule u ({ w with lease := some { l with
          deadline := startedAt + u.lockTtlMs } }.clearTimeout l.expiryTimer)
      else r.1.lose

/-! ### What may happen -/

/-- Other clients do not fence the lease, and do not know the token. -/
def Permitted (u : Use) (c : Call) : Prop :=
  ¬ c.Clears u.layout u.storageKey ∧ c ≠ .releaseLock u.storageKey u.token ∧
    ∀ ttlMs, c ≠ .renewLock u.storageKey u.token ttlMs

inductive Event (u : Use)
  | tick (ms : ℕ)
  /-- The wall clock is set. -/
  | wallJump (ms : ℤ)
  /-- A call of another client. -/
  | call (c : Call) (h : Permitted u c)
  | acquire
  /-- The server answers the outstanding `acquireLock`, and its reply arrives. -/
  | serveAcquire
  | acquired (pause : ℕ)
  /-- `acquireLock` fails for the client; the server may still see it later. -/
  | acquireFailed
  | lateAcquire
  | fire (timer : ℕ) (pause : ℕ)
  /-- The server answers the `k`-th renewal, and its reply arrives. -/
  | serveRenew (k : ℕ)
  | renewed (k : ℕ)
  /-- The `k`-th renewal fails for the client, with `false` or with an error. -/
  | renewFailed (k : ℕ) (throws : Bool)
  | assertOwned
  | stop
  /-- The `finally` of the load, after its `stop()`. -/
  | release

def answer : Reply → Option Bool
  | .flag b => some b
  | _ => none

def Use.acquireLock (u : Use) : Call := .acquireLock u.storageKey u.token u.lockTtlMs

def Use.renewLock (u : Use) : Call := .renewLock u.storageKey u.token u.lockTtlMs

def Use.releaseLock (u : Use) : Call := .releaseLock u.storageKey u.token

def World.isStopped (w : World) : Bool := w.lease.any Lease.stopped

def World.step (u : Use) (w : World) : Event u → World
  | .tick ms => w.tick ms
  | .wallJump ms => if w.attempt.isSome ∧ ms < 0 then w else { w with wall := w.wall + ms }
  | .call c _ => (w.call u c).1
  | .acquire =>
    if w.attempt.isNone ∧ w.lease.isNone then { w with attempt := some ⟨w.wall, w.now, none⟩ }
    else w
  | .serveAcquire =>
    match w.attempt with
    | some ⟨acquiredAt, sentAt, none⟩ =>
      let r := w.call u u.acquireLock
      { r.1 with attempt := some ⟨acquiredAt, sentAt, answer r.2⟩ }
    | _ => w
  | .acquired pause =>
    match w.attempt with
    | some ⟨acquiredAt, _, some true⟩ =>
      World.maintainLock u { w with attempt := none } acquiredAt pause
    | some ⟨_, _, some false⟩ => { w with attempt := none }
    | _ => w
  | .acquireFailed => { w with attempt := none }
  | .lateAcquire => (w.call u u.acquireLock).1
  | .fire timer pause =>
    match w.timers.find? fun t => t.1 = timer with
    | none => w
    | some (_, .expiry) => (w.clearTimeout (some timer)).lose
    | some (_, .renewal) => (w.clearTimeout (some timer)).renewalCallback pause
  | .serveRenew k =>
    match w.renewals[k]? with
    | some ⟨startedAt, none, awaited⟩ =>
      let r := w.call u u.renewLock
      if awaited then
        { r.1 with renewals := w.renewals.set k ⟨startedAt, answer r.2, true⟩ }
      else { r.1 with renewals := w.renewals.eraseIdx k }
    | _ => w
  | .renewed k =>
    match w.renewals[k]? with
    | some ⟨startedAt, some renewed, true⟩ =>
      World.resume u { w with renewals := w.renewals.eraseIdx k } startedAt (some renewed)
    | _ => w
  | .renewFailed k throws =>
    match w.renewals[k]? with
    | some ⟨startedAt, answer, true⟩ =>
      let rest := if answer = none then w.renewals.set k ⟨startedAt, none, false⟩
        else w.renewals.eraseIdx k
      World.resume u { w with renewals := rest } startedAt (if throws then none else some false)
    | _ => w
  | .assertOwned => w.assertOwned.1
  | .stop => w.stop
  | .release => if w.isStopped then (w.call u u.releaseLock).1 else w

-- the equations of `step` are made here, once for all the proofs below
example (u : Use) (w : World) : w.step u .stop = w.stop := by
  rw [World.step]

variable {u : Use} {w w' : World} {d : ℤ} {l : Lease}

/-! ### What Redis keeps -/

/-- Up to the moment `d` of the local clock Redis keeps the lease of the load. -/
def Held (u : Use) (db : Db) (now d : ℤ) : Prop :=
  now < d → d ≤ now + u.lockTtlMs ∧ ∃ e, (db.slot u.layout u.storageKey).lease = some e ∧
    e.value = u.token ∧ d - now ≤ e.expireAt - db.now

theorem Held.anti {db : Db} {now d' : ℤ} (h : Held u db now d') (hle : d ≤ d') :
    Held u db now d := by
  intro hlt
  obtain ⟨hd, e, hlease, htoken, hexpire⟩ := h (by omega)
  exact ⟨by omega, e, hlease, htoken, by omega⟩

theorem Held.tick {db : Db} {now : ℤ} (h : Held u db now d) (ms : ℕ) :
    Held u (db.advance ms) (now + ms) d := by
  intro hlt
  obtain ⟨hle, e, hlease, htoken, hexpire⟩ := h (by omega)
  have hslot := slot_step u.layout db u.storageKey (.advance ms)
  have hnow : (db.advance ms).now = db.now + ms := rfl
  refine ⟨by omega, e, ?_, htoken, by rw [hnow]; push_cast; omega⟩
  show ((db.step u.layout (.advance ms)).slot u.layout u.storageKey).lease = some e
  rw [hslot, Slot.step]
  refine Option.filter_eq_some_iff.mpr ⟨hlease, ?_⟩
  rw [decide_eq_true_iff]
  omega

/-- A call that neither fences nor releases keeps the lease, or renews it. -/
theorem Held.call {db : Db} {now : ℤ} (h : Held u db now d) {c : Call}
    (hclear : ¬ c.Clears u.layout u.storageKey) (hrelease : c ≠ u.releaseLock)
    (hrenew : ∀ ttlMs, c = .renewLock u.storageKey u.token ttlMs → ttlMs = u.lockTtlMs) :
    Held u (c.run u.layout db).1 now d := by
  intro hlt
  obtain ⟨hle, e, hlease, htoken, hexpire⟩ := h hlt
  refine ⟨hle, ?_⟩
  have hslot := slot_step u.layout db u.storageKey (.call c)
  rw [Db.step, Slot.step] at hslot
  rw [now_run, hslot]
  split
  · next hkey =>
    have hholder : (db.slot u.layout u.storageKey).holder = some u.token := by
      rw [Slot.holder, hlease, Option.map_some, htoken]
    cases c with
    | acquireLock key token ttlMs =>
      rw [Slot.call, if_neg fun hfree => by rw [hlease] at hfree; cases hfree.2]
      exact ⟨e, hlease, htoken, hexpire⟩
    | renewLock key token ttlMs =>
      rw [Slot.call]
      split
      · next hvalid =>
        have htok : token = u.token := by
          rw [hholder] at hvalid
          exact (Option.some_inj.mp hvalid.2).symm
        have httl : ttlMs = u.lockTtlMs := hrenew ttlMs (by rw [htok, show key = _ from hkey])
        refine ⟨_, rfl, htok, ?_⟩
        have hpos := validTtl_pos hvalid.1
        push_cast
        omega
      · exact ⟨e, hlease, htoken, hexpire⟩
    | releaseLock key token =>
      rw [Slot.call, if_neg fun howner => ?_]
      · exact ⟨e, hlease, htoken, hexpire⟩
      · rw [hholder] at howner
        exact hrelease (by rw [Use.releaseLock, Option.some_inj.mp howner, show key = _ from hkey])
    | publishIfOwner key token payload options =>
      rw [Slot.call]
      split
      · exact ⟨e, hlease, htoken, hexpire⟩
      · exact ⟨e, hlease, htoken, hexpire⟩
    | setEncoded key payload options =>
      have hset : Call.setEncoded key payload options ≠ .delete u.storageKey := by
        intro heq
        cases heq
      rw [Slot.call, if_neg fun hvalid => hclear ⟨⟨hkey, hvalid⟩, fun heq => absurd heq hset⟩]
      exact ⟨e, hlease, htoken, hexpire⟩
    | delete key =>
      rw [Slot.call, if_neg fun hindex =>
        hclear ⟨hkey, fun _ => by rwa [show key = _ from hkey] at hindex⟩]
      exact ⟨e, hlease, htoken, hexpire⟩
  · exact ⟨e, hlease, htoken, hexpire⟩

/-- The lease counts from the moment at which the server answers. -/
theorem held_of_lease {db : Db} {now sentAt : ℤ} (hsent : sentAt ≤ now) (hpos : 0 ≤ u.lockTtlMs)
    (hlease : (db.slot u.layout u.storageKey).lease =
      some ⟨u.token, db.now + u.lockTtlMs.toNat⟩) : Held u db now (sentAt + u.lockTtlMs) := by
  refine fun _ => ⟨by omega, _, hlease, rfl, ?_⟩
  push_cast
  omega

theorem held_acquireLock {db : Db} {now sentAt : ℤ} (hsent : sentAt ≤ now)
    (hreply : answer (u.acquireLock.run u.layout db).2 = some true) :
    Held u (u.acquireLock.run u.layout db).1 now (sentAt + u.lockTtlMs) := by
  have hslot : (u.acquireLock.run u.layout db).1.slot u.layout u.storageKey =
      (db.slot u.layout u.storageKey).call u.layout db.now u.acquireLock :=
    slot_run_self u.layout db u.acquireLock
  rw [Use.acquireLock, Slot.call] at hslot
  have hfacts : validTtl u.lockTtlMs = true ∧ (db.slot u.layout u.storageKey).lease = none := by
    rw [Use.acquireLock] at hreply
    simp only [Call.run, Db.setNX] at hreply
    split at hreply
    · next hvalid =>
      split at hreply
      · cases hreply
      · next hno => exact ⟨hvalid, Option.not_isSome_iff_eq_none.mp hno⟩
    · cases hreply
  rw [if_pos hfacts] at hslot
  refine held_of_lease hsent ?_ ?_
  · have hpos := validTtl_pos hfacts.1
    omega
  · rw [now_run, Use.acquireLock, hslot]

theorem held_renewLock {db : Db} {now startedAt : ℤ} (hsent : startedAt ≤ now)
    (hreply : answer (u.renewLock.run u.layout db).2 = some true) :
    Held u (u.renewLock.run u.layout db).1 now (startedAt + u.lockTtlMs) := by
  have hslot : (u.renewLock.run u.layout db).1.slot u.layout u.storageKey =
      (db.slot u.layout u.storageKey).call u.layout db.now u.renewLock :=
    slot_run_self u.layout db u.renewLock
  rw [Use.renewLock, Slot.call] at hslot
  have hfacts : validTtl u.lockTtlMs = true ∧
      (db.slot u.layout u.storageKey).holder = some u.token := by
    rw [Use.renewLock] at hreply
    simp only [Call.run, Db.renewLock] at hreply
    split at hreply
    · next hvalid =>
      split at hreply
      · next howner => exact ⟨hvalid, howner⟩
      · cases hreply
    · cases hreply
  rw [if_pos hfacts] at hslot
  refine held_of_lease hsent ?_ ?_
  · have hpos := validTtl_pos hfacts.1
    omega
  · rw [now_run, Use.renewLock, hslot]

/-! ### The invariant -/

def isRenewal (t : ℕ × Timer) : Bool := t.2 = .renewal

/-- Up to its deadline, and up to what it may still make of it, the load has the lease. -/
structure Inv (u : Use) (w : World) : Prop where
  attempt : ∀ a, w.attempt = some a → w.lease = none ∧ a.sentAt ≤ w.now ∧
    w.now - a.sentAt ≤ w.wall - a.acquiredAt ∧
    (a.answer = some true → Held u w.db w.now (a.sentAt + u.lockTtlMs))
  deadline : ∀ l, w.lease = some l → l.stopped = false → Held u w.db w.now l.deadline
  renewal : w.isStopped = false → ∀ r ∈ w.renewals, r.startedAt ≤ w.now ∧
    (r.answer = some true → Held u w.db w.now (r.startedAt + u.lockTtlMs))
  single : w.renewals.length + w.timers.countP isRenewal ≤ 1
  before : w.lease = none → w.renewals = [] ∧ w.timers = []
  lost : ∀ l, w.lease = some l → l.error = true → l.stopped = true

/-- What does not concern the lease: the clocks and Redis go on, and everything that was
held is. -/
theorem Inv.mono (h : Inv u w) {db : Db} {now wall : ℤ} (hnow : w.now ≤ now)
    (hwall : w.attempt ≠ none → now - w.now ≤ wall - w.wall)
    (hheld : w.isStopped = false → ∀ d, Held u w.db w.now d → Held u db now d) :
    Inv u { w with db := db, now := now, wall := wall } := by
  refine ⟨fun a ha => ?_, fun l hl hstopped => ?_, fun hstopped r hr => ?_, h.single, h.before,
    h.lost⟩
  · obtain ⟨hlease, hsent, helapsed, hanswer⟩ := h.attempt a ha
    have hstopped : w.isStopped = false := by rw [World.isStopped, hlease]; rfl
    have hjump := hwall (fun hnone => by rw [show w.attempt = some a from ha] at hnone; cases hnone)
    exact ⟨hlease, hsent.trans hnow, by show now - _ ≤ wall - _; omega,
      fun ha => hheld hstopped _ (hanswer ha)⟩
  · have hnot : w.isStopped = false := by
      rw [World.isStopped, show w.lease = some l from hl]
      exact hstopped
    exact hheld hnot _ (h.deadline l hl hstopped)
  · obtain ⟨hstarted, hanswer⟩ := h.renewal hstopped r hr
    exact ⟨hstarted.trans hnow, fun ha => hheld hstopped _ (hanswer ha)⟩

theorem inv_tick (h : Inv u w) (ms : ℕ) : Inv u (w.tick ms) :=
  h.mono (by omega) (fun _ => by omega) fun _ _ hheld => hheld.tick ms

theorem inv_call (h : Inv u w) {c : Call} (hclear : ¬ c.Clears u.layout u.storageKey)
    (hrelease : w.isStopped = false → c ≠ u.releaseLock)
    (hrenew : ∀ ttlMs, c = .renewLock u.storageKey u.token ttlMs → ttlMs = u.lockTtlMs) :
    Inv u (w.call u c).1 :=
  h.mono le_rfl (fun _ => by omega) fun hstopped _ hheld =>
    hheld.call hclear (hrelease hstopped) hrenew

theorem inv_clearTimeout (h : Inv u w) (timer : Option ℕ) : Inv u (w.clearTimeout timer) := by
  refine ⟨h.attempt, h.deadline, h.renewal, ?_, fun hnone => ?_, h.lost⟩
  · have hle : (w.timers.filter fun t => decide (some t.1 ≠ timer)).countP isRenewal ≤
        w.timers.countP isRenewal := List.filter_sublist.countP_le
    have hsingle := h.single
    show w.renewals.length +
      (w.timers.filter fun t => decide (some t.1 ≠ timer)).countP isRenewal ≤ 1
    omega
  · obtain ⟨hrenewals, htimers⟩ := h.before hnone
    exact ⟨hrenewals, by rw [World.clearTimeout, htimers]; rfl⟩

/-- A lease that has been stopped says nothing any more. -/
theorem inv_stopped (h : Inv u w) (hl : w.lease = some l) {l' : Lease} (hstopped : l'.stopped = true) :
    Inv u { w with lease := some l' } := by
  have hno : ∀ a, w.attempt ≠ some a := fun a ha => by
    rw [(h.attempt a ha).1] at hl
    cases hl
  have hrunning : ∀ l₁, some l' = some l₁ → l₁.stopped = true := fun l₁ hl₁ => by
    rwa [← Option.some_inj.mp hl₁]
  refine ⟨fun a ha => absurd ha (hno a), fun l₁ hl₁ hnot => ?_, fun hnot => ?_, h.single, nofun,
    fun l₁ hl₁ _ => hrunning l₁ hl₁⟩
  · rw [hrunning l₁ hl₁] at hnot
    cases hnot
  · rw [show World.isStopped { w with lease := some l' } = l'.stopped from rfl, hstopped] at hnot
    cases hnot

theorem inv_stop (h : Inv u w) : Inv u w.stop := by
  rw [World.stop]
  split
  · exact h
  · next l hl => exact inv_clearTimeout (inv_clearTimeout (inv_stopped h hl rfl) _) _

theorem inv_lose (h : Inv u w) : Inv u w.lose := by
  rw [World.lose]
  split
  · exact h
  next l hl =>
  split
  · exact h
  · -- the error is set just before the timers are cleared
    have hlost : ({ l with error := true, stopped := true } : Lease).stopped = true := rfl
    exact inv_clearTimeout (inv_clearTimeout (inv_stopped h hl hlost) _) _

/-- `assertOwned` that returns has changed nothing. -/
theorem assertOwned_eq (h : w.assertOwned.2 = true) : w.assertOwned.1 = w ∧
    ∃ l, w.lease = some l ∧ l.error = false ∧ (l.stopped = false → w.now < l.deadline) := by
  revert h
  rw [World.assertOwned]
  split
  · nofun
  next l hl =>
  split
  · nofun
  · next hexpired =>
    intro herror
    refine ⟨rfl, l, hl, by simpa using herror, fun hstopped => ?_⟩
    exact not_le.mp fun hle => hexpired ⟨hstopped, hle⟩

theorem inv_assertOwned (h : Inv u w) : Inv u w.assertOwned.1 := by
  rw [World.assertOwned]
  split
  · exact h
  · split
    · exact inv_lose h
    · exact h

/-- `schedule`, when no renewal is under way. -/
theorem inv_schedule (h : Inv u w) (hidle : w.renewals.length + w.timers.countP isRenewal = 0) :
    Inv u (w.schedule u) := by
  rw [World.schedule]
  split
  · exact h
  next l hl =>
  have hstopped : w.isStopped = l.stopped := by
    rw [World.isStopped, hl]
    rfl
  have hno : ∀ a, w.attempt ≠ some a := fun a ha => by
    rw [(h.attempt a ha).1] at hl
    cases hl
  have hdeadline := h.deadline l hl
  have hrenewal : l.stopped = false → _ := fun hnot => h.renewal (hstopped.trans hnot)
  have hlost := h.lost l hl
  split
  · refine ⟨fun a ha => absurd ha (hno a), fun l' hl' hnot => ?_, hrenewal, ?_, nofun,
      fun l' hl' herror => ?_⟩
    · rw [← Option.some_inj.mp hl'] at hnot ⊢
      exact hdeadline hnot
    · show w.renewals.length + (w.timers ++ [_, _]).countP isRenewal ≤ 1
      rw [List.countP_append]
      show w.renewals.length + (w.timers.countP isRenewal + 1) ≤ 1
      omega
    · rw [← Option.some_inj.mp hl'] at herror ⊢
      exact hlost herror
  · refine ⟨fun a ha => absurd ha (hno a), fun l' hl' hnot => ?_, hrenewal, ?_, nofun,
      fun l' hl' herror => ?_⟩
    · rw [← Option.some_inj.mp hl'] at hnot ⊢
      exact hdeadline hnot
    · show w.renewals.length + (w.timers ++ [_]).countP isRenewal ≤ 1
      rw [List.countP_append]
      show w.renewals.length + (w.timers.countP isRenewal + 0) ≤ 1
      omega
    · rw [← Option.some_inj.mp hl'] at herror ⊢
      exact hlost herror

/-- The deadline counts from a moment before the request. -/
theorem inv_maintainLock (h : Inv u w) {a : Attempt} (ha : w.attempt = some a)
    (hanswer : a.answer = some true) (pause : ℕ) :
    Inv u (World.maintainLock u { w with attempt := none } a.acquiredAt pause) := by
  obtain ⟨hlease, hsent, helapsed, hheld⟩ := h.attempt a ha
  obtain ⟨hrenewals, htimers⟩ := h.before hlease
  have hheld := (hheld hanswer).tick pause
  refine inv_schedule (w := { World.tick { w with attempt := none } pause with lease := some _ })
    ⟨nofun, fun l hl _ => ?_, fun _ r hr => ?_, ?_, nofun, fun l hl herror => ?_⟩ ?_
  · rw [← Option.some_inj.mp hl]
    show Held u (w.db.advance pause) (w.now + pause)
      (w.now + max 0 (u.lockTtlMs - max 0 (w.wall + pause - a.acquiredAt)))
    by_cases hlate : u.lockTtlMs ≤ max 0 (w.wall + pause - a.acquiredAt)
    · -- the answer came after the TTL had passed: the deadline is over
      intro hlt
      omega
    · exact hheld.anti (by omega)
  · rw [show w.renewals = [] from hrenewals] at hr
    cases hr
  · show w.renewals.length + w.timers.countP isRenewal ≤ 1
    exact h.single
  · rw [← Option.some_inj.mp hl] at herror
    cases herror
  · show w.renewals.length + w.timers.countP isRenewal = 0
    rw [hrenewals, htimers]
    rfl

/-! ### Renewals -/

theorem inv_deadline (h : Inv u w) (hl : w.lease = some l)
    (hheld : l.stopped = false → Held u w.db w.now d) :
    Inv u { w with lease := some { l with deadline := d } } := by
  have hno : ∀ a, w.attempt ≠ some a := fun a ha => by
    rw [(h.attempt a ha).1] at hl
    cases hl
  have hstopped : w.isStopped = l.stopped := by
    rw [World.isStopped, hl]
    rfl
  refine ⟨fun a ha => absurd ha (hno a), fun l' hl' hnot => ?_,
    fun hnot => h.renewal (hstopped.trans hnot), h.single, nofun, fun l' hl' herror => ?_⟩
  · rw [← Option.some_inj.mp hl'] at hnot ⊢
    exact hheld hnot
  · rw [← Option.some_inj.mp hl'] at herror ⊢
    exact h.lost l hl herror

/-- The renewals that are under way may be forgotten, or learn what Redis has granted. -/
theorem inv_renewals (h : Inv u w) {renewals : List Renewal}
    (hlen : renewals.length ≤ w.renewals.length)
    (hmem : w.isStopped = false → ∀ r ∈ renewals, r ∈ w.renewals ∨ r.startedAt ≤ w.now ∧
      (r.answer = some true → Held u w.db w.now (r.startedAt + u.lockTtlMs))) :
    Inv u { w with renewals := renewals } := by
  refine ⟨h.attempt, h.deadline, fun hnot r hr => ?_, ?_, fun hnone => ?_, h.lost⟩
  · rcases hmem hnot r hr with hold | hnew
    · exact h.renewal hnot r hold
    · exact hnew
  · have hsingle := h.single
    show renewals.length + w.timers.countP isRenewal ≤ 1
    omega
  · obtain ⟨hrenewals, htimers⟩ := h.before hnone
    rw [hrenewals, List.length_nil, Nat.le_zero, List.length_eq_zero_iff] at hlen
    exact ⟨hlen, htimers⟩

/-- What an acknowledgement is worth depends on when the renewal was started. -/
theorem inv_resume (h : Inv u w) {startedAt : ℤ} {renewed : Option Bool}
    (hidle : renewed = some true → w.renewals.length + w.timers.countP isRenewal = 0)
    (hheld : renewed = some true → w.isStopped = false →
      Held u w.db w.now (startedAt + u.lockTtlMs)) :
    Inv u (w.resume u startedAt renewed) := by
  rw [World.resume.eq_def]
  split
  · exact h
  · exact inv_lose h
  next l renewed hl =>
  split
  · exact h
  dsimp only
  split
  · next hok =>
    obtain rfl : renewed = true := hok.2
    have hheld : l.stopped = false → Held u w.db w.now (startedAt + u.lockTtlMs) := fun hnot =>
      hheld rfl (by rw [World.isStopped, hl]; exact hnot)
    refine inv_schedule (inv_clearTimeout (inv_deadline h hl hheld) _) ?_
    have hle : (w.timers.filter fun t => decide (some t.1 ≠ l.expiryTimer)).countP isRenewal ≤
        w.timers.countP isRenewal := List.filter_sublist.countP_le
    have hidle := hidle rfl
    show w.renewals.length +
      (w.timers.filter fun t => decide (some t.1 ≠ l.expiryTimer)).countP isRenewal = 0
    omega
  · exact inv_lose (inv_assertOwned h)

/-- The renewal timer that fires was the only one, and no renewal was under way. -/
theorem idle_of_fired (h : Inv u w) {timer : ℕ} {t : ℕ × Timer}
    (hfind : w.timers.find? (fun t => t.1 = timer) = some t) (ht : isRenewal t = true) :
    w.renewals = [] ∧ (w.clearTimeout (some timer)).timers.countP isRenewal = 0 := by
  have hmem := List.mem_of_find?_eq_some hfind
  have hid : t.1 = timer := by simpa using List.find?_some hfind
  have hparts := List.countP_eq_countP_filter_add w.timers isRenewal
    fun t => decide (some t.1 ≠ some timer)
  have hgone : 0 < (w.timers.filter fun t => !decide (some t.1 ≠ some timer)).countP isRenewal := by
    refine List.countP_pos_iff.mpr ⟨t, List.mem_filter.mpr ⟨hmem, ?_⟩, ht⟩
    simp [hid]
  have hsingle := h.single
  refine ⟨List.length_eq_zero_iff.mp (by omega), ?_⟩
  show (w.timers.filter fun t => decide (some t.1 ≠ some timer)).countP isRenewal = 0
  omega

theorem inv_renewalCallback (h : Inv u w) (hrenewals : w.renewals = [])
    (htimers : w.timers.countP isRenewal = 0) (pause : ℕ) : Inv u (w.renewalCallback pause) := by
  have htick := inv_tick h pause
  rw [World.renewalCallback]
  dsimp only
  split
  · next hok =>
    obtain ⟨heq, l, hl, -⟩ := assertOwned_eq hok
    rw [heq]
    refine ⟨htick.attempt, htick.deadline, fun _ r hr => ?_, ?_, fun hnone => ?_, htick.lost⟩
    · rw [show (w.tick pause).renewals = [] from hrenewals, List.nil_append,
        List.mem_singleton] at hr
      rw [hr]
      refine ⟨?_, nofun⟩
      show w.now ≤ w.now + pause
      omega
    · show (w.renewals ++ [_]).length + w.timers.countP isRenewal ≤ 1
      rw [hrenewals, htimers]
      rfl
    · rw [show (w.tick pause).lease = none from hnone] at hl
      cases hl
  · exact inv_lose (inv_assertOwned htick)

/-! ### Steps -/

theorem inv_init (u : Use) (db : Db) (now wall : ℤ) : Inv u (World.init db now wall) :=
  ⟨nofun, nofun, fun _ => nofun, Nat.zero_le _, fun _ => ⟨rfl, rfl⟩, nofun⟩

theorem inv_attempt (h : Inv u w) {attempt : Option Attempt}
    (hattempt : ∀ a, attempt = some a → w.lease = none ∧ a.sentAt ≤ w.now ∧
      w.now - a.sentAt ≤ w.wall - a.acquiredAt ∧
      (a.answer = some true → Held u w.db w.now (a.sentAt + u.lockTtlMs))) :
    Inv u { w with attempt := attempt } :=
  ⟨hattempt, h.deadline, h.renewal, h.single, h.before, h.lost⟩

theorem inv_acquireLock (h : Inv u w) : Inv u (w.call u u.acquireLock).1 :=
  inv_call h (nofun) (fun _ => nofun) fun _ => nofun

theorem inv_serveAcquire (h : Inv u w) : Inv u (w.step u .serveAcquire) := by
  rw [World.step]
  split
  · next acquiredAt sentAt ha =>
    obtain ⟨hlease, hsent, helapsed, -⟩ := h.attempt _ ha
    refine inv_attempt (inv_acquireLock h) fun a ha => ?_
    rw [← Option.some_inj.mp ha]
    exact ⟨hlease, hsent, helapsed, held_acquireLock hsent⟩
  · exact h

theorem inv_acquired (h : Inv u w) (pause : ℕ) : Inv u (w.step u (.acquired pause)) := by
  rw [World.step]
  split
  · next ha => exact inv_maintainLock h ha rfl pause
  · exact inv_attempt h nofun
  · exact h

theorem inv_fire (h : Inv u w) (timer pause : ℕ) : Inv u (w.step u (.fire timer pause)) := by
  rw [World.step]
  split
  · exact h
  · exact inv_lose (inv_clearTimeout h _)
  · next hfind =>
    obtain ⟨hrenewals, htimers⟩ := idle_of_fired h hfind rfl
    exact inv_renewalCallback (inv_clearTimeout h _) hrenewals htimers pause

theorem inv_serveRenew (h : Inv u w) (k : ℕ) : Inv u (w.step u (.serveRenew k)) := by
  have hcall : Inv u (w.call u u.renewLock).1 :=
    inv_call h (nofun) (fun _ => nofun) fun ttlMs heq => by cases heq; rfl
  rw [World.step]
  split
  case h_2 => exact h
  next startedAt awaited hk =>
  dsimp only
  split
  · refine inv_renewals hcall (by rw [List.length_set]; exact le_rfl) fun hnot r hr => ?_
    rcases List.mem_or_eq_of_mem_set hr with hold | hnew
    · exact .inl hold
    · obtain ⟨hstarted, -⟩ := h.renewal hnot _ (List.mem_of_getElem? hk)
      rw [hnew]
      exact .inr ⟨hstarted, held_renewLock hstarted⟩
  · exact inv_renewals hcall (List.length_eraseIdx_le _ _) fun _ r hr =>
      .inl (List.mem_of_mem_eraseIdx hr)

theorem inv_renewed (h : Inv u w) (k : ℕ) : Inv u (w.step u (.renewed k)) := by
  rw [World.step]
  split
  case h_2 => exact h
  next startedAt renewed hk =>
  have hlen : k < w.renewals.length := (List.getElem?_eq_some_iff.mp hk).1
  have hrest : Inv u { w with renewals := w.renewals.eraseIdx k } :=
    inv_renewals h (List.length_eraseIdx_le _ _) fun _ r hr => .inl (List.mem_of_mem_eraseIdx hr)
  refine inv_resume hrest (fun _ => ?_) fun hrenewed hnot => ?_
  · -- the renewal was the only thing under way
    have hsingle := h.single
    show (w.renewals.eraseIdx k).length + w.timers.countP isRenewal = 0
    rw [List.length_eraseIdx_of_lt hlen]
    omega
  · exact (h.renewal hnot _ (List.mem_of_getElem? hk)).2 hrenewed

theorem inv_renewFailed (h : Inv u w) (k : ℕ) (throws : Bool) :
    Inv u (w.step u (.renewFailed k throws)) := by
  rw [World.step]
  split
  case h_2 => exact h
  next startedAt answer hk =>
  refine inv_resume (inv_renewals h ?_ fun hnot r hr => ?_) (fun hrenewed => ?_)
    fun hrenewed => ?_
  · split
    · exact (List.length_set ..).le
    · exact List.length_eraseIdx_le _ _
  · split at hr
    · rcases List.mem_or_eq_of_mem_set hr with hold | hnew
      · exact .inl hold
      · rw [hnew]
        exact .inr ⟨(h.renewal hnot _ (List.mem_of_getElem? hk)).1, nofun⟩
    · exact .inl (List.mem_of_mem_eraseIdx hr)
  · split at hrenewed
    · cases hrenewed
    · cases hrenewed
  · split at hrenewed
    · cases hrenewed
    · cases hrenewed

theorem inv_step (h : Inv u w) (e : Event u) : Inv u (w.step u e) := by
  cases e with
  | tick ms => exact inv_tick h ms
  | wallJump ms =>
    rw [World.step]
    split
    · exact h
    · next hforward =>
      refine h.mono le_rfl (fun hattempt => ?_) fun _ _ hheld => hheld
      have hsome := Option.isSome_iff_ne_none.mpr hattempt
      by_contra hback
      exact hforward ⟨hsome, by omega⟩
  | call c hc => exact inv_call h hc.1 (fun _ => hc.2.1) fun ttlMs heq => absurd heq (hc.2.2 ttlMs)
  | acquire =>
    rw [World.step]
    split
    · next hfree =>
      refine inv_attempt h fun a ha => ?_
      rw [← Option.some_inj.mp ha]
      exact ⟨Option.isNone_iff_eq_none.mp hfree.2, le_rfl,
        (sub_self w.now).trans_le (sub_self w.wall).ge, nofun⟩
    · exact h
  | serveAcquire => exact inv_serveAcquire h
  | acquired pause => exact inv_acquired h pause
  | acquireFailed => exact inv_attempt h nofun
  | lateAcquire => exact inv_acquireLock h
  | fire timer pause => exact inv_fire h timer pause
  | serveRenew k => exact inv_serveRenew h k
  | renewed k => exact inv_renewed h k
  | renewFailed k throws => exact inv_renewFailed h k throws
  | assertOwned => exact inv_assertOwned h
  | stop => exact inv_stop h
  | release =>
    rw [World.step]
    split
    · next hstopped =>
      exact inv_call h (nofun) (fun hnot => by rw [hstopped] at hnot; cases hnot) fun _ => nofun
    · exact h

/-! ### After a loss -/

theorem lose_of_stopped (hl : w.lease = some l) (hstopped : l.stopped = true) : w.lose = w := by
  rw [World.lose, hl]
  exact if_pos hstopped

theorem assertOwned_of_stopped (hl : w.lease = some l) (hstopped : l.stopped = true) :
    w.assertOwned = (w, !l.error) := by
  rw [World.assertOwned, hl]
  exact if_neg fun hrunning => by rw [hstopped] at hrunning; exact nomatch hrunning.1

theorem resume_of_stopped (hl : w.lease = some l) (hstopped : l.stopped = true) (startedAt : ℤ)
    (renewed : Option Bool) : (w.resume u startedAt renewed).lease = some l := by
  rw [World.resume.eq_def, hl]
  cases renewed with
  | none =>
    dsimp only
    rw [lose_of_stopped hl hstopped]
    exact hl
  | some renewed =>
    dsimp only
    rw [if_pos hstopped]
    exact hl

/-- Once stopped, a lease never changes. -/
theorem lease_step (h : Inv u w) (hl : w.lease = some l) (hstopped : l.stopped = true)
    (e : Event u) : (w.step u e).lease = some l := by
  have hno : w.attempt = none := by
    refine Option.eq_none_iff_forall_ne_some.mpr fun a ha => ?_
    rw [(h.attempt a ha).1] at hl
    cases hl
  cases e with
  | tick ms => exact hl
  | wallJump ms =>
    rw [World.step]
    split
    · exact hl
    · exact hl
  | call c hc => exact hl
  | acquire =>
    rw [World.step, if_neg fun hfree => by rw [hl] at hfree; exact nomatch hfree.2]
    exact hl
  | serveAcquire =>
    rw [World.step, hno]
    exact hl
  | acquired pause =>
    rw [World.step, hno]
    exact hl
  | acquireFailed => exact hl
  | lateAcquire => exact hl
  | fire timer pause =>
    rw [World.step]
    have hcleared : (w.clearTimeout (some timer)).lease = some l := hl
    split
    · exact hl
    · rw [lose_of_stopped hcleared hstopped]
      exact hcleared
    · have htick : ((w.clearTimeout (some timer)).tick pause).lease = some l := hl
      rw [World.renewalCallback, assertOwned_of_stopped htick hstopped]
      dsimp only
      split
      · exact htick
      · rw [lose_of_stopped htick hstopped]
        exact htick
  | serveRenew k =>
    rw [World.step]
    split
    · dsimp only
      split
      · exact hl
      · exact hl
    · exact hl
  | renewed k =>
    rw [World.step]
    split
    · refine resume_of_stopped ?_ hstopped _ _
      exact hl
    · exact hl
  | renewFailed k throws =>
    rw [World.step]
    split
    · refine resume_of_stopped ?_ hstopped _ _
      exact hl
    · exact hl
  | assertOwned =>
    rw [World.step, assertOwned_of_stopped hl hstopped]
    exact hl
  | stop =>
    rw [World.step, World.stop, hl]
    show some { l with stopped := true } = some l
    rw [← hstopped]
  | release =>
    rw [World.step]
    split
    · exact hl
    · exact hl

/-- `assertOwned` that throws has recorded the loss. -/
theorem lost_of_assertOwned (hl : w.lease = some l) (hthrow : w.assertOwned.2 = false) :
    ∃ l', w.assertOwned.1.lease = some l' ∧ l'.error = true := by
  revert hthrow
  rw [World.assertOwned, hl]
  dsimp only
  split
  · next hexpired =>
    refine fun _ => ⟨{ l with error := true, stopped := true }, ?_, rfl⟩
    rw [World.lose, hl]
    show (if l.stopped = true then w else _).lease = _
    rw [if_neg fun hstopped => by rw [hexpired.1] at hstopped; cases hstopped]
    rfl
  · intro hthrow
    exact ⟨l, hl, by simpa using hthrow⟩

/-! ### Runs -/

section

variable (u : Use) (db : Db) (now wall : ℤ) (events : List (Event u))

/-- The world before the `n`-th event. -/
def world (n : ℕ) : World := stateAt (World.step u) (World.init db now wall) events n

theorem inv_world (n : ℕ) : Inv u (world u db now wall events n) :=
  invariant (inv_init u db now wall) (fun _ e h => inv_step h e) n

/-- A loss is never forgotten. -/
theorem lost_world {m n : ℕ} (hmn : m ≤ n) {l : Lease}
    (hl : (world u db now wall events m).lease = some l) (herror : l.error = true) :
    (world u db now wall events n).lease = some l := by
  have hstopped : l.stopped = true := (inv_world u db now wall events m).lost l hl herror
  have hall := invariant_from (P := fun w => Inv u w ∧ w.lease = some l)
    ⟨inv_world u db now wall events m, hl⟩
    (fun _ e _ _ hw => ⟨inv_step hw.1 e, lease_step hw.1 hw.2 hstopped e⟩) n hmn
  exact hall.2

/-- **Local ownership is conservative.**  Whenever `assertOwned` returns and the lease has not
been stopped, the deadline is ahead and Redis keeps the lease of this very load at least up to it;
after a loss, whether reported to the signal or by a throw, `assertOwned` never returns; and
at most one renewal is outstanding. -/
theorem ownership_contract (n : ℕ) :
    (∀ l, (world u db now wall events n).lease = some l → l.stopped = false →
      (world u db now wall events n).assertOwned.2 = true →
      (world u db now wall events n).now < l.deadline ∧
      ∃ e, ((world u db now wall events n).db.slot u.layout u.storageKey).lease = some e ∧
        e.value = u.token ∧
        l.deadline - (world u db now wall events n).now ≤
          e.expireAt - (world u db now wall events n).db.now) ∧
    (∀ m ≤ n, ∀ l, (world u db now wall events m).lease = some l → l.error = true →
      (world u db now wall events n).assertOwned.2 = false) ∧
    (∀ m < n, events[m]? = some .assertOwned → (world u db now wall events m).lease ≠ none →
      (world u db now wall events m).assertOwned.2 = false →
      (world u db now wall events n).assertOwned.2 = false) ∧
    (world u db now wall events n).renewals.length ≤ 1 := by
  have hlost : ∀ m ≤ n, ∀ l, (world u db now wall events m).lease = some l → l.error = true →
      (world u db now wall events n).assertOwned.2 = false := by
    intro m hmn l hl herror
    have hstopped := (inv_world u db now wall events m).lost l hl herror
    rw [assertOwned_of_stopped (lost_world u db now wall events hmn hl herror) hstopped, herror]
    rfl
  refine ⟨fun l hl hstopped hreturns => ?_, hlost, fun m hmn hevent hlease hthrow => ?_, ?_⟩
  · obtain ⟨-, l', hl', -, hahead⟩ := assertOwned_eq hreturns
    rw [hl, Option.some_inj] at hl'
    have hnow := hahead (by rw [← hl']; exact hstopped)
    rw [← hl'] at hnow
    exact ⟨hnow, ((inv_world u db now wall events n).deadline l hl hstopped hnow).2⟩
  · obtain ⟨l, hl⟩ := Option.ne_none_iff_exists'.mp hlease
    obtain ⟨l', hl', herror⟩ := lost_of_assertOwned hl hthrow
    refine hlost (m + 1) hmn l' ?_ herror
    rw [world, stateAt_succ hevent]
    exact hl'
  · have hsingle := (inv_world u db now wall events n).single
    omega

end

end DistributedLock
