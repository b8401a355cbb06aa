/-
Any number of loads of one entry, in any number of processes.

Each load is the `World` of `LockOwnership`, with its own token, its own lock TTL and its own
clocks; all of them talk to one Redis, and other clients may call whatever does not fence the
entry.  The loads step in any order.

* `World.effects` — what a step of a load does to time and to Redis;
* `db_step` — a step changes Redis by its effects alone;
* `lock_exclusive` — all loads see one Redis; a load that owns the lock by its own count holds
  the lease in Redis up to its deadline, and what others publish is refused; no two loads own it
  at one moment.
-/
import LazyLayers.LockOwnership
import LazyLayers.RelyGuarantee

open Runs RedisStore RelyGuarantee

namespace DistributedLock

/-! ### What the others notice of a step -/

/-- Time passes, or a call reaches Redis. -/
inductive Op
  | tick (ms : ℕ)
  | call (c : Call)

variable {u : Use}

def World.absorb (u : Use) (w : World) : Op → World
  | .tick ms => w.tick ms
  | .call c => (w.call u c).1

/-- What a step does to time and to Redis, in order. -/
def World.effects (w : World) : Event u → List Op
  | .tick ms => [.tick ms]
  | .call c _ => [.call c]
  | .serveAcquire =>
    match w.attempt with
    | some ⟨_, _, none⟩ => [.call u.acquireLock]
    | _ => []
  | .acquired pause =>
    match w.attempt with
    | some ⟨_, _, some true⟩ => [.tick pause]
    | _ => []
  | .lateAcquire => [.call u.acquireLock]
  | .fire timer pause =>
    match w.timers.find? fun t => t.1 = timer with
    | some (_, .renewal) => [.tick pause]
    | _ => []
  | .serveRenew k =>
    match w.renewals[k]? with
    | some ⟨_, none, _⟩ => [.call u.renewLock]
    | _ => []
  | .release => if w.isStopped then [.call u.releaseLock] else []
  | .wallJump _ | .acquire | .acquireFailed | .renewed _ | .renewFailed _ _ | .assertOwned
  | .stop => []

/-- What an operation makes of Redis. -/
def Op.run (N : Layout) (db : Db) : Op → Db
  | .tick ms => db.advance ms
  | .call c => (c.run N db).1

theorem db_absorb (w : World) (o : Op) : (w.absorb u o).db = o.run u.layout w.db := by
  cases o with
  | tick ms => rfl
  | call c => rfl

/-! The lease by itself: Redis is not touched. -/

theorem db_stop (w : World) : w.stop.db = w.db := by
  rw [World.stop]
  split
  · rfl
  · rfl

theorem db_lose (w : World) : w.lose.db = w.db := by
  rw [World.lose]
  split
  · rfl
  · split
    · rfl
    · exact db_stop _

theorem db_assertOwned (w : World) : w.assertOwned.1.db = w.db := by
  rw [World.assertOwned]
  split
  · rfl
  · split
    · exact db_lose w
    · rfl

theorem db_schedule (w : World) : (w.schedule u).db = w.db := by
  rw [World.schedule]
  split
  · rfl
  · split
    · rfl
    · rfl

theorem db_resume (w : World) (startedAt : ℤ) (renewed : Option Bool) :
    (w.resume u startedAt renewed).db = w.db := by
  rw [World.resume.eq_def]
  split
  · rfl
  · exact db_lose w
  · split
    · rfl
    · dsimp only
      split
      · exact db_schedule _
      · exact (db_lose _).trans (db_assertOwned w)

theorem db_renewalCallback (w : World) (pause : ℕ) :
    (w.renewalCallback pause).db = w.db.advance pause := by
  have hasserted : (w.tick pause).assertOwned.1.db = w.db.advance pause := db_assertOwned _
  rw [World.renewalCallback]
  dsimp only
  split
  · exact hasserted
  · exact (db_lose _).trans hasserted

/-- Nothing but its effects changes Redis in a step. -/
theorem db_step (w : World) (e : Event u) :
    (w.step u e).db = (w.effects e).foldl (Op.run u.layout) w.db := by
  rw [World.step.eq_def, World.effects.eq_def]
  cases e with
  | tick ms => rfl
  | wallJump ms =>
    dsimp only
    split
    · rfl
    · rfl
  | call c hc => rfl
  | acquire =>
    dsimp only
    split
    · rfl
    · rfl
  | serveAcquire =>
    rcases w.attempt with _ | ⟨acquiredAt, sentAt, _ | served⟩
    · rfl
    · rfl
    · rfl
  | acquired pause =>
    rcases w.attempt with _ | ⟨acquiredAt, sentAt, _ | _ | _⟩
    · rfl
    · rfl
    · rfl
    · -- the deadline is computed, and the first timers are armed
      exact db_schedule _
  | acquireFailed => rfl
  | lateAcquire => rfl
  | fire timer pause =>
    dsimp only
    cases hfind : w.timers.find? fun t => t.1 = timer with
    | none => rfl
    | some t =>
      obtain ⟨id, kind⟩ := t
      cases kind with
      | expiry => exact db_lose _
      | renewal => exact db_renewalCallback _ pause
  | serveRenew k =>
    dsimp only
    rcases w.renewals[k]? with _ | ⟨startedAt, _ | served, _ | _⟩
    · rfl
    · rfl
    · rfl
    · rfl
    · rfl
  | renewed k =>
    dsimp only
    split
    · exact db_resume _ _ _
    · rfl
  | renewFailed k throws =>
    dsimp only
    split
    · exact db_resume _ _ _
    · rfl
  | assertOwned => exact db_assertOwned w
  | stop => exact db_stop w
  | release =>
    dsimp only
    split
    · rfl
    · rfl

/-- A load sends calls with its own token only, beside those that an event names. -/
theorem call_of_effects {w : World} {e : Event u} {c : Call} (h : .call c ∈ w.effects e) :
    (∃ hc, e = .call c hc) ∨ c = u.acquireLock ∨ c = u.renewLock ∨ c = u.releaseLock := by
  rw [World.effects.eq_def] at h
  cases e with
  | tick ms => simp at h
  | wallJump ms => simp at h
  | call c' hc =>
    rw [List.mem_singleton, Op.call.injEq] at h
    subst h
    exact .inl ⟨hc, rfl⟩
  | acquire => simp at h
  | serveAcquire =>
    dsimp only at h
    split at h
    · rw [List.mem_singleton, Op.call.injEq] at h
      exact .inr (.inl h)
    · simp at h
  | acquired pause =>
    dsimp only at h
    split at h
    · simp at h
    · simp at h
  | acquireFailed => simp at h
  | lateAcquire =>
    rw [List.mem_singleton, Op.call.injEq] at h
    exact .inr (.inl h)
  | fire timer pause =>
    dsimp only at h
    split at h
    · simp at h
    · simp at h
  | serveRenew k =>
    dsimp only at h
    split at h
    · rw [List.mem_singleton, Op.call.injEq] at h
      exact .inr (.inr (.inl h))
    · simp at h
  | renewed k => simp at h
  | renewFailed k throws => simp at h
  | assertOwned => simp at h
  | stop => simp at h
  | release =>
    dsimp only at h
    split at h
    · rw [List.mem_singleton, Op.call.injEq] at h
      exact .inr (.inr (.inr h))
    · simp at h

/-! ### The loads together -/

/-- Loads of one entry with their own tokens; no clock need agree with another. -/
structure Fleet (ι : Type*) where
  layout : Layout
  storageKey : JsString
  token : ι → Octets
  lockTtlMs : ι → ℤ
  canRenew : ι → Bool
  db : Db
  now : ι → ℤ
  wall : ι → ℤ
  distinct : ∀ i j, i ≠ j → token i ≠ token j

namespace Fleet

variable {ι : Type*} (F : Fleet ι)

def use (i : ι) : Use := ⟨F.layout, F.storageKey, F.token i, F.lockTtlMs i, F.canRenew i⟩

def party (i : ι) : Party World (Event (F.use i)) Op where
  step := World.step (F.use i)
  effects := World.effects
  absorb := World.absorb (F.use i)

def start (i : ι) : World := World.init F.db (F.now i) (F.wall i)

/-- The other clients do not fence the entry, and know nobody's token. -/
def Allowed (i : ι) (e : Event (F.use i)) : Prop :=
  ∀ c hc, e = .call c hc → ∀ k, Permitted (F.use k) c

variable {F}

theorem sound_party : Sound (S := fun _ => World) F.party (fun i w => Inv (F.use i) w) F.Allowed
    (fun i o => ∀ c, o = .call c → Permitted (F.use i) c) where
  step := fun i w e _ h => inv_step h e
  absorb := by
    intro i w o ho h
    cases o with
    | tick ms => exact inv_tick h ms
    | call c => exact inv_step h (.call c (ho c rfl))
  guarantee := by
    rintro j w e he - o ho i hij c rfl
    have htoken : F.token j ≠ F.token i := F.distinct j i (Ne.symm hij)
    rcases call_of_effects ho with ⟨hc, rfl⟩ | rfl | rfl | rfl
    · exact he c hc rfl i
    · exact ⟨nofun, nofun, fun _ => nofun⟩
    · refine ⟨nofun, nofun, fun ttlMs heq => ?_⟩
      exact htoken (Call.renewLock.inj heq).2.1
    · refine ⟨nofun, fun heq => ?_, fun _ => nofun⟩
      exact htoken (Call.releaseLock.inj heq).2

theorem views_party :
    Views (S := fun _ => World) F.party (fun _ w => w.db) (Op.run F.layout) where
  step := fun _ w e => db_step w e
  absorb := fun _ w o => db_absorb w o

variable (F) (acts : List (Σ i, Event (F.use i))) [DecidableEq ι]

/-- The loads before the `n`-th event. -/
def world (n : ℕ) : ι → World := stateAt (joint (S := fun _ => World) F.party) F.start acts n

/-- What has happened to time and to Redis before the `n`-th event. -/
def ops (n : ℕ) : List Op := history (S := fun _ => World) F.party F.start acts n

end Fleet

/-- The load has the lock by its own count: it has not stopped, and `assertOwned` returns. -/
def Owns (w : World) (l : Lease) : Prop :=
  w.lease = some l ∧ l.stopped = false ∧ w.assertOwned.2 = true

theorem holds_of_owns {u : Use} {w : World} {l : Lease} (h : Inv u w) (howns : Owns w l) :
    w.now < l.deadline ∧ ∃ e, (w.db.slot u.layout u.storageKey).lease = some e ∧
      e.value = u.token ∧ l.deadline - w.now ≤ e.expireAt - w.db.now := by
  obtain ⟨hl, hstopped, hreturns⟩ := howns
  obtain ⟨-, l', hl', -, hahead⟩ := assertOwned_eq hreturns
  rw [hl, Option.some_inj] at hl'
  subst hl'
  have hnow := hahead hstopped
  exact ⟨hnow, (h.deadline l hl hstopped hnow).2⟩

/-- **One load at a time has the lock.**

In every run of any number of loads with their own tokens, in any order, while nobody fences
the entry: all loads see one Redis, that which the calls and the passing of time, in their
order, make of the first one; a load that owns the lock by its own count holds the lease in
Redis, up to its deadline at least, and Redis refuses what is published under any other token;
and no two loads own the lock at one moment. -/
theorem lock_exclusive {ι : Type*} [DecidableEq ι] (F : Fleet ι)
    (acts : List (Σ i, Event (F.use i))) (hacts : ∀ a ∈ acts, F.Allowed a.1 a.2) (n : ℕ) :
    (∀ i, (F.world acts n i).db = (F.ops acts n).foldl (Op.run F.layout) F.db) ∧
    (∀ i l, Owns (F.world acts n i) l →
      (F.world acts n i).now < l.deadline ∧
      (∃ e, ((F.world acts n i).db.slot F.layout F.storageKey).lease = some e ∧
        e.value = F.token i ∧
        l.deadline - (F.world acts n i).now ≤ e.expireAt - (F.world acts n i).db.now) ∧
      ∀ token payload options, token ≠ F.token i →
        let publish : Call := .publishIfOwner F.storageKey token payload options
        (publish.run F.layout (F.world acts n i).db).1 = (F.world acts n i).db ∧
        (publish.run F.layout (F.world acts n i).db).2 ≠ .published) ∧
    (∀ i j, i ≠ j → ∀ l l', Owns (F.world acts n i) l → ¬ Owns (F.world acts n j) l') := by
  have hdb : ∀ i, (F.world acts n i).db = (F.ops acts n).foldl (Op.run F.layout) F.db :=
    Fleet.views_party.eq_foldl (fun _ => rfl) n
  have hinv : ∀ i, Inv (F.use i) (F.world acts n i) :=
    Fleet.sound_party.invariant (fun i => inv_init _ _ _ _) hacts n
  refine ⟨hdb, fun i l howns => ?_, fun i j hij l l' hi hj => ?_⟩
  · obtain ⟨hnow, e, hlease, hvalue, hexpire⟩ := holds_of_owns (hinv i) howns
    refine ⟨hnow, ⟨e, hlease, hvalue, hexpire⟩, fun token payload options hne => ?_⟩
    have hrefused : ((Call.publishIfOwner F.storageKey token payload options).run F.layout
        (F.world acts n i).db).2 ≠ .published := by
      rw [Ne, run_publishIfOwner]
      rintro ⟨-, -, hholder⟩
      have hlease' : ((F.world acts n i).db.slot F.layout F.storageKey).lease = some e := hlease
      rw [Slot.holder, hlease', Option.map_some, hvalue, Option.some_inj] at hholder
      exact hne hholder.symm
    exact ⟨run_publishIfOwner_of_ne hrefused, hrefused⟩
  · -- one lease cannot carry two tokens
    obtain ⟨-, e, hlease, hvalue, -⟩ := holds_of_owns (hinv i) hi
    obtain ⟨-, e', hlease', hvalue', -⟩ := holds_of_owns (hinv j) hj
    have hsame : (F.world acts n i).db = (F.world acts n j).db := (hdb i).trans (hdb j).symm
    have hlease₂ : ((F.world acts n j).db.slot F.layout F.storageKey).lease = some e :=
      hsame ▸ hlease
    have he : e' = e := Option.some_inj.mp (hlease'.symm.trans hlease₂)
    rw [he] at hvalue'
    exact F.distinct i j hij (hvalue.symm.trans hvalue')

def sampleFleet : Fleet Bool where
  layout := sampleLayout
  storageKey := Js.str "seat"
  token := fun second => if second then [2] else [1]
  lockTtlMs := fun _ => 1000
  canRenew := fun _ => true
  db := ⟨0, fun _ => none⟩
  now := fun second => if second then 700 else 0
  wall := fun _ => 50
  distinct := by decide

/-- The second load takes the lock once the first one has released it. -/
def handoverRun : List (Σ i, Event (sampleFleet.use i)) :=
  [⟨false, .acquire⟩, ⟨false, .serveAcquire⟩, ⟨false, .acquired 0⟩, ⟨false, .stop⟩,
    ⟨false, .release⟩, ⟨true, .acquire⟩, ⟨true, .serveAcquire⟩, ⟨true, .acquired 0⟩]

theorem owns_of_map {w : World} (h : w.lease.map (fun l => (l.stopped, w.assertOwned.2)) =
    some (false, true)) : ∃ l, Owns w l := by
  obtain ⟨l, hl, hfields⟩ := Option.map_eq_some_iff.mp h
  obtain ⟨hstopped, hreturns⟩ := Prod.mk.inj hfields
  exact ⟨l, hl, hstopped, hreturns⟩

theorem lock_exclusive_handover :
    (∃ l, Owns (sampleFleet.world handoverRun 3 false) l ∧
      ∀ l', ¬ Owns (sampleFleet.world handoverRun 3 true) l') ∧
    (∃ l, Owns (sampleFleet.world handoverRun 8 true) l ∧
      ∀ l', ¬ Owns (sampleFleet.world handoverRun 8 false) l') := by
  have hacts : ∀ a ∈ handoverRun, sampleFleet.Allowed a.1 a.2 := by
    intro a ha c hc heq
    simp only [handoverRun, List.mem_cons, List.not_mem_nil, or_false] at ha
    rcases ha with rfl | rfl | rfl | rfl | rfl | rfl | rfl | rfl <;> cases heq
  obtain ⟨l, hl⟩ : ∃ l, Owns (sampleFleet.world handoverRun 3 false) l :=
    owns_of_map (by decide +kernel)
  obtain ⟨l', hl'⟩ : ∃ l, Owns (sampleFleet.world handoverRun 8 true) l :=
    owns_of_map (by decide +kernel)
  refine ⟨⟨l, hl, fun l₂ => ?_⟩, ⟨l', hl', fun l₂ => ?_⟩⟩
  · exact (lock_exclusive sampleFleet handoverRun hacts 3).2.2 false true (by decide) l l₂ hl
  · exact (lock_exclusive sampleFleet handoverRun hacts 8).2.2 true false (by decide) l' l₂ hl'

end DistributedLock
