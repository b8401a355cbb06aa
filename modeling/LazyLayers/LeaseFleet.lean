/-
Any number of workers compete for one operation key.

Each worker is a controller with its own clock and its own owner token (`LeaseController`);
all of them talk to one Redis, and other clients may send whatever they like for other owners.
The workers step in any order, each at any pace.

* `World.effects` — what a step does to the clocks and to Redis;
* `shared_step` — a step changes them by its effects alone;
* `Accounts` — the last expiry that was recorded for the owner has passed, or the record is
  still the owner's;
* `fleet_exclusive` — all workers see one Redis and one moment; a worker that calls its lease
  live has the record, except in the millisecond in which the recorded expiry falls; so two
  workers are live together in such a millisecond only.
-/
import LazyLayers.LeaseController
import LazyLayers.RelyGuarantee

open Runs Transactions RelyGuarantee

namespace LeaseController

/-! ### What the others notice of a step -/

/-- Time passes, or the script runs. -/
inductive Op
  | advance (d : ℚ≥0)
  | command (q : Request)

section Effects

variable (L : Lua) (holder : Holder) (offset : ℚ≥0)

def World.absorb (w : World) : Op → World
  | .advance d => w.advance L offset d
  | .command q => w.command L holder q

/-- What a step does to the clocks and to Redis, in order. -/
def World.effects (w : World) : Event → List Op
  | .advance d => [.advance d]
  | .command q => [.command q]
  | .acquire =>
    match w.startedAt, w.lease with
    | some _, none => [.command holder.acquire]
    | _, _ => []
  | .maintain d₁ d₂ =>
    match w.lease, w.controller with
    | some lease, none =>
      if (Controller.create lease).deadline ≤ (w.time + d₁ : ℚ≥0) then [.advance d₁]
      else [.advance d₁, .advance d₂]
    | _, _ => []
  | .fire id d₁ d₂ =>
    match w.controller with
    | none => []
    | some c =>
      match c.timers.find? fun t => t.id = id with
      | none => []
      | some t => if t.kind = .renewal then [.advance d₁, .advance d₂] else []
  | .execute i =>
    match w.controller with
    | none => []
    | some c =>
      match c.flights[i]? with
      | some f => if f.reply.isNone then [.command holder.renew] else []
      | none => []
  | .resolve i d₁ d₂ =>
    match w.controller with
    | none => []
    | some c =>
      match c.flights[i]? with
      | some f => if f.reply.isSome then [.advance d₁, .advance d₂] else []
      | none => []
  | .assertLive d => if w.controller.isSome then [.advance d] else []
  | .capture | .reject _ | .stop => []

/-- The clock of the worker, Redis, and the last expiry that was recorded. -/
def World.shared (w : World) : ℚ≥0 × Server × Option ℕ := (w.time, w.server, w.expiry)

variable {L holder offset}

/-- Nothing but its effects changes the clock and Redis in a step. -/
theorem shared_step (w : World) (e : Event) :
    (w.step L holder offset e).shared =
      ((w.effects holder e).foldl (World.absorb L holder offset) w).shared := by
  rw [World.step.eq_def, World.effects.eq_def]
  cases e with
  | advance d => rfl
  | command q => rfl
  | capture =>
    dsimp only
    split
    · rfl
    · rfl
  | acquire =>
    dsimp only
    cases w.startedAt with
    | none => rfl
    | some startedAt =>
      cases w.lease with
      | some lease => rfl
      | none =>
        dsimp only
        rw [World.runAcquire.eq_def]
        dsimp only
        split
        · rfl
        · rfl
  | maintain d₁ d₂ =>
    dsimp only
    cases w.lease with
    | none => rfl
    | some lease =>
      cases w.controller with
      | some c => rfl
      | none =>
        -- the first look at the clock is the one that the effects speak of
        have htime : (w.advance L offset d₁).time = w.time + d₁ := rfl
        dsimp only
        rw [World.runMaintain, htime]
        dsimp only
        split
        · rfl
        · rfl
  | fire id d₁ d₂ =>
    cases w.controller with
    | none => rfl
    | some c =>
      dsimp only
      cases c.timers.find? fun t => t.id = id with
      | none => rfl
      | some t =>
        dsimp only
        rw [World.runTimer.eq_def]
        dsimp only
        cases t.kind with
        | expiry => rfl
        | renewal => rfl
  | execute i =>
    cases w.controller with
    | none => rfl
    | some c =>
      dsimp only
      cases c.flights[i]? with
      | none => rfl
      | some f =>
        dsimp only
        split
        · rfl
        · rfl
  | resolve i d₁ d₂ =>
    cases w.controller with
    | none => rfl
    | some c =>
      dsimp only
      cases c.flights[i]? with
      | none => rfl
      | some f =>
        dsimp only
        cases f.reply with
        | none => rfl
        | some reply => rfl
  | reject i =>
    cases w.controller with
    | none => rfl
    | some c =>
      dsimp only
      split
      · rfl
      · rfl
  | assertLive d =>
    cases w.controller with
    | none => rfl
    | some c => rfl
  | stop =>
    cases w.controller with
    | none => rfl
    | some c => rfl

/-- A worker sends commands of its own owner only, beside those that an event names. -/
theorem command_of_effects {w : World} {e : Event} {q : Request}
    (h : .command q ∈ w.effects holder e) :
    e = .command q ∨ q = holder.acquire ∨ q = holder.renew := by
  revert h
  cases e with
  | advance d => simp [World.effects]
  | command q' =>
    intro h
    rw [World.effects, List.mem_singleton, Op.command.injEq] at h
    exact .inl (by rw [h])
  | capture => simp [World.effects]
  | acquire =>
    rw [World.effects.eq_def]
    dsimp only
    split
    · intro h
      rw [List.mem_singleton, Op.command.injEq] at h
      exact .inr (.inl h)
    · simp
  | maintain d₁ d₂ =>
    rw [World.effects.eq_def]
    dsimp only
    split
    · split
      · simp
      · simp
    · simp
  | fire id d₁ d₂ =>
    rw [World.effects.eq_def]
    dsimp only
    split
    · simp
    · split
      · simp
      · split
        · simp
        · simp
  | execute i =>
    rw [World.effects.eq_def]
    dsimp only
    split
    · simp
    · split
      · split
        · intro h
          rw [List.mem_singleton, Op.command.injEq] at h
          exact .inr (.inr h)
        · simp
      · simp
  | resolve i d₁ d₂ =>
    rw [World.effects.eq_def]
    dsimp only
    split
    · simp
    · split
      · split
        · simp
        · simp
      · simp
  | reject i => simp [World.effects]
  | assertLive d =>
    rw [World.effects]
    split
    · simp
    · simp
  | stop => simp [World.effects]

end Effects

/-! ### The recorded expiry is accounted for -/

section Accounts

variable {L : Lua} {holder : Holder} {offset : ℚ≥0} {w : World}

/-- Time passes: the record stays, or its retention has elapsed. -/
theorem accounted_advance {s : Server} (hc : Coherent L s) {owner : LuaString} {deadline : ℕ}
    (h : Accounted (L := L) s owner deadline) (us : ℕ) :
    Accounted (L := L) (s.step L (.advance us)) owner deadline := by
  obtain ⟨hnow, hrecord⟩ := advance_record hc us
  rcases h with hdone | ⟨r, hr, howner, hstate⟩
  · exact .inl (hdone.trans hnow)
  rcases hrecord with ⟨hsame, -⟩ | ⟨-, -, hgone⟩
  · exact .inr ⟨r, hsame.trans hr, howner, hstate⟩
  · left
    have hretained := hgone r hr
    rcases hstate with ⟨hpending, hlease⟩ | ⟨-, hlease⟩
    · have hvalid := ((Coherent.valid hr).pending hpending).2.1
      omega
    · omega

/-- A command leaves the record with its owner, unless the lease is over; only a completion
ends a lease before that, and it is the owner's. -/
theorem accounted_command {s : Server} (hc : Coherent L s) {owner : LuaString} {deadline : ℕ}
    (h : Accounted (L := L) s owner deadline) (q : Request)
    (hnot : ∀ r, (s.step L (.command q)).record L = some r →
      ¬ (r.state = .pending ∧ r.owner = owner)) :
    Accounted (L := L) (s.step L (.command q)) owner deadline := by
  obtain ⟨⟨wrote, ht, -⟩, hnow, -⟩ := command_transition hc q
  rcases h with hdone | ⟨r, hr, howner, hstate⟩
  · exact .inl (hdone.trans hnow.ge)
  rw [hr] at ht
  generalize hr' : (s.step L (.command q)).record L = r' at ht hnot
  generalize (s.execute L q).reply = reply at ht
  cases ht with
  | keep hren hacq => exact .inr ⟨r, hr', howner, hstate⟩
  | reenter hcmd hlive => exact .inr ⟨r, hr', howner, hstate⟩
  | acquire hcmd hprev hlive hlease =>
    obtain ⟨hpending, -, hover, -⟩ := hprev r rfl
    left
    rcases hstate with ⟨-, hlease⟩ | ⟨hcompleted, -⟩
    · omega
    · rw [hpending] at hcompleted
      cases hcompleted
  | renew hcmd hlive hq hlease hret =>
    exact absurd ⟨hq.1, (hq.2.1.trans hlive.2.1.symm).trans howner⟩ (hnot _ rfl)
  | complete hcmd hlive hq hown hres hret =>
    refine .inr ⟨_, hr', hown.trans howner, .inr ⟨hq, ?_⟩⟩
    rcases hstate with ⟨hpending, hlease⟩ | ⟨hcompleted, -⟩
    · have hvalid := ((Coherent.valid hr).pending hpending).2.1
      omega
    · rw [hlive.1] at hcompleted
      cases hcompleted

/-- The last expiry that was recorded for the owner has passed, or the record is the owner's. -/
def Accounts (L : Lua) (holder : Holder) (w : World) : Prop :=
  ∀ e, w.expiry = some e → Accounted (L := L) w.server holder.acquire.owner e

theorem Accounts.of_shared {w' : World} (h : Accounts L holder w) (heq : w'.shared = w.shared) :
    Accounts L holder w' := by
  obtain ⟨-, hrest⟩ := Prod.mk.inj heq
  obtain ⟨hserver, hexpiry⟩ := Prod.mk.inj hrest
  intro e he
  rw [hserver]
  exact h e (hexpiry ▸ he)

theorem Accounts.advance (h : Accounts L holder w) (hc : Coherent L w.server) (d : ℚ≥0) :
    Accounts L holder (w.advance L offset d) := fun e he =>
  accounted_advance hc (h e he) _

theorem Accounts.command (h : Accounts L holder w) (hc : Coherent L w.server) (q : Request) :
    Accounts L holder (w.command L holder q) := by
  intro e he
  rw [World.command] at he ⊢
  dsimp only at he ⊢
  generalize hr : (w.server.step L (.command q)).record L = r at he
  cases r with
  | none =>
    refine accounted_command hc (h e he) q fun r hr' => ?_
    rw [hr] at hr'
    cases hr'
  | some r =>
    dsimp only at he
    split at he
    next hown =>
      -- the owner's record is pending: its expiry is the one that counts
      exact .inr ⟨r, hr, hown.2, .inl ⟨hown.1, Option.some.inj he⟩⟩
    next hnot =>
      refine accounted_command hc (h e he) q fun r' hr' => ?_
      rw [hr, Option.some_inj] at hr'
      rwa [← hr']

/-- What holds of each worker: the invariant of its controller, and the account. -/
structure Tracked (L : Lua) (holder : Holder) (offset : ℚ≥0) (w : World) : Prop where
  inv : Inv L holder offset True w
  accounts : Accounts L holder w

/-- A command of the worker's owner asks for the worker's duration. -/
def Respects (holder : Holder) (q : Request) : Prop :=
  q.owner = holder.acquire.owner → q.lease = holder.acquire.lease

theorem Tracked.absorb (h : Tracked L holder offset w) {o : Op}
    (ho : ∀ q, o = .command q → Respects holder q) :
    Tracked L holder offset (w.absorb L holder offset o) := by
  cases o with
  | advance d => exact ⟨h.inv.advance d, h.accounts.advance h.inv.coherent d⟩
  | command q =>
    exact ⟨h.inv.command fun _ => ho q rfl, h.accounts.command h.inv.coherent q⟩

/-- A worker's own step: the controller keeps its invariant, and the rest is in the effects. -/
theorem Tracked.step (h : Tracked L holder offset w) {e : Event}
    (he : ∀ q, e = .command q → Respects holder q) :
    Tracked L holder offset (w.step L holder offset e) := by
  refine ⟨inv_step h.inv e fun q hq _ => he q hq, ?_⟩
  have heffects : ∀ q, .command q ∈ w.effects holder e → Respects holder q := by
    intro q hq
    rcases command_of_effects hq with rfl | rfl | rfl
    · exact he q rfl
    · exact fun _ => rfl
    · exact fun _ => holder.lease_eq
  have hall : Tracked L holder offset ((w.effects holder e).foldl (World.absorb L holder offset) w) :=
    List.foldlRecOn _ _ h fun w' hw' o ho => hw'.absorb fun q hq => heffects q (hq ▸ ho)
  exact hall.accounts.of_shared (shared_step w e)

end Accounts

/-! ### The fleet -/

/-- Workers with their own owner tokens; the clocks at the beginning show one moment. -/
structure Fleet (ι : Type*) where
  holder : ι → Holder
  clock : ι → ℚ≥0
  offset : ι → ℚ≥0
  moment : ℚ≥0
  together : ∀ i, clock i + offset i = moment
  distinct : ∀ i j, i ≠ j → (holder i).acquire.owner ≠ (holder j).acquire.owner

/-- The moment, by the clock of Redis, and Redis. -/
def Op.run (L : Lua) (v : ℚ≥0 × Server) : Op → ℚ≥0 × Server
  | .advance d => (v.1 + d, v.2.step L (.advance (micros 0 (v.1 + d) - v.2.clock)))
  | .command q => (v.1, v.2.step L (.command q))

namespace Fleet

variable {ι : Type*} (L : Lua) (F : Fleet ι)

def party (i : ι) : Party World Event Op where
  step := World.step L (F.holder i) (F.offset i)
  effects := World.effects (F.holder i)
  absorb := World.absorb L (F.holder i) (F.offset i)

/-- No record is under the key, and nobody has done anything. -/
def start (i : ι) : World where
  time := F.clock i
  server := ⟨micros 0 F.moment, none⟩

/-- The moment and the Redis that a worker sees. -/
def view (i : ι) (w : World) : ℚ≥0 × Server := (w.time + F.offset i, w.server)

/-- The commands of other clients ask for a worker's duration if they are in its name. -/
def Allowed (_ : ι) (e : Event) : Prop := ∀ q, e = .command q → ∀ k, Respects (F.holder k) q

variable {L F} {i j : ι}

theorem sound_parties : Sound (S := fun _ => World) (A := fun _ => Event) (F.party L)
    (fun i w => Tracked L (F.holder i) (F.offset i) w) F.Allowed
    (fun i o => ∀ q, o = .command q → Respects (F.holder i) q) where
  step := fun i w e he h => h.step fun q hq => he q hq i
  absorb := fun i w o ho h => h.absorb ho
  guarantee := by
    rintro j w e he - o ho i hij q rfl
    rcases command_of_effects ho with rfl | rfl | rfl
    · exact he q rfl i
    · -- another worker's commands are not in this one's name
      exact fun howner => absurd howner (F.distinct j i hij.symm)
    · exact fun howner => absurd ((F.holder j).owner_eq.symm.trans howner) (F.distinct j i hij.symm)

theorem view_absorb (w : World) (o : Op) :
    F.view i (w.absorb L (F.holder i) (F.offset i) o) = o.run L (F.view i w) := by
  cases o with
  | command q => rfl
  | advance d =>
    rw [view, World.absorb, World.advance, Op.run, view, Prod.mk.injEq]
    have htime : w.time + d + F.offset i = w.time + F.offset i + d := add_right_comm ..
    refine ⟨htime, ?_⟩
    dsimp only
    rw [micros, micros, htime, add_zero]

theorem view_of_shared {w w' : World} (h : w.shared = w'.shared) : F.view i w = F.view i w' := by
  obtain ⟨htime, hrest⟩ := Prod.mk.inj h
  obtain ⟨hserver, -⟩ := Prod.mk.inj hrest
  rw [view, view, htime, hserver]

theorem views_parties :
    Views (S := fun _ => World) (A := fun _ => Event) (F.party L) F.view (Op.run L) where
  step := fun i w e => (view_of_shared (shared_step w e)).trans
    (List.foldl_hom (F.view i) fun w o => (view_absorb w o).symm).symm
  absorb := fun _ w o => view_absorb w o

theorem tracked_start : Tracked L (F.holder i) (F.offset i) (F.start i) where
  inv := {
    clock := by
      show micros 0 F.moment = micros (F.offset i) (F.clock i)
      rw [micros, micros, add_zero, F.together i]
    coherent := coherent_absent L _
    startedAt := fun t ht => by cases ht
    expiry := fun _ e he => by cases he
    record := fun r hr => by cases hr
    lease := fun l hl => by cases hl
    controller := fun c hc => by cases hc }
  accounts := fun e he => by cases he

variable (L F) (acts : List (Σ _ : ι, Event)) [DecidableEq ι]

/-- The workers before the `n`-th event. -/
def world (n : ℕ) : ι → World :=
  stateAt (joint (S := fun _ => World) (A := fun _ => Event) (F.party L)) F.start acts n

/-- What has happened to Redis before the `n`-th event. -/
def ops (n : ℕ) : List Op :=
  history (S := fun _ => World) (A := fun _ => Event) (F.party L) F.start acts n

end Fleet

/-- The controller has not been stopped, and `assertLive` returns. -/
def Live (w : World) (c : Controller) : Prop :=
  w.controller = some c ∧ c.stopped = false ∧ (c.assertLive w.time).2 = true

/-- The clock of Redis shows the recorded expiry, and the deadline is less than a millisecond
away. -/
def LastMillisecond (w : World) (c : Controller) : Prop :=
  w.expiry = some w.server.now ∧ c.deadline < w.time + 1

section Exclusion

variable {L : Lua} {holder : Holder} {offset : ℚ≥0} {w : World} {c : Controller}

/-- A live controller has the record, or its last millisecond has come. -/
theorem owns_of_live (h : Tracked L holder offset w) (hlive : Live w c) :
    LastMillisecond w c ∨ ∃ r, w.server.record L = some r ∧ r.owner = holder.acquire.owner ∧
      (r.state = .pending → c.deadline + offset < r.leaseUntilMs + 1) := by
  obtain ⟨hc, hstopped, hreturns⟩ := hlive
  have hbefore := Controller.lt_deadline_of_assertLive hstopped hreturns
  have hheld := h.inv.controller c hc
  obtain ⟨e, he, hle⟩ := hheld.backed trivial
  have hrecorded : (c.recorded : ℚ) ≤ e := by exact_mod_cast hle
  have hdeadline := hheld.deadline
  obtain ⟨hnow, -⟩ := now_bounds h.inv.clock
  rcases h.accounts e he with hover | ⟨r, hr, howner, hstate⟩
  · left
    have hpast : (e : ℚ) ≤ w.server.now := by exact_mod_cast hover
    have hahead : (w.server.now : ℚ) < (e : ℚ) + 1 := by linarith
    have hsame : w.server.now = e := by
      have hlt : w.server.now < e + 1 := by exact_mod_cast hahead
      omega
    exact ⟨hsame ▸ he, by linarith⟩
  · right
    refine ⟨r, hr, howner, fun hpending => ?_⟩
    have huntil := h.inv.record r hr hpending howner
    rw [he, Option.some_inj] at huntil
    rw [← huntil]
    linarith

end Exclusion

/-- **The workers exclude each other, by Redis' milliseconds.**

In every run of any number of workers with their own owner tokens, in any order: all workers
see one moment and one Redis, that which the commands and the passing of time, in their order,
make of an empty key; a worker whose controller calls the lease live has the record under the
key, for as long as the record says, except in the millisecond in which the recorded expiry
falls; and when two call it live at one moment, it is that millisecond for one of them. -/
theorem fleet_exclusive {ι : Type*} [DecidableEq ι] (L : Lua) (F : Fleet ι)
    (acts : List (Σ _ : ι, Event)) (hacts : ∀ a ∈ acts, F.Allowed a.1 a.2) (n : ℕ) :
    (∀ i, F.view i (F.world L acts n i) =
      (F.ops L acts n).foldl (Op.run L) (F.moment, ⟨micros 0 F.moment, none⟩)) ∧
    (∀ i c, Live (F.world L acts n i) c → LastMillisecond (F.world L acts n i) c ∨
      ∃ r, (F.world L acts n i).server.record L = some r ∧
        r.owner = (F.holder i).acquire.owner ∧
        (r.state = .pending → c.deadline + F.offset i < r.leaseUntilMs + 1)) ∧
    (∀ i j, i ≠ j → ∀ c c', Live (F.world L acts n i) c → Live (F.world L acts n j) c' →
      LastMillisecond (F.world L acts n i) c ∨ LastMillisecond (F.world L acts n j) c') := by
  have hstart : ∀ i, F.view i (F.start i) = (F.moment, ⟨micros 0 F.moment, none⟩) :=
    fun i => Prod.ext (F.together i) rfl
  have hview : ∀ i, F.view i (F.world L acts n i) =
      (F.ops L acts n).foldl (Op.run L) (F.moment, ⟨micros 0 F.moment, none⟩) :=
    Fleet.views_parties.eq_foldl hstart n
  have htracked : ∀ i, Tracked L (F.holder i) (F.offset i) (F.world L acts n i) :=
    Fleet.sound_parties.invariant (fun i => Fleet.tracked_start) hacts n
  refine ⟨hview, fun i c hlive => owns_of_live (htracked i) hlive, fun i j hij c c' hi hj => ?_⟩
  rcases owns_of_live (htracked i) hi with hlast | ⟨r, hr, howner, -⟩
  · exact .inl hlast
  rcases owns_of_live (htracked j) hj with hlast | ⟨r', hr', howner', -⟩
  · exact .inr hlast
  · -- one record cannot have two owners
    have hserver : (F.world L acts n i).server = (F.world L acts n j).server :=
      congrArg Prod.snd ((hview i).trans (hview j).symm)
    rw [hserver, hr', Option.some_inj] at hr
    rw [← hr] at howner
    exact absurd (howner.symm.trans howner') (F.distinct i j hij)

def secondRenew : Request :=
  sampleRequest .renew 98 hex64_98 30 2000 secondBegin.lease_pos secondBegin.lease_le
    secondBegin.lease_retention secondBegin.retention_le

def secondHolder : Holder where
  acquire := secondBegin
  renew := secondRenew
  acquire_cmd := rfl
  renew_cmd := rfl
  owner_eq := rfl
  lease_eq := rfl

/-- Two workers; the clock of the second one is a millisecond behind. -/
def sampleFleet : Fleet Bool where
  holder := fun second => if second then secondHolder else sampleHolder
  clock := fun second => if second then 0 else 1
  offset := fun second => if second then 1 else 0
  moment := 1
  together := by
    intro second
    cases second
    · norm_num
    · norm_num
  distinct := by decide

/-- The lease of the first worker is recorded until 31 ms, and its own deadline is at 31.5 ms.
At 31.4 ms the second one takes the lease over. -/
def handoverRun : List (Σ _ : Bool, Event) :=
  [⟨false, .advance (.divNat 1 2)⟩, ⟨false, .capture⟩, ⟨true, .advance (.divNat 2 5)⟩,
    ⟨false, .acquire⟩, ⟨false, .maintain 0 0⟩, ⟨true, .advance (.divNat 59 2)⟩, ⟨true, .capture⟩,
    ⟨true, .acquire⟩, ⟨true, .maintain 0 0⟩]

theorem live_of_map {w : World} (h : w.controller.map (fun c => (c.stopped,
    (c.assertLive w.time).2)) = some (false, true)) : ∃ c, Live w c := by
  obtain ⟨c, hc, hfields⟩ := Option.map_eq_some_iff.mp h
  obtain ⟨hstopped, hlive⟩ := Prod.mk.inj hfields
  exact ⟨c, hc, hstopped, hlive⟩

/-- Both are live at 31.4 ms, and it is the last millisecond of one of them. -/
theorem fleet_exclusive_handover : ∃ c c',
    Live (sampleFleet.world referenceLua handoverRun 9 false) c ∧
    Live (sampleFleet.world referenceLua handoverRun 9 true) c' ∧
    (LastMillisecond (sampleFleet.world referenceLua handoverRun 9 false) c ∨
      LastMillisecond (sampleFleet.world referenceLua handoverRun 9 true) c') := by
  have hacts : ∀ a ∈ handoverRun, sampleFleet.Allowed a.1 a.2 := by
    intro a ha q hq
    simp only [handoverRun, List.mem_cons, List.not_mem_nil, or_false] at ha
    rcases ha with rfl | rfl | rfl | rfl | rfl | rfl | rfl | rfl | rfl <;> cases hq
  obtain ⟨-, -, hexclusive⟩ := fleet_exclusive referenceLua sampleFleet handoverRun hacts 9
  obtain ⟨c, hc⟩ : ∃ c, Live (sampleFleet.world referenceLua handoverRun 9 false) c :=
    live_of_map (by decide +kernel)
  obtain ⟨c', hc'⟩ : ∃ c, Live (sampleFleet.world referenceLua handoverRun 9 true) c :=
    live_of_map (by decide +kernel)
  exact ⟨c, c', hc, hc', hexclusive false true (by decide) c c' hc hc'⟩

end LeaseController
