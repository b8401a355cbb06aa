/-
The subscription of the Redis event bus (`redisEventBus.ts`).

The subscriber's connection comes and goes.  Whenever it is ready again the bus
sends SUBSCRIBE, and when the command is acknowledged in the transport epoch in
which it was sent, the bus is subscribed and says so.  A command that is pending
when the connection is lost may be acknowledged on a later connection.

* `Bus.step` — the events of the subscriber, the answers to SUBSCRIBE commands, and
  the call of `subscribe`;
* `Unskipped` — a `ready` event does not find only commands of an older epoch outstanding;
* `Kept` — a ready bus is subscribed, or an outstanding command will make it so;
* `Stranded` — a skipped event has left it with neither;
* `resubscribed` — a run always resubscribes if and only if every skipped event is masked
  by another one before the outstanding commands have all been answered;
* `skipped_ready_strands` — any skipped event can be the last one.

`resubscribe` returns when `resubscribing` is set, and an acknowledgement of an older
epoch clears the flag without sending the command again, so the second `ready` event
of `skippingRun` is lost.
-/
import LazyLayers.Runs

open Runs

namespace RedisEventBus

/-- `EventBusStatus` -/
inductive Status
  | connecting
  | ready
  | subscribed
  | disconnected
  | error
  deriving DecidableEq, Repr

/-- An outstanding SUBSCRIBE: sent by `subscribe`, or by `resubscribe` in an epoch. -/
inductive Command
  | subscribe
  | resubscribe (epoch : ℕ)
  deriving DecidableEq, Repr

/-- The fields of the bus that concern its subscription; `ready` is the state of the
connection, `statuses` what was emitted, and `rejected` whether a SUBSCRIBE was
rejected since the latest `ready` event. -/
structure Bus where
  ready : Bool
  handler : Bool
  subscribed : Bool
  resubscribing : Bool
  transportEpoch : ℕ
  commands : List Command
  statuses : List Status
  rejected : Bool
  deriving DecidableEq, Repr

def Bus.init : Bus := ⟨false, false, false, false, 0, [], [], false⟩

def Bus.emitStatus (b : Bus) (status : Status) : Bus :=
  { b with statuses := b.statuses ++ [status] }

/-- `markDisconnected()` -/
def Bus.markDisconnected (b : Bus) : Bus :=
  Bus.emitStatus { b with transportEpoch := b.transportEpoch + 1, subscribed := false }
    .disconnected

/-- `resubscribe()` up to its SUBSCRIBE. -/
def Bus.resubscribe (b : Bus) : Bus :=
  if b.handler = false ∨ b.resubscribing ∨ b.subscribed then b
  else { b with
    resubscribing := true
    commands := b.commands ++ [.resubscribe b.transportEpoch] }

/-- `subscribe(handler)` up to its SUBSCRIBE. -/
def Bus.subscribe (b : Bus) : Bus :=
  if b.subscribed then b
  else { b with handler := true, commands := b.commands ++ [.subscribe] }

/-- Both commands end so when they are acknowledged in time. -/
def Bus.trust (b : Bus) : Bus := Bus.emitStatus { b with subscribed := true } .subscribed

inductive Event
  | subscribe
  /-- The subscriber emits `close`, `end` or `reconnecting`. -/
  | lost
  | error
  | ready
  /-- The `k`-th outstanding command is acknowledged, or rejected. -/
  | acknowledged (k : ℕ)
  | rejected (k : ℕ)

def Bus.step (b : Bus) : Event → Bus
  | .subscribe => b.subscribe
  | .lost => { b.markDisconnected with ready := false }
  | .error => b.emitStatus .error
  | .ready => Bus.resubscribe { b.emitStatus .ready with ready := true, rejected := false }
  | .acknowledged k =>
    match b.commands[k]? with
    | none => b
    | some .subscribe => Bus.trust { b with commands := b.commands.eraseIdx k }
    | some (.resubscribe epoch) =>
      let b := { b with commands := b.commands.eraseIdx k, resubscribing := false }
      if epoch ≠ b.transportEpoch then b else b.trust
  | .rejected k =>
    match b.commands[k]? with
    | none => b
    | some .subscribe => { b with commands := b.commands.eraseIdx k, rejected := true }
    | some (.resubscribe _) =>
      { b.emitStatus .error with
        commands := b.commands.eraseIdx k, resubscribing := false, rejected := true }

example (b : Bus) : b.step .subscribe = b.subscribe := by
  rw [Bus.step]

/-! ### What a ready bus relies on -/

/-- Nothing was lost since the bus last said that it is subscribed. -/
def SaysSubscribed (statuses : List Status) : Prop :=
  ∃ before after, statuses = before ++ .subscribed :: after ∧ .disconnected ∉ after

/-- Acknowledged now, the command would make the bus subscribed. -/
def Command.counts (epoch : ℕ) (c : Command) : Prop := c = .subscribe ∨ c = .resubscribe epoch

instance (epoch : ℕ) (c : Command) : Decidable (c.counts epoch) :=
  inferInstanceAs (Decidable (_ ∨ _))

/-- The bus waits for a command that counts. -/
def Bus.Answerable (b : Bus) : Prop := ∃ c ∈ b.commands, c.counts b.transportEpoch

instance (b : Bus) : Decidable b.Answerable :=
  inferInstanceAs (Decidable (∃ c ∈ b.commands, _))

/-- A connection that is ready, with nothing outstanding and nothing rejected, is one on
which the bus is subscribed, and has said so since the connection was last lost. -/
def Bus.Restored (b : Bus) : Prop :=
  b.handler = true → b.ready = true → b.commands = [] → b.rejected = false →
    b.subscribed = true ∧ SaysSubscribed b.statuses

/-- A `ready` event is not skipped: no resubscription is outstanding, or the bus is
subscribed, or it waits for a command that counts. -/
def Unskipped (b : Bus) (e : Event) : Prop :=
  e = .ready → b.resubscribing = true → b.subscribed = true ∨ b.Answerable

/-- The invariant of the runs without a skipped event. -/
structure Kept (b : Bus) : Prop where
  spoken : b.subscribed = true → SaysSubscribed b.statuses
  waits : b.handler = true → b.ready = true → b.rejected = false →
    b.subscribed = true ∨ b.Answerable

variable {b : Bus} {l : List Status} {c : Command} {k : ℕ}

theorem SaysSubscribed.emit (h : SaysSubscribed l) {status : Status}
    (hne : status ≠ .disconnected) : SaysSubscribed (l ++ [status]) := by
  obtain ⟨before, after, rfl, hafter⟩ := h
  refine ⟨before, after ++ [status], by simp, fun hmem => ?_⟩
  rcases List.mem_append.mp hmem with hmem | hmem
  · exact hafter hmem
  · exact hne (List.mem_singleton.mp hmem).symm

theorem saysSubscribed_trust (l : List Status) : SaysSubscribed (l ++ [.subscribed]) :=
  ⟨l, [], rfl, List.not_mem_nil⟩

/-- A command that does not count is not the one that is waited for. -/
theorem answerable_erase {l : List Command} {epoch : ℕ} (hk : l[k]? = some c)
    (hc : ¬ c.counts epoch) (h : ∃ c ∈ l, c.counts epoch) :
    ∃ c ∈ l.eraseIdx k, c.counts epoch := by
  obtain ⟨c', hmem, hcounts⟩ := h
  obtain ⟨j, hj⟩ := List.mem_iff_getElem?.mp hmem
  have hne : j ≠ k := by
    rintro rfl
    exact hc (Option.some_inj.mp (hk.symm.trans hj) ▸ hcounts)
  exact ⟨c', List.mem_eraseIdx_iff_getElem?.mpr ⟨j, hne, hj⟩, hcounts⟩

theorem Kept.restored (h : Kept b) : b.Restored := by
  intro hhandler hready hcommands hrejected
  have hsubscribed : b.subscribed = true := by
    rcases h.waits hhandler hready hrejected with hsubscribed | ⟨c, hc, -⟩
    · exact hsubscribed
    · rw [hcommands] at hc
      cases hc
  exact ⟨hsubscribed, h.spoken hsubscribed⟩

theorem kept_init : Kept Bus.init := ⟨nofun, nofun⟩

/-- An acknowledgement that counts. -/
theorem kept_trust (b : Bus) : Kept b.trust :=
  ⟨fun _ => saysSubscribed_trust b.statuses, fun _ _ _ => Or.inl rfl⟩

theorem kept_ready (h : Kept b) (hskip : Unskipped b .ready) : Kept (b.step .ready) := by
  rw [Bus.step, Bus.resubscribe]
  split
  · next hreturn =>
    refine ⟨fun hs => (h.spoken hs).emit nofun, fun hhandler _ _ => ?_⟩
    rcases hreturn with hnone | hbusy | hsubscribed
    · exact absurd (hhandler.symm.trans hnone) nofun
    · exact hskip rfl hbusy
    · exact Or.inl hsubscribed
  · -- the command is sent in the current epoch
    refine ⟨fun hs => (h.spoken hs).emit nofun, fun _ _ _ => Or.inr ?_⟩
    exact ⟨.resubscribe b.transportEpoch, List.mem_append_right _ (List.mem_singleton_self _),
      Or.inr rfl⟩

theorem kept_acknowledged (h : Kept b) (k : ℕ) : Kept (b.step (.acknowledged k)) := by
  rw [Bus.step]
  split
  · exact h
  · exact kept_trust _
  · next epoch hk =>
    simp only
    split
    · next hstale =>
      refine ⟨h.spoken, fun hhandler hready hrejected => ?_⟩
      rcases h.waits hhandler hready hrejected with hsubscribed | hwaits
      · exact Or.inl hsubscribed
      · refine Or.inr (answerable_erase hk (fun hc => ?_) hwaits)
        rcases hc with hc | hc
        · cases hc
        · exact hstale (Command.resubscribe.inj hc)
    · exact kept_trust _

theorem kept_rejected (h : Kept b) (k : ℕ) : Kept (b.step (.rejected k)) := by
  rw [Bus.step]
  split
  · exact h
  · exact ⟨h.spoken, fun _ _ hrejected => nomatch hrejected⟩
  · exact ⟨fun hs => (h.spoken hs).emit nofun, fun _ _ hrejected => nomatch hrejected⟩

theorem kept_subscribe (h : Kept b) : Kept (b.step .subscribe) := by
  rw [Bus.step, Bus.subscribe]
  split
  · exact h
  · refine ⟨h.spoken, fun _ _ _ => Or.inr ⟨.subscribe, ?_, Or.inl rfl⟩⟩
    exact List.mem_append_right _ (List.mem_singleton_self _)

theorem kept_step (h : Kept b) (e : Event) (hskip : Unskipped b e) : Kept (b.step e) := by
  cases e with
  | subscribe => exact kept_subscribe h
  | lost => exact ⟨(fun hs => nomatch hs), fun _ hready _ => nomatch hready⟩
  | error => exact ⟨fun hs => (h.spoken hs).emit nofun, h.waits⟩
  | ready => exact kept_ready h hskip
  | acknowledged k => exact kept_acknowledged h k
  | rejected k => exact kept_rejected h k

/-! ### Skipped events -/

/-- The bus is not subscribed, and no outstanding command will make it so. -/
structure Stranded (b : Bus) : Prop where
  handler : b.handler = true
  ready : b.ready = true
  rejected : b.rejected = false
  subscribed : b.subscribed = false
  waitless : ¬ b.Answerable

/-- What makes a skipped `ready` event harmless. -/
def Masks (b : Bus) : Event → Prop
  | .lost | .subscribe => True
  | .ready => Unskipped b .ready
  | .rejected k => k < b.commands.length
  | .error | .acknowledged _ => False

theorem stranded_ready (hhandler : b.handler = true) (hskip : ¬ Unskipped b .ready) :
    Stranded (b.step .ready) := by
  unfold Unskipped at hskip
  push Not at hskip
  obtain ⟨-, hbusy, hsubscribed, hnone⟩ := hskip
  rw [Bus.step, Bus.resubscribe, if_pos (.inr (.inl hbusy))]
  exact ⟨hhandler, rfl, rfl, Bool.eq_false_iff.mpr hsubscribed, hnone⟩

/-- Every outstanding command of a stranded bus was sent in an older epoch. -/
theorem Stranded.stale (h : Stranded b) (hc : b.commands[k]? = some c) :
    ∃ epoch, c = .resubscribe epoch ∧ epoch ≠ b.transportEpoch := by
  have hcounts : ¬ c.counts b.transportEpoch :=
    fun hcounts => h.waitless ⟨c, List.mem_of_getElem? hc, hcounts⟩
  cases c with
  | subscribe => exact absurd (Or.inl rfl) hcounts
  | resubscribe epoch => exact ⟨epoch, rfl, fun heq => hcounts (Or.inr (heq ▸ rfl))⟩

/-- Only a masking event helps a stranded bus. -/
theorem Stranded.step (h : Stranded b) {e : Event} (he : ¬ Masks b e) : Stranded (b.step e) := by
  cases e with
  | subscribe => exact absurd trivial he
  | lost => exact absurd trivial he
  | error => exact ⟨h.handler, h.ready, h.rejected, h.subscribed, h.waitless⟩
  | ready => exact stranded_ready h.handler he
  | acknowledged k =>
    rw [Bus.step]
    split
    · exact h
    · next hk =>
      obtain ⟨epoch, hc, -⟩ := h.stale hk
      cases hc
    · next epoch hk =>
      obtain ⟨epoch', hc, hepoch⟩ := h.stale hk
      cases hc
      dsimp only
      rw [if_pos hepoch]
      refine ⟨h.handler, h.ready, h.rejected, h.subscribed, ?_⟩
      rintro ⟨c, hc, hcounts⟩
      exact h.waitless ⟨c, List.mem_of_mem_eraseIdx hc, hcounts⟩
  | rejected k =>
    rw [Bus.step, List.getElem?_eq_none (not_lt.mp he)]
    exact h

/-- A masking event does. -/
theorem Stranded.masked (h : Stranded b) {e : Event} (he : Masks b e) : Kept (b.step e) := by
  have hspoken : b.subscribed = true → SaysSubscribed b.statuses :=
    fun hs => absurd (h.subscribed.symm.trans hs) nofun
  cases e with
  | subscribe =>
    rw [Bus.step, Bus.subscribe, if_neg (by simp [h.subscribed])]
    refine ⟨hspoken, fun _ _ _ => Or.inr ⟨.subscribe, ?_, Or.inl rfl⟩⟩
    exact List.mem_append_right _ (List.mem_singleton_self _)
  | lost => exact ⟨(fun hs => nomatch hs), fun _ hready _ => nomatch hready⟩
  | error => exact he.elim
  | acknowledged k => exact he.elim
  | ready =>
    -- nothing that counts is outstanding, so nothing is: the command is sent
    have hidle : b.resubscribing ≠ true := fun hbusy =>
      (he rfl hbusy).elim (fun hs => absurd (h.subscribed.symm.trans hs) nofun) h.waitless
    rw [Bus.step, Bus.resubscribe, if_neg (by
      rintro (hnone | hbusy | hsubscribed)
      · exact absurd (h.handler.symm.trans hnone) nofun
      · exact hidle hbusy
      · exact absurd (h.subscribed.symm.trans hsubscribed) nofun)]
    refine ⟨fun hs => (hspoken hs).emit nofun, fun _ _ _ => Or.inr ?_⟩
    exact ⟨.resubscribe b.transportEpoch, List.mem_append_right _ (List.mem_singleton_self _),
      Or.inr rfl⟩
  | rejected k =>
    obtain ⟨epoch, hc, -⟩ := h.stale (List.getElem?_eq_getElem he)
    rw [Bus.step, List.getElem?_eq_getElem he, hc]
    exact ⟨fun hs => (hspoken hs).emit nofun, fun _ _ hrejected => nomatch hrejected⟩

/-! ### Runs -/

variable {events : List Event} {n : ℕ}

/-- The bus after the first `n` events. -/
def stateOf (events : List Event) (n : ℕ) : Bus := stateAt Bus.step Bus.init events n

theorem stateOf_succ {e : Event} (he : events[n]? = some e) :
    stateOf events (n + 1) = (stateOf events n).step e := stateAt_succ he

theorem stateOf_concat (events : List Event) (e : Event) :
    stateOf (events ++ [e]) (events ++ [e]).length = (stateOf events events.length).step e := by
  simp only [stateOf, stateAt, List.take_length, List.foldl_append, List.foldl_cons,
    List.foldl_nil]

/-- Only a bus with a handler resubscribes. -/
theorem handler_stateOf (events : List Event) (n : ℕ) :
    (stateOf events n).resubscribing = true → (stateOf events n).handler = true := by
  refine invariant (P := fun b : Bus => b.resubscribing = true → b.handler = true)
    (fun h => by cases h) ?_ n
  intro b e h
  cases e with
  | subscribe =>
    rw [Bus.step, Bus.subscribe]
    split
    · exact h
    · exact fun _ => rfl
  | lost => exact h
  | error => exact h
  | ready =>
    rw [Bus.step, Bus.resubscribe]
    split
    · exact h
    · next hnot => exact fun _ => by simpa using fun hnone => hnot (.inl hnone)
  | acknowledged k =>
    rw [Bus.step]
    split
    · exact h
    · exact h
    · dsimp only
      split <;> exact nofun
  | rejected k =>
    rw [Bus.step]
    split
    · exact h
    · exact h
    · exact nofun

/-- The `i`-th event is a `ready` event that is skipped. -/
def SkippedAt (events : List Event) (i : ℕ) : Prop :=
  events[i]? = some .ready ∧ ¬ Unskipped (stateOf events i) .ready

/-- An event between the `i`-th and the `n`-th masks the skipped one. -/
def MaskedBefore (events : List Event) (i n : ℕ) : Prop :=
  ∃ k e, i < k ∧ k < n ∧ events[k]? = some e ∧ Masks (stateOf events k) e

theorem stranded_of_skippedAt {i : ℕ} (hskip : SkippedAt events i) (hin : i < n)
    (hmasked : ¬ MaskedBefore events i n) : Stranded (stateOf events n) := by
  induction n, (show i + 1 ≤ n from hin) using Nat.le_induction with
  | base =>
    rw [stateOf_succ hskip.1]
    refine stranded_ready (handler_stateOf events i ?_) hskip.2
    by_contra hidle
    exact hskip.2 fun _ hbusy => absurd hbusy hidle
  | succ n hk ih =>
    have hstranded := ih hk fun ⟨k, e, hik, hkn, he, hmasks⟩ =>
      hmasked ⟨k, e, hik, hkn.trans n.lt_succ_self, he, hmasks⟩
    rcases he : events[n]? with _ | e
    · rw [stateOf, stateAt_succ_of_none he]
      exact hstranded
    · rw [stateOf_succ he]
      exact hstranded.step fun hmasks => hmasked ⟨n, e, hk, n.lt_succ_self, he, hmasks⟩

/-- A run keeps its promise, or it has skipped an event that nothing has masked since. -/
theorem kept_or_stranded (events : List Event) (n : ℕ) : Kept (stateOf events n) ∨
    Stranded (stateOf events n) ∧
      ∃ i, i < n ∧ SkippedAt events i ∧ ¬ MaskedBefore events i n := by
  induction n with
  | zero => exact Or.inl kept_init
  | succ n ih =>
    rcases he : events[n]? with _ | e
    · rw [stateOf, stateAt_succ_of_none he]
      refine ih.imp_right ?_
      rintro ⟨hstranded, i, hin, hskip, hmasked⟩
      refine ⟨hstranded, i, hin.trans n.lt_succ_self, hskip, ?_⟩
      rintro ⟨k, e, hik, hkn, hk, hmasks⟩
      rcases Nat.lt_succ_iff_lt_or_eq.mp hkn with hkn | rfl
      · exact hmasked ⟨k, e, hik, hkn, hk, hmasks⟩
      · rw [he] at hk
        cases hk
    · rw [stateOf_succ he]
      rcases ih with hkept | ⟨hstranded, i, hin, hskip, hmasked⟩
      · by_cases hskip : Unskipped (stateOf events n) e
        · exact Or.inl (kept_step hkept e hskip)
        · obtain rfl : e = .ready := by
            by_contra hne
            exact hskip fun heq => absurd heq hne
          refine Or.inr ⟨?_, n, n.lt_succ_self, ⟨he, hskip⟩, ?_⟩
          · rw [← stateOf_succ he]
            exact stranded_of_skippedAt ⟨he, hskip⟩ n.lt_succ_self
              fun ⟨k, _, hnk, hkn, _⟩ => by omega
          · rintro ⟨k, -, hnk, hkn, -⟩
            omega
      · by_cases hmasks : Masks (stateOf events n) e
        · exact Or.inl (hstranded.masked hmasks)
        · refine Or.inr ⟨hstranded.step hmasks, i, hin.trans n.lt_succ_self, hskip, ?_⟩
          rintro ⟨k, e', hik, hkn, hk, hmasks'⟩
          rcases Nat.lt_succ_iff_lt_or_eq.mp hkn with hkn | rfl
          · exact hmasked ⟨k, e', hik, hkn, hk, hmasks'⟩
          · rw [he] at hk
            cases hk
            exact hmasks hmasks'

/-- **Resubscription is never skipped** in a run if and only if every skipped `ready` event
is masked before the outstanding commands have all been answered: the connection is lost
again, a later `ready` event is not skipped, `subscribe` is called, or a command is rejected. -/
theorem resubscribed (events : List Event) :
    (∀ n, (stateOf events n).Restored) ↔ ∀ i n, i < n → SkippedAt events i →
      (stateOf events n).commands = [] → MaskedBefore events i n := by
  constructor
  · intro h i n hin hskip hcommands
    by_contra hmasked
    have hstranded := stranded_of_skippedAt hskip hin hmasked
    have hsubscribed := (h n hstranded.handler hstranded.ready hcommands hstranded.rejected).1
    exact absurd (hstranded.subscribed.symm.trans hsubscribed) nofun
  · intro h n
    rcases kept_or_stranded events n with hkept | ⟨-, i, hin, hskip, hmasked⟩
    · exact hkept.restored
    · intro _ _ hcommands _
      exact absurd (h i n hin hskip hcommands) hmasked

/-- Lost and ready again, with every command answered before the next loss. -/
def steadyRun : List Event :=
  [.ready, .subscribe, .acknowledged 0, .lost, .ready, .acknowledged 0]

example : (stateOf steadyRun 6).ready = true ∧ (stateOf steadyRun 6).commands = [] ∧
    (stateOf steadyRun 6).subscribed = true := by decide

/-- Acknowledgements of older epochs only empty the queue of commands. -/
theorem acknowledged_stale {events : List Event} {b : Bus} (hb : stateOf events events.length = b)
    (hnone : ¬ b.Answerable) :
    ∃ more : List Event, (∀ e ∈ more, e = .acknowledged 0) ∧
      (stateOf (events ++ more) (events ++ more).length) =
        { b with
          commands := []
          resubscribing := if b.commands = [] then b.resubscribing else false } := by
  generalize hl : b.commands = l
  induction l generalizing events b with
  | nil =>
    refine ⟨[], nofun, ?_⟩
    rw [List.append_nil, hb, if_pos rfl, ← hl]
  | cons c l ih =>
    have hc : ¬ c.counts b.transportEpoch := fun hc =>
      hnone ⟨c, by rw [hl]; exact List.mem_cons_self, hc⟩
    obtain ⟨epoch, rfl, hepoch⟩ : ∃ epoch, c = .resubscribe epoch ∧ epoch ≠ b.transportEpoch := by
      cases c with
      | subscribe => exact absurd (Or.inl rfl) hc
      | resubscribe epoch => exact ⟨epoch, rfl, fun heq => hc (Or.inr (heq ▸ rfl))⟩
    have hstep : stateOf (events ++ [Event.acknowledged 0])
        (events ++ [Event.acknowledged 0]).length =
          { b with commands := l, resubscribing := false } := by
      rw [stateOf_concat, hb]
      simp [Bus.step, hl, hepoch]
    -- the commands that are left do not count either
    have hrest : ¬ Bus.Answerable { b with commands := l, resubscribing := false } := by
      rintro ⟨c', hmem, hcounts⟩
      have hmem : c' ∈ l := hmem
      exact hnone ⟨c', by rw [hl]; exact List.mem_cons_of_mem _ hmem, hcounts⟩
    obtain ⟨more, hmore, hstate⟩ := ih hstep hrest rfl
    refine ⟨.acknowledged 0 :: more, fun e he => ?_, ?_⟩
    · rcases List.mem_cons.mp he with rfl | he
      · rfl
      · exact hmore e he
    · rw [List.append_cons, hstate, if_neg (List.cons_ne_nil _ _)]
      simp

/-- A skipped `ready` event strands the bus: when the outstanding commands have been
acknowledged, nothing is left that could make it subscribed. -/
theorem skipped_ready_strands (events : List Event)
    (hhandler : (stateOf events events.length).handler = true)
    (hskip : ¬ Unskipped (stateOf events events.length) .ready) :
    ∃ more : List Event, (∀ e ∈ more, e = .acknowledged 0) ∧
      ¬ (stateOf (events ++ Event.ready :: more) (events ++ Event.ready :: more).length).Restored := by
  have hfacts : (stateOf events events.length).resubscribing = true ∧
      (stateOf events events.length).subscribed = false ∧
      ¬ (stateOf events events.length).Answerable := by
    unfold Unskipped at hskip
    push Not at hskip
    exact ⟨hskip.2.1, by simpa using hskip.2.2.1, hskip.2.2.2⟩
  obtain ⟨hbusy, hsubscribed, hnone⟩ := hfacts
  have hready : stateOf (events ++ [Event.ready]) (events ++ [Event.ready]).length =
      { stateOf events events.length with
        ready := true
        rejected := false
        statuses := (stateOf events events.length).statuses ++ [.ready] } := by
    rw [stateOf_concat]
    simp [Bus.step, Bus.resubscribe, Bus.emitStatus, hbusy]
  obtain ⟨more, hmore, hstate⟩ := acknowledged_stale hready hnone
  refine ⟨more, hmore, fun hrestored => ?_⟩
  rw [List.append_cons, hstate] at hrestored
  have hfinal := (hrestored hhandler rfl rfl rfl).1
  exact absurd (hsubscribed.symm.trans hfinal) nofun

/-- The connection is lost and ready again twice; the first resubscription is acknowledged
on the second connection. -/
def skippingRun : List Event :=
  [.ready, .subscribe, .acknowledged 0, .lost, .ready, .lost, .ready, .acknowledged 0]

theorem skippingRun_stranded : ¬ ∀ n, (stateOf skippingRun n).Restored := by
  intro h
  have hfinal := (h 8 (by decide) (by decide) (by decide) (by decide)).1
  exact absurd hfinal (by decide)

end RedisEventBus
