/-
Delivery gaps of the Redis event bus (`redisEventBus.ts`).

A message that the handler queue refuses, that does not decode, or whose handler
fails leaves a gap: the bus says `error`, and caches distrust their contents until it
says `subscribed` again.  It does so when the queue becomes idle.

* `Bus.step` — a message of a stable, subscribed connection, and the jobs of the
  handler queue;
* `Inv` — a gap that has not been reconciled has work behind it that will end;
* `reconciled_iff` — an idle bus has reconciled every gap exactly if no message was
  refused by an idle queue.

A queue that refuses a message while it is idle has no work left, so nothing calls
`onIdle`: the gap of `refusedRun` stays.
-/
import LazyLayers.HandlerQueue
import LazyLayers.RedisSubscription

open Runs Tally HandlerQueue RedisEventBus

namespace RedisDeliveries

variable {ε : Type}

/-- `RedisEventBusOptions`, as far as they concern deliveries, and the event codec. -/
structure Settings (ε : Type) where
  handlerConcurrency : Option ℕ
  handlerMaxSize : Option ℕ
  handlerMaxBytes : Option ℕ
  concurrency_pos : ∀ n, handlerConcurrency = some n → 0 < n
  encodeInvalidationEvent : ε → Except Thrown (List UInt8)
  decodeInvalidationEvent : List UInt8 → Except Thrown (Option ε)

/-- The options with which `subscribe` makes its queue; no callback of the bus throws. -/
def Settings.options (s : Settings ε) : Options ε Empty where
  concurrency := s.handlerConcurrency
  maxSize := s.handlerMaxSize
  maxBytes := s.handlerMaxBytes
  concurrency_pos := s.concurrency_pos
  encodeInvalidationEvent := s.encodeInvalidationEvent
  decodeInvalidationEvent := s.decodeInvalidationEvent
  onOverflowThrows _ := none
  onIdleThrows := none
  settleThrows := nofun

/-- A subscribed bus: its queue, `needsReconciliation`, and the statuses emitted. -/
structure Bus (ε : Type) where
  queue : Queue ε Empty
  needsReconciliation : Bool
  statuses : List Status

/-- `subscribe` has made a queue and emitted `subscribed`. -/
def Bus.init : Bus ε := ⟨Queue.init, false, [.subscribed]⟩

/-- What `onError`, `onOverflow` and the decoder of `messageListener` do. -/
def Bus.gap (b : Bus ε) : Bus ε :=
  { b with needsReconciliation := true, statuses := b.statuses ++ [.error] }

/-- `onIdle`, on a subscribed bus. -/
def Bus.onIdle (b : Bus ε) : Bus ε :=
  if b.needsReconciliation then
    { b with needsReconciliation := false, statuses := b.statuses ++ [.subscribed] }
  else b

def Bus.notice (b : Bus ε) : Notice ε Empty → Bus ε
  | .error _ => b.gap
  | .overflow _ => b.gap
  | .decode _ false => b.gap
  | .idle => b.onIdle
  | _ => b

/-- The queue has made a turn. -/
def Bus.absorb (b : Bus ε) (r : Queue ε Empty × List (Notice ε Empty)) : Bus ε :=
  r.2.foldl Bus.notice { b with queue := r.1 }

inductive Event
  | message (content : List UInt8)
  | begin
  | finish (i : ℕ) (r : Except Thrown Unit)
  | release (i : ℕ)

/-- `messageListener` and the jobs of the queue. -/
def Event.action (s : Settings ε) : Event → Action ε Empty
  | .message content => .enqueueEncoded content s.decodeInvalidationEvent none
  | .begin => .begin
  | .finish i r => .finish i r
  | .release i => .release i

def Bus.step (s : Settings ε) (b : Bus ε) (e : Event) : Bus ε :=
  b.absorb (HandlerQueue.step s.options b.queue (e.action s))

/-- Nothing is pending and nothing active, callbacks included. -/
def Bus.Idle (b : Bus ε) : Prop := b.queue.pending = [] ∧ b.queue.active = 0

instance (b : Bus ε) : Decidable b.Idle := inferInstanceAs (Decidable (_ ∧ _))

/-- An idle bus has said `subscribed` after its latest gap. -/
def Bus.Reconciled (b : Bus ε) : Prop := b.Idle → b.statuses.getLast? ≠ some .error

instance (b : Bus ε) : Decidable b.Reconciled := inferInstanceAs (Decidable (_ → _))

/-- A queue with these settings takes the message when it is empty. -/
def Settings.Fits (s : Settings ε) (content : List UInt8) : Prop :=
  0 < s.options.maxSizeOf ∧ content.length ≤ s.options.maxBytesOf

/-- A message that finds the queue idle is one that fits. -/
def Unrefused (s : Settings ε) (b : Bus ε) (e : Event) : Prop :=
  ∀ content, e = .message content → b.Idle → s.Fits content

variable {s : Settings ε} {b : Bus ε} {q : Queue ε Empty} {o : Options ε Empty}
  {i : ℕ} {st l : List ℕ}

/-! ### Work that will end -/

/-- `drain` starts items but loses none. -/
theorem busy_drain (o : Options ε Empty) (l : List ℕ) (q : Queue ε Empty) :
    (Queue.drain o l q).active + (Queue.drain o l q).pending.length = q.active + l.length := by
  induction l generalizing q with
  | nil => rfl
  | cons i rest ih =>
    rw [Queue.drain]
    split
    · rw [ih]
      simp only [List.length_cons]
      omega
    · rfl

theorem not_idle_drain (hl : l ≠ []) :
    ¬ ((Queue.drain o l q).pending = [] ∧ (Queue.drain o l q).active = 0) := by
  rintro ⟨hpending, hactive⟩
  have hbusy := busy_drain o l q
  rw [hpending, hactive, List.length_nil] at hbusy
  have hlength := List.length_pos_iff.mpr hl
  omega

theorem closed_drain (o : Options ε Empty) (l : List ℕ) (q : Queue ε Empty) :
    (Queue.drain o l q).closed = q.closed := by
  induction l generalizing q with
  | nil => rfl
  | cons i rest ih =>
    rw [Queue.drain]
    split
    · exact ih _
    · rfl

/-- An item with a place keeps the queue busy. -/
theorem active_pos (h : HandlerQueue.Inv o st q) (hphase : (q.item i).phase.isActive = true) :
    0 < q.active := by
  have hi : i < q.next := by
    by_contra hle
    rw [h.fresh i (not_lt.mp hle)] at hphase
    cases hphase
  have hone : (q.item i).active = 1 := by rw [Item.active, hphase, if_pos rfl]
  have hle := le_tally Item.active q.item hi
  rw [← h.active, hone] at hle
  exact hle

/-- An idle queue retains nothing. -/
theorem retainedBytes_idle (h : HandlerQueue.Inv o st q) (hpending : q.pending = [])
    (hactive : q.active = 0) : q.retainedBytes = 0 := by
  have hnone : ∀ i < q.next, (q.item i).activeBytes = (fun _ => 0) (q.item i) := by
    intro i _
    by_cases hphase : (q.item i).phase.isActive = true
    · exact absurd hactive (active_pos h hphase).ne'
    · rw [Item.activeBytes, if_neg hphase]
  rw [Queue.retainedBytes, h.activeBytes, h.pendingBytes, hpending, tally]
  simp only [List.map_nil, List.sum_nil, Nat.add_zero]
  exact Finset.sum_eq_zero fun i hi => hnone i (Finset.mem_range.mp hi)

/-! ### The invariant -/

/-- The last status tells whether a gap is open. -/
def Bus.Told (b : Bus ε) : Prop :=
  b.statuses.getLast? = some (if b.needsReconciliation then .error else .subscribed)

structure Inv (s : Settings ε) (b : Bus ε) : Prop where
  queue : ∃ st, HandlerQueue.Inv s.options st b.queue
  opened : b.queue.closed = false
  told : b.Told
  working : b.needsReconciliation = true → ¬ b.Idle

theorem inv_init (s : Settings ε) : Inv s (Bus.init : Bus ε) :=
  ⟨⟨[], HandlerQueue.inv_init _⟩, rfl, rfl, nofun⟩

theorem Inv.reconciled (h : Inv s b) : b.Reconciled := by
  intro hidle
  have hnone : b.needsReconciliation = false := by
    by_contra hneeds
    exact h.working (Bool.eq_true_of_not_eq_false hneeds) hidle
  rw [h.told, hnone]
  nofun

theorem told_gap (b : Bus ε) : b.gap.Told := List.getLast?_concat

theorem told_notice (h : b.Told) (x : Notice ε Empty) : (b.notice x).Told := by
  cases x with
  | error e => exact told_gap b
  | overflow d => exact told_gap b
  | decode i ok =>
    cases ok with
    | false => exact told_gap b
    | true => exact h
  | idle =>
    rw [Bus.notice, Bus.onIdle]
    split
    · exact List.getLast?_concat
    · exact h
  | handle i event => exact h
  | settle i k e => exact h

theorem queue_notice (b : Bus ε) (x : Notice ε Empty) : (b.notice x).queue = b.queue := by
  cases x with
  | decode i ok => cases ok <;> rfl
  | idle =>
    rw [Bus.notice, Bus.onIdle]
    split <;> rfl
  | _ => rfl

theorem told_absorb (h : b.Told) (r : Queue ε Empty × List (Notice ε Empty)) :
    (b.absorb r).Told ∧ (b.absorb r).queue = r.1 := by
  obtain ⟨q, ns⟩ := r
  rw [Bus.absorb]
  have hstart : Bus.Told { b with queue := q } := h
  generalize hc : ({ b with queue := q } : Bus ε) = c at hstart
  have hqueue : c.queue = q := by rw [← hc]
  clear hc
  induction ns generalizing c with
  | nil => exact ⟨hstart, hqueue⟩
  | cons x ns ih => exact ih _ (told_notice hstart x) ((queue_notice c x).trans hqueue)

/-- A turn after which the queue is still busy keeps the invariant, whatever it says. -/
theorem inv_absorb (h : Inv s b) {r : Queue ε Empty × List (Notice ε Empty)}
    (hr : ∃ st, HandlerQueue.Inv s.options st r.1) (hopened : r.1.closed = false)
    (hbusy : ¬ (r.1.pending = [] ∧ r.1.active = 0)) : Inv s (b.absorb r) := by
  obtain ⟨htold, hqueue⟩ := told_absorb h.told r
  rw [← hqueue] at hr hopened hbusy
  exact ⟨hr, hopened, htold, fun _ => hbusy⟩

/-! ### The turns -/

theorem inv_begin (h : Inv s b) : Inv s (b.step s .begin) := by
  obtain ⟨st, hq⟩ := h.queue
  show Inv s (b.absorb b.queue.begin)
  rcases hjobs : b.queue.jobs with _ | ⟨i, rest⟩
  · have hbegin : b.queue.begin = (b.queue, []) := by rw [Queue.begin, hjobs]
    rw [hbegin]
    exact h
  · obtain ⟨-, hphase⟩ := (hq.jobs i).mp (by rw [hjobs]; exact List.mem_cons_self)
    have hactive : b.queue.begin.1.active = b.queue.active ∧
        b.queue.begin.1.closed = b.queue.closed := by
      rw [Queue.begin, hjobs]
      simp only
      split <;> exact ⟨rfl, rfl⟩
    have hpos := active_pos hq (i := i) (by rw [hphase]; rfl)
    refine inv_absorb h ⟨_, HandlerQueue.inv_begin hq⟩ (hactive.2.trans h.opened) fun hidle => ?_
    rw [hactive.1] at hidle
    omega

theorem inv_finish (h : Inv s b) (i : ℕ) (r : Except Thrown Unit) :
    Inv s (b.step s (.finish i r)) := by
  obtain ⟨st, hq⟩ := h.queue
  show Inv s (b.absorb (b.queue.finish s.options i r))
  by_cases hphase : (b.queue.item i).phase.isActive = true
  · have hpos := active_pos hq hphase
    have hactive : (b.queue.finish s.options i r).1.active = b.queue.active ∧
        (b.queue.finish s.options i r).1.closed = b.queue.closed := by
      unfold Queue.finish
      split <;> exact ⟨rfl, rfl⟩
    refine inv_absorb h ⟨_, HandlerQueue.inv_finish hq i r⟩ (hactive.2.trans h.opened)
      fun hidle => ?_
    rw [hactive.1] at hidle
    omega
  · have hfinish : b.queue.finish s.options i r = (b.queue, []) := by
      unfold Queue.finish
      split
      · next hrunning => exact absurd (by rw [hrunning]; rfl) hphase
      · next hrunning => exact absurd (by rw [hrunning]; rfl) hphase
      · next hbroken => exact absurd (by rw [hbroken]; rfl) hphase
      · rfl
    rw [hfinish]
    exact h

/-- The place of the last item is given back: the queue is idle, and the gap is closed. -/
theorem inv_release (h : Inv s b) (i : ℕ) : Inv s (b.step s (.release i)) := by
  obtain ⟨st, hq⟩ := h.queue
  have hinv := HandlerQueue.inv_release hq i
  show Inv s (b.absorb (b.queue.release s.options i))
  revert hinv
  rw [Queue.release]
  split
  · generalize hr : Queue.drain s.options b.queue.pending { b.queue.setPhase i .released with
      active := b.queue.active - 1
      activeBytes := b.queue.activeBytes - (b.queue.item i).bytes } = r
    have hopened : r.closed = false := by
      rw [← hr, closed_drain]
      exact h.opened
    simp only
    split
    · intro hinv
      -- `onIdle` is called, and leaves no gap
      have hnone : (b.absorb (r, [.idle])).needsReconciliation = false := by
        show (Bus.onIdle _).needsReconciliation = false
        rw [Bus.onIdle]
        split
        · rfl
        · next hneeds => exact Bool.eq_false_of_not_eq_true hneeds
      obtain ⟨htold, hqueue⟩ := told_absorb h.told (r, [.idle])
      refine ⟨⟨st, ?_⟩, ?_, htold, fun hneeds => absurd (hnone.symm.trans hneeds) nofun⟩
      · show HandlerQueue.Inv s.options st (b.absorb (r, [.idle])).queue
        rw [hqueue]
        exact hinv
      · show (b.absorb (r, [.idle])).queue.closed = false
        rw [hqueue]
        exact hopened
    · next hbusy =>
      intro hinv
      refine inv_absorb h ⟨st, hinv⟩ hopened fun hidle => hbusy ⟨hidle.2, hidle.1, ?_⟩
      rw [hopened]
      nofun
  · intro _
    exact h

theorem inv_message (h : Inv s b) {content : List UInt8}
    (hfits : Unrefused s b (.message content)) : Inv s (b.step s (.message content)) := by
  obtain ⟨st, hq⟩ := h.queue
  have hinv := inv_enqueueItem (o := s.options) hq
    ⟨content, s.decodeInvalidationEvent, none, .refused⟩
  show Inv s (b.absorb (b.queue.enqueueItem s.options
    ⟨content, s.decodeInvalidationEvent, none, .refused⟩).2)
  revert hinv
  simp only [Queue.enqueueItem, h.opened, Bool.false_eq_true, if_false]
  split
  · next hrefused =>
    intro hinv
    refine inv_absorb h ⟨st, hinv⟩ rfl fun hidle => ?_
    -- an idle queue retains nothing, so it would have taken the message
    obtain ⟨hsize, hbytes⟩ := hfits content rfl hidle
    have hempty := retainedBytes_idle hq hidle.1 hidle.2
    rcases hrefused with hfull | hlarge
    · rw [hidle.1, hidle.2] at hfull
      exact absurd hfull (not_le.mpr hsize)
    · rw [hempty, Nat.zero_add] at hlarge
      exact absurd hbytes (not_le.mpr hlarge)
  · intro hinv
    -- the new item is pending or has a place
    refine inv_absorb h ⟨st, hinv⟩ ?_ (not_idle_drain (List.append_ne_nil_of_right_ne_nil _
      (List.cons_ne_nil _ _)))
    rw [closed_drain]

theorem inv_step (h : Inv s b) (e : Event) (hfits : Unrefused s b e) : Inv s (b.step s e) := by
  cases e with
  | message content => exact inv_message h hfits
  | begin => exact inv_begin h
  | finish i r => exact inv_finish h i r
  | release i => exact inv_release h i

/-- An idle queue that refuses a message stays idle, and the gap stays open. -/
theorem unrefused (h : Inv s b) {e : Event} (hreconciled : (b.step s e).Reconciled) :
    Unrefused s b e := by
  rintro content rfl hidle
  by_contra hnot
  have hrefused : s.options.maxSizeOf ≤ b.queue.pending.length + b.queue.active ∨
      s.options.maxBytesOf < b.queue.retainedBytes + content.length := by
    rcases not_and_or.mp hnot with hsize | hbytes
    · exact Or.inl ((not_lt.mp hsize).trans (Nat.zero_le _))
    · exact Or.inr ((not_le.mp hbytes).trans_le (Nat.le_add_left _ _))
  revert hreconciled
  show ¬ (b.absorb (b.queue.enqueueItem s.options
    ⟨content, s.decodeInvalidationEvent, none, .refused⟩).2).Reconciled
  simp only [Queue.enqueueItem, h.opened, Bool.false_eq_true, if_false]
  split
  · exact fun hreconciled => hreconciled hidle List.getLast?_concat
  · next haccepted => exact absurd hrefused haccepted

/-! ### Runs -/

/-- The bus after the first `n` events. -/
def stateOf (s : Settings ε) (events : List Event) (n : ℕ) : Bus ε :=
  stateAt (Bus.step s) Bus.init events n

/-- Every gap is reconciled exactly if no idle queue refuses a message. -/
theorem reconciled_iff (s : Settings ε) (events : List Event) :
    (∀ n, (stateOf s events n).Reconciled) ↔
      ∀ n e, events[n]? = some e → Unrefused s (stateOf s events n) e := by
  constructor
  · intro hreconciled n e he
    have hinv : ∀ n, Inv s (stateOf s events n) := by
      refine invariant_along (inv_init s) fun n e he h => ?_
      have hnext := hreconciled (n + 1)
      rw [stateOf, stateAt_succ he] at hnext
      exact inv_step h e (unrefused h hnext)
    have hnext := hreconciled (n + 1)
    rw [stateOf, stateAt_succ he] at hnext
    exact unrefused (hinv n) hnext
  · intro hfits n
    have hinv : ∀ n, Inv s (stateOf s events n) :=
      invariant_along (inv_init s) fun n e he h => inv_step h e (hfits n e he)
    exact (hinv n).reconciled

/-- A queue of one byte. -/
def smallSettings : Settings Unit where
  handlerConcurrency := none
  handlerMaxSize := none
  handlerMaxBytes := some 1
  concurrency_pos := nofun
  encodeInvalidationEvent _ := .ok [0]
  decodeInvalidationEvent _ := .ok (some ())

/-- A message of two bytes reaches the idle queue. -/
def refusedRun : List Event := [.message [0, 0]]

theorem refusedRun_unreconciled :
    ¬ ∀ n, (stateOf smallSettings refusedRun n).Reconciled := fun h => by
  exact absurd (h 1) (by decide)

end RedisDeliveries
