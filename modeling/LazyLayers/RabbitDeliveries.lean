/-
Acknowledgement of deliveries (`rabbitmqEventBus.ts`).

A consumer callback belongs to the channel on which it was registered.  It hands a
delivery to the handler queue with a callback that acknowledges on that channel, or
rejects the delivery itself when the queue does not take it.  Handler queues come
and go with `disconnect` and `subscribe`; what an old queue still has in its handler
ends there.

The broker never uses a delivery tag twice on one channel.

* `Bus.step` — a consumer callback, a loss of the transport, `subscribe`,
  `disconnect`, and the jobs of every queue that was ever made;
* `Inv` — every delivery belongs to one item of one queue at most, and has been
  acknowledged if that item has ended;
* `settled_once` — the contract of the queue, and of the deliveries.
-/
import LazyLayers.HandlerQueue

open Runs HandlerQueue

namespace RabbitMQEventBus

variable {ε : Type}

/-- What the consumer callback captures: its channel, and the tag of the message. -/
structure Delivery where
  channel : ℕ
  deliveryTag : ℕ
  deriving DecidableEq, Repr

/-- A call of `channel.ack` or `channel.nack` with the tag. -/
structure Settlement where
  delivery : Delivery
  ack : Bool
  deriving DecidableEq, Repr

/-- The queues made so far, the one in `this.handlerQueue`, the deliveries received,
and the calls on their channels. -/
structure Bus (ε : Type) where
  queues : ℕ → Queue ε Delivery
  made : ℕ
  handlerQueue : Option ℕ
  delivered : List Delivery
  settlements : List Settlement

/-- The constructor makes the first queue. -/
def Bus.init : Bus ε := ⟨fun _ => Queue.init, 1, some 0, [], []⟩

/-- `settle(channel, deliveryTag, error)` -/
def settle (d : Delivery) (error : Thrown) : Settlement := ⟨d, error.isNone⟩

/-- The calls of `settle` among the notices of a queue. -/
def settlementsOf (ns : List (Notice ε Delivery)) : List Settlement :=
  ns.filterMap fun
    | .settle _ d error => some (settle d error)
    | _ => none

/-- Queue `k` has made a turn. -/
def Bus.absorb (b : Bus ε) (k : ℕ) (r : Queue ε Delivery × List (Notice ε Delivery)) : Bus ε :=
  { b with
    queues := Function.update b.queues k r.1
    settlements := b.settlements ++ settlementsOf r.2 }

/-- The job of an item, the continuation of its handler, or its `finally`. -/
inductive Job
  | begin
  | finish (i : ℕ) (r : Except Thrown Unit)
  | release (i : ℕ)

def Job.action : Job → Action ε Delivery
  | .begin => .begin
  | .finish i r => .finish i r
  | .release i => .release i

inductive Event
  | message (d : Delivery) (content : List UInt8)
  /-- A null delivery, or a channel or the connection is closed. -/
  | lost
  | subscribe
  | disconnect
  | job (k : ℕ) (j : Job)

/-- The consumer callback for a message. -/
def Bus.consume (o : Options ε Delivery) (b : Bus ε) (d : Delivery) (content : List UInt8) :
    Bus ε :=
  let t := { b with delivered := b.delivered ++ [d] }
  match b.handlerQueue with
  | none =>
    { t with settlements := b.settlements ++ [settle d (some "RabbitMQ delivery rejected")] }
  | some k =>
    let r := (b.queues k).enqueueEncoded o content o.decodeInvalidationEvent (some d)
    let u := t.absorb k r.2
    if r.1 then u
    else { u with settlements :=
      u.settlements ++ [settle d (some "RabbitMQ delivery rejected")] }

def Bus.step (o : Options ε Delivery) (b : Bus ε) : Event → Bus ε
  | .message d content => if d ∈ b.delivered then b else b.consume o d content
  | .lost =>
    match b.handlerQueue with
    | none => b
    | some k => b.absorb k ((b.queues k).discardPending o)
  | .subscribe =>
    match b.handlerQueue with
    | none => { b with
        queues := Function.update b.queues b.made Queue.init
        handlerQueue := some b.made, made := b.made + 1 }
    | some _ => b
  | .disconnect =>
    match b.handlerQueue with
    | none => b
    | some k => { b.absorb k ((b.queues k).close o none) with handlerQueue := none }
  | .job k j => if k < b.made then b.absorb k (HandlerQueue.step o (b.queues k) j.action) else b

variable {o : Options ε Delivery} {b : Bus ε} {q : Queue ε Delivery} {st : List ℕ}
  {d : Delivery} {i k : ℕ}

/-! ### Settlements of one delivery -/

/-- How often a delivery has been acknowledged or rejected. -/
def times (ss : List Settlement) (d : Delivery) : ℕ := ss.countP fun x => x.delivery = d

theorem times_append (ss ts : List Settlement) (d : Delivery) :
    times (ss ++ ts) d = times ss d + times ts d :=
  List.countP_append ..

theorem times_single (d d' : Delivery) (e : Thrown) :
    times [settle d e] d' = if d = d' then 1 else 0 := by
  simp [times, settle, List.countP_cons]

/-- What item `i` of the queue has been told is what its delivery has been told. -/
theorem times_settlementsOf {ns : List (Notice ε Delivery)}
    (hcallback : ∀ j d' e, Notice.settle j d' e ∈ ns → (q.item j).settle = some d')
    (hunique : ∀ j, (q.item j).settle = some d → j = i) (hi : (q.item i).settle = some d) :
    times (settlementsOf ns) d = answers ns i := by
  rw [times, settlementsOf, List.countP_filterMap, answers]
  refine List.countP_congr fun x hx => ?_
  cases x with
  | settle j d' e =>
    have hj := hcallback j d' e hx
    show decide (d' = d) = true ↔ decide (j = i) = true
    rw [decide_eq_true_iff, decide_eq_true_iff]
    constructor
    · rintro rfl
      exact hunique j hj
    · rintro rfl
      exact Option.some_inj.mp (hj.symm.trans hi)
  | _ => constructor <;> (intro h; cases h)

/-- A queue that does not own a delivery says nothing about it. -/
theorem times_settlementsOf_eq_zero {ns : List (Notice ε Delivery)}
    (hcallback : ∀ j d' e, Notice.settle j d' e ∈ ns → (q.item j).settle = some d')
    (hnone : ∀ j, (q.item j).settle ≠ some d) : times (settlementsOf ns) d = 0 := by
  rw [times, settlementsOf, List.countP_filterMap, List.countP_eq_zero]
  intro x hx
  cases x with
  | settle j d' e =>
    have hj := hcallback j d' e hx
    have hne : d' ≠ d := by
      rintro rfl
      exact hnone j hj
    simpa [settle] using hne
  | _ =>
    intro h
    cases h

/-! ### The invariant -/

/-- How often the delivery of an item should have been told: once if the queue refused
the item, or else as often as its callback is due. -/
def told (x : Item ε Delivery) : ℕ := (if x.phase = .refused then 1 else 0) + x.due

structure Inv (o : Options ε Delivery) (b : Bus ε) : Prop where
  queues : ∀ k, ∃ st, HandlerQueue.Inv o st (b.queues k)
  current : ∀ k, b.handlerQueue = some k → k < b.made
  fresh : ∀ k, b.made ≤ k → b.queues k = Queue.init
  owner : ∀ k i d, ((b.queues k).item i).settle = some d → d ∈ b.delivered
  unique : ∀ k i k' i' d, ((b.queues k).item i).settle = some d →
    ((b.queues k').item i').settle = some d → k = k' ∧ i = i'
  owned : ∀ k i d, ((b.queues k).item i).settle = some d →
    times b.settlements d = told ((b.queues k).item i)
  unowned : ∀ d, (∀ k i, ((b.queues k).item i).settle ≠ some d) →
    times b.settlements d = if d ∈ b.delivered then 1 else 0

theorem inv_init (o : Options ε Delivery) : Inv o (Bus.init : Bus ε) where
  queues _ := ⟨[], HandlerQueue.inv_init o⟩
  current k hk := by
    obtain rfl := Option.some_inj.mp hk
    exact Nat.one_pos
  fresh _ _ := rfl
  owner _ _ _ h := nomatch h
  unique _ _ _ _ _ h := nomatch h
  owned _ _ _ h := nomatch h
  unowned _ _ := rfl

theorem queues_absorb_self (b : Bus ε) (k : ℕ)
    (r : Queue ε Delivery × List (Notice ε Delivery)) : (b.absorb k r).queues k = r.1 :=
  Function.update_self ..

theorem queues_absorb_of_ne (b : Bus ε) (r : Queue ε Delivery × List (Notice ε Delivery))
    {k k' : ℕ} (h : k' ≠ k) : (b.absorb k r).queues k' = b.queues k' :=
  Function.update_of_ne h ..

/-- A turn of a queue that takes no new item. -/
theorem Inv.absorb (h : Inv o b) (hk : k < b.made) {a : Action ε Delivery}
    (ha : a.enters = false) : Inv o (b.absorb k (HandlerQueue.step o (b.queues k) a)) := by
  obtain ⟨st, hq⟩ := h.queues k
  have hcard := (card_turn hq ha).2
  have hsettle : ∀ k' i, (((b.absorb k (HandlerQueue.step o (b.queues k) a)).queues k').item
      i).settle = ((b.queues k').item i).settle := by
    intro k' i
    by_cases hkk : k' = k
    · subst hkk
      rw [queues_absorb_self]
      exact congrArg Prod.fst (hcard i)
    · rw [queues_absorb_of_ne b _ hkk]
  have htimes : ∀ d, times (b.absorb k (HandlerQueue.step o (b.queues k) a)).settlements d =
      times b.settlements d +
        times (settlementsOf (HandlerQueue.step o (b.queues k) a).2) d :=
    fun d => times_append ..
  have hcallback : ∀ j d' e, Notice.settle j d' e ∈ (HandlerQueue.step o (b.queues k) a).2 →
      ((b.queues k).item j).settle = some d' := fun j d' e hmem => of_mem_step hmem
  refine ⟨fun k' => ?_, h.current, fun k' hk' => ?_, fun k' i d hd => ?_,
    fun k' i k'' i' d hd hd' => ?_, fun k' i d hd => ?_, fun d hd => ?_⟩
  · by_cases hkk : k' = k
    · subst hkk
      rw [queues_absorb_self]
      exact ⟨_, inv_step hq a⟩
    · rw [queues_absorb_of_ne b _ hkk]
      exact h.queues k'
  · have hk' : b.made ≤ k' := hk'
    rw [queues_absorb_of_ne b _ (by omega)]
    exact h.fresh k' hk'
  · rw [hsettle] at hd
    exact h.owner k' i d hd
  · rw [hsettle] at hd hd'
    exact h.unique k' i k'' i' d hd hd'
  · rw [hsettle] at hd
    rw [htimes, h.owned k' i d hd]
    by_cases hkk : k' = k
    · subst hkk
      have hanswers := answers_step hq a i
      have hrefused := congrArg Prod.snd (hcard i)
      simp only [Item.card, decide_eq_decide] at hrefused
      rw [queues_absorb_self, times_settlementsOf hcallback
        (fun j hj => (h.unique k' j k' i d hj hd).2) hd, told, told]
      simp only [hrefused]
      omega
    · rw [queues_absorb_of_ne b _ hkk, times_settlementsOf_eq_zero hcallback
        fun j hj => hkk (h.unique k' i k j d hd hj).1, Nat.add_zero]
  · have hold : ∀ k' i, ((b.queues k').item i).settle ≠ some d := fun k' i => by
      rw [← hsettle]
      exact hd k' i
    rw [htimes, h.unowned d hold, times_settlementsOf_eq_zero hcallback (hold k), Nat.add_zero]
    rfl

/-- A delivery that nobody has taken or rejected before. -/
theorem Inv.new (h : Inv o b) (hd : d ∉ b.delivered) (k i : ℕ) :
    ((b.queues k).item i).settle ≠ some d :=
  fun hsettle => hd (h.owner k i d hsettle)

theorem inv_reject (h : Inv o b) (hd : d ∉ b.delivered) :
    Inv o { b with
      delivered := b.delivered ++ [d]
      settlements := b.settlements ++ [settle d (some "RabbitMQ delivery rejected")] } where
  queues := h.queues
  current := h.current
  fresh := h.fresh
  owner k i d' hd' := List.mem_append_left _ (h.owner k i d' hd')
  unique := h.unique
  owned k i d' hd' := by
    have hne : d ≠ d' := fun heq => h.new hd k i (heq ▸ hd')
    show times (b.settlements ++ _) d' = _
    rw [times_append, times_single, if_neg hne, h.owned k i d' hd', Nat.add_zero]
  unowned d' hd' := by
    show times (b.settlements ++ _) d' = if d' ∈ b.delivered ++ [d] then 1 else 0
    rw [times_append, times_single, h.unowned d' hd']
    by_cases heq : d = d'
    · subst heq
      simp [hd]
    · simp [heq, Ne.symm heq]

/-- The queue takes the delivery, or refuses it and the bus rejects it. -/
theorem inv_offer (h : Inv o b) (hd : d ∉ b.delivered) (hk : k < b.made)
    (content : List UInt8) (ss : List Settlement)
    {r : Bool × Queue ε Delivery × List (Notice ε Delivery)}
    (hr : r = (b.queues k).enqueueEncoded o content o.decodeInvalidationEvent (some d))
    (hss : ∀ d', times ss d' = times b.settlements d' + if r.1 = false ∧ d = d' then 1 else 0) :
    Inv o { b with
      queues := Function.update b.queues k r.2.1
      delivered := b.delivered ++ [d]
      settlements := ss } := by
  obtain ⟨st, hq⟩ := h.queues k
  have hinv : HandlerQueue.Inv o st r.2.1 := by
    rw [hr]
    exact inv_enqueueItem hq _
  obtain ⟨hnext, hcard, hold⟩ := card_enqueueItem (o := o) hq
    ⟨content, o.decodeInvalidationEvent, some d, .refused⟩
  have hanswers : ∀ j, ((b.queues k).item j).due = (r.2.1.item j).due := by
    intro j
    have hstep := answers_enqueueItem (o := o) hq
      ⟨content, o.decodeInvalidationEvent, some d, .refused⟩ j
    have hnone : answers ((b.queues k).enqueueItem o
        ⟨content, o.decodeInvalidationEvent, some d, .refused⟩).2.2 j = 0 := by
      rw [answers, List.countP_eq_zero]
      intro x hx
      cases x with
      | settle i d' e => exact absurd hx not_mem_enqueueItem
      | _ =>
        intro h
        cases h
    rw [hnone, Nat.zero_add] at hstep
    rw [hr]
    exact hstep
  have hother : ∀ k' i, (k' ≠ k ∨ i ≠ (b.queues k).next) →
      ((Function.update b.queues k r.2.1 k').item i).settle = ((b.queues k').item i).settle ∧
      told ((Function.update b.queues k r.2.1 k').item i) = told ((b.queues k').item i) := by
    intro k' i hne
    by_cases hkk : k' = k
    · subst hkk
      have hi := hne.resolve_left (fun hk => hk rfl)
      have hc : (r.2.1.item i).card = ((b.queues k').item i).card := by
        rcases Nat.lt_or_gt_of_ne hi with hlt | hgt
        · rw [hr]
          exact hold i hlt
        · rw [hinv.fresh i (by rw [hr]; exact hnext.le.trans hgt), hq.fresh i hgt.le]
      have hrefused := congrArg Prod.snd hc
      simp only [Item.card, decide_eq_decide] at hrefused
      rw [Function.update_self, told, told]
      simp only [hrefused, hanswers i]
      exact ⟨congrArg Prod.fst hc, trivial⟩
    · rw [Function.update_of_ne hkk]
      exact ⟨rfl, rfl⟩
  have hnew : ((Function.update b.queues k r.2.1 k).item (b.queues k).next).settle = some d := by
    rw [Function.update_self, hr]
    exact congrArg Prod.fst hcard
  -- whoever owns the delivery is the new item
  have hwho : ∀ k' i, ((Function.update b.queues k r.2.1 k').item i).settle = some d →
      k' = k ∧ i = (b.queues k).next := by
    intro k' i hsettle
    by_contra hnot
    have hne : k' ≠ k ∨ i ≠ (b.queues k).next := not_and_or.mp hnot
    exact h.new hd k' i ((hother k' i hne).1.symm.trans hsettle)
  have hsame : ∀ k' i d', ((Function.update b.queues k r.2.1 k').item i).settle = some d' →
      d' ≠ d → ((b.queues k').item i).settle = some d' ∧
        told ((Function.update b.queues k r.2.1 k').item i) = told ((b.queues k').item i) := by
    intro k' i d' hsettle hne
    have hplace : k' ≠ k ∨ i ≠ (b.queues k).next := by
      by_contra hnot
      rw [not_or, not_not, not_not] at hnot
      obtain ⟨rfl, rfl⟩ := hnot
      exact hne (Option.some_inj.mp (hsettle.symm.trans hnew))
    exact ⟨(hother k' i hplace).1.symm.trans hsettle, (hother k' i hplace).2⟩
  refine ⟨fun k' => ?_, h.current, fun k' hk' => ?_, fun k' i d' hd' => ?_,
    fun k' i k'' i' d' h₁ h₂ => ?_, fun k' i d' hd' => ?_, fun d' hd' => ?_⟩
  · show ∃ st, HandlerQueue.Inv o st (Function.update b.queues k r.2.1 k')
    by_cases hkk : k' = k
    · subst hkk
      rw [Function.update_self]
      exact ⟨st, hinv⟩
    · rw [Function.update_of_ne hkk]
      exact h.queues k'
  · show Function.update b.queues k r.2.1 k' = Queue.init
    have hk' : b.made ≤ k' := hk'
    rw [Function.update_of_ne (by omega)]
    exact h.fresh k' hk'
  · by_cases hne : d' = d
    · exact List.mem_append_right _ (List.mem_singleton.mpr hne)
    · exact List.mem_append_left _ (h.owner k' i d' (hsame k' i d' hd' hne).1)
  · by_cases hne : d' = d
    · subst hne
      obtain ⟨rfl, rfl⟩ := hwho k' i h₁
      obtain ⟨rfl, rfl⟩ := hwho k'' i' h₂
      exact ⟨rfl, rfl⟩
    · exact h.unique k' i k'' i' d' (hsame k' i d' h₁ hne).1 (hsame k'' i' d' h₂ hne).1
  · show times ss d' = told ((Function.update b.queues k r.2.1 k').item i)
    by_cases hne : d' = d
    · subst hne
      obtain ⟨rfl, rfl⟩ := hwho k' i hd'
      have hdue : (r.2.1.item (b.queues k').next).due = 0 := by
        rw [← hanswers, hq.fresh _ le_rfl]
        rfl
      have hrefused : (r.2.1.item (b.queues k').next).phase = .refused ↔ r.1 = false := by
        have hsnd := congrArg Prod.snd hcard
        simp only [Item.card] at hsnd
        rw [hr]
        cases hb : ((b.queues k').enqueueEncoded o content o.decodeInvalidationEvent (some d')).1
        · exact ⟨fun _ => rfl, fun _ => of_decide_eq_true (hsnd.trans (by
            rw [Queue.enqueueEncoded] at hb; rw [hb]; rfl))⟩
        · exact ⟨fun hphase => absurd hphase (of_decide_eq_false (hsnd.trans (by
            rw [Queue.enqueueEncoded] at hb; rw [hb]; rfl))), fun hfalse => by cases hfalse⟩
      rw [hss, h.unowned d' (h.new hd), if_neg hd, Function.update_self, told, hdue]
      simp only [hrefused, and_true, Nat.zero_add, Nat.add_zero]
    · rw [hss, if_neg fun heq => hne heq.2.symm, Nat.add_zero, (hsame k' i d' hd' hne).2]
      exact h.owned k' i d' (hsame k' i d' hd' hne).1
  · have hne : d ≠ d' := by
      rintro rfl
      exact hd' k _ hnew
    have hold' : ∀ k' i, ((b.queues k').item i).settle ≠ some d' := by
      intro k' i hsettle
      by_cases hplace : k' ≠ k ∨ i ≠ (b.queues k).next
      · exact hd' k' i ((hother k' i hplace).1.trans hsettle)
      · rw [not_or, not_not, not_not] at hplace
        obtain ⟨rfl, rfl⟩ := hplace
        rw [hq.fresh _ le_rfl] at hsettle
        cases hsettle
    show times ss d' = if d' ∈ b.delivered ++ [d] then 1 else 0
    rw [hss, if_neg fun heq => hne heq.2, Nat.add_zero, h.unowned d' hold']
    simp [Ne.symm hne]

theorem inv_consume (h : Inv o b) (hd : d ∉ b.delivered) (content : List UInt8) :
    Inv o (b.consume o d content) := by
  unfold Bus.consume
  cases hcurrent : b.handlerQueue with
  | none =>
    have hreject := inv_reject h hd
    rw [hcurrent] at hreject
    exact hreject
  | some k =>
    have hk := h.current k hcurrent
    simp only
    generalize hr : (b.queues k).enqueueEncoded o content o.decodeInvalidationEvent (some d) = r
    have hsilent : ∀ d', times (settlementsOf r.2.2) d' = 0 := by
      intro d'
      rw [times, settlementsOf, List.countP_filterMap, List.countP_eq_zero]
      intro x hx
      cases x with
      | settle i d'' e =>
        rw [← hr] at hx
        exact absurd hx not_mem_enqueueItem
      | _ =>
        intro h
        cases h
    split
    · next haccepted =>
      have hoffer := inv_offer h hd hk content (b.settlements ++ settlementsOf r.2.2) hr.symm
        fun d' => by
          rw [times_append, hsilent, if_neg fun hne => Bool.noConfusion (haccepted.symm.trans hne.1)]
      rw [hcurrent] at hoffer
      exact hoffer
    · next hrefused =>
      have hoffer := inv_offer h hd hk content
        (b.settlements ++ settlementsOf r.2.2 ++
          [settle d (some "RabbitMQ delivery rejected")]) hr.symm
        fun d' => by
          rw [times_append, times_append, hsilent, times_single, Nat.add_zero]
          simp only [Bool.eq_false_of_not_eq_true hrefused, true_and]
      rw [hcurrent] at hoffer
      exact hoffer

theorem inv_step (h : Inv o b) (e : Event) : Inv o (b.step o e) := by
  cases e with
  | message d content =>
    rw [Bus.step]
    split
    · exact h
    · next hd => exact inv_consume h hd content
  | lost =>
    rw [Bus.step]
    cases hcurrent : b.handlerQueue with
    | none => exact h
    | some k => exact h.absorb (h.current k hcurrent) (a := .discardPending) rfl
  | subscribe =>
    rw [Bus.step]
    cases hcurrent : b.handlerQueue with
    | some k => exact h
    | none =>
      -- the new queue takes the place of one that was never used
      have hsame : Function.update b.queues b.made Queue.init = b.queues := by
        rw [← h.fresh b.made le_rfl]
        exact Function.update_eq_self ..
      simp only [hsame]
      refine ⟨h.queues, fun k hk => ?_, fun k hk => ?_, h.owner, h.unique, h.owned, h.unowned⟩
      · obtain rfl := Option.some_inj.mp hk
        exact Nat.lt_succ_self _
      · have hk : b.made + 1 ≤ k := hk
        exact h.fresh k (by omega)
  | disconnect =>
    rw [Bus.step]
    cases hcurrent : b.handlerQueue with
    | none => exact h
    | some k =>
      have habsorb := h.absorb (h.current k hcurrent) (a := .close none) rfl
      exact ⟨habsorb.queues, nofun, habsorb.fresh, habsorb.owner, habsorb.unique, habsorb.owned,
        habsorb.unowned⟩
  | job k j =>
    rw [Bus.step]
    split
    · next hk => exact h.absorb hk (a := j.action) (by cases j <;> rfl)
    · exact h

/-! ### Every run -/

/-- The bus after the first `n` events. -/
def stateOf (o : Options ε Delivery) (events : List Event) (n : ℕ) : Bus ε :=
  stateAt (Bus.step o) Bus.init events n

theorem inv_stateOf (o : Options ε Delivery) (events : List Event) (n : ℕ) :
    Inv o (stateOf o events n) :=
  invariant (inv_init o) (fun _ e h => inv_step h e) n

theorem told_le (x : Item ε Delivery) : told x ≤ 1 := by
  unfold told
  split
  · next hphase => simp [Item.due, hphase, Phase.hasEnded]
  · rw [Nat.zero_add]
    exact due_le x

/-- What the bus promises about the deliveries of every run. -/
structure Deliveries (o : Options ε Delivery) (events : List Event) : Prop where
  once : ∀ n d, times (stateOf o events n).settlements d ≤ 1
  /-- Only what was delivered is acknowledged, on the channel of the delivery. -/
  received : ∀ n, ∀ x ∈ (stateOf o events n).settlements,
    x.delivery ∈ (stateOf o events n).delivered
  /-- Delivery `d` is item `i` of queue `k`, and its handling has ended or was refused. -/
  ended : ∀ n k i d, (((stateOf o events n).queues k).item i).settle = some d →
    (((stateOf o events n).queues k).item i).phase = .refused ∨
      (((stateOf o events n).queues k).item i).phase.hasEnded = true →
    times (stateOf o events n).settlements d = 1
  /-- There was no queue to take the delivery. -/
  unqueued : ∀ n, ∀ d ∈ (stateOf o events n).delivered,
    (∀ k i, (((stateOf o events n).queues k).item i).settle ≠ some d) →
    times (stateOf o events n).settlements d = 1

theorem deliveries (o : Options ε Delivery) (events : List Event) : Deliveries o events := by
  have hinv := inv_stateOf o events
  have htimes : ∀ n d, times (stateOf o events n).settlements d ≤
      if d ∈ (stateOf o events n).delivered then 1 else 0 := by
    intro n d
    by_cases hd : ∃ k i, (((stateOf o events n).queues k).item i).settle = some d
    · obtain ⟨k, i, hsettle⟩ := hd
      rw [(hinv n).owned k i d hsettle, if_pos ((hinv n).owner k i d hsettle)]
      exact told_le _
    · exact ((hinv n).unowned d fun k i hsettle => hd ⟨k, i, hsettle⟩).le
  refine ⟨fun n d => (htimes n d).trans (by split <;> omega), fun n x hx => ?_,
    fun n k i d hsettle hended => ?_, fun n d hd hnone => ?_⟩
  · by_contra hnot
    have hzero := htimes n x.delivery
    rw [if_neg hnot, Nat.le_zero, times, List.countP_eq_zero] at hzero
    exact hzero x hx (decide_eq_true rfl)
  · rw [(hinv n).owned k i d hsettle, told]
    rcases hended with hphase | hphase
    · simp [hphase, Item.due, Phase.hasEnded]
    · have hne : (((stateOf o events n).queues k).item i).phase ≠ .refused := by
        intro hrefused
        rw [hrefused] at hphase
        cases hphase
      rw [if_neg hne, Nat.zero_add]
      exact due_eq_one hphase (by rw [hsettle]; rfl)
  · rw [(hinv n).unowned d hnone, if_pos hd]

/-- In every run of a handler queue the limits hold, `retainedBytes` is exact, items start
in the order in which they were accepted, and the callback of an accepted item is
called once, when its handler settles or the item is dropped, and that of a refused
item never.  Hence in every run of the bus a delivery is acknowledged or rejected at
most once, on its own channel, and has been when its handling has ended. -/
theorem settled_once :
    (∀ (ε κ : Type) (o : Options ε κ) (acts : List (Action ε κ)), Contract o acts) ∧
    ∀ (ε : Type) (o : Options ε Delivery) (events : List Event), Deliveries o events :=
  ⟨fun _ _ o acts => contract o acts, fun _ o events => deliveries o events⟩

end RabbitMQEventBus
