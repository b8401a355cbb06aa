/-
The handler queue of the event buses (`handlerQueue.ts`).

A bus puts every delivery into this queue.  The queue runs its handler on a bounded
number of items at a time, retains a bounded number of bytes, and tells whoever
delivered an item, once, how that item has ended.

A turn is one call of a method or one job of the event loop: a job that decodes an
item and calls the handler, the continuation of the handler's promise, and the
`finally` that gives the item's place back.  What a turn tells the outside (the
calls of `onError`, `onOverflow`, `onIdle`, of the handler and of the items' `settle`
callbacks) is the list of its notices.

* `step` — a turn;
* `Inv` — the accounting and the order of the items, preserved by `inv_step`;
* `answers_step` — a `settle` callback is called in exactly the turn in which its
  item ends;
* `queue_contract` — bounds, order and settlement in every run.
-/
import LazyLayers.Runs
import LazyLayers.Tally
import Mathlib.Data.List.Nodup

open Runs Tally

namespace HandlerQueue

/-! ### Items -/

/-- A value that was thrown; `none` is `undefined`. -/
abbrev Thrown := Option String

/-- Where an item stands: refused, in the queue, its job scheduled, in the handler,
not decodable, answered with its place still taken, gone, or dropped from the queue. -/
inductive Phase
  | refused
  | pending
  | scheduled
  | running
  | broken (error : Thrown)
  | settled
  | released
  | dropped
  deriving DecidableEq, Repr

def Phase.isPending : Phase → Bool
  | .pending => true
  | _ => false

/-- The item takes one of the places of the handler. -/
def Phase.isActive : Phase → Bool
  | .scheduled => true
  | .running => true
  | .broken _ => true
  | .settled => true
  | _ => false

/-- The item has ended: its handler has settled, or it was dropped. -/
def Phase.hasEnded : Phase → Bool
  | .settled => true
  | .released => true
  | .dropped => true
  | _ => false

/-- `PendingEvent`; `settle` is what its callback was made from. -/
structure Item (ε κ : Type) where
  encoded : List UInt8
  decode : List UInt8 → Except Thrown (Option ε)
  settle : Option κ
  phase : Phase

def Item.bytes {ε κ : Type} (x : Item ε κ) : ℕ := x.encoded.length

def Item.active {ε κ : Type} (x : Item ε κ) : ℕ := if x.phase.isActive then 1 else 0

def Item.activeBytes {ε κ : Type} (x : Item ε κ) : ℕ := if x.phase.isActive then x.bytes else 0

structure Overflow where
  bytes : ℕ
  maxBytes : ℕ
  maxSize : ℕ
  deriving DecidableEq, Repr

def defaultEventBusHandlerQueueMaxSize : ℕ := 10000

def defaultEventBusHandlerQueueMaxBytes : ℕ := 16 * 1024 * 1024

/-- The limits, the codec of the bus, and what the callbacks throw, if they do. -/
structure Options (ε κ : Type) where
  concurrency : Option ℕ
  maxSize : Option ℕ
  maxBytes : Option ℕ
  concurrency_pos : ∀ n, concurrency = some n → 0 < n
  encodeInvalidationEvent : ε → Except Thrown (List UInt8)
  decodeInvalidationEvent : List UInt8 → Except Thrown (Option ε)
  onOverflowThrows : Overflow → Option Thrown
  onIdleThrows : Option Thrown
  settleThrows : κ → Thrown → Option Thrown

variable {ε κ : Type}

/-- `getConcurrency()` -/
def Options.getConcurrency (o : Options ε κ) : ℕ := o.concurrency.getD 1

def Options.maxSizeOf (o : Options ε κ) : ℕ :=
  o.maxSize.getD defaultEventBusHandlerQueueMaxSize

def Options.maxBytesOf (o : Options ε κ) : ℕ :=
  o.maxBytes.getD defaultEventBusHandlerQueueMaxBytes

/-- What a turn tells the outside.  `decode i false` is a decoding of item `i` that gave
no event, `settle i k e` a call of its callback. -/
inductive Notice (ε κ : Type)
  | error (error : Thrown)
  | overflow (details : Overflow)
  | idle
  | decode (i : ℕ) (ok : Bool)
  | handle (i : ℕ) (event : ε)
  | settle (i : ℕ) (callback : κ) (error : Thrown)

/-! ### The queue -/

/-- The fields of the class; `jobs` are the items whose job is scheduled, in order. -/
structure Queue (ε κ : Type) where
  pending : List ℕ
  pendingBytes : ℕ
  active : ℕ
  activeBytes : ℕ
  dropped : ℕ
  closed : Bool
  jobs : List ℕ
  item : ℕ → Item ε κ
  next : ℕ

def blankItem : Item ε κ := ⟨[], fun _ => .ok none, none, .refused⟩

def Queue.init : Queue ε κ := ⟨[], 0, 0, 0, 0, false, [], fun _ => blankItem, 0⟩

/-- `retainedBytes` -/
def Queue.retainedBytes (q : Queue ε κ) : ℕ := q.activeBytes + q.pendingBytes

def Queue.setPhase (q : Queue ε κ) (i : ℕ) (p : Phase) : Queue ε κ :=
  { q with item := Function.update q.item i { q.item i with phase := p } }

/-- The loop of `drain`, on the items that are left. -/
def Queue.drain (o : Options ε κ) : List ℕ → Queue ε κ → Queue ε κ
  | [], q => { q with pending := [] }
  | i :: rest, q =>
    if q.active < o.getConcurrency then
      Queue.drain o rest { q.setPhase i .scheduled with
        pending := rest
        pendingBytes := q.pendingBytes - (q.item i).bytes
        active := q.active + 1
        activeBytes := q.activeBytes + (q.item i).bytes
        jobs := q.jobs ++ [i] }
    else { q with pending := i :: rest }

/-- `reportError(error)` for what a callback threw. -/
def report (thrown : Option Thrown) : List (Notice ε κ) := thrown.toList.map .error

/-- `settle(item, error)` -/
def Queue.settle (o : Options ε κ) (q : Queue ε κ) (i : ℕ) (error : Thrown) :
    List (Notice ε κ) :=
  match (q.item i).settle with
  | none => []
  | some k => .settle i k error :: report (o.settleThrows k error)

/-- `enqueueItem(item)`; the item becomes the next one. -/
def Queue.enqueueItem (o : Options ε κ) (q : Queue ε κ) (x : Item ε κ) :
    Bool × Queue ε κ × List (Notice ε κ) :=
  let i := q.next
  let r := { q with item := Function.update q.item i { x with phase := .refused }, next := i + 1 }
  if q.closed then (false, { r with dropped := q.dropped + 1 }, [])
  else if o.maxSizeOf ≤ q.pending.length + q.active ∨
      o.maxBytesOf < q.retainedBytes + x.bytes then
    (false, { r with dropped := q.dropped + 1 },
      .overflow ⟨x.bytes, o.maxBytesOf, o.maxSizeOf⟩ ::
        report (o.onOverflowThrows ⟨x.bytes, o.maxBytesOf, o.maxSizeOf⟩))
  else
    (true, Queue.drain o (q.pending ++ [i]) { q with
      item := Function.update q.item i { x with phase := .pending }
      next := i + 1
      pendingBytes := q.pendingBytes + x.bytes }, [])

/-- `enqueueEncoded(encoded, decode, settle)` -/
def Queue.enqueueEncoded (o : Options ε κ) (q : Queue ε κ) (encoded : List UInt8)
    (decode : List UInt8 → Except Thrown (Option ε)) (settle : Option κ) :
    Bool × Queue ε κ × List (Notice ε κ) :=
  q.enqueueItem o ⟨encoded, decode, settle, .refused⟩

/-- `enqueue(event, encoded)` -/
def Queue.enqueue (o : Options ε κ) (q : Queue ε κ) (event : ε)
    (encoded : Option (List UInt8)) : Bool × Queue ε κ × List (Notice ε κ) :=
  if q.closed then (false, { q with dropped := q.dropped + 1 }, [])
  else
    match encoded, o.encodeInvalidationEvent event with
    | some bytes, _ => q.enqueueEncoded o bytes o.decodeInvalidationEvent none
    | none, .ok bytes => q.enqueueEncoded o bytes o.decodeInvalidationEvent none
    | none, .error e => (false, { q with dropped := q.dropped + 1 }, [.error e])

/-- The oldest job: it decodes its item and calls the handler. -/
def Queue.begin (q : Queue ε κ) : Queue ε κ × List (Notice ε κ) :=
  match q.jobs with
  | [] => (q, [])
  | i :: rest =>
    match (q.item i).decode (q.item i).encoded with
    | .ok (some event) =>
      ({ q.setPhase i .running with jobs := rest }, [.decode i true, .handle i event])
    | .ok none =>
      ({ q.setPhase i (.broken (some "invalid invalidation event")) with jobs := rest },
        [.decode i false])
    | .error e => ({ q.setPhase i (.broken e) with jobs := rest }, [])

/-- The continuation of the handler's promise, or of the failed decoding. -/
def Queue.finish (o : Options ε κ) (q : Queue ε κ) (i : ℕ) (r : Except Thrown Unit) :
    Queue ε κ × List (Notice ε κ) :=
  match (q.item i).phase, r with
  | .running, .ok () => (q.setPhase i .settled, q.settle o i none)
  | .running, .error e => (q.setPhase i .settled, .error e :: q.settle o i e)
  | .broken e, _ => (q.setPhase i .settled, .error e :: q.settle o i e)
  | _, _ => (q, [])

/-- The `finally` of `drain`. -/
def Queue.release (o : Options ε κ) (q : Queue ε κ) (i : ℕ) : Queue ε κ × List (Notice ε κ) :=
  if (q.item i).phase = .settled then
    let r := Queue.drain o q.pending { q.setPhase i .released with
      active := q.active - 1, activeBytes := q.activeBytes - (q.item i).bytes }
    if r.active = 0 ∧ r.pending = [] ∧ ¬ r.closed then
      (r, .idle :: report o.onIdleThrows)
    else (r, [])
  else (q, [])

/-- The loops over the items that were pending, in `close` and in `discardPending`. -/
def Queue.dropAll (o : Options ε κ) (error : Thrown) (reported : Bool) :
    List ℕ → Queue ε κ → Queue ε κ × List (Notice ε κ)
  | [], q => (q, [])
  | i :: rest, q =>
    match Queue.dropAll o error reported rest (q.setPhase i .dropped) with
    | (r, ns) => (r, (if reported then [.error error] else []) ++ q.settle o i error ++ ns)

/-- `close(error)` -/
def Queue.close (o : Options ε κ) (q : Queue ε κ) (error : Option Thrown) :
    Queue ε κ × List (Notice ε κ) :=
  Queue.dropAll o (error.getD (some "event handler queue closed")) true q.pending
    { q with closed := true, pending := [], pendingBytes := 0 }

/-- `discardPending()` -/
def Queue.discardPending (o : Options ε κ) (q : Queue ε κ) : Queue ε κ × List (Notice ε κ) :=
  Queue.dropAll o (some "event transport disconnected") false q.pending
    { q with pending := [], pendingBytes := 0 }

inductive Action (ε κ : Type)
  | enqueue (event : ε) (encoded : Option (List UInt8))
  | enqueueEncoded (encoded : List UInt8) (decode : List UInt8 → Except Thrown (Option ε))
      (settle : Option κ)
  | begin
  | finish (i : ℕ) (r : Except Thrown Unit)
  | release (i : ℕ)
  | discardPending
  | close (error : Option Thrown)

/-- One turn: the queue afterwards, and its notices. -/
def step (o : Options ε κ) (q : Queue ε κ) : Action ε κ → Queue ε κ × List (Notice ε κ)
  | .enqueue event encoded => (q.enqueue o event encoded).2
  | .enqueueEncoded encoded decode settle => (q.enqueueEncoded o encoded decode settle).2
  | .begin => q.begin
  | .finish i r => q.finish o i r
  | .release i => q.release o i
  | .discardPending => q.discardPending o
  | .close error => q.close o error

variable {o : Options ε κ} {q r : Queue ε κ} {i j : ℕ} {st l rest : List ℕ}

/-! ### Phases -/

theorem item_setPhase_self (q : Queue ε κ) (i : ℕ) (p : Phase) :
    (q.setPhase i p).item i = { q.item i with phase := p } :=
  Function.update_self ..

theorem item_setPhase_of_ne (q : Queue ε κ) (p : Phase) (h : j ≠ i) :
    (q.setPhase i p).item j = q.item j :=
  Function.update_of_ne h ..

theorem bytes_setPhase (q : Queue ε κ) (i j : ℕ) (p : Phase) :
    ((q.setPhase i p).item j).bytes = (q.item j).bytes := by
  by_cases h : j = i
  · subst h
    rw [item_setPhase_self]
    rfl
  · rw [item_setPhase_of_ne q p h]

theorem tally_setPhase (f : Item ε κ → ℕ) (hi : i < q.next) (p : Phase) :
    tally f (q.setPhase i p).item q.next + f (q.item i) =
      tally f q.item q.next + f { q.item i with phase := p } :=
  tally_update f q.item hi _

/-- An item takes a place. -/
theorem tally_gain {p : Phase} (hi : i < q.next) (hold : (q.item i).phase.isActive = false)
    (hnew : p.isActive = true) :
    tally Item.active (q.setPhase i p).item q.next = tally Item.active q.item q.next + 1 ∧
    tally Item.activeBytes (q.setPhase i p).item q.next =
      tally Item.activeBytes q.item q.next + (q.item i).bytes := by
  have hactive := tally_setPhase Item.active hi p
  have hbytes := tally_setPhase Item.activeBytes hi p
  simp only [Item.active, Item.activeBytes, hold, hnew, Bool.false_eq_true, if_false, if_true,
    Nat.add_zero] at hactive hbytes
  exact ⟨hactive, hbytes⟩

/-- An item gives its place back. -/
theorem tally_lose {p : Phase} (hi : i < q.next) (hold : (q.item i).phase.isActive = true)
    (hnew : p.isActive = false) :
    tally Item.active (q.setPhase i p).item q.next + 1 = tally Item.active q.item q.next ∧
    tally Item.activeBytes (q.setPhase i p).item q.next + (q.item i).bytes =
      tally Item.activeBytes q.item q.next := by
  have hactive := tally_setPhase Item.active hi p
  have hbytes := tally_setPhase Item.activeBytes hi p
  simp only [Item.active, Item.activeBytes, hold, hnew, Bool.false_eq_true, if_false, if_true,
    Nat.add_zero] at hactive hbytes
  exact ⟨hactive, hbytes⟩

/-- An item keeps its place, or goes on without one. -/
theorem tally_keep {p : Phase} (hi : i < q.next)
    (hsame : (q.item i).phase.isActive = p.isActive) :
    tally Item.active (q.setPhase i p).item q.next = tally Item.active q.item q.next ∧
    tally Item.activeBytes (q.setPhase i p).item q.next =
      tally Item.activeBytes q.item q.next := by
  have hactive := tally_setPhase Item.active hi p
  have hbytes := tally_setPhase Item.activeBytes hi p
  simp only [Item.active, Item.activeBytes, hsame, Item.bytes] at hactive hbytes
  exact ⟨Nat.add_right_cancel hactive, Nat.add_right_cancel hbytes⟩

/-! ### The accounting -/

/-- The accounting of a queue whose pending items are `l`, after the jobs of the items
`st` have run.  Everything is in the order in which it was accepted. -/
structure Core (o : Options ε κ) (st l : List ℕ) (q : Queue ε κ) : Prop where
  active : q.active = tally Item.active q.item q.next
  activeBytes : q.activeBytes = tally Item.activeBytes q.item q.next
  pendingBytes : q.pendingBytes = (l.map fun i => (q.item i).bytes).sum
  pending : ∀ i, i ∈ l ↔ i < q.next ∧ (q.item i).phase = .pending
  jobs : ∀ i, i ∈ q.jobs ↔ i < q.next ∧ (q.item i).phase = .scheduled
  sorted : (st ++ q.jobs ++ l).Pairwise (· < ·)
  below : ∀ i ∈ st, i < q.next
  concurrency : q.active ≤ o.getConcurrency
  size : l.length + q.active ≤ o.maxSizeOf
  bytes : q.retainedBytes ≤ o.maxBytesOf
  fresh : ∀ i, q.next ≤ i → q.item i = blankItem

/-- The accounting does not depend on the field `pending`. -/
theorem Core.congr (h : Core o st l q) {m : List ℕ} : Core o st l { q with pending := m } :=
  ⟨h.active, h.activeBytes, h.pendingBytes, h.pending, h.jobs, h.sorted, h.below, h.concurrency,
    h.size, h.bytes, h.fresh⟩

theorem Core.nodup (h : Core o st l q) : l.Nodup :=
  (List.pairwise_append.mp h.sorted).2.1.imp fun hlt => hlt.ne

theorem Core.fresh_setPhase (h : Core o st l q) (hi : i < q.next) (p : Phase)
    (hj : q.next ≤ j) : (q.setPhase i p).item j = blankItem := by
  rw [item_setPhase_of_ne q p (by omega)]
  exact h.fresh j hj

/-- Who is pending, or scheduled, when one item changes its phase. -/
theorem phase_setPhase (q : Queue ε κ) (i j : ℕ) (p : Phase) :
    ((q.setPhase i p).item j).phase = if j = i then p else (q.item j).phase := by
  by_cases h : j = i
  · subst h
    rw [item_setPhase_self, if_pos rfl]
  · rw [item_setPhase_of_ne q p h, if_neg h]

/-- `drain` takes the oldest pending item. -/
theorem Core.start (h : Core o st (i :: rest) q) (hroom : q.active < o.getConcurrency) :
    Core o st rest { q.setPhase i .scheduled with
      pending := rest
      pendingBytes := q.pendingBytes - (q.item i).bytes
      active := q.active + 1
      activeBytes := q.activeBytes + (q.item i).bytes
      jobs := q.jobs ++ [i] } := by
  obtain ⟨hi, hphase⟩ := (h.pending i).mp List.mem_cons_self
  have hnot : i ∉ rest := (List.nodup_cons.mp h.nodup).1
  obtain ⟨hactive, hbytes⟩ := tally_gain (q := q) (p := .scheduled) hi (by rw [hphase]; rfl) rfl
  have hpending := h.pendingBytes
  rw [List.map_cons, List.sum_cons] at hpending
  have hsize := h.size
  have hretained := h.bytes
  rw [List.length_cons] at hsize
  refine ⟨?_, ?_, ?_, fun j => ?_, fun j => ?_, ?_, h.below, hroom, ?_, ?_,
    fun j hj => h.fresh_setPhase hi _ hj⟩
  · show q.active + 1 = _
    rw [h.active]
    exact hactive.symm
  · show q.activeBytes + _ = _
    rw [h.activeBytes]
    exact hbytes.symm
  · have hrest : (rest.map fun j => ((q.setPhase i .scheduled).item j).bytes) =
        rest.map fun j => (q.item j).bytes :=
      List.map_congr_left fun j _ => bytes_setPhase q i j _
    show q.pendingBytes - _ = (rest.map fun j => ((q.setPhase i .scheduled).item j).bytes).sum
    rw [hrest]
    omega
  · show j ∈ rest ↔ j < q.next ∧ ((q.setPhase i .scheduled).item j).phase = .pending
    rw [phase_setPhase]
    by_cases hj : j = i
    · subst hj
      simp [hnot]
    · rw [if_neg hj, ← h.pending j, List.mem_cons, or_iff_right hj]
  · show j ∈ q.jobs ++ [i] ↔ j < q.next ∧ ((q.setPhase i .scheduled).item j).phase = .scheduled
    rw [phase_setPhase, List.mem_append, List.mem_singleton, h.jobs j]
    by_cases hj : j = i
    · subst hj
      simp [hi]
    · rw [if_neg hj, or_iff_left hj]
  · show (st ++ (q.jobs ++ [i]) ++ rest).Pairwise (· < ·)
    simpa using h.sorted
  · show rest.length + (q.active + 1) ≤ o.maxSizeOf
    omega
  · show q.activeBytes + (q.item i).bytes + (q.pendingBytes - (q.item i).bytes) ≤ o.maxBytesOf
    unfold Queue.retainedBytes at hretained
    omega

theorem Core.drain (h : Core o st l q) :
    Core o st (Queue.drain o l q).pending (Queue.drain o l q) := by
  induction l generalizing q with
  | nil => exact h.congr
  | cons i rest ih =>
    rw [Queue.drain]
    split
    · next hroom => exact ih (h.start hroom)
    · exact h.congr

/-- A job has run. -/
theorem Core.begun (h : Core o st l q) (hjobs : q.jobs = i :: rest) {p : Phase}
    (hactive : p.isActive = true) (hnot : p ≠ .scheduled) :
    Core o (st ++ [i]) l { q.setPhase i p with jobs := rest } := by
  obtain ⟨hi, hphase⟩ := (h.jobs i).mp (by rw [hjobs]; exact List.mem_cons_self)
  have hsorted := h.sorted
  rw [hjobs] at hsorted
  have hrest : i ∉ rest := by
    have hpair := (List.pairwise_append.mp (List.pairwise_append.mp hsorted).1).2.1
    exact fun hmem => lt_irrefl i ((List.pairwise_cons.mp hpair).1 i hmem)
  obtain ⟨hact, hbytes⟩ := tally_keep (q := q) (p := p) hi (by rw [hphase, hactive]; rfl)
  have hpend : p ≠ .pending := by
    rintro rfl
    cases hactive
  refine ⟨h.active.trans hact.symm, h.activeBytes.trans hbytes.symm, ?_, fun j => ?_,
    fun j => ?_, ?_, fun j hj => ?_, h.concurrency, h.size, h.bytes,
    fun j hj => h.fresh_setPhase hi _ hj⟩
  · have hmap : (l.map fun j => ((q.setPhase i p).item j).bytes) =
        l.map fun j => (q.item j).bytes :=
      List.map_congr_left fun j _ => bytes_setPhase q i j _
    show q.pendingBytes = (l.map fun j => ((q.setPhase i p).item j).bytes).sum
    rw [hmap, h.pendingBytes]
  · show j ∈ l ↔ j < q.next ∧ ((q.setPhase i p).item j).phase = .pending
    rw [phase_setPhase, h.pending j]
    by_cases hj : j = i
    · subst hj
      simp [hphase, hpend]
    · rw [if_neg hj]
  · show j ∈ rest ↔ j < q.next ∧ ((q.setPhase i p).item j).phase = .scheduled
    rw [phase_setPhase]
    by_cases hj : j = i
    · subst hj
      simp [hrest, hnot]
    · have hmem := h.jobs j
      rw [hjobs, List.mem_cons, or_iff_right hj] at hmem
      rw [if_neg hj, hmem]
  · show (st ++ [i] ++ rest ++ l).Pairwise (· < ·)
    simpa using hsorted
  · rcases List.mem_append.mp hj with hj | hj
    · exact h.below j hj
    · rw [List.mem_singleton.mp hj]
      exact hi

/-- An item that is neither pending nor scheduled goes on to another such phase: the lists
stay, and so do the counters when they follow the places. -/
theorem Core.relabel (h : Core o st l q) (hi : i < q.next) {p : Phase} {a b : ℕ}
    (hold : (q.item i).phase ≠ .pending ∧ (q.item i).phase ≠ .scheduled)
    (hnew : p ≠ .pending ∧ p ≠ .scheduled)
    (ha : a = tally Item.active (q.setPhase i p).item q.next)
    (hb : b = tally Item.activeBytes (q.setPhase i p).item q.next)
    (hale : a ≤ q.active) (hble : b ≤ q.activeBytes) :
    Core o st l { q.setPhase i p with active := a, activeBytes := b } := by
  have hsize := h.size
  have hretained := h.bytes
  refine ⟨ha, hb, ?_, fun j => ?_, fun j => ?_, h.sorted, h.below, hale.trans h.concurrency, ?_,
    ?_, fun j hj => h.fresh_setPhase hi _ hj⟩
  · have hmap : (l.map fun j => ((q.setPhase i p).item j).bytes) =
        l.map fun j => (q.item j).bytes :=
      List.map_congr_left fun j _ => bytes_setPhase q i j _
    show q.pendingBytes = (l.map fun j => ((q.setPhase i p).item j).bytes).sum
    rw [hmap, h.pendingBytes]
  · show j ∈ l ↔ j < q.next ∧ ((q.setPhase i p).item j).phase = .pending
    rw [phase_setPhase, h.pending j]
    by_cases hj : j = i
    · subst hj
      simp [hold.1, hnew.1]
    · rw [if_neg hj]
  · show j ∈ q.jobs ↔ j < q.next ∧ ((q.setPhase i p).item j).phase = .scheduled
    rw [phase_setPhase, h.jobs j]
    by_cases hj : j = i
    · subst hj
      simp [hold.2, hnew.2]
    · rw [if_neg hj]
  · show l.length + a ≤ o.maxSizeOf
    omega
  · show b + q.pendingBytes ≤ o.maxBytesOf
    unfold Queue.retainedBytes at hretained
    omega

/-- An item that is not the blank one is known. -/
theorem Core.lt_next (h : Core o st l q) (hphase : (q.item i).phase ≠ .refused) : i < q.next := by
  by_contra hnot
  rw [h.fresh i (by omega)] at hphase
  exact hphase rfl

theorem Core.settled (h : Core o st l q)
    (hphase : (q.item i).phase = .running ∨ ∃ e, (q.item i).phase = .broken e) :
    Core o st l (q.setPhase i .settled) := by
  have hfacts : (q.item i).phase.isActive = true ∧ (q.item i).phase ≠ .refused ∧
      (q.item i).phase ≠ .pending ∧ (q.item i).phase ≠ .scheduled := by
    rcases hphase with hp | ⟨e, hp⟩ <;> rw [hp] <;> exact ⟨rfl, nofun, nofun, nofun⟩
  have hi := h.lt_next hfacts.2.1
  obtain ⟨hact, hbytes⟩ := tally_keep (q := q) (p := .settled) hi (by rw [hfacts.1]; rfl)
  exact h.relabel hi hfacts.2.2 ⟨nofun, nofun⟩ (h.active.trans hact.symm)
    (h.activeBytes.trans hbytes.symm) le_rfl le_rfl

theorem Core.released (h : Core o st l q) (hphase : (q.item i).phase = .settled) :
    Core o st l { q.setPhase i .released with
      active := q.active - 1, activeBytes := q.activeBytes - (q.item i).bytes } := by
  have hi := h.lt_next (i := i) (by rw [hphase]; nofun)
  obtain ⟨hact, hbytes⟩ := tally_lose (q := q) (p := .released) hi (by rw [hphase]; rfl) rfl
  refine h.relabel hi (by rw [hphase]; exact ⟨nofun, nofun⟩) ⟨nofun, nofun⟩ ?_ ?_
    (Nat.sub_le _ _) (Nat.sub_le _ _)
  · have := h.active
    omega
  · have := h.activeBytes
    omega

/-- The oldest pending item is dropped. -/
theorem Core.drop (h : Core o st (i :: rest) q) :
    Core o st rest { q.setPhase i .dropped with pendingBytes := q.pendingBytes - (q.item i).bytes } := by
  obtain ⟨hi, hphase⟩ := (h.pending i).mp List.mem_cons_self
  have hnot : i ∉ rest := (List.nodup_cons.mp h.nodup).1
  obtain ⟨hact, hbytes⟩ := tally_keep (q := q) (p := .dropped) hi (by rw [hphase]; rfl)
  have hpending := h.pendingBytes
  have hsize := h.size
  have hretained := h.bytes
  rw [List.map_cons, List.sum_cons] at hpending
  rw [List.length_cons] at hsize
  have hsorted := h.sorted
  refine ⟨h.active.trans hact.symm, h.activeBytes.trans hbytes.symm, ?_, fun j => ?_,
    fun j => ?_, ?_, h.below, h.concurrency, ?_, ?_, fun j hj => h.fresh_setPhase hi _ hj⟩
  · have hmap : (rest.map fun j => ((q.setPhase i .dropped).item j).bytes) =
        rest.map fun j => (q.item j).bytes :=
      List.map_congr_left fun j _ => bytes_setPhase q i j _
    show q.pendingBytes - _ = (rest.map fun j => ((q.setPhase i .dropped).item j).bytes).sum
    rw [hmap]
    omega
  · show j ∈ rest ↔ j < q.next ∧ ((q.setPhase i .dropped).item j).phase = .pending
    rw [phase_setPhase]
    by_cases hj : j = i
    · subst hj
      simp [hnot]
    · rw [if_neg hj, ← h.pending j, List.mem_cons, or_iff_right hj]
  · show j ∈ q.jobs ↔ j < q.next ∧ ((q.setPhase i .dropped).item j).phase = .scheduled
    rw [phase_setPhase, h.jobs j]
    by_cases hj : j = i
    · subst hj
      simp [hphase]
    · rw [if_neg hj]
  · exact hsorted.sublist ((List.sublist_cons_self i rest).append_left _)
  · show rest.length + q.active ≤ o.maxSizeOf
    omega
  · show q.activeBytes + (q.pendingBytes - (q.item i).bytes) ≤ o.maxBytesOf
    unfold Queue.retainedBytes at hretained
    omega

theorem dropAll_same (o : Options ε κ) (e : Thrown) (b : Bool) (l : List ℕ) (q : Queue ε κ) :
    (Queue.dropAll o e b l q).1 = { q with item := (Queue.dropAll o e b l q).1.item } := by
  induction l generalizing q with
  | nil => rfl
  | cons i rest ih =>
    rw [Queue.dropAll]
    exact ih (q.setPhase i .dropped)

/-- The bytes of the pending items may be given back before the items are dropped. -/
theorem Core.dropAll {e : Thrown} {b : Bool}
    (h : Core o st l { q with pendingBytes := (l.map fun i => (q.item i).bytes).sum })
    (hzero : q.pendingBytes = 0) : Core o st [] (Queue.dropAll o e b l q).1 := by
  induction l generalizing q with
  | nil =>
    show Core o st [] q
    have hq : { q with pendingBytes := (([] : List ℕ).map fun i => (q.item i).bytes).sum } = q := by
      rw [List.map_nil, List.sum_nil, ← hzero]
    rwa [hq] at h
  | cons i rest ih =>
    rw [Queue.dropAll]
    refine ih ?_ hzero
    have hmap : (rest.map fun j => ((q.setPhase i .dropped).item j).bytes) =
        rest.map fun j => (q.item j).bytes :=
      List.map_congr_left fun j _ => bytes_setPhase q i j _
    have hdrop := h.drop
    rw [hmap]
    simp only [List.map_cons, List.sum_cons, Nat.add_sub_cancel_left] at hdrop
    exact hdrop

/-- A new item takes no place yet. -/
theorem tally_enter (q : Queue ε κ) {x : Item ε κ} (hx : x.phase.isActive = false) :
    tally Item.active (Function.update q.item q.next x) (q.next + 1) =
      tally Item.active q.item q.next ∧
    tally Item.activeBytes (Function.update q.item q.next x) (q.next + 1) =
      tally Item.activeBytes q.item q.next := by
  rw [tally_alloc, tally_alloc]
  simp [Item.active, Item.activeBytes, hx]

/-- A new item changes nobody else's phase. -/
theorem phase_enter (q : Queue ε κ) {x : Item ε κ} {p : Phase} (hx : x.phase ≠ p) (j : ℕ) :
    j < q.next ∧ (q.item j).phase = p ↔
      j < q.next + 1 ∧ (Function.update q.item q.next x j).phase = p := by
  by_cases hj : j = q.next
  · subst hj
    simp [hx]
  · rw [Function.update_of_ne hj]
    exact ⟨fun ⟨h₁, h₂⟩ => ⟨by omega, h₂⟩, fun ⟨h₁, h₂⟩ => ⟨by omega, h₂⟩⟩

theorem Core.bytes_enter (h : Core o st l q) (x : Item ε κ) :
    (l.map fun j => (Function.update q.item q.next x j).bytes) =
      l.map fun j => (q.item j).bytes := by
  refine List.map_congr_left fun j hj => ?_
  rw [Function.update_of_ne ((h.pending j).mp hj).1.ne]

theorem Core.fresh_enter (h : Core o st l q) (x : Item ε κ) (hj : q.next + 1 ≤ j) :
    Function.update q.item q.next x j = blankItem := by
  rw [Function.update_of_ne (by omega)]
  exact h.fresh j (by omega)

/-- A refused item takes nothing. -/
theorem Core.refuse (h : Core o st l q) (x : Item ε κ) (d : ℕ) :
    Core o st l { q with
      item := Function.update q.item q.next { x with phase := .refused }
      next := q.next + 1, dropped := d } := by
  obtain ⟨hact, hbytes⟩ := tally_enter q (x := { x with phase := .refused }) rfl
  refine ⟨h.active.trans hact.symm, h.activeBytes.trans hbytes.symm, ?_, fun j => ?_,
    fun j => ?_, h.sorted, fun j hj => Nat.lt_succ_of_lt (h.below j hj), h.concurrency, h.size,
    h.bytes, fun j hj => h.fresh_enter _ hj⟩
  · show q.pendingBytes = (l.map fun j => (Function.update q.item q.next _ j).bytes).sum
    rw [h.bytes_enter, h.pendingBytes]
  · exact (h.pending j).trans
      (phase_enter q (x := { x with phase := .refused }) (p := .pending) nofun j)
  · exact (h.jobs j).trans
      (phase_enter q (x := { x with phase := .refused }) (p := .scheduled) nofun j)

/-- An accepted item is the last of the pending ones. -/
theorem Core.accept (h : Core o st l q) {x : Item ε κ} (hsize : l.length + q.active < o.maxSizeOf)
    (hfits : q.retainedBytes + x.bytes ≤ o.maxBytesOf) :
    Core o st (l ++ [q.next]) { q with
      item := Function.update q.item q.next { x with phase := .pending }
      next := q.next + 1, pendingBytes := q.pendingBytes + x.bytes } := by
  obtain ⟨hact, hbytes⟩ := tally_enter q (x := { x with phase := .pending }) rfl
  refine ⟨h.active.trans hact.symm, h.activeBytes.trans hbytes.symm, ?_, fun j => ?_,
    fun j => ?_, ?_, fun j hj => Nat.lt_succ_of_lt (h.below j hj), h.concurrency, ?_, ?_,
    fun j hj => h.fresh_enter _ hj⟩
  · show q.pendingBytes + x.bytes =
      ((l ++ [q.next]).map fun j => (Function.update q.item q.next _ j).bytes).sum
    rw [List.map_append, List.sum_append, h.bytes_enter, h.pendingBytes, List.map_singleton,
      List.sum_singleton, Function.update_self]
    rfl
  · show j ∈ l ++ [q.next] ↔ j < q.next + 1 ∧ (Function.update q.item q.next _ j).phase = .pending
    rw [List.mem_append, List.mem_singleton, h.pending j]
    by_cases hj : j = q.next
    · subst hj
      simp
    · rw [Function.update_of_ne hj, or_iff_left hj]
      exact ⟨fun ⟨h₁, h₂⟩ => ⟨by omega, h₂⟩, fun ⟨h₁, h₂⟩ => ⟨by omega, h₂⟩⟩
  · exact (h.jobs j).trans
      (phase_enter q (x := { x with phase := .pending }) (p := .scheduled) nofun j)
  · show (st ++ q.jobs ++ (l ++ [q.next])).Pairwise (· < ·)
    rw [← List.append_assoc]
    refine List.pairwise_append.mpr ⟨h.sorted, List.pairwise_singleton .., fun j hj k hk => ?_⟩
    rw [List.mem_singleton.mp hk]
    rcases List.mem_append.mp hj with hj | hj
    · rcases List.mem_append.mp hj with hj | hj
      · exact h.below j hj
      · exact ((h.jobs j).mp hj).1
    · exact ((h.pending j).mp hj).1
  · show (l ++ [q.next]).length + q.active ≤ o.maxSizeOf
    rw [List.length_append, List.length_singleton]
    omega
  · show q.activeBytes + (q.pendingBytes + x.bytes) ≤ o.maxBytesOf
    unfold Queue.retainedBytes at hfits
    omega

/-- The invariant of a queue between two turns. -/
def Inv (o : Options ε κ) (st : List ℕ) (q : Queue ε κ) : Prop := Core o st q.pending q

theorem inv_init (o : Options ε κ) : Inv o [] (Queue.init : Queue ε κ) where
  active := rfl
  activeBytes := rfl
  pendingBytes := rfl
  pending i := ⟨nofun, fun h => absurd h.1 (Nat.not_lt_zero i)⟩
  jobs i := ⟨nofun, fun h => absurd h.1 (Nat.not_lt_zero i)⟩
  sorted := List.Pairwise.nil
  below := nofun
  concurrency := Nat.zero_le _
  size := Nat.zero_le _
  bytes := Nat.zero_le _
  fresh _ _ := rfl

/-- The item whose job runs in a turn. -/
def startedIn (q : Queue ε κ) : Action ε κ → List ℕ
  | .begin => q.jobs.head?.toList
  | _ => []

theorem startedIn_of_ne {a : Action ε κ} (ha : a ≠ .begin) : startedIn q a = [] := by
  cases a with
  | begin => exact absurd rfl ha
  | _ => rfl

theorem inv_enqueueItem (h : Inv o st q) (x : Item ε κ) : Inv o st (q.enqueueItem o x).2.1 := by
  simp only [Queue.enqueueItem]
  split
  · exact Core.refuse h x (q.dropped + 1)
  · split
    · exact Core.refuse h x (q.dropped + 1)
    · next hfits =>
      obtain ⟨hsize, hbytes⟩ := not_or.mp hfits
      exact (Core.accept h (not_le.mp hsize) (not_lt.mp hbytes)).drain

theorem inv_enqueue (h : Inv o st q) (event : ε) (encoded : Option (List UInt8)) :
    Inv o st (q.enqueue o event encoded).2.1 := by
  have hdropped : ∀ d, Inv o st { q with dropped := d } := fun d =>
    ⟨h.active, h.activeBytes, h.pendingBytes, h.pending, h.jobs, h.sorted, h.below,
      h.concurrency, h.size, h.bytes, h.fresh⟩
  unfold Queue.enqueue
  split
  · exact hdropped _
  · rcases encoded with _ | bytes
    · rcases o.encodeInvalidationEvent event with e | bytes
      · exact hdropped _
      · exact inv_enqueueItem h _
    · exact inv_enqueueItem h _

theorem inv_begin (h : Inv o st q) :
    Inv o (st ++ startedIn q (.begin : Action ε κ)) q.begin.1 := by
  rcases hjobs : q.jobs with _ | ⟨i, rest⟩
  · have hbegin : q.begin = (q, []) := by rw [Queue.begin, hjobs]
    rw [hbegin, startedIn, hjobs]
    simpa using h
  · rw [startedIn, hjobs, Queue.begin, hjobs]
    simp only
    split
    · exact Core.begun h hjobs rfl nofun
    · exact Core.begun h hjobs rfl nofun
    · exact Core.begun h hjobs rfl nofun

theorem inv_finish (h : Inv o st q) (i : ℕ) (r : Except Thrown Unit) :
    Inv o st (q.finish o i r).1 := by
  unfold Queue.finish
  split
  · next hphase => exact Core.settled h (Or.inl hphase)
  · next hphase => exact Core.settled h (Or.inl hphase)
  · next _ e hphase => exact Core.settled h (Or.inr ⟨e, hphase⟩)
  · exact h

theorem inv_release (h : Inv o st q) (i : ℕ) : Inv o st (q.release o i).1 := by
  unfold Queue.release
  split
  · next hphase =>
    have hdrain := (Core.released h hphase).drain
    simp only
    split
    · exact hdrain
    · exact hdrain
  · exact h

theorem inv_dropAll (h : Inv o st q) {c : Bool} {e : Thrown} {b : Bool} :
    Inv o st (Queue.dropAll o e b q.pending
      { q with closed := c, pending := [], pendingBytes := 0 }).1 := by
  have hall : Core o st [] (Queue.dropAll o e b q.pending
      { q with closed := c, pending := [], pendingBytes := 0 }).1 := by
    refine Core.dropAll ?_ rfl
    exact ⟨h.active, h.activeBytes, rfl, h.pending, h.jobs, h.sorted, h.below, h.concurrency,
      h.size, by rw [← h.pendingBytes]; exact h.bytes, h.fresh⟩
  have hpending : (Queue.dropAll o e b q.pending
      { q with closed := c, pending := [], pendingBytes := 0 }).1.pending = [] := by
    rw [dropAll_same]
  rw [Inv, hpending]
  exact hall

theorem inv_step (h : Inv o st q) (a : Action ε κ) :
    Inv o (st ++ startedIn q a) (step o q a).1 := by
  by_cases ha : a = .begin
  · subst ha
    exact inv_begin h
  rw [startedIn_of_ne ha, List.append_nil]
  cases a with
  | begin => exact absurd rfl ha
  | enqueue event encoded => exact inv_enqueue h event encoded
  | enqueueEncoded encoded decode settle => exact inv_enqueueItem h _
  | finish i r => exact inv_finish h i r
  | release i => exact inv_release h i
  | discardPending => exact inv_dropAll h (c := q.closed)
  | close error => exact inv_dropAll h (c := true)

/-! ### Settlement -/

def Notice.settles (i : ℕ) : Notice ε κ → Bool
  | .settle j _ _ => decide (j = i)
  | _ => false

/-- How often the callback of item `i` is called. -/
def answers (ns : List (Notice ε κ)) (i : ℕ) : ℕ := ns.countP (Notice.settles i)

/-- How often it should have been called. -/
def Item.due (x : Item ε κ) : ℕ := if x.phase.hasEnded ∧ x.settle.isSome then 1 else 0

@[simp] theorem answers_nil (i : ℕ) : answers ([] : List (Notice ε κ)) i = 0 := rfl

theorem answers_append (ns ms : List (Notice ε κ)) (i : ℕ) :
    answers (ns ++ ms) i = answers ns i + answers ms i :=
  List.countP_append ..

theorem answers_report (t : Option Thrown) (i : ℕ) :
    answers (report t : List (Notice ε κ)) i = 0 := by
  cases t <;> rfl

theorem answers_error (e : Thrown) (ns : List (Notice ε κ)) (i : ℕ) :
    answers (.error e :: ns) i = answers ns i := by
  simp [answers, Notice.settles]

/-- `settle` calls the callback of its item, if there is one, and no other. -/
theorem answers_settle (o : Options ε κ) (q : Queue ε κ) (i j : ℕ) (e : Thrown) :
    answers (q.settle o i e) j = if j = i ∧ (q.item i).settle.isSome then 1 else 0 := by
  unfold Queue.settle
  split
  · next hnone => simp [hnone]
  · next k hsome =>
    have hreport := answers_report (ε := ε) (κ := κ) (o.settleThrows k e) j
    unfold answers at hreport ⊢
    rw [List.countP_cons, hreport, hsome]
    by_cases hij : i = j
    · simp [Notice.settles, hij]
    · simp [Notice.settles, hij, Ne.symm hij]

theorem due_setPhase_of_ne (q : Queue ε κ) (p : Phase) (h : j ≠ i) :
    ((q.setPhase i p).item j).due = (q.item j).due := by
  rw [item_setPhase_of_ne q p h]

/-- An item that goes on and does not end owes as much as before. -/
theorem due_setPhase {p : Phase} (h : p.hasEnded = (q.item i).phase.hasEnded) (j : ℕ) :
    ((q.setPhase i p).item j).due = (q.item j).due := by
  by_cases hj : j = i
  · subst hj
    rw [item_setPhase_self]
    simp only [Item.due, h]
  · exact due_setPhase_of_ne q p hj

/-- An item that ends owes one call. -/
theorem due_ends {p : Phase} (hold : (q.item i).phase.hasEnded = false) (hnew : p.hasEnded = true)
    (e : Thrown) (j : ℕ) :
    answers (q.settle o i e) j + (q.item j).due = ((q.setPhase i p).item j).due := by
  rw [answers_settle]
  by_cases hj : j = i
  · subst hj
    rw [item_setPhase_self]
    simp [Item.due, hold, hnew]
  · rw [due_setPhase_of_ne q p hj, if_neg (fun h => hj h.1), Nat.zero_add]

theorem due_drain (h : Core o st l q) (j : ℕ) :
    ((Queue.drain o l q).item j).due = (q.item j).due := by
  induction l generalizing q with
  | nil => rfl
  | cons i rest ih =>
    rw [Queue.drain]
    split
    · next hroom =>
      have hphase := ((h.pending i).mp List.mem_cons_self).2
      rw [ih (h.start hroom)]
      exact due_setPhase (by rw [hphase]; rfl) j
    · rfl

theorem answers_dropAll {e : Thrown} {b : Bool} (hn : l.Nodup)
    (hpending : ∀ i ∈ l, (q.item i).phase = .pending) (j : ℕ) :
    answers (Queue.dropAll o e b l q).2 j + (q.item j).due =
      ((Queue.dropAll o e b l q).1.item j).due := by
  induction l generalizing q with
  | nil => exact Nat.zero_add _
  | cons i rest ih =>
    obtain ⟨hi, hn⟩ := List.nodup_cons.mp hn
    have hphase := hpending i List.mem_cons_self
    have hrest := ih (q := q.setPhase i .dropped) hn fun k hk => by
      rw [phase_setPhase, if_neg (by rintro rfl; exact hi hk)]
      exact hpending k (List.mem_cons_of_mem i hk)
    have hend := due_ends (o := o) (q := q) (i := i) (p := .dropped) (by rw [hphase]; rfl) rfl e j
    have hreported : answers (if b then [.error e] else [] : List (Notice ε κ)) j = 0 := by
      cases b <;> rfl
    rw [Queue.dropAll]
    simp only [answers_append, hreported]
    omega

/-- A new item has not ended. -/
theorem due_enter (h : Inv o st q) {x : Item ε κ} (hx : x.phase.hasEnded = false) (j : ℕ) :
    (Function.update q.item q.next x j).due = (q.item j).due := by
  by_cases hj : j = q.next
  · subst hj
    rw [Function.update_self, h.fresh q.next le_rfl]
    simp [Item.due, hx, blankItem]
  · rw [Function.update_of_ne hj]

theorem answers_enqueueItem (h : Inv o st q) (x : Item ε κ) (j : ℕ) :
    answers (q.enqueueItem o x).2.2 j + (q.item j).due =
      ((q.enqueueItem o x).2.1.item j).due := by
  have hrefused := due_enter h (x := { x with phase := .refused }) rfl j
  simp only [Queue.enqueueItem]
  split
  · rw [answers_nil, Nat.zero_add]
    exact hrefused.symm
  · split
    · have hoverflow : answers (.overflow ⟨x.bytes, o.maxBytesOf, o.maxSizeOf⟩ ::
          report (o.onOverflowThrows ⟨x.bytes, o.maxBytesOf, o.maxSizeOf⟩) :
            List (Notice ε κ)) j = 0 := by
        have hreport := answers_report (ε := ε) (κ := κ)
          (o.onOverflowThrows ⟨x.bytes, o.maxBytesOf, o.maxSizeOf⟩) j
        unfold answers at hreport ⊢
        rw [List.countP_cons, hreport]
        rfl
      rw [hoverflow, Nat.zero_add]
      exact hrefused.symm
    · next hfits =>
      obtain ⟨hsize, hbytes⟩ := not_or.mp hfits
      rw [answers_nil, Nat.zero_add,
        due_drain (Core.accept h (not_le.mp hsize) (not_lt.mp hbytes)) j]
      exact (due_enter h (x := { x with phase := .pending }) rfl j).symm

theorem answers_enqueue (h : Inv o st q) (event : ε) (encoded : Option (List UInt8)) (j : ℕ) :
    answers (q.enqueue o event encoded).2.2 j + (q.item j).due =
      ((q.enqueue o event encoded).2.1.item j).due := by
  unfold Queue.enqueue
  split
  · exact Nat.zero_add _
  · rcases encoded with _ | bytes
    · rcases o.encodeInvalidationEvent event with e | bytes
      · exact Nat.zero_add _
      · exact answers_enqueueItem h _ j
    · exact answers_enqueueItem h _ j

theorem answers_begin (h : Inv o st q) (j : ℕ) :
    answers q.begin.2 j + (q.item j).due = (q.begin.1.item j).due := by
  rcases hjobs : q.jobs with _ | ⟨i, rest⟩
  · have hbegin : q.begin = (q, []) := by rw [Queue.begin, hjobs]
    rw [hbegin]
    exact Nat.zero_add _
  · have hphase := ((h.jobs i).mp (by rw [hjobs]; exact List.mem_cons_self)).2
    have hdue : ∀ p : Phase, p.hasEnded = false → ((q.setPhase i p).item j).due = (q.item j).due :=
      fun p hp => due_setPhase (by rw [hphase, hp]; rfl) j
    rw [Queue.begin, hjobs]
    simp only
    split
    · exact (Nat.zero_add _).trans (hdue .running rfl).symm
    · exact (Nat.zero_add _).trans (hdue (.broken _) rfl).symm
    · exact (Nat.zero_add _).trans (hdue (.broken _) rfl).symm

theorem answers_finish (q : Queue ε κ) (i : ℕ) (r : Except Thrown Unit) (j : ℕ) :
    answers (q.finish o i r).2 j + (q.item j).due = ((q.finish o i r).1.item j).due := by
  unfold Queue.finish
  split
  · next hphase => exact due_ends (by rw [hphase]; rfl) rfl none j
  · next e hphase =>
    simp only [answers_error]
    exact due_ends (by rw [hphase]; rfl) rfl e j
  · next _ e hphase =>
    simp only [answers_error]
    exact due_ends (by rw [hphase]; rfl) rfl e j
  · exact Nat.zero_add _

theorem answers_release (h : Inv o st q) (i j : ℕ) :
    answers (q.release o i).2 j + (q.item j).due = ((q.release o i).1.item j).due := by
  unfold Queue.release
  split
  · next hphase =>
    have hdrain := due_drain (Core.released h hphase) j
    have hdue : ((q.setPhase i .released).item j).due = (q.item j).due :=
      due_setPhase (by rw [hphase]; rfl) j
    have hidle : answers (.idle :: report o.onIdleThrows : List (Notice ε κ)) j = 0 := by
      have hreport := answers_report (ε := ε) (κ := κ) o.onIdleThrows j
      unfold answers at hreport ⊢
      rw [List.countP_cons, hreport]
      rfl
    simp only
    split
    · rw [hidle, Nat.zero_add]
      exact (hdrain.trans hdue).symm
    · rw [answers_nil, Nat.zero_add]
      exact (hdrain.trans hdue).symm
  · exact Nat.zero_add _

/-- A callback is called in exactly the turn in which its item ends. -/
theorem answers_step (h : Inv o st q) (a : Action ε κ) (j : ℕ) :
    answers (step o q a).2 j + (q.item j).due = ((step o q a).1.item j).due := by
  have hpending : ∀ i ∈ q.pending, (q.item i).phase = .pending := fun i hi =>
    ((h.pending i).mp hi).2
  cases a with
  | enqueue event encoded => exact answers_enqueue h event encoded j
  | enqueueEncoded encoded decode settle => exact answers_enqueueItem h _ j
  | begin => exact answers_begin h j
  | finish i r => exact answers_finish q i r j
  | release i => exact answers_release h i j
  | discardPending =>
    exact answers_dropAll (q := { q with pending := [], pendingBytes := 0 }) h.nodup hpending j
  | close error =>
    exact answers_dropAll (q := { q with closed := true, pending := [], pendingBytes := 0 })
      h.nodup hpending j

/-! ### What an item keeps -/

/-- The callback of an item, and whether it was refused. -/
def Item.card (x : Item ε κ) : Option κ × Bool := (x.settle, decide (x.phase = .refused))

theorem card_setPhase {p : Phase} (hold : (q.item i).phase ≠ .refused) (hnew : p ≠ .refused)
    (j : ℕ) : ((q.setPhase i p).item j).card = (q.item j).card := by
  by_cases hj : j = i
  · subst hj
    rw [item_setPhase_self]
    simp [Item.card, hold, hnew]
  · rw [item_setPhase_of_ne q p hj]

theorem card_drain (h : Core o st l q) (j : ℕ) :
    ((Queue.drain o l q).item j).card = (q.item j).card := by
  induction l generalizing q with
  | nil => rfl
  | cons i rest ih =>
    rw [Queue.drain]
    split
    · next hroom =>
      have hphase := ((h.pending i).mp List.mem_cons_self).2
      rw [ih (h.start hroom)]
      exact card_setPhase (p := .scheduled) (by rw [hphase]; nofun) nofun j
    · rfl

theorem card_dropAll {e : Thrown} {b : Bool} (hn : l.Nodup)
    (hpending : ∀ i ∈ l, (q.item i).phase = .pending) (j : ℕ) :
    ((Queue.dropAll o e b l q).1.item j).card = (q.item j).card := by
  induction l generalizing q with
  | nil => rfl
  | cons i rest ih =>
    obtain ⟨hi, hn⟩ := List.nodup_cons.mp hn
    have hphase := hpending i List.mem_cons_self
    rw [Queue.dropAll]
    refine (ih (q := q.setPhase i .dropped) hn fun k hk => ?_).trans
      (card_setPhase (p := .dropped) (by rw [hphase]; nofun) nofun j)
    rw [phase_setPhase, if_neg (by rintro rfl; exact hi hk)]
    exact hpending k (List.mem_cons_of_mem i hk)

theorem next_drain (o : Options ε κ) (l : List ℕ) (q : Queue ε κ) :
    (Queue.drain o l q).next = q.next := by
  induction l generalizing q with
  | nil => rfl
  | cons i rest ih =>
    rw [Queue.drain]
    split
    · exact ih _
    · rfl

/-- `enqueueItem` makes one item, refuses it or not, and leaves the others as they are. -/
theorem card_enqueueItem (h : Inv o st q) (x : Item ε κ) :
    (q.enqueueItem o x).2.1.next = q.next + 1 ∧
    ((q.enqueueItem o x).2.1.item q.next).card = (x.settle, !(q.enqueueItem o x).1) ∧
    ∀ j < q.next, ((q.enqueueItem o x).2.1.item j).card = (q.item j).card := by
  have hold : ∀ (y : Item ε κ), ∀ j < q.next,
      (Function.update q.item q.next y j).card = (q.item j).card := fun y j hj => by
    rw [Function.update_of_ne hj.ne]
  simp only [Queue.enqueueItem]
  split
  · refine ⟨rfl, ?_, hold _⟩
    show (Function.update q.item q.next _ q.next).card = _
    rw [Function.update_self]
    rfl
  · split
    · refine ⟨rfl, ?_, hold _⟩
      show (Function.update q.item q.next _ q.next).card = _
      rw [Function.update_self]
      rfl
    · next hfits =>
      obtain ⟨hsize, hbytes⟩ := not_or.mp hfits
      have hdrain := card_drain (Core.accept h (not_le.mp hsize) (not_lt.mp hbytes))
      refine ⟨next_drain .., (hdrain q.next).trans ?_, fun j hj => (hdrain j).trans (hold _ j hj)⟩
      show (Function.update q.item q.next _ q.next).card = _
      rw [Function.update_self]
      rfl

/-- Whether the turn accepts an item; it is the next one. -/
def acceptedIn (o : Options ε κ) (q : Queue ε κ) : Action ε κ → List ℕ
  | .enqueue event encoded => if (q.enqueue o event encoded).1 then [q.next] else []
  | .enqueueEncoded encoded decode settle =>
    if (q.enqueueEncoded o encoded decode settle).1 then [q.next] else []
  | _ => []

/-- What a turn does to the items: at most one is new, and it was accepted or refused. -/
structure Kept (q r : Queue ε κ) (accepted : List ℕ) : Prop where
  old : ∀ j < q.next, (r.item j).card = (q.item j).card
  next : r.next = q.next ∧ accepted = [] ∨
    r.next = q.next + 1 ∧ accepted = if (r.item q.next).phase = .refused then [] else [q.next]

theorem Kept.same (hnext : r.next = q.next) (hcard : ∀ j, (r.item j).card = (q.item j).card) :
    Kept q r [] :=
  ⟨fun j _ => hcard j, Or.inl ⟨hnext, rfl⟩⟩

theorem kept_enqueueItem (h : Inv o st q) (x : Item ε κ) :
    Kept q (q.enqueueItem o x).2.1 (if (q.enqueueItem o x).1 then [q.next] else []) := by
  obtain ⟨hnext, hnew, hold⟩ := card_enqueueItem h x
  have hrefused := congrArg Prod.snd hnew
  simp only [Item.card] at hrefused
  refine ⟨hold, Or.inr ⟨hnext, ?_⟩⟩
  cases haccepted : (q.enqueueItem o x).1 with
  | true =>
    rw [haccepted] at hrefused
    rw [if_pos rfl, if_neg (of_decide_eq_false hrefused)]
  | false =>
    rw [haccepted] at hrefused
    rw [if_neg (by simp), if_pos (of_decide_eq_true hrefused)]

/-- The turns that may make an item. -/
def Action.enters : Action ε κ → Bool
  | .enqueue _ _ => true
  | .enqueueEncoded _ _ _ => true
  | _ => false

/-- The other turns leave every item's card as it is. -/
theorem card_turn (h : Inv o st q) {a : Action ε κ} (ha : a.enters = false) :
    (step o q a).1.next = q.next ∧ ∀ j, ((step o q a).1.item j).card = (q.item j).card := by
  have hpending : ∀ i ∈ q.pending, (q.item i).phase = .pending := fun i hi =>
    ((h.pending i).mp hi).2
  cases a with
  | enqueue event encoded => cases ha
  | enqueueEncoded encoded decode settle => cases ha
  | begin =>
    rcases hjobs : q.jobs with _ | ⟨i, rest⟩
    · have hbegin : q.begin = (q, []) := by rw [Queue.begin, hjobs]
      simp only [step, hbegin]
      exact ⟨trivial, fun _ => trivial⟩
    · have hphase := ((h.jobs i).mp (by rw [hjobs]; exact List.mem_cons_self)).2
      have hcard : ∀ p : Phase, p ≠ .refused → ∀ j,
          ((q.setPhase i p).item j).card = (q.item j).card :=
        fun p hp j => card_setPhase (by rw [hphase]; nofun) hp j
      simp only [step, Queue.begin, hjobs]
      split
      · exact ⟨rfl, hcard .running nofun⟩
      · exact ⟨rfl, hcard (.broken _) nofun⟩
      · exact ⟨rfl, hcard (.broken _) nofun⟩
  | finish i r =>
    simp only [step]
    unfold Queue.finish
    split
    · next hphase => exact ⟨rfl, card_setPhase (by rw [hphase]; nofun) nofun⟩
    · next hphase => exact ⟨rfl, card_setPhase (by rw [hphase]; nofun) nofun⟩
    · next hphase => exact ⟨rfl, card_setPhase (by rw [hphase]; nofun) nofun⟩
    · exact ⟨rfl, fun _ => rfl⟩
  | release i =>
    simp only [step]
    unfold Queue.release
    split
    · next hphase =>
      have hdrain := card_drain (Core.released h hphase)
      have hcard : ∀ j, ((q.setPhase i .released).item j).card = (q.item j).card :=
        card_setPhase (by rw [hphase]; nofun) nofun
      simp only
      split
      · exact ⟨next_drain .., fun j => (hdrain j).trans (hcard j)⟩
      · exact ⟨next_drain .., fun j => (hdrain j).trans (hcard j)⟩
    · exact ⟨rfl, fun _ => rfl⟩
  | discardPending =>
    refine ⟨?_, card_dropAll (q := { q with pending := [], pendingBytes := 0 }) h.nodup hpending⟩
    simp only [step, Queue.discardPending]
    rw [dropAll_same]
  | close error =>
    refine ⟨?_, card_dropAll
      (q := { q with closed := true, pending := [], pendingBytes := 0 }) h.nodup hpending⟩
    simp only [step, Queue.close]
    rw [dropAll_same]

theorem kept_step (h : Inv o st q) (a : Action ε κ) :
    Kept q (step o q a).1 (acceptedIn o q a) := by
  cases a with
  | enqueue event encoded =>
    show Kept q (q.enqueue o event encoded).2.1 (if (q.enqueue o event encoded).1 then _ else _)
    unfold Queue.enqueue
    split
    · exact .same rfl fun _ => rfl
    · rcases encoded with _ | bytes
      · rcases o.encodeInvalidationEvent event with e | bytes
        · exact .same rfl fun _ => rfl
        · exact kept_enqueueItem h _
      · exact kept_enqueueItem h _
  | enqueueEncoded encoded decode settle => exact kept_enqueueItem h _
  | begin => exact .same (card_turn h rfl).1 (card_turn h rfl).2
  | finish i r => exact .same (card_turn h rfl).1 (card_turn h rfl).2
  | release i => exact .same (card_turn h rfl).1 (card_turn h rfl).2
  | discardPending => exact .same (card_turn h rfl).1 (card_turn h rfl).2
  | close error => exact .same (card_turn h rfl).1 (card_turn h rfl).2

/-! ### Whose callback is called -/

theorem settle_setPhase (q : Queue ε κ) (i j : ℕ) (p : Phase) :
    ((q.setPhase i p).item j).settle = (q.item j).settle := by
  by_cases h : j = i
  · subst h
    rw [item_setPhase_self]
  · rw [item_setPhase_of_ne q p h]

theorem not_mem_report {t : Option Thrown} {k : κ} {e : Thrown} :
    Notice.settle j k e ∉ (report t : List (Notice ε κ)) := by
  cases t with
  | none => exact List.not_mem_nil
  | some t => exact fun h => nomatch List.mem_singleton.mp h

theorem of_mem_settle {k : κ} {e e' : Thrown} (h : Notice.settle j k e ∈ q.settle o i e') :
    (q.item j).settle = some k := by
  unfold Queue.settle at h
  split at h
  · cases h
  · next k' hk' =>
    rcases List.mem_cons.mp h with heq | h
    · cases heq
      exact hk'
    · exact absurd h not_mem_report

theorem of_mem_dropAll {k : κ} {e e' : Thrown} {b : Bool}
    (h : Notice.settle j k e ∈ (Queue.dropAll o e' b l q).2) : (q.item j).settle = some k := by
  induction l generalizing q with
  | nil => cases h
  | cons i rest ih =>
    rw [Queue.dropAll] at h
    simp only [List.append_assoc, List.mem_append] at h
    rcases h with h | h | h
    · cases b with
      | false => cases h
      | true => exact nomatch List.mem_singleton.mp h
    · exact of_mem_settle h
    · rw [← settle_setPhase q i j .dropped]
      exact ih h

theorem not_mem_enqueueItem {x : Item ε κ} {k : κ} {e : Thrown} :
    Notice.settle j k e ∉ (q.enqueueItem o x).2.2 := by
  simp only [Queue.enqueueItem]
  split
  · exact List.not_mem_nil
  · split
    · intro h
      rcases List.mem_cons.mp h with heq | h
      · cases heq
      · exact not_mem_report h
    · exact List.not_mem_nil

/-- A turn calls callbacks with what they were made from. -/
theorem of_mem_step {a : Action ε κ} {k : κ} {e : Thrown}
    (h : Notice.settle j k e ∈ (step o q a).2) : (q.item j).settle = some k := by
  cases a with
  | enqueue event encoded =>
    have h : Notice.settle j k e ∈ (q.enqueue o event encoded).2.2 := h
    unfold Queue.enqueue at h
    split at h
    · cases h
    · rcases encoded with _ | bytes
      · rcases hencode : o.encodeInvalidationEvent event with e' | bytes
        · rw [hencode] at h
          exact nomatch List.mem_singleton.mp h
        · rw [hencode] at h
          exact absurd h not_mem_enqueueItem
      · exact absurd h not_mem_enqueueItem
  | enqueueEncoded encoded decode settle => exact absurd h not_mem_enqueueItem
  | begin =>
    have h : Notice.settle j k e ∈ q.begin.2 := h
    unfold Queue.begin at h
    split at h
    · cases h
    · split at h
      · simp at h
      · simp at h
      · cases h
  | finish i r =>
    have h : Notice.settle j k e ∈ (q.finish o i r).2 := h
    unfold Queue.finish at h
    split at h
    · exact of_mem_settle h
    · exact of_mem_settle ((List.mem_cons.mp h).resolve_left nofun)
    · exact of_mem_settle ((List.mem_cons.mp h).resolve_left nofun)
    · cases h
  | release i =>
    have h : Notice.settle j k e ∈ (q.release o i).2 := h
    unfold Queue.release at h
    split at h
    · simp only at h
      split at h
      · exact absurd ((List.mem_cons.mp h).resolve_left nofun) not_mem_report
      · cases h
    · cases h
  | discardPending => exact of_mem_dropAll (q := { q with pending := [], pendingBytes := 0 }) h
  | close error =>
    exact of_mem_dropAll (q := { q with closed := true, pending := [], pendingBytes := 0 }) h

/-! ### Runs -/

/-- A queue, with the items it accepted, those whose job has run, and all its notices. -/
structure System (ε κ : Type) where
  queue : Queue ε κ
  accepted : List ℕ
  started : List ℕ
  log : List (Notice ε κ)

def System.init : System ε κ := ⟨Queue.init, [], [], []⟩

def System.step (o : Options ε κ) (s : System ε κ) (a : Action ε κ) : System ε κ :=
  { queue := (HandlerQueue.step o s.queue a).1
    accepted := s.accepted ++ acceptedIn o s.queue a
    started := s.started ++ startedIn s.queue a
    log := s.log ++ (HandlerQueue.step o s.queue a).2 }

/-- The system after the first `n` turns of `acts`. -/
def stateOf (o : Options ε κ) (acts : List (Action ε κ)) (n : ℕ) : System ε κ :=
  stateAt (System.step o) System.init acts n

structure System.Ok (o : Options ε κ) (s : System ε κ) : Prop where
  queue : Inv o s.started s.queue
  accepted : ∀ i, i ∈ s.accepted ↔ i < s.queue.next ∧ (s.queue.item i).phase ≠ .refused
  ordered : s.accepted.Pairwise (· < ·)
  started : ∀ i ∈ s.started, i ∈ s.accepted
  answered : ∀ i, answers s.log i = (s.queue.item i).due

variable {s : System ε κ}

theorem ok_init (o : Options ε κ) : (System.init : System ε κ).Ok o where
  queue := inv_init o
  accepted i := ⟨nofun, fun h => absurd h.1 (Nat.not_lt_zero i)⟩
  ordered := List.Pairwise.nil
  started := nofun
  answered _ := rfl

theorem System.Ok.refused_iff (h : s.Ok o) (a : Action ε κ) (hi : i < s.queue.next) :
    ((HandlerQueue.step o s.queue a).1.item i).phase = .refused ↔
      (s.queue.item i).phase = .refused := by
  have hcard := congrArg Prod.snd ((kept_step h.queue a).old i hi)
  simpa [Item.card] using hcard

theorem ok_step (h : s.Ok o) (a : Action ε κ) : (s.step o a).Ok o := by
  have hkept := kept_step h.queue a
  have haccepted : ∀ i, i ∈ s.accepted ++ acceptedIn o s.queue a ↔
      i < (HandlerQueue.step o s.queue a).1.next ∧
        ((HandlerQueue.step o s.queue a).1.item i).phase ≠ .refused := by
    intro i
    rcases hkept.next with ⟨hnext, hnone⟩ | ⟨hnext, hnew⟩
    · rw [hnone, hnext, List.append_nil, h.accepted i]
      exact and_congr_right fun hi => not_congr (h.refused_iff a hi).symm
    · rw [hnew, hnext, List.mem_append, h.accepted i]
      by_cases hi : i = s.queue.next
      · subst hi
        split <;> simp_all
      · have hmem : i ∉ (if ((HandlerQueue.step o s.queue a).1.item s.queue.next).phase =
            .refused then [] else [s.queue.next]) := by
          split <;> simp [hi]
        rw [or_iff_left hmem]
        constructor
        · rintro ⟨hlt, hne⟩
          exact ⟨by omega, mt (h.refused_iff a hlt).mp hne⟩
        · rintro ⟨hlt, hne⟩
          have hlt : i < s.queue.next := by omega
          exact ⟨hlt, mt (h.refused_iff a hlt).mpr hne⟩
  refine ⟨inv_step h.queue a, haccepted, ?_, fun i hi => ?_, fun i => ?_⟩
  · refine List.pairwise_append.mpr ⟨h.ordered, ?_, fun i hi j hj => ?_⟩
    · rcases hkept.next with ⟨-, hnone⟩ | ⟨-, hnew⟩
      · rw [hnone]
        exact List.Pairwise.nil
      · rw [hnew]
        split
        · exact List.Pairwise.nil
        · exact List.pairwise_singleton ..
    · have hlt := ((h.accepted i).mp hi).1
      rcases hkept.next with ⟨-, hnone⟩ | ⟨-, hnew⟩
      · rw [hnone] at hj
        cases hj
      · rw [hnew] at hj
        split at hj
        · cases hj
        · rw [List.mem_singleton.mp hj]
          exact hlt
  · rcases List.mem_append.mp hi with hi | hi
    · exact List.mem_append_left _ (h.started i hi)
    · -- the oldest job belongs to an item that is scheduled
      cases a with
      | begin =>
        have hjob : i ∈ s.queue.jobs := List.mem_of_head? (Option.mem_toList.mp hi)
        obtain ⟨hlt, hphase⟩ := (h.queue.jobs i).mp hjob
        exact List.mem_append_left _ ((h.accepted i).mpr ⟨hlt, by rw [hphase]; nofun⟩)
      | _ => cases hi
  · show answers (s.log ++ _) i = _
    rw [answers_append, h.answered i, Nat.add_comm]
    exact answers_step h.queue a i

theorem ok_stateOf (o : Options ε κ) (acts : List (Action ε κ)) (n : ℕ) :
    (stateOf o acts n).Ok o :=
  invariant (ok_init o) (fun _ a h => ok_step h a) n

theorem stateOf_succ {acts : List (Action ε κ)} {a : Action ε κ} {n : ℕ}
    (ha : acts[n]? = some a) : stateOf o acts (n + 1) = (stateOf o acts n).step o a :=
  stateAt_succ ha

theorem due_le (x : Item ε κ) : x.due ≤ 1 := by
  unfold Item.due
  split <;> omega

theorem due_eq_one {x : Item ε κ} (hphase : x.phase.hasEnded = true) (hk : x.settle.isSome) :
    x.due = 1 :=
  if_pos ⟨hphase, hk⟩

/-- An item whose handler settles, or that turns out not to decode, has ended. -/
theorem ended_finish (o : Options ε κ) {r : Except Thrown Unit}
    (hphase : (q.item i).phase = .running ∨ ∃ e, (q.item i).phase = .broken e) :
    (((q.finish o i r).1.item i).phase).hasEnded = true ∧
      ((q.finish o i r).1.item i).settle = (q.item i).settle := by
  have hset : ((q.setPhase i .settled).item i) = { q.item i with phase := .settled } :=
    item_setPhase_self ..
  rcases hphase with hp | ⟨e, hp⟩
  · rcases r with e | ⟨⟩
    · simp [Queue.finish, hp, hset, Phase.hasEnded]
    · simp [Queue.finish, hp, hset, Phase.hasEnded]
  · rcases r with e' | ⟨⟩
    · simp [Queue.finish, hp, hset, Phase.hasEnded]
    · simp [Queue.finish, hp, hset, Phase.hasEnded]

theorem ended_dropAll {e : Thrown} {b : Bool} (hn : l.Nodup) (hi : i ∈ l) :
    (((Queue.dropAll o e b l q).1.item i).phase).hasEnded = true ∧
      ((Queue.dropAll o e b l q).1.item i).settle = (q.item i).settle := by
  have hother : ∀ (l : List ℕ) (q : Queue ε κ), i ∉ l →
      (Queue.dropAll o e b l q).1.item i = q.item i := by
    intro l
    induction l with
    | nil => exact fun q _ => rfl
    | cons k rest ih =>
      intro q hk
      rw [Queue.dropAll]
      have hne : i ≠ k := fun h => hk (h ▸ List.mem_cons_self)
      exact (ih _ (fun h => hk (List.mem_cons_of_mem k h))).trans (item_setPhase_of_ne q _ hne)
  induction l generalizing q with
  | nil => cases hi
  | cons k rest ih =>
    obtain ⟨hk, hn⟩ := List.nodup_cons.mp hn
    rw [Queue.dropAll]
    rcases List.mem_cons.mp hi with rfl | hmem
    · simp only
      rw [hother rest _ hk, item_setPhase_self]
      exact ⟨rfl, rfl⟩
    · have hne : i ≠ k := fun heq => hk (heq ▸ hmem)
      obtain ⟨hended, hsettle⟩ := ih (q := q.setPhase k .dropped) hn hmem
      exact ⟨hended, hsettle.trans (by rw [item_setPhase_of_ne q _ hne])⟩

/-- What the queue promises about every run, before its `n`-th turn. -/
structure Contract (o : Options ε κ) (acts : List (Action ε κ)) : Prop where
  concurrency : ∀ n, (stateOf o acts n).queue.active ≤ o.getConcurrency
  size : ∀ n, (stateOf o acts n).queue.pending.length + (stateOf o acts n).queue.active ≤
    o.maxSizeOf
  /-- `active` counts the items that take a place. -/
  active : ∀ n, (stateOf o acts n).queue.active =
    tally Item.active (stateOf o acts n).queue.item (stateOf o acts n).queue.next
  /-- The sizes of the active and of the pending items. -/
  retained : ∀ n, (stateOf o acts n).queue.retainedBytes =
    tally Item.activeBytes (stateOf o acts n).queue.item (stateOf o acts n).queue.next +
      ((stateOf o acts n).queue.pending.map fun i => ((stateOf o acts n).queue.item i).bytes).sum
  bytes : ∀ n, (stateOf o acts n).queue.retainedBytes ≤ o.maxBytesOf
  /-- Jobs run in the order in which their items were accepted. -/
  order : ∀ n, (stateOf o acts n).accepted.Pairwise (· < ·) ∧
    (stateOf o acts n).started.Pairwise (· < ·) ∧
    ∀ i ∈ (stateOf o acts n).started, i ∈ (stateOf o acts n).accepted
  once : ∀ n i, answers (stateOf o acts n).log i ≤ 1
  refused : ∀ n i, i ∉ (stateOf o acts n).accepted → answers (stateOf o acts n).log i = 0
  /-- The handler of item `i` has settled, or the item does not decode. -/
  finished : ∀ n i r, acts[n]? = some (.finish i r) →
    (((stateOf o acts n).queue.item i).phase = .running ∨
      ∃ e, ((stateOf o acts n).queue.item i).phase = .broken e) →
    ((stateOf o acts n).queue.item i).settle.isSome →
    answers (stateOf o acts (n + 1)).log i = 1
  /-- Item `i` is dropped. -/
  dropped : ∀ n i, (acts[n]? = some .discardPending ∨ ∃ e, acts[n]? = some (.close e)) →
    i ∈ (stateOf o acts n).queue.pending →
    ((stateOf o acts n).queue.item i).settle.isSome →
    answers (stateOf o acts (n + 1)).log i = 1

theorem contract (o : Options ε κ) (acts : List (Action ε κ)) : Contract o acts := by
  have hok := ok_stateOf o acts
  refine
    { concurrency := fun n => (hok n).queue.concurrency
      size := fun n => (hok n).queue.size
      active := fun n => (hok n).queue.active
      retained := fun n => ?_
      bytes := fun n => (hok n).queue.bytes
      order := fun n => ⟨(hok n).ordered, ?_, (hok n).started⟩
      once := fun n i => ?_
      refused := fun n i hi => ?_
      finished := fun n i r ha hphase hk => ?_
      dropped := fun n i ha hi hk => ?_ }
  · rw [Queue.retainedBytes, (hok n).queue.activeBytes, (hok n).queue.pendingBytes]
  · exact (List.pairwise_append.mp (List.pairwise_append.mp (hok n).queue.sorted).1).1
  · rw [(hok n).answered i]
    exact due_le _
  · rw [(hok n).answered i]
    have hnot := mt ((hok n).accepted i).mpr hi
    by_cases hlt : i < (stateOf o acts n).queue.next
    · have hphase : ((stateOf o acts n).queue.item i).phase = .refused := by
        by_contra hne
        exact hnot ⟨hlt, hne⟩
      simp [Item.due, hphase, Phase.hasEnded]
    · rw [(hok n).queue.fresh i (by omega)]
      simp [Item.due, blankItem]
  · obtain ⟨hended, hsettle⟩ := ended_finish o (r := r) hphase
    rw [(hok (n + 1)).answered i, stateOf_succ ha]
    refine due_eq_one hended ?_
    show (((stateOf o acts n).queue.finish o i r).1.item i).settle.isSome
    rw [hsettle]
    exact hk
  · have hn := (hok n).queue.nodup
    rw [(hok (n + 1)).answered i]
    rcases ha with ha | ⟨e, ha⟩
    · obtain ⟨hended, hsettle⟩ := ended_dropAll (o := o) (b := false)
        (e := some "event transport disconnected")
        (q := { (stateOf o acts n).queue with pending := [], pendingBytes := 0 }) hn hi
      rw [stateOf_succ ha]
      exact due_eq_one hended (hsettle ▸ hk)
    · obtain ⟨hended, hsettle⟩ := ended_dropAll (o := o) (b := true)
        (e := e.getD (some "event handler queue closed"))
        (q := { (stateOf o acts n).queue with
          closed := true, pending := [], pendingBytes := 0 }) hn hi
      rw [stateOf_succ ha]
      exact due_eq_one hended (hsettle ▸ hk)

end HandlerQueue
