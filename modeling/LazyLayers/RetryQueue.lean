/-
The retry queue of the event buses (`retryQueue.ts`).

Events whose publication failed wait here, encoded, until the next `flush` sends
them again.  A flush publishes the oldest entry, waits for the outcome, removes the
entry and goes on; meanwhile the entry stays in the set, so that its bytes are
still accounted for.

* `enqueue`, `flush`, `settle`, `clear` — the class; a `settle` is the part of
  `drain` that runs when a publication has ended;
* `Inv` — the accounting, the order of the set, and where every accepted entry
  has gone, preserved by `inv_step`;
* `lossless` — what holds in every state of every run.

Entries are objects, so they live on a heap and the set holds their addresses.  An
address is taken when an entry is accepted: smaller means accepted earlier.
-/
import LazyLayers.Runs
import Mathlib.Data.List.Nodup

open Runs

namespace RetryQueue

/-! ### Options -/

structure Options where
  enabled : Option Bool
  maxSize : Option ℕ
  maxBytes : Option ℕ

def defaultEventBusRetryQueueMaxSize : ℕ := 10000

def defaultEventBusRetryQueueMaxBytes : ℕ := 16 * 1024 * 1024

def Options.maxSizeOf (o : Options) : ℕ :=
  o.maxSize.getD defaultEventBusRetryQueueMaxSize

def Options.maxBytesOf (o : Options) : ℕ :=
  o.maxBytes.getD defaultEventBusRetryQueueMaxBytes

inductive OverflowReason
  | count
  | bytes
  | disabled
  deriving DecidableEq, Repr

/-- What `onOverflow` is told. -/
structure Overflow where
  reason : OverflowReason
  bytes : ℕ
  maxSize : Option ℕ
  maxBytes : Option ℕ
  deriving DecidableEq, Repr

/-- `encodeInvalidationEvent` and `decodeInvalidationEvent`; an encoding that
throws is `none`, and so is an event that does not decode. -/
structure Codec (ε : Type) where
  encodeInvalidationEvent : ε → Option (List UInt8)
  decodeInvalidationEvent : List UInt8 → Option ε

/-! ### State -/

structure RetryEntry where
  encoded : List UInt8
  discardAfterPublish : Bool
  deriving DecidableEq, Repr

/-- A call of `drain`: it waits for `publish`, or it is over and `flushing` has not
been reset yet. -/
inductive Drain
  | publishing (entry : ℕ)
  | finished
  deriving DecidableEq, Repr

/-- The fields of the class, with the calls of `onOverflow` and of `drain`, and the heap. -/
structure Queue where
  events : List ℕ
  bytes : ℕ
  dropped : ℕ
  flushing : Bool
  flushingEntry : Option ℕ
  overflows : List Overflow
  drains : List Drain
  entry : ℕ → RetryEntry
  next : ℕ

def Queue.init : Queue := ⟨[], 0, 0, false, none, [], [], fun _ => ⟨[], false⟩, 0⟩

variable {ε : Type}

/-- `entry.encoded.byteLength` -/
def Queue.byteLength (q : Queue) (i : ℕ) : ℕ := (q.entry i).encoded.length

def Queue.drop (q : Queue) (d : Overflow) : Queue :=
  { q with dropped := q.dropped + 1, overflows := q.overflows ++ [d] }

/-- `waitingSize()` -/
def Queue.waitingSize (q : Queue) : ℕ :=
  q.events.length - if q.flushingEntry.any (· ∈ q.events) then 1 else 0

/-- `removeOldestWaiting()`: the address it returns, and the set without it. -/
def Queue.removeOldestWaiting (q : Queue) : Option ℕ × Queue :=
  match q.events.find? (fun i => some i ≠ q.flushingEntry) with
  | some i => (some i, { q with events := q.events.erase i })
  | none => (none, q)

/-- The `while` loop of `enqueue` for an event of `size` bytes.  Every pass removes an
entry, so the length of the set bounds the passes. -/
def Queue.makeRoom (o : Options) (size : ℕ) : ℕ → Queue → Queue
  | 0, q => q
  | fuel + 1, q =>
    if 0 < q.waitingSize ∧ o.maxBytesOf < q.bytes + size then
      match q.removeOldestWaiting with
      | (some i, r) =>
        Queue.makeRoom o size fuel ({ r with bytes := r.bytes - q.byteLength i }.drop
          ⟨.bytes, q.byteLength i, some o.maxSizeOf, some o.maxBytesOf⟩)
      | (none, r) =>
        Queue.makeRoom o size fuel (r.drop ⟨.bytes, 0, some o.maxSizeOf, some o.maxBytesOf⟩)
    else q

/-- `this.events.add({ encoded })` -/
def Queue.add (q : Queue) (encoded : List UInt8) : Queue :=
  { q with
    events := q.events ++ [q.next]
    bytes := q.bytes + encoded.length
    entry := Function.update q.entry q.next ⟨encoded, false⟩
    next := q.next + 1 }

/-- The end of `enqueue`: the event is added if it fits. -/
def Queue.fit (o : Options) (encoded : List UInt8) (q : Queue) : Bool × Queue :=
  let q := q.makeRoom o encoded.length q.events.length
  if o.maxBytesOf < q.bytes + encoded.length then
    (false, q.drop ⟨.bytes, encoded.length, some o.maxSizeOf, some o.maxBytesOf⟩)
  else (true, q.add encoded)

/-- `enqueue(event)` -/
def Queue.enqueue (c : Codec ε) (o : Options) (q : Queue) (event : ε) : Bool × Queue :=
  if o.enabled = some false then (false, q.drop ⟨.disabled, 0, none, none⟩)
  else if o.maxSizeOf ≤ 0 then (false, q.drop ⟨.count, 0, some o.maxSizeOf, none⟩)
  else
    match c.encodeInvalidationEvent event with
    | none => (false, q.drop ⟨.bytes, 0, some o.maxSizeOf, o.maxBytes⟩)
    | some encoded =>
      if o.maxBytesOf ≤ 0 ∨ o.maxBytesOf < encoded.length then
        (false, q.drop ⟨.bytes, encoded.length, some o.maxSizeOf, some o.maxBytesOf⟩)
      else if o.maxSizeOf ≤ q.waitingSize then
        match q.removeOldestWaiting with
        | (none, r) =>
          (false, r.drop ⟨.count, encoded.length, some o.maxSizeOf, some o.maxBytesOf⟩)
        | (some i, r) =>
          Queue.fit o encoded ({ r with bytes := r.bytes - q.byteLength i }.drop
            ⟨.count, q.byteLength i, some o.maxSizeOf, some o.maxBytesOf⟩)
      else q.fit o encoded

/-- `if (this.events.delete(entry)) this.bytes -= entry.encoded.byteLength` -/
def Queue.delete (q : Queue) (i : ℕ) : Queue :=
  if i ∈ q.events then
    { q with events := q.events.erase i, bytes := q.bytes - q.byteLength i }
  else q

/-- The loop of `drain` up to its next `publish`, on the entries that are left.  An
entry that does not decode is deleted without one. -/
def Queue.publishNext (c : Codec ε) : List ℕ → Queue → Queue × Drain
  | [], q => (q, .finished)
  | i :: rest, q =>
    match c.decodeInvalidationEvent (q.entry i).encoded with
    | some _ => ({ q with flushingEntry := some i }, .publishing i)
    | none => Queue.publishNext c rest { q.delete i with flushingEntry := none }

/-- `flush(publish)` -/
def Queue.flush (c : Codec ε) (q : Queue) : Queue :=
  if q.flushing then q
  else
    match q.publishNext c q.events with
    | (r, d) => { r with flushing := true, drains := r.drains ++ [d] }

/-- What the `finally` of `drain` does about its entry. -/
def Queue.finish (q : Queue) (i : ℕ) : Queue :=
  { (if (q.entry i).discardAfterPublish then q.delete i else q) with flushingEntry := none }

/-- The publication of drain `k` has succeeded, or failed. -/
def Queue.settle (c : Codec ε) (q : Queue) (k : ℕ) (ok : Bool) : Queue :=
  match q.drains[k]? with
  | some (.publishing i) =>
    if ok then
      match ((q.delete i).finish i).publishNext c ((q.delete i).finish i).events with
      | (r, d) => { r with drains := r.drains.set k d }
    else { q.finish i with drains := q.drains.set k .finished }
  | _ => q

/-- The `finally` callback of `flush`. -/
def Queue.reset (q : Queue) (k : ℕ) : Queue :=
  match q.drains[k]? with
  | some .finished => { q with flushing := false, drains := q.drains.eraseIdx k }
  | _ => q

/-- `clear()` -/
def Queue.clear (q : Queue) : Queue :=
  match q.flushingEntry with
  | none => { q with events := [], bytes := 0 }
  | some i =>
    { q with
      events := [i]
      bytes := q.byteLength i
      entry := Function.update q.entry i { q.entry i with discardAfterPublish := true } }

/-! ### Runs -/

/-- The queue, and what an observer saw: which entries `enqueue` accepted and how
many events it refused, the calls of `publish` in order, the publications that
succeeded, the entries that an `enqueue` threw out, the entries that were there
when `clear` was called, and those of them that left without being published. -/
structure System where
  queue : Queue
  accepted : List ℕ
  refused : ℕ
  attempts : List ℕ
  published : List ℕ
  evicted : List ℕ
  targeted : List ℕ
  cleared : List ℕ

def System.init : System := ⟨Queue.init, [], 0, [], [], [], [], []⟩

/-- The entries of `q` that are not in `r`. -/
def Queue.left (q r : Queue) : List ℕ := q.events.filter fun i => i ∉ r.events

inductive Action (ε : Type)
  | enqueue (event : ε)
  | flush
  | settle (k : ℕ) (ok : Bool)
  | reset (k : ℕ)
  | clear

/-- The entries for which `publish` is called in a turn. -/
def begun (c : Codec ε) (q : Queue) : Action ε → List ℕ
  | .flush => if q.flushing then [] else (q.flush c).flushingEntry.toList
  | .settle k true =>
    match q.drains[k]? with
    | some (.publishing _) => (q.settle c k true).flushingEntry.toList
    | _ => []
  | _ => []

/-- The entries whose publication succeeds in a turn. -/
def succeeded (q : Queue) : Action ε → List ℕ
  | .settle k true =>
    match q.drains[k]? with
    | some (.publishing i) => [i]
    | _ => []
  | _ => []

def step (c : Codec ε) (o : Options) (s : System) (a : Action ε) : System :=
  let t := { s with
    attempts := s.attempts ++ begun c s.queue a
    published := s.published ++ succeeded s.queue a }
  match a with
  | .enqueue event =>
    let r := s.queue.enqueue c o event
    { t with
      queue := r.2
      accepted := if r.1 then s.accepted ++ [s.queue.next] else s.accepted
      refused := if r.1 then s.refused else s.refused + 1
      evicted := s.evicted ++ s.queue.left r.2 }
  | .flush => { t with queue := s.queue.flush c }
  | .settle k true => { t with queue := s.queue.settle c k true }
  | .settle k false =>
    let r := s.queue.settle c k false
    { t with
      queue := r
      cleared := s.cleared ++ (s.queue.left r).filter fun i => i ∈ s.targeted }
  | .reset k => { t with queue := s.queue.reset k }
  | .clear =>
    { t with
      queue := s.queue.clear
      targeted := s.targeted ++ s.queue.events
      cleared := s.cleared ++ s.queue.left s.queue.clear }

variable {c : Codec ε} {o : Options} {q r : Queue} {i k : ℕ}

/-! ### Evictions -/

/-- The bytes of some entries. -/
def Queue.total (q : Queue) (l : List ℕ) : ℕ := (l.map q.byteLength).sum

/-- `r` is `q` after entries that wait were thrown out, each with a report. -/
structure Evicted (q r : Queue) : Prop where
  sub : r.events.Sublist q.events
  active : ∀ i ∈ q.events, q.flushingEntry = some i → i ∈ r.events
  balance : q.bytes = q.total q.events → r.bytes = q.total r.events
  bytes : r.bytes ≤ q.bytes
  count : r.dropped + r.events.length = q.dropped + q.events.length
  reported : q.dropped = q.overflows.length → r.dropped = r.overflows.length
  same : r = { q with
    events := r.events, bytes := r.bytes, dropped := r.dropped, overflows := r.overflows }

theorem Evicted.refl (q : Queue) : Evicted q q :=
  ⟨List.Sublist.refl _, fun _ hi _ => hi, id, le_rfl, rfl, id, rfl⟩

theorem Evicted.flushingEntry (h : Evicted q r) : r.flushingEntry = q.flushingEntry := by
  rw [h.same]

theorem Evicted.entry (h : Evicted q r) : r.entry = q.entry := by
  rw [h.same]

theorem Evicted.total (h : Evicted q r) (l : List ℕ) : r.total l = q.total l := by
  rw [h.same]
  rfl

theorem Evicted.trans {t : Queue} (h : Evicted q r) (h' : Evicted r t) : Evicted q t where
  sub := h'.sub.trans h.sub
  active i hi hf := h'.active i (h.active i hi hf) (h.flushingEntry.trans hf)
  balance hb := by
    rw [h'.balance (by rw [h.total]; exact h.balance hb), h.total]
  bytes := h'.bytes.trans h.bytes
  count := h'.count.trans h.count
  reported hr := h'.reported (h.reported hr)
  same := by
    have h₁ := h.same
    have h₂ := h'.same
    rw [h₁] at h₂
    exact h₂

/-- One entry that waits is thrown out. -/
theorem evicted_oldest {d : Overflow}
    (hi : q.events.find? (fun i => some i ≠ q.flushingEntry) = some i) :
    Evicted q ({ q with
      events := q.events.erase i, bytes := q.bytes - q.byteLength i }.drop d) where
  sub := List.erase_sublist
  active j hj hf := by
    have hne : j ≠ i := by
      rintro rfl
      have := List.find?_some hi
      simp [hf] at this
    exact (List.mem_erase_of_ne hne).mpr hj
  balance hb := by
    have hsum := List.sum_map_erase q.byteLength (List.mem_of_find?_eq_some hi)
    show q.bytes - q.byteLength i = ((q.events.erase i).map q.byteLength).sum
    rw [hb, Queue.total, ← hsum]
    omega
  bytes := Nat.sub_le _ _
  count := by
    have hmem := List.mem_of_find?_eq_some hi
    have hpos := List.length_pos_of_mem hmem
    show q.dropped + 1 + (q.events.erase i).length = q.dropped + q.events.length
    rw [List.length_erase_of_mem hmem]
    omega
  reported hr := by
    show q.dropped + 1 = (q.overflows ++ [d]).length
    rw [List.length_append, hr]
    rfl
  same := rfl

/-- While somebody waits, `removeOldestWaiting` finds it. -/
theorem exists_waiting (hn : q.events.Nodup) (hw : 0 < q.waitingSize) :
    ∃ i, q.events.find? (fun i => some i ≠ q.flushingEntry) = some i := by
  by_contra hnone
  have hall : ∀ i ∈ q.events, some i = q.flushingEntry := by
    intro i hi
    by_contra hne
    have hsome : (q.events.find? fun i => some i ≠ q.flushingEntry).isSome :=
      List.find?_isSome.mpr ⟨i, hi, by simpa using hne⟩
    exact hnone (Option.isSome_iff_exists.mp hsome)
  unfold Queue.waitingSize at hw
  rcases hevents : q.events with _ | ⟨i, _ | ⟨j, rest⟩⟩
  · simp [hevents] at hw
  · have hi := hall i (by rw [hevents]; exact List.mem_singleton_self i)
    simp [← hi, hevents] at hw
  · rw [hevents] at hall hn
    have hij := (hall i (by simp)).trans (hall j (by simp)).symm
    simp [Option.some_inj.mp hij] at hn

theorem evicted_makeRoom (o : Options) (size fuel : ℕ) (q : Queue) (hn : q.events.Nodup) :
    Evicted q (q.makeRoom o size fuel) := by
  induction fuel generalizing q with
  | zero => exact Evicted.refl q
  | succ fuel ih =>
    rw [Queue.makeRoom]
    split
    · next hloop =>
      obtain ⟨i, hi⟩ := exists_waiting hn hloop.1
      have hout := evicted_oldest (d := ⟨.bytes, q.byteLength i, some o.maxSizeOf,
        some o.maxBytesOf⟩) hi
      simp only [Queue.removeOldestWaiting, hi]
      exact hout.trans (ih _ (hn.sublist hout.sub))
    · exact Evicted.refl q

/-- The passes suffice: when the loop of `enqueue` ends, its test fails. -/
theorem makeRoom_done (o : Options) (size fuel : ℕ) (q : Queue) (hn : q.events.Nodup)
    (hfuel : q.events.length ≤ fuel) :
    ¬ (0 < (q.makeRoom o size fuel).waitingSize ∧
      o.maxBytesOf < (q.makeRoom o size fuel).bytes + size) := by
  induction fuel generalizing q with
  | zero =>
    rintro ⟨hw, -⟩
    unfold Queue.waitingSize Queue.makeRoom at hw
    omega
  | succ fuel ih =>
    rw [Queue.makeRoom]
    split
    · next hloop =>
      obtain ⟨i, hi⟩ := exists_waiting hn hloop.1
      have hout := evicted_oldest (d := ⟨.bytes, q.byteLength i, some o.maxSizeOf,
        some o.maxBytesOf⟩) hi
      have hlength := List.length_erase_of_mem (List.mem_of_find?_eq_some hi)
      simp only [Queue.removeOldestWaiting, hi]
      refine ih _ (hn.sublist hout.sub) ?_
      show (q.events.erase i).length ≤ fuel
      omega
    · next hloop => exact hloop

/-- What `enqueue` can do: throw out entries that wait, and then refuse or add the event.
It adds one only behind an entry that it has thrown out, or with room for it. -/
theorem enqueue_cases (c : Codec ε) (o : Options) (e : ε) (hn : q.events.Nodup) :
    ∃ r, Evicted q r ∧ ((∃ d, q.enqueue c o e = (false, r.drop d)) ∨
      ∃ b, c.encodeInvalidationEvent e = some b ∧ r.bytes + b.length ≤ o.maxBytesOf ∧
        (r.events.length < q.events.length ∨ q.waitingSize < o.maxSizeOf) ∧
        q.enqueue c o e = (true, r.add b)) := by
  have hadmit : ∀ b t, c.encodeInvalidationEvent e = some b → Evicted q t →
      (t.events.length < q.events.length ∨ q.waitingSize < o.maxSizeOf) →
      q.enqueue c o e = t.fit o b →
      ∃ r, Evicted q r ∧ ((∃ d, q.enqueue c o e = (false, r.drop d)) ∨
        ∃ b, c.encodeInvalidationEvent e = some b ∧ r.bytes + b.length ≤ o.maxBytesOf ∧
          (r.events.length < q.events.length ∨ q.waitingSize < o.maxSizeOf) ∧
          q.enqueue c o e = (true, r.add b)) := by
    intro b t hb ht hroom heq
    have hmore := evicted_makeRoom o b.length t.events.length t (hn.sublist ht.sub)
    refine ⟨t.makeRoom o b.length t.events.length, ht.trans hmore, ?_⟩
    by_cases hfits : o.maxBytesOf < (t.makeRoom o b.length t.events.length).bytes + b.length
    · left
      exact ⟨_, by rw [heq, Queue.fit, if_pos hfits]⟩
    · right
      exact ⟨b, hb, not_lt.mp hfits, hroom.imp_left hmore.sub.length_le.trans_lt,
        by rw [heq, Queue.fit, if_neg hfits]⟩
  by_cases hon : o.enabled = some false
  · exact ⟨q, Evicted.refl q, Or.inl ⟨_, by rw [Queue.enqueue, if_pos hon]⟩⟩
  by_cases hsize : o.maxSizeOf ≤ 0
  · exact ⟨q, Evicted.refl q, Or.inl ⟨_, by rw [Queue.enqueue, if_neg hon, if_pos hsize]⟩⟩
  rcases Option.eq_none_or_eq_some (c.encodeInvalidationEvent e) with hb | ⟨b, hb⟩
  · exact ⟨q, Evicted.refl q, Or.inl ⟨_, by
      rw [Queue.enqueue, if_neg hon, if_neg hsize]; simp only [hb]; rfl⟩⟩
  by_cases hbytes : o.maxBytesOf ≤ 0 ∨ o.maxBytesOf < b.length
  · exact ⟨q, Evicted.refl q, Or.inl ⟨_, by
      rw [Queue.enqueue, if_neg hon, if_neg hsize]; simp only [hb, if_pos hbytes]; rfl⟩⟩
  by_cases hfull : o.maxSizeOf ≤ q.waitingSize
  · obtain ⟨i, hi⟩ := exists_waiting hn (by omega)
    have hout := evicted_oldest (d := ⟨.count, q.byteLength i, some o.maxSizeOf,
      some o.maxBytesOf⟩) hi
    have hmem := List.mem_of_find?_eq_some hi
    refine hadmit b _ hb hout (Or.inl ?_) ?_
    · show (q.events.erase i).length < q.events.length
      rw [List.length_erase_of_mem hmem]
      exact Nat.sub_lt (List.length_pos_of_mem hmem) Nat.one_pos
    · rw [Queue.enqueue, if_neg hon, if_neg hsize]
      simp only [hb, if_neg hbytes, if_pos hfull, Queue.removeOldestWaiting, hi]
  · refine hadmit b q hb (Evicted.refl q) (Or.inr (not_le.mp hfull)) ?_
    rw [Queue.enqueue, if_neg hon, if_neg hsize]
    simp only [hb, if_neg hbytes, if_neg hfull]

/-! ### The set in order -/

/-- No drain, one that is over, or one that publishes the oldest entry. -/
def Queue.Phase (q : Queue) : Prop :=
  (q.flushing = false ∧ q.drains = [] ∧ q.flushingEntry = none) ∨
  (q.flushing = true ∧ q.drains = [.finished] ∧ q.flushingEntry = none) ∨
  ∃ i rest, q.flushing = true ∧ q.drains = [.publishing i] ∧ q.flushingEntry = some i ∧
    q.events = i :: rest

/-- Where no drain runs, nothing is being published. -/
theorem Queue.Phase.idle (h : q.Phase) (hflushing : ¬ q.flushing = true) :
    q.drains = [] ∧ q.flushingEntry = none := by
  rcases h with ⟨-, h₂, h₃⟩ | ⟨h₁, -⟩ | ⟨_, _, h₁, -⟩
  · exact ⟨h₂, h₃⟩
  · exact absurd h₁ hflushing
  · exact absurd h₁ hflushing

/-- Only a drain that publishes can settle, and it publishes the oldest entry. -/
theorem Queue.Phase.publishing (h : q.Phase) (hk : q.drains[k]? = some (.publishing i)) :
    ∃ rest, k = 0 ∧ q.flushing = true ∧ q.drains = [.publishing i] ∧
      q.flushingEntry = some i ∧ q.events = i :: rest := by
  rcases h with ⟨-, h₂, -⟩ | ⟨-, h₂, -⟩ | ⟨j, rest, h₁, h₂, h₃, h₄⟩
  · simp [h₂] at hk
  · rw [h₂] at hk
    cases k <;> simp at hk
  · rw [h₂] at hk
    cases k with
    | zero =>
      obtain rfl : j = i := by simpa using hk
      exact ⟨rest, rfl, h₁, h₂, h₃, h₄⟩
    | succ k => simp at hk

structure Queue.Ok (c : Codec ε) (o : Options) (q : Queue) : Prop where
  sorted : q.events.Pairwise (· < ·)
  known : ∀ i ∈ q.events, i < q.next
  bytes : q.bytes = q.total q.events
  bounded : q.bytes ≤ o.maxBytesOf
  decodes : ∀ i ∈ q.events, (c.decodeInvalidationEvent (q.entry i).encoded).isSome
  reported : q.dropped = q.overflows.length
  phase : q.Phase

theorem Queue.Ok.nodup (h : q.Ok c o) : q.events.Nodup := h.sorted.imp fun hlt => hlt.ne

/-- Evictions spare the entry that is being published. -/
theorem Evicted.phase (h : Evicted q r) (hn : q.events.Nodup) (hq : q.Phase) : r.Phase := by
  have hf := h.flushingEntry
  have hd : r.drains = q.drains := by rw [h.same]
  have hfl : r.flushing = q.flushing := by rw [h.same]
  rcases hq with ⟨h₁, h₂, h₃⟩ | ⟨h₁, h₂, h₃⟩ | ⟨i, rest, h₁, h₂, h₃, h₄⟩
  · exact Or.inl ⟨hfl.trans h₁, hd.trans h₂, hf.trans h₃⟩
  · exact Or.inr (Or.inl ⟨hfl.trans h₁, hd.trans h₂, hf.trans h₃⟩)
  · have hmem : i ∈ r.events := h.active i (by rw [h₄]; exact List.mem_cons_self) h₃
    have hnot : i ∉ rest := by
      rw [h₄] at hn
      exact (List.nodup_cons.mp hn).1
    have hsub := h.sub
    rw [h₄] at hsub
    rcases List.sublist_cons_iff.mp hsub with hsub | ⟨kept, hkept, -⟩
    · exact absurd (hsub.subset hmem) hnot
    · exact Or.inr (Or.inr ⟨i, kept, hfl.trans h₁, hd.trans h₂, hf.trans h₃, hkept⟩)

theorem Evicted.ok (h : Evicted q r) (hq : q.Ok c o) : r.Ok c o where
  sorted := hq.sorted.sublist h.sub
  known i hi := by
    rw [h.same]
    exact hq.known i (h.sub.subset hi)
  bytes := by rw [h.balance hq.bytes, h.total]
  bounded := h.bytes.trans hq.bounded
  decodes i hi := by
    rw [h.entry]
    exact hq.decodes i (h.sub.subset hi)
  reported := h.reported hq.reported
  phase := h.phase hq.nodup hq.phase

theorem Queue.Ok.drop (h : q.Ok c o) (d : Overflow) : (q.drop d).Ok c o where
  sorted := h.sorted
  known := h.known
  bytes := h.bytes
  bounded := h.bounded
  decodes := h.decodes
  reported := by
    show q.dropped + 1 = (q.overflows ++ [d]).length
    rw [h.reported, List.length_append, List.length_singleton]
  phase := h.phase

/-- Adding an entry leaves the known ones as they are. -/
theorem entry_add {b : List UInt8} (hi : i < q.next) : (q.add b).entry i = q.entry i :=
  Function.update_of_ne hi.ne ..

theorem Queue.Phase.add (h : q.Phase) (b : List UInt8) : (q.add b).Phase := by
  rcases h with hidle | hover | ⟨i, rest, h₁, h₂, h₃, h₄⟩
  · exact Or.inl hidle
  · exact Or.inr (Or.inl hover)
  · refine Or.inr (Or.inr ⟨i, rest ++ [q.next], h₁, h₂, h₃, ?_⟩)
    show q.events ++ [q.next] = i :: (rest ++ [q.next])
    rw [h₄, List.cons_append]

theorem Queue.Ok.add (h : q.Ok c o) {b : List UInt8} (hfits : q.bytes + b.length ≤ o.maxBytesOf)
    (hb : (c.decodeInvalidationEvent b).isSome) : (q.add b).Ok c o where
  sorted := by
    refine List.pairwise_append.mpr ⟨h.sorted, List.pairwise_singleton .., fun i hi j hj => ?_⟩
    rw [List.mem_singleton.mp hj]
    exact h.known i hi
  known i hi := by
    rcases List.mem_append.mp hi with hi | hi
    · exact Nat.lt_succ_of_lt (h.known i hi)
    · rw [List.mem_singleton.mp hi]
      exact Nat.lt_succ_self _
  bytes := by
    have hold : q.events.map (q.add b).byteLength = q.events.map q.byteLength := by
      refine List.map_congr_left fun i hi => ?_
      rw [Queue.byteLength, entry_add (h.known i hi), Queue.byteLength]
    have hnew : (q.add b).byteLength q.next = b.length := by
      simp [Queue.byteLength, Queue.add]
    show q.bytes + b.length = ((q.events ++ [q.next]).map (q.add b).byteLength).sum
    rw [List.map_append, List.sum_append, hold, h.bytes, Queue.total, List.map_singleton,
      List.sum_singleton, hnew]
  bounded := hfits
  decodes i hi := by
    rcases List.mem_append.mp hi with hi | hi
    · rw [entry_add (h.known i hi)]
      exact h.decodes i hi
    · rw [List.mem_singleton.mp hi]
      simpa [Queue.add] using hb
  reported := h.reported
  phase := h.phase.add b

/-- A drain goes on with the oldest entry, if there is one. -/
theorem publishNext_cases
    (h : ∀ i ∈ q.events, (c.decodeInvalidationEvent (q.entry i).encoded).isSome) :
    (q.events = [] ∧ q.publishNext c q.events = (q, .finished)) ∨
    ∃ i rest, q.events = i :: rest ∧
      q.publishNext c q.events = ({ q with flushingEntry := some i }, .publishing i) := by
  rcases hevents : q.events with _ | ⟨i, rest⟩
  · exact Or.inl ⟨rfl, rfl⟩
  · obtain ⟨e, he⟩ := Option.isSome_iff_exists.mp (h i (by rw [hevents]; exact List.mem_cons_self))
    exact Or.inr ⟨i, rest, rfl, by simp only [Queue.publishNext, he, hevents]⟩

/-- The oldest entry `i` is gone, and nothing is being published. -/
def Queue.shift (q : Queue) (i : ℕ) (rest : List ℕ) : Queue :=
  { q with events := rest, bytes := q.bytes - q.byteLength i, flushingEntry := none }

theorem delete_oldest {rest : List ℕ} (hevents : q.events = i :: rest) :
    q.delete i = { q with events := rest, bytes := q.bytes - q.byteLength i } := by
  rw [Queue.delete, if_pos (by rw [hevents]; exact List.mem_cons_self), hevents,
    List.erase_cons_head]

/-- The oldest entry leaves when its publication succeeds. -/
theorem finish_delete {rest : List ℕ} (hevents : q.events = i :: rest) (hi : i ∉ rest) :
    (q.delete i).finish i = q.shift i rest := by
  rw [delete_oldest hevents, Queue.finish, Queue.delete, if_neg hi, ite_self]
  rfl

/-! ### Where the entries go -/

/-- `l` is in order, and ahead of the queued entries. -/
structure Ordered (R : ℕ → ℕ → Prop) (l events : List ℕ) (next : ℕ) : Prop where
  pairwise : l.Pairwise R
  ahead : ∀ a ∈ l, ∀ i ∈ events, R a i
  below : ∀ a ∈ l, a < next

variable {R : ℕ → ℕ → Prop} {l events events' : List ℕ} {next : ℕ}

theorem Ordered.mono (h : Ordered R l events next) (hsub : ∀ i ∈ events', i ∈ events) :
    Ordered R l events' next :=
  ⟨h.pairwise, fun a ha i hi => h.ahead a ha i (hsub i hi), h.below⟩

/-- A new entry comes after everything. -/
theorem Ordered.grow (h : Ordered R l events next) (hR : ∀ a b, a < b → R a b) :
    Ordered R l (events ++ [next]) (next + 1) where
  pairwise := h.pairwise
  ahead a ha i hi := by
    rcases List.mem_append.mp hi with hi | hi
    · exact h.ahead a ha i hi
    · rw [List.mem_singleton.mp hi]
      exact hR a next (h.below a ha)
  below a ha := Nat.lt_succ_of_lt (h.below a ha)

/-- The oldest entry joins the list. -/
theorem Ordered.snoc (h : Ordered R l events next) (hi : i ∈ events) (hlt : i < next)
    (hfirst : ∀ j ∈ events', R i j) (hsub : ∀ j ∈ events', j ∈ events) :
    Ordered R (l ++ [i]) events' next where
  pairwise := by
    refine List.pairwise_append.mpr ⟨h.pairwise, List.pairwise_singleton .., fun a ha j hj => ?_⟩
    rw [List.mem_singleton.mp hj]
    exact h.ahead a ha i hi
  ahead a ha j hj := by
    rcases List.mem_append.mp ha with ha | ha
    · exact h.ahead a ha j (hsub j hj)
    · rw [List.mem_singleton.mp ha]
      exact hfirst j hj
  below a ha := by
    rcases List.mem_append.mp ha with ha | ha
    · exact h.below a ha
    · rw [List.mem_singleton.mp ha]
      exact hlt

/-- What has left and what has stayed make up the old set. -/
theorem left_perm {kept : List ℕ} (hsub : kept.Sublist q.events) (hn : q.events.Nodup)
    (hkept : ∀ i ∈ q.events, i ∈ r.events ↔ i ∈ kept) :
    (q.left r ++ kept).Perm q.events := by
  have hdisjoint : (q.left r).Disjoint kept := by
    intro i hi hk
    have := (List.mem_filter.mp hi).2
    exact (of_decide_eq_true this) ((hkept i (hsub.subset hk)).mpr hk)
  have hnodup : (q.left r ++ kept).Nodup :=
    List.Nodup.append (hn.filter _) (hn.sublist hsub) hdisjoint
  refine (List.perm_ext_iff_of_nodup hnodup hn).mpr fun i => ⟨fun hi => ?_, fun hi => ?_⟩
  · rcases List.mem_append.mp hi with hi | hi
    · exact List.mem_of_mem_filter hi
    · exact hsub.subset hi
  · by_cases hk : i ∈ kept
    · exact List.mem_append_right _ hk
    · exact List.mem_append_left _
        (List.mem_filter.mpr ⟨hi, decide_eq_true (mt (hkept i hi).mp hk)⟩)

theorem left_eq_nil (h : r.events = q.events) : q.left r = [] := by
  rw [Queue.left, h]
  exact List.filter_eq_nil_iff.mpr fun i hi => by simpa using hi

structure Inv (c : Codec ε) (o : Options) (s : System) : Prop where
  ok : s.queue.Ok c o
  accepted : s.accepted = List.range s.queue.next
  fates : (s.published ++ s.evicted ++ s.cleared ++ s.queue.events).Perm s.accepted
  dropped : s.queue.dropped = s.evicted.length + s.refused
  marked : ∀ i ∈ s.queue.events, (s.queue.entry i).discardAfterPublish = true → i ∈ s.targeted
  active : ∀ i, s.queue.flushingEntry = some i → i ∈ s.attempts
  attempts : Ordered (· ≤ ·) s.attempts s.queue.events s.queue.next
  published : Ordered (· < ·) s.published s.queue.events s.queue.next

theorem inv_init : Inv c o System.init where
  ok := ⟨List.Pairwise.nil, nofun, rfl, Nat.zero_le _, nofun, rfl, Or.inl ⟨rfl, rfl, rfl⟩⟩
  accepted := rfl
  fates := List.Perm.nil
  dropped := rfl
  marked := nofun
  active := nofun
  attempts := ⟨List.Pairwise.nil, nofun, nofun⟩
  published := ⟨List.Pairwise.nil, nofun, nofun⟩

variable {s : System}

theorem inv_enqueue
    (hc : ∀ e b, c.encodeInvalidationEvent e = some b → c.decodeInvalidationEvent b = some e)
    (h : Inv c o s) (e : ε) : Inv c o (step c o s (.enqueue e)) := by
  obtain ⟨r, hr, ⟨d, heq⟩ | ⟨b, hb, hfits, -, heq⟩⟩ := enqueue_cases c o e h.ok.nodup
  · have hperm : (s.queue.left (r.drop d) ++ r.events).Perm s.queue.events :=
      left_perm hr.sub h.ok.nodup fun i _ => Iff.rfl
    have hlength := hperm.length_eq
    rw [List.length_append] at hlength
    simp only [step, begun, succeeded, List.append_nil, heq]
    refine ⟨(hr.ok h.ok).drop d, ?_, ?_, ?_, ?_, fun i hi => h.active i ?_, ?_, ?_⟩
    · show s.accepted = List.range r.next
      rw [hr.same]
      exact h.accepted
    · refine List.perm_iff_count.mpr fun a => ?_
      have h₁ := List.perm_iff_count.mp h.fates a
      have h₂ := List.perm_iff_count.mp hperm a
      show List.count a (_ ++ r.events) = List.count a s.accepted
      simp only [List.count_append] at h₁ h₂ ⊢
      omega
    · have hcount := hr.count
      have hd := h.dropped
      show r.dropped + 1 = (s.evicted ++ s.queue.left (r.drop d)).length + (s.refused + 1)
      rw [List.length_append]
      omega
    · intro i hi hm
      exact h.marked i (hr.sub.subset hi) (by rw [← hr.entry]; exact hm)
    · exact hr.flushingEntry.symm.trans hi
    · show Ordered _ _ r.events r.next
      rw [show r.next = s.queue.next by rw [hr.same]]
      exact h.attempts.mono fun i hi => hr.sub.subset hi
    · show Ordered _ _ r.events r.next
      rw [show r.next = s.queue.next by rw [hr.same]]
      exact h.published.mono fun i hi => hr.sub.subset hi
  · have hnext : r.next = s.queue.next := by rw [hr.same]
    have hperm : (s.queue.left (r.add b) ++ r.events).Perm s.queue.events := by
      refine left_perm hr.sub h.ok.nodup fun i hi => ?_
      have hne : i ≠ r.next := hnext ▸ (h.ok.known i hi).ne
      simp [Queue.add, hne]
    have hlength := hperm.length_eq
    rw [List.length_append] at hlength
    simp only [step, begun, succeeded, List.append_nil, heq]
    refine ⟨(hr.ok h.ok).add hfits (by rw [hc e b hb]; rfl), ?_, ?_, ?_, ?_,
      fun i hi => h.active i ?_, ?_, ?_⟩
    · show s.accepted ++ [s.queue.next] = List.range (r.next + 1)
      rw [hnext, List.range_succ, h.accepted]
    · refine List.perm_iff_count.mpr fun a => ?_
      have h₁ := List.perm_iff_count.mp h.fates a
      have h₂ := List.perm_iff_count.mp hperm a
      show List.count a (_ ++ (r.events ++ [r.next])) = List.count a (s.accepted ++ [s.queue.next])
      rw [hnext]
      simp only [List.count_append] at h₁ h₂ ⊢
      omega
    · have hcount := hr.count
      have hd := h.dropped
      show r.dropped = (s.evicted ++ s.queue.left (r.add b)).length + s.refused
      rw [List.length_append]
      omega
    · intro i hi hm
      rcases List.mem_append.mp hi with hi | hi
      · have hlt : i < r.next := hnext ▸ h.ok.known i (hr.sub.subset hi)
        rw [entry_add hlt, hr.entry] at hm
        exact h.marked i (hr.sub.subset hi) hm
      · rw [List.mem_singleton.mp hi] at hm
        simp [Queue.add] at hm
    · exact hr.flushingEntry.symm.trans hi
    · show Ordered _ _ (r.events ++ [r.next]) (r.next + 1)
      rw [hnext]
      exact (h.attempts.mono fun i hi => hr.sub.subset hi).grow fun a b hlt => hlt.le
    · show Ordered _ _ (r.events ++ [r.next]) (r.next + 1)
      rw [hnext]
      exact (h.published.mono fun i hi => hr.sub.subset hi).grow fun a b hlt => hlt

/-- `f` and `d` are where a drain stands that went on with these entries. -/
def Resumed (events : List ℕ) (f : Option ℕ) (d : Drain) : Prop :=
  (f = none ∧ d = .finished) ∨ ∃ i rest, events = i :: rest ∧ f = some i ∧ d = .publishing i

theorem publishNext_resumed (hf : q.flushingEntry = none)
    (h : ∀ i ∈ q.events, (c.decodeInvalidationEvent (q.entry i).encoded).isSome) :
    ∃ f d, Resumed q.events f d ∧
      q.publishNext c q.events = ({ q with flushingEntry := f }, d) := by
  rcases publishNext_cases h with ⟨-, heq⟩ | ⟨i, rest, hevents, heq⟩
  · refine ⟨none, .finished, Or.inl ⟨rfl, rfl⟩, ?_⟩
    rw [heq, ← hf]
  · exact ⟨some i, .publishing i, Or.inr ⟨i, rest, hevents, rfl, rfl⟩, heq⟩

/-- A drain that goes on publishes the oldest entry. -/
theorem Inv.resume (h : Inv c o s) {f : Option ℕ} {d : Drain}
    (hd : Resumed s.queue.events f d) :
    Inv c o { s with
      queue := { s.queue with flushing := true, flushingEntry := f, drains := [d] }
      attempts := s.attempts ++ f.toList } where
  ok :=
    { sorted := h.ok.sorted
      known := h.ok.known
      bytes := h.ok.bytes
      bounded := h.ok.bounded
      decodes := h.ok.decodes
      reported := h.ok.reported
      phase := by
        rcases hd with ⟨rfl, rfl⟩ | ⟨i, rest, hevents, rfl, rfl⟩
        · exact Or.inr (Or.inl ⟨rfl, rfl, rfl⟩)
        · exact Or.inr (Or.inr ⟨i, rest, rfl, rfl, rfl, hevents⟩) }
  accepted := h.accepted
  fates := h.fates
  dropped := h.dropped
  marked := h.marked
  active i hi := by
    have hi : f = some i := hi
    exact List.mem_append_right _ (by rw [hi]; exact List.mem_singleton_self i)
  attempts := by
    rcases hd with ⟨rfl, rfl⟩ | ⟨i, rest, hevents, rfl, rfl⟩
    · simpa using h.attempts
    · have hi : i ∈ s.queue.events := by rw [hevents]; exact List.mem_cons_self
      refine h.attempts.snoc hi (h.ok.known i hi) (fun j hj => ?_) fun j hj => hj
      have hsorted := h.ok.sorted
      have hj : j ∈ i :: rest := hevents ▸ hj
      rw [hevents] at hsorted
      rcases List.mem_cons.mp hj with rfl | hj
      · exact le_rfl
      · exact ((List.pairwise_cons.mp hsorted).1 j hj).le
  published := h.published

theorem inv_flush (h : Inv c o s) : Inv c o (step c o s .flush) := by
  by_cases hflushing : s.queue.flushing = true
  · have hstep : step c o s .flush = s := by
      simp only [step, begun, succeeded, Queue.flush, if_pos hflushing, List.append_nil]
    rw [hstep]
    exact h
  · have hidle := h.ok.phase.idle hflushing
    obtain ⟨f, d, hd, hnext⟩ := publishNext_resumed hidle.2 h.ok.decodes
    have hflush : s.queue.flush c =
        { s.queue with flushing := true, flushingEntry := f, drains := [d] } := by
      simp only [Queue.flush, if_neg hflushing, hnext, hidle.1, List.nil_append]
    have hstep : step c o s .flush = { s with
        queue := { s.queue with flushing := true, flushingEntry := f, drains := [d] }
        attempts := s.attempts ++ f.toList } := by
      simp only [step, begun, succeeded, hflush, if_neg hflushing, List.append_nil]
    rw [hstep]
    exact h.resume hd

theorem Queue.Ok.publishing (h : q.Ok c o) (hk : q.drains[k]? = some (.publishing i)) :
    ∃ rest, k = 0 ∧ q.flushing = true ∧ q.drains = [.publishing i] ∧
      q.flushingEntry = some i ∧ q.events = i :: rest :=
  h.phase.publishing hk

/-- The oldest entry is gone for good, and the drain that published it is over. -/
theorem Queue.Ok.shift (h : q.Ok c o) {rest : List ℕ} (hflushing : q.flushing = true)
    (hevents : q.events = i :: rest) :
    Queue.Ok c o { q.shift i rest with drains := [.finished] } where
  sorted := (List.pairwise_cons.mp (hevents ▸ h.sorted)).2
  known j hj := h.known j (by rw [hevents]; exact List.mem_cons_of_mem i hj)
  bytes := by
    have hb := h.bytes
    rw [hevents, Queue.total, List.map_cons, List.sum_cons] at hb
    show q.bytes - q.byteLength i = (rest.map q.byteLength).sum
    omega
  bounded := (Nat.sub_le _ _).trans h.bounded
  decodes j hj := h.decodes j (by rw [hevents]; exact List.mem_cons_of_mem i hj)
  reported := h.reported
  phase := Or.inr (Or.inl ⟨hflushing, rfl, rfl⟩)

theorem inv_settle_ok (h : Inv c o s) (hk : s.queue.drains[k]? = some (.publishing i)) :
    Inv c o (step c o s (.settle k true)) := by
  obtain ⟨rest, rfl, hflushing, hdrains, -, hevents⟩ := h.ok.publishing hk
  have hi : i ∉ rest := (List.nodup_cons.mp (hevents ▸ h.ok.nodup)).1
  have hsub : ∀ j ∈ rest, j ∈ s.queue.events := fun j hj => by
    rw [hevents]
    exact List.mem_cons_of_mem i hj
  have hmem : i ∈ s.queue.events := by rw [hevents]; exact List.mem_cons_self
  -- the state between the deletion and the next pass of the loop
  have hmid : Inv c o { s with
      queue := { s.queue.shift i rest with drains := [.finished] }
      published := s.published ++ [i] } :=
    { ok := h.ok.shift hflushing hevents
      accepted := h.accepted
      fates := by
        refine List.perm_iff_count.mpr fun a => ?_
        have hfates := List.perm_iff_count.mp h.fates a
        rw [hevents] at hfates
        show List.count a (s.published ++ [i] ++ s.evicted ++ s.cleared ++ rest) = _
        rw [← List.singleton_append] at hfates
        simp only [List.count_append] at hfates ⊢
        omega
      dropped := h.dropped
      marked := fun j hj => h.marked j (hsub j hj)
      active := nofun
      attempts := h.attempts.mono hsub
      published := h.published.snoc hmem (h.ok.known i hmem)
        (List.pairwise_cons.mp (hevents ▸ h.ok.sorted)).1 hsub }
  obtain ⟨f, d, hd, hnext⟩ := publishNext_resumed (c := c) (q := s.queue.shift i rest) rfl
    fun j hj => h.ok.decodes j (hsub j hj)
  have hsettle : s.queue.settle c 0 true =
      { s.queue.shift i rest with flushing := true, flushingEntry := f, drains := [d] } := by
    have hflush : (s.queue.shift i rest).flushing = true := hflushing
    have hold : (s.queue.shift i rest).drains = [.publishing i] := hdrains
    simp only [Queue.settle, hdrains, List.getElem?_cons_zero, finish_delete hevents hi, hnext,
      hold, List.set_cons_zero, hflush, if_true]
  have hstep : step c o s (.settle 0 true) = { s with
      queue := { s.queue.shift i rest with flushing := true, flushingEntry := f, drains := [d] }
      published := s.published ++ [i]
      attempts := s.attempts ++ f.toList } := by
    simp only [step, begun, succeeded, hsettle, hdrains, List.getElem?_cons_zero]
  rw [hstep]
  exact hmid.resume hd

theorem inv_settle_err (h : Inv c o s) (hk : s.queue.drains[k]? = some (.publishing i)) :
    Inv c o (step c o s (.settle k false)) := by
  obtain ⟨rest, rfl, hflushing, hdrains, -, hevents⟩ := h.ok.publishing hk
  have hmem : i ∈ s.queue.events := by rw [hevents]; exact List.mem_cons_self
  by_cases hdiscard : (s.queue.entry i).discardAfterPublish = true
  · -- the entry was there when `clear` was called, and leaves with its failure
    have hsub : ∀ j ∈ rest, j ∈ s.queue.events := fun j hj => by
      rw [hevents]
      exact List.mem_cons_of_mem i hj
    have hsettle : s.queue.settle c 0 false =
        { s.queue.shift i rest with drains := [.finished] } := by
      simp only [Queue.settle, hdrains, List.getElem?_cons_zero, Queue.finish, if_pos hdiscard,
        delete_oldest hevents, List.set_cons_zero, Bool.false_eq_true, if_false]
      rfl
    have hperm : (s.queue.left (s.queue.settle c 0 false) ++ rest).Perm s.queue.events := by
      refine left_perm (by rw [hevents]; exact List.sublist_cons_self i rest) h.ok.nodup
        fun j _ => ?_
      rw [hsettle]
      exact Iff.rfl
    have hall : (s.queue.left (s.queue.settle c 0 false)).filter (fun j => j ∈ s.targeted) =
        s.queue.left (s.queue.settle c 0 false) := by
      refine List.filter_eq_self.mpr fun j hj => ?_
      obtain ⟨hj, hnot⟩ := List.mem_filter.mp hj
      rw [hsettle] at hnot
      have hj : j ∈ i :: rest := hevents ▸ hj
      rcases List.mem_cons.mp hj with rfl | hj
      · exact decide_eq_true (h.marked j hmem hdiscard)
      · exact absurd hj (of_decide_eq_true hnot)
    simp only [step, begun, succeeded, List.append_nil, hall]
    rw [hsettle] at hperm ⊢
    refine ⟨h.ok.shift hflushing hevents, h.accepted, ?_, h.dropped,
      fun j hj => h.marked j (hsub j hj), nofun, h.attempts.mono hsub, h.published.mono hsub⟩
    refine List.perm_iff_count.mpr fun a => ?_
    have h₁ := List.perm_iff_count.mp h.fates a
    have h₂ := List.perm_iff_count.mp hperm a
    show List.count a (_ ++ rest) = List.count a s.accepted
    simp only [List.count_append] at h₁ h₂ ⊢
    omega
  · have hsettle : s.queue.settle c 0 false = { s.queue with
        flushingEntry := none, drains := [.finished] } := by
      simp only [Queue.settle, hdrains, List.getElem?_cons_zero, Queue.finish, if_neg hdiscard,
        List.set_cons_zero, Bool.false_eq_true, if_false]
    have hleft : s.queue.left (s.queue.settle c 0 false) = [] :=
      left_eq_nil (by rw [hsettle])
    simp only [step, begun, succeeded, List.append_nil, hleft, List.filter_nil]
    rw [hsettle]
    exact ⟨⟨h.ok.sorted, h.ok.known, h.ok.bytes, h.ok.bounded, h.ok.decodes, h.ok.reported,
      Or.inr (Or.inl ⟨hflushing, rfl, rfl⟩)⟩, h.accepted, h.fates, h.dropped, h.marked, nofun,
      h.attempts, h.published⟩

theorem inv_settle (h : Inv c o s) (k : ℕ) (b : Bool) : Inv c o (step c o s (.settle k b)) := by
  have hnothing : (∀ i, s.queue.drains[k]? ≠ some (.publishing i)) →
      step c o s (.settle k b) = s := by
    intro hk
    rcases hd : s.queue.drains[k]? with _ | (i | _)
    · cases b <;>
        simp only [step, begun, succeeded, Queue.settle, hd, left_eq_nil, List.filter_nil,
          List.append_nil]
    · exact absurd hd (hk i)
    · cases b <;>
        simp only [step, begun, succeeded, Queue.settle, hd, left_eq_nil, List.filter_nil,
          List.append_nil]
  by_cases hk : ∃ i, s.queue.drains[k]? = some (.publishing i)
  · obtain ⟨i, hi⟩ := hk
    cases b with
    | true => exact inv_settle_ok h hi
    | false => exact inv_settle_err h hi
  · rw [hnothing fun i hi => hk ⟨i, hi⟩]
    exact h

theorem inv_reset (h : Inv c o s) (k : ℕ) : Inv c o (step c o s (.reset k)) := by
  simp only [step, begun, succeeded, List.append_nil]
  unfold Queue.reset
  split
  · next hk =>
    -- the only drain there can be is over, and goes
    have hidle : s.queue.drains.eraseIdx k = [] ∧ s.queue.flushingEntry = none := by
      rcases h.ok.phase with ⟨-, h₂, -⟩ | ⟨-, h₂, h₃⟩ | ⟨i, rest, -, h₂, -⟩
      · simp [h₂] at hk
      · rw [h₂] at hk ⊢
        cases k with
        | zero => exact ⟨rfl, h₃⟩
        | succ k => simp at hk
      · rw [h₂] at hk
        cases k <;> simp at hk
    exact ⟨⟨h.ok.sorted, h.ok.known, h.ok.bytes, h.ok.bounded, h.ok.decodes, h.ok.reported,
      Or.inl ⟨rfl, hidle⟩⟩, h.accepted, h.fates, h.dropped, h.marked, h.active, h.attempts,
      h.published⟩
  · exact h

theorem inv_clear (h : Inv c o s) : Inv c o (step c o s .clear) := by
  simp only [step, begun, succeeded, List.append_nil]
  rcases hf : s.queue.flushingEntry with _ | i
  · have hclear : s.queue.clear = { s.queue with events := [], bytes := 0 } := by
      simp only [Queue.clear, hf]
    have hperm : (s.queue.left s.queue.clear ++ []).Perm s.queue.events := by
      refine left_perm (List.nil_sublist _) h.ok.nodup fun j _ => ?_
      rw [hclear]
    rw [hclear] at hperm ⊢
    refine ⟨⟨List.Pairwise.nil, nofun, rfl, Nat.zero_le _, nofun, h.ok.reported, ?_⟩,
      h.accepted, ?_, h.dropped, nofun, h.active, h.attempts.mono nofun, h.published.mono nofun⟩
    · rcases h.ok.phase with hidle | hover | ⟨i, rest, -, -, h₃, -⟩
      · exact Or.inl hidle
      · exact Or.inr (Or.inl hover)
      · exact absurd (hf.symm.trans h₃) nofun
    · refine List.perm_iff_count.mpr fun a => ?_
      have h₁ := List.perm_iff_count.mp h.fates a
      have h₂ := List.perm_iff_count.mp hperm a
      show List.count a (_ ++ []) = List.count a s.accepted
      simp only [List.count_append] at h₁ h₂ ⊢
      omega
  · -- the entry that is being published stays, marked
    obtain ⟨rest, hphase⟩ : ∃ rest, s.queue.flushing = true ∧ s.queue.drains = [.publishing i] ∧
        s.queue.events = i :: rest := by
      rcases h.ok.phase with ⟨-, -, h₃⟩ | ⟨-, -, h₃⟩ | ⟨j, rest, h₁, h₂, h₃, h₄⟩
      · exact absurd (hf.symm.trans h₃) nofun
      · exact absurd (hf.symm.trans h₃) nofun
      · obtain rfl : i = j := Option.some_inj.mp (hf.symm.trans h₃)
        exact ⟨rest, h₁, h₂, h₄⟩
    obtain ⟨hflushing, hdrains, hevents⟩ := hphase
    have hmem : i ∈ s.queue.events := by rw [hevents]; exact List.mem_cons_self
    have hsub : ∀ j ∈ [i], j ∈ s.queue.events := fun j hj => by
      rw [List.mem_singleton.mp hj]
      exact hmem
    have hlength : s.queue.clear.byteLength i = s.queue.byteLength i := by
      simp only [Queue.clear, hf, Queue.byteLength, Function.update_self]
    have hencoded : (s.queue.clear.entry i).encoded = (s.queue.entry i).encoded := by
      simp only [Queue.clear, hf, Function.update_self]
    have hclear : s.queue.clear = { s.queue with
        events := [i], bytes := s.queue.byteLength i, entry := s.queue.clear.entry } := by
      simp only [Queue.clear, hf]
    have hperm : (s.queue.left s.queue.clear ++ [i]).Perm s.queue.events := by
      refine left_perm (List.singleton_sublist.mpr hmem) h.ok.nodup fun j _ => ?_
      rw [hclear]
    have hbounded : s.queue.byteLength i ≤ o.maxBytesOf := by
      have hb := h.ok.bytes
      have hle := h.ok.bounded
      rw [hevents, Queue.total, List.map_cons, List.sum_cons] at hb
      omega
    generalize s.queue.left s.queue.clear = gone at hperm ⊢
    generalize hq : s.queue.clear = r at hclear hlength hencoded ⊢
    refine ⟨⟨?_, ?_, ?_, ?_, ?_, ?_, ?_⟩, ?_, ?_, ?_, ?_, ?_, ?_, ?_⟩
    · rw [hclear]
      exact List.pairwise_singleton ..
    · rw [hclear]
      exact fun j hj => h.ok.known j (hsub j hj)
    · have hevents : r.events = [i] := by rw [hclear]
      rw [hevents, Queue.total, List.map_singleton, List.sum_singleton, hlength, hclear]
    · rw [hclear]
      exact hbounded
    · intro j hj
      have hevents : r.events = [i] := by rw [hclear]
      rw [hevents] at hj
      rw [List.mem_singleton.mp hj, hencoded]
      exact h.ok.decodes i hmem
    · rw [hclear]
      exact h.ok.reported
    · rw [hclear]
      exact Or.inr (Or.inr ⟨i, [], hflushing, hdrains, hf, rfl⟩)
    · rw [hclear]
      exact h.accepted
    · refine List.perm_iff_count.mpr fun a => ?_
      have hevents : r.events = [i] := by rw [hclear]
      have h₁ := List.perm_iff_count.mp h.fates a
      have h₂ := List.perm_iff_count.mp hperm a
      rw [hevents]
      simp only [List.count_append] at h₁ h₂ ⊢
      omega
    · rw [hclear]
      exact h.dropped
    · intro j hj _
      have hevents : r.events = [i] := by rw [hclear]
      rw [hevents] at hj
      exact List.mem_append_right _ (hsub j hj)
    · rw [hclear]
      exact h.active
    · rw [hclear]
      exact h.attempts.mono hsub
    · rw [hclear]
      exact h.published.mono hsub

theorem inv_step
    (hc : ∀ e b, c.encodeInvalidationEvent e = some b → c.decodeInvalidationEvent b = some e)
    (h : Inv c o s) (a : Action ε) : Inv c o (step c o s a) := by
  cases a with
  | enqueue e => exact inv_enqueue hc h e
  | flush => exact inv_flush h
  | settle k b => exact inv_settle h k b
  | reset k => exact inv_reset h k
  | clear => exact inv_clear h

/-! ### Every run -/

/-- The system after the first `n` turns of `acts`. -/
def stateOf (c : Codec ε) (o : Options) (acts : List (Action ε)) (n : ℕ) : System :=
  stateAt (step c o) System.init acts n

variable {acts : List (Action ε)} {m n : ℕ} {a : Action ε}

theorem inv_stateOf
    (hc : ∀ e b, c.encodeInvalidationEvent e = some b → c.decodeInvalidationEvent b = some e)
    (o : Options) (acts : List (Action ε)) (n : ℕ) : Inv c o (stateOf c o acts n) :=
  invariant inv_init (fun _ a h => inv_step hc h a) n

theorem stateOf_succ (ha : acts[n]? = some a) :
    stateOf c o acts (n + 1) = step c o (stateOf c o acts n) a :=
  stateAt_succ ha

theorem published_step (s : System) (a : Action ε) :
    (step c o s a).published = s.published ++ succeeded s.queue a := by
  rcases a with e | _ | ⟨k, _ | _⟩ | k | _ <;> rfl

theorem attempts_step (s : System) (a : Action ε) :
    (step c o s a).attempts = s.attempts ++ begun c s.queue a := by
  rcases a with e | _ | ⟨k, _ | _⟩ | k | _ <;> rfl

theorem published_mono (hmn : m ≤ n) (hi : i ∈ (stateOf c o acts m).published) :
    i ∈ (stateOf c o acts n).published :=
  invariant_from (P := fun t : System => i ∈ t.published) hi
    (fun k a _ _ h => by rw [published_step]; exact List.mem_append_left _ h) n hmn

theorem attempts_mono (hmn : m ≤ n) (hi : i ∈ (stateOf c o acts m).attempts) :
    i ∈ (stateOf c o acts n).attempts :=
  invariant_from (P := fun t : System => i ∈ t.attempts) hi
    (fun k a _ _ h => by rw [attempts_step]; exact List.mem_append_left _ h) n hmn

/-- The entry that is being published is queued. -/
theorem Queue.Ok.mem_of_flushing (h : q.Ok c o) (hi : q.flushingEntry = some i) :
    i ∈ q.events := by
  rcases h.phase with ⟨-, -, h₃⟩ | ⟨-, -, h₃⟩ | ⟨j, rest, -, -, h₃, h₄⟩
  · exact absurd (hi.symm.trans h₃) nofun
  · exact absurd (hi.symm.trans h₃) nofun
  · obtain rfl : i = j := Option.some_inj.mp (hi.symm.trans h₃)
    rw [h₄]
    exact List.mem_cons_self

theorem flushing_of_begun (hi : i ∈ begun c s.queue a) :
    (step c o s a).queue.flushingEntry = some i := by
  rcases a with e | _ | ⟨k, _ | _⟩ | k | _
  · cases hi
  · rw [begun] at hi
    split at hi
    · cases hi
    · exact Option.mem_toList.mp hi
  · cases hi
  · unfold begun at hi
    simp only at hi
    split at hi
    · exact Option.mem_toList.mp hi
    · cases hi
  · cases hi
  · cases hi

theorem Inv.accepted_pairwise (h : Inv c o s) : s.accepted.Pairwise (· < ·) := by
  rw [h.accepted]
  exact List.pairwise_lt_range

theorem Inv.fates_nodup (h : Inv c o s) :
    (s.published ++ s.evicted ++ s.cleared ++ s.queue.events).Nodup :=
  h.fates.nodup_iff.mpr (h.accepted_pairwise.imp fun hlt => hlt.ne)

/-- An entry whose publication fails stays, unless `clear` was called meanwhile. -/
theorem Inv.failed_stays (h : Inv c o s) (h' : Inv c o (step c o s (.settle k false)))
    (hk : s.queue.drains[k]? = some (.publishing i)) :
    i ∈ (step c o s (.settle k false)).queue.events ∨
      i ∈ (step c o s (.settle k false)).cleared := by
  obtain ⟨rest, -, -, -, -, hevents⟩ := h.ok.publishing hk
  have hi : i ∈ s.queue.events := by rw [hevents]; exact List.mem_cons_self
  have hnext : (s.queue.settle c k false).next = s.queue.next := by
    simp only [Queue.settle, hk, Bool.false_eq_true, if_false, Queue.finish, Queue.delete]
    split_ifs <;> rfl
  have haccepted : i ∈ (step c o s (.settle k false)).accepted := by
    rw [h'.accepted]
    exact List.mem_range.mpr (hnext.symm ▸ h.ok.known i hi)
  -- it has not been published and not been thrown out before
  have hnot := (List.nodup_append.mp h.fates_nodup).2.2
  have hold : i ∉ s.published ++ s.evicted := fun hmem =>
    hnot i (List.mem_append_left _ hmem) i hi rfl
  rcases List.mem_append.mp (h'.fates.mem_iff.mpr haccepted) with hmem | hmem
  · rcases List.mem_append.mp hmem with hmem | hmem
    · have hnone : succeeded s.queue (.settle k false : Action ε) = [] := rfl
      rw [published_step, hnone, List.append_nil] at hmem
      exact absurd hmem hold
    · exact Or.inr hmem
  · exact Or.inl hmem

/-- An entry that has been tried is the oldest as long as it is queued. -/
theorem Inv.tried_first (h : Inv c o s) (ha : i ∈ s.attempts) (hi : i ∈ s.queue.events) :
    s.queue.events.head? = some i := by
  rcases hevents : s.queue.events with _ | ⟨j, rest⟩
  · rw [hevents] at hi
    cases hi
  · have hj : j ∈ s.queue.events := by rw [hevents]; exact List.mem_cons_self
    have hle := h.attempts.ahead i ha j hj
    have hsorted := h.ok.sorted
    rw [hevents] at hi hsorted
    rcases List.mem_cons.mp hi with rfl | hi
    · rfl
    · exact absurd ((List.pairwise_cons.mp hsorted).1 i hi) (not_lt.mpr hle)

/-- When events decode to themselves, then in every run, before the `n`-th turn:
`retainedBytes` is the size of the queued entries and at most `maxBytes`; at most one
publication is active; entries are accepted, queued and published in one order; what has
succeeded is not published again; what has failed stays, ahead of all others, unless
`clear` was called; and the accepted entries are, each exactly once, published,
thrown out, removed by `clear` or still queued, where `droppedCount` counts those
thrown out and the events that were refused. -/
theorem lossless (c : Codec ε) (o : Options)
    (hc : ∀ e b, c.encodeInvalidationEvent e = some b → c.decodeInvalidationEvent b = some e)
    (acts : List (Action ε)) :
    (∀ n, (stateOf c o acts n).queue.bytes =
        ((stateOf c o acts n).queue.events.map (stateOf c o acts n).queue.byteLength).sum ∧
      (stateOf c o acts n).queue.bytes ≤ o.maxBytesOf) ∧
    (∀ n i j k l : ℕ, (stateOf c o acts n).queue.drains[k]? = some (Drain.publishing i) →
      (stateOf c o acts n).queue.drains[l]? = some (Drain.publishing j) → k = l) ∧
    (∀ n, (stateOf c o acts n).accepted.Pairwise (· < ·) ∧
      (stateOf c o acts n).queue.events.Pairwise (· < ·) ∧
      (stateOf c o acts n).attempts.Pairwise (· ≤ ·)) ∧
    (∀ m n a i, m ≤ n + 1 → acts[n]? = some a → i ∈ (stateOf c o acts m).published →
      i ∉ begun c (stateOf c o acts n).queue a) ∧
    (∀ n k i, acts[n]? = some (.settle k false) →
      (stateOf c o acts n).queue.drains[k]? = some (.publishing i) →
      (i ∈ (stateOf c o acts (n + 1)).queue.events ∨
        i ∈ (stateOf c o acts (n + 1)).cleared) ∧
      ∀ m, n < m → i ∈ (stateOf c o acts m).queue.events →
        (stateOf c o acts m).queue.events.head? = some i) ∧
    ∀ n, ((stateOf c o acts n).published ++ (stateOf c o acts n).evicted ++
        (stateOf c o acts n).cleared ++ (stateOf c o acts n).queue.events).Perm
          (stateOf c o acts n).accepted ∧
      (stateOf c o acts n).queue.dropped =
        (stateOf c o acts n).evicted.length + (stateOf c o acts n).refused := by
  have hinv := inv_stateOf hc o acts
  refine ⟨fun n => ⟨(hinv n).ok.bytes, (hinv n).ok.bounded⟩, ?_, fun n =>
    ⟨(hinv n).accepted_pairwise, (hinv n).ok.sorted, (hinv n).attempts.pairwise⟩, ?_, ?_,
    fun n => ⟨(hinv n).fates, (hinv n).dropped⟩⟩
  · intro n i j k l hk hl
    obtain ⟨-, rfl, -⟩ := (hinv n).ok.publishing hk
    obtain ⟨-, rfl, -⟩ := (hinv n).ok.publishing hl
    rfl
  · intro m n a i hm ha hi hbegun
    have hflushing := flushing_of_begun (o := o) hbegun
    rw [← stateOf_succ ha] at hflushing
    have hqueued := (hinv (n + 1)).ok.mem_of_flushing hflushing
    exact lt_irrefl i ((hinv (n + 1)).published.ahead i (published_mono hm hi) i hqueued)
  · intro n k i ha hk
    refine ⟨?_, fun m hm hi => ?_⟩
    · have h' := hinv (n + 1)
      rw [stateOf_succ ha] at h' ⊢
      exact (hinv n).failed_stays h' hk
    · obtain ⟨rest, -, -, -, hactive, -⟩ := (hinv n).ok.publishing hk
      exact (hinv m).tried_first (attempts_mono hm.le ((hinv n).active i hactive)) hi

/-- Events that are their own encodings. -/
def rawCodec : Codec (List UInt8) := ⟨some, some⟩

/-- One entry waits at most: the third event throws the second out while the first is
being published, and `clear` marks the first, which fails. -/
def overflowRun : List (Action (List UInt8)) :=
  [.enqueue [1], .flush, .enqueue [2, 2], .enqueue [3], .clear, .settle 0 false]

theorem lossless_overflowRun :
    (stateOf rawCodec ⟨none, some 1, none⟩ overflowRun 6).evicted = [1] ∧
    (stateOf rawCodec ⟨none, some 1, none⟩ overflowRun 6).cleared = [2, 0] ∧
    (stateOf rawCodec ⟨none, some 1, none⟩ overflowRun 6).queue.bytes =
      ((stateOf rawCodec ⟨none, some 1, none⟩ overflowRun 6).queue.events.map
        (stateOf rawCodec ⟨none, some 1, none⟩ overflowRun 6).queue.byteLength).sum :=
  ⟨by decide, by decide,
    ((lossless rawCodec ⟨none, some 1, none⟩ (fun _ _ h => h.symm) overflowRun).1 6).1⟩

end RetryQueue
