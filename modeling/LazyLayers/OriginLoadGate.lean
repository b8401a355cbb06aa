/-
The gate in front of the origin, with loaders that outlive their callers
(`originLoadGate.ts` and `HybridCache.loadAndStore`).

A load acquires a slot, checks once more whether it is still wanted, and hands the slot
over to its loader.  Up to then the caller gives the slot back; from then on the loader
does, when it has settled, even if its caller has long given up.

A load comes into the model when it calls `acquire`, so loads are numbered in this
order.  One `Event` is one job of the event loop; what reacts to a promise in the same
job as its settlement is part of that event.

* `acquire`, `release`, `close` — the gate;
* `reservation` — the closure that `acquire` hands out;
* `Books` — the counters and the ledger agree with the loads;
* `keeps_step` — every step keeps the books, and is one of a gate that grants slots in
  order of arrival (`SlotGate`);
* `origin_contract` — slots, loaders, queue and order in every run.
-/
import LazyLayers.Runs
import LazyLayers.Tally
import LazyLayers.SlotGate
import LazyLayers.MemoryLedger

open Runs Tally MemoryLedger

namespace OriginLoadGate

/-! ### Loads -/

structure Options where
  maxConcurrent : ℕ
  maxQueued : ℕ
  maxConcurrent_pos : 0 < maxConcurrent

def defaultOriginMaxConcurrent : ℕ := 32

def defaultOriginMaxQueued : ℕ := 1024

def maxQueuedKeyBytes : ℕ := 2 * 1024 * 1024

/-- The options of the constructor, which refuses a limit of no slots. -/
def Options.of (maxConcurrent maxQueued : Option ℕ)
    (hpos : ∀ n, maxConcurrent = some n → 0 < n) : Options where
  maxConcurrent := maxConcurrent.getD defaultOriginMaxConcurrent
  maxQueued := maxQueued.getD defaultOriginMaxQueued
  maxConcurrent_pos := by
    rcases maxConcurrent with _ | n
    · exact Nat.zero_lt_succ 31
    · exact hpos n rfl

/-- Where a load stands: turned away by the gate, waiting, with a slot of its own, with
the slot handed over to a loader that is not yet called, in the loader, with the loader
settled, or out of its slot. -/
inductive Phase
  | away
  | queued
  | granted
  | handed
  | running
  | finishing
  | released
  deriving DecidableEq, Repr

def Phase.holds : Phase → Bool
  | .granted => true
  | .handed => true
  | .running => true
  | .finishing => true
  | _ => false

/-- One load: what its key costs in the queue, whether its signal is aborted, the
variable `released` of its reservation, how often it called `release()`, and whether its
caller has given up on the loader. -/
structure Load where
  bytes : ℕ
  phase : Phase
  aborted : Bool
  released : Bool
  releases : ℕ
  left : Bool

def blankLoad : Load := ⟨0, .away, false, false, 0, false⟩

def Load.holds (d : Load) : Bool := d.phase.holds

def Load.isRunning (d : Load) : Bool := d.phase = .running

def Load.slots (d : Load) : ℕ := if d.holds then 1 else 0

/-! ### The gate -/

/-- The fields of the gate and the budget; `arrived` and `granted` list the loads that
`acquire` did not turn away and those that were given a slot, in order. -/
structure State where
  active : ℕ
  queue : List ℕ
  closed : Bool
  rejected : ℕ
  maxObserved : ℕ
  queuedBytes : ℕ
  ledger : Option Ledger
  next : ℕ
  load : ℕ → Load
  arrived : List ℕ
  granted : List ℕ

def State.init (ledger : Option Ledger) : State :=
  ⟨0, [], false, 0, 0, 0, ledger, 0, fun _ => blankLoad, [], []⟩

def State.edit (s : State) (i : ℕ) (d : Load) : State :=
  { s with load := Function.update s.load i d }

def State.add (s : State) (d : Load) : State :=
  { s.edit s.next d with next := s.next + 1 }

/-- `acquire(key, signal)`; the load becomes the next one. -/
def State.acquire (o : Options) (s : State) (key : CacheKey) (aborted : Bool) : State :=
  let i := s.next
  let bytes := key.byteLength * 2 + 128
  let d : Load := ⟨bytes, .away, aborted, false, 0, false⟩
  if s.closed ∨ aborted then s.add d
  else if s.active < o.maxConcurrent then
    { s.add { d with phase := .granted } with
      active := s.active + 1
      maxObserved := max s.maxObserved (s.active + 1)
      arrived := s.arrived ++ [i]
      granted := s.granted ++ [i] }
  else if o.maxQueued ≤ s.queue.length ∨ o.maxQueued = 0 then
    { s.add d with rejected := s.rejected + 1 }
  else if maxQueuedKeyBytes < s.queuedBytes + bytes ∨
      ∃ l ∈ s.ledger, l.budget.admits bytes = false then
    { s.add d with rejected := s.rejected + 1 }
  else
    { s.add { d with phase := .queued } with
      queuedBytes := s.queuedBytes + bytes
      ledger := s.ledger.map fun l => l.reserve bytes .queue
      queue := s.queue ++ [i]
      arrived := s.arrived ++ [i] }

/-- A waiter leaves the queue: `cleanupWaiter(waiter)`, and what becomes of it. -/
def State.leave (s : State) (i : ℕ) (d : Load) : State :=
  { s.edit i d with
    queue := s.queue.erase i
    queuedBytes := s.queuedBytes - (s.load i).bytes
    ledger := s.ledger.map fun l => l.release (s.load i).bytes .queue }

/-- `release()` -/
def State.release (s : State) : State :=
  let s := { s with active := if 0 < s.active then s.active - 1 else s.active }
  match s.queue with
  | [] => s
  | i :: _ => { s.leave i { s.load i with phase := .granted } with
      active := s.active + 1
      maxObserved := max s.maxObserved (s.active + 1)
      granted := s.granted ++ [i] }

/-- The closure of `reservation()`, for a load whose slot ends here. -/
def State.reservation (s : State) (i : ℕ) : State :=
  if (s.load i).released then s
  else State.release (s.edit i { s.load i with
    phase := .released, released := true, releases := (s.load i).releases + 1 })

/-- `close()` -/
def State.close (s : State) : State :=
  { s with
    closed := true
    queue := []
    queuedBytes := s.queue.foldl (fun n i => n - (s.load i).bytes) s.queuedBytes
    ledger := s.ledger.map fun l => l.releaseAll (s.queue.map fun i => (s.load i).bytes) .queue
    load := fun i => if i ∈ s.queue then { s.load i with phase := .away } else s.load i }

inductive Event
  | acquire (key : CacheKey) (aborted : Bool)
  /-- The timer of a waiter. -/
  | expire (i : ℕ)
  /-- The signal of a load is aborted. -/
  | abort (i : ℕ)
  | close
  /-- The caller leaves `loadAndStore` before the hand-over: aborted, without its lease, or
  served by another writer. -/
  | giveUp (i : ℕ)
  | handOver (i : ℕ)
  /-- The job of the guarded loader, whose loader may throw at once. -/
  | begin (i : ℕ) (throws : Bool)
  | loaderSettled (i : ℕ)
  /-- The `finally` of the guarded loader. -/
  | finish (i : ℕ)
  /-- The caller gives up on its loader: a timeout, or the loss of the lease. -/
  | leave (i : ℕ)
  | foreign (f : Foreign)

def State.setPhase (s : State) (i : ℕ) (p : Phase) : State := s.edit i { s.load i with phase := p }

def step (o : Options) (s : State) : Event → State
  | .acquire key aborted => s.acquire o key aborted
  | .expire i =>
    if i ∈ s.queue then
      { s.leave i { s.load i with phase := .away } with rejected := s.rejected + 1 }
    else s
  | .abort i =>
    if i ∈ s.queue then s.leave i { s.load i with phase := .away, aborted := true }
    else if i < s.next then s.edit i { s.load i with aborted := true }
    else s
  | .close => s.close
  | .giveUp i => if (s.load i).phase = .granted then s.reservation i else s
  | .handOver i =>
    if (s.load i).phase = .granted ∧ (s.load i).aborted = false then s.setPhase i .handed else s
  | .begin i throws =>
    if (s.load i).phase = .handed then
      s.setPhase i (if (s.load i).aborted ∨ throws then .finishing else .running)
    else s
  | .loaderSettled i => if (s.load i).phase = .running then s.setPhase i .finishing else s
  | .finish i => if (s.load i).phase = .finishing then s.reservation i else s
  | .leave i =>
    if (s.load i).phase = .handed ∨ (s.load i).phase = .running then
      s.edit i { s.load i with left := true }
    else s
  | .foreign f => { s with ledger := s.ledger.map fun l => l.foreign f }

/-! ### The books -/

/-- The load was given a slot at some time. -/
def Phase.wasGranted (p : Phase) : Prop := p ≠ .away ∧ p ≠ .queued

/-- The reservation of a load has been released exactly if its slot has ended. -/
def Load.Ok (d : Load) : Prop :=
  d.releases = (if d.phase = .released then 1 else 0) ∧ d.released = decide (d.phase = .released)

/-- The counters, the lists and the ledger agree with the loads. -/
structure Books (o : Options) (s : State) : Prop where
  active : s.active = tally Load.slots s.load s.next
  queuedBytes : s.queuedBytes = (s.queue.map fun i => (s.load i).bytes).sum
  queue : ∀ i, i ∈ s.queue ↔ i < s.next ∧ (s.load i).phase = .queued
  granted : ∀ i, i ∈ s.granted ↔ i < s.next ∧ (s.load i).phase.wasGranted
  sorted : s.arrived.Pairwise (· < ·)
  arrived : ∀ i ∈ s.arrived, i < s.next
  closed : s.closed = true → s.queue = []
  size : s.queue.length ≤ o.maxQueued
  bytes : s.queuedBytes ≤ maxQueuedKeyBytes
  ledger : ∀ l, s.ledger = some l → Balanced l (Pi.single .queue s.queuedBytes)
  ok : ∀ i, (s.load i).Ok
  fresh : ∀ i, s.next ≤ i → s.load i = blankLoad

variable {o : Options} {s s' : State} {i j : ℕ} {d : Load}

/-- One load changes, and the counters and lists with it. -/
theorem Books.edit (h : Books o s) (hi : i < s.next) (hok : d.Ok)
    (hbytes : d.bytes = (s.load i).bytes) (hload : s'.load = Function.update s.load i d)
    (hnext : s'.next = s.next) (harrived : s'.arrived = s.arrived)
    (hactive : s'.active + (s.load i).slots = s.active + d.slots)
    (hqueuedBytes : s'.queuedBytes = (s'.queue.map fun j => (s.load j).bytes).sum)
    (hqueue : ∀ j, j ∈ s'.queue ↔ if j = i then d.phase = .queued else j ∈ s.queue)
    (hgranted : ∀ j, j ∈ s'.granted ↔ if j = i then d.phase.wasGranted else j ∈ s.granted)
    (hclosed : s'.closed = true → s'.queue = []) (hsize : s'.queue.length ≤ s.queue.length)
    (hle : s'.queuedBytes ≤ s.queuedBytes)
    (hledger : ∀ l, s'.ledger = some l → Balanced l (Pi.single .queue s'.queuedBytes)) :
    Books o s' := by
  have hslots := tally_update Load.slots s.load hi d
  have hself : ∀ j, s'.load j = if j = i then d else s.load j := by
    intro j
    rw [hload]
    by_cases hj : j = i
    · subst hj
      rw [Function.update_self, if_pos rfl]
    · rw [Function.update_of_ne hj, if_neg hj]
  have hsame : ∀ j, (s'.load j).bytes = (s.load j).bytes := by
    intro j
    rw [hself]
    split
    · next hj => rw [hbytes, hj]
    · rfl
  refine ⟨?_, ?_, fun j => ?_, fun j => ?_, ?_, ?_, hclosed, hsize.trans h.size, hle.trans h.bytes,
    hledger, fun j => ?_, fun j hj => ?_⟩
  · have hold := h.active
    rw [hnext, hload]
    omega
  · rw [hqueuedBytes]
    exact congrArg List.sum (List.map_congr_left fun j _ => (hsame j).symm)
  · rw [hqueue, hself, hnext]
    by_cases hj : j = i
    · subst hj
      rw [if_pos rfl, if_pos rfl]
      exact ⟨fun hp => ⟨hi, hp⟩, And.right⟩
    · rw [if_neg hj, if_neg hj]
      exact h.queue j
  · rw [hgranted, hself, hnext]
    by_cases hj : j = i
    · subst hj
      rw [if_pos rfl, if_pos rfl]
      exact ⟨fun hp => ⟨hi, hp⟩, And.right⟩
    · rw [if_neg hj, if_neg hj]
      exact h.granted j
  · rw [harrived]
    exact h.sorted
  · rw [harrived, hnext]
    exact h.arrived
  · rw [hself]
    split
    · exact hok
    · exact h.ok j
  · rw [hnext] at hj
    rw [hself, if_neg (by omega)]
    exact h.fresh j hj

theorem Books.lt_next (h : Books o s) (hp : (s.load i).phase ≠ .away) : i < s.next := by
  by_contra hle
  exact hp (by rw [h.fresh i (not_lt.mp hle)]; rfl)

/-- A load outside of the queue goes on: its slot ends, or stays with it. -/
theorem Books.move (h : Books o s) (hi : i < s.next) (hok : d.Ok)
    (hbytes : d.bytes = (s.load i).bytes) (hold : (s.load i).phase ≠ .queued)
    (hnew : d.phase ≠ .queued) (hwas : d.phase.wasGranted ↔ (s.load i).phase.wasGranted) {a : ℕ}
    (hactive : a + (s.load i).slots = s.active + d.slots) :
    Books o { s.edit i d with active := a } := by
  refine h.edit hi hok hbytes rfl rfl rfl hactive h.queuedBytes (fun j => ?_) (fun j => ?_)
    h.closed le_rfl le_rfl h.ledger
  · show j ∈ s.queue ↔ _
    by_cases hj : j = i
    · subst hj
      rw [if_pos rfl, h.queue]
      exact ⟨fun hmem => absurd hmem.2 hold, fun hp => absurd hp hnew⟩
    · rw [if_neg hj]
  · show j ∈ s.granted ↔ _
    by_cases hj : j = i
    · subst hj
      rw [if_pos rfl, h.granted, hwas]
      exact ⟨And.right, fun hp => ⟨hi, hp⟩⟩
    · rw [if_neg hj]

/-- A waiter leaves the queue, for a slot or without one. -/
theorem Books.leave (h : Books o s) (hmem : i ∈ s.queue) (hnodup : s.queue.Nodup) (hok : d.Ok)
    (hbytes : d.bytes = (s.load i).bytes) (hnew : d.phase ≠ .queued) {a m r : ℕ} {g : List ℕ}
    (hactive : a = s.active + d.slots)
    (hgranted : ∀ j, j ∈ g ↔ if j = i then d.phase.wasGranted else j ∈ s.granted) :
    Books o { s.leave i d with active := a, maxObserved := m, rejected := r, granted := g } := by
  obtain ⟨hi, hp⟩ := (h.queue i).mp hmem
  have hsum : s.queuedBytes = (s.load i).bytes +
      ((s.queue.erase i).map fun j => (s.load j).bytes).sum := by
    have hperm := List.Perm.sum_eq ((List.perm_cons_erase hmem).map fun j => (s.load j).bytes)
    rw [List.map_cons, List.sum_cons, ← h.queuedBytes] at hperm
    exact hperm
  refine h.edit hi hok hbytes rfl rfl rfl ?_ ?_ (fun j => ?_) hgranted (fun hclosed => ?_)
    List.length_erase_le (Nat.sub_le _ _) (fun l hl => ?_)
  · have hnone : (s.load i).slots = 0 := by
      rw [Load.slots, Load.holds, hp]
      rfl
    show a + (s.load i).slots = s.active + d.slots
    rw [hactive, hnone, Nat.add_zero]
  · show s.queuedBytes - _ = ((s.queue.erase i).map fun j => (s.load j).bytes).sum
    omega
  · show j ∈ s.queue.erase i ↔ _
    rw [hnodup.mem_erase_iff]
    by_cases hj : j = i
    · subst hj
      rw [if_pos rfl]
      exact ⟨fun hmem => absurd rfl hmem.1, fun hp => absurd hp hnew⟩
    · rw [if_neg hj]
      exact ⟨And.right, fun hmem => ⟨hj, hmem⟩⟩
  · rw [h.closed hclosed] at hmem
    cases hmem
  · obtain ⟨l₀, hl₀, rfl⟩ := Option.map_eq_some_iff.mp hl
    exact (h.ledger l₀ hl₀).release_single (by omega)

/-- A load calls `acquire`: it is turned away, given a slot, or put into the queue. -/
theorem Books.add (h : Books o s) (hok : d.Ok) (hs' : s'.load = Function.update s.load s.next d)
    (hnext : s'.next = s.next + 1) (hactive : s'.active = s.active + d.slots)
    (hqueue : s'.queue = if d.phase = .queued then s.queue ++ [s.next] else s.queue)
    (hqueuedBytes : s'.queuedBytes = s.queuedBytes + if d.phase = .queued then d.bytes else 0)
    (hgranted : ∀ j, j ∈ s'.granted ↔ j ∈ s.granted ∨ (j = s.next ∧ d.phase.wasGranted))
    (harrived : s'.arrived = s.arrived ∨ s'.arrived = s.arrived ++ [s.next])
    (hclosed : s'.closed = s.closed) (hopen : d.phase = .queued → s.closed = false)
    (hroom : d.phase = .queued → s.queue.length < o.maxQueued ∧
      s.queuedBytes + d.bytes ≤ maxQueuedKeyBytes)
    (hledger : ∀ l, s'.ledger = some l → Balanced l (Pi.single .queue s'.queuedBytes)) :
    Books o s' := by
  have hself : ∀ j, s'.load j = if j = s.next then d else s.load j := by
    intro j
    rw [hs']
    by_cases hj : j = s.next
    · subst hj
      rw [Function.update_self, if_pos rfl]
    · rw [Function.update_of_ne hj, if_neg hj]
  have hold : ∀ j ∈ s.queue, s'.load j = s.load j := by
    intro j hj
    have hlt := ((h.queue j).mp hj).1
    rw [hself, if_neg (by omega)]
  have hmap : (s.queue.map fun j => (s'.load j).bytes) = s.queue.map fun j => (s.load j).bytes :=
    List.map_congr_left fun j hj => by rw [hold j hj]
  have hkind : ∀ (p : Phase → Prop) (l : List ℕ), (∀ j, j ∈ l ↔ j < s.next ∧ p (s.load j).phase) →
      ∀ j, (j ∈ l ∨ (j = s.next ∧ p d.phase)) ↔ j < s'.next ∧ p (s'.load j).phase := by
    intro p l hl j
    rw [hl, hself, hnext]
    by_cases hj : j = s.next
    · subst hj
      rw [if_pos rfl]
      exact ⟨fun hor => ⟨Nat.lt_succ_self _,
        hor.elim (fun hlt => absurd hlt.1 (lt_irrefl _)) And.right⟩,
        fun hp => Or.inr ⟨rfl, hp.2⟩⟩
    · rw [if_neg hj, or_iff_left fun hor => hj hor.1]
      exact ⟨fun hlt => ⟨by omega, hlt.2⟩, fun hlt => ⟨by omega, hlt.2⟩⟩
  refine ⟨?_, ?_, fun j => ?_, fun j => ?_, ?_, fun j hj => ?_, fun hcl => ?_, ?_, ?_, hledger,
    fun j => ?_, fun j hj => ?_⟩
  · rw [hactive, hs', hnext, tally_alloc, ← h.active]
  · rw [hqueuedBytes, hqueue, h.queuedBytes]
    split
    · rw [List.map_append, List.sum_append, hmap, List.map_cons, hself, if_pos rfl]
      rfl
    · rw [hmap, Nat.add_zero]
  · rw [← hkind (· = .queued) s.queue h.queue j, hqueue]
    split
    · next hq => rw [List.mem_append, List.mem_singleton, and_iff_left hq]
    · next hq => rw [or_iff_left fun hor => hq hor.2]
  · rw [← hkind Phase.wasGranted s.granted h.granted j, hgranted]
  · rcases harrived with harrived | harrived
    · rw [harrived]
      exact h.sorted
    · rw [harrived]
      refine List.pairwise_append.mpr ⟨h.sorted, List.pairwise_singleton _ _, fun j hj k hk => ?_⟩
      rw [List.mem_singleton.mp hk]
      exact h.arrived j hj
  · rw [hnext]
    rcases harrived with harrived | harrived
    · rw [harrived] at hj
      exact (h.arrived j hj).trans (Nat.lt_succ_self _)
    · rw [harrived] at hj
      rcases List.mem_append.mp hj with hj | hj
      · exact (h.arrived j hj).trans (Nat.lt_succ_self _)
      · rw [List.mem_singleton.mp hj]
        exact Nat.lt_succ_self _
  · rw [hclosed] at hcl
    rw [hqueue, h.closed hcl]
    split
    · next hq => exact absurd (hcl.symm.trans (hopen hq)) nofun
    · rfl
  · rw [hqueue]
    split
    · next hq =>
      rw [List.length_append, List.length_singleton]
      exact (hroom hq).1
    · exact h.size
  · rw [hqueuedBytes]
    split
    · next hq => exact (hroom hq).2
    · exact h.bytes
  · rw [hself]
    split
    · exact hok
    · exact h.ok j
  · rw [hnext] at hj
    rw [hself, if_neg (by omega)]
    exact h.fresh j (by omega)

/-! ### The gate that the state represents -/

def State.gate (s : State) : SlotGate.Gate ℕ :=
  ⟨holders Load.holds s.load s.next, s.queue, s.arrived, s.granted⟩

structure Inv (o : Options) (s : State) : Prop where
  books : Books o s
  gate : SlotGate.Ok o.maxConcurrent s.gate

theorem Books.card (h : Books o s) : s.gate.running.card = s.active := by
  rw [h.active]
  exact card_holders ..

/-- What one step does to the books and to the gate. -/
structure Keeps (o : Options) (s s' : State) : Prop where
  books : Books o s'
  gate : SlotGate.Step o.maxConcurrent s.gate s'.gate

theorem Keeps.inv (h : Inv o s) (hk : Keeps o s s') : Inv o s' := ⟨hk.books, h.gate.step hk.gate⟩

theorem Keeps.stay (h : Books o s') (hgate : s'.gate = s.gate) : Keeps o s s' :=
  ⟨h, hgate ▸ SlotGate.Step.stay⟩

theorem Keeps.refl (h : Inv o s) : Keeps o s s := .stay h.books rfl

theorem gate_eq {running : Finset ℕ} (hrunning : holders Load.holds s'.load s'.next = running) :
    s'.gate = ⟨running, s'.queue, s'.arrived, s'.granted⟩ :=
  congrArg (fun r => SlotGate.Gate.mk r s'.queue s'.arrived s'.granted) hrunning

theorem gate_step {running : Finset ℕ} {g : SlotGate.Gate ℕ} {m : ℕ}
    (hrunning : holders Load.holds s'.load s'.next = running)
    (hstep : SlotGate.Step m g ⟨running, s'.queue, s'.arrived, s'.granted⟩) :
    SlotGate.Step m g s'.gate := by
  rw [gate_eq hrunning]
  exact hstep

theorem keeps_acquire (h : Inv o s) (key : CacheKey) (aborted : Bool) :
    Keeps o s (s.acquire o key aborted) := by
  have hnew : s.next ∉ s.arrived := fun hmem => lt_irrefl _ (h.books.arrived _ hmem)
  have hblank : ∀ p : Phase, p ≠ .released →
      Load.Ok ⟨key.byteLength * 2 + 128, p, aborted, false, 0, false⟩ := by
    intro p hp
    exact ⟨(if_neg hp).symm, (decide_eq_false hp).symm⟩
  -- who is turned away leaves the gate as it was
  have haway : ∀ r : ℕ, Keeps o s { s.add ⟨key.byteLength * 2 + 128, .away, aborted, false, 0, false⟩
      with rejected := r } := by
    intro r
    refine .stay (h.books.add (hblank .away nofun) rfl rfl rfl rfl rfl (fun j => ?_) (Or.inl rfl)
      rfl nofun nofun h.books.ledger) (gate_eq (holders_alloc rfl))
    rw [or_iff_left fun hor => hor.2.1 rfl]
    rfl
  rw [State.acquire]
  simp only
  split
  · exact haway s.rejected
  next hopen =>
  have hopen : s.closed = false := Bool.eq_false_of_not_eq_true (not_or.mp hopen).1
  split
  · next hroom =>
    have hempty : s.queue = [] := by
      by_contra hne
      have hfull := h.gate.full hne
      rw [h.books.card] at hfull
      omega
    refine ⟨h.books.add (hblank .granted nofun) rfl rfl rfl rfl rfl (fun j => ?_) (Or.inr rfl) rfl
      nofun nofun h.books.ledger, ?_⟩
    · show j ∈ s.granted ++ [s.next] ↔ _
      rw [List.mem_append, List.mem_singleton, and_iff_left]
      exact ⟨nofun, nofun⟩
    · exact gate_step (holders_alloc_true rfl)
        (.grant s.next hnew (by rwa [h.books.card]) hempty)
  next hfull =>
  split
  · exact haway (s.rejected + 1)
  next hsize =>
  split
  · exact haway (s.rejected + 1)
  next hbytes =>
  obtain ⟨hsize, -⟩ := not_or.mp hsize
  obtain ⟨hbytes, hbudget⟩ := not_or.mp hbytes
  refine ⟨h.books.add (hblank .queued nofun) rfl rfl rfl rfl rfl (fun j => ?_) (Or.inr rfl) rfl
    (fun _ => hopen) (fun _ => ⟨not_le.mp hsize, not_lt.mp hbytes⟩) fun l hl => ?_, ?_⟩
  · rw [or_iff_left fun hor => hor.2.2 rfl]
    rfl
  · obtain ⟨l₀, hl₀, rfl⟩ := Option.map_eq_some_iff.mp hl
    refine (h.books.ledger l₀ hl₀).reserve_single ?_
    by_contra hno
    exact hbudget ⟨l₀, hl₀, Bool.eq_false_of_not_eq_true hno⟩
  · refine gate_step (holders_alloc rfl) (.wait s.next hnew ?_)
    rw [h.books.card]
    exact not_lt.mp hfull

/-! ### A slot that ends -/

/-- The slot of a load ends, and goes to the oldest waiter. -/
theorem keeps_reservation (h : Inv o s) (hp : (s.load i).phase.holds = true) :
    Keeps o s (s.reservation i) := by
  have hi : i < s.next := h.books.lt_next fun haway => by
    rw [haway] at hp
    cases hp
  have hqueued : (s.load i).phase ≠ .queued := fun hq => by
    rw [hq] at hp
    cases hp
  have hunreleased : (s.load i).phase ≠ .released := fun hr => by
    rw [hr] at hp
    cases hp
  have hmem : i ∈ s.gate.running := mem_holders.mpr ⟨hi, hp⟩
  have hpos : 0 < s.active := by
    rw [← h.books.card]
    exact Finset.card_pos.mpr ⟨i, hmem⟩
  obtain ⟨hreleases, hflag⟩ := h.books.ok i
  rw [State.reservation, if_neg (by rw [hflag, decide_eq_true_iff]; exact hunreleased)]
  generalize hd : { s.load i with
    phase := .released, released := true, releases := (s.load i).releases + 1 } = d
  have hdp : d.phase = .released := by rw [← hd]
  -- without the slot of `i`
  have hvacant : Books o { s.edit i d with active := s.active - 1 } := by
    refine h.books.move hi ?_ (by rw [← hd]) hqueued (by rw [hdp]; nofun) ?_ ?_
    · rw [← hd]
      refine ⟨?_, rfl⟩
      show (s.load i).releases + 1 = 1
      rw [hreleases, if_neg hunreleased]
    · rw [hdp]
      refine ⟨fun _ => ⟨fun haway => ?_, hqueued⟩, fun _ => ⟨nofun, nofun⟩⟩
      rw [haway] at hp
      cases hp
    · rw [Load.slots, Load.slots, Load.holds, Load.holds, hp, hdp]
      exact Nat.sub_add_cancel hpos
  have hrunning : holders Load.holds (s.edit i d).load s.next = s.gate.running.erase i :=
    holders_update_false (by rw [Load.holds, hdp]; rfl)
  rw [State.release]
  simp only [show (s.edit i d).active = s.active from rfl, if_pos hpos]
  split
  · next hempty => exact ⟨hvacant, gate_step hrunning (.finish i hmem hempty)⟩
  next k rest hqueue =>
  have hqueue : s.queue = k :: rest := hqueue
  have hkmem : k ∈ s.queue := by rw [hqueue]; exact List.mem_cons_self
  have hkp := ((h.books.queue k).mp hkmem).2
  have hne : k ≠ i := by
    rintro rfl
    exact hqueued hkp
  have hsame : (s.edit i d).load k = s.load k := Function.update_of_ne hne ..
  have hbooks := h.books.ok k
  refine ⟨hvacant.leave (d := { (s.edit i d).load k with phase := .granted }) hkmem
    h.gate.nodup_queue ?_ rfl nofun rfl fun j => ?_, ?_⟩
  · rw [hsame]
    rw [Load.Ok, hkp] at hbooks
    exact hbooks
  · rw [List.mem_append, List.mem_singleton]
    by_cases hj : j = k
    · subst hj
      rw [if_pos rfl]
      exact ⟨fun _ => ⟨nofun, nofun⟩, fun _ => Or.inr rfl⟩
    · rw [if_neg hj, or_iff_left hj]
  · have hholders : holders Load.holds
        (Function.update (s.edit i d).load k { (s.edit i d).load k with phase := .granted }) s.next =
        insert k (s.gate.running.erase i) := by
      rw [← hrunning]
      exact holders_update_true ((h.books.queue k).mp hkmem).1 rfl
    refine gate_step hholders ?_
    have hrest : s.queue.erase k = rest := by
      rw [hqueue, List.erase_cons_head]
    show SlotGate.Step _ _ ⟨_, s.queue.erase k, s.arrived, s.granted ++ [k]⟩
    rw [hrest]
    exact .pass i k rest hmem hqueue

/-! ### Loads that leave the queue -/

theorem keeps_leave (h : Inv o s) (hmem : i ∈ s.queue) (hok : d.Ok)
    (hbytes : d.bytes = (s.load i).bytes) (haway : d.phase = .away) (r : ℕ) :
    Keeps o s { s.leave i d with rejected := r } := by
  obtain ⟨hi, hp⟩ := (h.books.queue i).mp hmem
  have hslots : d.slots = 0 := by
    rw [Load.slots, Load.holds, haway]
    rfl
  refine ⟨h.books.leave hmem h.gate.nodup_queue hok hbytes (by rw [haway]; nofun)
    (by rw [hslots]; rfl) fun j => ?_, ?_⟩
  · show j ∈ s.granted ↔ _
    by_cases hj : j = i
    · subst hj
      rw [if_pos rfl, h.books.granted, haway]
      exact ⟨fun hg => absurd hp hg.2.2, fun hg => absurd rfl hg.1⟩
    · rw [if_neg hj]
  · refine gate_step (holders_update_same ?_) (.leave _ List.erase_sublist)
    rw [Load.holds, Load.holds, haway, hp]
    rfl

theorem foldl_sub (f : ℕ → ℕ) (l : List ℕ) (n : ℕ) :
    l.foldl (fun n i => n - f i) n = n - (l.map f).sum := by
  induction l generalizing n with
  | nil => rfl
  | cons i l ih =>
    rw [List.foldl_cons, ih, List.map_cons, List.sum_cons]
    omega

theorem keeps_close (h : Inv o s) : Keeps o s s.close := by
  have hload : ∀ j, s.close.load j =
      if j ∈ s.queue then { s.load j with phase := .away } else s.load j := fun j => rfl
  have hholds : ∀ j, (s.close.load j).holds = (s.load j).holds := by
    intro j
    rw [hload]
    split
    · next hmem =>
      rw [Load.holds, Load.holds, ((h.books.queue j).mp hmem).2]
      rfl
    · rfl
  have hzero : s.close.queuedBytes = 0 := by
    show s.queue.foldl (fun n i => n - (s.load i).bytes) s.queuedBytes = 0
    rw [foldl_sub, h.books.queuedBytes, Nat.sub_self]
  refine ⟨⟨?_, hzero, fun j => ?_, fun j => ?_, h.books.sorted, h.books.arrived, fun _ => rfl,
    Nat.zero_le _, by rw [hzero]; exact Nat.zero_le _, fun l hl => ?_, fun j => ?_,
    fun j hj => ?_⟩, ?_⟩
  · refine h.books.active.trans (tally_congr Load.slots s.load fun j _ => ?_).symm
    rw [Load.slots, Load.slots, hholds]
  · refine ⟨nofun, fun hmem => ?_⟩
    have hp := hmem.2
    rw [hload] at hp
    split at hp
    · cases hp
    · next hout => exact absurd ((h.books.queue j).mpr ⟨hmem.1, hp⟩) hout
  · rw [show s.close.granted = s.granted from rfl, h.books.granted, hload]
    split
    · next hmem =>
      rw [((h.books.queue j).mp hmem).2]
      exact ⟨fun hg => absurd rfl hg.2.2, fun hg => absurd rfl hg.2.1⟩
    · rfl
  · obtain ⟨l₀, hl₀, rfl⟩ := Option.map_eq_some_iff.mp hl
    rw [hzero]
    refine Balanced.releaseAll_single _ ?_
    rw [Nat.add_zero, ← h.books.queuedBytes]
    exact h.books.ledger l₀ hl₀
  · rw [hload]
    split
    · next hmem =>
      have hok := h.books.ok j
      rw [Load.Ok, ((h.books.queue j).mp hmem).2] at hok
      exact hok
    · exact h.books.ok j
  · rw [hload, if_neg fun hmem => absurd ((h.books.queue j).mp hmem).1 (not_lt.mpr hj)]
    exact h.books.fresh j hj
  · have hrunning : holders Load.holds s.close.load s.close.next = s.gate.running := by
      ext j
      rw [mem_holders, hholds]
      exact mem_holders.symm
    exact gate_step hrunning (.leave _ (List.nil_sublist _))

/-! ### Every step -/

/-- A load goes on with what it has. -/
theorem keeps_move (h : Inv o s) (hi : i < s.next) (hok : d.Ok)
    (hbytes : d.bytes = (s.load i).bytes) (hold : (s.load i).phase ≠ .queued)
    (hnew : d.phase ≠ .queued) (hwas : d.phase.wasGranted ↔ (s.load i).phase.wasGranted)
    (hholds : d.phase.holds = (s.load i).phase.holds) : Keeps o s (s.edit i d) := by
  refine .stay (h.books.move hi hok hbytes hold hnew hwas ?_) (gate_eq (holders_update_same hholds))
  rw [Load.slots, Load.slots, Load.holds, Load.holds, hholds]

/-- The phases of a load that keeps its slot. -/
theorem keeps_setPhase (h : Inv o s) {p : Phase} (hold : (s.load i).phase.holds = true)
    (hnew : p.holds = true) : Keeps o s (s.setPhase i p) := by
  have hkinds : ∀ q : Phase, q.holds = true → q ≠ .queued ∧ q ≠ .released ∧ q.wasGranted := by
    intro q hq
    cases q with
    | away => cases hq
    | queued => cases hq
    | released => cases hq
    | granted => exact ⟨nofun, nofun, nofun, nofun⟩
    | handed => exact ⟨nofun, nofun, nofun, nofun⟩
    | running => exact ⟨nofun, nofun, nofun, nofun⟩
    | finishing => exact ⟨nofun, nofun, nofun, nofun⟩
  obtain ⟨hq, hr, hwas⟩ := hkinds _ hold
  obtain ⟨hq', hr', hwas'⟩ := hkinds _ hnew
  have hi : i < s.next := h.books.lt_next hwas.1
  refine keeps_move h hi ?_ rfl hq hq' (iff_of_true hwas' hwas) (hnew.trans hold.symm)
  obtain ⟨hreleases, hflag⟩ := h.books.ok i
  rw [if_neg hr] at hreleases
  rw [decide_eq_false hr] at hflag
  exact ⟨hreleases.trans (if_neg hr').symm, hflag.trans (decide_eq_false hr').symm⟩

theorem keeps_step (h : Inv o s) (e : Event) : Keeps o s (step o s e) := by
  cases e with
  | acquire key aborted => exact keeps_acquire h key aborted
  | expire i =>
    rw [step]
    split
    · next hmem =>
      refine keeps_leave (d := { s.load i with phase := .away }) h hmem ?_ rfl rfl _
      have hok := h.books.ok i
      rw [Load.Ok, ((h.books.queue i).mp hmem).2] at hok
      exact hok
    · exact .refl h
  | abort i =>
    rw [step]
    split
    · next hmem =>
      refine keeps_leave (d := { s.load i with phase := .away, aborted := true }) h hmem ?_ rfl rfl
        s.rejected
      have hok := h.books.ok i
      rw [Load.Ok, ((h.books.queue i).mp hmem).2] at hok
      exact hok
    · next hmem =>
      split
      · next hi =>
        have hq : (s.load i).phase ≠ .queued := fun hq => hmem ((h.books.queue i).mpr ⟨hi, hq⟩)
        exact keeps_move (d := { s.load i with aborted := true }) h hi (h.books.ok i) rfl hq hq
          Iff.rfl rfl
      · exact .refl h
  | close => exact keeps_close h
  | giveUp i =>
    rw [step]
    split
    · next hp => exact keeps_reservation h (by rw [hp]; rfl)
    · exact .refl h
  | handOver i =>
    rw [step]
    split
    · next hp => exact keeps_setPhase h (by rw [hp.1]; rfl) rfl
    · exact .refl h
  | begin i throws =>
    rw [step]
    split
    · next hp =>
      refine keeps_setPhase h (by rw [hp]; rfl) ?_
      split <;> rfl
    · exact .refl h
  | loaderSettled i =>
    rw [step]
    split
    · next hp => exact keeps_setPhase h (by rw [hp]; rfl) rfl
    · exact .refl h
  | finish i =>
    rw [step]
    split
    · next hp => exact keeps_reservation h (by rw [hp]; rfl)
    · exact .refl h
  | leave i =>
    rw [step]
    split
    · next hp =>
      have hq : (s.load i).phase ≠ .queued := by
        rcases hp with hp | hp
        · rw [hp]; nofun
        · rw [hp]; nofun
      have haway : (s.load i).phase ≠ .away := by
        rcases hp with hp | hp
        · rw [hp]; nofun
        · rw [hp]; nofun
      exact keeps_move (d := { s.load i with left := true }) h (h.books.lt_next haway) (h.books.ok i)
        rfl hq hq Iff.rfl rfl
    · exact .refl h
  | foreign f =>
    refine .stay ⟨h.books.active, h.books.queuedBytes, h.books.queue, h.books.granted,
      h.books.sorted, h.books.arrived, h.books.closed, h.books.size, h.books.bytes,
      fun l hl => ?_, h.books.ok, h.books.fresh⟩ rfl
    obtain ⟨l₀, hl₀, rfl⟩ := Option.map_eq_some_iff.mp hl
    exact (h.books.ledger l₀ hl₀).foreign f

/-! ### Runs -/

/-- A budget in which nothing is queued yet, if there is one. -/
abbrev Start := Option { l : Ledger // Balanced l 0 }

/-- The gate after the first `n` events. -/
def stateOf (o : Options) (start : Start) (events : List Event) (n : ℕ) : State :=
  stateAt (step o) (State.init (start.map Subtype.val)) events n

theorem inv_init (o : Options) (start : Start) : Inv o (State.init (start.map Subtype.val)) where
  books := by
    refine ⟨rfl, rfl, fun i => ?_, fun i => ?_, .nil, nofun, fun _ => rfl, Nat.zero_le _,
      Nat.zero_le _, fun l hl => ?_, fun i => ⟨rfl, rfl⟩, fun i _ => rfl⟩
    · exact ⟨nofun, fun hi => absurd hi.1 (Nat.not_lt_zero i)⟩
    · exact ⟨nofun, fun hi => absurd hi.1 (Nat.not_lt_zero i)⟩
    · obtain ⟨l₀, -, rfl⟩ := Option.map_eq_some_iff.mp hl
      rw [show (State.init (start.map Subtype.val)).queuedBytes = 0 from rfl, Pi.single_zero]
      exact l₀.2
  gate := SlotGate.Ok.empty o.maxConcurrent

theorem inv_stateOf (o : Options) (start : Start) (events : List Event) (n : ℕ) :
    Inv o (stateOf o start events n) :=
  invariant (inv_init o start) (fun _ e h => (keeps_step h e).inv h) n

/-- The loads that hold a slot, and those of them whose loader is running. -/
def State.holding (s : State) : Finset ℕ := holders Load.holds s.load s.next

def State.running (s : State) : Finset ℕ := holders Load.isRunning s.load s.next

theorem running_subset (s : State) : s.running ⊆ s.holding := by
  intro i hi
  obtain ⟨hlt, hrun⟩ := mem_holders.mp hi
  rw [Load.isRunning, decide_eq_true_iff] at hrun
  exact mem_holders.mpr ⟨hlt, by rw [Load.holds, hrun]; rfl⟩

/-- One event ends the slot of a load. -/
theorem releases_reservation (h : Inv o s) (hp : (s.load i).phase.holds = true) :
    ((s.reservation i).load i).releases = 1 := by
  have hunreleased : (s.load i).phase ≠ .released := fun hr => by
    rw [hr] at hp
    cases hp
  obtain ⟨hreleases, hflag⟩ := h.books.ok i
  have hone : ∀ s' : State, s' = s.edit i { s.load i with
      phase := .released, released := true, releases := (s.load i).releases + 1 } →
      (s'.release.load i).releases = 1 := by
    rintro s' rfl
    rw [State.release]
    split
    · show (Function.update s.load i _ i).releases = 1
      rw [Function.update_self, hreleases, if_neg hunreleased]
    · next k rest hqueue =>
      have hne : i ≠ k := by
        rintro rfl
        have hmem : i ∈ s.queue := by
          rw [show s.queue = i :: rest from hqueue]
          exact List.mem_cons_self
        rw [((h.books.queue i).mp hmem).2] at hp
        cases hp
      show (Function.update (Function.update s.load i _) k _ i).releases = 1
      rw [Function.update_of_ne hne, Function.update_self, hreleases, if_neg hunreleased]
  rw [State.reservation, if_neg (by rw [hflag, decide_eq_true_iff]; exact hunreleased)]
  exact hone _ rfl

/-- The events of one load. -/
def Event.of (i : ℕ) : Event → Prop
  | .giveUp j => j = i
  | .handOver j => j = i
  | .begin j _ => j = i
  | .loaderSettled j => j = i
  | .finish j => j = i
  | _ => False

theorem phase_setPhase (s : State) (i : ℕ) (p : Phase) : ((s.setPhase i p).load i).phase = p := by
  show (Function.update s.load i _ i).phase = p
  rw [Function.update_self]

/-- Whatever a load with a slot does, its own events lead to the release. -/
theorem releases_at_last (h : Inv o s) (hp : (s.load i).phase.holds = true) :
    ∃ more : List Event, (∀ e ∈ more, e.of i) ∧
      ((more.foldl (step o) s).load i).releases = 1 := by
  have hfinish : ∀ s', Inv o s' → (s'.load i).phase = .finishing →
      ((step o s' (.finish i)).load i).releases = 1 := by
    intro s' h' hp'
    rw [step, if_pos hp']
    exact releases_reservation h' (by rw [hp']; rfl)
  have hone : ∀ e : Event, e.of i → ∀ e' ∈ [e], e'.of i := fun e he e' hmem =>
    List.mem_singleton.mp hmem ▸ he
  have htwo : ∀ e : Event, e.of i → ∀ e' ∈ [e, .finish i], e'.of i := by
    intro e he e' hmem
    rcases List.mem_cons.mp hmem with rfl | hmem
    · exact he
    · exact hone (.finish i) rfl e' hmem
  cases hphase : (s.load i).phase with
  | away => rw [hphase] at hp; cases hp
  | queued => rw [hphase] at hp; cases hp
  | released => rw [hphase] at hp; cases hp
  | granted =>
    refine ⟨[.giveUp i], hone _ rfl, ?_⟩
    show ((step o s (.giveUp i)).load i).releases = 1
    rw [step, if_pos hphase]
    exact releases_reservation h hp
  | handed =>
    refine ⟨[.begin i true, .finish i], htwo _ rfl, ?_⟩
    refine hfinish _ ((keeps_step h (.begin i true)).inv h) ?_
    rw [step, if_pos hphase, if_pos (Or.inr rfl)]
    exact phase_setPhase s i .finishing
  | running =>
    refine ⟨[.loaderSettled i, .finish i], htwo _ rfl, ?_⟩
    refine hfinish _ ((keeps_step h (.loaderSettled i)).inv h) ?_
    rw [step, if_pos hphase]
    exact phase_setPhase s i .finishing
  | finishing => exact ⟨[.finish i], hone _ rfl, hfinish s h hphase⟩

/-- Slots, loaders, reservations, queue and order, at every moment of a run. -/
structure Contract (o : Options) (start : Start) (events : List Event) : Prop where
  slots : ∀ n, (stateOf o start events n).active ≤ o.maxConcurrent ∧
    (stateOf o start events n).active = (stateOf o start events n).holding.card
  loaders : ∀ n, (stateOf o start events n).running.card ≤ (stateOf o start events n).active
  once : ∀ n i, ((stateOf o start events n).load i).releases =
    if ((stateOf o start events n).load i).phase = .released then 1 else 0
  granted : ∀ n i, i ∈ (stateOf o start events n).granted →
    i ∈ (stateOf o start events n).holding ∨
      ((stateOf o start events n).load i).releases = 1
  released : ∀ n i, i ∈ (stateOf o start events n).holding → ∃ more : List Event,
    (∀ e ∈ more, e.of i) ∧
      ((more.foldl (step o) (stateOf o start events n)).load i).releases = 1
  size : ∀ n, (stateOf o start events n).queue.length ≤ o.maxQueued ∧
    (stateOf o start events n).queuedBytes ≤ maxQueuedKeyBytes
  queuedBytes : ∀ n, (stateOf o start events n).queuedBytes =
    ((stateOf o start events n).queue.map fun i => ((stateOf o start events n).load i).bytes).sum
  reserved : ∀ n l, (stateOf o start events n).ledger = some l →
    l.budget.categories .queue = l.others .queue + (stateOf o start events n).queuedBytes
  order : ∀ n, ((stateOf o start events n).granted ++
    (stateOf o start events n).queue).Pairwise (· < ·)
  full : ∀ n, (stateOf o start events n).closed = false → (stateOf o start events n).queue ≠ [] →
    (stateOf o start events n).active = o.maxConcurrent

theorem origin_contract (o : Options) (start : Start) (events : List Event) :
    Contract o start events where
  slots n := by
    have h := inv_stateOf o start events n
    exact ⟨by rw [← h.books.card]; exact h.gate.card, h.books.card.symm⟩
  loaders n := by
    have h := inv_stateOf o start events n
    rw [← h.books.card]
    exact Finset.card_le_card (running_subset _)
  once n i := ((inv_stateOf o start events n).books.ok i).1
  granted n i hi := by
    have h := inv_stateOf o start events n
    obtain ⟨hlt, haway, hqueued⟩ := (h.books.granted i).mp hi
    by_cases hp : ((stateOf o start events n).load i).phase = .released
    · exact Or.inr ((h.books.ok i).1.trans (if_pos hp))
    · refine Or.inl (mem_holders.mpr ⟨hlt, ?_⟩)
      rw [Load.holds]
      revert haway hqueued hp
      cases ((stateOf o start events n).load i).phase with
      | away => exact fun haway => absurd rfl haway
      | queued => exact fun _ hqueued => absurd rfl hqueued
      | released => exact fun _ _ hp => absurd rfl hp
      | _ => exact fun _ _ _ => rfl
  released n i hi := releases_at_last (inv_stateOf o start events n) (mem_holders.mp hi).2
  size n := ⟨(inv_stateOf o start events n).books.size, (inv_stateOf o start events n).books.bytes⟩
  queuedBytes n := (inv_stateOf o start events n).books.queuedBytes
  reserved n l hl := by
    have hshare := ((inv_stateOf o start events n).books.ledger l hl).share .queue
    rwa [Pi.single_eq_same] at hshare
  order n := by
    have h := inv_stateOf o start events n
    exact h.books.sorted.sublist h.gate.order
  full n _ hqueue := by
    have h := inv_stateOf o start events n
    rw [← h.books.card]
    exact h.gate.full hqueue

end OriginLoadGate
