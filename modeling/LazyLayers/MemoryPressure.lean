/-
The target of the shared memory budget, and its ledger in double precision
(`memoryBudget.ts`).

Caches reserve bytes and give them back.  Samples of the machine move the target: down at
once where memory is critical, down after a window of pressure, and up in steps after a
window of recovery.  A sample that finds more in use than the target allows asks the clients
in turn to evict; a client that is asked may use the budget in any way, and sample again.

The ledger counts in numbers of double precision.  It takes every amount that is an integer,
a safe one or not, so above 2^53 it loses bytes.

* `Budget`, `Event`, `step` — the budget, and what is done to it;
* `Sound` — what the ledger and the target promise;
* `Counts` — the invariant: the ledger counts in exact integers;
* `asks_counted` — what is kept with a client that is asked counts the asks of its sample;
* `sound_iff` — the promises hold in every run exactly where the cap is below 2^53;
* `ledger_tryReserve`, `ledger_release` — there the budget is the ledger of `MemoryStore.lean`.
-/
import LazyLayers.ChargedMap
import LazyLayers.Doubles
import LazyLayers.MemoryStore
import LazyLayers.Runs

open Js Runs JsMap
open Double (Number nearest)

namespace MemoryPressure

/-- What has been read of the memory of the machine. -/
structure Signals where
  availableBytes : Option Number := none
  effectiveBytes : Option Number := none
  psiSomeAvg10 : Option Number := none

structure Options where
  pressureWindowMs : Option Number := none
  recoveryWindowMs : Option Number := none

/-- The client that a sample waits for, and how many it has asked so far. -/
structure Ask where
  client : ℕ
  asked : ℕ
  deriving DecidableEq

/-- The budget; `asking` are the samples that wait for a client, the innermost first. -/
structure Budget where
  hardCap : ℤ
  minMemory : Option ℤ
  target : ℤ
  used : ℤ
  categories : JsMap JsString ℤ
  clients : List ℕ
  /-- The clients that were registered, and whether they still are. -/
  registrations : List (ℕ × Bool)
  cursor : ℕ
  state : PressureState
  pressureAt : Option Number
  recoveryAt : Option Number
  evictions : ℕ
  admissions : ℕ
  failedAdmissions : ℕ
  asking : List Ask

/-- A literal of the source. -/
def literal (q : ℚ) : Number := .ofRat q

/-- `Math.floor`, of a finite number. -/
def floor : Number → Option ℤ
  | .finite q _ => some ⌊q⌋
  | _ => none

/-- The constructor, with the limits resolved to numbers. -/
def create (maxMemory : Number) (minMemory sampleIntervalMs : Option Number) :
    Except String Budget :=
  if sampleIntervalMs.any fun ms => ms.lt (literal 0) || !ms.isFinite then
    .error "sampleIntervalMs must be positive or zero"
  else
    match floor maxMemory with
    | none => .error "maxMemory must resolve to a positive integer"
    | some hardCap =>
      if hardCap ≤ 0 then .error "maxMemory must resolve to a positive integer"
      else
        let budget (minMemory : Option ℤ) : Budget :=
          ⟨hardCap, minMemory, hardCap, 0, [], [], [], 0, .normal, none, none, 0, 0, 0, []⟩
        match minMemory with
        | none => .ok (budget none)
        | some minMemory =>
          match floor minMemory with
          | none => .error "minMemory must be a positive integer no greater than maxMemory"
          | some minMemory =>
            if minMemory ≤ 0 ∨ hardCap < minMemory then
              .error "minMemory must be a positive integer no greater than maxMemory"
            else .ok (budget (some minMemory))

/-- `categories.get(category) ?? 0` -/
def Budget.total (b : Budget) (category : JsString) : ℤ := (b.categories.get category).getD 0

def Budget.tryReserve (b : Budget) (bytes : Number) (category : JsString) : Budget × Bool :=
  match bytes.natural with
  | none => (b, false)
  | some n =>
    if b.target < nearest (b.used + n) then
      ({ b with failedAdmissions := b.failedAdmissions + 1 }, false)
    else
      ({ b with
        used := nearest (b.used + n)
        categories := b.categories.set category (nearest (b.total category + n))
        admissions := b.admissions + 1 }, true)

def Budget.release (b : Budget) (bytes : Number) (category : JsString) : Budget :=
  match bytes.natural with
  | none => b
  | some n =>
    let prior := b.total category
    let amount := min (min (n : ℤ) prior) b.used
    if amount = 0 then b
    else
      { b with
        categories := b.categories.set category (nearest (prior - amount))
        used := nearest (b.used - amount) }

/-- `register`; the answer of the source unregisters the client again. -/
def Budget.register (b : Budget) (client : ℕ) : Budget :=
  { b with
    clients := b.clients ++ [client]
    registrations := b.registrations ++ [(client, true)] }

/-- What the `i`-th `register` has answered. -/
def Budget.unregister (b : Budget) (i : ℕ) : Budget :=
  match b.registrations[i]? with
  | some (client, true) =>
    { b with
      clients := b.clients.erase client
      registrations := b.registrations.set i (client, false) }
  | _ => b

/-! ### Sampling -/

/-- `Math.floor(n * factor)` -/
def portion (n : ℤ) (factor : ℚ) : ℤ := ⌊Double.round (n * Double.round factor)⌋

inductive Regime
  | critical
  | pressured
  | recovering
  deriving DecidableEq

def Budget.regime (b : Budget) (signals : Signals) : Regime :=
  let capacity := signals.effectiveBytes.getD (literal b.hardCap)
  let ratio : Option Number :=
    if (literal 0).lt capacity then signals.availableBytes.map fun bytes => bytes.div capacity
    else none
  let psiCritical := signals.psiSomeAvg10.any fun psi => (literal 50).le psi
  let psiPressure := signals.psiSomeAvg10.any fun psi => (literal 10).le psi
  if b.hardCap < b.used ∨ ratio.any (fun ratio => ratio.lt (literal (5 / 100))) ∨
      psiCritical then .critical
  else if b.target < b.used ∨ ratio.any (fun ratio => ratio.lt (literal (15 / 100))) ∨
      psiPressure then .pressured
  else .recovering

/-- What a sample makes of the state and the target. -/
def Budget.adjust (b : Budget) (o : Options) (signals : Signals) (now : Number) : Budget :=
  match b.regime signals with
  | .critical =>
    { b with
      state := .critical
      target := max (b.minMemory.getD 1) (portion b.target (7 / 10))
      pressureAt := some now
      recoveryAt := none }
  | .pressured =>
    let pressureAt := b.pressureAt.getD now
    let b : Budget := { b with pressureAt := some pressureAt, recoveryAt := none }
    if (o.pressureWindowMs.getD (literal 5000)).le (now.sub pressureAt) then
      { b with
        state := .pressure
        target := max (b.minMemory.getD 1) (portion b.hardCap (7 / 10)) }
    else b
  | .recovering =>
    let recoveryAt := b.recoveryAt.getD now
    let b : Budget := { b with recoveryAt := some recoveryAt, pressureAt := none }
    if (o.recoveryWindowMs.getD (literal 30000)).le (now.sub recoveryAt) then
      { b with
        state := .normal
        target := min b.hardCap (nearest (b.target + max 1 (portion b.hardCap (5 / 100)))) }
    else b

/-- `evictBounded(32)`, after `asked` rounds: the next client is asked, if there is need. -/
def Budget.evictBounded (b : Budget) (asked : ℕ) : Budget :=
  match b.clients[b.cursor % b.clients.length]? with
  | none => b
  | some client =>
    if asked < 32 ∧ b.target < b.used then
      { b with cursor := b.cursor + 1, asking := ⟨client, asked + 1⟩ :: b.asking }
    else b

def Budget.sample (b : Budget) (o : Options) (signals : Signals) (now : Number) : Budget :=
  let b := b.adjust o signals now
  if b.target < b.used then b.evictBounded 0 else b

/-- The client that was asked last returns, or throws (`none`). -/
def Budget.answer (b : Budget) (evicted : Option Bool) : Budget :=
  match b.asking with
  | [] => b
  | ask :: asking =>
    let evictions := if evicted = some true then b.evictions + 1 else b.evictions
    { b with asking := asking, evictions := evictions }.evictBounded ask.asked

/-- What is done to a budget, by the owner of it, by a cache, or by a client that is asked. -/
inductive Event
  | tryReserve (bytes : Number) (category : JsString)
  | release (bytes : Number) (category : JsString)
  | register (client : ℕ)
  | unregister (i : ℕ)
  | sample (signals : Signals) (now : Number)
  | answer (evicted : Option Bool)
  | close

def step (o : Options) (b : Budget) : Event → Budget
  | .tryReserve bytes category => (b.tryReserve bytes category).1
  | .release bytes category => b.release bytes category
  | .register client => b.register client
  | .unregister i => b.unregister i
  | .sample signals now => b.sample o signals now
  | .answer evicted => b.answer evicted
  | .close => { b with clients := [] }

/-- What the ledger and the target promise. -/
structure Sound (b : Budget) : Prop where
  used : b.used = (b.categories.map Prod.snd).sum
  totals : ∀ e ∈ b.categories, 0 ≤ e.2
  cap : b.used ≤ b.hardCap
  least : max 1 (b.minMemory.getD 1) ≤ b.target
  target : b.target ≤ b.hardCap

/-- What `tryReserve` promises: a success is within the target, a failure changes nothing of
the ledger. -/
def Truthful (b : Budget) (bytes : Number) (category : JsString) : Prop :=
  if (b.tryReserve bytes category).2 then
    (b.tryReserve bytes category).1.used ≤ (b.tryReserve bytes category).1.target
  else (b.tryReserve bytes category).1.used = b.used ∧
    (b.tryReserve bytes category).1.categories = b.categories

/-- Before event `m` the sample that began with event `i` waits for a client: ever since,
more samples have waited than before it. -/
def Waits (o : Options) (b : Budget) (events : List Event) (i m : ℕ) : Prop :=
  ∀ l, i < l → l ≤ m →
    (stateAt (step o) b events i).asking.length < (stateAt (step o) b events l).asking.length

/-- With event `m` a client is asked for the sample that began with event `i`: at its begin,
or when the client that it waits for has answered.  Whether a client is asked shows in the
cursor. -/
def AsksFor (o : Options) (b : Budget) (events : List Event) (i m : ℕ) : Prop :=
  (stateAt (step o) b events (m + 1)).cursor ≠ (stateAt (step o) b events m).cursor ∧
    (m = i ∨ i < m ∧ Waits o b events i m ∧
      (stateAt (step o) b events m).asking.length =
        (stateAt (step o) b events i).asking.length + 1 ∧
      ∃ evicted, events[m]? = some (.answer evicted))

/-! ### The ledger counts -/

/-- Below 2^53 the ledger counts in exact integers. -/
structure Counts (b : Budget) : Prop where
  sound : Sound b
  asked : ∀ ask ∈ b.asking, ask.asked ≤ 32
  nodup : (b.categories.map Prod.fst).Nodup
  safe : b.hardCap < 2 ^ 53
  positive : 1 ≤ b.minMemory.getD 1

variable {o : Options} {b : Budget}

theorem Counts.total_nonneg (h : Counts b) (category : JsString) : 0 ≤ b.total category := by
  rw [Budget.total]
  rcases hget : b.categories.get category with _ | n
  · exact le_rfl
  · exact h.sound.totals _ (mem_of_get hget)

theorem Counts.total_le (h : Counts b) (category : JsString) : b.total category ≤ b.used := by
  have hnonneg : ∀ n ∈ b.categories.map Prod.snd, 0 ≤ n := by
    intro n hn
    obtain ⟨e, he, rfl⟩ := List.mem_map.mp hn
    exact h.sound.totals e he
  rw [h.sound.used, Budget.total]
  rcases hget : b.categories.get category with _ | n
  · exact List.sum_nonneg hnonneg
  · exact List.single_le_sum hnonneg n (List.mem_map_of_mem (mem_of_get hget))

theorem Counts.used_nonneg (h : Counts b) : 0 ≤ b.used :=
  (h.total_nonneg []).trans (h.total_le [])

/-- What does not touch the ledger. -/
theorem Counts.retarget (h : Counts b) {b' : Budget} (hused : b'.used = b.used)
    (hcategories : b'.categories = b.categories) (hhardCap : b'.hardCap = b.hardCap)
    (hminMemory : b'.minMemory = b.minMemory) (hleast : max 1 (b.minMemory.getD 1) ≤ b'.target)
    (htarget : b'.target ≤ b.hardCap) (hasked : ∀ ask ∈ b'.asking, ask.asked ≤ 32) :
    Counts b' := by
  refine ⟨⟨?_, ?_, ?_, ?_, ?_⟩, hasked, ?_, ?_, ?_⟩
  · rw [hused, hcategories]
    exact h.sound.used
  · rw [hcategories]
    exact h.sound.totals
  · rw [hused, hhardCap]
    exact h.sound.cap
  · rwa [hminMemory]
  · rwa [hhardCap]
  · rw [hcategories]
    exact h.nodup
  · rw [hhardCap]
    exact h.safe
  · rw [hminMemory]
    exact h.positive

/-- A category changes by as much as what is in use. -/
theorem Counts.set (h : Counts b) {b' : Budget} (category : JsString) (n : ℤ)
    (hn : 0 ≤ b.total category + n) (hcap : b.used + n ≤ b.hardCap)
    (hcategories : b'.categories = b.categories.set category (b.total category + n))
    (hused : b'.used = b.used + n) (hhardCap : b'.hardCap = b.hardCap)
    (hminMemory : b'.minMemory = b.minMemory) (htarget : b'.target = b.target)
    (hasking : b'.asking = b.asking) : Counts b' := by
  refine ⟨⟨?_, fun e he => ?_, ?_, ?_, ?_⟩, ?_, ?_, ?_, ?_⟩
  · rw [hused, hcategories, sum_set h.nodup, ← h.sound.used, Budget.total]
    ring
  · rw [hcategories] at he
    rcases mem_of_mem_set he with rfl | hold
    · exact hn
    · exact h.sound.totals e hold
  · rwa [hused, hhardCap]
  · rw [hminMemory, htarget]
    exact h.sound.least
  · rw [htarget, hhardCap]
    exact h.sound.target
  · rw [hasking]
    exact h.asked
  · rw [hcategories]
    exact nodup_set h.nodup category _
  · rw [hhardCap]
    exact h.safe
  · rw [hminMemory]
    exact h.positive

/-- What is admitted is counted exactly. -/
theorem Counts.exact (h : Counts b) (category : JsString) {n : ℕ}
    (hadmits : nearest (b.used + n) ≤ b.target) :
    nearest (b.used + n) = b.used + n ∧
      nearest (b.total category + n) = b.total category + n := by
  have hsafe := h.safe
  have htarget := h.sound.target
  have hused := h.used_nonneg
  have htotal := h.total_nonneg category
  have hle := h.total_le category
  have hsmall : b.used + n < 2 ^ 53 := by
    by_contra hlarge
    have hround := Double.le_nearest (a := 2 ^ 53) (by norm_num) (not_lt.mp hlarge)
    omega
  refine ⟨Double.nearest_of_le ?_, Double.nearest_of_le ?_⟩
  · rw [abs_of_nonneg (by omega)]
    omega
  · rw [abs_of_nonneg (by omega)]
    omega

theorem counts_tryReserve (h : Counts b) (bytes : Number) (category : JsString) :
    Counts (b.tryReserve bytes category).1 := by
  rw [Budget.tryReserve.eq_def]
  split
  · exact h
  next n hn =>
  split
  · exact h.retarget rfl rfl rfl rfl h.sound.least h.sound.target h.asked
  next hadmits =>
  obtain ⟨hused, htotal⟩ := h.exact category (not_lt.mp hadmits)
  have hnonneg := h.total_nonneg category
  refine h.set category n (by omega) ?_ ?_ hused rfl rfl rfl rfl
  · rw [← hused]
    exact (not_lt.mp hadmits).trans h.sound.target
  · show b.categories.set category (nearest (b.total category + n)) = _
    rw [htotal]

theorem counts_release (h : Counts b) (bytes : Number) (category : JsString) :
    Counts (b.release bytes category) := by
  rw [Budget.release.eq_def]
  split
  · exact h
  next n hn =>
  dsimp only
  split
  · exact h
  have hsafe := h.safe
  have hcap := h.sound.cap
  have hused := h.used_nonneg
  have htotal := h.total_nonneg category
  have hle := h.total_le category
  -- no more leaves than the category has, and than is in use
  generalize hamount : min (min (n : ℤ) (b.total category)) b.used = amount
  have hexact : nearest (b.total category - amount) = b.total category + -amount ∧
      nearest (b.used - amount) = b.used + -amount := by
    refine ⟨Double.nearest_of_le ?_, Double.nearest_of_le ?_⟩
    · rw [abs_of_nonneg (by omega)]
      omega
    · rw [abs_of_nonneg (by omega)]
      omega
  refine h.set category (-amount) (by omega) (by omega) ?_ hexact.2
    rfl rfl rfl rfl
  show b.categories.set category (nearest (b.total category - amount)) = _
  rw [hexact.1]

/-! ### The target stays within its bounds -/

theorem portion_bounds {n : ℤ} (factor : ℚ) (hn : 0 ≤ n) (hscaled : Double.Scaled n)
    (hfactor : 0 ≤ factor) (hone : factor ≤ 1) :
    0 ≤ portion n factor ∧ portion n factor ≤ n := by
  have hlow : 0 ≤ Double.round factor := Double.le_round Double.isDouble_zero.1 hfactor
  have hhigh : Double.round factor ≤ 1 := by
    refine Double.round_le ?_ hone
    exact_mod_cast Double.scaled_intCast (n := 1) (by norm_num)
  have hn : (0 : ℚ) ≤ n := by exact_mod_cast hn
  rw [portion]
  constructor
  · rw [Int.le_floor, Int.cast_zero]
    exact Double.le_round Double.isDouble_zero.1 (mul_nonneg hn hlow)
  · have hround : Double.round (n * Double.round factor) ≤ n :=
      Double.round_le hscaled (mul_le_of_le_one_right hn hhigh)
    have hfloor := (Int.floor_le (Double.round (n * Double.round factor))).trans hround
    exact_mod_cast hfloor

theorem counts_adjust (h : Counts b) (o : Options) (signals : Signals) (now : Number) :
    Counts (b.adjust o signals now) := by
  have hleast := h.sound.least
  have htarget := h.sound.target
  have hsafe := h.safe
  have hpositive := h.positive
  rw [Budget.adjust]
  cases b.regime signals with
  | critical =>
    have hportion := portion_bounds (n := b.target) (7 / 10) (by omega)
      (Double.scaled_intCast (abs_le.mpr ⟨by omega, by omega⟩)) (by norm_num) (by norm_num)
    refine h.retarget rfl rfl rfl rfl ?_ ?_ h.asked
    · dsimp only
      omega
    · dsimp only
      omega
  | pressured =>
    have hportion := portion_bounds (n := b.hardCap) (7 / 10) (by omega)
      (Double.scaled_intCast (abs_le.mpr ⟨by omega, by omega⟩)) (by norm_num) (by norm_num)
    dsimp only
    split
    · refine h.retarget rfl rfl rfl rfl ?_ ?_ h.asked
      · dsimp only
        omega
      · dsimp only
        omega
    · exact h.retarget rfl rfl rfl rfl hleast htarget h.asked
  | recovering =>
    have hnearest := Double.le_nearest (a := b.target)
      (n := b.target + max 1 (portion b.hardCap (5 / 100))) (abs_le.mpr ⟨by omega, by omega⟩)
      (by omega)
    dsimp only
    split
    · refine h.retarget rfl rfl rfl rfl ?_ ?_ h.asked
      · dsimp only
        omega
      · exact min_le_left ..
    · exact h.retarget rfl rfl rfl rfl hleast htarget h.asked

/-- A sample asks once more only if it has asked fewer than 32 times. -/
theorem counts_evictBounded (h : Counts b) (asked : ℕ) : Counts (b.evictBounded asked) := by
  rw [Budget.evictBounded]
  split
  · exact h
  · split
    · next hasked =>
      refine h.retarget rfl rfl rfl rfl h.sound.least h.sound.target fun ask hask => ?_
      rcases List.mem_cons.mp hask with rfl | hold
      · exact hasked.1
      · exact h.asked ask hold
    · exact h

theorem counts_sample (h : Counts b) (o : Options) (signals : Signals) (now : Number) :
    Counts (b.sample o signals now) := by
  have hadjust := counts_adjust h o signals now
  rw [Budget.sample]
  split
  · exact counts_evictBounded hadjust 0
  · exact hadjust

theorem counts_answer (h : Counts b) (evicted : Option Bool) : Counts (b.answer evicted) := by
  rw [Budget.answer]
  split
  · exact h
  · next ask asking hasking =>
    refine counts_evictBounded ?_ ask.asked
    refine h.retarget rfl rfl rfl rfl h.sound.least h.sound.target fun ask' hask' => ?_
    refine h.asked ask' ?_
    rw [hasking]
    exact List.mem_cons_of_mem ask hask'

theorem counts_step (h : Counts b) (event : Event) : Counts (step o b event) := by
  have hkeep : ∀ b' : Budget, b'.used = b.used → b'.categories = b.categories →
      b'.hardCap = b.hardCap → b'.minMemory = b.minMemory → b'.target = b.target →
      b'.asking = b.asking → Counts b' := by
    intro b' hused hcategories hhardCap hminMemory htarget hasking
    refine h.retarget hused hcategories hhardCap hminMemory ?_ ?_ ?_
    · rw [htarget]
      exact h.sound.least
    · rw [htarget]
      exact h.sound.target
    · rw [hasking]
      exact h.asked
  cases event with
  | tryReserve bytes category => exact counts_tryReserve h bytes category
  | release bytes category => exact counts_release h bytes category
  | register client => exact hkeep _ rfl rfl rfl rfl rfl rfl
  | unregister i =>
    rw [step, Budget.unregister]
    split
    · exact hkeep _ rfl rfl rfl rfl rfl rfl
    · exact h
  | sample signals now => exact counts_sample h o signals now
  | answer evicted => exact counts_answer h evicted
  | close => exact hkeep _ rfl rfl rfl rfl rfl rfl

theorem truthful (b : Budget) (bytes : Number) (category : JsString) :
    Truthful b bytes category := by
  rw [Truthful, Budget.tryReserve.eq_def]
  split
  · exact ⟨rfl, rfl⟩
  next n hn =>
  split
  · exact ⟨rfl, rfl⟩
  · next hadmits => exact not_lt.mp hadmits

/-! ### Runs -/

section

variable {maxMemory : Number} {minMemory sampleIntervalMs : Option Number}

/-- A budget starts with its cap as the target, and empty. -/
theorem create_spec (h : create maxMemory minMemory sampleIntervalMs = .ok b) :
    0 < b.hardCap ∧ 1 ≤ b.minMemory.getD 1 ∧ b.minMemory.getD 1 ≤ b.hardCap ∧
      b.target = b.hardCap ∧ b.used = 0 ∧ b.categories = [] ∧ b.asking = [] := by
  rw [create] at h
  split at h
  · cases h
  split at h
  · cases h
  next hardCap hcap =>
  split at h
  · cases h
  next hpositive =>
  dsimp only at h
  split at h
  · rw [← Except.ok.inj h]
    refine ⟨not_le.mp hpositive, le_rfl, ?_, rfl, rfl, rfl, rfl⟩
    show (1 : ℤ) ≤ hardCap
    omega
  · split at h
    · cases h
    split at h
    · cases h
    next minMemory hmin hbounds =>
    rw [← Except.ok.inj h]
    rw [not_or, not_le, not_lt] at hbounds
    exact ⟨not_le.mp hpositive, hbounds.1, hbounds.2, rfl, rfl, rfl, rfl⟩

theorem counts_create (h : create maxMemory minMemory sampleIntervalMs = .ok b)
    (hsafe : b.hardCap < 2 ^ 53) : Counts b := by
  obtain ⟨hcap, hpositive, hmin, htarget, hused, hcategories, hasking⟩ := create_spec h
  refine ⟨⟨?_, ?_, ?_, ?_, ?_⟩, ?_, ?_, hsafe, hpositive⟩
  · rw [hused, hcategories]
    rfl
  · rw [hcategories]
    exact List.forall_mem_nil _
  · rw [hused]
    exact hcap.le
  · rw [htarget]
    omega
  · exact htarget.le
  · rw [hasking]
    exact List.forall_mem_nil _
  · rw [hcategories]
    exact List.nodup_nil

end

/-! ### How often a sample asks -/

/-- The next client is asked, or nobody is. -/
theorem evictBounded_asking (b : Budget) (asked : ℕ) :
    ((b.evictBounded asked).asking = b.asking ∧ (b.evictBounded asked).cursor = b.cursor) ∨
      ∃ client, (b.evictBounded asked).asking = ⟨client, asked + 1⟩ :: b.asking ∧
        (b.evictBounded asked).cursor = b.cursor + 1 := by
  rw [Budget.evictBounded]
  split
  · exact .inl ⟨rfl, rfl⟩
  · next client _ =>
    split
    · exact .inr ⟨client, rfl, rfl⟩
    · exact .inl ⟨rfl, rfl⟩

theorem sample_asking (b : Budget) (o : Options) (signals : Signals) (now : Number) :
    ((b.sample o signals now).asking = b.asking ∧ (b.sample o signals now).cursor = b.cursor) ∨
      ∃ client, (b.sample o signals now).asking = ⟨client, 1⟩ :: b.asking ∧
        (b.sample o signals now).cursor = b.cursor + 1 := by
  have hadjust : (b.adjust o signals now).asking = b.asking ∧
      (b.adjust o signals now).cursor = b.cursor := by
    rw [Budget.adjust]
    cases b.regime signals with
    | critical => exact ⟨rfl, rfl⟩
    | pressured =>
      dsimp only
      split <;> exact ⟨rfl, rfl⟩
    | recovering =>
      dsimp only
      split <;> exact ⟨rfl, rfl⟩
  rw [Budget.sample, ← hadjust.1, ← hadjust.2]
  split
  · exact evictBounded_asking _ 0
  · exact .inl ⟨rfl, rfl⟩

/-- What an answer makes of the samples that wait. -/
theorem answer_asking {ask : Ask} {asking : List Ask} (h : b.asking = ask :: asking)
    (evicted : Option Bool) :
    ((b.answer evicted).asking = asking ∧ (b.answer evicted).cursor = b.cursor) ∨
      ∃ client, (b.answer evicted).asking = ⟨client, ask.asked + 1⟩ :: asking ∧
        (b.answer evicted).cursor = b.cursor + 1 := by
  rw [Budget.answer, h]
  exact evictBounded_asking _ ask.asked

/-- Other events ask nobody. -/
theorem step_asking (o : Options) (b : Budget) {event : Event}
    (hsample : ∀ signals now, event ≠ .sample signals now)
    (hanswer : ∀ evicted, event ≠ .answer evicted) :
    (step o b event).asking = b.asking ∧ (step o b event).cursor = b.cursor := by
  cases event with
  | tryReserve bytes category =>
    rw [step, Budget.tryReserve.eq_def]
    split
    · exact ⟨rfl, rfl⟩
    · split <;> exact ⟨rfl, rfl⟩
  | release bytes category =>
    rw [step, Budget.release.eq_def]
    split
    · exact ⟨rfl, rfl⟩
    · dsimp only
      split <;> exact ⟨rfl, rfl⟩
  | register client => exact ⟨rfl, rfl⟩
  | unregister i =>
    rw [step, Budget.unregister]
    split <;> exact ⟨rfl, rfl⟩
  | sample signals now => exact absurd rfl (hsample signals now)
  | answer evicted => exact absurd rfl (hanswer evicted)
  | close => exact ⟨rfl, rfl⟩

section Asks

variable {events : List Event} {i m n : ℕ}

open scoped Classical in
/-- How often the sample of event `i` has asked before event `n`. -/
noncomputable def asks (o : Options) (b : Budget) (events : List Event) (i n : ℕ) : ℕ :=
  ((Finset.range n).filter (AsksFor o b events i)).card

theorem asks_succ_of_not (h : ¬ AsksFor o b events i n) :
    asks o b events i (n + 1) = asks o b events i n := by
  classical
  rw [asks, asks, Finset.range_add_one, Finset.filter_insert, if_neg h]

theorem asks_succ (h : AsksFor o b events i n) :
    asks o b events i (n + 1) = asks o b events i n + 1 := by
  classical
  rw [asks, asks, Finset.range_add_one, Finset.filter_insert, if_pos h,
    Finset.card_insert_of_notMem (by simp)]

theorem asks_self : asks o b events i i = 0 := by
  classical
  rw [asks, Finset.card_eq_zero, Finset.filter_eq_empty_iff]
  rintro m hm ⟨-, rfl | ⟨hlt, -⟩⟩
  · exact absurd (Finset.mem_range.mp hm) (lt_irrefl m)
  · exact absurd (Finset.mem_range.mp hm) (by omega)

theorem Waits.mono (h : Waits o b events i n) (hmn : m ≤ n) : Waits o b events i m :=
  fun l hil hlm => h l hil (hlm.trans hmn)

/-- Only a sample and an answer ask. -/
theorem not_asksFor (hin : i < n) (hanswer : ∀ evicted, events[n]? ≠ some (.answer evicted)) :
    ¬ AsksFor o b events i n := by
  rintro ⟨-, rfl | ⟨-, -, -, evicted, hget⟩⟩
  · exact absurd hin (lt_irrefl _)
  · exact hanswer evicted hget

/-- An answer: of the client that the sample waits for, or of one that a sample inside waits
for. -/
theorem asks_answer (hin : i < n) (hwaits : Waits o b events i (n + 1)) {evicted : Option Bool}
    (hevent : events[n]? = some (.answer evicted)) {inner : List Ask} {ask : Ask}
    (hasking : (stateAt (step o) b events n).asking =
      inner ++ ask :: (stateAt (step o) b events i).asking)
    (hasked : ask.asked = asks o b events i n) :
    ∃ inner' ask', (stateAt (step o) b events (n + 1)).asking =
        inner' ++ ask' :: (stateAt (step o) b events i).asking ∧
      ask'.asked = asks o b events i (n + 1) := by
  have hlonger := hwaits (n + 1) (by omega) le_rfl
  rw [stateAt_succ hevent] at hlonger ⊢
  cases inner with
  | nil =>
    -- the client answers the sample itself
    rw [List.nil_append] at hasking
    rcases answer_asking hasking evicted with ⟨hsame, -⟩ | ⟨client, hnext, hcursor⟩
    · rw [step, hsame] at hlonger
      exact absurd hlonger (lt_irrefl _)
    · refine ⟨[], ⟨client, ask.asked + 1⟩, hnext, ?_⟩
      have hasks : AsksFor o b events i n := by
        refine ⟨?_, .inr ⟨hin, hwaits.mono (Nat.le_succ n), ?_, evicted, hevent⟩⟩
        · rw [stateAt_succ hevent, step, hcursor]
          exact Nat.succ_ne_self _
        · rw [hasking, List.length_cons]
      rw [asks_succ hasks, hasked]
  | cons first inner =>
    -- the client answers a sample inside
    have hno : ¬ AsksFor o b events i n := by
      rintro ⟨-, rfl | ⟨-, -, hlength, -⟩⟩
      · exact absurd hin (lt_irrefl _)
      · rw [hasking, List.length_append, List.length_cons, List.length_cons] at hlength
        omega
    rw [asks_succ_of_not hno]
    rw [List.cons_append] at hasking
    rcases answer_asking hasking evicted with ⟨hsame, -⟩ | ⟨client, hnext, -⟩
    · exact ⟨inner, ask, hsame, hasked⟩
    · exact ⟨⟨client, first.asked + 1⟩ :: inner, ask, hnext, hasked⟩

/-- The number that is kept with the client that is waited for counts the asks of the
sample. -/
theorem asks_counted {signals : Signals} {now : Number}
    (hget : events[i]? = some (.sample signals now)) (n : ℕ) (hin : i < n)
    (hwaits : Waits o b events i n) :
    ∃ inner ask, (stateAt (step o) b events n).asking =
        inner ++ ask :: (stateAt (step o) b events i).asking ∧
      ask.asked = asks o b events i n := by
  induction n, hin using Nat.le_induction with
  | base =>
    have hlonger := hwaits (i + 1) (Nat.lt_succ_self i) le_rfl
    rw [stateAt_succ hget] at hlonger ⊢
    rcases sample_asking (stateAt (step o) b events i) o signals now with ⟨hsame, -⟩ |
      ⟨client, hasking, hcursor⟩
    · rw [step, hsame] at hlonger
      exact absurd hlonger (lt_irrefl _)
    · refine ⟨[], ⟨client, 1⟩, hasking, ?_⟩
      have hasks : AsksFor o b events i i := by
        refine ⟨?_, .inl rfl⟩
        rw [stateAt_succ hget, step, hcursor]
        exact Nat.succ_ne_self _
      rw [asks_succ hasks, asks_self]
  | succ n hin ih =>
    obtain ⟨inner, ask, hasking, hasked⟩ := ih (hwaits.mono (Nat.le_succ n))
    by_cases hanswer : ∃ evicted, events[n]? = some (.answer evicted)
    · obtain ⟨evicted, hevent⟩ := hanswer
      exact asks_answer hin hwaits hevent hasking hasked
    · rw [asks_succ_of_not (not_asksFor hin fun evicted h => hanswer ⟨evicted, h⟩)]
      rcases hevent : events[n]? with _ | event
      · rw [stateAt_succ_of_none hevent]
        exact ⟨inner, ask, hasking, hasked⟩
      rw [stateAt_succ hevent]
      by_cases hsample : ∃ signals now, event = .sample signals now
      · obtain ⟨signals', now', rfl⟩ := hsample
        rcases sample_asking (stateAt (step o) b events n) o signals' now' with ⟨hsame, -⟩ |
          ⟨client, hnext, -⟩
        · exact ⟨inner, ask, hsame.trans hasking, hasked⟩
        · exact ⟨⟨client, 1⟩ :: inner, ask, by rw [step, hnext, hasking, List.cons_append], hasked⟩
      · obtain ⟨hsame, -⟩ := step_asking o (stateAt (step o) b events n)
          (fun signals now h => hsample ⟨signals, now, h⟩)
          fun evicted h => hanswer ⟨evicted, h ▸ hevent⟩
        exact ⟨inner, ask, hsame.trans hasking, hasked⟩

/-- A sample that has asked waits for the client. -/
theorem lt_asking_of_asksFor {signals : Signals} {now : Number}
    (hget : events[i]? = some (.sample signals now)) (h : AsksFor o b events i n) :
    (stateAt (step o) b events i).asking.length <
      (stateAt (step o) b events (n + 1)).asking.length := by
  obtain ⟨hcursor, rfl | ⟨-, -, hlength, evicted, hanswer⟩⟩ := h
  · rw [stateAt_succ hget] at hcursor ⊢
    rcases sample_asking (stateAt (step o) b events n) o signals now with ⟨-, hsame⟩ |
      ⟨client, hasking, -⟩
    · exact absurd hsame hcursor
    · rw [step, hasking, List.length_cons]
      exact Nat.lt_succ_self _
  · rw [stateAt_succ hanswer] at hcursor ⊢
    obtain ⟨ask, asking, hasking⟩ := List.exists_cons_of_length_eq_add_one hlength
    rcases answer_asking hasking evicted with ⟨-, hsame⟩ | ⟨client, hnext, -⟩
    · exact absurd hsame hcursor
    · rw [step, hnext, List.length_cons]
      rw [hasking, List.length_cons] at hlength
      omega

/-- A sample asks no more often than the loop allows. -/
theorem asks_le {signals : Signals} {now : Number}
    (hget : events[i]? = some (.sample signals now))
    (hasked : ∀ n, ∀ ask ∈ (stateAt (step o) b events n).asking, ask.asked ≤ 32) (n : ℕ)
    (hin : i ≤ n) : asks o b events i n ≤ 32 := by
  induction n, hin using Nat.le_induction with
  | base =>
    rw [asks_self]
    exact Nat.zero_le _
  | succ n hin ih =>
    by_cases hasks : AsksFor o b events i n
    · -- it waits for the client it has just asked
      have hwaits : Waits o b events i (n + 1) := by
        intro l hil hln
        rcases Nat.le_succ_iff.mp hln with hln | rfl
        · rcases hasks with ⟨-, rfl | ⟨-, hwaits, -⟩⟩
          · omega
          · exact hwaits l hil hln
        · exact lt_asking_of_asksFor hget hasks
      obtain ⟨inner, ask, hasking, hcount⟩ := asks_counted hget (n + 1) (by omega) hwaits
      rw [← hcount]
      refine hasked (n + 1) ask ?_
      rw [hasking]
      exact List.mem_append_right inner List.mem_cons_self
    · rwa [asks_succ_of_not hasks]

theorem asksFor_le {signals : Signals} {now : Number}
    (hget : events[i]? = some (.sample signals now))
    (hasked : ∀ n, ∀ ask ∈ (stateAt (step o) b events n).asking, ask.asked ≤ 32) :
    {m | AsksFor o b events i m}.encard ≤ 32 := by
  classical
  have hwithin : {m | AsksFor o b events i m} =
      (Finset.range (events.length + i)).filter (AsksFor o b events i) := by
    ext m
    rw [Finset.coe_filter, Set.mem_ofPred_eq, Set.mem_ofPred_eq, Finset.mem_range, iff_and_self]
    rintro ⟨hcursor, -⟩
    -- a run that is over asks nobody
    by_contra hover
    refine hcursor ?_
    rw [stateAt_succ_of_none (List.getElem?_eq_none (by omega))]
  rw [hwithin, Set.encard_coe_eq_coe_finsetCard]
  exact_mod_cast asks_le hget hasked (events.length + i) (Nat.le_add_left i _)

end Asks

section

variable {maxMemory : Number} {minMemory sampleIntervalMs : Option Number}

/-! ### Above 2^53 -/

theorem natural_literal {n : ℕ} (h : n ≤ 2 ^ 53) : (literal (n : ℤ)).natural = some n := by
  have hdouble : Double.IsDouble ((n : ℤ) : ℚ) := by
    refine Double.isDouble_intCast ?_
    rw [abs_of_nonneg (Int.natCast_nonneg n)]
    exact_mod_cast h
  rw [literal, Number.ofRat_of_isDouble hdouble, Number.natural_intCast]

theorem floor_literal {n : ℤ} (h : |n| ≤ 2 ^ 53) : floor (literal n) = some n := by
  rw [literal, Number.ofRat_of_isDouble (Double.isDouble_intCast h), floor, Int.floor_intCast]

theorem tryReserve_of_admits {bytes : Number} {n : ℕ} (hn : bytes.natural = some n)
    (hadmits : nearest (b.used + n) ≤ b.target) (category : JsString) :
    (b.tryReserve bytes category).1.used = nearest (b.used + n) ∧
      (b.tryReserve bytes category).1.categories =
        b.categories.set category (nearest (b.total category + n)) ∧
      (b.tryReserve bytes category).1.target = b.target := by
  rw [Budget.tryReserve, hn]
  dsimp only
  rw [if_neg (not_lt.mpr hadmits)]
  exact ⟨rfl, rfl, rfl⟩

/-- The second reservation is lost in `used`. -/
def lossy : List Event :=
  [.tryReserve (literal ((2 ^ 53 : ℕ) : ℤ)) (str "fresh"),
    .tryReserve (literal ((1 : ℕ) : ℤ)) (str "stale")]

theorem not_sound_lossy (hcap : 2 ^ 53 ≤ b.target) (hused : b.used = 0)
    (hcategories : b.categories = []) : ¬ Sound (stateAt (step o) b lossy 2) := by
  have hfull : nearest (0 + ((2 ^ 53 : ℕ) : ℤ)) = 2 ^ 53 := by
    rw [zero_add]
    exact Double.nearest_of_le (by norm_num)
  have hone : nearest (0 + ((1 : ℕ) : ℤ)) = 1 := Double.nearest_of_le (by norm_num)
  have hlost : nearest (2 ^ 53 + ((1 : ℕ) : ℤ)) = 2 ^ 53 := Double.nearest_two_pow_add_one
  have htotal : b.total (str "fresh") = 0 := by
    rw [Budget.total, hcategories]
    rfl
  obtain ⟨hused₁, hcategories₁, htarget₁⟩ := tryReserve_of_admits (b := b)
    (natural_literal (n := 2 ^ 53) le_rfl) (by rwa [hused, hfull]) (str "fresh")
  rw [hused, hfull] at hused₁
  rw [htotal, hfull, hcategories] at hcategories₁
  intro hsound
  have hrun : stateAt (step o) b lossy 2 = ((b.tryReserve (literal ((2 ^ 53 : ℕ) : ℤ))
      (str "fresh")).1.tryReserve (literal ((1 : ℕ) : ℤ)) (str "stale")).1 := rfl
  rw [hrun] at hsound
  generalize (b.tryReserve (literal ((2 ^ 53 : ℕ) : ℤ)) (str "fresh")).1 = b₁
    at hsound hused₁ hcategories₁ htarget₁
  have hstale : b₁.total (str "stale") = 0 := by
    rw [Budget.total, hcategories₁]
    rfl
  obtain ⟨hused₂, hcategories₂, -⟩ := tryReserve_of_admits (b := b₁)
    (natural_literal (n := 1) (by norm_num)) (by rwa [hused₁, hlost, htarget₁]) (str "stale")
  rw [hused₁, hlost] at hused₂
  rw [hstale, hone, hcategories₁] at hcategories₂
  have hbooks := hsound.used
  rw [hused₂, hcategories₂] at hbooks
  revert hbooks
  decide

/-- **The ledger and the target.**  The promises hold in every state of every run, for any
signals and clocks and any use of the budget by its clients, and no sample asks more than 32
times, if and only if the cap is below 2^53. -/
theorem sound_iff (o : Options) (h : create maxMemory minMemory sampleIntervalMs = .ok b) :
    (∀ events, (∀ n, Sound (stateAt (step o) b events n) ∧ ∀ bytes category,
        events[n]? = some (.tryReserve bytes category) →
          Truthful (stateAt (step o) b events n) bytes category) ∧
      ∀ i signals now, events[i]? = some (.sample signals now) →
        {m | AsksFor o b events i m}.encard ≤ 32) ↔
      b.hardCap < 2 ^ 53 := by
  constructor
  · intro hsound
    by_contra hlarge
    obtain ⟨-, -, -, htarget, hused, hcategories, -⟩ := create_spec h
    refine not_sound_lossy (o := o) ?_ hused hcategories ((hsound lossy).1 2).1
    rw [htarget]
    exact not_lt.mp hlarge
  · intro hsafe events
    have hcounts : ∀ n, Counts (stateAt (step o) b events n) :=
      invariant (counts_create h hsafe) fun _ event hcounts => counts_step hcounts event
    refine ⟨fun n => ⟨(hcounts n).sound, fun bytes category _ => truthful _ bytes category⟩, ?_⟩
    intro i signals now hget
    exact asksFor_le hget fun n => (hcounts n).asked

end

/-- A new budget with the given cap. -/
def ofCap (hardCap : ℤ) : Budget :=
  ⟨hardCap, none, hardCap, 0, [], [], [], 0, .normal, none, none, 0, 0, 0, []⟩

theorem create_literal {n : ℤ} (hpositive : 0 < n) (h : |n| ≤ 2 ^ 53) :
    create (literal n) none none = .ok (ofCap n) := by
  rw [create, floor_literal h]
  dsimp only
  rw [if_neg (not_le.mpr hpositive)]
  rfl

theorem sound_iff_hundred :
    create (literal ((100 : ℤ) : ℚ)) none none = .ok (ofCap 100) ∧
      Sound (stateAt (step {}) (ofCap 100) [.tryReserve (literal 40) (str "fresh")] 1) := by
  have hcreate := create_literal (n := 100) (by norm_num) (by norm_num)
  exact ⟨hcreate, (((sound_iff {} hcreate).mpr (by decide) _).1 1).1⟩

theorem lossy_unsound :
    create (literal ((2 ^ 53 : ℤ) : ℚ)) none none = .ok (ofCap (2 ^ 53)) ∧
      ¬ Sound (stateAt (step {}) (ofCap (2 ^ 53)) lossy 2) :=
  ⟨create_literal (by norm_num) (by norm_num), not_sound_lossy le_rfl rfl rfl⟩

/-! ### The ledger that the stores share -/

/-- The categories of the stores, as the source names them. -/
def categoryText : MemoryCategory → JsString
  | .fresh => str "fresh"
  | .stale => str "stale"
  | .metadata => str "metadata"
  | .queue => str "queue"
  | .coordinationMetadata => str "coordination-metadata"

/-- What the stores see of the budget. -/
def Budget.ledger (b : Budget) : MemoryBudget where
  hardCap := b.hardCap.toNat
  target := b.target.toNat
  used := b.used.toNat
  categories category := (b.total (categoryText category)).toNat
  state := b.state

theorem categoryText_injective : Function.Injective categoryText := by
  intro c c' h
  cases c <;> cases c' <;> first | rfl | exact absurd h (by decide)

/-- The total of a category after it has been set. -/
theorem ledger_categories {b' : Budget} {category : MemoryCategory} {n : ℤ}
    (hcategories : b'.categories = b.categories.set (categoryText category) n) :
    b'.ledger.categories = Function.update b.ledger.categories category n.toNat := by
  funext c
  show (b'.total (categoryText c)).toNat = _
  rw [Budget.total, hcategories]
  by_cases hc : c = category
  · rw [hc, get_set_self, Function.update_self, Option.getD_some]
  · rw [get_set_of_ne _ _ fun heq => hc (categoryText_injective heq.symm),
      Function.update_of_ne hc]
    rfl

/-- A budget that counts reserves as the ledger of the stores does. -/
theorem ledger_tryReserve (h : Counts b) {bytes : Number} {n : ℕ} (hn : bytes.natural = some n)
    (category : MemoryCategory) :
    (b.tryReserve bytes (categoryText category)).2 = b.ledger.admits n ∧
      (b.tryReserve bytes (categoryText category)).1.ledger = b.ledger.reserve n category := by
  have hused := h.used_nonneg
  have htotal := h.total_nonneg (categoryText category)
  have hsafe := h.safe
  have hleast := h.sound.least
  have htarget := h.sound.target
  have hadmits : b.ledger.admits n = true ↔ b.used + n ≤ b.target := by
    rw [MemoryBudget.admits, decide_eq_true_eq]
    show b.used.toNat + n ≤ b.target.toNat ↔ _
    omega
  by_cases hfits : b.used + n ≤ b.target
  · have hround : nearest (b.used + n) ≤ b.target := by
      rwa [Double.nearest_of_le (abs_le.mpr ⟨by omega, by omega⟩)]
    obtain ⟨hexact, hcategory⟩ := h.exact (categoryText category) hround
    rw [MemoryBudget.reserve, if_pos (hadmits.mpr hfits), hadmits.mpr hfits]
    rw [Budget.tryReserve, hn]
    dsimp only
    rw [if_neg (not_lt.mpr hround), hexact, hcategory]
    refine ⟨rfl, MemoryBudget.mk.injEq .. ▸ ⟨rfl, rfl, ?_, ?_, rfl⟩⟩
    · show (b.used + n).toNat = b.used.toNat + n
      omega
    · refine (ledger_categories rfl).trans ?_
      congr 1
      show (b.total (categoryText category) + n).toNat =
        (b.total (categoryText category)).toNat + n
      omega
  · have hround : b.target < nearest (b.used + n) := by
      by_contra hle
      rw [(h.exact (categoryText category) (not_lt.mp hle)).1] at hle
      omega
    rw [MemoryBudget.reserve, if_neg fun hle => hfits (hadmits.mp hle)]
    rw [Bool.eq_false_iff.mpr fun hle => hfits (hadmits.mp hle), Budget.tryReserve, hn]
    dsimp only
    rw [if_pos hround]
    exact ⟨rfl, rfl⟩

/-- It releases as the ledger does. -/
theorem ledger_release (h : Counts b) {bytes : Number} {n : ℕ} (hn : bytes.natural = some n)
    (category : MemoryCategory) :
    (b.release bytes (categoryText category)).ledger = b.ledger.release n category := by
  have hused := h.used_nonneg
  have htotal := h.total_nonneg (categoryText category)
  have hle := h.total_le (categoryText category)
  have hsafe := h.safe
  have hcap := h.sound.cap
  have hamount : (min (min n (b.ledger.categories category)) b.ledger.used : ℕ) =
      min (min (n : ℤ) (b.total (categoryText category))) b.used := by
    show ((min (min n (b.total (categoryText category)).toNat) b.used.toNat : ℕ) : ℤ) = _
    omega
  rw [Budget.release, hn, MemoryBudget.release]
  dsimp only
  generalize min (min n (b.ledger.categories category)) b.ledger.used = amount at hamount
  rw [← hamount]
  split
  · next hzero =>
    obtain rfl : amount = 0 := by exact_mod_cast hzero
    rw [Nat.sub_zero, Nat.sub_zero, Function.update_eq_self]
  · rw [Double.nearest_of_le (abs_le.mpr ⟨by omega, by omega⟩),
      Double.nearest_of_le (abs_le.mpr ⟨by omega, by omega⟩)]
    refine MemoryBudget.mk.injEq .. ▸ ⟨rfl, rfl, ?_, ?_, rfl⟩
    · show (b.used - amount).toNat = b.used.toNat - amount
      omega
    · refine (ledger_categories rfl).trans ?_
      congr 1
      show (b.total (categoryText category) - amount).toNat =
        (b.total (categoryText category)).toNat - amount
      omega

end MemoryPressure
