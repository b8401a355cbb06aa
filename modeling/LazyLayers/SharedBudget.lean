/-
The memory budget that the stores of a process share (`memoryBudget.ts`).

The first store creates the budget from its limits; a later store that brings limits must
bring the same.  The budget keeps the limit rounded down, and the later call compares the
limit before it is rounded.

Limits are exact rational numbers here; a number that is not finite has no value.  The
program computes a percentage and an amount with its unit in doubles, whose products are
rounded.  There it is the rounded limit that has to be an integer: rounding can make an
integer of a limit that is none, and can make one none.

* `parseLimit` — a limit in bytes: a number, a percentage or an amount with its unit;
* `construct` — the constructor of the budget;
* `getDefaultMemoryBudget` — the budget of the process, created by the first call;
* `Whole` — the limits that come out as an integer;
* `shared_iff` — any number of stores share a budget exactly when their limit does.
-/
import LazyLayers.MemoryPressure
import LazyLayers.NumberConversion

open Js
open MemoryPressure (Budget ofCap)

namespace SharedBudget

/-! ### Limits -/

/-- A number; one that is not finite has no value. -/
abbrev Amount := Option ℚ

/-- `MemoryLimit` -/
inductive MemoryLimit
  | number (n : Amount)
  | text (s : JsString)

/-- What is thrown. -/
inductive Fault
  | rangeError (message : JsString)
  | error (message : JsString)
  deriving DecidableEq

def units (s : JsString) : Option ℚ :=
  if s = str "B" then some 1
  else if s = str "KB" then some 1000
  else if s = str "MB" then some (10 ^ 6)
  else if s = str "GB" then some (10 ^ 9)
  else if s = str "KiB" then some 1024
  else if s = str "MiB" then some (2 ^ 20)
  else if s = str "GiB" then some (2 ^ 30)
  else none

/-- `[\d.]` -/
def isAmountUnit (u : UInt16) : Bool := isDigit u || u == 46

/-- `Number(s)`, of digits and points. -/
def amount (s : JsString) : Amount := Double.unsignedDecimal s

def digitsOf (s : JsString) : JsString := s.takeWhile isAmountUnit

def unitOf (s : JsString) : JsString := s.dropWhile isAmountUnit

/-- `parseLimit(value, capacity)` -/
def parseLimit (value : MemoryLimit) (capacity : ℚ) : Except Fault Amount :=
  match value with
  | .number n => .ok n
  | .text s =>
    if digitsOf s ≠ [] ∧ unitOf s = str "%" then
      match amount (digitsOf s) with
      | some p =>
        if p ≤ 0 ∨ 100 < p then
          .error (.rangeError
            (str "Memory percentage must be greater than 0 and no greater than 100"))
        else .ok (some (capacity * p / 100))
      | none => .ok none
    else
      match units (unitOf s) with
      | some scale =>
        if digitsOf s ≠ [] then .ok ((amount (digitsOf s)).map fun a => a * scale)
        else .error (.rangeError (str "Invalid memory limit: " ++ s))
      | none => .error (.rangeError (str "Invalid memory limit: " ++ s))

/-! ### The constructor -/

structure Options where
  maxMemory : MemoryLimit
  minMemory : Option MemoryLimit := none
  sampleIntervalMs : Option Amount := none

/-- `effectiveBytes ?? (typeof maxMemory === 'number' ? maxMemory : 0)`.  With a number that
is not finite the capacity is never used. -/
def capacityOf (o : Options) (effectiveBytes : Option ℚ) : ℚ :=
  effectiveBytes.getD (match o.maxMemory with
    | .number n => n.getD 0
    | .text _ => 0)

/-- The integer of a limit, if it has one. -/
def floor (a : Amount) : Option ℤ := a.map Int.floor

/-- `new MemoryBudget(options)`, where the signals show `effectiveBytes`. -/
def construct (o : Options) (effectiveBytes : Option ℚ) : Except Fault Budget :=
  if o.sampleIntervalMs.any fun ms => ms.all fun ms => ms < 0 then
    .error (.rangeError (str "sampleIntervalMs must be positive or zero"))
  else
    match parseLimit o.maxMemory (capacityOf o effectiveBytes) with
    | .error fault => .error fault
    | .ok limit =>
      match (floor limit).filter fun n => 0 < n with
      | none => .error (.rangeError (str "maxMemory must resolve to a positive integer"))
      | some hardCap =>
        match o.minMemory with
        | none => .ok (ofCap hardCap)
        | some minMemory =>
          match parseLimit minMemory (capacityOf o effectiveBytes) with
          | .error fault => .error fault
          | .ok least =>
            match (floor least).filter fun n => 0 < n ∧ n ≤ hardCap with
            | none => .error (.rangeError
                (str "minMemory must be a positive integer no greater than maxMemory"))
            | some minMemory => .ok { ofCap hardCap with minMemory := some minMemory }

/-! ### The budget of the process -/

/-- How many budgets there have been, and the default budget: its number tells it apart
from every other. -/
structure Process where
  created : ℕ
  defaultBudget : Option (ℕ × Budget)

/-- `{ maxMemory: '20%', sampleIntervalMs: 5000 }` -/
def defaultOptions : Options where
  maxMemory := .text (str "20%")
  sampleIntervalMs := some (some 5000)

/-- `getDefaultMemoryBudget(options)`: the number of the budget that it returns. -/
def getDefaultMemoryBudget (options : Option Options) (effectiveBytes : Option ℚ)
    (p : Process) : Except Fault ℕ × Process :=
  match p.defaultBudget with
  | none =>
    match construct (options.getD defaultOptions) effectiveBytes with
    | .error fault => (.error fault, p)
    | .ok budget => (.ok p.created, ⟨p.created + 1, some (p.created, budget)⟩)
  | some (number, budget) =>
    match options with
    | none => (.ok number, p)
    | some o =>
      match parseLimit o.maxMemory (capacityOf o effectiveBytes) with
      | .error fault => (.error fault, p)
      | .ok limit =>
        if limit ≠ some (budget.hardCap : ℚ) then
          (.error (.error (str "Conflicting shared memory budget configuration")), p)
        else (.ok number, p)

/-- What that many calls with the same arguments return, one after the other. -/
def calls (options : Option Options) (effectiveBytes : Option ℚ) :
    ℕ → Process → List (Except Fault ℕ)
  | 0, _ => []
  | n + 1, p =>
    (getDefaultMemoryBudget options effectiveBytes p).1 ::
      calls options effectiveBytes n (getDefaultMemoryBudget options effectiveBytes p).2

/-- The limits of a store: `levels.L1`. -/
structure L1Options where
  maxMemory : Option MemoryLimit := none
  minMemory : Option MemoryLimit := none
  /-- `autoEvict`, and its `enabled`. -/
  autoEvict : Option (Option Bool) := none

/-- What the constructor of a `MemoryStore` asks for, if it is not given a budget. -/
def storeOptions (l1 : L1Options) : Option Options :=
  if l1.maxMemory.isSome || l1.minMemory.isSome || l1.autoEvict.isSome then
    some {
      maxMemory := l1.maxMemory.getD (.text (str "20%"))
      minMemory := l1.minMemory
      sampleIntervalMs := if l1.autoEvict = some (some false) then some (some 0) else none }
  else none

/-! ### Limits that come out as integers -/

/-- A number that is an integer, a percentage of the capacity that is one, or an amount of
bytes that is one. -/
def Whole (value : MemoryLimit) (capacity : ℚ) : Prop :=
  match value with
  | .number n => ∃ z : ℤ, n = some (z : ℚ)
  | .text s => ∃ a, amount (digitsOf s) = some a ∧
      ((unitOf s = str "%" ∧ ∃ z : ℤ, capacity * a = 100 * z) ∨
        ∃ scale, units (unitOf s) = some scale ∧ ∃ z : ℤ, a * scale = z)

theorem units_percent : units (str "%") = none := by decide

/-- A limit that is accepted is compared equal to its floor exactly when it is whole. -/
theorem whole_iff {value : MemoryLimit} {capacity q : ℚ}
    (h : parseLimit value capacity = .ok (some q)) :
    Whole value capacity ↔ q = (⌊q⌋ : ℤ) := by
  have hfloor : q = (⌊q⌋ : ℤ) ↔ ∃ z : ℤ, q = z := by
    constructor
    · intro hq
      exact ⟨⌊q⌋, hq⟩
    · rintro ⟨z, rfl⟩
      rw [Int.floor_intCast]
  rw [hfloor]
  cases value with
  | number n =>
    rw [parseLimit, Except.ok.injEq] at h
    simp [Whole, h]
  | text s =>
    rw [parseLimit] at h
    split at h
    · next hpercent =>
      split at h
      · next p hp =>
        split at h
        · cases h
        · rw [Except.ok.injEq, Option.some.injEq] at h
          subst h
          constructor
          · rintro ⟨a, ha, ⟨-, z, hz⟩ | ⟨scale, hscale, -⟩⟩
            · obtain rfl := Option.some_inj.mp (ha.symm.trans hp)
              refine ⟨z, ?_⟩
              rw [hz]
              ring
            · rw [hpercent.2, units_percent] at hscale
              cases hscale
          · rintro ⟨z, hz⟩
            refine ⟨p, hp, Or.inl ⟨hpercent.2, z, ?_⟩⟩
            rw [← hz]
            ring
      · cases h
    · next hbytes =>
      split at h
      · next scale hscale =>
        split at h
        · next hdigits =>
          rw [Except.ok.injEq, Option.map_eq_some_iff] at h
          obtain ⟨a, ha, rfl⟩ := h
          constructor
          · rintro ⟨a', ha', ⟨hunit, -⟩ | ⟨scale', hscale', z, hz⟩⟩
            · exact absurd ⟨hdigits, hunit⟩ hbytes
            · obtain rfl := Option.some_inj.mp (ha.symm.trans ha')
              obtain rfl := Option.some_inj.mp (hscale.symm.trans hscale')
              exact ⟨z, hz⟩
          · rintro ⟨z, hz⟩
            exact ⟨a, ha, Or.inr ⟨scale, hscale, z, hz⟩⟩
        · cases h
      · cases h

/-! ### Sharing -/

variable {o : Options} {effectiveBytes : Option ℚ} {b : Budget} {p : Process}

/-- The cap of a new budget is its limit, rounded down. -/
theorem construct_spec (h : construct o effectiveBytes = .ok b) :
    ∃ q, parseLimit o.maxMemory (capacityOf o effectiveBytes) = .ok (some q) ∧
      b.hardCap = ⌊q⌋ := by
  rw [construct] at h
  split at h
  · cases h
  split at h
  · cases h
  next limit hlimit =>
  split at h
  · cases h
  next hardCap hfilter =>
  obtain ⟨hfloor, -⟩ := Option.filter_eq_some_iff.mp hfilter
  obtain ⟨q, rfl, hq⟩ := Option.map_eq_some_iff.mp hfloor
  refine ⟨q, hlimit, ?_⟩
  rw [hq]
  -- the least memory has no part in the cap
  split at h
  · rw [← Except.ok.inj h]
    rfl
  · split at h
    · cases h
    · split at h
      · cases h
      · rw [← Except.ok.inj h]
        rfl

/-- The first call creates the budget. -/
theorem first_call {options : Option Options} (hp : p.defaultBudget = none)
    (h : construct (options.getD defaultOptions) effectiveBytes = .ok b) :
    getDefaultMemoryBudget options effectiveBytes p =
      (.ok p.created, ⟨p.created + 1, some (p.created, b)⟩) := by
  simp only [getDefaultMemoryBudget, hp, h]

/-- The call of a store that brings no limits never fails. -/
theorem later_call_none {number : ℕ} (hp : p.defaultBudget = some (number, b)) :
    getDefaultMemoryBudget none effectiveBytes p = (.ok number, p) := by
  simp only [getDefaultMemoryBudget, hp]

theorem later_call_whole {number : ℕ} (hp : p.defaultBudget = some (number, b))
    (h : construct o effectiveBytes = .ok b)
    (hwhole : Whole o.maxMemory (capacityOf o effectiveBytes)) :
    getDefaultMemoryBudget (some o) effectiveBytes p = (.ok number, p) := by
  obtain ⟨q, hq, hcap⟩ := construct_spec h
  have hsame : ¬ some q ≠ some ((b.hardCap : ℤ) : ℚ) := by
    rw [not_not, hcap, ← (whole_iff hq).mp hwhole]
  simp only [getDefaultMemoryBudget, hp, hq, if_neg hsame]

theorem later_call_conflict {number : ℕ} (hp : p.defaultBudget = some (number, b))
    (h : construct o effectiveBytes = .ok b)
    (hwhole : ¬ Whole o.maxMemory (capacityOf o effectiveBytes)) :
    getDefaultMemoryBudget (some o) effectiveBytes p =
      (.error (.error (str "Conflicting shared memory budget configuration")), p) := by
  obtain ⟨q, hq, hcap⟩ := construct_spec h
  have hother : some q ≠ some ((b.hardCap : ℤ) : ℚ) := by
    rw [hcap]
    exact fun heq => hwhole ((whole_iff hq).mpr (Option.some_inj.mp heq))
  simp only [getDefaultMemoryBudget, hp, hq, if_pos hother]

/-- Calls that return the default budget can be made any number of times. -/
theorem calls_replicate {options : Option Options} {number : ℕ}
    (h : getDefaultMemoryBudget options effectiveBytes p = (.ok number, p)) (n : ℕ) :
    calls options effectiveBytes n p = List.replicate n (.ok number) := by
  induction n with
  | zero => rfl
  | succ n ih => rw [calls, h, ih, List.replicate_succ]

/-- **The shared budget and its own configuration.**  In a process without a budget yet,
for all options that the constructor accepts and any signals: however often the budget is
asked for with these options, as the constructors of equally configured stores do, every
call returns the budget of the first one if and only if no limit is given or the limit
comes out as an integer. -/
theorem shared_iff (options : Option Options) (effectiveBytes : Option ℚ) (p : Process)
    (hp : p.defaultBudget = none)
    (h : construct (options.getD defaultOptions) effectiveBytes = .ok b) :
    (∀ n, calls options effectiveBytes n p = List.replicate n (.ok p.created)) ↔
      ∀ o, options = some o → Whole o.maxMemory (capacityOf o effectiveBytes) := by
  have hfirst := first_call hp h
  constructor
  · rintro hall o rfl
    by_contra hwhole
    -- the second call is the first to compare
    have hsecond := hall 2
    rw [Option.getD_some] at h
    have hconflict := later_call_conflict (p := ⟨p.created + 1, some (p.created, b)⟩) rfl h hwhole
    rw [calls, calls, calls, hfirst] at hsecond
    dsimp only at hsecond
    rw [hconflict] at hsecond
    simp [List.replicate_succ] at hsecond
  · intro hwhole n
    cases n with
    | zero => rfl
    | succ n =>
      rw [calls, hfirst, List.replicate_succ]
      refine congrArg _ (calls_replicate ?_ n)
      cases options with
      | none => exact later_call_none rfl
      | some o => exact later_call_whole rfl h (hwhole o rfl)

/-- A third of the memory, in percent. -/
def third : L1Options := { maxMemory := some (.text (str "33%")) }

/-- Of 1000001 bytes a third is no integer: the second store of the process is refused the
budget that the first one has created with the same limits. -/
theorem shared_third :
    calls (storeOptions third) (some 1000001) 2 ⟨0, none⟩ =
      [.ok 0, .error (.error (str "Conflicting shared memory budget configuration"))] := by
  with_unfolding_all rfl

/-- A fixed number of bytes. -/
def fixed : Options := { maxMemory := .text (str "1.5KiB") }

theorem shared_iff_fixed :
    construct ((some fixed).getD defaultOptions) (some 1000001) = .ok (ofCap 1536) ∧
      ∀ n, calls (some fixed) (some 1000001) n ⟨0, none⟩ = List.replicate n (.ok 0) := by
  have hconstruct : construct ((some fixed).getD defaultOptions) (some 1000001) =
      .ok (ofCap 1536) := by
    with_unfolding_all rfl
  refine ⟨hconstruct, (shared_iff (some fixed) (some 1000001) ⟨0, none⟩ rfl hconstruct).mpr ?_⟩
  intro o ho
  obtain rfl := Option.some_inj.mp ho
  refine ⟨3 / 2, ?_, Or.inr ⟨1024, by decide, 1536, by norm_num⟩⟩
  with_unfolding_all rfl

end SharedBudget
