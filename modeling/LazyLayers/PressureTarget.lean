/-
How samples move the target of the shared memory budget.

A critical sample shrinks the target it finds.  A sample of sustained pressure sets it to a
portion of the hard cap, wherever it was before: after two critical samples it lay below.

* `Bounded` — the target lies between the least memory and the cap, for every cap;
* `target_frame` — nothing but a sample moves the target;
* `Raises` — the samples of sustained pressure that find the target below that portion;
* `sample_target_iff` — one sample of pressure raises the target exactly when it does so;
* `target_iff` — whole runs.
-/
import LazyLayers.MemoryPressure

open Js Runs JsMap
open Double (Number nearest Scaled)

namespace MemoryPressure

variable {o : Options} {b : Budget}

/-- The bounds of the target, in numbers of double precision. -/
structure Bounded (b : Budget) : Prop where
  cap : Scaled b.hardCap
  target : Scaled b.target
  least : Scaled (b.minMemory.getD 1)
  positive : 1 ≤ b.minMemory.getD 1
  le_target : b.minMemory.getD 1 ≤ b.target
  le_cap : b.target ≤ b.hardCap

/-- A new target within the bounds. -/
theorem Bounded.retarget (h : Bounded b) {b' : Budget} (hcap : b'.hardCap = b.hardCap)
    (hmin : b'.minMemory = b.minMemory) (hscaled : Scaled b'.target)
    (hleast : b.minMemory.getD 1 ≤ b'.target) (hle : b'.target ≤ b.hardCap) : Bounded b' := by
  refine ⟨?_, hscaled, ?_, ?_, ?_, ?_⟩
  · rw [hcap]
    exact h.cap
  · rw [hmin]
    exact h.least
  · rw [hmin]
    exact h.positive
  · rwa [hmin]
  · rwa [hcap]

theorem scaled_portion (n : ℤ) (factor : ℚ) : Scaled (portion n factor : ℤ) :=
  (Double.scaled_round _).floor

theorem scaled_max {m n : ℤ} (hm : Scaled m) (hn : Scaled n) : Scaled (max m n : ℤ) := by
  rcases max_choice m n with h | h
  · rwa [h]
  · rwa [h]

theorem scaled_min {m n : ℤ} (hm : Scaled m) (hn : Scaled n) : Scaled (min m n : ℤ) := by
  rcases min_choice m n with h | h
  · rwa [h]
  · rwa [h]

/-- The portion of a number that a target takes is no larger. -/
theorem portion_le {n : ℤ} (hn : 0 ≤ n) (hscaled : Scaled n) :
    portion n (7 / 10) ≤ n :=
  (portion_bounds (7 / 10) hn hscaled (by norm_num) (by norm_num)).2

/-! ### One sample -/

theorem evictBounded_target (b : Budget) (asked : ℕ) :
    (b.evictBounded asked).target = b.target ∧
      (b.evictBounded asked).hardCap = b.hardCap ∧
      (b.evictBounded asked).minMemory = b.minMemory := by
  rw [Budget.evictBounded]
  split
  · exact ⟨rfl, rfl, rfl⟩
  · split
    · exact ⟨rfl, rfl, rfl⟩
    · exact ⟨rfl, rfl, rfl⟩

/-- What follows the adjustment moves the target no more. -/
theorem sample_target (b : Budget) (o : Options) (signals : Signals) (now : Number) :
    (b.sample o signals now).target = (b.adjust o signals now).target ∧
      (b.sample o signals now).hardCap = b.hardCap ∧
      (b.sample o signals now).minMemory = b.minMemory := by
  have hadjust : (b.adjust o signals now).hardCap = b.hardCap ∧
      (b.adjust o signals now).minMemory = b.minMemory := by
    rw [Budget.adjust]
    cases b.regime signals with
    | critical => exact ⟨rfl, rfl⟩
    | pressured =>
      dsimp only
      split
      · exact ⟨rfl, rfl⟩
      · exact ⟨rfl, rfl⟩
    | recovering =>
      dsimp only
      split
      · exact ⟨rfl, rfl⟩
      · exact ⟨rfl, rfl⟩
  rw [Budget.sample]
  split
  · obtain ⟨htarget, hcap, hmin⟩ := evictBounded_target (b.adjust o signals now) 0
    exact ⟨htarget, hcap.trans hadjust.1, hmin.trans hadjust.2⟩
  · exact ⟨rfl, hadjust⟩

/-- The window of pressure is over. -/
def Budget.sustained (b : Budget) (o : Options) (now : Number) : Bool :=
  (o.pressureWindowMs.getD (literal 5000)).le (now.sub (b.pressureAt.getD now))

/-- The sample finds sustained pressure, and the target below seven tenths of the cap. -/
def Raises (o : Options) (b : Budget) (signals : Signals) (now : Number) : Prop :=
  b.regime signals = .pressured ∧ b.sustained o now = true ∧
    b.target < portion b.hardCap (7 / 10)

/-- The targets of a sample, by its regime. -/
theorem adjust_critical {signals : Signals} (now : Number)
    (h : b.regime signals = .critical) : (b.adjust o signals now).target =
      max (b.minMemory.getD 1) (portion b.target (7 / 10)) := by
  rw [Budget.adjust, h]

theorem adjust_pressured {signals : Signals} (now : Number)
    (h : b.regime signals = .pressured) : (b.adjust o signals now).target =
      if b.sustained o now then max (b.minMemory.getD 1) (portion b.hardCap (7 / 10))
      else b.target := by
  rw [Budget.adjust, h]
  dsimp only
  rw [Budget.sustained]
  split
  · rfl
  · rfl

/-- **A sample of pressure keeps the target or lowers it, unless it raises it** in the one
way there is. -/
theorem sample_target_iff (h : Bounded b) (o : Options) (signals : Signals) (now : Number)
    (hregime : b.regime signals ≠ .recovering) :
    (b.sample o signals now).target ≤ b.target ↔ ¬ Raises o b signals now := by
  rw [(sample_target b o signals now).1]
  have hpositive := h.positive
  have hleast := h.le_target
  rcases hcase : b.regime signals with _ | _ | _
  · rw [adjust_critical now hcase]
    refine iff_of_true ?_ ?_
    · exact max_le hleast (portion_le (by omega) h.target)
    · rintro ⟨hpressured, -⟩
      exact absurd (hcase.symm.trans hpressured) (by simp)
  · rw [adjust_pressured now hcase]
    by_cases hsustained : b.sustained o now = true
    · rw [if_pos hsustained, max_le_iff, and_iff_right hleast]
      constructor
      · rintro hle ⟨-, -, hlt⟩
        omega
      · intro hraises
        by_contra hlt
        exact hraises ⟨hcase, hsustained, not_le.mp hlt⟩
    · rw [if_neg hsustained]
      refine iff_of_true le_rfl ?_
      rintro ⟨-, hover, -⟩
      exact hsustained hover
  · exact absurd hcase hregime

/-! ### Runs -/

theorem bounded_sample (h : Bounded b) (o : Options) (signals : Signals) (now : Number) :
    Bounded (b.sample o signals now) := by
  obtain ⟨htarget, hcap, hmin⟩ := sample_target b o signals now
  have hpositive := h.positive
  have hleast := h.le_target
  have hle := h.le_cap
  -- the bounds are those of the adjusted target
  suffices hadjust : Scaled ((b.adjust o signals now).target : ℤ) ∧
      b.minMemory.getD 1 ≤ (b.adjust o signals now).target ∧
      (b.adjust o signals now).target ≤ b.hardCap by
    rw [← htarget] at hadjust
    exact h.retarget hcap hmin hadjust.1 hadjust.2.1 hadjust.2.2
  rcases hcase : b.regime signals with _ | _ | _
  · rw [adjust_critical now hcase]
    refine ⟨scaled_max h.least (scaled_portion _ _), le_max_left .., max_le (by omega) ?_⟩
    exact (portion_le (by omega) h.target).trans hle
  · rw [adjust_pressured now hcase]
    split
    · refine ⟨scaled_max h.least (scaled_portion _ _), le_max_left .., max_le (by omega) ?_⟩
      exact portion_le (by omega) h.cap
    · exact ⟨h.target, hleast, hle⟩
  · rw [Budget.adjust, hcase]
    dsimp only
    split
    · have hnearest : b.target ≤ nearest (b.target + max 1 (portion b.hardCap (5 / 100))) := by
        refine h.target.le_nearest ?_
        have := le_max_left 1 (portion b.hardCap (5 / 100))
        omega
      refine ⟨scaled_min h.cap (Double.scaled_nearest _), le_min ?_ ?_, min_le_left ..⟩
      · omega
      · exact hleast.trans hnearest
    · exact ⟨h.target, hleast, hle⟩

/-- Nothing but a sample moves the target. -/
theorem target_frame (o : Options) (b : Budget) {e : Event}
    (he : ∀ signals now, e ≠ .sample signals now) :
    (step o b e).target = b.target ∧ (step o b e).hardCap = b.hardCap ∧
      (step o b e).minMemory = b.minMemory := by
  cases e with
  | tryReserve bytes category =>
    rw [step, Budget.tryReserve.eq_def]
    split
    · exact ⟨rfl, rfl, rfl⟩
    · split
      · exact ⟨rfl, rfl, rfl⟩
      · exact ⟨rfl, rfl, rfl⟩
  | release bytes category =>
    rw [step, Budget.release.eq_def]
    split
    · exact ⟨rfl, rfl, rfl⟩
    · dsimp only
      split
      · exact ⟨rfl, rfl, rfl⟩
      · exact ⟨rfl, rfl, rfl⟩
  | register client => exact ⟨rfl, rfl, rfl⟩
  | unregister i =>
    rw [step, Budget.unregister]
    split
    · exact ⟨rfl, rfl, rfl⟩
    · exact ⟨rfl, rfl, rfl⟩
  | sample signals now => exact absurd rfl (he signals now)
  | answer evicted =>
    rw [step, Budget.answer]
    split
    · exact ⟨rfl, rfl, rfl⟩
    · exact evictBounded_target _ _
  | close => exact ⟨rfl, rfl, rfl⟩

theorem bounded_step (h : Bounded b) (e : Event) : Bounded (step o b e) := by
  by_cases he : ∃ signals now, e = .sample signals now
  · obtain ⟨signals, now, rfl⟩ := he
    exact bounded_sample h o signals now
  · obtain ⟨htarget, hcap, hmin⟩ := target_frame o b fun signals now hsample =>
      he ⟨signals, now, hsample⟩
    refine h.retarget hcap hmin ?_ ?_ ?_
    · rw [htarget]
      exact h.target
    · rw [htarget]
      exact h.le_target
    · rw [htarget]
      exact h.le_cap

section

variable {maxMemory : Number} {minMemory sampleIntervalMs : Option Number}

theorem scaled_of_floor {x : Number} {n : ℤ} (h : floor x = some n) : Scaled n := by
  cases x with
  | finite q hq =>
    rw [floor, Option.some.injEq] at h
    rw [← h]
    exact hq.1.floor
  | infinity => cases h
  | negInfinity => cases h
  | nan => cases h

theorem bounded_create (h : create maxMemory minMemory sampleIntervalMs = .ok b) :
    Bounded b := by
  obtain ⟨hcap, hpositive, hmin, htarget, -⟩ := create_spec h
  have hscaled : Scaled b.hardCap ∧ Scaled (b.minMemory.getD 1) := by
    rw [create] at h
    split at h
    · cases h
    split at h
    · cases h
    next hardCap hfloor =>
    split at h
    · cases h
    dsimp only at h
    split at h
    · rw [← Except.ok.inj h]
      exact ⟨scaled_of_floor hfloor, Double.scaled_intCast (n := 1) (by norm_num)⟩
    · split at h
      · cases h
      next minMemory hleast =>
      split at h
      · cases h
      · rw [← Except.ok.inj h]
        exact ⟨scaled_of_floor hfloor, scaled_of_floor hleast⟩
  refine ⟨hscaled.1, ?_, hscaled.2, hpositive, ?_, htarget.le⟩
  · rw [htarget]
    exact hscaled.1
  · rw [htarget]
    exact hmin

/-- Whatever happens leaves the target or lowers it, but for a sample that is neither
critical nor pressured. -/
def NotRaised (o : Options) (b : Budget) (e : Event) : Prop :=
  (∃ signals now, e = .sample signals now ∧ b.regime signals = .recovering) ∨
    (step o b e).target ≤ b.target

theorem notRaised_iff (h : Bounded b) (o : Options) (e : Event) :
    NotRaised o b e ↔ ∀ signals now, e = .sample signals now → ¬ Raises o b signals now := by
  by_cases he : ∃ signals now, e = .sample signals now
  · obtain ⟨signals, now, rfl⟩ := he
    have hsample : NotRaised o b (.sample signals now) ↔ ¬ Raises o b signals now := by
      by_cases hregime : b.regime signals = .recovering
      · refine iff_of_true (Or.inl ⟨signals, now, rfl, hregime⟩) ?_
        rintro ⟨hpressured, -⟩
        exact absurd (hregime.symm.trans hpressured) (by simp)
      · rw [← sample_target_iff h o signals now hregime, NotRaised]
        refine or_iff_right ?_
        rintro ⟨signals', now', hsame, hrecovering⟩
        cases hsame
        exact hregime hrecovering
    rw [hsample]
    constructor
    · intro hraises signals' now' hsame
      cases hsame
      exact hraises
    · intro hall
      exact hall signals now rfl
  · refine iff_of_true (Or.inr ?_) fun signals now hsample => absurd ⟨signals, now, hsample⟩ he
    exact (target_frame o b fun signals now hsample => he ⟨signals, now, hsample⟩).1.le

/-- **Pressure and the target.**  For every budget and every run, for any signals and
clocks and any use of the budget by its clients, and as far as the run goes: nothing but
samples that are neither critical nor pressured raises the target if and only if no sample
of sustained pressure has found the target below seven tenths of the hard cap. -/
theorem target_iff (o : Options) (h : create maxMemory minMemory sampleIntervalMs = .ok b)
    (events : List Event) (n : ℕ) :
    (∀ m < n, ∀ e, events[m]? = some e → NotRaised o (stateAt (step o) b events m) e) ↔
      ∀ m < n, ∀ signals now, events[m]? = some (.sample signals now) →
        ¬ Raises o (stateAt (step o) b events m) signals now := by
  have hbounded : ∀ m, Bounded (stateAt (step o) b events m) := fun m =>
    invariant (bounded_create h) (fun _ e hb => bounded_step hb e) m
  constructor
  · intro hall m hm signals now hget
    exact (notRaised_iff (hbounded m) o _).mp (hall m hm _ hget) signals now rfl
  · intro hall m hm e hget
    refine (notRaised_iff (hbounded m) o e).mpr fun signals now he => ?_
    rw [he] at hget
    exact hall m hm signals now hget

end

/-- Critical, critical, and five seconds later pressure. -/
def recedingRun : List Event :=
  [.sample ⟨none, none, some (literal 50)⟩ (literal 0),
    .sample ⟨none, none, some (literal 50)⟩ (literal 0),
    .sample ⟨none, none, some (literal 20)⟩ (literal 5000)]

/-- The pressure raises the target from 49 to 70 hundredths of the cap. -/
theorem target_recedingRun :
    create (literal ((100000 : ℤ) : ℚ)) none none = .ok (ofCap 100000) ∧
    (stateAt (step {}) (ofCap 100000) recedingRun 2).target = 49000 ∧
    (stateAt (step {}) (ofCap 100000) recedingRun 2).regime ⟨none, none, some (literal 20)⟩ =
      .pressured ∧
    (stateAt (step {}) (ofCap 100000) recedingRun 3).target = 70000 :=
  ⟨create_literal (by norm_num) (by norm_num), by decide +kernel⟩

/-- One critical sample leaves the target where sustained pressure puts it. -/
theorem target_iff_once :
    create (literal ((100000 : ℤ) : ℚ)) none none = .ok (ofCap 100000) ∧
    ∀ m < 1, ∀ e, [Event.sample ⟨none, none, some (literal 50)⟩ (literal 0)][m]? = some e →
      NotRaised {} (stateAt (step {}) (ofCap 100000)
        [.sample ⟨none, none, some (literal 50)⟩ (literal 0)] m) e := by
  have hcreate := create_literal (n := 100000) (by norm_num) (by norm_num)
  refine ⟨hcreate, (target_iff {} hcreate _ 1).mpr ?_⟩
  intro m hm signals now hget hraises
  obtain rfl : m = 0 := by omega
  obtain ⟨rfl, rfl⟩ : _ ∧ _ := by simpa using hget
  have hregime : (ofCap 100000).regime ⟨none, none, some (literal 50)⟩ = .critical := by
    decide +kernel
  exact absurd (hregime.symm.trans hraises.1) (by simp)

end MemoryPressure
