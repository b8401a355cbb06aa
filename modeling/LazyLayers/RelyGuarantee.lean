/-
Parties that run next to each other over something that they share.

A party is described by itself: how it steps, what a step does to the shared part, and how it
sees what another party has done there.  In a joint run the parties step in any order.

* `joint` — one party steps and the others see its effects;
* `Sound.invariant` — what each party keeps by its own steps, and under everything that the
  others are allowed to do, holds of all parties in every joint run, if each one does only what
  the others allow;
* `history` — the effects of a joint run, in their order;
* `Views.eq_foldl` — if every party sees the shared part through the effects alone, all of them
  see one thing, that which the history makes of its first state.
-/
import LazyLayers.Runs

open Runs

namespace RelyGuarantee

/-- A party with states `S` and events `A`; `ω` is what can be done to the shared part. -/
structure Party (S A ω : Type*) where
  step : S → A → S
  effects : S → A → List ω
  absorb : S → ω → S

variable {ι ω ν : Type*} {S A : ι → Type*}

section Joint

variable [DecidableEq ι] (parties : ∀ i, Party (S i) (A i) ω)

/-- One party takes a step; the others see what it has done. -/
def joint (s : ∀ i, S i) (a : Σ i, A i) : ∀ i, S i :=
  Function.update (fun i => ((parties a.1).effects (s a.1) a.2).foldl (parties i).absorb (s i))
    a.1 ((parties a.1).step (s a.1) a.2)

/-- What the first `n` steps of a run have done to the shared part. -/
def history (s : ∀ i, S i) (acts : List (Σ i, A i)) : ℕ → List ω
  | 0 => []
  | n + 1 => history s acts n ++ match acts[n]? with
    | some a => (parties a.1).effects (stateAt (joint parties) s acts n a.1) a.2
    | none => []

variable {parties} {s : ∀ i, S i} {acts : List (Σ i, A i)} {i : ι}

theorem joint_self (j : ι) (e : A j) :
    joint parties s ⟨j, e⟩ j = (parties j).step (s j) e :=
  Function.update_self ..

theorem joint_of_ne {j : ι} (hne : i ≠ j) (e : A j) :
    joint parties s ⟨j, e⟩ i = ((parties j).effects (s j) e).foldl (parties i).absorb (s i) :=
  Function.update_of_ne hne ..

theorem history_succ {n : ℕ} {a : Σ i, A i} (h : acts[n]? = some a) :
    history parties s acts (n + 1) = history parties s acts n ++
      (parties a.1).effects (stateAt (joint parties) s acts n a.1) a.2 := by
  rw [history, h]

end Joint

/-! ### What holds of all parties -/

variable (parties : ∀ i, Party (S i) (A i) ω)

/-- Each party keeps `P` by what it may do itself, and relies on the others for the rest; what
it does itself is what the others rely on. -/
structure Sound (P : ∀ i, S i → Prop) (Allowed : ∀ i, A i → Prop) (Rely : ι → ω → Prop) :
    Prop where
  step : ∀ i s e, Allowed i e → P i s → P i ((parties i).step s e)
  absorb : ∀ i s o, Rely i o → P i s → P i ((parties i).absorb s o)
  guarantee : ∀ j s e, Allowed j e → P j s → ∀ o ∈ (parties j).effects s e, ∀ i, i ≠ j → Rely i o

/-- Each party sees the shared part through the effects, its own and those of the others. -/
structure Views (view : ∀ i, S i → ν) (act : ν → ω → ν) : Prop where
  step : ∀ i s e, view i ((parties i).step s e) = ((parties i).effects s e).foldl act (view i s)
  absorb : ∀ i s o, view i ((parties i).absorb s o) = act (view i s) o

variable {parties} {P : ∀ i, S i → Prop} {Allowed : ∀ i, A i → Prop} {Rely : ι → ω → Prop}
  {view : ∀ i, S i → ν} {act : ν → ω → ν} {s : ∀ i, S i} {acts : List (Σ i, A i)} {i : ι}

section Runs

variable [DecidableEq ι]

/-- The rule of one joint step. -/
theorem Sound.joint_step (h : Sound parties P Allowed Rely) {a : Σ i, A i}
    (ha : Allowed a.1 a.2) (hall : ∀ i, P i (s i)) (i : ι) : P i (joint parties s a i) := by
  obtain ⟨j, e⟩ := a
  by_cases hij : i = j
  · subst hij
    rw [joint_self]
    exact h.step i (s i) e ha (hall i)
  · rw [joint_of_ne hij]
    exact List.foldlRecOn _ _ (hall i) fun t ht o ho =>
      h.absorb i t o (h.guarantee j (s j) e ha (hall j) o ho i hij) ht

/-- **The rule of joint runs.** -/
theorem Sound.invariant (h : Sound parties P Allowed Rely) (hinit : ∀ i, P i (s i))
    (hacts : ∀ a ∈ acts, Allowed a.1 a.2) (n : ℕ) (i : ι) :
    P i (stateAt (joint parties) s acts n i) :=
  invariant_along (P := fun s : ∀ i, S i => ∀ i, P i (s i)) hinit
    (fun _ a ha hall i => h.joint_step (hacts a (List.mem_of_getElem? ha)) hall i) n i

theorem Views.joint_step (h : Views parties view act) (a : Σ i, A i) (i : ι) :
    view i (joint parties s a i) =
      ((parties a.1).effects (s a.1) a.2).foldl act (view i (s i)) := by
  obtain ⟨j, e⟩ := a
  by_cases hij : i = j
  · subst hij
    rw [joint_self]
    exact h.step i (s i) e
  · rw [joint_of_ne hij]
    exact (List.foldl_hom (view i) fun t o => (h.absorb i t o).symm).symm

/-- **All parties see one shared part**: what the history of the run makes of its first state. -/
theorem Views.eq_foldl (h : Views parties view act) {v : ν} (hv : ∀ i, view i (s i) = v)
    (n : ℕ) (i : ι) :
    view i (stateAt (joint parties) s acts n i) = (history parties s acts n).foldl act v := by
  induction n with
  | zero => exact hv i
  | succ n ih =>
    rcases hget : acts[n]? with _ | a
    · rw [stateAt_succ_of_none hget, ih, history, hget, List.append_nil]
    · rw [stateAt_succ hget, h.joint_step, ih, history_succ hget, List.foldl_append]

end Runs

end RelyGuarantee
