/-
Runs of a deterministic transition function.

A run is the list of the actions that were taken, in the order in which they
were taken; `stateAt step s acts n` is the state just before the `n`-th of
them.  An interleaving of several parties is nothing more than such a list, so
a statement about every interleaving is a statement about every list.

* `stateAt_succ` — one action leads from `stateAt … n` to `stateAt … (n + 1)`;
* `stateAt_succ_of_none` — a run that is over stays where it is;
* `invariant_indexed` — what holds initially and is preserved by every action
  holds before every action; the property may also speak about the position in
  the run, hence about the history so far;
* `invariant_from` — what holds at `i` and is preserved from `i` on holds at
  every later position;
* `invariant_along`, `invariant` — the same from the beginning, for the actions
  of one run and for all actions.
-/
import Mathlib.Order.Nat
import Mathlib.Tactic

namespace Runs

variable {σ α : Type*} {step : σ → α → σ} {s : σ} {acts : List α}

/-- The state of the run `acts` from `s` before its `n`-th action. -/
def stateAt (step : σ → α → σ) (s : σ) (acts : List α) (n : ℕ) : σ :=
  (acts.take n).foldl step s

@[simp] theorem stateAt_zero : stateAt step s acts 0 = s := rfl

theorem stateAt_succ {n : ℕ} {a : α} (h : acts[n]? = some a) :
    stateAt step s acts (n + 1) = step (stateAt step s acts n) a := by
  rw [stateAt, stateAt, List.take_add_one, h]
  simp

/-- An invariant may mention the position in the run. -/
theorem invariant_indexed {P : ℕ → σ → Prop} (h0 : P 0 s)
    (hstep : ∀ n a, acts[n]? = some a →
      P n (stateAt step s acts n) → P (n + 1) (step (stateAt step s acts n) a)) :
    ∀ n, n ≤ acts.length → P n (stateAt step s acts n) := by
  intro n
  induction n with
  | zero => exact fun _ => h0
  | succ n ih =>
    intro hn
    have hget : acts[n]? = some acts[n] := List.getElem?_eq_getElem (by omega)
    rw [stateAt_succ hget]
    exact hstep n _ hget (ih (by omega))

theorem stateAt_succ_of_none {n : ℕ} (h : acts[n]? = none) :
    stateAt step s acts (n + 1) = stateAt step s acts n := by
  rw [stateAt, stateAt, List.take_add_one, h, Option.toList_none, List.append_nil]

/-- What holds at position `i` and survives every later action holds from `i` on. -/
theorem invariant_from {P : σ → Prop} {i : ℕ} (hi : P (stateAt step s acts i))
    (hstep : ∀ m a, i ≤ m → acts[m]? = some a →
      P (stateAt step s acts m) → P (step (stateAt step s acts m) a)) :
    ∀ j, i ≤ j → P (stateAt step s acts j) := by
  intro j hij
  induction j, hij using Nat.le_induction with
  | base => exact hi
  | succ j hij ih =>
    rcases hj : acts[j]? with _ | a
    · rw [stateAt_succ_of_none hj]
      exact ih
    · rw [stateAt_succ hj]
      exact hstep j a hij hj ih

/-- What survives every action of the run holds all along it. -/
theorem invariant_along {P : σ → Prop} (h0 : P s)
    (hstep : ∀ m a, acts[m]? = some a →
      P (stateAt step s acts m) → P (step (stateAt step s acts m) a)) (n : ℕ) :
    P (stateAt step s acts n) :=
  invariant_from (i := 0) h0 (fun m a _ => hstep m a) n (Nat.zero_le n)

theorem invariant {P : σ → Prop} (h0 : P s) (hstep : ∀ s a, P s → P (step s a)) (n : ℕ) :
    P (stateAt step s acts n) :=
  invariant_along h0 (fun _ a _ hp => hstep _ a hp) n

end Runs
