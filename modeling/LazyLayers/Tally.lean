/-
Sums over the objects of a heap.

A heap gives each of the addresses below `n` an object; `tally f heap n` adds up a
measure `f` of these objects.  Counters that a program keeps next to its objects
are tallies, so what a program step does to a counter is compared with what it does
to the one object that it touches:

* `tally_update` — one object changes;
* `tally_alloc` — an object is added;
* `tally_update_of_le` — writing above the heap changes nothing;
* `le_tally` — no object exceeds the tally;
* `holders` — the addresses of the objects of a kind, whose number is a tally.
-/
import Mathlib.Algebra.BigOperators.Group.Finset.Basic
import Mathlib.Algebra.Order.BigOperators.Group.Finset

open Finset

namespace Tally

variable {α : Type*}

/-- The sum of `f` over the objects below `n`. -/
def tally (f : α → ℕ) (heap : ℕ → α) (n : ℕ) : ℕ := ∑ i ∈ range n, f (heap i)

variable (f : α → ℕ) (heap : ℕ → α) {i n : ℕ}

@[simp] theorem tally_zero : tally f heap 0 = 0 := rfl

theorem tally_succ (n : ℕ) : tally f heap (n + 1) = tally f heap n + f (heap n) :=
  sum_range_succ ..

theorem tally_congr {heap' : ℕ → α} (h : ∀ i < n, f (heap' i) = f (heap i)) :
    tally f heap' n = tally f heap n :=
  sum_congr rfl fun i hi => h i (mem_range.mp hi)

theorem tally_update_of_le (h : n ≤ i) (x : α) :
    tally f (Function.update heap i x) n = tally f heap n := by
  refine tally_congr f heap fun j hj => ?_
  rw [Function.update_of_ne (by omega)]

theorem tally_alloc (n : ℕ) (x : α) :
    tally f (Function.update heap n x) (n + 1) = tally f heap n + f x := by
  rw [tally_succ, tally_update_of_le f heap le_rfl, Function.update_self]

/-- One object changes: the tally loses the old measure and gains the new one. -/
theorem tally_update (h : i < n) (x : α) :
    tally f (Function.update heap i x) n + f (heap i) = tally f heap n + f x := by
  have hmem : i ∈ range n := mem_range.mpr h
  have hrest : ∑ j ∈ (range n).erase i, f (Function.update heap i x j) =
      ∑ j ∈ (range n).erase i, f (heap j) := by
    refine sum_congr rfl fun j hj => ?_
    rw [Function.update_of_ne (ne_of_mem_erase hj)]
  rw [tally, tally, ← add_sum_erase _ _ hmem, ← add_sum_erase (range n) _ hmem, hrest,
    Function.update_self]
  omega

/-- A counter that is a tally bounds the measure of every object. -/
theorem le_tally (h : i < n) : f (heap i) ≤ tally f heap n :=
  single_le_sum (f := fun j => f (heap j)) (fun _ _ => Nat.zero_le _) (mem_range.mpr h)

/-! ### The objects of a kind -/

/-- The addresses below `n` whose object satisfies `p`. -/
def holders (p : α → Bool) (heap : ℕ → α) (n : ℕ) : Finset ℕ := {i ∈ range n | p (heap i) = true}

variable {p : α → Bool} {heap} {x : α}

theorem mem_holders : i ∈ holders p heap n ↔ i < n ∧ p (heap i) = true := by
  rw [holders, mem_filter, mem_range]

theorem sum_holders (p : α → Bool) (w : α → ℕ) (heap : ℕ → α) (n : ℕ) :
    ∑ i ∈ holders p heap n, w (heap i) = tally (fun x => if p x then w x else 0) heap n :=
  sum_filter ..

theorem card_holders (p : α → Bool) (heap : ℕ → α) (n : ℕ) :
    (holders p heap n).card = tally (fun x => if p x then 1 else 0) heap n := by
  rw [card_eq_sum_ones]
  exact sum_holders p (fun _ => 1) heap n

theorem holders_update_same (h : p x = p (heap i)) :
    holders p (Function.update heap i x) n = holders p heap n := by
  ext j
  rw [mem_holders, mem_holders]
  by_cases hj : j = i
  · subst hj
    rw [Function.update_self, h]
  · rw [Function.update_of_ne hj]

theorem holders_update_true (hi : i < n) (h : p x = true) :
    holders p (Function.update heap i x) n = insert i (holders p heap n) := by
  ext j
  rw [mem_insert, mem_holders, mem_holders]
  by_cases hj : j = i
  · subst hj
    rw [Function.update_self]
    exact ⟨fun _ => Or.inl rfl, fun _ => ⟨hi, h⟩⟩
  · rw [Function.update_of_ne hj, or_iff_right hj]

theorem holders_update_false (h : p x = false) :
    holders p (Function.update heap i x) n = (holders p heap n).erase i := by
  ext j
  rw [mem_erase, mem_holders, mem_holders]
  by_cases hj : j = i
  · subst hj
    rw [Function.update_self, h]
    exact ⟨(fun hmem => nomatch hmem.2), fun hmem => absurd rfl hmem.1⟩
  · rw [Function.update_of_ne hj]
    exact ⟨fun hmem => ⟨hj, hmem⟩, fun hmem => hmem.2⟩

/-- A new object of the kind, or of another. -/
theorem holders_alloc_true (h : p x = true) :
    holders p (Function.update heap n x) (n + 1) = insert n (holders p heap n) := by
  ext j
  rw [mem_insert, mem_holders, mem_holders]
  by_cases hj : j = n
  · subst hj
    rw [Function.update_self]
    exact ⟨fun _ => Or.inl rfl, fun _ => ⟨Nat.lt_succ_self j, h⟩⟩
  · rw [Function.update_of_ne hj, or_iff_right hj]
    exact ⟨fun hmem => ⟨by omega, hmem.2⟩, fun hmem => ⟨by omega, hmem.2⟩⟩

theorem holders_alloc (h : p x = false) :
    holders p (Function.update heap n x) (n + 1) = holders p heap n := by
  ext j
  rw [mem_holders, mem_holders]
  by_cases hj : j = n
  · subst hj
    rw [Function.update_self, h]
    exact ⟨(fun hmem => nomatch hmem.2), fun hmem => absurd hmem.1 (lt_irrefl j)⟩
  · rw [Function.update_of_ne hj]
    exact ⟨fun hmem => ⟨by omega, hmem.2⟩, fun hmem => ⟨by omega, hmem.2⟩⟩

end Tally
