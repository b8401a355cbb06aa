/-
A gate with a bounded number of slots and a queue.

Whoever arrives is granted a slot or waits; a slot that is given back goes to the
oldest one waiting.  Waiting can be given up, and the gate can be cleared.

* `Step` — what a gate may do;
* `Ok` — slots are bounded, nobody waits while a slot is free, and slots are granted
  in the order of arrival;
* `Ok.step` — every step keeps this.

A program with counters and a queue of its own is such a gate when each of its steps
is one; the statements about the gate are then statements about the program.
-/
import Mathlib.Data.Finset.Card
import Mathlib.Data.List.Nodup

namespace SlotGate

variable {ι : Type*}

/-- Who has a slot, who waits, who has arrived and who was ever granted a slot, the
last three in order. -/
structure Gate (ι : Type*) where
  running : Finset ι
  queue : List ι
  arrived : List ι
  granted : List ι

def Gate.empty : Gate ι := ⟨∅, [], [], []⟩

structure Ok (max : ℕ) (g : Gate ι) : Prop where
  card : g.running.card ≤ max
  full : g.queue ≠ [] → g.running.card = max
  order : (g.granted ++ g.queue).Sublist g.arrived
  nodup : g.arrived.Nodup
  running : ∀ i ∈ g.running, i ∈ g.granted

variable {max : ℕ} {g g' : Gate ι} {i : ι}

theorem Ok.empty (max : ℕ) : Ok max (Gate.empty : Gate ι) :=
  ⟨Nat.zero_le max, fun h => absurd rfl h, List.Sublist.slnil, List.nodup_nil, nofun⟩

theorem Ok.not_running (h : Ok max g) (hi : i ∈ g.queue) : i ∉ g.running := by
  intro hrunning
  have hnodup := h.order.nodup h.nodup
  exact (List.nodup_append.mp hnodup).2.2 i (h.running i hrunning) i hi rfl

theorem Ok.nodup_queue (h : Ok max g) : g.queue.Nodup :=
  (List.nodup_append.mp (h.order.nodup h.nodup)).2.1

theorem Ok.arrived (h : Ok max g) (hi : i ∈ g.running) : i ∈ g.arrived :=
  h.order.subset (List.mem_append_left _ (h.running i hi))

variable [DecidableEq ι]

/-- What a gate with `max` slots may do. -/
inductive Step (max : ℕ) (g : Gate ι) : Gate ι → Prop
  | stay : Step max g g
  | grant (i : ι) : i ∉ g.arrived → g.running.card < max → g.queue = [] →
      Step max g
        { g with running := insert i g.running, arrived := g.arrived ++ [i], granted := g.granted ++ [i] }
  | wait (i : ι) : i ∉ g.arrived → max ≤ g.running.card →
      Step max g { g with queue := g.queue ++ [i], arrived := g.arrived ++ [i] }
  /-- Those who do not wait in `queue` any more have given up. -/
  | leave (queue : List ι) : queue.Sublist g.queue → Step max g { g with queue := queue }
  | finish (i : ι) : i ∈ g.running → g.queue = [] →
      Step max g { g with running := g.running.erase i }
  | pass (i j : ι) (rest : List ι) : i ∈ g.running → g.queue = j :: rest →
      Step max g
        { g with running := insert j (g.running.erase i), queue := rest, granted := g.granted ++ [j] }

/-- A slot that changes hands stays taken. -/
theorem card_pass {j : ι} (hi : i ∈ g.running) (hj : j ∉ g.running) :
    (insert j (g.running.erase i)).card = g.running.card := by
  rw [Finset.card_insert_of_notMem fun hmem => hj (Finset.mem_of_mem_erase hmem),
    Finset.card_erase_add_one hi]

theorem Ok.step (h : Ok max g) (hstep : Step max g g') : Ok max g' := by
  cases hstep with
  | stay => exact h
  | grant i hi hroom hqueue =>
    have hnot : i ∉ g.running := fun hmem => hi (h.arrived hmem)
    have horder := h.order
    rw [hqueue, List.append_nil] at horder
    refine ⟨?_, fun hne => absurd hqueue hne, ?_, ?_, fun j hj => ?_⟩
    · show (insert i g.running).card ≤ max
      rw [Finset.card_insert_of_notMem hnot]
      omega
    · show (g.granted ++ [i] ++ g.queue).Sublist (g.arrived ++ [i])
      rw [hqueue, List.append_nil]
      exact horder.append (List.Sublist.refl [i])
    · show (g.arrived ++ [i]).Nodup
      rw [← List.concat_eq_append]
      exact h.nodup.concat hi
    · rcases Finset.mem_insert.mp hj with rfl | hj
      · exact List.mem_append_right _ (List.mem_singleton_self _)
      · exact List.mem_append_left _ (h.running j hj)
  | wait i hi hfull =>
    refine ⟨h.card, fun _ => le_antisymm h.card hfull, ?_, ?_, h.running⟩
    · show (g.granted ++ (g.queue ++ [i])).Sublist (g.arrived ++ [i])
      rw [← List.append_assoc]
      exact h.order.append (List.Sublist.refl [i])
    · show (g.arrived ++ [i]).Nodup
      rw [← List.concat_eq_append]
      exact h.nodup.concat hi
  | leave queue hqueue =>
    refine ⟨h.card, fun hne => h.full fun hnil => hne ?_, ?_, h.nodup, h.running⟩
    · rw [hnil] at hqueue
      exact List.sublist_nil.mp hqueue
    · exact ((List.Sublist.refl g.granted).append hqueue).trans h.order
  | finish i hi hqueue =>
    refine ⟨?_, fun hne => absurd hqueue hne, h.order, h.nodup,
      fun j hj => h.running j (Finset.mem_of_mem_erase hj)⟩
    exact (Finset.card_le_card (Finset.erase_subset i g.running)).trans h.card
  | pass i j rest hi hqueue =>
    have hj : j ∉ g.running := h.not_running (by rw [hqueue]; exact List.mem_cons_self)
    have hcard := card_pass (g := g) hi hj
    have hfull := h.full (by rw [hqueue]; exact List.cons_ne_nil j rest)
    have horder := h.order
    rw [hqueue, List.append_cons] at horder
    refine ⟨hcard.le.trans h.card, fun _ => hcard.trans hfull, horder, h.nodup, fun k hk => ?_⟩
    rcases Finset.mem_insert.mp hk with rfl | hk
    · exact List.mem_append_right _ (List.mem_singleton_self _)
    · exact List.mem_append_left _ (h.running k (Finset.mem_of_mem_erase hk))

end SlotGate
