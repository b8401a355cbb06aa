/-
Maps whose entries are charged for.

A program that keeps a map within a budget keeps a counter next to it: an entry adds its
charge when it is inserted, and takes it away when it leaves.  The counter is right as
long as no entry is overwritten on the way.

* `perm_delete` — a key that is present leaves exactly one entry behind the rest;
* `Charged` — the counter is the sum of the charges of the entries;
* `Charged.delete`, `Charged.insert`, `Charged.replace` — what an operation on the map
  does to the counter.
-/
import LazyLayers.JsMap

namespace JsMap

variable {K V : Type} [DecidableEq K] {m : JsMap K V} {k : K} {v w : V}

theorem delete_of_notMem (h : k ∉ m.map Prod.fst) : delete m k = m := by
  refine List.filter_eq_self.mpr fun e he => ?_
  rw [decide_eq_true_iff]
  rintro rfl
  exact h (List.mem_map_of_mem he)

theorem notMem_of_get (hget : m.get k = none) : k ∉ m.map Prod.fst := by
  intro hmem
  obtain ⟨⟨k', v⟩, he, rfl⟩ := List.mem_map.mp hmem
  rw [get, Option.map_eq_none_iff, List.find?_eq_none] at hget
  exact hget _ he (decide_eq_true rfl)

theorem get_of_mem (hnodup : (m.map Prod.fst).Nodup) (hmem : (k, v) ∈ m) : m.get k = some v := by
  induction m with
  | nil => cases hmem
  | cons e m ih =>
    rw [List.map_cons, List.nodup_cons] at hnodup
    rw [get_cons]
    rcases List.mem_cons.mp hmem with rfl | hmem
    · exact if_pos rfl
    · have hne : e.1 ≠ k := by
        intro heq
        have hkey : k ∈ m.map Prod.fst := List.mem_map.mpr ⟨(k, v), hmem, rfl⟩
        exact hnodup.1 (heq ▸ hkey)
      rw [if_neg hne]
      exact ih hnodup.2 hmem

/-- Exactly one entry leaves. -/
theorem perm_delete (hnodup : (m.map Prod.fst).Nodup) (hget : m.get k = some v) :
    m.Perm ((k, v) :: delete m k) := by
  induction m with
  | nil => cases hget
  | cons e m ih =>
    rw [List.map_cons, List.nodup_cons] at hnodup
    rw [get_cons] at hget
    by_cases hk : e.1 = k
    · rw [if_pos hk, Option.some_inj] at hget
      have hdelete : JsMap.delete (e :: m) k = m := by
        rw [delete, List.filter_cons_of_neg (by simpa using hk)]
        exact delete_of_notMem (hk ▸ hnodup.1)
      rw [hdelete, ← hk, ← hget]
    · rw [if_neg hk] at hget
      have hdelete : JsMap.delete (e :: m) k = e :: delete m k := by
        rw [delete, List.filter_cons_of_pos (by simpa using hk)]
        rfl
      rw [hdelete]
      exact ((ih hnodup.2 hget).cons e).trans (.swap ..)

theorem length_delete (hnodup : (m.map Prod.fst).Nodup) (hget : m.get k = some v) :
    m.length = (delete m k).length + 1 :=
  (perm_delete hnodup hget).length_eq

/-- A key that is not present is appended. -/
theorem set_of_get_none (hget : m.get k = none) : m.set k v = m ++ [(k, v)] := by
  rw [set, if_neg]
  rw [has, hget]
  exact Bool.false_ne_true

/-- A key that is present keeps its place. -/
theorem map_fst_set (hget : m.get k = some w) : (m.set k v).map Prod.fst = m.map Prod.fst := by
  rw [set, if_pos (by rw [has, hget]; rfl), List.map_map]
  refine List.map_congr_left fun e _ => ?_
  by_cases hk : e.1 = k
  · rw [Function.comp_apply, if_pos hk, hk]
  · rw [Function.comp_apply, if_neg hk]

/-- The entry of a key that is present is exchanged. -/
theorem perm_set (hnodup : (m.map Prod.fst).Nodup) (hget : m.get k = some w) (v : V) :
    (m.set k v).Perm ((k, v) :: delete m k) := by
  have hset : m.set k v = m.map fun e => if e.1 = k then (k, v) else e := by
    rw [set, if_pos]
    rw [has, hget]
    rfl
  have hrest : (delete m k).map (fun e => if e.1 = k then (k, v) else e) = delete m k := by
    refine (List.map_congr_left fun e he => ?_).trans (List.map_id _)
    have hne : e.1 ≠ k := by simpa using (List.mem_filter.mp he).2
    rw [if_neg hne]
    rfl
  have hperm := (perm_delete hnodup hget).map fun e => if e.1 = k then (k, v) else e
  rwa [List.map_cons, if_pos rfl, hrest, ← hset] at hperm

theorem nodup_set (hnodup : (m.map Prod.fst).Nodup) (k : K) (v : V) :
    ((m.set k v).map Prod.fst).Nodup := by
  rcases hget : m.get k with _ | w
  · rw [set_of_get_none hget, List.map_append]
    refine hnodup.append (List.nodup_singleton k) ?_
    exact List.disjoint_singleton.mpr (notMem_of_get hget)
  · rwa [map_fst_set hget]

/-- The sum of the values, where a key that is not present counts for nothing. -/
theorem sum_set {m : JsMap K ℤ} (hnodup : (m.map Prod.fst).Nodup) (k : K) (v : ℤ) :
    ((m.set k v).map Prod.snd).sum = (m.map Prod.snd).sum - (m.get k).getD 0 + v := by
  rcases hget : m.get k with _ | w
  · rw [set_of_get_none hget, List.map_append, List.sum_append, Option.getD_none, sub_zero]
    simp
  · rw [((perm_set hnodup hget v).map Prod.snd).sum_eq,
      ((perm_delete hnodup hget).map Prod.snd).sum_eq, List.map_cons, List.map_cons,
      List.sum_cons, List.sum_cons, Option.getD_some]
    ring

/-! ### The counter -/

/-- `bytes` is what the entries of `m` are charged. -/
structure Charged (m : JsMap K V) (charge : K × V → ℕ) (bytes : ℕ) : Prop where
  nodup : (m.map Prod.fst).Nodup
  bytes : bytes = (m.map charge).sum

variable {charge : K × V → ℕ} {bytes : ℕ}

omit [DecidableEq K] in
theorem charged_nil (charge : K × V → ℕ) : Charged [] charge 0 := ⟨List.nodup_nil, rfl⟩

omit [DecidableEq K] in
theorem Charged.eq_zero (h : Charged m charge bytes) (hm : m = []) : bytes = 0 := by
  rw [h.bytes, hm]
  rfl

theorem Charged.delete_add (h : Charged m charge bytes) (hget : m.get k = some v) :
    bytes = charge (k, v) + ((delete m k).map charge).sum := by
  rw [h.bytes, ((perm_delete h.nodup hget).map charge).sum_eq]
  rfl

theorem Charged.le (h : Charged m charge bytes) (hget : m.get k = some v) :
    charge (k, v) ≤ bytes := by
  rw [h.delete_add hget]
  exact Nat.le_add_right ..

/-- An entry that leaves takes its charge away. -/
theorem Charged.delete (h : Charged m charge bytes) (hget : m.get k = some v) :
    Charged (delete m k) charge (bytes - charge (k, v)) := by
  have hnodup := ((perm_delete h.nodup hget).map Prod.fst).nodup_iff.mp h.nodup
  refine ⟨(List.nodup_cons.mp hnodup).2, ?_⟩
  rw [h.delete_add hget, Nat.add_sub_cancel_left]

/-- A new entry adds its own. -/
theorem Charged.insert (h : Charged m charge bytes) (hget : m.get k = none) (v : V) :
    Charged (m.set k v) charge (bytes + charge (k, v)) := by
  refine ⟨nodup_set h.nodup k v, ?_⟩
  rw [set_of_get_none hget, List.map_append, List.sum_append, ← h.bytes]
  rfl

/-- An entry that is overwritten exchanges its charge. -/
theorem Charged.exchange (h : Charged m charge bytes) (hget : m.get k = some w) (v : V) :
    Charged (m.set k v) charge (bytes - charge (k, w) + charge (k, v)) := by
  refine ⟨nodup_set h.nodup k v, ?_⟩
  rw [((perm_set h.nodup hget v).map charge).sum_eq, h.delete_add hget, List.map_cons,
    List.sum_cons, Nat.add_sub_cancel_left, Nat.add_comm]

/-- An entry that is overwritten by one of the same charge leaves the counter right. -/
theorem Charged.replace (h : Charged m charge bytes) (hget : m.get k = some w)
    (hcharge : ∀ v, charge (k, v) = charge (k, w)) (v : V) : Charged (m.set k v) charge bytes := by
  have hexchange := h.exchange hget v
  rwa [hcharge v, Nat.sub_add_cancel (h.le hget)] at hexchange

end JsMap
