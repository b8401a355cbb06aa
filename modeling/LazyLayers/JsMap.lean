/-
The `Map` of JavaScript: a finite map that remembers insertion order.

`set` on a present key keeps its place, `delete` removes it, and iteration
follows the list, so the oldest key is the head.
-/
import Mathlib.Tactic

/-- A map as the list of its entries, oldest first. -/
abbrev JsMap (K V : Type) := List (K × V)

namespace JsMap

variable {K V : Type} [DecidableEq K]

def get (m : JsMap K V) (k : K) : Option V := (m.find? fun e => e.1 = k).map Prod.snd

def has (m : JsMap K V) (k : K) : Bool := (m.get k).isSome

def delete (m : JsMap K V) (k : K) : JsMap K V := m.filter fun e => e.1 ≠ k

def set (m : JsMap K V) (k : K) (v : V) : JsMap K V :=
  if m.has k then m.map fun e => if e.1 = k then (k, v) else e else m ++ [(k, v)]

def keys (m : JsMap K V) : List K := m.map Prod.fst

@[simp] theorem get_nil (k : K) : get ([] : JsMap K V) k = none := rfl

theorem get_cons (e : K × V) (m : JsMap K V) (k : K) :
    get (e :: m) k = if e.1 = k then some e.2 else get m k := by
  rw [get, List.find?_cons]
  by_cases h : e.1 = k
  · simp [h]
  · simp [h, get]

/-- Removing entries can only turn a hit into a miss. -/
theorem get_filter (m : JsMap K V) (p : K → Bool) (k : K) :
    get (m.filter fun e => p e.1) k = if p k then get m k else none := by
  induction m with
  | nil => simp
  | cons e m ih =>
    rw [List.filter_cons]
    by_cases hk : e.1 = k
    · subst hk
      by_cases hp : p e.1
      · rw [if_pos hp, get_cons, get_cons, if_pos rfl, if_pos rfl, if_pos hp]
      · rw [if_neg hp, ih, if_neg hp, if_neg hp]
    · by_cases hp : p e.1
      · rw [if_pos hp, get_cons, get_cons, if_neg hk, if_neg hk, ih]
      · rw [if_neg hp, ih, get_cons, if_neg hk]

@[simp] theorem get_delete_self (m : JsMap K V) (k : K) : (m.delete k).get k = none := by
  rw [delete, get_filter m (fun k' => k' ≠ k)]
  simp

theorem get_delete_of_ne (m : JsMap K V) {k k' : K} (h : k' ≠ k) :
    (m.delete k').get k = m.get k := by
  rw [delete, get_filter m (fun k => k ≠ k')]
  simp [Ne.symm h]

theorem get_append (m m' : JsMap K V) (k : K) : get (m ++ m') k = (get m k).or (get m' k) := by
  induction m with
  | nil => simp
  | cons e m ih =>
    rw [List.cons_append, get_cons, get_cons, ih]
    split <;> simp

theorem get_mapValue (m : JsMap K V) (k : K) (v : V) (k' : K) :
    get (m.map fun e => if e.1 = k then (k, v) else e) k' =
      if k = k' then (get m k).map fun _ => v else get m k' := by
  induction m with
  | nil => simp
  | cons e m ih =>
    rw [List.map_cons, get_cons, get_cons, get_cons, ih]
    by_cases he : e.1 = k
    · subst he
      by_cases hk : e.1 = k'
      · simp [hk]
      · simp [hk]
    · by_cases hk : k = k'
      · subst hk
        simp [he]
      · simp [he, hk]

@[simp] theorem get_set_self (m : JsMap K V) (k : K) (v : V) : (m.set k v).get k = some v := by
  rw [set]
  by_cases h : m.has k
  · rw [if_pos h, get_mapValue, if_pos rfl]
    obtain ⟨u, hu⟩ := Option.isSome_iff_exists.mp h
    rw [hu]
    rfl
  · have hnone : m.get k = none := Option.not_isSome_iff_eq_none.mp h
    rw [if_neg h, get_append, hnone, get_cons, if_pos rfl]
    rfl

theorem get_set_of_ne (m : JsMap K V) {k k' : K} (v : V) (h : k' ≠ k) :
    (m.set k' v).get k = m.get k := by
  rw [set]
  split
  · rw [get_mapValue, if_neg h]
  · rw [get_append, get_cons, if_neg h]
    simp

theorem mem_of_get {m : JsMap K V} {k : K} {v : V} (hget : m.get k = some v) : (k, v) ∈ m := by
  obtain ⟨⟨k', v'⟩, hfind, rfl⟩ := Option.map_eq_some_iff.mp hget
  have hk : k' = k := by simpa using List.find?_some hfind
  rw [← hk]
  exact List.mem_of_find?_eq_some hfind

theorem mem_of_mem_set {m : JsMap K V} {k : K} {v : V} {e : K × V}
    (h : e ∈ m.set k v) : e = (k, v) ∨ e ∈ m := by
  rw [set] at h
  split at h
  · obtain ⟨e', he', rfl⟩ := List.mem_map.mp h
    split
    · exact .inl rfl
    · exact .inr he'
  · rcases List.mem_append.mp h with hold | hnew
    · exact .inr hold
    · exact .inl (List.mem_singleton.mp hnew)

/-- `m'` has the entries of `m`, or fewer. -/
def Sub (m' m : JsMap K V) : Prop := ∀ k e, m'.get k = some e → m.get k = some e

theorem Sub.refl (m : JsMap K V) : m.Sub m := fun _ _ h => h

theorem Sub.trans {m m' m'' : JsMap K V} (h : m''.Sub m') (h' : m'.Sub m) : m''.Sub m :=
  fun k e he => h' k e (h k e he)

theorem nil_sub (m : JsMap K V) : Sub [] m := by
  intro k e he
  rw [get_nil] at he
  cases he

theorem delete_sub (m : JsMap K V) (k : K) : (m.delete k).Sub m := by
  intro k' e he
  by_cases hk : k = k'
  · subst hk
    rw [get_delete_self] at he
    cases he
  · rwa [get_delete_of_ne m hk] at he

end JsMap
