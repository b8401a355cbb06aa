/-
Loads in flight and what becomes of them.

A tracked load has an id of its own, is found under its key until it ends or is
forgotten, and ends with one outcome.  Whoever waits for it is handed that outcome,
and the call that leads it ends with it too.

* `Run.track_unique` — no two loads have the same id;
* `Run.inflight_since` — an entry of the map belongs to a load that was tracked;
* `Run.outcome_of` — an outcome is the one that a completion has left.
-/
import LazyLayers.HybridBarriers
import LazyLayers.HybridStages

open Js Pattern Async Runs

namespace HybridCache

variable {V : Type} {cfg : Config V}

/-! ### One act -/

theorem nextInflight_apply (s : State V) (a : Act V) :
    (a.apply cfg s).nextInflight = s.nextInflight ∨
      (∃ key id opts, a = .trackInflight key id opts) ∧
        (a.apply cfg s).nextInflight = s.nextInflight + 1 := by
  have hnext : (a.apply cfg s).nextInflight = (a.apply cfg s).books.nextInflight := rfl
  rw [hnext]
  rcases @books_cases V cfg s a with ⟨_, h⟩ | ⟨key, id, opts, rfl, h⟩ | ⟨_, _, _, _, h⟩ |
    ⟨_, _, _, h⟩ | ⟨_, h⟩ | ⟨_, _, h⟩
  case inr.inl => exact .inr ⟨⟨key, id, opts, rfl⟩, congrArg Books.nextInflight h⟩
  all_goals exact .inl (congrArg Books.nextInflight h)

theorem outcomes_apply (s : State V) (a : Act V) :
    (a.apply cfg s).outcomes = s.outcomes ∨
      ∃ key id outcome, a = .finishInflight key id outcome ∧
        (a.apply cfg s).outcomes = Function.update s.outcomes id (some outcome) := by
  have hout : (a.apply cfg s).outcomes = (a.apply cfg s).books.outcomes := rfl
  rw [hout]
  rcases @books_cases V cfg s a with ⟨_, h⟩ | ⟨_, _, _, _, h⟩ | ⟨key, id, outcome, rfl, h⟩ |
    ⟨_, _, _, h⟩ | ⟨_, h⟩ | ⟨_, _, h⟩
  case inr.inr.inl => exact .inr ⟨key, id, outcome, rfl, congrArg Books.outcomes h⟩
  all_goals exact .inl (congrArg Books.outcomes h)

theorem outcomes_env (s : State V) (e : Env V) : (e.apply s).outcomes = s.outcomes :=
  congrArg Books.outcomes (books_env s e).1

theorem nextInflight_env (s : State V) (e : Env V) : (e.apply s).nextInflight = s.nextInflight :=
  congrArg Books.nextInflight (books_env s e).1

/-- An entry of the map of loads in flight was there before, or the load has just been
tracked. -/
theorem inflight_apply_some {s : State V} {a : Act V} {key : CacheKey} {e : InflightEntry}
    (h : (a.apply cfg s).inflight.get key = some e) :
    s.inflight.get key = some e ∨ ∃ id opts, a = .trackInflight key id opts ∧
      e.id = s.nextInflight := by
  by_cases htrack : ∃ key' id opts, a = .trackInflight key' id opts
  · obtain ⟨key', id, opts, rfl⟩ := htrack
    rcases get_of_get_set h with hold | ⟨rfl, rfl⟩
    · exact .inl hold
    · exact .inr ⟨id, opts, rfl, rfl⟩
  · refine .inl (inflight_apply s ?_ key e h)
    rintro key' id opts rfl
    exact htrack ⟨key', id, opts, rfl⟩

namespace Run

variable {r : Run V}

/-! ### Ids -/

theorem nextInflight_step (s : State V) (x : Entry (Act V) (Env V)) :
    s.nextInflight ≤ (r.system.stepEntry s x).nextInflight := by
  cases x with
  | own i a =>
    show s.nextInflight ≤ (a.apply r.cfg s).nextInflight
    rcases @nextInflight_apply V r.cfg s a with h | ⟨-, h⟩ <;> omega
  | env e => exact (nextInflight_env s e).ge

theorem nextInflight_mono {m n : ℕ} (h : m ≤ n) : (r.at m).nextInflight ≤ (r.at n).nextInflight := by
  refine invariant_from (P := fun s : State V => (r.at m).nextInflight ≤ s.nextInflight) le_rfl
    ?_ n h
  intro k x _ _ hk
  exact hk.trans (nextInflight_step _ x)

/-- A load is tracked under the next id. -/
theorem id_of_track {m i : ℕ} {key : CacheKey} {id : ℕ} {opts : Options}
    (h : r.Does m i (.trackInflight key id opts)) : id = (r.at m).nextInflight := by
  obtain ⟨_, -, -, -, -, hid, -⟩ := rule h
  exact hid

/-- No two loads have the same id. -/
theorem track_unique {m n i j : ℕ} {key key' : CacheKey} {id : ℕ} {opts opts' : Options}
    (h : r.Does m i (.trackInflight key id opts)) (h' : r.Does n j (.trackInflight key' id opts')) :
    m = n := by
  have hlt : ∀ {m n i j : ℕ} {key key' : CacheKey} {opts opts' : Options},
      r.Does m i (.trackInflight key id opts) → r.Does n j (.trackInflight key' id opts') →
      ¬ m < n := by
    intro m n i j key key' opts opts' h h' hmn
    have hnext : (r.at (m + 1)).nextInflight = (r.at m).nextInflight + 1 := by
      rw [at_succ_own h]
      rfl
    have hmono : (r.at (m + 1)).nextInflight ≤ (r.at n).nextInflight := nextInflight_mono hmn
    have hm := id_of_track h
    have hn := id_of_track h'
    omega
  have hforth := hlt h h'
  have hback := hlt h' h
  omega

/-! ### Entries and outcomes -/

/-- An entry of the map belongs to a load that was tracked. -/
theorem inflight_since {m n : ℕ} {key : CacheKey} {e : InflightEntry} (hmn : m ≤ n)
    (hn : n ≤ r.trace.length) (h : (r.at n).inflight.get key = some e) :
    (r.at m).inflight.get key = some e ∨
      ∃ k i opts, m ≤ k ∧ k < n ∧ r.Does k i (.trackInflight key e.id opts) := by
  induction n, hmn using Nat.le_induction with
  | base => exact .inl h
  | succ n hmn ih =>
    have hget : r.trace[n]? = some r.trace[n] := List.getElem?_eq_getElem (by omega)
    have hold : (r.at n).inflight.get key = some e →
        (r.at m).inflight.get key = some e ∨
          ∃ k i opts, m ≤ k ∧ k < n + 1 ∧ r.Does k i (.trackInflight key e.id opts) := by
      intro hbefore
      refine (ih (by omega) hbefore).imp_right ?_
      rintro ⟨k, i, opts, hk, hlt, hdoes⟩
      exact ⟨k, i, opts, hk, by omega, hdoes⟩
    rw [at_succ hget] at h
    rcases hentry : r.trace[n] with ⟨i, a⟩ | x
    · rw [hentry] at h hget
      rcases inflight_apply_some h with hbefore | ⟨id, opts, rfl, hid⟩
      · exact hold hbefore
      · have hdoes : r.Does n i (.trackInflight key id opts) := hget
        obtain rfl : id = e.id := (id_of_track hdoes).trans hid.symm
        exact .inr ⟨n, i, opts, hmn, Nat.lt_succ_self n, hdoes⟩
    · rw [hentry] at h
      exact hold ((env_apply (r.at n) x).2.2.2.2 key e h)

/-- An outcome is one that a completion has left. -/
theorem outcome_of {n : ℕ} {id : ℕ} {outcome : Except Err (Option V)} (hn : n ≤ r.trace.length)
    (h : (r.at n).outcomes id = some outcome) :
    ∃ m i key, m < n ∧ r.Does m i (.finishInflight key id outcome) := by
  induction n with
  | zero => cases h
  | succ n ih =>
    have hget : r.trace[n]? = some r.trace[n] := List.getElem?_eq_getElem (by omega)
    have hold : (r.at n).outcomes id = some outcome →
        ∃ m i key, m < n + 1 ∧ r.Does m i (.finishInflight key id outcome) := by
      intro hbefore
      obtain ⟨m, i, key, hm, hdoes⟩ := ih (by omega) hbefore
      exact ⟨m, i, key, by omega, hdoes⟩
    rw [at_succ hget] at h
    rcases hentry : r.trace[n] with ⟨i, a⟩ | x
    · rw [hentry] at h hget
      have hstep : (a.apply r.cfg (r.at n)).outcomes id = some outcome := h
      rcases @outcomes_apply V r.cfg (r.at n) a with hsame | ⟨key, id', outcome', rfl, hnew⟩
      · rw [hsame] at hstep
        exact hold hstep
      · rw [hnew] at hstep
        by_cases hid : id = id'
        · subst hid
          rw [Function.update_self, Option.some.injEq] at hstep
          subst hstep
          exact ⟨n, i, key, Nat.lt_succ_self n, hget⟩
        · rw [Function.update_of_ne hid] at hstep
          exact hold hstep
    · rw [hentry] at h
      have hstep : (x.apply (r.at n)).outcomes id = some outcome := h
      rw [outcomes_env] at hstep
      exact hold hstep

end Run

end HybridCache
