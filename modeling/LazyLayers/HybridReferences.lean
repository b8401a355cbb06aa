/-
Guards are exact.

A revision object counts the guards that refer to it and leaves the map with the last of
them, so an object that a call still holds can only go with the cache itself.  A guard in
use that was tracked when it was taken is therefore refused for a reason: its key has been
mutated, the epoch has been bumped, its load has been aborted, or the cache answers nothing
any more.

* `Run.references_eq` — a revision object counts what the calls hold;
* `Run.registered_of_held` — what is held stays registered;
* `Run.guard_exact` — when a guard in use is current;
* `Run.explicit_write` — a `set` that has ended has written its value everywhere, or it was
  superseded.
-/
import LazyLayers.HybridEntries
import LazyLayers.HybridStages

open Js Pattern Async Runs

namespace HybridCache

variable {V : Type} {cfg : Config V}

/-! ### One act -/

theorem references_observeKey (cfg : Config V) {s : State V} (hok : s.revisions.Ok) (key : CacheKey)
    (mutate : Bool) (c : ℕ) : (((s.observeKey key mutate).revisions.cells c).references : ℤ) =
      (s.cells c).references + if (s.guardFor cfg key mutate).cell = c then 1 else 0 := by
  rcases hkey : s.keyRevisions.get key with _ | cell
  · have hcell : (s.guardFor cfg key mutate).cell = s.nextCell := by
      simp [State.guardFor, State.cellFor, hkey]
    rw [revisions_observeKey_none hkey, hcell]
    by_cases hc : c = s.nextCell
    · have hblank : s.cells s.nextCell = ⟨0, 0, 0, false⟩ := hok.blank s.nextCell le_rfl
      simp [hc, hblank]
    · simp [Function.update_of_ne hc, Ne.symm hc]
  · have hcell : (s.guardFor cfg key mutate).cell = cell := by
      simp [State.guardFor, State.cellFor, hkey]
    rw [revisions_observeKey_some hkey, hcell]
    by_cases hc : c = cell
    · simp [hc]
    · simp [Function.update_of_ne hc, Ne.symm hc]

theorem references_releaseKey {s : State V} {g : MutationGuard}
    (hpos : 1 ≤ (s.cells g.cell).references) (c : ℕ) :
    (((s.releaseKey g).revisions.cells c).references : ℤ) =
      (s.cells c).references + if g.cell = c then -1 else 0 := by
  rcases revisions_releaseKey s g with ⟨hlast, -, hr⟩ | ⟨-, hr⟩
  · rw [hr]
    by_cases hc : c = g.cell
    · have hone : (s.cells g.cell).references = 1 := by omega
      simp [hc, hone]
    · simp [Function.update_of_ne hc, Ne.symm hc]
  · rw [hr]
    by_cases hc : c = g.cell
    · subst hc
      simp only [Function.update_self, if_pos]
      omega
    · simp [Function.update_of_ne hc, Ne.symm hc]

theorem references_close (s : State V) (c : ℕ) :
    ((s.close cfg).revisions.cells c).references = (s.cells c).references := by
  have hr : (s.close cfg).revisions = _ := congrArg Core.revisions (@core_close V cfg s)
  rw [hr]
  dsimp only
  split <;> rfl

/-- The acts that touch no revision object take no reference to one. -/
theorem Act.delta_of_untouched {a : Act V} (h : a.touches = false) (c : ℕ) :
    a.delta (.revision c) = 0 := by
  cases a
  case follow => simp [Act.delta]
  case unfollow => simp [Act.delta]
  all_goals first | rfl | cases h

/-- The references change by what the act takes and gives back. -/
theorem references_apply (cfg : Config V) {s : State V} (hok : s.revisions.Ok) {a : Act V}
    (htakes : ∀ g, Run.Takes a g → ∃ mutate, g = s.guardFor cfg g.key mutate)
    (hgives : ∀ g, a = .releaseKey g → 1 ≤ (s.cells g.cell).references) (c : ℕ) :
    (((a.apply cfg s).revisions.cells c).references : ℤ) =
      (s.cells c).references + a.delta (.revision c) := by
  rcases htouch : a.touches with _ | _
  · rw [revisions_apply s htouch, Act.delta_of_untouched htouch]
    exact (add_zero _).symm
  have hcell : ∀ {g : MutationGuard} {mutate : Bool}, g = s.guardFor cfg g.key mutate →
      ∀ mutate', (s.guardFor cfg g.key mutate').cell = g.cell := by
    intro g mutate hg mutate'
    exact (congrArg MutationGuard.cell hg).symm
  cases a
  case observeKey o g mutate =>
    obtain ⟨mutate', hg⟩ := htakes g (.inl ⟨o, mutate, rfl⟩)
    refine (references_observeKey cfg hok g.key mutate c).trans ?_
    rw [hcell hg mutate]
    simp [Act.delta]
  case invalidateKey g generation =>
    obtain ⟨mutate', hg⟩ := htakes g (.inr ⟨generation, rfl⟩)
    rw [Act.apply, revisions_invalidateKey]
    refine (references_observeKey cfg hok g.key true c).trans ?_
    rw [hcell hg true]
    simp [Act.delta]
  case releaseKey g =>
    refine (references_releaseKey (hgives g rfl) c).trans ?_
    simp [Act.delta]
  case close =>
    rw [Act.apply, references_close]
    exact (add_zero _).symm
  all_goals cases htouch

/-- The places among the followers change by what the act takes and gives back. -/
theorem followers_apply (cfg : Config V) {s : State V} {a : Act V}
    (hgives : a = .unfollow → 1 ≤ s.activeFollowers) :
    ((a.apply cfg s).activeFollowers : ℤ) = s.activeFollowers + a.delta .follower := by
  have hbooks : (a.apply cfg s).activeFollowers = (a.apply cfg s).books.activeFollowers := rfl
  rw [hbooks]
  rcases @books_cases V cfg s a with ⟨_, h⟩ | ⟨_, _, _, rfl, h⟩ | ⟨_, _, _, rfl, h⟩ |
    ⟨_, _, rfl, h⟩ | ⟨rfl, h⟩ | ⟨_, rfl, h⟩
  · -- acts that leave the number alone are neither of the two
    have hsame : (a.apply cfg s).activeFollowers = s.activeFollowers :=
      congrArg Books.activeFollowers h
    have hzero : a.delta .follower = 0 := by
      cases a
      case follow key id =>
        have hmore : s.activeFollowers + 1 = s.activeFollowers := hsame
        omega
      case unfollow =>
        have hless : s.activeFollowers - 1 = s.activeFollowers := hsame
        have hpos := hgives rfl
        omega
      all_goals simp [Act.delta]
    rw [h, hzero, add_zero]
    rfl
  · rw [h]
    simp [Act.delta, State.books]
  · rw [h]
    simp [Act.delta, State.books]
  · rw [h]
    simp [Act.delta]
  · have hpos := hgives rfl
    rw [h]
    simp only [Act.delta, if_pos]
    omega
  · rw [h]
    simp [Act.delta, State.books]

/-- What decides, besides its own object, whether a guard is current. -/
def Core.vital (k : Core) : Bool × Bool × ℕ :=
  (k.closed, k.generationTrackingSaturated, k.mutationEpoch)

/-- Only what counts as a bump closes the cache, saturates the generations or raises the
epoch. -/
theorem vital_of_not_bumps {s : State V} {a : Act V} (h : a.bumps cfg s = false) :
    (a.apply cfg s).core.vital = s.core.vital := by
  rcases hgov : a.governs with _ | _
  · rw [core_apply s hgov]
  -- the generations have not become saturated just now
  have hsat : ∀ {k : Core}, k.Saturates (a.apply cfg s).core → k.vital = s.core.vital →
      (!s.generationTrackingSaturated && (a.apply cfg s).generationTrackingSaturated) = false →
      (a.apply cfg s).core.vital = s.core.vital := by
    rintro k (hk | ⟨hnot, hk⟩) hkeep hquiet
    · rw [hk]
      exact hkeep
    · have hnow : (a.apply cfg s).generationTrackingSaturated = true :=
        congrArg Core.generationTrackingSaturated hk
      have hsame : k.generationTrackingSaturated = s.generationTrackingSaturated :=
        congrArg (fun p : Bool × Bool × ℕ => p.2.1) hkeep
      rw [hnow, ← hsame, hnot] at hquiet
      cases hquiet
  cases a
  case observeKey o g mutate =>
    have hcore : ((Act.observeKey o g mutate).apply cfg s).core = _ := core_observeKey s g.key mutate
    rw [hcore]
    rfl
  case releaseKey g =>
    have hcore : ((Act.releaseKey g).apply cfg s).core = _ := core_releaseKey s g
    rw [hcore]
    rfl
  case invalidateKey g generation =>
    have hkeep : (s.observeKey g.key true).core.vital = s.core.vital := by
      rw [core_observeKey s g.key true]
      rfl
    exact hsat (core_invalidateKey s g generation) hkeep h
  case advanceGeneration key generation =>
    exact hsat (core_advanceGenerationAfterRemoteSet s key generation) rfl h
  case saturate => exact hsat (core_saturateGenerationTracking s) rfl h
  case busStatus status =>
    have hkeep : status.revokes = false := h
    rw [core_busStatus, hkeep]
    rfl
  case trust revision => rfl
  all_goals first | cases h | cases hgov

namespace Run

variable {r : Run V}

/-! ### References along a run -/

theorem acts_succ_own {n i : ℕ} {a : Act V} (h : r.Does n i a) (j : ℕ) :
    r.acts j (n + 1) = if i = j then r.acts j n ++ [a] else r.acts j n := by
  have htake : r.trace.take (n + 1) = r.trace.take n ++ [.own i a] := by
    rw [List.take_add_one, h, Option.toList_some]
  rw [acts, htake, own_append]
  by_cases hij : i = j
  · simp [hij, own, Entry.act?, acts]
  · simp [hij, own, Entry.act?, acts]

theorem acts_succ_env {n : ℕ} {e : Env V} (h : r.trace[n]? = some (.env e)) (j : ℕ) :
    r.acts j (n + 1) = r.acts j n := by
  have htake : r.trace.take (n + 1) = r.trace.take n ++ [.env e] := by
    rw [List.take_add_one, h, Option.toList_some]
  rw [acts, htake, own_append]
  simp [own, Entry.act?, acts, List.filterMap_cons]

/-- A call never gives back what it has not taken. -/
theorem balance_prefix_nonneg (i n : ℕ) (hn : n ≤ r.trace.length) (x : Resource) :
    ∀ l, l <+: r.acts i n → 0 ≤ balance l x := by
  induction n with
  | zero =>
    intro l hl
    have hnil : l = [] := List.prefix_nil.mp hl
    simp [hnil, balance]
  | succ n ih =>
    have hget : r.trace[n]? = some r.trace[n] := List.getElem?_eq_getElem (by omega)
    rcases hentry : r.trace[n] with ⟨j, a⟩ | e
    · rw [hentry] at hget
      have hdoes : r.Does n j a := hget
      rw [acts_succ_own hdoes]
      by_cases hij : j = i
      · subst hij
        rw [if_pos rfl]
        intro l hl
        rcases List.prefix_concat_iff.mp hl with rfl | hl
        · -- what is given back has been taken before, and the acts between are in balance
          have hwhole : 0 ≤ balance (r.acts j n) x := ih (by omega) _ (List.prefix_refl _)
          rw [balance_concat]
          obtain ⟨t, -, -, hrule⟩ := rule hdoes
          have hback : ∀ l₁ b, Extends (l₁ ++ [b]) (r.acts j n) → b.delta x = 1 →
              1 ≤ balance (r.acts j n) x := by
            intro l₁ b hext hb
            have hle : l₁ <+: r.acts j n := by
              obtain ⟨u, hu, -⟩ := hext
              exact ⟨[b] ++ u, by rw [hu, List.append_assoc]⟩
            have hpos := ih (by omega) l₁ hle
            rw [hext.balance_eq, balance_concat, hb]
            omega
          cases a
          case releaseKey g =>
            obtain ⟨l₁, b, hext, hb⟩ := hrule
            by_cases hx : .revision g.cell = x
            · subst hx
              have hone := hback l₁ b hext hb
              simp only [Act.delta, if_pos]
              omega
            · simpa [Act.delta, hx] using hwhole
          case unfollow =>
            obtain ⟨l₁, key, id, outcome, hl₁⟩ := hrule
            by_cases hx : .follower = x
            · subst hx
              have hpos := ih (by omega) l₁ (by rw [hl₁]; exact List.prefix_append _ _)
              rw [hl₁, balance_append]
              simp [balance, Act.delta] at hpos ⊢
              exact hpos
            · simpa [Act.delta, hx] using hwhole
          all_goals
            refine add_nonneg hwhole ?_
            simp only [Act.delta]
            first | exact le_rfl | (split <;> decide)
        · exact ih (by omega) l hl
      · rw [if_neg hij]
        exact ih (by omega)
    · rw [hentry] at hget
      rw [acts_succ_env hget]
      exact ih (by omega)

theorem balance_nonneg {i n : ℕ} (hn : n ≤ r.trace.length) (x : Resource) :
    0 ≤ balance (r.acts i n) x :=
  balance_prefix_nonneg i n hn x _ (List.prefix_refl _)

/-- What the calls hold at a position is theirs together. -/
theorem balance_le_total {i n : ℕ} (hn : n ≤ r.trace.length) (x : Resource) :
    balance (r.acts i n) x ≤ total (Act.delta x) (r.trace.take n) := by
  have hbound : ∀ j a, Entry.own j a ∈ r.trace.take n → j < r.tasks.length := by
    intro j a hmem
    obtain ⟨m, hm⟩ := List.getElem?_of_mem (List.mem_of_mem_take hmem)
    obtain ⟨t, ht, -⟩ := rule hm
    exact (List.getElem?_eq_some_iff.mp ht).1
  rw [total_eq_sum _ _ hbound]
  by_cases hi : i < r.tasks.length
  · exact Finset.single_le_sum (fun j _ => balance_nonneg (i := j) hn x) (Finset.mem_range.mpr hi)
  · have hnil : r.acts i n = [] := own_eq_nil fun a hmem => hi (hbound i a hmem)
    rw [hnil]
    exact Finset.sum_nonneg fun j _ => balance_nonneg (i := j) hn x

/-- A call holds what it gives back. -/
theorem held_of_release {n i : ℕ} {g : MutationGuard} (h : r.Does n i (.releaseKey g)) :
    1 ≤ balance (r.acts i n) (.revision g.cell) := by
  obtain ⟨t, -, -, l₁, b, hext, hb⟩ := rule h
  have hbefore : 0 ≤ balance l₁ (.revision g.cell) := by
    obtain ⟨u, hu, -⟩ := hext
    exact balance_prefix_nonneg i n (lt_length h).le _ l₁ ⟨[b] ++ u, by rw [hu, List.append_assoc]⟩
  rw [hext.balance_eq, balance_concat, hb]
  omega

/-- **A revision object counts the guards that are held on it.** -/
theorem references_eq (n : ℕ) (hn : n ≤ r.trace.length) : ∀ c,
    (((r.at n).cells c).references : ℤ) = total (Act.delta (.revision c)) (r.trace.take n) := by
  induction n with
  | zero => exact fun c => rfl
  | succ n ih =>
    have ih := ih (by omega)
    intro c
    have hget : r.trace[n]? = some r.trace[n] := List.getElem?_eq_getElem (by omega)
    have htake : r.trace.take (n + 1) = r.trace.take n ++ [r.trace[n]] := by
      rw [List.take_add_one, hget, Option.toList_some]
    rw [htake, total_concat, ← ih c, at_succ hget]
    rcases hentry : r.trace[n] with ⟨i, a⟩ | e
    · rw [hentry] at hget
      have hdoes : r.Does n i a := hget
      refine (references_apply r.cfg (ok_and_live n (by omega)).1 ?_ ?_ c).trans ?_
      · intro g htakes
        obtain ⟨mutate, hg, -⟩ := guard_of_takes hdoes htakes
        exact ⟨mutate, hg⟩
      · rintro g rfl
        have hheld := (held_of_release hdoes).trans (balance_le_total (by omega) _)
        rw [← ih g.cell] at hheld
        exact_mod_cast hheld
      · simp [total]
    · have hsame : (r.system.stepEntry (r.at n) (.env e)).cells = (r.at n).cells :=
        congrArg Revisions.cells (revisions_env (r.at n) e)
      rw [hsame]
      simp [total]

/-- A call that leaves the followers is one of them. -/
theorem held_of_unfollow {n i : ℕ} (h : r.Does n i .unfollow) :
    1 ≤ balance (r.acts i n) .follower := by
  obtain ⟨_, -, -, l₁, key, id, outcome, hl₁⟩ := rule h
  have hbefore : 0 ≤ balance l₁ .follower :=
    balance_prefix_nonneg i n (lt_length h).le _ l₁ (by rw [hl₁]; exact List.prefix_append _ _)
  have htwo : balance [Act.follow key id, .joined key id outcome] (V := V) .follower = 1 := rfl
  rw [hl₁, balance_append, htwo]
  omega

/-- **The number of followers** is that of the calls that wait for a load of another. -/
theorem followers_eq (n : ℕ) (hn : n ≤ r.trace.length) :
    ((r.at n).activeFollowers : ℤ) = total (Act.delta .follower) (r.trace.take n) := by
  induction n with
  | zero => rfl
  | succ n ih =>
    have ih := ih (by omega)
    have hget : r.trace[n]? = some r.trace[n] := List.getElem?_eq_getElem (by omega)
    have htake : r.trace.take (n + 1) = r.trace.take n ++ [r.trace[n]] := by
      rw [List.take_add_one, hget, Option.toList_some]
    rw [htake, total_concat, ← ih, at_succ hget]
    rcases hentry : r.trace[n] with ⟨i, a⟩ | e
    · rw [hentry] at hget
      have hdoes : r.Does n i a := hget
      refine (followers_apply r.cfg ?_).trans ?_
      · rintro rfl
        have hheld := (held_of_unfollow hdoes).trans (balance_le_total (by omega) _)
        rw [← ih] at hheld
        exact_mod_cast hheld
      · simp [total]
    · have hsame : (r.system.stepEntry (r.at n) (.env e)).activeFollowers =
          (r.at n).activeFollowers := congrArg Books.activeFollowers (books_env (r.at n) e).1
      rw [hsame]
      simp [total]

/-- There are never more followers than the cache admits. -/
theorem followers_le (n : ℕ) : (r.at n).activeFollowers ≤ r.cfg.options.maxWaiters := by
  induction n with
  | zero => exact Nat.zero_le _
  | succ n ih =>
    rcases hget : r.trace[n]? with _ | ⟨i, a⟩ | e
    · have hsame : r.at (n + 1) = r.at n := stateAt_succ_of_none hget
      rw [hsame]
      exact ih
    · have hdoes : r.Does n i a := hget
      obtain ⟨_, -, -, hrule⟩ := rule hdoes
      rw [at_succ_own hdoes]
      have hbooks : (a.apply r.cfg (r.at n)).activeFollowers =
          (a.apply r.cfg (r.at n)).books.activeFollowers := rfl
      rw [hbooks]
      rcases @books_cases V r.cfg (r.at n) a with ⟨_, h⟩ | ⟨_, _, _, rfl, h⟩ | ⟨_, _, _, rfl, h⟩ |
        ⟨_, _, rfl, h⟩ | ⟨rfl, h⟩ | ⟨_, rfl, h⟩
      case inr.inr.inr.inl =>
        rw [h]
        exact hrule.1
      case inr.inr.inr.inr.inl =>
        rw [h]
        exact (Nat.sub_le _ _).trans ih
      all_goals
        rw [h]
        exact ih
    · have hsame : (r.at (n + 1)).activeFollowers = (r.at n).activeFollowers := by
        rw [at_succ hget]
        exact congrArg Books.activeFollowers (books_env (r.at n) e).1
      rw [hsame]
      exact ih

/-- Every call that was made has ended. -/
def Quiescent (r : Run V) : Prop :=
  ∀ (i : ℕ) (t : CacheTask V), r.tasks[i]? = some t → ∃ res, t.rest = Prog.ofExcept res

/-- When all calls have ended, what they have taken adds up to nothing. -/
theorem total_of_quiescent (h : r.Quiescent) (x : Resource) : total (Act.delta x) r.trace = 0 := by
  have hbound : ∀ j a, Entry.own j a ∈ r.trace → j < r.tasks.length := by
    intro j a hmem
    obtain ⟨m, hm⟩ := List.getElem?_of_mem hmem
    obtain ⟨t, ht, -⟩ := rule hm
    exact (List.getElem?_eq_some_iff.mp ht).1
  rw [total_eq_sum _ _ hbound]
  refine Finset.sum_eq_zero fun i hi => ?_
  have hlt : i < r.tasks.length := Finset.mem_range.mp hi
  have ht : r.tasks[i]? = some r.tasks[i] := List.getElem?_eq_getElem hlt
  obtain ⟨res, hres⟩ := h i _ ht
  have hzero := (finished ht hres).1 x
  rw [acts_length] at hzero
  exact hzero

/-- **Nothing leaks.**  At every moment a revision object counts exactly the guards that
calls hold on it, and the followers are the calls that wait, never more than are admitted;
when all calls have ended, on whichever way out, no object is referred to and nobody waits. -/
theorem no_leak (r : Run V) :
    (∀ n, n ≤ r.trace.length →
      (∀ c, (((r.at n).cells c).references : ℤ) =
        ∑ i ∈ Finset.range r.tasks.length, balance (r.acts i n) (.revision c)) ∧
      ((r.at n).activeFollowers : ℤ) =
        ∑ i ∈ Finset.range r.tasks.length, balance (r.acts i n) .follower ∧
      (r.at n).activeFollowers ≤ r.cfg.options.maxWaiters) ∧
    (r.Quiescent → (∀ c, ((r.at r.trace.length).cells c).references = 0) ∧
      (r.at r.trace.length).activeFollowers = 0) := by
  have hbound : ∀ {n : ℕ} j a, Entry.own j a ∈ r.trace.take n → j < r.tasks.length := by
    intro n j a hmem
    obtain ⟨m, hm⟩ := List.getElem?_of_mem (List.mem_of_mem_take hmem)
    obtain ⟨t, ht, -⟩ := rule hm
    exact (List.getElem?_eq_some_iff.mp ht).1
  refine ⟨fun n hn => ⟨fun c => ?_, ?_, followers_le n⟩, fun hquiet => ⟨fun c => ?_, ?_⟩⟩
  · rw [references_eq n hn c, total_eq_sum _ _ hbound]
    rfl
  · rw [followers_eq n hn, total_eq_sum _ _ hbound]
    rfl
  · have hall := references_eq (r := r) r.trace.length le_rfl c
    rw [List.take_length, total_of_quiescent hquiet] at hall
    exact_mod_cast hall
  · have hall := followers_eq (r := r) r.trace.length le_rfl
    rw [List.take_length, total_of_quiescent hquiet] at hall
    exact_mod_cast hall

theorem references_of_held {n i c : ℕ} (hn : n ≤ r.trace.length)
    (hheld : 0 < balance (r.acts i n) (.revision c)) : 0 < ((r.at n).cells c).references := by
  have hle := hheld.trans_le (balance_le_total hn _)
  rw [← references_eq n hn c] at hle
  exact_mod_cast hle

/-! ### What is held stays registered -/

/-- The object is registered, or nobody refers to it. -/
def Kept (s : State V) (c : ℕ) : Prop :=
  (s.cells c).registered = true ∨ (s.cells c).references = 0

theorem kept_observeKey {s : State V} (hok : s.revisions.Ok) {c : ℕ} (hlt : c < s.nextCell)
    (h : Kept s c) (key : CacheKey) (mutate : Bool) :
    ((s.observeKey key mutate).revisions.cells c).registered = true ∨
      ((s.observeKey key mutate).revisions.cells c).references = 0 := by
  rcases hkey : s.keyRevisions.get key with _ | cell
  · rw [revisions_observeKey_none hkey]
    have hne : c ≠ s.nextCell := Nat.ne_of_lt hlt
    simpa [Kept, Function.update_of_ne hne] using h
  · rw [revisions_observeKey_some hkey]
    by_cases hc : c = cell
    · subst hc
      exact .inl (by simpa using hok.registered key c hkey)
    · simpa [Kept, Function.update_of_ne hc] using h

theorem kept_releaseKey {s : State V} {c : ℕ} (h : Kept s c) (g : MutationGuard) :
    ((s.releaseKey g).revisions.cells c).registered = true ∨
      ((s.releaseKey g).revisions.cells c).references = 0 := by
  rcases revisions_releaseKey s g with ⟨-, -, hr⟩ | ⟨-, hr⟩
  · rw [hr]
    by_cases hc : c = g.cell
    · exact .inr (by simp [hc])
    · simpa [Kept, Function.update_of_ne hc] using h
  · rw [hr]
    by_cases hc : c = g.cell
    · subst hc
      exact h.imp (fun hreg => by simpa using hreg) fun hnone => by simp [hnone]
    · simpa [Kept, Function.update_of_ne hc] using h

theorem kept_apply {s : State V} (hok : s.revisions.Ok) {c : ℕ} (hlt : c < s.nextCell)
    (h : Kept s c) {a : Act V} (hopen : (a.apply cfg s).closed = false) :
    Kept (a.apply cfg s) c := by
  rcases htouch : a.touches with _ | _
  · have hcells : (a.apply cfg s).cells = s.cells :=
      congrArg Revisions.cells (revisions_apply s htouch)
    rw [Kept, hcells]
    exact h
  cases a
  case observeKey o g mutate => exact kept_observeKey hok hlt h g.key mutate
  case invalidateKey g generation =>
    have hcells : (s.invalidateKey g generation).cells = (s.observeKey g.key true).cells :=
      congrArg Revisions.cells (revisions_invalidateKey s g generation)
    rw [Kept, Act.apply, hcells]
    exact kept_observeKey hok hlt h g.key true
  case releaseKey g => exact kept_releaseKey h g
  case close =>
    have hclosed : ((Act.close (V := V)).apply cfg s).closed = true :=
      congrArg Core.closed (core_close s)
    rw [hclosed] at hopen
    cases hopen
  all_goals cases htouch

/-- **What is held stays registered**, as long as the cache is open. -/
theorem registered_of_held {m n i j : ℕ} {take : Act V} {g : MutationGuard}
    (htake : r.Does m j take) (htakes : Takes take g) (hmn : m < n) (hn : n ≤ r.trace.length)
    (hopen : (r.at n).closed = false)
    (htracked : ((r.at (m + 1)).cells g.cell).registered = true)
    (hheld : 0 < balance (r.acts i n) (.revision g.cell)) :
    ((r.at n).cells g.cell).registered = true := by
  have hkept : ∀ k, m + 1 ≤ k → k ≤ n → Kept (r.at k) g.cell := by
    intro k hk
    induction k, hk using Nat.le_induction with
    | base => exact fun _ => .inl htracked
    | succ k hk ih =>
      intro hkn
      have ih := ih (by omega)
      have hstill : (r.at (k + 1)).closed = false := by
        by_contra hclosed
        rw [Bool.not_eq_false] at hclosed
        rw [closed_mono hkn hclosed] at hopen
        cases hopen
      have hget : r.trace[k]? = some r.trace[k] := List.getElem?_eq_getElem (by omega)
      rcases hentry : r.trace[k] with ⟨l, a⟩ | e
      · rw [hentry] at hget
        have hdoes : r.Does k l a := hget
        rw [at_succ_own hdoes] at hstill ⊢
        exact kept_apply (ok_and_live k (by omega)).1 (live (by omega) hk htake htakes).1 ih hstill
      · rw [hentry] at hget
        have hsame : (r.at (k + 1)).cells = (r.at k).cells := by
          rw [at_succ hget]
          exact congrArg Revisions.cells (revisions_env (r.at k) e)
        rw [Kept, hsame]
        exact ih
  have hreferred := references_of_held hn hheld
  exact (hkept n hmn le_rfl).resolve_right (by omega)

/-! ### A guard in use is current, or it has been superseded -/

/-- Where the key of a live guard is not mutated, the value of its object stays. -/
theorem value_observeKey {s : State V} (hok : s.revisions.Ok) {g : MutationGuard}
    (hlive : Live g s.revisions) {key : CacheKey} {mutate : Bool}
    (hother : key = g.key → mutate = false) :
    ((s.observeKey key mutate).revisions.cells g.cell).value = (s.cells g.cell).value := by
  rcases hkey : s.keyRevisions.get key with _ | cell
  · rw [revisions_observeKey_none hkey]
    have hne : g.cell ≠ s.nextCell := Nat.ne_of_lt hlive.1
    simp [Function.update_of_ne hne]
  · rw [revisions_observeKey_some hkey]
    by_cases hc : g.cell = cell
    · -- the object is registered, and then for no other key
      have hreg : (s.revisions.cells g.cell).registered = true :=
        hok.registered key g.cell (by rw [hc]; exact hkey)
      have hsame : key = g.key := hok.injective key g.key g.cell (by rw [hc]; exact hkey)
        (hlive.2 hreg)
      simp [hc, hother hsame]
    · simp [Function.update_of_ne hc]

theorem value_apply {s : State V} (hok : s.revisions.Ok) {g : MutationGuard}
    (hlive : Live g s.revisions) {a : Act V} (hother : a.mutates g.key = false) :
    ((a.apply cfg s).cells g.cell).value = (s.cells g.cell).value := by
  rcases htouch : a.touches with _ | _
  · have hcells : (a.apply cfg s).cells = s.cells :=
      congrArg Revisions.cells (revisions_apply s htouch)
    rw [hcells]
  cases a
  case observeKey o g' mutate =>
    refine value_observeKey hok hlive fun hkey => ?_
    simpa [Act.mutates, hkey] using hother
  case invalidateKey g' generation =>
    have hcells : (s.invalidateKey g' generation).cells = (s.observeKey g'.key true).cells :=
      congrArg Revisions.cells (revisions_invalidateKey s g' generation)
    have hne : g'.key ≠ g.key := by simpa [Act.mutates] using hother
    rw [Act.apply, hcells]
    exact value_observeKey hok hlive fun hkey => absurd hkey hne
  case releaseKey g' =>
    have hvalue : ((s.releaseKey g').revisions.cells g.cell).value = (s.cells g.cell).value := by
      rcases revisions_releaseKey s g' with ⟨-, -, hr⟩ | ⟨-, hr⟩
      all_goals
        rw [hr]
        by_cases hc : g.cell = g'.cell
        · simp [hc]
        · simp [Function.update_of_ne hc]
    exact hvalue
  case close =>
    have hr : (s.close cfg).revisions = _ := congrArg Core.revisions (@core_close V cfg s)
    have hvalue : ((s.close cfg).revisions.cells g.cell).value = (s.cells g.cell).value := by
      rw [hr]
      dsimp only
      split <;> rfl
    exact hvalue
  all_goals cases htouch

/-- While nothing disturbs a guard, everything that makes it current stays. -/
theorem undisturbed {m n j : ℕ} {take : Act V} {g : MutationGuard} (htake : r.Does m j take)
    (htakes : Takes take g) (hmn : m < n) (hn : n ≤ r.trace.length)
    (hquiet : ¬ r.Disturbed g m n) : ((r.at n).cells g.cell).value = g.revision ∧
      (r.at n).core.vital = (r.at (m + 1)).core.vital := by
  induction n, (show m + 1 ≤ n from hmn) using Nat.le_induction with
  | base => exact ⟨value_of_takes htake htakes, rfl⟩
  | succ k hk ih =>
    have hbefore : ¬ r.Disturbed g m k := by
      rintro ⟨l, i, a, hml, hlk, hdoes⟩
      exact hquiet ⟨l, i, a, hml, by omega, hdoes⟩
    obtain ⟨hvalue, hvital⟩ := ih hk (by omega) hbefore
    have hget : r.trace[k]? = some r.trace[k] := List.getElem?_eq_getElem (by omega)
    rcases hentry : r.trace[k] with ⟨i, a⟩ | e
    · rw [hentry] at hget
      have hdoes : r.Does k i a := hget
      have hnot : a.mutates g.key = false ∧ a.bumps r.cfg (r.at k) = false := by
        rw [← Bool.not_eq_true, ← Bool.not_eq_true, ← not_or]
        exact fun h => hquiet ⟨k, i, a, hk, Nat.lt_succ_self k, hdoes, h⟩
      rw [at_succ_own hdoes]
      exact ⟨(value_apply (ok_and_live k (by omega)).1 (live (by omega) hk htake htakes)
        hnot.1).trans hvalue, (vital_of_not_bumps hnot.2).trans hvital⟩
    · rw [hentry] at hget
      have hcore : (r.at (k + 1)).core = (r.at k).core := by
        rw [at_succ hget]
        exact core_env (r.at k) e
      have hcells : (r.at (k + 1)).cells = (r.at k).cells :=
        congrArg (fun c : Core => c.revisions.cells) hcore
      rw [hcells, hcore]
      exact ⟨hvalue, hvital⟩

theorem isCurrent_iff (s : State V) {g g' : MutationGuard} (hbase : g'.base = g.base) :
    s.isCurrent r.cfg g' = true ↔ (s.cells g.cell).registered = true ∧
      s.signalAborted g' = false ∧ (s.cells g.cell).value = g.revision ∧ s.closed = false ∧
      s.versionedCacheSafe r.cfg = true ∧ s.mutationEpoch = g.epoch := by
  have hcell : g'.base.cell = g.base.cell := congrArg MutationGuard.cell hbase
  have hepoch : g'.base.epoch = g.base.epoch := congrArg MutationGuard.epoch hbase
  have hrevision : g'.base.revision = g.base.revision := congrArg MutationGuard.revision hbase
  change g'.cell = g.cell at hcell
  change g'.epoch = g.epoch at hepoch
  change g'.revision = g.revision at hrevision
  simp only [State.isCurrent, Bool.and_eq_true, Bool.not_eq_true', decide_eq_true_eq, hcell,
    hepoch, hrevision]
  constructor
  · rintro ⟨⟨⟨⟨⟨hopen, hreg⟩, hsafe⟩, habort⟩, hep⟩, hvalue⟩
    exact ⟨hreg, habort, hvalue.symm, hopen, hsafe, hep.symm⟩
  · rintro ⟨hreg, habort, hvalue, hopen, hsafe, hep⟩
    exact ⟨⟨⟨⟨⟨hopen, hreg⟩, hsafe⟩, habort⟩, hep.symm⟩, hvalue.symm⟩

/-- A guard in use stays current as long as nothing disturbs it. -/
theorem current_of_undisturbed {m n i j : ℕ} {o : Origin} {g g' : MutationGuard} {mutate : Bool}
    (htake : r.Does m j (.observeKey o g mutate)) (hmn : m < n) (hn : n ≤ r.trace.length)
    (hbase : g'.base = g) (hheld : 0 < balance (r.acts i n) (.revision g.cell))
    (hcur : (r.at (m + 1)).isCurrent r.cfg g = true) (hquiet : ¬ r.Disturbed g m n)
    (habort : (r.at n).signalAborted g' = false) : (r.at n).isCurrent r.cfg g' = true := by
  have htakes : Takes (Act.observeKey (V := V) o g mutate) g := .inl ⟨o, mutate, rfl⟩
  have hself : g.base = g := by rw [← hbase]; rfl
  rw [isCurrent_iff (r.at (m + 1)) rfl] at hcur
  rw [isCurrent_iff (r.at n) (hbase.trans hself.symm)]
  obtain ⟨hreg, -, -, hopen, hsafe, hepoch⟩ := hcur
  obtain ⟨hvalue, hvital⟩ := undisturbed htake htakes hmn hn hquiet
  simp only [Core.vital, Prod.mk.injEq] at hvital
  have hstill : (r.at n).closed = false := hvital.1.trans hopen
  refine ⟨registered_of_held htake htakes hmn hn hstill hreg hheld, habort, hvalue, hstill, ?_,
    hvital.2.2.trans hepoch⟩
  rw [State.versionedCacheSafe, show (r.at n).generationTrackingSaturated = _ from hvital.2.1]
  exact hsafe

/-- **Guards are exact.**  A guard in use is current if and only if it was current when it
was taken, nothing has mutated its key or bumped the epoch since, and the load that it
belongs to has not been aborted. -/
theorem guard_exact {m n i j : ℕ} {o : Origin} {g g' : MutationGuard} {mutate : Bool}
    (htake : r.Does m j (.observeKey o g mutate)) (hmn : m < n) (hn : n ≤ r.trace.length)
    (hbase : g'.base = g) (hheld : 0 < balance (r.acts i n) (.revision g.cell)) :
    (r.at n).isCurrent r.cfg g' = true ↔ (r.at (m + 1)).isCurrent r.cfg g = true ∧
      ¬ r.Disturbed g m n ∧ (r.at n).signalAborted g' = false := by
  have htakes : Takes (Act.observeKey (V := V) o g mutate) g := .inl ⟨o, mutate, rfl⟩
  have hself : g.base = g := by rw [← hbase]; rfl
  have hunsigned : (r.at (m + 1)).signalAborted g = false := by
    rw [← hself]
    rfl
  have hsince : (r.at (m + 1)).core.Ages (r.at n).core := ages hmn
  refine ⟨fun hcur => ?_, fun ⟨hcur, hquiet, habort⟩ =>
    current_of_undisturbed htake hmn hn hbase hheld hcur hquiet habort⟩
  rw [isCurrent_iff (r.at n) (hbase.trans hself.symm)] at hcur
  rw [isCurrent_iff (r.at (m + 1)) rfl]
  have hquiet : ¬ r.Disturbed g m n := by
    rintro ⟨k, l, a, hmk, hkn, hdoes, hdisturbs⟩
    have hobsolete := obsolete hn htake htakes hdoes hmk hkn hdisturbs (hbase.trans hself.symm)
    rw [← Bool.not_eq_true, isCurrent_iff (r.at n) (hbase.trans hself.symm)] at hobsolete
    exact hobsolete hcur
  obtain ⟨-, hvital⟩ := undisturbed htake htakes hmn hn hquiet
  obtain ⟨hreg, habort, -, hopen, hsafe, hepoch⟩ := hcur
  have hlive := live (by omega) (Nat.lt_succ_self m) htake htakes
  simp only [Core.vital, Prod.mk.injEq] at hvital
  refine ⟨⟨hsince.registered g.cell hlive.1 hreg, hunsigned, value_of_takes htake htakes,
    hvital.1.symm.trans hopen, ?_, hvital.2.2.symm.trans hepoch⟩, hquiet, habort⟩
  rw [State.versionedCacheSafe, show (r.at (m + 1)).generationTrackingSaturated = _ from
    hvital.2.1.symm]
  exact hsafe

/-- Two writes of a key, one after the other, neither of which has returned. -/
def twoWrites : Run ℕ :=
  demo quietConfig [] [.start (.set theKey 1 {}), .start (.set theKey 2 {})]

/-- The guard of the first. -/
def firstGuard : MutationGuard := (twoWrites.at 0).guardFor quietConfig theKey true

theorem guard_exact_twoWrites :
    (twoWrites.at 4).isCurrent quietConfig firstGuard = true ↔
      (twoWrites.at 1).isCurrent quietConfig firstGuard = true ∧
        ¬ twoWrites.Disturbed firstGuard 0 4 ∧ (twoWrites.at 4).signalAborted firstGuard = false :=
  guard_exact (m := 0) (n := 4) (i := 0) (j := 0) (o := .write) rfl (by decide)
    (by decide) rfl (by decide)

/-! ### Explicit writes -/

/-- **A write is carried out or superseded.**  A `set` that has returned has put its value
into the L1, offered it to the stale values and sent it to the shared tier, if that was to
be reached; or it gave up where its guard was no longer current, because its revision could
not be tracked or the generations were lost when it began, or because its key was mutated
or the epoch bumped since. -/
theorem explicit_write {i : ℕ} {t : CacheTask V} {key : CacheKey} {v : V} {opts : Options}
    (ht : r.tasks[i]? = some t) (hcall : t.call = .set key v opts)
    (hdone : t.rest = Prog.ofExcept (.ok .done)) :
    ∃ g, g.key = key ∧ r.Does t.started i (.observeKey .write g true) ∧
      (let l := r.acts i r.trace.length
       Stored r.cfg .write g v opts (encodeL1 r.cfg v opts) l ∧
        (r.cfg.l2.isSome = true → Marked l ∨ Written r.cfg g v opts l) ∧
        Remembered r.cfg .write g v opts ((encodeL1 r.cfg v opts).or (encodeL2 r.cfg v opts)) l ∨
      ∃ n, t.started < n ∧ (r.Does n i (.skip .write g) ∨ r.Does n i (.discardObsoleteL1 .write g)) ∧
        ((r.at (t.started + 1)).isCurrent r.cfg g = false ∨ r.Disturbed g t.started n)) := by
  obtain ⟨-, hend⟩ := finished ht hdone
  rw [hcall] at hend
  obtain ⟨g, hkey, hmem, hends⟩ := hend rfl
  -- the guard of the write is the one it took in its first turn
  obtain ⟨m, -, hobserved⟩ := does_of_mem hmem
  have hfirst := (observes_at ht hcall hobserved).2
  obtain rfl : t.started = m :=
    same_of_stage hfirst hobserved ht (by rw [hcall]; rfl) rfl nofun
  refine ⟨g, hkey, hobserved, ?_⟩
  have hself : g.base = g := by
    cases Option.some.inj (hfirst.symm.trans hobserved)
    rfl
  have hgiven : ∀ {n a}, r.Does n i a → a = .skip .write g ∨ a = .discardObsoleteL1 .write g →
      t.started < n ∧ ((r.at (t.started + 1)).isCurrent r.cfg g = false ∨
        r.Disturbed g t.started n) := by
    intro n a hdoes ha
    have hlate : t.started < n := by
      obtain ⟨t', ht', hle, -⟩ := rule hdoes
      obtain rfl := Option.some.inj (ht.symm.trans ht')
      refine Nat.lt_of_le_of_ne hle fun heq => ?_
      rw [← heq] at hdoes
      cases Option.some.inj (hdoes.symm.trans hobserved)
      rcases ha with ha | ha <;> cases ha
    refine ⟨hlate, ?_⟩
    by_contra hnone
    rw [not_or, Bool.not_eq_false] at hnone
    obtain ⟨t', -, -, hrule⟩ := rule hdoes
    have hgave : (r.at n).isCurrent r.cfg g = false ∧
        0 < balance (r.acts i n) (.revision g.cell) := by
      rcases ha with rfl | rfl
      · exact ⟨hrule.1.resolve_right nofun, hrule.2 rfl⟩
      · exact hrule rfl
    have hunsigned : (r.at n).signalAborted g = false := by
      rw [← hself]
      rfl
    have hcur := current_of_undisturbed hobserved hlate (lt_length hdoes).le hself hgave.2
      hnone.1 hnone.2 hunsigned
    rw [hgave.1] at hcur
    cases hcur
  rcases hends with hskip | hdiscard | hall
  · obtain ⟨n, -, hdoes⟩ := does_of_mem hskip
    obtain ⟨hlate, hwhy⟩ := hgiven hdoes (.inl rfl)
    exact .inr ⟨n, hlate, .inl hdoes, hwhy⟩
  · obtain ⟨n, -, hdoes⟩ := does_of_mem hdiscard
    obtain ⟨hlate, hwhy⟩ := hgiven hdoes (.inr rfl)
    exact .inr ⟨n, hlate, .inr hdoes, hwhy⟩
  · exact .inl hall

/-- A write from beginning to end. -/
def oneWrite : Run ℕ :=
  demo quietConfig [] (.start (.set theKey 1 {}) :: List.replicate 20 (.resume 0 healthy))

theorem explicit_write_oneWrite : ∃ g, g.key = theKey ∧
    oneWrite.Does 0 0 (.observeKey .write g true) ∧
      (let l := oneWrite.acts 0 oneWrite.trace.length
       Stored quietConfig .write g 1 {} (encodeL1 quietConfig 1 {}) l ∧
        (quietConfig.l2.isSome = true → Marked l ∨ Written quietConfig g 1 {} l) ∧
        Remembered quietConfig .write g 1 {}
          ((encodeL1 quietConfig 1 {}).or (encodeL2 quietConfig 1 {})) l ∨
      ∃ n, 0 < n ∧ (oneWrite.Does n 0 (.skip .write g) ∨
          oneWrite.Does n 0 (.discardObsoleteL1 .write g)) ∧
        ((oneWrite.at 1).isCurrent quietConfig g = false ∨ oneWrite.Disturbed g 0 n)) :=
  explicit_write (i := 0) (t := oneWrite.tasks[0]) rfl rfl rfl

end Run

end HybridCache
