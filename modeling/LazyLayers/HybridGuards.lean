/-
Guards only age.

A `KeyRevision` is created on demand, counted by its users and dropped when the
last one leaves; under memory pressure it may never be registered at all.  What
makes a guard on it trustworthy all the same is that a revision object, once
unregistered, is never registered again, and that its value and the epoch never
go back.

* `Revisions.Ok` — the map points to registered objects, to each from one key;
* `Core.Ages` — what no act undoes;
* `Live` — while the object of a guard is registered, its key points to it;
* `revisions_apply` — the four acts that touch revision objects.
-/
import LazyLayers.HybridFrames

open Js Pattern

namespace HybridCache

variable {V : Type} {cfg : Config V}

/-! ### Revision objects -/

@[simp] theorem State.revisions_cells (s : State V) : s.revisions.cells = s.cells := rfl

@[simp] theorem State.revisions_nextCell (s : State V) : s.revisions.nextCell = s.nextCell := rfl

@[simp] theorem State.revisions_keyRevisions (s : State V) :
    s.revisions.keyRevisions = s.keyRevisions := rfl

@[simp] theorem State.core_revisions (s : State V) : s.core.revisions = s.revisions := rfl

/-- The map points to objects that exist and are registered, to each from one key;
the objects that do not exist yet are blank. -/
structure Revisions.Ok (r : Revisions) : Prop where
  bound : ∀ key c, r.keyRevisions.get key = some c → c < r.nextCell
  registered : ∀ key c, r.keyRevisions.get key = some c → (r.cells c).registered = true
  injective : ∀ key key' c, r.keyRevisions.get key = some c →
    r.keyRevisions.get key' = some c → key = key'
  blank : ∀ c, r.nextCell ≤ c → r.cells c = ⟨0, 0, 0, false⟩

/-- The revision objects after `observeKey` on a key that has one. -/
theorem revisions_observeKey_some {s : State V} {key : CacheKey} {mutate : Bool} {cell : ℕ}
    (h : s.keyRevisions.get key = some cell) :
    (s.observeKey key mutate).revisions = { s.revisions with
      cells := Function.update s.cells cell { s.cells cell with
        value := (s.cells cell).value + (if mutate then 1 else 0)
        references := (s.cells cell).references + 1 } } := by
  rw [State.observeKey, h]
  rfl

/-- The revision objects after `observeKey` on a key that has none. -/
theorem revisions_observeKey_none {s : State V} {key : CacheKey} {mutate : Bool}
    (h : s.keyRevisions.get key = none) :
    (s.observeKey key mutate).revisions =
      { cells := Function.update s.cells s.nextCell
          ⟨if mutate then 1 else 0, 1, keyMetadataBytes key.text, s.canTrack key⟩
        nextCell := s.nextCell + 1
        keyRevisions :=
          if s.canTrack key then s.keyRevisions.set key s.nextCell else s.keyRevisions } := by
  rw [State.observeKey, h]
  dsimp only
  split <;> rfl

theorem ok_observeKey {s : State V} (h : s.revisions.Ok) (key : CacheKey) (mutate : Bool) :
    (s.observeKey key mutate).revisions.Ok := by
  rcases hkey : s.keyRevisions.get key with _ | cell
  · rw [revisions_observeKey_none hkey]
    have hmap : ∀ key' c, (if s.canTrack key then s.keyRevisions.set key s.nextCell
        else s.keyRevisions).get key' = some c →
        s.keyRevisions.get key' = some c ∧ c ≠ s.nextCell ∨
          key' = key ∧ c = s.nextCell ∧ s.canTrack key = true := by
      intro key' c hget
      have hold : ∀ c, s.keyRevisions.get key' = some c → c ≠ s.nextCell := by
        intro c hc heq
        have hlt : c < s.nextCell := h.bound key' c hc
        omega
      split at hget
      · rename_i htrack
        rcases get_of_get_set hget with hget | ⟨rfl, rfl⟩
        · exact .inl ⟨hget, hold c hget⟩
        · exact .inr ⟨rfl, rfl, htrack⟩
      · exact .inl ⟨hget, hold c hget⟩
    refine ⟨?_, ?_, ?_, ?_⟩
    · intro key' c hget
      rcases hmap key' c hget with ⟨hget, -⟩ | ⟨-, rfl, -⟩
      · exact Nat.lt_succ_of_lt (h.bound key' c hget)
      · exact Nat.lt_succ_self _
    · intro key' c hget
      rcases hmap key' c hget with ⟨hget, hne⟩ | ⟨-, rfl, htrack⟩
      · simpa [Function.update_of_ne hne] using h.registered key' c hget
      · simpa using htrack
    · intro key₁ key₂ c h₁ h₂
      rcases hmap key₁ c h₁ with ⟨h₁, hne⟩ | ⟨rfl, rfl, -⟩
      · rcases hmap key₂ c h₂ with ⟨h₂, -⟩ | ⟨-, rfl, -⟩
        · exact h.injective key₁ key₂ c h₁ h₂
        · exact absurd rfl hne
      · rcases hmap key₂ _ h₂ with ⟨-, hne⟩ | ⟨rfl, -, -⟩
        · exact absurd rfl hne
        · rfl
    · intro c hc
      have hle : s.nextCell + 1 ≤ c := hc
      have hne : c ≠ s.nextCell := by omega
      simpa [Function.update_of_ne hne] using h.blank c (Nat.le_of_succ_le hle)
  · rw [revisions_observeKey_some hkey]
    have hlt : cell < s.nextCell := h.bound key cell hkey
    refine ⟨h.bound, ?_, h.injective, ?_⟩
    · intro key' c hget
      by_cases hc : c = cell
      · subst hc
        simpa using h.registered key' c hget
      · simpa [Function.update_of_ne hc] using h.registered key' c hget
    · intro c hc
      have hle : s.nextCell ≤ c := hc
      have hne : c ≠ cell := by omega
      simpa [Function.update_of_ne hne] using h.blank c hle

/-- The two effects of `releaseKey`: the last reference takes the object out of the
map, any other one only leaves. -/
theorem revisions_releaseKey (s : State V) (g : MutationGuard) :
    ((s.cells g.cell).references - 1 = 0 ∧ s.keyRevisions.get g.key = some g.cell ∧
      (s.releaseKey g).revisions = { s.revisions with
        cells := Function.update s.cells g.cell
          { s.cells g.cell with references := 0, registered := false }
        keyRevisions := s.keyRevisions.delete g.key }) ∨
    (¬ ((s.cells g.cell).references - 1 = 0 ∧ s.keyRevisions.get g.key = some g.cell) ∧
      (s.releaseKey g).revisions = { s.revisions with
        cells := Function.update s.cells g.cell
          { s.cells g.cell with references := (s.cells g.cell).references - 1 } }) := by
  rw [State.releaseKey]
  dsimp only
  split
  · rename_i hlast
    exact .inl ⟨hlast.1, hlast.2, rfl⟩
  · rename_i hmore
    exact .inr ⟨hmore, rfl⟩

theorem ok_releaseKey {s : State V} (h : s.revisions.Ok) {g : MutationGuard}
    (hcell : g.cell < s.nextCell) : (s.releaseKey g).revisions.Ok := by
  have hblank : ∀ x c, s.nextCell ≤ c → Function.update s.cells g.cell x c = ⟨0, 0, 0, false⟩ := by
    intro x c hc
    rw [Function.update_of_ne (by omega)]
    exact h.blank c hc
  rcases revisions_releaseKey s g with ⟨-, hget, hr⟩ | ⟨-, hr⟩
  · rw [hr]
    have hsub := JsMap.delete_sub s.keyRevisions g.key
    refine ⟨fun key c hc => h.bound key c (hsub key c hc), ?_,
      fun key key' c h₁ h₂ => h.injective key key' c (hsub _ _ h₁) (hsub _ _ h₂), hblank _⟩
    intro key c hc
    have hold := hsub key c hc
    have hne : c ≠ g.cell := by
      rintro rfl
      obtain rfl := h.injective key g.key g.cell hold hget
      have hnone := JsMap.get_delete_self s.keyRevisions g.key
      rw [hc] at hnone
      cases hnone
    simpa [Function.update_of_ne hne] using h.registered key c hold
  · rw [hr]
    refine ⟨h.bound, ?_, h.injective, hblank _⟩
    intro key c hc
    by_cases hne : c = g.cell
    · subst hne
      simpa using h.registered key g.cell hc
    · simpa [Function.update_of_ne hne] using h.registered key c hc

/-! ### The core of each governing act -/

/-- Nothing happened to the core, or the generations became saturated. -/
def Core.Saturates (k k' : Core) : Prop :=
  k' = k ∨ k.generationTrackingSaturated = false ∧
    k' = { k with generationTrackingSaturated := true, mutationEpoch := k.mutationEpoch + 1 }

section Cores

variable (s : State V)

theorem core_saturateGenerationTracking :
    Core.Saturates s.core s.saturateGenerationTracking.core := by
  rw [State.saturateGenerationTracking]
  split
  · exact .inl rfl
  · rename_i hnot
    rw [Bool.not_eq_true] at hnot
    exact .inr ⟨hnot, (local_dropLocal _).core⟩

theorem core_storeGeneration (key : JsString) (generation : ℕ) :
    Core.Saturates s.core (s.storeGeneration key generation).core := by
  rw [State.storeGeneration]
  dsimp only
  split
  · exact core_saturateGenerationTracking s
  · left
    split <;> rfl

theorem core_advanceGenerationAfterDelete (key : JsString) (generation : Option ℕ) :
    Core.Saturates s.core (s.advanceGenerationAfterDelete key generation).core := by
  cases generation with
  | some generation => exact core_storeGeneration s key _
  | none => exact core_storeGeneration s key _

theorem core_advanceGenerationAfterRemoteSet (key : JsString) (generation : Option ℕ) :
    Core.Saturates s.core (s.advanceGenerationAfterRemoteSet key generation).core := by
  cases generation with
  | some generation => exact core_storeGeneration s key _
  | none => exact .inl rfl

theorem core_invalidateKey (g : MutationGuard) (generation : Option ℕ) :
    Core.Saturates (s.observeKey g.key true).core (s.invalidateKey g generation).core := by
  have hforget := (local_forget (s.observeKey g.key true) g.key).core
  have hadvance := core_advanceGenerationAfterDelete
    ((((s.observeKey g.key true).removeInflight g.key).removeNegative g.key).removeStale g.key)
    g.key.text generation
  rw [hforget] at hadvance
  exact hadvance

theorem core_deleteByPatternLocal (pattern : JsString) :
    (s.deleteByPatternLocal pattern).core =
      { s.core with mutationEpoch := s.mutationEpoch + 1 } := by
  rw [State.deleteByPatternLocal]
  dsimp only
  rw [(local_l1DeleteByPattern _ _).core, (local_foldl local_removeStale _ _).core,
    (local_foldl local_removeNegative _ _).core, (local_foldl local_removeInflight _ _).core]
  rfl

theorem core_markInvalidationUntrusted :
    s.markInvalidationUntrusted.core = { s.core with
      invalidationRevision := s.invalidationRevision + 1
      invalidationTrusted := false
      mutationEpoch := s.mutationEpoch + 1 } := by
  rw [State.markInvalidationUntrusted, (local_dropLocal _).core]
  rfl

theorem core_restoreFlush :
    s.restoreFlush.core = { s.core with mutationEpoch := s.mutationEpoch + 1 } := by
  rw [State.restoreFlush, (local_dropLocal _).core]
  rfl

theorem core_close :
    (s.close cfg).core = { s.core with
      closed := true
      mutationEpoch := s.mutationEpoch + 1
      invalidationRevision := s.invalidationRevision + 1
      revisions := ⟨fun c => if s.keyRevisions.any (fun e => e.2 = c) then
        { s.cells c with registered := false } else s.cells c, s.nextCell, []⟩ } := by
  rw [State.close]
  dsimp only
  split <;> rfl

theorem core_busStatus (status : EventBusStatus) :
    ((Act.busStatus status).apply cfg s).core =
      if status.revokes then { s.core with
        lastBusStatus := some status
        invalidationRevision := s.invalidationRevision + 1
        invalidationTrusted := false
        mutationEpoch := s.mutationEpoch + 1 }
      else { s.core with lastBusStatus := some status } := by
  rw [Act.apply]
  split
  · rw [core_markInvalidationUntrusted]
    rfl
  · rfl

end Cores

/-- The acts that touch revision objects. -/
def Act.touches : Act V → Bool
  | .observeKey _ _ _ | .invalidateKey _ _ | .releaseKey _ | .close => true
  | _ => false

theorem revisions_apply (s : State V) {a : Act V} (h : a.touches = false) :
    (a.apply cfg s).revisions = s.revisions := by
  have hsat : ∀ {k k' : Core}, Core.Saturates k k' → k'.revisions = k.revisions := by
    rintro k k' (rfl | ⟨-, rfl⟩)
    · rfl
    · rfl
  rcases hgov : a.governs with _ | _
  · exact congrArg Core.revisions (core_apply s hgov)
  cases a
  case advanceGeneration key generation =>
    exact hsat (core_advanceGenerationAfterRemoteSet s key generation)
  case saturate => exact hsat (core_saturateGenerationTracking s)
  case deleteByPatternLocal pattern =>
    exact congrArg Core.revisions (core_deleteByPatternLocal s pattern)
  case busStatus status =>
    have hcore := congrArg Core.revisions (@core_busStatus V cfg s status)
    split at hcore <;> exact hcore
  case markInvalidationUntrusted =>
    exact congrArg Core.revisions (core_markInvalidationUntrusted s)
  case restoreFlush revision => exact congrArg Core.revisions (core_restoreFlush s)
  case trust revision => rfl
  all_goals first | (cases h; done) | cases hgov

/-- The revision objects after an invalidation are those after its observation. -/
theorem revisions_invalidateKey (s : State V) (g : MutationGuard) (generation : Option ℕ) :
    (s.invalidateKey g generation).revisions = (s.observeKey g.key true).revisions := by
  rcases core_invalidateKey s g generation with h | ⟨-, h⟩
  · exact congrArg Core.revisions h
  · exact congrArg Core.revisions h

theorem ok_close {s : State V} (h : s.revisions.Ok) : (s.close cfg).revisions.Ok := by
  have hr : (s.close cfg).revisions = _ := congrArg Core.revisions (@core_close V cfg s)
  rw [hr]
  refine ⟨fun _ _ hc => ?_, fun _ _ hc => ?_, fun _ _ _ hc _ => ?_, fun c hc => ?_⟩
  · simp at hc
  · simp at hc
  · simp at hc
  · have hblank : s.cells c = ⟨0, 0, 0, false⟩ := h.blank c hc
    dsimp only
    split
    · rw [hblank]
    · exact hblank

theorem ok_create (budget : MemoryBudget) (history : Option (ℕ → ℕ))
    (l2 : JsMap JsString (L2Entry V)) : (State.create cfg budget history l2).revisions.Ok :=
  ⟨fun _ _ hc => by simp [State.create] at hc, fun _ _ hc => by simp [State.create] at hc,
    fun _ _ _ hc _ => by simp [State.create] at hc, fun _ _ => rfl⟩

/-! ### Aging -/

/-- What no act undoes. -/
structure Core.Ages (k k' : Core) : Prop where
  closed : k.closed = true → k'.closed = true
  saturated : k.generationTrackingSaturated = true → k'.generationTrackingSaturated = true
  epoch : k.mutationEpoch ≤ k'.mutationEpoch
  revision : k.invalidationRevision ≤ k'.invalidationRevision
  nextCell : k.revisions.nextCell ≤ k'.revisions.nextCell
  registered : ∀ c, c < k.revisions.nextCell → (k'.revisions.cells c).registered = true →
    (k.revisions.cells c).registered = true
  value : ∀ c, c < k.revisions.nextCell →
    (k.revisions.cells c).value ≤ (k'.revisions.cells c).value

theorem Core.Ages.refl (k : Core) : k.Ages k :=
  ⟨id, id, le_rfl, le_rfl, le_rfl, fun _ _ h => h, fun _ _ => le_rfl⟩

theorem Core.Ages.trans {k k' k'' : Core} (h : k.Ages k') (h' : k'.Ages k'') : k.Ages k'' :=
  ⟨fun hc => h'.closed (h.closed hc), fun hs => h'.saturated (h.saturated hs),
    h.epoch.trans h'.epoch, h.revision.trans h'.revision,
    h.nextCell.trans h'.nextCell,
    fun c hc hr => h.registered c hc (h'.registered c (hc.trans_le h.nextCell) hr),
    fun c hc => (h.value c hc).trans (h'.value c (hc.trans_le h.nextCell))⟩

theorem ages_of_saturates {k k' : Core} (h : k.Saturates k') : k.Ages k' := by
  rcases h with rfl | ⟨-, rfl⟩
  · exact .refl _
  · exact ⟨id, fun _ => rfl, Nat.le_succ _, le_rfl, le_rfl, fun _ _ h => h, fun _ _ => le_rfl⟩

theorem core_observeKey (s : State V) (key : CacheKey) (mutate : Bool) :
    (s.observeKey key mutate).core =
      { s.core with revisions := (s.observeKey key mutate).revisions } := by
  rw [State.observeKey]
  dsimp only
  split
  · rfl
  · split <;> rfl

theorem core_releaseKey (s : State V) (g : MutationGuard) :
    (s.releaseKey g).core = { s.core with revisions := (s.releaseKey g).revisions } := by
  rw [State.releaseKey]
  dsimp only
  split <;> rfl

theorem ages_observeKey (s : State V) (key : CacheKey) (mutate : Bool) :
    s.core.Ages (s.observeKey key mutate).core := by
  rw [core_observeKey]
  rcases hkey : s.keyRevisions.get key with _ | cell
  · rw [revisions_observeKey_none hkey]
    refine ⟨id, id, le_rfl, le_rfl, Nat.le_succ _, ?_, ?_⟩
    · intro c hc hr
      have hne : c ≠ s.nextCell := Nat.ne_of_lt hc
      simpa [Function.update_of_ne hne] using hr
    · intro c hc
      have hne : c ≠ s.nextCell := Nat.ne_of_lt hc
      simp [Function.update_of_ne hne]
  · rw [revisions_observeKey_some hkey]
    refine ⟨id, id, le_rfl, le_rfl, le_rfl, ?_, ?_⟩
    · intro c hc hr
      by_cases hne : c = cell
      · subst hne
        simpa using hr
      · simpa [Function.update_of_ne hne] using hr
    · intro c hc
      by_cases hne : c = cell
      · subst hne
        simp
      · simp [Function.update_of_ne hne]

theorem ages_releaseKey (s : State V) (g : MutationGuard) :
    s.core.Ages (s.releaseKey g).core := by
  rw [core_releaseKey]
  rcases revisions_releaseKey s g with ⟨-, -, hr⟩ | ⟨-, hr⟩
  · rw [hr]
    refine ⟨id, id, le_rfl, le_rfl, le_rfl, ?_, ?_⟩
    · intro c hc hreg
      by_cases hne : c = g.cell
      · subst hne
        simp at hreg
      · simpa [Function.update_of_ne hne] using hreg
    · intro c hc
      by_cases hne : c = g.cell
      · subst hne
        simp
      · simp [Function.update_of_ne hne]
  · rw [hr]
    refine ⟨id, id, le_rfl, le_rfl, le_rfl, ?_, ?_⟩
    · intro c hc hreg
      by_cases hne : c = g.cell
      · subst hne
        simpa using hreg
      · simpa [Function.update_of_ne hne] using hreg
    · intro c hc
      by_cases hne : c = g.cell
      · subst hne
        simp
      · simp [Function.update_of_ne hne]

theorem ages_apply (s : State V) (a : Act V) : s.core.Ages (a.apply cfg s).core := by
  rcases hgov : a.governs with _ | _
  · rw [core_apply s hgov]
    exact .refl _
  have hbump : ∀ k : Core, k.Ages { k with mutationEpoch := k.mutationEpoch + 1 } := fun k =>
    ⟨id, id, Nat.le_succ _, le_rfl, le_rfl, fun _ _ h => h, fun _ _ => le_rfl⟩
  cases a
  case observeKey o g mutate => exact ages_observeKey s g.key mutate
  case invalidateKey g generation =>
    exact (ages_observeKey s g.key true).trans (ages_of_saturates (core_invalidateKey s g generation))
  case releaseKey g => exact ages_releaseKey s g
  case advanceGeneration key generation =>
    exact ages_of_saturates (core_advanceGenerationAfterRemoteSet s key generation)
  case saturate => exact ages_of_saturates (core_saturateGenerationTracking s)
  case deleteByPatternLocal pattern =>
    rw [Act.apply, core_deleteByPatternLocal]
    exact hbump _
  case busStatus status =>
    rw [core_busStatus]
    split
    · exact ⟨id, id, Nat.le_succ _, Nat.le_succ _, le_rfl, fun _ _ h => h, fun _ _ => le_rfl⟩
    · exact ⟨id, id, le_rfl, le_rfl, le_rfl, fun _ _ h => h, fun _ _ => le_rfl⟩
  case markInvalidationUntrusted =>
    rw [Act.apply, core_markInvalidationUntrusted]
    exact ⟨id, id, Nat.le_succ _, Nat.le_succ _, le_rfl, fun _ _ h => h, fun _ _ => le_rfl⟩
  case restoreFlush revision =>
    rw [Act.apply, core_restoreFlush]
    exact hbump _
  case trust revision => exact ⟨id, id, le_rfl, le_rfl, le_rfl, fun _ _ h => h, fun _ _ => le_rfl⟩
  case close =>
    rw [Act.apply, core_close]
    refine ⟨fun _ => rfl, id, Nat.le_succ _, Nat.le_succ _, le_rfl, ?_, ?_⟩
    · intro c _ hreg
      dsimp only at hreg
      split at hreg
      · cases hreg
      · exact hreg
    · intro c _
      dsimp only
      split <;> exact le_rfl
  all_goals cases hgov

/-! ### Live guards -/

/-- The object of the guard exists and, while it is registered, the key points to it. -/
def Live (g : MutationGuard) (r : Revisions) : Prop :=
  g.cell < r.nextCell ∧
    ((r.cells g.cell).registered = true → r.keyRevisions.get g.key = some g.cell)

/-- A guard is live when it is taken. -/
theorem live_guardFor {s : State V} (h : s.revisions.Ok) (key : CacheKey) (mutate : Bool) :
    Live (s.guardFor cfg key mutate) (s.observeKey key mutate).revisions := by
  rcases hkey : s.keyRevisions.get key with _ | cell
  · have hcell : (s.guardFor cfg key mutate).cell = s.nextCell := by
      simp [State.guardFor, State.cellFor, hkey]
    rw [revisions_observeKey_none hkey, Live, hcell]
    refine ⟨Nat.lt_succ_self _, fun hreg => ?_⟩
    have htrack : s.canTrack key = true := by simpa using hreg
    dsimp only
    rw [if_pos htrack]
    exact JsMap.get_set_self ..
  · have hcell : (s.guardFor cfg key mutate).cell = cell := by
      simp [State.guardFor, State.cellFor, hkey]
    rw [revisions_observeKey_some hkey, Live, hcell]
    exact ⟨h.bound key cell hkey, fun _ => hkey⟩

theorem live_observeKey {s : State V} {g : MutationGuard} (hg : Live g s.revisions)
    (key : CacheKey) (mutate : Bool) : Live g (s.observeKey key mutate).revisions := by
  have hlt : g.cell < s.nextCell := hg.1
  rcases hkey : s.keyRevisions.get key with _ | cell
  · rw [revisions_observeKey_none hkey]
    refine ⟨Nat.lt_succ_of_lt hlt, fun hreg => ?_⟩
    have hne : g.cell ≠ s.nextCell := Nat.ne_of_lt hlt
    have hget : s.keyRevisions.get g.key = some g.cell :=
      hg.2 (by simpa [Function.update_of_ne hne] using hreg)
    -- the key of a registered guard is tracked, so it is not the one observed here
    have hother : key ≠ g.key := by
      rintro rfl
      rw [hkey] at hget
      cases hget
    dsimp only
    split
    · rw [JsMap.get_set_of_ne _ _ hother]
      exact hget
    · exact hget
  · rw [revisions_observeKey_some hkey]
    refine ⟨hlt, fun hreg => hg.2 ?_⟩
    by_cases hne : g.cell = cell
    · subst hne
      simpa using hreg
    · simpa [Function.update_of_ne hne] using hreg

theorem live_releaseKey {s : State V} {g : MutationGuard} (hg : Live g s.revisions)
    (g' : MutationGuard) : Live g (s.releaseKey g').revisions := by
  rcases revisions_releaseKey s g' with ⟨-, hget', hr⟩ | ⟨-, hr⟩
  · rw [hr]
    refine ⟨hg.1, fun hreg => ?_⟩
    by_cases hcell : g.cell = g'.cell
    · rw [hcell] at hreg
      simp at hreg
    · have hget : s.keyRevisions.get g.key = some g.cell :=
        hg.2 (by simpa [Function.update_of_ne hcell] using hreg)
      have hkey : g'.key ≠ g.key := by
        intro hkey
        rw [hkey, hget, Option.some.injEq] at hget'
        exact hcell hget'
      dsimp only
      rw [JsMap.get_delete_of_ne _ hkey]
      exact hget
  · rw [hr]
    refine ⟨hg.1, fun hreg => hg.2 ?_⟩
    by_cases hcell : g.cell = g'.cell
    · rw [hcell] at hreg ⊢
      simpa using hreg
    · simpa [Function.update_of_ne hcell] using hreg

theorem live_close {s : State V} {g : MutationGuard} (hg : Live g s.revisions) :
    Live g (s.close cfg).revisions := by
  have hr : (s.close cfg).revisions = _ := congrArg Core.revisions (@core_close V cfg s)
  rw [hr]
  refine ⟨hg.1, fun hreg => ?_⟩
  dsimp only at hreg
  split at hreg
  · cases hreg
  · rename_i hnone
    have hget : s.keyRevisions.get g.key = some g.cell := hg.2 hreg
    refine absurd ?_ hnone
    obtain ⟨e, hfind, hcell⟩ := Option.map_eq_some_iff.mp hget
    rw [List.any_eq_true]
    exact ⟨e, List.mem_of_find?_eq_some hfind, by simpa using hcell⟩

theorem live_apply {s : State V} {g : MutationGuard} (hg : Live g s.revisions) (a : Act V) :
    Live g (a.apply cfg s).revisions := by
  rcases htouch : a.touches with _ | _
  · rw [revisions_apply s htouch]
    exact hg
  cases a
  case observeKey o g' mutate => exact live_observeKey hg g'.key mutate
  case invalidateKey g' generation =>
    rw [Act.apply, revisions_invalidateKey]
    exact live_observeKey hg g'.key true
  case releaseKey g' => exact live_releaseKey hg g'
  case close => exact live_close hg
  all_goals cases htouch

/-- A guard is taken at the value that its object then has. -/
theorem value_guardFor (s : State V) (key : CacheKey) (mutate : Bool) :
    ((s.observeKey key mutate).revisions.cells (s.guardFor cfg key mutate).cell).value =
      (s.guardFor cfg key mutate).revision := by
  rcases hkey : s.keyRevisions.get key with _ | cell
  · rw [revisions_observeKey_none hkey]
    simp [State.guardFor, State.cellFor, hkey]
  · rw [revisions_observeKey_some hkey]
    simp [State.guardFor, State.cellFor, hkey]

/-- A mutation of the key of a registered guard raises the value it was taken at. -/
theorem value_lt_of_mutation {s : State V} {g : MutationGuard} (hg : Live g s.revisions)
    (hreg : (s.cells g.cell).registered = true) :
    (s.cells g.cell).value < ((s.observeKey g.key true).revisions.cells g.cell).value := by
  rw [revisions_observeKey_some (hg.2 hreg)]
  simp

/-! ### Mutations and bumps -/

/-- A local `set` or `delete` of the key, or a remote event for it. -/
def Act.mutates (key : CacheKey) : Act V → Bool
  | .observeKey _ g mutate => mutate && g.key = key
  | .invalidateKey g _ => g.key = key
  | _ => false

/-- A pattern invalidation, a change of trust, the saturation of the generations, or the
end of the cache. -/
def Act.bumps (cfg : Config V) (s : State V) : Act V → Bool
  | .deleteByPatternLocal _ | .markInvalidationUntrusted | .restoreFlush _ | .close => true
  | .busStatus status => status.revokes
  | a => !s.generationTrackingSaturated && (a.apply cfg s).generationTrackingSaturated

theorem epoch_lt_of_saturates {k k' : Core} (h : k.Saturates k')
    (hnot : k.generationTrackingSaturated = false)
    (hsat : k'.generationTrackingSaturated = true) : k.mutationEpoch < k'.mutationEpoch := by
  rcases h with rfl | ⟨-, rfl⟩
  · rw [hnot] at hsat
    cases hsat
  · exact Nat.lt_succ_self _

/-- A bump raises the epoch. -/
theorem epoch_lt_of_bumps {s : State V} {a : Act V} (h : a.bumps cfg s = true) :
    s.mutationEpoch < (a.apply cfg s).mutationEpoch := by
  -- an act that saturates the generations
  have hsat : ∀ {a : Act V}, (!s.generationTrackingSaturated &&
      (a.apply cfg s).generationTrackingSaturated) = true →
      s.mutationEpoch < (a.apply cfg s).mutationEpoch := by
    intro a h
    simp only [Bool.and_eq_true, Bool.not_eq_true'] at h
    rcases hgov : a.governs with _ | _
    · have hcore := congrArg Core.generationTrackingSaturated (@core_apply V cfg s _ hgov)
      change (a.apply cfg s).generationTrackingSaturated = s.generationTrackingSaturated at hcore
      rw [hcore, h.1] at h
      cases h.2
    have heq : ∀ {k : Core}, (a.apply cfg s).core = k →
        k.generationTrackingSaturated = s.generationTrackingSaturated → False := by
      intro k hk hsame
      have hnot := congrArg Core.generationTrackingSaturated hk
      change (a.apply cfg s).generationTrackingSaturated = _ at hnot
      rw [hsame, h.1] at hnot
      rw [hnot] at h
      cases h.2
    cases a
    case observeKey o g mutate => exact (heq (core_observeKey s g.key mutate) rfl).elim
    case invalidateKey g generation =>
      have hobs := core_observeKey s g.key true
      have hlt := epoch_lt_of_saturates (core_invalidateKey s g generation)
        (by rw [hobs]; exact h.1) h.2
      rw [hobs] at hlt
      exact hlt
    case releaseKey g => exact (heq (core_releaseKey s g) rfl).elim
    case advanceGeneration key generation =>
      exact epoch_lt_of_saturates (core_advanceGenerationAfterRemoteSet s key generation) h.1 h.2
    case saturate => exact epoch_lt_of_saturates (core_saturateGenerationTracking s) h.1 h.2
    case deleteByPatternLocal pattern =>
      exact (heq (core_deleteByPatternLocal s pattern) rfl).elim
    case busStatus status =>
      refine (heq (core_busStatus s status) ?_).elim
      split <;> rfl
    case markInvalidationUntrusted => exact (heq (core_markInvalidationUntrusted s) rfl).elim
    case restoreFlush revision => exact (heq (core_restoreFlush s) rfl).elim
    case trust revision => exact (heq rfl rfl).elim
    case close => exact (heq (core_close s) rfl).elim
    all_goals cases hgov
  have hepoch : ∀ {k : Core}, (a.apply cfg s).core = k → s.mutationEpoch < k.mutationEpoch →
      s.mutationEpoch < (a.apply cfg s).mutationEpoch := by
    intro k hk hlt
    rw [← hk] at hlt
    exact hlt
  cases a
  case deleteByPatternLocal pattern =>
    exact hepoch (core_deleteByPatternLocal s pattern) (Nat.lt_succ_self _)
  case markInvalidationUntrusted =>
    exact hepoch (core_markInvalidationUntrusted s) (Nat.lt_succ_self _)
  case restoreFlush revision => exact hepoch (core_restoreFlush s) (Nat.lt_succ_self _)
  case close => exact hepoch (core_close s) (Nat.lt_succ_self _)
  case busStatus status =>
    refine hepoch (core_busStatus s status) ?_
    have hrev : status.revokes = true := h
    rw [if_pos hrev]
    exact Nat.lt_succ_self _
  all_goals exact hsat h

end HybridCache
