/-
Where local entries come from.

An entry that a tier holds after a step and did not hold before was put there by
one act of one call, and the rule of that act says under which guard: one that the
call took itself and that was current at that moment.  Everything that is proved
about entries reads their history off these acts.

* `LocalEntry`, `State.holds` — the entries of the L1, the stale and the negative map;
* `Run.put_of_new`, `Run.put_since` — a new entry was put there by an act;
* `Run.placed` — such an act has a guard that is current;
* `Run.obsolete_work_never_cached` — and it never is a guard that is obsolete.
-/
import LazyLayers.HybridRuns

open Js Pattern Async Runs MemoryStore

namespace HybridCache

variable {V : Type} {cfg : Config V}

/-! ### Entries -/

/-- An entry of a local tier, with the key it stands under. -/
inductive LocalEntry
  | l1 (key : CacheKey) (e : L1Entry)
  | stale (key : CacheKey) (e : StaleEntry)
  | negative (key : CacheKey) (e : NegativeEntry)

/-- The tier holds the entry.  An entry of the L1 that has expired is not readable
and does not count. -/
def State.holds (s : State V) : LocalEntry → Prop
  | .l1 key e => s.l1Entry key = some e
  | .stale key e => s.stale.get key = some e
  | .negative key e => s.negative.get key = some e

/-- The act puts an entry like this into its tier. -/
def Act.puts : Act V → LocalEntry → Prop
  | .insertL1 _ g _ buffer _, .l1 key e => g.storageKey = key ∧ e.buffer = buffer
  | .rememberStale _ g _ encoded _, .stale key e => g.key = key ∧ e.encoded = encoded
  | .setNegative g _, .negative key _ => g.key = key
  | _, _ => False

/-- What an act that fills a local tier does it for, and under which guard. -/
def Act.places : Act V → Option (Origin × MutationGuard)
  | .insertL1 o g _ _ _ => some (o, g)
  | .rememberStale o g _ _ _ => some (o, g)
  | .setNegative g _ => some (.fill, g)
  | _ => none

/-- How the call came by what the act places: by the write it makes, by its loader, by a
read under the guard, or by the event it handles. -/
def Obtained (cfg : Config V) (c : Call V) (l : List (Act V)) : Act V → Prop
  | .insertL1 o g v _ _ => Justified cfg c l g v o
  | .rememberStale o g v _ _ => Justified cfg c l g v o ∨ o = .read ∧ FromL1 cfg l g v
  | .setNegative g _ => .loaded g.key none ∈ l
  | _ => False

theorem Act.places_of_puts {a : Act V} {x : LocalEntry} (h : a.puts x) :
    ∃ o g, a.places = some (o, g) := by
  cases a
  case insertL1 o g v buffer ttlMs => exact ⟨o, g, rfl⟩
  case rememberStale o g v encoded opts => exact ⟨o, g, rfl⟩
  case setNegative g opts => exact ⟨.fill, g, rfl⟩
  all_goals exact h.elim

/-- A readable entry of the L1 was readable before, as long as it was there. -/
theorem l1Entry_of_within {s s' : State V} {key : CacheKey} {e : L1Entry}
    (hnow : s.now ≤ s'.now) (hres : s'.mem.resident key = some e → s.mem.resident key = some e)
    (h : s'.l1Entry key = some e) : s.l1Entry key = some e := by
  change (s'.mem.resident key).filter (readable s'.now) = some e at h
  change (s.mem.resident key).filter (readable s.now) = some e
  obtain ⟨he, hread⟩ := Option.filter_eq_some_iff.mp h
  refine Option.filter_eq_some_iff.mpr ⟨hres he, ?_⟩
  simp only [readable, decide_eq_true_eq] at hread ⊢
  omega

/-- Where entries only go away, what is there was there before. -/
theorem holds_of_fewer {s s' : State V} {x : LocalEntry} (hnow : s.now ≤ s'.now)
    (hl1 : s'.mem.Within s.mem) (hstale : s'.stale.Sub s.stale)
    (hneg : s'.negative.Sub s.negative) (h : s'.holds x) : s.holds x := by
  cases x with
  | l1 key e => exact l1Entry_of_within hnow (hl1 key e) h
  | stale key e => exact hstale key e h
  | negative key e => exact hneg key e h

theorem holds_l2Exec {s : State V} (op : L2Op V) {x : LocalEntry} (h : (s.l2Exec op).holds x) :
    s.holds x := by
  have hsame : (s.l2Exec op).holds x = s.holds x :=
    proj_l2Exec (fun s : State V => s.holds x) (fun _ _ _ => by cases x <;> rfl) s op
  exact hsame ▸ h

/-- One act: an entry that is there afterwards was there before, or the act put it there. -/
theorem holds_apply {s : State V} {a : Act V} {x : LocalEntry} (h : (a.apply cfg s).holds x) :
    s.holds x ∨ a.puts x := by
  rcases hinst : a.installs with _ | _
  · left
    rcases hcmd : a.commands with _ | _
    · have hdrops : Drops s (a.apply cfg s) := drops_apply s hinst hcmd
      exact holds_of_fewer hdrops.now hdrops.l1 hdrops.stale hdrops.negative h
    · cases a
      case execute g op reply => exact holds_l2Exec op h
      all_goals cases hcmd
  cases a
  case insertL1 o g v buffer ttlMs =>
    cases x with
    | l1 key e =>
      by_cases hkey : g.storageKey = key
      · subst hkey
        exact .inr ⟨rfl, Mem.entry_setEncoded_self le_rfl h⟩
      · left
        have hother : (s.l1SetEncoded cfg g.storageKey buffer ttlMs).mem.resident key = some e →
            s.mem.resident key = some e := Mem.resident_setEncoded_other hkey
        have hnow : s.now ≤ (s.l1SetEncoded cfg g.storageKey buffer ttlMs).now := le_rfl
        exact l1Entry_of_within hnow hother h
    | stale key e => exact .inl h
    | negative key e => exact .inl h
  case rememberStale o g v encoded opts =>
    have hinstalls := @installs_rememberStale V cfg s g.key encoded opts
    cases x with
    | l1 key e => exact .inl (l1Entry_of_within hinstalls.now (hinstalls.l1 key e) h)
    | stale key e =>
      rcases hinstalls.stale key e h with hold | ⟨hkey, he⟩
      · exact .inl hold
      · exact .inr ⟨hkey.symm, he⟩
    | negative key e => exact .inl ((hinstalls.negative key e h).resolve_right id)
  case setNegative g opts =>
    have hinstalls := @installs_setNegative V cfg s g.key opts
    cases x with
    | l1 key e => exact .inl (l1Entry_of_within hinstalls.now (hinstalls.l1 key e) h)
    | stale key e => exact .inl ((hinstalls.stale key e h).resolve_right id)
    | negative key e => exact (hinstalls.negative key e h).imp_right Eq.symm
  case trackInflight key id opts => cases x <;> exact .inl h
  all_goals cases hinst

namespace Run

variable {r : Run V}

/-! ### Entries along a run -/

/-- An entry that is there after a step and was not there before was put there. -/
theorem put_of_new {n : ℕ} {x : LocalEntry} (hn : n < r.trace.length)
    (h : (r.at (n + 1)).holds x) (hnew : ¬ (r.at n).holds x) : ∃ i a, r.Does n i a ∧ a.puts x := by
  have hget : r.trace[n]? = some r.trace[n] := List.getElem?_eq_getElem hn
  rw [at_succ hget] at h
  rcases hentry : r.trace[n] with ⟨i, a⟩ | e
  · rw [hentry] at h hget
    rcases holds_apply h with hold | hputs
    · exact absurd hold hnew
    · exact ⟨i, a, hget, hputs⟩
  · rw [hentry] at h
    obtain ⟨hnow, hl1, hstale, hneg, -⟩ := env_apply (r.at n) e
    exact absurd (holds_of_fewer hnow hl1 hstale hneg h) hnew

/-- An entry that is there was there at `m`, or it was put there since. -/
theorem put_since {m n : ℕ} {x : LocalEntry} (hmn : m ≤ n) (hn : n ≤ r.trace.length)
    (h : (r.at n).holds x) :
    (r.at m).holds x ∨ ∃ k i a, m ≤ k ∧ k < n ∧ r.Does k i a ∧ a.puts x := by
  induction n, hmn using Nat.le_induction with
  | base => exact .inl h
  | succ n hmn ih =>
    by_cases hold : (r.at n).holds x
    · refine (ih (by omega) hold).imp_right ?_
      rintro ⟨k, i, a, hk, hlt, hdoes, hputs⟩
      exact ⟨k, i, a, hk, by omega, hdoes, hputs⟩
    · obtain ⟨i, a, hdoes, hputs⟩ := put_of_new (by omega) h hold
      exact .inr ⟨n, i, a, hmn, Nat.lt_succ_self n, hdoes, hputs⟩

/-- An act that fills a tier does so under a guard of its call, which is current, with
what the call has obtained for it. -/
theorem placed {n i : ℕ} {a : Act V} {o : Origin} {g : MutationGuard} (h : r.Does n i a)
    (hplaces : a.places = some (o, g)) :
    (∃ t, r.tasks[i]? = some t ∧ Obtained r.cfg t.call (r.acts i n) a) ∧
      (∃ m mutate, m < n ∧ r.Does m i (.observeKey o g.base mutate)) ∧
      (r.at n).isCurrent r.cfg g = true := by
  obtain ⟨t, ht, -, hrule⟩ := rule h
  have htaken : ∀ {o : Origin} {g : MutationGuard}, Observed (r.acts i n) o g →
      ∃ m mutate, m < n ∧ r.Does m i (.observeKey o g.base mutate) := by
    rintro o g ⟨mutate, hmem⟩
    obtain ⟨m, hm, hdoes⟩ := does_of_mem hmem
    exact ⟨m, mutate, hm, hdoes⟩
  cases a
  case insertL1 o' g' v buffer ttlMs =>
    obtain ⟨rfl, rfl⟩ : o' = o ∧ g' = g := by simpa [Act.places] using hplaces
    exact ⟨⟨t, ht, hrule.2.2.1⟩, htaken hrule.1, hrule.2.1⟩
  case rememberStale o' g' v encoded opts =>
    obtain ⟨rfl, rfl⟩ : o' = o ∧ g' = g := by simpa [Act.places] using hplaces
    exact ⟨⟨t, ht, hrule.2.2.1⟩, htaken hrule.1, hrule.2.1⟩
  case setNegative g' opts =>
    obtain ⟨rfl, rfl⟩ : Origin.fill = o ∧ g' = g := by simpa [Act.places] using hplaces
    exact ⟨⟨t, ht, hrule.2.2⟩, htaken hrule.1, hrule.2.1⟩
  all_goals cases hplaces

/-- A mutation of the key of the guard, or a bump of the epoch, after `m` and before `n`. -/
def Disturbed (r : Run V) (g : MutationGuard) (m n : ℕ) : Prop :=
  ∃ k i a, m < k ∧ k < n ∧ r.Does k i a ∧
    (a.mutates g.key = true ∨ a.bumps r.cfg (r.at k) = true)

/-- **Obsolete work is never cached.**  What an act puts into the L1, the stale or the
negative map was obtained by its call under a guard that the call took itself; since
that guard was taken, by this call or by whichever other, nothing has mutated its key or
bumped the epoch.  Nothing but these acts adds entries. -/
theorem obsolete_work_never_cached (r : Run V) :
    (∀ n i a o g, r.Does n i a → a.places = some (o, g) →
      (∃ t, r.tasks[i]? = some t ∧ Obtained r.cfg t.call (r.acts i n) a) ∧
      (∃ m mutate, m < n ∧ r.Does m i (.observeKey o g.base mutate)) ∧
      ∀ m j take, r.Does m j take → Takes take g.base → ¬ r.Disturbed g m n) ∧
    ∀ n x, n < r.trace.length → (r.at (n + 1)).holds x → ¬ (r.at n).holds x →
      ∃ i a, r.Does n i a ∧ a.puts x := by
  refine ⟨?_, fun n x hn h hnew => put_of_new hn h hnew⟩
  intro n i a o g hdoes hplaces
  obtain ⟨hobtained, htaken, hcur⟩ := placed hdoes hplaces
  refine ⟨hobtained, htaken, ?_⟩
  rintro m j take hdtake htakes ⟨k, i', b, hmk, hkn, hb, hdisturbs⟩
  have hbase : g.base = g.base.base := rfl
  have hobsolete : (r.at n).isCurrent r.cfg g = false :=
    obsolete (lt_length hdoes).le hdtake htakes hb hmk hkn hdisturbs hbase
  rw [hcur] at hobsolete
  cases hobsolete

end Run

end HybridCache
