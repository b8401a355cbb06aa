/-
Where the records of the shared tier come from.

A command may be executed long after its caller has given it up, and in any order.
What the shared tier holds was nevertheless written by a command that somebody
dispatched, under a guard whose storage key has this text.

* `Run.Executes` — a command takes effect at this position;
* `Run.sent_of_executes` — it was on its way before;
* `Run.l2_since` — a record that is there now was there, or was written since;
* `Run.stored` — in a shared tier of its own, a cache finds what it has dispatched.
-/
import LazyLayers.HybridFlights

open Js Pattern Async Runs

namespace HybridCache

variable {V : Type} {cfg : Config V}

/-- The command stores this record under this text. -/
def L2Op.gives : L2Op V → JsString → Record V → Prop
  | .set key record _, text, record' => key.text = text ∧ record = record'
  | .publishIfOwner key _ record _, text, record' => key.text = text ∧ record = record'
  | _, _, _ => False

theorem L2Op.writes_of_gives {op : L2Op V} {key : JsString} {record : Record V}
    (h : op.gives key record) : op.writes = true := by
  cases op
  case set => rfl
  case publishIfOwner => rfl
  all_goals exact h.elim

/-- A record that is there after a command was there before, or the command stores it. -/
theorem get_l2Exec {s : State V} {op : L2Op V} {key : JsString} {e : L2Entry V}
    (h : (s.l2Exec op).l2.get key = some e) : s.l2.get key = some e ∨ op.gives key e.record := by
  cases op
  case set key' record ttlMs =>
    rcases get_of_get_set h with hold | ⟨rfl, rfl⟩
    · exact .inl hold
    · exact .inr ⟨rfl, rfl⟩
  case delete key' => exact .inl (JsMap.delete_sub s.l2 key'.text key e h)
  case acquireLock key' token =>
    rw [State.l2Exec] at h
    split at h <;> exact .inl h
  case releaseLock key' token =>
    rw [State.l2Exec] at h
    split at h <;> exact .inl h
  case publishIfOwner key' token record ttlMs =>
    rw [State.l2Exec] at h
    split at h
    · rcases get_of_get_set h with hold | ⟨rfl, rfl⟩
      · exact .inl hold
      · exact .inr ⟨rfl, rfl⟩
    · exact .inl h
  case get => exact .inl h
  case has => exact .inl h

/-- A command is left behind only by `abandon`. -/
theorem abandoned_apply {s : State V} {a : Act V} {op : L2Op V}
    (h : op ∈ (a.apply cfg s).abandoned) :
    op ∈ s.abandoned ∨ ∃ ops, a = .abandon ops ∧ op ∈ ops := by
  have hleft : (a.apply cfg s).abandoned = (a.apply cfg s).books.abandoned := rfl
  rw [hleft] at h
  rcases @books_cases V cfg s a with ⟨_, hb⟩ | ⟨_, _, _, _, hb⟩ | ⟨_, _, _, _, hb⟩ |
    ⟨_, _, _, hb⟩ | ⟨_, hb⟩ | ⟨ops, rfl, hb⟩
  case inr.inr.inr.inr.inr =>
    rw [hb] at h
    exact (List.mem_append.mp h).imp_right fun hmem => ⟨ops, rfl, hmem⟩
  all_goals
    rw [hb] at h
    exact .inl h

namespace Run

variable {r : Run V}

/-- The command takes effect at this position, late or in time. -/
def Executes (r : Run V) (n : ℕ) (op : L2Op V) : Prop :=
  (∃ i g reply, r.Does n i (.execute g op reply)) ∨
    ∃ index, r.trace[n]? = some (.env (.executeAbandoned index)) ∧
      (r.at n).abandoned[index]? = some op

/-- A call had the command on its way before this position. -/
def Sent (r : Run V) (n : ℕ) (op : L2Op V) : Prop :=
  ∃ m i, m < n ∧ ((∃ g, r.Does m i (.dispatch g op)) ∨
    ∃ key pattern keys, op = .delete key ∧ r.Does m i (.dispatchPattern pattern keys) ∧
      matchesPattern key.text pattern = true)

theorem Sent.mono {m n : ℕ} {op : L2Op V} (h : r.Sent m op) (hmn : m ≤ n) : r.Sent n op := by
  obtain ⟨k, i, hk, hsent⟩ := h
  exact ⟨k, i, by omega, hsent⟩

theorem sent_of_sendable {n i : ℕ} {g : Option MutationGuard} {op : L2Op V}
    (h : Sendable (r.acts i n) g op) : r.Sent n op := by
  rcases h with hmem | ⟨-, key, pattern, keys, hop, hmem, hmatch⟩
  · obtain ⟨m, hm, hdoes⟩ := does_of_mem hmem
    exact ⟨m, i, hm, .inl ⟨g, hdoes⟩⟩
  · obtain ⟨m, hm, hdoes⟩ := does_of_mem hmem
    exact ⟨m, i, hm, .inr ⟨key, pattern, keys, hop, hdoes, hmatch⟩⟩

/-- Whoever leaves a command behind had it on its way. -/
theorem sent_of_abandoned {n : ℕ} {op : L2Op V} (hn : n ≤ r.trace.length)
    (h : op ∈ (r.at n).abandoned) : r.Sent n op := by
  induction n with
  | zero => cases h
  | succ n ih =>
    have hget : r.trace[n]? = some r.trace[n] := List.getElem?_eq_getElem (by omega)
    have hold : op ∈ (r.at n).abandoned → r.Sent (n + 1) op :=
      fun hbefore => (ih (by omega) hbefore).mono (Nat.le_succ n)
    rw [at_succ hget] at h
    rcases hentry : r.trace[n] with ⟨i, a⟩ | x
    · rw [hentry] at h hget
      rcases abandoned_apply h with hbefore | ⟨ops, rfl, hmem⟩
      · exact hold hbefore
      · obtain ⟨_, -, -, hrule⟩ := rule hget
        obtain ⟨g, hsend⟩ := hrule op hmem
        exact (sent_of_sendable hsend).mono (Nat.le_succ n)
    · rw [hentry] at h
      exact hold ((books_env (r.at n) x).2 h)

/-- What takes effect was on its way. -/
theorem sent_of_executes {n : ℕ} {op : L2Op V} (h : r.Executes n op) : r.Sent n op := by
  rcases h with ⟨i, g, reply, hdoes⟩ | ⟨index, hget, hop⟩
  · obtain ⟨_, -, -, -, hsend⟩ := rule hdoes
    exact sent_of_sendable hsend
  · have hlt : n < r.trace.length := (List.getElem?_eq_some_iff.mp hget).1
    exact sent_of_abandoned hlt.le (List.mem_of_getElem? hop)

/-- A write was dispatched, under the guard of a call. -/
theorem dispatched_of_sent {n : ℕ} {op : L2Op V} (h : r.Sent n op) (hwrites : op.writes = true) :
    ∃ m i g, m < n ∧ r.Does m i (.dispatch (some g) op) := by
  obtain ⟨m, i, hm, ⟨g, hdoes⟩ | ⟨key, pattern, keys, rfl, -⟩⟩ := h
  · cases g with
    | some g => exact ⟨m, i, g, hm, hdoes⟩
    | none =>
      -- without a guard nothing is written
      obtain ⟨_, -, -, hmay⟩ := rule hdoes
      cases op
      case set => exact hmay.elim
      case publishIfOwner => exact hmay.elim
      all_goals cases hwrites
  · cases hwrites

/-- Nobody else writes to the shared tier: what happens to it from outside only takes
records away, as they expire. -/
def Alone (r : Run V) : Prop :=
  ∀ (n : ℕ) (l2 : JsMap JsString (L2Entry V)) (locks : JsMap JsString ℕ),
    r.trace[n]? = some (.env (.shared l2 locks)) → l2.Sub (r.at n).l2

/-- A record that is there after a step was there before, or a command has written it. -/
theorem l2_step (halone : r.Alone) {n : ℕ} {key : JsString} {e : L2Entry V}
    (hn : n < r.trace.length) (h : (r.at (n + 1)).l2.get key = some e) :
    (r.at n).l2.get key = some e ∨ ∃ op, r.Executes n op ∧ op.gives key e.record := by
  have hget : r.trace[n]? = some r.trace[n] := List.getElem?_eq_getElem hn
  rw [at_succ hget] at h
  rcases hentry : r.trace[n] with ⟨i, a⟩ | x
  · rw [hentry] at h hget
    have hstep : (a.apply r.cfg (r.at n)).l2.get key = some e := h
    rcases hcmd : a.commands with _ | _
    · rw [l2_apply _ hcmd] at hstep
      exact .inl hstep
    · cases a
      case execute g op reply =>
        exact (get_l2Exec hstep).imp_right fun hgives => ⟨op, .inl ⟨i, g, reply, hget⟩, hgives⟩
      all_goals cases hcmd
  · rw [hentry] at h hget
    have hstep : (x.apply (r.at n)).l2.get key = some e := h
    cases x
    case executeAbandoned index =>
      rw [Env.apply] at hstep
      split at hstep
      · rename_i op hop
        exact (get_l2Exec hstep).imp_right fun hgives => ⟨op, .inr ⟨index, hget, hop⟩, hgives⟩
      · exact .inl hstep
    case shared l2 locks => exact .inl (halone n l2 locks hget key e hstep)
    case evictStale =>
      have hsame : (r.at n).evictOneStale.l2 = (r.at n).l2 := (local_evictOneStale (r.at n)).l2
      exact .inl (hsame ▸ hstep)
    all_goals exact .inl hstep

/-- A record that is there was there at `m`, or it was written since. -/
theorem l2_since (halone : r.Alone) {m n : ℕ} {key : JsString} {e : L2Entry V} (hmn : m ≤ n)
    (hn : n ≤ r.trace.length) (h : (r.at n).l2.get key = some e) :
    (r.at m).l2.get key = some e ∨
      ∃ k op, m ≤ k ∧ k < n ∧ r.Executes k op ∧ op.gives key e.record := by
  induction n, hmn using Nat.le_induction with
  | base => exact .inl h
  | succ n hmn ih =>
    rcases l2_step halone (by omega) h with hold | ⟨op, hexec, hgives⟩
    · refine (ih (by omega) hold).imp_right ?_
      rintro ⟨k, op, hk, hlt, hexec⟩
      exact ⟨k, op, hk, by omega, hexec⟩
    · exact .inr ⟨n, op, hmn, Nat.lt_succ_self n, hexec, hgives⟩

/-- In a shared tier of its own, which was empty at first, a cache finds only what it has
dispatched itself. -/
theorem stored (halone : r.Alone) (hempty : r.l2 = []) {n : ℕ} {key : JsString} {e : L2Entry V}
    (hn : n ≤ r.trace.length) (h : (r.at n).l2.get key = some e) :
    ∃ m i g op, m < n ∧ r.Does m i (.dispatch (some g) op) ∧ op.gives key e.record := by
  rcases l2_since halone (Nat.zero_le n) hn h with hstart | ⟨k, op, -, hlt, hexec, hgives⟩
  · have hinit : (r.at 0).l2 = r.l2 := rfl
    rw [hinit, hempty] at hstart
    cases hstart
  · obtain ⟨m, i, g, hm, hdoes⟩ :=
      dispatched_of_sent (sent_of_executes hexec) (L2Op.writes_of_gives hgives)
    exact ⟨m, i, g, op, by omega, hdoes, hgives⟩

/-- What a read of the shared tier returned was there when it was executed. -/
theorem read_of_returned {n i : ℕ} {g : MutationGuard} {record : Record V} {life : Option ℕ}
    (h : Act.returned (some g) (.get g.storageKey) (.found (some (record, life))) ∈ r.acts i n) :
    ∃ m e, m < n ∧ r.Does m i (.execute (some g) (.get g.storageKey) (.found (some (record, life)))) ∧
      (r.at m).l2.get g.storageKey.text = some e ∧ e.record = record := by
  obtain ⟨m₁, hm₁, hreturned⟩ := does_of_mem h
  obtain ⟨_, -, -, hexecuted⟩ := rule hreturned
  obtain ⟨m, hm, hdoes⟩ := does_of_mem hexecuted
  obtain ⟨_, -, -, hreply, -⟩ := rule hdoes
  simp only [State.l2Result, L2Reply.found.injEq] at hreply
  obtain ⟨e, he, hrecord⟩ := Option.map_eq_some_iff.mp hreply.symm
  refine ⟨m, e, by omega, hdoes, (Option.filter_eq_some_iff.mp he).1, ?_⟩
  exact congrArg Prod.fst hrecord

end Run

end HybridCache
