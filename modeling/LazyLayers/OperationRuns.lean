/-
Runs of the coordination script on one operation key.

`Server` is the part of Redis that one operation key sees: the clock and the
stored string with the instant at which its PX time to live elapses.  An
`Action` is the passing of time or one command; a run is any list of them, so
it may mix any number of owners and of stores with different lease and
retention arguments.

The script is brought down to five abstract transitions of the record
(`Transition`, reached by `command_transition`), and everything about runs is
proved from those:

* `mutual_exclusion` — leases of different owners never overlap, renewals and
  completions are by the live owner, a lost lease stays lost, and Redis never
  drops a record whose lease is live;
* `completed_terminal` — a completed record is replayed unchanged until its
  retention has elapsed.
-/
import LazyLayers.OperationScript
import LazyLayers.Runs

open Runs

namespace Transactions

/-- The string stored under the operation key, and the last millisecond of its PX. -/
structure Stored where
  raw : LuaString
  expiresAt : ℕ
  deriving DecidableEq, Repr

/-- What one operation key sees of Redis; the clock counts microseconds. -/
structure Server where
  clock : ℕ
  key : Option Stored
  deriving DecidableEq, Repr

/-- The reply of `TIME`: seconds, and microseconds within the second. -/
def Server.time (s : Server) : ℕ × ℕ := (s.clock / 1000000, s.clock % 1000000)

/-- The server clock in milliseconds, against which PX deadlines are kept. -/
def Server.now (s : Server) : ℕ := s.clock / 1000

theorem Server.time_now (s : Server) : s.time.1 * 1000 + s.time.2 / 1000 = s.now := by
  simp only [Server.time, Server.now]
  omega

/-- A command whose arguments are in range, as `RedisOperationStore` sends it. -/
structure Request extends Args where
  fp_hex : hex64 fp = true
  durable_ref : reference durable 128 = true
  owner_hex : cmd ≠ .read → hex64 owner = true
  lease_pos : 1 ≤ lease
  lease_le : lease ≤ 3600000
  lease_retention : lease ≤ retention
  retention_le : retention ≤ 2592000000
  result_ref : cmd = .complete → reference result 256 = true

/-- The `ARGV` of a command. -/
def Request.argv (q : Request) : List LuaString :=
  [q.cmd.text, q.fp, q.durable, q.owner, decimal q.lease, decimal q.retention, q.result]

inductive Action
  | advance (us : ℕ)
  | command (q : Request)

/-- One execution of the script on the key. -/
def Server.execute (L : Lua) (s : Server) (q : Request) : Outcome :=
  operationScript L 1 q.argv s.time (s.key.map Stored.raw)

/-- The effect of an action.  Redis drops the key when its PX has elapsed, behind the
millisecond of its deadline. -/
def Server.step (L : Lua) (s : Server) : Action → Server
  | .advance us =>
    { clock := s.clock + us
      key := s.key.filter fun st => (s.clock + us) / 1000 ≤ st.expiresAt }
  | .command q =>
    match (s.execute L q).write with
    | none => s
    | some (raw, ttl) => { s with key := some ⟨raw, s.now + ttl⟩ }

/-- The record under the key, as the script reads it. -/
def Server.record (L : Lua) (s : Server) : Option Record :=
  s.key.bind fun st => (L.decode st.raw).bind validateRecord

/-! ### From strings to records -/

theorem integer_eq {n lo hi : ℕ} (h1 : lo ≤ n) (h2 : n ≤ hi) : integer (some n) lo hi = some n := by
  simp [integer, h1, h2]

/-- Arguments in range pass every argument check of the script. -/
theorem operationScript_argv (L : Lua) (q : Request) (time : ℕ × ℕ) (raw : Option LuaString) :
    operationScript L 1 q.argv time raw = coordinate L q.toArgs time raw := by
  have hlease : L.tonumber (decimal q.lease) = some (q.lease : ℤ) :=
    L.tonumber_decimal _ (le_trans q.lease_le (by norm_num [maxSafeInteger]))
  have hret : L.tonumber (decimal q.retention) = some (q.retention : ℤ) :=
    L.tonumber_decimal _ (le_trans q.retention_le (by norm_num [maxSafeInteger]))
  have hid : ¬ (¬ hex64 q.fp = true ∨ ¬ reference q.durable 128 = true) := by
    simp [q.fp_hex, q.durable_ref]
  have hown : ¬ (q.cmd ≠ .read ∧ ¬ hex64 q.owner = true) :=
    fun h => h.2 (q.owner_hex h.1)
  have hres : ¬ (q.cmd = .complete ∧ ¬ reference q.result 256 = true) :=
    fun h => h.2 (q.result_ref h.1)
  simp only [operationScript, Request.argv, ne_eq, not_true_eq_false, if_false,
    Command.ofText_text, hid, hown, hlease, hret, integer_eq q.lease_pos q.lease_le,
    integer_eq q.lease_retention q.retention_le, hres]

/-- The stored string is a record in range, and its PX elapses at `retainUntilMs`. -/
structure Coherent (L : Lua) (s : Server) : Prop where
  size : ∀ st, s.key = some st → st.raw.length ≤ 2048
  live : ∀ st, s.key = some st → s.now ≤ st.expiresAt
  record : ∀ st, s.key = some st →
    ∃ r, s.record L = some r ∧ st.expiresAt = r.retainUntilMs

theorem coherent_absent (L : Lua) (clock : ℕ) : Coherent L ⟨clock, none⟩ := by
  constructor <;> intro st h <;> cases h

theorem Coherent.valid {L : Lua} {s : Server} {r : Record} (h : s.record L = some r) :
    r.Valid := by
  rw [Server.record, Option.bind_eq_some_iff] at h
  obtain ⟨st, -, h⟩ := h
  obtain ⟨t, -, h⟩ := Option.bind_eq_some_iff.mp h
  exact validateRecord_valid h

theorem Coherent.key_of_record {L : Lua} {s : Server} {r : Record} (hc : Coherent L s)
    (h : s.record L = some r) : ∃ st, s.key = some st ∧ st.expiresAt = r.retainUntilMs := by
  rw [Server.record, Option.bind_eq_some_iff] at h
  obtain ⟨st, hst, h⟩ := h
  obtain ⟨r', hr', hexp⟩ := hc.record st hst
  rw [Server.record, hst, Option.bind_some, h, Option.some_inj] at hr'
  exact ⟨st, hst, hr' ▸ hexp⟩

theorem Coherent.load_eq {L : Lua} {s : Server} (hc : Coherent L s) :
    load L (s.key.map Stored.raw) = .ok (s.record L) := by
  rcases hk : s.key with _ | st
  · simp [load, Server.record, hk]
  · obtain ⟨r, hr, -⟩ := hc.record st hk
    have hsize := hc.size st hk
    rw [Server.record, hk, Option.bind_some] at hr
    rw [Option.map_some, load, if_neg (by omega), hr, Server.record, hk, Option.bind_some, hr]

/-! ### The five transitions -/

/-- The record carries a lease of `owner` that has not expired at `now`. -/
def Record.LiveFor (r : Record) (owner : LuaString) (now : ℕ) : Prop :=
  r.state = .pending ∧ r.owner = owner ∧ now < r.leaseUntilMs

/-- What a command may do to the record, and what it then replies; the flag says
whether the record was written. -/
inductive Transition (a : Args) (now : ℕ) :
    Bool → Option Record → Option Record → Reply → Prop
  /-- Nothing is written and no lease is granted. -/
  | keep {r : Option Record} {reply : Reply} (hren : ∀ d, reply ≠ .renewed d)
      (hacq : ∀ o d, reply ≠ .acquired o d) : Transition a now false r r reply
  /-- The live owner begins again and is told how long its lease still runs. -/
  | reenter {r : Record} (hcmd : a.cmd = .begin) (hlive : r.LiveFor a.owner now) :
      Transition a now false (some r) (some r) (.acquired a.owner (r.leaseUntilMs - now))
  /-- A lease is granted on an absent record or over another owner's expired lease. -/
  | acquire {r : Option Record} {q : Record} (hcmd : a.cmd = .begin)
      (hr : ∀ p, r = some p →
        p.state = .pending ∧ p.owner ≠ a.owner ∧ p.leaseUntilMs ≤ now ∧
          p.retainUntilMs ≤ q.retainUntilMs)
      (hlive : q.LiveFor a.owner now) (hlease : q.leaseUntilMs = now + a.lease) :
      Transition a now true r (some q) (.acquired a.owner a.lease)
  /-- The live owner renews. -/
  | renew {r q : Record} (hcmd : a.cmd = .renew) (hlive : r.LiveFor a.owner now)
      (hq : q.LiveFor a.owner now) (hlease : q.leaseUntilMs = now + a.lease)
      (hret : r.retainUntilMs ≤ q.retainUntilMs) :
      Transition a now true (some r) (some q) (.renewed a.lease)
  /-- The live owner completes. -/
  | complete {r q : Record} (hcmd : a.cmd = .complete) (hlive : r.LiveFor a.owner now)
      (hq : q.state = .completed) (hown : q.owner = r.owner) (hres : q.resultRef = a.result)
      (hret : r.retainUntilMs ≤ q.retainUntilMs) :
      Transition a now true (some r) (some q) (.completed a.result)

/-- An outcome realises a transition: it writes exactly the record it leads to. -/
def Realizes (L : Lua) (a : Args) (now : ℕ) (r : Option Record) (o : Outcome) : Prop :=
  (o.write = none ∧ Transition a now false r r o.reply) ∨
  ∃ q : Record, Transition a now true r (some q) o.reply ∧ q.Valid ∧ now < q.retainUntilMs ∧
    (L.encode q.toTable).length ≤ 2048 ∧
    o.write = some (L.encode q.toTable, q.retainUntilMs - now)

theorem realizes_answer {L : Lua} {a : Args} {now : ℕ} {r : Option Record} {reply : Reply}
    (hren : ∀ d, reply ≠ .renewed d) (hacq : ∀ o d, reply ≠ .acquired o d) :
    Realizes L a now r (answer reply) :=
  .inl ⟨rfl, .keep hren hacq⟩

theorem realizes_fail {L : Lua} {a : Args} {now : ℕ} {r : Option Record} {e : ScriptError} :
    Realizes L a now r (fail e) :=
  .inl ⟨rfl, .keep (by simp [fail]) (by simp [fail])⟩

/-- `persist` either fails without a write or writes the record it was given. -/
theorem realizes_persist {L : Lua} {a : Args} {now : ℕ} {r : Option Record} {q : Record}
    {reply : Reply} (h : q.Valid → Transition a now true r (some q) reply) :
    Realizes L a now r (persist L now q reply) := by
  unfold persist
  rcases henc : encodeRecordChecked L q with _ | encoded
  · exact realizes_fail
  · unfold encodeRecordChecked at henc
    split at henc
    · simp at henc
    · next hv =>
      rw [Option.isNone_iff_eq_none, ← ne_eq, Option.ne_none_iff_exists'] at hv
      obtain ⟨q', hq'⟩ := hv
      have hvalid : q.Valid := eq_of_validateRecord_toTable hq' ▸ validateRecord_valid hq'
      split at henc
      · simp at henc
      · next hlen =>
        rw [Option.some_inj] at henc
        subst henc
        by_cases httl : 1 ≤ q.retainUntilMs - now ∧ q.retainUntilMs - now ≤ 2592000000
        · simp only [httl, and_self, if_true]
          exact .inr ⟨q, h hvalid, hvalid, by omega, by omega, rfl⟩
        · simp only [httl, if_false]
          exact realizes_fail

theorem le_retainedDeadline (a : Args) (now : ℕ) (r : Record) :
    r.retainUntilMs ≤ retainedDeadline a now (some r) := by
  simp [retainedDeadline]

theorem realizes_beginCommand {L : Lua} {a : Args} {now : ℕ} {r : Option Record}
    (hcmd : a.cmd = .begin) (hlease : 1 ≤ a.lease)
    (hpend : ∀ p, r = some p → p.state = .pending) :
    Realizes L a now r (beginCommand L a now r) := by
  have hacquire : (∀ p, r = some p → p.owner ≠ a.owner ∧ p.leaseUntilMs ≤ now) →
      Realizes L a now r (persist L now
        ⟨a.fp, a.durable, a.owner, .pending, now + a.lease, retainedDeadline a now r, []⟩
        (.acquired a.owner a.lease)) := by
    intro hr
    refine realizes_persist fun _ => .acquire hcmd (fun p hp => ?_) ⟨rfl, rfl, ?_⟩ rfl
    · obtain ⟨hown, hexp⟩ := hr p hp
      refine ⟨hpend p hp, hown, hexp, ?_⟩
      rw [hp]
      exact le_retainedDeadline a now p
    · show now < now + a.lease
      omega
  unfold beginCommand
  rcases r with _ | p
  · exact hacquire fun p hp => by cases hp
  · simp only
    split
    · next hrem =>
      rw [remaining] at hrem
      split
      · next hown =>
        exact .inl ⟨rfl, .reenter hcmd ⟨hpend p rfl, hown, by omega⟩⟩
      · exact realizes_answer (by simp) (by simp)
    · next hrem =>
      rw [remaining] at hrem
      split
      · exact realizes_fail
      · next hown =>
        refine hacquire fun p' hp' => ?_
        rw [Option.some_inj] at hp'
        subst hp'
        exact ⟨hown, by omega⟩

theorem realizes_readCommand {L : Lua} {a : Args} {now : ℕ} (r : Option Record) :
    Realizes L a now r (readCommand now r) := by
  rcases r with _ | p
  · exact realizes_answer (by simp) (by simp)
  · simp only [readCommand]
    split
    · exact realizes_answer (by simp) (by simp)
    · split
      · exact realizes_answer (by simp) (by simp)
      · exact realizes_answer (by simp) (by simp)

theorem realizes_completedCommand {L : Lua} {a : Args} {now : ℕ} (r : Option Record)
    (q : Record) : Realizes L a now r (completedCommand a q) := by
  unfold completedCommand
  split
  · exact realizes_answer (by simp) (by simp)
  · split
    · exact realizes_answer (by simp) (by simp)
    · exact realizes_answer (by simp) (by simp)

/-- Every path through the script is one of the five transitions. -/
theorem realizes_transition {L : Lua} {a : Args} {now : ℕ} {r : Option Record}
    (hlease : 1 ≤ a.lease) : Realizes L a now r (transition L a now r) := by
  unfold transition
  split
  · exact realizes_readCommand r
  · next hread =>
    split
    · exact realizes_completedCommand r _
    · next hfilter =>
      have hpend : ∀ p, r = some p → p.state = .pending := by
        rintro p rfl
        cases hst : p.state with
        | pending => rfl
        | completed => exact absurd (by simp [Option.filter, hst]) (hfilter p)
      split
      · next hcmd => exact realizes_beginCommand hcmd hlease hpend
      · next hbegin =>
        rcases r with _ | p
        · exact realizes_answer (by simp) (by simp)
        · simp only
          split
          · exact realizes_answer (by simp) (by simp)
          · next hown =>
            rw [not_or, not_not, remaining] at hown
            have hlive : p.LiveFor a.owner now := ⟨hpend p rfl, hown.1, by omega⟩
            split
            · next hren =>
              refine realizes_persist fun _ => .renew hren hlive ⟨hlive.1, hlive.2.1, ?_⟩ rfl
                (le_retainedDeadline a now p)
              show now < now + a.lease
              omega
            · next hren =>
              have hcmd : a.cmd = .complete := by
                cases h : a.cmd <;> simp_all
              exact realizes_persist fun _ =>
                .complete hcmd hlive rfl rfl rfl (le_retainedDeadline a now p)

theorem realizes_execute {L : Lua} {s : Server} (hc : Coherent L s) (q : Request) :
    Realizes L q.toArgs s.now (s.record L) (s.execute L q) := by
  rw [Server.execute, operationScript_argv, coordinate, hc.load_eq]
  simp only [Server.time_now]
  split
  · exact realizes_answer (by simp) (by simp)
  · split
    · exact realizes_transition q.lease_pos
    · exact realizes_fail

/-! ### Steps -/

/-- A command takes the record through one transition and keeps the key coherent. -/
theorem command_transition {L : Lua} {s : Server} (hc : Coherent L s) (q : Request) :
    (∃ wrote, Transition q.toArgs s.now wrote (s.record L) ((s.step L (.command q)).record L)
        (s.execute L q).reply ∧ (wrote = false → s.step L (.command q) = s)) ∧
      (s.step L (.command q)).now = s.now ∧ Coherent L (s.step L (.command q)) := by
  rcases realizes_execute hc q with ⟨hw, ht⟩ | ⟨p, ht, hv, hnow, hlen, hw⟩
  · have hstep : s.step L (.command q) = s := by simp only [Server.step, hw]
    rw [hstep]
    exact ⟨⟨false, ht, fun _ => rfl⟩, rfl, hc⟩
  · have hrec : (s.step L (.command q)).record L = some p := by
      simp only [Server.step, hw, Server.record, Option.bind_some, L.decode_encode p hv,
        validateRecord_toTable hv]
    refine ⟨⟨true, hrec ▸ ht, fun h => by cases h⟩, by simp only [Server.step, hw, Server.now], ?_⟩
    have hkey : (s.step L (.command q)).key =
        some ⟨L.encode p.toTable, s.now + (p.retainUntilMs - s.now)⟩ := by
      simp only [Server.step, hw]
    have hnow' : (s.step L (.command q)).now = s.now := by
      simp only [Server.step, hw, Server.now]
    constructor
    · intro st hst
      rw [hkey, Option.some_inj] at hst
      subst hst
      exact hlen
    · intro st hst
      rw [hkey, Option.some_inj] at hst
      subst hst
      rw [hnow']
      exact Nat.le_add_right ..
    · intro st hst
      rw [hkey, Option.some_inj] at hst
      subst hst
      refine ⟨p, hrec, ?_⟩
      show s.now + (p.retainUntilMs - s.now) = p.retainUntilMs
      omega

/-- Time passes: the record stays as it is until its retention has elapsed. -/
theorem advance_record {L : Lua} {s : Server} (hc : Coherent L s) (us : ℕ) :
    s.now ≤ (s.step L (.advance us)).now ∧
      ((s.step L (.advance us)).record L = s.record L ∧
          (s.step L (.advance us)).key = s.key ∨
        (s.step L (.advance us)).record L = none ∧ (s.step L (.advance us)).key = none ∧
          ∀ r, s.record L = some r → r.retainUntilMs ≤ (s.step L (.advance us)).now) := by
  constructor
  · simp only [Server.step, Server.now]
    omega
  · rcases hk : s.key with _ | st
    · left
      simp [Server.step, Server.record, hk]
    · by_cases hlive : (s.clock + us) / 1000 ≤ st.expiresAt
      · left
        simp [Server.step, Server.record, hk, Option.filter, hlive]
      · right
        refine ⟨by simp [Server.step, Server.record, hk, Option.filter, hlive],
          by simp [Server.step, hk, Option.filter, hlive], fun r hr => ?_⟩
        obtain ⟨st', hst', hexp⟩ := hc.key_of_record hr
        rw [hk, Option.some_inj] at hst'
        subst hst'
        rw [← hexp]
        exact (not_le.mp hlive).le

theorem coherent_step {L : Lua} {s : Server} (hc : Coherent L s) (a : Action) :
    Coherent L (s.step L a) := by
  cases a with
  | command q => exact (command_transition hc q).2.2
  | advance us =>
    have hkey : ∀ st, (s.step L (.advance us)).key = some st →
        s.key = some st ∧ (s.step L (.advance us)).now ≤ st.expiresAt := by
      intro st hst
      simp only [Server.step, Option.filter_eq_some_iff, decide_eq_true_eq] at hst
      exact hst
    constructor
    · exact fun st hst => hc.size st (hkey st hst).1
    · exact fun st hst => (hkey st hst).2
    · intro st hst
      obtain ⟨r, hr, hexp⟩ := hc.record st (hkey st hst).1
      refine ⟨r, ?_, hexp⟩
      rw [Server.record, (hkey st hst).1] at hr
      rw [Server.record, hst]
      exact hr

end Transactions
