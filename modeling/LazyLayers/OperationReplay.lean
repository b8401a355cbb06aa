/-
A completed operation is terminal.

Once a result has been recorded, every command is answered from the record and
none of them writes it (`execute_completed`), so the record stands until Redis
drops it at `retainUntilMs` (`key_of_completed`).  Retention is never shortened
by a command that keeps the record (`retain_mono`).

The time check of the script comes before the replay: near the end of the range
of exact integers a command with a long retention is refused although the
result is recorded (`begin_after_complete_refused`).
-/
import LazyLayers.OperationLeases

open Runs

namespace Transactions

variable {L : Lua} {clock : ℕ} {acts : List Action}

/-- The answer to a command on the completed record `r`. -/
def completedReply (a : Args) (now : ℕ) (r : Record) : Reply :=
  if r.fingerprint ≠ a.fp ∨ r.durableId ≠ a.durable then .conflict
  else if now + a.retention ≤ maxSafeInteger then
    match a.cmd with
    | .begin | .read => .completed r.resultRef
    | .renew => .lost
    | .complete => if r.resultRef = a.result then .completed r.resultRef else .conflict
  else .error .invalidTime

/-- On a completed record every command is answered from the record, unwritten. -/
theorem execute_completed {s : Server} (hc : Coherent L s) {r : Record}
    (hr : s.record L = some r) (hst : r.state = .completed) (q : Request) :
    s.execute L q = answer (completedReply q.toArgs s.now r) := by
  rw [Server.execute, operationScript_argv, coordinate, hc.load_eq, hr]
  simp only [Server.time_now, Option.any_some, completedReply]
  by_cases hid : r.fingerprint ≠ q.fp ∨ r.durableId ≠ q.durable
  · rw [if_pos (by simpa using hid), if_pos hid]
  · rw [if_neg (by simpa using hid), if_neg hid]
    by_cases htime : s.now + q.retention ≤ maxSafeInteger
    · rw [if_pos htime, if_pos htime, transition]
      have hfilter : (some r).filter (fun r => decide (r.state = .completed)) = some r := by
        simp [Option.filter, hst]
      cases hcmd : q.cmd with
      | read => rw [if_pos rfl, readCommand, if_pos hst]
      | begin =>
        rw [if_neg (by simp), hfilter]
        simp [completedCommand, hcmd]
      | renew =>
        rw [if_neg (by simp), hfilter]
        simp [completedCommand, hcmd]
      | complete =>
        rw [if_neg (by simp), hfilter]
        by_cases hres : r.resultRef = q.result
        · simp [completedCommand, hcmd, hres]
        · simp [completedCommand, hcmd, hres]
    · rw [if_neg htime, if_neg htime]
      rfl

theorem Server.now_le_step (s : Server) (a : Action) : s.now ≤ (s.step L a).now := by
  cases a with
  | advance us =>
    simp only [Server.step, Server.now]
    omega
  | command q =>
    simp only [Server.step, Server.now]
    split <;> exact le_rfl

/-- The stored string survives until the retention of its record has elapsed. -/
theorem key_of_completed {i : ℕ} {r : Record} (hr : (Server.at L clock acts i).record L = some r)
    (hst : r.state = .completed) (j : ℕ) (hij : i ≤ j) :
    (Server.at L clock acts j).key = (Server.at L clock acts i).key ∨
      r.retainUntilMs ≤ (Server.at L clock acts j).now := by
  have hrec : ∀ {s : Server}, s.key = (Server.at L clock acts i).key → s.record L = some r := by
    intro s hs
    rw [Server.record, hs]
    exact hr
  have hinv : ∀ j, i ≤ j → Coherent L (Server.at L clock acts j) ∧
      ((Server.at L clock acts j).key = (Server.at L clock acts i).key ∨
        r.retainUntilMs ≤ (Server.at L clock acts j).now) := by
    refine invariant_from (P := fun s => Coherent L s ∧
      (s.key = (Server.at L clock acts i).key ∨ r.retainUntilMs ≤ s.now))
      ⟨coherent_at L clock acts i, .inl rfl⟩ ?_
    rintro m a - - ⟨hcoh, hkey⟩
    refine ⟨coherent_step hcoh a, ?_⟩
    rcases hkey with hkey | hgone
    · cases a with
      | command q =>
        left
        rw [Server.step, execute_completed hcoh (hrec hkey) hst]
        exact hkey
      | advance us =>
        rcases (advance_record hcoh us).2 with ⟨-, hsame⟩ | ⟨-, -, hret⟩
        · exact .inl (hsame.trans hkey)
        · exact .inr (hret r (hrec hkey))
    · exact .inr (le_trans hgone (Server.now_le_step _ a))
  exact (hinv j hij).2

/-- A command that finds a record and leaves one does not shorten its retention. -/
theorem retain_mono {n : ℕ} {q : Request} {r r' : Record}
    (hget : acts[n]? = some (.command q)) (hr : (Server.at L clock acts n).record L = some r)
    (hr' : (Server.at L clock acts (n + 1)).record L = some r') :
    r.retainUntilMs ≤ r'.retainUntilMs := by
  obtain ⟨wrote, ht, -, -⟩ := transition_at (repliedAt L clock hget)
  rw [hr, hr'] at ht
  generalize ((Server.at L clock acts n).execute L q).reply = reply at ht
  cases ht with
  | keep hren hacq => exact le_rfl
  | reenter hcmd hlive => exact le_rfl
  | acquire hcmd hp hlive hlease => exact (hp r rfl).2.2.2
  | renew hcmd hlive hq hlease hret => exact hret
  | complete hcmd hlive hq hown hres hret => exact hret

/-- **A completed operation is terminal.**  From the moment the record holds the
result until its retention has elapsed, the stored string does not change and
commands are answered from it: another fingerprint or durable id is a conflict;
for the same identity `begin` and `read` replay the result, `complete` replays
it or reports a conflicting result and `renew` reports the lease as lost, as
long as the command's own retention ends within the exact integers, and the
command is refused as `TX_INVALID_TIME` otherwise.  Along the whole run, no
command that keeps the record shortens its retention. -/
theorem completed_terminal (L : Lua) (clock : ℕ) (acts : List Action) :
    (∀ i r, (Server.at L clock acts i).record L = some r → r.state = .completed →
      ∀ j, i ≤ j → (Server.at L clock acts j).now < r.retainUntilMs →
        (Server.at L clock acts j).key = (Server.at L clock acts i).key ∧
        ∀ q, acts[j]? = some (.command q) →
          (Server.at L clock acts (j + 1)).key = (Server.at L clock acts i).key ∧
          (q.fp ≠ r.fingerprint ∨ q.durable ≠ r.durableId →
            RepliedAt L clock acts j q .conflict) ∧
          (q.fp = r.fingerprint → q.durable = r.durableId →
            (Server.at L clock acts j).now + q.retention ≤ maxSafeInteger →
            (q.cmd = .begin ∨ q.cmd = .read →
              RepliedAt L clock acts j q (.completed r.resultRef)) ∧
            (q.cmd = .complete → q.result = r.resultRef →
              RepliedAt L clock acts j q (.completed r.resultRef)) ∧
            (q.cmd = .complete → q.result ≠ r.resultRef → RepliedAt L clock acts j q .conflict) ∧
            (q.cmd = .renew → RepliedAt L clock acts j q .lost)) ∧
          (q.fp = r.fingerprint → q.durable = r.durableId →
            maxSafeInteger < (Server.at L clock acts j).now + q.retention →
            RepliedAt L clock acts j q (.error .invalidTime))) ∧
    (∀ n q r r', acts[n]? = some (.command q) →
      (Server.at L clock acts n).record L = some r →
      (Server.at L clock acts (n + 1)).record L = some r' →
      r.retainUntilMs ≤ r'.retainUntilMs) := by
  refine ⟨fun i r hr hst j hij hlive => ?_, fun n q r r' => retain_mono⟩
  have hkey : (Server.at L clock acts j).key = (Server.at L clock acts i).key := by
    rcases key_of_completed hr hst j hij with h | h
    · exact h
    · omega
  have hrj : (Server.at L clock acts j).record L = some r := by
    rw [Server.record, hkey]
    exact hr
  refine ⟨hkey, fun q hget => ?_⟩
  have hexec := execute_completed (coherent_at L clock acts j) hrj hst q
  have hrep : ∀ reply, completedReply q.toArgs (Server.at L clock acts j).now r = reply →
      RepliedAt L clock acts j q reply :=
    fun reply h => ⟨hget, by rw [hexec]; exact h⟩
  refine ⟨?_, fun hid => hrep _ ?_, fun hfp hdur htime => ?_, fun hfp hdur htime => hrep _ ?_⟩
  · rw [Server.at_succ hget, Server.step, hexec]
    exact hkey
  · rw [completedReply, if_pos (by rcases hid with h | h; exacts [.inl h.symm, .inr h.symm])]
  · have hid : ¬ (r.fingerprint ≠ q.fp ∨ r.durableId ≠ q.durable) := by simp [hfp, hdur]
    refine ⟨fun hcmd => hrep _ ?_, fun hcmd hres => hrep _ ?_, fun hcmd hres => hrep _ ?_,
      fun hcmd => hrep _ ?_⟩
    · rw [completedReply, if_neg hid, if_pos htime]
      rcases hcmd with hcmd | hcmd <;> rw [hcmd]
    · simp only [completedReply, if_neg hid, if_pos htime, hcmd, hres, if_true]
    · simp only [completedReply, if_neg hid, if_pos htime, hcmd, Ne.symm hres, if_false]
    · simp only [completedReply, if_neg hid, if_pos htime, hcmd]
  · have hid : ¬ (r.fingerprint ≠ q.fp ∨ r.durableId ≠ q.durable) := by simp [hfp, hdur]
    rw [completedReply, if_neg hid, if_neg (by omega)]

/-! ### The time check comes first -/

/-- The last milliseconds at which a short retention still ends in range. -/
def lateClock : ℕ := 9007199254740989 * 1000

def lateBegin : Request :=
  sampleRequest .begin 97 hex64_97 1 2 (by decide) (by decide) (by decide) (by decide)

def lateComplete : Request :=
  sampleRequest .complete 97 hex64_97 1 2 (by decide) (by decide) (by decide) (by decide)

def lateReplay : Request :=
  sampleRequest .begin 98 hex64_98 1 3 (by decide) (by decide) (by decide) (by decide)

/-- An operation is begun and completed, and a peer with a longer retention asks for it. -/
def lateRun : List Action := [.command lateBegin, .command lateComplete, .command lateReplay]

/-- The recorded result is not replayed to a `begin` whose own retention would
leave the exact integers. -/
theorem begin_after_complete_refused :
    ¬ ∀ (acts : List Action) (i j : ℕ) (r : Record) (q : Request),
      (Server.at referenceLua lateClock acts i).record referenceLua = some r →
      r.state = .completed → i ≤ j →
      (Server.at referenceLua lateClock acts j).now < r.retainUntilMs →
      acts[j]? = some (.command q) → q.cmd = .begin → q.fp = r.fingerprint →
      q.durable = r.durableId →
      RepliedAt referenceLua lateClock acts j q (.completed r.resultRef) := by
  intro h
  have hrec : (Server.at referenceLua lateClock lateRun 2).record referenceLua =
      some ⟨List.replicate 64 99, lua "reservation-1", List.replicate 64 97, .completed, 0,
        9007199254740991, lua "result-1"⟩ := by decide +kernel
  have hrep := (h lateRun 2 2 _ lateReplay hrec rfl le_rfl (by decide +kernel) rfl rfl rfl rfl).2
  have hrefused : ((Server.at referenceLua lateClock lateRun 2).execute referenceLua
      lateReplay).reply = .error .invalidTime := by decide +kernel
  rw [hrefused] at hrep
  cases hrep

end Transactions
