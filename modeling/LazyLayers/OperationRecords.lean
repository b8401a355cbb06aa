/-
The coordination script writes only records it accepts, and nothing on error.

Any client may call the script with any arguments, so a run here is a list of
raw invocations.  The invariant is what the stored string can be: the encoding
of a record in range that Redis keeps for at most the longest retention.

* `Outcome.Atomic` — an error reply writes nothing, on every path;
* `length_renderFields` — the size of a record on the wire, whatever the order in
  which `cjson` visits its fields;
* `Kept` — the invariant, preserved by `kept_step`;
* `script_atomic_and_closed` — both halves together.
-/
import LazyLayers.OperationLeases

open Runs

namespace Transactions

/-! ### Errors write nothing -/

/-- An error reply comes without a write. -/
def Outcome.Atomic (o : Outcome) : Prop := ∀ e, o.reply = .error e → o.write = none

theorem atomic_fail (e : ScriptError) : (fail e).Atomic := fun _ _ => rfl

theorem atomic_answer (reply : Reply) : (answer reply).Atomic := fun _ _ => rfl

theorem atomic_persist {L : Lua} {now : ℕ} {q : Record} {reply : Reply}
    (h : ∀ e, reply ≠ .error e) : (persist L now q reply).Atomic := by
  unfold persist
  split
  · exact atomic_fail _
  · dsimp only
    split
    · intro e he
      exact absurd he (h e)
    · exact atomic_fail _

theorem atomic_transition (L : Lua) (a : Args) (now : ℕ) (r : Option Record) :
    (transition L a now r).Atomic := by
  unfold transition
  split
  · rcases r with _ | r
    · exact atomic_answer _
    · rw [readCommand]
      split
      · exact atomic_answer _
      · split <;> exact atomic_answer _
  · split
    · unfold completedCommand
      split
      · exact atomic_answer _
      · split <;> exact atomic_answer _
    · split
      · rcases r with _ | r
        · exact atomic_persist (by simp)
        · unfold beginCommand
          dsimp only
          split
          · split <;> exact atomic_answer _
          · split
            · exact atomic_fail _
            · exact atomic_persist (by simp)
      · split
        · exact atomic_answer _
        · split
          · exact atomic_answer _
          · split
            · exact atomic_persist (by simp)
            · exact atomic_persist (by simp)

/-- On every path of the script an error reply comes without a write. -/
theorem atomic_operationScript (L : Lua) (numKeys : ℕ) (argv : List LuaString) (time : ℕ × ℕ)
    (raw : Option LuaString) : (operationScript L numKeys argv time raw).Atomic := by
  rw [operationScript_eq]
  split
  · exact atomic_fail _
  · unfold coordinate
    split
    · exact atomic_fail _
    · split
      · exact atomic_answer _
      · dsimp only
        split
        · exact atomic_transition L _ _ _
        · exact atomic_fail _

/-! ### The size of a record -/

/-- How `cjson.encode` writes the table of a record: an object with its fields in
the order in which `pairs` visits them, the slash escaped. -/
def CjsonWrites (L : Lua) : Prop :=
  ∀ r : Record, r.Valid → ∃ fs, fs.Perm r.fields ∧ L.encode r.toTable = 123 :: renderFields fs

theorem cjsonWrites_referenceLua : CjsonWrites referenceLua :=
  fun r _ => ⟨r.fields, .refl _, referenceEncode_toTable r⟩

theorem length_renderFields :
    ∀ fs : List (LuaString × LuaScalar), fs ≠ [] →
      (renderFields fs).length = (fs.map fun f => (fieldText f).length).sum + fs.length
  | [], h => absurd rfl h
  | [f], _ => by simp [renderFields]
  | f :: g :: fs, _ => by
    have ih := length_renderFields (g :: fs) (by simp)
    rw [show renderFields (f :: g :: fs) = fieldText f ++ 44 :: renderFields (g :: fs) from rfl,
      List.length_append, List.length_cons, ih]
    simp only [List.map_cons, List.sum_cons, List.length_cons]
    omega

theorem length_escape_le (s : LuaString) : (escape s).length ≤ 2 * s.length := by
  induction s with
  | nil => simp [escape]
  | cons b s ih =>
    rw [escape, List.length_cons]
    split
    · rw [List.length_cons, List.length_cons]
      omega
    · rw [List.length_cons]
      omega

/-- The text of a string field is at most twice the string and its key. -/
theorem length_fieldText_string (k s : LuaString) :
    (fieldText (k, .string s)).length ≤ 2 * k.length + 2 * s.length + 5 := by
  have hk := length_escape_le k
  have hs := length_escape_le s
  simp only [fieldText, scalarText, List.length_append, List.length_cons, List.length_nil]
  omega

theorem length_hex64 {s : LuaString} (h : hex64 s = true) : s.length = 64 := by
  rw [hex64, Bool.and_eq_true, Bool.and_eq_true, beq_iff_eq] at h
  exact h.1.2

theorem length_reference {s : LuaString} {cap : ℕ} (h : reference s cap = true) :
    s.length ≤ cap := by
  rw [reference, bounded, Bool.and_eq_true, Bool.and_eq_true, decide_eq_true_eq,
    decide_eq_true_eq] at h
  exact h.1.2

theorem length_resultRef {r : Record} (h : r.Valid) : r.resultRef.length ≤ 256 := by
  cases hst : r.state with
  | pending => rw [(h.pending hst).2.2]; simp
  | completed => exact length_reference (h.completed hst).2

theorem length_stateText (st : OperationState) : st.text.length ≤ 9 := by
  cases st <;> decide

/-- A record in range fits in 2048 octets, in whatever order its fields are written. -/
theorem length_encode_le {L : Lua} (hcjson : CjsonWrites L) {r : Record} (h : r.Valid) :
    (L.encode r.toTable).length ≤ 2048 := by
  obtain ⟨fs, hperm, henc⟩ := hcjson r h
  have hne : fs ≠ [] := by
    rintro rfl
    have := hperm.length_eq
    simp [Record.fields] at this
  have hsum : (fs.map fun f => (fieldText f).length).sum =
      (r.fields.map fun f => (fieldText f).length).sum := (hperm.map _).sum_eq
  have hlen : fs.length = 8 := hperm.length_eq
  rw [henc, List.length_cons, length_renderFields fs hne, hsum, hlen]
  have hfp := length_fieldText_string (lua "fingerprint") r.fingerprint
  have hdur := length_fieldText_string (lua "durableId") r.durableId
  have hown := length_fieldText_string (lua "owner") r.owner
  have hst := length_fieldText_string (lua "state") r.state.text
  have hlease := length_fieldText_string (lua "leaseUntilMs") (decimal r.leaseUntilMs)
  have hret := length_fieldText_string (lua "retainUntilMs") (decimal r.retainUntilMs)
  have hres := length_fieldText_string (lua "resultRef") r.resultRef
  have hschema : (fieldText (lua "schema", .number 1)).length = 10 := by decide
  have hkeys : (lua "fingerprint").length = 11 ∧ (lua "durableId").length = 9 ∧
      (lua "owner").length = 5 ∧ (lua "state").length = 5 ∧ (lua "leaseUntilMs").length = 12 ∧
      (lua "retainUntilMs").length = 13 ∧ (lua "resultRef").length = 9 := by decide
  have h1 := length_hex64 h.fingerprint
  have h2 := length_hex64 h.owner
  have h3 := length_reference h.durableId
  have h4 := length_stateText r.state
  have h5 := length_decimal_le h.leaseUntil
  have h6 := length_decimal_le h.retainUntil
  have h7 := length_resultRef h
  simp only [Record.fields, List.map_cons, List.map_nil, List.sum_cons, List.sum_nil]
  omega

/-! ### Runs of arbitrary invocations -/

/-- Time passes, or some client calls the script with some arguments. -/
inductive Invocation
  | advance (us : ℕ)
  | call (numKeys : ℕ) (argv : List LuaString)

/-- One execution of the script with arbitrary arguments. -/
def Server.call (L : Lua) (s : Server) (numKeys : ℕ) (argv : List LuaString) : Outcome :=
  operationScript L numKeys argv s.time (s.key.map Stored.raw)

/-- The effect of an invocation; Redis drops the key when its PX has elapsed. -/
def Server.invoke (L : Lua) (s : Server) : Invocation → Server
  | .advance us =>
    { clock := s.clock + us
      key := s.key.filter fun st => (s.clock + us) / 1000 ≤ st.expiresAt }
  | .call numKeys argv =>
    match (s.call L numKeys argv).write with
    | none => s
    | some (raw, ttl) => { s with key := some ⟨raw, s.now + ttl⟩ }

/-- The longest time to live that is ever set. -/
def maxRetention : ℕ := 2592000000

/-- What the stored string can be. -/
def Kept (L : Lua) (s : Server) : Prop :=
  ∀ st, s.key = some st → ∃ r : Record, r.Valid ∧ st.raw = L.encode r.toTable ∧
    st.expiresAt = r.retainUntilMs ∧ s.now ≤ r.retainUntilMs ∧
      r.retainUntilMs ≤ s.now + maxRetention

variable {L : Lua} {s : Server}

/-- A kept string is read back as the record it encodes. -/
theorem Kept.load (hcjson : CjsonWrites L) (h : Kept L s) :
    ∃ r, load L (s.key.map Stored.raw) = .ok r ∧ ∀ q, r = some q →
      q.Valid ∧ s.now ≤ q.retainUntilMs ∧ q.retainUntilMs ≤ s.now + maxRetention := by
  rcases hk : s.key with _ | st
  · refine ⟨none, rfl, ?_⟩
    intro q hq
    cases hq
  · obtain ⟨r, hv, hraw, -, hlive, hmax⟩ := h st hk
    refine ⟨some r, ?_, ?_⟩
    · have hlen := length_encode_le hcjson hv
      rw [Option.map_some, Transactions.load, hraw, if_neg (by omega), L.decode_encode r hv,
        Option.bind_some, validateRecord_toTable hv]
    · intro q hq
      cases hq
      exact ⟨hv, hlive, hmax⟩

/-- What the script may do to the key: nothing, or store a record in range. -/
def Writes (L : Lua) (now : ℕ) (o : Outcome) : Prop :=
  (o.reply ≠ .error .invalidRecord ∧ o.reply ≠ .error .invalidTtl) ∧
    ∀ raw ttl, o.write = some (raw, ttl) → 1 ≤ ttl ∧ ttl ≤ maxRetention ∧
      ∃ q : Record, q.Valid ∧ raw = L.encode q.toTable ∧ q.retainUntilMs = now + ttl

theorem writes_answer {now : ℕ} {reply : Reply} (h : ∀ e, reply ≠ .error e) :
    Writes L now (answer reply) :=
  ⟨⟨h _, h _⟩, fun _ _ hw => by cases hw⟩

theorem writes_fail {now : ℕ} {e : ScriptError} (h1 : e ≠ .invalidRecord) (h2 : e ≠ .invalidTtl) :
    Writes L now (fail e) :=
  ⟨⟨fun h => h1 (by cases h; rfl), fun h => h2 (by cases h; rfl)⟩, fun _ _ hw => by cases hw⟩

/-- A record in range whose retention is ahead and not too far is stored. -/
theorem writes_persist (hcjson : CjsonWrites L) {now : ℕ} {q : Record} {reply : Reply}
    (hreply : ∀ e, reply ≠ .error e) (hv : q.Valid) (hlive : now < q.retainUntilMs)
    (hmax : q.retainUntilMs ≤ now + maxRetention) : Writes L now (persist L now q reply) := by
  have henc : encodeRecordChecked L q = some (L.encode q.toTable) := by
    have hlen := length_encode_le hcjson hv
    rw [encodeRecordChecked, validateRecord_toTable hv, if_neg (by simp), if_neg (by omega)]
  have httl : 1 ≤ q.retainUntilMs - now ∧ q.retainUntilMs - now ≤ 2592000000 := by
    rw [maxRetention] at hmax
    omega
  rw [persist, henc]
  dsimp only
  rw [if_pos httl]
  refine ⟨⟨hreply _, hreply _⟩, ?_⟩
  intro raw ttl hw
  cases hw
  exact ⟨httl.1, httl.2, q, hv, rfl, by omega⟩

section Transition

variable {a : Args} {now : ℕ} {r : Option Record}

/-- What is known of the record when a transition is chosen. -/
def Retained (now : ℕ) (r : Option Record) : Prop :=
  ∀ q, r = some q → q.Valid ∧ now ≤ q.retainUntilMs ∧ q.retainUntilMs ≤ now + maxRetention

/-- The retention of the next record covers the lease and is not too far ahead. -/
theorem retainedDeadline_bounds (ha : a.InRange) (htime : now + a.retention ≤ maxSafeInteger)
    (hr : Retained now r) :
    now + a.lease ≤ retainedDeadline a now r ∧ now < retainedDeadline a now r ∧
      retainedDeadline a now r ≤ maxSafeInteger ∧
      retainedDeadline a now r ≤ now + maxRetention := by
  have h1 := ha.lease_pos
  have h2 := ha.lease_retention
  have h3 := ha.retention_le
  rcases r with _ | q
  · simp only [retainedDeadline, Option.map_none, Option.getD_none, maxRetention]
    omega
  · obtain ⟨hv, -, hmax⟩ := hr q rfl
    have h4 := hv.retainUntil
    rw [maxRetention] at hmax ⊢
    simp only [retainedDeadline, Option.map_some, Option.getD_some]
    omega

theorem writes_beginCommand (hcjson : CjsonWrites L) (hcmd : a.cmd = .begin) (ha : a.InRange)
    (htime : now + a.retention ≤ maxSafeInteger) (hr : Retained now r) :
    Writes L now (beginCommand L a now r) := by
  obtain ⟨hlease, hlive, hsafe, hmax⟩ := retainedDeadline_bounds ha htime hr
  have hacquire : Writes L now (persist L now
      ⟨a.fp, a.durable, a.owner, .pending, now + a.lease, retainedDeadline a now r, []⟩
      (.acquired a.owner a.lease)) := by
    refine writes_persist hcjson (by simp) ?_ hlive hmax
    have hpos := ha.lease_pos
    refine ⟨ha.fp, ha.owner (by rw [hcmd]; decide), ha.durable, le_trans hlease hsafe, hsafe,
      Nat.lt_of_le_of_lt (Nat.zero_le _) hlive, fun _ => ⟨?_, hlease, rfl⟩, fun h => by cases h⟩
    show 0 < now + a.lease
    omega
  rcases r with _ | q
  · exact hacquire
  · unfold beginCommand
    dsimp only
    split
    · split <;> exact writes_answer (by simp)
    · split
      · exact writes_fail (by decide) (by decide)
      · exact hacquire

theorem writes_transition (hcjson : CjsonWrites L) (ha : a.InRange)
    (htime : now + a.retention ≤ maxSafeInteger) (hr : Retained now r) :
    Writes L now (transition L a now r) := by
  obtain ⟨hlease, hlive, hsafe, hmax⟩ := retainedDeadline_bounds ha htime hr
  unfold transition
  split
  · rcases r with _ | q
    · exact writes_answer (by simp)
    · rw [readCommand]
      split
      · exact writes_answer (by simp)
      · split <;> exact writes_answer (by simp)
  · next hread =>
    split
    · unfold completedCommand
      split
      · exact writes_answer (by simp)
      · split <;> exact writes_answer (by simp)
    · next hfilter =>
      split
      · next hcmd => exact writes_beginCommand hcjson hcmd ha htime hr
      · next hbegin =>
        rcases r with _ | q
        · exact writes_answer (by simp)
        · obtain ⟨hv, -, -⟩ := hr q rfl
          have hpend : q.state = .pending := by
            cases hst : q.state with
            | pending => rfl
            | completed => exact absurd (by simp [Option.filter, hst]) (hfilter q)
          dsimp only
          split
          · exact writes_answer (by simp)
          · split
            · have hpos := ha.lease_pos
              refine writes_persist hcjson (by simp) ?_ hlive hmax
              refine ⟨hv.fingerprint, hv.owner, hv.durableId, le_trans hlease hsafe, hsafe,
                Nat.lt_of_le_of_lt (Nat.zero_le _) hlive,
                fun _ => ⟨?_, hlease, (hv.pending hpend).2.2⟩,
                fun h => by rw [show q.state = .completed from h] at hpend; cases hpend⟩
              show 0 < now + a.lease
              omega
            · next hrenew =>
              have hcmd : a.cmd = .complete := by
                cases h : a.cmd with
                | begin => exact absurd h hbegin
                | renew => exact absurd h hrenew
                | complete => rfl
                | read => exact absurd h hread
              exact writes_persist hcjson (by simp)
                ⟨hv.fingerprint, hv.owner, hv.durableId, Nat.zero_le _, hsafe,
                  Nat.lt_of_le_of_lt (Nat.zero_le _) hlive, fun h => (by cases h),
                  fun _ => ⟨rfl, ha.result hcmd⟩⟩ hlive hmax

end Transition

/-- A command whose arguments pass finds its record readable and its write in range. -/
theorem writes_call (hcjson : CjsonWrites L) (h : Kept L s) {numKeys : ℕ} {argv : List LuaString}
    {a : Args} (ha : checkArguments L numKeys argv = .ok a) :
    Writes L s.now (s.call L numKeys argv) := by
  obtain ⟨r, hload, hr⟩ := h.load hcjson
  rw [Server.call, operationScript_eq, ha]
  dsimp only
  rw [coordinate, hload]
  dsimp only
  split
  · exact writes_answer (by simp)
  · rw [Server.time_now]
    split
    · next htime => exact writes_transition hcjson (inRange_of_checkArguments ha) htime hr
    · exact writes_fail (by decide) (by decide)

theorem kept_absent (L : Lua) (clock : ℕ) : Kept L ⟨clock, none⟩ := by
  intro st h
  cases h

/-- An error leaves the string and its time to live as they were. -/
theorem invoke_error {numKeys : ℕ} {argv : List LuaString} {e : ScriptError}
    (h : (s.call L numKeys argv).reply = .error e) : s.invoke L (.call numKeys argv) = s := by
  have hw : (s.call L numKeys argv).write = none := atomic_operationScript L numKeys argv _ _ e h
  rw [Server.invoke, hw]

theorem kept_step (hcjson : CjsonWrites L) (h : Kept L s) (i : Invocation) :
    Kept L (s.invoke L i) := by
  cases i with
  | advance us =>
    intro st hst
    simp only [Server.invoke, Option.filter_eq_some_iff, decide_eq_true_eq] at hst
    obtain ⟨r, hv, hraw, hexp, hlive, hmax⟩ := h st hst.1
    refine ⟨r, hv, hraw, hexp, ?_, ?_⟩
    · rw [← hexp]
      exact hst.2
    · simp only [Server.invoke, Server.now] at hmax ⊢
      omega
  | call numKeys argv =>
    rcases hargs : checkArguments L numKeys argv with e | a
    · have herr : (s.call L numKeys argv).reply = .error e := by
        rw [Server.call, operationScript_eq, hargs]
        rfl
      rw [invoke_error herr]
      exact h
    · obtain ⟨-, hwrite⟩ := writes_call hcjson h hargs
      rcases hw : (s.call L numKeys argv).write with _ | ⟨raw, ttl⟩
      · rw [Server.invoke, hw]
        exact h
      · obtain ⟨hpos, hle, q, hv, hraw, hret⟩ := hwrite raw ttl hw
        intro st hst
        rw [Server.invoke, hw] at hst ⊢
        dsimp only at hst
        cases hst
        have hnow : Server.now { s with key := some ⟨raw, s.now + ttl⟩ } = s.now := rfl
        refine ⟨q, hv, hraw, hret.symm, ?_, ?_⟩ <;> rw [hnow] <;> omega

theorem kept_at (hcjson : CjsonWrites L) (clock : ℕ) (acts : List Invocation) (n : ℕ) :
    Kept L (stateAt (Server.invoke L) ⟨clock, none⟩ acts n) :=
  invariant (P := Kept L) (kept_absent L clock) (fun _ i h => kept_step hcjson h i) n

/-- **The script is atomic on error and never rejects its own records.**  An error
leaves any stored string and its time to live as they were.  And in every state
reached from an absent key by any invocations, the stored string decodes to a
table that passes `validate_record`, is at most 2048 octets long, and holds its
two timestamps as exact decimals of at most `2 ^ 53 - 1`; a command whose
arguments pass never replies `TX_INVALID_RECORD` or the `TX_INVALID_TTL` of
`persist`, and every time to live it sets lies between one and 2592000000. -/
theorem script_atomic_and_closed (L : Lua) (hcjson : CjsonWrites L) :
    (∀ (s : Server) numKeys argv e, (s.call L numKeys argv).reply = .error e →
      s.invoke L (.call numKeys argv) = s) ∧
    ∀ clock acts n, let s := stateAt (Server.invoke L) ⟨clock, none⟩ acts n
      (∀ st, s.key = some st → st.raw.length ≤ 2048 ∧ ∃ t r, L.decode st.raw = some t ∧
        validateRecord t = some r ∧
        t.string (lua "leaseUntilMs") = some (decimal r.leaseUntilMs) ∧
        r.leaseUntilMs ≤ maxSafeInteger ∧
        t.string (lua "retainUntilMs") = some (decimal r.retainUntilMs) ∧
        r.retainUntilMs ≤ maxSafeInteger) ∧
      ∀ numKeys argv a, checkArguments L numKeys argv = .ok a →
        (s.call L numKeys argv).reply ≠ .error .invalidRecord ∧
        (s.call L numKeys argv).reply ≠ .error .invalidTtl ∧
        ∀ raw ttl, (s.call L numKeys argv).write = some (raw, ttl) →
          1 ≤ ttl ∧ ttl ≤ 2592000000 := by
  refine ⟨fun s numKeys argv e h => invoke_error h, fun clock acts n => ?_⟩
  have hkept := kept_at hcjson clock acts n
  refine ⟨fun st hst => ?_, fun numKeys argv a ha => ?_⟩
  · obtain ⟨r, hv, hraw, -, -, -⟩ := hkept st hst
    rw [hraw]
    exact ⟨length_encode_le hcjson hv, r.toTable, r, L.decode_encode r hv,
      validateRecord_toTable hv, rfl, hv.leaseUntil, rfl, hv.retainUntil⟩
  · obtain ⟨⟨hrec, httl⟩, hwrite⟩ := writes_call hcjson hkept ha
    refine ⟨hrec, httl, fun raw ttl hw => ?_⟩
    obtain ⟨hpos, hle, -⟩ := hwrite raw ttl hw
    exact ⟨hpos, hle⟩

/-- Two owners, with a malformed invocation between them. -/
def mixedRun : List Invocation :=
  [.call 1 firstBegin.argv, .advance 60000, .call 1 [lua "begin"], .call 1 secondBegin.argv]

theorem script_atomic_and_closed_mixedRun :
    CjsonWrites referenceLua ∧
    ∃ st, (stateAt (Server.invoke referenceLua) ⟨0, none⟩ mixedRun 4).key = some st ∧
      st.raw.length ≤ 2048 := by
  have hsome : (stateAt (Server.invoke referenceLua) ⟨0, none⟩ mixedRun 4).key.isSome := by
    decide +kernel
  obtain ⟨st, hst⟩ := Option.isSome_iff_exists.mp hsome
  exact ⟨cjsonWrites_referenceLua, st, hst,
    (((script_atomic_and_closed referenceLua cjsonWrites_referenceLua).2 0 mixedRun 4).1
      st hst).1⟩

end Transactions
