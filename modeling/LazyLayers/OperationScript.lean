/-
The coordination script of the transaction store (`OPERATION_COORDINATION_LUA`).

One Redis STRING holds the record of one operation; every command is one
execution of the script, which reads the record, decides, and writes at most
once.  `operationScript` follows the Lua text from the argument checks to the
final reply.  What the script takes from its runtime is the parameter `Lua`:
`tonumber` and the two directions of `cjson`, with the two documented facts the
script relies on as fields.

* `validateRecord` — the check every record passes before it is believed, and
  again before it is stored; it returns the record it has read off the table;
* `validateRecord_toTable` — a record whose fields are in range passes it, and
  `validateRecord_valid` — nothing else does;
* `operationScript` — the reply and the write, if any.

Numbers: the script computes with doubles, but every quantity it keeps is an
integer of at most `2 ^ 53 - 1`, and a longer decimal rounds to a double above
that bound, so natural numbers give the same answers.
-/
import Mathlib.Data.Nat.Digits.Lemmas
import Mathlib.Tactic

namespace Transactions

/-- Lua strings are byte strings. -/
abbrev LuaString := List UInt8

/-- The bytes of an ASCII literal. -/
def lua (s : String) : LuaString := s.toList.map fun c => UInt8.ofNat c.toNat

/-- `Number.MAX_SAFE_INTEGER`, the bound `9007199254740991` of the script. -/
def maxSafeInteger : ℕ := 9007199254740991

/-- `bounded(s, n)` -/
def bounded (s : LuaString) (n : ℕ) : Bool := 0 < s.length && s.length ≤ n

/-- The class `[0-9a-f]`. -/
def isHexByte (b : UInt8) : Bool := (48 ≤ b && b ≤ 57) || (97 ≤ b && b ≤ 102)

/-- The class `[A-Za-z0-9_:/%.%-]`. -/
def isReferenceByte (b : UInt8) : Bool :=
  (65 ≤ b && b ≤ 90) || (97 ≤ b && b ≤ 122) || (48 ≤ b && b ≤ 58)
    || b == 95 || b == 47 || b == 46 || b == 45

def hex64 (s : LuaString) : Bool := bounded s 64 && s.length == 64 && s.all isHexByte

def reference (s : LuaString) (cap : ℕ) : Bool := bounded s cap && s.all isReferenceByte

/-- `decimal(n)`, that is `string.format('%.0f', n)` of an integer. -/
def decimal (n : ℕ) : LuaString :=
  if n = 0 then [48] else (Nat.digits 10 n).reverse.map fun d => UInt8.ofNat (48 + d)

/-- `^[1-9][0-9]*$` -/
def isCanonicalDecimal : LuaString → Bool
  | [] => false
  | b :: rest => (49 ≤ b && b ≤ 57) && rest.all fun c => 48 ≤ c && c ≤ 57

/-- `tonumber` of a string of digits. -/
def digitsValue (s : LuaString) : ℕ := s.foldl (fun acc b => acc * 10 + (b.toNat - 48)) 0

/-- `timestamp(s)` -/
def timestamp (s : LuaString) : Option ℕ :=
  if 16 < s.length then none
  else if s ≠ [48] ∧ ¬ isCanonicalDecimal s then none
  else if digitsValue s ≤ maxSafeInteger then some (digitsValue s)
  else none

/-! ### Decimals -/

theorem toNat_digitByte {d : ℕ} (hd : d < 10) : (UInt8.ofNat (48 + d)).toNat = 48 + d := by
  rw [UInt8.toNat_ofNat']
  omega

theorem digitsValue_digits (L : List ℕ) (hL : ∀ d ∈ L, d < 10) :
    digitsValue (L.reverse.map fun d => UInt8.ofNat (48 + d)) = Nat.ofDigits 10 L := by
  induction L with
  | nil => rfl
  | cons d L ih =>
    have hd : d < 10 := hL d (by simp)
    have ih' := ih fun e he => hL e (by simp [he])
    rw [digitsValue] at ih' ⊢
    rw [List.reverse_cons, List.map_append, List.foldl_append, ih', Nat.ofDigits_cons]
    simp only [List.map_cons, List.map_nil, List.foldl_cons, List.foldl_nil,
      toNat_digitByte hd]
    omega

@[simp] theorem digitsValue_decimal (n : ℕ) : digitsValue (decimal n) = n := by
  unfold decimal
  split
  · next h => rw [h]; rfl
  · rw [digitsValue_digits _ fun d hd => Nat.digits_lt_base (by norm_num) hd]
    exact Nat.ofDigits_digits 10 n

theorem isCanonicalDecimal_decimal {n : ℕ} (hn : 0 < n) :
    isCanonicalDecimal (decimal n) = true := by
  have hne : n ≠ 0 := by omega
  have hdig : ∀ d ∈ Nat.digits 10 n, d < 10 := fun d hd => Nat.digits_lt_base (by norm_num) hd
  have hlead := Nat.getLast_digit_ne_zero 10 hne
  rw [decimal, if_neg hne]
  have hnil : Nat.digits 10 n ≠ [] := Nat.digits_ne_nil_iff_ne_zero.mpr hne
  -- the leading digit is the last one of `Nat.digits`
  obtain ⟨L, d, hL⟩ : ∃ L d, Nat.digits 10 n = L ++ [d] :=
    ⟨_, _, (List.dropLast_append_getLast hnil).symm⟩
  have hd : d ≠ 0 := by
    have : (Nat.digits 10 n).getLast hnil = d := by simp [hL]
    rw [← this]
    exact hlead
  have hd10 : d < 10 := hdig d (by simp [hL])
  rw [hL, List.reverse_append]
  simp only [List.reverse_cons, List.reverse_nil, List.nil_append, List.cons_append,
    List.map_cons, isCanonicalDecimal, Bool.and_eq_true, decide_eq_true_eq, List.all_eq_true,
    List.mem_map, List.mem_reverse, UInt8.le_iff_toNat_le, toNat_digitByte hd10]
  refine ⟨⟨?_, ?_⟩, ?_⟩
  · show 49 ≤ 48 + d
    omega
  · show 48 + d ≤ 57
    omega
  · rintro c ⟨e, he, rfl⟩
    have he10 : e < 10 := hdig e (by simp [hL, he])
    rw [toNat_digitByte he10]
    constructor
    · show 48 ≤ 48 + e
      omega
    · show 48 + e ≤ 57
      omega

theorem length_decimal_le {n : ℕ} (hn : n ≤ maxSafeInteger) : (decimal n).length ≤ 16 := by
  unfold decimal
  split
  · simp
  · rw [List.length_map, List.length_reverse]
    have : n < 10 ^ 16 := lt_of_le_of_lt hn (by norm_num [maxSafeInteger])
    exact (Nat.digits_length_le_iff (by norm_num) n).mpr this

theorem timestamp_decimal {n : ℕ} (hn : n ≤ maxSafeInteger) : timestamp (decimal n) = some n := by
  rw [timestamp, if_neg (by have := length_decimal_le hn; omega), if_neg, digitsValue_decimal,
    if_pos hn]
  rintro ⟨h0, hcan⟩
  rcases Nat.eq_zero_or_pos n with rfl | hpos
  · exact h0 rfl
  · exact hcan (isCanonicalDecimal_decimal hpos)

theorem timestamp_eq_some {s : LuaString} {n : ℕ} (h : timestamp s = some n) :
    digitsValue s = n ∧ n ≤ maxSafeInteger := by
  unfold timestamp at h
  split at h
  · simp at h
  · split at h
    · simp at h
    · split at h
      · next hle =>
        rw [Option.some_inj] at h
        exact ⟨h, h ▸ hle⟩
      · simp at h

/-! ### Records and the tables that carry them -/

inductive OperationState
  | pending
  | completed
  deriving DecidableEq, Repr

/-- An operation record.  The two timestamps are stored as canonical decimals. -/
structure Record where
  fingerprint : LuaString
  durableId : LuaString
  owner : LuaString
  state : OperationState
  leaseUntilMs : ℕ
  retainUntilMs : ℕ
  resultRef : LuaString
  deriving DecidableEq, Repr

/-- What a field of a decoded table may be; only strings and whole numbers are
ever accepted, so everything else is `other`. -/
inductive LuaScalar
  | string (s : LuaString)
  | number (n : ℤ)
  | other
  deriving DecidableEq, Repr

/-- A Lua table with string keys: the keys `pairs` visits, and the lookup. -/
@[ext] structure LuaTable where
  keys : Finset LuaString
  get : LuaString → Option LuaScalar
  mem_keys : ∀ k, k ∈ keys ↔ (get k).isSome

/-- `type(r[k]) == 'string'`, and the string. -/
def LuaTable.string (r : LuaTable) (k : LuaString) : Option LuaString :=
  match r.get k with
  | some (.string s) => some s
  | _ => none

/-- The table `allowed` of `validate_record`. -/
def allowedKeys : Finset LuaString :=
  {lua "schema", lua "fingerprint", lua "durableId", lua "owner", lua "state",
    lua "leaseUntilMs", lua "retainUntilMs", lua "resultRef"}

def OperationState.text : OperationState → LuaString
  | .pending => lua "pending"
  | .completed => lua "completed"

/-- `validate_record(r)`; the record that was read off when it returns true. -/
def validateRecord (r : LuaTable) : Option Record := do
  guard (r.get (lua "schema") = some (.number 1))
  let fingerprint ← r.string (lua "fingerprint")
  guard (hex64 fingerprint)
  let owner ← r.string (lua "owner")
  guard (hex64 owner)
  let durableId ← r.string (lua "durableId")
  guard (reference durableId 128)
  guard (r.keys ⊆ allowedKeys)
  guard (r.keys.card = 8)
  let untilMs ← (r.string (lua "leaseUntilMs")).bind timestamp
  let retainMs ← (r.string (lua "retainUntilMs")).bind timestamp
  guard (0 < retainMs)
  let state ← r.string (lua "state")
  let resultRef ← r.string (lua "resultRef")
  if state = OperationState.text .pending then
    guard (0 < untilMs ∧ untilMs ≤ retainMs ∧ resultRef = [])
    pure ⟨fingerprint, durableId, owner, .pending, untilMs, retainMs, resultRef⟩
  else
    guard (state = OperationState.text .completed ∧ untilMs = 0 ∧ reference resultRef 256)
    pure ⟨fingerprint, durableId, owner, .completed, untilMs, retainMs, resultRef⟩

/-- The field `k` of the table literal that stands for a record. -/
def Record.field (r : Record) (k : LuaString) : Option LuaScalar :=
  if k = lua "schema" then some (.number 1)
  else if k = lua "fingerprint" then some (.string r.fingerprint)
  else if k = lua "durableId" then some (.string r.durableId)
  else if k = lua "owner" then some (.string r.owner)
  else if k = lua "state" then some (.string r.state.text)
  else if k = lua "leaseUntilMs" then some (.string (decimal r.leaseUntilMs))
  else if k = lua "retainUntilMs" then some (.string (decimal r.retainUntilMs))
  else if k = lua "resultRef" then some (.string r.resultRef)
  else none

/-- The Lua table of a record. -/
def Record.toTable (r : Record) : LuaTable where
  keys := allowedKeys
  get := r.field
  mem_keys := by
    intro k
    simp only [allowedKeys, Finset.mem_insert, Finset.mem_singleton, Record.field]
    repeat' split
    all_goals simp_all

/-- The fields of a record are in range: what `validate_record` asks of it. -/
structure Record.Valid (r : Record) : Prop where
  fingerprint : hex64 r.fingerprint = true
  owner : hex64 r.owner = true
  durableId : reference r.durableId 128 = true
  leaseUntil : r.leaseUntilMs ≤ maxSafeInteger
  retainUntil : r.retainUntilMs ≤ maxSafeInteger
  retained : 0 < r.retainUntilMs
  pending : r.state = .pending →
    0 < r.leaseUntilMs ∧ r.leaseUntilMs ≤ r.retainUntilMs ∧ r.resultRef = []
  completed : r.state = .completed → r.leaseUntilMs = 0 ∧ reference r.resultRef 256 = true

theorem Record.string_toTable (r : Record) :
    r.toTable.string (lua "fingerprint") = some r.fingerprint ∧
    r.toTable.string (lua "owner") = some r.owner ∧
    r.toTable.string (lua "durableId") = some r.durableId ∧
    r.toTable.string (lua "state") = some r.state.text ∧
    r.toTable.string (lua "leaseUntilMs") = some (decimal r.leaseUntilMs) ∧
    r.toTable.string (lua "retainUntilMs") = some (decimal r.retainUntilMs) ∧
    r.toTable.string (lua "resultRef") = some r.resultRef :=
  ⟨rfl, rfl, rfl, rfl, rfl, rfl, rfl⟩

/-- A record with its fields in range passes `validate_record`, and is read back. -/
theorem validateRecord_toTable {r : Record} (h : r.Valid) :
    validateRecord r.toTable = some r := by
  obtain ⟨h1, h2, h3, h4, h5, h6, h7⟩ := r.string_toTable
  have hs : r.toTable.get (lua "schema") = some (.number 1) := rfl
  have hk : r.toTable.keys = allowedKeys := rfl
  have hcard : allowedKeys.card = 8 := by decide
  cases hst : r.state with
  | pending =>
    have hp := h.pending hst
    simp only [validateRecord, guard, hs, hk, hcard, h1, h2, h3, h4, h5, h6, h7, h.fingerprint,
      h.owner, h.durableId, timestamp_decimal h.leaseUntil, timestamp_decimal h.retainUntil,
      h.retained, hst, hp, Option.bind_eq_bind, Option.bind_some, Option.pure_def, if_true,
      Finset.Subset.refl, and_self]
    rw [← hst, ← hp.2.2]
  | completed =>
    obtain ⟨hl, hres⟩ := h.completed hst
    have hne : ¬ OperationState.text .completed = OperationState.text .pending := by decide
    simp only [validateRecord, guard, hs, hk, hcard, h1, h2, h3, h4, h5, h6, h7, h.fingerprint,
      h.owner, h.durableId, timestamp_decimal h.leaseUntil, timestamp_decimal h.retainUntil,
      h.retained, hst, hres, hne, Option.bind_eq_bind, Option.bind_some, Option.pure_def, if_true,
      if_false, Finset.Subset.refl, and_true, true_and]
    rw [if_pos hl, Option.bind_some, ← hst]

/-- Whatever `validate_record` accepts has its fields in range. -/
theorem validateRecord_valid {t : LuaTable} {r : Record} (h : validateRecord t = some r) :
    r.Valid := by
  simp only [validateRecord, guard, Option.pure_def, Option.bind_eq_bind, Option.failure_eq_none,
    Option.bind_eq_some_iff, Option.ite_none_right_eq_some] at h
  obtain ⟨_, -, fingerprint, -, _, ⟨hfp, -⟩, owner, -, _, ⟨how, -⟩, durableId, -, _, ⟨hdur, -⟩,
    _, -, _, -, untilMs, ⟨u, -, hu⟩, retainMs, ⟨w, -, hw⟩, _, ⟨hret, -⟩, state, -,
    resultRef, -, h⟩ := h
  have hul := (timestamp_eq_some hu).2
  have hwl := (timestamp_eq_some hw).2
  split at h
  · simp only [Option.bind_eq_some_iff, Option.ite_none_right_eq_some, Option.some_inj] at h
    obtain ⟨_, ⟨⟨hpos, hle, hres⟩, -⟩, rfl⟩ := h
    exact ⟨hfp, how, hdur, hul, hwl, hret, fun _ => ⟨hpos, hle, hres⟩, fun hc => by cases hc⟩
  · simp only [Option.bind_eq_some_iff, Option.ite_none_right_eq_some, Option.some_inj] at h
    obtain ⟨_, ⟨⟨-, hz, hres⟩, -⟩, rfl⟩ := h
    exact ⟨hfp, how, hdur, hul, hwl, hret, fun hc => (by cases hc), fun _ => ⟨hz, hres⟩⟩

/-- The check reads a record's own table as that record or refuses it. -/
theorem eq_of_validateRecord_toTable {r q : Record} (h : validateRecord r.toTable = some q) :
    q = r := by
  obtain ⟨h1, h2, h3, h4, h5, h6, h7⟩ := r.string_toTable
  simp only [validateRecord, guard, h1, h2, h3, h4, h5, h6, h7, Option.pure_def,
    Option.bind_eq_bind, Option.failure_eq_none, Option.bind_eq_some_iff,
    Option.ite_none_right_eq_some, Option.some_inj] at h
  obtain ⟨_, -, _, rfl, _, -, _, rfl, _, -, _, rfl, _, -, _, -, _, -, untilMs, ⟨_, rfl, hu⟩,
    retainMs, ⟨_, rfl, hw⟩, _, -, _, rfl, _, rfl, h⟩ := h
  have hul := (timestamp_eq_some hu).1
  have hwl := (timestamp_eq_some hw).1
  rw [digitsValue_decimal] at hul hwl
  subst hul hwl
  cases hst : r.state with
  | pending =>
    rw [hst, if_pos rfl] at h
    simp only [Option.bind_eq_some_iff, Option.ite_none_right_eq_some, Option.some_inj] at h
    obtain ⟨_, -, rfl⟩ := h
    rw [← hst]
  | completed =>
    rw [hst, if_neg (by decide)] at h
    simp only [Option.bind_eq_some_iff, Option.ite_none_right_eq_some, Option.some_inj] at h
    obtain ⟨_, -, rfl⟩ := h
    rw [← hst]

/-! ### The script -/

/-- What the script takes from its runtime.  `tonumber` is only ever compared
with whole bounds, so a result that is not a whole number is `none`; `decode`
is `pcall(cjson.decode, raw)` restricted to the tables it may return. -/
structure Lua where
  tonumber : LuaString → Option ℤ
  encode : LuaTable → LuaString
  decode : LuaString → Option LuaTable
  /-- `tonumber` reads a canonical decimal. -/
  tonumber_decimal : ∀ n : ℕ, n ≤ maxSafeInteger → tonumber (decimal n) = some (n : ℤ)
  /-- `cjson.decode` reads back the table of a record that `cjson.encode` wrote. -/
  decode_encode : ∀ r : Record, r.Valid → decode (encode r.toTable) = some r.toTable

inductive Command
  | begin
  | renew
  | complete
  | read
  deriving DecidableEq, Repr

def Command.text : Command → LuaString
  | .begin => lua "begin"
  | .renew => lua "renew"
  | .complete => lua "complete"
  | .read => lua "read"

def Command.ofText (s : LuaString) : Option Command :=
  if s = Command.text .begin then some .begin
  else if s = Command.text .renew then some .renew
  else if s = Command.text .complete then some .complete
  else if s = Command.text .read then some .read
  else none

theorem Command.ofText_text (c : Command) : Command.ofText c.text = some c := by
  cases c <;> decide

/-- The codes given to `redis.error_reply` and to `error`. -/
inductive ScriptError
  | invalidArgs
  | invalidCommand
  | invalidId
  | invalidOwner
  | invalidTtl
  | invalidResult
  | invalidRecord
  | invalidTime
  | freshOwnerRequired
  deriving DecidableEq, Repr

def ScriptError.code : ScriptError → LuaString
  | .invalidArgs => lua "TX_INVALID_ARGS"
  | .invalidCommand => lua "TX_INVALID_COMMAND"
  | .invalidId => lua "TX_INVALID_ID"
  | .invalidOwner => lua "TX_INVALID_OWNER"
  | .invalidTtl => lua "TX_INVALID_TTL"
  | .invalidResult => lua "TX_INVALID_RESULT"
  | .invalidRecord => lua "TX_INVALID_RECORD"
  | .invalidTime => lua "TX_INVALID_TIME"
  | .freshOwnerRequired => lua "TX_FRESH_OWNER_REQUIRED"

/-- The replies; durations are in milliseconds. -/
inductive Reply
  | error (e : ScriptError)
  | conflict
  | missing
  | completed (resultRef : LuaString)
  | recoveryRequired
  | inProgress (remaining : ℕ)
  | acquired (owner : LuaString) (remaining : ℕ)
  | lost
  | renewed (remaining : ℕ)
  deriving DecidableEq, Repr

/-- The reply on the wire: an error code, or an array of strings. -/
def Reply.wire : Reply → Except LuaString (List LuaString)
  | .error e => .error e.code
  | .conflict => .ok [lua "conflict"]
  | .missing => .ok [lua "missing"]
  | .completed resultRef => .ok [lua "completed", resultRef]
  | .recoveryRequired => .ok [lua "recovery_required"]
  | .inProgress remaining => .ok [lua "in_progress", decimal remaining]
  | .acquired owner remaining =>
    .ok [lua "acquired", owner, decimal remaining, lua "reconcile"]
  | .lost => .ok [lua "lost"]
  | .renewed remaining => .ok [lua "renewed", decimal remaining]

/-- One execution: the reply, and the arguments of the `SET key value PX ttl`
if one was issued. -/
structure Outcome where
  reply : Reply
  write : Option (LuaString × ℕ)
  deriving DecidableEq

/-- `return fail(code)`: an error reply, nothing written. -/
def fail (e : ScriptError) : Outcome := ⟨.error e, none⟩

/-- A reply that writes nothing. -/
def answer (r : Reply) : Outcome := ⟨r, none⟩

/-- `integer(n, lo, hi)`, with the number it accepts. -/
def integer (n : Option ℤ) (lo hi : ℕ) : Option ℕ :=
  match n with
  | some n => if (lo : ℤ) ≤ n ∧ n ≤ hi then some n.toNat else none
  | none => none

/-- `encode_record_checked(r)`; `none` is the error it raises. -/
def encodeRecordChecked (L : Lua) (r : Record) : Option LuaString :=
  if (validateRecord r.toTable).isNone then none
  else if 2048 < (L.encode r.toTable).length then none
  else some (L.encode r.toTable)

/-- `persist(nextRecord)`, followed by the reply the caller gives on success. -/
def persist (L : Lua) (now : ℕ) (nextRecord : Record) (reply : Reply) : Outcome :=
  match encodeRecordChecked L nextRecord with
  | none => fail .invalidRecord
  | some encoded =>
    let ttl := nextRecord.retainUntilMs - now
    if 1 ≤ ttl ∧ ttl ≤ 2592000000 then ⟨reply, some (encoded, ttl)⟩ else fail .invalidTtl

/-- The arguments of one command after they have been checked. -/
structure Args where
  cmd : Command
  fp : LuaString
  durable : LuaString
  owner : LuaString
  lease : ℕ
  retention : ℕ
  result : LuaString
  deriving DecidableEq, Repr

/-- `retainedDeadline()` -/
def retainedDeadline (a : Args) (now : ℕ) (r : Option Record) : ℕ :=
  max (now + a.retention) ((r.map Record.retainUntilMs).getD 0)

/-- `remaining()` -/
def remaining (r : Record) (now : ℕ) : ℕ := r.leaseUntilMs - now

/-- `cmd == 'read'` -/
def readCommand (now : ℕ) : Option Record → Outcome
  | none => answer .missing
  | some r =>
    if r.state = .completed then answer (.completed r.resultRef)
    else if remaining r now = 0 then answer .recoveryRequired
    else answer (.inProgress (remaining r now))

/-- `cmd == 'begin'` on an absent or pending record. -/
def beginCommand (L : Lua) (a : Args) (now : ℕ) (r : Option Record) : Outcome :=
  let acquire :=
    persist L now
      ⟨a.fp, a.durable, a.owner, .pending, now + a.lease, retainedDeadline a now r, []⟩
      (.acquired a.owner a.lease)
  match r with
  | none => acquire
  | some r =>
    if 0 < remaining r now then
      if r.owner = a.owner then answer (.acquired a.owner (remaining r now))
      else answer (.inProgress (remaining r now))
    -- a known expired owner can never be reused for a new acquisition
    else if r.owner = a.owner then fail .freshOwnerRequired
    else acquire

/-- `cmd == 'renew'` by the owner of a live lease. -/
def renewCommand (L : Lua) (a : Args) (now : ℕ) (r : Record) : Outcome :=
  persist L now
    { r with leaseUntilMs := now + a.lease, retainUntilMs := retainedDeadline a now (some r) }
    (.renewed a.lease)

/-- `cmd == 'complete'` by the owner of a live lease. -/
def completeCommand (L : Lua) (a : Args) (now : ℕ) (r : Record) : Outcome :=
  persist L now
    { r with
      state := .completed, resultRef := a.result, leaseUntilMs := 0
      retainUntilMs := retainedDeadline a now (some r) }
    (.completed a.result)

/-- The commands on a completed record; `read` has been answered before. -/
def completedCommand (a : Args) (r : Record) : Outcome :=
  if a.cmd = .renew then answer .lost
  else if a.cmd = .complete ∧ r.resultRef ≠ a.result then answer .conflict
  else answer (.completed r.resultRef)

/-- From `if cmd == 'read'` to the end of the script. -/
def transition (L : Lua) (a : Args) (now : ℕ) (r : Option Record) : Outcome :=
  if a.cmd = .read then readCommand now r
  else if let some q := r.filter (·.state = .completed) then completedCommand a q
  else if a.cmd = .begin then beginCommand L a now r
  else
    match r with
    | none => answer .lost
    | some r =>
      if r.owner ≠ a.owner ∨ remaining r now = 0 then answer .lost
      else if a.cmd = .renew then renewCommand L a now r
      else completeCommand L a now r

/-- `GET`, the size check, `cjson.decode` and `validate_record`. -/
def load (L : Lua) : Option LuaString → Except ScriptError (Option Record)
  | none => .ok none
  | some raw =>
    if 2048 < raw.length then .error .invalidRecord
    else
      match (L.decode raw).bind validateRecord with
      | none => .error .invalidRecord
      | some r => .ok (some r)

/-- The script after its argument checks.  `time` is the reply of `TIME`. -/
def coordinate (L : Lua) (a : Args) (time : ℕ × ℕ) (raw : Option LuaString) : Outcome :=
  match load L raw with
  | .error e => fail e
  | .ok r =>
    if r.any fun r => r.fingerprint ≠ a.fp ∨ r.durableId ≠ a.durable then answer .conflict
    else
      let now := time.1 * 1000 + time.2 / 1000
      if now + a.retention ≤ maxSafeInteger then transition L a now r else fail .invalidTime

/-- `OPERATION_COORDINATION_LUA` on `numKeys` keys and the arguments `argv`. -/
def operationScript (L : Lua) (numKeys : ℕ) (argv : List LuaString) (time : ℕ × ℕ)
    (raw : Option LuaString) : Outcome :=
  match argv with
  | [cmd, fp, durable, owner, lease, retention, result] =>
    if numKeys ≠ 1 then fail .invalidArgs
    else
      match Command.ofText cmd with
      | none => fail .invalidCommand
      | some cmd =>
        if ¬ hex64 fp ∨ ¬ reference durable 128 then fail .invalidId
        else if cmd ≠ .read ∧ ¬ hex64 owner then fail .invalidOwner
        else
          match integer (L.tonumber lease) 1 3600000 with
          | none => fail .invalidTtl
          | some lease =>
            match integer (L.tonumber retention) lease 2592000000 with
            | none => fail .invalidTtl
            | some retention =>
              if cmd = .complete ∧ ¬ reference result 256 then fail .invalidResult
              else coordinate L ⟨cmd, fp, durable, owner, lease, retention, result⟩ time raw
  | _ => fail .invalidArgs

/-- The argument checks alone, from `#KEYS ~= 1` to `TX_INVALID_RESULT`. -/
def checkArguments (L : Lua) (numKeys : ℕ) (argv : List LuaString) : Except ScriptError Args :=
  match argv with
  | [cmd, fp, durable, owner, lease, retention, result] =>
    if numKeys ≠ 1 then .error .invalidArgs
    else
      match Command.ofText cmd with
      | none => .error .invalidCommand
      | some cmd =>
        if ¬ hex64 fp ∨ ¬ reference durable 128 then .error .invalidId
        else if cmd ≠ .read ∧ ¬ hex64 owner then .error .invalidOwner
        else
          match integer (L.tonumber lease) 1 3600000 with
          | none => .error .invalidTtl
          | some lease =>
            match integer (L.tonumber retention) lease 2592000000 with
            | none => .error .invalidTtl
            | some retention =>
              if cmd = .complete ∧ ¬ reference result 256 then .error .invalidResult
              else .ok ⟨cmd, fp, durable, owner, lease, retention, result⟩
  | _ => .error .invalidArgs

/-- The script is its argument checks followed by the coordination proper. -/
theorem operationScript_eq (L : Lua) (numKeys : ℕ) (argv : List LuaString) (time : ℕ × ℕ)
    (raw : Option LuaString) :
    operationScript L numKeys argv time raw =
      match checkArguments L numKeys argv with
      | .error e => fail e
      | .ok a => coordinate L a time raw := by
  unfold operationScript checkArguments
  split
  · repeat' (split <;> try rfl)
  · rfl

/-- The checked arguments of a command are in range. -/
structure Args.InRange (a : Args) : Prop where
  fp : hex64 a.fp = true
  durable : reference a.durable 128 = true
  owner : a.cmd ≠ .read → hex64 a.owner = true
  lease_pos : 1 ≤ a.lease
  lease_le : a.lease ≤ 3600000
  lease_retention : a.lease ≤ a.retention
  retention_le : a.retention ≤ 2592000000
  result : a.cmd = .complete → reference a.result 256 = true

theorem integer_some {n : Option ℤ} {lo hi m : ℕ} (h : integer n lo hi = some m) :
    lo ≤ m ∧ m ≤ hi := by
  unfold integer at h
  split at h
  · split at h
    · rw [Option.some_inj] at h
      omega
    · cases h
  · cases h

theorem inRange_of_checkArguments {L : Lua} {numKeys : ℕ} {argv : List LuaString} {a : Args}
    (h : checkArguments L numKeys argv = .ok a) : a.InRange := by
  unfold checkArguments at h
  split at h
  · split at h
    · cases h
    · split at h
      · cases h
      · split at h
        · cases h
        · next hid =>
          split at h
          · cases h
          · next hown =>
            split at h
            · cases h
            · next hlease =>
              split at h
              · cases h
              · next hret =>
                split at h
                · cases h
                · next hres =>
                  cases h
                  rw [not_or, not_not, not_not] at hid
                  have hl := integer_some hlease
                  have hr := integer_some hret
                  refine ⟨hid.1, hid.2, ?_, hl.1, hl.2, hr.1, hr.2, ?_⟩
                  · intro hc
                    by_contra hn
                    exact hown ⟨hc, hn⟩
                  · intro hc
                    by_contra hn
                    exact hres ⟨hc, hn⟩
  · cases h

end Transactions
