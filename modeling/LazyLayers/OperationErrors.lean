/-
What `dispatch` makes of a rejected command (`protocolError`, `scriptErrorCode`).

After the dispatch boundary a rejection says little about the command: only an
error reply of the script, or of its `GET`, proves that nothing was written.
`dispatch` tells the two apart by searching the text of the error.

* `scriptErrorCode`, `protocolError`, `surface` — the search and the `catch` block,
  which `catchError` abstracts (`toThrown_surface`);
* `isError_runScript` — an error reply means that nothing was written;
* `truthful_iff` — a rejection is told apart correctly if it is such a reply, or if its
  text has neither a `TX_` code nor `WRONGTYPE` in any letter case, wherever it stands.
-/
import LazyLayers.JsString
import LazyLayers.OperationGate
import LazyLayers.OperationRecords

open Js OperationGate

namespace Transactions

/-! ### The search -/

/-- The leftmost match of a pattern that is tried at every position. -/
def firstMatch {α : Type} (here : JsString → Option α) : JsString → Option α
  | [] => here []
  | u :: s => (here (u :: s)).or (firstMatch here s)

/-- What the flag `i` compares: it maps no unit outside of ASCII to one inside. -/
def upperUnit (u : UInt16) : UInt16 := if 97 ≤ u ∧ u ≤ 122 then u - 32 else u

/-- `\s` -/
def isWhitespace (u : UInt16) : Bool :=
  (9 ≤ u && u ≤ 13) || u == 32 || u == 0xA0 || u == 0x1680 || (0x2000 ≤ u && u ≤ 0x200A) ||
    u == 0x2028 || u == 0x2029 || u == 0x202F || u == 0x205F || u == 0x3000 || u == 0xFEFF

/-- `[A-Z0-9_]` with the flag `i`. -/
def isCodeUnit (u : UInt16) : Bool :=
  (65 ≤ upperUnit u && upperUnit u ≤ 90) || (48 ≤ u && u ≤ 57) || u == 95

/-- `(TX_[A-Z0-9_]+)` with the flag `i`. -/
def codeHere : JsString → Option JsString
  | t :: x :: u :: w :: rest =>
    if upperUnit t = 84 ∧ upperUnit x = 88 ∧ u = 95 ∧ isCodeUnit w then
      some (t :: x :: u :: w :: rest.takeWhile isCodeUnit)
    else none
  | _ => none

/-- `ERR\s+` with the flag `i`, and what stands behind it. -/
def afterErr : JsString → Option JsString
  | e :: r :: r' :: space :: rest =>
    if upperUnit e = 69 ∧ upperUnit r = 82 ∧ upperUnit r' = 82 ∧ isWhitespace space then
      some (rest.dropWhile isWhitespace)
    else none
  | _ => none

/-- `(?:ERR\s+)?(TX_[A-Z0-9_]+)` with the flag `i`: the group is tried with its prefix first. -/
def groupHere (s : JsString) : Option JsString :=
  ((afterErr s).bind codeHere).or (codeHere s)

/-- `WRONGTYPE` with the flag `i`. -/
def wrongTypeHere (s : JsString) : Option Unit :=
  if (s.take 9).map upperUnit = str "WRONGTYPE" then some () else none

/-! ### Rejections -/

/-- The classes that `dispatch` looks for; the last two are other errors and what is no
`Error` at all. -/
inductive ErrorClass
  | protocol
  | configuration
  | unavailable
  | unknown
  | error
  | value
  deriving DecidableEq, Repr

/-- What a promise was rejected with: its class, and `error.message` or `String(error)`.  There
is no text if the message is no string, or if `String` throws. -/
structure Rejection where
  errorClass : ErrorClass
  text : Option JsString

/-- What `dispatch` throws in turn; without a message it is the error itself. -/
inductive Surfaced
  | protocol (message : Option JsString)
  | configuration
  | unavailable (message : Option String)
  | unknown (message : Option String)
  /-- The `catch` block has thrown an error of its own. -/
  | broken
  deriving DecidableEq, Repr

/-- `match?.[1]?.toUpperCase()` -/
def scriptErrorCode (text : JsString) : Option JsString :=
  (firstMatch groupHere text).map fun code => code.map upperUnit

/-- What `protocolError` answers, if it returns. -/
def protocolError (error : Rejection) : Option (Option Surfaced) :=
  if error.errorClass = .protocol then some (some (.protocol none))
  else
    error.text.map fun text =>
      let code := scriptErrorCode text
      if code.any (fun code => (str "TX_").isPrefixOf code) ∨
          (firstMatch wrongTypeHere text).isSome then
        some (.protocol (some (str "Redis transaction rejected the request (" ++
          code.getD (str "WRONGTYPE") ++ str ")")))
      else none

/-- The `catch` block of `dispatch`. -/
def surface (operation : String) (dispatched : Bool) (error : Rejection) : Surfaced :=
  match protocolError error with
  | none => .broken
  | some (some definite) => definite
  | some none =>
    if error.errorClass = .configuration then .configuration
    else if error.errorClass = .unavailable ∧ ¬ dispatched then .unavailable none
    else if ¬ dispatched then .unavailable (some s!"Transaction {operation} was not dispatched")
    else if error.errorClass = .unknown then .unknown none
    else .unknown
      (some s!"Transaction {operation} outcome is unknown; reconcile authoritative state")

/-! ### What became of the command -/

/-- What the operation key holds. -/
inductive Held
  | nothing
  | string (raw : LuaString)
  | otherType

/-- How an execution of the script ends: with its outcome, or with the error of `GET`. -/
inductive Ended
  | outcome (o : Outcome)
  | wrongType

def runScript (L : Lua) (argv : List LuaString) (time : ℕ × ℕ) : Held → Ended
  | .nothing => .outcome (operationScript L 1 argv time none)
  | .string raw => .outcome (operationScript L 1 argv time (some raw))
  | .otherType =>
    match checkArguments L 1 argv with
    | .error e => .outcome (fail e)
    | .ok _ => .wrongType

/-- Redis replies with an error. -/
def Ended.IsError : Ended → Prop
  | .outcome o => ∃ e, o.reply = .error e
  | .wrongType => True

def Ended.Wrote : Ended → Prop
  | .outcome o => o.write.isSome
  | .wrongType => False

/-- How the promise of a command came to be rejected. -/
inductive Delivery
  /-- Redis has executed the script, and the rejection is its error reply. -/
  | replied
  /-- Anything else: a connection, a timer, a proxy.  The script may have been executed. -/
  | interrupted (executed : Bool)
  deriving DecidableEq, Repr

/-- A command that was dispatched and whose promise was rejected. -/
structure Attempt (L : Lua) where
  argv : List LuaString
  time : ℕ × ℕ
  held : Held
  delivery : Delivery
  error : Rejection
  isError : delivery = .replied → (runScript L argv time held).IsError

variable {L : Lua}

def Attempt.Wrote (a : Attempt L) : Prop :=
  a.delivery ≠ .interrupted false ∧ (runScript L a.argv a.time a.held).Wrote

/-- `dispatch` says that nothing was written only where the error reply of the script or of its
`GET` says so, and nothing was written then; any other rejection leaves the outcome open. -/
structure Attempt.Truthful (a : Attempt L) (operation : String) : Prop where
  noWrite : ∀ message, surface operation true a.error = .protocol message →
    a.delivery = .replied ∧ ¬ a.Wrote
  unknown : a.delivery ≠ .replied → ∃ message, surface operation true a.error = .unknown message

/-- Somewhere in the text: `tx_` and a letter, a digit or an underscore, in any letter case. -/
def NamesCode (text : JsString) : Prop :=
  ∃ front rest, ∃ t x w : UInt16, text = front ++ t :: x :: 95 :: w :: rest ∧
    upperUnit t = 84 ∧ upperUnit x = 88 ∧ isCodeUnit w = true

/-- Somewhere in the text: `wrongtype`, in any letter case. -/
def NamesWrongType (text : JsString) : Prop :=
  ∃ front word rest, text = front ++ word ++ rest ∧ word.map upperUnit = str "WRONGTYPE"

/-- An error that nothing marks as an answer of the script. -/
def Rejection.Unmarked (error : Rejection) : Prop :=
  error.errorClass ≠ .protocol ∧ error.errorClass ≠ .configuration ∧
    ∃ text, error.text = some text ∧ ¬ NamesCode text ∧ ¬ NamesWrongType text

/-! ### What the search finds -/

theorem isSome_firstMatch {α : Type} (here : JsString → Option α) (s : JsString) :
    (firstMatch here s).isSome ↔ ∃ front rest, s = front ++ rest ∧ (here rest).isSome := by
  induction s with
  | nil =>
    constructor
    · intro h
      exact ⟨[], [], rfl, h⟩
    · rintro ⟨front, rest, heq, h⟩
      obtain ⟨-, rfl⟩ := List.append_eq_nil_iff.mp heq.symm
      exact h
  | cons u s ih =>
    rw [firstMatch, Option.isSome_or, Bool.or_eq_true, ih]
    constructor
    · rintro (h | ⟨front, rest, rfl, h⟩)
      · exact ⟨[], u :: s, rfl, h⟩
      · exact ⟨u :: front, rest, rfl, h⟩
    · rintro ⟨front, rest, heq, h⟩
      cases front with
      | nil =>
        left
        rw [heq]
        exact h
      | cons v front =>
        right
        exact ⟨front, rest, (List.cons.inj heq).2, h⟩

/-- A match is a match at some position. -/
theorem exists_here {α : Type} {here : JsString → Option α} {s : JsString} {a : α}
    (h : firstMatch here s = some a) : ∃ rest, here rest = some a := by
  induction s with
  | nil => exact ⟨[], h⟩
  | cons u s ih =>
    rw [firstMatch] at h
    cases hhere : here (u :: s) with
    | none =>
      rw [hhere] at h
      exact ih h
    | some b =>
      rw [hhere] at h
      cases h
      exact ⟨u :: s, hhere⟩

theorem isSome_codeHere (s : JsString) : (codeHere s).isSome ↔
    ∃ rest, ∃ t x w : UInt16, s = t :: x :: 95 :: w :: rest ∧ upperUnit t = 84 ∧
      upperUnit x = 88 ∧ isCodeUnit w = true := by
  constructor
  · intro h
    rw [codeHere.eq_def] at h
    split at h
    · next t x u w rest =>
      split at h
      · next hcode =>
        obtain ⟨ht, hx, rfl, hw⟩ := hcode
        exact ⟨rest, t, x, w, rfl, ht, hx, hw⟩
      · cases h
    · cases h
  · rintro ⟨rest, t, x, w, rfl, ht, hx, hw⟩
    rw [codeHere, if_pos ⟨ht, hx, rfl, hw⟩]
    rfl

theorem namesCode_iff (text : JsString) :
    NamesCode text ↔ ∃ front rest, text = front ++ rest ∧ (codeHere rest).isSome := by
  constructor
  · rintro ⟨front, rest, t, x, w, rfl, h⟩
    exact ⟨front, _, rfl, (isSome_codeHere _).mpr ⟨rest, t, x, w, rfl, h⟩⟩
  · rintro ⟨front, rest, rfl, h⟩
    obtain ⟨tail, t, x, w, rfl, hcode⟩ := (isSome_codeHere _).mp h
    exact ⟨front, tail, t, x, w, rfl, hcode⟩

theorem afterErr_suffix {s rest : JsString} (h : afterErr s = some rest) :
    ∃ front, s = front ++ rest := by
  rw [afterErr.eq_def] at h
  split at h
  · next e r r' space tail =>
    split at h
    · cases h
      refine ⟨e :: r :: r' :: space :: tail.takeWhile isWhitespace, ?_⟩
      simp [List.takeWhile_append_dropWhile]
    · cases h
  · cases h

/-- The optional prefix moves the match to the left and changes nothing else. -/
theorem namesCode_iff_isSome (text : JsString) :
    NamesCode text ↔ (firstMatch groupHere text).isSome := by
  rw [namesCode_iff, isSome_firstMatch]
  constructor
  · rintro ⟨front, rest, rfl, h⟩
    refine ⟨front, rest, rfl, ?_⟩
    rw [groupHere, Option.isSome_or, Bool.or_eq_true]
    exact .inr h
  · rintro ⟨front, rest, rfl, h⟩
    rw [groupHere, Option.isSome_or, Bool.or_eq_true] at h
    rcases h with h | h
    · obtain ⟨code, hfound⟩ := Option.isSome_iff_exists.mp h
      obtain ⟨tail, htail, hcode⟩ := Option.bind_eq_some_iff.mp hfound
      obtain ⟨front', rfl⟩ := afterErr_suffix htail
      refine ⟨front ++ front', tail, by rw [List.append_assoc], ?_⟩
      rw [hcode]
      rfl
    · exact ⟨front, rest, rfl, h⟩

theorem namesWrongType_iff_isSome (text : JsString) :
    NamesWrongType text ↔ (firstMatch wrongTypeHere text).isSome := by
  rw [isSome_firstMatch]
  constructor
  · rintro ⟨front, word, rest, rfl, hword⟩
    have hlen : word.length = 9 := by
      have hnine := congrArg List.length hword
      rw [List.length_map] at hnine
      exact hnine
    refine ⟨front, word ++ rest, by rw [List.append_assoc], ?_⟩
    rw [wrongTypeHere, List.take_left' hlen, if_pos hword]
    rfl
  · rintro ⟨front, rest, rfl, h⟩
    rw [wrongTypeHere] at h
    split at h
    · next hword =>
      exact ⟨front, rest.take 9, rest.drop 9, by rw [List.append_assoc, List.take_append_drop],
        hword⟩
    · cases h

/-! ### When the error is an answer -/

/-- What is found begins with `TX_`, so `startsWith` asks nothing more. -/
theorem isPrefixOf_scriptErrorCode {text code : JsString} (h : scriptErrorCode text = some code) :
    (str "TX_").isPrefixOf code = true := by
  have hcode : ∀ {s c : JsString}, codeHere s = some c →
      (str "TX_").isPrefixOf (c.map upperUnit) = true := by
    intro s c hc
    rw [codeHere.eq_def] at hc
    split at hc
    · split at hc
      · next h =>
        obtain ⟨ht, hx, rfl, -⟩ := h
        cases hc
        simp only [List.map_cons, ht, hx]
        rfl
      · cases hc
    · cases hc
  obtain ⟨found, hfound, rfl⟩ := Option.map_eq_some_iff.mp h
  obtain ⟨rest, hrest⟩ := exists_here hfound
  rw [groupHere, Option.or_eq_some_iff] at hrest
  rcases hrest with hrest | ⟨-, hrest⟩
  · obtain ⟨tail, -, htail⟩ := Option.bind_eq_some_iff.mp hrest
    exact hcode htail
  · exact hcode hrest

theorem protocolError_eq {error : Rejection} {text : JsString}
    (hclass : error.errorClass ≠ .protocol) (htext : error.text = some text) :
    (∃ message, protocolError error = some (some (.protocol message))) ∧
      (NamesCode text ∨ NamesWrongType text) ∨
    protocolError error = some none ∧ ¬ NamesCode text ∧ ¬ NamesWrongType text := by
  have hcode : (scriptErrorCode text).any (fun code => (str "TX_").isPrefixOf code) = true ↔
      NamesCode text := by
    rw [namesCode_iff_isSome, Option.any_eq_true]
    constructor
    · rintro ⟨code, hcode, -⟩
      rw [← Option.isSome_map, ← scriptErrorCode, hcode]
      rfl
    · intro h
      rw [← Option.isSome_map, ← scriptErrorCode] at h
      obtain ⟨code, hcode⟩ := Option.isSome_iff_exists.mp h
      exact ⟨code, hcode, isPrefixOf_scriptErrorCode hcode⟩
  have hmarked := or_congr hcode (namesWrongType_iff_isSome text).symm
  simp only [protocolError, if_neg hclass, htext, Option.map_some]
  by_cases hnames : NamesCode text ∨ NamesWrongType text
  · rw [if_pos (hmarked.mpr hnames)]
    exact .inl ⟨⟨_, rfl⟩, hnames⟩
  · rw [if_neg fun h => hnames (hmarked.mp h)]
    exact .inr ⟨rfl, not_or.mp hnames⟩

/-- After dispatch the outcome stays open exactly for the errors without a mark. -/
theorem surface_unknown_iff (operation : String) (error : Rejection) :
    (∃ message, surface operation true error = .unknown message) ↔ error.Unmarked := by
  by_cases hclass : error.errorClass = .protocol
  · have hsurface : surface operation true error = .protocol none := by
      simp [surface, protocolError, hclass]
    rw [hsurface]
    constructor
    · rintro ⟨message, h⟩
      cases h
    · intro h
      exact absurd hclass h.1
  cases htext : error.text with
  | none =>
    have hsurface : surface operation true error = .broken := by
      simp [surface, protocolError, hclass, htext]
    rw [hsurface]
    constructor
    · rintro ⟨message, h⟩
      cases h
    · rintro ⟨-, -, text, h, -⟩
      rw [htext] at h
      cases h
  | some text =>
    rcases protocolError_eq hclass htext with ⟨⟨message, herror⟩, hnames⟩ | ⟨herror, hnames⟩
    · have hsurface : surface operation true error = .protocol message := by
        rw [surface, herror]
      rw [hsurface]
      constructor
      · rintro ⟨message', h⟩
        cases h
      · rintro ⟨-, -, text', h, hcode, htype⟩
        rw [htext, Option.some.injEq] at h
        subst h
        exact absurd hnames (not_or.mpr ⟨hcode, htype⟩)
    · by_cases hconf : error.errorClass = .configuration
      · have hsurface : surface operation true error = .configuration := by
          rw [surface, herror]
          exact if_pos hconf
        rw [hsurface]
        constructor
        · rintro ⟨message, h⟩
          cases h
        · intro h
          exact absurd hconf h.2.1
      · have hsurface : ∃ message, surface operation true error = .unknown message := by
          rw [surface, herror]
          simp only [hconf, if_false, not_true, and_false]
          split
          · exact ⟨_, rfl⟩
          · exact ⟨_, rfl⟩
        exact iff_of_true hsurface ⟨hclass, hconf, text, htext, hnames⟩

/-! ### The gate's view of an error -/

/-- The error as the gate's model has it, where `protocol` is what `protocolError` recognises. -/
def Rejection.thrown (error : Rejection) (message : String) : Thrown :=
  if (protocolError error).any Option.isSome then .protocol
  else
    match error.errorClass with
    | .protocol => .protocol
    | .configuration => .configuration
    | .unavailable => .unavailable message
    | .unknown => .unknown
    | .error => .other
    | .value => .other

/-- What surfaces, for the gate; `error` is the error itself. -/
def Surfaced.thrown (error : Thrown) : Surfaced → Thrown
  | .protocol _ => .protocol
  | .configuration => .configuration
  | .unavailable none => error
  | .unavailable (some message) => .unavailable message
  | .unknown _ => .unknown
  | .broken => .other

/-- Where the search itself does not throw, `catchError` is the `catch` block. -/
theorem thrown_surface (operation message : String) (dispatched : Bool) {error : Rejection}
    (h : (protocolError error).isSome) :
    (surface operation dispatched error).thrown (error.thrown message) =
      catchError operation dispatched (error.thrown message) := by
  obtain ⟨answer, hanswer⟩ := Option.isSome_iff_exists.mp h
  cases answer with
  | some definite =>
    have hprotocol : ∃ m, definite = .protocol m := by
      rw [protocolError] at hanswer
      split at hanswer
      · cases hanswer
        exact ⟨_, rfl⟩
      · obtain ⟨text, -, htext⟩ := Option.map_eq_some_iff.mp hanswer
        simp only at htext
        split at htext
        · cases htext
          exact ⟨_, rfl⟩
        · cases htext
    obtain ⟨m, rfl⟩ := hprotocol
    simp [surface, hanswer, Rejection.thrown, Surfaced.thrown, catchError]
  | none =>
    have hclass : error.errorClass ≠ .protocol := by
      intro hclass
      rw [protocolError, if_pos hclass] at hanswer
      cases hanswer
    cases hc : error.errorClass <;> cases dispatched <;>
      simp_all [surface, Rejection.thrown, Surfaced.thrown, catchError, Thrown.beforeDispatch]

/-! ### Answers prove that nothing was written -/

/-- The script replies with an error only before it writes, and so does its `GET`. -/
theorem Ended.IsError.not_wrote {argv : List LuaString} {time : ℕ × ℕ} {held : Held}
    (h : (runScript L argv time held).IsError) : ¬ (runScript L argv time held).Wrote := by
  have hscript : ∀ raw, (Ended.outcome (operationScript L 1 argv time raw)).IsError →
      ¬ (Ended.outcome (operationScript L 1 argv time raw)).Wrote := by
    rintro raw ⟨e, he⟩ hwrote
    rw [Ended.Wrote, atomic_operationScript L 1 argv time raw e he] at hwrote
    cases hwrote
  cases held with
  | nothing => exact hscript none h
  | string raw => exact hscript (some raw) h
  | otherType =>
    rw [runScript]
    split
    · intro hwrote
      cases hwrote
    · exact id

/-- **A definitive answer is told apart by the text of the error**: correctly if it is one, and
otherwise exactly if the error carries no mark of one. -/
theorem truthful_iff (a : Attempt L) (operation : String) :
    a.Truthful operation ↔ a.delivery = .replied ∨ a.error.Unmarked := by
  rw [← surface_unknown_iff operation]
  constructor
  · intro h
    by_cases hreplied : a.delivery = .replied
    · exact .inl hreplied
    · exact .inr (h.unknown hreplied)
  · rintro (hreplied | ⟨message, hunknown⟩)
    · refine ⟨fun _ _ => ⟨hreplied, ?_⟩, fun h => absurd hreplied h⟩
      exact fun hwrote => (a.isError hreplied).not_wrote hwrote.2
    · refine ⟨fun m hm => ?_, fun _ => ⟨message, hunknown⟩⟩
      rw [hunknown] at hm
      cases hm

/-- A record is begun, the reply is lost, and the error names the command of the script. -/
def lostReply : Attempt referenceLua where
  argv := firstBegin.argv
  time := (1000, 0)
  held := .nothing
  delivery := .interrupted true
  error := ⟨.error, some (str "Connection closed in lltx_operation_v1")⟩
  isError := fun h => by cases h

theorem lostReply_untruthful :
    lostReply.Wrote ∧
      surface "begin" true lostReply.error = .protocol
        (some (str "Redis transaction rejected the request (TX_OPERATION_V1)")) ∧
      ¬ lostReply.Truthful "begin" := by
  have hsurface : surface "begin" true lostReply.error = .protocol
      (some (str "Redis transaction rejected the request (TX_OPERATION_V1)")) := by
    decide +kernel
  refine ⟨⟨by decide, ?_⟩, hsurface, ?_⟩
  · show (operationScript referenceLua 1 firstBegin.argv (1000, 0) none).write.isSome
    decide +kernel
  · intro h
    exact absurd (h.noWrite _ hsurface).1 (by decide)

end Transactions
