/-
How a `RedisOperationStore` reads the replies of the coordination script.

The reply is an array of strings or buffers; each method has a decoder that
accepts the replies its command may give and throws `InvalidReplyError` on
anything else, which the caller then sees as an unknown outcome.

* `decodeBegin`, `decodeRenew`, `decodeComplete`, `decodeStatus` — the decoders;
* `Reply.result` — what a reply says;
* `reply_decoded_iff` — in every reachable state a reply is decoded to what it
  says exactly when the lease it reports does not run longer than the one this
  store would ask for: the decoder checks a duration that another store may have
  chosen against its own `leaseMs`.
-/
import LazyLayers.OperationStore

open Js

namespace Transactions

/-! ### The decoders -/

/-- One field of a reply. -/
inductive WireField
  | string (s : JsString)
  | buffer (bytes : List UInt8)
  | other
  deriving DecidableEq, Repr

/-- The value the transport resolves with. -/
inductive Wire
  | array (fields : List WireField)
  | other
  deriving DecidableEq, Repr

/-- `InvalidReplyError` -/
structure InvalidReply where
  message : String
  deriving DecidableEq, Repr

def wireString : WireField → Except InvalidReply JsString
  | .string s => .ok s
  | .buffer bytes => .ok (decodeUtf8 bytes)
  | .other => .error ⟨"Redis transaction reply contained a non-string field"⟩

def wireParts : Wire → Except InvalidReply (List JsString)
  | .array fields => fields.mapM wireString
  | .other => .error ⟨"Redis transaction reply was not an array"⟩

/-- `^[1-9][0-9]*$` -/
def isPositiveDecimal : JsString → Bool
  | [] => false
  | u :: rest => (49 ≤ u && u ≤ 57) && rest.all fun v => 48 ≤ v && v ≤ 57

/-- `Number(value)` of a string of digits. -/
def numberOf (value : JsString) : ℕ := value.foldl (fun acc u => acc * 10 + (u.toNat - 48)) 0

/-- `decimal(value, name, max)` as the decoders call it, without zero. -/
def decodeDecimal (value : JsString) (name : String) (max : ℕ) : Except InvalidReply ℕ :=
  if ¬ isPositiveDecimal value then .error ⟨s!"Redis reply contained an invalid {name}"⟩
  else if maxSafeInteger < numberOf value ∨ numberOf value < 1 ∨ max < numberOf value then
    .error ⟨s!"Redis reply contained an out-of-range {name}"⟩
  else .ok (numberOf value)

/-- The results of the four methods; each returns some of these kinds. -/
inductive OperationResult
  | acquired (lease : Lease)
  | inProgress (remainingMs : ℕ)
  | completed (resultRef : JsString)
  | conflict
  | renewed (remainingMs : ℕ)
  | lost
  | missing
  | recoveryRequired
  deriving DecidableEq, Repr

/-- A reply with no field beside its kind. -/
def decodeBare (parts : List JsString) (what : String) (result : OperationResult) :
    Except InvalidReply OperationResult :=
  if parts.length ≠ 1 then .error ⟨s!"Invalid {what} transaction reply"⟩ else .ok result

/-- `in_progress` and `renewed`: the kind and a duration. -/
def decodeDuration (leaseMs : ℕ) (parts : List JsString) (what : String)
    (result : ℕ → OperationResult) : Except InvalidReply OperationResult :=
  match parts with
  | [_, remaining] => do
    let remainingMs ← decodeDecimal remaining "lease duration" leaseMs
    return result remainingMs
  | _ => .error ⟨s!"Invalid {what} transaction reply"⟩

/-- `completed` as `begin` and `readStatus` accept it. -/
def decodeCompleted (parts : List JsString) : Except InvalidReply OperationResult :=
  match parts with
  | [_, resultRef] =>
    if ¬ isReference resultRef maxResultReferenceBytes then
      .error ⟨"Invalid completed transaction reply"⟩
    else .ok (.completed resultRef)
  | _ => .error ⟨"Invalid completed transaction reply"⟩

variable (store : OperationStore)

def decodeBegin (wire : Wire) (identity : Identity) (expectedOwner : JsString) :
    Except InvalidReply OperationResult := do
  let parts ← wireParts wire
  if parts.head? = some (str "acquired") then
    match parts with
    | [_, owner, remaining, reconcile] =>
      if owner ≠ expectedOwner ∨ reconcile ≠ str "reconcile" then
        throw ⟨"Invalid acquired transaction reply"⟩
      let remainingMs ← decodeDecimal remaining "lease duration" store.leaseMs
      return .acquired ⟨identity, expectedOwner, remainingMs⟩
    | _ => throw ⟨"Invalid acquired transaction reply"⟩
  else if parts.head? = some (str "in_progress") then
    decodeDuration store.leaseMs parts "in-progress" .inProgress
  else if parts.head? = some (str "completed") then decodeCompleted parts
  else if parts.head? = some (str "conflict") then decodeBare parts "conflict" .conflict
  else throw ⟨"Unknown transaction begin reply"⟩

def decodeRenew (wire : Wire) : Except InvalidReply OperationResult := do
  let parts ← wireParts wire
  if parts.head? = some (str "renewed") then
    decodeDuration store.leaseMs parts "renewed" .renewed
  else if parts.head? = some (str "lost") then decodeBare parts "lost" .lost
  else if parts.head? = some (str "conflict") then decodeBare parts "conflict" .conflict
  else throw ⟨"Unknown transaction renew reply"⟩

def decodeComplete (wire : Wire) (expectedResultRef : JsString) :
    Except InvalidReply OperationResult := do
  let parts ← wireParts wire
  if parts.head? = some (str "completed") then
    match parts with
    | [_, resultRef] =>
      if resultRef ≠ expectedResultRef then throw ⟨"Invalid completed transaction reply"⟩
      return .completed resultRef
    | _ => throw ⟨"Invalid completed transaction reply"⟩
  else if parts.head? = some (str "lost") then decodeBare parts "lost" .lost
  else if parts.head? = some (str "conflict") then decodeBare parts "conflict" .conflict
  else throw ⟨"Unknown transaction complete reply"⟩

def decodeStatus (wire : Wire) : Except InvalidReply OperationResult := do
  let parts ← wireParts wire
  if parts.head? = some (str "missing") then decodeBare parts "missing" .missing
  else if parts.head? = some (str "in_progress") then
    decodeDuration store.leaseMs parts "in-progress" .inProgress
  else if parts.head? = some (str "recovery_required") then
    decodeBare parts "recovery" .recoveryRequired
  else if parts.head? = some (str "completed") then decodeCompleted parts
  else if parts.head? = some (str "conflict") then decodeBare parts "conflict" .conflict
  else throw ⟨"Unknown transaction read reply"⟩

/-- The decoder a method hands to `dispatch`. -/
def Prepared.decode (p : Prepared) (wire : Wire) : Except InvalidReply OperationResult :=
  match p.cmd with
  | .begin => decodeBegin store wire p.identity p.owner
  | .renew => decodeRenew store wire
  | .complete => decodeComplete wire p.resultRef
  | .read => decodeStatus store wire

/-! ### What a reply says -/

/-- A string of the script as the client sees it. -/
def widen (s : LuaString) : JsString := s.map fun b => UInt16.ofNat b.toNat

/-- The result a reply names; an error reply names none. -/
def Reply.result (identity : Identity) : Reply → Option OperationResult
  | .error _ => none
  | .conflict => some .conflict
  | .missing => some .missing
  | .completed resultRef => some (.completed (widen resultRef))
  | .recoveryRequired => some .recoveryRequired
  | .inProgress remaining => some (.inProgress remaining)
  | .acquired owner remaining => some (.acquired ⟨identity, widen owner, remaining⟩)
  | .lost => some .lost
  | .renewed remaining => some (.renewed remaining)

/-- A field that delivers the given octets, as a string or as a buffer. -/
def WireField.Carries (f : WireField) (bytes : LuaString) : Prop :=
  f = .buffer bytes ∨ f = .string (decodeUtf8 bytes)

/-- A transport value that delivers a reply. -/
def Wire.Carries (wire : Wire) (reply : Reply) : Prop :=
  ∃ fields parts, wire = .array fields ∧ reply.wire = .ok parts ∧
    List.Forall₂ WireField.Carries fields parts

theorem toNat_widen (b : UInt8) : (UInt16.ofNat b.toNat).toNat = b.toNat := by
  have := b.toNat_lt
  rw [UInt16.toNat_ofNat']
  omega

theorem widen_utf8 {s : JsString} (hs : ∀ u ∈ s, u.toNat < 128) : widen (utf8 s) = s := by
  rw [widen, utf8_ascii hs, List.map_map]
  conv_rhs => rw [← List.map_id s]
  refine List.map_congr_left fun u hu => ?_
  rw [Function.comp_apply, toNat_octet (hs u hu), UInt16.ofNat_toNat]
  rfl

/-- ASCII fields arrive as the strings they are. -/
theorem wireParts_carries {fields : List WireField} {parts : List LuaString}
    (h : List.Forall₂ WireField.Carries fields parts)
    (hascii : ∀ part ∈ parts, ∀ b ∈ part, b.toNat < 128) :
    wireParts (.array fields) = .ok (parts.map widen) := by
  rw [wireParts]
  induction h with
  | nil => rfl
  | @cons f part fields parts hf _ ih =>
    have hdec : decodeUtf8 part = widen part := decodeUtf8_ascii (hascii part (by simp))
    have hfield : wireString f = .ok (widen part) := by
      rcases hf with rfl | rfl
      · rw [wireString, hdec]
      · rw [wireString, hdec]
    rw [List.mapM_cons, hfield, ih fun q hq => hascii q (by simp [hq])]
    rfl

theorem numberOf_widen (s : LuaString) : numberOf (widen s) = digitsValue s := by
  rw [numberOf, widen, List.foldl_map, digitsValue]
  simp only [toNat_widen]

theorem isPositiveDecimal_widen {s : LuaString} (h : isCanonicalDecimal s = true) :
    isPositiveDecimal (widen s) = true := by
  cases s with
  | nil => cases h
  | cons b rest =>
    simp only [isCanonicalDecimal, Bool.and_eq_true, decide_eq_true_eq, List.all_eq_true,
      UInt8.le_iff_toNat_le, UInt8.reduceToNat] at h
    simp only [widen, List.map_cons, isPositiveDecimal, List.all_map, Bool.and_eq_true,
      decide_eq_true_eq, List.all_eq_true, Function.comp_apply, UInt16.le_iff_toNat_le,
      UInt16.reduceToNat, toNat_widen]
    exact h

/-- A duration is read back when it is in the range the decoder allows, and refused otherwise. -/
theorem decodeDecimal_widen {n max : ℕ} (hpos : 0 < n) (hmax : max ≤ maxSafeInteger)
    (name : String) :
    decodeDecimal (widen (decimal n)) name max =
      if n ≤ max then .ok n else .error ⟨s!"Redis reply contained an out-of-range {name}"⟩ := by
  have hcan := isPositiveDecimal_widen (isCanonicalDecimal_decimal hpos)
  have hval : numberOf (widen (decimal n)) = n := by rw [numberOf_widen, digitsValue_decimal]
  rw [decodeDecimal, hval, if_neg (by rw [hcan]; decide)]
  by_cases hn : n ≤ max
  · rw [if_pos hn, if_neg (by omega)]
  · rw [if_neg hn, if_pos (by omega)]

theorem ascii_of_isReferenceByte {b : UInt8} (h : isReferenceByte b = true) : b.toNat < 128 := by
  simp only [isReferenceByte, Bool.or_eq_true, Bool.and_eq_true, decide_eq_true_eq, beq_iff_eq,
    UInt8.le_iff_toNat_le, UInt8.reduceToNat, ← UInt8.toNat_inj] at h
  omega

theorem isReferenceUnit_widen {b : UInt8} (h : isReferenceByte b = true) :
    isReferenceUnit (UInt16.ofNat b.toNat) = true := by
  simp only [isReferenceByte, Bool.or_eq_true, Bool.and_eq_true, decide_eq_true_eq, beq_iff_eq,
    UInt8.le_iff_toNat_le, UInt8.reduceToNat, ← UInt8.toNat_inj] at h
  simp only [isReferenceUnit, isAlphanumeric, Bool.or_eq_true, Bool.and_eq_true,
    decide_eq_true_eq, beq_iff_eq, UInt16.le_iff_toNat_le, UInt16.reduceToNat, toNat_widen,
    ← UInt16.toNat_inj]
  omega

/-- What passes the Lua pattern matches `REFERENCE`. -/
theorem isReference_widen {s : LuaString} {cap : ℕ} (h : reference s cap = true) :
    isReference (widen s) cap = true := by
  rw [reference, bounded, Bool.and_eq_true, Bool.and_eq_true, decide_eq_true_eq,
    decide_eq_true_eq, List.all_eq_true] at h
  obtain ⟨⟨hpos, hcap⟩, hall⟩ := h
  have hlen : byteLength (widen s) = s.length := by
    rw [byteLength, widen, utf8_widen fun b hb => ascii_of_isReferenceByte (hall b hb)]
  rw [isReference, hlen, matchesReference, Bool.and_eq_true, Bool.and_eq_true, Bool.and_eq_true,
    decide_eq_true_eq, decide_eq_true_eq, decide_eq_true_eq, widen, List.length_map, List.all_map,
    List.all_eq_true]
  refine ⟨⟨hpos, hcap⟩, ?_, fun b hb => isReferenceUnit_widen (hall b hb)⟩
  rw [ne_eq, List.map_eq_nil_iff]
  exact List.ne_nil_of_length_pos hpos

/-! ### Which replies a command may give -/

/-- How long a lease of the same operation still runs. -/
def heldFor (a : Args) (now : ℕ) : Option Record → ℕ
  | none => 0
  | some r =>
    if r.fingerprint = a.fp ∧ r.durableId = a.durable ∧ r.state = .pending then remaining r now
    else 0

/-- The replies of each command; `begin` and `read` report the running lease. -/
def Answers (a : Args) (held : ℕ) (reply : Reply) : Prop :=
  match a.cmd with
  | .begin =>
    (0 < held ∧ (reply = .acquired a.owner held ∨ reply = .inProgress held)) ∨
      (held = 0 ∧ (reply = .conflict ∨ reply = .acquired a.owner a.lease ∨
        ∃ R, reference R 256 = true ∧ reply = .completed R))
  | .read =>
    (0 < held ∧ reply = .inProgress held) ∨
      (held = 0 ∧ (reply = .conflict ∨ reply = .missing ∨ reply = .recoveryRequired ∨
        ∃ R, reference R 256 = true ∧ reply = .completed R))
  | .renew => reply = .conflict ∨ reply = .lost ∨ reply = .renewed a.lease
  | .complete => reply = .conflict ∨ reply = .lost ∨ reply = .completed a.result

theorem persist_reply (L : Lua) (now : ℕ) (q : Record) (reply : Reply) :
    (∃ e, (persist L now q reply).reply = .error e) ∨ (persist L now q reply).reply = reply := by
  unfold persist
  split
  · exact .inl ⟨_, rfl⟩
  · dsimp only
    split
    · exact .inr rfl
    · exact .inl ⟨_, rfl⟩

variable {L : Lua} {a : Args} {now : ℕ} {r : Option Record}

/-- A record that the script has let past its identity check. -/
def SameOperation (a : Args) (r : Option Record) : Prop :=
  ∀ q, r = some q → q.fingerprint = a.fp ∧ q.durableId = a.durable

theorem heldFor_pending {q : Record} (hsame : SameOperation a (some q))
    (hst : q.state = .pending) : heldFor a now (some q) = remaining q now := by
  obtain ⟨hfp, hdur⟩ := hsame q rfl
  rw [heldFor, if_pos ⟨hfp, hdur, hst⟩]

theorem heldFor_completed {q : Record} (hst : q.state = .completed) :
    heldFor a now (some q) = 0 := by
  rw [heldFor, if_neg]
  rintro ⟨-, -, h⟩
  rw [hst] at h
  cases h

theorem answers_readCommand (hcmd : a.cmd = .read) (hsame : SameOperation a r)
    (hvalid : ∀ q, r = some q → q.Valid) :
    Answers a (heldFor a now r) (readCommand now r).reply := by
  rw [Answers, hcmd]
  dsimp only
  rcases r with _ | q
  · exact .inr ⟨rfl, .inr (.inl rfl)⟩
  · rw [readCommand]
    split
    · next hst =>
      exact .inr ⟨heldFor_completed hst,
        .inr (.inr (.inr ⟨_, ((hvalid q rfl).completed hst).2, rfl⟩))⟩
    · next hst =>
      have hpend : q.state = .pending := by
        cases h : q.state with
        | pending => rfl
        | completed => exact absurd h hst
      rw [heldFor_pending hsame hpend]
      split
      · next hrem => exact .inr ⟨hrem, .inr (.inr (.inl rfl))⟩
      · next hrem => exact .inl ⟨Nat.pos_of_ne_zero hrem, rfl⟩

theorem answers_completedCommand {q : Record} (hcmd : a.cmd ≠ .read) (hst : q.state = .completed)
    (hvalid : q.Valid) :
    Answers a (heldFor a now (some q)) (completedCommand a q).reply := by
  have hres := (hvalid.completed hst).2
  rw [Answers, completedCommand, heldFor_completed hst]
  cases h : a.cmd with
  | begin => exact .inr ⟨rfl, .inr (.inr ⟨_, hres, rfl⟩)⟩
  | renew => exact .inr (.inl rfl)
  | complete =>
    simp only [reduceCtorEq, if_false, true_and]
    split
    · exact .inl rfl
    · next hne =>
      rw [ne_eq, not_not] at hne
      exact .inr (.inr (by rw [hne]; rfl))
  | read => exact absurd h hcmd

theorem answers_beginCommand (hcmd : a.cmd = .begin) (hsame : SameOperation a r)
    (hpend : ∀ q, r = some q → q.state = .pending) :
    (∃ e, (beginCommand L a now r).reply = .error e) ∨
      Answers a (heldFor a now r) (beginCommand L a now r).reply := by
  -- the lease is free: a new one is written, unless the write is refused
  have hfree : heldFor a now r = 0 → ∀ q : Record,
      (∃ e, (persist L now q (.acquired a.owner a.lease)).reply = .error e) ∨
        Answers a (heldFor a now r) (persist L now q (.acquired a.owner a.lease)).reply := by
    intro hheld q
    rcases persist_reply L now q (.acquired a.owner a.lease) with he | hok
    · exact .inl he
    · refine .inr ?_
      rw [hok, Answers, hcmd]
      exact .inr ⟨hheld, .inr (.inl rfl)⟩
  have hrun : ∀ reply, 0 < heldFor a now r → (reply = .acquired a.owner (heldFor a now r) ∨
      reply = .inProgress (heldFor a now r)) → Answers a (heldFor a now r) reply := by
    intro reply hpos hreply
    rw [Answers, hcmd]
    exact .inl ⟨hpos, hreply⟩
  rcases r with _ | q
  · exact hfree rfl _
  · have hheld : heldFor a now (some q) = remaining q now := heldFor_pending hsame (hpend q rfl)
    rw [beginCommand]
    split
    · next hrem =>
      rw [← hheld] at hrem ⊢
      split
      · exact .inr (hrun _ hrem (.inl rfl))
      · exact .inr (hrun _ hrem (.inr rfl))
    · next hrem =>
      split
      · exact .inl ⟨_, rfl⟩
      · exact hfree (by rw [hheld]; omega) _

/-- Past the identity check, a command answers as it may or fails. -/
theorem answers_transition (hsame : SameOperation a r) (hvalid : ∀ q, r = some q → q.Valid) :
    (∃ e, (transition L a now r).reply = .error e) ∨
      Answers a (heldFor a now r) (transition L a now r).reply := by
  unfold transition
  split
  · next hcmd => exact .inr (answers_readCommand hcmd hsame hvalid)
  · next hread =>
    split
    · next q hfilter =>
      obtain ⟨hr, hst⟩ := Option.filter_eq_some_iff.mp hfilter
      rw [decide_eq_true_eq] at hst
      rw [hr]
      exact .inr (answers_completedCommand hread hst (hvalid q hr))
    · next hfilter =>
      have hpend : ∀ q, r = some q → q.state = .pending := by
        rintro q rfl
        cases hst : q.state with
        | pending => rfl
        | completed => exact absurd (by simp [Option.filter, hst]) (hfilter q)
      split
      · next hcmd => exact answers_beginCommand hcmd hsame hpend
      · next hbegin =>
        -- renew and complete: `lost`, or what the owner asked for
        have hrest : a.cmd = .renew ∨ a.cmd = .complete := by
          cases h : a.cmd with
          | begin => exact absurd h hbegin
          | renew => exact .inl rfl
          | complete => exact .inr rfl
          | read => exact absurd h hread
        have hlost : Answers a (heldFor a now r) .lost := by
          rw [Answers]
          rcases hrest with h | h <;> rw [h] <;> exact .inr (.inl rfl)
        rcases r with _ | q
        · exact .inr hlost
        · dsimp only
          split
          · exact .inr hlost
          · split
            · next hren =>
              rcases persist_reply L now _ (.renewed a.lease) with he | hok
              · exact .inl he
              · refine .inr ?_
                rw [Answers, hren]
                exact .inr (.inr hok)
            · next hren =>
              have hcomp : a.cmd = .complete := hrest.resolve_left hren
              rcases persist_reply L now _ (.completed a.result) with he | hok
              · exact .inl he
              · refine .inr ?_
                rw [Answers, hcomp]
                exact .inr (.inr hok)

/-- In a reachable state every command answers as it may or fails. -/
theorem answers_coordinate {s : Server} (hc : Coherent L s) (a : Args) :
    (∃ e, (coordinate L a s.time (s.key.map Stored.raw)).reply = .error e) ∨
      Answers a (heldFor a s.now (s.record L))
        (coordinate L a s.time (s.key.map Stored.raw)).reply := by
  rw [coordinate, hc.load_eq]
  dsimp only
  split
  · next hmismatch =>
    obtain ⟨q, hq, hne⟩ := (Option.any_eq_true _ _).mp hmismatch
    rw [decide_eq_true_eq] at hne
    have hheld : heldFor a s.now (s.record L) = 0 := by
      rw [hq, heldFor, if_neg]
      rintro ⟨hfp, hdur, -⟩
      exact hne.elim (fun h => h hfp) fun h => h hdur
    refine .inr ?_
    rw [hheld, Answers]
    cases a.cmd with
    | begin => exact .inr ⟨rfl, .inl rfl⟩
    | renew => exact .inl rfl
    | complete => exact .inl rfl
    | read => exact .inr ⟨rfl, .inl rfl⟩
  · next hmatch =>
    rw [Server.time_now]
    split
    · refine answers_transition (fun q hq => ?_) fun q hq => Coherent.valid hq
      rw [hq] at hmatch
      simpa using hmatch
    · exact .inl ⟨_, rfl⟩

/-! ### Decoding -/

variable {store} {p : Prepared} {wire : Wire} {reply : Reply}

theorem Wire.Carries.parts {parts : List LuaString} (h : wire.Carries reply)
    (hwire : reply.wire = .ok parts) (hascii : ∀ part ∈ parts, ∀ b ∈ part, b.toNat < 128) :
    wireParts wire = .ok (parts.map widen) := by
  obtain ⟨fields, parts', rfl, hparts, hall⟩ := h
  rw [hwire] at hparts
  cases hparts
  exact wireParts_carries hall hascii

theorem decodeBegin_acquired {x owner : JsString} {identity : Identity}
    (h : wireParts wire = .ok [str "acquired", owner, x, str "reconcile"]) :
    decodeBegin store wire identity owner =
      (decodeDecimal x "lease duration" store.leaseMs).map
        fun n => .acquired ⟨identity, owner, n⟩ := by
  rw [decodeBegin, h]
  simp only [bind, Except.bind, List.head?_cons, if_true, ne_eq, not_true_eq_false, or_self,
    if_false]
  rfl

theorem decodeBegin_inProgress {x owner : JsString} {identity : Identity}
    (h : wireParts wire = .ok [str "in_progress", x]) :
    decodeBegin store wire identity owner =
      (decodeDecimal x "lease duration" store.leaseMs).map .inProgress := by
  rw [decodeBegin, h]
  rfl

theorem decodeStatus_inProgress {x : JsString} (h : wireParts wire = .ok [str "in_progress", x]) :
    decodeStatus store wire =
      (decodeDecimal x "lease duration" store.leaseMs).map .inProgress := by
  rw [decodeStatus, h]
  rfl

theorem decodeRenew_renewed {x : JsString} (h : wireParts wire = .ok [str "renewed", x]) :
    decodeRenew store wire =
      (decodeDecimal x "lease duration" store.leaseMs).map .renewed := by
  rw [decodeRenew, h]
  rfl

theorem decodeCompleted_reference {x : JsString}
    (hx : isReference x maxResultReferenceBytes = true) (kind : JsString) :
    decodeCompleted [kind, x] = .ok (.completed x) := by
  rw [decodeCompleted, if_neg (by rw [hx]; decide)]

theorem decodeBegin_completed {x owner : JsString} {identity : Identity}
    (h : wireParts wire = .ok [str "completed", x])
    (hx : isReference x maxResultReferenceBytes = true) :
    decodeBegin store wire identity owner = .ok (.completed x) := by
  rw [decodeBegin, h, ← decodeCompleted_reference hx (str "completed")]
  rfl

theorem decodeStatus_completed {x : JsString} (h : wireParts wire = .ok [str "completed", x])
    (hx : isReference x maxResultReferenceBytes = true) :
    decodeStatus store wire = .ok (.completed x) := by
  rw [decodeStatus, h, ← decodeCompleted_reference hx (str "completed")]
  rfl

theorem decodeComplete_completed {x : JsString} (h : wireParts wire = .ok [str "completed", x]) :
    decodeComplete wire x = .ok (.completed x) := by
  rw [decodeComplete, h]
  simp only [bind, Except.bind, List.head?_cons, if_true, ne_eq, not_true_eq_false, if_false]
  rfl

/-- The literal parts of the replies are ASCII. -/
theorem ascii_literal : ∀ part ∈ [lua "conflict", lua "missing", lua "completed",
    lua "recovery_required", lua "in_progress", lua "acquired", lua "reconcile", lua "lost",
    lua "renewed"], ∀ b ∈ part, b.toNat < 128 := by
  decide

/-- A duration in a reply is what decides whether the reply is accepted. -/
theorem map_decodeDecimal {n max : ℕ} (hpos : 0 < n) (hmax : max ≤ maxSafeInteger)
    (f : ℕ → OperationResult) :
    ((decodeDecimal (widen (decimal n)) "lease duration" max).map f).toOption = some (f n) ↔
      n ≤ max := by
  rw [decodeDecimal_widen hpos hmax]
  split
  · next h => exact iff_of_true rfl h
  · next h => exact iff_of_false (by simp [Except.map, Except.toOption]) h

theorem leaseMs_le (store : OperationStore) : store.leaseMs ≤ maxSafeInteger :=
  le_trans store.lease_le (by norm_num [maxOperationLeaseMs, maxSafeInteger])

/-- `in_progress`, as `begin` and `readStatus` read it. -/
theorem parts_inProgress {n : ℕ} (h : wire.Carries (.inProgress n)) :
    wireParts wire = .ok [str "in_progress", widen (decimal n)] :=
  h.parts rfl fun part hpart => by
    simp only [List.mem_cons, List.not_mem_nil, or_false] at hpart
    rcases hpart with rfl | rfl
    · exact ascii_literal _ (by decide)
    · exact ascii_decimal n

theorem parts_renewed {n : ℕ} (h : wire.Carries (.renewed n)) :
    wireParts wire = .ok [str "renewed", widen (decimal n)] :=
  h.parts rfl fun part hpart => by
    simp only [List.mem_cons, List.not_mem_nil, or_false] at hpart
    rcases hpart with rfl | rfl
    · exact ascii_literal _ (by decide)
    · exact ascii_decimal n

theorem parts_completed {R : LuaString} (hR : ∀ b ∈ R, b.toNat < 128)
    (h : wire.Carries (.completed R)) : wireParts wire = .ok [str "completed", widen R] :=
  h.parts rfl fun part hpart => by
    simp only [List.mem_cons, List.not_mem_nil, or_false] at hpart
    rcases hpart with rfl | rfl
    · exact ascii_literal _ (by decide)
    · exact hR

theorem parts_acquired {owner : LuaString} {n : ℕ} (ho : ∀ b ∈ owner, b.toNat < 128)
    (h : wire.Carries (.acquired owner n)) :
    wireParts wire = .ok [str "acquired", widen owner, widen (decimal n), str "reconcile"] :=
  h.parts rfl fun part hpart => by
    simp only [List.mem_cons, List.not_mem_nil, or_false] at hpart
    rcases hpart with rfl | rfl | rfl | rfl
    · exact ascii_literal _ (by decide)
    · exact ho
    · exact ascii_decimal n
    · exact ascii_literal _ (by decide)

theorem parts_conflict (h : wire.Carries .conflict) : wireParts wire = .ok [str "conflict"] :=
  h.parts rfl (by decide)

theorem parts_lost (h : wire.Carries .lost) : wireParts wire = .ok [str "lost"] :=
  h.parts rfl (by decide)

theorem parts_missing (h : wire.Carries .missing) : wireParts wire = .ok [str "missing"] :=
  h.parts rfl (by decide)

theorem parts_recoveryRequired (h : wire.Carries .recoveryRequired) :
    wireParts wire = .ok [str "recovery_required"] :=
  h.parts rfl (by decide)

theorem ascii_of_reference {s : LuaString} {cap : ℕ} (h : reference s cap = true) :
    ∀ b ∈ s, b.toNat < 128 := by
  rw [reference, Bool.and_eq_true, List.all_eq_true] at h
  exact fun b hb => ascii_of_isReferenceByte (h.2 b hb)

theorem ascii_of_matchesHex64 {s : JsString} (h : matchesHex64 s = true) :
    ∀ u ∈ s, u.toNat < 128 := by
  rw [matchesHex64, Bool.and_eq_true, List.all_eq_true] at h
  exact fun u hu => ascii_of_isHexUnit (h.2 u hu)

theorem ascii_utf8 {s : JsString} (hs : ∀ u ∈ s, u.toNat < 128) :
    ∀ b ∈ utf8 s, b.toNat < 128 := by
  intro b hb
  rw [utf8_ascii hs] at hb
  obtain ⟨u, hu, rfl⟩ := List.mem_map.mp hb
  rw [toNat_octet (hs u hu)]
  exact hs u hu

theorem decode_begin {held : ℕ} (hp : p.Checked) (hcmd : p.cmd = .begin)
    (hans : Answers (p.toArgs store) held reply) (h : wire.Carries reply) :
    (decodeBegin store wire p.identity p.owner).toOption = reply.result p.identity ↔
      held ≤ store.leaseMs := by
  have howner := ascii_of_matchesHex64 (hp.owner (by rw [hcmd]; decide))
  have hlease := leaseMs_le store
  -- a lease that is granted or still runs
  have hacquired : ∀ n, 0 < n → wire.Carries (.acquired (utf8 p.owner) n) →
      ((decodeBegin store wire p.identity p.owner).toOption =
        (Reply.acquired (utf8 p.owner) n).result p.identity ↔ n ≤ store.leaseMs) := by
    intro n hn hcarry
    have hparts := parts_acquired (ascii_utf8 howner) hcarry
    rw [widen_utf8 howner] at hparts
    rw [decodeBegin_acquired hparts, Reply.result, widen_utf8 howner]
    exact map_decodeDecimal hn hlease _
  rw [Answers, show (p.toArgs store).cmd = .begin from hcmd] at hans
  rcases hans with ⟨hpos, rfl | rfl⟩ | ⟨rfl, rfl | rfl | ⟨R, hR, rfl⟩⟩
  · exact hacquired held hpos h
  · rw [decodeBegin_inProgress (parts_inProgress h)]
    exact map_decodeDecimal hpos hlease _
  · refine iff_of_true ?_ (Nat.zero_le _)
    rw [decodeBegin, parts_conflict h]
    rfl
  · refine iff_of_true ?_ (Nat.zero_le _)
    exact (hacquired store.leaseMs store.lease_pos h).mpr le_rfl
  · refine iff_of_true ?_ (Nat.zero_le _)
    rw [decodeBegin_completed (parts_completed (ascii_of_reference hR) h) (isReference_widen hR)]
    rfl

theorem decode_read {held : ℕ} (hcmd : p.cmd = .read)
    (hans : Answers (p.toArgs store) held reply) (h : wire.Carries reply) :
    (decodeStatus store wire).toOption = reply.result p.identity ↔ held ≤ store.leaseMs := by
  rw [Answers, show (p.toArgs store).cmd = .read from hcmd] at hans
  rcases hans with ⟨hpos, rfl⟩ | ⟨rfl, rfl | rfl | rfl | ⟨R, hR, rfl⟩⟩
  · rw [decodeStatus_inProgress (parts_inProgress h)]
    exact map_decodeDecimal hpos (leaseMs_le store) _
  · refine iff_of_true ?_ (Nat.zero_le _)
    rw [decodeStatus, parts_conflict h]
    rfl
  · refine iff_of_true ?_ (Nat.zero_le _)
    rw [decodeStatus, parts_missing h]
    rfl
  · refine iff_of_true ?_ (Nat.zero_le _)
    rw [decodeStatus, parts_recoveryRequired h]
    rfl
  · refine iff_of_true ?_ (Nat.zero_le _)
    rw [decodeStatus_completed (parts_completed (ascii_of_reference hR) h) (isReference_widen hR)]
    rfl

theorem decode_renew {held : ℕ} (hcmd : p.cmd = .renew)
    (hans : Answers (p.toArgs store) held reply) (h : wire.Carries reply) :
    (decodeRenew store wire).toOption = reply.result p.identity := by
  rw [Answers, show (p.toArgs store).cmd = .renew from hcmd] at hans
  rcases hans with rfl | rfl | rfl
  · rw [decodeRenew, parts_conflict h]
    rfl
  · rw [decodeRenew, parts_lost h]
    rfl
  · rw [decodeRenew_renewed (parts_renewed h)]
    exact (map_decodeDecimal store.lease_pos (leaseMs_le store) _).mpr le_rfl

theorem decode_complete {held : ℕ} (hp : p.Checked) (hcmd : p.cmd = .complete)
    (hans : Answers (p.toArgs store) held reply) (h : wire.Carries reply) :
    (decodeComplete wire p.resultRef).toOption = reply.result p.identity := by
  rw [Answers, show (p.toArgs store).cmd = .complete from hcmd] at hans
  rcases hans with rfl | rfl | rfl
  · rw [decodeComplete, parts_conflict h]
    rfl
  · rw [decodeComplete, parts_lost h]
    rfl
  · have hall := (hp.resultRef hcmd).1
    rw [matchesReference, Bool.and_eq_true, List.all_eq_true] at hall
    have hascii : ∀ u ∈ p.resultRef, u.toNat < 128 :=
      fun u hu => ascii_of_isReferenceUnit (hall.2 u hu)
    have hparts := parts_completed (ascii_utf8 hascii) h
    have hback : widen (p.toArgs store).result = p.resultRef := widen_utf8 hascii
    rw [show widen (utf8 p.resultRef) = p.resultRef from hback] at hparts
    rw [decodeComplete_completed hparts, Reply.result, hback]
    rfl

/-! ### Every reachable state -/

variable (store) (L : Lua) (clock : ℕ) (acts : List Action) (n : ℕ)

/-- One command of a store in the state before the `n`-th action of a run. -/
def Prepared.execute (p : Prepared) : Outcome :=
  operationScript L 1 (p.argv store) (Server.at L clock acts n).time
    ((Server.at L clock acts n).key.map Stored.raw)

/-- The lease that `begin` and `readStatus` report, if one runs, is no longer
than the lease of the asking store. -/
def Prepared.WithinLease (p : Prepared) : Prop :=
  p.cmd = .begin ∨ p.cmd = .read →
    heldFor (p.toArgs store) (Server.at L clock acts n).now ((Server.at L clock acts n).record L) ≤
      store.leaseMs

/-- **A reply is decoded to what it says exactly when the lease it reports is
within the asking store's own.**  This holds in every state that stores with any
durations can reach, for every call and every reply that is not an error. -/
theorem reply_decoded_iff (call : Call) (p : Prepared) (wire : Wire)
    (hprep : call.prepare store = .ok p)
    (hreply : wire.Carries (p.execute store L clock acts n).reply) :
    (p.decode store wire).toOption = (p.execute store L clock acts n).reply.result p.identity ↔
      p.WithinLease store L clock acts n := by
  have hp := checked_of_prepare hprep
  -- an error reply carries nothing, so the arguments passed and the command answered
  have hnoerror : ∀ e, (p.execute store L clock acts n).reply ≠ .error e := by
    intro e he
    rw [he] at hreply
    obtain ⟨fields, parts, -, hw, -⟩ := hreply
    cases hw
  have hans : Answers (p.toArgs store) (heldFor (p.toArgs store) (Server.at L clock acts n).now
      ((Server.at L clock acts n).record L)) (p.execute store L clock acts n).reply := by
    rw [Prepared.execute, operationScript_eq, checkArguments_argv L store hp] at hnoerror ⊢
    by_cases hd : 37 ∈ p.identity.durableId
    · rw [if_pos hd] at hnoerror
      exact absurd rfl (hnoerror .invalidId)
    · rw [if_neg hd] at hnoerror ⊢
      by_cases hr : p.cmd = .complete ∧ 37 ∈ p.resultRef
      · rw [if_pos hr] at hnoerror
        exact absurd rfl (hnoerror .invalidResult)
      · rw [if_neg hr] at hnoerror ⊢
        rcases answers_coordinate (coherent_at L clock acts n) (p.toArgs store) with he | hans
        · obtain ⟨e, he⟩ := he
          exact absurd he (hnoerror e)
        · exact hans
  rw [Prepared.decode, Prepared.WithinLease]
  cases hcmd : p.cmd with
  | begin =>
    dsimp only
    rw [decode_begin hp hcmd hans hreply]
    simp
  | renew =>
    dsimp only
    exact iff_of_true (decode_renew hcmd hans hreply) (by simp)
  | complete =>
    dsimp only
    exact iff_of_true (decode_complete hp hcmd hans hreply) (by simp)
  | read =>
    dsimp only
    rw [decode_read hcmd hans hreply]
    simp

/-! ### A longer lease -/

/-- A store that leases for a minute. -/
def minuteStore : OperationStore :=
  { defaultStore with
    leaseMs := 60000
    lease_pos := by decide
    lease_le := by decide
    lease_retention := by decide }

/-- Another process begins the operation with the longer lease. -/
def minutePrepared : Prepared :=
  { samplePrepared (str "order-1") with owner := newOwner (Vector.replicate 32 1) }

/-- Its command, as the script receives it. -/
def minuteBegin : Request where
  toArgs := minutePrepared.toArgs minuteStore
  fp_hex := by decide +kernel
  durable_ref := by decide +kernel
  owner_hex := fun _ => by decide +kernel
  lease_pos := by decide
  lease_le := by decide
  lease_retention := by decide
  retention_le := by decide
  result_ref := fun h => by cases h

/-- The token of `sampleCall` on the wire. -/
def sampleOwner : LuaString := List.replicate 64 48

theorem reply_decoded_iff_first :
    ((samplePrepared (str "order-1")).decode defaultStore (.array [.string (str "acquired"),
        .buffer sampleOwner, .string (str "30000"), .string (str "reconcile")])).toOption =
      ((samplePrepared (str "order-1")).execute defaultStore referenceLua 0 [] 0).reply.result
        (samplePrepared (str "order-1")).identity ↔
    (samplePrepared (str "order-1")).WithinLease defaultStore referenceLua 0 [] 0 := by
  refine reply_decoded_iff defaultStore referenceLua 0 [] 0 _ _ _ prepare_plain ?_
  have hreply : ((samplePrepared (str "order-1")).execute defaultStore referenceLua 0 [] 0).reply =
      .acquired sampleOwner 30000 := by decide +kernel
  rw [hreply]
  refine ⟨_, _, rfl, rfl, .cons (.inr ?_) (.cons (.inl rfl) (.cons (.inr ?_)
    (.cons (.inr ?_) .nil)))⟩ <;> decide +kernel

/-- A lease of a minute is running; a store that leases for thirty seconds asks
for the operation and cannot read the answer. -/
theorem longer_lease_undecodable :
    minuteBegin.argv = minutePrepared.argv minuteStore ∧
    ((samplePrepared (str "order-1")).execute defaultStore referenceLua 0
      [.command minuteBegin] 1).reply = .inProgress 60000 ∧
    Wire.Carries (.array [.string (str "in_progress"), .string (str "60000")])
      (.inProgress 60000) ∧
    (samplePrepared (str "order-1")).decode defaultStore
      (.array [.string (str "in_progress"), .string (str "60000")]) =
        .error ⟨"Redis reply contained an out-of-range lease duration"⟩ := by
  refine ⟨by decide +kernel, by decide +kernel,
    ⟨_, _, rfl, rfl, .cons (.inr ?_) (.cons (.inr ?_) .nil)⟩, rfl⟩ <;> decide +kernel

end Transactions
