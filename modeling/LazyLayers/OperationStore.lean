/-
The client side of the coordination protocol (`operationStore.ts`).

A `RedisOperationStore` validates what its caller gives it and sends one command
with seven string arguments.  The script checks the same arguments again with
Lua patterns, so the same grammar is written twice.

* `OperationStore.new` — the constructor's checks, kept as fields of the store;
* `Call.prepare` — what each of the four methods sends;
* `arguments_pass_iff` — a validated call passes the argument checks of the
  script exactly when no percent sign occurs in the references it sends: the
  character class of the client has one, in the Lua pattern it is the escape
  character of the dot.
-/
import LazyLayers.OperationKeys
import LazyLayers.OperationLeases

open Js

namespace Transactions

/-! ### The store and its calls -/

def defaultOperationLeaseMs : ℕ := 30000
def defaultOperationRetentionMs : ℕ := 604800000
def maxOperationLeaseMs : ℕ := 3600000
def maxOperationRetentionMs : ℕ := 2592000000
def defaultOperationTimeoutMs : ℕ := 2000

/-- `positiveInteger(name, value, max)` -/
def positiveInteger (name : String) (value : JsValue) (max : ℕ) :
    Except OperationError { n : ℕ // 1 ≤ n ∧ n ≤ max } :=
  match value with
  | .number q =>
    if h : q.den = 1 ∧ q.num.natAbs ≤ maxSafeInteger ∧ 1 ≤ q.num ∧ q.num ≤ max then
      .ok ⟨q.num.toNat, by omega⟩
    else .error (.invalidConfiguration s!"{name} must be an integer from 1 to {max}")
  | _ => .error (.invalidConfiguration s!"{name} must be an integer from 1 to {max}")

/-- `value ?? fallback` -/
def JsValue.orElse (value fallback : JsValue) : JsValue :=
  match value with
  | .null => fallback
  | .undefined => fallback
  | value => value

/-- The options the constructor reads; the gate has its own. -/
structure OperationStoreOptions where
  namespace_ : JsValue := .undefined
  leaseMs : JsValue := .undefined
  retentionMs : JsValue := .undefined
  operationTimeoutMs : JsValue := .undefined

/-- A store that the constructor has let through. -/
structure OperationStore where
  namespace_ : JsString
  leaseMs : ℕ
  retentionMs : ℕ
  operationTimeoutMs : ℕ
  lease_pos : 1 ≤ leaseMs
  lease_le : leaseMs ≤ maxOperationLeaseMs
  retention_le : retentionMs ≤ maxOperationRetentionMs
  lease_retention : leaseMs ≤ retentionMs

/-- `new RedisOperationStore(transport, options)` -/
def OperationStore.new (transportNamespace : JsString) (options : OperationStoreOptions) :
    Except OperationError OperationStore := do
  let namespace_ ← validateNamespace (options.namespace_.orElse (.string transportNamespace))
  if namespace_ ≠ transportNamespace then
    throw (.invalidConfiguration "Operation store and primary transport namespaces must match")
  let leaseMs ← positiveInteger "leaseMs"
    (options.leaseMs.orElse (.number defaultOperationLeaseMs)) maxOperationLeaseMs
  let retentionMs ← positiveInteger "retentionMs"
    (options.retentionMs.orElse (.number defaultOperationRetentionMs)) maxOperationRetentionMs
  if h : retentionMs.1 < leaseMs.1 then
    throw (.invalidConfiguration "retentionMs must be at least leaseMs")
  else
    let operationTimeoutMs ← positiveInteger "operationTimeoutMs"
      (options.operationTimeoutMs.orElse (.number defaultOperationTimeoutMs)) maxSafeInteger
    return ⟨namespace_, leaseMs.1, retentionMs.1, operationTimeoutMs.1, leaseMs.2.1, leaseMs.2.2,
      retentionMs.2.2, Nat.le_of_not_lt h⟩

/-- A lease as the store hands it out and takes it back. -/
structure Lease where
  identity : Identity
  owner : JsString
  remainingMs : ℚ
  deriving DecidableEq, Repr

def OperationStore.validateLease (store : OperationStore) (input : JsValue) :
    Except OperationError Lease :=
  match input with
  | .object fields => do
    let identity ← validateIdentity (.field fields "identity")
    let owner ← validateOwner (.field fields "owner")
    match JsValue.field fields "remainingMs" with
    | .number q =>
      if q < 0 ∨ (store.leaseMs : ℚ) < q then
        throw (.invalidInput s!"lease remainingMs must be from 0 to {store.leaseMs}")
      else return ⟨identity, owner, q⟩
    | _ => throw (.invalidInput s!"lease remainingMs must be from 0 to {store.leaseMs}")
  | _ => .error (.invalidInput "lease must be an object")

/-- A call of one of the four methods; `begin` draws a fresh token. -/
inductive Call
  | begin (input : JsValue) (random : Vector UInt8 32)
  | renew (input : JsValue)
  | complete (input : JsValue) (committedResultRef : JsValue)
  | readStatus (input : JsValue)

/-- What a method has validated before it dispatches. -/
structure Prepared where
  cmd : Command
  identity : Identity
  owner : JsString
  resultRef : JsString
  deriving DecidableEq, Repr

def Call.prepare (store : OperationStore) : Call → Except OperationError Prepared
  | .begin input random => do
    let identity ← validateIdentity input
    return ⟨.begin, identity, newOwner random, []⟩
  | .renew input => do
    let lease ← store.validateLease input
    return ⟨.renew, lease.identity, lease.owner, []⟩
  | .complete input committedResultRef => do
    let lease ← store.validateLease input
    let resultRef ←
      validateReference "committedResultRef" committedResultRef maxResultReferenceBytes
    return ⟨.complete, lease.identity, lease.owner, resultRef⟩
  | .readStatus input => do
    let identity ← validateIdentity input
    return ⟨.read, identity, [], []⟩

/-- `String(n)` of a natural number. -/
def numberString (n : ℕ) : JsString := (decimal n).map fun b => UInt16.ofNat b.toNat

/-- The array `args` of a method. -/
def Prepared.args (store : OperationStore) (p : Prepared) : List JsString :=
  [p.cmd.text.map fun b => UInt16.ofNat b.toNat, p.identity.fingerprint, p.identity.durableId,
    p.owner, numberString store.leaseMs, numberString store.retentionMs, p.resultRef]

/-- `ARGV`, as the client library writes it to the socket. -/
def Prepared.argv (store : OperationStore) (p : Prepared) : List LuaString :=
  (p.args store).map utf8

/-! ### The two grammars -/

/-- The octets of an ASCII string are its code units. -/
theorem utf8_ascii {s : JsString} (hs : ∀ u ∈ s, u.toNat < 128) :
    utf8 s = s.map fun u => UInt8.ofNat u.toNat := by
  have h := utf8_ascii_append hs []
  rwa [List.append_nil, show utf8 [] = [] from rfl, List.append_nil] at h

theorem toNat_octet {u : UInt16} (hu : u.toNat < 128) : (UInt8.ofNat u.toNat).toNat = u.toNat := by
  rw [UInt8.toNat_ofNat']
  omega

theorem ascii_of_isHexUnit {u : UInt16} (h : isHexUnit u = true) : u.toNat < 128 := by
  simp only [isHexUnit, Bool.or_eq_true, Bool.and_eq_true, decide_eq_true_eq,
    UInt16.le_iff_toNat_le, UInt16.reduceToNat] at h
  omega

theorem isHexByte_octet {u : UInt16} (h : isHexUnit u = true) :
    isHexByte (UInt8.ofNat u.toNat) = true := by
  have hu := toNat_octet (ascii_of_isHexUnit h)
  simp only [isHexUnit, Bool.or_eq_true, Bool.and_eq_true, decide_eq_true_eq,
    UInt16.le_iff_toNat_le, UInt16.reduceToNat] at h
  simp only [isHexByte, Bool.or_eq_true, Bool.and_eq_true, decide_eq_true_eq,
    UInt8.le_iff_toNat_le, UInt8.reduceToNat, hu]
  exact h

/-- What matches `HEX_64` passes `hex64`. -/
theorem hex64_utf8 {s : JsString} (h : matchesHex64 s = true) : hex64 (utf8 s) = true := by
  rw [matchesHex64, Bool.and_eq_true, beq_iff_eq, List.all_eq_true] at h
  obtain ⟨hlen, hall⟩ := h
  rw [utf8_ascii fun u hu => ascii_of_isHexUnit (hall u hu), hex64, bounded, List.length_map, hlen]
  simp only [List.all_map, Bool.and_eq_true, List.all_eq_true, Function.comp_apply]
  exact ⟨by decide, fun u hu => isHexByte_octet (hall u hu)⟩

theorem ascii_of_isReferenceUnit {u : UInt16} (h : isReferenceUnit u = true) : u.toNat < 128 := by
  simp only [isReferenceUnit, isAlphanumeric, Bool.or_eq_true, Bool.and_eq_true,
    decide_eq_true_eq, beq_iff_eq, UInt16.le_iff_toNat_le, UInt16.reduceToNat,
    ← UInt16.toNat_inj] at h
  omega

/-- Of the characters the client allows, the Lua pattern refuses the percent sign alone. -/
theorem isReferenceByte_octet {u : UInt16} (h : isReferenceUnit u = true) :
    isReferenceByte (UInt8.ofNat u.toNat) = true ↔ u ≠ 37 := by
  have hu := toNat_octet (ascii_of_isReferenceUnit h)
  simp only [isReferenceUnit, isAlphanumeric, Bool.or_eq_true, Bool.and_eq_true,
    decide_eq_true_eq, beq_iff_eq, UInt16.le_iff_toNat_le, UInt16.reduceToNat,
    ← UInt16.toNat_inj] at h
  simp only [isReferenceByte, Bool.or_eq_true, Bool.and_eq_true, decide_eq_true_eq, beq_iff_eq,
    UInt8.le_iff_toNat_le, UInt8.reduceToNat, ← UInt8.toNat_inj, hu, ne_eq, ← UInt16.toNat_inj,
    UInt16.reduceToNat]
  omega

theorem reference_utf8 {s : JsString} {cap : ℕ} (h : matchesReference s = true)
    (hcap : byteLength s ≤ cap) : reference (utf8 s) cap = true ↔ 37 ∉ s := by
  rw [matchesReference, Bool.and_eq_true, decide_eq_true_eq, List.all_eq_true] at h
  obtain ⟨hne, hall⟩ := h
  rw [byteLength] at hcap
  have hutf := utf8_ascii fun u hu => ascii_of_isReferenceUnit (hall u hu)
  have hpos : 0 < (utf8 s).length := by
    rw [hutf, List.length_map, List.length_pos_iff]
    exact hne
  rw [reference, bounded, Bool.and_eq_true, Bool.and_eq_true, decide_eq_true_eq,
    decide_eq_true_eq, hutf, ← hutf]
  constructor
  · rintro ⟨-, hbytes⟩ hmem
    rw [hutf, List.all_map, List.all_eq_true] at hbytes
    exact (isReferenceByte_octet (hall 37 hmem)).mp (hbytes 37 hmem) rfl
  · intro hmem
    refine ⟨⟨hpos, hcap⟩, ?_⟩
    rw [hutf, List.all_map, List.all_eq_true]
    intro u hu
    refine (isReferenceByte_octet (hall u hu)).mpr ?_
    rintro rfl
    exact hmem hu

theorem utf8_widen {s : LuaString} (hs : ∀ b ∈ s, b.toNat < 128) :
    utf8 (s.map fun b => UInt16.ofNat b.toNat) = s := by
  have hnat : ∀ b : UInt8, (UInt16.ofNat b.toNat).toNat = b.toNat := by
    intro b
    have := b.toNat_lt
    rw [UInt16.toNat_ofNat']
    omega
  rw [utf8_ascii, List.map_map]
  · conv_rhs => rw [← List.map_id s]
    refine List.map_congr_left fun b _ => ?_
    rw [Function.comp_apply, hnat, UInt8.ofNat_toNat]
    rfl
  · intro u hu
    obtain ⟨b, hb, rfl⟩ := List.mem_map.mp hu
    rw [hnat]
    exact hs b hb

theorem ascii_decimal (n : ℕ) : ∀ b ∈ decimal n, b.toNat < 128 := by
  intro b hb
  unfold decimal at hb
  split at hb
  · simp only [List.mem_cons, List.not_mem_nil, or_false] at hb
    rw [hb]
    decide
  · obtain ⟨d, hd, rfl⟩ := List.mem_map.mp hb
    have hd10 : d < 10 := Nat.digits_lt_base (by norm_num) (List.mem_reverse.mp hd)
    rw [toNat_digitByte hd10]
    omega

theorem ascii_cmd (cmd : Command) : ∀ b ∈ cmd.text, b.toNat < 128 := by
  cases cmd <;> decide

theorem Prepared.argv_eq (store : OperationStore) (p : Prepared) :
    p.argv store = [p.cmd.text, utf8 p.identity.fingerprint, utf8 p.identity.durableId,
      utf8 p.owner, decimal store.leaseMs, decimal store.retentionMs, utf8 p.resultRef] := by
  simp only [Prepared.argv, Prepared.args, numberString, List.map_cons, List.map_nil,
    utf8_widen (ascii_cmd _), utf8_widen (ascii_decimal _)]

/-! ### What a validated call sends -/

/-- The parts of a validated call are in the client's grammar. -/
structure Prepared.Checked (p : Prepared) : Prop where
  fingerprint : matchesHex64 p.identity.fingerprint = true
  durableId : matchesReference p.identity.durableId = true
  durableId_le : byteLength p.identity.durableId ≤ maxDurableIdBytes
  owner : p.cmd ≠ .read → matchesHex64 p.owner = true
  resultRef : p.cmd = .complete →
    matchesReference p.resultRef = true ∧ byteLength p.resultRef ≤ maxResultReferenceBytes

theorem bind_eq_ok {α β : Type} {x : Except OperationError α} {f : α → Except OperationError β}
    {b : β} : x >>= f = .ok b ↔ ∃ a, x = .ok a ∧ f a = .ok b := by
  cases x with
  | error e => simp [bind, Except.bind]
  | ok a => simp [bind, Except.bind]

theorem validateLease_ok {store : OperationStore} {input : JsValue} {lease : Lease}
    (h : store.validateLease input = .ok lease) :
    (∃ value, validateIdentity value = .ok lease.identity) ∧ matchesHex64 lease.owner = true := by
  unfold OperationStore.validateLease at h
  split at h
  · obtain ⟨identity, hid, h⟩ := bind_eq_ok.mp h
    obtain ⟨owner, hown, h⟩ := bind_eq_ok.mp h
    split at h
    · split at h
      · cases h
      · cases h
        exact ⟨⟨_, hid⟩, (validateOwner_eq_ok.mp hown).2⟩
    · cases h
  · cases h

theorem checked_of_prepare {store : OperationStore} {call : Call} {p : Prepared}
    (h : call.prepare store = .ok p) : p.Checked := by
  cases call with
  | begin input random =>
    obtain ⟨identity, hid, h⟩ := bind_eq_ok.mp h
    cases h
    obtain ⟨hfp, hdur, hle⟩ := validateIdentity_ok hid
    exact ⟨hfp, hdur, hle, fun _ => matchesHex64_newOwner random, fun hc => by cases hc⟩
  | renew input =>
    obtain ⟨lease, hlease, h⟩ := bind_eq_ok.mp h
    cases h
    obtain ⟨⟨_, hid⟩, hown⟩ := validateLease_ok hlease
    obtain ⟨hfp, hdur, hle⟩ := validateIdentity_ok hid
    exact ⟨hfp, hdur, hle, fun _ => hown, fun hc => by cases hc⟩
  | complete input committedResultRef =>
    obtain ⟨lease, hlease, h⟩ := bind_eq_ok.mp h
    obtain ⟨resultRef, hres, h⟩ := bind_eq_ok.mp h
    cases h
    obtain ⟨⟨_, hid⟩, hown⟩ := validateLease_ok hlease
    obtain ⟨hfp, hdur, hle⟩ := validateIdentity_ok hid
    obtain ⟨hb, hr⟩ := validateReference_eq_ok.mp hres
    exact ⟨hfp, hdur, hle, fun _ => hown, fun _ => ⟨hr, (boundedString_eq_ok.mp hb).2.2.2.1⟩⟩
  | readStatus input =>
    obtain ⟨identity, hid, h⟩ := bind_eq_ok.mp h
    cases h
    obtain ⟨hfp, hdur, hle⟩ := validateIdentity_ok hid
    exact ⟨hfp, hdur, hle, fun hc => absurd rfl hc, fun hc => by cases hc⟩

/-- No reference that the call sends has a percent sign. -/
def Prepared.PercentFree (p : Prepared) : Prop :=
  37 ∉ p.identity.durableId ∧ (p.cmd = .complete → 37 ∉ p.resultRef)

/-- The arguments as the script reads them once they have passed. -/
def Prepared.toArgs (store : OperationStore) (p : Prepared) : Args :=
  ⟨p.cmd, utf8 p.identity.fingerprint, utf8 p.identity.durableId, utf8 p.owner, store.leaseMs,
    store.retentionMs, utf8 p.resultRef⟩

theorem checkArguments_argv (L : Lua) (store : OperationStore) {p : Prepared} (h : p.Checked) :
    checkArguments L 1 (p.argv store) =
      if 37 ∈ p.identity.durableId then .error .invalidId
      else if p.cmd = .complete ∧ 37 ∈ p.resultRef then .error .invalidResult
      else .ok (p.toArgs store) := by
  have hlease : L.tonumber (decimal store.leaseMs) = some (store.leaseMs : ℤ) :=
    L.tonumber_decimal _ (le_trans store.lease_le (by norm_num [maxOperationLeaseMs, maxSafeInteger]))
  have hret : L.tonumber (decimal store.retentionMs) = some (store.retentionMs : ℤ) :=
    L.tonumber_decimal _
      (le_trans store.retention_le (by norm_num [maxOperationRetentionMs, maxSafeInteger]))
  have hown : ¬ (p.cmd ≠ .read ∧ ¬ hex64 (utf8 p.owner) = true) :=
    fun hc => hc.2 (hex64_utf8 (h.owner hc.1))
  have hdur : reference (utf8 p.identity.durableId) 128 = true ↔ 37 ∉ p.identity.durableId :=
    reference_utf8 h.durableId h.durableId_le
  have hres : (p.cmd = .complete ∧ ¬ reference (utf8 p.resultRef) 256 = true) ↔
      (p.cmd = .complete ∧ 37 ∈ p.resultRef) := by
    refine and_congr_right fun hc => ?_
    obtain ⟨hr, hle⟩ := h.resultRef hc
    have hiff : reference (utf8 p.resultRef) 256 = true ↔ 37 ∉ p.resultRef := reference_utf8 hr hle
    rw [hiff, not_not]
  have hl : integer (some (store.leaseMs : ℤ)) 1 3600000 = some store.leaseMs :=
    integer_eq store.lease_pos store.lease_le
  have hr : integer (some (store.retentionMs : ℤ)) store.leaseMs 2592000000 =
      some store.retentionMs := integer_eq store.lease_retention store.retention_le
  rw [Prepared.argv_eq, checkArguments]
  simp only [ne_eq, not_true_eq_false, if_false, Command.ofText_text, hex64_utf8 h.fingerprint,
    hdur, not_not, false_or, hown, hlease, hret, hl, hr, hres]
  rfl

/-- **What the client validates passes the script's argument checks exactly when
no reference has a percent sign.** -/
theorem arguments_pass_iff (L : Lua) (store : OperationStore) (call : Call) (p : Prepared)
    (h : call.prepare store = .ok p) :
    (∃ a, checkArguments L 1 (p.argv store) = .ok a) ↔ p.PercentFree := by
  rw [checkArguments_argv L store (checked_of_prepare h), Prepared.PercentFree]
  constructor
  · rintro ⟨a, ha⟩
    split at ha
    · cases ha
    · next hd =>
      split at ha
      · cases ha
      · next hr => exact ⟨hd, fun hc hm => hr ⟨hc, hm⟩⟩
  · rintro ⟨hd, hr⟩
    rw [if_neg hd, if_neg fun hc => hr hc.1 hc.2]
    exact ⟨_, rfl⟩

/-- A store with the default durations. -/
def defaultStore : OperationStore where
  namespace_ := str "billing"
  leaseMs := defaultOperationLeaseMs
  retentionMs := defaultOperationRetentionMs
  operationTimeoutMs := defaultOperationTimeoutMs
  lease_pos := by decide
  lease_le := by decide
  retention_le := by decide
  lease_retention := by decide

/-- An identity as a caller writes it, with the given durable id. -/
def sampleIdentity (durableId : JsString) : JsValue :=
  .object [(str "tenant", .string (str "acme")), (str "operation", .string (str "charge")),
    (str "idempotencyKey", .string (str "i-1")),
    (str "fingerprint", .string (List.replicate 64 98)), (str "durableId", .string durableId)]

def sampleRandom : Vector UInt8 32 := Vector.replicate 32 0

def sampleCall (durableId : JsString) : Call := .begin (sampleIdentity durableId) sampleRandom

def samplePrepared (durableId : JsString) : Prepared :=
  ⟨.begin, ⟨str "acme", str "charge", str "i-1", List.replicate 64 98, durableId⟩,
    newOwner sampleRandom, []⟩

theorem prepare_plain :
    (sampleCall (str "order-1")).prepare defaultStore = .ok (samplePrepared (str "order-1")) := by
  rfl

theorem arguments_pass_iff_plain :
    (∃ a, checkArguments referenceLua 1 ((samplePrepared (str "order-1")).argv defaultStore) =
      .ok a) ↔ (samplePrepared (str "order-1")).PercentFree :=
  arguments_pass_iff referenceLua defaultStore _ _ prepare_plain

/-- A durable id with an escaped slash is accepted by the client and refused by
the script, whatever is stored. -/
theorem percent_reference_refused :
    (sampleCall (str "order%2F1")).prepare defaultStore =
        .ok (samplePrepared (str "order%2F1")) ∧
      ∀ L time raw, operationScript L 1 ((samplePrepared (str "order%2F1")).argv defaultStore)
        time raw = fail .invalidId := by
  have hprep : (sampleCall (str "order%2F1")).prepare defaultStore =
      .ok (samplePrepared (str "order%2F1")) := by rfl
  refine ⟨hprep, fun L time raw => ?_⟩
  rw [operationScript_eq, checkArguments_argv L defaultStore (checked_of_prepare hprep),
    if_pos (by decide)]

end Transactions
