/-
What the transaction API accepts from its caller (`keys.ts`).

Every validator returns the value it has checked or the error it throws, with
the text of the source.  Values come from JavaScript callers, so a field may be
anything; `JsValue` keeps what the validators can tell apart.

* `boundedString` — the check all text fields share, and `boundedString_eq_ok`,
  which says exactly what it lets through;
* `validateReference`, `validateFingerprint`, `validateOwner` — the three
  grammars, each with its `_eq_ok`;
* `validateIdentity` — the whole identity;
* `newOwner` — a fresh token is one that `validateOwner` would accept.
-/
import LazyLayers.JsString
import Mathlib.Data.List.Sort

open Js

namespace Transactions

/-- A JavaScript value, as far as the validators look into it. -/
inductive JsValue
  | string (s : JsString)
  /-- A finite number. -/
  | number (q : ℚ)
  | object (fields : List (JsString × JsValue))
  | array
  | null
  | undefined
  | other

/-- `value.key`; an absent field is `undefined`. -/
def JsValue.field (fields : List (JsString × JsValue)) (key : String) : JsValue :=
  ((fields.find? fun f => f.1 == str key).map Prod.snd).getD .undefined

/-- The errors thrown before anything is dispatched, by their codes. -/
inductive OperationError
  /-- `OPERATION_INVALID_INPUT` -/
  | invalidInput (message : String)
  /-- `OPERATION_INVALID_CONFIGURATION` -/
  | invalidConfiguration (message : String)
  deriving DecidableEq, Repr

def maxNamespaceBytes : ℕ := 96
def maxTenantBytes : ℕ := 128
def maxOperationBytes : ℕ := 96
def maxIdempotencyKeyBytes : ℕ := 256
def maxDurableIdBytes : ℕ := 128
def maxResultReferenceBytes : ℕ := 256

def byteLength (value : JsString) : ℕ := (utf8 value).length

def isWellFormedUnicode : JsString → Bool
  | [] => true
  | [u] => !isHigh u && !isLow u
  | u :: v :: s =>
    if isHigh u then isLow v && isWellFormedUnicode s
    else if isLow u then false
    else isWellFormedUnicode (v :: s)

/-- `[\u0000-\u001f\u007f]` -/
def isControl (u : UInt16) : Bool := u ≤ 0x1f || u == 0x7f

/-- `[0-9a-f]` -/
def isHexUnit (u : UInt16) : Bool := (48 ≤ u && u ≤ 57) || (97 ≤ u && u ≤ 102)

def isAlphanumeric (u : UInt16) : Bool :=
  (65 ≤ u && u ≤ 90) || (97 ≤ u && u ≤ 122) || (48 ≤ u && u ≤ 57)

/-- `[A-Za-z0-9_:/%.\-]`: here the percent sign stands for itself. -/
def isReferenceUnit (u : UInt16) : Bool :=
  isAlphanumeric u || u == 95 || u == 58 || u == 47 || u == 37 || u == 46 || u == 45

/-- `[A-Za-z0-9_.:-]` -/
def isNamespaceUnit (u : UInt16) : Bool :=
  isAlphanumeric u || u == 95 || u == 46 || u == 58 || u == 45

/-- `HEX_64` -/
def matchesHex64 (s : JsString) : Bool := s.length == 64 && s.all isHexUnit

/-- `REFERENCE` -/
def matchesReference (s : JsString) : Bool := s ≠ [] && s.all isReferenceUnit

/-- `NAMESPACE` -/
def matchesNamespace : JsString → Bool
  | [] => false
  | u :: s => isAlphanumeric u && s.all isNamespaceUnit

def boundedString (name : String) (value : JsValue) (maxBytes : ℕ) :
    Except OperationError JsString :=
  match value with
  | .string s =>
    if s = [] then .error (.invalidInput s!"{name} must be a non-empty string")
    else if ¬ isWellFormedUnicode s then
      .error (.invalidInput s!"{name} must contain well-formed UTF-8")
    else if maxBytes < byteLength s then
      .error (.invalidInput s!"{name} exceeds its {maxBytes}-byte limit")
    else if s.any isControl then .error (.invalidInput s!"{name} contains a control character")
    else .ok s
  | _ => .error (.invalidInput s!"{name} must be a non-empty string")

def validateNamespace (namespace_ : JsValue) : Except OperationError JsString := do
  let value ← boundedString "namespace" namespace_ maxNamespaceBytes
  if ¬ matchesNamespace value ∨ 123 ∈ value ∨ 125 ∈ value then
    throw (.invalidInput "namespace contains unsupported characters")
  return value

def validateReference (name : String) (value : JsValue) (maxBytes : ℕ) :
    Except OperationError JsString := do
  let result ← boundedString name value maxBytes
  if ¬ matchesReference result then
    throw (.invalidInput s!"{name} contains unsupported identifier characters")
  return result

def validateFingerprint (value : JsValue) : Except OperationError JsString := do
  let fingerprint ← boundedString "fingerprint" value 64
  if ¬ matchesHex64 fingerprint then
    throw (.invalidInput "fingerprint must be a lowercase SHA-256 hex digest")
  return fingerprint

def validateOwner (value : JsValue) : Except OperationError JsString := do
  let owner ← boundedString "owner" value 64
  if ¬ matchesHex64 owner then
    throw (.invalidInput "owner must be a lowercase 256-bit hex token")
  return owner

structure Identity where
  tenant : JsString
  operation : JsString
  idempotencyKey : JsString
  fingerprint : JsString
  durableId : JsString
  deriving DecidableEq, Repr

/-- `Object.keys(value).sort().join(',')` -/
def sortedKeys (fields : List (JsString × JsValue)) : JsString :=
  List.intercalate (str ",") ((fields.map Prod.fst).insertionSort (· ≤ ·))

def validateIdentity (identity : JsValue) : Except OperationError Identity :=
  match identity with
  | .object value => do
    if sortedKeys value ≠ str "durableId,fingerprint,idempotencyKey,operation,tenant" then
      throw (.invalidInput "identity has unknown or missing fields")
    let tenant ← boundedString "tenant" (.field value "tenant") maxTenantBytes
    let operation ← boundedString "operation" (.field value "operation") maxOperationBytes
    let idempotencyKey ←
      boundedString "idempotencyKey" (.field value "idempotencyKey") maxIdempotencyKeyBytes
    let fingerprint ← validateFingerprint (.field value "fingerprint")
    let durableId ← validateReference "durableId" (.field value "durableId") maxDurableIdBytes
    return ⟨tenant, operation, idempotencyKey, fingerprint, durableId⟩
  | _ => .error (.invalidInput "identity must be an object")

/-- `isReference(value, maxBytes)` on a string. -/
def isReference (value : JsString) (maxBytes : ℕ) : Bool :=
  0 < value.length && byteLength value ≤ maxBytes && matchesReference value

/-- A lower-case hexadecimal digit. -/
def lowerHexDigit (n : ℕ) : UInt16 := UInt16.ofNat (if n < 10 then 48 + n else 87 + n)

/-- `Buffer.prototype.toString('hex')` -/
def toHex (bytes : List UInt8) : JsString :=
  bytes.flatMap fun b => [lowerHexDigit (b.toNat / 16), lowerHexDigit (b.toNat % 16)]

/-- `randomBytes(32).toString('hex')` for the bytes that were drawn. -/
def newOwner (random : Vector UInt8 32) : JsString := toHex random.toList

/-! ### What the validators let through -/

theorem boundedString_eq_ok {name : String} {value : JsValue} {maxBytes : ℕ} {s : JsString} :
    boundedString name value maxBytes = .ok s ↔
      value = .string s ∧ s ≠ [] ∧ isWellFormedUnicode s = true ∧ byteLength s ≤ maxBytes ∧
        s.any isControl = false := by
  constructor
  · intro h
    unfold boundedString at h
    split at h
    · split at h
      · cases h
      · next hne =>
        split at h
        · cases h
        · next hwf =>
          split at h
          · cases h
          · next hlen =>
            split at h
            · cases h
            · next hctl =>
              cases h
              exact ⟨rfl, hne, by simpa using hwf, by omega, by simpa using hctl⟩
    · cases h
  · rintro ⟨rfl, hne, hwf, hlen, hctl⟩
    simp [boundedString, hne, hwf, hctl, Nat.not_lt.mpr hlen]

/-- A validator that adds one test to `boundedString`. -/
theorem bind_test_eq_ok {x : Except OperationError JsString} {test : JsString → Prop}
    [DecidablePred test] {e : JsString → OperationError} {s : JsString} :
    (x >>= fun value => if test value then throw (e value) else pure value) = .ok s ↔
      x = .ok s ∧ ¬ test s := by
  cases x with
  | error e' => simp [bind, Except.bind]
  | ok v =>
    by_cases ht : test v
    · simp only [bind, Except.bind, ht, if_true, throw, throwThe, MonadExceptOf.throw]
      constructor
      · intro h
        cases h
      · rintro ⟨h, hs⟩
        cases h
        exact absurd ht hs
    · simp only [bind, Except.bind, ht, if_false, pure, Except.pure]
      constructor
      · intro h
        cases h
        exact ⟨rfl, ht⟩
      · exact fun h => h.1

theorem validateReference_eq_ok {name : String} {value : JsValue} {maxBytes : ℕ} {s : JsString} :
    validateReference name value maxBytes = .ok s ↔
      boundedString name value maxBytes = .ok s ∧ matchesReference s = true := by
  refine Iff.trans (b := boundedString name value maxBytes = .ok s ∧ ¬ ¬ matchesReference s) ?_ ?_
  · exact bind_test_eq_ok
  · rw [not_not]

theorem validateFingerprint_eq_ok {value : JsValue} {s : JsString} :
    validateFingerprint value = .ok s ↔
      boundedString "fingerprint" value 64 = .ok s ∧ matchesHex64 s = true := by
  refine Iff.trans (b := boundedString "fingerprint" value 64 = .ok s ∧ ¬ ¬ matchesHex64 s) ?_ ?_
  · exact bind_test_eq_ok
  · rw [not_not]

theorem validateOwner_eq_ok {value : JsValue} {s : JsString} :
    validateOwner value = .ok s ↔
      boundedString "owner" value 64 = .ok s ∧ matchesHex64 s = true := by
  refine Iff.trans (b := boundedString "owner" value 64 = .ok s ∧ ¬ ¬ matchesHex64 s) ?_ ?_
  · exact bind_test_eq_ok
  · rw [not_not]

/-- The fields of an accepted identity that reach Redis. -/
theorem validateIdentity_ok {input : JsValue} {identity : Identity}
    (h : validateIdentity input = .ok identity) :
    matchesHex64 identity.fingerprint = true ∧ matchesReference identity.durableId = true ∧
      byteLength identity.durableId ≤ maxDurableIdBytes := by
  unfold validateIdentity at h
  split at h
  · next value =>
    by_cases hkeys : sortedKeys value ≠ str "durableId,fingerprint,idempotencyKey,operation,tenant"
    · rw [if_pos hkeys] at h
      cases h
    · rw [if_neg hkeys] at h
      rcases ht : boundedString "tenant" (.field value "tenant") maxTenantBytes with _ | tenant
      · rw [ht] at h; cases h
      rcases ho : boundedString "operation" (.field value "operation") maxOperationBytes
        with _ | operation
      · rw [ht, ho] at h; cases h
      rcases hi : boundedString "idempotencyKey" (.field value "idempotencyKey")
        maxIdempotencyKeyBytes with _ | idempotencyKey
      · rw [ht, ho, hi] at h; cases h
      rcases hf : validateFingerprint (.field value "fingerprint") with _ | fingerprint
      · rw [ht, ho, hi, hf] at h; cases h
      rcases hd : validateReference "durableId" (.field value "durableId") maxDurableIdBytes
        with _ | durableId
      · rw [ht, ho, hi, hf, hd] at h; cases h
      rw [ht, ho, hi, hf, hd] at h
      cases h
      obtain ⟨hb, hr⟩ := validateReference_eq_ok.mp hd
      exact ⟨(validateFingerprint_eq_ok.mp hf).2, hr, (boundedString_eq_ok.mp hb).2.2.2.1⟩
  · cases h

theorem isHexUnit_lowerHexDigit {n : ℕ} (hn : n < 16) : isHexUnit (lowerHexDigit n) = true := by
  interval_cases n <;> decide

theorem length_toHex (bytes : List UInt8) : (toHex bytes).length = 2 * bytes.length := by
  induction bytes with
  | nil => rfl
  | cons b bytes ih =>
    rw [toHex, List.flatMap_cons, List.length_append, ← toHex, ih, List.length_cons]
    show 2 + 2 * bytes.length = 2 * (bytes.length + 1)
    omega

theorem matchesHex64_newOwner (random : Vector UInt8 32) :
    matchesHex64 (newOwner random) = true := by
  rw [matchesHex64, newOwner, Bool.and_eq_true, beq_iff_eq, length_toHex, List.all_eq_true]
  refine ⟨by simp, ?_⟩
  intro u hu
  rw [toHex, List.mem_flatMap] at hu
  obtain ⟨b, -, hu⟩ := hu
  have hb := b.toNat_lt
  simp only [List.mem_cons, List.not_mem_nil, or_false] at hu
  rcases hu with rfl | rfl
  · exact isHexUnit_lowerHexDigit (by omega)
  · exact isHexUnit_lowerHexDigit (by omega)

end Transactions
