/-
The names of operations and payments (`keys.ts`).

Every name is a digest of a JSON array of validated strings.  The functions run in
`Hashing`, which keeps the texts that were hashed: that two of these texts have
different digests is all that is asked of SHA-256, and `CollisionFree` says it.

* `operationKey`, `fingerprintFields`, `paymentFingerprint`, `paymentProviderKey` —
  the four functions, on whatever a JavaScript caller hands them;
* `stringifyArray_injective`, `digest_inj` — a digest determines the array;
* `operation_identity_injective` — a name determines what it was made from, and no
  name of one domain is a digest of the other.
-/
import LazyLayers.OperationReplies
import LazyLayers.JsonScan
import LazyLayers.Sha256

open Js

namespace Transactions

/-! ### Texts and digests -/

/-- `JSON.stringify` of an array of strings; a hole has no string. -/
def stringifyArray (items : List (Option JsString)) : JsString :=
  Js.stringify zeroText (.arr (items.map fun item => item.elim .null .str))

/-- What throws an `OperationError`, with the texts that were hashed so far. -/
abbrev Hashing := StateT (List JsString) (Except OperationError)

/-- `createHash('sha256').update(value, 'utf8').digest('hex')` -/
def digest (value : JsString) : JsString := toHex (sha256 (utf8 value))

def hashing (value : JsString) : Hashing JsString := do
  modify (value :: ·)
  return digest value

/-- No two of the texts have the same digest, unless they are the same octets. -/
def CollisionFree (hashed : List JsString) : Prop :=
  ∀ s ∈ hashed, ∀ t ∈ hashed, sha256 (utf8 s) = sha256 (utf8 t) → utf8 s = utf8 t

instance (hashed : List JsString) : Decidable (CollisionFree hashed) :=
  inferInstanceAs (Decidable (∀ s ∈ hashed, ∀ t ∈ hashed, _ → _))

/-! ### Operations -/

def operationKey (namespace_ identity : JsValue) : Hashing JsString := do
  let ns ← validateNamespace namespace_
  let id ← validateIdentity identity
  let scope ← hashing (stringifyArray [some ns, some id.tenant])
  let operation ← hashing
    (stringifyArray [some ns, some id.tenant, some id.operation, some id.idempotencyKey])
  return str "lltx:v1:" ++ scope ++ str ":\x7b" ++ operation ++ str "\x7d:record"

/-! ### Fingerprints -/

/-- The argument `fields`: an array, a hole of which has no value, or anything else. -/
inductive FieldList
  | array (items : List (Option JsValue))
  | other

def JsValue.isString : JsValue → Bool
  | .string _ => true
  | _ => false

/-- `fields.map((value, index) => boundedString(…))`, which skips holes. -/
def checkedFields : ℕ → List (Option JsValue) → Except OperationError (List (Option JsString))
  | _, [] => return []
  | index, none :: items => return none :: (← checkedFields (index + 1) items)
  | index, some value :: items => do
    let checked ← boundedString s!"fingerprint field {index}" value 512
    return some checked :: (← checkedFields (index + 1) items)

def fingerprintFields (domain : JsValue) (fields : FieldList) : Hashing JsString := do
  let d ← boundedString "fingerprint domain" domain 64
  match fields with
  | .array items =>
    -- `some` skips holes as well
    if items.any fun item => item.any fun value => ¬ value.isString then
      throw (.invalidInput "fingerprint fields must be strings")
    let checked ← checkedFields 0 items
    hashing (stringifyArray (some d :: checked))
  | .other => throw (.invalidInput "fingerprint fields must be strings")

/-! ### Payments -/

def maxPaymentAccountBytes : ℕ := 128
def maxPaymentAmountMinor : ℕ := 9223372036854775807

/-- A canonical decimal is always a `BigInt`, so the last error of the source is never thrown. -/
def validateAmountMinor (amountMinor : JsValue) : Except OperationError JsString := do
  let amount ← boundedString "amountMinor" amountMinor 32
  if ¬ isPositiveDecimal amount then
    throw (.invalidInput "amountMinor must be a positive canonical decimal string")
  if maxPaymentAmountMinor < numberOf amount then
    throw (.invalidInput s!"amountMinor exceeds {maxPaymentAmountMinor}")
  return amount

/-- `PAYMENT_ACCOUNT` is the grammar of references. -/
def paymentAccount (name : String) (value : JsValue) : Except OperationError JsString :=
  validateReference name value maxPaymentAccountBytes

structure PaymentFingerprintInput where
  tenant : JsString
  fromAccount : JsString
  toAccount : JsString
  currency : JsString
  amountMinor : JsString
  deriving DecidableEq, Repr

/-- `^[A-Z]{3}$` -/
def matchesCurrency (s : JsString) : Bool := s.length == 3 && s.all fun u => 65 ≤ u && u ≤ 90

def validatePaymentFingerprintInput (input : JsValue) :
    Except OperationError PaymentFingerprintInput :=
  match input with
  | .object value => do
    if sortedKeys value ≠ str "amountMinor,currency,fromAccount,tenant,toAccount" then
      throw (.invalidInput "payment input has unknown or missing fields")
    let tenant ← boundedString "tenant" (.field value "tenant") maxTenantBytes
    let fromAccount ← paymentAccount "fromAccount" (.field value "fromAccount")
    let toAccount ← paymentAccount "toAccount" (.field value "toAccount")
    let currency ← boundedString "currency" (.field value "currency") 8
    if ¬ matchesCurrency currency then
      throw (.invalidInput "currency must be an uppercase ISO-4217 code")
    let amountMinor ← validateAmountMinor (.field value "amountMinor")
    if fromAccount = toAccount then
      throw (.invalidInput "fromAccount and toAccount must differ")
    return ⟨tenant, fromAccount, toAccount, currency, amountMinor⟩
  | _ => .error (.invalidInput "payment input must be an object")

/-- An array literal of strings. -/
def FieldList.of (fields : List JsString) : FieldList :=
  .array (fields.map fun field => some (.string field))

def PaymentFingerprintInput.fields (payment : PaymentFingerprintInput) : List JsString :=
  [payment.tenant, payment.fromAccount, payment.toAccount, payment.currency, payment.amountMinor]

def paymentFingerprint (input : JsValue) : Hashing JsString := do
  let payment ← validatePaymentFingerprintInput input
  fingerprintFields (.string (str "payment-v1")) (.of payment.fields)

def paymentProviderKey (durableId providerAccount : JsValue) : Hashing JsString := do
  let id ← validateReference "durableId" durableId maxDurableIdBytes
  let account ← validateReference "providerAccount" providerAccount 128
  let fingerprint ← fingerprintFields (.string (str "provider-v1")) (.of [account, id])
  return str "lltx-provider-v1-" ++ fingerprint

/-! ### A digest determines the array -/

theorem properItems_strings (items : List (Option JsString)) :
    ProperItems (N := Unit) (items.map fun item => item.elim .null .str) := by
  induction items with
  | nil => exact trivial
  | cons item items ih =>
    refine ⟨?_, ih⟩
    cases item with
    | none => exact trivial
    | some s => exact trivial

theorem stringifyArray_injective : Function.Injective stringifyArray := by
  intro items₁ items₂ h
  have hread : ∀ items, Js.parse zeroText (stringifyArray items) =
      some (.arr (items.map fun item => item.elim .null .str)) :=
    fun items => parse_stringify _ (properItems_strings items)
  have hvalues : (items₁.map fun item => item.elim (.null : Json Unit) .str) =
      items₂.map fun item => item.elim .null .str := by
    have hparsed := hread items₁
    rw [h, hread items₂] at hparsed
    simpa using hparsed.symm
  refine List.map_injective_iff.mpr ?_ hvalues
  intro item₁ item₂ hitem
  cases item₁ with
  | none =>
    cases item₂ with
    | none => rfl
    | some s => simp at hitem
  | some s =>
    cases item₂ with
    | none => simp at hitem
    | some t => simpa using hitem

theorem lowerHexDigit_inj {m n : ℕ} (hm : m < 16) (hn : n < 16)
    (h : lowerHexDigit m = lowerHexDigit n) : m = n := by
  have hnat := congrArg UInt16.toNat h
  rw [lowerHexDigit, lowerHexDigit, toNat_uint16_ofNat (by split <;> omega),
    toNat_uint16_ofNat (by split <;> omega)] at hnat
  split_ifs at hnat <;> omega

theorem toHex_injective : Function.Injective toHex := by
  refine flatMap_injective (by simp) ?_
  intro a b x y h
  have ha := a.toNat_lt
  have hb := b.toNat_lt
  simp only [List.cons_append, List.nil_append, List.cons.injEq] at h
  have hhigh := lowerHexDigit_inj (by omega) (by omega) h.1
  have hlow := lowerHexDigit_inj (by omega) (by omega) h.2.1
  exact ⟨UInt8.toNat_inj.mp (by omega), h.2.2⟩

theorem length_digest (value : JsString) : (digest value).length = 64 := by
  rw [digest, length_toHex, length_sha256]

/-- The hash function sees octets; a JSON text has no lone surrogate, so the octets are
the text. -/
theorem digest_inj {hashed : List JsString} (hfree : CollisionFree hashed)
    {items₁ items₂ : List (Option JsString)} (h₁ : stringifyArray items₁ ∈ hashed)
    (h₂ : stringifyArray items₂ ∈ hashed)
    (h : digest (stringifyArray items₁) = digest (stringifyArray items₂)) : items₁ = items₂ := by
  have hoctets := hfree _ h₁ _ h₂ (toHex_injective h)
  exact stringifyArray_injective
    (utf8_inj (wellFormed_stringify _ _) (wellFormed_stringify _ _) hoctets)

/-! ### What the functions return -/

/-- The text of the record key that two digests make. -/
theorem key_inj {scope₁ scope₂ operation₁ operation₂ : JsString}
    (h : str "lltx:v1:" ++ digest scope₁ ++ str ":\x7b" ++ digest operation₁ ++ str "\x7d:record" =
      str "lltx:v1:" ++ digest scope₂ ++ str ":\x7b" ++ digest operation₂ ++ str "\x7d:record") :
    digest scope₁ = digest scope₂ ∧ digest operation₁ = digest operation₂ := by
  simp only [List.append_assoc, List.append_cancel_left_eq] at h
  obtain ⟨hscope, hrest⟩ := List.append_inj h (by rw [length_digest, length_digest])
  rw [List.append_cancel_left_eq] at hrest
  exact ⟨hscope, (List.append_inj hrest (by rw [length_digest, length_digest])).1⟩

theorem operationKey_eq {namespace_ identity : JsValue} {ns : JsString} {id : Identity}
    (hns : validateNamespace namespace_ = .ok ns) (hid : validateIdentity identity = .ok id)
    (hashed : List JsString) :
    operationKey namespace_ identity hashed =
      .ok (str "lltx:v1:" ++ digest (stringifyArray [some ns, some id.tenant]) ++ str ":\x7b" ++
          digest (stringifyArray [some ns, some id.tenant, some id.operation,
            some id.idempotencyKey]) ++ str "\x7d:record",
        stringifyArray [some ns, some id.tenant, some id.operation, some id.idempotencyKey] ::
          stringifyArray [some ns, some id.tenant] :: hashed) := by
  simp only [operationKey, hns, hid]
  rfl

theorem checkedFields_eq_ok {index : ℕ} {items : List (Option JsValue)}
    {checked : List (Option JsString)} (h : checkedFields index items = .ok checked) :
    items = checked.map (Option.map .string) := by
  induction items generalizing index checked with
  | nil =>
    cases h
    rfl
  | cons item items ih =>
    cases item with
    | none =>
      rw [checkedFields] at h
      rcases hrest : checkedFields (index + 1) items with _ | rest
      · rw [hrest] at h
        cases h
      · rw [hrest] at h
        cases h
        rw [ih hrest]
        rfl
    | some value =>
      rw [checkedFields] at h
      rcases hvalue : boundedString s!"fingerprint field {index}" value 512 with _ | s
      · rw [hvalue] at h
        cases h
      rcases hrest : checkedFields (index + 1) items with _ | rest
      · rw [hvalue, hrest] at h
        cases h
      · rw [hvalue, hrest] at h
        cases h
        rw [ih hrest, (boundedString_eq_ok.mp hvalue).1]
        rfl

/-- A fingerprint is the digest of the domain and the fields. -/
theorem fingerprintFields_eq_ok {domain : JsValue} {fields : FieldList} {hashed : List JsString}
    {result : JsString × List JsString} (h : fingerprintFields domain fields hashed = .ok result) :
    ∃ d checked, domain = .string d ∧ fields = .array (checked.map (Option.map .string)) ∧
      result = (digest (stringifyArray (some d :: checked)),
        stringifyArray (some d :: checked) :: hashed) := by
  simp only [fingerprintFields] at h
  rcases hd : boundedString "fingerprint domain" domain 64 with _ | d
  · rw [hd] at h
    cases h
  rw [hd] at h
  cases fields with
  | other => cases h
  | array items =>
    by_cases hother : items.any fun item => item.any fun value => ¬ value.isString
    · simp only [hother, if_true] at h
      cases h
    · simp only [hother] at h
      rcases hchecked : checkedFields 0 items with _ | checked
      · rw [hchecked] at h
        cases h
      · rw [hchecked] at h
        cases h
        exact ⟨d, checked, (boundedString_eq_ok.mp hd).1, by rw [checkedFields_eq_ok hchecked], rfl⟩

/-! ### What the payment functions hash -/

/-- What `boundedString` asks of a string, whatever the field is called. -/
def Bounded (maxBytes : ℕ) (s : JsString) : Prop :=
  ∀ name, boundedString name (.string s) maxBytes = .ok s

theorem bounded_of_eq_ok {name : String} {value : JsValue} {maxBytes limit : ℕ} {s : JsString}
    (h : boundedString name value maxBytes = .ok s) (hlimit : maxBytes ≤ limit) :
    Bounded limit s := by
  obtain ⟨-, hne, hwf, hlen, hctl⟩ := boundedString_eq_ok.mp h
  intro name
  exact boundedString_eq_ok.mpr ⟨rfl, hne, hwf, hlen.trans hlimit, hctl⟩

theorem checkedFields_of {fields : List JsString} (h : ∀ s ∈ fields, Bounded 512 s) (index : ℕ) :
    checkedFields index (fields.map fun s => some (.string s)) = .ok (fields.map some) := by
  induction fields generalizing index with
  | nil => rfl
  | cons s fields ih =>
    rw [List.map_cons, checkedFields, h s (by simp), ih (fun t ht => h t (by simp [ht]))]
    rfl

theorem fingerprintFields_of {d : JsString} {fields : List JsString} (hd : Bounded 64 d)
    (hfields : ∀ s ∈ fields, Bounded 512 s) (hashed : List JsString) :
    fingerprintFields (.string d) (.of fields) hashed =
      .ok (digest (stringifyArray (some d :: fields.map some)),
        stringifyArray (some d :: fields.map some) :: hashed) := by
  have hstrings : (fields.map fun s => some (JsValue.string s)).any
      (fun item => item.any fun value => ¬ value.isString) = false := by
    simp [JsValue.isString]
  have hdomain : boundedString "fingerprint domain" (.string d) 64 = .ok d := hd _
  simp only [fingerprintFields, FieldList.of, hdomain, hstrings, checkedFields_of hfields]
  rfl

theorem validateAmountMinor_ok {value : JsValue} {amount : JsString}
    (h : validateAmountMinor value = .ok amount) :
    boundedString "amountMinor" value 32 = .ok amount := by
  obtain ⟨s, hs, h⟩ := bind_eq_ok.mp h
  by_cases hdecimal : isPositiveDecimal s
  · by_cases hsize : maxPaymentAmountMinor < numberOf s
    · simp only [hdecimal, hsize, not_true, if_true, if_false] at h
      cases h
    · simp only [hdecimal, hsize, not_true, if_false] at h
      cases h
      exact hs
  · simp only [hdecimal] at h
    cases h

theorem validatePaymentFingerprintInput_ok {input : JsValue} {payment : PaymentFingerprintInput}
    (h : validatePaymentFingerprintInput input = .ok payment) :
    ∀ s ∈ payment.fields, Bounded 512 s := by
  cases input with
  | object value =>
    simp only [validatePaymentFingerprintInput] at h
    split at h
    · cases h
    obtain ⟨tenant, htenant, h⟩ := bind_eq_ok.mp h
    obtain ⟨fromAccount, hfrom, h⟩ := bind_eq_ok.mp h
    obtain ⟨toAccount, hto, h⟩ := bind_eq_ok.mp h
    obtain ⟨currency, hcurrency, h⟩ := bind_eq_ok.mp h
    split at h
    · cases h
    obtain ⟨amountMinor, hamount, h⟩ := bind_eq_ok.mp h
    split at h
    · cases h
    cases h
    intro s hs
    simp only [PaymentFingerprintInput.fields, List.mem_cons, List.not_mem_nil, or_false] at hs
    rcases hs with rfl | rfl | rfl | rfl | rfl
    · exact bounded_of_eq_ok htenant (by decide)
    · exact bounded_of_eq_ok (validateReference_eq_ok.mp hfrom).1 (by decide)
    · exact bounded_of_eq_ok (validateReference_eq_ok.mp hto).1 (by decide)
    · exact bounded_of_eq_ok hcurrency (by decide)
    · exact bounded_of_eq_ok (validateAmountMinor_ok hamount) (by decide)
  | string s => cases h
  | number q => cases h
  | array => cases h
  | null => cases h
  | undefined => cases h
  | other => cases h

theorem bounded_payment : Bounded 64 (str "payment-v1") := fun _ =>
  boundedString_eq_ok.mpr ⟨rfl, by decide⟩

theorem bounded_provider : Bounded 64 (str "provider-v1") := fun _ =>
  boundedString_eq_ok.mpr ⟨rfl, by decide⟩

theorem paymentFingerprint_eq {input : JsValue} {payment : PaymentFingerprintInput}
    (h : validatePaymentFingerprintInput input = .ok payment) (hashed : List JsString) :
    paymentFingerprint input hashed =
      .ok (digest (stringifyArray (some (str "payment-v1") :: payment.fields.map some)),
        stringifyArray (some (str "payment-v1") :: payment.fields.map some) :: hashed) := by
  have hfields := validatePaymentFingerprintInput_ok h
  rw [← fingerprintFields_of bounded_payment hfields hashed]
  simp only [paymentFingerprint, h]
  rfl

theorem paymentProviderKey_eq {durableId providerAccount : JsValue} {id account : JsString}
    (hid : validateReference "durableId" durableId maxDurableIdBytes = .ok id)
    (haccount : validateReference "providerAccount" providerAccount 128 = .ok account)
    (hashed : List JsString) :
    paymentProviderKey durableId providerAccount hashed =
      .ok (str "lltx-provider-v1-" ++
          digest (stringifyArray [some (str "provider-v1"), some account, some id]),
        stringifyArray [some (str "provider-v1"), some account, some id] :: hashed) := by
  have hfields : ∀ s ∈ [account, id], Bounded 512 s := by
    intro s hs
    simp only [List.mem_cons, List.not_mem_nil, or_false] at hs
    rcases hs with rfl | rfl
    · exact bounded_of_eq_ok (validateReference_eq_ok.mp haccount).1 (by decide)
    · exact bounded_of_eq_ok (validateReference_eq_ok.mp hid).1 (by decide)
  have hfingerprint := fingerprintFields_of bounded_provider hfields hashed
  simp only [paymentProviderKey, hid, haccount]
  show (fingerprintFields _ _ hashed >>= fun p => _) = _
  rw [hfingerprint]
  rfl

/-! ### Names determine what they were made from -/

/-- Both calls return, and if the texts that they hash do not collide, they return the same
exactly if `same`. -/
def SameIff (call₁ call₂ : Hashing JsString) (same : Prop) : Prop :=
  ∃ result₁ hashed₁ result₂ hashed₂, call₁ [] = .ok (result₁, hashed₁) ∧
    call₂ [] = .ok (result₂, hashed₂) ∧
    (CollisionFree (hashed₁ ++ hashed₂) → (result₁ = result₂ ↔ same))

/-- A text and the digest of an array behind it. -/
theorem sameIff_of_digest {call₁ call₂ : Hashing JsString} (front : JsString)
    {items₁ items₂ : List (Option JsString)}
    (h₁ : call₁ [] = .ok (front ++ digest (stringifyArray items₁), [stringifyArray items₁]))
    (h₂ : call₂ [] = .ok (front ++ digest (stringifyArray items₂), [stringifyArray items₂])) :
    SameIff call₁ call₂ (items₁ = items₂) := by
  refine ⟨_, _, _, _, h₁, h₂, ?_⟩
  intro hfree
  rw [List.append_cancel_left_eq]
  constructor
  · exact digest_inj hfree (by simp) (by simp)
  · intro h
    rw [h]

theorem SameIff.congr {call₁ call₂ : Hashing JsString} {same same' : Prop}
    (h : SameIff call₁ call₂ same) (hsame : same ↔ same') : SameIff call₁ call₂ same' := by
  rwa [← propext hsame]

section Accepted

variable {namespace₁ namespace₂ identity₁ identity₂ : JsValue} {ns₁ ns₂ : JsString}
  {id₁ id₂ : Identity}

theorem operationKey_same (hns₁ : validateNamespace namespace₁ = .ok ns₁)
    (hns₂ : validateNamespace namespace₂ = .ok ns₂)
    (hid₁ : validateIdentity identity₁ = .ok id₁) (hid₂ : validateIdentity identity₂ = .ok id₂) :
    SameIff (operationKey namespace₁ identity₁) (operationKey namespace₂ identity₂)
      (ns₁ = ns₂ ∧ id₁.tenant = id₂.tenant ∧ id₁.operation = id₂.operation ∧
        id₁.idempotencyKey = id₂.idempotencyKey) := by
  refine ⟨_, _, _, _, operationKey_eq hns₁ hid₁ [], operationKey_eq hns₂ hid₂ [], ?_⟩
  intro hfree
  constructor
  · intro h
    have hitems := digest_inj hfree (by simp) (by simp) (key_inj h).2
    simpa using hitems
  · rintro ⟨hns, htenant, hoperation, hkey⟩
    rw [hns, htenant, hoperation, hkey]

end Accepted

theorem fingerprintFields_same {domain₁ domain₂ : JsValue} {fields₁ fields₂ : FieldList}
    {result₁ result₂ : JsString × List JsString}
    (h₁ : fingerprintFields domain₁ fields₁ [] = .ok result₁)
    (h₂ : fingerprintFields domain₂ fields₂ [] = .ok result₂) :
    SameIff (fingerprintFields domain₁ fields₁) (fingerprintFields domain₂ fields₂)
      (domain₁ = domain₂ ∧ fields₁ = fields₂) := by
  obtain ⟨d₁, checked₁, rfl, rfl, rfl⟩ := fingerprintFields_eq_ok h₁
  obtain ⟨d₂, checked₂, rfl, rfl, rfl⟩ := fingerprintFields_eq_ok h₂
  have hstrings : Function.Injective (List.map (Option.map JsValue.string)) :=
    List.map_injective_iff.mpr (Option.map_injective fun s t h => JsValue.string.inj h)
  refine (sameIff_of_digest [] h₁ h₂).congr ?_
  rw [List.cons.injEq, Option.some.injEq, JsValue.string.injEq, FieldList.array.injEq,
    hstrings.eq_iff]

theorem paymentFingerprint_same {input₁ input₂ : JsValue}
    {payment₁ payment₂ : PaymentFingerprintInput}
    (h₁ : validatePaymentFingerprintInput input₁ = .ok payment₁)
    (h₂ : validatePaymentFingerprintInput input₂ = .ok payment₂) :
    SameIff (paymentFingerprint input₁) (paymentFingerprint input₂) (payment₁ = payment₂) := by
  refine (sameIff_of_digest [] (paymentFingerprint_eq h₁ [])
    (paymentFingerprint_eq h₂ [])).congr ?_
  constructor
  · intro h
    cases payment₁
    cases payment₂
    simpa [PaymentFingerprintInput.fields] using h
  · intro h
    rw [h]

section Providers

variable {durableId₁ durableId₂ providerAccount₁ providerAccount₂ : JsValue}
  {id₁ id₂ account₁ account₂ : JsString}

theorem paymentProviderKey_same
    (hid₁ : validateReference "durableId" durableId₁ maxDurableIdBytes = .ok id₁)
    (hid₂ : validateReference "durableId" durableId₂ maxDurableIdBytes = .ok id₂)
    (haccount₁ : validateReference "providerAccount" providerAccount₁ 128 = .ok account₁)
    (haccount₂ : validateReference "providerAccount" providerAccount₂ 128 = .ok account₂) :
    SameIff (paymentProviderKey durableId₁ providerAccount₁)
      (paymentProviderKey durableId₂ providerAccount₂) (id₁ = id₂ ∧ account₁ = account₂) := by
  refine (sameIff_of_digest _ (paymentProviderKey_eq hid₁ haccount₁ [])
    (paymentProviderKey_eq hid₂ haccount₂ [])).congr ?_
  simp [and_comm]

end Providers

/-! ### The two domains -/

/-- A payment is no provider fingerprint, and a provider key is no payment fingerprint, nor one
behind the text that provider keys begin with. -/
def Separated (input durableId providerAccount : JsValue) : Prop :=
  (∀ fields result, fingerprintFields (.string (str "provider-v1")) fields [] = .ok result →
    SameIff (paymentFingerprint input)
      (fingerprintFields (.string (str "provider-v1")) fields) False) ∧
  (∀ fields result, fingerprintFields (.string (str "payment-v1")) fields [] = .ok result →
    SameIff (paymentProviderKey durableId providerAccount)
      (fingerprintFields (.string (str "payment-v1")) fields) False ∧
    SameIff (paymentProviderKey durableId providerAccount) (do
      let fingerprint ← fingerprintFields (.string (str "payment-v1")) fields
      return str "lltx-provider-v1-" ++ fingerprint) False)

theorem separated {input durableId providerAccount : JsValue} {payment : PaymentFingerprintInput}
    {id account : JsString} (hinput : validatePaymentFingerprintInput input = .ok payment)
    (hid : validateReference "durableId" durableId maxDurableIdBytes = .ok id)
    (haccount : validateReference "providerAccount" providerAccount 128 = .ok account) :
    Separated input durableId providerAccount := by
  have hdomains : str "payment-v1" ≠ str "provider-v1" := by decide
  refine ⟨?_, ?_⟩
  · intro fields result hfields
    obtain ⟨d, checked, hd, -, rfl⟩ := fingerprintFields_eq_ok hfields
    obtain rfl := JsValue.string.inj hd
    refine (sameIff_of_digest [] (paymentFingerprint_eq hinput []) hfields).congr ?_
    simp [hdomains]
  · intro fields result hfields
    obtain ⟨d, checked, hd, -, rfl⟩ := fingerprintFields_eq_ok hfields
    obtain rfl := JsValue.string.inj hd
    refine ⟨⟨_, _, _, _, paymentProviderKey_eq hid haccount [], hfields, ?_⟩, ?_⟩
    · intro _
      -- a provider key is longer than any digest
      refine ⟨?_, False.elim⟩
      intro h
      have hlen := congrArg List.length h
      rw [List.length_append, length_digest, length_digest] at hlen
      exact absurd hlen (by decide)
    · have hkey : (do
          let fingerprint ← fingerprintFields (.string (str "payment-v1")) fields
          return str "lltx-provider-v1-" ++ fingerprint : Hashing JsString) [] =
            .ok (str "lltx-provider-v1-" ++
              digest (stringifyArray (some (str "payment-v1") :: checked)),
              [stringifyArray (some (str "payment-v1") :: checked)]) := by
        show (fingerprintFields _ fields [] >>= fun p => _) = _
        rw [hfields]
        rfl
      refine (sameIff_of_digest _ (paymentProviderKey_eq hid haccount []) hkey).congr ?_
      simp [hdomains.symm]

/-- **The identity of an operation is injective.**  As long as SHA-256 does not collide on the
texts that two calls hash, equal names have equal sources. -/
theorem operation_identity_injective :
    (∀ {namespace₁ namespace₂ identity₁ identity₂ : JsValue} {ns₁ ns₂ : JsString}
      {id₁ id₂ : Identity}, validateNamespace namespace₁ = .ok ns₁ →
      validateNamespace namespace₂ = .ok ns₂ → validateIdentity identity₁ = .ok id₁ →
      validateIdentity identity₂ = .ok id₂ →
      SameIff (operationKey namespace₁ identity₁) (operationKey namespace₂ identity₂)
        (ns₁ = ns₂ ∧ id₁.tenant = id₂.tenant ∧ id₁.operation = id₂.operation ∧
          id₁.idempotencyKey = id₂.idempotencyKey)) ∧
    (∀ {domain₁ domain₂ : JsValue} {fields₁ fields₂ : FieldList}
      {result₁ result₂ : JsString × List JsString},
      fingerprintFields domain₁ fields₁ [] = .ok result₁ →
      fingerprintFields domain₂ fields₂ [] = .ok result₂ →
      SameIff (fingerprintFields domain₁ fields₁) (fingerprintFields domain₂ fields₂)
        (domain₁ = domain₂ ∧ fields₁ = fields₂)) ∧
    (∀ {input₁ input₂ : JsValue} {payment₁ payment₂ : PaymentFingerprintInput},
      validatePaymentFingerprintInput input₁ = .ok payment₁ →
      validatePaymentFingerprintInput input₂ = .ok payment₂ →
      SameIff (paymentFingerprint input₁) (paymentFingerprint input₂) (payment₁ = payment₂)) ∧
    (∀ {durableId₁ durableId₂ providerAccount₁ providerAccount₂ : JsValue}
      {id₁ id₂ account₁ account₂ : JsString},
      validateReference "durableId" durableId₁ maxDurableIdBytes = .ok id₁ →
      validateReference "durableId" durableId₂ maxDurableIdBytes = .ok id₂ →
      validateReference "providerAccount" providerAccount₁ 128 = .ok account₁ →
      validateReference "providerAccount" providerAccount₂ 128 = .ok account₂ →
      SameIff (paymentProviderKey durableId₁ providerAccount₁)
        (paymentProviderKey durableId₂ providerAccount₂) (id₁ = id₂ ∧ account₁ = account₂)) ∧
    (∀ {input durableId providerAccount : JsValue} {payment : PaymentFingerprintInput}
      {id account : JsString}, validatePaymentFingerprintInput input = .ok payment →
      validateReference "durableId" durableId maxDurableIdBytes = .ok id →
      validateReference "providerAccount" providerAccount 128 = .ok account →
      Separated input durableId providerAccount) := by
  refine ⟨?_, ?_, ?_, ?_, ?_⟩
  · exact operationKey_same
  · exact fingerprintFields_same
  · exact paymentFingerprint_same
  · exact paymentProviderKey_same
  · exact separated

/-- Both calls return, and not the same. -/
def Distinct (call₁ call₂ : Hashing JsString) : Prop :=
  ∃ result₁ hashed₁ result₂ hashed₂, call₁ [] = .ok (result₁, hashed₁) ∧
    call₂ [] = .ok (result₂, hashed₂) ∧ result₁ ≠ result₂

theorem SameIff.distinct {call₁ call₂ : Hashing JsString} {same : Prop}
    (h : SameIff call₁ call₂ same) {result₁ result₂ : JsString} {hashed₁ hashed₂ : List JsString}
    (h₁ : call₁ [] = .ok (result₁, hashed₁)) (h₂ : call₂ [] = .ok (result₂, hashed₂))
    (hfree : CollisionFree (hashed₁ ++ hashed₂)) (hne : ¬ same) : Distinct call₁ call₂ := by
  obtain ⟨_, _, _, _, h₁', h₂', hsame⟩ := h
  cases h₁.symm.trans h₁'
  cases h₂.symm.trans h₂'
  refine ⟨_, _, _, _, h₁, h₂, ?_⟩
  intro heq
  exact hne ((hsame hfree).mp heq)

/-- An operation of some tenant. -/
def tenantIdentity (tenant : JsString) : JsValue :=
  .object [(str "tenant", .string tenant), (str "operation", .string (str "pay")),
    (str "idempotencyKey", .string (str "k")),
    (str "fingerprint", .string (List.replicate 64 97)), (str "durableId", .string (str "d"))]

/-- A payment from `a` to `b`. -/
def somePayment (amountMinor : JsString) : JsValue :=
  .object [(str "tenant", .string (str "t")), (str "fromAccount", .string (str "a")),
    (str "toAccount", .string (str "b")), (str "currency", .string (str "EUR")),
    (str "amountMinor", .string amountMinor)]

/-- Two tenants, two ways to cut a text, two amounts, two provider accounts, and a payment beside
the provider fingerprint of its own fields. -/
theorem operation_identity_injective_examples :
    Distinct (operationKey (.string (str "ns")) (tenantIdentity (str "t")))
      (operationKey (.string (str "ns")) (tenantIdentity (str "u"))) ∧
    Distinct (fingerprintFields (.string (str "d")) (.of [str "a,b"]))
      (fingerprintFields (.string (str "d")) (.of [str "a", str "b"])) ∧
    Distinct (paymentFingerprint (somePayment (str "100")))
      (paymentFingerprint (somePayment (str "1000"))) ∧
    Distinct (paymentProviderKey (.string (str "d")) (.string (str "acct1")))
      (paymentProviderKey (.string (str "d")) (.string (str "acct2"))) ∧
    Distinct (paymentFingerprint (somePayment (str "100")))
      (fingerprintFields (.string (str "provider-v1"))
        (.of [str "t", str "a", str "b", str "EUR", str "100"])) := by
  have hns : validateNamespace (.string (str "ns")) = .ok (str "ns") := by rfl
  have ht : validateIdentity (tenantIdentity (str "t")) = .ok ⟨str "t", str "pay", str "k",
    List.replicate 64 97, str "d"⟩ := by rfl
  have hu : validateIdentity (tenantIdentity (str "u")) = .ok ⟨str "u", str "pay", str "k",
    List.replicate 64 97, str "d"⟩ := by rfl
  have hdomain : Bounded 64 (str "d") := fun _ => by rfl
  have hwhole : fingerprintFields (.string (str "d")) (.of [str "a,b"]) [] = .ok _ :=
    fingerprintFields_of hdomain (List.forall_mem_singleton.mpr fun _ => by rfl) []
  have hcut : fingerprintFields (.string (str "d")) (.of [str "a", str "b"]) [] = .ok _ :=
    fingerprintFields_of hdomain (List.forall_mem_cons.mpr
      ⟨fun _ => by rfl, List.forall_mem_singleton.mpr fun _ => by rfl⟩) []
  have hsmall : validatePaymentFingerprintInput (somePayment (str "100")) =
    .ok ⟨str "t", str "a", str "b", str "EUR", str "100"⟩ := by rfl
  have hlarge : validatePaymentFingerprintInput (somePayment (str "1000")) =
    .ok ⟨str "t", str "a", str "b", str "EUR", str "1000"⟩ := by rfl
  have hid : validateReference "durableId" (.string (str "d")) maxDurableIdBytes =
    .ok (str "d") := by rfl
  have hacct₁ : validateReference "providerAccount" (.string (str "acct1")) 128 =
    .ok (str "acct1") := by rfl
  have hacct₂ : validateReference "providerAccount" (.string (str "acct2")) 128 =
    .ok (str "acct2") := by rfl
  have hprovider : fingerprintFields (.string (str "provider-v1"))
      (.of [str "t", str "a", str "b", str "EUR", str "100"]) [] = .ok _ :=
    fingerprintFields_of bounded_provider (validatePaymentFingerprintInput_ok hsmall) []
  obtain ⟨hoperation, hfields, hpayment, hkey, hdomains⟩ := operation_identity_injective
  refine ⟨?_, ?_, ?_, ?_, ?_⟩
  · exact (hoperation hns hns ht hu).distinct (operationKey_eq hns ht [])
      (operationKey_eq hns hu []) (by decide +kernel) (by decide)
  · exact (hfields hwhole hcut).distinct hwhole hcut (by decide +kernel) (by simp [FieldList.of])
  · exact (hpayment hsmall hlarge).distinct (paymentFingerprint_eq hsmall [])
      (paymentFingerprint_eq hlarge []) (by decide +kernel) (by decide)
  · exact (hkey hid hid hacct₁ hacct₂).distinct (paymentProviderKey_eq hid hacct₁ [])
      (paymentProviderKey_eq hid hacct₂ []) (by decide +kernel) (by decide)
  · exact ((hdomains hsmall hid hacct₁).1 _ _ hprovider).distinct
      (paymentFingerprint_eq hsmall []) hprovider (by decide +kernel) (not_false)

end Transactions
