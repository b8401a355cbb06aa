/-
Invalidation events on the wire (`eventCodec.ts`).

A cache tells its peers of a deletion, of a pattern or of a new value with an event: an
object that the serializer carries.  The reader takes nothing in it on trust.  A key that
is a number travels as its text, with a tag beside it; the reader accepts the tag only if
the text is the one that the number has.

* `isInvalidationEvent`, `decodeInvalidationEvent` — the reader;
* `Publication.event`, `Publisher.publish` — what the cache builds;
* `resolvedKeys` — the keys that a receiver acts on;
* `isInvalidationEvent_publish` — what is built is accepted;
* `published_survives` — on the wire an event keeps its key and the type of its key.
-/
import LazyLayers.NumberConversion
import LazyLayers.EventEncoding
import LazyLayers.Serializer
import LazyLayers.HybridGenerations

open Js Double

namespace EventCodec

/-! ### Values -/

/-- The values of the runtime; `O` are the objects that are neither arrays nor plain. -/
inductive Value (O : Type)
  | undefined
  | null
  | bool (b : Bool)
  | num (n : Number)
  | str (s : JsString)
  | arr (items : List (Value O))
  | obj (members : List (JsString × Value O))
  | other (o : O)

variable {O : Type}

/-- `Buffer.byteLength(s)` -/
def byteLength (s : JsString) : ℕ := (utf8 s).length

namespace Value

/-- `isRecord(value)` -/
def isRecord : Value O → Bool
  | .obj _ => true
  | .arr _ => true
  | .other _ => true
  | _ => false

/-- `value[name]`, for the names that events have. -/
def member (value : Value O) (name : JsString) : Value O :=
  match value with
  | .obj members => (JsMap.get members name).getD .undefined
  | _ => .undefined

/-- `name in value`, for the names that events have. -/
def has (value : Value O) (name : JsString) : Bool :=
  match value with
  | .obj members => JsMap.has members name
  | _ => false

/-- `{ ...value, [name]: v }` -/
def extend (value : Value O) (name : JsString) (v : Value O) : Value O :=
  match value with
  | .obj members => .obj (JsMap.set members name v)
  | _ => .obj [(name, v)]

/-- `typeof value === 'string' && Buffer.byteLength(value) <= max` -/
def isText (max : ℕ) : Value O → Bool
  | .str s => byteLength s ≤ max
  | _ => false

/-- `value === undefined || …` -/
def isOptional (p : Value O → Bool) : Value O → Bool
  | .undefined => true
  | value => p value

def isFiniteNumber : Value O → Bool
  | .num n => n.isFinite
  | _ => false

/-- What `!value` asks of the values that may stand for the types of keys. -/
def isAbsent : Value O → Bool
  | .undefined => true
  | .null => true
  | .bool b => !b
  | _ => false

/-- The items of an array. -/
def items : Value O → List (Value O)
  | .arr items => items
  | _ => []

/-- The text of a string. -/
def text : Value O → JsString
  | .str s => s
  | _ => []

end Value

def zero : Number := .finite 0 isDouble_zero

/-- `Number.isSafeInteger(n)` -/
def isSafeInteger : Number → Bool
  | .finite q _ => q.den = 1 && q.num.natAbs < 2 ^ 53
  | _ => false

/-! ### The reader -/

/-- `type === 'number' && Number.isFinite(Number(key)) && String(Number(key)) === key` -/
def isNumberText (key : JsString) : Bool :=
  (Number.ofText key).isFinite && (Number.ofText key).toText = key

/-- Whether the type of a key is known, and right. -/
def isTypeOf (type key : Value O) : Bool :=
  match type with
  | .str type => type = str "string" || (type = str "number" && isNumberText key.text)
  | _ => false

def isDeleteEvent (value : Value O) (maxKeys maxKeyBytes : ℕ) : Bool :=
  match value.member (str "keys") with
  | .arr keys =>
    if maxKeys < keys.length || !keys.all (Value.isText maxKeyBytes) then false
    else
      match value.member (str "keyTypes") with
      | .undefined => true
      | .arr types => types.length = keys.length && (types.zip keys).all fun e => isTypeOf e.1 e.2
      | _ => false
  | _ => false

def isPatternEvent (value : Value O) (maxKeyBytes : ℕ) : Bool :=
  (value.member (str "pattern")).isText maxKeyBytes

/-- A finite number greater than zero. -/
def isTtl : Value O → Bool
  | .num n => n.isFinite && zero.lt n
  | _ => false

def isSetEvent (value : Value O) (maxKeys maxKeyBytes : ℕ) : Bool :=
  isDeleteEvent value maxKeys maxKeyBytes && value.has (str "value") &&
    (value.member (str "ttlMs")).isOptional isTtl

/-- A safe integer that is not negative. -/
def isGeneration : Value O → Bool
  | .num n => isSafeInteger n && zero.le n
  | _ => false

/-- What all events have in common. -/
def hasHeader (value : Value O) (maxKeyBytes : ℕ) : Bool :=
  value.isRecord && (value.member (str "ts")).isFiniteNumber &&
    (value.member (str "namespace")).isOptional (Value.isText maxKeyBytes) &&
    (value.member (str "id")).isOptional (Value.isText maxKeyBytes) &&
    (value.member (str "source")).isText maxKeyBytes &&
    (value.member (str "generation")).isOptional isGeneration

def isInvalidationEvent (value : Value O) (maxKeys maxKeyBytes : ℕ) : Bool :=
  hasHeader value maxKeyBytes &&
    match value.member (str "type") with
    | .str type =>
      if type = str "del" then isDeleteEvent value maxKeys maxKeyBytes
      else if type = str "pattern" then isPatternEvent value maxKeyBytes
      else if type = str "set" then isSetEvent value maxKeys maxKeyBytes
      else false
    | _ => false

/-- `serialize` and `decodeCacheRecord`; `none` where they throw or miss. -/
structure Wire (O : Type) where
  serialize : Value O → Option (List UInt8)
  decodeCacheRecord : List UInt8 → Option (Value O)

def encodeInvalidationEvent (wire : Wire O) (event : Value O) : Option (List UInt8) :=
  wire.serialize event

structure EventDecodeOptions where
  maxKeys : Option Number := none
  maxKeyBytes : Option Number := none

/-- What a transport hands over: text, bytes or a value of another kind. -/
inductive Raw (O : Type)
  | text (s : JsString)
  | bytes (b : List UInt8)
  | value (v : Value O)

/-- A positive safe integer. -/
def decodeLimit (option : Option Number) (default : ℕ) : Option ℕ :=
  let limit := option.getD (Number.ofRat default)
  if isSafeInteger limit && zero.lt limit then limit.natural else none

/-- `decodeInvalidationEvent(raw, options)`, or the message of its error. -/
def decodeInvalidationEvent (wire : Wire O) (raw : Raw O) (options : EventDecodeOptions) :
    Except String (Option (Value O)) :=
  match decodeLimit options.maxKeys 4096, decodeLimit options.maxKeyBytes (64 * 1024) with
  | some maxKeys, some maxKeyBytes =>
    let event :=
      match raw with
      | .text s => if 25 * 1024 * 1024 < byteLength s then none else wire.decodeCacheRecord (utf8 s)
      | .bytes b => wire.decodeCacheRecord b
      | .value v => some v
    .ok (event.filter fun event => isInvalidationEvent event maxKeys maxKeyBytes)
  | _, _ => .error "Event decode limits must be positive safe integers"

/-! ### Keys -/

inductive Key
  | str (s : JsString)
  | num (x : Number)

namespace Key

/-- `String(key)` -/
def text : Key → JsString
  | .str s => s
  | .num x => x.toText

def isNumber : Key → Bool
  | .str _ => false
  | .num _ => true

/-- `typeof key === 'number' ? 'number' : 'string'` -/
def typeName (key : Key) : JsString := if key.isNumber then Js.str "number" else Js.str "string"

end Key

/-- `eventKey(rawKey, type)` -/
def eventKey (rawKey : JsString) (type : Value O) : Key :=
  match type with
  | .str type => if type = str "number" then .num (Number.ofText rawKey) else .str rawKey
  | _ => .str rawKey

/-- The alias that a deletion without types also evicts. -/
def legacyAlias (event : Value O) (rawKey : JsString) : List Key :=
  match event.member (str "type") with
  | .str type =>
    if type = str "del" && (event.member (str "keyTypes")).isAbsent && isNumberText rawKey then
      [.num (Number.ofText rawKey)]
    else []
  | _ => []

/-- The keys that `applyRemoteDelete` and `applyRemoteSet` act on. -/
def resolvedKeys (event : Value O) : List Key :=
  (event.member (str "keys")).items.zipIdx.flatMap fun (rawKey, index) =>
    eventKey rawKey.text (((event.member (str "keyTypes")).items[index]?).getD .undefined) ::
      legacyAlias event rawKey.text

/-! ### What the cache builds -/

/-- A life that `validateCacheBudgets` lets through. -/
abbrev Ttl := { ttlMs : Number // ttlMs.isFinite = true ∧ zero.lt ttlMs = true }

/-- The check of `ttlMs` in `validateCacheBudgets`. -/
def validateTtl : Option Number → Except String (Option Ttl)
  | none => .ok none
  | some ttlMs =>
    if h : ttlMs.isFinite = true ∧ zero.lt ttlMs = true then .ok (some ⟨ttlMs, h⟩)
    else .error "ttlMs must be positive and finite"

/-- A scope that the constructor lets through. -/
abbrev Scope := { scope : JsString // wellFormed scope = true ∧ byteLength scope ≤ 64 * 1024 }

/-- The check of `eventNamespace` in the constructor. -/
def validateNamespace : Option JsString → Except String (Option Scope)
  | none => .ok none
  | some scope =>
    if h : wellFormed scope = true ∧ byteLength scope ≤ 64 * 1024 then .ok (some ⟨scope, h⟩)
    else .error "eventNamespace must be a well-formed Unicode string of at most 64 KiB"

/-- What a cache was constructed with. -/
structure Publisher where
  source : JsString
  eventNamespace : Option Scope
  ttlMs : Option Ttl

/-- `randomUUID()`, for sixteen random bytes. -/
def randomUUID (random : Fin 16 → UInt8) : JsString :=
  (List.finRange 16).flatMap fun i =>
    let byte :=
      -- the version and the variant
      if i = 6 then 0x40 + (random i).toNat % 16
      else if i = 8 then 0x80 + (random i).toNat % 64
      else (random i).toNat
    (if i = 4 ∨ i = 6 ∨ i = 8 ∨ i = 10 then [45] else []) ++
      [lowerHexDigit (byte / 16), lowerHexDigit (byte % 16)]

/-- What is new with every event: `createEventId()` and `Date.now()`. -/
structure Stamp where
  random : Fin 16 → UInt8
  now : ℤ
  timeValue : |now| ≤ 8640000000000000

/-- An operation that tells the peers. -/
inductive Publication (O : Type)
  | delete (key : Key)
  | deleteByPattern (pattern : JsString)
  | set (key : Key) (value : Value O) (ttlMs : Option Ttl)

namespace Publication

/-- The key that peers are told of. -/
def key : Publication O → Option Key
  | .delete key => some key
  | .deleteByPattern _ => none
  | .set key _ _ => some key

variable {V : Type}

/-- `{ generation }`, or nothing. -/
def generationMember (s : HybridCache.State V) (key : Key) : List (JsString × Value O) :=
  match HybridCache.generationForEvent s key.text with
  | none => []
  | some generation => [(str "generation", .num (Number.ofRat generation))]

def keyTypes (key : Key) : List (JsString × Value O) :=
  [(str "keyTypes", .arr [.str key.typeName])]

/-- The event of an operation on a cache that is in state `s`. -/
def event (c : Publisher) (s : HybridCache.State V) (stamp : Stamp) : Publication O → Value O
  | .delete key => .obj ([
      (str "id", .str (randomUUID stamp.random)),
      (str "type", .str (str "del")),
      (str "keys", .arr [.str key.text]),
      (str "source", .str c.source),
      (str "ts", .num (Number.ofRat stamp.now))] ++ generationMember s key ++ keyTypes key)
  | .deleteByPattern pattern => .obj [
      (str "id", .str (randomUUID stamp.random)),
      (str "type", .str (str "pattern")),
      (str "pattern", .str pattern),
      (str "source", .str c.source),
      (str "ts", .num (Number.ofRat stamp.now))]
  | .set key value ttlMs => .obj ([
      (str "id", .str (randomUUID stamp.random)),
      (str "type", .str (str "set")),
      (str "keys", .arr [.str key.text]),
      (str "value", value),
      (str "ttlMs", ((ttlMs.or c.ttlMs).map fun ttlMs => Value.num ttlMs.val).getD .undefined),
      (str "source", .str c.source),
      (str "ts", .num (Number.ofRat stamp.now))] ++ generationMember s key ++ keyTypes key)

end Publication

/-- What `publishInvalidation` hands to the bus. -/
def Publisher.publish (c : Publisher) (event : Value O) : Value O :=
  match c.eventNamespace with
  | none => event
  | some scope => event.extend (str "namespace") (.str scope.val)

/-! ### What is built is accepted -/

section Accepted

variable {V : Type} {c : Publisher} {s : HybridCache.State V} {stamp : Stamp}

theorem member_extend_self (members : List (JsString × Value O)) (name : JsString) (v : Value O) :
    ((Value.obj members).extend name v).member name = v := by
  show (JsMap.get (JsMap.set members name v) name).getD .undefined = v
  rw [JsMap.get_set_self]
  rfl

theorem member_extend_of_ne (members : List (JsString × Value O)) {name name' : JsString}
    (v : Value O) (h : name ≠ name') :
    ((Value.obj members).extend name v).member name' = (Value.obj members).member name' := by
  show (JsMap.get (JsMap.set members name v) name').getD .undefined = _
  rw [JsMap.get_set_of_ne members v h]
  rfl

/-- Every event is an object, and publishing it changes no member but the scope. -/
theorem member_publish (p : Publication O) {name : JsString} (h : name ≠ str "namespace") :
    (c.publish (p.event c s stamp)).member name = (p.event c s stamp).member name := by
  rw [Publisher.publish]
  cases c.eventNamespace with
  | none => rfl
  | some scope =>
    cases p with
    | delete key => exact member_extend_of_ne _ _ h.symm
    | deleteByPattern pattern => exact member_extend_of_ne _ _ h.symm
    | set key value ttlMs => exact member_extend_of_ne _ _ h.symm

theorem byteLength_of_units {text : JsString} (h : ∀ u ∈ text, u.toNat < 128) :
    byteLength text = text.length := EventEncoding.length_utf8_of_ascii h

theorem byteLength_randomUUID (random : Fin 16 → UInt8) : byteLength (randomUUID random) = 36 := by
  have hascii : ∀ u ∈ randomUUID random, u.toNat < 128 := by
    intro u hu
    obtain ⟨i, -, hu⟩ := List.mem_flatMap.mp hu
    dsimp only at hu
    rcases List.mem_append.mp hu with hu | hu
    · split at hu
      · rw [List.mem_singleton.mp hu]
        decide
      · exact absurd hu List.not_mem_nil
    · have hdigit : ∀ n < 256, u ∈ [lowerHexDigit (n / 16), lowerHexDigit (n % 16)] →
          u.toNat < 128 := by
        intro n hn hu
        rcases List.mem_cons.mp hu with rfl | hu
        · exact (lowerHexDigit_lt (by omega)).1
        · rw [List.mem_singleton.mp hu]
          exact (lowerHexDigit_lt (by omega)).1
      have hbyte := (random i).toNat_lt
      refine hdigit _ ?_ hu
      split_ifs <;> omega
  rw [byteLength_of_units hascii]
  rfl

theorem isFinite_ofRat {q : ℚ} (h : IsDouble q) : (Number.ofRat q).isFinite = true := by
  rw [Number.ofRat_of_isDouble h]
  rfl

theorem isDouble_now : IsDouble (stamp.now : ℚ) :=
  isDouble_intCast (stamp.timeValue.trans (by norm_num))

theorem isGeneration_ofRat {n : ℕ} (h : n < 2 ^ 53) :
    isGeneration (.num (Number.ofRat n) : Value O) = true := by
  have hdouble : IsDouble (n : ℚ) := by
    have := isDouble_intCast (n := n) (by rw [Nat.abs_cast]; exact_mod_cast h.le)
    exact_mod_cast this
  rw [isGeneration, Number.ofRat_of_isDouble hdouble]
  simp only [isSafeInteger, zero, Number.le, Rat.den_natCast, Rat.num_natCast, Int.natAbs_natCast,
    Nat.cast_nonneg, decide_true, Bool.true_and, Bool.and_true]
  exact decide_eq_true h

theorem decodeLimit_none {default : ℕ} (h0 : 0 < default) (h : default < 2 ^ 53) :
    decodeLimit none default = some default := by
  have hdouble : IsDouble ((default : ℤ) : ℚ) :=
    isDouble_intCast (by rw [Nat.abs_cast]; exact_mod_cast h.le)
  have hcast : (default : ℚ) = ((default : ℤ) : ℚ) := (Int.cast_natCast default).symm
  rw [decodeLimit]
  dsimp only [Option.getD_none]
  rw [hcast, Number.ofRat_of_isDouble hdouble, Number.natural_intCast, if_pos]
  simp [isSafeInteger, zero, Number.lt, h0]
  omega

theorem isRecord_publish (p : Publication O) : (c.publish (p.event c s stamp)).isRecord = true := by
  rw [Publisher.publish]
  cases c.eventNamespace <;> cases p <;> rfl

/-- Events are built without a scope. -/
theorem member_namespace (p : Publication O) : (c.publish (p.event c s stamp)).member
    (str "namespace") = (c.eventNamespace.map fun scope => Value.str scope.val).getD .undefined := by
  rw [Publisher.publish]
  cases c.eventNamespace with
  | none =>
    cases p with
    | deleteByPattern pattern => rfl
    | delete key =>
      rw [Publication.event, Publication.generationMember]
      cases HybridCache.generationForEvent s key.text <;> rfl
    | set key value ttlMs =>
      rw [Publication.event, Publication.generationMember]
      cases HybridCache.generationForEvent s key.text <;> rfl
  | some scope => cases p <;> exact member_extend_self _ _ _

theorem member_generation (p : Publication O) : (p.event c s stamp).member (str "generation") =
    ((p.key.bind fun key => HybridCache.generationForEvent s key.text).map
      fun generation => Value.num (Number.ofRat generation)).getD .undefined := by
  cases p with
  | deleteByPattern pattern => rfl
  | delete key =>
    rw [Publication.event, Publication.generationMember, Publication.key, Option.bind_some]
    cases HybridCache.generationForEvent s key.text <;> rfl
  | set key value ttlMs =>
    rw [Publication.event, Publication.generationMember, Publication.key, Option.bind_some]
    cases HybridCache.generationForEvent s key.text <;> rfl

/-- The types stand behind the generation, if there is one. -/
theorem member_keyTypes {p : Publication O} {key : Key} (hp : p.key = some key) :
    (c.publish (p.event c s stamp)).member (str "keyTypes") = .arr [.str key.typeName] := by
  rw [member_publish p (by decide)]
  cases p with
  | deleteByPattern pattern => cases hp
  | delete key' =>
    obtain rfl : key' = key := Option.some.inj hp
    rw [Publication.event, Publication.generationMember]
    cases HybridCache.generationForEvent s key'.text <;> rfl
  | set key' value ttlMs =>
    obtain rfl : key' = key := Option.some.inj hp
    rw [Publication.event, Publication.generationMember]
    cases HybridCache.generationForEvent s key'.text <;> rfl

theorem member_keys {p : Publication O} {key : Key} (hp : p.key = some key) :
    (c.publish (p.event c s stamp)).member (str "keys") = .arr [.str key.text] := by
  rw [member_publish p (by decide)]
  cases p with
  | deleteByPattern pattern => cases hp
  | delete key' =>
    rw [← Option.some.inj hp]
    rfl
  | set key' value ttlMs =>
    rw [← Option.some.inj hp]
    rfl

theorem hasHeader_publish (hsource : byteLength c.source ≤ 64 * 1024) (hs : s.SafeGenerations)
    (p : Publication O) : hasHeader (c.publish (p.event c s stamp)) (64 * 1024) = true := by
  have hts : (p.event c s stamp).member (str "ts") = .num (Number.ofRat stamp.now) := by
    cases p <;> rfl
  have hid : (p.event c s stamp).member (str "id") = .str (randomUUID stamp.random) := by
    cases p <;> rfl
  have hmember : (p.event c s stamp).member (str "source") = .str c.source := by
    cases p <;> rfl
  have hscope : (((c.eventNamespace.map fun scope => Value.str scope.val).getD .undefined :
      Value O)).isOptional (Value.isText (64 * 1024)) = true := by
    cases c.eventNamespace with
    | none => rfl
    | some scope => exact decide_eq_true scope.property.2
  have hgeneration : ((p.event c s stamp).member (str "generation")).isOptional isGeneration =
      true := by
    rw [member_generation]
    cases p.key with
    | none => rfl
    | some key =>
      rw [Option.bind_some, HybridCache.generationForEvent]
      split
      · rfl
      · exact isGeneration_ofRat (O := O) (hs key.text)
  rw [hasHeader, isRecord_publish, member_namespace, member_publish p (by decide), hts,
    member_publish p (by decide), hid, member_publish p (by decide), hmember,
    member_publish p (by decide), hscope, hgeneration]
  have hfinite : (Value.num (Number.ofRat stamp.now) : Value O).isFiniteNumber = true :=
    isFinite_ofRat isDouble_now
  have huuid : (Value.str (randomUUID stamp.random) : Value O).isOptional
      (Value.isText (64 * 1024)) = true := by
    refine decide_eq_true ?_
    rw [byteLength_randomUUID]
    norm_num
  have htext : (Value.str c.source : Value O).isText (64 * 1024) = true := decide_eq_true hsource
  rw [hfinite, huuid, htext]
  rfl

/-- A key that peers accept: a short string, or a finite number. -/
def Key.Sendable : Key → Prop
  | .str s => byteLength s ≤ 64 * 1024
  | .num x => x.isFinite = true

theorem Key.byteLength_text {key : Key} (h : key.Sendable) : byteLength key.text ≤ 64 * 1024 := by
  cases key with
  | str s => exact h
  | num x =>
    obtain ⟨hlength, hunits⟩ := toText_spec h
    show byteLength x.toText ≤ 64 * 1024
    rw [byteLength_of_units fun u hu => ascii_of_isNumberUnit (hunits u hu)]
    omega

/-- A key has the type that is told beside it. -/
theorem Key.isTypeOf_typeName {key : Key} (h : key.Sendable) :
    isTypeOf (.str key.typeName : Value O) (.str key.text) = true := by
  cases key with
  | str s => rfl
  | num x =>
    have hnumber : isNumberText x.toText = true := by
      have hx : x.isFinite = true := h
      rw [isNumberText, Number.ofText_toText, hx]
      exact decide_eq_true rfl
    have hname : (Key.num x).typeName = Js.str "number" := rfl
    rw [hname, isTypeOf, Value.text, Key.text, hnumber]
    rfl

theorem isDeleteEvent_publish {p : Publication O} {key : Key} (hp : p.key = some key)
    (h : key.Sendable) : isDeleteEvent (c.publish (p.event c s stamp)) 4096 (64 * 1024) = true := by
  have hshort : (Value.str key.text : Value O).isText (64 * 1024) = true :=
    decide_eq_true (Key.byteLength_text h)
  rw [isDeleteEvent, member_keys hp, member_keyTypes hp]
  show (if _ || !([Value.str key.text].all _) then false else _ && _) = true
  rw [List.all_cons, hshort]
  show (isTypeOf (.str key.typeName) (.str key.text) && true) = true
  rw [Key.isTypeOf_typeName h]
  rfl

/-- What an event must satisfy to be accepted. -/
def Publication.Sendable : Publication O → Prop
  | .delete key => key.Sendable
  | .deleteByPattern pattern => byteLength pattern ≤ 64 * 1024
  | .set key _ _ => key.Sendable

theorem isTtl_num (ttlMs : Ttl) : isTtl (.num ttlMs.val : Value O) = true := by
  rw [isTtl, ttlMs.property.1, ttlMs.property.2]
  rfl

theorem isSetEvent_publish {key : Key} (h : key.Sendable) (value : Value O) (ttlMs : Option Ttl) :
    isSetEvent (c.publish ((Publication.set key value ttlMs).event c s stamp)) 4096 (64 * 1024) =
      true := by
  have hmember : ((Publication.set key value ttlMs).event c s stamp).member (str "ttlMs") =
      ((ttlMs.or c.ttlMs).map fun ttlMs => Value.num ttlMs.val).getD .undefined := rfl
  have hhas : (c.publish ((Publication.set key value ttlMs).event c s stamp)).has (str "value") =
      true := by
    rw [Publisher.publish]
    cases c.eventNamespace with
    | none => rfl
    | some scope =>
      refine Option.isSome_iff_ne_none.mpr ?_
      rw [JsMap.get_set_of_ne _ _ (by decide)]
      exact Option.some_ne_none value
  have httl : (((ttlMs.or c.ttlMs).map fun ttlMs => Value.num ttlMs.val).getD .undefined :
      Value O).isOptional isTtl = true := by
    cases ttlMs.or c.ttlMs with
    | none => rfl
    | some ttlMs => exact isTtl_num (O := O) ttlMs
  rw [isSetEvent, isDeleteEvent_publish rfl h, hhas, member_publish _ (by decide), hmember, httl]
  rfl

/-- The reader accepts what the cache builds. -/
theorem isInvalidationEvent_publish (hsource : byteLength c.source ≤ 64 * 1024)
    (hs : s.SafeGenerations) {p : Publication O} (hp : p.Sendable) :
    isInvalidationEvent (c.publish (p.event c s stamp)) 4096 (64 * 1024) = true := by
  rw [isInvalidationEvent, hasHeader_publish hsource hs p, member_publish p (by decide)]
  cases p with
  | delete key => exact isDeleteEvent_publish rfl hp
  | deleteByPattern pattern =>
    have hpattern : ((Publication.deleteByPattern pattern : Publication O).event c s stamp).member
        (str "pattern") = .str pattern := rfl
    show isPatternEvent _ _ = true
    rw [isPatternEvent, member_publish _ (by decide), hpattern]
    exact decide_eq_true hp
  | set key value ttlMs => exact isSetEvent_publish hp value ttlMs

/-! ### What a receiver makes of it -/

/-- A key is resolved to itself, whatever it is. -/
theorem eventKey_typeName (key : Key) : eventKey key.text (.str key.typeName : Value O) = key := by
  cases key with
  | str s => rfl
  | num x =>
    show Key.num (Number.ofText x.toText) = Key.num x
    rw [Number.ofText_toText]

/-- Its types make an event its own alias. -/
theorem resolvedKeys_publish {p : Publication O} {key : Key} (hp : p.key = some key) :
    resolvedKeys (c.publish (p.event c s stamp)) = [key] := by
  have halias : legacyAlias (c.publish (p.event c s stamp)) key.text = [] := by
    have hpresent : (Value.arr [.str key.typeName] : Value O).isAbsent = false := rfl
    rw [legacyAlias, member_keyTypes hp, hpresent]
    split
    · simp
    · rfl
  rw [resolvedKeys, member_keys hp, member_keyTypes hp]
  show eventKey key.text (.str key.typeName) :: (legacyAlias _ key.text ++ []) = [key]
  rw [halias, eventKey_typeName]
  rfl

/-- A key as the tiers know it. -/
def Key.cacheKey (key : Key) : CacheKey := ⟨key.isNumber, key.text⟩

/-- No two numbers have one text, so the tiers tell all keys apart. -/
theorem cacheKey_injective : Function.Injective Key.cacheKey := by
  intro key key' h
  have hnumber : key.isNumber = key'.isNumber := congrArg CacheKey.isNumber h
  have htext : key.text = key'.text := congrArg CacheKey.text h
  rw [← eventKey_typeName (O := Empty) key, ← eventKey_typeName (O := Empty) key', Key.typeName,
    Key.typeName, hnumber, htext]

/-- The keys that the methods of the cache act on are those that the event resolves to. -/
theorem eventKey_cacheKey {cfg : HybridCache.Config V}
    (hcfg : cfg.numberText = fun text => (Number.ofText text).toText) (rawKey : JsString)
    (isNumber : Bool) : HybridCache.eventKey cfg rawKey (some isNumber) =
      (eventKey rawKey (.str (if isNumber then str "number" else str "string") :
        Value O)).cacheKey := by
  rw [HybridCache.eventKey, hcfg]
  cases isNumber <;> rfl

/-- The serializer gives the value back that it has written. -/
def Wire.RoundTrip (wire : Wire O) (value : Value O) : Prop :=
  (wire.serialize value).bind wire.decodeCacheRecord = some value

/-- What a peer with the default limits reads. -/
def Wire.received (wire : Wire O) (event : Value O) : Option (Except String (Option (Value O))) :=
  (encodeInvalidationEvent wire event).map fun bytes => decodeInvalidationEvent wire (.bytes bytes) {}

theorem received_of_roundTrip {wire : Wire O} {event : Value O} (h : wire.RoundTrip event) :
    wire.received event = some (.ok (if isInvalidationEvent event 4096 (64 * 1024) = true then
      some event else none)) := by
  obtain ⟨bytes, hbytes, hread⟩ := Option.bind_eq_some_iff.mp h
  rw [Wire.received, encodeInvalidationEvent, hbytes, Option.map_some, decodeInvalidationEvent,
    decodeLimit_none (by norm_num) (by norm_num), decodeLimit_none (by norm_num) (by norm_num)]
  dsimp only
  rw [hread, Option.filter_some]

/-- **Published invalidations survive the wire with their keys.**

In every state of every run: an event that is built for a short string, a finite number or
a short pattern is read as it was built, and the receiver acts on the key that it was built
for, with its type.  Whatever the key, none of another type is resolved from an event that
has been accepted. -/
theorem published_survives (r : HybridCache.Run V) (n : ℕ) (c : Publisher) (stamp : Stamp)
    (wire : Wire O) (p : Publication O)
    (hwire : wire.RoundTrip (c.publish (p.event c (r.at n) stamp))) :
    (byteLength c.source ≤ 64 * 1024 → p.Sendable →
      wire.received (c.publish (p.event c (r.at n) stamp)) =
        some (.ok (some (c.publish (p.event c (r.at n) stamp)))) ∧
      ∀ key, p.key = some key → resolvedKeys (c.publish (p.event c (r.at n) stamp)) = [key]) ∧
    ∀ event, wire.received (c.publish (p.event c (r.at n) stamp)) = some (.ok (some event)) →
      ∀ key, p.key = some key → ∀ key' ∈ resolvedKeys event, key'.isNumber = key.isNumber := by
  have hreceived := received_of_roundTrip hwire
  refine ⟨fun hsource hp => ⟨?_, fun key hkey => resolvedKeys_publish hkey⟩,
    fun event hevent key hkey key' hkey' => ?_⟩
  · rw [hreceived, if_pos (isInvalidationEvent_publish hsource (HybridCache.Run.safeGenerations n) hp)]
  · rw [hreceived] at hevent
    split at hevent
    · rw [← Option.some.inj (Except.ok.inj (Option.some.inj hevent)), resolvedKeys_publish hkey]
        at hkey'
      rw [List.mem_singleton.mp hkey']
    · cases hevent

end Accepted

/-! ### The wire of the debug mode -/

mutual

/-- The values that JSON denotes. -/
def toJson : Value O → Option (Json FiniteNumber)
  | .null => some .null
  | .bool b => some (.bool b)
  | .num n => if h : n.isFinite = true then some (.num ⟨n, h⟩) else none
  | .str s => some (.str s)
  | .arr items => (toJsonItems items).map .arr
  | .obj members => (toJsonMembers members).map .obj
  | .undefined => none
  | .other _ => none

def toJsonItems : List (Value O) → Option (List (Json FiniteNumber))
  | [] => some []
  | v :: vs => (toJson v).bind fun v => (toJsonItems vs).map fun vs => v :: vs

def toJsonMembers : List (JsString × Value O) → Option (List (JsString × Json FiniteNumber))
  | [] => some []
  | (name, v) :: ms => (toJson v).bind fun v => (toJsonMembers ms).map fun ms => (name, v) :: ms

end

mutual

def ofJson : Json FiniteNumber → Value O
  | .null => .null
  | .bool b => .bool b
  | .num n => .num n.val
  | .str s => .str s
  | .arr items => .arr (ofJsonItems items)
  | .obj members => .obj (ofJsonMembers members)

def ofJsonItems : List (Json FiniteNumber) → List (Value O)
  | [] => []
  | v :: vs => ofJson v :: ofJsonItems vs

def ofJsonMembers : List (JsString × Json FiniteNumber) → List (JsString × Value O)
  | [] => []
  | (name, v) :: ms => (name, ofJson v) :: ofJsonMembers ms

end

mutual

theorem ofJson_toJson : ∀ {v : Value O} {j : Json FiniteNumber}, toJson v = some j → ofJson j = v
  | .null, j, h => by
    rw [← Option.some.inj h]
    rfl
  | .bool b, j, h => by
    rw [← Option.some.inj h]
    rfl
  | .num n, j, h => by
    rw [toJson] at h
    split at h
    · rw [← Option.some.inj h]
      rfl
    · cases h
  | .str s, j, h => by
    rw [← Option.some.inj h]
    rfl
  | .arr items, j, h => by
    obtain ⟨js, hjs, rfl⟩ := Option.map_eq_some_iff.mp h
    rw [ofJson, ofJsonItems_toJsonItems hjs]
  | .obj members, j, h => by
    obtain ⟨js, hjs, rfl⟩ := Option.map_eq_some_iff.mp h
    rw [ofJson, ofJsonMembers_toJsonMembers hjs]

theorem ofJsonItems_toJsonItems : ∀ {vs : List (Value O)} {js : List (Json FiniteNumber)},
    toJsonItems vs = some js → ofJsonItems js = vs
  | [], js, h => by
    rw [← Option.some.inj h]
    rfl
  | v :: vs, js, h => by
    obtain ⟨j, hj, h⟩ := Option.bind_eq_some_iff.mp h
    obtain ⟨js', hjs, rfl⟩ := Option.map_eq_some_iff.mp h
    rw [ofJsonItems, ofJson_toJson hj, ofJsonItems_toJsonItems hjs]

theorem ofJsonMembers_toJsonMembers :
    ∀ {ms : List (JsString × Value O)} {js : List (JsString × Json FiniteNumber)},
      toJsonMembers ms = some js → ofJsonMembers js = ms
  | [], js, h => by
    rw [← Option.some.inj h]
    rfl
  | (name, v) :: ms, js, h => by
    obtain ⟨j, hj, h⟩ := Option.bind_eq_some_iff.mp h
    obtain ⟨js', hjs, rfl⟩ := Option.map_eq_some_iff.mp h
    rw [ofJsonMembers, ofJson_toJson hj, ofJsonMembers_toJsonMembers hjs]

end

/-- A process in which `CACHE_DEBUG_SERIALIZATION` is `true` writes JSON; of the MessagePack
library it uses the sentinel alone. -/
def debugRuntime : Serializer.Runtime FiniteNumber Empty where
  msgpackr := {
    pack := fun v => if v.isSentinel then some Serializer.packedSentinel else none
    unpack := fun bytes => if bytes = Serializer.packedSentinel then some .sentinel else none
    pack_sentinel := if_pos (Serializer.Value.isSentinel_iff.mpr rfl) }
  numbers := numberText
  otherText := fun o => o.elim

def debugEnvironment : Serializer.Environment where
  cacheDebugSerialization := some "true"
  tiers := []

/-- The serializer in that process, on the values that JSON denotes. -/
def debugWire : Wire O where
  serialize v := (toJson v).bind fun j =>
    (Serializer.serialize debugRuntime Serializer.noCodecs debugEnvironment (.json j) {}).toOption
  decodeCacheRecord bytes :=
    match Serializer.decodeCacheRecord debugRuntime Serializer.noCodecs
      Serializer.defaultDecodeLimits bytes with
    | .hit (.json j) => some (ofJson j)
    | _ => none

theorem roundTrip_debugWire {v : Value O} {members : List (JsString × Json FiniteNumber)}
    (hv : toJson v = some (.obj members))
    (hfits : Serializer.FitsText Serializer.defaultDecodeLimits numberText (.obj members))
    (hbytes : 4 + (utf8 (stringify numberText (.obj members))).length ≤
      Serializer.maxPortableDecodedBytes) : debugWire.RoundTrip v := by
  have hwrite : Serializer.serialize debugRuntime Serializer.noCodecs debugEnvironment
      (.json (.obj members)) {} = .ok (Serializer.withWireTag Serializer.hc1JsonTag
        (utf8 (stringify numberText (.obj members)))) := rfl
  have hread : Serializer.parseChecked debugRuntime Serializer.defaultDecodeLimits
      (utf8 (stringify numberText (.obj members))) = some (.json (.obj members)) :=
    Serializer.parseChecked_stringify hfits
  show ((toJson v).bind _).bind debugWire.decodeCacheRecord = some v
  rw [hv, Option.bind_some, hwrite]
  show debugWire.decodeCacheRecord _ = some v
  rw [debugWire]
  dsimp only
  rw [Serializer.decodeCacheRecord, Serializer.decodeRecord_json hbytes, hread]
  show some (ofJson (.obj members)) = some v
  rw [ofJson_toJson hv]

/-- No random bits. -/
def sampleStamp : Stamp := ⟨fun _ => 0, 0, by norm_num⟩

def samplePublisher : Publisher := ⟨str "a", none, none⟩

/-- The members of the event that tells of the deletion of 0. -/
def sampleMembers : List (JsString × Json FiniteNumber) := [
  (str "id", .str (str "00000000-0000-4000-8000-000000000000")),
  (str "type", .str (str "del")),
  (str "keys", .arr [.str (str "0")]),
  (str "source", .str (str "a")),
  (str "ts", .num ⟨zero, rfl⟩),
  (str "generation", .num ⟨zero, rfl⟩),
  (str "keyTypes", .arr [.str (str "number")])]

/-- A cache that has just been constructed. -/
def sampleRun : HybridCache.Run Unit := ⟨{ codec := ⟨fun _ _ => some [], fun _ => none⟩ },
  ⟨0, 0, 0, fun _ => 0, .normal⟩, none, [], []⟩

theorem event_zero : samplePublisher.publish ((Publication.delete (.num zero) :
    Publication Empty).event samplePublisher (sampleRun.at 0) sampleStamp) =
      ofJson (.obj sampleMembers) := by
  have hzero : Number.ofRat 0 = zero := Number.ofRat_of_isDouble isDouble_zero
  have huuid : randomUUID (fun _ => 0) = str "00000000-0000-4000-8000-000000000000" := by decide
  have hevent : samplePublisher.publish ((Publication.delete (.num zero) :
      Publication Empty).event samplePublisher (sampleRun.at 0) sampleStamp) = .obj [
        (str "id", .str (randomUUID fun _ => 0)),
        (str "type", .str (str "del")),
        (str "keys", .arr [.str zero.toText]),
        (str "source", .str (str "a")),
        (str "ts", .num (Number.ofRat ((0 : ℤ) : ℚ))),
        (str "generation", .num (Number.ofRat ((0 : ℕ) : ℚ))),
        (str "keyTypes", .arr [.str (str "number")])] := rfl
  rw [hevent, huuid, Int.cast_zero, Nat.cast_zero, hzero]
  rfl

/-- The deletion of the number 0, in the debug mode. -/
theorem published_survives_zero :
    debugWire.received (ofJson (.obj sampleMembers) : Value Empty) =
      some (.ok (some (ofJson (.obj sampleMembers)))) ∧
    resolvedKeys (ofJson (.obj sampleMembers) : Value Empty) = [.num zero] := by
  have hfits : Serializer.FitsText Serializer.defaultDecodeLimits numberText (.obj sampleMembers) := by
    refine ⟨?_, by decide +kernel, by decide, by decide, by decide⟩
    simp only [sampleMembers, Json.Proper, ProperMembers, ProperItems, and_true]
    decide
  have hjson : toJson (ofJson (.obj sampleMembers) : Value Empty) = some (.obj sampleMembers) := rfl
  have hwire := roundTrip_debugWire hjson hfits (by decide +kernel)
  rw [← event_zero] at hwire ⊢
  obtain ⟨h, -⟩ := published_survives sampleRun 0 samplePublisher sampleStamp debugWire
    (.delete (.num zero)) hwire
  obtain ⟨hreceived, hkeys⟩ := h (by decide) rfl
  exact ⟨hreceived, hkeys _ rfl⟩

end EventCodec
