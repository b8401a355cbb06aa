/-
The wire policy that the Node serializer and the Worker serializer share.

A record is a tag of four bytes and a body.  The tags, the sentinel that stands for a
cached null, the limits of a reader and the savings that compression has to earn are
fixed here, once for both runtimes.

* `Value`, `MessagePack` — the values a record holds and the library that packs them;
* `hasWireTag_iff` — the comparison of a tag looks at all bits of the four bytes;
* `resolveDecodeLimits_error` — a limit that is no positive safe integer is named;
* `shouldUsePortableGzip_iff` — gzip is kept if it saves 15 percent of a packed value
  of at least 1024 bytes.
-/
import LazyLayers.JsonScan
import LazyLayers.MessagePackScan

open Js DecodeValidation

namespace Serializer

/-! ### Values -/

/-- The values of the runtime: `undefined`, those that JSON denotes, and others, such as
dates, binary views and whatever contains them. -/
inductive Value (N O : Type)
  | undefined
  | json (v : Json N)
  | other (o : O)

variable {N O : Type}

/-- `CACHE_NULL_SENTINEL`, packed to mean a cached null. -/
def cacheNullSentinel : JsString := str "__hybridcache_null__"

def Value.null : Value N O := .json .null

def Value.sentinel : Value N O := .json (.str cacheNullSentinel)

/-- `value === undefined` -/
def Value.isUndefined : Value N O → Bool
  | .undefined => true
  | _ => false

/-- `value === null || value === undefined` -/
def Value.isNullish : Value N O → Bool
  | .undefined => true
  | .json .null => true
  | _ => false

/-- `value === CACHE_NULL_SENTINEL` -/
def Value.isSentinel : Value N O → Bool
  | .json (.str s) => s = cacheNullSentinel
  | _ => false

/-- What a reader of a cached value sees: `undefined` is cached as null. -/
def Value.cached : Value N O → Value N O
  | .undefined => .null
  | v => v

theorem Value.isSentinel_iff {v : Value N O} : v.isSentinel = true ↔ v = .sentinel := by
  constructor
  · intro h
    match v with
    | .json (.str s) =>
      have hs : s = cacheNullSentinel := of_decide_eq_true h
      rw [hs]
      rfl
  · rintro rfl
    exact decide_eq_true (rfl : cacheNullSentinel = cacheNullSentinel)

theorem Value.cached_eq_null {v : Value N O} (h : v.isNullish = true) : v.cached = .null := by
  match v with
  | .undefined => rfl
  | .json .null => rfl

theorem Value.cached_eq_self {v : Value N O} (h : v.isNullish = false) : v.cached = v := by
  match v with
  | .json _ => rfl
  | .other _ => rfl

/-- The packed sentinel: a string of twenty bytes. -/
def packedSentinel : Bytes := 0xB4 :: utf8 cacheNullSentinel

theorem length_packedSentinel : packedSentinel.length = 21 := by decide

/-- The functions of the MessagePack library, `none` where they throw.  A short string
is packed as its length and its bytes. -/
structure MessagePack (N O : Type) where
  pack : Value N O → Option Bytes
  /-- `strictUnpackr.unpack` -/
  unpack : Bytes → Option (Value N O)
  pack_sentinel : pack .sentinel = some packedSentinel

theorem ite_sentinel : (if cacheNullSentinel = cacheNullSentinel then some packedSentinel
    else none) = some packedSentinel := if_pos rfl

/-- `DecodedCacheRecord`: a hit with a value, or a miss. -/
inductive DecodedCacheRecord (N O : Type)
  | hit (value : Value N O)
  | miss

/-- `try { return { hit: true, value: … } } catch { return { hit: false } }` -/
def DecodedCacheRecord.ofOption : Option (Value N O) → DecodedCacheRecord N O
  | some value => .hit value
  | none => .miss

theorem DecodedCacheRecord.ofOption_eq_hit {x : Option (Value N O)} {v : Value N O} :
    ofOption x = .hit v ↔ x = some v := by
  cases x with
  | none => exact ⟨nofun, nofun⟩
  | some w =>
    constructor
    · intro h
      rw [DecodedCacheRecord.hit.inj h]
    · intro h
      rw [Option.some.inj h]
      rfl

/-! ### Tags -/

def hc1MsgpackTag : JsString := str "HC1M"

def hc1GzipTag : JsString := str "HC1G"

def hc1JsonTag : JsString := str "HC1J"

def hc1ZstdTag : JsString := str "HC1Z"

def hc1Lz4Tag : JsString := str "HC1L"

def hc1SnappyTag : JsString := str "HC1S"

/-- The first three bytes of every tag. -/
def hc1Family : JsString := str "HC1"

def hc1TagBytes : ℕ := 4

def tagBytes (tag : JsString) : Bytes := utf8 tag

/-- `bytes[index] === tag.charCodeAt(index)` for the four bytes of a tag. -/
def hasWireTag (bytes : Bytes) (tag : JsString) : Bool :=
  if bytes.length < hc1TagBytes ∨ tag.length ≠ hc1TagBytes then false
  else (List.range hc1TagBytes).all fun index =>
    bytes[index]?.map UInt8.toNat = tag[index]?.map UInt16.toNat

/-- The tag of a record of the family, known or not. -/
def wireTag (bytes : Bytes) : Option JsString :=
  if bytes.length < hc1TagBytes then none
  else
    let tag := (bytes.take hc1TagBytes).map fun b => UInt16.ofNat b.toNat
    if hc1Family <+: tag then some tag else none

def withWireTag (tag : JsString) (body : Bytes) : Bytes := tagBytes tag ++ body

/-- `sameBytes(left, right)`, as the loop compares them. -/
def sameBytes (left right : Bytes) : Bool :=
  if left.length ≠ right.length then false
  else (List.range left.length).all fun index => left[index]? = right[index]?

theorem sameBytes_iff (left right : Bytes) : sameBytes left right = true ↔ left = right := by
  rw [sameBytes]
  split_ifs with hlen
  · refine iff_of_false (by simp) ?_
    rintro rfl
    exact hlen rfl
  · rw [not_not] at hlen
    rw [List.all_eq_true]
    constructor
    · intro h
      refine List.ext_getElem? fun i => ?_
      by_cases hi : i < left.length
      · exact of_decide_eq_true (h i (List.mem_range.mpr hi))
      · rw [List.getElem?_eq_none (by omega), List.getElem?_eq_none (by omega)]
    · rintro rfl i -
      exact decide_eq_true rfl

/-- A tag that can be written: four ASCII units. -/
def IsTag (tag : JsString) : Prop := tag.length = 4 ∧ ∀ u ∈ tag, u.toNat < 128

instance (tag : JsString) : Decidable (IsTag tag) := inferInstanceAs (Decidable (_ ∧ _))

theorem tagBytes_eq {tag : JsString} (h : IsTag tag) :
    tagBytes tag = tag.map fun u => UInt8.ofNat u.toNat := by
  have hascii := utf8_ascii_append h.2 []
  rw [List.append_nil] at hascii
  rw [tagBytes, hascii]
  exact List.append_nil _

theorem length_tagBytes {tag : JsString} (h : IsTag tag) : (tagBytes tag).length = 4 := by
  rw [tagBytes_eq h, List.length_map]
  exact h.1

/-- A record has a tag if it is the tag and a body. -/
theorem hasWireTag_iff {tag : JsString} (h : IsTag tag) (bytes : Bytes) :
    hasWireTag bytes tag = true ↔ ∃ body, bytes = withWireTag tag body := by
  obtain ⟨hlen, hascii⟩ := h
  match tag, hlen with
  | [p, q, r, s], _ =>
    have hunit : ∀ u ∈ [p, q, r, s], (UInt8.ofNat u.toNat).toNat = u.toNat := by
      intro u hu
      have hlt := hascii u hu
      rw [UInt8.toNat_ofNat']
      omega
    have hbyte : ∀ (b : UInt8) (u : UInt16), u ∈ [p, q, r, s] →
        (b.toNat = u.toNat ↔ b = UInt8.ofNat u.toNat) := by
      intro b u hu
      rw [← UInt8.toNat_inj, hunit u hu]
    have htag : tagBytes [p, q, r, s] = [UInt8.ofNat p.toNat, UInt8.ofNat q.toNat,
        UInt8.ofNat r.toNat, UInt8.ofNat s.toNat] := tagBytes_eq ⟨rfl, hascii⟩
    simp only [withWireTag, htag]
    match bytes with
    | [] => simp [hasWireTag, hc1TagBytes]
    | [_] => simp [hasWireTag, hc1TagBytes]
    | [_, _] => simp [hasWireTag, hc1TagBytes]
    | [_, _, _] => simp [hasWireTag, hc1TagBytes]
    | a :: b :: c :: d :: body =>
      have hrange : List.range 4 = [0, 1, 2, 3] := rfl
      have hno : ¬ body.length + 4 < 4 := by omega
      simp [hasWireTag, hc1TagBytes, hrange, hno, hbyte a p (by simp), hbyte b q (by simp),
        hbyte c r (by simp), hbyte d s (by simp)]

theorem hasWireTag_withWireTag {tag : JsString} (h : IsTag tag) (body : Bytes) :
    hasWireTag (withWireTag tag body) tag = true :=
  (hasWireTag_iff h _).mpr ⟨body, rfl⟩

theorem drop_withWireTag {tag : JsString} (h : IsTag tag) (body : Bytes) :
    (withWireTag tag body).drop 4 = body := by
  rw [withWireTag, ← length_tagBytes h]
  exact List.drop_left

theorem take_withWireTag {tag : JsString} (h : IsTag tag) (body : Bytes) :
    (withWireTag tag body).take 4 = tagBytes tag := by
  rw [withWireTag, ← length_tagBytes h]
  exact List.take_left

theorem length_withWireTag {tag : JsString} (h : IsTag tag) (body : Bytes) :
    (withWireTag tag body).length = 4 + body.length := by
  rw [withWireTag, List.length_append, length_tagBytes h]

/-- A record has one tag. -/
theorem tag_unique {s t : JsString} (hs : IsTag s) (ht : IsTag t) {b c : Bytes}
    (h : withWireTag s b = withWireTag t c) : s = t := by
  have hbytes : tagBytes s = tagBytes t := by
    rw [← take_withWireTag hs b, h, take_withWireTag ht c]
  exact utf8_inj (wellFormed_of_ascii hs.2) (wellFormed_of_ascii ht.2) hbytes

theorem hasWireTag_of_ne {s t : JsString} (hs : IsTag s) (ht : IsTag t) (hne : s ≠ t)
    (body : Bytes) : hasWireTag (withWireTag s body) t = false := by
  rw [Bool.eq_false_iff]
  intro h
  obtain ⟨c, hc⟩ := (hasWireTag_iff ht _).mp h
  exact hne (tag_unique hs ht hc)

/-! ### Limits -/


/-- The numbers of the runtime. -/
inductive Number
  | finite (q : ℚ)
  | infinity
  | negInfinity
  | nan
  deriving DecidableEq

structure DecodeLimits where
  maxEncodedBytes : Option Number := none
  maxDecodedBytes : Option Number := none
  maxDepth : Option Number := none
  maxCollectionLength : Option Number := none
  maxTotalValues : Option Number := none

/-- Matches the value limit of the key-value store. -/
def maxPortableDecodedBytes : ℕ := 25 * 1024 * 1024

def defaultDecodeMaxDepth : ℕ := 128

def defaultDecodeMaxCollectionLength : ℕ := 1000000

def defaultDecodeMaxTotalValues : ℕ := 1000000

/-- `Number.isSafeInteger(value) && value > 0`, and the integer that it is. -/
def Number.positiveSafeInteger : Number → Option ℕ+
  | .finite q => if h : q.den = 1 ∧ 0 < q.num ∧ q.num ≤ 9007199254740991 then
      some ⟨q.num.toNat, by omega⟩ else none
  | _ => none

/-- A limit, or the name of a limit that is none. -/
def resolveLimit (name : String) (option : Option Number) (default : ℕ) : Except String ℕ+ :=
  match ((option.getD (.finite default)).positiveSafeInteger) with
  | some n => .ok n
  | none => .error s!"{name} must be a positive safe integer"

/-- `resolveDecodeLimits(options)`, which checks the limits in their order. -/
def resolveDecodeLimits (options : DecodeLimits) : Except String ResolvedDecodeLimits := do
  let maxEncodedBytes ← resolveLimit "maxEncodedBytes" options.maxEncodedBytes
    maxPortableDecodedBytes
  let maxDecodedBytes ← resolveLimit "maxDecodedBytes" options.maxDecodedBytes
    maxPortableDecodedBytes
  let maxDepth ← resolveLimit "maxDepth" options.maxDepth defaultDecodeMaxDepth
  let maxCollectionLength ← resolveLimit "maxCollectionLength" options.maxCollectionLength
    defaultDecodeMaxCollectionLength
  let maxTotalValues ← resolveLimit "maxTotalValues" options.maxTotalValues
    defaultDecodeMaxTotalValues
  return ⟨maxEncodedBytes, maxDecodedBytes, maxDepth, maxCollectionLength, maxTotalValues,
    maxEncodedBytes.pos, maxDecodedBytes.pos, maxDepth.pos, maxCollectionLength.pos,
    maxTotalValues.pos⟩

/-- The limits of a reader that is given none. -/
def defaultDecodeLimits : ResolvedDecodeLimits where
  maxEncodedBytes := maxPortableDecodedBytes
  maxDecodedBytes := maxPortableDecodedBytes
  maxDepth := defaultDecodeMaxDepth
  maxCollectionLength := defaultDecodeMaxCollectionLength
  maxTotalValues := defaultDecodeMaxTotalValues
  positive := by decide

example : resolveDecodeLimits {} = .ok defaultDecodeLimits := rfl

theorem error_of_bind {ε α β : Type} {x : Except ε α} {f : α → Except ε β} {e : ε}
    (h : x >>= f = .error e) : x = .error e ∨ ∃ a, x = .ok a ∧ f a = .error e := by
  cases x with
  | error e' =>
    left
    rw [Except.error.inj h]
  | ok a => exact .inr ⟨a, rfl, h⟩

/-- The first limit that is no positive safe integer is named. -/
theorem resolveDecodeLimits_error {options : DecodeLimits} {message : String}
    (h : resolveDecodeLimits options = .error message) :
    ∃ name option default, resolveLimit name option default = .error message ∧
      (option.getD (.finite default)).positiveSafeInteger = none ∧
      message = s!"{name} must be a positive safe integer" := by
  have hlimit : ∀ {name option default}, resolveLimit name option default = .error message →
      ∃ name option default, resolveLimit name option default = .error message ∧
        (option.getD (.finite default)).positiveSafeInteger = none ∧
        message = s!"{name} must be a positive safe integer" := by
    intro name option default h
    refine ⟨name, option, default, h, ?_⟩
    rw [resolveLimit] at h
    split at h
    · cases h
    · next hnone => exact ⟨hnone, (Except.error.inj h).symm⟩
  rw [resolveDecodeLimits] at h
  -- the limits are checked one after the other
  obtain h | ⟨_, _, h⟩ := error_of_bind h
  · exact hlimit h
  obtain h | ⟨_, _, h⟩ := error_of_bind h
  · exact hlimit h
  obtain h | ⟨_, _, h⟩ := error_of_bind h
  · exact hlimit h
  obtain h | ⟨_, _, h⟩ := error_of_bind h
  · exact hlimit h
  obtain h | ⟨_, _, h⟩ := error_of_bind h
  · exact hlimit h
  · cases h

/-! ### Savings -/

/-- Compression has to save this part of a packed value. -/
def minCompressionSavings : ℚ := 15 / 100

/-- Gzip is not tried below. -/
def portableGzipMinBytes : ℕ := 1024

/-- `1 - gzippedBytes / packedBytes >= MIN_COMPRESSION_SAVINGS`, above the floor. -/
def shouldUsePortableGzip (packedBytes gzippedBytes : ℕ) : Bool :=
  if packedBytes < portableGzipMinBytes then false
  else 1 - (gzippedBytes : ℚ) / packedBytes ≥ minCompressionSavings

/-- At least 15 percent are saved. -/
def Saves (packedBytes compressedBytes : ℕ) : Prop := 20 * compressedBytes ≤ 17 * packedBytes

theorem saves_iff {packedBytes compressedBytes : ℕ} (h : 0 < packedBytes) :
    minCompressionSavings ≤ 1 - (compressedBytes : ℚ) / packedBytes ↔
      Saves packedBytes compressedBytes := by
  have hpos : (0 : ℚ) < packedBytes := by exact_mod_cast h
  have hcast : Saves packedBytes compressedBytes ↔
      (20 : ℚ) * compressedBytes ≤ 17 * packedBytes := by
    rw [Saves]
    exact_mod_cast Iff.rfl
  rw [hcast, minCompressionSavings, le_sub_comm, div_le_iff₀ hpos]
  constructor
  · intro h
    linarith
  · intro h
    linarith

theorem shouldUsePortableGzip_iff (packedBytes gzippedBytes : ℕ) :
    shouldUsePortableGzip packedBytes gzippedBytes = true ↔
      portableGzipMinBytes ≤ packedBytes ∧ Saves packedBytes gzippedBytes := by
  rw [shouldUsePortableGzip]
  split_ifs with hsmall
  · refine iff_of_false (by simp) ?_
    rintro ⟨hle, -⟩
    omega
  · have hpos : 0 < packedBytes := by
      rw [portableGzipMinBytes] at hsmall
      omega
    rw [decide_eq_true_iff, ge_iff_le, saves_iff hpos]
    exact ⟨fun h => ⟨not_lt.mp hsmall, h⟩, And.right⟩

end Serializer
