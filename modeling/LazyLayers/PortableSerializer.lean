/-
The Worker serializer.

It writes and reads the records with the tags HC1M, HC1G and HC1J, with the streams of
the web platform in place of the native compressors.  A reader throws where it refuses
a record; `decodePortableCacheRecord` turns this into a miss.

* `transform_eq` — the loop over a stream answers what the stream carries, if the
  stream closes within the limit;
* `portable_msgpack`, `portable_json`, `portable_gzip` — what is read from a record
  with each tag;
* `written_of_serializePortable` — the records that a value can be written as;
* `decodePortable_written` — what either runtime writes with these tags is read back.
-/
import LazyLayers.Serializer

open Js DecodeValidation

namespace Serializer

variable {N O : Type}

/-! ### Streams -/

/-- What a transforming stream hands out: chunks, and then its end or an error. -/
structure Stream where
  chunks : List Bytes
  closes : Bool

/-- `CompressionStream('gzip')` and `DecompressionStream('gzip')` over an input. -/
structure WebStreams where
  compressionStream : Bytes → Stream
  decompressionStream : Bytes → Stream

/-- Streams that fail. -/
def noStreams : WebStreams where
  compressionStream _ := ⟨[], false⟩
  decompressionStream _ := ⟨[], false⟩

/-- The loop of `transform`, with the chunks read so far and their length. -/
def transformFrom (maxBytes : ℕ) (closes : Bool) : List Bytes → List Bytes → ℕ → Option Bytes
  | [], read, _ => if closes then some read.flatten else none
  | value :: chunks, read, length =>
    if maxBytes < length + value.length then none
    else transformFrom maxBytes closes chunks (read ++ [value]) (length + value.length)

/-- `transform(input, codec, maxBytes)`, `none` where it throws. -/
def transform (stream : Stream) (maxBytes : ℕ) : Option Bytes :=
  transformFrom maxBytes stream.closes stream.chunks [] 0

theorem transformFrom_eq (maxBytes : ℕ) (closes : Bool) : ∀ (chunks read : List Bytes),
    read.flatten.length ≤ maxBytes →
    transformFrom maxBytes closes chunks read read.flatten.length =
      if closes ∧ (read ++ chunks).flatten.length ≤ maxBytes then some (read ++ chunks).flatten
      else none := by
  intro chunks
  induction chunks with
  | nil =>
    intro read hread
    rw [transformFrom, List.append_nil]
    cases closes with
    | false => rfl
    | true => exact (if_pos ⟨rfl, hread⟩).symm
  | cons value chunks ih =>
    intro read hread
    have hlen : (read ++ [value]).flatten.length = read.flatten.length + value.length := by
      rw [List.flatten_append, List.length_append, List.flatten_singleton]
    have happend : read ++ value :: chunks = read ++ [value] ++ chunks := by
      rw [List.append_assoc, List.singleton_append]
    rw [transformFrom, happend]
    split_ifs with hlong hall hall
    · -- the rest of the stream cannot make it shorter
      have hle : (read ++ [value]).flatten.length ≤ (read ++ [value] ++ chunks).flatten.length := by
        rw [@List.flatten_append _ (read ++ [value]) chunks, List.length_append]
        exact Nat.le_add_right _ _
      omega
    · rfl
    · rw [← hlen, ih _ (by omega), if_pos hall]
    · rw [← hlen, ih _ (by omega), if_neg hall]

theorem transform_eq (stream : Stream) (maxBytes : ℕ) : transform stream maxBytes =
    if stream.closes ∧ stream.chunks.flatten.length ≤ maxBytes then some stream.chunks.flatten
    else none :=
  transformFrom_eq maxBytes stream.closes stream.chunks [] (Nat.zero_le _)

/-! ### The writer -/

inductive CloudflareKVCompression
  | auto
  | none
  deriving DecidableEq, Repr

/-- Why a value is not written: it cannot be packed, or the stream fails or is too
long. -/
inductive PortableWriteError (N O : Type)
  | unserializable (value : Value N O)
  | transform

section Writer

variable (rt : Runtime N O) (web : WebStreams)

/-- A packed value, compressed if gzip earns it. -/
def portableRecord (compression : CloudflareKVCompression) (packed : Bytes) :
    Except (PortableWriteError N O) Bytes :=
  if compression = .auto ∧ portableGzipMinBytes ≤ packed.length then
    match transform (web.compressionStream packed) maxPortableDecodedBytes with
    | none => .error .transform
    | some gzipped =>
      if shouldUsePortableGzip packed.length gzipped.length then
        .ok (withWireTag hc1GzipTag gzipped)
      else .ok (withWireTag hc1MsgpackTag packed)
  else .ok (withWireTag hc1MsgpackTag packed)

/-- `serializePortable(value, compression)`; `undefined` is written as null. -/
def serializePortable (value : Value N O) (compression : CloudflareKVCompression) :
    Except (PortableWriteError N O) Bytes :=
  if value.isSentinel then
    .ok (withWireTag hc1JsonTag (utf8 (stringify rt.numbers (.str cacheNullSentinel))))
  else
    let compression := if value.isUndefined then .none else compression
    match rt.msgpackr.pack (if value.isNullish then .sentinel else value) with
    | none => .error (.unserializable value)
    | some packed => portableRecord web compression packed

end Writer

/-! ### The reader -/

/-- Why a record is not read: the errors that `deserializePortable` throws, or one of a
library. -/
inductive PortableReadError
  | encoded
  | json
  | packed
  | untagged
  | transform (maxBytes : ℕ)
  | library
  deriving DecidableEq, Repr

/-- The texts of the errors; a library has its own. -/
def PortableReadError.message : PortableReadError → Option String
  | .encoded => some "Cloudflare KV encoded value exceeds configured limit"
  | .json => some "Cloudflare KV JSON value exceeds decode limits or is malformed"
  | .packed => some "Cloudflare KV MessagePack value exceeds decode limits or is malformed"
  | .untagged => some "Cloudflare Workers KV requires an HC1M, HC1G, or HC1J value"
  | .transform maxBytes =>
    some (if maxBytes = maxPortableDecodedBytes then "Cloudflare KV decoded value exceeds 25 MiB"
      else "Cloudflare KV transformed value exceeds configured limit")
  | .library => none

/-- The byte order mark in UTF-8. -/
def byteOrderMark : Bytes := [0xEF, 0xBB, 0xBF]

def stripByteOrderMark (bytes : Bytes) : Bytes :=
  if byteOrderMark.isPrefixOf bytes then bytes.drop 3 else bytes

/-- `new TextDecoder('utf-8', { fatal }).decode(bytes)`, which drops a byte order mark. -/
def decodeText (fatal : Bool) (bytes : Bytes) : Option JsString :=
  if fatal && !isUtf8 bytes then none else some (decodeUtf8 (stripByteOrderMark bytes))

section Reader

variable (rt : Runtime N O) (web : WebStreams) (legacyUnpack : Bytes → Option (Value N O))

/-- The end of the branches of packed values. -/
def portableUnpack (bytes : Bytes) (limits : Option ResolvedDecodeLimits) :
    Except PortableReadError (Value N O) :=
  if limits.any fun limits => isSafeMessagePack limits bytes isSafeUtf8 ≠ some true then
    .error .packed
  else if sameBytes bytes packedSentinel then .ok .null
  else
    match if limits.isSome then rt.msgpackr.unpack bytes else legacyUnpack bytes with
    | none => .error .library
    | some value => .ok value

/-- `deserializePortable(payload, options)`, with the limits resolved if there are any. -/
def deserializePortable (payload : Bytes) (limits : Option ResolvedDecodeLimits) :
    Except PortableReadError (Value N O) :=
  let bytes := payload.drop hc1TagBytes
  if limits.any fun limits => limits.maxEncodedBytes < payload.length then .error .encoded
  else if hasWireTag payload hc1JsonTag then
    if limits.any fun limits => !isSafeJson limits bytes then .error .json
    else
      match (decodeText limits.isSome bytes).bind (parse rt.numbers) with
      | none => .error .library
      | some value => .ok (.json value)
  else if hasWireTag payload hc1MsgpackTag then portableUnpack rt legacyUnpack bytes limits
  else if hasWireTag payload hc1GzipTag then
    let maxBytes := (limits.map ResolvedDecodeLimits.maxDecodedBytes).getD maxPortableDecodedBytes
    match transform (web.decompressionStream bytes) maxBytes with
    | none => .error (.transform maxBytes)
    | some bytes => portableUnpack rt legacyUnpack bytes limits
  -- a tag that this runtime cannot run
  else if (wireTag payload).isSome then .ok .null
  else .error .untagged

/-- `decodePortableCacheRecord(payload, options)`, with the limits resolved. -/
def decodePortableCacheRecord (limits : ResolvedDecodeLimits) (payload : Bytes) :
    DecodedCacheRecord N O :=
  if !hasWireTag payload hc1MsgpackTag && !hasWireTag payload hc1JsonTag &&
      !hasWireTag payload hc1GzipTag then .miss
  else
    match deserializePortable rt web legacyUnpack payload (some limits) with
    | .ok value => .hit value
    | .error _ => .miss

end Reader

/-! ### Reading each kind of record -/

variable {rt : Runtime N O} {web : WebStreams} {legacyUnpack : Bytes → Option (Value N O)}
  {limits : ResolvedDecodeLimits}

/-- The branches of packed values, within limits. -/
theorem portableUnpack_eq (bytes : Bytes) (value : Value N O) :
    portableUnpack rt legacyUnpack bytes (some limits) = .ok value ↔
      (if isSafeMessagePack limits bytes isSafeUtf8 = some true then
        if bytes = packedSentinel then some .null else rt.msgpackr.unpack bytes
      else none) = some value := by
  rw [portableUnpack]
  by_cases hsafe : isSafeMessagePack limits bytes isSafeUtf8 = some true
  · rw [if_neg (by simp [hsafe]), if_pos hsafe]
    by_cases hsentinel : bytes = packedSentinel
    · rw [if_pos ((sameBytes_iff _ _).mpr hsentinel), if_pos hsentinel]
      exact ⟨fun h => by rw [Except.ok.inj h], fun h => by rw [Option.some.inj h]⟩
    · rw [if_neg fun h => hsentinel ((sameBytes_iff _ _).mp h), if_neg hsentinel]
      show (match rt.msgpackr.unpack bytes with
        | none => .error PortableReadError.library
        | some value => .ok value) = Except.ok value ↔ _
      cases rt.msgpackr.unpack bytes with
      | none => exact ⟨nofun, nofun⟩
      | some v => exact ⟨fun h => by rw [Except.ok.inj h], fun h => by rw [Option.some.inj h]⟩
  · rw [if_pos (by simp [hsafe]), if_neg hsafe]
    exact ⟨nofun, nofun⟩

theorem decodePortable_eq_hit {payload : Bytes} {value : Value N O}
    (htag : hasWireTag payload hc1MsgpackTag = true ∨ hasWireTag payload hc1JsonTag = true ∨
      hasWireTag payload hc1GzipTag = true) :
    decodePortableCacheRecord rt web legacyUnpack limits payload = .hit value ↔
      deserializePortable rt web legacyUnpack payload (some limits) = .ok value := by
  have hpass : (!hasWireTag payload hc1MsgpackTag && !hasWireTag payload hc1JsonTag &&
      !hasWireTag payload hc1GzipTag) = false := by
    rcases htag with h | h | h <;> simp [h]
  rw [decodePortableCacheRecord, hpass, if_neg Bool.false_ne_true]
  cases deserializePortable rt web legacyUnpack payload (some limits) with
  | error e => exact ⟨nofun, nofun⟩
  | ok v =>
    exact ⟨fun h => by rw [DecodedCacheRecord.hit.inj h], fun h => by rw [Except.ok.inj h]⟩

theorem portable_msgpack {body : Bytes} (hlen : 4 + body.length ≤ limits.maxEncodedBytes)
    (value : Value N O) :
    decodePortableCacheRecord rt web legacyUnpack limits (withWireTag hc1MsgpackTag body) =
        .hit value ↔
      (if isSafeMessagePack limits body isSafeUtf8 = some true then
        if body = packedSentinel then some .null else rt.msgpackr.unpack body
      else none) = some value := by
  have htag : IsTag hc1MsgpackTag := by decide
  have hhas := hasWireTag_withWireTag htag body
  have hjson := hasWireTag_of_ne htag (by decide : IsTag hc1JsonTag) (by decide) body
  rw [decodePortable_eq_hit (.inl hhas), deserializePortable, Option.any_some,
    length_withWireTag htag, if_neg (by simpa using hlen), hjson, if_neg Bool.false_ne_true,
    if_pos hhas, hc1TagBytes, drop_withWireTag htag]
  exact portableUnpack_eq body value

theorem portable_json {body : Bytes} (hlen : 4 + body.length ≤ limits.maxEncodedBytes)
    (value : Value N O) :
    decodePortableCacheRecord rt web legacyUnpack limits (withWireTag hc1JsonTag body) =
        .hit value ↔
      (if isSafeJson limits body && isUtf8 body then
        (parse rt.numbers (decodeUtf8 (stripByteOrderMark body))).map .json
      else none) = some value := by
  have htag : IsTag hc1JsonTag := by decide
  have hhas := hasWireTag_withWireTag htag body
  rw [decodePortable_eq_hit (.inr (.inl hhas)), deserializePortable, Option.any_some,
    length_withWireTag htag, if_neg (by simpa using hlen), if_pos hhas, hc1TagBytes,
    drop_withWireTag htag, Option.any_some]
  cases isSafeJson limits body with
  | false => exact iff_of_false (fun h => by cases h) (fun h => by cases h)
  | true =>
    rw [Bool.not_true, if_neg Bool.false_ne_true, Bool.true_and, Option.isSome_some, decodeText,
      Bool.true_and]
    cases isUtf8 body with
    | false => exact iff_of_false (fun h => by cases h) (fun h => by cases h)
    | true =>
      rw [Bool.not_true, if_neg Bool.false_ne_true, if_pos rfl, Option.bind_some]
      cases parse rt.numbers (decodeUtf8 (stripByteOrderMark body)) with
      | none => exact iff_of_false (fun h => by cases h) (fun h => by cases h)
      | some v => exact ⟨fun h => by rw [← Except.ok.inj h]; rfl, fun h => by
          rw [← Option.some.inj h]⟩

theorem portable_gzip {body : Bytes} (hlen : 4 + body.length ≤ limits.maxEncodedBytes)
    (value : Value N O) :
    decodePortableCacheRecord rt web legacyUnpack limits (withWireTag hc1GzipTag body) =
        .hit value ↔
      ∃ expanded, transform (web.decompressionStream body) limits.maxDecodedBytes =
          some expanded ∧
        (if isSafeMessagePack limits expanded isSafeUtf8 = some true then
          if expanded = packedSentinel then some .null else rt.msgpackr.unpack expanded
        else none) = some value := by
  have htag : IsTag hc1GzipTag := by decide
  have hhas := hasWireTag_withWireTag htag body
  have hjson := hasWireTag_of_ne htag (by decide : IsTag hc1JsonTag) (by decide) body
  have hmsgpack := hasWireTag_of_ne htag (by decide : IsTag hc1MsgpackTag) (by decide) body
  rw [decodePortable_eq_hit (.inr (.inr hhas)), deserializePortable, Option.any_some,
    length_withWireTag htag, if_neg (by simpa using hlen), hjson, if_neg Bool.false_ne_true,
    hmsgpack, if_neg Bool.false_ne_true, if_pos hhas, hc1TagBytes, drop_withWireTag htag]
  show (match transform (web.decompressionStream body) limits.maxDecodedBytes with
    | none => Except.error (PortableReadError.transform limits.maxDecodedBytes)
    | some bytes => portableUnpack rt legacyUnpack bytes (some limits)) = .ok value ↔ _
  cases transform (web.decompressionStream body) limits.maxDecodedBytes with
  | none =>
    refine iff_of_false (fun h => by cases h) ?_
    rintro ⟨_, hnone, -⟩
    cases hnone
  | some expanded =>
    rw [portableUnpack_eq]
    constructor
    · intro h
      exact ⟨expanded, rfl, h⟩
    · rintro ⟨_, hexpanded, h⟩
      rw [Option.some.inj hexpanded]
      exact h

/-! ### What is written is read back -/

theorem accepts_packedSentinel (h : packedSentinel.length ≤ limits.maxDecodedBytes) :
    Accepts limits packedSentinel := by
  have htag : Tag (0xB4 : UInt8).toNat (.string (.given 20)) := @Tag.fixstr 20 (by decide)
  have hutf : IsUtf8 (utf8 cacheNullSentinel) := (isUtf8_iff _).mp (isUtf8_utf8 _)
  have hleaf : Leaf (0xB4 :: ([] ++ utf8 cacheNullSentinel)) :=
    .string htag (.given 20) hutf
  obtain ⟨-, -, -, -, hvalues⟩ := limits.positive
  exact ⟨h, 0, 0, 1, Values.leaf hleaf .nil, Nat.zero_le _, Nat.zero_le _, hvalues⟩

theorem isSafe_packedSentinel (h : packedSentinel.length ≤ limits.maxDecodedBytes) :
    isSafeMessagePack limits packedSentinel isSafeUtf8 = some true :=
  isSafeMessagePack_of_accepts (accepts_packedSentinel h)

/-- A text of JSON has no byte order mark. -/
theorem stripByteOrderMark_stringify (T : NumberText N) {v : Json N} (hv : v.Proper) :
    stripByteOrderMark (utf8 (stringify T v)) = utf8 (stringify T v) := by
  refine if_neg fun hbegins => ?_
  obtain ⟨rest, hrest⟩ := List.isPrefixOf_iff_prefix.mp hbegins
  have hparse : parse T (decodeUtf8 (utf8 (stringify T v))) = some v := by
    rw [decodeUtf8_utf8 (wellFormed_stringify T v)]
    exact parse_stringify T hv
  have hbom : decodeUtf8 (utf8 (stringify T v)) = 0xFEFF :: decodeUtf8 rest := by
    rw [← hrest]
    exact decodeUtf8_bom rest
  rw [hbom, parse_bom] at hparse
  cases hparse

/-- The tags that both runtimes know. -/
def IsPortable (record : Bytes) : Prop :=
  hasWireTag record hc1MsgpackTag = true ∨ hasWireTag record hc1JsonTag = true ∨
    hasWireTag record hc1GzipTag = true

/-- What is written with these tags is read back, if what a writer has compressed with
gzip is expanded. -/
theorem decodePortable_written (hm : rt.msgpackr.Lawful)
    {compresses : JsString → Bytes → Bytes → Prop}
    (hexpand : ∀ {tag packed z}, compresses tag packed z → IsPortable (withWireTag tag z) →
      tag = hc1GzipTag ∧ ∀ {max}, packed.length ≤ max →
        transform (web.decompressionStream z) max = some packed)
    {asJson : Bool} {value : Value N O} {r : Bytes} (h : Written rt compresses asJson value r)
    (hportable : IsPortable r) (hfits : Fits rt limits asJson value)
    (hlen : r.length ≤ limits.maxEncodedBytes) :
    decodePortableCacheRecord rt web legacyUnpack limits r = .hit value.cached := by
  -- a packed value that is no sentinel
  have hread : ∀ {packed}, rt.msgpackr.pack value = some packed → value.isSentinel = false →
      FitsPacked limits rt.msgpackr value →
      (if isSafeMessagePack limits packed isSafeUtf8 = some true then
        if packed = packedSentinel then some .null else rt.msgpackr.unpack packed
      else none) = some value := by
    intro packed hpack hsentinel hfits
    rw [if_pos (hfits packed hpack), if_neg (packed_ne_sentinel hm hpack hsentinel), hm hpack]
  rw [Fits] at hfits
  cases h with
  | null hnull =>
    rw [if_pos hnull] at hfits
    rw [length_withWireTag (by decide)] at hlen
    rw [portable_msgpack hlen, if_pos (isSafe_packedSentinel hfits), if_pos rfl,
      Value.cached_eq_null hnull]
  | text hnull hformat htext =>
    rw [if_neg (by rw [hnull]; simp), if_pos hformat] at hfits
    obtain ⟨v, rfl, hfits⟩ := hfits
    rw [length_withWireTag (by decide)] at hlen
    rw [portable_json hlen, ← Option.some.inj htext, isSafeJson_stringify rt.numbers hfits.bytes
      hfits.depth hfits.widest hfits.values, isUtf8_utf8,
      stripByteOrderMark_stringify rt.numbers hfits.proper,
      decodeUtf8_utf8 (wellFormed_stringify rt.numbers v), parse_stringify rt.numbers hfits.proper,
      Value.cached_eq_self hnull]
    rfl
  | plain hnull hsentinel hformat hpack =>
    rw [if_neg (by rw [hnull]; simp), if_neg (by rw [hsentinel, hformat]; simp)] at hfits
    rw [length_withWireTag (by decide)] at hlen
    rw [portable_msgpack hlen, hread hpack hsentinel hfits, Value.cached_eq_self hnull]
  | @compressed packed z tag hnull hsentinel hformat hpack hz _ =>
    rw [if_neg (by rw [hnull]; simp), if_neg (by rw [hsentinel, hformat]; simp)] at hfits
    obtain ⟨rfl, htransform⟩ := hexpand hz hportable
    rw [length_withWireTag (by decide)] at hlen
    rw [portable_gzip hlen, Value.cached_eq_self hnull]
    exact ⟨packed, htransform (length_le_of_isSafe (hfits _ hpack)), hread hpack hsentinel hfits⟩

/-- The stream of the web platform. -/
def streams (web : WebStreams) (tag : JsString) (packed z : Bytes) : Prop :=
  tag = hc1GzipTag ∧ (web.compressionStream packed).closes = true ∧
    z = (web.compressionStream packed).chunks.flatten

theorem written_of_serializePortable {value : Value N O} {compression : CloudflareKVCompression}
    {r : Bytes} (h : serializePortable rt web value compression = .ok r) :
    Written rt (streams web) false value r := by
  rw [serializePortable] at h
  by_cases hsentinel : value.isSentinel = true
  · rw [if_pos hsentinel] at h
    obtain rfl := Value.isSentinel_iff.mp hsentinel
    rw [← Except.ok.inj h]
    exact .text rfl (.inl hsentinel) rfl
  rw [if_neg hsentinel] at h
  rw [Bool.not_eq_true] at hsentinel
  by_cases hnull : value.isNullish = true
  · -- the packed sentinel is too short for gzip
    rw [if_pos hnull, rt.msgpackr.pack_sentinel] at h
    have hshort : ∀ compression, portableRecord web compression packedSentinel =
        (.ok (withWireTag hc1MsgpackTag packedSentinel) :
          Except (PortableWriteError N O) Bytes) := by
      intro compression
      refine if_neg ?_
      rintro ⟨-, hlong⟩
      rw [length_packedSentinel, portableGzipMinBytes] at hlong
      omega
    dsimp only at h
    rw [hshort] at h
    rw [← Except.ok.inj h]
    exact .null hnull
  rw [if_neg hnull] at h
  rw [Bool.not_eq_true] at hnull
  cases hpack : rt.msgpackr.pack value with
  | none =>
    rw [hpack] at h
    cases h
  | some packed =>
  rw [hpack] at h
  obtain ⟨compression, h⟩ : ∃ compression, portableRecord web compression packed =
      (.ok r : Except (PortableWriteError N O) Bytes) := ⟨_, h⟩
  rw [portableRecord] at h
  split_ifs at h with hauto
  · cases hz : transform (web.compressionStream packed) maxPortableDecodedBytes with
    | none =>
      rw [hz] at h
      cases h
    | some z =>
      rw [hz] at h
      dsimp only at h
      rw [transform_eq] at hz
      split_ifs at h hz with hgzip hcloses
      · rw [← Except.ok.inj h]
        exact .compressed hnull hsentinel rfl hpack ⟨rfl, hcloses.1, (Option.some.inj hz).symm⟩
          ((shouldUsePortableGzip_iff _ _).mp hgzip).2
      · rw [← Except.ok.inj h]
        exact .plain hnull hsentinel rfl hpack
  · rw [← Except.ok.inj h]
    exact .plain hnull hsentinel rfl hpack

end Serializer
