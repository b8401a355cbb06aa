/-
The Node serializer.

`serializeWithStats` writes a value as a tagged record: null as the packed sentinel, the
sentinel string itself and the debug format as JSON, everything else packed and, where
that saves enough, compressed.  `decodeCacheRecord` reads a record within limits; what
is corrupt, unknown or too large is a miss.

* `decodeRecord_codec`, `decodeRecord_msgpack`, `decodeRecord_json` — what is read from
  a record with each kind of tag;
* `unpackChecked_eq` — the check of UTF-8 by the runtime and the one of the Worker
  validator let the same payloads through;
* `Written`, `written_of_serialize` — the records that a value can be written as;
* `decodeRecord_written` — what is written is read back;
* `saves_of_written` — a compressed record has saved 15 percent.
-/
import LazyLayers.Codecs

open Js DecodeValidation

namespace Serializer

variable {N O : Type}

/-- The libraries that both runtimes use. -/
structure Runtime (N O : Type) where
  msgpackr : MessagePack N O
  numbers : NumberText N
  /-- `JSON.stringify` of a value that JSON does not denote; `none` where it throws or
  answers `undefined`. -/
  otherText : O → Option JsString

/-- What the serializer reads from the process: the environment, and the tier list in
effect. -/
structure Environment where
  cacheFormat : Option String := none
  cacheDebugSerialization : Option String := none
  tiers : List CompressionTier

inductive Format
  | msgpack
  | json
  deriving DecidableEq, Repr

inductive CompressionMode
  | none
  | gzip
  | zstd
  | auto
  deriving DecidableEq, Repr

/-- A shorthand or an explicit tier list. -/
inductive Compression
  | mode (mode : CompressionMode)
  | tiers (tiers : List CompressionTier)

structure SerializeOptions where
  format : Option Format := none
  compression : Option Compression := none

/-- `msgpack`, `msgpack-` and the name of a codec, or `json`. -/
inductive CacheEncoding
  | msgpack
  | compressed (name : CodecName)
  | json
  deriving DecidableEq, Repr

structure SerializedCacheValue where
  buffer : Bytes
  encoding : CacheEncoding
  originalBytes : ℕ
  storedBytes : ℕ
  compressionRatio : ℚ
  compressed : Bool

/-- Why a value is not written: `CacheSerializationError`, a malformed tier list, or an
error of `JSON.stringify` or of a compressor. -/
inductive SerializeError (N O : Type)
  | unserializable (value : Value N O)
  | tiers (error : TierError)
  | library

section Writer

variable (rt : Runtime N O) (native : NativeCodecs) (env : Environment)

/-- `resolveTiers(compression)` -/
def resolveTiers : Option Compression → Except TierError (List CompressionTier)
  | none => .ok env.tiers
  | some (.tiers tiers) => do
    validateTiers tiers
    return tiers
  | some (.mode .auto) => .ok (autoTiers native)
  | some (.mode .none) => .ok [{ codec := .none }]
  | some (.mode .gzip) =>
    .ok [{ maxBytes := some (.finite portableGzipMinBytes), codec := .none }, { codec := .gzip }]
  | some (.mode .zstd) =>
    .ok [{ maxBytes := some (.finite portableGzipMinBytes), codec := .none }, { codec := .zstd }]

def getCompressionSavings (originalBytes compressedBytes : ℕ) : ℚ :=
  if originalBytes = 0 then 0
  else
    let saved := 1 - (compressedBytes : ℚ) / originalBytes
    if saved < 0 then 0 else saved

def isDebugJsonMode : Bool :=
  env.cacheFormat = some "json" || env.cacheDebugSerialization = some "true"

/-- `options.format === 'json' || (options.format === undefined && isDebugJsonMode())` -/
def SerializeOptions.asJson (options : SerializeOptions) : Bool :=
  options.format = some .json || (options.format = none && isDebugJsonMode env)

/-- `JSON.stringify(value)` -/
def jsonText : Value N O → Option JsString
  | .undefined => none
  | .json v => some (stringify rt.numbers v)
  | .other o => rt.otherText o

/-- An uncompressed record. -/
def plainRecord (encoding : CacheEncoding) (tag : JsString) (body : Bytes) :
    SerializedCacheValue where
  buffer := withWireTag tag body
  encoding := encoding
  originalBytes := body.length
  storedBytes := (withWireTag tag body).length
  compressionRatio := 0
  compressed := false

def jsonRecord (value : Value N O) : Except (SerializeError N O) SerializedCacheValue :=
  match jsonText rt value with
  | none => .error .library
  | some json => .ok (plainRecord .json hc1JsonTag (utf8 json))

/-- The packed value, compressed if the codec earns it. -/
def packedRecord (codec : Codec) (packed : Bytes) :
    Except (SerializeError N O) SerializedCacheValue :=
  match codec.tag with
  | none => .ok (plainRecord .msgpack hc1MsgpackTag packed)
  | some tag =>
    match codec.compress packed with
    | none => .error .library
    | some compressed =>
      if getCompressionSavings packed.length compressed.length ≥ minCompressionSavings then
        .ok {
          buffer := withWireTag tag compressed
          encoding := .compressed codec.name
          originalBytes := packed.length
          storedBytes := (withWireTag tag compressed).length
          compressionRatio := getCompressionSavings packed.length compressed.length
          compressed := true }
      else .ok (plainRecord .msgpack hc1MsgpackTag packed)

def serializeWithStats (value : Value N O) (options : SerializeOptions) :
    Except (SerializeError N O) SerializedCacheValue :=
  if value.isNullish then .ok (plainRecord .msgpack hc1MsgpackTag packedSentinel)
  -- packed, the sentinel string would be read as null
  else if value.isSentinel then jsonRecord rt value
  else if options.asJson env then jsonRecord rt value
  else
    match rt.msgpackr.pack value with
    | none => .error (.unserializable value)
    | some packed =>
      match resolveTiers native env options.compression with
      | .error e => .error (.tiers e)
      | .ok tiers => packedRecord (selectCodec native tiers packed.length) packed

/-- `serialize(value, options)` -/
def serialize (value : Value N O) (options : SerializeOptions) :
    Except (SerializeError N O) Bytes :=
  (serializeWithStats rt native env value options).map SerializedCacheValue.buffer

end Writer

/-! ### The reader -/

/-- `isUtf8(input.subarray(start, end))` -/
def validUtf8Range : Utf8RangeValidator :=
  fun input start stop => some (isUtf8 (window input start stop))

/-- `buffer.toString('ascii')`, which drops the highest bit of each byte. -/
def asciiText (bytes : Bytes) : JsString := bytes.map fun b => UInt16.ofNat (b.toNat % 128)

/-- `buffer.toString('ascii', 0, PREFIX_LEN)` -/
def recordTag (buffer : Bytes) : JsString := asciiText (buffer.take hc1TagBytes)

def unwrapSentinel (value : Value N O) : Value N O := if value.isSentinel then .null else value

def sentinelBuffer : Bytes := withWireTag hc1MsgpackTag packedSentinel

section Reader

variable (rt : Runtime N O) (native : NativeCodecs) (limits : ResolvedDecodeLimits)

/-- The payload of a record, `none` where it is refused or the library throws. -/
def unpackChecked (payload : Bytes) (legacySentinel : Bool) : Option (Value N O) :=
  if isSafeMessagePack limits payload validUtf8Range = some true then
    (rt.msgpackr.unpack payload).map fun value =>
      if legacySentinel then unwrapSentinel value else value
  else none

/-- `isSafeJson(body) && isUtf8(body) ? JSON.parse(body.toString('utf8')) : miss` -/
def parseChecked (body : Bytes) : Option (Value N O) :=
  if isSafeJson limits body && isUtf8 body then
    (parse rt.numbers (decodeUtf8 body)).map .json
  else none

/-- Records of earlier releases have no tag. -/
def decodeLegacy (buffer : Bytes) : Option (Value N O) :=
  if (tagBytes hc1Family).isPrefixOf buffer then none
  else (unpackChecked rt limits buffer true).or
    ((parseChecked rt limits buffer).map unwrapSentinel)

/-- `decodeCacheRecord(raw, options)` up to its `catch`: `none` is a miss. -/
def decodeRecord (raw : Bytes) : Option (Value N O) :=
  if limits.maxEncodedBytes < raw.length then none
  else if raw.length < hc1TagBytes then decodeLegacy rt limits raw
  else
    let tag := recordTag raw
    let body := raw.drop hc1TagBytes
    match codecByTag native tag with
    | some codec =>
      (codec.decompress body (some limits.maxDecodedBytes)).bind fun expanded =>
        if limits.maxDecodedBytes < expanded.length then none
        else if expanded = packedSentinel then some .null
        else unpackChecked rt limits expanded false
    | none =>
      if tag = hc1MsgpackTag then
        if limits.maxDecodedBytes < body.length then none
        else if raw = sentinelBuffer then some .null
        else unpackChecked rt limits body false
      else if tag = hc1JsonTag then parseChecked rt limits body
      else decodeLegacy rt limits raw

/-- `decodeCacheRecord(raw, options)`, with the limits resolved. -/
def decodeCacheRecord (raw : Bytes) : DecodedCacheRecord N O :=
  .ofOption (decodeRecord rt native limits raw)

end Reader

/-! ### Reading each kind of record -/

theorem asciiText_tagBytes {tag : JsString} (h : IsTag tag) : asciiText (tagBytes tag) = tag := by
  rw [tagBytes_eq h, asciiText, List.map_map]
  calc
    tag.map ((fun b : UInt8 => UInt16.ofNat (b.toNat % 128)) ∘ fun u => UInt8.ofNat u.toNat) =
        tag.map id := by
      refine List.map_congr_left fun u hu => ?_
      have hlt := h.2 u hu
      show UInt16.ofNat ((UInt8.ofNat u.toNat).toNat % 128) = u
      rw [UInt8.toNat_ofNat']
      have hnat : u.toNat % 2 ^ 8 % 128 = u.toNat := by omega
      rw [hnat, UInt16.ofNat_toNat]
    _ = tag := List.map_id tag

/-- With any four bytes in front that are read as the tag. -/
theorem decodeRecord_append (rt : Runtime N O) (native : NativeCodecs)
    (limits : ResolvedDecodeLimits) {head body : Bytes} (hhead : head.length = 4)
    (hlen : 4 + body.length ≤ limits.maxEncodedBytes) :
    decodeRecord rt native limits (head ++ body) =
      match codecByTag native (asciiText head) with
      | some codec =>
        (codec.decompress body (some limits.maxDecodedBytes)).bind fun expanded =>
          if limits.maxDecodedBytes < expanded.length then none
          else if expanded = packedSentinel then some .null
          else unpackChecked rt limits expanded false
      | none =>
        if asciiText head = hc1MsgpackTag then
          if limits.maxDecodedBytes < body.length then none
          else if head ++ body = sentinelBuffer then some .null
          else unpackChecked rt limits body false
        else if asciiText head = hc1JsonTag then parseChecked rt limits body
        else decodeLegacy rt limits (head ++ body) := by
  have htake : (head ++ body).take hc1TagBytes = head := by
    rw [hc1TagBytes, ← hhead]
    exact List.take_left
  have hdrop : (head ++ body).drop hc1TagBytes = body := by
    rw [hc1TagBytes, ← hhead]
    exact List.drop_left
  rw [decodeRecord, List.length_append, hhead, if_neg (by omega),
    if_neg (by rw [hc1TagBytes]; omega), recordTag, htake, hdrop]

variable {rt : Runtime N O} {native : NativeCodecs} {limits : ResolvedDecodeLimits}

theorem codecByTag_codec (native : NativeCodecs) {name : CodecName} {tag : JsString}
    (h : (codec native name).tag = some tag) : codecByTag native tag = some (codec native name) := by
  cases name with
  | none => cases h
  | gzip =>
    obtain rfl : hc1GzipTag = tag := Option.some.inj h
    rfl
  | zstd =>
    obtain rfl : hc1ZstdTag = tag := Option.some.inj h
    rfl
  | lz4 =>
    obtain rfl : hc1Lz4Tag = tag := Option.some.inj h
    rfl
  | snappy =>
    obtain rfl : hc1SnappyTag = tag := Option.some.inj h
    rfl

theorem isTag_codec (native : NativeCodecs) {name : CodecName} {tag : JsString}
    (h : (codec native name).tag = some tag) : IsTag tag := by
  cases name with
  | none => cases h
  | gzip =>
    obtain rfl : hc1GzipTag = tag := Option.some.inj h
    decide
  | zstd =>
    obtain rfl : hc1ZstdTag = tag := Option.some.inj h
    decide
  | lz4 =>
    obtain rfl : hc1Lz4Tag = tag := Option.some.inj h
    decide
  | snappy =>
    obtain rfl : hc1SnappyTag = tag := Option.some.inj h
    decide

theorem codecByTag_msgpack (native : NativeCodecs) : codecByTag native hc1MsgpackTag = none := rfl

theorem codecByTag_json (native : NativeCodecs) : codecByTag native hc1JsonTag = none := rfl

theorem decodeRecord_msgpack {body : Bytes} (hlen : 4 + body.length ≤ limits.maxEncodedBytes) :
    decodeRecord rt native limits (withWireTag hc1MsgpackTag body) =
      if limits.maxDecodedBytes < body.length then none
      else if body = packedSentinel then some .null
      else unpackChecked rt limits body false := by
  have htag : IsTag hc1MsgpackTag := by decide
  have hsentinel : tagBytes hc1MsgpackTag ++ body = sentinelBuffer ↔ body = packedSentinel := by
    rw [sentinelBuffer, withWireTag]
    exact List.append_right_inj _
  rw [withWireTag, decodeRecord_append rt native limits (length_tagBytes htag) hlen,
    asciiText_tagBytes htag, codecByTag_msgpack]
  simp only [if_true, hsentinel]

theorem decodeRecord_json {body : Bytes} (hlen : 4 + body.length ≤ limits.maxEncodedBytes) :
    decodeRecord rt native limits (withWireTag hc1JsonTag body) = parseChecked rt limits body := by
  have htag : IsTag hc1JsonTag := by decide
  rw [withWireTag, decodeRecord_append rt native limits (length_tagBytes htag) hlen,
    asciiText_tagBytes htag, codecByTag_json]
  dsimp only
  rw [if_neg (by decide), if_pos rfl]

theorem decodeRecord_codec {name : CodecName} {tag : JsString} {body : Bytes}
    (htag : (codec native name).tag = some tag)
    (hlen : 4 + body.length ≤ limits.maxEncodedBytes) :
    decodeRecord rt native limits (withWireTag tag body) =
      ((codec native name).decompress body (some limits.maxDecodedBytes)).bind fun expanded =>
        if limits.maxDecodedBytes < expanded.length then none
        else if expanded = packedSentinel then some .null
        else unpackChecked rt limits expanded false := by
  have hfour := isTag_codec native htag
  rw [withWireTag, decodeRecord_append rt native limits (length_tagBytes hfour) hlen,
    asciiText_tagBytes hfour, codecByTag_codec native htag]

/-! ### What is written is read back -/

/-- What the library promises: a packed value is unpacked. -/
def MessagePack.Lawful (m : MessagePack N O) : Prop :=
  ∀ {v b}, m.pack v = some b → m.unpack b = some v

/-- The two checks of UTF-8 let the same payloads through. -/
theorem isSafeMessagePack_validUtf8Range (limits : ResolvedDecodeLimits) (payload : Bytes) :
    isSafeMessagePack limits payload validUtf8Range =
      isSafeMessagePack limits payload isSafeUtf8 := by
  obtain ⟨b, hb, hbiff⟩ := @isSafeMessagePack_spec limits payload validUtf8Range
    (fun _ _ _ => rfl)
  obtain ⟨c, hc, hciff⟩ := @isSafeMessagePack_spec limits payload isSafeUtf8
    (fun _ _ hstop => isSafeUtf8_eq hstop)
  have hbc : b = c := Bool.eq_iff_iff.mpr (hbiff.trans hciff.symm)
  rw [hb, hc, hbc]

theorem unpackChecked_eq (payload : Bytes) : unpackChecked rt limits payload false =
    if isSafeMessagePack limits payload isSafeUtf8 = some true then rt.msgpackr.unpack payload
    else none := by
  rw [unpackChecked, isSafeMessagePack_validUtf8Range]
  simp

theorem length_le_of_isSafe {payload : Bytes} {validUtf8 : Utf8RangeValidator}
    (h : isSafeMessagePack limits payload validUtf8 = some true) :
    payload.length ≤ limits.maxDecodedBytes := by
  by_contra hlong
  rw [isSafeMessagePack, if_pos (by omega)] at h
  cases h

/-- Only the sentinel string is packed as the sentinel. -/
theorem packed_ne_sentinel {m : MessagePack N O} (hm : m.Lawful) {v : Value N O} {packed : Bytes}
    (hv : m.pack v = some packed) (hne : v.isSentinel = false) : packed ≠ packedSentinel := by
  rintro rfl
  have heq : v = .sentinel :=
    Option.some.inj ((hm hv).symm.trans (hm m.pack_sentinel))
  rw [Value.isSentinel_iff.mpr heq] at hne
  cases hne

/-- A JSON text is within the limits. -/
structure FitsText (limits : ResolvedDecodeLimits) (T : NumberText N) (v : Json N) : Prop where
  proper : v.Proper
  bytes : (utf8 (stringify T v)).length ≤ limits.maxDecodedBytes
  depth : v.depth ≤ limits.maxDepth
  widest : v.widest ≤ limits.maxCollectionLength
  values : 1 + v.inside ≤ limits.maxTotalValues

/-- A packed value is within the limits. -/
def FitsPacked (limits : ResolvedDecodeLimits) (m : MessagePack N O) (v : Value N O) : Prop :=
  ∀ packed, m.pack v = some packed → isSafeMessagePack limits packed isSafeUtf8 = some true

/-- What a record of the value holds is within the limits: the sentinel, a text of JSON
or the packed value. -/
def Fits (rt : Runtime N O) (limits : ResolvedDecodeLimits) (asJson : Bool)
    (value : Value N O) : Prop :=
  if value.isNullish then packedSentinel.length ≤ limits.maxDecodedBytes
  else if value.isSentinel ∨ asJson = true then
    ∃ v, value = .json v ∧ FitsText limits rt.numbers v
  else FitsPacked limits rt.msgpackr value

theorem parseChecked_stringify {v : Json N} (h : FitsText limits rt.numbers v) :
    parseChecked rt limits (utf8 (stringify rt.numbers v)) = some (.json v) := by
  have hsafe := isSafeJson_stringify rt.numbers h.bytes h.depth h.widest h.values
  rw [parseChecked, hsafe, isUtf8_utf8, decodeUtf8_utf8 (wellFormed_stringify rt.numbers v),
    parse_stringify rt.numbers h.proper]
  rfl

/-- Packed bytes that are no sentinel are read as the value. -/
theorem read_packed (hm : rt.msgpackr.Lawful) {v : Value N O} {packed : Bytes}
    (hv : rt.msgpackr.pack v = some packed) (hne : v.isSentinel = false)
    (hfits : FitsPacked limits rt.msgpackr v) :
    (if limits.maxDecodedBytes < packed.length then none
      else if packed = packedSentinel then some .null
      else unpackChecked rt limits packed false) = some v := by
  have hsafe := hfits packed hv
  have hlen := length_le_of_isSafe hsafe
  rw [if_neg (by omega), if_neg (packed_ne_sentinel hm hv hne), unpackChecked_eq, if_pos hsafe,
    hm hv]

/-- The records that a value is written as, by a writer that compresses with
`compresses tag packed z`. -/
inductive Written (rt : Runtime N O) (compresses : JsString → Bytes → Bytes → Prop)
    (asJson : Bool) (value : Value N O) : Bytes → Prop
  | null : value.isNullish = true →
    Written rt compresses asJson value (withWireTag hc1MsgpackTag packedSentinel)
  | text {json : JsString} : value.isNullish = false → value.isSentinel = true ∨ asJson = true →
    jsonText rt value = some json →
    Written rt compresses asJson value (withWireTag hc1JsonTag (utf8 json))
  | plain {packed : Bytes} : value.isNullish = false → value.isSentinel = false →
    asJson = false → rt.msgpackr.pack value = some packed →
    Written rt compresses asJson value (withWireTag hc1MsgpackTag packed)
  | compressed {packed z : Bytes} {tag : JsString} : value.isNullish = false →
    value.isSentinel = false → asJson = false → rt.msgpackr.pack value = some packed →
    compresses tag packed z → Saves packed.length z.length →
    Written rt compresses asJson value (withWireTag tag z)

/-- One of the codecs. -/
def compresses (native : NativeCodecs) (tag : JsString) (packed z : Bytes) : Prop :=
  ∃ name, (codec native name).tag = some tag ∧ (codec native name).compress packed = some z

theorem selectCodec_eq (native : NativeCodecs) (byteLength : ℕ) : ∀ tiers : List CompressionTier,
    ∃ name, selectCodec native tiers byteLength = codec native name ∧
      codecAvailable native name = true
  | [] => ⟨.none, rfl, rfl⟩
  | tier :: tiers => by
    rw [selectCodec]
    by_cases hbound : (tier.maxBytes.map fun maxBytes => maxBytes.exceeds byteLength).getD true
    · rw [if_pos hbound]
      by_cases hrun : codecAvailable native tier.codec = true
      · exact ⟨tier.codec, if_pos hrun, hrun⟩
      · exact ⟨.lz4, if_neg hrun, rfl⟩
    · rw [if_neg hbound]
      exact selectCodec_eq native byteLength tiers

/-- The threshold, in whole bytes. -/
theorem saves_of_getCompressionSavings {originalBytes compressedBytes : ℕ}
    (h : minCompressionSavings ≤ getCompressionSavings originalBytes compressedBytes) :
    Saves originalBytes compressedBytes := by
  have hmin : (0 : ℚ) < minCompressionSavings := by norm_num [minCompressionSavings]
  rw [getCompressionSavings] at h
  dsimp only at h
  split_ifs at h with hzero
  · exact absurd h (not_le.mpr hmin)
  · exact absurd h (not_le.mpr hmin)
  · exact (saves_iff (Nat.pos_of_ne_zero hzero)).mp h

variable {env : Environment} {value : Value N O} {options : SerializeOptions}

theorem written_of_serialize {r : Bytes} (h : serialize rt native env value options = .ok r) :
    Written rt (compresses native) (options.asJson env) value r := by
  obtain ⟨record, hrecord, rfl⟩ : ∃ record,
      serializeWithStats rt native env value options = .ok record ∧ record.buffer = r := by
    rw [serialize] at h
    cases hrecord : serializeWithStats rt native env value options with
    | error e =>
      rw [hrecord] at h
      cases h
    | ok record =>
      rw [hrecord] at h
      exact ⟨record, rfl, Except.ok.inj h⟩
  have hjson : ∀ {record}, jsonRecord rt value = .ok record → ∃ json,
      jsonText rt value = some json ∧ record.buffer = withWireTag hc1JsonTag (utf8 json) := by
    intro record h
    rw [jsonRecord] at h
    cases htext : jsonText rt value with
    | none =>
      rw [htext] at h
      cases h
    | some json =>
      rw [htext] at h
      exact ⟨json, rfl, by rw [← Except.ok.inj h]; rfl⟩
  rw [serializeWithStats] at hrecord
  by_cases hnull : value.isNullish = true
  · rw [if_pos hnull] at hrecord
    rw [← Except.ok.inj hrecord]
    exact .null hnull
  rw [if_neg hnull] at hrecord
  rw [Bool.not_eq_true] at hnull
  by_cases hsentinel : value.isSentinel = true
  · rw [if_pos hsentinel] at hrecord
    obtain ⟨json, htext, hbuffer⟩ := hjson hrecord
    rw [hbuffer]
    exact .text hnull (.inl hsentinel) htext
  rw [if_neg hsentinel] at hrecord
  rw [Bool.not_eq_true] at hsentinel
  by_cases hformat : options.asJson env = true
  · rw [if_pos hformat] at hrecord
    obtain ⟨json, htext, hbuffer⟩ := hjson hrecord
    rw [hbuffer]
    exact .text hnull (.inr hformat) htext
  rw [if_neg hformat] at hrecord
  rw [Bool.not_eq_true] at hformat
  cases hpack : rt.msgpackr.pack value with
  | none =>
    rw [hpack] at hrecord
    cases hrecord
  | some packed =>
  rw [hpack] at hrecord
  cases htiers : resolveTiers native env options.compression with
  | error e =>
    rw [htiers] at hrecord
    cases hrecord
  | ok tiers =>
  rw [htiers] at hrecord
  obtain ⟨name, hname, -⟩ := selectCodec_eq native packed.length tiers
  change packedRecord (selectCodec native tiers packed.length) packed = .ok record at hrecord
  rw [hname, packedRecord] at hrecord
  cases htag : (codec native name).tag with
  | none =>
    rw [htag] at hrecord
    rw [← Except.ok.inj hrecord]
    exact .plain hnull hsentinel hformat hpack
  | some tag =>
  rw [htag] at hrecord
  cases hz : (codec native name).compress packed with
  | none =>
    rw [hz] at hrecord
    cases hrecord
  | some z =>
  rw [hz] at hrecord
  dsimp only at hrecord
  split_ifs at hrecord with hsaves
  · rw [← Except.ok.inj hrecord]
    exact .compressed hnull hsentinel hformat hpack ⟨name, htag, hz⟩
      (saves_of_getCompressionSavings hsaves)
  · rw [← Except.ok.inj hrecord]
    exact .plain hnull hsentinel hformat hpack

/-- What is written is read back, if what a writer has compressed is expanded. -/
theorem decodeRecord_written (hm : rt.msgpackr.Lawful)
    {compresses : JsString → Bytes → Bytes → Prop}
    (hexpand : ∀ {tag packed z}, compresses tag packed z → ∃ name,
      (codec native name).tag = some tag ∧ ∀ {max}, packed.length ≤ max →
        (codec native name).decompress z (some max) = some packed)
    {asJson : Bool} {r : Bytes} (h : Written rt compresses asJson value r)
    (hfits : Fits rt limits asJson value) (hlen : r.length ≤ limits.maxEncodedBytes) :
    decodeRecord rt native limits r = some value.cached := by
  rw [Fits] at hfits
  cases h with
  | null hnull =>
    rw [if_pos hnull] at hfits
    rw [length_withWireTag (by decide)] at hlen
    rw [decodeRecord_msgpack hlen, if_neg (by omega), if_pos rfl, Value.cached_eq_null hnull]
  | text hnull hformat htext =>
    rw [if_neg (by rw [hnull]; simp), if_pos hformat] at hfits
    obtain ⟨v, rfl, hfits⟩ := hfits
    rw [length_withWireTag (by decide)] at hlen
    rw [decodeRecord_json hlen, ← Option.some.inj htext, parseChecked_stringify hfits,
      Value.cached_eq_self hnull]
  | plain hnull hsentinel hformat hpack =>
    rw [if_neg (by rw [hnull]; simp), if_neg (by rw [hsentinel, hformat]; simp)] at hfits
    rw [length_withWireTag (by decide)] at hlen
    rw [decodeRecord_msgpack hlen, read_packed hm hpack hsentinel hfits,
      Value.cached_eq_self hnull]
  | compressed hnull hsentinel hformat hpack hz _ =>
    rw [if_neg (by rw [hnull]; simp), if_neg (by rw [hsentinel, hformat]; simp)] at hfits
    obtain ⟨name, htag, hdecompress⟩ := hexpand hz
    rw [length_withWireTag (isTag_codec native htag)] at hlen
    rw [decodeRecord_codec htag hlen, hdecompress (length_le_of_isSafe (hfits _ hpack)),
      Option.bind_some, read_packed hm hpack hsentinel hfits, Value.cached_eq_self hnull]

/-- A record whose tag is that of a codec has saved 15 percent of the packed value. -/
theorem saves_of_written {compresses : JsString → Bytes → Bytes → Prop} {asJson : Bool}
    {r : Bytes} (h : Written rt compresses asJson value r) {tag : JsString} {z : Bytes}
    (htag : IsTag tag) (hmsgpack : tag ≠ hc1MsgpackTag) (hjson : tag ≠ hc1JsonTag)
    (hwritten : ∀ {tag packed z}, compresses tag packed z → IsTag tag)
    (hr : r = withWireTag tag z) :
    ∃ packed, rt.msgpackr.pack value = some packed ∧ compresses tag packed z ∧
      Saves packed.length z.length := by
  cases h with
  | null _ => exact absurd (tag_unique htag (by decide) hr.symm) hmsgpack
  | text _ _ _ => exact absurd (tag_unique htag (by decide) hr.symm) hjson
  | plain _ _ _ _ => exact absurd (tag_unique htag (by decide) hr.symm) hmsgpack
  | @compressed packed z' tag' _ _ _ hpack hz hsaves =>
    obtain rfl := tag_unique (hwritten hz) htag hr
    obtain rfl : z' = z := List.append_cancel_left hr
    exact ⟨packed, hpack, hz, hsaves⟩

/-- A shorthand is always valid, a tier list if `validateTiers` lets it through. -/
theorem exists_resolveTiers (native : NativeCodecs) (env : Environment)
    {compression : Option Compression}
    (h : ∀ tiers, compression = some (.tiers tiers) → validateTiers tiers = .ok ()) :
    ∃ tiers, resolveTiers native env compression = .ok tiers := by
  match compression with
  | none => exact ⟨_, rfl⟩
  | some (.tiers tiers) =>
    refine ⟨tiers, ?_⟩
    rw [resolveTiers, h tiers rfl]
    rfl
  | some (.mode .none) => exact ⟨_, rfl⟩
  | some (.mode .gzip) => exact ⟨_, rfl⟩
  | some (.mode .zstd) => exact ⟨_, rfl⟩
  | some (.mode .auto) => exact ⟨_, rfl⟩

/-- The options are valid, and no library throws on the value. -/
structure Writable (rt : Runtime N O) (native : NativeCodecs) (env : Environment)
    (value : Value N O) (options : SerializeOptions) : Prop where
  tiers : ∀ tiers, options.compression = some (.tiers tiers) → validateTiers tiers = .ok ()
  packs : value.isNullish = false → options.asJson env = false →
    ∃ packed, rt.msgpackr.pack value = some packed ∧ ∀ name,
      codecAvailable native name = true → ((codec native name).compress packed).isSome = true
  text : options.asJson env = true → value.isNullish = false → (jsonText rt value).isSome = true

theorem exists_serialize (h : Writable rt native env value options) :
    ∃ r, serialize rt native env value options = .ok r := by
  suffices h : ∃ record, serializeWithStats rt native env value options = .ok record by
    obtain ⟨record, h⟩ := h
    refine ⟨record.buffer, ?_⟩
    rw [serialize, h]
    rfl
  have hjson : (jsonText rt value).isSome = true → ∃ record, jsonRecord rt value = .ok record := by
    intro h
    obtain ⟨json, hjson⟩ := Option.isSome_iff_exists.mp h
    refine ⟨plainRecord .json hc1JsonTag (utf8 json), ?_⟩
    rw [jsonRecord, hjson]
  rw [serializeWithStats]
  split_ifs with hnull hsentinel hformat
  · exact ⟨_, rfl⟩
  · refine hjson ?_
    rw [Value.isSentinel_iff.mp hsentinel]
    rfl
  · exact hjson (h.text hformat (Bool.not_eq_true _ ▸ hnull))
  · rw [Bool.not_eq_true] at hnull hformat
    obtain ⟨packed, hpack, hcompress⟩ := h.packs hnull hformat
    obtain ⟨tiers, htiers⟩ := exists_resolveTiers native env h.tiers
    obtain ⟨name, hname, hrun⟩ := selectCodec_eq native packed.length tiers
    obtain ⟨z, hz⟩ := Option.isSome_iff_exists.mp (hcompress name hrun)
    rw [hpack, htiers]
    show ∃ record, packedRecord (selectCodec native tiers packed.length) packed = .ok record
    rw [hname, packedRecord]
    cases (codec native name).tag with
    | none => exact ⟨_, rfl⟩
    | some tag =>
      rw [hz]
      dsimp only
      split_ifs
      · exact ⟨_, rfl⟩
      · exact ⟨_, rfl⟩

end Serializer
