/-
Compression codecs and the size tiers that pick between them.

The compressors are native libraries and a parameter of the model (`NativeCodecs`).
What is relied on is `NativeCodecs.Lawful`: that they invert each other, and that a
block of LZ4 or Snappy begins with the length of what it expands to, which is what
`decompress` looks at before it lets the library allocate.

* `readUInt32LE`, `snappyOutputLength` — these two lengths;
* `codecByTag`, `selectCodec`, `validateTiers` — the registry and the tiers;
* `decompress_compress` — a codec expands what it has compressed, if the limit allows.
-/
import LazyLayers.SerializerPolicy

open Js

namespace Serializer

inductive CodecName
  | none
  | gzip
  | zstd
  | lz4
  | snappy
  deriving DecidableEq, Repr

/-- The functions of the compression libraries, `none` where they throw.  Those of zlib
take a limit for their output. -/
structure NativeCodecs where
  zstdAvailable : Bool
  gzipSync : Bytes → Option Bytes
  gunzipSync : Bytes → Option ℕ → Option Bytes
  zstdCompress : Bytes → Option Bytes
  zstdDecompress : Bytes → Option ℕ → Option Bytes
  lz4Compress : Bytes → Option Bytes
  lz4Uncompress : Bytes → Option Bytes
  snappyCompress : Bytes → Option Bytes
  snappyUncompress : Bytes → Option Bytes

/-- No library is installed. -/
def noCodecs : NativeCodecs where
  zstdAvailable := false
  gzipSync _ := none
  gunzipSync _ _ := none
  zstdCompress _ := none
  zstdDecompress _ _ := none
  lz4Compress _ := none
  lz4Uncompress _ := none
  snappyCompress _ := none
  snappyUncompress _ := none

structure Codec where
  name : CodecName
  /-- The wire tag, or `none` for the uncompressed path. -/
  tag : Option JsString
  compress : Bytes → Option Bytes
  decompress : Bytes → Option ℕ → Option Bytes

/-- `input.readUInt32LE(0)` -/
def readUInt32LE (input : Bytes) : Option ℕ :=
  match input with
  | a :: b :: c :: d :: _ =>
    some (a.toNat + 256 * b.toNat + 65536 * c.toNat + 16777216 * d.toNat)
  | _ => none

/-- The loop of `snappyOutputLength`, with the rounds that are left. -/
def snappyOutputLengthFrom (input : Bytes) : ℕ → ℕ → ℕ → Option ℕ
  | 0, _, _ => none
  | rounds + 1, i, length =>
    match input[i]? with
    | none => none
    | some byte =>
      let length := length + byte.toNat % 128 * 2 ^ (i * 7)
      if byte.toNat < 0x80 then if 0xFFFFFFFF < length then none else some length
      else snappyOutputLengthFrom input rounds (i + 1) length

/-- Raw Snappy begins with a bounded uint32 output-length varint. -/
def snappyOutputLength (input : Bytes) : Option ℕ := snappyOutputLengthFrom input 5 0 0

section Registry

variable (native : NativeCodecs)

/-- `CODECS` -/
def codec : CodecName → Codec
  | .none =>
    { name := .none
      tag := none
      compress := some
      decompress := fun input _ => some input }
  | .gzip =>
    { name := .gzip
      tag := hc1GzipTag
      compress := native.gzipSync
      decompress := native.gunzipSync }
  | .zstd =>
    { name := .zstd
      tag := hc1ZstdTag
      compress := fun input => if native.zstdAvailable then native.zstdCompress input else none
      decompress := fun input maxOutputBytes =>
        if native.zstdAvailable then native.zstdDecompress input maxOutputBytes else none }
  | .lz4 =>
    { name := .lz4
      tag := hc1Lz4Tag
      compress := native.lz4Compress
      decompress := fun input maxOutputBytes =>
        match maxOutputBytes with
        | none => native.lz4Uncompress input
        | some maxOutputBytes =>
          match readUInt32LE input with
          | none => none
          | some length => if maxOutputBytes < length then none else native.lz4Uncompress input }
  | .snappy =>
    { name := .snappy
      tag := hc1SnappyTag
      compress := native.snappyCompress
      decompress := fun input maxOutputBytes =>
        match maxOutputBytes with
        | none => native.snappyUncompress input
        | some maxOutputBytes =>
          match snappyOutputLength input with
          | none => none
          | some length =>
            if maxOutputBytes < length then none else native.snappyUncompress input }

/-- `Object.values(CODECS)` -/
def codecs : List Codec := [.none, .gzip, .zstd, .lz4, .snappy].map (codec native)

def codecByTag (tag : JsString) : Option Codec :=
  (codecs native).find? fun codec => codec.tag = some tag

def codecAvailable : CodecName → Bool
  | .zstd => native.zstdAvailable
  | _ => true

/-! ### Tiers -/

/-- Everything up to `maxBytes`, exclusive, uses `codec`. -/
structure CompressionTier where
  maxBytes : Option Number := none
  codec : CodecName
  deriving DecidableEq

/-- `byteLength < maxBytes` -/
def Number.exceeds : Number → ℕ → Bool
  | .finite q, byteLength => (byteLength : ℚ) < q
  | .infinity, _ => true
  | _, _ => false

def defaultTiers : List CompressionTier :=
  [{ maxBytes := some (.finite 256), codec := .none },
    { maxBytes := some (.finite (4 * 1024)), codec := .lz4 },
    { codec := if native.zstdAvailable then .zstd else .lz4 }]

def autoTiers : List CompressionTier := defaultTiers native

/-- Falls back to LZ4 where a tier names a codec that this process cannot run. -/
def selectCodec : List CompressionTier → ℕ → Codec
  | [], _ => codec native .none
  | tier :: tiers, byteLength =>
    if (tier.maxBytes.map fun maxBytes => maxBytes.exceeds byteLength).getD true then
      if codecAvailable native tier.codec then codec native tier.codec else codec native .lz4
    else selectCodec tiers byteLength

end Registry

/-- Why a tier list is malformed. -/
inductive TierError
  | empty
  | omitted
  | bound (index : ℕ) (maxBytes : Number) (previous : ℚ)

/-- The text of the error, with the text of a number. -/
def TierError.message (text : Number → String) : TierError → String
  | .empty => "Compression tiers must be a non-empty array."
  | .omitted => "Only the last compression tier may omit maxBytes."
  | .bound index maxBytes previous =>
    "Compression tier " ++ toString index ++ " has maxBytes " ++ text maxBytes ++
      ", which must be greater than the previous tier's " ++ text (.finite previous) ++ "."

/-- The loop of `validateTiers` from a tier on. -/
def validateTiersFrom : List CompressionTier → ℕ → ℚ → Except TierError Unit
  | [], _, _ => .ok ()
  | tier :: tiers, index, previous =>
    match tier.maxBytes with
    | none => if tiers ≠ [] then .error .omitted else .ok ()
    | some (.finite q) =>
      if q ≤ previous then .error (.bound index (.finite q) previous)
      else validateTiersFrom tiers (index + 1) q
    | some maxBytes => .error (.bound index maxBytes previous)

def validateTiers (tiers : List CompressionTier) : Except TierError Unit :=
  if tiers = [] then .error .empty else validateTiersFrom tiers 0 0

/-- The bounds of a valid list grow from 0 on, and only the last tier has none. -/
inductive Ascending : ℚ → List CompressionTier → Prop
  | nil (previous : ℚ) : Ascending previous []
  | last (previous : ℚ) (name : CodecName) : Ascending previous [⟨none, name⟩]
  | cons {previous q : ℚ} (name : CodecName) {tiers : List CompressionTier} :
    previous < q → Ascending q tiers → Ascending previous (⟨some (.finite q), name⟩ :: tiers)

theorem validateTiersFrom_finite (q : ℚ) (name : CodecName) (tiers : List CompressionTier)
    (index : ℕ) (previous : ℚ) :
    validateTiersFrom (⟨some (.finite q), name⟩ :: tiers) index previous =
      if q ≤ previous then .error (.bound index (.finite q) previous)
      else validateTiersFrom tiers (index + 1) q := rfl

theorem validateTiersFrom_iff {tiers : List CompressionTier} : ∀ {index : ℕ} {previous : ℚ},
    validateTiersFrom tiers index previous = .ok () ↔ Ascending previous tiers := by
  induction tiers with
  | nil =>
    intro index previous
    exact ⟨fun _ => .nil previous, fun _ => rfl⟩
  | cons tier tiers ih =>
    intro index previous
    obtain ⟨maxBytes, name⟩ := tier
    constructor
    · intro h
      match maxBytes with
      | none =>
        rw [validateTiersFrom] at h
        by_cases hlast : tiers = []
        · rw [hlast]
          exact .last previous name
        · rw [if_pos hlast] at h
          cases h
      | some (.finite q) =>
        rw [validateTiersFrom_finite] at h
        by_cases hle : q ≤ previous
        · rw [if_pos hle] at h
          cases h
        · rw [if_neg hle] at h
          exact .cons name (not_le.mp hle) (ih.mp h)
    · intro h
      cases h with
      | last => rfl
      | cons _ hlt h =>
        rw [validateTiersFrom_finite, if_neg (not_le.mpr hlt)]
        exact ih.mpr h

/-- What `validateTiers` lets through. -/
theorem validateTiers_iff (tiers : List CompressionTier) :
    validateTiers tiers = .ok () ↔ tiers ≠ [] ∧ Ascending 0 tiers := by
  rw [validateTiers]
  split_ifs with h
  · exact iff_of_false nofun fun hne => hne.1 h
  · rw [validateTiersFrom_iff]
    exact ⟨fun hasc => ⟨h, hasc⟩, And.right⟩

theorem validateTiers_defaultTiers (native : NativeCodecs) :
    validateTiers (defaultTiers native) = .ok () := by
  rw [validateTiers_iff]
  refine ⟨List.cons_ne_nil _ _, .cons _ (by norm_num) (.cons _ (by norm_num) (.last _ _))⟩

/-! ### The codecs invert themselves -/

/-- A number below 2^32 as four bytes, the lowest first. -/
def uint32LE (n : ℕ) : Bytes :=
  [UInt8.ofNat n, UInt8.ofNat (n / 256), UInt8.ofNat (n / 65536), UInt8.ofNat (n / 16777216)]

/-- What the libraries promise. -/
structure NativeCodecs.Lawful (native : NativeCodecs) : Prop where
  gzip : ∀ {b z max}, native.gzipSync b = some z → b.length ≤ max →
    native.gunzipSync z (some max) = some b
  zstd : ∀ {b z max}, native.zstdCompress b = some z → b.length ≤ max →
    native.zstdDecompress z (some max) = some b
  lz4 : ∀ {b z}, native.lz4Compress b = some z → native.lz4Uncompress z = some b
  lz4_length : ∀ {b z}, native.lz4Compress b = some z →
    ∃ block, z = uint32LE b.length ++ block
  snappy : ∀ {b z}, native.snappyCompress b = some z → native.snappyUncompress z = some b
  snappy_length : ∀ {b z}, native.snappyCompress b = some z →
    snappyOutputLength z = some b.length

theorem readUInt32LE_uint32LE (n : ℕ) (block : Bytes) :
    readUInt32LE (uint32LE n ++ block) = some (n % 4294967296) := by
  rw [uint32LE, List.cons_append, List.cons_append, List.cons_append, List.cons_append,
    readUInt32LE]
  congr 1
  simp only [UInt8.toNat_ofNat']
  omega

variable {native : NativeCodecs}

theorem decompress_compress (h : native.Lawful) (name : CodecName) {b z : Bytes} {max : ℕ}
    (hz : (codec native name).compress b = some z) (hmax : b.length ≤ max) :
    (codec native name).decompress z (some max) = some b := by
  match name with
  | .none =>
    obtain rfl : b = z := Option.some.inj hz
    rfl
  | .gzip => exact h.gzip hz hmax
  | .zstd =>
    change (if native.zstdAvailable then native.zstdCompress b else none) = some z at hz
    show (if native.zstdAvailable then native.zstdDecompress z (some max) else none) = some b
    split_ifs at hz ⊢
    exact h.zstd hz hmax
  | .lz4 =>
    obtain ⟨block, hblock⟩ := h.lz4_length hz
    have hlength : readUInt32LE z = some (b.length % 4294967296) := by
      rw [hblock]
      exact readUInt32LE_uint32LE b.length block
    show (match readUInt32LE z with
      | none => none
      | some length => if max < length then none else native.lz4Uncompress z) = some b
    rw [hlength]
    show (if max < b.length % 4294967296 then none else native.lz4Uncompress z) = some b
    rw [if_neg (by omega)]
    exact h.lz4 hz
  | .snappy =>
    show (match snappyOutputLength z with
      | none => none
      | some length => if max < length then none else native.snappyUncompress z) = some b
    rw [h.snappy_length hz]
    show (if max < b.length then none else native.snappyUncompress z) = some b
    rw [if_neg (by omega)]
    exact h.snappy hz

end Serializer
