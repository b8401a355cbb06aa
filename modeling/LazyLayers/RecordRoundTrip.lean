/-
Records are read back, by the runtime that has written them and by the other one.

The two runtimes share the MessagePack library and the format of gzip; everything else
they implement twice.  `record_round_trip` puts the writers and the readers together:
for every value, every tier list and every mode, within the limits of the reader.

* `SharesGzip` — the native functions and the streams of the web platform write the same
  format and read it;
* `record_round_trip` — the round trips, and the savings of a compressed record.
-/
import LazyLayers.PortableSerializer

open Js DecodeValidation

namespace Serializer

variable {N O : Type}

/-- `IsGzip b z` says that `z` holds `b` in the format of gzip, which both runtimes write
and read. -/
structure SharesGzip (native : NativeCodecs) (web : WebStreams)
    (IsGzip : Bytes → Bytes → Prop) : Prop where
  gzipSync : ∀ {b z}, native.gzipSync b = some z → IsGzip b z
  compressionStream : ∀ {b}, (web.compressionStream b).closes = true →
    IsGzip b (web.compressionStream b).chunks.flatten
  gunzipSync : ∀ {b z max}, IsGzip b z → b.length ≤ max → native.gunzipSync z (some max) = some b
  decompressionStream : ∀ {b z}, IsGzip b z → (web.decompressionStream z).closes = true ∧
    (web.decompressionStream z).chunks.flatten = b

section

variable {native : NativeCodecs} {web : WebStreams} {IsGzip : Bytes → Bytes → Prop}

/-- A stream expands what is gzip, within its limit. -/
theorem SharesGzip.transform (h : SharesGzip native web IsGzip) {b z : Bytes} (hz : IsGzip b z)
    {max : ℕ} (hmax : b.length ≤ max) : transform (web.decompressionStream z) max = some b := by
  obtain ⟨hcloses, hflatten⟩ := h.decompressionStream hz
  rw [transform_eq, hflatten, if_pos ⟨hcloses, hmax⟩]

theorem compresses_gzip {packed z : Bytes} (h : compresses native hc1GzipTag packed z) :
    native.gzipSync packed = some z := by
  obtain ⟨name, htag, hz⟩ := h
  cases name with
  | none => cases htag
  | gzip => exact hz
  | zstd => exact absurd (Option.some.inj htag) (by decide)
  | lz4 => exact absurd (Option.some.inj htag) (by decide)
  | snappy => exact absurd (Option.some.inj htag) (by decide)

/-- Of the tags of codecs, the Worker knows that of gzip. -/
theorem eq_gzip_of_portable {tag : JsString} {packed z : Bytes}
    (h : compresses native tag packed z) (hportable : IsPortable (withWireTag tag z)) :
    tag = hc1GzipTag := by
  obtain ⟨name, htag, -⟩ := h
  have hno : ∀ {t : JsString}, IsTag t → t ≠ hc1MsgpackTag → t ≠ hc1JsonTag → t ≠ hc1GzipTag →
      ¬ IsPortable (withWireTag t z) := by
    intro t ht hm hj hg hportable
    rcases hportable with h | h | h
    · rw [hasWireTag_of_ne ht (by decide) hm] at h
      cases h
    · rw [hasWireTag_of_ne ht (by decide) hj] at h
      cases h
    · rw [hasWireTag_of_ne ht (by decide) hg] at h
      cases h
  cases name with
  | none => cases htag
  | gzip => exact (Option.some.inj htag).symm
  | zstd =>
    rw [← Option.some.inj htag] at hportable
    exact absurd hportable (hno (by decide) (by decide) (by decide) (by decide))
  | lz4 =>
    rw [← Option.some.inj htag] at hportable
    exact absurd hportable (hno (by decide) (by decide) (by decide) (by decide))
  | snappy =>
    rw [← Option.some.inj htag] at hportable
    exact absurd hportable (hno (by decide) (by decide) (by decide) (by decide))

end

/-- No library throws on the value, and what gzip makes of it is within the cap. -/
structure PortableWritable (rt : Runtime N O) (web : WebStreams) (value : Value N O) : Prop where
  packs : value.isNullish = false → (rt.msgpackr.pack value).isSome = true
  streams : ∀ packed, rt.msgpackr.pack value = some packed →
    (transform (web.compressionStream packed) maxPortableDecodedBytes).isSome = true

theorem exists_serializePortable {rt : Runtime N O} {web : WebStreams} {value : Value N O}
    (h : PortableWritable rt web value) (compression : CloudflareKVCompression) :
    ∃ r, serializePortable rt web value compression = .ok r := by
  have hrecord : ∀ {packed} (compression : CloudflareKVCompression),
      (portableGzipMinBytes ≤ packed.length →
        (transform (web.compressionStream packed) maxPortableDecodedBytes).isSome = true) →
      ∃ r, portableRecord web compression packed =
        (.ok r : Except (PortableWriteError N O) Bytes) := by
    intro packed compression h
    rw [portableRecord]
    split_ifs with hauto
    · obtain ⟨z, hz⟩ := Option.isSome_iff_exists.mp (h hauto.2)
      rw [hz]
      dsimp only
      split_ifs
      · exact ⟨_, rfl⟩
      · exact ⟨_, rfl⟩
    · exact ⟨_, rfl⟩
  rw [serializePortable]
  by_cases hsentinel : value.isSentinel = true
  · exact ⟨_, if_pos hsentinel⟩
  rw [if_neg hsentinel]
  by_cases hnull : value.isNullish = true
  · rw [if_pos hnull, rt.msgpackr.pack_sentinel]
    refine hrecord _ fun hlong => ?_
    rw [length_packedSentinel, portableGzipMinBytes] at hlong
    omega
  · rw [if_neg hnull]
    rw [Bool.not_eq_true] at hnull
    obtain ⟨packed, hpack⟩ := Option.isSome_iff_exists.mp (h.packs hnull)
    rw [hpack]
    exact hrecord _ fun _ => h.streams packed hpack

/-- The Worker writes no other tags. -/
theorem portable_of_written {rt : Runtime N O} {web : WebStreams} {asJson : Bool}
    {value : Value N O} {r : Bytes} (h : Written rt (streams web) asJson value r) :
    IsPortable r := by
  cases h with
  | null _ => exact .inl (hasWireTag_withWireTag (by decide) _)
  | text _ _ _ => exact .inr (.inl (hasWireTag_withWireTag (by decide) _))
  | plain _ _ _ _ => exact .inl (hasWireTag_withWireTag (by decide) _)
  | compressed _ _ _ _ hz _ =>
    rw [hz.1]
    exact .inr (.inr (hasWireTag_withWireTag (by decide) _))

/-- What is written is read back.

For every value: `serialize` and `serializePortable` answer a record where the options
are valid and no library throws.  Within the limits each of the two strict readers
answers the value again, null for `undefined` — the Worker reader for the tags that it
knows.  A record with the tag of a codec has saved at least 15 percent of what was
packed. -/
theorem record_round_trip {rt : Runtime N O} {native : NativeCodecs} {web : WebStreams}
    {IsGzip : Bytes → Bytes → Prop} (hm : rt.msgpackr.Lawful) (hn : native.Lawful)
    (hg : SharesGzip native web IsGzip) (legacyUnpack : Bytes → Option (Value N O))
    (limits : ResolvedDecodeLimits) (value : Value N O) :
    (∀ env options, Writable rt native env value options →
      ∃ r, serialize rt native env value options = .ok r) ∧
    (∀ env options r, serialize rt native env value options = .ok r →
      (Fits rt limits (options.asJson env) value → r.length ≤ limits.maxEncodedBytes →
        decodeCacheRecord rt native limits r = .hit value.cached ∧
        (IsPortable r →
          decodePortableCacheRecord rt web legacyUnpack limits r = .hit value.cached)) ∧
      ∀ name tag z, (codec native name).tag = some tag → r = withWireTag tag z →
        ∃ packed, rt.msgpackr.pack value = some packed ∧ Saves packed.length z.length) ∧
    (∀ compression, PortableWritable rt web value →
      ∃ r, serializePortable rt web value compression = .ok r) ∧
    (∀ compression r, serializePortable rt web value compression = .ok r →
      (Fits rt limits false value → r.length ≤ limits.maxEncodedBytes →
        decodePortableCacheRecord rt web legacyUnpack limits r = .hit value.cached ∧
        decodeCacheRecord rt native limits r = .hit value.cached) ∧
      ∀ z, r = withWireTag hc1GzipTag z →
        ∃ packed, rt.msgpackr.pack value = some packed ∧ Saves packed.length z.length) := by
  refine ⟨fun env options h => exists_serialize h, fun env options r hr => ?_,
    fun compression h => exists_serializePortable h compression, fun compression r hr => ?_⟩
  · have hwritten := written_of_serialize hr
    refine ⟨fun hfits hlen => ⟨?_, fun hportable => ?_⟩, fun name tag z htag hz => ?_⟩
    · rw [decodeCacheRecord, DecodedCacheRecord.ofOption_eq_hit]
      refine decodeRecord_written hm ?_ hwritten hfits hlen
      rintro tag packed z ⟨name, htag, hz⟩
      exact ⟨name, htag, fun hmax => decompress_compress hn name hz hmax⟩
    · refine decodePortable_written hm ?_ hwritten hportable hfits hlen
      intro tag packed z hz hportable
      obtain rfl := eq_gzip_of_portable hz hportable
      exact ⟨rfl, fun hmax => hg.transform (hg.gzipSync (compresses_gzip hz)) hmax⟩
    · have htags : IsTag tag ∧ tag ≠ hc1MsgpackTag ∧ tag ≠ hc1JsonTag := by
        refine ⟨isTag_codec native htag, ?_, ?_⟩
        · rintro rfl
          cases name <;> cases htag
        · rintro rfl
          cases name <;> cases htag
      obtain ⟨packed, hpack, -, hsaves⟩ := saves_of_written hwritten htags.1 htags.2.1 htags.2.2
        (fun h => by
          obtain ⟨name, htag, -⟩ := h
          exact isTag_codec native htag) hz
      exact ⟨packed, hpack, hsaves⟩
  · have hwritten := written_of_serializePortable hr
    have hgzip : ∀ {tag packed z}, streams web tag packed z → tag = hc1GzipTag ∧ IsGzip packed z := by
      rintro tag packed z ⟨rfl, hcloses, rfl⟩
      exact ⟨rfl, hg.compressionStream hcloses⟩
    refine ⟨fun hfits hlen => ⟨?_, ?_⟩, fun z hz => ?_⟩
    · refine decodePortable_written hm ?_ hwritten (portable_of_written hwritten) hfits hlen
      intro tag packed z hz _
      exact ⟨(hgzip hz).1, fun hmax => hg.transform (hgzip hz).2 hmax⟩
    · rw [decodeCacheRecord, DecodedCacheRecord.ofOption_eq_hit]
      refine decodeRecord_written hm ?_ hwritten hfits hlen
      intro tag packed z hz
      obtain ⟨rfl, hmember⟩ := hgzip hz
      exact ⟨.gzip, rfl, fun hmax => hg.gunzipSync hmember hmax⟩
    · obtain ⟨packed, hpack, -, hsaves⟩ := saves_of_written hwritten (by decide) (by decide)
        (by decide) (fun h => by
          rw [(hgzip h).1]
          decide) hz
      exact ⟨packed, hpack, hsaves⟩

/-! ### Records of a few values -/

/-- A text that is worth compressing, -/
@[irreducible] def letters : JsString := List.replicate 1024 97

/-- as it is packed, -/
@[irreducible] def packedLetters : Bytes := [0xDA, 0x04, 0x00] ++ List.replicate 1024 0x61

/-- and what gzip makes of that. -/
@[irreducible] def gzippedLetters : Bytes :=
  [31, 139, 8, 0, 0, 0, 0, 0, 0, 3, 187, 197, 194, 144, 56, 10, 70, 193, 40, 24, 177, 0, 0, 173,
    176, 225, 149, 3, 4, 0, 0]

theorem letters_ne {s : JsString} (h : s.length < 1024) : letters ≠ s := by
  rintro rfl
  rw [letters, List.length_replicate] at h
  exact absurd h (by decide)

theorem length_packedLetters : packedLetters.length = 1027 := by
  rw [packedLetters, List.length_append, List.length_replicate]
  rfl

theorem packedLetters_ne {b : Bytes} (h : b.length < 1027) : packedLetters ≠ b := by
  rintro rfl
  exact absurd (length_packedLetters ▸ h) (by decide)

/-- The library on `true`, on the sentinel and on the letters; it throws on everything else. -/
def fewPack : MessagePack Unit Empty where
  pack
    | .json (.bool true) => some [0xC3]
    | .json (.str s) =>
      if s = cacheNullSentinel then some packedSentinel
      else if s = letters then some packedLetters
      else none
    | _ => none
  unpack bytes :=
    if bytes = [0xC3] then some (.json (.bool true))
    else if bytes = packedSentinel then some .sentinel
    else if bytes = packedLetters then some (.json (.str letters))
    else none
  pack_sentinel := if_pos rfl

theorem lawful_fewPack : fewPack.Lawful := by
  intro v b h
  match v with
  | .json (.bool true) =>
    obtain rfl : [0xC3] = b := Option.some.inj h
    rfl
  | .json (.str s) =>
    change (if s = cacheNullSentinel then some packedSentinel
      else if s = letters then some packedLetters else none) = some b at h
    split_ifs at h with hsentinel hletters
    · rw [← Option.some.inj h, hsentinel]
      rfl
    · rw [← Option.some.inj h, hletters]
      show (if packedLetters = [0xC3] then some (.json (.bool true))
        else if packedLetters = packedSentinel then some .sentinel
        else if packedLetters = packedLetters then some (.json (.str letters)) else none) =
          (some (.json (.str letters)) : Option (Value Unit Empty))
      rw [if_neg (packedLetters_ne (by decide)), if_neg (packedLetters_ne (by decide)), if_pos rfl]

def fewRuntime : Runtime Unit Empty where
  msgpackr := fewPack
  numbers := zeroText
  otherText := Empty.elim

/-- Of the libraries only zlib is installed; it throws on all but the letters. -/
def fewCodecs : NativeCodecs :=
  { noCodecs with
    gzipSync := fun b => if b = packedLetters then some gzippedLetters else none
    gunzipSync := fun z max =>
      if z = gzippedLetters ∧ (max.all fun max => packedLetters.length ≤ max) = true then
        some packedLetters
      else none }

theorem lawful_fewCodecs : fewCodecs.Lawful where
  gzip {b z max} h hmax := by
    change (if b = packedLetters then some gzippedLetters else none) = some z at h
    split_ifs at h with hb
    cases h
    rw [hb] at hmax ⊢
    exact if_pos ⟨rfl, decide_eq_true hmax⟩
  zstd := nofun
  lz4 := nofun
  lz4_length := nofun
  snappy := nofun
  snappy_length := nofun

/-- The streams, which hand the bytes out in two chunks. -/
def fewStreams : WebStreams where
  compressionStream b :=
    if b = packedLetters then ⟨[gzippedLetters.take 10, gzippedLetters.drop 10], true⟩
    else ⟨[], false⟩
  decompressionStream z :=
    if z = gzippedLetters then ⟨[packedLetters.take 512, packedLetters.drop 512], true⟩
    else ⟨[], false⟩

theorem compress_fewStreams : fewStreams.compressionStream packedLetters =
    ⟨[gzippedLetters.take 10, gzippedLetters.drop 10], true⟩ := if_pos rfl

theorem decompress_fewStreams : fewStreams.decompressionStream gzippedLetters =
    ⟨[packedLetters.take 512, packedLetters.drop 512], true⟩ := if_pos rfl

theorem sharesGzip_few : SharesGzip fewCodecs fewStreams fun b z =>
    b = packedLetters ∧ z = gzippedLetters where
  gzipSync {b z} h := by
    change (if b = packedLetters then some gzippedLetters else none) = some z at h
    split_ifs at h with hb
    cases h
    exact ⟨hb, rfl⟩
  compressionStream {b} h := by
    by_cases hb : b = packedLetters
    · refine ⟨hb, ?_⟩
      rw [hb, compress_fewStreams]
      simp
    · rw [show fewStreams.compressionStream b = ⟨[], false⟩ from if_neg hb] at h
      cases h
  gunzipSync {b z max} h hmax := by
    obtain ⟨rfl, rfl⟩ := h
    exact if_pos ⟨rfl, decide_eq_true hmax⟩
  decompressionStream {b z} h := by
    obtain ⟨rfl, rfl⟩ := h
    rw [decompress_fewStreams]
    simp

/-- Both writers write these values so: packed, as null, as JSON, or compressed. -/
def fewRecords : List (Value Unit Empty × Bytes) :=
  [(.json (.bool true), withWireTag hc1MsgpackTag [0xC3]),
    (.undefined, withWireTag hc1MsgpackTag packedSentinel),
    (.null, withWireTag hc1MsgpackTag packedSentinel),
    (.sentinel, withWireTag hc1JsonTag (utf8 (stringify zeroText (.str cacheNullSentinel)))),
    (.json (.str letters), withWireTag hc1GzipTag gzippedLetters)]

def gzipOptions : SerializeOptions := { compression := some (.mode .gzip) }

def plainEnvironment : Environment := { tiers := defaultTiers fewCodecs }

theorem ok_of_toOption {ε α : Type} {r : Except ε α} {a : α} (h : r.toOption = some a) :
    r = .ok a := by
  cases r with
  | error e => cases h
  | ok b => rw [Option.some.inj h]

theorem written_few : ∀ p ∈ fewRecords,
    (serialize fewRuntime fewCodecs plainEnvironment p.1 gzipOptions).toOption = some p.2 ∧
    (serializePortable fewRuntime fewStreams p.1 .auto).toOption = some p.2 ∧
    p.2.length ≤ defaultDecodeLimits.maxEncodedBytes := by
  decide +kernel

theorem accepts_packedLetters : Accepts defaultDecodeLimits packedLetters := by
  refine ⟨length_packedLetters ▸ by decide, 0, 0, 1, ?_, by decide, by decide, by decide⟩
  have hutf : IsUtf8 (List.replicate 1024 0x61) := by
    refine ⟨List.replicate 1024 'a', ?_⟩
    have hletter : String.utf8EncodeChar 'a' = [0x61] := by decide
    rw [List.flatMap_replicate, hletter, ← List.replicate_one, List.flatten_replicate_replicate]
  have hsize : Sized (.counted 2) [0x04, 0x00] (List.replicate 1024 (0x61 : UInt8)).length := by
    rw [List.length_replicate]
    exact .counted [0x04, 0x00]
  have hleaf : Leaf (0xDA :: ([0x04, 0x00] ++ List.replicate 1024 0x61)) :=
    .string Tag.str16 hsize hutf
  have hsplit : packedLetters =
      (0xDA :: ([0x04, 0x00] ++ List.replicate 1024 0x61)) ++ [] := by
    rw [packedLetters, List.append_nil, List.cons_append]
  rw [hsplit]
  exact Values.leaf hleaf .nil

theorem fits_few : ∀ p ∈ fewRecords, Fits fewRuntime defaultDecodeLimits false p.1 := by
  have hletters : letters ≠ cacheNullSentinel := letters_ne (by decide)
  have hpacks : fewPack.pack (.json (.str letters)) = some packedLetters := by
    show (if letters = cacheNullSentinel then some packedSentinel
      else if letters = letters then some packedLetters else none) = _
    rw [if_neg hletters, if_pos rfl]
  have hsentinel : ¬ ((.json (.str letters) : Value Unit Empty).isSentinel = true ∨
      false = true) := by
    rintro (h | h)
    · exact hletters (of_decide_eq_true h)
    · cases h
  rw [fewRecords]
  simp only [List.forall_mem_cons, List.not_mem_nil, false_imp_iff, implies_true, and_true]
  refine ⟨?_, ?_, ?_, ?_, ?_⟩
  · intro packed hpack
    obtain rfl : [0xC3] = packed := Option.some.inj hpack
    rfl
  · show packedSentinel.length ≤ _
    decide
  · show packedSentinel.length ≤ _
    decide
  · exact ⟨.str cacheNullSentinel, rfl, ⟨trivial, by decide, by decide, by decide, by decide⟩⟩
  · rw [Fits, if_neg (by decide), if_neg hsentinel]
    intro packed hpack
    obtain rfl := Option.some.inj (hpacks.symm.trans hpack)
    exact isSafeMessagePack_of_accepts accepts_packedLetters

/-- Both readers read the bytes as the value. -/
def ReadBack (p : Value Unit Empty × Bytes) : Prop :=
  decodeCacheRecord fewRuntime fewCodecs defaultDecodeLimits p.2 = .hit p.1.cached ∧
    decodePortableCacheRecord fewRuntime fewStreams (fun _ => none) defaultDecodeLimits p.2 =
      .hit p.1.cached

/-- Each of these records is read back, whichever of the two has written it. -/
theorem record_round_trip_few : fewRecords.Forall ReadBack := by
  rw [List.forall_iff_forall_mem]
  intro p hp
  obtain ⟨hwritten, hwritten', hlen⟩ := written_few p hp
  obtain ⟨-, hnode, -, hworker⟩ := record_round_trip
    (show fewRuntime.msgpackr.Lawful from lawful_fewPack) lawful_fewCodecs sharesGzip_few
    (fun _ => none) defaultDecodeLimits p.1
  obtain ⟨hread, -⟩ := hnode plainEnvironment gzipOptions p.2 (ok_of_toOption hwritten)
  obtain ⟨hread', -⟩ := hworker .auto p.2 (ok_of_toOption hwritten')
  exact ⟨(hread (fits_few p hp) hlen).1, (hread' (fits_few p hp) hlen).1⟩

end Serializer
