/-
Where the two strict readers agree.

The Worker reader compares the four bytes of a tag.  The Node reader decodes them as
ASCII first, which drops the highest bit of each byte, so that it also takes bytes for a
tag that are none.  And the Worker decodes a text with a `TextDecoder`, which drops a
byte order mark, where the Node reader hands it to `JSON.parse`, which refuses it.

* `Disguised`, `Marked` — these two kinds of input;
* `Agree` — both readers recognise exactly the tags, and hit on the same records with
  the same values;
* `records_agree_iff` — they agree on every other input, and on these they do not.
-/
import LazyLayers.PortableSerializer

open Js DecodeValidation

namespace Serializer

variable {N O : Type}

/-- The first four bytes are no tag, but without their highest bits they are. -/
def Disguised (input : Bytes) : Prop :=
  ∃ tag ∈ [hc1MsgpackTag, hc1JsonTag, hc1GzipTag],
    (input.take 4).map (fun b => b &&& 0x7F) = tagBytes tag ∧ input.take 4 ≠ tagBytes tag

/-- A text of JSON behind a byte order mark, within the limits. -/
def Marked (T : NumberText N) (limits : ResolvedDecodeLimits) (input : Bytes) : Prop :=
  input.length ≤ limits.maxEncodedBytes ∧ ∃ text : Bytes,
    input = withWireTag hc1JsonTag (byteOrderMark ++ text) ∧
    isSafeJson limits (byteOrderMark ++ text) = true ∧ isUtf8 (byteOrderMark ++ text) = true ∧
    (parse T (decodeUtf8 text)).isSome = true

/-- Both readers recognise the three tags exactly where the first four bytes are the
tag, and on a record with HC1M or HC1J they hit with the same values. -/
def Agree (rt : Runtime N O) (native : NativeCodecs) (web : WebStreams)
    (legacyUnpack : Bytes → Option (Value N O)) (limits : ResolvedDecodeLimits)
    (input : Bytes) : Prop :=
  (∀ tag ∈ [hc1MsgpackTag, hc1JsonTag, hc1GzipTag],
    (recordTag input = tag ↔ ∃ body, input = withWireTag tag body) ∧
    (hasWireTag input tag = true ↔ ∃ body, input = withWireTag tag body)) ∧
  (hasWireTag input hc1MsgpackTag = true ∨ hasWireTag input hc1JsonTag = true → ∀ value,
    decodeCacheRecord rt native limits input = .hit value ↔
      decodePortableCacheRecord rt web legacyUnpack limits input = .hit value)

/-! ### Tags -/

theorem isTag_of_mem {tag : JsString} (h : tag ∈ [hc1MsgpackTag, hc1JsonTag, hc1GzipTag]) :
    IsTag tag := by
  revert tag
  decide

theorem toNat_and_127 (b : UInt8) : (b &&& 0x7F).toNat = b.toNat % 128 := by
  rw [UInt8.toNat_and]
  exact Nat.and_two_pow_sub_one_eq_mod b.toNat 7

/-- ASCII text is the bytes without their highest bits. -/
theorem asciiText_eq_iff {tag : JsString} (h : IsTag tag) (bytes : Bytes) :
    asciiText bytes = tag ↔ bytes.map (fun b => b &&& 0x7F) = tagBytes tag := by
  have hlow : ∀ b : UInt8, (UInt16.ofNat (b.toNat % 128)).toNat = b.toNat % 128 := by
    intro b
    rw [UInt16.toNat_ofNat']
    omega
  constructor
  · rintro rfl
    rw [tagBytes_eq h, asciiText, List.map_map]
    refine List.map_congr_left fun b _ => UInt8.toNat_inj.mp ?_
    rw [toNat_and_127]
    show _ = (UInt8.ofNat (UInt16.ofNat (b.toNat % 128)).toNat).toNat
    rw [hlow, UInt8.toNat_ofNat']
    omega
  · intro hbytes
    rw [← asciiText_tagBytes h, ← hbytes, asciiText, asciiText, List.map_map]
    refine List.map_congr_left fun b _ => ?_
    show UInt16.ofNat (b.toNat % 128) = UInt16.ofNat ((b &&& 0x7F).toNat % 128)
    rw [toNat_and_127, Nat.mod_mod]

theorem recordTag_withWireTag {tag : JsString} (h : IsTag tag) (body : Bytes) :
    recordTag (withWireTag tag body) = tag := by
  rw [recordTag, hc1TagBytes, take_withWireTag h, asciiText_tagBytes h]

/-- The first four bytes are a tag. -/
theorem take_eq_tagBytes_iff {tag : JsString} (input : Bytes) (h : IsTag tag) :
    input.take 4 = tagBytes tag ↔ ∃ body, input = withWireTag tag body := by
  constructor
  · intro htake
    refine ⟨input.drop 4, ?_⟩
    rw [withWireTag, ← htake, List.take_append_drop]
  · rintro ⟨body, rfl⟩
    exact take_withWireTag h body

/-! ### Records -/

variable {rt : Runtime N O} {native : NativeCodecs} {web : WebStreams}
  {legacyUnpack : Bytes → Option (Value N O)} {limits : ResolvedDecodeLimits}

/-- Too long a record is a miss for both. -/
theorem miss_of_long {input : Bytes} (h : limits.maxEncodedBytes < input.length)
    (value : Value N O) : decodeCacheRecord rt native limits input ≠ .hit value ∧
      decodePortableCacheRecord rt web legacyUnpack limits input ≠ .hit value := by
  constructor
  · rw [decodeCacheRecord, decodeRecord, if_pos h]
    intro hhit
    cases hhit
  · rw [decodePortableCacheRecord]
    split_ifs
    · intro hhit
      cases hhit
    · rw [deserializePortable, if_pos (by simpa using h)]
      intro hhit
      cases hhit

theorem agree_msgpack (body : Bytes) (value : Value N O) :
    decodeCacheRecord rt native limits (withWireTag hc1MsgpackTag body) = .hit value ↔
      decodePortableCacheRecord rt web legacyUnpack limits (withWireTag hc1MsgpackTag body) =
        .hit value := by
  have hlength := length_withWireTag (by decide : IsTag hc1MsgpackTag) body
  by_cases hlong : limits.maxEncodedBytes < (withWireTag hc1MsgpackTag body).length
  · obtain ⟨hnode, hworker⟩ := @miss_of_long _ _ rt native web legacyUnpack _ _ hlong value
    exact iff_of_false hnode hworker
  · rw [decodeCacheRecord, DecodedCacheRecord.ofOption_eq_hit, decodeRecord_msgpack (by omega),
      portable_msgpack (by omega), unpackChecked_eq]
    by_cases hsafe : isSafeMessagePack limits body isSafeUtf8 = some true
    · have hbody := length_le_of_isSafe hsafe
      rw [if_neg (by omega), if_pos hsafe, if_pos hsafe]
    · rw [if_neg hsafe, if_neg hsafe]
      -- the Node reader looks for the sentinel before it validates
      have hsentinel : ¬ limits.maxDecodedBytes < body.length → body ≠ packedSentinel := by
        rintro hfits rfl
        exact hsafe (isSafe_packedSentinel (by omega))
      split_ifs with hbody hnull
      · exact Iff.rfl
      · exact absurd hnull (hsentinel hbody)
      · exact Iff.rfl

theorem hit_json_iff {body : Bytes} (hlen : 4 + body.length ≤ limits.maxEncodedBytes)
    (value : Value N O) :
    decodeCacheRecord rt native limits (withWireTag hc1JsonTag body) = .hit value ↔
      (if isSafeJson limits body && isUtf8 body then
        (parse rt.numbers (decodeUtf8 body)).map .json
      else none) = some value := by
  rw [decodeCacheRecord, DecodedCacheRecord.ofOption_eq_hit, decodeRecord_json hlen, parseChecked]

theorem agree_json {body : Bytes}
    (hmarked : ¬ Marked rt.numbers limits (withWireTag hc1JsonTag body)) (value : Value N O) :
    decodeCacheRecord rt native limits (withWireTag hc1JsonTag body) = .hit value ↔
      decodePortableCacheRecord rt web legacyUnpack limits (withWireTag hc1JsonTag body) =
        .hit value := by
  have hlength := length_withWireTag (by decide : IsTag hc1JsonTag) body
  by_cases hlong : limits.maxEncodedBytes < (withWireTag hc1JsonTag body).length
  · obtain ⟨hnode, hworker⟩ := @miss_of_long _ _ rt native web legacyUnpack _ _ hlong value
    exact iff_of_false hnode hworker
  · rw [hit_json_iff (by omega), portable_json (by omega), stripByteOrderMark]
    by_cases hbom : byteOrderMark.isPrefixOf body = true
    · obtain ⟨text, rfl⟩ := List.isPrefixOf_iff_prefix.mp hbom
      rw [if_pos hbom]
      by_cases hsafe : (isSafeJson limits (byteOrderMark ++ text) &&
          isUtf8 (byteOrderMark ++ text)) = true
      · rw [if_pos hsafe, if_pos hsafe]
        have hnode : parse rt.numbers (decodeUtf8 (byteOrderMark ++ text)) = none := by
          have hdecode : decodeUtf8 (byteOrderMark ++ text) = 0xFEFF :: decodeUtf8 text :=
            decodeUtf8_bom text
          rw [hdecode, parse_bom]
        have hworker : parse rt.numbers (decodeUtf8 text) = none := by
          by_contra hsome
          obtain ⟨hjson, hutf⟩ := Bool.and_eq_true_iff.mp hsafe
          exact hmarked ⟨by omega, text, rfl, hjson, hutf,
            Option.isSome_iff_ne_none.mpr hsome⟩
        have hdrop : (byteOrderMark ++ text).drop 3 = text := rfl
        rw [hdrop, hnode, hworker]
      · rw [if_neg hsafe, if_neg hsafe]
    · rw [if_neg hbom]

/-- On every input: the readers agree exactly if the tag is not disguised, and no byte
order mark stands in front of a text that the Worker reads. -/
theorem records_agree_iff (rt : Runtime N O) (native : NativeCodecs) (web : WebStreams)
    (legacyUnpack : Bytes → Option (Value N O)) (limits : ResolvedDecodeLimits)
    (input : Bytes) : Agree rt native web legacyUnpack limits input ↔
      ¬ Disguised input ∧ ¬ Marked rt.numbers limits input := by
  constructor
  · rintro ⟨htags, hhits⟩
    refine ⟨?_, ?_⟩
    · rintro ⟨tag, hmem, hmasked, hne⟩
      have htag := isTag_of_mem hmem
      have hread : recordTag input = tag := (asciiText_eq_iff htag _).mpr hmasked
      exact hne ((take_eq_tagBytes_iff input htag).mpr ((htags tag hmem).1.mp hread))
    · rintro ⟨hlen, text, rfl, hsafe, hutf, hparse⟩
      have htag : IsTag hc1JsonTag := by decide
      rw [length_withWireTag htag] at hlen
      obtain ⟨v, hv⟩ := Option.isSome_iff_exists.mp hparse
      have hworker : decodePortableCacheRecord rt web legacyUnpack limits
          (withWireTag hc1JsonTag (byteOrderMark ++ text)) = .hit (.json v) := by
        have hstrip : stripByteOrderMark (byteOrderMark ++ text) = text :=
          if_pos (List.isPrefixOf_iff_prefix.mpr ⟨text, rfl⟩)
        rw [portable_json hlen, hsafe, hutf, hstrip, hv]
        rfl
      have hnode := (hhits (.inr (hasWireTag_withWireTag htag _)) (.json v)).mpr hworker
      have hdecode : decodeUtf8 (byteOrderMark ++ text) = 0xFEFF :: decodeUtf8 text :=
        decodeUtf8_bom text
      rw [hit_json_iff hlen, hsafe, hutf, hdecode, parse_bom] at hnode
      cases hnode
  · rintro ⟨hdisguised, hmarked⟩
    refine ⟨fun tag hmem => ⟨?_, hasWireTag_iff (isTag_of_mem hmem) input⟩, fun htagged value => ?_⟩
    · have htag := isTag_of_mem hmem
      constructor
      · intro hread
        by_contra hno
        refine hdisguised ⟨tag, hmem, (asciiText_eq_iff htag _).mp hread, fun htake => ?_⟩
        exact hno ((take_eq_tagBytes_iff input htag).mp htake)
      · rintro ⟨body, rfl⟩
        exact recordTag_withWireTag htag body
    · rcases htagged with h | h
      · obtain ⟨body, rfl⟩ := (hasWireTag_iff (by decide) _).mp h
        exact agree_msgpack body value
      · obtain ⟨body, rfl⟩ := (hasWireTag_iff (by decide) _).mp h
        exact agree_json hmarked value

/-- The library on `nil` and on the sentinel; it throws on everything else. -/
def nilPack : MessagePack Unit Empty where
  pack
    | .json .null => some [0xC0]
    | .json (.str s) => if s = cacheNullSentinel then some packedSentinel else none
    | _ => none
  unpack bytes :=
    if bytes = [0xC0] then some .null
    else if bytes = packedSentinel then some .sentinel else none
  pack_sentinel := ite_sentinel

/-- HC1M with the highest bit of its first byte set, and `nil`. -/
def disguisedRecord : Bytes := [0xC8, 0x43, 0x31, 0x4D, 0xC0]

/-- The Node reader takes the record for one with HC1M and hits, the Worker reader
misses. -/
theorem disguisedRecord_disagrees :
    decodeCacheRecord ⟨nilPack, zeroText, nofun⟩ noCodecs defaultDecodeLimits disguisedRecord =
      .hit .null ∧
    decodePortableCacheRecord ⟨nilPack, zeroText, nofun⟩ noStreams (fun _ => none)
      defaultDecodeLimits disguisedRecord = .miss ∧
    ¬ Agree ⟨nilPack, zeroText, nofun⟩ noCodecs noStreams (fun _ => none) defaultDecodeLimits
      disguisedRecord := by
  refine ⟨rfl, rfl, ?_⟩
  rintro ⟨htags, -⟩
  obtain ⟨body, hbody⟩ := (htags hc1MsgpackTag List.mem_cons_self).1.mp rfl
  cases hbody

/-- A byte order mark in front of a text: the Worker reader hits. -/
example : Marked zeroText defaultDecodeLimits
    (withWireTag hc1JsonTag (byteOrderMark ++ utf8 (str "0"))) := by
  refine ⟨by decide, [48], rfl, rfl, ?_, rfl⟩
  exact (isUtf8_iff _).mpr ⟨[Char.ofNat 0xFEFF, '0'], rfl⟩

end Serializer
