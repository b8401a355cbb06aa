/-
The records of Workers KV.

A namespace keeps a value for at least a minute.  A record begins with four bytes that
tell it from any other value, and with the time in milliseconds at which it expires, as
the eight bytes of a number; behind these twelve bytes stands the payload.

* `encodeKVRecord_eq_ok` — what is written, and when;
* `decodeKVRecord_eq_ok` — what is accepted, and how it is read;
* `decode_encode` — what is written is read back;
* `encode_of_decode` — what is accepted is read as a record that can be written;
* `wire_round_trip` — both of these.
-/
import LazyLayers.Binary64
import LazyLayers.EventCodec

open Js Double EventCodec DecodeValidation

namespace KvWire

/-- `LLK1` -/
def header : Bytes := [76, 76, 75, 49]

def headerBytes : ℕ := 12

/-- The errors of the writer. -/
inductive EncodeError
  | expiration
  | size
  deriving DecidableEq, Repr

def EncodeError.message : EncodeError → String
  | expiration => "Cloudflare KV expiration exceeds the safe date range"
  | size => "Cloudflare KV value exceeds 25 MiB"

/-- The errors of the reader. -/
inductive DecodeError
  | header
  | expiration
  deriving DecidableEq, Repr

def DecodeError.message : DecodeError → String
  | header => "Cloudflare KV cache entry has an unsupported wire header"
  | expiration => "Cloudflare KV cache entry has invalid expiration"

def encodeKVRecord (payload : Bytes) (expiresAt : Number) : Except EncodeError Bytes :=
  if !isSafeInteger expiresAt then .error .expiration
  else if 25 * 1024 * 1024 < payload.length + headerBytes then .error .size
  else .ok (header ++ (toBytes expiresAt ++ payload))

/-- What `decodeKVRecord` returns. -/
structure KVEntry where
  payload : Bytes
  ttlRemainingMs : Number

/-- `decodeKVRecord(raw)` at a time. -/
def decodeKVRecord (raw : Bytes) (now : Number) : Except DecodeError KVEntry :=
  if raw.length < headerBytes || !header.isPrefixOf raw then .error .header
  else
    let expiresAt := ofBytes ((raw.drop 4).take 8)
    if !isSafeInteger expiresAt then .error .expiration
    else .ok ⟨raw.drop headerBytes, expiresAt.sub now⟩

variable {payload raw : Bytes} {expiresAt now : Number} {entry : KVEntry}

theorem encodeKVRecord_eq_ok : encodeKVRecord payload expiresAt = .ok raw ↔
    isSafeInteger expiresAt = true ∧ payload.length + headerBytes ≤ 25 * 1024 * 1024 ∧
      raw = header ++ (toBytes expiresAt ++ payload) := by
  rw [encodeKVRecord]
  cases hsafe : isSafeInteger expiresAt with
  | false => exact iff_of_false (fun h => by cases h) (fun h => by cases h.1)
  | true =>
    rw [Bool.not_true, if_neg Bool.false_ne_true]
    split_ifs with hlong
    · exact iff_of_false (fun h => by cases h) (fun h => absurd h.2.1 (Nat.not_le.mpr hlong))
    · constructor
      · intro h
        exact ⟨rfl, Nat.not_lt.mp hlong, (Except.ok.inj h).symm⟩
      · rintro ⟨-, -, rfl⟩
        rfl

/-- A record with a header is four, eight and any number of bytes. -/
theorem decodeKVRecord_append {eight : Bytes} (height : eight.length = 8) :
    decodeKVRecord (header ++ (eight ++ payload)) now =
      if isSafeInteger (ofBytes eight) then .ok ⟨payload, (ofBytes eight).sub now⟩
      else .error .expiration := by
  have hlen : ¬ (header ++ (eight ++ payload)).length < headerBytes := by
    rw [List.length_append, List.length_append, height, header, headerBytes]
    simp only [List.length_cons, List.length_nil]
    omega
  have hbegins : header.isPrefixOf (header ++ (eight ++ payload)) = true :=
    List.isPrefixOf_iff_prefix.mpr (List.prefix_append _ _)
  have htime : ((header ++ (eight ++ payload)).drop 4).take 8 = eight := by
    rw [List.drop_left' (show header.length = 4 from rfl), List.take_left' height]
  have hpayload : (header ++ (eight ++ payload)).drop headerBytes = payload := by
    rw [← List.append_assoc, List.drop_left' (by rw [List.length_append, height]; rfl)]
  rw [decodeKVRecord, hbegins, decide_eq_false hlen, htime, hpayload]
  by_cases hsafe : isSafeInteger (ofBytes eight) = true
  · simp [hsafe]
  · simp [hsafe]

theorem decodeKVRecord_eq_ok : decodeKVRecord raw now = .ok entry ↔
    ∃ eight payload, eight.length = 8 ∧ raw = header ++ (eight ++ payload) ∧
      isSafeInteger (ofBytes eight) = true ∧ entry = ⟨payload, (ofBytes eight).sub now⟩ := by
  constructor
  · intro h
    have hbegins : headerBytes ≤ raw.length ∧ header.isPrefixOf raw = true := by
      rw [decodeKVRecord] at h
      split_ifs at h with hbad
      rw [Bool.or_eq_true, decide_eq_true_eq, Bool.not_eq_true', not_or, Nat.not_lt,
        Bool.not_eq_false] at hbad
      exact hbad
    obtain ⟨rest, rfl⟩ := List.isPrefixOf_iff_prefix.mp hbegins.2
    have hlen : 8 ≤ rest.length := by
      have hle := hbegins.1
      rw [List.length_append, header, headerBytes] at hle
      simp only [List.length_cons, List.length_nil] at hle
      omega
    have height : (rest.take 8).length = 8 := List.length_take_of_le hlen
    rw [← List.take_append_drop 8 rest, decodeKVRecord_append height] at h
    split_ifs at h with hsafe
    exact ⟨rest.take 8, rest.drop 8, height, by rw [List.take_append_drop], hsafe,
      (Except.ok.inj h).symm⟩
  · rintro ⟨eight, payload, height, rfl, hsafe, rfl⟩
    rw [decodeKVRecord_append height, if_pos hsafe]

/-- **What is written is read back**, at any later time. -/
theorem decode_encode (h : encodeKVRecord payload expiresAt = .ok raw) (now : Number) :
    decodeKVRecord raw now = .ok ⟨payload, expiresAt.sub now⟩ := by
  obtain ⟨hsafe, -, rfl⟩ := encodeKVRecord_eq_ok.mp h
  rw [decodeKVRecord_append (length_toBytes expiresAt), ofBytes_toBytes, if_pos hsafe]

/-- What is accepted is read as a record that can be written, if it is not too long. -/
theorem encode_of_decode (h : decodeKVRecord raw now = .ok entry)
    (hlen : raw.length ≤ 25 * 1024 * 1024) :
    ∃ expiresAt written, encodeKVRecord entry.payload expiresAt = .ok written ∧
      written.length = raw.length ∧ ∀ now, decodeKVRecord written now = decodeKVRecord raw now := by
  obtain ⟨eight, payload, height, rfl, hsafe, rfl⟩ := decodeKVRecord_eq_ok.mp h
  have hfits : payload.length + headerBytes ≤ 25 * 1024 * 1024 := by
    rw [List.length_append, List.length_append, height, header] at hlen
    simp only [List.length_cons, List.length_nil] at hlen
    rw [headerBytes]
    omega
  have hwritten : encodeKVRecord payload (ofBytes eight) =
      .ok (header ++ (toBytes (ofBytes eight) ++ payload)) :=
    encodeKVRecord_eq_ok.mpr ⟨hsafe, hfits, rfl⟩
  refine ⟨ofBytes eight, _, hwritten, ?_, fun now => ?_⟩
  · simp only [List.length_append, length_toBytes, height]
  · rw [decode_encode hwritten, decodeKVRecord_append height, if_pos hsafe]

/-- **The records of KV are a format.**  A payload that fits, with a time that is safe, is
written and read back at any time; and what is accepted is read as one that is written, of
the same length, if it is not longer than the namespace allows. -/
theorem wire_round_trip :
    (∀ payload expiresAt, isSafeInteger expiresAt = true →
      payload.length + headerBytes ≤ 25 * 1024 * 1024 →
      ∃ raw, encodeKVRecord payload expiresAt = .ok raw ∧
        ∀ now, decodeKVRecord raw now = .ok ⟨payload, expiresAt.sub now⟩) ∧
    ∀ raw now entry, decodeKVRecord raw now = .ok entry → raw.length ≤ 25 * 1024 * 1024 →
      ∃ expiresAt written, encodeKVRecord entry.payload expiresAt = .ok written ∧
        written.length = raw.length ∧ ∀ now, decodeKVRecord written now = decodeKVRecord raw now := by
  refine ⟨fun payload expiresAt hsafe hsize => ?_, fun raw now entry h => encode_of_decode h⟩
  have hwritten := encodeKVRecord_eq_ok.mpr ⟨hsafe, hsize, rfl⟩
  exact ⟨_, hwritten, decode_encode hwritten⟩

end KvWire
