/-
The two stores over Workers KV.

`CloudflareKVStore` and `CloudflareWorkerKVStore` put records in a namespace and get them
back.  The namespace is eventually consistent: it answers nothing, or any value that has
been put under the name, however old.  Neither deletion nor overwriting is a bound on what
is read; the time in the record is.

* `cached_of_decodePortable` — a record is read as what it was written for, or not at all;
* `Store.set`, `Store.getWithTtl` — what the stores ask, and what they make of an answer;
* `le_expirationTtl` — the namespace keeps a record at least as long as it is live;
* `Store.read_written`, `Store.read_live` — what one store reads of what another has put;
* `Store.put_until_expired` — that is, the value until it expires and nothing afterwards;
* `read_was_set` — in any run, what is read was set under the same name, and is live.
-/
import LazyLayers.KvWire
import LazyLayers.RecordRoundTrip

open Js Double EventCodec DecodeValidation

/-! ### Times -/

namespace KvStore

/-- `Date.now()` -/
def dateNow (now : ℕ) : Number := .ofRat ((now : ℤ) : ℚ)

/-- `x + y` -/
def plus (x y : Number) : Number := x.sub y.neg

theorem isSafeInteger_finite {q : ℚ} (hq : IsDouble q) : isSafeInteger (.finite q hq) = true ↔
    ∃ n : ℤ, q = n ∧ n.natAbs < 2 ^ 53 := by
  rw [isSafeInteger, Bool.and_eq_true, decide_eq_true_eq, decide_eq_true_eq]
  constructor
  · rintro ⟨hden, hnum⟩
    exact ⟨q.num, (Rat.coe_int_num_of_den_eq_one hden).symm, hnum⟩
  · rintro ⟨n, rfl, hn⟩
    exact ⟨Rat.den_intCast n, by rwa [Rat.num_intCast]⟩

theorem scaled_limit : Scaled (2 ^ 53 : ℚ) := by
  have hscaled := @scaled_intCast (2 ^ 53) (by norm_num)
  push_cast at hscaled
  exact hscaled

/-- Rounding does not make a large number safe. -/
theorem not_isSafeInteger_ofRat {q : ℚ} (h : 2 ^ 53 ≤ q) : isSafeInteger (.ofRat q) = false := by
  have hround : 2 ^ 53 ≤ Double.round q := le_round scaled_limit h
  rw [Number.ofRat]
  split_ifs with hfinite hpos
  · rw [← Bool.not_eq_true, isSafeInteger_finite]
    rintro ⟨n, hn, hsafe⟩
    rw [hn] at hround
    have hlarge : (2 : ℤ) ^ 53 ≤ n := by exact_mod_cast hround
    omega
  · rfl
  · rfl

theorem ofRat_le_zero {q : ℚ} (h : q ≤ 0) : (Number.ofRat q).le zero = true := by
  have hround : Double.round q ≤ 0 := round_le isDouble_zero.1 h
  rw [Number.ofRat]
  split_ifs with hfinite hpos
  · exact decide_eq_true hround
  · exact absurd hpos (not_lt.mpr h)
  · rfl

theorem ofRat_intCast {n : ℤ} (h : |n| ≤ 2 ^ 53) :
    Number.ofRat (n : ℚ) = .finite n (isDouble_intCast h) := Number.ofRat_of_isDouble _

/-- A time is a number, or it is larger than any that is safe. -/
theorem dateNow_cases (now : ℕ) :
    (now ≤ 2 ^ 53 ∧ ∃ h, dateNow now = .finite ((now : ℤ) : ℚ) h) ∨
      2 ^ 53 < now ∧ ((∃ q h, 2 ^ 53 ≤ q ∧ dateNow now = .finite q h) ∨ dateNow now = .infinity) := by
  by_cases hnow : now ≤ 2 ^ 53
  · exact .inl ⟨hnow, _, ofRat_intCast (by rw [Nat.abs_cast]; exact_mod_cast hnow)⟩
  · have hlarge : (2 : ℚ) ^ 53 ≤ ((now : ℤ) : ℚ) := by
      exact_mod_cast (not_le.mp hnow).le
    refine .inr ⟨not_le.mp hnow, ?_⟩
    rw [dateNow, Number.ofRat]
    split_ifs with hfinite hpos
    · exact .inl ⟨_, isDouble_round hfinite, le_round scaled_limit hlarge, rfl⟩
    · exact .inr rfl
    · exact absurd (lt_of_lt_of_le (by norm_num) hlarge) hpos

/-- The time at which a record expires is safe if it is exact. -/
theorem plus_of_isSafeInteger {now : ℕ} {t : ℤ} (ht : 0 < t) (hsafe : t < 2 ^ 53)
    (hdouble : IsDouble (t : ℚ)) (h : isSafeInteger (plus (dateNow now) (.finite t hdouble)) = true) :
    now + t < 2 ^ 53 ∧ ∃ hsum, plus (dateNow now) (.finite t hdouble) =
      .finite ((now + t : ℤ) : ℚ) hsum := by
  have hsum : ∀ q : ℚ, q - -(t : ℚ) = q + t := fun q => sub_neg_eq_add q _
  have htpos : (0 : ℚ) < t := by exact_mod_cast ht
  obtain ⟨hle, hd, hnow⟩ | ⟨-, ⟨q, hd, hq, hnow⟩ | hnow⟩ := dateNow_cases now
  · rw [hnow, plus, Number.neg, Number.sub, hsum, ← Int.cast_add] at h ⊢
    have hlt : (now : ℤ) + t < 2 ^ 53 := by
      by_contra hlarge
      rw [not_isSafeInteger_ofRat (by exact_mod_cast not_lt.mp hlarge)] at h
      cases h
    have habs : |(now : ℤ) + t| ≤ 2 ^ 53 := by
      rw [abs_of_nonneg (by omega)]
      exact hlt.le
    exact ⟨hlt, _, ofRat_intCast habs⟩
  · rw [hnow, plus, Number.neg, Number.sub, hsum,
      not_isSafeInteger_ofRat (hq.trans (le_add_of_nonneg_right htpos.le))] at h
    cases h
  · rw [hnow] at h
    cases h

theorem isSafeInteger_plus {now t : ℕ} (h : now + t < 2 ^ 53) (hdouble : IsDouble ((t : ℤ) : ℚ)) :
    isSafeInteger (plus (dateNow now) (.finite ((t : ℤ) : ℚ) hdouble)) = true := by
  have habs : |((now + t : ℕ) : ℤ)| ≤ 2 ^ 53 := by
    rw [Nat.abs_cast]
    exact_mod_cast h.le
  have hsum : ((now : ℤ) : ℚ) - -((t : ℤ) : ℚ) = ((now + t : ℕ) : ℤ) := by
    push_cast
    ring
  obtain ⟨-, hd, hnow⟩ | ⟨hlarge, -⟩ := dateNow_cases now
  · rw [hnow, plus, Number.neg, Number.sub, hsum, ofRat_intCast habs, isSafeInteger_finite]
    exact ⟨_, rfl, h⟩
  · omega

/-- A record is live exactly before it expires, and what is left of its time is exact. -/
theorem sub_dateNow {e : ℤ} (hsafe : |e| < 2 ^ 53) (hdouble : IsDouble (e : ℚ)) (now : ℕ) :
    (e ≤ now → ((Number.finite e hdouble).sub (dateNow now)).le zero = true) ∧
      (now < e → ∃ hleft, (Number.finite e hdouble).sub (dateNow now) =
        .finite ((e - now : ℤ) : ℚ) hleft) := by
  have hbound := abs_lt.mp hsafe
  obtain ⟨hle, hd, hnow⟩ | ⟨hlarge, ⟨q, hd, hq, hnow⟩ | hnow⟩ := dateNow_cases now
  · rw [hnow, Number.sub, ← Int.cast_sub]
    refine ⟨fun h => ofRat_le_zero (by exact_mod_cast sub_nonpos.mpr h), fun h => ?_⟩
    exact ⟨_, ofRat_intCast (by rw [abs_of_nonneg (by omega)]; omega)⟩
  · rw [hnow, Number.sub]
    refine ⟨fun _ => ofRat_le_zero (sub_nonpos.mpr (le_trans ?_ hq)), fun h => by omega⟩
    exact_mod_cast hbound.2.le
  · rw [hnow]
    exact ⟨fun _ => rfl, fun h => by omega⟩

end KvStore

/-! ### Reading a record -/

namespace Serializer

variable {N O : Type} {rt : Runtime N O} {web : WebStreams}
  {legacyUnpack : Bytes → Option (Value N O)} {limits : ResolvedDecodeLimits}

/-- The stream that expands gzip undoes the one that compresses. -/
def WebStreams.Lawful (web : WebStreams) : Prop :=
  ∀ {b}, (web.compressionStream b).closes = true →
    (web.decompressionStream (web.compressionStream b).chunks.flatten).closes = true ∧
      (web.decompressionStream (web.compressionStream b).chunks.flatten).chunks.flatten = b

/-- Streams that share the format of gzip with the native functions. -/
theorem SharesGzip.lawful {native : NativeCodecs} {IsGzip : Bytes → Bytes → Prop}
    (h : SharesGzip native web IsGzip) : web.Lawful :=
  fun hcloses => h.decompressionStream (h.compressionStream hcloses)

theorem WebStreams.Lawful.transform (h : web.Lawful) {tag : JsString} {b z : Bytes}
    (hz : streams web tag b z) (max : ℕ) :
    transform (web.decompressionStream z) max = if b.length ≤ max then some b else none := by
  obtain ⟨-, hcloses, rfl⟩ := hz
  obtain ⟨hexpands, hflatten⟩ := h hcloses
  rw [transform_eq, hexpands, hflatten]
  simp only [true_and]

theorem eq_of_unpack (hm : rt.msgpackr.Lawful) {packed : Bytes} {value w : Value N O}
    (hv : rt.msgpackr.pack value = some packed) (hne : value.isSentinel = false)
    (h : (if isSafeMessagePack limits packed isSafeUtf8 = some true then
        if packed = packedSentinel then some .null else rt.msgpackr.unpack packed
      else none) = some w) : w = value := by
  rw [if_neg (packed_ne_sentinel hm hv hne), hm hv] at h
  split_ifs at h
  exact (Option.some.inj h).symm

theorem length_le_of_portable {r : Bytes} (hr : IsPortable r) {w : Value N O}
    (h : decodePortableCacheRecord rt web legacyUnpack limits r = .hit w) :
    r.length ≤ limits.maxEncodedBytes := by
  rw [decodePortable_eq_hit hr, deserializePortable, Option.any_some] at h
  by_contra hlong
  rw [if_pos (by simpa using hlong)] at h
  cases h

/-- A record is read as the value that it was written for, or not at all. -/
theorem cached_of_decodePortable (hm : rt.msgpackr.Lawful) (hweb : web.Lawful)
    {value w : Value N O} {r : Bytes} (hwritten : Written rt (streams web) false value r)
    (h : decodePortableCacheRecord rt web legacyUnpack limits r = .hit w) : w = value.cached := by
  have hlen := length_le_of_portable (portable_of_written hwritten) h
  cases hwritten with
  | null hnull =>
    rw [length_withWireTag (by decide)] at hlen
    rw [portable_msgpack hlen, if_pos rfl] at h
    split_ifs at h
    rw [Value.cached_eq_null hnull]
    exact (Option.some.inj h).symm
  | @text json hnull hformat htext =>
    rcases hformat with hsentinel | hformat
    · obtain rfl := Value.isSentinel_iff.mp hsentinel
      have hproper : (Json.str cacheNullSentinel : Json N).Proper := trivial
      obtain rfl : stringify rt.numbers (.str cacheNullSentinel) = json := Option.some.inj htext
      rw [length_withWireTag (by decide)] at hlen
      rw [portable_json hlen, stripByteOrderMark_stringify rt.numbers hproper,
        decodeUtf8_utf8 (wellFormed_stringify rt.numbers _), parse_stringify rt.numbers hproper] at h
      split_ifs at h
      exact (Option.some.inj h).symm
    · cases hformat
  | plain hnull hsentinel _ hpack =>
    rw [length_withWireTag (by decide)] at hlen
    rw [portable_msgpack hlen] at h
    rw [Value.cached_eq_self hnull]
    exact eq_of_unpack hm hpack hsentinel h
  | compressed hnull hsentinel _ hpack hz _ =>
    obtain rfl := hz.1
    rw [length_withWireTag (by decide)] at hlen
    obtain ⟨expanded, hexpanded, h⟩ := (portable_gzip hlen w).mp h
    rw [hweb.transform hz] at hexpanded
    split_ifs at hexpanded
    obtain rfl := Option.some.inj hexpanded
    rw [Value.cached_eq_self hnull]
    exact eq_of_unpack hm hpack hsentinel h

end Serializer

/-! ### The stores -/

namespace KvStore

open Serializer (Value Runtime WebStreams CloudflareKVCompression PortableWriteError
  serializePortable decodePortableCacheRecord)

/-- The options of a store and of a call, as far as both stores read them. -/
structure KvOptions where
  ttlMs : Option Number := none
  l2TtlMs : Option Number := none
  l2MaxEntries : Option Number := none

/-- `CloudflareKVStore` of Node and `CloudflareWorkerKVStore`. -/
inductive Side
  | node
  | worker
  deriving DecidableEq, Repr

/-- A store; its constructor refuses the empty prefix. -/
structure Store where
  side : Side
  storePrefix : JsString
  nonempty : storePrefix ≠ []
  own : KvOptions
  compression : CloudflareKVCompression
  limits : ResolvedDecodeLimits

inductive KvError (N O : Type)
  | key
  | maxEntries
  | ttl
  | write (e : PortableWriteError N O)
  | encode (e : KvWire.EncodeError)

/-- The texts of the stores' own errors. -/
def KvError.message {N O : Type} : KvError N O → Option String
  | key => some "Cloudflare KV key exceeds 512 bytes"
  | maxEntries => some "Cloudflare KV does not support L2 maxEntries"
  | ttl => some "Cloudflare KV TTL must be a positive safe integer"
  | encode e => some e.message
  | write _ => none

/-- What a store asks of its namespace. -/
inductive Request
  | put (name : JsString) (value : Bytes) (expirationTtl : ℤ)
  | delete (name : JsString)

/-- `DEFAULT_CACHE_TTL_MS` and `DEFAULT_TTL_MS` -/
def defaultTtlMs : Number := .ofRat ((60 * 60 * 1000 : ℤ) : ℚ)

theorem defaultTtlMs_eq : ∃ hd, defaultTtlMs = .finite (((3600000 : ℕ) : ℤ) : ℚ) hd := by
  have hcount : (60 * 60 * 1000 : ℤ) = ((3600000 : ℕ) : ℤ) := by norm_num
  rw [defaultTtlMs, hcount]
  exact ⟨_, ofRat_intCast (by norm_num)⟩

theorem le_roundInt_add (q : ℚ) : q ≤ roundInt q + 1 / 2 := by
  have hlt := Int.lt_floor_add_one q
  rw [roundInt]
  split_ifs with hbelow habove
  · linarith
  · push_cast
    linarith
  · -- halfway, one of the two neighbours
    have hparity : (0 : ℚ) ≤ (⌊q⌋ % 2 : ℤ) := by
      exact_mod_cast Int.emod_nonneg _ (by norm_num)
    push_cast at hparity ⊢
    linarith

/-- `Math.max(60, Math.ceil(ttlMs / 1_000))`, in seconds. -/
def expirationTtl (ttlMs : Number) : ℤ :=
  match ttlMs.div (.ofRat ((1000 : ℤ) : ℚ)) with
  | .finite q _ => max 60 ⌈q⌉
  | _ => 60

/-- The last place of a number below 2^44 is small enough to round by less than a
thousandth. -/
theorem sub_lt_round {q : ℚ} (hpos : 0 < q) (hsmall : q < 2 ^ (44 : ℤ)) :
    q - 1 / 1000 < Double.round q := by
  have hunit : (2 : ℚ) ^ quantum q ≤ 2 ^ (-9 : ℤ) := by
    refine zpow_le_zpow_right₀ (by norm_num) ?_
    have hlog : Int.log 2 |q| < 44 := by
      rw [abs_of_pos hpos]
      exact (Int.lt_zpow_iff_log_lt Nat.one_lt_two hpos).mp (by exact_mod_cast hsmall)
    rw [quantum]
    omega
  have hnear : q ≤ Double.round q + 1 / 2 * 2 ^ quantum q := by
    rw [Double.round, ← add_mul, ← div_le_iff₀ (Double.zpow_pos _)]
    exact le_roundInt_add (q / 2 ^ quantum q)
  have hhalf : 1 / 2 * (2 : ℚ) ^ quantum q < 1 / 1000 := by
    calc 1 / 2 * (2 : ℚ) ^ quantum q ≤ 1 / 2 * 2 ^ (-9 : ℤ) :=
          mul_le_mul_of_nonneg_left hunit (by norm_num)
      _ < 1 / 1000 := by norm_num
  linarith

/-- The quotient is not rounded down to a whole number of seconds, so that the namespace
keeps a record for at least as long as it is live. -/
theorem le_expirationTtl {t : ℕ} (hpos : 0 < t) (hlt : t < 2 ^ 53)
    (hd : IsDouble ((t : ℤ) : ℚ)) :
    60 ≤ expirationTtl (.finite ((t : ℤ) : ℚ) hd) ∧
      t ≤ expirationTtl (.finite ((t : ℤ) : ℚ) hd) * 1000 := by
  have hq : (0 : ℚ) < (t : ℤ) / (1000 : ℤ) := by
    have hcast : (0 : ℚ) < (t : ℤ) := by exact_mod_cast hpos
    positivity
  set q : ℚ := (t : ℤ) / (1000 : ℤ) with hquotient
  have hsmall : q < 2 ^ (44 : ℤ) := by
    have hcast : (((t : ℤ) : ℚ)) < 2 ^ 53 := by exact_mod_cast hlt
    rw [hquotient, div_lt_iff₀ (by norm_num)]
    refine hcast.trans ?_
    norm_num
  have hround := sub_lt_round hq hsmall
  have hfinite : |Double.round q| < 2 ^ 1024 := by
    have hzero : 0 ≤ Double.round q := le_round isDouble_zero.1 hq.le
    have hle : Double.round q ≤ 2 ^ 53 := by
      refine round_le scaled_limit (hsmall.le.trans ?_)
      norm_num
    rw [abs_of_nonneg hzero]
    exact hle.trans_lt (pow_lt_pow_right₀ (by norm_num) (by norm_num))
  have hdiv : (Number.finite ((t : ℤ) : ℚ) hd).div (.ofRat ((1000 : ℤ) : ℚ)) =
      .finite (Double.round q) (isDouble_round hfinite) := by
    rw [ofRat_intCast (by norm_num), Number.div, if_neg (by norm_num), ← hquotient, Number.ofRat,
      dif_pos hfinite]
  have hceil := Int.le_ceil (Double.round q)
  rw [expirationTtl, hdiv]
  refine ⟨le_max_left .., ?_⟩
  have hseconds : (t : ℤ) ≤ ⌈Double.round q⌉ * 1000 := by
    have hcount : ((t : ℤ) : ℚ) = q * 1000 := by
      rw [hquotient]
      push_cast
      field_simp
    have hless : (((t : ℤ) - 1 : ℤ) : ℚ) < (⌈Double.round q⌉ * 1000 : ℤ) := by
      push_cast at hcount ⊢
      linarith
    have hint : (t : ℤ) - 1 < ⌈Double.round q⌉ * 1000 := by exact_mod_cast hless
    omega
  exact hseconds.trans (mul_le_mul_of_nonneg_right (le_max_right ..) (by norm_num))

namespace Store

variable {N O : Type} (rt : Runtime N O) (web : WebStreams)
  (legacyUnpack : Bytes → Option (Value N O)) (s : Store)

/-- `key(key)` -/
def fullName (key : CacheKey) : Except (KvError N O) JsString :=
  let name := s.storePrefix ++ key.text
  if 512 < (utf8 name).length then .error .key else .ok name

/-- The first lifetime that is given.  Node looks in one more place. -/
def givenTtl (options : KvOptions) : Number :=
  let given := options.l2TtlMs.or options.ttlMs
  let own :=
    match s.side with
    | .node => s.own.l2TtlMs.or s.own.ttlMs
    | .worker => s.own.ttlMs
  (given.or own).getD defaultTtlMs

/-- `ttl(options)` -/
def ttl (options : KvOptions) : Except (KvError N O) Number :=
  if options.l2MaxEntries.isSome then .error .maxEntries
  else
    let ttlMs := s.givenTtl options
    if !isSafeInteger ttlMs || ttlMs.le zero then .error .ttl else .ok ttlMs

/-- `set(key, value, options)` at a time. -/
def set (now : ℕ) (key : CacheKey) (value : Value N O) (options : KvOptions) :
    Except (KvError N O) Request :=
  if value.isUndefined then (s.fullName key).map .delete
  else do
    let ttlMs ← s.ttl options
    let payload ← (serializePortable rt web value s.compression).mapError .write
    let raw ← (KvWire.encodeKVRecord payload (plus (dateNow now) ttlMs)).mapError .encode
    let name ← s.fullName key
    return .put name raw (expirationTtl ttlMs)

/-- What is made of an answer of the namespace. -/
def read (now : ℕ) (raw : Bytes) : Option (Value N O × Number) :=
  if s.limits.maxEncodedBytes + 12 < raw.length then none
  else
    match KvWire.decodeKVRecord raw (dateNow now) with
    | .error _ => none
    | .ok entry =>
      if entry.ttlRemainingMs.le zero then none
      else
        match decodePortableCacheRecord rt web legacyUnpack s.limits entry.payload with
        | .miss => none
        | .hit value => some (value, entry.ttlRemainingMs)

/-- `getWithTtl(key)` at a time, of a namespace that answers as `serve` does; `get` and
`has` return a part of it. -/
def getWithTtl (now : ℕ) (key : CacheKey) (serve : JsString → Option Bytes) :
    Except (KvError N O) (Option (Value N O × Number)) :=
  (s.fullName key).map fun name => (serve name).bind (s.read rt web legacyUnpack now)

variable {rt : Runtime N O} {web : WebStreams} {legacyUnpack : Bytes → Option (Value N O)} {s : Store}

theorem fullName_eq {key : CacheKey} (h : (utf8 (s.storePrefix ++ key.text)).length ≤ 512) :
    (s.fullName key : Except (KvError N O) JsString) = .ok (s.storePrefix ++ key.text) :=
  if_neg (not_lt.mpr h)

theorem ttl_eq_ok {options : KvOptions} {x : Number}
    (h : (s.ttl options : Except (KvError N O) Number) = .ok x) :
    ∃ t : ℕ, 0 < t ∧ t < 2 ^ 53 ∧ ∃ hd, x = .finite ((t : ℤ) : ℚ) hd := by
  rw [ttl] at h
  dsimp only at h
  split_ifs at h with hmax hbad
  rw [Bool.or_eq_true, not_or, Bool.not_eq_true', Bool.not_eq_false] at hbad
  obtain rfl : s.givenTtl options = x := Except.ok.inj h
  obtain ⟨hsafe, hpos⟩ := hbad
  cases hx : s.givenTtl options with
  | infinity | negInfinity | nan =>
    rw [hx] at hsafe
    cases hsafe
  | finite q hq =>
    rw [hx] at hsafe hpos
    obtain ⟨n, rfl, hn⟩ := (isSafeInteger_finite hq).mp hsafe
    have hnpos : 0 < n := by
      rw [zero, Number.le, decide_eq_true_eq, not_le] at hpos
      exact_mod_cast hpos
    obtain ⟨t, rfl⟩ := Int.eq_ofNat_of_zero_le hnpos.le
    exact ⟨t, by omega, by omega, hq, rfl⟩

theorem exists_of_bind {ε α β : Type} {x : Except ε α} {f : α → Except ε β} {b : β}
    (h : x >>= f = .ok b) : ∃ a, x = .ok a ∧ f a = .ok b := by
  cases x with
  | error e => cases h
  | ok a => exact ⟨a, rfl, h⟩

theorem ok_of_mapError {ε ε' α : Type} {x : Except ε α} {f : ε → ε'} {a : α}
    (h : x.mapError f = .ok a) : x = .ok a := by
  cases x with
  | error e => cases h
  | ok b => rw [Except.ok.inj h]

/-- What a store puts. -/
structure Puts (rt : Runtime N O) (web : WebStreams) (s : Store) (now : ℕ) (key : CacheKey)
    (value : Value N O) (options : KvOptions) (name : JsString) (raw : Bytes) (t : ℕ) : Prop where
  name_eq : name = s.storePrefix ++ key.text
  ttl : ∃ hd, (s.ttl options : Except (KvError N O) Number) = .ok (.finite ((t : ℤ) : ℚ) hd)
  pos : 0 < t
  expires : now + t < 2 ^ 53
  record : ∃ payload hd, serializePortable rt web value s.compression = .ok payload ∧
    KvWire.encodeKVRecord payload (.finite ((now + t : ℤ) : ℚ) hd) = .ok raw

/-- A record of a store is kept by the namespace for at least a minute, and for as long as
it is live. -/
theorem puts_of_set {now : ℕ} {key : CacheKey} {value : Value N O} {options : KvOptions}
    {name : JsString} {raw : Bytes} {seconds : ℤ}
    (h : s.set rt web now key value options = .ok (.put name raw seconds)) :
    ∃ t, Puts rt web s now key value options name raw t ∧ 60 ≤ seconds ∧ t ≤ seconds * 1000 := by
  rw [set] at h
  split_ifs at h with hundefined
  · cases hname : (s.fullName key : Except (KvError N O) JsString) with
    | error e =>
      rw [hname] at h
      cases h
    | ok name =>
      rw [hname] at h
      cases h
  obtain ⟨ttlMs, httl, h⟩ := exists_of_bind h
  obtain ⟨payload, hpayload, h⟩ := exists_of_bind h
  obtain ⟨written, hraw, h⟩ := exists_of_bind h
  obtain ⟨full, hname, h⟩ := exists_of_bind h
  obtain ⟨rfl, rfl, rfl⟩ := Request.put.inj (Except.ok.inj h)
  have hraw := ok_of_mapError hraw
  obtain ⟨t, hpos, hlt, hd, rfl⟩ := ttl_eq_ok httl
  have hsafe := (KvWire.encodeKVRecord_eq_ok.mp hraw).1
  obtain ⟨hexpires, hsum, hplus⟩ := plus_of_isSafeInteger (by omega) (by omega) hd hsafe
  rw [hplus] at hraw
  rw [fullName] at hname
  split_ifs at hname
  exact ⟨t, ⟨(Except.ok.inj hname).symm, ⟨hd, httl⟩, hpos, by exact_mod_cast hexpires,
    payload, hsum, ok_of_mapError hpayload, hraw⟩, le_expirationTtl hpos hlt hd⟩

/-- A value that can be packed is put, if it is not too long and does not expire too late. -/
theorem exists_set {now t : ℕ} {key : CacheKey} {value : Value N O} {options : KvOptions}
    {payload : Bytes} {hd : IsDouble ((t : ℤ) : ℚ)} (hdefined : value.isUndefined = false)
    (httl : (s.ttl options : Except (KvError N O) Number) = .ok (.finite ((t : ℤ) : ℚ) hd))
    (hexpires : now + t < 2 ^ 53) (hpayload : serializePortable rt web value s.compression = .ok payload)
    (hsize : payload.length + 12 ≤ 25 * 1024 * 1024)
    (hname : (utf8 (s.storePrefix ++ key.text)).length ≤ 512) :
    ∃ raw, s.set rt web now key value options = .ok (.put (s.storePrefix ++ key.text) raw
      (expirationTtl (.finite ((t : ℤ) : ℚ) hd))) := by
  refine ⟨KvWire.header ++ (toBytes (plus (dateNow now) (.finite ((t : ℤ) : ℚ) hd)) ++ payload), ?_⟩
  have hraw := KvWire.encodeKVRecord_eq_ok.mpr ⟨isSafeInteger_plus hexpires hd, hsize, rfl⟩
  rw [set, hdefined, if_neg Bool.false_ne_true]
  simp only [bind, Except.bind, httl, hpayload, Except.mapError, hraw, fullName_eq hname]
  rfl

/-- The hour that a store gives where no lifetime is named. -/
theorem ttl_default {options : KvOptions} (hmax : options.l2MaxEntries = none)
    (hgiven : s.givenTtl options = defaultTtlMs) :
    ∃ hd, (s.ttl options : Except (KvError N O) Number) =
      .ok (.finite (((3600000 : ℕ) : ℤ) : ℚ) hd) := by
  obtain ⟨hd, hdefault⟩ := defaultTtlMs_eq
  refine ⟨hd, ?_⟩
  have hsafe : isSafeInteger (.finite (((3600000 : ℕ) : ℤ) : ℚ) hd) = true :=
    (isSafeInteger_finite hd).mpr ⟨_, rfl, by norm_num⟩
  have hpos : (Number.finite (((3600000 : ℕ) : ℤ) : ℚ) hd).le zero = false := by
    rw [zero, Number.le, decide_eq_false_iff_not]
    norm_num
  rw [ttl, hmax, hgiven, hdefault]
  simp only [Option.isSome_none, Bool.false_eq_true, if_false, hsafe, hpos, Bool.not_true,
    Bool.or_self]

/-- A record of a store is live for the time it was given, and what is left of that is
exact. -/
theorem Puts.decodes {now t : ℕ} {key : CacheKey} {value : Value N O} {options : KvOptions}
    {name : JsString} {raw : Bytes} (h : Puts rt web s now key value options name raw t) :
    ∃ payload, serializePortable rt web value s.compression = .ok payload ∧
      raw.length = payload.length + 12 ∧ ∀ now', ∃ left,
        KvWire.decodeKVRecord raw (dateNow now') = .ok ⟨payload, left⟩ ∧
        (now + t ≤ now' → left.le zero = true) ∧
        (now' < now + t → left.le zero = false ∧ left.natural = some (now + t - now')) := by
  have hexpires := h.expires
  obtain ⟨payload, hd, hpayload, hraw⟩ := h.record
  have hsafe : |(now + t : ℤ)| < 2 ^ 53 := by
    rw [abs_of_nonneg (by omega)]
    omega
  have hlength : raw.length = payload.length + 12 := by
    obtain ⟨-, -, rfl⟩ := KvWire.encodeKVRecord_eq_ok.mp hraw
    rw [List.length_append, List.length_append, length_toBytes, KvWire.header]
    simp only [List.length_cons, List.length_nil]
    omega
  refine ⟨payload, hpayload, hlength, fun now' => ⟨_, KvWire.decode_encode hraw _, ?_, ?_⟩⟩
  · intro hpast
    exact (sub_dateNow hsafe hd now').1 (by omega)
  · intro hlive
    obtain ⟨hleft, hsub⟩ := (sub_dateNow hsafe hd now').2 (by omega)
    have hcast : ((now + t - now' : ℕ) : ℤ) = now + t - now' := by omega
    simp only [hsub, ← hcast, Number.natural_intCast, and_true]
    rw [zero, Number.le, decide_eq_false_iff_not, not_le]
    exact_mod_cast (by omega : 0 < now + t - now')

/-- What one store makes of a record of another: the value, and what is left of its time,
unless it has expired. -/
theorem read_written (hm : rt.msgpackr.Lawful) (hweb : web.Lawful) {writer : Store}
    {now now' t : ℕ} {key : CacheKey} {value w : Value N O} {options : KvOptions}
    {name : JsString} {raw : Bytes} {left : Number}
    (hputs : Puts rt web writer now key value options name raw t)
    (h : s.read rt web legacyUnpack now' raw = some (w, left)) :
    w = value.cached ∧ ∃ d : ℕ, left.natural = some d ∧ 0 < d ∧ now' + d = now + t := by
  obtain ⟨payload, hpayload, -, hdecodes⟩ := hputs.decodes
  obtain ⟨left', hdecode, hpast, hlive⟩ := hdecodes now'
  rw [read, hdecode] at h
  split_ifs at h with hlong
  dsimp only at h
  split_ifs at h with hexpired
  have hbefore : now' < now + t := by
    by_contra hpassed
    exact hexpired (hpast (not_lt.mp hpassed))
  cases hdecoded : decodePortableCacheRecord rt web legacyUnpack s.limits payload with
  | miss =>
    rw [hdecoded] at h
    cases h
  | hit read =>
    rw [hdecoded] at h
    obtain ⟨rfl, rfl⟩ := Prod.mk.inj (Option.some.inj h)
    have hwritten := Serializer.written_of_serializePortable hpayload
    exact ⟨Serializer.cached_of_decodePortable hm hweb hwritten hdecoded, now + t - now',
      (hlive hbefore).2, by omega, by omega⟩

/-- A record within the limits is read until it expires. -/
theorem read_live (hm : rt.msgpackr.Lawful) (hweb : web.Lawful)
    (legacyUnpack : Bytes → Option (Value N O)) {writer : Store}
    {now now' t : ℕ} {key : CacheKey} {value : Value N O} {options : KvOptions}
    {name : JsString} {raw : Bytes} (hputs : Puts rt web writer now key value options name raw t)
    (hfits : Serializer.Fits rt s.limits false value)
    (hlen : raw.length ≤ s.limits.maxEncodedBytes + 12) (hlive : now' < now + t) :
    ∃ left, s.read rt web legacyUnpack now' raw = some (value.cached, left) := by
  obtain ⟨payload, hpayload, hlength, hdecodes⟩ := hputs.decodes
  obtain ⟨left, hdecode, -, hleft⟩ := hdecodes now'
  have hwritten := Serializer.written_of_serializePortable hpayload
  have hhit : decodePortableCacheRecord rt web legacyUnpack s.limits payload = .hit value.cached :=
    Serializer.decodePortable_written hm
      (fun hz _ => ⟨hz.1, fun hmax => by rw [hweb.transform hz, if_pos hmax]⟩) hwritten
      (Serializer.portable_of_written hwritten) hfits (by omega)
  refine ⟨left, ?_⟩
  rw [read, hdecode, if_neg (not_lt.mpr hlen)]
  dsimp only
  rw [(hleft hlive).1, if_neg Bool.false_ne_true, hhit]

/-- An expired record is not read. -/
theorem read_expired {writer : Store} {now now' t : ℕ} {key : CacheKey} {value : Value N O}
    {options : KvOptions} {name : JsString} {raw : Bytes}
    (hputs : Puts rt web writer now key value options name raw t) (hpast : now + t ≤ now') :
    s.read rt web legacyUnpack now' raw = none := by
  obtain ⟨payload, -, -, hdecodes⟩ := hputs.decodes
  obtain ⟨left, hdecode, hexpired, -⟩ := hdecodes now'
  rw [read, hdecode]
  dsimp only
  rw [hexpired hpast, if_pos rfl, ite_self]

/-- **A record is visible until it expires.**  What `set` of one store puts is read by every
store whose limits it is within, as the value that was set, up to the end of the time to
live and not after it; and the namespace is asked to keep it at least that long. -/
theorem put_until_expired (hm : rt.msgpackr.Lawful) (hweb : web.Lawful)
    (legacyUnpack : Bytes → Option (Value N O)) {writer : Store} {now : ℕ} {key : CacheKey}
    {value : Value N O} {options : KvOptions} {name : JsString} {raw : Bytes} {seconds : ℤ}
    (hset : writer.set rt web now key value options = .ok (.put name raw seconds))
    (hfits : Serializer.Fits rt s.limits false value)
    (hlen : raw.length ≤ s.limits.maxEncodedBytes + 12) :
    ∃ t : ℕ, (∃ hd, (writer.ttl options : Except (KvError N O) Number) =
        .ok (.finite ((t : ℤ) : ℚ) hd)) ∧
      60 ≤ seconds ∧ t ≤ seconds * 1000 ∧ ∀ now',
        (now' < now + t → ∃ left, s.read rt web legacyUnpack now' raw = some (value.cached, left)) ∧
        (now + t ≤ now' → s.read rt web legacyUnpack now' raw = none) := by
  obtain ⟨t, hputs, hminute, hkept⟩ := puts_of_set hset
  exact ⟨t, hputs.ttl, hminute, hkept, fun now' =>
    ⟨read_live hm hweb legacyUnpack hputs hfits hlen, read_expired hputs⟩⟩

end Store

theorem cachePrefix_ne_nil : str "cache:" ≠ [] := by decide

/-- A store with every default. -/
def hourStore : Store where
  side := .worker
  storePrefix := str "cache:"
  nonempty := cachePrefix_ne_nil
  own := {}
  compression := .auto
  limits := Serializer.defaultDecodeLimits

def hourKey : CacheKey := .ofString (str "k")

/-- A text that gzip shrinks. -/
def hourValue : Value Unit Empty := .json (.str Serializer.letters)

/-- The record of the hour. -/
def IsHour (raw : Bytes) (seconds : ℤ) : Prop :=
  raw.length = 47 ∧ hourStore.set Serializer.fewRuntime Serializer.fewStreams 0 hourKey hourValue {} =
    .ok (.put (str "cache:k") raw seconds)

theorem lawful_fewStreams : Serializer.fewStreams.Lawful := Serializer.sharesGzip_few.lawful

theorem ttl_hour : ∃ hd, (hourStore.ttl {} : Except (KvError Unit Empty) Number) =
    .ok (.finite (((3600000 : ℕ) : ℤ) : ℚ) hd) := Store.ttl_default rfl rfl

theorem eq_of_ttl_hour {t : ℕ} (h : ∃ hd, (hourStore.ttl {} : Except (KvError Unit Empty) Number) =
    .ok (.finite ((t : ℤ) : ℚ) hd)) : t = 3600000 := by
  obtain ⟨hd, httl⟩ := ttl_hour
  obtain ⟨hd', httl'⟩ := h
  rw [httl] at httl'
  have hcast := Number.finite.inj (Except.ok.inj httl')
  exact_mod_cast hcast.symm

theorem hour_mem : (hourValue, Serializer.withWireTag Serializer.hc1GzipTag
    Serializer.gzippedLetters) ∈ Serializer.fewRecords := by
  rw [Serializer.fewRecords]
  simp only [List.mem_cons]
  exact .inr (.inr (.inr (.inr (.inl rfl))))

theorem length_hour :
    (Serializer.withWireTag Serializer.hc1GzipTag Serializer.gzippedLetters).length = 35 := by
  rw [Serializer.gzippedLetters]
  rfl

theorem exists_hour : ∃ raw seconds, IsHour raw seconds := by
  obtain ⟨hd, httl⟩ := ttl_hour
  obtain ⟨-, hportable, -⟩ := Serializer.written_few _ hour_mem
  have hpayload := Serializer.ok_of_toOption hportable
  obtain ⟨raw, hset⟩ : ∃ raw, hourStore.set Serializer.fewRuntime Serializer.fewStreams 0 hourKey
      hourValue {} = .ok (.put (str "cache:k") raw (expirationTtl (.finite _ hd))) :=
    Store.exists_set rfl httl (by norm_num) hpayload (by rw [length_hour]; decide) (by decide)
  obtain ⟨t, hputs, -⟩ := Store.puts_of_set hset
  obtain ⟨payload, hwritten, hlength, -⟩ := hputs.decodes
  obtain rfl := Except.ok.inj (hpayload.symm.trans hwritten)
  exact ⟨raw, _, hlength.trans (congrArg (· + 12) length_hour), hset⟩

theorem fits_hour : Serializer.Fits Serializer.fewRuntime hourStore.limits false hourValue :=
  Serializer.fits_few _ hour_mem

/-- In the last millisecond of the hour it is read, and then no more. -/
theorem put_until_expired_hour : ∃ raw seconds, IsHour raw seconds ∧ 3600 ≤ seconds ∧
    (∃ left, hourStore.read Serializer.fewRuntime Serializer.fewStreams (fun _ => none) 3599999
      raw = some (hourValue, left)) ∧
    hourStore.read Serializer.fewRuntime Serializer.fewStreams (fun _ => none) 3600000 raw =
      none := by
  obtain ⟨raw, seconds, h⟩ := exists_hour
  obtain ⟨t, httl, -, hkept, hread⟩ := Store.put_until_expired Serializer.lawful_fewPack
    lawful_fewStreams (fun _ => none) h.2 fits_hour (h.1.le.trans (by decide))
  obtain rfl := eq_of_ttl_hour httl
  exact ⟨raw, seconds, h, by omega, (hread 3599999).1 (by norm_num), (hread 3600000).2 (by norm_num)⟩

/-! ### Runs -/

/-- The calls of any number of stores over one namespace. -/
inductive Event (N O : Type)
  | set (s : Store) (now : ℕ) (key : CacheKey) (value : Value N O) (options : KvOptions)
  | delete (s : Store) (key : CacheKey)
  | get (s : Store) (now : ℕ) (key : CacheKey) (serve : JsString → Option Bytes)

section Run

variable {N O : Type} (rt : Runtime N O) (web : WebStreams)

/-- What a call asks of the namespace, if it does not throw before. -/
def Event.request : Event N O → Option Request
  | .set s now key value options => (s.set rt web now key value options).toOption
  | .delete s key => (s.fullName key : Except (KvError N O) JsString).toOption.map .delete
  | .get .. => none

/-- The namespace has been asked to put a value under a name. -/
def PutBefore (run : List (Event N O)) (i : ℕ) (name : JsString) (raw : Bytes) : Prop :=
  ∃ j < i, ∃ e seconds, run[j]? = some e ∧ e.request rt web = some (.put name raw seconds)

/-- What an eventually consistent namespace promises: it makes up no values. -/
def Served (run : List (Event N O)) : Prop :=
  ∀ {i s now key serve}, run[i]? = some (.get s now key serve) → ∀ {name raw},
    serve name = some raw → PutBefore rt web run i name raw

variable {rt : Runtime N O} {web : WebStreams}

/-- Only `set` puts. -/
theorem Event.puts {e : Event N O} {name : JsString} {raw : Bytes} {seconds : ℤ}
    (h : e.request rt web = some (.put name raw seconds)) :
    ∃ s now key value options t, e = .set s now key value options ∧
      Store.Puts rt web s now key value options name raw t := by
  cases e with
  | set s now key value options =>
    cases hset : s.set rt web now key value options with
    | error e =>
      rw [request, hset] at h
      cases h
    | ok request =>
      rw [Event.request, hset] at h
      obtain rfl : request = .put name raw seconds := Option.some.inj h
      obtain ⟨t, hputs, -⟩ := Store.puts_of_set hset
      exact ⟨s, now, key, value, options, t, rfl, hputs⟩
  | delete s key =>
    rw [request] at h
    cases hname : (s.fullName key : Except (KvError N O) JsString) with
    | error e =>
      rw [hname] at h
      cases h
    | ok name =>
      rw [hname] at h
      cases h
  | get s now key serve => cases h

/-- **What is read was set, and is live.**  In any run of stores over a namespace, however
stale its answers, a value that a store reads was set earlier under the same full name,
by a call whose time to live has not passed when it is read; what the store says is left
of that time is exact. -/
theorem read_was_set (hm : rt.msgpackr.Lawful) (hweb : web.Lawful)
    (legacyUnpack : Bytes → Option (Value N O)) {run : List (Event N O)}
    (hserved : Served rt web run) {i now' : ℕ} {s : Store} {key : CacheKey}
    {serve : JsString → Option Bytes} (hget : run[i]? = some (.get s now' key serve))
    {w : Value N O} {left : Number}
    (h : s.getWithTtl rt web legacyUnpack now' key serve = .ok (some (w, left))) :
    ∃ j < i, ∃ writer now key' value options, run[j]? = some (.set writer now key' value options) ∧
      writer.storePrefix ++ key'.text = s.storePrefix ++ key.text ∧ w = value.cached ∧
      ∃ t d : ℕ, (∃ hd, (writer.ttl options : Except (KvError N O) Number) =
          .ok (.finite ((t : ℤ) : ℚ) hd)) ∧
        left.natural = some d ∧ 0 < d ∧ now' + d = now + t := by
  rw [Store.getWithTtl, Store.fullName] at h
  split_ifs at h with hlong
  · cases h
  obtain ⟨raw, hraw, hread⟩ := Option.bind_eq_some_iff.mp (Except.ok.inj h)
  obtain ⟨j, hj, e, seconds, he, hrequest⟩ := hserved hget hraw
  obtain ⟨writer, now, key', value, options, t, rfl, hputs⟩ := Event.puts hrequest
  obtain ⟨hcached, d, hleft, hpos, htime⟩ := Store.read_written hm hweb hputs hread
  exact ⟨j, hj, writer, now, key', value, options, he, hputs.name_eq.symm, hcached, t, d, hputs.ttl,
    hleft, hpos, htime⟩

end Run

/-- A namespace with one record. -/
def serveHour (raw : Bytes) (name : JsString) : Option Bytes :=
  if name = str "cache:k" then some raw else none

/-- The text is set for an hour, and read a second later. -/
def hourRun (raw : Bytes) : List (Event Unit Empty) :=
  [.set hourStore 0 hourKey hourValue {}, .get hourStore 1000 hourKey (serveHour raw)]

theorem served_hourRun {raw : Bytes} {seconds : ℤ} (h : IsHour raw seconds) :
    Served Serializer.fewRuntime Serializer.fewStreams (hourRun raw) := by
  intro i s now key serve hget name raw' hraw
  match i with
  | 0 => cases hget
  | 1 =>
    cases hget
    rw [serveHour] at hraw
    split_ifs at hraw with hname
    obtain rfl := Option.some.inj hraw
    refine ⟨0, Nat.zero_lt_one, _, seconds, rfl, ?_⟩
    rw [Event.request, h.2, hname]
    rfl

/-- A second later 3599 seconds of the hour are left. -/
theorem read_was_set_hour : ∃ raw left,
    hourStore.getWithTtl Serializer.fewRuntime Serializer.fewStreams (fun _ => none) 1000 hourKey
        (serveHour raw) = .ok (some (hourValue, left)) ∧ left.natural = some 3599000 := by
  have hm : Serializer.fewRuntime.msgpackr.Lawful := Serializer.lawful_fewPack
  obtain ⟨raw, seconds, h⟩ := exists_hour
  obtain ⟨t, hputs, -⟩ := Store.puts_of_set h.2
  obtain rfl := eq_of_ttl_hour hputs.ttl
  obtain ⟨left, hread⟩ := Store.read_live hm lawful_fewStreams (fun _ => none) hputs fits_hour
    (h.1.le.trans (by decide)) (by norm_num : 1000 < 0 + 3600000)
  have hgot : hourStore.getWithTtl Serializer.fewRuntime Serializer.fewStreams (fun _ => none) 1000
      hourKey (serveHour raw) = .ok (some (hourValue, left)) := by
    rw [Store.getWithTtl, Store.fullName_eq (by decide)]
    exact congrArg Except.ok hread
  have hcalled : (hourRun raw)[1]? = some (.get hourStore 1000 hourKey (serveHour raw)) := rfl
  obtain ⟨j, hj, writer, now, key', value, options, hcall, -, -, t, d, httl, hleft, -, htime⟩ :=
    read_was_set hm lawful_fewStreams (fun _ => none) (served_hourRun h) hcalled hgot
  obtain rfl : j = 0 := by omega
  cases hcall
  obtain rfl := eq_of_ttl_hour httl
  obtain rfl : d = 3599000 := by omega
  exact ⟨raw, left, hgot, hleft⟩

end KvStore
