/-
How long promoted entries live (`promoteToL1`).

What the cache copies from the shared tier into its L1 must not outlive the record that it
was copied from.  The tier reports with a record how long that will still live, and the
cache takes off what has passed since, in two places: first from the start of the read to
its reply, then from the start of the promotion to the end of the encoding.  The clock of
the process and that of the server run at one rate; their readings are fractions of
milliseconds, taken one after the other.

* `SharedTier` — a tier that reports what is left of a record's life, and `redisStore`;
* `promoteToL1`, `readValue`, `applyRemoteSetKey` — the two ways into the L1;
* `promoted_spec` — what a promotion inserts, and for how long;
* `promoted_outlives_not` — no entry is copied from a record whose life was over when its
  reply was measured, and none outlives it by more than the time that no reading sees;
* `promoted_late` — by that time it may.
-/
import LazyLayers.Runs
import LazyLayers.MemoryStore
import LazyLayers.SerializerPolicy

open Js Runs
open Serializer (Number)

namespace Promotion

abbrev Octets := List UInt8

/-! ### The shared tier -/

/-- A reply of `getEncoded`; a negative `ttlRemainingMs` stands for a record without an
expiry. -/
structure Encoded where
  buffer : Octets
  ttlRemainingMs : ℚ

/-- A tier that reports remaining lives: times are those of the process's clock, and the
second argument of `getEncoded` is the moment at which the server looked. -/
structure SharedTier where
  Record : Type
  /-- The end of a record's life, if it has one. -/
  expiry : Record → Option ℚ
  getEncoded : Record → ℚ → Option Encoded
  reports : ∀ {r : Record} {e : ℚ} {snapshot : ℚ} {encoded : Encoded}, expiry r = some e →
    getEncoded r snapshot = some encoded →
      0 ≤ encoded.ttlRemainingMs ∧ snapshot + encoded.ttlRemainingMs ≤ e

/-- A key of the server with its expiry, a whole millisecond of the server's clock. -/
structure RedisRecord where
  raw : Octets
  expireAt : Option ℕ

/-- `PTTL` when the server's clock is at `now`: `-1` without an expiry, `-2` without the key.
A key is there through the whole millisecond of its expiry. -/
def RedisRecord.pttl (r : RedisRecord) (now : ℚ) : ℤ :=
  match r.expireAt with
  | none => -1
  | some e => if ⌊now⌋ ≤ e then e - ⌊now⌋ else -2

/-- The reply of `SNAPSHOT_LUA`: the value, the remaining life, and whether it is too long. -/
def RedisRecord.snapshot (r : RedisRecord) (limit : ℕ) (now : ℚ) : Option Octets × ℤ × Bool :=
  if r.pttl now = -2 then (none, -2, false)
  else if r.raw.length > limit then (none, r.pttl now, true)
  else (some r.raw, r.pttl now, false)

/-- `RedisStore.getEncoded`. -/
def RedisRecord.getEncoded (r : RedisRecord) (limit : ℕ) (now : ℚ) : Option Encoded :=
  let (raw, ttlRemainingMs, oversized) := r.snapshot limit now
  if oversized then none
  else
    match raw with
    | none => none
    | some raw =>
      if ttlRemainingMs = -2 then none
      else if 9007199254740991 < ttlRemainingMs ∨ ttlRemainingMs < -1 then none
      else some ⟨raw, ttlRemainingMs⟩

theorem RedisRecord.of_getEncoded {r : RedisRecord} {limit : ℕ} {now : ℚ} {encoded : Encoded}
    (h : r.getEncoded limit now = some encoded) :
    r.pttl now ≠ -2 ∧ encoded = ⟨r.raw, r.pttl now⟩ := by
  unfold getEncoded snapshot at h
  by_cases hgone : r.pttl now = -2
  · simp [hgone] at h
  · by_cases hlimit : r.raw.length > limit
    · simp [hgone, hlimit] at h
    · simp only [hgone, hlimit, if_false, Bool.false_eq_true] at h
      split_ifs at h with hsafe
      exact ⟨hgone, (Option.some.inj h).symm⟩

/-- The store on a server whose clock is `offset` ahead of the process's. -/
def redisStore (limit : ℕ) (offset : ℚ) : SharedTier where
  Record := RedisRecord
  expiry r := r.expireAt.map fun ms : ℕ => ms + 1 - offset
  getEncoded r snapshot := r.getEncoded limit (snapshot + offset)
  reports := by
    intro r e snapshot encoded he h
    obtain ⟨hthere, rfl⟩ := RedisRecord.of_getEncoded h
    obtain ⟨ms, hms, rfl⟩ := Option.map_eq_some_iff.mp he
    simp only [RedisRecord.pttl, hms] at hthere ⊢
    by_cases hlive : ⌊snapshot + offset⌋ ≤ (ms : ℤ)
    · simp only [if_pos hlive]
      -- what the server's clock shows is less than a millisecond behind
      have hfloor := Int.lt_floor_add_one (snapshot + offset)
      have hle : (⌊snapshot + offset⌋ : ℚ) ≤ (ms : ℚ) := by exact_mod_cast hlive
      push_cast
      exact ⟨by linarith, by linarith⟩
    · exact absurd (if_neg hlive) hthere

/-! ### Options -/

/-- `Math.min(n, r)` for a finite `r`. -/
def minWith (n : Number) (r : ℚ) : Number :=
  match n with
  | .finite q => .finite (min q r)
  | .infinity => .finite r
  | .negInfinity => .negInfinity
  | .nan => .nan

theorem le_of_minWith {n : Number} {r t : ℚ} (h : minWith n r = .finite t) : t ≤ r := by
  cases n with
  | finite q =>
    obtain rfl : min q r = t := Number.finite.inj h
    exact min_le_right q r
  | infinity => exact (Number.finite.inj h).ge
  | negInfinity => simp [minWith] at h
  | nan => simp [minWith] at h

structure CacheLevelOptions (C : Type) where
  ttlMs : Option Number := none
  codec : Option C := none

structure CacheOptions (C : Type) where
  ttlMs : Option Number := none
  L1 : CacheLevelOptions C := {}
  L2 : CacheLevelOptions C := {}

def defaultCacheTtlMs : Number := .finite (60 * 60 * 1000)

/-- The serializer: the text by which policies are compared, an encoding, and what is read
from one; the first two may throw. -/
structure Codec (C V : Type) where
  /-- The policy `{}`. -/
  default : C
  stringify : C → Option JsString
  serialize : V → C → Option Octets
  decodeValue : Octets → Option V

/-- A `HybridCache` with its `MemoryStore`, and the options that each was built with. -/
structure Cache (C V : Type) where
  codec : Codec C V
  options : CacheOptions C
  l1Options : CacheOptions C

/-! ### The L1 -/

variable {C V : Type} {tier : SharedTier}

/-- When the clock was looked at on the way of a record into the L1, and when the server
took the snapshot.  `inserted` is the reading of the LRU itself, and `checked` that of the
lookup after it. -/
structure Timeline where
  readStarted : ℚ
  snapshot : ℚ
  replied : ℚ
  promotionStarted : ℚ
  measured : ℚ
  inserted : ℚ
  checked : ℚ
  readStarted_le : readStarted ≤ snapshot
  snapshot_le : snapshot ≤ replied
  replied_le : replied ≤ promotionStarted
  promotionStarted_le : promotionStarted ≤ measured
  measured_le : measured ≤ inserted
  inserted_le : inserted ≤ checked

/-- The time that is between two readings whose difference nobody takes: on the way into
`promoteToL1`, and from its last reading to that of the LRU. -/
def Timeline.unmeasured (T : Timeline) : ℚ :=
  (T.promotionStarted - T.replied) + (T.inserted - T.measured)

/-- Where an entry comes from; nothing is decided by it. -/
inductive Origin (tier : SharedTier)
  | written
  | copied (T : Timeline) (record : tier.Record)

structure Entry (tier : SharedTier) where
  buffer : Octets
  start : ℚ
  ttlMs : ℚ
  origin : Origin tier

/-- From then on the entry is stale. -/
def Entry.expiresAt (e : Entry tier) : ℚ := e.start + e.ttlMs

structure MemoryStore (tier : SharedTier) where
  entries : CacheKey → Option (Entry tier) := fun _ => none
  closed : Bool := false

/-- What the admission policy makes of a write.  A write that it rejects leaves an entry of
the key alone if that has expired already; otherwise it drops it. -/
inductive Admission
  | admitted
  | rejected (dropped : Bool)

/-- The ledger and the LRU order, as far as a write meets them: they depend on the other
clients of the ledger, and nothing here on them. -/
structure Room where
  permitsPromotion : ℕ → Bool
  admission : ℕ → Admission
  evicted : ℕ → List CacheKey

namespace MemoryStore

variable (m : MemoryStore tier)

def remove (keys : List CacheKey) : MemoryStore tier :=
  { m with entries := fun key => if key ∈ keys then none else m.entries key }

def insert (key : CacheKey) (e : Entry tier) : MemoryStore tier :=
  { m with entries := Function.update m.entries key (some e) }

/-- `ttl(options)`. -/
def ttl (own options : CacheOptions C) : Except String ℚ :=
  match (((options.L1.ttlMs.or options.ttlMs).or own.L1.ttlMs).or own.ttlMs).getD
      defaultCacheTtlMs with
  | .finite q => if 0 < q then .ok q else .error "L1 ttlMs must be positive and finite"
  | _ => .error "L1 ttlMs must be positive and finite"

def setEncoded (own options : CacheOptions C) (key : CacheKey) (buffer : Octets)
    (room : Room) (inserted : ℚ) (origin : Origin tier) : Except String (MemoryStore tier) :=
  if m.closed then .ok m
  else
    match ttl own options with
    | .error text => .error text
    | .ok ttlMs =>
      let bytes := MemoryStore.entryBytes buffer key
      let m := m.remove (room.evicted bytes)
      match room.admission bytes with
      | .rejected dropped => .ok (if dropped then m.remove [key] else m)
      | .admitted => .ok (m.insert key ⟨buffer, inserted, ttlMs, origin⟩)

/-- `has(key)`, which reclaims an expired entry. -/
def has (key : CacheKey) (now : ℚ) : MemoryStore tier × Bool :=
  if m.closed then (m, false)
  else
    match m.entries key with
    | some e => if now - e.start ≤ e.ttlMs then (m, true) else (m.remove [key], false)
    | none => (m, false)

end MemoryStore

/-! ### The two ways into the L1 -/

namespace Cache

variable (cache : Cache C V)

def layerCodecOptions (own level : CacheLevelOptions C) : C :=
  (level.codec.or own.codec).getD cache.codec.default

def sameLayerCodecPolicy (options : CacheOptions C) : Bool :=
  match cache.codec.stringify (cache.layerCodecOptions cache.options.L1 options.L1),
    cache.codec.stringify (cache.layerCodecOptions cache.options.L2 options.L2) with
  | some left, some right => left = right
  | _, _ => false

/-- The bytes to promote: those of the shared tier if both tiers use one policy. -/
def promotedBytes (value : V) (options : CacheOptions C) (reusable : Encoded) : Option Octets :=
  if cache.sameLayerCodecPolicy options then some reusable.buffer
  else cache.codec.serialize value (cache.layerCodecOptions cache.options.L1 options.L1)

/-- `promotionOptions`. -/
def promotionOptions (options : CacheOptions C) : Option ℚ → CacheOptions C
  | none => options
  | some remaining =>
    let ttlMs := minWith ((options.L1.ttlMs.or options.ttlMs).getD defaultCacheTtlMs) remaining
    { options with ttlMs := some ttlMs, L1 := { options.L1 with ttlMs := some ttlMs } }

/-- What is left of the life of `reusable` when its bytes have been prepared. -/
def remaining (T : Timeline) (reusable : Encoded) : Option ℚ :=
  if 0 ≤ reusable.ttlRemainingMs then
    some (reusable.ttlRemainingMs - (T.measured - T.promotionStarted))
  else none

def bypass (key : CacheKey) (invalidateOnBypass : Bool) (m : MemoryStore tier) :
    MemoryStore tier × Except String Bool :=
  (if invalidateOnBypass then m.remove [key] else m, .ok false)

def promoteToL1 (T : Timeline) (record : tier.Record) (room : Room) (key : CacheKey) (value : V)
    (options : CacheOptions C) (reusable : Encoded) (invalidateOnBypass : Bool)
    (m : MemoryStore tier) : MemoryStore tier × Except String Bool :=
  match cache.promotedBytes value options reusable with
  | none => bypass key invalidateOnBypass m
  | some encoded =>
    if !room.permitsPromotion (MemoryStore.entryBytes encoded key) then
      bypass key invalidateOnBypass m
    else if (remaining T reusable).any (· ≤ 0) then bypass key invalidateOnBypass m
    else
      match m.setEncoded cache.l1Options (promotionOptions options (remaining T reusable)) key
          encoded room T.inserted (.copied T record) with
      | .error text => (m, .error text)
      | .ok m => ((m.has key T.checked).1, .ok (m.has key T.checked).2)

/-- One command of the shared tier: `record` is what the server found, and `none` also where
the command failed or was given up.  `current` says that the guard is current and
invalidations are trusted when the reply is there. -/
structure Fetch (tier : SharedTier) where
  timeline : Timeline
  record : Option tier.Record
  current : Bool
  room : Room

/-- The record that a command has brought, its reply and its value. -/
def reply (f : Fetch tier) : Option (tier.Record × Encoded × V) :=
  f.record.bind fun record =>
    (tier.getEncoded record f.timeline.snapshot).bind fun encoded =>
      (cache.codec.decodeValue encoded.buffer).map fun value => (record, encoded, value)

/-- The reply once the time of the read has been taken off. -/
def aged (T : Timeline) (encoded : Encoded) : Encoded :=
  if 0 ≤ encoded.ttlRemainingMs then
    { encoded with ttlRemainingMs := max 0 (encoded.ttlRemainingMs - (T.replied - T.readStarted)) }
  else encoded

/-- The part of `readValue` that reads the shared tier. -/
def readValue (key : CacheKey) (f : Fetch tier) (m : MemoryStore tier) :
    MemoryStore tier × Except String (Option V) :=
  match cache.reply f with
  | none => (m, .ok none)
  | some (record, encoded, value) =>
    if !f.current then (m, .ok (some value))
    else
      let (m, promoted) := cache.promoteToL1 f.timeline record f.room key value cache.options
        (aged f.timeline encoded) false m
      (m, promoted.map fun _ => some value)

/-- The options that `applyRemoteSet` promotes with. -/
def localOptions (ttlMs : Option Number) : CacheOptions C :=
  match ttlMs with
  | some ttlMs => { cache.options with ttlMs := some ttlMs }
  | none => cache.options

/-- What `applyRemoteSet` does for one key of an event; `stale` says that the event has an
older generation. -/
def applyRemoteSetKey (key : CacheKey) (ttlMs : Option Number) (stale : Bool) (f : Fetch tier)
    (m : MemoryStore tier) : MemoryStore tier × Except String Bool :=
  if stale then (m, .ok false)
  else
    match cache.reply f with
    | none => (if f.current then m.remove [key] else m, .ok false)
    | some (record, encoded, value) =>
      if !f.current then (m, .ok false)
      else cache.promoteToL1 f.timeline record f.room key value (cache.localOptions ttlMs)
        (aged f.timeline encoded) true m

end Cache

/-! ### What a promotion inserts -/

namespace MemoryStore

variable {m m' : MemoryStore tier} {key key' : CacheKey} {e : Entry tier}

theorem of_remove {keys : List CacheKey} (h : (m.remove keys).entries key = some e) :
    m.entries key = some e := by
  simp only [remove] at h
  split_ifs at h
  exact h

theorem of_insert {e' : Entry tier} (h : (m.insert key' e').entries key = some e) :
    m.entries key = some e ∨ key = key' ∧ e = e' := by
  simp only [insert, Function.update_apply] at h
  split_ifs at h with hkey
  · exact .inr ⟨hkey, (Option.some.inj h).symm⟩
  · exact .inl h

theorem of_has {now : ℚ} (h : (m.has key' now).1.entries key = some e) :
    m.entries key = some e := by
  unfold has at h
  split at h
  · exact h
  · split at h
    · split_ifs at h
      · exact h
      · exact of_remove h
    · exact h

/-- The lifetime of an entry is the first of the options that is given. -/
theorem ttl_of_l1 {own options : CacheOptions C} {n : Number} {t : ℚ}
    (hn : options.L1.ttlMs = some n) (h : ttl own options = .ok t) : n = .finite t := by
  simp only [ttl, hn, Option.some_or, Option.getD_some] at h
  cases n with
  | finite q =>
    simp only at h
    split_ifs at h
    rw [Except.ok.inj h]
  | infinity => simp at h
  | negInfinity => simp at h
  | nan => simp at h

theorem of_setEncoded {own options : CacheOptions C} {buffer : Octets} {room : Room}
    {inserted : ℚ} {origin : Origin tier}
    (h : m.setEncoded own options key' buffer room inserted origin = .ok m')
    (he : m'.entries key = some e) :
    m.entries key = some e ∨
      ∃ t, ttl own options = .ok t ∧ key = key' ∧ e = ⟨buffer, inserted, t, origin⟩ := by
  unfold setEncoded at h
  split at h
  · obtain rfl := Except.ok.inj h
    exact .inl he
  · cases ht : ttl own options with
    | error text => simp [ht] at h
    | ok t =>
      simp only [ht] at h
      split at h
      · obtain rfl := Except.ok.inj h
        split at he
        · exact .inl (of_remove (of_remove he))
        · exact .inl (of_remove he)
      · obtain rfl := Except.ok.inj h
        rcases of_insert he with hm | ⟨hkey, hentry⟩
        · exact .inl (of_remove hm)
        · exact .inr ⟨t, rfl, hkey, hentry⟩

end MemoryStore

namespace Cache

variable {cache : Cache C V} {T : Timeline} {record : tier.Record} {room : Room}
  {key key' : CacheKey} {m : MemoryStore tier} {e : Entry tier}

theorem of_bypass {invalidateOnBypass : Bool}
    (h : (bypass key' invalidateOnBypass m).1.entries key = some e) : m.entries key = some e := by
  unfold bypass at h
  split_ifs at h
  · exact MemoryStore.of_remove h
  · exact h

/-- A lifetime taken from the options of a promotion is at most what remained. -/
theorem ttl_promotionOptions {own options : CacheOptions C} {left t : ℚ}
    (h : MemoryStore.ttl own (promotionOptions options (some left)) = .ok t) : t ≤ left :=
  le_of_minWith (MemoryStore.ttl_of_l1 rfl h)

/-- What a promotion inserts, if it inserts anything: an entry for no more than what remained,
and that is more than nothing. -/
theorem promoted_spec {value : V} {options : CacheOptions C} {reusable : Encoded}
    {invalidateOnBypass : Bool}
    (h : (cache.promoteToL1 T record room key' value options reusable invalidateOnBypass
      m).1.entries key = some e) :
    m.entries key = some e ∨ e.origin = .copied T record ∧ e.start = T.inserted ∧
      ∀ left, remaining T reusable = some left → 0 < left ∧ e.ttlMs ≤ left := by
  unfold promoteToL1 at h
  split at h
  · exact .inl (of_bypass h)
  · split_ifs at h with hroom hleft
    · exact .inl (of_bypass h)
    · exact .inl (of_bypass h)
    · split at h
      · exact .inl h
      · next encoded _ m' hset =>
        rcases MemoryStore.of_setEncoded hset (MemoryStore.of_has h) with hm | ⟨t, ht, -, rfl⟩
        · exact .inl hm
        · refine .inr ⟨rfl, rfl, fun left hsome => ?_⟩
          rw [hsome] at ht hleft
          exact ⟨by simpa using hleft, ttl_promotionOptions ht⟩

/-! ### Promotion never extends a record's life -/

/-- What is known of an entry: it was copied only while its record lived, by what had been
measured then, and it outlives the record by no more than the time that no reading saw. -/
def Bounded (e : Entry tier) : Prop :=
  ∀ T record expiry, e.origin = .copied T record → tier.expiry record = some expiry →
    T.replied + (T.measured - T.promotionStarted) < expiry ∧ e.expiresAt ≤ expiry + T.unmeasured

/-- The two subtractions together: what remains after them of a life that the tier has
reported. -/
theorem remaining_aged {encoded : Encoded} (h : 0 ≤ encoded.ttlRemainingMs) :
    remaining T (aged T encoded) =
      some (max 0 (encoded.ttlRemainingMs - (T.replied - T.readStarted)) -
        (T.measured - T.promotionStarted)) := by
  simp only [aged, if_pos h, remaining, if_pos (le_max_left _ _)]

theorem bounded_copied {encoded : Encoded} {f : Fetch tier}
    (horigin : e.origin = .copied f.timeline record)
    (hencoded : tier.getEncoded record f.timeline.snapshot = some encoded)
    (hstart : e.start = f.timeline.inserted)
    (hleft : ∀ left, remaining f.timeline (aged f.timeline encoded) = some left →
      0 < left ∧ e.ttlMs ≤ left) : Bounded e := by
  intro T record' expiry hcopied hexpiry
  obtain ⟨rfl, rfl⟩ : f.timeline = T ∧ record = record' := by
    simpa using horigin.symm.trans hcopied
  obtain ⟨hnonneg, hreport⟩ := tier.reports hexpiry hencoded
  obtain ⟨hpos, hle⟩ := hleft _ (remaining_aged hnonneg)
  have hread := f.timeline.readStarted_le
  have hmeasured := f.timeline.promotionStarted_le
  -- nothing is inserted unless the first difference has left something
  have hlife : 0 < encoded.ttlRemainingMs - (f.timeline.replied - f.timeline.readStarted) := by
    by_contra hnot
    rw [max_eq_left (not_lt.mp hnot)] at hpos
    linarith
  rw [max_eq_right hlife.le] at hpos hle
  refine ⟨by linarith, ?_⟩
  rw [Entry.expiresAt, hstart, Timeline.unmeasured]
  linarith

theorem of_reply {f : Fetch tier} {encoded : Encoded} {value : V}
    (h : cache.reply f = some (record, encoded, value)) :
    tier.getEncoded record f.timeline.snapshot = some encoded := by
  obtain ⟨r, -, hr⟩ := Option.bind_eq_some_iff.mp h
  obtain ⟨enc, henc, hv⟩ := Option.bind_eq_some_iff.mp hr
  obtain ⟨v, -, heq⟩ := Option.map_eq_some_iff.mp hv
  obtain ⟨rfl, rfl, -⟩ : r = record ∧ enc = encoded ∧ v = value := by simpa using heq
  exact henc

/-- A promotion of what a command has brought. -/
theorem bounded_promoteToL1 {f : Fetch tier} {encoded : Encoded} {value : V}
    {options : CacheOptions C} {invalidateOnBypass : Bool}
    (hreply : cache.reply f = some (record, encoded, value))
    (hm : ∀ key e, m.entries key = some e → Bounded e)
    (h : (cache.promoteToL1 f.timeline record f.room key' value options (aged f.timeline encoded)
      invalidateOnBypass m).1.entries key = some e) : Bounded e := by
  rcases promoted_spec h with hold | ⟨horigin, hstart, hleft⟩
  · exact hm key e hold
  · exact bounded_copied horigin (of_reply hreply) hstart hleft

theorem bounded_readValue {f : Fetch tier} (hm : ∀ key e, m.entries key = some e → Bounded e)
    (h : (cache.readValue key' f m).1.entries key = some e) : Bounded e := by
  unfold readValue at h
  split at h
  · exact hm key e h
  · next record encoded value hreply =>
    split at h
    · exact hm key e h
    · exact bounded_promoteToL1 hreply hm h

theorem bounded_applyRemoteSetKey {ttlMs : Option Number} {stale : Bool} {f : Fetch tier}
    (hm : ∀ key e, m.entries key = some e → Bounded e)
    (h : (cache.applyRemoteSetKey key' ttlMs stale f m).1.entries key = some e) : Bounded e := by
  unfold applyRemoteSetKey at h
  split at h
  · exact hm key e h
  · split at h
    · cases hcurrent : f.current with
      | true =>
        rw [hcurrent] at h
        exact hm key e (MemoryStore.of_remove h)
      | false =>
        rw [hcurrent] at h
        exact hm key e h
    · next record encoded value hreply =>
      split at h
      · exact hm key e h
      · exact bounded_promoteToL1 hreply hm h

/-- What happens to the L1 of a cache.  Promotions are interleaved with everything else; the
keys of one event are applied one by one, and other steps may come between. -/
inductive Event (C : Type) (tier : SharedTier)
  | read (key : CacheKey) (f : Fetch tier)
  | remoteSet (key : CacheKey) (ttlMs : Option Number) (stale : Bool) (f : Fetch tier)
  /-- Any other write: of a caller, of a load, or directly to the store. -/
  | write (key : CacheKey) (buffer : Octets) (options : CacheOptions C) (room : Room) (now : ℚ)
  /-- Deletion, eviction and expiry. -/
  | drop (keys : List CacheKey)
  | close

variable (cache) in
def step (m : MemoryStore tier) : Event C tier → MemoryStore tier
  | .read key f => (cache.readValue key f m).1
  | .remoteSet key ttlMs stale f => (cache.applyRemoteSetKey key ttlMs stale f m).1
  | .write key buffer options room now =>
    match m.setEncoded cache.l1Options options key buffer room now .written with
    | .ok m => m
    | .error _ => m
  | .drop keys => m.remove keys
  | .close => { closed := true }

theorem bounded_step {event : Event C tier} (hm : ∀ key e, m.entries key = some e → Bounded e) :
    ∀ key e, (cache.step m event).entries key = some e → Bounded e := by
  intro key e h
  cases event with
  | read key' f => exact bounded_readValue hm h
  | remoteSet key' ttlMs stale f => exact bounded_applyRemoteSetKey hm h
  | write key' buffer options room now =>
    simp only [step] at h
    split at h
    · next m' hset =>
      rcases MemoryStore.of_setEncoded hset h with hold | ⟨t, -, -, rfl⟩
      · exact hm key e hold
      · intro T record expiry hcopied
        simp at hcopied
    · exact hm key e h
  | drop keys => exact hm key e (MemoryStore.of_remove h)
  | close => simp [step] at h

/-- **Promotion extends no life** by more than the time that passes unmeasured on the way of
a record into the L1, and it does not begin one that is over. -/
theorem promoted_outlives_not {cache : Cache C V} {tier : SharedTier} (events : List (Event C tier))
    (n : ℕ) {key : CacheKey} {e : Entry tier} {T : Timeline} {record : tier.Record} {expiry : ℚ}
    (hentry : (stateAt cache.step ({} : MemoryStore tier) events n).entries key = some e)
    (horigin : e.origin = .copied T record) (hexpiry : tier.expiry record = some expiry) :
    T.replied + (T.measured - T.promotionStarted) < expiry ∧
      e.expiresAt ≤ expiry + T.unmeasured := by
  have hall : ∀ key e, (stateAt cache.step ({} : MemoryStore tier) events n).entries key = some e →
      Bounded e := by
    refine invariant (P := fun m : MemoryStore tier => ∀ key e, m.entries key = some e → Bounded e)
      ?_ ?_ n
    · intro key e h
      simp at h
    · intro m event hm
      exact bounded_step hm
  exact hall key e hentry T record expiry horigin hexpiry

end Cache

/-! ### A late insertion -/

/-- Bytes that stand for themselves, with one policy. -/
def plainCache : Cache Unit Octets where
  codec := ⟨(), fun _ => some (str "\x7b\x7d"), fun value _ => some value, some⟩
  options := {}
  l1Options := {}

/-- A timeline on which the reply takes a millisecond, the encoding another, and the insertion
comes `late` after it. -/
def timeline (late : ℚ) (h : 0 ≤ late) : Timeline :=
  ⟨0, 0, 1, 1, 2, 2 + late, 2 + late, le_rfl, by norm_num, le_rfl, by norm_num, by linarith, le_rfl⟩

def row : CacheKey := CacheKey.ofString (str "row")

/-- A record of the server that is there until millisecond 21. -/
def shortLived : (redisStore 1024 0).Record := (⟨[7], some 20⟩ : RedisRecord)

/-- A read with plenty of room. -/
def shortFetch (late : ℚ) (h : 0 ≤ late) : Cache.Fetch (redisStore 1024 0) :=
  ⟨timeline late h, some shortLived, true, fun _ => true, fun _ => .admitted, fun _ => []⟩

def shortEntry (late : ℚ) (h : 0 ≤ late) : Entry (redisStore 1024 0) :=
  ⟨[7], 2 + late, 18, .copied (timeline late h) shortLived⟩

theorem expiry_shortLived : (redisStore 1024 0).expiry shortLived = some 21 := by
  with_unfolding_all rfl

theorem getEncoded_shortLived : (redisStore 1024 0).getEncoded shortLived 0 = some ⟨[7], 20⟩ := by
  with_unfolding_all rfl

/-- The read inserts the entry, with eighteen milliseconds of the record's life. -/
theorem entries_shortRead (late : ℚ) (h : 0 ≤ late) :
    (stateAt plainCache.step {} [.read row (shortFetch late h)] 1).entries row =
      some (shortEntry late h) := by
  have hreply : plainCache.reply (shortFetch late h) = some (shortLived, ⟨[7], 20⟩, [7]) := by
    have hget : (redisStore 1024 0).getEncoded shortLived (timeline late h).snapshot =
        some ⟨[7], 20⟩ := getEncoded_shortLived
    simp [Cache.reply, shortFetch, hget, plainCache]
  have hremaining : Cache.remaining (timeline late h) (Cache.aged (timeline late h) ⟨[7], 20⟩) =
      some 18 := by
    rw [Cache.remaining_aged (by norm_num)]
    norm_num [timeline]
  have httl : MemoryStore.ttl plainCache.l1Options
      (Cache.promotionOptions plainCache.options (some 18)) = .ok 18 := by
    norm_num [MemoryStore.ttl, Cache.promotionOptions, plainCache, defaultCacheTtlMs, minWith]
  have hbytes : plainCache.promotedBytes [7] plainCache.options
      (Cache.aged (timeline late h) ⟨[7], 20⟩) = some [7] := by
    simp [Cache.promotedBytes, Cache.sameLayerCodecPolicy, plainCache, Cache.aged]
  have hroom : (shortFetch late h).room = ⟨fun _ => true, fun _ => .admitted, fun _ => []⟩ := rfl
  have htimeline : (shortFetch late h).timeline = timeline late h := rfl
  have hcurrent : (shortFetch late h).current = true := rfl
  show (plainCache.step {} (.read row (shortFetch late h))).entries row = _
  -- the lookup after the insertion finds the entry
  simp only [Cache.step, Cache.readValue, hreply, hcurrent, htimeline, hroom, Cache.promoteToL1,
    hbytes, hremaining, MemoryStore.setEncoded, httl]
  norm_num [MemoryStore.has, MemoryStore.insert, MemoryStore.remove, timeline, shortEntry]

theorem Cache.promoted_outlives_not_prompt :
    (shortEntry 0 le_rfl).expiresAt ≤ 21 + (timeline 0 le_rfl).unmeasured :=
  (promoted_outlives_not [.read row (shortFetch 0 le_rfl)] 1 (entries_shortRead 0 le_rfl) rfl
    expiry_shortLived).2

/-- Where the insertion comes two milliseconds after the last reading before it, the entry
outlives its record. -/
theorem Cache.promoted_late :
    (stateAt plainCache.step {} [.read row (shortFetch 2 zero_le_two)] 1).entries row =
        some (shortEntry 2 zero_le_two) ∧
      (redisStore 1024 0).expiry shortLived = some 21 ∧
      21 < (shortEntry 2 zero_le_two).expiresAt := by
  refine ⟨entries_shortRead 2 zero_le_two, expiry_shortLived, ?_⟩
  decide +kernel

end Promotion
