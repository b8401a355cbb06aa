/-
The scripts of the v2 `RedisStore` and the calls that run them.

The keyspace is flat: a data key and a lease key for every entry, each with its
own expiry.  Every call of a client reaches Redis as at most one atomic command
or script.

* `slot_step` — the calls act on each entry separately: the two keys of an
  entry (`Slot`) evolve by `Slot.step` alone, whatever happens to other entries;
* `holder_step` — a lease is held after an action only if the action acquired
  it, or it was held before and the action neither cleared nor released it;
* `data_step` — data is present after an action only if the action wrote it, or
  it was present before and the action did not clear it.
-/
import LazyLayers.RedisKeys

open Js

namespace RedisStore

/-- Octets: the tokens as they travel, and the encoded payloads. -/
abbrev Octets := List UInt8

/-! ### The keyspace and the commands -/

structure Entry where
  value : Octets
  expireAt : ℕ
  deriving DecidableEq

/-- Redis: server time in milliseconds and the keys it keeps. -/
structure Db where
  now : ℕ
  entries : Octets → Option Entry

namespace Db

variable (db : Db)

def put (key : Octets) (e : Option Entry) : Db :=
  { db with entries := Function.update db.entries key e }

def get (key : Octets) : Option Octets := (db.entries key).map Entry.value

/-- `SET key value PX ttl`. -/
def set (key value : Octets) (ttl : ℕ) : Db := db.put key (some ⟨value, db.now + ttl⟩)

def del (key : Octets) : Db := db.put key none

/-- `SET key value PX ttl NX`; the reply is whether it was `OK`. -/
def setNX (key value : Octets) (ttl : ℕ) : Db × Bool :=
  if (db.entries key).isSome then (db, false) else (db.set key value ttl, true)

/-- `RELEASE_LOCK_LUA`. -/
def releaseLock (lock token : Octets) : Db × ℕ :=
  if db.get lock = some token then (db.del lock, 1) else (db, 0)

/-- `RENEW_LOCK_LUA`: `pexpire` on the key that was just read. -/
def renewLock (lock token : Octets) (ttl : ℕ) : Db × ℕ :=
  if db.get lock = some token then (db.set lock token ttl, 1) else (db, 0)

/-- `PUBLISH_IF_OWNER_LUA`. -/
def publishIfOwner (data lock token payload : Octets) (ttl : ℕ) : Db × ℕ :=
  if db.get lock = some token then (db.set data payload ttl, 1) else (db, 0)

/-- `SET_AND_FENCE_LUA`. -/
def setAndFence (data lock payload : Octets) (ttl : ℕ) : Db := (db.set data payload ttl).del lock

/-- `DELETE_AND_FENCE_LUA`. -/
def deleteAndFence (data lock : Octets) : Db := (db.del data).del lock

/-- Time passes.  A key is still there at its deadline, with a `PTTL` of `0`, and gone behind
it. -/
def advance (ms : ℕ) : Db :=
  ⟨db.now + ms, fun key => (db.entries key).filter fun e => db.now + ms ≤ e.expireAt⟩

end Db

/-! ### The calls of a client -/

/-- The options of a write after `resolveTtl` and `resolveMaxEntries` have merged them. -/
structure WriteOptions where
  ttlMs : ℤ
  maxEntries : Option ℤ := none
  deriving DecidableEq

def maxSafeInteger : ℤ := 2 ^ 53 - 1

/-- `resolveTtl` accepts positive safe integers and throws a `RangeError` otherwise. -/
def validTtl (ttlMs : ℤ) : Bool := 0 < ttlMs && ttlMs ≤ maxSafeInteger

def WriteOptions.valid (o : WriteOptions) : Bool :=
  validTtl o.ttlMs && o.maxEntries.all fun m => 0 ≤ m && m ≤ maxSafeInteger

inductive Call
  | acquireLock (key : JsString) (token : Octets) (ttlMs : ℤ)
  | renewLock (key : JsString) (token : Octets) (ttlMs : ℤ)
  | releaseLock (key : JsString) (token : Octets)
  | publishIfOwner (key : JsString) (token payload : Octets) (options : WriteOptions)
  | setEncoded (key : JsString) (payload : Octets) (options : WriteOptions)
  | delete (key : JsString)
  deriving DecidableEq

inductive Reply
  | done
  | flag (value : Bool)
  | published
  | notOwner
  | rangeError
  | typeError
  deriving DecidableEq

variable (N : Layout)

/-- `deleteKeys`: the data keys among `keys`, each fenced by one script. -/
def deleteKeys (keys : List JsString) (db : Db) : Db :=
  keys.foldl (fun db redisKey =>
    match parseRedisKey N redisKey with
    | some (.data, logicalKey) => db.deleteAndFence (utf8 redisKey) (lockKey N logicalKey)
    | _ => db) db

/-- The effect of a call on Redis and its reply.  A call that throws sends nothing. -/
def Call.run (c : Call) (db : Db) : Db × Reply :=
  match c with
  | acquireLock key token ttlMs =>
    if validTtl ttlMs then
      let (db, ok) := db.setNX (lockKey N key) token ttlMs.toNat
      (db, .flag ok)
    else (db, .rangeError)
  | renewLock key token ttlMs =>
    if validTtl ttlMs then
      let (db, result) := db.renewLock (lockKey N key) token ttlMs.toNat
      (db, .flag (result = 1))
    else (db, .rangeError)
  | releaseLock key token => ((db.releaseLock (lockKey N key) token).1, .done)
  | publishIfOwner key token payload options =>
    if options.valid then
      if token = [] then (db, .typeError)
      else
        let (db, result) := db.publishIfOwner (dataKey N key) (lockKey N key) token payload
          options.ttlMs.toNat
        (db, if result = 1 then .published else .notOwner)
    else (db, .rangeError)
  | setEncoded key payload options =>
    if options.valid then
      (db.setAndFence (dataKey N key) (lockKey N key) payload options.ttlMs.toNat, .done)
    else (db, .rangeError)
  | delete key => (deleteKeys N [toRedisKey N key] db, .done)

inductive Action
  | advance (ms : ℕ)
  | call (c : Call)
  deriving DecidableEq

def Db.step (db : Db) : Action → Db
  | .advance ms => db.advance ms
  | .call c => (c.run N db).1

/-! ### One entry at a time -/

/-- The two keys of one entry. -/
structure Slot where
  data : Option Entry
  lease : Option Entry

def Db.slot (db : Db) (key : JsString) : Slot :=
  ⟨db.entries (dataKey N key), db.entries (lockKey N key)⟩

/-- An explicit write or delete of `key`.  A write whose options are refused is none. -/
def Call.Fences (c : Call) (key : JsString) : Prop :=
  match c with
  | setEncoded key' _ options => key' = key ∧ options.valid
  | delete key' => key' = key
  | _ => False

/-- A fence that reaches Redis.  A `delete` whose Redis key is that of the index sends nothing. -/
def Call.Clears (c : Call) (key : JsString) : Prop :=
  c.Fences key ∧ (c = .delete key → toRedisKey N key ≠ N.indexKey)

/-- Where a `delete` sends nothing, there is nothing to delete in the slot of its entry. -/
def Call.TakesEffect (c : Call) (s : Slot) : Prop :=
  match c with
  | delete key => toRedisKey N key ≠ N.indexKey ∨ s = ⟨none, none⟩
  | _ => True

def Slot.holder (s : Slot) : Option Octets := s.lease.map Entry.value

/-- What a call of the entry itself does to its slot. -/
def Slot.call (s : Slot) (now : ℕ) (c : Call) : Slot :=
  match c with
  | .acquireLock _ token ttlMs =>
    if validTtl ttlMs ∧ s.lease = none then
      { s with lease := some ⟨token, now + ttlMs.toNat⟩ } else s
  | .renewLock _ token ttlMs =>
    if validTtl ttlMs ∧ s.holder = some token then
      { s with lease := some ⟨token, now + ttlMs.toNat⟩ } else s
  | .releaseLock _ token => if s.holder = some token then { s with lease := none } else s
  | .publishIfOwner _ token payload options =>
    if options.valid ∧ token ≠ [] ∧ s.holder = some token then
      { s with data := some ⟨payload, now + options.ttlMs.toNat⟩ } else s
  | .setEncoded _ payload options =>
    if options.valid then ⟨some ⟨payload, now + options.ttlMs.toNat⟩, none⟩ else s
  | .delete key => if toRedisKey N key ≠ N.indexKey then ⟨none, none⟩ else s

def Call.key : Call → JsString
  | acquireLock key _ _ | renewLock key _ _ | releaseLock key _ | publishIfOwner key _ _ _
  | setEncoded key _ _ | delete key => key

/-- What any action does to the slot of `key`. -/
def Slot.step (s : Slot) (now : ℕ) (key : JsString) : Action → Slot
  | .advance ms =>
    ⟨s.data.filter fun e => now + ms ≤ e.expireAt, s.lease.filter fun e => now + ms ≤ e.expireAt⟩
  | .call c => if c.key = key then s.call N now c else s

theorem Db.slot_put_data (db : Db) (key key' : JsString) (e : Option Entry) :
    (db.put (dataKey N key') e).slot N key =
      if key' = key then { db.slot N key with data := e } else db.slot N key := by
  have hlock : lockKey N key ≠ dataKey N key' := (dataKey_ne_lockKey N key' key).symm
  by_cases h : key' = key
  · subst h
    simp [slot, put, hlock]
  · have hdata : dataKey N key ≠ dataKey N key' := fun heq => h (dataKey_injective N heq).symm
    simp [slot, put, hlock, hdata, h]

theorem Db.slot_put_lock (db : Db) (key key' : JsString) (e : Option Entry) :
    (db.put (lockKey N key') e).slot N key =
      if key' = key then { db.slot N key with lease := e } else db.slot N key := by
  have hdata : dataKey N key ≠ lockKey N key' := dataKey_ne_lockKey N key key'
  by_cases h : key' = key
  · subst h
    simp [slot, put, hdata]
  · have hlock : lockKey N key ≠ lockKey N key' := fun heq => h (lockKey_injective N heq).symm
    simp [slot, put, hlock, hdata, h]

theorem Db.get_lock (db : Db) (key : JsString) :
    db.get (lockKey N key) = (db.slot N key).holder := rfl

theorem deleteKeys_toRedisKey (db : Db) (key : JsString) :
    deleteKeys N [toRedisKey N key] db =
      if toRedisKey N key ≠ N.indexKey then db.deleteAndFence (dataKey N key) (lockKey N key)
      else db := by
  rw [deleteKeys, List.foldl_cons, List.foldl_nil]
  by_cases hidx : toRedisKey N key = N.indexKey
  · have hnone : parseRedisKey N (toRedisKey N key) = none := by rw [parseRedisKey, if_pos hidx]
    rw [hnone, if_neg (by simpa using hidx)]
  · rw [parseRedisKey_toRedisKey N hidx, if_pos hidx]
    rfl

/-- A call acts on the slot of its own entry. -/
theorem slot_run_self (db : Db) (c : Call) :
    (c.run N db).1.slot N c.key = (db.slot N c.key).call N db.now c := by
  cases c with
  | acquireLock key token ttlMs =>
    simp only [Call.run, Call.key, Slot.call, Db.setNX]
    by_cases hv : validTtl ttlMs = true
    · by_cases hl : (db.slot N key).lease = none
      · have hl' : db.entries (lockKey N key) = none := hl
        simp [hv, hl, hl', Db.set, Db.slot_put_lock]
      · have hl' : (db.entries (lockKey N key)).isSome = true := Option.isSome_iff_ne_none.mpr hl
        simp [hv, hl, hl']
    · simp [hv]
  | renewLock key token ttlMs =>
    simp only [Call.run, Call.key, Slot.call, Db.renewLock, Db.get_lock]
    by_cases hv : validTtl ttlMs = true
    · by_cases hh : (db.slot N key).holder = some token
      · simp [hv, hh, Db.set, Db.slot_put_lock]
      · simp [hv, hh]
    · simp [hv]
  | releaseLock key token =>
    simp only [Call.run, Call.key, Slot.call, Db.releaseLock, Db.get_lock]
    by_cases hh : (db.slot N key).holder = some token
    · simp [hh, Db.del, Db.slot_put_lock]
    · simp [hh]
  | publishIfOwner key token payload options =>
    simp only [Call.run, Call.key, Slot.call, Db.publishIfOwner, Db.get_lock]
    by_cases hv : options.valid = true
    · by_cases ht : token = []
      · simp [hv, ht]
      · by_cases hh : (db.slot N key).holder = some token
        · simp [hv, ht, hh, Db.set, Db.slot_put_data]
        · simp [hv, ht, hh]
    · simp [hv]
  | setEncoded key payload options =>
    simp only [Call.run, Call.key, Slot.call, Db.setAndFence, Db.set, Db.del]
    by_cases hv : options.valid = true
    · simp [hv, Db.slot_put_data, Db.slot_put_lock]
    · simp [hv]
  | delete key =>
    simp only [Call.run, Call.key, Slot.call, deleteKeys_toRedisKey, Db.deleteAndFence, Db.del]
    by_cases hi : toRedisKey N key = N.indexKey
    · simp [hi]
    · simp [hi, Db.slot_put_data, Db.slot_put_lock]

/-- ... and on no other. -/
theorem slot_run_other (db : Db) (c : Call) {key : JsString} (hk : c.key ≠ key) :
    (c.run N db).1.slot N key = db.slot N key := by
  cases c with
  | acquireLock key' token ttlMs =>
    simp only [Call.key] at hk
    simp only [Call.run, Db.setNX]
    split
    · split
      · rfl
      · simp [Db.set, Db.slot_put_lock, hk]
    · rfl
  | renewLock key' token ttlMs =>
    simp only [Call.key] at hk
    simp only [Call.run, Db.renewLock]
    split
    · split
      · simp [Db.set, Db.slot_put_lock, hk]
      · rfl
    · rfl
  | releaseLock key' token =>
    simp only [Call.key] at hk
    simp only [Call.run, Db.releaseLock]
    split
    · simp [Db.del, Db.slot_put_lock, hk]
    · rfl
  | publishIfOwner key' token payload options =>
    simp only [Call.key] at hk
    simp only [Call.run, Db.publishIfOwner]
    split
    · split
      · rfl
      · split
        · simp [Db.set, Db.slot_put_data, hk]
        · rfl
    · rfl
  | setEncoded key' payload options =>
    simp only [Call.key] at hk
    simp only [Call.run, Db.setAndFence, Db.set, Db.del]
    split
    · simp [Db.slot_put_data, Db.slot_put_lock, hk]
    · rfl
  | delete key' =>
    simp only [Call.key] at hk
    simp only [Call.run, deleteKeys_toRedisKey, Db.deleteAndFence, Db.del]
    split
    · simp [Db.slot_put_data, Db.slot_put_lock, hk]
    · rfl

/-- The flat keyspace is a family of independent slots. -/
theorem slot_step (db : Db) (key : JsString) (a : Action) :
    (db.step N a).slot N key = (db.slot N key).step N db.now key a := by
  cases a with
  | advance ms => rfl
  | call c =>
    rw [Db.step, Slot.step]
    by_cases hk : c.key = key
    · rw [if_pos hk, ← hk, slot_run_self]
    · rw [if_neg hk, slot_run_other N db c hk]

/-! ### What one action can do to a lease and to the data -/

variable {N} {s : Slot} {now : ℕ} {key : JsString} {a : Action} {t : Octets}

theorem key_of_fences {c : Call} (h : c.Fences key) : c.key = key := by
  cases c with
  | setEncoded key' payload options => exact h.1
  | delete key' => exact h
  | _ => exact h.elim

/-- Where something is stored, a fence that takes effect reaches Redis. -/
theorem clears_of_fences {c : Call} (hf : c.Fences key) (heffect : c.TakesEffect N s)
    (hs : s ≠ ⟨none, none⟩) : c.Clears N key := by
  refine ⟨hf, ?_⟩
  rintro rfl
  exact heffect.resolve_right hs

/-- A lease that is held after an action was acquired by it or was held before. -/
theorem holder_step (h : (s.step N now key a).holder = some t) :
    (s.lease = none ∧ ∃ ttlMs, validTtl ttlMs ∧ a = .call (.acquireLock key t ttlMs)) ∨
      (s.holder = some t ∧
        ∀ c, a = .call c → ¬ c.Clears N key ∧ c ≠ .releaseLock key t) := by
  cases a with
  | advance ms =>
    right
    refine ⟨?_, fun c hc => nomatch hc⟩
    obtain ⟨e, he, hv⟩ := Option.map_eq_some_iff.mp h
    have hlease : s.lease = some e := (Option.filter_eq_some_iff.mp he).1
    rw [Slot.holder, hlease, Option.map_some, hv]
  | call c =>
    rw [Slot.step] at h
    by_cases hk : c.key = key
    · rw [if_pos hk] at h
      subst hk
      cases c with
      | acquireLock key token ttlMs =>
        simp only [Slot.call] at h
        split at h
        · rename_i hc
          left
          obtain rfl : token = t := by simpa [Slot.holder] using h
          exact ⟨hc.2, ttlMs, hc.1, rfl⟩
        · right
          refine ⟨h, ?_⟩
          rintro c ⟨⟩
          exact ⟨fun hf => hf.1, nofun⟩
      | renewLock key token ttlMs =>
        right
        have hs : s.holder = some t := by
          simp only [Slot.call] at h
          split at h
          · rename_i hc
            obtain rfl : token = t := by simpa [Slot.holder] using h
            exact hc.2
          · exact h
        refine ⟨hs, ?_⟩
        rintro c ⟨⟩
        exact ⟨fun hf => hf.1, nofun⟩
      | releaseLock key token =>
        right
        simp only [Slot.call] at h
        split at h
        · simp [Slot.holder] at h
        · rename_i hne
          refine ⟨h, ?_⟩
          rintro c ⟨⟩
          refine ⟨fun hf => hf.1, ?_⟩
          rintro ⟨⟩
          exact hne h
      | publishIfOwner key token payload options =>
        right
        have hs : s.holder = some t := by
          simp only [Slot.call] at h
          split at h <;> exact h
        refine ⟨hs, ?_⟩
        rintro c ⟨⟩
        exact ⟨fun hf => hf.1, nofun⟩
      | setEncoded key payload options =>
        right
        simp only [Slot.call] at h
        split at h
        · simp [Slot.holder] at h
        · rename_i hv
          refine ⟨h, ?_⟩
          rintro c ⟨⟩
          exact ⟨fun hf => hv hf.1.2, nofun⟩
      | delete key =>
        right
        simp only [Slot.call] at h
        split at h
        · simp [Slot.holder] at h
        · rename_i hi
          refine ⟨h, ?_⟩
          rintro c ⟨⟩
          exact ⟨fun hf => hi (hf.2 rfl), nofun⟩
    · rw [if_neg hk] at h
      right
      refine ⟨h, ?_⟩
      rintro c ⟨⟩
      -- both kinds of interference carry the key of the entry
      refine ⟨fun hf => hk ?_, ?_⟩
      · exact key_of_fences hf.1
      · rintro rfl
        exact hk rfl

/-- Data that is present after an action was written by it or was present before. -/
theorem data_step {e : Entry} (h : (s.step N now key a).data = some e) :
    (∃ o, a = .call (.setEncoded key e.value o)) ∨
      (∃ t o, o.valid ∧ t ≠ [] ∧ s.holder = some t ∧
        a = .call (.publishIfOwner key t e.value o)) ∨
      (s.data = some e ∧ ∀ c, a = .call c → ¬ c.Clears N key) := by
  cases a with
  | advance ms =>
    right; right
    exact ⟨(Option.filter_eq_some_iff.mp h).1, fun c hc => nomatch hc⟩
  | call c =>
    rw [Slot.step] at h
    by_cases hk : c.key = key
    · rw [if_pos hk] at h
      subst hk
      cases c with
      | acquireLock key token ttlMs =>
        right; right
        have hd : s.data = some e := by
          simp only [Slot.call] at h
          split at h <;> exact h
        refine ⟨hd, ?_⟩
        rintro c ⟨⟩
        exact fun hf => hf.1
      | renewLock key token ttlMs =>
        right; right
        have hd : s.data = some e := by
          simp only [Slot.call] at h
          split at h <;> exact h
        refine ⟨hd, ?_⟩
        rintro c ⟨⟩
        exact fun hf => hf.1
      | releaseLock key token =>
        right; right
        have hd : s.data = some e := by
          simp only [Slot.call] at h
          split at h <;> exact h
        refine ⟨hd, ?_⟩
        rintro c ⟨⟩
        exact fun hf => hf.1
      | publishIfOwner key token payload options =>
        simp only [Slot.call] at h
        split at h
        · rename_i hc
          right; left
          obtain rfl : _ = e := Option.some.inj h
          exact ⟨token, options, hc.1, hc.2.1, hc.2.2, rfl⟩
        · right; right
          refine ⟨h, ?_⟩
          rintro c ⟨⟩
          exact fun hf => hf.1
      | setEncoded key payload options =>
        simp only [Slot.call] at h
        split at h
        · left
          obtain rfl : _ = e := Option.some.inj h
          exact ⟨options, rfl⟩
        · rename_i hv
          right; right
          refine ⟨h, ?_⟩
          rintro c ⟨⟩
          exact fun hf => hv hf.1.2
      | delete key =>
        simp only [Slot.call] at h
        split at h
        · simp at h
        · rename_i hi
          right; right
          refine ⟨h, ?_⟩
          rintro c ⟨⟩
          exact fun hf => hi (hf.2 rfl)
    · rw [if_neg hk] at h
      right; right
      refine ⟨h, ?_⟩
      rintro c ⟨⟩ hf
      exact hk (key_of_fences hf.1)

end RedisStore
