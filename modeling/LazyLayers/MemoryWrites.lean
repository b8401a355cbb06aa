/-
A write of a memory store leaves the new value or none (`memoryStore.ts`).

A write can be given up at six places: the value cannot be serialized, the entry is too
large or the budget is under pressure, the admission policy prefers what is resident, no
room could be made, or there is no memory for the buffer.  Most of them remove the entry of
the key before they give up.  The admission policy leaves it alone, but it is only asked
where the entry of the key has expired or there is none.

* `cached_of_decodeRecord` — whatever the limits of the reader, a record that a value has
  been written as is read as that value or not at all;
* `Counted.peeked_run_self`, `Counted.peeked_run_other` — what a call leaves to be found under
  the key that it writes, and under the others;
* `World.peeked_step` — what an event of the process leaves there;
* `write_never_stale` — no run answers the value that a write was to replace.
-/
import LazyLayers.MemoryClients
import LazyLayers.RecordRoundTrip

open Js Pattern Runs DecodeValidation

namespace Serializer

variable {N O : Type} {rt : Runtime N O} {native : NativeCodecs}
  {limits : ResolvedDecodeLimits} {value w : Value N O}

/-- A limit may make the functions of zlib throw; it does not change what they answer. -/
structure NativeCodecs.Steady (native : NativeCodecs) : Prop where
  gunzipSync : ∀ {z b b' max max'}, native.gunzipSync z (some max) = some b →
    native.gunzipSync z (some max') = some b' → b' = b
  zstdDecompress : ∀ {z b b' max max'}, native.zstdDecompress z (some max) = some b →
    native.zstdDecompress z (some max') = some b' → b' = b

/-- What has been compressed is expanded to what it was, or not at all. -/
theorem eq_of_decompress (hn : native.Lawful) (hs : native.Steady) (name : CodecName)
    {b z expanded : Bytes} {max : ℕ} (hz : (codec native name).compress b = some z)
    (h : (codec native name).decompress z (some max) = some expanded) : expanded = b := by
  have hfull := decompress_compress hn name hz le_rfl
  cases name with
  | none =>
    have hb : b = z := Option.some.inj hz
    rw [hb]
    exact (Option.some.inj h).symm
  | gzip => exact hs.gunzipSync hfull h
  | zstd =>
    change (if native.zstdAvailable then native.zstdDecompress z (some max) else none) =
      some expanded at h
    change (if native.zstdAvailable then native.zstdDecompress z (some b.length) else none) =
      some b at hfull
    split_ifs at h hfull
    exact hs.zstdDecompress hfull h
  | lz4 =>
    have hlz4 := hn.lz4 hz
    simp only [codec] at h
    split at h
    · cases h
    · split_ifs at h
      rw [hlz4] at h
      exact (Option.some.inj h).symm
  | snappy =>
    have hsnappy := hn.snappy hz
    simp only [codec] at h
    split at h
    · cases h
    · split_ifs at h
      rw [hsnappy] at h
      exact (Option.some.inj h).symm

/-- Nothing of the value is lost: it is packed, or JSON denotes it. -/
def Lossless (asJson : Bool) (value : Value N O) : Prop :=
  asJson = true → ∃ v, value = .json v ∧ v.Proper

/-- Packed bytes are read as the value that was packed. -/
theorem eq_of_read_packed (hm : rt.msgpackr.Lawful) {packed : Bytes}
    (hv : rt.msgpackr.pack value = some packed) (hne : value.isSentinel = false)
    (h : (if limits.maxDecodedBytes < packed.length then none
      else if packed = packedSentinel then some .null
      else unpackChecked rt limits packed false) = some w) : w = value := by
  rw [if_neg (packed_ne_sentinel hm hv hne), unpackChecked_eq, hm hv] at h
  split_ifs at h
  exact (Option.some.inj h).symm

/-- A record is read as the value that it was written for, or not at all. -/
theorem cached_of_decodeRecord (hm : rt.msgpackr.Lawful) (hn : native.Lawful)
    (hs : native.Steady) {asJson : Bool} {r : Bytes}
    (hwritten : Written rt (compresses native) asJson value r) (hlossless : Lossless asJson value)
    (h : decodeRecord rt native limits r = some w) : w = value.cached := by
  have hlen : r.length ≤ limits.maxEncodedBytes := by
    by_contra hlong
    rw [decodeRecord, if_pos (Nat.lt_of_not_le hlong)] at h
    cases h
  cases hwritten with
  | null hnull =>
    rw [length_withWireTag (by decide)] at hlen
    rw [decodeRecord_msgpack hlen, if_pos rfl] at h
    split_ifs at h
    rw [Value.cached_eq_null hnull]
    exact (Option.some.inj h).symm
  | @text json hnull hformat htext =>
    have hjson : ∃ v, value = .json v ∧ v.Proper := by
      rcases hformat with hsentinel | hformat
      · exact ⟨.str cacheNullSentinel, Value.isSentinel_iff.mp hsentinel, trivial⟩
      · exact hlossless hformat
    obtain ⟨v, rfl, hproper⟩ := hjson
    obtain rfl : stringify rt.numbers v = json := Option.some.inj htext
    rw [length_withWireTag (by decide)] at hlen
    rw [decodeRecord_json hlen, parseChecked,
      decodeUtf8_utf8 (wellFormed_stringify rt.numbers v), parse_stringify rt.numbers hproper] at h
    split_ifs at h
    exact (Option.some.inj h).symm
  | plain hnull hsentinel _ hpack =>
    rw [length_withWireTag (by decide)] at hlen
    rw [decodeRecord_msgpack hlen] at h
    rw [Value.cached_eq_self hnull]
    exact eq_of_read_packed hm hpack hsentinel h
  | compressed hnull hsentinel _ hpack hz _ =>
    obtain ⟨name, htag, hz⟩ := hz
    rw [length_withWireTag (isTag_codec native htag)] at hlen
    rw [decodeRecord_codec htag hlen] at h
    obtain ⟨expanded, hexpanded, h⟩ := Option.bind_eq_some_iff.mp h
    rw [eq_of_decompress hn hs name hz hexpanded] at h
    rw [Value.cached_eq_self hnull]
    exact eq_of_read_packed hm hpack hsentinel h

end Serializer

namespace MemoryStore

open Serializer (Runtime Environment SerializeOptions Value NativeCodecs Lossless serialize
  decodeRecord)

/-! ### Writes and reads -/

section

variable {N O : Type} (rt : Runtime N O) (native : NativeCodecs)

/-- What `set` makes of a value. -/
def written (env : Environment) (value : Value N O) (options : SerializeOptions) : Written :=
  if value.isUndefined then .absent
  else
    match serialize rt native env value options with
    | .error _ => .unserializable
    | .ok record => .encoded record

end

section Writes

variable {T : Type} {lru : LruCache T CacheKey Entry}

/-- What the LRU finds for `get`. -/
def found (m : MemoryStore lru.Cache) (now : T) (key : CacheKey) : Option Entry :=
  m.cache.bind fun c => (lru.run c (.get now key)).answer

/-- What `get` answers. -/
def read {N O : Type} (rt : Runtime N O) (native : NativeCodecs) (limits : ResolvedDecodeLimits)
    (m : MemoryStore lru.Cache) (now : T) (key : CacheKey) : Option (Value N O) :=
  (found m now key).bind fun e => decodeRecord rt native limits e.buffer

/-- A write: its time, its key, and the record that is written, if there is one. -/
structure Write (T : Type) where
  now : T
  key : CacheKey
  record : Option (List UInt8)

def Written.record : Written → Option (List UInt8)
  | .absent => none
  | .unserializable => none
  | .encoded buffer => some buffer

/-- What can be found under a key. -/
def peeked (m : MemoryStore lru.Cache) (now : T) (key : CacheKey) : Option Entry :=
  m.cache.bind fun c => lru.peek c now key

/-- Whatever can be found in one store can be found in the other. -/
def Beneath (m' m : MemoryStore lru.Cache) : Prop :=
  ∀ later key e, peeked m' later key = some e → peeked m later key = some e

theorem Beneath.refl (m : MemoryStore lru.Cache) : Beneath m m := fun _ _ _ h => h

theorem Beneath.trans {m m' m'' : MemoryStore lru.Cache} (h : Beneath m'' m') (h' : Beneath m' m) :
    Beneath m'' m := fun later key e he => h' later key e (h later key e he)

theorem Beneath.peeked_none {m m' : MemoryStore lru.Cache} (h : Beneath m' m) {later : T}
    {key : CacheKey} (hnone : peeked m later key = none) : peeked m' later key = none := by
  rcases hpeeked : peeked m' later key with _ | e
  · rfl
  · rw [h later key e hpeeked] at hnone
    cases hnone

namespace Counted

variable {s : Counted lru} {o : MemoryStoreOptions} {now later ttl : T} {key key' : CacheKey}
  {e e' : Entry} {buffer : List UInt8}

theorem peeked_call {c : lru.Cache} (hc : s.store.cache = some c) (call : LruCall T CacheKey Entry) :
    peeked (s.call call).store later key = lru.peek (lru.run c call).cache later key := by
  rw [peeked, cache_call, hc]
  rfl

theorem peeked_record (s : Counted lru) (key key' : CacheKey) (later : T) :
    peeked (s.record key).store later key' = peeked s.store later key' := by
  rw [peeked, record, (record_spec s.store key).1]
  rfl

variable [LinearOrder T]

/-- A call that adds nothing makes nothing readable. -/
theorem beneath_call (hlru : lru.Reading) (s : Counted lru) {call : LruCall T CacheKey Entry}
    (hadded : LruCache.added call = []) : Beneath (s.call call).store s.store := by
  intro later key e he
  rcases hc : s.store.cache with _ | c
  · rw [peeked, cache_call, hc] at he
    cases he
  · rw [peeked_call hc] at he
    rw [peeked, hc]
    exact hlru.below c call hadded later key e he

theorem beneath_remove (hlru : lru.Reading) (s : Counted lru) (key : CacheKey) :
    Beneath (s.remove key).store s.store := beneath_call hlru s rfl

theorem beneath_foldl_remove (hlru : lru.Reading) (keys : List CacheKey) (s : Counted lru) :
    Beneath (keys.foldl remove s).store s.store := by
  induction keys generalizing s with
  | nil => exact .refl s.store
  | cons key keys ih => exact (ih (s.remove key)).trans (beneath_remove hlru s key)

theorem beneath_makeRoom (hlru : lru.Reading) (bytes rounds : ℕ) (s : Counted lru) :
    Beneath (s.makeRoom bytes rounds).1.store s.store := by
  induction rounds generalizing s with
  | zero => exact .refl s.store
  | succ rounds ih =>
    rw [makeRoom]
    split
    · exact .refl s.store
    · split
      · exact beneath_call hlru s rfl
      · exact (ih (s.call .pop)).trans (beneath_call hlru s rfl)

theorem peeked_remove_self (hlru : lru.Reading) (s : Counted lru) (key : CacheKey) (later : T) :
    peeked (s.remove key).store later key = none := by
  rcases hc : s.store.cache with _ | c
  · rw [peeked, remove, cache_call, hc]
    rfl
  · exact (peeked_call hc _).trans (hlru.peek_delete c key later)

/-- An inserted entry is the one that its key has; the others stay or go. -/
theorem peeked_insert (hlru : lru.Reading)
    (h : peeked (s.insert now key e ttl).store later key' = some e') :
    (key = key' ∧ e' = e) ∨ (key ≠ key' ∧ peeked s.store later key' = some e') := by
  have hcall : peeked (s.call (.set now key e ttl)).store later key' = some e' := h
  rcases hc : s.store.cache with _ | c
  · rw [peeked, cache_call, hc] at hcall
    cases hcall
  rw [peeked_call hc] at hcall
  by_cases hkey : key = key'
  · subst hkey
    exact .inl ⟨rfl, hlru.peek_set_self c key e ttl hcall⟩
  · refine .inr ⟨hkey, ?_⟩
    rw [peeked, hc]
    exact hlru.peek_set_other c key e ttl hkey hcall

theorem beneath_touch (hlru : lru.Reading) (s : Counted lru) (now : T) (key : CacheKey) :
    Beneath (s.touch now key).store s.store := by
  intro later key' e he
  rw [← peeked_record s key]
  exact beneath_call hlru (s.record key) rfl later key' e he

end Counted

variable [LinearOrder T]

theorem found_eq_peeked (hlru : lru.Reading) (m : MemoryStore lru.Cache) (now : T)
    (key : CacheKey) : found m now key = peeked m now key := by
  rw [found, peeked]
  rcases m.cache with _ | c
  · rfl
  · exact hlru.answer_get c now key

variable [Zero T]

/-- The writes among the calls of a store: those whose time to live is accepted. -/
def Op.write : Op T → Option (Write T)
  | .set now key value ttl _ => if ttl ≤ 0 then none else some ⟨now, key, value.record⟩
  | .setEncoded now key buffer ttl _ => if ttl ≤ 0 then none else some ⟨now, key, some buffer⟩
  | _ => none

namespace Counted

variable {s : Counted lru} {o : MemoryStoreOptions} {now later ttl : T} {key key' : CacheKey}
  {e : Entry} {buffer : List UInt8}

/-- After `setEncoded` the key has the new record, or nothing that can be found. -/
theorem peeked_setEncoded_self (hlru : lru.Reading) (hlater : now ≤ later) (httl : ¬ ttl ≤ 0)
    {allocates : Bool}
    (h : peeked (s.setEncoded o now key buffer ttl allocates).store later key = some e) :
    e.buffer = buffer := by
  rw [setEncoded] at h
  split at h
  · next hclosed =>
    rw [peeked, hclosed] at h
    cases h
  next c hc =>
  rw [if_neg httl] at h
  dsimp only at h
  -- once the key is removed nothing is found there
  have hgone : ∀ m : MemoryStore lru.Cache, Beneath m (s.remove key).store →
      peeked m later key = some e → e.buffer = buffer := by
    intro m hm he
    rw [hm.peeked_none (peeked_remove_self hlru s key later)] at he
    cases he
  split at h
  · exact hgone _ (.refl _) h
  split at h
  · -- the admission policy is asked only where nothing is found
    next hprior =>
    simp only [Bool.and_eq_true] at hprior
    have hnone := hlru.expired c key hlater (Option.isNone_iff_eq_none.mp hprior.1.1.1)
    have hstore : peeked s.store later key = some e := h
    rw [peeked, hc, Option.bind_some, hnone] at hstore
    cases hstore
  have hroom := beneath_makeRoom hlru (entryBytes buffer key) maxEvictionsPerWrite (s.remove key)
  split at h
  · split at h
    · rcases peeked_insert hlru h with ⟨-, rfl⟩ | ⟨hne, -⟩
      · rfl
      · exact absurd rfl hne
    · exact hgone _ hroom h
  · exact hgone _ hroom h

theorem peeked_setEncoded_other (hlru : lru.Reading) {allocates : Bool} (hkey : key ≠ key')
    (h : peeked (s.setEncoded o now key buffer ttl allocates).store later key' = some e) :
    peeked s.store later key' = some e := by
  rw [setEncoded] at h
  split at h
  · exact h
  split at h
  · exact h
  dsimp only at h
  have hremove := beneath_remove hlru s key
  split at h
  · exact hremove later key' e h
  split at h
  · exact h
  have hroom := (beneath_makeRoom hlru (entryBytes buffer key) maxEvictionsPerWrite
    (s.remove key)).trans hremove
  split at h
  · split at h
    · rcases peeked_insert hlru h with ⟨heq, -⟩ | ⟨-, hold⟩
      · exact absurd heq hkey
      · exact hroom later key' e hold
    · exact hroom later key' e h
  · exact hroom later key' e h

/-- A call leaves its new record under the key that it writes, or nothing to be found. -/
theorem peeked_run_self (hlru : lru.Reading) {op : Op T} {write : Write T}
    (hwrite : op.write = some write) (hlater : write.now ≤ later)
    (h : peeked (op.run o s).store later write.key = some e) : write.record = some e.buffer := by
  cases op with
  | set now key value ttl allocates =>
    rw [Op.write] at hwrite
    split at hwrite
    · cases hwrite
    next httl =>
    obtain rfl : Write.mk now key value.record = write := Option.some.inj hwrite
    rw [Op.run, set.eq_def] at h
    split at h
    · next hclosed =>
      rw [peeked, Option.isNone_iff_eq_none.mp (hclosed.resolve_right httl)] at h
      cases h
    · -- a value that is not stored is deleted
      cases value with
      | absent =>
        have hnone := peeked_remove_self hlru s key later
        rw [h] at hnone
        cases hnone
      | unserializable =>
        have hnone : peeked (s.remove key).reject.store later key = none :=
          peeked_remove_self hlru s key later
        rw [h] at hnone
        cases hnone
      | encoded buffer =>
        rw [peeked_setEncoded_self hlru hlater httl h]
        rfl
  | setEncoded now key buffer ttl allocates =>
    rw [Op.write] at hwrite
    split at hwrite
    · cases hwrite
    next httl =>
    obtain rfl : Write.mk now key (some buffer) = write := Option.some.inj hwrite
    rw [peeked_setEncoded_self hlru hlater httl h]
  | get now key hit => cases hwrite
  | getEncoded now key => cases hwrite
  | has now key => cases hwrite
  | delete key => cases hwrite
  | deleteByPattern now pattern => cases hwrite
  | clear => cases hwrite
  | size now => cases hwrite
  | evictOne => cases hwrite
  | close => cases hwrite

/-- Under every other key a call keeps what is found, or removes it. -/
theorem peeked_run_other (hlru : lru.Reading) {op : Op T}
    (hother : ∀ write, op.write = some write → write.key ≠ key')
    (h : peeked (op.run o s).store later key' = some e) : peeked s.store later key' = some e := by
  cases op with
  | set now key value ttl allocates =>
    rw [Op.run, set.eq_def] at h
    split at h
    · exact h
    next hopen =>
    have hkey : key ≠ key' := hother _ (if_neg (not_or.mp hopen).2)
    cases value with
    | absent => exact beneath_remove hlru s key later key' e h
    | unserializable => exact beneath_remove hlru s key later key' e h
    | encoded buffer => exact peeked_setEncoded_other hlru hkey h
  | setEncoded now key buffer ttl allocates =>
    by_cases httl : ttl ≤ 0
    · rw [Op.run, setEncoded] at h
      split at h
      · exact h
      · rw [if_pos httl] at h
        exact h
    · exact peeked_setEncoded_other hlru (hother _ (if_neg httl)) h
  | get now key hit =>
    -- a record that cannot be decoded is deleted
    rw [Op.run, get] at h
    split at h
    · exact ((beneath_remove hlru _ key).trans (beneath_touch hlru s now key)) later key' e h
    · exact beneath_touch hlru s now key later key' e h
  | getEncoded now key => exact beneath_touch hlru s now key later key' e h
  | has now key =>
    rw [Op.run, has] at h
    split at h
    · exact h
    · split at h
      · exact h
      · exact beneath_remove hlru s key later key' e h
  | delete key => exact beneath_remove hlru s key later key' e h
  | deleteByPattern now pattern =>
    rw [Op.run, deleteByPattern] at h
    split at h
    · exact h
    · exact beneath_foldl_remove hlru _ s later key' e h
  | clear => exact beneath_call hlru s rfl later key' e h
  | size now => exact beneath_call hlru s rfl later key' e h
  | evictOne => exact beneath_call hlru s rfl later key' e h
  | close =>
    rw [Op.run, close] at h
    split at h
    · exact h
    · cases h

end Counted

/-! ### The events of the process -/

namespace World

variable {w : World lru} {i : ℕ} {later : T} {key : CacheKey} {e : Entry}

/-- What can be found under a key in the `i`-th store. -/
def peeked (w : World lru) (i : ℕ) (later : T) (key : CacheKey) : Option Entry :=
  MemoryStore.peeked (w.clients i).store later key

theorem clients_on_of_ne {j : ℕ} (h : i ≠ j) (op : Op T) : (w.on j op).clients i = w.clients i :=
  Function.update_of_ne h ..

theorem peeked_on_self (op : Op T) : (w.on i op).peeked i later key = MemoryStore.peeked
    (op.run (w.clients i).options ((w.clients i).counted w.budget)).store later key := by
  rw [peeked, on]
  dsimp only
  rw [Function.update_self]

/-- A call keeps what is in the other stores, and what is there under other keys. -/
theorem peeked_on (hlru : lru.Reading) {j : ℕ} {op : Op T}
    (hother : i = j → ∀ write, op.write = some write → write.key ≠ key)
    (h : (w.on j op).peeked i later key = some e) : w.peeked i later key = some e := by
  by_cases hij : i = j
  · subst hij
    rw [peeked_on_self] at h
    exact Counted.peeked_run_other hlru (hother rfl) h
  · rw [peeked, clients_on_of_ne hij] at h
    exact h

theorem peeked_evictBounded (hlru : lru.Reading) (max : ℕ) {w : World lru}
    (h : (w.evictBounded max).peeked i later key = some e) : w.peeked i later key = some e := by
  induction max generalizing w with
  | zero => exact h
  | succ max ih =>
    rw [evictBounded] at h
    split at h
    · exact h
    · split at h
      · exact h
      · next j hj =>
        have hon : (w.on j .evictOne).peeked i later key = some e :=
          @ih { w.on j .evictOne with cursor := w.cursor + 1 } h
        exact peeked_on hlru (fun _ write hwrite => by cases hwrite) hon

/-- No event puts anything under a key, but a write of the key in that store. -/
theorem peeked_step (hlru : lru.Reading) {event : Event T}
    (hother : ∀ op, event = .call i op → ∀ write, op.write = some write → write.key ≠ key)
    (h : (w.step event).peeked i later key = some e) : w.peeked i later key = some e := by
  cases event with
  | create o =>
    rw [step, create] at h
    split at h
    · exact h
    · rw [peeked] at h
      dsimp only at h
      by_cases hi : i = w.count
      · subst hi
        rw [Function.update_self, MemoryStore.peeked, Option.bind_some, hlru.peek_make] at h
        cases h
      · rw [Function.update_of_ne hi] at h
        exact h
  | call j op =>
    rw [step] at h
    split at h
    · refine peeked_on hlru (fun hij => ?_) h
      subst hij
      exact hother op rfl
    · exact h
  | sample target state =>
    exact @peeked_evictBounded _ _ _ _ _ _ _ _ hlru 32
      { w with budget := { w.budget with target := target, state := state } } h
  | foreign f => exact h
  | closeBudget => exact h

end World

/-! ### Runs -/

section

variable {N O : Type} {rt : Runtime N O} {native : NativeCodecs} {limits : ResolvedDecodeLimits}

/-- What a read may find of a write: nothing, or what its record is decoded to. -/
def Fresh (rt : Runtime N O) (native : NativeCodecs) (limits : ResolvedDecodeLimits)
    (write : Write T) (x : Option (Value N O)) : Prop :=
  x = none ∨ ∃ record, write.record = some record ∧ x = decodeRecord rt native limits record

omit [LinearOrder T] [Zero T] in
/-- The record of a value is decoded to the value. -/
theorem cached_of_fresh (hm : rt.msgpackr.Lawful) (hn : native.Lawful) (hs : native.Steady)
    {env : Environment} {value w : Value N O} {options : SerializeOptions}
    (hlossless : Lossless (options.asJson env) value) {now : T} {key : CacheKey}
    (h : Fresh rt native limits ⟨now, key, (written rt native env value options).record⟩
      (some w)) :
    value.isUndefined = false ∧ w = value.cached := by
  rcases h with h | ⟨record, hrecord, h⟩
  · cases h
  have hrecord : (written rt native env value options).record = some record := hrecord
  rw [written] at hrecord
  split at hrecord
  · cases hrecord
  next hdefined =>
  refine ⟨Bool.not_eq_true _ ▸ hdefined, ?_⟩
  split at hrecord
  · cases hrecord
  next r hr =>
  obtain rfl : r = record := Option.some.inj hrecord
  exact Serializer.cached_of_decodeRecord hm hn hs (Serializer.written_of_serialize hr) hlossless
    h.symm

variable {hardCap : ℕ} {events : List (Event T)} {n i : ℕ} {op : Op T} {write : Write T}

theorem world_succ (hi : i < (world lru hardCap events n).count)
    (hop : events[n]? = some (.call i op)) :
    world lru hardCap events (n + 1) = (world lru hardCap events n).call i op := by
  have hstep : world lru hardCap events (n + 1) = (world lru hardCap events n).step (.call i op) :=
    stateAt_succ hop
  rw [hstep, World.step, if_pos hi]

/-- From a write on, the store has its record under the key, or nothing to be found, until the
key is written again. -/
theorem peeked_after (hlru : lru.Reading) (hi : i < (world lru hardCap events n).count)
    (hop : events[n]? = some (.call i op)) (hwrite : op.write = some write)
    {m : ℕ} (hm : n < m)
    (hlast : ∀ k op', n < k → k < m → events[k]? = some (.call i op') →
      ∀ write', op'.write = some write' → write'.key ≠ write.key)
    {later : T} (hlater : write.now ≤ later) {e : Entry}
    (he : (world lru hardCap events m).peeked i later write.key = some e) :
    write.record = some e.buffer := by
  induction m, hm using Nat.le_induction with
  | base =>
    rw [world_succ hi hop] at he
    have hon : ((world lru hardCap events n).on i op).peeked i later write.key = some e := he
    rw [World.peeked_on_self] at hon
    exact Counted.peeked_run_self hlru hwrite hlater hon
  | succ m hm ih =>
    refine ih (fun k op' hnk hkm => hlast k op' hnk (Nat.lt_succ_of_lt hkm)) ?_
    rcases hevent : events[m]? with _ | event
    · rwa [world, stateAt_succ_of_none hevent] at he
    · rw [world, stateAt_succ hevent] at he
      refine World.peeked_step hlru (fun op' hop' => ?_) he
      exact hlast m op' hm (Nat.lt_succ_self m) (hop' ▸ hevent)

/-- A read after the write, no earlier than it by the clock. -/
theorem fresh_read (hlru : lru.Reading) (rt : Runtime N O) (native : NativeCodecs)
    (limits : ResolvedDecodeLimits) (hi : i < (world lru hardCap events n).count)
    (hop : events[n]? = some (.call i op)) (hwrite : op.write = some write)
    {m : ℕ} (hm : n < m)
    (hlast : ∀ k op', n < k → k < m → events[k]? = some (.call i op') →
      ∀ write', op'.write = some write' → write'.key ≠ write.key)
    {later : T} (hlater : write.now ≤ later) :
    Fresh rt native limits write
      (read rt native limits ((world lru hardCap events m).clients i).store later write.key) := by
  rw [read, found_eq_peeked hlru]
  rcases hpeeked : peeked ((world lru hardCap events m).clients i).store later write.key with _ | e
  · exact .inl rfl
  · exact .inr ⟨e.buffer, peeked_after hlru hi hop hwrite hm hlast hlater hpeeked, rfl⟩

/-- The keys that are not written keep their entry or lose it. -/
theorem found_write_other (hlru : lru.Reading) (hop : events[n]? = some (.call i op))
    (hwrite : op.write = some write) {key : CacheKey} (hkey : key ≠ write.key) (later : T) :
    found ((world lru hardCap events (n + 1)).clients i).store later key = none ∨
      found ((world lru hardCap events (n + 1)).clients i).store later key =
        found ((world lru hardCap events n).clients i).store later key := by
  rw [found_eq_peeked hlru, found_eq_peeked hlru]
  rcases hpeeked : peeked ((world lru hardCap events (n + 1)).clients i).store later key with _ | e
  · exact .inl rfl
  have hafter : (world lru hardCap events (n + 1)).peeked i later key = some e := hpeeked
  rw [world, stateAt_succ hop] at hafter
  refine .inr (World.peeked_step hlru (fun op' hop' write' hwrite' => ?_) hafter).symm
  obtain rfl : op = op' := by
    injection hop'
  obtain rfl : write = write' := Option.some.inj (hwrite.symm.trans hwrite')
  exact hkey.symm

/-- **A write never leaves the old value.**  Over every LRU that finds what was set for a key
and nothing else: in every run, from a `set` or `setEncoded` of a key until the key is written
again, a read of the key answers what the new record is decoded to, or nothing; if nothing is
lost on the way, that is the value which was set.  The write keeps or removes what is under
the other keys, and does not touch the other stores. -/
theorem write_never_stale (hlru : lru.Reading) (rt : Runtime N O) (native : NativeCodecs)
    (limits : ResolvedDecodeLimits) (hardCap : ℕ) (events : List (Event T)) {n i : ℕ} {op : Op T}
    {write : Write T} (hi : i < (world lru hardCap events n).count)
    (hop : events[n]? = some (.call i op)) (hwrite : op.write = some write) :
    (∀ m later, n < m → write.now ≤ later →
      (∀ k op', n < k → k < m → events[k]? = some (.call i op') →
        ∀ write', op'.write = some write' → write'.key ≠ write.key) →
      Fresh rt native limits write
          (read rt native limits ((world lru hardCap events m).clients i).store later write.key) ∧
        (rt.msgpackr.Lawful → native.Lawful → native.Steady →
          ∀ (env : Environment) (value : Value N O) (options : SerializeOptions),
            write.record = (written rt native env value options).record →
            Lossless (options.asJson env) value →
            ∀ w, read rt native limits ((world lru hardCap events m).clients i).store later
                write.key = some w →
              value.isUndefined = false ∧ w = value.cached)) ∧
      (∀ key later, key ≠ write.key →
        found ((world lru hardCap events (n + 1)).clients i).store later key = none ∨
          found ((world lru hardCap events (n + 1)).clients i).store later key =
            found ((world lru hardCap events n).clients i).store later key) ∧
      ∀ j, j ≠ i →
        (world lru hardCap events (n + 1)).clients j = (world lru hardCap events n).clients j := by
  refine ⟨fun m later hnm hlater hlast => ?_, fun key later hkey => ?_, fun j hj => ?_⟩
  · have hfresh := fresh_read hlru rt native limits hi hop hwrite hnm hlast hlater
    refine ⟨hfresh, fun hm hn hs env value options hrecord hlossless w hw => ?_⟩
    rw [hw] at hfresh
    obtain ⟨now, key, record⟩ := write
    obtain rfl : record = (written rt native env value options).record := hrecord
    exact cached_of_fresh hm hn hs hlossless hfresh
  · exact found_write_other hlru hop hwrite hkey later
  · rw [world_succ hi hop]
    exact World.clients_on_of_ne hj op

end

end Writes

/-- A record is put into a store, and `true` is written over it. -/
def overwrite : List (Event ℕ) :=
  [.create {}, .call 0 (.setEncoded 0 (.ofString (str "a")) [1, 2, 3] 1000 true),
    .call 0 (.set 5 (.ofString (str "a")) (.encoded [0x48, 0x43, 0x31, 0x4D, 0xC3]) 1000 true)]

/-- What is found there. -/
def overwritten : Option (Value Unit Empty) :=
  read Serializer.fewRuntime Serializer.fewCodecs Serializer.defaultDecodeLimits
    ((world mapLru 100000 overwrite 3).clients 0).store 7 (.ofString (str "a"))

theorem steady_fewCodecs : Serializer.fewCodecs.Steady where
  gunzipSync {z b b' max max'} h h' := by
    have hletters : ∀ {max b}, Serializer.fewCodecs.gunzipSync z max = some b →
        b = Serializer.packedLetters := by
      intro max b h
      change (if _ then some Serializer.packedLetters else none) = some b at h
      split_ifs at h
      exact (Option.some.inj h).symm
    rw [hletters h, hletters h']
  zstdDecompress := nofun

theorem write_never_stale_overwrite : overwritten = some (.json (.bool true)) := by
  obtain ⟨hread, -⟩ := write_never_stale reading_mapLru Serializer.fewRuntime Serializer.fewCodecs
    Serializer.defaultDecodeLimits 100000 overwrite (n := 2) (by decide) rfl rfl
  obtain ⟨-, hvalue⟩ := hread 3 7 (by decide) (by decide) fun k op' hk hk' => by omega
  have hfound : overwritten.isSome = true := by decide +kernel
  obtain ⟨w, hw⟩ := Option.isSome_iff_exists.mp hfound
  have htrue := hvalue Serializer.lawful_fewPack Serializer.lawful_fewCodecs steady_fewCodecs
    Serializer.plainEnvironment (.json (.bool true)) {} rfl
    (fun _ => ⟨.bool true, rfl, trivial⟩) w hw
  rw [hw, htrue.2]
  rfl

end MemoryStore
