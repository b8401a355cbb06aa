/-
Enumerating a v2 store without an index.

`size` and `clear` see the keys as a scan answers them, read back from UTF-8.  Text comes
back as it was written, but a lone surrogate comes back as U+FFFD: the tag of its key was
derived from the key itself, the rebuilt one is derived from U+FFFD, and the parser takes
the answer for a key of somebody else.

* `utf8_decodeUtf8_utf8` — what has been read is written as it was;
* `Scanned` — a complete scan, as octets, and `received`, as the strings the client gets;
* `counted` — the answers that `size` counts;
* `enumerated_iff` — which entries are counted and cleared.
-/
import LazyLayers.Utf8
import LazyLayers.RedisNamespaces

open Js Pattern

namespace Js

/-! ### What a client receives -/

theorem scalars_units (c : Char) : scalars (units c) = [some c] := by
  have hvalid : c.toNat < 0xD800 ∨ (0xDFFF < c.toNat ∧ c.toNat < 0x110000) := c.valid
  rw [units]
  split_ifs with hsmall
  · have hnat : (UInt16.ofNat c.toNat).toNat = c.toNat := by
      rw [UInt16.toNat_ofNat']
      omega
    have hhigh : ¬ isHigh (UInt16.ofNat c.toNat) := by
      simp [isHigh]
      omega
    have hlow : ¬ isLow (UInt16.ofNat c.toNat) := by
      simp [isLow]
      omega
    rw [scalars_cons hhigh hlow, hnat, Char.ofNat_toNat]
    rfl
  · -- the two halves of a character are a pair
    have hhigh : isHigh (UInt16.ofNat (0xD800 + (c.toNat - 0x10000) / 0x400)) := by
      simp [isHigh]
      omega
    have hlow : isLow (UInt16.ofNat (0xDC00 + (c.toNat - 0x10000) % 0x400)) := by
      simp [isLow]
      omega
    have hpair : pair (UInt16.ofNat (0xD800 + (c.toNat - 0x10000) / 0x400))
        (UInt16.ofNat (0xDC00 + (c.toNat - 0x10000) % 0x400)) = c := by
      rw [pair, UInt16.toNat_ofNat', UInt16.toNat_ofNat']
      have hpoint : 0x10000 + ((0xD800 + (c.toNat - 0x10000) / 0x400) % 2 ^ 16 - 0xD800) * 0x400 +
          ((0xDC00 + (c.toNat - 0x10000) % 0x400) % 2 ^ 16 - 0xDC00) = c.toNat := by omega
      rw [hpoint, Char.ofNat_toNat]
    rw [scalars, if_pos hhigh, if_pos hlow, hpair]
    rfl

theorem wellFormed_units (c : Char) : wellFormed (units c) := by
  rw [wellFormed, scalars_units]
  rfl

theorem scalars_flatMap_units (cs : List Char) : scalars (cs.flatMap units) = cs.map some := by
  induction cs with
  | nil => rfl
  | cons c cs ih =>
    rw [List.flatMap_cons, scalars_append (wellFormed_units c), scalars_units, ih]
    rfl

/-- Whatever has been lost was lost on the way to the wire. -/
theorem utf8_decodeUtf8_utf8 (s : JsString) : utf8 (decodeUtf8 (utf8 s)) = utf8 s := by
  have hchars : utf8 s = ((scalars s).map fun c => c.getD (Char.ofNat 0xFFFD)).flatMap
      String.utf8EncodeChar := by rw [utf8, List.flatMap_map]
  rw [hchars, decodeUtf8_encoded, utf8_of_scalars (scalars_flatMap_units _)]

theorem wellFormed_leadOctet (b : ℕ) : wellFormed (leadOctet b).1 := by
  rw [leadOctet]
  split_ifs with hb
  · refine wellFormed_of_ascii fun u hu => ?_
    rw [List.mem_singleton.mp hu, UInt16.toNat_ofNat']
    omega
  all_goals rfl

theorem wellFormed_octetStep (st : Utf8State) (b : ℕ) : wellFormed (octetStep st b).1 := by
  rw [octetStep]
  split_ifs
  · exact wellFormed_leadOctet b
  · dsimp only
    exact wellFormed_units _
  · rfl
  · exact @wellFormed_append [0xFFFD] _ (by decide) (wellFormed_leadOctet b)

/-- What has been read has no lone surrogates, whatever the octets were. -/
theorem wellFormed_decodeUtf8 (bytes : Bytes) : wellFormed (decodeUtf8 bytes) := by
  have hfrom : ∀ st, wellFormed (decodeUtf8From st bytes) := by
    induction bytes with
    | nil =>
      intro st
      rw [decodeUtf8From]
      split_ifs
      · rfl
      · decide
    | cons b bytes ih =>
      intro st
      rw [decodeUtf8From_cons]
      exact wellFormed_append (wellFormed_octetStep st _) (ih _)
  exact hfrom .idle

end Js

namespace RedisStore

/-! ### Scans -/

/-- A complete scan: every key that is there and matches is answered, perhaps more than
once, and no other keys are than those that are there. -/
structure Scanned (db : Keyspace) (glob : JsString) (batches : List (List Bytes)) : Prop where
  present : ∀ w ∈ batches.flatten, db w ≠ none
  complete : ∀ w, db w ≠ none → globMatches (utf8 glob) w = true → w ∈ batches.flatten

theorem Scanned.one {db : Keyspace} {glob : JsString} {w : Bytes} (honly : ∀ v, db v ≠ none → v = w)
    (hthere : db w ≠ none) : Scanned db glob [[w]] := by
  refine ⟨fun v hv => ?_, fun v hv _ => ?_⟩
  · rw [List.mem_singleton.mp hv]
    exact hthere
  · rw [honly v hv]
    exact List.mem_singleton_self w

/-- The client reads every key as UTF-8. -/
def received (batches : List (List Bytes)) : List (List JsString) :=
  batches.map (List.map decodeUtf8)

theorem mem_received {batches : List (List Bytes)} {s : JsString} :
    s ∈ (received batches).flatten ↔ ∃ w ∈ batches.flatten, decodeUtf8 w = s := by
  rw [received, ← List.map_flatten, List.mem_map]

theorem wellFormed_of_mem_received {batches : List (List Bytes)} {s : JsString}
    (hs : s ∈ (received batches).flatten) : wellFormed s := by
  obtain ⟨w, -, rfl⟩ := mem_received.mp hs
  exact wellFormed_decodeUtf8 w

namespace Store

variable (S : Store)

/-- The answers that `size()` counts. -/
def counted (batches : List (List Bytes)) : List Bytes :=
  batches.flatten.filter fun w => (S.dataOf (decodeUtf8 w)).isSome

variable {S}

theorem size_received (hi : S.useIndex = false) (batches : List (List Bytes)) (db : Keyspace) :
    S.size { counted := received batches } db = (S.counted batches).length := by
  rw [size, hi, if_neg Bool.false_ne_true, received, ← List.map_flatten, List.filter_map,
    List.length_map]
  rfl

theorem toRedisKey_injective (hv : S.versioned = true) :
    Function.Injective fun key => utf8 (S.toRedisKey key) := by
  intro k l h
  dsimp only at h
  rw [toRedisKey, toRedisKey, if_pos hv, if_pos hv] at h
  exact dataKey_injective S.layout h

theorem toRedisKey_ne_toLockKey (hv : S.versioned = true) (k l : JsString) :
    utf8 (S.toRedisKey k) ≠ utf8 (S.toLockKey l) := by
  rw [toRedisKey, toLockKey, if_pos hv, if_pos hv]
  exact dataKey_ne_lockKey S.layout k l

/-! ### After a write -/

theorem commands_set (hv : S.versioned = true) (hi : S.useIndex = false) (key : JsString)
    (payload : List UInt8) (maxEntries : Bool) (answers : Answers) :
    S.commands (.set key payload maxEntries) answers =
      [.setAndFence (utf8 (S.toRedisKey key)) (utf8 (S.toLockKey key)) payload] := by
  rw [commands, setEncoded, if_pos hv, hi, if_neg Bool.false_ne_true, List.append_nil]

/-- The entry is there after `set`. -/
theorem runAll_set (hv : S.versioned = true) (hi : S.useIndex = false) (key : JsString)
    (payload : List UInt8) (maxEntries : Bool) (answers : Answers) (db : Keyspace) :
    runAll (S.commands (.set key payload maxEntries) answers) db (utf8 (S.toRedisKey key)) =
      some (.value payload) := by
  rw [commands_set hv hi]
  show put (put db _ _) _ none _ = _
  rw [put_of_ne (toRedisKey_ne_toLockKey hv key key)]
  exact if_pos rfl

/-- On a server that was empty it is the only key. -/
theorem eq_of_runAll_set (hv : S.versioned = true) (hi : S.useIndex = false) {key : JsString}
    {payload : List UInt8} {maxEntries : Bool} {answers : Answers} {w : List UInt8}
    (hw : runAll (S.commands (.set key payload maxEntries) answers) (fun _ => none) w ≠ none) :
    w = utf8 (S.toRedisKey key) := by
  rw [commands_set hv hi] at hw
  by_contra hne
  refine hw ?_
  show put (put _ _ _) _ none w = none
  rw [put, put]
  split_ifs
  · rfl
  · rfl

/-- Matching everything. -/
theorem matchesPattern_star (value : JsString) : matchesPattern value (str "*") = true :=
  matchesPattern_asterisk value

theorem mem_counted_iff (hv : S.versioned = true) {db : Keyspace} {batches : List (List Bytes)}
    (hscan : Scanned db (S.toRedisPattern (str "*")) batches) {key : JsString}
    (hthere : db (utf8 (S.toRedisKey key)) ≠ none) :
    utf8 (S.toRedisKey key) ∈ S.counted batches ↔
      wellFormed key = true ∧ S.toRedisKey key ≠ S.layout.indexKey := by
  rw [counted, List.mem_filter, Option.isSome_iff_exists]
  constructor
  · rintro ⟨-, l, hl⟩
    obtain ⟨hread, hindex⟩ := (dataOf_iff hv).mp hl
    -- what has been read is the key of `l`, and so is what was written
    have hwire := congrArg utf8 hread
    rw [utf8_decodeUtf8_utf8] at hwire
    obtain rfl := toRedisKey_injective hv hwire
    rw [hread] at hindex
    have hwell : wellFormed (S.toRedisKey key) = true := by
      rw [← hread]
      exact wellFormed_decodeUtf8 _
    exact ⟨wellFormed_toRedisKey.mp hwell, hindex⟩
  · rintro ⟨hkey, hindex⟩
    have hglob := globMatches_toRedisKey (S := S) hkey (by decide) (matchesPattern_star key)
    refine ⟨hscan.complete _ hthere hglob, key, ?_⟩
    rw [decodeUtf8_utf8 (wellFormed_toRedisKey.mpr hkey)]
    exact (dataOf_iff hv).mpr ⟨rfl, hindex⟩

/-- What comes back as it was is deleted. -/
theorem clear_of_recognised (hv : S.versioned = true) (hi : S.useIndex = false) {db : Keyspace}
    {found : List (List Bytes)} (hscan : Scanned db (S.toRedisPattern (str "*")) found)
    (leases : List (List JsString)) {key : JsString} (hkey : wellFormed key)
    (hindex : S.toRedisKey key ≠ S.layout.indexKey) :
    runAll (S.deleteByPattern (str "*") [] (received found) leases) db
      (utf8 (S.toRedisKey key)) = none := by
  have hdeletes : ∀ command ∈ S.deleteByPattern (str "*") [] (received found) leases,
      command.Deletes := deletes_deleteByPattern hi
  by_cases hthere : db (utf8 (S.toRedisKey key)) = none
  · exact runAll_of_none hdeletes hthere
  have hglob := globMatches_toRedisKey (S := S) hkey (by decide) (matchesPattern_star key)
  have hmem : S.toRedisKey key ∈ (received found).flatten :=
    mem_received.mpr ⟨_, hscan.complete _ hthere hglob,
      decodeUtf8_utf8 (wellFormed_toRedisKey.mpr hkey)⟩
  have hdata : S.dataOf (S.toRedisKey key) = some key := (dataOf_iff hv).mpr ⟨rfl, hindex⟩
  obtain ⟨command, hc, hnames⟩ : ∃ command ∈ S.deleteFound (str "*") [] (received found),
      utf8 (S.toRedisKey key) ∈ command.keys :=
    exists_deleteFound hi hmem hdata (matchesPattern_star key)
  exact runAll_of_mem hdeletes (List.mem_append_left _ hc) hnames db

/-- No command that follows from what has been received names a key with a lone
surrogate. -/
theorem clear_of_lone (hv : S.versioned = true) (hi : S.useIndex = false) (db : Keyspace)
    (found leases : List (List Bytes)) {key : JsString} (hkey : ¬ wellFormed key) :
    runAll (S.deleteByPattern (str "*") [] (received found) (received leases)) db
      (utf8 (S.toRedisKey key)) = db (utf8 (S.toRedisKey key)) := by
  have hother : ∀ l, wellFormed l = true → utf8 (S.toRedisKey key) ≠ utf8 (S.toRedisKey l) := by
    intro l hl heq
    obtain rfl := toRedisKey_injective hv heq
    exact hkey hl
  refine runAll_frame (fun command hc hmem => ?_) db
  rw [deleteByPattern, if_pos hv, List.mem_append] at hc
  rcases hc with hc | hc
  · obtain ⟨s, hs, l, hl, -, hw⟩ := (deleteFound_keys hi hc).2 _ hmem
    obtain ⟨rfl, -⟩ := (dataOf_iff hv).mp hl
    rcases hw with hw | ⟨-, hw⟩
    · exact hother l (wellFormed_toRedisKey.mp (wellFormed_of_mem_received hs)) hw
    · exact toRedisKey_ne_toLockKey hv key l hw
  · obtain ⟨s, hs, l, hl, -, rfl⟩ := mem_fencePatternLeases.mp hc
    obtain ⟨rfl, -⟩ := (lockOf_iff hv).mp hl
    rw [Command.keys, List.mem_cons, List.mem_singleton] at hmem
    rcases hmem with hw | hw
    · exact hother l ((wellFormed_toLockKey hv).mp (wellFormed_of_mem_received hs)) hw
    · exact toRedisKey_ne_toLockKey hv key l hw

end Store

/-- **Enumeration.**  In the v2 layout distinct keys have distinct Redis keys.  Without an
index an entry that has been written is counted by `size` and removed by `clear` if and only
if its key has no lone surrogates and its Redis key is not the index key.  With a lone
surrogate it is neither counted nor removed, whatever leases the second scan answers. -/
theorem enumerated_iff (S : Store) (hv : S.versioned = true) (hi : S.useIndex = false) :
    Function.Injective (fun key => utf8 (S.toRedisKey key)) ∧
    ∀ (key : JsString) (payload : List UInt8) (maxEntries : Bool) (answers : Store.Answers)
      (db : Keyspace) (counted found leases : List (List Bytes)),
      let after := runAll (S.commands (.set key payload maxEntries) answers) db
      let cleared := runAll (S.commands .clear
        { found := received found, leases := received leases }) after
      Scanned after (S.toRedisPattern (str "*")) counted →
      Scanned after (S.toRedisPattern (str "*")) found →
      S.size { counted := received counted } after = (S.counted counted).length ∧
      ((utf8 (S.toRedisKey key) ∈ S.counted counted ∧ cleared (utf8 (S.toRedisKey key)) = none) ↔
        wellFormed key = true ∧ S.toRedisKey key ≠ S.layout.indexKey) ∧
      (wellFormed key = false → utf8 (S.toRedisKey key) ∉ S.counted counted ∧
        cleared (utf8 (S.toRedisKey key)) = some (.value payload)) := by
  refine ⟨Store.toRedisKey_injective hv, ?_⟩
  intro key payload maxEntries answers db counted found leases after cleared hcounted hfound
  have hset : after (utf8 (S.toRedisKey key)) = some (.value payload) :=
    Store.runAll_set hv hi key payload maxEntries answers db
  have hthere : after (utf8 (S.toRedisKey key)) ≠ none := by
    rw [hset]
    exact Option.some_ne_none _
  have hcount := Store.mem_counted_iff hv hcounted hthere
  refine ⟨Store.size_received hi counted after, ⟨fun h => hcount.mp h.1, fun h => ?_⟩,
    fun hlone => ⟨fun h => ?_, ?_⟩⟩
  · exact ⟨hcount.mpr h, Store.clear_of_recognised hv hi hfound (received leases) h.1 h.2⟩
  · have hkey := (hcount.mp h).1
    rw [hlone] at hkey
    cases hkey
  · have hkey : ¬ wellFormed key = true := by simp [hlone]
    exact (Store.clear_of_lone hv hi after found leases hkey).trans hset

/-- One entry with an ordinary key, on a server that was empty. -/
theorem enumerated_iff_one :
    let entry := utf8 (plainStore.toRedisKey (str "a"))
    let after := runAll (plainStore.commands (.set (str "a") [] false) {}) fun _ => none
    entry ∈ plainStore.counted [[entry]] ∧
      runAll (plainStore.commands .clear { found := received [[entry]] }) after entry = none := by
  intro entry after
  have honly : ∀ w, after w ≠ none → w = entry := fun w => Store.eq_of_runAll_set rfl rfl
  have hset : after entry = some (.value []) := Store.runAll_set rfl rfl (str "a") [] false {} _
  have hscan : Scanned after (plainStore.toRedisPattern (str "*")) [[entry]] :=
    Scanned.one honly (by rw [hset]; exact Option.some_ne_none _)
  have hindex : plainStore.toRedisKey (str "a") ≠ plainStore.layout.indexKey := by decide
  exact ((enumerated_iff plainStore rfl rfl).2 (str "a") [] false {} _ _ _ [] hscan
    hscan).2.1.mpr ⟨by decide, hindex⟩

/-- A lone high surrogate as a key: the server holds the entry, the scans answer it, and it is
neither counted nor removed. -/
theorem lone_surrogate_stays :
    let key : JsString := [0xD800]
    let entry := utf8 (plainStore.toRedisKey key)
    let after := runAll (plainStore.commands (.set key [] false) {}) fun _ => none
    Scanned after (plainStore.toRedisPattern (str "*")) [[entry]] ∧
      Scanned (runAll (plainStore.deleteFound (str "*") [] (received [[entry]])) after)
        (plainStore.leasePattern (str "*")) [] ∧
      plainStore.size { counted := received [[entry]] } after = 0 ∧
      runAll (plainStore.commands .clear { found := received [[entry]] }) after entry =
        some (.value []) := by
  intro key entry after
  have hset : after entry = some (.value []) := Store.runAll_set rfl rfl key [] false {} _
  have hdata : plainStore.dataOf (decodeUtf8 entry) = none := by decide
  have hfound : plainStore.deleteFound (str "*") [] (received [[entry]]) = [] := by
    have hmatching : plainStore.hasMatchingData (str "*") (decodeUtf8 entry) = false := by
      rw [Store.hasMatchingData, hdata]
      rfl
    have hslices : plainStore.deleteKeys [] = [] := by
      rw [Store.deleteKeys, Store.slices, dif_pos rfl, List.flatMap_nil]
    rw [Store.deleteFound, if_neg (by decide)]
    simp [received, hmatching, hslices]
  have hglob : globMatches (utf8 (plainStore.leasePattern (str "*"))) entry = false := by
    decide +kernel
  have honly : ∀ w, after w ≠ none → w = entry := fun w => Store.eq_of_runAll_set rfl rfl
  refine ⟨Scanned.one honly (by rw [hset]; exact Option.some_ne_none _), ?_, ?_, ?_⟩
  · rw [hfound]
    refine ⟨fun w hw => absurd hw List.not_mem_nil, fun w hw hmatch => ?_⟩
    rw [honly w hw, hglob] at hmatch
    cases hmatch
  · rw [Store.size_received rfl, Store.counted]
    simp [hdata]
  · exact (Store.clear_of_lone rfl rfl after [[entry]] [] (by decide)).trans hset

end RedisStore
