/-
Deletion by pattern without an index.

The server filters with a glob, the client with `matchesPattern`.  The glob lets
through whatever the cache pattern matches (`globMatches_toRedisPattern`), so that what
is deleted is decided by the client alone: exactly the data that match and, in the v2
layout, exactly the leases of matching keys, cold fills included — unless the index is
configured under the name of one of them (`shadowed_lease_stays`).

* `Scan` — a complete scan of the server;
* `dataOf_iff`, `lockOf_iff` — what a key is taken for;
* `Doomed` — the keys that have to go;
* `deleteByPattern_exact` — these go, and no other key changes, if and only if the index key is
  spared.
-/
import LazyLayers.RedisKeyspace

open Js Pattern

namespace RedisStore

/-- A full scan of the keys that match: every key that is there throughout is answered,
and what is answered has been decoded from UTF-8. -/
structure Scan (db : Keyspace) (glob : JsString) (batches : List (List JsString)) : Prop where
  complete : ∀ s, wellFormed s = true → db (utf8 s) ≠ none →
    globMatches (utf8 glob) (utf8 s) = true → s ∈ batches.flatten
  decoded : ∀ s ∈ batches.flatten, wellFormed s = true

/-- A full scan beside which nobody writes: what is answered is there. -/
structure QuietScan (db : Keyspace) (glob : JsString) (batches : List (List JsString)) : Prop
    extends Scan db glob batches where
  there : ∀ s ∈ batches.flatten, db (utf8 s) ≠ none

namespace Store

variable (S : Store)

/-- In the v2 layout the index key is no key of an entry. -/
def IndexApart : Prop := S.versioned = true → ∀ k,
  RedisStore.toRedisKey S.layout k ≠ S.layout.indexKey ∧
    RedisStore.toLockKey S.layout k ≠ S.layout.indexKey

/-- The index key is not the lease of a matching key that has no data, and not the data of a
matching key that has a lease. -/
def IndexSpared (pattern : JsString) (db : Keyspace) : Prop := S.versioned = true → ∀ k,
  wellFormed k = true → matchesPattern k pattern = true → db (utf8 (S.toLockKey k)) ≠ none →
    (S.toLockKey k = S.layout.indexKey → db (utf8 (S.toRedisKey k)) ≠ none) ∧
      (S.toRedisKey k = S.layout.indexKey → db (utf8 (S.toRedisKey k)) = none)

/-! ### Data and leases -/

variable {S}

theorem length_tagged (k : JsString) : 19 ≤ (tagged k).length := by
  have hpos : 0 < (toSlotTag k).length := List.length_pos_iff.mpr (toSlotTag_ne_nil k)
  have hlen : (tagged k).length = 16 + (toSlotTag k).length + 2 := by
    rw [tagged, List.length_append, List.length_append]
    rfl
  omega

/-- An index key that is not configured is shorter than any key of an entry. -/
theorem indexApart_of_default (h : S.layout.indexKey = S.layout.keyPrefix ++ str "__index") :
    S.IndexApart := by
  have hlong : ∀ k s, tagged k ++ (S.layout.keyPrefix ++ s) ≠ S.layout.indexKey := by
    intro k s heq
    have hlen := congrArg List.length heq
    have hindex : (str "__index").length = 7 := by decide
    rw [h, List.length_append, List.length_append, List.length_append, hindex] at hlen
    have := length_tagged k
    omega
  exact fun _ k => ⟨hlong k k, hlong k _⟩

theorem dataOf_eq_some {s k : JsString} :
    S.dataOf s = some k ↔ S.parseRedisKey s = some (.data, k) := by
  rw [dataOf]
  split
  · next heq => rw [heq, Option.some_inj, Option.some_inj, Prod.mk.injEq, and_iff_right rfl]
  · next hno =>
    constructor
    · intro h
      cases h
    · intro h
      exact absurd h (hno k)

theorem lockOf_eq_some {s k : JsString} :
    S.lockOf s = some k ↔ S.parseRedisKey s = some (.lock, k) := by
  rw [lockOf]
  split
  · next heq => rw [heq, Option.some_inj, Option.some_inj, Prod.mk.injEq, and_iff_right rfl]
  · next hno =>
    constructor
    · intro h
      cases h
    · intro h
      exact absurd h (hno k)

/-- In the v2 layout the index key alone can be taken for no entry. -/
theorem dataOf_iff (hv : S.versioned = true) {s k : JsString} :
    S.dataOf s = some k ↔ s = S.toRedisKey k ∧ s ≠ S.layout.indexKey := by
  rw [dataOf_eq_some, parseRedisKey, if_pos hv, parseRedisKey_data_iff, toRedisKey, if_pos hv]

theorem lockOf_iff (hv : S.versioned = true) {s k : JsString} :
    S.lockOf s = some k ↔ s = S.toLockKey k ∧ s ≠ S.layout.indexKey := by
  rw [lockOf_eq_some, parseRedisKey, if_pos hv, parseRedisKey_lock_iff, toLockKey, if_pos hv]

theorem dataOf_versioned (hv : S.versioned = true) (h : S.IndexApart) (s k : JsString) :
    S.dataOf s = some k ↔ s = S.toRedisKey k := by
  rw [dataOf_iff hv, and_iff_left_of_imp]
  rintro rfl
  rw [toRedisKey, if_pos hv]
  exact (h hv k).1

theorem lockOf_versioned (hv : S.versioned = true) (h : S.IndexApart) (s k : JsString) :
    S.lockOf s = some k ↔ s = S.toLockKey k := by
  rw [lockOf_iff hv, and_iff_left_of_imp]
  rintro rfl
  rw [toLockKey, if_pos hv]
  exact (h hv k).2

theorem dataOf_legacy (hv : S.versioned = false) {s k : JsString} (h : S.dataOf s = some k) :
    s = S.layout.keyPrefix ++ k := by
  have hstrip : ∀ {head t rest : JsString}, stripStart head t = some rest → t = head ++ rest := by
    intro head t rest h
    rw [stripStart] at h
    split_ifs at h with hbegins
    obtain ⟨tail, rfl⟩ := List.isPrefixOf_iff_prefix.mp hbegins
    rw [List.drop_left] at h
    rw [Option.some.inj h]
  rw [dataOf, parseRedisKey, if_neg (by rw [hv]; simp)] at h
  by_cases hindex : s = S.layout.indexKey
  · rw [if_pos hindex] at h
    cases h
  rw [if_neg hindex] at h
  cases hs : stripStart S.layout.keyPrefix s with
  | none =>
    rw [hs] at h
    cases h
  | some logicalKey =>
    rw [hs] at h
    cases hlock : stripStart (str "__lock:") logicalKey with
    | some _ =>
      simp only [hlock] at h
      cases h
    | none =>
      simp only [hlock] at h
      rw [hstrip hs, Option.some.inj h]

/-- A data key of either layout is built from its logical key. -/
theorem eq_of_dataOf {s k : JsString} (hs : S.dataOf s = some k) : s = S.toRedisKey k := by
  by_cases hv : S.versioned = true
  · exact ((dataOf_iff hv).mp hs).1
  · rw [toRedisKey, if_neg hv]
    exact dataOf_legacy (by simpa using hv) hs

/-! ### The glob lets them through -/

theorem wellFormed_tagged (k : JsString) : wellFormed (tagged k) :=
  wellFormed_of_ascii (ascii_tagged k)

theorem wellFormed_logical {k s : JsString} (h : wellFormed (tagged k ++ (S.layout.keyPrefix ++ s))) :
    wellFormed s :=
  wellFormed_of_append_left (wellFormed_of_append_left h (wellFormed_tagged k))
    S.layout.wellFormed_keyPrefix

theorem globMatches_tagged (k : JsString) {p s : List UInt8} (h : globMatches p s = true) :
    globMatches (utf8 (versionedKeyPrefix ++ str "*:") ++ p) (utf8 (tagged k) ++ s) = true := by
  have hpattern : utf8 (versionedKeyPrefix ++ str "*:") ++ p =
      octets versionedKeyPrefix ++ 42 :: 58 :: p := by
    rw [utf8_ascii_append (by decide), List.append_assoc]
    rfl
  have hkey : utf8 (tagged k) ++ s =
      octets versionedKeyPrefix ++ ((123 :: (octets (toSlotTag k) ++ [125])) ++ 58 :: s) := by
    have hascii := utf8_ascii_append (ascii_tagged k) []
    rw [List.append_nil] at hascii
    rw [hascii]
    show octets (tagged k) ++ utf8 [] ++ s = _
    rw [octets_tagged, octets_append]
    have hnil : utf8 [] = [] := rfl
    have hopen : octets (str "\x7b") = [123] := rfl
    rw [hnil, hopen]
    simp only [List.append_nil, List.append_assoc, List.cons_append, List.nil_append]
  rw [hpattern, hkey, globMatches_literal (by decide)]
  refine globMatches_star _ ?_
  rw [globMatches_plain (by decide)]
  exact h

theorem wellFormed_toRedisKey {k : JsString} : wellFormed (S.toRedisKey k) ↔ wellFormed k := by
  have hprefix := S.layout.wellFormed_keyPrefix
  rw [toRedisKey]
  split_ifs
  · constructor
    · exact wellFormed_logical
    · intro hk
      exact wellFormed_append (wellFormed_tagged k) (wellFormed_append hprefix hk)
  · constructor
    · intro h
      exact wellFormed_of_append_left h hprefix
    · exact wellFormed_append hprefix

theorem globMatches_toRedisKey {k pattern : JsString} (hk : wellFormed k)
    (hpattern : wellFormed pattern) (hmatch : matchesPattern k pattern = true) :
    globMatches (utf8 (S.toRedisPattern pattern)) (utf8 (S.toRedisKey k)) = true := by
  have hescape : wellFormed (escapeRedisGlob S.layout.keyPrefix) :=
    wellFormed_escapeUnits redisGlob_ascii S.layout.wellFormed_keyPrefix
  have hprefix := S.layout.wellFormed_keyPrefix
  have hglob := globMatches_cachePattern hk hpattern hmatch
  rw [toRedisKey, toRedisPattern]
  split_ifs
  · rw [RedisStore.toRedisKey, utf8_append (wellFormed_tagged k), utf8_append hprefix,
      List.append_assoc, utf8_append (by decide), utf8_append hescape]
    refine globMatches_tagged k ?_
    exact (globMatches_namespace hprefix _ _).trans hglob
  · rw [utf8_append hprefix, utf8_append hescape]
    exact (globMatches_namespace hprefix _ _).trans hglob

/-- Whatever the client takes for matching data, the server answers. -/
theorem globMatches_toRedisPattern {s k pattern : JsString} (hs : wellFormed s)
    (hpattern : wellFormed pattern) (hdata : S.dataOf s = some k)
    (hmatch : matchesPattern k pattern = true) :
    globMatches (utf8 (S.toRedisPattern pattern)) (utf8 s) = true := by
  obtain rfl := eq_of_dataOf hdata
  exact globMatches_toRedisKey (wellFormed_toRedisKey.mp hs) hpattern hmatch

/-- Whatever the client takes for the lease of a matching key, the server answers. -/
theorem globMatches_leasePattern {k pattern : JsString} (hv : S.versioned = true)
    (hs : wellFormed (S.toLockKey k)) (hpattern : wellFormed pattern)
    (hmatch : matchesPattern k pattern = true) :
    globMatches (utf8 (S.leasePattern pattern)) (utf8 (S.toLockKey k)) = true := by
  have hescape : wellFormed (escapeRedisGlob S.layout.keyPrefix) :=
    wellFormed_escapeUnits redisGlob_ascii S.layout.wellFormed_keyPrefix
  have hprefix := S.layout.wellFormed_keyPrefix
  have hlock : wellFormed (str "__lock:") := by decide
  rw [toLockKey, if_pos hv] at hs ⊢
  have hk : wellFormed k := wellFormed_of_append_left (wellFormed_logical hs) hlock
  rw [leasePattern, RedisStore.toLockKey, utf8_append (wellFormed_tagged k), utf8_append hprefix,
    utf8_append hlock, List.append_assoc, List.append_assoc, utf8_append (by decide),
    utf8_append hescape, utf8_append hlock]
  refine globMatches_tagged k ?_
  rw [globMatches_namespace hprefix, globMatches_literal (by decide)]
  exact globMatches_cachePattern hk hpattern hmatch

/-- An index key apart from the entries is spared. -/
theorem spared_of_apart (h : S.IndexApart) (pattern : JsString) (db : Keyspace) :
    S.IndexSpared pattern db := by
  intro hv k _ _ _
  rw [toRedisKey, toLockKey, if_pos hv, if_pos hv]
  exact ⟨fun heq => absurd heq (h hv k).2, fun heq => absurd heq (h hv k).1⟩

/-! ### What is deleted -/

variable (S)

/-- Matching data and, in the v2 layout, the leases of matching keys. -/
def Doomed (pattern s : JsString) : Prop :=
  (∃ k, S.dataOf s = some k ∧ matchesPattern k pattern = true) ∨
    (S.versioned = true ∧ ∃ k, s = S.toLockKey k ∧ matchesPattern k pattern = true)

variable {S}

theorem toLogicalKey_of_dataOf {s k : JsString} (h : S.dataOf s = some k) :
    S.toLogicalKey s = k := by
  rw [dataOf] at h
  split at h
  · next heq =>
    rw [toLogicalKey, heq]
    exact Option.some.inj h
  · cases h

/-- A deletion names data keys that were to be deleted and, in the v2 layout, their
leases. -/
theorem deleteKeys_keys (hi : S.useIndex = false) {keys : List JsString} {command : Command}
    (h : command ∈ S.deleteKeys keys) : command.Deletes ∧
      ∀ w ∈ command.keys, ∃ s ∈ keys, ∃ k, S.dataOf s = some k ∧
        (w = utf8 s ∨ S.versioned = true ∧ w = utf8 (S.toLockKey k)) := by
  rw [deleteKeys, List.mem_flatMap] at h
  obtain ⟨batch, hbatch, h⟩ := h
  have hmem : ∀ s ∈ batch.filter fun key => (S.dataOf key).isSome,
      s ∈ keys ∧ ∃ k, S.dataOf s = some k := by
    intro s hs
    obtain ⟨hs, hsome⟩ := List.mem_filter.mp hs
    refine ⟨?_, Option.isSome_iff_exists.mp hsome⟩
    rw [← flatten_slices S.batchSize keys]
    exact List.mem_flatten_of_mem hbatch hs
  rw [deleteBatch, hi, if_neg Bool.false_ne_true, List.append_nil] at h
  split_ifs at h with hnil hv
  · cases h
  · rw [List.mem_map] at h
    obtain ⟨s, hs, rfl⟩ := h
    obtain ⟨hkeys, k, hk⟩ := hmem s hs
    refine ⟨deletes_deleteAndFence _ _, fun w hw => ⟨s, hkeys, k, hk, ?_⟩⟩
    rw [Command.keys, List.mem_cons, List.mem_singleton, toLogicalKey_of_dataOf hk] at hw
    rcases hw with rfl | rfl
    · exact .inl rfl
    · exact .inr ⟨hv, rfl⟩
  · rw [List.mem_singleton] at h
    rw [h]
    refine ⟨deletes_delete _, fun w hw => ?_⟩
    obtain ⟨s, hs, rfl⟩ := List.mem_map.mp hw
    obtain ⟨hkeys, k, hk⟩ := hmem s hs
    exact ⟨s, hkeys, k, hk, .inl rfl⟩

theorem deleteKeys_eq (hv : S.versioned = true) (hi : S.useIndex = false) (keys : List JsString) :
    S.deleteKeys keys = (keys.filter fun key => (S.dataOf key).isSome).map fun redisKey =>
      .deleteAndFence (utf8 redisKey) (utf8 (S.toLockKey (S.toLogicalKey redisKey))) := by
  have hbatch : ∀ batch, S.deleteBatch batch = batch.map fun redisKey =>
      .deleteAndFence (utf8 redisKey) (utf8 (S.toLockKey (S.toLogicalKey redisKey))) := by
    intro batch
    rw [deleteBatch, hi, if_neg Bool.false_ne_true, List.append_nil, if_pos hv]
    split_ifs with hnil
    · rw [hnil, List.map_nil]
    · rfl
  have hslices := flatten_slices S.batchSize keys
  conv_rhs => rw [← hslices, List.filter_flatten, List.map_flatten, List.map_map]
  rw [deleteKeys, List.flatMap_def]
  congr 1
  exact List.map_congr_left fun batch _ => hbatch _

/-- Every data key of the list is in the deletion of some batch. -/
theorem mem_deleteKeys {keys : List JsString} {s k : JsString}
    (hs : s ∈ keys) (hdata : S.dataOf s = some k) :
    .deleteAndFence (utf8 s) (utf8 (S.toLockKey (S.toLogicalKey s))) ∈ S.deleteKeys keys ∨
      ∃ batch, .delete batch ∈ S.deleteKeys keys ∧ utf8 s ∈ batch := by
  rw [← flatten_slices S.batchSize keys, List.mem_flatten] at hs
  obtain ⟨batch, hbatch, hs⟩ := hs
  have hmem : s ∈ batch.filter fun key => (S.dataOf key).isSome :=
    List.mem_filter.mpr ⟨hs, by rw [hdata]; rfl⟩
  have hbatches : ∀ command ∈ S.deleteBatch (batch.filter fun key => (S.dataOf key).isSome),
      command ∈ S.deleteKeys keys := by
    intro command hc
    exact List.mem_flatMap.mpr ⟨batch, hbatch, hc⟩
  rw [deleteBatch, if_neg (List.ne_nil_of_mem hmem)] at hbatches
  by_cases hv : S.versioned = true
  · rw [if_pos hv] at hbatches
    exact .inl (hbatches _ (List.mem_append_left _ (List.mem_map_of_mem hmem)))
  · rw [if_neg hv] at hbatches
    exact .inr ⟨_, hbatches _ (List.mem_append_left _ List.mem_cons_self),
      List.mem_map_of_mem hmem⟩

theorem exists_deleteKeys {keys : List JsString} {s k : JsString}
    (hs : s ∈ keys) (hdata : S.dataOf s = some k) :
    ∃ command ∈ S.deleteKeys keys, utf8 s ∈ command.keys := by
  rcases mem_deleteKeys hs hdata with hmem | ⟨batch, hmem, hs⟩
  · exact ⟨_, hmem, List.mem_cons_self⟩
  · exact ⟨_, hmem, hs⟩

theorem hasMatchingData_iff {pattern s : JsString} : S.hasMatchingData pattern s = true ↔
    ∃ k, S.dataOf s = some k ∧ matchesPattern k pattern = true := by
  rw [hasMatchingData, Option.any_eq_true]

theorem deleteFound_keys (hi : S.useIndex = false) {pattern : JsString}
    {expired : List (List UInt8)} {found : List (List JsString)} {command : Command}
    (h : command ∈ S.deleteFound pattern expired found) : command.Deletes ∧
      ∀ w ∈ command.keys, ∃ s ∈ found.flatten, ∃ k, S.dataOf s = some k ∧
        matchesPattern k pattern = true ∧
        (w = utf8 s ∨ S.versioned = true ∧ w = utf8 (S.toLockKey k)) := by
  rw [deleteFound, hi, if_neg Bool.false_ne_true, List.mem_flatMap] at h
  obtain ⟨keys, hkeys, h⟩ := h
  obtain ⟨hdeletes, hnames⟩ := deleteKeys_keys hi h
  refine ⟨hdeletes, fun w hw => ?_⟩
  obtain ⟨s, hs, k, hk, hw⟩ := hnames w hw
  obtain ⟨hs, hmatching⟩ := List.mem_filter.mp hs
  obtain ⟨k', hk', hmatch⟩ := hasMatchingData_iff.mp hmatching
  rw [hk] at hk'
  rw [← Option.some.inj hk'] at hmatch
  exact ⟨s, List.mem_flatten_of_mem hkeys hs, k, hk, hmatch, hw⟩

theorem exists_deleteFound (hi : S.useIndex = false) {pattern : JsString}
    {expired : List (List UInt8)} {found : List (List JsString)} {s k : JsString}
    (hs : s ∈ found.flatten) (hdata : S.dataOf s = some k)
    (hmatch : matchesPattern k pattern = true) :
    ∃ command ∈ S.deleteFound pattern expired found, utf8 s ∈ command.keys := by
  obtain ⟨keys, hkeys, hs⟩ := List.mem_flatten.mp hs
  have hmem : s ∈ keys.filter (S.hasMatchingData pattern) :=
    List.mem_filter.mpr ⟨hs, hasMatchingData_iff.mpr ⟨k, hdata, hmatch⟩⟩
  obtain ⟨command, hcommand, hw⟩ := exists_deleteKeys hmem hdata
  refine ⟨command, ?_, hw⟩
  rw [deleteFound, hi, if_neg Bool.false_ne_true, List.mem_flatMap]
  exact ⟨keys, hkeys, hcommand⟩

/-- In the v2 layout the lease goes with the data. -/
theorem exists_deleteFound_lock (hv : S.versioned = true) (hi : S.useIndex = false)
    {pattern : JsString} (expired : List (List UInt8)) {found : List (List JsString)}
    {s k : JsString} (hs : s ∈ found.flatten) (hdata : S.dataOf s = some k)
    (hmatch : matchesPattern k pattern = true) :
    ∃ command ∈ S.deleteFound pattern expired found, utf8 (S.toLockKey k) ∈ command.keys := by
  obtain ⟨keys, hkeys, hs⟩ := List.mem_flatten.mp hs
  have hmem : s ∈ keys.filter (S.hasMatchingData pattern) :=
    List.mem_filter.mpr ⟨hs, hasMatchingData_iff.mpr ⟨k, hdata, hmatch⟩⟩
  refine ⟨.deleteAndFence (utf8 s) (utf8 (S.toLockKey (S.toLogicalKey s))), ?_, ?_⟩
  · rw [deleteFound, hi, if_neg Bool.false_ne_true, List.mem_flatMap]
    refine ⟨keys, hkeys, ?_⟩
    rw [deleteKeys_eq hv hi]
    exact List.mem_map_of_mem (List.mem_filter.mpr ⟨hmem, by rw [hdata]; rfl⟩)
  · rw [toLogicalKey_of_dataOf hdata]
    exact List.mem_cons_of_mem _ List.mem_cons_self

theorem mem_fencePatternLeases {pattern : JsString} {leases : List (List JsString)}
    {command : Command} : command ∈ S.fencePatternLeases pattern leases ↔
      ∃ s ∈ leases.flatten, ∃ k, S.lockOf s = some k ∧ matchesPattern k pattern = true ∧
        command = .deleteAndFence (utf8 (S.toRedisKey k)) (utf8 s) := by
  have hfence : ∀ s, S.fenceLease pattern s = some command ↔ ∃ k, S.lockOf s = some k ∧
      matchesPattern k pattern = true ∧
        command = .deleteAndFence (utf8 (S.toRedisKey k)) (utf8 s) := by
    intro s
    rw [fenceLease]
    cases S.lockOf s with
    | none => exact ⟨nofun, nofun⟩
    | some k =>
      dsimp only
      split_ifs with hmatch
      · constructor
        · intro h
          exact ⟨k, rfl, hmatch, (Option.some.inj h).symm⟩
        · rintro ⟨k', hk', -, rfl⟩
          rw [Option.some.inj hk']
      · constructor
        · intro h
          cases h
        · rintro ⟨k', hk', hmatch', -⟩
          rw [Option.some.inj hk'] at hmatch
          exact absurd hmatch' hmatch
  rw [fencePatternLeases, List.mem_flatMap]
  constructor
  · rintro ⟨keys, hkeys, h⟩
    obtain ⟨s, hs, h⟩ := List.mem_filterMap.mp h
    exact ⟨s, List.mem_flatten_of_mem hkeys hs, (hfence s).mp h⟩
  · rintro ⟨s, hs, h⟩
    obtain ⟨keys, hkeys, hs⟩ := List.mem_flatten.mp hs
    exact ⟨keys, hkeys, List.mem_filterMap.mpr ⟨s, hs, (hfence s).mpr h⟩⟩

theorem deletes_fencePatternLeases {pattern : JsString} {leases : List (List JsString)} :
    ∀ command ∈ S.fencePatternLeases pattern leases, command.Deletes := by
  intro command hc
  obtain ⟨_, _, _, _, _, rfl⟩ := mem_fencePatternLeases.mp hc
  exact deletes_deleteAndFence _ _

theorem deletes_deleteByPattern (hi : S.useIndex = false) {pattern : JsString}
    {expired : List (List UInt8)} {found leases : List (List JsString)} :
    ∀ command ∈ S.deleteByPattern pattern expired found leases, command.Deletes := by
  intro command hc
  rw [deleteByPattern, List.mem_append] at hc
  rcases hc with hc | hc
  · exact (deleteFound_keys hi hc).1
  · split_ifs at hc
    · exact deletes_fencePatternLeases command hc
    · cases hc

theorem wellFormed_of_dataOf {s k : JsString} (hs : wellFormed s) (hdata : S.dataOf s = some k) :
    wellFormed k := by
  obtain rfl := eq_of_dataOf hdata
  exact wellFormed_toRedisKey.mp hs

theorem wellFormed_toLockKey (hv : S.versioned = true) {k : JsString} :
    wellFormed (S.toLockKey k) ↔ wellFormed k := by
  rw [toLockKey, if_pos hv]
  constructor
  · intro h
    exact @wellFormed_of_append_left (str "__lock:") k (wellFormed_logical h) (by decide)
  · intro h
    exact wellFormed_append (wellFormed_tagged k)
      (wellFormed_append S.layout.wellFormed_keyPrefix (wellFormed_append (by decide) h))

/-- The first phase names doomed keys only. -/
theorem doomed_of_deleteFound (hi : S.useIndex = false) {pattern : JsString}
    {expired : List (List UInt8)} {db : Keyspace}
    {found : List (List JsString)} (hfound : Scan db (S.toRedisPattern pattern) found)
    {command : Command} (hc : command ∈ S.deleteFound pattern expired found)
    {w : List UInt8} (hw : w ∈ command.keys) :
    ∃ s, wellFormed s = true ∧ w = utf8 s ∧ S.Doomed pattern s := by
  obtain ⟨s, hs, k, hk, hmatch, hw⟩ := (deleteFound_keys hi hc).2 w hw
  have hwell := hfound.decoded s hs
  rcases hw with rfl | ⟨hv, rfl⟩
  · exact ⟨s, hwell, rfl, .inl ⟨k, hk, hmatch⟩⟩
  · exact ⟨S.toLockKey k, (wellFormed_toLockKey hv).mpr (wellFormed_of_dataOf hwell hk), rfl,
      .inr ⟨hv, k, rfl, hmatch⟩⟩

/-- So does the second one, apart from data under the index key. -/
theorem doomed_of_fencePatternLeases (hv : S.versioned = true)
    {pattern : JsString} {db : Keyspace} {leases : List (List JsString)}
    (hleases : Scan db (S.leasePattern pattern) leases)
    {command : Command} (hc : command ∈ S.fencePatternLeases pattern leases)
    {w : List UInt8} (hw : w ∈ command.keys) :
    (∃ s, wellFormed s = true ∧ w = utf8 s ∧ S.Doomed pattern s) ∨
      ∃ k, wellFormed k = true ∧ matchesPattern k pattern = true ∧
        S.toLockKey k ∈ leases.flatten ∧ S.toRedisKey k = S.layout.indexKey ∧
          w = utf8 (S.toRedisKey k) := by
  obtain ⟨s, hs, k, hk, hmatch, rfl⟩ := mem_fencePatternLeases.mp hc
  have hwell := hleases.decoded s hs
  obtain ⟨rfl, -⟩ := (lockOf_iff hv).mp hk
  have hkwell := (wellFormed_toLockKey hv).mp hwell
  rw [Command.keys, List.mem_cons, List.mem_singleton] at hw
  rcases hw with rfl | rfl
  · by_cases hindex : S.toRedisKey k = S.layout.indexKey
    · exact .inr ⟨k, hkwell, hmatch, hs, hindex, rfl⟩
    · exact .inl ⟨S.toRedisKey k, wellFormed_toRedisKey.mpr hkwell, rfl,
        .inl ⟨k, (dataOf_iff hv).mpr ⟨rfl, hindex⟩, hmatch⟩⟩
  · exact .inl ⟨S.toLockKey k, hwell, rfl, .inr ⟨hv, k, rfl, hmatch⟩⟩

/-- Where the index key is spared, what has to go goes. -/
theorem gone_of_doomed (hi : S.useIndex = false) {pattern : JsString}
    (hpattern : wellFormed pattern) {db : Keyspace} (hspared : S.IndexSpared pattern db)
    {expired : List (List UInt8)} {found leases : List (List JsString)}
    (hfound : Scan db (S.toRedisPattern pattern) found)
    (hleases : Scan (runAll (S.deleteFound pattern expired found) db) (S.leasePattern pattern)
      leases) {s : JsString} (hs : wellFormed s) (hdoomed : S.Doomed pattern s) :
    runAll (S.deleteByPattern pattern expired found leases) db (utf8 s) = none := by
  have hdeletes : ∀ command ∈ S.deleteByPattern pattern expired found leases, command.Deletes :=
    deletes_deleteByPattern hi
  rcases hdoomed with ⟨k, hk, hmatch⟩ | ⟨hv, k, rfl, hmatch⟩
  · by_cases hthere : db (utf8 s) = none
    · exact runAll_of_none hdeletes hthere
    · have hglob := globMatches_toRedisPattern hs hpattern hk hmatch
      obtain ⟨command, hc, hnames⟩ :=
        exists_deleteFound hi (hfound.complete s hs hthere hglob) hk hmatch
      exact runAll_of_mem hdeletes (List.mem_append_left _ hc) hnames db
  · have hkwell := (wellFormed_toLockKey hv).mp hs
    by_cases hthere : db (utf8 (S.toLockKey k)) = none
    · exact runAll_of_none hdeletes hthere
    by_cases hindex : S.toLockKey k = S.layout.indexKey
    · -- the lease is not taken for one, but its data are there
      have hdata : S.dataOf (S.toRedisKey k) = some k := by
        refine (dataOf_iff hv).mpr ⟨rfl, fun heq => ?_⟩
        rw [← hindex, toRedisKey, toLockKey, if_pos hv, if_pos hv] at heq
        exact dataKey_ne_lockKey S.layout k k (congrArg utf8 heq)
      have hmem := hfound.complete _ (wellFormed_toRedisKey.mpr hkwell)
        ((hspared hv k hkwell hmatch hthere).1 hindex) (globMatches_toRedisKey hkwell hpattern hmatch)
      obtain ⟨command, hc, hnames⟩ := exists_deleteFound_lock hv hi expired hmem hdata hmatch
      exact runAll_of_mem hdeletes (List.mem_append_left _ hc) hnames db
    · -- a lease that is there after the first phase is found by the second scan
      rw [deleteByPattern, runAll_append, if_pos hv]
      by_cases hleft : runAll (S.deleteFound pattern expired found) db (utf8 (S.toLockKey k)) = none
      · exact runAll_of_none deletes_fencePatternLeases hleft
      · have hmem := hleases.complete _ hs hleft (globMatches_leasePattern hv hs hpattern hmatch)
        exact runAll_of_mem deletes_fencePatternLeases
          (mem_fencePatternLeases.mpr
            ⟨_, hmem, k, (lockOf_iff hv).mpr ⟨rfl, hindex⟩, hmatch, rfl⟩)
          (List.mem_cons_of_mem _ List.mem_cons_self) _

/-- ... and nothing else. -/
theorem kept_of_not_doomed (hi : S.useIndex = false) {pattern : JsString} {db : Keyspace}
    (hspared : S.IndexSpared pattern db)
    {expired : List (List UInt8)} {found leases : List (List JsString)}
    (hfound : Scan db (S.toRedisPattern pattern) found)
    (hleases : QuietScan (runAll (S.deleteFound pattern expired found) db) (S.leasePattern pattern)
      leases) {w : List UInt8}
    (hw : ∀ s, wellFormed s = true → w = utf8 s → ¬ S.Doomed pattern s) :
    runAll (S.deleteByPattern pattern expired found leases) db w = db w := by
  by_cases hthere : db w = none
  · rw [hthere]
    exact runAll_of_none (deletes_deleteByPattern hi) hthere
  refine runAll_frame (fun command hc hmem => ?_) db
  rw [deleteByPattern, List.mem_append] at hc
  rcases hc with hc | hc
  · obtain ⟨s, hs, hws, hdoomed⟩ := doomed_of_deleteFound hi hfound hc hmem
    exact hw s hs hws hdoomed
  · split_ifs at hc with hv
    · rcases doomed_of_fencePatternLeases hv hleases.toScan hc hmem with
        ⟨s, hs, hws, hdoomed⟩ | ⟨k, hk, hmatch, hlease, hindex, rfl⟩
      · exact hw s hs hws hdoomed
      · -- the lease that was answered is there, so the data are not
        refine hthere ((hspared hv k hk hmatch fun hnone => hleases.there _ hlease ?_).2 hindex)
        exact runAll_of_none (fun c hc => (deleteFound_keys hi hc).1) hnone
    · cases hc

/-- No command names a lease under the name of the index, unless its data are there. -/
theorem kept_of_lockKey_eq (hi : S.useIndex = false) (hv : S.versioned = true) {pattern : JsString}
    {db : Keyspace} {expired : List (List UInt8)} {found leases : List (List JsString)}
    (hfound : QuietScan db (S.toRedisPattern pattern) found)
    (hleases : Scan (runAll (S.deleteFound pattern expired found) db) (S.leasePattern pattern)
      leases) {k : JsString} (hk : wellFormed k = true) (hindex : S.toLockKey k = S.layout.indexKey)
    (hnone : db (utf8 (S.toRedisKey k)) = none) :
    runAll (S.deleteByPattern pattern expired found leases) db (utf8 (S.toLockKey k)) =
      db (utf8 (S.toLockKey k)) := by
  have hnodata : ∀ s, wellFormed s = true → utf8 (S.toLockKey k) = utf8 s → S.dataOf s = none ∧
      S.lockOf s = none := by
    intro s hs heq
    obtain rfl := utf8_inj ((wellFormed_toLockKey hv).mpr hk) hs heq
    rw [Option.eq_none_iff_forall_ne_some, Option.eq_none_iff_forall_ne_some]
    exact ⟨fun k' h => ((dataOf_iff hv).mp h).2 hindex, fun k' h => ((lockOf_iff hv).mp h).2 hindex⟩
  refine runAll_frame (fun command hc hmem => ?_) db
  rw [deleteByPattern, List.mem_append, if_pos hv] at hc
  rcases hc with hc | hc
  · obtain ⟨s, hs, k', hk', -, hw⟩ := (deleteFound_keys hi hc).2 _ hmem
    rcases hw with hw | ⟨-, hw⟩
    · rw [(hnodata s (hfound.decoded s hs) hw).1] at hk'
      cases hk'
    · rw [toLockKey, toLockKey, if_pos hv, if_pos hv] at hw
      obtain rfl := lockKey_injective S.layout hw
      obtain rfl := eq_of_dataOf hk'
      exact hfound.there _ hs hnone
  · obtain ⟨s, hs, k', hk', -, rfl⟩ := mem_fencePatternLeases.mp hc
    rw [Command.keys, List.mem_cons, List.mem_singleton] at hmem
    rcases hmem with hw | hw
    · rw [toRedisKey, toLockKey, if_pos hv, if_pos hv] at hw
      exact dataKey_ne_lockKey S.layout k' k hw.symm
    · rw [(hnodata s (hleases.decoded s hs) hw).2] at hk'
      cases hk'

/-- The scan of the data leaves the lease of a key whose data are under the name of the index. -/
theorem left_of_redisKey_eq (hi : S.useIndex = false) (hv : S.versioned = true)
    {pattern : JsString} {db : Keyspace} {expired : List (List UInt8)}
    {found : List (List JsString)} {k : JsString} (hindex : S.toRedisKey k = S.layout.indexKey) :
    runAll (S.deleteFound pattern expired found) db (utf8 (S.toLockKey k)) =
      db (utf8 (S.toLockKey k)) := by
  refine runAll_frame (fun command hc hmem => ?_) db
  obtain ⟨s, hs, k', hk', -, hw⟩ := (deleteFound_keys hi hc).2 _ hmem
  obtain ⟨rfl, hne⟩ := (dataOf_iff hv).mp hk'
  rw [toLockKey, toRedisKey, if_pos hv, if_pos hv] at hw
  rcases hw with hw | ⟨-, hw⟩
  · exact dataKey_ne_lockKey S.layout k' k hw.symm
  · rw [toLockKey, if_pos hv] at hw
    obtain rfl := lockKey_injective S.layout hw
    exact hne hindex

/-- An index key that is not spared stays where it has to go, or goes where it has to stay. -/
theorem spared_of_exact (hi : S.useIndex = false) {pattern : JsString}
    (hpattern : wellFormed pattern) {db : Keyspace}
    {expired : List (List UInt8)} {found leases : List (List JsString)}
    (hfound : QuietScan db (S.toRedisPattern pattern) found)
    (hleases : Scan (runAll (S.deleteFound pattern expired found) db) (S.leasePattern pattern)
      leases)
    (hgone : ∀ s, wellFormed s = true → S.Doomed pattern s →
      runAll (S.deleteByPattern pattern expired found leases) db (utf8 s) = none)
    (hkept : ∀ w, (∀ s, wellFormed s = true → w = utf8 s → ¬ S.Doomed pattern s) →
      runAll (S.deleteByPattern pattern expired found leases) db w = db w) :
    S.IndexSpared pattern db := by
  intro hv k hk hmatch hthere
  have hdatawell : wellFormed (S.toRedisKey k) := wellFormed_toRedisKey.mpr hk
  have hlockwell : wellFormed (S.toLockKey k) := (wellFormed_toLockKey hv).mpr hk
  refine ⟨fun hindex hnone => ?_, fun hindex => ?_⟩
  · have hstays := kept_of_lockKey_eq hi hv hfound hleases hk hindex hnone
    rw [hgone _ hlockwell (.inr ⟨hv, k, rfl, hmatch⟩)] at hstays
    exact hthere hstays.symm
  · -- the script for the lease deletes the index key
    have hnot : ∀ s, wellFormed s = true → utf8 (S.toRedisKey k) = utf8 s →
        ¬ S.Doomed pattern s := by
      rintro s hs heq (⟨k', hk', -⟩ | ⟨-, k', rfl, -⟩)
      · obtain rfl := utf8_inj hdatawell hs heq
        exact ((dataOf_iff hv).mp hk').2 hindex
      · rw [toRedisKey, toLockKey, if_pos hv, if_pos hv] at heq
        exact dataKey_ne_lockKey S.layout k k' heq
    have hunindexed : S.toLockKey k ≠ S.layout.indexKey := by
      intro heq
      rw [← hindex, toRedisKey, toLockKey, if_pos hv, if_pos hv] at heq
      exact dataKey_ne_lockKey S.layout k k (congrArg utf8 heq).symm
    have hleft : runAll (S.deleteFound pattern expired found) db (utf8 (S.toLockKey k)) ≠ none := by
      rwa [left_of_redisKey_eq hi hv hindex]
    have hmem := hleases.complete _ hlockwell hleft
      (globMatches_leasePattern hv hlockwell hpattern hmatch)
    rw [← hkept _ hnot, deleteByPattern, runAll_append, if_pos hv]
    exact runAll_of_mem deletes_fencePatternLeases
      (mem_fencePatternLeases.mpr
        ⟨_, hmem, k, (lockOf_iff hv).mpr ⟨rfl, hunindexed⟩, hmatch, rfl⟩) List.mem_cons_self _

end Store

/-- **Exact pattern deletion.**  Without an index, in both layouts and with complete scans of
a server that nobody else writes to: the glob lets through every key whose data match, what
`deleteByPattern` removes is the matching data and, in the v2 layout, the leases of the matching
keys, and no other key changes, if and only if the index key is spared. -/
theorem deleteByPattern_exact (S : Store) (hi : S.useIndex = false)
    {pattern : JsString} (hpattern : wellFormed pattern) (db : Keyspace)
    (expired : List (List UInt8)) (found leases : List (List JsString))
    (hfound : QuietScan db (S.toRedisPattern pattern) found)
    (hleases : QuietScan (runAll (S.deleteFound pattern expired found) db) (S.leasePattern pattern)
      leases) :
    ((∀ s k, wellFormed s = true → S.dataOf s = some k → matchesPattern k pattern = true →
      globMatches (utf8 (S.toRedisPattern pattern)) (utf8 s) = true) ∧
    (∀ s, wellFormed s = true → S.Doomed pattern s →
      runAll (S.deleteByPattern pattern expired found leases) db (utf8 s) = none) ∧
    (∀ w, (∀ s, wellFormed s = true → w = utf8 s → ¬ S.Doomed pattern s) →
      runAll (S.deleteByPattern pattern expired found leases) db w = db w)) ↔
    S.IndexSpared pattern db := by
  constructor
  · rintro ⟨-, hgone, hkept⟩
    exact Store.spared_of_exact hi hpattern hfound hleases.toScan hgone hkept
  · intro hspared
    refine ⟨fun s k hs hk hmatch => Store.globMatches_toRedisPattern hs hpattern hk hmatch,
      fun s hs hdoomed => ?_, fun w hw => ?_⟩
    · exact Store.gone_of_doomed hi hpattern hspared hfound.toScan hleases.toScan hs hdoomed
    · exact Store.kept_of_not_doomed hi hspared hfound.toScan hleases hw

/-- A store without an index. -/
def plainStore : Store where
  layout := { keyPrefix := str "cache:", wellFormed_keyPrefix := wellFormed_cache }
  versioned := true
  useIndex := false
  batchSize := defaultBatchSize

/-- One entry, deleted by its name. -/
theorem deleteByPattern_one :
    let key := plainStore.toRedisKey (str "a")
    let db : Keyspace := fun w => if w = utf8 key then some (.value []) else none
    runAll (plainStore.deleteByPattern (str "a") [] [[key]] []) db (utf8 key) = none := by
  intro key db
  have hindex : plainStore.IndexApart := Store.indexApart_of_default rfl
  have hwell : wellFormed key = true := by decide +kernel
  have hdata : plainStore.dataOf key = some (str "a") :=
    (Store.dataOf_versioned rfl hindex key (str "a")).mpr rfl
  have hmatch : matchesPattern (str "a") (str "a") = true := by decide +kernel
  have hkey : ∀ s, wellFormed s = true → db (utf8 s) ≠ none → s = key := by
    intro s hs hthere
    by_cases hw : utf8 s = utf8 key
    · exact utf8_inj hs hwell hw
    · exact absurd (if_neg hw) hthere
  have hfound : QuietScan db (plainStore.toRedisPattern (str "a")) [[key]] := by
    refine ⟨⟨fun s hs hthere _ => ?_, fun s hs => ?_⟩, fun s hs => ?_⟩
    · rw [hkey s hs hthere]
      exact List.mem_cons_self
    · rw [List.mem_singleton.mp hs]
      exact hwell
    · rw [List.mem_singleton.mp hs, show db (utf8 key) = _ from if_pos rfl]
      exact Option.some_ne_none _
  have hgone : ∀ w, runAll (plainStore.deleteFound (str "a") [] [[key]]) db w = none := by
    intro w
    have hdeletes : ∀ command ∈ plainStore.deleteFound (str "a") [] [[key]], command.Deletes :=
      fun _ hc => (Store.deleteFound_keys rfl hc).1
    by_cases hw : w = utf8 key
    · have hnamed : ∃ command ∈ plainStore.deleteFound (str "a") [] [[key]],
          utf8 key ∈ command.keys :=
        Store.exists_deleteFound rfl List.mem_cons_self hdata hmatch
      obtain ⟨command, hc, hnames⟩ := hnamed
      rw [hw]
      exact runAll_of_mem hdeletes hc hnames db
    · exact runAll_of_none hdeletes (if_neg hw)
  have hleases : QuietScan (runAll (plainStore.deleteFound (str "a") [] [[key]]) db)
      (plainStore.leasePattern (str "a")) [] :=
    ⟨⟨fun s _ hthere => absurd (hgone _) hthere, fun s hs => absurd hs List.not_mem_nil⟩,
      fun s hs => absurd hs List.not_mem_nil⟩
  exact ((deleteByPattern_exact plainStore rfl (by decide) db [] [[key]] [] hfound
    hleases).mpr (Store.spared_of_apart hindex _ _)).2.1 key hwell (.inl ⟨_, hdata, hmatch⟩)

/-! ### An index under the name of a lease -/

/-- The index is configured under the name of the lease of `a`. -/
def shadowedStore : Store :=
  { plainStore with layout := { plainStore.layout with indexKey := plainStore.toLockKey (str "a") } }

/-- A loader has the lease of `a`, and nothing is cached. -/
def shadowedDb : Keyspace := fun w =>
  if w = utf8 (shadowedStore.toLockKey (str "a")) then some (.value [1]) else none

/-- Both scans answer all there is to answer, and the lease of the key that was deleted
stays. -/
theorem shadowed_lease_stays :
    let lease := shadowedStore.toLockKey (str "a")
    matchesPattern (str "a") (str "a") = true ∧
    QuietScan shadowedDb (shadowedStore.toRedisPattern (str "a")) [] ∧
    QuietScan (runAll (shadowedStore.deleteFound (str "a") [] []) shadowedDb)
      (shadowedStore.leasePattern (str "a")) [[lease]] ∧
    wellFormed lease = true ∧ shadowedStore.Doomed (str "a") lease ∧
    runAll (shadowedStore.deleteByPattern (str "a") [] [] [[lease]]) shadowedDb (utf8 lease) =
      some (.value [1]) := by
  intro lease
  have hmatch : matchesPattern (str "a") (str "a") = true := by decide
  have hwell : wellFormed lease = true := by decide
  have hkey : ∀ s, wellFormed s = true → shadowedDb (utf8 s) ≠ none → s = lease := by
    intro s hs hthere
    by_cases hw : utf8 s = utf8 lease
    · exact utf8_inj hs hwell hw
    · exact absurd (if_neg hw) hthere
  have hdata : globMatches (utf8 (shadowedStore.toRedisPattern (str "a"))) (utf8 lease) = false := by
    decide +kernel
  refine ⟨hmatch, ⟨⟨fun s hs hthere hglob => ?_, fun s hs => ?_⟩, fun s hs => ?_⟩,
    ⟨⟨fun s hs hthere _ => ?_, fun s hs => ?_⟩, fun s hs => ?_⟩, hwell,
    .inr ⟨rfl, _, rfl, hmatch⟩, by decide +kernel⟩
  · rw [hkey s hs hthere, hdata] at hglob
    cases hglob
  · cases hs
  · cases hs
  · rw [hkey s hs hthere]
    exact List.mem_cons_self
  · rw [List.mem_singleton.mp hs]
    exact hwell
  · rw [List.mem_singleton.mp hs]
    show shadowedDb (utf8 lease) ≠ none
    rw [show shadowedDb (utf8 lease) = _ from if_pos rfl]
    exact Option.some_ne_none _

end RedisStore
