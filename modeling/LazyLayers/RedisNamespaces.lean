/-
Two namespaces on one server.

The tag of a key is derived from the logical key alone, so what keeps two v2 stores
apart is their prefixes.  These may be prefixes of each other: two stores with default
index keys share a key exactly when one prefix is the other followed by `_`, `__lock:`
or `__lock:_`, or when the index key of one spells a key of the other.

* `Owns`, `Touches` — the keys of a store, with and without its index;
* `share_iff` — when two namespaces have a key in common;
* `Store.commands`, `Store.reply` — the operations of a store, `commands_touch`: they name
  its own keys only;
* `isolated_iff` — two stores do not interfere if and only if they share no key.
-/
import LazyLayers.RedisPatternDeletion

open Js Pattern

namespace RedisStore

/-! ### Shared keys -/

/-- `p` is `q` with a lock marker, or half of one, at its end. -/
def MarkerOf (p q : JsString) : Prop :=
  p = q ++ str "_" ∨ p = q ++ str "__lock:" ∨ p = q ++ str "__lock:_"

section Layouts

variable {N M : Layout}

theorem keyPrefix_eq {s : JsString} (hs : wellFormed s)
    (h : utf8 N.keyPrefix = utf8 M.keyPrefix ++ utf8 s) : N.keyPrefix = M.keyPrefix ++ s := by
  refine utf8_inj N.wellFormed_keyPrefix (wellFormed_append M.wellFormed_keyPrefix hs) ?_
  rw [h, utf8_append M.wellFormed_keyPrefix]

theorem keyPrefix_eq_of_append {k : JsString}
    (h : utf8 N.keyPrefix ++ utf8 k = utf8 M.keyPrefix ++ utf8 k) : N.keyPrefix = M.keyPrefix :=
  utf8_inj N.wellFormed_keyPrefix M.wellFormed_keyPrefix (List.append_cancel_right h)

/-- Two namespaces whose data keys meet: the tag of the empty key is that of `_`. -/
theorem dataKey_meets {k l : JsString} (h : dataKey N k = dataKey M l) :
    N.keyPrefix = M.keyPrefix ∨ MarkerOf N.keyPrefix M.keyPrefix ∨
      MarkerOf M.keyPrefix N.keyPrefix := by
  obtain ⟨htag, hrest⟩ := wire_split h
  rcases toSlotTag_eq htag with rfl | ⟨rfl, rfl⟩ | ⟨rfl, rfl⟩
  · exact .inl (keyPrefix_eq_of_append hrest)
  · have hempty : utf8 N.keyPrefix ++ [] = utf8 M.keyPrefix ++ utf8 (str "_") := hrest
    rw [List.append_nil] at hempty
    exact .inr (.inl (.inl (keyPrefix_eq (by decide) hempty)))
  · have hempty : utf8 N.keyPrefix ++ utf8 (str "_") = utf8 M.keyPrefix ++ [] := hrest
    rw [List.append_nil] at hempty
    exact .inr (.inr (.inl (keyPrefix_eq (by decide) hempty.symm)))

/-- No string ends both in an underscore and in the lock marker. -/
theorem underscore_ne_marker (s t : List UInt8) :
    s ++ utf8 (str "_") ≠ t ++ utf8 (str "__lock:") := by
  intro h
  have hmarker : utf8 (str "__lock:") = octets (str "__lock") ++ [58] := by decide
  have hunder : utf8 (str "_") = [95] := by decide
  rw [hmarker, hunder, ← List.append_assoc] at h
  have hlast := List.append_inj_right' h rfl
  exact absurd hlast (by decide)

theorem lockKey_meets {k l : JsString} (h : lockKey N k = lockKey M l) :
    N.keyPrefix = M.keyPrefix := by
  obtain ⟨htag, hrest⟩ := wire_split h
  rcases toSlotTag_eq htag with rfl | ⟨rfl, rfl⟩ | ⟨rfl, rfl⟩
  · exact keyPrefix_eq_of_append hrest
  · rw [utf8_lock (str "_"), ← List.append_assoc, List.append_nil] at hrest
    exact absurd hrest.symm (underscore_ne_marker _ _)
  · rw [utf8_lock (str "_"), ← List.append_assoc, List.append_nil] at hrest
    exact absurd hrest (underscore_ne_marker _ _)

/-- A data key is another namespace's lease. -/
theorem dataKey_meets_lockKey {k l : JsString} (h : dataKey N k = lockKey M l) :
    MarkerOf N.keyPrefix M.keyPrefix := by
  obtain ⟨htag, hrest⟩ := wire_split h
  rcases toSlotTag_eq htag with rfl | ⟨rfl, rfl⟩ | ⟨rfl, rfl⟩
  · rw [utf8_lock, ← List.append_assoc] at hrest
    have hmarker : octets (str "__lock:") = utf8 (str "__lock:") := by decide
    rw [hmarker] at hrest
    exact .inr (.inl (keyPrefix_eq (by decide) (List.append_cancel_right hrest)))
  · have hempty : utf8 N.keyPrefix ++ [] = utf8 M.keyPrefix ++ utf8 (str "__lock:_") := hrest
    rw [List.append_nil] at hempty
    exact .inr (.inr (keyPrefix_eq (by decide) hempty))
  · rw [List.append_nil] at hrest
    exact absurd hrest (underscore_ne_marker _ _)

theorem exists_meeting (h : MarkerOf N.keyPrefix M.keyPrefix) :
    ∃ k l, dataKey N k = dataKey M l ∨ dataKey N k = lockKey M l := by
  have htag : tagged [] = tagged (str "_") := by decide
  -- behind half a marker, the empty key of the one is the key `_` of the other
  rcases h with h | h | h
  · refine ⟨[], str "_", .inl (congrArg utf8 ?_)⟩
    rw [toRedisKey, toRedisKey, h, htag, List.append_nil]
  · refine ⟨[], [], .inr (congrArg utf8 ?_)⟩
    rw [toRedisKey, toLockKey, h, List.append_nil, List.append_nil]
  · refine ⟨[], str "_", .inr (congrArg utf8 ?_)⟩
    rw [toRedisKey, toLockKey, h, htag, List.append_nil]
    rfl

end Layouts

/-! ### The keys of a store -/

namespace Store

variable (S T : Store)

/-- The keys of the entries and of their leases, as Redis sees them. -/
def Owns (w : List UInt8) : Prop := ∃ k, w = dataKey S.layout k ∨ w = lockKey S.layout k

/-- All keys that a store writes. -/
def Touches (w : List UInt8) : Prop :=
  S.Owns w ∨ (S.useIndex = true ∧ w = utf8 S.layout.indexKey)

variable {S T}

/-- Which prefixes have a key in common. -/
theorem share_iff : (∃ w, S.Owns w ∧ T.Owns w) ↔
    S.layout.keyPrefix = T.layout.keyPrefix ∨ MarkerOf S.layout.keyPrefix T.layout.keyPrefix ∨
      MarkerOf T.layout.keyPrefix S.layout.keyPrefix := by
  constructor
  · rintro ⟨w, ⟨k, rfl | rfl⟩, l, h | h⟩
    · exact dataKey_meets h
    · exact .inr (.inl (dataKey_meets_lockKey h))
    · exact .inr (.inr (dataKey_meets_lockKey h.symm))
    · exact .inl (lockKey_meets h)
  · rintro (h | h | h)
    · refine ⟨dataKey S.layout [], ⟨[], .inl rfl⟩, [], .inl ?_⟩
      rw [dataKey, dataKey, RedisStore.toRedisKey, RedisStore.toRedisKey, h]
    · obtain ⟨k, l, h⟩ := exists_meeting h
      exact ⟨_, ⟨k, .inl rfl⟩, l, h⟩
    · obtain ⟨k, l, h⟩ := exists_meeting h
      exact ⟨_, ⟨l, h⟩, k, .inl rfl⟩

variable (S T)

/-- With `__index` after it, the prefix of an indexed store spells a key of another. -/
def IndexClash : Prop := S.useIndex = true ∧
  ∃ k, utf8 (S.layout.keyPrefix ++ str "__index") = dataKey T.layout k ∨
    utf8 (S.layout.keyPrefix ++ str "__index") = lockKey T.layout k

/-! ### Operations -/

/-- What the server answers to the scans of an operation. -/
structure Answers where
  /-- The members of the index that have expired. -/
  expired : List (List UInt8) := []
  found : List (List JsString) := []
  leases : List (List JsString) := []
  /-- The members of the index that `trimIndex` selects. -/
  victims : List JsString := []
  /-- The page that `inspect` asks for. -/
  page : List JsString := []
  /-- The keys that `size` counts. -/
  counted : List (List JsString) := []

inductive Operation
  | set (key : JsString) (payload : List UInt8) (maxEntries : Bool)
  | delete (key : JsString)
  | deleteByPattern (pattern : JsString)
  | clear
  | acquireLock (key : JsString) (token : List UInt8)
  | inspect (pattern : JsString) (limit : ℕ)

/-- `pruneExpiredIndexMembers()` -/
def pruneExpired (answers : Answers) : List Command :=
  if S.useIndex then [.zrem (utf8 S.layout.indexKey) answers.expired] else []

def trimIndex (answers : Answers) : List Command :=
  S.pruneExpired answers ++ S.deleteKeys answers.victims

def setEncoded (key : JsString) (payload : List UInt8) (maxEntries : Bool) (answers : Answers) :
    List Command :=
  (if S.versioned then
      [.setAndFence (utf8 (S.toRedisKey key)) (utf8 (S.toLockKey key)) payload]
    else [.set (utf8 (S.toRedisKey key)) payload]) ++
  if S.useIndex then
    .zadd (utf8 S.layout.indexKey) (utf8 (S.toRedisKey key)) ::
      if maxEntries then S.trimIndex answers else []
  else []

/-- The keys of a page that `inspect` shows. -/
def shown (pattern : JsString) (limit : ℕ) (answers : Answers) : List JsString :=
  (answers.page.filter (S.hasMatchingData pattern)).take limit

def commands : Operation → Answers → List Command
  | .set key payload maxEntries, answers => S.setEncoded key payload maxEntries answers
  | .delete key, _ => S.deleteKeys [S.toRedisKey key]
  | .deleteByPattern pattern, answers =>
    S.deleteByPattern pattern answers.expired answers.found answers.leases
  | .clear, answers => S.deleteByPattern (str "*") answers.expired answers.found answers.leases
  | .acquireLock key token, _ => [.setNx (utf8 (S.toLockKey key)) token]
  | .inspect pattern limit, answers => S.pruneExpired answers ++ S.pruneExpired answers ++
    (S.shown pattern limit answers).map fun redisKey => .snapshot (utf8 redisKey)

/-- `size()`, once the expired members are gone. -/
def size (answers : Answers) (db : Keyspace) : ℕ :=
  if S.useIndex then
    match db (utf8 S.layout.indexKey) with
    | some (.sorted members) => members.length
    | _ => 0
  else (answers.counted.flatten.filter fun redisKey => (S.dataOf redisKey).isSome).length

inductive Reply
  | done
  | acquired (ok : Bool)
  | inspected (size : ℕ) (keys : List (JsString × Option Cell))

/-- What the caller learns; of `inspect`, the logical keys and all that is under them. -/
def reply : Operation → Answers → Keyspace → Reply
  | .acquireLock key _, _, db => .acquired (db (utf8 (S.toLockKey key))).isNone
  | .inspect pattern limit, answers, db =>
    .inspected (S.size answers (runAll (S.pruneExpired answers) db))
      ((S.shown pattern limit answers).map fun redisKey =>
        (S.toLogicalKey redisKey, db (utf8 redisKey)))
  | _, _, _ => .done

/-! ### Operations name their own keys -/

variable {S T}

theorem owns_of_dataOf (hv : S.versioned = true) (h : S.IndexApart) {s k : JsString}
    (hs : S.dataOf s = some k) : utf8 s = dataKey S.layout k := by
  obtain rfl := (dataOf_versioned hv h s k).mp hs
  rw [toRedisKey, if_pos hv]
  rfl

theorem owns_of_lockOf (hv : S.versioned = true) (h : S.IndexApart) {s k : JsString}
    (hs : S.lockOf s = some k) : utf8 s = lockKey S.layout k := by
  obtain rfl := (lockOf_versioned hv h s k).mp hs
  rw [toLockKey, if_pos hv]
  rfl

theorem owns_toRedisKey (hv : S.versioned = true) (k : JsString) :
    S.Owns (utf8 (S.toRedisKey k)) := by
  rw [toRedisKey, if_pos hv]
  exact ⟨k, .inl rfl⟩

theorem owns_toLockKey (hv : S.versioned = true) (k : JsString) :
    S.Owns (utf8 (S.toLockKey k)) := by
  rw [toLockKey, if_pos hv]
  exact ⟨k, .inr rfl⟩

/-- A command of the store: it names no key of anybody else. -/
def Keeps (S : Store) (command : Command) : Prop := ∀ w ∈ command.keys, S.Touches w

theorem keeps_zadd (hi : S.useIndex = true) (member : List UInt8) :
    S.Keeps (.zadd (utf8 S.layout.indexKey) member) := by
  intro w hw
  exact .inr ⟨hi, List.mem_singleton.mp hw⟩

theorem keeps_zrem (hi : S.useIndex = true) (members : List (List UInt8)) :
    S.Keeps (.zrem (utf8 S.layout.indexKey) members) := by
  intro w hw
  exact .inr ⟨hi, List.mem_singleton.mp hw⟩

theorem keeps_pair {command : Command} {key lock : List UInt8} (hkeys : command.keys = [key, lock])
    (hkey : S.Owns key) (hlock : S.Owns lock) : S.Keeps command := by
  intro w hw
  rw [hkeys, List.mem_cons, List.mem_singleton] at hw
  rcases hw with rfl | rfl
  · exact .inl hkey
  · exact .inl hlock

theorem keeps_deleteKeys (hv : S.versioned = true) (h : S.IndexApart) {keys : List JsString} :
    ∀ command ∈ S.deleteKeys keys, S.Keeps command := by
  intro command hc
  rw [deleteKeys, List.mem_flatMap] at hc
  obtain ⟨batch, -, hc⟩ := hc
  rw [deleteBatch, if_pos hv] at hc
  split_ifs at hc with hnil hi
  · cases hc
  all_goals rw [List.mem_append, List.mem_map] at hc
  -- one fenced deletion a key, then the index
  all_goals rcases hc with ⟨s, hs, rfl⟩ | hc
  all_goals try
    obtain ⟨k, hk⟩ := Option.isSome_iff_exists.mp (List.mem_filter.mp hs).2
    exact keeps_pair rfl ⟨k, .inl (owns_of_dataOf hv h hk)⟩ (owns_toLockKey hv _)
  · rw [List.mem_singleton.mp hc]
    exact keeps_zrem hi _
  · cases hc

theorem keeps_pruneExpired (answers : Answers) :
    ∀ command ∈ S.pruneExpired answers, S.Keeps command := by
  intro command hc
  rw [pruneExpired] at hc
  split_ifs at hc with hi
  · rw [List.mem_singleton.mp hc]
    exact keeps_zrem hi _
  · cases hc

theorem keeps_deleteByPattern (hv : S.versioned = true) (h : S.IndexApart) {pattern : JsString}
    {expired : List (List UInt8)} {found leases : List (List JsString)} :
    ∀ command ∈ S.deleteByPattern pattern expired found leases, S.Keeps command := by
  intro command hc
  rw [deleteByPattern, if_pos hv, List.mem_append] at hc
  rcases hc with hc | hc
  · rw [deleteFound] at hc
    split_ifs at hc with hi
    · rcases List.mem_cons.mp hc with rfl | hc
      · exact keeps_zrem hi _
      · exact keeps_deleteKeys hv h command hc
    · obtain ⟨keys, -, hc⟩ := List.mem_flatMap.mp hc
      exact keeps_deleteKeys hv h command hc
  · obtain ⟨s, -, k, hk, -, rfl⟩ := mem_fencePatternLeases.mp hc
    exact keeps_pair rfl (owns_toRedisKey hv k) ⟨k, .inr (owns_of_lockOf hv h hk)⟩

theorem keeps_setEncoded (hv : S.versioned = true) (h : S.IndexApart) {key : JsString}
    {payload : List UInt8} {maxEntries : Bool} {answers : Answers} :
    ∀ command ∈ S.setEncoded key payload maxEntries answers, S.Keeps command := by
  intro command hc
  rw [setEncoded, if_pos hv, List.mem_append, List.mem_singleton] at hc
  rcases hc with rfl | hc
  · exact keeps_pair rfl (owns_toRedisKey hv key) (owns_toLockKey hv key)
  · split_ifs at hc with hi hmax
    · rcases List.mem_cons.mp hc with rfl | hc
      · exact keeps_zadd hi _
      · rcases List.mem_append.mp hc with hc | hc
        · exact keeps_pruneExpired answers command hc
        · exact keeps_deleteKeys hv h command hc
    · rw [List.mem_singleton.mp hc]
      exact keeps_zadd hi _
    · cases hc

/-- Every operation keeps to the keys of its store. -/
theorem keeps_commands (hv : S.versioned = true) (h : S.IndexApart) (operation : Operation)
    (answers : Answers) : ∀ command ∈ S.commands operation answers, S.Keeps command := by
  intro command hc
  cases operation with
  | set key payload maxEntries => exact keeps_setEncoded hv h command hc
  | delete key => exact keeps_deleteKeys hv h command hc
  | deleteByPattern pattern => exact keeps_deleteByPattern hv h command hc
  | clear => exact keeps_deleteByPattern hv h command hc
  | acquireLock key token =>
    rw [List.mem_singleton.mp hc]
    intro w hw
    rw [List.mem_singleton.mp hw]
    exact .inl (owns_toLockKey hv key)
  | inspect pattern limit =>
    rw [commands, List.mem_append, List.mem_append] at hc
    rcases hc with (hc | hc) | hc
    · exact keeps_pruneExpired answers command hc
    · exact keeps_pruneExpired answers command hc
    · obtain ⟨s, hs, rfl⟩ := List.mem_map.mp hc
      -- what is shown has been recognised as data
      obtain ⟨k, hk, -⟩ :=
        hasMatchingData_iff.mp (List.mem_filter.mp (List.mem_of_mem_take hs)).2
      intro w hw
      rw [List.mem_singleton.mp hw]
      exact .inl ⟨k, .inl (owns_of_dataOf hv h hk)⟩

/-! ### Isolation -/

/-- Two runs of the scans that agree on everything but the keys of `T`. -/
structure Alike (T : Store) (answers answers' : Answers) : Prop where
  expired : answers.expired = answers'.expired
  page : ∀ p : JsString → Bool, (∀ s, p s = true → ¬ T.Owns (utf8 s)) →
    answers.page.filter p = answers'.page.filter p
  counted : ∀ p : JsString → Bool, (∀ s, p s = true → ¬ T.Owns (utf8 s)) →
    answers.counted.flatten.filter p = answers'.counted.flatten.filter p

/-- What `S` does and learns is none of the entries and leases of `T`. -/
structure Spares (S T : Store) : Prop where
  /-- No key that `T` writes is classified. -/
  foreign : ∀ s, T.Touches (utf8 s) → S.parseRedisKey s = none
  unchanged : ∀ operation answers db w, T.Owns w →
    runAll (S.commands operation answers) db w = db w
  hidden : ∀ operation answers answers' db db', T.Alike answers answers' →
    (∀ w, ¬ T.Owns w → db w = db' w) →
      S.reply operation answers db = S.reply operation answers' db'

structure Isolated (S T : Store) : Prop where
  keys : ∀ w, S.Owns w → ¬ T.Owns w
  left : S.Spares T
  right : T.Spares S

theorem owns_of_parseRedisKey (hv : S.versioned = true) {s k : JsString} {kind : Kind}
    (h : S.parseRedisKey s = some (kind, k)) : S.Owns (utf8 s) := by
  rw [parseRedisKey, if_pos hv] at h
  obtain ⟨-, hs⟩ := eq_of_parseRedisKey S.layout h
  cases kind with
  | data => exact ⟨k, .inl (congrArg utf8 hs)⟩
  | lock => exact ⟨k, .inr (congrArg utf8 hs)⟩

theorem spares_of_apart (hv : S.versioned = true) (h : S.IndexApart)
    (hT : T.layout.indexKey = T.layout.keyPrefix ++ str "__index")
    (hS : S.layout.indexKey = S.layout.keyPrefix ++ str "__index")
    (hkeys : ∀ w, S.Owns w → ¬ T.Owns w) (hclash : ¬ S.IndexClash T) (hclash' : ¬ T.IndexClash S) :
    S.Spares T := by
  have htouch : ∀ w, S.Touches w → ¬ T.Owns w := by
    rintro w (hw | ⟨hi, rfl⟩) howns
    · exact hkeys w hw howns
    · rw [hS] at howns
      exact hclash ⟨hi, howns⟩
  have hdata : ∀ s, (S.dataOf s).isSome = true → ¬ T.Owns (utf8 s) := by
    intro s hs
    obtain ⟨k, hk⟩ := Option.isSome_iff_exists.mp hs
    exact hkeys _ ⟨k, .inl (owns_of_dataOf hv h hk)⟩
  refine ⟨fun s hs => ?_, fun operation answers db w hw => ?_, ?_⟩
  · cases hparse : S.parseRedisKey s with
    | none => rfl
    | some parsed =>
      have howns : S.Owns (utf8 s) := owns_of_parseRedisKey hv hparse
      rcases hs with hs | ⟨hi, hs⟩
      · exact absurd hs (hkeys _ howns)
      · rw [hs, hT] at howns
        exact absurd ⟨hi, howns⟩ hclash'
  · refine runAll_frame (fun command hc hmem => ?_) db
    exact htouch w (keeps_commands hv h operation answers command hc w hmem) hw
  · intro operation answers answers' db db' halike hdb
    cases operation with
    | acquireLock key token =>
      rw [reply, reply, hdb _ (htouch _ (.inl (owns_toLockKey hv key)))]
    | inspect pattern limit =>
      have hmatching : ∀ s, S.hasMatchingData pattern s = true → ¬ T.Owns (utf8 s) := by
        intro s hs
        obtain ⟨k, hk, -⟩ := hasMatchingData_iff.mp hs
        exact hdata s (by rw [hk]; rfl)
      have hshown : S.shown pattern limit answers = S.shown pattern limit answers' := by
        rw [shown, shown, halike.page _ hmatching]
      have hvalues : ∀ s ∈ S.shown pattern limit answers', db (utf8 s) = db' (utf8 s) := by
        intro s hs
        exact hdb _ (hmatching s (List.mem_filter.mp (List.mem_of_mem_take hs)).2)
      have hsize : S.size answers (runAll (S.pruneExpired answers) db) =
          S.size answers' (runAll (S.pruneExpired answers') db') := by
        rw [size, size, pruneExpired, pruneExpired]
        split_ifs with hi
        · have hindex := hdb (utf8 S.layout.indexKey) (htouch _ (.inr ⟨hi, rfl⟩))
          have hprune : ∀ db : Keyspace, runAll [.zrem (utf8 S.layout.indexKey) answers.expired] db
              (utf8 S.layout.indexKey) = updateSorted
                (fun members => members.filter (· ∉ answers.expired))
                  (db (utf8 S.layout.indexKey)) := fun db => if_pos rfl
          rw [← halike.expired, hprune, hprune, hindex]
        · rw [halike.counted _ hdata]
      rw [reply, reply, hshown, hsize]
      congr 1
      exact List.map_congr_left fun s hs => by rw [hvalues s hs]
    | set key payload maxEntries => rfl
    | delete key => rfl
    | deleteByPattern pattern => rfl
    | clear => rfl

/-- A store whose index clashes with another has a key that the other takes for its own. -/
theorem not_indexClash (hv : S.versioned = true) (h : S.IndexApart)
    (hT : T.layout.indexKey = T.layout.keyPrefix ++ str "__index") (hspares : S.Spares T) :
    ¬ T.IndexClash S := by
  rintro ⟨hi, k, hk⟩
  rw [← hT] at hk
  have hparse : ∀ s, utf8 T.layout.indexKey = utf8 s → S.parseRedisKey s = none := by
    intro s hs
    exact hspares.foreign s (.inr ⟨hi, hs.symm⟩)
  rcases hk with hk | hk
  · have hnone := hparse _ hk
    rw [parseRedisKey, if_pos hv, parseRedisKey_toRedisKey S.layout (h hv k).1] at hnone
    cases hnone
  · have hnone := hparse _ hk
    rw [parseRedisKey, if_pos hv, parseRedisKey_toLockKey S.layout (h hv k).2] at hnone
    cases hnone

end Store

/-- **Namespaces.**  Two v2 stores with distinct prefixes and default index keys do not
interfere if and only if neither prefix is the other followed by `_`, `__lock:` or
`__lock:_` and no index in use has a name that spells a key of the other store. -/
theorem isolated_iff (S T : Store) (hS : S.versioned = true) (hT : T.versioned = true)
    (hSi : S.layout.indexKey = S.layout.keyPrefix ++ str "__index")
    (hTi : T.layout.indexKey = T.layout.keyPrefix ++ str "__index")
    (hne : S.layout.keyPrefix ≠ T.layout.keyPrefix) :
    S.Isolated T ↔
      ¬ MarkerOf S.layout.keyPrefix T.layout.keyPrefix ∧
      ¬ MarkerOf T.layout.keyPrefix S.layout.keyPrefix ∧
      ¬ S.IndexClash T ∧ ¬ T.IndexClash S := by
  have hSa := Store.indexApart_of_default hSi
  have hTa := Store.indexApart_of_default hTi
  constructor
  · intro h
    have hshare : ¬ ∃ w, S.Owns w ∧ T.Owns w := by
      rintro ⟨w, hw, hw'⟩
      exact h.keys w hw hw'
    rw [Store.share_iff, not_or, not_or] at hshare
    exact ⟨hshare.2.1, hshare.2.2, Store.not_indexClash hT hTa hSi h.right,
      Store.not_indexClash hS hSa hTi h.left⟩
  · rintro ⟨hmarker, hmarker', hclash, hclash'⟩
    have hshare : ¬ ∃ w, S.Owns w ∧ T.Owns w := by
      rw [Store.share_iff, not_or, not_or]
      exact ⟨hne, hmarker, hmarker'⟩
    have hkeys : ∀ w, S.Owns w → ¬ T.Owns w := fun w hw hw' => hshare ⟨w, hw, hw'⟩
    exact ⟨hkeys, Store.spares_of_apart hS hSa hTi hSi hkeys hclash hclash',
      Store.spares_of_apart hT hTa hSi hTi (fun w hw hw' => hkeys w hw' hw) hclash' hclash⟩

/-- A v2 store without an index. -/
def namespaceStore (keyPrefix : JsString) (h : wellFormed keyPrefix) : Store where
  layout := { keyPrefix := keyPrefix, wellFormed_keyPrefix := h }
  versioned := true
  useIndex := false
  batchSize := defaultBatchSize

def parentStore : Store := namespaceStore (str "tenant:") (by decide)

def childStore : Store := namespaceStore (str "tenant:child:") (by decide)

def markedStore : Store := namespaceStore (str "tenant:__lock:") (by decide)

/-- Nested namespaces as such do not interfere. -/
theorem isolated_child : parentStore.Isolated childStore := by
  have hparent : parentStore.layout.keyPrefix = str "tenant:" := rfl
  have hchild : childStore.layout.keyPrefix = str "tenant:child:" := rfl
  refine (isolated_iff parentStore childStore rfl rfl rfl rfl ?_).mpr ⟨?_, ?_, ?_, ?_⟩
  · rw [hparent, hchild]
    decide
  · rw [hparent, hchild, MarkerOf]
    decide
  · rw [hparent, hchild, MarkerOf]
    decide
  · rintro ⟨hindex, -⟩
    cases hindex
  · rintro ⟨hindex, -⟩
    cases hindex

/-- A namespace that ends in the lock marker: each of its entries is a lease of its
parent, and clearing the parent deletes it. -/
theorem markedStore_interferes :
    parentStore.layout.keyPrefix ≠ markedStore.layout.keyPrefix ∧
    markedStore.toRedisKey (str "row") = parentStore.toLockKey (str "row") ∧
    parentStore.parseRedisKey (markedStore.toRedisKey (str "row")) = some (.lock, str "row") ∧
    (∀ db, runAll (parentStore.commands .clear
      { leases := [[markedStore.toRedisKey (str "row")]] }) db
        (utf8 (markedStore.toRedisKey (str "row"))) = none) ∧
    ¬ parentStore.Isolated markedStore := by
  have heq : markedStore.toRedisKey (str "row") = parentStore.toLockKey (str "row") := by
    decide
  have hparse : parentStore.parseRedisKey (markedStore.toRedisKey (str "row")) =
      some (.lock, str "row") := by decide
  refine ⟨by decide, heq, hparse, fun db => ?_, fun h => ?_⟩
  · have hlock : parentStore.lockOf (markedStore.toRedisKey (str "row")) = some (str "row") := by
      rw [Store.lockOf, hparse]
    have hmatch : matchesPattern (str "row") (str "*") = true := by decide
    have hmem : Command.deleteAndFence (utf8 (parentStore.toRedisKey (str "row")))
        (utf8 (markedStore.toRedisKey (str "row"))) ∈
          parentStore.commands .clear { leases := [[markedStore.toRedisKey (str "row")]] } :=
      Store.mem_fencePatternLeases.mpr
        ⟨_, List.mem_cons_self, str "row", hlock, hmatch, rfl⟩
    exact runAll_of_mem (Store.deletes_deleteByPattern rfl) hmem
      (List.mem_cons_of_mem _ List.mem_cons_self) db
  · have hparent : parentStore.Owns (utf8 (parentStore.toLockKey (str "row"))) :=
      Store.owns_toLockKey rfl _
    have hmarked : markedStore.Owns (utf8 (markedStore.toRedisKey (str "row"))) :=
      Store.owns_toRedisKey rfl _
    rw [heq] at hmarked
    exact h.keys _ hparent hmarked

end RedisStore
