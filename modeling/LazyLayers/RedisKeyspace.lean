/-
The key space that `RedisStore` works on.

A store issues commands, each of which names the keys it touches.  The operations of a
store are the commands they issue, given what the scans of the server have answered;
`runAll` executes them on the key space.

* `Store` — the configuration: both key layouts, with or without an index;
* `escapeRedisGlob`, `cachePatternToRedisGlob` — patterns for the server, and
  `globMatches_cachePattern`: they match whatever the cache pattern matches;
* `Command.run`, `runAll` — the key space under commands, `runAll_frame`: nothing but
  the named keys changes;
* `deleteKeys`, `deleteByPattern` — the deletions.
-/
import LazyLayers.RedisGlob
import LazyLayers.RedisKeys
import LazyLayers.PatternSpec

open Js Pattern

namespace RedisStore

/-! ### Patterns for the server -/

/-- `[\\*?[\]]` -/
def redisGlobSpecial (u : UInt16) : Bool := u = 92 || u = 42 || u = 63 || u = 91 || u = 93

/-- `value.replace(/[\\*?[\]]/g, '\\$&')` -/
def escapeRedisGlob (value : JsString) : JsString := escapeUnits redisGlobSpecial value

/-- `[\\?[\]]` -/
def cachePatternSpecial (u : UInt16) : Bool := u = 92 || u = 63 || u = 91 || u = 93

/-- `value.replace(/[\\?[\]]/g, '\\$&')`: stars stay. -/
def cachePatternToRedisGlob (value : JsString) : JsString := escapeUnits cachePatternSpecial value

section Globs

theorem redisGlob_ascii (u : UInt16) (hu : redisGlobSpecial u = true) : u.toNat < 128 := by
  simp only [redisGlobSpecial, Bool.or_eq_true, decide_eq_true_eq] at hu
  rcases hu with (((rfl | rfl) | rfl) | rfl) | rfl <;> decide

theorem globMatches_namespace {l : JsString} (hl : wellFormed l) (p s : List UInt8) :
    globMatches (utf8 (escapeRedisGlob l) ++ p) (utf8 l ++ s) = globMatches p s := by
  rw [escapeRedisGlob, utf8_escapeUnits redisGlob_ascii hl]
  refine globMatches_wire hl (fun u _ hglob => ?_) p s
  simp only [isGlobUnit, redisGlobSpecial, Bool.or_eq_true, decide_eq_true_eq] at hglob ⊢
  tauto

theorem cachePattern_ascii (u : UInt16) (hu : cachePatternSpecial u = true) : u.toNat < 128 := by
  simp only [cachePatternSpecial, Bool.or_eq_true, decide_eq_true_eq] at hu
  rcases hu with ((rfl | rfl) | rfl) | rfl <;> decide

/-- In a piece without stars all that is special is escaped. -/
theorem cachePatternSpecial_of_mem {l : JsString} (hl : asterisk ∉ l) :
    ∀ u ∈ l, isGlobUnit u = true → cachePatternSpecial u = true := by
  intro u hu hglob
  have hne : u ≠ 42 := by
    rintro rfl
    exact hl hu
  simp only [isGlobUnit, cachePatternSpecial, Bool.or_eq_true, decide_eq_true_eq] at hglob ⊢
  tauto

theorem globMatches_cacheLiteral {l : JsString} (hl : wellFormed l) (hstar : asterisk ∉ l)
    (p s : List UInt8) :
    globMatches (globEscape (onWire cachePatternSpecial) (utf8 l) ++ p) (utf8 l ++ s) =
      globMatches p s :=
  globMatches_wire hl (cachePatternSpecial_of_mem hstar) p s

/-- The pieces of a well-formed string between asterisks are well-formed. -/
theorem wellFormed_pieces {first : JsString} {parts : List JsString}
    (h : wellFormed (first ++ parts.flatMap (asterisk :: ·))) :
    wellFormed first ∧ ∀ part ∈ parts, wellFormed part := by
  induction parts generalizing first with
  | nil =>
    rw [List.flatMap_nil, List.append_nil] at h
    exact ⟨h, by simp⟩
  | cons part parts ih =>
    have hstar : ¬ isLow asterisk := by decide
    rw [List.flatMap_cons, List.cons_append, wellFormed, scalars_append_of_not_low first hstar,
      List.all_append] at h
    obtain ⟨hfirst, hrest⟩ := Bool.and_eq_true_iff.mp h
    have htail : wellFormed (part ++ parts.flatMap (asterisk :: ·)) :=
      @wellFormed_of_append_left [asterisk] _ hrest (by decide)
    obtain ⟨hpart, hparts⟩ := ih htail
    refine ⟨hfirst, fun q hq => ?_⟩
    rcases List.mem_cons.mp hq with rfl | hq
    · exact hpart
    · exact hparts q hq

/-- The stars of a pattern stay. -/
theorem globEscape_stars {parts : List JsString} (h : ∀ part ∈ parts, wellFormed part) :
    globEscape (onWire cachePatternSpecial) (utf8 (parts.flatMap (asterisk :: ·))) =
      parts.flatMap fun part => 42 :: globEscape (onWire cachePatternSpecial) (utf8 part) := by
  induction parts with
  | nil => rfl
  | cons part parts ih =>
    have hstar : ∀ t, globEscape (onWire cachePatternSpecial) (42 :: t) =
        42 :: globEscape (onWire cachePatternSpecial) t := fun _ => rfl
    have hhead : UInt8.ofNat asterisk.toNat = 42 := rfl
    rw [List.flatMap_cons, List.cons_append, utf8_cons_ascii (by decide), hhead, hstar,
      utf8_append (h part List.mem_cons_self), globEscape_append,
      ih fun q hq => h q (List.mem_cons_of_mem part hq)]
    rfl

/-- The server matches whatever the cache pattern matches. -/
theorem globMatches_cachePattern {value pattern : JsString} (hvalue : wellFormed value)
    (hpattern : wellFormed pattern) (h : matchesPattern value pattern = true) :
    globMatches (utf8 (cachePatternToRedisGlob pattern)) (utf8 value) = true := by
  rw [cachePatternToRedisGlob, utf8_escapeUnits cachePattern_ascii hpattern]
  rcases eq_or_fits_of_matchesPattern h with rfl | hfits
  · have hall := globMatches_star (utf8 value) globMatches_nil
    rwa [List.append_nil] at hall
  obtain ⟨first, parts, -, hsplit, hfirst, hparts, -⟩ := Wildcards.splitOn_spec asterisk pattern
  rw [hsplit] at hpattern hfits ⊢
  obtain ⟨hwell, hwells⟩ := wellFormed_pieces hpattern
  obtain ⟨rest, rfl, hrest⟩ := (Wildcards.matches_append_iff hfirst).mp hfits
  have hrestwell := wellFormed_of_append_left hvalue hwell
  rw [utf8_append hwell, utf8_append hwell, globEscape_append,
    globMatches_cacheLiteral hwell hfirst]
  -- the last piece is anchored at the end of the value
  obtain rfl | ⟨parts, last, rfl⟩ := List.eq_nil_or_concat parts
  · rw [Wildcards.matches_nil_iff.mp hrest]
    exact globMatches_nil
  rw [List.concat_eq_append] at hrest hparts hwells ⊢
  have hlast : last ∈ parts ++ [last] := List.mem_append_right parts List.mem_cons_self
  have hinit := fun q hq => hparts q (List.mem_append_left [last] hq)
  obtain ⟨front, rfl, hgaps⟩ := (Wildcards.matches_stars_iff (hparts last hlast) hinit).mp hrest
  have hfront : wellFormed front := by
    by_cases hnil : last = []
    · rwa [hnil, List.append_nil] at hrestwell
    · exact wellFormed_of_append hrestwell (hwells last hlast) hnil
  have hend : globMatches (globEscape (onWire cachePatternSpecial) (utf8 last)) (utf8 last) =
      true := by
    have h := globMatches_cacheLiteral (hwells last hlast) (hparts last hlast) [] []
    rw [List.append_nil, List.append_nil] at h
    rw [h]
    exact globMatches_nil
  have hmatch := globMatches_gaps (fun part hpart =>
    ⟨hwells part (List.mem_append_left [last] hpart),
      cachePatternSpecial_of_mem (hinit part hpart)⟩) hfront hgaps hend
  rw [utf8_append hfront]
  rw [globEscape_stars hwells, List.flatMap_append, List.flatMap_singleton]
  exact hmatch

end Globs

/-! ### Stores -/

/-- `new RedisStore(redis, options)`. -/
structure Store where
  layout : Layout
  /-- `useVersionedKeys`: the v2 layout. -/
  versioned : Bool
  useIndex : Bool
  batchSize : ℕ+

/-- What `getBatchSize` falls back to. -/
def defaultBatchSize : ℕ+ := 500

instance lawfulBEq_bytes : LawfulBEq (List UInt8) := inferInstance

namespace Store

variable (S : Store)

def toRedisKey (key : JsString) : JsString :=
  if S.versioned then RedisStore.toRedisKey S.layout key else S.layout.keyPrefix ++ key

def toLockKey (key : JsString) : JsString :=
  if S.versioned then RedisStore.toLockKey S.layout key
  else S.layout.keyPrefix ++ (str "__lock:" ++ key)

def toRedisPattern (pattern : JsString) : JsString :=
  if S.versioned then versionedKeyPrefix ++ str "*:" ++
    escapeRedisGlob S.layout.keyPrefix ++ cachePatternToRedisGlob pattern
  else escapeRedisGlob S.layout.keyPrefix ++ cachePatternToRedisGlob pattern

/-- The pattern of `fencePatternLeases`. -/
def leasePattern (pattern : JsString) : JsString :=
  versionedKeyPrefix ++ str "*:" ++ escapeRedisGlob S.layout.keyPrefix ++ str "__lock:" ++
    cachePatternToRedisGlob pattern

def parseRedisKey (redisKey : JsString) : Option (Kind × JsString) :=
  if S.versioned then RedisStore.parseRedisKey S.layout redisKey
  else if redisKey = S.layout.indexKey then none
  else match stripStart S.layout.keyPrefix redisKey with
    | none => none
    | some logicalKey =>
      match stripStart (str "__lock:") logicalKey with
      | some lockedKey => some (.lock, lockedKey)
      | none => some (.data, logicalKey)

/-- The logical key of a data key. -/
def dataOf (redisKey : JsString) : Option JsString :=
  match S.parseRedisKey redisKey with
  | some (.data, logicalKey) => some logicalKey
  | _ => none

def lockOf (redisKey : JsString) : Option JsString :=
  match S.parseRedisKey redisKey with
  | some (.lock, logicalKey) => some logicalKey
  | _ => none

def toLogicalKey (redisKey : JsString) : JsString :=
  ((S.parseRedisKey redisKey).map Prod.snd).getD redisKey

end Store

/-! ### Commands -/

/-- What Redis holds under a key: a string or a sorted set. -/
inductive Cell
  | value (bytes : List UInt8)
  | sorted (members : List (List UInt8))
  deriving DecidableEq

abbrev Keyspace := List UInt8 → Option Cell

/-- The commands and scripts of a store. -/
inductive Command
  /-- `SET_AND_FENCE_LUA` -/
  | setAndFence (key lock payload : List UInt8)
  /-- `DELETE_AND_FENCE_LUA` -/
  | deleteAndFence (key lock : List UInt8)
  | set (key payload : List UInt8)
  /-- `SET … NX` -/
  | setNx (key token : List UInt8)
  /-- `DEL` or `UNLINK` -/
  | delete (keys : List (List UInt8))
  | zadd (key member : List UInt8)
  | zrem (key : List UInt8) (members : List (List UInt8))
  /-- `SNAPSHOT_LUA` or `GET` and `PTTL` -/
  | snapshot (key : List UInt8)
  deriving DecidableEq

/-- The keys that a command touches. -/
def Command.keys : Command → List (List UInt8)
  | .setAndFence key lock _ => [key, lock]
  | .deleteAndFence key lock => [key, lock]
  | .set key _ => [key]
  | .setNx key _ => [key]
  | .delete keys => keys
  | .zadd key _ => [key]
  | .zrem key _ => [key]
  | .snapshot key => [key]

def put (db : Keyspace) (key : List UInt8) (cell : Option Cell) : Keyspace :=
  fun k => if k = key then cell else db k

/-- `ZADD` and `ZREM` on a string are errors; a sorted set that becomes empty is gone. -/
def updateSorted (f : List (List UInt8) → List (List UInt8)) : Option Cell → Option Cell
  | some (.value bytes) => some (.value bytes)
  | some (.sorted members) => if f members = [] then none else some (.sorted (f members))
  | none => if f [] = [] then none else some (.sorted (f []))

def Command.run : Command → Keyspace → Keyspace
  | .setAndFence key lock payload, db => put (put db key (some (.value payload))) lock none
  | .deleteAndFence key lock, db => put (put db key none) lock none
  | .set key payload, db => put db key (some (.value payload))
  | .setNx key token, db => if db key = none then put db key (some (.value token)) else db
  | .delete keys, db => fun k => if k ∈ keys then none else db k
  | .zadd key member, db =>
    put db key (updateSorted (fun members => members.insert member) (db key))
  | .zrem key removed, db =>
    put db key (updateSorted (fun members => members.filter (· ∉ removed)) (db key))
  | .snapshot _, db => db

def runAll (commands : List Command) (db : Keyspace) : Keyspace :=
  commands.foldl (fun db command => command.run db) db

theorem put_of_ne {db : Keyspace} {key k : List UInt8} (h : k ≠ key) (cell : Option Cell) :
    put db key cell k = db k := if_neg h

theorem Command.run_frame {command : Command} {k : List UInt8} (h : k ∉ command.keys)
    (db : Keyspace) : command.run db k = db k := by
  cases command with
  | setAndFence key lock payload =>
    rw [Command.keys, List.mem_cons, List.mem_singleton, not_or] at h
    rw [Command.run, put_of_ne h.2, put_of_ne h.1]
  | deleteAndFence key lock =>
    rw [Command.keys, List.mem_cons, List.mem_singleton, not_or] at h
    rw [Command.run, put_of_ne h.2, put_of_ne h.1]
  | set key payload => exact put_of_ne (by simpa [Command.keys] using h) _
  | setNx key token =>
    rw [Command.run]
    split_ifs
    · exact put_of_ne (by simpa [Command.keys] using h) _
    · rfl
  | delete keys => exact if_neg h
  | zadd key member => exact put_of_ne (by simpa [Command.keys] using h) _
  | zrem key removed => exact put_of_ne (by simpa [Command.keys] using h) _
  | snapshot key => rfl

/-- Nothing but the named keys changes. -/
theorem runAll_frame {commands : List Command} {k : List UInt8}
    (h : ∀ command ∈ commands, k ∉ command.keys) (db : Keyspace) :
    runAll commands db k = db k := by
  induction commands generalizing db with
  | nil => rfl
  | cons command commands ih =>
    rw [runAll, List.foldl_cons]
    exact (ih (fun c hc => h c (List.mem_cons_of_mem command hc)) _).trans
      (command.run_frame (h command List.mem_cons_self) db)

theorem runAll_append (cs ds : List Command) (db : Keyspace) :
    runAll (cs ++ ds) db = runAll ds (runAll cs db) := List.foldl_append

/-! ### Deletions -/

/-- Nothing is left under the keys that a command names. -/
def Command.Deletes (command : Command) : Prop :=
  ∀ db, ∀ k ∈ command.keys, command.run db k = none

theorem deletes_deleteAndFence (key lock : List UInt8) :
    (Command.deleteAndFence key lock).Deletes := by
  intro db k hk
  rw [Command.keys, List.mem_cons, List.mem_singleton] at hk
  rw [Command.run, put, put]
  split_ifs with hlock hkey
  · rfl
  · rfl
  · exact absurd hk (by tauto)

theorem deletes_delete (keys : List (List UInt8)) : (Command.delete keys).Deletes :=
  fun _ _ hk => if_pos hk

theorem runAll_of_none {commands : List Command} (h : ∀ command ∈ commands, command.Deletes)
    {k : List UInt8} {db : Keyspace} (hk : db k = none) : runAll commands db k = none := by
  induction commands generalizing db with
  | nil => exact hk
  | cons command commands ih =>
    rw [runAll, List.foldl_cons]
    refine ih (fun c hc => h c (List.mem_cons_of_mem command hc)) ?_
    by_cases hmem : k ∈ command.keys
    · exact h command List.mem_cons_self db k hmem
    · rw [command.run_frame hmem, hk]

/-- What one of the deletions names is gone. -/
theorem runAll_of_mem {commands : List Command} (h : ∀ command ∈ commands, command.Deletes)
    {command : Command} (hmem : command ∈ commands) {k : List UInt8} (hk : k ∈ command.keys)
    (db : Keyspace) : runAll commands db k = none := by
  obtain ⟨before, after, rfl⟩ := List.append_of_mem hmem
  rw [runAll_append]
  show runAll after (command.run (runAll before db)) k = none
  refine runAll_of_none (fun c hc => h c ?_) (h command hmem _ k hk)
  exact List.mem_append_right before (List.mem_cons_of_mem command hc)

namespace Store

variable (S : Store)

/-- `keys.slice(index, index + size)` for every `size`-th index. -/
def slices {α : Type} (size : ℕ+) (keys : List α) : List (List α) :=
  if _ : keys = [] then [] else keys.take size :: slices size (keys.drop size)
termination_by keys.length
decreasing_by
  have hpos : 0 < keys.length := List.length_pos_iff.mpr (by assumption)
  rw [List.length_drop]
  have := size.pos
  omega

theorem flatten_slices {α : Type} (size : ℕ+) (keys : List α) :
    (slices size keys).flatten = keys := by
  induction keys using slices.induct size with
  | case1 => rw [slices, dif_pos rfl, List.flatten_nil]
  | case2 keys hne ih => rw [slices, dif_neg hne, List.flatten_cons, ih, List.take_append_drop]

/-- One batch of `deleteKeys`; the batch holds data keys only. -/
def deleteBatch (batch : List JsString) : List Command :=
  if batch = [] then []
  else
    (if S.versioned then batch.map fun redisKey =>
        .deleteAndFence (utf8 redisKey) (utf8 (S.toLockKey (S.toLogicalKey redisKey)))
      else [.delete (batch.map utf8)]) ++
    if S.useIndex then [.zrem (utf8 S.layout.indexKey) (batch.map utf8)] else []

def deleteKeys (keys : List JsString) : List Command :=
  (slices S.batchSize keys).flatMap fun batch =>
    S.deleteBatch (batch.filter fun key => (S.dataOf key).isSome)

/-- `parsed?.kind === 'data' && matchesPattern(parsed.logicalKey, pattern)` -/
def hasMatchingData (pattern redisKey : JsString) : Bool :=
  (S.dataOf redisKey).any fun logicalKey => matchesPattern logicalKey pattern

/-- The lease of a lock key that a scan has found, with its data. -/
def fenceLease (pattern redisKey : JsString) : Option Command :=
  match S.lockOf redisKey with
  | some logicalKey =>
    if matchesPattern logicalKey pattern then
      some (.deleteAndFence (utf8 (S.toRedisKey logicalKey)) (utf8 redisKey))
    else none
  | none => none

/-- `fencePatternLeases(pattern)`, with the batches of the scan. -/
def fencePatternLeases (pattern : JsString) (leases : List (List JsString)) : List Command :=
  leases.flatMap fun keys => keys.filterMap (S.fenceLease pattern)

/-- The loop of `deleteByPattern`, with the batches of the scan.  With an index, the
members that have expired are removed first, and the members found are collected into
batches across the replies. -/
def deleteFound (pattern : JsString) (expired : List (List UInt8))
    (found : List (List JsString)) : List Command :=
  if S.useIndex then
    .zrem (utf8 S.layout.indexKey) expired ::
      S.deleteKeys (found.flatten.filter (S.hasMatchingData pattern))
  else found.flatMap fun keys => S.deleteKeys (keys.filter (S.hasMatchingData pattern))

def deleteByPattern (pattern : JsString) (expired : List (List UInt8))
    (found leases : List (List JsString)) : List Command :=
  S.deleteFound pattern expired found ++
    if S.versioned then S.fencePatternLeases pattern leases else []

end Store

end RedisStore
