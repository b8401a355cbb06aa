/-
The v2 key layout of `RedisStore`.

Every logical key owns two Redis keys, its data and its lease, which share one
Cluster hash tag derived from the whole logical key.  Keys travel as UTF-8, so
two strings are one Redis key when their encodings agree, lone surrogates
included; the tag keeps them apart (`dataKey_injective`, `lockKey_injective`,
`dataKey_ne_lockKey`).

`parseRedisKey` recognises the keys of its own namespace by rebuilding them
(`parseRedisKey_toRedisKey`, `parseRedisKey_toLockKey`), and nothing else
(`eq_of_parseRedisKey`).

* `hashTag` — the part of a key that Redis Cluster hashes;
* `key_layout_faithful` — the layout is a faithful encoding of the logical keys.
-/
import LazyLayers.JsString

open Js

namespace RedisStore

def versionedKeyPrefix : JsString := str "lazy-layers:v2:"

/-- The part of the configuration that the key layout reads.  The constructor
rejects an ill-formed `prefix`; `indexKey` may be configured freely. -/
structure Layout where
  keyPrefix : JsString
  wellFormed_keyPrefix : wellFormed keyPrefix
  indexKey : JsString := keyPrefix ++ str "__index"

theorem wellFormed_cache : wellFormed (str "cache:") = true := by decide

/-- The hash tag of a logical key. -/
def toSlotTag (logicalKey : JsString) : JsString :=
  match encodeURIComponent logicalKey with
  | some [] => str "_"
  | some tag => tag
  | none => str "utf16:" ++ base64url (utf16le logicalKey)

/-- What precedes the caller's prefix in both keys of an entry. -/
def tagged (logicalKey : JsString) : JsString :=
  versionedKeyPrefix ++ str "\x7b" ++ toSlotTag logicalKey ++ str "\x7d:"

variable (N : Layout)

def toRedisKey (key : JsString) : JsString := tagged key ++ (N.keyPrefix ++ key)

def toLockKey (key : JsString) : JsString := tagged key ++ (N.keyPrefix ++ (str "__lock:" ++ key))

inductive Kind
  | data
  | lock
  deriving DecidableEq

/-- `s.indexOf(needle, start)`. -/
def indexOf (s needle : JsString) (start : ℕ) : Option ℕ :=
  ((s.drop start).tails.findIdx? fun t => needle.isPrefixOf t).map (· + start)

/-- `s.startsWith(head) ? s.slice(head.length) : undefined`. -/
def stripStart (head s : JsString) : Option JsString :=
  if head.isPrefixOf s then some (s.drop head.length) else none

def parseRedisKey (redisKey : JsString) : Option (Kind × JsString) :=
  if redisKey = N.indexKey then none
  else if (versionedKeyPrefix ++ str "\x7b").isPrefixOf redisKey then
    match indexOf redisKey (str "\x7d:") versionedKeyPrefix.length with
    | none => none
    | some tagEnd =>
      match stripStart N.keyPrefix (redisKey.drop (tagEnd + 2)) with
      | none => none
      | some logicalKey =>
        if toRedisKey N logicalKey = redisKey then some (.data, logicalKey)
        else match stripStart (str "__lock:") logicalKey with
          | none => none
          | some lockedKey =>
            if toLockKey N lockedKey = redisKey then some (.lock, lockedKey) else none
  else none

/-- The keys as Redis sees them. -/
def dataKey (key : JsString) : List UInt8 := utf8 (toRedisKey N key)

def lockKey (key : JsString) : List UInt8 := utf8 (toLockKey N key)

/-! ### The tag -/

theorem ascii_str_utf16 : ∀ u ∈ str "utf16:", u.toNat < 128 ∧ u ≠ 125 := by decide

/-- A tag is ASCII and does not close the braces around it. -/
theorem mem_toSlotTag {k : JsString} {u : UInt16} (hu : u ∈ toSlotTag k) :
    u.toNat < 128 ∧ u ≠ 125 := by
  rw [toSlotTag] at hu
  split at hu
  · revert u
    decide
  · rename_i tag _ h
    have hdel := not_delimiter_of_encodeURIComponent h hu
    exact ⟨hdel.1, hdel.2.2.2⟩
  · rcases List.mem_append.mp hu with hu | hu
    · exact ascii_str_utf16 u hu
    · have hdel := not_delimiter_of_mem_base64url _ hu
      exact ⟨hdel.1, hdel.2.2⟩

theorem encodeURIComponent_nil : encodeURIComponent [] = some [] := by decide

theorem encodeURIComponent_underscore : encodeURIComponent (str "_") = some (str "_") := by
  decide

/-- Only the empty key borrows the tag of another. -/
theorem toSlotTag_eq {k l : JsString} (h : toSlotTag k = toSlotTag l) :
    k = l ∨ (k = [] ∧ l = str "_") ∨ (k = str "_" ∧ l = []) := by
  have hnil : ∀ {k}, encodeURIComponent k = some [] → k = [] := fun hk =>
    encodeURIComponent_injective hk encodeURIComponent_nil
  have hund : ∀ {k}, encodeURIComponent k = some (str "_") → k = str "_" := fun hk =>
    encodeURIComponent_injective hk encodeURIComponent_underscore
  -- a URI tag has no colon, so it is no `utf16:` tag
  have hcolon : ∀ {k e} {m : JsString}, encodeURIComponent k = some e → e ≠ str "utf16:" ++ m := by
    rintro k e m hk rfl
    exact (not_delimiter_of_encodeURIComponent hk
      (show (58 : UInt16) ∈ _ from List.mem_append_left _ (by decide))).2.1 rfl
  rw [toSlotTag, toSlotTag] at h
  rcases hk : encodeURIComponent k with _ | (_ | ⟨u, e⟩) <;>
    rcases hl : encodeURIComponent l with _ | (_ | ⟨v, f⟩) <;> rw [hk, hl] at h <;> dsimp only at h
  · left
    exact utf16le_injective (base64url_injective (List.append_cancel_left h))
  · exact absurd h.symm (hcolon encodeURIComponent_underscore)
  · exact absurd h.symm (hcolon hl)
  · exact absurd h (hcolon encodeURIComponent_underscore)
  · left
    rw [hnil hk, hnil hl]
  · right; left
    exact ⟨hnil hk, hund (by rw [hl, ← h])⟩
  · exact absurd h (hcolon hk)
  · right; right
    exact ⟨hund (by rw [hk, h]), hnil hl⟩
  · left
    exact encodeURIComponent_injective hk (by rw [hl, ← h])

theorem toSlotTag_lock_ne (k : JsString) : toSlotTag (str "__lock:" ++ k) ≠ toSlotTag k := by
  intro h
  have hlong : (str "__lock:" ++ k).length = 7 + k.length := List.length_append
  rcases toSlotTag_eq h with h | ⟨h, -⟩ | ⟨h, -⟩
  · rw [h] at hlong
    omega
  · rw [h, List.length_nil] at hlong
    omega
  · have hone : (str "_").length = 1 := rfl
    rw [h, hone] at hlong
    omega

/-! ### Distinct entries have distinct keys on the wire -/

theorem ascii_tagged (k : JsString) : ∀ u ∈ tagged k, u.toNat < 128 := by
  have hlit : (∀ u ∈ versionedKeyPrefix ++ str "\x7b", u.toNat < 128) ∧
      ∀ u ∈ str "\x7d:", u.toNat < 128 := by decide
  intro u hu
  rw [tagged, List.mem_append, List.mem_append] at hu
  rcases hu with (hu | hu) | hu
  · exact hlit.1 u hu
  · exact (mem_toSlotTag hu).1
  · exact hlit.2 u hu

/-- The octets of an ASCII string. -/
def octets (s : JsString) : List UInt8 := s.map fun u => UInt8.ofNat u.toNat

theorem utf8_tagged_append (k s : JsString) :
    utf8 (tagged k ++ (N.keyPrefix ++ s)) = octets (tagged k) ++ (utf8 N.keyPrefix ++ utf8 s) := by
  rw [utf8_ascii_append (ascii_tagged k), utf8_append N.wellFormed_keyPrefix]
  rfl

theorem octets_append (s t : JsString) : octets (s ++ t) = octets s ++ octets t :=
  List.map_append

theorem octets_inj {s t : JsString} (hs : ∀ u ∈ s, u.toNat < 128) (ht : ∀ u ∈ t, u.toNat < 128)
    (h : octets s = octets t) : s = t := by
  induction s generalizing t with
  | nil =>
    cases t with
    | nil => rfl
    | cons v t => simp [octets] at h
  | cons u s ih =>
    cases t with
    | nil => simp [octets] at h
    | cons v t =>
      simp only [octets, List.map_cons, List.cons.injEq] at h
      have hu := hs u (by simp)
      have hv := ht v (by simp)
      have hnat := congrArg UInt8.toNat h.1
      rw [UInt8.toNat_ofNat', UInt8.toNat_ofNat'] at hnat
      obtain rfl : u = v := UInt16.toNat_inj.mp (by omega)
      rw [ih (fun w hw => hs w (by simp [hw])) (fun w hw => ht w (by simp [hw])) h.2]

/-- The first closing brace ends the tag, so a key determines its tag. -/
theorem tag_eq_of_append {s t : List UInt8} {x y : List UInt8} (hs : (125 : UInt8) ∉ s)
    (ht : (125 : UInt8) ∉ t) (h : s ++ 125 :: x = t ++ 125 :: y) : s = t ∧ x = y := by
  induction s generalizing t with
  | nil =>
    cases t with
    | nil => simpa using h
    | cons b t =>
      simp only [List.nil_append, List.cons_append, List.cons.injEq] at h
      exact absurd (h.1 ▸ List.mem_cons_self) ht
  | cons a s ih =>
    cases t with
    | nil =>
      simp only [List.nil_append, List.cons_append, List.cons.injEq] at h
      exact absurd (h.1 ▸ List.mem_cons_self) hs
    | cons b t =>
      simp only [List.cons_append, List.cons.injEq] at h
      obtain ⟨hst, hxy⟩ := ih (fun hm => hs (by simp [hm])) (fun hm => ht (by simp [hm])) h.2
      rw [h.1, hst]
      exact ⟨rfl, hxy⟩

theorem not_mem_octets_tag (k : JsString) : (125 : UInt8) ∉ octets (toSlotTag k) := by
  intro hm
  obtain ⟨u, hu, hb⟩ := List.mem_map.mp hm
  obtain ⟨hlt, hne⟩ := mem_toSlotTag hu
  have hnat := congrArg UInt8.toNat hb
  rw [UInt8.toNat_ofNat'] at hnat
  refine hne (UInt16.toNat_inj.mp ?_)
  change u.toNat = 125
  change u.toNat % 256 = 125 at hnat
  omega

theorem octets_tagged (k : JsString) : octets (tagged k) =
    octets (versionedKeyPrefix ++ str "\x7b") ++ (octets (toSlotTag k) ++ [125, 58]) := by
  rw [tagged, octets_append, octets_append, List.append_assoc]
  rfl

/-- Keys of two layouts that agree on the wire have one tag and agree in the rest. -/
theorem wire_split {N M : Layout} {k l s t : JsString}
    (h : utf8 (tagged k ++ (N.keyPrefix ++ s)) = utf8 (tagged l ++ (M.keyPrefix ++ t))) :
    toSlotTag k = toSlotTag l ∧
      utf8 N.keyPrefix ++ utf8 s = utf8 M.keyPrefix ++ utf8 t := by
  rw [utf8_tagged_append, utf8_tagged_append, octets_tagged, octets_tagged, List.append_assoc,
    List.append_assoc, List.append_assoc, List.append_assoc] at h
  have hcut := List.append_cancel_left h
  obtain ⟨htag, hrest⟩ := tag_eq_of_append (not_mem_octets_tag k) (not_mem_octets_tag l) hcut
  refine ⟨octets_inj (fun u hu => (mem_toSlotTag hu).1) (fun u hu => (mem_toSlotTag hu).1) htag, ?_⟩
  exact (List.cons.inj hrest).2

/-- Two keys of the layout that agree on the wire have one tag and agree in the rest. -/
theorem wire_eq {k l s t : JsString} (h : utf8 (tagged k ++ (N.keyPrefix ++ s)) =
    utf8 (tagged l ++ (N.keyPrefix ++ t))) : toSlotTag k = toSlotTag l ∧ utf8 s = utf8 t := by
  obtain ⟨htag, hrest⟩ := wire_split h
  exact ⟨htag, List.append_cancel_left hrest⟩

theorem utf8_lock (k : JsString) :
    utf8 (str "__lock:" ++ k) = octets (str "__lock:") ++ utf8 k :=
  utf8_ascii_append (by decide) k

theorem dataKey_injective : Function.Injective (dataKey N) := by
  intro k l h
  obtain ⟨htag, hrest⟩ := wire_eq N h
  rcases toSlotTag_eq htag with h | ⟨rfl, rfl⟩ | ⟨rfl, rfl⟩
  · exact h
  · exact absurd hrest (by decide)
  · exact absurd hrest (by decide)

theorem lockKey_injective : Function.Injective (lockKey N) := by
  intro k l h
  obtain ⟨htag, hrest⟩ := wire_eq N h
  rw [utf8_lock, utf8_lock] at hrest
  have hrest := List.append_cancel_left hrest
  rcases toSlotTag_eq htag with h | ⟨rfl, rfl⟩ | ⟨rfl, rfl⟩
  · exact h
  · exact absurd hrest (by decide)
  · exact absurd hrest (by decide)

/-- No entry's data key is any entry's lease, `__lock:` keys included. -/
theorem dataKey_ne_lockKey (k l : JsString) : dataKey N k ≠ lockKey N l := by
  intro h
  obtain ⟨htag, hrest⟩ := wire_eq N h
  rw [utf8_lock] at hrest
  rcases toSlotTag_eq htag with rfl | ⟨rfl, rfl⟩ | ⟨rfl, rfl⟩
  · have hlen := congrArg List.length hrest
    rw [List.length_append] at hlen
    have : (octets (str "__lock:")).length = 7 := by decide
    omega
  · exact absurd hrest (by decide)
  · exact absurd hrest (by decide)

/-! ### Parsing -/

theorem findIdx_tails {s t : JsString} (hs : (125 : UInt16) ∉ s) :
    (s ++ 125 :: 58 :: t).tails.findIdx? (fun t => (str "\x7d:").isPrefixOf t) =
      some s.length := by
  induction s with
  | nil =>
    rw [List.nil_append, List.tails, List.findIdx?_cons]
    rfl
  | cons u s ih =>
    have hu : u ≠ 125 := fun h => hs (by simp [h])
    have hno : (str "\x7d:").isPrefixOf (u :: (s ++ 125 :: 58 :: t)) = false := by
      change ((125 : UInt16) == u && _) = false
      rw [beq_eq_false_iff_ne.mpr (Ne.symm hu), Bool.false_and]
    rw [List.cons_append, List.tails, List.findIdx?_cons, hno,
      ih fun hm => hs (by simp [hm])]
    rfl

theorem stripStart_append (head s : JsString) : stripStart head (head ++ s) = some s := by
  rw [stripStart, if_pos (by simp), List.drop_left]

theorem indexOf_tagged (k s : JsString) :
    indexOf (tagged k ++ s) (str "\x7d:") versionedKeyPrefix.length =
      some ((tagged k).length - 2) := by
  have hlen : (tagged k).length = versionedKeyPrefix.length + 1 + (toSlotTag k).length + 2 := by
    simp only [tagged, List.length_append]
    rfl
  have hdrop : (tagged k ++ s).drop versionedKeyPrefix.length =
      (123 :: toSlotTag k) ++ 125 :: 58 :: s := by
    rw [tagged, List.append_assoc, List.append_assoc, List.append_assoc, List.drop_left]
    rfl
  rw [indexOf, hdrop, findIdx_tails, Option.map_some, hlen, List.length_cons]
  · congr 1
    omega
  · intro hm
    rcases List.mem_cons.mp hm with h | h
    · exact absurd h (by decide)
    · exact (mem_toSlotTag h).2 rfl

/-- What the parser does on a tagged key, up to the classification. -/
theorem parseRedisKey_tagged {k s : JsString} (hidx : tagged k ++ (N.keyPrefix ++ s) ≠ N.indexKey) :
    parseRedisKey N (tagged k ++ (N.keyPrefix ++ s)) =
      if toRedisKey N s = tagged k ++ (N.keyPrefix ++ s) then some (.data, s)
      else match stripStart (str "__lock:") s with
        | none => none
        | some lockedKey =>
          if toLockKey N lockedKey = tagged k ++ (N.keyPrefix ++ s) then some (.lock, lockedKey)
          else none := by
  have hstart : (versionedKeyPrefix ++ str "\x7b").isPrefixOf
      (tagged k ++ (N.keyPrefix ++ s)) = true := by
    rw [List.isPrefixOf_iff_prefix, tagged, List.append_assoc, List.append_assoc]
    exact List.prefix_append _ _
  have htwo : (tagged k).length - 2 + 2 = (tagged k).length := by
    simp only [tagged, List.length_append]
    have : (str "\x7d:").length = 2 := by decide
    omega
  rw [parseRedisKey, if_neg hidx, if_pos hstart, indexOf_tagged]
  dsimp only
  rw [htwo, List.drop_left, stripStart_append]

theorem parseRedisKey_toRedisKey {k : JsString} (hidx : toRedisKey N k ≠ N.indexKey) :
    parseRedisKey N (toRedisKey N k) = some (.data, k) := by
  rw [toRedisKey, parseRedisKey_tagged N hidx]
  exact if_pos rfl

theorem parseRedisKey_toLockKey {k : JsString} (hidx : toLockKey N k ≠ N.indexKey) :
    parseRedisKey N (toLockKey N k) = some (.lock, k) := by
  rw [toLockKey, parseRedisKey_tagged N hidx, if_neg, stripStart_append]
  · exact if_pos rfl
  · intro h
    exact toSlotTag_lock_ne k (wire_eq N (congrArg utf8 h)).1

/-- The parser only answers after it has rebuilt the whole key. -/
theorem eq_of_parseRedisKey {s k : JsString} {kind : Kind}
    (h : parseRedisKey N s = some (kind, k)) :
    s ≠ N.indexKey ∧ s = match kind with
      | .data => toRedisKey N k
      | .lock => toLockKey N k := by
  rw [parseRedisKey] at h
  split at h
  · cases h
  · next hidx =>
    refine ⟨hidx, ?_⟩
    split at h
    · split at h
      · cases h
      · split at h
        · cases h
        · split at h
          · next hdata =>
            cases h
            exact hdata.symm
          · split at h
            · cases h
            · split at h
              · next hlock =>
                cases h
                exact hlock.symm
              · cases h
    · cases h

theorem parseRedisKey_data_iff (s k : JsString) :
    parseRedisKey N s = some (.data, k) ↔ s = toRedisKey N k ∧ s ≠ N.indexKey := by
  constructor
  · intro h
    obtain ⟨hidx, hs⟩ := eq_of_parseRedisKey N h
    exact ⟨hs, hidx⟩
  · rintro ⟨rfl, hidx⟩
    exact parseRedisKey_toRedisKey N hidx

theorem parseRedisKey_lock_iff (s k : JsString) :
    parseRedisKey N s = some (.lock, k) ↔ s = toLockKey N k ∧ s ≠ N.indexKey := by
  constructor
  · intro h
    obtain ⟨hidx, hs⟩ := eq_of_parseRedisKey N h
    exact ⟨hs, hidx⟩
  · rintro ⟨rfl, hidx⟩
    exact parseRedisKey_toLockKey N hidx

/-! ### Cluster slots -/

/-- What Redis Cluster hashes of a key: the octets between the first opening
brace and the first closing one after it, or the whole key when there are no
such braces or nothing stands between them. -/
def hashTag (key : List UInt8) : List UInt8 :=
  match key.dropWhile (· ≠ 123) with
  | [] => key
  | _ :: rest =>
    if 125 ∈ rest ∧ rest.takeWhile (· ≠ 125) ≠ [] then rest.takeWhile (· ≠ 125) else key

theorem toSlotTag_ne_nil (k : JsString) : toSlotTag k ≠ [] := by
  rw [toSlotTag]
  split
  · decide
  · next hne _ => exact hne
  · intro h
    have hlen := congrArg List.length h
    rw [List.length_append] at hlen
    have : (str "utf16:").length = 6 := by decide
    rw [List.length_nil] at hlen
    omega

/-- Whatever follows, the braces of the layout delimit the hash tag. -/
theorem hashTag_tagged (k : JsString) (t : List UInt8) :
    hashTag (octets (tagged k) ++ t) = octets (toSlotTag k) := by
  have hhead : octets (tagged k) ++ t =
      octets versionedKeyPrefix ++ 123 :: (octets (toSlotTag k) ++ 125 :: 58 :: t) := by
    rw [octets_tagged, octets_append]
    simp only [List.append_assoc]
    rfl
  have hopen : (octets versionedKeyPrefix ++
      123 :: (octets (toSlotTag k) ++ 125 :: 58 :: t)).dropWhile (· ≠ 123) =
        123 :: (octets (toSlotTag k) ++ 125 :: 58 :: t) := by
    rw [List.dropWhile_append_of_pos, List.dropWhile_cons_of_neg (by decide)]
    decide
  have hclose : (octets (toSlotTag k) ++ 125 :: 58 :: t).takeWhile (· ≠ 125) =
      octets (toSlotTag k) := by
    rw [List.takeWhile_append_of_pos, List.takeWhile_cons_of_neg (by decide), List.append_nil]
    intro b hb
    rw [decide_eq_true_eq]
    rintro rfl
    exact not_mem_octets_tag k hb
  have hne : octets (toSlotTag k) ≠ [] := by
    rw [octets, ne_eq, List.map_eq_nil_iff]
    exact toSlotTag_ne_nil k
  rw [hhead, hashTag, hopen]
  dsimp only
  rw [hclose, if_pos ⟨by simp, hne⟩]

theorem hashTag_dataKey (k : JsString) : hashTag (dataKey N k) = octets (toSlotTag k) := by
  rw [dataKey, toRedisKey, utf8_tagged_append, hashTag_tagged]

theorem hashTag_lockKey (k : JsString) : hashTag (lockKey N k) = octets (toSlotTag k) := by
  rw [lockKey, toLockKey, utf8_tagged_append, hashTag_tagged]

/-- Two keys share a slot tag only when one is empty and the other is `_`. -/
theorem hashTag_dataKey_eq_iff (k l : JsString) :
    hashTag (dataKey N k) = hashTag (dataKey N l) ↔
      k = l ∨ (k = [] ∧ l = str "_") ∨ (k = str "_" ∧ l = []) := by
  rw [hashTag_dataKey, hashTag_dataKey]
  constructor
  · intro h
    exact toSlotTag_eq
      (octets_inj (fun u hu => (mem_toSlotTag hu).1) (fun u hu => (mem_toSlotTag hu).1) h)
  · rintro (rfl | ⟨rfl, rfl⟩ | ⟨rfl, rfl⟩)
    · rfl
    · decide
    · decide

/-- **The v2 key layout is a faithful encoding.**  Both keys of an entry parse
back to it unless they are the configured index key, and nothing else parses as
one; as strings and as octets the two maps are injective with disjoint ranges;
and the two keys of an entry carry one Cluster hash tag, which only `''` and `_`
share. -/
theorem key_layout_faithful (N : Layout) :
    (∀ k, parseRedisKey N (toRedisKey N k) =
      if toRedisKey N k = N.indexKey then none else some (.data, k)) ∧
    (∀ k, parseRedisKey N (toLockKey N k) =
      if toLockKey N k = N.indexKey then none else some (.lock, k)) ∧
    (∀ s k, parseRedisKey N s = some (.data, k) ↔ s = toRedisKey N k ∧ s ≠ N.indexKey) ∧
    (∀ s k, parseRedisKey N s = some (.lock, k) ↔ s = toLockKey N k ∧ s ≠ N.indexKey) ∧
    (∀ k l, toRedisKey N k ≠ toLockKey N l ∧ dataKey N k ≠ lockKey N l) ∧
    (Function.Injective (toRedisKey N) ∧ Function.Injective (dataKey N)) ∧
    (Function.Injective (toLockKey N) ∧ Function.Injective (lockKey N)) ∧
    (∀ k, hashTag (dataKey N k) = hashTag (lockKey N k)) ∧
    (∀ k l, hashTag (dataKey N k) = hashTag (dataKey N l) ↔
      k = l ∨ (k = [] ∧ l = str "_") ∨ (k = str "_" ∧ l = [])) := by
  have hindex : parseRedisKey N N.indexKey = none := by rw [parseRedisKey, if_pos rfl]
  refine ⟨fun k => ?_, fun k => ?_, parseRedisKey_data_iff N, parseRedisKey_lock_iff N,
    fun k l => ⟨fun h => ?_, dataKey_ne_lockKey N k l⟩, ⟨fun k l h => ?_, dataKey_injective N⟩,
    ⟨fun k l h => ?_, lockKey_injective N⟩, fun k => ?_, hashTag_dataKey_eq_iff N⟩
  · split
    · next h => rw [h, hindex]
    · next h => exact parseRedisKey_toRedisKey N h
  · split
    · next h => rw [h, hindex]
    · next h => exact parseRedisKey_toLockKey N h
  -- strings that differ on the wire differ
  · exact dataKey_ne_lockKey N k l (congrArg utf8 h)
  · exact dataKey_injective N (congrArg utf8 h)
  · exact lockKey_injective N (congrArg utf8 h)
  · rw [hashTag_dataKey, hashTag_lockKey]

end RedisStore
