/-
Inspection of a Redis store, page by page.

`inspect` asks the server for one step of a scan, keeps what it takes for matching data and
shows the first `limit` of them.  The cursor that it returns is the one of the server.  A
step may answer more elements than `COUNT`, and what is cut off is not asked for again.

* `request`, `inspect` — one call;
* `Browsing` — a caller that follows the cursors until there is none;
* `Promises` — what Redis promises of an iteration over a store that does not change;
* `returns_iff` — when a matching key comes back;
* `listed_iff` — every one is listed where no reply has more of them than a page.
-/
import LazyLayers.RedisEnumeration

open Js Pattern

namespace RedisStore

/-! ### The server -/

/-- `SCAN`, or `ZSCAN` of a sorted set, with `MATCH` and `COUNT`. -/
structure ScanRequest where
  sortedSet : Option JsString
  cursor : JsString
  glob : JsString
  count : ℕ

/-- The next cursor and what has been found: keys, or members with their scores. -/
structure ScanReply where
  cursor : JsString
  found : List JsString

/-- `members[0]`, `members[2]`, … -/
def everySecond : List JsString → List JsString
  | [] => []
  | [member] => [member]
  | member :: _ :: members => member :: everySecond members

/-- What a reply has found, without the scores. -/
def elements (sortedSet : Option JsString) (reply : ScanReply) : List JsString :=
  if sortedSet.isSome then everySecond reply.found else reply.found

/-- What the request ranges over. -/
def Ranges (db : Keyspace) : Option JsString → List UInt8 → Prop
  | none, w => db w ≠ none
  | some index, w => ∃ members, db (utf8 index) = some (.sorted members) ∧ w ∈ members

/-- Every request carries the cursor of the reply before it, and the last reply has
cursor `0` again. -/
def Chained : JsString → List (ScanRequest × ScanReply) → Prop
  | _, [] => False
  | cursor, [(request, reply)] => request.cursor = cursor ∧ reply.cursor = str "0"
  | cursor, (request, reply) :: exchanges =>
    request.cursor = cursor ∧ Chained reply.cursor exchanges

/-- What Redis promises while nothing changes: a reply has elements that are there and
match, and an iteration from cursor `0` to cursor `0` has each of them in some reply.  How
many a reply has is left to the server.  All that it holds is UTF-8. -/
structure Promises (db : Keyspace) (answers : ScanRequest → ScanReply → Prop) : Prop where
  sound : ∀ request reply, answers request reply →
    ∀ s ∈ elements request.sortedSet reply, wellFormed s = true ∧
      Ranges db request.sortedSet (utf8 s) ∧ globMatches (utf8 request.glob) (utf8 s) = true
  complete : ∀ sortedSet glob exchanges, Chained (str "0") exchanges →
    (∀ x ∈ exchanges, answers x.1 x.2 ∧ x.1.sortedSet = sortedSet ∧ x.1.glob = glob) →
      ∀ s, wellFormed s = true → Ranges db sortedSet (utf8 s) →
        globMatches (utf8 glob) (utf8 s) = true → ∃ x ∈ exchanges, s ∈ elements sortedSet x.2

/-! ### One call -/

structure InspectOptions where
  cursor : Option JsString := none
  limit : Option ℤ := none
  /-- `match` -/
  pattern : Option JsString := none

def defaultInspectLimit : ℕ := 100

/-- What a call returns; of the snapshot of each key, its name. -/
structure Inspection where
  size : ℕ
  cursor : Option JsString
  keys : List JsString

/-- `options.limit && options.limit > 0 ? options.limit : DEFAULT_INSPECT_LIMIT` -/
def InspectOptions.pageLimit (options : InspectOptions) : ℕ :=
  match options.limit with
  | some limit => if 0 < limit then limit.toNat else defaultInspectLimit
  | none => defaultInspectLimit

/-- `options.match ?? '*'` -/
def InspectOptions.wanted (options : InspectOptions) : JsString := options.pattern.getD (str "*")

namespace Store

variable (S : Store)

/-- The index, if there is one. -/
def scanned : Option JsString := if S.useIndex then some S.layout.indexKey else none

def request (options : InspectOptions) : ScanRequest where
  sortedSet := S.scanned
  cursor := options.cursor.getD (str "0")
  glob := S.toRedisPattern options.wanted
  count := options.pageLimit

/-- `redisKeys`, before they are cut off. -/
def matching (options : InspectOptions) (reply : ScanReply) : List JsString :=
  (elements S.scanned reply).filter (S.hasMatchingData options.wanted)

/-- `inspect(options)`, with the reply of the server and the answer of `size()`. -/
def inspect (options : InspectOptions) (reply : ScanReply) (size : ℕ) : Inspection where
  size := size
  cursor := if reply.cursor = str "0" then none else some reply.cursor
  keys := ((S.matching options reply).take options.pageLimit).map S.toLogicalKey

/-- A caller that passes every cursor on until there is none, with what has been sent and
what has been returned. -/
inductive Browsing : InspectOptions → List (ScanRequest × ScanReply) → List Inspection → Prop
  | last {options : InspectOptions} {reply : ScanReply} {size : ℕ} :
    (S.inspect options reply size).cursor = none →
      Browsing options [(S.request options, reply)] [S.inspect options reply size]
  | more {options : InspectOptions} {reply : ScanReply} {size : ℕ} {cursor : JsString}
      {exchanges : List (ScanRequest × ScanReply)} {pages : List Inspection} :
    (S.inspect options reply size).cursor = some cursor →
      Browsing { options with cursor := some cursor } exchanges pages →
        Browsing options ((S.request options, reply) :: exchanges)
          (S.inspect options reply size :: pages)

/-- No reply has more keys of matching entries than fit on a page. -/
def RepliesFit (options : InspectOptions) (limit : ℕ) (exchanges : List (ScanRequest × ScanReply)) :
    Prop :=
  ∀ x ∈ exchanges, (elements S.scanned x.2).countP (S.hasMatchingData options.wanted) ≤ limit

/-- Nothing is answered twice, and what the iteration ranges over is there. -/
def AnsweredOnce (db : Keyspace) (exchanges : List (ScanRequest × ScanReply)) : Prop :=
  (exchanges.flatMap fun x => elements S.scanned x.2).Nodup ∧
    ∀ w, Ranges db S.scanned w → db w ≠ none

/-- The store accepts the key and the server holds its data. -/
def Stored (db : Keyspace) (key : JsString) : Prop :=
  S.dataOf (S.toRedisKey key) = some key ∧ db (utf8 (S.toRedisKey key)) ≠ none

/-- The entry comes back from the server: it is in the index, if there is one, its key has
no lone surrogates, and the glob lets it through. -/
def Returns (db : Keyspace) (options : InspectOptions) (key : JsString) : Prop :=
  wellFormed key = true ∧ Ranges db S.scanned (utf8 (S.toRedisKey key)) ∧
    globMatches (utf8 (S.toRedisPattern options.wanted)) (utf8 (S.toRedisKey key)) = true

variable {S} {options : InspectOptions} {exchanges : List (ScanRequest × ScanReply)}
  {pages : List Inspection} {db : Keyspace}

/-- A pattern without lone surrogates lets every matching entry through, so that only the
key, and the index if there is one, can be in the way. -/
theorem returns_iff (hpattern : wellFormed options.wanted) {key : JsString}
    (hkey : S.Stored db key) (hmatch : matchesPattern key options.wanted = true) :
    S.Returns db options key ↔ wellFormed key = true ∧
      (S.useIndex = true → Ranges db (some S.layout.indexKey) (utf8 (S.toRedisKey key))) := by
  rw [Returns, scanned]
  split_ifs with hi
  · constructor
    · rintro ⟨hwell, hranges, -⟩
      exact ⟨hwell, fun _ => hranges⟩
    · rintro ⟨hwell, hranges⟩
      exact ⟨hwell, hranges hi, globMatches_toRedisKey hwell hpattern hmatch⟩
  · constructor
    · rintro ⟨hwell, -, -⟩
      exact ⟨hwell, fun h => absurd h hi⟩
    · rintro ⟨hwell, -⟩
      exact ⟨hwell, hkey.2, globMatches_toRedisKey hwell hpattern hmatch⟩

/-! ### The iteration -/

/-- The requests of a caller are one iteration. -/
theorem Browsing.chained (h : S.Browsing options exchanges pages) :
    Chained (options.cursor.getD (str "0")) exchanges := by
  induction h with
  | @last options reply size hcursor =>
    refine ⟨rfl, ?_⟩
    rw [inspect] at hcursor
    by_contra hne
    rw [if_neg hne] at hcursor
    cases hcursor
  | @more options reply size cursor exchanges pages hcursor hrest ih =>
    have hnext : reply.cursor = cursor := by
      rw [inspect] at hcursor
      split_ifs at hcursor
      exact Option.some.inj hcursor
    cases exchanges with
    | nil => cases hrest
    | cons x exchanges =>
      rw [← hnext] at ih
      exact ⟨rfl, ih⟩

/-- They ask for the same. -/
theorem Browsing.same (h : S.Browsing options exchanges pages) : ∀ x ∈ exchanges,
    x.1.sortedSet = S.scanned ∧ x.1.glob = S.toRedisPattern options.wanted := by
  induction h with
  | last =>
    intro x hx
    rw [List.mem_singleton.mp hx]
    exact ⟨rfl, rfl⟩
  | more _ _ ih =>
    intro x hx
    rcases List.mem_cons.mp hx with rfl | hx
    · exact ⟨rfl, rfl⟩
    · exact ih x hx

/-- And what is listed is the beginning of what matches, reply by reply. -/
theorem Browsing.mem_keys (h : S.Browsing options exchanges pages) (k : JsString) :
    k ∈ pages.flatMap Inspection.keys ↔ ∃ x ∈ exchanges,
      ∃ s ∈ (S.matching options x.2).take options.pageLimit, S.toLogicalKey s = k := by
  induction h with
  | last =>
    simp only [inspect, List.flatMap_cons, List.flatMap_nil, List.append_nil, List.mem_map,
      List.mem_singleton, exists_eq_left]
  | more _ _ ih =>
    rw [List.flatMap_cons, List.mem_append, ih, List.exists_mem_cons_iff, inspect, List.mem_map]
    rfl

/-- A key is listed when its Redis key stands among the first of some reply. -/
theorem mem_listed_iff (h : S.Browsing options exchanges pages) {k : JsString}
    (hk : S.dataOf (S.toRedisKey k) = some k) : k ∈ pages.flatMap Inspection.keys ↔
      ∃ x ∈ exchanges, S.toRedisKey k ∈ (S.matching options x.2).take options.pageLimit := by
  rw [h.mem_keys]
  constructor
  · rintro ⟨x, hx, s, hs, hname⟩
    refine ⟨x, hx, ?_⟩
    obtain ⟨l, hl, -⟩ := hasMatchingData_iff.mp (List.mem_filter.mp (List.mem_of_mem_take hs)).2
    rw [toLogicalKey_of_dataOf hl] at hname
    rw [hname] at hl
    rwa [← eq_of_dataOf hl]
  · rintro ⟨x, hx, hs⟩
    exact ⟨x, hx, _, hs, toLogicalKey_of_dataOf hk⟩

theorem length_matching (options : InspectOptions) (reply : ScanReply) :
    (S.matching options reply).length =
      (elements S.scanned reply).countP (S.hasMatchingData options.wanted) :=
  (List.countP_eq_length_filter ..).symm

/-- What a reply has beyond the limit is listed from no other reply, if nothing is answered
twice. -/
theorem notMem_take_of_mem_drop (honce : (exchanges.flatMap fun x => elements S.scanned x.2).Nodup)
    {n : ℕ} {x : ScanRequest × ScanReply} (hx : x ∈ exchanges) {s : JsString}
    (hs : s ∈ (S.matching options x.2).drop n) {y : ScanRequest × ScanReply}
    (hy : y ∈ exchanges) : s ∉ (S.matching options y.2).take n := by
  intro htake
  obtain ⟨hnodup, hdisjoint⟩ := List.nodup_flatMap.mp honce
  by_cases hxy : x = y
  · subst hxy
    have hmatching : (S.matching options x.2).Nodup := (hnodup x hx).filter _
    rw [← List.take_append_drop n (S.matching options x.2)] at hmatching
    exact (List.disjoint_of_nodup_append hmatching) htake hs
  · have : Std.Symm (Function.onFun List.Disjoint fun x : ScanRequest × ScanReply =>
        elements S.scanned x.2) := ⟨fun _ _ h _ ha hb => h hb ha⟩
    exact hdisjoint.forall hx hy hxy (List.mem_filter.mp (List.mem_of_mem_drop hs)).1
      (List.mem_filter.mp (List.mem_of_mem_take htake)).1

end Store

open Store in
/-- **Complete pages.**  A caller follows the cursors of `inspect` through a store that does
not change, with any limit and whatever the sizes of the server's replies.  Every matching key
is listed if every matching entry comes back from the server and no reply has more keys of
matching entries than the limit; and only then, if the server answers nothing twice. -/
theorem listed_iff (S : Store) (options : InspectOptions) {limit : ℕ}
    (hlimit : 0 < limit ∧ options.limit = some (limit : ℤ) ∨
      limit = 100 ∧ ∀ l, options.limit = some l → l ≤ 0)
    (hfirst : options.cursor.getD (str "0") = str "0") {db : Keyspace}
    {answers : ScanRequest → ScanReply → Prop} (hserver : Promises db answers)
    {exchanges : List (ScanRequest × ScanReply)} {pages : List Inspection}
    (hrun : S.Browsing options exchanges pages) (hanswers : ∀ x ∈ exchanges, answers x.1 x.2) :
    ((∀ key, S.Stored db key → matchesPattern key options.wanted = true →
        S.Returns db options key) ∧ S.RepliesFit options limit exchanges →
      ∀ key, S.Stored db key → matchesPattern key options.wanted = true →
        key ∈ pages.flatMap Inspection.keys) ∧
    (S.AnsweredOnce db exchanges →
      (∀ key, S.Stored db key → matchesPattern key options.wanted = true →
        key ∈ pages.flatMap Inspection.keys) →
      (∀ key, S.Stored db key → matchesPattern key options.wanted = true →
        S.Returns db options key) ∧ S.RepliesFit options limit exchanges) := by
  have hchain := hrun.chained
  rw [hfirst] at hchain
  have hsame := hrun.same
  have hpage : options.pageLimit = limit := by
    rw [InspectOptions.pageLimit]
    rcases hlimit with ⟨hpos, hsome⟩ | ⟨rfl, hnone⟩
    · rw [hsome]
      dsimp only
      rw [if_pos (by exact_mod_cast hpos), Int.toNat_natCast]
    · rcases hl : options.limit with _ | l
      · rfl
      · exact if_neg (not_lt.mpr (hnone l hl))
  constructor
  · rintro ⟨hreturns, hfit⟩ key hkey hmatch
    obtain ⟨hwell, hranges, hglob⟩ := hreturns key hkey hmatch
    obtain ⟨x, hx, helement⟩ := hserver.complete S.scanned _ exchanges hchain
      (fun x hx => ⟨hanswers x hx, hsame x hx⟩) _ (wellFormed_toRedisKey.mpr hwell) hranges hglob
    rw [mem_listed_iff hrun hkey.1]
    refine ⟨x, hx, ?_⟩
    rw [List.take_of_length_le (by rw [length_matching, hpage]; exact hfit x hx)]
    exact List.mem_filter.mpr ⟨helement, hasMatchingData_iff.mpr ⟨key, hkey.1, hmatch⟩⟩
  · rintro ⟨honce, hthere⟩ hall
    have hsound : ∀ x ∈ exchanges, ∀ s ∈ elements S.scanned x.2, wellFormed s = true ∧
        Ranges db S.scanned (utf8 s) ∧
          globMatches (utf8 (S.toRedisPattern options.wanted)) (utf8 s) = true := by
      intro x hx s hs
      rw [← (hsame x hx).1] at hs ⊢
      rw [← (hsame x hx).2]
      exact hserver.sound _ _ (hanswers x hx) s hs
    refine ⟨fun key hkey hmatch => ?_, fun x hx => ?_⟩
    · obtain ⟨x, hx, hs⟩ := (mem_listed_iff hrun hkey.1).mp (hall key hkey hmatch)
      obtain ⟨hwell, hrest⟩ := hsound x hx _ (List.mem_filter.mp (List.mem_of_mem_take hs)).1
      exact ⟨wellFormed_toRedisKey.mp hwell, hrest⟩
    · -- a key beyond the limit would be listed from another reply
      by_contra hlong
      rw [← length_matching, ← hpage, not_le] at hlong
      obtain ⟨s, hs⟩ : ∃ s, s ∈ (S.matching options x.2).drop options.pageLimit :=
        List.exists_mem_of_length_pos (by rw [List.length_drop]; omega)
      obtain ⟨helement, hmatching⟩ := List.mem_filter.mp (List.mem_of_mem_drop hs)
      obtain ⟨key, hkey, hmatch⟩ := hasMatchingData_iff.mp hmatching
      have hname := eq_of_dataOf hkey
      obtain ⟨hwell, hranges, -⟩ := hsound x hx s helement
      obtain ⟨y, hy, hlisted⟩ := (mem_listed_iff hrun (hname ▸ hkey)).mp
        (hall key ⟨hname ▸ hkey, hname ▸ hthere _ hranges⟩ hmatch)
      exact notMem_take_of_mem_drop honce hx hs hy (hname ▸ hlisted)

/-! ### A small index -/

/-- A store whose index has the keys of `a` and `b`. -/
def browsedStore : Store := { plainStore with useIndex := true }

def browsedMembers : List JsString :=
  [browsedStore.toRedisKey (str "a"), browsedStore.toRedisKey (str "b")]

def browsedDb : Keyspace := fun w =>
  if w = utf8 browsedStore.layout.indexKey then some (.sorted (browsedMembers.map utf8))
  else if w ∈ browsedMembers.map utf8 then some (.value []) else none

/-- A sorted set that is small enough comes as a whole, whatever `COUNT` is. -/
def wholeIndex : ScanReply where
  cursor := str "0"
  found := browsedMembers.flatMap fun member => [member, str "1"]

def answersWhole (request : ScanRequest) (reply : ScanReply) : Prop :=
  request.sortedSet = browsedStore.scanned ∧
    request.glob = browsedStore.toRedisPattern (str "*") ∧ reply = wholeIndex

theorem elements_wholeIndex : elements browsedStore.scanned wholeIndex = browsedMembers := rfl

theorem browsedDb_index :
    browsedDb (utf8 browsedStore.layout.indexKey) = some (.sorted (browsedMembers.map utf8)) :=
  if_pos rfl

theorem wellFormed_browsed {s : JsString} (hs : s ∈ browsedMembers) : wellFormed s = true := by
  revert s
  decide

theorem globMatches_browsed {s : JsString} (hs : s ∈ browsedMembers) :
    globMatches (utf8 (browsedStore.toRedisPattern (str "*"))) (utf8 s) = true := by
  have hkeys : ∀ key, wellFormed key = true →
      globMatches (utf8 (browsedStore.toRedisPattern (str "*")))
        (utf8 (browsedStore.toRedisKey key)) = true :=
    fun key hkey => Store.globMatches_toRedisKey hkey (by decide) (Store.matchesPattern_star key)
  rw [browsedMembers, List.mem_cons, List.mem_singleton] at hs
  rcases hs with rfl | rfl
  · exact hkeys (str "a") (by decide)
  · exact hkeys (str "b") (by decide)

theorem promises_browsedDb : Promises browsedDb answersWhole := by
  refine ⟨?_, ?_⟩
  · rintro request reply ⟨hset, hglob, rfl⟩ s hs
    rw [hset, elements_wholeIndex] at hs
    rw [hset, hglob]
    exact ⟨wellFormed_browsed hs, ⟨_, browsedDb_index, List.mem_map_of_mem hs⟩,
      globMatches_browsed hs⟩
  · intro sortedSet glob exchanges hchain hanswers s hwell hranges _
    cases exchanges with
    | nil => exact hchain.elim
    | cons x exchanges =>
      obtain ⟨⟨hset, -, hreply⟩, hsame, -⟩ := hanswers x List.mem_cons_self
      -- one reply has it all
      refine ⟨x, List.mem_cons_self, ?_⟩
      rw [← hsame, hset] at hranges ⊢
      rw [hreply, elements_wholeIndex]
      obtain ⟨members, hmembers, hmem⟩ := hranges
      rw [browsedDb_index] at hmembers
      cases hmembers
      obtain ⟨t, ht, heq⟩ := List.mem_map.mp hmem
      rwa [← utf8_inj (wellFormed_browsed ht) hwell heq]

theorem stored_browsed {key : JsString} (hkey : key = str "a" ∨ key = str "b") :
    browsedStore.Stored browsedDb key := by
  rcases hkey with rfl | rfl
  · exact ⟨by decide, by decide +kernel⟩
  · exact ⟨by decide, by decide +kernel⟩

theorem eq_of_stored {key : JsString} (h : browsedStore.Stored browsedDb key) :
    key = str "a" ∨ key = str "b" := by
  have hthere := h.2
  rw [browsedDb] at hthere
  split_ifs at hthere with hindex hmem
  · -- the index key does not begin like the key of an entry
    have hhead := congrArg List.head? hindex
    have hcache : (utf8 browsedStore.layout.indexKey).head? = some 99 := by decide
    rw [hcache, Store.toRedisKey, if_pos (by rfl), toRedisKey, utf8_tagged_append, octets_tagged,
      List.append_assoc] at hhead
    exact absurd (Option.some.inj hhead) (by decide)
  · rw [browsedMembers, List.map_cons, List.map_cons, List.map_nil, List.mem_cons,
      List.mem_singleton] at hmem
    have hinjective := Store.toRedisKey_injective (S := browsedStore) rfl
    exact hmem.imp (fun heq => hinjective heq) fun heq => hinjective heq
  · exact absurd rfl hthere

/-- With room for both keys, both are listed. -/
theorem listed_iff_both :
    let options : InspectOptions := { limit := some 2 }
    str "a" ∈ [browsedStore.inspect options wholeIndex 2].flatMap Inspection.keys ∧
      str "b" ∈ [browsedStore.inspect options wholeIndex 2].flatMap Inspection.keys := by
  intro options
  have hrun : browsedStore.Browsing options [(browsedStore.request options, wholeIndex)]
      [browsedStore.inspect options wholeIndex 2] := .last rfl
  have hfit : (elements browsedStore.scanned wholeIndex).countP
      (browsedStore.hasMatchingData options.wanted) ≤ 2 := by decide
  have hlisted := (listed_iff browsedStore options (.inl ⟨Nat.two_pos, rfl⟩) rfl
    promises_browsedDb hrun fun x hx => by
      rw [List.mem_singleton.mp hx]
      exact ⟨rfl, rfl, rfl⟩).1 ⟨fun key hkey hmatch => ?_, fun x hx => ?_⟩
  · have hall : ∀ key, matchesPattern key options.wanted = true := Store.matchesPattern_star
    exact ⟨hlisted _ (stored_browsed (.inl rfl)) (hall _), hlisted _ (stored_browsed (.inr rfl))
      (hall _)⟩
  · have hmem : browsedStore.toRedisKey key ∈ browsedMembers := by
      rcases eq_of_stored hkey with rfl | rfl
      · exact List.mem_cons_self
      · exact List.mem_cons_of_mem _ List.mem_cons_self
    exact (Store.returns_iff (by decide) hkey hmatch).mpr
      ⟨Store.wellFormed_toRedisKey.mp (wellFormed_browsed hmem),
        fun _ => ⟨_, browsedDb_index, List.mem_map_of_mem hmem⟩⟩
  · rwa [List.mem_singleton.mp hx]

/-- With room for one, the other is cut off, and there is no cursor to follow. -/
theorem small_page_loses_key :
    let options : InspectOptions := { limit := some 1 }
    let exchanges := [(browsedStore.request options, wholeIndex)]
    let pages := [browsedStore.inspect options wholeIndex 2]
    Promises browsedDb answersWhole ∧ (∀ x ∈ exchanges, answersWhole x.1 x.2) ∧
      browsedStore.Browsing options exchanges pages ∧
      browsedStore.Stored browsedDb (str "b") ∧ matchesPattern (str "b") options.wanted = true ∧
      str "b" ∉ pages.flatMap Inspection.keys := by
  intro options exchanges pages
  refine ⟨promises_browsedDb, ?_, .last rfl, stored_browsed (.inr rfl), by decide,
    by decide⟩
  intro x hx
  rw [List.mem_singleton.mp hx]
  exact ⟨rfl, rfl, rfl⟩

end RedisStore
