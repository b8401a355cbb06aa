/-
Deletion by pattern in an edge worker.

The memory of a worker stores an entry under the prefix of its cache and its key, and matches
these names against the prefix and the pattern.  The key-value store matches the keys alone,
behind the literal beginning of the pattern that the namespace filters by.  The two agree as
long as the prefix is text: a prefix with an asterisk is a pattern itself, and a bare `*`,
which matches every key, is no bare `*` behind a prefix.

* `matchesPattern_prefix_iff` — for which prefixes and patterns the two tests agree;
* `deletes_exactly_iff` — for which the memory loses exactly the entries that match;
* `KvStore.deleteByPattern` — the deletion in the namespace, page by page;
* `KvStore.mem_deleted_iff` — what it deletes if it comes to the end;
* `worker_patterns_iff` — the two together.
-/
import Mathlib.Data.List.TakeWhile
import LazyLayers.PatternSpec
import LazyLayers.WildcardHeads
import LazyLayers.WorkerCache

open Js Pattern Wildcards

namespace Pattern

/-! ### Names and patterns behind a prefix -/

theorem plain_asterisk : Plain asterisk := rfl

/-- A value begins with the literal beginning of the pattern. -/
theorem literal_head {value pattern : JsString} (h : matchesPattern value pattern = true) :
    pattern.takeWhile (· ≠ asterisk) <+: value := by
  rcases eq_or_fits_of_matchesPattern h with rfl | hfits
  · exact List.nil_prefix
  · have hstar : asterisk ∉ pattern.takeWhile (· ≠ asterisk) := by
      intro hmem
      simpa using List.mem_takeWhile_imp hmem
    rw [Fits, ← List.takeWhile_append_dropWhile (p := (· ≠ asterisk)) (l := pattern)] at hfits
    obtain ⟨rest, rfl, -⟩ := (matches_append_iff hstar).mp hfits
    exact List.prefix_append _ _

/-- **Which prefixes can be left out.**  Matching keys behind a prefix against the pattern
behind the same prefix is matching the keys against the pattern if and only if the prefix is
empty or the pattern is no bare `*` and either the prefix has no asterisk, or the pattern
begins with one, or the prefix has a line terminator behind its last one. -/
theorem matchesPattern_prefix_iff (storePrefix pattern : JsString) :
    (∀ key, matchesPattern (storePrefix ++ key) (storePrefix ++ pattern) =
      matchesPattern key pattern) ↔
    storePrefix = [] ∨ pattern ≠ [asterisk] ∧ (asterisk ∉ storePrefix ∨
      pattern.head? = some asterisk ∨
        ∃ u ∈ behindLast asterisk storePrefix, isLineTerminator u = true) := by
  have hheads := @matches_append_forall_iff _ asterisk Plain storePrefix pattern _ plain_asterisk
  have hmark : (∃ u ∈ behindLast asterisk storePrefix, ¬ Plain u) ↔
      ∃ u ∈ behindLast asterisk storePrefix, isLineTerminator u = true := by
    simp only [Plain, Bool.not_eq_false]
  rw [hmark] at hheads
  rw [← hheads]
  by_cases hnil : storePrefix = []
  · rw [hnil]
    simp
  rw [or_iff_right hnil]
  constructor
  · intro h
    have hlone : pattern ≠ [asterisk] := by
      rintro rfl
      -- a line feed matches a bare `*`, but not behind the prefix
      have hfeed := h [10]
      rw [matchesPattern_asterisk, matchesPattern_of_ne (by simpa using hnil)] at hfeed
      obtain ⟨gap, rest, heq, hgap, hrest⟩ :=
        matches_star_iff.mp ((matches_append_star_iff plain_asterisk).mp hfeed)
      rw [matches_nil_iff.mp hrest, List.append_nil] at heq
      have hplain := hgap 10 (by rw [← heq]; exact List.mem_singleton_self 10)
      cases hplain
    refine ⟨hlone, fun key => ⟨fun hfits => ?_, fun hfits => ?_⟩⟩
    · have hbehind : matchesPattern (storePrefix ++ key) (storePrefix ++ pattern) = true :=
        matchesPattern_of_fits hfits
      rwa [h key, matchesPattern_of_ne hlone] at hbehind
    · exact Matches.append_head plain_asterisk storePrefix hfits
  · rintro ⟨hlone, h⟩ key
    have hlone' : storePrefix ++ pattern ≠ [asterisk] := by
      intro heq
      -- then the prefix is the asterisk, and the empty pattern is one behind it
      have hlen := congrArg List.length heq
      have hpos := List.length_pos_iff.mpr hnil
      rw [List.length_append, List.length_singleton] at hlen
      obtain rfl : pattern = [] := List.length_eq_zero_iff.mp (by omega)
      rw [List.append_nil] at heq
      have hempty := (h [asterisk]).mp (by
        rw [heq, List.append_nil]
        exact @Matches.run _ asterisk Plain [asterisk, asterisk] [] []
          (by simp [plain_asterisk]) .nil)
      cases matches_nil_iff.mp hempty
    rw [Bool.eq_iff_iff, matchesPattern_of_ne hlone, matchesPattern_of_ne hlone']
    exact h key

/-- A prefix without an asterisk is a tag: what matches behind it begins with it. -/
theorem matchesPattern_prefix_exact {storePrefix pattern : JsString}
    (htag : asterisk ∉ storePrefix) (hlone : storePrefix = [] ∨ pattern ≠ [asterisk])
    (name : JsString) : matchesPattern name (storePrefix ++ pattern) = true ↔
      ∃ key, name = storePrefix ++ key ∧ matchesPattern key pattern = true := by
  rcases hlone with rfl | hlone
  · simp
  by_cases hnil : storePrefix = []
  · rw [hnil]
    simp
  have hlone' : storePrefix ++ pattern ≠ [asterisk] := by
    intro heq
    have hmem : storePrefix ⊆ [asterisk] := by
      rw [← heq]
      exact List.subset_append_left _ _
    obtain ⟨u, hu⟩ := List.exists_mem_of_ne_nil _ hnil
    exact htag (List.mem_singleton.mp (hmem hu) ▸ hu)
  rw [matchesPattern_of_ne hlone', Fits, matches_append_iff htag]
  simp only [matchesPattern_of_ne hlone]
  rfl

end Pattern

namespace WorkerCache

variable {V : Type} (cfg : Config V)

/-- A name of the cache whose key matches. -/
def Wanted (pattern name : JsString) : Prop :=
  ∃ key, name = localKey cfg key ∧ matchesPattern key pattern = true

/-! ### The memory -/

theorem has_deletePatternL1 (s : State V) (pattern name : JsString) :
    ((Act.deletePatternL1 pattern).apply cfg s).l1.entries.has name =
      (s.l1.entries.has name && !matchesPattern name (localKey cfg pattern)) := by
  show JsMap.has (List.filter (fun e => !matchesPattern e.1 _) _) name = _
  rw [JsMap.has, JsMap.get_filter _ fun n => !matchesPattern n (localKey cfg pattern), JsMap.has]
  split_ifs with h
  · rw [h, Bool.and_true]
  · rw [Bool.eq_false_iff.mpr h, Bool.and_false]
    rfl

/-- The memory loses exactly the entries of the cache that match, whatever else it holds. -/
def DeletesExactly (pattern : JsString) : Prop :=
  ∀ (s : State V) (name : JsString), s.l1.entries.has name = true →
    (((Act.deletePatternL1 pattern).apply cfg s).l1.entries.has name = false ↔
      Wanted cfg pattern name)

theorem deletesExactly_iff (value : V) (pattern : JsString) : DeletesExactly cfg pattern ↔
    ∀ name, matchesPattern name (localKey cfg pattern) = true ↔ Wanted cfg pattern name := by
  have hgone : ∀ (s : State V) name, s.l1.entries.has name = true →
      (((Act.deletePatternL1 pattern).apply cfg s).l1.entries.has name = false ↔
        matchesPattern name (localKey cfg pattern) = true) := by
    intro s name hname
    rw [has_deletePatternL1, hname, Bool.true_and, Bool.not_eq_false']
  constructor
  · intro h name
    -- a memory that holds just this name
    have hone : ({ l1 := ⟨1, [(name, ⟨value, 0⟩)]⟩ } : State V).l1.entries.has name = true := by
      simp [JsMap.has, JsMap.get_cons]
    rw [← hgone _ name hone]
    exact h _ name hone
  · intro h s name hname
    rw [hgone s name hname]
    exact h name

/-- **Exact deletions in the memory.** -/
theorem deletes_exactly_iff (value : V) (pattern : JsString) :
    ((∀ key, matchesPattern (localKey cfg key) (localKey cfg pattern) =
      matchesPattern key pattern) ∧ DeletesExactly cfg pattern) ↔
    asterisk ∉ cfg.storePrefix ∧ (cfg.storePrefix = [] ∨ pattern ≠ [asterisk]) := by
  rw [deletesExactly_iff cfg value]
  constructor
  · rintro ⟨hagree, hexact⟩
    refine ⟨fun hmem => ?_, ?_⟩
    · -- another cache's name fits the asterisk in the prefix
      obtain ⟨name, hname, hforeign⟩ := exists_foreign plain_asterisk hmem
        (show (120 : UInt16) ≠ asterisk by decide) (show Plain 120 from rfl) pattern
      obtain ⟨key, rfl, -⟩ := (hexact name).mp (matchesPattern_of_fits hname)
      exact hforeign (List.prefix_append _ _)
    · exact ((matchesPattern_prefix_iff _ _).mp hagree).imp_right And.left
  · rintro ⟨htag, hlone⟩
    refine ⟨(matchesPattern_prefix_iff _ _).mpr ?_,
      matchesPattern_prefix_exact htag hlone⟩
    exact hlone.imp_right fun h => ⟨h, .inl htag⟩

/-! ### The key-value store -/

/-- `namespace.list(options)` -/
structure ListRequest where
  listPrefix : JsString
  cursor : Option JsString
  limit : ℕ

structure KvPage where
  keys : List JsString
  listComplete : Bool
  cursor : Option JsString

inductive KvError
  /-- `Cloudflare KV key exceeds 512 bytes` -/
  | keyTooLong
  /-- `Cloudflare KV pattern scan exceeded … keys` -/
  | scanExceeded
  /-- `Cloudflare KV list did not advance its cursor` -/
  | cursorStuck
  deriving DecidableEq

/-- `maxPatternScanKeys`, with the bounds of the constructor. -/
structure KvLimit where
  maxKeys : ℕ := 400
  bounds : 1 ≤ maxKeys ∧ maxKeys ≤ 900 := by decide

/-- The test of the names of a page. -/
def isWanted (pattern name : JsString) : Bool :=
  cfg.storePrefix.isPrefixOf name && matchesPattern (name.drop cfg.storePrefix.length) pattern

/-- The loop of `deleteByPattern` over the pages of the namespace, with what it asks for and
the names that it is going to delete; no outcome as long as pages are to come. -/
def collect (limit : KvLimit) (pattern : JsString) : List KvPage → ℕ → Option JsString →
    List (ListRequest × KvPage) × Option (Except KvError (List JsString))
  | [], _, _ => ([], none)
  | page :: pages, scanned, cursor =>
    let request : ListRequest :=
      { listPrefix := cfg.storePrefix ++ pattern.takeWhile (· ≠ asterisk)
        cursor := cursor
        limit := min 1000 (limit.maxKeys - scanned + 1) }
    let scanned := scanned + page.keys.length
    let names := page.keys.filter (isWanted cfg pattern)
    if limit.maxKeys < scanned ∨ (page.listComplete = false ∧ limit.maxKeys ≤ scanned) then
      ([(request, page)], some (.error .scanExceeded))
    else if page.listComplete then ([(request, page)], some (.ok names))
    else if page.cursor = none ∨ page.cursor = some [] ∨ page.cursor = cursor then
      ([(request, page)], some (.error .cursorStuck))
    else
      let rest := collect limit pattern pages scanned page.cursor
      ((request, page) :: rest.1, rest.2.map (·.map (names ++ ·)))

/-- `this.l2.deleteByPattern(pattern)`: the names that are deleted. -/
def kvDeleteByPattern (limit : KvLimit) (pattern : JsString) (pages : List KvPage) :
    List (ListRequest × KvPage) × Option (Except KvError (List JsString)) :=
  if asterisk ∈ pattern then collect cfg limit pattern pages 0 none
  else if 512 < (utf8 (localKey cfg pattern)).length then ([], some (.error .keyTooLong))
  else ([], some (.ok [localKey cfg pattern]))

/-- Every request carries the cursor of the page before it, and the last page is complete. -/
def Chained : Option JsString → List (ListRequest × KvPage) → Prop
  | _, [] => False
  | cursor, [(request, page)] => request.cursor = cursor ∧ page.listComplete = true
  | cursor, (request, page) :: exchanges =>
    request.cursor = cursor ∧ Chained page.cursor exchanges

/-- A namespace that does not change: an iteration to its last page has every name with the
prefix asked for on some page. -/
structure KvNamespace where
  holds : JsString → Prop
  answers : ListRequest → KvPage → Prop
  complete : ∀ listPrefix exchanges, Chained none exchanges →
    (∀ x ∈ exchanges, answers x.1 x.2 ∧ x.1.listPrefix = listPrefix) →
      ∀ name, holds name → listPrefix <+: name → ∃ x ∈ exchanges, name ∈ x.2.keys

theorem isWanted_iff {pattern name : JsString} :
    isWanted cfg pattern name = true ↔ Wanted cfg pattern name := by
  rw [isWanted, Bool.and_eq_true, List.isPrefixOf_iff_prefix]
  constructor
  · rintro ⟨⟨key, rfl⟩, hmatch⟩
    rw [List.drop_left] at hmatch
    exact ⟨key, rfl, hmatch⟩
  · rintro ⟨key, rfl, hmatch⟩
    rw [localKey, List.drop_left]
    exact ⟨List.prefix_append _ _, hmatch⟩

/-- A loop that comes to the end has asked for one iteration, and it deletes what is wanted
of its pages. -/
theorem collect_ok {limit : KvLimit} {pattern : JsString} {pages : List KvPage} {scanned : ℕ}
    {cursor : Option JsString} {exchanges : List (ListRequest × KvPage)} {names : List JsString}
    (h : collect cfg limit pattern pages scanned cursor = (exchanges, some (.ok names))) :
    Chained cursor exchanges ∧
      (∀ x ∈ exchanges,
        x.1.listPrefix = cfg.storePrefix ++ pattern.takeWhile (· ≠ asterisk)) ∧
      ∀ name, name ∈ names ↔ Wanted cfg pattern name ∧ ∃ x ∈ exchanges, name ∈ x.2.keys := by
  induction pages generalizing scanned cursor exchanges names with
  | nil => cases h
  | cons page pages ih =>
    rw [collect] at h
    dsimp only at h
    split_ifs at h with hmany hcomplete hstuck
    · cases h
    · cases h
      refine ⟨⟨rfl, hcomplete⟩, by simp, fun name => ?_⟩
      rw [List.mem_filter, isWanted_iff, and_comm]
      simp
    · cases h
    · generalize hrest : collect cfg limit pattern pages _ page.cursor = rest at h
      obtain ⟨exchanges', result⟩ := rest
      obtain ⟨rfl, hresult⟩ := Prod.mk.inj h
      obtain ⟨outcome, rfl, houtcome⟩ := Option.map_eq_some_iff.mp hresult
      cases outcome with
      | error _ => cases houtcome
      | ok names' =>
        obtain ⟨hchain, hsame, hnames⟩ := ih hrest
        cases houtcome
        refine ⟨?_, ?_, fun name => ?_⟩
        · cases exchanges' with
          | nil => cases hchain
          | cons x exchanges' => exact ⟨rfl, hchain⟩
        · intro x hx
          rcases List.mem_cons.mp hx with rfl | hx
          · rfl
          · exact hsame x hx
        · rw [List.mem_append, hnames, List.mem_filter, isWanted_iff, List.exists_mem_cons_iff]
          tauto

/-- **Deletions in the namespace.**  If the store comes to the end, it has deleted the entries
of the cache whose keys match, and nothing else. -/
theorem mem_deleted_iff {limit : KvLimit} {pattern : JsString} {pages : List KvPage}
    {exchanges : List (ListRequest × KvPage)} {names : List JsString} (ns : KvNamespace)
    (h : kvDeleteByPattern cfg limit pattern pages = (exchanges, some (.ok names)))
    (hanswers : ∀ x ∈ exchanges, ns.answers x.1 x.2) {name : JsString} (hname : ns.holds name) :
    name ∈ names ↔ Wanted cfg pattern name := by
  rw [kvDeleteByPattern] at h
  split_ifs at h with hstar hlong
  · obtain ⟨hchain, hsame, hnames⟩ := collect_ok cfg h
    rw [hnames]
    refine and_iff_left_of_imp ?_
    rintro ⟨key, rfl, hmatch⟩
    refine ns.complete _ exchanges hchain (fun x hx => ⟨hanswers x hx, hsame x hx⟩) _ hname ?_
    exact (List.prefix_append_right_inj _).mpr (literal_head hmatch)
  · cases h
  · cases h
    have hlone : pattern ≠ [asterisk] := by
      rintro rfl
      exact hstar List.mem_cons_self
    rw [List.mem_singleton]
    constructor
    · rintro rfl
      refine ⟨pattern, rfl, ?_⟩
      rw [matchesPattern_of_ne hlone]
      exact (matches_of_not_mem hstar).mpr rfl
    · rintro ⟨key, rfl, hmatch⟩
      rw [matchesPattern_of_ne hlone] at hmatch
      rw [(matches_of_not_mem hstar).mp hmatch]

/-- **Patterns in an edge worker.**  For which prefixes and patterns the test of the names
agrees with the test of the keys, and for which the memory also spares what is not the
cache's own.  The namespace loses exactly the matching entries of the cache whenever its
deletion comes to the end. -/
theorem worker_patterns_iff (value : V) (pattern : JsString) :
    ((∀ key, matchesPattern (localKey cfg key) (localKey cfg pattern) =
      matchesPattern key pattern) ↔
        cfg.storePrefix = [] ∨ pattern ≠ [asterisk] ∧ (asterisk ∉ cfg.storePrefix ∨
          pattern.head? = some asterisk ∨
            ∃ u ∈ behindLast asterisk cfg.storePrefix, isLineTerminator u = true)) ∧
    (((∀ key, matchesPattern (localKey cfg key) (localKey cfg pattern) =
      matchesPattern key pattern) ∧ DeletesExactly cfg pattern) ↔
        asterisk ∉ cfg.storePrefix ∧ (cfg.storePrefix = [] ∨ pattern ≠ [asterisk])) ∧
    ∀ (ns : KvNamespace) (limit : KvLimit) (pages : List KvPage)
      (exchanges : List (ListRequest × KvPage)) (names : List JsString),
      kvDeleteByPattern cfg limit pattern pages = (exchanges, some (.ok names)) →
      (∀ x ∈ exchanges, ns.answers x.1 x.2) →
        ∀ name, ns.holds name → (name ∈ names ↔ Wanted cfg pattern name) := by
  refine ⟨matchesPattern_prefix_iff _ _, deletes_exactly_iff cfg value pattern, ?_⟩
  intro ns limit pages exchanges names h hanswers name hname
  exact mem_deleted_iff cfg ns h hanswers hname

/-! ### One page -/

def defaultConfig : Config Unit := {}

def onePage (key : JsString) : KvPage where
  keys := [localKey defaultConfig key]
  listComplete := true
  cursor := none

/-- A namespace with one name. -/
def oneName (key : JsString) : KvNamespace where
  holds name := name = localKey defaultConfig key
  answers _ page := page = onePage key
  complete := by
    rintro listPrefix exchanges hchain hanswers name rfl -
    cases exchanges with
    | nil => exact hchain.elim
    | cons x exchanges =>
      refine ⟨x, List.mem_cons_self, ?_⟩
      rw [(hanswers x List.mem_cons_self).1]
      exact List.mem_cons_self

/-- A pattern with a literal beginning, and an entry that it deletes. -/
theorem worker_patterns_iff_literal :
    matchesPattern (localKey defaultConfig (str "ab")) (localKey defaultConfig (str "a*")) =
      matchesPattern (str "ab") (str "a*") ∧
    Wanted defaultConfig (str "a*") (localKey defaultConfig (str "ab")) := by
  have h := worker_patterns_iff defaultConfig () (str "a*")
  refine ⟨h.1.mpr (.inr ⟨by decide, .inl (by decide)⟩) (str "ab"), ?_⟩
  have hrun : kvDeleteByPattern defaultConfig {} (str "a*") [onePage (str "ab")] =
      ([(⟨str "cache:a", none, 401⟩, onePage (str "ab"))],
        some (.ok [localKey defaultConfig (str "ab")])) := by
    with_unfolding_all rfl
  refine (h.2.2 (oneName (str "ab")) _ _ _ _ hrun (fun x hx => ?_) _ rfl).mp
    List.mem_cons_self
  rw [List.mem_singleton.mp hx]
  rfl

/-- `clear()` with a line feed in a key: the namespace loses the entry and the memory keeps
it. -/
theorem clear_keeps_line :
    let key := str "a\nb"
    let s : State Unit := { l1 := ⟨1000, [(localKey defaultConfig key, ⟨(), 10000⟩)]⟩ }
    matchesPattern key (str "*") = true ∧
      matchesPattern (localKey defaultConfig key) (localKey defaultConfig (str "*")) = false ∧
      (kvDeleteByPattern defaultConfig {} (str "*") [onePage key]).2 =
        some (.ok [localKey defaultConfig key]) ∧
      ((Act.deletePatternL1 (str "*")).apply defaultConfig s).l1.entries.has
        (localKey defaultConfig key) = true := by
  intro key s
  refine ⟨by decide +kernel, by decide +kernel, by with_unfolding_all rfl, ?_⟩
  rw [has_deletePatternL1]
  decide +kernel

end WorkerCache
