/-
What `matchesPattern` decides.

`Fits value pattern` is the specification: the value matches the pattern anchored
at both ends, every unit other than the asterisk matching itself and every
asterisk a run of units without a line terminator.  `matchesPattern` decides it,
and in addition lets a pattern that is a lone asterisk match everything.

The proof follows the code from the inside out:

* `extend_spec`, `failureTable_spec` — the Knuth-Morris-Pratt automaton keeps the
  longest beginning of the literal that ends the text read so far;
* `findLiteral_spec` — hence the search finds the leftmost occurrence;
* `matchMiddle_spec` — and placing the pieces at their leftmost occurrences
  decides whether they can be placed at all (`gaps_cons_iff_of_isLeast`).
-/
import LazyLayers.Pattern
import LazyLayers.Wildcards

open Js Wildcards

namespace Pattern

/-! ### The search for a literal -/

section Automaton

variable {literal w : JsString} {failure : List ℕ} {matched : ℕ}

/-- The first `n` entries of a table are the longest proper borders of the literal's
beginnings. -/
def TableTo (literal : JsString) (failure : List ℕ) (n : ℕ) : Prop :=
  ∀ k < n, IsGreatest (ends literal ((literal.drop 1).take k)) (failure.getD k 0)

theorem TableTo.mono {m n : ℕ} (h : TableTo literal failure n) (hmn : m ≤ n) :
    TableTo literal failure m :=
  fun k hk => h k (by omega)

/-- Falling back ends at the longest beginning that `unit` continues, if there is one. -/
theorem fallback_spec (unit : UInt16) {rounds : ℕ} (htable : TableTo literal failure matched)
    (hrounds : matched ≤ rounds) (hmem : matched ∈ ends literal w)
    (hmax : ∀ n ∈ ends literal w, literal[n]? = some unit → n ≤ matched) :
    fallback literal failure unit rounds matched ∈ ends literal w ∧
      (∀ n ∈ ends literal w, literal[n]? = some unit →
        n ≤ fallback literal failure unit rounds matched) ∧
      (fallback literal failure unit rounds matched = 0 ∨
        literal[fallback literal failure unit rounds matched]? = some unit) := by
  induction rounds generalizing matched with
  | zero =>
    obtain rfl : matched = 0 := by omega
    exact ⟨hmem, hmax, .inl rfl⟩
  | succ rounds ih =>
    rw [fallback]
    split
    · next hfall =>
      obtain ⟨hpos, hne⟩ := hfall
      have hnext := htable (matched - 1) (by omega)
      have hlt : failure.getD (matched - 1) 0 < matched := by
        have hle := length_le_of_mem_ends hnext.1
        rw [List.length_take] at hle
        omega
      refine ih (htable.mono hlt.le) (by omega) ((mem_ends_of_lt hmem hlt).mpr hnext.1) ?_
      intro n hn hunit
      have hn' : n < matched := by
        have hle := hmax n hn hunit
        have : n ≠ matched := fun h => hne (h ▸ hunit)
        omega
      exact hnext.2 ((mem_ends_of_lt hmem hn').mp hn)
    · next hstay =>
      refine ⟨hmem, hmax, ?_⟩
      by_contra hno
      rw [not_or] at hno
      exact hstay ⟨Nat.pos_of_ne_zero hno.1, hno.2⟩

/-- One unit of text keeps the automaton at the longest beginning. -/
theorem extend_spec (unit : UInt16) (htable : TableTo literal failure matched)
    (hgreatest : IsGreatest (ends literal w) matched) :
    IsGreatest (ends literal (w ++ [unit])) (extend literal failure matched unit) := by
  obtain ⟨hmem, hmax, hfits⟩ := fallback_spec unit htable le_rfl hgreatest.1
    fun n hn _ => hgreatest.2 hn
  rw [extend]
  generalize fallback literal failure unit matched matched = k at hmem hmax hfits
  split
  · next hunit =>
    refine ⟨mem_ends_concat.mpr ⟨hmem, hunit⟩, ?_⟩
    intro n hn
    cases n with
    | zero => exact Nat.zero_le _
    | succ n =>
      obtain ⟨hn, hunit⟩ := mem_ends_concat.mp hn
      exact Nat.succ_le_succ (hmax n hn hunit)
  · next hno =>
    obtain rfl : k = 0 := hfits.resolve_right hno
    refine ⟨zero_mem_ends _ _, ?_⟩
    intro n hn
    cases n with
    | zero => exact le_rfl
    | succ n =>
      obtain ⟨hn, hunit⟩ := mem_ends_concat.mp hn
      obtain rfl : n = 0 := Nat.le_zero.mp (hmax n hn hunit)
      exact absurd hunit hno

/-- The loop that builds the table, from the units `past` it has already seen. -/
theorem foldl_table {past : JsString} : ∀ {rest : JsString} {failure : List ℕ},
    literal.drop 1 = past ++ rest → failure.length = past.length + 1 →
    TableTo literal failure failure.length →
    let table := rest.foldl (fun failure unit =>
      failure ++ [extend literal failure (failure.getLast?.getD 0) unit]) failure
    table.length = (literal.drop 1).length + 1 ∧ TableTo literal table table.length := by
  intro rest
  induction rest generalizing past with
  | nil =>
    intro failure hpast hlen htable
    rw [List.append_nil] at hpast
    exact ⟨by rw [hpast]; exact hlen, htable⟩
  | cons unit rest ih =>
    intro failure hpast hlen htable
    -- the last entry is where the automaton stands after reading `past`
    have hlast : failure.getLast?.getD 0 = failure.getD past.length 0 := by
      rw [List.getLast?_eq_getElem?, hlen, List.getD_eq_getElem?_getD, Nat.add_sub_cancel]
    have hpast' : (literal.drop 1).take past.length = past := by rw [hpast, List.take_left]
    have hstand : IsGreatest (ends literal past) (failure.getLast?.getD 0) := by
      have h := htable past.length (by omega)
      rw [hpast'] at h
      rw [hlast]
      exact h
    have hle := length_le_of_mem_ends hstand.1
    have hnew := extend_spec unit (htable.mono (by omega)) hstand
    refine @ih (past ++ [unit]) _ ?_ ?_ ?_
    · rw [hpast, List.append_assoc, List.singleton_append]
    · rw [List.length_append, List.length_append, hlen]
      rfl
    · intro k hk
      rw [List.length_append, List.length_singleton] at hk
      rw [List.getD_eq_getElem?_getD]
      rcases Nat.lt_or_ge k failure.length with hlt | hge
      · rw [List.getElem?_append_left hlt, ← List.getD_eq_getElem?_getD]
        exact htable k hlt
      · obtain rfl : k = failure.length := by omega
        have htake : (literal.drop 1).take failure.length = past ++ [unit] := by
          have hcons : past ++ unit :: rest = (past ++ [unit]) ++ rest := by simp
          rw [hpast, hcons, List.take_left']
          rw [List.length_append, List.length_singleton, hlen]
        rw [htake, List.getElem?_append_right le_rfl, Nat.sub_self]
        exact hnew

theorem failureTable_spec (literal : JsString) :
    TableTo literal (failureTable literal) literal.length := by
  have hstart : TableTo literal [0] 1 := by
    intro k hk
    obtain rfl : k = 0 := by omega
    exact isGreatest_ends_nil literal
  obtain ⟨hlen, htable⟩ := @foldl_table literal [] (literal.drop 1) [0] rfl rfl hstart
  refine htable.mono ?_
  rw [hlen, List.length_drop]
  omega

/-- The scan over `rest`, when `w` has been read and holds no occurrence. -/
theorem scan_spec {start : ℕ} (hne : literal ≠ [])
    (htable : TableTo literal failure literal.length) : ∀ {rest w : JsString} {matched : ℕ},
    IsGreatest (ends literal w) matched → occurrences literal w = ∅ →
    match scan literal failure rest (start + w.length) matched with
    | none => occurrences literal (w ++ rest) = ∅
    | some found => ∃ i, found = start + i ∧ IsLeast (occurrences literal (w ++ rest)) i := by
  intro rest
  induction rest with
  | nil =>
    intro w matched _ hnone
    rw [scan, List.append_nil]
    exact hnone
  | cons unit rest ih =>
    intro w matched hgreatest hnone
    have hnext := extend_spec unit (htable.mono hgreatest.1.1) hgreatest
    have hcons : w ++ unit :: rest = (w ++ [unit]) ++ rest := by simp
    have hlen : (w ++ [unit]).length = w.length + 1 := by simp
    by_cases hfull : extend literal failure matched unit = literal.length
    · rw [scan, if_pos hfull]
      -- the whole literal has just ended, and nothing shorter of the text holds it
      have hsuffix : literal <:+ w ++ [unit] := by
        rw [hfull] at hnext
        exact length_mem_ends_iff.mp hnext.1
      have hmem := mem_occurrences_of_suffix hsuffix
      have hfits := hsuffix.length_le
      rw [hlen] at hmem hfits
      refine ⟨w.length + 1 - literal.length, by omega, ?_, ?_⟩
      · rw [hcons]
        exact mem_occurrences_append hmem rest
      · intro i hi
        by_contra hlt
        have hearly : i ∈ occurrences literal w := mem_occurrences_of_append (by omega) hi
        rw [hnone] at hearly
        exact hearly
    · rw [scan, if_neg hfull]
      have hnone' : occurrences literal (w ++ [unit]) = ∅ := by
        rw [Set.eq_empty_iff_forall_notMem]
        intro i hi
        have hle := le_of_mem_occurrences hne hi
        rw [hlen] at hle
        rcases eq_or_lt_of_le hle with heq | hlt
        · have hsuffix := suffix_of_mem_occurrences (by omega) hi
          have hge := hnext.2 (length_mem_ends_iff.mpr hsuffix)
          have hle := hnext.1.1
          omega
        · have hearly : i ∈ occurrences literal w := mem_occurrences_of_append (by omega) hi
          rw [hnone] at hearly
          exact hearly
      have h := ih hnext hnone'
      rw [hlen, ← Nat.add_assoc] at h
      rw [hcons]
      exact h

end Automaton

/-- The search finds the leftmost occurrence of a literal in its window. -/
theorem findLiteral_spec (value : JsString) {literal : JsString} (hne : literal ≠ []) (start stop : ℕ) :
    match findLiteral value literal start stop with
    | none => occurrences literal ((value.drop start).take (stop - start)) = ∅
    | some found => ∃ i, found = start + i ∧
        IsLeast (occurrences literal ((value.drop start).take (stop - start))) i := by
  have hnone : occurrences literal [] = ∅ := by
    rw [Set.eq_empty_iff_forall_notMem]
    intro i hi
    have hle := le_of_mem_occurrences hne hi
    have hpos := List.length_pos_iff.mpr hne
    rw [List.length_nil] at hle
    omega
  exact @scan_spec literal (failureTable literal) start hne (failureTable_spec literal) _ [] 0
    (isGreatest_ends_nil literal) hnone

/-! ### The pieces between the anchored ones -/

/-- A unit that an asterisk may stand for. -/
def Plain (unit : UInt16) : Prop := isLineTerminator unit = false

theorem hasLineTerminator_eq_false_iff (value : JsString) (start stop : ℕ) :
    hasLineTerminator value start stop = false ↔
      ∀ u ∈ (value.drop start).take (stop - start), Plain u := by
  rw [hasLineTerminator, List.any_eq_false]
  constructor
  · intro h u hu
    exact Bool.eq_false_iff.mpr (h u hu)
  · intro h u hu
    exact Bool.eq_false_iff.mp (h u hu)

/-- The loop over the pieces, with the test of the last gap that follows it. -/
theorem matchMiddle_spec {value : JsString} {stop : ℕ} (hstop : stop ≤ value.length) :
    ∀ {parts : List JsString} {position : ℕ}, position ≤ stop →
    ((∃ final, matchMiddle value stop parts position = some final ∧
      hasLineTerminator value final stop = false) ↔
        Gaps Plain parts ((value.drop position).take (stop - position))) := by
  intro parts
  induction parts with
  | nil =>
    intro position _
    show (∃ final, some position = some final ∧ _) ↔ ∀ u ∈ _, Plain u
    rw [← hasLineTerminator_eq_false_iff]
    constructor
    · rintro ⟨final, hfinal, h⟩
      rw [Option.some.inj hfinal]
      exact h
    · intro h
      exact ⟨position, rfl, h⟩
  | cons literal parts ih =>
    intro position hposition
    rw [matchMiddle]
    split
    · next hnil =>
      rw [hnil, gaps_nil_cons_iff]
      exact ih hposition
    next hne =>
    have hfind := findLiteral_spec value hne position stop
    cases hfound : findLiteral value literal position stop with
    | none =>
      rw [hfound] at hfind
      constructor
      · rintro ⟨final, hfinal, -⟩
        cases hfinal
      · intro h
        exact absurd h (not_gaps_cons hfind)
    | some found =>
      rw [hfound] at hfind
      obtain ⟨i, rfl, hleast⟩ := hfind
      -- the window behind the occurrence is what the next round looks at
      have hfits := le_of_mem_occurrences hne hleast.1
      rw [List.length_take, List.length_drop] at hfits
      have hgap : ((value.drop position).take (stop - position)).take i =
          (value.drop position).take (position + i - position) := by
        rw [List.take_take]
        congr 1
        omega
      have hrest : ((value.drop position).take (stop - position)).drop (i + literal.length) =
          (value.drop (position + i + literal.length)).take
            (stop - (position + i + literal.length)) := by
        rw [List.drop_take, List.drop_drop]
        congr 1
        · omega
        · congr 1
          omega
      rw [gaps_cons_iff_of_isLeast hleast, hgap, hrest, ← hasLineTerminator_eq_false_iff,
        ← ih (by omega)]
      dsimp only
      cases hasLineTerminator value position (position + i) with
      | true => simp
      | false => simp

/-! ### The specification -/

/-- The value matches the pattern, anchored at both ends. -/
def Fits (value pattern : JsString) : Prop := Matches asterisk Plain value pattern

/-- With an asterisk in the pattern, the anchored ends and the loop decide the match. -/
theorem matchesPattern_of_mem {value pattern : JsString} (hstar : asterisk ∈ pattern)
    (hne : pattern ≠ [asterisk]) : matchesPattern value pattern = true ↔ Fits value pattern := by
  obtain ⟨first, parts, hsplit, hpattern, hfirst, hparts, hnil⟩ := splitOn_spec asterisk pattern
  have hpos : parts ≠ [] := fun h => hnil.mp h hstar
  obtain ⟨middle, last, rfl⟩ : ∃ middle last, parts = middle ++ [last] :=
    ⟨parts.dropLast, parts.getLast hpos, (List.dropLast_append_getLast hpos).symm⟩
  have hlast : asterisk ∉ last := hparts last (by simp)
  have hmiddle : ∀ part ∈ middle, asterisk ∉ part := fun part h => hparts part (by simp [h])
  have hfits : Fits value pattern ↔
      ∃ front, value = first ++ (front ++ last) ∧ Gaps Plain middle front := by
    rw [Fits, hpattern, matches_append_iff hfirst]
    constructor
    · rintro ⟨rest, rfl, h⟩
      obtain ⟨front, rfl, hfront⟩ := (matches_stars_iff hlast hmiddle).mp h
      exact ⟨front, rfl, hfront⟩
    · rintro ⟨front, rfl, hfront⟩
      exact ⟨_, rfl, (matches_stars_iff hlast hmiddle).mpr ⟨front, rfl, hfront⟩⟩
  have hgetLast : (first :: (middle ++ [last])).getLastD [] = last := by
    rw [← List.cons_append, List.getLastD_concat]
  have hinner : ((first :: (middle ++ [last])).drop 1).dropLast = middle := by
    rw [List.drop_one, List.tail_cons, List.dropLast_concat]
  rw [hfits, matchesPattern, if_neg hne, if_neg (by simpa using hstar), hsplit]
  dsimp only
  rw [hgetLast, hinner, List.headD_cons]
  constructor
  · intro h
    split at h
    · cases h
    next hends =>
    rw [Bool.or_eq_true, not_or, Bool.not_eq_true', Bool.not_eq_true', Bool.not_eq_false,
      Bool.not_eq_false, List.isPrefixOf_iff_prefix, List.isSuffixOf_iff_suffix] at hends
    split at h
    · cases h
    next hroom =>
    obtain ⟨⟨t, rfl⟩, hsuffix⟩ := hends
    rw [List.length_append, Nat.not_lt] at hroom
    have hle := hsuffix.length_le
    rw [List.length_append] at hle
    -- the ends do not overlap, so the last piece lies in what follows the first
    obtain ⟨front, rfl⟩ : last <:+ t :=
      List.suffix_of_suffix_length_le hsuffix (List.suffix_append _ _) (by omega)
    refine ⟨front, rfl, ?_⟩
    have hwindow : ((first ++ (front ++ last)).drop first.length).take
        ((first ++ (front ++ last)).length - last.length - first.length) = front := by
      rw [List.drop_left, List.take_left']
      simp only [List.length_append]
      omega
    rw [← hwindow, ← matchMiddle_spec (by omega) (by simp only [List.length_append]; omega)]
    cases hmiddle : matchMiddle (first ++ (front ++ last))
        ((first ++ (front ++ last)).length - last.length) middle first.length with
    | none =>
      rw [hmiddle] at h
      cases h
    | some final =>
      rw [hmiddle] at h
      exact ⟨final, rfl, (Bool.not_eq_true' _).mp h⟩
  · rintro ⟨front, rfl, hfront⟩
    have hbegins : first.isPrefixOf (first ++ (front ++ last)) = true :=
      List.isPrefixOf_iff_prefix.mpr (List.prefix_append _ _)
    have hsuffix : last.isSuffixOf (first ++ (front ++ last)) = true :=
      List.isSuffixOf_iff_suffix.mpr ⟨first ++ front, List.append_assoc _ _ _⟩
    have hlen : (first ++ (front ++ last)).length = first.length + (front.length + last.length) := by
      rw [List.length_append, List.length_append]
    rw [hbegins, hsuffix, if_neg (by simp), if_neg (by omega)]
    have hwindow : ((first ++ (front ++ last)).drop first.length).take
        ((first ++ (front ++ last)).length - last.length - first.length) = front := by
      rw [List.drop_left, List.take_left']
      omega
    rw [← hwindow, ← matchMiddle_spec (by omega) (by omega)] at hfront
    obtain ⟨final, hfinal, hgap⟩ := hfront
    rw [hfinal]
    exact (Bool.not_eq_true' _).mpr hgap

theorem matchesPattern_of_ne {value pattern : JsString} (hpattern : pattern ≠ [asterisk]) :
    matchesPattern value pattern = true ↔ Fits value pattern := by
  by_cases hstar : asterisk ∈ pattern
  · exact matchesPattern_of_mem hstar hpattern
  · rw [Fits, matches_of_not_mem hstar, matchesPattern, if_neg hpattern, if_pos hstar]
    exact decide_eq_true_iff

theorem matchesPattern_of_fits {value pattern : JsString} (h : Fits value pattern) :
    matchesPattern value pattern = true := by
  by_cases hlone : pattern = [asterisk]
  · rw [hlone, matchesPattern_asterisk]
  · exact (matchesPattern_of_ne hlone).mpr h

theorem eq_or_fits_of_matchesPattern {value pattern : JsString}
    (h : matchesPattern value pattern = true) : pattern = [asterisk] ∨ Fits value pattern := by
  by_cases hlone : pattern = [asterisk]
  · exact .inl hlone
  · exact .inr ((matchesPattern_of_ne hlone).mp h)

/-- **`matchesPattern` decides its specification**: a lone asterisk matches everything,
every other pattern exactly what fits it. -/
theorem matchesPattern_iff (value pattern : JsString) :
    matchesPattern value pattern = true ↔ pattern = [asterisk] ∨ Fits value pattern := by
  refine ⟨eq_or_fits_of_matchesPattern, ?_⟩
  rintro (rfl | hfits)
  · exact matchesPattern_asterisk value
  · exact matchesPattern_of_fits hfits

end Pattern
