/-
Searching for words and matching wildcards.

The mathematics behind a Knuth-Morris-Pratt search and behind greedy matching,
over an arbitrary alphabet.

* `ends l w` — the lengths of the beginnings of `l` that `w` ends with.  A text
  that grows by a letter changes them in one way (`mem_ends_concat`), and below
  the longest of them they are the borders of `l` alone (`mem_ends_of_lt`): that
  is why a table computed from `l` is enough;
* `occurrences l w` — where `l` stands in `w`;
* `Gaps ok parts w` — `w` is the words `parts` in order, separated and surrounded
  by runs of letters that are `ok`;
* `Matches star ok w pattern` — `w` fits a pattern whose `star`s stand for such runs.

`gaps_cons_iff_of_isLeast` says that greed is complete: taking the leftmost
occurrence of the first word loses no way to place the others, although a gap must
avoid letters that the words themselves may contain.
-/
import Mathlib.Data.List.Infix
import Mathlib.Order.Bounds.Basic
import Mathlib.Tactic

namespace Wildcards

variable {α : Type*} {l w v : List α} {c : α} {m n i j : ℕ}

/-! ### Beginnings of one word at the end of another -/

/-- The lengths of the beginnings of `l` that `w` ends with. -/
def ends (l w : List α) : Set ℕ := {n | n ≤ l.length ∧ l.take n <:+ w}

theorem zero_mem_ends (l w : List α) : 0 ∈ ends l w :=
  ⟨Nat.zero_le _, by rw [List.take_zero]; exact List.nil_suffix⟩

theorem isGreatest_ends_nil (l : List α) : IsGreatest (ends l []) 0 := by
  refine ⟨zero_mem_ends l [], ?_⟩
  rintro n ⟨hn, hsuffix⟩
  have hlen := hsuffix.length_le
  rw [List.length_take, List.length_nil] at hlen
  omega

theorem length_le_of_mem_ends (h : n ∈ ends l w) : n ≤ w.length := by
  have hlen := h.2.length_le
  rw [List.length_take] at hlen
  have := h.1
  omega

/-- A letter more: a beginning grows with it or it is empty. -/
theorem mem_ends_concat : n + 1 ∈ ends l (w ++ [c]) ↔ n ∈ ends l w ∧ l[n]? = some c := by
  constructor
  · rintro ⟨hn, t, ht⟩
    have hget : l.take (n + 1) = l.take n ++ [l[n]] := List.take_succ_eq_append_getElem (by omega)
    rw [hget, ← List.append_assoc] at ht
    obtain ⟨hw, hc⟩ := List.append_inj' ht rfl
    rw [List.cons.injEq] at hc
    exact ⟨⟨by omega, t, hw⟩, by rw [List.getElem?_eq_getElem (by omega), hc.1]⟩
  · rintro ⟨⟨hn, t, ht⟩, hc⟩
    obtain ⟨hlt, hget⟩ := List.getElem?_eq_some_iff.mp hc
    refine ⟨hlt, t, ?_⟩
    rw [List.take_succ_eq_append_getElem hlt, hget, ← List.append_assoc, ht]

/-- Below one of them, the others are the proper borders of that beginning. -/
theorem mem_ends_of_lt (hn : n ∈ ends l w) (hm : m < n) :
    m ∈ ends l w ↔ m ∈ ends l ((l.drop 1).take (n - 1)) := by
  obtain ⟨hle, hsuffix⟩ := hn
  have hlen : (l.take m).length < (l.take n).length := by
    rw [List.length_take, List.length_take]
    omega
  have hhead : ∃ a, l.take n = a :: (l.drop 1).take (n - 1) := by
    cases l with
    | nil => exact absurd hle (by rw [List.length_nil]; omega)
    | cons a l =>
      obtain ⟨n, rfl⟩ : ∃ k, n = k + 1 := ⟨n - 1, by omega⟩
      exact ⟨a, rfl⟩
  obtain ⟨a, ha⟩ := hhead
  constructor
  · rintro ⟨hml, hmw⟩
    have hmn : l.take m <:+ l.take n := List.suffix_of_suffix_length_le hmw hsuffix hlen.le
    rw [ha, List.suffix_cons_iff] at hmn
    rcases hmn with heq | hmn
    · rw [ha, heq] at hlen
      exact absurd hlen (lt_irrefl _)
    · exact ⟨hml, hmn⟩
  · rintro ⟨hml, hmn⟩
    refine ⟨hml, ?_⟩
    have hstep : (l.drop 1).take (n - 1) <:+ l.take n := by
      rw [ha]
      exact List.suffix_cons a _
    exact (hmn.trans hstep).trans hsuffix

/-- The whole word is a beginning of itself. -/
theorem length_mem_ends_iff : l.length ∈ ends l w ↔ l <:+ w := by
  show l.length ≤ l.length ∧ l.take l.length <:+ w ↔ l <:+ w
  rw [List.take_length]
  exact and_iff_right le_rfl

/-! ### Occurrences -/

/-- Where `l` stands in `w`. -/
def occurrences (l w : List α) : Set ℕ := {i | l <+: w.drop i}

theorem le_of_mem_occurrences (hl : l ≠ []) (h : i ∈ occurrences l w) :
    i + l.length ≤ w.length := by
  have hlen := h.length_le
  rw [List.length_drop] at hlen
  have hpos := List.length_pos_iff.mpr hl
  omega

theorem mem_occurrences_append (h : i ∈ occurrences l w) (v : List α) :
    i ∈ occurrences l (w ++ v) := by
  by_cases hi : i ≤ w.length
  · show l <+: (w ++ v).drop i
    rw [List.drop_append_of_le_length hi]
    exact h.trans (List.prefix_append _ _)
  · have hnil : l = [] := by
      have h' : l <+: w.drop i := h
      rw [List.drop_eq_nil_of_le (by omega)] at h'
      exact List.prefix_nil.mp h'
    rw [hnil]
    exact List.nil_prefix

/-- An occurrence that fits into a beginning of the text is one of the beginning. -/
theorem mem_occurrences_of_append (hi : i + l.length ≤ w.length)
    (h : i ∈ occurrences l (w ++ v)) : i ∈ occurrences l w := by
  have h' : l <+: (w ++ v).drop i := h
  rw [List.drop_append_of_le_length (by omega)] at h'
  refine List.prefix_of_prefix_length_le h' (List.prefix_append _ _) ?_
  rw [List.length_drop]
  omega

theorem mem_occurrences_of_suffix (h : l <:+ w) : w.length - l.length ∈ occurrences l w := by
  obtain ⟨t, rfl⟩ := h
  show l <+: (t ++ l).drop ((t ++ l).length - l.length)
  rw [List.length_append, Nat.add_sub_cancel, List.drop_left]

/-- An occurrence that a letter more makes possible ends with that letter. -/
theorem suffix_of_mem_occurrences (hi : i + l.length = w.length) (h : i ∈ occurrences l w) :
    l <:+ w := by
  have h' : l <+: w.drop i := h
  have heq : l = w.drop i := h'.eq_of_length (by rw [List.length_drop]; omega)
  rw [heq]
  exact List.drop_suffix i w

theorem append_of_mem_occurrences (h : i ∈ occurrences l w) :
    w = w.take i ++ (l ++ w.drop (i + l.length)) := by
  obtain ⟨t, ht⟩ : l <+: w.drop i := h
  have hrest : w.drop (i + l.length) = t := by
    rw [← List.drop_drop, ← ht, List.drop_left]
  rw [hrest, ht, List.take_append_drop]

theorem mem_occurrences_append_left (g t : List α) : g.length ∈ occurrences l (g ++ (l ++ t)) := by
  show l <+: (g ++ (l ++ t)).drop g.length
  rw [List.drop_left]
  exact List.prefix_append _ _

/-! ### Words between gaps -/

section Gaps

variable (ok : α → Prop)

/-- `w` is the words `parts` in order, with runs of `ok` letters around them. -/
def Gaps : List (List α) → List α → Prop
  | [], w => ∀ u ∈ w, ok u
  | part :: parts, w => ∃ gap rest, w = gap ++ (part ++ rest) ∧ (∀ u ∈ gap, ok u) ∧ Gaps parts rest

variable {ok} {parts : List (List α)}

/-- A run of `ok` letters in front widens the first gap. -/
theorem Gaps.append_left (h : Gaps ok parts w) (hv : ∀ u ∈ v, ok u) : Gaps ok parts (v ++ w) := by
  have happend : ∀ {gap : List α}, (∀ u ∈ gap, ok u) → ∀ u ∈ v ++ gap, ok u := by
    intro gap hgap u hu
    rcases List.mem_append.mp hu with hu | hu
    · exact hv u hu
    · exact hgap u hu
  cases parts with
  | nil => exact happend h
  | cons part parts =>
    obtain ⟨gap, rest, rfl, hgap, hrest⟩ := h
    exact ⟨v ++ gap, rest, (List.append_assoc _ _ _).symm, happend hgap, hrest⟩

/-- Empty words only cut a gap in two. -/
theorem gaps_nil_cons_iff : Gaps ok ([] :: parts) w ↔ Gaps ok parts w := by
  constructor
  · rintro ⟨gap, rest, rfl, hgap, hrest⟩
    rw [List.nil_append]
    exact hrest.append_left hgap
  · intro h
    exact ⟨[], w, rfl, by simp, h⟩

/-- Two occurrences of a word, the gap before the later one `ok`: then the letters
the later one adds to the earlier are `ok` as well. -/
theorem ok_between_of_occurrences {part gap rest : List α} (hw : w = gap ++ (part ++ rest))
    (hgap : ∀ u ∈ gap, ok u) (hi : i ∈ occurrences part w) (hlt : i < gap.length) :
    ∀ u ∈ part, ok u := by
  have hearly : ∀ k (_ : k < part.length), part[k]? = w[i + k]? := by
    intro k hk
    obtain ⟨t, ht⟩ : part <+: w.drop i := hi
    rw [← List.getElem?_drop, ← ht, List.getElem?_append_left hk]
  have hlate : ∀ k (_ : k < part.length), part[k]? = w[gap.length + k]? := by
    intro k hk
    rw [hw, List.getElem?_append_right (by omega), Nat.add_sub_cancel_left,
      List.getElem?_append_left hk]
  -- a letter that is not `ok` would stand in the gap, or earlier in the word again
  have hall : ∀ k (hk : k < part.length), ok part[k] := by
    intro k
    induction k using Nat.strong_induction_on with
    | h k ih =>
      intro hk
      by_cases hin : i + k < gap.length
      · have hget : part[k]? = some gap[i + k] := by
          rw [hearly k hk, hw, List.getElem?_append_left hin, List.getElem?_eq_getElem hin]
        rw [List.getElem?_eq_getElem hk, Option.some.injEq] at hget
        rw [hget]
        exact hgap _ (List.getElem_mem hin)
      · obtain ⟨d, hd⟩ : ∃ d, gap.length + d = i + k := ⟨i + k - gap.length, by omega⟩
        have hget : part[k]? = part[d]? := by
          rw [hearly k hk, hlate d (by omega), hd]
        have hdlt : d < part.length := by omega
        rw [List.getElem?_eq_getElem hk, List.getElem?_eq_getElem hdlt, Option.some.injEq] at hget
        rw [hget]
        exact ih d (by omega) hdlt
  intro u hu
  obtain ⟨k, hk, rfl⟩ := List.getElem_of_mem hu
  exact hall k hk

/-- **Greed is complete**: if the words fit at all, they fit with the first at its
leftmost occurrence. -/
theorem gaps_cons_iff_of_isLeast {part : List α} (h : IsLeast (occurrences part w) i) :
    Gaps ok (part :: parts) w ↔
      (∀ u ∈ w.take i, ok u) ∧ Gaps ok parts (w.drop (i + part.length)) := by
  constructor
  · rintro ⟨gap, rest, hw, hgap, hrest⟩
    have hle : i ≤ gap.length := h.2 (hw ▸ mem_occurrences_append_left gap rest)
    have htake : w.take i = gap.take i := by
      rw [hw, List.take_append_of_le_length hle]
    refine ⟨?_, ?_⟩
    · rw [htake]
      intro u hu
      exact hgap u (List.mem_of_mem_take hu)
    rcases eq_or_lt_of_le hle with heq | hlt
    · rw [hw, ← List.drop_drop, heq, List.drop_left, List.drop_left]
      exact hrest
    -- the placement chosen skips letters of the gap and of the word, all of them `ok`
    · have hpart := ok_between_of_occurrences hw hgap h.1 hlt
      have hsplit : w.drop (i + part.length) = (gap ++ part).drop (i + part.length) ++ rest := by
        rw [hw, ← List.append_assoc, List.drop_append_of_le_length]
        rw [List.length_append]
        omega
      rw [hsplit]
      refine hrest.append_left ?_
      intro u hu
      rcases List.mem_append.mp (List.mem_of_mem_drop hu) with hu | hu
      · exact hgap u hu
      · exact hpart u hu
  · rintro ⟨hgap, hrest⟩
    exact ⟨_, _, append_of_mem_occurrences h.1, hgap, hrest⟩

theorem not_gaps_cons {part : List α} (h : occurrences part w = ∅) : ¬ Gaps ok (part :: parts) w := by
  rintro ⟨gap, rest, rfl, -, -⟩
  have hmem : gap.length ∈ occurrences part (gap ++ (part ++ rest)) :=
    mem_occurrences_append_left gap rest
  rw [h] at hmem
  exact hmem

/-! ### Patterns -/

/-- A word fits a pattern: a letter stands for itself, `star` for a run of `ok` letters. -/
inductive Matches (star : α) (ok : α → Prop) : List α → List α → Prop
  | nil : Matches star ok [] []
  | letter {u : α} {w pattern : List α} (hu : u ≠ star) (h : Matches star ok w pattern) :
    Matches star ok (u :: w) (u :: pattern)
  | run {gap w pattern : List α} (hgap : ∀ u ∈ gap, ok u) (h : Matches star ok w pattern) :
    Matches star ok (gap ++ w) (star :: pattern)

variable {star : α} {pattern : List α}

theorem matches_nil_iff : Matches star ok w [] ↔ w = [] := by
  constructor
  · rintro ⟨⟩
    rfl
  · rintro rfl
    exact .nil

theorem matches_cons_iff {a : α} (ha : a ≠ star) :
    Matches star ok w (a :: pattern) ↔ ∃ rest, w = a :: rest ∧ Matches star ok rest pattern := by
  constructor
  · intro h
    cases h with
    | letter _ h => exact ⟨_, rfl, h⟩
    | run _ _ => exact absurd rfl ha
  · rintro ⟨rest, rfl, h⟩
    exact .letter ha h

theorem matches_star_iff : Matches star ok w (star :: pattern) ↔
    ∃ gap rest, w = gap ++ rest ∧ (∀ u ∈ gap, ok u) ∧ Matches star ok rest pattern := by
  constructor
  · intro h
    cases h with
    | letter hu _ => exact absurd rfl hu
    | run hgap h => exact ⟨_, _, rfl, hgap, h⟩
  · rintro ⟨gap, rest, rfl, hgap, h⟩
    exact .run hgap h

/-- Letters up to the next `star` are compared one by one. -/
theorem matches_append_iff {part : List α} (hstar : star ∉ part) :
    Matches star ok w (part ++ pattern) ↔
      ∃ rest, w = part ++ rest ∧ Matches star ok rest pattern := by
  induction part generalizing w with
  | nil => simp
  | cons a part ih =>
    have ha : a ≠ star := fun h => hstar (h ▸ List.mem_cons_self)
    rw [List.cons_append, matches_cons_iff ha]
    constructor
    · rintro ⟨rest, rfl, h⟩
      obtain ⟨more, rfl, hmore⟩ := (ih fun hm => hstar (List.mem_cons_of_mem _ hm)).mp h
      exact ⟨more, rfl, hmore⟩
    · rintro ⟨rest, rfl, h⟩
      exact ⟨part ++ rest, rfl, (ih fun hm => hstar (List.mem_cons_of_mem _ hm)).mpr ⟨rest, rfl, h⟩⟩

theorem matches_of_not_mem (hstar : star ∉ pattern) : Matches star ok w pattern ↔ w = pattern := by
  have h := @matches_append_iff _ w ok star [] pattern hstar
  rw [List.append_nil] at h
  rw [h]
  constructor
  · rintro ⟨rest, rfl, hrest⟩
    rw [matches_nil_iff.mp hrest, List.append_nil]
  · rintro rfl
    exact ⟨[], (List.append_nil _).symm, .nil⟩

/-- Behind the first `star`, a word fits when the last piece ends it and the others
lie between gaps in front of that. -/
theorem matches_stars_iff {last : List α} (hlast : star ∉ last) :
    ∀ {parts : List (List α)} {w : List α}, (∀ part ∈ parts, star ∉ part) →
      (Matches star ok w ((parts ++ [last]).flatMap (star :: ·)) ↔
        ∃ front, w = front ++ last ∧ Gaps ok parts front) := by
  intro parts
  induction parts with
  | nil =>
    intro w _
    have hpattern : ([] ++ [last]).flatMap (star :: ·) = star :: last := by simp
    rw [hpattern, matches_star_iff]
    constructor
    · rintro ⟨gap, rest, rfl, hgap, h⟩
      exact ⟨gap, by rw [(matches_of_not_mem hlast).mp h], hgap⟩
    · rintro ⟨front, rfl, hfront⟩
      exact ⟨front, last, rfl, hfront, (matches_of_not_mem hlast).mpr rfl⟩
  | cons part parts ih =>
    intro w hparts
    rw [List.cons_append, List.flatMap_cons, List.cons_append, matches_star_iff]
    have ih' := fun w => @ih w fun p hp => hparts p (List.mem_cons_of_mem _ hp)
    have hpart : star ∉ part := hparts part List.mem_cons_self
    constructor
    · rintro ⟨gap, rest, rfl, hgap, h⟩
      obtain ⟨more, rfl, hmore⟩ := (matches_append_iff hpart).mp h
      obtain ⟨front, rfl, hfront⟩ := (ih' more).mp hmore
      exact ⟨gap ++ (part ++ front), by simp, gap, front, rfl, hgap, hfront⟩
    · rintro ⟨front, rfl, gap, rest, rfl, hgap, hrest⟩
      refine ⟨gap, part ++ (rest ++ last), by simp, hgap, ?_⟩
      exact (matches_append_iff hpart).mpr ⟨_, rfl, (ih' _).mpr ⟨rest, rfl, hrest⟩⟩

/-- The pieces of a pattern and the pattern they came from. -/
theorem splitOn_spec [DecidableEq α] (star : α) (pattern : List α) :
    ∃ first parts, pattern.splitOn star = first :: parts ∧
      pattern = first ++ parts.flatMap (star :: ·) ∧ star ∉ first ∧
      (∀ part ∈ parts, star ∉ part) ∧ (parts = [] ↔ star ∉ pattern) := by
  induction pattern with
  | nil => exact ⟨[], [], rfl, rfl, by simp, by simp, by simp⟩
  | cons a pattern ih =>
    obtain ⟨first, parts, hsplit, hpattern, hfirst, hparts, hnil⟩ := ih
    rw [List.splitOn_cons_eq_if_modifyHead, hsplit]
    by_cases ha : a = star
    · subst ha
      refine ⟨[], first :: parts, by simp, ?_, by simp, ?_, by simp⟩
      · rw [List.flatMap_cons, List.nil_append, List.cons_append, ← hpattern]
      · rintro part (_ | ⟨_, hpart⟩)
        · exact hfirst
        · exact hparts part hpart
    · refine ⟨a :: first, parts, by simp [ha], ?_, ?_, hparts, ?_⟩
      · rw [List.cons_append, ← hpattern]
      · exact List.not_mem_cons_of_ne_of_not_mem (Ne.symm ha) hfirst
      · rw [hnil, List.mem_cons, not_or]
        exact (and_iff_right (Ne.symm ha)).symm

end Gaps

end Wildcards
