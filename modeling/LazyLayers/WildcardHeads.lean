/-
Words and patterns with a common head.

A head of letters that are no stars can be taken off a word and its pattern at once
(`matches_append_iff`).  With stars in the head it stands in the word as it does in the
pattern, but the stars of the pattern may stand for more.

* `Matches.append_head` — a common head never loses a match;
* `matches_append_star_iff` — it gains none when what follows it begins with a `star`;
* `matches_append_landmark_iff` — or when a letter that no gap may contain stands behind
  its last `star`;
* `matches_append_forall_iff` — in every other case some word is gained.
-/
import LazyLayers.Wildcards

namespace Wildcards

variable {α : Type*} {star : α} {ok : α → Prop} {w v key head pattern : List α}

/-! ### Stars -/

/-- A `star` may stand for nothing. -/
theorem Matches.addStar (h : Matches star ok w pattern) : Matches star ok w (star :: pattern) := by
  rw [matches_star_iff]
  exact ⟨[], w, rfl, by simp, h⟩

/-- A run in front widens the gap of a `star`. -/
theorem Matches.widen (h : Matches star ok w (star :: pattern)) (hv : ∀ u ∈ v, ok u) :
    Matches star ok (v ++ w) (star :: pattern) := by
  obtain ⟨gap, rest, rfl, hgap, hrest⟩ := matches_star_iff.mp h
  rw [← List.append_assoc]
  refine .run (fun u hu => ?_) hrest
  rcases List.mem_append.mp hu with hu | hu
  · exact hv u hu
  · exact hgap u hu

/-- Two stars are one. -/
theorem matches_star_star_iff :
    Matches star ok w (star :: star :: pattern) ↔ Matches star ok w (star :: pattern) := by
  constructor
  · intro h
    obtain ⟨gap, rest, rfl, hgap, hrest⟩ := matches_star_iff.mp h
    exact hrest.widen hgap
  · exact Matches.addStar

/-- Every pattern is matched by some word. -/
theorem exists_matches (star : α) (ok : α → Prop) (pattern : List α) :
    ∃ w, Matches star ok w pattern := by
  induction pattern with
  | nil => exact ⟨[], .nil⟩
  | cons a pattern ih =>
    obtain ⟨w, hw⟩ := ih
    by_cases ha : a = star
    · rw [ha]
      exact ⟨w, hw.addStar⟩
    · exact ⟨a :: w, .letter ha hw⟩

/-! ### A common head -/

/-- Read as a word, a pattern matches itself. -/
theorem Matches.append_head (hstar : ok star) (head : List α) (h : Matches star ok key pattern) :
    Matches star ok (head ++ key) (head ++ pattern) := by
  induction head with
  | nil => exact h
  | cons a head ih =>
    by_cases ha : a = star
    · rw [ha]
      exact ih.addStar.widen (v := [star]) (by simpa using hstar)
    · exact .letter ha ih

/-- Two texts in which a letter stands behind a run each: the runs are equally long, or the
rest of the one lies in front of the rest of the other. -/
theorem append_cons_eq {gap rest tail : List α} {a : α} (h : w ++ a :: tail = gap ++ a :: rest) :
    rest = tail ∨ (∃ more, tail = more ++ rest ∧ a ∈ gap ∧ ∀ u ∈ more, u ∈ gap) ∨
      ∃ more, rest = more ++ tail ∧ a ∈ w ∧ ∀ u ∈ more, u ∈ w := by
  have hmem : ∀ {front more : List α}, ∀ u ∈ more ++ [a], u ∈ front ++ a :: more := by
    intro front more u hu
    rw [List.mem_append, List.mem_singleton] at hu
    rw [List.mem_append, List.mem_cons]
    tauto
  rcases List.append_eq_append_iff.mp h with ⟨more, rfl, htail⟩ | ⟨more, rfl, hrest⟩
  · cases more with
    | nil => exact .inl (List.cons.inj htail).2.symm
    | cons b more =>
      obtain ⟨rfl, rfl⟩ := List.cons.inj htail
      exact .inr (.inl ⟨more ++ [a], List.append_cons _ _ _, by simp, hmem⟩)
  · cases more with
    | nil => exact .inl (List.cons.inj hrest).2
    | cons b more =>
      obtain ⟨rfl, rfl⟩ := List.cons.inj hrest
      exact .inr (.inr ⟨more ++ [a], List.append_cons _ _ _, by simp, hmem⟩)

/-- Stars in front of a word can only be taken by a gap. -/
theorem matches_of_stars (hw : ∀ u ∈ w, u = star) (h : Matches star ok (w ++ key) pattern) :
    Matches star ok key (star :: pattern) := by
  induction pattern generalizing w with
  | nil =>
    have hnil := matches_nil_iff.mp h
    rw [(List.append_eq_nil_iff.mp hnil).2]
    exact Matches.nil.addStar
  | cons a pattern ih =>
    cases w with
    | nil => exact h.addStar
    | cons b w =>
      obtain rfl : b = star := hw b List.mem_cons_self
      by_cases ha : a = b
      · subst ha
        obtain ⟨gap, rest, heq, hgap, hrest⟩ := matches_star_iff.mp h
        rcases List.append_eq_append_iff.mp heq with ⟨more, rfl, rfl⟩ | ⟨more, hmore, rfl⟩
        · exact (Matches.run (fun u hu => hgap u (List.mem_append_right _ hu)) hrest).addStar
        · refine (ih (fun u hu => hw u ?_) hrest).addStar
          rw [hmore]
          exact List.mem_append_right gap hu
      · obtain ⟨rest, heq, -⟩ := (matches_cons_iff ha).mp h
        exact absurd (List.cons.inj heq).1.symm ha

/-- A head between two stars, behind a run of stars. -/
theorem matches_of_head_star (hw : ∀ u ∈ w, u = star)
    (h : Matches star ok (w ++ (head ++ key)) (star :: (head ++ star :: pattern))) :
    Matches star ok key (star :: pattern) := by
  induction head generalizing w with
  | nil => exact matches_star_star_iff.mp (matches_star_star_iff.mp (matches_of_stars hw h))
  | cons a head ih =>
    rw [List.cons_append, List.cons_append] at h
    by_cases ha : a = star
    · rw [ha, matches_star_star_iff, List.append_cons] at h
      refine ih (fun u hu => ?_) h
      rcases List.mem_append.mp hu with hu | hu
      · exact hw u hu
      · exact List.mem_singleton.mp hu
    · obtain ⟨gap, rest, heq, hgap, hrest⟩ := matches_star_iff.mp h
      obtain ⟨rest, rfl, hbehind⟩ := (matches_cons_iff ha).mp hrest
      have hnone : ∀ u ∈ ([] : List α), u = star := by simp
      rcases append_cons_eq heq with rfl | ⟨more, htail, -, hmore⟩ | ⟨-, -, hmem, -⟩
      · exact ih hnone hbehind.addStar
      · -- the gap has taken the letter, and what it has taken behind it is `ok` as well
        refine ih hnone ?_
        rw [List.nil_append, htail]
        exact .run (fun u hu => hgap u (hmore u hu)) hbehind
      · exact absurd (hw a hmem) ha

/-- **A `star` behind a common head**: the stars of the head gain no match. -/
theorem matches_append_star_iff (hstar : ok star) :
    Matches star ok (head ++ key) (head ++ star :: pattern) ↔
      Matches star ok key (star :: pattern) := by
  constructor
  · intro h
    exact matches_of_head_star (w := []) (by simp) h.addStar
  · exact Matches.append_head hstar head

/-- A head with a `star` is no tag: words that do not begin with it match as well. -/
theorem exists_foreign (hstar : ok star) (hmem : star ∈ head) {a : α} (ha : a ≠ star)
    (hok : ok a) (pattern : List α) :
    ∃ w, Matches star ok w (head ++ pattern) ∧ ¬ head <+: w := by
  obtain ⟨front, back, rfl, hfront⟩ := List.eq_append_cons_of_mem hmem
  obtain ⟨v, hv⟩ := exists_matches star ok pattern
  refine ⟨front ++ a :: (back ++ v), ?_, fun h => ?_⟩
  · have hrun : Matches star ok ([a] ++ (back ++ v)) (star :: (back ++ pattern)) :=
      .run (by simpa using hok) (Matches.append_head hstar back hv)
    have hmatch := Matches.append_head hstar front hrun
    simpa using hmatch
  · rw [List.prefix_append_right_inj, List.cons_prefix_cons] at h
    exact ha h.1.symm

/-! ### Landmarks -/

section Landmarks

variable [DecidableEq α]

/-- The letters behind the last `star`. -/
def behindLast (star : α) : List α → List α
  | [] => []
  | a :: head => if a = star ∨ star ∈ head then behindLast star head else a :: head

theorem behindLast_of_not_mem (h : star ∉ head) : behindLast star head = head := by
  cases head with
  | nil => rfl
  | cons a head =>
    rw [List.mem_cons, not_or] at h
    rw [behindLast, if_neg]
    rw [not_or]
    exact ⟨Ne.symm h.1, h.2⟩

theorem exists_append_behindLast (h : star ∈ head) :
    ∃ front, head = front ++ star :: behindLast star head := by
  induction head with
  | nil => cases h
  | cons a head ih =>
    by_cases hmem : star ∈ head
    · obtain ⟨front, hfront⟩ := ih hmem
      refine ⟨a :: front, ?_⟩
      rw [behindLast, if_pos (.inr hmem), List.cons_append, ← hfront]
    · obtain rfl : star = a := (List.mem_cons.mp h).resolve_right hmem
      refine ⟨[], ?_⟩
      rw [behindLast, if_pos (.inl rfl), behindLast_of_not_mem hmem, List.nil_append]

/-- A letter that may stand in a gap is no landmark. -/
theorem landmark_of_cons {a : α} (h : ∃ u ∈ behindLast star (a :: head), ¬ ok u) (ha : ok a) :
    ∃ u ∈ behindLast star head, ¬ ok u := by
  obtain ⟨u, hu, hno⟩ := h
  refine ⟨u, ?_, hno⟩
  rw [behindLast] at hu
  split_ifs at hu with hstar
  · exact hu
  · rw [not_or] at hstar
    rw [behindLast_of_not_mem hstar.2]
    rcases List.mem_cons.mp hu with rfl | hu
    · exact absurd ha hno
    · exact hu

/-- A head with a landmark, behind a `star` and a run that it may stand for. -/
theorem matches_of_landmark (hstar : ok star) (hmark : ∃ u ∈ behindLast star head, ¬ ok u)
    (hw : ∀ u ∈ w, ok u) (h : Matches star ok (w ++ (head ++ key)) (star :: (head ++ pattern))) :
    Matches star ok key pattern := by
  induction head generalizing w with
  | nil =>
    obtain ⟨u, hu, -⟩ := hmark
    cases hu
  | cons a head ih =>
    have hnone : ∀ u ∈ ([] : List α), ok u := by simp
    rw [List.cons_append, List.cons_append] at h
    by_cases ha : a = star
    · rw [ha, behindLast, if_pos (.inl rfl)] at hmark
      rw [ha, matches_star_star_iff, List.append_cons] at h
      refine ih hmark (fun u hu => ?_) h
      rcases List.mem_append.mp hu with hu | hu
      · exact hw u hu
      · rw [List.mem_singleton.mp hu]
        exact hstar
    · obtain ⟨gap, rest, heq, hgap, hrest⟩ := matches_star_iff.mp h
      obtain ⟨rest, rfl, hbehind⟩ := (matches_cons_iff ha).mp hrest
      rcases append_cons_eq heq with rfl | ⟨more, htail, hmem, hmore⟩ | ⟨more, hmore, hmem, hrun⟩
      · by_cases hlast : star ∈ head
        · rw [behindLast, if_pos (.inr hlast)] at hmark
          exact ih hmark hnone hbehind.addStar
        · obtain ⟨rest, heq, hrest⟩ := (matches_append_iff hlast).mp hbehind
          rwa [List.append_cancel_left heq]
      -- a gap that has taken the letter shows that it is no landmark
      · refine ih (landmark_of_cons hmark (hgap a hmem)) hnone ?_
        rw [List.nil_append, htail]
        exact .run (fun u hu => hgap u (hmore u hu)) hbehind
      · refine ih (landmark_of_cons hmark (hw a hmem)) (fun u hu => hw u (hrun u hu)) ?_
        rw [← hmore]
        exact hbehind.addStar

/-- **A landmark in a common head**: neither do they when a letter that no gap may contain
stands behind the last of them. -/
theorem matches_append_landmark_iff (hstar : ok star)
    (hmark : ∃ u ∈ behindLast star head, ¬ ok u) :
    Matches star ok (head ++ key) (head ++ pattern) ↔ Matches star ok key pattern := by
  constructor
  · intro h
    exact matches_of_landmark (w := []) hstar hmark (by simp) h.addStar
  · exact Matches.append_head hstar head

/-- Without a landmark the last `star` of the head may stand for the head's end, read once
more. -/
theorem exists_gain (hstar : ok star) (hmem : star ∈ head)
    (hplain : ∀ u ∈ behindLast star head, ok u) (hpattern : pattern.head? ≠ some star) :
    ∃ key, Matches star ok (head ++ key) (head ++ pattern) ∧ ¬ Matches star ok key pattern := by
  obtain ⟨front, hhead⟩ := exists_append_behindLast hmem
  obtain ⟨v, hv⟩ := exists_matches star ok pattern
  generalize behindLast star head = piece at hplain hhead
  refine ⟨star :: (piece ++ v), ?_, fun h => ?_⟩
  · have hrun : ∀ u ∈ star :: piece ++ [star], ok u := by
      intro u hu
      rw [List.mem_append, List.mem_cons, List.mem_singleton] at hu
      rcases hu with (rfl | hu) | rfl
      · exact hstar
      · exact hplain u hu
      · exact hstar
    have hmatch := Matches.append_head hstar front
      (Matches.run hrun (Matches.append_head hstar piece hv))
    rw [hhead]
    simpa using hmatch
  · cases pattern with
    | nil =>
      have hnil := matches_nil_iff.mp h
      cases hnil
    | cons a pattern =>
      have ha : a ≠ star := by
        rintro rfl
        exact hpattern rfl
      obtain ⟨rest, heq, -⟩ := (matches_cons_iff ha).mp h
      exact ha (List.cons.inj heq).1.symm

/-- **Common heads.**  A head can be taken off every word and its pattern at once if and only
if it has no `star`, the rest of the pattern begins with one, or the head has a landmark. -/
theorem matches_append_forall_iff (hstar : ok star) :
    (∀ key, Matches star ok (head ++ key) (head ++ pattern) ↔ Matches star ok key pattern) ↔
      star ∉ head ∨ pattern.head? = some star ∨ ∃ u ∈ behindLast star head, ¬ ok u := by
  constructor
  · intro h
    by_contra hno
    push Not at hno
    obtain ⟨key, hmatch, hnot⟩ := exists_gain hstar hno.1 hno.2.2 hno.2.1
    exact hnot ((h key).mp hmatch)
  · rintro (hnone | hbegins | hmark) key
    · rw [matches_append_iff hnone]
      constructor
      · rintro ⟨rest, heq, hrest⟩
        rwa [List.append_cancel_left heq]
      · intro h
        exact ⟨key, rfl, h⟩
    · cases pattern with
      | nil => cases hbegins
      | cons a pattern =>
        obtain rfl : a = star := Option.some.inj hbegins
        exact matches_append_star_iff hstar
    · exact matches_append_landmark_iff hstar hmark

end Landmarks

end Wildcards
