/-
Words that are joined with a separator, within limits.

Nothing is escaped, so the text of one list of words may be that of another: two neighbours
may be one word with the separator inside, a word may be cut at a separator, or a part of a
word may go over to its neighbour.  With limits on the number of words and on their sizes
these local changes tell everything: where none of them is possible, no other list within
the limits has the text.

* `tail` — the text behind the first word;
* `append_tail_cases` — how the first words of two readings of a text compare;
* `Rigid` — no local change is possible;
* `not_fewer` — a reading that falls behind does not catch up;
* `unique_iff` — a list is the only reading of its text exactly when it is rigid.
-/
import Mathlib.Data.List.Chain

namespace Joins

variable {α : Type*} {sep : α} {c r w x y : List α} {as cs words words' : List (List α)}

/-! ### Readings of a text -/

variable (sep) in
/-- The text of a list of words behind another word. -/
def tail (words : List (List α)) : List α := words.flatMap (sep :: ·)

theorem tail_cons (w : List α) (words : List (List α)) :
    tail sep (w :: words) = sep :: (w ++ tail sep words) := rfl

theorem tail_append (words words' : List (List α)) :
    tail sep (words ++ words') = tail sep words ++ tail sep words' := List.flatMap_append

theorem intercalate_cons (w : List α) (words : List (List α)) :
    List.intercalate [sep] (w :: words) = w ++ tail sep words := by
  induction words generalizing w with
  | nil => rw [List.intercalate_singleton, tail, List.flatMap_nil, List.append_nil]
  | cons v words ih =>
    rw [List.intercalate_cons_cons, ih, tail_cons, List.append_assoc, List.singleton_append]

/-- Two readings with a first word: it is the same, or that of one begins with that of the
other and a separator. -/
theorem append_tail_cases (h : c ++ tail sep cs = r ++ tail sep as) :
    (c = r ∧ tail sep cs = tail sep as) ∨
    (∃ s b bs, as = b :: bs ∧ c = r ++ sep :: s ∧ s ++ tail sep cs = b ++ tail sep bs) ∨
    ∃ t b bs, cs = b :: bs ∧ r = c ++ sep :: t ∧ b ++ tail sep bs = t ++ tail sep as := by
  rcases List.append_eq_append_iff.mp h with ⟨t, hr, htail⟩ | ⟨s, hc, htail⟩
  · rcases t with _ | ⟨u, t⟩
    · exact .inl ⟨by rw [hr, List.append_nil], by rw [htail, List.nil_append]⟩
    · rcases cs with _ | ⟨b, bs⟩
      · cases htail
      · rw [tail_cons, List.cons_append, List.cons.injEq] at htail
        obtain ⟨rfl, htail⟩ := htail
        exact .inr (.inr ⟨t, b, bs, rfl, hr, htail⟩)
  · rcases s with _ | ⟨u, s⟩
    · exact .inl ⟨by rw [hc, List.append_nil], by rw [htail, List.nil_append]⟩
    · rcases as with _ | ⟨b, bs⟩
      · cases htail
      · rw [tail_cons, List.cons_append, List.cons.injEq] at htail
        obtain ⟨rfl, htail⟩ := htail
        exact .inr (.inl ⟨s, b, bs, rfl, hc, htail.symm⟩)

/-- Other words for a part of a list are other words for the list. -/
theorem intercalate_congr {before after : List (List α)} (hne : words ≠ []) (hne' : words' ≠ [])
    (h : List.intercalate [sep] words' = List.intercalate [sep] words) :
    List.intercalate [sep] (before ++ words' ++ after) =
      List.intercalate [sep] (before ++ words ++ after) := by
  have htail : ∀ {l : List (List α)}, l ≠ [] → tail sep l = sep :: List.intercalate [sep] l := by
    intro l hl
    cases l with
    | nil => exact absurd rfl hl
    | cons w l => rw [tail_cons, intercalate_cons]
  have hsame : tail sep (before ++ words' ++ after) = tail sep (before ++ words ++ after) := by
    simp only [tail_append, htail hne, htail hne', h]
  rw [htail (by simp [hne']), htail (by simp [hne])] at hsame
  exact (List.cons.inj hsame).2

/-! ### The first and the last part of a word -/

section Parts

variable [DecidableEq α]

variable (sep) in
/-- What stands before the first separator. -/
def firstPart (w : List α) : List α := w.takeWhile (· ≠ sep)

variable (sep) in
/-- What stands behind the last one. -/
def lastPart (w : List α) : List α := (firstPart sep w.reverse).reverse

theorem firstPart_append (x y : List α) : firstPart sep (x ++ sep :: y) = firstPart sep x := by
  induction x with
  | nil => simp [firstPart]
  | cons u x ih =>
    simp only [firstPart, List.cons_append, List.takeWhile_cons] at ih ⊢
    split
    · rw [ih]
    · rfl

variable (sep) in
theorem firstPart_cases (w : List α) :
    firstPart sep w = w ∨ ∃ y, w = firstPart sep w ++ sep :: y := by
  induction w with
  | nil => exact .inl rfl
  | cons u w ih =>
    by_cases hu : u = sep
    · exact .inr ⟨w, by simp [firstPart, hu]⟩
    · have hcons : firstPart sep (u :: w) = u :: firstPart sep w := by simp [firstPart, hu]
      rw [hcons]
      refine ih.imp (fun h => by rw [h]) ?_
      rintro ⟨y, hy⟩
      exact ⟨y, by rw [List.cons_append, ← hy]⟩

theorem lastPart_append (x y : List α) : lastPart sep (x ++ sep :: y) = lastPart sep y := by
  have hreverse : (x ++ sep :: y).reverse = y.reverse ++ sep :: x.reverse := by simp
  rw [lastPart, hreverse, firstPart_append, lastPart]

variable (sep) in
theorem lastPart_cases (w : List α) :
    lastPart sep w = w ∨ ∃ x, w = x ++ sep :: lastPart sep w := by
  refine (firstPart_cases sep w.reverse).imp (fun h => ?_) ?_
  · rw [lastPart, h, List.reverse_reverse]
  · rintro ⟨y, hy⟩
    refine ⟨y.reverse, ?_⟩
    have h := congrArg List.reverse hy
    rwa [List.reverse_reverse, List.reverse_append, List.reverse_cons, List.append_assoc,
      List.singleton_append] at h

/-- Texts that are the same have the same first part. -/
theorem firstPart_eq_of_tail (h : c ++ tail sep cs = r ++ tail sep as) :
    firstPart sep c = firstPart sep r := by
  rcases append_tail_cases h with ⟨rfl, -⟩ | ⟨s, -, -, -, rfl, -⟩ | ⟨t, -, -, -, rfl, -⟩
  · rfl
  · exact firstPart_append r s
  · exact (firstPart_append c t).symm

/-! ### Limits -/

variable (sep) in
/-- Neither two neighbours nor one of them and the nearest part of the other fit into one
word, and no word can be cut while there may be more of them. -/
structure Rigid (size : List α → ℕ) (maxCount maxSize : ℕ) (words : List (List α)) : Prop where
  ne_nil : words ≠ []
  ne_blank : words ≠ [[]]
  whole : words.length < maxCount → ∀ w ∈ words, sep ∉ w
  stiff : words.IsChain fun a b => maxSize < size (a ++ sep :: firstPart sep b) ∧
    maxSize < size (lastPart sep a ++ sep :: b)

variable {size : List α → ℕ} {maxCount maxSize : ℕ}

variable (sep) in
theorem size_firstPart_le (hsize : ∀ x y, size (x ++ sep :: y) = size x + 1 + size y)
    (w : List α) : size (firstPart sep w) ≤ size w := by
  rcases firstPart_cases sep w with h | ⟨y, hy⟩
  · rw [h]
  · have hlength := hsize (firstPart sep w) y
    rw [← hy] at hlength
    omega

variable (sep) in
theorem size_lastPart_le (hsize : ∀ x y, size (x ++ sep :: y) = size x + 1 + size y)
    (w : List α) : size (lastPart sep w) ≤ size w := by
  rcases lastPart_cases sep w with h | ⟨x, hx⟩
  · rw [h]
  · have hlength := hsize x (lastPart sep w)
    rw [← hx] at hlength
    omega

theorem chain_of_lastPart (hpart : lastPart sep x = lastPart sep y)
    (h : (y :: words).IsChain fun a b => maxSize < size (lastPart sep a ++ sep :: b)) :
    (x :: words).IsChain fun a b => maxSize < size (lastPart sep a ++ sep :: b) := by
  cases words with
  | nil => exact List.isChain_singleton _
  | cons b words =>
    obtain ⟨hhead, hrest⟩ := List.isChain_cons_cons.mp h
    exact List.isChain_cons_cons.mpr ⟨by rwa [hpart], hrest⟩

/-- A reading that has fallen behind does not catch up: it has more words left. -/
theorem not_fewer {c r : List α} {cs as : List (List α)}
    (hsize : ∀ x y, size (x ++ sep :: y) = size x + 1 + size y)
    (h : c ++ tail sep cs = r ++ tail sep as)
    (hstiff : (r :: as).IsChain fun a b => maxSize < size (lastPart sep a ++ sep :: b))
    (hlimit : ∀ w ∈ c :: cs, size w ≤ maxSize) : as.length < (c :: cs).length := by
  have hrest : ∀ w ∈ cs, size w ≤ maxSize := fun w hw => hlimit w (List.mem_cons_of_mem c hw)
  rcases append_tail_cases h with ⟨rfl, htail⟩ | ⟨s, b, bs, rfl, rfl, htail⟩ |
    ⟨t, b, bs, rfl, rfl, htail⟩
  · -- both words end here
    cases as with
    | nil => exact Nat.succ_pos _
    | cons b bs =>
      cases cs with
      | nil => cases htail
      | cons d ds =>
        rw [tail_cons, tail_cons, List.cons.injEq] at htail
        have hlt := not_fewer hsize htail.2 (List.isChain_cons_cons.mp hstiff).2 hrest
        simp only [List.length_cons] at hlt ⊢
        omega
  · -- the word goes on into the next one, which does not fit
    obtain ⟨hhead, hchain⟩ := List.isChain_cons_cons.mp hstiff
    have hword := hlimit _ List.mem_cons_self
    have hpart := size_lastPart_le sep hsize r
    rw [hsize] at hhead hword
    rcases append_tail_cases htail with ⟨rfl, -⟩ | ⟨s', -, -, -, rfl, -⟩ | ⟨t, e, es, rfl, rfl, hnext⟩
    · omega
    · rw [hsize] at hword
      omega
    · have hlt := not_fewer hsize hnext (chain_of_lastPart (lastPart_append s t).symm hchain) hrest
      simp only [List.length_cons] at hlt ⊢
      omega
  · -- the word ends within the other one
    have hlt := not_fewer hsize htail (chain_of_lastPart (lastPart_append c t).symm hstiff) hrest
    simp only [List.length_cons] at hlt ⊢
    omega
termination_by cs.length

/-- **A rigid list is the only reading of its text.** -/
theorem eq_of_tail {c r : List α} {cs as : List (List α)}
    (hsize : ∀ x y, size (x ++ sep :: y) = size x + 1 + size y)
    (h : c ++ tail sep cs = r ++ tail sep as)
    (hwhole : (∃ w ∈ r :: as, sep ∈ w) → cs.length ≤ as.length)
    (hstiff : (r :: as).IsChain fun a b => maxSize < size (a ++ sep :: firstPart sep b) ∧
      maxSize < size (lastPart sep a ++ sep :: b))
    (hlimit : ∀ w ∈ c :: cs, size w ≤ maxSize) : c :: cs = r :: as := by
  have hrest : ∀ w ∈ cs, size w ≤ maxSize := fun w hw => hlimit w (List.mem_cons_of_mem c hw)
  rcases append_tail_cases h with ⟨rfl, htail⟩ | ⟨s, b, bs, rfl, rfl, htail⟩ |
    ⟨t, b, bs, rfl, rfl, htail⟩
  · cases as with
    | nil =>
      cases cs with
      | nil => rfl
      | cons d ds => cases htail
    | cons b bs =>
      cases cs with
      | nil => cases htail
      | cons d ds =>
        rw [tail_cons, tail_cons, List.cons.injEq] at htail
        rw [eq_of_tail hsize htail.2 (fun ⟨w, hw, hsep⟩ => ?_)
          (List.isChain_cons_cons.mp hstiff).2 hrest]
        exact Nat.le_of_succ_le_succ (hwhole ⟨w, List.mem_cons_of_mem c hw, hsep⟩)
  · -- the first part of the next word does not fit
    have hhead := (List.isChain_cons_cons.mp hstiff).1.1
    have hword := hlimit _ List.mem_cons_self
    have hpart := size_firstPart_le sep hsize s
    rw [firstPart_eq_of_tail htail] at hpart
    rw [hsize] at hhead hword
    omega
  · -- the word is cut, and the rest has too few words to it
    have hcount := hwhole ⟨_, List.mem_cons_self, by simp⟩
    have hlt := not_fewer hsize htail (chain_of_lastPart (lastPart_append c t).symm
      (hstiff.imp fun _ _ h => h.2)) hrest
    omega

omit [DecidableEq α] in
/-- A part of the list is replaced by another reading of its text. -/
theorem exists_replaced (hcount : words.length ≤ maxCount) (hlimit : ∀ w ∈ words, size w ≤ maxSize)
    {before after part part' : List (List α)} (hwords : words = before ++ part ++ after)
    (hpart : part ≠ []) (hpart' : part' ≠ []) (hother : part' ≠ part)
    (hlength : part'.length ≤ maxCount - words.length + part.length)
    (hsizes : ∀ w ∈ part', size w ≤ maxSize)
    (hjoin : List.intercalate [sep] part' = List.intercalate [sep] part) :
    ∃ words', words'.length ≤ maxCount ∧ (∀ w ∈ words', size w ≤ maxSize) ∧
      List.intercalate [sep] words' = List.intercalate [sep] words ∧ words' ≠ words := by
  subst hwords
  refine ⟨before ++ part' ++ after, ?_, fun w hw => ?_, intercalate_congr hpart hpart' hjoin, ?_⟩
  · simp only [List.length_append] at hcount hlength ⊢
    omega
  · simp only [List.mem_append] at hw hlimit
    rcases hw with (hw | hw) | hw
    · exact hlimit w (.inl (.inl hw))
    · exact hsizes w hw
    · exact hlimit w (.inr hw)
  · exact fun heq => hother (List.append_cancel_left (List.append_cancel_right heq))

/-- Two neighbours that fit into one word, or of which a part fits into the other one, are cut
elsewhere. -/
theorem exists_recut (hsize : ∀ x y, size (x ++ sep :: y) = size x + 1 + size y) {a b : List α}
    (ha : size a ≤ maxSize) (hb : size b ≤ maxSize)
    (hfits : size (a ++ sep :: firstPart sep b) ≤ maxSize ∨
      size (lastPart sep a ++ sep :: b) ≤ maxSize) :
    ∃ part : List (List α), part ≠ [] ∧ part ≠ [a, b] ∧ part.length ≤ 2 ∧
      (∀ w ∈ part, size w ≤ maxSize) ∧ List.intercalate [sep] part = List.intercalate [sep] [a, b] := by
  have hone : size (a ++ sep :: b) ≤ maxSize → ∃ part : List (List α), part ≠ [] ∧
      part ≠ [a, b] ∧ part.length ≤ 2 ∧ (∀ w ∈ part, size w ≤ maxSize) ∧
      List.intercalate [sep] part = List.intercalate [sep] [a, b] := fun hfits =>
    ⟨[a ++ sep :: b], by simp, by simp, by simp, by simpa using hfits, by simp [List.intercalate]⟩
  rcases hfits with hfits | hfits
  · rcases firstPart_cases sep b with hfirst | ⟨y, hy⟩
    · exact hone (by rwa [hfirst] at hfits)
    · -- the first part of the second goes over to the first
      have hlength := hsize (firstPart sep b) y
      rw [← hy] at hlength
      refine ⟨[a ++ sep :: firstPart sep b, y], by simp, by simp, by simp, ?_, ?_⟩
      · simp only [List.mem_cons, List.not_mem_nil, or_false, forall_eq_or_imp, forall_eq]
        exact ⟨hfits, by omega⟩
      · conv_rhs => rw [hy]
        simp [List.intercalate]
  · rcases lastPart_cases sep a with hlast | ⟨x, hx⟩
    · exact hone (by rwa [hlast] at hfits)
    · have hlength := hsize x (lastPart sep a)
      rw [← hx] at hlength
      refine ⟨[x, lastPart sep a ++ sep :: b], by simp, ?_, by simp, ?_, ?_⟩
      · intro heq
        have hxa := congrArg List.length (List.cons.inj heq).1
        rw [hx] at hxa
        simp at hxa
      · simp only [List.mem_cons, List.not_mem_nil, or_false, forall_eq_or_imp, forall_eq]
        exact ⟨by omega, hfits⟩
      · conv_rhs => rw [hx]
        simp [List.intercalate]

/-- Where a list is not rigid, a local change gives another reading within the limits. -/
theorem exists_other (hsize : ∀ x y, size (x ++ sep :: y) = size x + 1 + size y)
    (hnil : size [] ≤ maxSize) (hmax : 0 < maxCount)
    (hcount : words.length ≤ maxCount) (hlimit : ∀ w ∈ words, size w ≤ maxSize)
    (h : ¬ Rigid sep size maxCount maxSize words) :
    ∃ words', words'.length ≤ maxCount ∧ (∀ w ∈ words', size w ≤ maxSize) ∧
      List.intercalate [sep] words' = List.intercalate [sep] words ∧ words' ≠ words := by
  by_cases hne : words = []
  · subst hne
    exact ⟨[[]], hmax, by simpa using hnil, rfl, by simp⟩
  by_cases hblank : words = [[]]
  · subst hblank
    exact ⟨[], Nat.zero_le _, by simp, rfl, by simp⟩
  by_cases hwhole : words.length < maxCount → ∀ w ∈ words, sep ∉ w
  · have hnot : ¬ words.IsChain fun a b => maxSize < size (a ++ sep :: firstPart sep b) ∧
        maxSize < size (lastPart sep a ++ sep :: b) := fun hstiff => h ⟨hne, hblank, hwhole, hstiff⟩
    rw [List.isChain_iff_forall_rel_of_append_cons_cons] at hnot
    simp only [not_forall, not_and_or, not_lt] at hnot
    obtain ⟨a, b, before, after, hwords, hfits⟩ := hnot
    obtain ⟨part, hpart, hother, htwo, hsizes, hjoin⟩ := exists_recut hsize
      (hlimit a (by simp [hwords])) (hlimit b (by simp [hwords])) hfits
    have hsplit : words = before ++ [a, b] ++ after := by simp [hwords]
    exact exists_replaced hcount hlimit hsplit (by simp) hpart hother
      (htwo.trans (Nat.le_add_left 2 _)) hsizes hjoin
  · -- a word is cut
    simp only [Classical.not_imp, not_forall, not_not] at hwhole
    obtain ⟨hroom, w, hw, hsep⟩ := hwhole
    obtain ⟨before, after, hwords⟩ := List.append_of_mem hw
    obtain ⟨x, y, rfl⟩ := List.append_of_mem hsep
    have hlength := hsize x y
    have hword := hlimit _ hw
    have hsplit : words = before ++ [x ++ sep :: y] ++ after := by simp [hwords]
    refine exists_replaced hcount hlimit hsplit (by simp) (show [x, y] ≠ [] by simp) (by simp)
      (by simp; omega) ?_ ?_
    · simp only [List.mem_cons, List.not_mem_nil, or_false, forall_eq_or_imp, forall_eq]
      exact ⟨by omega, by omega⟩
    · simp [List.intercalate]

/-- **A list is the only reading of its text within the limits exactly when it is rigid.** -/
theorem unique_iff (hsize : ∀ x y, size (x ++ sep :: y) = size x + 1 + size y)
    (hnil : size [] ≤ maxSize) (hmax : 0 < maxCount)
    (hcount : words.length ≤ maxCount) (hlimit : ∀ w ∈ words, size w ≤ maxSize) :
    (∀ words', words'.length ≤ maxCount → (∀ w ∈ words', size w ≤ maxSize) →
      List.intercalate [sep] words' = List.intercalate [sep] words → words' = words) ↔
      Rigid sep size maxCount maxSize words := by
  constructor
  · intro hunique
    by_contra hnot
    obtain ⟨words', hcount', hlimit', hjoin, hne⟩ :=
      exists_other hsize hnil hmax hcount hlimit hnot
    exact hne (hunique words' hcount' hlimit' hjoin)
  · rintro ⟨hne, hblank, hwhole, hstiff⟩ words' hcount' hlimit' hjoin
    obtain ⟨r, as, rfl⟩ := List.exists_cons_of_ne_nil hne
    rw [intercalate_cons] at hjoin
    rcases words' with _ | ⟨c, cs⟩
    · -- only a blank word has the text of none
      obtain ⟨rfl, htail⟩ := List.append_eq_nil_iff.mp hjoin.symm
      cases as with
      | nil => exact absurd rfl hblank
      | cons b bs => cases htail
    · rw [intercalate_cons] at hjoin
      refine eq_of_tail hsize hjoin (fun ⟨w, hw, hsep⟩ => ?_) hstiff hlimit'
      have hfull : ¬ (r :: as).length < maxCount := fun hlt => hwhole hlt w hw hsep
      simp only [List.length_cons] at hcount' hfull
      omega

end Parts

end Joins
