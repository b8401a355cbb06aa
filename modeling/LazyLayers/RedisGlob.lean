/-
Glob patterns of the Redis server.

`SCAN`, `ZSCAN` and `KEYS` take a pattern over bytes: `*` stands for any bytes, `?` for
one byte, `[...]` for one byte of a class and `\` takes the byte behind it literally.

* `globMatches` — the matcher;
* `globEscape` — a literal with its special bytes escaped, and
  `globMatches_globEscape`: it stands for itself;
* `globMatches_gaps` — a pattern of literals between stars matches wherever the
  literals follow each other in this order, whatever is between them.
-/
import LazyLayers.Wildcards
import LazyLayers.JsonScan

open Js

namespace RedisStore

/-- The class behind an opening bracket, from its first item on: whether the byte is in
it, and the pattern behind its closing bracket. -/
def globClass (b : UInt8) : List UInt8 → Bool → Bool × List UInt8
  | 92 :: c :: p, found => globClass b p (found || b = c)
  | 93 :: p, found => (found, p)
  | [], found => (found, [])
  | lo :: 45 :: hi :: p, found =>
    globClass b p (found || (min lo hi ≤ b && b ≤ max lo hi))
  | c :: p, found => globClass b p (found || b = c)

theorem length_globClass (b : UInt8) (p : List UInt8) (found : Bool) :
    (globClass b p found).2.length ≤ p.length := by
  fun_induction globClass b p found <;> simp only [List.length_cons, List.length_nil] at * <;> omega

/-- Whether a string of bytes matches a pattern. -/
def globMatches : List UInt8 → List UInt8 → Bool
  | [], s => s = []
  | 42 :: p, s => s.tails.any fun t => globMatches p t
  | 63 :: p, _ :: s => globMatches p s
  | 91 :: 94 :: p, b :: s =>
    !(globClass b p false).1 && globMatches (globClass b p false).2 s
  | 91 :: p, b :: s => (globClass b p false).1 && globMatches (globClass b p false).2 s
  | 92 :: c :: p, b :: s => b = c && globMatches p s
  | c :: p, b :: s => b = c && globMatches p s
  | _ :: _, [] => false
termination_by p => p.length
decreasing_by
  all_goals
    first
      | simp only [List.length_cons]; omega
      | exact Nat.lt_of_le_of_lt (length_globClass _ _ _) (by simp only [List.length_cons]; omega)

/-! ### Literals and stars -/

/-- The bytes that a pattern does not take literally. -/
def isGlobSpecial (b : UInt8) : Bool := b = 42 || b = 63 || b = 91 || b = 92

theorem globMatches_nil : globMatches [] [] = true := by
  rw [globMatches]
  rfl

/-- A star takes any bytes. -/
theorem globMatches_star {p s : List UInt8} (g : List UInt8) (h : globMatches p s = true) :
    globMatches (42 :: p) (g ++ s) = true := by
  rw [globMatches, List.any_eq_true]
  exact ⟨s, (List.mem_tails _ _).mpr (List.suffix_append g s), h⟩

theorem globMatches_escaped (c : UInt8) (p s : List UInt8) :
    globMatches (92 :: c :: p) (c :: s) = globMatches p s := by
  rw [globMatches, decide_eq_true rfl, Bool.true_and]

theorem globMatches_plain {c : UInt8} (h : isGlobSpecial c = false) (p s : List UInt8) :
    globMatches (c :: p) (c :: s) = globMatches p s := by
  simp only [isGlobSpecial, Bool.or_eq_false_iff, decide_eq_false_iff_not] at h
  obtain ⟨⟨⟨h42, h63⟩, h91⟩, h92⟩ := h
  rw [globMatches]
  · rw [decide_eq_true rfl, Bool.true_and]
  all_goals intros
  all_goals simp_all

/-- Bytes with a backslash in front of the special ones. -/
def globEscape (special : UInt8 → Bool) (bytes : List UInt8) : List UInt8 :=
  bytes.flatMap fun b => if special b then [92, b] else [b]

theorem globEscape_append (special : UInt8 → Bool) (s t : List UInt8) :
    globEscape special (s ++ t) = globEscape special s ++ globEscape special t :=
  List.flatMap_append

/-- Escaped bytes stand for themselves. -/
theorem globMatches_globEscape {special : UInt8 → Bool} {l : List UInt8}
    (h : ∀ b ∈ l, isGlobSpecial b = true → special b = true) (p s : List UInt8) :
    globMatches (globEscape special l ++ p) (l ++ s) = globMatches p s := by
  induction l with
  | nil => rfl
  | cons b l ih =>
    have hrest := ih fun c hc => h c (List.mem_cons_of_mem b hc)
    rw [globEscape, List.flatMap_cons, List.append_assoc, List.cons_append]
    by_cases hb : special b = true
    · rw [if_pos hb]
      exact (globMatches_escaped b _ _).trans hrest
    · rw [if_neg hb]
      have hplain : isGlobSpecial b = false := by
        rw [Bool.eq_false_iff]
        exact fun hspecial => hb (h b List.mem_cons_self hspecial)
      exact (globMatches_plain hplain _ _).trans hrest

/-- Bytes that are not special need no escape. -/
theorem globMatches_literal {l : List UInt8} (h : ∀ b ∈ l, isGlobSpecial b = false)
    (p s : List UInt8) : globMatches (l ++ p) (l ++ s) = globMatches p s := by
  induction l with
  | nil => rfl
  | cons b l ih =>
    rw [List.cons_append, List.cons_append, globMatches_plain (h b List.mem_cons_self)]
    exact ih fun c hc => h c (List.mem_cons_of_mem b hc)

/-! ### Patterns of strings -/

/-- `value.replace(/[…]/g, '\\$&')` -/
def escapeUnits (special : UInt16 → Bool) (value : JsString) : JsString :=
  value.flatMap fun u => if special u then [92, u] else [u]

/-- The bytes of escaped units. -/
def onWire (special : UInt16 → Bool) : UInt8 → Bool := fun b => special (UInt16.ofNat b.toNat)

/-- The bytes of a character outside of ASCII are none of ASCII. -/
theorem high_of_mem_utf8EncodeChar {c : Char} (hc : 128 ≤ c.toNat) {b : UInt8}
    (hb : b ∈ String.utf8EncodeChar c) : 128 ≤ b.toNat := by
  have hmem : b.toNat ∈ (String.utf8EncodeChar c).map UInt8.toNat := List.mem_map_of_mem hb
  rw [toNat_utf8EncodeChar] at hmem
  split_ifs at hmem <;>
    simp only [List.mem_cons, List.not_mem_nil, or_false] at hmem <;> omega

/-- A string whose first byte is ASCII begins with that character. -/
theorem cons_of_utf8 {u : UInt16} (hu : u.toNat < 128) {s : JsString} {bytes : List UInt8}
    (h : utf8 s = UInt8.ofNat u.toNat :: bytes) : ∃ t, s = u :: t ∧ utf8 t = bytes := by
  have hhead : ∀ {v : UInt16} {s}, ¬ v.toNat < 128 →
      ∃ o rest, scalars (v :: s) = o :: rest ∧ 128 ≤ (o.getD (Char.ofNat 0xFFFD)).toNat := by
    intro v s hv
    have hplain : ∀ s, ¬ isHigh v → ¬ isLow v → ∃ o rest, scalars (v :: s) = o :: rest ∧
        128 ≤ (o.getD (Char.ofNat 0xFFFD)).toNat := by
      intro s hh hl
      refine ⟨_, _, scalars_cons hh hl s, ?_⟩
      have hlt := v.toNat_lt
      simp only [isHigh, isLow, Bool.and_eq_true, decide_eq_true_eq] at hh hl
      rw [Option.getD_some, toNat_ofNat (by omega)]
      omega
    cases s with
    | nil =>
      by_cases hsur : (isHigh v || isLow v) = true
      · exact ⟨none, [], if_pos hsur, by decide⟩
      · simp only [Bool.or_eq_true, not_or] at hsur
        exact hplain [] hsur.1 hsur.2
    | cons w s =>
      by_cases hh : isHigh v = true
      · by_cases hw : isLow w = true
        · refine ⟨some (pair v w), scalars s, by rw [scalars, if_pos hh, if_pos hw], ?_⟩
          rw [Option.getD_some, pair, toNat_ofNat]
          · omega
          · have hlt := v.toNat_lt
            have hlt' := w.toNat_lt
            simp only [isHigh, isLow, Bool.and_eq_true, decide_eq_true_eq] at hh hw
            omega
        · exact ⟨none, _, by rw [scalars, if_pos hh, if_neg hw], by decide⟩
      · by_cases hl : isLow v = true
        · exact ⟨none, _, by rw [scalars, if_neg hh, if_pos hl], by decide⟩
        · exact hplain (w :: s) hh hl
  cases s with
  | nil => cases h
  | cons v s =>
    by_cases hv : v.toNat < 128
    · rw [utf8_cons_ascii hv] at h
      obtain ⟨hbyte, hrest⟩ := List.cons.inj h
      have hnat := congrArg UInt8.toNat hbyte
      rw [UInt8.toNat_ofNat', UInt8.toNat_ofNat'] at hnat
      have heq : v = u := UInt16.toNat_inj.mp (by omega)
      exact ⟨s, by rw [heq], hrest⟩
    · obtain ⟨o, rest, ho, hhigh⟩ := @hhead v s hv
      rw [utf8, ho, List.flatMap_cons] at h
      obtain ⟨b, bs, hbytes⟩ := List.exists_cons_of_ne_nil
        (@String.utf8EncodeChar_ne_nil (o.getD (Char.ofNat 0xFFFD)))
      rw [hbytes, List.cons_append] at h
      have hb := high_of_mem_utf8EncodeChar hhigh (hbytes ▸ List.mem_cons_self)
      rw [(List.cons.inj h).1, UInt8.toNat_ofNat'] at hb
      omega

/-- No byte of a character outside of ASCII is escaped. -/
theorem globEscape_char {special : UInt16 → Bool}
    (hspecial : ∀ u, special u = true → u.toNat < 128) {c : Char} (hc : 128 ≤ c.toNat)
    (t : List UInt8) : globEscape (onWire special)
        (String.utf8EncodeChar c ++ t) =
      String.utf8EncodeChar c ++ globEscape (onWire special) t := by
  have hbytes : ∀ b ∈ String.utf8EncodeChar c, special (UInt16.ofNat b.toNat) = false := by
    intro b hb
    rw [Bool.eq_false_iff]
    intro hspec
    have hlow := hspecial _ hspec
    have hhigh := high_of_mem_utf8EncodeChar hc hb
    have hbyte := b.toNat_lt
    rw [UInt16.toNat_ofNat'] at hlow
    omega
  generalize String.utf8EncodeChar c = bytes at hbytes
  induction bytes with
  | nil => rfl
  | cons b bytes ih =>
    rw [List.cons_append, globEscape, List.flatMap_cons, onWire, hbytes b List.mem_cons_self,
      if_neg Bool.false_ne_true]
    exact congrArg (b :: ·) (ih fun c hc => hbytes c (List.mem_cons_of_mem b hc))

/-- On the wire, escaping units is escaping bytes: what is escaped is ASCII. -/
theorem utf8_escapeUnits {special : UInt16 → Bool}
    (hspecial : ∀ u, special u = true → u.toNat < 128) {s : JsString} (hs : wellFormed s) :
    utf8 (escapeUnits special s) =
      globEscape (onWire special) (utf8 s) := by
  have hno : ∀ {u : UInt16}, 128 ≤ u.toNat → special u = false := by
    intro u hu
    rw [Bool.eq_false_iff]
    intro h
    have hlow := hspecial u h
    omega
  -- a unit that is no surrogate
  have hunit : ∀ {u : UInt16} {s : JsString}, ¬ isHigh u → ¬ isLow u →
      utf8 (escapeUnits special s) =
        globEscape (onWire special) (utf8 s) →
      utf8 (escapeUnits special (u :: s)) =
        globEscape (onWire special) (utf8 (u :: s)) := by
    intro u s hh hl ih
    rw [escapeUnits, List.flatMap_cons]
    by_cases hu : u.toNat < 128
    · have hback : UInt16.ofNat (UInt8.ofNat u.toNat).toNat = u := by
        rw [UInt8.toNat_ofNat', Nat.mod_eq_of_lt (by omega), UInt16.ofNat_toNat]
      rw [utf8_cons_ascii hu, globEscape, List.flatMap_cons, onWire, hback]
      by_cases hspec : special u = true
      · rw [if_pos hspec, if_pos hspec, List.cons_append, List.singleton_append,
          utf8_cons_ascii (by decide), utf8_cons_ascii hu]
        exact congrArg (fun t => 92 :: UInt8.ofNat u.toNat :: t) ih
      · rw [if_neg hspec, if_neg hspec, List.singleton_append, utf8_cons_ascii hu]
        exact congrArg (UInt8.ofNat u.toNat :: ·) ih
    · have hvalid : u.toNat < 0xD800 ∨ (0xDFFF < u.toNat ∧ u.toNat < 0x110000) := by
        have hlt := u.toNat_lt
        simp only [isHigh, isLow, Bool.and_eq_true, decide_eq_true_eq] at hh hl
        omega
      have hutf : ∀ t, utf8 (u :: t) = String.utf8EncodeChar (Char.ofNat u.toNat) ++ utf8 t := by
        intro t
        rw [utf8, scalars_cons hh hl, List.flatMap_cons, Option.getD_some, utf8]
      rw [hno (by omega), if_neg Bool.false_ne_true, List.singleton_append, hutf, hutf,
        globEscape_char hspecial (by rw [toNat_ofNat hvalid]; omega)]
      exact congrArg (_ ++ ·) ih
  induction s using scalars.induct with
  | case1 => rfl
  | case2 u h => simp [wellFormed, scalars, h] at hs
  | case3 u h =>
    simp only [Bool.or_eq_true, not_or] at h
    exact hunit h.1 h.2 rfl
  | case4 u v s hu hv ih =>
    have hwell : wellFormed s := by
      simpa only [wellFormed, scalars, hu, hv, if_true, List.all_cons, Option.isSome_some,
        Bool.true_and] using hs
    have hpair : ∀ t, utf8 (u :: v :: t) = String.utf8EncodeChar (pair u v) ++ utf8 t := by
      intro t
      rw [utf8, scalars, if_pos hu, if_pos hv, List.flatMap_cons, Option.getD_some, utf8]
    have hnat : 0x10000 ≤ (pair u v).toNat := by
      simp only [isHigh, isLow, Bool.and_eq_true, decide_eq_true_eq] at hu hv
      have hnat : (pair u v).toNat =
          0x10000 + (u.toNat - 0xD800) * 0x400 + (v.toNat - 0xDC00) := toNat_ofNat (by omega)
      omega
    have hplain : special u = false ∧ special v = false := by
      simp only [isHigh, isLow, Bool.and_eq_true, decide_eq_true_eq] at hu hv
      exact ⟨hno (by omega), hno (by omega)⟩
    rw [escapeUnits, List.flatMap_cons, List.flatMap_cons, hplain.1, hplain.2,
      if_neg Bool.false_ne_true]
    show utf8 (u :: v :: escapeUnits special s) = _
    rw [hpair, hpair, globEscape_char hspecial (by omega), ih hwell]
  | case5 u v s hu hv ih => simp [wellFormed, scalars, hu, hv] at hs
  | case6 u v s hu hl ih => simp [wellFormed, scalars, hu, hl] at hs
  | case7 u v s hu hl ih =>
    rw [wellFormed, scalars_cons hu hl, List.all_cons, Option.isSome_some, Bool.true_and] at hs
    exact hunit hu hl (ih hs)

theorem wellFormed_escapeUnits {special : UInt16 → Bool}
    (hspecial : ∀ u, special u = true → u.toNat < 128) {s : JsString} (hs : wellFormed s) :
    wellFormed (escapeUnits special s) := by
  -- a unit that is no surrogate
  have hunit : ∀ {u : UInt16} {s : JsString}, ¬ isHigh u → ¬ isLow u →
      wellFormed (escapeUnits special s) → wellFormed (escapeUnits special (u :: s)) := by
    intro u s hh hl ih
    have hplain : wellFormed (u :: escapeUnits special s) := by
      rw [wellFormed, scalars_cons hh hl]
      exact ih
    rw [escapeUnits, List.flatMap_cons]
    by_cases hspec : special u = true
    · rw [if_pos hspec]
      exact wellFormed_cons (by decide) hplain
    · rw [if_neg hspec]
      exact hplain
  induction s using scalars.induct with
  | case1 => rfl
  | case2 u h => simp [wellFormed, scalars, h] at hs
  | case3 u h =>
    simp only [Bool.or_eq_true, not_or] at h
    exact hunit h.1 h.2 rfl
  | case4 u v s hu hv ih =>
    have hwell : wellFormed s := by
      simpa only [wellFormed, scalars, hu, hv, if_true, List.all_cons, Option.isSome_some,
        Bool.true_and] using hs
    have hplain : special u = false ∧ special v = false := by
      simp only [isHigh, isLow, Bool.and_eq_true, decide_eq_true_eq] at hu hv
      constructor
      · rw [Bool.eq_false_iff]
        intro h
        have := hspecial u h
        omega
      · rw [Bool.eq_false_iff]
        intro h
        have := hspecial v h
        omega
    rw [escapeUnits, List.flatMap_cons, List.flatMap_cons, hplain.1, hplain.2,
      if_neg Bool.false_ne_true]
    show wellFormed (u :: v :: escapeUnits special s)
    rw [wellFormed, scalars, if_pos hu, if_pos hv]
    exact ih hwell
  | case5 u v s hu hv ih => simp [wellFormed, scalars, hu, hv] at hs
  | case6 u v s hu hl ih => simp [wellFormed, scalars, hu, hl] at hs
  | case7 u v s hu hl ih =>
    rw [wellFormed, scalars_cons hu hl, List.all_cons, Option.isSome_some, Bool.true_and] at hs
    exact hunit hu hl (ih hs)

end RedisStore

namespace Js

/-! ### Cutting well-formed strings -/

theorem not_low_of_wellFormed {u : UInt16} {s : JsString} (h : wellFormed (u :: s)) :
    ¬ isLow u := by
  intro hl
  have hh : ¬ isHigh u := by
    simp only [isHigh, isLow, Bool.and_eq_true, decide_eq_true_eq] at hl ⊢
    omega
  cases s with
  | nil => simp [wellFormed, scalars, hl] at h
  | cons v s =>
    rw [wellFormed, scalars, if_neg hh, if_pos hl] at h
    cases h

/-- In front of a well-formed string that is not empty, the cut is clean. -/
theorem wellFormed_of_append {s t : JsString} (h : wellFormed (s ++ t)) (ht : wellFormed t)
    (hne : t ≠ []) : wellFormed s := by
  cases t with
  | nil => exact absurd rfl hne
  | cons u t =>
    rw [wellFormed, scalars_append_of_not_low s (not_low_of_wellFormed ht), List.all_append] at h
    exact (Bool.and_eq_true_iff.mp h).1

/-- Behind a well-formed string it always is. -/
theorem wellFormed_of_append_left {s t : JsString} (h : wellFormed (s ++ t)) (hs : wellFormed s) :
    wellFormed t := by
  rw [wellFormed, scalars_append hs, List.all_append] at h
  exact (Bool.and_eq_true_iff.mp h).2

end Js

namespace RedisStore

/-! ### Stars between literals -/

/-- The ASCII bytes of a string are its ASCII units. -/
theorem mem_of_mem_utf8 {l : JsString} (hl : wellFormed l) {b : UInt8} (hb : b ∈ utf8 l)
    (hlow : b.toNat < 128) : UInt16.ofNat b.toNat ∈ l := by
  have hchar : ∀ {c : Char}, b ∈ String.utf8EncodeChar c → c.toNat = b.toNat := by
    intro c hc
    have hmem : b.toNat ∈ (String.utf8EncodeChar c).map UInt8.toNat := List.mem_map_of_mem hc
    rw [toNat_utf8EncodeChar] at hmem
    split_ifs at hmem <;>
      simp only [List.mem_cons, List.not_mem_nil, or_false] at hmem <;> omega
  -- a unit that is no surrogate is one character
  have hunit : ∀ {u : UInt16}, ¬ isHigh u → ¬ isLow u →
      b ∈ String.utf8EncodeChar (Char.ofNat u.toNat) → UInt16.ofNat b.toNat = u := by
    intro u hh hlo hb
    have hvalid : u.toNat < 0xD800 ∨ (0xDFFF < u.toNat ∧ u.toNat < 0x110000) := by
      have hlt := u.toNat_lt
      simp only [isHigh, isLow, Bool.and_eq_true, decide_eq_true_eq] at hh hlo
      omega
    rw [← hchar hb, toNat_ofNat hvalid, UInt16.ofNat_toNat]
  induction l using scalars.induct with
  | case1 => cases hb
  | case2 u h => simp [wellFormed, scalars, h] at hl
  | case3 u h =>
    simp only [Bool.or_eq_true, not_or] at h
    rw [utf8, scalars_cons h.1 h.2, List.flatMap_cons, Option.getD_some] at hb
    rcases List.mem_append.mp hb with hb | hb
    · rw [hunit h.1 h.2 hb]
      exact List.mem_cons_self
    · cases hb
  | case4 u v s hu hv ih =>
    have hwell : wellFormed s := by
      simpa only [wellFormed, scalars, hu, hv, if_true, List.all_cons, Option.isSome_some,
        Bool.true_and] using hl
    rw [utf8, scalars, if_pos hu, if_pos hv, List.flatMap_cons, Option.getD_some] at hb
    rcases List.mem_append.mp hb with hb | hb
    · have hnat : (pair u v).toNat =
          0x10000 + (u.toNat - 0xD800) * 0x400 + (v.toNat - 0xDC00) := by
        simp only [isHigh, isLow, Bool.and_eq_true, decide_eq_true_eq] at hu hv
        exact toNat_ofNat (by omega)
      rw [hchar hb] at hnat
      omega
    · exact List.mem_cons_of_mem u (List.mem_cons_of_mem v (ih hwell hb))
  | case5 u v s hu hv ih => simp [wellFormed, scalars, hu, hv] at hl
  | case6 u v s hu hlo ih => simp [wellFormed, scalars, hu, hlo] at hl
  | case7 u v s hu hlo ih =>
    rw [wellFormed, scalars_cons hu hlo, List.all_cons, Option.isSome_some, Bool.true_and] at hl
    rw [utf8, scalars_cons hu hlo, List.flatMap_cons, Option.getD_some] at hb
    rcases List.mem_append.mp hb with hb | hb
    · rw [hunit hu hlo hb]
      exact List.mem_cons_self
    · exact List.mem_cons_of_mem u (ih hl hb)

/-- The units that a pattern does not take literally. -/
def isGlobUnit (u : UInt16) : Bool := u = 42 || u = 63 || u = 91 || u = 92

variable {special : UInt16 → Bool}

/-- An escaped string stands for itself on the wire. -/
theorem globMatches_wire {l : JsString} (hl : wellFormed l)
    (h : ∀ u ∈ l, isGlobUnit u = true → special u = true) (p s : List UInt8) :
    globMatches (globEscape (onWire special) (utf8 l) ++ p) (utf8 l ++ s) = globMatches p s := by
  refine globMatches_globEscape (fun b hb hglob => ?_) p s
  have hlow : b.toNat < 128 ∧ isGlobUnit (UInt16.ofNat b.toNat) = true := by
    simp only [isGlobSpecial, Bool.or_eq_true, decide_eq_true_eq] at hglob
    rcases hglob with ((rfl | rfl) | rfl) | rfl <;> decide
  exact h _ (mem_of_mem_utf8 hl hb hlow.1) hlow.2

/-- The literals of a pattern follow each other, whatever is between them. -/
theorem globMatches_gaps {ok : UInt16 → Prop} : ∀ {parts : List JsString},
    (∀ part ∈ parts, wellFormed part ∧ ∀ u ∈ part, isGlobUnit u = true → special u = true) →
    ∀ {body : JsString}, wellFormed body → Wildcards.Gaps ok parts body →
    ∀ {p s : List UInt8}, globMatches p s = true →
    globMatches (parts.flatMap (fun part => 42 :: globEscape (onWire special) (utf8 part)) ++
      42 :: p) (utf8 body ++ s) = true := by
  intro parts
  induction parts with
  | nil =>
    intro _ body _ _ p s h
    exact globMatches_star (utf8 body) h
  | cons part parts ih =>
    intro hparts body hbody hgaps p s h
    obtain ⟨hwell, hpart⟩ := hparts part List.mem_cons_self
    have hothers := fun q hq => hparts q (List.mem_cons_of_mem part hq)
    rw [List.flatMap_cons, List.append_assoc, List.cons_append]
    by_cases hnil : part = []
    · -- two stars in a row: the first takes nothing
      subst hnil
      exact globMatches_star [] (ih hothers hbody (Wildcards.gaps_nil_cons_iff.mp hgaps) h)
    · obtain ⟨gap, rest, rfl, -, hrest⟩ := hgaps
      have hfront : wellFormed (gap ++ part) ∧ wellFormed rest := by
        obtain ⟨u, part', rfl⟩ := List.exists_cons_of_ne_nil hnil
        have hall := hbody
        rw [wellFormed, List.cons_append, scalars_append_of_not_low gap (not_low_of_wellFormed hwell),
          ← List.cons_append, scalars_append hwell, List.all_append, List.all_append] at hall
        obtain ⟨hgap, htail⟩ := Bool.and_eq_true_iff.mp hall
        exact ⟨wellFormed_append hgap hwell, (Bool.and_eq_true_iff.mp htail).2⟩
      have hgap : wellFormed gap := wellFormed_of_append hfront.1 hwell hnil
      rw [utf8_append hgap, utf8_append hwell, List.append_assoc, List.append_assoc]
      refine globMatches_star (utf8 gap) ?_
      rw [globMatches_wire hwell hpart]
      exact ih hothers hfront.2 hrest h

end RedisStore
