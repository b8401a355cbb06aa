/-
JSON validation.

`isSafeJson` bounds the nesting and the collections of a JSON text before it is
parsed.  It is no parser: it follows quotes, brackets and commas only.

* `Json.depth`, `Json.widest`, `Json.inside` — how deep a value nests, how long its
  longest collection is, and how many names and values are inside of it;
* `wellFormed_stringify` — a text has no lone surrogates, so UTF-8 keeps it;
* `scan_stringify` — over the text of a value the scan counts just these;
* `isSafeJson_stringify` — so it passes every text within the limits.
-/
import LazyLayers.Json
import LazyLayers.MessagePack

open Js

namespace DecodeValidation

/-! ### The scan -/

/-- An open bracket: the byte that closes it, its items, and whether it has any. -/
structure JsonFrame where
  close : UInt8
  items : ℕ
  content : Bool
  deriving DecidableEq, Repr

/-- Outside of strings, inside of one, and behind a backslash there. -/
inductive Mode
  | plain
  | quoted
  | escaped
  deriving DecidableEq, Repr

/-- `current.content = true`, if there is a current frame. -/
def touch : List JsonFrame → List JsonFrame
  | [] => []
  | frame :: stack => { frame with content := true } :: stack

variable (limits : ResolvedDecodeLimits)

/-- A byte outside of strings; `none` refuses the text. -/
def scanByte (byte : UInt8) (stack : List JsonFrame) (totalValues : ℕ) :
    Option (Mode × List JsonFrame × ℕ) :=
  if byte = 34 then some (.quoted, touch stack, totalValues)
  else if byte = 123 ∨ byte = 91 then
    if limits.maxDepth ≤ stack.length then none
    else some (.plain, ⟨if byte = 123 then 125 else 93, 1, false⟩ :: touch stack, totalValues)
  else match stack with
    | [] => if byte = 125 ∨ byte = 93 then none else some (.plain, [], totalValues)
    | frame :: below =>
      if byte = 125 ∨ byte = 93 then
        if frame.close ≠ byte then none
        else if frame.content ∧ limits.maxCollectionLength < frame.items then none
        else
          let totalValues := if frame.content then
            totalValues + frame.items * (if frame.close = 125 then 2 else 1) else totalValues
          if limits.maxTotalValues < totalValues then none else some (.plain, below, totalValues)
      else if byte = 44 then
        if limits.maxCollectionLength < frame.items + 1 then none
        else some (.plain, { frame with items := frame.items + 1 } :: below, totalValues)
      else if byte ≠ 32 ∧ byte ≠ 9 ∧ byte ≠ 10 ∧ byte ≠ 13 then
        some (.plain, { frame with content := true } :: below, totalValues)
      else some (.plain, frame :: below, totalValues)

/-- The loop over the bytes. -/
def scan : Bytes → Mode → List JsonFrame → ℕ → Bool
  | [], mode, stack, _ => mode = .plain && stack = []
  | _ :: rest, .escaped, stack, totalValues => scan rest .quoted stack totalValues
  | byte :: rest, .quoted, stack, totalValues =>
    if byte = 92 then scan rest .escaped stack totalValues
    else if byte = 34 then scan rest .plain stack totalValues
    else scan rest .quoted stack totalValues
  | byte :: rest, .plain, stack, totalValues =>
    match scanByte limits byte stack totalValues with
    | none => false
    | some (mode, stack, totalValues) => scan rest mode stack totalValues

def isSafeJson (input : Bytes) : Bool :=
  if limits.maxDecodedBytes < input.length then false else scan limits input .plain [] 1

end DecodeValidation

namespace Js

variable {N : Type}

/-! ### Measures of values -/

mutual

def Json.depth : Json N → ℕ
  | .arr items => depthItems items + 1
  | .obj members => depthMembers members + 1
  | _ => 0

def depthItems : List (Json N) → ℕ
  | [] => 0
  | v :: vs => max v.depth (depthItems vs)

def depthMembers : List (JsString × Json N) → ℕ
  | [] => 0
  | (_, v) :: ms => max v.depth (depthMembers ms)

end

mutual

/-- The length of the longest array or object. -/
def Json.widest : Json N → ℕ
  | .arr items => max items.length (widestItems items)
  | .obj members => max members.length (widestMembers members)
  | _ => 0

def widestItems : List (Json N) → ℕ
  | [] => 0
  | v :: vs => max v.widest (widestItems vs)

def widestMembers : List (JsString × Json N) → ℕ
  | [] => 0
  | (_, v) :: ms => max v.widest (widestMembers ms)

end

mutual

/-- The names and values inside of a value. -/
def Json.inside : Json N → ℕ
  | .arr items => items.length + insideItems items
  | .obj members => members.length * 2 + insideMembers members
  | _ => 0

def insideItems : List (Json N) → ℕ
  | [] => 0
  | v :: vs => v.inside + insideItems vs

def insideMembers : List (JsString × Json N) → ℕ
  | [] => 0
  | (_, v) :: ms => v.inside + insideMembers ms

end

/-! ### Texts have no lone surrogates -/

theorem wellFormed_append {s t : JsString} (hs : wellFormed s) (ht : wellFormed t) :
    wellFormed (s ++ t) := by
  rw [wellFormed, scalars_append hs, List.all_append]
  exact Bool.and_eq_true_iff.mpr ⟨hs, ht⟩

theorem wellFormed_of_ascii {s : JsString} (h : ∀ u ∈ s, u.toNat < 128) : wellFormed s := by
  induction s with
  | nil => rfl
  | cons u s ih =>
    have hu := h u List.mem_cons_self
    have hhigh : ¬ isHigh u := by simp [isHigh]; omega
    have hlow : ¬ isLow u := by simp [isLow]; omega
    rw [wellFormed, scalars_cons hhigh hlow]
    exact ih fun v hv => h v (List.mem_cons_of_mem _ hv)

theorem lowerHexDigit_lt {n : ℕ} (h : n < 16) : (lowerHexDigit n).toNat < 128 ∧
    lowerHexDigit n ≠ 34 ∧ lowerHexDigit n ≠ 92 := by
  revert n
  decide

theorem ascii_unicodeEscape (u : UInt16) : ∀ v ∈ unicodeEscape u, v.toNat < 128 := by
  have hu := u.toNat_lt
  intro v hv
  simp only [unicodeEscape, List.mem_cons, List.not_mem_nil, or_false] at hv
  rcases hv with rfl | rfl | rfl | rfl | rfl | rfl
  · decide
  · decide
  · exact (lowerHexDigit_lt (by omega)).1
  · exact (lowerHexDigit_lt (by omega)).1
  · exact (lowerHexDigit_lt (by omega)).1
  · exact (lowerHexDigit_lt (by omega)).1

theorem wellFormed_unicodeEscape (u : UInt16) : wellFormed (unicodeEscape u) :=
  wellFormed_of_ascii (ascii_unicodeEscape u)

theorem wellFormed_quoteUnit {u : UInt16} (hh : ¬ isHigh u) (hl : ¬ isLow u) :
    wellFormed (quoteUnit u) := by
  rw [quoteUnit]
  split_ifs
  iterate 7 exact wellFormed_of_ascii (by decide)
  · exact wellFormed_unicodeEscape u
  · rw [wellFormed, scalars_cons hh hl]
    rfl

theorem wellFormed_quoteUnits (s : JsString) : wellFormed (quoteUnits s) := by
  induction s using quoteUnits.induct with
  | case1 => rfl
  | case2 u h =>
    rw [quoteUnits, if_pos h]
    exact wellFormed_unicodeEscape u
  | case3 u h =>
    rw [quoteUnits, if_neg h]
    rw [Bool.or_eq_true, not_or] at h
    exact wellFormed_quoteUnit h.1 h.2
  | case4 u v s hu hv ih =>
    rw [quoteUnits, if_pos hu, if_pos hv, wellFormed, scalars, if_pos hu, if_pos hv]
    exact ih
  | case5 u v s hu hv ih =>
    rw [quoteUnits, if_pos hu, if_neg hv]
    exact wellFormed_append (wellFormed_unicodeEscape u) ih
  | case6 u v s hu hl ih =>
    rw [quoteUnits, if_neg hu, if_pos hl]
    exact wellFormed_append (wellFormed_unicodeEscape u) ih
  | case7 u v s hu hl ih =>
    rw [quoteUnits, if_neg hu, if_neg hl]
    exact wellFormed_append (wellFormed_quoteUnit hu hl) ih

theorem wellFormed_cons {u : UInt16} {s : JsString} (hu : u.toNat < 128) (hs : wellFormed s) :
    wellFormed (u :: s) :=
  @wellFormed_append [u] s (wellFormed_of_ascii (by simpa using hu)) hs

theorem wellFormed_quote (s : JsString) : wellFormed (quote s) :=
  wellFormed_cons (by decide) (wellFormed_append (wellFormed_quoteUnits s) (by decide))

theorem ascii_of_isNumberUnit {u : UInt16} (h : isNumberUnit u = true) : u.toNat < 128 := by
  by_contra hge
  have hne : ∀ c : UInt16, c.toNat < 128 → u ≠ c := by
    rintro c hc rfl
    exact hge hc
  have hdigit : isDigit u = false := by
    rw [isDigit, Bool.and_eq_false_iff]
    right
    rw [decide_eq_false_iff_not, UInt16.le_iff_toNat_le]
    show ¬ u.toNat ≤ 57
    omega
  simp [isNumberUnit, hdigit, hne 45 (by decide), hne 43 (by decide), hne 46 (by decide),
    hne 101 (by decide), hne 69 (by decide)] at h

theorem ascii_toText (T : NumberText N) (n : N) : ∀ u ∈ T.toText n, u.toNat < 128 :=
  fun _ hu => ascii_of_isNumberUnit (isNumberUnit_toText T hu)

variable (T : NumberText N)

mutual

theorem wellFormed_stringify : ∀ v : Json N, wellFormed (stringify T v)
  | .null => by
    show wellFormed (str "null") = true
    decide
  | .bool true => by
    show wellFormed (str "true") = true
    decide
  | .bool false => by
    show wellFormed (str "false") = true
    decide
  | .num n => wellFormed_of_ascii (ascii_toText T n)
  | .str s => wellFormed_quote s
  | .arr items => by
    rw [stringify]
    exact wellFormed_cons (by decide)
      (wellFormed_append (wellFormed_stringifyItems items) (by decide))
  | .obj members => by
    rw [stringify]
    exact wellFormed_cons (by decide)
      (wellFormed_append (wellFormed_stringifyMembers members) (by decide))

theorem wellFormed_stringifyItems : ∀ vs : List (Json N), wellFormed (stringifyItems T vs)
  | [] => rfl
  | [v] => by
    rw [stringifyItems]
    exact wellFormed_stringify v
  | v :: w :: vs => by
    rw [stringifyItems]
    exact wellFormed_append (wellFormed_stringify v)
      (wellFormed_cons (by decide) (wellFormed_stringifyItems (w :: vs)))

theorem wellFormed_stringifyMembers : ∀ ms : List (JsString × Json N),
    wellFormed (stringifyMembers T ms)
  | [] => rfl
  | [(name, v)] => by
    rw [stringifyMembers]
    exact wellFormed_append (wellFormed_quote name)
      (wellFormed_cons (by decide) (wellFormed_stringify v))
  | (name, v) :: m :: ms => by
    rw [stringifyMembers]
    exact wellFormed_append (wellFormed_quote name) (wellFormed_cons (by decide)
      (wellFormed_append (wellFormed_stringify v)
        (wellFormed_cons (by decide) (wellFormed_stringifyMembers (m :: ms)))))

end

end Js

namespace DecodeValidation

variable {limits : ResolvedDecodeLimits} {N : Type}

/-! ### Inside of strings -/

section Quoted

variable {stack : List JsonFrame} {totalValues : ℕ}

/-- Bytes that are neither a backslash nor a quote are passed over. -/
theorem scan_quoted {bytes : Bytes} (h : ∀ b ∈ bytes, b ≠ 92 ∧ b ≠ 34) (rest : Bytes) :
    scan limits (bytes ++ rest) .quoted stack totalValues =
      scan limits rest .quoted stack totalValues := by
  induction bytes with
  | nil => rfl
  | cons b bytes ih =>
    obtain ⟨h92, h34⟩ := h b List.mem_cons_self
    rw [List.cons_append, scan, if_neg h92, if_neg h34]
    exact ih fun b' hb' => h b' (List.mem_cons_of_mem _ hb')

theorem scan_escaped (u : UInt8) (rest : Bytes) :
    scan limits (92 :: u :: rest) .quoted stack totalValues =
      scan limits rest .quoted stack totalValues := by
  rw [scan, if_pos rfl, scan]

/-- The encoding of a character holds no quote and no backslash but that character. -/
theorem scan_char {c : Char} (h34 : c.toNat ≠ 34) (h92 : c.toNat ≠ 92) (rest : Bytes) :
    scan limits (String.utf8EncodeChar c ++ rest) .quoted stack totalValues =
      scan limits rest .quoted stack totalValues := by
  refine scan_quoted (fun b hb => ?_) rest
  have hmem : b.toNat ∈ (String.utf8EncodeChar c).map UInt8.toNat := List.mem_map_of_mem hb
  rw [toNat_utf8EncodeChar] at hmem
  have hne : b.toNat ≠ 92 ∧ b.toNat ≠ 34 := by
    split_ifs at hmem <;> simp only [List.mem_cons, List.not_mem_nil, or_false] at hmem <;> omega
  refine ⟨?_, ?_⟩
  · rintro rfl
    exact hne.1 rfl
  · rintro rfl
    exact hne.2 rfl

theorem scan_unicodeEscape (u : UInt16) (t : JsString) (rest : Bytes) :
    scan limits (utf8 (unicodeEscape u ++ t) ++ rest) .quoted stack totalValues =
      scan limits (utf8 t ++ rest) .quoted stack totalValues := by
  have hu := u.toNat_lt
  rw [utf8_ascii_append (ascii_unicodeEscape u), List.append_assoc]
  show scan limits (92 :: 117 :: ([lowerHexDigit (u.toNat / 4096),
    lowerHexDigit (u.toNat / 256 % 16), lowerHexDigit (u.toNat / 16 % 16),
    lowerHexDigit (u.toNat % 16)].map (fun u => UInt8.ofNat u.toNat) ++ _)) _ _ _ = _
  rw [scan_escaped]
  refine scan_quoted (fun b hb => ?_) _
  obtain ⟨v, hv, rfl⟩ := List.mem_map.mp hb
  have hdigit : v.toNat < 128 ∧ v ≠ 34 ∧ v ≠ 92 := by
    simp only [List.mem_cons, List.not_mem_nil, or_false] at hv
    rcases hv with rfl | rfl | rfl | rfl <;> exact lowerHexDigit_lt (by omega)
  have hnat : (UInt8.ofNat v.toNat).toNat = v.toNat := by
    rw [UInt8.toNat_ofNat']
    omega
  have hne : ∀ k : UInt16, v ≠ k → v.toNat ≠ k.toNat := fun k hk h => hk (UInt16.toNat_inj.mp h)
  refine ⟨?_, ?_⟩
  · intro h
    rw [h] at hnat
    exact hne 92 hdigit.2.2 hnat.symm
  · intro h
    rw [h] at hnat
    exact hne 34 hdigit.2.1 hnat.symm

theorem scan_quoteUnit {u : UInt16} (hh : ¬ isHigh u) (hl : ¬ isLow u) (t : JsString)
    (rest : Bytes) :
    scan limits (utf8 (quoteUnit u ++ t) ++ rest) .quoted stack totalValues =
      scan limits (utf8 t ++ rest) .quoted stack totalValues := by
  have hescape : ∀ {a : UInt16}, a.toNat < 128 →
      scan limits (utf8 ([92, a] ++ t) ++ rest) .quoted stack totalValues =
        scan limits (utf8 t ++ rest) .quoted stack totalValues := by
    intro a ha
    rw [List.cons_append, utf8_cons_ascii (by decide), List.singleton_append, utf8_cons_ascii ha]
    exact scan_escaped _ _
  rw [quoteUnit]
  split_ifs with h8 h9 h10 h12 h13 h34 h92 h32
  iterate 7 exact hescape (by decide)
  · exact scan_unicodeEscape u t rest
  · have hvalid : u.toNat < 0xD800 ∨ (0xDFFF < u.toNat ∧ u.toNat < 0x110000) := by
      have hlt := u.toNat_lt
      simp only [isHigh, isLow, Bool.and_eq_true, decide_eq_true_eq] at hh hl
      omega
    have hutf : utf8 ([u] ++ t) = String.utf8EncodeChar (Char.ofNat u.toNat) ++ utf8 t := by
      rw [List.singleton_append, utf8, scalars_cons hh hl, List.flatMap_cons, Option.getD_some, utf8]
    rw [hutf, List.append_assoc]
    refine scan_char ?_ ?_ _
    · rw [toNat_ofNat hvalid]
      exact fun h => h34 (UInt16.toNat_inj.mp h)
    · rw [toNat_ofNat hvalid]
      exact fun h => h92 (UInt16.toNat_inj.mp h)

theorem scan_quoteUnits (s : JsString) (rest : Bytes) :
    scan limits (utf8 (quoteUnits s) ++ rest) .quoted stack totalValues =
      scan limits rest .quoted stack totalValues := by
  induction s using quoteUnits.induct with
  | case1 => rfl
  | case2 u h =>
    rw [quoteUnits, if_pos h, ← List.append_nil (unicodeEscape u)]
    exact scan_unicodeEscape u [] rest
  | case3 u h =>
    rw [quoteUnits, if_neg h, ← List.append_nil (quoteUnit u)]
    rw [Bool.or_eq_true, not_or] at h
    exact scan_quoteUnit h.1 h.2 [] rest
  | case4 u v s hu hv ih =>
    have hutf : utf8 (u :: v :: quoteUnits s) =
        String.utf8EncodeChar (pair u v) ++ utf8 (quoteUnits s) := by
      rw [utf8, scalars, if_pos hu, if_pos hv, List.flatMap_cons, Option.getD_some, utf8]
    have hpair : 0x10000 ≤ (pair u v).toNat := by
      simp only [isHigh, isLow, Bool.and_eq_true, decide_eq_true_eq] at hu hv
      have hnat : (pair u v).toNat =
          0x10000 + (u.toNat - 0xD800) * 0x400 + (v.toNat - 0xDC00) := toNat_ofNat (by omega)
      omega
    rw [quoteUnits, if_pos hu, if_pos hv, hutf, List.append_assoc, scan_char (by omega) (by omega),
      ih]
  | case5 u v s hu hv ih =>
    rw [quoteUnits, if_pos hu, if_neg hv, scan_unicodeEscape, ih]
  | case6 u v s hu hl ih =>
    rw [quoteUnits, if_neg hu, if_pos hl, scan_unicodeEscape, ih]
  | case7 u v s hu hl ih =>
    rw [quoteUnits, if_neg hu, if_neg hl, scan_quoteUnit hu hl, ih]

theorem scan_quote (s t : JsString) (rest : Bytes) :
    scan limits (utf8 (quote s ++ t) ++ rest) .plain stack totalValues =
      scan limits (utf8 t ++ rest) .plain (touch stack) totalValues := by
  have hutf : utf8 (quote s ++ t) = 34 :: (utf8 (quoteUnits s) ++ 34 :: utf8 t) := by
    rw [parseString_quote, utf8_cons_ascii (by decide), utf8_append (wellFormed_quoteUnits s),
      utf8_cons_ascii (by decide)]
    rfl
  have hopen : ∀ bytes, scan limits (34 :: bytes) .plain stack totalValues =
      scan limits bytes .quoted (touch stack) totalValues := fun _ => rfl
  have hclose : ∀ bytes, scan limits (34 :: bytes) .quoted (touch stack) totalValues =
      scan limits bytes .plain (touch stack) totalValues := fun _ => rfl
  rw [hutf, List.cons_append, List.append_assoc, hopen, scan_quoteUnits, List.cons_append, hclose]

end Quoted

/-! ### Between strings -/

/-- A byte that opens, closes and separates nothing. -/
def Neutral (b : UInt8) : Prop :=
  b ≠ 34 ∧ b ≠ 123 ∧ b ≠ 91 ∧ b ≠ 125 ∧ b ≠ 93 ∧ b ≠ 44 ∧ b ≠ 32 ∧ b ≠ 9 ∧ b ≠ 10 ∧ b ≠ 13

instance (b : UInt8) : Decidable (Neutral b) := inferInstanceAs (Decidable (_ ∧ _))

theorem touch_touch (stack : List JsonFrame) : touch (touch stack) = touch stack := by
  cases stack <;> rfl

@[simp] theorem length_touch (stack : List JsonFrame) : (touch stack).length = stack.length := by
  cases stack <;> rfl

section Plain

variable {stack : List JsonFrame} {totalValues : ℕ}

theorem scan_of_scanByte {b : UInt8} {stack' : List JsonFrame} {mode : Mode} {total : ℕ}
    (h : scanByte limits b stack totalValues = some (mode, stack', total)) (rest : Bytes) :
    scan limits (b :: rest) .plain stack totalValues = scan limits rest mode stack' total := by
  rw [scan, h]

theorem scan_neutral {b : UInt8} (h : Neutral b) (rest : Bytes) :
    scan limits (b :: rest) .plain stack totalValues =
      scan limits rest .plain (touch stack) totalValues := by
  obtain ⟨h34, h123, h91, h125, h93, h44, h32, h9, h10, h13⟩ := h
  refine scan_of_scanByte ?_ rest
  rw [scanByte.eq_def, if_neg h34, if_neg fun h => h.elim h123 h91]
  cases stack with
  | nil => exact if_neg fun h => h.elim h125 h93
  | cons frame below =>
    dsimp only
    rw [if_neg fun h => h.elim h125 h93, if_neg h44]
    exact if_pos ⟨h32, h9, h10, h13⟩

theorem scan_neutrals {bytes : Bytes} : ∀ {stack : List JsonFrame}, bytes ≠ [] →
    (∀ b ∈ bytes, Neutral b) → ∀ rest, scan limits (bytes ++ rest) .plain stack totalValues =
      scan limits rest .plain (touch stack) totalValues := by
  induction bytes with
  | nil =>
    intro stack hne
    exact absurd rfl hne
  | cons b bytes ih =>
    intro stack _ h rest
    rw [List.cons_append, scan_neutral (h b List.mem_cons_self)]
    by_cases hnil : bytes = []
    · rw [hnil, List.nil_append]
    · rw [ih hnil fun b' hb' => h b' (List.mem_cons_of_mem _ hb'), touch_touch]

/-- A bracket and its closing byte, with the weight of an item: those of an object
count twice, for their names. -/
def Bracket (start close : UInt8) (weight : ℕ) : Prop :=
  (start = 123 ∧ close = 125 ∧ weight = 2) ∨ (start = 91 ∧ close = 93 ∧ weight = 1)

/-- Opening a bracket within the depth limit. -/
theorem scan_open {b close : UInt8} {weight : ℕ} (hb : Bracket b close weight)
    (hdepth : stack.length < limits.maxDepth) (rest : Bytes) :
    scan limits (b :: rest) .plain stack totalValues =
      scan limits rest .plain (⟨close, 1, false⟩ :: touch stack) totalValues := by
  refine scan_of_scanByte ?_ rest
  rcases hb with ⟨rfl, rfl, -⟩ | ⟨rfl, rfl, -⟩
  · rw [scanByte.eq_def, if_neg (by decide), if_pos (.inl rfl), if_neg (by omega), if_pos rfl]
  · rw [scanByte.eq_def, if_neg (by decide), if_pos (.inr rfl), if_neg (by omega), if_neg (by decide)]

/-- Closing an empty bracket. -/
theorem scan_close_empty {b close : UInt8} {weight items : ℕ} (hb : Bracket b close weight)
    (htotal : totalValues ≤ limits.maxTotalValues) (rest : Bytes) :
    scan limits (close :: rest) .plain (⟨close, items, false⟩ :: stack) totalValues =
      scan limits rest .plain stack totalValues := by
  refine scan_of_scanByte ?_ rest
  have hno : ¬ limits.maxTotalValues < totalValues := by omega
  rcases hb with ⟨-, rfl, -⟩ | ⟨-, rfl, -⟩ <;> simp [scanByte, hno]

/-- Closing a bracket counts its items. -/
theorem scan_close {b close : UInt8} {weight items : ℕ} (hb : Bracket b close weight)
    (hitems : items ≤ limits.maxCollectionLength)
    (htotal : totalValues + items * weight ≤ limits.maxTotalValues) (rest : Bytes) :
    scan limits (close :: rest) .plain (⟨close, items, true⟩ :: stack) totalValues =
      scan limits rest .plain stack (totalValues + items * weight) := by
  refine scan_of_scanByte ?_ rest
  have hlong : ¬ limits.maxCollectionLength < items := by omega
  have hmany : ¬ limits.maxTotalValues < totalValues + items * weight := by omega
  rcases hb with ⟨-, rfl, rfl⟩ | ⟨-, rfl, rfl⟩
  · simp [scanByte, hlong, hmany]
  · rw [Nat.mul_one] at hmany ⊢
    simp [scanByte, hlong, hmany]

theorem scan_comma {close : UInt8} {items : ℕ} {content : Bool}
    (hitems : items + 1 ≤ limits.maxCollectionLength) (rest : Bytes) :
    scan limits (44 :: rest) .plain (⟨close, items, content⟩ :: stack) totalValues =
      scan limits rest .plain (⟨close, items + 1, content⟩ :: stack) totalValues := by
  refine scan_of_scanByte ?_ rest
  have hno : ¬ limits.maxCollectionLength < items + 1 := by omega
  simp [scanByte, hno]

end Plain

theorem neutral_of_isNumberUnit {u : UInt16} (h : isNumberUnit u = true) :
    Neutral (UInt8.ofNat u.toNat) := by
  have hlow : u.toNat < 128 := ascii_of_isNumberUnit h
  have hall : ∀ k < 128, isNumberUnit (UInt16.ofNat k) = true →
      Neutral (UInt8.ofNat (UInt16.ofNat k).toNat) := by decide
  have hu : UInt16.ofNat u.toNat = u := UInt16.ofNat_toNat
  have hk := hall u.toNat hlow
  rw [hu] at hk
  exact hk h

/-! ### The scan of a text -/

variable (T : NumberText N)

theorem scan_ascii {s : JsString} {stack : List JsonFrame} {totalValues : ℕ} (hne : s ≠ [])
    (h : ∀ u ∈ s, u.toNat < 128 ∧ Neutral (UInt8.ofNat u.toNat)) (rest : Bytes) :
    scan limits (utf8 s ++ rest) .plain stack totalValues =
      scan limits rest .plain (touch stack) totalValues := by
  rw [← List.append_nil s, utf8_ascii_append (fun u hu => (h u hu).1), List.append_assoc]
  refine scan_neutrals (by simpa using hne) (fun b hb => ?_) _
  obtain ⟨u, hu, rfl⟩ := List.mem_map.mp hb
  exact (h u hu).2

/-- The text of a bracket: what is between is scanned in a frame of its own. -/
theorem scan_between {start close : UInt16} {weight n count : ℕ} {text : JsString}
    {stack : List JsonFrame} {totalValues : ℕ} {rest : Bytes}
    (hb : Bracket (UInt8.ofNat start.toNat) (UInt8.ofNat close.toNat) weight)
    (hstart : start.toNat < 128) (hclose : close.toNat < 128) (hwell : wellFormed text)
    (hdepth : stack.length < limits.maxDepth) (hn : n ≤ limits.maxCollectionLength)
    (htotal : totalValues + (n * weight + count) ≤ limits.maxTotalValues)
    (hempty : n = 0 → text = [] ∧ count = 0)
    (htext : n ≠ 0 → ∀ rest, scan limits (utf8 text ++ rest) .plain
        (⟨UInt8.ofNat close.toNat, 1, false⟩ :: touch stack) totalValues =
      scan limits rest .plain (⟨UInt8.ofNat close.toNat, n, true⟩ :: touch stack)
        (totalValues + count)) :
    scan limits (utf8 (start :: (text ++ [close])) ++ rest) .plain stack totalValues =
      scan limits rest .plain (touch stack) (totalValues + (n * weight + count)) := by
  have hutf : utf8 (start :: (text ++ [close])) =
      UInt8.ofNat start.toNat :: (utf8 text ++ [UInt8.ofNat close.toNat]) := by
    rw [utf8_cons_ascii hstart, utf8_append hwell, utf8_cons_ascii hclose]
    rfl
  rw [hutf, List.cons_append, List.append_assoc, List.singleton_append, scan_open hb hdepth]
  by_cases hzero : n = 0
  · obtain ⟨rfl, rfl⟩ := hempty hzero
    subst hzero
    show scan limits (UInt8.ofNat close.toNat :: rest) _ _ _ = _
    rw [scan_close_empty hb (by omega), Nat.zero_mul]
    rfl
  · rw [htext hzero, scan_close hb hn (by omega)]
    congr 1
    omega

mutual

/-- Over the text of a value the scan counts what is inside of it. -/
theorem scan_stringify : ∀ (v : Json N) {stack : List JsonFrame} {totalValues : ℕ},
    v.depth + stack.length ≤ limits.maxDepth → v.widest ≤ limits.maxCollectionLength →
    totalValues + v.inside ≤ limits.maxTotalValues → ∀ rest,
    scan limits (utf8 (stringify T v) ++ rest) .plain stack totalValues =
      scan limits rest .plain (touch stack) (totalValues + v.inside)
  | .null, _, _, _, _, _, rest => @scan_ascii limits (str "null") _ _ (by decide) (by decide) rest
  | .bool true, _, _, _, _, _, rest => @scan_ascii limits (str "true") _ _ (by decide) (by decide) rest
  | .bool false, _, _, _, _, _, rest => @scan_ascii limits (str "false") _ _ (by decide) (by decide) rest
  | .num n, _, _, _, _, _, rest => by
    refine scan_ascii ?_ (fun u hu => ?_) rest
    · obtain ⟨u, s, htext, -⟩ := exists_head_toText T n
      rw [stringify, htext]
      exact List.cons_ne_nil _ _
    · have hunit := isNumberUnit_toText T hu
      exact ⟨ascii_of_isNumberUnit hunit, neutral_of_isNumberUnit hunit⟩
  | .str s, stack, _, _, _, _, rest => by
    rw [stringify, ← List.append_nil (quote s), scan_quote]
    rfl
  | .arr items, stack, totalValues, hdepth, hwide, htotal, rest => by
    rw [Json.depth] at hdepth
    rw [Json.widest] at hwide
    rw [Json.inside] at htotal
    rw [stringify, Json.inside, ← Nat.mul_one items.length]
    refine scan_between (.inr ⟨rfl, rfl, rfl⟩) (by decide) (by decide)
      (wellFormed_stringifyItems T items) (by omega) (by omega) (by omega) ?_ ?_
    · intro hzero
      obtain rfl := List.length_eq_zero_iff.mp hzero
      exact ⟨rfl, rfl⟩
    · intro hne rest
      have h := @scan_stringifyItems items 93 0 false (touch stack) totalValues
        (by rintro rfl; exact hne rfl) (by rw [length_touch]; omega) (by omega) (by omega)
        (by omega) rest
      rw [Nat.zero_add items.length] at h
      exact h
  | .obj members, stack, totalValues, hdepth, hwide, htotal, rest => by
    rw [Json.depth] at hdepth
    rw [Json.widest] at hwide
    rw [Json.inside] at htotal
    rw [stringify, Json.inside]
    refine scan_between (.inl ⟨rfl, rfl, rfl⟩) (by decide) (by decide)
      (wellFormed_stringifyMembers T members) (by omega) (by omega) (by omega) ?_ ?_
    · intro hzero
      obtain rfl := List.length_eq_zero_iff.mp hzero
      exact ⟨rfl, rfl⟩
    · intro hne rest
      have h := @scan_stringifyMembers members 125 0 false (touch stack) totalValues
        (by rintro rfl; exact hne rfl) (by rw [length_touch]; omega) (by omega) (by omega)
        (by omega) rest
      rw [Nat.zero_add members.length] at h
      exact h

/-- The items of an array, behind `k` others. -/
theorem scan_stringifyItems : ∀ (vs : List (Json N)) {close : UInt8} {k : ℕ} {content : Bool}
    {stack : List JsonFrame} {totalValues : ℕ}, vs ≠ [] →
    depthItems vs + (stack.length + 1) ≤ limits.maxDepth →
    widestItems vs ≤ limits.maxCollectionLength → k + vs.length ≤ limits.maxCollectionLength →
    totalValues + insideItems vs ≤ limits.maxTotalValues → ∀ rest,
    scan limits (utf8 (stringifyItems T vs) ++ rest) .plain (⟨close, k + 1, content⟩ :: stack)
        totalValues =
      scan limits rest .plain (⟨close, k + vs.length, true⟩ :: stack)
        (totalValues + insideItems vs)
  | [], _, _, _, _, _, hne, _, _, _, _, _ => absurd rfl hne
  | [v], close, k, content, stack, totalValues, _, hdepth, hwide, _, htotal, rest => by
    simp only [depthItems, widestItems, insideItems] at hdepth hwide htotal
    rw [stringifyItems, scan_stringify v (by rw [List.length_cons]; omega) (by omega) (by omega)]
    rfl
  | v :: w :: vs, close, k, content, stack, totalValues, _, hdepth, hwide, hlen, htotal, rest => by
    rw [depthItems] at hdepth
    rw [widestItems] at hwide
    rw [insideItems] at htotal
    rw [List.length_cons] at hlen
    rw [stringifyItems, utf8_append (wellFormed_stringify T v), utf8_cons_ascii (by decide),
      List.append_assoc, scan_stringify v (by rw [List.length_cons]; omega) (by omega) (by omega)]
    show scan limits (44 :: (utf8 (stringifyItems T (w :: vs)) ++ rest)) .plain
      (⟨close, k + 1, true⟩ :: stack) _ = _
    rw [List.length_cons] at hlen
    rw [scan_comma (by omega), scan_stringifyItems (w :: vs) (List.cons_ne_nil _ _) (by omega)
      (by omega) (by rw [List.length_cons]; omega) (by omega)]
    congr 1
    · rw [List.length_cons, List.length_cons, List.length_cons]
      congr 2
      omega
    · exact Nat.add_assoc _ _ _

/-- The members of an object, behind `k` others. -/
theorem scan_stringifyMembers : ∀ (ms : List (JsString × Json N)) {close : UInt8} {k : ℕ}
    {content : Bool} {stack : List JsonFrame} {totalValues : ℕ}, ms ≠ [] →
    depthMembers ms + (stack.length + 1) ≤ limits.maxDepth →
    widestMembers ms ≤ limits.maxCollectionLength →
    k + ms.length ≤ limits.maxCollectionLength →
    totalValues + insideMembers ms ≤ limits.maxTotalValues → ∀ rest,
    scan limits (utf8 (stringifyMembers T ms) ++ rest) .plain
        (⟨close, k + 1, content⟩ :: stack) totalValues =
      scan limits rest .plain (⟨close, k + ms.length, true⟩ :: stack)
        (totalValues + insideMembers ms)
  | [], _, _, _, _, _, hne, _, _, _, _, _ => absurd rfl hne
  | [(name, v)], close, k, content, stack, totalValues, _, hdepth, hwide, _, htotal, rest => by
    simp only [depthMembers, widestMembers, insideMembers] at hdepth hwide htotal
    rw [stringifyMembers, scan_quote, utf8_cons_ascii (by decide), List.cons_append,
      scan_neutral (by decide), scan_stringify v
        (by rw [length_touch, length_touch, List.length_cons]; omega) (by omega) (by omega)]
    rfl
  | (name, v) :: m :: ms, close, k, content, stack, totalValues, _, hdepth, hwide, hlen, htotal,
      rest => by
    rw [depthMembers] at hdepth
    rw [widestMembers] at hwide
    rw [insideMembers] at htotal
    rw [List.length_cons] at hlen
    rw [stringifyMembers, scan_quote, utf8_cons_ascii (by decide), List.cons_append,
      scan_neutral (by decide), utf8_append (wellFormed_stringify T v),
      utf8_cons_ascii (by decide), List.append_assoc, scan_stringify v
        (by rw [length_touch, length_touch, List.length_cons]; omega) (by omega) (by omega)]
    show scan limits (44 :: (utf8 (stringifyMembers T (m :: ms)) ++ rest)) .plain
      (⟨close, k + 1, true⟩ :: stack) _ = _
    rw [List.length_cons] at hlen
    rw [scan_comma (by omega), scan_stringifyMembers (m :: ms) (List.cons_ne_nil _ _) (by omega)
      (by omega) (by rw [List.length_cons]; omega) (by omega)]
    congr 1
    · rw [List.length_cons, List.length_cons, List.length_cons]
      congr 2
      omega
    · exact Nat.add_assoc _ _ _

end

/-- The text of a value within the limits is accepted. -/
theorem isSafeJson_stringify {v : Json N}
    (hbytes : (utf8 (stringify T v)).length ≤ limits.maxDecodedBytes)
    (hdepth : v.depth ≤ limits.maxDepth) (hwide : v.widest ≤ limits.maxCollectionLength)
    (htotal : 1 + v.inside ≤ limits.maxTotalValues) :
    isSafeJson limits (utf8 (stringify T v)) = true := by
  rw [isSafeJson, if_neg (by omega)]
  have h := @scan_stringify limits N T v [] 1 hdepth hwide htotal []
  rw [List.append_nil] at h
  rw [h]
  rfl

end DecodeValidation
