/-
JavaScript strings and the standard functions on them.

A string is its list of UTF-16 code units.  `scalars` reads it as the runtime
does: a high surrogate followed by a low one is one character, a surrogate that
has no partner is no character at all.

* `utf8` — what `Buffer.from(s)` and the wire see: U+FFFD for lone surrogates;
* `encodeURIComponent` — `none` where the function throws;
* `base64url`, `utf16le` — the `Buffer` encodings of the same names;
* `decodeUtf8` — `Buffer.prototype.toString('utf8')`, with U+FFFD for what is not UTF-8.

The encodings are injective where the language promises it:
`encodeURIComponent_injective` on the strings it accepts, `base64url_injective`
and `utf16le_injective` everywhere.  `utf8` is not: it forgets which lone
surrogate it saw.
-/
import Mathlib.Tactic

abbrev JsString := List UInt16

namespace Js

/-- What is asked of every unit of a string, or of every byte of its encoding, is decided
unit by unit. -/
instance decidableUnits (p : UInt16 → Prop) [DecidablePred p] (s : JsString) :
    Decidable (∀ u ∈ s, p u) := List.decidableBAll p s

instance decidableBytes (p : UInt8 → Prop) [DecidablePred p] (s : List UInt8) :
    Decidable (∀ b ∈ s, p b) := List.decidableBAll p s

/-- The code units of an ASCII literal. -/
def str (s : String) : JsString := s.toList.map fun c => UInt16.ofNat c.toNat

def isHigh (u : UInt16) : Bool := 0xD800 ≤ u.toNat && u.toNat ≤ 0xDBFF

def isLow (u : UInt16) : Bool := 0xDC00 ≤ u.toNat && u.toNat ≤ 0xDFFF

/-- The character of a surrogate pair. -/
def pair (u v : UInt16) : Char :=
  Char.ofNat (0x10000 + (u.toNat - 0xD800) * 0x400 + (v.toNat - 0xDC00))

/-- The characters of a string, `none` standing for a lone surrogate. -/
def scalars : JsString → List (Option Char)
  | [] => []
  | [u] => if isHigh u || isLow u then [none] else [some (Char.ofNat u.toNat)]
  | u :: v :: s =>
    if isHigh u then
      if isLow v then some (pair u v) :: scalars s else none :: scalars (v :: s)
    else if isLow u then none :: scalars (v :: s)
    else some (Char.ofNat u.toNat) :: scalars (v :: s)

/-- `String.prototype.isWellFormed`. -/
def wellFormed (s : JsString) : Bool := (scalars s).all Option.isSome

/-- `Buffer.from(s, 'utf8')`: a lone surrogate becomes U+FFFD. -/
def utf8 (s : JsString) : List UInt8 :=
  (scalars s).flatMap fun c => String.utf8EncodeChar (c.getD (Char.ofNat 0xFFFD))

/-! ### `encodeURIComponent` -/

/-- `A-Z a-z 0-9 - _ . ! ~ * ' ( )`. -/
def isUnreserved (b : UInt8) : Bool :=
  (65 ≤ b && b ≤ 90) || (97 ≤ b && b ≤ 122) || (48 ≤ b && b ≤ 57) ||
    [45, 95, 46, 33, 126, 42, 39, 40, 41].contains b

/-- An upper-case hexadecimal digit. -/
def hexDigit (n : ℕ) : UInt16 := UInt16.ofNat (if n < 10 then 48 + n else 55 + n)

/-- One octet: itself, or `%XY`. -/
def percent (b : UInt8) : JsString :=
  if isUnreserved b then [UInt16.ofNat b.toNat]
  else [37, hexDigit (b.toNat / 16), hexDigit (b.toNat % 16)]

def encodeURIComponent (s : JsString) : Option JsString :=
  if wellFormed s then some ((utf8 s).flatMap percent) else none

/-! ### `Buffer` encodings -/

/-- `Buffer.from(s, 'utf16le')`. -/
def utf16le (s : JsString) : List UInt8 :=
  s.flatMap fun u => [UInt8.ofNat (u.toNat % 256), UInt8.ofNat (u.toNat / 256)]

/-- The base64url alphabet. -/
def base64Digit (n : ℕ) : UInt16 :=
  UInt16.ofNat (if n < 26 then 65 + n else if n < 52 then 71 + n else if n < 62 then n - 4
    else if n = 62 then 45 else 95)

/-- `Buffer.prototype.toString('base64url')`: no padding. -/
def base64url : List UInt8 → JsString
  | [] => []
  | [a] => [base64Digit (a.toNat / 4), base64Digit (a.toNat % 4 * 16)]
  | [a, b] =>
    [base64Digit (a.toNat / 4), base64Digit (a.toNat % 4 * 16 + b.toNat / 16),
      base64Digit (b.toNat % 16 * 4)]
  | a :: b :: c :: s =>
    base64Digit (a.toNat / 4) :: base64Digit (a.toNat % 4 * 16 + b.toNat / 16) ::
      base64Digit (b.toNat % 16 * 4 + c.toNat / 64) :: base64Digit (c.toNat % 64) :: base64url s

/-! ### Well-formed strings are determined by their characters -/

/-- The code units of a character. -/
def units (c : Char) : JsString :=
  if c.toNat < 0x10000 then [UInt16.ofNat c.toNat]
  else [UInt16.ofNat (0xD800 + (c.toNat - 0x10000) / 0x400),
    UInt16.ofNat (0xDC00 + (c.toNat - 0x10000) % 0x400)]

theorem toNat_ofNat {n : ℕ} (h : n < 0xD800 ∨ (0xDFFF < n ∧ n < 0x110000)) :
    (Char.ofNat n).toNat = n := by
  have hv : n.isValidChar := by
    rcases h with h | h
    · exact .inl h
    · exact .inr h
  rw [Char.ofNat, dif_pos hv]
  rfl

theorem units_pair {u v : UInt16} (hu : isHigh u) (hv : isLow v) : units (pair u v) = [u, v] := by
  simp only [isHigh, isLow, Bool.and_eq_true, decide_eq_true_eq] at hu hv
  have hnat : (pair u v).toNat =
      0x10000 + (u.toNat - 0xD800) * 0x400 + (v.toNat - 0xDC00) := toNat_ofNat (by omega)
  rw [units, if_neg (by omega), hnat]
  have hu' : UInt16.ofNat u.toNat = u := UInt16.ofNat_toNat
  have hv' : UInt16.ofNat v.toNat = v := UInt16.ofNat_toNat
  have h1 : 0xD800 + (0x10000 + (u.toNat - 0xD800) * 0x400 + (v.toNat - 0xDC00) - 0x10000) /
      0x400 = u.toNat := by omega
  have h2 : 0xDC00 + (0x10000 + (u.toNat - 0xD800) * 0x400 + (v.toNat - 0xDC00) - 0x10000) %
      0x400 = v.toNat := by omega
  rw [h1, h2, hu', hv']

theorem units_ofNat {u : UInt16} (hu : ¬ isHigh u) (hl : ¬ isLow u) :
    units (Char.ofNat u.toNat) = [u] := by
  have hlt : u.toNat < 0x10000 := u.toNat_lt
  simp only [isHigh, isLow, Bool.and_eq_true, decide_eq_true_eq] at hu hl
  rw [units, toNat_ofNat (by omega), if_pos hlt, UInt16.ofNat_toNat]

/-- A string without lone surrogates is the concatenation of its characters' units. -/
theorem eq_flatMap_units (s : JsString) : ∀ cs : List Char, scalars s = cs.map some →
    s = cs.flatMap units := by
  -- along the recursion of `scalars`; a `none` in the reading contradicts the hypothesis
  induction s using scalars.induct with
  | case1 =>
    intro cs h
    cases cs with
    | nil => rfl
    | cons c cs => simp [scalars] at h
  | case2 u hs =>
    intro cs h
    rw [scalars, if_pos hs] at h
    cases cs <;> simp at h
  | case3 u hs =>
    intro cs h
    rw [scalars, if_neg hs] at h
    simp only [Bool.or_eq_true, not_or] at hs
    cases cs with
    | nil => simp at h
    | cons c cs =>
      simp only [List.map_cons, List.cons.injEq, Option.some.injEq] at h
      obtain ⟨rfl, hnil⟩ := h
      obtain rfl : cs = [] := by simpa using hnil.symm
      rw [List.flatMap_cons, units_ofNat hs.1 hs.2]
      rfl
  | case4 u v s hu hv ih =>
    intro cs h
    rw [scalars, if_pos hu, if_pos hv] at h
    cases cs with
    | nil => simp at h
    | cons c cs =>
      simp only [List.map_cons, List.cons.injEq, Option.some.injEq] at h
      obtain ⟨rfl, hs⟩ := h
      rw [List.flatMap_cons, units_pair hu hv, ← ih cs hs]
      rfl
  | case5 u v s hu hv ih =>
    intro cs h
    rw [scalars, if_pos hu, if_neg hv] at h
    cases cs <;> simp at h
  | case6 u v s hu hl ih =>
    intro cs h
    rw [scalars, if_neg hu, if_pos hl] at h
    cases cs <;> simp at h
  | case7 u v s hu hl ih =>
    intro cs h
    rw [scalars, if_neg hu, if_neg hl] at h
    cases cs with
    | nil => simp at h
    | cons c cs =>
      simp only [List.map_cons, List.cons.injEq, Option.some.injEq] at h
      obtain ⟨rfl, hs⟩ := h
      rw [List.flatMap_cons, units_ofNat hu hl, ← ih cs hs]
      rfl

theorem exists_scalars_of_wellFormed {s : JsString} (h : wellFormed s) :
    ∃ cs : List Char, scalars s = cs.map some := by
  rw [wellFormed] at h
  generalize scalars s = l at h
  induction l with
  | nil => exact ⟨[], rfl⟩
  | cons c l ih =>
    rw [List.all_cons, Bool.and_eq_true] at h
    obtain ⟨cs, hcs⟩ := ih h.2
    obtain ⟨c, rfl⟩ := Option.isSome_iff_exists.mp h.1
    exact ⟨c :: cs, by rw [hcs]; rfl⟩

/-! ### Injectivity of the encodings -/

section PrefixFree

variable {α β : Type*} {f : α → List β}

/-- Concatenating the words of a prefix-free code loses nothing. -/
theorem flatMap_injective (hne : ∀ a, f a ≠ [])
    (hcode : ∀ a b x y, f a ++ x = f b ++ y → a = b ∧ x = y) :
    Function.Injective fun l : List α => l.flatMap f := by
  intro l
  induction l with
  | nil =>
    rintro (_ | ⟨b, m⟩) h
    · rfl
    · simp [hne] at h
  | cons a l ih =>
    rintro (_ | ⟨b, m⟩) h
    · simp [hne] at h
    · simp only [List.flatMap_cons] at h
      obtain ⟨rfl, hrest⟩ := hcode a b _ _ h
      rw [ih hrest]

end PrefixFree

theorem toNat_uint16_ofNat {n : ℕ} (h : n < 65536) : (UInt16.ofNat n).toNat = n := by
  rw [UInt16.toNat_ofNat']
  omega

theorem hexDigit_inj {m n : ℕ} (hm : m < 16) (hn : n < 16) (h : hexDigit m = hexDigit n) :
    m = n := by
  have hnat := congrArg UInt16.toNat h
  rw [hexDigit, hexDigit, toNat_uint16_ofNat (by split <;> omega),
    toNat_uint16_ofNat (by split <;> omega)] at hnat
  split_ifs at hnat <;> omega

theorem base64Digit_inj {m n : ℕ} (hm : m < 64) (hn : n < 64)
    (h : base64Digit m = base64Digit n) : m = n := by
  have hnat := congrArg UInt16.toNat h
  rw [base64Digit, base64Digit, toNat_uint16_ofNat (by split_ifs <;> omega),
    toNat_uint16_ofNat (by split_ifs <;> omega)] at hnat
  split_ifs at hnat <;> omega

theorem ofNat_toNat_inj {a b : UInt8} (h : UInt16.ofNat a.toNat = UInt16.ofNat b.toNat) :
    a = b := by
  have hnat := congrArg UInt16.toNat h
  have ha := a.toNat_lt
  have hb := b.toNat_lt
  rw [toNat_uint16_ofNat (by omega), toNat_uint16_ofNat (by omega)] at hnat
  exact UInt8.toNat_inj.mp hnat

theorem percent_code (a b : UInt8) (x y : JsString) (h : percent a ++ x = percent b ++ y) :
    a = b ∧ x = y := by
  have ha := a.toNat_lt
  have hb := b.toNat_lt
  -- `%` starts an escape and is itself escaped
  have h37 : ∀ c : UInt8, isUnreserved c → UInt16.ofNat c.toNat ≠ 37 := by
    intro c hc heq
    obtain rfl : c = 37 := ofNat_toNat_inj heq
    revert hc
    decide
  rw [percent, percent] at h
  by_cases hua : isUnreserved a <;> by_cases hub : isUnreserved b
  · rw [if_pos hua, if_pos hub] at h
    simp only [List.cons_append, List.nil_append, List.cons.injEq] at h
    exact ⟨ofNat_toNat_inj h.1, h.2⟩
  · rw [if_pos hua, if_neg hub] at h
    simp only [List.cons_append, List.cons.injEq] at h
    exact absurd h.1 (h37 a hua)
  · rw [if_neg hua, if_pos hub] at h
    simp only [List.cons_append, List.cons.injEq] at h
    exact absurd h.1.symm (h37 b hub)
  · rw [if_neg hua, if_neg hub] at h
    simp only [List.cons_append, List.nil_append, List.cons.injEq, true_and] at h
    have hhi := hexDigit_inj (by omega) (by omega) h.1
    have hlo := hexDigit_inj (by omega) (by omega) h.2.1
    exact ⟨UInt8.toNat_inj.mp (by omega), h.2.2⟩

theorem percent_ne_nil (b : UInt8) : percent b ≠ [] := by
  rw [percent]
  split <;> simp

theorem utf8_of_scalars {s : JsString} {cs : List Char} (h : scalars s = cs.map some) :
    utf8 s = cs.flatMap String.utf8EncodeChar := by
  rw [utf8, h, List.flatMap_map]
  rfl

theorem utf8EncodeChars_injective :
    Function.Injective fun cs : List Char => cs.flatMap String.utf8EncodeChar := by
  intro cs ds h
  have hbytes : cs.utf8Encode = ds.utf8Encode := congrArg List.toByteArray h
  have hdec := congrArg ByteArray.utf8Decode? hbytes
  rw [List.utf8Decode?_utf8Encode, List.utf8Decode?_utf8Encode] at hdec
  simpa using hdec

/-- On well-formed strings the UTF-8 octets determine the string. -/
theorem utf8_inj {s t : JsString} (hs : wellFormed s) (ht : wellFormed t) (h : utf8 s = utf8 t) :
    s = t := by
  obtain ⟨cs, hcs⟩ := exists_scalars_of_wellFormed hs
  obtain ⟨ds, hds⟩ := exists_scalars_of_wellFormed ht
  rw [utf8_of_scalars hcs, utf8_of_scalars hds] at h
  obtain rfl := utf8EncodeChars_injective h
  rw [eq_flatMap_units s cs hcs, eq_flatMap_units t cs hds]

theorem encodeURIComponent_injective {s t e : JsString} (hs : encodeURIComponent s = some e)
    (ht : encodeURIComponent t = some e) : s = t := by
  rw [encodeURIComponent] at hs ht
  split at hs
  · split at ht
    · rename_i hws hwt
      have heq : (utf8 s).flatMap percent = (utf8 t).flatMap percent := by
        rw [Option.some.injEq] at hs ht
        rw [hs, ht]
      exact utf8_inj hws hwt (flatMap_injective percent_ne_nil percent_code heq)
    · simp at ht
  · simp at hs

theorem toNat_lt_of_isUnreserved {b : UInt8} (h : isUnreserved b) : b.toNat < 128 := by
  by_contra hge
  have hmem : b ∉ [45, 95, 46, 33, 126, 42, 39, 40, 41] := by
    intro hmem
    simp only [List.mem_cons, List.not_mem_nil, or_false] at hmem
    rcases hmem with rfl | rfl | rfl | rfl | rfl | rfl | rfl | rfl | rfl <;> exact hge (by decide)
  simp only [isUnreserved, Bool.or_eq_true, Bool.and_eq_true, decide_eq_true_eq,
    List.contains_iff_mem, UInt8.le_iff_toNat_le] at h
  rcases h with ((h | h) | h) | h
  · exact hge (by simp at h; omega)
  · exact hge (by simp at h; omega)
  · exact hge (by simp at h; omega)
  · exact hmem h

/-- No delimiter of a tagged key survives: the output has no `:`, `{` or `}`. -/
theorem not_delimiter_of_mem_percent {b : UInt8} {u : UInt16} (hu : u ∈ percent b) :
    u.toNat < 128 ∧ u ≠ 58 ∧ u ≠ 123 ∧ u ≠ 125 := by
  have hb := b.toNat_lt
  have hhex : ∀ n, n < 16 → (hexDigit n).toNat < 128 ∧ hexDigit n ≠ 58 ∧ hexDigit n ≠ 123 ∧
      hexDigit n ≠ 125 := by decide
  rw [percent] at hu
  split at hu
  · rename_i hun
    obtain rfl : u = UInt16.ofNat b.toNat := by simpa using hu
    have hne : ∀ c : UInt8, ¬ isUnreserved c → UInt16.ofNat b.toNat ≠ UInt16.ofNat c.toNat := by
      intro c hc heq
      rw [ofNat_toNat_inj heq] at hun
      exact hc hun
    refine ⟨?_, hne 58 (by decide), hne 123 (by decide), hne 125 (by decide)⟩
    rw [toNat_uint16_ofNat (by omega)]
    exact toNat_lt_of_isUnreserved hun
  · simp only [List.mem_cons, List.not_mem_nil, or_false] at hu
    rcases hu with rfl | rfl | rfl
    · decide
    · exact hhex _ (by omega)
    · exact hhex _ (by omega)

theorem not_delimiter_of_encodeURIComponent {s e : JsString} (h : encodeURIComponent s = some e)
    {u : UInt16} (hu : u ∈ e) : u.toNat < 128 ∧ u ≠ 58 ∧ u ≠ 123 ∧ u ≠ 125 := by
  rw [encodeURIComponent] at h
  split at h
  · rw [Option.some.injEq] at h
    subst h
    obtain ⟨b, -, hb⟩ := List.mem_flatMap.mp hu
    exact not_delimiter_of_mem_percent hb
  · simp at h

theorem utf16le_injective : Function.Injective utf16le := by
  refine flatMap_injective (by simp) ?_
  intro u v x y h
  have hu := u.toNat_lt
  have hv := v.toNat_lt
  simp only [List.cons_append, List.nil_append, List.cons.injEq] at h
  have hlo := congrArg UInt8.toNat h.1
  have hhi := congrArg UInt8.toNat h.2.1
  rw [UInt8.toNat_ofNat', UInt8.toNat_ofNat'] at hlo hhi
  exact ⟨UInt16.toNat_inj.mp (by omega), h.2.2⟩

theorem base64url_injective : Function.Injective base64url := by
  intro l
  -- two words of different remainder modulo 3 differ in length modulo 4
  induction l using base64url.induct with
  | case1 =>
    intro m h
    rcases m with _ | ⟨b, _ | ⟨c, _ | ⟨d, m⟩⟩⟩ <;> simp [base64url] at h ⊢
  | case2 a =>
    intro m h
    have ha := a.toNat_lt
    rcases m with _ | ⟨b, _ | ⟨c, _ | ⟨d, m⟩⟩⟩ <;>
      simp only [base64url, List.cons.injEq, reduceCtorEq, and_false, and_true] at h
    have hb := b.toNat_lt
    have h1 := base64Digit_inj (by omega) (by omega) h.1
    have h2 := base64Digit_inj (by omega) (by omega) h.2
    rw [UInt8.toNat_inj.mp (show a.toNat = b.toNat by omega)]
  | case3 a b =>
    intro m h
    have ha := a.toNat_lt
    have hb := b.toNat_lt
    rcases m with _ | ⟨c, _ | ⟨d, _ | ⟨e, m⟩⟩⟩ <;>
      simp only [base64url, List.cons.injEq, reduceCtorEq, and_false, and_true] at h
    have hc := c.toNat_lt
    have hd := d.toNat_lt
    have h1 := base64Digit_inj (by omega) (by omega) h.1
    have h2 := base64Digit_inj (by omega) (by omega) h.2.1
    have h3 := base64Digit_inj (by omega) (by omega) h.2.2
    rw [UInt8.toNat_inj.mp (show a.toNat = c.toNat by omega),
      UInt8.toNat_inj.mp (show b.toNat = d.toNat by omega)]
  | case4 a b c s ih =>
    intro m h
    have ha := a.toNat_lt
    have hb := b.toNat_lt
    have hc := c.toNat_lt
    rcases m with _ | ⟨d, _ | ⟨e, _ | ⟨f, m⟩⟩⟩ <;>
      simp only [base64url, List.cons.injEq, reduceCtorEq, and_false] at h
    have hd := d.toNat_lt
    have he := e.toNat_lt
    have hf := f.toNat_lt
    have h1 := base64Digit_inj (by omega) (by omega) h.1
    have h2 := base64Digit_inj (by omega) (by omega) h.2.1
    have h3 := base64Digit_inj (by omega) (by omega) h.2.2.1
    have h4 := base64Digit_inj (by omega) (by omega) h.2.2.2.1
    rw [UInt8.toNat_inj.mp (show a.toNat = d.toNat by omega),
      UInt8.toNat_inj.mp (show b.toNat = e.toNat by omega),
      UInt8.toNat_inj.mp (show c.toNat = f.toNat by omega), ih h.2.2.2.2]

theorem not_delimiter_base64Digit (n : ℕ) :
    (base64Digit n).toNat < 128 ∧ base64Digit n ≠ 123 ∧ base64Digit n ≠ 125 := by
  have hnat : (base64Digit n).toNat < 128 ∧ (base64Digit n).toNat ≠ 123 ∧
      (base64Digit n).toNat ≠ 125 := by
    rw [base64Digit, toNat_uint16_ofNat (by split_ifs <;> omega)]
    split_ifs <;> omega
  exact ⟨hnat.1, fun h => hnat.2.1 (by rw [h]; rfl), fun h => hnat.2.2 (by rw [h]; rfl)⟩

theorem not_delimiter_of_mem_base64url (l : List UInt8) {u : UInt16} (hu : u ∈ base64url l) :
    u.toNat < 128 ∧ u ≠ 123 ∧ u ≠ 125 := by
  induction l using base64url.induct with
  | case1 => simp [base64url] at hu
  | case2 a =>
    simp only [base64url, List.mem_cons, List.not_mem_nil, or_false] at hu
    rcases hu with rfl | rfl <;> exact not_delimiter_base64Digit _
  | case3 a b =>
    simp only [base64url, List.mem_cons, List.not_mem_nil, or_false] at hu
    rcases hu with rfl | rfl | rfl <;> exact not_delimiter_base64Digit _
  | case4 a b c s ih =>
    simp only [base64url, List.mem_cons] at hu
    rcases hu with rfl | rfl | rfl | rfl | hu
    · exact not_delimiter_base64Digit _
    · exact not_delimiter_base64Digit _
    · exact not_delimiter_base64Digit _
    · exact not_delimiter_base64Digit _
    · exact ih hu

/-! ### The wire encoding of concatenations -/

theorem scalars_cons {u : UInt16} (hu : ¬ isHigh u) (hl : ¬ isLow u) (s : JsString) :
    scalars (u :: s) = some (Char.ofNat u.toNat) :: scalars s := by
  cases s with
  | nil => simp [scalars, hu, hl]
  | cons v s => rw [scalars, if_neg hu, if_neg hl]

/-- Only a low surrogate combines with what precedes it. -/
theorem scalars_append_of_not_low (s : JsString) {u : UInt16} {t : JsString} (hu : ¬ isLow u) :
    scalars (s ++ u :: t) = scalars s ++ scalars (u :: t) := by
  induction s using scalars.induct with
  | case1 => rfl
  | case2 v h =>
    have halone : scalars [v] = [none] := if_pos h
    rw [List.singleton_append, halone]
    by_cases hh : isHigh v
    · rw [scalars, if_pos hh, if_neg hu]
      rfl
    · have hl : isLow v := by simpa [hh] using h
      rw [scalars, if_neg hh, if_pos hl]
      rfl
  | case3 v h =>
    simp only [Bool.or_eq_true, not_or] at h
    rw [List.singleton_append, scalars_cons h.1 h.2, scalars_cons h.1 h.2]
    rfl
  | case4 v w s hv hw ih =>
    rw [List.cons_append, List.cons_append, scalars, if_pos hv, if_pos hw, scalars, if_pos hv,
      if_pos hw, ih]
    rfl
  | case5 v w s hv hw ih =>
    rw [List.cons_append, List.cons_append, scalars, if_pos hv, if_neg hw, scalars, if_pos hv,
      if_neg hw, ← List.cons_append, ih]
    rfl
  | case6 v w s hv hl ih =>
    rw [List.cons_append, List.cons_append, scalars, if_neg hv, if_pos hl, scalars, if_neg hv,
      if_pos hl, ← List.cons_append, ih]
    rfl
  | case7 v w s hv hl ih =>
    rw [List.cons_append, scalars_cons hv hl, scalars_cons hv hl, ih]
    rfl

/-- A well-formed string does not combine with what follows it. -/
theorem scalars_append {s : JsString} (hs : wellFormed s) (t : JsString) :
    scalars (s ++ t) = scalars s ++ scalars t := by
  induction s using scalars.induct with
  | case1 => rfl
  | case2 u h => simp [wellFormed, scalars, h] at hs
  | case3 u h =>
    simp only [Bool.or_eq_true, not_or] at h
    rw [List.singleton_append, scalars_cons h.1 h.2, scalars_cons h.1 h.2]
    rfl
  | case4 u v s hu hv ih =>
    simp only [wellFormed, scalars, hu, hv, if_true, List.all_cons, Option.isSome_some,
      Bool.true_and] at hs
    rw [List.cons_append, List.cons_append, scalars, if_pos hu, if_pos hv, scalars, if_pos hu,
      if_pos hv, ih hs]
    rfl
  | case5 u v s hu hv ih => simp [wellFormed, scalars, hu, hv] at hs
  | case6 u v s hu hl ih => simp [wellFormed, scalars, hu, hl] at hs
  | case7 u v s hu hl ih =>
    rw [wellFormed, scalars_cons hu hl, List.all_cons, Option.isSome_some, Bool.true_and] at hs
    rw [List.cons_append, scalars_cons hu hl, scalars_cons hu hl, ih hs]
    rfl

theorem utf8_append {s : JsString} (hs : wellFormed s) (t : JsString) :
    utf8 (s ++ t) = utf8 s ++ utf8 t := by
  rw [utf8, scalars_append hs, List.flatMap_append]
  rfl

/-- ASCII text is sent as it is. -/
theorem utf8_cons_ascii {u : UInt16} (hu : u.toNat < 128) (s : JsString) :
    utf8 (u :: s) = UInt8.ofNat u.toNat :: utf8 s := by
  have hh : ¬ isHigh u := by simp [isHigh]; omega
  have hl : ¬ isLow u := by simp [isLow]; omega
  have hnat : (Char.ofNat u.toNat).toNat = u.toNat := toNat_ofNat (by omega)
  rw [utf8, scalars_cons hh hl, List.flatMap_cons]
  have hval : (Char.ofNat u.toNat).val.toNat = u.toNat := hnat
  have hsize : (Char.ofNat u.toNat).utf8Size = 1 := by
    rw [Char.utf8Size_eq_one_iff]
    exact UInt32.le_iff_toNat_le.mpr (by rw [hval]; simp; omega)
  rw [Option.getD_some, String.utf8EncodeChar_eq_singleton hsize, List.singleton_append]
  congr 1
  rw [← UInt8.toNat_inj, UInt8.toNat_ofNat']
  change (Char.ofNat u.toNat).val.toNat % 256 = _
  rw [hval]

theorem utf8_ascii_append {s : JsString} (hs : ∀ u ∈ s, u.toNat < 128) (t : JsString) :
    utf8 (s ++ t) = (s.map fun u => UInt8.ofNat u.toNat) ++ utf8 t := by
  induction s with
  | nil => rfl
  | cons u s ih =>
    rw [List.cons_append, utf8_cons_ascii (hs u (by simp)), ih fun v hv => hs v (by simp [hv])]
    rfl

/-! ### Reading UTF-8 -/

/-- Where the reader stands inside a character: how many octets are missing, the
bits read so far, and the range the next octet must lie in. -/
structure Utf8State where
  missing : ℕ
  point : ℕ
  lower : ℕ
  upper : ℕ
  deriving DecidableEq, Repr

/-- Between characters. -/
def Utf8State.idle : Utf8State := ⟨0, 0, 0x80, 0xBF⟩

/-- The first octet of a character: what is written at once, and the state after it. -/
def leadOctet (b : ℕ) : JsString × Utf8State :=
  if b < 0x80 then ([UInt16.ofNat b], .idle)
  else if 0xC2 ≤ b ∧ b ≤ 0xDF then ([], ⟨1, b - 0xC0, 0x80, 0xBF⟩)
  else if 0xE0 ≤ b ∧ b ≤ 0xEF then
    ([], ⟨2, b - 0xE0, if b = 0xE0 then 0xA0 else 0x80, if b = 0xED then 0x9F else 0xBF⟩)
  else if 0xF0 ≤ b ∧ b ≤ 0xF4 then
    ([], ⟨3, b - 0xF0, if b = 0xF0 then 0x90 else 0x80, if b = 0xF4 then 0x8F else 0xBF⟩)
  else ([0xFFFD], .idle)

/-- One octet.  One that does not continue the character ends it with U+FFFD and
is then read as a first octet. -/
def octetStep (st : Utf8State) (b : ℕ) : JsString × Utf8State :=
  if st.missing = 0 then leadOctet b
  else if st.lower ≤ b ∧ b ≤ st.upper then
    let point := st.point * 64 + (b - 0x80)
    if st.missing = 1 then (units (Char.ofNat point), .idle)
    else ([], ⟨st.missing - 1, point, 0x80, 0xBF⟩)
  else (0xFFFD :: (leadOctet b).1, (leadOctet b).2)

def decodeUtf8From (st : Utf8State) : List UInt8 → JsString
  | [] => if st.missing = 0 then [] else [0xFFFD]
  | b :: bs => (octetStep st b.toNat).1 ++ decodeUtf8From (octetStep st b.toNat).2 bs

/-- `Buffer.prototype.toString('utf8')` -/
def decodeUtf8 (bs : List UInt8) : JsString := decodeUtf8From .idle bs

theorem decodeUtf8_ascii {bs : List UInt8} (h : ∀ b ∈ bs, b.toNat < 128) :
    decodeUtf8 bs = bs.map fun b => UInt16.ofNat b.toNat := by
  rw [decodeUtf8]
  induction bs with
  | nil => rfl
  | cons b bs ih =>
    have hb : octetStep .idle b.toNat = ([UInt16.ofNat b.toNat], .idle) := by
      rw [octetStep, if_pos (show Utf8State.idle.missing = 0 from rfl), leadOctet,
        if_pos (h b (by simp))]
    rw [decodeUtf8From, hb, ih fun c hc => h c (by simp [hc])]
    rfl

end Js
