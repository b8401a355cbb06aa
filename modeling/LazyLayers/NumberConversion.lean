/-
Numbers as text, and text as numbers.

`String(x)` writes a finite number with as few decimal digits as tell it apart, and chooses
between five layouts.  `Number(s)` reads a decimal literal, a literal of another base or the
name of infinity, with white space around, and rounds its value to a number.

* `shortest` — the digits, and where the point stands;
* `layout` — the text of digits and a point;
* `unsignedDecimal_layout` — a text is read as the value of its digits, whatever its layout;
* `Number.ofText_toText` — what has been written is read as the same number;
* `numberText` — the texts of finite numbers are JSON numbers;
* `toText_spec` — texts of numbers are short.
-/
import LazyLayers.Doubles
import LazyLayers.Json

open Js

namespace Double

/-! ### Digits -/

/-- A natural number in decimal. -/
def digitText (n : ℕ) : JsString :=
  (Nat.digits 10 n).reverse.map fun d => UInt16.ofNat (48 + d)

/-- The value of decimal digits. -/
def digitsValue (s : JsString) : ℕ := s.foldl (fun n u => 10 * n + (u.toNat - 48)) 0

/-- The number of `k` digits, with the point before the `n`-th power of ten from its first
digit, that is read as `q` and is nearest to it; the even one of two. -/
def candidate (q : ℚ) (k : ℕ) : Option (ℕ × ℤ) :=
  let n := Int.log 10 q + 1
  let unit : ℚ := 10 ^ (n - k)
  let low := ⌊q / unit⌋₊
  let high := ⌈q / unit⌉₊
  let reads (s : ℕ) : Bool := round (s * unit) = q
  let digits : Option ℕ :=
    if reads low && reads high then
      if q / unit - low < high - q / unit then some low
      else if high - q / unit < q / unit - low then some high
      else if low % 2 = 0 then some low else some high
    else if reads low then some low
    else if reads high then some high
    else none
  -- ten to the `k` has a digit too many
  digits.map fun s => if s = 10 ^ k then (10 ^ (k - 1), n + 1) else (s, n)

/-- No number needs more digits. -/
def maxDigits : ℕ := 1400

/-- The digits of a positive number, as few as can be, and the place of the point. -/
def shortest (q : ℚ) : ℕ × ℤ :=
  (((List.range maxDigits).map Nat.succ).findSome? (candidate q)).getD (0, 0)

/-- The text of digits with the point after the `n`-th of them. -/
def layout (s : ℕ) (n : ℤ) : JsString :=
  let digits := digitText s
  let k : ℤ := digits.length
  if k ≤ n ∧ n ≤ 21 then digits ++ List.replicate (n - k).toNat 48
  else if 0 < n ∧ n ≤ 21 then digits.take n.toNat ++ 46 :: digits.drop n.toNat
  else if -6 < n ∧ n ≤ 0 then 48 :: 46 :: (List.replicate (-n).toNat 48 ++ digits)
  else
    let sign : UInt16 := if 0 < n then 43 else 45
    let exponent := 101 :: sign :: digitText (n - 1).natAbs
    match digits with
    | [] => exponent
    | [d] => d :: exponent
    | d :: rest => d :: 46 :: (rest ++ exponent)

/-- The text of a positive number. -/
def positiveText (q : ℚ) : JsString := layout (shortest q).1 (shortest q).2

/-- `String(x)` -/
def Number.toText : Number → JsString
  | .nan => str "NaN"
  | .infinity => str "Infinity"
  | .negInfinity => str "-Infinity"
  | .finite q _ =>
    if q = 0 then str "0" else if 0 < q then positiveText q else 45 :: positiveText (-q)

/-! ### Literals -/

/-- `StrWhiteSpaceChar` -/
def isWhiteSpace (u : UInt16) : Bool :=
  u.toNat ∈ [9, 10, 11, 12, 13, 32, 160, 0x1680, 0x2028, 0x2029, 0x202F, 0x205F, 0x3000,
    0xFEFF] || (0x2000 ≤ u.toNat && u.toNat ≤ 0x200A)

def trim (s : JsString) : JsString :=
  ((s.dropWhile isWhiteSpace).reverse.dropWhile isWhiteSpace).reverse

/-- `SignedInteger` -/
def signedInteger (s : JsString) : Option ℤ :=
  match s with
  | 45 :: digits => if digits ≠ [] ∧ digits.all isDigit then some (-digitsValue digits)
    else none
  | 43 :: digits => if digits ≠ [] ∧ digits.all isDigit then some (digitsValue digits) else none
  | digits => if digits ≠ [] ∧ digits.all isDigit then some (digitsValue digits) else none

/-- `ExponentPart`, if there is one. -/
def exponentPart : JsString → Option ℤ
  | [] => some 0
  | u :: rest => if u = 101 ∨ u = 69 then signedInteger rest else none

/-- `StrUnsignedDecimalLiteral`, without the name of infinity. -/
def unsignedDecimal (s : JsString) : Option ℚ :=
  let whole := s.takeWhile isDigit
  match s.dropWhile isDigit with
  | 46 :: rest =>
    let fraction := rest.takeWhile isDigit
    if whole = [] ∧ fraction = [] then none
    else (exponentPart (rest.dropWhile isDigit)).map fun e =>
      (digitsValue (whole ++ fraction) : ℚ) * 10 ^ (e - fraction.length : ℤ)
  | rest =>
    if whole = [] then none
    else (exponentPart rest).map fun e => (digitsValue whole : ℚ) * 10 ^ e

def unsigned (s : JsString) : Number :=
  if s = str "Infinity" then .infinity else ((unsignedDecimal s).map Number.ofRat).getD .nan

/-- `StrDecimalLiteral` -/
def decimal : JsString → Number
  | 45 :: s => (unsigned s).neg
  | 43 :: s => unsigned s
  | s => unsigned s

/-- The digits of `NonDecimalIntegerLiteral`. -/
def radixValue (base : ℕ) (s : JsString) : Number :=
  if s = [] then .nan
  else
    match s.mapM fun u => (hexValue u).filter fun d => d < base with
    | none => .nan
    | some digits => .ofRat (digits.foldl (fun n d => base * n + d) 0 : ℕ)

/-- The base that the first two units announce. -/
def radix : JsString → Option (ℕ × JsString)
  | 48 :: u :: rest =>
    if u = 120 ∨ u = 88 then some (16, rest)
    else if u = 111 ∨ u = 79 then some (8, rest)
    else if u = 98 ∨ u = 66 then some (2, rest)
    else none
  | _ => none

/-- `Number(s)` -/
def Number.ofText (s : JsString) : Number :=
  let s := trim s
  if s = [] then .finite 0 isDouble_zero
  else
    match radix s with
    | some (base, digits) => radixValue base digits
    | none => decimal s

/-! ### Texts of digits -/

/-- The text has decimal digits only. -/
def Digits (s : JsString) : Prop := ∀ u ∈ s, isDigit u = true

theorem toNat_digit {d : ℕ} (h : d < 10) : (UInt16.ofNat (48 + d)).toNat = 48 + d :=
  toNat_uint16_ofNat (by omega)

theorem isDigit_iff {u : UInt16} : isDigit u = true ↔ 48 ≤ u.toNat ∧ u.toNat ≤ 57 := by
  rw [isDigit, Bool.and_eq_true, decide_eq_true_eq, decide_eq_true_eq]
  exact Iff.rfl

theorem digits_digitText (n : ℕ) : Digits (digitText n) := by
  intro u hu
  obtain ⟨d, hd, rfl⟩ := List.mem_map.mp hu
  have hlt : d < 10 := Nat.digits_lt_base (by norm_num) (List.mem_reverse.mp hd)
  rw [isDigit_iff, toNat_digit hlt]
  omega

theorem digits_zeros (n : ℕ) : Digits (List.replicate n 48) := by
  intro u hu
  rw [List.eq_of_mem_replicate hu]
  rfl

theorem Digits.append {s t : JsString} (hs : Digits s) (ht : Digits t) : Digits (s ++ t) := by
  intro u hu
  rcases List.mem_append.mp hu with h | h
  · exact hs u h
  · exact ht u h

theorem Digits.all {s : JsString} (hs : Digits s) : s.all isDigit = true := List.all_eq_true.mpr hs

theorem length_digitText (n : ℕ) : (digitText n).length = (Nat.digits 10 n).length := by
  rw [digitText, List.length_map, List.length_reverse]

theorem digitsValue_foldl (s : JsString) (n : ℕ) :
    s.foldl (fun n u => 10 * n + (u.toNat - 48)) n = n * 10 ^ s.length + digitsValue s := by
  rw [digitsValue]
  induction s generalizing n with
  | nil => simp
  | cons u s ih =>
    rw [List.foldl_cons, List.foldl_cons, ih, ih (10 * 0 + _), List.length_cons]
    ring

theorem digitsValue_append (s t : JsString) :
    digitsValue (s ++ t) = digitsValue s * 10 ^ t.length + digitsValue t := by
  rw [digitsValue, List.foldl_append, digitsValue_foldl]
  rfl

theorem digitsValue_zeros (n : ℕ) : digitsValue (List.replicate n 48) = 0 := by
  induction n with
  | zero => rfl
  | succ n ih =>
    have hzero : digitsValue [48] = 0 := rfl
    rw [List.replicate_succ, ← List.singleton_append, digitsValue_append, ih, hzero, zero_mul]

/-- A number is the value of its digits. -/
theorem digitsValue_digitText (n : ℕ) : digitsValue (digitText n) = n := by
  have hvalue : ∀ l : List ℕ, (∀ d ∈ l, d < 10) →
      digitsValue (l.reverse.map fun d => UInt16.ofNat (48 + d)) = Nat.ofDigits 10 l := by
    intro l
    induction l with
    | nil => exact fun _ => rfl
    | cons d l ih =>
      intro h
      have hd : d < 10 := h d List.mem_cons_self
      rw [List.reverse_cons, List.map_append, List.map_singleton, digitsValue_append,
        ih fun d' hd' => h d' (List.mem_cons_of_mem d hd'), Nat.ofDigits_cons]
      show _ * 10 ^ 1 + (10 * 0 + ((UInt16.ofNat (48 + d)).toNat - 48)) = _
      rw [toNat_digit hd]
      omega
  have h := hvalue (Nat.digits 10 n) fun d hd => Nat.digits_lt_base (by norm_num) hd
  rwa [Nat.ofDigits_digits] at h

/-- The first digit is not zero. -/
theorem exists_head_digitText {n : ℕ} (h : n ≠ 0) :
    ∃ u s, digitText n = u :: s ∧ isDigit u = true ∧ u ≠ 48 := by
  have hne : Nat.digits 10 n ≠ [] := Nat.digits_ne_nil_iff_ne_zero.mpr h
  have hlast := Nat.getLast_digit_ne_zero 10 h
  obtain ⟨l, d, hl⟩ := (List.eq_nil_or_concat (Nat.digits 10 n)).resolve_left hne
  have hd : d < 10 := by
    refine Nat.digits_lt_base (b := 10) (m := n) (by norm_num) ?_
    rw [hl, List.concat_eq_append]
    exact List.mem_append_right l (List.mem_singleton_self d)
  have htext : digitText n =
      UInt16.ofNat (48 + d) :: l.reverse.map fun d => UInt16.ofNat (48 + d) := by
    rw [digitText, hl, List.concat_eq_append, List.reverse_append, List.reverse_singleton,
      List.singleton_append, List.map_cons]
  refine ⟨_, _, htext, ?_, fun hzero => ?_⟩
  · exact digits_digitText n _ (by rw [htext]; exact List.mem_cons_self)
  · -- the last digit of the list, the first of the text
    have hnat : 48 + d = 48 := by
      rw [← toNat_digit hd, hzero]
      rfl
    have hzero : d = 0 := by omega
    simp only [hl, List.concat_eq_append, List.getLast_append_singleton] at hlast
    exact hlast hzero

/-! ### Reading what has been laid out -/

/-- No digit comes first. -/
def Stop (s : JsString) : Prop := ∀ u t, s = u :: t → isDigit u = false

theorem stop_nil : Stop [] := by
  intro u t h
  cases h

theorem stop_cons {u : UInt16} (h : isDigit u = false) (s : JsString) : Stop (u :: s) := by
  intro v t hv
  rwa [← (List.cons.inj hv).1]

/-- The digits in front of a text. -/
theorem span_digits {ds rest : JsString} (hds : Digits ds) (hrest : Stop rest) :
    (ds ++ rest).takeWhile isDigit = ds ∧ (ds ++ rest).dropWhile isDigit = rest := by
  rw [List.takeWhile_append_of_pos hds, List.dropWhile_append_of_pos hds]
  rcases rest with _ | ⟨u, t⟩
  · exact ⟨List.append_nil ds, rfl⟩
  · have hu := hrest u t rfl
    rw [List.takeWhile_cons_of_neg (by rw [hu]; exact Bool.false_ne_true),
      List.dropWhile_cons_of_neg (by rw [hu]; exact Bool.false_ne_true), List.append_nil]
    exact ⟨rfl, rfl⟩

theorem unsignedDecimal_whole {ds rest : JsString} (hds : Digits ds) (hne : ds ≠ [])
    (hrest : Stop rest) (hpoint : ∀ t, rest ≠ 46 :: t) :
    unsignedDecimal (ds ++ rest) =
      (exponentPart rest).map fun e => (digitsValue ds : ℚ) * 10 ^ e := by
  obtain ⟨htake, hdrop⟩ := span_digits hds hrest
  rw [unsignedDecimal.eq_def]
  dsimp only
  rw [htake, hdrop]
  split
  · next t => exact absurd rfl (hpoint t)
  · rw [if_neg hne]

theorem unsignedDecimal_point {ds fs rest : JsString} (hds : Digits ds) (hne : ds ≠ [])
    (hfs : Digits fs) (hrest : Stop rest) :
    unsignedDecimal (ds ++ 46 :: (fs ++ rest)) = (exponentPart rest).map fun e =>
      (digitsValue (ds ++ fs) : ℚ) * 10 ^ (e - fs.length : ℤ) := by
  obtain ⟨htake, hdrop⟩ := span_digits hds (stop_cons (u := 46) rfl (fs ++ rest))
  obtain ⟨htake', hdrop'⟩ := span_digits hfs hrest
  rw [unsignedDecimal.eq_def]
  dsimp only
  rw [htake, hdrop]
  show (if ds = [] ∧ (fs ++ rest).takeWhile isDigit = [] then none
    else (exponentPart ((fs ++ rest).dropWhile isDigit)).map fun e =>
      (digitsValue (ds ++ (fs ++ rest).takeWhile isDigit) : ℚ) *
        10 ^ (e - ((fs ++ rest).takeWhile isDigit).length : ℤ)) = _
  rw [htake', hdrop', if_neg fun h => hne h.1]

theorem exponentPart_layout {n : ℤ} (h : n ≠ 1) :
    exponentPart (101 :: (if 0 < n then 43 else 45) :: digitText (n - 1).natAbs) =
      some (n - 1) := by
  have hne : (n - 1).natAbs ≠ 0 := by omega
  obtain ⟨u, s, htext, -⟩ := exists_head_digitText hne
  have hdigits : digitText (n - 1).natAbs ≠ [] ∧
      (digitText (n - 1).natAbs).all isDigit = true := by
    refine ⟨?_, (digits_digitText _).all⟩
    rw [htext]
    exact List.cons_ne_nil u s
  rw [exponentPart, if_pos (.inl rfl)]
  by_cases hpos : 0 < n
  · rw [if_pos hpos, signedInteger, if_pos hdigits, digitsValue_digitText]
    exact congrArg some (by omega)
  · rw [if_neg hpos, signedInteger, if_pos hdigits, digitsValue_digitText]
    exact congrArg some (by omega)

/-- A text of digits is read as their value, whatever its layout. -/
theorem unsignedDecimal_layout {s : ℕ} (hs : s ≠ 0) (n : ℤ) :
    unsignedDecimal (layout s n) =
      some ((s : ℚ) * 10 ^ (n - (digitText s).length : ℤ)) := by
  have hdigits := digits_digitText s
  have hvalue := digitsValue_digitText s
  obtain ⟨d, ds, htext, -⟩ := exists_head_digitText hs
  have hpos : 0 < (digitText s).length := by
    rw [htext]
    exact Nat.succ_pos _
  have hne : digitText s ≠ [] := List.ne_nil_of_length_pos hpos
  rw [layout]
  dsimp only
  split
  · -- zeros up to the point
    next hlarge =>
    have hzeros := hdigits.append (digits_zeros (n - (digitText s).length).toNat)
    have hread := unsignedDecimal_whole hzeros (List.append_ne_nil_of_left_ne_nil hne _) stop_nil
      fun t ht => by cases ht
    obtain ⟨m, hm⟩ := Int.le.dest hlarge.1
    have hlength : n - (digitText s).length = m := by omega
    rw [List.append_nil] at hread
    rw [hread, exponentPart, Option.map_some, digitsValue_append, digitsValue_zeros, hvalue,
      List.length_replicate, hlength, Int.toNat_natCast, zpow_zero, zpow_natCast]
    push_cast
    ring_nf
  split
  · -- the point among the digits
    next hlarge hinside =>
    have htake : Digits ((digitText s).take n.toNat) := fun u hu =>
      hdigits u (List.mem_of_mem_take hu)
    have hdrop : Digits ((digitText s).drop n.toNat) := fun u hu =>
      hdigits u (List.mem_of_mem_drop hu)
    have hsome : (digitText s).take n.toNat ≠ [] := by
      refine List.ne_nil_of_length_pos ?_
      rw [List.length_take]
      omega
    have hread := unsignedDecimal_point htake hsome hdrop stop_nil
    rw [List.append_nil] at hread
    rw [hread, exponentPart, Option.map_some, List.take_append_drop, hvalue, List.length_drop]
    congr 3
    omega
  split
  · -- zeros behind the point
    next hsmall =>
    have hzeros := (digits_zeros (-n).toNat).append hdigits
    have hzero : Digits [48] := digits_zeros 1
    have hread := unsignedDecimal_point hzero (List.cons_ne_nil 48 []) hzeros stop_nil
    rw [List.append_nil] at hread
    have hlead : digitsValue ([48] ++ (List.replicate (-n).toNat 48 ++ digitText s)) = s := by
      rw [← List.append_assoc, digitsValue_append, hvalue, digitsValue_append, digitsValue_zeros]
      have hzero : digitsValue [48] = 0 := rfl
      rw [hzero]
      omega
    show unsignedDecimal ([48] ++ 46 :: (List.replicate (-n).toNat 48 ++ digitText s)) = _
    rw [hread, exponentPart, Option.map_some, hlead, List.length_append, List.length_replicate]
    congr 3
    omega
  · -- one digit before the point, and an exponent
    next hlarge hinside hsmall =>
    have hexponent := exponentPart_layout (n := n) (by omega)
    have hstop : Stop (101 :: (if 0 < n then 43 else 45) :: digitText (n - 1).natAbs) :=
      stop_cons rfl _
    have hd : Digits [d] := by
      intro u hu
      rw [List.mem_singleton.mp hu]
      exact hdigits d (by rw [htext]; exact List.mem_cons_self)
    have hds : Digits ds := by
      intro u hu
      exact hdigits u (by rw [htext]; exact List.mem_cons_of_mem d hu)
    rw [htext] at hvalue ⊢
    rcases ds with _ | ⟨d', ds⟩
    · have hread := unsignedDecimal_whole hd (List.cons_ne_nil d []) hstop
        fun t ht => absurd (List.cons.inj ht).1 (by decide)
      show unsignedDecimal ([d] ++ 101 :: _) = _
      rw [hread, hexponent, Option.map_some, hvalue]
      rfl
    · have hread := unsignedDecimal_point hd (List.cons_ne_nil d []) hds hstop
      show unsignedDecimal ([d] ++ 46 :: ((d' :: ds) ++ 101 :: _)) = _
      rw [hread, hexponent, Option.map_some, List.singleton_append, hvalue, List.length_cons,
        List.length_cons, List.length_cons]
      congr 3
      push_cast
      ring

theorem isNumberUnit_of_isDigit {u : UInt16} (h : isDigit u = true) : isNumberUnit u = true := by
  rw [isNumberUnit, h]
  rfl

theorem Digits.units {s : JsString} (h : Digits s) : ∀ u ∈ s, isNumberUnit u = true :=
  fun u hu => isNumberUnit_of_isDigit (h u hu)

/-- A text of digits starts with one, and has a point behind a zero. -/
theorem layout_spec {s : ℕ} (hs : s ≠ 0) (n : ℤ) :
    (∀ u ∈ layout s n, isNumberUnit u = true) ∧
      ∃ d t, layout s n = d :: t ∧ isDigit d = true ∧ (d = 48 → ∃ t', t = 46 :: t') := by
  have hdigits := digits_digitText s
  obtain ⟨d, ds, htext, hd, hzero⟩ := exists_head_digitText hs
  have hlead : ∀ t, ∃ d' t', d :: t = d' :: t' ∧ isDigit d' = true ∧
      (d' = 48 → ∃ t'', t' = 46 :: t'') :=
    fun t => ⟨d, t, rfl, hd, fun h => absurd h hzero⟩
  have hexponent : ∀ u ∈ (101 :: (if 0 < n then 43 else 45) :: digitText (n - 1).natAbs :
      JsString), isNumberUnit u = true := by
    intro u hu
    rcases List.mem_cons.mp hu with rfl | hu
    · rfl
    rcases List.mem_cons.mp hu with rfl | hu
    · split <;> rfl
    · exact (digits_digitText _).units u hu
  rw [layout]
  dsimp only
  split
  · refine ⟨(hdigits.append (digits_zeros _)).units, ?_⟩
    rw [htext]
    exact hlead _
  split
  · next hinside =>
    refine ⟨fun u hu => ?_, ?_⟩
    · rcases List.mem_append.mp hu with hu | hu
      · exact hdigits.units u (List.mem_of_mem_take hu)
      rcases List.mem_cons.mp hu with rfl | hu
      · rfl
      · exact hdigits.units u (List.mem_of_mem_drop hu)
    · obtain ⟨m, hm⟩ : ∃ m, n.toNat = m + 1 := ⟨n.toNat - 1, by omega⟩
      rw [htext, hm, List.take_succ_cons]
      exact hlead _
  split
  · refine ⟨fun u hu => ?_, 48, _, rfl, rfl, fun _ => ⟨_, rfl⟩⟩
    rcases List.mem_cons.mp hu with rfl | hu
    · rfl
    rcases List.mem_cons.mp hu with rfl | hu
    · rfl
    · exact ((digits_zeros _).append hdigits).units u hu
  · rw [htext] at hdigits ⊢
    rcases ds with _ | ⟨d', ds⟩
    · refine ⟨fun u hu => ?_, hlead _⟩
      rcases List.mem_cons.mp hu with rfl | hu
      · exact isNumberUnit_of_isDigit hd
      · exact hexponent u hu
    · refine ⟨fun u hu => ?_, hlead _⟩
      rcases List.mem_cons.mp hu with rfl | hu
      · exact isNumberUnit_of_isDigit hd
      rcases List.mem_cons.mp hu with rfl | hu
      · rfl
      rcases List.mem_append.mp hu with hu | hu
      · exact hdigits.units u (List.mem_cons_of_mem d hu)
      · exact hexponent u hu

/-- Nothing is trimmed off a number. -/
theorem trim_of_units {s : JsString} (h : ∀ u ∈ s, isNumberUnit u = true) : trim s = s := by
  have hspace : ∀ u, isNumberUnit u = true → ¬ isWhiteSpace u = true := by
    intro u hu hwhite
    rw [isNumberUnit] at hu
    simp only [Bool.or_eq_true, isDigit_iff, decide_eq_true_eq] at hu
    simp only [isWhiteSpace, List.mem_cons, List.not_mem_nil, or_false, Bool.or_eq_true,
      Bool.and_eq_true, decide_eq_true_eq] at hwhite
    rcases hu with ((((hu | rfl) | rfl) | rfl) | rfl) | rfl
    · omega
    · revert hwhite
      decide
    · revert hwhite
      decide
    · revert hwhite
      decide
    · revert hwhite
      decide
    · revert hwhite
      decide
  have hdrop : ∀ t : JsString, (∀ u ∈ t, isNumberUnit u = true) →
      t.dropWhile isWhiteSpace = t := by
    intro t ht
    rcases t with _ | ⟨u, t⟩
    · rfl
    · rw [List.dropWhile_cons_of_neg (hspace u (ht u List.mem_cons_self))]
  rw [trim, hdrop s h, hdrop s.reverse fun u hu => h u (List.mem_reverse.mp hu),
    List.reverse_reverse]

theorem radix_cons {u : UInt16} {t : JsString} (h : u = 48 → ∃ t', t = 46 :: t') :
    radix (u :: t) = none := by
  rw [radix.eq_def]
  split
  · next v rest heq =>
    obtain ⟨rfl, rfl⟩ := List.cons.inj heq
    obtain ⟨t', ht⟩ := h rfl
    obtain ⟨rfl, rfl⟩ := List.cons.inj ht
    rfl
  · rfl

/-- The text of a number, with its sign, is read as its value. -/
theorem ofText_layout {s : ℕ} (hs : s ≠ 0) (n : ℤ) :
    Number.ofText (layout s n) =
        Number.ofRat ((s : ℚ) * 10 ^ (n - (digitText s).length : ℤ)) ∧
      Number.ofText (45 :: layout s n) =
        (Number.ofRat ((s : ℚ) * 10 ^ (n - (digitText s).length : ℤ))).neg := by
  obtain ⟨hunits, d, t, htext, hd, hzero⟩ := layout_spec hs n
  have hunsigned : unsigned (layout s n) =
      Number.ofRat ((s : ℚ) * 10 ^ (n - (digitText s).length : ℤ)) := by
    have hname : layout s n ≠ str "Infinity" := by
      intro h
      rw [htext] at h
      rw [(List.cons.inj h).1] at hd
      revert hd
      decide
    rw [unsigned, if_neg hname, unsignedDecimal_layout hs]
    rfl
  constructor
  · have hsigns : d ≠ 45 ∧ d ≠ 43 := by
      constructor
      · rintro rfl
        revert hd
        decide
      · rintro rfl
        revert hd
        decide
    rw [Number.ofText, trim_of_units hunits]
    rw [htext, if_neg (List.cons_ne_nil d t), radix_cons hzero, ← htext]
    dsimp only
    rw [htext, decimal.eq_def]
    split
    · next heq => exact absurd (List.cons.inj heq).1 hsigns.1
    · next heq => exact absurd (List.cons.inj heq).1 hsigns.2
    · rw [← htext, hunsigned]
  · have hminus : ∀ u ∈ 45 :: layout s n, isNumberUnit u = true := by
      intro u hu
      rcases List.mem_cons.mp hu with rfl | hu
      · rfl
      · exact hunits u hu
    rw [Number.ofText, trim_of_units hminus]
    rw [if_neg (List.cons_ne_nil 45 _), radix_cons fun h => absurd h (by decide)]
    dsimp only
    rw [decimal, hunsigned]

/-! ### The digits that are chosen -/

/-- In units of the `k`-th digit a positive number has `k` digits before the point. -/
theorem digits_before {q : ℚ} (hq : 0 < q) {k : ℕ} (hk : 1 ≤ k) :
    (10 : ℚ) ^ (k - 1) ≤ q / 10 ^ (Int.log 10 q + 1 - k) ∧
      q / 10 ^ (Int.log 10 q + 1 - k) < 10 ^ k := by
  have hunit : (0 : ℚ) < 10 ^ (Int.log 10 q + 1 - k) := by positivity
  have hlow : (10 : ℚ) ^ Int.log 10 q ≤ q := by
    exact_mod_cast Int.zpow_log_le_self (b := 10) (by norm_num) hq
  have hhigh : q < (10 : ℚ) ^ (Int.log 10 q + 1) := by
    exact_mod_cast Int.lt_zpow_succ_log_self (b := 10) (by norm_num) q
  constructor
  · rw [le_div_iff₀ hunit, ← zpow_natCast, ← zpow_add₀ (by norm_num)]
    refine le_trans (le_of_eq ?_) hlow
    congr 1
    omega
  · rw [div_lt_iff₀ hunit, ← zpow_natCast, ← zpow_add₀ (by norm_num)]
    refine lt_of_lt_of_eq hhigh ?_
    congr 1
    omega

/-- The digits of a candidate, and what they are read as. -/
structure Reads (q : ℚ) (k s : ℕ) (n : ℤ) : Prop where
  low : 10 ^ (k - 1) ≤ s
  high : s < 10 ^ k
  reads : round ((s : ℚ) * 10 ^ (n - k)) = q
  place : Int.log 10 q + 1 ≤ n ∧ n ≤ Int.log 10 q + 2

theorem reads_candidate {q : ℚ} (hq : 0 < q) {k s : ℕ} {n : ℤ} (hk : 1 ≤ k)
    (h : candidate q k = some (s, n)) : Reads q k s n := by
  obtain ⟨hlow, hhigh⟩ := digits_before hq hk
  rw [candidate] at h
  obtain ⟨s₀, hs₀, hplace⟩ := Option.map_eq_some_iff.mp h
  generalize hunit : (10 : ℚ) ^ (Int.log 10 q + 1 - k) = unit at hs₀ hlow hhigh
  -- one of the two neighbours has been chosen, and it is read as the number
  have hchosen :
      (s₀ = ⌊q / unit⌋₊ ∨ s₀ = ⌈q / unit⌉₊) ∧ round (s₀ * unit) = q := by
    simp only [Bool.and_eq_true, decide_eq_true_eq] at hs₀
    split_ifs at hs₀ with hboth hless hmore heven hfloor hceil
    · obtain rfl := Option.some.inj hs₀
      exact ⟨.inl rfl, hboth.1⟩
    · obtain rfl := Option.some.inj hs₀
      exact ⟨.inr rfl, hboth.2⟩
    · obtain rfl := Option.some.inj hs₀
      exact ⟨.inl rfl, hboth.1⟩
    · obtain rfl := Option.some.inj hs₀
      exact ⟨.inr rfl, hboth.2⟩
    · obtain rfl := Option.some.inj hs₀
      exact ⟨.inl rfl, hfloor⟩
    · obtain rfl := Option.some.inj hs₀
      exact ⟨.inr rfl, hceil⟩
  obtain ⟨hneighbour, hreads⟩ := hchosen
  have hpos : 0 ≤ q / unit := le_trans (by positivity) hlow
  have hbounds : 10 ^ (k - 1) ≤ s₀ ∧ s₀ ≤ 10 ^ k := by
    rcases hneighbour with rfl | rfl
    · refine ⟨Nat.le_floor (by exact_mod_cast hlow), ?_⟩
      have hlt : ⌊q / unit⌋₊ < 10 ^ k := (Nat.floor_lt hpos).mpr (by exact_mod_cast hhigh)
      exact hlt.le
    · have hle : ((10 ^ (k - 1) : ℕ) : ℚ) ≤ ⌈q / unit⌉₊ :=
        le_trans (by exact_mod_cast hlow) (Nat.le_ceil _)
      refine ⟨by exact_mod_cast hle, Nat.ceil_le.mpr ?_⟩
      exact_mod_cast hhigh.le
  split_ifs at hplace with hten
  · -- ten to the `k` is written with one digit
    obtain ⟨rfl, rfl⟩ := Prod.mk.inj hplace
    refine ⟨le_rfl, Nat.pow_lt_pow_right (by norm_num) (by omega), ?_, by omega⟩
    have hshift : ((10 ^ (k - 1) : ℕ) : ℚ) * 10 ^ (Int.log 10 q + 1 + 1 - k) = s₀ * unit := by
      rw [hten, ← hunit]
      push_cast
      rw [← zpow_natCast, ← zpow_natCast, ← zpow_add₀ (by norm_num),
        ← zpow_add₀ (by norm_num)]
      congr 1
      omega
    rw [hshift, hreads]
  · obtain ⟨rfl, rfl⟩ := Prod.mk.inj hplace
    refine ⟨hbounds.1, by omega, ?_, by omega⟩
    rw [hunit, hreads]

/-- With 1074 decimal places the value is exact. -/
theorem exists_nat_mul_pow {q : ℚ} (h : Scaled q) (hq : 0 ≤ q) {c : ℕ} (hc : 1074 ≤ c) :
    ∃ n : ℕ, q * 10 ^ c = n := by
  obtain ⟨m, e, -, he, rfl⟩ := h
  obtain ⟨a, ha⟩ := Int.eq_ofNat_of_zero_le (show 0 ≤ e + c by omega)
  have hint : (m : ℚ) * 2 ^ e * 10 ^ c = ((m * 2 ^ a * 5 ^ c : ℤ) : ℚ) := by
    have hten : (10 : ℚ) ^ c = 2 ^ (c : ℤ) * 5 ^ c := by
      rw [zpow_natCast, ← mul_pow]
      norm_num
    have htwo : (2 : ℚ) ^ e * 2 ^ (c : ℤ) = 2 ^ a := by
      rw [← zpow_add, ha, zpow_natCast]
    push_cast
    rw [← htwo, hten]
    ring
  have hnonneg : (0 : ℚ) ≤ ((m * 2 ^ a * 5 ^ c : ℤ) : ℚ) := by
    rw [← hint]
    positivity
  obtain ⟨n, hn⟩ := Int.eq_ofNat_of_zero_le (Int.cast_nonneg_iff.mp hnonneg)
  refine ⟨n, ?_⟩
  rw [hint, hn]
  rfl

theorem candidate_isSome {q : ℚ} (h : IsDouble q) (hq : 0 < q) {k : ℕ}
    (hk : Int.log 10 q + 1 - k ≤ -1074) : (candidate q k).isSome = true := by
  obtain ⟨c, hc⟩ := Int.eq_ofNat_of_zero_le (show 0 ≤ -(Int.log 10 q + 1 - k) by omega)
  have hplace : Int.log 10 q + 1 - k = -c := by omega
  obtain ⟨n, hn⟩ := exists_nat_mul_pow h.1 hq.le (c := c) (by omega)
  have hdiv : q / 10 ^ (Int.log 10 q + 1 - k) = n := by
    rw [hplace, zpow_neg, zpow_natCast, div_inv_eq_mul, hn]
  have hround : round ((n : ℚ) * 10 ^ (Int.log 10 q + 1 - k)) = q := by
    rw [← hdiv, div_mul_cancel₀ _ (by positivity)]
    exact round_of_isDouble h
  rw [candidate]
  simp only [Option.isSome_map, hdiv, Nat.floor_natCast, Nat.ceil_natCast, hround]
  simp

/-- The first digit of a number is between 324 places behind the point and 309 before. -/
theorem log_bounds {q : ℚ} (h : IsDouble q) (hq : 0 < q) :
    -324 ≤ Int.log 10 q ∧ Int.log 10 q < 309 := by
  obtain ⟨⟨m, e, -, he, rfl⟩, hlt⟩ := h
  have hm : 0 < (m : ℚ) := by
    by_contra hneg
    have hle : (m : ℚ) * 2 ^ e ≤ 0 :=
      mul_nonpos_of_nonpos_of_nonneg (not_lt.mp hneg) (zpow_pos e).le
    linarith
  constructor
  · refine (Int.zpow_le_iff_le_log (b := 10) (by norm_num) hq).mp ?_
    have hone : (1 : ℚ) ≤ m := by exact_mod_cast Int.cast_pos.mp hm
    have hnat : (2 : ℕ) ^ 1074 ≤ 10 ^ 324 := by decide +kernel
    calc ((10 : ℕ) : ℚ) ^ (-324 : ℤ) ≤ 2 ^ (-1074 : ℤ) := by
          rw [zpow_neg, zpow_neg]
          exact inv_anti₀ (by positivity) (by exact_mod_cast hnat)
      _ ≤ 2 ^ e := zpow_le_zpow_right₀ (by norm_num) he
      _ ≤ m * 2 ^ e := le_mul_of_one_le_left (zpow_pos e).le hone
  · refine (Int.lt_zpow_iff_log_lt (b := 10) (by norm_num) hq).mp ?_
    rw [abs_of_pos hq] at hlt
    have hnat : (2 : ℕ) ^ 1024 < 10 ^ 309 := by decide +kernel
    exact hlt.trans (by exact_mod_cast hnat)

/-- The shortest digits are read as the number. -/
theorem reads_shortest {q : ℚ} (h : IsDouble q) (hq : 0 < q) :
    ∃ k, 1 ≤ k ∧ k ≤ maxDigits ∧ Reads q k (shortest q).1 (shortest q).2 := by
  obtain ⟨-, hhigh⟩ := log_bounds h hq
  have hsome : (((List.range maxDigits).map Nat.succ).findSome? (candidate q)).isSome = true := by
    rw [List.findSome?_isSome_iff]
    refine ⟨maxDigits, List.mem_map.mpr ⟨maxDigits - 1, ?_, rfl⟩, ?_⟩
    · rw [List.mem_range, maxDigits]
      omega
    · refine candidate_isSome h hq ?_
      rw [maxDigits]
      omega
  obtain ⟨⟨s, n⟩, hfound⟩ := Option.isSome_iff_exists.mp hsome
  obtain ⟨k, hk, hcandidate⟩ := List.exists_of_findSome?_eq_some hfound
  obtain ⟨j, hj, rfl⟩ := List.mem_map.mp hk
  rw [List.mem_range] at hj
  refine ⟨j + 1, by omega, hj, ?_⟩
  rw [shortest, hfound, Option.getD_some]
  exact reads_candidate hq (by omega) hcandidate

theorem length_digitText_of_reads {q : ℚ} {k s : ℕ} {n : ℤ} (hk : 1 ≤ k)
    (h : Reads q k s n) : s ≠ 0 ∧ (digitText s).length = k := by
  have hpos : 0 < s := lt_of_lt_of_le (Nat.pow_pos (by norm_num)) h.low
  have hle : (Nat.digits 10 s).length ≤ k :=
    (Nat.digits_length_le_iff (by norm_num) s).mpr h.high
  have hlt : k - 1 < (Nat.digits 10 s).length :=
    (Nat.lt_digits_length_iff (by norm_num) s).mpr h.low
  rw [length_digitText]
  omega

/-- The text of a positive number, with its sign, is read as the number. -/
theorem ofText_positiveText {q : ℚ} (h : IsDouble q) (hq : 0 < q) :
    Number.ofText (positiveText q) = .finite q h ∧
      Number.ofText (45 :: positiveText q) = .finite (-q) h.neg := by
  obtain ⟨k, hk, -, hreads⟩ := reads_shortest h hq
  obtain ⟨hne, hlength⟩ := length_digitText_of_reads hk hreads
  obtain ⟨hpositive, hnegative⟩ := ofText_layout hne (shortest q).2
  have hvalue : Number.ofRat (((shortest q).1 : ℚ) *
      10 ^ ((shortest q).2 - (digitText (shortest q).1).length : ℤ)) = .finite q h := by
    rw [hlength]
    exact Number.ofRat_of_round h hreads.reads
  rw [hvalue] at hpositive hnegative
  rw [positiveText]
  exact ⟨hpositive, hnegative⟩

/-- **A number that has been written is read again.** -/
theorem Number.ofText_toText (x : Number) : Number.ofText x.toText = x := by
  cases x with
  | nan => rfl
  | infinity => rfl
  | negInfinity => rfl
  | finite q h =>
    rw [toText]
    split
    · next hzero =>
      subst hzero
      have hread : Number.ofText (str "0") = Number.ofRat ((0 : ℕ) * 10 ^ (0 : ℤ)) := rfl
      rw [hread, Nat.cast_zero, zero_mul]
      exact Number.ofRat_of_isDouble h
    split
    · next hpos => exact (ofText_positiveText h hpos).1
    · next hzero hneg =>
      have hpos : 0 < -q := neg_pos.mpr (lt_of_le_of_ne (not_lt.mp hneg) hzero)
      rw [(ofText_positiveText h.neg hpos).2]
      simp only [neg_neg]

/-! ### JSON numbers -/

theorem run_append (st : NumberState) (s t : JsString) :
    st.run (s ++ t) = (st.run s).bind fun st => st.run t := by
  induction s generalizing st with
  | nil => rfl
  | cons u s ih =>
    rw [List.cons_append, NumberState.run, NumberState.run]
    cases st.step u with
    | none => rfl
    | some st' => exact ih st'

/-- The states that digits lead to do not change with the next digit. -/
theorem run_digits {st st' : NumberState} (hfirst : ∀ u, isDigit u = true → st.step u = some st')
    (hnext : ∀ u, isDigit u = true → st'.step u = some st') {s : JsString} (hs : Digits s)
    (hne : s ≠ []) : st.run s = some st' := by
  have hstay : ∀ {s}, Digits s → st'.run s = some st' := by
    intro s hs
    induction s with
    | nil => rfl
    | cons u s ih =>
      rw [NumberState.run, hnext u (hs u List.mem_cons_self), Option.bind_some]
      exact ih fun v hv => hs v (List.mem_cons_of_mem u hv)
  rcases s with _ | ⟨u, s⟩
  · exact absurd rfl hne
  · rw [NumberState.run, hfirst u (hs u List.mem_cons_self), Option.bind_some]
    exact hstay fun v hv => hs v (List.mem_cons_of_mem u hv)

theorem step_int {u : UInt16} (h : isDigit u = true) : NumberState.int.step u = some .int := by
  simp [NumberState.step, h]

theorem step_frac {u : UInt16} (h : isDigit u = true) : NumberState.frac.step u = some .frac := by
  simp [NumberState.step, h]

theorem step_power {u : UInt16} (h : isDigit u = true) :
    NumberState.power.step u = some .power := by
  simp [NumberState.step, h]

/-- A minus leads to the state that expects the digits. -/
theorem run_minus (s : JsString) : NumberState.start.run (45 :: s) = NumberState.minus.run s := rfl

/-- The exponent of a layout, behind its digits. -/
theorem run_exponent {st : NumberState} (hst : st.step 101 = some .exp) {n : ℤ} (h : n ≠ 1) :
    st.run (101 :: (if 0 < n then 43 else 45) :: digitText (n - 1).natAbs) = some .power := by
  have hsign : NumberState.exp.step (if 0 < n then 43 else 45) = some .sign := by
    split <;> rfl
  have hne : digitText (n - 1).natAbs ≠ [] := by
    obtain ⟨u, s, htext, -⟩ := exists_head_digitText (n := (n - 1).natAbs) (by omega)
    rw [htext]
    exact List.cons_ne_nil u s
  rw [NumberState.run, hst, Option.bind_some, NumberState.run, hsign, Option.bind_some]
  refine run_digits (fun u hu => ?_) (fun u hu => step_power hu) (digits_digitText _) hne
  simp [NumberState.step, hu]

/-- A layout is a JSON number, as it is and behind a minus. -/
theorem run_layout {s : ℕ} (hs : s ≠ 0) (n : ℤ) {st : NumberState}
    (hzero : st.step 48 = some .zero)
    (hdigit : ∀ u, isDigit u = true → u ≠ 48 → st.step u = some .int) :
    st.run (layout s n) = some .int ∨ st.run (layout s n) = some .frac ∨
      st.run (layout s n) = some .power := by
  have hdigits := digits_digitText s
  obtain ⟨d, ds, htext, hd, hne⟩ := exists_head_digitText hs
  have hrest : Digits ds := by
    rw [htext] at hdigits
    exact fun u hu => hdigits u (List.mem_cons_of_mem d hu)
  -- the first digit is not zero
  have hlead : ∀ {t}, Digits t → st.run (d :: t) = some .int := by
    intro t ht
    rw [NumberState.run, hdigit d hd hne, Option.bind_some]
    rcases t with _ | ⟨u, t⟩
    · rfl
    · exact run_digits (fun u hu => step_int hu) (fun u hu => step_int hu) ht
        (List.cons_ne_nil u t)
  have hdot : ∀ u, isDigit u = true → NumberState.dot.step u = some .frac := by
    intro u hu
    simp [NumberState.step, hu]
  have hfrac : ∀ {t}, Digits t → t ≠ [] → NumberState.int.run (46 :: t) = some .frac := by
    intro t ht hne
    exact run_digits hdot (fun u hu => step_frac hu) ht hne
  rw [layout]
  dsimp only
  split
  · left
    rw [htext, List.cons_append]
    exact hlead (hrest.append (digits_zeros _))
  next hlong =>
  split
  · next hinside =>
    right; left
    obtain ⟨m, hm⟩ : ∃ m, n.toNat = m + 1 := ⟨n.toNat - 1, by omega⟩
    have hlength : (digitText s).length = ds.length + 1 := by rw [htext, List.length_cons]
    have hdrop : ds.drop m ≠ [] := by
      rw [ne_eq, List.drop_eq_nil_iff]
      omega
    rw [htext, hm, List.take_succ_cons, List.drop_succ_cons, run_append,
      hlead fun u hu => hrest u (List.mem_of_mem_take hu), Option.bind_some]
    exact hfrac (fun u hu => hrest u (List.mem_of_mem_drop hu)) hdrop
  next hinside =>
  split
  · right; left
    have hall := (digits_zeros (-n).toNat).append hdigits
    have hnonempty : List.replicate (-n).toNat 48 ++ digitText s ≠ [] := by
      rw [htext]
      exact List.append_ne_nil_of_right_ne_nil _ (List.cons_ne_nil d ds)
    rw [NumberState.run, hzero, Option.bind_some]
    exact run_digits hdot (fun u hu => step_frac hu) hall hnonempty
  next hsmall =>
  · right; right
    have hexponent : n ≠ 1 := by
      rintro rfl
      omega
    rw [htext]
    rcases ds with _ | ⟨d', ds⟩
    · show st.run ([d] ++ _) = some .power
      rw [run_append, hlead fun u hu => absurd hu List.not_mem_nil, Option.bind_some]
      exact run_exponent rfl hexponent
    · show st.run ([d] ++ 46 :: (d' :: ds ++ _)) = some .power
      rw [run_append, hlead fun u hu => absurd hu List.not_mem_nil, Option.bind_some,
        ← List.cons_append, run_append, hfrac hrest (List.cons_ne_nil d' ds), Option.bind_some]
      exact run_exponent rfl hexponent

/-- The numbers that JSON knows. -/
abbrev FiniteNumber := { x : Number // x.isFinite = true }

theorem isNumberLiteral_toText (x : FiniteNumber) : isNumberLiteral x.val.toText = true := by
  have hliteral : ∀ {s : JsString}, NumberState.start.run s = some .int ∨
      NumberState.start.run s = some .frac ∨ NumberState.start.run s = some .power →
      isNumberLiteral s = true := by
    rintro s (h | h | h) <;> rw [isNumberLiteral, h]
  have hne : ∀ {q : ℚ}, IsDouble q → 0 < q → (shortest q).1 ≠ 0 := by
    intro q h hq
    obtain ⟨k, hk, -, hreads⟩ := reads_shortest h hq
    exact (length_digitText_of_reads hk hreads).1
  have hdigit : ∀ u, isDigit u = true → u ≠ 48 →
      NumberState.start.step u = some .int ∧ NumberState.minus.step u = some .int := by
    intro u hu hzero
    have hminus : u ≠ 45 := by
      rintro rfl
      revert hu
      decide
    simp [NumberState.step, hu, hzero, hminus]
  obtain ⟨x, hx⟩ := x
  cases x with
  | nan => cases hx
  | infinity => cases hx
  | negInfinity => cases hx
  | finite q h =>
    show isNumberLiteral (Number.finite q h).toText = true
    rw [Number.toText]
    split
    · decide
    next hzero =>
    split
    · next hpos =>
      exact hliteral (run_layout (hne h hpos) _ rfl fun u hu hu' => (hdigit u hu hu').1)
    · next hneg =>
      have hpos : 0 < -q := neg_pos.mpr (lt_of_le_of_ne (not_lt.mp hneg) hzero)
      apply hliteral
      rw [run_minus]
      exact run_layout (hne h.neg hpos) _ rfl fun u hu hu' => (hdigit u hu hu').2

/-- Finite numbers and their texts, as JSON needs them. -/
def numberText : NumberText FiniteNumber where
  toText x := x.val.toText
  ofText s := if h : (Number.ofText s).isFinite = true then ⟨Number.ofText s, h⟩
    else ⟨.finite 0 isDouble_zero, rfl⟩
  isNumberLiteral_toText := isNumberLiteral_toText
  ofText_toText := by
    rintro ⟨x, hx⟩
    simp only [Number.ofText_toText, dif_pos hx]

/-! ### Short texts -/

theorem length_digitText_le {m k : ℕ} (h : m < 10 ^ k) : (digitText m).length ≤ k := by
  rw [length_digitText]
  exact (Nat.digits_length_le_iff (by norm_num) m).mpr h

theorem length_layout {s : ℕ} {n : ℤ} (hlow : -900 ≤ n) (hhigh : n ≤ 900) :
    (layout s n).length ≤ (digitText s).length + 30 := by
  have hexponent : (digitText (n - 1).natAbs).length ≤ 3 := length_digitText_le (by omega)
  rw [layout]
  dsimp only
  split
  · rw [List.length_append, List.length_replicate]
    omega
  split
  · rw [List.length_append, List.length_cons, List.length_take, List.length_drop]
    omega
  split
  · rw [List.length_cons, List.length_cons, List.length_append, List.length_replicate]
    omega
  · split
    · rw [List.length_cons, List.length_cons]
      omega
    · rw [List.length_cons, List.length_cons, List.length_cons]
      omega
    · next d rest _ htext =>
      rw [htext, List.length_cons, List.length_cons, List.length_append, List.length_cons,
        List.length_cons, List.length_cons]
      omega

/-- The text of a number is short, and has no units but those of numbers and of names. -/
theorem toText_spec {x : Number} (hx : x.isFinite = true) :
    x.toText.length ≤ 2000 ∧ ∀ u ∈ x.toText, isNumberUnit u = true := by
  have hpositive : ∀ {q : ℚ}, IsDouble q → 0 < q →
      (positiveText q).length ≤ 1500 ∧ ∀ u ∈ positiveText q, isNumberUnit u = true := by
    intro q h hq
    obtain ⟨k, hk, hmax, hreads⟩ := reads_shortest h hq
    obtain ⟨hne, hlength⟩ := length_digitText_of_reads hk hreads
    obtain ⟨hlow, hhigh⟩ := log_bounds h hq
    have hplace := hreads.place
    have hlayout := length_layout (s := (shortest q).1) (n := (shortest q).2) (by omega) (by omega)
    rw [positiveText]
    rw [maxDigits] at hmax
    exact ⟨by omega, (layout_spec hne _).1⟩
  cases x with
  | nan => cases hx
  | infinity => cases hx
  | negInfinity => cases hx
  | finite q h =>
    rw [Number.toText]
    split
    · exact ⟨by decide, by decide⟩
    split
    · next hpos =>
      obtain ⟨hlength, hunits⟩ := hpositive h hpos
      exact ⟨by omega, hunits⟩
    · next hzero hneg =>
      have hpos : 0 < -q := neg_pos.mpr (lt_of_le_of_ne (not_lt.mp hneg) hzero)
      obtain ⟨hlength, hunits⟩ := hpositive h.neg hpos
      refine ⟨by rw [List.length_cons]; omega, fun u hu => ?_⟩
      rcases List.mem_cons.mp hu with rfl | hu
      · rfl
      · exact hunits u hu

end Double
