/-
UTF-8 validation.

`isSafeUtf8` checks a range of a byte array without decoding it.  The model reads
the array through `octet`, which is `none` outside of it, so that a read outside
the input or a loop that does not end shows up as `none` and not as an answer.

* `IsUtf8` — the concatenations of the standard encodings of characters;
* `isUtf8_cons_iff` — the table of well-formed byte sequences;
* `isSafeUtf8_eq` — the scan always answers, and it answers what `isUtf8` does;
* `decodeUtf8_utf8` — a well-formed string survives being written and read.
-/
import LazyLayers.JsString

namespace Js

abbrev Bytes := List UInt8

/-- `input[position]` -/
def octet (input : Bytes) (position : ℕ) : Option ℕ := input[position]?.map UInt8.toNat

/-- What `subarray(start, stop)` shows of the input. -/
def window (input : Bytes) (start stop : ℕ) : Bytes := (input.drop start).take (stop - start)

/-! ### The scan -/

def isContinuation (byte : ℕ) : Bool := 0x80 ≤ byte && byte ≤ 0xBF

/-- The second byte of three, which also excludes overlong forms and surrogates. -/
def secondOfThree (first second : ℕ) : Bool :=
  if first = 0xE0 then 0xA0 ≤ second && second ≤ 0xBF
  else if first = 0xED then 0x80 ≤ second && second ≤ 0x9F
  else isContinuation second

/-- The second byte of four, which also excludes overlong forms and what lies above U+10FFFF. -/
def secondOfFour (first second : ℕ) : Bool :=
  if first = 0xF0 then 0x90 ≤ second && second ≤ 0xBF
  else if first = 0xF4 then 0x80 ≤ second && second ≤ 0x8F
  else isContinuation second

/-- The loop of `isSafeUtf8`. -/
def isSafeUtf8From (input : Bytes) (stop : ℕ) : ℕ → ℕ → Option Bool
  | 0, _ => none
  | rounds + 1, position => do
    if stop ≤ position then return true
    let first ← octet input position
    if first < 0x80 then isSafeUtf8From input stop rounds (position + 1)
    else if 0xC2 ≤ first ∧ first ≤ 0xDF then
      if stop ≤ position + 1 then return false
      if !isContinuation (← octet input (position + 1)) then return false
      isSafeUtf8From input stop rounds (position + 2)
    else if 0xE0 ≤ first ∧ first ≤ 0xEF then
      if stop ≤ position + 2 then return false
      if !secondOfThree first (← octet input (position + 1)) then return false
      if !isContinuation (← octet input (position + 2)) then return false
      isSafeUtf8From input stop rounds (position + 3)
    else if 0xF0 ≤ first ∧ first ≤ 0xF4 then
      if stop ≤ position + 3 then return false
      if !secondOfFour first (← octet input (position + 1)) then return false
      if !isContinuation (← octet input (position + 2)) then return false
      if !isContinuation (← octet input (position + 3)) then return false
      isSafeUtf8From input stop rounds (position + 4)
    else return false

/-- Every round moves on by a byte, so the length of the range bounds the rounds. -/
def isSafeUtf8 (input : Bytes) (start stop : ℕ) : Option Bool :=
  isSafeUtf8From input stop (stop - start + 1) start

/-- `isUtf8` of `node:buffer`. -/
def isUtf8 (bytes : Bytes) : Bool := ByteArray.validateUTF8 bytes.toByteArray

/-! ### Well-formed byte sequences -/

/-- A concatenation of encoded characters. -/
def IsUtf8 (bytes : Bytes) : Prop := ∃ cs : List Char, bytes = cs.flatMap String.utf8EncodeChar

theorem isUtf8_iff (bytes : Bytes) : isUtf8 bytes = true ↔ IsUtf8 bytes := by
  rw [isUtf8, ByteArray.validateUTF8_eq_true_iff]
  constructor
  · rintro ⟨cs, hcs⟩
    refine ⟨cs, ?_⟩
    rw [List.utf8Encode] at hcs
    have h := congrArg (fun b => b.data.toList) hcs
    simpa using h
  · rintro ⟨cs, rfl⟩
    exact ⟨cs, rfl⟩

theorem IsUtf8.nil : IsUtf8 [] := ⟨[], rfl⟩

theorem IsUtf8.append {s t : Bytes} (hs : IsUtf8 s) (ht : IsUtf8 t) : IsUtf8 (s ++ t) := by
  obtain ⟨cs, rfl⟩ := hs
  obtain ⟨ds, rfl⟩ := ht
  exact ⟨cs ++ ds, List.flatMap_append.symm⟩

/-- The encoding of a character, as numbers. -/
theorem toNat_utf8EncodeChar (c : Char) : (String.utf8EncodeChar c).map UInt8.toNat =
    if c.toNat < 0x80 then [c.toNat]
    else if c.toNat < 0x800 then [0xC0 + c.toNat / 64, 0x80 + c.toNat % 64]
    else if c.toNat < 0x10000 then
      [0xE0 + c.toNat / 4096, 0x80 + c.toNat / 64 % 64, 0x80 + c.toNat % 64]
    else [0xF0 + c.toNat / 262144, 0x80 + c.toNat / 4096 % 64, 0x80 + c.toNat / 64 % 64,
      0x80 + c.toNat % 64] := by
  have hmax : c.val.toNat < 0x110000 := by
    rcases c.valid with h | h
    · exact h.trans (by decide)
    · exact h.2
  rw [String.utf8EncodeChar]
  have hval : c.toNat = c.val.toNat := rfl
  rw [hval]
  generalize c.val.toNat = v at hmax
  split_ifs <;> first
    | omega
    | (simp only [List.map_cons, List.map_nil, UInt8.toNat_ofNat', List.cons.injEq, and_true]
       omega)

/-- The table of well-formed byte sequences. -/
inductive Sequence : List ℕ → Prop
  | one {a : ℕ} (ha : a < 0x80) : Sequence [a]
  | two {a b : ℕ} (ha : 0xC2 ≤ a ∧ a ≤ 0xDF) (hb : isContinuation b) : Sequence [a, b]
  | three {a b c : ℕ} (ha : 0xE0 ≤ a ∧ a ≤ 0xEF) (hb : secondOfThree a b) (hc : isContinuation c) :
    Sequence [a, b, c]
  | four {a b c d : ℕ} (ha : 0xF0 ≤ a ∧ a ≤ 0xF4) (hb : secondOfFour a b) (hc : isContinuation c)
    (hd : isContinuation d) : Sequence [a, b, c, d]

theorem isContinuation_iff (b : ℕ) : isContinuation b = true ↔ 0x80 ≤ b ∧ b ≤ 0xBF := by
  rw [isContinuation, Bool.and_eq_true, decide_eq_true_eq, decide_eq_true_eq]

theorem secondOfThree_iff (a b : ℕ) : secondOfThree a b = true ↔
    0x80 ≤ b ∧ b ≤ 0xBF ∧ (a = 0xE0 → 0xA0 ≤ b) ∧ (a = 0xED → b ≤ 0x9F) := by
  rw [secondOfThree]
  split_ifs <;> simp only [isContinuation, Bool.and_eq_true, decide_eq_true_eq] <;> omega

theorem secondOfFour_iff (a b : ℕ) : secondOfFour a b = true ↔
    0x80 ≤ b ∧ b ≤ 0xBF ∧ (a = 0xF0 → 0x90 ≤ b) ∧ (a = 0xF4 → b ≤ 0x8F) := by
  rw [secondOfFour]
  split_ifs <;> simp only [isContinuation, Bool.and_eq_true, decide_eq_true_eq] <;> omega

theorem sequence_utf8EncodeChar (c : Char) :
    Sequence ((String.utf8EncodeChar c).map UInt8.toNat) := by
  rw [toNat_utf8EncodeChar]
  have hvalid : c.toNat < 0xD800 ∨ (0xDFFF < c.toNat ∧ c.toNat < 0x110000) := c.valid
  generalize c.toNat = v at hvalid
  split_ifs
  · exact .one (by omega)
  · exact .two (by omega) ((isContinuation_iff _).mpr (by omega))
  · exact .three (by omega) ((secondOfThree_iff _ _).mpr (by omega))
      ((isContinuation_iff _).mpr (by omega))
  · exact .four (by omega) ((secondOfFour_iff _ _).mpr (by omega))
      ((isContinuation_iff _).mpr (by omega)) ((isContinuation_iff _).mpr (by omega))

/-- Every sequence of the table encodes a character. -/
theorem Sequence.exists_char {ns : List ℕ} (h : Sequence ns) :
    ∃ c : Char, (String.utf8EncodeChar c).map UInt8.toNat = ns := by
  have hchar : ∀ v : ℕ, (v < 0xD800 ∨ (0xDFFF < v ∧ v < 0x110000)) →
      (String.utf8EncodeChar (Char.ofNat v)).map UInt8.toNat =
        if v < 0x80 then [v]
        else if v < 0x800 then [0xC0 + v / 64, 0x80 + v % 64]
        else if v < 0x10000 then [0xE0 + v / 4096, 0x80 + v / 64 % 64, 0x80 + v % 64]
        else [0xF0 + v / 262144, 0x80 + v / 4096 % 64, 0x80 + v / 64 % 64, 0x80 + v % 64] := by
    intro v hv
    rw [toNat_utf8EncodeChar, toNat_ofNat hv]
  cases h with
  | @one a ha =>
    refine ⟨Char.ofNat a, ?_⟩
    rw [hchar a (by omega), if_pos ha]
  | @two a b ha hb =>
    rw [isContinuation_iff] at hb
    refine ⟨Char.ofNat ((a - 0xC0) * 64 + (b - 0x80)), ?_⟩
    rw [hchar _ (by omega), if_neg (by omega), if_pos (by omega)]
    simp only [List.cons.injEq, and_true]
    omega
  | @three a b c ha hb hc =>
    rw [secondOfThree_iff] at hb
    rw [isContinuation_iff] at hc
    refine ⟨Char.ofNat ((a - 0xE0) * 4096 + (b - 0x80) * 64 + (c - 0x80)), ?_⟩
    rw [hchar _ (by omega), if_neg (by omega), if_neg (by omega), if_pos (by omega)]
    simp only [List.cons.injEq, and_true]
    omega
  | @four a b c d ha hb hc hd =>
    rw [secondOfFour_iff] at hb
    rw [isContinuation_iff] at hc hd
    refine ⟨Char.ofNat ((a - 0xF0) * 262144 + (b - 0x80) * 4096 + (c - 0x80) * 64 + (d - 0x80)), ?_⟩
    rw [hchar _ (by omega), if_neg (by omega), if_neg (by omega), if_neg (by omega)]
    simp only [List.cons.injEq, and_true]
    omega

theorem map_toNat_inj {s t : Bytes} (h : s.map UInt8.toNat = t.map UInt8.toNat) : s = t :=
  List.map_injective_iff.mpr (fun _ _ h => UInt8.toNat_inj.mp h) h

/-- A text that is not empty is a sequence of the table and a text. -/
theorem isUtf8_cons_iff (a : UInt8) (bytes : Bytes) : IsUtf8 (a :: bytes) ↔
    a.toNat < 0x80 ∧ IsUtf8 bytes ∨
    (∃ b r, bytes = b :: r ∧ (0xC2 ≤ a.toNat ∧ a.toNat ≤ 0xDF) ∧ isContinuation b.toNat ∧
      IsUtf8 r) ∨
    (∃ b c r, bytes = b :: c :: r ∧ (0xE0 ≤ a.toNat ∧ a.toNat ≤ 0xEF) ∧
      secondOfThree a.toNat b.toNat ∧ isContinuation c.toNat ∧ IsUtf8 r) ∨
    (∃ b c d r, bytes = b :: c :: d :: r ∧ (0xF0 ≤ a.toNat ∧ a.toNat ≤ 0xF4) ∧
      secondOfFour a.toNat b.toNat ∧ isContinuation c.toNat ∧ isContinuation d.toNat ∧
      IsUtf8 r) := by
  have happend : ∀ {s r : Bytes}, Sequence (s.map UInt8.toNat) → IsUtf8 r → IsUtf8 (s ++ r) := by
    intro s r hseq hr
    obtain ⟨c, hc⟩ := hseq.exists_char
    rw [← map_toNat_inj hc]
    exact IsUtf8.append ⟨[c], by simp⟩ hr
  constructor
  · rintro ⟨cs, hcs⟩
    cases cs with
    | nil => cases hcs
    | cons c cs =>
      have hseq := sequence_utf8EncodeChar c
      rw [List.flatMap_cons] at hcs
      have hr : IsUtf8 (cs.flatMap String.utf8EncodeChar) := ⟨cs, rfl⟩
      generalize String.utf8EncodeChar c = s at hcs hseq
      generalize hns : s.map UInt8.toNat = ns at hseq
      cases hseq with
      | one ha =>
        obtain ⟨x, rfl, rfl⟩ : ∃ x, s = [x] ∧ x.toNat = _ := by simpa using hns
        obtain ⟨rfl, rfl⟩ := List.cons.inj hcs
        exact .inl ⟨ha, hr⟩
      | two ha hb =>
        obtain ⟨x, y, rfl, rfl, rfl⟩ : ∃ x y, s = [x, y] ∧ x.toNat = _ ∧ y.toNat = _ := by
          rcases s with _ | ⟨x, _ | ⟨y, _ | ⟨z, s⟩⟩⟩ <;> simp at hns
          exact ⟨x, y, rfl, hns⟩
        obtain ⟨rfl, rfl⟩ := List.cons.inj hcs
        exact .inr (.inl ⟨y, _, rfl, ha, hb, hr⟩)
      | three ha hb hc =>
        obtain ⟨x, y, z, rfl, rfl, rfl, rfl⟩ : ∃ x y z, s = [x, y, z] ∧ x.toNat = _ ∧
            y.toNat = _ ∧ z.toNat = _ := by
          rcases s with _ | ⟨x, _ | ⟨y, _ | ⟨z, _ | ⟨u, s⟩⟩⟩⟩ <;> simp at hns
          exact ⟨x, y, z, rfl, hns⟩
        obtain ⟨rfl, rfl⟩ := List.cons.inj hcs
        exact .inr (.inr (.inl ⟨y, z, _, rfl, ha, hb, hc, hr⟩))
      | four ha hb hc hd =>
        obtain ⟨x, y, z, u, rfl, rfl, rfl, rfl, rfl⟩ : ∃ x y z u, s = [x, y, z, u] ∧
            x.toNat = _ ∧ y.toNat = _ ∧ z.toNat = _ ∧ u.toNat = _ := by
          rcases s with _ | ⟨x, _ | ⟨y, _ | ⟨z, _ | ⟨u, _ | ⟨v, s⟩⟩⟩⟩⟩ <;> simp at hns
          exact ⟨x, y, z, u, rfl, hns⟩
        obtain ⟨rfl, rfl⟩ := List.cons.inj hcs
        exact .inr (.inr (.inr ⟨y, z, u, _, rfl, ha, hb, hc, hd, hr⟩))
  · rintro (⟨ha, hr⟩ | ⟨b, r, rfl, ha, hb, hr⟩ | ⟨b, c, r, rfl, ha, hb, hc, hr⟩ |
      ⟨b, c, d, r, rfl, ha, hb, hc, hd, hr⟩)
    · exact @happend [a] bytes (.one ha) hr
    · exact @happend [a, b] r (.two ha hb) hr
    · exact @happend [a, b, c] r (.three ha hb hc) hr
    · exact @happend [a, b, c, d] r (.four ha hb hc hd) hr

/-- What follows a byte below 0x80. -/
theorem isUtf8_one_iff {a : UInt8} (ha : a.toNat < 0x80) (bytes : Bytes) :
    IsUtf8 (a :: bytes) ↔ IsUtf8 bytes := by
  rw [isUtf8_cons_iff]
  constructor
  · rintro (⟨-, h⟩ | ⟨b, r, -, ha', -⟩ | ⟨b, c, r, -, ha', -⟩ | ⟨b, c, d, r, -, ha', -⟩)
    · exact h
    all_goals omega
  · intro h
    exact .inl ⟨ha, h⟩

theorem isUtf8_two_iff {a : UInt8} (ha : 0xC2 ≤ a.toNat ∧ a.toNat ≤ 0xDF) (bytes : Bytes) :
    IsUtf8 (a :: bytes) ↔ ∃ b r, bytes = b :: r ∧ isContinuation b.toNat ∧ IsUtf8 r := by
  rw [isUtf8_cons_iff]
  constructor
  · rintro (⟨ha', -⟩ | ⟨b, r, hbytes, -, hb, h⟩ | ⟨b, c, r, -, ha', -⟩ | ⟨b, c, d, r, -, ha', -⟩)
    · omega
    · exact ⟨b, r, hbytes, hb, h⟩
    all_goals omega
  · rintro ⟨b, r, hbytes, hb, h⟩
    exact .inr (.inl ⟨b, r, hbytes, ha, hb, h⟩)

theorem isUtf8_three_iff {a : UInt8} (ha : 0xE0 ≤ a.toNat ∧ a.toNat ≤ 0xEF) (bytes : Bytes) :
    IsUtf8 (a :: bytes) ↔ ∃ b c r, bytes = b :: c :: r ∧ secondOfThree a.toNat b.toNat ∧
      isContinuation c.toNat ∧ IsUtf8 r := by
  rw [isUtf8_cons_iff]
  constructor
  · rintro (⟨ha', -⟩ | ⟨b, r, -, ha', -⟩ | ⟨b, c, r, hbytes, -, hb, hc, h⟩ |
      ⟨b, c, d, r, -, ha', -⟩)
    · omega
    · omega
    · exact ⟨b, c, r, hbytes, hb, hc, h⟩
    · omega
  · rintro ⟨b, c, r, hbytes, hb, hc, h⟩
    exact .inr (.inr (.inl ⟨b, c, r, hbytes, ha, hb, hc, h⟩))

theorem isUtf8_four_iff {a : UInt8} (ha : 0xF0 ≤ a.toNat ∧ a.toNat ≤ 0xF4) (bytes : Bytes) :
    IsUtf8 (a :: bytes) ↔ ∃ b c d r, bytes = b :: c :: d :: r ∧ secondOfFour a.toNat b.toNat ∧
      isContinuation c.toNat ∧ isContinuation d.toNat ∧ IsUtf8 r := by
  rw [isUtf8_cons_iff]
  constructor
  · rintro (⟨ha', -⟩ | ⟨b, r, -, ha', -⟩ | ⟨b, c, r, -, ha', -⟩ |
      ⟨b, c, d, r, hbytes, -, hb, hc, hd, h⟩)
    · omega
    · omega
    · omega
    · exact ⟨b, c, d, r, hbytes, hb, hc, hd, h⟩
  · rintro ⟨b, c, d, r, hbytes, hb, hc, hd, h⟩
    exact .inr (.inr (.inr ⟨b, c, d, r, hbytes, ha, hb, hc, hd, h⟩))

/-! ### The scan answers, and answers right -/

section Scan

variable {input : Bytes} {stop position : ℕ}

theorem window_of_le (h : stop ≤ position) : window input position stop = [] := by
  rw [window, Nat.sub_eq_zero_of_le h, List.take_zero]

theorem length_window (hstop : stop ≤ input.length) :
    (window input position stop).length = stop - position := by
  rw [window, List.length_take, List.length_drop]
  omega

/-- The byte at a position inside the range. -/
theorem window_cons (h : position < stop) (hstop : stop ≤ input.length) :
    ∃ a : UInt8, octet input position = some a.toNat ∧
      window input position stop = a :: window input (position + 1) stop := by
  have hlt : position < input.length := by omega
  refine ⟨input[position], ?_, ?_⟩
  · rw [octet, List.getElem?_eq_getElem hlt, Option.map_some]
  · have hsub : stop - position = stop - (position + 1) + 1 := by omega
    rw [window, window, List.drop_eq_getElem_cons hlt, hsub, List.take_succ_cons]

theorem some_eq_isUtf8 {bytes : Bytes} {b : Bool} (h : IsUtf8 bytes ↔ b = true) :
    some b = some (isUtf8 bytes) := by
  rw [Option.some.injEq, Bool.eq_iff_iff, isUtf8_iff, h]

/-- A test in front of a scan that answers. -/
theorem ite_not_eq_some {fits b : Bool} {scan : Option Bool} (h : scan = some b) :
    (if !fits then some false else scan) = some (fits && b) := by
  cases fits with
  | false => rfl
  | true => exact h

/-- The scan of a range inside the input ends, reads nothing outside of it, and
accepts UTF-8 only. -/
theorem isSafeUtf8From_eq (hstop : stop ≤ input.length) : ∀ {rounds position : ℕ},
    stop - position < rounds →
    isSafeUtf8From input stop rounds position = some (isUtf8 (window input position stop)) := by
  intro rounds
  induction rounds with
  | zero =>
    intro position h
    omega
  | succ rounds ih =>
    intro position hrounds
    rw [isSafeUtf8From]
    by_cases hend : stop ≤ position
    · rw [if_pos hend, window_of_le hend]
      exact some_eq_isUtf8 (iff_of_true IsUtf8.nil rfl)
    have hshort : ∀ k, 0 < k → isSafeUtf8From input stop rounds (position + k) =
        some (isUtf8 (window input (position + k) stop)) := fun k hk => ih (by omega)
    obtain ⟨a, hoctet, hcons⟩ := @window_cons input stop position (by omega) hstop
    rw [if_neg hend, hoctet, hcons]
    show (if a.toNat < 0x80 then _ else _) = _
    split_ifs with hone htwo hroom hthree hroom hfour hroom
    · rw [hshort 1 (by omega), Option.some.injEq, Bool.eq_iff_iff, isUtf8_iff, isUtf8_iff,
        isUtf8_one_iff hone]
    · refine some_eq_isUtf8 (iff_of_false ?_ (by simp))
      rw [isUtf8_two_iff htwo, window_of_le hroom]
      simp
    · obtain ⟨b, hb, hbcons⟩ := @window_cons input stop (position + 1) (by omega) hstop
      rw [hb, hbcons]
      refine (ite_not_eq_some (hshort 2 (by omega))).trans (some_eq_isUtf8 ?_)
      rw [isUtf8_two_iff htwo]
      simp [isUtf8_iff]
    · refine some_eq_isUtf8 (iff_of_false ?_ (by simp))
      rw [isUtf8_three_iff hthree]
      rintro ⟨b, c, r, hbytes, -⟩
      have hlen := congrArg List.length hbytes
      rw [length_window hstop, List.length_cons, List.length_cons] at hlen
      omega
    · obtain ⟨b, hb, hbcons⟩ := @window_cons input stop (position + 1) (by omega) hstop
      obtain ⟨c, hc, hccons⟩ := @window_cons input stop (position + 2) (by omega) hstop
      rw [hb, hbcons, hc, hccons]
      refine (ite_not_eq_some (ite_not_eq_some (hshort 3 (by omega)))).trans (some_eq_isUtf8 ?_)
      rw [isUtf8_three_iff hthree]
      simp [isUtf8_iff]
    · refine some_eq_isUtf8 (iff_of_false ?_ (by simp))
      rw [isUtf8_four_iff hfour]
      rintro ⟨b, c, d, r, hbytes, -⟩
      have hlen := congrArg List.length hbytes
      rw [length_window hstop, List.length_cons, List.length_cons, List.length_cons] at hlen
      omega
    · obtain ⟨b, hb, hbcons⟩ := @window_cons input stop (position + 1) (by omega) hstop
      obtain ⟨c, hc, hccons⟩ := @window_cons input stop (position + 2) (by omega) hstop
      obtain ⟨d, hd, hdcons⟩ := @window_cons input stop (position + 3) (by omega) hstop
      rw [hb, hbcons, hc, hccons, hd, hdcons]
      refine (ite_not_eq_some (ite_not_eq_some (ite_not_eq_some (hshort 4 (by omega))))).trans
        (some_eq_isUtf8 ?_)
      rw [isUtf8_four_iff hfour]
      simp [isUtf8_iff]
    -- no other byte begins a character
    · refine some_eq_isUtf8 (iff_of_false ?_ (by simp))
      rw [isUtf8_cons_iff]
      rintro (⟨h, -⟩ | ⟨b, r, -, h, -⟩ | ⟨b, c, r, -, h, -⟩ | ⟨b, c, d, r, -, h, -⟩)
      · exact hone h
      · exact htwo h
      · exact hthree h
      · exact hfour h

/-- **`isSafeUtf8` is `isUtf8` of the range**, for every range of the input. -/
theorem isSafeUtf8_eq {start : ℕ} (hstop : stop ≤ input.length) :
    isSafeUtf8 input start stop = some (isUtf8 (window input start stop)) :=
  isSafeUtf8From_eq hstop (by omega)

end Scan

/-! ### Writing and reading -/

theorem decodeUtf8From_cons (st : Utf8State) (b : UInt8) (bytes : Bytes) :
    decodeUtf8From st (b :: bytes) =
      (octetStep st b.toNat).1 ++ decodeUtf8From (octetStep st b.toNat).2 bytes := by
  rw [decodeUtf8From]

theorem octetStep_idle (b : ℕ) : octetStep .idle b = leadOctet b := if_pos rfl

theorem octetStep_one {b : ℕ} (hb : b < 0x80) : octetStep .idle b = ([UInt16.ofNat b], .idle) := by
  rw [octetStep_idle, leadOctet, if_pos hb]

theorem octetStep_two {b : ℕ} (hb : 0xC2 ≤ b ∧ b ≤ 0xDF) :
    octetStep .idle b = ([], ⟨1, b - 0xC0, 0x80, 0xBF⟩) := by
  rw [octetStep_idle, leadOctet, if_neg (by omega), if_pos hb]

theorem octetStep_three {b : ℕ} (hb : 0xE0 ≤ b ∧ b ≤ 0xEF) : octetStep .idle b =
    ([], ⟨2, b - 0xE0, if b = 0xE0 then 0xA0 else 0x80, if b = 0xED then 0x9F else 0xBF⟩) := by
  rw [octetStep_idle, leadOctet, if_neg (by omega), if_neg (by omega), if_pos hb]

theorem octetStep_four {b : ℕ} (hb : 0xF0 ≤ b ∧ b ≤ 0xF4) : octetStep .idle b =
    ([], ⟨3, b - 0xF0, if b = 0xF0 then 0x90 else 0x80, if b = 0xF4 then 0x8F else 0xBF⟩) := by
  rw [octetStep_idle, leadOctet, if_neg (by omega), if_neg (by omega), if_neg (by omega),
    if_pos hb]

theorem octetStep_continue {n point lower upper b : ℕ} (hb : lower ≤ b ∧ b ≤ upper) :
    octetStep ⟨n + 2, point, lower, upper⟩ b =
      ([], ⟨n + 1, point * 64 + (b - 0x80), 0x80, 0xBF⟩) := by
  rw [octetStep, if_neg (by simp), if_pos hb]
  exact if_neg (by simp)

theorem octetStep_last {point lower upper b : ℕ} (hb : lower ≤ b ∧ b ≤ upper) :
    octetStep ⟨1, point, lower, upper⟩ b =
      (units (Char.ofNat (point * 64 + (b - 0x80))), .idle) := by
  rw [octetStep, if_neg (by simp), if_pos hb]
  exact if_pos rfl

/-- The reader writes an encoded character and is between characters again. -/
theorem decodeUtf8From_utf8EncodeChar (c : Char) (bytes : Bytes) :
    decodeUtf8From .idle (String.utf8EncodeChar c ++ bytes) =
      units c ++ decodeUtf8From .idle bytes := by
  have hnat := toNat_utf8EncodeChar c
  have hvalid : c.toNat < 0xD800 ∨ (0xDFFF < c.toNat ∧ c.toNat < 0x110000) := c.valid
  have hchar : Char.ofNat c.toNat = c := Char.ofNat_toNat c
  generalize String.utf8EncodeChar c = s at hnat
  generalize hv : c.toNat = v at hnat hvalid hchar
  split_ifs at hnat with h1 h2 h3
  · obtain ⟨x, rfl, hx⟩ : ∃ x, s = [x] ∧ x.toNat = v := by simpa using hnat
    rw [List.singleton_append, decodeUtf8From_cons, hx, octetStep_one h1, units, hv,
      if_pos (by omega)]
  · obtain ⟨x, y, rfl, hx, hy⟩ : ∃ x y, s = [x, y] ∧ x.toNat = 0xC0 + v / 64 ∧
        y.toNat = 0x80 + v % 64 := by
      rcases s with _ | ⟨x, _ | ⟨y, _ | ⟨z, s⟩⟩⟩ <;> simp at hnat
      exact ⟨x, y, rfl, hnat⟩
    have hpoint : (0xC0 + v / 64 - 0xC0) * 64 + (0x80 + v % 64 - 0x80) = v := by omega
    rw [List.cons_append, List.singleton_append, decodeUtf8From_cons, hx,
      octetStep_two (by omega), decodeUtf8From_cons, hy, octetStep_last (by omega), hpoint, hchar]
    rfl
  · obtain ⟨x, y, z, rfl, hx, hy, hz⟩ : ∃ x y z, s = [x, y, z] ∧ x.toNat = 0xE0 + v / 4096 ∧
        y.toNat = 0x80 + v / 64 % 64 ∧ z.toNat = 0x80 + v % 64 := by
      rcases s with _ | ⟨x, _ | ⟨y, _ | ⟨z, _ | ⟨u, s⟩⟩⟩⟩ <;> simp at hnat
      exact ⟨x, y, z, rfl, hnat⟩
    have hpoint : ((0xE0 + v / 4096 - 0xE0) * 64 + (0x80 + v / 64 % 64 - 0x80)) * 64 +
        (0x80 + v % 64 - 0x80) = v := by omega
    rw [List.cons_append, List.cons_append, List.singleton_append, decodeUtf8From_cons, hx,
      octetStep_three (by omega), decodeUtf8From_cons, hy,
      octetStep_continue (n := 0) (by split_ifs <;> omega), decodeUtf8From_cons, hz,
      octetStep_last (by omega), hpoint, hchar]
    rfl
  · obtain ⟨x, y, z, u, rfl, hx, hy, hz, hu⟩ : ∃ x y z u, s = [x, y, z, u] ∧
        x.toNat = 0xF0 + v / 262144 ∧ y.toNat = 0x80 + v / 4096 % 64 ∧
        z.toNat = 0x80 + v / 64 % 64 ∧ u.toNat = 0x80 + v % 64 := by
      rcases s with _ | ⟨x, _ | ⟨y, _ | ⟨z, _ | ⟨u, _ | ⟨w, s⟩⟩⟩⟩⟩ <;> simp at hnat
      exact ⟨x, y, z, u, rfl, hnat⟩
    have hpoint : (((0xF0 + v / 262144 - 0xF0) * 64 + (0x80 + v / 4096 % 64 - 0x80)) * 64 +
        (0x80 + v / 64 % 64 - 0x80)) * 64 + (0x80 + v % 64 - 0x80) = v := by omega
    rw [List.cons_append, List.cons_append, List.cons_append, List.singleton_append,
      decodeUtf8From_cons, hx, octetStep_four (by omega), decodeUtf8From_cons, hy,
      octetStep_continue (n := 1) (by split_ifs <;> omega), decodeUtf8From_cons, hz,
      octetStep_continue (n := 0) (by omega), decodeUtf8From_cons, hu, octetStep_last (by omega),
      hpoint, hchar]
    rfl

theorem decodeUtf8_encoded (cs : List Char) :
    decodeUtf8 (cs.flatMap String.utf8EncodeChar) = cs.flatMap units := by
  rw [decodeUtf8]
  induction cs with
  | nil => rfl
  | cons c cs ih => rw [List.flatMap_cons, List.flatMap_cons, decodeUtf8From_utf8EncodeChar, ih]

/-- **Text survives the wire**: a string without lone surrogates is read back as written. -/
theorem decodeUtf8_utf8 {s : JsString} (hs : wellFormed s) : decodeUtf8 (utf8 s) = s := by
  obtain ⟨cs, hcs⟩ := exists_scalars_of_wellFormed hs
  rw [utf8_of_scalars hcs, decodeUtf8_encoded, ← eq_flatMap_units s cs hcs]

theorem isUtf8_utf8 (s : JsString) : isUtf8 (utf8 s) = true := by
  rw [isUtf8_iff]
  refine ⟨(scalars s).map fun c => c.getD (Char.ofNat 0xFFFD), ?_⟩
  rw [utf8, List.flatMap_map]

/-- A leading byte order mark is a character like any other. -/
theorem decodeUtf8_bom (bytes : Bytes) :
    decodeUtf8 (0xEF :: 0xBB :: 0xBF :: bytes) = 0xFEFF :: decodeUtf8 bytes :=
  decodeUtf8From_utf8EncodeChar (Char.ofNat 0xFEFF) bytes

end Js
