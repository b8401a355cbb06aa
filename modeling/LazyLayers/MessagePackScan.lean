/-
The MessagePack scan decides the grammar.

* `front` reads the beginning of a value off a list of bytes: a value without
  children, or the head of a container or wrapper (`leaf_iff`, `branch_iff`);
* `value_spec` — the dispatch of the scan follows `front` and adds its limits;
* `Frames` — the frames of the stack, each with the values it still owes and room
  for their nesting, cover the rest of the input (`frames_cons_iff`);
* `isSafeMessagePack_iff` — the scan ends, reads nothing outside of the input, and
  accepts exactly the complete encodings of one value within the limits.
-/
import LazyLayers.MessagePack

open Js

namespace DecodeValidation

/-! ### The formats -/

/-- The formats of the bytes from 0xC0 to 0xDF. -/
def namedFormats : List (Option Format) :=
  [some .single, none, some .single, some .single, some (.binary 1), some (.binary 2),
    some (.binary 4), some (.extension (.counted 1)), some (.extension (.counted 2)),
    some (.extension (.counted 4)), some (.number 4), some (.number 8), some (.number 1),
    some (.number 2), some (.number 4), some (.number 8), some (.number 1), some (.number 2),
    some (.number 4), some (.number 8), some (.extension (.given 1)),
    some (.extension (.given 2)), some (.extension (.given 4)), some (.extension (.given 8)),
    some (.extension (.given 16)), some (.string (.counted 1)), some (.string (.counted 2)),
    some (.string (.counted 4)), some (.array (.counted 2)), some (.array (.counted 4)),
    some (.map (.counted 2)), some (.map (.counted 4))]

/-- The format of a byte. -/
def format (t : ℕ) : Option Format :=
  if t < 0x80 ∨ 0xE0 ≤ t then some .single
  else if t < 0x90 then some (.map (.given (t - 0x80)))
  else if t < 0xA0 then some (.array (.given (t - 0x90)))
  else if t < 0xC0 then some (.string (.given (t - 0xA0)))
  else namedFormats.getD (t - 0xC0) none

theorem tag_of_format {t : ℕ} {f : Format} (ht : t < 256) (h : format t = some f) : Tag t f := by
  rw [format] at h
  split_ifs at h with hfix hmap harray hstr
  · obtain rfl := Option.some.inj h
    rcases hfix with hlow | hhigh
    · exact .positiveFixint (by omega)
    · exact .negativeFixint ⟨hhigh, by omega⟩
  · obtain rfl := Option.some.inj h
    obtain ⟨n, rfl⟩ : ∃ n, t = 0x80 + n := ⟨t - 0x80, by omega⟩
    rw [Nat.add_sub_cancel_left]
    exact .fixmap (by omega)
  · obtain rfl := Option.some.inj h
    obtain ⟨n, rfl⟩ : ∃ n, t = 0x90 + n := ⟨t - 0x90, by omega⟩
    rw [Nat.add_sub_cancel_left]
    exact .fixarray (by omega)
  · obtain rfl := Option.some.inj h
    obtain ⟨n, rfl⟩ : ∃ n, t = 0xA0 + n := ⟨t - 0xA0, by omega⟩
    rw [Nat.add_sub_cancel_left]
    exact .fixstr (by omega)
  -- thirty-two bytes are left, one row of the table each
  · have hlow : 0xC0 ≤ t := by omega
    have hhigh : t ≤ 0xDF := by omega
    clear hfix hmap harray hstr ht
    interval_cases t <;> cases h <;> first
      | exact .nil
      | exact .false
      | exact .true
      | constructor

theorem format_of_tag {t : ℕ} {f : Format} (h : Tag t f) : format t = some f := by
  cases h with
  | positiveFixint h => exact if_pos (.inl (by omega))
  | @fixmap n h =>
    rw [format, if_neg (by omega), if_pos (by omega), Nat.add_sub_cancel_left]
  | @fixarray n h =>
    rw [format, if_neg (by omega), if_neg (by omega), if_pos (by omega), Nat.add_sub_cancel_left]
  | @fixstr n h =>
    rw [format, if_neg (by omega), if_neg (by omega), if_neg (by omega), if_pos (by omega),
      Nat.add_sub_cancel_left]
  | negativeFixint h => exact if_pos (.inr h.1)
  | _ => rfl

theorem tag_iff (t : UInt8) (f : Format) : Tag t.toNat f ↔ format t.toNat = some f :=
  ⟨format_of_tag, tag_of_format t.toNat_lt⟩

/-! ### The beginning of a value -/

/-- What a value begins with, and the bytes behind it. -/
inductive Front
  | leaf (rest : Bytes)
  | branch (children items : ℕ) (rest : Bytes)

/-- The size in front of a body. -/
def takeSize : Size → Bytes → Option (ℕ × Bytes)
  | .given n, rest => some (n, rest)
  | .counted width, rest =>
    if width ≤ rest.length then some (bigEndian (rest.take width), rest.drop width) else none

/-- A body of `n` bytes that passes a test. -/
def body (test : Bytes → Bool) (n : ℕ) (rest : Bytes) : Option Front :=
  if n ≤ rest.length ∧ test (rest.take n) then some (.leaf (rest.drop n)) else none

/-- The test that an extension's own body has to pass. -/
def fitsExtension (type : UInt8) (body : Bytes) : Bool :=
  if type = 0x00 then body.length = 1
  else if type = 0xFF then
    body.length = 1 ∨ body.length = 4 ∨ body.length = 8 ∨ body.length = 12
  else if type = 0x42 then 0 < body.length
  else if type = 0x74 then
    match body with
    | [] => false
    | code :: _ => fitsTypedArray code.toNat body.length
  else false

instance (type : UInt8) : Decidable (Wraps type) := inferInstanceAs (Decidable (_ ∨ _ ∨ _))

/-- An extension of `n` bytes behind its type. -/
def extensionBody (n : ℕ) : Bytes → Option Front
  | [] => none
  | type :: rest =>
    if Wraps type then if n = 1 ∧ rest ≠ [] then some (.branch 1 0 (rest.drop 1)) else none
    else body (fitsExtension type) n rest

def front : Format → Bytes → Option Front
  | .single, rest => some (.leaf rest)
  | .number bytes, rest => body (fun _ => true) bytes rest
  | .binary width, rest => (takeSize (.counted width) rest).bind fun s => body (fun _ => true) s.1 s.2
  | .string size, rest => (takeSize size rest).bind fun s => body isUtf8 s.1 s.2
  | .array size, rest => (takeSize size rest).map fun s => .branch s.1 s.1 s.2
  | .map size, rest => (takeSize size rest).map fun s => .branch (s.1 * 2) s.1 s.2
  | .extension size, rest => (takeSize size rest).bind fun s => extensionBody s.1 s.2

theorem takeSize_eq_some_iff {size : Size} {rest r : Bytes} {n : ℕ} :
    takeSize size rest = some (n, r) ↔ ∃ bytes, rest = bytes ++ r ∧ Sized size bytes n := by
  constructor
  · intro h
    cases size with
    | given m =>
      obtain ⟨rfl, rfl⟩ := Prod.mk.inj (Option.some.inj h)
      exact ⟨[], rfl, .given _⟩
    | counted width =>
      rw [takeSize] at h
      split_ifs at h with hfits
      obtain ⟨rfl, rfl⟩ := Prod.mk.inj (Option.some.inj h)
      refine ⟨rest.take width, (List.take_append_drop _ _).symm, ?_⟩
      have hsized := Sized.counted (rest.take width)
      rw [List.length_take, Nat.min_eq_left hfits] at hsized
      exact hsized
  · rintro ⟨bytes, rfl, hsized⟩
    cases hsized with
    | given m => rfl
    | counted bytes =>
      rw [takeSize, if_pos (by rw [List.length_append]; omega), List.take_left, List.drop_left]

theorem body_eq_some_iff {p : Bytes → Bool} {n : ℕ} {rest : Bytes} {f : Front} :
    body p n rest = some f ↔ ∃ b r, rest = b ++ r ∧ b.length = n ∧ p b = true ∧ f = .leaf r := by
  rw [body]
  constructor
  · intro h
    split_ifs at h with hfits
    obtain rfl := Option.some.inj h
    refine ⟨rest.take n, rest.drop n, (List.take_append_drop _ _).symm, ?_, hfits.2, rfl⟩
    rw [List.length_take, Nat.min_eq_left hfits.1]
  · rintro ⟨b, r, rfl, rfl, htest, rfl⟩
    rw [if_pos ⟨by rw [List.length_append]; omega, by rw [List.take_left]; exact htest⟩,
      List.drop_left]

theorem fitsTypedArray_iff (code : UInt8) (data : Bytes) :
    fitsTypedArray code.toNat (code :: data).length = true ↔ (code = 16 ∨ code = 17) ∨
      ∃ width, widths[code.toNat]? = some width ∧ width ∣ data.length := by
  have h16 : code.toNat = 16 ↔ code = 16 := UInt8.toNat_inj (b := 16)
  have h17 : code.toNat = 17 ↔ code = 17 := UInt8.toNat_inj (b := 17)
  rw [fitsTypedArray, Bool.or_eq_true, Bool.or_eq_true, decide_eq_true_eq, decide_eq_true_eq, h16,
    h17, List.length_cons, Nat.add_sub_cancel]
  refine or_congr_right ?_
  cases hwidth : widths[code.toNat]? with
  | none => simp
  | some width =>
    have hpos : width ≠ 0 := by
      have hmem : width ∈ widths := List.mem_of_getElem? hwidth
      rintro rfl
      exact absurd hmem (by decide)
    simp [hpos, Nat.dvd_iff_mod_eq_zero]

theorem fitsExtension_iff {type : UInt8} {b : Bytes} (hwraps : ¬ Wraps type) :
    fitsExtension type b = true ↔ Extension type b := by
  constructor
  · intro h
    rw [fitsExtension.eq_def] at h
    split_ifs at h with h00 hff h42 h74
    · rw [h00]
      exact .undefined (of_decide_eq_true h)
    · rw [hff]
      exact .date (of_decide_eq_true h)
    · rw [h42]
      refine .bigint ?_
      rintro rfl
      exact absurd h (by decide)
    · rw [h74]
      cases b with
      | nil => cases h
      | cons code data =>
        rcases (fitsTypedArray_iff code data).mp h with h | ⟨width, hwidth, hdvd⟩
        · exact .buffer h
        · exact .typedArray hwidth hdvd
  · intro h
    cases h with
    | undefined h => exact decide_eq_true h
    | date h => exact decide_eq_true h
    | bigint h => exact decide_eq_true (List.length_pos_iff.mpr h)
    | @buffer code data h => exact (fitsTypedArray_iff code data).mpr (.inl h)
    | @typedArray code data width h hdata =>
      exact (fitsTypedArray_iff code data).mpr (.inr ⟨width, h, hdata⟩)

theorem not_extension_of_wraps {type : UInt8} {b : Bytes} (hwraps : Wraps type) :
    ¬ Extension type b := by
  intro h
  cases h <;> revert hwraps <;> decide

/-! ### The beginning of a value and the grammar -/

/-- A value without children stands in front of `r`. -/
theorem leaf_iff {t : UInt8} {rest r : Bytes} : (∃ b, t :: rest = b ++ r ∧ Leaf b) ↔
    ∃ f, Tag t.toNat f ∧ front f rest = some (.leaf r) := by
  constructor
  · rintro ⟨b, hb, hleaf⟩
    cases hleaf with
    | single ht =>
      obtain ⟨rfl, rfl⟩ := List.cons.inj (hb.trans List.cons_append)
      exact ⟨_, ht, rfl⟩
    | number ht =>
      obtain ⟨rfl, rfl⟩ := List.cons.inj (hb.trans List.cons_append)
      refine ⟨_, ht, ?_⟩
      rw [front]
      exact body_eq_some_iff.mpr ⟨_, r, rfl, rfl, rfl, rfl⟩
    | @binary _ width size b ht hsize =>
      obtain ⟨rfl, rfl⟩ := List.cons.inj (hb.trans List.cons_append)
      refine ⟨_, ht, ?_⟩
      rw [front, takeSize_eq_some_iff.mpr ⟨size, List.append_assoc _ _ _, hsize⟩]
      exact (body_eq_some_iff (p := fun _ => true)).mpr ⟨b, r, rfl, rfl, rfl, rfl⟩
    | @string _ s size b ht hsize hbody =>
      obtain ⟨rfl, rfl⟩ := List.cons.inj (hb.trans List.cons_append)
      refine ⟨_, ht, ?_⟩
      rw [front, takeSize_eq_some_iff.mpr ⟨size, List.append_assoc _ _ _, hsize⟩]
      exact body_eq_some_iff.mpr ⟨b, r, rfl, rfl, (isUtf8_iff b).mpr hbody, rfl⟩
    | @extension _ type s size b ht hsize hbody =>
      obtain ⟨rfl, rfl⟩ := List.cons.inj (hb.trans List.cons_append)
      have hwraps : ¬ Wraps type := fun hw => not_extension_of_wraps hw hbody
      refine ⟨_, ht, ?_⟩
      rw [front, takeSize_eq_some_iff.mpr ⟨size, List.append_assoc _ _ _, hsize⟩]
      show extensionBody b.length (type :: (b ++ r)) = _
      rw [extensionBody, if_neg hwraps]
      exact body_eq_some_iff.mpr ⟨b, r, rfl, rfl, (fitsExtension_iff hwraps).mpr hbody, rfl⟩
  · rintro ⟨f, ht, hfront⟩
    cases f with
    | single =>
      obtain rfl := Front.leaf.inj (Option.some.inj hfront)
      exact ⟨[t], rfl, .single ht⟩
    | number bytes =>
      rw [front] at hfront
      obtain ⟨b, r', rfl, rfl, -, hr⟩ := body_eq_some_iff.mp hfront
      obtain rfl := Front.leaf.inj hr
      exact ⟨t :: b, rfl, .number ht⟩
    | binary width =>
      obtain ⟨⟨n, rest'⟩, hsize, hbody⟩ := Option.bind_eq_some_iff.mp hfront
      obtain ⟨size, rfl, hsized⟩ := takeSize_eq_some_iff.mp hsize
      obtain ⟨b, r', rfl, rfl, -, hr⟩ := body_eq_some_iff.mp hbody
      obtain rfl := Front.leaf.inj hr
      exact ⟨t :: (size ++ b), by simp, .binary ht hsized⟩
    | string s =>
      obtain ⟨⟨n, rest'⟩, hsize, hbody⟩ := Option.bind_eq_some_iff.mp hfront
      obtain ⟨size, rfl, hsized⟩ := takeSize_eq_some_iff.mp hsize
      obtain ⟨b, r', rfl, rfl, hutf, hr⟩ := body_eq_some_iff.mp hbody
      obtain rfl := Front.leaf.inj hr
      exact ⟨t :: (size ++ b), by simp, .string ht hsized ((isUtf8_iff b).mp hutf)⟩
    | array s =>
      obtain ⟨⟨n, rest'⟩, -, hbody⟩ := Option.map_eq_some_iff.mp hfront
      cases hbody
    | map s =>
      obtain ⟨⟨n, rest'⟩, -, hbody⟩ := Option.map_eq_some_iff.mp hfront
      cases hbody
    | extension s =>
      obtain ⟨⟨n, rest'⟩, hsize, hbody⟩ := Option.bind_eq_some_iff.mp hfront
      obtain ⟨size, rfl, hsized⟩ := takeSize_eq_some_iff.mp hsize
      cases rest' with
      | nil => cases hbody
      | cons type rest' =>
        dsimp only at hbody
        rw [extensionBody] at hbody
        split_ifs at hbody with hwraps hone
        · cases hbody
        · obtain ⟨b, r', rfl, rfl, hfits, hr⟩ := body_eq_some_iff.mp hbody
          obtain rfl := Front.leaf.inj hr
          exact ⟨t :: (size ++ type :: b), by simp,
            .extension ht hsized ((fitsExtension_iff hwraps).mp hfits)⟩

/-- The head of a container or wrapper stands in front of `r`. -/
theorem branch_iff {t : UInt8} {rest r : Bytes} {children items : ℕ} :
    (∃ head, t :: rest = head ++ r ∧ Branch head children items) ↔
      ∃ f, Tag t.toNat f ∧ front f rest = some (.branch children items r) := by
  constructor
  · rintro ⟨head, hhead, hbranch⟩
    cases hbranch with
    | array ht hsize =>
      obtain ⟨rfl, rfl⟩ := List.cons.inj (hhead.trans List.cons_append)
      refine ⟨_, ht, ?_⟩
      rw [front, takeSize_eq_some_iff.mpr ⟨_, rfl, hsize⟩]
      rfl
    | map ht hsize =>
      obtain ⟨rfl, rfl⟩ := List.cons.inj (hhead.trans List.cons_append)
      refine ⟨_, ht, ?_⟩
      rw [front, takeSize_eq_some_iff.mpr ⟨_, rfl, hsize⟩]
      rfl
    | @wrapper _ type b s size ht hsize htype =>
      obtain ⟨rfl, rfl⟩ := List.cons.inj (hhead.trans List.cons_append)
      refine ⟨_, ht, ?_⟩
      rw [front, takeSize_eq_some_iff.mpr ⟨size, List.append_assoc _ _ _, hsize⟩]
      show extensionBody 1 (type :: b :: r) = _
      rw [extensionBody, if_pos htype, if_pos ⟨rfl, by simp⟩]
      rfl
  · rintro ⟨f, ht, hfront⟩
    cases f with
    | single => cases hfront
    | number bytes =>
      rw [front] at hfront
      obtain ⟨b, r', -, -, -, hr⟩ := body_eq_some_iff.mp hfront
      cases hr
    | binary width =>
      obtain ⟨s, -, hbody⟩ := Option.bind_eq_some_iff.mp hfront
      obtain ⟨b, r', -, -, -, hr⟩ := body_eq_some_iff.mp hbody
      cases hr
    | string s =>
      obtain ⟨s, -, hbody⟩ := Option.bind_eq_some_iff.mp hfront
      obtain ⟨b, r', -, -, -, hr⟩ := body_eq_some_iff.mp hbody
      cases hr
    | array s =>
      obtain ⟨⟨n, rest'⟩, hsize, hbody⟩ := Option.map_eq_some_iff.mp hfront
      obtain ⟨rfl, rfl, rfl⟩ := Front.branch.inj hbody
      obtain ⟨size, rfl, hsized⟩ := takeSize_eq_some_iff.mp hsize
      exact ⟨t :: size, rfl, .array ht hsized⟩
    | map s =>
      obtain ⟨⟨n, rest'⟩, hsize, hbody⟩ := Option.map_eq_some_iff.mp hfront
      obtain ⟨rfl, rfl, rfl⟩ := Front.branch.inj hbody
      obtain ⟨size, rfl, hsized⟩ := takeSize_eq_some_iff.mp hsize
      exact ⟨t :: size, rfl, .map ht hsized⟩
    | extension s =>
      obtain ⟨⟨n, rest'⟩, hsize, hbody⟩ := Option.bind_eq_some_iff.mp hfront
      obtain ⟨size, rfl, hsized⟩ := takeSize_eq_some_iff.mp hsize
      cases rest' with
      | nil => cases hbody
      | cons type rest' =>
        dsimp only at hbody
        rw [extensionBody] at hbody
        split_ifs at hbody with hwraps hone
        · obtain ⟨rfl, rfl, rfl⟩ := Front.branch.inj (Option.some.inj hbody)
          obtain ⟨rfl, hne⟩ := hone
          obtain ⟨b, r, rfl⟩ := List.exists_cons_of_ne_nil hne
          exact ⟨t :: (size ++ [type, b]), by simp, .wrapper ht hsized hwraps⟩
        · obtain ⟨b, r', -, -, -, hr⟩ := body_eq_some_iff.mp hbody
          cases hr

/-! ### The scan follows the grammar -/

section Follows

variable {limits : ResolvedDecodeLimits} {input : Bytes} {validUtf8 : Utf8RangeValidator}

/-- A frame for the children, unless there are none. -/
def push (children : ℕ) (pending : List ℕ) : List ℕ :=
  if children = 0 then pending else children :: pending

/-- What the scan makes of the beginning of a value: it moves behind it, and for a
container or wrapper it checks the limits and opens a frame. -/
def Follows (limits : ResolvedDecodeLimits) (input : Bytes) (s : Scan) :
    Option Front → Except Fault Scan → Prop
  | none, outcome => outcome = .error .refused
  | some (.leaf rest), outcome => ∃ p, s.position ≤ p ∧ p ≤ input.length ∧ input.drop p = rest ∧
      outcome = .ok { s with position := p }
  | some (.branch children items rest), outcome => ∃ p, s.position ≤ p ∧ p ≤ input.length ∧
      input.drop p = rest ∧ outcome =
        if items ≤ limits.maxCollectionLength ∧ children ≤ rest.length ∧
            s.pending.length ≤ limits.maxDepth then
          .ok ⟨p, s.totalValues, push children s.pending⟩
        else .error .refused

/-- Moving ahead first changes nothing but the position. -/
theorem Follows.of_moved {s : Scan} {p : ℕ} {f : Option Front} {outcome : Except Fault Scan}
    (hp : s.position ≤ p) (h : Follows limits input { s with position := p } f outcome) :
    Follows limits input s f outcome := by
  rcases f with _ | rest | ⟨children, items, rest⟩
  · exact h
  · obtain ⟨q, hq, h⟩ := h
    exact ⟨q, hp.trans hq, h⟩
  · obtain ⟨q, hq, h⟩ := h
    exact ⟨q, hp.trans hq, h⟩

theorem byteAt_of_drop {position : ℕ} {b : UInt8} {rest : Bytes}
    (h : input.drop position = b :: rest) : byteAt input position = .ok b.toNat ∧
      position < input.length ∧ input.drop (position + 1) = rest := by
  have hget : input[position]? = some b := by
    have h0 := congrArg (fun l => l[0]?) h
    simpa using h0
  have hlt : position < input.length := by
    by_contra hge
    rw [List.drop_eq_nil_of_le (by omega)] at h
    cases h
  refine ⟨?_, hlt, ?_⟩
  · rw [byteAt, octet, hget]
    rfl
  · rw [← List.drop_drop, h]
    rfl

theorem advance_some (s : Scan) (n : ℕ) : advance input s (some n) =
    if n ≤ (input.drop s.position).length then .ok { s with position := s.position + n }
    else .error .refused := by
  rw [List.length_drop]
  show (if input.length - s.position < n then _ else _) = _
  split_ifs with h1 h2 h2
  · omega
  · rfl
  · rfl
  · omega

theorem follows_body {s : Scan} {test : Bytes → Bool} {n : ℕ} {outcome : Except Fault Scan}
    (hs : s.position ≤ input.length)
    (hin : n ≤ (input.drop s.position).length → outcome =
      if test ((input.drop s.position).take n) then advance input s (some n) else .error .refused)
    (hout : (input.drop s.position).length < n → outcome = .error .refused) :
    Follows limits input s (body test n (input.drop s.position)) outcome := by
  rw [body]
  by_cases hn : n ≤ (input.drop s.position).length
  · have hlen := hn
    rw [List.length_drop] at hlen
    rw [hin hn]
    by_cases htest : test ((input.drop s.position).take n) = true
    · rw [if_pos ⟨hn, htest⟩, if_pos htest, advance_some, if_pos hn]
      exact ⟨s.position + n, Nat.le_add_right _ _, by omega, List.drop_drop.symm, rfl⟩
    · rw [if_neg fun h => htest h.2, if_neg htest]
      exact rfl
  · rw [if_neg fun h => hn h.1]
    exact hout (by omega)

theorem follows_advance {s : Scan} (hs : s.position ≤ input.length) (n : ℕ) :
    Follows limits input s (body (fun _ => true) n (input.drop s.position))
      (advance input s (some n)) := by
  refine follows_body hs (fun _ => (if_pos rfl).symm) fun hn => ?_
  rw [advance_some, if_neg (by omega)]

theorem follows_string (hutf8 : ∀ start stop, stop ≤ input.length →
      validUtf8 input start stop = some (isUtf8 (window input start stop)))
    {s : Scan} (hs : s.position ≤ input.length) (n : ℕ) :
    Follows limits input s (body isUtf8 n (input.drop s.position))
      (string input validUtf8 s (some n)) := by
  refine follows_body hs (fun hn => ?_) fun hn => ?_
  · rw [List.length_drop] at hn
    have hwindow : window input s.position (s.position + n) = (input.drop s.position).take n := by
      rw [window, Nat.add_sub_cancel_left]
    show (if input.length - s.position < n then _ else _) = _
    rw [if_neg (by omega), hutf8 _ _ (by omega), hwindow]
    cases isUtf8 ((input.drop s.position).take n) <;> rfl
  · rw [List.length_drop] at hn
    exact if_pos hn

theorem container_some {s : Scan} (items : ℕ) (map : Bool) :
    container limits input s (some items) map =
      if items ≤ limits.maxCollectionLength ∧
          (if map then items * 2 else items) ≤ (input.drop s.position).length ∧
          s.pending.length ≤ limits.maxDepth then
        .ok ⟨s.position, s.totalValues, push (if map then items * 2 else items) s.pending⟩
      else .error .refused := by
  rw [List.length_drop]
  show (if limits.maxCollectionLength < items then _ else _) = _
  generalize (if map then items * 2 else items) = children
  by_cases hitems : limits.maxCollectionLength < items
  · rw [if_pos hitems, if_neg fun h => absurd h.1 (by omega)]
  · rw [if_neg hitems]
    by_cases hroom : input.length - s.position < children ∨ limits.maxDepth < s.pending.length
    · rw [if_pos hroom, if_neg fun h => by omega]
    · have hok : items ≤ limits.maxCollectionLength ∧ children ≤ input.length - s.position ∧
          s.pending.length ≤ limits.maxDepth := by omega
      rw [if_neg hroom, if_pos hok, push]
      split_ifs <;> rfl

theorem follows_container {s : Scan} (hs : s.position ≤ input.length) (items : ℕ) (map : Bool) :
    Follows limits input s
      (some (.branch (if map then items * 2 else items) items (input.drop s.position)))
      (container limits input s (some items) map) :=
  ⟨s.position, le_rfl, hs, rfl, container_some items map⟩

theorem byteAt_of_lt {position : ℕ} (h : position < input.length) :
    ∃ b : UInt8, input.drop position = b :: input.drop (position + 1) ∧
      byteAt input position = .ok b.toNat := by
  have hdrop := List.drop_eq_getElem_cons h
  exact ⟨input[position], hdrop, (byteAt_of_drop hdrop).1⟩

/-- An extension with its own body passes exactly when the body fits its type. -/
theorem typedExtension_eq {type : UInt8} (hwraps : ¬ Wraps type) {s : Scan} {n : ℕ}
    (hn : n ≤ (input.drop s.position).length) : typedExtension limits input s n type.toNat =
      if fitsExtension type ((input.drop s.position).take n) then advance input s (some n)
      else .error .refused := by
  have htype : ∀ c : UInt8, type.toNat = c.toNat ↔ type = c := fun c => UInt8.toNat_inj
  have hlen : ((input.drop s.position).take n).length = n := by
    rw [List.length_take, Nat.min_eq_left hn]
  have hno : ¬ (type.toNat = 0x65 ∨ type.toNat = 0x73 ∨ type.toNat = 0x78) := by
    rintro (h | h | h)
    · exact hwraps (.inl ((htype 0x65).mp h))
    · exact hwraps (.inr (.inl ((htype 0x73).mp h)))
    · exact hwraps (.inr (.inr ((htype 0x78).mp h)))
  rw [typedExtension, if_neg hno, fitsExtension.eq_def, hlen]
  have n00 : type.toNat = 0x00 ↔ type = 0x00 := htype 0x00
  have nff : type.toNat = 0xFF ↔ type = 0xFF := htype 0xFF
  have n42 : type.toNat = 0x42 ↔ type = 0x42 := htype 0x42
  have n74 : type.toNat = 0x74 ↔ type = 0x74 := htype 0x74
  by_cases h00 : type = 0x00
  · rw [if_pos (n00.mpr h00), if_pos h00]
    simp only [decide_eq_true_eq]
  rw [if_neg fun h => h00 (n00.mp h), if_neg h00]
  by_cases hff : type = 0xFF
  · rw [if_pos (nff.mpr hff), if_pos hff]
    simp only [decide_eq_true_eq]
  rw [if_neg fun h => hff (nff.mp h), if_neg hff]
  by_cases h42 : type = 0x42
  · rw [if_pos (n42.mpr h42), if_pos h42]
    simp only [decide_eq_true_eq]
  rw [if_neg fun h => h42 (n42.mp h), if_neg h42]
  by_cases h74 : type = 0x74
  · rw [if_pos (n74.mpr h74), if_pos h74]
    -- the type code is the first byte of the body
    cases n with
    | zero =>
      rw [List.take_zero, if_pos Nat.one_pos]
      rfl
    | succ n =>
      rw [List.length_drop] at hn
      obtain ⟨code, hdrop, hbyte⟩ := @byteAt_of_lt input s.position (by omega)
      rw [if_neg (by omega), hbyte, hdrop, List.take_succ_cons]
      rfl
  · rw [if_neg fun h => h74 (n74.mp h), if_neg h74]
    rfl

/-- A wrapper has a body of one byte and opens a frame for one value. -/
theorem follows_wrapper {type : UInt8} (hwraps : Wraps type) {s : Scan} {n : ℕ}
    (hs : s.position ≤ input.length) (hn : n ≤ (input.drop s.position).length) :
    Follows limits input s (extensionBody n (type :: input.drop s.position))
      (typedExtension limits input s n type.toNat) := by
  have hyes : type.toNat = 0x65 ∨ type.toNat = 0x73 ∨ type.toNat = 0x78 := by
    rcases hwraps with rfl | rfl | rfl
    · exact .inl rfl
    · exact .inr (.inl rfl)
    · exact .inr (.inr rfl)
  rw [typedExtension, if_pos hyes, extensionBody, if_pos hwraps]
  by_cases hone : n = 1
  · subst hone
    have hne : input.drop s.position ≠ [] := List.length_pos_iff.mp hn
    rw [if_pos rfl, if_pos ⟨rfl, hne⟩, advance_some, if_pos hn]
    rw [List.length_drop] at hn
    refine ⟨s.position + 1, Nat.le_succ _, by omega, List.drop_drop.symm, ?_⟩
    refine (@container_some limits input ⟨s.position + 1, s.totalValues, s.pending⟩ 1 false).trans ?_
    -- one item is within every limit, so a wrapper is no collection
    have hpos : 1 ≤ limits.maxCollectionLength := limits.positive.2.2.2.1
    have hiff : (1 ≤ limits.maxCollectionLength ∧ 1 ≤ (input.drop (s.position + 1)).length ∧
        s.pending.length ≤ limits.maxDepth) ↔ (0 ≤ limits.maxCollectionLength ∧
          1 ≤ ((input.drop s.position).drop 1).length ∧ s.pending.length ≤ limits.maxDepth) := by
      rw [List.drop_drop]
      exact and_congr_left fun _ => iff_of_true hpos (Nat.zero_le _)
    exact if_congr hiff rfl rfl
  · rw [if_neg hone, if_neg fun h => hone h.1]
    exact rfl

theorem follows_extension {s : Scan} (hs : s.position ≤ input.length) (n : ℕ) :
    Follows limits input s (extensionBody n (input.drop s.position))
      (extension limits input s (some n)) := by
  show Follows _ _ _ _ (if input.length - s.position < n + 1 then _ else _)
  by_cases hroom : input.length - s.position < n + 1
  · rw [if_pos hroom]
    -- no room for the body: neither reading of the type helps
    have hlen : (input.drop s.position).length < n + 1 := by rw [List.length_drop]; exact hroom
    generalize input.drop s.position = rest at hlen
    cases rest with
    | nil => exact rfl
    | cons type rest =>
      rw [List.length_cons] at hlen
      rw [extensionBody]
      split_ifs with hwraps hone
      · have hpos := List.length_pos_iff.mpr hone.2
        omega
      · exact rfl
      · rw [body, if_neg fun h => by omega]
        exact rfl
  rw [if_neg hroom]
  obtain ⟨type, hdrop, hbyte⟩ := @byteAt_of_lt input s.position (by omega)
  have hroom' : n ≤ (input.drop (s.position + 1)).length := by
    rw [List.length_drop]
    omega
  rw [hdrop, hbyte]
  refine Follows.of_moved (p := s.position + 1) (Nat.le_succ _) ?_
  show Follows limits input ⟨s.position + 1, s.totalValues, s.pending⟩ _ (typedExtension limits
    input ⟨s.position + 1, s.totalValues, s.pending⟩ n type.toNat)
  by_cases hwraps : Wraps type
  · exact @follows_wrapper limits input type hwraps ⟨s.position + 1, s.totalValues, s.pending⟩ n
      (by show s.position + 1 ≤ _; omega) hroom'
  · rw [extensionBody, if_neg hwraps]
    refine @follows_body limits input ⟨s.position + 1, s.totalValues, s.pending⟩ _ n _
      (by show s.position + 1 ≤ _; omega) (fun hn => typedExtension_eq hwraps hn) fun hn => ?_
    exact absurd hn (Nat.not_lt.mpr hroom')

theorem lengthFrom_eq {bytes : ℕ} : ∀ {v : ℕ} {s : Scan},
    bytes ≤ (input.drop s.position).length → lengthFrom input bytes v s =
      .ok (((input.drop s.position).take bytes).foldl (fun value b => value * 256 + b.toNat) v,
        { s with position := s.position + bytes }) := by
  induction bytes with
  | zero =>
    intro v s _
    rfl
  | succ bytes ih =>
    intro v s hroom
    rw [List.length_drop] at hroom
    obtain ⟨b, hdrop, hbyte⟩ := @byteAt_of_lt input s.position (by omega)
    rw [lengthFrom, hbyte, hdrop, List.take_succ_cons, List.foldl_cons]
    show lengthFrom input bytes (v * 256 + b.toNat) ⟨s.position + 1, s.totalValues, s.pending⟩ = _
    rw [ih (by rw [List.length_drop]; show bytes ≤ _ - (s.position + 1); omega)]
    show _ = Except.ok (_, Scan.mk (s.position + (bytes + 1)) s.totalValues s.pending)
    rw [Nat.add_comm bytes 1, ← Nat.add_assoc]

/-- A length in front of a body: what follows the body's frame follows the whole. -/
theorem follows_counted {s : Scan} (hs : s.position ≤ input.length) (width : ℕ)
    {k : ℕ × Bytes → Option Front} {next : Option ℕ × Scan → Except Fault Scan}
    (hnone : ∀ s, next (none, s) = .error .refused)
    (hsome : ∀ n (s' : Scan), s'.position ≤ input.length →
      Follows limits input s' (k (n, input.drop s'.position)) (next (some n, s'))) :
    Follows limits input s ((takeSize (.counted width) (input.drop s.position)).bind k)
      (length input s width >>= next) := by
  rw [takeSize, length]
  by_cases hroom : width ≤ (input.drop s.position).length
  · have hin := hroom
    rw [List.length_drop] at hin
    rw [if_pos hroom, if_neg (by omega), lengthFrom_eq hroom, List.drop_drop]
    exact Follows.of_moved (p := s.position + width) (Nat.le_add_right _ _)
      (hsome _ _ (by show s.position + width ≤ _; omega))
  · have hout := hroom
    rw [List.length_drop] at hout
    rw [if_neg hroom, if_pos (by omega)]
    exact hnone s

theorem follows_counted_map {s : Scan} (hs : s.position ≤ input.length) (width : ℕ)
    {k : ℕ × Bytes → Front} {next : Option ℕ × Scan → Except Fault Scan}
    (hnone : ∀ s, next (none, s) = .error .refused)
    (hsome : ∀ n (s' : Scan), s'.position ≤ input.length →
      Follows limits input s' (some (k (n, input.drop s'.position))) (next (some n, s'))) :
    Follows limits input s ((takeSize (.counted width) (input.drop s.position)).map k)
      (length input s width >>= next) := by
  rw [Option.map_eq_bind]
  exact follows_counted hs width hnone hsome

/-- **The dispatch follows the grammar**, for every byte. -/
theorem value_spec (hutf8 : ∀ start stop, stop ≤ input.length →
      validUtf8 input start stop = some (isUtf8 (window input start stop)))
    {s : Scan} (hs : s.position ≤ input.length) {t : ℕ} (ht : t < 256) :
    Follows limits input s ((format t).bind fun f => front f (input.drop s.position))
      (value limits input validUtf8 s t) := by
  have hsingle : Follows limits input s (some (.leaf (input.drop s.position))) (.ok s) :=
    ⟨s.position, le_rfl, hs, rfl, rfl⟩
  rw [value, format]
  split_ifs with hfix hmap harray hstr
  · exact hsingle
  · exact follows_container hs (t - 0x80) true
  · exact follows_container hs (t - 0x90) false
  · generalize t - 0xA0 = n
    exact follows_string hutf8 hs n
  have hlow : 0xC0 ≤ t := by omega
  have hhigh : t ≤ 0xDF := by omega
  clear hfix hmap harray hstr ht
  have hstring := fun width => @follows_counted limits input s hs width
    (fun x => body isUtf8 x.1 x.2) (fun x => string input validUtf8 x.2 x.1) (fun _ => rfl)
    fun n s' hs' => follows_string hutf8 hs' n
  have hbinary := fun width => @follows_counted limits input s hs width
    (fun x => body (fun _ => true) x.1 x.2) (fun x => advance input x.2 x.1) (fun _ => rfl)
    fun n s' hs' => follows_advance hs' n
  have hextension := fun width => @follows_counted limits input s hs width
    (fun x => extensionBody x.1 x.2) (fun x => extension limits input x.2 x.1) (fun _ => rfl)
    fun n s' hs' => follows_extension hs' n
  have harray := fun width => @follows_counted_map limits input s hs width
    (fun x => .branch x.1 x.1 x.2) (fun x => container limits input x.2 x.1 false) (fun _ => rfl)
    fun n s' hs' => follows_container hs' n false
  have hmap := fun width => @follows_counted_map limits input s hs width
    (fun x => .branch (x.1 * 2) x.1 x.2) (fun x => container limits input x.2 x.1 true)
    (fun _ => rfl) fun n s' hs' => follows_container hs' n true
  interval_cases t
  · exact hsingle
  · exact rfl
  · exact hsingle
  · exact hsingle
  · exact hbinary 1
  · exact hbinary 2
  · exact hbinary 4
  · exact hextension 1
  · exact hextension 2
  · exact hextension 4
  · exact follows_advance hs 4
  · exact follows_advance hs 8
  · exact follows_advance hs 1
  · exact follows_advance hs 2
  · exact follows_advance hs 4
  · exact follows_advance hs 8
  · exact follows_advance hs 1
  · exact follows_advance hs 2
  · exact follows_advance hs 4
  · exact follows_advance hs 8
  · exact follows_extension hs 1
  · exact follows_extension hs 2
  · exact follows_extension hs 4
  · exact follows_extension hs 8
  · exact follows_extension hs 16
  · exact hstring 1
  · exact hstring 2
  · exact hstring 4
  · exact harray 2
  · exact harray 4
  · exact hmap 2
  · exact hmap 4

end Follows

/-! ### What the stack promises -/

section Stack

variable {limits : ResolvedDecodeLimits} {input : Bytes} {validUtf8 : Utf8RangeValidator}

/-- The frames of the stack cover the bytes: each owes that many values, nested no
deeper than the frames below it leave room for. -/
inductive Frames (limits : ResolvedDecodeLimits) : List ℕ → Bytes → ℕ → Prop
  | nil : Frames limits [] [] 0
  | cons {owed depth width total total' : ℕ} {pending : List ℕ} {bytes rest : Bytes}
    (h : Values owed bytes depth width total)
    (hdepth : depth ≠ 0 → depth + pending.length ≤ limits.maxDepth)
    (hwidth : width ≤ limits.maxCollectionLength) (hrest : Frames limits pending rest total') :
    Frames limits (owed :: pending) (bytes ++ rest) (total + total')

theorem Leaf.length_pos {bytes : Bytes} (h : Leaf bytes) : 0 < bytes.length := by
  cases h <;> exact Nat.succ_pos _

theorem Branch.length_pos {head : Bytes} {children items : ℕ} (h : Branch head children items) :
    0 < head.length := by
  cases h <;> exact Nat.succ_pos _

/-- Every value needs a byte. -/
theorem Values.le_length {n depth width total : ℕ} {bytes : Bytes}
    (h : Values n bytes depth width total) : n ≤ bytes.length := by
  induction h with
  | nil => exact le_rfl
  | leaf h _ ih =>
    have hpos := h.length_pos
    rw [List.length_append]
    omega
  | branch h _ _ _ ih =>
    have hpos := h.length_pos
    rw [List.length_append, List.length_append]
    omega

theorem Frames.le_length {owed total : ℕ} {pending : List ℕ} {bytes : Bytes}
    (h : Frames limits (owed :: pending) bytes total) : owed ≤ bytes.length := by
  cases h with
  | cons h _ _ _ =>
    have hle := h.le_length
    rw [List.length_append]
    omega

theorem frames_zero_iff {pending : List ℕ} {bytes : Bytes} {total : ℕ} :
    Frames limits (0 :: pending) bytes total ↔ Frames limits pending bytes total := by
  constructor
  · intro h
    cases h with
    | cons h _ _ hrest =>
      cases h
      rw [List.nil_append, Nat.zero_add]
      exact hrest
  · intro h
    have hcons := Frames.cons .nil (fun h => absurd rfl h) (Nat.zero_le _) h
    rw [List.nil_append, Nat.zero_add] at hcons
    exact hcons

theorem frames_push_iff {children : ℕ} {pending : List ℕ} {bytes : Bytes} {total : ℕ} :
    Frames limits (push children pending) bytes total ↔
      Frames limits (children :: pending) bytes total := by
  rw [push]
  split_ifs with h
  · rw [h, frames_zero_iff]
  · exact Iff.rfl

/-- **One value paid**: a frame that owes values covers one of them and then the
rest, its children on a frame of their own. -/
theorem frames_succ_iff {owed : ℕ} {pending : List ℕ} {bytes : Bytes} {total : ℕ} :
    Frames limits ((owed + 1) :: pending) bytes total ↔
      (∃ b rest t, bytes = b ++ rest ∧ Leaf b ∧ Frames limits (owed :: pending) rest t ∧
        total = t + 1) ∨
      (∃ head children items rest t, bytes = head ++ rest ∧ Branch head children items ∧
        items ≤ limits.maxCollectionLength ∧ pending.length + 1 ≤ limits.maxDepth ∧
        Frames limits (children :: owed :: pending) rest t ∧ total = t + 1) := by
  constructor
  · intro h
    cases h with
    | @cons _ depth width t t' _ bytes rest h hdepth hwidth hrest =>
      cases h with
      | @leaf _ _ _ t b more h hmore =>
        exact .inl ⟨b, more ++ rest, t + t', List.append_assoc _ _ _, h,
          .cons hmore hdepth hwidth hrest, by omega⟩
      | @branch _ children items d w t d' w' t' head body more h hbody hmore =>
        have hroom := hdepth (by omega)
        refine .inr ⟨head, children, items, body ++ (more ++ rest), _, ?_, h, by omega, by omega,
          .cons hbody (fun _ => ?_) (by omega) (.cons hmore (fun _ => by omega) (by omega) hrest),
          by omega⟩
        · simp only [List.append_assoc]
        · rw [List.length_cons]
          omega
  · rintro (⟨b, rest, t, rfl, hleaf, h, rfl⟩ |
      ⟨head, children, items, rest, t, rfl, hbranch, hitems, hroom, h, rfl⟩)
    · cases h with
      | @cons _ depth width t t' _ bytes rest h hdepth hwidth hrest =>
        have hcons := Frames.cons (.leaf hleaf h) hdepth hwidth hrest
        rw [List.append_assoc, Nat.add_right_comm] at hcons
        exact hcons
    · cases h with
      | @cons _ depth width t t' _ bytes rest h hdepth hwidth hrest =>
        cases hrest with
        | @cons _ depth' width' t' t'' _ bytes' rest h' hdepth' hwidth' hrest =>
          rw [List.length_cons] at hdepth
          have hcons : Frames limits ((owed + 1) :: pending) _ _ :=
            .cons (.branch hbranch h h') (fun _ => by
              rcases Nat.eq_zero_or_pos depth with hzero | hpos
              · rcases Nat.eq_zero_or_pos depth' with hzero' | hpos'
                · omega
                · have := hdepth' (by omega)
                  omega
              · have := hdepth (by omega)
                rcases Nat.eq_zero_or_pos depth' with hzero' | hpos'
                · omega
                · have := hdepth' (by omega)
                  omega) (by omega) hrest
          have htotal : t + (t' + t'') + 1 = t + t' + 1 + t'' := by omega
          rw [htotal]
          simp only [List.append_assoc] at hcons ⊢
          exact hcons

/-- The same, along the way the scan reads. -/
theorem frames_front_iff {owed : ℕ} {pending : List ℕ} {b : UInt8} {bytes : Bytes} {total : ℕ} :
    Frames limits ((owed + 1) :: pending) (b :: bytes) total ↔
      match (format b.toNat).bind fun f => front f bytes with
      | none => False
      | some (.leaf rest) => ∃ t, Frames limits (owed :: pending) rest t ∧ total = t + 1
      | some (.branch children items rest) => items ≤ limits.maxCollectionLength ∧
          pending.length + 1 ≤ limits.maxDepth ∧
          ∃ t, Frames limits (children :: owed :: pending) rest t ∧ total = t + 1 := by
  have hleaf : ∀ r, (∃ x, b :: bytes = x ++ r ∧ Leaf x) ↔
      ((format b.toNat).bind fun f => front f bytes) = some (.leaf r) := by
    intro r
    rw [leaf_iff, Option.bind_eq_some_iff]
    simp only [tag_iff]
  have hbranch : ∀ r c i, (∃ x, b :: bytes = x ++ r ∧ Branch x c i) ↔
      ((format b.toNat).bind fun f => front f bytes) = some (.branch c i r) := by
    intro r c i
    rw [branch_iff, Option.bind_eq_some_iff]
    simp only [tag_iff]
  generalize ((format b.toNat).bind fun f => front f bytes) = found at hleaf hbranch
  rw [frames_succ_iff]
  constructor
  · rintro (⟨x, rest, t, hx, hleafx, h, ht⟩ |
      ⟨x, children, items, rest, t, hx, hbranchx, hitems, hroom, h, ht⟩)
    · rw [(hleaf rest).mp ⟨x, hx, hleafx⟩]
      exact ⟨t, h, ht⟩
    · rw [(hbranch rest children items).mp ⟨x, hx, hbranchx⟩]
      exact ⟨hitems, hroom, t, h, ht⟩
  · intro h
    rcases found with _ | rest | ⟨children, items, rest⟩
    · exact h.elim
    · obtain ⟨t, h, ht⟩ := h
      obtain ⟨x, hx, hleafx⟩ := (hleaf rest).mpr rfl
      exact .inl ⟨x, rest, t, hx, hleafx, h, ht⟩
    · obtain ⟨hitems, hroom, t, h, ht⟩ := h
      obtain ⟨x, hx, hbranchx⟩ := (hbranch rest children items).mpr rfl
      exact .inr ⟨x, children, items, rest, t, hx, hbranchx, hitems, hroom, h, ht⟩

/-! ### The run -/

/-- The scan is inside the input and the limit on values, so it may go on. -/
def Sound (limits : ResolvedDecodeLimits) (input : Bytes) (s : Scan) : Prop :=
  s.position ≤ input.length ∧ s.totalValues ≤ limits.maxTotalValues

/-- The rest of the input is what the stack still owes. -/
def Promising (limits : ResolvedDecodeLimits) (input : Bytes) (s : Scan) : Prop :=
  ∃ total, Frames limits s.pending (input.drop s.position) total ∧
    s.totalValues + total ≤ limits.maxTotalValues

/-- Each round reads a byte, opening at most one frame, or pops a frame. -/
def roundsLeft (input : Bytes) (s : Scan) : ℕ :=
  2 * (input.length - s.position) + s.pending.length

theorem length_push (children : ℕ) (pending : List ℕ) :
    (push children pending).length ≤ pending.length + 1 := by
  rw [push]
  split_ifs
  · exact Nat.le_succ _
  · exact le_rfl

/-- **One round**: it makes progress and keeps what the stack promises, or it
refuses a stack whose promise the input breaks. -/
theorem step_spec (hutf8 : ∀ start stop, stop ≤ input.length →
      validUtf8 input start stop = some (isUtf8 (window input start stop)))
    {s : Scan} (hs : Sound limits input s) (hne : s.pending ≠ []) :
    match step limits input validUtf8 s with
    | .ok s' => Sound limits input s' ∧ roundsLeft input s' < roundsLeft input s ∧
        (Promising limits input s ↔ Promising limits input s')
    | .error .refused => ¬ Promising limits input s
    | .error .outside => False := by
  obtain ⟨position, totalValues, pending⟩ := s
  obtain ⟨hposition, htotal⟩ := hs
  dsimp only at hposition htotal hne
  rcases pending with _ | ⟨_ | owed, pending⟩
  · exact absurd rfl hne
  -- an empty frame is popped
  · refine ⟨⟨hposition, htotal⟩, ?_, ?_⟩
    · show 2 * (input.length - position) + pending.length <
        2 * (input.length - position) + (pending.length + 1)
      omega
    · show (∃ total, Frames limits (0 :: pending) _ total ∧ _) ↔ _
      simp only [frames_zero_iff]
      exact Iff.rfl
  rw [step]
  dsimp only
  by_cases hvalues : limits.maxTotalValues < totalValues + 1
  · rw [if_pos hvalues]
    rintro ⟨total, hframes, hle⟩
    have hpos : 0 < total := by
      rcases frames_succ_iff.mp hframes with ⟨_, _, _, _, _, _, h⟩ |
        ⟨_, _, _, _, _, _, _, _, _, _, h⟩ <;> omega
    dsimp only at hle
    omega
  rw [if_neg hvalues]
  by_cases hend : input.length ≤ position
  · rw [if_pos hend]
    rintro ⟨total, hframes, -⟩
    have hlen := hframes.le_length
    rw [List.length_drop] at hlen
    dsimp only at hlen
    omega
  rw [if_neg hend]
  obtain ⟨b, hdrop, hbyte⟩ := @byteAt_of_lt input position (by omega)
  rw [hbyte]
  have hvalue := @value_spec limits input validUtf8 hutf8 ⟨position + 1, totalValues + 1,
    owed :: pending⟩ (by show position + 1 ≤ _; omega) b.toNat b.toNat_lt
  have hpromise : Promising limits input ⟨position, totalValues, (owed + 1) :: pending⟩ ↔
      ∃ total, Frames limits ((owed + 1) :: pending) (b :: input.drop (position + 1)) total ∧
        totalValues + total ≤ limits.maxTotalValues := by
    rw [Promising, hdrop]
  dsimp only at hvalue
  show match value limits input validUtf8 ⟨position + 1, totalValues + 1, owed :: pending⟩
    b.toNat with | .ok s' => _ | .error .refused => _ | .error .outside => _
  rw [hpromise]
  simp only [frames_front_iff]
  rcases hfound : (format b.toNat).bind fun f => front f (input.drop (position + 1)) with
    _ | rest | ⟨children, items, rest⟩
  · rw [hfound] at hvalue
    have hrefused : value limits input validUtf8 _ b.toNat = .error .refused := hvalue
    rw [hrefused]
    rintro ⟨total, h, -⟩
    exact h
  · rw [hfound] at hvalue
    obtain ⟨p, hp, hple, rfl, hok⟩ := hvalue
    dsimp only at hp hok
    rw [hok]
    refine ⟨⟨hple, by show totalValues + 1 ≤ _; omega⟩, ?_, ?_⟩
    · show 2 * (input.length - p) + (pending.length + 1) <
        2 * (input.length - position) + (pending.length + 1)
      omega
    · constructor
      · rintro ⟨total, ⟨t, h, rfl⟩, hle⟩
        exact ⟨t, h, by show totalValues + 1 + t ≤ _; omega⟩
      · rintro ⟨t, h, hle⟩
        dsimp only at hle
        exact ⟨t + 1, ⟨t, h, rfl⟩, by omega⟩
  · rw [hfound] at hvalue
    obtain ⟨p, hp, hple, rfl, hok⟩ := hvalue
    dsimp only [List.length_cons] at hp hok
    rw [hok]
    by_cases hlimits : items ≤ limits.maxCollectionLength ∧ children ≤ (input.drop p).length ∧
        pending.length + 1 ≤ limits.maxDepth
    · rw [if_pos hlimits]
      refine ⟨⟨hple, by show totalValues + 1 ≤ _; omega⟩, ?_, ?_⟩
      · have hpush := length_push children (owed :: pending)
        rw [List.length_cons] at hpush
        show 2 * (input.length - p) + (push children (owed :: pending)).length <
          2 * (input.length - position) + (pending.length + 1)
        omega
      · constructor
        · rintro ⟨total, ⟨-, -, t, h, rfl⟩, hle⟩
          exact ⟨t, frames_push_iff.mpr h, by show totalValues + 1 + t ≤ _; omega⟩
        · rintro ⟨t, h, hle⟩
          dsimp only at hle
          exact ⟨t + 1, ⟨hlimits.1, hlimits.2.2, t, frames_push_iff.mp h, rfl⟩, by omega⟩
    -- a head that announces more than fits is refused before its children are read
    · rw [if_neg hlimits]
      rintro ⟨total, ⟨hitems, hroom, t, h, -⟩, -⟩
      exact hlimits ⟨hitems, h.le_length, hroom⟩

/-- **The run ends and decides** whether the input keeps the promise. -/
theorem run_spec (hutf8 : ∀ start stop, stop ≤ input.length →
      validUtf8 input start stop = some (isUtf8 (window input start stop))) :
    ∀ {rounds : ℕ} {s : Scan}, Sound limits input s → roundsLeft input s < rounds →
      ∃ b, run limits input validUtf8 rounds s = some b ∧ (b = true ↔ Promising limits input s) := by
  intro rounds
  induction rounds with
  | zero =>
    intro s _ hrounds
    omega
  | succ rounds ih =>
    intro s hs hrounds
    rw [run]
    by_cases hdone : s.pending = []
    · rw [if_pos hdone]
      refine ⟨_, rfl, ?_⟩
      rw [decide_eq_true_eq, Promising, hdone]
      have hposition := hs.1
      constructor
      · intro hend
        refine ⟨0, ?_, hs.2⟩
        rw [hend, List.drop_length]
        exact .nil
      · rintro ⟨total, hframes, -⟩
        generalize hrest : input.drop s.position = rest at hframes
        cases hframes
        have hlen := congrArg List.length hrest
        rw [List.length_drop, List.length_nil] at hlen
        omega
    · rw [if_neg hdone]
      have hstep := step_spec hutf8 hs hdone
      cases hnext : step limits input validUtf8 s with
      | ok s' =>
        rw [hnext] at hstep
        obtain ⟨hs', hless, hiff⟩ := hstep
        obtain ⟨b, hb, hpromise⟩ := ih hs' (by omega)
        exact ⟨b, hb, hpromise.trans hiff.symm⟩
      | error fault =>
        rw [hnext] at hstep
        cases fault with
        | refused => exact ⟨false, rfl, iff_of_false (by simp) hstep⟩
        | outside => exact hstep.elim

/-- With any check of UTF-8 that answers right inside the input. -/
theorem isSafeMessagePack_spec (hutf8 : ∀ start stop, stop ≤ input.length →
      validUtf8 input start stop = some (isUtf8 (window input start stop))) :
    ∃ b, isSafeMessagePack limits input validUtf8 = some b ∧ (b = true ↔ Accepts limits input) := by
  rw [isSafeMessagePack]
  by_cases hlong : limits.maxDecodedBytes < input.length
  · rw [if_pos hlong]
    refine ⟨false, rfl, iff_of_false (by simp) ?_⟩
    rintro ⟨hle, -⟩
    omega
  · rw [if_neg hlong]
    have hstart : Sound limits input ⟨0, 0, [1]⟩ := ⟨Nat.zero_le _, Nat.zero_le _⟩
    obtain ⟨b, hb, hiff⟩ := @run_spec limits input validUtf8 hutf8 (2 * input.length + 2)
      ⟨0, 0, [1]⟩ hstart (by show 2 * (input.length - 0) + 1 < _; omega)
    refine ⟨b, hb, hiff.trans ?_⟩
    constructor
    · rintro ⟨total, hframes, hle⟩
      refine ⟨by omega, ?_⟩
      rw [List.drop_zero] at hframes
      cases hframes with
      | @cons _ depth width t _ _ bytes _ h hdepth hwidth hrest =>
        cases hrest
        rw [List.append_nil]
        refine ⟨depth, width, t, h, ?_, hwidth, by dsimp only at hle; omega⟩
        rcases Nat.eq_zero_or_pos depth with hzero | hpos
        · omega
        · exact hdepth (by omega)
    · rintro ⟨-, depth, width, total, h, hdepth, hwidth, htotal⟩
      refine ⟨total, ?_, by show 0 + total ≤ _; omega⟩
      have hcons : Frames limits [1] (input ++ []) (total + 0) :=
        .cons h (fun _ => hdepth) hwidth .nil
      rw [List.append_nil] at hcons
      exact hcons

end Stack

theorem isSafeMessagePack_of_accepts {limits : ResolvedDecodeLimits} {input : Bytes}
    (h : Accepts limits input) :
    isSafeMessagePack limits input isSafeUtf8 = some true := by
  obtain ⟨b, hb, hiff⟩ := @isSafeMessagePack_spec limits input isSafeUtf8
    (fun _ _ hstop => isSafeUtf8_eq hstop)
  rw [hb, hiff.mpr h]

/-- **`isSafeMessagePack` decides its grammar.**  For every input and all limits the
scan ends without a read outside of the input, and it accepts exactly the complete
encodings of one value within the limits. -/
theorem isSafeMessagePack_iff (limits : ResolvedDecodeLimits) (input : Bytes) :
    ∃ b, isSafeMessagePack limits input isSafeUtf8 = some b ∧
      (b = true ↔ Accepts limits input) :=
  isSafeMessagePack_spec fun _ _ hstop => isSafeUtf8_eq hstop

end DecodeValidation
