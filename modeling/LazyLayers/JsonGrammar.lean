/-
The JSON texts, and the exact bounds of `isSafeJson` on them.

The grammar is that of RFC 8259, over the bytes of a text: insignificant white space,
strings with their escapes, numbers, the three literal names, arrays and objects.  A
derivation keeps the `Shape` of the text, which is all that the bounds speak of.

* `Shape.depth`, `Shape.widest`, `Shape.inside` — the nesting, the longest collection,
  and the elements, names and members inside of a text;
* `JsonText` — the grammar;
* `scan_value` — over a value the scan either counts what is inside of it or refuses;
* `isSafeJson_iff` — so it accepts exactly the texts within the limits.
-/
import LazyLayers.SerializerPolicy

open Js

namespace JsonGrammar

/-! ### Shapes -/

/-- The arrays and objects of a text; an object has `named` items. -/
inductive Shape
  | leaf
  | collection (named : Bool) (items : List Shape)

mutual

/-- How deep arrays and objects nest. -/
def Shape.depth : Shape → ℕ
  | .leaf => 0
  | .collection _ items => depthAll items + 1

def depthAll : List Shape → ℕ
  | [] => 0
  | s :: ss => max s.depth (depthAll ss)

end

mutual

/-- The number of elements or members of the longest array or object. -/
def Shape.widest : Shape → ℕ
  | .leaf => 0
  | .collection _ items => max items.length (widestAll items)

def widestAll : List Shape → ℕ
  | [] => 0
  | s :: ss => max s.widest (widestAll ss)

end

/-- What an item counts: a member of an object has a name besides its value. -/
def itemWeight (named : Bool) : ℕ := if named then 2 else 1

mutual

/-- The elements, and twice the members, over all arrays and objects. -/
def Shape.inside : Shape → ℕ
  | .leaf => 0
  | .collection named items => items.length * itemWeight named + insideAll items

def insideAll : List Shape → ℕ
  | [] => 0
  | s :: ss => s.inside + insideAll ss

end

/-- The values of a text, member names counted too. -/
def Shape.values (s : Shape) : ℕ := 1 + s.inside

/-! ### The grammar -/

/-- Insignificant white space. -/
def Blank (bytes : Bytes) : Prop := ∀ b ∈ bytes, b = 32 ∨ b = 9 ∨ b = 10 ∨ b = 13

/-- The letters that may follow a backslash: `" \ / b f n r t`. -/
def isEscapeLetter (b : UInt8) : Bool := [34, 92, 47, 98, 102, 110, 114, 116].contains b

def isHexByte (b : UInt8) : Bool :=
  (48 ≤ b && b ≤ 57) || (65 ≤ b && b ≤ 70) || (97 ≤ b && b ≤ 102)

/-- What stands between the quotes of a string. -/
inductive Chars : Bytes → Prop
  | nil : Chars []
  | plain {b : UInt8} {bytes : Bytes} (hcontrol : 32 ≤ b) (hquote : b ≠ 34)
      (hbackslash : b ≠ 92) (h : Chars bytes) : Chars (b :: bytes)
  | letter {b : UInt8} {bytes : Bytes} (hb : isEscapeLetter b = true) (h : Chars bytes) :
      Chars (92 :: b :: bytes)
  | unicode {b₁ b₂ b₃ b₄ : UInt8} {bytes : Bytes} (h₁ : isHexByte b₁ = true)
      (h₂ : isHexByte b₂ = true) (h₃ : isHexByte b₃ = true) (h₄ : isHexByte b₄ = true)
      (h : Chars bytes) : Chars (92 :: 117 :: b₁ :: b₂ :: b₃ :: b₄ :: bytes)

def StringText (bytes : Bytes) : Prop := ∃ chars, Chars chars ∧ bytes = 34 :: (chars ++ [34])

/-- A number, by the grammar of `Json.lean`. -/
def NumberLiteral (bytes : Bytes) : Prop :=
  isNumberLiteral (bytes.map fun b => UInt16.ofNat b.toNat) = true

/-- `null`, `true` and `false`. -/
def LiteralName (bytes : Bytes) : Prop :=
  bytes = [110, 117, 108, 108] ∨ bytes = [116, 114, 117, 101] ∨
    bytes = [102, 97, 108, 115, 101]

/-- What precedes the value of an item: a name and a colon, in an object. -/
inductive Label : Bool → Bytes → Prop
  | none : Label false []
  | name {before name after : Bytes} (hbefore : Blank before) (hname : StringText name)
      (hafter : Blank after) : Label true (before ++ name ++ after ++ [58])

def openByte (named : Bool) : UInt8 := if named then 123 else 91

def closeByte (named : Bool) : UInt8 := if named then 125 else 93

mutual

/-- The texts of a value of a shape. -/
inductive ValueText : Bytes → Shape → Prop
  | string {bytes : Bytes} (h : StringText bytes) : ValueText bytes .leaf
  | number {bytes : Bytes} (h : NumberLiteral bytes) : ValueText bytes .leaf
  | literal {bytes : Bytes} (h : LiteralName bytes) : ValueText bytes .leaf
  | empty (named : Bool) {bytes : Bytes} (h : Blank bytes) :
      ValueText (openByte named :: (bytes ++ [closeByte named])) (.collection named [])
  | collection (named : Bool) {bytes : Bytes} {items : List Shape}
      (h : ItemsText named bytes items) :
      ValueText (openByte named :: (bytes ++ [closeByte named])) (.collection named items)

/-- One or more items, with commas between. -/
inductive ItemsText : Bool → Bytes → List Shape → Prop
  | one {named : Bool} {label before value after : Bytes} {s : Shape}
      (hlabel : Label named label) (hbefore : Blank before) (hvalue : ValueText value s)
      (hafter : Blank after) : ItemsText named (label ++ before ++ value ++ after) [s]
  | more {named : Bool} {label before value after rest : Bytes} {s : Shape} {ss : List Shape}
      (hlabel : Label named label) (hbefore : Blank before) (hvalue : ValueText value s)
      (hafter : Blank after) (hrest : ItemsText named rest ss) :
      ItemsText named (label ++ before ++ value ++ after ++ 44 :: rest) (s :: ss)

end

/-- A JSON text: a value with white space around it. -/
def JsonText (bytes : Bytes) (s : Shape) : Prop :=
  ∃ before value after, Blank before ∧ ValueText value s ∧ Blank after ∧
    bytes = before ++ value ++ after

theorem ItemsText.ne_nil {named : Bool} {bytes : Bytes} {items : List Shape}
    (h : ItemsText named bytes items) : items ≠ [] := by
  cases h with
  | one => exact List.cons_ne_nil _ _
  | more => exact List.cons_ne_nil _ _

end JsonGrammar

namespace DecodeValidation

open JsonGrammar

variable {limits : ResolvedDecodeLimits} {stack : List JsonFrame} {totalValues : ℕ}

/-! ### The pieces of a text -/

/-- White space outside of strings changes nothing. -/
theorem scan_blank {bytes : Bytes} (h : Blank bytes) (rest : Bytes) :
    scan limits (bytes ++ rest) .plain stack totalValues =
      scan limits rest .plain stack totalValues := by
  induction bytes with
  | nil => rfl
  | cons b bytes ih =>
    have hb := h b List.mem_cons_self
    rw [List.cons_append, ← ih fun b' hb' => h b' (List.mem_cons_of_mem _ hb')]
    refine scan_of_scanByte ?_ _
    cases stack with
    | nil => rcases hb with rfl | rfl | rfl | rfl <;> rfl
    | cons frame below => rcases hb with rfl | rfl | rfl | rfl <;> rfl

/-- A string is passed over up to its closing quote. -/
theorem scan_chars {chars : Bytes} (h : Chars chars) (rest : Bytes) :
    scan limits (chars ++ 34 :: rest) .quoted stack totalValues =
      scan limits rest .plain stack totalValues := by
  induction h with
  | nil => rw [List.nil_append, scan, if_neg (by decide), if_pos rfl]
  | plain hcontrol hquote hbackslash _ ih =>
    rw [List.cons_append, scan, if_neg hbackslash, if_neg hquote]
    exact ih
  | letter hb _ ih =>
    rw [List.cons_append, List.cons_append, scan_escaped]
    exact ih
  | @unicode b₁ b₂ b₃ b₄ bytes h₁ h₂ h₃ h₄ _ ih =>
    have hplain : ∀ b : UInt8, isHexByte b = true → b ≠ 92 ∧ b ≠ 34 := by
      intro b hb
      refine ⟨?_, ?_⟩ <;> rintro rfl <;> exact absurd hb (by decide)
    have hdigits := @scan_quoted limits stack totalValues [b₁, b₂, b₃, b₄] (fun b hb => by
      simp only [List.mem_cons, List.not_mem_nil, or_false] at hb
      rcases hb with rfl | rfl | rfl | rfl
      · exact hplain _ h₁
      · exact hplain _ h₂
      · exact hplain _ h₃
      · exact hplain _ h₄) (bytes ++ 34 :: rest)
    show scan limits (92 :: 117 :: ([b₁, b₂, b₃, b₄] ++ (bytes ++ 34 :: rest))) .quoted stack
      totalValues = _
    rw [scan_escaped, hdigits, ih]

theorem scan_string {bytes : Bytes} (h : StringText bytes) (rest : Bytes) :
    scan limits (bytes ++ rest) .plain stack totalValues =
      scan limits rest .plain (touch stack) totalValues := by
  obtain ⟨chars, hchars, rfl⟩ := h
  have hquote : scanByte limits 34 stack totalValues = some (.quoted, touch stack, totalValues) :=
    if_pos rfl
  rw [List.cons_append, List.append_assoc, scan_of_scanByte hquote]
  exact scan_chars hchars rest

theorem neutral_of_numberLiteral {bytes : Bytes} (h : NumberLiteral bytes) :
    bytes ≠ [] ∧ ∀ b ∈ bytes, Neutral b := by
  rw [NumberLiteral, isNumberLiteral] at h
  refine ⟨by rintro rfl; exact absurd h (by decide), fun b hb => ?_⟩
  cases hrun : NumberState.start.run (bytes.map fun b => UInt16.ofNat b.toNat) with
  | none =>
    rw [hrun] at h
    cases h
  | some st =>
    have hunit := NumberState.isNumberUnit_of_run hrun _ (List.mem_map_of_mem hb)
    have hneutral := neutral_of_isNumberUnit hunit
    rw [toNat_uint16_ofNat (by have := b.toNat_lt; omega), UInt8.ofNat_toNat] at hneutral
    exact hneutral

theorem neutral_of_literalName {bytes : Bytes} (h : LiteralName bytes) :
    bytes ≠ [] ∧ ∀ b ∈ bytes, Neutral b := by
  rcases h with rfl | rfl | rfl
  · exact ⟨List.cons_ne_nil _ _, by decide⟩
  · exact ⟨List.cons_ne_nil _ _, by decide⟩
  · exact ⟨List.cons_ne_nil _ _, by decide⟩

/-- The name of a member, and the colon behind it. -/
theorem scan_label {named : Bool} {label : Bytes} (h : Label named label) (rest : Bytes) :
    scan limits (label ++ rest) .plain stack totalValues =
      scan limits rest .plain (if named then touch stack else stack) totalValues := by
  cases h with
  | none => rfl
  | name hbefore hname hafter =>
    rw [List.append_assoc, List.append_assoc, List.append_assoc, scan_blank hbefore,
      scan_string hname, scan_blank hafter, List.singleton_append, scan_neutral (by decide),
      touch_touch]
    rfl

/-! ### Brackets -/

theorem bracket (named : Bool) : Bracket (openByte named) (closeByte named) (itemWeight named) := by
  cases named
  · exact .inr ⟨rfl, rfl, rfl⟩
  · exact .inl ⟨rfl, rfl, rfl⟩

/-- An opening bracket is refused at the depth limit. -/
theorem scan_open_eq (named : Bool) (rest : Bytes) :
    scan limits (openByte named :: rest) .plain stack totalValues =
      (decide (stack.length < limits.maxDepth) &&
        scan limits rest .plain (⟨closeByte named, 1, false⟩ :: touch stack) totalValues) := by
  by_cases hdepth : stack.length < limits.maxDepth
  · rw [scan_open (bracket named) hdepth, decide_eq_true hdepth, Bool.true_and]
  · rw [decide_eq_false hdepth, Bool.false_and]
    have hrefused : scanByte limits (openByte named) stack totalValues = none := by
      rw [scanByte.eq_def, if_neg (by cases named <;> decide),
        if_pos (by cases named <;> simp [openByte]), if_pos (by omega)]
    rw [scan, hrefused]

/-- A closing bracket is refused if there are too many items, or too many values so far. -/
theorem scan_close_eq (named : Bool) (items : ℕ) (rest : Bytes) :
    scan limits (closeByte named :: rest) .plain (⟨closeByte named, items, true⟩ :: stack)
        totalValues =
      (decide (items ≤ limits.maxCollectionLength ∧
          totalValues + items * itemWeight named ≤ limits.maxTotalValues) &&
        scan limits rest .plain stack (totalValues + items * itemWeight named)) := by
  by_cases hfits : items ≤ limits.maxCollectionLength ∧
      totalValues + items * itemWeight named ≤ limits.maxTotalValues
  · rw [scan_close (bracket named) hfits.1 hfits.2, decide_eq_true hfits, Bool.true_and]
  · rw [decide_eq_false hfits, Bool.false_and]
    have hrefused : scanByte limits (closeByte named) (⟨closeByte named, items, true⟩ :: stack)
        totalValues = none := by
      by_cases hitems : items ≤ limits.maxCollectionLength
      · have htotal : limits.maxTotalValues < totalValues + items * itemWeight named := by
          by_contra hno
          exact hfits ⟨hitems, by omega⟩
        have hshort : ¬ limits.maxCollectionLength < items := by omega
        cases named
        · rw [itemWeight, if_neg Bool.false_ne_true, Nat.mul_one] at htotal
          simp [scanByte, closeByte, hshort, htotal]
        · rw [itemWeight, if_pos rfl] at htotal
          simp [scanByte, closeByte, hshort, htotal]
      · cases named <;> simp [scanByte, closeByte, Nat.lt_of_not_le hitems]
    rw [scan, hrefused]

theorem scan_comma_eq {close : UInt8} {items : ℕ} {content : Bool} (rest : Bytes) :
    scan limits (44 :: rest) .plain (⟨close, items, content⟩ :: stack) totalValues =
      (decide (items + 1 ≤ limits.maxCollectionLength) &&
        scan limits rest .plain (⟨close, items + 1, content⟩ :: stack) totalValues) := by
  by_cases hitems : items + 1 ≤ limits.maxCollectionLength
  · rw [scan_comma hitems, decide_eq_true hitems, Bool.true_and]
  · rw [decide_eq_false hitems, Bool.false_and]
    have hrefused : scanByte limits 44 (⟨close, items, content⟩ :: stack) totalValues = none := by
      simp [scanByte, Nat.lt_of_not_le hitems]
    rw [scan, hrefused]

/-! ### The scan of a text -/

/-- Behind `d` open brackets and `totalValues` values there is room for a value. -/
def Fits (limits : ResolvedDecodeLimits) (s : Shape) (d totalValues : ℕ) : Prop :=
  s.depth + d ≤ limits.maxDepth ∧ s.widest ≤ limits.maxCollectionLength ∧
    totalValues + s.inside ≤ limits.maxTotalValues

def FitsAll (limits : ResolvedDecodeLimits) (ss : List Shape) (d totalValues : ℕ) : Prop :=
  depthAll ss + d ≤ limits.maxDepth ∧ widestAll ss ≤ limits.maxCollectionLength ∧
    totalValues + insideAll ss ≤ limits.maxTotalValues

instance (s : Shape) (d totalValues : ℕ) : Decidable (Fits limits s d totalValues) :=
  inferInstanceAs (Decidable (_ ∧ _ ∧ _))

instance (ss : List Shape) (d totalValues : ℕ) : Decidable (FitsAll limits ss d totalValues) :=
  inferInstanceAs (Decidable (_ ∧ _ ∧ _))

theorem decide_and_decide {p q r : Prop} [Decidable p] [Decidable q] [Decidable r]
    (h : p ∧ q ↔ r) (b : Bool) : (decide p && (decide q && b)) = (decide r && b) := by
  rw [← Bool.and_assoc, ← Bool.decide_and, decide_eq_decide.mpr h]

theorem scan_leaf {bytes rest : Bytes} (htotal : totalValues ≤ limits.maxTotalValues)
    (hdepth : stack.length ≤ limits.maxDepth)
    (h : scan limits (bytes ++ rest) .plain stack totalValues =
      scan limits rest .plain (touch stack) totalValues) :
    scan limits (bytes ++ rest) .plain stack totalValues =
      (decide (Fits limits .leaf stack.length totalValues) &&
        scan limits rest .plain (touch stack) (totalValues + Shape.leaf.inside)) := by
  have hfits : Fits limits .leaf stack.length totalValues :=
    ⟨by simpa [Shape.depth] using hdepth, Nat.zero_le _, by simpa [Shape.inside] using htotal⟩
  rw [decide_eq_true hfits, Bool.true_and]
  exact h

/-- One item: its label, and its value with white space around it. -/
theorem scan_item {named content : Bool} {label before value after : Bytes} {s : Shape}
    {close : UInt8} {k : ℕ} (hlabel : Label named label) (hbefore : Blank before)
    (hafter : Blank after)
    (hvalue : ∀ {stack : List JsonFrame} {totalValues : ℕ}, stack.length ≤ limits.maxDepth →
      totalValues ≤ limits.maxTotalValues → ∀ rest,
      scan limits (value ++ rest) .plain stack totalValues =
        (decide (Fits limits s stack.length totalValues) &&
          scan limits rest .plain (touch stack) (totalValues + s.inside)))
    (hdepth : stack.length + 1 ≤ limits.maxDepth) (htotal : totalValues ≤ limits.maxTotalValues)
    (rest : Bytes) :
    scan limits (label ++ (before ++ (value ++ (after ++ rest)))) .plain
        (⟨close, k + 1, content⟩ :: stack) totalValues =
      (decide (Fits limits s (stack.length + 1) totalValues) &&
        scan limits rest .plain (⟨close, k + 1, true⟩ :: stack) (totalValues + s.inside)) := by
  rw [scan_label hlabel, scan_blank hbefore]
  have hlength : ∀ st : List JsonFrame, (if named then touch st else st).length = st.length := by
    intro st
    cases named
    · rfl
    · exact length_touch st
  have htouch : ∀ st : List JsonFrame, touch (if named then touch st else st) = touch st := by
    intro st
    cases named
    · rfl
    · exact touch_touch st
  rw [hvalue (by rw [hlength, List.length_cons]; exact hdepth) htotal, hlength, htouch,
    List.length_cons, scan_blank hafter]
  rfl

mutual

/-- Over a value the scan counts what is inside of it, or refuses it. -/
theorem scan_value : ∀ {bytes : Bytes} {s : Shape}, ValueText bytes s →
    ∀ {stack : List JsonFrame} {totalValues : ℕ}, stack.length ≤ limits.maxDepth →
    totalValues ≤ limits.maxTotalValues → ∀ rest,
    scan limits (bytes ++ rest) .plain stack totalValues =
      (decide (Fits limits s stack.length totalValues) &&
        scan limits rest .plain (touch stack) (totalValues + s.inside))
  | _, _, .string h, _, _, hdepth, htotal, rest => scan_leaf htotal hdepth (scan_string h rest)
  | _, _, .number h, _, _, hdepth, htotal, rest => by
    obtain ⟨hne, hneutral⟩ := neutral_of_numberLiteral h
    exact scan_leaf htotal hdepth (scan_neutrals hne hneutral rest)
  | _, _, .literal h, _, _, hdepth, htotal, rest => by
    obtain ⟨hne, hneutral⟩ := neutral_of_literalName h
    exact scan_leaf htotal hdepth (scan_neutrals hne hneutral rest)
  | _, _, .empty named h, stack, totalValues, hdepth, htotal, rest => by
    rw [List.cons_append, List.append_assoc, List.singleton_append, scan_open_eq, scan_blank h,
      scan_close_empty (bracket named) htotal]
    have hinside : (Shape.collection named []).inside = 0 := by
      rw [Shape.inside, insideAll, List.length_nil, Nat.zero_mul]
    rw [hinside, Nat.add_zero]
    congr 1
    refine decide_eq_decide.mpr ?_
    rw [Fits, hinside, Shape.depth, Shape.widest, depthAll, widestAll, List.length_nil]
    omega
  | _, .collection _ items, .collection named h, stack, totalValues, hdepth, htotal, rest => by
    obtain ⟨-, -, -, hpositive, -⟩ := limits.positive
    rw [List.cons_append, List.append_assoc, List.singleton_append, scan_open_eq]
    by_cases hopen : stack.length < limits.maxDepth
    · rw [decide_eq_true hopen, Bool.true_and, scan_items h (k := 0) hpositive
        (by rw [length_touch]; omega) htotal, Nat.zero_add, scan_close_eq]
      have hinside : totalValues + insideAll items + items.length * itemWeight named =
          totalValues + (Shape.collection named items).inside := by
        rw [Shape.inside]
        omega
      rw [hinside]
      refine decide_and_decide ?_ _
      rw [FitsAll, Fits, length_touch, Shape.depth, Shape.widest, Shape.inside]
      omega
    · rw [decide_eq_false hopen, Bool.false_and, decide_eq_false, Bool.false_and]
      rintro ⟨hfits, -⟩
      rw [Shape.depth] at hfits
      omega

/-- Over the items of a collection, behind `k` others. -/
theorem scan_items : ∀ {named : Bool} {bytes : Bytes} {ss : List Shape},
    ItemsText named bytes ss →
    ∀ {close : UInt8} {k : ℕ} {content : Bool} {stack : List JsonFrame} {totalValues : ℕ},
    k + 1 ≤ limits.maxCollectionLength → stack.length + 1 ≤ limits.maxDepth →
    totalValues ≤ limits.maxTotalValues → ∀ rest,
    scan limits (bytes ++ rest) .plain (⟨close, k + 1, content⟩ :: stack) totalValues =
      (decide (FitsAll limits ss (stack.length + 1) totalValues ∧
          k + ss.length ≤ limits.maxCollectionLength) &&
        scan limits rest .plain (⟨close, k + ss.length, true⟩ :: stack)
          (totalValues + insideAll ss))
  | _, _, [s], .one hlabel hbefore hvalue hafter, close, k, content, stack, totalValues,
      hk, hdepth, htotal, rest => by
    rw [List.append_assoc, List.append_assoc, List.append_assoc,
      scan_item hlabel hbefore hafter (scan_value hvalue) hdepth htotal]
    have hinside : insideAll [s] = s.inside := by rw [insideAll, insideAll, Nat.add_zero]
    rw [hinside]
    congr 1
    refine decide_eq_decide.mpr ?_
    rw [FitsAll, Fits, hinside, depthAll, widestAll, depthAll, widestAll, List.length_singleton]
    omega
  | _, _, s :: ss, .more hlabel hbefore hvalue hafter hrest, close, k, content,
      stack, totalValues, hk, hdepth, htotal, rest => by
    rw [List.append_assoc, List.append_assoc, List.append_assoc, List.append_assoc,
      List.cons_append, scan_item hlabel hbefore hafter (scan_value hvalue) hdepth htotal,
      scan_comma_eq]
    by_cases hfits : Fits limits s (stack.length + 1) totalValues ∧
        k + 1 + 1 ≤ limits.maxCollectionLength
    · rw [decide_eq_true hfits.1, decide_eq_true hfits.2, Bool.true_and, Bool.true_and,
        scan_items hrest (k := k + 1) hfits.2 hdepth hfits.1.2.2]
      have hlength : k + 1 + ss.length = k + (s :: ss).length := by
        rw [List.length_cons]
        omega
      have hinside : totalValues + s.inside + insideAll ss = totalValues + insideAll (s :: ss) := by
        rw [insideAll]
        omega
      rw [hlength, hinside]
      congr 1
      refine decide_eq_decide.mpr ?_
      obtain ⟨⟨h₁, h₂, h₃⟩, h₄⟩ := hfits
      rw [FitsAll, FitsAll, hinside, depthAll, widestAll]
      omega
    · rw [← Bool.and_assoc, ← Bool.decide_and, decide_eq_false hfits, Bool.false_and,
        decide_eq_false, Bool.false_and]
      rintro ⟨⟨h₁, h₂, h₃⟩, h₄⟩
      rw [depthAll] at h₁
      rw [widestAll] at h₂
      rw [insideAll] at h₃
      rw [List.length_cons] at h₄
      have hne := List.length_pos_iff.mpr hrest.ne_nil
      exact hfits ⟨⟨by omega, by omega, by omega⟩, by omega⟩

end

/-- **`isSafeJson` bounds exactly.**  A JSON text is accepted if and only if it nests at
most `maxDepth` arrays and objects, none of them has more than `maxCollectionLength`
elements or members, there are at most `maxTotalValues` values, member names included, and
the text has at most `maxDecodedBytes` bytes. -/
theorem isSafeJson_iff (limits : ResolvedDecodeLimits) {input : Bytes} {s : Shape}
    (h : JsonText input s) :
    isSafeJson limits input = true ↔
      s.depth ≤ limits.maxDepth ∧ s.widest ≤ limits.maxCollectionLength ∧
        s.values ≤ limits.maxTotalValues ∧ input.length ≤ limits.maxDecodedBytes := by
  obtain ⟨before, value, after, hbefore, hvalue, hafter, rfl⟩ := h
  obtain ⟨-, -, -, -, hpositive⟩ := limits.positive
  have hscan : scan limits (before ++ value ++ after) .plain [] 1 =
      decide (Fits limits s 0 1) := by
    rw [List.append_assoc, scan_blank hbefore, scan_value hvalue (Nat.zero_le _) hpositive,
      ← List.append_nil after, scan_blank hafter]
    exact Bool.and_true _
  rw [isSafeJson, hscan, Shape.values]
  split_ifs with hlong
  · refine iff_of_false not_false ?_
    rintro ⟨-, -, -, hshort⟩
    omega
  · rw [decide_eq_true_iff, Fits]
    omega

/-- `{"a":[1, null]}` -/
def nestedText : Bytes := [123, 34, 97, 34, 58, 91, 49, 44, 32, 110, 117, 108, 108, 93, 125]

def nestedShape : Shape := .collection true [.collection false [.leaf, .leaf]]

theorem jsonText_nestedText : JsonText nestedText nestedShape := by
  have hblank : Blank [] := fun b hb => absurd hb (List.not_mem_nil)
  have hspace : Blank [32] := by simp [Blank]
  have hname : StringText [34, 97, 34] :=
    ⟨[97], .plain (by decide) (by decide) (by decide) .nil, rfl⟩
  have hone : ValueText [49] .leaf := .number (by unfold NumberLiteral; decide)
  have hnull : ValueText [110, 117, 108, 108] .leaf := .literal (.inl rfl)
  have hitems : ItemsText false [49, 44, 32, 110, 117, 108, 108] [.leaf, .leaf] :=
    .more .none hblank hone hblank (.one .none hspace hnull hblank)
  have hmembers := ItemsText.one (.name hblank hname hblank) hblank
    (ValueText.collection false hitems) hblank
  exact ⟨[], nestedText, [], hblank, .collection true hmembers, hblank, rfl⟩

theorem isSafeJson_iff_nestedText :
    isSafeJson Serializer.defaultDecodeLimits nestedText = true ↔
      nestedShape.depth ≤ Serializer.defaultDecodeLimits.maxDepth ∧
        nestedShape.widest ≤ Serializer.defaultDecodeLimits.maxCollectionLength ∧
        nestedShape.values ≤ Serializer.defaultDecodeLimits.maxTotalValues ∧
        nestedText.length ≤ Serializer.defaultDecodeLimits.maxDecodedBytes :=
  isSafeJson_iff Serializer.defaultDecodeLimits jsonText_nestedText

end DecodeValidation
