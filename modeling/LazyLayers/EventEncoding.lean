/-
The bounded encoder of event metadata (`eventEncoding.ts`).

`encodeBoundedEvent` walks a tree of plain data, copies it and counts the bytes that
its JSON will have before a byte of it is written; the walk is given up as soon as a
limit is passed.  The counting repeats the escaping rules of `JSON.stringify` by hand.

* `reserveString`, `snapshot`, `encodeBoundedEvent` — the walk;
* `Charges` — a walk that costs a fixed amount and fails exactly if that is too much;
* `length_utf8_quote` — what is counted for a string is its length;
* `encodeBoundedEvent_exact` — what is counted is what is written, so the encoder
  gives up exactly when a limit is passed.
-/
import LazyLayers.Json
import LazyLayers.JsonScan

open Js

namespace EventEncoding

/-! ### Plain data -/

/-- A number: `N` are the finite ones, among which -0 is written as 0. -/
inductive Number (N : Type)
  | finite (n : N)
  | nan
  | infinity (negative : Bool)

/-- Plain data.  A hole of an array is read as `undefined`; an object has each of its
names once, in the order in which its properties are enumerated. -/
inductive Plain (N : Type)
  | null
  | bool (b : Bool)
  | num (n : Number N)
  | str (s : JsString)
  | undefined
  | arr (items : List (Plain N))
  | obj (members : List (JsString × Plain N))

variable {N : Type}

def Plain.isUndefined : Plain N → Bool
  | .undefined => true
  | _ => false

/-! ### `JSON.stringify` of plain data -/

def Number.json : Number N → Json N
  | .finite n => .num n
  | .nan => .null
  | .infinity _ => .null

mutual

/-- What `JSON.stringify` writes of a value that is not omitted. -/
def Plain.json : Plain N → Json N
  | .null => .null
  | .bool b => .bool b
  | .num n => n.json
  | .str s => .str s
  | .undefined => .null
  | .arr items => .arr (jsonItems items)
  | .obj members => .obj (jsonMembers members)

def jsonItems : List (Plain N) → List (Json N)
  | [] => []
  | v :: vs => v.json :: jsonItems vs

/-- Members that are `undefined` are omitted. -/
def jsonMembers : List (JsString × Plain N) → List (JsString × Json N)
  | [] => []
  | (name, v) :: ms => if v.isUndefined then jsonMembers ms else (name, v.json) :: jsonMembers ms

end

variable (T : NumberText N)

/-- `JSON.stringify`, which has no text for `undefined`. -/
def stringify (v : Plain N) : Option JsString :=
  if v.isUndefined then none else some (Js.stringify T v.json)

/-! ### The walk -/

def maxMetadataDepth : ℕ := 8
def maxMetadataValues : ℕ := 4096

/-- The counters `bytes` and `values`. -/
structure Counters where
  bytes : ℕ
  values : ℕ
  deriving DecidableEq, Repr

/-- What counts, and throws `REJECT`. -/
abbrev Bounded := StateT Counters Option

variable (maxBytes : ℕ)

def reserve (size : ℕ) : Bounded Unit := fun c =>
  if maxBytes < c.bytes + size then none else some ((), { c with bytes := c.bytes + size })

/-- `++values > MAX_METADATA_VALUES` -/
def countValue : Bounded Unit := fun c =>
  if maxMetadataValues < c.values + 1 then none else some ((), { c with values := c.values + 1 })

def checkDepth (depth : ℕ) : Bounded Unit := fun c =>
  if maxMetadataDepth < depth then none else some ((), c)

def checkLength (length : ℕ) : Bounded Unit := fun c =>
  if maxMetadataValues < length ∨ maxBytes < length then none else some ((), c)

/-- The comma before an item that is not the first. -/
def separate (first : Bool) : Bounded Unit := if first then return () else reserve maxBytes 1

/-- What is reserved for a unit that is no part of a pair. -/
def unitSize (u : UInt16) : ℕ :=
  if u = 34 ∨ u = 92 then 2
  else if u < 32 then if u = 8 ∨ u = 9 ∨ u = 10 ∨ u = 12 ∨ u = 13 then 2 else 6
  else if u < 128 then 1
  else if u < 2048 then 2
  else if isHigh u ∨ isLow u then 6
  else 3

/-- The loop over the units of a string. -/
def reserveUnits : JsString → Bounded Unit
  | [] => return ()
  | [u] => reserve maxBytes (unitSize u)
  | u :: v :: s =>
    if isHigh u ∧ isLow v then do
      reserve maxBytes 4
      reserveUnits s
    else do
      reserve maxBytes (unitSize u)
      reserveUnits (v :: s)

def reserveString (s : JsString) : Bounded Unit := do
  reserve maxBytes 2
  reserveUnits maxBytes s

mutual

def snapshot : Plain N → ℕ → Bounded (Plain N)
  | .null, depth => do
    countValue
    checkDepth depth
    reserve maxBytes 4
    return .null
  | .bool b, depth => do
    countValue
    checkDepth depth
    reserve maxBytes (if b then 4 else 5)
    return .bool b
  | .num n, depth => do
    countValue
    checkDepth depth
    reserve maxBytes (Js.stringify T n.json).length
    return .num n
  | .str s, depth => do
    countValue
    checkDepth depth
    reserveString maxBytes s
    return .str s
  | .undefined, depth => do
    countValue
    checkDepth depth
    reserve maxBytes 4
    return .null
  | .arr items, depth => do
    countValue
    checkDepth depth
    checkLength maxBytes items.length
    reserve maxBytes 2
    return .arr (← snapshotItems true items (depth + 1))
  | .obj members, depth => do
    countValue
    checkDepth depth
    reserve maxBytes 2
    return .obj (← snapshotMembers true members (depth + 1))

/-- The loop over an array; `first` is `i === 0`. -/
def snapshotItems (first : Bool) : List (Plain N) → ℕ → Bounded (List (Plain N))
  | [], _ => return []
  | v :: vs, depth => do
    separate maxBytes first
    let copy ← snapshot v depth
    return copy :: (← snapshotItems false vs depth)

/-- The loop over an object; `first` is `count === 0`. -/
def snapshotMembers (first : Bool) :
    List (JsString × Plain N) → ℕ → Bounded (List (JsString × Plain N))
  | [], _ => return []
  | (name, v) :: ms, depth => do
    countValue
    if v.isUndefined then snapshotMembers first ms depth
    else
      separate maxBytes first
      reserveString maxBytes name
      reserve maxBytes 1
      let copy ← snapshot v depth
      return (name, copy) :: (← snapshotMembers false ms depth)

end

def encodeBoundedEvent (value : Plain N) : Option JsString := do
  let reached ← snapshot T maxBytes value 0 ⟨0, 0⟩
  let json ← stringify T reached.1
  if (utf8 json).length ≤ maxBytes then some json else none

/-! ### What the walk costs -/

mutual

/-- How deep the values below this one are nested; what is omitted is not visited. -/
def Plain.height : Plain N → ℕ
  | .arr items => heightItems items
  | .obj members => heightMembers members
  | _ => 0

def heightItems : List (Plain N) → ℕ
  | [] => 0
  | v :: vs => max (v.height + 1) (heightItems vs)

def heightMembers : List (JsString × Plain N) → ℕ
  | [] => 0
  | (_, v) :: ms => if v.isUndefined then heightMembers ms else max (v.height + 1) (heightMembers ms)

end

mutual

/-- The values that are visited, and the properties of the objects among them. -/
def Plain.count : Plain N → ℕ
  | .arr items => countItems items + 1
  | .obj members => countMembers members + 1
  | _ => 1

def countItems : List (Plain N) → ℕ
  | [] => 0
  | v :: vs => v.count + countItems vs

def countMembers : List (JsString × Plain N) → ℕ
  | [] => 0
  | (_, v) :: ms => (if v.isUndefined then 1 else v.count + 1) + countMembers ms

end

mutual

/-- The copy. -/
def Plain.settled : Plain N → Plain N
  | .undefined => .null
  | .arr items => .arr (settledItems items)
  | .obj members => .obj (settledMembers members)
  | v => v

def settledItems : List (Plain N) → List (Plain N)
  | [] => []
  | v :: vs => v.settled :: settledItems vs

def settledMembers : List (JsString × Plain N) → List (JsString × Plain N)
  | [] => []
  | (name, v) :: ms =>
    if v.isUndefined then settledMembers ms else (name, v.settled) :: settledMembers ms

end

instance : Add Counters := ⟨fun c d => ⟨c.bytes + d.bytes, c.values + d.values⟩⟩

@[simp] theorem bytes_add (c d : Counters) : (c + d).bytes = c.bytes + d.bytes := rfl

@[simp] theorem values_add (c d : Counters) : (c + d).values = c.values + d.values := rfl

theorem Counters.add_assoc (c d e : Counters) : c + d + e = c + (d + e) := by
  show Counters.mk _ _ = Counters.mk _ _
  rw [bytes_add, values_add, Nat.add_assoc, Nat.add_assoc]
  rfl

variable {maxBytes}

def Counters.Within (maxBytes : ℕ) (c : Counters) : Prop :=
  c.bytes ≤ maxBytes ∧ c.values ≤ maxMetadataValues

/-- A walk that asks for `ok` and costs `cost`: it is given up exactly if that is too much. -/
structure Charges (maxBytes : ℕ) {α : Type} (f : Bounded α) (ok : Prop) (a : α) (cost : Counters) :
    Prop where
  returns : ∀ c : Counters, ok → (c + cost).Within maxBytes → f c = some (a, c + cost)
  rejects : ∀ c : Counters, c.Within maxBytes → ¬ (ok ∧ (c + cost).Within maxBytes) → f c = none

section Rules

variable {α β : Type} {f : Bounded α} {g : α → Bounded β} {a : α} {b : β} {p q : Prop}
  {x y : Counters}

theorem within_of_add {c : Counters} (h : (c + x).Within maxBytes) : c.Within maxBytes :=
  ⟨le_trans (Nat.le_add_right _ _) h.1, le_trans (Nat.le_add_right _ _) h.2⟩

theorem Charges.bind (hf : Charges maxBytes f p a x) (hg : Charges maxBytes (g a) q b y) :
    Charges maxBytes (f >>= g) (p ∧ q) b (x + y) := by
  have hrun : ∀ c, (f >>= g) c = (f c).bind fun r => g r.1 r.2 := fun c => rfl
  constructor
  · intro c hok hwithin
    rw [← Counters.add_assoc] at hwithin ⊢
    rw [hrun, hf.returns c hok.1 (within_of_add hwithin), Option.bind_some]
    exact hg.returns _ hok.2 hwithin
  · intro c hc hnot
    rw [hrun]
    by_cases hfirst : p ∧ (c + x).Within maxBytes
    · rw [hf.returns c hfirst.1 hfirst.2, Option.bind_some]
      refine hg.rejects _ hfirst.2 ?_
      intro hsecond
      rw [Counters.add_assoc] at hsecond
      exact hnot ⟨⟨hfirst.1, hsecond.1⟩, hsecond.2⟩
    · rw [hf.rejects c hc hfirst, Option.bind_none]

theorem Charges.seq {f : Bounded Unit} {g : Bounded β} (hf : Charges maxBytes f p () x)
    (hg : Charges maxBytes g q b y) : Charges maxBytes (do f; g) (p ∧ q) b (x + y) :=
  hf.bind hg

theorem charges_pure (a : α) : Charges maxBytes (pure a : Bounded α) True a ⟨0, 0⟩ := by
  constructor
  · intro c _ _
    rfl
  · intro c hc hnot
    exact absurd ⟨trivial, hc⟩ hnot

theorem charges_reserve (size : ℕ) : Charges maxBytes (reserve maxBytes size) True () ⟨size, 0⟩ := by
  constructor
  · intro c _ hwithin
    exact if_neg (Nat.not_lt.mpr hwithin.1)
  · intro c hc hnot
    refine if_pos ?_
    by_contra hle
    exact hnot ⟨trivial, Nat.not_lt.mp hle, hc.2⟩

theorem charges_countValue : Charges maxBytes countValue True () ⟨0, 1⟩ := by
  constructor
  · intro c _ hwithin
    exact if_neg (Nat.not_lt.mpr hwithin.2)
  · intro c hc hnot
    refine if_pos ?_
    by_contra hle
    exact hnot ⟨trivial, hc.1, Nat.not_lt.mp hle⟩

theorem charges_checkDepth (depth : ℕ) :
    Charges maxBytes (checkDepth depth) (depth ≤ maxMetadataDepth) () ⟨0, 0⟩ := by
  constructor
  · intro c hdepth _
    exact if_neg (Nat.not_lt.mpr hdepth)
  · intro c hc hnot
    refine if_pos ?_
    by_contra hle
    exact hnot ⟨Nat.not_lt.mp hle, hc⟩

theorem charges_checkLength (length : ℕ) : Charges maxBytes (checkLength maxBytes length)
    (length ≤ maxMetadataValues ∧ length ≤ maxBytes) () ⟨0, 0⟩ := by
  constructor
  · intro c hlength _
    exact if_neg (by omega)
  · intro c hc hnot
    refine if_pos ?_
    by_contra hle
    exact hnot ⟨by omega, hc⟩

theorem charges_separate (first : Bool) :
    Charges maxBytes (separate maxBytes first) True () ⟨if first then 0 else 1, 0⟩ := by
  cases first with
  | true => exact charges_pure ()
  | false => exact charges_reserve 1

/-- The same cost written in another way. -/
theorem Charges.congr (h : Charges maxBytes f p a x) (hpq : p ↔ q) (hbytes : x.bytes = y.bytes)
    (hvalues : x.values = y.values) : Charges maxBytes f q a y := by
  obtain rfl : x = y := by
    cases x
    cases y
    cases hbytes
    cases hvalues
    rfl
  exact ⟨fun c hq => h.returns c (hpq.mpr hq), fun c hc hnot =>
    h.rejects c hc fun hall => hnot ⟨hpq.mp hall.1, hall.2⟩⟩

/-- What the limits imply need not be asked for. -/
theorem Charges.of_and (h : Charges maxBytes f (p ∧ q) a x)
    (hq : x.bytes ≤ maxBytes → x.values ≤ maxMetadataValues → q) : Charges maxBytes f p a x := by
  have hwithin : ∀ c : Counters, (c + x).Within maxBytes → q := fun c hc =>
    hq (le_trans (Nat.le_add_left _ _) hc.1) (le_trans (Nat.le_add_left _ _) hc.2)
  constructor
  · intro c hp hc
    exact h.returns c ⟨hp, hwithin c hc⟩ hc
  · intro c hc hnot
    exact h.rejects c hc fun hall => hnot ⟨hall.1.1, hall.2⟩

end Rules

/-! ### Strings -/

theorem length_utf8_append {s : JsString} (hs : wellFormed s) (t : JsString) :
    (utf8 (s ++ t)).length = (utf8 s).length + (utf8 t).length := by
  rw [utf8_append hs, List.length_append]

theorem length_utf8_of_ascii {s : JsString} (hs : ∀ u ∈ s, u.toNat < 128) :
    (utf8 s).length = s.length := by
  have h := utf8_ascii_append hs []
  rw [List.append_nil] at h
  rw [h, show utf8 [] = [] from rfl, List.append_nil, List.length_map]

theorem length_utf8EncodeChar (c : Char) : (String.utf8EncodeChar c).length =
    if c.toNat < 128 then 1 else if c.toNat < 2048 then 2 else if c.toNat < 65536 then 3 else 4 := by
  rw [String.length_utf8EncodeChar, Char.utf8Size]
  simp only [UInt32.le_iff_toNat_le, UInt32.toNat_ofNatLT, Char.toNat]
  split_ifs <;> omega

/-- A unit that is no surrogate. -/
theorem length_utf8_singleton {u : UInt16} (hh : ¬ isHigh u) (hl : ¬ isLow u) :
    (utf8 [u]).length = if u.toNat < 128 then 1 else if u.toNat < 2048 then 2 else 3 := by
  have hu := u.toNat_lt
  have hchar : (Char.ofNat u.toNat).toNat = u.toNat := by
    refine toNat_ofNat ?_
    simp only [isHigh, isLow, Bool.and_eq_true, decide_eq_true_eq] at hh hl
    omega
  rw [utf8, scalars_cons hh hl, List.flatMap_cons]
  show (String.utf8EncodeChar (Char.ofNat u.toNat) ++ []).length = _
  rw [List.append_nil, length_utf8EncodeChar, hchar, if_pos (show u.toNat < 65536 from hu)]

theorem length_utf8_pair {u v : UInt16} (hu : isHigh u) (hv : isLow v) (s : JsString) :
    (utf8 (u :: v :: s)).length = (utf8 s).length + 4 := by
  have hfour : (String.utf8EncodeChar (pair u v)).length = 4 := by
    simp only [isHigh, isLow, Bool.and_eq_true, decide_eq_true_eq] at hu hv
    have hnat : (pair u v).toNat =
        0x10000 + (u.toNat - 0xD800) * 0x400 + (v.toNat - 0xDC00) := toNat_ofNat (by omega)
    rw [length_utf8EncodeChar, hnat, if_neg (by omega), if_neg (by omega), if_neg (by omega)]
  have hsplit : utf8 (u :: v :: s) = String.utf8EncodeChar (pair u v) ++ utf8 s := by
    rw [utf8, scalars, if_pos hu, if_pos hv, List.flatMap_cons, Option.getD_some, utf8]
  rw [hsplit, List.length_append, hfour, Nat.add_comm]

theorem length_utf8_unicodeEscape (u : UInt16) : (utf8 (unicodeEscape u)).length = 6 := by
  rw [length_utf8_of_ascii (ascii_unicodeEscape u)]
  rfl

theorem unitSize_of_surrogate {u : UInt16} (h : isHigh u ∨ isLow u) : unitSize u = 6 := by
  obtain ⟨hlow, h34, h92⟩ := plain_of_surrogate h
  have hge : 2048 ≤ u.toNat := by
    simp only [isHigh, isLow, Bool.and_eq_true, decide_eq_true_eq] at h
    omega
  have hlt : ∀ n : UInt16, n.toNat ≤ 2048 → ¬ u < n := by
    intro n hn hu
    rw [UInt16.lt_iff_toNat_lt] at hu
    omega
  rw [unitSize, if_neg (by simp [h34, h92]), if_neg (hlt 32 (by decide)),
    if_neg (hlt 128 (by decide)), if_neg (hlt 2048 (by decide)), if_pos h]

/-- What is reserved for a unit is what its escape takes. -/
theorem length_utf8_quoteUnit {u : UInt16} (hh : ¬ isHigh u) (hl : ¬ isLow u) :
    (utf8 (quoteUnit u)).length = unitSize u := by
  rw [quoteUnit, unitSize]
  by_cases h34 : u = 34
  · rw [h34]
    rfl
  by_cases h92 : u = 92
  · rw [h92]
    rfl
  rw [if_neg (show ¬ (u = 34 ∨ u = 92) by simp [h34, h92])]
  by_cases h32 : u.toNat < 32
  · rw [if_pos (show u < 32 from h32)]
    by_cases hshort : u = 8 ∨ u = 9 ∨ u = 10 ∨ u = 12 ∨ u = 13
    · rw [if_pos hshort]
      rcases hshort with rfl | rfl | rfl | rfl | rfl <;> rfl
    · rw [if_neg hshort]
      simp only [not_or] at hshort
      rw [if_neg hshort.1, if_neg hshort.2.1, if_neg hshort.2.2.1, if_neg hshort.2.2.2.1,
        if_neg hshort.2.2.2.2, if_neg h34, if_neg h92, if_pos h32, length_utf8_unicodeEscape]
  · have hne : ∀ n : UInt16, n.toNat < 32 → u ≠ n := by
      rintro n hn rfl
      exact h32 hn
    rw [if_neg (hne 8 (by decide)), if_neg (hne 9 (by decide)), if_neg (hne 10 (by decide)),
      if_neg (hne 12 (by decide)), if_neg (hne 13 (by decide)), if_neg h34, if_neg h92,
      if_neg h32, length_utf8_singleton hh hl, if_neg (show ¬ u < 32 from h32)]
    simp only [hh, hl, or_self]
    rfl

/-- What is reserved for the units of a string. -/
def unitsSize : JsString → ℕ
  | [] => 0
  | [u] => unitSize u
  | u :: v :: s => if isHigh u ∧ isLow v then 4 + unitsSize s else unitSize u + unitsSize (v :: s)

theorem length_utf8_quoteUnits (s : JsString) : (utf8 (quoteUnits s)).length = unitsSize s := by
  induction s using quoteUnits.induct with
  | case1 => rfl
  | case2 u h =>
    rw [quoteUnits, if_pos h, length_utf8_unicodeEscape, unitsSize,
      unitSize_of_surrogate (by simpa using h)]
  | case3 u h =>
    rw [quoteUnits, if_neg h, unitsSize]
    rw [Bool.or_eq_true, not_or] at h
    exact length_utf8_quoteUnit h.1 h.2
  | case4 u v s hu hv ih =>
    rw [quoteUnits, if_pos hu, if_pos hv, length_utf8_pair hu hv, unitsSize, if_pos ⟨hu, hv⟩, ih,
      Nat.add_comm]
  | case5 u v s hu hv ih =>
    rw [quoteUnits, if_pos hu, if_neg hv, length_utf8_append (wellFormed_unicodeEscape u),
      length_utf8_unicodeEscape, ih, unitsSize, if_neg fun h => hv h.2,
      unitSize_of_surrogate (.inl hu)]
  | case6 u v s hu hl ih =>
    rw [quoteUnits, if_neg hu, if_pos hl, length_utf8_append (wellFormed_unicodeEscape u),
      length_utf8_unicodeEscape, ih, unitsSize, if_neg fun h => hu h.1,
      unitSize_of_surrogate (.inr hl)]
  | case7 u v s hu hl ih =>
    rw [quoteUnits, if_neg hu, if_neg hl, length_utf8_append (wellFormed_quoteUnit hu hl),
      length_utf8_quoteUnit hu hl, ih, unitsSize, if_neg fun h => hu h.1]

/-- A string takes what is reserved for it. -/
theorem length_utf8_quote (s : JsString) : (utf8 (quote s)).length = 2 + unitsSize s := by
  rw [quote, utf8_cons_ascii (by decide), List.length_cons,
    length_utf8_append (wellFormed_quoteUnits s), length_utf8_quoteUnits]
  show unitsSize s + 1 + 1 = _
  omega

theorem charges_reserveUnits (s : JsString) :
    Charges maxBytes (reserveUnits maxBytes s) True () ⟨unitsSize s, 0⟩ := by
  induction s using unitsSize.induct with
  | case1 => exact charges_pure ()
  | case2 u => exact charges_reserve _
  | case3 u v s h ih =>
    rw [reserveUnits, if_pos h, unitsSize, if_pos h]
    exact ((charges_reserve 4).bind ih).congr (by simp) rfl rfl
  | case4 u v s h ih =>
    rw [reserveUnits, if_neg h, unitsSize, if_neg h]
    exact ((charges_reserve _).bind ih).congr (by simp) rfl rfl

theorem charges_reserveString (s : JsString) :
    Charges maxBytes (reserveString maxBytes s) True () ⟨(utf8 (quote s)).length, 0⟩ :=
  ((charges_reserve 2).bind (charges_reserveUnits s)).congr (by simp)
    (length_utf8_quote s).symm rfl

/-! ### The whole walk -/

/-- How many bytes the JSON of a value has. -/
def size (v : Plain N) : ℕ := (utf8 (Js.stringify T v.json)).length

/-- The bytes of the items of an array, each behind a comma but the first. -/
def sizeItems (first : Bool) : List (Plain N) → ℕ
  | [] => 0
  | v :: vs => (if first then 0 else 1) + (size T v + sizeItems false vs)

def sizeMembers (first : Bool) : List (JsString × Plain N) → ℕ
  | [] => 0
  | (name, v) :: ms =>
    if v.isUndefined then sizeMembers first ms
    else (if first then 0 else 1) +
      ((utf8 (quote name)).length + (1 + (size T v + sizeMembers false ms)))

theorem length_utf8_cons {u : UInt16} (hu : u.toNat < 128) (s : JsString) :
    (utf8 (u :: s)).length = (utf8 s).length + 1 := by
  rw [utf8_cons_ascii hu, List.length_cons]

theorem length_utf8_items (vs : List (Plain N)) :
    (utf8 (stringifyItems T (jsonItems vs))).length = sizeItems T true vs := by
  have hrest : ∀ vs : List (Plain N), sizeItems T false vs =
      if vs = [] then 0 else sizeItems T true vs + 1 := by
    intro vs
    cases vs with
    | nil => rfl
    | cons v vs =>
      simp only [sizeItems, if_true, reduceCtorEq, if_false, Bool.false_eq_true]
      omega
  induction vs with
  | nil => rfl
  | cons v vs ih =>
    have hv : (utf8 (Js.stringify T v.json)).length = size T v := rfl
    rw [sizeItems, hrest, ← ih]
    cases vs with
    | nil => simp [jsonItems, stringifyItems, hv]
    | cons w vs =>
      rw [jsonItems, jsonItems, stringifyItems, length_utf8_append (wellFormed_stringify T _),
        length_utf8_cons (by decide), ← jsonItems, hv]
      simp

theorem length_utf8_members (ms : List (JsString × Plain N)) :
    (utf8 (stringifyMembers T (jsonMembers ms))).length = sizeMembers T true ms := by
  have hrest : ∀ ms : List (JsString × Plain N), sizeMembers T false ms =
      if jsonMembers ms = [] then 0 else sizeMembers T true ms + 1 := by
    intro ms
    induction ms with
    | nil => rfl
    | cons m ms ih =>
      obtain ⟨name, v⟩ := m
      by_cases hv : v.isUndefined
      · simp only [sizeMembers, jsonMembers, hv, if_true]
        exact ih
      · simp only [sizeMembers, jsonMembers, hv, if_true, reduceCtorEq, if_false,
          Bool.false_eq_true]
        omega
  induction ms with
  | nil => rfl
  | cons m ms ih =>
    obtain ⟨name, v⟩ := m
    by_cases hv : v.isUndefined
    · rw [jsonMembers, if_pos hv, ih, sizeMembers, if_pos hv]
    · have hsize : (utf8 (Js.stringify T v.json)).length = size T v := rfl
      rw [jsonMembers, if_neg hv, sizeMembers, if_neg hv, hrest, ← ih]
      cases hms : jsonMembers ms with
      | nil =>
        have hone : stringifyMembers T [(name, v.json)] = quote name ++ 58 :: Js.stringify T v.json := by
          rw [stringifyMembers]
        rw [hone, length_utf8_append (wellFormed_quote name), length_utf8_cons (by decide), hsize]
        simp only [if_true]
        omega
      | cons m' ms' =>
        rw [stringifyMembers, length_utf8_append (wellFormed_quote name),
          length_utf8_cons (by decide), length_utf8_append (wellFormed_stringify T _),
          length_utf8_cons (by decide), hsize]
        simp only [if_true, reduceCtorEq, if_false]
        omega

theorem heightItems_le {vs : List (Plain N)} {k : ℕ} :
    heightItems vs ≤ k ↔ ∀ v ∈ vs, v.height + 1 ≤ k := by
  induction vs with
  | nil => simp [heightItems]
  | cons v vs ih => rw [heightItems, max_le_iff, ih, List.forall_mem_cons]

theorem heightMembers_le {ms : List (JsString × Plain N)} {k : ℕ} :
    heightMembers ms ≤ k ↔ ∀ m ∈ ms, ¬ m.2.isUndefined → m.2.height + 1 ≤ k := by
  induction ms with
  | nil => simp [heightMembers]
  | cons m ms ih =>
    obtain ⟨name, v⟩ := m
    rw [heightMembers, List.forall_mem_cons, ← ih]
    by_cases hv : v.isUndefined
    · simp [hv]
    · simp [hv]

theorem size_arr (items : List (Plain N)) : size T (.arr items) = sizeItems T true items + 2 := by
  rw [← length_utf8_items, size, Plain.json, Js.stringify, length_utf8_cons (by decide),
    length_utf8_append (wellFormed_stringifyItems T _)]
  rfl

theorem size_obj (members : List (JsString × Plain N)) :
    size T (.obj members) = sizeMembers T true members + 2 := by
  rw [← length_utf8_members, size, Plain.json, Js.stringify,
    length_utf8_cons (by decide), length_utf8_append (wellFormed_stringifyMembers T _)]
  rfl

/-- The commas alone are almost as many as the items. -/
theorem length_le_sizeItems (items : List (Plain N)) : items.length ≤ sizeItems T true items + 1 := by
  have hrest : ∀ vs : List (Plain N), vs.length ≤ sizeItems T false vs := by
    intro vs
    induction vs with
    | nil => rfl
    | cons v vs ih =>
      simp only [List.length_cons, sizeItems, if_false, Bool.false_eq_true]
      omega
  cases items with
  | nil => exact Nat.zero_le _
  | cons v vs =>
    have h := hrest vs
    simp only [List.length_cons, sizeItems, if_true]
    omega

theorem Plain.count_pos (v : Plain N) : 0 < v.count := by
  cases v <;> simp [Plain.count]

theorem length_le_countItems (items : List (Plain N)) : items.length ≤ countItems items := by
  induction items with
  | nil => rfl
  | cons v vs ih =>
    have hv := v.count_pos
    rw [List.length_cons, countItems]
    omega

/-- The length of an array is checked only to give up early. -/
theorem length_le_of_within {items : List (Plain N)}
    (hbytes : size T (.arr items) ≤ maxBytes)
    (hvalues : (Plain.arr items).count ≤ maxMetadataValues) :
    items.length ≤ maxMetadataValues ∧ items.length ≤ maxBytes := by
  have hcommas := length_le_sizeItems T items
  have hcount := length_le_countItems items
  rw [size_arr] at hbytes
  rw [Plain.count] at hvalues
  exact ⟨by omega, by omega⟩

theorem height_arr_le {items : List (Plain N)} {depth m : ℕ} :
    depth + (Plain.arr items).height ≤ m ↔
      depth ≤ m ∧ ∀ v ∈ items, depth + 1 + v.height ≤ m := by
  have hheight := @heightItems_le _ items (m - depth)
  rw [Plain.height]
  constructor
  · intro h
    refine ⟨by omega, fun v hv => ?_⟩
    have hle := hheight.mp (by omega) v hv
    omega
  · rintro ⟨hdepth, hall⟩
    have hle := hheight.mpr fun v hv => by
      have hv' := hall v hv
      omega
    omega

theorem height_obj_le {members : List (JsString × Plain N)} {depth m : ℕ} :
    depth + (Plain.obj members).height ≤ m ↔
      depth ≤ m ∧ ∀ p ∈ members, ¬ p.2.isUndefined → depth + 1 + p.2.height ≤ m := by
  have hheight := @heightMembers_le _ members (m - depth)
  rw [Plain.height]
  constructor
  · intro h
    refine ⟨by omega, fun p hp hdefined => ?_⟩
    have hle := hheight.mp (by omega) p hp hdefined
    omega
  · rintro ⟨hdepth, hall⟩
    have hle := hheight.mpr fun p hp hdefined => by
      have hp' := hall p hp hdefined
      omega
    omega

/-- A value is counted and its depth is checked before anything else. -/
theorem charges_visit {α : Type} {f : Bounded α} {p : Prop} {a : α} {bytes values : ℕ}
    (h : Charges maxBytes f p a ⟨bytes, values⟩) (depth : ℕ) :
    Charges maxBytes (do countValue; checkDepth depth; f) (depth ≤ maxMetadataDepth ∧ p) a
      ⟨bytes, values + 1⟩ := by
  refine (charges_countValue.seq ((charges_checkDepth depth).seq h)).congr ?_ ?_ ?_
  · rw [true_and]
  · simp only [bytes_add]
    omega
  · simp only [values_add]
    omega

theorem Charges.map {α β : Type} {f : Bounded α} {p : Prop} {a : α} {x : Counters}
    (h : Charges maxBytes f p a x) (g : α → β) :
    Charges maxBytes (do return g (← f)) p (g a) x :=
  (h.bind (charges_pure (g a))).congr (iff_of_eq (and_true p)) rfl rfl

/-- A value with nothing inside. -/
theorem charges_leaf {f : Bounded Unit} {bytes : ℕ} (h : Charges maxBytes f True () ⟨bytes, 0⟩)
    (copy : Plain N) (depth : ℕ) :
    Charges maxBytes (do countValue; checkDepth depth; f; return copy) (depth ≤ maxMetadataDepth)
      copy ⟨bytes, 1⟩ :=
  (charges_visit (h.map fun _ => copy) depth).congr (iff_of_eq (and_true _)) rfl rfl

mutual

/-- What the walk counts for a value is what its JSON has. -/
theorem charges_snapshot : ∀ (v : Plain N) (depth : ℕ),
    Charges maxBytes (snapshot T maxBytes v depth) (depth + v.height ≤ maxMetadataDepth) v.settled
      ⟨size T v, v.count⟩
  | .null, depth => by
    rw [snapshot]
    exact charges_leaf (charges_reserve 4) .null depth
  | .bool b, depth => by
    rw [snapshot]
    refine (charges_leaf (charges_reserve _) (.bool b) depth).congr Iff.rfl ?_ rfl
    cases b <;> rfl
  | .num n, depth => by
    rw [snapshot]
    refine (charges_leaf (charges_reserve _) (.num n) depth).congr Iff.rfl ?_ rfl
    cases n with
    | finite n => exact (length_utf8_of_ascii (ascii_toText T n)).symm
    | nan => rfl
    | infinity negative => rfl
  | .str s, depth => by
    rw [snapshot]
    exact charges_leaf (charges_reserveString s) (.str s) depth
  | .undefined, depth => by
    rw [snapshot]
    exact charges_leaf (charges_reserve 4) .null depth
  | .arr items, depth => by
    have hitems := (charges_snapshotItems items true depth).map Plain.arr
    have hall := charges_visit ((charges_checkLength items.length).seq
      ((charges_reserve 2).seq hitems)) depth
    rw [snapshot]
    refine Charges.of_and (q := items.length ≤ maxMetadataValues ∧ items.length ≤ maxBytes)
      (hall.congr (y := ⟨size T (.arr items), (Plain.arr items).count⟩) ?_ ?_ ?_)
      (length_le_of_within T)
    · rw [height_arr_le, true_and]
      exact ⟨fun h => ⟨⟨h.1, h.2.2⟩, h.2.1⟩, fun h => ⟨h.1.1, h.2, h.1.2⟩⟩
    · rw [size_arr]
      simp only [bytes_add]
      omega
    · simp only [values_add, Plain.count]
      omega
  | .obj members, depth => by
    have hmembers := (charges_snapshotMembers members true depth).map Plain.obj
    have hall := charges_visit ((charges_reserve 2).seq hmembers) depth
    rw [snapshot]
    refine hall.congr ?_ ?_ ?_
    · rw [height_obj_le, true_and]
    · rw [size_obj]
      exact Nat.add_comm _ _
    · simp only [Plain.count]
      omega

theorem charges_snapshotItems : ∀ (vs : List (Plain N)) (first : Bool) (depth : ℕ),
    Charges maxBytes (snapshotItems T maxBytes first vs (depth + 1))
      (∀ v ∈ vs, depth + 1 + v.height ≤ maxMetadataDepth) (settledItems vs)
      ⟨sizeItems T first vs, countItems vs⟩
  | [], first, depth => by
    rw [snapshotItems]
    exact (charges_pure _).congr (by simp) rfl rfl
  | v :: vs, first, depth => by
    have hv := charges_snapshot v (depth + 1)
    have hvs := (charges_snapshotItems vs false depth).map (v.settled :: ·)
    rw [snapshotItems]
    refine ((charges_separate first).seq (Charges.bind (g := fun copy => do
      return copy :: (← snapshotItems T maxBytes false vs (depth + 1))) hv hvs)).congr ?_ rfl ?_
    · rw [true_and, List.forall_mem_cons]
    · exact Nat.zero_add _

theorem charges_snapshotMembers : ∀ (ms : List (JsString × Plain N)) (first : Bool) (depth : ℕ),
    Charges maxBytes (snapshotMembers T maxBytes first ms (depth + 1))
      (∀ m ∈ ms, ¬ m.2.isUndefined → depth + 1 + m.2.height ≤ maxMetadataDepth)
      (settledMembers ms) ⟨sizeMembers T first ms, countMembers ms⟩
  | [], first, depth => by
    rw [snapshotMembers]
    exact (charges_pure _).congr (by simp) rfl rfl
  | (name, v) :: ms, first, depth => by
    rw [snapshotMembers, settledMembers]
    by_cases hundefined : v.isUndefined
    · have hms := charges_snapshotMembers ms first depth
      simp only [hundefined, if_true]
      refine (charges_countValue.seq hms).congr ?_ ?_ ?_
      · simp [hundefined]
      · simp [sizeMembers, hundefined]
      · simp [countMembers, hundefined]
    · have hv := charges_snapshot v (depth + 1)
      have hms := (charges_snapshotMembers ms false depth).map ((name, v.settled) :: ·)
      have hrest := Charges.bind (g := fun copy => do
        return (name, copy) :: (← snapshotMembers T maxBytes false ms (depth + 1))) hv hms
      simp only [hundefined, if_false, Bool.false_eq_true]
      refine (charges_countValue.seq ((charges_separate first).seq
        ((charges_reserveString name).seq ((charges_reserve 1).seq hrest)))).congr ?_ ?_ ?_
      · simp [hundefined]
      · simp only [bytes_add, sizeMembers, hundefined, if_false, Bool.false_eq_true]
        omega
      · simp only [values_add, countMembers, hundefined, if_false, Bool.false_eq_true]
        omega

end

/-! ### The encoder -/

mutual

/-- The copy has the same JSON. -/
theorem json_settled : ∀ v : Plain N, v.settled.json = v.json
  | .null => rfl
  | .bool b => rfl
  | .num n => rfl
  | .str s => rfl
  | .undefined => rfl
  | .arr items => by rw [Plain.settled, Plain.json, Plain.json, jsonItems_settled items]
  | .obj members => by rw [Plain.settled, Plain.json, Plain.json, jsonMembers_settled members]

theorem jsonItems_settled : ∀ vs : List (Plain N), jsonItems (settledItems vs) = jsonItems vs
  | [] => rfl
  | v :: vs => by
    rw [settledItems, jsonItems, jsonItems, json_settled v, jsonItems_settled vs]

theorem jsonMembers_settled : ∀ ms : List (JsString × Plain N),
    jsonMembers (settledMembers ms) = jsonMembers ms
  | [] => rfl
  | (name, v) :: ms => by
    rw [settledMembers, jsonMembers]
    by_cases hv : v.isUndefined
    · rw [if_pos hv, if_pos hv, jsonMembers_settled ms]
    · have hsettled : ¬ v.settled.isUndefined := by
        cases v with
        | undefined => exact absurd rfl hv
        | _ => exact hv
      rw [if_neg hv, if_neg hv, jsonMembers, if_neg hsettled, json_settled v,
        jsonMembers_settled ms]

end

theorem isUndefined_settled (v : Plain N) : v.settled.isUndefined = false := by
  cases v <;> rfl

/-- **The bounded encoder is exact.**  It returns what `JSON.stringify` does if the value keeps
to the limits, and nothing otherwise; if the walk comes to its end, it has reserved as many bytes
as the JSON has. -/
theorem encodeBoundedEvent_exact {value : Plain N} (hvalue : value ≠ .undefined) (maxBytes : ℕ) :
    ∃ json, stringify T value = some json ∧
      encodeBoundedEvent T maxBytes value =
        (if value.height ≤ 8 ∧ value.count ≤ 4096 ∧ (utf8 json).length ≤ maxBytes then some json
        else none) ∧
      ∀ copy c, snapshot T maxBytes value 0 ⟨0, 0⟩ = some (copy, c) →
        c.bytes = (utf8 json).length := by
  have hdefined : ¬ value.isUndefined := by
    cases value with
    | undefined => exact absurd rfl hvalue
    | _ => exact Bool.false_ne_true
  have hcopy : stringify T value.settled = some (Js.stringify T value.json) := by
    rw [stringify, isUndefined_settled, json_settled]
    rfl
  have hwalk : Charges maxBytes (snapshot T maxBytes value 0) (0 + value.height ≤ 8) value.settled
      ⟨size T value, value.count⟩ := charges_snapshot T value 0
  have hzero : (⟨0, 0⟩ : Counters) + ⟨size T value, value.count⟩ =
      ⟨size T value, value.count⟩ := by
    show Counters.mk (0 + _) (0 + _) = _
    rw [Nat.zero_add, Nat.zero_add]
  have hstart : (⟨0, 0⟩ : Counters).Within maxBytes := ⟨Nat.zero_le _, Nat.zero_le _⟩
  have hends := hwalk.returns ⟨0, 0⟩
  have hgives := hwalk.rejects ⟨0, 0⟩ hstart
  rw [hzero, Nat.zero_add] at hends hgives
  refine ⟨_, if_neg hdefined, ?_, ?_⟩
  · show _ = if value.height ≤ 8 ∧ value.count ≤ 4096 ∧ size T value ≤ maxBytes then _ else _
    by_cases hlimits : value.height ≤ 8 ∧ value.count ≤ 4096 ∧ size T value ≤ maxBytes
    · rw [if_pos hlimits, encodeBoundedEvent, hends hlimits.1 ⟨hlimits.2.2, hlimits.2.1⟩]
      show (stringify T value.settled >>= fun json => _) = _
      rw [hcopy]
      exact if_pos hlimits.2.2
    · rw [if_neg hlimits, encodeBoundedEvent,
        hgives fun h => hlimits ⟨h.1, h.2.2, h.2.1⟩]
      rfl
  · intro copy c hrun
    by_cases hlimits : value.height ≤ 8 ∧ (⟨size T value, value.count⟩ : Counters).Within maxBytes
    · rw [hends hlimits.1 hlimits.2] at hrun
      cases hrun
      rfl
    · rw [hgives hlimits] at hrun
      cases hrun

/-- An object with an omitted member and an array with a hole. -/
def sampleMetadata : Plain Unit :=
  .obj [(str "key", .str [0xD83D, 0xDE00, 0xD83D]), (str "gone", .undefined),
    (str "tags", .arr [.undefined, .num .nan, .num (.finite ())])]

theorem encodeBoundedEvent_exact_sample :
    encodeBoundedEvent zeroText 41 sampleMetadata = stringify zeroText sampleMetadata ∧
      encodeBoundedEvent zeroText 40 sampleMetadata = none := by
  have hdefined : sampleMetadata ≠ .undefined := fun h => by cases h
  obtain ⟨json, hjson, hfits, -⟩ := encodeBoundedEvent_exact zeroText hdefined 41
  obtain ⟨json', hjson', hlong, -⟩ := encodeBoundedEvent_exact zeroText hdefined 40
  have hlength : ∀ j, stringify zeroText sampleMetadata = some j → (utf8 j).length = 41 := by
    rintro j hj
    cases hj
    decide +kernel
  have hheight : sampleMetadata.height ≤ 8 := by decide
  have hcount : sampleMetadata.count ≤ 4096 := by decide
  refine ⟨?_, ?_⟩
  · rw [hfits, if_pos ⟨hheight, hcount, (hlength json hjson).le⟩, hjson]
  · rw [hlong, if_neg]
    rintro ⟨-, -, hle⟩
    rw [hlength json' hjson'] at hle
    exact absurd hle (by decide)

end EventEncoding
