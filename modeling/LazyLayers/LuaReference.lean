/-
A concrete runtime for the coordination script.

`Lua` asks of `cjson` only that it reads back what it wrote.  `referenceLua`
writes a table the way `cjson.encode` does (with `/` escaped, the fields in one
of the orders `pairs` may give) and reads flat objects of strings and whole
numbers back, so the script can be run on concrete inputs.

* `parseString_escape`, `parseFields_render` — the reader inverts the writer;
* `referenceLua` — the runtime, with the facts `Lua` asks for.
-/
import LazyLayers.OperationScript

namespace Transactions

/-- The body of a JSON string: quote, backslash and slash are escaped. -/
def escape : LuaString → LuaString
  | [] => []
  | b :: rest => if b = 34 ∨ b = 92 ∨ b = 47 then 92 :: b :: escape rest else b :: escape rest

/-- The rest of a JSON string after its opening quote, and what follows it; the
flag says that a backslash has just been read. -/
def parseString : Bool → LuaString → Option (LuaString × LuaString)
  | _, [] => none
  | true, b :: rest => (parseString false rest).map fun p => (b :: p.1, p.2)
  | false, b :: rest =>
    if b = 34 then some ([], rest)
    else if b = 92 then parseString true rest
    else (parseString false rest).map fun p => (b :: p.1, p.2)

theorem parseString_escape (s rest : LuaString) :
    parseString false (escape s ++ 34 :: rest) = some (s, rest) := by
  induction s with
  | nil => simp [escape, parseString]
  | cons b s ih =>
    by_cases hb : b = 34 ∨ b = 92 ∨ b = 47
    · rw [escape, if_pos hb, List.cons_append, List.cons_append, parseString, if_neg (by decide),
        if_pos rfl, parseString, ih]
      rfl
    · rw [escape, if_neg hb, List.cons_append, parseString]
      rw [not_or, not_or] at hb
      rw [if_neg hb.1, if_neg hb.2.1, ih]
      rfl

/-- The values that occur in a record: strings, and the schema number. -/
def scalarText : LuaScalar → LuaString
  | .string s => 34 :: escape s ++ [34]
  | .number n => decimal n.toNat
  | .other => lua "null"

def isDigit (b : UInt8) : Bool := 48 ≤ b && b ≤ 57

def parseScalar : LuaString → Option (LuaScalar × LuaString)
  | [] => none
  | b :: rest =>
    if b = 34 then (parseString false rest).map fun p => (.string p.1, p.2)
    else if isDigit b then
      some (.number (digitsValue (b :: rest.takeWhile isDigit)), rest.dropWhile isDigit)
    else none

/-- A value that the reader inverts. -/
def LuaScalar.Plain : LuaScalar → Prop
  | .string _ => True
  | .number n => n = 1
  | .other => False

theorem parseScalar_scalarText {v : LuaScalar} (hv : v.Plain) {c : UInt8} (hc : isDigit c = false)
    (rest : LuaString) : parseScalar (scalarText v ++ c :: rest) = some (v, c :: rest) := by
  cases v with
  | string s =>
    simp only [scalarText, List.cons_append, List.append_assoc, List.nil_append, parseScalar,
      if_true, parseString_escape, Option.map_some]
  | number n =>
    obtain rfl : n = 1 := hv
    have h1 : scalarText (.number 1) = [49] := by decide
    rw [h1, List.cons_append, List.nil_append, parseScalar, if_neg (by decide), if_pos (by decide),
      List.takeWhile_cons_of_neg (by simp [hc]), List.dropWhile_cons_of_neg (by simp [hc])]
    rfl
  | other => exact hv.elim

/-- `"key":value` -/
def fieldText (f : LuaString × LuaScalar) : LuaString :=
  34 :: escape f.1 ++ 34 :: 58 :: scalarText f.2

/-- The fields separated by commas, and the closing brace. -/
def renderFields : List (LuaString × LuaScalar) → LuaString
  | [] => [125]
  | [f] => fieldText f ++ [125]
  | f :: fs => fieldText f ++ 44 :: renderFields fs

/-- The fields of an object after its opening brace; each round uses fuel. -/
def parseFields : ℕ → LuaString → Option (List (LuaString × LuaScalar))
  | 0, _ => none
  | fuel + 1, s =>
    match s with
    | 34 :: s =>
      (parseString false s).bind fun k =>
        match k.2 with
        | 58 :: s =>
          (parseScalar s).bind fun v =>
            match v.2 with
            | [125] => some [(k.1, v.1)]
            | 44 :: s => (parseFields fuel s).map ((k.1, v.1) :: ·)
            | _ => none
        | _ => none
    | _ => none

theorem parseFields_render : ∀ (fs : List (LuaString × LuaScalar)) (fuel : ℕ), fs ≠ [] →
    fs.length ≤ fuel → (∀ f ∈ fs, f.2.Plain) → parseFields fuel (renderFields fs) = some fs
  | [], _, h, _, _ => absurd rfl h
  | [f], fuel, _, hfuel, hplain => by
    obtain ⟨fuel, rfl⟩ : ∃ n, fuel = n + 1 := ⟨fuel - 1, by simp at hfuel; omega⟩
    simp only [renderFields, fieldText, List.cons_append, List.append_assoc, parseFields,
      parseString_escape, Option.bind_some,
      parseScalar_scalarText (hplain f (by simp)) (show isDigit 125 = false by decide)]
  | f :: g :: fs, fuel, _, hfuel, hplain => by
    obtain ⟨fuel, rfl⟩ : ∃ n, fuel = n + 1 := ⟨fuel - 1, by simp at hfuel; omega⟩
    have ih := parseFields_render (g :: fs) fuel (by simp) (by simp at hfuel ⊢; omega)
      fun x hx => hplain x (by simp at hx ⊢; tauto)
    simp only [renderFields, fieldText, List.cons_append, List.append_assoc, parseFields,
      parseString_escape, Option.bind_some,
      parseScalar_scalarText (hplain f (by simp)) (show isDigit 44 = false by decide), ih,
      Option.map_some]

/-- The table with the given fields. -/
def LuaTable.ofFields (fs : List (LuaString × LuaScalar)) : LuaTable where
  keys := (fs.map Prod.fst).toFinset
  get k := (fs.find? fun f => f.1 = k).map Prod.snd
  mem_keys k := by
    simp [List.find?_isSome]

/-- The order in which the reference writes the fields. -/
def fieldOrder : List LuaString :=
  [lua "schema", lua "fingerprint", lua "durableId", lua "owner", lua "state",
    lua "leaseUntilMs", lua "retainUntilMs", lua "resultRef"]

/-- `cjson.encode` on tables whose keys are those of a record. -/
def referenceEncode (t : LuaTable) : LuaString :=
  123 :: renderFields (fieldOrder.filterMap fun k => (t.get k).map (k, ·))

/-- `cjson.decode` on flat objects. -/
def referenceDecode (raw : LuaString) : Option LuaTable :=
  match raw with
  | 123 :: rest => (parseFields rest.length rest).map LuaTable.ofFields
  | _ => none

/-- The fields of a record in writing order. -/
def Record.fields (r : Record) : List (LuaString × LuaScalar) :=
  [(lua "schema", .number 1), (lua "fingerprint", .string r.fingerprint),
    (lua "durableId", .string r.durableId), (lua "owner", .string r.owner),
    (lua "state", .string r.state.text), (lua "leaseUntilMs", .string (decimal r.leaseUntilMs)),
    (lua "retainUntilMs", .string (decimal r.retainUntilMs)), (lua "resultRef", .string r.resultRef)]

theorem referenceEncode_toTable (r : Record) :
    referenceEncode r.toTable = 123 :: renderFields r.fields := rfl

theorem LuaTable.get_ofFields_cons (a k : LuaString) (v : LuaScalar)
    (fs : List (LuaString × LuaScalar)) :
    (LuaTable.ofFields ((a, v) :: fs)).get k =
      if k = a then some v else (LuaTable.ofFields fs).get k := by
  by_cases h : k = a
  · simp [LuaTable.ofFields, h]
  · simp [LuaTable.ofFields, h, Ne.symm h]

theorem ofFields_fields (r : Record) : LuaTable.ofFields r.fields = r.toTable := by
  ext1
  · rfl
  · funext k
    simp only [Record.fields, LuaTable.get_ofFields_cons]
    rfl

theorem length_le_length_renderFields :
    ∀ fs : List (LuaString × LuaScalar), fs.length ≤ (renderFields fs).length
  | [] => by simp [renderFields]
  | [f] => by simp [renderFields]
  | f :: g :: fs => by
    have ih := length_le_length_renderFields (g :: fs)
    simp only [renderFields, List.length_append, List.length_cons] at ih ⊢
    omega

/-- The runtime of the concrete runs. -/
def referenceLua : Lua where
  tonumber s := if s = [48] ∨ isCanonicalDecimal s then some (digitsValue s : ℤ) else none
  encode := referenceEncode
  decode := referenceDecode
  tonumber_decimal := by
    intro n _
    rw [digitsValue_decimal, if_pos]
    rcases Nat.eq_zero_or_pos n with rfl | hn
    · exact .inl rfl
    · exact .inr (isCanonicalDecimal_decimal hn)
  decode_encode := by
    intro r _
    rw [referenceEncode_toTable, referenceDecode,
      parseFields_render r.fields _ (by simp [Record.fields]) (length_le_length_renderFields _),
      Option.map_some, ofFields_fields]
    intro f hf
    simp only [Record.fields, List.mem_cons, List.not_mem_nil, or_false] at hf
    rcases hf with rfl | rfl | rfl | rfl | rfl | rfl | rfl | rfl <;> trivial

end Transactions
