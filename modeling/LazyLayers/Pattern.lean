/-
Cache key patterns.

`matchesPattern` cuts the pattern at its asterisks and looks for the pieces one
after the other, the first and the last anchored at the ends of the value.  The
pieces in between are found by a Knuth-Morris-Pratt search, whose failure table
is built once for each piece.
-/
import LazyLayers.JsString

open Js

namespace Pattern

def asterisk : UInt16 := 42

def isLineTerminator (code : UInt16) : Bool :=
  code = 10 || code = 13 || code = 0x2028 || code = 0x2029

def hasLineTerminator (value : JsString) (start stop : ℕ) : Bool :=
  ((value.drop start).take (stop - start)).any isLineTerminator

/-- `while (matched > 0 && unit !== literal[matched]) matched = failure[matched - 1]`.
The table only ever leads to a shorter match, so `matched` rounds are enough. -/
def fallback (literal : JsString) (failure : List ℕ) (unit : UInt16) : ℕ → ℕ → ℕ
  | 0, matched => matched
  | rounds + 1, matched =>
    if 0 < matched ∧ literal[matched]? ≠ some unit then
      fallback literal failure unit rounds (failure.getD (matched - 1) 0)
    else matched

/-- One unit of the search: fall back, then extend the match if the unit fits. -/
def extend (literal : JsString) (failure : List ℕ) (matched : ℕ) (unit : UInt16) : ℕ :=
  let matched := fallback literal failure unit matched matched
  if literal[matched]? = some unit then matched + 1 else matched

def failureTable (literal : JsString) : List ℕ :=
  (literal.drop 1).foldl (fun failure unit =>
    failure ++ [extend literal failure (failure.getLast?.getD 0) unit]) [0]

/-- The scan of `findLiteral` over the rest of its window. -/
def scan (literal : JsString) (failure : List ℕ) : JsString → ℕ → ℕ → Option ℕ
  | [], _, _ => none
  | unit :: rest, index, matched =>
    let matched := extend literal failure matched unit
    if matched = literal.length then some (index + 1 - literal.length)
    else scan literal failure rest (index + 1) matched

/-- The first occurrence of `literal` in `value[start, stop)`. -/
def findLiteral (value literal : JsString) (start stop : ℕ) : Option ℕ :=
  scan literal (failureTable literal) ((value.drop start).take (stop - start)) start 0

/-- The pieces between the anchored ones. -/
def matchMiddle (value : JsString) (stop : ℕ) : List JsString → ℕ → Option ℕ
  | [], position => some position
  | literal :: parts, position =>
    if literal = [] then matchMiddle value stop parts position
    else match findLiteral value literal position stop with
      | none => none
      | some found =>
        if hasLineTerminator value position found then none
        else matchMiddle value stop parts (found + literal.length)

def matchesPattern (value pattern : JsString) : Bool :=
  if pattern = [asterisk] then true
  else if asterisk ∉ pattern then value = pattern
  else
    let parts := pattern.splitOn asterisk
    let first := parts.headD []
    let last := parts.getLastD []
    if !first.isPrefixOf value || !last.isSuffixOf value then false
    else
      let stop := value.length - last.length
      if stop < first.length then false
      else match matchMiddle value stop (parts.drop 1).dropLast first.length with
        | none => false
        | some position => !hasLineTerminator value position stop

@[simp] theorem matchesPattern_asterisk (value : JsString) :
    matchesPattern value [asterisk] = true := by
  rw [matchesPattern, if_pos rfl]

example : matchesPattern (str "user:17:posts") (str "user:*:p*s") = true := by decide +kernel

example : matchesPattern (str "ababac") (str "*abac*") = true := by decide +kernel

example : matchesPattern (str "aba") (str "ab*ba") = false := by decide +kernel

end Pattern
