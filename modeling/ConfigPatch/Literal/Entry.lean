import ConfigPatch.Lexical.Bracket
import ConfigPatch.Text.Character
import ConfigPatch.Text.Utf8

/-!
# Entries of a mapping

An item of a mapping that has an address is a key, a colon and a value.
The key is a string in double or single quotes, taken as it is written, or
a name. Shorthands, spreads, methods and computed keys have no address.
-/

namespace ConfigPatch.Literal

open Lexical

/-- A key and the span from the first byte of its value to the end of the
item. -/
structure Entry where
  key : String
  value : Span
deriving DecidableEq

namespace Entry

/-- The key of an item whose first byte is given, and the offset past
it. -/
def readKey? (s : String) (item : Span) (first : UInt8) :
    Except Failure (Option (String × Nat)) :=
  if first = doubleQuote ∨ first = singleQuote then
    let stop := min ((opaqueEnd? (Text.bytes s) item.start).getD item.stop) item.stop
    if stop < item.start + 2 then .ok none
    else do
      let key ← Failure.ofCut (Text.slice? s (item.start + 1) (stop - 1))
      return some (key, stop)
  else do
    let whole ← Failure.ofCut (Text.slice? s item.start item.stop)
    let key := whole.toList.takeWhile Text.isWordChar
    return if key.isEmpty then none
      else some (String.ofList key, item.start + (Text.utf8 key).length)

/-- The span of the value, where a colon follows the key. -/
def valueAfter? (bytes : List UInt8) (keyEnd stop : Nat) : Option Span :=
  let mark := triviaEnd bytes keyEnd stop
  if mark < stop ∧ bytes[mark]? = some colon then
    let start := triviaEnd bytes (mark + 1) stop
    if start < stop then some ⟨start, stop⟩ else none
  else none

/-- **Reads an item** as an entry, if it has an address. -/
def read? (s : String) (item : Span) : Except Failure (Option Entry) :=
  match (Text.bytes s)[item.start]? with
  | none => .ok none
  | some first => do
    match ← readKey? s item first with
    | none => return none
    | some (key, keyEnd) =>
      return (valueAfter? (Text.bytes s) keyEnd item.stop).map (⟨key, ·⟩)

end Entry

end ConfigPatch.Literal
