import ConfigPatch.Json.Node

/-!
# Reading values

A node is a value if its numbers have a finite size, its escapes stand
for characters, and no more than 127 containers lie in one another. A
repeated key keeps its first place and its last value.
-/

namespace ConfigPatch.Json

/-- The string that a sequence of glyphs stands for. -/
def stringOf? (glyphs : List Glyph) : Option String :=
  (decodeGlyphs? glyphs).map String.ofList

mutual

/-- The value of a node with room for so many containers in one
another. -/
def Node.toValue? (room : Nat) : Node → Option Value
  | .null => some .null
  | .bool b => some (.bool b)
  | .numeral n => n.toNumber?.map .number
  | .text glyphs => (stringOf? glyphs).map .string
  | .array items =>
    if room = 0 then none else (itemValues? (room - 1) items).map .array
  | .object entries =>
    if room = 0 then none else (entryValues? (room - 1) [] entries).map .object

/-- The values of the nodes of an array. -/
def itemValues? (room : Nat) : List Node → Option (List Value)
  | [] => some []
  | node :: rest => do
    let value ← Node.toValue? room node
    let values ← itemValues? room rest
    return value :: values

/-- Puts the values of the nodes of an object behind given entries. -/
def entryValues? (room : Nat) (before : Entries) :
    List (List Glyph × Node) → Option Entries
  | [] => some before
  | (glyphs, node) :: rest => do
    let key ← stringOf? glyphs
    let value ← Node.toValue? room node
    entryValues? room (before.insert key value) rest

end

/-- The most containers that may lie in one another. -/
def maxDepth : Nat := 127

/-- **Reads a value.** -/
def parse? (cs : List Char) : Option Value := do
  (← Node.parse? cs).toValue? maxDepth

end ConfigPatch.Json
