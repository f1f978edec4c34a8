import ConfigPatch.Json.Token

/-!
# The structure of a JSON text

A node is what a JSON text spells, before anything is asked of the sizes
of its numbers or of the escapes in its strings. The tokens are taken one
by one; the containers that are still open form a stack.
-/

namespace ConfigPatch.Json

/-- What a JSON text spells. Repeated keys are all there. -/
inductive Node where
  | null
  | bool (b : Bool)
  | numeral (n : Numeral)
  | text (glyphs : List Glyph)
  | array (items : List Node)
  | object (entries : List (List Glyph × Node))

/-- A container that is still open: its elements so far, with the last one
first, and for an object the key whose value is being read. -/
inductive Frame where
  | array (items : List Node)
  | object (entries : List (List Glyph × Node)) (key : List Glyph)

/-- What may come next. `mayClose` tells that nothing stands in the
innermost container yet. -/
inductive Expect where
  | value (stack : List Frame) (mayClose : Bool)
  | key (stack : List Frame) (entries : List (List Glyph × Node)) (mayClose : Bool)
  | colon (stack : List Frame) (entries : List (List Glyph × Node)) (key : List Glyph)
  | afterItem (stack : List Frame) (items : List Node)
  | afterEntry (stack : List Frame) (entries : List (List Glyph × Node))
  | nothing (node : Node)

namespace Expect

/-- What may come after a complete value. -/
def after (node : Node) : List Frame → Expect
  | [] => .nothing node
  | .array items :: stack => .afterItem stack (node :: items)
  | .object entries name :: stack => .afterEntry stack ((name, node) :: entries)

/-- Takes the first token of a value. -/
def start (stack : List Frame) : Token → Option Expect
  | .null => some (after .null stack)
  | .bool b => some (after (.bool b) stack)
  | .numeral n => some (after (.numeral n) stack)
  | .text glyphs => some (after (.text glyphs) stack)
  | .openArray => some (.value (.array [] :: stack) true)
  | .openObject => some (.key stack [] true)
  | _ => none

/-- Takes one token. -/
def step : Expect → Token → Option Expect
  | .value (.array items :: stack) true, .closeArray =>
    some (after (.array items.reverse) stack)
  | .value stack _, token => start stack token
  | .key stack entries true, .closeObject =>
    some (after (.object entries.reverse) stack)
  | .key stack entries _, .text name => some (.colon stack entries name)
  | .colon stack entries name, .colon => some (.value (.object entries name :: stack) false)
  | .afterItem stack items, .comma => some (.value (.array items :: stack) false)
  | .afterItem stack items, .closeArray => some (after (.array items.reverse) stack)
  | .afterEntry stack entries, .comma => some (.key stack entries false)
  | .afterEntry stack entries, .closeObject =>
    some (after (.object entries.reverse) stack)
  | _, _ => none

end Expect

/-- The node that a list of tokens spells. -/
def Node.ofTokens? (tokens : List Token) : Option Node := do
  match ← tokens.foldlM Expect.step (.value [] false) with
  | .nothing node => some node
  | _ => none

/-- **The node that a text spells**, if it follows the grammar. -/
def Node.parse? (cs : List Char) : Option Node := do
  Node.ofTokens? (← tokens? cs)

end ConfigPatch.Json
