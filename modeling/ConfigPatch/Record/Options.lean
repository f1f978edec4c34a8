import ConfigPatch.Json.Printer
import ConfigPatch.Json.Reader
import ConfigPatch.Options

/-!
# Records in JSON, and the options as one

A record is written as an object with its fields by name, or as an array
with its fields in order. Names other than those of its fields are passed
over, and nothing is asked of their values. A field that is given twice is
an error.

The options are such a record. Fields that are not given keep their usual
values.
-/

namespace ConfigPatch

open Json

/-! ## Fields -/

namespace Record

/-- The entries of an object with their keys as strings. -/
def keyed? (entries : List (List Glyph × Node)) : Option (List (String × Node)) :=
  entries.mapM fun (glyphs, node) => (stringOf? glyphs).map (·, node)

/-- The value of a name that has at most one. -/
def field? (entries : List (String × Node)) (name : String) : Option (Option Node) :=
  match entries.filter fun entry => entry.1 == name with
  | [] => some none
  | [entry] => some (some entry.2)
  | _ => none

/-- **The fields of a record**, by their names: for every name the node
given for it, if any. An array may be shorter than the list of names, and
not longer. -/
def fields? (names : List String) : Node → Option (List (Option Node))
  | .object entries => do
    let entries ← keyed? entries
    names.mapM (field? entries)
  | .array items =>
    if names.length < items.length then none
    else some (items.map some ++ List.replicate (names.length - items.length) none)
  | _ => none

/-- The fields of a record all of which are given. -/
def allFields? (names : List String) (node : Node) : Option (List Node) := do
  (← fields? names node).mapM id

/-- Whether an object has no names but the given ones. -/
def isClosed (names : List String) : Node → Bool
  | .object entries =>
    (keyed? entries).any fun entries => entries.all fun entry => names.contains entry.1
  | _ => true

/-- The one entry of an object that has a single one. -/
def variant? : Node → Option (String × Node)
  | .object [(glyphs, node)] => (stringOf? glyphs).map (·, node)
  | _ => none

/-- A string. -/
def string? : Node → Option String
  | .text glyphs => stringOf? glyphs
  | _ => none

/-- A natural number of at most 64 bits, written as an integer. -/
def word? : Node → Option Nat
  | .numeral n =>
    match n.toNumber? with
    | some (.int (.ofNat n)) => if n < 1 <<< 64 then some n else none
    | _ => none
  | _ => none

end Record

/-! ## Options -/

open Record

/-- Reads a quote style: its name, or an object with its name and null. -/
def Quotes.ofNode? (node : Node) : Option Quotes := do
  let name ← match node with
    | .text glyphs => stringOf? glyphs
    | node => match ← variant? node with
      | (name, .null) => some name
      | _ => none
  if name = Quotes.double.name then some .double
  else if name = Quotes.single.name then some .single
  else none

/-- **Reads options.** -/
def Options.ofNode? (node : Node) : Option Options := do
  match ← fields? ["quote", "factory"] node with
  | [quote, factory] =>
    let usual : Options := {}
    let quote ← quote.elim (some usual.quote) Quotes.ofNode?
    let factory ← factory.elim (some usual.factory) string?
    return ⟨quote, factory⟩
  | _ => none

/-- The JSON form of options. -/
def Options.toValue (options : Options) : Value :=
  .object [("quote", .string options.quote.name), ("factory", .string options.factory)]

end ConfigPatch
