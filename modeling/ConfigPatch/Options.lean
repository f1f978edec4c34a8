import ConfigPatch.Json.Printer
import ConfigPatch.Text.Character
import ConfigPatch.Text.Quoted

/-!
# Options, and the source text of a value

The options say how the exported literal is found in a file and how new
values are written into it. A value to be written comes as text. Text that
is source already is written as it is; every other text is written as a
string literal in the quotes of the options.
-/

namespace ConfigPatch

/-- The quotes of new strings, and the name of the function whose call may
wrap the exported literal. -/
structure Options where
  quote : Quotes := .double
  factory : String := "defineConfig"
deriving DecidableEq

namespace Literal

/-- Whether a text begins and ends with the same quote. -/
def hasQuotes : List Char → Bool
  | [] => false
  | c :: cs => (c == '"' || c == '\'' || c == '\x60') && cs.getLast? == some c

/-- Whether a text has an arrow in it. -/
def hasArrow : List Char → Bool
  | [] => false
  | c :: cs => (c == '=' && cs.head? == some '>') || hasArrow cs

/-- Whether a text is source already: a quoted string, a mapping, a
sequence, or a function. -/
def isSource (cs : List Char) : Bool :=
  let trimmed := Text.trim cs
  hasQuotes trimmed || trimmed.head? == some '\x7b' || trimmed.head? == some '[' ||
    hasArrow trimmed ||
    ['f', 'u', 'n', 'c', 't', 'i', 'o', 'n'].isPrefixOf trimmed

/-- **The source text of a value given as text.** -/
def ofText (quote : Quotes) (s : String) : String :=
  if isSource s.toList then s else String.ofList (Text.quoted quote s.toList)

/-- **The source text of a value.** Strings are taken as text, everything
else is written in JSON. -/
def ofValue (quote : Quotes) : Value → String
  | .string s => ofText quote s
  | v => String.ofList (Json.text v)

end Literal

end ConfigPatch
