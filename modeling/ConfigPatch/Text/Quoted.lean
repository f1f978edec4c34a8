import ConfigPatch.Error

/-!
# Quoted strings

A string literal is the text between two quotes of one style. A backslash
stands before what could not stand for itself: the quote, the backslash,
and the two line ends, which are written as letters. `decode` reads the
inside of such a literal back.
-/

namespace ConfigPatch

/-- The quotes in which a text may be written. -/
inductive Quotes where
  | double
  | single
deriving DecidableEq

namespace Quotes

/-- The quote itself. -/
def char : Quotes → Char
  | .double => '"'
  | .single => '\''

/-- The name of the style. -/
def name : Quotes → String
  | .double => "double"
  | .single => "single"

/-- **Reads a style**: its name in any case, or the quote itself. -/
def ofString (s : String) : Except Error Quotes :=
  let lower := s.toList.map Char.toLower
  if lower = ['d', 'o', 'u', 'b', 'l', 'e'] ∨ lower = ['"'] then .ok .double
  else if lower = ['s', 'i', 'n', 'g', 'l', 'e'] ∨ lower = ['\''] then .ok .single
  else .error (.unknownQuote s)

end Quotes

namespace Text

/-- How a character is written inside a string literal. -/
def escape (quote c : Char) : List Char :=
  if c = '\\' then ['\\', '\\']
  else if c = '\n' then ['\\', 'n']
  else if c = '\r' then ['\\', 'r']
  else if c = quote then ['\\', quote]
  else [c]

/-- **The string literal of a text.** -/
def quoted (style : Quotes) (cs : List Char) : List Char :=
  style.char :: (cs.flatMap (escape style.char) ++ [style.char])

/-- The character that stands for another after a backslash. -/
def unescape (c : Char) : Char :=
  if c = 'n' then '\n' else if c = 'r' then '\r' else c

/-- Reads the inside of a string literal. -/
def decode : List Char → List Char
  | [] => []
  | '\\' :: c :: cs => unescape c :: decode cs
  | c :: cs => c :: decode cs

end Text

end ConfigPatch
