import ConfigPatch.Json.Numeral

/-!
# Writing values

The compact JSON text of a value: no blanks, entries in their order, and
in strings only those characters escaped that cannot stand for
themselves.
-/

namespace ConfigPatch.Json

/-- The lower-case hexadecimal digit of a number below sixteen. -/
def hexDigit (n : Nat) : Char := Nat.digitChar n

/-- A character inside a string. -/
def charText (c : Char) : List Char :=
  if c = '"' then ['\\', '"']
  else if c = '\\' then ['\\', '\\']
  else if c = '\x08' then ['\\', 'b']
  else if c = '\x0c' then ['\\', 'f']
  else if c = '\n' then ['\\', 'n']
  else if c = '\r' then ['\\', 'r']
  else if c = '\t' then ['\\', 't']
  else if c.toNat < 0x20 then
    ['\\', 'u', '0', '0', hexDigit (c.toNat / 16), hexDigit (c.toNat % 16)]
  else [c]

/-- A string in its quotes. -/
def stringText (s : String) : List Char :=
  '"' :: (s.toList.flatMap charText ++ ['"'])

mutual

/-- **The compact text of a value.** -/
def text : Value → List Char
  | .null => ['n', 'u', 'l', 'l']
  | .bool true => ['t', 'r', 'u', 'e']
  | .bool false => ['f', 'a', 'l', 's', 'e']
  | .number n => numberText n
  | .string s => stringText s
  | .array items => '[' :: (itemsText items ++ [']'])
  | .object entries => '\x7b' :: (entriesText entries ++ ['\x7d'])

/-- The texts of the elements, with commas between them. -/
def itemsText : List Value → List Char
  | [] => []
  | [item] => text item
  | item :: next :: rest => text item ++ ',' :: itemsText (next :: rest)

/-- The texts of the entries, with commas between them. -/
def entriesText : List (String × Value) → List Char
  | [] => []
  | [(key, value)] => stringText key ++ ':' :: text value
  | (key, value) :: next :: rest =>
    stringText key ++ ':' :: (text value ++ ',' :: entriesText (next :: rest))

end

end ConfigPatch.Json
