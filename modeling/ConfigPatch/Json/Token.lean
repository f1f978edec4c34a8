import ConfigPatch.Json.Numeral

/-!
# Tokens of a JSON text

The text is read character by character. A string is kept as its glyphs:
characters, and the UTF-16 units of escapes, which are put together only
where the string is used. Everything between blanks and punctuation that
is no string is a run, and a run is a numeral or one of three words.
-/

namespace ConfigPatch.Json

/-- A part of a string: a character, or the unit of a `\u` escape. -/
inductive Glyph where
  | char (c : Char)
  | unit (n : Nat)
deriving DecidableEq

/-- A token. -/
inductive Token where
  | openArray
  | closeArray
  | openObject
  | closeObject
  | comma
  | colon
  | null
  | bool (b : Bool)
  | numeral (n : Numeral)
  | text (glyphs : List Glyph)
deriving DecidableEq

/-- The characters a sequence of glyphs stands for. Units from the
surrogate range count only in pairs. -/
def decodeGlyphs? : List Glyph → Option (List Char)
  | [] => some []
  | .char c :: rest => (decodeGlyphs? rest).map (c :: ·)
  | [.unit n] => if n < 0xD800 ∨ 0xE000 ≤ n then some [Char.ofNat n] else none
  | .unit n :: .char c :: rest =>
    if n < 0xD800 ∨ 0xE000 ≤ n then
      (decodeGlyphs? rest).map fun cs => Char.ofNat n :: c :: cs
    else none
  | .unit n :: .unit m :: rest =>
    if n < 0xD800 ∨ 0xE000 ≤ n then
      (decodeGlyphs? (.unit m :: rest)).map (Char.ofNat n :: ·)
    else if n < 0xDC00 ∧ 0xDC00 ≤ m ∧ m < 0xE000 then
      (decodeGlyphs? rest).map
        (Char.ofNat (0x10000 + (n - 0xD800) * 0x400 + (m - 0xDC00)) :: ·)
    else none

/-- What the character after a backslash stands for; `u` is not among
them. -/
def escaped? : Char → Option Char
  | '"' => some '"'
  | '\\' => some '\\'
  | '/' => some '/'
  | 'b' => some '\x08'
  | 'f' => some '\x0c'
  | 'n' => some '\n'
  | 'r' => some '\r'
  | 't' => some '\t'
  | _ => none

/-- The value of a hexadecimal digit. -/
def hexValue? (c : Char) : Option Nat :=
  if c.isDigit then some (c.toNat - '0'.toNat)
  else if 'a' ≤ c ∧ c ≤ 'f' then some (c.toNat - 'a'.toNat + 10)
  else if 'A' ≤ c ∧ c ≤ 'F' then some (c.toNat - 'A'.toNat + 10)
  else none

namespace Token

/-- The tokens of one character. -/
def ofPunctuation? : Char → Option Token
  | '[' => some .openArray
  | ']' => some .closeArray
  | '\x7b' => some .openObject
  | '\x7d' => some .closeObject
  | ',' => some .comma
  | ':' => some .colon
  | _ => none

/-- The token of a run. -/
def ofRun? (cs : List Char) : Option Token :=
  if cs = ['n', 'u', 'l', 'l'] then some .null
  else if cs = ['t', 'r', 'u', 'e'] then some (.bool true)
  else if cs = ['f', 'a', 'l', 's', 'e'] then some (.bool false)
  else (Numeral.ofChars? cs).map .numeral

end Token

/-- Where the reading of tokens stands. Glyphs and runs are collected with
the last one first. -/
inductive Cursor where
  | between
  | inText (glyphs : List Glyph)
  | inEscape (glyphs : List Glyph)
  | inUnit (glyphs : List Glyph) (count value : Nat)
  | inRun (cs : List Char)

namespace Cursor

/-- The characters of runs. -/
def isRunChar (c : Char) : Bool :=
  c.isAlphanum || c == '+' || c == '-' || c == '.'

/-- Blanks between tokens. -/
def isSpace (c : Char) : Bool :=
  c == ' ' || c == '\t' || c == '\n' || c == '\r'

/-- Takes a character between two tokens. -/
def start (tokens : List Token) (c : Char) : Option (List Token × Cursor) :=
  if isSpace c then some (tokens, .between)
  else if c = '"' then some (tokens, .inText [])
  else if isRunChar c then some (tokens, .inRun [c])
  else (Token.ofPunctuation? c).map fun token => (token :: tokens, .between)

/-- Takes one character; the tokens are collected with the last one
first. -/
def step (tokens : List Token) : Cursor → Char → Option (List Token × Cursor)
  | .between, c => start tokens c
  | .inText glyphs, c =>
    if c = '"' then some (.text glyphs.reverse :: tokens, .between)
    else if c = '\\' then some (tokens, .inEscape glyphs)
    else if c.toNat < 0x20 then none
    else some (tokens, .inText (.char c :: glyphs))
  | .inEscape glyphs, c =>
    if c = 'u' then some (tokens, .inUnit glyphs 0 0)
    else (escaped? c).map fun d => (tokens, .inText (.char d :: glyphs))
  | .inUnit glyphs count value, c =>
    (hexValue? c).map fun d =>
      let value := 16 * value + d
      if count = 3 then (tokens, .inText (.unit value :: glyphs))
      else (tokens, .inUnit glyphs (count + 1) value)
  | .inRun cs, c =>
    if isRunChar c then some (tokens, .inRun (c :: cs))
    else do start ((← Token.ofRun? cs.reverse) :: tokens) c

/-- Takes all characters of a text. -/
def run (tokens : List Token) (cursor : Cursor) : List Char → Option (List Token)
  | [] => match cursor with
    | .between => some tokens.reverse
    | .inRun cs => (Token.ofRun? cs.reverse).map fun token => (token :: tokens).reverse
    | _ => none
  | c :: cs => do
    let (tokens, cursor) ← cursor.step tokens c
    run tokens cursor cs

end Cursor

/-- **The tokens of a text.** -/
def tokens? (cs : List Char) : Option (List Token) :=
  Cursor.run [] .between cs

end ConfigPatch.Json
