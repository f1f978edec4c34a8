/-!
# Strings and comments

Source text is read byte by byte. `Mode` is what a byte stands in: code, a
string in one of three quotes, or a comment. The next mode depends on the
byte and on its two neighbours: the byte before tells whether a slash may
open a comment, so that the slashes of `/\/\//` do not, and the byte ahead
tells a slash from the start of a mark. `marks` labels every byte of a
text in this way, and `Mode.extent` counts the bytes until code begins
again. What no mark closes goes on to the end.
-/

namespace ConfigPatch.Lexical

/-! ## Bytes -/

abbrev doubleQuote : UInt8 := 0x22
abbrev singleQuote : UInt8 := 0x27
abbrev backQuote : UInt8 := 0x60
abbrev backslash : UInt8 := 0x5C
abbrev slash : UInt8 := 0x2F
abbrev star : UInt8 := 0x2A
abbrev lineFeed : UInt8 := 0x0A
abbrev comma : UInt8 := 0x2C
abbrev colon : UInt8 := 0x3A

/-- The three quotes. -/
def isQuote (b : UInt8) : Bool :=
  b == doubleQuote || b == singleQuote || b == backQuote

/-- The ASCII blanks: tab, line feed, form feed, carriage return, space. -/
def isSpace (b : UInt8) : Bool :=
  b == 0x09 || b == lineFeed || b == 0x0C || b == 0x0D || b == 0x20

/-- Brackets, and `;`, `,`, `:` and `=`. -/
def isPunctuation (b : UInt8) : Bool :=
  [0x7B, 0x7D, 0x5B, 0x5D, 0x28, 0x29, 0x3B, comma, colon, 0x3D].contains b

/-- Whether a comment may follow: at the start of a text, after a blank,
and after punctuation. -/
def admitsComment : Option UInt8 → Bool
  | none => true
  | some b => isSpace b || isPunctuation b

/-! ## Modes -/

/-- What the next byte stands in. -/
inductive Mode where
  | code
  /-- A string that the quote closes. -/
  | quoted (quote : UInt8)
  /-- A string, right after a backslash. -/
  | escaped (quote : UInt8)
  /-- A comment up to the end of the line. -/
  | line
  /-- The star of the mark that opens a block comment. -/
  | blockOpen
  | block
  /-- The slash of the mark that closes a block comment. -/
  | blockClose
deriving DecidableEq

/-- What a byte belongs to. -/
inductive Kind where
  | code
  | text
  | comment
deriving DecidableEq

namespace Mode

/-- What bytes in this mode belong to. -/
def kind : Mode → Kind
  | .code => .code
  | .quoted _ | .escaped _ => .text
  | .line | .blockOpen | .block | .blockClose => .comment

/-- The mode after a slash in code, given the byte ahead. -/
def afterSlash (ahead : Option UInt8) : Mode :=
  if ahead = some slash then .line
  else if ahead = some star then .blockOpen
  else .code

/-- The mode after a byte, given its two neighbours. -/
def next (before : Option UInt8) (b : UInt8) (ahead : Option UInt8) : Mode → Mode
  | .code =>
    if isQuote b then .quoted b
    else if b = slash ∧ admitsComment before then afterSlash ahead
    else .code
  | .quoted quote =>
    if b = backslash then .escaped quote
    else if b = quote then .code
    else .quoted quote
  | .escaped quote => .quoted quote
  | .line => if ahead = some lineFeed then .code else .line
  | .blockOpen => .block
  | .block => if b = star ∧ ahead = some slash then .blockClose else .block
  | .blockClose => .code

/-- The number of bytes until the mode is code again. -/
def extent : Mode → List UInt8 → Nat
  | _, [] => 0
  | m, b :: bs => if m = .code then 0 else extent (m.next none b bs.head?) bs + 1

end Mode

/-! ## Labelled text -/

/-- A byte and what it belongs to. -/
structure Mark where
  byte : UInt8
  kind : Kind
deriving DecidableEq

/-- The label of a byte between two modes: a byte that opens a string or a
comment belongs to it, like the one that closes it. -/
def kindBetween (m after : Mode) : Kind :=
  if m = .code then after.kind else m.kind

/-- The bytes of a text with their labels, read from a mode on. -/
def marks (m : Mode) (before : Option UInt8) : List UInt8 → List Mark
  | [] => []
  | b :: bs =>
    let after := m.next before b bs.head?
    ⟨b, kindBetween m after⟩ :: marks after (some b) bs

/-- The byte before an offset. -/
def byteBefore (bytes : List UInt8) (offset : Nat) : Option UInt8 :=
  if offset = 0 then none else bytes[offset - 1]?

/-- The labels of the bytes from an offset on, which stands in code. -/
def marksFrom (bytes : List UInt8) (offset : Nat) : List Mark :=
  marks .code (byteBefore bytes offset) (bytes.drop offset)

theorem map_byte_marks (m : Mode) (before : Option UInt8) (bytes : List UInt8) :
    (marks m before bytes).map Mark.byte = bytes := by
  induction bytes generalizing m before with
  | nil => rfl
  | cons b bs ih => simp [marks, ih]

theorem length_marks (m : Mode) (before : Option UInt8) (bytes : List UInt8) :
    (marks m before bytes).length = bytes.length := by
  rw [← congrArg List.length (map_byte_marks m before bytes), List.length_map]

/-! ## Skipping -/

/-- **The end of the string or comment** that starts at an offset, if one
starts there. -/
def opaqueEnd? (bytes : List UInt8) (offset : Nat) : Option Nat :=
  match bytes.drop offset with
  | [] => none
  | b :: rest =>
    let m := Mode.next (byteBefore bytes offset) b rest.head? .code
    if m = .code then none else some (offset + 1 + m.extent rest)

/-- The end of the blanks and comments in the bytes that stand from an
offset on. Here a comment may follow anything. -/
def triviaEndFrom (m : Mode) (offset limit : Nat) : List UInt8 → Nat
  | [] => min offset limit
  | b :: bs =>
    if limit ≤ offset then limit
    else if m ≠ .code then
      triviaEndFrom (m.next none b bs.head?) (offset + 1) limit bs
    else if isSpace b then triviaEndFrom .code (offset + 1) limit bs
    else
      let after := Mode.afterSlash bs.head?
      if b = slash ∧ after ≠ .code then triviaEndFrom after (offset + 1) limit bs
      else offset

/-- **The end of the blanks and comments** from an offset on, and at most
the limit. -/
def triviaEnd (bytes : List UInt8) (offset limit : Nat) : Nat :=
  triviaEndFrom .code offset limit (bytes.drop offset)

/-- The end of the blanks and comments, where it is found before the bytes
run out. -/
def triviaEnd? (bytes : List UInt8) (offset limit : Nat) : Option Nat :=
  let stop := triviaEnd bytes offset limit
  if stop < limit ∧ bytes.length ≤ stop then none else some stop

end ConfigPatch.Lexical
