import ConfigPatch.Text.Character
import ConfigPatch.Text.Utf8

/-!
# Export statements

A configuration file exports its value in a line that starts, blanks
aside, with `export default` or with `module.exports =`; what follows may
be the call of a function. `statements` lists these lines. A line that
begins inside of an earlier statement, in the blanks or the call after its
words, is not listed.
-/

namespace ConfigPatch.Literal

/-- The two ways to export a value. -/
inductive Convention where
  | exportDefault
  | moduleExports
deriving DecidableEq

/-- An export statement. Offsets are in bytes. -/
structure Statement where
  convention : Convention
  /-- Where its words start. -/
  start : Nat
  /-- Past its words. -/
  stop : Nat
  /-- The function called, and the offset past the opening parenthesis. -/
  call : Option (String × Nat)
deriving DecidableEq

/-- The rest of a text after a given start. -/
def afterWord? (word : String) (cs : List Char) : Option (List Char) :=
  if word.toList.isPrefixOf cs then some (cs.drop word.length) else none

/-- The words of a statement: what follows them, and how the value is
exported. -/
def readWords? (cs : List Char) : Option (Convention × List Char) :=
  match afterWord? "export" cs with
  | some rest =>
    match rest.span Text.isBlank with
    | ([], _) => none
    | (_, rest) => (afterWord? "default" rest).map (.exportDefault, ·)
  | none => do
    let rest ← afterWord? "module.exports" cs
    let rest ← afterWord? "=" (rest.dropWhile Text.isBlank)
    return (.moduleExports, rest)

/-- The characters of the name of a function; a digit is not the first. -/
def isNameChar (c : Char) : Bool :=
  c.isAlphanum || c == '_' || c == '$'

/-- The call of a function at the start of a text: its name, and what
follows the opening parenthesis. -/
def readCall? (cs : List Char) : Option (String × List Char) :=
  match cs.span isNameChar with
  | ([], _) => none
  | (c :: name, rest) =>
    if c.isDigit then none
    else match rest.dropWhile Text.isBlank with
      | '(' :: rest => some (String.ofList (c :: name), rest)
      | _ => none

/-- The number of bytes by which the second text is shorter. -/
def bytesBetween (cs rest : List Char) : Nat :=
  (Text.utf8 cs).length - (Text.utf8 rest).length

/-- The statement at the start of a line that begins at an offset, and how
many characters it takes. -/
def readStatement? (offset : Nat) (cs : List Char) : Option (Statement × Nat) := do
  let words := cs.dropWhile fun c => c == ' ' || c == '\t'
  let (convention, rest) ← readWords? words
  let body := rest.dropWhile Text.isBlank
  let start := offset + bytesBetween cs words
  let stop := offset + bytesBetween cs rest
  match readCall? body with
  | none => return (⟨convention, start, stop, none⟩, cs.length - body.length)
  | some (name, inner) =>
    let call := (name, offset + bytesBetween cs inner)
    return (⟨convention, start, stop, some call⟩, cs.length - inner.length)

/-- The statements in the characters that stand from an offset on, after
`skip` characters that belong to an earlier one. -/
def statementsFrom (offset skip : Nat) (lineStart : Bool) : List Char → List Statement
  | [] => []
  | c :: cs =>
    let offset' := offset + c.utf8Size
    let lineStart' := c == '\n'
    match skip with
    | skip' + 1 => statementsFrom offset' skip' lineStart' cs
    | 0 =>
      match if lineStart then readStatement? offset (c :: cs) else none with
      | some (statement, taken) =>
        statement :: statementsFrom offset' (taken - 1) lineStart' cs
      | none => statementsFrom offset' 0 lineStart' cs

/-- **The export statements of a text**, in order. -/
def statements (s : String) : List Statement :=
  statementsFrom 0 0 true s.toList

end ConfigPatch.Literal
