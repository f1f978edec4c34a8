import ConfigPatch.Path.Basic

/-!
# Why a request is refused

`Error` names the causes for which addressing or editing a configuration
is refused, and `Error.message` is the one place where they are worded.
`Failure` adds the case that a text is to be cut where it cannot be: past
its end or inside of a character.
-/

namespace ConfigPatch

/-- What is wrong with a path, mostly with its text. The token is the part
between two points in which the fault lies. -/
inductive Path.Fault where
  | empty
  | emptySegment
  | strayClose (token : String)
  | unclosed (token : String)
  | severalIndices (token : String)
  | notNumeric (digits : String)
  | tooLarge (digits : String)
  /-- The segment does not go into the container made for it. -/
  | noSlot (segment : Segment)
deriving DecidableEq

/-- The wording of a fault. -/
def Path.Fault.message : Path.Fault → String
  | .empty => "path is empty"
  | .emptySegment => "empty segment"
  | .strayClose token => "unexpected ']' in '" ++ token ++ "'"
  | .unclosed token => "unclosed bracket in '" ++ token ++ "'"
  | .severalIndices token => "only one trailing index is allowed in '" ++ token ++ "'"
  | .notNumeric digits => "index '" ++ digits ++ "' is not numeric"
  | .tooLarge digits =>
    "index '" ++ digits ++ "': number too large to fit in target type"
  | .noSlot segment => "cannot create '" ++ segment.text ++ "'"

/-- Why a text holds no literal where one is looked for. Offsets are in
bytes. -/
inductive NoLiteral where
  /-- No bracket opens at the offset. -/
  | noOpener (offset : Nat)
  /-- No line exports a value. -/
  | noExport
  /-- The exported expression starts with neither a brace nor a
  parenthesis. -/
  | noBody (offset : Nat)
  /-- The exported expression is no mapping. -/
  | noMapping
deriving DecidableEq

/-- The wording of the reason. -/
def NoLiteral.message : NoLiteral → String
  | .noOpener offset => "expected '\x7b', '[' or '(' at byte " ++ toString offset
  | .noExport => "no 'module.exports' or 'export default' found"
  | .noBody offset => "expected '\x7b' or '(' after export at byte " ++ toString offset
  | .noMapping => "exported value is not an object literal"

/-- **The causes of refusal.** -/
inductive Error where
  /-- The text of a path does not follow the grammar of paths. -/
  | malformedPath (path : String) (fault : Path.Fault)
  /-- A property is taken of something that has none of that name. -/
  | missingProperty (name : String)
  /-- An index is taken of something other than a sequence. -/
  | notAnArray (label : String)
  /-- An index lies past the end of a sequence, or too far past it to
  fill the gap. -/
  | indexOutOfRange (index : UInt64) (length : Nat)
  /-- A null stands where a configuration or a value is needed. -/
  | missingValue
  /-- The text exports no literal. -/
  | noLiteral (reason : NoLiteral)
  /-- The bracket at the offset is never closed. -/
  | unbalanced (opening : Nat)
  /-- The text has nothing at the path. -/
  | pathNotFound (path : Path)
  /-- There is no quote style of that name. -/
  | unknownQuote (name : String)
  /-- A code formatter failed. -/
  | formatterFailed (reason : String)
  /-- A file could not be loaded. -/
  | loadFailed (reason : String)
deriving DecidableEq

/-- The wording of an error. -/
def Error.message : Error → String
  | .malformedPath path fault => "Malformed path '" ++ path ++ "': " ++ fault.message
  | .missingProperty name => "Property '" ++ name ++ "' does not exist"
  | .notAnArray label => "Property '" ++ label ++ "' is not an array"
  | .indexOutOfRange index length =>
    "Array index " ++ toString index.toNat ++ " does not exist (length "
      ++ toString length ++ ")"
  | .missingValue => "Both a configuration and a value are required"
  | .noLiteral reason => "No configuration literal found: " ++ reason.message
  | .unbalanced opening =>
    "Unbalanced configuration literal opened at byte " ++ toString opening
  | .pathNotFound path => "Path not found: " ++ path.text
  | .unknownQuote name => "Invalid option: unknown quote style '" ++ name ++ "'"
  | .formatterFailed reason => "Formatter failed: " ++ reason
  | .loadFailed reason => "I/O error: " ++ reason

/-- **Why work on a text stops**: it is refused for a cause, or it comes to
a byte offset at which the text cannot be read or cut. -/
inductive Failure where
  | refused (cause : Error)
  | misplaced
deriving DecidableEq

namespace Failure

/-- The outcome of something that may be refused. -/
def ofExcept {α : Type} (outcome : Except Error α) : Except Failure α :=
  outcome.mapError .refused

/-- The outcome of a cut. -/
def ofCut {α : Type} : Option α → Except Failure α
  | some a => .ok a
  | none => .error .misplaced

end Failure

end ConfigPatch
