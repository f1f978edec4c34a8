import ConfigPatch.Lexical.Bracket
import ConfigPatch.Literal.Export
import ConfigPatch.Options

/-!
# The exported literal

Of several export statements a call of the expected function comes first,
then `export default`, then the earlier one. The literal is what the brace
or the parenthesis after the statement encloses; a call other than that of
the expected function is no part of the statement.
-/

namespace ConfigPatch

/-- **The exported literal of a file**: how it is exported, the function
whose call wraps it, and its span. -/
structure Exported where
  convention : Literal.Convention
  factory : Option String
  span : Span
deriving DecidableEq

namespace Exported

/-- Past the opening bracket, where the text before the inside ends. -/
def headerEnd (literal : Exported) : Nat := literal.span.start + 1

end Exported

namespace Literal

/-- The call of the expected function in a statement. -/
def Statement.wrapper? (options : Options) (statement : Statement) :
    Option (String × Nat) :=
  statement.call.filter fun call => call.1 == options.factory

/-- Where a statement comes among the others; less comes first. -/
def Statement.precedence (options : Options) (statement : Statement) : Nat :=
  (if (statement.wrapper? options).isSome then 0 else 2) +
    (if statement.convention = .exportDefault then 0 else 1)

/-- The earliest statement of the least precedence. -/
def preferred? (options : Options) (statements : List Statement) : Option Statement :=
  [0, 1, 2, 3].findSome? fun n => statements.find? fun s => s.precedence options == n

/-- Whether an exported expression may start with the byte. -/
def startsBody (b : UInt8) : Bool :=
  b == Lexical.Bracket.brace.opener || b == Lexical.Bracket.round.opener

/-- **Finds the exported literal.** -/
def exported (options : Options) (s : String) : Except Error Exported :=
  match preferred? options (statements s) with
  | none => .error (.noLiteral .noExport)
  | some statement => do
    let bytes := Text.bytes s
    let wrapper := statement.wrapper? options
    let body := (wrapper.map Prod.snd).getD statement.stop
    let opening := Lexical.triviaEnd bytes body bytes.length
    if (bytes[opening]?.filter startsBody).isNone then
      throw (.noLiteral (.noBody opening))
    let span ← Lexical.spanAt bytes opening
    return ⟨statement.convention, wrapper.map Prod.fst, span⟩

end Literal

end ConfigPatch
