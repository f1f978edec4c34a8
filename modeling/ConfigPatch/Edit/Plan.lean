import ConfigPatch.Literal.Lookup
import ConfigPatch.Options
import ConfigPatch.Path.Parser
import ConfigPatch.Placeholder

/-!
# Planning edits

An edit of a file is planned against its text before it is applied.
`setLiteral` puts source text in the place of the literal at a path, and a
`Change` is such a step as a caller asks for it.
-/

namespace ConfigPatch

namespace Edit

/-- The edit that puts source text in the place of the literal at a
path. -/
def setLiteral (options : Options) (s : String) (p : Path) (source : String) :
    Except Failure Edit := do
  let span ← Literal.find options s p
  let old ← Failure.ofCut (Text.slice? s span.start span.stop)
  return ⟨.path p.text, span, old, source⟩

/-- **The edit that gives the literal at a path a value**, which is given
as text. -/
def setText (options : Options) (s : String) (p : Path) (value : String) :
    Except Failure Edit :=
  setLiteral options s p (Literal.ofText options.quote value)

/-- The edit that gives the literal at a path a value. -/
def setValue (options : Options) (s : String) (p : Path) (value : Value) :
    Except Failure Edit :=
  setLiteral options s p (Literal.ofValue options.quote value)

end Edit

/-- **A change that is asked for**: a value for a path, or a replacement
for a placeholder. -/
inductive Change where
  | setPath (path value : String)
  | replacePlaceholder (placeholder replacement : String)
deriving DecidableEq

namespace Change

/-- The edit for a change; a placeholder that does not occur needs
none. -/
def plan (options : Options) (s : String) : Change → Except Failure (Option Edit)
  | .setPath path value => do
    let p ← Failure.ofExcept (Path.parse path)
    return some (← Edit.setText options s p value)
  | .replacePlaceholder placeholder replacement =>
    Placeholder.plan options s placeholder replacement

end Change

/-- The text in which the literal at a path has a value given as text. -/
def Edit.withText (options : Options) (s path value : String) :
    Except Failure String := do
  let p ← Failure.ofExcept (Path.parse path)
  let edit ← Edit.setText options s p value
  Failure.ofCut (edit.applyTo? s)

/-- The text in which the literal at a path has a value. -/
def Edit.withValue (options : Options) (s path : String) (value : Value) :
    Except Failure String := do
  let p ← Failure.ofExcept (Path.parse path)
  let edit ← Edit.setValue options s p value
  Failure.ofCut (edit.applyTo? s)

end ConfigPatch
