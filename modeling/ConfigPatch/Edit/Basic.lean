import ConfigPatch.Span
import ConfigPatch.Text.Utf8

/-!
# Edits

An edit puts content in the place of one span of a text and remembers
what stood there. It can be applied to the text it was planned for, and
its inverse to the outcome.
-/

namespace ConfigPatch

/-- What an edit is for. -/
inductive Edit.Purpose where
  /-- To give the literal at a path a value. -/
  | path (text : String)
  /-- To replace a placeholder, so many times. -/
  | placeholder (name : String) (occurrences : Nat)
deriving DecidableEq

/-- **One change of a text.** Everything outside of the span stays. -/
structure Edit where
  purpose : Edit.Purpose
  /-- The span that the content removed has in the text before. -/
  span : Span
  removed : String
  inserted : String
deriving DecidableEq

namespace Edit

/-- The text after the edit, if both ends of the span are places to cut
at. -/
def applyTo? (edit : Edit) (s : String) : Option String := do
  let (before, _) ← Text.splitAt? s.toList edit.span.start
  let (_, after) ← Text.splitAt? s.toList edit.span.stop
  return String.ofList before ++ edit.inserted ++ String.ofList after

/-- The span that the content inserted has in the text after. -/
def insertedSpan (edit : Edit) : Span :=
  ⟨edit.span.start, edit.span.start + (Text.bytes edit.inserted).length⟩

/-- **The edit that takes this one back.** -/
def inverse (edit : Edit) : Edit where
  purpose := edit.purpose
  span := edit.insertedSpan
  removed := edit.inserted
  inserted := edit.removed

end Edit

end ConfigPatch
