import ConfigPatch.Edit.Basic
import ConfigPatch.Json.Printer
import ConfigPatch.Record.Options

/-!
# Edits in JSON

The purpose of an edit is an object with a single entry, whose key names the
purpose and whose value is a record. A span has no names but `start` and
`end`.
-/

namespace ConfigPatch

open Json Record

/-- Reads the purpose of an edit. -/
def Edit.Purpose.ofNode? (node : Node) : Option Edit.Purpose := do
  let (name, content) ← variant? node
  if name = "PathSet" then
    match ← allFields? ["path"] content with
    | [text] => return .path (← string? text)
    | _ => none
  else if name = "Replace" then
    match ← allFields? ["placeholder", "occurrences"] content with
    | [name, occurrences] =>
      return .placeholder (← string? name) (← word? occurrences)
    | _ => none
  else none

/-- The JSON form of the purpose of an edit. -/
def Edit.Purpose.toValue : Edit.Purpose → Value
  | .path text => .object [("PathSet", .object [("path", .string text)])]
  | .placeholder name occurrences =>
    .object [("Replace", .object [("placeholder", .string name),
      ("occurrences", .number (.int occurrences))])]

/-- Reads a span. -/
def Span.ofNode? (node : Node) : Option Span := do
  let names := ["start", "end"]
  if !isClosed names node then none
  match ← allFields? names node with
  | [start, stop] => return ⟨← word? start, ← word? stop⟩
  | _ => none

/-- The JSON form of a span. -/
def Span.toValue (span : Span) : Value :=
  .object [("start", .number (.int span.start)), ("end", .number (.int span.stop))]

/-- **Reads an edit.** -/
def Edit.ofNode? (node : Node) : Option Edit := do
  match ← allFields? ["kind", "span", "old_content", "new_content"] node with
  | [purpose, span, old, new] =>
    return ⟨← Edit.Purpose.ofNode? purpose, ← Span.ofNode? span, ← string? old,
      ← string? new⟩
  | _ => none

/-- The JSON form of an edit. -/
def Edit.toValue (edit : Edit) : Value :=
  .object [("kind", edit.purpose.toValue), ("span", edit.span.toValue),
    ("old_content", .string edit.removed), ("new_content", .string edit.inserted)]

end ConfigPatch
