import ConfigPatch.Edit.Plan
import ConfigPatch.Json.Printer
import ConfigPatch.Record.Options

/-!
# Changes in JSON

A change is a record whose first field, `op`, tells which one it is. All
of its text has to be a value, also the fields that are passed over.
-/

namespace ConfigPatch

open Json Record

namespace Change

/-- The names by which changes are told apart. -/
def setPathName : String := "set_path"

def replacePlaceholderName : String := "replace_placeholder"

/-- Reads the fields that follow the name of a change. -/
def ofFields? (name : String) (node : Node) : Option Change := do
  if name = setPathName then
    match ← allFields? ["path", "value"] node with
    | [path, value] => return .setPath (← string? path) (← string? value)
    | _ => none
  else if name = replacePlaceholderName then
    match ← allFields? ["placeholder", "replacement"] node with
    | [placeholder, replacement] =>
      return .replacePlaceholder (← string? placeholder) (← string? replacement)
    | _ => none
  else none

/-- Reads a change. -/
def ofNode? : Node → Option Change
  | .object entries => do
    let name ← (← field? (← keyed? entries) "op").bind string?
    ofFields? name (.object entries)
  | .array (name :: items) => do
    ofFields? (← string? name) (.array items)
  | _ => none

/-- **Reads a list of changes.** -/
def listOfNode? (node : Node) : Option (List Change) := do
  let _ ← node.toValue? maxDepth
  match node with
  | .array items => items.mapM ofNode?
  | _ => none

/-- The JSON form of a change. -/
def toValue : Change → Value
  | .setPath path value =>
    .object [("op", .string setPathName), ("path", .string path), ("value", .string value)]
  | .replacePlaceholder placeholder replacement =>
    .object [("op", .string replacePlaceholderName), ("placeholder", .string placeholder),
      ("replacement", .string replacement)]

end Change

end ConfigPatch
