import ConfigPatch.Edit.Batch

/-!
# Documents

A document is the text of a configuration file while it is edited: the
text as it was loaded, the text as it is now, and the edits between the
two, oldest first. The latest edit can be taken back as long as there is
one.
-/

namespace ConfigPatch

/-- A code formatter; it may fail. -/
abbrev Formatter := String → Except Error String

/-- The formatted text, or the text itself where the formatter fails. -/
def Formatter.run (formatter : Formatter) (s : String) : String :=
  match formatter s with
  | .ok formatted => formatted
  | .error _ => s

/-- **A file that is being edited.** -/
structure Document where
  file : Option String
  loaded : String
  source : String
  options : Options
  history : List Edit
deriving DecidableEq

namespace Document

/-- A new document with a text. -/
def ofText (options : Options) (s : String) : Document :=
  ⟨none, s, s, options, []⟩

/-- The document of a file that was loaded, given its name and text. -/
def ofLoaded (options : Options) (outcome : Except Error (String × String)) :
    Except Error Document := do
  let (file, s) ← outcome
  return { ofText options s with file := some file }

/-- The exported literal of the text as it is now. -/
def literal (document : Document) : Except Error Exported :=
  Literal.exported document.options document.source

/-- Whether the text differs from the one loaded. -/
def isChanged (document : Document) : Bool :=
  document.source != document.loaded

/-- Applies an edit and remembers it. -/
def amend (document : Document) (edit : Edit) : Except Failure Document := do
  let source ← Failure.ofCut (edit.applyTo? document.source)
  return { document with source, history := document.history ++ [edit] }

/-- **Gives the literal at a path a value.** -/
def setPath (document : Document) (path value : String) :
    Except Failure (Edit × Document) := do
  let p ← Failure.ofExcept (Path.parse path)
  let edit ← Edit.setText document.options document.source p value
  return (edit, ← document.amend edit)

/-- **Replaces a placeholder**; nothing changes where it does not
occur. -/
def replacePlaceholder (document : Document) (placeholder replacement : String) :
    Except Failure (Option Edit × Document) := do
  match ← Placeholder.plan document.options document.source placeholder replacement with
  | none => return (none, document)
  | some edit => return (some edit, ← document.amend edit)

/-- **Makes the changes of a batch**; those before a refused one stay. -/
def applyBatch (document : Document) (changes : List Change) :
    Except Failure (Batch × Document) := do
  let batch ← Failure.ofCut (Batch.run document.options document.source changes)
  let history := document.history ++ batch.applied
  return (batch, { document with source := batch.text, history })

/-- **Takes the latest edit back**, if there is one. -/
def undo (document : Document) : Except Failure (Option Edit × Document) :=
  match document.history.getLast? with
  | none => .ok (none, document)
  | some edit => do
    let source ← Failure.ofCut (edit.inverse.applyTo? document.source)
    return (some edit, { document with source, history := document.history.dropLast })

/-- The text as it is now, formatted if that succeeds. -/
def formatted (document : Document) (formatter : Formatter) : String :=
  formatter.run document.source

end Document

end ConfigPatch
