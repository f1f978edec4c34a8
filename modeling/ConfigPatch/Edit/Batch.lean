import ConfigPatch.Edit.Plan

/-!
# Batches of changes

The changes of a batch are made one after the other, each in the text that
the one before has left. The first change that is refused ends the batch,
and what was changed before it stays changed.
-/

namespace ConfigPatch

/-- **How a batch ended**: the text it left, the edits made, in order, and
the position and cause of the change that was refused. -/
structure Batch where
  text : String
  applied : List Edit
  failure : Option (Nat × Error)
deriving DecidableEq

namespace Batch

/-- Whether no change was refused. -/
def completed (batch : Batch) : Bool := batch.failure.isNone

/-- The text of a complete batch. -/
def result (batch : Batch) : Except Error String :=
  match batch.failure with
  | none => .ok batch.text
  | some (_, cause) => .error cause

/-- The batch with an edit made before it. -/
def after (edit : Edit) (batch : Batch) : Batch :=
  { batch with applied := edit :: batch.applied }

/-- Makes the changes from a position on. There is no outcome where a text
would have to be cut at a wrong place. -/
def runFrom (options : Options) (position : Nat) (s : String) :
    List Change → Option Batch
  | [] => some ⟨s, [], none⟩
  | change :: rest =>
    match change.plan options s with
    | .error .misplaced => none
    | .error (.refused cause) => some ⟨s, [], some (position, cause)⟩
    | .ok none => runFrom options (position + 1) s rest
    | .ok (some edit) => do
      let next ← edit.applyTo? s
      (runFrom options (position + 1) next rest).map (after edit)

/-- **Makes the changes of a batch.** -/
def run (options : Options) (s : String) (changes : List Change) : Option Batch :=
  runFrom options 0 s changes

end Batch

end ConfigPatch
