import ConfigPatch.Error
import ConfigPatch.Value.Basic

/-!
# Reading and removing the value at a path

`Value.down` takes one step down, `Value.get` walks a whole path. Every
segment has to exist: a missing property, an index into something other
than a sequence, and an index past the end are errors of their own.
`Value.below?` takes the step where the cause of a failure is not asked
for.

What is removed has to exist, on the terms of `Value.get`. Only when the
path is known to lead somewhere is the value at its end taken out, by a
walk of its own. The entries of a mapping keep their order, and the
elements of a sequence move up.
-/

namespace ConfigPatch.Value

/-! ## Reading -/

/-- The value one step below. -/
def down (v : Value) (step : Step) : Except Error Value :=
  match step.segment, v with
  | .property name, .object entries =>
    match Entries.find? name entries with
    | some value => .ok value
    | none => .error (.missingProperty name)
  | .property name, _ => .error (.missingProperty name)
  | .index n, .array items =>
    match items[n.toNat]? with
    | some value => .ok value
    | none => .error (.indexOutOfRange n items.length)
  | .index _, _ => .error (.notAnArray step.label)

/-- The value one step below, if there is one. -/
def below? (v : Value) (s : Segment) : Option Value :=
  match s, v with
  | .property name, .object entries => Entries.find? name entries
  | .index n, .array items => items[n.toNat]?
  | _, _ => none

/-- **The value at a path.** The empty path leads to the value itself. -/
def get (p : Path) (v : Value) : Except Error Value :=
  p.steps.foldlM down v

/-! ## Removing -/

/-- Puts a value in the place of the one that is one step below. -/
def putChild (v : Value) (s : Segment) (below : Value) : Value :=
  match s, v with
  | .property name, .object entries => .object (Entries.insert name below entries)
  | .index n, .array items => .array (items.set n.toNat below)
  | _, v => v

/-- Takes out the value that is one step below, if there is one. -/
def dropChild? (v : Value) (s : Segment) : Option Value :=
  match s, v with
  | .property name, .object entries =>
    if (Entries.find? name entries).isSome then some (.object (Entries.erase name entries))
    else none
  | .index n, .array items =>
    if n.toNat < items.length then some (.array (items.eraseIdx n.toNat)) else none
  | _, _ => none

/-- Takes out the value at a path, if the path leads to one below the
value itself. -/
def takeOut? : Path → Value → Option Value
  | [], _ => none
  | [s], v => v.dropChild? s
  | s :: next :: rest, v => do
    let inner ← v.below? s
    let left ← takeOut? (next :: rest) inner
    return v.putChild s left

/-- **Removes the value at a path.** -/
def remove (p : Path) (v : Value) : Except Error Value :=
  if p.isEmpty then .error (.malformedPath "" .empty)
  else do
    let _ ← get p v
    match takeOut? p v with
    | some left => return left
    | none => throw (.pathNotFound p)

end ConfigPatch.Value
