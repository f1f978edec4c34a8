/-!
# Paths — the addresses of values

A path names a place in a configuration by the segments on the way to it:
a property of a mapping or an index into a sequence. It is written
`edgeFunctions[0].name`: an index that follows a property is attached to
it, and a point stands between all other neighbours.

`Step` is one segment together with what the way to it has seen, and
`Path.steps` lists the steps of a path. Both the tree of values and the
text of a file are walked along this list.
-/

namespace ConfigPatch

/-- One segment of a path. An index is a 64-bit word. -/
inductive Segment where
  | property (name : String)
  | index (n : UInt64)
deriving DecidableEq

/-- The segments on the way to a value, outermost first. -/
abbrev Path := List Segment

namespace Segment

/-- Whether the segment addresses an element of a sequence. -/
def isIndex : Segment → Bool
  | .property _ => false
  | .index _ => true

/-- The written form: the name, or the index in brackets. -/
def text : Segment → String
  | .property name => name
  | .index n => "[" ++ toString n.toNat ++ "]"

/-- What is written between a segment and the one before it: nothing at
the start and between a property and an index, a point otherwise. -/
def separator : Option Segment → Segment → String
  | none, _ => ""
  | some (.property _), .index _ => ""
  | some _, _ => "."

end Segment

/-- **One step of a walk**: the segment taken, the segment before it, and
whether the path ends here. -/
structure Step where
  previous : Option Segment
  segment : Segment
  isLast : Bool
deriving DecidableEq

namespace Step

/-- The name of the container that the step goes into: the text of the
segment before it, or `<root>`. -/
def label (step : Step) : String :=
  step.previous.elim "<root>" Segment.text

end Step

namespace Path

/-- The written form of the segments that follow a given one. -/
def textFrom (previous : Option Segment) : Path → String
  | [] => ""
  | s :: rest => Segment.separator previous s ++ s.text ++ textFrom (some s) rest

/-- The written form of a path. -/
def text (p : Path) : String := textFrom none p

/-- The path without its last segment; the empty path has none. -/
def parent? : Path → Option Path
  | [] => none
  | s :: rest => some (s :: rest).dropLast

/-- The steps that follow a given segment. -/
def stepsFrom (previous : Option Segment) : Path → List Step
  | [] => []
  | s :: rest => ⟨previous, s, rest.isEmpty⟩ :: stepsFrom (some s) rest

/-- The steps of a path, in order. -/
def steps (p : Path) : List Step := stepsFrom none p

end Path

end ConfigPatch
