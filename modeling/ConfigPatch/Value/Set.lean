import ConfigPatch.Error
import ConfigPatch.Json.Reader
import ConfigPatch.Text.Character

/-!
# Writing a value at a path

`Value.set` stores a value in a configuration and makes what is missing on
the way: an absent or null property becomes the container that the next
segment needs, and a sequence is filled up to the index.

`Value.build` makes a configuration that has a value at a path and little
else. It starts with a new container for the first segment and goes down.
Every segment is given a slot: a new property holds null, and a sequence is
filled up with null. What the slot holds is replaced by a new container,
unless it is one that the next segment goes into. A segment without a slot
would be reported; that there is none follows from the walk and is not
assumed by it.

A value to be stored may be a string that spells a mapping or a sequence.
Such a string is stored as what it spells.
-/

namespace ConfigPatch.Value

/-! ## Values given as text -/

/-- Whether a text opens like a mapping or a sequence. -/
def opensContainer (cs : List Char) : Bool :=
  match cs with
  | [] => false
  | c :: _ => c == '\x7b' || c == '['

/-- **What is stored for a value.** A string whose trimmed text is a
mapping or a sequence in JSON stands for that; every other value is stored
as it is. -/
def stored : Value → Value
  | .string s =>
    let trimmed := Text.trim s.toList
    if opensContainer trimmed then (Json.parse? trimmed).getD (.string s) else .string s
  | v => v

/-! ## Making what is missing -/

/-- The most elements that filling up a sequence may append. -/
def paddingLimit : Nat := 65536

/-- A new container that the segment can go into. -/
def freshFor : Segment → Value
  | .property _ => empty
  | .index _ => .array []

/-- The elements of a sequence filled up so that the index exists. -/
def fillUp (fill : Value) (n : UInt64) (items : List Value) : Except Error (List Value) :=
  if n.toNat < items.length then .ok items
  else if paddingLimit ≤ n.toNat - items.length then
    .error (.indexOutOfRange n items.length)
  else .ok (items ++ List.replicate (n.toNat + 1 - items.length) fill)

/-- The value of a slot that the next segment goes into: what is there
already, or else the given container. -/
def slotOr (fresh : Value) : Option Value → Value
  | none => fresh
  | some v => if v.isNull then fresh else v

/-- Stores a value, as it is, at the path that follows a given segment. -/
def setFrom (previous : Option Segment) : Path → Value → Value → Except Error Value
  | [], value, _ => .ok value
  | .property name :: rest, value, .object entries => do
    let fresh := rest.head?.elim .null freshFor
    let inner ← setFrom (some (.property name)) rest value
      (slotOr fresh (Entries.find? name entries))
    return .object (Entries.insert name inner entries)
  | .property name :: _, _, _ => .error (.missingProperty name)
  | .index n :: rest, value, .array items => do
    let padded ← fillUp (if rest.isEmpty then .null else empty) n items
    let inner ← setFrom (some (.index n)) rest value (slotOr empty padded[n.toNat]?)
    return .array (padded.set n.toNat inner)
  | .index n :: _, _, _ => .error (.notAnArray (Step.label ⟨previous, .index n, false⟩))

/-- **Stores a value at a path** and makes what is missing on the way. -/
def set (p : Path) (value config : Value) : Except Error Value :=
  if config.isNull || value.isNull then .error .missingValue
  else if p.isEmpty then .error (.malformedPath "" .empty)
  else setFrom none p value.stored config

/-- Whether the value is a sequence. -/
def isArray : Value → Bool
  | .array _ => true
  | _ => false

/-- Whether the value is a mapping. -/
def isObject : Value → Bool
  | .object _ => true
  | _ => false

/-- What the segments behind a slot go into: what the slot holds, or a new
container if that does not suit the first of them. -/
def containerIn (slot : Value) : Path → Value
  | [] => slot
  | next :: _ =>
    if slot.isArray != next.isIndex || !(slot.isArray || slot.isObject) then freshFor next
    else slot

/-- Puts a value, as it is, at a path below a container. The whole path is
named where a segment has no slot. -/
def buildIn (whole : Path) : Path → Value → Value → Except Error Value
  | [], value, _ => .ok value
  | .property name :: rest, value, .object entries => do
    let slot := (Entries.find? name entries).getD .null
    let inner ← buildIn whole rest value (containerIn slot rest)
    return .object (Entries.insert name inner entries)
  | .index n :: rest, value, .array items => do
    let padded ← fillUp .null n items
    let slot := padded[n.toNat]?.getD .null
    let inner ← buildIn whole rest value (containerIn slot rest)
    return .array (padded.set n.toNat inner)
  | s :: _, _, _ => .error (.malformedPath whole.text (.noSlot s))

/-- **A configuration with a value at a path**, and with nothing else in
it but nulls in front of an index. -/
def build (p : Path) (value : Value) : Except Error Value :=
  match p with
  | [] => .error (.malformedPath "" .empty)
  | s :: _ => buildIn p p value.stored (freshFor s)

end ConfigPatch.Value
