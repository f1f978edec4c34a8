import ConfigPatch.Error
import ConfigPatch.Lexical.Mode
import ConfigPatch.Span

/-!
# Brackets, and the items between them

`spanAt` finds the literal that a bracket opens. Only brackets of the same
shape are counted, and only in code.

The inside of a literal is a list of items with commas between them. A
comma counts where it stands in code and outside of all brackets. An item
goes from its first byte that is neither blank nor comment to its last
one. Where two commas have nothing between them the item is empty and
stands at the second one; nothing after the last comma is no item.
-/

namespace ConfigPatch.Lexical

/-! ## Brackets -/

/-- The shapes of brackets. -/
inductive Bracket where
  | brace
  | square
  | round
deriving DecidableEq

namespace Bracket

/-- The byte that opens. -/
def opener : Bracket → UInt8
  | .brace => 0x7B
  | .square => 0x5B
  | .round => 0x28

/-- The byte that closes. -/
def closer : Bracket → UInt8
  | .brace => 0x7D
  | .square => 0x5D
  | .round => 0x29

/-- The shape that a byte opens. -/
def ofOpener? (b : UInt8) : Option Bracket :=
  if b = opener .brace then some .brace
  else if b = opener .square then some .square
  else if b = opener .round then some .round
  else none

/-- The shape that a byte closes. -/
def ofCloser? (b : UInt8) : Option Bracket :=
  if b = closer .brace then some .brace
  else if b = closer .square then some .square
  else if b = closer .round then some .round
  else none

/-- The offset past the bracket that closes the literal, where `depth`
brackets are open and the bytes stand from an offset on. -/
def closeFrom (shape : Bracket) (depth offset : Nat) : List Mark → Option Nat
  | [] => none
  | mark :: rest =>
    if mark.kind ≠ .code then closeFrom shape depth (offset + 1) rest
    else if mark.byte = shape.opener then closeFrom shape (depth + 1) (offset + 1) rest
    else if mark.byte = shape.closer then
      if depth ≤ 1 then some (offset + 1)
      else closeFrom shape (depth - 1) (offset + 1) rest
    else closeFrom shape depth (offset + 1) rest

end Bracket

/-- The byte that closes what a byte opens. -/
def closer? (b : UInt8) : Option UInt8 :=
  (Bracket.ofOpener? b).map Bracket.closer

/-- **The literal that opens at an offset**, with its brackets. -/
def spanAt (bytes : List UInt8) (opening : Nat) : Except Error Span :=
  match bytes[opening]?.bind Bracket.ofOpener? with
  | none => .error (.noLiteral (.noOpener opening))
  | some shape =>
    match shape.closeFrom 0 opening (marksFrom bytes opening) with
    | some stop => .ok ⟨opening, stop⟩
    | none => .error (.unbalanced opening)

/-! ## Items -/

/-- The number of open brackets after a byte of code. A bracket that
closes nothing is passed over. -/
def depthAfter (depth : Nat) (b : UInt8) : Nat :=
  if (Bracket.ofOpener? b).isSome then depth + 1
  else if (Bracket.ofCloser? b).isSome then depth - 1
  else depth

/-- The items in bytes that stand from an offset on, where `depth`
brackets are open and `current` is the item so far. -/
def itemsFrom (depth : Nat) (current : Option Span) (offset : Nat) :
    List Mark → List Span
  | [] => current.toList
  | mark :: rest =>
    match mark.kind with
    | .comment => itemsFrom depth current (offset + 1) rest
    | .text => itemsFrom depth (some (Span.extend current offset (offset + 1))) (offset + 1) rest
    | .code =>
      if mark.byte = comma ∧ depth = 0 then
        current.getD ⟨offset, offset⟩ :: itemsFrom 0 none (offset + 1) rest
      else
        let current :=
          if isSpace mark.byte then current
          else some (Span.extend current offset (offset + 1))
        itemsFrom (depthAfter depth mark.byte) current (offset + 1) rest

/-- **The items of a region**, in order. -/
def items (bytes : List UInt8) (region : Span) : List Span :=
  itemsFrom 0 none region.start ((marksFrom bytes region.start).take region.length)

/-- The items of a region that lies within the bytes. -/
def items? (bytes : List UInt8) (region : Span) : Option (List Span) :=
  if region.start < region.stop ∧ bytes.length < region.stop then none
  else some (items bytes region)

end ConfigPatch.Lexical
