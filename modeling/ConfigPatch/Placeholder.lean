import ConfigPatch.Edit.Basic
import ConfigPatch.Literal.Exported
import ConfigPatch.Text.Character

/-!
# Placeholders in source text

A placeholder is replaced wherever it occurs in the exported literal, and
nowhere else in the file. One that is made of identifier characters is
replaced only where no such character stands next to it; the character
before may be one that an earlier replacement has written. Replacements
are not searched again.
-/

namespace ConfigPatch.Placeholder

/-- Whether a placeholder stands at the start of a text, on its own if it
is asked to. -/
def standsAt (placeholder : List Char) (alone : Bool) (before : Option Char)
    (cs : List Char) : Bool :=
  placeholder.isPrefixOf cs &&
    !(alone && (before.any Text.isWordChar ||
      (cs[placeholder.length]?).any Text.isWordChar))

/-- Copies a text and replaces a placeholder in it, and counts how often.
`before` is the last character written, and the first `skip` characters
belong to an occurrence already replaced. -/
def replaceFrom (placeholder replacement : List Char) (alone : Bool)
    (before : Option Char) (skip : Nat) : List Char → List Char × Nat
  | [] => ([], 0)
  | c :: cs =>
    match skip with
    | skip + 1 => replaceFrom placeholder replacement alone before skip cs
    | 0 =>
      if standsAt placeholder alone before (c :: cs) then
        let (written, count) :=
          replaceFrom placeholder replacement alone (replacement.getLast?.or before)
            (placeholder.length - 1) cs
        (replacement ++ written, count + 1)
      else
        let (written, count) :=
          replaceFrom placeholder replacement alone (some c) 0 cs
        (c :: written, count)

/-- **Replaces a placeholder in a text**, and counts the occurrences. -/
def replaceIn (placeholder replacement cs : List Char) : List Char × Nat :=
  replaceFrom placeholder replacement (Text.isWord placeholder) none 0 cs

/-- **The edit that replaces a placeholder** in the exported literal.
There is none where the file exports no literal or where the placeholder
does not occur. -/
def plan (options : Options) (s placeholder replacement : String) :
    Except Failure (Option Edit) :=
  if placeholder.isEmpty then .ok none
  else match Literal.exported options s with
    | .error _ => .ok none
    | .ok literal => do
      let region ← Failure.ofCut (Text.slice? s literal.span.start literal.span.stop)
      let (written, count) :=
        replaceIn placeholder.toList replacement.toList region.toList
      return if count = 0 then none
        else some ⟨.placeholder placeholder count, literal.span, region,
          String.ofList written⟩

/-- The number of occurrences that replacing a placeholder by itself
would replace. -/
def count (options : Options) (s placeholder : String) : Except Failure Nat := do
  match ← plan options s placeholder placeholder with
  | some ⟨.placeholder _ n, _, _, _⟩ => return n
  | _ => return 0

/-- The text with a placeholder replaced, which is the text itself where
there is nothing to replace. -/
def replace (options : Options) (s placeholder replacement : String) :
    Except Failure String := do
  match ← plan options s placeholder replacement with
  | some edit => Failure.ofCut (edit.applyTo? s)
  | none => return s

end ConfigPatch.Placeholder
