import ConfigPatch.Text.Character
import ConfigPatch.Value.Basic

/-!
# Placeholders in a tree

A placeholder is a whole string of the tree, blanks at either end aside.
Keys and parts of longer strings are left alone.
-/

namespace ConfigPatch.Value

mutual

/-- Puts a string in the place of every string whose trimmed text is the
needle. -/
def fillTrimmed (needle : List Char) (replacement : String) : Value → Value
  | .string s => .string (if Text.trim s.toList = needle then replacement else s)
  | .array items => .array (fillItems needle replacement items)
  | .object entries => .object (fillEntries needle replacement entries)
  | v => v

/-- Fills every element. -/
def fillItems (needle : List Char) (replacement : String) :
    List Value → List Value
  | [] => []
  | item :: rest =>
    fillTrimmed needle replacement item :: fillItems needle replacement rest

/-- Fills the value of every entry. -/
def fillEntries (needle : List Char) (replacement : String) :
    List (String × Value) → List (String × Value)
  | [] => []
  | (key, value) :: rest =>
    (key, fillTrimmed needle replacement value)
      :: fillEntries needle replacement rest

end

/-- **Fills a placeholder**: every string that it is becomes the
replacement. -/
def fill (placeholder replacement : String) (v : Value) : Value :=
  fillTrimmed (Text.trim placeholder.toList) replacement v

theorem fillItems_eq_map (needle : List Char) (replacement : String)
    (items : List Value) :
    fillItems needle replacement items =
      items.map (fillTrimmed needle replacement) := by
  induction items with
  | nil => simp [fillItems]
  | cons item rest ih => simp [fillItems, ih]

theorem fillEntries_eq_map (needle : List Char) (replacement : String)
    (entries : List (String × Value)) :
    fillEntries needle replacement entries =
      entries.map fun (key, value) => (key, fillTrimmed needle replacement value) := by
  induction entries with
  | nil => simp [fillEntries]
  | cons entry rest ih => simp [fillEntries, ih]

end ConfigPatch.Value
