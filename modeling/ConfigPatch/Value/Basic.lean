import ConfigPatch.Decimal.Binary64

/-!
# Configuration values

The value that a configuration file exports, as a tree of scalars,
sequences and mappings. A mapping is the list of its entries: their order
is kept and shows in the output. The operations on entries look only at
the first entry of a name, and `insert` makes no second one.
-/

namespace ConfigPatch

/-- A number is an integer, or a double with a sign of its own, so that
both zeros are told apart. -/
inductive Number where
  | int (n : Int)
  | double (negative : Bool) (magnitude : Decimal.Magnitude)
deriving DecidableEq

/-- **A configuration value.** -/
inductive Value where
  | null
  | bool (b : Bool)
  | number (n : Number)
  | string (s : String)
  | array (items : List Value)
  | object (entries : List (String × Value))

/-- The entries of a mapping, in order. -/
abbrev Entries := List (String × Value)

namespace Entries

/-- The value of the first entry of a name. -/
def find? (name : String) : Entries → Option Value
  | [] => none
  | (key, value) :: rest => if key = name then some value else find? name rest

/-- Gives a name a value: in the place of its entry, or at the end. -/
def insert (name : String) (value : Value) : Entries → Entries
  | [] => [(name, value)]
  | (key, old) :: rest =>
    if key = name then (key, value) :: rest else (key, old) :: insert name value rest

/-- The entries of all other names. -/
def erase (name : String) (entries : Entries) : Entries :=
  entries.filter fun entry => entry.1 ≠ name

/-- The names, in order. -/
def names (entries : Entries) : List String := entries.map Prod.fst

theorem find?_insert (name other : String) (value : Value) (entries : Entries) :
    find? other (insert name value entries) =
      if name = other then some value else find? other entries := by
  induction entries with
  | nil => simp [insert, find?]
  | cons entry rest ih =>
    obtain ⟨key, old⟩ := entry
    by_cases hk : key = name
    · subst hk
      by_cases ho : key = other <;> simp [insert, find?, ho]
    · by_cases ho : key = other
      · subst ho
        simp [insert, find?, hk, Ne.symm hk]
      · simp [insert, find?, hk, ho, ih]

theorem erase_cons (name key : String) (value : Value) (rest : Entries) :
    erase name ((key, value) :: rest) =
      if key = name then erase name rest else (key, value) :: erase name rest := by
  by_cases h : key = name <;> simp [erase, h]

theorem find?_erase (name other : String) (entries : Entries) :
    find? other (erase name entries) =
      if name = other then none else find? other entries := by
  induction entries with
  | nil => simp [erase, find?]
  | cons entry rest ih =>
    obtain ⟨key, value⟩ := entry
    rw [erase_cons]
    by_cases hk : key = name
    · subst hk
      by_cases ho : key = other
      · subst ho
        simp [ih]
      · simp [find?, ho, ih]
    · by_cases ho : key = other
      · subst ho
        simp [find?, hk, Ne.symm hk]
      · simp [find?, hk, ho, ih]

end Entries

namespace Value

/-- The empty mapping. -/
def empty : Value := .object []

/-- Whether the value is null. -/
def isNull : Value → Bool
  | .null => true
  | _ => false

/-- The number of elements or entries; a scalar has none to count. -/
def length? : Value → Option Nat
  | .array items => some items.length
  | .object entries => some entries.length
  | _ => none

end Value

end ConfigPatch
