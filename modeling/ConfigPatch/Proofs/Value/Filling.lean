import ConfigPatch.Proofs.Value.Removal
import ConfigPatch.Value.Fill
import Mathlib.Data.List.InsertIdx

/-!
# Filling a placeholder in a tree

Filling a placeholder maps the strings of a tree and leaves its shape
alone: names keep their order, sequences their length, and a path leads to
the filled form of what it led to, or fails for the same cause. So filling
goes before or after reading and removing alike. What filling does to one
string, done twice, is what it does once, and two placeholders are filled
in either order if neither replacement is the other placeholder; both carry
over to trees by induction.
-/

namespace ConfigPatch

variable {entries : Entries} {items : List Value} {name : String} {v x : Value} {s : Segment}
variable {previous : Option Segment} {p : Path} {needle needle' : List Char}
variable {replacement replacement' : String}

namespace Value

/-! ## Strings -/

/-- What filling does to one string. -/
def fillString (needle : List Char) (replacement s : String) : String :=
  if Text.trim s.toList = needle then replacement else s

theorem fillString_of_ne {text : String} (h : Text.trim text.toList ≠ needle) :
    fillString needle replacement text = text :=
  if_neg h

/-- A replacement that is the placeholder, blanks aside, is replaced by
itself. -/
theorem fillString_fillString (text : String) :
    fillString needle replacement (fillString needle replacement text) =
      fillString needle replacement text := by
  unfold fillString
  by_cases htext : Text.trim text.toList = needle
  · rw [if_pos htext, ite_self]
  · rw [if_neg htext, if_neg htext]

/-- A string is at most one of two placeholders, and its replacement is
not the other one. -/
theorem fillString_comm (hne : needle ≠ needle') (h : Text.trim replacement.toList ≠ needle')
    (h' : Text.trim replacement'.toList ≠ needle) (text : String) :
    fillString needle' replacement' (fillString needle replacement text) =
      fillString needle replacement (fillString needle' replacement' text) := by
  by_cases htext : Text.trim text.toList = needle
  · have hother : Text.trim text.toList ≠ needle' := fun heq => hne (htext.symm.trans heq)
    have hfilled : fillString needle replacement text = replacement := if_pos htext
    rw [fillString_of_ne hother, hfilled, fillString_of_ne h]
  · by_cases hother : Text.trim text.toList = needle'
    · have hfilled : fillString needle' replacement' text = replacement' := if_pos hother
      rw [fillString_of_ne htext, hfilled, fillString_of_ne h']
    · rw [fillString_of_ne htext, fillString_of_ne hother, fillString_of_ne htext]

/-! ## Trees -/

/-- **Induction on a tree.** What holds of a sequence or a mapping if it
holds of all that is in it, and of every scalar, holds of every value. -/
@[elab_as_elim]
theorem induction {motive : Value → Prop} (v : Value) (null : motive .null)
    (bool : ∀ b, motive (.bool b)) (number : ∀ n, motive (.number n))
    (string : ∀ s, motive (.string s))
    (array : ∀ items, (∀ item ∈ items, motive item) → motive (.array items))
    (object : ∀ entries, (∀ entry ∈ entries, motive entry.2) → motive (.object entries)) :
    motive v :=
  match v with
  | .null => null
  | .bool b => bool b
  | .number n => number n
  | .string s => string s
  | .array items => array items fun item _ => induction item null bool number string array object
  | .object entries =>
    object entries fun entry _ => induction entry.2 null bool number string array object
termination_by sizeOf v
decreasing_by
  · rename_i hmem
    have hlt := List.sizeOf_lt_of_mem hmem
    simp only [Value.array.sizeOf_spec]
    omega
  · rename_i hmem
    have hlt := List.sizeOf_lt_of_mem hmem
    obtain ⟨key, value⟩ := entry
    simp only [Value.object.sizeOf_spec, Prod.mk.sizeOf_spec] at hlt ⊢
    omega

theorem fillTrimmed_string (text : String) : fillTrimmed needle replacement (.string text) =
    .string (fillString needle replacement text) := by
  rw [fillTrimmed, fillString]

theorem fillTrimmed_array : fillTrimmed needle replacement (.array items) =
    .array (items.map (fillTrimmed needle replacement)) := by
  rw [fillTrimmed, fillItems_eq_map]

theorem fillTrimmed_object : fillTrimmed needle replacement (.object entries) =
    .object (fillEntries needle replacement entries) := by
  rw [fillTrimmed]

theorem fillTrimmed_of_scalar (hlength : v.length? = none) (hstring : ∀ text, v ≠ .string text) :
    fillTrimmed needle replacement v = v := by
  cases v with
  | null | bool | number => rw [fillTrimmed] <;> simp
  | string text => exact absurd rfl (hstring text)
  | array | object => cases hlength

/-- **Filling twice** is filling once. -/
theorem fillTrimmed_fillTrimmed (v : Value) :
    fillTrimmed needle replacement (fillTrimmed needle replacement v) =
      fillTrimmed needle replacement v := by
  induction v using Value.induction with
  | null | bool | number => simp only [fillTrimmed]
  | string text => rw [fillTrimmed_string, fillTrimmed_string, fillString_fillString]
  | array items ih =>
    rw [fillTrimmed_array, fillTrimmed_array, List.map_map]
    exact congrArg array (List.map_congr_left ih)
  | object entries ih =>
    rw [fillTrimmed_object, fillTrimmed_object]
    simp only [fillEntries_eq_map, List.map_map]
    refine congrArg object (List.map_congr_left fun entry hentry => ?_)
    exact congrArg (Prod.mk entry.1) (ih entry hentry)

/-- **Two placeholders are filled in either order.** -/
theorem fillTrimmed_comm (hne : needle ≠ needle') (h : Text.trim replacement.toList ≠ needle')
    (h' : Text.trim replacement'.toList ≠ needle) (v : Value) :
    fillTrimmed needle' replacement' (fillTrimmed needle replacement v) =
      fillTrimmed needle replacement (fillTrimmed needle' replacement' v) := by
  induction v using Value.induction with
  | null | bool | number => simp only [fillTrimmed]
  | string text => simp only [fillTrimmed_string, fillString_comm hne h h']
  | array items ih =>
    simp only [fillTrimmed_array, List.map_map]
    exact congrArg array (List.map_congr_left ih)
  | object entries ih =>
    simp only [fillTrimmed_object, fillEntries_eq_map, List.map_map]
    refine congrArg object (List.map_congr_left fun entry hentry => ?_)
    exact congrArg (Prod.mk entry.1) (ih entry hentry)

/-! ## Entries -/

theorem names_fillEntries :
    Entries.names (fillEntries needle replacement entries) = Entries.names entries := by
  rw [fillEntries_eq_map, Entries.names, Entries.names, List.map_map]
  rfl

theorem find?_fillEntries : Entries.find? name (fillEntries needle replacement entries) =
    (Entries.find? name entries).map (fillTrimmed needle replacement) := by
  induction entries with
  | nil => simp [fillEntries, Entries.find?]
  | cons entry rest ih =>
    obtain ⟨key, value⟩ := entry
    by_cases hkey : key = name <;> simp [fillEntries, Entries.find?, hkey, ih]

theorem insert_fillEntries :
    Entries.insert name (fillTrimmed needle replacement x) (fillEntries needle replacement entries) =
      fillEntries needle replacement (Entries.insert name x entries) := by
  induction entries with
  | nil => simp [fillEntries, Entries.insert]
  | cons entry rest ih =>
    obtain ⟨key, value⟩ := entry
    by_cases hkey : key = name <;> simp [fillEntries, Entries.insert, hkey, ih]

theorem erase_fillEntries : Entries.erase name (fillEntries needle replacement entries) =
    fillEntries needle replacement (Entries.erase name entries) := by
  induction entries with
  | nil => simp [fillEntries, Entries.erase]
  | cons entry rest ih =>
    obtain ⟨key, value⟩ := entry
    by_cases hkey : key = name <;> simp [fillEntries, Entries.erase_cons, hkey, ih]

/-! ## Walking a filled tree -/

/-- **A step into a filled tree** comes to the filled form of what it came
to, or fails for the same cause. -/
theorem down_fillTrimmed {step : Step} : (fillTrimmed needle replacement v).down step =
    (v.down step).map (fillTrimmed needle replacement) := by
  obtain ⟨before, s, isLast⟩ := step
  cases s with
  | property name =>
    cases v with
    | null | bool | number | string | array => simp [fillTrimmed, down, Except.map]
    | object entries =>
      simp only [fillTrimmed_object, down, find?_fillEntries]
      cases Entries.find? name entries <;> rfl
  | index n =>
    cases v with
    | null | bool | number | string | object => simp [fillTrimmed, down, Except.map]
    | array items =>
      simp only [fillTrimmed_array, down, List.getElem?_map, List.length_map]
      cases items[n.toNat]? <;> rfl

theorem walk_fillTrimmed : walk previous p (fillTrimmed needle replacement v) =
    (walk previous p v).map (fillTrimmed needle replacement) := by
  induction p generalizing previous v with
  | nil => rfl
  | cons s rest ih =>
    rw [walk_cons, walk_cons, down_fillTrimmed]
    cases v.down ⟨previous, s, rest.isEmpty⟩ with
    | error cause => rfl
    | ok w => exact ih

theorem below?_fillTrimmed : (fillTrimmed needle replacement v).below? s =
    (v.below? s).map (fillTrimmed needle replacement) := by
  cases s with
  | property name =>
    cases v with
    | null | bool | number | string | array => simp [fillTrimmed, below?]
    | object entries =>
      rw [fillTrimmed_object, below?, below?]
      exact find?_fillEntries
  | index n =>
    cases v with
    | null | bool | number | string | object => simp [fillTrimmed, below?]
    | array items =>
      rw [fillTrimmed_array, below?, below?]
      exact List.getElem?_map

theorem putChild_fillTrimmed :
    (fillTrimmed needle replacement v).putChild s (fillTrimmed needle replacement x) =
      fillTrimmed needle replacement (v.putChild s x) := by
  cases s with
  | property name =>
    cases v with
    | null | bool | number | string | array => simp [fillTrimmed, putChild]
    | object entries =>
      rw [fillTrimmed_object, putChild, putChild, fillTrimmed_object, insert_fillEntries]
  | index n =>
    cases v with
    | null | bool | number | string | object => simp [fillTrimmed, putChild]
    | array items =>
      rw [fillTrimmed_array, putChild, putChild, fillTrimmed_array, List.map_set]

theorem dropChild?_fillTrimmed : (fillTrimmed needle replacement v).dropChild? s =
    (v.dropChild? s).map (fillTrimmed needle replacement) := by
  cases s with
  | property name =>
    cases v with
    | null | bool | number | string | array => simp [fillTrimmed, dropChild?]
    | object entries =>
      rw [fillTrimmed_object, dropChild?, dropChild?, find?_fillEntries, Option.isSome_map]
      split
      · rw [Option.map_some, fillTrimmed_object, erase_fillEntries]
      · rfl
  | index n =>
    cases v with
    | null | bool | number | string | object => simp [fillTrimmed, dropChild?]
    | array items =>
      rw [fillTrimmed_array, dropChild?, dropChild?, List.length_map]
      split
      · rw [Option.map_some, fillTrimmed_array, List.eraseIdx_map]
      · rfl

theorem takeOut?_fillTrimmed : takeOut? p (fillTrimmed needle replacement v) =
    (takeOut? p v).map (fillTrimmed needle replacement) := by
  induction p generalizing v with
  | nil => rfl
  | cons s rest ih =>
    by_cases hrest : rest = []
    · subst hrest
      exact dropChild?_fillTrimmed
    · rw [takeOut?_cons hrest, takeOut?_cons hrest, below?_fillTrimmed]
      cases v.below? s with
      | none => rfl
      | some inner =>
        rw [Option.map_some, Option.bind_some, Option.bind_some, ih]
        cases takeOut? rest inner with
        | none => rfl
        | some left => exact congrArg some putChild_fillTrimmed

theorem get_fillTrimmed : get p (fillTrimmed needle replacement v) =
    (get p v).map (fillTrimmed needle replacement) :=
  walk_fillTrimmed

theorem remove_fillTrimmed : remove p (fillTrimmed needle replacement v) =
    (remove p v).map (fillTrimmed needle replacement) := by
  by_cases hp : p = []
  · subst hp
    rfl
  · have hempty : ¬ p.isEmpty = true := by simpa using hp
    rw [remove, remove, if_neg hempty, if_neg hempty, get_fillTrimmed, takeOut?_fillTrimmed]
    cases get p v with
    | error cause => rfl
    | ok x => cases takeOut? p v <;> rfl

/-! ## Filling a placeholder -/

/-- **What filling a placeholder keeps.** A path leads to the filled form of
what it led to, and a removal leaves the filled form of what it left; where
they fail they fail for the same cause. A string that is the placeholder,
blanks aside, becomes the replacement, and every other scalar stays.
Mappings keep their names in order and sequences their length. Filling
twice is filling once, and two placeholders are filled in either order if
neither replacement is the other placeholder. -/
theorem fill_structure (placeholder replacement : String) (config : Value) :
    (∀ p, get p (fill placeholder replacement config) =
      (get p config).map (fill placeholder replacement)) ∧
    (∀ p, remove p (fill placeholder replacement config) =
      (remove p config).map (fill placeholder replacement)) ∧
    (∀ p text, get p config = .ok (.string text) →
      get p (fill placeholder replacement config) = .ok (.string
        (if Text.trim text.toList = Text.trim placeholder.toList then replacement else text))) ∧
    (∀ p x, get p config = .ok x → x.length? = none → (∀ text, x ≠ .string text) →
      get p (fill placeholder replacement config) = .ok x) ∧
    (∀ p entries, get p config = .ok (.object entries) → ∃ filled,
      get p (fill placeholder replacement config) = .ok (.object filled) ∧
        Entries.names filled = Entries.names entries) ∧
    (∀ p items, get p config = .ok (.array items) → ∃ filled,
      get p (fill placeholder replacement config) = .ok (.array filled) ∧
        filled.length = items.length) ∧
    fill placeholder replacement (fill placeholder replacement config) =
      fill placeholder replacement config ∧
    ∀ placeholder' replacement',
      Text.trim placeholder.toList ≠ Text.trim placeholder'.toList →
      Text.trim replacement.toList ≠ Text.trim placeholder'.toList →
      Text.trim replacement'.toList ≠ Text.trim placeholder.toList →
      fill placeholder' replacement' (fill placeholder replacement config) =
        fill placeholder replacement (fill placeholder' replacement' config) := by
  have hget (p : Path) : get p (fill placeholder replacement config) =
      (get p config).map (fill placeholder replacement) := get_fillTrimmed
  refine ⟨hget, fun p => remove_fillTrimmed, fun p text h => ?_, fun p x h hlength hstring => ?_,
    fun p entries h => ?_, fun p items h => ?_, fillTrimmed_fillTrimmed config,
    fun placeholder' replacement' hne h h' => fillTrimmed_comm hne h h' config⟩
  · rw [hget, h]
    exact congrArg Except.ok (fillTrimmed_string text)
  · rw [hget, h]
    exact congrArg Except.ok (fillTrimmed_of_scalar hlength hstring)
  · refine ⟨fillEntries (Text.trim placeholder.toList) replacement entries, ?_, names_fillEntries⟩
    rw [hget, h]
    exact congrArg Except.ok fillTrimmed_object
  · refine ⟨items.map (fill placeholder replacement), ?_, List.length_map _⟩
    rw [hget, h]
    exact congrArg Except.ok fillTrimmed_array

/-- Two placeholders in a sequence. -/
def placeholders : Value :=
  .object [("a", .array [.string "$X ", .string "$Y", .null])]

/-- A replacement that is the placeholder again, with a blank in front of
it, and one for the other placeholder. -/
theorem fill_structure_of_placeholders :
    get [.property "a", .index 0] (fill "$X" " $X" placeholders) = .ok (.string " $X") ∧
    get [.property "a", .index 2] (fill "$X" " $X" placeholders) = .ok .null ∧
    (∃ filled, get [.property "a"] (fill "$X" " $X" placeholders) = .ok (.array filled) ∧
      filled.length = 3) ∧
    (∃ filled, get [] (fill "$X" " $X" placeholders) = .ok (.object filled) ∧
      Entries.names filled = ["a"]) ∧
    fill "$Y" "z" (fill "$X" " $X" placeholders) =
      fill "$X" " $X" (fill "$Y" "z" placeholders) := by
  obtain ⟨-, -, hstring, hscalar, hmapping, hsequence, -, hcomm⟩ :=
    fill_structure "$X" " $X" placeholders
  refine ⟨?_, ?_, hsequence [.property "a"] _ rfl, hmapping [] _ rfl, ?_⟩
  · rw [hstring [.property "a", .index 0] "$X " rfl, if_pos (by decide +kernel)]
  · exact hscalar _ _ rfl rfl fun text h => by cases h
  · exact hcomm "$Y" "z" (by decide +kernel) (by decide +kernel) (by decide +kernel)

end Value

end ConfigPatch
