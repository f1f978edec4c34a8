import ConfigPatch.Edit.Plan
import ConfigPatch.Proofs.Literal.Boundary
import ConfigPatch.Proofs.Placeholder.Plan

/-!
# Planning cuts no character

What a path leads to lies in the text, and an edit for a placeholder can
always be cut out. An edit for a path can as long as the way leads through
properties, since a value with something below it is narrowed to its
literal. An item is not: whatever it ends with, its last byte is dropped
for the closing bracket before the next step. If that byte is not all of a
character of code, the next step may cut where the text cannot be cut.
-/

namespace ConfigPatch

namespace Literal

open Lexical

variable {options : Options} {s : String} {p q : Path} {span outer inner item found : Span}
variable {offset layers : Nat} {name : String} {n : UInt64}

/-! ## Steps -/

/-- **A property** is found without a bad cut, and so is what is below
it. -/
theorem clean_property? (h : IsCutOut s span) (hinner : InnerFits s span) :
    Failure.Clean (fun found => ∀ inner ∈ found, IsCutOut s inner ∧ InnerFits s inner)
      (property? s span name) := by
  unfold property?
  dsimp only
  split
  · exact .ok fun inner hfound => nomatch hfound
  · rename_i hbrace
    obtain ⟨hregion, hcode⟩ := isCut_inner h hinner (Decidable.not_not.1 hbrace) (by decide)
    rw [items?_of_le hregion.le_length, Failure.ofCut_some, Failure.ok_bind]
    have hread (item : Span) (hitem : item ∈ items (Text.bytes s) span.inner) :
        Failure.Clean (fun found => ∀ entry ∈ found, IsCutOut s entry.value)
          (Entry.read? s item) :=
      clean_read? (isCutOut_of_mem_items hregion hitem)
        (kind_of_mem_items hregion.le hregion.le_length hcode hitem)
    refine (Failure.Clean.mapM hread).bind fun entries _ hentries => ?_
    split
    · exact .ok fun inner hfound => nomatch hfound
    · rename_i entry hlast
      have hentry := (mem_named.1 (List.mem_of_getLast? hlast)).1
      refine (Failure.clean_ofExcept fun found hfound =>
        isCutOut_of_narrow (hentries _ hentry entry rfl) hfound).bind fun found _ hfound => ?_
      refine .ok fun inner hinner => ?_
      cases hinner
      exact hfound

/-- **An item** is found without a bad cut. -/
theorem clean_item? (h : IsCutOut s span) (hinner : InnerFits s span) :
    Failure.Clean (fun found => ∀ inner ∈ found, IsCutOut s inner) (item? s span n) := by
  unfold item?
  dsimp only
  split
  · exact .ok fun inner hfound => nomatch hfound
  · rename_i hsquare
    obtain ⟨hregion, -⟩ := isCut_inner h hinner (Decidable.not_not.1 hsquare) (by decide)
    rw [items?_of_le hregion.le_length, Failure.ofCut_some, Failure.ok_bind]
    exact .ok fun inner hinner => isCutOut_of_mem_items hregion (List.mem_of_getElem? hinner)

/-- **One step of a path.** -/
theorem clean_down {step : Step} (h : IsCutOut s outer) (hinner : InnerFits s outer) :
    Failure.Clean (fun inner => IsCutOut s inner ∧
      ∀ name, step.segment = .property name → InnerFits s inner) (down s p outer step) := by
  obtain ⟨previous, segment, isLast⟩ := step
  unfold down
  cases segment with
  | property name =>
    refine (clean_property? h hinner).bind fun found _ hfound => ?_
    cases found with
    | none => exact .refused
    | some inner =>
      obtain ⟨hcut, hfits⟩ := hfound inner rfl
      exact .ok ⟨hcut, fun _ _ => hfits⟩
  | index n =>
    refine (clean_item? h hinner).bind fun found _ hfound => ?_
    cases found with
    | none => exact .refused
    | some inner => exact .ok ⟨hfound inner rfl, nofun⟩

/-! ## Paths -/

/-- **A walk cuts no character** if it goes on only from items whose inside
can be cut out. -/
theorem clean_foldlM {previous : Option Segment} (h : IsCutOut s outer)
    (hinner : p ≠ [] → InnerFits s outer)
    (hitems : ∀ front n rest item, p = front ++ .index n :: rest → rest ≠ [] →
      Walks s outer (front ++ [.index n]) item → InnerFits s item) :
    Failure.Clean (IsCutOut s) ((Path.stepsFrom previous p).foldlM (down s q) outer) := by
  induction p generalizing outer previous with
  | nil => exact .ok h
  | cons segment p ih =>
    rw [Path.stepsFrom, List.foldlM_cons]
    refine (clean_down h (hinner (List.cons_ne_nil _ _))).bind fun middle hdown hmiddle => ?_
    have hbelow : Below s outer segment middle := down_eq_ok.1 hdown
    refine ih hmiddle.1 (fun hp => ?_) fun front n rest item hp hrest hwalk => ?_
    · cases segment with
      | property name => exact hmiddle.2 name rfl
      | index n => exact hitems [] n p middle rfl hp (.cons hbelow .nil)
    · exact hitems (segment :: front) n rest item (congrArg _ hp) hrest (.cons hbelow hwalk)

/-- The mapping in a literal is a literal. -/
theorem clean_unwrap (h : spanAt (Text.bytes s) offset = .ok span) :
    Failure.Clean (fun found => ∀ inner ∈ found, ∃ opening,
      spanAt (Text.bytes s) opening = .ok inner) (unwrap (Text.bytes s) layers span) := by
  induction layers generalizing offset span with
  | zero => exact .ok fun inner hfound => nomatch hfound
  | succ layers ih =>
    have hbounds := bounds_of_spanAt h
    obtain ⟨hstart, hstop⟩ := inner_eq (show span.start < span.stop by omega)
    have hstop' := hstop hbounds.2.1
    rw [unwrap]
    split
    · refine .ok fun inner hfound => ?_
      cases hfound
      exact ⟨offset, h⟩
    · dsimp only
      rw [triviaEnd?_of_le (by omega) (by omega), Failure.ofCut_some, Failure.ok_bind]
      split
      · exact .ok fun inner hfound => nomatch hfound
      · refine (Failure.clean_ofExcept fun inner hinner => hinner).bind fun inner _ hinner => ?_
        exact ih hinner
    · exact .ok fun inner hfound => nomatch hfound

/-- **The mapping that a file exports** can be cut out, and so can its
inside. -/
theorem clean_root :
    Failure.Clean (fun span => IsCutOut s span ∧ InnerFits s span) (root options s) := by
  unfold root
  refine (Failure.clean_ofExcept fun literal hliteral => hliteral).bind
    fun literal _ hliteral => ?_
  obtain ⟨statement, opening, span, b, -, -, -, -, hspan, rfl⟩ := exported_eq_ok.1 hliteral
  refine (clean_unwrap hspan).bind fun found _ hfound => ?_
  cases found with
  | none => exact .refused
  | some inner =>
    obtain ⟨opening, hinner⟩ := hfound inner rfl
    exact .ok (isCutOut_of_spanAt hinner)

/-- **What a path leads to lies in the text.** -/
theorem Below.inText {segment : Segment} (houter : InText (Text.bytes s) outer)
    (h : Below s outer segment inner) : InText (Text.bytes s) inner := by
  obtain ⟨hle, hlen⟩ := houter
  obtain ⟨-, item, hitem, hcase⟩ := h.exists_item
  have hbounds := bounds_of_mem_items_inner hitem
  rcases hcase with rfl | ⟨entry, hentry, hnarrow⟩
  · exact ⟨by omega, by omega⟩
  · have hvalue := read?_bounds hentry
    rcases narrow_eq_ok hnarrow with rfl | hspan
    · exact ⟨by omega, by omega⟩
    · have hends := bounds_of_spanAt hspan
      exact ⟨by omega, by omega⟩

theorem Walks.inText (h : Walks s outer p inner) (houter : InText (Text.bytes s) outer) :
    InText (Text.bytes s) inner := by
  induction h with
  | nil => exact houter
  | cons hbelow _ ih => exact ih (hbelow.inText houter)

theorem inText_of_find (h : find options s p = .ok found) : InText (Text.bytes s) found := by
  obtain ⟨-, span, hroot, hwalk⟩ := find_eq_ok_walks.1 h
  obtain ⟨hcut, -⟩ := clean_root.of_eq_ok hroot
  exact hwalk.inText ⟨hcut.le, hcut.le_length⟩

/-- Whether the inside of each item that a path goes on from can be cut
out and ends in code. -/
def ItemsFit (options : Options) (s : String) (p : Path) : Prop :=
  ∀ front n rest item, p = front ++ .index n :: rest → rest ≠ [] →
    find options s (front ++ [.index n]) = .ok item → InnerFits s item

theorem clean_find (h : ItemsFit options s p) :
    Failure.Clean (IsCutOut s) (find options s p) := by
  unfold find
  split
  · exact .refused
  · refine clean_root.bind fun span hroot hspan => ?_
    refine clean_foldlM hspan.1 (fun _ => hspan.2) fun front n rest item hp hrest hwalk => ?_
    refine h front n rest item hp hrest (find_eq_ok_walks.2 ⟨?_, span, hroot, hwalk⟩)
    exact List.append_ne_nil_of_right_ne_nil front (List.cons_ne_nil _ _)

end Literal

namespace Edit

open Literal

variable {options : Options} {s placeholder replacement : String}

/-! ## Edits -/

/-- **An edit for a placeholder** can always be cut out. -/
theorem exists_plan : ∃ edit, Placeholder.plan options s placeholder replacement = .ok edit ∧
    ∀ e ∈ edit, IsCutOut s e.span := by
  by_cases hempty : placeholder = ""
  · refine ⟨none, ?_, nofun⟩
    rw [hempty]
    rfl
  · cases hliteral : exported options s with
    | error cause => exact ⟨none, Placeholder.plan_of_error hliteral, nofun⟩
    | ok literal =>
      obtain ⟨region, n, -, -, hplan⟩ := Placeholder.plan_eq hempty hliteral
      refine ⟨_, (hplan replacement).2, ?_⟩
      obtain ⟨statement, opening, span, b, -, -, -, -, hspan, rfl⟩ := exported_eq_ok.1 hliteral
      split
      · nofun
      · intro e he
        cases he
        exact (isCutOut_of_spanAt hspan).1

/-- **Locating and planning cut a text between two characters only**, if
the inside of each item that the path goes on from can be cut out and ends
in code. What is found lies in the text in any case, and an edit for a
placeholder needs no condition. -/
theorem plans_cut (options : Options) (s : String) (p : Path)
    (value placeholder replacement : String) :
    (ItemsFit options s p → Failure.Clean (IsCutOut s) (find options s p) ∧
      Failure.Clean (fun edit => IsCutOut s edit.span) (setText options s p value)) ∧
    (∀ span, find options s p = .ok span → InText (Text.bytes s) span) ∧
    ∃ edit, Placeholder.plan options s placeholder replacement = .ok edit ∧
      ∀ e ∈ edit, IsCutOut s e.span := by
  refine ⟨fun hitems => ?_, fun span => inText_of_find, exists_plan⟩
  have hfind := clean_find hitems
  refine ⟨hfind, hfind.bind fun span _ hspan => ?_⟩
  obtain ⟨old, hold⟩ := hspan.exists_slice?
  rw [hold]
  exact .ok hspan

/-- A mapping in a sequence, and a character of two bytes in it. -/
def wideSample : String := "export default \x7b a: [\x7b b: \"é\" \x7d] \x7d"

theorem plans_cut_item :
    ItemsFit {} wideSample [.property "a", .index 0, .property "b"] ∧
    find {} wideSample [.property "a", .index 0, .property "b"] = .ok ⟨26, 30⟩ ∧
    IsCutOut wideSample ⟨26, 30⟩ ∧ InText (Text.bytes wideSample) ⟨26, 30⟩ := by
  have hitem : find {} wideSample [.property "a", .index 0] = .ok ⟨21, 32⟩ := by
    decide +kernel
  have hfound : find {} wideSample [.property "a", .index 0, .property "b"] = .ok ⟨26, 30⟩ := by
    decide +kernel
  have hfits : ItemsFit {} wideSample [.property "a", .index 0, .property "b"] := by
    intro front n rest item hp hrest hfind
    obtain ⟨rfl, rfl⟩ : front = [.property "a"] ∧ n = 0 := by
      rcases front with _ | ⟨first, _ | ⟨second, _ | ⟨third, front⟩⟩⟩ <;> simp_all
    rw [List.singleton_append, hitem] at hfind
    cases hfind
    refine fun _ _ _ => ⟨?_, by decide⟩
    exact ⟨"export default \x7b a: [\x7b b: \"é\" ".toList, "\x7d] \x7d".toList,
      by decide, by decide⟩
  obtain ⟨hclean, hinside, -⟩ := plans_cut {} wideSample
    [.property "a", .index 0, .property "b"] "" "" ""
  obtain ⟨hcut, -⟩ := hclean hfits
  exact ⟨hfits, hfound, hcut.of_eq_ok hfound, hinside _ hfound⟩

/-- **A character of two bytes at the end of an item is cut in two**: the
second of its bytes is dropped for the closing bracket. -/
theorem plans_cut_inside_character :
    find {} "export default \x7b a: [\x7b b: 1 \x7d as Café] \x7d" [.property "a", .index 0] =
      .ok ⟨21, 38⟩ ∧
    find {} "export default \x7b a: [\x7b b: 1 \x7d as Café] \x7d"
      [.property "a", .index 0, .property "b"] = .error .misplaced ∧
    find {} "export default \x7b a: [[1]é] \x7d" [.property "a", .index 0, .index 0] =
      .ok ⟨22, 25⟩ ∧
    Text.slice? "export default \x7b a: [[1]é] \x7d" 22 25 = none := by
  refine ⟨?_, ?_, ?_, by decide⟩ <;> decide +kernel

end Edit

end ConfigPatch
