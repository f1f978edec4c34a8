import ConfigPatch.Proofs.Edit.Inverse
import ConfigPatch.Proofs.Literal.Root
import ConfigPatch.Proofs.Text.Quoted

/-!
# Setting a string again

The edited file is scanned from nothing, and the byte in front of a slash
tells whether a comment opens there. So a string is found where it was put
only if the text is legible along the path. Then it is, and the same edit
once more changes nothing.
-/

namespace ConfigPatch

open Lexical

/-! ## Strings -/

namespace Text

/-- **The string literal of a text** is one line in quotes. -/
theorem exists_quoted (style : Quotes) (cs : List Char) :
    (∃ quote inside, quoted style cs = quote :: (inside ++ [quote]) ∧
      Literal.isStop quote = true ∧ '\n' ∉ inside) ∧
    ∃ quote inside, isQuote quote = true ∧ isInside quote inside = true ∧
      utf8 (quoted style cs) = inQuotes quote inside := by
  have hstop : Literal.isStop style.char = true := by
    cases style <;> decide
  exact ⟨⟨style.char, _, rfl, hstop, (notMem_flatMap_escape style cs).1⟩,
    exists_utf8_quoted style cs⟩

end Text

/-! ## Finding the string -/

namespace Literal

variable {options : Options} {s : String} {p : Path} {span : Span} {x : Text.Replacement}

/-- **The string is found** where the part was. -/
theorem find_outcome
    (hline : ∃ quote inside, x.new = quote :: (inside ++ [quote]) ∧ isStop quote = true ∧
      '\n' ∉ inside)
    (hnew : ∃ quote inside, isQuote quote = true ∧ isInside quote inside = true ∧
      Text.utf8 x.new = inQuotes quote inside)
    (hfind : find options x.source p = .ok ⟨x.start, x.oldStop⟩)
    (hlegible : isLegible options x.source p = true) :
    find options x.outcome p = .ok ⟨x.start, x.newStop⟩ := by
  obtain ⟨hp, outer, hroot, hwalk⟩ := find_eq_ok.1 hfind
  have hsteps := steps_ne_nil hp
  obtain ⟨literal, -, -, -, hfrom⟩ := of_isLegible hroot hlegible
  -- the last step tells what stands on either side of the part
  obtain ⟨last, step, hdown, hcode, hreplaceable⟩ := exists_last_step hsteps hwalk hfrom
  obtain ⟨hfenced, hspace⟩ := fenced_of_down hdown hcode
  have hmarked := IsMarked.of_isFenced hline hfenced hreplaceable
  have hexchange := IsExchange.of_isReplaceable hnew hreplaceable hspace
  -- and the walk that led there leads there again
  obtain ⟨n, ms, hstop, hleads, houtcome⟩ := hexchange.foldlM_outcome hsteps hwalk hfrom
  exact find_eq_ok.2 ⟨hp, _, hexchange.root_outcome hmarked hroot hlegible hleads hstop, houtcome⟩

end Literal

/-! ## Setting it again -/

namespace Edit

variable {options : Options} {s : String} {p : Path} {value source : String} {edit : Edit}

/-- An edit that puts back what it removes changes nothing. -/
theorem Fits.applyTo?_self (h : edit.Fits s) (hsame : edit.inserted = edit.removed) :
    edit.applyTo? s = some s := by
  obtain ⟨before, after, hs, hstart, hstop⟩ := h.exists_parts
  rw [applyTo?_of_parts hs hstart hstop, hsame, ← hs, String.ofList_toList]

/-- **A string that is set is found where it was put**, in a text that is
legible along the path, and setting it again changes nothing. -/
theorem setText_again (h : setText options s p value = .ok edit)
    (hvalue : Literal.isSource value.toList = false)
    (hlegible : Literal.isLegible options s p = true) :
    ∃ t, edit.applyTo? s = some t ∧ Literal.find options t p = .ok edit.insertedSpan ∧
      ∃ again, setText options t p value = .ok again ∧ again.applyTo? t = some t := by
  have hfits := fits_of_setText h
  obtain ⟨span, old, hspan, -, rfl⟩ := setLiteral_eq_ok.1 h
  obtain ⟨x, rfl, happly, hnew, hold, hinserted⟩ := hfits.exists_replacement
  have hquoted : x.new = Text.quoted options.quote value.toList := by
    rw [hnew]
    dsimp only
    rw [Literal.ofText, hvalue, if_neg Bool.false_ne_true, String.toList_ofList]
  obtain ⟨hline, hinside⟩ := Text.exists_quoted options.quote value.toList
  rw [← hquoted] at hline hinside
  dsimp only at hold
  rw [hold] at hspan
  have hfind : Literal.find options x.outcome p = .ok _ :=
    Literal.find_outcome hline hinside hspan hlegible
  have hagain := hfits.inverse happly
  refine ⟨x.outcome, happly, ?_, _, setLiteral_eq_ok.2 ⟨_, _, ?_, hagain, rfl⟩, ?_⟩
  · rw [hfind, hinserted]
  · rw [hfind, Edit.inverse, hinserted]
  · exact Fits.applyTo?_self hagain rfl

/-- In parentheses, between comments, as the value of an entry and in a
sequence. -/
theorem setText_again_nested :
    ∃ edit t again, setText {} "export default (\x7b a: [0, \x7b b: [1] /* one */ \x7d] \x7d)"
        [.property "a", .index 1, .property "b"] "two" = .ok edit ∧
      Literal.isSource "two".toList = false ∧
      Literal.isLegible {} "export default (\x7b a: [0, \x7b b: [1] /* one */ \x7d] \x7d)"
        [.property "a", .index 1, .property "b"] = true ∧
      edit.applyTo? "export default (\x7b a: [0, \x7b b: [1] /* one */ \x7d] \x7d)" = some t ∧
      Literal.find {} t [.property "a", .index 1, .property "b"] = .ok edit.insertedSpan ∧
      setText {} t [.property "a", .index 1, .property "b"] "two" = .ok again ∧
      again.applyTo? t = some t := by
  have hset : setText {} "export default (\x7b a: [0, \x7b b: [1] /* one */ \x7d] \x7d)"
      [.property "a", .index 1, .property "b"] "two" =
      .ok ⟨.path "a[1].b", ⟨30, 33⟩, "[1]", "\"two\""⟩ := by
    decide +kernel
  have hvalue : Literal.isSource "two".toList = false := by
    decide
  have hlegible : Literal.isLegible {} "export default (\x7b a: [0, \x7b b: [1] /* one */ \x7d] \x7d)"
      [.property "a", .index 1, .property "b"] = true := by
    decide +kernel
  obtain ⟨t, ht, hfind, again, hagain, hsame⟩ := setText_again hset hvalue hlegible
  exact ⟨_, t, again, hset, hvalue, hlegible, ht, hfind, hagain, hsame⟩

/-- **A string in the place of a literal with more behind it is not found
where it was put**: the value is then read to its end, and setting it again
takes that away. -/
theorem setText_again_before_call :
    ∃ edit t again span,
      setText {} "export default \x7b a: [1].concat(b) \x7d" [.property "a"] "x" = .ok edit ∧
      edit.applyTo? "export default \x7b a: [1].concat(b) \x7d" = some t ∧
      Literal.find {} t [.property "a"] = .ok span ∧ span ≠ edit.insertedSpan ∧
      setText {} t [.property "a"] "x" = .ok again ∧ again.applyTo? t ≠ some t := by
  refine ⟨⟨.path "a", ⟨20, 23⟩, "[1]", "\"x\""⟩, "export default \x7b a: \"x\".concat(b) \x7d",
    ⟨.path "a", ⟨20, 33⟩, "\"x\".concat(b)", "\"x\""⟩, ⟨20, 33⟩, ?_, ?_, ?_, ?_, ?_, ?_⟩
  · decide +kernel
  · decide +kernel
  · decide +kernel
  · decide
  · decide +kernel
  · decide +kernel

end Edit

end ConfigPatch
