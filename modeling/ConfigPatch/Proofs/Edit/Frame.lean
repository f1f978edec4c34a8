import ConfigPatch.Proofs.Edit.Inverse
import ConfigPatch.Proofs.Literal.Tidy

/-!
# What an edit leaves alone

An edit of a path starts behind the bracket that opens the exported
literal, so the header of the file stays as it is. In a tidy file it ends
in front of the bracket that closes the literal, and the trailer stays as
well. The literal, and each literal in it, is closed by a search that goes
on to the end of the file: where the brackets of a file do not nest, an
edit may go past the end of the literal.
-/

namespace ConfigPatch

open Lexical

namespace Edit

variable {options : Options} {s : String} {p : Path} {value : String} {edit : Edit}

/-- **An edit of a path stays in the exported literal.** Up to the bracket
that opens it nothing changes, and from the bracket that closes it on
nothing changes if it is tidy. -/
theorem setText_within (h : setText options s p value = .ok edit) :
    ∃ literal t, Literal.exported options s = .ok literal ∧ edit.applyTo? s = some t ∧
      literal.span.start < edit.span.start ∧
      (Text.bytes t).take literal.headerEnd = (Text.bytes s).take literal.headerEnd ∧
      (Literal.isTidy (Text.bytes s) literal.span = true →
        edit.span.stop < literal.span.stop ∧
        (Text.bytes s).drop (literal.span.stop - 1) <:+ Text.bytes t) := by
  have hfits := fits_of_setText h
  obtain ⟨span, old, hspan, -, rfl⟩ := setLiteral_eq_ok.1 h
  obtain ⟨x, rfl, happly, -, hold, -⟩ := hfits.exists_replacement
  obtain ⟨literal, hliteral, hstart, hall⟩ := Literal.exists_exported_of_find hspan
  dsimp only at hold
  subst hold
  refine ⟨literal, x.outcome, hliteral, happly, hstart, x.take_bytes hstart, fun htidy => ?_⟩
  have hstop := (hall htidy).2.stop_lt
  refine ⟨hstop, ?_⟩
  obtain ⟨k, hk⟩ : ∃ k, literal.span.stop - 1 = x.oldStop + k :=
    ⟨literal.span.stop - 1 - x.oldStop, by dsimp only at hstop; omega⟩
  rw [hk, x.drop_bytes_source, ← x.drop_bytes_outcome]
  exact List.drop_suffix _ _

/-- A mapping in parentheses, with a bracket in a comment and a regular
expression, and a trailer that has brackets. -/
def tidySample : String :=
  "export default (\x7b a: [1], /* ] */ b: /\\/\\// \x7d); a[0] = 1\n"

theorem setText_within_parentheses :
    ∃ edit literal t, setText {} tidySample [.property "a"] "x" = .ok edit ∧
      Literal.exported {} tidySample = .ok literal ∧
      Literal.isTidy (Text.bytes tidySample) literal.span = true ∧
      edit.applyTo? tidySample = some t ∧
      literal.span.start < edit.span.start ∧ edit.span.stop < literal.span.stop ∧
      (Text.bytes tidySample).drop (literal.span.stop - 1) <:+ Text.bytes t := by
  have hset : setText {} tidySample [.property "a"] "x" =
      .ok ⟨.path "a", ⟨21, 24⟩, "[1]", "\"x\""⟩ := by
    decide +kernel
  have htidy : Literal.isTidy (Text.bytes tidySample) ⟨15, 46⟩ = true := by
    decide +kernel
  have hliteral : Literal.exported {} tidySample = .ok ⟨.exportDefault, none, ⟨15, 46⟩⟩ := by
    decide +kernel
  obtain ⟨literal, t, hexported, happly, hstart, -, hall⟩ := setText_within hset
  rw [hliteral] at hexported
  cases hexported
  obtain ⟨hstop, hsuffix⟩ := hall htidy
  exact ⟨_, _, t, hset, hliteral, htidy, happly, hstart, hstop, hsuffix⟩

/-- Two regular expressions with a bracket, one in the literal and one
behind it. -/
def untidySample : String :=
  "export default \x7b a: [/\\[/] \x7d;\nconst close = /\\]/;\n"

/-- **A bracket in a regular expression may take an edit past the end of
the literal**, and with it what stands there. -/
theorem setText_past_literal :
    ∃ edit literal, setText {} untidySample [.property "a"] "x" = .ok edit ∧
      Literal.exported {} untidySample = .ok literal ∧
      literal.span = ⟨15, 28⟩ ∧ edit.span = ⟨20, 47⟩ ∧
      edit.applyTo? untidySample = some "export default \x7b a: \"x\"/;\n" := by
  refine ⟨⟨.path "a", ⟨20, 47⟩, "[/\\[/] \x7d;\nconst close = /\\]", "\"x\""⟩,
    ⟨.exportDefault, none, ⟨15, 28⟩⟩, ?_, ?_, rfl, rfl, ?_⟩ <;> decide +kernel

end Edit

end ConfigPatch
