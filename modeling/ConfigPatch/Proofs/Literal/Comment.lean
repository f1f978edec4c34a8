import ConfigPatch.Proofs.Literal.Root

/-!
# A comment in front of a file

Export statements are looked for at the starts of lines, whether or not
the lines are in a comment. So the statements of a file with a comment in
front are those of the comment and those of the file, further on. A
comment up to the end of its line has none, and the exported literal only
moves. One that goes over several lines may have statements, and one that
the file has no better statement for hides the exported literal.
-/

namespace ConfigPatch

open Lexical

/-- The exported literal so many bytes further on. -/
def Exported.shift (k : Nat) (literal : Exported) : Exported :=
  { literal with span := literal.span.shift k }

namespace Literal

/-- Text in front of a file that the exported literal only moves
behind. -/
def IsMoved (options : Options) (front s : String) : Prop :=
  ∀ literal, exported options (front ++ s) = .ok literal ↔
    ∃ found, exported options s = .ok found ∧ literal = found.shift (Text.bytes front).length

variable {options : Options} {s k c : String} {statement : Statement} {span : Span}
variable {bytes front : List UInt8} {offset : Nat} {b : UInt8}

/-! ## Behind other bytes -/

theorem getElem?_shift : (front ++ bytes)[offset + front.length]? = bytes[offset]? := by
  rw [List.getElem?_append_right (Nat.le_add_left _ _), Nat.add_sub_cancel]

/-- The labels from an offset on do not depend on what stands before,
unless there is a slash. -/
theorem marksFrom_shift (hb : bytes[offset]? = some b) (hslash : b ≠ slash) :
    marksFrom (front ++ bytes) (offset + front.length) = marksFrom bytes offset := by
  rw [marksFrom, marksFrom, Nat.add_comm, List.drop_length_add_append]
  refine marks_code_eq ?_
  rw [List.head?_drop, hb, ne_eq, Option.some.injEq]
  exact hslash

/-- **A literal behind other bytes** is the same literal, further on. -/
theorem spanAt_shift : spanAt (front ++ bytes) (offset + front.length) = .ok span ↔
    ∃ inner, spanAt bytes offset = .ok inner ∧ span = inner.shift front.length := by
  have hclose {shape : Bracket} (hopener : bytes[offset]? = some shape.opener) :
      shape.closeFrom 0 (offset + front.length)
          (marksFrom (front ++ bytes) (offset + front.length)) =
        (shape.closeFrom 0 offset (marksFrom bytes offset)).map (· + front.length) := by
    rw [marksFrom_shift hopener (isSpace_opener shape).2, closeFrom_shift]
  rw [spanAt_eq_ok, getElem?_shift]
  constructor
  · rintro ⟨hstart, shape, hopener, hstop⟩
    rw [hclose hopener] at hstop
    obtain ⟨stop, hstop, heq⟩ := Option.map_eq_some_iff.1 hstop
    refine ⟨⟨offset, stop⟩, spanAt_eq_ok.2 ⟨rfl, shape, hopener, hstop⟩, ?_⟩
    rw [Span.shift, ← hstart, heq]
  · rintro ⟨inner, hinner, rfl⟩
    obtain ⟨rfl, shape, hopener, hstop⟩ := spanAt_eq_ok.1 hinner
    refine ⟨rfl, shape, hopener, ?_⟩
    rw [hclose hopener, hstop]
    rfl

theorem body_shift {n : Nat} :
    (statement.shift n).body options = statement.body options + n ∧
      ((statement.shift n).wrapper? options).map Prod.fst =
        (statement.wrapper? options).map Prod.fst := by
  obtain ⟨convention, start, stop, call⟩ := statement
  cases call with
  | none => exact ⟨rfl, rfl⟩
  | some call =>
    cases hname : call.1 == options.factory <;>
      simp [Statement.body, Statement.wrapper?, Statement.shift, Option.filter, hname]

/-- **The exported literal behind other text** is the same literal,
further on, if the statement that is preferred is the same one. -/
theorem exported_append
    (h : preferred? options (statements (k ++ s)) =
      (preferred? options (statements s)).map (Statement.shift (Text.bytes k).length)) :
    IsMoved options k s := by
  intro literal
  have htrivia (st : Statement) : triviaEnd (Text.bytes (k ++ s))
      (st.body options + (Text.bytes k).length) (Text.bytes (k ++ s)).length =
        triviaEnd (Text.bytes s) (st.body options) (Text.bytes s).length +
          (Text.bytes k).length := by
    rw [Text.bytes_append, List.length_append, Nat.add_comm (Text.bytes k).length, triviaEnd_shift]
  rw [exported_eq_ok]
  constructor
  · rintro ⟨moved, opening, span, b, hmoved, hopening, hb, hbody, hspan, rfl⟩
    rw [h] at hmoved
    obtain ⟨st, hst, rfl⟩ := Option.map_eq_some_iff.1 hmoved
    rw [body_shift.1, htrivia] at hopening
    subst hopening
    rw [Text.bytes_append, getElem?_shift] at hb
    rw [Text.bytes_append] at hspan
    obtain ⟨inner, hinner, rfl⟩ := spanAt_shift.1 hspan
    refine ⟨_, exported_eq_ok.2 ⟨st, _, inner, b, hst, rfl, hb, hbody, hinner, rfl⟩, ?_⟩
    rw [body_shift.2]
    rfl
  · rintro ⟨found, hfound, rfl⟩
    obtain ⟨st, opening, span, b, hst, rfl, hb, hbody, hspan, rfl⟩ := exported_eq_ok.1 hfound
    refine ⟨st.shift (Text.bytes k).length, _, span.shift (Text.bytes k).length, b, ?_, rfl, ?_,
      hbody, ?_, ?_⟩
    · rw [h, hst]
      rfl
    · rw [body_shift.1, htrivia, Text.bytes_append, getElem?_shift, hb]
    · rw [body_shift.1, htrivia, Text.bytes_append]
      exact spanAt_shift.2 ⟨span, hspan, rfl⟩
    · rw [body_shift.2]
      rfl

/-! ## The statements behind a comment -/

theorem isStop_slash : isStop '/' = true := by decide +kernel

/-- **A comment up to the end of its line** has no statements. -/
theorem statements_line (h : '\n' ∉ c.toList) :
    statements ("//" ++ c ++ "\n" ++ s) =
      (statements s).map (Statement.shift (Text.bytes ("//" ++ c ++ "\n")).length) := by
  have htext : ("//" ++ c ++ "\n" ++ s).toList =
      ('/' :: '/' :: c.toList) ++ '\n' :: s.toList := by
    simp
  have hlen : (Text.bytes ("//" ++ c ++ "\n")).length =
      0 + (Text.utf8 ('/' :: '/' :: c.toList)).length + ('\n').utf8Size := by
    simp [Text.bytes, Text.utf8_append, Nat.add_assoc]
  have hnone (ds : List Char) : readStatement? 0 ('/' :: ds) = none := by
    have hread : readStatement? 0 ([] ++ '/' :: ds) = readStatement? 0 [] :=
      readStatement?_stop isStop_slash
    exact hread
  rw [statements, htext, statementsFrom_line (by simp [h]) fun _ => hnone _, hlen]
  exact statementsFrom_eq_map

/-- **A comment over several lines** has the statements that its lines
have. -/
theorem statements_block :
    statements ("/*" ++ c ++ "*/\n" ++ s) = statements ("/*" ++ c ++ "*/\n") ++
      (statements s).map (Statement.shift (Text.bytes ("/*" ++ c ++ "*/\n")).length) := by
  have htext (s : String) : ("/*" ++ c ++ "*/\n" ++ s).toList =
      ("/*" ++ c ++ "*").toList ++ '/' :: '\n' :: s.toList := by
    simp
  have hlen : (Text.bytes ("/*" ++ c ++ "*/\n")).length =
      0 + (Text.utf8 ("/*" ++ c ++ "*").toList).length + ('/').utf8Size + ('\n').utf8Size := by
    simp [Text.bytes, Text.utf8_append, Nat.add_assoc]
  have hfront (s : String) : statements ("/*" ++ c ++ "*/\n" ++ s) =
      statementsFrom 0 0 true ("/*" ++ c ++ "*").toList ++
        (statements s).map (Statement.shift (Text.bytes ("/*" ++ c ++ "*/\n")).length) := by
    rw [statements, htext, statementsFrom_stop isStop_slash (Nat.zero_le _),
      statementsFrom_cons fun h => absurd h Bool.false_ne_true, hlen]
    exact congrArg _ statementsFrom_eq_map
  have hempty := hfront ""
  rw [String.append_empty] at hempty
  have hnil : statements "" = [] := rfl
  rw [hfront, hempty, hnil, List.map_nil, List.append_nil]

/-! ## The exported literal behind a comment -/

/-- **A comment in front of a file.** The exported literal only moves
behind a comment up to the end of its line, and behind one over several
lines if a statement of the file outranks each that the comment has. If
none outranks one of the comment, it is in the comment that the literal
is looked for. -/
theorem exported_behind_comment (options : Options) (c s : String) :
    ('\n' ∉ c.toList → IsMoved options ("//" ++ c ++ "\n") s) ∧
    ((∀ inside ∈ statements ("/*" ++ c ++ "*/\n"), ∃ own ∈ statements s,
        own.precedence options < inside.precedence options) →
      IsMoved options ("/*" ++ c ++ "*/\n") s) ∧
    ∀ inside ∈ statements ("/*" ++ c ++ "*/\n"),
      (∀ own ∈ statements s, inside.precedence options ≤ own.precedence options) →
      preferred? options (statements ("/*" ++ c ++ "*/\n" ++ s)) =
        preferred? options (statements ("/*" ++ c ++ "*/\n")) := by
  refine ⟨fun hline => exported_append ?_, fun houtranked => exported_append ?_,
    fun inside hinside hleast => ?_⟩
  · rw [statements_line hline, preferred?_map_shift]
  · rw [statements_block, preferred?_append_of_lt, preferred?_map_shift]
    intro other hother
    obtain ⟨own, hown, hlt⟩ := houtranked other hother
    refine ⟨_, List.mem_map_of_mem hown, ?_⟩
    rwa [precedence_shift]
  · rw [statements_block, preferred?_append_of_le hinside]
    intro moved hmoved
    obtain ⟨own, hown, rfl⟩ := List.mem_map.1 hmoved
    rw [precedence_shift]
    exact hleast own hown

/-- A statement behind slashes, one in a comment that the statement of the
file outranks, and one that it does not. -/
theorem exported_behind_comment_sample :
    IsMoved {} ("//" ++ "export default { old: 1 }" ++ "\n") "export default { current: 2 }\n" ∧
    IsMoved {} ("/*" ++ "\nmodule.exports = { old: 1 }\n" ++ "*/\n")
      "export default { current: 2 }\n" ∧
    preferred? {} (statements ("/*" ++ "\nexport default { old: 1 }\n" ++ "*/\n" ++
        "export default { current: 2 }\n")) =
      preferred? {} (statements ("/*" ++ "\nexport default { old: 1 }\n" ++ "*/\n")) := by
  refine ⟨(exported_behind_comment {} _ _).1 (by decide +kernel),
    (exported_behind_comment {} _ _).2.1 (by decide +kernel),
    (exported_behind_comment {} _ _).2.2 ⟨.exportDefault, 3, 17, none⟩ (by decide +kernel)
      (by decide +kernel)⟩

/-- A statement in a comment over several lines is preferred to the one
that the file has. -/
theorem exported_in_comment :
    exported {} "export default { current: 2 }\n" = .ok ⟨.exportDefault, none, ⟨15, 29⟩⟩ ∧
    exported {} ("/*" ++ "\nexport default { old: 1 }\n" ++ "*/\n" ++
      "export default { current: 2 }\n") = .ok ⟨.exportDefault, none, ⟨18, 28⟩⟩ ∧
    ¬ IsMoved {} ("/*" ++ "\nexport default { old: 1 }\n" ++ "*/\n")
      "export default { current: 2 }\n" := by
  have hfile : exported {} "export default { current: 2 }\n" =
      .ok ⟨.exportDefault, none, ⟨15, 29⟩⟩ := by decide +kernel
  have hinside : exported {} ("/*" ++ "\nexport default { old: 1 }\n" ++ "*/\n" ++
      "export default { current: 2 }\n") = .ok ⟨.exportDefault, none, ⟨18, 28⟩⟩ := by
    decide +kernel
  refine ⟨hfile, hinside, fun hmoved => ?_⟩
  obtain ⟨found, hfound, hshift⟩ := (hmoved _).1 hinside
  rw [hfile] at hfound
  cases hfound
  exact absurd hshift (by decide +kernel)

end Literal

end ConfigPatch
