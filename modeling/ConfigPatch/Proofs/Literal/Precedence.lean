import ConfigPatch.Proofs.Literal.Alone
import Mathlib.Data.Prod.Lex

/-!
# Files with many export statements

In a file of lines each export statement stands on a line of its own. The
statements that are read are those of the lines, and the one of least rank
is preferred: a call of the expected function comes before a bare mapping,
`export default` before `module.exports`, and an earlier line before a
later one. What is located is the literal on that line.
-/

namespace ConfigPatch.Literal

open Lexical

/-! ## Lines -/

/-- An export statement on a line of its own. -/
structure ExportLine where
  blanks : List Char
  convention : Convention
  /-- Whether the literal stands in a call of the expected function. -/
  wrapped : Bool
  literal : List Char

/-- A line of a file. -/
inductive Line where
  | statement (line : ExportLine)
  | other (text : List Char)

/-- The blanks in front of a statement. -/
def isIndent (c : Char) : Bool := c == ' ' || c == '\t'

namespace ExportLine

/-- The words, and the call that they are followed by. -/
def opening (options : Options) (line : ExportLine) : List Char :=
  Source.words line.convention ++ if line.wrapped then options.factory.toList ++ ['('] else []

/-- What stands in front of the literal. -/
def head (options : Options) (line : ExportLine) : List Char :=
  line.blanks ++ line.opening options

def text (options : Options) (line : ExportLine) : List Char :=
  line.head options ++ (line.literal ++ if line.wrapped then [')'] else [])

/-- The literal is one mapping from its first character to its last one,
and the line has no end in it. -/
structure IsWellFormed (options : Options) (line : ExportLine) : Prop where
  blanks : ∀ c ∈ line.blanks, isIndent c = true
  factory : line.wrapped = true → Source.isFunctionName options.factory.toList = true
  opens : line.literal.head? = some '\x7b'
  oneLine : '\n' ∉ line.literal
  whole : spanAt (Text.utf8 line.literal) 0 = .ok ⟨0, (Text.utf8 line.literal).length⟩

/-- The statement as it is read on a line at an offset. -/
def statement (options : Options) (offset : Nat) (line : ExportLine) : Statement where
  convention := line.convention
  start := offset + (Text.utf8 line.blanks).length
  stop := offset + (Text.utf8 line.blanks).length + Source.wordsEnd line.convention
  call :=
    if line.wrapped then some (options.factory, offset + (Text.utf8 (line.head options)).length)
    else none

/-- **The rank of a statement** on a line of a number. -/
def rank (line : ExportLine) (number : Nat) : Bool ×ₗ Bool ×ₗ Nat :=
  toLex (!line.wrapped, toLex (line.convention != .exportDefault, number))

end ExportLine

namespace Line

def text (options : Options) : Line → List Char
  | .statement line => line.text options
  | .other text => text

/-- Another line begins, blanks aside, like no statement. -/
def IsWellFormed (options : Options) : Line → Prop
  | .statement line => line.IsWellFormed options
  | .other text => '\n' ∉ text ∧
      "export".toList.isPrefixOf (text.dropWhile isIndent) = false ∧
      "module".toList.isPrefixOf (text.dropWhile isIndent) = false

/-- The statements that are read on a line at an offset. -/
def statements (options : Options) (offset : Nat) : Line → List Statement
  | .statement line => [line.statement options offset]
  | .other _ => []

end Line

/-- **The text of a file of lines.** -/
def joinLines (options : Options) (lines : List Line) : List Char :=
  ['\n'].intercalate (lines.map (Line.text options))

/-- The lines that stand in front of others, each with its end. -/
def endLines (options : Options) (lines : List Line) : List Char :=
  lines.flatMap fun line => line.text options ++ ['\n']

/-- The statements of lines that stand from an offset on. -/
def lineStatements (options : Options) (offset : Nat) : List Line → List Statement
  | [] => []
  | line :: lines =>
    line.statements options offset ++
      lineStatements options (offset + (Text.utf8 (line.text options)).length + 1) lines

variable {options : Options} {line : ExportLine} {l : Line} {lines before after : List Line}
variable {offset : Nat} {cs ds blanks rest : List Char}

/-! ## Reading a line -/

theorem bytesBetween_front (h : rest <:+ cs) :
    bytesBetween (blanks ++ cs) rest = (Text.utf8 blanks).length + bytesBetween cs rest := by
  obtain ⟨front, rfl⟩ := h
  simp only [bytesBetween, Text.utf8_append, List.length_append]
  omega

/-- A statement is read behind blanks. -/
theorem readStatement?_blanks (h : ∀ c ∈ blanks, isIndent c = true) :
    readStatement? offset (blanks ++ cs) =
      (readStatement? (offset + (Text.utf8 blanks).length) cs).map fun found =>
        (found.1, blanks.length + found.2) := by
  have hdrop : (blanks ++ cs).dropWhile (fun c => c == ' ' || c == '\t') =
      cs.dropWhile (fun c => c == ' ' || c == '\t') :=
    List.dropWhile_append_of_pos h
  have hwords : (cs.dropWhile fun c => c == ' ' || c == '\t') <:+ cs := List.dropWhile_suffix _
  rw [readStatement?, readStatement?, hdrop]
  cases hread : readWords? (cs.dropWhile fun c => c == ' ' || c == '\t') with
  | none => rfl
  | some read =>
    have hrest := (suffix_of_readWords? hread).trans hwords
    have hbody := (List.dropWhile_suffix Text.isBlank).trans hrest
    simp only [Option.bind_eq_bind, Option.bind_some, bytesBetween_front hwords,
      bytesBetween_front hrest, List.length_append]
    cases hcall : readCall? (read.2.dropWhile Text.isBlank) with
    | none =>
      have hle := hbody.length_le
      simp only [Option.pure_def, Option.map_some, Option.some.injEq, Prod.mk.injEq,
        Statement.mk.injEq, true_and, and_true]
      omega
    | some call =>
      have hinner := (suffix_of_readCall? hcall).trans hbody
      have hle := hinner.length_le
      simp only [Option.pure_def, Option.map_some, Option.some.injEq, Prod.mk.injEq,
        Statement.mk.injEq, true_and, bytesBetween_front hinner]
      omega

theorem readStatement?_opening (h : line.IsWellFormed options) :
    readStatement? 0 (line.opening options) =
      some (⟨line.convention, 0, Source.wordsEnd line.convention,
        if line.wrapped then some (options.factory, (Text.utf8 (line.opening options)).length)
        else none⟩, (line.opening options).length) := by
  rw [ExportLine.opening, readStatement?_words]
  cases hwrapped : line.wrapped with
  | false => rfl
  | true =>
    have hname := h.factory hwrapped
    simp only [if_true, dropWhile_isBlank_name hname, readCall?_append hname]
    simp [bytesBetween]

/-- **What stands in front of the literal is read as the statement.** -/
theorem readStatement?_head (h : line.IsWellFormed options) :
    readStatement? offset (line.head options) =
      some (line.statement options offset, (line.head options).length) := by
  have hshift : readStatement? (0 + (offset + (Text.utf8 line.blanks).length))
      (line.opening options) = _ := readStatement?_shift
  rw [Nat.zero_add, readStatement?_opening h, Option.map_some] at hshift
  rw [ExportLine.head, readStatement?_blanks h.blanks, hshift, Option.map_some,
    ExportLine.statement, ExportLine.head, Text.utf8_append, List.length_append,
    List.length_append]
  simp only [Statement.shift, Nat.zero_add, Nat.add_comm (Source.wordsEnd line.convention)]
  cases line.wrapped with
  | false => rfl
  | true => simp only [if_true, Option.map_some, Nat.add_assoc, Nat.add_comm, Nat.add_left_comm]

/-- **No statement begins another line.** -/
theorem readStatement?_other (h : Line.IsWellFormed options (.other cs))
    (hds : ∀ c ∈ ds.head?, c = '\n') : readStatement? offset (cs ++ ds) = none := by
  obtain ⟨-, hexport, hmodule⟩ := h
  have hends : ∀ c ∈ ds.head?, isIndent c = false ∧ isLiteralChar c = false := by
    intro c hc
    rw [hds c hc]
    exact ⟨by decide, isLiteralChar_eq_false_of_isBlank (by decide)⟩
  have hdrop : (cs ++ ds).dropWhile isIndent = cs.dropWhile isIndent ++ ds := by
    cases ds with
    | nil => rw [List.append_nil, List.append_nil]
    | cons d ds => exact dropWhile_append_stop (hends d rfl).1
  have hnone {word : String} (hword : ∀ c ∈ word.toList, isLiteralChar c = true)
      (hnot : word.toList.isPrefixOf (cs.dropWhile isIndent) = false) :
      afterWord? word ((cs ++ ds).dropWhile isIndent) = none := by
    rw [hdrop, afterWord?, isPrefixOf_append hword fun c hc => (hends c hc).2, hnot]
    rfl
  have hexports : "module.exports".toList.isPrefixOf (cs.dropWhile isIndent) = false := by
    have hshorter : "module".toList <+: "module.exports".toList := by
      decide
    rw [Bool.eq_false_iff, ne_eq, List.isPrefixOf_iff_prefix] at hmodule ⊢
    exact fun h => hmodule (hshorter.trans h)
  have hwords : readWords? ((cs ++ ds).dropWhile isIndent) = none := by
    rw [readWords?, hnone (isLiteralChar_of_all (by decide)) hexport,
      hnone (isLiteralChar_of_all (by decide)) hexports]
    rfl
  rw [readStatement?]
  change (readWords? ((cs ++ ds).dropWhile isIndent)).bind _ = none
  rw [hwords]
  rfl

/-! ## The statements of a file -/

/-- Where no statement begins it does not matter that a line does. -/
theorem statementsFrom_lineStart (h : readStatement? offset cs = none) :
    statementsFrom offset 0 true cs = statementsFrom offset 0 false cs := by
  cases cs with
  | nil => rfl
  | cons c cs => rw [statementsFrom_cons fun _ => h, statementsFrom_cons fun _ => h]

theorem statementsFrom_head (h : line.IsWellFormed options) :
    statementsFrom offset 0 true (line.head options) = [line.statement options offset] := by
  have hne : line.head options ≠ [] := by
    simp [ExportLine.head, ExportLine.opening, words_ne_nil]
  have hread : readStatement? offset (line.head options ++ []) =
      some (line.statement options offset, (line.head options).length) := by
    rw [List.append_nil]
    exact readStatement?_head h
  obtain ⟨offset', lineStart', hstatements⟩ := statementsFrom_statement hne hread
  rw [List.append_nil] at hstatements
  exact hstatements

/-- **The statements of a line** come before those of what follows. -/
theorem statementsFrom_text (h : l.IsWellFormed options) (hds : ∀ c ∈ ds.head?, c = '\n') :
    statementsFrom offset 0 true (l.text options ++ ds) =
      l.statements options offset ++
        statementsFrom (offset + (Text.utf8 (l.text options)).length) 0 false ds := by
  cases l with
  | other text =>
    exact (statementsFrom_lineStart (readStatement?_other h hds)).trans (statementsFrom_within h.1)
  | statement line =>
    obtain ⟨inside, hliteral⟩ := List.head?_eq_some_iff.1 h.opens
    have hline : '\n' ∉ inside ++ if line.wrapped then [')'] else [] := by
      have honeLine := h.oneLine
      rw [hliteral, List.mem_cons, not_or] at honeLine
      rw [List.mem_append, not_or]
      refine ⟨honeLine.2, ?_⟩
      cases line.wrapped <;> decide
    -- behind the opening brace the line goes on to its end
    have htext : line.text options ++ ds = line.head options ++
        '\x7b' :: ((inside ++ if line.wrapped then [')'] else []) ++ ds) := by
      simp [ExportLine.text, hliteral]
    have hlength : offset + (Text.utf8 (line.text options)).length =
        offset + (Text.utf8 (line.head options)).length + ('\x7b').utf8Size +
          (Text.utf8 (inside ++ if line.wrapped then [')'] else [])).length := by
      simp only [ExportLine.text, hliteral, Text.utf8_append, Text.utf8_cons, List.length_append,
        List.cons_append, String.length_utf8EncodeChar]
      omega
    change statementsFrom offset 0 true (line.text options ++ ds) = _
    rw [htext, statementsFrom_stop (by decide +kernel) (Nat.zero_le _), statementsFrom_head h,
      statementsFrom_within hline]
    congr 1
    change _ = statementsFrom (offset + (Text.utf8 (line.text options)).length) 0 false ds
    rw [hlength]

theorem joinLines_cons (hne : lines ≠ []) :
    joinLines options (l :: lines) = l.text options ++ '\n' :: joinLines options lines := by
  obtain ⟨next, lines, rfl⟩ := List.exists_cons_of_ne_nil hne
  rw [joinLines, joinLines, List.map_cons, List.map_cons, List.intercalate_cons_cons,
    List.append_assoc, List.singleton_append]

/-- **The statements of a file** are those of its lines. -/
theorem statementsFrom_joinLines (h : ∀ l ∈ lines, l.IsWellFormed options) :
    statementsFrom offset 0 true (joinLines options lines) =
      lineStatements options offset lines := by
  induction lines generalizing offset with
  | nil => rfl
  | cons l lines ih =>
    have hl := h l List.mem_cons_self
    cases lines with
    | nil =>
      have htext : statementsFrom offset 0 true (l.text options ++ []) = _ :=
        statementsFrom_text hl fun c hc => nomatch hc
      rw [List.append_nil] at htext
      rw [joinLines, List.map_cons, List.map_nil, List.intercalate_singleton, htext]
      rfl
    | cons next lines =>
      have hfeed : ∀ c ∈ ('\n' :: joinLines options (next :: lines)).head?, c = '\n' := by
        intro c hc
        cases hc
        rfl
      rw [joinLines_cons (List.cons_ne_nil _ _), statementsFrom_text hl hfeed,
        statementsFrom_cons fun h => absurd h Bool.false_ne_true]
      exact congrArg _ (ih fun l hl => h l (List.mem_cons_of_mem _ hl))

theorem length_endLines_cons :
    (Text.utf8 (endLines options (l :: before))).length =
      (Text.utf8 (l.text options)).length + (1 + (Text.utf8 (endLines options before)).length) := by
  have hone : (Text.utf8 ['\n']).length = 1 := rfl
  simp only [endLines, List.flatMap_cons, Text.utf8_append, List.length_append]
  omega

theorem lineStatements_append :
    lineStatements options offset (before ++ after) = lineStatements options offset before ++
      lineStatements options (offset + (Text.utf8 (endLines options before)).length) after := by
  induction before generalizing offset with
  | nil => rfl
  | cons l before ih =>
    rw [List.cons_append, lineStatements, lineStatements, ih, length_endLines_cons,
      List.append_assoc]
    simp only [Nat.add_assoc]

/-- Each statement of a file is that of one of its lines. -/
theorem exists_of_lineStatements {first last : List Statement} {found : Statement}
    (h : lineStatements options offset lines = first ++ found :: last) :
    ∃ before line after, lines = before ++ .statement line :: after ∧
      first = lineStatements options offset before ∧
      found = line.statement options (offset + (Text.utf8 (endLines options before)).length) ∧
      ∃ offset', last = lineStatements options offset' after := by
  induction lines generalizing offset first with
  | nil => simp [lineStatements] at h
  | cons l lines ih =>
    have hlater {first : List Statement}
        (h : lineStatements options (offset + (Text.utf8 (l.text options)).length + 1) lines =
          first ++ found :: last) :
        ∃ before line after, l :: lines = l :: before ++ .statement line :: after ∧
          l.statements options offset ++ first = lineStatements options offset (l :: before) ∧
          found = line.statement options
            (offset + (Text.utf8 (endLines options (l :: before))).length) ∧
          ∃ offset', last = lineStatements options offset' after := by
      obtain ⟨before, line, after, rfl, rfl, rfl, hlast⟩ := ih h
      refine ⟨before, line, after, rfl, rfl, ?_, hlast⟩
      rw [length_endLines_cons]
      simp only [Nat.add_assoc]
    cases l with
    | other text =>
      obtain ⟨before, line, after, hlines, hfirst, hfound⟩ := hlater h
      exact ⟨_, line, after, hlines, hfirst, hfound⟩
    | statement line =>
      change line.statement options offset :: lineStatements options _ lines = _ at h
      cases first with
      | nil =>
        obtain ⟨rfl, rfl⟩ := List.cons_eq_cons.1 h
        exact ⟨[], line, lines, rfl, rfl, rfl, _, rfl⟩
      | cons own first =>
        obtain ⟨rfl, htail⟩ := List.cons_eq_cons.1 h
        obtain ⟨before, line, after, hlines, hfirst, hfound⟩ := hlater htail
        exact ⟨_, line, after, hlines, hfirst, hfound⟩

/-! ## The rank of a statement -/

namespace ExportLine

/-- The rank without the number of the line. -/
def level (line : ExportLine) : Nat :=
  (if line.wrapped then 0 else 2) + if line.convention = .exportDefault then 0 else 1

theorem wrapper?_statement : (line.statement options offset).wrapper? options =
    if line.wrapped then some (options.factory, offset + (Text.utf8 (line.head options)).length)
    else none := by
  unfold Statement.wrapper? statement
  cases line.wrapped <;> simp [Option.filter]

theorem precedence_statement : (line.statement options offset).precedence options = line.level := by
  rw [Statement.precedence, wrapper?_statement, level]
  cases line.wrapped <;> rfl

theorem rank_le_iff {other : ExportLine} {i j : Nat} :
    line.rank i ≤ other.rank j ↔
      line.level < other.level ∨ line.level = other.level ∧ i ≤ j := by
  obtain ⟨-, convention, wrapped, -⟩ := line
  obtain ⟨-, convention', wrapped', -⟩ := other
  cases wrapped <;> cases wrapped' <;> cases convention <;> cases convention' <;>
    simp [rank, level, Prod.Lex.toLex_le_toLex, Bool.lt_iff]

end ExportLine

/-- **The statement that comes first**: it stands on the line of that
number, and no statement of the file has a lesser rank. -/
def IsFirst (lines : List Line) (number : Nat) (line : ExportLine) : Prop :=
  lines[number]? = some (.statement line) ∧
    ∀ (other : ExportLine) (number' : Nat), lines[number']? = some (.statement other) →
      line.rank number ≤ other.rank number'

theorem exists_mem_lineStatements {other : ExportLine} (h : Line.statement other ∈ lines) :
    ∃ found ∈ lineStatements options offset lines, found.precedence options = other.level := by
  obtain ⟨before, after, rfl⟩ := List.append_of_mem h
  rw [lineStatements_append]
  exact ⟨_, List.mem_append_right _ List.mem_cons_self, ExportLine.precedence_statement⟩

/-- **The statement that comes first is preferred.** -/
theorem exists_isFirst (options : Options) (h : ∃ line, Line.statement line ∈ lines) :
    ∃ before line after, lines = before ++ .statement line :: after ∧
      IsFirst lines before.length line ∧
      preferred? options (lineStatements options 0 lines) =
        some (line.statement options (Text.utf8 (endLines options before)).length) := by
  cases hpreferred : preferred? options (lineStatements options 0 lines) with
  | none =>
    obtain ⟨line, hline⟩ := h
    obtain ⟨found, hfound, -⟩ : ∃ found ∈ lineStatements options 0 lines,
        found.precedence options = line.level := exists_mem_lineStatements hline
    rw [preferred?_eq_none_iff.1 hpreferred] at hfound
    cases hfound
  | some found =>
    obtain ⟨first, last, hparts, hfirst, hlast⟩ := preferred?_eq_some_iff.1 hpreferred
    obtain ⟨before, line, after, rfl, rfl, rfl, offset', rfl⟩ := exists_of_lineStatements hparts
    rw [ExportLine.precedence_statement] at hfirst hlast
    refine ⟨before, line, after, rfl, ⟨by simp, fun other number hother => ?_⟩, ?_⟩
    · rw [ExportLine.rank_le_iff]
      rcases Nat.lt_trichotomy number before.length with hlt | rfl | hgt
      · -- in front of the line
        rw [List.getElem?_append_left hlt] at hother
        obtain ⟨st, hst, hlevel⟩ := exists_mem_lineStatements (List.mem_of_getElem? hother)
        exact .inl (hlevel ▸ hfirst st hst)
      · rw [List.getElem?_append_right (Nat.le_refl _), Nat.sub_self] at hother
        cases hother
        exact .inr ⟨rfl, Nat.le_refl _⟩
      · -- behind it
        obtain ⟨k, hk⟩ : ∃ k, number - before.length = k + 1 :=
          ⟨number - before.length - 1, by omega⟩
        rw [List.getElem?_append_right (Nat.le_of_lt hgt), hk, List.getElem?_cons_succ] at hother
        obtain ⟨st, hst, hlevel⟩ := exists_mem_lineStatements (List.mem_of_getElem? hother)
        have hle := hlevel ▸ hlast st hst
        omega
    · rw [Nat.zero_add]

/-! ## The literal on a line -/

/-- Spaces are skipped up to what is neither a blank nor a slash. -/
theorem triviaEndFrom_spaces {spaces xs : List UInt8} {b : UInt8} {limit : Nat}
    (hspaces : ∀ c ∈ spaces, isSpace c = true) (hspace : isSpace b = false) (hslash : b ≠ slash)
    (hlt : offset + spaces.length < limit) :
    triviaEndFrom .code offset limit (spaces ++ b :: xs) = offset + spaces.length := by
  induction spaces generalizing offset with
  | nil => exact triviaEndFrom_stop hspace hslash hlt
  | cons c spaces ih =>
    rw [List.length_cons] at hlt ⊢
    have hc := hspaces c List.mem_cons_self
    have hrest : triviaEndFrom .code (offset + 1) limit (spaces ++ b :: xs) =
        offset + 1 + spaces.length :=
      ih (fun d hd => hspaces d (List.mem_cons_of_mem _ hd)) (by omega)
    rw [List.cons_append, triviaEndFrom, if_neg (by omega), if_neg (by simp), if_pos hc, hrest]
    omega

namespace ExportLine

/-- The words end in a space, and so the expression starts a space before
the literal where there is no call. -/
theorem exists_body (line : ExportLine) (options : Options) (offset : Nat) :
    ∃ front spaces, Text.utf8 (line.head options) = front ++ spaces ∧
    (∀ c ∈ spaces, isSpace c = true) ∧
    (line.statement options offset).body options = offset + front.length := by
  rw [Statement.body, wrapper?_statement]
  cases hwrapped : line.wrapped with
  | true => exact ⟨_, [], (List.append_nil _).symm, List.forall_mem_nil _, rfl⟩
  | false =>
    obtain ⟨words, hwords⟩ := exists_words line.convention
    have hstop : Source.wordsEnd line.convention = (Text.utf8 words).length := by
      have hone : (Text.utf8 [' ']).length = 1 := rfl
      rw [Source.wordsEnd, hwords, Text.utf8_append, List.length_append, hone, Nat.add_sub_cancel]
    refine ⟨Text.utf8 (line.blanks ++ words), [0x20], ?_, ?_, ?_⟩
    · rw [head, opening, hwords, hwrapped, if_neg Bool.false_ne_true, List.append_nil,
        ← List.append_assoc, Text.utf8_append]
      rfl
    · intro c hc
      rw [List.mem_singleton.1 hc]
      rfl
    · simp only [Bool.false_eq_true, if_false, Option.map_none, Option.getD_none, statement, hstop,
        Text.utf8_append, List.length_append, Nat.add_assoc]

/-- **What is located on a line** whose literal starts at an offset. -/
def located (options : Options) (start : Nat) (line : ExportLine) : Exported where
  convention := line.convention
  factory := if line.wrapped then some options.factory else none
  span := ⟨start, start + (Text.utf8 line.literal).length⟩

end ExportLine

/-- **The literal of the statement that is preferred** is located. -/
theorem exported_line {s : String} {front back : List Char} (h : line.IsWellFormed options)
    (hs : s.toList = front ++ (line.text options ++ back))
    (hpreferred : preferred? options (statements s) =
      some (line.statement options (Text.utf8 front).length)) :
    exported options s =
      .ok (line.located options ((Text.utf8 front).length +
        (Text.utf8 (line.head options)).length)) := by
  obtain ⟨inside, hliteral⟩ := List.head?_eq_some_iff.1 h.opens
  obtain ⟨before, spaces, hhead, hspaces, hbody⟩ :=
    line.exists_body options (Text.utf8 front).length
  have hbytes : Text.bytes s = (Text.utf8 front ++ Text.utf8 (line.head options)) ++
      (Text.utf8 line.literal ++ Text.utf8 ((if line.wrapped then [')'] else []) ++ back)) := by
    rw [Text.bytes, hs, ExportLine.text]
    simp only [Text.utf8_append, List.append_assoc]
  have hbrace : Text.utf8 line.literal = 0x7B :: Text.utf8 inside := by
    rw [hliteral, Text.utf8_cons]
    rfl
  have hspan := (spanAt_among (Text.utf8 front ++ Text.utf8 (line.head options)) _
    (Text.utf8 ((if line.wrapped then [')'] else []) ++ back))).2 h.whole
  rw [← hbytes, List.length_append] at hspan
  refine exported_eq_ok.2 ⟨_, _, _, 0x7B, hpreferred, ?_, ?_, by decide, hspan, ?_⟩
  · -- at most a space is skipped before the brace
    have hlength : (Text.utf8 (line.head options)).length = before.length + spaces.length := by
      rw [hhead, List.length_append]
    have hlt : (Text.utf8 front ++ before).length + spaces.length < (Text.bytes s).length := by
      rw [hbytes, hbrace]
      simp only [List.length_append, List.length_cons]
      omega
    have hparts : Text.bytes s = (Text.utf8 front ++ before) ++ (spaces ++
        0x7B :: (Text.utf8 inside ++ Text.utf8 ((if line.wrapped then [')'] else []) ++ back))) := by
      rw [hbytes, hhead, hbrace]
      simp only [List.append_assoc, List.cons_append]
    rw [hparts] at hlt
    rw [hbody, ← List.length_append, triviaEnd, hparts, List.drop_left,
      triviaEndFrom_spaces hspaces (by decide) (by decide) hlt, List.length_append, hlength,
      Nat.add_assoc]
  · rw [hbytes, ← List.length_append, List.getElem?_append_right (Nat.le_refl _), Nat.sub_self,
      hbrace]
    rfl
  · rw [ExportLine.wrapper?_statement, ExportLine.located]
    cases line.wrapped <;> rfl

/-! ## The file -/

/-- The file of some lines. -/
def fileOf (options : Options) (lines : List Line) : String :=
  String.ofList (joinLines options lines)

/-- Where the literal of a statement starts that stands behind some
lines. -/
def literalStart (options : Options) (before : List Line) (line : ExportLine) : Nat :=
  (Text.utf8 (endLines options before)).length + (Text.utf8 (line.head options)).length

theorem exists_joinLines : ∃ back, joinLines options (before ++ l :: after) =
    endLines options before ++ (l.text options ++ back) := by
  induction before with
  | nil =>
    cases after with
    | nil => exact ⟨[], by simp [joinLines, endLines]⟩
    | cons next after =>
      exact ⟨'\n' :: joinLines options (next :: after), joinLines_cons (List.cons_ne_nil _ _)⟩
  | cons first before ih =>
    obtain ⟨back, hback⟩ := ih
    refine ⟨back, ?_⟩
    rw [List.cons_append, joinLines_cons (by simp), hback]
    simp [endLines]

/-- A text with a brace in it falls apart behind the brace, and behind what
stands in it. -/
theorem slices_of_append {s : String} {front inside back : List Char}
    (h : s.toList = front ++ '\x7b' :: (inside ++ back)) :
    Text.slice? s (Text.utf8 front).length
        ((Text.utf8 front).length + (Text.utf8 ('\x7b' :: inside)).length) =
      some (String.ofList ('\x7b' :: inside)) ∧
    Text.slice? s 0 ((Text.utf8 front).length + 1) =
      some (String.ofList (front ++ ['\x7b'])) ∧
    Text.slice? s ((Text.utf8 front).length + 1)
        ((Text.utf8 front).length + (Text.utf8 ('\x7b' :: inside)).length) =
      some (String.ofList inside) ∧
    Text.slice? s ((Text.utf8 front).length + (Text.utf8 ('\x7b' :: inside)).length)
        (Text.bytes s).length = some (String.ofList back) ∧
    String.ofList (front ++ ['\x7b']) ++ String.ofList inside ++ String.ofList back = s := by
  have hone : ('\x7b').utf8Size = 1 := rfl
  refine ⟨?_, ?_, ?_, ?_, ?_⟩
  · rw [Text.slice?_eq_some_iff]
    exact ⟨front, back, by simp [h], rfl, by simp [Text.bytes]⟩
  · rw [Text.slice?_eq_some_iff]
    exact ⟨[], inside ++ back, by simp [h], rfl, by simp [Text.bytes, hone]⟩
  · rw [Text.slice?_eq_some_iff]
    refine ⟨front ++ ['\x7b'], back, by simp [h], by simp [hone], ?_⟩
    simp [Text.bytes, hone]
    omega
  · rw [Text.slice?_eq_some_iff]
    refine ⟨front ++ '\x7b' :: inside, [], by simp [h], by simp, ?_⟩
    simp [Text.bytes, h, hone]
    omega
  · rw [← String.toList_inj]
    simp [h]

theorem statements_fileOf (h : ∀ l ∈ lines, l.IsWellFormed options) :
    statements (fileOf options lines) = lineStatements options 0 lines := by
  rw [statements, fileOf, String.toList_ofList, statementsFrom_joinLines h]

/-- Lines without a statement hold none. -/
theorem lineStatements_eq_nil (h : ∀ line, Line.statement line ∉ lines) :
    lineStatements options 0 lines = [] := by
  cases hlines : lineStatements options 0 lines with
  | nil => rfl
  | cons found last =>
    rw [← List.nil_append (found :: last)] at hlines
    obtain ⟨before, line, after, rfl, -⟩ := exists_of_lineStatements hlines
    exact absurd (List.mem_append_right _ List.mem_cons_self) (h line)

/-- **The literal of the statement that comes first** is located. -/
theorem exists_located (h : ∀ l ∈ lines, l.IsWellFormed options)
    (hsome : ∃ line, Line.statement line ∈ lines) :
    ∃ before line after back, lines = before ++ .statement line :: after ∧
      IsFirst lines before.length line ∧
      (fileOf options lines).toList = endLines options before ++ (line.text options ++ back) ∧
      exported options (fileOf options lines) =
        .ok (line.located options (literalStart options before line)) := by
  obtain ⟨before, line, after, hlines, hfirst, hpreferred⟩ := exists_isFirst options hsome
  have hline : line.IsWellFormed options :=
    h (.statement line) (hlines ▸ List.mem_append_right _ List.mem_cons_self)
  obtain ⟨back, hback⟩ : ∃ back, joinLines options (before ++ .statement line :: after) = _ :=
    exists_joinLines
  rw [← hlines] at hback
  have hfile : (fileOf options lines).toList =
      endLines options before ++ (line.text options ++ back) := by
    rw [fileOf, String.toList_ofList, hback]
    rfl
  rw [← statements_fileOf h] at hpreferred
  exact ⟨before, line, after, back, hlines, hfirst, hfile, exported_line hline hfile hpreferred⟩

/-- **In a file of lines the statement of least rank is located.** No
literal is found exactly if no line has a statement. Otherwise it is the
literal on the line of the statement that comes first, and the file falls
apart into what stands up to its opening brace, the rest of it, and what
stands behind. -/
theorem exported_lines (h : ∀ l ∈ lines, l.IsWellFormed options) :
    ((∃ reason, exported options (fileOf options lines) = .error (.noLiteral reason)) ↔
      ∀ line, Line.statement line ∉ lines) ∧
    ((∃ line, Line.statement line ∈ lines) →
      ∃ number line literal header rest trailer, IsFirst lines number line ∧
        exported options (fileOf options lines) = .ok literal ∧
        literal = line.located options (literalStart options (lines.take number) line) ∧
        literal.headerEnd = literal.span.start + 1 ∧
        Text.slice? (fileOf options lines) literal.span.start literal.span.stop =
          some (String.ofList line.literal) ∧
        Text.slice? (fileOf options lines) 0 literal.headerEnd = some header ∧
        Text.slice? (fileOf options lines) literal.headerEnd literal.span.stop = some rest ∧
        Text.slice? (fileOf options lines) literal.span.stop
          (Text.bytes (fileOf options lines)).length = some trailer ∧
        header ++ rest ++ trailer = fileOf options lines) := by
  constructor
  · constructor
    · rintro ⟨reason, hreason⟩ line hline
      obtain ⟨before, line, after, back, -, -, -, hfound⟩ := exists_located h ⟨line, hline⟩
      rw [hfound] at hreason
      cases hreason
    · intro hnone
      refine ⟨.noExport, ?_⟩
      rw [exported, statements_fileOf h, lineStatements_eq_nil hnone]
      rfl
  · intro hsome
    obtain ⟨before, line, after, back, hlines, hfirst, hfile, hfound⟩ := exists_located h hsome
    have hline : line.IsWellFormed options :=
      h (.statement line) (hlines ▸ List.mem_append_right _ List.mem_cons_self)
    obtain ⟨inside, hliteral⟩ := List.head?_eq_some_iff.1 hline.opens
    have hparts : (fileOf options lines).toList = (endLines options before ++ line.head options) ++
        '\x7b' :: (inside ++ ((if line.wrapped then [')'] else []) ++ back)) := by
      rw [hfile, ExportLine.text, hliteral]
      simp only [List.append_assoc, List.cons_append]
    obtain ⟨hspan, hheader, hrest, htrailer, hwhole⟩ := slices_of_append hparts
    have hstart : literalStart options before line =
        (Text.utf8 (endLines options before ++ line.head options)).length := by
      rw [literalStart, Text.utf8_append, List.length_append]
    rw [← hstart] at hspan hheader hrest htrailer
    rw [← hliteral] at hspan hrest htrailer
    refine ⟨before.length, line, _, _, _, _, hfirst, hfound, ?_, rfl, hspan, hheader, hrest,
      htrailer, hwhole⟩
    rw [hlines, List.take_left]

/-- A bare mapping, a call of the expected function and another bare
mapping, with brackets in strings and comments. -/
def sampleLines : List Line :=
  [.other "import x".toList,
    .statement ⟨[], .exportDefault, false, "\x7b a: \"\x7d\" \x7d".toList⟩,
    .statement ⟨[' '], .moduleExports, true, "\x7b b: [/* \x7d */] \x7d".toList⟩,
    .other [],
    .statement ⟨[], .exportDefault, false, "\x7b c: 1 \x7d".toList⟩]

theorem exported_lines_sample :
    (∀ l ∈ sampleLines, l.IsWellFormed {}) ∧
    (∃ line, Line.statement line ∈ sampleLines) ∧
    exported {} (fileOf {} sampleLines) = .ok ⟨.moduleExports, some "defineConfig", ⟨66, 82⟩⟩ ∧
    ∃ number line literal, IsFirst sampleLines number line ∧
      exported {} (fileOf {} sampleLines) = .ok literal ∧
      literal = line.located {} (literalStart {} (sampleLines.take number) line) := by
  have hlines : ∀ l ∈ sampleLines, l.IsWellFormed {} := by
    refine List.forall_mem_cons.2 ⟨⟨by decide +kernel, by decide +kernel, by decide +kernel⟩, ?_⟩
    refine List.forall_mem_cons.2 ⟨⟨List.forall_mem_nil _, by decide, rfl, by decide +kernel,
      by decide +kernel⟩, ?_⟩
    refine List.forall_mem_cons.2 ⟨⟨List.forall_mem_singleton.2 rfl, by decide +kernel, rfl,
      by decide +kernel, by decide +kernel⟩, ?_⟩
    refine List.forall_mem_cons.2 ⟨⟨by decide, by decide +kernel, by decide +kernel⟩, ?_⟩
    refine List.forall_mem_cons.2 ⟨⟨List.forall_mem_nil _, by decide, rfl, by decide +kernel,
      by decide +kernel⟩, List.forall_mem_nil _⟩
  have hsome : ∃ line, Line.statement line ∈ sampleLines :=
    ⟨_, List.mem_cons_of_mem _ List.mem_cons_self⟩
  obtain ⟨number, line, literal, -, -, -, hfirst, hliteral, hlocated, -⟩ :=
    (exported_lines hlines).2 hsome
  exact ⟨hlines, hsome, by decide +kernel, number, line, literal, hfirst, hliteral, hlocated⟩

end ConfigPatch.Literal
