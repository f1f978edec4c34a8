import ConfigPatch.Proofs.Lexical.Nesting
import ConfigPatch.Proofs.Text.Ascii
import ConfigPatch.Text.Character

/-!
# Lexemes

Literals are written with `Lexeme`s: blanks, comments, words, strings,
brackets, commas and colons. `Context` is what has to be known of the
lexemes before to tell whether another one may follow, and `run` goes
through a sequence. Of a sequence that runs the scan finds every lexeme:
`scan_of_run` gives the labels of its bytes, which do not depend on what
stands around it.
-/

namespace ConfigPatch.Lexical

/-- What literals are written with. A comment comes with the blank after
it, which for a line comment is its line feed. -/
inductive Lexeme where
  | blank (c : Char)
  | line (text : List Char)
  | block (text : List Char) (after : Char)
  | word (text : List Char)
  | string (quote : Char) (inside : List Char)
  | opening (shape : Bracket)
  | closing (shape : Bracket)
  | comma
  | colon
deriving DecidableEq

/-- The ASCII blanks. -/
def isBlankChar (c : Char) : Bool :=
  c == '\t' || c == '\n' || c == '\x0c' || c == '\r' || c == ' '

/-- The characters of words: identifier characters, and what numbers are
written with. -/
def isLiteralChar (c : Char) : Bool :=
  Text.isWordChar c || c == '.' || c == '+' || c == '-'

/-- The characters of the three quotes. -/
def isQuoteChar (c : Char) : Bool :=
  c == '"' || c == '\'' || c == '\x60'

namespace Lexeme

/-- The characters of a lexeme. -/
def chars : Lexeme → List Char
  | .blank c => [c]
  | .line text => '/' :: '/' :: (text ++ ['\n'])
  | .block text after => '/' :: '*' :: (text ++ ['*', '/', after])
  | .word text => text
  | .string quote inside => quote :: (inside ++ [quote])
  | .opening shape => [Char.ofNat shape.opener.toNat]
  | .closing shape => [Char.ofNat shape.closer.toNat]
  | .comma => [',']
  | .colon => [':']

/-- The bytes of a lexeme. -/
def bytes (l : Lexeme) : List UInt8 := Text.utf8 l.chars

/-- Blanks and comments. -/
def isTrivium : Lexeme → Bool
  | .blank _ | .line _ | .block _ _ => true
  | _ => false

/-- Whether a lexeme ends where it says. No comment and no string goes
over a line end. -/
def isWellFormed : Lexeme → Bool
  | .blank c => isBlankChar c
  | .line text => !text.contains '\n'
  | .block text after => isBlankChar after && !text.contains '\n' && !hasBlockEnd (Text.utf8 text)
  | .word text => !text.isEmpty && text.all isLiteralChar
  | .string quote inside =>
    isQuoteChar quote && !inside.contains '\n' &&
      isInside (UInt8.ofNat quote.toNat) (Text.utf8 inside)
  | .opening _ | .closing _ | .comma | .colon => true

/-- The labels of its bytes. -/
def marks (l : Lexeme) : List Mark :=
  match l with
  | .line text => (lineComment (Text.utf8 text)).map (⟨·, .comment⟩) ++ [⟨lineFeed, .code⟩]
  | .block text after =>
    (blockComment (Text.utf8 text)).map (⟨·, .comment⟩) ++ (Text.utf8 [after]).map (⟨·, .code⟩)
  | .string .. => l.bytes.map (⟨·, .text⟩)
  | _ => l.bytes.map (⟨·, .code⟩)

end Lexeme

/-- **What stands before a lexeme**, as far as it matters for what may
follow. -/
structure Context where
  /-- Whether a comment may follow: the last byte is a blank or
  punctuation. -/
  comment : Bool
  /-- Whether a word or a string may follow: none has come since the last
  punctuation. -/
  atom : Bool
  /-- The open brackets. -/
  stack : List Bracket
deriving DecidableEq

namespace Context

/-- Right after punctuation. -/
def fresh (stack : List Bracket) : Context := ⟨true, true, stack⟩

/-- What stands before the next lexeme, if this one may stand here. -/
def step (ctx : Context) (l : Lexeme) : Option Context :=
  if !l.isWellFormed then none
  else match l with
  | .blank _ => some ⟨true, ctx.atom, ctx.stack⟩
  | .line _ | .block _ _ => if ctx.comment then some ctx else none
  | .word _ | .string _ _ => if ctx.atom then some ⟨false, false, ctx.stack⟩ else none
  | .opening shape => some (fresh (shape :: ctx.stack))
  | .closing shape =>
    if ctx.stack.head? = some shape then some (fresh ctx.stack.tail) else none
  | .comma | .colon => some (fresh ctx.stack)

/-- What stands after a sequence of lexemes. -/
def run (ctx : Context) (ls : List Lexeme) : Option Context := ls.foldlM step ctx

theorem run_append {ctx : Context} {ls ms : List Lexeme} :
    ctx.run (ls ++ ms) = (ctx.run ls).bind (·.run ms) :=
  List.foldlM_append

theorem run_cons {ctx : Context} {l : Lexeme} {ls : List Lexeme} :
    ctx.run (l :: ls) = (ctx.step l).bind (·.run ls) :=
  List.foldlM_cons

section Step

variable {ctx ctx' : Context} {text : List Char} {c quote : Char} {shape : Bracket}

theorem isWellFormed_of_step {l : Lexeme} (h : ctx.step l = some ctx') :
    l.isWellFormed = true := by
  unfold step at h
  split at h
  · cases h
  · rename_i hl
    simpa using hl

theorem step_blank :
    ctx.step (.blank c) = some ctx' ↔
      (Lexeme.blank c).isWellFormed = true ∧ ⟨true, ctx.atom, ctx.stack⟩ = ctx' := by
  cases hl : (Lexeme.blank c).isWellFormed <;> simp [step, hl]

theorem step_line :
    ctx.step (.line text) = some ctx' ↔
      (Lexeme.line text).isWellFormed = true ∧ ctx.comment = true ∧ ctx = ctx' := by
  cases hl : (Lexeme.line text).isWellFormed <;> simp [step, hl]

theorem step_block :
    ctx.step (.block text c) = some ctx' ↔
      (Lexeme.block text c).isWellFormed = true ∧ ctx.comment = true ∧ ctx = ctx' := by
  cases hl : (Lexeme.block text c).isWellFormed <;> simp [step, hl]

theorem step_word :
    ctx.step (.word text) = some ctx' ↔
      (Lexeme.word text).isWellFormed = true ∧ ctx.atom = true ∧
        ⟨false, false, ctx.stack⟩ = ctx' := by
  cases hl : (Lexeme.word text).isWellFormed <;> simp [step, hl]

theorem step_string :
    ctx.step (.string quote text) = some ctx' ↔
      (Lexeme.string quote text).isWellFormed = true ∧ ctx.atom = true ∧
        ⟨false, false, ctx.stack⟩ = ctx' := by
  cases hl : (Lexeme.string quote text).isWellFormed <;> simp [step, hl]

theorem step_opening : ctx.step (.opening shape) = some (fresh (shape :: ctx.stack)) := rfl

theorem step_closing {below : List Bracket} (h : ctx.stack = shape :: below) :
    ctx.step (.closing shape) = some (fresh below) := by
  simp [step, Lexeme.isWellFormed, h]

theorem exists_of_step_closing (h : ctx.step (.closing shape) = some ctx') :
    ∃ below, ctx.stack = shape :: below ∧ fresh below = ctx' := by
  simp only [step, Lexeme.isWellFormed, Bool.not_true, Bool.false_eq_true, if_false] at h
  split at h
  · rename_i htop
    cases h
    obtain ⟨below, hbelow⟩ := List.head?_eq_some_iff.1 htop
    exact ⟨below, hbelow, by rw [hbelow, List.tail_cons]⟩
  · cases h

theorem step_comma : ctx.step .comma = some (fresh ctx.stack) := rfl

theorem step_colon : ctx.step .colon = some (fresh ctx.stack) := rfl

end Step

end Context

namespace Lexeme

/-! ## The bytes of words, blanks and punctuation -/

/-- The bytes that no word has. -/
def syntaxBytes : List UInt8 :=
  [doubleQuote, singleQuote, backQuote, slash, 0x2C, 0x3A, 0x09, 0x0A, 0x0C, 0x0D, 0x20,
    0x7B, 0x7D, 0x5B, 0x5D, 0x28, 0x29]

theorem isLiteralChar_of_mem_syntaxBytes :
    ∀ b ∈ syntaxBytes, b < 0x80 ∧ isLiteralChar (Char.ofNat b.toNat) = false := by
  decide +kernel

theorem notMem_syntaxBytes {text : List Char} (h : text.all isLiteralChar = true) {b : UInt8}
    (hb : b ∈ Text.utf8 text) : b ∉ syntaxBytes := by
  intro hs
  obtain ⟨hlt, hfalse⟩ := isLiteralChar_of_mem_syntaxBytes b hs
  obtain ⟨c, hc, hbc⟩ := List.mem_flatMap.1 hb
  have hnat := (Text.eq_of_mem_utf8EncodeChar hlt hbc).1
  rw [← hnat, Char.ofNat_toNat] at hfalse
  rw [List.all_eq_true.1 h c hc] at hfalse
  cases hfalse

theorem isInert_of_notMem {b : UInt8} (h : b ∉ syntaxBytes) : isInert b = true := by
  simp only [syntaxBytes, List.mem_cons, not_or] at h
  simp [isInert, isQuote, h]

theorem isSolid_of_notMem {b : UInt8} (h : b ∉ syntaxBytes) :
    Mark.isSolid ⟨b, .code⟩ = true := by
  simp only [syntaxBytes, List.mem_cons, not_or] at h
  simp [Mark.isSolid, isSpace, Bracket.ofOpener?, Bracket.ofCloser?, Bracket.opener,
    Bracket.closer, h]

theorem exists_utf8_of_isBlankChar {c : Char} (h : isBlankChar c = true) :
    ∃ b, Text.utf8 [c] = [b] ∧ isSpace b = true := by
  simp only [isBlankChar, Bool.or_eq_true, beq_iff_eq] at h
  rcases h with (((rfl | rfl) | rfl) | rfl) | rfl <;> exact ⟨_, rfl, rfl⟩

theorem isInert_of_isSpace {b : UInt8} (h : isSpace b = true) : isInert b = true := by
  simp only [isSpace, Bool.or_eq_true, beq_iff_eq] at h
  rcases h with (((rfl | rfl) | rfl) | rfl) | rfl <;> rfl

theorem bytes_opening (shape : Bracket) : bytes (.opening shape) = [shape.opener] := by
  cases shape <;> rfl

theorem bytes_closing (shape : Bracket) : bytes (.closing shape) = [shape.closer] := by
  cases shape <;> rfl

theorem marks_opening (shape : Bracket) : marks (.opening shape) = [⟨shape.opener, .code⟩] := by
  cases shape <;> rfl

theorem marks_closing (shape : Bracket) : marks (.closing shape) = [⟨shape.closer, .code⟩] := by
  cases shape <;> rfl

theorem marks_comma : marks .comma = [⟨Lexical.comma, .code⟩] := rfl

theorem lineFeed_notMem {text : List Char} (h : text.contains '\n' = false) :
    lineFeed ∉ Text.utf8 text := by
  intro hmem
  have hmem' : '\n' ∈ text := Text.mem_of_mem_utf8 (a := '\n') (by decide) hmem
  simp only [List.contains_eq_mem, decide_eq_false_iff_not] at h
  exact h hmem'

theorem bytes_line (text : List Char) :
    bytes (.line text) = lineComment (Text.utf8 text) ++ [lineFeed] := by
  simp [bytes, chars, lineComment]
  rfl

theorem bytes_block (text : List Char) (after : Char) :
    bytes (.block text after) = blockComment (Text.utf8 text) ++ Text.utf8 [after] := by
  simp [bytes, chars, blockComment]
  rfl

theorem exists_utf8_of_isQuoteChar {c : Char} (h : isQuoteChar c = true) :
    Text.utf8 [c] = [UInt8.ofNat c.toNat] ∧ isQuote (UInt8.ofNat c.toNat) = true := by
  simp only [isQuoteChar, Bool.or_eq_true, beq_iff_eq] at h
  rcases h with (rfl | rfl) | rfl <;> exact ⟨rfl, rfl⟩

theorem bytes_string {quote : Char} (inside : List Char) (h : isQuoteChar quote = true) :
    bytes (.string quote inside) = inQuotes (UInt8.ofNat quote.toNat) (Text.utf8 inside) := by
  have hq := (exists_utf8_of_isQuoteChar h).1
  simp only [Text.utf8_cons, Text.utf8_nil, List.append_nil] at hq
  simp [bytes, chars, inQuotes, hq]

/-! ## Scanning one lexeme -/

variable {ctx ctx' : Context} {l : Lexeme} {ls : List Lexeme} {before : Option UInt8}

/-- Whether a comment may follow: it may after these bytes. -/
theorem admitsComment_of_isSpace {b : UInt8} (h : isSpace b = true) :
    admitsComment (some b) = true := by
  simp [admitsComment, h]

/-- **Scanning a lexeme** gives its labels and ends in code, whatever is
ahead. -/
theorem scan (h : ctx.step l = some ctx')
    (hb : ctx.comment = true → admitsComment before = true) (ahead : Option UInt8) :
    modeAfter .code before ahead l.bytes = .code ∧
      marksOver .code before ahead l.bytes = l.marks := by
  cases l with
  | blank c =>
    obtain ⟨b, hc, hspace⟩ := exists_utf8_of_isBlankChar (Context.step_blank.1 h).1
    have hcode : ∀ x ∈ bytes (.blank c), isInert x = true := by
      simp only [bytes, chars, hc, List.mem_singleton, forall_eq]
      exact isInert_of_isSpace hspace
    exact ⟨modeAfter_code hcode, marksOver_code hcode⟩
  | line text =>
    obtain ⟨hl, hctx, -⟩ := Context.step_line.1 h
    have hline := lineFeed_notMem (by simpa [isWellFormed] using hl)
    have hfeed : ∀ x ∈ [lineFeed], isInert x = true := List.all_eq_true.1 (by decide)
    rw [bytes_line, modeAfter_append, marksOver_append, List.head?_cons, Option.some_or,
      modeAfter_lineComment (hb hctx) hline, marksOver_lineComment (hb hctx) hline]
    exact ⟨modeAfter_code hfeed, congrArg _ (marksOver_code hfeed)⟩
  | block text after =>
    obtain ⟨hl, hctx, -⟩ := Context.step_block.1 h
    simp only [isWellFormed, Bool.and_eq_true, Bool.not_eq_true'] at hl
    obtain ⟨b, hc, hspace⟩ := exists_utf8_of_isBlankChar hl.1.1
    have hcode : ∀ x ∈ Text.utf8 [after], isInert x = true := by
      simp only [hc, List.mem_singleton, forall_eq]
      exact isInert_of_isSpace hspace
    rw [bytes_block, modeAfter_append, marksOver_append, modeAfter_blockComment (hb hctx) hl.2,
      marksOver_blockComment (hb hctx) hl.2]
    exact ⟨modeAfter_code hcode, congrArg _ (marksOver_code hcode)⟩
  | word text =>
    have hl := (Context.step_word.1 h).1
    simp only [isWellFormed, Bool.and_eq_true] at hl
    have hcode : ∀ x ∈ bytes (.word text), isInert x = true := fun x hx =>
      isInert_of_notMem (notMem_syntaxBytes hl.2 hx)
    exact ⟨modeAfter_code hcode, marksOver_code hcode⟩
  | string quote inside =>
    have hl := (Context.step_string.1 h).1
    simp only [isWellFormed, Bool.and_eq_true] at hl
    have hquote := (exists_utf8_of_isQuoteChar hl.1.1).2
    rw [marks, bytes_string inside hl.1.1]
    exact ⟨modeAfter_inQuotes hquote hl.2, marksOver_inQuotes hquote hl.2⟩
  | opening shape =>
    have hcode : ∀ x ∈ bytes (.opening shape), isInert x = true :=
      List.all_eq_true.1 (by cases shape <;> decide)
    exact ⟨modeAfter_code hcode, marksOver_code hcode⟩
  | closing shape =>
    have hcode : ∀ x ∈ bytes (.closing shape), isInert x = true :=
      List.all_eq_true.1 (by cases shape <;> decide)
    exact ⟨modeAfter_code hcode, marksOver_code hcode⟩
  | comma =>
    have hcode : ∀ x ∈ bytes .comma, isInert x = true := List.all_eq_true.1 (by decide)
    exact ⟨modeAfter_code hcode, marksOver_code hcode⟩
  | colon =>
    have hcode : ∀ x ∈ bytes .colon, isInert x = true := List.all_eq_true.1 (by decide)
    exact ⟨modeAfter_code hcode, marksOver_code hcode⟩

/-- The last byte of a lexeme admits a comment where the next lexeme may
be one. -/
theorem admitsComment_getLast? (h : ctx.step l = some ctx') (before : Option UInt8)
    (hctx' : ctx'.comment = true) :
    admitsComment (l.bytes.getLast?.or before) = true := by
  cases l with
  | blank c =>
    obtain ⟨b, hc, hspace⟩ := exists_utf8_of_isBlankChar (Context.step_blank.1 h).1
    simp only [bytes, chars, hc]
    exact admitsComment_of_isSpace hspace
  | line text =>
    rw [bytes_line, List.getLast?_concat]
    rfl
  | block text after =>
    have hl := (Context.step_block.1 h).1
    simp only [isWellFormed, Bool.and_eq_true] at hl
    obtain ⟨b, hc, hspace⟩ := exists_utf8_of_isBlankChar hl.1.1
    rw [bytes_block, hc, List.getLast?_concat]
    exact admitsComment_of_isSpace hspace
  | word text =>
    rw [← (Context.step_word.1 h).2.2] at hctx'
    cases hctx'
  | string quote inside =>
    rw [← (Context.step_string.1 h).2.2] at hctx'
    cases hctx'
  | opening shape =>
    rw [bytes_opening]
    cases shape <;> rfl
  | closing shape =>
    rw [bytes_closing]
    cases shape <;> rfl
  | comma => rfl
  | colon => rfl

/-- The labels of a blank or a comment. -/
theorem isBlank_of_mem_marks (h : l.isTrivium = true) (hwell : l.isWellFormed = true)
    {mark : Mark} (hmark : mark ∈ l.marks) : mark.isBlank = true := by
  cases l with
  | blank c =>
    obtain ⟨b, hc, hspace⟩ := exists_utf8_of_isBlankChar hwell
    simp only [marks, bytes, chars, hc, List.map_cons, List.map_nil, List.mem_singleton] at hmark
    simp [hmark, Mark.isBlank, hspace]
  | line text =>
    simp only [marks, List.mem_append, List.mem_map, List.mem_singleton] at hmark
    rcases hmark with ⟨b, -, rfl⟩ | rfl <;> rfl
  | block text after =>
    simp only [isWellFormed, Bool.and_eq_true] at hwell
    obtain ⟨b, hc, hspace⟩ := exists_utf8_of_isBlankChar hwell.1.1
    simp only [marks, hc, List.mem_append, List.mem_map, List.mem_singleton] at hmark
    rcases hmark with ⟨b, -, rfl⟩ | ⟨c, rfl, rfl⟩
    · rfl
    · simp [Mark.isBlank, hspace]
  | word | string | opening | closing | comma | colon => cases h

/-- The brackets that are open after a lexeme. -/
theorem openAfter_marks (h : ctx.step l = some ctx') :
    openAfter ctx.stack l.marks = some ctx'.stack := by
  cases l with
  | blank c =>
    obtain ⟨hl, rfl⟩ := Context.step_blank.1 h
    exact (nested_of_isBlank fun _ => isBlank_of_mem_marks rfl hl).openAfter_eq
  | line text =>
    obtain ⟨hl, -, rfl⟩ := Context.step_line.1 h
    exact (nested_of_isBlank fun _ => isBlank_of_mem_marks rfl hl).openAfter_eq
  | block text after =>
    obtain ⟨hl, -, rfl⟩ := Context.step_block.1 h
    exact (nested_of_isBlank fun _ => isBlank_of_mem_marks rfl hl).openAfter_eq
  | word text =>
    obtain ⟨hl, -, rfl⟩ := Context.step_word.1 h
    simp only [isWellFormed, Bool.and_eq_true] at hl
    refine (nested_of_isSolid fun mark hmark => ?_).openAfter_eq
    obtain ⟨b, hb, rfl⟩ := List.mem_map.1 hmark
    exact isSolid_of_notMem (notMem_syntaxBytes hl.2 hb)
  | string quote inside =>
    obtain ⟨-, -, rfl⟩ := Context.step_string.1 h
    refine (nested_of_isSolid fun mark hmark => ?_).openAfter_eq
    obtain ⟨b, hb, rfl⟩ := List.mem_map.1 hmark
    rfl
  | opening shape =>
    cases h
    rw [marks_opening]
    exact openAfter_opener
  | closing shape =>
    obtain ⟨below, hstack, rfl⟩ := Context.exists_of_step_closing h
    rw [hstack, marks_closing]
    exact openAfter_closer
  | comma =>
    cases h
    rfl
  | colon =>
    cases h
    rfl

/-! ## Sequences of lexemes -/

/-- The characters of a sequence. -/
def text (ls : List Lexeme) : List Char := ls.flatMap chars

/-- The labels of a sequence. -/
def allMarks (ls : List Lexeme) : List Mark := ls.flatMap marks

@[simp]
theorem text_nil : text [] = [] := rfl

@[simp]
theorem text_cons : text (l :: ls) = l.chars ++ text ls := List.flatMap_cons

@[simp]
theorem text_append {ms : List Lexeme} : text (ls ++ ms) = text ls ++ text ms :=
  List.flatMap_append

@[simp]
theorem allMarks_nil : allMarks [] = [] := rfl

@[simp]
theorem allMarks_cons : allMarks (l :: ls) = l.marks ++ allMarks ls := List.flatMap_cons

@[simp]
theorem allMarks_append {ms : List Lexeme} : allMarks (ls ++ ms) = allMarks ls ++ allMarks ms :=
  List.flatMap_append

/-- **Scanning a sequence that runs** finds its lexemes, whatever stands
around it. -/
theorem scan_of_run (h : ctx.run ls = some ctx')
    (hb : ctx.comment = true → admitsComment before = true) (ahead : Option UInt8) :
    modeAfter .code before ahead (Text.utf8 (text ls)) = .code ∧
      marksOver .code before ahead (Text.utf8 (text ls)) = allMarks ls := by
  induction ls generalizing ctx before with
  | nil => exact ⟨rfl, rfl⟩
  | cons l ls ih =>
    rw [Context.run_cons] at h
    obtain ⟨middle, hl, h⟩ := Option.bind_eq_some_iff.1 h
    rw [text_cons, Text.utf8_append, ← bytes, modeAfter_append, marksOver_append]
    obtain ⟨hmode, hmarks⟩ := scan hl hb ((Text.utf8 (text ls)).head?.or ahead)
    obtain ⟨hmodes, hallMarks⟩ := ih h fun hmiddle => admitsComment_getLast? hl before hmiddle
    rw [hmode, hmarks, hmodes, hallMarks, allMarks_cons]
    exact ⟨rfl, rfl⟩

/-- The brackets that are open after a sequence that runs. -/
theorem openAfter_of_run (h : ctx.run ls = some ctx') :
    openAfter ctx.stack (allMarks ls) = some ctx'.stack := by
  induction ls generalizing ctx with
  | nil =>
    cases h
    rfl
  | cons l ls ih =>
    rw [Context.run_cons] at h
    obtain ⟨middle, hl, h⟩ := Option.bind_eq_some_iff.1 h
    rw [allMarks_cons, openAfter_append, openAfter_marks hl]
    exact ih h

/-- There is a label for each byte. -/
theorem length_marks (l : Lexeme) : l.marks.length = l.bytes.length := by
  cases l with
  | line text => simp [marks, bytes_line]
  | block text after => simp [marks, bytes_block]
  | blank | word | string | opening | closing | comma | colon => simp [marks]

/-- The number of bytes of a sequence. -/
def width (ls : List Lexeme) : Nat := (Text.utf8 (text ls)).length

@[simp]
theorem width_nil : width [] = 0 := rfl

@[simp]
theorem width_cons : width (l :: ls) = l.bytes.length + width ls := by
  simp [width, bytes]

@[simp]
theorem width_append {ms : List Lexeme} : width (ls ++ ms) = width ls + width ms := by
  simp [width]

@[simp]
theorem length_allMarks : (allMarks ls).length = width ls := by
  induction ls with
  | nil => rfl
  | cons l ls ih => simp [ih, length_marks]

end Lexeme

end ConfigPatch.Lexical
