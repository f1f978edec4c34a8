import ConfigPatch.Literal.Exported
import ConfigPatch.Proofs.Literal.Layout
import Mathlib.Data.List.TakeDrop

/-!
# The export statement of a file

The words of a statement need two words in sequence, or an equals sign.
Lexemes that run have neither in code, and within comments and strings no
line begins. So the header of a file is its only statement.
-/

namespace ConfigPatch.Literal

open Lexical Lexeme

variable {ctx ctx' : Context} {l : Lexeme} {ls : List Lexeme} {c : Char} {cs ds : List Char}

/-! ## The characters of lexemes -/

/-- The code points of the blanks. -/
def blankPoints : List Nat :=
  [0x09, 0x0A, 0x0B, 0x0C, 0x0D, 0x20, 0x85, 0xA0, 0x1680, 0x2000, 0x2001, 0x2002, 0x2003, 0x2004,
    0x2005, 0x2006, 0x2007, 0x2008, 0x2009, 0x200A, 0x2028, 0x2029, 0x202F, 0x205F, 0x3000]

theorem toNat_mem_blankPoints (h : Text.isBlank c = true) : c.toNat ∈ blankPoints := by
  simp only [Text.isBlank, Bool.or_eq_true, Bool.and_eq_true, decide_eq_true_eq, beq_iff_eq] at h
  simp only [blankPoints, List.mem_cons, List.not_mem_nil, or_false]
  omega

theorem isLiteralChar_ofNat_blankPoints :
    ∀ n ∈ blankPoints, isLiteralChar (Char.ofNat n) = false := by
  decide +kernel

/-- No blank is part of a word. -/
theorem isBlank_eq_false_of_isLiteralChar (h : isLiteralChar c = true) :
    Text.isBlank c = false := by
  cases hblank : Text.isBlank c with
  | false => rfl
  | true =>
    have hpoint := isLiteralChar_ofNat_blankPoints _ (toNat_mem_blankPoints hblank)
    rw [Char.ofNat_toNat, h] at hpoint
    cases hpoint

theorem isLiteralChar_eq_false_of_isBlank (h : Text.isBlank c = true) :
    isLiteralChar c = false := by
  cases hliteral : isLiteralChar c with
  | false => rfl
  | true =>
    rw [isBlank_eq_false_of_isLiteralChar hliteral] at h
    cases h

theorem isLiteralChar_equals : isLiteralChar '=' = false := by
  decide +kernel

/-- The letters and digits of ASCII are identifier characters. -/
theorem isAlphanumeric_of_isAlphanum (h : c.isAlphanum = true) :
    Text.isAlphanumeric c = true := by
  change ((decide ('A'.val ≤ c.val ∧ c.val ≤ 'Z'.val) ||
    (decide ('a'.val ≤ c.val) && decide (c.val ≤ 'z'.val))) ||
    (decide ('0'.val ≤ c.val) && decide (c.val ≤ '9'.val))) = true at h
  simp only [Bool.or_eq_true, Bool.and_eq_true, decide_eq_true_eq, UInt32.le_iff_toNat_le] at h
  have hnat : c.toNat = c.val.toNat := rfl
  have hranges : ∃ r ∈ Text.alphanumericLow, r.1 ≤ c.toNat ∧ c.toNat ≤ r.2 := by
    rcases h with (h | h) | h
    · exact ⟨(0x41, 0x5A), .tail _ (.head _), h⟩
    · exact ⟨(0x61, 0x7A), .tail _ (.tail _ (.head _)), h⟩
    · exact ⟨(0x30, 0x39), .head _, h⟩
  obtain ⟨r, hr, hle⟩ := hranges
  have hlt : c.toNat < 0x1000 := by
    rcases h with (h | h) | h <;> simp at h <;> omega
  rw [Text.isAlphanumeric, if_pos hlt]
  exact List.any_eq_true.2 ⟨r, hr, by simpa using hle⟩

theorem isLiteralChar_of_isNameChar (h : isNameChar c = true) : isLiteralChar c = true := by
  simp only [isNameChar, Bool.or_eq_true, beq_iff_eq] at h
  rcases h with (h | rfl) | rfl
  · simp [isLiteralChar, Text.isWordChar, isAlphanumeric_of_isAlphanum h]
  · simp [isLiteralChar, Text.isWordChar]
  · simp [isLiteralChar, Text.isWordChar]

/-- Words that may have dots in them. -/
theorem isLiteralChar_of_all (h : (cs.all fun c => isNameChar c || c == '.') = true) :
    ∀ c ∈ cs, isLiteralChar c = true := by
  intro c hc
  have hname := List.all_eq_true.1 h c hc
  simp only [Bool.or_eq_true, beq_iff_eq] at hname
  rcases hname with hname | rfl
  · exact isLiteralChar_of_isNameChar hname
  · simp [isLiteralChar]

/-- A line ends at most with the last character of a lexeme. -/
theorem exists_chars_concat (h : l.isWellFormed = true) :
    ∃ front last, l.chars = front ++ [last] ∧ '\n' ∉ front := by
  cases l with
  | blank c => exact ⟨[], c, rfl, List.not_mem_nil⟩
  | line cs =>
    refine ⟨'/' :: '/' :: cs, '\n', rfl, ?_⟩
    simpa [isWellFormed] using h
  | block cs after =>
    refine ⟨'/' :: '*' :: (cs ++ ['*', '/']), after, by simp [chars], ?_⟩
    simp only [isWellFormed, Bool.and_eq_true, Bool.not_eq_true', List.contains_eq_mem,
      decide_eq_false_iff_not] at h
    simp [h.1.2]
  | word cs =>
    simp only [isWellFormed, Bool.and_eq_true, Bool.not_eq_true', List.isEmpty_eq_false_iff] at h
    refine ⟨cs.dropLast, cs.getLast h.1, (List.dropLast_concat_getLast h.1).symm, fun hmem => ?_⟩
    have hfeed := List.all_eq_true.1 h.2 _ ((List.dropLast_sublist cs).mem hmem)
    exact absurd (isBlank_eq_false_of_isLiteralChar hfeed) (by decide)
  | string quote cs =>
    refine ⟨quote :: cs, quote, rfl, ?_⟩
    simp only [isWellFormed, Bool.and_eq_true, Bool.not_eq_true', List.contains_eq_mem,
      decide_eq_false_iff_not] at h
    have hquote : '\n' ≠ quote := by
      rintro rfl
      exact absurd h.1.1 (by decide)
    simp [hquote, h.1.2]
  | opening shape | closing shape => exact ⟨[], _, rfl, List.not_mem_nil⟩
  | comma | colon => exact ⟨[], _, rfl, List.not_mem_nil⟩

/-- The first characters of comments, strings and punctuation. -/
def markChars : List Char :=
  ['/', '"', '\'', '\x60', '\x7b', '\x7d', '[', ']', '(', ')', ',', ':']

theorem of_mem_markChars :
    ∀ c ∈ markChars, isLiteralChar c = false ∧ Text.isBlank c = false ∧ c ≠ '=' ∧
      isNameChar c = false := by
  have hall : (markChars.all fun c =>
      !isLiteralChar c && (!Text.isBlank c && (c != '=' && !isNameChar c))) = true := by
    decide +kernel
  intro c hc
  simpa using List.all_eq_true.1 hall c hc

/-- **The first character of a lexeme** that is neither a blank nor a
word. -/
theorem exists_chars_cons (h : l.isWellFormed = true) (hblank : ∀ c, l ≠ .blank c)
    (hword : ∀ cs, l ≠ .word cs) : ∃ c ∈ markChars, ∃ cs, l.chars = c :: cs := by
  cases l with
  | blank c => exact absurd rfl (hblank c)
  | word cs => exact absurd rfl (hword cs)
  | line cs | block cs after => exact ⟨'/', by decide, _, rfl⟩
  | string quote cs =>
    simp only [isWellFormed, isQuoteChar, Bool.and_eq_true, Bool.or_eq_true, beq_iff_eq] at h
    refine ⟨quote, ?_, _, rfl⟩
    rcases h.1.1 with (rfl | rfl) | rfl <;> decide
  | opening shape | closing shape =>
    refine ⟨_, ?_, _, rfl⟩
    cases shape <;> decide
  | comma | colon => exact ⟨_, by decide, _, rfl⟩

theorem exists_chars_word (h : (Lexeme.word cs).isWellFormed = true) :
    ∃ c rest, cs = c :: rest ∧ cs.all isLiteralChar = true ∧ isLiteralChar c = true := by
  simp only [isWellFormed, Bool.and_eq_true, Bool.not_eq_true', List.isEmpty_eq_false_iff] at h
  obtain ⟨c, rest, rfl⟩ := List.exists_cons_of_ne_nil h.1
  exact ⟨c, rest, rfl, h.2, List.all_eq_true.1 h.2 c List.mem_cons_self⟩

/-- Where no word may follow, none does. -/
theorem head?_of_run (h : ctx.run ls = some ctx') (hctx : ctx.atom = false) :
    ∀ c ∈ (text ls).head?, isLiteralChar c = false ∧ c ≠ '=' := by
  intro c hc
  cases ls with
  | nil => cases hc
  | cons l ls =>
    rw [Context.run_cons] at h
    obtain ⟨middle, hl, -⟩ := Option.bind_eq_some_iff.1 h
    by_cases hblank : ∃ b, l = .blank b
    · obtain ⟨b, rfl⟩ := hblank
      cases hc
      have hb := (Context.step_blank.1 hl).1
      simp only [isWellFormed, isBlankChar, Bool.or_eq_true, beq_iff_eq] at hb
      rcases hb with (((rfl | rfl) | rfl) | rfl) | rfl <;>
        exact ⟨isLiteralChar_eq_false_of_isBlank (by decide), by decide⟩
    · have hword : ∀ cs, l ≠ .word cs := by
        rintro cs rfl
        rw [(Context.step_word.1 hl).2.1] at hctx
        cases hctx
      obtain ⟨d, hd, cs, hcs⟩ := exists_chars_cons (Context.isWellFormed_of_step hl)
        (fun b hb => hblank ⟨b, hb⟩) hword
      rw [text_cons, hcs] at hc
      cases hc
      exact ⟨(of_mem_markChars c hd).1, (of_mem_markChars c hd).2.2.1⟩

/-- Leading blanks are lexemes of their own. -/
theorem exists_dropWhile {p : Char → Bool} (hp : ∀ c, p c = true → Text.isBlank c = true)
    (h : ctx.run ls = some ctx') :
    ∃ (middle : Context) (rest : List Lexeme), (text ls).dropWhile p = text rest ∧
      middle.run rest = some ctx' ∧ middle.atom = ctx.atom := by
  induction ls generalizing ctx with
  | nil => exact ⟨ctx, [], rfl, h, rfl⟩
  | cons l ls ih =>
    have hrun := h
    rw [Context.run_cons] at h
    obtain ⟨next, hl, h⟩ := Option.bind_eq_some_iff.1 h
    have hwell := Context.isWellFormed_of_step hl
    have hstop (hstop : ∃ c rest, l.chars = c :: rest ∧ p c = false) :
        ∃ (middle : Context) (rest : List Lexeme), (text (l :: ls)).dropWhile p = text rest ∧
          middle.run rest = some ctx' ∧ middle.atom = ctx.atom := by
      obtain ⟨c, rest, hc, hpc⟩ := hstop
      refine ⟨ctx, l :: ls, ?_, hrun, rfl⟩
      rw [text_cons, hc, List.cons_append, List.dropWhile_cons_of_neg (by simp [hpc])]
    have hnot {c : Char} (hc : Text.isBlank c = false) : p c = false := by
      cases hpc : p c with
      | false => rfl
      | true => rw [hp c hpc] at hc; cases hc
    by_cases hblank : ∃ b, l = .blank b
    · obtain ⟨b, rfl⟩ := hblank
      cases hb : p b with
      | false => exact hstop ⟨b, [], rfl, hb⟩
      | true =>
        obtain ⟨-, rfl⟩ := Context.step_blank.1 hl
        obtain ⟨middle, rest, hrest, hmiddle, hatom⟩ := ih h
        refine ⟨middle, rest, ?_, hmiddle, hatom⟩
        rw [text_cons, chars, List.singleton_append, List.dropWhile_cons_of_pos hb, hrest]
    · by_cases hword : ∃ cs, l = .word cs
      · obtain ⟨cs, rfl⟩ := hword
        obtain ⟨c, rest, rfl, -, hc⟩ := exists_chars_word hwell
        exact hstop ⟨c, rest, rfl, hnot (isBlank_eq_false_of_isLiteralChar hc)⟩
      · obtain ⟨c, hc, rest, hrest⟩ := exists_chars_cons hwell (fun b hb => hblank ⟨b, hb⟩)
          fun cs hcs => hword ⟨cs, hcs⟩
        exact hstop ⟨c, rest, hrest, hnot (of_mem_markChars c hc).2.1⟩

/-! ## No statement in lexemes -/

/-- A word ends where a character follows that is in no word. -/
theorem isPrefixOf_append {word : List Char} (hword : ∀ c ∈ word, isLiteralChar c = true)
    (hds : ∀ c ∈ ds.head?, isLiteralChar c = false) :
    word.isPrefixOf (cs ++ ds) = word.isPrefixOf cs := by
  induction word generalizing cs with
  | nil => simp
  | cons a word ih =>
    cases cs with
    | nil =>
      cases ds with
      | nil => rfl
      | cons d ds =>
        have hne : a ≠ d := by
          rintro rfl
          have hd := hds a rfl
          rw [hword a List.mem_cons_self] at hd
          cases hd
        simp [List.isPrefixOf_cons_cons, hne]
    | cons c cs =>
      rw [List.cons_append, List.isPrefixOf_cons_cons, List.isPrefixOf_cons_cons,
        ih fun b hb => hword b (List.mem_cons_of_mem _ hb)]

theorem afterWord?_append {word : String} (hword : ∀ c ∈ word.toList, isLiteralChar c = true)
    (hds : ∀ c ∈ ds.head?, isLiteralChar c = false) :
    afterWord? word (cs ++ ds) = (afterWord? word cs).map (· ++ ds) := by
  rw [afterWord?, afterWord?, isPrefixOf_append hword hds]
  split
  · rename_i h
    have hle := (List.isPrefixOf_iff_prefix.1 h).length_le
    rw [String.length_toList] at hle
    rw [Option.map_some, List.drop_append_of_le_length hle]
  · rfl

/-- A text that begins with another character does not begin with the
word. -/
theorem afterWord?_eq_none {word : String} {first : Char} {rest : List Char}
    (hword : word.toList = first :: rest) (h : ∀ c ∈ cs.head?, c ≠ first) :
    afterWord? word cs = none := by
  rw [afterWord?, if_neg]
  rw [hword]
  cases cs with
  | nil => simp
  | cons c cs => simp [(h c rfl).symm]

theorem readWords?_eq_none (h : ∀ c ∈ cs.head?, c ≠ 'e' ∧ c ≠ 'm') : readWords? cs = none := by
  have hexport : afterWord? "export" cs = none :=
    afterWord?_eq_none (show "export".toList = 'e' :: "xport".toList by decide)
      fun c hc => (h c hc).1
  have hmodule : afterWord? "module.exports" cs = none :=
    afterWord?_eq_none (show "module.exports".toList = 'm' :: "odule.exports".toList by
      decide) fun c hc => (h c hc).2
  rw [readWords?, hexport, hmodule]
  rfl

/-- **Two words in sequence, or an equals sign, is what a statement
needs.** -/
theorem readWords?_word (hcs : ∀ c ∈ cs, isLiteralChar c = true)
    (hds : ∀ c ∈ ds.head?, isLiteralChar c = false)
    (hnext : ∀ c ∈ (ds.dropWhile Text.isBlank).head?, isLiteralChar c = false ∧ c ≠ '=') :
    readWords? (cs ++ ds) = none := by
  have hexport : ∀ c ∈ "export".toList, isLiteralChar c = true :=
    isLiteralChar_of_all (by decide)
  have hmodule : ∀ c ∈ "module.exports".toList, isLiteralChar c = true :=
    isLiteralChar_of_all (by decide)
  -- what is left of the word when a prefix of it is taken
  have hrest {word : String} {rest : List Char} (h : afterWord? word cs = some rest) :
      ∀ c ∈ rest, isLiteralChar c = true := by
    rw [afterWord?] at h
    split at h
    · cases h
      exact fun c hc => hcs c (List.mem_of_mem_drop hc)
    · cases h
  rw [readWords?, afterWord?_append hexport hds, afterWord?_append hmodule hds]
  cases h : afterWord? "export" cs with
  | some rest =>
    simp only [Option.map_some]
    cases rest with
    | cons c rest =>
      have hc := isBlank_eq_false_of_isLiteralChar (hrest h c List.mem_cons_self)
      rw [List.span_eq_takeWhile_dropWhile, List.cons_append,
        List.takeWhile_cons_of_neg (by simp [hc])]
    | nil =>
      rw [List.span_eq_takeWhile_dropWhile, List.nil_append]
      split
      · rfl
      · rename_i rest heq
        cases heq
        rw [afterWord?_eq_none (show "default".toList = 'd' :: "efault".toList by decide)]
        · rfl
        · rintro c hc rfl
          have hd := (hnext _ hc).1
          rw [isLiteralChar_of_isNameChar (by decide)] at hd
          cases hd
  | none =>
    simp only [Option.map_none]
    cases hm : afterWord? "module.exports" cs with
    | none => rfl
    | some rest =>
      have hequals : afterWord? "=" ((rest ++ ds).dropWhile Text.isBlank) = none := by
        refine afterWord?_eq_none (show "=".toList = '=' :: [] by decide) ?_
        cases rest with
        | cons c rest =>
          have hc := hrest hm c List.mem_cons_self
          rw [List.cons_append, List.dropWhile_cons_of_neg
            (by simp [isBlank_eq_false_of_isLiteralChar hc])]
          rintro d hd rfl
          cases hd
          rw [isLiteralChar_equals] at hc
          cases hc
        | nil => exact fun c hc => (hnext c hc).2
      simp only [Option.map_some, Option.bind_eq_bind, Option.bind_some, hequals]
      rfl

theorem readWords?_of_run (h : ctx.run ls = some ctx') : readWords? (text ls) = none := by
  cases ls with
  | nil => exact readWords?_eq_none fun c hc => by cases hc
  | cons l ls =>
    rw [Context.run_cons] at h
    obtain ⟨middle, hl, h⟩ := Option.bind_eq_some_iff.1 h
    have hwell := Context.isWellFormed_of_step hl
    rw [text_cons]
    by_cases hword : ∃ cs, l = .word cs
    · -- a word: none follows it, whatever blanks are between
      obtain ⟨cs, rfl⟩ := hword
      obtain ⟨-, -, rfl⟩ := Context.step_word.1 hl
      obtain ⟨c, rest, hcs, hall, -⟩ := exists_chars_word hwell
      obtain ⟨last, suffix, hsuffix, hlast, hatom⟩ := exists_dropWhile (fun _ hc => hc) h
      refine readWords?_word (List.all_eq_true.1 hall) (fun c hc => (head?_of_run h rfl c hc).1) ?_
      rw [hsuffix]
      exact head?_of_run hlast hatom
    · refine readWords?_eq_none ?_
      by_cases hblank : ∃ b, l = .blank b
      · obtain ⟨b, rfl⟩ := hblank
        intro c hc
        cases hc
        simp only [isWellFormed, isBlankChar, Bool.or_eq_true, beq_iff_eq] at hwell
        rcases hwell with (((rfl | rfl) | rfl) | rfl) | rfl <;> decide
      · obtain ⟨c, hc, rest, hrest⟩ := exists_chars_cons hwell (fun b hb => hblank ⟨b, hb⟩)
          fun cs hcs => hword ⟨cs, hcs⟩
        rw [hrest]
        intro d hd
        cases hd
        constructor
        · rintro rfl
          exact absurd hc (by decide)
        · rintro rfl
          exact absurd hc (by decide)

/-- **No statement begins with lexemes that run.** -/
theorem readStatement?_of_run (h : ctx.run ls = some ctx') (offset : Nat) :
    readStatement? offset (text ls) = none := by
  have hblank : ∀ c : Char, (c == ' ' || c == '\t') = true → Text.isBlank c = true := by
    intro c hc
    simp only [Bool.or_eq_true, beq_iff_eq] at hc
    rcases hc with rfl | rfl <;> decide
  obtain ⟨middle, rest, hrest, hrun, -⟩ := exists_dropWhile hblank h
  simp [readStatement?, hrest, readWords?_of_run hrun]

/-- A character at which no statement begins. -/
theorem statementsFrom_cons {offset : Nat} {lineStart : Bool}
    (h : lineStart = true → readStatement? offset (c :: cs) = none) :
    statementsFrom offset 0 lineStart (c :: cs) =
      statementsFrom (offset + c.utf8Size) 0 (c == '\n') cs := by
  rw [statementsFrom]
  cases lineStart with
  | false => rfl
  | true => simp only [if_true, h]

/-- Within a line no statement begins. -/
theorem statementsFrom_line {front : List Char} {last : Char} {offset : Nat} {lineStart : Bool}
    (hfront : '\n' ∉ front)
    (h : lineStart = true → readStatement? offset (front ++ last :: cs) = none) :
    statementsFrom offset 0 lineStart (front ++ last :: cs) =
      statementsFrom (offset + (Text.utf8 front).length + last.utf8Size) 0 (last == '\n') cs := by
  induction front generalizing offset lineStart with
  | nil => exact statementsFrom_cons h
  | cons c front ih =>
    simp only [List.mem_cons, not_or] at hfront
    have hc : (c == '\n') = false := by simpa using Ne.symm hfront.1
    rw [List.cons_append] at h ⊢
    rw [statementsFrom_cons h, hc, ih hfront.2 fun h => absurd h Bool.false_ne_true]
    simp [Nat.add_assoc]

/-- **Lexemes that run have no statements in them.** -/
theorem statementsFrom_of_run (h : ctx.run ls = some ctx') (offset : Nat) (lineStart : Bool) :
    statementsFrom offset 0 lineStart (text ls) = [] := by
  induction ls generalizing ctx offset lineStart with
  | nil => rfl
  | cons l ls ih =>
    have hrun := h
    rw [Context.run_cons] at h
    obtain ⟨middle, hl, h⟩ := Option.bind_eq_some_iff.1 h
    obtain ⟨front, last, hchars, hfront⟩ :=
      exists_chars_concat (Context.isWellFormed_of_step hl)
    have htext : text (l :: ls) = front ++ last :: text ls := by
      rw [text_cons, hchars, List.append_assoc, List.singleton_append]
    rw [htext, statementsFrom_line hfront, ih h]
    intro _
    rw [← htext]
    exact readStatement?_of_run hrun offset

/-! ## The header -/

/-- The rest of a statement is passed over. -/
theorem statementsFrom_skip {front : List Char} {offset : Nat} {lineStart : Bool} :
    ∃ offset' lineStart', statementsFrom offset front.length lineStart (front ++ cs) =
      statementsFrom offset' 0 lineStart' cs := by
  induction front generalizing offset lineStart with
  | nil => exact ⟨offset, lineStart, rfl⟩
  | cons c front ih => exact ih

/-- A text that begins with a statement. -/
theorem statementsFrom_statement {front : List Char} {offset : Nat} {statement : Statement}
    (hne : front ≠ [])
    (h : readStatement? offset (front ++ cs) = some (statement, front.length)) :
    ∃ offset' lineStart', statementsFrom offset 0 true (front ++ cs) =
      statement :: statementsFrom offset' 0 lineStart' cs := by
  obtain ⟨c, front, rfl⟩ := List.exists_cons_of_ne_nil hne
  rw [List.cons_append] at h ⊢
  obtain ⟨offset', lineStart', hskip⟩ := statementsFrom_skip
  rw [statementsFrom]
  simp only [if_true, h, List.length_cons, Nat.add_sub_cancel]
  exact ⟨offset', lineStart', congrArg _ hskip⟩

theorem afterWord?_toList_append {word : String} :
    afterWord? word (word.toList ++ cs) = some cs := by
  rw [afterWord?, if_pos (List.isPrefixOf_iff_prefix.2 (List.prefix_append _ _)),
    ← String.length_toList, List.drop_left]

/-- The words of a header are read as such. -/
theorem readWords?_words (convention : Convention) :
    readWords? (Source.words convention ++ cs) = some (convention, ' ' :: cs) := by
  have hspace : Text.isBlank ' ' = true := by decide
  cases convention with
  | exportDefault =>
    have hwords : Source.words .exportDefault =
        "export".toList ++ ' ' :: ("default".toList ++ [' ']) := by decide
    have hd : "default".toList = 'd' :: "efault".toList := by decide
    have hletter : Text.isBlank 'd' = false := by decide
    have htake : (' ' :: ("default".toList ++ ' ' :: cs)).takeWhile Text.isBlank = [' '] := by
      simp [hspace, hd, hletter]
    have hdrop : (' ' :: ("default".toList ++ ' ' :: cs)).dropWhile Text.isBlank =
        "default".toList ++ ' ' :: cs := by
      simp [hspace, hd, hletter]
    rw [hwords, List.append_assoc, List.cons_append, List.append_assoc, List.singleton_append,
      readWords?, afterWord?_toList_append]
    simp only [List.span_eq_takeWhile_dropWhile, htake, hdrop, afterWord?_toList_append]
    rfl
  | moduleExports =>
    have hwords : Source.words .moduleExports =
        "module.exports".toList ++ ' ' :: ("=".toList ++ [' ']) := by decide
    have hm : "module.exports".toList = 'm' :: "odule.exports".toList := by decide
    have hequals : "=".toList = ['='] := by decide
    have hsign : Text.isBlank '=' = false := by decide
    have hexport : afterWord? "export"
        ("module.exports".toList ++ ' ' :: ("=".toList ++ ' ' :: cs)) = none := by
      refine afterWord?_eq_none (show "export".toList = 'e' :: "xport".toList by decide) ?_
      rw [hm]
      rintro c hc rfl
      cases hc
    have hdrop : (' ' :: ("=".toList ++ ' ' :: cs)).dropWhile Text.isBlank =
        "=".toList ++ ' ' :: cs := by
      simp [hspace, hequals, hsign]
    rw [hwords, List.append_assoc, List.cons_append, List.append_assoc, List.singleton_append,
      readWords?, hexport]
    simp only [afterWord?_toList_append, Option.bind_eq_bind, Option.bind_some, hdrop]
    rfl

/-- The number of bytes up to the blank at the end of the words. -/
def Source.wordsEnd (convention : Convention) : Nat :=
  (Text.utf8 (Source.words convention)).length - 1

/-- **What a header is read as.** -/
theorem readStatement?_words (convention : Convention) :
    readStatement? 0 (Source.words convention ++ cs) =
      match readCall? (cs.dropWhile Text.isBlank) with
      | none => some (⟨convention, 0, Source.wordsEnd convention, none⟩,
          (Source.words convention ++ cs).length - (cs.dropWhile Text.isBlank).length)
      | some (name, inner) => some (⟨convention, 0, Source.wordsEnd convention,
          some (name, bytesBetween (Source.words convention ++ cs) inner)⟩,
          (Source.words convention ++ cs).length - inner.length) := by
  have hspace : Text.isBlank ' ' = true := by decide
  have hwords : (Source.words convention ++ cs).dropWhile (fun c => c == ' ' || c == '\t') =
      Source.words convention ++ cs := by
    obtain ⟨c, rest, hc, hne⟩ : ∃ c rest, Source.words convention = c :: rest ∧
        (c == ' ' || c == '\t') = false := by
      cases convention
      · exact ⟨'e', "xport default ".toList, by decide, rfl⟩
      · exact ⟨'m', "odule.exports = ".toList, by decide, rfl⟩
    rw [hc, List.cons_append, List.dropWhile_cons_of_neg (by simp [hne])]
  have hstop : bytesBetween (Source.words convention ++ cs) (' ' :: cs) =
      Source.wordsEnd convention := by
    have hpos : 0 < (Text.utf8 (Source.words convention)).length := by
      cases convention <;> decide
    have hone : ' '.utf8Size = 1 := rfl
    simp only [bytesBetween, Text.utf8_append, Text.utf8_cons, List.length_append,
      String.length_utf8EncodeChar, Source.wordsEnd, hone]
    omega
  have hself : bytesBetween (Source.words convention ++ cs) (Source.words convention ++ cs) = 0 :=
    Nat.sub_self _
  rw [readStatement?]
  simp only [hwords, readWords?_words, Option.bind_eq_bind, Option.bind_some, hstop, hself,
    List.dropWhile_cons_of_pos hspace, Nat.zero_add]
  cases readCall? (cs.dropWhile Text.isBlank) <;> rfl

/-- The name of a function begins with no blank. -/
theorem dropWhile_isBlank_name {name : List Char} (h : Source.isFunctionName name = true) :
    (name ++ cs).dropWhile Text.isBlank = name ++ cs := by
  cases name with
  | nil => cases h
  | cons c name =>
    simp only [Source.isFunctionName, Bool.and_eq_true] at h
    have hblank := isBlank_eq_false_of_isLiteralChar (isLiteralChar_of_isNameChar h.1.1)
    rw [List.cons_append, List.dropWhile_cons_of_neg (by simp [hblank])]

/-- The name of a function is read up to the parenthesis. -/
theorem readCall?_append {name : List Char} (h : Source.isFunctionName name = true) :
    readCall? (name ++ '(' :: cs) = some (String.ofList name, cs) := by
  cases name with
  | nil => cases h
  | cons c name =>
    simp only [Source.isFunctionName, Bool.and_eq_true, Bool.not_eq_true'] at h
    have hopen : isNameChar '(' = false := by decide
    have hall : ∀ d ∈ c :: name, isNameChar d = true :=
      List.forall_mem_cons.2 ⟨h.1.1, List.all_eq_true.1 h.2⟩
    have hspan : (c :: name ++ '(' :: cs).span isNameChar = (c :: name, '(' :: cs) := by
      rw [List.span_eq_takeWhile_dropWhile, List.takeWhile_append_of_pos hall,
        List.dropWhile_append_of_pos hall]
      simp [hopen]
    have hblank : Text.isBlank '(' = false := by decide
    have hdrop : ('(' :: cs).dropWhile Text.isBlank = '(' :: cs := by
      rw [List.dropWhile_cons_of_neg (by simp [hblank])]
    rw [readCall?, hspan]
    simp only [h.1.2, Bool.false_eq_true, if_false, hdrop]

theorem readCall?_eq_none (h : ∀ c ∈ cs.head?, isNameChar c = false) : readCall? cs = none := by
  rw [readCall?, List.span_eq_takeWhile_dropWhile]
  cases cs with
  | nil => rfl
  | cons c cs => rw [List.takeWhile_cons_of_neg (by simp [h c rfl])]

/-! ## Files -/

variable {options : Options} {source : Source}

namespace Source

/-- The text of a file after its header runs. No word begins it. -/
theorem run_body (h : source.isWellFormed options = true) :
    ∃ ctx, (Context.mk true false [.round]).run source.body = some ctx := by
  simp only [isWellFormed, isFrame, Bool.and_eq_true] at h
  obtain ⟨⟨⟨⟨hlead, htrail⟩, -⟩, hroot⟩, -⟩ := h
  have hwell := hroot
  simp only [root, Node.isWellFormed, Bool.and_eq_true] at hwell
  have hinside := balanced_joined (balanced_of_mem_entrySlots hwell.1) hwell.2
  rw [body, Context.run_append, run_gap hlead (.inl rfl), Option.bind_some, Context.run_append,
    root, Node.lexemes, run_bracket hinside, Option.bind_some, Context.run_append,
    run_gap_fresh htrail, Option.bind_some]
  split
  · exact ⟨_, rfl⟩
  · exact ⟨_, rfl⟩

/-- The export statement of a file. -/
def statement (options : Options) (source : Source) : Statement :=
  ⟨source.convention, 0, wordsEnd source.convention,
    if source.wrapped then
      some (options.factory, (Text.utf8 (source.header options)).length)
    else none⟩

end Source

theorem words_ne_nil (convention : Convention) : Source.words convention ≠ [] := by
  cases convention <;> decide

/-- The words of a statement end in a space. -/
theorem exists_words (convention : Convention) :
    ∃ front, Source.words convention = front ++ [' '] := by
  cases convention with
  | exportDefault => exact ⟨"export default".toList, by decide⟩
  | moduleExports => exact ⟨"module.exports =".toList, by decide⟩

/-- A header with a call goes up to its parenthesis. -/
theorem readStatement?_wrapped (h : source.isWellFormed options = true)
    (hwrapped : source.wrapped = true) :
    readStatement? 0 (source.header options ++ cs) =
      some (source.statement options, (source.header options).length) := by
  simp only [Source.isWellFormed, hwrapped, Bool.and_eq_true, Bool.not_true, Bool.false_or] at h
  have hname := h.2
  have hhead : source.header options ++ cs =
      Source.words source.convention ++ (options.factory.toList ++ '(' :: cs) := by
    simp [Source.header, hwrapped]
  rw [hhead, readStatement?_words, dropWhile_isBlank_name hname, readCall?_append hname, ← hhead]
  simp [Source.statement, hwrapped, bytesBetween]

/-- A header without a call goes up to the first token. -/
theorem readStatement?_unwrapped (hwrapped : source.wrapped = false)
    (h : ∀ c ∈ (cs.dropWhile Text.isBlank).head?, isNameChar c = false) :
    readStatement? 0 (source.header options ++ cs) =
      some (source.statement options,
        (source.header options ++ cs.takeWhile Text.isBlank).length) := by
  have hhead : source.header options = Source.words source.convention := by
    simp [Source.header, hwrapped]
  have hlen := congrArg List.length (cs.takeWhile_append_dropWhile (p := Text.isBlank))
  rw [List.length_append] at hlen
  rw [hhead, readStatement?_words, readCall?_eq_none h]
  simp only [Source.statement, hwrapped, List.length_append, Bool.false_eq_true, if_false,
    Option.some.injEq, Prod.mk.injEq, true_and]
  omega

/-- **The header of a file is its only statement.** -/
theorem statements_text (h : source.isWellFormed options = true) :
    statements (source.text options) = [source.statement options] := by
  obtain ⟨ctx, hrun⟩ := source.run_body h
  have hread : ∃ (front : List Char) (first : Context) (rest : List Lexeme),
      source.header options ++ text source.body = front ++ text rest ∧ front ≠ [] ∧
        first.run rest = some ctx ∧
        readStatement? 0 (source.header options ++ text source.body) =
          some (source.statement options, front.length) := by
    have hne := words_ne_nil source.convention
    cases hwrapped : source.wrapped with
    | true =>
      exact ⟨source.header options, _, source.body, rfl, by simp [Source.header, hne], hrun,
        readStatement?_wrapped h hwrapped⟩
    | false =>
      obtain ⟨first, rest, hrest, hfirst, hatom⟩ := exists_dropWhile (fun _ hc => hc) hrun
      have hsplit := (text source.body).takeWhile_append_dropWhile (p := Text.isBlank)
      rw [hrest] at hsplit
      refine ⟨source.header options ++ (text source.body).takeWhile Text.isBlank, first, rest,
        by rw [List.append_assoc, hsplit], by simp [Source.header, hne], hfirst,
        readStatement?_unwrapped hwrapped fun c hc => ?_⟩
      rw [hrest] at hc
      cases hname : isNameChar c with
      | false => rfl
      | true =>
        have hliteral := (head?_of_run hfirst hatom c hc).1
        rw [isLiteralChar_of_isNameChar hname] at hliteral
        cases hliteral
  obtain ⟨front, first, rest, htext, hne, hfirst, hstatement⟩ := hread
  rw [htext] at hstatement
  obtain ⟨offset, lineStart, hstatements⟩ := statementsFrom_statement hne hstatement
  rw [statements, Source.text, String.toList_ofList, htext, hstatements,
    statementsFrom_of_run hfirst]

/-- The only statement is preferred. -/
theorem preferred?_singleton (statement : Statement) :
    preferred? options [statement] = some statement := by
  have hle : statement.precedence options ≤ 3 := by
    rw [Statement.precedence]
    split <;> split <;> omega
  obtain h | h | h | h : statement.precedence options = 0 ∨ statement.precedence options = 1 ∨
      statement.precedence options = 2 ∨ statement.precedence options = 3 := by omega
  all_goals simp [preferred?, h]

end ConfigPatch.Literal
