import ConfigPatch.Proofs.Lexical.Trivia
import ConfigPatch.Text.Quoted

/-!
# String literals

A text is written as a string literal character by character, and so it is
read back: what a character is written as is never cut by the backslash in
front of it. The scan goes over the bytes of a literal in the same way, and
passes from its first quote to its last one whatever stands around it.
-/

namespace ConfigPatch.Text

open Lexical

variable {c : Char} {cs rest : List Char}

/-- The text of a string literal: what stands between its quotes, read
back. -/
def unquoted (cs : List Char) : List Char :=
  decode cs.tail.dropLast

/-! ## Reading back -/

theorem decode_cons_of_ne (h : c ≠ '\\') : decode (c :: cs) = c :: decode cs := by
  rw [decode]
  intro d ds hc
  exact absurd hc h

/-- **A character is read back** from what it is written as. -/
theorem decode_escape (style : Quotes) (c : Char) (rest : List Char) :
    decode (escape style.char c ++ rest) = c :: decode rest := by
  unfold escape
  split
  · rename_i hbackslash
    rw [hbackslash]
    rfl
  · rename_i hbackslash
    split
    · rename_i hfeed
      rw [hfeed]
      rfl
    · split
      · rename_i hreturn
        rw [hreturn]
        rfl
      · split
        · -- no quote is one of the letters that stand for a line end
          rename_i hquote
          rw [hquote]
          cases style <;> rfl
        · exact decode_cons_of_ne hbackslash

theorem decode_flatMap_escape (style : Quotes) (cs : List Char) :
    decode (cs.flatMap (escape style.char)) = cs := by
  induction cs with
  | nil => rfl
  | cons c cs ih => rw [List.flatMap_cons, decode_escape, ih]

theorem unquoted_quoted (style : Quotes) (cs : List Char) : unquoted (quoted style cs) = cs := by
  rw [unquoted, quoted, List.tail_cons, List.dropLast_concat, decode_flatMap_escape]

/-! ## What a literal does not hold -/

/-- No line ends in what a character is written as. -/
theorem notMem_escape (style : Quotes) (c : Char) :
    '\n' ∉ escape style.char c ∧ '\r' ∉ escape style.char c := by
  unfold escape
  split
  · decide
  · split
    · decide
    · rename_i hfeed
      split
      · decide
      · rename_i hreturn
        split
        · cases style <;> decide
        · rw [List.mem_singleton, List.mem_singleton]
          exact ⟨Ne.symm hfeed, Ne.symm hreturn⟩

theorem notMem_flatMap_escape (style : Quotes) (cs : List Char) :
    '\n' ∉ cs.flatMap (escape style.char) ∧ '\r' ∉ cs.flatMap (escape style.char) := by
  rw [List.mem_flatMap, List.mem_flatMap]
  constructor
  · rintro ⟨c, -, hc⟩
    exact (notMem_escape style c).1 hc
  · rintro ⟨c, -, hc⟩
    exact (notMem_escape style c).2 hc

/-- **A literal is one line.** -/
theorem notMem_quoted (style : Quotes) (cs : List Char) :
    '\n' ∉ quoted style cs ∧ '\r' ∉ quoted style cs := by
  have hquote : '\n' ≠ style.char ∧ '\r' ≠ style.char := by
    cases style <;> decide
  obtain ⟨hfeed, hreturn⟩ := notMem_flatMap_escape style cs
  simp only [quoted, List.mem_cons, List.mem_append, List.not_mem_nil, or_false, not_or]
  exact ⟨⟨hquote.1, hfeed, hquote.1⟩, hquote.2, hreturn, hquote.2⟩

/-! ## The scan of a literal -/

/-- What a character is written as does not end the string. -/
theorem isInside_escape (style : Quotes) (c : Char) :
    isInside (UInt8.ofNat style.char.toNat) (utf8 (escape style.char c)) = true := by
  have hstyle : style.char.toNat < 0x80 := by
    cases style <;> decide
  unfold escape
  split
  · cases style <;> decide
  · rename_i hbackslash
    split
    · cases style <;> decide
    · split
      · cases style <;> decide
      · split
        · cases style <;> decide
        · rename_i hquote
          refine isInside_of_forall fun b hb => ⟨?_, ?_⟩
          · rintro rfl
            exact ofNat_notMem_utf8 (by decide) hbackslash hb
          · rintro rfl
            exact ofNat_notMem_utf8 hstyle hquote hb

theorem isInside_flatMap_escape (style : Quotes) (cs : List Char) :
    isInside (UInt8.ofNat style.char.toNat) (utf8 (cs.flatMap (escape style.char))) = true := by
  induction cs with
  | nil => rfl
  | cons c cs ih =>
    rw [List.flatMap_cons, utf8_append]
    exact isInside_append (isInside_escape style c) ih

/-- **The bytes of a literal** are a string in its quotes. -/
theorem exists_utf8_quoted (style : Quotes) (cs : List Char) :
    ∃ quote inside, isQuote quote = true ∧ isInside quote inside = true ∧
      utf8 (quoted style cs) = inQuotes quote inside := by
  have hquote : isQuote (UInt8.ofNat style.char.toNat) = true ∧
      utf8 [style.char] = [UInt8.ofNat style.char.toNat] := by
    cases style <;> decide
  refine ⟨_, _, hquote.1, isInside_flatMap_escape style cs, ?_⟩
  have hparts : quoted style cs = [style.char] ++ (cs.flatMap (escape style.char) ++ [style.char]) :=
    rfl
  rw [hparts, utf8_append, utf8_append, hquote.2]
  rfl

/-- **A string literal says its text and nothing else.** Read back it gives
the text, it goes over no line end, and the scan that comes to its first
quote goes on behind its last one, whatever stands in front and behind. -/
theorem quoted_faithful (style : Quotes) (cs : List Char) :
    unquoted (quoted style cs) = cs ∧
    '\n' ∉ quoted style cs ∧ '\r' ∉ quoted style cs ∧
    ∀ front back : List UInt8,
      opaqueEnd? (front ++ (utf8 (quoted style cs) ++ back)) front.length =
        some (front.length + (utf8 (quoted style cs)).length) := by
  obtain ⟨hfeed, hreturn⟩ := notMem_quoted style cs
  refine ⟨unquoted_quoted style cs, hfeed, hreturn, fun front back => ?_⟩
  obtain ⟨quote, inside, hquote, hinside, hbytes⟩ := exists_utf8_quoted style cs
  rw [hbytes]
  exact opaqueEnd?_inQuotes hquote hinside

/-- A backslash at the end, next to the quote. -/
example : quoted .double ['a', '"', '\\'] = ['"', 'a', '\\', '"', '\\', '\\', '"'] := by
  decide

end ConfigPatch.Text
