import ConfigPatch.Proofs.Lexical.Lexeme

/-!
# Skipping blanks, comments and strings

What the scan labels as blanks and comments is skipped as such, and a
string is skipped up to the quote that closes it. Gaps, the sequences of
blanks and comments, run wherever their first comment may stand.
-/

namespace ConfigPatch.Lexical

variable {m : Mode} {before ahead : Option UInt8} {b quote : UInt8} {xs ys : List UInt8}
variable {offset limit : Nat}

/-! ## Blanks and comments -/

theorem kind_next_ne_text (hm : m.kind ≠ .text) (hcode : m ≠ .code) :
    (m.next before b ahead).kind ≠ .text := by
  cases m with
  | code => exact absurd rfl hcode
  | quoted | escaped => exact absurd rfl hm
  | line | block =>
    rw [Mode.next]
    split <;> simp [Mode.kind]
  | blockOpen | blockClose => simp [Mode.next, Mode.kind]

/-- Outside of code the byte before does not matter. -/
theorem next_of_ne_code (hcode : m ≠ .code) :
    m.next none b ahead = m.next before b ahead := by
  cases m with
  | code => exact absurd rfl hcode
  | quoted | escaped | line | blockOpen | block | blockClose => rfl

theorem kind_code_iff : m.kind = .code ↔ m = .code := by
  cases m <;> simp [Mode.kind]

/-- A byte of code stands between code and code. -/
theorem code_of_kindBetween {after : Mode} (h : kindBetween m after = .code) :
    m = .code ∧ after = .code := by
  unfold kindBetween at h
  split at h
  · rename_i hcode
    exact ⟨hcode, kind_code_iff.1 h⟩
  · rename_i hne
    exact absurd (kind_code_iff.1 h) hne

/-- No string starts at a blank or in a comment. -/
theorem kind_next_of_isBlank (h : Mark.isBlank ⟨b, kindBetween m (m.next before b ahead)⟩ = true) :
    (m.next before b ahead).kind ≠ .text := by
  have hkind : kindBetween m (m.next before b ahead) ≠ .text := by
    intro htext
    rw [htext] at h
    cases h
  unfold kindBetween at hkind
  split at hkind
  · exact hkind
  · rename_i hne
    exact kind_next_ne_text hkind hne

/-- What is neither in a string nor a blank nor in a comment is code. -/
theorem code_of_isBlank {after : Mode} (hm : m.kind ≠ .text)
    (h : Mark.isBlank ⟨b, kindBetween m after⟩ = false) : m = .code := by
  unfold kindBetween at h
  split at h
  · rename_i hcode
    exact hcode
  · cases hkind : m.kind with
    | code => exact kind_code_iff.1 hkind
    | text => exact absurd hkind hm
    | comment =>
      rw [hkind] at h
      cases h

/-- One byte that the scan labels as a blank or as part of a comment. -/
theorem triviaEndFrom_cons (hm : m.kind ≠ .text) (hlt : offset < limit)
    (h : Mark.isBlank ⟨b, kindBetween m (m.next before b xs.head?)⟩ = true) :
    triviaEndFrom m offset limit (b :: xs) =
      triviaEndFrom (m.next before b xs.head?) (offset + 1) limit xs := by
  rw [triviaEndFrom, if_neg (by omega)]
  by_cases hcode : m = .code
  · subst hcode
    simp only [ne_eq, not_true_eq_false, if_false, kindBetween, if_true, Mark.isBlank,
      Bool.or_eq_true, Bool.and_eq_true, beq_iff_eq] at h ⊢
    rcases h with h | ⟨h, hspace⟩
    · -- the byte is the slash that opens a comment
      rw [Mode.next] at h ⊢
      split at h
      · cases h
      · rename_i hquote
        rw [if_neg hquote]
        split at h
        · rename_i hslash
          have hne : Mode.afterSlash xs.head? ≠ .code := fun hcode => by
            rw [hcode] at h
            cases h
          have hspace : ¬ isSpace b = true := by
            rw [hslash.1]
            decide
          rw [if_neg hspace, if_pos ⟨hslash.1, hne⟩, if_pos hslash]
        · cases h
    · rw [if_pos hspace, kind_code_iff.1 h]
  · rw [if_pos hcode, next_of_ne_code hcode]

/-- **Blanks and comments are skipped** up to the end of a stretch that
holds nothing else. -/
theorem triviaEndFrom_append (hm : m.kind ≠ .text) (hle : offset + xs.length ≤ limit)
    (h : ∀ mark ∈ marksOver m before ys.head? xs, mark.isBlank = true) :
    triviaEndFrom m offset limit (xs ++ ys) =
      triviaEndFrom (modeAfter m before ys.head? xs) (offset + xs.length) limit ys := by
  induction xs generalizing m before offset with
  | nil => rfl
  | cons b xs ih =>
    rw [List.length_cons] at hle
    rw [marksOver_cons] at h
    have hfirst := h _ List.mem_cons_self
    rw [← List.head?_append] at hfirst
    have hkind : (m.next before b (xs ++ ys).head?).kind ≠ .text := by
      by_cases hcode : m = .code
      · intro htext
        simp only [Mark.isBlank, kindBetween, if_pos hcode, htext] at hfirst
        cases hfirst
      · exact kind_next_ne_text hm hcode
    rw [List.cons_append, triviaEndFrom_cons hm (by omega) hfirst,
      ih hkind (by omega) fun mark hmark => ?_, modeAfter_cons, List.head?_append,
      List.length_cons]
    · congr 1
      omega
    · rw [List.head?_append] at hmark
      exact h mark (List.mem_cons_of_mem _ hmark)

/-- Skipping stops at what is neither a blank nor a slash. -/
theorem triviaEndFrom_stop (hspace : isSpace b = false) (hslash : b ≠ slash)
    (hlt : offset < limit) : triviaEndFrom .code offset limit (b :: xs) = offset := by
  simp [triviaEndFrom, hspace, hslash, Nat.not_le.2 hlt]

/-- Skipping stops at the limit. -/
theorem triviaEndFrom_limit : triviaEndFrom m limit limit xs = limit := by
  cases xs <;> simp [triviaEndFrom]

/-! ## Strings -/

theorem extent_quoted (h : isInside quote xs = true) :
    (Mode.quoted quote).extent (xs ++ ys) = xs.length + (Mode.quoted quote).extent ys := by
  fun_induction isInside quote xs with
  | case1 => simp
  | case2 b =>
    simp only [Bool.and_eq_true, bne_iff_ne] at h
    rw [List.singleton_append, Mode.extent]
    simp [Mode.next, h.1, h.2, Nat.add_comm]
  | case3 c rest ih =>
    rw [List.cons_append, List.cons_append, Mode.extent, Mode.extent]
    simp only [Mode.next, if_true, reduceCtorEq, if_false, ih h, List.length_cons]
    omega
  | case4 b c rest hb ih =>
    simp only [Bool.and_eq_true, bne_iff_ne] at h
    rw [List.cons_append, Mode.extent]
    simp only [Mode.next, hb, h.1, if_false, reduceCtorEq, ih h.2, List.length_cons]
    omega

/-- **A string is skipped** up to the quote that closes it. -/
theorem opaqueEnd?_inQuotes {front : List UInt8} (hq : isQuote quote = true)
    (h : isInside quote xs = true) :
    opaqueEnd? (front ++ (inQuotes quote xs ++ ys)) front.length =
      some (front.length + (inQuotes quote xs).length) := by
  have hne : quote ≠ backslash := by
    rintro rfl
    exact absurd hq (by decide)
  have hend : (Mode.quoted quote).extent (quote :: ys) = 1 := by
    rw [Mode.extent]
    simp only [reduceCtorEq, if_false, Mode.next, hne, if_true]
    cases ys <;> rfl
  rw [opaqueEnd?, List.drop_left, inQuotes, List.cons_append, List.append_assoc,
    List.singleton_append]
  simp only [Mode.next, hq, if_true, reduceCtorEq, if_false, extent_quoted h, hend,
    List.length_cons, List.length_append, List.length_nil]
  congr 1
  omega

/-! ## Gaps -/

namespace Lexeme

variable {ctx ctx' : Context} {l : Lexeme} {gap : List Lexeme}

/-- **What may stand between two tokens.** -/
def isGap (ls : List Lexeme) : Bool := ls.all fun l => l.isTrivium && l.isWellFormed

/-- Whether a gap may follow a word or a string, as it does not begin with
a comment. -/
def isApart : List Lexeme → Bool
  | .line _ :: _ | .block _ _ :: _ => false
  | _ => true

theorem isGap_cons : isGap (l :: gap) = true ↔
    (l.isTrivium = true ∧ l.isWellFormed = true) ∧ isGap gap = true := by
  simp [isGap]

/-- **A gap runs** where its first lexeme may stand, and changes neither
the brackets nor what word may follow. -/
theorem run_gap (h : isGap gap = true) (hctx : ctx.comment = true ∨ isApart gap = true) :
    ctx.run gap = some ⟨ctx.comment || !gap.isEmpty, ctx.atom, ctx.stack⟩ := by
  induction gap generalizing ctx with
  | nil => simp [Context.run]
  | cons l gap ih =>
    obtain ⟨⟨hl, hwell⟩, hgap⟩ := isGap_cons.1 h
    have hstep : ctx.step l = some ⟨true, ctx.atom, ctx.stack⟩ := by
      cases l with
      | blank c => exact Context.step_blank.2 ⟨hwell, rfl⟩
      | line text =>
        have hc : ctx.comment = true := hctx.resolve_right (by simp [isApart])
        exact Context.step_line.2 ⟨hwell, hc, by rw [← hc]⟩
      | block text after =>
        have hc : ctx.comment = true := hctx.resolve_right (by simp [isApart])
        exact Context.step_block.2 ⟨hwell, hc, by rw [← hc]⟩
      | word | string | opening | closing | comma | colon => cases hl
    rw [Context.run_cons, hstep, Option.bind_some, ih hgap (.inl rfl)]
    simp

theorem isBlank_of_mem_allMarks (h : isGap gap = true) :
    ∀ mark ∈ allMarks gap, mark.isBlank = true := by
  intro mark hmark
  obtain ⟨l, hl, hmark⟩ := List.mem_flatMap.1 hmark
  have hboth := List.all_eq_true.1 h l hl
  rw [Bool.and_eq_true] at hboth
  exact isBlank_of_mem_marks hboth.1 hboth.2 hmark

/-- **A gap is skipped.** -/
theorem triviaEndFrom_gap {stop : Nat} (h : isGap gap = true)
    (hstop : offset + (Text.utf8 (text gap)).length = stop) (hle : stop ≤ limit) :
    triviaEndFrom .code offset limit (Text.utf8 (text gap) ++ ys) =
      triviaEndFrom .code stop limit ys := by
  have hrun : (Context.fresh []).run gap = _ := run_gap h (.inl rfl)
  have hstart : (Context.fresh []).comment = true → admitsComment none = true := fun _ => rfl
  obtain ⟨hmode, hmarks⟩ := scan_of_run hrun hstart ys.head?
  have hblank : ∀ mark ∈ marksOver .code none ys.head? (Text.utf8 (text gap)),
      mark.isBlank = true := by
    rw [hmarks]
    exact isBlank_of_mem_allMarks h
  subst hstop
  rw [triviaEndFrom_append (by decide) hle hblank, hmode]

end Lexeme

end ConfigPatch.Lexical
