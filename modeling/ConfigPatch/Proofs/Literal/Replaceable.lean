import ConfigPatch.Proofs.Literal.Fence

/-!
# Replacing what may be replaced

Where a literal may be replaced, a string in its place is an exchange, and
the part stands between two marks that no export statement goes past. The
marks in front come from the way the literal was found, and the ones
behind from what the scan reads there.
-/

namespace ConfigPatch.Literal

open Lexical

variable {x : Text.Replacement} {outer : Span}

/-! ## The part -/

theorem getElem?_source_start : (Text.bytes x.source)[x.start]? =
    (Text.utf8 x.old ++ Text.utf8 x.back).head? := by
  rw [x.bytes_source, List.head?_eq_getElem?]
  change (_ ++ _)[(Text.utf8 x.front).length]? = _
  rw [List.getElem?_append_right (Nat.le_refl _), Nat.sub_self]

theorem byteBefore_source_start :
    byteBefore (Text.bytes x.source) x.start = (Text.utf8 x.front).getLast? := by
  rw [x.bytes_source]
  exact byteBefore_append

theorem getElem?_source_oldStop :
    (Text.bytes x.source)[x.oldStop]? = (Text.utf8 x.back).head? := by
  have hdrop : (Text.bytes x.source).drop (x.oldStop + 0) = (Text.utf8 x.back).drop 0 :=
    x.drop_bytes_source
  rw [Nat.add_zero, List.drop_zero] at hdrop
  rw [← List.head?_drop, hdrop]

theorem slice_source_old :
    ((Text.bytes x.source).drop x.start).take (x.oldStop - x.start) = Text.utf8 x.old := by
  have hlen : x.oldStop - x.start = (Text.utf8 x.old).length := Nat.add_sub_cancel_left _ _
  rw [x.bytes_source, hlen]
  change List.take _ (List.drop (Text.utf8 x.front).length (_ ++ _)) = _
  rw [List.drop_left, List.take_left]

/-! ## What stands behind -/

/-- What the scan reads as the end of an item is a comma or a bracket,
behind blanks, or the slash of a comment. -/
theorem exists_of_isEnd {before : Option UInt8} {bytes : List UInt8}
    (h : ((marks .code before bytes).dropWhile Mark.isBlank).head?.any isEnd = true) :
    ∃ blanks b rest, bytes = blanks ++ b :: rest ∧ (∀ c ∈ blanks, isSpace c = true) ∧
      (b = slash ∨ b = comma ∨ (Bracket.ofCloser? b).isSome = true) := by
  induction bytes generalizing before with
  | nil => cases h
  | cons b bytes ih =>
    by_cases hspace : isSpace b = true
    · have hnext : Mode.next before b bytes.head? .code = .code :=
        next_code_of_isInert (Lexeme.isInert_of_isSpace hspace)
      have hblank : Mark.isBlank ⟨b, .code⟩ = true := by simp [Mark.isBlank, hspace]
      have hkind : kindBetween .code .code = .code := rfl
      rw [marks, hnext, hkind, List.dropWhile_cons_of_pos hblank] at h
      obtain ⟨blanks, c, rest, rfl, hall, hc⟩ := ih h
      exact ⟨b :: blanks, c, rest, rfl, List.forall_mem_cons.2 ⟨hspace, hall⟩, hc⟩
    · refine ⟨[], b, bytes, rfl, List.forall_mem_nil _, ?_⟩
      rw [marks] at h
      cases hblank : Mark.isBlank ⟨b, kindBetween .code (Mode.next before b bytes.head? .code)⟩ with
      | true =>
        -- the first byte of a comment
        left
        refine Decidable.byContradiction fun hslash => ?_
        simp only [Mark.isBlank, kindBetween, Mode.next, hslash, false_and, if_true, if_false,
          hspace] at hblank
        split at hblank <;> simp [Mode.kind] at hblank
      | false =>
        rw [List.dropWhile_cons_of_neg (by simp [hblank]), List.head?_cons, Option.any_some,
          isEnd, Bool.and_eq_true, Bool.or_eq_true, beq_iff_eq] at h
        exact .inr (h.2.imp_left beq_iff_eq.1)

/-! ## Exchanges -/

/-- **A string in the place of what may be replaced is an exchange.** -/
theorem IsExchange.of_isReplaceable
    (hnew : ∃ quote inside, isQuote quote = true ∧ isInside quote inside = true ∧
      Text.utf8 x.new = inQuotes quote inside)
    (h : isReplaceable (Text.bytes x.source) outer ⟨x.start, x.oldStop⟩ = true)
    (hspace : ∀ b ∈ (Text.bytes x.source)[x.start]?, isSpace b = false) : IsExchange x := by
  rw [isReplaceable, Bool.and_eq_true, Bool.and_eq_true, isClosed, Bool.and_eq_true] at h
  obtain ⟨⟨-, hcode, hnested⟩, hend⟩ := h
  dsimp only at hcode hnested hend
  have hle : x.start ≤ x.oldStop := Nat.le_add_right _ _
  have hlen : x.oldStop ≤ (Text.bytes x.source).length := by
    rw [x.length_bytes_source]
    exact Nat.le_add_right _ _
  have hdrop : (Text.bytes x.source).drop (x.oldStop + 0) = (Text.utf8 x.back).drop 0 :=
    x.drop_bytes_source
  rw [Nat.add_zero, List.drop_zero] at hdrop
  have hmarks := stretch_eq_marksOver hle hlen
  rw [byteBefore_source_start, getElem?_source_oldStop, slice_source_old] at hmarks
  rw [isCodeAt, decide_eq_true_eq, byteBefore_source_start, getElem?_source_oldStop,
    slice_source_old] at hcode
  rw [decide_eq_true_eq, hmarks] at hnested
  -- the bytes behind the part are those of the text behind it
  rw [isEndedAt, hdrop] at hend
  refine ⟨hnew, hcode, hnested, fun hfeed => ?_, fun hslash => ?_⟩
  · rw [← getElem?_source_start] at hfeed
    exact absurd (hspace lineFeed hfeed) (by decide)
  · -- behind a quote a slash is code, and no end
    cases hback : Text.utf8 x.back with
    | nil =>
      rw [hback] at hslash
      cases hslash
    | cons b back =>
      rw [hback, List.head?_cons, Option.some.injEq] at hslash
      subst hslash
      rw [hback] at hend
      have hnext : Mode.next (some doubleQuote) slash back.head? .code = .code := by
        rw [Mode.next, if_neg (by decide), if_neg (by decide)]
      rw [marks, hnext, List.dropWhile_cons_of_neg (by decide)] at hend
      cases hend

/-! ## Marks around the part -/

/-- The bytes that stand for characters no statement goes past. -/
def stopBytes : List UInt8 :=
  [0x7B, 0x5B, 0x7D, 0x5D, 0x29, comma, colon, slash, doubleQuote, singleQuote]

theorem isStop_of_mem {b : UInt8} {c : Char} (hb : b ∈ stopBytes) (hc : c.toNat = b.toNat) :
    isStop c = true := by
  have hall : (stopBytes.all fun b => isStop (Char.ofNat b.toNat)) = true := by decide +kernel
  have hstop := List.all_eq_true.1 hall b hb
  rwa [← hc, Char.ofNat_toNat] at hstop

theorem lt_of_isSpace {b : UInt8} (h : isSpace b = true) : b < 0x80 := by
  simp only [isSpace, Bool.or_eq_true, beq_iff_eq] at h
  rcases h with (((rfl | rfl) | rfl) | rfl) | rfl <;> decide

/-- Blanks are no letters. -/
theorem ne_of_utf8_isSpace {cs : List Char} (h : ∀ b ∈ Text.utf8 cs, isSpace b = true) :
    ∀ c ∈ cs, c ≠ 'e' ∧ c ≠ 'm' := by
  have hbyte {c : Char} {b : UInt8} (hc : c ∈ cs) (hb : b ∈ String.utf8EncodeChar c) :
      isSpace b = true := by
    refine h b ?_
    exact List.mem_flatMap.2 ⟨c, hc, hb⟩
  intro c hc
  constructor
  · rintro rfl
    exact absurd (hbyte hc (show 0x65 ∈ String.utf8EncodeChar 'e' by decide)) (by decide)
  · rintro rfl
    exact absurd (hbyte hc (show 0x6D ∈ String.utf8EncodeChar 'm' by decide)) (by decide)

theorem mem_stopBytes_of_isFence {b : UInt8} (h : isFence b = true) :
    b ∈ stopBytes ∧ b < 0x80 := by
  have hall : ([Bracket.brace.opener, Bracket.square.opener, comma, colon, slash].all
      fun b => stopBytes.contains b && decide (b < 0x80)) = true := by decide
  rw [isFence, List.contains_eq_mem, decide_eq_true_eq] at h
  simpa using List.all_eq_true.1 hall b h

/-- A line of bytes is a line of characters. -/
theorem notMem_of_utf8 {cs : List Char} (h : lineFeed ∉ Text.utf8 cs) : '\n' ∉ cs := fun hfeed =>
  h (List.mem_flatMap.2 ⟨'\n', hfeed, by decide⟩)

/-- **A mark behind which there is the rest of a line, and blanks.** -/
theorem exists_of_isFenced {cs : List Char} (h : IsFenced (Text.utf8 cs)) :
    ∃ before mark line blanks, cs = before ++ mark :: (line ++ blanks) ∧ isStop mark = true ∧
      '\n' ∉ line ∧ ∀ c ∈ blanks, c ≠ 'e' ∧ c ≠ 'm' := by
  obtain ⟨before, fence, line, blanks, hbytes, hfence, hline, hblanks⟩ := h
  have hmem := mem_stopBytes_of_isFence hfence
  obtain ⟨before', mark, rest, rfl, -, hmark, hrest⟩ := Text.exists_of_utf8_eq_append hmem.2 hbytes
  have hstop := isStop_of_mem hmem.1 hmark
  cases blanks with
  | nil =>
    rw [List.append_nil] at hrest
    exact ⟨before', mark, rest, [], by rw [List.append_nil], hstop,
      notMem_of_utf8 (hrest ▸ hline), List.forall_mem_nil _⟩
  | cons b blanks =>
    -- the blanks start with a byte that is a character of its own
    have hspace := lt_of_isSpace (hblanks b List.mem_cons_self)
    obtain ⟨line', c, blanks', rfl, hline', hc, hblanks'⟩ :=
      Text.exists_of_utf8_eq_append hspace hrest
    refine ⟨before', mark, line', c :: blanks', rfl, hstop, notMem_of_utf8 (hline' ▸ hline),
      ne_of_utf8_isSpace fun d hd => hblanks d ?_⟩
    have hlt : c.toNat < 0x80 := by
      rw [hc]
      exact UInt8.lt_iff_toNat_lt.1 hspace
    rwa [Text.utf8_cons, Text.utf8EncodeChar_of_lt hlt, hc, UInt8.ofNat_toNat, hblanks'] at hd

theorem mem_stopBytes_of_isEnd {b : UInt8}
    (h : b = slash ∨ b = comma ∨ (Bracket.ofCloser? b).isSome = true) :
    b ∈ stopBytes ∧ b < 0x80 := by
  rcases h with rfl | rfl | hclose
  · decide
  · decide
  · obtain ⟨shape, hshape⟩ := Option.isSome_iff_exists.1 hclose
    rw [Bracket.ofCloser?_eq_some.1 hshape]
    cases shape <;> decide

/-- **The part stands between two marks.** -/
theorem IsMarked.of_isFenced
    (hnew : ∃ quote inside, x.new = quote :: (inside ++ [quote]) ∧ isStop quote = true ∧
      '\n' ∉ inside)
    (hfront : IsFenced ((Text.bytes x.source).take x.start))
    (h : isReplaceable (Text.bytes x.source) outer ⟨x.start, x.oldStop⟩ = true) : IsMarked x := by
  refine ⟨?_, hnew, ?_⟩
  · rw [x.bytes_source, Text.Replacement.start, List.take_left] at hfront
    exact exists_of_isFenced hfront
  · rw [isReplaceable, Bool.and_eq_true, isEndedAt] at h
    have hdrop : (Text.bytes x.source).drop (x.oldStop + 0) = (Text.utf8 x.back).drop 0 :=
      x.drop_bytes_source
    rw [Nat.add_zero, List.drop_zero] at hdrop
    rw [hdrop] at h
    obtain ⟨blanks, b, rest, hbytes, hblanks, hb⟩ := exists_of_isEnd h.2
    have hmem := mem_stopBytes_of_isEnd hb
    obtain ⟨blanks', mark, after, hx, rfl, hmark, -⟩ :=
      Text.exists_of_utf8_eq_append hmem.2 hbytes
    exact ⟨blanks', mark, after, hx, isStop_of_mem hmem.1 hmark, ne_of_utf8_isSpace hblanks⟩

end ConfigPatch.Literal
