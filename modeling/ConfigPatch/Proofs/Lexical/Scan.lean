import ConfigPatch.Lexical.Bracket

/-!
# Scanning a stretch of text

The labels of a text fall apart at every offset. `modeAfter` is the mode
in which a scan leaves a stretch of bytes and `marksOver` are the labels
it gives them; both are told the byte before the stretch and the byte
ahead of it, since a scan looks one byte to either side. The laws for
appending say that scanning two stretches in sequence is scanning them as
one. The last section lists the stretches of a literal whose scan depends
on neither neighbour.
-/

namespace ConfigPatch.Lexical

variable {m : Mode} {before ahead : Option UInt8} {b quote : UInt8}
variable {xs ys bytes : List UInt8}

/-- The mode after a stretch. -/
def modeAfter (m : Mode) (before ahead : Option UInt8) : List UInt8 → Mode
  | [] => m
  | b :: bs => modeAfter (m.next before b (bs.head?.or ahead)) (some b) ahead bs

/-- The labels of a stretch. -/
def marksOver (m : Mode) (before ahead : Option UInt8) : List UInt8 → List Mark
  | [] => []
  | b :: bs =>
    let after := m.next before b (bs.head?.or ahead)
    ⟨b, kindBetween m after⟩ :: marksOver after (some b) ahead bs

@[simp]
theorem modeAfter_nil : modeAfter m before ahead [] = m := rfl

theorem modeAfter_cons :
    modeAfter m before ahead (b :: xs) =
      modeAfter (m.next before b (xs.head?.or ahead)) (some b) ahead xs := rfl

@[simp]
theorem marksOver_nil : marksOver m before ahead [] = [] := rfl

theorem marksOver_cons :
    marksOver m before ahead (b :: xs) =
      ⟨b, kindBetween m (m.next before b (xs.head?.or ahead))⟩ ::
        marksOver (m.next before b (xs.head?.or ahead)) (some b) ahead xs := rfl

@[simp]
theorem length_marksOver : (marksOver m before ahead xs).length = xs.length := by
  induction xs generalizing m before with
  | nil => rfl
  | cons b bs ih => simp [marksOver_cons, ih]

/-- A label is that of the byte at its place. -/
theorem getElem?_of_marks {mark : Mark} {n : Nat} (h : (marks m before bytes)[n]? = some mark) :
    bytes[n]? = some mark.byte := by
  have hbyte := congrArg (Option.map Mark.byte) h
  rwa [← List.getElem?_map, map_byte_marks] at hbyte

/-- A text is a stretch with nothing ahead. -/
theorem marks_eq_marksOver : marks m before xs = marksOver m before none xs := by
  induction xs generalizing m before with
  | nil => rfl
  | cons b bs ih => simp [marks, marksOver_cons, ih]

/-! ## Two stretches in sequence -/

theorem modeAfter_append :
    modeAfter m before ahead (xs ++ ys) =
      modeAfter (modeAfter m before (ys.head?.or ahead) xs) (xs.getLast?.or before) ahead ys := by
  induction xs generalizing m before with
  | nil => rfl
  | cons b bs ih =>
    rw [List.cons_append, modeAfter_cons, ih, modeAfter_cons, List.head?_append, Option.or_assoc,
      List.getLast?_cons]
    cases bs.getLast? <;> rfl

theorem marksOver_append :
    marksOver m before ahead (xs ++ ys) =
      marksOver m before (ys.head?.or ahead) xs ++
        marksOver (modeAfter m before (ys.head?.or ahead) xs) (xs.getLast?.or before) ahead ys := by
  induction xs generalizing m before with
  | nil => rfl
  | cons b bs ih =>
    rw [List.cons_append, marksOver_cons, ih, marksOver_cons, modeAfter_cons, List.head?_append,
      Option.or_assoc, List.getLast?_cons, List.cons_append]
    cases bs.getLast? <;> rfl

/-- **The labels of a text, from the end of a stretch on.** -/
theorem marks_append :
    marks m before (xs ++ ys) =
      marksOver m before ys.head? xs ++
        marks (modeAfter m before ys.head? xs) (xs.getLast?.or before) ys := by
  simp only [marks_eq_marksOver, marksOver_append, Option.or_none]

theorem byteBefore_append :
    byteBefore (xs ++ ys) xs.length = xs.getLast? := by
  rcases List.eq_nil_or_concat xs with rfl | ⟨front, b, rfl⟩
  · rfl
  · simp [byteBefore]

/-- The labels of what follows a stretch, scanned on their own. -/
theorem marksFrom_append :
    marksFrom (xs ++ ys) xs.length = marks .code xs.getLast? ys := by
  rw [marksFrom, byteBefore_append, List.drop_left]

/-! ## Stretches of one kind -/

/-- The bytes of code that open neither a string nor a comment. -/
def isInert (b : UInt8) : Bool := !isQuote b && b != slash

theorem next_code_of_isInert {before ahead : Option UInt8} (h : isInert b = true) :
    Mode.next before b ahead .code = .code := by
  simp only [isInert, Bool.and_eq_true, Bool.not_eq_true', bne_iff_ne] at h
  simp [Mode.next, h.1, h.2]

/-- Code without quotes and slashes stays code. -/
theorem modeAfter_code (h : ∀ b ∈ xs, isInert b = true) :
    modeAfter .code before ahead xs = .code := by
  induction xs generalizing before with
  | nil => rfl
  | cons b bs ih =>
    rw [modeAfter_cons, next_code_of_isInert (h b (by simp))]
    exact ih fun c hc => h c (by simp [hc])

theorem marksOver_code (h : ∀ b ∈ xs, isInert b = true) :
    marksOver .code before ahead xs = xs.map (⟨·, .code⟩) := by
  induction xs generalizing before with
  | nil => rfl
  | cons b bs ih =>
    rw [marksOver_cons, next_code_of_isInert (h b (by simp)), ih fun c hc => h c (by simp [hc])]
    rfl

/-- The inside of a string, byte by byte: what a backslash is followed by
does not close it. -/
def isInside (quote : UInt8) : List UInt8 → Bool
  | [] => true
  | [b] => b != backslash && b != quote
  | b :: c :: rest =>
    if b = backslash then isInside quote rest else b != quote && isInside quote (c :: rest)

theorem isInside_cons_of_ne (hb : b ≠ backslash) (hq : b ≠ quote) :
    isInside quote (b :: xs) = isInside quote xs := by
  cases xs <;> simp [isInside, hb, hq]

theorem isInside_append (hx : isInside quote xs = true) (hy : isInside quote ys = true) :
    isInside quote (xs ++ ys) = true := by
  fun_induction isInside quote xs with
  | case1 => exact hy
  | case2 b =>
    simp only [Bool.and_eq_true, bne_iff_ne] at hx
    rw [List.singleton_append, isInside_cons_of_ne hx.1 hx.2, hy]
  | case3 c rest ih =>
    rw [List.cons_append, List.cons_append, isInside, if_pos rfl]
    exact ih hx
  | case4 b c rest hb ih =>
    simp only [Bool.and_eq_true, bne_iff_ne] at hx
    rw [List.cons_append, isInside_cons_of_ne hb hx.1]
    exact ih hx.2

theorem isInside_of_forall (h : ∀ b ∈ xs, b ≠ backslash ∧ b ≠ quote) :
    isInside quote xs = true := by
  induction xs with
  | nil => rfl
  | cons b xs ih =>
    obtain ⟨hb, hq⟩ := h b List.mem_cons_self
    rw [isInside_cons_of_ne hb hq, ih fun c hc => h c (List.mem_cons_of_mem _ hc)]

theorem modeAfter_quoted (h : isInside quote xs = true) :
    modeAfter (.quoted quote) before ahead xs = .quoted quote := by
  fun_induction isInside quote xs generalizing before with
  | case1 => rfl
  | case2 b =>
    simp only [Bool.and_eq_true, bne_iff_ne] at h
    simp [modeAfter_cons, Mode.next, h.1, h.2]
  | case3 c rest ih =>
    simp only [modeAfter_cons, Mode.next, if_true]
    exact ih h
  | case4 b c rest hb ih =>
    simp only [Bool.and_eq_true, bne_iff_ne] at h
    rw [modeAfter_cons]
    simp only [Mode.next, hb, h.1, if_false]
    exact ih h.2

/-- In the inside of a string all is text. -/
theorem marksOver_quoted (h : isInside quote xs = true) :
    marksOver (.quoted quote) before ahead xs = xs.map (⟨·, .text⟩) := by
  fun_induction isInside quote xs generalizing before with
  | case1 => rfl
  | case2 b => rfl
  | case3 c rest ih =>
    simp only [marksOver_cons, Mode.next, if_true, ih h, List.map_cons]
    rfl
  | case4 b c rest hb ih =>
    simp only [Bool.and_eq_true, bne_iff_ne] at h
    rw [marksOver_cons]
    simp only [Mode.next, hb, h.1, if_false, ih h.2, List.map_cons]
    rfl

/-- A string in its quotes. -/
def inQuotes (quote : UInt8) (inside : List UInt8) : List UInt8 :=
  quote :: (inside ++ [quote])

/-- **After a string the scan is back in code.** -/
theorem modeAfter_inQuotes (hq : isQuote quote = true) (h : isInside quote xs = true) :
    modeAfter .code before ahead (inQuotes quote xs) = .code := by
  have hne : quote ≠ backslash := by
    rintro rfl
    exact absurd hq (by decide)
  rw [inQuotes, modeAfter_cons, modeAfter_append]
  simp only [Mode.next, hq, if_true, modeAfter_quoted h, modeAfter_cons, hne, if_false,
    modeAfter_nil]

theorem marksOver_inQuotes (hq : isQuote quote = true) (h : isInside quote xs = true) :
    marksOver .code before ahead (inQuotes quote xs) =
      (inQuotes quote xs).map (⟨·, .text⟩) := by
  have hne : quote ≠ backslash := by
    rintro rfl
    exact absurd hq (by decide)
  rw [inQuotes, marksOver_cons, marksOver_append]
  simp only [Mode.next, hq, if_true, modeAfter_quoted h, marksOver_quoted h, marksOver_cons, hne,
    if_false, marksOver_nil, List.map_cons, List.map_append, List.map_nil]
  rfl

/-! ## Comments -/

/-- A line comment up to below its line feed. -/
theorem modeAfter_line (h : lineFeed ∉ xs) (hne : xs ≠ []) :
    modeAfter .line before (some lineFeed) xs = .code := by
  induction xs generalizing before with
  | nil => exact absurd rfl hne
  | cons b bs ih =>
    simp only [List.mem_cons, not_or] at h
    rw [modeAfter_cons]
    cases bs with
    | nil => rfl
    | cons c cs =>
      have hc : c ≠ lineFeed := fun hc => h.2 (by simp [hc])
      simp only [List.head?_cons, Option.some_or, Mode.next, Option.some.injEq, hc, if_false]
      exact ih h.2 (by simp)

theorem marksOver_line (h : lineFeed ∉ xs) :
    marksOver .line before (some lineFeed) xs = xs.map (⟨·, .comment⟩) := by
  induction xs generalizing before with
  | nil => rfl
  | cons b bs ih =>
    simp only [List.mem_cons, not_or] at h
    rw [marksOver_cons, List.map_cons]
    cases bs with
    | nil => rfl
    | cons c cs =>
      have hc : c ≠ lineFeed := fun hc => h.2 (by simp [hc])
      simp only [List.head?_cons, Option.some_or, Mode.next, Option.some.injEq, hc, if_false]
      exact congrArg _ (ih h.2)

/-- Whether a star and a slash stand next to each other. -/
def hasBlockEnd : List UInt8 → Bool
  | [] => false
  | b :: bs => (b == star && bs.head? == some slash) || hasBlockEnd bs

theorem next_block (h : ¬ (b = star ∧ ahead = some slash)) :
    Mode.next before b ahead .block = .block := by
  simp [Mode.next, h]

/-- The inside of a block comment. -/
theorem modeAfter_block (h : hasBlockEnd xs = false) :
    modeAfter .block before (some star) xs = .block := by
  induction xs generalizing before with
  | nil => rfl
  | cons b bs ih =>
    simp only [hasBlockEnd, Bool.or_eq_false_iff, Bool.and_eq_false_iff, beq_eq_false_iff_ne] at h
    rw [modeAfter_cons, next_block, ih h.2]
    rintro ⟨hb, ha⟩
    cases bs with
    | nil => exact absurd ha (by decide)
    | cons c cs => simp_all

theorem marksOver_block (h : hasBlockEnd xs = false) :
    marksOver .block before (some star) xs = xs.map (⟨·, .comment⟩) := by
  induction xs generalizing before with
  | nil => rfl
  | cons b bs ih =>
    simp only [hasBlockEnd, Bool.or_eq_false_iff, Bool.and_eq_false_iff, beq_eq_false_iff_ne] at h
    rw [marksOver_cons, next_block, ih h.2]
    · rfl
    · rintro ⟨hb, ha⟩
      cases bs with
      | nil => exact absurd ha (by decide)
      | cons c cs => simp_all

/-- A line comment without its line feed. -/
def lineComment (text : List UInt8) : List UInt8 := slash :: slash :: text

/-- A block comment. -/
def blockComment (text : List UInt8) : List UInt8 := slash :: star :: (text ++ [star, slash])

theorem next_slash_slash (h : admitsComment before = true) :
    Mode.next before slash (some slash) .code = .line := by
  simp only [Mode.next, h, and_self, if_true]
  rfl

theorem next_slash_star (h : admitsComment before = true) :
    Mode.next before slash (some star) .code = .blockOpen := by
  simp only [Mode.next, h, and_self, if_true]
  rfl

theorem lineFeed_notMem_slash_cons (h : lineFeed ∉ xs) : lineFeed ∉ slash :: xs := by
  rw [List.mem_cons, not_or]
  exact ⟨by decide, h⟩

/-- **After a line comment the scan is back in code** at the line feed. -/
theorem modeAfter_lineComment (hb : admitsComment before = true) (h : lineFeed ∉ xs) :
    modeAfter .code before (some lineFeed) (lineComment xs) = .code := by
  rw [lineComment, modeAfter_cons, List.head?_cons, Option.some_or, next_slash_slash hb]
  exact modeAfter_line (lineFeed_notMem_slash_cons h) (by simp)

theorem marksOver_lineComment (hb : admitsComment before = true) (h : lineFeed ∉ xs) :
    marksOver .code before (some lineFeed) (lineComment xs) =
      (lineComment xs).map (⟨·, .comment⟩) := by
  rw [lineComment, marksOver_cons, List.head?_cons, Option.some_or, next_slash_slash hb,
    marksOver_line (lineFeed_notMem_slash_cons h)]
  rfl

/-- **After a block comment the scan is back in code.** -/
theorem modeAfter_blockComment (hb : admitsComment before = true)
    (h : hasBlockEnd xs = false) :
    modeAfter .code before ahead (blockComment xs) = .code := by
  rw [blockComment, modeAfter_cons, List.head?_cons, Option.some_or, next_slash_star hb,
    modeAfter_cons]
  simp only [Mode.next]
  rw [modeAfter_append, List.head?_cons, Option.some_or, modeAfter_block h]
  rfl

theorem marksOver_blockComment (hb : admitsComment before = true)
    (h : hasBlockEnd xs = false) :
    marksOver .code before ahead (blockComment xs) =
      (blockComment xs).map (⟨·, .comment⟩) := by
  rw [blockComment, marksOver_cons, List.head?_cons, Option.some_or, next_slash_star hb,
    marksOver_cons]
  simp only [Mode.next]
  rw [marksOver_append, List.head?_cons, Option.some_or, modeAfter_block h, marksOver_block h,
    List.map_cons, List.map_cons, List.map_append]
  rfl

end ConfigPatch.Lexical
