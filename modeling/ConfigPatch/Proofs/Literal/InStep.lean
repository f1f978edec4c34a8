import ConfigPatch.Proofs.Literal.Position

/-!
# Reading in step with the scan

The reader of entries goes over keys, blanks and comments by rules of its
own: to it every pair of slashes, and every slash with a star, opens a
comment, where the scan wants a blank or punctuation in front. A mark is
overlooked if only the reader would take it for one. Where none is, the
reader leaves keys and gaps where the scan is in code, and the value of an
entry starts in code.
-/

namespace ConfigPatch.Literal

open Lexical

variable {bytes : List UInt8} {start offset stop limit keyEnd : Nat} {b first : UInt8}
variable {m m' : Mode} {before ahead : Option UInt8} {s : String} {item : Span}

/-- **Whether the scan overlooks the mark of a comment** at an offset that
it reaches in code. Behind a backslash no reader looks for one. -/
def isOverlooked (bytes : List UInt8) (offset : Nat) : Bool :=
  bytes[offset]? == some slash && decide (Mode.afterSlash bytes[offset + 1]? ≠ .code) &&
    !admitsComment (byteBefore bytes offset) && byteBefore bytes offset != some backslash

/-- No mark of a comment is overlooked by the scan from an offset on up to
another. -/
def Sees (bytes : List UInt8) (start limit : Nat) : Prop :=
  ∀ n, start ≤ n → n < limit → modeAt bytes start n = .code → isOverlooked bytes n = false

/-- A scan from further on overlooks nothing, either. -/
theorem Sees.of_code {start' limit' : Nat} (h : Sees bytes start limit)
    (hcode : modeAt bytes start start' = .code) (hle : start ≤ start') (hlimit : limit' ≤ limit)
    (hlen : limit ≤ bytes.length) : Sees bytes start' limit' := fun n hn hlt hmode =>
  h n (Nat.le_trans hle hn) (Nat.lt_of_lt_of_le hlt hlimit)
    (by rw [modeAt_eq hcode hle hn (by omega), hmode])

/-! ## Blanks and comments -/

/-- What is known of the byte at an offset that a reader of blanks and
comments has come to. -/
structure IsReady (m : Mode) (before ahead : Option UInt8) : Prop where
  code : m = .code → before = some backslash → ahead ≠ some slash
  blockClose : m = .blockClose → ahead = some slash

theorem IsReady.of_ne (hcode : m ≠ .code) (hclose : m ≠ .blockClose) :
    IsReady m before ahead :=
  ⟨fun hm => absurd hm hcode, fun hm => absurd hm hclose⟩

theorem IsReady.skip (h : IsReady m before (some b)) (hm : m.kind ≠ .text)
    (hskip : m.skip? b ahead = some m') : IsReady m' (some b) ahead := by
  cases Mode.skips_of_skip? hm hskip with
  | space hspace =>
    refine ⟨fun _ hback => ?_, fun hclose => absurd hclose (by decide)⟩
    cases hback
    exact absurd hspace (by decide)
  | openLine | openBlock | line | blockOpen | block => exact .of_ne (by decide) (by decide)
  | endLine =>
    -- the line ends in front of its line feed
    exact ⟨fun _ _ => by decide, fun hclose => absurd hclose (by decide)⟩
  | endBlock => exact ⟨fun hcode => absurd hcode (by decide), fun _ => rfl⟩
  | blockClose =>
    -- the byte is the slash that closes the comment
    have hslash := h.blockClose rfl
    cases hslash
    refine ⟨fun _ hback => ?_, fun hclose => absurd hclose (by decide)⟩
    exact absurd (Option.some.inj hback) (by decide)

/-- A byte that is skipped leads the scan to the same mode, unless it is
the mark of a comment that the scan overlooks. -/
theorem next_of_skip? (hskip : m.skip? b ahead = some m') (hm : m.kind ≠ .text)
    (hopen : m = .code → b = slash → Mode.afterSlash ahead ≠ .code → admitsComment before = true) :
    m.next before b ahead = m' ∧ m'.kind ≠ .text := by
  cases Mode.skips_of_skip? hm hskip with
  | space hspace => exact ⟨next_code_of_isInert (Lexeme.isInert_of_isSpace hspace), by decide⟩
  | openLine | openBlock =>
    refine ⟨?_, by decide⟩
    rw [Mode.next, if_neg (by decide), if_pos ⟨rfl, hopen rfl rfl (by decide)⟩]
    decide
  | line hahead => exact ⟨if_neg hahead, by decide⟩
  | block hend => exact ⟨if_neg hend, by decide⟩
  | endLine | blockOpen | endBlock | blockClose => exact ⟨rfl, by decide⟩

/-- The first byte from an offset on, and those behind it. -/
theorem getElem?_of_drop {xs : List UInt8} (h : bytes.drop offset = b :: xs) :
    bytes[offset]? = some b ∧ xs = bytes.drop (offset + 1) := by
  rw [← List.head?_drop, h, ← List.tail_drop, h]
  exact ⟨rfl, rfl⟩

/-- **Skipping stops in code** where the scan sees what is skipped. -/
theorem modeAt_of_triviaEndFrom (hle : start ≤ offset) (hlimit : limit ≤ bytes.length)
    (hm : (modeAt bytes start offset).kind ≠ .text)
    (hready : IsReady (modeAt bytes start offset) (byteBefore bytes offset) bytes[offset]?)
    (hsees : Sees bytes start limit)
    (h : triviaEndFrom (modeAt bytes start offset) offset limit (bytes.drop offset) = stop)
    (hlt : stop < limit) : modeAt bytes start stop = .code := by
  induction hrest : bytes.drop offset generalizing offset with
  | nil =>
    have hlen := List.drop_eq_nil_iff.1 hrest
    rw [hrest, triviaEndFrom] at h
    omega
  | cons b xs ih =>
    obtain ⟨hb, rfl⟩ := getElem?_of_drop hrest
    rw [hrest] at h
    have hoffset : offset < limit := by
      rw [triviaEndFrom_cons_eq] at h
      split at h <;> omega
    rcases Nat.eq_or_lt_of_le (show offset ≤ stop from h ▸ (le_triviaEndFrom (by omega)).1) with
      rfl | hnext
    · exact (eq_code_of_triviaEndFrom h hlt).1
    · obtain ⟨k, rfl⟩ : ∃ k, stop = offset + 1 + k := ⟨stop - offset - 1, by omega⟩
      obtain ⟨m', hskip, hrest'⟩ := exists_skip h hoffset
      rw [List.head?_drop] at hskip
      rw [hb] at hready
      -- the reader takes the slash for a comment; since it sees it, so does the scan
      have hopen : modeAt bytes start offset = .code → b = slash →
          Mode.afterSlash bytes[offset + 1]? ≠ .code →
          admitsComment (byteBefore bytes offset) = true := by
        rintro hcode rfl hmark
        have hseen := hsees offset hle hoffset hcode
        rw [isOverlooked, hb, decide_eq_true hmark] at hseen
        have hback : byteBefore bytes offset ≠ some backslash := fun hback =>
          hready.code hcode hback rfl
        simpa [hback] using hseen
      obtain ⟨hmode, hkind⟩ := next_of_skip? hskip hm hopen
      rw [← modeAt_succ hle hb] at hmode
      subst hmode
      refine ih (by omega) hkind ?_ hrest' rfl
      rw [byteBefore_succ, hb]
      exact hready.skip hm hskip

/-- **Blanks and comments end in code.** -/
theorem modeAt_triviaEnd (hcode : modeAt bytes start offset = .code) (hle : start ≤ offset)
    (hlimit : limit ≤ bytes.length) (hback : byteBefore bytes offset ≠ some backslash)
    (hsees : Sees bytes start limit) (hlt : triviaEnd bytes offset limit < limit) :
    modeAt bytes start (triviaEnd bytes offset limit) = .code := by
  refine modeAt_of_triviaEndFrom hle hlimit ?_ ?_ hsees ?_ hlt
  · rw [hcode]
    decide
  · rw [hcode]
    exact ⟨fun _ hbefore => absurd hbefore hback, fun hm => absurd hm (by decide)⟩
  · rw [hcode]
    rfl

/-! ## Keys -/

/-- A string goes on, or it ends with what is no backslash. -/
theorem next_of_kind_text (hm : m.kind = .text) :
    (m.next before b ahead).kind = .text ∨ m.next before b ahead = .code ∧ b ≠ backslash := by
  cases m with
  | code | line | blockOpen | block | blockClose => cases hm
  | quoted quote =>
    rw [Mode.next]
    split
    · exact .inl rfl
    · rename_i hback
      split
      · exact .inr ⟨rfl, hback⟩
      · exact .inl rfl
  | escaped quote => exact .inl rfl

/-- **A string ends in code**, behind its quote. -/
theorem modeAt_of_extent (hle : start ≤ offset) (hm : (modeAt bytes start offset).kind = .text)
    (h : offset + (modeAt bytes start offset).extent (bytes.drop offset) = stop)
    (hlt : stop < bytes.length) :
    modeAt bytes start stop = .code ∧ byteBefore bytes stop ≠ some backslash := by
  induction hrest : bytes.drop offset generalizing offset with
  | nil =>
    have hlen := List.drop_eq_nil_iff.1 hrest
    omega
  | cons b xs ih =>
    obtain ⟨hb, rfl⟩ := getElem?_of_drop hrest
    have hcode : modeAt bytes start offset ≠ .code := fun hcode => by
      rw [hcode] at hm
      cases hm
    have hmode := modeAt_succ hle hb
    have hnext : (Mode.next (byteBefore bytes offset) b bytes[offset + 1]? _).kind = .text ∨ _ :=
      next_of_kind_text hm
    rw [hrest, Mode.extent, if_neg hcode, List.head?_drop, next_of_ne_code hcode, ← hmode] at h
    rw [← hmode] at hnext
    rcases hnext with htext | ⟨hend, hback⟩
    · exact ih (by omega) htext (by omega) rfl
    · have hzero : Mode.extent .code (bytes.drop (offset + 1)) = 0 := by
        cases bytes.drop (offset + 1) <;> rfl
      rw [hend, hzero] at h
      subst h
      refine ⟨hend, ?_⟩
      rw [Nat.zero_add, byteBefore_succ, hb]
      exact fun heq => hback (Option.some.inj heq)

/-- A slice of a text stands in its bytes. -/
theorem getElem?_of_slice? {part : String} (h : Text.slice? s start stop = some part) {n : Nat}
    (hn : n < (Text.bytes part).length) : (Text.bytes s)[start + n]? = (Text.bytes part)[n]? := by
  obtain ⟨before, after, hs, hstart, -⟩ := Text.slice?_eq_some_iff.1 h
  have hbytes : Text.bytes s = Text.utf8 before ++ (Text.bytes part ++ Text.utf8 after) := by
    rw [Text.bytes, hs, Text.utf8_append, Text.utf8_append, List.append_assoc]
    rfl
  rw [hbytes, ← hstart, List.getElem?_append_right (Nat.le_add_right _ _),
    Nat.add_sub_cancel_left, List.getElem?_append_left hn]

/-- The bytes of a name open nothing, and none of them is a backslash. -/
theorem of_mem_utf8_isWordChar {cs : List Char} (hcs : cs.all Text.isWordChar = true)
    (hb : b ∈ Text.utf8 cs) : isInert b = true ∧ b ≠ backslash := by
  refine ⟨Lexeme.isInert_of_notMem (Lexeme.notMem_syntaxBytes ?_ hb), ?_⟩
  · rw [List.all_eq_true] at hcs ⊢
    intro c hc
    simp [isLiteralChar, hcs c hc]
  · rintro rfl
    have hmem : '\\' ∈ cs := Text.mem_of_mem_utf8 (a := '\\') (by decide) hb
    exact absurd (List.all_eq_true.1 hcs _ hmem) (by decide)

/-- **A key ends in code.** -/
theorem modeAt_of_readKey? {key : String} (hcode : modeAt (Text.bytes s) start item.start = .code)
    (hle : start ≤ item.start) (hlen : item.stop ≤ (Text.bytes s).length)
    (hfirst : (Text.bytes s)[item.start]? = some first)
    (h : Entry.readKey? s item first = .ok (some (key, keyEnd))) (hlt : keyEnd < item.stop) :
    modeAt (Text.bytes s) start keyEnd = .code ∧
      byteBefore (Text.bytes s) keyEnd ≠ some backslash := by
  have hbounds := Entry.readKey?_bounds h
  by_cases hquote : first = doubleQuote ∨ first = singleQuote
  · rw [readKey?_of_quote hquote hfirst rfl] at h
    split at h
    · cases h
    · obtain ⟨part, -, h⟩ := Failure.bind_eq_ok.1 h
      cases h
      have hmode : modeAt (Text.bytes s) start (item.start + 1) = .quoted first := by
        rw [modeAt_succ hle hfirst, hcode, Mode.next, if_pos (isQuote_of_opensKey hquote)]
      refine modeAt_of_extent (show start ≤ item.start + 1 by omega) ?_ ?_ (by omega)
      · rw [hmode]
        rfl
      · rw [hmode]
        omega
  · rw [Entry.readKey?, if_neg hquote] at h
    obtain ⟨whole, hwhole, h⟩ := Failure.bind_eq_ok.1 h
    rw [Failure.ofCut_eq_ok] at hwhole
    dsimp only at h
    split at h
    · cases h
    · rename_i hempty
      cases h
      have hsplit : Text.bytes whole = Text.utf8 (whole.toList.takeWhile Text.isWordChar) ++
          Text.utf8 (whole.toList.dropWhile Text.isWordChar) := by
        rw [← Text.utf8_append, List.takeWhile_append_dropWhile]
        rfl
      have hall : (whole.toList.takeWhile Text.isWordChar).all Text.isWordChar = true :=
        List.all_takeWhile
      generalize whole.toList.takeWhile Text.isWordChar = name at *
      -- a name has no byte that opens anything
      have hbyte (n : Nat) (hn : n < (Text.utf8 name).length) :
          ∃ b, (Text.bytes s)[item.start + n]? = some b ∧ isInert b = true ∧ b ≠ backslash := by
        refine ⟨(Text.utf8 name)[n], ?_, of_mem_utf8_isWordChar hall (List.getElem_mem hn)⟩
        rw [getElem?_of_slice? hwhole, hsplit, List.getElem?_append_left hn,
          List.getElem?_eq_getElem hn]
        rw [hsplit, List.length_append]
        omega
      constructor
      · refine modeAt_of_isInert hcode hle (by omega) fun n hn hlt => ?_
        obtain ⟨b, hb, hinert, -⟩ := hbyte (n - item.start) (by omega)
        rw [Nat.add_sub_cancel' hn] at hb
        exact ⟨b, hb, hinert⟩
      · obtain ⟨b, hb, -, hback⟩ := hbyte ((Text.utf8 name).length - 1) (by omega)
        have hlast : item.start + (Text.utf8 name).length =
            item.start + ((Text.utf8 name).length - 1) + 1 := by
          omega
        rw [hlast, byteBefore_succ, hb]
        exact fun heq => hback (Option.some.inj heq)

/-! ## Values -/

/-- **The value of an entry starts in code.** -/
theorem modeAt_of_valueAfter? {value : Span} (hcode : modeAt bytes start keyEnd = .code)
    (hle : start ≤ keyEnd) (hkeyEnd : keyEnd ≤ limit) (hlimit : limit ≤ bytes.length)
    (hback : byteBefore bytes keyEnd ≠ some backslash) (hsees : Sees bytes start limit)
    (h : Entry.valueAfter? bytes keyEnd limit = some value) :
    modeAt bytes start value.start = .code := by
  obtain ⟨mark, hmark, hfirst, hcolon, hsecond, hlt, hstop⟩ := valueAfter?_eq_some.1 h
  have hmarkLe : keyEnd ≤ mark := hfirst ▸ (le_triviaEnd hkeyEnd).1
  have hmarkCode : modeAt bytes start mark = .code := by
    rw [← hfirst]
    exact modeAt_triviaEnd hcode hle hlimit hback hsees (by omega)
  rw [← hsecond]
  refine modeAt_triviaEnd ?_ (by omega) hlimit ?_ hsees (by omega)
  · rw [modeAt_succ (by omega) hcolon, hmarkCode]
    exact next_code_of_isInert (by decide)
  · rw [byteBefore_succ, hcolon]
    decide

/-- **An entry that is read has its value in code.** -/
theorem modeAt_of_read? {entry : Entry} (hcode : modeAt (Text.bytes s) start item.start = .code)
    (hle : start ≤ item.start) (hlen : item.stop ≤ (Text.bytes s).length)
    (hsees : Sees (Text.bytes s) start item.stop)
    (h : Entry.read? s item = .ok (some entry)) :
    modeAt (Text.bytes s) start entry.value.start = .code := by
  obtain ⟨first, keyEnd, hfirst, hkey, hafter⟩ := read?_eq_ok.1 h
  have hkeyEnd := Entry.readKey?_bounds hkey
  have hvalue := valueAfter?_bounds hkeyEnd.2 hafter
  obtain ⟨hend, hback⟩ := modeAt_of_readKey? hcode hle hlen hfirst hkey (by omega)
  exact modeAt_of_valueAfter? hend (by omega) hkeyEnd.2 hlen hback hsees hafter

end ConfigPatch.Literal
