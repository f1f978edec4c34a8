import ConfigPatch.Options
import ConfigPatch.Proofs.Text.Quoted
import ConfigPatch.Text.Character

/-!
# Plain text in source

A plain text is no mapping, no sequence and no function. It is written as
one string, which the scan passes from end to end whatever follows, but
for two kinds: a text that only begins like a function, and a text whose
first and last characters are the same quote without being one string.
These are written as they stand.
-/

namespace ConfigPatch

open Lexical

/-! ## The end of a string -/

namespace Lexical

variable {quote b : UInt8} {xs : List UInt8}

/-- Bytes behind a quote stay in the string, or their last one is a
backslash that takes the next byte along, or the string ends among them. -/
theorem isInside_or (quote : UInt8) (xs : List UInt8) :
    isInside quote xs = true ∨
    (∃ inside, isInside quote inside = true ∧ xs = inside ++ [backslash]) ∨
    ∃ inside rest, isInside quote inside = true ∧ xs = inside ++ quote :: rest := by
  fun_induction isInside quote xs with
  | case1 => exact .inl rfl
  | case2 b =>
    by_cases hb : b = backslash
    · exact .inr (.inl ⟨[], rfl, by rw [hb]; rfl⟩)
    · by_cases hq : b = quote
      · exact .inr (.inr ⟨[], [], rfl, by rw [hq]; rfl⟩)
      · left
        rw [Bool.and_eq_true, bne_iff_ne, bne_iff_ne]
        exact ⟨hb, hq⟩
  | case3 c rest ih =>
    -- the backslash and what it stands before go in front of the inside
    rcases ih with h | ⟨inside, h, rfl⟩ | ⟨inside, rest, h, rfl⟩
    · exact .inl h
    · exact .inr (.inl ⟨backslash :: c :: inside, by rwa [isInside, if_pos rfl], rfl⟩)
    · exact .inr (.inr ⟨backslash :: c :: inside, rest, by rwa [isInside, if_pos rfl], rfl⟩)
  | case4 b c rest hb ih =>
    by_cases hq : b = quote
    · exact .inr (.inr ⟨[], c :: rest, rfl, by rw [hq]; rfl⟩)
    · rcases ih with h | ⟨inside, h, hrest⟩ | ⟨inside, rest', h, hrest⟩
      · left
        rw [Bool.and_eq_true, bne_iff_ne]
        exact ⟨hq, h⟩
      · refine .inr (.inl ⟨b :: inside, ?_, by rw [hrest, List.cons_append]⟩)
        rwa [isInside_cons_of_ne hb hq]
      · refine .inr (.inr ⟨b :: inside, rest', ?_, by rw [hrest, List.cons_append]⟩)
        rwa [isInside_cons_of_ne hb hq]

/-- A string that ends with some bytes, though another byte follows, ends
with its quote. -/
theorem exists_inside_of_extent (hne : quote ≠ backslash)
    (h : (Mode.quoted quote).extent (xs ++ [b]) = xs.length) :
    ∃ inside, isInside quote inside = true ∧ xs = inside ++ [quote] := by
  rcases isInside_or quote xs with hin | ⟨inside, hin, rfl⟩ | ⟨inside, rest, hin, rfl⟩
  · have hone : (Mode.quoted quote).extent [b] = 1 := by
      simp [Mode.extent]
    rw [extent_quoted hin, hone] at h
    omega
  · have htwo : (Mode.quoted quote).extent [backslash, b] = 2 := by
      simp [Mode.extent, Mode.next]
    rw [List.append_assoc, extent_quoted hin, List.singleton_append, htwo, List.length_append,
      List.length_singleton] at h
    omega
  · have hend : (Mode.quoted quote).extent (quote :: (rest ++ [b])) = 1 := by
      rw [Mode.extent]
      simp only [Mode.next, hne, if_false, if_true, reduceCtorEq]
      cases rest <;> rfl
    rw [List.append_assoc, List.cons_append, extent_quoted hin, hend, List.length_append,
      List.length_cons] at h
    have hnil : rest = [] := List.eq_nil_of_length_eq_zero (by omega)
    exact ⟨inside, hin, by rw [hnil]⟩

/-- A quote is one ASCII byte. -/
theorem Lexeme.toNat_of_isQuoteChar {c : Char} (h : isQuoteChar c = true) :
    UInt8.ofNat c.toNat < 0x80 ∧ (UInt8.ofNat c.toNat).toNat = c.toNat := by
  simp only [isQuoteChar, Bool.or_eq_true, beq_iff_eq] at h
  rcases h with (rfl | rfl) | rfl <;> exact ⟨by decide, rfl⟩

end Lexical

/-! ## Trimmed text -/

namespace Text

variable {cs : List Char}

theorem dropWhile_eq_self {p : Char → Bool} (h : ∀ c ∈ cs.head?, p c = false) :
    cs.dropWhile p = cs := by
  cases cs with
  | nil => rfl
  | cons c cs => exact List.dropWhile_cons_of_neg (Bool.not_eq_true _ ▸ h c rfl)

theorem eq_nil_of_utf8_eq_nil (h : utf8 cs = []) : cs = [] := by
  cases cs with
  | nil => rfl
  | cons c cs =>
    have hpos := c.utf8Size_pos
    have hlength := congrArg List.length h
    rw [utf8_cons, List.length_append, String.length_utf8EncodeChar, List.length_nil] at hlength
    omega

/-- A text without a blank at either end is trimmed. -/
theorem trim_eq_self (hhead : ∀ c ∈ cs.head?, isBlank c = false)
    (hlast : ∀ c ∈ cs.getLast?, isBlank c = false) : trim cs = cs := by
  rw [trim, dropWhile_eq_self hhead, trimRight, dropWhile_eq_self, List.reverse_reverse]
  rwa [List.head?_reverse]

theorem trim_quoted (style : Quotes) (cs : List Char) : trim (quoted style cs) = quoted style cs := by
  have hquote : isBlank style.char = false := by
    cases style <;> decide
  refine trim_eq_self ?_ ?_
  · intro c hc
    cases hc
    exact hquote
  · intro c hc
    rw [quoted, ← List.cons_append, List.getLast?_append, List.getLast?_singleton,
      Option.some_or] at hc
    cases hc
    exact hquote

end Text

/-! ## One string -/

namespace Literal

variable {cs : List Char} {s : String}

/-- **One string and nothing else**: whatever follows, the scan passes from
the first character, a quote, to the end of the last one. -/
structure IsString (cs : List Char) : Prop where
  quote : ∃ quote ∈ cs.head?, isQuoteChar quote = true
  whole : ∀ behind, opaqueEnd? (Text.utf8 (cs ++ behind)) 0 = some (Text.utf8 cs).length

/-- Whether a text is one string: its last character is the quote that it
starts with, and nothing between the two ends the string. -/
def isOneString : List Char → Bool
  | [] => false
  | quote :: rest =>
    isQuoteChar quote && rest.getLast? == some quote &&
      isInside (UInt8.ofNat quote.toNat) (Text.utf8 rest.dropLast)

/-- A string in quotes is passed from end to end, whatever follows. -/
theorem IsString.of_inQuotes {quote : Char} {inside : List Char} (hquote : isQuoteChar quote = true)
    (hinside : isInside (UInt8.ofNat quote.toNat) (Text.utf8 inside) = true) :
    IsString (quote :: (inside ++ [quote])) := by
  refine ⟨⟨quote, rfl, hquote⟩, fun behind => ?_⟩
  have hisQuote := (Lexeme.exists_utf8_of_isQuoteChar hquote).2
  have hbytes : Text.utf8 (quote :: (inside ++ [quote])) =
      inQuotes (UInt8.ofNat quote.toNat) (Text.utf8 inside) :=
    Lexeme.bytes_string inside hquote
  have hend : opaqueEnd? ([] ++ (inQuotes _ _ ++ Text.utf8 behind)) ([] : List UInt8).length = _ :=
    opaqueEnd?_inQuotes hisQuote hinside
  rw [List.nil_append, List.length_nil, Nat.zero_add] at hend
  rw [Text.utf8_append, hbytes]
  exact hend

/-- **The scan passes a text as one string** exactly if it is one. -/
theorem isString_iff : IsString cs ↔ isOneString cs = true := by
  cases cs with
  | nil =>
    refine iff_of_false ?_ (by decide)
    rintro ⟨⟨quote, hmem, -⟩, -⟩
    cases hmem
  | cons quote rest =>
    simp only [isOneString, Bool.and_eq_true, beq_iff_eq]
    constructor
    · rintro ⟨⟨_, ⟨⟩, hquote⟩, hwhole⟩
      obtain ⟨hbytes, hisQuote⟩ := Lexeme.exists_utf8_of_isQuoteChar hquote
      have hne : UInt8.ofNat quote.toNat ≠ backslash := by
        intro heq
        rw [heq] at hisQuote
        cases hisQuote
      -- the scan stops before a letter that is put behind the text
      have hextent : (Mode.quoted (UInt8.ofNat quote.toNat)).extent
          (Text.utf8 rest ++ [0x78]) = (Text.utf8 rest).length := by
        have hone := hwhole ['x']
        have hparts : Text.utf8 (quote :: rest ++ ['x']) =
            UInt8.ofNat quote.toNat :: (Text.utf8 rest ++ [0x78]) := by
          rw [← List.singleton_append, List.append_assoc, Text.utf8_append, hbytes,
            Text.utf8_append]
          rfl
        have hlength : (Text.utf8 (quote :: rest)).length = (Text.utf8 rest).length + 1 := by
          rw [← List.singleton_append, Text.utf8_append, hbytes, List.singleton_append,
            List.length_cons]
        rw [hparts, hlength, opaqueEnd?, List.drop_zero] at hone
        simp only [Mode.next, hisQuote, if_true, reduceCtorEq, if_false, Option.some.injEq] at hone
        omega
      obtain ⟨inside, hinside, hrest⟩ := exists_inside_of_extent hne hextent
      -- so the last byte is the quote, and so is the last character
      obtain ⟨hlt, hnat⟩ := Lexeme.toNat_of_isQuoteChar hquote
      obtain ⟨front, c, after, rfl, rfl, hc, hafter⟩ := Text.exists_of_utf8_eq_append hlt hrest
      have hlast : c = quote := Char.toNat_inj.1 (hc.trans hnat)
      have hnil : after = [] := Text.eq_nil_of_utf8_eq_nil hafter
      rw [hlast, hnil, List.getLast?_concat, List.dropLast_concat]
      exact ⟨⟨hquote, rfl⟩, hinside⟩
    · rintro ⟨⟨hquote, hlast⟩, hinside⟩
      obtain ⟨inside, rfl⟩ := List.getLast?_eq_some_iff.1 hlast
      rw [List.dropLast_concat] at hinside
      exact IsString.of_inQuotes hquote hinside

theorem isString_quoted (style : Quotes) (cs : List Char) : IsString (Text.quoted style cs) := by
  have hquote : isQuoteChar style.char = true := by
    cases style <;> decide
  exact IsString.of_inQuotes hquote (Text.isInside_flatMap_escape style cs)

/-! ## What is written as one string -/

/-- **A text is written as one string** if it is no source or is one string
already. -/
theorem isString_ofText_iff (quote : Quotes) (s : String) :
    IsString (Text.trim (ofText quote s).toList) ↔
      (isSource s.toList = true → isOneString (Text.trim s.toList) = true) := by
  unfold ofText
  split
  · rename_i hsource
    rw [isString_iff]
    exact ⟨fun h _ => h, fun h => h hsource⟩
  · rename_i hsource
    rw [String.toList_ofList, Text.trim_quoted]
    exact iff_of_true (isString_quoted quote s.toList) fun h => absurd h hsource

/-- Whether a text starts with a word that ends there. -/
def startsWithWord (word cs : List Char) : Bool :=
  word.isPrefixOf cs && !(cs[word.length]?).any Text.isWordChar

/-- The word that a function starts with. -/
def functionWord : List Char := ['f', 'u', 'n', 'c', 't', 'i', 'o', 'n']

/-- Whether a text is plain: trimmed, it is no mapping and no sequence, and
has no arrow and no word `function` at its start. -/
def isPlain (cs : List Char) : Bool :=
  let trimmed := Text.trim cs
  trimmed.head? != some '\x7b' && trimmed.head? != some '[' && !hasArrow trimmed &&
    !startsWithWord functionWord trimmed

theorem isSource_of_isPlain {cs : List Char} (h : isPlain cs = true) :
    isSource cs = (hasQuotes (Text.trim cs) || functionWord.isPrefixOf (Text.trim cs)) := by
  simp only [isPlain, Bool.and_eq_true, bne_iff_ne, Bool.not_eq_true'] at h
  obtain ⟨⟨⟨hbrace, hsquare⟩, harrow⟩, -⟩ := h
  rw [isSource, harrow, beq_eq_false_iff_ne.2 hbrace, beq_eq_false_iff_ne.2 hsquare,
    Bool.or_false, Bool.or_false, Bool.or_false]
  rfl

/-- No string starts like a function. -/
theorem isOneString_of_isPrefixOf {cs : List Char} (h : functionWord.isPrefixOf cs = true) :
    isOneString cs = false := by
  obtain ⟨rest, rfl⟩ := List.isPrefixOf_iff_prefix.1 h
  rfl

/-- **Plain text is written as one string**, unless it begins like a
function or stands between two equal quotes without being one string. Such
a text is written as it stands. -/
theorem ofText_plain (quote : Quotes) (hplain : isPlain s.toList = true) :
    (IsString (Text.trim (ofText quote s).toList) ↔
      functionWord.isPrefixOf (Text.trim s.toList) = false ∧
        (hasQuotes (Text.trim s.toList) = true → isOneString (Text.trim s.toList) = true)) ∧
    (¬ IsString (Text.trim (ofText quote s).toList) → ofText quote s = s) := by
  rw [isString_ofText_iff, isSource_of_isPlain hplain]
  constructor
  · cases hfunction : functionWord.isPrefixOf (Text.trim s.toList) with
    | false => simp
    | true => simp [isOneString_of_isPrefixOf hfunction]
  · intro hnot
    rw [← isSource_of_isPlain hplain] at hnot
    have hsource : isSource s.toList = true := (Classical.not_imp.1 hnot).1
    rw [ofText, if_pos hsource]

/-- A quote in a word, and a string with its quote in it. -/
theorem ofText_plain_samples :
    isPlain "it's".toList = true ∧
    IsString (Text.trim (ofText .single "it's").toList) ∧
    isPlain " \"a\\\"b\"\n".toList = true ∧
    IsString (Text.trim (ofText .double " \"a\\\"b\"\n").toList) := by
  have hword : isPlain "it's".toList = true := by
    decide +kernel
  have hstring : isPlain " \"a\\\"b\"\n".toList = true := by
    decide +kernel
  refine ⟨hword, (ofText_plain .single hword).1.2 ?_, hstring,
    (ofText_plain .double hstring).1.2 ?_⟩
  · decide +kernel
  · decide +kernel

/-- Source that is no string is written as it stands. -/
theorem ofText_of_isSource (quote : Quotes)
    (hsource : isSource s.toList = true ∧ isOneString (Text.trim s.toList) = false) :
    ofText quote s = s ∧ ¬ IsString (Text.trim (ofText quote s).toList) := by
  have hsame : ofText quote s = s := by
    rw [ofText, if_pos hsource.1]
  rw [hsame, isString_iff, hsource.2]
  exact ⟨rfl, Bool.false_ne_true⟩

/-- **Plain texts that are written as they stand**, and none is one string:
a word that begins like a function, a text whose last quote stands behind a
backslash, and two strings with a sign between them. -/
theorem ofText_plain_as_it_stands :
    (isPlain "functional".toList = true ∧ ofText .double "functional" = "functional" ∧
      ¬ IsString (Text.trim (ofText .double "functional").toList)) ∧
    (isPlain "'a\\'".toList = true ∧ ofText .double "'a\\'" = "'a\\'" ∧
      ¬ IsString (Text.trim (ofText .double "'a\\'").toList)) ∧
    (isPlain "\"a\" + \"b\"".toList = true ∧
      ofText .double "\"a\" + \"b\"" = "\"a\" + \"b\"" ∧
      ¬ IsString (Text.trim (ofText .double "\"a\" + \"b\"").toList)) := by
  refine ⟨⟨?_, ofText_of_isSource .double ?_⟩, ⟨?_, ofText_of_isSource .double ?_⟩,
    ⟨?_, ofText_of_isSource .double ?_⟩⟩
  · decide +kernel
  · decide +kernel
  · decide +kernel
  · decide +kernel
  · decide +kernel
  · decide +kernel

end Literal

end ConfigPatch
