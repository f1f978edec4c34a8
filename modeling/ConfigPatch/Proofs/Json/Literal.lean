import ConfigPatch.Json.Printer
import ConfigPatch.Proofs.Literal.Resolve

/-!
# JSON text as a literal

The compact JSON text of a value is a literal without gaps, and a
well-formed one: the characters that are escaped in strings are the ones
that the scan would take for a quote, a backslash or a line end.
-/

namespace ConfigPatch.Json

open Lexical Literal

/-! ## The literal of a value -/

/-- The inside of the JSON text of a string. -/
def inside (s : String) : List Char := s.toList.flatMap charText

mutual

/-- **The literal of a value**, as JSON writes it. -/
def literal : Value → Literal.Node
  | .null => .word ['n', 'u', 'l', 'l']
  | .bool true => .word ['t', 'r', 'u', 'e']
  | .bool false => .word ['f', 'a', 'l', 's', 'e']
  | .number n => .word (numberText n)
  | .string s => .string '"' (inside s)
  | .array items => .array (literalItems items) none
  | .object entries => .object (literalEntries entries) none

/-- The items of a sequence. -/
def literalItems : List Value → List (Slot (Option Literal.Node))
  | [] => []
  | item :: rest => ⟨[], some (literal item), []⟩ :: literalItems rest

/-- The entries of a mapping. -/
def literalEntries : List (String × Value) → List (Slot (Item Literal.Node))
  | [] => []
  | (key, value) :: rest =>
    ⟨[], .pair (.quoted .double (inside key)) [] [] (literal value), []⟩ :: literalEntries rest

end

/-! ## Its text -/

theorem text_joined_cons {lexemes : List Lexeme} {slots : List (Slot (List Lexeme))} :
    Lexeme.text (joined (⟨[], lexemes, []⟩ :: slots) none) =
      Lexeme.text lexemes ++ if slots.isEmpty then [] else ',' :: Lexeme.text (joined slots none) := by
  cases slots with
  | nil => simp [joined, Slot.lexemes]
  | cons next rest => simp [joined, Slot.lexemes, Lexeme.chars]

mutual

/-- **The literal of a value is written as its JSON text.** -/
theorem text_literal (v : Value) : Lexeme.text (literal v).lexemes = text v := by
  match v with
  | .null | .bool true | .bool false => rfl
  | .number n => exact List.append_nil _
  | .string s => simp [literal, Node.lexemes, Lexeme.chars, text, stringText, inside]
  | .array items =>
    rw [literal, Node.lexemes, Lexeme.text_cons, Lexeme.text_append, text_literalItems, text]
    rfl
  | .object entries =>
    rw [literal, Node.lexemes, Lexeme.text_cons, Lexeme.text_append, text_literalEntries, text]
    rfl

theorem text_literalItems (items : List Value) :
    Lexeme.text (joined (itemSlots (literalItems items)) none) = itemsText items := by
  match items with
  | [] => rfl
  | [item] =>
    rw [literalItems, itemSlots, text_joined_cons, text_literal item]
    simp [literalItems, itemSlots, itemsText]
  | item :: next :: rest =>
    have hrest := text_literalItems (next :: rest)
    rw [literalItems, itemSlots, text_joined_cons, text_literal item, hrest]
    rfl

theorem text_literalEntries (entries : List (String × Value)) :
    Lexeme.text (joined (entrySlots (literalEntries entries)) none) = entriesText entries := by
  match entries with
  | [] => rfl
  | [(key, value)] =>
    have hvalue := text_literal value
    rw [literalEntries, entrySlots, text_joined_cons]
    simp [literalEntries, entrySlots, entriesText, hvalue, Key.lexeme, Lexeme.chars, Quotes.char,
      stringText, inside]
  | (key, value) :: next :: rest =>
    have hvalue := text_literal value
    have hrest := text_literalEntries (next :: rest)
    rw [literalEntries, entrySlots, text_joined_cons, hrest]
    simp [literalEntries, entrySlots, entriesText, hvalue, Key.lexeme, Lexeme.chars, Quotes.char,
      stringText, inside]

end

/-! ## It is well-formed -/

theorem isLiteralChar_of_isDigit {c : Char} (h : c.isDigit = true) : isLiteralChar c = true :=
  isLiteralChar_of_isNameChar (by simp [isNameChar, Char.isAlphanum, h])

theorem isLiteralChar_of_mem_toDigits {n : Nat} {c : Char} (h : c ∈ Nat.toDigits 10 n) :
    isLiteralChar c = true :=
  isLiteralChar_of_isDigit (Nat.isDigit_of_mem_toDigits (by omega) (by omega) h)

/-- A text of characters that words are made of, at least one. -/
def IsNumeral (cs : List Char) : Prop := cs ≠ [] ∧ ∀ c ∈ cs, isLiteralChar c = true

theorem isNumeral_toDigits (n : Nat) : IsNumeral (Nat.toDigits 10 n) :=
  ⟨Nat.toDigits_ne_nil, fun _ => isLiteralChar_of_mem_toDigits⟩

theorem isNumeral_positional {digits : List Char} (h : IsNumeral digits) (exponent : Int) :
    IsNumeral (Decimal.positional digits exponent) := by
  have hzero : isLiteralChar '0' = true := isLiteralChar_of_isNameChar rfl
  have hpoint : isLiteralChar '.' = true := by simp [isLiteralChar]
  have hzeros {n : Nat} : ∀ c ∈ List.replicate n '0', isLiteralChar c = true := fun c hc => by
    rw [List.eq_of_mem_replicate hc, hzero]
  cases exponent with
  | negSucc n =>
    refine ⟨List.cons_ne_nil _ _, ?_⟩
    simp only [Decimal.positional, List.forall_mem_cons, List.forall_mem_append]
    exact ⟨hzero, hpoint, hzeros, h.2⟩
  | ofNat n =>
    refine ⟨by simp [Decimal.positional], ?_⟩
    simp only [Decimal.positional, List.forall_mem_cons, List.forall_mem_append]
    refine ⟨⟨fun c hc => h.2 c (List.mem_of_mem_take hc), hzeros⟩, hpoint, ?_⟩
    split
    · simpa using hzero
    · exact fun c hc => h.2 c (List.mem_of_mem_drop hc)

theorem isNumeral_scientific {digits : List Char} (h : IsNumeral digits) (exponent : Int) :
    IsNumeral (Decimal.scientific digits exponent) := by
  have hmark : isLiteralChar 'e' = true := isLiteralChar_of_isNameChar rfl
  have hpoint : isLiteralChar '.' = true := by simp [isLiteralChar]
  have hsign : isLiteralChar (if exponent < 0 then '-' else '+') = true := by
    split <;> simp [isLiteralChar]
  refine ⟨by simp [Decimal.scientific], ?_⟩
  simp only [Decimal.scientific, List.forall_mem_cons, List.forall_mem_append]
  refine ⟨⟨fun c hc => h.2 c (List.mem_of_mem_take hc), ?_⟩, hmark, hsign,
    fun c => isLiteralChar_of_mem_toDigits⟩
  split
  · exact List.forall_mem_nil _
  · exact List.forall_mem_cons.2 ⟨hpoint, fun c hc => h.2 c (List.mem_of_mem_drop hc)⟩

theorem isNumeral_minus {cs : List Char} (h : IsNumeral cs) : IsNumeral ('-' :: cs) :=
  ⟨List.cons_ne_nil _ _, List.forall_mem_cons.2 ⟨by simp [isLiteralChar], h.2⟩⟩

/-- **A number is written as one word.** -/
theorem isNumeral_numberText (n : Number) : IsNumeral (numberText n) := by
  cases n with
  | int n =>
    rw [numberText, Int.toString_eq_repr, Int.repr_eq_if]
    split
    · rw [Nat.toList_repr]
      exact isNumeral_toDigits _
    · rw [String.toList_append, Nat.toList_repr]
      exact isNumeral_minus (isNumeral_toDigits _)
  | double negative x =>
    have hwrite : IsNumeral (doubleLayout.write x) := by
      unfold Decimal.Layout.write
      dsimp only
      split
      · exact isNumeral_positional (isNumeral_toDigits _) _
      · exact isNumeral_scientific (isNumeral_toDigits _) _
    rw [numberText]
    split
    · exact isNumeral_minus hwrite
    · exact hwrite

/-- The characters of strings that JSON does not write as they are. -/
def isPlainChar (c : Char) : Bool := c != '"' && c != '\\' && 0x20 ≤ c.toNat

theorem charText_of_isPlainChar {c : Char} (h : isPlainChar c = true) : charText c = [c] := by
  simp only [isPlainChar, Bool.and_eq_true, bne_iff_ne, decide_eq_true_eq] at h
  obtain ⟨⟨hquote, hbackslash⟩, hle⟩ := h
  have hcontrol (d : Char) (hd : d.toNat < 0x20) : c ≠ d := by
    rintro rfl
    omega
  simp [charText, hquote, hbackslash, hcontrol '\x08' (by decide), hcontrol '\x0c' (by decide),
    hcontrol '\n' (by decide), hcontrol '\r' (by decide), hcontrol '\t' (by decide),
    Nat.not_lt.2 hle]

/-- The inside of a string of control characters. -/
theorem isInside_charText_of_lt :
    ∀ n < 0x20, isInside doubleQuote (Text.utf8 (charText (Char.ofNat n))) = true ∧
      '\n' ∉ charText (Char.ofNat n) := by
  decide +kernel

theorem isInside_charText (c : Char) :
    isInside doubleQuote (Text.utf8 (charText c)) = true ∧ '\n' ∉ charText c := by
  by_cases hlt : c.toNat < 0x20
  · have h := isInside_charText_of_lt c.toNat hlt
    rwa [Char.ofNat_toNat] at h
  · by_cases hquote : c = '"'
    · subst hquote
      decide
    · by_cases hbackslash : c = '\\'
      · subst hbackslash
        decide
      · have hplain : isPlainChar c = true := by
          simp [isPlainChar, hquote, hbackslash, Nat.not_lt.1 hlt]
        rw [charText_of_isPlainChar hplain]
        refine ⟨isInside_of_forall fun b hb => ⟨?_, ?_⟩, ?_⟩
        · rintro rfl
          exact Text.ofNat_notMem_utf8 (by decide) hbackslash hb
        · rintro rfl
          exact Text.ofNat_notMem_utf8 (by decide) hquote hb
        · simp only [List.mem_singleton]
          rintro rfl
          exact hlt (by decide)

/-- **The inside of a JSON string** ends nowhere before its quote and goes
over no line end. -/
theorem isInside_flatMap (cs : List Char) :
    isInside doubleQuote (Text.utf8 (cs.flatMap charText)) = true ∧
      '\n' ∉ cs.flatMap charText := by
  induction cs with
  | nil => exact ⟨rfl, List.not_mem_nil⟩
  | cons c cs ih =>
    have hc := isInside_charText c
    rw [List.flatMap_cons, Text.utf8_append]
    exact ⟨isInside_append hc.1 ih.1, fun h => (List.mem_append.1 h).elim hc.2 ih.2⟩

theorem isWellFormed_string (s : String) :
    (Lexeme.string '"' (inside s)).isWellFormed = true := by
  have h := isInside_flatMap s.toList
  simp only [Lexeme.isWellFormed, Bool.and_eq_true, Bool.not_eq_true', List.contains_eq_mem,
    decide_eq_false_iff_not]
  exact ⟨⟨rfl, h.2⟩, h.1⟩

theorem isWellFormed_word {cs : List Char} (h : IsNumeral cs) :
    (Lexeme.word cs).isWellFormed = true := by
  simp only [Lexeme.isWellFormed, Bool.and_eq_true, Bool.not_eq_true', List.isEmpty_eq_false_iff,
    List.all_eq_true]
  exact h

theorem endsWithHole_literalItems (items : List Value) :
    endsWithHole (literalItems items) = false := by
  have hmap : literalItems items = items.map fun item => ⟨[], some (literal item), []⟩ := by
    induction items with
    | nil => rfl
    | cons item rest ih => rw [literalItems, ih, List.map_cons]
  rw [endsWithHole, hmap, List.getLast?_map]
  cases items.getLast? <;> rfl

mutual

/-- **The literal of a value is well-formed.** -/
theorem isWellFormed_literal (v : Value) : (literal v).isWellFormed = true := by
  match v with
  | .null | .bool true | .bool false => decide +kernel
  | .number n => exact isWellFormed_word (isNumeral_numberText n)
  | .string s => exact isWellFormed_string s
  | .array items =>
    simp only [literal, Node.isWellFormed, isWellFormed_literalItems items,
      endsWithHole_literalItems, Option.all_none, Option.isSome_none, Bool.and_self, Bool.not_false,
      Bool.or_true]
  | .object entries =>
    simp only [literal, Node.isWellFormed, isWellFormed_literalEntries entries, Option.all_none,
      Bool.and_self]

theorem isWellFormed_literalItems (items : List Value) :
    itemsWellFormed (literalItems items) = true := by
  match items with
  | [] => rfl
  | item :: rest =>
    simp only [literalItems, itemsWellFormed, isWellFormed_literal item,
      isWellFormed_literalItems rest, Bool.and_true]
    simp [isFrame, Lexeme.isGap, Lexeme.isApart]

theorem isWellFormed_literalEntries (entries : List (String × Value)) :
    entriesWellFormed (literalEntries entries) = true := by
  match entries with
  | [] => rfl
  | (key, value) :: rest =>
    have hkey : (Key.quoted .double (inside key)).isWellFormed = true := isWellFormed_string key
    simp only [literalEntries, entriesWellFormed, isWellFormed_literal value,
      isWellFormed_literalEntries rest, hkey, Bool.and_true]
    simp [isFrame, Lexeme.isGap, Lexeme.isApart]

end

end ConfigPatch.Json
