import ConfigPatch.Literal.Lookup
import ConfigPatch.Proofs.Literal.Layout
import ConfigPatch.Proofs.Text.Cut

/-!
# Reading a literal in a text

What the resolver finds where a well-formed literal stands in a text: the
bracket that closes it, the spans of its items, and the keys and values of
its entries.
-/

namespace ConfigPatch.Literal

open Lexical Lexeme

/-! ## Lexemes in a text -/

/-- Lexemes stand in a text at an offset. -/
def Stands (s : String) (offset : Nat) (ls : List Lexeme) : Prop :=
  ∃ front back, s.toList = front ++ (text ls ++ back) ∧ (Text.utf8 front).length = offset

variable {s : String} {offset limit : Nat} {ls ms ns gap : List Lexeme} {ctx ctx' : Context}

namespace Stands

theorem drop (h : Stands s offset (ls ++ ms)) : Stands s (offset + width ls) ms := by
  obtain ⟨front, back, hs, rfl⟩ := h
  exact ⟨front ++ text ls, back, by simp [hs], by simp [width]⟩

theorem tail {l : Lexeme} (h : Stands s offset (l :: ls)) :
    Stands s (offset + l.bytes.length) ls := by
  have hdrop : Stands s (offset + width [l]) ls := h.drop
  rwa [width_cons, width_nil, Nat.add_zero] at hdrop

theorem take (h : Stands s offset (ls ++ ms)) : Stands s offset ls := by
  obtain ⟨front, back, hs, hfront⟩ := h
  exact ⟨front, text ms ++ back, by simp [hs], hfront⟩

/-- The text of the lexemes can be cut out. -/
theorem slice? (h : Stands s offset ls) :
    Text.slice? s offset (offset + width ls) = some (String.ofList (text ls)) := by
  obtain ⟨front, back, hs, hfront⟩ := h
  exact Text.slice?_eq_some_iff.2 ⟨front, back, by simp [hs], hfront, by simp [Text.bytes, width]⟩

/-- The bytes from the offset on. -/
theorem exists_bytes (h : Stands s offset ls) :
    ∃ front back, Text.bytes s = front ++ (Text.utf8 (text ls) ++ back) ∧
      front.length = offset := by
  obtain ⟨front, back, hs, hfront⟩ := h
  exact ⟨Text.utf8 front, Text.utf8 back, by simp [Text.bytes, hs], hfront⟩

theorem getElem? (h : Stands s offset ls) {b : UInt8} {rest : List UInt8}
    (hb : Text.utf8 (text ls) = b :: rest) : (Text.bytes s)[offset]? = some b := by
  obtain ⟨front, back, hs, rfl⟩ := h.exists_bytes
  rw [hs, hb]
  simp

theorem le_length (h : Stands s offset ls) : offset + width ls ≤ (Text.bytes s).length := by
  obtain ⟨front, back, hs, rfl⟩ := h.exists_bytes
  simp only [hs, List.length_append, width]
  omega

/-- **The labels from the offset on** begin with those of the lexemes. -/
theorem marksFrom (h : Stands s offset ls) (hrun : ctx.run ls = some ctx')
    (hctx : ctx.comment = true → admitsComment (byteBefore (Text.bytes s) offset) = true) :
    ∃ rest, marksFrom (Text.bytes s) offset = allMarks ls ++ rest := by
  obtain ⟨front, back, hs, rfl⟩ := h.exists_bytes
  rw [hs, byteBefore_append] at hctx
  have hscan := scan_of_run hrun hctx back.head?
  rw [hs, marksFrom_append, marks_append, hscan.2]
  exact ⟨_, rfl⟩

/-- A gap at the offset is skipped. -/
theorem triviaEnd_gap (h : Stands s offset (gap ++ ms)) (hgap : isGap gap = true)
    (hle : offset + width gap ≤ limit) :
    triviaEnd (Text.bytes s) offset limit =
      triviaEnd (Text.bytes s) (offset + width gap) limit := by
  obtain ⟨front, back, hs, rfl⟩ := h.exists_bytes
  have hdrop : (Text.bytes s).drop (front.length + width gap) = Text.utf8 (text ms) ++ back := by
    have hfront : Text.bytes s =
        (front ++ Text.utf8 (text gap)) ++ (Text.utf8 (text ms) ++ back) := by
      simp [hs]
    rw [hfront]
    exact List.drop_left' (by simp [width])
  rw [triviaEnd, triviaEnd, hdrop, hs, List.drop_left, text_append, Text.utf8_append,
    List.append_assoc]
  exact triviaEndFrom_gap hgap rfl hle

/-- Nothing is skipped at the first byte of a token. -/
theorem triviaEnd_token (h : Stands s offset ls) {b : UInt8} {rest : List UInt8}
    (hb : Text.utf8 (text ls) = b :: rest) (hspace : isSpace b = false) (hslash : b ≠ slash)
    (hlt : offset < limit) : triviaEnd (Text.bytes s) offset limit = offset := by
  obtain ⟨front, back, hs, rfl⟩ := h.exists_bytes
  rw [triviaEnd, hs, List.drop_left, hb]
  exact triviaEndFrom_stop hspace hslash hlt

end Stands

/-! ## Brackets and items -/

variable {node : Node} {inside : List Lexeme} {shape : Bracket}

theorem width_bracket :
    width (.opening shape :: (inside ++ [.closing shape])) = width inside + 2 := by
  simp [bytes_opening, bytes_closing]
  omega

/-- **The literal in brackets** that stands at an offset. -/
theorem spanAt_bracket (h : Stands s offset (.opening shape :: (inside ++ [.closing shape])))
    (hinside : Balanced inside) :
    spanAt (Text.bytes s) offset = .ok ⟨offset, offset + (width inside + 2)⟩ := by
  have hrun : (Context.mk false true []).run (.opening shape :: (inside ++ [.closing shape])) = _ :=
    run_bracket hinside
  obtain ⟨rest, hmarks⟩ := h.marksFrom hrun fun h => by cases h
  have hopen : (Text.bytes s)[offset]? = some shape.opener := h.getElem?
    (by rw [text_cons, Text.utf8_append, ← bytes, bytes_opening, List.singleton_append])
  refine spanAt_eq_ok.2 ⟨rfl, shape, hopen, ?_⟩
  rw [hmarks]
  simp only [allMarks_cons, allMarks_append, allMarks_nil, marks_opening, marks_closing,
    List.append_nil, List.nil_append, List.cons_append, List.append_assoc,
    hinside.nested.closeFrom_bracket, length_allMarks, Nat.add_assoc]

/-- **The items in brackets** that stand at an offset. -/
theorem items?_bracket (h : Stands s offset (.opening shape :: (inside ++ [.closing shape])))
    (hinside : Balanced inside) :
    items? (Text.bytes s) (Span.inner ⟨offset, offset + (width inside + 2)⟩) =
      some (itemsFrom 0 none (offset + 1) (allMarks inside)) := by
  have hle := h.le_length
  rw [width_bracket] at hle
  have hinner : Span.inner ⟨offset, offset + (width inside + 2)⟩ =
      ⟨offset + 1, offset + 1 + width inside⟩ := by
    simp only [Span.inner, Span.mk.injEq]
    omega
  have hstand : Stands s (offset + 1) inside := by
    have hdrop := h.tail.take
    rwa [bytes_opening] at hdrop
  obtain ⟨ctx, hctx, -⟩ := hinside []
  obtain ⟨rest, hmarks⟩ := hstand.marksFrom hctx fun _ => by
    obtain ⟨front, back, hs, rfl⟩ := h.exists_bytes
    rw [text_cons, Text.utf8_append, ← bytes, bytes_opening] at hs
    have hfront : Text.bytes s = (front ++ [shape.opener]) ++
        (Text.utf8 (text (inside ++ [.closing shape])) ++ back) := by
      simp [hs]
    rw [hfront, ← List.length_concat (a := shape.opener), List.concat_eq_append, byteBefore_append,
      List.getLast?_concat]
    cases shape <;> rfl
  rw [hinner, items?, if_neg (by dsimp only; omega), items, hmarks]
  simp only [Span.length, Nat.add_sub_cancel_left, ← length_allMarks, List.take_left]

/-! ## The first byte of a literal -/

/-- The bracket that a literal begins with. -/
def Node.shape? : Node → Option Bracket
  | .word _ | .string _ _ => none
  | .object _ _ => some .brace
  | .array _ _ => some .square

theorem exists_head_word {cs : List Char} (h : (Lexeme.word cs).isWellFormed = true) :
    ∃ b rest, Text.utf8 cs = b :: rest ∧ b ∉ syntaxBytes := by
  simp only [isWellFormed, Bool.and_eq_true, Bool.not_eq_true', List.isEmpty_eq_false_iff] at h
  obtain ⟨c, cs, rfl⟩ := List.exists_cons_of_ne_nil h.1
  have hne : Text.utf8 (c :: cs) ≠ [] := fun hnil => by
    have hlen := congrArg List.length hnil
    have hpos := c.utf8Size_pos
    simp at hlen
    omega
  obtain ⟨b, rest, hb⟩ := List.exists_cons_of_ne_nil hne
  exact ⟨b, rest, hb, notMem_syntaxBytes h.2 (by rw [hb]; exact List.mem_cons_self)⟩

/-- **The first byte of a literal** belongs to no gap and tells its
shape. -/
theorem Node.exists_head (h : node.isWellFormed = true) :
    ∃ b rest, Text.utf8 (text node.lexemes) = b :: rest ∧ isSpace b = false ∧ b ≠ slash ∧
      Bracket.ofOpener? b = node.shape? := by
  cases node with
  | word cs =>
    obtain ⟨b, rest, hb, hnot⟩ := exists_head_word h
    refine ⟨b, rest, by simpa [Node.lexemes, chars] using hb, ?_⟩
    simp only [syntaxBytes, List.mem_cons, not_or] at hnot
    simp [isSpace, Bracket.ofOpener?, Bracket.opener, Node.shape?, hnot]
  | string quote inside' =>
    simp only [Node.isWellFormed, Lexeme.isWellFormed, Bool.and_eq_true] at h
    have hbytes := bytes_string inside' h.1.1
    rw [Node.lexemes, text_cons, text_nil, List.append_nil, ← bytes, hbytes]
    refine ⟨_, _, rfl, ?_⟩
    simp only [isQuoteChar, Bool.or_eq_true, beq_iff_eq] at h
    rcases h.1.1 with (rfl | rfl) | rfl <;> exact ⟨rfl, by decide, rfl⟩
  | object entries close =>
    rw [Node.lexemes, text_cons, Text.utf8_append]
    exact ⟨_, _, rfl, rfl, by decide, rfl⟩
  | array items close =>
    rw [Node.lexemes, text_cons, Text.utf8_append]
    exact ⟨_, _, rfl, rfl, by decide, rfl⟩

theorem Node.width_pos (h : node.isWellFormed = true) : 0 < width node.lexemes := by
  obtain ⟨b, rest, hb, -⟩ := Node.exists_head h
  simp [width, hb]

/-! ## Entries -/

variable {key : Key} {before after : Gap} {entry : Item Node}

/-- The value that stands after a key. -/
theorem valueAfter?_pair
    (h : Stands s offset (before ++ .colon :: (after ++ node.lexemes)))
    (hbefore : isGap before = true) (hafter : isGap after = true)
    (hnode : node.isWellFormed = true)
    (hlimit : offset + width (before ++ .colon :: (after ++ node.lexemes)) = limit) :
    Entry.valueAfter? (Text.bytes s) offset limit =
      some ⟨offset + width (before ++ .colon :: after), limit⟩ := by
  have hpos := Node.width_pos hnode
  simp only [width_append, width_cons] at hlimit
  have hcolon : Stands s (offset + width before) (.colon :: (after ++ node.lexemes)) := h.drop
  have hrest : Stands s (offset + width before + 1) (after ++ node.lexemes) :=
    hcolon.tail
  have hvalue : Stands s (offset + width before + 1 + width after) node.lexemes := hrest.drop
  have hone : (Lexeme.colon).bytes.length = 1 := rfl
  have hmark : triviaEnd (Text.bytes s) offset limit = offset + width before := by
    rw [h.triviaEnd_gap hbefore (by omega)]
    exact hcolon.triviaEnd_token rfl rfl (by decide) (by omega)
  have hstart : triviaEnd (Text.bytes s) (offset + width before + 1) limit =
      offset + width before + 1 + width after := by
    rw [hrest.triviaEnd_gap hafter (by omega)]
    obtain ⟨b, rest, hb, hspace, hslash, -⟩ := Node.exists_head hnode
    exact hvalue.triviaEnd_token hb hspace hslash (by omega)
  have hbyte : (Text.bytes s)[offset + width before]? = some Lexical.colon :=
    hcolon.getElem? rfl
  simp only [Entry.valueAfter?, hmark, hbyte, and_true, hstart, width_append, width_cons]
  rw [if_pos (by omega), if_pos (by omega)]
  congr 2
  omega

/-- Nothing stands after a key that goes to the end of the item. -/
theorem valueAfter?_self : Entry.valueAfter? (Text.bytes s) limit limit = none := by
  have hend : triviaEnd (Text.bytes s) limit limit = limit := triviaEndFrom_limit
  simp [Entry.valueAfter?, hend]

/-- The identifier characters at the start of a word are those before the
first other one. -/
theorem takeWhile_isWordChar {name rest : List Char} (hname : name.all Text.isWordChar = true)
    (hrest : ∀ c ∈ rest.head?, Text.isWordChar c = false) :
    (name ++ rest).takeWhile Text.isWordChar = name := by
  rw [List.takeWhile_append_of_pos fun c hc => List.all_eq_true.1 hname c hc]
  cases rest with
  | nil => simp
  | cons c rest => simp [hrest c rfl]

theorem isWordChar_eq_false_of_isBlankChar {c : Char} (h : isBlankChar c = true) :
    Text.isWordChar c = false := by
  simp only [isBlankChar, Bool.or_eq_true, beq_iff_eq] at h
  rcases h with (((rfl | rfl) | rfl) | rfl) | rfl <;> decide +kernel

/-- What follows a name in an entry is no identifier character. -/
theorem isWordChar_head?_eq_false (hgap : isGap gap = true) (hapart : isApart gap = true) :
    ∀ c ∈ (text (gap ++ .colon :: ls)).head?, Text.isWordChar c = false := by
  intro c hc
  cases gap with
  | nil =>
    cases hc
    decide +kernel
  | cons l gap =>
    have hl := (isGap_cons.1 hgap).1
    cases l with
    | blank b =>
      cases hc
      exact isWordChar_eq_false_of_isBlankChar hl.2
    | line | block => cases hapart
    | word | string | opening | closing | comma | colon => cases hl.1

/-- A word in front of an item is its key. -/
theorem readKey?_bare {name rest : List Char} {b : UInt8}
    (h : Stands s offset ls) (htext : text ls = name ++ rest)
    (hname : Text.isWord name = true) (hrest : ∀ c ∈ rest.head?, Text.isWordChar c = false)
    (hnot : b ∉ syntaxBytes) :
    Entry.readKey? s ⟨offset, offset + width ls⟩ b =
      .ok (some (String.ofList name, offset + (Text.utf8 name).length)) := by
  simp only [syntaxBytes, List.mem_cons, not_or] at hnot
  simp only [Text.isWord, Bool.and_eq_true, Bool.not_eq_true'] at hname
  rw [Entry.readKey?, if_neg (by simp [hnot]), h.slice?]
  simp only [Failure.ofCut_some, Failure.ok_bind, htext, String.toList_ofList,
    takeWhile_isWordChar hname.2 hrest, hname.1]
  rfl

/-- A string in front of an item is its key. -/
theorem readKey?_quoted {quote : Quotes} {inside' : List Char}
    (h : Stands s offset (.string quote.char inside' :: ls))
    (hkey : (Lexeme.string quote.char inside').isWellFormed = true) :
    Entry.readKey? s ⟨offset, offset + width (.string quote.char inside' :: ls)⟩
        (UInt8.ofNat quote.char.toNat) =
      .ok (some (String.ofList inside',
        offset + (Lexeme.string quote.char inside').bytes.length)) := by
  simp only [Lexeme.isWellFormed, Bool.and_eq_true] at hkey
  have hquote := exists_utf8_of_isQuoteChar hkey.1.1
  have hbytes := bytes_string inside' hkey.1.1
  have hlen : (Lexeme.string quote.char inside').bytes.length =
      (Text.utf8 inside').length + 2 := by
    rw [hbytes]
    simp [inQuotes]
  have hend : opaqueEnd? (Text.bytes s) offset =
      some (offset + (Lexeme.string quote.char inside').bytes.length) := by
    obtain ⟨front, back, hs, rfl⟩ := h.exists_bytes
    rw [text_cons, Text.utf8_append, ← bytes, hbytes, List.append_assoc] at hs
    rw [hs, hbytes]
    exact opaqueEnd?_inQuotes hquote.2 hkey.2
  have hslice : Text.slice? s (offset + 1)
      (offset + (Lexeme.string quote.char inside').bytes.length - 1) =
        some (String.ofList inside') := by
    obtain ⟨front, back, hs, rfl⟩ := h
    have hone := congrArg List.length hquote.1
    simp only [Text.utf8_cons, Text.utf8_nil, List.append_nil, List.length_singleton] at hone
    refine Text.slice?_eq_some_iff.2
      ⟨front ++ [quote.char], quote.char :: (text ls ++ back), ?_, ?_, ?_⟩
    · simp [hs, chars]
    · simp [hone]
    · rw [hlen, Text.bytes, String.toList_ofList]
      omega
  have hfirst : UInt8.ofNat quote.char.toNat = doubleQuote ∨
      UInt8.ofNat quote.char.toNat = singleQuote := by
    cases quote
    · exact .inl rfl
    · exact .inr rfl
  have hmin : min (offset + (Lexeme.string quote.char inside').bytes.length)
      (offset + width (.string quote.char inside' :: ls)) =
        offset + (Lexeme.string quote.char inside').bytes.length := by
    rw [width_cons]
    omega
  rw [Entry.readKey?, if_pos hfirst]
  simp only [hend, Option.getD_some, hmin, hslice, Failure.ofCut_some, Failure.ok_bind]
  rw [if_neg (by omega)]
  rfl

/-- **What the resolver reads in an entry** is its name and the span of
its value. -/
theorem read?_pair (h : Stands s offset (Item.pair key before after node).lexemes)
    (hkey : key.isWellFormed = true) (hbefore : isGap before = true)
    (hapart : isApart before = true) (hafter : isGap after = true)
    (hnode : node.isWellFormed = true) :
    Entry.read? s ⟨offset, offset + width (Item.pair key before after node).lexemes⟩ =
      .ok (((Item.pair key before after node).member? offset).map fun member =>
        ⟨member.1, member.2.span⟩) := by
  have hread : ∃ b rest, Text.utf8 (text (Item.pair key before after node).lexemes) = b :: rest ∧
      Entry.readKey? s
        ⟨offset, offset + width (Item.pair key before after node).lexemes⟩ b =
          .ok (some (key.name, offset + key.lexeme.bytes.length)) := by
    cases key with
    | bare name =>
      obtain ⟨b, rest, hb, hnot⟩ := exists_head_word (isWellFormed_word_of_isWord hkey)
      have htext : text (Item.pair (.bare name) before after node).lexemes =
          name ++ text (before ++ .colon :: (after ++ node.lexemes)) := rfl
      have hbytes : Text.utf8 (text (Item.pair (.bare name) before after node).lexemes) =
          b :: (rest ++ Text.utf8 (text (before ++ .colon :: (after ++ node.lexemes)))) := by
        rw [htext, Text.utf8_append, hb, List.cons_append]
      exact ⟨b, _, hbytes,
        readKey?_bare h htext hkey (isWordChar_head?_eq_false hbefore hapart) hnot⟩
    | quoted quote inside' =>
      have hquote := hkey
      simp only [Key.isWellFormed, Lexeme.isWellFormed, Bool.and_eq_true] at hquote
      have hbytes : Text.utf8 (text (Item.pair (.quoted quote inside') before after node).lexemes) =
          inQuotes (UInt8.ofNat quote.char.toNat) (Text.utf8 inside') ++
            Text.utf8 (text (before ++ .colon :: (after ++ node.lexemes))) := by
        rw [Item.lexemes, text_cons, Text.utf8_append, Key.lexeme, ← bytes,
          bytes_string inside' hquote.1.1]
      exact ⟨_, _, hbytes, readKey?_quoted h hkey⟩
  obtain ⟨b, rest, hb, hread⟩ := hread
  have hrest : Stands s (offset + key.lexeme.bytes.length)
      (before ++ .colon :: (after ++ node.lexemes)) := h.tail
  have hlimit : offset + key.lexeme.bytes.length +
      width (before ++ .colon :: (after ++ node.lexemes)) =
        offset + width (Item.pair key before after node).lexemes := by
    rw [Item.lexemes, width_cons, Nat.add_assoc]
  have hvalue := valueAfter?_pair hrest hbefore hafter hnode hlimit
  rw [Entry.read?, h.getElem? hb]
  simp only [hread, Failure.ok_bind]
  rw [hvalue]
  simp only [Item.member?, Option.map_some, Target.span, Target.lexemes, placeLexemes,
    Option.elim_some, Item.lexemes, width_cons, width_append, Nat.add_assoc]
  rfl

/-- A shorthand has no value. -/
theorem read?_shorthand {name : List Char} (h : Stands s offset (Item.shorthand name).lexemes)
    (hname : Text.isWord name = true) :
    Entry.read? s ⟨offset, offset + width (Item.shorthand name).lexemes⟩ = .ok none := by
  obtain ⟨b, rest, hb, hnot⟩ := exists_head_word (isWellFormed_word_of_isWord hname)
  have htext : text (Item.shorthand name).lexemes = name ++ [] := rfl
  have hwidth : width (Item.shorthand name).lexemes = (Text.utf8 name).length := by
    rw [width, htext, List.append_nil]
  have hbytes : Text.utf8 (text (Item.shorthand name).lexemes) = b :: rest := by
    rw [htext, List.append_nil, hb]
  have hread := readKey?_bare h htext hname (fun c hc => by cases hc) hnot
  rw [Entry.read?, h.getElem? hbytes]
  simp only [hread, Failure.ok_bind]
  rw [hwidth, valueAfter?_self]
  rfl

/-- A spread has no key. -/
theorem read?_spread {expr : List Char} (h : Stands s offset (Item.spread expr).lexemes) :
    Entry.read? s ⟨offset, offset + width (Item.spread expr).lexemes⟩ = .ok none := by
  have htext : text (Item.spread expr).lexemes = '.' :: ('.' :: '.' :: expr) := by
    simp [Item.lexemes, chars]
  have hpoint : Text.isWordChar '.' = false := by decide +kernel
  have hfirst : ¬ ((0x2E : UInt8) = doubleQuote ∨ (0x2E : UInt8) = singleQuote) := by decide
  have hbytes : Text.utf8 (text (Item.spread expr).lexemes) =
      0x2E :: Text.utf8 ('.' :: '.' :: expr) := by
    rw [htext, Text.utf8_cons]
    rfl
  have hread : Entry.readKey? s ⟨offset, offset + width (Item.spread expr).lexemes⟩ 0x2E =
      .ok none := by
    rw [Entry.readKey?, if_neg hfirst, h.slice?, htext]
    simp only [Failure.ofCut_some, Failure.ok_bind, String.toList_ofList, List.takeWhile_cons,
      hpoint, Bool.false_eq_true, if_false, List.isEmpty_nil, if_true]
    rfl
  rw [Entry.read?, h.getElem? hbytes]
  simp only [hread, Failure.ok_bind]
  rfl

/-- Whether an entry is written. -/
def Item.isWellFormed : Item Node → Bool
  | .pair key before after value =>
    key.isWellFormed && (isGap before && isApart before && isGap after) && value.isWellFormed
  | .shorthand name => Text.isWord name
  | .spread expr => (Lexeme.word expr).isWellFormed

/-- **What the resolver reads in an entry** is its name and the span of
its value. -/
theorem read?_entry (h : Stands s offset entry.lexemes) (hentry : entry.isWellFormed = true) :
    Entry.read? s (coreSpan (offset, entry.lexemes)) =
      .ok ((entry.member? offset).map fun member => ⟨member.1, member.2.span⟩) := by
  cases entry with
  | pair key before after value =>
    simp only [Item.isWellFormed, Bool.and_eq_true] at hentry
    obtain ⟨⟨hkey, ⟨hbefore, hapart⟩, hafter⟩, hvalue⟩ := hentry
    exact read?_pair h hkey hbefore hapart hafter hvalue
  | shorthand name => exact read?_shorthand h hentry
  | spread expr => exact read?_spread h

/-! ## Slots in a text -/

theorem stands_of_mem_cores {α : Type} {lexemes : α → List Lexeme} {slots : List (Slot α)}
    {close : Option Gap} {place : Nat × α}
    (h : Stands s offset (joined (slots.map (Slot.map lexemes)) close))
    (hplace : place ∈ cores lexemes offset slots) : Stands s place.1 (lexemes place.2) := by
  induction slots generalizing offset with
  | nil => exact absurd hplace List.not_mem_nil
  | cons slot rest ih =>
    have hsplit : Stands s offset (slot.map lexemes).lexemes ∧
        (rest ≠ [] → Stands s (offset + width (slot.map lexemes).lexemes + 1)
          (joined (rest.map (Slot.map lexemes)) close)) := by
      cases rest with
      | nil =>
        refine ⟨?_, fun hne => absurd rfl hne⟩
        cases close with
        | none => exact h
        | some gap => exact h.take
      | cons next rest => exact ⟨h.take, fun _ => h.drop.tail⟩
    rcases List.mem_cons.1 hplace with rfl | hplace
    · exact hsplit.1.drop.take
    · have hne : rest ≠ [] := by
        rintro rfl
        exact absurd hplace List.not_mem_nil
      exact ih (hsplit.2 hne) hplace

theorem exists_slot_of_mem_cores {α : Type} {lexemes : α → List Lexeme} {slots : List (Slot α)}
    {place : Nat × α} (h : place ∈ cores lexemes offset slots) :
    ∃ slot ∈ slots, slot.core = place.2 := by
  induction slots generalizing offset with
  | nil => exact absurd h List.not_mem_nil
  | cons slot rest ih =>
    rcases List.mem_cons.1 h with rfl | h
    · exact ⟨slot, List.mem_cons_self, rfl⟩
    · obtain ⟨other, hother, hcore⟩ := ih h
      exact ⟨other, List.mem_cons_of_mem _ hother, hcore⟩

theorem isWellFormed_of_mem_entries {entries : List (Slot (Item Node))}
    (h : entriesWellFormed entries = true) :
    ∀ slot ∈ entries, slot.core.isWellFormed = true := by
  induction entries with
  | nil => exact fun slot hslot => absurd hslot List.not_mem_nil
  | cons slot rest ih =>
    obtain ⟨lead, entry, trail⟩ := slot
    cases entry with
    | pair key before after value =>
      simp only [entriesWellFormed, Bool.and_eq_true] at h
      refine List.forall_mem_cons.2 ⟨?_, ih h.2⟩
      simp only [Item.isWellFormed, Bool.and_eq_true]
      exact ⟨⟨h.1.1.1.2, h.1.1.2⟩, h.1.2⟩
    | shorthand name | spread expr =>
      simp only [entriesWellFormed, Bool.and_eq_true] at h
      exact List.forall_mem_cons.2 ⟨h.1.2, ih h.2⟩

theorem isWellFormed_of_mem_items {items : List (Slot (Option Node))}
    (h : itemsWellFormed items = true) :
    ∀ slot ∈ items, ∀ node ∈ slot.core, node.isWellFormed = true := by
  induction items with
  | nil => exact fun slot hslot => absurd hslot List.not_mem_nil
  | cons slot rest ih =>
    obtain ⟨lead, item, trail⟩ := slot
    cases item with
    | some node =>
      simp only [itemsWellFormed, Bool.and_eq_true] at h
      refine List.forall_mem_cons.2 ⟨fun other hother => ?_, ih h.2⟩
      cases hother
      exact h.1.2
    | none =>
      simp only [itemsWellFormed, Bool.and_eq_true] at h
      exact List.forall_mem_cons.2 ⟨fun other hother => (nomatch hother), ih h.2⟩

end ConfigPatch.Literal
