import ConfigPatch.Proofs.Literal.Node

/-!
# How a literal is laid out

The lexemes of a well-formed literal run from any place where a word may
stand, so the scan finds them. Within brackets the commas of the scan are
those between the slots: `items_joined` gives the items with their spans.
-/

namespace ConfigPatch.Literal

open Lexical Lexeme

variable {stack : List Bracket} {ls gap : List Lexeme}
variable {slots : List (Slot (List Lexeme))} {close : Option Gap}

/-! ## Literals run -/

/-- Lexemes that run after punctuation and close just the brackets that
they open. -/
def Balanced (ls : List Lexeme) : Prop :=
  ∀ stack, ∃ ctx, (Context.fresh stack).run ls = some ctx ∧ ctx.stack = stack

theorem balanced_of_isGap (h : isGap gap = true) : Balanced gap := fun _ =>
  ⟨_, run_gap h (.inl rfl), rfl⟩

/-- A gap after punctuation changes nothing. -/
theorem run_gap_fresh (h : isGap gap = true) :
    (Context.fresh stack).run gap = some (Context.fresh stack) :=
  run_gap h (.inl rfl)

/-- Slots with commas between them are balanced if the slots are. -/
theorem balanced_joined (h : ∀ slot ∈ slots, Balanced slot.lexemes)
    (hclose : close.all isGap = true) : Balanced (joined slots close) := by
  induction slots with
  | nil =>
    cases close with
    | none => exact fun stack => ⟨_, rfl, rfl⟩
    | some gap => exact balanced_of_isGap hclose
  | cons slot rest ih =>
    have hslot := h slot List.mem_cons_self
    have hrest := ih fun slot hslot => h slot (List.mem_cons_of_mem _ hslot)
    have hcomma : Balanced (slot.lexemes ++ .comma :: joined rest close) := fun stack => by
      obtain ⟨ctx, hctx, hstack⟩ := hslot stack
      rw [Context.run_append, hctx, Option.bind_some, Context.run_cons, Context.step_comma,
        Option.bind_some, hstack]
      exact hrest stack
    cases rest with
    | nil =>
      cases close with
      | none => exact hslot
      | some gap => exact hcomma
    | cons next rest => exact hcomma

/-- What stands before the next lexeme after a literal. -/
def Node.after (stack : List Bracket) (node : Node) : Context :=
  ⟨node.isContainer, node.isContainer, stack⟩

/-- A balanced stretch in brackets runs wherever a bracket may stand. -/
theorem run_bracket {ctx : Context} {shape : Bracket} (h : Balanced ls) :
    ctx.run (.opening shape :: (ls ++ [.closing shape])) = some (.fresh ctx.stack) := by
  obtain ⟨inner, hinner, hstack⟩ := h (shape :: ctx.stack)
  rw [Context.run_cons, Context.step_opening, Option.bind_some, Context.run_append, hinner,
    Option.bind_some, Context.run_cons, Context.step_closing hstack]
  rfl

/-- A slot is balanced if its core runs. -/
theorem balanced_slot {lead trail : Gap} {core : List Lexeme} {bracket : Bool}
    (hframe : isFrame lead bracket trail = true)
    (hcore : ∀ stack, (Context.fresh stack).run core = some ⟨bracket, bracket, stack⟩) :
    Balanced (Slot.lexemes ⟨lead, core, trail⟩) := by
  intro stack
  simp only [isFrame, Bool.and_eq_true, Bool.or_eq_true] at hframe
  obtain ⟨⟨hlead, htrail⟩, hapart⟩ := hframe
  rw [Slot.lexemes, Context.run_append, run_gap_fresh hlead, Option.bind_some, Context.run_append,
    hcore, Option.bind_some, run_gap htrail hapart]
  exact ⟨_, rfl, rfl⟩

theorem run_word {ctx : Context} {text : List Char} (h : (Lexeme.word text).isWellFormed = true)
    (hctx : ctx.atom = true) : ctx.run [.word text] = some ⟨false, false, ctx.stack⟩ := by
  rw [Context.run_cons, Context.step_word.2 ⟨h, hctx, rfl⟩]
  rfl

/-- A word is all that a slot needs. -/
theorem balanced_word {lead trail : Gap} {text : List Char}
    (hframe : isFrame lead false trail = true) (h : (Lexeme.word text).isWellFormed = true) :
    Balanced (Slot.lexemes ⟨lead, [.word text], trail⟩) :=
  balanced_slot hframe fun _ => run_word h rfl

theorem run_string {ctx : Context} {quote : Char} {inside : List Char}
    (h : (Lexeme.string quote inside).isWellFormed = true) (hctx : ctx.atom = true) :
    ctx.run [.string quote inside] = some ⟨false, false, ctx.stack⟩ := by
  rw [Context.run_cons, Context.step_string.2 ⟨h, hctx, rfl⟩]
  rfl

theorem isWellFormed_word_of_isWord {name : List Char} (h : Text.isWord name = true) :
    (Lexeme.word name).isWellFormed = true := by
  simp only [Text.isWord, Bool.and_eq_true, List.all_eq_true] at h
  simp only [isWellFormed, Bool.and_eq_true, List.all_eq_true]
  exact ⟨h.1, fun c hc => by simp [isLiteralChar, h.2 c hc]⟩

theorem isWellFormed_spread {expr : List Char} (h : (Lexeme.word expr).isWellFormed = true) :
    (Lexeme.word ('.' :: '.' :: '.' :: expr)).isWellFormed = true := by
  simp only [isWellFormed, Bool.and_eq_true] at h
  have hpoint : isLiteralChar '.' = true := by simp [isLiteralChar]
  simp [isWellFormed, hpoint, h.2]

theorem Key.run {ctx : Context} {key : Key} (h : key.isWellFormed = true) (hctx : ctx.atom = true) :
    ctx.step key.lexeme = some ⟨false, false, ctx.stack⟩ := by
  cases key with
  | bare name => exact Context.step_word.2 ⟨isWellFormed_word_of_isWord h, hctx, rfl⟩
  | quoted quote inside => exact Context.step_string.2 ⟨h, hctx, rfl⟩

mutual

/-- **A well-formed literal runs** wherever a word may stand. -/
theorem Node.run {node : Node} {ctx : Context} (h : node.isWellFormed = true) (hctx : ctx.atom = true) :
    ctx.run node.lexemes = some (node.after ctx.stack) := by
  match node with
  | .word text => exact run_word h hctx
  | .string quote inside => exact run_string h hctx
  | .object entries close =>
    simp only [Node.isWellFormed, Bool.and_eq_true] at h
    exact run_bracket (balanced_joined (balanced_of_mem_entrySlots h.1) h.2)
  | .array items close =>
    simp only [Node.isWellFormed, Bool.and_eq_true] at h
    exact run_bracket (balanced_joined (balanced_of_mem_itemSlots h.1.1) h.1.2)

theorem balanced_of_mem_entrySlots {entries : List (Slot (Item Node))}
    (h : entriesWellFormed entries = true) :
    ∀ slot ∈ entrySlots entries, Balanced slot.lexemes := by
  match entries with
  | [] => exact fun slot hslot => absurd hslot List.not_mem_nil
  | ⟨lead, .pair key before after value, trail⟩ :: rest =>
    simp only [entriesWellFormed, Bool.and_eq_true] at h
    obtain ⟨⟨⟨⟨hframe, hkey⟩, ⟨hbefore, hapart⟩, hafter⟩, hvalue⟩, hrest⟩ := h
    refine List.forall_mem_cons.2 ⟨balanced_slot hframe fun stack => ?_,
      balanced_of_mem_entrySlots hrest⟩
    rw [Context.run_cons, key.run hkey rfl, Option.bind_some, Context.run_append,
      run_gap hbefore (.inr hapart), Option.bind_some, Context.run_cons, Context.step_colon,
      Option.bind_some, Context.run_append, run_gap_fresh hafter, Option.bind_some]
    exact Node.run hvalue rfl
  | ⟨lead, .shorthand name, trail⟩ :: rest =>
    simp only [entriesWellFormed, Bool.and_eq_true] at h
    exact List.forall_mem_cons.2
      ⟨balanced_word h.1.1 (isWellFormed_word_of_isWord h.1.2), balanced_of_mem_entrySlots h.2⟩
  | ⟨lead, .spread expr, trail⟩ :: rest =>
    simp only [entriesWellFormed, Bool.and_eq_true] at h
    exact List.forall_mem_cons.2
      ⟨balanced_word h.1.1 (isWellFormed_spread h.1.2), balanced_of_mem_entrySlots h.2⟩

theorem balanced_of_mem_itemSlots {items : List (Slot (Option Node))}
    (h : itemsWellFormed items = true) :
    ∀ slot ∈ itemSlots items, Balanced slot.lexemes := by
  match items with
  | [] => exact fun slot hslot => absurd hslot List.not_mem_nil
  | ⟨lead, some node, trail⟩ :: rest =>
    simp only [itemsWellFormed, Bool.and_eq_true] at h
    exact List.forall_mem_cons.2 ⟨balanced_slot h.1.1 fun stack => Node.run h.1.2 rfl,
      balanced_of_mem_itemSlots h.2⟩
  | ⟨lead, none, trail⟩ :: rest =>
    simp only [itemsWellFormed, Bool.and_eq_true, List.isEmpty_iff] at h
    obtain ⟨⟨hlead, rfl⟩, hrest⟩ := h
    refine List.forall_mem_cons.2 ⟨?_, balanced_of_mem_itemSlots hrest⟩
    rw [Slot.lexemes, List.append_nil, List.append_nil]
    exact balanced_of_isGap hlead

end

/-! ## What a literal is to the scan -/

theorem Balanced.nested (h : Balanced ls) : Nested (allMarks ls) := by
  obtain ⟨ctx, hctx, hstack⟩ := h []
  exact (openAfter_of_run hctx).trans (congrArg some hstack)

theorem Balanced.fills_bracket {shape : Bracket} (h : Balanced ls) :
    Fills (allMarks (.opening shape :: (ls ++ [.closing shape]))) := by
  simp only [allMarks_cons, allMarks_append, marks_opening, marks_closing, allMarks_nil,
    List.append_nil, List.singleton_append]
  exact h.nested.fills_bracket

theorem fills_word {text : List Char} (h : (Lexeme.word text).isWellFormed = true) :
    Fills (Lexeme.word text).marks := by
  simp only [isWellFormed, Bool.and_eq_true, Bool.not_eq_true', List.isEmpty_eq_false_iff] at h
  obtain ⟨c, cs, rfl⟩ := List.exists_cons_of_ne_nil h.1
  refine Fills.of_isSolid (fun hnil => ?_) fun mark hmark => ?_
  · have hlen := congrArg List.length hnil
    have hpos := c.utf8Size_pos
    simp [Lexeme.marks, bytes, chars] at hlen
    omega
  · obtain ⟨b, hb, rfl⟩ := List.mem_map.1 hmark
    exact isSolid_of_notMem (notMem_syntaxBytes h.2 hb)

theorem fills_string {quote : Char} {inside : List Char}
    (h : (Lexeme.string quote inside).isWellFormed = true) :
    Fills (Lexeme.string quote inside).marks := by
  simp only [isWellFormed, Bool.and_eq_true] at h
  rw [Lexeme.marks, bytes_string inside h.1.1]
  refine Fills.of_isSolid (by simp [inQuotes]) fun mark hmark => ?_
  obtain ⟨b, -, rfl⟩ := List.mem_map.1 hmark
  rfl

/-- **A literal is part of one item.** -/
theorem Node.fills {node : Node} (h : node.isWellFormed = true) : Fills (allMarks node.lexemes) := by
  cases node with
  | word text =>
    rw [Node.lexemes, allMarks_cons, allMarks_nil, List.append_nil]
    exact fills_word h
  | string quote inside =>
    rw [Node.lexemes, allMarks_cons, allMarks_nil, List.append_nil]
    exact fills_string h
  | object entries close =>
    simp only [Node.isWellFormed, Bool.and_eq_true] at h
    exact (balanced_joined (balanced_of_mem_entrySlots h.1) h.2).fills_bracket
  | array items close =>
    simp only [Node.isWellFormed, Bool.and_eq_true] at h
    exact (balanced_joined (balanced_of_mem_itemSlots h.1.1) h.1.2).fills_bracket

theorem Key.fills {key : Key} (h : key.isWellFormed = true) : Fills key.lexeme.marks := by
  cases key with
  | bare name => exact fills_word (isWellFormed_word_of_isWord h)
  | quoted quote inside => exact fills_string h

/-- A key, a colon and a literal are part of one item. -/
theorem fills_pair {key : Key} {before after : Gap} {node : Node} (hkey : key.isWellFormed = true)
    (hbefore : isGap before = true) (hafter : isGap after = true)
    (h : node.isWellFormed = true) :
    Fills (allMarks (key.lexeme :: (before ++ .colon :: (after ++ node.lexemes)))) := by
  have hcolon : Fills Lexeme.colon.marks :=
    Fills.of_isSolid (by decide) fun mark hmark => by
      rw [List.mem_singleton.1 hmark]
      rfl
  simp only [allMarks_cons, allMarks_append]
  exact key.fills hkey |>.append (isBlank_of_mem_allMarks hbefore)
    (hcolon.append (isBlank_of_mem_allMarks hafter) (Node.fills h))

/-! ## The items between the commas -/

/-- A slot that the scan finds as one item. -/
structure Slot.IsItem (slot : Slot (List Lexeme)) : Prop where
  lead : isGap slot.lead = true
  trail : isGap slot.trail = true
  core : slot.core = [] ∧ slot.trail = [] ∨ Fills (allMarks slot.core)

/-- The item that the scan finds in a slot at an offset, if it is no
hole. -/
def Slot.span? (offset : Nat) (slot : Slot (List Lexeme)) : Option Span :=
  if slot.core.isEmpty then none
  else some ⟨offset + width slot.lead, offset + width slot.lead + width slot.core⟩

theorem itemsFrom_slot {slot : Slot (List Lexeme)} (h : slot.IsItem) {offset : Nat}
    {rest : List Mark} :
    itemsFrom 0 none offset (allMarks slot.lexemes ++ rest) =
      itemsFrom 0 (slot.span? offset) (offset + width slot.lexemes) rest := by
  simp only [Slot.lexemes, allMarks_append, List.append_assoc, width_append]
  rw [itemsFrom_append_of_isBlank (isBlank_of_mem_allMarks h.lead), length_allMarks]
  rcases h.core with ⟨hcore, htrail⟩ | hcore
  · rw [hcore, htrail]
    simp [Slot.span?, hcore]
  · have hne : slot.core.isEmpty = false := by
      rw [List.isEmpty_eq_false_iff]
      intro hnil
      exact hcore.ne_nil (by rw [hnil, allMarks_nil])
    rw [hcore, itemsFrom_append_of_isBlank (isBlank_of_mem_allMarks h.trail), length_allMarks,
      length_allMarks, Slot.span?, hne]
    simp only [Span.extend, Option.map_none, Option.getD_none, Bool.false_eq_true, if_false,
      Nat.add_assoc]

/-- The span of the content of a slot. -/
def coreSpan (place : Nat × List Lexeme) : Span := ⟨place.1, place.1 + width place.2⟩

theorem span?_of_ne_nil {slot : Slot (List Lexeme)} {offset : Nat} (h : slot.core ≠ []) :
    slot.span? offset = some (coreSpan (offset + width slot.lead, slot.core)) := by
  rw [Slot.span?, if_neg (by simpa using h)]
  rfl

/-- A hole stands at the comma. -/
theorem getD_span? {slot : Slot (List Lexeme)} {offset : Nat} (h : slot.IsItem) :
    (slot.span? offset).getD ⟨offset + width slot.lexemes, offset + width slot.lexemes⟩ =
      coreSpan (offset + width slot.lead, slot.core) := by
  rcases h.core with ⟨hcore, htrail⟩ | hcore
  · simp [Slot.span?, hcore, htrail, Slot.lexemes, coreSpan]
  · have hne : slot.core ≠ [] := fun hnil => hcore.ne_nil (by rw [hnil, allMarks_nil])
    rw [span?_of_ne_nil hne, Option.getD_some]

/-- **The scan finds the slots.** -/
theorem itemsFrom_joined {offset : Nat} (h : ∀ slot ∈ slots, slot.IsItem)
    (hlast : close = none → ∀ slot ∈ slots.getLast?, slot.core ≠ [])
    (hclose : close.all isGap = true) :
    itemsFrom 0 none offset (allMarks (joined slots close)) =
      (cores id offset slots).map coreSpan := by
  induction slots generalizing offset with
  | nil =>
    cases close with
    | none => rfl
    | some gap =>
      have hgap : itemsFrom 0 none offset (allMarks gap ++ []) = [] :=
        itemsFrom_append_of_isBlank (isBlank_of_mem_allMarks hclose)
      rw [List.append_nil] at hgap
      exact hgap
  | cons slot rest ih =>
    have hslot := h slot List.mem_cons_self
    have hcomma : itemsFrom 0 none offset (allMarks (slot.lexemes ++ .comma :: joined rest close)) =
        (cores id offset (slot :: rest)).map coreSpan := by
      have hlast' : close = none → ∀ slot ∈ rest.getLast?, slot.core ≠ [] := by
        intro hnone last hmem
        refine hlast hnone last ?_
        rw [List.getLast?_cons, Option.mem_def.1 hmem]
        rfl
      rw [allMarks_append, itemsFrom_slot hslot, allMarks_cons, marks_comma,
        List.singleton_append, itemsFrom_comma, getD_span? hslot,
        ih (fun slot hslot => h slot (List.mem_cons_of_mem _ hslot)) hlast']
      rfl
    cases rest with
    | nil =>
      cases close with
      | none =>
        have hne := hlast rfl slot (by simp)
        rw [joined, ← List.append_nil (allMarks slot.lexemes), itemsFrom_slot hslot,
          span?_of_ne_nil hne]
        rfl
      | some gap => exact hcomma
    | cons next rest => exact hcomma

theorem cores_map {α : Type} {lexemes : α → List Lexeme} {slots : List (Slot α)} {offset : Nat} :
    cores id offset (slots.map (Slot.map lexemes)) =
      (cores lexemes offset slots).map fun place => (place.1, lexemes place.2) := by
  induction slots generalizing offset with
  | nil => rfl
  | cons slot rest ih => simp [cores, ih, Slot.map]

theorem isItem_of_isFrame {lead trail : Gap} {core : List Lexeme} {bracket : Bool}
    (hframe : isFrame lead bracket trail = true) (hcore : Fills (allMarks core)) :
    Slot.IsItem ⟨lead, core, trail⟩ := by
  simp only [isFrame, Bool.and_eq_true] at hframe
  exact ⟨hframe.1.1, hframe.1.2, .inr hcore⟩

theorem isItem_word {lead trail : Gap} {text : List Char}
    (hframe : isFrame lead false trail = true) (h : (Lexeme.word text).isWellFormed = true) :
    Slot.IsItem ⟨lead, [.word text], trail⟩ := by
  refine isItem_of_isFrame hframe ?_
  rw [allMarks_cons, allMarks_nil, List.append_nil]
  exact fills_word h

theorem isItem_of_mem_entrySlots {entries : List (Slot (Item Node))}
    (h : entriesWellFormed entries = true) : ∀ slot ∈ entrySlots entries, slot.IsItem := by
  induction entries with
  | nil => exact fun slot hslot => absurd hslot List.not_mem_nil
  | cons slot rest ih =>
    obtain ⟨lead, entry, trail⟩ := slot
    cases entry with
    | pair key before after value =>
      simp only [entriesWellFormed, Bool.and_eq_true] at h
      obtain ⟨⟨⟨⟨hframe, hkey⟩, ⟨hbefore, -⟩, hafter⟩, hvalue⟩, hrest⟩ := h
      exact List.forall_mem_cons.2
        ⟨isItem_of_isFrame hframe (fills_pair hkey hbefore hafter hvalue), ih hrest⟩
    | shorthand name =>
      simp only [entriesWellFormed, Bool.and_eq_true] at h
      exact List.forall_mem_cons.2
        ⟨isItem_word h.1.1 (isWellFormed_word_of_isWord h.1.2), ih h.2⟩
    | spread expr =>
      simp only [entriesWellFormed, Bool.and_eq_true] at h
      exact List.forall_mem_cons.2 ⟨isItem_word h.1.1 (isWellFormed_spread h.1.2), ih h.2⟩

theorem isItem_of_mem_itemSlots {items : List (Slot (Option Node))}
    (h : itemsWellFormed items = true) : ∀ slot ∈ itemSlots items, slot.IsItem := by
  induction items with
  | nil => exact fun slot hslot => absurd hslot List.not_mem_nil
  | cons slot rest ih =>
    obtain ⟨lead, item, trail⟩ := slot
    cases item with
    | some node =>
      simp only [itemsWellFormed, Bool.and_eq_true] at h
      exact List.forall_mem_cons.2 ⟨isItem_of_isFrame h.1.1 (Node.fills h.1.2), ih h.2⟩
    | none =>
      simp only [itemsWellFormed, Bool.and_eq_true, List.isEmpty_iff] at h
      obtain ⟨⟨hlead, rfl⟩, hrest⟩ := h
      exact List.forall_mem_cons.2 ⟨⟨hlead, rfl, .inl ⟨rfl, rfl⟩⟩, ih hrest⟩

theorem Item.lexemes_ne_nil (entry : Item Node) : entry.lexemes ≠ [] := by
  cases entry <;> exact List.cons_ne_nil _ _

theorem Node.lexemes_ne_nil (node : Node) : node.lexemes ≠ [] := by
  cases node <;> exact List.cons_ne_nil _ _

/-- **The scan finds the entries of a mapping.** -/
theorem itemsFrom_entries {entries : List (Slot (Item Node))} {offset : Nat}
    (h : entriesWellFormed entries = true) (hclose : close.all isGap = true) :
    itemsFrom 0 none offset (allMarks (joined (entrySlots entries) close)) =
      (cores Item.lexemes offset entries).map fun place =>
        coreSpan (place.1, place.2.lexemes) := by
  rw [itemsFrom_joined (isItem_of_mem_entrySlots h) ?_ hclose, entrySlots_eq_map, cores_map,
    List.map_map]
  · rfl
  · intro _ slot hslot
    rw [entrySlots_eq_map, List.getLast?_map] at hslot
    obtain ⟨last, -, rfl⟩ := Option.map_eq_some_iff.1 hslot
    exact last.core.lexemes_ne_nil

/-- **The scan finds the items of a sequence.** -/
theorem itemsFrom_items {items : List (Slot (Option Node))} {offset : Nat}
    (h : (Node.array items close).isWellFormed = true) :
    itemsFrom 0 none offset (allMarks (joined (itemSlots items) close)) =
      (places offset items).map Target.span := by
  simp only [Node.isWellFormed, Bool.and_eq_true, Bool.or_eq_true, Bool.not_eq_true'] at h
  rw [itemsFrom_joined (isItem_of_mem_itemSlots h.1.1) ?_ h.1.2, itemSlots_eq_map, cores_map,
    places, List.map_map, List.map_map]
  · rfl
  · intro hnone slot hslot
    rw [itemSlots_eq_map, List.getLast?_map] at hslot
    obtain ⟨last, hlast, rfl⟩ := Option.map_eq_some_iff.1 hslot
    have hhole := h.2.resolve_left (by simp [hnone])
    rw [endsWithHole, hlast] at hhole
    cases hcore : last.core with
    | none => simp [hcore] at hhole
    | some node => simpa [Slot.map, placeLexemes, hcore] using node.lexemes_ne_nil

end ConfigPatch.Literal
