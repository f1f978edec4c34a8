import ConfigPatch.Proofs.Literal.Reading

/-!
# Walking a path through a literal

Where a well-formed literal stands in a text, each step of the resolver
leads to the span of what `Target.down?` leads to, and that stands in the
text again. So a whole walk does.
-/

namespace ConfigPatch.Literal

open Lexical Lexeme

variable {s : String} {t t' : Target} {p : Path}

/-- **A target stands in a text** as a well-formed literal. -/
structure Target.StandsIn (s : String) (t : Target) : Prop where
  wellFormed : ∀ node ∈ t.node, node.isWellFormed = true
  stands : Stands s t.start t.lexemes

namespace Target.StandsIn

/-- The first byte of a target. -/
theorem opener? (h : t.StandsIn s) :
    (t.span.opener? (Text.bytes s)).bind Bracket.ofOpener? = t.node.bind Node.shape? := by
  obtain ⟨start, node⟩ := t
  cases node with
  | none => simp [Span.opener?, Span.isEmpty, Target.span, Target.lexemes, placeLexemes]
  | some node =>
    have hnode := h.wellFormed node rfl
    have hpos := Node.width_pos hnode
    obtain ⟨b, rest, hb, -, -, hshape⟩ := Node.exists_head hnode
    have hne : (Target.span ⟨start, some node⟩).isEmpty = false := by
      simp only [Span.isEmpty, Target.span, Target.lexemes, placeLexemes, Option.elim_some,
        beq_eq_false_iff_ne]
      omega
    have hfirst : (Text.bytes s)[start]? = some b := h.stands.getElem? hb
    simp only [Span.opener?, hne, Bool.false_eq_true, if_false, Option.bind_some]
    rw [show (Target.span ⟨start, some node⟩).start = start from rfl, hfirst, Option.bind_some,
      hshape]

/-- A mapping stands in its braces. -/
theorem object {start : Nat} {entries : List (Slot (Item Node))} {close : Option Gap}
    (h : (Target.mk start (some (.object entries close))).StandsIn s) :
    entriesWellFormed entries = true ∧ close.all isGap = true ∧
      Stands s start
        (.opening .brace :: (joined (entrySlots entries) close ++ [.closing .brace])) := by
  have hwell := h.wellFormed _ rfl
  simp only [Node.isWellFormed, Bool.and_eq_true] at hwell
  exact ⟨hwell.1, hwell.2, h.stands⟩

/-- The inside of a mapping. -/
theorem object_inside {start : Nat} {entries : List (Slot (Item Node))} {close : Option Gap}
    (h : (Target.mk start (some (.object entries close))).StandsIn s) :
    Stands s (start + 1) (joined (entries.map (Slot.map Item.lexemes)) close) := by
  rw [← entrySlots_eq_map]
  exact h.object.2.2.tail.take

/-- The inside of a sequence. -/
theorem array_inside {start : Nat} {items : List (Slot (Option Node))} {close : Option Gap}
    (h : (Target.mk start (some (.array items close))).StandsIn s) :
    Stands s (start + 1) (joined (items.map (Slot.map placeLexemes)) close) := by
  have hstands : Stands s start
    (.opening .square :: (joined (itemSlots items) close ++ [.closing .square])) := h.stands
  rw [← itemSlots_eq_map]
  exact hstands.tail.take

/-- **A step leads to something that stands in the text.** -/
theorem down? {segment : Segment} (h : t.StandsIn s) (ht : t.down? segment = some t') :
    t'.StandsIn s := by
  obtain ⟨start, node⟩ := t
  unfold Target.down? at ht
  split at ht
  · rename_i name entries close hnode
    cases hnode
    obtain ⟨⟨name', t''⟩, hlast, rfl⟩ := Option.map_eq_some_iff.1 ht
    have hmem := (List.mem_filter.1 (List.mem_of_getLast? hlast)).1
    obtain ⟨place, hplace, hmember⟩ := List.mem_filterMap.1 hmem
    have hentry := stands_of_mem_cores h.object_inside hplace
    obtain ⟨slot, hslot, hcore⟩ := exists_slot_of_mem_cores hplace
    have hwell := isWellFormed_of_mem_entries h.object.1 slot hslot
    rw [hcore] at hwell
    obtain ⟨offset, entry⟩ := place
    cases entry with
    | pair key before after value =>
      simp only [Item.isWellFormed, Bool.and_eq_true] at hwell
      cases hmember
      refine ⟨fun other hother => ?_, ?_⟩
      · cases hother
        exact hwell.2
      · have hsplit : Stands s offset
            ((key.lexeme :: (before ++ .colon :: after)) ++ value.lexemes) := by
          simpa [Item.lexemes] using hentry
        exact hsplit.drop
    | shorthand name | spread name => cases hmember
  · rename_i n items close hnode
    cases hnode
    have hmem := List.mem_of_getElem? ht
    obtain ⟨place, hplace, rfl⟩ := List.mem_map.1 hmem
    have hwell := h.wellFormed _ rfl
    simp only [Node.isWellFormed, Bool.and_eq_true] at hwell
    obtain ⟨slot, hslot, hcore⟩ := exists_slot_of_mem_cores hplace
    refine ⟨fun node hnode => ?_, stands_of_mem_cores h.array_inside hplace⟩
    rw [← hcore] at hnode
    exact isWellFormed_of_mem_items hwell.1.1 slot hslot node hnode
  · cases ht

/-- What stands within the brackets of a mapping or a sequence. -/
theorem exists_bracket {start : Nat} {node : Node} {shape : Bracket}
    (h : (Target.mk start (some node)).StandsIn s) (hshape : node.shape? = some shape) :
    ∃ inside, node.lexemes = .opening shape :: (inside ++ [.closing shape]) ∧
      Balanced inside := by
  have hwell := h.wellFormed _ rfl
  cases node with
  | word | string => cases hshape
  | object entries close =>
    cases hshape
    simp only [Node.isWellFormed, Bool.and_eq_true] at hwell
    exact ⟨_, rfl, balanced_joined (balanced_of_mem_entrySlots hwell.1) hwell.2⟩
  | array items close =>
    cases hshape
    simp only [Node.isWellFormed, Bool.and_eq_true] at hwell
    exact ⟨_, rfl, balanced_joined (balanced_of_mem_itemSlots hwell.1.1) hwell.1.2⟩

/-- The resolver finds the bracket that closes a mapping or a sequence. -/
theorem spanAt {start : Nat} {node : Node} {shape : Bracket}
    (h : (Target.mk start (some node)).StandsIn s) (hshape : node.shape? = some shape) :
    Lexical.spanAt (Text.bytes s) start = .ok (Target.mk start (some node)).span := by
  obtain ⟨inside, hlexemes, hinside⟩ := h.exists_bracket hshape
  have hstands : Stands s start node.lexemes := h.stands
  rw [hlexemes] at hstands
  rw [spanAt_bracket hstands hinside, ← width_bracket, ← hlexemes]
  rfl

/-- The resolver finds the items of a mapping or a sequence. -/
theorem items? {start : Nat} {node : Node} {shape : Bracket} {inside : List Lexeme}
    (h : (Target.mk start (some node)).StandsIn s)
    (hlexemes : node.lexemes = .opening shape :: (inside ++ [.closing shape]))
    (hinside : Balanced inside) :
    Lexical.items? (Text.bytes s) (Target.mk start (some node)).span.inner =
      some (itemsFrom 0 none (start + 1) (allMarks inside)) := by
  have hstands : Stands s start node.lexemes := h.stands
  have hspan : (Target.mk start (some node)).span = ⟨start, start + width node.lexemes⟩ := rfl
  rw [hlexemes] at hstands
  rw [hspan, hlexemes, width_bracket]
  exact items?_bracket hstands hinside

/-- A path leads to something that stands in the text. -/
theorem foldlM_down? (h : t.StandsIn s) (ht : p.foldlM Target.down? t = some t') :
    t'.StandsIn s := by
  induction p generalizing t with
  | nil =>
    cases ht
    exact h
  | cons segment p ih =>
    rw [List.foldlM_cons] at ht
    obtain ⟨next, hnext, ht⟩ := Option.bind_eq_some_iff.1 ht
    exact ih (h.down? hnext) ht

/-- A mapping or a sequence ends with its bracket already. -/
theorem narrow (h : t.StandsIn s) : narrow (Text.bytes s) t.span = .ok t.span := by
  obtain ⟨start, node⟩ := t
  rw [Literal.narrow, h.opener?]
  cases node with
  | none => rfl
  | some node =>
    rw [Option.bind_some]
    cases hshape : node.shape? with
    | none => rfl
    | some shape =>
      have hspan : Lexical.spanAt (Text.bytes s) (Target.span ⟨start, some node⟩).start = _ :=
        h.spanAt hshape
      cases node with
      | word | string => cases hshape
      | object | array =>
        cases hshape
        exact hspan

theorem mapM_read? {entries : List (Slot (Item Node))} {start : Nat} {close : Option Gap}
    (h : (Target.mk start (some (.object entries close))).StandsIn s) :
    ((cores Item.lexemes (start + 1) entries).map fun place =>
        coreSpan (place.1, place.2.lexemes)).mapM (Entry.read? s) =
      .ok ((cores Item.lexemes (start + 1) entries).map fun place =>
        (place.2.member? place.1).map fun member => ⟨member.1, member.2.span⟩) := by
  refine Failure.mapM_eq_ok fun place hplace => ?_
  obtain ⟨slot, hslot, hcore⟩ := exists_slot_of_mem_cores hplace
  have hwell := isWellFormed_of_mem_entries h.object.1 slot hslot
  rw [hcore] at hwell
  exact read?_entry (stands_of_mem_cores h.object_inside hplace) hwell

/-- **A property of a target** is what the segment leads to. -/
theorem property? (h : t.StandsIn s) (name : String) :
    Literal.property? s t.span name =
      .ok ((t.down? (.property name)).map Target.span) := by
  rw [Literal.property?, h.opener?]
  obtain ⟨start, node⟩ := t
  match node with
  | none | some (.word _) | some (.string _ _) | some (.array _ _) => rfl
  | some (.object entries close) =>
    have hbalanced := balanced_joined (balanced_of_mem_entrySlots h.object.1) h.object.2.1
    simp only [Option.bind_some, Node.shape?, ne_eq, not_true_eq_false, if_false,
      h.items? rfl hbalanced, itemsFrom_entries h.object.1 h.object.2.1, Failure.ofCut_some,
      Failure.ok_bind, h.mapM_read?]
    have hentries : ((cores Item.lexemes (start + 1) entries).map fun place =>
        (place.2.member? place.1).map fun member => Entry.mk member.1 member.2.span).reduceOption =
          (members (start + 1) entries).map fun member => Entry.mk member.1 member.2.span := by
      change List.filterMap id _ = _
      rw [List.filterMap_map, members, List.map_filterMap]
      rfl
    have hlast : (((members (start + 1) entries).map fun member =>
        Entry.mk member.1 member.2.span).filter (·.key == name)).getLast? =
          (((members (start + 1) entries).filter (·.1 == name)).getLast?).map fun member =>
            Entry.mk member.1 member.2.span := by
      rw [List.filter_map, List.getLast?_map]
      rfl
    rw [hentries, hlast]
    cases hmember : ((members (start + 1) entries).filter (·.1 == name)).getLast? with
    | none =>
      rw [Target.down?_object, hmember]
      rfl
    | some member =>
      have hdown : Target.down? ⟨start, some (.object entries close)⟩ (.property name) =
          some member.2 := by
        rw [Target.down?_object, hmember]
        rfl
      simp only [Option.map_some, (h.down? hdown).narrow, Failure.ofExcept_ok, Failure.ok_bind,
        hdown]
      rfl

/-- **An item of a target** is what the segment leads to. -/
theorem item? (h : t.StandsIn s) (n : UInt64) :
    Literal.item? s t.span n = .ok ((t.down? (.index n)).map Target.span) := by
  rw [Literal.item?, h.opener?]
  obtain ⟨start, node⟩ := t
  match node with
  | none | some (.word _) | some (.string _ _) | some (.object _ _) => rfl
  | some (.array items close) =>
    have hwell := h.wellFormed _ rfl
    have hparts := hwell
    simp only [Node.isWellFormed, Bool.and_eq_true] at hparts
    have hbalanced := balanced_joined (balanced_of_mem_itemSlots hparts.1.1) hparts.1.2
    simp only [Option.bind_some, Node.shape?, ne_eq, not_true_eq_false, if_false,
      h.items? rfl hbalanced, itemsFrom_items hwell, Failure.ofCut_some, Failure.ok_bind]
    rw [List.getElem?_map, Target.down?_array]
    rfl

end Target.StandsIn

/-- **One step of the resolver.** -/
theorem down_eq (h : t.StandsIn s) (step : Step) :
    down s p t.span step =
      match t.down? step.segment with
      | some t' => .ok t'.span
      | none => .error (.refused (.pathNotFound p)) := by
  obtain ⟨previous, segment, isLast⟩ := step
  cases segment with
  | property name =>
    simp only [down, h.property?, Failure.ok_bind]
    cases t.down? (.property name) <;> rfl
  | index n =>
    simp only [down, h.item?, Failure.ok_bind]
    cases t.down? (.index n) <;> rfl

/-- **A whole walk of the resolver.** -/
theorem foldlM_down (h : t.StandsIn s) (previous : Option Segment) (rest : Path) :
    (Path.stepsFrom previous rest).foldlM (down s p) t.span =
      match rest.foldlM Target.down? t with
      | some t' => .ok t'.span
      | none => .error (.refused (.pathNotFound p)) := by
  induction rest generalizing t previous with
  | nil => rfl
  | cons segment rest ih =>
    rw [Path.stepsFrom, List.foldlM_cons, List.foldlM_cons, down_eq h]
    cases ht : t.down? segment with
    | none => rfl
    | some t' => exact ih (h.down? ht) (some segment)

end ConfigPatch.Literal
