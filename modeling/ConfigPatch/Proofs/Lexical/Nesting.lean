import ConfigPatch.Proofs.Lexical.Scan

/-!
# Nested brackets

`openAfter` keeps the stack of open brackets along labelled bytes, and a
stretch is nested if it closes just what it opens. The search for the
bracket that closes a literal passes over a nested stretch, and so does
the search for commas: `Fills` says that a stretch becomes part of one
item, up to its last byte.
-/

namespace ConfigPatch.Lexical

namespace Bracket

theorem ofOpener?_eq_some {b : UInt8} {shape : Bracket} :
    ofOpener? b = some shape ↔ b = shape.opener := by
  constructor
  · intro h
    unfold ofOpener? at h
    split at h
    · cases h
      assumption
    · split at h
      · cases h
        assumption
      · split at h <;> cases h
        assumption
  · rintro rfl
    cases shape <;> rfl

theorem ofCloser?_eq_some {b : UInt8} {shape : Bracket} :
    ofCloser? b = some shape ↔ b = shape.closer := by
  constructor
  · intro h
    unfold ofCloser? at h
    split at h
    · cases h
      assumption
    · split at h
      · cases h
        assumption
      · split at h <;> cases h
        assumption
  · rintro rfl
    cases shape <;> rfl

theorem opener_inj {s t : Bracket} : s.opener = t.opener ↔ s = t := by
  cases s <;> cases t <;> decide

theorem closer_inj {s t : Bracket} : s.closer = t.closer ↔ s = t := by
  cases s <;> cases t <;> decide

theorem opener_ne_closer (s t : Bracket) : s.opener ≠ t.closer := by
  cases s <;> cases t <;> decide

theorem ofOpener?_closer (shape : Bracket) : ofOpener? shape.closer = none := by
  cases shape <;> rfl

theorem isInert_opener (shape : Bracket) : isInert shape.opener = true := by
  cases shape <;> rfl

theorem ascii (shape : Bracket) : shape.opener < 0x80 ∧ shape.closer < 0x80 := by
  cases shape <;> decide

end Bracket

/-! ## The stack of open brackets -/

/-- The open brackets after a byte, the last one first. There are none to
name where it closes something other than the last one. -/
def Mark.nest (stack : List Bracket) (mark : Mark) : Option (List Bracket) :=
  if mark.kind = .code then
    match Bracket.ofOpener? mark.byte with
    | some shape => some (shape :: stack)
    | none =>
      match Bracket.ofCloser? mark.byte with
      | some shape => if stack.head? = some shape then some stack.tail else none
      | none => some stack
  else some stack

/-- The open brackets after labelled bytes. -/
def openAfter (stack : List Bracket) (marks : List Mark) : Option (List Bracket) :=
  marks.foldlM Mark.nest stack

/-- **A stretch that closes just what it opens.** -/
def Nested (marks : List Mark) : Prop := openAfter [] marks = some []

variable {mark : Mark} {ms ns rest : List Mark} {stack below : List Bracket}
variable {shape : Bracket} {depth offset start stop : Nat} {current : Option Span}

theorem openAfter_append :
    openAfter stack (ms ++ ns) = (openAfter stack ms).bind (openAfter · ns) :=
  List.foldlM_append

theorem openAfter_cons :
    openAfter stack (mark :: ms) = (mark.nest stack).bind (openAfter · ms) :=
  List.foldlM_cons

/-- The brackets below the open ones do not matter. -/
theorem nest_append {stack' : List Bracket} (h : mark.nest stack = some stack') :
    mark.nest (stack ++ below) = some (stack' ++ below) := by
  unfold Mark.nest at h ⊢
  split
  · rename_i hcode
    simp only [hcode, if_true] at h
    cases hopen : Bracket.ofOpener? mark.byte with
    | some shape =>
      simp only [hopen, Option.some.injEq] at h ⊢
      rw [← h, List.cons_append]
    | none =>
      simp only [hopen] at h ⊢
      cases hclose : Bracket.ofCloser? mark.byte with
      | none =>
        simp only [hclose, Option.some.injEq] at h ⊢
        rw [h]
      | some shape =>
        simp only [hclose] at h ⊢
        split at h
        · rename_i htop
          cases h
          cases stack with
          | nil => simp at htop
          | cons top tail => simpa using htop
        · cases h
  · rename_i hcode
    simp only [hcode, if_false, Option.some.injEq] at h
    rw [h]

theorem openAfter_below {stack' : List Bracket} (h : openAfter stack ms = some stack') :
    openAfter (stack ++ below) ms = some (stack' ++ below) := by
  induction ms generalizing stack with
  | nil =>
    cases h
    rfl
  | cons mark ms ih =>
    rw [openAfter_cons] at h ⊢
    obtain ⟨middle, hmiddle, h⟩ := Option.bind_eq_some_iff.1 h
    rw [nest_append hmiddle]
    exact ih h

/-- A nested stretch leaves any stack as it is. -/
theorem Nested.openAfter_eq (h : Nested ms) : openAfter stack ms = some stack := by
  have hbelow : openAfter ([] ++ stack) ms = some ([] ++ stack) := openAfter_below h
  exact hbelow

theorem nested_nil : Nested [] := rfl

theorem openAfter_opener : openAfter stack [⟨shape.opener, .code⟩] = some (shape :: stack) := by
  simp [openAfter, Mark.nest, Bracket.ofOpener?_eq_some.2 rfl]

theorem openAfter_closer : openAfter (shape :: stack) [⟨shape.closer, .code⟩] = some stack := by
  simp [openAfter, Mark.nest, Bracket.ofOpener?_closer, Bracket.ofCloser?_eq_some.2 rfl]

/-! ## Looking for the closing bracket -/

/-- The search counts the brackets of its shape on the stack. -/
theorem closeFrom_nest {stack' : List Bracket} (h : mark.nest stack = some stack')
    (hd : 0 < depth) :
    shape.closeFrom (depth + stack.count shape) offset (mark :: rest) =
      shape.closeFrom (depth + stack'.count shape) (offset + 1) rest := by
  unfold Mark.nest at h
  split at h
  · rename_i hcode
    split at h
    · rename_i other hopen
      cases h
      have hbyte := Bracket.ofOpener?_eq_some.1 hopen
      by_cases hs : other = shape
      · subst hs
        simp [Bracket.closeFrom, hcode, hbyte, Nat.add_assoc]
      · have hne : other.opener ≠ shape.opener := fun h => hs (Bracket.opener_inj.1 h)
        simp [Bracket.closeFrom, hcode, hbyte, hne, Bracket.opener_ne_closer,
          List.count_cons_of_ne hs]
    · rename_i hopen
      have hno : mark.byte ≠ shape.opener := fun h => by
        simp [Bracket.ofOpener?_eq_some.2 h] at hopen
      split at h
      · rename_i other hclose
        split at h
        · rename_i htop
          cases h
          have hbyte := Bracket.ofCloser?_eq_some.1 hclose
          cases stack with
          | nil => simp at htop
          | cons top tail =>
            simp only [List.head?_cons, Option.some.injEq] at htop
            subst htop
            by_cases hs : top = shape
            · subst hs
              have hle : ¬ depth + (tail.count top + 1) ≤ 1 := by omega
              have hpred : depth + (tail.count top + 1) - 1 = depth + tail.count top := by omega
              rw [hbyte] at hno
              simp only [Bracket.closeFrom, hcode, hno, hbyte, ne_eq, not_true_eq_false, if_false,
                if_true, List.count_cons_self, hle, hpred, List.tail_cons]
            · have hne : top.closer ≠ shape.closer := fun h => hs (Bracket.closer_inj.1 h)
              simp [Bracket.closeFrom, hcode, hbyte ▸ hno, hbyte, hne, List.count_cons_of_ne hs]
        · cases h
      · rename_i hclose
        cases h
        have hnc : mark.byte ≠ shape.closer := fun h => by
          simp [Bracket.ofCloser?_eq_some.2 h] at hclose
        simp [Bracket.closeFrom, hcode, hno, hnc]
  · rename_i hcode
    cases h
    simp [Bracket.closeFrom, hcode]

theorem closeFrom_openAfter {stack' : List Bracket} (h : openAfter stack ms = some stack')
    (hd : 0 < depth) (shape : Bracket) (offset : Nat) (rest : List Mark) :
    shape.closeFrom (depth + stack.count shape) offset (ms ++ rest) =
      shape.closeFrom (depth + stack'.count shape) (offset + ms.length) rest := by
  induction ms generalizing stack offset with
  | nil =>
    cases h
    rfl
  | cons mark ms ih =>
    rw [openAfter_cons] at h
    obtain ⟨middle, hmiddle, h⟩ := Option.bind_eq_some_iff.1 h
    rw [List.cons_append, closeFrom_nest hmiddle hd, ih h, List.length_cons]
    congr 1
    omega

/-- **The search for a closing bracket passes over a nested stretch.** -/
theorem Nested.closeFrom_append (h : Nested ms) (hd : 0 < depth) :
    shape.closeFrom depth offset (ms ++ rest) =
      shape.closeFrom depth (offset + ms.length) rest := by
  have hopen := closeFrom_openAfter h hd shape offset rest
  simpa using hopen

/-- **A nested stretch in brackets is closed by its last byte.** -/
theorem Nested.closeFrom_bracket (h : Nested ms) :
    shape.closeFrom 0 offset (⟨shape.opener, .code⟩ :: (ms ++ ⟨shape.closer, .code⟩ :: rest)) =
      some (offset + ms.length + 2) := by
  have hne : shape.closer ≠ shape.opener := fun h => Bracket.opener_ne_closer shape shape h.symm
  rw [Bracket.closeFrom]
  simp only [ne_eq, not_true_eq_false, if_false, if_true, Nat.zero_add]
  rw [h.closeFrom_append (by omega), Bracket.closeFrom]
  simp [hne]
  omega

/-- **What the literal at an offset is**: it starts there with a bracket, and
ends where the search for the end of that does. -/
theorem spanAt_eq_ok {bytes : List UInt8} {span : Span} : spanAt bytes offset = .ok span ↔
    span.start = offset ∧ ∃ shape : Bracket, bytes[offset]? = some shape.opener ∧
      shape.closeFrom 0 offset (marksFrom bytes offset) = some span.stop := by
  unfold spanAt
  constructor
  · intro h
    split at h
    · cases h
    · rename_i shape hshape
      obtain ⟨b, hb, hopener⟩ := Option.bind_eq_some_iff.1 hshape
      split at h
      · rename_i stop hclose
        cases h
        exact ⟨rfl, shape, by rw [hb, Bracket.ofOpener?_eq_some.1 hopener], hclose⟩
      · cases h
  · rintro ⟨rfl, shape, hopener, hclose⟩
    rw [hopener, Option.bind_some, Bracket.ofOpener?_eq_some.2 rfl]
    dsimp only
    rw [hclose]

/-! ## Looking for commas -/

/-- Blanks and comments. -/
def Mark.isBlank (mark : Mark) : Bool :=
  mark.kind == .comment || (mark.kind == .code && isSpace mark.byte)

/-- What becomes part of an item and neither ends it nor opens or closes
anything. -/
def Mark.isSolid (mark : Mark) : Bool :=
  mark.kind == .text ||
    (mark.kind == .code && !isSpace mark.byte && mark.byte != comma &&
      (Bracket.ofOpener? mark.byte).isNone && (Bracket.ofCloser? mark.byte).isNone)

theorem depthAfter_of_isSpace {b : UInt8} (h : isSpace b = true) : depthAfter depth b = depth := by
  simp only [isSpace, Bool.or_eq_true, beq_iff_eq] at h
  rcases h with (((rfl | rfl) | rfl) | rfl) | rfl <;> rfl

theorem ne_comma_of_isSpace {b : UInt8} (h : isSpace b = true) : b ≠ comma := by
  rintro rfl
  exact absurd h (by decide)

/-- Blanks and comments are no part of an item. -/
theorem itemsFrom_cons_of_isBlank (h : mark.isBlank = true) :
    itemsFrom depth current offset (mark :: rest) =
      itemsFrom depth current (offset + 1) rest := by
  simp only [Mark.isBlank, Bool.or_eq_true, Bool.and_eq_true, beq_iff_eq] at h
  rcases h with h | ⟨h, hspace⟩
  · simp [itemsFrom, h]
  · simp [itemsFrom, h, hspace, ne_comma_of_isSpace hspace, depthAfter_of_isSpace hspace]

theorem itemsFrom_append_of_isBlank (h : ∀ mark ∈ ms, mark.isBlank = true) :
    itemsFrom depth current offset (ms ++ rest) =
      itemsFrom depth current (offset + ms.length) rest := by
  induction ms generalizing offset with
  | nil => rfl
  | cons mark ms ih =>
    rw [List.cons_append, itemsFrom_cons_of_isBlank (h mark (by simp)),
      ih fun n hn => h n (by simp [hn]), List.length_cons]
    congr 1
    omega

theorem Mark.nest_of_isBlank (h : mark.isBlank = true) : mark.nest stack = some stack := by
  simp only [Mark.isBlank, Bool.or_eq_true, Bool.and_eq_true, beq_iff_eq] at h
  rcases h with h | ⟨h, hspace⟩
  · simp [Mark.nest, h]
  · simp only [isSpace, Bool.or_eq_true, beq_iff_eq] at hspace
    simp only [Mark.nest, h, if_true]
    rcases hspace with (((hb | hb) | hb) | hb) | hb <;> rw [hb] <;> rfl

theorem nested_of_isBlank (h : ∀ mark ∈ ms, mark.isBlank = true) : Nested ms := by
  induction ms with
  | nil => exact nested_nil
  | cons mark ms ih =>
    rw [Nested, openAfter_cons, Mark.nest_of_isBlank (h mark (by simp))]
    exact ih fun n hn => h n (by simp [hn])

theorem Mark.nest_of_isSolid (h : mark.isSolid = true) : mark.nest stack = some stack := by
  simp only [Mark.isSolid, Bool.or_eq_true, Bool.and_eq_true, beq_iff_eq, bne_iff_ne,
    Bool.not_eq_true', Option.isNone_iff_eq_none] at h
  rcases h with h | ⟨⟨⟨⟨h, -⟩, -⟩, hopen⟩, hclose⟩
  · simp [Mark.nest, h]
  · simp [Mark.nest, h, hopen, hclose]

theorem nested_of_isSolid (h : ∀ mark ∈ ms, mark.isSolid = true) : Nested ms := by
  induction ms with
  | nil => exact nested_nil
  | cons mark ms ih =>
    rw [Nested, openAfter_cons, Mark.nest_of_isSolid (h mark (by simp))]
    exact ih fun n hn => h n (by simp [hn])

/-- A byte of an item goes on with it. -/
theorem itemsFrom_cons_of_isSolid (h : mark.isSolid = true) :
    itemsFrom depth current offset (mark :: rest) =
      itemsFrom depth (some (Span.extend current offset (offset + 1))) (offset + 1) rest := by
  simp only [Mark.isSolid, Bool.or_eq_true, Bool.and_eq_true, beq_iff_eq, bne_iff_ne,
    Bool.not_eq_true', Option.isNone_iff_eq_none] at h
  rcases h with h | ⟨⟨⟨⟨h, hspace⟩, hcomma⟩, hopen⟩, hclose⟩
  · simp [itemsFrom, h]
  · simp [itemsFrom, h, hspace, hcomma, depthAfter, hopen, hclose]

/-- A comma ends the item. Where there is none it stands at the comma. -/
theorem itemsFrom_comma :
    itemsFrom 0 current offset (⟨comma, .code⟩ :: rest) =
      current.getD ⟨offset, offset⟩ :: itemsFrom 0 none (offset + 1) rest := by
  simp [itemsFrom]

/-- **A stretch that becomes part of one item**, from its first byte to
its last one. -/
def Fills (marks : List Mark) : Prop :=
  ∀ depth current offset rest,
    itemsFrom depth current offset (marks ++ rest) =
      itemsFrom depth (some (Span.extend current offset (offset + marks.length)))
        (offset + marks.length) rest

theorem Fills.ne_nil (h : Fills ms) : ms ≠ [] := by
  rintro rfl
  have hnil := h 0 none 0 []
  simp [itemsFrom] at hnil

@[simp]
theorem Span.extend_some_extend {a b c d : Nat} :
    Span.extend (some (Span.extend current a b)) c d = Span.extend current a d := rfl

theorem Fills.of_isSolid (hne : ms ≠ []) (h : ∀ mark ∈ ms, mark.isSolid = true) : Fills ms := by
  induction ms with
  | nil => exact absurd rfl hne
  | cons mark ms ih =>
    intro depth current offset rest
    rw [List.cons_append, itemsFrom_cons_of_isSolid (h mark (by simp))]
    cases ms with
    | nil => rfl
    | cons next ms =>
      have hlen : offset + 1 + (next :: ms).length = offset + (mark :: next :: ms).length := by
        simp only [List.length_cons]
        omega
      rw [ih (by simp) fun n hn => h n (by simp [hn]), Span.extend_some_extend, hlen]

/-- Two parts of an item with blanks and comments between them. -/
theorem Fills.append (hm : Fills ms) (hgap : ∀ mark ∈ rest, mark.isBlank = true)
    (hn : Fills ns) : Fills (ms ++ (rest ++ ns)) := by
  intro depth current offset tail
  rw [List.append_assoc, hm, List.append_assoc, itemsFrom_append_of_isBlank hgap, hn,
    Span.extend_some_extend]
  simp only [List.length_append, Nat.add_assoc]

theorem depthAfter_opener : depthAfter depth shape.opener = depth + 1 := by
  simp [depthAfter, Bracket.ofOpener?_eq_some.2 rfl]

theorem depthAfter_closer : depthAfter depth shape.closer = depth - 1 := by
  simp [depthAfter, Bracket.ofOpener?_closer, Bracket.ofCloser?_eq_some.2 rfl]

/-- Within a bracket no comma ends the item. -/
theorem itemsFrom_nest {stack' : List Bracket} (h : mark.nest stack = some stack')
    (hd : 0 < depth) (start : Nat) {stop offset : Nat} (hle : stop ≤ offset) (rest : List Mark) :
    ∃ stop' ≤ offset + 1,
      itemsFrom (depth + stack.length) (some ⟨start, stop⟩) offset (mark :: rest) =
        itemsFrom (depth + stack'.length) (some ⟨start, stop'⟩) (offset + 1) rest := by
  have hdepth : ¬ (depth + stack.length = 0) := by omega
  cases hkind : mark.kind with
  | comment =>
    simp only [Mark.nest, hkind, reduceCtorEq, if_false, Option.some.injEq] at h
    exact ⟨stop, by omega, by simp [itemsFrom, hkind, h]⟩
  | text =>
    simp only [Mark.nest, hkind, reduceCtorEq, if_false, Option.some.injEq] at h
    exact ⟨offset + 1, Nat.le_refl _, by simp [itemsFrom, hkind, h, Span.extend]⟩
  | code =>
    have hstep : depthAfter (depth + stack.length) mark.byte = depth + stack'.length := by
      simp only [Mark.nest, hkind, if_true] at h
      split at h
      · rename_i shape hopen
        cases h
        simp [depthAfter, hopen, Nat.add_assoc]
      · rename_i hopen
        split at h
        · rename_i shape hclose
          split at h
          · rename_i htop
            cases h
            cases stack with
            | nil => simp at htop
            | cons top tail => simp [depthAfter, hopen, hclose]
          · cases h
        · rename_i hclose
          cases h
          simp [depthAfter, hopen, hclose]
    -- a bracket around it is open, so no comma ends the item
    have hcomma : ¬ (mark.byte = comma ∧ depth + stack.length = 0) := fun h => hdepth h.2
    rw [itemsFrom]
    simp only [hkind, if_neg hcomma, hstep]
    by_cases hspace : isSpace mark.byte = true
    · exact ⟨stop, by omega, by rw [if_pos hspace]⟩
    · exact ⟨offset + 1, Nat.le_refl _, by rw [if_neg hspace]; rfl⟩

theorem itemsFrom_openAfter {stack' : List Bracket} (h : openAfter stack ms = some stack')
    (hd : 0 < depth) (start : Nat) {stop offset : Nat} (hle : stop ≤ offset) (rest : List Mark) :
    ∃ stop' ≤ offset + ms.length,
      itemsFrom (depth + stack.length) (some ⟨start, stop⟩) offset (ms ++ rest) =
        itemsFrom (depth + stack'.length) (some ⟨start, stop'⟩) (offset + ms.length) rest := by
  induction ms generalizing stack offset stop with
  | nil =>
    cases h
    exact ⟨stop, hle, rfl⟩
  | cons mark ms ih =>
    rw [openAfter_cons] at h
    obtain ⟨middle, hmiddle, h⟩ := Option.bind_eq_some_iff.1 h
    obtain ⟨stop₁, hle₁, hfirst⟩ := itemsFrom_nest hmiddle hd start hle (ms ++ rest)
    obtain ⟨stop₂, hle₂, hrest⟩ := ih h hle₁
    have hlen : offset + 1 + ms.length = offset + (mark :: ms).length := by
      rw [List.length_cons]
      omega
    rw [hlen] at hle₂ hrest
    exact ⟨stop₂, hle₂, by rw [List.cons_append, hfirst, hrest]⟩

/-- **A nested stretch in brackets is part of one item.** -/
theorem Nested.fills_bracket (h : Nested ms) :
    Fills (⟨shape.opener, .code⟩ :: (ms ++ [⟨shape.closer, .code⟩])) := by
  have hspace (b : UInt8) (hb : b = shape.opener ∨ b = shape.closer) :
      isSpace b = false ∧ b ≠ comma := by
    rcases hb with rfl | rfl <;> cases shape <;> decide
  intro depth current offset rest
  obtain ⟨stop, -, hinner⟩ := itemsFrom_openAfter h (Nat.succ_pos depth)
    ((current.map Span.start).getD offset) (Nat.le_refl (offset + 1))
    (⟨shape.closer, .code⟩ :: rest)
  simp only [List.length_nil, Nat.add_zero] at hinner
  rw [List.cons_append, List.append_assoc, itemsFrom]
  simp only [(hspace _ (.inl rfl)).1, (hspace _ (.inl rfl)).2, false_and, if_false,
    depthAfter_opener, Bool.false_eq_true, List.singleton_append]
  rw [Span.extend, hinner, itemsFrom]
  simp only [(hspace _ (.inr rfl)).1, (hspace _ (.inr rfl)).2, false_and, if_false,
    depthAfter_closer, Bool.false_eq_true, Nat.add_sub_cancel, List.length_cons,
    List.length_append, List.length_nil]
  simp only [Span.extend, Option.map_some, Option.getD_some]
  have hlen : offset + (ms.length + (0 + 1) + 1) = offset + 1 + ms.length + 1 := by omega
  rw [hlen]

end ConfigPatch.Lexical
