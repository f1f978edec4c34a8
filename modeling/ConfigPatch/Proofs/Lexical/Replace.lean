import ConfigPatch.Proofs.Lexical.Trivia

/-!
# Replacing a stretch of text

What the scans of a text have to do with those of a text that has another
stretch in one place. A string that is put there changes no label before
it, since its quote is no end of a comment. The searches for brackets and
commas go on behind the stretch as they did before, at other offsets, if
the stretch closes just what it opens.
-/

namespace ConfigPatch

/-- The span so many bytes further on. -/
def Span.shift (k : Nat) (span : Span) : Span := ⟨span.start + k, span.stop + k⟩

namespace Lexical

variable {m : Mode} {before other ahead : Option UInt8} {b c quote : UInt8}
variable {xs ys zs : List UInt8}

/-! ## Labels -/

/-- A byte that leaves the scan in code does so before a quote as well. -/
theorem next_quote (h : m.next before b ahead = .code) (hahead : ahead ≠ some lineFeed)
    (hquote : isQuote quote = true) : m.next before b (some quote) = .code := by
  have hslash : quote ≠ slash := by
    rintro rfl
    exact absurd hquote (by decide)
  have hstar : quote ≠ star := by
    rintro rfl
    exact absurd hquote (by decide)
  cases m with
  | code =>
    rw [Mode.next] at h ⊢
    split
    · rename_i hb
      rw [if_pos hb] at h
      cases h
    · split
      · simp [Mode.afterSlash, hslash, hstar]
      · rfl
  | quoted | escaped => exact h
  | line =>
    -- a comment up to the end of the line ends at a line feed only
    rw [Mode.next, if_neg hahead] at h
    cases h
  | blockOpen => cases h
  | block =>
    rw [Mode.next] at h
    split at h <;> cases h
  | blockClose => rfl

/-- **A quote changes no label before it.** -/
theorem marksOver_quote (h : modeAfter m before ahead xs = .code) (hahead : ahead ≠ some lineFeed)
    (hquote : isQuote quote = true) :
    modeAfter m before (some quote) xs = .code ∧
      marksOver m before (some quote) xs = marksOver m before ahead xs := by
  induction xs generalizing m before with
  | nil => exact ⟨h, rfl⟩
  | cons b xs ih =>
    rw [modeAfter_cons] at h
    rw [modeAfter_cons, marksOver_cons, marksOver_cons]
    cases xs with
    | nil =>
      have hcode : m.next before b ahead = .code := h
      have hnext := next_quote hcode hahead hquote
      simp only [List.head?_nil, Option.none_or, hnext, hcode, modeAfter_nil, marksOver_nil,
        and_self]
    | cons c xs =>
      rw [List.head?_cons, Option.some_or, Option.some_or] at *
      obtain ⟨hmode, hmarks⟩ := ih h
      exact ⟨hmode, by rw [hmarks]⟩

/-- Only the labels from a slash on depend on the byte before. -/
theorem marks_code_eq (h : xs.head? ≠ some slash) :
    marks .code before xs = marks .code other xs := by
  cases xs with
  | nil => rfl
  | cons b xs =>
    have hb : b ≠ slash := fun hb => h (by rw [hb]; rfl)
    have hnext : Mode.next before b xs.head? .code = Mode.next other b xs.head? .code := by
      simp [Mode.next, hb]
    rw [marks, marks, hnext]

/-! ## Offsets -/

variable {shape : Bracket} {mark : Mark} {ms ns rest : List Mark}
variable {depth offset limit k : Nat} {current : Option Span}

theorem closeFrom_shift :
    shape.closeFrom depth (offset + k) ms = (shape.closeFrom depth offset ms).map (· + k) := by
  induction ms generalizing depth offset with
  | nil => rfl
  | cons mark ms ih =>
    have hone : offset + k + 1 = offset + 1 + k := by omega
    simp only [Bracket.closeFrom, hone, ih]
    split
    · rfl
    · split
      · rfl
      · split
        · split <;> rfl
        · rfl

/-- The search ends behind a closing bracket that it has read. -/
theorem getElem?_of_closeFrom {stop : Nat} (h : shape.closeFrom depth offset ms = some stop) :
    ∃ n, ms[n]? = some ⟨shape.closer, .code⟩ ∧ stop = offset + n + 1 := by
  induction ms generalizing depth offset with
  | nil => cases h
  | cons mark ms ih =>
    have hstep {depth : Nat} (h : shape.closeFrom depth (offset + 1) ms = some stop) :
        ∃ n, (mark :: ms)[n]? = some ⟨shape.closer, .code⟩ ∧ stop = offset + n + 1 := by
      obtain ⟨n, hn, hstop⟩ := ih h
      exact ⟨n + 1, hn, by omega⟩
    unfold Bracket.closeFrom at h
    split at h
    · exact hstep h
    · rename_i hkind
      split at h
      · exact hstep h
      · split at h
        · rename_i hcloser
          split at h
          · cases h
            obtain ⟨byte, kind⟩ := mark
            obtain rfl : kind = .code := by simpa using hkind
            obtain rfl : byte = shape.closer := hcloser
            exact ⟨0, rfl, rfl⟩
          · exact hstep h
        · exact hstep h

theorem exists_of_closeFrom {stop : Nat} (h : shape.closeFrom depth offset ms = some stop) :
    ∃ n < ms.length, stop = offset + n + 1 := by
  obtain ⟨n, hn, hstop⟩ := getElem?_of_closeFrom h
  exact ⟨n, (List.getElem?_eq_some_iff.1 hn).1, hstop⟩

/-- **The search in a stretch** ends there, or leaves it with some brackets
open. -/
theorem exists_closeFrom (shape : Bracket) (offset : Nat) (ms : List Mark) (hd : 0 < depth) :
    (∃ stop ≤ offset + ms.length, ∀ rest,
      shape.closeFrom depth offset (ms ++ rest) = some stop) ∨
    ∃ depth', 0 < depth' ∧ ∀ rest, shape.closeFrom depth offset (ms ++ rest) =
      shape.closeFrom depth' (offset + ms.length) rest := by
  induction ms generalizing depth offset with
  | nil => exact .inr ⟨depth, hd, fun rest => rfl⟩
  | cons mark ms ih =>
    have hlen : offset + 1 + ms.length = offset + (mark :: ms).length := by
      rw [List.length_cons]
      omega
    -- a byte that closes nothing leads to the search behind it
    have hstep {next : Nat} (hnext : 0 < next) (h : ∀ rest,
          shape.closeFrom depth offset (mark :: rest) = shape.closeFrom next (offset + 1) rest) :
        (∃ stop ≤ offset + (mark :: ms).length, ∀ rest,
          shape.closeFrom depth offset (mark :: ms ++ rest) = some stop) ∨
        ∃ depth', 0 < depth' ∧ ∀ rest, shape.closeFrom depth offset (mark :: ms ++ rest) =
          shape.closeFrom depth' (offset + (mark :: ms).length) rest := by
      rw [← hlen]
      rcases ih (offset + 1) hnext with ⟨stop, hle, hstop⟩ | ⟨depth', hpos, hrest⟩
      · exact .inl ⟨stop, hle, fun rest => (h _).trans (hstop rest)⟩
      · exact .inr ⟨depth', hpos, fun rest => (h _).trans (hrest rest)⟩
    by_cases hcode : mark.kind = .code
    · by_cases hopen : mark.byte = shape.opener
      · refine hstep (Nat.succ_pos depth) fun rest => ?_
        rw [Bracket.closeFrom, if_neg (not_not_intro hcode), if_pos hopen]
      · by_cases hclose : mark.byte = shape.closer
        · by_cases hlast : depth ≤ 1
          · refine .inl ⟨offset + 1, by omega, fun rest => ?_⟩
            rw [List.cons_append, Bracket.closeFrom, if_neg (not_not_intro hcode), if_neg hopen,
              if_pos hclose, if_pos hlast]
          · have hnext : 0 < depth - 1 := by omega
            refine hstep hnext fun rest => ?_
            rw [Bracket.closeFrom, if_neg (not_not_intro hcode), if_neg hopen, if_pos hclose,
              if_neg hlast]
        · refine hstep hd fun rest => ?_
          rw [Bracket.closeFrom, if_neg (not_not_intro hcode), if_neg hopen, if_neg hclose]
    · refine hstep hd fun rest => ?_
      rw [Bracket.closeFrom, if_pos hcode]

/-! ## Items -/

/-- The number of open brackets after labelled bytes. -/
def depthOver (depth : Nat) (ms : List Mark) : Nat :=
  ms.foldl (fun depth mark => if mark.kind = .code then depthAfter depth mark.byte else depth) depth

theorem depthOver_cons :
    depthOver depth (mark :: ms) = depthOver (depthOver depth [mark]) ms := rfl

theorem depthOver_of_code (h : mark.kind = .code) :
    depthOver depth [mark] = depthAfter depth mark.byte := if_pos h

theorem depthOver_of_ne (h : mark.kind ≠ .code) : depthOver depth [mark] = depth := if_neg h

/-- **What a byte is to the items**: a blank between them or in one, a comma
that ends one, or a part of one. -/
theorem itemsFrom_cons (depth : Nat) (mark : Mark) :
    (mark.isBlank = true ∧ ∀ current offset rest,
      itemsFrom depth current offset (mark :: rest) =
        itemsFrom (depthOver depth [mark]) current (offset + 1) rest) ∨
    (depth = 0 ∧ mark = ⟨comma, .code⟩) ∨
    (mark.isBlank = false ∧ ∀ current offset rest,
      itemsFrom depth current offset (mark :: rest) =
        itemsFrom (depthOver depth [mark]) (some (Span.extend current offset (offset + 1)))
          (offset + 1) rest) := by
  cases hkind : mark.kind with
  | comment =>
    have hdepth : depthOver depth [mark] = depth := depthOver_of_ne (by simp [hkind])
    refine .inl ⟨by simp [Mark.isBlank, hkind], fun current offset rest => ?_⟩
    simp only [itemsFrom, hkind, hdepth]
  | text =>
    have hdepth : depthOver depth [mark] = depth := depthOver_of_ne (by simp [hkind])
    refine .inr (.inr ⟨by simp [Mark.isBlank, hkind], fun current offset rest => ?_⟩)
    simp only [itemsFrom, hkind, hdepth]
  | code =>
    have hdepth : depthOver depth [mark] = _ := depthOver_of_code hkind
    by_cases hcomma : mark.byte = comma ∧ depth = 0
    · exact .inr (.inl ⟨hcomma.2, by rw [← hcomma.1, ← hkind]⟩)
    · by_cases hspace : isSpace mark.byte = true
      · refine .inl ⟨by simp [Mark.isBlank, hkind, hspace], fun current offset rest => ?_⟩
        simp only [itemsFrom, hkind, hdepth, if_neg hcomma, if_pos hspace]
      · refine .inr (.inr ⟨by simp [Mark.isBlank, hkind, hspace], fun current offset rest => ?_⟩)
        simp only [itemsFrom, hkind, hdepth, if_neg hcomma, if_neg hspace]

/-- Items at other offsets. -/
theorem itemsFrom_shift :
    itemsFrom depth (current.map (Span.shift k)) (offset + k) ms =
      (itemsFrom depth current offset ms).map (Span.shift k) := by
  induction ms generalizing depth current offset with
  | nil => cases current <;> rfl
  | cons mark ms ih =>
    have hone : offset + k + 1 = offset + 1 + k := by omega
    rcases itemsFrom_cons depth mark with ⟨-, hskip⟩ | ⟨rfl, rfl⟩ | ⟨-, hextend⟩
    · rw [hskip, hskip, hone, ih]
    · have hnone : itemsFrom 0 (Option.map (Span.shift k) none) (offset + 1 + k) ms =
          (itemsFrom 0 none (offset + 1) ms).map (Span.shift k) := ih
      rw [Option.map_none] at hnone
      rw [itemsFrom_comma, itemsFrom_comma, hone, hnone, List.map_cons]
      cases current <;> rfl
    · have hitem : some (Span.extend (current.map (Span.shift k)) (offset + k) (offset + 1 + k)) =
          (some (Span.extend current offset (offset + 1))).map (Span.shift k) := by
        cases current <;> rfl
      rw [hextend, hextend, hone, hitem, ih]

theorem itemsFrom_succ :
    itemsFrom depth none (offset + 1) ms = (itemsFrom depth none 1 ms).map (Span.shift offset) := by
  rw [Nat.add_comm, ← itemsFrom_shift, Option.map_none]

/-! ## Items before and behind a stretch -/

/-- The counter of the code counts the stack. -/
theorem depthAfter_length {stack stack' : List Bracket} (h : mark.nest stack = some stack')
    (hcode : mark.kind = .code) : depthAfter stack.length mark.byte = stack'.length := by
  unfold Mark.nest at h
  rw [if_pos hcode] at h
  unfold depthAfter
  cases hopen : Bracket.ofOpener? mark.byte with
  | some shape =>
    rw [hopen] at h
    cases h
    rfl
  | none =>
    rw [hopen] at h
    cases hclose : Bracket.ofCloser? mark.byte with
    | some shape =>
      simp only [hclose] at h
      split at h
      · cases h
        rw [List.length_tail]
        rfl
      · cases h
    | none =>
      simp only [hclose, Option.some.injEq] at h
      rw [h]
      rfl

theorem depthOver_length {stack stack' : List Bracket} (h : openAfter stack ms = some stack') :
    depthOver stack.length ms = stack'.length := by
  induction ms generalizing stack with
  | nil =>
    cases h
    rfl
  | cons mark ms ih =>
    rw [openAfter_cons] at h
    obtain ⟨middle, hmiddle, h⟩ := Option.bind_eq_some_iff.1 h
    by_cases hcode : mark.kind = .code
    · rw [depthOver_cons, depthOver_of_code hcode, depthAfter_length hmiddle hcode, ih h]
    · have hstack : stack = middle := by
        simpa [Mark.nest, hcode] using hmiddle
      subst hstack
      rw [depthOver_cons, depthOver_of_ne hcode, ih h]

/-- A nested stretch leaves the counter as it is. -/
theorem Nested.depthOver_eq (h : Nested ms) : depthOver depth ms = depth := by
  have hstack : openAfter (List.replicate depth .round) ms = _ := h.openAfter_eq
  have hdepth := depthOver_length hstack
  rwa [List.length_replicate] at hdepth

/-- An item so far: it has bytes, and none from the offset on. -/
def IsBegun (offset : Nat) (current : Option Span) : Prop :=
  ∀ span ∈ current, span.start < span.stop ∧ span.stop ≤ offset

theorem isBegun_none : IsBegun offset none := by
  intro span hspan
  cases hspan

theorem IsBegun.next (h : IsBegun offset current) : IsBegun (offset + 1) current := by
  intro span hspan
  have hbound := h span hspan
  omega

theorem IsBegun.extend (h : IsBegun offset current) :
    IsBegun (offset + 1) (some (Span.extend current offset (offset + 1))) := by
  intro span hspan
  cases hspan
  cases current with
  | none =>
    change offset < offset + 1 ∧ offset + 1 ≤ offset + 1
    omega
  | some span =>
    have hbound := h span rfl
    change span.start < offset + 1 ∧ offset + 1 ≤ offset + 1
    omega

/-- The item so far, or one without bytes where there is none. -/
theorem IsBegun.getD (h : IsBegun offset current) :
    (current.getD ⟨offset, offset⟩).start ≤ (current.getD ⟨offset, offset⟩).stop ∧
      (current.getD ⟨offset, offset⟩).stop ≤ offset := by
  cases current with
  | none => exact ⟨Nat.le_refl offset, Nat.le_refl offset⟩
  | some span =>
    have hbound := h span rfl
    exact ⟨Nat.le_of_lt hbound.1, hbound.2⟩

/-- **The items in a stretch.** The search leaves a stretch with the items
that end there and an item so far; where there is none, nothing but blanks
and comments stands behind the last comma. -/
theorem exists_items (depth : Nat) (ms : List Mark) (hcurrent : IsBegun offset current) :
    ∃ done current', (∀ rest, itemsFrom depth current offset (ms ++ rest) =
        done ++ itemsFrom (depthOver depth ms) current' (offset + ms.length) rest) ∧
      (∀ item ∈ done, item.stop < offset + ms.length) ∧
      IsBegun (offset + ms.length) current' ∧
      (current' = none → ∃ front gap, ms = front ++ gap ∧ (∀ mark ∈ gap, mark.isBlank = true) ∧
        ((front = [] ∧ current = none) ∨ front.getLast? = some ⟨comma, .code⟩)) := by
  induction ms generalizing depth current offset with
  | nil =>
    refine ⟨[], current, fun rest => rfl, ?_, hcurrent, fun hnone => ?_⟩
    · intro item hitem
      cases hitem
    · refine ⟨[], [], rfl, ?_, .inl ⟨rfl, hnone⟩⟩
      intro mark hmark
      cases hmark
  | cons mark ms ih =>
    have hlen : offset + 1 + ms.length = offset + (mark :: ms).length := by
      rw [List.length_cons]
      omega
    -- a byte that ends no item leads to the item so far behind it
    have hstep (next : Option Span) (hnext : IsBegun (offset + 1) next)
        (heq : ∀ rest, itemsFrom depth current offset (mark :: rest) =
          itemsFrom (depthOver depth [mark]) next (offset + 1) rest)
        (hblank : next = none → mark.isBlank = true ∧ current = none) :
        ∃ done current', (∀ rest, itemsFrom depth current offset (mark :: ms ++ rest) =
            done ++ itemsFrom (depthOver depth (mark :: ms)) current'
              (offset + (mark :: ms).length) rest) ∧
          (∀ item ∈ done, item.stop < offset + (mark :: ms).length) ∧
          IsBegun (offset + (mark :: ms).length) current' ∧
          (current' = none → ∃ front gap, mark :: ms = front ++ gap ∧
            (∀ mark ∈ gap, mark.isBlank = true) ∧
            ((front = [] ∧ current = none) ∨ front.getLast? = some ⟨comma, .code⟩)) := by
      obtain ⟨done, current', hall, hdone, hbegun, hnone⟩ := ih (depthOver depth [mark]) hnext
      rw [hlen] at hall hdone hbegun
      refine ⟨done, current', fun rest => (heq _).trans (hall rest), hdone, hbegun, fun hc => ?_⟩
      obtain ⟨front, gap, rfl, hgap, ⟨rfl, hnext⟩ | hlast⟩ := hnone hc
      · obtain ⟨hmark, hcurrent⟩ := hblank hnext
        exact ⟨[], mark :: gap, rfl, List.forall_mem_cons.2 ⟨hmark, hgap⟩, .inl ⟨rfl, hcurrent⟩⟩
      · refine ⟨mark :: front, gap, rfl, hgap, .inr ?_⟩
        rw [List.getLast?_cons, hlast]
        rfl
    rcases itemsFrom_cons depth mark with ⟨hblank, hskip⟩ | ⟨rfl, rfl⟩ | ⟨-, hextend⟩
    · exact hstep current hcurrent.next (hskip current offset) fun hnone => ⟨hblank, hnone⟩
    · -- the comma ends an item, and there is none so far behind it
      obtain ⟨done, current', hall, hdone, hbegun, hnone⟩ :=
        ih 0 (isBegun_none : IsBegun (offset + 1) none)
      rw [hlen] at hall hdone hbegun
      refine ⟨current.getD ⟨offset, offset⟩ :: done, current', fun rest => ?_, ?_, hbegun,
        fun hc => ?_⟩
      · rw [List.cons_append, itemsFrom_comma, hall rest]
        rfl
      · refine List.forall_mem_cons.2 ⟨?_, hdone⟩
        have hle := (hcurrent.getD).2
        rw [List.length_cons]
        omega
      · obtain ⟨front, gap, rfl, hgap, ⟨rfl, -⟩ | hlast⟩ := hnone hc
        · exact ⟨[⟨comma, .code⟩], gap, rfl, hgap, .inr rfl⟩
        · refine ⟨⟨comma, .code⟩ :: front, gap, rfl, hgap, .inr ?_⟩
          rw [List.getLast?_cons, hlast]
          rfl
    · exact hstep _ hcurrent.extend (hextend current offset)
        fun hnone => absurd hnone (Option.some_ne_none _)

/-- Items start with what is neither a blank nor in a comment, but for the
item so far. -/
theorem start_of_mem_itemsFrom {item : Span} (h : item ∈ itemsFrom depth current offset ms) :
    (∃ span ∈ current, item.start = span.start) ∨
      ∃ n mark, item.start = offset + n ∧ ms[n]? = some mark ∧ mark.isBlank = false := by
  induction ms generalizing depth current offset with
  | nil =>
    rw [itemsFrom, Option.mem_toList] at h
    exact .inl ⟨item, h, rfl⟩
  | cons mark ms ih =>
    have hlater (h : ∃ n other, item.start = offset + 1 + n ∧ ms[n]? = some other ∧
          other.isBlank = false) :
        ∃ n other, item.start = offset + n ∧ (mark :: ms)[n]? = some other ∧
          other.isBlank = false := by
      obtain ⟨n, other, hn, hother, hblank⟩ := h
      exact ⟨n + 1, other, by omega, hother, hblank⟩
    rcases itemsFrom_cons depth mark with ⟨-, hskip⟩ | ⟨rfl, rfl⟩ | ⟨hmark, hextend⟩
    · rw [hskip] at h
      exact (ih h).imp_right hlater
    · rw [itemsFrom_comma] at h
      rcases List.mem_cons.1 h with rfl | h
      · cases current with
        | none => exact .inr ⟨0, ⟨comma, .code⟩, rfl, rfl, by decide⟩
        | some span => exact .inl ⟨span, rfl, rfl⟩
      · rcases ih h with ⟨span, hspan, -⟩ | hlate
        · cases hspan
        · exact .inr (hlater hlate)
    · rw [hextend] at h
      rcases ih h with ⟨span, hspan, hstart⟩ | hlate
      · cases hspan
        cases current with
        | none => exact .inr ⟨0, mark, hstart, rfl, hmark⟩
        | some span => exact .inl ⟨span, rfl, hstart⟩
      · exact .inr (hlater hlate)

theorem le_start_of_mem_itemsFrom {item : Span} (h : item ∈ itemsFrom depth none offset ms) :
    offset ≤ item.start := by
  rcases start_of_mem_itemsFrom h with ⟨span, hspan, -⟩ | ⟨n, mark, hn, -, -⟩
  · cases hspan
  · omega

/-- **Items stand one behind the other** and in the bytes searched. -/
theorem pairwise_itemsFrom (hcurrent : IsBegun offset current) :
    (itemsFrom depth current offset ms).Pairwise (·.stop < ·.start) ∧
      ∀ item ∈ itemsFrom depth current offset ms,
        item.start ≤ item.stop ∧ item.stop ≤ offset + ms.length := by
  induction ms generalizing depth current offset with
  | nil =>
    cases current with
    | none => exact ⟨List.Pairwise.nil, fun item hitem => absurd hitem List.not_mem_nil⟩
    | some span =>
      refine ⟨List.pairwise_singleton _ _, fun item hitem => ?_⟩
      rw [itemsFrom, Option.toList_some, List.mem_singleton] at hitem
      subst hitem
      have hbound := hcurrent item rfl
      omega
  | cons mark ms ih =>
    have hlen : offset + 1 + ms.length = offset + (mark :: ms).length := by
      rw [List.length_cons]
      omega
    rw [← hlen]
    rcases itemsFrom_cons depth mark with ⟨-, hskip⟩ | ⟨rfl, rfl⟩ | ⟨-, hextend⟩
    · rw [hskip]
      exact ih hcurrent.next
    · obtain ⟨hpairwise, hbounds⟩ := @ih 0 (offset + 1) none isBegun_none
      have hhead := hcurrent.getD
      rw [itemsFrom_comma]
      refine ⟨List.pairwise_cons.2 ⟨fun item hitem => ?_, hpairwise⟩,
        List.forall_mem_cons.2 ⟨⟨hhead.1, by omega⟩, hbounds⟩⟩
      have hle := le_start_of_mem_itemsFrom hitem
      omega
    · rw [hextend]
      exact ih hcurrent.extend

theorem pairwise_items (bytes : List UInt8) (region : Span) :
    (items bytes region).Pairwise (·.stop < ·.start) :=
  (pairwise_itemsFrom isBegun_none).1

/-- A region that lies in the text has items. -/
theorem items?_of_le {bytes : List UInt8} {region : Span} (hlen : region.stop ≤ bytes.length) :
    items? bytes region = some (items bytes region) := by
  rw [items?, if_neg]
  omega

theorem bounds_of_mem_items {bytes : List UInt8} {region item : Span}
    (h : item ∈ items bytes region) :
    region.start < region.stop ∧ region.start ≤ item.start ∧ item.start ≤ item.stop ∧
      item.stop ≤ region.stop := by
  have hbounds := (pairwise_itemsFrom isBegun_none).2 item h
  have hstart := le_start_of_mem_itemsFrom h
  have hlen : ((marksFrom bytes region.start).take region.length).length ≤ region.length := by
    rw [List.length_take]
    omega
  have hlength : region.length = region.stop - region.start := rfl
  have hlt : region.start < region.stop := by
    rcases Nat.lt_or_ge region.start region.stop with hlt | hge
    · exact hlt
    · -- a region without bytes has no items
      have hzero : region.length = 0 := by omega
      rw [items, hzero] at h
      cases h
  omega

/-- All items but the first start behind a comma. -/
theorem lt_start_of_mem_tail {head item : Span} {tail : List Span}
    (h : itemsFrom depth current offset ms = head :: tail) (hitem : item ∈ tail) :
    offset < item.start := by
  induction ms generalizing depth current offset with
  | nil =>
    rw [itemsFrom] at h
    have hlen := congrArg List.length h
    cases current with
    | none => cases hlen
    | some span =>
      cases h
      cases hitem
  | cons mark ms ih =>
    rcases itemsFrom_cons depth mark with ⟨-, hskip⟩ | ⟨rfl, rfl⟩ | ⟨-, hextend⟩
    · rw [hskip] at h
      exact Nat.lt_of_succ_lt (ih h)
    · rw [itemsFrom_comma] at h
      cases h
      exact le_start_of_mem_itemsFrom hitem
    · rw [hextend] at h
      exact Nat.lt_of_succ_lt (ih h)

/-- **The items behind a stretch** do not depend on where it ends. The item
that it is in goes on for some bytes, or ends where it did. -/
theorem exists_items_behind (ms : List Mark) (depth : Nat) :
    ∃ (n : Option Nat) (later : List Span), ∀ offset start stop,
      itemsFrom depth (some ⟨start, stop⟩) offset ms =
        ⟨start, (n.map (offset + ·)).getD stop⟩ :: later.map (Span.shift offset) := by
  have hshift (later : List Span) (offset : Nat) :
      later.map (Span.shift (offset + 1)) =
        (later.map (Span.shift 1)).map (Span.shift offset) := by
    rw [List.map_map]
    refine List.map_congr_left fun span _ => ?_
    simp only [Function.comp_apply, Span.shift, Span.mk.injEq]
    omega
  induction ms generalizing depth with
  | nil => exact ⟨none, [], fun offset start stop => rfl⟩
  | cons mark ms ih =>
    -- a blank leaves the end of the item to what follows, and a byte of the item moves it
    obtain ⟨n, later, hall⟩ := ih (depthOver depth [mark])
    rcases itemsFrom_cons depth mark with ⟨-, hskip⟩ | ⟨rfl, rfl⟩ | ⟨-, hextend⟩
    · refine ⟨n.map (1 + ·), later.map (Span.shift 1), fun offset start stop => ?_⟩
      rw [hskip, hall, hshift]
      cases n with
      | none => rfl
      | some n => simp only [Option.map_some, Option.getD_some, Nat.add_assoc]
    · refine ⟨none, itemsFrom 0 none 1 ms, fun offset start stop => ?_⟩
      rw [itemsFrom_comma, itemsFrom_succ]
      rfl
    · refine ⟨some (1 + n.getD 0), later.map (Span.shift 1), fun offset start stop => ?_⟩
      rw [hextend, Span.extend, hall, hshift]
      cases n with
      | none => rfl
      | some n => simp only [Option.map_some, Option.getD_some, Nat.add_assoc]

/-- The item so far starts the first item, or the first item starts
here. -/
theorem extend_of_itemsFrom {start stop stop' : Nat} (hle : start ≤ offset)
    (h : itemsFrom depth current offset ms = [⟨start, stop⟩]) :
    Span.extend current offset stop' = ⟨start, stop'⟩ := by
  cases current with
  | none =>
    have hmem : ⟨start, stop⟩ ∈ itemsFrom depth none offset ms := by
      rw [h]
      exact List.mem_singleton_self _
    have hstart : offset ≤ start := le_start_of_mem_itemsFrom hmem
    rw [Nat.le_antisymm hle hstart]
    rfl
  | some span =>
    obtain ⟨n, later, hall⟩ := exists_items_behind ms depth
    rw [hall, List.cons.injEq, Span.mk.injEq] at h
    rw [Span.extend, ← h.1.1]
    rfl

/-- Where an item starts there is none so far. -/
theorem IsBegun.eq_none (h : IsBegun offset current) {item : Span}
    (hitem : item ∈ itemsFrom depth current offset ms) (hstart : item.start = offset) :
    current = none := by
  cases current with
  | none => rfl
  | some span =>
    have hspan := h span rfl
    obtain ⟨n, later, hall⟩ := exists_items_behind ms depth
    have hlist := hall offset span.start span.stop
    rw [hlist] at hitem
    rcases List.mem_cons.1 hitem with rfl | hmem
    · change span.start = offset at hstart
      omega
    · have hlt := lt_start_of_mem_tail hlist hmem
      omega

/-- **An item that a stretch is in** goes on behind it in the same way at
another offset. -/
theorem exists_items_resumed {head : Span} {tail : List Span} {start stop : Nat} (other : Nat)
    (h : itemsFrom depth (some ⟨start, stop⟩) offset ms = head :: tail) (hle : stop ≤ offset)
    (hstop : offset ≤ head.stop) :
    ∃ (later : List Span) (k : Nat), head = ⟨start, offset + k⟩ ∧ tail = later.map (Span.shift offset) ∧
      itemsFrom depth (some ⟨start, other⟩) other ms =
        ⟨start, other + k⟩ :: later.map (Span.shift other) := by
  obtain ⟨n, later, hall⟩ := exists_items_behind ms depth
  rw [hall] at h
  cases h
  refine ⟨later, n.getD 0, ?_, rfl, ?_⟩
  · cases n with
    | none => exact congrArg _ (Nat.le_antisymm hle hstop)
    | some n => rfl
  · rw [hall]
    cases n <;> rfl

/-- An item without bytes stands at a comma. -/
theorem exists_of_itemsFrom_hole {tail : List Span}
    (h : itemsFrom depth none offset ms = ⟨offset, offset⟩ :: tail) :
    depth = 0 ∧ ∃ rest, ms = ⟨comma, .code⟩ :: rest := by
  cases ms with
  | nil => cases h
  | cons mark ms =>
    rcases itemsFrom_cons depth mark with ⟨-, hskip⟩ | ⟨rfl, rfl⟩ | ⟨-, hextend⟩
    · have hmem : ⟨offset, offset⟩ ∈ itemsFrom depth none offset (mark :: ms) := by
        rw [h]
        exact List.mem_cons_self
      rw [hskip] at hmem
      exact absurd (le_start_of_mem_itemsFrom hmem) (Nat.not_succ_le_self offset)
    · exact ⟨rfl, ms, rfl⟩
    · obtain ⟨n, later, hall⟩ := exists_items_behind ms (depthOver depth [mark])
      rw [hextend, Span.extend, hall, List.cons.injEq, Span.mk.injEq] at h
      cases n with
      | none => exact absurd h.1.2 (Nat.succ_ne_self offset)
      | some n =>
        have hstop : offset + 1 + n = offset := h.1.2
        omega

/-- What stands in the place of a hole leaves the items behind it as they
are. -/
theorem exists_items_of_hole {tail : List Span} (start other : Nat)
    (h : itemsFrom depth none offset ms = ⟨offset, offset⟩ :: tail) :
    ∃ later : List Span, tail = later.map (Span.shift offset) ∧
      itemsFrom depth (some ⟨start, other⟩) other ms =
        ⟨start, other⟩ :: later.map (Span.shift other) := by
  obtain ⟨rfl, rest, rfl⟩ := exists_of_itemsFrom_hole h
  rw [itemsFrom_comma, itemsFrom_succ, List.cons.injEq] at h
  refine ⟨itemsFrom 0 none 1 rest, h.2.symm, ?_⟩
  rw [itemsFrom_comma, itemsFrom_succ]
  rfl

end Lexical

end ConfigPatch
