import ConfigPatch.Proofs.Literal.Fence

/-!
# The scan at an offset

`modeAt` is the mode in which the scan from one offset arrives at another.
From where it is in code the scan goes on as one of its own would. The
items of a region start in code, and a bracket that opens there is closed
where the bracket around it says. The reader of entries goes over keys,
blanks and comments by rules of its own: it stops in code, too, unless it
takes something for a comment that the scan takes for code.
-/

namespace ConfigPatch.Literal

open Lexical

variable {bytes : List UInt8} {start middle offset stop limit : Nat} {b : UInt8}

/-! ## Modes -/

/-- The mode in which the scan from an offset on arrives at another. -/
def modeAt (bytes : List UInt8) (start stop : Nat) : Mode :=
  modeAfter .code (byteBefore bytes start) bytes[stop]? ((bytes.drop start).take (stop - start))

theorem isCodeAt_iff : isCodeAt bytes start stop = true ↔ modeAt bytes start stop = .code :=
  decide_eq_true_iff

@[simp]
theorem modeAt_self : modeAt bytes start start = .code := by
  simp [modeAt]

theorem byteBefore_succ : byteBefore bytes (offset + 1) = bytes[offset]? := by
  rw [byteBefore, if_neg (Nat.succ_ne_zero offset), Nat.add_sub_cancel]

/-- **One byte of a scan.** -/
theorem modeAt_succ (hle : start ≤ offset) (hb : bytes[offset]? = some b) :
    modeAt bytes start (offset + 1) =
      (modeAt bytes start offset).next (byteBefore bytes offset) b bytes[offset + 1]? := by
  obtain ⟨hlt, hget⟩ := List.getElem?_eq_some_iff.1 hb
  have hsplit : (bytes.drop start).take (offset + 1 - start) =
      (bytes.drop start).take (offset - start) ++ [b] := by
    have hsucc : offset + 1 - start = offset - start + 1 := by omega
    have hbyte : (bytes.drop start)[offset - start]? = some b := by
      rw [List.getElem?_drop, ← hb]
      congr 1
      omega
    rw [hsucc, List.take_add_one, hbyte]
    rfl
  rw [modeAt, hsplit, modeAfter_append, byteBefore_of_le hle (Nat.le_of_lt hlt), modeAfter_cons,
    modeAfter_nil, List.head?_cons, Option.some_or, modeAt, hb]
  rfl

/-- Bytes that open neither a string nor a comment leave the scan in
code. -/
theorem modeAt_of_isInert (hcode : modeAt bytes start offset = .code) (hle : start ≤ offset)
    (hstop : offset ≤ stop)
    (h : ∀ n, offset ≤ n → n < stop → ∃ b, bytes[n]? = some b ∧ isInert b = true) :
    modeAt bytes start stop = .code := by
  induction hstop with
  | refl => exact hcode
  | @step stop hstop ih =>
    obtain ⟨b, hb, hinert⟩ := h stop hstop (Nat.lt_succ_self stop)
    rw [modeAt_succ (Nat.le_trans hle hstop) hb, ih fun n hn hlt => h n hn (by omega)]
    exact next_code_of_isInert hinert

/-- **From where it is in code a scan goes on** as the one from there
does. -/
theorem modeAt_eq (hcode : modeAt bytes start middle = .code) (hle : start ≤ middle)
    (hstop : middle ≤ stop) (hlen : stop ≤ bytes.length) :
    modeAt bytes start stop = modeAt bytes middle stop := by
  induction hstop with
  | refl => rw [hcode, modeAt_self]
  | @step stop hstop ih =>
    have hb := List.getElem?_eq_getElem (show stop < bytes.length by omega)
    rw [modeAt_succ (Nat.le_trans hle hstop) hb, modeAt_succ hstop hb, ih (by omega)]

/-! ## Labels -/

/-- The labels that the scan from an offset on gives from another on. -/
def marksAt (bytes : List UInt8) (start offset : Nat) : List Mark :=
  marks (modeAt bytes start offset) (byteBefore bytes offset) (bytes.drop offset)

theorem marksAt_self : marksAt bytes start start = marksFrom bytes start := by
  rw [marksAt, modeAt_self, marksFrom]

theorem marksAt_of_le (h : bytes.length ≤ offset) : marksAt bytes start offset = [] := by
  rw [marksAt, List.drop_eq_nil_of_le h, marks]

theorem marksAt_cons (hle : start ≤ offset) (hb : bytes[offset]? = some b) :
    marksAt bytes start offset =
      ⟨b, kindBetween (modeAt bytes start offset) (modeAt bytes start (offset + 1))⟩ ::
        marksAt bytes start (offset + 1) := by
  obtain ⟨hlt, hget⟩ := List.getElem?_eq_some_iff.1 hb
  rw [marksAt, List.drop_eq_getElem_cons hlt, hget, marks, List.head?_drop, ← modeAt_succ hle hb,
    marksAt, byteBefore_succ, hb]

/-- Code is labelled where the scan is in code. -/
theorem modeAt_of_kind {k : Nat} {mark : Mark} (hle : start ≤ offset)
    (h : (marksAt bytes start offset)[k]? = some mark) (hkind : mark.kind = .code) :
    modeAt bytes start (offset + k) = .code := by
  induction k generalizing offset with
  | zero =>
    rcases Nat.lt_or_ge offset bytes.length with hlt | hge
    · rw [marksAt_cons hle (List.getElem?_eq_getElem hlt), List.getElem?_cons_zero] at h
      cases h
      exact (code_of_kindBetween hkind).1
    · rw [marksAt_of_le hge] at h
      cases h
  | succ k ih =>
    rcases Nat.lt_or_ge offset bytes.length with hlt | hge
    · rw [marksAt_cons hle (List.getElem?_eq_getElem hlt), List.getElem?_cons_succ] at h
      have hnext : modeAt bytes start (offset + 1 + k) = .code := ih (by omega) h
      rwa [Nat.add_right_comm] at hnext
    · rw [marksAt_of_le hge] at h
      cases h

/-! ## Items -/

/-- Items start where the scan is in code, but for the item so far. -/
theorem modeAt_of_mem_itemsFrom {depth k : Nat} {current : Option Span} {item : Span}
    (hle : start ≤ offset) (hcurrent : current = none → (modeAt bytes start offset).kind ≠ .text)
    (h : item ∈ itemsFrom depth current offset ((marksAt bytes start offset).take k)) :
    (∃ span ∈ current, item.start = span.start) ∨
      offset ≤ item.start ∧ modeAt bytes start item.start = .code := by
  induction k generalizing depth current offset with
  | zero =>
    rw [List.take_zero, itemsFrom, Option.mem_toList] at h
    exact .inl ⟨item, h, rfl⟩
  | succ k ih =>
    rcases Nat.lt_or_ge offset bytes.length with hlt | hge
    · have hb := List.getElem?_eq_getElem hlt
      rw [marksAt_cons hle hb, List.take_succ_cons] at h
      have hnext := modeAt_succ hle hb
      have hlater {depth : Nat} {current' : Option Span}
          (hcurrent' : current' = none → (modeAt bytes start (offset + 1)).kind ≠ .text)
          (h : item ∈ itemsFrom depth current' (offset + 1)
            ((marksAt bytes start (offset + 1)).take k)) :
          (∃ span ∈ current', item.start = span.start) ∨
            offset ≤ item.start ∧ modeAt bytes start item.start = .code := by
        rcases ih (by omega) hcurrent' h with hspan | ⟨hstart, hcode⟩
        · exact .inl hspan
        · exact .inr ⟨by omega, hcode⟩
      rcases itemsFrom_cons depth ⟨bytes[offset], kindBetween (modeAt bytes start offset)
        (modeAt bytes start (offset + 1))⟩ with ⟨hblank, hskip⟩ | ⟨rfl, hcomma⟩ | ⟨hsolid, hextend⟩
      · rw [hskip] at h
        refine hlater (fun _ => ?_) h
        rw [hnext] at hblank ⊢
        exact kind_next_of_isBlank hblank
      · rw [hcomma, itemsFrom_comma] at h
        rw [Mark.mk.injEq] at hcomma
        obtain ⟨hcode, hafter⟩ := code_of_kindBetween hcomma.2
        rcases List.mem_cons.1 h with rfl | h
        · cases current with
          | none => exact .inr ⟨Nat.le_refl offset, hcode⟩
          | some span => exact .inl ⟨span, rfl, rfl⟩
        · rw [hafter] at hlater
          rcases hlater (fun _ => by decide) h with ⟨span, hspan, -⟩ | hitem
          · cases hspan
          · exact .inr hitem
      · rw [hextend] at h
        rcases hlater (fun hnone => absurd hnone (Option.some_ne_none _)) h with
          ⟨span, hspan, heq⟩ | hitem
        · cases hspan
          cases current with
          | none =>
            -- an item starts outside of strings, and no blank starts one
            have hstart : item.start = offset := heq
            rw [hstart]
            exact .inr ⟨Nat.le_refl offset, code_of_isBlank (hcurrent rfl) hsolid⟩
          | some span => exact .inl ⟨span, rfl, heq⟩
        · exact .inr hitem
    · rw [marksAt_of_le hge, List.take_nil, itemsFrom, Option.mem_toList] at h
      exact .inl ⟨item, h, rfl⟩

/-- **An item starts in code.** -/
theorem modeAt_of_mem_items {region item : Span}
    (hcode : modeAt bytes start region.start = .code) (hle : start ≤ region.start)
    (h : item ∈ items bytes region) (hlen : item.start ≤ bytes.length) :
    modeAt bytes start item.start = .code := by
  rw [items, ← marksAt_self] at h
  have hnone : (none : Option Span) = none →
      (modeAt bytes region.start region.start).kind ≠ .text := by
    intro _
    rw [modeAt_self]
    decide
  rcases modeAt_of_mem_itemsFrom (Nat.le_refl _) hnone h with ⟨span, hspan, -⟩ | ⟨hstart, hitem⟩
  · cases hspan
  · rw [modeAt_eq hcode hle hstart hlen, hitem]

/-! ## Brackets -/

variable {mark : Mark} {ms : List Mark} {shape : Bracket} {top below middle' : List Bracket}

/-- A byte within brackets closes the last of them, or it does to those
above what it does without the others. -/
theorem exists_of_nest (h : mark.nest (top ++ shape :: below) = some middle') :
    (top = [] ∧ mark = ⟨shape.closer, .code⟩) ∨
      ∃ top', mark.nest top = some top' ∧ middle' = top' ++ shape :: below := by
  cases htop : mark.nest top with
  | some top' =>
    rw [nest_append htop, Option.some.injEq] at h
    exact .inr ⟨top', rfl, h.symm⟩
  | none =>
    unfold Mark.nest at h htop
    split at htop
    · rename_i hcode
      rw [if_pos hcode] at h
      cases hopen : Bracket.ofOpener? mark.byte with
      | some other =>
        rw [hopen] at htop
        cases htop
      | none =>
        rw [hopen] at h htop
        cases hclose : Bracket.ofCloser? mark.byte with
        | none =>
          rw [hclose] at htop
          cases htop
        | some other =>
          simp only [hclose] at h htop
          cases top with
          | nil =>
            split at h
            · rename_i hhead
              cases hhead
              exact .inl ⟨rfl, by rw [← Bracket.ofCloser?_eq_some.1 hclose, ← hcode]⟩
            · cases h
          | cons last top =>
            split at h
            · rename_i hhead
              have hlast : (last :: top).head? = some other := hhead
              rw [if_pos hlast] at htop
              cases htop
            · cases h
    · cases htop

/-- **What closes the brackets below a bracket** closes that first. -/
theorem exists_closer {final : List Bracket} (h : openAfter (top ++ shape :: below) ms = some final)
    (hlen : final.length ≤ below.length) :
    ∃ inside rest, ms = inside ++ ⟨shape.closer, .code⟩ :: rest ∧
      openAfter top inside = some [] := by
  induction ms generalizing top with
  | nil =>
    cases h
    rw [List.length_append, List.length_cons] at hlen
    omega
  | cons mark ms ih =>
    rw [openAfter_cons] at h
    obtain ⟨middle', hmiddle, h⟩ := Option.bind_eq_some_iff.1 h
    -- either this byte closes the bracket, or one of those opened behind it
    rcases exists_of_nest hmiddle with ⟨rfl, rfl⟩ | ⟨top', htop, rfl⟩
    · exact ⟨[], ms, rfl, rfl⟩
    · obtain ⟨inside, rest, rfl, hinside⟩ := ih h
      refine ⟨mark :: inside, rest, rfl, ?_⟩
      rw [openAfter_cons, htop]
      exact hinside

/-- **A bracket that opens in a nested stretch** is closed in it, where the
search for its end finds it. -/
theorem exists_spanAt (hcode : modeAt bytes start stop = .code)
    (hnested : Nested (stretch bytes start stop)) (hlen : stop ≤ bytes.length)
    (hle : start ≤ offset) (hlt : offset < stop) (hoffset : modeAt bytes start offset = .code)
    (hopener : bytes[offset]? = some shape.opener) :
    ∃ close, offset < close ∧ close < stop ∧ spanAt bytes offset = .ok ⟨offset, close + 1⟩ ∧
      modeAt bytes (offset + 1) close = .code ∧ Nested (stretch bytes (offset + 1) close) := by
  have hinert := Bracket.isInert_opener shape
  have hinside : modeAt bytes start (offset + 1) = .code :=
    modeAt_of_isInert hoffset hle (Nat.le_succ offset) fun n hn hn' => by
      rw [show n = offset by omega]
      exact ⟨_, hopener, hinert⟩
  have hafter : modeAt bytes (offset + 1) stop = .code := by
    rw [← modeAt_eq hinside (by omega) hlt hlen, hcode]
  have hcons := marksFrom_cons hopener hinert
  have hfront := marksFrom_eq_stretch_append hle (by omega) (isCodeAt_iff.2 hoffset)
  have hback := marksFrom_eq_stretch_append hlt hlen (isCodeAt_iff.2 hafter)
  have hwhole := marksFrom_eq_stretch_append (by omega) hlen (isCodeAt_iff.2 hcode)
  -- the stretch up to the bracket, the bracket, and the stretch behind it
  have hparts : stretch bytes start stop =
      stretch bytes start offset ++ ⟨shape.opener, .code⟩ :: stretch bytes (offset + 1) stop := by
    rw [hfront, hcons, hback, ← List.cons_append, ← List.append_assoc] at hwhole
    exact (List.append_cancel_right hwhole).symm
  rw [Nested, hparts, openAfter_append] at hnested
  obtain ⟨above, -, hnested⟩ := Option.bind_eq_some_iff.1 hnested
  -- behind the bracket it is the last that is open, with the ones above it below
  have habove : openAfter ([] ++ shape :: above) (stretch bytes (offset + 1) stop) = some [] := by
    rwa [← List.singleton_append, openAfter_append, openAfter_opener, Option.bind_some] at hnested
  obtain ⟨inside, rest, hinner, hclosed⟩ := exists_closer habove (Nat.zero_le _)
  have hlength := congrArg List.length hinner
  rw [length_stretch hlt hlen, List.length_append, List.length_cons] at hlength
  rw [hinner, List.append_assoc, List.cons_append] at hback
  refine ⟨offset + 1 + inside.length, by omega, by omega, ?_, ?_, ?_⟩
  · have hclose : shape.closeFrom 0 offset (marksFrom bytes offset) =
        some (offset + 1 + inside.length + 1) := by
      have hend : offset + 1 + inside.length + 1 = offset + inside.length + 2 := by omega
      rw [hcons, hback, hend]
      exact Nested.closeFrom_bracket hclosed
    exact spanAt_eq_ok.2 ⟨rfl, shape, hopener, hclose⟩
  · have hcloser : (marksAt bytes (offset + 1) (offset + 1))[inside.length]? =
        some ⟨shape.closer, .code⟩ := by
      rw [marksAt_self, hback, List.getElem?_append_right (Nat.le_refl _), Nat.sub_self,
        List.getElem?_cons_zero]
    exact modeAt_of_kind (Nat.le_refl _) hcloser rfl
  · rw [stretch, hback, Nat.add_sub_cancel_left, List.take_left']
    · exact hclosed
    · rfl

end ConfigPatch.Literal
