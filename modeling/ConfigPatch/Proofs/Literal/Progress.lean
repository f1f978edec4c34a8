import ConfigPatch.Proofs.Literal.Gap
import ConfigPatch.Proofs.Literal.Tidy

/-!
# Every scan comes to an end

The scans are given by recursion on labelled bytes. Here they are taken as
loops over offsets, which pass a string or a comment at once: the search
for the bracket that closes a literal, with a counter that must not fall
below zero, the search for commas, and the way to the mapping inside of
parentheses. Each turn goes further on and stays in the text, so each loop
ends, whatever the text, and it ends with what the recursion gives.
-/

namespace ConfigPatch.Literal

open Lexical

variable {bytes : List UInt8} {start i next stop limit depth offset layers : Nat} {b : UInt8}
variable {shape : Bracket} {current : Option Span} {ms rest : List Mark} {region span : Span}

/-! ## Labels of what is passed -/

theorem marksAt_of_code (hcode : modeAt bytes start i = .code) :
    marksAt bytes start i = marksFrom bytes i := by
  rw [marksAt, hcode, marksFrom]

/-- Up to the end of a stretch all bytes have its label, and behind it the
labels are those of a scan that starts there. -/
theorem exists_marksAt (hle : start ≤ i) (hlen : i ≤ bytes.length) :
    ∃ ms, marksAt bytes start i =
        ms ++ marksFrom bytes (i + (modeAt bytes start i).extent (bytes.drop i)) ∧
      ms.length = (modeAt bytes start i).extent (bytes.drop i) ∧
      ∀ mark ∈ ms, mark.kind = (modeAt bytes start i).kind := by
  induction hk : bytes.length - i generalizing i with
  | zero =>
    have hend : bytes.drop i = [] := List.drop_eq_nil_of_le (by omega)
    refine ⟨[], ?_, ?_, List.forall_mem_nil _⟩
    · rw [marksAt_of_le (by omega), marksFrom, hend, Mode.extent, Nat.add_zero, hend]
      rfl
    · rw [hend, Mode.extent]
      rfl
  | succ k ih =>
    have hlt : i < bytes.length := by omega
    by_cases hcode : modeAt bytes start i = .code
    · refine ⟨[], ?_, ?_, List.forall_mem_nil _⟩
      · rw [marksAt_of_code hcode, hcode, extent_code, Nat.add_zero]
        rfl
      · rw [hcode, extent_code]
        rfl
    · have hb := List.getElem?_eq_getElem hlt
      obtain ⟨ms, hms, hlength, hkinds⟩ := ih (show start ≤ i + 1 by omega) hlt (by omega)
      rw [extent_modeAt hle hlt hcode]
      refine ⟨⟨bytes[i], kindBetween (modeAt bytes start i) (modeAt bytes start (i + 1))⟩ :: ms, ?_,
        congrArg (· + 1) hlength, ?_⟩
      · rw [marksAt_cons hle hb, hms, List.cons_append, Nat.add_right_comm, Nat.add_assoc]
      · intro mark hmark
        rcases List.mem_cons.1 hmark with rfl | hmark
        · exact if_neg hcode
        · rw [hkinds mark hmark]
          by_cases hnext : modeAt bytes start (i + 1) = .code
          · rw [hnext, extent_code, List.length_eq_zero_iff] at hlength
            rw [hlength] at hmark
            cases hmark
          · rw [modeAt_succ hle hb] at hnext ⊢
            exact kind_next hcode hnext

/-- **A byte that is read** is labelled as code. -/
theorem marksFrom_of_none (hb : bytes[i]? = some b) (hnone : opaqueEnd? bytes i = none) :
    marksFrom bytes i = ⟨b, .code⟩ :: marksFrom bytes (i + 1) := by
  rw [opaqueEnd?_eq (Nat.le_refl i) (List.getElem?_eq_some_iff.1 hb).1 modeAt_self] at hnone
  split at hnone
  · rename_i hnext
    rw [← marksAt_self, marksAt_cons (Nat.le_refl i) hb, modeAt_self, hnext,
      marksAt_of_code hnext]
    rfl
  · cases hnone

/-- **What is passed** has labels of one kind: it is a comment if it starts
with the mark of one, and a string otherwise. -/
theorem exists_marksFrom (hend : opaqueEnd? bytes i = some next) :
    ∃ ms, marksFrom bytes i = ms ++ marksFrom bytes next ∧ i + ms.length = next ∧
      ∀ mark ∈ ms, mark.kind = if StartsComment bytes i then .comment else .text := by
  have hlt := lt_of_opaqueEnd? hend
  have hb := List.getElem?_eq_getElem hlt
  obtain ⟨-, hkind⟩ := kind_of_passes .start (opens_of_opaqueEnd? hend) hend (Nat.le_refl i)
    (bounds_of_opaqueEnd? hend).1
  rw [labelAt, modeAt_self, kindBetween, if_pos rfl] at hkind
  rw [opaqueEnd?_eq (Nat.le_refl i) hlt modeAt_self] at hend
  split at hend
  · cases hend
  · obtain ⟨ms, hms, hlength, hkinds⟩ := exists_marksAt (show i ≤ i + 1 by omega) hlt
    refine ⟨⟨bytes[i], (modeAt bytes i (i + 1)).kind⟩ :: ms, ?_, ?_, ?_⟩
    · rw [← marksAt_self, marksAt_cons (Nat.le_refl i) hb, modeAt_self, hms, Option.some.inj hend]
      rfl
    · rw [← Option.some.inj hend, List.length_cons, hlength]
      omega
    · rw [← hkind]
      exact List.forall_mem_cons.2 ⟨rfl, hkinds⟩

/-! ## The end of a literal -/

/-- A state of the search for the end of a literal: an offset, and the number
of brackets that are open there. -/
structure Search where
  offset : Nat
  depth : Nat

/-- How the search ends. -/
inductive Ending where
  | closed (stop : Nat)
  | unbalanced
  /-- A bracket closes while the counter is zero. -/
  | underflow
deriving DecidableEq

/-- **One turn of the search** for the bracket that closes a literal. -/
def closeTurn (bytes : List UInt8) (shape : Bracket) (state : Search) : Search ⊕ Ending :=
  match bytes[state.offset]? with
  | none => .inr .unbalanced
  | some b =>
    match opaqueEnd? bytes state.offset with
    | some next => .inl ⟨next, state.depth⟩
    | none =>
      if b = shape.opener then .inl ⟨state.offset + 1, state.depth + 1⟩
      else if b = shape.closer then
        if state.depth = 0 then .inr .underflow
        else if state.depth = 1 then .inr (.closed (state.offset + 1))
        else .inl ⟨state.offset + 1, state.depth - 1⟩
      else .inl ⟨state.offset + 1, state.depth⟩

/-- What the recursion says of a state. -/
def Search.ending (bytes : List UInt8) (shape : Bracket) (state : Search) : Ending :=
  ((shape.closeFrom state.depth state.offset (marksFrom bytes state.offset)).map .closed).getD
    .unbalanced

/-- The counter is zero in front of the bracket that opens the literal and
nowhere else. -/
def Search.IsCounted (bytes : List UInt8) (shape : Bracket) (state : Search) : Prop :=
  state.depth = 0 → bytes[state.offset]? = some shape.opener

theorem closeFrom_append_of_ne (h : ∀ mark ∈ ms, mark.kind ≠ .code) :
    shape.closeFrom depth offset (ms ++ rest) =
      shape.closeFrom depth (offset + ms.length) rest := by
  induction ms generalizing offset with
  | nil => rfl
  | cons mark ms ih =>
    rw [List.cons_append, Bracket.closeFrom, if_pos (h mark List.mem_cons_self),
      ih fun other hother => h other (List.mem_cons_of_mem _ hother), List.length_cons]
    congr 1
    omega

/-- A bracket opens neither a string nor a comment. -/
theorem opaqueEnd?_opener (hb : bytes[i]? = some shape.opener) : opaqueEnd? bytes i = none := by
  have hlt := (List.getElem?_eq_some_iff.1 hb).1
  have hnext : modeAt bytes i (i + 1) = .code := by
    rw [modeAt_succ (Nat.le_refl i) hb, modeAt_self]
    exact next_code_of_isInert (Bracket.isInert_opener shape)
  rw [opaqueEnd?_eq (Nat.le_refl i) hlt modeAt_self, if_pos hnext]

theorem closeTurn_inl {state after : Search} (hcounted : state.IsCounted bytes shape)
    (h : closeTurn bytes shape state = .inl after) :
    after.IsCounted bytes shape ∧ bytes.length - after.offset < bytes.length - state.offset ∧
      after.ending bytes shape = state.ending bytes shape := by
  obtain ⟨i, depth⟩ := state
  unfold closeTurn at h
  dsimp only at h ⊢
  split at h
  · cases h
  · rename_i b hb
    have hlt := (List.getElem?_eq_some_iff.1 hb).1
    have hless : bytes.length - (i + 1) < bytes.length - i := by omega
    split at h
    · rename_i next hend
      cases h
      have hbounds := bounds_of_opaqueEnd? hend
      obtain ⟨ms, hms, hlength, hkinds⟩ := exists_marksFrom hend
      have hpass : ∀ mark ∈ ms, mark.kind ≠ .code := by
        intro mark hmark
        rw [hkinds mark hmark]
        split <;> decide
      have hfurther : bytes.length - next < bytes.length - i := by omega
      refine ⟨fun hzero => ?_, hfurther, ?_⟩
      · rw [opaqueEnd?_opener (hcounted hzero)] at hend
        cases hend
      · simp only [Search.ending, hms, closeFrom_append_of_ne hpass, hlength]
    · rename_i hnone
      have hmarks := marksFrom_of_none hb hnone
      split at h
      · rename_i hopener
        cases h
        refine ⟨fun hzero => absurd hzero (Nat.succ_ne_zero depth), hless, ?_⟩
        simp only [Search.ending, hmarks, Bracket.closeFrom, hopener, ne_eq, not_true_eq_false,
          if_false, if_true]
      · rename_i hopener
        have hpos : depth ≠ 0 := by
          intro hzero
          have hfirst := hcounted hzero
          rw [hb] at hfirst
          exact hopener (Option.some.inj hfirst)
        split at h
        · rename_i hcloser
          split at h
          · cases h
          · cases h
            have hmore : ¬ depth ≤ 1 := by omega
            have hclosed : shape.closer ≠ shape.opener := hcloser ▸ hopener
            refine ⟨fun hzero => ?_, hless, ?_⟩
            · dsimp only at hzero
              omega
            · simp only [Search.ending, hmarks, Bracket.closeFrom, hcloser, hclosed, hmore, ne_eq,
                not_true_eq_false, if_false, if_true]
        · rename_i hcloser
          cases h
          refine ⟨fun hzero => absurd hzero hpos, hless, ?_⟩
          simp only [Search.ending, hmarks, Bracket.closeFrom, hopener, hcloser, ne_eq,
            not_true_eq_false, if_false]

theorem closeTurn_inr {state : Search} {ending : Ending} (hcounted : state.IsCounted bytes shape)
    (h : closeTurn bytes shape state = .inr ending) : ending = state.ending bytes shape := by
  obtain ⟨i, depth⟩ := state
  unfold closeTurn at h
  dsimp only at h
  split at h
  · rename_i hb
    cases h
    have hlen := List.getElem?_eq_none_iff.1 hb
    simp only [Search.ending, marksFrom, List.drop_eq_nil_of_le hlen, marks, Bracket.closeFrom,
      Option.map_none, Option.getD_none]
  · rename_i b hb
    split at h
    · cases h
    · rename_i hnone
      split at h
      · cases h
      · rename_i hopener
        split at h
        · rename_i hcloser
          split at h
          · -- where a bracket closes, one is open
            rename_i hzero
            have hfirst := hcounted hzero
            rw [hb] at hfirst
            exact absurd (Option.some.inj hfirst) hopener
          · split at h
            · rename_i hone
              cases h
              have hclosed : shape.closer ≠ shape.opener := hcloser ▸ hopener
              simp only [Search.ending, marksFrom_of_none hb hnone, Bracket.closeFrom, hcloser,
                hclosed, hone, Nat.le_refl, ne_eq, not_true_eq_false, if_false, if_true,
                Option.map_some, Option.getD_some]
            · cases h
        · cases h

/-- **The search for the end of a literal ends**, with the literal or
without a bracket that closes it. The counter never falls below zero. -/
theorem runLoop_closeTurn (hopener : bytes[i]? = some shape.opener) :
    (∃ stop, runLoop (closeTurn bytes shape) (bytes.length - i + 1) ⟨i, 0⟩ =
        some (.closed stop) ∧ spanAt bytes i = .ok ⟨i, stop⟩) ∨
      (runLoop (closeTurn bytes shape) (bytes.length - i + 1) ⟨i, 0⟩ = some .unbalanced ∧
        spanAt bytes i = .error (.unbalanced i)) := by
  have hfirst : Search.IsCounted bytes shape ⟨i, 0⟩ := fun _ => hopener
  have hrun := runLoop_eq (fun _ _ => closeTurn_inl) (fun _ _ => closeTurn_inr) hfirst
    (Nat.lt_succ_self (bytes.length - i))
  rw [hrun, Search.ending, spanAt, hopener, Option.bind_some, Bracket.ofOpener?_eq_some.2 rfl]
  dsimp only
  cases shape.closeFrom 0 i (marksFrom bytes i) with
  | some stop => exact .inl ⟨stop, rfl, rfl⟩
  | none => exact .inr ⟨rfl, rfl⟩

/-! ## The items of a region -/

/-- A state of the search for commas: an offset, the number of brackets that
are open there, where the item so far starts and ends, and the items
found. -/
structure Split where
  offset : Nat
  depth : Nat
  first : Option Nat
  lastEnd : Nat
  found : List Span

/-- The item so far. -/
def Split.item (state : Split) : Option Span := state.first.map (⟨·, state.lastEnd⟩)

/-- **One turn of the search** for the commas in front of an offset. There
is no result where a byte is read past the end of the text. -/
def splitTurn (bytes : List UInt8) (limit : Nat) (state : Split) : Split ⊕ Option (List Span) :=
  if limit ≤ state.offset then .inr (some (state.found ++ state.item.toList))
  else
    match opaqueEnd? bytes state.offset with
    | some next =>
      if StartsComment bytes state.offset then .inl { state with offset := next }
      else .inl { state with
        offset := next
        first := some (state.first.getD state.offset)
        lastEnd := min next limit }
    | none =>
      match bytes[state.offset]? with
      | none => .inr none
      | some b =>
        if b = comma ∧ state.depth = 0 then .inl { state with
          offset := state.offset + 1
          first := none
          found := state.found ++ [state.item.getD ⟨state.offset, state.offset⟩] }
        else if isSpace b then .inl { state with
          offset := state.offset + 1
          depth := depthAfter state.depth b }
        else .inl { state with
          offset := state.offset + 1
          depth := depthAfter state.depth b
          first := some (state.first.getD state.offset)
          lastEnd := state.offset + 1 }

/-- What the recursion says of a state. -/
def Split.items (bytes : List UInt8) (limit : Nat) (state : Split) : List Span :=
  state.found ++ itemsFrom state.depth state.item state.offset
    ((marksFrom bytes state.offset).take (limit - state.offset))

/-- A string becomes part of an item. -/
theorem itemsFrom_append_of_text (h : ∀ mark ∈ ms, mark.kind = .text) (hne : ms ≠ []) :
    itemsFrom depth current offset (ms ++ rest) =
      itemsFrom depth (some (Span.extend current offset (offset + ms.length)))
        (offset + ms.length) rest := by
  induction ms generalizing current offset with
  | nil => exact absurd rfl hne
  | cons mark ms ih =>
    have hsolid : mark.isSolid = true := by
      rw [Mark.isSolid, h mark List.mem_cons_self]
      rfl
    rw [List.cons_append, itemsFrom_cons_of_isSolid hsolid]
    by_cases hlast : ms = []
    · subst hlast
      rfl
    · rw [ih (fun other hother => h other (List.mem_cons_of_mem _ hother)) hlast, List.length_cons,
        Nat.add_right_comm offset, Nat.add_assoc offset]
      rfl

/-- The offset does not matter where nothing is left up to the limit. -/
theorem itemsFrom_min : itemsFrom depth current (min next limit) (ms.take (limit - next)) =
    itemsFrom depth current next (ms.take (limit - next)) := by
  rcases Nat.le_total next limit with hle | hge
  · rw [Nat.min_eq_left hle]
  · rw [Nat.sub_eq_zero_of_le hge, List.take_zero, itemsFrom, itemsFrom]

/-- What is passed in front of a limit, or a part of it where the limit
lies in it. -/
theorem exists_take_append (rest : List Mark) (hlength : i + ms.length = next) (hlt : i < limit) :
    ∃ part, (ms ++ rest).take (limit - i) = part ++ rest.take (limit - next) ∧
      (∀ mark ∈ part, mark ∈ ms) ∧ i + part.length = min next limit := by
  refine ⟨ms.take (limit - i), ?_, fun mark => List.mem_of_mem_take, ?_⟩
  · rw [List.take_append]
    congr 2
    omega
  · rw [List.length_take]
    omega

/-- What is passed leaves the item so far as it is, or makes it longer. -/
theorem itemsFrom_passed (hend : opaqueEnd? bytes i = some next) (hlt : i < limit) :
    itemsFrom depth current i ((marksFrom bytes i).take (limit - i)) =
      itemsFrom depth (if StartsComment bytes i then current
        else some (Span.extend current i (min next limit))) next
        ((marksFrom bytes next).take (limit - next)) := by
  have hbounds := bounds_of_opaqueEnd? hend
  obtain ⟨ms, hms, hlength, hkinds⟩ := exists_marksFrom hend
  obtain ⟨part, hpart, hmem, hstop⟩ := exists_take_append (marksFrom bytes next) hlength hlt
  rw [hms, hpart]
  split
  · rename_i hstarts
    have hblank : ∀ mark ∈ part, mark.isBlank = true := by
      intro mark hmark
      rw [Mark.isBlank, hkinds mark (hmem mark hmark), if_pos hstarts]
      rfl
    rw [itemsFrom_append_of_isBlank hblank, hstop, itemsFrom_min]
  · rename_i hstarts
    have htext : ∀ mark ∈ part, mark.kind = .text := by
      intro mark hmark
      rw [hkinds mark (hmem mark hmark), if_neg hstarts]
    have hne : part ≠ [] := by
      rintro rfl
      rw [List.length_nil] at hstop
      omega
    rw [itemsFrom_append_of_text htext hne, hstop, itemsFrom_min]

/-- A byte that is read is the next one of the region. -/
theorem itemsFrom_read (hb : bytes[i]? = some b) (hnone : opaqueEnd? bytes i = none)
    (hlt : i < limit) :
    itemsFrom depth current i ((marksFrom bytes i).take (limit - i)) =
      itemsFrom depth current i
        (⟨b, .code⟩ :: (marksFrom bytes (i + 1)).take (limit - (i + 1))) := by
  rw [marksFrom_of_none hb hnone, show limit - i = limit - (i + 1) + 1 by omega,
    List.take_succ_cons]

/-- The item so far, made longer. -/
theorem Split.extend_item {state : Split} : some (Span.extend state.item i stop) =
    (some (state.first.getD i)).map (Span.mk · stop) := by
  unfold Split.item Span.extend
  cases state.first <;> rfl

theorem splitTurn_inl {state after : Split} (h : splitTurn bytes limit state = .inl after) :
    limit - after.offset < limit - state.offset ∧
      after.items bytes limit = state.items bytes limit := by
  unfold splitTurn at h
  split at h
  · cases h
  · rename_i hlimit
    have hlt := Nat.not_le.1 hlimit
    have hless : limit - (state.offset + 1) < limit - state.offset := by omega
    split at h
    · rename_i next hend
      have hbounds := bounds_of_opaqueEnd? hend
      have hfurther : limit - next < limit - state.offset := by omega
      split at h
      · rename_i hstarts
        cases h
        refine ⟨hfurther, ?_⟩
        rw [Split.items, Split.items, itemsFrom_passed hend hlt, if_pos hstarts]
        rfl
      · rename_i hstarts
        cases h
        refine ⟨hfurther, ?_⟩
        rw [Split.items, Split.items, itemsFrom_passed hend hlt, if_neg hstarts,
          Split.extend_item]
        rfl
    · rename_i hnone
      split at h
      · cases h
      · rename_i b hb
        split at h
        · rename_i hcomma
          cases h
          refine ⟨hless, ?_⟩
          rw [Split.items, Split.items, itemsFrom_read hb hnone hlt, itemsFrom, if_pos hcomma,
            List.append_assoc]
          simp only [hcomma.2]
          rfl
        · rename_i hcomma
          split at h
          · rename_i hspace
            cases h
            refine ⟨hless, ?_⟩
            rw [Split.items, Split.items, itemsFrom_read hb hnone hlt, itemsFrom]
            simp only [if_neg hcomma, if_pos hspace]
            rfl
          · rename_i hspace
            cases h
            refine ⟨hless, ?_⟩
            rw [Split.items, Split.items, itemsFrom_read hb hnone hlt, itemsFrom]
            simp only [if_neg hcomma, if_neg hspace, Split.extend_item]
            rfl

theorem splitTurn_inr {state : Split} {result : Option (List Span)} (hlen : limit ≤ bytes.length)
    (h : splitTurn bytes limit state = .inr result) : result = some (state.items bytes limit) := by
  unfold splitTurn at h
  split at h
  · rename_i hlimit
    cases h
    rw [Split.items, Nat.sub_eq_zero_of_le hlimit, List.take_zero, itemsFrom]
  · rename_i hlt
    split at h
    · split at h <;> cases h
    · split at h
      · rename_i hnone
        have hout := List.getElem?_eq_none_iff.1 hnone
        omega
      · split at h
        · cases h
        · split at h <;> cases h

/-- **The search for commas ends**, in as many turns as the region has bytes
and one, and finds the items of the region. -/
theorem runLoop_splitTurn (hlen : region.stop ≤ bytes.length) :
    runLoop (splitTurn bytes region.stop) (region.length + 1)
      ⟨region.start, 0, none, region.start, []⟩ = some (some (items bytes region)) := by
  have hturn (state after : Split) (_ : True) (h : splitTurn bytes region.stop state = .inl after) :
      True ∧ region.stop - after.offset < region.stop - state.offset ∧
        some (after.items bytes region.stop) = some (state.items bytes region.stop) := by
    obtain ⟨hless, hsame⟩ := splitTurn_inl h
    exact ⟨trivial, hless, congrArg some hsame⟩
  have hsize : region.stop - region.start < region.length + 1 := Nat.lt_succ_self _
  exact runLoop_eq hturn (fun _ _ _ => splitTurn_inr hlen) trivial hsize

/-! ## The mapping inside of parentheses -/

/-- **One turn of the way to the mapping** in a span: out of a pair of
parentheses. -/
def unwrapTurn (bytes : List UInt8) (span : Span) : Span ⊕ Except Failure (Option Span) :=
  match (span.opener? bytes).bind Bracket.ofOpener? with
  | some .brace => .inr (.ok (some span))
  | some .round =>
    match triviaEnd? bytes span.inner.start span.inner.stop with
    | none => .inr (.error .misplaced)
    | some opening =>
      if span.inner.stop ≤ opening then .inr (.ok none)
      else
        match spanAt bytes opening with
        | .ok inner => .inl inner
        | .error cause => .inr (.error (.refused cause))
  | _ => .inr (.ok none)

theorem unwrap_succ : unwrap bytes (layers + 1) span =
    match unwrapTurn bytes span with
    | .inl inner => unwrap bytes layers inner
    | .inr result => result := by
  rw [unwrap, unwrapTurn]
  cases (span.opener? bytes).bind Bracket.ofOpener? with
  | none => rfl
  | some shape =>
    cases shape with
    | brace | square => rfl
    | round =>
      dsimp only
      cases triviaEnd? bytes span.inner.start span.inner.stop with
      | none => rfl
      | some opening =>
        rw [Failure.ofCut_some, Failure.ok_bind]
        dsimp only
        split
        · rfl
        · cases spanAt bytes opening <;> rfl

theorem unwrap_of_runLoop {result : Except Failure (Option Span)}
    (h : runLoop (unwrapTurn bytes) layers span = some result) :
    unwrap bytes layers span = result := by
  induction layers generalizing span with
  | zero => cases h
  | succ layers ih =>
    rw [unwrap_succ]
    cases hturn : unwrapTurn bytes span with
    | inl inner =>
      rw [runLoop_inl hturn] at h
      exact ih h
    | inr found =>
      rw [runLoop_inr hturn] at h
      exact Option.some.inj h

/-- A span that lies within a text. -/
def InText (bytes : List UInt8) (span : Span) : Prop :=
  span.start ≤ span.stop ∧ span.stop ≤ bytes.length

/-- **Each pair of parentheses starts later** than the one around it. -/
theorem unwrapTurn_inl {inner : Span} (hspan : InText bytes span)
    (h : unwrapTurn bytes span = .inl inner) :
    InText bytes inner ∧ span.start < inner.start := by
  unfold unwrapTurn at h
  split at h
  · cases h
  · rename_i hround
    split at h
    · cases h
    · rename_i opening hopening
      split at h
      · cases h
      · rename_i hlt
        split at h
        · rename_i found hfound
          cases h
          have hne := ne_of_opener? hround
          have hlt' : span.start < span.stop := Nat.lt_of_le_of_ne hspan.1 hne
          obtain ⟨hstart, htwo, hstop⟩ := bounds_of_spanAt hfound
          have hbetween : span.inner.start ≤ opening := by
            rw [triviaEnd?] at hopening
            split at hopening
            · cases hopening
            · rw [← Option.some.inj hopening]
              exact (le_triviaEnd (Nat.le_max_right _ _)).1
          rw [(inner_eq hlt').1] at hbetween
          exact ⟨⟨by omega, hstop⟩, by omega⟩
        · cases h
  · cases h

/-- **The way to the mapping ends**, and more turns than there are bytes
from the start of the span on are not needed. -/
theorem runLoop_unwrapTurn (hspan : InText bytes span) :
    runLoop (unwrapTurn bytes) (bytes.length - span.start + 1) span =
      some (mappingIn bytes span) := by
  have hturn (outer inner : Span) (houter : InText bytes outer)
      (h : unwrapTurn bytes outer = .inl inner) :
      InText bytes inner ∧ bytes.length - inner.start < bytes.length - outer.start := by
    obtain ⟨hinner, hless⟩ := unwrapTurn_inl houter h
    obtain ⟨hle, hlen⟩ := hinner
    exact ⟨⟨hle, hlen⟩, by omega⟩
  obtain ⟨last, result, -, -, hrun⟩ := exists_runLoop hturn hspan
    (Nat.lt_succ_self (bytes.length - span.start))
  rw [hrun, mappingIn, unwrap_of_runLoop (runLoop_of_le hrun (by omega))]

/-! ## All scans -/

/-- **Every scan goes on and stays in the text, whatever the text.** What is
passed at once has bytes and ends in the text, skipping ends in front of
its limit or at it, and the three searches end: the one for a bracket with
a literal or without one, its counter never below zero, the one for commas
without reading past the end, and the one for a mapping since each pair of
parentheses starts later than the one around it. -/
theorem scans_end (bytes : List UInt8) :
    (∀ i next, opaqueEnd? bytes i = some next → i < next ∧ next ≤ bytes.length) ∧
    (∀ offset limit, offset ≤ limit → limit ≤ bytes.length →
      ∃ stop, triviaEnd? bytes offset limit = some stop ∧ offset ≤ stop ∧ stop ≤ limit) ∧
    (∀ (opening : Nat) (shape : Bracket), bytes[opening]? = some shape.opener →
      (∃ stop, runLoop (closeTurn bytes shape) (bytes.length - opening + 1) ⟨opening, 0⟩ =
          some (.closed stop) ∧ spanAt bytes opening = .ok ⟨opening, stop⟩) ∨
        (runLoop (closeTurn bytes shape) (bytes.length - opening + 1) ⟨opening, 0⟩ =
          some .unbalanced ∧ spanAt bytes opening = .error (.unbalanced opening))) ∧
    (∀ region, InText bytes region →
      runLoop (splitTurn bytes region.stop) (region.length + 1)
        ⟨region.start, 0, none, region.start, []⟩ = some (items? bytes region)) ∧
    (∀ span, InText bytes span →
      (∀ inner, unwrapTurn bytes span = .inl inner →
        InText bytes inner ∧ span.start < inner.start) ∧
      runLoop (unwrapTurn bytes) (bytes.length - span.start + 1) span =
        some (mappingIn bytes span)) := by
  refine ⟨fun i next => bounds_of_opaqueEnd?, fun offset limit hle hlen => ?_,
    fun opening shape => runLoop_closeTurn, fun region hregion => ?_,
    fun span hspan => ⟨fun inner => unwrapTurn_inl hspan, runLoop_unwrapTurn hspan⟩⟩
  · exact ⟨_, triviaEnd?_of_le hle hlen, le_triviaEnd hle⟩
  · rw [runLoop_splitTurn hregion.2, items?_of_le hregion.2]

/-- Brackets and a string that nothing closes, and a backslash as the last
byte. -/
def unfinished : String := "([1, \"\\"

theorem scans_end_unfinished :
    opaqueEnd? (Text.bytes unfinished) 5 = some 7 ∧ 5 < 7 ∧
    (∃ stop, triviaEnd? (Text.bytes unfinished) 4 7 = some stop ∧ 4 ≤ stop ∧ stop ≤ 7) ∧
    (Text.bytes unfinished)[1]? = some Bracket.square.opener ∧
    runLoop (closeTurn (Text.bytes unfinished) .square) 7 ⟨1, 0⟩ = some .unbalanced ∧
    InText (Text.bytes unfinished) ⟨2, 7⟩ ∧
    runLoop (splitTurn (Text.bytes unfinished) 7) 6 ⟨2, 0, none, 2, []⟩ =
      some (some [⟨2, 3⟩, ⟨5, 7⟩]) ∧
    InText (Text.bytes unfinished) ⟨0, 7⟩ ∧
    runLoop (unwrapTurn (Text.bytes unfinished)) 8 ⟨0, 7⟩ =
      some (mappingIn (Text.bytes unfinished) ⟨0, 7⟩) := by
  obtain ⟨hpassed, htrivia, hclose, hsplit, hunwrap⟩ := scans_end (Text.bytes unfinished)
  have hlength : 7 ≤ (Text.bytes unfinished).length := by decide
  have hend : opaqueEnd? (Text.bytes unfinished) 5 = some 7 := by decide
  have hopener : (Text.bytes unfinished)[1]? = some Bracket.square.opener := by decide
  have hregion : InText (Text.bytes unfinished) ⟨2, 7⟩ := ⟨by decide, hlength⟩
  have hspan : InText (Text.bytes unfinished) ⟨0, 7⟩ := ⟨by decide, hlength⟩
  have hitems : items? (Text.bytes unfinished) ⟨2, 7⟩ = some [⟨2, 3⟩, ⟨5, 7⟩] := by decide
  have hunbalanced : spanAt (Text.bytes unfinished) 1 = .error (.unbalanced 1) := by decide
  refine ⟨hend, (hpassed 5 7 hend).1, htrivia 4 7 (by decide) hlength, hopener, ?_,
    hregion, ?_, hspan, (hunwrap ⟨0, 7⟩ hspan).2⟩
  · rcases hclose 1 .square hopener with ⟨stop, -, hclosed⟩ | ⟨hrun, -⟩
    · rw [hunbalanced] at hclosed
      cases hclosed
    · exact hrun
  · rw [← hitems]
    exact hsplit ⟨2, 7⟩ hregion

end ConfigPatch.Literal
