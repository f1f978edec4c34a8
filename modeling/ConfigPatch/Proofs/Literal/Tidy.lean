import ConfigPatch.Proofs.Literal.InStep
import ConfigPatch.Proofs.Literal.Root

/-!
# Tidy literals

A literal is tidy if its inside ends in code, closes just the brackets that
it opens, and has no mark of a comment that the scan overlooks. Each of the
scans that a path is resolved by then finds its end in the literal: a step
from the literal, or from anything in it that it leads to, leads to
something between its brackets. `Walks` is the run of these steps.
-/

namespace ConfigPatch.Literal

open Lexical

variable {bytes : List UInt8} {offset layers : Nat} {options : Options} {s : String} {p : Path}
variable {literal span outer middle inner value found : Span} {segment : Segment}

/-- **Whether a literal is tidy.** -/
def isTidy (bytes : List UInt8) (span : Span) : Bool :=
  isClosed bytes span.inner && (List.range span.stop).all fun n =>
    decide (n ≤ span.start) || !isCodeAt bytes (span.start + 1) n || !isOverlooked bytes n

/-- **What a tidy literal is known by.** -/
structure Tidy (bytes : List UInt8) (span : Span) : Prop where
  lt : span.start + 2 ≤ span.stop
  le_length : span.stop ≤ bytes.length
  code : modeAt bytes (span.start + 1) (span.stop - 1) = .code
  nested : Nested (stretch bytes (span.start + 1) (span.stop - 1))
  sees : Sees bytes (span.start + 1) (span.stop - 1)

/-- **A span between the brackets of a literal** that starts where the scan
of the inside is in code. -/
structure Inside (bytes : List UInt8) (literal inner : Span) : Prop where
  lt_start : literal.start < inner.start
  le : inner.start ≤ inner.stop
  stop_lt : inner.stop < literal.stop
  code : modeAt bytes (literal.start + 1) inner.start = .code

/-! ## Literals in a tidy one -/

/-- A literal has two brackets. -/
theorem bounds_of_spanAt (h : spanAt bytes offset = .ok span) :
    span.start = offset ∧ span.start + 2 ≤ span.stop ∧ span.stop ≤ bytes.length := by
  obtain ⟨hstart, shape, hopener, hclose⟩ := spanAt_eq_ok.1 h
  rw [marksFrom_cons hopener (Bracket.isInert_opener shape), Bracket.closeFrom,
    if_neg (by simp), if_pos rfl] at hclose
  obtain ⟨n, hn, hstop⟩ := exists_of_closeFrom hclose
  rw [marksFrom, length_marks, List.length_drop] at hn
  omega

theorem ne_of_opener? {shape : Bracket}
    (h : (span.opener? bytes).bind Bracket.ofOpener? = some shape) : span.start ≠ span.stop := by
  intro hempty
  rw [Span.opener?, Span.isEmpty, hempty, beq_self_eq_true, if_pos rfl] at h
  cases h

theorem inner_eq (h : span.start < span.stop) : span.inner.start = span.start + 1 ∧
    (span.start + 2 ≤ span.stop → span.inner.stop = span.stop - 1) := by
  rw [Span.inner]
  dsimp only
  omega

/-- A literal that passes for tidy is. -/
theorem Tidy.of_isTidy (hspan : spanAt bytes offset = .ok span) (h : isTidy bytes span = true) :
    Tidy bytes span := by
  obtain ⟨-, hlt, hlen⟩ := bounds_of_spanAt hspan
  obtain ⟨hstart, hstop⟩ := inner_eq (show span.start < span.stop by omega)
  rw [isTidy, Bool.and_eq_true, isClosed, Bool.and_eq_true, hstart, hstop hlt,
    decide_eq_true_eq] at h
  refine ⟨hlt, hlen, isCodeAt_iff.1 h.1.1, h.1.2, fun n hn hlt hcode => ?_⟩
  have hall := List.all_eq_true.1 h.2 n (List.mem_range.2 (by omega))
  rw [isCodeAt_iff.2 hcode, decide_eq_false (by omega)] at hall
  simpa using hall

/-- **A bracket in a tidy literal opens a tidy literal** between its
brackets. -/
theorem Tidy.spanAt (h : Tidy bytes literal) (hlt : literal.start < offset)
    (hstop : offset + 1 < literal.stop) (hcode : modeAt bytes (literal.start + 1) offset = .code)
    {shape : Bracket} (hopener : bytes[offset]? = some shape.opener) :
    ∃ span, Lexical.spanAt bytes offset = .ok span ∧ Inside bytes literal span ∧
      Tidy bytes span := by
  have hlen := h.le_length
  obtain ⟨close, hclose, hend, hspan, hmode, hnested⟩ :=
    exists_spanAt h.code h.nested (by omega) hlt (by omega) hcode hopener
  have hafter : modeAt bytes (literal.start + 1) (offset + 1) = .code := by
    rw [modeAt_succ hlt hopener, hcode]
    exact next_code_of_isInert (Bracket.isInert_opener shape)
  have hsees : Sees bytes (offset + 1) close := h.sees.of_code hafter (by omega) (by omega) (by omega)
  refine ⟨⟨offset, close + 1⟩, hspan, ⟨hlt, ?_, ?_, hcode⟩, ⟨?_, ?_, hmode, hnested, hsees⟩⟩ <;>
  · dsimp only
    omega

/-- The scan of a tidy literal is in code behind the bracket of a literal
in it. -/
theorem Inside.code_succ (h : outer = literal ∨ Inside bytes literal outer) {shape : Bracket}
    (hopener : bytes[outer.start]? = some shape.opener) :
    literal.start ≤ outer.start ∧ outer.stop ≤ literal.stop ∧
      modeAt bytes (literal.start + 1) (outer.start + 1) = .code := by
  rcases h with rfl | h
  · exact ⟨Nat.le_refl _, Nat.le_refl _, modeAt_self⟩
  · refine ⟨Nat.le_of_lt h.lt_start, Nat.le_of_lt h.stop_lt, ?_⟩
    rw [modeAt_succ h.lt_start hopener, h.code]
    exact next_code_of_isInert (Bracket.isInert_opener shape)

/-! ## Steps -/

/-- **One step of a path**: what a segment leads to. -/
def Below (s : String) (outer : Span) (segment : Segment) (inner : Span) : Prop :=
  (match segment with
    | .property name => property? s outer name
    | .index index => item? s outer index) = .ok (some inner)

theorem Below.exists_opener (h : Below s outer segment inner) :
    ∃ shape : Bracket, shape ≠ .round ∧ (Text.bytes s)[outer.start]? = some shape.opener := by
  have hdown : down s [] outer ⟨none, segment, true⟩ = .ok inner := down_eq_ok.2 h
  exact exists_opener_of_down hdown

/-- The item that a step leads to, or whose value it leads to. -/
theorem Below.exists_item (h : Below s outer segment inner) :
    items? (Text.bytes s) outer.inner = some (items (Text.bytes s) outer.inner) ∧
      ∃ item ∈ items (Text.bytes s) outer.inner, inner = item ∨
        ∃ entry, Entry.read? s item = .ok (some entry) ∧
          narrow (Text.bytes s) entry.value = .ok inner := by
  cases segment with
  | property name =>
    obtain ⟨-, entries, entry, hitems, hread, hlast, hnarrow⟩ := property?_eq_ok.1 h
    obtain ⟨hmem, -⟩ := mem_named.1 (List.mem_of_getLast? hlast)
    obtain ⟨item, hitem, hentry⟩ := Failure.exists_of_mem_mapM hread hmem
    exact ⟨hitems, item, hitem, .inr ⟨entry, hentry, hnarrow⟩⟩
  | index index =>
    obtain ⟨-, hitems, hget⟩ := item?_eq_ok.1 h
    exact ⟨hitems, inner, List.mem_of_getElem? hget, .inl rfl⟩

/-- Each step leads further on. -/
theorem Below.lt_start (h : Below s outer segment inner) : outer.start < inner.start := by
  obtain ⟨-, item, hitem, rfl | ⟨entry, hentry, hnarrow⟩⟩ := h.exists_item
  · exact (bounds_of_mem_items_inner hitem).1
  · have hbounds := bounds_of_mem_items_inner hitem
    have hvalue := read?_bounds hentry
    rw [start_of_narrow hnarrow]
    omega

/-- **A step in a tidy literal stays between its brackets.** -/
theorem Tidy.below (h : Tidy (Text.bytes s) literal)
    (houter : outer = literal ∨ Inside (Text.bytes s) literal outer)
    (hbelow : Below s outer segment inner) : Inside (Text.bytes s) literal inner := by
  obtain ⟨shape, -, hopener⟩ := hbelow.exists_opener
  obtain ⟨hle, hstop, hcode⟩ := Inside.code_succ houter hopener
  obtain ⟨hitems, item, hitem, hcase⟩ := hbelow.exists_item
  have hlen := h.le_length
  have hbounds := bounds_of_mem_items_inner hitem
  obtain ⟨hregion, -⟩ := inner_eq (show outer.start < outer.stop by omega)
  have hitemCode : modeAt (Text.bytes s) (literal.start + 1) item.start = .code :=
    modeAt_of_mem_items (by rw [hregion, hcode]) (by omega) hitem (by omega)
  rcases hcase with rfl | ⟨entry, hentry, hnarrow⟩
  · exact ⟨by omega, hbounds.2.1, by omega, hitemCode⟩
  · obtain ⟨hstart, hlt, hend⟩ := read?_bounds hentry
    have hvalue : modeAt (Text.bytes s) (literal.start + 1) entry.value.start = .code :=
      modeAt_of_read? hitemCode (by omega) (by omega)
        (fun n hn hlt => h.sees n hn (by omega)) hentry
    rcases narrow_eq_ok hnarrow with rfl | hspan
    · exact ⟨by omega, by omega, by omega, hvalue⟩
    · obtain ⟨-, shape', hopener'⟩ := exists_opener_of_spanAt hspan
      obtain ⟨span, hspan', hinside, -⟩ :=
        h.spanAt (show literal.start < entry.value.start by omega) (by omega) hvalue hopener'
      rw [hspan] at hspan'
      cases hspan'
      exact hinside

/-! ## Walks -/

/-- **What a path leads to** from a span on. -/
inductive Walks (s : String) : Span → Path → Span → Prop
  | nil {span : Span} : Walks s span [] span
  | cons {outer middle inner : Span} {segment : Segment} {p : Path} :
      Below s outer segment middle → Walks s middle p inner → Walks s outer (segment :: p) inner

namespace Walks

/-- A walk is taken apart at its last step. -/
theorem exists_of_append (h : Walks s outer (p ++ [segment]) inner) :
    ∃ middle, Walks s outer p middle ∧ Below s middle segment inner := by
  induction p generalizing outer with
  | nil =>
    cases h with
    | cons hbelow hrest =>
      cases hrest
      exact ⟨outer, .nil, hbelow⟩
  | cons first p ih =>
    cases h with
    | cons hbelow hrest =>
      obtain ⟨middle, hwalk, hlast⟩ := ih hrest
      exact ⟨middle, .cons hbelow hwalk, hlast⟩

theorem le_start (h : Walks s outer p inner) : outer.start ≤ inner.start := by
  induction h with
  | nil => exact Nat.le_refl _
  | cons hbelow _ ih => exact Nat.le_trans (Nat.le_of_lt hbelow.lt_start) ih

/-- **A walk in a tidy literal stays between its brackets.** -/
theorem inside (h : Walks s outer p inner) (htidy : Tidy (Text.bytes s) literal)
    (houter : outer = literal ∨ Inside (Text.bytes s) literal outer) :
    inner = literal ∨ Inside (Text.bytes s) literal inner := by
  induction h with
  | nil => exact houter
  | cons hbelow _ ih => exact ih (.inr (htidy.below houter hbelow))

/-- The resolver takes the walk of the path. -/
theorem foldlM_down {q : Path} {previous : Option Segment} :
    (Path.stepsFrom previous p).foldlM (down s q) outer = .ok inner ↔ Walks s outer p inner := by
  induction p generalizing outer previous with
  | nil =>
    constructor
    · intro h
      cases h
      exact .nil
    · intro h
      cases h
      rfl
  | cons segment p ih =>
    rw [Path.stepsFrom, List.foldlM_cons, Failure.bind_eq_ok]
    constructor
    · rintro ⟨middle, hdown, hrest⟩
      exact .cons (down_eq_ok.1 hdown) (ih.1 hrest)
    · intro h
      cases h with
      | cons hbelow hrest => exact ⟨_, down_eq_ok.2 hbelow, ih.2 hrest⟩

end Walks

/-- A path that is found is walked from the mapping on. -/
theorem find_eq_ok_walks : find options s p = .ok inner ↔
    p ≠ [] ∧ ∃ span, root options s = .ok span ∧ Walks s span p inner := by
  rw [find_eq_ok]
  simp only [Path.steps, Walks.foldlM_down]

/-! ## The mapping that a file exports -/

theorem le_start_of_unwrap (hlt : span.start < span.stop)
    (h : unwrap bytes layers span = .ok (some found)) : span.start ≤ found.start := by
  induction layers generalizing span with
  | zero => cases h
  | succ layers ih =>
    rcases unwrap_succ_eq_ok h with ⟨-, rfl⟩ | hround
    · exact Nat.le_refl _
    · obtain ⟨opening, inner, hopening, hstop, -, hspan, hrest⟩ := (unwrap_round_eq_ok hround).1 h
      obtain ⟨hstart, hinner, -⟩ := bounds_of_spanAt hspan
      have hle := ih (by omega) hrest
      have hbetween : span.inner.start ≤ opening :=
        hopening ▸ (le_triviaEnd (Nat.le_max_right _ _)).1
      rw [(inner_eq hlt).1] at hbetween
      omega

/-- **The mapping in a tidy literal** is the literal or lies between its
parentheses. -/
theorem Tidy.unwrap (htidy : Tidy bytes literal)
    (hspan : span = literal ∨ Inside bytes literal span)
    (h : Literal.unwrap bytes layers span = .ok (some found)) :
    found = literal ∨ Inside bytes literal found := by
  induction layers generalizing span with
  | zero => cases h
  | succ layers ih =>
    rcases unwrap_succ_eq_ok h with ⟨-, rfl⟩ | hround
    · exact hspan
    · obtain ⟨opening, inner, hopening, hstop, -, hinner, hrest⟩ :=
        (unwrap_round_eq_ok hround).1 h
      have hopener := getElem?_of_opener? hround
      obtain ⟨hle, hend, hcode⟩ := Inside.code_succ hspan hopener
      have hlen := htidy.le_length
      have hlt : span.start < span.stop := by
        have hne := ne_of_opener? hround
        rcases hspan with rfl | hinside
        · exact Nat.lt_of_lt_of_le (by omega) htidy.lt
        · exact Nat.lt_of_le_of_ne hinside.le hne
      obtain ⟨hfirst, hlast⟩ := inner_eq hlt
      have hbetween : span.inner.start ≤ opening :=
        hopening ▸ (le_triviaEnd (Nat.le_max_right _ _)).1
      have htwo : span.start + 2 ≤ span.stop := by
        rw [Span.inner] at hstop
        dsimp only at hstop
        omega
      rw [hfirst, hlast htwo] at hopening
      rw [hlast htwo] at hstop
      have hopeningCode : modeAt bytes (literal.start + 1) opening = .code := by
        rw [← hopening]
        refine modeAt_triviaEnd hcode (by omega) (by omega) ?_
          (fun n hn hlt => htidy.sees n hn (by omega)) (by omega)
        rw [byteBefore_succ, hopener]
        decide
      obtain ⟨-, shape, hshape⟩ := exists_opener_of_spanAt hinner
      -- in code of a tidy literal a bracket opens a tidy literal
      obtain ⟨found', hfound, hinside, -⟩ :=
        htidy.spanAt (show literal.start < opening by omega) (by omega) hopeningCode hshape
      rw [hinner] at hfound
      cases hfound
      exact ih (.inr hinside) hrest

/-- The exported literal is the one around the exported mapping. -/
theorem exists_exported_of_root (h : root options s = .ok span) :
    ∃ literal, exported options s = .ok literal ∧ literal.span.start ≤ span.start ∧
      (isTidy (Text.bytes s) literal.span = true → Tidy (Text.bytes s) literal.span ∧
        (span = literal.span ∨ Inside (Text.bytes s) literal.span span)) := by
  obtain ⟨literal, hliteral, hmapping⟩ := root_eq_ok.1 h
  obtain ⟨statement, opening, found, b, -, -, -, -, hfound, rfl⟩ := exported_eq_ok.1 hliteral
  have hbounds := bounds_of_spanAt hfound
  refine ⟨_, hliteral, le_start_of_unwrap (by dsimp only; omega) hmapping, fun htidy => ?_⟩
  have hliteralTidy := Tidy.of_isTidy hfound htidy
  exact ⟨hliteralTidy, hliteralTidy.unwrap (.inl rfl) hmapping⟩

/-! ## What a path leads to -/

/-- **What a path leads to starts in the exported literal**, and ends in
it if that is tidy. -/
theorem exists_exported_of_find (h : find options s p = .ok found) :
    ∃ literal, exported options s = .ok literal ∧ literal.span.start < found.start ∧
      (isTidy (Text.bytes s) literal.span = true → Tidy (Text.bytes s) literal.span ∧
        Inside (Text.bytes s) literal.span found) := by
  obtain ⟨hp, span, hroot, hwalk⟩ := find_eq_ok_walks.1 h
  obtain ⟨literal, hliteral, hle, hall⟩ := exists_exported_of_root hroot
  obtain ⟨q, segment, rfl⟩ : ∃ q segment, p = q ++ [segment] :=
    ⟨p.dropLast, p.getLast hp, (List.dropLast_concat_getLast hp).symm⟩
  obtain ⟨middle, hwalk, hbelow⟩ := hwalk.exists_of_append
  refine ⟨literal, hliteral, ?_, fun htidy => ?_⟩
  · exact Nat.lt_of_le_of_lt (Nat.le_trans hle hwalk.le_start) hbelow.lt_start
  · obtain ⟨hliteralTidy, hspan⟩ := hall htidy
    exact ⟨hliteralTidy, hliteralTidy.below (hwalk.inside hliteralTidy hspan) hbelow⟩

/-- The value of a property is narrowed to the literal that it opens
with. -/
theorem spanAt_of_below {name : String} {shape : Bracket}
    (h : Below s outer (.property name) inner) (hshape : shape ≠ .round)
    (hopener : (Text.bytes s)[inner.start]? = some shape.opener) :
    Lexical.spanAt (Text.bytes s) inner.start = .ok inner := by
  obtain ⟨-, entries, entry, hitems, hread, hlast, hnarrow⟩ := property?_eq_ok.1 h
  obtain ⟨hmem, -⟩ := mem_named.1 (List.mem_of_getLast? hlast)
  obtain ⟨item, -, hentry⟩ := Failure.exists_of_mem_mapM hread hmem
  have hvalue := read?_bounds hentry
  rw [start_of_narrow hnarrow] at hopener ⊢
  have hfirst : (Span.opener? (Text.bytes s) entry.value).bind Bracket.ofOpener? = some shape := by
    rw [Span.opener?, Span.isEmpty, if_neg, hopener]
    · exact Bracket.ofOpener?_eq_some.2 rfl
    · rw [beq_iff_eq]
      omega
  rw [narrow, hfirst] at hnarrow
  cases shape with
  | brace => exact hnarrow
  | square => exact hnarrow
  | round => exact absurd rfl hshape

/-- **Members lie between the brackets of their literal.** In a tidy file,
what a path leads to opens with a bracket, where it has something below
it, and the literal that opens there ends in the exported one. The value
of a property is that literal. An item may go on behind it; where it does
not, what is below it lies between its brackets. -/
theorem find_below {parent child : Span} {literal : Exported}
    (hliteral : exported options s = .ok literal)
    (htidy : isTidy (Text.bytes s) literal.span = true)
    (hparent : find options s p = .ok parent)
    (hchild : find options s (p ++ [segment]) = .ok child) :
    ∃ span, spanAt (Text.bytes s) parent.start = .ok span ∧ span.stop < literal.span.stop ∧
      (∀ name, p.getLast? = some (.property name) → span = parent) ∧
      (span = parent → span.start < child.start ∧ child.stop < span.stop) := by
  obtain ⟨literal', hliteral', -, hall⟩ := exists_exported_of_find hparent
  rw [hliteral] at hliteral'
  cases hliteral'
  obtain ⟨hliteralTidy, hinside⟩ := hall htidy
  obtain ⟨hp, root, hroot, hwalk⟩ := find_eq_ok_walks.1 hparent
  obtain ⟨-, root', hroot', hwalk'⟩ := find_eq_ok_walks.1 hchild
  rw [hroot] at hroot'
  cases hroot'
  obtain ⟨middle, hmiddle, hbelow⟩ := hwalk'.exists_of_append
  -- both walks go the same way up to the parent
  obtain rfl : middle = parent := by
    have hfind : find options s p = .ok middle := find_eq_ok_walks.2 ⟨hp, root, hroot, hmiddle⟩
    rw [hparent] at hfind
    cases hfind
    rfl
  obtain ⟨shape, hshape, hopener⟩ := hbelow.exists_opener
  -- the parent has an item, so its bracket is not the last byte of the literal
  have hstop : middle.start + 1 < literal.span.stop := by
    obtain ⟨-, item, hitem, -⟩ := hbelow.exists_item
    have hbounds := bounds_of_mem_items_inner hitem
    have hend := hinside.stop_lt
    omega
  obtain ⟨span, hspan, hinner, hspanTidy⟩ :=
    hliteralTidy.spanAt hinside.lt_start hstop hinside.code hopener
  refine ⟨span, hspan, hinner.stop_lt, ?_, ?_⟩
  · intro name hlast
    obtain ⟨q, rfl⟩ := List.getLast?_eq_some_iff.1 hlast
    obtain ⟨outer, -, hproperty⟩ := hwalk.exists_of_append
    rw [spanAt_of_below hproperty hshape hopener] at hspan
    cases hspan
    rfl
  · rintro rfl
    have hmember := hspanTidy.below (.inl rfl) hbelow
    exact ⟨hmember.lt_start, hmember.stop_lt⟩

/-- A mapping in a sequence, with a bracket in a comment. -/
def itemSample : String :=
  "export default \x7b a: [\x7b x: [1] /* ] */ \x7d, 2] \x7d"

theorem find_below_item :
    ∃ literal span, exported {} itemSample = .ok literal ∧
      isTidy (Text.bytes itemSample) literal.span = true ∧
      find {} itemSample [.property "a", .index 0] = .ok ⟨21, 39⟩ ∧
      find {} itemSample [.property "a", .index 0, .property "x"] = .ok ⟨26, 29⟩ ∧
      spanAt (Text.bytes itemSample) 21 = .ok span ∧
      span.start < 26 ∧ 29 < span.stop ∧ span.stop < literal.span.stop := by
  have hliteral : exported {} itemSample = .ok ⟨.exportDefault, none, ⟨15, 45⟩⟩ := by
    decide +kernel
  have htidy : isTidy (Text.bytes itemSample) ⟨15, 45⟩ = true := by
    decide +kernel
  have hparent : find {} itemSample [.property "a", .index 0] = .ok ⟨21, 39⟩ := by
    decide +kernel
  have hchild : find {} itemSample ([.property "a", .index 0] ++ [.property "x"]) =
      .ok ⟨26, 29⟩ := by
    decide +kernel
  have hspan : spanAt (Text.bytes itemSample) 21 = .ok ⟨21, 39⟩ := by
    decide +kernel
  obtain ⟨span, hfound, hstop, -, hbetween⟩ := find_below hliteral htidy hparent hchild
  obtain rfl : (⟨21, 39⟩ : Span) = span := Except.ok.inj (hspan.symm.trans hfound)
  obtain ⟨hlt, hend⟩ := hbetween rfl
  exact ⟨_, _, hliteral, htidy, hparent, hchild, hspan, hlt, hend, hstop⟩

/-- An item that goes on behind its bracket. -/
def callSample : String := "export default \x7b a: [[1, 2].concat(b)] \x7d"

/-- **A member of an item that goes on behind its bracket is found past that
bracket**: the item is read as if it ended with it. -/
theorem find_past_bracket :
    find {} callSample [.property "a", .index 0] = .ok ⟨21, 37⟩ ∧
      find {} callSample [.property "a", .index 0, .index 1] = .ok ⟨25, 36⟩ ∧
      spanAt (Text.bytes callSample) 21 = .ok ⟨21, 27⟩ ∧ ¬ 36 < 27 := by
  refine ⟨?_, ?_, ?_, by decide⟩ <;> decide +kernel

end ConfigPatch.Literal
