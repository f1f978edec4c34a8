import ConfigPatch.Proofs.Literal.Replaceable
import ConfigPatch.Proofs.Literal.Visit

/-!
# How a region is divided

The items of a region are what its top-level commas divide it into. Before
each comma there is an item, from the first to the last byte that is
neither white space nor part of a comment, or a hole at the comma; and
there is one behind the last comma unless nothing else stands there. So
the items keep every byte of the region but for blanks and commas.
-/

namespace ConfigPatch.Literal

open Lexical

variable {bytes : List UInt8} {start offset lo hi stop k i c : Nat} {b : UInt8}
variable {blank comma' : Nat → Prop} {span : Span} {spans : List Span} {commas : List Nat}
variable {current item : Option Span}

/-! ## Items in gaps -/

/-- An item in a gap, without the blanks on either side. -/
structure Fits (blank : Nat → Prop) (lo hi : Nat) (span : Span) : Prop where
  le_start : lo ≤ span.start
  start_lt : span.start < span.stop
  stop_le : span.stop ≤ hi
  first : ¬ blank span.start
  last : ¬ blank (span.stop - 1)
  before : ∀ i, lo ≤ i → i < span.start → blank i
  behind : ∀ i, span.stop ≤ i → i < hi → blank i

/-- **What stands in a gap**: an item, or none if all of it is blank. -/
def Fills (blank : Nat → Prop) (lo hi : Nat) : Option Span → Prop
  | none => ∀ i, lo ≤ i → i < hi → blank i
  | some span => Fits blank lo hi span

theorem Fills.skip (h : Fills blank lo hi current) (hblank : blank hi) :
    Fills blank lo (hi + 1) current := by
  have hlast {i : Nat} (hlt : i < hi + 1) (hbelow : i < hi → blank i) : blank i := by
    rcases Nat.lt_succ_iff_lt_or_eq.1 hlt with hlt | rfl
    · exact hbelow hlt
    · exact hblank
  cases current with
  | none => exact fun i hle hlt => hlast hlt (h i hle)
  | some span =>
    exact ⟨h.le_start, h.start_lt, Nat.le_succ_of_le h.stop_le, h.first, h.last, h.before,
      fun i hle hlt => hlast hlt (h.behind i hle)⟩

theorem Fills.extend (h : Fills blank lo hi current) (hle : lo ≤ hi) (hsolid : ¬ blank hi) :
    Fills blank lo (hi + 1) (some (Span.extend current hi (hi + 1))) := by
  have hbehind (i : Nat) (hle : hi + 1 ≤ i) (hlt : i < hi + 1) : blank i := by omega
  cases current with
  | none =>
    exact ⟨hle, Nat.lt_succ_self hi, Nat.le_refl _, hsolid, hsolid, h, hbehind⟩
  | some span =>
    have hstart := h.start_lt
    have hstop := h.stop_le
    exact ⟨h.le_start, show span.start < hi + 1 by omega, Nat.le_refl _, h.first, hsolid, h.before,
      hbehind⟩

/-- **A division** from an offset on: a gap and a comma and so on, and a
last gap up to the end. -/
inductive Divides (blank comma : Nat → Prop) (stop : Nat) : Nat → List Nat → List Span → Prop
  | last {lo : Nat} {item : Option Span} : lo ≤ stop →
      (∀ i, lo ≤ i → i < stop → ¬ comma i) → Fills blank lo stop item →
      Divides blank comma stop lo [] item.toList
  | comma {lo c : Nat} {item : Option Span} {commas : List Nat} {spans : List Span} :
      lo ≤ c → c < stop → comma c → (∀ i, lo ≤ i → i < c → ¬ comma i) →
      Fills blank lo c item → Divides blank comma stop (c + 1) commas spans →
      Divides blank comma stop lo (c :: commas) (item.getD ⟨c, c⟩ :: spans)

/-- **The items of a scan divide what is scanned.** The item so far fills
the gap up to the offset. -/
theorem exists_divides (hle : start ≤ offset) (hlen : offset + k ≤ bytes.length)
    (hlo : lo ≤ offset) (hno : ∀ i, lo ≤ i → i < offset → ¬ IsComma bytes start i)
    (hfills : Fills (IsBlank bytes start) lo offset current) :
    ∃ commas, Divides (IsBlank bytes start) (IsComma bytes start) (offset + k) lo commas
      (itemsFrom (depthAt bytes start offset) current offset
        ((marksAt bytes start offset).take k)) := by
  induction k generalizing offset lo current with
  | zero =>
    rw [List.take_zero, itemsFrom]
    exact ⟨[], .last hlo hno hfills⟩
  | succ k ih =>
    have hlt : offset < bytes.length := by omega
    have hb := List.getElem?_eq_getElem hlt
    have hnext : offset + 1 + k = offset + (k + 1) := by omega
    have hdepth : depthAt bytes start (offset + 1) = _ := depthAt_succ hle
    have hblank : _ ↔ IsBlank bytes start offset := isBlank_iff hle hlt
    have hcomma : _ ↔ IsComma bytes start offset := isComma_iff hle hlt
    rw [marksAt_cons hle hb, List.take_succ_cons, ← labelAt_eq hb]
    -- a byte that is no comma leads to the item so far behind it
    have hstep {next : Option Span} (hnot : ¬ IsComma bytes start offset)
        (hnext' : Fills (IsBlank bytes start) lo (offset + 1) next) := by
      have hno' (i : Nat) (hle : lo ≤ i) (hlt : i < offset + 1) : ¬ IsComma bytes start i := by
        rcases Nat.lt_succ_iff_lt_or_eq.1 hlt with hlt | rfl
        · exact hno i hle hlt
        · exact hnot
      exact ih (show start ≤ offset + 1 by omega) (by omega) (by omega) hno' hnext'
    rw [hnext] at hstep
    rcases itemsFrom_cons (depthAt bytes start offset) (labelAt bytes start offset) with
      ⟨hmark, hskip⟩ | ⟨hzero, hmark⟩ | ⟨hmark, hextend⟩
    · rw [hskip, ← hdepth]
      refine hstep ?_ (hfills.skip (hblank.1 hmark))
      rw [← hcomma]
      rintro ⟨-, heq⟩
      rw [heq] at hmark
      cases hmark
    · have hafter : depthAt bytes start (offset + 1) = 0 := by
        rw [hdepth, hmark, hzero]
        rfl
      have hempty : Fills (IsBlank bytes start) (offset + 1) (offset + 1) none :=
        fun i hle hlt => by omega
      obtain ⟨commas, hdivides⟩ := ih (show start ≤ offset + 1 by omega) (by omega)
        (Nat.le_refl _) (fun i hle hlt => by omega) hempty
      rw [hafter, hnext] at hdivides
      rw [hzero, hmark, itemsFrom_comma]
      exact ⟨offset :: commas, .comma hlo (by omega) (hcomma.1 ⟨hzero, hmark⟩) hno hfills hdivides⟩
    · rw [hextend, ← hdepth]
      have hsolid : ¬ IsBlank bytes start offset := by
        rw [← hblank, hmark]
        exact Bool.false_ne_true
      refine hstep ?_ (hfills.extend hlo hsolid)
      -- a comma would have ended the item
      rw [← hcomma]
      rintro ⟨hzero, heq⟩
      have hitems := hextend none 0 []
      rw [hzero, heq, itemsFrom_comma] at hitems
      cases hitems

/-! ## What a division keeps -/

/-- A gap is its item and blanks. -/
theorem Fills.covered (h : Fills blank lo hi item) (hle : lo ≤ i) (hlt : i < hi) :
    blank i ∨ ∃ span ∈ item, span.start ≤ i ∧ i < span.stop := by
  cases item with
  | none => exact .inl (h i hle hlt)
  | some span =>
    rcases Nat.lt_or_ge i span.start with hbefore | hstart
    · exact .inl (h.before i hle hbefore)
    · rcases Nat.lt_or_ge i span.stop with hstop | hbehind
      · exact .inr ⟨span, rfl, hstart, hstop⟩
      · exact .inl (h.behind i hbehind hlt)

/-- The gap of an item is not all blank. -/
theorem Fits.exists_solid (h : Fits blank lo hi span) : ∃ i, lo ≤ i ∧ i < hi ∧ ¬ blank i := by
  have hstart := h.start_lt
  have hstop := h.stop_le
  exact ⟨span.start, h.le_start, by omega, h.first⟩

namespace Divides

/-- **The commas of a division** are those between its bounds. -/
theorem mem_commas (h : Divides blank comma' stop lo commas spans) (i : Nat) :
    i ∈ commas ↔ lo ≤ i ∧ i < stop ∧ comma' i := by
  induction h with
  | last hle hno hfills =>
    refine iff_of_false List.not_mem_nil ?_
    rintro ⟨hlo, hlt, hcomma⟩
    exact hno i hlo hlt hcomma
  | @comma lo c item commas spans hlo hlt hcomma hno hfills hrest ih =>
    rw [List.mem_cons, ih]
    constructor
    · rintro (rfl | ⟨hle, hlt, hi⟩)
      · exact ⟨hlo, hlt, hcomma⟩
      · exact ⟨by omega, hlt, hi⟩
    · rintro ⟨hle, hstop, hi⟩
      rcases Nat.lt_trichotomy i c with hbelow | rfl | habove
      · exact absurd hi (hno i hle hbelow)
      · exact .inl rfl
      · exact .inr ⟨habove, hstop, hi⟩

theorem sorted (h : Divides blank comma' stop lo commas spans) : commas.Pairwise (· < ·) := by
  induction h with
  | last hle hno hfills => exact List.Pairwise.nil
  | @comma lo c item commas spans hlo hlt hcomma hno hfills hrest ih =>
    refine List.pairwise_cons.2 ⟨fun i hi => ?_, ih⟩
    exact ((hrest.mem_commas i).1 hi).1

/-- **Each span stands in its gap**, between the comma before it and the one
behind it. -/
theorem fills (h : Divides blank comma' stop lo commas spans) (hspan : spans[k]? = some span) :
    ∃ left right item, (lo :: commas.map (· + 1))[k]? = some left ∧
      (commas ++ [stop])[k]? = some right ∧ left ≤ right ∧ Fills blank left right item ∧
      span = item.getD ⟨right, right⟩ ∧ (item = none → commas[k]? = some right) := by
  induction h generalizing k with
  | @last lo item hle hno hfills =>
    cases item with
    | none => cases hspan
    | some own =>
      cases k with
      | succ k => cases hspan
      | zero =>
        cases hspan
        exact ⟨lo, stop, some span, rfl, rfl, hle, hfills, rfl, fun h => nomatch h⟩
  | @comma lo c item commas spans hlo hlt hcomma hno hfills hrest ih =>
    cases k with
    | zero =>
      cases hspan
      exact ⟨lo, c, item, rfl, rfl, hlo, hfills, rfl, fun _ => rfl⟩
    | succ k =>
      obtain ⟨left, right, item, hleft, hright, hrest⟩ := ih hspan
      exact ⟨left, right, item, hleft, hright, hrest⟩

/-- **A span has no bytes** exactly if all of its gap is blank, and then it
is the hole at the comma. -/
theorem between (h : Divides blank comma' stop lo commas spans) (hspan : spans[k]? = some span) :
    ∃ left right, (lo :: commas.map (· + 1))[k]? = some left ∧
      (commas ++ [stop])[k]? = some right ∧ left ≤ span.start ∧ span.stop ≤ right ∧
      (span.start = span.stop ↔ ∀ i, left ≤ i → i < right → blank i) ∧
      (span.start = span.stop → span = ⟨right, right⟩ ∧ commas[k]? = some right) := by
  obtain ⟨left, right, item, hleft, hright, hle, hfills, heq, hnone⟩ := h.fills hspan
  refine ⟨left, right, hleft, hright, ?_⟩
  cases item with
  | none =>
    obtain rfl : span = ⟨right, right⟩ := heq
    exact ⟨hle, Nat.le_refl _, iff_of_true rfl hfills, fun _ => ⟨rfl, hnone rfl⟩⟩
  | some own =>
    obtain rfl : span = own := heq
    have hlt := hfills.start_lt
    obtain ⟨i, hi, hlt', hsolid⟩ := hfills.exists_solid
    refine ⟨hfills.le_start, hfills.stop_le, iff_of_false (by omega) fun h => ?_, by omega⟩
    exact hsolid (h i hi hlt')

/-- A span is a hole at a comma or an item in a gap. -/
theorem hole_or_fits (h : Divides blank comma' stop lo commas spans) (hspan : span ∈ spans) :
    (∃ c ∈ commas, span = ⟨c, c⟩) ∨
    ∃ left right, (left = lo ∨ ∃ c ∈ commas, left = c + 1) ∧ (right = stop ∨ right ∈ commas) ∧
      Fits blank left right span := by
  obtain ⟨k, hk⟩ := List.getElem?_of_mem hspan
  obtain ⟨left, right, item, hleft, hright, -, hfills, heq, hnone⟩ := h.fills hk
  cases item with
  | none => exact .inl ⟨right, List.mem_of_getElem? (hnone rfl), heq⟩
  | some own =>
    obtain rfl : span = own := heq
    refine .inr ⟨left, right, ?_, ?_, hfills⟩
    · refine (List.mem_cons.1 (List.mem_of_getElem? hleft)).imp_right fun hmem => ?_
      obtain ⟨c, hc, hleft⟩ := List.mem_map.1 hmem
      exact ⟨c, hc, hleft.symm⟩
    · exact (List.mem_append.1 (List.mem_of_getElem? hright)).symm.imp_left List.mem_singleton.1

/-- **There is a span for each comma**, and one more unless all is blank
behind the last of them. -/
theorem count (h : Divides blank comma' stop lo commas spans) :
    (spans.length = commas.length ∧
      ∀ i, (commas.getLast?.map (· + 1)).getD lo ≤ i → i < stop → blank i) ∨
    (spans.length = commas.length + 1 ∧
      ∃ i, (commas.getLast?.map (· + 1)).getD lo ≤ i ∧ i < stop ∧ ¬ blank i) := by
  induction h with
  | @last lo item hle hno hfills =>
    cases item with
    | none => exact .inl ⟨rfl, hfills⟩
    | some span => exact .inr ⟨rfl, hfills.exists_solid⟩
  | @comma lo c item commas spans hlo hlt hcomma hno hfills hrest ih =>
    have hlast : ((c :: commas).getLast?.map (· + 1)).getD lo =
        (commas.getLast?.map (· + 1)).getD (c + 1) := by
      rw [List.getLast?_cons]
      cases commas.getLast? <;> rfl
    rw [hlast, List.length_cons, List.length_cons, Nat.add_right_cancel_iff,
      Nat.add_right_cancel_iff]
    exact ih

/-- **Nothing is lost**: what is in no span is blank or a comma. -/
theorem covered (h : Divides blank comma' stop lo commas spans) (hle : lo ≤ i) (hlt : i < stop) :
    blank i ∨ i ∈ commas ∨ ∃ span ∈ spans, span.start ≤ i ∧ i < span.stop := by
  induction h with
  | last hle' hno hfills =>
    rcases hfills.covered hle hlt with hblank | ⟨span, hspan, hi⟩
    · exact .inl hblank
    · exact .inr (.inr ⟨span, Option.mem_toList.2 hspan, hi⟩)
  | @comma lo c item commas spans hlo hc hcomma hno hfills hrest ih =>
    rcases Nat.lt_trichotomy i c with hbelow | rfl | habove
    · rcases hfills.covered hle hbelow with hblank | ⟨span, hspan, hi⟩
      · exact .inl hblank
      · cases hspan
        exact .inr (.inr ⟨span, List.mem_cons_self, hi⟩)
    · exact .inr (.inl List.mem_cons_self)
    · rcases ih habove with hblank | hi | ⟨span, hspan, hi⟩
      · exact .inl hblank
      · exact .inr (.inl (List.mem_cons_of_mem _ hi))
      · exact .inr (.inr ⟨span, List.mem_cons_of_mem _ hspan, hi⟩)

end Divides

/-! ## The ends of an item -/

variable {s : String}

/-- White space at a byte that is visited is blank. -/
theorem isBlank_of_isSpace (hle : start ≤ i) (hb : bytes[i]? = some b)
    (hcode : modeAt bytes start i = .code) (hspace : isSpace b = true) : IsBlank bytes start i := by
  have hlt := (List.getElem?_eq_some_iff.1 hb).1
  have hnext : modeAt bytes start (i + 1) = .code := by
    rw [modeAt_succ hle hb, hcode]
    exact next_code_of_isInert (Lexeme.isInert_of_isSpace hspace)
  rw [← isBlank_iff hle hlt, labelAt_eq hb, hcode, hnext]
  simp [Mark.isBlank, kindBetween, Mode.kind, hspace]

/-- **A text can be cut behind blanks.** -/
theorem isCut_behind_blank (hle : start ≤ i) (hlt : i + 1 < (Text.bytes s).length)
    (hblank : IsBlank (Text.bytes s) start i) (hsolid : ¬ IsBlank (Text.bytes s) start (i + 1)) :
    Text.IsCut s.toList (i + 1) := by
  have hb := List.getElem?_eq_getElem (Nat.lt_of_succ_lt hlt)
  have hb' := List.getElem?_eq_getElem hlt
  have hmark := (isBlank_iff hle (Nat.lt_of_succ_lt hlt)).2 hblank
  -- a comment would go on, and what it goes on with is blank
  have hcode : modeAt (Text.bytes s) start (i + 1) = .code := by
    refine Decidable.byContradiction fun hcode => ?_
    have hsame := kind_labelAt_succ hle (Nat.lt_of_succ_lt hlt) hcode
    rw [← isBlank_iff (Nat.le_succ_of_le hle) hlt] at hsolid
    simp only [Mark.isBlank, Bool.or_eq_true, Bool.and_eq_true, beq_iff_eq] at hmark hsolid
    rcases hmark with hkind | ⟨hkind, -⟩
    · exact hsolid (.inl (hsame.trans hkind))
    · exact hcode (code_of_kindBetween hkind).2
  simp only [Mark.isBlank, Bool.or_eq_true, Bool.and_eq_true, beq_iff_eq] at hmark
  rcases hmark with hkind | ⟨hkind, hspace⟩
  · rcases slash_or_lineFeed_of_ends hle hb hkind hcode with hslash | hfeed
    · exact (Text.isCut_of_ascii (by decide) (hslash ▸ hb)).2
    · exact absurd (isBlank_of_isSpace (by omega) hfeed hcode (by decide)) hsolid
  · rw [labelAt_eq hb] at hspace
    exact (Text.isCut_of_ascii (lt_of_isSpace hspace) hb).2

/-- **A text can be cut in front of blanks.** -/
theorem isCut_before_blank (hsolid : ¬ IsBlank (Text.bytes s) start i)
    (hblank : IsBlank (Text.bytes s) start (i + 1)) :
    Text.IsCut s.toList (i + 1) := by
  rcases hblank with ⟨depth, b, hcode, hb, hspace⟩ | ⟨j, depth, stop, hvisit, hslash, hend, hj, hi⟩
  · exact (Text.isCut_of_ascii (lt_of_isSpace hspace) hb).1
  · rcases Nat.lt_or_ge i j with hij | hji
    · -- the comment starts here
      have heq : j = i + 1 := by omega
      rw [heq] at hslash
      exact (Text.isCut_of_ascii (by decide) hslash).1
    · exact absurd (.inr ⟨j, depth, stop, hvisit, hslash, hend, hji, by omega⟩) hsolid

/-- **An item begins with no white space.** -/
theorem isSpace_first {region item : Span} (h : item ∈ items bytes region)
    (hlen : item.start ≤ bytes.length) (hsolid : ¬ IsBlank bytes region.start item.start)
    (hb : bytes[item.start]? = some b) : isSpace b = false := by
  have hbounds := bounds_of_mem_items h
  have hcode : modeAt bytes region.start item.start = .code :=
    modeAt_of_mem_items modeAt_self (Nat.le_refl _) h hlen
  refine Decidable.byContradiction fun hspace => hsolid ?_
  rw [Bool.not_eq_false] at hspace
  exact isBlank_of_isSpace hbounds.2.1 hb hcode hspace

/-- White space that is not blank is in a string. -/
theorem kind_of_isSpace (hle : start ≤ i) (hb : bytes[i]? = some b) (hspace : isSpace b = true)
    (hsolid : ¬ IsBlank bytes start i) : (labelAt bytes start i).kind = .text := by
  rw [← isBlank_iff hle (List.getElem?_eq_some_iff.1 hb).1, labelAt_eq hb] at hsolid
  rw [labelAt_eq hb]
  simp only [Mark.isBlank, hspace, Bool.and_true, Bool.or_eq_true, beq_iff_eq, not_or] at hsolid
  cases hkind : kindBetween (modeAt bytes start i) (modeAt bytes start (i + 1)) with
  | text => rfl
  | code => exact absurd hkind hsolid.2
  | comment => exact absurd hkind hsolid.1

/-- **Nor does it end with white space**, unless a string goes on behind
it. -/
theorem isSpace_last (hle : start ≤ i) (hb : bytes[i]? = some b)
    (hsolid : ¬ IsBlank bytes start i) (hlt : i + 1 < bytes.length)
    (hnext : IsBlank bytes start (i + 1) ∨ IsComma bytes start (i + 1)) : isSpace b = false := by
  refine Decidable.byContradiction fun hspace => ?_
  rw [Bool.not_eq_false] at hspace
  have htext := kind_of_isSpace hle hb hspace hsolid
  have hle' : start ≤ i + 1 := Nat.le_succ_of_le hle
  -- what follows is not in the string, which therefore ends with its quote
  have hother : (labelAt bytes start (i + 1)).kind ≠ .text := by
    intro hkind
    rcases hnext with hblank | hcomma
    · rw [← isBlank_iff hle' hlt] at hblank
      simp [Mark.isBlank, hkind] at hblank
    · rw [((isComma_iff hle' hlt).2 hcomma).2] at hkind
      cases hkind
  have hcode : modeAt bytes start (i + 1) = .code := by
    refine Decidable.byContradiction fun hcode => hother ?_
    rw [kind_labelAt_succ hle (Nat.lt_of_succ_lt hlt) hcode, htext]
  have hquote := isQuote_of_ends hle hb htext hcode
  simp only [isQuote, Bool.or_eq_true, beq_iff_eq] at hquote
  rcases hquote with (rfl | rfl) | rfl <;> exact absurd hspace (by decide)

/-! ## The items of a region -/

/-- **What it is for spans to be the items of a region** that its top-level
commas divide. The gaps are what stands between two commas, before the
first and behind the last one; white space is ASCII white space. -/
structure IsDivision (s : String) (region : Span) (spans : List Span) (commas : List Nat) :
    Prop where
  /-- The commas are the top-level commas of the region, in order. -/
  sorted : commas.Pairwise (· < ·)
  mem_commas : ∀ i, i ∈ commas ↔
    region.start ≤ i ∧ i < region.stop ∧ IsComma (Text.bytes s) region.start i
  /-- The spans are in order and apart from each other. -/
  increasing : spans.Pairwise (·.stop < ·.start)
  inside : ∀ span ∈ spans,
    region.start ≤ span.start ∧ span.start ≤ span.stop ∧ span.stop ≤ region.stop
  cuts : ∀ span ∈ spans, Text.IsCut s.toList span.start ∧ Text.IsCut s.toList span.stop
  /-- There is one for each comma, and one more unless all is blank behind
  the last of them. -/
  count : spans.length = commas.length ∨ spans.length = commas.length + 1
  more : spans.length = commas.length + 1 ↔
    ∃ i, (commas.getLast?.map (· + 1)).getD region.start ≤ i ∧ i < region.stop ∧
      ¬ IsBlank (Text.bytes s) region.start i
  /-- Each one stands in its gap, and has no bytes exactly if all of the gap
  is blank. -/
  between : ∀ (k : Nat) (span : Span), spans[k]? = some span →
    ∃ left right, (region.start :: commas.map (· + 1))[k]? = some left ∧
      (commas ++ [region.stop])[k]? = some right ∧ left ≤ span.start ∧ span.stop ≤ right ∧
      (span.start = span.stop ↔
        ∀ i, left ≤ i → i < right → IsBlank (Text.bytes s) region.start i) ∧
      (span.start = span.stop → span = ⟨right, right⟩ ∧ commas[k]? = some right)
  /-- One that has bytes does not begin with white space, nor end with it
  unless a string runs up to the end of the region or past it. -/
  trimmed : ∀ span ∈ spans, span.start < span.stop →
    (∀ b, (Text.bytes s)[span.start]? = some b → isSpace b = false) ∧
    ((∀ b, (Text.bytes s)[span.stop - 1]? = some b → isSpace b = false) ∨
      span.stop = region.stop ∧
        ∃ stop, InString (Text.bytes s) region.start (span.stop - 1) stop ∧ region.stop ≤ stop)
  /-- What is in none of them is blank or a comma. -/
  covered : ∀ i, region.start ≤ i → i < region.stop →
    (∀ span ∈ spans, ¬ (span.start ≤ i ∧ i < span.stop)) →
    IsBlank (Text.bytes s) region.start i ∨ i ∈ commas

theorem le_of_isCut {n : Nat} (h : Text.IsCut s.toList n) : n ≤ (Text.bytes s).length := by
  obtain ⟨before, after, hs, rfl⟩ := h
  rw [Text.bytes, hs, Text.utf8_append, List.length_append]
  exact Nat.le_add_right _ _

/-- **A text can be cut at the ends of an item** if it can at those of the
gap. -/
theorem Fits.isCut (h : Fits (IsBlank (Text.bytes s) start) lo hi span) (hle : start ≤ lo)
    (hlen : hi ≤ (Text.bytes s).length) (hlo : Text.IsCut s.toList lo)
    (hhi : Text.IsCut s.toList hi) :
    Text.IsCut s.toList span.start ∧ Text.IsCut s.toList span.stop := by
  have hstart := h.le_start
  have hlt := h.start_lt
  have hstop := h.stop_le
  constructor
  · rcases Nat.eq_or_lt_of_le hstart with heq | hgt
    · rwa [← heq]
    · obtain ⟨last, hlast⟩ : ∃ last, span.start = last + 1 := ⟨span.start - 1, by omega⟩
      have hfirst := h.first
      rw [hlast] at hfirst ⊢
      exact isCut_behind_blank (by omega) (by omega) (h.before last (by omega) (by omega)) hfirst
  · rcases Nat.eq_or_lt_of_le hstop with heq | hgt
    · rwa [heq]
    · have hbehind := h.behind span.stop (Nat.le_refl _) hgt
      have hsucc : span.stop - 1 + 1 = span.stop := by omega
      rw [← hsucc] at hbehind ⊢
      exact isCut_before_blank h.last hbehind

/-- **An item that stands in a gap is trimmed.** -/
theorem Fits.isSpace_last {region : Span} (h : Fits (IsBlank bytes region.start) lo hi span)
    (hle : region.start ≤ lo) (hlen : region.stop ≤ bytes.length)
    (hhi : hi = region.stop ∨ hi < region.stop ∧ IsComma bytes region.start hi) :
    (∀ b, bytes[span.stop - 1]? = some b → isSpace b = false) ∨
      span.stop = region.stop ∧
        ∃ stop, InString bytes region.start (span.stop - 1) stop ∧ region.stop ≤ stop := by
  have hstart := h.le_start
  have hlt := h.start_lt
  have hstop := h.stop_le
  have hle' : region.start ≤ span.stop - 1 := by omega
  have hin : span.stop - 1 < bytes.length := by omega
  have hb := List.getElem?_eq_getElem hin
  rcases Nat.eq_or_lt_of_le (show span.stop ≤ region.stop by omega) with heq | hgt
  · cases hspace : isSpace bytes[span.stop - 1] with
    | false =>
      left
      intro b hb'
      rw [hb] at hb'
      cases hb'
      exact hspace
    | true =>
      obtain ⟨stop, hstring⟩ := exists_inString hle' hin (kind_of_isSpace hle' hb hspace h.last)
      obtain ⟨j, depth, quote, hvisit, hquote, hisQuote, hend, hj, hlast⟩ := hstring
      exact .inr ⟨heq, stop, ⟨j, depth, quote, hvisit, hquote, hisQuote, hend, hj, hlast⟩,
        by omega⟩
  · have hsucc : span.stop - 1 + 1 = span.stop := by omega
    have hnext : IsBlank bytes region.start span.stop ∨ IsComma bytes region.start span.stop := by
      rcases Nat.eq_or_lt_of_le hstop with heq | hbelow
      · rw [heq] at hgt ⊢
        exact .inr (hhi.elim (fun h => absurd hgt (by omega)) And.right)
      · exact .inl (h.behind span.stop (Nat.le_refl _) hbelow)
    rw [← hsucc] at hnext hgt
    exact .inl fun b hb => Literal.isSpace_last hle' hb h.last (by omega) hnext

/-- The scan of a region divides it. -/
theorem exists_divides_items {region : Span} (hle : region.start ≤ region.stop)
    (hlen : region.stop ≤ bytes.length) :
    ∃ commas, Divides (IsBlank bytes region.start) (IsComma bytes region.start) region.stop
      region.start commas (items bytes region) := by
  have hend : region.start + region.length = region.stop := by
    rw [Span.length]
    omega
  have hempty : Fills (IsBlank bytes region.start) region.start region.start none :=
    fun i hle hlt => by omega
  obtain ⟨commas, hdivides⟩ := exists_divides (Nat.le_refl _) (hend ▸ hlen) (Nat.le_refl _)
    (fun i hle hlt => by omega) hempty
  rw [depthAt_self, marksAt_self, hend] at hdivides
  exact ⟨commas, hdivides⟩

/-- A gap starts at the start of the region or behind a comma, and a text
can be cut there. -/
theorem Divides.isCut_left {region : Span} {left : Nat}
    (h : Divides (IsBlank (Text.bytes s) region.start) (IsComma (Text.bytes s) region.start)
      region.stop region.start commas spans)
    (hstart : Text.IsCut s.toList region.start)
    (hleft : left = region.start ∨ ∃ c ∈ commas, left = c + 1) :
    region.start ≤ left ∧ Text.IsCut s.toList left := by
  rcases hleft with rfl | ⟨c, hc, rfl⟩
  · exact ⟨Nat.le_refl _, hstart⟩
  · obtain ⟨hle, -, -, hcomma⟩ := (h.mem_commas c).1 hc
    exact ⟨Nat.le_succ_of_le hle, (Text.isCut_of_ascii (by decide) hcomma).2⟩

/-- It ends at the end of the region or in front of a comma. -/
theorem Divides.isCut_right {region : Span} {right : Nat}
    (h : Divides (IsBlank (Text.bytes s) region.start) (IsComma (Text.bytes s) region.start)
      region.stop region.start commas spans)
    (hstop : Text.IsCut s.toList region.stop)
    (hright : right = region.stop ∨ right ∈ commas) :
    right ≤ region.stop ∧ Text.IsCut s.toList right := by
  rcases hright with rfl | hright
  · exact ⟨Nat.le_refl _, hstop⟩
  · obtain ⟨-, hlt, -, hcomma⟩ := (h.mem_commas right).1 hright
    exact ⟨Nat.le_of_lt hlt, (Text.isCut_of_ascii (by decide) hcomma).1⟩

/-- **A text can be cut at the ends of an item**, if it can at those of the
region. -/
theorem isCut_of_mem_items {region item : Span} (hstart : Text.IsCut s.toList region.start)
    (hstop : Text.IsCut s.toList region.stop) (hle : region.start ≤ region.stop)
    (h : item ∈ items (Text.bytes s) region) :
    Text.IsCut s.toList item.start ∧ Text.IsCut s.toList item.stop := by
  have hlen := le_of_isCut hstop
  obtain ⟨commas, hdivides⟩ := exists_divides_items hle hlen
  rcases hdivides.hole_or_fits h with ⟨c, hc, rfl⟩ | ⟨left, right, hl, hr, hfits⟩
  · have hcut := (hdivides.isCut_right hstop (.inr hc)).2
    exact ⟨hcut, hcut⟩
  · obtain ⟨hle, hleft⟩ := hdivides.isCut_left hstart hl
    obtain ⟨hge, hright⟩ := hdivides.isCut_right hstop hr
    exact hfits.isCut hle (by omega) hleft hright

/-- **The items of a region are what its top-level commas divide it
into.** -/
theorem items_divide {region : Span} (hstart : Text.IsCut s.toList region.start)
    (hstop : Text.IsCut s.toList region.stop) (hle : region.start ≤ region.stop) :
    ∃ spans commas, items? (Text.bytes s) region = some spans ∧
      IsDivision s region spans commas := by
  have hlen := le_of_isCut hstop
  obtain ⟨commas, hdivides⟩ := exists_divides_items hle hlen
  refine ⟨_, commas, items?_of_le hlen, hdivides.sorted, hdivides.mem_commas, pairwise_items _ _, ?_,
    fun span hspan => isCut_of_mem_items hstart hstop hle hspan, ?_, ?_,
    fun k span hk => hdivides.between hk, ?_, ?_⟩
  · intro span hspan
    exact (bounds_of_mem_items hspan).2
  · exact hdivides.count.imp And.left And.left
  · rcases hdivides.count with ⟨hcount, hblank⟩ | ⟨hcount, hsolid⟩
    · refine iff_of_false (by omega) ?_
      rintro ⟨i, hi, hlt, hsolid⟩
      exact hsolid (hblank i hi hlt)
    · exact iff_of_true hcount hsolid
  · intro span hspan hlt
    have hbounds := bounds_of_mem_items hspan
    rcases hdivides.hole_or_fits hspan with ⟨c, -, rfl⟩ | ⟨left, right, hl, hr, hfits⟩
    · exact absurd hlt (Nat.lt_irrefl _)
    · refine ⟨fun b hb => isSpace_first hspan (by omega) hfits.first hb, ?_⟩
      refine hfits.isSpace_last (hdivides.isCut_left hstart hl).1 hlen
        (hr.imp_right fun hmem => ?_)
      exact ((hdivides.mem_commas right).1 hmem).2
  · intro i hi hlt hnone
    rcases hdivides.covered hi hlt with hblank | hcomma | ⟨span, hspan, hin⟩
    · exact .inl hblank
    · exact .inr hcomma
    · exact absurd hin (hnone span hspan)

theorem items_divide_sample :
    let s := "[é, , (b, c) /* , */, ] ,'d ,e"
    Text.IsCut s.toList 1 ∧ Text.IsCut s.toList 29 ∧
    items? (Text.bytes s) ⟨1, 29⟩ = some [⟨1, 3⟩, ⟨5, 5⟩, ⟨7, 13⟩, ⟨23, 24⟩, ⟨26, 29⟩] ∧
    ∃ spans commas, items? (Text.bytes s) ⟨1, 29⟩ = some spans ∧
      IsDivision s ⟨1, 29⟩ spans commas := by
  have hstart : Text.IsCut "[é, , (b, c) /* , */, ] ,'d ,e".toList 1 :=
    ⟨"[".toList, "é, , (b, c) /* , */, ] ,'d ,e".toList, by decide, by decide⟩
  have hstop : Text.IsCut "[é, , (b, c) /* , */, ] ,'d ,e".toList 29 :=
    ⟨"[é, , (b, c) /* , */, ] ,'d ".toList, ",e".toList, by decide, by decide⟩
  exact ⟨hstart, hstop, by decide +kernel, items_divide hstart hstop (by decide)⟩

end ConfigPatch.Literal
