import ConfigPatch.Proofs.Literal.Descent
import ConfigPatch.Proofs.Literal.Statement
import ConfigPatch.Proofs.Text.Ascii

/-!
# Fences around a literal

A literal that a path leads to starts behind a bracket, a comma or a
colon, with nothing but blanks and comments between them. So the part of
an exchange stands between two marks that no export statement goes past,
and the exchange does not change what a file exports.
-/

namespace ConfigPatch.Literal

open Lexical

variable {bytes : List UInt8} {s : String} {offset limit stop : Nat} {outer inner : Span}
variable {name : String}

/-! ## Fences in front -/

theorem fenced_of_triviaEnd (h : IsFenced (bytes.take offset))
    (hstop : triviaEnd bytes offset limit = stop) (hle : offset ≤ stop) (hlt : stop < limit)
    (hlen : stop < bytes.length) :
    IsFenced (bytes.take stop) ∧ isSpace bytes[stop] = false := by
  have hskipped : ((bytes.take stop).drop offset).length = stop - offset := by
    rw [List.length_drop, List.length_take]
    omega
  have hdrop := drop_eq_of_getElem? hle (List.getElem?_eq_getElem hlen)
  have htake : bytes.take stop = bytes.take offset ++ (bytes.take stop).drop offset := by
    have hparts := List.take_append_drop offset (bytes.take stop)
    rw [List.take_take, Nat.min_eq_left hle] at hparts
    exact hparts.symm
  have hstop' : stop = offset + ((bytes.take stop).drop offset).length := by omega
  rw [Lexical.triviaEnd, hdrop] at hstop
  rw [htake]
  have hfollows : Mode.code.Follows (bytes.take offset)
      ((bytes.take stop).drop offset ++ bytes[stop] :: bytes.drop (stop + 1)).head? := h
  exact hfollows.fenced (hstop.trans hstop') (by omega)

/-- Behind a fence, blanks and comments lead to a place behind a fence. -/
theorem fenced_of_isBlank {front xs : List UInt8} {before ahead : Option UInt8}
    (h : IsFenced front) (hcode : modeAfter .code before ahead xs = .code)
    (hahead : ahead ≠ some lineFeed)
    (hblank : ∀ mark ∈ marksOver .code before ahead xs, mark.isBlank = true) :
    IsFenced (front ++ xs) := by
  -- with a quote ahead the labels are the same, and skipping stops there
  have hquote : isQuote doubleQuote = true := rfl
  obtain ⟨hmode, hmarks⟩ := marksOver_quote hcode hahead hquote
  have hall : ∀ mark ∈ marksOver .code before [doubleQuote].head? xs, mark.isBlank = true := by
    rw [List.head?_cons, hmarks]
    exact hblank
  have hskip : triviaEndFrom .code 0 (xs.length + 1) (xs ++ [doubleQuote]) = 0 + xs.length := by
    rw [triviaEndFrom_append (by simp [Mode.kind]) (by omega) hall, List.head?_cons, hmode]
    exact triviaEndFrom_stop (by decide) (by decide) (by omega)
  have hfollows : Mode.code.Follows front (xs ++ [doubleQuote]).head? := h
  exact (hfollows.fenced hskip (by omega)).1

theorem le_length_of_mem_items {region item : Span} {spans : List Span}
    (h : items? bytes region = some spans) (hitem : item ∈ items bytes region) :
    item.stop ≤ bytes.length := by
  have hbounds := bounds_of_mem_items hitem
  unfold items? at h
  split at h
  · cases h
  · rename_i hfits
    omega

/-- The value of an entry stands behind its colon. -/
theorem fenced_of_valueAfter? {keyEnd : Nat} {value : Span} (hlen : stop ≤ bytes.length)
    (h : Entry.valueAfter? bytes keyEnd stop = some value) :
    IsFenced (bytes.take value.start) ∧
      ∀ b ∈ bytes[value.start]?, isSpace b = false := by
  obtain ⟨mark, hmark, hfirst, hcolon, hsecond, hlt, hstop⟩ := valueAfter?_eq_some.1 h
  obtain ⟨hmarkLen, hget⟩ := List.getElem?_eq_some_iff.1 hcolon
  have hfence : IsFenced (bytes.take (mark + 1)) := by
    rw [List.take_succ_eq_append_getElem hmarkLen, hget]
    exact IsFenced.of_isFence (by decide)
  have hle : mark + 1 ≤ value.start := hsecond ▸ (le_triviaEnd hmark).1
  obtain ⟨hfenced, hspace⟩ := fenced_of_triviaEnd hfence hsecond hle (by omega) (by omega)
  refine ⟨hfenced, fun b hb => ?_⟩
  rw [List.getElem?_eq_getElem (by omega)] at hb
  cases hb
  exact hspace

theorem fenced_of_property? (h : property? s outer name = .ok (some inner)) :
    IsFenced ((Text.bytes s).take inner.start) ∧
      ∀ b ∈ (Text.bytes s)[inner.start]?, isSpace b = false := by
  obtain ⟨-, entries, entry, hitems, hread, hlast, hnarrow⟩ := property?_eq_ok.1 h
  obtain ⟨hmem, -⟩ := mem_named.1 (List.mem_of_getLast? hlast)
  obtain ⟨item, hitem, hentry⟩ := Failure.exists_of_mem_mapM hread hmem
  have hlen := le_length_of_mem_items hitems hitem
  rw [start_of_narrow hnarrow]
  obtain ⟨first, keyEnd, -, -, hvalue⟩ := read?_eq_ok.1 hentry
  exact fenced_of_valueAfter? hlen hvalue

/-- In code a byte that is labelled as part of an item is no blank. -/
theorem isSpace_of_isBlank {b : UInt8} {before ahead : Option UInt8}
    (h : Mark.isBlank ⟨b, kindBetween .code (Mode.next before b ahead .code)⟩ = false) :
    isSpace b = false := by
  cases hspace : isSpace b with
  | false => rfl
  | true =>
    rw [next_code_of_isInert (Lexeme.isInert_of_isSpace hspace)] at h
    simp [Mark.isBlank, kindBetween, Mode.kind, hspace] at h

/-- A stretch whose last label is of code ends in code. -/
theorem modeAfter_of_getLast? {m : Mode} {before ahead : Option UInt8} {xs : List UInt8} {b : UInt8}
    (h : (marksOver m before ahead xs).getLast? = some ⟨b, .code⟩) :
    modeAfter m before ahead xs = .code ∧ ∃ front, xs = front ++ [b] := by
  rcases List.eq_nil_or_concat xs with rfl | ⟨front, c, rfl⟩
  · cases h
  · rw [List.concat_eq_append] at h ⊢
    rw [marksOver_append, marksOver_cons, marksOver_nil, List.getLast?_concat,
      Option.some.injEq, Mark.mk.injEq] at h
    obtain ⟨rfl, hkind⟩ := h
    refine ⟨?_, front, rfl⟩
    rw [modeAfter_append, modeAfter_cons, modeAfter_nil]
    exact (code_of_kindBetween hkind).2

/-- **Blanks behind a bracket or a comma** lead to a place behind a
fence. -/
theorem fenced_of_gap {front gap : List Mark} (hle : offset + 1 ≤ stop) (hlen : stop ≤ bytes.length)
    (hopener : bytes[offset]? = some Bracket.square.opener)
    (hcode : isCodeAt bytes (offset + 1) stop = true)
    (hstretch : stretch bytes (offset + 1) stop = front ++ gap)
    (hgap : ∀ mark ∈ gap, mark.isBlank = true)
    (hfront : front = [] ∨ front.getLast? = some ⟨comma, .code⟩)
    (hahead : bytes[stop]? ≠ some lineFeed) : IsFenced (bytes.take stop) := by
  have hmarks := stretch_eq_marksOver hle hlen
  rw [isCodeAt, decide_eq_true_eq] at hcode
  have hparts : bytes.take stop = bytes.take (offset + 1) ++
      (bytes.drop (offset + 1)).take (stop - (offset + 1)) := by
    have htake := List.take_append_drop (offset + 1) (bytes.take stop)
    rw [List.take_take, Nat.min_eq_left hle, List.drop_take] at htake
    exact htake.symm
  rw [hparts]
  generalize (bytes.drop (offset + 1)).take (stop - (offset + 1)) = slice at *
  generalize byteBefore bytes (offset + 1) = before at *
  -- the bytes fall apart where their labels do
  obtain ⟨u, v, rfl, hu⟩ : ∃ u v, slice = u ++ v ∧ u.length = front.length := by
    refine ⟨slice.take front.length, slice.drop front.length,
      (List.take_append_drop _ _).symm, ?_⟩
    have hlength := congrArg List.length (hmarks.symm.trans hstretch)
    rw [length_marksOver, List.length_append] at hlength
    rw [List.length_take]
    omega
  rw [hmarks, marksOver_append] at hstretch
  obtain ⟨hfirst, hlast⟩ := List.append_inj hstretch (by rw [length_marksOver, hu])
  rw [modeAfter_append] at hcode
  have hfenced : modeAfter .code before (v.head?.or bytes[stop]?) u = .code ∧
      IsFenced (bytes.take (offset + 1) ++ u) := by
    rcases hfront with rfl | hcomma
    · have hnil : u = [] := List.eq_nil_of_length_eq_zero hu
      obtain ⟨hoffset, hbyte⟩ := List.getElem?_eq_some_iff.1 hopener
      subst hnil
      rw [List.append_nil, List.take_succ_eq_append_getElem hoffset, hbyte]
      exact ⟨rfl, IsFenced.of_isFence (by decide)⟩
    · rw [← hfirst] at hcomma
      obtain ⟨hmode, u', rfl⟩ := modeAfter_of_getLast? hcomma
      rw [← List.append_assoc]
      exact ⟨hmode, IsFenced.of_isFence (by decide)⟩
  rw [hfenced.1] at hcode hlast
  rw [← List.append_assoc]
  refine fenced_of_isBlank hfenced.2 hcode hahead ?_
  rw [hlast]
  exact hgap

/-- An item that starts where its bytes are looked for starts with no
blank. -/
theorem isSpace_of_mem_itemsFrom {depth k : Nat}
    (h : inner ∈ itemsFrom depth none inner.start ((marksFrom bytes inner.start).take k)) :
    ∀ b ∈ bytes[inner.start]?, isSpace b = false := by
  intro b hb
  obtain ⟨hlt, hget⟩ := List.getElem?_eq_some_iff.1 hb
  rcases start_of_mem_itemsFrom h with ⟨span, hspan, -⟩ | ⟨n, mark, hn, hmark, hblank⟩
  · cases hspan
  · have hzero : n = 0 := by omega
    subst hzero
    rw [← List.head?_eq_getElem?, List.head?_take, marksFrom, List.drop_eq_getElem_cons hlt,
      hget] at hmark
    split at hmark
    · cases hmark
    · cases hmark
      exact isSpace_of_isBlank hblank

/-- **An item** stands behind the bracket of its literal or a comma, and
blanks. -/
theorem fenced_of_item? {index : UInt64} (h : item? s outer index = .ok (some inner))
    (hcode : isCodeAt (Text.bytes s) (outer.start + 1) inner.start = true) :
    IsFenced ((Text.bytes s).take inner.start) ∧
      ∀ b ∈ (Text.bytes s)[inner.start]?, isSpace b = false := by
  obtain ⟨hsquare, hitems, hget⟩ := item?_eq_ok.1 h
  have hitem := List.mem_of_getElem? hget
  have hlen := le_length_of_mem_items hitems hitem
  have hbounds := bounds_of_mem_items_inner hitem
  have hopener := getElem?_of_opener? hsquare
  have hle : outer.start + 1 ≤ inner.start := by omega
  have hinner : inner.start ≤ (Text.bytes s).length := by omega
  have hregion : outer.inner = ⟨outer.start + 1, outer.stop - 1⟩ := by
    rw [Span.inner, Span.mk.injEq]
    omega
  obtain ⟨done, current, hall, hdone, hbegun, hgap⟩ :=
    exists_items 0 (stretch (Text.bytes s) (outer.start + 1) inner.start)
      (isBegun_none : IsBegun (outer.start + 1) none)
  have hend : outer.start + 1 + (inner.start - (outer.start + 1)) = inner.start := by omega
  rw [length_stretch hle hinner, hend] at hall hdone hbegun
  rw [hregion, items_eq_itemsFrom_stretch hle hinner (by omega) hcode, hall] at hitem
  rcases List.mem_append.1 hitem with hmem | hmem
  · have hlt := hdone inner hmem
    omega
  · obtain rfl := hbegun.eq_none hmem rfl
    have hspace := isSpace_of_mem_itemsFrom hmem
    obtain ⟨front, gap, hparts, hblank, hfront⟩ := hgap rfl
    refine ⟨fenced_of_gap hle hinner hopener hcode hparts hblank (hfront.imp_left And.left) ?_,
      hspace⟩
    intro hfeed
    exact absurd (hspace lineFeed hfeed) (by decide)

/-- **What a step leads to** stands behind a fence, and starts with no
blank. -/
theorem fenced_of_down {p : Path} {step : Step} (h : down s p outer step = .ok inner)
    (hcode : isCodeAt (Text.bytes s) (outer.start + 1) inner.start = true) :
    IsFenced ((Text.bytes s).take inner.start) ∧
      ∀ b ∈ (Text.bytes s)[inner.start]?, isSpace b = false := by
  rw [down_eq_ok] at h
  obtain ⟨previous, segment, isLast⟩ := step
  cases segment with
  | property name => exact fenced_of_property? h
  | index index => exact fenced_of_item? h hcode

/-- The last step of a walk in a legible text. -/
theorem exists_last_step {p : Path} {steps : List Step} (hne : steps ≠ [])
    (hwalk : steps.foldlM (down s p) outer = .ok inner)
    (hlegible : isLegibleFrom s p outer steps = true) :
    ∃ last step, down s p last step = .ok inner ∧
      isCodeAt (Text.bytes s) (last.start + 1) inner.start = true ∧
      isReplaceable (Text.bytes s) last inner = true := by
  induction steps generalizing outer with
  | nil => exact absurd rfl hne
  | cons step steps ih =>
    rw [List.foldlM_cons] at hwalk
    obtain ⟨next, hdown, hrest⟩ := Failure.bind_eq_ok.1 hwalk
    rw [isLegibleFrom, hdown] at hlegible
    dsimp only at hlegible
    rw [Bool.and_eq_true, isWithin, Bool.and_eq_true] at hlegible
    obtain ⟨⟨hcode, -⟩, hlast⟩ := hlegible
    cases steps with
    | nil =>
      cases hrest
      rw [if_pos List.isEmpty_nil] at hlast
      exact ⟨outer, step, hdown, hcode, hlast⟩
    | cons step' steps =>
      rw [if_neg (by simp)] at hlast
      exact ih (List.cons_ne_nil _ _) hrest hlast

end ConfigPatch.Literal
