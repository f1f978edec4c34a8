import ConfigPatch.Proofs.Literal.Replaceable

/-!
# The mapping of a file after an exchange

An exchange in the mapping that a file exports leaves the mapping where it
is. The same statement is preferred, the same blanks stand in front of the
literal, and each pair of parentheses around the mapping opens where it
did. So the part is found again by the path it was found by.
-/

namespace ConfigPatch.Literal

open Lexical

variable {x : Text.Replacement} {options : Options} {s : String} {p : Path} {ms : List Mark}
variable {offset limit limit' stop layers m : Nat} {b : UInt8} {span span' found : Span}

/-! ## Parentheses -/

/-- Skipping in front of the part stops at the same place. -/
theorem triviaEnd_outcome (h : triviaEnd (Text.bytes x.source) offset limit = stop)
    (hle : offset ≤ stop) (hlt : stop < limit) (hlt' : stop < limit') (hstop : stop < x.start)
    (hb : (Text.bytes x.source)[stop]? = some b) (hspace : isSpace b = false) (hslash : b ≠ slash) :
    triviaEnd (Text.bytes x.outcome) offset limit' = stop := by
  have hlen := (List.getElem?_eq_some_iff.1 hb).1
  refine triviaEnd_replace h hle hlt hlt' hlen (x.take_bytes (Nat.le_of_lt hstop)) ?_ hspace hslash
  rw [x.getElem?_bytes hstop, hb]

/-- A literal opens with its bracket. -/
theorem exists_opener_of_spanAt {bytes : List UInt8} (h : spanAt bytes offset = .ok span) :
    span.start = offset ∧ ∃ shape : Bracket, bytes[offset]? = some shape.opener := by
  obtain ⟨hstart, shape, hopener, -⟩ := spanAt_eq_ok.1 h
  exact ⟨hstart, shape, hopener⟩

theorem isSpace_opener (shape : Bracket) :
    isSpace shape.opener = false ∧ shape.opener ≠ slash := by
  cases shape <;> decide

/-- A span that holds a mapping is that mapping, or a pair of parentheses
with more in it. -/
theorem unwrap_succ_eq_ok {bytes : List UInt8}
    (h : unwrap bytes (layers + 1) span = .ok (some found)) :
    ((span.opener? bytes).bind Bracket.ofOpener? = some .brace ∧ found = span) ∨
      (span.opener? bytes).bind Bracket.ofOpener? = some .round := by
  cases hopener : (span.opener? bytes).bind Bracket.ofOpener? with
  | none =>
    rw [unwrap, hopener] at h
    cases h
  | some shape =>
    cases shape with
    | brace =>
      rw [unwrap, hopener] at h
      cases h
      exact .inl ⟨rfl, rfl⟩
    | square =>
      rw [unwrap, hopener] at h
      cases h
    | round => exact .inr rfl

/-- A pair of parentheses around a mapping holds blanks and a literal. -/
theorem unwrap_round_eq_ok {bytes : List UInt8}
    (hround : (span.opener? bytes).bind Bracket.ofOpener? = some .round) :
    unwrap bytes (layers + 1) span = .ok (some found) ↔
      ∃ opening inner, triviaEnd bytes span.inner.start span.inner.stop = opening ∧
        opening < span.inner.stop ∧ opening < bytes.length ∧
        spanAt bytes opening = .ok inner ∧ unwrap bytes layers inner = .ok (some found) := by
  rw [unwrap, hround]
  dsimp only
  rw [Failure.bind_eq_ok]
  constructor
  · rintro ⟨opening, hopening, h⟩
    rw [Failure.ofCut_eq_ok, triviaEnd?] at hopening
    split at hopening
    · cases hopening
    · rename_i hlen
      cases hopening
      split at h
      · cases h
      · rename_i hlt
        obtain ⟨inner, hinner, h⟩ := Failure.bind_eq_ok.1 h
        exact ⟨_, inner, rfl, by omega, by omega, Failure.ofExcept_eq_ok.1 hinner, h⟩
  · rintro ⟨opening, inner, rfl, hlt, hlen, hinner, h⟩
    refine ⟨_, Failure.ofCut_eq_ok.2 (if_neg (by omega)), ?_⟩
    rw [if_neg (by omega), Failure.bind_eq_ok]
    exact ⟨inner, Failure.ofExcept_eq_ok.2 hinner, h⟩

/-- A bracket in front of the part is the first byte of its literal. -/
theorem IsExchange.opener?_outcome (h : IsExchange x) (hmoved : Moved x span span')
    (hstart : span.start < x.start) (hopen : span.start < span.stop) :
    span'.opener? (Text.bytes x.outcome) = span.opener? (Text.bytes x.source) := by
  obtain ⟨start, stop⟩ := span
  obtain ⟨start', stop'⟩ := span'
  obtain ⟨hsame, hstop⟩ := hmoved
  have hnew := h.lt_newStop
  dsimp only at hsame hstop hstart hopen
  subst hsame
  have hopen' : start' < stop' := by
    rcases hstop with ⟨hbefore, heq⟩ | ⟨n, -, heq⟩ <;> omega
  rw [opener?_eq hopen, opener?_eq hopen', x.getElem?_bytes hstart]

/-- The region inside of a literal starts where it did, and what stands in
it in front of the part still does. -/
theorem IsExchange.inner_outcome (h : IsExchange x) (hmoved : Moved x span span')
    (hle : span.inner.start ≤ offset) (hlt : offset < span.inner.stop) (hstart : offset < x.start) :
    span.inner.start = span.start + 1 ∧ span'.inner.start = span.start + 1 ∧
      span.start < span.stop ∧ offset < span'.inner.stop := by
  obtain ⟨hsame, hstop⟩ := hmoved
  have hnew := h.lt_newStop
  unfold Span.inner at hle hlt ⊢
  dsimp only at hle hlt ⊢
  rcases hstop with ⟨hbefore, heq⟩ | ⟨n, hn, heq⟩ <;> omega

/-- **The mapping in parentheses** stays where it is, out of as many
layers. -/
theorem IsExchange.unwrap_outcome (h : IsExchange x)
    (hunwrap : unwrap (Text.bytes x.source) layers span = .ok (some found))
    (hclear : isUnwrapped (Text.bytes x.source) layers span = true)
    (hleads : Leads x (found.start + 1) ms) (hstop : found.stop = x.oldStop + m + 1) :
    ∃ ns, Leads x (span.start + 1) ns ∧ ∀ span' layers', Moved x span span' →
      x.start < span.start + layers' →
      unwrap (Text.bytes x.outcome) layers' span' = .ok (some ⟨found.start, x.newStop + m + 1⟩) := by
  have hold : x.start ≤ x.oldStop := Nat.le_add_right _ _
  have hnew := h.lt_newStop
  induction layers generalizing span with
  | zero => cases hunwrap
  | succ layers ih =>
    rcases unwrap_succ_eq_ok hunwrap with ⟨hbrace, rfl⟩ | hround
    · -- the mapping itself
      have hlen := hleads.length
      refine ⟨ms, hleads, fun span' layers' hmoved hlayers => ?_⟩
      have hsame : span' = ⟨found.start, x.newStop + m + 1⟩ := by
        obtain ⟨start', stop'⟩ := span'
        obtain ⟨hstart', hstop'⟩ := hmoved
        dsimp only at hstart' hstop'
        rw [Span.mk.injEq]
        rcases hstop' with ⟨hbefore, -⟩ | ⟨n, hn, hn'⟩ <;> omega
      obtain ⟨layers', rfl⟩ : ∃ n, layers' = n + 1 := ⟨layers' - 1, by omega⟩
      rw [unwrap, h.opener?_outcome hmoved (by omega) (by omega), hbrace, hsame]
    · obtain ⟨opening, inner, hopening, hlt, hlength, hinner, hunwrap⟩ :=
        (unwrap_round_eq_ok hround).1 hunwrap
      rw [isUnwrapped, hround] at hclear
      dsimp only at hclear
      rw [hopening, Bool.and_eq_true, hinner] at hclear
      obtain ⟨hcode, hrest⟩ := hclear
      obtain ⟨hstart, shape, hbyte⟩ := exists_opener_of_spanAt hinner
      obtain ⟨ns, hleads', hall⟩ := ih hunwrap hrest
      rw [hstart] at hleads' hall
      have hlen := hleads'.length
      have hle : span.inner.start ≤ opening := hopening ▸ (le_triviaEnd (Nat.le_max_right _ _)).1
      have hbefore : span.start + 1 ≤ opening := by
        unfold Span.inner at hle hlt
        dsimp only at hle hlt
        omega
      -- what leads on from the literal inside leads on from the parenthesis as well
      have hbracket := hleads'.cons hbyte (Bracket.isInert_opener shape)
      refine ⟨_, h.leads_append hbracket hcode hbefore, fun span' layers' hmoved hlayers => ?_⟩
      obtain ⟨hinside, hinside', hopen, hlt'⟩ := h.inner_outcome hmoved hle hlt (by omega)
      obtain ⟨n, rfl⟩ : ∃ n, layers' = n + 1 := ⟨layers' - 1, by omega⟩
      obtain ⟨inner', houtcome, hmoved'⟩ := h.spanAt_outcome hleads' hinner
      refine (unwrap_round_eq_ok ?_).2
        ⟨opening, inner', ?_, hlt', ?_, houtcome, hall inner' n hmoved' (by omega)⟩
      · rw [h.opener?_outcome hmoved (by omega) hopen, hround]
      · rw [hinside']
        rw [hinside] at hopening
        exact triviaEnd_outcome hopening hbefore hlt hlt' (by omega) hbyte
          (isSpace_opener shape).1 (isSpace_opener shape).2
      · rw [x.length_bytes_outcome, Text.Replacement.newStop]
        omega

/-! ## The exported literal -/

/-- Where the exported expression starts. -/
def Statement.body (options : Options) (statement : Statement) : Nat :=
  ((statement.wrapper? options).map Prod.snd).getD statement.stop

theorem exported_eq_ok {literal : Exported} : exported options s = .ok literal ↔
    ∃ statement opening span b, preferred? options (statements s) = some statement ∧
      triviaEnd (Text.bytes s) (statement.body options) (Text.bytes s).length = opening ∧
      (Text.bytes s)[opening]? = some b ∧ startsBody b = true ∧
      spanAt (Text.bytes s) opening = .ok span ∧
      literal = ⟨statement.convention, (statement.wrapper? options).map Prod.fst, span⟩ := by
  unfold exported
  cases hstatement : preferred? options (statements s) with
  | none =>
    constructor
    · intro h
      cases h
    · rintro ⟨statement, opening, span, b, h, -⟩
      cases h
  | some statement =>
    dsimp only
    constructor
    · intro h
      split at h
      · cases h
      · rename_i hbyte
        obtain ⟨span, hspan, h⟩ := Failure.bind_eq_ok.1 h
        cases h
        rw [Option.isNone_iff_eq_none] at hbyte
        obtain ⟨b, hb⟩ := Option.ne_none_iff_exists'.1 hbyte
        rw [Option.filter_eq_some_iff] at hb
        exact ⟨statement, _, span, b, rfl, rfl, hb.1, hb.2, hspan, rfl⟩
    · rintro ⟨statement', opening, span, b, h, rfl, hb, hbody, hspan, rfl⟩
      cases h
      change (Text.bytes s)[triviaEnd (Text.bytes s) (statement.body options) _]? = some b at hb
      rw [if_neg, Failure.bind_eq_ok]
      · exact ⟨span, hspan, rfl⟩
      · change ¬ (Option.isNone (Option.filter startsBody (Text.bytes s)[triviaEnd (Text.bytes s)
          (statement.body options) _]?)) = true
        rw [hb, Option.filter_some, if_pos hbody]
        simp

/-- The expression starts behind the words of its statement. -/
theorem Statement.start_le_body {statement : Statement} (hmem : statement ∈ statements s) :
    statement.start ≤ statement.body options := by
  obtain ⟨-, -, -, -, -, hstop, hcall⟩ := start_of_mem_statementsFrom hmem
  unfold body wrapper?
  cases hwrapper : statement.call.filter fun call => call.1 == options.factory with
  | none => exact hstop
  | some call => exact hcall call (Option.filter_eq_some_iff.1 hwrapper).1

theorem mem_of_preferred? {sts : List Statement} {statement : Statement}
    (h : preferred? options sts = some statement) : statement ∈ sts := by
  obtain ⟨-, n, -, -, hfind, -⟩ := List.findSome?_eq_some_iff.1 h
  exact List.mem_of_find?_eq_some hfind

/-- **The exported literal** opens where it did. -/
theorem IsExchange.exported_outcome (h : IsExchange x) (hmarked : IsMarked x) {literal : Exported}
    (hexported : exported options x.source = .ok literal)
    (hleads : Leads x (literal.span.start + 1) ms) :
    ∃ span, exported options x.outcome = .ok { literal with span := span } ∧
      Moved x literal.span span := by
  obtain ⟨statement, opening, span, b, hstatement, hopening, hb, hbody, hspan, rfl⟩ :=
    exported_eq_ok.1 hexported
  dsimp only at hleads ⊢
  obtain ⟨hstart, shape, hshape⟩ := exists_opener_of_spanAt hspan
  rw [hstart] at hleads
  have hlen := hleads.length
  have hlength := (List.getElem?_eq_some_iff.1 hb).1
  have hle : statement.body options ≤ opening := by
    rcases Nat.le_total (statement.body options) (Text.bytes x.source).length with hin | hout
    · rw [← hopening]
      exact (le_triviaEndFrom hin).1
    · -- behind the end of the text there is no bracket
      rw [triviaEnd, List.drop_eq_nil_of_le hout, triviaEndFrom, Nat.min_eq_right hout] at hopening
      omega
  have hbefore : statement.start ≤ statement.body options :=
    Statement.start_le_body (mem_of_preferred? hstatement)
  obtain ⟨span', houtcome, hmoved⟩ := h.spanAt_outcome hleads hspan
  refine ⟨span', exported_eq_ok.2 ⟨statement, opening, span', b, ?_, ?_, ?_, hbody, houtcome, rfl⟩,
    hmoved⟩
  · exact hmarked.preferred?_outcome hstatement (by omega)
  · refine triviaEnd_outcome hopening hle hlength ?_ (by omega) hshape (isSpace_opener shape).1
      (isSpace_opener shape).2
    rw [x.length_bytes_outcome, Text.Replacement.newStop]
    omega
  · rw [x.getElem?_bytes (by omega), hb]

/-! ## The mapping that a file exports -/

theorem root_eq_ok : root options s = .ok span ↔ ∃ literal, exported options s = .ok literal ∧
    mappingIn (Text.bytes s) literal.span = .ok (some span) := by
  unfold root
  rw [Failure.bind_eq_ok]
  constructor
  · rintro ⟨literal, hliteral, h⟩
    obtain ⟨found, hfound, h⟩ := Failure.bind_eq_ok.1 h
    cases found with
    | none => cases h
    | some found =>
      cases h
      exact ⟨literal, Failure.ofExcept_eq_ok.1 hliteral, hfound⟩
  · rintro ⟨literal, hliteral, h⟩
    exact ⟨literal, Failure.ofExcept_eq_ok.2 hliteral, Failure.bind_eq_ok.2 ⟨some span, h, rfl⟩⟩

/-- What legible means of a file that exports a mapping. -/
theorem of_isLegible (hroot : root options s = .ok span) (h : isLegible options s p = true) :
    ∃ literal, exported options s = .ok literal ∧
      mappingIn (Text.bytes s) literal.span = .ok (some span) ∧
      isUnwrapped (Text.bytes s) ((Text.bytes s).length + 1) literal.span = true ∧
      isLegibleFrom s p span p.steps = true := by
  obtain ⟨literal, hliteral, hmapping⟩ := root_eq_ok.1 hroot
  rw [isLegible, hliteral, hroot] at h
  dsimp only at h
  rw [Bool.and_eq_true] at h
  exact ⟨literal, hliteral, hmapping, h.1, h.2⟩

/-- **The mapping around the part** is the one that the outcome exports. -/
theorem IsExchange.root_outcome (h : IsExchange x) (hmarked : IsMarked x)
    (hroot : root options x.source = .ok span) (hlegible : isLegible options x.source p = true)
    (hleads : Leads x (span.start + 1) ms) (hstop : span.stop = x.oldStop + m + 1) :
    root options x.outcome = .ok ⟨span.start, x.newStop + m + 1⟩ := by
  obtain ⟨literal, hexported, hmapping, hclear, -⟩ := of_isLegible hroot hlegible
  obtain ⟨ns, hleads', hall⟩ := h.unwrap_outcome hmapping hclear hleads hstop
  obtain ⟨span', houtcome, hmoved⟩ := h.exported_outcome hmarked hexported hleads'
  refine root_eq_ok.2 ⟨_, houtcome, hall span' _ hmoved ?_⟩
  rw [x.length_bytes_outcome, Text.Replacement.newStop]
  omega

/-! ## Paths -/

theorem find_eq_ok : find options s p = .ok span ↔ p ≠ [] ∧
    ∃ outer, root options s = .ok outer ∧ p.steps.foldlM (down s p) outer = .ok span := by
  unfold find
  cases p with
  | nil =>
    constructor
    · intro h
      cases h
    · intro h
      exact absurd rfl h.1
  | cons segment p =>
    rw [if_neg (by simp), Failure.bind_eq_ok]
    exact ⟨fun h => ⟨List.cons_ne_nil _ _, h⟩, And.right⟩

theorem steps_ne_nil (h : p ≠ []) : p.steps ≠ [] := by
  cases p with
  | nil => exact absurd rfl h
  | cons segment p => exact List.cons_ne_nil _ _

end ConfigPatch.Literal
