import ConfigPatch.Proofs.Lexical.Replace
import ConfigPatch.Proofs.Literal.Legible
import ConfigPatch.Proofs.Text.Replacement

/-!
# A literal that a string replaces

A replacement is an exchange if the part that goes is read from code to
code and closes just what it opens, the part that comes is a string, and
what stands behind is read in the same way after both. From an offset in
front of the part whose scan arrives there in code, source and outcome
then have the same labels but for the part: brackets are closed where they
were, and the items around the part are the ones around the string.
-/

namespace ConfigPatch.Literal

open Lexical

variable {bytes : List UInt8} {start stop : Nat}

theorem byteBefore_of_le (hle : start ≤ stop) (hlen : stop ≤ bytes.length) :
    (((bytes.drop start).take (stop - start)).getLast?).or (byteBefore bytes start) =
      byteBefore bytes stop := by
  rcases Nat.eq_or_lt_of_le hle with rfl | hlt
  · simp
  · have hlast : ((bytes.drop start).take (stop - start)).getLast? = bytes[stop - 1]? := by
      rw [List.getLast?_eq_getElem?, List.length_take, List.length_drop,
        Nat.min_eq_left (by omega), List.getElem?_take_of_lt (by omega), List.getElem?_drop]
      congr 1
      omega
    have hbefore : byteBefore bytes stop = bytes[stop - 1]? := if_neg (by omega)
    have hget : bytes[stop - 1]? = some bytes[stop - 1] :=
      List.getElem?_eq_getElem (show stop - 1 < bytes.length by omega)
    rw [hlast, hbefore, hget]
    rfl

/-- A scan is that up to an offset, and one that goes on from there. -/
theorem marksFrom_eq_marksOver (hle : start ≤ stop) (hlen : stop ≤ bytes.length) :
    marksFrom bytes start =
      marksOver .code (byteBefore bytes start) bytes[stop]? ((bytes.drop start).take (stop - start)) ++
        marks (modeAfter .code (byteBefore bytes start) bytes[stop]?
          ((bytes.drop start).take (stop - start))) (byteBefore bytes stop) (bytes.drop stop) := by
  have hdrop : bytes.drop start =
      (bytes.drop start).take (stop - start) ++ bytes.drop stop := by
    have hstop : start + (stop - start) = stop := by omega
    have hparts := List.take_append_drop (stop - start) (bytes.drop start)
    rw [List.drop_drop, hstop] at hparts
    exact hparts.symm
  have hhead : (bytes.drop stop).head? = bytes[stop]? := List.head?_drop
  rw [marksFrom, ← byteBefore_of_le hle hlen, ← hhead, ← marks_append, ← hdrop]

theorem stretch_eq_marksOver (hle : start ≤ stop) (hlen : stop ≤ bytes.length) :
    stretch bytes start stop =
      marksOver .code (byteBefore bytes start) bytes[stop]?
        ((bytes.drop start).take (stop - start)) := by
  rw [stretch, marksFrom_eq_marksOver hle hlen]
  refine List.take_left' ?_
  rw [length_marksOver, List.length_take, List.length_drop]
  omega

theorem length_stretch (hle : start ≤ stop) (hlen : stop ≤ bytes.length) :
    (stretch bytes start stop).length = stop - start := by
  rw [stretch_eq_marksOver hle hlen, length_marksOver, List.length_take, List.length_drop]
  omega

/-- **A scan that arrives in code** goes on as one from there does. -/
theorem marksFrom_eq_stretch_append (hle : start ≤ stop) (hlen : stop ≤ bytes.length)
    (hcode : isCodeAt bytes start stop = true) :
    marksFrom bytes start = stretch bytes start stop ++ marksFrom bytes stop := by
  rw [isCodeAt, decide_eq_true_eq] at hcode
  rw [stretch_eq_marksOver hle hlen, marksFrom_eq_marksOver hle hlen, hcode]
  rfl

/-- The items of a region, as those in a stretch and behind it. -/
theorem items_eq_itemsFrom_stretch {limit : Nat} (hle : start ≤ stop) (hlen : stop ≤ bytes.length)
    (hlimit : stop ≤ limit) (hcode : isCodeAt bytes start stop = true) :
    items bytes ⟨start, limit⟩ =
      itemsFrom 0 none start
        (stretch bytes start stop ++ (marksFrom bytes stop).take (limit - stop)) := by
  have hlength := length_stretch hle hlen
  have hregion : limit - start = (stretch bytes start stop).length + (limit - stop) := by omega
  rw [items, Span.length, marksFrom_eq_stretch_append hle hlen hcode, hregion,
    List.take_length_add_append]

/-! ## Exchanges -/

/-- The labels of the part that goes, which starts in code. -/
def oldMarks (x : Text.Replacement) : List Mark :=
  marksOver .code (Text.utf8 x.front).getLast? (Text.utf8 x.back).head? (Text.utf8 x.old)

/-- The labels of the part that comes, as those of a string. -/
def newMarks (x : Text.Replacement) : List Mark := (Text.utf8 x.new).map (⟨·, .text⟩)

/-- The labels behind the part, where it ends in code. -/
def backMarks (x : Text.Replacement) : List Mark :=
  marks .code (some doubleQuote) (Text.utf8 x.back)

/-- **The replacement of a literal by a string.** Behind it no slash comes
next, which would be read in another way after a quote than after a
bracket. -/
structure IsExchange (x : Text.Replacement) : Prop where
  exists_new : ∃ quote inside, isQuote quote = true ∧ isInside quote inside = true ∧
    Text.utf8 x.new = inQuotes quote inside
  modeAfter_old : modeAfter .code (Text.utf8 x.front).getLast? (Text.utf8 x.back).head?
    (Text.utf8 x.old) = .code
  nested_old : Nested (oldMarks x)
  old_ne : (Text.utf8 x.old ++ Text.utf8 x.back).head? ≠ some lineFeed
  back_ne : (Text.utf8 x.back).head? ≠ some slash

/-- **A scan that leads to the part in code**: the labels from an offset
on up to the part, in the source and in the outcome. -/
structure Leads (x : Text.Replacement) (start : Nat) (ms : List Mark) : Prop where
  source : marksFrom (Text.bytes x.source) start = ms ++ (oldMarks x ++ backMarks x)
  outcome : marksFrom (Text.bytes x.outcome) start = ms ++ (newMarks x ++ backMarks x)
  length : start + ms.length = x.start

variable {x : Text.Replacement} {ms ns : List Mark} {shape : Bracket} {b : UInt8}

theorem length_oldMarks : x.start + (oldMarks x).length = x.oldStop := by
  rw [oldMarks, length_marksOver]
  rfl

theorem length_newMarks : x.start + (newMarks x).length = x.newStop := by
  rw [newMarks, List.length_map]
  rfl

namespace IsExchange

theorem newMarks_solid (h : IsExchange x) :
    newMarks x ≠ [] ∧ ∀ mark ∈ newMarks x, mark.isSolid = true := by
  obtain ⟨quote, inside, -, -, hnew⟩ := h.exists_new
  constructor
  · rw [newMarks, hnew]
    exact List.cons_ne_nil _ _
  · intro mark hmark
    obtain ⟨b, -, rfl⟩ := List.mem_map.1 hmark
    rfl

/-- The string starts with its quote. -/
theorem exists_quote (h : IsExchange x) :
    ∃ quote, isQuote quote = true ∧ (Text.bytes x.outcome)[x.start]? = some quote := by
  obtain ⟨quote, inside, hquote, -, hnew⟩ := h.exists_new
  refine ⟨quote, hquote, ?_⟩
  rw [x.bytes_outcome, hnew]
  change (_ ++ _)[(Text.utf8 x.front).length]? = _
  rw [List.getElem?_append_right (Nat.le_refl _), Nat.sub_self]
  rfl

theorem lt_newStop (h : IsExchange x) : x.start < x.newStop := by
  have hpos := List.length_pos_iff.2 h.newMarks_solid.1
  have hlen : x.start + (newMarks x).length = x.newStop := length_newMarks
  omega

/-- At the part itself. -/
theorem leads_start (h : IsExchange x) : Leads x x.start [] := by
  refine ⟨?_, ?_, rfl⟩
  · rw [x.bytes_source]
    change marksFrom _ (Text.utf8 x.front).length = _
    rw [marksFrom_append, marks_append, h.modeAfter_old]
    exact congrArg (oldMarks x ++ ·) (marks_code_eq h.back_ne)
  · obtain ⟨quote, inside, hquote, hinside, hnew⟩ := h.exists_new
    rw [x.bytes_outcome]
    change marksFrom _ (Text.utf8 x.front).length = _
    rw [marksFrom_append, marks_append, newMarks, hnew, modeAfter_inQuotes hquote hinside,
      marksOver_inQuotes hquote hinside]
    exact congrArg (_ ++ ·) (marks_code_eq h.back_ne)

end IsExchange

/-- **What leads to the part from further on** leads there from where the
scan arrives in code. -/
theorem IsExchange.leads_append (h : IsExchange x) (hleads : Leads x stop ms)
    (hcode : isCodeAt (Text.bytes x.source) start stop = true) (hle : start ≤ stop) :
    Leads x start (stretch (Text.bytes x.source) start stop ++ ms) := by
  have hstop : stop ≤ x.start := by
    have hlen := hleads.length
    omega
  have hsource : stop ≤ (Text.bytes x.source).length := by
    rw [x.length_bytes_source, Text.Replacement.oldStop]
    omega
  have houtcome : stop ≤ (Text.bytes x.outcome).length := by
    rw [x.length_bytes_outcome, Text.Replacement.newStop]
    omega
  have hbetween : ((Text.bytes x.outcome).drop start).take (stop - start) =
      ((Text.bytes x.source).drop start).take (stop - start) := by
    rw [← List.drop_take, ← List.drop_take, x.take_bytes hstop]
  have hbefore : byteBefore (Text.bytes x.outcome) start =
      byteBefore (Text.bytes x.source) start := by
    unfold byteBefore
    split
    · rfl
    · rename_i hzero
      exact x.getElem?_bytes (by omega)
  have hold := stretch_eq_marksOver hle hsource
  have hnew := stretch_eq_marksOver hle houtcome
  -- the byte ahead of the stretch is the same, or it is the quote of the string
  have hsame : isCodeAt (Text.bytes x.outcome) start stop = true ∧
      stretch (Text.bytes x.outcome) start stop = stretch (Text.bytes x.source) start stop := by
    rw [isCodeAt, decide_eq_true_eq] at hcode ⊢
    rw [hold, hnew, hbetween, hbefore]
    rcases Nat.lt_or_ge stop x.start with hlt | hge
    · rw [x.getElem?_bytes hlt]
      exact ⟨hcode, rfl⟩
    · have heq : stop = (Text.utf8 x.front).length := Nat.le_antisymm hstop hge
      obtain ⟨quote, hquote, hahead⟩ := h.exists_quote
      rw [← Nat.le_antisymm hstop hge] at hahead
      have hfeed : (Text.bytes x.source)[stop]? ≠ some lineFeed := by
        rw [x.bytes_source, heq, List.getElem?_append_right (Nat.le_refl _), Nat.sub_self,
          ← List.head?_eq_getElem?]
        exact h.old_ne
      rw [hahead]
      exact marksOver_quote hcode hfeed hquote
  refine ⟨?_, ?_, ?_⟩
  · rw [marksFrom_eq_stretch_append hle hsource hcode, hleads.source, List.append_assoc]
  · rw [marksFrom_eq_stretch_append hle houtcome hsame.1, hsame.2, hleads.outcome,
      List.append_assoc]
  · rw [List.length_append, length_stretch hle hsource]
    have hlen := hleads.length
    omega

/-- A byte that opens neither a string nor a comment is labelled as
code. -/
theorem marksFrom_cons (hb : bytes[start]? = some b) (hinert : isInert b = true) :
    marksFrom bytes start = ⟨b, .code⟩ :: marksFrom bytes (start + 1) := by
  obtain ⟨hlen, hget⟩ := List.getElem?_eq_some_iff.1 hb
  have hbefore : byteBefore bytes (start + 1) = some b := by
    rw [byteBefore, if_neg (Nat.succ_ne_zero start), Nat.add_sub_cancel, hb]
  rw [marksFrom, List.drop_eq_getElem_cons hlen, hget, marks, next_code_of_isInert hinert,
    marksFrom, hbefore]
  rfl

/-- A bracket that leads to the part. -/
theorem Leads.cons (h : Leads x (start + 1) ms) (hb : (Text.bytes x.source)[start]? = some b)
    (hinert : isInert b = true) : Leads x start (⟨b, .code⟩ :: ms) := by
  have hlt : start < x.start := by
    have hlen := h.length
    omega
  refine ⟨?_, ?_, ?_⟩
  · rw [marksFrom_cons hb hinert, h.source]
    rfl
  · rw [marksFrom_cons (by rw [x.getElem?_bytes hlt, hb]) hinert, h.outcome]
    rfl
  · rw [List.length_cons, ← h.length]
    omega

/-! ## Brackets and items around the part -/

theorem IsExchange.nested_new (h : IsExchange x) : Nested (newMarks x) :=
  nested_of_isSolid h.newMarks_solid.2

/-- **A literal that starts in front of the part** and what it is in the
outcome: it ends where it did, in front of the part or as many bytes
behind it. -/
structure Moved (x : Text.Replacement) (span span' : Span) : Prop where
  start_eq : span'.start = span.start
  stop_eq : span.stop ≤ x.start ∧ span'.stop = span.stop ∨
    ∃ n, span.stop = x.oldStop + n + 1 ∧ span'.stop = x.newStop + n + 1

/-- **The bracket that closes a literal stays.** -/
theorem IsExchange.spanAt_outcome (h : IsExchange x) (hleads : Leads x (start + 1) ms)
    {span : Span} (hspan : spanAt (Text.bytes x.source) start = .ok span) :
    ∃ span', spanAt (Text.bytes x.outcome) start = .ok span' ∧ Moved x span span' := by
  have hlen := hleads.length
  have hlt : start < x.start := by omega
  obtain ⟨hstart, shape, hopener, hclose⟩ := spanAt_eq_ok.1 hspan
  have hopener' : (Text.bytes x.outcome)[start]? = some shape.opener := by
    rw [x.getElem?_bytes hlt, hopener]
  obtain ⟨hsource, houtcome, -⟩ := hleads.cons hopener (Bracket.isInert_opener shape)
  have hopen (rest : List Mark) :
      shape.closeFrom 0 start (⟨shape.opener, .code⟩ :: ms ++ rest) =
        shape.closeFrom 1 (start + 1) (ms ++ rest) := by
    simp [Bracket.closeFrom]
  rw [hsource, hopen] at hclose
  rcases exists_closeFrom shape (start + 1) ms Nat.one_pos with
    ⟨stop, hle, hall⟩ | ⟨depth, hpos, hall⟩
  · -- the bracket that closes it stands in front of the part
    rw [hall] at hclose
    have hclose' : shape.closeFrom 0 start (marksFrom (Text.bytes x.outcome) start) =
        some span.stop := by
      rw [houtcome, hopen, hall, hclose]
    rw [Option.some.injEq] at hclose
    exact ⟨⟨start, span.stop⟩, spanAt_eq_ok.2 ⟨rfl, shape, hopener', hclose'⟩, hstart.symm,
      .inl ⟨by omega, rfl⟩⟩
  · -- the part leaves the number of open brackets as it is, whatever it is
    have hpass {part : List Mark} (hpart : Nested part) {end' : Nat}
        (hend : x.start + part.length = end') :
        shape.closeFrom depth (start + 1 + ms.length) (part ++ backMarks x) =
          (shape.closeFrom depth 0 (backMarks x)).map (· + end') := by
      have hback : shape.closeFrom depth (0 + end') (backMarks x) = _ := closeFrom_shift
      rw [hlen, hpart.closeFrom_append hpos, hend, ← hback, Nat.zero_add]
    rw [hall, hpass h.nested_old length_oldMarks] at hclose
    obtain ⟨stop, hback, hstop⟩ := Option.map_eq_some_iff.1 hclose
    have hclose' : shape.closeFrom 0 start (marksFrom (Text.bytes x.outcome) start) =
        some (stop + x.newStop) := by
      rw [houtcome, hopen, hall, hpass h.nested_new length_newMarks, hback]
      rfl
    obtain ⟨n, -, rfl⟩ := exists_of_closeFrom hback
    exact ⟨⟨start, 0 + n + 1 + x.newStop⟩, spanAt_eq_ok.2 ⟨rfl, shape, hopener', hclose'⟩,
      hstart.symm, .inr ⟨n, by omega, by dsimp only; omega⟩⟩

/-- The items of a region around the part. -/
theorem Leads.items_source (h : Leads x start ms) {n : Nat} :
    items (Text.bytes x.source) ⟨start, x.oldStop + n⟩ =
      itemsFrom 0 none start (ms ++ (oldMarks x ++ (backMarks x).take n)) := by
  have hlen := h.length
  have hold := length_oldMarks (x := x)
  have hregion : x.oldStop + n - start = ms.length + ((oldMarks x).length + n) := by omega
  rw [items, Span.length, h.source, hregion, List.take_length_add_append,
    List.take_length_add_append]

theorem Leads.items_outcome (h : Leads x start ms) {n : Nat} :
    items (Text.bytes x.outcome) ⟨start, x.newStop + n⟩ =
      itemsFrom 0 none start (ms ++ (newMarks x ++ (backMarks x).take n)) := by
  have hlen := h.length
  have hnew := length_newMarks (x := x)
  have hregion : x.newStop + n - start = ms.length + ((newMarks x).length + n) := by omega
  rw [items, Span.length, h.outcome, hregion, List.take_length_add_append,
    List.take_length_add_append]

/-- The item that the part is in, and the items behind it. -/
theorem IsExchange.exists_items_from (h : IsExchange x) {depth n : Nat} {current : Option Span}
    {head : Span} {tail : List Span} (hbegun : IsBegun x.start current)
    (hlist : itemsFrom depth current x.start (oldMarks x ++ (backMarks x).take n) = head :: tail)
    (hstart : head.start ≤ x.start) (hstop : x.oldStop ≤ head.stop)
    (hedge : head.start < x.start ∨ head.stop = x.oldStop) :
    ∃ (later : List Span) (k : Nat), head.stop = x.oldStop + k ∧
      tail = later.map (Span.shift x.oldStop) ∧
      itemsFrom depth current x.start (newMarks x ++ (backMarks x).take n) =
        ⟨head.start, x.newStop + k⟩ :: later.map (Span.shift x.newStop) := by
  have hold : x.start + (oldMarks x).length = x.oldStop := length_oldMarks
  have hnew : x.start + (newMarks x).length = x.newStop := length_newMarks
  obtain ⟨inside, current', hall, hinside, hbegun', -⟩ :=
    Lexical.exists_items depth (oldMarks x) hbegun
  rw [hold] at hall hinside hbegun'
  rw [h.nested_old.depthOver_eq] at hall
  -- no item ends in the part before the one that has it
  have hempty : inside = [] := by
    cases inside with
    | nil => rfl
    | cons first inside =>
      rw [hall, List.cons_append, List.cons.injEq] at hlist
      have hlt := hinside first List.mem_cons_self
      rw [hlist.1] at hlt
      omega
  subst hempty
  rw [hall, List.nil_append] at hlist
  rw [Fills.of_isSolid h.newMarks_solid.1 h.newMarks_solid.2, hnew]
  -- the item so far is the same in front of the part and behind it
  have hfirst : itemsFrom depth current x.start (oldMarks x) = current'.toList := by
    have hnil := hall []
    rwa [List.append_nil] at hnil
  cases current' with
  | some span =>
    obtain ⟨start', stop'⟩ := span
    have hspan : stop' ≤ x.oldStop := (hbegun' _ rfl).2
    obtain ⟨later, k, rfl, rfl, hlater⟩ := exists_items_resumed x.newStop hlist hspan hstop
    rw [extend_of_itemsFrom hstart hfirst, hlater]
    exact ⟨later, k, rfl, rfl, rfl⟩
  | none =>
    -- an item without bytes, at the comma that comes next
    have hmem : head ∈ itemsFrom depth none x.oldStop ((backMarks x).take n) := by
      rw [hlist]
      exact List.mem_cons_self
    have hle := le_start_of_mem_itemsFrom hmem
    have hzero : oldMarks x = [] := by
      refine List.eq_nil_of_length_eq_zero ?_
      omega
    have hcurrent : current = none := by
      rw [hzero, itemsFrom] at hfirst
      cases current with
      | none => rfl
      | some span => cases hfirst
    have hsame : x.start = x.oldStop := by omega
    have hhole : head = ⟨x.oldStop, x.oldStop⟩ := by
      obtain ⟨start', stop'⟩ := head
      dsimp only at hstart hstop hedge hle
      rw [Span.mk.injEq]
      omega
    subst hhole hcurrent
    obtain ⟨later, rfl, hlater⟩ := exists_items_of_hole x.start x.newStop hlist
    rw [← hsame]
    exact ⟨later, 0, rfl, rfl, hlater⟩

/-- **The items around the part.** The item that has the part is longer or
shorter in the outcome, and the ones behind it stand at other offsets. -/
theorem IsExchange.exists_items (h : IsExchange x) (hleads : Leads x start ms) {n : Nat}
    {item : Span} (hitem : item ∈ items (Text.bytes x.source) ⟨start, x.oldStop + n⟩)
    (hstart : item.start ≤ x.start) (hstop : x.oldStop ≤ item.stop)
    (hedge : item.start < x.start ∨ item.stop = x.oldStop) :
    ∃ (done later : List Span) (k : Nat), item.stop = x.oldStop + k ∧
      items (Text.bytes x.source) ⟨start, x.oldStop + n⟩ =
        done ++ item :: later.map (Span.shift x.oldStop) ∧
      items (Text.bytes x.outcome) ⟨start, x.newStop + n⟩ =
        done ++ ⟨item.start, x.newStop + k⟩ :: later.map (Span.shift x.newStop) ∧
      ∀ item ∈ done, item.stop < x.start := by
  obtain ⟨done, current, hall, hdone, hbegun, -⟩ :=
    Lexical.exists_items 0 ms (isBegun_none : IsBegun start none)
  rw [hleads.length] at hall hdone hbegun
  rw [hleads.items_source, hall] at hitem ⊢
  rw [hleads.items_outcome, hall]
  rcases List.mem_append.1 hitem with hmem | hmem
  · have hlt := hdone item hmem
    have hle : x.start ≤ x.oldStop := Nat.le_add_right _ _
    omega
  · cases hlist : itemsFrom (depthOver 0 ms) current x.start
        (oldMarks x ++ (backMarks x).take n) with
    | nil =>
      rw [hlist] at hmem
      cases hmem
    | cons head tail =>
      have hhead : head = item := by
        rw [hlist] at hmem
        rcases List.mem_cons.1 hmem with heq | hmem
        · exact heq.symm
        · have hlt := lt_start_of_mem_tail hlist hmem
          omega
      subst hhead
      obtain ⟨later, k, hk, rfl, hlater⟩ :=
        h.exists_items_from hbegun hlist hstart hstop hedge
      exact ⟨done, later, k, hk, rfl, by rw [hlater], hdone⟩

end ConfigPatch.Literal
