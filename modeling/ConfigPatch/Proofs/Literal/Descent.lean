import ConfigPatch.Proofs.Literal.Exchange
import ConfigPatch.Proofs.Literal.Local

/-!
# Walking to the literal that is replaced

A walk that leads to the part of an exchange leads to the string in the
outcome. Each literal on the way has a counterpart there, which starts at
the same offset and ends as many bytes behind the part, and a step between
two literals is a step between their counterparts: the item around the
part is still there, no item before it has changed, and no item behind it
has got another key.
-/

namespace ConfigPatch.Literal

open Lexical

variable {x : Text.Replacement} {s : String} {p : Path} {ms : List Mark}
variable {start n : Nat} {span inner inner' item : Span} {name : String}

/-- **A literal on the way to the part** and what it is in the outcome. -/
inductive Counterpart (x : Text.Replacement) : Span → Span → Prop where
  /-- The part itself. -/
  | part : Counterpart x ⟨x.start, x.oldStop⟩ ⟨x.start, x.newStop⟩
  /-- A mapping or a sequence around the part. -/
  | around (start n : Nat) (ms : List Mark) (shape : Bracket) (hleads : Leads x (start + 1) ms)
      (hshape : shape ≠ .round) (hopener : (Text.bytes x.source)[start]? = some shape.opener) :
      Counterpart x ⟨start, x.oldStop + n + 1⟩ ⟨start, x.newStop + n + 1⟩

namespace Counterpart

theorem bounds (hinner : Counterpart x inner inner') :
    inner.start ≤ x.start ∧ x.oldStop ≤ inner.stop ∧ inner'.start = inner.start ∧
      (inner.start < x.start ∨ inner.start = x.start ∧ inner.stop = x.oldStop) := by
  cases hinner with
  | part => exact ⟨Nat.le_refl _, Nat.le_refl _, rfl, .inr ⟨rfl, rfl⟩⟩
  | around start n ms shape hleads =>
    have hlen := hleads.length
    dsimp only
    omega

/-- The counterpart ends as many bytes behind the part. -/
theorem stop_eq (hinner : Counterpart x inner inner') {k : Nat}
    (hk : inner.stop = x.oldStop + k) : inner' = ⟨inner.start, x.newStop + k⟩ := by
  cases hinner with
  | part =>
    have hzero : k = 0 := by
      dsimp only at hk
      omega
    rw [hzero]
    rfl
  | around start n ms shape hleads =>
    dsimp only at hk ⊢
    rw [Span.mk.injEq]
    omega

/-- The byte at its start is the quote of the string, or a bracket. -/
theorem exists_first (hinner : Counterpart x inner inner') (h : IsExchange x) :
    ∃ b, (Text.bytes x.outcome)[inner.start]? = some b ∧ isSpace b = false ∧ b ≠ slash := by
  cases hinner with
  | part =>
    obtain ⟨quote, hquote, hfirst⟩ := h.exists_quote
    simp only [isQuote, Bool.or_eq_true, beq_iff_eq] at hquote
    refine ⟨quote, hfirst, ?_⟩
    rcases hquote with (rfl | rfl) | rfl <;> decide
  | around start n ms shape hleads hshape hopener =>
    have hlen := hleads.length
    refine ⟨shape.opener, ?_, ?_⟩
    · rw [x.getElem?_bytes (show start < x.start by omega), hopener]
    · cases shape <;> decide

end Counterpart

/-- The region inside of a literal around the part. -/
theorem inner_around (hstart : start < x.start) :
    Span.inner ⟨start, x.oldStop + n + 1⟩ = ⟨start + 1, x.oldStop + n⟩ ∧
      Span.inner ⟨start, x.newStop + n + 1⟩ = ⟨start + 1, x.newStop + n⟩ := by
  have hold : x.start ≤ x.oldStop := Nat.le_add_right _ _
  have hnew : x.start ≤ x.newStop := Nat.le_add_right _ _
  constructor <;>
  · rw [Span.inner, Span.mk.injEq]
    dsimp only
    omega

theorem opener?_eq {bytes : List UInt8} {stop : Nat} (h : start < stop) :
    Span.opener? bytes ⟨start, stop⟩ = bytes[start]? := by
  rw [Span.opener?, Span.isEmpty, if_neg]
  rw [beq_iff_eq]
  dsimp only
  omega

/-- **A value is narrowed to the counterpart** of what it was narrowed
to. -/
theorem IsExchange.narrow_outcome (h : IsExchange x) (hinner : Counterpart x inner inner') {k : Nat}
    (hedge : inner.start < x.start ∨ k = 0)
    (hnarrow : narrow (Text.bytes x.source) ⟨inner.start, x.oldStop + k⟩ = .ok inner) :
    narrow (Text.bytes x.outcome) ⟨inner.start, x.newStop + k⟩ = .ok inner' := by
  have hlt := h.lt_newStop
  have hbounds := hinner.bounds
  have hold : x.start ≤ x.oldStop := Nat.le_add_right _ _
  cases hinner with
  | part =>
    have hzero : k = 0 := hedge.resolve_left (Nat.lt_irrefl _)
    subst hzero
    obtain ⟨quote, hquote, hfirst⟩ := h.exists_quote
    have hno : Bracket.ofOpener? quote = none := by
      simp only [isQuote, Bool.or_eq_true, beq_iff_eq] at hquote
      rcases hquote with (rfl | rfl) | rfl <;> rfl
    rw [narrow, opener?_eq (show x.start < x.newStop + 0 from hlt), hfirst, Option.bind_some, hno]
    rfl
  | around start n ms shape hleads hshape hopener =>
    have hlen := hleads.length
    have hfirst : (Text.bytes x.outcome)[start]? = some shape.opener := by
      rw [x.getElem?_bytes (by omega), hopener]
    have hof : Bracket.ofOpener? shape.opener = some shape := Bracket.ofOpener?_eq_some.2 rfl
    dsimp only at hnarrow ⊢
    rw [narrow, opener?_eq (by omega), hopener, Option.bind_some, hof] at hnarrow
    rw [narrow, opener?_eq (by omega), hfirst, Option.bind_some, hof]
    have hspan : spanAt (Text.bytes x.source) start = .ok ⟨start, x.oldStop + n + 1⟩ := by
      cases shape with
      | brace => exact hnarrow
      | square => exact hnarrow
      | round => exact absurd rfl hshape
    obtain ⟨⟨start', stop'⟩, houtcome, hmoved⟩ := h.spanAt_outcome hleads hspan
    have hstart := hmoved.start_eq
    have hstop := hmoved.stop_eq
    dsimp only at hstart hstop
    have hsame : Span.mk start' stop' = ⟨start, x.newStop + n + 1⟩ := by
      rw [Span.mk.injEq]
      rcases hstop with ⟨hbefore, -⟩ | ⟨m, hm, hm'⟩ <;> omega
    rw [hsame] at houtcome
    cases shape with
    | brace => exact houtcome
    | square => exact houtcome
    | round => exact absurd rfl hshape

/-! ## Reading the items -/

/-- An item in front of the part is read as before. -/
theorem read?_front (h : item.stop < x.start) (hle : item.start ≤ item.stop) :
    Entry.read? x.source item = Entry.read? x.outcome item := by
  refine read?_congr ?_ hle fun start stop hstop => x.slice?_congr (by omega)
  rw [x.take_bytes (show item.stop + 1 ≤ x.start from h)]

/-- The items in front of the part are read as before. -/
theorem mapM_read?_front {done : List Span}
    (h : ∀ item ∈ done, item.stop < x.start ∧ item.start ≤ item.stop) :
    done.mapM (Entry.read? x.source) = done.mapM (Entry.read? x.outcome) :=
  Failure.mapM_congr fun item hitem => read?_front (h item hitem).1 (h item hitem).2

/-- The items behind the part are read as before. -/
theorem mapM_read?_back {later : List Span} {entries : List (Option Entry)}
    (h : (later.map (Span.shift x.oldStop)).mapM (Entry.read? x.source) = .ok entries) :
    ∃ found : List (Option Entry), entries = found.map (Option.map (Entry.shift x.oldStop)) ∧
      (later.map (Span.shift x.newStop)).mapM (Entry.read? x.outcome) =
        .ok (found.map (Option.map (Entry.shift x.newStop))) := by
  have hsource (item : Span) : Entry.read? x.source (item.shift x.oldStop) =
      (Entry.read? (String.ofList x.back) item).map
        (Option.map (Entry.shift x.oldStop)) := by
    have hlen : x.oldStop = (Text.utf8 (x.front ++ x.old)).length := by
      rw [Text.utf8_append, List.length_append]
      rfl
    rw [Text.Replacement.source, ← List.append_assoc, hlen, read?_shift]
  have houtcome (item : Span) : Entry.read? x.outcome (item.shift x.newStop) =
      (Entry.read? (String.ofList x.back) item).map
        (Option.map (Entry.shift x.newStop)) := by
    have hlen : x.newStop = (Text.utf8 (x.front ++ x.new)).length := by
      rw [Text.utf8_append, List.length_append]
      rfl
    rw [Text.Replacement.outcome, ← List.append_assoc, hlen, read?_shift]
  obtain ⟨found, hfound, rfl⟩ := (Failure.mapM_map_eq_ok hsource).1 h
  exact ⟨found, rfl, (Failure.mapM_map_eq_ok houtcome).2 ⟨found, hfound, rfl⟩⟩

/-- The entries of a name among those that items were read as. -/
def named (name : String) (entries : List (Option Entry)) : List Entry :=
  (entries.filterMap id).filter (·.key == name)

theorem named_append {as bs : List (Option Entry)} :
    named name (as ++ bs) = named name as ++ named name bs := by
  rw [named, List.filterMap_append, List.filter_append]
  rfl

theorem named_append_cons {as bs : List (Option Entry)} {found : Option Entry} :
    named name (as ++ found :: bs) = named name as ++ (named name [found] ++ named name bs) := by
  rw [← named_append, ← named_append, List.singleton_append]

theorem mem_named {entries : List (Option Entry)} {entry : Entry} :
    entry ∈ named name entries ↔ some entry ∈ entries ∧ entry.key = name := by
  rw [named, List.mem_filter, List.mem_filterMap, beq_iff_eq]
  constructor
  · rintro ⟨⟨found, hfound, hentry⟩, hkey⟩
    cases hentry
    exact ⟨hfound, hkey⟩
  · rintro ⟨hfound, hkey⟩
    exact ⟨⟨some entry, hfound, rfl⟩, hkey⟩

/-- Offsets do not matter for names. -/
theorem named_shift_eq_nil {found : List (Option Entry)} (k : Nat) {k' : Nat}
    (h : named name (found.map (Option.map (Entry.shift k))) = []) :
    named name (found.map (Option.map (Entry.shift k'))) = [] := by
  rw [List.eq_nil_iff_forall_not_mem] at h ⊢
  intro entry hentry
  obtain ⟨hmem, hkey⟩ := mem_named.1 hentry
  obtain ⟨origin, horigin, hshift⟩ := List.mem_map.1 hmem
  cases origin with
  | none => cases hshift
  | some origin =>
    cases hshift
    refine h (origin.shift k) (mem_named.2 ⟨?_, hkey⟩)
    exact List.mem_map_of_mem horigin

/-- An entry of the name is the last one if none of the name stands behind
it. -/
theorem getLast?_named {as bs : List (Option Entry)} {entry : Entry} (hkey : entry.key = name)
    (hnil : named name bs = []) :
    (named name (as ++ some entry :: bs)).getLast? = some entry := by
  have hsingle : named name [some entry] = [entry] := by
    simp [named, hkey]
  rw [named_append_cons, hsingle, hnil, List.append_nil, List.getLast?_concat]

/-! ## Steps -/

theorem items_of_items? {bytes : List UInt8} {region : Span} {spans : List Span}
    (h : items? bytes region = some spans) : items bytes region = spans := by
  unfold items? at h
  split at h
  · cases h
  · exact Option.some.inj h

theorem property?_eq_ok {found : Span} : property? s span name = .ok (some found) ↔
    (span.opener? (Text.bytes s)).bind Bracket.ofOpener? = some .brace ∧
      ∃ entries entry, items? (Text.bytes s) span.inner = some (items (Text.bytes s) span.inner) ∧
        (items (Text.bytes s) span.inner).mapM (Entry.read? s) = .ok entries ∧
        (named name entries).getLast? = some entry ∧
        narrow (Text.bytes s) entry.value = .ok found := by
  unfold property?
  constructor
  · intro h
    dsimp only at h
    split at h
    · cases h
    · rename_i hbrace
      obtain ⟨spans, hspans, hread⟩ := Failure.bind_eq_ok.1 h
      rw [Failure.ofCut_eq_ok] at hspans
      have hsame := items_of_items? hspans
      subst hsame
      obtain ⟨entries, hentries, h⟩ := Failure.bind_eq_ok.1 hread
      have hnamed : entries.reduceOption.filter (·.key == name) = named name entries := rfl
      rw [hnamed] at h
      cases hlast : (named name entries).getLast? with
      | none =>
        rw [hlast] at h
        cases h
      | some entry =>
        rw [hlast] at h
        obtain ⟨span', hspan', h⟩ := Failure.bind_eq_ok.1 h
        cases h
        exact ⟨Decidable.not_not.1 hbrace, entries, entry, hspans, hentries, hlast,
          Failure.ofExcept_eq_ok.1 hspan'⟩
  · rintro ⟨hbrace, entries, entry, hspans, hentries, hlast, hnarrow⟩
    dsimp only
    rw [if_neg (not_not_intro hbrace), hspans, Failure.ofCut_some, Failure.ok_bind, hentries,
      Failure.ok_bind]
    have hnamed : entries.reduceOption.filter (·.key == name) = named name entries := rfl
    rw [hnamed, hlast]
    dsimp only
    rw [hnarrow]
    rfl

theorem item?_eq_ok {index : UInt64} {found : Span} : item? s span index = .ok (some found) ↔
    (span.opener? (Text.bytes s)).bind Bracket.ofOpener? = some .square ∧
      items? (Text.bytes s) span.inner = some (items (Text.bytes s) span.inner) ∧
      (items (Text.bytes s) span.inner)[index.toNat]? = some found := by
  unfold item?
  constructor
  · intro h
    dsimp only at h
    split at h
    · cases h
    · rename_i hsquare
      obtain ⟨spans, hspans, h⟩ := Failure.bind_eq_ok.1 h
      rw [Failure.ofCut_eq_ok] at hspans
      have hsame := items_of_items? hspans
      subst hsame
      exact ⟨Decidable.not_not.1 hsquare, hspans, Except.ok.inj h⟩
  · rintro ⟨hsquare, hspans, hfound⟩
    dsimp only
    rw [if_neg (not_not_intro hsquare), hspans, Failure.ofCut_some, Failure.ok_bind, hfound]
    rfl

/-- A value is taken as it is, or narrowed to the literal that it opens
with. -/
theorem narrow_eq_ok {bytes : List UInt8} {value found : Span}
    (h : narrow bytes value = .ok found) :
    found = value ∨ spanAt bytes value.start = .ok found := by
  unfold narrow at h
  split at h
  · exact .inr h
  · exact .inr h
  · cases h
    exact .inl rfl

/-- A value is narrowed from its start on. -/
theorem start_of_narrow {bytes : List UInt8} {value found : Span}
    (h : narrow bytes value = .ok found) : found.start = value.start := by
  rcases narrow_eq_ok h with rfl | hspan
  · rfl
  · exact (spanAt_eq_ok.1 hspan).1

/-- The inside of a literal around the part is a region in the outcome as
well. -/
theorem items?_outcome (h : IsExchange x) (hlt : start < x.start) {spans : List Span}
    (hitems : items? (Text.bytes x.source) ⟨start + 1, x.oldStop + n⟩ = some spans) :
    n ≤ (Text.utf8 x.back).length ∧
      items? (Text.bytes x.outcome) ⟨start + 1, x.newStop + n⟩ =
        some (items (Text.bytes x.outcome) ⟨start + 1, x.newStop + n⟩) := by
  have hold : x.start ≤ x.oldStop := Nat.le_add_right _ _
  have hnew := h.lt_newStop
  have hsource := x.length_bytes_source
  have houtcome := x.length_bytes_outcome
  have hn : n ≤ (Text.utf8 x.back).length := by
    unfold items? at hitems
    split at hitems
    · cases hitems
    · rename_i hfits
      dsimp only at hfits
      omega
  refine ⟨hn, items?_of_le ?_⟩
  dsimp only
  omega

/-- An entry whose value starts in an item is that item, and none of its
name stands behind it. -/
theorem eq_some_of_getLast?_named {done behind : List Span} {as bs : List (Option Entry)}
    {found : Option Entry} {entry : Entry}
    (hpairwise : (done ++ item :: behind).Pairwise (·.stop < ·.start))
    (has : done.mapM (Entry.read? s) = .ok as)
    (hbs : behind.mapM (Entry.read? s) = .ok bs)
    (hlast : (named name (as ++ found :: bs)).getLast? = some entry)
    (hle : item.start ≤ entry.value.start) (hge : entry.value.start ≤ item.stop) :
    found = some entry ∧ entry.key = name ∧ named name bs = [] := by
  rw [List.pairwise_append, List.pairwise_cons] at hpairwise
  obtain ⟨-, ⟨hitem, -⟩, hdone⟩ := hpairwise
  have hbehind : entry ∉ named name bs := by
    intro hentry
    obtain ⟨other, hother, hread⟩ := Failure.exists_of_mem_mapM hbs (mem_named.1 hentry).1
    have hbounds := read?_bounds hread
    have hlt := hitem other hother
    omega
  have hfront : entry ∉ named name as := by
    intro hentry
    obtain ⟨other, hother, hread⟩ := Failure.exists_of_mem_mapM has (mem_named.1 hentry).1
    have hbounds := read?_bounds hread
    have hlt := hdone other hother item List.mem_cons_self
    omega
  rw [named_append_cons] at hlast
  have hnil : named name bs = [] := by
    cases hend : (named name bs).getLast? with
    | none => exact List.getLast?_eq_none_iff.1 hend
    | some last =>
      rw [List.getLast?_append, List.getLast?_append, hend] at hlast
      cases hlast
      exact absurd (List.mem_of_getLast? hend) hbehind
  rw [hnil, List.append_nil] at hlast
  have hmem := List.mem_append.1 (List.mem_of_getLast? hlast)
  obtain ⟨hfound, hkey⟩ := mem_named.1 (hmem.resolve_left hfront)
  exact ⟨(List.mem_singleton.1 hfound).symm, hkey, hnil⟩

/-- **A step to a property** leads to the counterpart. -/
theorem IsExchange.property?_outcome (h : IsExchange x) (hleads : Leads x (start + 1) ms)
    (hinner : Counterpart x inner inner')
    (hfound : property? x.source ⟨start, x.oldStop + n + 1⟩ name = .ok (some inner))
    (hitem : item ∈ items (Text.bytes x.source) (Span.inner ⟨start, x.oldStop + n + 1⟩))
    (hstart : item.start ≤ inner.start) (hstop : inner.stop ≤ item.stop)
    (hedge : inner.start < x.start ∨ item.stop = x.oldStop) :
    property? x.outcome ⟨start, x.newStop + n + 1⟩ name = .ok (some inner') := by
  have hlt : start < x.start := by
    have hlen := hleads.length
    omega
  have hold : x.start ≤ x.oldStop := Nat.le_add_right _ _
  have hnew := h.lt_newStop
  obtain ⟨hle, hbehind, -, -⟩ := hinner.bounds
  obtain ⟨hbrace, entries, entry, hitems, hread, hlast, hnarrow⟩ := property?_eq_ok.1 hfound
  rw [opener?_eq (by omega)] at hbrace
  rw [(inner_around hlt).1] at hitem hitems hread
  obtain ⟨hn, hitems'⟩ := items?_outcome h hlt hitems
  have hbounds := bounds_of_mem_items hitem
  dsimp only at hbounds
  have hpairwise := pairwise_items (Text.bytes x.source) ⟨start + 1, x.oldStop + n⟩
  obtain ⟨done, later, k, hk, hsource, houtcome, hdone⟩ :=
    h.exists_items hleads hitem (by omega) (by omega) (hedge.imp_left fun hlt => by omega)
  rw [hsource] at hread hpairwise
  obtain ⟨as, rest, has, hrest, rfl⟩ := Failure.mapM_append_eq_ok.1 hread
  obtain ⟨found, bs, hfirst, hbs, rfl⟩ := Failure.mapM_cons_eq_ok.1 hrest
  have hvalue := start_of_narrow hnarrow
  obtain ⟨rfl, hkey, hnil⟩ := eq_some_of_getLast?_named hpairwise has hbs hlast
    (by omega) (by omega)
  obtain ⟨cs, rfl, hcs⟩ := mapM_read?_back hbs
  -- the items in front, the one around the part, and those behind
  have hfront (other : Span) (hother : other ∈ done) :
      other.stop < x.start ∧ other.start ≤ other.stop := by
    have hmem : other ∈ items (Text.bytes x.source) ⟨start + 1, x.oldStop + n⟩ := by
      rw [hsource]
      exact List.mem_append_left _ hother
    exact ⟨hdone other hother, (bounds_of_mem_items hmem).2.2.1⟩
  rw [mapM_read?_front hfront] at has
  obtain ⟨b, hb, hspace, hslash⟩ := hinner.exists_first h
  have hitemEq : item = ⟨item.start, x.oldStop + k⟩ := by
    rw [← hk]
  have hstopEq := (read?_bounds hfirst).2.2
  rw [hitemEq] at hfirst
  have hfirst' : Entry.read? x.outcome ⟨item.start, x.newStop + k⟩ =
      .ok (some ⟨entry.key, ⟨entry.value.start, x.newStop + k⟩⟩) := by
    refine read?_around hfirst (by omega) ?_ hspace hslash hnew (by omega)
    rw [← hvalue]
    exact hb
  have hvalueEq : entry.value = ⟨inner.start, x.oldStop + k⟩ := by
    rw [hvalue, ← hk, ← hstopEq]
  rw [hvalueEq] at hnarrow
  have hnarrow' := h.narrow_outcome hinner (hedge.imp_right fun heq => by omega) hnarrow
  refine property?_eq_ok.2 ⟨?_, as ++ some ⟨entry.key, ⟨inner.start, x.newStop + k⟩⟩ ::
    cs.map (Option.map (Entry.shift x.newStop)), ⟨entry.key, ⟨inner.start, x.newStop + k⟩⟩, ?_⟩
  · rw [opener?_eq (by omega), x.getElem?_bytes hlt, hbrace]
  · rw [(inner_around hlt).2, houtcome]
    rw [← hvalue] at hfirst'
    refine ⟨by rw [← houtcome]; exact hitems', ?_, ?_, hnarrow'⟩
    · exact Failure.mapM_append_eq_ok.2 ⟨as, _, has,
        Failure.mapM_cons_eq_ok.2 ⟨_, _, hfirst', hcs, rfl⟩, rfl⟩
    · exact getLast?_named hkey (named_shift_eq_nil _ hnil)

/-- **A step to an index** leads to the counterpart. -/
theorem IsExchange.item?_outcome (h : IsExchange x) (hleads : Leads x (start + 1) ms)
    (hinner : Counterpart x inner inner') {index : UInt64}
    (hfound : item? x.source ⟨start, x.oldStop + n + 1⟩ index = .ok (some inner))
    (hitem : item ∈ items (Text.bytes x.source) (Span.inner ⟨start, x.oldStop + n + 1⟩))
    (hstart : item.start ≤ inner.start) (hstop : inner.stop ≤ item.stop)
    (hedge : inner.start < x.start ∨ item.stop = x.oldStop) :
    item? x.outcome ⟨start, x.newStop + n + 1⟩ index = .ok (some inner') := by
  have hlt : start < x.start := by
    have hlen := hleads.length
    omega
  have hold : x.start ≤ x.oldStop := Nat.le_add_right _ _
  have hnew := h.lt_newStop
  obtain ⟨hle, hbehind, -, -⟩ := hinner.bounds
  obtain ⟨hsquare, hitems, hget⟩ := item?_eq_ok.1 hfound
  rw [opener?_eq (by omega)] at hsquare
  rw [(inner_around hlt).1] at hitem hitems hget
  obtain ⟨hn, hitems'⟩ := items?_outcome h hlt hitems
  have hpairwise := pairwise_items (Text.bytes x.source) ⟨start + 1, x.oldStop + n⟩
  obtain ⟨done, later, k, hk, hsource, houtcome, hdone⟩ :=
    h.exists_items hleads hitem (by omega) (by omega) (hedge.imp_left fun hlt => by omega)
  rw [hsource] at hget hpairwise
  rw [List.pairwise_append, List.pairwise_cons] at hpairwise
  obtain ⟨-, ⟨hlater, -⟩, -⟩ := hpairwise
  -- it is the item around the part, since the others end before or start behind
  have hindex : index.toNat = done.length := by
    rcases Nat.lt_trichotomy index.toNat done.length with hlt | heq | hgt
    · rw [List.getElem?_append_left hlt] at hget
      have hbefore := hdone inner (List.mem_of_getElem? hget)
      omega
    · exact heq
    · obtain ⟨m, hm⟩ : ∃ m, index.toNat - done.length = m + 1 :=
        ⟨index.toNat - done.length - 1, by omega⟩
      rw [List.getElem?_append_right (Nat.le_of_lt hgt), hm, List.getElem?_cons_succ] at hget
      have hafter := hlater inner (List.mem_of_getElem? hget)
      omega
  rw [hindex, List.getElem?_append_right (Nat.le_refl _), Nat.sub_self,
    List.getElem?_cons_zero, Option.some.injEq] at hget
  subst hget
  refine item?_eq_ok.2 ⟨?_, ?_, ?_⟩
  · rw [opener?_eq (by omega), x.getElem?_bytes hlt, hsquare]
  · rw [(inner_around hlt).2]
    exact hitems'
  · rw [(inner_around hlt).2, houtcome, hindex, List.getElem?_append_right (Nat.le_refl _),
      Nat.sub_self, List.getElem?_cons_zero, hinner.stop_eq hk]

theorem down_eq_ok {step : Step} {outer : Span} : down s p outer step = .ok inner ↔
    (match step.segment with
      | .property name => property? s outer name
      | .index index => item? s outer index) = .ok (some inner) := by
  obtain ⟨previous, segment, isLast⟩ := step
  unfold down
  cases segment with
  | property | index =>
    dsimp only
    rw [Failure.bind_eq_ok]
    constructor
    · rintro ⟨found, hfound, h⟩
      cases found with
      | none => cases h
      | some span =>
        cases h
        exact hfound
    · intro h
      exact ⟨some inner, h, rfl⟩

/-- **A step leads to the counterpart.** -/
theorem IsExchange.down_outcome (h : IsExchange x) (hleads : Leads x (start + 1) ms)
    (hinner : Counterpart x inner inner') {step : Step}
    (hdown : down x.source p ⟨start, x.oldStop + n + 1⟩ step = .ok inner)
    (hitem : item ∈ items (Text.bytes x.source) (Span.inner ⟨start, x.oldStop + n + 1⟩))
    (hstart : item.start ≤ inner.start) (hstop : inner.stop ≤ item.stop)
    (hedge : inner.start < x.start ∨ item.stop = x.oldStop) :
    down x.outcome p ⟨start, x.newStop + n + 1⟩ step = .ok inner' := by
  rw [down_eq_ok] at hdown ⊢
  obtain ⟨previous, segment, isLast⟩ := step
  cases segment with
  | property name => exact h.property?_outcome hleads hinner hdown hitem hstart hstop hedge
  | index index => exact h.item?_outcome hleads hinner hdown hitem hstart hstop hedge

theorem getElem?_of_opener? {bytes : List UInt8} {shape : Bracket}
    (h : (span.opener? bytes).bind Bracket.ofOpener? = some shape) :
    bytes[span.start]? = some shape.opener := by
  unfold Span.opener? at h
  split at h
  · cases h
  · obtain ⟨b, hb, hshape⟩ := Option.bind_eq_some_iff.1 h
    rw [hb, Bracket.ofOpener?_eq_some.1 hshape]

/-- A step starts from a mapping or a sequence. -/
theorem exists_opener_of_down {step : Step} {outer : Span}
    (h : down s p outer step = .ok inner) :
    ∃ shape : Bracket, shape ≠ .round ∧ (Text.bytes s)[outer.start]? = some shape.opener := by
  rw [down_eq_ok] at h
  obtain ⟨previous, segment, isLast⟩ := step
  cases segment with
  | property name => exact ⟨.brace, by decide, getElem?_of_opener? (property?_eq_ok.1 h).1⟩
  | index index => exact ⟨.square, by decide, getElem?_of_opener? (item?_eq_ok.1 h).1⟩

/-! ## Walks -/

/-- Items lie within the brackets. -/
theorem bounds_of_mem_items_inner {bytes : List UInt8} {outer : Span}
    (h : item ∈ items bytes outer.inner) :
    outer.start + 1 ≤ item.start ∧ item.start ≤ item.stop ∧ item.stop + 1 ≤ outer.stop := by
  have hbounds := bounds_of_mem_items h
  rw [Span.inner] at hbounds
  dsimp only at hbounds
  omega

/-- **A walk leads to the string** where it led to the part. -/
theorem IsExchange.foldlM_outcome (h : IsExchange x) {outer : Span} {steps : List Step}
    (hne : steps ≠ []) (hwalk : steps.foldlM (down x.source p) outer = .ok ⟨x.start, x.oldStop⟩)
    (hlegible : isLegibleFrom x.source p outer steps = true) :
    ∃ n ms, outer.stop = x.oldStop + n + 1 ∧ Leads x (outer.start + 1) ms ∧
      steps.foldlM (down x.outcome p) ⟨outer.start, x.newStop + n + 1⟩ =
        .ok ⟨x.start, x.newStop⟩ := by
  induction steps generalizing outer with
  | nil => exact absurd rfl hne
  | cons step steps ih =>
    rw [List.foldlM_cons] at hwalk
    obtain ⟨inner, hdown, hinner⟩ := Failure.bind_eq_ok.1 hwalk
    rw [isLegibleFrom, hdown] at hlegible
    dsimp only at hlegible
    rw [Bool.and_eq_true, isWithin, Bool.and_eq_true] at hlegible
    obtain ⟨⟨hcode, hany⟩, hrest⟩ := hlegible
    obtain ⟨item, hitem, hcover⟩ := List.any_eq_true.1 hany
    rw [decide_eq_true_eq] at hcover
    obtain ⟨hstart, hstop⟩ := hcover
    have hbounds := bounds_of_mem_items_inner hitem
    obtain ⟨start, stop⟩ := outer
    dsimp only at hbounds hcode ⊢
    cases steps with
    | nil =>
      -- the last step leads to the part
      cases hinner
      rw [if_pos List.isEmpty_nil, isReplaceable, Bool.and_eq_true, Bool.and_eq_true] at hrest
      obtain ⟨last, hlast, hends⟩ := List.any_eq_true.1 hrest.1.1
      rw [decide_eq_true_eq] at hends
      dsimp only at hstart hstop hcode hends
      obtain ⟨n, rfl⟩ : ∃ n, stop = x.oldStop + n + 1 := ⟨stop - x.oldStop - 1, by omega⟩
      have hleads := h.leads_append h.leads_start hcode (by omega)
      have houtcome := h.down_outcome hleads .part hdown hlast hends.1 (Nat.le_of_eq hends.2.symm)
        (.inr hends.2)
      refine ⟨n, _, rfl, hleads, ?_⟩
      rw [List.foldlM_cons, houtcome]
      rfl
    | cons next steps =>
      rw [if_neg (by simp)] at hrest
      -- from the inner literal on the walk leads to the part; the step goes to that literal
      obtain ⟨m, ns, hend, hleads, houtcome⟩ := ih (List.cons_ne_nil _ _) hinner hrest
      rw [List.foldlM_cons] at hinner
      obtain ⟨other, hnext, -⟩ := Failure.bind_eq_ok.1 hinner
      obtain ⟨shape, hshape, hopener⟩ := exists_opener_of_down hnext
      obtain ⟨inner, innerStop⟩ := inner
      dsimp only at hstart hstop hend hleads houtcome hopener hcode
      subst hend
      have hlen := hleads.length
      obtain ⟨n, rfl⟩ : ∃ n, stop = x.oldStop + n + 1 := ⟨stop - x.oldStop - 1, by omega⟩
      have hbracket := hleads.cons hopener (Bracket.isInert_opener shape)
      have hleads' := h.leads_append hbracket hcode (by omega)
      have hdown' := h.down_outcome hleads' (.around inner m ns shape hleads hshape hopener) hdown
        hitem hstart hstop (.inl (by dsimp only; omega))
      refine ⟨n, _, rfl, hleads', ?_⟩
      rw [List.foldlM_cons, hdown']
      exact houtcome

end ConfigPatch.Literal
