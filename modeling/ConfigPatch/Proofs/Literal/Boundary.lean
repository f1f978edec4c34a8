import ConfigPatch.Proofs.Literal.Division
import ConfigPatch.Proofs.Literal.Progress

/-!
# Where the scans cut a text

Offsets count bytes, but a text can only be cut between two characters. A
scan ends next to an ASCII byte: the quote of a string, the last byte of a
comment or the line feed behind it, a blank, a bracket, a comma or a
colon. So literals, items, keys and values can be cut out. The inside of a
span that only begins with a bracket need not: the last byte of the span is
taken for the closing bracket, and may be a part of a character.
-/

namespace ConfigPatch.Literal

open Lexical

variable {s : String} {bytes : List UInt8} {start offset limit stop i : Nat} {b quote first : UInt8}
variable {span region item value found : Span}

/-! ## Spans -/

/-- **A span that can be cut out** of a text. -/
structure IsCutOut (s : String) (span : Span) : Prop where
  le : span.start ≤ span.stop
  le_length : span.stop ≤ (Text.bytes s).length
  start : Text.IsCut s.toList span.start
  stop : Text.IsCut s.toList span.stop

theorem IsCutOut.of_isCut (hle : span.start ≤ span.stop) (hstart : Text.IsCut s.toList span.start)
    (hstop : Text.IsCut s.toList span.stop) : IsCutOut s span :=
  ⟨hle, le_of_isCut hstop, hstart, hstop⟩

theorem IsCutOut.exists_slice? (h : IsCutOut s span) :
    ∃ part, Text.slice? s span.start span.stop = some part :=
  Text.exists_slice? h.start h.stop h.le

/-! ## Strings and comments -/

theorem isCut_length : Text.IsCut s.toList (Text.bytes s).length :=
  ⟨s.toList, [], (List.append_nil _).symm, rfl⟩

theorem lt_of_isQuote (h : isQuote b = true) : b < 0x80 := by
  simp only [isQuote, Bool.or_eq_true, beq_iff_eq] at h
  rcases h with (rfl | rfl) | rfl <;> decide

/-- **A text can be cut behind a string or a comment.** -/
theorem isCut_of_opaqueEnd? (h : opaqueEnd? (Text.bytes s) i = some stop) :
    Text.IsCut s.toList stop := by
  obtain ⟨hlt, hlen⟩ := bounds_of_opaqueEnd? h
  rcases Nat.eq_or_lt_of_le hlen with rfl | hmore
  · exact isCut_length
  · obtain ⟨last, rfl⟩ : ∃ last, stop = last + 1 := ⟨stop - 1, by omega⟩
    obtain ⟨-, hcode, -⟩ := (Visits.pass .start h).modeAt_eq hmore
    have hle : i ≤ last := Nat.le_of_lt_succ hlt
    have hb := List.getElem?_eq_getElem (Nat.lt_of_succ_lt hmore)
    obtain ⟨-, hkind⟩ := kind_of_passes .start (opens_of_opaqueEnd? h) h hle (Nat.lt_succ_self last)
    split at hkind
    · rcases slash_or_lineFeed_of_ends hle hb hkind hcode with hslash | hfeed
      · exact (Text.isCut_of_ascii (by decide) (hslash ▸ hb)).2
      · exact (Text.isCut_of_ascii (by decide) hfeed).1
    · exact (Text.isCut_of_ascii (lt_of_isQuote (isQuote_of_ends hle hb hkind hcode)) hb).2

/-- A mark that opens a comment opens one at the start of the text behind a
cut, where a comment is admitted. -/
theorem isCut_of_startsComment (hcut : Text.IsCut s.toList i)
    (hstarts : StartsComment (Text.bytes s) i) :
    Text.IsCut s.toList
      (i + 1 + (Mode.afterSlash (Text.bytes s)[i + 1]?).extent ((Text.bytes s).drop (i + 1))) := by
  obtain ⟨before, after, hs, rfl⟩ := hcut
  have hbytes : Text.bytes s = Text.utf8 before ++ Text.bytes (String.ofList after) := by
    rw [Text.bytes, hs, Text.utf8_append, Text.bytes, String.toList_ofList]
  have hbehind (n : Nat) : (Text.bytes s)[(Text.utf8 before).length + n]? =
      (Text.bytes (String.ofList after))[n]? := by
    rw [hbytes, List.getElem?_append_right (Nat.le_add_right _ _), Nat.add_sub_cancel_left]
  have hfirst : StartsComment (Text.bytes (String.ofList after)) 0 := by
    rw [StartsComment, ← hbehind, ← hbehind]
    exact hstarts
  have hend := opaqueEnd?_slash hfirst.1
  rw [if_pos ⟨rfl, hfirst⟩, ← hbehind] at hend
  obtain ⟨front, back, hafter, hfront⟩ := isCut_of_opaqueEnd? hend
  rw [String.toList_ofList] at hafter
  refine ⟨before ++ front, back, by rw [hs, hafter, List.append_assoc], ?_⟩
  rw [Text.utf8_append, List.length_append, hfront, hbytes, Nat.add_assoc (Text.utf8 before).length,
    List.drop_length_add_append, Nat.add_assoc]

/-- **A text can be cut behind blanks and comments.** -/
theorem isCut_triviaEnd (hlimit : Text.IsCut s.toList limit) (hcut : Text.IsCut s.toList i) :
    Text.IsCut s.toList (triviaEnd (Text.bytes s) i limit) := by
  have hlen := le_of_isCut hlimit
  induction hk : limit - i using Nat.strongRecOn generalizing i with
  | ind k ih =>
    rcases Nat.lt_or_ge i limit with hlt | hge
    · have hb := List.getElem?_eq_getElem (show i < (Text.bytes s).length by omega)
      rw [triviaEnd_eq hb hlt]
      split
      · rename_i hspace
        exact ih _ (by omega) (Text.isCut_of_ascii (lt_of_isSpace hspace) hb).2 rfl
      · split
        · rename_i hstarts
          exact ih _ (by omega) (isCut_of_startsComment hcut hstarts) rfl
        · exact hcut
    · rw [triviaEnd, triviaEndFrom_of_le hge]
      exact hlimit

/-! ## Literals -/

/-- **The inside of a mapping or a sequence** in a span, by which its items
are found, can be cut out, and ends in code. -/
def InnerFits (s : String) (span : Span) : Prop :=
  ∀ shape : Bracket, (span.opener? (Text.bytes s)).bind Bracket.ofOpener? = some shape →
    shape ≠ .round → Text.IsCut s.toList span.inner.stop ∧
      modeAt (Text.bytes s) span.inner.start span.inner.stop = .code

/-- A literal closes with a bracket of code. -/
theorem exists_closer_of_spanAt (h : spanAt bytes offset = .ok span) :
    ∃ shape : Bracket, bytes[span.start]? = some shape.opener ∧
      bytes[span.stop - 1]? = some shape.closer ∧
      modeAt bytes (span.start + 1) (span.stop - 1) = .code := by
  have hbounds := bounds_of_spanAt h
  obtain ⟨rfl, shape, hopener, hclose⟩ := spanAt_eq_ok.1 h
  obtain ⟨n, hn, hstop⟩ := getElem?_of_closeFrom hclose
  have hlast : span.stop - 1 = span.start + n := by omega
  rw [hlast]
  refine ⟨shape, hopener, ?_, ?_⟩
  · rw [← List.getElem?_drop]
    exact getElem?_of_marks hn
  · rw [← marksAt_self] at hn
    have hcode : modeAt bytes span.start (span.start + n) = .code :=
      modeAt_of_kind (Nat.le_refl _) hn rfl
    have hafter : modeAt bytes span.start (span.start + 1) = .code := by
      rw [modeAt_succ (Nat.le_refl _) hopener, modeAt_self]
      exact next_code_of_isInert (Bracket.isInert_opener shape)
    rw [← modeAt_eq hafter (by omega) (by omega) (by omega), hcode]

/-- **A literal can be cut out**, and so can its inside. -/
theorem isCutOut_of_spanAt (h : spanAt (Text.bytes s) offset = .ok span) :
    IsCutOut s span ∧ InnerFits s span := by
  obtain ⟨-, hlt, -⟩ := bounds_of_spanAt h
  obtain ⟨shape, hopener, hcloser, hcode⟩ := exists_closer_of_spanAt h
  obtain ⟨hstart, hstop⟩ := inner_eq (show span.start < span.stop by omega)
  obtain ⟨hinner, hend⟩ := Text.isCut_of_ascii shape.ascii.2 hcloser
  rw [Nat.sub_add_cancel (by omega)] at hend
  refine ⟨.of_isCut (by omega) (Text.isCut_of_ascii shape.ascii.1 hopener).1 hend,
    fun _ _ _ => ?_⟩
  rw [hstart, hstop hlt]
  exact ⟨hinner, hcode⟩

/-! ## Items -/

/-- The region that the items of a mapping or a sequence are found in. -/
theorem isCut_inner {shape : Bracket} (h : IsCutOut s span) (hinner : InnerFits s span)
    (hopener : (span.opener? (Text.bytes s)).bind Bracket.ofOpener? = some shape)
    (hshape : shape ≠ .round) :
    IsCutOut s span.inner ∧
      modeAt (Text.bytes s) span.inner.start span.inner.stop = .code := by
  have hb := getElem?_of_opener? hopener
  have hne := ne_of_opener? hopener
  have hle := h.le
  obtain ⟨hstop, hcode⟩ := hinner shape hopener hshape
  refine ⟨.of_isCut (Nat.le_max_right _ _) ?_ hstop, hcode⟩
  rw [(inner_eq (show span.start < span.stop by omega)).1]
  exact (Text.isCut_of_ascii shape.ascii.1 hb).2

theorem isCutOut_of_mem_items (h : IsCutOut s region) (hitem : item ∈ items (Text.bytes s) region) :
    IsCutOut s item := by
  obtain ⟨hstart, hstop⟩ := isCut_of_mem_items h.start h.stop h.le hitem
  exact .of_isCut (bounds_of_mem_items hitem).2.2.1 hstart hstop

/-- A blank is in no string. -/
theorem kind_of_isBlank (hle : start ≤ i) (hlt : i < bytes.length) (h : IsBlank bytes start i) :
    (modeAt bytes start i).kind ≠ .text := by
  rw [← isBlank_iff hle hlt, labelAt] at h
  intro hkind
  rw [kindBetween, if_neg (fun hcode => by rw [hcode] at hkind; cases hkind), hkind] at h
  cases h

/-- **An item ends outside of strings** where its region ends in code. -/
theorem kind_of_mem_items (hle : region.start ≤ region.stop) (hlen : region.stop ≤ bytes.length)
    (hcode : modeAt bytes region.start region.stop = .code) (h : item ∈ items bytes region) :
    (modeAt bytes item.start item.stop).kind ≠ .text := by
  have hbounds := bounds_of_mem_items h
  have hstart : modeAt bytes region.start item.start = .code :=
    modeAt_of_mem_items modeAt_self (Nat.le_refl _) h (by omega)
  rw [← modeAt_eq hstart (by omega) (by omega) (by omega)]
  obtain ⟨commas, hdivides⟩ := exists_divides_items hle hlen
  have hcomma {c : Nat} (hc : c ∈ commas) : modeAt bytes region.start c = .code := by
    obtain ⟨-, hlt, hin, -⟩ := (hdivides.mem_commas c).1 hc
    exact (hin.1.modeAt_eq (by omega)).2.1
  rcases hdivides.hole_or_fits h with ⟨c, hc, rfl⟩ | ⟨left, right, hleft, hright, hfits⟩
  · rw [hcomma hc]
    decide
  · obtain ⟨hend, hmode⟩ : right ≤ region.stop ∧ modeAt bytes region.start right = .code := by
      rcases hright with rfl | hright
      · exact ⟨Nat.le_refl _, hcode⟩
      · exact ⟨Nat.le_of_lt ((hdivides.mem_commas right).1 hright).2.1, hcomma hright⟩
    rcases Nat.eq_or_lt_of_le hfits.stop_le with heq | hlt
    · rw [heq, hmode]
      decide
    · exact kind_of_isBlank (by omega) (by omega) (hfits.behind item.stop (Nat.le_refl _) hlt)

/-! ## Keys and values -/

/-- Behind a byte of a string there is the string or code. -/
theorem kind_modeAt_succ (hle : start ≤ i) (hlt : i < bytes.length)
    (hkind : (labelAt bytes start i).kind = .text) (hnext : modeAt bytes start (i + 1) ≠ .code) :
    (modeAt bytes start (i + 1)).kind = .text := by
  rw [← hkind, labelAt]
  dsimp only
  rw [kindBetween]
  split
  · rfl
  · rename_i hcode
    rw [modeAt_succ hle (List.getElem?_eq_getElem hlt)] at hnext ⊢
    exact kind_next hcode hnext

/-- **A string in front of an offset** that is in no string ends with a
quote. -/
theorem exists_quote_of_opaqueEnd? (hb : bytes[i]? = some quote) (hquote : isQuote quote = true)
    (hlt : i < limit) (hlen : limit ≤ bytes.length) (hout : (modeAt bytes i limit).kind ≠ .text) :
    ∃ last b, opaqueEnd? bytes i = some (last + 1) ∧ last < limit ∧
      bytes[last]? = some b ∧ isQuote b = true := by
  have hend := opaqueEnd?_of_isQuote hb hquote
  rw [Nat.add_right_comm] at hend
  have hmode : modeAt bytes i (i + 1) = .quoted quote := by
    rw [modeAt_succ (Nat.le_refl i) hb, modeAt_self, Mode.next, if_pos hquote]
  have hopen : modeAt bytes i (i + 1) ≠ .code := by
    rw [hmode]
    exact Mode.noConfusion
  have hlast : i + (Mode.quoted quote).extent (bytes.drop (i + 1)) < limit := by
    refine Nat.lt_of_not_le fun hge => hout ?_
    have hinside := modeAt_of_lt_extent (show i ≤ i + 1 by omega) hopen hlt
      (by rw [hmode]; omega)
    rw [hinside.2.1, hmode]
    rfl
  have hin := Nat.lt_of_lt_of_le hlast hlen
  have hle : i ≤ i + (Mode.quoted quote).extent (bytes.drop (i + 1)) := Nat.le_add_right _ _
  obtain ⟨-, hkind⟩ := kind_of_passes .start (.inl ⟨rfl, quote, hb, hquote⟩) hend hle
    (Nat.lt_succ_self _)
  refine ⟨_, _, hend, hlast, List.getElem?_eq_getElem hin, ?_⟩
  refine isQuote_of_ends hle (List.getElem?_eq_getElem hin) hkind ?_
  -- an open string would go on to the end of the text, and so up to the offset
  refine Decidable.byContradiction fun hnext => ?_
  rcases Nat.eq_or_lt_of_le hlast with heq | hmore
  · rw [← heq] at hout
    exact hout (kind_modeAt_succ hle hin hkind hnext)
  · exact hnext ((Visits.pass .start hend).modeAt_eq (by omega)).2.1

/-- **A key can be cut out** of an item that ends outside of strings. -/
theorem clean_readKey? (h : IsCutOut s item) (hfirst : (Text.bytes s)[item.start]? = some first)
    (hout : (modeAt (Text.bytes s) item.start item.stop).kind ≠ .text) :
    Failure.Clean (fun _ => True) (Entry.readKey? s item first) := by
  unfold Entry.readKey?
  split
  · rename_i hquote
    have hascii : first < 0x80 := lt_of_isQuote (isQuote_of_opensKey hquote)
    dsimp only
    split
    · exact .ok trivial
    · rename_i hlong
      obtain ⟨last, b, hend, hlast, hb, hclose⟩ := exists_quote_of_opaqueEnd? hfirst
        (isQuote_of_opensKey hquote) (by omega) h.le_length hout
      rw [hend, Option.getD_some, Nat.min_eq_left (by omega)] at hlong ⊢
      obtain ⟨key, hkey⟩ := Text.exists_slice? (Text.isCut_of_ascii hascii hfirst).2
        (Text.isCut_of_ascii (lt_of_isQuote hclose) hb).1 (by omega)
      rw [Nat.add_sub_cancel, hkey]
      exact .ok trivial
  · obtain ⟨whole, hwhole⟩ := h.exists_slice?
    rw [hwhole]
    exact .ok trivial

/-- The value of an entry can be cut out. -/
theorem isCutOut_of_valueAfter? {keyEnd : Nat} (hstop : Text.IsCut s.toList stop)
    (h : Entry.valueAfter? (Text.bytes s) keyEnd stop = some value) : IsCutOut s value := by
  obtain ⟨mark, -, -, hcolon, hstart, hlt, rfl⟩ := valueAfter?_eq_some.1 h
  refine .of_isCut (Nat.le_of_lt hlt) ?_ hstop
  rw [← hstart]
  exact isCut_triviaEnd hstop (Text.isCut_of_ascii (by decide) hcolon).2

/-- **Reading an item cuts no character** if it ends outside of strings. -/
theorem clean_read? (h : IsCutOut s item)
    (hout : (modeAt (Text.bytes s) item.start item.stop).kind ≠ .text) :
    Failure.Clean (fun found => ∀ entry ∈ found, IsCutOut s entry.value)
      (Entry.read? s item) := by
  unfold Entry.read?
  split
  · exact .ok fun entry hentry => nomatch hentry
  · rename_i first hfirst
    refine (clean_readKey? h hfirst hout).bind fun key _ _ => ?_
    cases key with
    | none => exact .ok fun entry hentry => nomatch hentry
    | some key =>
      refine .ok fun entry hentry => ?_
      obtain ⟨value, hvalue, rfl⟩ := Option.map_eq_some_iff.1 hentry
      exact isCutOut_of_valueAfter? h.stop hvalue

/-- **A value that is narrowed** can be cut out, and so can its inside. -/
theorem isCutOut_of_narrow (h : IsCutOut s value)
    (hnarrow : narrow (Text.bytes s) value = .ok found) : IsCutOut s found ∧ InnerFits s found := by
  unfold narrow at hnarrow
  split at hnarrow
  · exact isCutOut_of_spanAt hnarrow
  · exact isCutOut_of_spanAt hnarrow
  · rename_i hbrace hsquare
    cases hnarrow
    refine ⟨h, fun shape hopener hshape => ?_⟩
    cases shape with
    | brace => exact absurd hopener hbrace
    | square => exact absurd hopener hsquare
    | round => exact absurd rfl hshape

end ConfigPatch.Literal
