import ConfigPatch.Proofs.Lexical.Loop
import ConfigPatch.Proofs.Literal.Visit

/-!
# Two readings of a gap

The blanks and comments in front of a key, a colon or a value are skipped,
and there a comment may follow anything. The search for brackets and commas
passes the same comments, but only where a comment is admitted, which it
tells from the byte before. `gapTurn` walks over a gap by the second rule.
The walk ends where skipping does, with one exception: it does not enter a
comment that stands right behind another one, since it takes the slash
that closes the one for code in front of the other.
-/

namespace ConfigPatch.Literal

open Lexical

variable {bytes : List UInt8} {offset limit i stop next : Nat} {b : UInt8} {m : Mode}
variable {xs : List UInt8}

/-! ## Where comments start and end -/

/-- The mark that opens a comment stands at an offset. -/
def StartsComment (bytes : List UInt8) (i : Nat) : Prop :=
  bytes[i]? = some slash ∧ Mode.afterSlash bytes[i + 1]? ≠ .code

instance : Decidable (StartsComment bytes i) := by
  unfold StartsComment
  infer_instance

/-- A comment that the search for brackets passes ends at an offset. -/
def EndsComment (bytes : List UInt8) (i : Nat) : Prop :=
  ∃ start, bytes[start]? = some slash ∧ opaqueEnd? bytes start = some i

/-- What the search passes has bytes, and lies within the text. -/
theorem bounds_of_opaqueEnd? (h : opaqueEnd? bytes i = some stop) :
    i < stop ∧ stop ≤ bytes.length := by
  have hlt := lt_of_opaqueEnd? h
  rw [opaqueEnd?_eq (Nat.le_refl i) hlt modeAt_self] at h
  split at h
  · cases h
  · have hstop := Option.some.inj h
    have hextent : (modeAt bytes i (i + 1)).extent (bytes.drop (i + 1)) ≤
        (bytes.drop (i + 1)).length := extent_le_length
    rw [List.length_drop] at hextent
    omega

/-- What is passed opens with the mark of a comment or with a quote. -/
theorem opens_of_opaqueEnd? (h : opaqueEnd? bytes i = some stop) :
    Opens bytes i (if StartsComment bytes i then .comment else .text) := by
  have hlt := lt_of_opaqueEnd? h
  have hb := List.getElem?_eq_getElem hlt
  rw [opaqueEnd?_eq (Nat.le_refl i) hlt modeAt_self] at h
  split at h
  · cases h
  · rename_i hnext
    rw [modeAt_succ (Nat.le_refl i) hb, modeAt_self] at hnext
    rcases next_code hnext with ⟨-, hquote⟩ | ⟨-, hslash⟩
    · rw [if_neg]
      · exact .inl ⟨rfl, _, hb, hquote⟩
      · rintro ⟨hslash, -⟩
        rw [hb, Option.some.injEq] at hslash
        rw [hslash] at hquote
        exact absurd hquote (by decide)
    · rw [if_pos]
      · exact .inr ⟨rfl, by rw [hb, hslash]⟩
      · have hquote : isQuote bytes[i] = false := by
          rw [hslash]
          decide
        rw [Mode.next, hquote, if_neg Bool.false_ne_true] at hnext
        refine ⟨by rw [hb, hslash], fun hcode => hnext ?_⟩
        rw [hcode, ite_self]

/-- **A slash is passed** with the comment that it opens, where one is
admitted. -/
theorem opaqueEnd?_slash (hb : bytes[i]? = some slash) :
    opaqueEnd? bytes i =
      if admitsComment (byteBefore bytes i) = true ∧ StartsComment bytes i then
        some (i + 1 + (Mode.afterSlash bytes[i + 1]?).extent (bytes.drop (i + 1)))
      else none := by
  obtain ⟨hlt, hget⟩ := List.getElem?_eq_some_iff.1 hb
  have hquote : isQuote slash = false := by decide
  rw [opaqueEnd?, List.drop_eq_getElem_cons hlt, hget]
  simp only [Mode.next, hquote, Bool.false_eq_true, if_false, true_and, List.head?_drop,
    StartsComment, hb]
  by_cases hadmits : admitsComment (byteBefore bytes i) = true
  · rw [if_pos hadmits]
    by_cases hcode : Mode.afterSlash bytes[i + 1]? = .code
    · rw [if_pos hcode, if_neg fun h => h.2 hcode]
    · rw [if_neg hcode, if_pos ⟨hadmits, hcode⟩]
  · rw [if_neg hadmits, if_pos rfl, if_neg fun h => hadmits h.1]

/-! ## Skipping, stretch by stretch -/

theorem triviaEndFrom_of_le (h : limit ≤ offset) : triviaEndFrom m offset limit xs = limit := by
  cases xs with
  | nil => exact Nat.min_eq_right h
  | cons b xs => rw [triviaEndFrom, if_pos h]

/-- Outside of code skipping goes on to where code begins again. -/
theorem triviaEndFrom_extent : triviaEndFrom m offset limit xs =
    triviaEndFrom .code (offset + m.extent xs) limit (xs.drop (m.extent xs)) := by
  induction xs generalizing m offset with
  | nil => rfl
  | cons b xs ih =>
    by_cases hcode : m = .code
    · subst hcode
      rw [extent_code, Nat.add_zero, List.drop_zero]
    · rw [triviaEndFrom, if_pos hcode, Mode.extent, if_neg hcode, List.drop_succ_cons]
      split
      · rw [triviaEndFrom_of_le (by omega)]
      · rw [ih]
        congr 1
        omega

/-- **One byte of skipping in code.** -/
theorem triviaEnd_eq (hb : bytes[i]? = some b) (hlt : i < limit) :
    triviaEnd bytes i limit =
      if isSpace b then triviaEnd bytes (i + 1) limit
      else if StartsComment bytes i then
        triviaEnd bytes (i + 1 + (Mode.afterSlash bytes[i + 1]?).extent (bytes.drop (i + 1))) limit
      else i := by
  obtain ⟨hlen, hget⟩ := List.getElem?_eq_some_iff.1 hb
  rw [triviaEnd, List.drop_eq_getElem_cons hlen, hget, triviaEndFrom, if_neg (by omega),
    if_neg (not_not_intro rfl)]
  split
  · rfl
  · simp only [List.head?_drop, StartsComment, hb, Option.some.injEq]
    split
    · rw [triviaEndFrom_extent, List.drop_drop, triviaEnd]
    · rfl

/-- Skipping up to a limit in the text does not read past the end. -/
theorem triviaEnd?_of_le (hle : offset ≤ limit) (hlen : limit ≤ bytes.length) :
    triviaEnd? bytes offset limit = some (triviaEnd bytes offset limit) := by
  have hbounds : _ ∧ triviaEnd bytes offset limit ≤ limit := le_triviaEnd hle
  rw [triviaEnd?, if_neg (by omega)]

/-! ## The walk -/

/-- **One turn of a walk over a gap** by the rules of the search for
brackets: over a blank, or over a comment. It ends at any other byte, and
at the limit. -/
def gapTurn (bytes : List UInt8) (limit i : Nat) : Nat ⊕ Nat :=
  if limit ≤ i then .inr limit
  else if (bytes[i]?).any isSpace then .inl (i + 1)
  else if bytes[i]? = some slash then
    match opaqueEnd? bytes i with
    | some stop => .inl stop
    | none => .inr i
  else .inr i

/-- What a walk keeps: skipping goes on to the same place, and a comment is
admitted unless another one ends here. -/
def IsWalked (bytes : List UInt8) (offset limit i : Nat) : Prop :=
  offset ≤ i ∧ triviaEnd bytes i limit = triviaEnd bytes offset limit ∧
    (admitsComment (byteBefore bytes i) = true ∨ EndsComment bytes i)

theorem gapTurn_inl (hwalked : IsWalked bytes offset limit i)
    (h : gapTurn bytes limit i = .inl next) :
    IsWalked bytes offset limit next ∧ limit - next < limit - i := by
  obtain ⟨hle, hsame, -⟩ := hwalked
  unfold gapTurn at h
  split at h
  · cases h
  · rename_i hlt
    split at h
    · rename_i hspace
      obtain ⟨b, hb, hspace⟩ := (Option.any_eq_true _ _).1 hspace
      cases h
      refine ⟨⟨by omega, ?_, .inl ?_⟩, by omega⟩
      · rw [← hsame, triviaEnd_eq hb (by omega), if_pos hspace]
      · rw [byteBefore_succ, hb, admitsComment, hspace, Bool.true_or]
    · split at h
      · rename_i hslash
        split at h
        · rename_i stop hend
          cases h
          have hbounds := bounds_of_opaqueEnd? hend
          refine ⟨⟨by omega, ?_, .inr ⟨i, hslash, hend⟩⟩, by omega⟩
          rw [opaqueEnd?_slash hslash] at hend
          split at hend
          · rename_i hstarts
            have hspace : ¬ isSpace slash = true := by decide
            rw [← hsame, triviaEnd_eq hslash (by omega), if_neg hspace, if_pos hstarts.2,
              Option.some.inj hend]
          · cases hend
        · cases h
      · cases h

/-- A walk that ends does so where skipping does, or in front of a comment
that stands right behind another one. -/
theorem gapTurn_inr (hwalked : IsWalked bytes offset limit i) (hlen : limit ≤ bytes.length)
    (h : gapTurn bytes limit i = .inr stop) (hoffset : offset ≤ limit) :
    offset ≤ stop ∧ stop ≤ triviaEnd bytes offset limit ∧
      (stop = triviaEnd bytes offset limit ↔
        ¬ (stop < limit ∧ EndsComment bytes stop ∧ StartsComment bytes stop)) := by
  obtain ⟨hle, hsame, hbefore⟩ := hwalked
  unfold gapTurn at h
  split at h
  · rename_i hlimit
    cases h
    have hend : triviaEnd bytes i limit = limit := triviaEndFrom_of_le hlimit
    rw [← hsame, hend]
    exact ⟨hoffset, Nat.le_refl _, fun _ hlt => absurd hlt.1 (Nat.lt_irrefl _), fun _ => rfl⟩
  · rename_i hlimit
    have hlt : i < limit := by omega
    have hb := List.getElem?_eq_getElem (show i < bytes.length by omega)
    have hskip := triviaEnd_eq hb hlt
    split at h
    · cases h
    · rename_i hspace
      rw [hb, Option.any_some] at hspace
      rw [if_neg hspace] at hskip
      -- neither a blank nor a comment that is passed: the walk ends here
      have hstop : i = stop ∧ (bytes[i]? = some slash → opaqueEnd? bytes i = none) := by
        split at h
        · rename_i hslash
          split at h
          · cases h
          · rename_i hnone
            cases h
            exact ⟨rfl, fun _ => hnone⟩
        · rename_i hslash
          cases h
          exact ⟨rfl, fun hb => absurd hb hslash⟩
      obtain ⟨rfl, hnone⟩ := hstop
      refine ⟨hle, ?_⟩
      rw [← hsame]
      by_cases hstarts : StartsComment bytes i
      · rw [if_pos hstarts] at hskip
        have hmore : i < triviaEnd bytes i limit := by
          rw [hskip]
          rcases Nat.le_total (i + 1 + (Mode.afterSlash bytes[i + 1]?).extent
            (bytes.drop (i + 1))) limit with hin | hout
          · exact Nat.lt_of_lt_of_le (by omega) (le_triviaEnd hin).1
          · rw [triviaEnd, triviaEndFrom_of_le hout]
            exact hlt
        have hends : EndsComment bytes i := by
          rcases hbefore with hadmits | hends
          · have hpassed := hnone hstarts.1
            rw [opaqueEnd?_slash hstarts.1, if_pos ⟨hadmits, hstarts⟩] at hpassed
            cases hpassed
          · exact hends
        exact ⟨Nat.le_of_lt hmore, fun heq => by omega, fun hnot =>
          absurd ⟨hlt, hends, hstarts⟩ hnot⟩
      · rw [if_neg hstarts] at hskip
        rw [hskip]
        exact ⟨Nat.le_refl _, fun _ hends => hstarts hends.2.2, fun _ => rfl⟩

/-- **The walk over a gap ends**, in no more turns than there are bytes and
one. It ends where skipping does, unless it comes to a comment that stands
right behind another one: there it ends, and skipping goes on. -/
theorem gap_walk (hle : offset ≤ limit) (hlen : limit ≤ bytes.length)
    (hadmits : admitsComment (byteBefore bytes offset) = true) :
    ∃ stop, runLoop (gapTurn bytes limit) (limit - offset + 1) offset = some stop ∧
      offset ≤ stop ∧ stop ≤ triviaEnd bytes offset limit ∧
      (stop = triviaEnd bytes offset limit ↔
        ¬ (stop < limit ∧ EndsComment bytes stop ∧ StartsComment bytes stop)) := by
  have hfirst : IsWalked bytes offset limit offset := ⟨Nat.le_refl _, rfl, .inl hadmits⟩
  obtain ⟨last, stop, hlast, hstop, hrun⟩ :=
    exists_runLoop (fun _ _ => gapTurn_inl) hfirst (Nat.lt_succ_self (limit - offset))
  exact ⟨stop, hrun, gapTurn_inr hlast hlen hstop hle⟩

/-- The gap behind a colon, with a comment of either kind: no comment
starts where another one ends, so the walk goes on to the value. -/
theorem gap_walk_behind_colon :
    1 ≤ 15 ∧ 15 ≤ (Text.bytes ":/* b */ // c\n1").length ∧
    admitsComment (byteBefore (Text.bytes ":/* b */ // c\n1") 1) = true ∧
    triviaEnd (Text.bytes ":/* b */ // c\n1") 1 15 = 14 ∧
    runLoop (gapTurn (Text.bytes ":/* b */ // c\n1") 15) (15 - 1 + 1) 1 = some 14 := by
  have hlen : 15 ≤ (Text.bytes ":/* b */ // c\n1").length := by decide
  have hadmits : admitsComment (byteBefore (Text.bytes ":/* b */ // c\n1") 1) = true := by decide
  have hend : triviaEnd (Text.bytes ":/* b */ // c\n1") 1 15 = 14 := by decide +kernel
  have happart : ∀ start < 15, ∀ i < 15,
      opaqueEnd? (Text.bytes ":/* b */ // c\n1") start = some i →
        ¬ StartsComment (Text.bytes ":/* b */ // c\n1") i := by
    decide +kernel
  obtain ⟨stop, hrun, -, -, hiff⟩ := gap_walk (by decide) hlen hadmits
  have hstop : stop = triviaEnd (Text.bytes ":/* b */ // c\n1") 1 15 := by
    refine hiff.2 ?_
    rintro ⟨hlt, ⟨start, -, hpassed⟩, hstarts⟩
    have hstart := (bounds_of_opaqueEnd? hpassed).1
    exact happart start (by omega) stop hlt hpassed hstarts
  rw [hstop, hend] at hrun
  exact ⟨by decide, hlen, hadmits, hend, hrun⟩

/-- **Between two comments the walk ends** though skipping goes on, and a
bracket in the second comment closes a literal. -/
theorem gap_walk_between_comments :
    0 ≤ 14 ∧ 14 ≤ (Text.bytes "/* a *//* b */").length ∧
    admitsComment (byteBefore (Text.bytes "/* a *//* b */") 0) = true ∧
    runLoop (gapTurn (Text.bytes "/* a *//* b */") 14) (14 - 0 + 1) 0 = some 7 ∧
    opaqueEnd? (Text.bytes "/* a *//* b */") 7 = none ∧
    triviaEnd (Text.bytes "/* a *//* b */") 0 14 = 14 ∧
    spanAt (Text.bytes "[1 /* a *//* ] */, 2]") 0 = .ok ⟨0, 14⟩ := by
  decide +kernel

end ConfigPatch.Literal
