import ConfigPatch.Path.Parser
import ConfigPatch.Proofs.Text.Cut
import Mathlib.Data.List.TakeDrop
import Mathlib.Data.List.TakeWhile

/-!
# The grammar of paths

A path is written as tokens with points between them, and a token as a
name, an index in brackets, or both. The reader splits a text at its
points first and looks for brackets then. It accepts just the texts of
valid tokens, and what it reads are their segments.
-/

namespace ConfigPatch.Path

/-- **What a path is written with.** -/
inductive Token where
  | name (cs : List Char)
  | nameIndex (cs digits : List Char)
  | index (digits : List Char)
deriving DecidableEq

/-- A name has characters, and no point and no bracket among them. -/
def isName (cs : List Char) : Bool :=
  !cs.isEmpty && cs.all fun c => c != '.' && c != '[' && c != ']'

/-- An index has digits, and the number they stand for fits into 64
bits. -/
def isIndex (digits : List Char) : Bool :=
  !digits.isEmpty && digits.all Char.isDigit && decide (Nat.ofDigitChars 10 digits 0 < UInt64.size)

/-- The segment that digits stand for. -/
def indexOf (digits : List Char) : Segment := .index (.ofNat (Nat.ofDigitChars 10 digits 0))

namespace Token

/-- Whether the parts of a token are a name and an index. -/
def isValid : Token → Bool
  | .name cs => isName cs
  | .nameIndex cs digits => isName cs && isIndex digits
  | .index digits => isIndex digits

/-- The written form. -/
def text : Token → List Char
  | .name cs => cs
  | .nameIndex cs digits => cs ++ '[' :: (digits ++ [']'])
  | .index digits => '[' :: (digits ++ [']'])

/-- The segments, of the name first. -/
def segments : Token → Path
  | .name cs => [.property (String.ofList cs)]
  | .nameIndex cs digits => [.property (String.ofList cs), indexOf digits]
  | .index digits => [indexOf digits]

end Token

variable {cs digits name inner token : List Char} {p : Path} {n : UInt64} {s : String}

/-! ## Points -/

theorem tokens_ne_nil : tokens cs ≠ [] := by
  cases cs with
  | nil => exact List.cons_ne_nil _ _
  | cons c cs =>
    rw [tokens]
    split
    · exact List.cons_ne_nil _ _
    · split <;> exact List.cons_ne_nil _ _

/-- A token goes up to the first point. -/
theorem tokens_append (h : '.' ∉ token) : tokens (token ++ '.' :: cs) = token :: tokens cs := by
  induction token with
  | nil => rfl
  | cons c token ih =>
    rw [List.mem_cons, not_or] at h
    rw [List.cons_append, tokens, if_neg (Ne.symm h.1), ih h.2]

theorem tokens_of_notMem (h : '.' ∉ token) : tokens token = [token] := by
  induction token with
  | nil => rfl
  | cons c token ih =>
    rw [List.mem_cons, not_or] at h
    rw [tokens, if_neg (Ne.symm h.1), ih h.2]

theorem tokens_intercalate {ts : List (List Char)} (hne : ts ≠ []) (h : ∀ t ∈ ts, '.' ∉ t) :
    tokens (['.'].intercalate ts) = ts := by
  induction ts with
  | nil => exact absurd rfl hne
  | cons t ts ih =>
    obtain ⟨ht, hrest⟩ := List.forall_mem_cons.1 h
    cases ts with
    | nil => rw [List.intercalate_singleton, tokens_of_notMem ht]
    | cons u ts =>
      rw [List.intercalate_cons_cons, List.append_assoc, List.singleton_append, tokens_append ht,
        ih (List.cons_ne_nil _ _) hrest]

/-- **Splitting at the points loses nothing.** -/
theorem intercalate_tokens (cs : List Char) : ['.'].intercalate (tokens cs) = cs := by
  induction cs with
  | nil => rfl
  | cons c cs ih =>
    rw [tokens]
    split
    · rename_i hc
      rw [List.intercalate_cons_of_ne_nil tokens_ne_nil, ih, hc]
      rfl
    · cases htokens : tokens cs with
      | nil => exact absurd htokens tokens_ne_nil
      | cons token rest =>
        rw [htokens] at ih
        cases rest with
        | nil =>
          rw [List.intercalate_singleton] at ih ⊢
          rw [ih]
        | cons u rest =>
          rw [List.intercalate_cons_cons] at ih ⊢
          rw [List.cons_append, List.cons_append, ih]

/-! ## Brackets -/

theorem isName_iff : isName cs = true ↔ cs ≠ [] ∧ '.' ∉ cs ∧ '[' ∉ cs ∧ ']' ∉ cs := by
  have hall : (cs.all fun c => c != '.' && c != '[' && c != ']') = true ↔
      '.' ∉ cs ∧ '[' ∉ cs ∧ ']' ∉ cs := by
    rw [List.all_eq_true]
    constructor
    · intro h
      refine ⟨fun hc => ?_, fun hc => ?_, fun hc => ?_⟩ <;>
      · have hfalse := h _ hc
        revert hfalse
        decide
    · rintro ⟨hpoint, hopen, hclose⟩ c hc
      simp only [Bool.and_eq_true, bne_iff_ne]
      refine ⟨⟨?_, ?_⟩, ?_⟩ <;>
      · rintro rfl
        contradiction
  rw [isName, Bool.and_eq_true, hall, Bool.not_eq_true', List.isEmpty_eq_false_iff]

/-- Digits are neither points nor brackets. -/
theorem notMem_of_isIndex (h : isIndex digits = true) :
    '.' ∉ digits ∧ '[' ∉ digits ∧ ']' ∉ digits := by
  rw [isIndex, Bool.and_eq_true, Bool.and_eq_true] at h
  have hall := List.all_eq_true.1 h.1.2
  refine ⟨fun hc => ?_, fun hc => ?_, fun hc => ?_⟩ <;>
  · have hdigit := hall _ hc
    revert hdigit
    decide

theorem readIndex_eq_ok :
    readIndex digits = .ok n ↔
      isIndex digits = true ∧ n = .ofNat (Nat.ofDigitChars 10 digits 0) := by
  have hlimit : 1 <<< 64 = UInt64.size := rfl
  unfold readIndex isIndex
  rw [hlimit]
  dsimp only
  constructor
  · intro h
    split at h
    · cases h
    · rename_i hdigits
      split at h
      · rename_i hlt
        cases h
        simp_all
      · cases h
  · rintro ⟨h, rfl⟩
    simp only [Bool.and_eq_true, Bool.not_eq_true', decide_eq_true_eq] at h
    rw [if_neg (by simp [h.1.1, h.1.2]), if_pos h.2]

/-- What stands behind the bracket of a token is an index and the other
bracket. -/
theorem readIndexed_eq_ok :
    readIndexed token name inner = .ok p ↔
      ∃ digits, inner = digits ++ [']'] ∧ ']' ∉ name ∧ isIndex digits = true ∧
        p = if name.isEmpty then [indexOf digits]
          else [.property (String.ofList name), indexOf digits] := by
  unfold readIndexed
  constructor
  · intro h
    split at h
    · cases h
    · rename_i hclose
      obtain ⟨front, rfl⟩ := List.getLast?_eq_some_iff.1 (Decidable.not_not.1 hclose)
      rw [List.dropLast_concat] at h
      dsimp only at h
      split at h
      · cases h
      · rename_i hbrackets
        rw [Bool.not_eq_true, Bool.or_eq_false_iff, Bool.or_eq_false_iff] at hbrackets
        obtain ⟨n, hn, h⟩ := Failure.bind_eq_ok.1 h
        obtain ⟨hindex, rfl⟩ := readIndex_eq_ok.1 hn
        cases h
        exact ⟨front, rfl, by simpa using hbrackets.1.1, hindex, rfl⟩
  · rintro ⟨digits, rfl, hname, hindex, rfl⟩
    obtain ⟨-, hopen, hclose⟩ := notMem_of_isIndex hindex
    rw [List.getLast?_concat, if_neg (not_not_intro rfl), List.dropLast_concat]
    dsimp only
    rw [if_neg (by simp [hname, hopen, hclose]), Failure.bind_eq_ok]
    exact ⟨_, readIndex_eq_ok.2 ⟨hindex, rfl⟩, rfl⟩

theorem forall_ne_of_notMem (h : '[' ∉ cs) : ∀ c ∈ cs, decide (c ≠ '[') = true := by
  intro c hc
  rw [decide_eq_true_eq]
  rintro rfl
  exact h hc

/-- A token without an opening bracket is a name. -/
theorem readToken_of_notMem (h : '[' ∉ cs) :
    readToken cs = .ok p ↔ cs ≠ [] ∧ ']' ∉ cs ∧ p = [.property (String.ofList cs)] := by
  have hall := forall_ne_of_notMem h
  have hspan : cs.span (· ≠ '[') = (cs, []) := by
    rw [List.span_eq_takeWhile_dropWhile, List.takeWhile_eq_self_iff.2 hall,
      List.dropWhile_eq_nil_iff.2 hall]
  unfold readToken
  rw [hspan]
  constructor
  · intro h
    split at h
    · cases h
    · rename_i hempty
      dsimp only at h
      split at h
      · cases h
      · rename_i hclose
        cases h
        exact ⟨by simpa using hempty, by simpa using hclose, rfl⟩
  · rintro ⟨hne, hclose, rfl⟩
    rw [if_neg (by simpa using hne)]
    dsimp only
    rw [if_neg (by simpa using hclose)]

/-- Any other token falls apart at its first opening bracket. -/
theorem readToken_bracket (h : '[' ∉ name) :
    readToken (name ++ '[' :: inner) = readIndexed (name ++ '[' :: inner) name inner := by
  have hall := forall_ne_of_notMem h
  have hspan : (name ++ '[' :: inner).span (· ≠ '[') = (name, '[' :: inner) := by
    rw [List.span_eq_takeWhile_dropWhile, List.takeWhile_append_of_pos hall,
      List.dropWhile_append_of_pos hall]
    simp
  unfold readToken
  rw [hspan, if_neg (by simp)]

/-- **A token is read where it is valid**, and as its segments. -/
theorem readToken_eq_ok (hpoint : '.' ∉ cs) :
    readToken cs = .ok p ↔ ∃ t : Token, t.isValid = true ∧ t.text = cs ∧ t.segments = p := by
  constructor
  · intro h
    -- a token is cut at its first bracket, in front of which the name stands
    by_cases hbracket : '[' ∈ cs
    · obtain ⟨front, inner, rfl, hfront⟩ := List.eq_append_cons_of_mem hbracket
      rw [readToken_bracket hfront] at h
      obtain ⟨digits, rfl, hclose, hindex, rfl⟩ := readIndexed_eq_ok.1 h
      cases front with
      | nil => exact ⟨.index digits, hindex, rfl, rfl⟩
      | cons c front =>
        have hname : isName (c :: front) = true :=
          isName_iff.2 ⟨List.cons_ne_nil _ _, fun hc => hpoint (List.mem_append_left _ hc),
            hfront, hclose⟩
        exact ⟨.nameIndex (c :: front) digits, by rw [Token.isValid, hname, hindex]; rfl, rfl, rfl⟩
    · obtain ⟨hne, hclose, rfl⟩ := (readToken_of_notMem hbracket).1 h
      exact ⟨.name cs, isName_iff.2 ⟨hne, hpoint, hbracket, hclose⟩, rfl, rfl⟩
  · rintro ⟨t, hvalid, rfl, rfl⟩
    cases t with
    | name cs =>
      obtain ⟨hne, -, hopen, hclose⟩ := isName_iff.1 hvalid
      exact (readToken_of_notMem hopen).2 ⟨hne, hclose, rfl⟩
    | nameIndex cs digits =>
      rw [Token.isValid, Bool.and_eq_true] at hvalid
      obtain ⟨hne, -, hopen, hclose⟩ := isName_iff.1 hvalid.1
      rw [Token.text, readToken_bracket hopen]
      refine readIndexed_eq_ok.2 ⟨digits, rfl, hclose, hvalid.2, ?_⟩
      rw [if_neg (by simpa using hne)]
      rfl
    | index digits =>
      have hread : readToken ([] ++ '[' :: (digits ++ [']'])) = _ :=
        readToken_bracket List.not_mem_nil
      rw [Token.text, ← List.nil_append ('[' :: _), hread]
      exact readIndexed_eq_ok.2 ⟨digits, rfl, List.not_mem_nil, hvalid, rfl⟩

/-! ## Whole paths -/

/-- The written form of a valid token has no points. -/
theorem Token.notMem_text {t : Token} (h : t.isValid = true) : '.' ∉ t.text := by
  cases t with
  | name cs => exact (isName_iff.1 h).2.1
  | nameIndex cs digits =>
    rw [isValid, Bool.and_eq_true] at h
    simp [text, (isName_iff.1 h.1).2.1, (notMem_of_isIndex h.2).1]
  | index digits => simp [text, (notMem_of_isIndex h).1]

/-- Tokens are read one after the other. -/
theorem readTokens_eq_ok {css : List (List Char)} (hpoint : ∀ cs ∈ css, '.' ∉ cs) :
    readTokens css = .ok p ↔ ∃ ts : List Token, (∀ t ∈ ts, t.isValid = true) ∧
      ts.map Token.text = css ∧ ts.flatMap Token.segments = p := by
  induction css generalizing p with
  | nil =>
    constructor
    · intro h
      cases h
      exact ⟨[], List.forall_mem_nil _, rfl, rfl⟩
    · rintro ⟨ts, -, hts, rfl⟩
      rw [List.map_eq_nil_iff.1 hts]
      rfl
  | cons cs css ih =>
    obtain ⟨hcs, hcss⟩ := List.forall_mem_cons.1 hpoint
    rw [readTokens, Failure.bind_eq_ok]
    constructor
    · rintro ⟨front, hfront, h⟩
      obtain ⟨back, hback, h⟩ := Failure.bind_eq_ok.1 h
      cases h
      obtain ⟨t, ht, rfl, rfl⟩ := (readToken_eq_ok hcs).1 hfront
      obtain ⟨ts, hts, rfl, rfl⟩ := (ih hcss).1 hback
      exact ⟨t :: ts, List.forall_mem_cons.2 ⟨ht, hts⟩, rfl, rfl⟩
    · rintro ⟨ts, hts, hmap, rfl⟩
      obtain ⟨t, ts, rfl, rfl, hrest⟩ := List.map_eq_cons_iff.1 hmap
      obtain ⟨ht, hts⟩ := List.forall_mem_cons.1 hts
      refine ⟨t.segments, (readToken_eq_ok hcs).2 ⟨t, ht, rfl, rfl⟩, Failure.bind_eq_ok.2 ?_⟩
      exact ⟨ts.flatMap Token.segments, (ih hcss).2 ⟨ts, hts, hrest, rfl⟩, rfl⟩

/-- No token holds a point. -/
theorem notMem_of_mem_tokens (h : token ∈ tokens cs) : '.' ∉ token := by
  induction cs generalizing token with
  | nil =>
    rw [List.mem_singleton.1 h]
    exact List.not_mem_nil
  | cons c cs ih =>
    rw [tokens] at h
    split at h
    · rcases List.mem_cons.1 h with rfl | h
      · exact List.not_mem_nil
      · exact ih h
    · rename_i hc
      cases htokens : tokens cs with
      | nil => exact absurd htokens tokens_ne_nil
      | cons first rest =>
        rw [htokens] at h ih
        rcases List.mem_cons.1 h with rfl | h
        · rw [List.mem_cons, not_or]
          exact ⟨Ne.symm hc, ih List.mem_cons_self⟩
        · exact ih (List.mem_cons_of_mem _ h)

/-- The empty text is refused by its only token as well. -/
theorem parse_eq_ok : parse s = .ok p ↔ readTokens (tokens s.toList) = .ok p := by
  unfold parse
  dsimp only
  split
  · rename_i hempty
    rw [List.isEmpty_iff.1 hempty]
    exact ⟨nofun, nofun⟩
  · cases readTokens (tokens s.toList) with
    | error fault => exact ⟨nofun, nofun⟩
    | ok q => exact ⟨fun h => congrArg _ (Except.ok.inj h), fun h => congrArg _ (Except.ok.inj h)⟩

/-- **The reader accepts exactly the grammar.** A text is read where it is
valid tokens with points between them, of which there is at least one, and
the path is their segments in order. Every other text is refused as a
whole. -/
theorem parse_eq_ok_iff (s : String) :
    (∀ p, parse s = .ok p ↔ ∃ ts : List Token, ts ≠ [] ∧ (∀ t ∈ ts, t.isValid = true) ∧
      ['.'].intercalate (ts.map Token.text) = s.toList ∧ ts.flatMap Token.segments = p) ∧
    ((∃ p, parse s = .ok p) ∨ ∃ fault, parse s = .error (.malformedPath s fault)) := by
  constructor
  · intro p
    rw [parse_eq_ok, readTokens_eq_ok fun cs hcs => notMem_of_mem_tokens hcs]
    constructor
    · rintro ⟨ts, hts, htexts, hp⟩
      refine ⟨ts, ?_, hts, ?_, hp⟩
      · rintro rfl
        exact tokens_ne_nil htexts.symm
      · rw [htexts, intercalate_tokens]
    · rintro ⟨ts, hne, hts, htext, hp⟩
      have hpoint : ∀ cs ∈ ts.map Token.text, '.' ∉ cs := by
        intro cs hcs
        obtain ⟨t, ht, rfl⟩ := List.mem_map.1 hcs
        exact Token.notMem_text (hts t ht)
      exact ⟨ts, hts, by rw [← htext, tokens_intercalate (by simpa using hne) hpoint], hp⟩
  · unfold parse
    dsimp only
    split
    · exact .inr ⟨_, rfl⟩
    · cases readTokens (tokens s.toList) with
      | error fault => exact .inr ⟨fault, rfl⟩
      | ok p => exact .inl ⟨p, rfl⟩

/-- Leading zeros do not count, and the second token has no name. -/
example : parse "a.[007].b[1]" =
    .ok [.property "a", .index 7, .property "b", .index 1] := by
  decide +kernel

end ConfigPatch.Path
