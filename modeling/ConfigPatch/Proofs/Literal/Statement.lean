import ConfigPatch.Proofs.Literal.Header
import ConfigPatch.Proofs.Text.Replacement

/-!
# Statements on either side of a mark

No export statement goes past a bracket that is not round, a comma, a
colon, a slash or a quote. So the statements of a text fall apart at each
of these: those in front do not depend on what stands behind, and those
behind depend on what stands in front in their offsets only.
-/

namespace ConfigPatch.Literal

open Lexical Lexeme

variable {c : Char} {cs ds : List Char} {offset skip k : Nat} {lineStart : Bool}
variable {statement : Statement} {options : Options}

/-! ## Marks -/

/-- The characters that no statement goes past. -/
def isStop (c : Char) : Bool := markChars.contains c && c != '('

theorem of_isStop (h : isStop c = true) :
    isLiteralChar c = false ∧ Text.isBlank c = false ∧ c ≠ '=' ∧ isNameChar c = false ∧ c ≠ '(' := by
  simp only [isStop, List.contains_eq_mem, Bool.and_eq_true, decide_eq_true_eq, bne_iff_ne] at h
  obtain ⟨hmark, hround⟩ := h
  obtain ⟨hword, hblank, hequals, hname⟩ := of_mem_markChars c hmark
  exact ⟨hword, hblank, hequals, hname, hround⟩

theorem ne_lineFeed_of_isStop (h : isStop c = true) : c ≠ '\n' := by
  rintro rfl
  exact absurd (of_isStop h).2.1 (by decide)

theorem dropWhile_append_stop {p : Char → Bool} (h : p c = false) :
    (cs ++ c :: ds).dropWhile p = cs.dropWhile p ++ c :: ds := by
  induction cs with
  | nil => rw [List.nil_append, List.dropWhile_cons_of_neg (by simp [h]), List.dropWhile_nil,
      List.nil_append]
  | cons d cs ih =>
    rw [List.cons_append, List.dropWhile_cons, List.dropWhile_cons]
    split
    · exact ih
    · rfl

theorem takeWhile_append_stop {p : Char → Bool} (h : p c = false) :
    (cs ++ c :: ds).takeWhile p = cs.takeWhile p := by
  induction cs with
  | nil => rw [List.nil_append, List.takeWhile_cons_of_neg (by simp [h]), List.takeWhile_nil]
  | cons d cs ih =>
    rw [List.cons_append, List.takeWhile_cons, List.takeWhile_cons, ih]

/-! ## Reading a statement -/

theorem afterWord?_stop {word : String} (hword : ∀ c ∈ word.toList, isLiteralChar c = true)
    (h : isStop c = true) :
    afterWord? word (cs ++ c :: ds) = (afterWord? word cs).map (· ++ c :: ds) := by
  refine afterWord?_append hword fun d hd => ?_
  cases hd
  exact (of_isStop h).1

theorem afterWord?_equals (h : isStop c = true) :
    afterWord? "=" (cs ++ c :: ds) = (afterWord? "=" cs).map (· ++ c :: ds) := by
  have hequals : "=".toList = ['='] := by decide
  cases cs with
  | nil =>
    have hnone {cs : List Char} (hcs : ∀ d ∈ cs.head?, d ≠ '=') : afterWord? "=" cs = none :=
      afterWord?_eq_none hequals hcs
    rw [List.nil_append, hnone, hnone]
    · rfl
    · intro d hd
      cases hd
    · intro d hd
      cases hd
      exact (of_isStop h).2.2.1
  | cons d cs =>
    rw [afterWord?, afterWord?, hequals, List.cons_append]
    simp only [List.isPrefixOf_cons_cons, List.isPrefixOf_nil_left, Bool.and_true]
    split
    · rfl
    · rfl

theorem readWords?_stop (h : isStop c = true) :
    readWords? (cs ++ c :: ds) = (readWords? cs).map fun read => (read.1, read.2 ++ c :: ds) := by
  obtain ⟨hword, hblank, hequals, hname, hround⟩ := of_isStop h
  have hexport : ∀ c ∈ "export".toList, isLiteralChar c = true :=
    isLiteralChar_of_all (by decide)
  have hdefault : ∀ c ∈ "default".toList, isLiteralChar c = true :=
    isLiteralChar_of_all (by decide)
  have hmodule : ∀ c ∈ "module.exports".toList, isLiteralChar c = true :=
    isLiteralChar_of_all (by decide)
  rw [readWords?, readWords?, afterWord?_stop hexport h, afterWord?_stop hmodule h]
  cases afterWord? "export" cs with
  | some rest =>
    simp only [Option.map_some, List.span_eq_takeWhile_dropWhile, takeWhile_append_stop hblank,
      dropWhile_append_stop hblank]
    cases rest.takeWhile Text.isBlank with
    | nil => rfl
    | cons first blanks =>
      dsimp only
      rw [afterWord?_stop hdefault h, Option.map_map, Option.map_map]
      rfl
  | none =>
    simp only [Option.map_none, Option.bind_eq_bind]
    cases afterWord? "module.exports" cs with
    | none => rfl
    | some rest =>
      simp only [Option.map_some, Option.bind_some, dropWhile_append_stop hblank,
        afterWord?_equals h]
      cases afterWord? "=" (rest.dropWhile Text.isBlank) <;> rfl

theorem readCall?_stop (h : isStop c = true) :
    readCall? (cs ++ c :: ds) = (readCall? cs).map fun call => (call.1, call.2 ++ c :: ds) := by
  obtain ⟨hword, hblank, hequals, hname, hround⟩ := of_isStop h
  rw [readCall?, readCall?]
  simp only [List.span_eq_takeWhile_dropWhile, takeWhile_append_stop hname,
    dropWhile_append_stop hname]
  cases cs.takeWhile isNameChar with
  | nil => rfl
  | cons first name =>
    dsimp only
    split
    · rfl
    · rw [dropWhile_append_stop hblank]
      cases (cs.dropWhile isNameChar).dropWhile Text.isBlank with
      | nil =>
        rw [List.nil_append]
        split
        · rename_i heq
          cases heq
          exact absurd rfl hround
        · rfl
      | cons d rest =>
        rw [List.cons_append]
        by_cases hd : d = '('
        · subst hd
          rfl
        · split
          · rename_i heq
            cases heq
            exact absurd rfl hd
          · split
            · rename_i heq
              cases heq
              exact absurd rfl hd
            · rfl

theorem bytesBetween_append {rest tail : List Char} :
    bytesBetween (cs ++ tail) (rest ++ tail) = bytesBetween cs rest := by
  rw [bytesBetween, bytesBetween, Text.utf8_append, Text.utf8_append, List.length_append,
    List.length_append, Nat.add_sub_add_right]

/-- **A statement is read up to the mark** and not from what stands
behind. -/
theorem readStatement?_stop (h : isStop c = true) :
    readStatement? offset (cs ++ c :: ds) = readStatement? offset cs := by
  have hindent : (c == ' ' || c == '\t') = false := by
    cases hc : c == ' ' || c == '\t' with
    | false => rfl
    | true =>
      have hblank := (of_isStop h).2.1
      rw [Bool.or_eq_true, beq_iff_eq, beq_iff_eq] at hc
      rcases hc with rfl | rfl <;> exact absurd hblank (by decide)
  have hlength (cs rest : List Char) :
      (cs ++ c :: ds).length - (rest ++ c :: ds).length = cs.length - rest.length := by
    rw [List.length_append, List.length_append, Nat.add_sub_add_right]
  rw [readStatement?, readStatement?, dropWhile_append_stop hindent, readWords?_stop h]
  cases readWords? (cs.dropWhile fun c => c == ' ' || c == '\t') with
  | none => rfl
  | some read =>
    simp only [Option.map_some, Option.bind_eq_bind, Option.bind_some,
      dropWhile_append_stop (of_isStop h).2.1, readCall?_stop h, bytesBetween_append]
    cases readCall? (read.2.dropWhile Text.isBlank) with
    | none =>
      simp only [Option.map_none, hlength]
    | some call =>
      simp only [Option.map_some, bytesBetween_append, hlength]

/-! ## The statements of a text -/

/-- What a statement takes is part of the text. -/
theorem taken_le_length {found : Statement × Nat} (h : readStatement? offset cs = some found) :
    found.2 ≤ cs.length := by
  rw [readStatement?] at h
  obtain ⟨⟨convention, rest⟩, -, h⟩ := Option.bind_eq_some_iff.1 h
  dsimp only at h
  split at h
  · cases h
    exact Nat.sub_le _ _
  · cases h
    exact Nat.sub_le _ _

theorem statementsFrom_eq :
    statementsFrom offset 0 lineStart (c :: cs) =
      match if lineStart then readStatement? offset (c :: cs) else none with
      | some found =>
        found.1 :: statementsFrom (offset + c.utf8Size) (found.2 - 1) (c == '\n') cs
      | none => statementsFrom (offset + c.utf8Size) 0 (c == '\n') cs := by
  rw [statementsFrom]
  cases (if lineStart then readStatement? offset (c :: cs) else none) <;> rfl

/-- **The statements of a text fall apart at a mark.** -/
theorem statementsFrom_stop (h : isStop c = true) (hskip : skip ≤ cs.length) :
    statementsFrom offset skip lineStart (cs ++ c :: ds) =
      statementsFrom offset skip lineStart cs ++
        statementsFrom (offset + (Text.utf8 cs).length + c.utf8Size) 0 false ds := by
  induction cs generalizing offset skip lineStart with
  | nil =>
    have hzero : skip = 0 := Nat.le_zero.1 hskip
    subst hzero
    have hfeed : (c == '\n') = false := by
      rw [beq_eq_false_iff_ne]
      exact ne_lineFeed_of_isStop h
    have hnone : readStatement? offset (c :: ds) = none := by
      have hread : readStatement? offset ([] ++ c :: ds) = readStatement? offset [] :=
        readStatement?_stop h
      rw [List.nil_append] at hread
      rw [hread]
      rfl
    rw [List.nil_append, statementsFrom_cons fun _ => hnone, hfeed]
    rfl
  | cons d cs ih =>
    have hlen : offset + (Text.utf8 (d :: cs)).length =
        offset + d.utf8Size + (Text.utf8 cs).length := by
      rw [Text.utf8_cons, List.length_append, String.length_utf8EncodeChar, Nat.add_assoc]
    rw [List.length_cons] at hskip
    rw [List.cons_append, hlen]
    cases skip with
    | succ skip =>
      change statementsFrom (offset + d.utf8Size) skip (d == '\n') (cs ++ c :: ds) =
        statementsFrom (offset + d.utf8Size) skip (d == '\n') cs ++ _
      exact ih (Nat.le_of_succ_le_succ hskip)
    | zero =>
      have hread : readStatement? offset (d :: (cs ++ c :: ds)) = readStatement? offset (d :: cs) := by
        rw [← List.cons_append]
        exact readStatement?_stop h
      rw [statementsFrom_eq, statementsFrom_eq, hread]
      cases hfound : (if lineStart then readStatement? offset (d :: cs) else none) with
      | none => exact ih (Nat.zero_le _)
      | some found =>
        have htaken : found.2 ≤ (d :: cs).length := by
          split at hfound
          · exact taken_le_length hfound
          · cases hfound
        rw [List.length_cons] at htaken
        dsimp only
        rw [List.cons_append, ih (by omega)]

/-! ## Offsets -/

/-- The statement so many bytes further on. -/
def Statement.shift (k : Nat) (statement : Statement) : Statement where
  convention := statement.convention
  start := statement.start + k
  stop := statement.stop + k
  call := statement.call.map fun call => (call.1, call.2 + k)

theorem readStatement?_shift :
    readStatement? (offset + k) cs =
      (readStatement? offset cs).map fun found => (found.1.shift k, found.2) := by
  rw [readStatement?, readStatement?]
  cases readWords? (cs.dropWhile fun c => c == ' ' || c == '\t') with
  | none => rfl
  | some read =>
    simp only [Option.bind_eq_bind, Option.bind_some, Nat.add_right_comm _ k]
    cases readCall? (read.2.dropWhile Text.isBlank) with
    | none => rfl
    | some call => rfl

theorem statementsFrom_shift :
    statementsFrom (offset + k) skip lineStart cs =
      (statementsFrom offset skip lineStart cs).map (Statement.shift k) := by
  induction cs generalizing offset skip lineStart with
  | nil => rfl
  | cons c cs ih =>
    cases skip with
    | succ skip =>
      change statementsFrom (offset + k + c.utf8Size) skip (c == '\n') cs =
        (statementsFrom (offset + c.utf8Size) skip (c == '\n') cs).map (Statement.shift k)
      rw [Nat.add_right_comm, ih]
    | zero =>
      rw [statementsFrom_eq, statementsFrom_eq, Nat.add_right_comm, ih, readStatement?_shift]
      cases lineStart with
      | false => rfl
      | true =>
        cases readStatement? offset (c :: cs) with
        | none => rfl
        | some found =>
          simp only [if_true, Option.map_some, ih, List.map_cons]

@[simp]
theorem precedence_shift : (statement.shift k).precedence options = statement.precedence options := by
  have hcall : ((statement.shift k).wrapper? options).isSome =
      (statement.wrapper? options).isSome := by
    unfold Statement.wrapper? Statement.shift
    cases statement.call with
    | none => rfl
    | some call =>
      dsimp only [Option.map_some]
      cases hname : call.1 == options.factory <;> simp [Option.filter, hname]
  rw [Statement.precedence, Statement.precedence, hcall]
  rfl

/-! ## Where statements stand -/

theorem suffix_of_afterWord? {word : String} (h : afterWord? word cs = some ds) : ds <:+ cs := by
  unfold afterWord? at h
  split at h
  · cases h
    exact List.drop_suffix _ _
  · cases h

theorem suffix_of_readWords? {read : Convention × List Char} (h : readWords? cs = some read) :
    read.2 <:+ cs := by
  unfold readWords? at h
  split at h
  · rename_i rest hexport
    have hrest := suffix_of_afterWord? hexport
    rw [List.span_eq_takeWhile_dropWhile] at h
    split at h
    · cases h
    · rename_i blanks rest' heq
      cases heq
      obtain ⟨last, hlast, rfl⟩ := Option.map_eq_some_iff.1 h
      exact (suffix_of_afterWord? hlast).trans ((List.dropWhile_suffix _).trans hrest)
  · obtain ⟨rest, hmodule, h⟩ := Option.bind_eq_some_iff.1 h
    obtain ⟨last, hlast, h⟩ := Option.bind_eq_some_iff.1 h
    cases h
    exact (suffix_of_afterWord? hlast).trans
      ((List.dropWhile_suffix _).trans (suffix_of_afterWord? hmodule))

theorem suffix_of_readCall? {call : String × List Char} (h : readCall? cs = some call) :
    call.2 <:+ cs := by
  unfold readCall? at h
  rw [List.span_eq_takeWhile_dropWhile] at h
  split at h
  · cases h
  · rename_i first name rest heq
    rw [Prod.mk.injEq] at heq
    obtain ⟨-, rfl⟩ := heq
    split at h
    · cases h
    · split at h
      · rename_i inner hinner
        cases h
        have hsuffix := (List.dropWhile_suffix Text.isBlank).trans
          (List.dropWhile_suffix (l := cs) isNameChar)
        rw [hinner] at hsuffix
        exact (List.suffix_cons _ _).trans hsuffix
      · cases h

theorem bytesBetween_le {whole mid rest : List Char} (h : rest <:+ mid) :
    bytesBetween whole mid ≤ bytesBetween whole rest := by
  obtain ⟨front, rfl⟩ := h
  rw [bytesBetween, bytesBetween, Text.utf8_append, List.length_append]
  omega

/-- A statement begins with a letter of the text, and ends behind it. -/
theorem of_readStatement? {found : Statement × Nat} (h : readStatement? offset cs = some found) :
    ∃ front rest, cs = front ++ rest ∧ found.1.start = offset + (Text.utf8 front).length ∧
      (rest.head? = some 'e' ∨ rest.head? = some 'm') ∧
      found.1.start ≤ found.1.stop ∧ ∀ call ∈ found.1.call, found.1.start ≤ call.2 := by
  rw [readStatement?] at h
  obtain ⟨read, hread, h⟩ := Option.bind_eq_some_iff.1 h
  have hwords := suffix_of_readWords? hread
  have hbetween : bytesBetween cs (cs.dropWhile fun c => c == ' ' || c == '\t') =
      (Text.utf8 (cs.takeWhile fun c => c == ' ' || c == '\t')).length := by
    have hparts := congrArg (fun cs => (Text.utf8 cs).length)
      (cs.takeWhile_append_dropWhile (p := fun c => c == ' ' || c == '\t'))
    simp only [Text.utf8_append, List.length_append] at hparts
    rw [bytesBetween]
    omega
  refine ⟨_, _, (cs.takeWhile_append_dropWhile (p := fun c => c == ' ' || c == '\t')).symm, ?_⟩
  have hhead : (cs.dropWhile fun c => c == ' ' || c == '\t').head? = some 'e' ∨
      (cs.dropWhile fun c => c == ' ' || c == '\t').head? = some 'm' := by
    refine Decidable.byContradiction fun hno => ?_
    rw [not_or] at hno
    rw [readWords?_eq_none fun c hc => ⟨fun he => hno.1 (he ▸ hc), fun hm => hno.2 (hm ▸ hc)⟩]
      at hread
    cases hread
  dsimp only at h
  cases hcall : readCall? (read.2.dropWhile Text.isBlank) with
  | none =>
    rw [hcall] at h
    cases h
    refine ⟨congrArg (offset + ·) hbetween, hhead, Nat.add_le_add_left (bytesBetween_le hwords) _,
      fun call hcall => ?_⟩
    cases hcall
  | some call =>
    rw [hcall] at h
    cases h
    refine ⟨congrArg (offset + ·) hbetween, hhead, Nat.add_le_add_left (bytesBetween_le hwords) _,
      fun call' hcall' => ?_⟩
    cases hcall'
    have hinner := (suffix_of_readCall? hcall).trans
      ((List.dropWhile_suffix Text.isBlank).trans hwords)
    exact Nat.add_le_add_left (bytesBetween_le hinner) _

theorem start_of_mem_statementsFrom
    (h : statement ∈ statementsFrom offset skip lineStart cs) :
    ∃ front rest, cs = front ++ rest ∧ statement.start = offset + (Text.utf8 front).length ∧
      (rest.head? = some 'e' ∨ rest.head? = some 'm') ∧
      statement.start ≤ statement.stop ∧ ∀ call ∈ statement.call, statement.start ≤ call.2 := by
  induction cs generalizing offset skip lineStart with
  | nil => cases h
  | cons c cs ih =>
    have hlater {skip : Nat}
        (h : statement ∈ statementsFrom (offset + c.utf8Size) skip (c == '\n') cs) :
        ∃ front rest, c :: cs = front ++ rest ∧
          statement.start = offset + (Text.utf8 front).length ∧
          (rest.head? = some 'e' ∨ rest.head? = some 'm') ∧
          statement.start ≤ statement.stop ∧ ∀ call ∈ statement.call, statement.start ≤ call.2 := by
      obtain ⟨front, rest, rfl, hstart, hbounds⟩ := ih h
      refine ⟨c :: front, rest, rfl, ?_, hbounds⟩
      rw [hstart, Text.utf8_cons, List.length_append, String.length_utf8EncodeChar, Nat.add_assoc]
    cases skip with
    | succ skip => exact hlater h
    | zero =>
      rw [statementsFrom_eq] at h
      cases hfound : (if lineStart then readStatement? offset (c :: cs) else none) with
      | none =>
        rw [hfound] at h
        exact hlater h
      | some found =>
        rw [hfound] at h
        rcases List.mem_cons.1 h with rfl | h
        · split at hfound
          · exact of_readStatement? hfound
          · cases hfound
        · exact hlater h

/-- Without the letters that statements begin with there are none. -/
theorem statementsFrom_eq_nil (h : ∀ c ∈ cs, c ≠ 'e' ∧ c ≠ 'm') :
    statementsFrom offset skip lineStart cs = [] := by
  refine List.eq_nil_iff_forall_not_mem.2 fun statement hmem => ?_
  obtain ⟨front, rest, rfl, -, hhead, -⟩ := start_of_mem_statementsFrom hmem
  rcases hhead with hhead | hhead
  · exact (h 'e' (List.mem_append_right _ (List.mem_of_head? hhead))).1 rfl
  · exact (h 'm' (List.mem_append_right _ (List.mem_of_head? hhead))).2 rfl

/-- Within a line no statement begins. -/
theorem statementsFrom_within (h : '\n' ∉ cs) :
    statementsFrom offset 0 false (cs ++ ds) =
      statementsFrom (offset + (Text.utf8 cs).length) 0 false ds := by
  induction cs generalizing offset with
  | nil => rfl
  | cons c cs ih =>
    rw [List.mem_cons, not_or] at h
    have hfeed : (c == '\n') = false := by
      rw [beq_eq_false_iff_ne]
      exact Ne.symm h.1
    have hoff : false = true → readStatement? offset (c :: (cs ++ ds)) = none := fun h => nomatch h
    rw [List.cons_append, statementsFrom_cons hoff, hfeed, ih h.2, Text.utf8_cons,
      List.length_append, String.length_utf8EncodeChar, Nat.add_assoc]

/-! ## The statement that is preferred -/

variable {sts : List Statement}

theorem precedence_mem : statement.precedence options ∈ [0, 1, 2, 3] := by
  rw [Statement.precedence]
  split <;> split <;> decide

/-- What no statement in front and none behind comes before, none does. -/
theorem precedence_le_of_mem {first last : List Statement}
    (hfirst : ∀ other ∈ first, statement.precedence options < other.precedence options)
    (hlast : ∀ other ∈ last, statement.precedence options ≤ other.precedence options) :
    ∀ other ∈ first ++ statement :: last,
      statement.precedence options ≤ other.precedence options := by
  intro other hother
  rcases List.mem_append.1 hother with hother | hother
  · exact Nat.le_of_lt (hfirst other hother)
  · rcases List.mem_cons.1 hother with rfl | hother
    · exact Nat.le_refl _
    · exact hlast other hother

/-- **The earliest statement of the least precedence** is preferred. -/
theorem preferred?_eq_some_iff : preferred? options sts = some statement ↔
    ∃ first last, sts = first ++ statement :: last ∧
      (∀ other ∈ first, statement.precedence options < other.precedence options) ∧
      ∀ other ∈ last, statement.precedence options ≤ other.precedence options := by
  have hlevels : ([0, 1, 2, 3] : List Nat).Pairwise (· < ·) := by decide
  constructor
  · intro h
    obtain ⟨less, n, more, hlist, hfind, hless⟩ := List.findSome?_eq_some_iff.1 h
    obtain ⟨hn, first, last, rfl, hfirst⟩ := List.find?_eq_some_iff_append.1 hfind
    have hn : statement.precedence options = n := beq_iff_eq.1 hn
    -- no statement has one of the precedences looked at before
    have hle : ∀ other ∈ first ++ statement :: last, n ≤ other.precedence options := by
      intro other hother
      have hlevel : other.precedence options ∈ [0, 1, 2, 3] := precedence_mem
      rw [hlist] at hlevel hlevels
      rcases List.mem_append.1 hlevel with hin | hin
      · have hnone := List.find?_eq_none.1 (hless _ hin) other hother
        exact absurd (beq_self_eq_true _) hnone
      · rcases List.mem_cons.1 hin with heq | hin
        · exact Nat.le_of_eq heq.symm
        · exact Nat.le_of_lt
            ((List.pairwise_cons.1 (List.pairwise_append.1 hlevels).2.1).1 _ hin)
    subst hn
    refine ⟨first, last, rfl, fun other hother => ?_, fun other hother => ?_⟩
    · have hne : other.precedence options ≠ statement.precedence options := by
        simpa using hfirst other hother
      have := hle other (List.mem_append_left _ hother)
      omega
    · exact hle other (List.mem_append_right _ (List.mem_cons_of_mem _ hother))
  · rintro ⟨first, last, rfl, hfirst, hlast⟩
    have hlevel : statement.precedence options ∈ [0, 1, 2, 3] := precedence_mem
    obtain ⟨less, more, hlist⟩ := List.append_of_mem hlevel
    refine List.findSome?_eq_some_iff.2 ⟨less, _, more, hlist, ?_, fun m hm => ?_⟩
    · refine List.find?_eq_some_iff_append.2 ⟨beq_self_eq_true _, first, last, rfl, ?_⟩
      intro other hother
      have := hfirst other hother
      simp only [Bool.not_eq_true', beq_eq_false_iff_ne]
      omega
    · rw [hlist] at hlevels
      have hlt := (List.pairwise_append.1 hlevels).2.2 m hm _ List.mem_cons_self
      refine List.find?_eq_none.2 fun other hother => ?_
      have hle := precedence_le_of_mem hfirst hlast other hother
      simp only [beq_iff_eq]
      omega

theorem preferred?_map_shift : preferred? options (sts.map (Statement.shift k)) =
    (preferred? options sts).map (Statement.shift k) := by
  have hfind (n : Nat) : (sts.map (Statement.shift k)).find? (fun s => s.precedence options == n) =
      (sts.find? fun s => s.precedence options == n).map (Statement.shift k) := by
    rw [List.find?_map]
    congr 2
    funext s
    rw [Function.comp_apply, precedence_shift]
  unfold preferred?
  rw [List.map_findSome?]
  congr 1
  funext n
  exact hfind n

theorem preferred?_le (h : preferred? options sts = some statement) :
    ∀ other ∈ sts, statement.precedence options ≤ other.precedence options := by
  obtain ⟨first, last, rfl, hfirst, hlast⟩ := preferred?_eq_some_iff.1 h
  exact precedence_le_of_mem hfirst hlast

/-- Of some statements one is preferred. -/
theorem preferred?_eq_none_iff : preferred? options sts = none ↔ sts = [] := by
  constructor
  · intro h
    refine List.eq_nil_iff_forall_not_mem.2 fun other hother => ?_
    have hlevel : other.precedence options ∈ [0, 1, 2, 3] := precedence_mem
    have hnone := List.findSome?_eq_none_iff.1 h _ hlevel
    exact absurd (beq_self_eq_true _) (List.find?_eq_none.1 hnone other hother)
  · rintro rfl
    rfl

/-- Statements that others behind them outrank do not matter. -/
theorem preferred?_append_of_lt {first last : List Statement}
    (h : ∀ other ∈ first, ∃ own ∈ last, own.precedence options < other.precedence options) :
    preferred? options (first ++ last) = preferred? options last := by
  cases hlast : preferred? options last with
  | none =>
    rw [preferred?_eq_none_iff] at hlast ⊢
    subst hlast
    rw [List.append_nil]
    refine List.eq_nil_iff_forall_not_mem.2 fun other hother => ?_
    obtain ⟨own, hown, -⟩ := h other hother
    cases hown
  | some statement =>
    have hle := preferred?_le hlast
    obtain ⟨before, after, rfl, hbefore, hafter⟩ := preferred?_eq_some_iff.1 hlast
    refine preferred?_eq_some_iff.2 ⟨first ++ before, after, ?_, fun other hother => ?_, hafter⟩
    · rw [List.append_assoc]
    · rcases List.mem_append.1 hother with hother | hother
      · obtain ⟨own, hown, hlt⟩ := h other hother
        exact Nat.lt_of_le_of_lt (hle own hown) hlt
      · exact hbefore other hother

/-- Statements behind one that they do not outrank do not matter. -/
theorem preferred?_append_of_le {first last : List Statement} (hmem : statement ∈ first)
    (h : ∀ own ∈ last, statement.precedence options ≤ own.precedence options) :
    preferred? options (first ++ last) = preferred? options first := by
  cases hfirst : preferred? options first with
  | none =>
    rw [preferred?_eq_none_iff.1 hfirst] at hmem
    cases hmem
  | some found =>
    have hle := preferred?_le hfirst statement hmem
    obtain ⟨before, after, rfl, hbefore, hafter⟩ := preferred?_eq_some_iff.1 hfirst
    refine preferred?_eq_some_iff.2 ⟨before, after ++ last, ?_, hbefore, fun other hother => ?_⟩
    · rw [List.append_assoc, List.cons_append]
    · rcases List.mem_append.1 hother with hother | hother
      · exact hafter other hother
      · exact Nat.le_trans hle (h other hother)

/-- Statements of no other precedence may come in the place of those that
are not preferred. -/
theorem preferred?_append {first last last' : List Statement}
    (h : preferred? options (first ++ last) = some statement) (hnot : statement ∉ last)
    (hlast : ∀ other ∈ last', ∃ same ∈ last,
      same.precedence options = other.precedence options) :
    preferred? options (first ++ last') = some statement := by
  have hnone {n : Nat} (h : last.find? (fun s => s.precedence options == n) = none) :
      last'.find? (fun s => s.precedence options == n) = none := by
    rw [List.find?_eq_none] at h ⊢
    intro other hother
    obtain ⟨same, hsame, heq⟩ := hlast other hother
    rw [← heq]
    exact h same hsame
  unfold preferred? at h ⊢
  obtain ⟨less, n, more, hlist, hfind, hless⟩ := List.findSome?_eq_some_iff.1 h
  refine List.findSome?_eq_some_iff.2 ⟨less, n, more, hlist, ?_, fun m hm => ?_⟩
  · rw [List.find?_append] at hfind ⊢
    cases hfirst : first.find? (fun s => s.precedence options == n) with
    | some found =>
      rw [hfirst] at hfind
      exact hfind
    | none =>
      rw [hfirst, Option.none_or] at hfind
      exact absurd (List.mem_of_find?_eq_some hfind) hnot
  · have hm := hless m hm
    rw [List.find?_append, Option.or_eq_none_iff] at hm ⊢
    exact ⟨hm.1, hnone hm.2⟩

/-! ## Around a part that is replaced -/

/-- **A part between two marks**, in whose place a line in quotes comes:
one mark stands in front of it, with blanks and the rest of a line between
them, and one behind it, with blanks between them. -/
structure IsMarked (x : Text.Replacement) : Prop where
  front : ∃ before mark line blanks, x.front = before ++ mark :: (line ++ blanks) ∧
    isStop mark = true ∧ '\n' ∉ line ∧ ∀ c ∈ blanks, c ≠ 'e' ∧ c ≠ 'm'
  new : ∃ quote inside, x.new = quote :: (inside ++ [quote]) ∧ isStop quote = true ∧
    '\n' ∉ inside
  back : ∃ blanks mark after, x.back = blanks ++ mark :: after ∧ isStop mark = true ∧
    ∀ c ∈ blanks, c ≠ 'e' ∧ c ≠ 'm'

variable {x : Text.Replacement}

/-- A statement starts behind what begins none. -/
theorem le_start_of_mem_statementsFrom {blanks : List Char}
    (hblanks : ∀ c ∈ blanks, c ≠ 'e' ∧ c ≠ 'm')
    (h : statement ∈ statementsFrom offset skip lineStart (blanks ++ cs)) :
    offset + (Text.utf8 blanks).length ≤ statement.start := by
  obtain ⟨front, rest, htext, hstart, hhead, -⟩ := start_of_mem_statementsFrom h
  have hle : (Text.utf8 blanks).length ≤ (Text.utf8 front).length := by
    rcases List.append_eq_append_iff.1 htext with ⟨middle, rfl, -⟩ | ⟨middle, rfl, hrest⟩
    · rw [Text.utf8_append, List.length_append]
      exact Nat.le_add_right _ _
    · cases middle with
      | nil => exact Nat.le_of_eq (by rw [List.append_nil])
      | cons c middle =>
        have hc := hblanks c (List.mem_append_right _ List.mem_cons_self)
        rw [hrest] at hhead
        rcases hhead with hhead | hhead
        · exact absurd (Option.some.inj hhead) hc.1
        · exact absurd (Option.some.inj hhead) hc.2
  omega

theorem statementsFrom_eq_map :
    statementsFrom offset 0 lineStart cs =
      (statementsFrom 0 0 lineStart cs).map (Statement.shift offset) := by
  have hshift : statementsFrom (0 + offset) 0 lineStart cs = _ := statementsFrom_shift
  rwa [Nat.zero_add] at hshift

/-- A line in quotes between two marks has no statements. -/
theorem exists_statementsFrom_quoted {before line blanks inside blanks' after : List Char}
    {mark quote mark' : Char} (hmark : isStop mark = true) (hbreak : '\n' ∉ line)
    (hblanks : ∀ c ∈ blanks, c ≠ 'e' ∧ c ≠ 'm') (hquote : isStop quote = true)
    (hinside : '\n' ∉ inside) (hblanks' : ∀ c ∈ blanks', c ≠ 'e' ∧ c ≠ 'm')
    (hmark' : isStop mark' = true) :
    ∃ k, statementsFrom 0 0 true (before ++ mark :: ((line ++ blanks) ++
        quote :: (inside ++ quote :: (blanks' ++ mark' :: after)))) =
      statementsFrom 0 0 true before ++ statementsFrom k 0 false after := by
  have hnone {offset : Nat} : statementsFrom offset 0 false inside = [] := by
    have hwithin : statementsFrom offset 0 false (inside ++ []) = _ := statementsFrom_within hinside
    rw [List.append_nil] at hwithin
    rw [hwithin]
    rfl
  rw [statementsFrom_stop hmark (Nat.zero_le _), statementsFrom_stop hquote (Nat.zero_le _),
    statementsFrom_within hbreak, statementsFrom_eq_nil hblanks, List.nil_append,
    statementsFrom_stop hquote (Nat.zero_le _), hnone, List.nil_append,
    statementsFrom_stop hmark' (Nat.zero_le _), statementsFrom_eq_nil hblanks', List.nil_append]
  exact ⟨_, rfl⟩

/-- **The statement that is preferred stays**, if it stands in front of
the part. -/
theorem IsMarked.preferred?_outcome (h : IsMarked x)
    (hstatement : preferred? options (statements x.source) = some statement)
    (hstart : statement.start < x.start) :
    preferred? options (statements x.outcome) = some statement := by
  obtain ⟨⟨before, mark, line, blanks, hfront, hmark, hbreak, hblanks⟩,
    ⟨quote, inside, hnew, hquote, hline⟩, blanks', mark', after, hback, hmark', hblanks'⟩ := h
  have hlen : x.start = (Text.utf8 before).length + mark.utf8Size + (Text.utf8 line).length +
      (Text.utf8 blanks).length := by
    rw [Text.Replacement.start, hfront, Text.utf8_append, Text.utf8_cons, Text.utf8_append]
    simp only [List.length_append, String.length_utf8EncodeChar]
    omega
  obtain ⟨n, hn, hsource⟩ : ∃ n, x.start ≤ n ∧ statements x.source =
      statementsFrom 0 0 true before ++
        (statementsFrom (0 + (Text.utf8 before).length + mark.utf8Size) 0 false
          (line ++ (blanks ++ (x.old ++ blanks'))) ++ statementsFrom n 0 false after) := by
    have htext : x.source.toList =
        before ++ mark :: ((line ++ (blanks ++ (x.old ++ blanks'))) ++ mark' :: after) := by
      rw [Text.Replacement.source, String.toList_ofList, hfront, hback]
      simp
    refine ⟨0 + (Text.utf8 before).length + mark.utf8Size +
      (Text.utf8 (line ++ (blanks ++ (x.old ++ blanks')))).length + mark'.utf8Size, ?_, ?_⟩
    · simp only [Text.utf8_append, List.length_append]
      omega
    · rw [statements, htext, statementsFrom_stop hmark (Nat.zero_le _),
        statementsFrom_stop hmark' (Nat.zero_le _)]
  have houtcome : x.outcome.toList = before ++ mark ::
      ((line ++ blanks) ++ quote :: (inside ++ quote :: (blanks' ++ mark' :: after))) := by
    rw [Text.Replacement.outcome, String.toList_ofList, hfront, hback, hnew]
    simp
  obtain ⟨k, hquoted⟩ : ∃ k, _ = statementsFrom 0 0 true before ++ statementsFrom k 0 false after :=
    exists_statementsFrom_quoted hmark hbreak hblanks hquote hline hblanks' hmark'
  rw [hsource] at hstatement
  rw [statements, houtcome, hquoted]
  refine preferred?_append hstatement (fun hmem => ?_) fun other hother => ?_
  · -- the statements of the part and behind it start there
    rcases List.mem_append.1 hmem with hmem | hmem
    · rw [statementsFrom_within hbreak] at hmem
      have hle := le_start_of_mem_statementsFrom hblanks hmem
      omega
    · have hle := le_start_of_mem_statementsFrom (List.forall_mem_nil _) hmem
      omega
  · -- behind the part only the offsets differ
    rw [statementsFrom_eq_map] at hother
    obtain ⟨origin, horigin, rfl⟩ := List.mem_map.1 hother
    refine ⟨origin.shift n, List.mem_append_right _ ?_, ?_⟩
    · rw [statementsFrom_eq_map]
      exact List.mem_map_of_mem horigin
    · rw [precedence_shift, precedence_shift]

end ConfigPatch.Literal
