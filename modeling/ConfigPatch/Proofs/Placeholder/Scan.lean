import ConfigPatch.Placeholder
import ConfigPatch.Proofs.Text.Run

/-!
# What the search for a placeholder replaces

The search goes over a text character by character and looks at what it
has written last. Of a placeholder made of identifier characters it
replaces the runs of the text that equal it: behind an occurrence no
identifier character follows, so the next one is never judged by what was
written for this one. Any other placeholder is replaced where it occurs
first, and then on from there. Which occurrences are replaced does not
depend on what they are replaced by.
-/

namespace ConfigPatch.Placeholder

open Text (isWordChar isWord runs IsRun IsBreak)

variable {placeholder replacement cs rest front back needle text : List Char} {alone : Bool}
variable {before : Option Char}

/-! ## One stretch of the text -/

theorem standsAt_eq_true_iff : standsAt placeholder alone before cs = true ↔
    ∃ rest, cs = placeholder ++ rest ∧ (alone = true →
      (∀ c ∈ before, isWordChar c = false) ∧ ∀ c ∈ rest.head?, isWordChar c = false) := by
  have hnext (rest : List Char) : (placeholder ++ rest)[placeholder.length]? = rest.head? := by
    rw [List.getElem?_append_right (Nat.le_refl _), Nat.sub_self, List.head?_eq_getElem?]
  rw [standsAt, Bool.and_eq_true, List.isPrefixOf_iff_prefix]
  constructor
  · rintro ⟨⟨rest, rfl⟩, halone⟩
    refine ⟨rest, rfl, fun h => ?_⟩
    simpa [h, hnext, Option.any_eq_false] using halone
  · rintro ⟨rest, rfl, halone⟩
    refine ⟨⟨rest, rfl⟩, ?_⟩
    cases alone with
    | false => rfl
    | true => simpa [hnext, Option.any_eq_false] using halone rfl

/-- The rest of an occurrence is passed over. -/
theorem replaceFrom_skip (skipped : List Char) :
    replaceFrom placeholder replacement alone before skipped.length (skipped ++ rest) =
      replaceFrom placeholder replacement alone before 0 rest := by
  induction skipped with
  | nil => rfl
  | cons c skipped ih => exact ih

/-- An occurrence is replaced. -/
theorem replaceFrom_occurrence (hne : placeholder ≠ [])
    (h : standsAt placeholder alone before (placeholder ++ rest) = true) :
    replaceFrom placeholder replacement alone before 0 (placeholder ++ rest) =
      Prod.map (replacement ++ ·) (· + 1) (replaceFrom placeholder replacement alone
        (replacement.getLast?.or before) 0 rest) := by
  cases placeholder with
  | nil => contradiction
  | cons c tail =>
    rw [List.cons_append] at h ⊢
    rw [replaceFrom, if_pos h, List.length_cons, Nat.add_sub_cancel, replaceFrom_skip]
    rfl

/-- A stretch in which no occurrence starts is copied. -/
theorem replaceFrom_copy (run : List Char)
    (h : ∀ front back, run = front ++ back → back ≠ [] →
      standsAt placeholder alone (front.getLast?.or before) (back ++ rest) = false) :
    replaceFrom placeholder replacement alone before 0 (run ++ rest) =
      Prod.map (run ++ ·) id (replaceFrom placeholder replacement alone
        (run.getLast?.or before) 0 rest) := by
  induction run generalizing before with
  | nil => rfl
  | cons c run ih =>
    have hlast (cs : List Char) : (c :: cs).getLast?.or before = cs.getLast?.or (some c) := by
      rw [List.getLast?_cons, Option.some_or, Option.or_some]
    have hhead : ¬ standsAt placeholder alone before (c :: (run ++ rest)) = true := by
      simpa using h [] (c :: run) rfl (by simp)
    rw [List.cons_append, replaceFrom, if_neg hhead, hlast, ih]
    · rfl
    · intro front back heq hne
      rw [← hlast front]
      exact h (c :: front) back (by rw [heq, List.cons_append]) hne

/-! ## Words -/

/-- What is written for a run of the text. -/
def replaceRun (placeholder replacement run : List Char) : List Char :=
  if run = placeholder then replacement else run

/-- Within a run other than the placeholder the placeholder does not stand
on its own. -/
theorem standsAt_eq_false_of_isRun {b : Bool} {run : List Char} (h : IsRun b run rest)
    (hword : isWord placeholder = true) (hne : run ≠ placeholder)
    (heq : run = front ++ back) (hback : back ≠ []) :
    standsAt placeholder true (front.getLast?.or before) (back ++ rest) = false := by
  rw [Bool.eq_false_iff]
  intro hstands
  obtain ⟨tail, htail, halone⟩ := standsAt_eq_true_iff.1 hstands
  obtain ⟨hbefore, hafter⟩ := halone rfl
  obtain ⟨hnil, hall⟩ := Text.isWord_iff.1 hword
  -- the placeholder starts in the run, so the run is one of identifier characters
  have hhead : back.head? = placeholder.head? := by
    rw [← List.head?_append_of_ne_nil _ hback, htail, List.head?_append_of_ne_nil _ hnil]
  obtain ⟨c, hc⟩ := Option.ne_none_iff_exists'.1 (mt List.head?_eq_none_iff.1 hback)
  have hb : b = true := by
    refine h.eq_true_of_mem (c := c) ?_ (hall c (List.mem_of_head? (hhead ▸ hc)))
    exact heq ▸ List.mem_append_right front (List.mem_of_head? hc)
  subst hb
  rcases front.eq_nil_or_concat with rfl | ⟨front, d, rfl⟩
  · subst heq
    exact hne (h.eq_of_append_eq ⟨hnil, hall, hafter⟩ htail)
  · have hd := hbefore d (by simp)
    rw [h.uniform d (by simp [heq])] at hd
    contradiction

/-- **Of a word the runs that equal it are replaced**, and all else is
copied. -/
theorem replaceFrom_word (hword : isWord placeholder = true) (h : IsBreak before cs.head?) :
    replaceFrom placeholder replacement true before 0 cs =
      ((runs cs).flatMap (replaceRun placeholder replacement), (runs cs).count placeholder) := by
  induction cs using Text.runs_induction generalizing before with
  | nil => rfl
  | run b run rest hrun ih =>
    rw [hrun.runs_append, List.flatMap_cons]
    by_cases hplaceholder : run = placeholder
    · subst hplaceholder
      obtain rfl := hrun.eq_true_of_isWord hword
      have hstands : standsAt run true before (run ++ rest) = true :=
        standsAt_eq_true_iff.2 ⟨rest, rfl, fun _ => ⟨h.of_isWord hword, hrun.maximal⟩⟩
      rw [replaceFrom_occurrence hrun.ne_nil hstands, ih (.inr hrun.maximal),
        List.count_cons_self, replaceRun, if_pos rfl]
      rfl
    · have hbreak : IsBreak (run.getLast?.or before) rest.head? := by
        rw [List.getLast?_eq_some_getLast hrun.ne_nil, Option.some_or,
          ← List.getLast?_eq_some_getLast]
        exact hrun.isBreak
      rw [replaceFrom_copy run fun front back heq hback =>
        standsAt_eq_false_of_isRun hrun hword hplaceholder heq hback, ih hbreak, replaceRun,
        if_neg hplaceholder, List.count_cons_of_ne hplaceholder]
      rfl

theorem replaceIn_word (hword : isWord placeholder = true) :
    replaceIn placeholder replacement cs =
      ((runs cs).flatMap (replaceRun placeholder replacement), (runs cs).count placeholder) := by
  rw [replaceIn, hword]
  exact replaceFrom_word hword (.inl (by simp))

/-- Other characters are copied. -/
theorem replaceRun_of_isRun {run : List Char} (h : IsRun false run rest)
    (hword : isWord placeholder = true) : replaceRun placeholder replacement run = run := by
  refine if_neg ?_
  rintro rfl
  have hfalse := h.eq_true_of_isWord hword
  contradiction

/-- Where a text starts with another character, so does what is written. -/
theorem head?_flatMap_replaceRun (hword : isWord placeholder = true)
    (h : ∀ c ∈ cs.head?, isWordChar c = false) :
    ((runs cs).flatMap (replaceRun placeholder replacement)).head? = cs.head? := by
  cases cs with
  | nil => rfl
  | cons c cs =>
    obtain ⟨run, rest, heq, hrun⟩ := Text.exists_isRun c cs
    rw [h c rfl] at hrun
    rw [heq, hrun.runs_append, List.flatMap_cons, replaceRun_of_isRun hrun hword,
      List.head?_append_of_ne_nil _ hrun.ne_nil, List.head?_append_of_ne_nil _ hrun.ne_nil]

/-- **Where a word is replaced it is gone**, unless it comes with what is
written for it. -/
theorem notMem_runs_replaceRun (hword : isWord placeholder = true)
    (h : placeholder ∉ runs replacement) :
    placeholder ∉ runs ((runs cs).flatMap (replaceRun placeholder replacement)) := by
  induction cs using Text.runs_induction with
  | nil => simp [runs]
  | run b run rest hrun ih =>
    rw [hrun.runs_append, List.flatMap_cons]
    intro hmem
    have hbreak : IsBreak (replaceRun placeholder replacement run).getLast?
        ((runs rest).flatMap (replaceRun placeholder replacement)).head? := by
      cases b with
      | false =>
        rw [replaceRun_of_isRun hrun hword]
        exact .inl fun c hc => hrun.uniform c (List.mem_of_getLast? hc)
      | true =>
        rw [head?_flatMap_replaceRun hword hrun.maximal]
        exact .inr hrun.maximal
    rcases Text.mem_runs_append hword hbreak hmem with hfirst | hrest
    · unfold replaceRun at hfirst
      split at hfirst
      · exact h hfirst
      · rename_i hne
        rw [Text.runs_of_uniform hrun.ne_nil hrun.uniform, List.mem_singleton] at hfirst
        exact hne hfirst.symm
    · exact ih hrest

/-- Replacing once more in what was written replaces nothing. -/
theorem replaceIn_replaceIn {other : List Char} (hword : isWord placeholder = true)
    (h : placeholder ∉ runs replacement) :
    (replaceIn placeholder other (replaceIn placeholder replacement cs).1).2 = 0 := by
  rw [replaceIn_word hword, replaceIn_word hword]
  exact List.count_eq_zero.2 (notMem_runs_replaceRun hword h)

/-! ## Other placeholders -/

/-- **A text parted at the occurrences of another one**: at the first
occurrence, and what is behind that in the same way. -/
inductive Parted (needle : List Char) : List Char → List (List Char) → Prop
  | rest {text : List Char} : ¬ needle <:+: text → Parted needle text [text]
  | occurrence {front rest : List Char} {pieces : List (List Char)} :
      (∀ front' back', front ++ needle ++ rest = front' ++ needle ++ back' →
        front.length ≤ front'.length) →
      Parted needle rest pieces → Parted needle (front ++ needle ++ rest) (front :: pieces)

/-- Of several occurrences one is the first. -/
theorem exists_first (h : needle <:+: text) : ∃ front rest, text = front ++ needle ++ rest ∧
    ∀ front' back', text = front' ++ needle ++ back' → front.length ≤ front'.length := by
  induction text with
  | nil =>
    rw [List.infix_nil] at h
    exact ⟨[], [], by simp [h], by simp⟩
  | cons c text ih =>
    by_cases hstarts : needle <+: c :: text
    · obtain ⟨rest, hrest⟩ := hstarts
      exact ⟨[], rest, by simp [hrest], by simp⟩
    · obtain ⟨front, rest, rfl, hfirst⟩ := ih ((List.infix_cons_iff.1 h).resolve_left hstarts)
      refine ⟨c :: front, rest, by simp, fun front' back' heq => ?_⟩
      cases front' with
      | nil => exact (hstarts ⟨back', by simpa using heq.symm⟩).elim
      | cons d front' =>
        rw [List.cons_append, List.cons_append, List.cons.injEq] at heq
        exact Nat.succ_le_succ (hfirst front' back' heq.2)

/-- Every text can be parted. -/
theorem exists_parted (hne : needle ≠ []) (text : List Char) :
    ∃ pieces, Parted needle text pieces := by
  induction hn : text.length using Nat.strong_induction_on generalizing text with
  | _ n ih =>
    by_cases hoccurs : needle <:+: text
    · obtain ⟨front, rest, rfl, hfirst⟩ := exists_first hoccurs
      have hpos := List.length_pos_of_ne_nil hne
      rw [List.length_append, List.length_append] at hn
      obtain ⟨pieces, hpieces⟩ := ih rest.length (by omega) rest rfl
      exact ⟨front :: pieces, .occurrence hfirst hpieces⟩
    · exact ⟨[text], .rest hoccurs⟩

theorem Parted.ne_nil {pieces : List (List Char)} (h : Parted needle text pieces) :
    pieces ≠ [] := by
  cases h <;> simp

/-- **Other placeholders are replaced at their occurrences from the left**,
each of which starts behind the one before. -/
theorem Parted.replaceFrom_eq {pieces : List (List Char)} (h : Parted placeholder cs pieces)
    (hne : placeholder ≠ []) : replaceFrom placeholder replacement false before 0 cs =
      (replacement.intercalate pieces, pieces.length - 1) := by
  induction h generalizing before with
  | @rest text hoccurs =>
    have hcopy : replaceFrom placeholder replacement false before 0 (text ++ []) =
        (text ++ [], 0) := by
      refine replaceFrom_copy text fun front back heq _ => ?_
      rw [Bool.eq_false_iff]
      intro hstands
      obtain ⟨tail, htail, -⟩ := standsAt_eq_true_iff.1 hstands
      rw [List.append_nil] at htail
      exact hoccurs ⟨front, tail, by rw [heq, htail, List.append_assoc]⟩
    rw [List.append_nil] at hcopy
    exact hcopy.trans (by simp)
  | @occurrence front rest pieces hfirst hrest ih =>
    have hstands : standsAt placeholder false (front.getLast?.or before) (placeholder ++ rest) =
        true := standsAt_eq_true_iff.2 ⟨rest, rfl, by simp⟩
    have hpos := List.length_pos_of_ne_nil hrest.ne_nil
    rw [List.append_assoc, replaceFrom_copy front, replaceFrom_occurrence hne hstands, ih,
      List.intercalate_cons_of_ne_nil hrest.ne_nil]
    · simp only [Prod.map, id, List.length_cons, List.append_assoc]
      rw [Nat.sub_add_cancel hpos, Nat.add_sub_cancel]
    · intro front' back heq hback
      rw [Bool.eq_false_iff]
      intro hstands
      obtain ⟨tail, htail, -⟩ := standsAt_eq_true_iff.1 hstands
      -- it would be an occurrence in front of the first one
      have hle := hfirst front' tail (by rw [heq, List.append_assoc, List.append_assoc, htail,
        List.append_assoc])
      have hlen := congrArg List.length heq
      have hpos := List.length_pos_of_ne_nil hback
      rw [List.length_append] at hlen
      omega

/-- How often a placeholder is replaced does not depend on what it is
replaced by. -/
theorem replaceIn_count (hne : placeholder ≠ []) (cs replacement other : List Char) :
    (replaceIn placeholder replacement cs).2 = (replaceIn placeholder other cs).2 := by
  cases hword : isWord placeholder with
  | true => rw [replaceIn_word hword, replaceIn_word hword]
  | false =>
    obtain ⟨pieces, hpieces⟩ := exists_parted hne cs
    rw [replaceIn, replaceIn, hword, hpieces.replaceFrom_eq hne, hpieces.replaceFrom_eq hne]

end ConfigPatch.Placeholder
