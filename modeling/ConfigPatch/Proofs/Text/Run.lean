import ConfigPatch.Text.Character
import Mathlib.Data.List.SplitBy

/-!
# Maximal runs of identifier characters

A text falls into runs: longest stretches of identifier characters only,
and the stretches of other characters between them. `mem_runs_iff` says
where a word is a run of a text: where no identifier character stands
next to it. Facts about all texts follow run by run (`runs_induction`),
and where two texts do not meet within a word, a word of the whole is a
word of one of them (`mem_runs_append`).
-/

namespace ConfigPatch.Text

variable {b : Bool} {c : Char} {cs xs ys run rest w : List Char}

/-- Whether both characters are identifier characters or neither is. -/
def isAlike (c d : Char) : Bool :=
  isWordChar c == isWordChar d

/-- **The maximal runs of a text**, in their order. -/
def runs (cs : List Char) : List (List Char) :=
  cs.splitBy isAlike

/-- A run, and the text behind it that begins with another one. `b` says
whether the run is one of identifier characters. -/
structure IsRun (b : Bool) (run rest : List Char) : Prop where
  ne_nil : run ≠ []
  uniform : ∀ c ∈ run, isWordChar c = b
  maximal : ∀ c ∈ rest.head?, isWordChar c = !b

/-- A place at which no word goes on: an identifier character is missing on
one of its sides. -/
def IsBreak (before after : Option Char) : Prop :=
  (∀ c ∈ before, isWordChar c = false) ∨ ∀ c ∈ after, isWordChar c = false

theorem isWord_iff : isWord w = true ↔ w ≠ [] ∧ ∀ c ∈ w, isWordChar c = true := by
  simp [isWord]

theorem runs_of_uniform (hne : run ≠ []) (h : ∀ c ∈ run, isWordChar c = b) :
    runs run = [run] := by
  refine List.splitBy_of_isChain hne (List.Pairwise.isChain ?_)
  refine List.pairwise_of_forall_mem_list fun c hc d hd => ?_
  simp [isAlike, h c hc, h d hd]

/-- Runs do not reach over a change from one kind of character to the
other. -/
theorem runs_append (h : ∀ c ∈ xs.getLast?, ∀ d ∈ ys.head?, isWordChar c ≠ isWordChar d) :
    runs (xs ++ ys) = runs xs ++ runs ys :=
  List.splitBy_append fun c hc d hd => by simpa [isAlike] using h c hc d hd

namespace IsRun

theorem runs_append (h : IsRun b run rest) : runs (run ++ rest) = run :: runs rest := by
  rw [Text.runs_append, runs_of_uniform h.ne_nil h.uniform, List.singleton_append]
  intro c hc d hd
  rw [h.uniform c (List.mem_of_getLast? hc), h.maximal d hd]
  cases b <;> decide

theorem eq_true_of_mem (h : IsRun b run rest) (hc : c ∈ run) (hword : isWordChar c = true) :
    b = true := by
  rw [← h.uniform c hc, hword]

theorem eq_true_of_isWord (h : IsRun b run rest) (hrun : isWord run = true) : b = true :=
  h.eq_true_of_mem (List.head_mem h.ne_nil) ((isWord_iff.1 hrun).2 _ (List.head_mem h.ne_nil))

/-- No word goes on behind a run. -/
theorem isBreak (h : IsRun b run rest) : IsBreak run.getLast? rest.head? := by
  cases b with
  | false => exact .inl fun c hc => h.uniform c (List.mem_of_getLast? hc)
  | true => exact .inr h.maximal

/-- A text has one first run. -/
theorem eq_of_append_eq {b' : Bool} {run' rest' : List Char} (h : IsRun b run rest)
    (h' : IsRun b' run' rest') (heq : run ++ rest = run' ++ rest') : run = run' := by
  have hruns : run :: runs rest = run' :: runs rest' := by
    rw [← h.runs_append, ← h'.runs_append, heq]
  exact (List.cons.inj hruns).1

end IsRun

/-- A text that is not empty starts with a run. -/
theorem exists_isRun (c : Char) (cs : List Char) :
    ∃ run rest, c :: cs = run ++ rest ∧ IsRun (isWordChar c) run rest := by
  refine ⟨(c :: cs).takeWhile (isWordChar · == isWordChar c),
    (c :: cs).dropWhile (isWordChar · == isWordChar c), by simp, by simp, ?_, ?_⟩
  · intro d hd
    simpa using List.all_eq_true.1 List.all_takeWhile d hd
  · intro d hd
    have hne := List.head?_dropWhile_not (isWordChar · == isWordChar c) (c :: cs)
    rw [Option.mem_def.1 hd] at hne
    simpa [Bool.eq_not] using hne

/-- **Induction over the runs of a text**, from its end. -/
theorem runs_induction {motive : List Char → Prop} (nil : motive [])
    (run : ∀ b run rest, IsRun b run rest → motive rest → motive (run ++ rest)) :
    ∀ cs, motive cs := by
  intro cs
  induction hn : cs.length using Nat.strong_induction_on generalizing cs with
  | _ n ih =>
    cases cs with
    | nil => exact nil
    | cons c cs =>
      obtain ⟨first, rest, heq, h⟩ := exists_isRun c cs
      have hpos := List.length_pos_of_ne_nil h.ne_nil
      have hlen := congrArg List.length heq
      rw [List.length_append] at hlen
      rw [heq]
      exact run _ first rest h (ih rest.length (by omega) rest rfl)

/-- The first and the last character of a word. -/
theorem isWordChar_ends (hw : isWord w = true) :
    (∀ c ∈ w.head?, isWordChar c = true) ∧ ∀ c ∈ w.getLast?, isWordChar c = true :=
  ⟨fun c hc => (isWord_iff.1 hw).2 c (List.mem_of_head? hc),
    fun c hc => (isWord_iff.1 hw).2 c (List.mem_of_getLast? hc)⟩

/-- **A word is a run of a text where it stands on its own**, with no
identifier character in front of it or behind it. -/
theorem mem_runs_iff (hw : isWord w = true) : w ∈ runs cs ↔ ∃ front back,
    cs = front ++ w ++ back ∧ (∀ c ∈ front.getLast?, isWordChar c = false) ∧
      ∀ c ∈ back.head?, isWordChar c = false := by
  obtain ⟨hne, hall⟩ := isWord_iff.1 hw
  constructor
  · intro hmem
    induction cs using runs_induction with
    | nil => simp [runs] at hmem
    | run b run rest h ih =>
      rw [h.runs_append, List.mem_cons] at hmem
      rcases hmem with rfl | hmem
      · have hb := h.eq_true_of_isWord hw
        exact ⟨[], rest, by simp, by simp, by simpa [hb] using h.maximal⟩
      · obtain ⟨front, back, rfl, hfront, hback⟩ := ih hmem
        refine ⟨run ++ front, back, by simp, ?_, hback⟩
        cases front with
        | cons d front => simpa using hfront
        | nil =>
          -- the word starts the text behind the run, so the run is none of words
          have hb : b = false := by
            have := h.maximal (w.head hne) (by simp [List.head?_eq_some_head hne])
            rw [hall _ (List.head_mem hne)] at this
            simpa using this.symm
          intro c hc
          rw [List.append_nil] at hc
          rw [h.uniform c (List.mem_of_getLast? hc), hb]
  · rintro ⟨front, back, rfl, hfront, hback⟩
    obtain ⟨hhead, hlast⟩ := isWordChar_ends hw
    rw [List.append_assoc, runs_append, runs_append, runs_of_uniform hne hall]
    · simp
    · intro c hc d hd
      simp [hlast c hc, hback d hd]
    · intro c hc d hd
      rw [List.head?_append_of_ne_nil _ hne] at hd
      simp [hfront c hc, hhead d hd]

/-- Behind a break a word starts anew. -/
theorem IsBreak.of_isWord {before : Option Char} (h : IsBreak before (w ++ rest).head?)
    (hw : isWord w = true) : ∀ c ∈ before, isWordChar c = false := by
  refine h.resolve_right fun hfirst => ?_
  obtain ⟨hne, hall⟩ := isWord_iff.1 hw
  rw [List.head?_append_of_ne_nil _ hne] at hfirst
  have hc := hfirst _ (List.head?_eq_some_head hne)
  rw [hall _ (List.head_mem hne)] at hc
  contradiction

/-- A word of a text is a word of one of its two parts, unless the parts
meet within a word. -/
theorem mem_runs_append (hw : isWord w = true) (hbreak : IsBreak xs.getLast? ys.head?)
    (h : w ∈ runs (xs ++ ys)) : w ∈ runs xs ∨ w ∈ runs ys := by
  obtain ⟨front, back, heq, hfront, hback⟩ := (mem_runs_iff hw).1 h
  rw [List.append_assoc] at heq
  rcases List.append_eq_append_iff.1 heq with ⟨gap, rfl, rfl⟩ | ⟨part, rfl, hrest⟩
  · -- the word lies in the second part
    refine .inr ((mem_runs_iff hw).2 ⟨gap, back, by simp, ?_, hback⟩)
    intro c hc
    exact hfront c (List.mem_getLast?_append_of_mem_getLast? hc)
  rcases List.append_eq_append_iff.1 hrest with ⟨gap, rfl, rfl⟩ | ⟨part', rfl, rfl⟩
  · -- the word lies in the first part
    refine .inl ((mem_runs_iff hw).2 ⟨front, gap, by simp, hfront, ?_⟩)
    intro c hc
    exact hback c (List.mem_head?_append_of_mem_head? hc)
  -- the parts meet within the word, which one of them therefore holds in whole
  have hall := (isWord_iff.1 hw).2
  rcases part.eq_nil_or_concat with rfl | ⟨part, c, rfl⟩
  · exact .inr ((mem_runs_iff hw).2 ⟨[], back, by simp, by simp, hback⟩)
  rcases part' with _ | ⟨d, part'⟩
  · exact .inl ((mem_runs_iff hw).2 ⟨front, [], by simp, hfront, by simp⟩)
  rcases hbreak with hbreak | hbreak
  · have hc := hbreak c (by simp)
    rw [hall c (by simp)] at hc
    contradiction
  · have hd := hbreak d (by simp)
    rw [hall d (by simp)] at hd
    contradiction

end ConfigPatch.Text
