import ConfigPatch.Document
import ConfigPatch.Proofs.Edit.Inverse

/-!
# Batches step by step

A batch is nothing but its changes made one after the other. Two batches
in sequence are one batch: the second goes on in the text that the first
one has left, unless the first one was stopped. The edits that a batch
has applied lead from its text to the text it leaves, and their inverses,
latest first, lead back. A document on which the changes are made one by
one ends where a batch of them ends.
-/

namespace ConfigPatch

variable {options : Options} {s t : String}

/-! ## Taking a history back -/

/-- **The inverses of a history, latest first, lead back.** -/
theorem Edit.Joins.replay_inverse {edits : List Edit} (h : Edit.Joins s edits t) :
    Edit.replay t (edits.reverse.map Edit.inverse) = some s := by
  induction h with
  | nil => rfl
  | snoc _ hfits happly ih =>
    rw [List.reverse_append, List.reverse_singleton, List.singleton_append, List.map_cons,
      Edit.replay, List.foldlM_cons, hfits.inverse_applyTo? happly]
    exact ih

namespace Batch

variable {position : Nat} {change : Change} {earlier later changes rest : List Change}

/-! ## One change of a batch -/

/-- What one change does to the rest of its batch. -/
theorem runFrom_cons :
    runFrom options position s (change :: rest) =
      match change.plan options s with
      | .error .misplaced => none
      | .error (.refused cause) => some ⟨s, [], some (position, cause)⟩
      | .ok none => runFrom options (position + 1) s rest
      | .ok (some edit) => (edit.applyTo? s).bind fun next =>
        (runFrom options (position + 1) next rest).map (after edit) := by
  rw [runFrom]
  rfl

/-- The outcome of the same changes, counted from a later position on. -/
def moved (count : Nat) (batch : Batch) : Batch :=
  { batch with failure := batch.failure.map fun (position, cause) => (count + position, cause) }

/-- The position from which a batch counts is only in the failure. -/
theorem runFrom_add (count : Nat) :
    runFrom options (count + position) s changes =
      (runFrom options position s changes).map (moved count) := by
  induction changes generalizing position s with
  | nil => rfl
  | cons change rest ih =>
    rw [runFrom_cons, runFrom_cons]
    cases change.plan options s with
    | error failure => cases failure <;> rfl
    | ok planned =>
      cases planned with
      | none =>
        have hrest : runFrom options (count + (position + 1)) s rest = _ := ih
        exact hrest
      | some edit =>
        simp only [Nat.add_assoc, ih, Option.map_bind, Option.map_map, Function.comp_def]
        rfl

/-! ## Two batches in sequence -/

/-- Goes on with more changes, unless one was refused. -/
def resume (options : Options) (position : Nat) (first : Batch) (later : List Change) :
    Option Batch :=
  match first.failure with
  | some _ => some first
  | none => (runFrom options position first.text later).map fun second =>
    { second with applied := first.applied ++ second.applied }

theorem resume_after (edit : Edit) (first : Batch) :
    (after edit first).resume options position later =
      (first.resume options position later).map (after edit) := by
  cases hfailure : first.failure with
  | some refusal => simp [resume, after, hfailure]
  | none => simp [resume, after, hfailure, Function.comp_def]

/-- **A batch can be cut in two**: the second part goes on where the first
one has ended. -/
theorem runFrom_append :
    runFrom options position s (earlier ++ later) =
      (runFrom options position s earlier).bind fun first =>
        first.resume options (position + earlier.length) later := by
  induction earlier generalizing position s with
  | nil => simp [runFrom, resume]
  | cons change rest ih =>
    have hcount : position + (change :: rest).length = position + 1 + rest.length := by
      simp only [List.length_cons]
      omega
    rw [List.cons_append, hcount, runFrom_cons, runFrom_cons]
    cases change.plan options s with
    | error failure => cases failure <;> rfl
    | ok planned =>
      cases planned with
      | none => exact ih
      | some edit =>
        simp only [ih, Option.map_bind, Option.bind_assoc, Option.bind_map, Function.comp_def,
          resume_after]

end Batch

namespace Document

/-! ## One change after the other -/

/-- Makes one change of a document. -/
def make (document : Document) : Change → Except Failure Document
  | .setPath path value => (document.setPath path value).map Prod.snd
  | .replacePlaceholder placeholder replacement =>
    (document.replacePlaceholder placeholder replacement).map Prod.snd

/-- **Makes changes one by one** until one is refused, and gives the cause
of the refusal. -/
def makeEach (document : Document) : List Change → Option (Document × Option Error)
  | [] => some (document, none)
  | change :: rest =>
    match document.make change with
    | .error .misplaced => none
    | .error (.refused cause) => some (document, some cause)
    | .ok next => next.makeEach rest

/-- A document makes the change that is planned for its text. -/
theorem make_eq (document : Document) (change : Change) :
    document.make change =
      (change.plan document.options document.source).bind fun
        | none => .ok document
        | some edit => document.amend edit := by
  cases change with
  | setPath path value =>
    simp only [make, setPath, Change.plan]
    cases Failure.ofExcept (Path.parse path) with
    | error failure => rfl
    | ok p =>
      cases hplan : Edit.setText document.options document.source p value with
      | error failure => simp [bind, Except.bind, Except.map, hplan]
      | ok edit =>
        cases hnext : document.amend edit <;>
          simp [bind, Except.bind, Except.map, hplan, hnext, pure, Except.pure]
  | replacePlaceholder placeholder replacement =>
    simp only [make, replacePlaceholder, Change.plan]
    cases Placeholder.plan document.options document.source placeholder replacement with
    | error failure => rfl
    | ok planned =>
      cases planned with
      | none => rfl
      | some edit => cases hnext : document.amend edit <;>
          simp [bind, Except.bind, Except.map, hnext, pure, Except.pure]

/-- The document that a batch leaves, and the cause for which it was
stopped. -/
def finish (document : Document) (batch : Batch) : Document × Option Error :=
  ({ document with source := batch.text, history := document.history ++ batch.applied },
    batch.failure.map Prod.snd)

/-- A batch on a document ends where its changes lead. -/
theorem applyBatch_toOption (document : Document) (changes : List Change) :
    (document.applyBatch changes).toOption.map (fun (batch, next) =>
        (next, batch.failure.map Prod.snd)) =
      (Batch.run document.options document.source changes).map document.finish := by
  cases hrun : Batch.run document.options document.source changes with
  | none => simp [applyBatch, hrun, Failure.ofCut, bind, Except.bind, Except.toOption]
  | some batch =>
    simp [applyBatch, hrun, Failure.ofCut, bind, Except.bind, pure, Except.pure, Except.toOption,
      finish]

/-- **Changes made one by one end where a batch of them ends.** -/
theorem makeEach_eq (document : Document) (position : Nat) (changes : List Change) :
    document.makeEach changes =
      (Batch.runFrom document.options position document.source changes).map document.finish := by
  induction changes generalizing document position with
  | nil => simp [makeEach, Batch.runFrom, finish]
  | cons change rest ih =>
    rw [makeEach, make_eq, Batch.runFrom_cons]
    cases change.plan document.options document.source with
    | error failure => cases failure <;> simp [finish, Except.bind]
    | ok planned =>
      cases planned with
      | none => exact ih document (position + 1)
      | some edit =>
        cases hnext : edit.applyTo? document.source with
        | none => simp [Except.bind, amend, hnext, Failure.ofCut, bind]
        | some next =>
          have hamend : document.amend edit =
              .ok { document with source := next, history := document.history ++ [edit] } := by
            simp [amend, hnext, Failure.ofCut, bind, Except.bind, pure, Except.pure]
          simp only [Except.bind, hamend, hnext, ih _ (position + 1), Option.bind_some,
            Option.map_map]
          congr 1
          funext batch
          simp [finish, Batch.after]

end Document

/-! ## Batches and single steps -/

/-- **A batch is its changes made one after the other.** More changes
after a complete batch are a batch of their own on the text it left,
except that they are counted on; after one that was stopped they change
nothing. The edits of a batch lead from its text to the text it leaves,
and their inverses, latest first, lead back, whether or not it was
stopped. On a document, the changes of a batch made one by one until one
is refused lead to the same text and history. -/
theorem Batch.run_stepwise (options : Options) (s : String) (earlier later : List Change) :
    (∀ first, run options s earlier = some first → first.failure = none →
      run options s (earlier ++ later) = (run options first.text later).map fun second =>
        ⟨second.text, first.applied ++ second.applied,
          second.failure.map fun (position, cause) => (earlier.length + position, cause)⟩) ∧
    (∀ first, run options s earlier = some first → first.failure ≠ none →
      run options s (earlier ++ later) = some first) ∧
    (∀ batch, run options s earlier = some batch →
      Edit.replay s batch.applied = some batch.text ∧
      Edit.replay batch.text (batch.applied.reverse.map Edit.inverse) = some s) ∧
    (∀ document : Document,
      document.makeEach earlier =
        (document.applyBatch earlier).toOption.map fun (batch, next) =>
          (next, batch.failure.map Prod.snd)) := by
  -- the later changes are counted on from where the earlier ones end
  have happend : run options s (earlier ++ later) =
      (run options s earlier).bind fun first => first.resume options earlier.length later := by
    have hparts : runFrom options 0 s (earlier ++ later) = _ := runFrom_append
    simpa [run] using hparts
  refine ⟨?complete, ?stopped, ?replayed, ?single⟩
  case complete =>
    intro first hfirst hcomplete
    have hcount : runFrom options (earlier.length + 0) first.text later = _ :=
      runFrom_add earlier.length
    simp only [happend, hfirst, Option.bind_some, resume, hcomplete]
    rw [← Nat.add_zero earlier.length, hcount, Option.map_map]
    rfl
  case stopped =>
    intro first hfirst hstopped
    obtain ⟨refusal, hrefusal⟩ := Option.ne_none_iff_exists'.1 hstopped
    simp [happend, hfirst, resume, hrefusal]
  case replayed =>
    intro batch hbatch
    have hjoins := joins_of_runFrom hbatch
    exact ⟨hjoins.replay_eq, hjoins.replay_inverse⟩
  case single =>
    intro document
    rw [document.applyBatch_toOption earlier]
    exact document.makeEach_eq 0 earlier

/-- Two changes, of which one matches nothing, and then a placeholder, a
path that leads nowhere and a change that is not made. -/
theorem Batch.run_stepwise_mixed :
    run {} "export default \x7b a: 1, b: [X, X] \x7d"
        ([.setPath "a" "two", .replacePlaceholder "Y" "y"] ++
          [.replacePlaceholder "X" "z", .setPath "c" "x", .setPath "a" "three"]) =
      some ⟨"export default \x7b a: \"two\", b: [z, z] \x7d",
        [⟨.path "a", ⟨20, 21⟩, "1", "\"two\""⟩,
          ⟨.placeholder "X" 2, ⟨15, 38⟩, "\x7b a: \"two\", b: [X, X] \x7d",
          "\x7b a: \"two\", b: [z, z] \x7d"⟩],
        some (3, .pathNotFound [.property "c"])⟩ := by
  have hfirst : run {} "export default \x7b a: 1, b: [X, X] \x7d"
      [.setPath "a" "two", .replacePlaceholder "Y" "y"] =
      some ⟨"export default \x7b a: \"two\", b: [X, X] \x7d",
        [⟨.path "a", ⟨20, 21⟩, "1", "\"two\""⟩], none⟩ := by
    decide +kernel
  have hsecond : run {} "export default \x7b a: \"two\", b: [X, X] \x7d"
      [.replacePlaceholder "X" "z", .setPath "c" "x", .setPath "a" "three"] =
      some ⟨"export default \x7b a: \"two\", b: [z, z] \x7d",
        [⟨.placeholder "X" 2, ⟨15, 38⟩, "\x7b a: \"two\", b: [X, X] \x7d",
          "\x7b a: \"two\", b: [z, z] \x7d"⟩],
        some (1, .pathNotFound [.property "c"])⟩ := by
    decide +kernel
  have hall := run_stepwise {} "export default \x7b a: 1, b: [X, X] \x7d"
    [.setPath "a" "two", .replacePlaceholder "Y" "y"]
    [.replacePlaceholder "X" "z", .setPath "c" "x", .setPath "a" "three"]
  rw [hall.1 _ hfirst rfl, hsecond]
  rfl

end ConfigPatch
