import ConfigPatch.Document
import ConfigPatch.Proofs.Edit.Inverse

/-!
# The history of a document

A request is one of the four operations that a document offers, and a run
serves requests in any order. A refused request leaves the document as it
is; a run in which a text would have to be cut at a wrong place has no
outcome. `Sound` is the invariant of runs: the history joins the loaded
text to the present one. Everything that is known of undoing follows from
it.
-/

namespace ConfigPatch

namespace Document

/-- What may be asked of a document. -/
inductive Request where
  | setPath (path value : String)
  | replacePlaceholder (placeholder replacement : String)
  | applyBatch (changes : List Change)
  | undo

/-- The document that an operation leaves: a refused one leaves it as it
was. There is none where a text would have to be cut at a wrong place. -/
def settle {α : Type} (document : Document) :
    Except Failure (α × Document) → Option Document
  | .ok (_, next) => some next
  | .error (.refused _) => some document
  | .error .misplaced => none

/-- **Serves one request.** -/
def serve (document : Document) : Request → Option Document
  | .setPath path value => document.settle (document.setPath path value)
  | .replacePlaceholder placeholder replacement =>
    document.settle (document.replacePlaceholder placeholder replacement)
  | .applyBatch changes => document.settle (document.applyBatch changes)
  | .undo => document.settle document.undo

/-- **A run**: serves requests one after the other. -/
def serveAll (document : Document) (requests : List Request) : Option Document :=
  requests.foldlM serve document

/-- **The invariant of runs**: the history joins the loaded text to the
present one. -/
structure Sound (s : String) (document : Document) : Prop where
  loaded : document.loaded = s
  joins : Edit.Joins s document.history document.source

variable {s : String} {document next : Document}

/-- A new document has no history. -/
theorem sound_ofText (options : Options) (file : Option String) (s : String) :
    Sound s { ofText options s with file := file } :=
  ⟨rfl, .nil⟩

/-! ## What one operation keeps -/

namespace Sound

/-- Applying an edit that fits keeps the invariant. -/
theorem amend {edit : Edit} (h : Sound s document) (hfits : edit.Fits document.source)
    (hnext : document.amend edit = .ok next) : Sound s next := by
  obtain ⟨source, hsource, hnext⟩ := Failure.bind_eq_ok.1 hnext
  cases hnext
  exact ⟨h.loaded, h.joins.snoc hfits (Failure.ofCut_eq_ok.1 hsource)⟩

theorem setPath {path value : String} {edit : Edit} (h : Sound s document)
    (hnext : document.setPath path value = .ok (edit, next)) : Sound s next := by
  obtain ⟨p, -, hnext⟩ := Failure.bind_eq_ok.1 hnext
  obtain ⟨planned, hplanned, hnext⟩ := Failure.bind_eq_ok.1 hnext
  obtain ⟨amended, hamended, hnext⟩ := Failure.bind_eq_ok.1 hnext
  cases hnext
  exact h.amend (Edit.fits_of_setText hplanned) hamended

theorem replacePlaceholder {placeholder replacement : String} {edit : Option Edit}
    (h : Sound s document)
    (hnext : document.replacePlaceholder placeholder replacement = .ok (edit, next)) :
    Sound s next := by
  obtain ⟨planned, hplanned, hnext⟩ := Failure.bind_eq_ok.1 hnext
  cases planned with
  | none =>
    cases hnext
    exact h
  | some edit =>
    obtain ⟨amended, hamended, hnext⟩ := Failure.bind_eq_ok.1 hnext
    cases hnext
    exact h.amend (Placeholder.fits_of_plan hplanned) hamended

theorem applyBatch {changes : List Change} {batch : Batch} (h : Sound s document)
    (hnext : document.applyBatch changes = .ok (batch, next)) : Sound s next := by
  obtain ⟨made, hmade, hnext⟩ := Failure.bind_eq_ok.1 hnext
  cases hnext
  exact ⟨h.loaded, h.joins.append (Batch.joins_of_runFrom (Failure.ofCut_eq_ok.1 hmade))⟩

/-- **Undoing restores the text before the last edit** and takes the edit
from the history. It cannot fail. -/
theorem undo_eq {earlier : List Edit} {edit : Edit} (h : Sound s document)
    (hlast : document.history = earlier ++ [edit]) :
    ∃ t, Edit.Joins s earlier t ∧
      document.undo = .ok (some edit, { document with source := t, history := earlier }) := by
  have hjoins := h.joins
  rw [hlast] at hjoins
  obtain ⟨t, hearlier, hfits, happly⟩ := hjoins.exists_of_snoc
  refine ⟨t, hearlier, ?_⟩
  simp only [undo, hlast, List.getLast?_append, List.getLast?_singleton, Option.some_or,
    hfits.inverse_applyTo? happly, List.dropLast_concat, Failure.ofCut_some]
  rfl

theorem undo {edit : Option Edit} (h : Sound s document)
    (hnext : document.undo = .ok (edit, next)) : Sound s next := by
  rcases List.eq_nil_or_concat document.history with hnil | ⟨earlier, last, hlast⟩
  · simp only [Document.undo, hnil, List.getLast?_nil, Except.ok.injEq, Prod.mk.injEq] at hnext
    exact hnext.2 ▸ h
  · rw [List.concat_eq_append] at hlast
    obtain ⟨t, hearlier, hundo⟩ := h.undo_eq hlast
    rw [hundo] at hnext
    cases hnext
    exact ⟨h.loaded, hearlier⟩

/-- An operation that keeps the invariant where it succeeds keeps it. -/
theorem settle {α : Type} {outcome : Except Failure (α × Document)} (h : Sound s document)
    (hok : ∀ a made, outcome = .ok (a, made) → Sound s made)
    (hnext : document.settle outcome = some next) : Sound s next := by
  match outcome, hnext with
  | .ok (a, _), rfl => exact hok a _ rfl
  | .error (.refused _), rfl => exact h

/-- **One request keeps the invariant.** -/
theorem serve {request : Request} (h : Sound s document)
    (hnext : document.serve request = some next) : Sound s next := by
  cases request with
  | setPath path value => exact h.settle (fun _ _ => h.setPath) hnext
  | replacePlaceholder placeholder replacement =>
    exact h.settle (fun _ _ => h.replacePlaceholder) hnext
  | applyBatch changes => exact h.settle (fun _ _ => h.applyBatch) hnext
  | undo => exact h.settle (fun _ _ => h.undo) hnext

/-- **A run keeps the invariant.** -/
theorem serveAll {requests : List Request} (h : Sound s document)
    (hnext : document.serveAll requests = some next) : Sound s next := by
  induction requests generalizing document with
  | nil =>
    cases hnext
    exact h
  | cons request rest ih =>
    obtain ⟨middle, hmiddle, hnext⟩ := Option.bind_eq_some_iff.1 hnext
    exact ih (h.serve hmiddle) hnext

/-- **Undoing everything leads back to the loaded text.** -/
theorem undo_all {edits : List Edit} (h : Sound s document) (hall : document.history = edits) :
    document.serveAll (List.replicate edits.length .undo) =
      some { document with source := s, history := [] } := by
  induction edits using List.reverseRecOn generalizing document with
  | nil =>
    have hsource : document.source = s := (hall ▸ h.joins).eq_of_nil
    cases document
    cases hall
    cases hsource
    rfl
  | append_singleton earlier edit ih =>
    obtain ⟨t, hearlier, hundo⟩ := h.undo_eq hall
    have hsound : Sound s { document with source := t, history := earlier } :=
      ⟨h.loaded, hearlier⟩
    have hrest := ih hsound rfl
    rw [List.length_append, List.length_singleton, List.replicate_succ]
    simp only [Document.serveAll, List.foldlM_cons, Document.serve, hundo, Document.settle,
      Option.bind_eq_bind, Option.bind_some]
    exact hrest

end Sound

/-! ## What a run leaves -/

/-- A change that is refused leaves the document as it is. -/
theorem serve_setPath_of_refused {path value : String} {cause : Error}
    (h : document.setPath path value = .error (.refused cause)) :
    document.serve (.setPath path value) = some document := by
  rw [serve, h, settle]

/-- A placeholder that does not occur leaves the document as it is. -/
theorem serve_replacePlaceholder_of_plan_none {placeholder replacement : String}
    (h : Placeholder.plan document.options document.source placeholder replacement = .ok none) :
    document.serve (.replacePlaceholder placeholder replacement) = some document := by
  rw [serve, replacePlaceholder, h]
  rfl

/-- There is nothing to undo without a history. -/
theorem serve_undo_of_nil (h : document.history = []) :
    document.serve .undo = some document := by
  rw [serve, undo, h]
  rfl

/-- **The history of a document is sound after every run.** Made again on
the loaded text, the edits lead to the present text, and each of them
removes what stands in its span. What is refused or matches nothing
changes nothing. Undoing takes the last edit away and restores the text
before it, and undoing everything restores the loaded text. -/
theorem history_of_serveAll {options : Options} {file : Option String} {s : String}
    {requests : List Request} {document : Document}
    (h : serveAll { ofText options s with file := file } requests = some document) :
    Edit.replay s document.history = some document.source ∧
    (∀ earlier edit later, document.history = earlier ++ edit :: later →
      ∃ t, Edit.replay s earlier = some t ∧
        Text.slice? t edit.span.start edit.span.stop = some edit.removed) ∧
    (∀ path value cause, document.setPath path value = .error (.refused cause) →
      document.serve (.setPath path value) = some document) ∧
    (∀ placeholder replacement,
      Placeholder.plan document.options document.source placeholder replacement = .ok none →
      document.serve (.replacePlaceholder placeholder replacement) = some document) ∧
    (document.history = [] → document.serve .undo = some document) ∧
    (∀ earlier edit, document.history = earlier ++ [edit] →
      ∃ t, Edit.replay s earlier = some t ∧
        document.undo =
          .ok (some edit, { document with source := t, history := earlier })) ∧
    (∃ final, document.serveAll (List.replicate document.history.length .undo) = some final ∧
      final.source = s ∧ final.history = [] ∧ final.isChanged = false) := by
  have hsound : Sound s document := (sound_ofText options file s).serveAll h
  refine ⟨hsound.joins.replay_eq, ?_, fun _ _ _ => serve_setPath_of_refused,
    fun _ _ => serve_replacePlaceholder_of_plan_none, serve_undo_of_nil, ?_, ?_⟩
  · intro earlier edit later hsplit
    obtain ⟨t, ht, hfits⟩ := (hsplit ▸ hsound.joins).exists_of_mem
    exact ⟨t, ht.replay_eq, hfits⟩
  · intro earlier edit hlast
    obtain ⟨t, ht, hundo⟩ := hsound.undo_eq hlast
    exact ⟨t, ht.replay_eq, hundo⟩
  · refine ⟨_, hsound.undo_all rfl, rfl, rfl, ?_⟩
    simp [isChanged, hsound.loaded]

/-- A run with a refused change, a batch that stops midway, a placeholder
that occurs twice and an undo. -/
theorem history_of_mixed_run :
    ∃ document : Document,
      serveAll { ofText {} "export default \x7b a: 1, b: [X, X] \x7d" with file := none }
        [.setPath "c" "x", .applyBatch [.setPath "a" "two", .setPath "b[2]" "x"],
          .replacePlaceholder "X" "long", .undo, .setPath "b[0]" "\x7b\x7d"] = some document ∧
      document.source = "export default \x7b a: \"two\", b: [\x7b\x7d, X] \x7d" ∧
      document.history.length = 2 ∧
      Edit.replay "export default \x7b a: 1, b: [X, X] \x7d" document.history =
        some document.source ∧
      (∃ final, document.serveAll (List.replicate document.history.length .undo) = some final ∧
        final.source = "export default \x7b a: 1, b: [X, X] \x7d" ∧ final.history = [] ∧
        final.isChanged = false) := by
  have hrun : serveAll { ofText {} "export default \x7b a: 1, b: [X, X] \x7d" with file := none }
      [.setPath "c" "x", .applyBatch [.setPath "a" "two", .setPath "b[2]" "x"],
        .replacePlaceholder "X" "long", .undo, .setPath "b[0]" "\x7b\x7d"] =
      some {
        file := none
        loaded := "export default \x7b a: 1, b: [X, X] \x7d"
        source := "export default \x7b a: \"two\", b: [\x7b\x7d, X] \x7d"
        options := {}
        history := [⟨.path "a", ⟨20, 21⟩, "1", "\"two\""⟩, ⟨.path "b[0]", ⟨31, 32⟩, "X", "\x7b\x7d"⟩] } := by
    decide +kernel
  have hall := history_of_serveAll hrun
  exact ⟨_, hrun, rfl, rfl, hall.1, hall.2.2.2.2.2.2⟩

end Document

end ConfigPatch
