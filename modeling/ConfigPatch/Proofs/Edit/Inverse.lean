import ConfigPatch.Edit.Batch
import ConfigPatch.Proofs.Text.Replacement
import Mathlib.Data.List.Induction

/-!
# Edits and their inverses

An edit fits a text if what it removes is what stands in its span. Every
planned edit fits the text it was planned for; such an edit can be
applied, and its inverse takes the outcome back. A history joins two
texts if its edits lead from the one to the other and each of them fits
the text it meets.
-/

namespace ConfigPatch

namespace Edit

variable {options : Options} {edit : Edit} {s t : String} {p : Path} {source : String}

/-- **The removed text is what stands in the span.** -/
def Fits (edit : Edit) (s : String) : Prop :=
  Text.slice? s edit.span.start edit.span.stop = some edit.removed

/-- The text around the span of an edit that fits. -/
theorem Fits.exists_parts (h : edit.Fits s) :
    ∃ before after, s.toList = before ++ edit.removed.toList ++ after ∧
      (Text.utf8 before).length = edit.span.start ∧
      edit.span.start + (Text.bytes edit.removed).length = edit.span.stop :=
  Text.slice?_eq_some_iff.1 h

/-- An edit leaves the text around its span and puts its content between. -/
theorem applyTo?_of_parts {before after : List Char}
    (hs : s.toList = before ++ edit.removed.toList ++ after)
    (hstart : (Text.utf8 before).length = edit.span.start)
    (hstop : edit.span.start + (Text.bytes edit.removed).length = edit.span.stop) :
    edit.applyTo? s =
      some (String.ofList (before ++ edit.inserted.toList ++ after)) := by
  have hhead : Text.splitAt? s.toList edit.span.start =
      some (before, edit.removed.toList ++ after) :=
    Text.splitAt?_eq_some_iff.2 ⟨by simp [hs], hstart⟩
  have htail : Text.splitAt? s.toList edit.span.stop =
      some (before ++ edit.removed.toList, after) := by
    refine Text.splitAt?_eq_some_iff.2 ⟨hs, ?_⟩
    rw [Text.utf8_append, List.length_append, hstart, ← hstop]
    rfl
  simp only [applyTo?, hhead, htail, Option.bind_eq_bind, Option.bind_some, Option.pure_def,
    Option.some.injEq]
  apply String.ext
  simp

/-- An edit that fits its text as a replacement. -/
theorem Fits.exists_replacement (h : edit.Fits s) : ∃ x : Text.Replacement,
    x.source = s ∧ edit.applyTo? s = some x.outcome ∧ x.new = edit.inserted.toList ∧
      edit.span = ⟨x.start, x.oldStop⟩ ∧ edit.insertedSpan = ⟨x.start, x.newStop⟩ := by
  obtain ⟨before, after, hs, hstart, hstop⟩ := h.exists_parts
  refine ⟨⟨before, edit.removed.toList, edit.inserted.toList, after⟩, ?_, ?_, rfl, ?_, ?_⟩
  · rw [Text.Replacement.source, ← List.append_assoc, ← hs, String.ofList_toList]
  · rw [applyTo?_of_parts hs hstart hstop, Text.Replacement.outcome, List.append_assoc]
  · change edit.span = ⟨(Text.utf8 before).length,
      (Text.utf8 before).length + (Text.bytes edit.removed).length⟩
    rw [hstart, hstop]
  · change Span.mk edit.span.start _ = ⟨(Text.utf8 before).length,
      (Text.utf8 before).length + (Text.bytes edit.inserted).length⟩
    rw [hstart]

/-- The inverse of an edit fits the outcome. -/
theorem Fits.inverse (h : edit.Fits s) (ht : edit.applyTo? s = some t) :
    edit.inverse.Fits t := by
  obtain ⟨before, after, hs, hstart, hstop⟩ := h.exists_parts
  rw [applyTo?_of_parts hs hstart hstop, Option.some.injEq] at ht
  refine Text.slice?_eq_some_iff.2 ⟨before, after, ?_, hstart, rfl⟩
  simp [Edit.inverse, ← ht]

/-- **The inverse takes an edit back.** -/
theorem Fits.inverse_applyTo? (h : edit.Fits s) (ht : edit.applyTo? s = some t) :
    edit.inverse.applyTo? t = some s := by
  obtain ⟨before, after, hs, hstart, hstop⟩ := h.exists_parts
  rw [applyTo?_of_parts hs hstart hstop, Option.some.injEq] at ht
  have hback : t.toList = before ++ edit.inverse.removed.toList ++ after := by
    simp [Edit.inverse, ← ht]
  rw [applyTo?_of_parts hback hstart rfl, Option.some.injEq]
  apply String.ext
  simp [Edit.inverse, hs]

/-! ## Planned edits fit -/

theorem setLiteral_eq_ok : setLiteral options s p source = .ok edit ↔
    ∃ span old, Literal.find options s p = .ok span ∧
      Text.slice? s span.start span.stop = some old ∧ edit = ⟨.path p.text, span, old, source⟩ := by
  unfold setLiteral
  rw [Failure.bind_eq_ok]
  constructor
  · rintro ⟨span, hspan, h⟩
    obtain ⟨old, hold, h⟩ := Failure.bind_eq_ok.1 h
    cases h
    exact ⟨span, old, hspan, Failure.ofCut_eq_ok.1 hold, rfl⟩
  · rintro ⟨span, old, hspan, hold, rfl⟩
    exact ⟨span, hspan, Failure.bind_eq_ok.2 ⟨old, Failure.ofCut_eq_ok.2 hold, rfl⟩⟩

theorem fits_of_setLiteral
    (h : setLiteral options s p source = .ok edit) : edit.Fits s := by
  obtain ⟨span, -, h⟩ := Failure.bind_eq_ok.1 h
  obtain ⟨old, hold, h⟩ := Failure.bind_eq_ok.1 h
  cases h
  exact Failure.ofCut_eq_ok.1 hold

theorem fits_of_setText {value : String}
    (h : setText options s p value = .ok edit) : edit.Fits s :=
  fits_of_setLiteral h

end Edit

variable {options : Options} {edit : Edit} {s t u : String}

theorem Placeholder.fits_of_plan {placeholder replacement : String}
    (h : Placeholder.plan options s placeholder replacement = .ok (some edit)) :
    edit.Fits s := by
  unfold Placeholder.plan at h
  split at h
  · cases h
  · split at h
    · cases h
    · obtain ⟨region, hregion, h⟩ := Failure.bind_eq_ok.1 h
      dsimp only at h
      split at h
      · cases h
      · cases h
        exact Failure.ofCut_eq_ok.1 hregion

/-- **Every planned edit fits** the text it was planned for. -/
theorem Change.fits_of_plan {change : Change}
    (h : change.plan options s = .ok (some edit)) : edit.Fits s := by
  cases change with
  | setPath path value =>
    obtain ⟨p, -, h⟩ := Failure.bind_eq_ok.1 h
    obtain ⟨planned, hplanned, h⟩ := Failure.bind_eq_ok.1 h
    cases h
    exact Edit.fits_of_setText hplanned
  | replacePlaceholder placeholder replacement => exact Placeholder.fits_of_plan h

/-! ## Histories -/

/-- Makes edits again, oldest first. -/
def Edit.replay (s : String) (edits : List Edit) : Option String :=
  edits.foldlM (fun t edit => edit.applyTo? t) s

/-- **A history joins two texts**: each edit fits the text it meets, and
together they lead from the first text to the second. -/
inductive Edit.Joins (s : String) : List Edit → String → Prop
  | nil : Joins s [] s
  | snoc {edits : List Edit} {edit : Edit} {t u : String} :
      Joins s edits t → edit.Fits t → edit.applyTo? t = some u →
      Joins s (edits ++ [edit]) u

namespace Edit.Joins

variable {edits earlier later : List Edit}

/-- The edits of a history can be made again. -/
theorem replay_eq (h : Joins s edits t) : Edit.replay s edits = some t := by
  induction h with
  | nil => rfl
  | snoc _ _ happly ih =>
    simp only [Edit.replay, List.foldlM_append] at ih ⊢
    simp [ih, happly]

/-- Two histories in sequence. -/
theorem append (h : Joins s edits t) (hlater : Joins t later u) :
    Joins s (edits ++ later) u := by
  induction hlater with
  | nil => simpa using h
  | snoc _ hfits happly ih => simpa using ih.snoc hfits happly

/-- A history of one edit. -/
theorem single (hfits : edit.Fits s) (happly : edit.applyTo? s = some t) :
    Joins s [edit] t :=
  Joins.nil.snoc hfits happly

/-- No edits lead nowhere. -/
theorem eq_of_nil (h : Joins s [] t) : t = s := by
  generalize hall : ([] : List Edit) = all at h
  cases h with
  | nil => rfl
  | snoc => simp at hall

/-- **The last edit of a history can be taken apart from it.** -/
theorem exists_of_snoc (h : Joins s (earlier ++ [edit]) u) :
    ∃ t, Joins s earlier t ∧ edit.Fits t ∧ edit.applyTo? t = some u := by
  generalize hall : earlier ++ [edit] = all at h
  cases h with
  | nil => simp at hall
  | snoc hinit hfits happly =>
    obtain ⟨rfl, hlast⟩ := List.append_inj' hall rfl
    cases hlast
    exact ⟨_, hinit, hfits, happly⟩

/-- **Each edit of a history fits the text it meets**, which the edits
before it lead to. -/
theorem exists_of_mem (h : Joins s (earlier ++ edit :: later) u) :
    ∃ t, Joins s earlier t ∧ edit.Fits t := by
  induction later using List.reverseRecOn generalizing u with
  | nil =>
    obtain ⟨t, ht, hfits, -⟩ := h.exists_of_snoc
    exact ⟨t, ht, hfits⟩
  | append_singleton later last ih =>
    rw [← List.cons_append, ← List.append_assoc] at h
    obtain ⟨t, ht, -⟩ := h.exists_of_snoc
    exact ih ht

end Edit.Joins

/-! ## Batches -/

/-- **The edits of a batch join its text to the text it leaves**, also
where a change was refused. -/
theorem Batch.joins_of_runFrom {changes : List Change} {position : Nat} {batch : Batch}
    (h : Batch.runFrom options position s changes = some batch) :
    Edit.Joins s batch.applied batch.text := by
  induction changes generalizing position s batch with
  | nil =>
    cases h
    exact .nil
  | cons change rest ih =>
    unfold Batch.runFrom at h
    split at h
    · cases h
    · cases h
      exact .nil
    · exact ih h
    · rename_i edit hplan
      obtain ⟨next, hnext, h⟩ := Option.bind_eq_some_iff.1 h
      obtain ⟨inner, hinner, rfl⟩ := Option.map_eq_some_iff.1 h
      exact (Edit.Joins.single (Change.fits_of_plan hplan) hnext).append (ih hinner)

end ConfigPatch
