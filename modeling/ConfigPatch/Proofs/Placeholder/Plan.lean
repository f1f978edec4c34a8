import ConfigPatch.Proofs.Literal.Boundary
import ConfigPatch.Proofs.Placeholder.Scan

/-!
# The edit that replaces a placeholder

The brackets around the exported literal are ASCII, so its text can always
be cut out, and what is found there decides whether there is an edit, where
it is, what it removes and how many occurrences it counts. Only what it
inserts depends on the replacement.
-/

namespace ConfigPatch

variable {options : Options} {s : String} {literal : Exported}

namespace Placeholder

open Text (isWord runs)

variable {placeholder replacement region : String} {cause : Error}

/-! ## Planning -/

theorem plan_of_error (h : Literal.exported options s = .error cause) :
    plan options s placeholder replacement = .ok none := by
  unfold plan
  split
  · rfl
  · rw [h]

theorem plan_of_region (hne : placeholder ≠ "") (h : Literal.exported options s = .ok literal)
    (hregion : Text.slice? s literal.span.start literal.span.stop = some region) :
    plan options s placeholder replacement = .ok
      (if (replaceIn placeholder.toList replacement.toList region.toList).2 = 0 then none
        else some ⟨.placeholder placeholder
            (replaceIn placeholder.toList replacement.toList region.toList).2,
          literal.span, region, String.ofList
            (replaceIn placeholder.toList replacement.toList region.toList).1⟩) := by
  unfold plan
  rw [if_neg (by simpa using hne), h]
  dsimp only
  rw [hregion]
  rfl

/-- **All but the inserted text is decided by the literal**: whether there
is an edit, its span, the text it removes, and the number of occurrences. -/
theorem plan_eq (hne : placeholder ≠ "") (h : Literal.exported options s = .ok literal) :
    ∃ region n, Text.slice? s literal.span.start literal.span.stop = some region ∧
      count options s placeholder = .ok n ∧ ∀ replacement : String,
        (replaceIn placeholder.toList replacement.toList region.toList).2 = n ∧
        plan options s placeholder replacement = .ok (if n = 0 then none else
          some ⟨.placeholder placeholder n, literal.span, region, String.ofList
            (replaceIn placeholder.toList replacement.toList region.toList).1⟩) := by
  obtain ⟨statement, opening, span, b, -, -, -, -, hspan, heq⟩ := Literal.exported_eq_ok.1 h
  obtain ⟨region, hregion⟩ := (Literal.isCutOut_of_spanAt hspan).1.exists_slice?
  have hslice : Text.slice? s literal.span.start literal.span.stop = some region := by
    rw [heq]
    exact hregion
  have hcount (replacement : String) := replaceIn_count (mt String.toList_eq_nil_iff.1 hne)
    region.toList replacement.toList placeholder.toList
  refine ⟨region, _, hslice, ?_, fun replacement => ⟨hcount replacement, ?_⟩⟩
  · unfold count
    rw [plan_of_region hne h hslice]
    split
    · rename_i hzero
      rw [hzero]
      rfl
    · rfl
  · rw [plan_of_region hne h hslice, hcount]

theorem count_of_error (h : Literal.exported options s = .error cause) :
    count options s placeholder = .ok 0 := by
  unfold count
  rw [plan_of_error h]
  rfl

/-- **What replacing a placeholder in the exported literal does.** Of a
word it replaces the runs of the literal that equal it; any other
placeholder it replaces at its first occurrence and on from there; and it
copies the rest. So whether there is an edit, the span, what is removed and
the number of occurrences, which `count` gives as well, are the same for
every replacement. A word is not found again in what was written, unless it
is a run of the replacement. -/
theorem replaces_occurrences (hne : placeholder ≠ "") :
    (isWord placeholder.toList = true → ∀ replacement text,
      replaceIn placeholder.toList replacement text =
        ((runs text).flatMap (replaceRun placeholder.toList replacement),
          (runs text).count placeholder.toList)) ∧
    (isWord placeholder.toList = false → ∀ text, ∃ pieces,
      Parted placeholder.toList text pieces ∧ ∀ replacement,
        replaceIn placeholder.toList replacement text =
          (replacement.intercalate pieces, pieces.length - 1)) ∧
    (∀ options s cause, Literal.exported options s = .error cause →
      count options s placeholder = .ok 0 ∧
        ∀ replacement, plan options s placeholder replacement = .ok none) ∧
    (∀ options s literal, Literal.exported options s = .ok literal → ∃ region n,
      Text.slice? s literal.span.start literal.span.stop = some region ∧
      count options s placeholder = .ok n ∧ ∀ replacement : String,
        (replaceIn placeholder.toList replacement.toList region.toList).2 = n ∧
        plan options s placeholder replacement = .ok (if n = 0 then none else
          some ⟨.placeholder placeholder n, literal.span, region, String.ofList
            (replaceIn placeholder.toList replacement.toList region.toList).1⟩)) ∧
    (isWord placeholder.toList = true → ∀ replacement, placeholder.toList ∉ runs replacement →
      ∀ text other, (replaceIn placeholder.toList other
        (replaceIn placeholder.toList replacement text).1).2 = 0) := by
  refine ⟨fun hword _ _ => replaceIn_word hword, fun hword text => ?_,
    fun _ _ _ h => ⟨count_of_error h, fun _ => plan_of_error h⟩, fun _ _ _ h => plan_eq hne h,
    fun hword _ h _ _ => replaceIn_replaceIn hword h⟩
  have hnil := mt String.toList_eq_nil_iff.1 hne
  obtain ⟨pieces, hpieces⟩ := exists_parted hnil text
  refine ⟨pieces, hpieces, fun _ => ?_⟩
  rw [replaceIn, hword]
  exact hpieces.replaceFrom_eq hnil

/-- The name `$A` in a text, in a file that exports nothing and in one that
exports a mapping; and a placeholder that overlaps itself. -/
theorem replaces_occurrences_samples :
    ("$A" ≠ "" ∧ isWord "$A".toList = true ∧ "$A".toList ∉ runs "$A$A".toList ∧
      replaceIn "$A".toList "$A$A".toList "'$A' $AB $A".toList =
        ("'$A$A' $AB $A$A".toList, 2) ∧
      (replaceIn "$A".toList "x".toList "'$A$A' $AB $A$A".toList).2 = 0) ∧
    ("%%" ≠ "" ∧ isWord "%%".toList = false ∧ ∃ pieces,
      Parted "%%".toList "a%%%b".toList pieces ∧ ∀ replacement,
        replaceIn "%%".toList replacement "a%%%b".toList =
          (replacement.intercalate pieces, pieces.length - 1)) ∧
    (Literal.exported {} "const a = '$A'\n" = .error (.noLiteral .noExport) ∧
      count {} "const a = '$A'\n" "$A" = .ok 0 ∧
      ∀ replacement, plan {} "const a = '$A'\n" "$A" replacement = .ok none) ∧
    (Literal.exported {} "export default \x7b a: '$A' \x7d\n" =
        .ok ⟨.exportDefault, none, ⟨15, 26⟩⟩ ∧
      ∃ region n, Text.slice? "export default \x7b a: '$A' \x7d\n" 15 26 = some region ∧
        count {} "export default \x7b a: '$A' \x7d\n" "$A" = .ok n ∧
        ∀ replacement : String,
          (replaceIn "$A".toList replacement.toList region.toList).2 = n ∧
          plan {} "export default \x7b a: '$A' \x7d\n" "$A" replacement =
            .ok (if n = 0 then none else some ⟨.placeholder "$A" n, ⟨15, 26⟩, region,
              String.ofList (replaceIn "$A".toList replacement.toList region.toList).1⟩)) := by
  have hname : "$A" ≠ "" := by decide
  have hpercent : "%%" ≠ "" := by decide
  obtain ⟨hwords, -, hnothing, hmapping, hagain⟩ := replaces_occurrences hname
  obtain ⟨-, hothers, -⟩ := replaces_occurrences hpercent
  refine ⟨?_, ⟨hpercent, by decide, hothers (by decide) _⟩,
    ⟨by decide +kernel, hnothing _ _ (.noLiteral .noExport) (by decide +kernel)⟩,
    ⟨by decide +kernel, hmapping _ _ ⟨.exportDefault, none, ⟨15, 26⟩⟩ (by decide +kernel)⟩⟩
  have hword : isWord "$A".toList = true := by decide
  have hruns : "$A".toList ∉ runs "$A$A".toList := by decide
  have hfirst : replaceIn "$A".toList "$A$A".toList "'$A' $AB $A".toList =
      ("'$A$A' $AB $A$A".toList, 2) := (hwords hword _ _).trans (by decide)
  refine ⟨hname, hword, hruns, hfirst, ?_⟩
  have hsecond := hagain hword _ hruns "'$A' $AB $A".toList "x".toList
  rwa [hfirst] at hsecond

end Placeholder

end ConfigPatch
