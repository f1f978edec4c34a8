import ConfigPatch.Proofs.Text.Cut

/-!
# One part of a text replaced

A replacement is a text in four parts: what stands in front, the part that
goes, the part that comes, and what stands behind. In front of the part
the source and the outcome have the same bytes at the same offsets, and
behind it the same bytes at other offsets.
-/

namespace ConfigPatch.Text

/-- **One part of a text and what comes in its place.** -/
structure Replacement where
  front : List Char
  old : List Char
  new : List Char
  back : List Char

namespace Replacement

/-- The text before. -/
def source (x : Replacement) : String := String.ofList (x.front ++ (x.old ++ x.back))

/-- The text after. -/
def outcome (x : Replacement) : String := String.ofList (x.front ++ (x.new ++ x.back))

/-- Where the part starts. -/
def start (x : Replacement) : Nat := (utf8 x.front).length

/-- Where the part that goes ends. -/
def oldStop (x : Replacement) : Nat := x.start + (utf8 x.old).length

/-- Where the part that comes ends. -/
def newStop (x : Replacement) : Nat := x.start + (utf8 x.new).length

variable {x : Replacement} {n : Nat}

theorem bytes_source : bytes x.source = utf8 x.front ++ (utf8 x.old ++ utf8 x.back) := by
  simp [bytes, source]

theorem bytes_outcome : bytes x.outcome = utf8 x.front ++ (utf8 x.new ++ utf8 x.back) := by
  simp [bytes, outcome]

/-- The bytes in front stay. -/
theorem take_bytes (h : n ≤ x.start) : (bytes x.outcome).take n = (bytes x.source).take n := by
  rw [bytes_outcome, bytes_source, List.take_append_of_le_length h,
    List.take_append_of_le_length h]

theorem getElem?_bytes (h : n < x.start) : (bytes x.outcome)[n]? = (bytes x.source)[n]? := by
  rw [bytes_outcome, bytes_source, List.getElem?_append_left h, List.getElem?_append_left h]

/-- The bytes from the end of the part on stay. -/
theorem drop_bytes_source : (bytes x.source).drop (x.oldStop + n) = (utf8 x.back).drop n := by
  have hlen : x.oldStop = (utf8 x.front ++ utf8 x.old).length := by
    rw [List.length_append]
    rfl
  rw [bytes_source, ← List.append_assoc, hlen, List.drop_length_add_append]

theorem drop_bytes_outcome : (bytes x.outcome).drop (x.newStop + n) = (utf8 x.back).drop n := by
  have hlen : x.newStop = (utf8 x.front ++ utf8 x.new).length := by
    rw [List.length_append]
    rfl
  rw [bytes_outcome, ← List.append_assoc, hlen, List.drop_length_add_append]

theorem length_bytes_source : (bytes x.source).length = x.oldStop + (utf8 x.back).length := by
  rw [bytes_source, List.length_append, List.length_append, ← Nat.add_assoc]
  rfl

theorem length_bytes_outcome : (bytes x.outcome).length = x.newStop + (utf8 x.back).length := by
  rw [bytes_outcome, List.length_append, List.length_append, ← Nat.add_assoc]
  rfl

end Replacement

/-! ## Cuts -/

variable {x : Replacement} {s part : String} {start stop n : Nat} {cs ds es : List Char}

/-- Two ways to take a text apart. -/
theorem exists_of_utf8_length_le (h : cs ++ ds = es) {before after : List Char}
    (heq : es = before ++ after) (hle : (utf8 before).length ≤ (utf8 cs).length) :
    ∃ middle, cs = before ++ middle ∧ after = middle ++ ds := by
  rcases List.append_eq_append_iff.1 (h.trans heq) with ⟨middle, rfl, rfl⟩ | ⟨middle, rfl, rfl⟩
  · have hnil : middle = [] := by
      rw [utf8_append, List.length_append] at hle
      cases middle with
      | nil => rfl
      | cons c middle =>
        have hpos := c.utf8Size_pos
        rw [utf8_cons, List.length_append, String.length_utf8EncodeChar] at hle
        omega
    subst hnil
    exact ⟨[], by simp, rfl⟩
  · exact ⟨middle, rfl, rfl⟩

/-- Between two cuts there is a slice. -/
theorem exists_slice? (hstart : IsCut s.toList start) (hstop : IsCut s.toList stop)
    (hle : start ≤ stop) : ∃ part, slice? s start stop = some part := by
  obtain ⟨before, rest, hs, rfl⟩ := hstart
  obtain ⟨cs, after, hs', rfl⟩ := hstop
  obtain ⟨middle, rfl, rfl⟩ := exists_of_utf8_length_le hs'.symm hs hle
  refine ⟨String.ofList middle, slice?_eq_some_iff.2 ⟨before, after, by simp [hs], rfl, ?_⟩⟩
  simp [bytes]

/-- A slice of the front depends on the front only. -/
theorem slice?_front (h : slice? (String.ofList (cs ++ ds)) start stop = some part)
    (hle : stop ≤ (utf8 cs).length) :
    slice? (String.ofList (cs ++ es)) start stop = some part := by
  obtain ⟨before, after, hs, hstart, hstop⟩ := slice?_eq_some_iff.1 h
  rw [String.toList_ofList] at hs
  have hlen : (utf8 (before ++ part.toList)).length ≤ (utf8 cs).length := by
    rw [utf8_append, List.length_append, hstart]
    exact Nat.le_trans (Nat.le_of_eq hstop) hle
  obtain ⟨middle, rfl, -⟩ := exists_of_utf8_length_le hs rfl hlen
  exact slice?_eq_some_iff.2 ⟨before, middle ++ es, by simp, hstart, hstop⟩

/-- A slice in front of the part that is replaced stays. -/
theorem Replacement.slice?_outcome (h : slice? x.source start stop = some part)
    (hle : stop ≤ x.start) : slice? x.outcome start stop = some part :=
  slice?_front h hle

theorem Replacement.slice?_congr (hle : stop ≤ x.start) :
    slice? x.source start stop = slice? x.outcome start stop :=
  Option.ext fun _ => ⟨fun h => slice?_front h hle, fun h => slice?_front h hle⟩

/-- A slice of the back is one of the text that the back is. -/
theorem slice?_back :
    slice? (String.ofList (cs ++ ds)) (start + (utf8 cs).length) (stop + (utf8 cs).length) =
      slice? (String.ofList ds) start stop := by
  refine Option.ext fun part => ?_
  rw [slice?_eq_some_iff, slice?_eq_some_iff, String.toList_ofList, String.toList_ofList]
  constructor
  · rintro ⟨before, after, hs, hstart, hstop⟩
    rw [List.append_assoc] at hs
    obtain ⟨middle, rfl, hds⟩ := exists_of_utf8_length_le rfl hs.symm
      (show (utf8 cs).length ≤ (utf8 before).length by omega)
    rw [utf8_append, List.length_append] at hstart
    refine ⟨middle, after, ?_, by omega, by omega⟩
    rw [hds, List.append_assoc]
  · rintro ⟨before, after, rfl, hstart, hstop⟩
    refine ⟨cs ++ before, after, by simp, ?_, by omega⟩
    rw [utf8_append, List.length_append]
    omega

/-- **A slice around the part that is replaced** has the same text up to
there. -/
theorem slice?_around (h : slice? x.source start (x.oldStop + n) = some part)
    (hstart : start ≤ x.start) :
    ∃ front rest rest' part', slice? x.outcome start (x.newStop + n) = some part' ∧
      part.toList = front ++ rest ∧ part'.toList = front ++ rest' ∧
      start + (utf8 front).length = x.start := by
  obtain ⟨before, after, hs, hbefore, hpart⟩ := slice?_eq_some_iff.1 h
  rw [Replacement.source, String.toList_ofList, List.append_assoc] at hs
  obtain ⟨front, hfront, hrest⟩ := exists_of_utf8_length_le hs rfl (hbefore ▸ hstart)
  have hlen : start + (utf8 front).length = x.start := by
    rw [Replacement.start, hfront, utf8_append, List.length_append, hbefore]
  have hstop : x.oldStop = x.start + (utf8 x.old).length := rfl
  have hpart' : start + (utf8 part.toList).length = x.oldStop + n := hpart
  obtain ⟨rest, hparts, hold⟩ := exists_of_utf8_length_le hrest rfl
    (show (utf8 front).length ≤ (utf8 part.toList).length by omega)
  have hrestLen : (utf8 rest).length = (utf8 x.old).length + n := by
    have hparts' := congrArg (fun cs => (utf8 cs).length) hparts
    simp only [utf8_append, List.length_append] at hparts'
    omega
  obtain ⟨behind, hbehind, hback⟩ := exists_of_utf8_length_le hold.symm rfl
    (show (utf8 x.old).length ≤ (utf8 rest).length by omega)
  have hbehindLen : (utf8 behind).length = n := by
    rw [hbehind, utf8_append, List.length_append] at hrestLen
    omega
  refine ⟨front, rest, x.new ++ behind, String.ofList (front ++ (x.new ++ behind)),
    slice?_eq_some_iff.2 ⟨before, after, ?_, hbefore, ?_⟩, hparts, String.toList_ofList, hlen⟩
  · rw [Replacement.outcome, String.toList_ofList, String.toList_ofList, hfront, hback]
    simp
  · rw [bytes, String.toList_ofList, utf8_append, utf8_append, List.length_append,
      List.length_append, hbehindLen, Replacement.newStop]
    omega

end ConfigPatch.Text
