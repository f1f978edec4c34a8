/-!
# Byte offsets into text

Places in a text are byte offsets into its UTF-8 form. `utf8` gives that
form, and `splitAt?` and `slice?` cut the characters at such offsets. A
cut is refused where the offset falls inside a character or past the end:
`splitAt?_eq_some_iff` says that the cuts which are granted are exactly
the ones between two characters.
-/

namespace ConfigPatch.Text

/-- The UTF-8 form of a text. -/
def utf8 (cs : List Char) : List UInt8 :=
  cs.flatMap String.utf8EncodeChar

/-- The UTF-8 form of a string. -/
def bytes (s : String) : List UInt8 :=
  utf8 s.toList

/-- Cuts a text at a byte offset, between two characters only. -/
def splitAt? : List Char → Nat → Option (List Char × List Char)
  | cs, 0 => some ([], cs)
  | [], _ + 1 => none
  | c :: cs, n + 1 =>
    if c.utf8Size ≤ n + 1 then
      (splitAt? cs (n + 1 - c.utf8Size)).map fun (before, after) => (c :: before, after)
    else none

/-- The part of a text between two byte offsets. -/
def slice? (s : String) (start stop : Nat) : Option String := do
  if stop < start then none
  let (_, tail) ← splitAt? s.toList start
  let (part, _) ← splitAt? tail (stop - start)
  return String.ofList part

@[simp]
theorem utf8_nil : utf8 [] = [] := rfl

@[simp]
theorem utf8_cons (c : Char) (cs : List Char) :
    utf8 (c :: cs) = String.utf8EncodeChar c ++ utf8 cs := by
  simp [utf8]

@[simp]
theorem utf8_append (a b : List Char) : utf8 (a ++ b) = utf8 a ++ utf8 b := by
  simp [utf8]

@[simp]
theorem bytes_append (a b : String) : bytes (a ++ b) = bytes a ++ bytes b := by
  simp [bytes]

theorem splitAt?_utf8_append (a b : List Char) :
    splitAt? (a ++ b) (utf8 a).length = some (a, b) := by
  induction a with
  | nil => simp [splitAt?]
  | cons c cs ih =>
    have hpos := c.utf8Size_pos
    obtain ⟨n, hn⟩ : ∃ n, (utf8 (c :: cs)).length = n + 1 :=
      ⟨(utf8 (c :: cs)).length - 1, by simp; omega⟩
    have hlen : n + 1 = c.utf8Size + (utf8 cs).length := by rw [← hn]; simp
    rw [hn, List.cons_append, splitAt?, if_pos (by omega), hlen, Nat.add_sub_cancel_left, ih]
    rfl

theorem eq_append_of_splitAt? {cs a b : List Char} {n : Nat}
    (h : splitAt? cs n = some (a, b)) : cs = a ++ b ∧ (utf8 a).length = n := by
  fun_induction splitAt? cs n generalizing a with
  | case1 cs => simp_all
  | case2 => simp at h
  | case3 c cs n hle ih =>
    obtain ⟨⟨a', b'⟩, hab, heq⟩ := Option.map_eq_some_iff.1 h
    obtain ⟨rfl, rfl⟩ := Prod.mk.injEq .. ▸ heq
    obtain ⟨rfl, hlen⟩ := ih hab
    refine ⟨rfl, ?_⟩
    simp [hlen]
    omega
  | case4 => simp at h

/-- **A cut is granted exactly between two characters.** -/
theorem splitAt?_eq_some_iff {cs a b : List Char} {n : Nat} :
    splitAt? cs n = some (a, b) ↔ cs = a ++ b ∧ (utf8 a).length = n :=
  ⟨eq_append_of_splitAt?, fun ⟨h, hn⟩ => h ▸ hn ▸ splitAt?_utf8_append a b⟩

end ConfigPatch.Text
