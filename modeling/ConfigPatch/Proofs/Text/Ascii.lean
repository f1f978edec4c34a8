import ConfigPatch.Proofs.Text.Cut

/-!
# ASCII bytes in text

A character below U+0080 is one byte, and the bytes of every other
character are at least 0x80. So a byte below 0x80 in the UTF-8 form of a
text is a character of the text, and a cut next to it falls between two
characters.
-/

namespace ConfigPatch.Text

theorem utf8EncodeChar_of_lt {c : Char} (h : c.toNat < 0x80) :
    String.utf8EncodeChar c = [UInt8.ofNat c.toNat] := by
  have hle : c.val.toNat ≤ 0x7f := Nat.le_of_lt_succ h
  simp only [String.utf8EncodeChar, hle, if_true]
  rfl

/-- The bytes of a character from U+0080 on are no ASCII bytes. -/
theorem le_of_mem_utf8EncodeChar {c : Char} {b : UInt8} (h : 0x80 ≤ c.toNat)
    (hb : b ∈ String.utf8EncodeChar c) : 0x80 ≤ b := by
  have hgt : ¬ c.val.toNat ≤ 0x7f := Nat.not_le.2 h
  rw [UInt8.le_iff_toNat_le]
  simp only [String.utf8EncodeChar, hgt, if_false] at hb
  split at hb
  · simp only [List.mem_cons, List.not_mem_nil, or_false] at hb
    rcases hb with rfl | rfl <;> simp [UInt8.toNat_ofNat'] <;> omega
  · split at hb <;> simp only [List.mem_cons, List.not_mem_nil, or_false] at hb
    · rcases hb with rfl | rfl | rfl <;> simp [UInt8.toNat_ofNat'] <;> omega
    · rcases hb with rfl | rfl | rfl | rfl <;> simp [UInt8.toNat_ofNat'] <;> omega

/-- **An ASCII byte of a character is the character.** -/
theorem eq_of_mem_utf8EncodeChar {c : Char} {b : UInt8} (hlt : b < 0x80)
    (hb : b ∈ String.utf8EncodeChar c) :
    c.toNat = b.toNat ∧ String.utf8EncodeChar c = [b] := by
  rcases Nat.lt_or_ge c.toNat 0x80 with hc | hc
  · rw [utf8EncodeChar_of_lt hc, List.mem_singleton] at hb
    subst hb
    refine ⟨?_, utf8EncodeChar_of_lt hc⟩
    simp only [UInt8.toNat_ofNat']
    omega
  · exact absurd (le_of_mem_utf8EncodeChar hc hb) (UInt8.not_le.2 hlt)

/-- An ASCII byte of a text is one of its characters. -/
theorem mem_of_mem_utf8 {cs : List Char} {a : Char} (ha : a.toNat < 0x80)
    (h : UInt8.ofNat a.toNat ∈ utf8 cs) : a ∈ cs := by
  obtain ⟨c, hc, hb⟩ := List.mem_flatMap.1 h
  have hlt : UInt8.ofNat a.toNat < 0x80 := by
    rw [UInt8.lt_iff_toNat_lt, UInt8.toNat_ofNat']
    simp
    omega
  have hnat := (eq_of_mem_utf8EncodeChar hlt hb).1
  rw [UInt8.toNat_ofNat', Nat.mod_eq_of_lt (by omega)] at hnat
  rwa [← Char.toNat_inj.1 hnat]

/-- An ASCII character that is not there has no byte there. -/
theorem ofNat_notMem_utf8 {c d : Char} (hd : d.toNat < 0x80) (h : c ≠ d) :
    UInt8.ofNat d.toNat ∉ utf8 [c] := fun hmem =>
  h (List.mem_singleton.1 (mem_of_mem_utf8 hd hmem)).symm

/-- **A text falls apart at each of its ASCII bytes.** -/
theorem exists_of_utf8_eq_append {cs : List Char} {front back : List UInt8} {b : UInt8}
    (hlt : b < 0x80) (h : utf8 cs = front ++ b :: back) :
    ∃ before c after, cs = before ++ c :: after ∧ utf8 before = front ∧
      c.toNat = b.toNat ∧ utf8 after = back := by
  induction cs generalizing front with
  | nil => simp at h
  | cons c cs ih =>
    rw [utf8_cons] at h
    rcases List.append_eq_append_iff.1 h with ⟨rest, hfront, hrest⟩ | ⟨rest, hc, hrest⟩
    · -- the byte stands behind the first character
      obtain ⟨before, d, after, rfl, hbefore, hd, hafter⟩ := ih hrest
      exact ⟨c :: before, d, after, rfl, by simp [hbefore, hfront], hd, hafter⟩
    · cases rest with
      | nil =>
        have hnext : utf8 cs = [] ++ b :: back := by simpa using hrest.symm
        obtain ⟨before, d, after, rfl, hbefore, hd, hafter⟩ := ih hnext
        exact ⟨c :: before, d, after, rfl, by simpa [hbefore] using hc, hd, hafter⟩
      | cons d rest =>
        obtain ⟨rfl, hback⟩ := List.cons_eq_cons.1 hrest
        have hmem : b ∈ String.utf8EncodeChar c := by simp [hc]
        obtain ⟨hnat, hone⟩ := eq_of_mem_utf8EncodeChar hlt hmem
        rw [hone] at hc
        have hlen := congrArg List.length hc
        simp only [List.length_cons, List.length_nil, List.length_append] at hlen
        have hfront : front = [] := List.eq_nil_of_length_eq_zero (by omega)
        have hnil : rest = [] := List.eq_nil_of_length_eq_zero (by omega)
        subst hfront hnil
        exact ⟨[], c, cs, rfl, rfl, hnat, by simpa using hback.symm⟩

/-- A text can be cut on both sides of an ASCII byte. -/
theorem isCut_of_ascii {cs : List Char} {n : Nat} {b : UInt8} (hlt : b < 0x80)
    (h : (utf8 cs)[n]? = some b) : IsCut cs n ∧ IsCut cs (n + 1) := by
  obtain ⟨hn, hb⟩ := List.getElem?_eq_some_iff.1 h
  have hparts : utf8 cs = (utf8 cs).take n ++ b :: (utf8 cs).drop (n + 1) := by
    rw [← hb, ← List.drop_eq_getElem_cons hn, List.take_append_drop]
  obtain ⟨before, c, after, hcs, hbefore, -, hafter⟩ := exists_of_utf8_eq_append hlt hparts
  have hlen : (utf8 before).length = n := by
    rw [hbefore, List.length_take, Nat.min_eq_left (Nat.le_of_lt hn)]
  refine ⟨⟨before, c :: after, hcs, hlen⟩, before ++ [c], after, by simp [hcs], ?_⟩
  -- the byte is all that the character has
  have hwhole := congrArg (fun cs => (utf8 cs).length) hcs
  simp only [utf8_append, utf8_cons, List.length_append, hafter, List.length_drop] at hwhole
  simp only [utf8_append, utf8_cons, utf8_nil, List.append_nil, List.length_append]
  omega

end ConfigPatch.Text
