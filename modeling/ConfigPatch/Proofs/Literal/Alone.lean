import ConfigPatch.Proofs.Literal.Comment

/-!
# A literal on its own

Where a literal ends depends on the literal alone. What stands in front of
it does not matter, since it opens with a bracket, and what stands behind
it is not read: the last byte is a bracket of code, and so the scan up to
it is the same with any bytes behind it.
-/

namespace ConfigPatch.Literal

open Lexical

variable {shape : Bracket} {depth offset stop : Nat} {ms rest : List Mark}
variable {xs ys : List UInt8} {last : UInt8}

/-! ## What stands behind a bracket -/

/-- What follows the closing bracket does not matter for the search. -/
theorem closeFrom_append (hle : stop ≤ offset + ms.length) :
    shape.closeFrom depth offset (ms ++ rest) = some stop ↔
      shape.closeFrom depth offset ms = some stop := by
  fun_induction Bracket.closeFrom shape depth offset ms with
  | case1 depth offset =>
    constructor
    · intro h
      obtain ⟨n, -, hstop⟩ := exists_of_closeFrom h
      rw [List.length_nil] at hle
      omega
    · intro h
      cases h
  | case2 depth offset mark ms hkind ih =>
    rw [List.cons_append, Bracket.closeFrom, if_pos hkind]
    exact ih (by rw [List.length_cons] at hle; omega)
  | case3 depth offset mark ms hkind hopener ih =>
    rw [List.cons_append, Bracket.closeFrom, if_neg hkind, if_pos hopener]
    exact ih (by rw [List.length_cons] at hle; omega)
  | case4 depth offset mark ms hkind hopener hcloser hdepth =>
    rw [List.cons_append, Bracket.closeFrom, if_neg hkind, if_neg hopener, if_pos hcloser,
      if_pos hdepth]
  | case5 depth offset mark ms hkind hopener hcloser hdepth ih =>
    rw [List.cons_append, Bracket.closeFrom, if_neg hkind, if_neg hopener, if_pos hcloser,
      if_neg hdepth]
    exact ih (by rw [List.length_cons] at hle; omega)
  | case6 depth offset mark ms hkind hopener hcloser ih =>
    rw [List.cons_append, Bracket.closeFrom, if_neg hkind, if_neg hopener, if_neg hcloser]
    exact ih (by rw [List.length_cons] at hle; omega)

/-- **The labels up to a bracket of code** do not depend on what follows
it. -/
theorem exists_marks_of_isInert (hlast : isInert last = true)
    (hcode : (marks .code none (xs ++ last :: ys))[xs.length]? = some ⟨last, .code⟩) :
    ∃ ms, ms.length = xs.length + 1 ∧
      ∀ zs, ∃ rest, marks .code none (xs ++ last :: zs) = ms ++ rest := by
  have hlen : (marksOver .code none (some last) xs).length = xs.length := length_marksOver
  rw [marks_append, List.head?_cons, List.getElem?_append_right (Nat.le_of_eq hlen), hlen,
    Nat.sub_self] at hcode
  have hlabel : (⟨last, _⟩ : Mark) = ⟨last, .code⟩ := Option.some.inj hcode
  rw [Mark.mk.injEq] at hlabel
  obtain ⟨hmode, -⟩ := code_of_kindBetween hlabel.2
  refine ⟨marksOver .code none (some last) xs ++ [⟨last, .code⟩], ?_, fun zs => ?_⟩
  · rw [List.length_append, hlen, List.length_singleton]
  · rw [marks_append, List.head?_cons, hmode, marks, next_code_of_isInert hlast]
    exact ⟨_, (List.append_assoc _ [_] _).symm⟩

/-! ## Literals among other bytes -/

/-- A literal that ends with a byte is the same one with other bytes behind
it. -/
theorem spanAt_behind (h : spanAt (xs ++ last :: ys) 0 = .ok ⟨0, xs.length + 1⟩)
    (zs : List UInt8) : spanAt (xs ++ last :: zs) 0 = .ok ⟨0, xs.length + 1⟩ := by
  obtain ⟨-, shape, hopener, hclose⟩ := spanAt_eq_ok.1 h
  obtain ⟨n, hn, hlength⟩ := getElem?_of_closeFrom hclose
  dsimp only at hlength
  obtain rfl : n = xs.length := by omega
  have hmarks (bytes : List UInt8) : marksFrom bytes 0 = marks .code none bytes := rfl
  rw [hmarks] at hn hclose
  have hbyte := getElem?_of_marks hn
  rw [List.getElem?_append_right (Nat.le_refl _), Nat.sub_self] at hbyte
  obtain rfl : last = shape.closer := Option.some.inj hbyte
  have hinert : isInert shape.closer = true := by
    cases shape <;> rfl
  obtain ⟨ms, hms, hall⟩ := exists_marks_of_isInert hinert hn
  have hle : xs.length + 1 ≤ 0 + ms.length := by omega
  -- both texts begin with the bytes of the literal, and so with its labels
  have hfirst (zs : List UInt8) : (xs ++ shape.closer :: zs)[0]? = (xs ++ [shape.closer])[0]? := by
    rw [← List.singleton_append, ← List.append_assoc, List.getElem?_append_left (by simp)]
  refine spanAt_eq_ok.2 ⟨rfl, shape, by rw [hfirst, ← hfirst ys, hopener], ?_⟩
  obtain ⟨rest, hrest⟩ := hall ys
  obtain ⟨rest', hrest'⟩ := hall zs
  rw [hrest, closeFrom_append hle] at hclose
  rw [hmarks, hrest', closeFrom_append hle]
  exact hclose

/-- **A literal among other bytes** is all of some bytes exactly if it is
when these stand alone. -/
theorem spanAt_among (front bytes back : List UInt8) :
    spanAt (front ++ (bytes ++ back)) front.length =
        .ok ⟨front.length, front.length + bytes.length⟩ ↔
      spanAt bytes 0 = .ok ⟨0, bytes.length⟩ := by
  have hshift : spanAt (front ++ (bytes ++ back)) front.length =
      .ok ⟨front.length, front.length + bytes.length⟩ ↔
        spanAt (bytes ++ back) 0 = .ok ⟨0, bytes.length⟩ := by
    rw [show front.length = 0 + front.length by omega, spanAt_shift]
    constructor
    · rintro ⟨⟨start, stop⟩, hinner, hspan⟩
      rw [Span.shift, Span.mk.injEq] at hspan
      obtain ⟨hstart, hstop⟩ := hspan
      dsimp only at hstart hstop
      obtain rfl : start = 0 := by omega
      obtain rfl : stop = bytes.length := by omega
      exact hinner
    · intro h
      refine ⟨_, h, ?_⟩
      rw [Span.shift, Nat.add_comm bytes.length, Nat.zero_add]
  rw [hshift]
  cases hlast : bytes.getLast? with
  | none =>
    -- no bytes are no literal
    rw [List.getLast?_eq_none_iff] at hlast
    subst hlast
    constructor
    · intro h
      obtain ⟨-, shape, -, hclose⟩ := spanAt_eq_ok.1 h
      obtain ⟨n, -, hstop⟩ := exists_of_closeFrom hclose
      cases hstop
    · intro h
      cases h
  | some last =>
    obtain ⟨inside, rfl⟩ := List.getLast?_eq_some_iff.1 hlast
    rw [List.length_append, List.length_singleton, List.append_assoc, List.singleton_append]
    exact ⟨fun h => spanAt_behind h [], fun h => spanAt_behind h back⟩

/-! ## Complete literals -/

/-- **A complete literal**: a text that is one literal, from its first byte
to its last. -/
def IsComplete (text : String) : Prop :=
  spanAt (Text.bytes text) 0 = .ok ⟨0, (Text.bytes text).length⟩

/-- **A literal is found by itself alone.** Between any two texts it is found
whole exactly if it is complete, and a complete literal is not the
beginning of another one. -/
theorem complete_among (a text b : String) :
    (spanAt (Text.bytes (a ++ text ++ b)) (Text.bytes a).length =
        .ok ⟨(Text.bytes a).length, (Text.bytes a).length + (Text.bytes text).length⟩ ↔
      IsComplete text) ∧
    (IsComplete text → (IsComplete (text ++ b) ↔ b = "")) := by
  constructor
  · rw [Text.bytes_append, Text.bytes_append, List.append_assoc]
    exact spanAt_among _ _ _
  · intro htext
    constructor
    · intro hmore
      have hbegin : spanAt (Text.bytes (text ++ b)) 0 = .ok ⟨0, (Text.bytes text).length⟩ := by
        have hamong := (spanAt_among [] (Text.bytes text) (Text.bytes b)).2 htext
        rwa [List.nil_append, List.length_nil, Nat.zero_add, ← Text.bytes_append] at hamong
      rw [IsComplete, hbegin] at hmore
      have hlength := congrArg Span.stop (Except.ok.inj hmore)
      dsimp only at hlength
      rw [Text.bytes_append, List.length_append] at hlength
      rw [← String.toList_eq_nil_iff]
      cases hb : b.toList with
      | nil => rfl
      | cons c cs =>
        have hpos := c.utf8Size_pos
        have hbytes : Text.bytes b = String.utf8EncodeChar c ++ Text.utf8 cs := by
          rw [Text.bytes, hb, Text.utf8_cons]
        rw [hbytes, List.length_append, String.length_utf8EncodeChar] at hlength
        omega
    · rintro rfl
      rwa [String.append_empty]

/-- Brackets in a string and in a comment, behind an open string and in
front of a bracket. -/
theorem complete_among_sample :
    IsComplete "\x7b a: \"\x7d\" /* \x7d */ \x7d" ∧
    spanAt (Text.bytes ("x = \"" ++ "\x7b a: \"\x7d\" /* \x7d */ \x7d" ++ "\x7d \"")) 5 =
      .ok ⟨5, 5 + 18⟩ ∧
    ¬ IsComplete ("\x7b a: \"\x7d\" /* \x7d */ \x7d" ++ "\x7d \"") := by
  have htext : IsComplete "\x7b a: \"\x7d\" /* \x7d */ \x7d" := by
    unfold IsComplete
    decide
  obtain ⟨hfound, hbegin⟩ :=
    complete_among "x = \"" "\x7b a: \"\x7d\" /* \x7d */ \x7d" "\x7d \""
  refine ⟨htext, hfound.2 htext, fun hmore => ?_⟩
  exact absurd ((hbegin htext).1 hmore) (by decide)

end ConfigPatch.Literal
