import ConfigPatch.Proofs.Literal.Header
import ConfigPatch.Proofs.Literal.Walk

/-!
# Paths in files

In a file that is written with the grammar of `Source`, the resolver of
paths finds what `Source.locate?` says: the span of the literal at the
path, or that there is none.
-/

namespace ConfigPatch.Literal

open Lexical Lexeme

variable {options : Options} {source : Source}

namespace Source

/-- The mapping of a file stands in its text. -/
theorem target_standsIn (h : source.isWellFormed options = true) :
    (source.target options).StandsIn (source.text options) := by
  simp only [isWellFormed, Bool.and_eq_true] at h
  refine ⟨fun node hnode => ?_, ?_⟩
  · cases hnode
    exact h.1.2
  · have hbody : Stands (source.text options) (Text.utf8 (source.header options)).length
        source.body :=
      ⟨source.header options, [], by simp [text], rfl⟩
    exact hbody.drop.take

/-- The gap before the mapping, with the blank at the end of the header. -/
theorem triviaEnd_body (h : source.isWellFormed options = true) {offset : Nat} {gap : Gap}
    (hgap : isGap gap = true)
    (hstands : Stands (source.text options) offset (gap ++ source.root.lexemes))
    (hoffset : offset + width gap = (source.target options).start) :
    triviaEnd (Text.bytes (source.text options)) offset
        (Text.bytes (source.text options)).length = (source.target options).start := by
  simp only [isWellFormed, Bool.and_eq_true] at h
  obtain ⟨b, rest, hb, hspace, hslash, -⟩ := Node.exists_head h.1.2
  have hlen := hstands.le_length
  have hpos := Node.width_pos h.1.2
  rw [width_append] at hlen
  rw [hstands.triviaEnd_gap hgap (by omega), ← hoffset]
  exact hstands.drop.triviaEnd_token hb hspace hslash (by omega)

/-- Where the resolver looks for the exported value. -/
theorem triviaEnd_statement (h : source.isWellFormed options = true) :
    triviaEnd (Text.bytes (source.text options))
        ((((source.statement options).wrapper? options).map Prod.snd).getD
          (source.statement options).stop)
        (Text.bytes (source.text options)).length = (source.target options).start := by
  have hlead : isGap source.lead = true := by
    simp only [isWellFormed, isFrame, Bool.and_eq_true] at h
    exact h.1.1.1.1
  have hbody : Stands (source.text options) (Text.utf8 (source.header options)).length
      (source.lead ++ source.root.lexemes) := by
    refine ⟨source.header options, Lexeme.text (source.trail ++
      if source.wrapped then [.closing .round] else []), ?_, rfl⟩
    simp [text, body]
  cases hwrapped : source.wrapped with
  | true =>
    have hwrapper : (source.statement options).wrapper? options =
        some (options.factory, (Text.utf8 (source.header options)).length) := by
      simp [Statement.wrapper?, statement, hwrapped]
    rw [hwrapper]
    exact triviaEnd_body h hlead hbody rfl
  | false =>
    -- the statement ends before the blank after its words
    have hwrapper : (source.statement options).wrapper? options = none := by
      simp [Statement.wrapper?, statement, hwrapped]
    obtain ⟨front, hfront⟩ := exists_words source.convention
    have hheader : source.header options = front ++ [' '] := by simp [header, hwrapped, hfront]
    have hone : (Text.utf8 [' ']).length = 1 := rfl
    have hstop : (source.statement options).stop = (Text.utf8 front).length := by
      simp only [statement, wordsEnd, hfront, Text.utf8_append, List.length_append, hone,
        Nat.add_sub_cancel]
    have hgap : isGap (.blank ' ' :: source.lead) = true := isGap_cons.2 ⟨⟨rfl, rfl⟩, hlead⟩
    rw [hwrapper, Option.map_none, Option.getD_none, hstop]
    refine triviaEnd_body h hgap ?_ ?_
    · refine ⟨front, Lexeme.text (source.trail ++
        if source.wrapped then [.closing .round] else []), ?_, rfl⟩
      simp [text, body, hheader, chars]
    · simp only [target, hheader, Text.utf8_append, List.length_append, hone, width_cons, bytes,
        chars]
      omega

/-- **The literal that a file exports** is its mapping. -/
theorem exported_text (h : source.isWellFormed options = true) :
    ∃ literal, exported options (source.text options) = .ok literal ∧
      literal.span = (source.target options).span := by
  have hstands := source.target_standsIn h
  have hspan : spanAt (Text.bytes (source.text options)) (source.target options).start = _ :=
    hstands.spanAt rfl
  have hfirst : (Text.bytes (source.text options))[(source.target options).start]? =
      some Bracket.brace.opener := hstands.stands.getElem? rfl
  rw [exported, statements_text h, preferred?_singleton]
  simp only [triviaEnd_statement h, hfirst, hspan]
  exact ⟨_, rfl, rfl⟩

/-- **The mapping that a file exports.** -/
theorem root_text (h : source.isWellFormed options = true) :
    Literal.root options (source.text options) = .ok (source.target options).span := by
  obtain ⟨literal, hliteral, hspan⟩ := source.exported_text h
  have hopener := (source.target_standsIn h).opener?
  have hmapping : mappingIn (Text.bytes (source.text options)) (source.target options).span =
      .ok (some (source.target options).span) := by
    rw [mappingIn, unwrap, hopener]
    rfl
  simp only [Literal.root, hliteral, Failure.ofExcept_ok, Failure.ok_bind, hspan, hmapping]
  rfl

/-- The resolver finds what the tree has at the path. -/
theorem find_eq (h : source.isWellFormed options = true) {p : Path} (hp : p ≠ []) :
    find options (source.text options) p =
      match source.locate? options p with
      | some t => .ok t.span
      | none => .error (.refused (.pathNotFound p)) := by
  rw [find, if_neg (by simpa using hp), source.root_text h, Failure.ok_bind]
  exact foldlM_down (source.target_standsIn h) none p

/-- What a path leads to stands in the text of the file. -/
theorem standsIn_of_locate? (h : source.isWellFormed options = true) {p : Path} {t : Target}
    (ht : source.locate? options p = some t) : t.StandsIn (source.text options) :=
  (source.target_standsIn h).foldlM_down? ht

/-- **The resolver is right on the grammar of literals**: a path leads to
the span of the literal that the tree has at the path, whose text stands
there, and is not found where the tree has none. -/
theorem find_text (h : source.isWellFormed options = true) {p : Path} (hp : p ≠ []) :
    find options (source.text options) p =
        (match source.locate? options p with
          | some t => .ok t.span
          | none => .error (.refused (.pathNotFound p))) ∧
      ∀ t, source.locate? options p = some t →
        Text.slice? (source.text options) t.span.start t.span.stop =
          some (String.ofList (Lexeme.text t.lexemes)) :=
  ⟨find_eq h hp, fun _ ht => (standsIn_of_locate? h ht).stands.slice?⟩

/-- A file with a comment that holds a brace, a key that is there twice,
the spread of a property, a hole and last commas. -/
def sample : Source where
  convention := .exportDefault
  wrapped := true
  lead := []
  entries :=
    [⟨[.blank ' '], .pair (.bare ['a']) [] [.blank ' '] (.word ['1']), []⟩,
      ⟨[.blank ' ', .line [' ', '\x7b']], .spread ['r', '.', 'o'], []⟩,
      ⟨[.blank ' '], .pair (.quoted .single ['a']) [] [.blank ' ']
        (.array
          [⟨[.block ['"'] ' '], none, []⟩,
            ⟨[], some (.object [⟨[], .pair (.bare ['b']) [] [] (.string '"' ['\x7d']), []⟩] none),
              []⟩]
          (some [])), []⟩]
  close := some [.blank '\n']
  trail := []

/-- The later entry of the key counts, and the hole before the item. -/
theorem find_text_sample :
    sample.isWellFormed {} = true ∧
      [Segment.property "a", .index 1, .property "b"] ≠ [] ∧
      find {} (sample.text {}) [.property "a", .index 1, .property "b"] = .ok ⟨65, 68⟩ := by
  have hwell : sample.isWellFormed {} = true := by decide +kernel
  have hpath : [Segment.property "a", .index 1, .property "b"] ≠ [] := by decide
  refine ⟨hwell, hpath, (find_text hwell hpath).1.trans ?_⟩
  decide +kernel

end Source

end ConfigPatch.Literal
