import ConfigPatch.Proofs.Lexical.Trivia

/-!
# Skipping is local

Where skipping stops depends on the bytes up to there and one byte ahead,
and on offsets only in that it counts them. What stands before the place
where it stops is a mark that no word goes over, perhaps the rest of its
line, and blanks.
-/

namespace ConfigPatch.Lexical

variable {m m' : Mode} {b c quote : UInt8} {ahead : Option UInt8}
variable {xs ys zs : List UInt8} {offset limit k : Nat}

/-- The mode after a byte that is skipped. -/
def Mode.skip? (m : Mode) (b : UInt8) (ahead : Option UInt8) : Option Mode :=
  if m ≠ .code then some (m.next none b ahead)
  else if isSpace b then some .code
  else if b = slash ∧ afterSlash ahead ≠ .code then some (afterSlash ahead)
  else none

/-- **What skipping does**: blanks stay in code, and a comment goes on to
its end. -/
inductive Mode.Skips : Mode → UInt8 → Option UInt8 → Mode → Prop
  | space {b : UInt8} {ahead : Option UInt8} (h : isSpace b = true) : Skips .code b ahead .code
  | openLine : Skips .code slash (some slash) .line
  | openBlock : Skips .code slash (some star) .blockOpen
  | line {b : UInt8} {ahead : Option UInt8} (h : ahead ≠ some lineFeed) : Skips .line b ahead .line
  | endLine {b : UInt8} : Skips .line b (some lineFeed) .code
  | blockOpen {b : UInt8} {ahead : Option UInt8} : Skips .blockOpen b ahead .block
  | block {b : UInt8} {ahead : Option UInt8} (h : ¬ (b = star ∧ ahead = some slash)) :
      Skips .block b ahead .block
  | endBlock : Skips .block star (some slash) .blockClose
  | blockClose {b : UInt8} {ahead : Option UInt8} : Skips .blockClose b ahead .code

theorem Mode.skips_of_skip? (hm : m.kind ≠ .text) (h : m.skip? b ahead = some m') :
    m.Skips b ahead m' := by
  unfold Mode.skip? at h
  split at h
  · rename_i hcode
    rw [Option.some.injEq] at h
    subst h
    cases m with
    | code => exact absurd rfl hcode
    | quoted | escaped => exact absurd rfl hm
    | line =>
      rw [Mode.next]
      split
      · rename_i hahead
        subst hahead
        exact .endLine
      · rename_i hahead
        exact .line hahead
    | blockOpen => exact .blockOpen
    | block =>
      rw [Mode.next]
      split
      · rename_i hend
        obtain ⟨rfl, rfl⟩ := hend
        exact .endBlock
      · rename_i hend
        exact .block hend
    | blockClose => exact .blockClose
  · rename_i hcode
    obtain rfl := Decidable.not_not.1 hcode
    split at h
    · rename_i hspace
      cases h
      exact .space hspace
    · split at h
      · rename_i hslash
        obtain ⟨rfl, hne⟩ := hslash
        rw [Option.some.injEq] at h
        subst h
        unfold Mode.afterSlash at hne ⊢
        split at hne
        · rename_i hahead
          subst hahead
          exact .openLine
        · split at hne
          · rename_i hahead
            subst hahead
            exact .openBlock
          · exact absurd rfl hne
      · cases h

theorem triviaEndFrom_cons_eq :
    triviaEndFrom m offset limit (b :: xs) =
      if limit ≤ offset then limit
      else ((m.skip? b xs.head?).map fun m => triviaEndFrom m (offset + 1) limit xs).getD offset := by
  rw [triviaEndFrom, Mode.skip?]
  split
  · rfl
  · split
    · rfl
    · split
      · rfl
      · dsimp only
        split <;> rfl

/-! ## Offsets -/

theorem triviaEndFrom_shift :
    triviaEndFrom m (offset + k) (limit + k) xs = triviaEndFrom m offset limit xs + k := by
  induction xs generalizing m offset with
  | nil =>
    rw [triviaEndFrom, triviaEndFrom]
    omega
  | cons b xs ih =>
    have hone : offset + k + 1 = offset + 1 + k := by omega
    have hlimit : limit + k ≤ offset + k ↔ limit ≤ offset := by omega
    simp only [triviaEndFrom_cons_eq, hone, ih, hlimit]
    split
    · rfl
    · cases m.skip? b xs.head? <;> rfl

/-- Skipping goes forward, at most to the limit. -/
theorem le_triviaEndFrom (h : offset ≤ limit) :
    offset ≤ triviaEndFrom m offset limit xs ∧ triviaEndFrom m offset limit xs ≤ limit := by
  induction xs generalizing m offset with
  | nil =>
    rw [triviaEndFrom]
    omega
  | cons b xs ih =>
    rw [triviaEndFrom_cons_eq]
    split
    · omega
    · cases m.skip? b xs.head? with
      | none =>
        change offset ≤ offset ∧ offset ≤ limit
        omega
      | some m' =>
        have hrest : offset + 1 ≤ triviaEndFrom m' (offset + 1) limit xs ∧
            triviaEndFrom m' (offset + 1) limit xs ≤ limit := ih (by omega)
        change offset ≤ triviaEndFrom m' (offset + 1) limit xs ∧
          triviaEndFrom m' (offset + 1) limit xs ≤ limit
        omega

theorem le_triviaEnd {bytes : List UInt8} (h : offset ≤ limit) :
    offset ≤ triviaEnd bytes offset limit ∧ triviaEnd bytes offset limit ≤ limit :=
  le_triviaEndFrom h

/-! ## Parts of a text -/

/-- Only the bytes up to the limit count, and one byte ahead. -/
theorem triviaEndFrom_congr
    (h : xs.take (limit - offset + 1) = ys.take (limit - offset + 1)) :
    triviaEndFrom m offset limit xs = triviaEndFrom m offset limit ys := by
  induction xs generalizing m offset ys with
  | nil =>
    cases ys with
    | nil => rfl
    | cons c ys => cases h
  | cons b xs ih =>
    cases ys with
    | nil => cases h
    | cons c ys =>
      rw [List.take_succ_cons, List.take_succ_cons, List.cons.injEq] at h
      obtain ⟨rfl, h⟩ := h
      rw [triviaEndFrom_cons_eq, triviaEndFrom_cons_eq]
      split
      · rfl
      · rename_i hlt
        have hlimit : limit - offset = limit - (offset + 1) + 1 := by omega
        rw [hlimit] at h
        have hhead : xs.head? = ys.head? := by
          have htake := congrArg List.head? h
          rwa [List.head?_take, List.head?_take, if_neg (by omega), if_neg (by omega)] at htake
        rw [hhead]
        cases m.skip? b ys.head? with
        | none => rfl
        | some m' => exact ih h

/-- Where nothing is skipped the scan is in code and no blank comes
next. -/
theorem eq_code_of_triviaEndFrom (h : triviaEndFrom m offset limit (c :: xs) = offset)
    (hlt : offset < limit) : m = .code ∧ isSpace c = false := by
  rw [triviaEndFrom_cons_eq, if_neg (by omega)] at h
  cases hskip : m.skip? c xs.head? with
  | some m' =>
    have hle : offset + 1 ≤ triviaEndFrom m' (offset + 1) limit xs :=
      (le_triviaEndFrom (by omega)).1
    rw [hskip] at h
    change triviaEndFrom m' (offset + 1) limit xs = offset at h
    omega
  | none =>
    unfold Mode.skip? at hskip
    split at hskip
    · cases hskip
    · split at hskip
      · cases hskip
      · rename_i hcode hspace
        exact ⟨Decidable.not_not.1 hcode, Bool.eq_false_iff.2 hspace⟩

/-- What is skipped up to an offset, byte by byte. -/
theorem exists_skip (h : triviaEndFrom m offset limit (b :: xs) = offset + 1 + k)
    (hlt : offset < limit) :
    ∃ m', m.skip? b xs.head? = some m' ∧ triviaEndFrom m' (offset + 1) limit xs = offset + 1 + k := by
  rw [triviaEndFrom_cons_eq, if_neg (by omega)] at h
  cases hskip : m.skip? b xs.head? with
  | none =>
    rw [hskip] at h
    change offset = offset + 1 + k at h
    omega
  | some m' =>
    rw [hskip] at h
    exact ⟨m', rfl, h⟩

/-- A byte that is skipped and leaves the scan in code does so whatever
comes next, if it is no end of a line. -/
theorem skip?_eq_code (h : m.skip? b (some c) = some .code) (hc : c ≠ lineFeed) :
    m.skip? b ahead = some .code := by
  unfold Mode.skip? at h ⊢
  split
  · rename_i hm
    rw [if_pos hm, Option.some.injEq] at h
    rw [Option.some.injEq]
    cases m with
    | code => exact absurd rfl hm
    | quoted | escaped | blockClose => exact h
    | line =>
      simp [Mode.next, hc] at h
    | blockOpen => cases h
    | block =>
      rw [Mode.next] at h
      split at h <;> cases h
  · rename_i hm
    rw [if_neg hm] at h
    split
    · rfl
    · rename_i hspace
      rw [if_neg hspace] at h
      split at h
      · rename_i hslash
        rw [Option.some.injEq] at h
        exact absurd h hslash.2
      · cases h

/-- **What skipping stops at may change** for another byte that is neither
a blank nor a slash. -/
theorem triviaEndFrom_replace {limit' : Nat}
    (h : triviaEndFrom m offset limit (xs ++ c :: ys) = offset + xs.length)
    (hlt : offset + xs.length < limit) (hlt' : offset + xs.length < limit')
    (hspace : isSpace b = false) (hslash : b ≠ slash) :
    triviaEndFrom m offset limit' (xs ++ b :: zs) = offset + xs.length := by
  induction xs generalizing m offset with
  | nil =>
    obtain ⟨rfl, -⟩ := eq_code_of_triviaEndFrom h hlt
    exact triviaEndFrom_stop hspace hslash hlt'
  | cons d xs ih =>
    rw [List.length_cons] at h hlt hlt' ⊢
    rw [← Nat.add_assoc, Nat.add_right_comm] at h ⊢
    obtain ⟨m', hskip, hrest⟩ := exists_skip h (by omega)
    rw [List.cons_append, triviaEndFrom_cons_eq, if_neg (by omega)]
    have hsame : m.skip? d (xs ++ b :: zs).head? = some m' := by
      cases xs with
      | nil =>
        -- the byte ahead is the one that changes
        obtain ⟨rfl, hc⟩ := eq_code_of_triviaEndFrom hrest (by simpa using hlt)
        refine skip?_eq_code hskip ?_
        rintro rfl
        exact absurd hc (by decide)
      | cons e xs => exact hskip
    rw [hsame]
    exact ih hrest (by omega) (by omega)

/-! ## What stands before -/

/-- The marks before a literal: an opening bracket, a comma or a colon, and
the slash that opens or closes a comment. -/
def isFence (b : UInt8) : Bool :=
  [Bracket.brace.opener, Bracket.square.opener, comma, colon, slash].contains b

/-- **A text that ends with a fence**, but for the rest of a line and
blanks. -/
def IsFenced (bytes : List UInt8) : Prop :=
  ∃ front fence line blanks, bytes = front ++ fence :: (line ++ blanks) ∧ isFence fence = true ∧
    lineFeed ∉ line ∧ ∀ b ∈ blanks, isSpace b = true

/-- What a scan that skips has before it, with the byte ahead. -/
def Mode.Follows (m : Mode) (bytes : List UInt8) (ahead : Option UInt8) : Prop :=
  match m with
  | .code => IsFenced bytes
  | .line => (∃ front line, bytes = front ++ slash :: line ∧ lineFeed ∉ line) ∧
      ahead ≠ some lineFeed
  | .blockClose => ahead = some slash
  | .blockOpen | .block => True
  | .quoted _ | .escaped _ => False

theorem IsFenced.of_isFence {front : List UInt8} (h : isFence b = true) :
    IsFenced (front ++ [b]) := by
  refine ⟨front, b, [], [], rfl, h, List.not_mem_nil, fun _ hc => ?_⟩
  cases hc

theorem IsFenced.append_isSpace {bytes : List UInt8} (h : IsFenced bytes)
    (hspace : isSpace b = true) : IsFenced (bytes ++ [b]) := by
  obtain ⟨front, fence, line, blanks, rfl, hfence, hline, hblanks⟩ := h
  refine ⟨front, fence, line, blanks ++ [b], by simp, hfence, hline, fun c hc => ?_⟩
  rcases List.mem_append.1 hc with hc | hc
  · exact hblanks c hc
  · rwa [List.mem_singleton.1 hc]

theorem Mode.Follows.kind_ne {bytes : List UInt8} (h : m.Follows bytes ahead) :
    m.kind ≠ .text := by
  cases m with
  | quoted | escaped => exact h.elim
  | code | line | blockOpen | block | blockClose => decide

theorem Mode.Follows.skip {bytes : List UInt8} (h : m.Follows bytes (some b))
    (hskip : m.skip? b ahead = some m') : m'.Follows (bytes ++ [b]) ahead := by
  have hline {line : List UInt8} (hline : lineFeed ∉ line) (hb : some b ≠ some lineFeed) :
      lineFeed ∉ line ++ [b] := by
    rw [List.mem_append, List.mem_singleton, not_or]
    exact ⟨hline, fun hfeed => hb (congrArg some hfeed.symm)⟩
  cases Mode.skips_of_skip? h.kind_ne hskip with
  | space hspace => exact IsFenced.append_isSpace h hspace
  | openLine => exact ⟨⟨bytes, [], rfl, List.not_mem_nil⟩, by decide⟩
  | openBlock | blockOpen | block => trivial
  | line hahead =>
    obtain ⟨⟨front, line, rfl, hfree⟩, hb⟩ := h
    exact ⟨⟨front, line ++ [b], by simp, hline hfree hb⟩, hahead⟩
  | endLine =>
    -- the slash of the comment is the fence
    obtain ⟨⟨front, line, rfl, hfree⟩, hb⟩ := h
    exact ⟨front, slash, line ++ [b], [], by simp, by decide, hline hfree hb, List.forall_mem_nil _⟩
  | endBlock => rfl
  | blockClose =>
    cases h
    exact IsFenced.of_isFence (by decide)

/-- **Where skipping stops**, a fence stands before and no blank comes
next. -/
theorem Mode.Follows.fenced {bytes : List UInt8} (hfenced : m.Follows bytes (xs ++ c :: ys).head?)
    (h : triviaEndFrom m offset limit (xs ++ c :: ys) = offset + xs.length)
    (hlt : offset + xs.length < limit) : IsFenced (bytes ++ xs) ∧ isSpace c = false := by
  induction xs generalizing m offset bytes with
  | nil =>
    obtain ⟨rfl, hspace⟩ := eq_code_of_triviaEndFrom h hlt
    rw [List.append_nil]
    exact ⟨hfenced, hspace⟩
  | cons b xs ih =>
    rw [List.length_cons] at h hlt
    rw [← Nat.add_assoc, Nat.add_right_comm] at h
    obtain ⟨m', hskip, hrest⟩ := exists_skip h (by omega)
    have hnext := ih (hfenced.skip hskip) hrest (by omega)
    rwa [List.append_assoc] at hnext

/-! ## Strings -/

/-- Where a string ends that is read from its opening quote on depends on
the bytes up to there. -/
theorem extent_congr {n : Nat} (hm : m.kind ≠ .comment) (h : xs.take n = ys.take n) :
    min (m.extent xs) n = min (m.extent ys) n := by
  induction n generalizing m xs ys with
  | zero => rw [Nat.min_zero, Nat.min_zero]
  | succ n ih =>
    by_cases hcode : m = .code
    · subst hcode
      cases xs <;> cases ys <;> simp [Mode.extent]
    · cases xs with
      | nil =>
        cases ys with
        | nil => rfl
        | cons c ys => cases h
      | cons b xs =>
        cases ys with
        | nil => cases h
        | cons c ys =>
          rw [List.take_succ_cons, List.take_succ_cons, List.cons.injEq] at h
          obtain ⟨rfl, h⟩ := h
          have hnext : m.next none b xs.head? = m.next none b ys.head? ∧
              (m.next none b ys.head?).kind ≠ .comment := by
            cases m with
            | code => exact absurd rfl hcode
            | quoted quote =>
              refine ⟨rfl, ?_⟩
              rw [Mode.next]
              split
              · simp [Mode.kind]
              · split <;> simp [Mode.kind]
            | escaped quote => exact ⟨rfl, by simp [Mode.next, Mode.kind]⟩
            | line | blockOpen | block | blockClose => exact absurd rfl hm
          have hrest := ih hnext.2 h
          rw [Mode.extent, Mode.extent, if_neg hcode, if_neg hcode, hnext.1,
            Nat.add_min_add_right, Nat.add_min_add_right, hrest]

end ConfigPatch.Lexical
