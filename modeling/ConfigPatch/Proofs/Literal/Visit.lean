import ConfigPatch.Proofs.Literal.InStep

/-!
# The offsets that a scan visits

A scan that looks for brackets and commas goes from byte to byte and passes
each string and each comment at once. `Visits` is that scan with its
counter of open brackets. It visits the offsets at which the labelling scan
is in code, and what it passes are the stretches with one label. So blanks
and commas, told by what is visited, are those of the labels.
-/

namespace ConfigPatch.Literal

open Lexical

variable {bytes : List UInt8} {start offset stop depth i j : Nat} {b : UInt8}
variable {m : Mode} {before ahead : Option UInt8}

/-- **The offsets that the scan from one on visits**, each with the number
of brackets that are open there. A bracket that closes nothing is passed
over. -/
inductive Visits (bytes : List UInt8) (start : Nat) : Nat → Nat → Prop
  /-- The scan starts with no bracket open. -/
  | start : Visits bytes start start 0
  /-- It passes a string or a comment up to its end. -/
  | pass {i stop depth : Nat} : Visits bytes start i depth →
      opaqueEnd? bytes i = some stop → Visits bytes start stop depth
  /-- It reads any other byte. -/
  | byte {i depth : Nat} {b : UInt8} : Visits bytes start i depth → opaqueEnd? bytes i = none →
      bytes[i]? = some b → Visits bytes start (i + 1) (depthAfter depth b)

/-- A byte of code: it is visited and starts neither a string nor a
comment. -/
def InCode (bytes : List UInt8) (start i depth : Nat) : Prop :=
  Visits bytes start i depth ∧ opaqueEnd? bytes i = none

/-- A byte of a comment that the scan passes. -/
def InComment (bytes : List UInt8) (start i : Nat) : Prop :=
  ∃ j depth stop, Visits bytes start j depth ∧ bytes[j]? = some slash ∧
    opaqueEnd? bytes j = some stop ∧ j ≤ i ∧ i < stop

/-- A byte of a string that the scan passes up to an end. -/
def InString (bytes : List UInt8) (start i stop : Nat) : Prop :=
  ∃ j depth quote, Visits bytes start j depth ∧ bytes[j]? = some quote ∧ isQuote quote = true ∧
    opaqueEnd? bytes j = some stop ∧ j ≤ i ∧ i < stop

/-- **A top-level comma**: it is visited outside of strings, comments and
brackets. -/
def IsComma (bytes : List UInt8) (start i : Nat) : Prop :=
  InCode bytes start i 0 ∧ bytes[i]? = some comma

/-- **White space outside of strings, or a byte of a comment.** -/
def IsBlank (bytes : List UInt8) (start i : Nat) : Prop :=
  (∃ depth b, InCode bytes start i depth ∧ bytes[i]? = some b ∧ isSpace b = true) ∨
    InComment bytes start i

/-! ## Stretches that are passed -/

/-- Outside of code the kind stays until code comes. -/
theorem kind_next (hm : m ≠ .code) (hnext : m.next before b ahead ≠ .code) :
    (m.next before b ahead).kind = m.kind := by
  cases m with
  | code => exact absurd rfl hm
  | escaped | blockOpen | blockClose => first | rfl | exact absurd rfl hnext
  | quoted quote =>
    rw [Mode.next] at hnext ⊢
    split
    · rfl
    · rename_i hback
      rw [if_neg hback] at hnext
      split
      · rename_i hquote
        exact absurd (if_pos hquote) hnext
      · rfl
  | line =>
    rw [Mode.next] at hnext ⊢
    split
    · rename_i hfeed
      exact absurd (if_pos hfeed) hnext
    · rfl
  | block =>
    rw [Mode.next]
    split <;> rfl

theorem extent_code {xs : List UInt8} : Mode.extent .code xs = 0 := by
  cases xs <;> rfl

theorem extent_pos (hm : m ≠ .code) {xs : List UInt8} (hne : xs ≠ []) : 0 < m.extent xs := by
  obtain ⟨b, xs, rfl⟩ := List.exists_cons_of_ne_nil hne
  rw [Mode.extent, if_neg hm]
  exact Nat.succ_pos _

/-- One byte of a stretch. -/
theorem extent_modeAt (hle : start ≤ i) (hlt : i < bytes.length)
    (hm : modeAt bytes start i ≠ .code) :
    (modeAt bytes start i).extent (bytes.drop i) =
      (modeAt bytes start (i + 1)).extent (bytes.drop (i + 1)) + 1 := by
  have hb := List.getElem?_eq_getElem hlt
  rw [List.drop_eq_getElem_cons hlt, Mode.extent, if_neg hm, List.head?_drop, next_of_ne_code hm,
    ← modeAt_succ hle hb]

theorem extent_le_length {xs : List UInt8} : m.extent xs ≤ xs.length := by
  induction xs generalizing m with
  | nil => exact Nat.zero_le _
  | cons b xs ih =>
    rw [Mode.extent, List.length_cons]
    split
    · exact Nat.zero_le _
    · exact Nat.succ_le_succ ih

/-- **A stretch outside of code** has one kind and one end. -/
theorem modeAt_of_lt_extent (hle : start ≤ i) (hm : modeAt bytes start i ≠ .code) (hij : i ≤ j)
    (hlt : j < i + (modeAt bytes start i).extent (bytes.drop i)) :
    modeAt bytes start j ≠ .code ∧ (modeAt bytes start j).kind = (modeAt bytes start i).kind ∧
      j + (modeAt bytes start j).extent (bytes.drop j) =
        i + (modeAt bytes start i).extent (bytes.drop i) := by
  have hextent : (modeAt bytes start i).extent (bytes.drop i) ≤ (bytes.drop i).length :=
    extent_le_length
  rw [List.length_drop] at hextent
  obtain ⟨k, rfl⟩ := Nat.exists_eq_add_of_le hij
  induction k with
  | zero => exact ⟨hm, rfl, rfl⟩
  | succ k ih =>
    obtain ⟨hcode, hkind, hend⟩ := ih (Nat.le_add_right i k) (by omega)
    have hlen : i + k < bytes.length := by omega
    have hle' : start ≤ i + k := by omega
    have hstep := extent_modeAt hle' hlen hcode
    rw [← Nat.add_assoc]
    have hnext : modeAt bytes start (i + k + 1) ≠ .code := by
      intro hnext
      rw [hnext, extent_code] at hstep
      omega
    refine ⟨hnext, ?_, by omega⟩
    have hmode := modeAt_succ hle' (List.getElem?_eq_getElem hlen)
    rw [hmode] at hnext ⊢
    rw [kind_next hcode hnext, hkind]

/-- Behind the end of a stretch there is code. -/
theorem modeAt_extent (hle : start ≤ i) (hm : modeAt bytes start i ≠ .code)
    (hstop : i + (modeAt bytes start i).extent (bytes.drop i) = stop) (hlt : stop < bytes.length) :
    modeAt bytes start stop = .code := by
  have hpos : 0 < (modeAt bytes start i).extent (bytes.drop i) := by
    refine extent_pos hm fun hnil => ?_
    have hlen := List.drop_eq_nil_iff.1 hnil
    omega
  obtain ⟨last, rfl⟩ : ∃ last, stop = last + 1 := ⟨stop - 1, by omega⟩
  obtain ⟨hcode, -, hend⟩ := modeAt_of_lt_extent hle hm (show i ≤ last by omega) (by omega)
  have hstep := extent_modeAt (show start ≤ last by omega) (by omega) hcode
  refine Decidable.byContradiction fun hnot => ?_
  have hmore : 0 < (modeAt bytes start (last + 1)).extent (bytes.drop (last + 1)) := by
    refine extent_pos hnot fun hnil => ?_
    have hlen := List.drop_eq_nil_iff.1 hnil
    omega
  omega

/-- **What starts at a byte of code** goes on up to the end of the stretch
behind it. -/
theorem opaqueEnd?_eq (hle : start ≤ i) (hlt : i < bytes.length)
    (hcode : modeAt bytes start i = .code) :
    opaqueEnd? bytes i = if modeAt bytes start (i + 1) = .code then none
      else some (i + 1 + (modeAt bytes start (i + 1)).extent (bytes.drop (i + 1))) := by
  have hmode := modeAt_succ hle (List.getElem?_eq_getElem hlt)
  rw [hcode] at hmode
  rw [opaqueEnd?, List.drop_eq_getElem_cons hlt]
  simp only [List.head?_drop, ← hmode]

/-- What starts a string is a quote, and what starts a comment is a
slash. -/
theorem next_code (hnext : Mode.next before b ahead .code ≠ .code) :
    (Mode.next before b ahead .code).kind = .text ∧ isQuote b = true ∨
      (Mode.next before b ahead .code).kind = .comment ∧ b = slash := by
  rw [Mode.next] at hnext ⊢
  split
  · rename_i hquote
    exact .inl ⟨rfl, hquote⟩
  · rename_i hquote
    rw [if_neg hquote] at hnext
    split
    · rename_i hslash
      rw [if_pos hslash] at hnext
      unfold Mode.afterSlash at hnext ⊢
      split
      · exact .inr ⟨rfl, hslash.1⟩
      · rename_i hline
        rw [if_neg hline] at hnext
        split
        · exact .inr ⟨rfl, hslash.1⟩
        · rename_i hblock
          exact absurd (if_neg hblock) hnext
    · rename_i hslash
      exact absurd (if_neg hslash) hnext

/-! ## Visits and modes -/

/-- The label of the byte at an offset. -/
def labelAt (bytes : List UInt8) (start i : Nat) : Mark :=
  ⟨bytes[i]?.getD 0, kindBetween (modeAt bytes start i) (modeAt bytes start (i + 1))⟩

/-- The number of brackets that are open after so many bytes. -/
def depthOf (bytes : List UInt8) (start : Nat) : Nat → Nat
  | 0 => 0
  | k + 1 => depthOver (depthOf bytes start k) [labelAt bytes start (start + k)]

/-- The number of brackets that are open at an offset. -/
def depthAt (bytes : List UInt8) (start i : Nat) : Nat := depthOf bytes start (i - start)

theorem depthAt_succ (hle : start ≤ i) :
    depthAt bytes start (i + 1) = depthOver (depthAt bytes start i) [labelAt bytes start i] := by
  obtain ⟨k, rfl⟩ := Nat.exists_eq_add_of_le hle
  rw [depthAt, depthAt, Nat.add_assoc, Nat.add_sub_cancel_left, Nat.add_sub_cancel_left, depthOf]

theorem depthAt_self : depthAt bytes start start = 0 := by
  rw [depthAt, Nat.sub_self, depthOf]

/-- A byte of code counts if it is a bracket. -/
theorem depthAt_succ_of_code (hle : start ≤ i) (hb : bytes[i]? = some b)
    (hcode : modeAt bytes start i = .code) (hnext : modeAt bytes start (i + 1) = .code) :
    depthAt bytes start (i + 1) = depthAfter (depthAt bytes start i) b := by
  have hkind : (labelAt bytes start i).kind = .code := by
    rw [labelAt, hcode, hnext]
    rfl
  rw [depthAt_succ hle, depthOver_of_code hkind, labelAt, hb, Option.getD_some]

/-- No other byte does. -/
theorem depthAt_succ_of_ne (hle : start ≤ i)
    (hne : modeAt bytes start i ≠ .code ∨ modeAt bytes start (i + 1) ≠ .code) :
    depthAt bytes start (i + 1) = depthAt bytes start i := by
  have hkind : (labelAt bytes start i).kind ≠ .code := by
    intro hkind
    obtain ⟨hcode, hnext⟩ := code_of_kindBetween hkind
    exact hne.elim (fun h => h hcode) fun h => h hnext
  rw [depthAt_succ hle, depthOver_of_ne hkind]

/-- What a stretch that the scan passes starts with. -/
def Opens (bytes : List UInt8) (j : Nat) (kind : Kind) : Prop :=
  (kind = .text ∧ ∃ quote, bytes[j]? = some quote ∧ isQuote quote = true) ∨
    (kind = .comment ∧ bytes[j]? = some slash)

/-- A byte behind which the scan is out of code starts a string or a
comment. -/
theorem opens_of_modeAt (hle : start ≤ i) (hb : bytes[i]? = some b)
    (hcode : modeAt bytes start i = .code) (hnext : modeAt bytes start (i + 1) ≠ .code) :
    Opens bytes i (modeAt bytes start (i + 1)).kind := by
  have hmode := modeAt_succ hle hb
  rw [hcode] at hmode
  rw [hmode] at hnext ⊢
  rcases next_code hnext with ⟨hkind, hquote⟩ | ⟨hkind, hslash⟩
  · exact .inl ⟨hkind, _, hb, hquote⟩
  · exact .inr ⟨hkind, by rw [hb, hslash]⟩

/-- **The scan visits an offset or passes it.** It visits those where the
labelling scan is in code, and the other ones lie in a stretch that it has
found the end of. -/
theorem visits_or_passes (hle : start ≤ i) (hlen : i ≤ bytes.length) :
    (modeAt bytes start i = .code ∧ Visits bytes start i (depthAt bytes start i)) ∨
    (modeAt bytes start i ≠ .code ∧ ∃ j < i, Visits bytes start j (depthAt bytes start i) ∧
      Opens bytes j (modeAt bytes start i).kind ∧
      opaqueEnd? bytes j = some (i + (modeAt bytes start i).extent (bytes.drop i))) := by
  obtain ⟨k, rfl⟩ := Nat.exists_eq_add_of_le hle
  induction k with
  | zero =>
    left
    rw [Nat.add_zero, depthAt_self]
    exact ⟨modeAt_self, .start⟩
  | succ k ih =>
    have hlt : start + k < bytes.length := by omega
    have hb := List.getElem?_eq_getElem hlt
    have hle' : start ≤ start + k := Nat.le_add_right start k
    have hmode := modeAt_succ hle' hb
    rw [← Nat.add_assoc]
    rcases ih hle' (Nat.le_of_lt hlt) with ⟨hcode, hvisit⟩ | ⟨hcode, j, hj, hvisit, hopens, hend⟩
    · have hstart := opaqueEnd?_eq hle' hlt hcode
      by_cases hnext : modeAt bytes start (start + k + 1) = .code
      · rw [if_pos hnext] at hstart
        left
        rw [depthAt_succ_of_code hle' hb hcode hnext]
        exact ⟨hnext, .byte hvisit hstart hb⟩
      · rw [if_neg hnext] at hstart
        right
        rw [depthAt_succ_of_ne hle' (.inr hnext)]
        exact ⟨hnext, start + k, Nat.lt_succ_self _, hvisit, opens_of_modeAt hle' hb hcode hnext,
          hstart⟩
    · have hstep := extent_modeAt hle' hlt hcode
      rw [depthAt_succ_of_ne hle' (.inl hcode)]
      by_cases hnext : modeAt bytes start (start + k + 1) = .code
      · left
        rw [hnext, extent_code] at hstep
        rw [hstep] at hend
        exact ⟨hnext, .pass hvisit hend⟩
      · right
        refine ⟨hnext, j, by omega, hvisit, ?_, ?_⟩
        · rw [hmode] at hnext ⊢
          rwa [kind_next hcode hnext]
        · rw [hend, hstep]
          congr 1
          omega

/-- Up to the end of a stretch no bracket counts. -/
theorem depthAt_of_le_extent (hle : start ≤ i) (hm : modeAt bytes start i ≠ .code) (hij : i ≤ j)
    (hend : j ≤ i + (modeAt bytes start i).extent (bytes.drop i)) :
    depthAt bytes start j = depthAt bytes start i := by
  obtain ⟨k, rfl⟩ := Nat.exists_eq_add_of_le hij
  induction k with
  | zero => rfl
  | succ k ih =>
    have hcode := (modeAt_of_lt_extent hle hm (Nat.le_add_right i k) (by omega)).1
    rw [← Nat.add_assoc, depthAt_succ_of_ne (by omega) (.inl hcode),
      ih (Nat.le_add_right i k) (by omega)]

theorem lt_of_opaqueEnd? (h : opaqueEnd? bytes i = some stop) : i < bytes.length := by
  refine Decidable.byContradiction fun hnot => ?_
  rw [opaqueEnd?, List.drop_eq_nil_of_le (Nat.not_lt.1 hnot)] at h
  cases h

/-- **What is visited is in code**, with the brackets that are open
there. -/
theorem Visits.modeAt_eq (h : Visits bytes start i depth) (hlt : i < bytes.length) :
    start ≤ i ∧ modeAt bytes start i = .code ∧ depth = depthAt bytes start i := by
  induction h with
  | start => exact ⟨Nat.le_refl _, modeAt_self, depthAt_self.symm⟩
  | @byte i depth b hvisit hend hb ih =>
    obtain ⟨hle, hcode, rfl⟩ := ih (by omega)
    rw [opaqueEnd?_eq hle (by omega) hcode] at hend
    split at hend
    · rename_i hnext
      exact ⟨by omega, hnext, (depthAt_succ_of_code hle hb hcode hnext).symm⟩
    · cases hend
  | @pass i stop depth hvisit hend ih =>
    have hi := lt_of_opaqueEnd? hend
    obtain ⟨hle, hcode, rfl⟩ := ih hi
    rw [opaqueEnd?_eq hle hi hcode] at hend
    split at hend
    · cases hend
    · rename_i hnext
      have hstop := Option.some.inj hend
      refine ⟨by omega, modeAt_extent (by omega) hnext hstop hlt, ?_⟩
      rw [depthAt_of_le_extent (by omega) hnext (by omega) (Nat.le_of_eq hstop.symm),
        depthAt_succ_of_ne hle (.inr hnext)]

/-! ## What a byte is -/

theorem labelAt_eq (hb : bytes[i]? = some b) : labelAt bytes start i =
    ⟨b, kindBetween (modeAt bytes start i) (modeAt bytes start (i + 1))⟩ := by
  rw [labelAt, hb, Option.getD_some]

/-- **A byte is code** exactly if it is labelled so. -/
theorem inCode_iff (hle : start ≤ i) (hlt : i < bytes.length) :
    InCode bytes start i depth ↔
      (labelAt bytes start i).kind = .code ∧ depth = depthAt bytes start i := by
  constructor
  · rintro ⟨hvisit, hend⟩
    obtain ⟨-, hcode, hdepth⟩ := hvisit.modeAt_eq hlt
    rw [opaqueEnd?_eq hle hlt hcode] at hend
    split at hend
    · rename_i hnext
      rw [labelAt, hcode, hnext]
      exact ⟨rfl, hdepth⟩
    · cases hend
  · rintro ⟨hkind, rfl⟩
    obtain ⟨hcode, hnext⟩ := code_of_kindBetween hkind
    rcases visits_or_passes hle (Nat.le_of_lt hlt) with ⟨-, hvisit⟩ | ⟨hne, -⟩
    · exact ⟨hvisit, by rw [opaqueEnd?_eq hle hlt hcode, if_pos hnext]⟩
    · exact absurd hcode hne

/-- A byte that is not code lies in a stretch that the scan passes. -/
theorem exists_of_kind (hle : start ≤ i) (hlt : i < bytes.length)
    (hkind : (labelAt bytes start i).kind ≠ .code) :
    ∃ j depth stop, Visits bytes start j depth ∧ Opens bytes j (labelAt bytes start i).kind ∧
      opaqueEnd? bytes j = some stop ∧ j ≤ i ∧ i < stop := by
  have hb := List.getElem?_eq_getElem hlt
  rw [labelAt_eq hb] at hkind ⊢
  dsimp only at hkind ⊢
  rcases visits_or_passes hle (Nat.le_of_lt hlt) with ⟨hcode, hvisit⟩ | ⟨hcode, j, hj, hvisit, h⟩
  · -- the stretch starts here
    rw [hcode, kindBetween, if_pos rfl] at hkind ⊢
    have hnext : modeAt bytes start (i + 1) ≠ .code := by
      intro hnext
      rw [hnext] at hkind
      exact hkind rfl
    have hend := opaqueEnd?_eq hle hlt hcode
    rw [if_neg hnext] at hend
    exact ⟨i, _, _, hvisit, opens_of_modeAt hle hb hcode hnext, hend, Nat.le_refl _, by omega⟩
  · have hpos : 0 < (modeAt bytes start i).extent (bytes.drop i) := by
      rw [extent_modeAt hle hlt hcode]
      exact Nat.succ_pos _
    rw [kindBetween, if_neg hcode]
    exact ⟨j, _, _, hvisit, h.1, h.2, Nat.le_of_lt hj, by omega⟩

/-- **Every byte that the scan passes has the label** of what the stretch
starts with. -/
theorem kind_of_passes {kind : Kind} (hvisit : Visits bytes start j depth)
    (hopens : Opens bytes j kind) (hend : opaqueEnd? bytes j = some stop) (hji : j ≤ i)
    (hlt : i < stop) : start ≤ j ∧ (labelAt bytes start i).kind = kind := by
  have hlen := lt_of_opaqueEnd? hend
  have hb := List.getElem?_eq_getElem hlen
  obtain ⟨hle, hcode, -⟩ := hvisit.modeAt_eq hlen
  rw [opaqueEnd?_eq hle hlen hcode] at hend
  split at hend
  · cases hend
  · rename_i hnext
    have hstop := Option.some.inj hend
    have hmode := modeAt_succ hle hb
    rw [hcode] at hmode
    have hkind : (modeAt bytes start (j + 1)).kind = kind := by
      rw [hmode] at hnext ⊢
      rw [Opens, hb] at hopens
      rcases hopens with ⟨rfl, quote, hquote, hisQuote⟩ | ⟨rfl, hslash⟩
      · cases hquote
        rcases next_code hnext with ⟨hkind, -⟩ | ⟨-, hslash⟩
        · exact hkind
        · rw [hslash] at hisQuote
          cases hisQuote
      · have hslash' := Option.some.inj hslash
        rcases next_code hnext with ⟨-, hquote⟩ | ⟨hkind, -⟩
        · rw [hslash'] at hquote
          cases hquote
        · exact hkind
    refine ⟨hle, ?_⟩
    rcases Nat.eq_or_lt_of_le hji with rfl | hji
    · rw [labelAt, hcode]
      exact hkind
    · obtain ⟨hne, hsame, -⟩ := modeAt_of_lt_extent (show start ≤ j + 1 by omega) hnext hji
        (by omega)
      rw [labelAt]
      dsimp only
      rw [kindBetween, if_neg hne, hsame, hkind]

/-- **The blanks of the labels** are those that the scan visits and the
bytes of the comments that it passes. -/
theorem isBlank_iff (hle : start ≤ i) (hlt : i < bytes.length) :
    (labelAt bytes start i).isBlank = true ↔ IsBlank bytes start i := by
  have hb := List.getElem?_eq_getElem hlt
  have hbyte : (labelAt bytes start i).byte = bytes[i] := by
    rw [labelAt_eq hb]
  simp only [Mark.isBlank, Bool.or_eq_true, Bool.and_eq_true, beq_iff_eq, hbyte]
  constructor
  · rintro (hkind | ⟨hkind, hspace⟩)
    · right
      obtain ⟨j, depth, stop, hvisit, hopens, hend, hji, histop⟩ :=
        exists_of_kind hle hlt (by rw [hkind]; decide)
      rw [hkind] at hopens
      rcases hopens with ⟨htext, -⟩ | ⟨-, hslash⟩
      · cases htext
      · exact ⟨j, depth, stop, hvisit, hslash, hend, hji, histop⟩
    · exact .inl ⟨_, _, (inCode_iff hle hlt).2 ⟨hkind, rfl⟩, hb, hspace⟩
  · rintro (⟨depth, b, hcode, hb', hspace⟩ | ⟨j, depth, stop, hvisit, hslash, hend, hji, histop⟩)
    · right
      rw [hb] at hb'
      cases hb'
      exact ⟨((inCode_iff hle hlt).1 hcode).1, hspace⟩
    · exact .inl (kind_of_passes hvisit (.inr ⟨rfl, hslash⟩) hend hji histop).2

/-- **The commas between items** are the top-level commas. -/
theorem isComma_iff (hle : start ≤ i) (hlt : i < bytes.length) :
    (depthAt bytes start i = 0 ∧ labelAt bytes start i = ⟨comma, .code⟩) ↔
      IsComma bytes start i := by
  have hb := List.getElem?_eq_getElem hlt
  rw [IsComma, inCode_iff hle hlt, labelAt_eq hb, Mark.mk.injEq, hb, Option.some.injEq]
  constructor
  · rintro ⟨hdepth, hbyte, hkind⟩
    exact ⟨⟨hkind, hdepth.symm⟩, hbyte⟩
  · rintro ⟨⟨hkind, hdepth⟩, hbyte⟩
    exact ⟨hdepth.symm, hbyte, hkind⟩

/-- A byte of a string lies in one that the scan passes. -/
theorem exists_inString (hle : start ≤ i) (hlt : i < bytes.length)
    (hkind : (labelAt bytes start i).kind = .text) : ∃ stop, InString bytes start i stop := by
  obtain ⟨j, depth, stop, hvisit, hopens, hend, hji, histop⟩ :=
    exists_of_kind hle hlt (by rw [hkind]; decide)
  rw [hkind] at hopens
  rcases hopens with ⟨-, quote, hb, hquote⟩ | ⟨hcomment, -⟩
  · exact ⟨stop, j, depth, quote, hvisit, hb, hquote, hend, hji, histop⟩
  · cases hcomment

/-! ## Where stretches end -/

/-- What is known of a mode and the byte at which the scan is in it: an open
string has been opened by a quote, and behind the star of a mark comes its
slash. -/
def Expects (b : Option UInt8) : Mode → Prop
  | .quoted quote | .escaped quote => isQuote quote = true
  | .blockClose => b = some slash
  | .code | .line | .blockOpen | .block => True

theorem Expects.next (h : Expects (some b) m) : Expects ahead (m.next before b ahead) := by
  cases m with
  | code =>
    rw [Mode.next]
    split
    · rename_i hquote
      exact hquote
    · split
      · unfold Mode.afterSlash
        split
        · trivial
        · split <;> trivial
      · trivial
  | quoted quote =>
    rw [Mode.next]
    split
    · exact h
    · split
      · trivial
      · exact h
  | escaped quote => exact h
  | line =>
    rw [Mode.next]
    split <;> trivial
  | blockOpen | blockClose => trivial
  | block =>
    rw [Mode.next]
    split
    · rename_i hclose
      exact hclose.2
    · trivial

theorem expects_modeAt (hle : start ≤ i) (hlen : i ≤ bytes.length) :
    Expects bytes[i]? (modeAt bytes start i) := by
  obtain ⟨k, rfl⟩ := Nat.exists_eq_add_of_le hle
  induction k with
  | zero =>
    rw [Nat.add_zero, modeAt_self]
    trivial
  | succ k ih =>
    have hlt : start + k < bytes.length := by omega
    have hb := List.getElem?_eq_getElem hlt
    have hexpects := ih (Nat.le_add_right start k) (Nat.le_of_lt hlt)
    rw [hb] at hexpects
    rw [← Nat.add_assoc, modeAt_succ (Nat.le_add_right start k) hb]
    exact hexpects.next

/-- A byte outside of code behind which code comes was read outside of
code. -/
theorem kind_modeAt (hnext : modeAt bytes start (i + 1) = .code)
    (hkind : (labelAt bytes start i).kind ≠ .code) :
    (labelAt bytes start i).kind = (modeAt bytes start i).kind := by
  rw [labelAt, hnext] at hkind ⊢
  dsimp only at hkind ⊢
  unfold kindBetween at hkind ⊢
  split
  · rename_i hcode
    rw [if_pos hcode] at hkind
    exact absurd rfl hkind
  · rfl

/-- Outside of code the next byte belongs to what the byte belongs to. -/
theorem kind_labelAt_succ (hle : start ≤ i) (hlt : i < bytes.length)
    (hnext : modeAt bytes start (i + 1) ≠ .code) :
    (labelAt bytes start (i + 1)).kind = (labelAt bytes start i).kind := by
  have hmode := modeAt_succ hle (List.getElem?_eq_getElem hlt)
  rw [labelAt, labelAt]
  dsimp only
  rw [kindBetween, if_neg hnext, kindBetween]
  split
  · rfl
  · rename_i hcode
    rw [hmode] at hnext ⊢
    exact kind_next hcode hnext

/-- **The last byte of a string** that ends is its quote. -/
theorem isQuote_of_ends (hle : start ≤ i) (hb : bytes[i]? = some b)
    (hkind : (labelAt bytes start i).kind = .text) (hnext : modeAt bytes start (i + 1) = .code) :
    isQuote b = true := by
  have hmode := kind_modeAt hnext (by rw [hkind]; decide)
  have hexpects := expects_modeAt hle (Nat.le_of_lt (List.getElem?_eq_some_iff.1 hb).1)
  rw [modeAt_succ hle hb] at hnext
  rw [hkind] at hmode
  cases hm : modeAt bytes start i with
  | quoted quote =>
    rw [hm] at hnext hexpects
    rw [Mode.next] at hnext
    split at hnext
    · cases hnext
    · split at hnext
      · rename_i hquote
        rw [hquote]
        exact hexpects
      · cases hnext
  | escaped quote =>
    rw [hm] at hnext
    cases hnext
  | code | line | blockOpen | block | blockClose =>
    rw [hm] at hmode
    cases hmode

/-- **A comment that ends** ends with a slash, or in front of a line
feed. -/
theorem slash_or_lineFeed_of_ends (hle : start ≤ i) (hb : bytes[i]? = some b)
    (hkind : (labelAt bytes start i).kind = .comment)
    (hnext : modeAt bytes start (i + 1) = .code) :
    b = slash ∨ bytes[i + 1]? = some lineFeed := by
  have hmode := kind_modeAt hnext (by rw [hkind]; decide)
  have hexpects := expects_modeAt hle (Nat.le_of_lt (List.getElem?_eq_some_iff.1 hb).1)
  rw [modeAt_succ hle hb] at hnext
  rw [hkind] at hmode
  cases hm : modeAt bytes start i with
  | line =>
    rw [hm, Mode.next] at hnext
    split at hnext
    · rename_i hfeed
      exact .inr hfeed
    · cases hnext
  | blockOpen =>
    rw [hm] at hnext
    cases hnext
  | block =>
    rw [hm, Mode.next] at hnext
    split at hnext <;> cases hnext
  | blockClose =>
    rw [hm, hb] at hexpects
    exact .inl (Option.some.inj hexpects)
  | code | quoted | escaped =>
    rw [hm] at hmode
    cases hmode

end ConfigPatch.Literal
