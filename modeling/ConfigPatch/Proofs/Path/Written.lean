import ConfigPatch.Proofs.Path.Grammar
import Mathlib.Data.List.Chain

/-!
# The written form of paths

A path is written with one token for a property and the index right behind
it, and with one for every other segment. These tokens are read back as
the path if its names can be written at all. A text that is read as a path
is its written form unless an index has a zero too many in front or stands
behind a point where none is needed.
-/

namespace ConfigPatch.Path

variable {digits name : List Char} {t u : Token} {ts us : List Token} {p rest : Path}
variable {segment : Segment} {s : String} {n : UInt64}

/-! ## Decimal digits -/

/-- Whether the first digit is a zero that could be left out. -/
def hasSpareZero (digits : List Char) : Bool :=
  digits.head? == some '0' && decide (1 < digits.length)

/-- The digits of an index. -/
def digitsOf (n : UInt64) : List Char := Nat.toDigits 10 n.toNat

theorem exists_digitChar {c : Char} (h : c.isDigit = true) : ∃ d < 10, Nat.digitChar d = c := by
  obtain ⟨hle, hge⟩ := Char.isDigit_iff_toNat.1 h
  have hzero : '0'.toNat = 48 := rfl
  have hnine : '9'.toNat = 57 := rfl
  refine ⟨c.toNat - 48, by omega, Char.toNat_inj.1 ?_⟩
  rw [Nat.toNat_digitChar_of_lt_ten (by omega)]
  omega

/-- Digits that do not start with a zero are those of the number they
stand for. -/
theorem toDigits_ofDigitChars_of_ne (hne : digits ≠ [])
    (hdigits : ∀ c ∈ digits, c.isDigit = true) (hzero : digits.head? ≠ some '0') :
    0 < Nat.ofDigitChars 10 digits 0 ∧
      Nat.toDigits 10 (Nat.ofDigitChars 10 digits 0) = digits := by
  induction digits using List.reverseRecOn with
  | nil => exact absurd rfl hne
  | append_singleton front c ih =>
    obtain ⟨d, hd, rfl⟩ := exists_digitChar (hdigits c (List.mem_append_right _ List.mem_cons_self))
    rw [Nat.ofDigitChars_append, Nat.ofDigitChars_cons_digitChar_of_lt_ten hd, Nat.ofDigitChars_nil]
    rcases eq_or_ne front [] with rfl | hfront
    · have hpos : d ≠ 0 := by
        rintro rfl
        exact hzero rfl
      rw [Nat.ofDigitChars_nil, Nat.mul_zero, Nat.zero_add]
      exact ⟨by omega, Nat.toDigits_of_lt_base hd⟩
    · rw [List.head?_append_of_ne_nil _ hfront] at hzero
      obtain ⟨hpos, heq⟩ := ih hfront (fun c hc => hdigits c (List.mem_append_left _ hc)) hzero
      refine ⟨by omega, ?_⟩
      rw [← Nat.toDigits_append_toDigits (by omega) hpos hd, heq, Nat.toDigits_of_lt_base hd]

/-- No number but zero is written with a zero in front. -/
theorem head?_toDigits (k : Nat) (h : 0 < k) : (Nat.toDigits 10 k).head? ≠ some '0' := by
  induction k using Nat.strongRecOn with
  | ind k ih =>
    rcases Nat.lt_or_ge k 10 with hlt | hge
    · rw [Nat.toDigits_of_lt_base hlt, List.head?_cons, ne_eq, Option.some.injEq,
        Nat.digitChar_eq_zero]
      omega
    · rw [Nat.toDigits_of_base_le (by omega) hge, List.head?_append_of_ne_nil _ Nat.toDigits_ne_nil]
      exact ih (k / 10) (by omega) (by omega)

/-- **Digits are those of the number they stand for** unless there is a
zero to spare. -/
theorem toDigits_ofDigitChars (hne : digits ≠ []) (hdigits : ∀ c ∈ digits, c.isDigit = true) :
    Nat.toDigits 10 (Nat.ofDigitChars 10 digits 0) = digits ↔ hasSpareZero digits = false := by
  constructor
  · intro heq
    rcases Nat.eq_zero_or_pos (Nat.ofDigitChars 10 digits 0) with hzero | hpos
    · rw [hzero, Nat.toDigits_zero] at heq
      rw [← heq]
      rfl
    · have hhead := head?_toDigits _ hpos
      rw [heq] at hhead
      simp [hasSpareZero, hhead]
  · intro hspare
    by_cases hzero : digits.head? = some '0'
    · obtain ⟨tail, rfl⟩ := List.head?_eq_some_iff.1 hzero
      cases tail with
      | nil => rfl
      | cons c tail => simp [hasSpareZero] at hspare
    · exact (toDigits_ofDigitChars_of_ne hne hdigits hzero).2

theorem isIndex_digitsOf (n : UInt64) : isIndex (digitsOf n) = true := by
  have hlt : n.toNat < UInt64.size := n.toNat_lt
  have hall : (digitsOf n).all Char.isDigit = true :=
    List.all_eq_true.2 fun c hc => Nat.isDigit_of_mem_toDigits (by omega) (by omega) hc
  rw [isIndex, hall, digitsOf, Nat.ofDigitChars_ten_toDigits]
  simp [hlt]

theorem indexOf_digitsOf (n : UInt64) : indexOf (digitsOf n) = .index n := by
  rw [indexOf, digitsOf, Nat.ofDigitChars_ten_toDigits, UInt64.ofNat_toNat]

theorem digitsOf_eq_iff (h : isIndex digits = true) :
    digitsOf (.ofNat (Nat.ofDigitChars 10 digits 0)) = digits ↔ hasSpareZero digits = false := by
  simp only [isIndex, Bool.and_eq_true, Bool.not_eq_true', List.isEmpty_eq_false_iff,
    decide_eq_true_eq] at h
  rw [digitsOf, UInt64.toNat_ofNat_of_lt' h.2]
  exact toDigits_ofDigitChars h.1.1 (List.all_eq_true.1 h.1.2)

/-! ## The tokens of a path -/

/-- **The tokens that a path is written with.** -/
def spelling : Path → List Token
  | [] => []
  | .property name :: .index n :: rest => .nameIndex name.toList (digitsOf n) :: spelling rest
  | .property name :: rest => .name name.toList :: spelling rest
  | .index n :: rest => .index (digitsOf n) :: spelling rest

theorem spelling_property (h : ∀ n tail, rest ≠ .index n :: tail) (name : String) :
    spelling (.property name :: rest) = .name name.toList :: spelling rest := by
  cases rest with
  | nil => rfl
  | cons next rest =>
    cases next with
    | property other => rfl
    | index n => exact absurd rfl (h n rest)

/-- **The segments of the tokens are the path.** -/
theorem flatMap_segments_spelling (p : Path) : (spelling p).flatMap Token.segments = p := by
  induction p using spelling.induct with
  | case1 => rfl
  | case2 name n rest ih => simp [spelling, Token.segments, indexOf_digitsOf, ih]
  | case3 name rest h ih =>
    simp [spelling_property h, Token.segments, ih]
  | case4 n rest ih => simp [spelling, Token.segments, indexOf_digitsOf, ih]

theorem spelling_ne_nil (h : p ≠ []) : spelling p ≠ [] := by
  intro hnil
  have hp := flatMap_segments_spelling p
  rw [hnil] at hp
  exact h hp.symm

theorem toList_text_index (n : UInt64) :
    (Segment.index n).text.toList = '[' :: (digitsOf n ++ [']']) := by
  simp [Segment.text, digitsOf]

/-- A point stands in front of what begins another token. -/
theorem append_textFrom (hpoint : ∀ next ∈ rest.head?, Segment.separator (some segment) next = ".")
    (ih : rest.text.toList = ['.'].intercalate ((spelling rest).map Token.text))
    (cs : List Char) : cs ++ (textFrom (some segment) rest).toList =
      ['.'].intercalate (cs :: (spelling rest).map Token.text) := by
  cases rest with
  | nil => simp [textFrom, spelling]
  | cons next rest =>
    have hne : (spelling (next :: rest)).map Token.text ≠ [] := by
      simpa using spelling_ne_nil (List.cons_ne_nil next rest)
    have htext : textFrom (some segment) (next :: rest) = "." ++ text (next :: rest) := by
      rw [textFrom, hpoint next rfl, String.append_assoc, text, textFrom, Segment.separator,
        String.empty_append]
    rw [List.intercalate_cons_of_ne_nil hne, ← ih, htext]
    simp

/-- **A path is written as its tokens** with points between them. -/
theorem toList_text (p : Path) :
    p.text.toList = ['.'].intercalate ((spelling p).map Token.text) := by
  induction p using spelling.induct with
  | case1 => rfl
  | case2 name n rest ih =>
    have htext : text (.property name :: .index n :: rest) =
        name ++ ((Segment.index n).text ++ textFrom (some (.index n)) rest) := by
      simp [text, textFrom, Segment.separator, Segment.text, String.append_assoc]
    have hpoint : ∀ next ∈ rest.head?, Segment.separator (some (.index n)) next = "." := by
      intro next _
      rfl
    rw [htext, spelling, List.map_cons, ← append_textFrom hpoint ih]
    simp [toList_text_index, Token.text]
  | case3 name rest h ih =>
    have htext : text (.property name :: rest) = name ++ textFrom (some (.property name)) rest := by
      simp [text, textFrom, Segment.separator, Segment.text]
    have hpoint : ∀ next ∈ rest.head?, Segment.separator (some (.property name)) next = "." := by
      intro next hnext
      cases next with
      | property other => rfl
      | index n =>
        obtain ⟨tail, htail⟩ := List.head?_eq_some_iff.1 hnext
        exact absurd htail (h n tail)
    rw [htext, spelling_property h, List.map_cons, ← append_textFrom hpoint ih]
    simp [Token.text]
  | case4 n rest ih =>
    have htext : text (.index n :: rest) =
        (Segment.index n).text ++ textFrom (some (.index n)) rest := by
      simp [text, textFrom, Segment.separator]
    have hpoint : ∀ next ∈ rest.head?, Segment.separator (some (.index n)) next = "." := by
      intro next _
      rfl
    rw [htext, spelling, List.map_cons, ← append_textFrom hpoint ih]
    simp [toList_text_index, Token.text]

/-! ## Paths that can be written -/

/-- **Paths that have a written form of their own**: they have segments,
and each name in them has characters, none of which is a point or a
bracket. -/
structure IsWritable (p : Path) : Prop where
  ne_nil : p ≠ []
  names : ∀ name, Segment.property name ∈ p →
    name ≠ "" ∧ '.' ∉ name.toList ∧ '[' ∉ name.toList ∧ ']' ∉ name.toList

theorem isName_toList {name : String} : isName name.toList = true ↔
    name ≠ "" ∧ '.' ∉ name.toList ∧ '[' ∉ name.toList ∧ ']' ∉ name.toList := by
  rw [isName_iff, ne_eq, ne_eq, String.toList_eq_nil_iff]

theorem isValid_of_mem_spelling
    (h : ∀ name, Segment.property name ∈ p → isName name.toList = true)
    (ht : t ∈ spelling p) : t.isValid = true := by
  induction p using spelling.induct with
  | case1 => cases ht
  | case2 name n rest ih =>
    rw [spelling, List.mem_cons] at ht
    rcases ht with rfl | ht
    · rw [Token.isValid, h name List.mem_cons_self, isIndex_digitsOf]
      rfl
    · exact ih (fun other hother =>
        h other (List.mem_cons_of_mem _ (List.mem_cons_of_mem _ hother))) ht
  | case3 name rest hrest ih =>
    rw [spelling_property hrest, List.mem_cons] at ht
    rcases ht with rfl | ht
    · exact h name List.mem_cons_self
    · exact ih (fun other hother => h other (List.mem_cons_of_mem _ hother)) ht
  | case4 n rest ih =>
    rw [spelling, List.mem_cons] at ht
    rcases ht with rfl | ht
    · exact isIndex_digitsOf n
    · exact ih (fun other hother => h other (List.mem_cons_of_mem _ hother)) ht

/-! ## Tokens and texts -/

/-- A valid token without an opening bracket is a name. -/
theorem Token.exists_bracket (h : t.isValid = true) (hname : ∀ cs, t ≠ .name cs) :
    ∃ front digits, t.text = front ++ '[' :: (digits ++ [']']) ∧ '[' ∉ front ∧
      '[' ∉ digits ++ [']'] ∧ t = if front.isEmpty then .index digits else .nameIndex front digits := by
  cases t with
  | name cs => exact absurd rfl (hname cs)
  | nameIndex cs digits =>
    rw [isValid, Bool.and_eq_true] at h
    obtain ⟨hne, -, hopen, -⟩ := isName_iff.1 h.1
    refine ⟨cs, digits, rfl, hopen, by simp [(notMem_of_isIndex h.2).2.1], ?_⟩
    rw [if_neg (by simpa using hne)]
  | index digits =>
    exact ⟨[], digits, rfl, List.not_mem_nil, by simp [(notMem_of_isIndex h).2.1], rfl⟩

/-- **Valid tokens are told apart by their texts.** -/
theorem Token.text_inj (ht : t.isValid = true) (hu : u.isValid = true) :
    t.text = u.text ↔ t = u := by
  refine ⟨fun heq => ?_, fun heq => heq ▸ rfl⟩
  by_cases htn : ∃ cs, t = .name cs <;> by_cases hun : ∃ cs, u = .name cs
  · obtain ⟨cs, rfl⟩ := htn
    obtain ⟨ds, rfl⟩ := hun
    exact congrArg Token.name heq
  · obtain ⟨cs, rfl⟩ := htn
    obtain ⟨front, digits, htext, -⟩ := exists_bracket hu fun ds h => hun ⟨ds, h⟩
    have hopen : cs = front ++ '[' :: (digits ++ [']']) := heq.trans htext
    exact absurd (hopen ▸ by simp) (isName_iff.1 ht).2.2.1
  · obtain ⟨ds, rfl⟩ := hun
    obtain ⟨front, digits, htext, -⟩ := exists_bracket ht fun cs h => htn ⟨cs, h⟩
    have hopen : ds = front ++ '[' :: (digits ++ [']']) := heq.symm.trans htext
    exact absurd (hopen ▸ by simp) (isName_iff.1 hu).2.2.1
  · obtain ⟨front, digits, htext, hfront, hback, htoken⟩ :=
      exists_bracket ht fun cs h => htn ⟨cs, h⟩
    obtain ⟨front', digits', htext', -, -, htoken'⟩ :=
      exists_bracket hu fun ds h => hun ⟨ds, h⟩
    rw [htext, htext'] at heq
    obtain ⟨rfl, -, hdigits⟩ := (List.append_cons_inj_of_notMem hfront hback).1 heq
    rw [htoken, htoken', List.append_cancel_right hdigits]

theorem Token.map_text_inj (hts : ∀ t ∈ ts, t.isValid = true) (hus : ∀ u ∈ us, u.isValid = true) :
    ts.map text = us.map text ↔ ts = us := by
  refine ⟨fun heq => ?_, fun heq => heq ▸ rfl⟩
  induction ts generalizing us with
  | nil => exact (List.map_eq_nil_iff.1 heq.symm).symm
  | cons t ts ih =>
    obtain ⟨u, us, rfl, htext, hrest⟩ := List.map_eq_cons_iff.1 heq.symm
    obtain ⟨ht, hts⟩ := List.forall_mem_cons.1 hts
    obtain ⟨hu, hus⟩ := List.forall_mem_cons.1 hus
    rw [(text_inj hu ht).1 htext, ih hts hus hrest.symm]

/-- **What a text spells**: valid tokens whose texts are its parts between
the points. -/
def Spells (ts : List Token) (s : String) : Prop :=
  (∀ t ∈ ts, t.isValid = true) ∧ ts.map Token.text = tokens s.toList

/-- A path is read where the text spells tokens, and as their segments. -/
theorem parse_eq_ok_iff_spells :
    parse s = .ok p ↔ ∃ ts, Spells ts s ∧ ts.flatMap Token.segments = p := by
  rw [parse_eq_ok, readTokens_eq_ok fun cs hcs => notMem_of_mem_tokens hcs]
  simp only [Spells, and_assoc]

/-- What is read can be written. -/
theorem isWritable_of_parse (h : parse s = .ok p) : IsWritable p := by
  obtain ⟨ts, ⟨hts, htexts⟩, rfl⟩ := parse_eq_ok_iff_spells.1 h
  constructor
  · intro hnil
    cases ts with
    | nil => exact tokens_ne_nil htexts.symm
    | cons t ts => cases t <;> simp [Token.segments] at hnil
  · intro name hname
    obtain ⟨t, ht, hsegment⟩ := List.mem_flatMap.1 hname
    have hvalid := hts t ht
    rw [← isName_toList]
    cases t with
    | name cs =>
      obtain rfl : name = String.ofList cs := by simpa [Token.segments] using hsegment
      rwa [String.toList_ofList]
    | nameIndex cs digits =>
      obtain rfl : name = String.ofList cs := by simpa [Token.segments, indexOf] using hsegment
      rw [Token.isValid, Bool.and_eq_true] at hvalid
      rw [String.toList_ofList]
      exact hvalid.1
    | index digits => simp [Token.segments, indexOf] at hsegment

/-- The written form of a path spells its tokens. -/
theorem IsWritable.spells (h : IsWritable p) : Spells (spelling p) p.text := by
  have hvalid : ∀ t ∈ spelling p, t.isValid = true := fun t ht =>
    isValid_of_mem_spelling (fun name hname => isName_toList.2 (h.names name hname)) ht
  refine ⟨hvalid, ?_⟩
  have hpoint : ∀ cs ∈ (spelling p).map Token.text, '.' ∉ cs := by
    intro cs hcs
    obtain ⟨t, ht, rfl⟩ := List.mem_map.1 hcs
    exact Token.notMem_text (hvalid t ht)
  rw [toList_text, tokens_intercalate (by simpa using spelling_ne_nil h.ne_nil) hpoint]

theorem IsWritable.parse_text (h : IsWritable p) : parse p.text = .ok p :=
  parse_eq_ok_iff_spells.2 ⟨spelling p, h.spells, flatMap_segments_spelling p⟩

/-! ## Texts that are written forms -/

/-- The digits of a token. -/
def Token.digits? : Token → Option (List Char)
  | .name _ => none
  | .nameIndex _ digits => some digits
  | .index digits => some digits

/-- Whether a token is an index on its own right behind a name: the point
between them is left out where the path is written. -/
def Token.joins : Token → Token → Bool
  | .name _, .index _ => true
  | _, _ => false

/-- **The tokens of a text are those that its path is written with**, if
no index has a zero to spare and none stands on its own behind a name. -/
theorem spelling_flatMap_segments (hts : ∀ t ∈ ts, t.isValid = true) :
    spelling (ts.flatMap Token.segments) = ts ↔
      (∀ t ∈ ts, ∀ digits ∈ t.digits?, hasSpareZero digits = false) ∧
        ts.IsChain fun t u => t.joins u = false := by
  induction ts with
  | nil => simp [spelling]
  | cons t ts ih =>
    obtain ⟨ht, hts⟩ := List.forall_mem_cons.1 hts
    have ih := ih hts
    rw [List.flatMap_cons, List.forall_mem_cons]
    cases t with
    | nameIndex cs digits =>
      rw [Token.isValid, Bool.and_eq_true] at ht
      have hchain : (Token.nameIndex cs digits :: ts).IsChain (fun t u => t.joins u = false) ↔
          ts.IsChain fun t u => t.joins u = false := by
        rw [List.isChain_cons]
        exact and_iff_right fun u _ => rfl
      rw [hchain, Token.segments, List.cons_append, List.cons_append, List.nil_append, indexOf,
        spelling, List.cons.injEq, Token.nameIndex.injEq, String.toList_ofList,
        digitsOf_eq_iff ht.2, ih]
      simp [Token.digits?, and_assoc]
    | index digits =>
      have hchain : (Token.index digits :: ts).IsChain (fun t u => t.joins u = false) ↔
          ts.IsChain fun t u => t.joins u = false := by
        rw [List.isChain_cons]
        exact and_iff_right fun u _ => rfl
      rw [hchain, Token.segments, List.cons_append, List.nil_append, indexOf, spelling,
        List.cons.injEq, Token.index.injEq, digitsOf_eq_iff ht, ih]
      simp [Token.digits?, and_assoc]
    | name cs =>
      by_cases hjoins : ∃ digits us, ts = .index digits :: us
      · -- the index goes into the token of the name
        obtain ⟨digits, us, rfl⟩ := hjoins
        constructor
        · intro heq
          simp [Token.segments, indexOf, spelling] at heq
        · rintro ⟨-, hchain⟩
          cases (List.isChain_cons_cons.1 hchain).1
      · have hrest : ∀ n tail, ts.flatMap Token.segments ≠ .index n :: tail := by
          intro n tail heq
          cases ts with
          | nil => cases heq
          | cons u us =>
            cases u with
            | name | nameIndex => cases heq
            | index digits => exact hjoins ⟨digits, us, rfl⟩
        have hchain : (Token.name cs :: ts).IsChain (fun t u => t.joins u = false) ↔
            ts.IsChain fun t u => t.joins u = false := by
          rw [List.isChain_cons]
          refine and_iff_right fun u hu => ?_
          obtain ⟨us, rfl⟩ := List.head?_eq_some_iff.1 hu
          cases u with
          | name | nameIndex => rfl
          | index digits => exact absurd ⟨digits, us, rfl⟩ hjoins
        rw [hchain, Token.segments, List.singleton_append, spelling_property hrest,
          List.cons.injEq, Token.name.injEq, String.toList_ofList, ih]
        simp [Token.digits?]

/-- **A text is the written form of its path** exactly where no index in
it has a zero to spare and none stands on its own behind a name. -/
theorem Spells.text_eq_iff (h : Spells ts s) :
    (text (ts.flatMap Token.segments)) = s ↔
      (∀ t ∈ ts, ∀ digits ∈ t.digits?, hasSpareZero digits = false) ∧
        ts.IsChain fun t u => t.joins u = false := by
  have hwritable := isWritable_of_parse (parse_eq_ok_iff_spells.2 ⟨ts, h, rfl⟩)
  obtain ⟨hts, htexts⟩ := h
  rw [← spelling_flatMap_segments hts]
  constructor
  · rintro rfl
    exact (Token.map_text_inj hwritable.spells.1 hts).1 (hwritable.spells.2.trans htexts.symm)
  · intro heq
    rw [← String.toList_inj, toList_text, heq, htexts, intercalate_tokens]

/-- **Reading undoes writing, and writing undoes reading up to the
spelling.** The written form of a path is read as the path just if the
path has segments and every name in it has characters, none of them a
point or a bracket. Every path that was read is of this kind, so written
and read again it has the same written form. And it is written as it was
read just if no index in the text has a zero to spare and none stands on
its own right behind a token that is only a name. -/
theorem parse_text_iff :
    (∀ p : Path, parse p.text = .ok p ↔ IsWritable p) ∧
    ∀ (s : String) (p : Path), parse s = .ok p →
      IsWritable p ∧
      (∃ q, parse p.text = .ok q ∧ q.text = p.text) ∧
      (∃ ts, Spells ts s) ∧
      ∀ ts, Spells ts s → (p.text = s ↔
        (∀ t ∈ ts, ∀ digits ∈ t.digits?, hasSpareZero digits = false) ∧
          ts.IsChain fun t u => t.joins u = false) := by
  constructor
  · exact fun p => ⟨isWritable_of_parse, IsWritable.parse_text⟩
  · intro s p h
    have hwritable := isWritable_of_parse h
    obtain ⟨ts, hts, rfl⟩ := parse_eq_ok_iff_spells.1 h
    refine ⟨hwritable, ⟨_, hwritable.parse_text, rfl⟩, ⟨ts, hts⟩, fun us hus => ?_⟩
    obtain rfl : us = ts := (Token.map_text_inj hus.1 hts.1).1 (hus.2.trans hts.2.symm)
    exact hus.text_eq_iff

/-- An index on its own behind a name, and with zeros to spare. -/
theorem parse_text_of_loose_index :
    ∃ p ts, parse "a.[007].b[1]" = .ok p ∧ Spells ts "a.[007].b[1]" ∧ IsWritable p ∧
      (∃ q, parse p.text = .ok q ∧ q.text = p.text) ∧ p.text ≠ "a.[007].b[1]" := by
  have hparse : parse "a.[007].b[1]" =
      .ok [.property "a", .index 7, .property "b", .index 1] := by
    decide +kernel
  have hspells : Spells [.name ['a'], .index ['0', '0', '7'], .nameIndex ['b'] ['1']]
      "a.[007].b[1]" := by
    unfold Spells
    decide +kernel
  obtain ⟨hwritable, hagain, -, hiff⟩ := parse_text_iff.2 _ _ hparse
  refine ⟨_, _, hparse, hspells, hwritable, hagain, fun heq => ?_⟩
  have hspare := ((hiff _ hspells).1 heq).1 (.index ['0', '0', '7']) (by decide) _ rfl
  exact absurd hspare (by decide)

end ConfigPatch.Path
