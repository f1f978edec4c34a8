import ConfigPatch.Edit.Batch
import ConfigPatch.Proofs.Edit.Inverse
import ConfigPatch.Proofs.Json.Splice

/-!
# Files of JSON text

A file that exports a mapping as its compact JSON text is edited like the
mapping itself. Locating a path is reading at it, giving the literal at a
path a value is storing the value there, and a batch goes as far as the
paths lead somewhere, one value after the other.
-/

namespace ConfigPatch

open Lexical Literal

/-! ## Paths and text -/

theorem Path.ne_nil_of_readToken {token : List Char} {p : Path}
    (h : Path.readToken token = .ok p) : p ≠ [] := by
  unfold Path.readToken at h
  split at h
  · cases h
  · split at h
    · split at h
      · cases h
      · cases h
        exact List.cons_ne_nil _ _
    · unfold Path.readIndexed at h
      split at h
      · cases h
      · dsimp only at h
        split at h
        · cases h
        · cases hindex : Path.readIndex _ with
          | error fault =>
            rw [hindex] at h
            cases h
          | ok n =>
            rw [hindex] at h
            cases h
            split <;> exact List.cons_ne_nil _ _

/-- A path that can be read has a segment. -/
theorem Path.ne_nil_of_parse {path : String} {p : Path} (h : Path.parse path = .ok p) :
    p ≠ [] := by
  unfold Path.parse at h
  dsimp only at h
  split at h
  · cases h
  · cases htokens : Path.tokens path.toList with
    | nil =>
      unfold Path.tokens at htokens
      split at htokens
      · cases htokens
      · split at htokens
        · cases htokens
        · split at htokens <;> cases htokens
    | cons token rest =>
      rw [htokens, Path.readTokens] at h
      cases htoken : Path.readToken token with
      | error fault =>
        rw [htoken] at h
        cases h
      | ok segments =>
        rw [htoken] at h
        cases hrest : Path.readTokens rest with
        | error fault =>
          rw [hrest] at h
          cases h
        | ok more =>
          rw [hrest] at h
          cases h
          have hne := Path.ne_nil_of_readToken htoken
          simp [hne]

/-- The forms of a file that exports a value. -/
structure Form where
  convention : Convention
  wrapped : Bool

namespace Form

/-- What stands before the value. -/
def front (form : Form) : List Char :=
  Source.words form.convention ++ if form.wrapped then "defineConfig(".toList else []

/-- What stands after the value. -/
def back (form : Form) : List Char := if form.wrapped then [')'] else []

/-- **The file that exports a value** in its compact JSON text. -/
def file (form : Form) (c : Value) : String :=
  String.ofList (form.front ++ (Json.text c ++ form.back))

/-- The file of a mapping, with the literal of its JSON text. -/
def source (form : Form) (entries : Entries) : Source where
  convention := form.convention
  wrapped := form.wrapped
  lead := []
  entries := Json.literalEntries entries
  close := none
  trail := []

variable (form : Form) {entries : Entries} {p : Path} {w : Value}

theorem header_source : (form.source entries).header {} = form.front := by
  rfl

theorem text_source : (form.source entries).text {} = form.file (.object entries) := by
  have hroot : Lexeme.text (form.source entries).root.lexemes = Json.text (.object entries) :=
    Json.text_literal (.object entries)
  have hback : Lexeme.text (if form.wrapped then [Lexeme.closing .round] else []) = form.back := by
    rw [back]
    split <;> rfl
  rw [Source.text, header_source, file, Source.body, Lexeme.text_append, Lexeme.text_append,
    Lexeme.text_append, hroot]
  change String.ofList (form.front ++ ([] ++ (Json.text (.object entries) ++ ([] ++
    Lexeme.text (if form.wrapped then [Lexeme.closing .round] else []))))) = _
  rw [hback, List.nil_append, List.nil_append]

theorem isWellFormed_source (entries : Entries) : (form.source entries).isWellFormed {} = true := by
  have hroot : (form.source entries).root.isWellFormed = true :=
    Json.isWellFormed_literal (.object entries)
  have hname : Source.isFunctionName "defineConfig".toList = true := by decide +kernel
  simp only [Source.isWellFormed, hroot, Bool.and_true, Bool.and_eq_true, Bool.or_eq_true]
  exact ⟨rfl, .inr hname⟩

/-! ## Locating is reading -/

/-- **A path that leads somewhere in a mapping** is found in its file, at
the literal of what is read there. -/
theorem exists_span (hd : (Value.object entries).isDistinct = true) (hp : p ≠ [])
    (hplain : ∀ segment ∈ p, Json.isPlain segment = true)
    (h : (Value.object entries).get p = .ok w) :
    ∃ span before after, find {} (form.file (.object entries)) p = .ok span ∧
      span.start = (Text.utf8 (form.front ++ before)).length ∧
      span.stop = span.start + (Text.utf8 (Json.text w)).length ∧
      Json.Around p (.object entries) w before after := by
  have htarget : (form.source entries).target {} =
      ⟨(Text.utf8 form.front).length, some (Json.literal (.object entries))⟩ := by
    rw [Source.target, header_source]
    rfl
  obtain ⟨t, before, after, hwalk, hnode, hstart, haround⟩ :=
    Json.walk_literal hplain (congrArg Target.node htarget) hd h
  have hlexemes : Lexeme.width t.lexemes = (Text.utf8 (Json.text w)).length := by
    rw [Target.lexemes, hnode, ← Json.text_literal]
    rfl
  refine ⟨t.span, before, after, ?_, ?_, ?_, haround⟩
  · have hfind := Source.find_eq (form.isWellFormed_source entries) hp
    rw [text_source, Source.locate?, hwalk] at hfind
    exact hfind
  · rw [Target.span, hstart, htarget, Text.utf8_append, List.length_append]
  · rw [Target.span, hlexemes]

/-- A path that leads nowhere in a mapping is not found in its file. -/
theorem find_file_eq_error (hd : (Value.object entries).isDistinct = true) (hp : p ≠ [])
    (hplain : ∀ segment ∈ p, Json.isPlain segment = true) {cause : Error}
    (h : (Value.object entries).get p = .error cause) :
    find {} (form.file (.object entries)) p = .error (.refused (.pathNotFound p)) := by
  have hwalk : (form.source entries).locate? {} p = none :=
    Json.walk_literal_eq_none hplain rfl hd h
  have hfind := Source.find_eq (form.isWellFormed_source entries) hp
  rw [text_source, hwalk] at hfind
  exact hfind

/-- The text of a literal can be cut out of the file. -/
theorem slice?_file {c : Value} {span : Span} {before after : List Char}
    (hstart : span.start = (Text.utf8 (form.front ++ before)).length)
    (hstop : span.stop = span.start + (Text.utf8 (Json.text w)).length)
    (haround : Json.Around p c w before after) :
    Text.slice? (form.file c) span.start span.stop = some (String.ofList (Json.text w)) := by
  refine Text.slice?_eq_some_iff.2 ⟨form.front ++ before, after ++ form.back, ?_, hstart.symm, ?_⟩
  · rw [file, haround.text_eq]
    simp
  · rw [hstop, Text.bytes, String.toList_ofList]

/-! ## Writing is storing -/

/-- **The JSON text of a value in the place of a literal** gives the file
of the mapping that has the value there. -/
theorem exists_edit {x : Value} {new : String} (hd : (Value.object entries).isDistinct = true)
    (hp : p ≠ []) (hplain : ∀ segment ∈ p, Json.isPlain segment = true)
    (h : (Value.object entries).get p = .ok w) (hnew : new.toList = Json.text x) :
    ∃ edit next, Edit.setLiteral {} (form.file (.object entries)) p new = .ok edit ∧
      edit.applyTo? (form.file (.object entries)) = some (form.file next) ∧
      Value.setFrom none p x (.object entries) = .ok next ∧
      (x.isDistinct = true → next.isDistinct = true) := by
  obtain ⟨span, before, after, hfind, hstart, hstop, haround⟩ :=
    form.exists_span hd hp hplain h
  obtain ⟨next, hset, htext, hdistinct⟩ := haround.set none x
  have hslice := form.slice?_file hstart hstop haround
  refine ⟨⟨.path p.text, span, String.ofList (Json.text w), new⟩, next, ?_, ?_, hset, hdistinct⟩
  · rw [Edit.setLiteral, hfind, Failure.ok_bind, hslice]
    rfl
  · have hfile : (form.file (.object entries)).toList =
        (form.front ++ before) ++ (String.ofList (Json.text w)).toList ++ (after ++ form.back) := by
      rw [file, haround.text_eq]
      simp
    have hend : span.start + (Text.bytes (String.ofList (Json.text w))).length = span.stop := by
      rw [hstop, Text.bytes, String.toList_ofList]
    calc Edit.applyTo? ⟨.path p.text, span, String.ofList (Json.text w), new⟩ _
        = some (String.ofList ((form.front ++ before) ++ new.toList ++ (after ++ form.back))) :=
          Edit.applyTo?_of_parts hfile hstart.symm hend
      _ = some (form.file next) := by simp [file, htext, hnew]

/-- A mapping stays one when a value is stored below it. -/
theorem exists_entries {x next : Value} (hp : p ≠ [])
    (h : Value.setFrom none p x (.object entries) = .ok next) :
    ∃ later, next = .object later := by
  cases p with
  | nil => exact absurd rfl hp
  | cons segment rest =>
    cases segment with
    | property name =>
      simp only [Value.setFrom] at h
      cases hinner : Value.setFrom (some (.property name)) rest x
          (Value.slotOr (rest.head?.elim .null Value.freshFor) (Entries.find? name entries)) with
      | error cause =>
        rw [hinner] at h
        cases h
      | ok inner =>
        rw [hinner] at h
        cases h
        exact ⟨_, rfl⟩
    | index n => cases h

/-- **Giving the literal at a path a value** that is not text makes the
file of the mapping in which the value is stored. -/
theorem withValue_file {path : String} {v : Value}
    (hd : (Value.object entries).isDistinct = true) (hpath : Path.parse path = .ok p)
    (hplain : ∀ segment ∈ p, Json.isPlain segment = true)
    (h : (Value.object entries).get p = .ok w) (hnull : v.isNull = false)
    (hstring : ∀ s, v ≠ .string s) :
    ∃ next, Value.set p v (.object entries) = .ok next ∧
      Edit.withValue {} (form.file (.object entries)) path v = .ok (form.file next) := by
  have hp := Path.ne_nil_of_parse hpath
  have hstored : v.stored = v := by
    cases v with
    | string s => exact absurd rfl (hstring s)
    | null | bool | number | array | object => rfl
  have hsource : Literal.ofValue .double v = String.ofList (Json.text v) := by
    cases v with
    | string s => exact absurd rfl (hstring s)
    | null | bool | number | array | object => rfl
  have hnew : (Literal.ofValue .double v).toList = Json.text v := by
    rw [hsource, String.toList_ofList]
  obtain ⟨edit, next, hedit, happly, hset, -⟩ :=
    form.exists_edit hd hp hplain h hnew
  refine ⟨next, ?_, ?_⟩
  · rw [Value.set_eq_setFrom rfl hnull hp, hstored, hset]
  · rw [Edit.withValue, hpath, Failure.ofExcept_ok, Failure.ok_bind, Edit.setValue]
    change Edit.setLiteral {} _ p (Literal.ofValue .double v) >>= _ = _
    rw [hedit, Failure.ok_bind, happly, Failure.ofCut_some]

end Form

/-! ## Batches of texts -/

/-- **A plain text for a path.** The characters of the text are the ones
that both kinds of string literals write alike. -/
structure Setting where
  path : String
  value : String
  steps : Path
  parsed : Path.parse path = .ok steps
  plain : ∀ segment ∈ steps, Json.isPlain segment = true
  isText : isSource value.toList = false
  printable : ∀ c ∈ value.toList, 0x20 ≤ c.toNat ∨ c = '\n' ∨ c = '\r'

namespace Setting

/-- The setting as a change of a file. -/
def change (setting : Setting) : Change := .setPath setting.path setting.value

/-- **Values that are set one after the other.** Where a path leads
nowhere, this ends at the position of the setting. -/
inductive Run : Nat → Value → List Setting → Value → Option (Nat × Error) → Prop
  | done {position : Nat} {c : Value} : Run position c [] c none
  | stop {position : Nat} {c : Value} {setting : Setting} {rest : List Setting} {cause : Error} :
      c.get setting.steps = .error cause →
      Run position c (setting :: rest) c (some (position, .pathNotFound setting.steps))
  | next {position : Nat} {c d e : Value} {setting : Setting} {rest : List Setting} {old : Value}
      {failure : Option (Nat × Error)} :
      c.get setting.steps = .ok old →
      Value.set setting.steps (.string setting.value) c = .ok d →
      Run (position + 1) d rest e failure →
      Run position c (setting :: rest) e failure

theorem escape_eq_charText {c : Char} (h : 0x20 ≤ c.toNat ∨ c = '\n' ∨ c = '\r') :
    Text.escape '"' c = Json.charText c := by
  rcases h with hle | rfl | rfl
  · by_cases hquote : c = '"'
    · subst hquote
      rfl
    · by_cases hbackslash : c = '\\'
      · subst hbackslash
        rfl
      · have hplain : Json.isPlainChar c = true := by
          simp [Json.isPlainChar, hquote, hbackslash, hle]
        have hline : c ≠ '\n' ∧ c ≠ '\r' := by
          constructor <;> (rintro rfl; exact absurd hle (by decide))
        rw [Json.charText_of_isPlainChar hplain, Text.escape, if_neg hbackslash, if_neg hline.1,
          if_neg hline.2, if_neg hquote]
  · rfl
  · rfl

/-- The string literal of the text is its JSON text. -/
theorem toList_ofText (setting : Setting) :
    (Literal.ofText .double setting.value).toList = Json.text (.string setting.value) := by
  have hchars : setting.value.toList.flatMap (Text.escape '"') =
      setting.value.toList.flatMap Json.charText :=
    congrArg List.flatten (List.map_congr_left fun c hc =>
      escape_eq_charText (setting.printable c hc))
  rw [Literal.ofText, setting.isText, if_neg Bool.false_ne_true, String.toList_ofList, Text.quoted,
    Json.text, Json.stringText]
  exact congrArg (fun cs => '"' :: (cs ++ ['"'])) hchars

/-- A text that is no source is stored as it is. -/
theorem stored_value (setting : Setting) :
    (Value.string setting.value).stored = .string setting.value := by
  have hsource := setting.isText
  have hopens : Value.opensContainer (Text.trim setting.value.toList) = false := by
    simp only [isSource, Bool.or_eq_false_iff] at hsource
    cases htrim : Text.trim setting.value.toList with
    | nil => rfl
    | cons c cs =>
      rw [htrim] at hsource
      simpa [Value.opensContainer] using And.intro hsource.1.1.1.2 hsource.1.1.2
  simp only [Value.stored, hopens, if_neg Bool.false_ne_true]

variable (form : Form) {entries : Entries} {setting : Setting}

/-- A setting whose path leads somewhere. -/
theorem exists_plan {w : Value} (hd : (Value.object entries).isDistinct = true)
    (h : (Value.object entries).get setting.steps = .ok w) :
    ∃ edit later, setting.change.plan {} (form.file (.object entries)) = .ok (some edit) ∧
      edit.applyTo? (form.file (.object entries)) = some (form.file (.object later)) ∧
      Value.set setting.steps (.string setting.value) (.object entries) = .ok (.object later) ∧
      (Value.object later).isDistinct = true := by
  have hp := Path.ne_nil_of_parse setting.parsed
  obtain ⟨edit, next, hedit, happly, hset, hdistinct⟩ :=
    form.exists_edit hd hp setting.plain h setting.toList_ofText
  obtain ⟨later, rfl⟩ := Form.exists_entries hp hset
  refine ⟨edit, later, ?_, happly, ?_, hdistinct rfl⟩
  · rw [change, Change.plan, setting.parsed, Failure.ofExcept_ok, Failure.ok_bind, Edit.setText]
    change Edit.setLiteral {} _ setting.steps (Literal.ofText .double setting.value) >>= _ = _
    rw [hedit]
    rfl
  · rw [Value.set_eq_setFrom rfl rfl hp, setting.stored_value, hset]

/-- A setting whose path leads nowhere is refused. -/
theorem plan_eq_error {cause : Error} (hd : (Value.object entries).isDistinct = true)
    (h : (Value.object entries).get setting.steps = .error cause) :
    setting.change.plan {} (form.file (.object entries)) =
      .error (.refused (.pathNotFound setting.steps)) := by
  have hfind := form.find_file_eq_error hd (Path.ne_nil_of_parse setting.parsed)
    setting.plain h
  rw [change, Change.plan, setting.parsed, Failure.ofExcept_ok, Failure.ok_bind, Edit.setText,
    Edit.setLiteral, hfind]
  rfl

/-- **The changes of a batch are the settings, one after the other**: it
ends with the file of the mapping that they end with, and after as many
edits as there were settings before that. -/
theorem exists_runFrom (hd : (Value.object entries).isDistinct = true) (position : Nat)
    (settings : List Setting) :
    ∃ c failure applied, Run position (.object entries) settings c failure ∧
      Batch.runFrom {} position (form.file (.object entries)) (settings.map change) =
        some ⟨form.file c, applied, failure⟩ ∧
      position + applied.length = (failure.map Prod.fst).getD (position + settings.length) := by
  induction settings generalizing position entries with
  | nil => exact ⟨_, none, [], .done, rfl, rfl⟩
  | cons setting rest ih =>
    cases hget : (Value.object entries).get setting.steps with
    | error cause =>
      refine ⟨_, _, [], .stop hget, ?_, rfl⟩
      rw [List.map_cons, Batch.runFrom, plan_eq_error form hd hget]
    | ok old =>
      obtain ⟨edit, later, hplan, happly, hset, hlater⟩ := exists_plan form hd hget
      obtain ⟨c, failure, applied, hrun, hbatch, hlength⟩ :=
        ih hlater (position + 1)
      refine ⟨c, failure, edit :: applied, .next hget hset hrun, ?_, ?_⟩
      · rw [List.map_cons, Batch.runFrom, hplan]
        simp only [happly, Option.bind_eq_bind, Option.bind_some, hbatch]
        rfl
      · rw [List.length_cons, List.length_cons]
        cases failure with
        | none =>
          simp only [Option.map_none, Option.getD_none] at hlength ⊢
          omega
        | some failed =>
          simp only [Option.map_some, Option.getD_some] at hlength ⊢
          omega

end Setting

/-- **The file of a mapping is edited like the mapping.** A path is found
where something is read at it, which is the literal found, and is not
found elsewhere; a value that is not text is stored in the file as in the
mapping; and a batch of texts ends with the file of the mapping that the
texts are stored in, one after the other. -/
theorem Form.file_refines (form : Form) {entries : Entries}
    (hd : (Value.object entries).isDistinct = true) :
    (∀ p : Path, p ≠ [] → (∀ segment ∈ p, Json.isPlain segment = true) →
      (∀ w, (Value.object entries).get p = .ok w →
        ∃ span, find {} (form.file (.object entries)) p = .ok span ∧
          Text.slice? (form.file (.object entries)) span.start span.stop =
            some (String.ofList (Json.text w))) ∧
      ∀ cause, (Value.object entries).get p = .error cause →
        find {} (form.file (.object entries)) p = .error (.refused (.pathNotFound p))) ∧
    (∀ (path : String) (p : Path) (v w : Value), Path.parse path = .ok p →
      (∀ segment ∈ p, Json.isPlain segment = true) → (Value.object entries).get p = .ok w →
      v.isNull = false → (∀ s, v ≠ .string s) →
      ∃ next, Value.set p v (.object entries) = .ok next ∧
        Edit.withValue {} (form.file (.object entries)) path v = .ok (form.file next)) ∧
    ∀ settings : List Setting, ∃ c failure applied,
      Setting.Run 0 (.object entries) settings c failure ∧
      Batch.run {} (form.file (.object entries)) (settings.map Setting.change) =
        some ⟨form.file c, applied, failure⟩ ∧
      applied.length = (failure.map Prod.fst).getD settings.length := by
  refine ⟨fun p hp hplain => ⟨fun w hw => ?_, fun cause => ?_⟩, ?_, fun settings => ?_⟩
  · obtain ⟨span, before, after, hfind, hstart, hstop, haround⟩ := form.exists_span hd hp hplain hw
    exact ⟨span, hfind, form.slice?_file hstart hstop haround⟩
  · exact form.find_file_eq_error hd hp hplain
  · intro path p v w hpath hplain hw hnull hstring
    exact form.withValue_file hd hpath hplain hw hnull hstring
  · obtain ⟨c, failure, applied, hrun, hbatch, hlength⟩ :=
      Setting.exists_runFrom form hd 0 settings
    rw [Nat.zero_add, Nat.zero_add] at hlength
    exact ⟨c, failure, applied, hrun, hbatch, hlength⟩

/-- A mapping with a sequence whose last element is quoted text. -/
def Form.sample : Entries :=
  [("a", .bool true), ("b", .array [.null, .object [("c \u00e9", .string "\"\n\"")]])]

/-- The characters of a text can be gone through one by one. -/
theorem Setting.printable_of_all {s : String}
    (h : s.toList.all (fun c => decide (0x20 ≤ c.toNat ∨ c = '\n' ∨ c = '\r')) = true) :
    ∀ c ∈ s.toList, 0x20 ≤ c.toNat ∨ c = '\n' ∨ c = '\r' := by
  intro c hc
  exact of_decide_eq_true (List.all_eq_true.1 h c hc)

/-- A text of two lines for the name that the sample has. -/
def Setting.twoLines : Setting where
  path := "a"
  value := "one\n\"two\""
  steps := [.property "a"]
  parsed := by decide +kernel
  plain := by decide +kernel
  isText := by decide +kernel
  printable := printable_of_all (by decide +kernel)

/-- A text for an element that the sample does not have. -/
def Setting.pastEnd : Setting where
  path := "b[2]"
  value := "three"
  steps := [.property "b", .index 2]
  parsed := by decide +kernel
  plain := by decide +kernel
  isText := by decide +kernel
  printable := printable_of_all (by decide +kernel)

/-- The text is found with its quotes and its backslashes. A sequence is
stored in the place of the null. Of two settings the first one is stored,
and the second one, which leads nowhere, ends the batch. -/
theorem Form.file_refines_sample :
    (Value.object Form.sample).isDistinct = true ∧
      (∃ span, find {} (Form.file ⟨.moduleExports, true⟩ (.object Form.sample))
          [.property "b", .index 1, .property "c \u00e9"] = .ok span ∧
        Text.slice? (Form.file ⟨.moduleExports, true⟩ (.object Form.sample)) span.start span.stop =
          some (String.ofList (Json.text (.string "\"\n\"")))) ∧
      (∃ next, Value.set [.property "b", .index 0] (.array [.bool false]) (.object Form.sample) =
          .ok next ∧
        Edit.withValue {} (Form.file ⟨.moduleExports, true⟩ (.object Form.sample)) "b[0]"
          (.array [.bool false]) = .ok (Form.file ⟨.moduleExports, true⟩ next)) ∧
      ∃ edit, Batch.run {} (Form.file ⟨.moduleExports, true⟩ (.object Form.sample))
          [Setting.twoLines.change, Setting.pastEnd.change] =
        some ⟨Form.file ⟨.moduleExports, true⟩
            (.object (Entries.insert "a" (.string "one\n\"two\"") Form.sample)),
          [edit], some (1, .pathNotFound [.property "b", .index 2])⟩ := by
  have hd : (Value.object Form.sample).isDistinct = true := by decide +kernel
  obtain ⟨hfind, hvalue, hbatch⟩ := Form.file_refines ⟨.moduleExports, true⟩ hd
  refine ⟨hd, (hfind _ (by decide) (by decide +kernel)).1 _ rfl, ?_, ?_⟩
  · exact hvalue _ _ _ _ (by decide +kernel) (by decide +kernel) rfl rfl fun s h => nomatch h
  · obtain ⟨c, failure, applied, hrun, hresult, hlength⟩ :=
      hbatch [Setting.twoLines, Setting.pastEnd]
    cases hrun with
    | stop hget => cases hget
    | next hget hset hrest =>
      cases hset
      cases hrest with
      | next hget => cases hget
      | stop hget =>
        obtain ⟨edit, rfl⟩ := List.length_eq_one_iff.1 hlength
        exact ⟨edit, hresult⟩

end ConfigPatch
