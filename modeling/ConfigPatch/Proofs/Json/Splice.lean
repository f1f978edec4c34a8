import ConfigPatch.Proofs.Json.Literal
import ConfigPatch.Proofs.Value.Step

/-!
# Paths in a value and in its text

A path leads to the same place in a value and in the literal of its JSON
text: to the literal of what the value has there, or to nothing in both.
Storing a value at the path changes that part of the text and no other.
-/

namespace ConfigPatch

open Lexical Literal

/-! ## Values that mappings can hold -/

mutual

/-- **Whether the names of each mapping differ**, as the keys of a map
do. -/
def Value.isDistinct : Value → Bool
  | .array items => itemsDistinct items
  | .object entries => decide (Entries.names entries).Nodup && entriesDistinct entries
  | _ => true

/-- The same for the elements of a sequence. -/
def itemsDistinct : List Value → Bool
  | [] => true
  | item :: rest => item.isDistinct && itemsDistinct rest

/-- The same for the values of a mapping. -/
def entriesDistinct : List (String × Value) → Bool
  | [] => true
  | (_, value) :: rest => value.isDistinct && entriesDistinct rest

end

variable {entries : Entries} {items : List Value} {name : String} {v w x : Value}

theorem isDistinct_of_getElem? {n : Nat} (h : itemsDistinct items = true)
    (hw : items[n]? = some w) : w.isDistinct = true := by
  induction items generalizing n with
  | nil => cases hw
  | cons item rest ih =>
    simp only [itemsDistinct, Bool.and_eq_true] at h
    cases n with
    | zero =>
      cases hw
      exact h.1
    | succ n => exact ih h.2 hw

theorem itemsDistinct_set {n : Nat} (h : itemsDistinct items = true)
    (hx : x.isDistinct = true) : itemsDistinct (items.set n x) = true := by
  induction items generalizing n with
  | nil => exact h
  | cons item rest ih =>
    simp only [itemsDistinct, Bool.and_eq_true] at h
    cases n with
    | zero => simp [itemsDistinct, hx, h.2]
    | succ n => simp [itemsDistinct, h.1, ih h.2]

theorem isDistinct_of_find? (h : entriesDistinct entries = true)
    (hw : Entries.find? name entries = some w) : w.isDistinct = true := by
  induction entries with
  | nil => cases hw
  | cons entry rest ih =>
    obtain ⟨key, value⟩ := entry
    simp only [entriesDistinct, Bool.and_eq_true] at h
    rw [Entries.find?] at hw
    split at hw
    · cases hw
      exact h.1
    · exact ih h.2 hw

theorem entriesDistinct_insert (h : entriesDistinct entries = true)
    (hx : x.isDistinct = true) : entriesDistinct (Entries.insert name x entries) = true := by
  induction entries with
  | nil => simp [Entries.insert, entriesDistinct, hx]
  | cons entry rest ih =>
    obtain ⟨key, value⟩ := entry
    simp only [entriesDistinct, Bool.and_eq_true] at h
    rw [Entries.insert]
    split
    · simp [entriesDistinct, hx, h.2]
    · simp [entriesDistinct, h.1, ih h.2]

/-- A name that is there stays where it is. -/
theorem names_insert (h : Entries.find? name entries = some w) :
    Entries.names (Entries.insert name x entries) = Entries.names entries := by
  rw [Entries.names_insert, if_pos (Entries.mem_names_iff.2 ⟨w, h⟩)]

/-! ## Names in JSON text -/

namespace Json

/-- Whether a segment is written in JSON as it is. -/
def isPlain : Segment → Bool
  | .property name => name.toList.all isPlainChar
  | .index _ => true

/-- What is escaped begins with a backslash. -/
theorem charText_eq_or (c : Char) : charText c = [c] ∨ ∃ cs, charText c = '\\' :: cs := by
  unfold charText
  repeat' split
  all_goals first
    | exact .inr ⟨_, rfl⟩
    | exact .inl rfl

/-- **A plain name is the JSON text of itself only.** -/
theorem ofList_inside_eq_iff {key : String} (hname : name.toList.all isPlainChar = true) :
    String.ofList (inside key) = name ↔ key = name := by
  have hplain (cs ds : List Char) (hds : ∀ c ∈ ds, isPlainChar c = true) :
      cs.flatMap charText = ds ↔ cs = ds := by
    induction cs generalizing ds with
    | nil => simp
    | cons c cs ih =>
      rw [List.flatMap_cons]
      rcases charText_eq_or c with hc | ⟨rest, hc⟩
      · rw [hc, List.singleton_append]
        cases ds with
        | nil => simp
        | cons d ds => simp [ih ds fun e he => hds e (List.mem_cons_of_mem _ he)]
      · rw [hc, List.cons_append]
        constructor
        · rintro rfl
          exact absurd (hds '\\' List.mem_cons_self) (by decide)
        · rintro rfl
          have hself := charText_of_isPlainChar (hds c List.mem_cons_self)
          rw [hself] at hc
          cases hc
          exact absurd (hds '\\' List.mem_cons_self) (by decide)
  have hiff := hplain key.toList name.toList (List.all_eq_true.1 hname)
  rw [← String.toList_inj, String.toList_ofList, inside, hiff, String.toList_inj]

/-! ## One step -/

theorem entriesText_cons {key : String} {rest : List (String × Value)} :
    entriesText ((key, v) :: rest) =
      stringText key ++ ':' :: (text v ++ if rest.isEmpty then [] else ',' :: entriesText rest) := by
  cases rest with
  | nil => simp [entriesText]
  | cons next rest => simp [entriesText]

theorem itemsText_cons {rest : List Value} :
    itemsText (v :: rest) = text v ++ if rest.isEmpty then [] else ',' :: itemsText rest := by
  cases rest with
  | nil => simp [itemsText]
  | cons next rest => simp [itemsText]

theorem insert_ne_nil : Entries.insert name x entries ≠ [] := by
  cases entries with
  | nil => exact List.cons_ne_nil _ _
  | cons entry rest =>
    rw [Entries.insert]
    split <;> exact List.cons_ne_nil _ _

/-- Entries with a name more in front. -/
theorem members_literalEntries_cons {key : String} {offset : Nat} :
    members offset (literalEntries ((key, v) :: entries)) =
      (String.ofList (inside key),
        ⟨offset + (Text.utf8 (stringText key ++ [':'])).length, some (literal v)⟩) ::
        members (offset + (Text.utf8 (stringText key ++ ':' :: text v)).length + 1)
          (literalEntries entries) := by
  have hwidth (ls : List Lexeme) : Lexeme.width ls = (Text.utf8 (Lexeme.text ls)).length := rfl
  simp [members, literalEntries, cores, Item.member?, Slot.map, Slot.lexemes, Item.lexemes, hwidth,
    text_literal, Key.lexeme, Key.name, Lexeme.chars, stringText, inside,
    Quotes.char, Nat.add_assoc]

theorem members_eq_nil (hname : name.toList.all isPlainChar = true) (offset : Nat)
    (h : Entries.find? name entries = none) :
    (members offset (literalEntries entries)).filter (·.1 == name) = [] := by
  induction entries generalizing offset with
  | nil => rfl
  | cons entry rest ih =>
    obtain ⟨key, value⟩ := entry
    rw [Entries.find?] at h
    split at h
    · cases h
    · rename_i hkey
      have hne : (String.ofList (inside key) == name) = false := by
        simpa [ofList_inside_eq_iff hname] using hkey
      rw [members_literalEntries_cons, List.filter_cons_of_neg (by simp [hne])]
      exact ih _ h

theorem find?_eq_none_of_notMem (h : name ∉ Entries.names entries) :
    Entries.find? name entries = none := by
  induction entries with
  | nil => rfl
  | cons entry rest ih =>
    obtain ⟨key, value⟩ := entry
    simp only [Entries.names, List.map_cons, List.mem_cons, not_or] at h
    rw [Entries.find?, if_neg (Ne.symm h.1)]
    exact ih h.2

/-- **A name that is there** leads to its value, and the text around that
stays when another value takes its place. -/
theorem exists_member (hname : name.toList.all isPlainChar = true)
    (hd : (Entries.names entries).Nodup) (offset : Nat)
    (h : Entries.find? name entries = some w) :
    ∃ t A B, ((members offset (literalEntries entries)).filter (·.1 == name)).getLast? =
        some (name, t) ∧
      t.node = some (literal w) ∧ t.start = offset + (Text.utf8 A).length ∧
      entriesText entries = A ++ (text w ++ B) ∧
      ∀ x, entriesText (Entries.insert name x entries) = A ++ (text x ++ B) := by
  induction entries generalizing offset with
  | nil => cases h
  | cons entry rest ih =>
    obtain ⟨key, value⟩ := entry
    simp only [Entries.names, List.map_cons, List.nodup_cons] at hd
    rw [Entries.find?] at h
    rw [members_literalEntries_cons]
    split at h
    · rename_i hkey
      cases h
      subst hkey
      have hself : String.ofList (inside key) = key := (ofList_inside_eq_iff hname).2 rfl
      have hrest := members_eq_nil hname
        (offset + (Text.utf8 (stringText key ++ ':' :: text w)).length + 1)
        (find?_eq_none_of_notMem hd.1)
      refine ⟨⟨offset + (Text.utf8 (stringText key ++ [':'])).length, some (literal w)⟩,
        stringText key ++ [':'], if rest.isEmpty then [] else ',' :: entriesText rest, ?_,
        rfl, rfl, by rw [entriesText_cons]; simp, fun x => ?_⟩
      · rw [List.filter_cons_of_pos (by simp [hself]), hrest, List.getLast?_singleton, hself]
      · rw [Entries.insert, if_pos rfl, entriesText_cons]
        simp
    · rename_i hkey
      have hne : (String.ofList (inside key) == name) = false := by
        simpa [ofList_inside_eq_iff hname] using hkey
      obtain ⟨t, A, B, ht, hnode, hstart, htext, hinsert⟩ := ih hd.2
        (offset + (Text.utf8 (stringText key ++ ':' :: text value)).length + 1) h
      have hrest : rest.isEmpty = false := by
        cases rest with
        | nil => cases h
        | cons => rfl
      refine ⟨t, stringText key ++ ':' :: (text value ++ ',' :: A), B, ?_, hnode, ?_, ?_,
        fun x => ?_⟩
      · rw [List.filter_cons_of_neg (by simp [hne]), ht]
      · have hcomma : (String.utf8EncodeChar ',').length = 1 := rfl
        rw [hstart]
        simp only [Text.utf8_append, Text.utf8_cons, List.length_append]
        omega
      · rw [entriesText_cons, hrest, htext]
        simp
      · have hinserted : (Entries.insert name x rest).isEmpty = false :=
          List.isEmpty_eq_false_iff.2 insert_ne_nil
        rw [Entries.insert, if_neg hkey, entriesText_cons, hinserted, hinsert]
        simp

/-- Items with one more in front. -/
theorem places_literalItems_cons {offset : Nat} :
    places offset (literalItems (v :: items)) =
      ⟨offset, some (literal v)⟩ ::
        places (offset + (Text.utf8 (text v)).length + 1) (literalItems items) := by
  have hwidth : Lexeme.width (literal v).lexemes = (Text.utf8 (text v)).length := by
    rw [Lexeme.width, text_literal]
  simp [places, literalItems, cores, Slot.map, Slot.lexemes, placeLexemes, hwidth]

theorem getElem?_places_eq_none {n : Nat} (offset : Nat) (h : items[n]? = none) :
    (places offset (literalItems items))[n]? = none := by
  induction items generalizing offset n with
  | nil => rfl
  | cons item rest ih =>
    rw [places_literalItems_cons]
    cases n with
    | zero => cases h
    | succ n => exact ih _ h

/-- **An index that is there** leads to its element, and the text around
that stays when another value takes its place. -/
theorem exists_place {n : Nat} (offset : Nat) (h : items[n]? = some w) :
    ∃ t A B, (places offset (literalItems items))[n]? = some t ∧
      t.node = some (literal w) ∧ t.start = offset + (Text.utf8 A).length ∧
      itemsText items = A ++ (text w ++ B) ∧
      ∀ x, itemsText (items.set n x) = A ++ (text x ++ B) := by
  induction items generalizing offset n with
  | nil => cases h
  | cons item rest ih =>
    rw [places_literalItems_cons]
    cases n with
    | zero =>
      cases h
      refine ⟨⟨offset, some (literal w)⟩, [], if rest.isEmpty then [] else ',' :: itemsText rest,
        rfl, rfl, rfl, itemsText_cons, fun x => itemsText_cons⟩
    | succ n =>
      obtain ⟨t, A, B, ht, hnode, hstart, htext, hset⟩ :=
        ih (offset + (Text.utf8 (text item)).length + 1) h
      have hrest : rest.isEmpty = false := by
        cases rest with
        | nil => cases h
        | cons => rfl
      refine ⟨t, text item ++ ',' :: A, B, ht, hnode, ?_, ?_, fun x => ?_⟩
      · have hcomma : (String.utf8EncodeChar ',').length = 1 := rfl
        rw [hstart]
        simp only [Text.utf8_append, Text.utf8_cons, List.length_append]
        omega
      · rw [itemsText_cons, hrest, htext]
        simp
      · have hne : (rest.set n x).isEmpty = false := by
          rw [List.isEmpty_eq_false_iff] at hrest ⊢
          simpa using hrest
        rw [List.set_cons_succ, itemsText_cons, hne, hset]
        simp

end Json

/-- The names of each mapping differ after another value has come in the
place of one. -/
theorem Value.isDistinct_putChild {s : Segment} (hv : v.isDistinct = true)
    (hx : x.isDistinct = true) (h : v.below? s = some w) : (v.putChild s x).isDistinct = true := by
  rcases below?_eq_some.1 h with ⟨name, entries, rfl, rfl, hfind⟩ | ⟨n, items, rfl, rfl, -⟩
  · simp only [isDistinct, Bool.and_eq_true, decide_eq_true_eq] at hv
    have hnames : (Entries.names (Entries.insert name x entries)).Nodup := by
      rw [names_insert hfind]
      exact hv.1
    simp [putChild, isDistinct, hnames, entriesDistinct_insert hv.2 hx]
  · exact itemsDistinct_set hv hx

namespace Json

/-- **One step down a value** leads to the same place in its text. -/
theorem down_literal {t : Target} (ht : t.node = some (literal v)) (hv : v.isDistinct = true)
    (step : Step) (hstep : isPlain step.segment = true) (h : v.down step = .ok w) :
    w.isDistinct = true ∧ ∃ t' A B, t.down? step.segment = some t' ∧
      t'.node = some (literal w) ∧ t'.start = t.start + (Text.utf8 A).length ∧
      text v = A ++ (text w ++ B) ∧
      ∀ x, text (v.putChild step.segment x) = A ++ (text x ++ B) := by
  obtain ⟨previous, segment, isLast⟩ := step
  obtain ⟨start, node⟩ := t
  cases ht
  have hone (c : Char) (hc : c = '[' ∨ c = '\x7b') : (String.utf8EncodeChar c).length = 1 := by
    rcases hc with rfl | rfl <;> rfl
  cases segment with
  | property name =>
    cases v with
    | null | bool | number | string | array => cases h
    | object entries =>
      simp only [Value.isDistinct, Bool.and_eq_true, decide_eq_true_eq] at hv
      simp only [Value.down] at h
      split at h
      · rename_i value hfind
        cases h
        obtain ⟨t, A, B, ht, hnode, hstart, htext, hinsert⟩ :=
          exists_member hstep hv.1 (start + 1) hfind
        refine ⟨isDistinct_of_find? hv.2 hfind, t, '\x7b' :: A, B ++ ['\x7d'], ?_, hnode, ?_, ?_,
          fun x => ?_⟩
        · rw [literal, Target.down?_object, ht]
          rfl
        · rw [hstart, Text.utf8_cons, List.length_append, hone _ (.inr rfl)]
          dsimp only
          omega
        · simp [text, htext]
        · simp [Value.putChild, text, hinsert]
      · cases h
  | index n =>
    cases v with
    | null | bool | number | string | object => cases h
    | array items =>
      simp only [Value.down] at h
      split at h
      · rename_i value hget
        cases h
        obtain ⟨t, A, B, ht, hnode, hstart, htext, hset⟩ := exists_place (start + 1) hget
        refine ⟨isDistinct_of_getElem? hv hget, t, '[' :: A, B ++ [']'], ?_, hnode, ?_, ?_,
          fun x => ?_⟩
        · rw [literal, Target.down?_array, ht]
        · rw [hstart, Text.utf8_cons, List.length_append, hone _ (.inl rfl)]
          dsimp only
          omega
        · simp [text, htext]
        · simp [Value.putChild, text, hset]
      · cases h

/-- Where a value has nothing, its text has nothing. -/
theorem down?_literal_eq_none {t : Target} (ht : t.node = some (literal v)) (step : Step)
    (hstep : isPlain step.segment = true) {cause : Error} (h : v.down step = .error cause) :
    t.down? step.segment = none := by
  obtain ⟨previous, segment, isLast⟩ := step
  obtain ⟨start, node⟩ := t
  cases ht
  cases segment with
  | property name =>
    cases v with
    | bool b => cases b <;> rfl
    | null | number | string | array => rfl
    | object entries =>
      simp only [Value.down] at h
      split at h
      · cases h
      · rename_i hfind
        rw [literal, Target.down?_object, members_eq_nil hstep (start + 1) hfind]
        rfl
  | index n =>
    cases v with
    | bool b => cases b <;> rfl
    | null | number | string | object => rfl
    | array items =>
      simp only [Value.down] at h
      split at h
      · cases h
      · rename_i hget
        rw [literal, Target.down?_array, getElem?_places_eq_none (start + 1) hget]

/-! ## Whole paths -/

/-- **What stands around the value at a path**: in the text of the whole,
before and after, whatever value is stored there. -/
structure Around (p : Path) (v w : Value) (front back : List Char) : Prop where
  text_eq : text v = front ++ (text w ++ back)
  set : ∀ previous x, ∃ v', Value.setFrom previous p x v = .ok v' ∧
    text v' = front ++ (text x ++ back) ∧ (x.isDistinct = true → v'.isDistinct = true)

/-- **A path that leads somewhere in a value** leads to the same place in
its text. -/
theorem walk_literal {p : Path} {t : Target} {previous : Option Segment}
    (hp : ∀ segment ∈ p, isPlain segment = true) (ht : t.node = some (literal v))
    (hv : v.isDistinct = true)
    (h : (Path.stepsFrom previous p).foldlM Value.down v = .ok w) :
    ∃ t' front back, p.foldlM Target.down? t = some t' ∧ t'.node = some (literal w) ∧
      t'.start = t.start + (Text.utf8 front).length ∧ Around p v w front back := by
  induction p generalizing v t previous with
  | nil =>
    cases h
    refine ⟨t, [], [], rfl, ht, rfl, by simp, fun _ x => ⟨x, rfl, by simp, id⟩⟩
  | cons segment rest ih =>
    rw [Path.stepsFrom, List.foldlM_cons] at h
    cases hdown : v.down ⟨previous, segment, rest.isEmpty⟩ with
    | error cause =>
      rw [hdown] at h
      cases h
    | ok next =>
      rw [hdown] at h
      have hrest : (Path.stepsFrom (some segment) rest).foldlM Value.down next = .ok w := h
      obtain ⟨hnext, t₁, A, B, hstep, hnode, hstart, htext, hreplace⟩ :=
        down_literal ht hv _ (hp segment List.mem_cons_self) hdown
      obtain ⟨t₂, front, back, hwalk, hnode', hstart', haround⟩ :=
        ih (fun other hother => hp other (List.mem_cons_of_mem _ hother)) hnode hnext hrest
      refine ⟨t₂, A ++ front, back ++ B, ?_, hnode', ?_, ?_, fun before x => ?_⟩
      · rw [List.foldlM_cons, hstep]
        exact hwalk
      · rw [hstart', hstart, Text.utf8_append, List.length_append, Nat.add_assoc]
      · rw [htext, haround.text_eq]
        simp
      · obtain ⟨v', hset, htext', hdistinct⟩ := haround.set (some segment) x
        have hbelow : v.below? segment = some next := Value.down_eq_ok.1 hdown
        have hnull : rest ≠ [] → next.isNull = false :=
          Value.isNull_of_lookup? (Value.walk_eq_ok.1 hrest)
        refine ⟨v.putChild segment v', ?_, ?_, fun hx => ?_⟩
        · exact Value.setFrom_cons_eq_ok_of_below? hbelow hnull hset
        · rw [hreplace, htext']
          simp
        · exact Value.isDistinct_putChild hv (hdistinct hx) hbelow

/-- A path that leads nowhere in a value leads nowhere in its text. -/
theorem walk_literal_eq_none {p : Path} {t : Target} {previous : Option Segment} {cause : Error}
    (hp : ∀ segment ∈ p, isPlain segment = true) (ht : t.node = some (literal v))
    (hv : v.isDistinct = true)
    (h : (Path.stepsFrom previous p).foldlM Value.down v = .error cause) :
    p.foldlM Target.down? t = none := by
  induction p generalizing v t previous with
  | nil => cases h
  | cons segment rest ih =>
    have hsegment := hp segment List.mem_cons_self
    rw [Path.stepsFrom, List.foldlM_cons] at h
    rw [List.foldlM_cons]
    cases hdown : v.down ⟨previous, segment, rest.isEmpty⟩ with
    | error cause => rw [down?_literal_eq_none ht _ hsegment hdown]; rfl
    | ok next =>
      rw [hdown] at h
      obtain ⟨hnext, t₁, A, B, hstep, hnode, -⟩ := down_literal ht hv _ hsegment hdown
      rw [hstep]
      exact ih (fun other hother => hp other (List.mem_cons_of_mem _ hother)) hnode hnext h

end Json

end ConfigPatch
