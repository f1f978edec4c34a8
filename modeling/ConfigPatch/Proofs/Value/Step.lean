import ConfigPatch.Proofs.Text.Cut
import ConfigPatch.Value.Remove
import ConfigPatch.Value.Set

/-!
# Storing one step below a value

Storing a value takes the same step at every segment of a path. The value
that the segment goes into may refuse it. Otherwise a sequence is filled up
to the index, what stands below the segment is taken, or a new container
if there is nothing or null, and what comes of storing in that is put in
its place. `setFrom_cons_eq_ok` and `setFrom_cons_eq_error` say so, and
what holds along whole paths is proved by induction from them.
-/

namespace ConfigPatch

variable {entries : Entries} {name : String} {v w x y fill : Value} {s t : Segment}
variable {previous : Option Segment} {p q before after rest : Path} {e : Error}

/-! ## Entries -/

theorem Entries.mem_names_iff : name ∈ names entries ↔ ∃ v, find? name entries = some v := by
  induction entries with
  | nil => simp [names, find?]
  | cons entry rest ih =>
    obtain ⟨key, value⟩ := entry
    rw [find?]
    split
    · rename_i hkey
      simp [names, hkey]
    · rename_i hkey
      rw [← ih, names, List.map_cons, List.mem_cons]
      exact or_iff_right (Ne.symm hkey)

/-- A name that is new comes last, and no other name moves. -/
theorem Entries.names_insert : names (insert name v entries) =
    if name ∈ names entries then names entries else names entries ++ [name] := by
  induction entries with
  | nil => rfl
  | cons entry rest ih =>
    obtain ⟨key, value⟩ := entry
    rw [insert]
    split
    · rename_i hkey
      subst hkey
      exact (if_pos List.mem_cons_self).symm
    · rename_i hkey
      have hmem : name ∈ names ((key, value) :: rest) ↔ name ∈ names rest :=
        List.mem_cons.trans (or_iff_right (Ne.symm hkey))
      change key :: names (insert name v rest) = _
      rw [ih]
      simp only [hmem]
      split <;> rfl

/-! ## Paths that lead to different places -/

/-- Neither path leads through the end of the other. -/
def Path.Diverges (p q : Path) : Prop :=
  ¬ p <+: q ∧ ¬ q <+: p

instance : Decidable (Path.Diverges p q) :=
  inferInstanceAs (Decidable (¬ p <+: q ∧ ¬ q <+: p))

theorem Path.diverges_cons_iff :
    Diverges (s :: p) (t :: q) ↔ (s = t → Diverges p q) := by
  unfold Diverges
  rw [List.cons_prefix_cons, List.cons_prefix_cons]
  constructor
  · rintro ⟨hp, hq⟩ rfl
    exact ⟨fun h => hp ⟨rfl, h⟩, fun h => hq ⟨rfl, h⟩⟩
  · intro h
    exact ⟨fun ⟨hst, hpq⟩ => (h hst).1 hpq, fun ⟨hts, hqp⟩ => (h hts.symm).2 hqp⟩

theorem Path.Diverges.ne_nil (h : Diverges p q) : p ≠ [] ∧ q ≠ [] := by
  constructor
  · rintro rfl
    exact h.1 List.nil_prefix
  · rintro rfl
    exact h.2 List.nil_prefix

/-- The segment in front of what follows a path. -/
theorem Path.getLast?_cons_or :
    (s :: p).getLast?.or previous = p.getLast?.or (some s) := by
  rw [List.getLast?_cons, Option.some_or]
  cases p.getLast? <;> rfl

namespace Value

/-! ## Reading -/

/-- The value at a path, if there is one. -/
def lookup? : Path → Value → Option Value
  | [], v => some v
  | s :: rest, v => (v.below? s).bind (lookup? rest)

theorem down_eq_ok {step : Step} : v.down step = .ok x ↔ v.below? step.segment = some x := by
  obtain ⟨previous, s, isLast⟩ := step
  cases s with
  | property name =>
    cases v with
    | null | bool | number | string | array => simp [down, below?]
    | object entries => cases h : Entries.find? name entries <;> simp [down, below?, h]
  | index n =>
    cases v with
    | null | bool | number | string | object => simp [down, below?]
    | array items => cases h : items[n.toNat]? <;> simp [down, below?, h]

/-- Only a mapping and a sequence have something below them. -/
theorem below?_eq_some : v.below? s = some w ↔
    (∃ name entries, s = .property name ∧ v = .object entries ∧
      Entries.find? name entries = some w) ∨
    ∃ n items, s = .index n ∧ v = .array items ∧ items[n.toNat]? = some w := by
  constructor
  · intro h
    unfold below? at h
    split at h
    · exact .inl ⟨_, _, rfl, rfl, h⟩
    · exact .inr ⟨_, _, rfl, rfl, h⟩
    · cases h
  · rintro (⟨name, entries, rfl, rfl, h⟩ | ⟨n, items, rfl, rfl, h⟩)
    · exact h
    · exact h

theorem isNull_of_below? (h : v.below? s = some w) : v.isNull = false := by
  rcases below?_eq_some.1 h with ⟨_, _, -, rfl, -⟩ | ⟨_, _, -, rfl, -⟩
  · rfl
  · rfl

theorem isNull_of_lookup? (h : lookup? p v = some w) (hp : p ≠ []) : v.isNull = false := by
  obtain ⟨s, rest, rfl⟩ := List.exists_cons_of_ne_nil hp
  obtain ⟨x, hx, -⟩ := Option.bind_eq_some_iff.1 h
  exact isNull_of_below? hx

theorem lookup?_append : lookup? (p ++ q) v = (lookup? p v).bind (lookup? q) := by
  induction p generalizing v with
  | nil => rfl
  | cons s rest ih =>
    rw [List.cons_append, lookup?, lookup?, Option.bind_assoc]
    refine congrArg _ (funext fun x => ?_)
    exact ih

/-- Reading on behind a given segment, which is named if the next one
finds no sequence. -/
def walk (previous : Option Segment) (p : Path) (v : Value) : Except Error Value :=
  (Path.stepsFrom previous p).foldlM down v

theorem get_eq_walk : get p v = walk none p v := rfl

theorem walk_cons : walk previous (s :: rest) v =
    v.down ⟨previous, s, rest.isEmpty⟩ >>= walk (some s) rest := rfl

theorem walk_cons_of_below? (h : v.below? s = some w) :
    walk previous (s :: rest) v = walk (some s) rest w := by
  have hdown : v.down ⟨previous, s, rest.isEmpty⟩ = .ok w := down_eq_ok.2 h
  rw [walk_cons, hdown]
  rfl

theorem walk_append :
    walk previous (p ++ q) v = walk previous p v >>= walk (p.getLast?.or previous) q := by
  induction p generalizing previous v with
  | nil => rfl
  | cons s rest ih =>
    -- a step down does not ask whether the path ends with it
    have hdown : v.down ⟨previous, s, (rest ++ q).isEmpty⟩ = v.down ⟨previous, s, rest.isEmpty⟩ := rfl
    rw [List.cons_append, walk_cons, walk_cons, hdown, bind_assoc, Path.getLast?_cons_or]
    refine congrArg _ (funext fun x => ?_)
    exact ih

theorem walk_eq_ok : walk previous p v = .ok x ↔ lookup? p v = some x := by
  induction p generalizing previous v with
  | nil =>
    change Except.ok v = Except.ok x ↔ some v = some x
    rw [Except.ok.injEq, Option.some.injEq]
  | cons s rest ih =>
    rw [walk_cons, Failure.bind_eq_ok, lookup?, Option.bind_eq_some_iff]
    refine exists_congr fun w => ?_
    rw [down_eq_ok, ih]

/-- **Reading succeeds** where there is something to read. -/
theorem get_eq_ok : get p v = .ok x ↔ lookup? p v = some x :=
  walk_eq_ok

/-- Reading on from what a path leads to. -/
theorem get_append_of_get (h : get p v = .ok w) : get (p ++ q) v = walk p.getLast? q w := by
  rw [get_eq_walk, walk_append, ← get_eq_walk, h, Option.or_none]
  rfl

/-! ## Storing -/

/-- Why a value refuses that something is stored below a segment of it. -/
def refusal? (previous : Option Segment) (s : Segment) (v : Value) : Option Error :=
  match s, v with
  | .property _, .object _ => none
  | .property name, _ => some (.missingProperty name)
  | .index n, .array items =>
    if paddingLimit < n.toNat + 1 - items.length then some (.indexOutOfRange n items.length)
    else none
  | .index _, _ => some (.notAnArray (previous.elim "<root>" Segment.text))

/-- What a sequence is filled up with, by the segments that follow the
index. -/
def padding (rest : Path) : Value :=
  if rest.isEmpty then .null else empty

/-- The value with a sequence filled up to the index. -/
def filled (v : Value) (s : Segment) (fill : Value) : Value :=
  match s, v with
  | .index n, .array items =>
    .array (items ++ List.replicate (n.toNat + 1 - items.length) fill)
  | _, v => v

/-- Only a sequence is filled up, and only for an index. -/
theorem filled_eq_or (v : Value) (s : Segment) (fill : Value) :
    v.filled s fill = v ∨ ∃ n items, s = .index n ∧ v = .array items ∧
    v.filled s fill = .array (items ++ List.replicate (n.toNat + 1 - items.length) fill) := by
  cases s with
  | property name => exact .inl rfl
  | index n =>
    cases v with
    | null | bool | number | string | object => exact .inl rfl
    | array items => exact .inr ⟨n, items, rfl, rfl, rfl⟩

/-- A new container for a segment, by the segment before it. -/
def freshAfter : Option Segment → Segment → Value
  | some (.property _), .index _ => .array []
  | _, _ => empty

/-- What the segments that follow go into: what stands below the segment,
or a new container. -/
def slot (s : Segment) (rest : Path) (v : Value) : Value :=
  slotOr (rest.head?.elim empty (freshAfter (some s))) (v.below? s)

/-- With the segments at an end it does not matter where they went. -/
theorem setFrom_slotOr {fresh fresh' : Value} (h : rest ≠ [] → fresh = fresh') :
    setFrom previous rest x (slotOr fresh (v.below? s)) =
      setFrom previous rest x (slotOr fresh' (v.below? s)) := by
  cases rest with
  | nil => rfl
  | cons next rest => rw [h (List.cons_ne_nil _ _)]

theorem fillUp_eq {n : UInt64} {items : List Value} : fillUp fill n items =
    if paddingLimit < n.toNat + 1 - items.length then .error (.indexOutOfRange n items.length)
    else .ok (items ++ List.replicate (n.toNat + 1 - items.length) fill) := by
  unfold fillUp
  split
  · rename_i hlt
    have hnone : n.toNat + 1 - items.length = 0 := by omega
    rw [hnone, if_neg (Nat.not_lt_zero _), List.replicate_zero, List.append_nil]
  · rename_i hge
    have hcount : n.toNat + 1 - items.length = n.toNat - items.length + 1 := by omega
    rw [hcount]
    simp only [Nat.lt_succ_iff]

/-- An element that is filled in is taken for nothing. -/
theorem slotOr_filled {n : UInt64} {items : List Value} :
    slotOr empty (items ++ List.replicate (n.toNat + 1 - items.length) (padding rest))[n.toNat]? =
      slotOr empty items[n.toNat]? := by
  rcases Nat.lt_or_ge n.toNat items.length with hlt | hge
  · rw [List.getElem?_append_left hlt]
  · rw [List.getElem?_append_right hge, List.getElem?_eq_none hge,
      List.getElem?_replicate_of_lt (by omega), padding]
    split <;> rfl

/-- **Storing one step below a value.** -/
theorem setFrom_cons_eq : setFrom previous (s :: rest) x v =
    match refusal? previous s v with
    | some e => .error e
    | none => (setFrom (some s) rest x (v.slot s rest)).map
        ((v.filled s (padding rest)).putChild s) := by
  cases s with
  | property name =>
    cases v with
    | null | bool | number | string | array => rfl
    | object entries =>
      have hfresh (hrest : rest ≠ []) : rest.head?.elim .null freshFor =
          rest.head?.elim empty (freshAfter (some (.property name))) := by
        cases rest with
        | nil => exact absurd rfl hrest
        | cons next rest => cases next <;> rfl
      have hslot : setFrom (some (.property name)) rest x
          (slotOr (rest.head?.elim .null freshFor) (Entries.find? name entries)) =
            setFrom (some (.property name)) rest x ((object entries).slot (.property name) rest) :=
        setFrom_slotOr (v := object entries) (s := .property name) hfresh
      rw [setFrom, hslot]
      cases setFrom (some (.property name)) rest x ((object entries).slot (.property name) rest) <;>
        rfl
  | index n =>
    cases v with
    | null | bool | number | string | object => rfl
    | array items =>
      have hfresh : rest.head?.elim empty (freshAfter (some (.index n))) = empty := by
        cases rest <;> rfl
      rw [setFrom, refusal?]
      change (fillUp (padding rest) n items >>= _) = _
      rw [fillUp_eq]
      split
      · rfl
      · change (setFrom (some (.index n)) rest x (slotOr empty
            (items ++ List.replicate (n.toNat + 1 - items.length) (padding rest))[n.toNat]?) >>=
          _) = _
        rw [slotOr_filled, slot, hfresh, below?]
        cases setFrom (some (.index n)) rest x (slotOr empty items[n.toNat]?) <;> rfl

theorem setFrom_cons_eq_ok : setFrom previous (s :: rest) x v = .ok w ↔
    refusal? previous s v = none ∧ ∃ inner, setFrom (some s) rest x (v.slot s rest) = .ok inner ∧
      w = (v.filled s (padding rest)).putChild s inner := by
  rw [setFrom_cons_eq]
  cases refusal? previous s v with
  | some e => simp
  | none =>
    cases setFrom (some s) rest x (v.slot s rest) with
    | error e => simp [Except.map]
    | ok inner => simp [Except.map, eq_comm]

theorem setFrom_cons_eq_error : setFrom previous (s :: rest) x v = .error e ↔
    refusal? previous s v = some e ∨
      refusal? previous s v = none ∧ setFrom (some s) rest x (v.slot s rest) = .error e := by
  rw [setFrom_cons_eq]
  cases refusal? previous s v with
  | some e => simp
  | none => cases setFrom (some s) rest x (v.slot s rest) <;> simp [Except.map]

/-- What leads to something takes something in its place. -/
theorem refusal?_of_below? (h : v.below? s = some w) : refusal? previous s v = none := by
  rcases below?_eq_some.1 h with ⟨name, entries, rfl, rfl, -⟩ | ⟨n, items, rfl, rfl, hget⟩
  · rfl
  · have hlt := (List.getElem?_eq_some_iff.1 hget).1
    rw [refusal?, if_neg (by omega)]

/-- Nothing is filled up where there is something. -/
theorem filled_of_below? (h : v.below? s = some w) : v.filled s fill = v := by
  rcases filled_eq_or v s fill with heq | ⟨n, items, rfl, rfl, heq⟩
  · exact heq
  · have hlt := (List.getElem?_eq_some_iff.1 h).1
    have hnone : n.toNat + 1 - items.length = 0 := by omega
    rw [heq, hnone, List.replicate_zero, List.append_nil]

/-- **Storing below a segment that leads to something** replaces that. -/
theorem setFrom_cons_of_below? (h : v.below? s = some w) (hw : rest ≠ [] → w.isNull = false) :
    setFrom previous (s :: rest) x v = (setFrom (some s) rest x w).map (v.putChild s) := by
  have hslot : setFrom (some s) rest x (v.slot s rest) = setFrom (some s) rest x w := by
    cases rest with
    | nil => rfl
    | cons next rest =>
      rw [slot, h, slotOr, hw (List.cons_ne_nil _ _), if_neg Bool.false_ne_true]
  rw [setFrom_cons_eq, refusal?_of_below? h, filled_of_below? h, hslot]

theorem setFrom_cons_eq_ok_of_below? (h : v.below? s = some w) (hw : rest ≠ [] → w.isNull = false)
    (hinner : setFrom (some s) rest x w = .ok y) :
    setFrom previous (s :: rest) x v = .ok (v.putChild s y) := by
  rw [setFrom_cons_of_below? h hw, hinner]
  rfl

/-! ## What is there afterwards -/

/-- **A value that takes something below a segment** is a mapping for a
property, and a sequence for an index. -/
theorem of_refusal?_eq_none (h : refusal? previous s v = none) :
    (∃ name entries, s = .property name ∧ v = .object entries) ∨
      ∃ n items, s = .index n ∧ v = .array items := by
  cases s with
  | property name =>
    cases v with
    | null | bool | number | string | array => cases h
    | object entries => exact .inl ⟨name, entries, rfl, rfl⟩
  | index n =>
    cases v with
    | null | bool | number | string | object => cases h
    | array items => exact .inr ⟨n, items, rfl, rfl⟩

/-- What was stored below a segment is there. -/
theorem below?_putChild_self (h : refusal? previous s v = none) :
    ((v.filled s fill).putChild s x).below? s = some x := by
  rcases of_refusal?_eq_none h with ⟨name, entries, rfl, rfl⟩ | ⟨n, items, rfl, rfl⟩
  · change Entries.find? name (Entries.insert name x entries) = some x
    rw [Entries.find?_insert, if_pos rfl]
  · change ((items ++ List.replicate (n.toNat + 1 - items.length) fill).set n.toNat x)[n.toNat]? =
      some x
    rw [List.getElem?_set_self]
    rw [List.length_append, List.length_replicate]
    omega

/-- What stands below other segments stays. -/
theorem below?_putChild_of_ne (h : s ≠ t) : (v.putChild s x).below? t = v.below? t := by
  cases s with
  | property name =>
    cases v with
    | null | bool | number | string | array => rfl
    | object entries =>
      cases t with
      | index m => rfl
      | property other =>
        change Entries.find? other (Entries.insert name x entries) = Entries.find? other entries
        rw [Entries.find?_insert, if_neg fun heq => h (congrArg _ heq)]
  | index n =>
    cases v with
    | null | bool | number | string | object => rfl
    | array items =>
      cases t with
      | property other => rfl
      | index m =>
        have hne : n.toNat ≠ m.toNat := fun heq => h (congrArg _ (UInt64.toNat_inj.1 heq))
        change (items.set n.toNat x)[m.toNat]? = items[m.toNat]?
        rw [List.getElem?_set_ne hne]

/-- What stands in a value stays when it is filled up. -/
theorem below?_filled (h : v.below? t = some y) : (v.filled s fill).below? t = some y := by
  rcases filled_eq_or v s fill with heq | ⟨n, items, rfl, rfl, heq⟩
  · rw [heq, h]
  · rw [heq]
    cases t with
    | property name => cases h
    | index m =>
      obtain ⟨hlt, -⟩ := List.getElem?_eq_some_iff.1 h
      rw [← h, below?, below?, List.getElem?_append_left hlt]

/-- **What is new in a value that is filled up** is an element up to the
index. -/
theorem eq_fill_of_below?_filled (h : v.below? t = none) (hy : (v.filled s fill).below? t = some y) :
    y = fill ∧ ∃ n m items, s = .index n ∧ t = .index m ∧ v = .array items ∧
      items.length ≤ m.toNat ∧ m ≤ n := by
  rcases filled_eq_or v s fill with heq | ⟨n, items, rfl, rfl, heq⟩
  · rw [heq, h] at hy
    cases hy
  · rw [heq] at hy
    cases t with
    | property name => cases hy
    | index m =>
      have hge : items.length ≤ m.toNat := List.getElem?_eq_none_iff.1 h
      rw [below?, List.getElem?_append_right hge, List.getElem?_replicate] at hy
      split at hy
      · rename_i hlt
        cases hy
        refine ⟨rfl, n, m, items, rfl, rfl, rfl, hge, ?_⟩
        rw [UInt64.le_iff_toNat_le]
        omega
      · cases hy

/-! ## Containers on the way -/

@[simp]
theorem below?_freshAfter : (freshAfter previous s).below? t = none := by
  cases previous with
  | none => cases t <;> rfl
  | some before => cases before <;> cases s <;> cases t <;> rfl

theorem isNull_freshAfter : (freshAfter previous s).isNull = false := by
  cases previous with
  | none => rfl
  | some before => cases before <;> cases s <;> rfl

theorem isNull_slotOr {fresh : Value} {found : Option Value} (h : fresh.isNull = false) :
    (slotOr fresh found).isNull = false := by
  cases found with
  | none => exact h
  | some v =>
    rw [slotOr]
    cases hv : v.isNull with
    | true => exact h
    | false => exact hv

/-- In a new container, as in null, there is nothing to read. -/
theorem lookup?_slotOr {fresh : Value} {found : Option Value} (hfresh : ∀ t, fresh.below? t = none)
    (hp : p ≠ []) : lookup? p (slotOr fresh found) = found.bind (lookup? p) := by
  obtain ⟨s, rest, rfl⟩ := List.exists_cons_of_ne_nil hp
  cases found with
  | none => rw [slotOr, lookup?, hfresh, Option.bind_none, Option.bind_none]
  | some v =>
    rw [slotOr, Option.bind_some]
    split
    · rename_i hnull
      cases v with
      | null => cases s <;> rw [lookup?, hfresh] <;> rfl
      | bool | number | string | array | object => cases hnull
    · rfl

theorem below?_fresh (t : Segment) :
    (rest.head?.elim empty (freshAfter (some s))).below? t = none := by
  cases rest with
  | nil => cases t <;> rfl
  | cons next rest => exact below?_freshAfter

theorem isNull_slot : (v.slot s rest).isNull = false := by
  refine isNull_slotOr ?_
  cases rest with
  | nil => rfl
  | cons next rest => exact isNull_freshAfter

theorem lookup?_slot (hp : p ≠ []) : lookup? p (v.slot s rest) = lookup? (s :: p) v :=
  lookup?_slotOr below?_fresh hp

/-- **The container that a segment goes into**: what the segments before it
lead to, if that is there and not null, or else a new one. -/
def met (config : Value) (before : Path) (s : Segment) : Value :=
  slotOr (freshAfter before.getLast? s) (lookup? before config)

theorem met_nil (h : v.isNull = false) : met v [] s = v := by
  rw [met, lookup?, slotOr, h, if_neg Bool.false_ne_true]

/-- The container is the same one for the rest of the way. -/
theorem met_cons : met v (s :: before) t = met (v.slot s (before ++ t :: after)) before t := by
  cases before with
  | nil =>
    rw [met_nil isNull_slot, met, lookup?]
    change slotOr _ ((v.below? s).bind some) = _
    rw [Option.bind_fun_some]
    rfl
  | cons b before =>
    rw [met, met, lookup?_slot (List.cons_ne_nil _ _), List.getLast?_cons_cons]

/-! ## Whole paths -/

theorem set_eq_setFrom {value config : Value} (hconfig : config.isNull = false)
    (hvalue : value.isNull = false) (hp : p ≠ []) :
    set p value config = setFrom none p value.stored config := by
  rw [set, hconfig, hvalue, if_neg (by decide), if_neg (by simpa using hp)]

theorem set_eq_ok {value config : Value} : set p value config = .ok w ↔
    config.isNull = false ∧ value.isNull = false ∧ p ≠ [] ∧
      setFrom none p value.stored config = .ok w := by
  unfold set
  cases config.isNull with
  | true => simp
  | false =>
    cases value.isNull with
    | true => simp
    | false => cases p <;> simp

end Value

end ConfigPatch
