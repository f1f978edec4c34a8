import ConfigPatch.Proofs.Value.Frame
import ConfigPatch.Proofs.Value.Overwrite

/-!
# What removing a value changes

A path is looked up before its end is taken out by a second walk, and the
two agree on which paths lead to something, so the second never comes to
nothing. What it leaves is the tree with the rest of the parent stored in
the place of the parent (`takeOut?_concat`). So what removing changes is
read off the laws of storing: only what is read below the parent is
another, a mapping has lost one name, and in a sequence the elements
behind the one that was removed are read one index further in front.

Storing what is new at the end of a container and removing it gives the
tree that was there at first.
-/

namespace ConfigPatch

variable {entries : Entries} {items : List Value} {name : String} {n m k j : UInt64}
variable {s t : Segment} {previous : Option Segment} {p q parent rest : Path} {isLast : Bool}
variable {v w x y left updated config : Value} {cause : Error}

/-! ## Entries -/

theorem Entries.erase_of_notMem (h : name ∉ names entries) : erase name entries = entries := by
  refine List.filter_eq_self.2 fun entry hentry => ?_
  have hne : entry.1 ≠ name := fun heq => h (heq ▸ List.mem_map_of_mem hentry)
  simpa using hne

/-- Where no name stands twice, one entry is lost. -/
theorem Entries.length_erase (h : name ∈ names entries) (hnodup : (names entries).Nodup) :
    (erase name entries).length + 1 = entries.length := by
  induction entries with
  | nil => cases h
  | cons entry rest ih =>
    obtain ⟨key, value⟩ := entry
    obtain ⟨hkey, hrest⟩ := List.nodup_cons.1 hnodup
    rw [erase_cons]
    split
    · rename_i heq
      subst heq
      rw [erase_of_notMem hkey, List.length_cons]
    · rename_i hne
      have hmem : name ∈ names rest := (List.mem_cons.1 h).resolve_left (Ne.symm hne)
      rw [List.length_cons, ih hmem hrest, List.length_cons]

/-- A name that is new is stored and erased without a trace. -/
theorem Entries.erase_insert (h : name ∉ names entries) :
    erase name (insert name x entries) = entries := by
  induction entries with
  | nil => simp [insert, erase]
  | cons entry rest ih =>
    obtain ⟨key, value⟩ := entry
    have hkey : key ≠ name := fun heq => h (heq ▸ List.mem_cons_self)
    have hrest : name ∉ names rest := fun hmem => h (List.mem_cons_of_mem _ hmem)
    rw [insert, if_neg hkey, erase_cons, if_neg hkey, ih hrest]

namespace Value

/-! ## One step below a value -/

/-- **What is left of a container** without the value below a segment, and
when there is one to take out. -/
theorem dropChild?_eq_some : v.dropChild? s = some left ↔
    (∃ name entries, s = .property name ∧ v = .object entries ∧
      name ∈ Entries.names entries ∧ left = .object (Entries.erase name entries)) ∨
    ∃ n items, s = .index n ∧ v = .array items ∧ n.toNat < items.length ∧
      left = .array (items.eraseIdx n.toNat) := by
  constructor
  · intro h
    unfold dropChild? at h
    split at h
    · split at h
      · rename_i hname
        cases h
        exact .inl ⟨_, _, rfl, rfl, Entries.mem_names_iff.2 (Option.isSome_iff_exists.1 hname), rfl⟩
      · cases h
    · split at h
      · rename_i hn
        cases h
        exact .inr ⟨_, _, rfl, rfl, hn, rfl⟩
      · cases h
    · cases h
  · rintro (⟨name, entries, rfl, rfl, hname, rfl⟩ | ⟨n, items, rfl, rfl, hn, rfl⟩)
    · exact if_pos (Option.isSome_iff_exists.2 (Entries.mem_names_iff.1 hname))
    · exact if_pos hn

/-- The two walks agree on a step. -/
theorem exists_dropChild?_iff :
    (∃ left, v.dropChild? s = some left) ↔ ∃ x, v.below? s = some x := by
  constructor
  · rintro ⟨left, h⟩
    rcases dropChild?_eq_some.1 h with ⟨name, entries, rfl, rfl, hname, -⟩ | ⟨n, items, rfl, rfl, hn, -⟩
    · exact Entries.mem_names_iff.1 hname
    · exact ⟨_, List.getElem?_eq_getElem hn⟩
  · rintro ⟨x, h⟩
    rcases below?_eq_some.1 h with ⟨name, entries, rfl, rfl, hfind⟩ | ⟨n, items, rfl, rfl, hget⟩
    · have hname := Entries.mem_names_iff.2 ⟨x, hfind⟩
      exact ⟨_, dropChild?_eq_some.2 (.inl ⟨name, entries, rfl, rfl, hname, rfl⟩)⟩
    · have hn := (List.getElem?_eq_some_iff.1 hget).1
      exact ⟨_, dropChild?_eq_some.2 (.inr ⟨n, items, rfl, rfl, hn, rfl⟩)⟩

/-! ## Taking out along a path -/

theorem takeOut?_cons (h : rest ≠ []) : takeOut? (s :: rest) v =
    (v.below? s).bind fun inner => (takeOut? rest inner).map (v.putChild s) := by
  obtain ⟨next, rest, rfl⟩ := List.exists_cons_of_ne_nil h
  rw [takeOut?]
  cases v.below? s with
  | none => rfl
  | some inner =>
    change (takeOut? (next :: rest) inner).bind _ = (takeOut? (next :: rest) inner).map _
    cases takeOut? (next :: rest) inner <;> rfl

/-- **Taking out is storing what is left of the parent** in the place of
the parent. -/
theorem takeOut?_concat (previous : Option Segment) : takeOut? (p ++ [s]) v = some updated ↔
    ∃ w left, lookup? p v = some w ∧ w.dropChild? s = some left ∧
      setFrom previous p left v = .ok updated := by
  induction p generalizing previous v updated with
  | nil =>
    constructor
    · intro h
      exact ⟨v, updated, rfl, h, rfl⟩
    · rintro ⟨w, left, hw, hleft, hset⟩
      cases hw
      cases hset
      exact hleft
  | cons b p ih =>
    rw [List.cons_append, takeOut?_cons (List.concat_ne_nil _ _), Option.bind_eq_some_iff]
    constructor
    · rintro ⟨inner, hinner, h⟩
      obtain ⟨changed, hchanged, rfl⟩ := Option.map_eq_some_iff.1 h
      obtain ⟨w, left, hw, hleft, hset⟩ := (ih (some b)).1 hchanged
      refine ⟨w, left, ?_, hleft, ?_⟩
      · rw [lookup?, hinner, Option.bind_some, hw]
      · exact setFrom_cons_eq_ok_of_below? hinner (isNull_of_lookup? hw) hset
    · rintro ⟨w, left, hw, hleft, hset⟩
      obtain ⟨inner, hinner, hw⟩ := Option.bind_eq_some_iff.1 hw
      obtain ⟨changed, hchanged⟩ := exists_setFrom_of_lookup? (x := left) (some b) hw
      rw [setFrom_cons_eq_ok_of_below? hinner (isNull_of_lookup? hw) hchanged] at hset
      cases hset
      refine ⟨inner, hinner, ?_⟩
      rw [(ih (some b)).2 ⟨w, left, hw, hleft, hchanged⟩, Option.map_some]

/-- **The two walks agree** on which paths lead to something. -/
theorem exists_takeOut?_iff (hp : p ≠ []) :
    (∃ updated, takeOut? p v = some updated) ↔ ∃ x, lookup? p v = some x := by
  obtain ⟨front, s, rfl⟩ : ∃ front s, p = front ++ [s] :=
    ⟨_, _, (List.dropLast_concat_getLast hp).symm⟩
  have hlast (x : Value) : lookup? (front ++ [s]) v = some x ↔
      ∃ w, lookup? front v = some w ∧ w.below? s = some x := by
    rw [lookup?_append, Option.bind_eq_some_iff]
    simp only [lookup?, Option.bind_fun_some]
  simp only [hlast]
  constructor
  · rintro ⟨updated, h⟩
    obtain ⟨w, left, hw, hleft, -⟩ := (takeOut?_concat none).1 h
    obtain ⟨x, hx⟩ := exists_dropChild?_iff.1 ⟨left, hleft⟩
    exact ⟨x, w, hw, hx⟩
  · rintro ⟨x, w, hw, hx⟩
    obtain ⟨left, hleft⟩ := exists_dropChild?_iff.2 ⟨x, hx⟩
    obtain ⟨updated, hset⟩ := exists_setFrom_of_lookup? (x := left) none hw
    exact ⟨updated, (takeOut?_concat none).2 ⟨w, left, hw, hleft, hset⟩⟩

theorem remove_eq_ok : remove p v = .ok updated ↔ takeOut? p v = some updated := by
  by_cases hp : p = []
  · subst hp
    constructor <;> intro h <;> cases h
  · rw [remove, if_neg (by simpa using hp)]
    cases hget : get p v with
    | error cause =>
      have hnone : takeOut? p v = none := by
        refine Option.eq_none_iff_forall_ne_some.2 fun updated h => ?_
        obtain ⟨x, hx⟩ := (exists_takeOut?_iff hp).1 ⟨updated, h⟩
        rw [get_eq_ok.2 hx] at hget
        cases hget
      rw [hnone]
      constructor <;> intro h <;> cases h
    | ok x =>
      obtain ⟨left, hleft⟩ := (exists_takeOut?_iff hp).2 ⟨x, get_eq_ok.1 hget⟩
      rw [hleft]
      change Except.ok left = Except.ok updated ↔ some left = some updated
      rw [Except.ok.injEq, Option.some.injEq]

/-- Removing fails where reading does, and for the same cause. -/
theorem remove_eq_error (hp : p ≠ []) : remove p v = .error cause ↔ get p v = .error cause := by
  rw [remove, if_neg (by simpa using hp)]
  cases hget : get p v with
  | error other => rfl
  | ok x =>
    obtain ⟨left, hleft⟩ := (exists_takeOut?_iff hp).2 ⟨x, get_eq_ok.1 hget⟩
    rw [hleft]
    constructor <;> intro h <;> cases h

theorem down_ne_pathNotFound {step : Step} : v.down step ≠ .error (.pathNotFound q) := by
  intro h
  unfold down at h
  split at h
  · split at h <;> cases h
  · cases h
  · split at h <;> cases h
  · cases h

/-- Reading names what is missing, and never the path as a whole. -/
theorem walk_ne_pathNotFound : walk previous p v ≠ .error (.pathNotFound q) := by
  induction p generalizing previous v with
  | nil =>
    intro h
    cases h
  | cons s rest ih =>
    rw [walk_cons]
    cases hdown : v.down ⟨previous, s, rest.isEmpty⟩ with
    | ok w => exact ih
    | error cause =>
      intro h
      cases h
      exact down_ne_pathNotFound hdown

/-- Removing, by what is left of the parent. -/
theorem remove_concat_eq_ok : remove (parent ++ [s]) v = .ok updated ↔
    ∃ w left, lookup? parent v = some w ∧ w.dropChild? s = some left ∧
      setFrom none parent left v = .ok updated :=
  remove_eq_ok.trans (takeOut?_concat none)

/-! ## Reading elsewhere -/

/-- A step that leads elsewhere comes to the same outcome. -/
theorem down_putChild_of_ne (hst : s ≠ t) (h : v.below? s = some w) :
    (v.putChild s x).down ⟨previous, t, isLast⟩ = v.down ⟨previous, t, isLast⟩ := by
  rcases below?_eq_some.1 h with ⟨name, entries, rfl, rfl, -⟩ | ⟨n, items, rfl, rfl, -⟩
  · cases t with
    | index m => rfl
    | property other =>
      have hne : name ≠ other := fun heq => hst (congrArg _ heq)
      simp only [putChild, down, Entries.find?_insert, if_neg hne]
  · cases t with
    | property other => rfl
    | index m =>
      have hne : n.toNat ≠ m.toNat := fun heq => hst (congrArg _ (UInt64.toNat_inj.1 heq))
      simp only [putChild, down, List.getElem?_set_ne hne, List.length_set]

/-- **What replaces something is not noticed elsewhere**, neither in what
is read nor in why nothing is. -/
theorem walk_setFrom_of_diverges {start : Option Segment} (hy : lookup? p v = some y)
    (h : setFrom previous p x v = .ok updated) (hq : p.Diverges q) :
    walk start q updated = walk start q v := by
  induction p generalizing previous start v updated q with
  | nil => exact absurd rfl hq.ne_nil.1
  | cons s rest ih =>
    obtain ⟨t, q, rfl⟩ := List.exists_cons_of_ne_nil hq.ne_nil.2
    obtain ⟨z, hz, hy⟩ := Option.bind_eq_some_iff.1 hy
    obtain ⟨inner, hinner⟩ := exists_setFrom_of_lookup? (x := x) (some s) hy
    rw [setFrom_cons_eq_ok_of_below? hz (isNull_of_lookup? hy) hinner] at h
    cases h
    rw [Path.diverges_cons_iff] at hq
    by_cases hst : s = t
    · subst hst
      rw [walk_cons_of_below? (below?_putChild_of_below? hz), walk_cons_of_below? hz]
      exact ih hy hinner (hq rfl)
    · rw [walk_cons, walk_cons, down_putChild_of_ne hst hz]

/-- Nothing is noticed of a removal where the parent is not passed. -/
theorem get_remove_of_diverges (h : remove p config = .ok updated)
    (hq : Path.Diverges p.dropLast q) : get q updated = get q config := by
  have hp : p ≠ [] := by
    rintro rfl
    exact hq.ne_nil.1 rfl
  obtain ⟨parent, s, rfl⟩ : ∃ parent s, p = parent ++ [s] :=
    ⟨_, _, (List.dropLast_concat_getLast hp).symm⟩
  rw [List.dropLast_concat] at hq
  obtain ⟨w, left, hw, -, hset⟩ := remove_concat_eq_ok.1 h
  exact walk_setFrom_of_diverges hw hset hq

/-! ## Reading below the parent -/

/-- **A mapping loses a name**, and all its other entries stay in order. -/
theorem get_remove_property (h : remove (parent ++ [.property name]) config = .ok updated) :
    ∃ entries left, get parent config = .ok (.object entries) ∧
      get parent updated = .ok (.object left) ∧ name ∈ Entries.names entries ∧
      left = entries.filter (fun entry => entry.1 ≠ name) ∧
      ((Entries.names entries).Nodup → left.length + 1 = entries.length) ∧
      get (parent ++ [.property name]) updated = .error (.missingProperty name) := by
  obtain ⟨w, left, hw, hleft, hset⟩ := remove_concat_eq_ok.1 h
  rcases dropChild?_eq_some.1 hleft with
    ⟨_, entries, hname, rfl, hmem, rfl⟩ | ⟨_, _, hindex, -⟩
  · cases hname
    have hparent := get_eq_ok.2 (lookup?_setFrom hset)
    refine ⟨entries, _, get_eq_ok.2 hw, hparent, hmem, rfl, Entries.length_erase hmem, ?_⟩
    have hgone : Entries.find? name (Entries.erase name entries) = none := by
      rw [Entries.find?_erase, if_pos rfl]
    rw [get_append_of_get hparent, walk_cons]
    simp only [down, hgone]
    rfl
  · cases hindex

/-- **An element that moved** from one index to another is read with the
same outcome, save that a failure names the index that it has now. -/
inductive Moved (m j : UInt64) : Except Error Value → Except Error Value → Prop
  /-- A value is the same one, and so is a failure that names no index. -/
  | same (outcome : Except Error Value) : Moved m j outcome outcome
  /-- There is no such element. -/
  | pastEnd (length : Nat) :
    Moved m j (.error (.indexOutOfRange m (length + 1))) (.error (.indexOutOfRange j length))
  /-- The element is asked for an element, and is no sequence. -/
  | noSequence : Moved m j (.error (.notAnArray (Segment.text (.index m))))
    (.error (.notAnArray (Segment.text (.index j))))

/-- What is read in an element depends on its index only where a failure
names it. -/
theorem moved_walk : Moved m j (walk (some (.index m)) rest v) (walk (some (.index j)) rest v) := by
  cases rest with
  | nil => exact .same _
  | cons t rest =>
    rw [walk_cons, walk_cons]
    cases t with
    | property name => cases v <;> exact .same _
    | index n =>
      cases v with
      | null | bool | number | string | object => exact .noSequence
      | array items => exact .same _

theorem walk_of_length_le (h : items.length ≤ n.toNat) :
    walk previous (.index n :: rest) (.array items) = .error (.indexOutOfRange n items.length) := by
  rw [walk_cons]
  simp only [down, List.getElem?_eq_none h]
  rfl

/-- The elements behind an index move up to it. -/
theorem moved_eraseIdx (hk : k.toNat < items.length) (hkj : k ≤ j) (hm : m.toNat = j.toNat + 1) :
    Moved m j (walk previous (.index m :: rest) (.array items))
      (walk previous (.index j :: rest) (.array (items.eraseIdx k.toNat))) := by
  rw [UInt64.le_iff_toNat_le] at hkj
  have hlength : (items.eraseIdx k.toNat).length + 1 = items.length := by
    rw [List.length_eraseIdx_of_lt hk]
    omega
  rcases Nat.lt_or_ge m.toNat items.length with hlt | hge
  · have hitem : (array items).below? (.index m) = some items[m.toNat] :=
      List.getElem?_eq_getElem hlt
    have hnext : (array (items.eraseIdx k.toNat)).below? (.index j) = some items[m.toNat] := by
      rw [← hitem, below?, below?, List.getElem?_eraseIdx, if_neg (Nat.not_lt.2 hkj), hm]
    rw [walk_cons_of_below? hitem, walk_cons_of_below? hnext]
    exact moved_walk
  · rw [walk_of_length_le hge, walk_of_length_le (by omega), ← hlength]
    exact .pastEnd _

/-- **A sequence loses an element**, and those behind it move up. -/
theorem get_remove_index (h : remove (parent ++ [.index k]) config = .ok updated) :
    ∃ items left, get parent config = .ok (.array items) ∧ get parent updated = .ok (.array left) ∧
      left.length + 1 = items.length ∧
      (∀ j rest, j < k →
        get (parent ++ .index j :: rest) updated = get (parent ++ .index j :: rest) config) ∧
      ∀ j m rest, k ≤ j → m.toNat = j.toNat + 1 →
        Moved m j (get (parent ++ .index m :: rest) config)
          (get (parent ++ .index j :: rest) updated) := by
  obtain ⟨w, left, hw, hleft, hset⟩ := remove_concat_eq_ok.1 h
  rcases dropChild?_eq_some.1 hleft with ⟨_, _, hname, -⟩ | ⟨_, items, hindex, rfl, hk, rfl⟩
  · cases hname
  · cases hindex
    have hbefore := get_eq_ok.2 hw
    have hafter := get_eq_ok.2 (lookup?_setFrom hset)
    refine ⟨items, _, hbefore, hafter, ?_, fun j rest hjk => ?_, fun j m rest hkj hm => ?_⟩
    · rw [List.length_eraseIdx_of_lt hk]
      omega
    · rw [UInt64.lt_iff_toNat_lt] at hjk
      have hlt := Nat.lt_trans hjk hk
      have hitem : (array items).below? (.index j) = some items[j.toNat] :=
        List.getElem?_eq_getElem hlt
      have hkept : (array (items.eraseIdx k.toNat)).below? (.index j) = some items[j.toNat] := by
        rw [← hitem, below?, below?, List.getElem?_eraseIdx, if_pos hjk]
      rw [get_append_of_get hbefore, get_append_of_get hafter, walk_cons_of_below? hitem,
        walk_cons_of_below? hkept]
    · rw [get_append_of_get hbefore, get_append_of_get hafter]
      exact moved_eraseIdx hk hkj hm

/-! ## Removing a value -/

/-- **What removing a value changes.** It succeeds where reading does, and
fails for the same cause where reading fails. A mapping loses the name at
the end of the path, and its other entries stay in order. A sequence loses
an element, and those behind it are read one index further in front. What
is read at paths that part from the way to the parent is read as before. -/
theorem remove_frame (hp : p ≠ []) :
    ((∃ updated, remove p config = .ok updated) ↔ ∃ x, get p config = .ok x) ∧
    (∀ cause, remove p config = .error cause ↔ get p config = .error cause) ∧
    (∀ q, remove p config ≠ .error (.pathNotFound q)) ∧
    ∀ updated, remove p config = .ok updated →
      (∀ parent name, p = parent ++ [.property name] →
        ∃ entries left, get parent config = .ok (.object entries) ∧
          get parent updated = .ok (.object left) ∧ name ∈ Entries.names entries ∧
          left = entries.filter (fun entry => entry.1 ≠ name) ∧
          ((Entries.names entries).Nodup → left.length + 1 = entries.length) ∧
          get p updated = .error (.missingProperty name)) ∧
      (∀ parent k, p = parent ++ [.index k] →
        ∃ items left, get parent config = .ok (.array items) ∧
          get parent updated = .ok (.array left) ∧ left.length + 1 = items.length ∧
          (∀ j rest, j < k →
            get (parent ++ .index j :: rest) updated = get (parent ++ .index j :: rest) config) ∧
          ∀ j m rest, k ≤ j → m.toNat = j.toNat + 1 →
            Moved m j (get (parent ++ .index m :: rest) config)
              (get (parent ++ .index j :: rest) updated)) ∧
      ∀ q, Path.Diverges p.dropLast q → get q updated = get q config := by
  refine ⟨?_, fun cause => remove_eq_error hp, fun q h => ?_, fun updated h => ⟨?_, ?_, ?_⟩⟩
  · simp only [remove_eq_ok, get_eq_ok]
    exact exists_takeOut?_iff hp
  · exact walk_ne_pathNotFound ((remove_eq_error hp).1 h)
  · rintro parent name rfl
    exact get_remove_property h
  · rintro parent k rfl
    exact get_remove_index h
  · intro q hq
    exact get_remove_of_diverges h hq

/-- A sequence of two elements, with another name behind it. -/
def twoElements : Value :=
  .object [("a", .array [.null, .object [("b", .null)]]), ("c", .bool true)]

/-- The second of two elements becomes the first one, with all that is in
it; a name is taken out of it; and there is no third element. -/
theorem remove_frame_of_twoElements :
    (∃ updated, remove [.property "a", .index 0] twoElements = .ok updated ∧
      Moved 1 0 (.ok .null) (get [.property "a", .index 0, .property "b"] updated) ∧
      get [.property "c"] updated = .ok (.bool true)) ∧
    (∃ updated, remove [.property "a", .index 1, .property "b"] twoElements = .ok updated ∧
      get [.property "a", .index 1] updated = .ok empty ∧
      get [.property "a", .index 1, .property "b"] updated = .error (.missingProperty "b")) ∧
    remove [.property "a", .index 2] twoElements = .error (.indexOutOfRange 2 2) := by
  refine ⟨?_, ?_, ?_⟩
  · obtain ⟨hiff, -, -, hframe⟩ :=
      @remove_frame [.property "a", .index 0] twoElements (List.cons_ne_nil _ _)
    obtain ⟨updated, h⟩ := hiff.2 ⟨_, rfl⟩
    obtain ⟨-, helement, helsewhere⟩ := hframe updated h
    obtain ⟨_, _, -, -, -, -, hmoved⟩ := helement [.property "a"] 0 rfl
    exact ⟨updated, h, hmoved 0 1 [.property "b"] (by decide) (by decide),
      helsewhere [.property "c"] (by decide +kernel)⟩
  · obtain ⟨hiff, -, -, hframe⟩ :=
      @remove_frame [.property "a", .index 1, .property "b"] twoElements (List.cons_ne_nil _ _)
    obtain ⟨updated, h⟩ := hiff.2 ⟨_, rfl⟩
    obtain ⟨entries, left, hbefore, hafter, -, rfl, -, hgone⟩ :=
      (hframe updated h).1 [.property "a", .index 1] "b" rfl
    cases hbefore
    exact ⟨updated, h, hafter, hgone⟩
  · exact ((remove_frame (List.cons_ne_nil _ _)).2.1 _).2 rfl

/-- What is left of the two elements without the first one. -/
def oneElement : Value :=
  .object [("a", .array [.object [("b", .null)]]), ("c", .bool true)]

/-- **Behind a removed element a failure is not the same one as before.**
Past the end it names the index that is asked for now, and how many
elements there are now; and an element that is no sequence is named by its
new index. -/
theorem remove_frame_renames_failures :
    remove [.property "a", .index 0] twoElements = .ok oneElement ∧
      get [.property "a", .index 2] twoElements = .error (.indexOutOfRange 2 2) ∧
      get [.property "a", .index 1] oneElement = .error (.indexOutOfRange 1 1) ∧
      get [.property "a", .index 1, .index 0] twoElements = .error (.notAnArray "[1]") ∧
      get [.property "a", .index 0, .index 0] oneElement = .error (.notAnArray "[0]") ∧
      get [.property "a", .index 1] oneElement ≠ get [.property "a", .index 2] twoElements := by
  have hthen : get [.property "a", .index 2] twoElements = .error (.indexOutOfRange 2 2) := rfl
  have hnow : get [.property "a", .index 1] oneElement = .error (.indexOutOfRange 1 1) := rfl
  have hone : Segment.text (.index 1) = "[1]" := by decide +kernel
  have hzero : Segment.text (.index 0) = "[0]" := by decide +kernel
  refine ⟨rfl, hthen, hnow, ?_, ?_, ?_⟩
  · rw [← hone]
    rfl
  · rw [← hzero]
    rfl
  · rw [hthen, hnow]
    intro h
    have hcause := Except.error.inj h
    exact absurd hcause (by decide)

/-! ## Removing what was stored -/

/-- **The next place of a container**: a name that a mapping does not have,
or the index at the end of a sequence. -/
inductive IsNext : Segment → Value → Prop
  | name {name : String} {entries : Entries} (h : name ∉ Entries.names entries) :
    IsNext (.property name) (.object entries)
  | element {n : UInt64} {items : List Value} (h : n.toNat = items.length) :
    IsNext (.index n) (.array items)

/-- What is stored in the next place of a container can be taken out of
it. -/
theorem IsNext.exists_dropChild? (h : IsNext s w) :
    ∃ grown, setFrom previous [s] x w = .ok grown ∧ grown.dropChild? s = some w := by
  cases h with
  | @name name entries hname =>
    refine ⟨.object (Entries.insert name x entries), rfl, dropChild?_eq_some.2 (.inl ?_)⟩
    refine ⟨name, _, rfl, rfl, ?_, by rw [Entries.erase_insert hname]⟩
    rw [Entries.mem_names_iff, Entries.find?_insert, if_pos rfl]
    exact ⟨x, rfl⟩
  | @element n items hn =>
    have htaken : refusal? previous (.index n) (.array items) = none := by
      rw [refusal?, hn, if_neg (by unfold paddingLimit; omega)]
    refine ⟨_, setFrom_cons_eq_ok.2 ⟨htaken, x, rfl, rfl⟩, dropChild?_eq_some.2 (.inr ?_)⟩
    refine ⟨n, _, rfl, rfl, ?_, ?_⟩
    · rw [List.length_set, List.length_append, List.length_replicate]
      omega
    · have hone : items.length + 1 - items.length = 1 := by omega
      rw [hn, hone, List.replicate_one, List.set_append_right _ _ (Nat.le_refl _),
        List.eraseIdx_append_of_length_le (Nat.le_refl _), Nat.sub_self]
      simp

/-- **Removing undoes an insertion.** -/
theorem remove_set_of_isNext (hx : x.isNull = false) (hw : get parent config = .ok w)
    (hs : IsNext s w) : ∃ updated, set (parent ++ [s]) x config = .ok updated ∧
      remove (parent ++ [s]) updated = .ok config := by
  have hlookup := get_eq_ok.1 hw
  have hnull : w.isNull = false := by cases hs <;> rfl
  have hconfig : config.isNull = false := by
    by_cases hp : parent = []
    · subst hp
      cases hlookup
      exact hnull
    · exact isNull_of_lookup? hlookup hp
  obtain ⟨grown, hgrown, hdrop⟩ : ∃ grown, setFrom parent.getLast? [s] x.stored w = .ok grown ∧
      grown.dropChild? s = some w := hs.exists_dropChild?
  obtain ⟨updated, hset⟩ := exists_setFrom_of_lookup? (x := grown) none hlookup
  refine ⟨updated, ?_, remove_concat_eq_ok.2 ⟨grown, w, lookup?_setFrom hset, hdrop, ?_⟩⟩
  · rw [set_eq_setFrom hconfig hx (List.concat_ne_nil _ _), setFrom_append hlookup fun _ => hnull,
      Option.or_none, hgrown]
    exact hset
  · -- the grown container is forgotten, and the one that was there is put back
    rw [setFrom_setFrom hset]
    exact setFrom_of_lookup? hlookup

/-- A name that is new in a mapping, and an index at the end of a
sequence that is empty. -/
theorem remove_set_of_isNext_below :
    (∃ updated, set [.property "a", .index 1, .property "c"] (.string "[1]") twoElements =
        .ok updated ∧
      remove [.property "a", .index 1, .property "c"] updated = .ok twoElements) ∧
    ∃ updated, set [.property "a", .index 0] (.bool true) (.object [("a", .array [])]) =
        .ok updated ∧
      remove [.property "a", .index 0] updated = .ok (.object [("a", .array [])]) := by
  have hmapping : get [.property "a", .index 1] twoElements = .ok (.object [("b", .null)]) := rfl
  have hsequence : get [.property "a"] (.object [("a", .array [])]) = .ok (.array []) := rfl
  have hname : IsNext (.property "c") (.object [("b", .null)]) := .name (by decide)
  have helement : IsNext (.index 0) (.array []) := .element rfl
  exact ⟨remove_set_of_isNext rfl hmapping hname, remove_set_of_isNext rfl hsequence helement⟩

end Value

end ConfigPatch
