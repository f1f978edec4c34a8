import ConfigPatch.Proofs.Value.Refusal

/-!
# Storing where something is stored

What was stored at a path is forgotten when something else is stored
there, and storing again what is read at a path changes nothing. Of two
paths that lead to different places either may be stored first. All of it
holds of the tree with the order of its names.

A path to something can be taken apart: storing at the end of it is
storing in what its front leads to, and putting that back.
-/

namespace ConfigPatch

variable {entries : Entries} {name other : String} {s t : Segment} {previous : Option Segment}
variable {p q rest : Path} {v w x y a b updated config : Value}

/-! ## Entries -/

theorem Entries.insert_insert : insert name y (insert name x entries) = insert name y entries := by
  induction entries with
  | nil => simp [insert]
  | cons entry rest ih =>
    obtain ⟨key, value⟩ := entry
    by_cases hkey : key = name
    · simp [insert, hkey]
    · simp [insert, hkey, ih]

theorem Entries.insert_of_find? (h : find? name entries = some x) :
    insert name x entries = entries := by
  induction entries with
  | nil => cases h
  | cons entry rest ih =>
    obtain ⟨key, value⟩ := entry
    by_cases hkey : key = name
    · simp_all [insert, find?]
    · rw [find?, if_neg hkey] at h
      rw [insert, if_neg hkey, ih h]

/-- Two names are given values in either order, unless both are new. -/
theorem Entries.insert_comm (hne : name ≠ other) (h : name ∈ names entries) :
    insert other y (insert name x entries) = insert name x (insert other y entries) := by
  induction entries with
  | nil => cases h
  | cons entry rest ih =>
    obtain ⟨key, value⟩ := entry
    by_cases hname : key = name
    · simp [insert, hname, hne]
    · have hrest : name ∈ names rest := (List.mem_cons.1 h).resolve_left (Ne.symm hname)
      by_cases hother : key = other
      · simp [insert, hother, hne.symm]
      · simp [insert, hname, hother, ih hrest]

namespace Value

/-! ## One step below a value -/

theorem putChild_putChild : (v.putChild s x).putChild s y = v.putChild s y := by
  cases s with
  | property name =>
    cases v with
    | null | bool | number | string | array => rfl
    | object entries => exact congrArg object Entries.insert_insert
  | index n =>
    cases v with
    | null | bool | number | string | object => rfl
    | array items => exact congrArg array (List.set_set _)

/-- To put back what is there changes nothing. -/
theorem putChild_of_below? (h : v.below? s = some x) : v.putChild s x = v := by
  rcases below?_eq_some.1 h with ⟨name, entries, rfl, rfl, hfind⟩ | ⟨n, items, rfl, rfl, hget⟩
  · exact congrArg object (Entries.insert_of_find? hfind)
  · obtain ⟨hlt, rfl⟩ := List.getElem?_eq_some_iff.1 hget
    exact congrArg array (List.set_getElem_self hlt)

/-- Two segments are put in either order, where one of them leads to
something. -/
theorem putChild_comm (hst : s ≠ t) (h : v.below? s = some w) :
    (v.putChild s x).putChild t y = (v.putChild t y).putChild s x := by
  rcases below?_eq_some.1 h with ⟨name, entries, rfl, rfl, hfind⟩ | ⟨n, items, rfl, rfl, -⟩
  · cases t with
    | index m => rfl
    | property other =>
      have hne : name ≠ other := fun heq => hst (congrArg _ heq)
      exact congrArg object (Entries.insert_comm hne (Entries.mem_names_iff.2 ⟨w, hfind⟩))
  · cases t with
    | property other => rfl
    | index m =>
      have hne : n.toNat ≠ m.toNat := fun heq => hst (congrArg _ (UInt64.toNat_inj.1 heq))
      exact congrArg array (List.set_comm _ _ hne)

/-- A value put below a segment that leads to something is there. -/
theorem below?_putChild_of_below? (h : v.below? s = some w) :
    (v.putChild s x).below? s = some x := by
  have htaken : refusal? none s v = none := refusal?_of_below? h
  have hself : ((v.filled s empty).putChild s x).below? s = some x := below?_putChild_self htaken
  rw [filled_of_below? h] at hself
  exact hself

/-- Storing below a segment whose value was just put there puts another
one in its place. -/
theorem setFrom_cons_putChild (h : v.below? s = some w) (ha : rest ≠ [] → a.isNull = false)
    (hinner : setFrom (some s) rest x a = .ok b) :
    setFrom previous (s :: rest) x (v.putChild s a) = .ok (v.putChild s b) := by
  rw [setFrom_cons_eq_ok_of_below? (below?_putChild_of_below? h) ha hinner, putChild_putChild]

/-! ## Storing along a path -/

/-- What is stored below a segment is a mapping or a sequence. -/
theorem isNull_of_setFrom (h : setFrom previous p x v = .ok updated) (hp : p ≠ []) :
    updated.isNull = false := by
  obtain ⟨s, rest, rfl⟩ := List.exists_cons_of_ne_nil hp
  obtain ⟨htaken, inner, -, rfl⟩ := setFrom_cons_eq_ok.1 h
  exact isNull_of_below? (below?_putChild_self htaken)

/-- **What was stored at the path is forgotten**, and with it whether the
way there had to be made. -/
theorem setFrom_setFrom (h : setFrom previous p x v = .ok updated) :
    setFrom previous p y updated = setFrom previous p y v := by
  induction p generalizing previous v updated with
  | nil => rfl
  | cons s rest ih =>
    obtain ⟨htaken, inner, hinner, rfl⟩ := setFrom_cons_eq_ok.1 h
    have hput : ((v.filled s (padding rest)).putChild s inner).putChild s =
        (v.filled s (padding rest)).putChild s := funext fun z => putChild_putChild
    rw [setFrom_cons_of_below? (below?_putChild_self htaken) (isNull_of_setFrom hinner),
      ih hinner, hput, setFrom_cons_eq, htaken]

/-- **Storing what is there** changes nothing. -/
theorem setFrom_of_lookup? (h : lookup? p v = some x) : setFrom previous p x v = .ok v := by
  induction p generalizing previous v with
  | nil =>
    cases h
    rfl
  | cons s rest ih =>
    obtain ⟨w, hw, hx⟩ := Option.bind_eq_some_iff.1 h
    rw [setFrom_cons_eq_ok_of_below? hw (isNull_of_lookup? hx) (ih hx), putChild_of_below? hw]

/-- A path to something takes something else. -/
theorem exists_setFrom_of_lookup? (previous : Option Segment) (h : lookup? p v = some a) :
    ∃ updated, setFrom previous p x v = .ok updated := by
  induction p generalizing previous v with
  | nil => exact ⟨x, rfl⟩
  | cons s rest ih =>
    obtain ⟨w, hw, ha⟩ := Option.bind_eq_some_iff.1 h
    obtain ⟨inner, hinner⟩ := ih (some s) ha
    exact ⟨_, setFrom_cons_eq_ok_of_below? hw (isNull_of_lookup? ha) hinner⟩

/-- **A path taken apart**: what its front leads to is stored in, and put
back. -/
theorem setFrom_append (h : lookup? p v = some w) (hw : q ≠ [] → w.isNull = false) :
    setFrom previous (p ++ q) x v =
      setFrom (p.getLast?.or previous) q x w >>= fun inner => setFrom previous p inner v := by
  induction p generalizing previous v with
  | nil =>
    cases h
    exact (bind_pure _).symm
  | cons s rest ih =>
    obtain ⟨z, hz, hrest⟩ := Option.bind_eq_some_iff.1 h
    have hnull : rest ++ q ≠ [] → z.isNull = false := by
      intro hne
      by_cases hnil : rest = []
      · subst hnil
        cases hrest
        exact hw hne
      · exact isNull_of_lookup? hrest hnil
    have hput (inner : Value) : setFrom previous (s :: rest) inner v =
        (setFrom (some s) rest inner z).map (v.putChild s) :=
      setFrom_cons_of_below? hz (isNull_of_lookup? hrest)
    rw [List.cons_append, setFrom_cons_of_below? hz hnull, ih hrest, Path.getLast?_cons_or]
    simp only [hput]
    cases setFrom (rest.getLast?.or (some s)) q x w <;> rfl

/-- **Paths to different places**: either may be stored first. -/
theorem setFrom_comm (previous : Option Segment) (hp : lookup? p v = some a)
    (hq : lookup? q v = some b) (hpq : p.Diverges q) : ∃ first second both,
      setFrom previous p x v = .ok first ∧ setFrom previous q y v = .ok second ∧
      setFrom previous q y first = .ok both ∧ setFrom previous p x second = .ok both := by
  induction p generalizing previous v q with
  | nil => exact absurd rfl hpq.ne_nil.1
  | cons s p ih =>
    obtain ⟨t, q, rfl⟩ := List.exists_cons_of_ne_nil hpq.ne_nil.2
    obtain ⟨z, hz, ha⟩ := Option.bind_eq_some_iff.1 hp
    obtain ⟨z', hz', hb⟩ := Option.bind_eq_some_iff.1 hq
    have hznull := isNull_of_lookup? ha
    have hznull' := isNull_of_lookup? hb
    rw [Path.diverges_cons_iff] at hpq
    by_cases hst : s = t
    · -- both are stored in what stands below the segment, and that is put back
      subst hst
      cases hz.symm.trans hz'
      obtain ⟨hpne, hqne⟩ := (hpq rfl).ne_nil
      obtain ⟨first, second, both, hfirst, hsecond, hthen, helse⟩ := ih (some s) ha hb (hpq rfl)
      have hfirstnull := isNull_of_setFrom hfirst hpne
      have hsecondnull := isNull_of_setFrom hsecond hqne
      refine ⟨v.putChild s first, v.putChild s second, v.putChild s both, ?_, ?_, ?_, ?_⟩
      · exact setFrom_cons_eq_ok_of_below? hz hznull hfirst
      · exact setFrom_cons_eq_ok_of_below? hz hznull' hsecond
      · exact setFrom_cons_putChild hz (fun _ => hfirstnull) hthen
      · exact setFrom_cons_putChild hz (fun _ => hsecondnull) helse
    · -- each leaves alone what the other one replaces
      obtain ⟨inner, hinner⟩ := exists_setFrom_of_lookup? (x := x) (some s) ha
      obtain ⟨inner', hinner'⟩ := exists_setFrom_of_lookup? (x := y) (some t) hb
      have hkept : (v.putChild s inner).below? t = some z' := by
        rw [below?_putChild_of_ne hst, hz']
      have hkept' : (v.putChild t inner').below? s = some z := by
        rw [below?_putChild_of_ne (Ne.symm hst), hz]
      refine ⟨v.putChild s inner, v.putChild t inner', (v.putChild s inner).putChild t inner',
        ?_, ?_, ?_, ?_⟩
      · exact setFrom_cons_eq_ok_of_below? hz hznull hinner
      · exact setFrom_cons_eq_ok_of_below? hz' hznull' hinner'
      · exact setFrom_cons_eq_ok_of_below? hkept hznull' hinner'
      · rw [putChild_comm hst hz]
        exact setFrom_cons_eq_ok_of_below? hkept' hznull hinner

/-! ## Storing a value -/

/-- **The laws of overwriting.** A second value stored at a path is stored
as if the first one had never been there, and if the first one is refused
then the second one is, for the same cause. To store what is read at a
path, if it is stored as it is, changes nothing. -/
theorem set_overwrites (hx : x.isNull = false) (hy : y.isNull = false) :
    (∀ updated, set p x config = .ok updated → set p y updated = set p y config) ∧
    (∀ cause, set p x config = .error cause → set p y config = .error cause) ∧
    ∀ z, p ≠ [] → get p config = .ok z → z.isNull = false → z.stored = z →
      set p z config = .ok config := by
  refine ⟨fun updated h => ?_, fun cause h => ?_, fun z hp hget hz hstored => ?_⟩
  · obtain ⟨hconfig, -, hp, h⟩ := set_eq_ok.1 h
    rw [set_eq_setFrom (isNull_of_setFrom h hp) hy hp, set_eq_setFrom hconfig hy hp]
    exact setFrom_setFrom h
  · -- what is refused, and for what cause, is settled before the value is looked at
    cases hconfig : config.isNull with
    | true =>
      rw [set, hconfig] at h ⊢
      exact h
    | false =>
      by_cases hp : p = []
      · rw [set, hconfig, hy, hp]
        rw [set, hconfig, hx, hp] at h
        exact h
      · rw [set_eq_setFrom hconfig hx hp, setFrom_eq_error_iff hconfig] at h
        rw [set_eq_setFrom hconfig hy hp, setFrom_eq_error_iff hconfig]
        exact h
  · have hlookup := get_eq_ok.1 hget
    rw [set_eq_setFrom (isNull_of_lookup? hlookup hp) hz hp, hstored]
    exact setFrom_of_lookup? hlookup

/-- A null on the way is made a sequence once, a cause stays a cause, and
a text that spells nothing is put back as it is. -/
theorem set_overwrites_of_null :
    set [.property "a", .index 2, .property "b"] (.string "[]")
        (.object [("a", .array [empty, empty, .object [("b", .bool true)]]), ("c", .null)]) =
      set [.property "a", .index 2, .property "b"] (.string "[]")
        (.object [("a", .null), ("c", .null)]) ∧
    set [.property "c", .index 0] (.string "x") (.object [("c", .bool true)]) =
      .error (.notAnArray "c") ∧
    set [.property "c", .index 1] (.string "x") (.object [("c", .array [.null, .string "x"])]) =
      .ok (.object [("c", .array [.null, .string "x"])]) := by
  have hfirst : (Value.bool true).isNull = false := rfl
  have hsecond (text : String) : (Value.string text).isNull = false := rfl
  exact ⟨(set_overwrites hfirst (hsecond "[]")).1 _ rfl,
    (set_overwrites hfirst (hsecond "x")).2.1 _ rfl,
    (set_overwrites hfirst (hsecond "x")).2.2 _ (List.cons_ne_nil _ _) rfl rfl rfl⟩

/-- **Independent places.** Two paths of which neither leads through the
end of the other, and which both lead to something, take their values in
either order, with the same tree in the end. -/
theorem set_comm (hx : x.isNull = false) (hy : y.isNull = false) (hp : get p config = .ok a)
    (hq : get q config = .ok b) (hpq : p.Diverges q) : ∃ first second both,
      set p x config = .ok first ∧ set q y config = .ok second ∧
      set q y first = .ok both ∧ set p x second = .ok both := by
  have hlookup := get_eq_ok.1 hp
  obtain ⟨hpne, hqne⟩ := hpq.ne_nil
  have hconfig := isNull_of_lookup? hlookup hpne
  obtain ⟨first, second, both, hfirst, hsecond, hthen, helse⟩ :=
    setFrom_comm (x := x.stored) (y := y.stored) none hlookup (get_eq_ok.1 hq) hpq
  refine ⟨first, second, both, ?_, ?_, ?_, ?_⟩
  · rw [set_eq_setFrom hconfig hx hpne, hfirst]
  · rw [set_eq_setFrom hconfig hy hqne, hsecond]
  · rw [set_eq_setFrom (isNull_of_setFrom hfirst hpne) hy hqne, hthen]
  · rw [set_eq_setFrom (isNull_of_setFrom hsecond hqne) hx hpne, helse]

/-- The paths part at an index, and one of them leads on. -/
theorem set_comm_of_elements : ∃ first second both,
    set [.property "a", .index 0] (.string "x")
      (.object [("a", .array [.null, .object [("b", .null), ("c", .null)]])]) = .ok first ∧
    set [.property "a", .index 1, .property "c"] (.bool true)
      (.object [("a", .array [.null, .object [("b", .null), ("c", .null)]])]) = .ok second ∧
    set [.property "a", .index 1, .property "c"] (.bool true) first = .ok both ∧
    set [.property "a", .index 0] (.string "x") second = .ok both :=
  set_comm rfl rfl rfl rfl (by decide +kernel)

end Value

end ConfigPatch
