import ConfigPatch.Proofs.Value.Overwrite
import Mathlib.Data.List.Chain

/-!
# Trees made from a path

A path laid out as a tree has the containers that its segments go into, the
value at its end, and a filling in front of each index. `build` lays out a
path with null as the filling. All that it meets on its way is a container
that it has just made for the next segment, so every segment has a slot,
and an index past the limit is all that is refused.

Storing in an empty container lays out the path as well. But a sequence
that the path leads through is filled up with empty mappings, and no
sequence is made for an index that follows an index.
-/

namespace ConfigPatch.Value

variable {v w x y built updated fill : Value} {s t : Segment} {previous : Option Segment}
variable {p rest whole : Path} {cause : Error} {filling filling' : Path → Value}

/-! ## Paths laid out -/

/-- A container with one value in it, below a segment. -/
def single (fill : Value) (s : Segment) (inner : Value) : Value :=
  match s with
  | .property name => .object [(name, inner)]
  | .index n => .array (List.replicate n.toNat fill ++ [inner])

/-- **A path laid out as a tree**, with a value at its end. What stands in
front of an index may depend on the segments behind it. -/
def laidOut (filling : Path → Value) (x : Value) : Path → Value
  | [] => x
  | s :: rest => single (filling rest) s (laidOut filling x rest)

theorem below?_single : (single fill s x).below? s = some x := by
  cases s with
  | property name => simp [single, below?, Entries.find?]
  | index n => simp [single, below?]

theorem putChild_single : (single fill s x).putChild s y = single fill s y := by
  cases s with
  | property name => simp [single, putChild, Entries.insert]
  | index n => simp [single, putChild, List.set_append_right]

theorem lookup?_laidOut : lookup? p (laidOut filling x p) = some x := by
  induction p with
  | nil => rfl
  | cons s rest ih =>
    rw [laidOut, lookup?, below?_single, Option.bind_some]
    exact ih

/-- Another value at the end of a path is another layout of the path. -/
theorem setFrom_laidOut :
    setFrom previous p y (laidOut filling x p) = .ok (laidOut filling y p) := by
  induction p generalizing previous with
  | nil => rfl
  | cons s rest ih =>
    have hnull : rest ≠ [] → (laidOut filling x rest).isNull = false :=
      isNull_of_lookup? lookup?_laidOut
    rw [laidOut, setFrom_cons_eq_ok_of_below? below?_single hnull ih, putChild_single]
    rfl

/-- Only what stands in front of an index above zero is filling. -/
theorem laidOut_congr
    (h : ∀ before n after, p = before ++ .index n :: after → n = 0 ∨ filling after = filling' after) :
    laidOut filling x p = laidOut filling' x p := by
  induction p with
  | nil => rfl
  | cons s rest ih =>
    have hrest : laidOut filling x rest = laidOut filling' x rest :=
      ih fun before n after hp => h (s :: before) n after (congrArg (s :: ·) hp)
    rw [laidOut, laidOut, hrest]
    cases s with
    | property name => rfl
    | index n =>
      rcases h [] n rest rfl with rfl | heq
      · rfl
      · rw [heq]

/-! ## New containers -/

/-- The container that a path starts in, with nothing in it. -/
def root (p : Path) : Value :=
  p.head?.elim empty freshFor

/-- **All that a new container refuses** is an index past the limit. -/
theorem refusal?_freshFor : refusal? previous s (freshFor s) = some cause ↔
    ∃ n, s = .index n ∧ paddingLimit ≤ n.toNat ∧ cause = .indexOutOfRange n 0 := by
  cases s with
  | property name => simp [refusal?, freshFor, empty]
  | index n =>
    rw [freshFor, refusal?]
    constructor
    · intro h
      split at h
      · rename_i hlt
        cases h
        exact ⟨n, rfl, Nat.le_of_lt_succ hlt, rfl⟩
      · cases h
    · rintro ⟨m, hm, hle, rfl⟩
      cases hm
      exact if_pos (Nat.lt_succ_of_le hle)

theorem lt_of_refusal?_freshFor {n : UInt64}
    (h : refusal? previous (.index n) (freshFor (.index n)) = none) : n.toNat < paddingLimit := by
  rcases Nat.lt_or_ge n.toNat paddingLimit with hlt | hge
  · exact hlt
  · have hsome : refusal? previous (.index n) (freshFor (.index n)) =
        some (.indexOutOfRange n 0) := refusal?_freshFor.2 ⟨n, rfl, hge, rfl⟩
    rw [hsome] at h
    cases h

/-- A value in a new container is all that is in it. -/
theorem putChild_freshFor : ((freshFor s).filled s fill).putChild s x = single fill s x := by
  cases s with
  | property name => rfl
  | index n =>
    simp only [freshFor, filled, putChild, single, List.nil_append, List.length_nil, Nat.sub_zero]
    rw [List.replicate_succ', List.set_append_right _ _ (by simp)]
    simp

/-! ## Building -/

/-- **One step of building**, in a container made for the segment. -/
theorem buildIn_cons : buildIn whole (s :: rest) x (freshFor s) =
    match refusal? none s (freshFor s) with
    | some e => .error e
    | none => (buildIn whole rest x (root rest)).map (single .null s) := by
  -- the slot of the segment is new, and what it holds is replaced
  have hnext : buildIn whole rest x (containerIn .null rest) = buildIn whole rest x (root rest) := by
    cases rest with
    | nil => rfl
    | cons next rest => cases next <;> rfl
  cases s with
  | property name =>
    change (buildIn whole rest x (containerIn .null rest) >>= _) = _
    rw [hnext]
    cases buildIn whole rest x (root rest) <;> rfl
  | index n =>
    have hrefusal : refusal? none (.index n) (freshFor (.index n)) =
        if paddingLimit < n.toNat + 1 - ([] : List Value).length then
          some (.indexOutOfRange n 0)
        else none := rfl
    change (fillUp .null n [] >>= _) = _
    rw [fillUp_eq, hrefusal]
    by_cases hfar : paddingLimit < n.toNat + 1 - ([] : List Value).length
    · rw [if_pos hfar, if_pos hfar]
      rfl
    · have hslot : ([] ++ List.replicate (n.toNat + 1 - 0) Value.null)[n.toNat]?.getD .null =
          .null := by simp
      rw [if_neg hfar, if_neg hfar]
      change (buildIn whole rest x (containerIn
        (([] ++ List.replicate (n.toNat + 1 - 0) Value.null)[n.toNat]?.getD .null) rest) >>= _) = _
      rw [hslot, hnext]
      cases buildIn whole rest x (root rest) with
      | error cause => rfl
      | ok inner => exact congrArg Except.ok (putChild_freshFor (s := .index n))

theorem buildIn_cons_eq_ok : buildIn whole (s :: rest) x (freshFor s) = .ok built ↔
    refusal? none s (freshFor s) = none ∧
      ∃ inner, buildIn whole rest x (root rest) = .ok inner ∧ built = single .null s inner := by
  rw [buildIn_cons]
  cases refusal? none s (freshFor s) with
  | some e => simp
  | none => cases buildIn whole rest x (root rest) <;> simp [Except.map, eq_comm]

theorem buildIn_cons_eq_error : buildIn whole (s :: rest) x (freshFor s) = .error cause ↔
    refusal? none s (freshFor s) = some cause ∨
      refusal? none s (freshFor s) = none ∧ buildIn whole rest x (root rest) = .error cause := by
  rw [buildIn_cons]
  cases refusal? none s (freshFor s) with
  | some e => simp
  | none => cases buildIn whole rest x (root rest) <;> simp [Except.map]

/-- Whether every index of a path is one that a new sequence can be filled
up to. -/
def InReach (p : Path) : Prop :=
  ∀ n, Segment.index n ∈ p → n.toNat < paddingLimit

theorem inReach_cons_iff (previous : Option Segment) : InReach (s :: rest) ↔
    refusal? previous s (freshFor s) = none ∧ InReach rest := by
  constructor
  · intro h
    refine ⟨Option.eq_none_iff_forall_ne_some.2 fun cause hcause => ?_, fun n hn => ?_⟩
    · obtain ⟨n, rfl, hfar, -⟩ := refusal?_freshFor.1 hcause
      exact absurd (h n List.mem_cons_self) (Nat.not_lt.2 hfar)
    · exact h n (List.mem_cons_of_mem _ hn)
  · rintro ⟨hnone, hrest⟩ n hn
    rcases List.mem_cons.1 hn with rfl | hn
    · exact lt_of_refusal?_freshFor hnone
    · exact hrest n hn

/-- **Building succeeds** where all indices are in reach, and lays out the
path. -/
theorem buildIn_eq_ok : buildIn whole p x (root p) = .ok built ↔
    InReach p ∧ built = laidOut (fun _ => .null) x p := by
  induction p generalizing built with
  | nil =>
    constructor
    · intro h
      cases h
      exact ⟨fun n hn => absurd hn List.not_mem_nil, rfl⟩
    · rintro ⟨-, rfl⟩
      rfl
  | cons s rest ih =>
    change buildIn whole (s :: rest) x (freshFor s) = .ok built ↔ _
    rw [buildIn_cons_eq_ok, inReach_cons_iff none, and_assoc]
    refine and_congr_right fun _ => ?_
    simp only [ih]
    constructor
    · rintro ⟨inner, ⟨hreach, rfl⟩, rfl⟩
      exact ⟨hreach, rfl⟩
    · rintro ⟨hreach, rfl⟩
      exact ⟨_, ⟨hreach, rfl⟩, rfl⟩

/-- **Building fails** at the first index that is out of reach. -/
theorem buildIn_eq_error : buildIn whole p x (root p) = .error cause ↔
    ∃ before n after, p = before ++ .index n :: after ∧ InReach before ∧
      paddingLimit ≤ n.toNat ∧ cause = .indexOutOfRange n 0 := by
  induction p with
  | nil =>
    constructor
    · intro h
      cases h
    · rintro ⟨before, n, after, h, -⟩
      cases before <;> cases h
  | cons s rest ih =>
    change buildIn whole (s :: rest) x (freshFor s) = .error cause ↔ _
    rw [buildIn_cons_eq_error, ih]
    constructor
    · rintro (hcause | ⟨hnone, before, n, after, rfl, hreach, hfar, rfl⟩)
      · obtain ⟨n, rfl, hfar, rfl⟩ := refusal?_freshFor.1 hcause
        exact ⟨[], n, rest, rfl, fun m hm => absurd hm List.not_mem_nil, hfar, rfl⟩
      · exact ⟨s :: before, n, after, rfl, (inReach_cons_iff none).2 ⟨hnone, hreach⟩, hfar, rfl⟩
    · rintro ⟨before, n, after, hp, hreach, hfar, rfl⟩
      cases before with
      | nil =>
        cases hp
        exact .inl (refusal?_freshFor.2 ⟨n, rfl, hfar, rfl⟩)
      | cons b before =>
        obtain ⟨rfl, hrest⟩ := List.cons.inj hp
        obtain ⟨hnone, hreach⟩ := (inReach_cons_iff none).1 hreach
        exact .inr ⟨hnone, before, n, after, hrest, hreach, hfar, rfl⟩

theorem build_eq_buildIn (hp : p ≠ []) : build p v = buildIn p p v.stored (root p) := by
  obtain ⟨s, rest, rfl⟩ := List.exists_cons_of_ne_nil hp
  rfl

/-- **What building makes.** It succeeds where every index is below the
limit, and otherwise reports the first one that is not; no segment is ever
without a slot. What it makes is the path laid out, with null in front of
every index, so that the value is read at the path. -/
theorem build_lays_out (hp : p ≠ []) :
    ((∃ built, build p v = .ok built) ↔ ∀ n, Segment.index n ∈ p → n.toNat < paddingLimit) ∧
    (∀ cause, build p v = .error cause ↔ ∃ before n after, p = before ++ .index n :: after ∧
      (∀ m, Segment.index m ∈ before → m.toNat < paddingLimit) ∧
      paddingLimit ≤ n.toNat ∧ cause = .indexOutOfRange n 0) ∧
    (∀ text fault, build p v ≠ .error (.malformedPath text fault)) ∧
    ∀ built, build p v = .ok built →
      built = laidOut (fun _ => .null) v.stored p ∧ get p built = .ok v.stored := by
  simp only [build_eq_buildIn hp]
  refine ⟨?_, fun cause => buildIn_eq_error, fun text fault h => ?_, fun built h => ?_⟩
  · constructor
    · rintro ⟨built, h⟩
      exact (buildIn_eq_ok.1 h).1
    · intro h
      exact ⟨_, buildIn_eq_ok.2 ⟨h, rfl⟩⟩
  · obtain ⟨before, n, after, -, -, -, hcause⟩ := buildIn_eq_error.1 h
    cases hcause
  · obtain ⟨-, rfl⟩ := buildIn_eq_ok.1 h
    exact ⟨rfl, get_eq_ok.2 lookup?_laidOut⟩

/-- The containers follow the segments behind them, and the first of two
indices that are out of reach is reported. -/
theorem build_lays_out_elements :
    build [.index 1, .property "a", .index 0, .index 2] (.bool true) =
      .ok (.array [.null, .object [("a", .array [.array [.null, .null, .bool true]])]]) ∧
    get [.index 1, .property "a", .index 0, .index 2]
      (.array [.null, .object [("a", .array [.array [.null, .null, .bool true]])]]) =
      .ok (.bool true) ∧
    build [.property "a", .index 65536, .index 70000] .null =
      .error (.indexOutOfRange 65536 0) := by
  have hbuilt : build [.index 1, .property "a", .index 0, .index 2] (.bool true) =
      .ok (.array [.null, .object [("a", .array [.array [.null, .null, .bool true]])]]) := rfl
  refine ⟨hbuilt, ((build_lays_out (List.cons_ne_nil _ _)).2.2.2 _ hbuilt).2, ?_⟩
  exact ((build_lays_out (List.cons_ne_nil _ _)).2.1 _).2
    ⟨[.property "a"], 65536, [.index 70000], rfl, by simp, by decide, rfl⟩

/-! ## Storing in an empty container -/

/-- No index of the path follows an index. -/
def IndicesApart (p : Path) : Prop :=
  p.IsChain fun s t => ¬ (s.isIndex ∧ t.isIndex)

/-- The container that is made behind a segment is the one that the next
segment needs, except for an index behind an index. -/
theorem setFrom_freshAfter :
    setFrom (some s) rest x (rest.head?.elim empty (freshAfter (some s))) = .ok w ↔
      (∀ t ∈ rest.head?, ¬ (s.isIndex ∧ t.isIndex)) ∧
        setFrom (some s) rest x (root rest) = .ok w := by
  cases rest with
  | nil => simp [setFrom]
  | cons t rest =>
    cases s with
    | property name => cases t <;> simp [root, freshAfter, freshFor, Segment.isIndex]
    | index n =>
      cases t with
      | property name => simp [root, freshAfter, freshFor, Segment.isIndex]
      | index m => simp [setFrom, freshAfter, empty, Segment.isIndex]

theorem setFrom_root_cons : setFrom previous (s :: rest) x (root (s :: rest)) = .ok updated ↔
    refusal? previous s (freshFor s) = none ∧
      ∃ inner, setFrom (some s) rest x (rest.head?.elim empty (freshAfter (some s))) = .ok inner ∧
        updated = single (padding rest) s inner := by
  have hslot : (freshFor s).slot s rest = rest.head?.elim empty (freshAfter (some s)) := by
    cases s <;> rfl
  change setFrom previous (s :: rest) x (freshFor s) = .ok updated ↔ _
  rw [setFrom_cons_eq_ok, hslot]
  simp only [putChild_freshFor]

/-- **Storing in an empty container** lays out the path, with an empty
mapping in front of an index that the path does not end with. -/
theorem setFrom_root_eq_ok : setFrom previous p x (root p) = .ok updated ↔
    InReach p ∧ IndicesApart p ∧ updated = laidOut padding x p := by
  induction p generalizing previous updated with
  | nil =>
    constructor
    · intro h
      cases h
      exact ⟨fun n hn => absurd hn List.not_mem_nil, List.isChain_nil, rfl⟩
    · rintro ⟨-, -, rfl⟩
      rfl
  | cons s rest ih =>
    rw [setFrom_root_cons, inReach_cons_iff previous, and_assoc]
    refine and_congr_right fun _ => ?_
    unfold IndicesApart
    simp only [setFrom_freshAfter, ih, List.isChain_cons]
    constructor
    · rintro ⟨inner, ⟨hnext, hreach, hapart, rfl⟩, rfl⟩
      exact ⟨hreach, ⟨hnext, hapart⟩, rfl⟩
    · rintro ⟨hreach, ⟨hnext, hapart⟩, rfl⟩
      exact ⟨_, ⟨hnext, hreach, hapart, rfl⟩, rfl⟩

theorem isNull_root : (root p).isNull = false := by
  rcases p with _ | ⟨_ | _, rest⟩ <;> rfl

/-- **Building and storing.** In an empty container a value is stored where
it can be built and no index follows an index. The two trees differ in what
stands in front of an index that the path goes on behind: null where it is
built, and an empty mapping where it is stored. To store a value where
another was built is to build it there. -/
theorem set_root (hv : v.isNull = false) :
    ((∃ updated, set p v (root p) = .ok updated) ↔
      (∃ built, build p v = .ok built) ∧ IndicesApart p) ∧
    (∀ built updated, build p v = .ok built → set p v (root p) = .ok updated →
      built = laidOut (fun _ => .null) v.stored p ∧ updated = laidOut padding v.stored p ∧
      ((∀ before n t after, p = before ++ .index n :: t :: after → n = 0) → built = updated)) ∧
    ∀ w built, build p w = .ok built → set p v built = build p v := by
  by_cases hp : p = []
  · -- neither makes anything at the empty path
    subst hp
    have hset (updated : Value) : set [] v (root []) ≠ .ok updated := by
      simp [set, hv, isNull_root]
    have hbuild (w built : Value) : build [] w ≠ .ok built := by
      intro h
      cases h
    refine ⟨⟨?_, ?_⟩, fun _ _ h => (hbuild _ _ h).elim, fun _ _ h => (hbuild _ _ h).elim⟩
    · rintro ⟨updated, h⟩
      exact (hset updated h).elim
    · rintro ⟨⟨built, h⟩, -⟩
      exact (hbuild v built h).elim
  rw [set_eq_setFrom isNull_root hv hp]
  simp only [build_eq_buildIn hp, setFrom_root_eq_ok, buildIn_eq_ok]
  refine ⟨?_, ?_, ?_⟩
  · constructor
    · rintro ⟨updated, hreach, hapart, -⟩
      exact ⟨⟨_, hreach, rfl⟩, hapart⟩
    · rintro ⟨⟨built, hreach, -⟩, hapart⟩
      exact ⟨_, hreach, hapart, rfl⟩
  · rintro built updated ⟨-, rfl⟩ ⟨-, -, rfl⟩
    refine ⟨rfl, rfl, fun hzero => laidOut_congr fun before n after h => ?_⟩
    cases after with
    | nil => exact .inr rfl
    | cons t after => exact .inl (hzero before n t after h)
  · rintro w built ⟨hreach, rfl⟩
    rw [set_eq_setFrom (isNull_of_lookup? lookup?_laidOut hp) hv hp, setFrom_laidOut]
    exact (buildIn_eq_ok.2 ⟨hreach, rfl⟩).symm

/-- An element of a new sequence is led through, another value is stored
there, and a sequence of sequences is built but not stored. -/
theorem set_root_of_element :
    (∃ updated, set [.property "a", .index 1, .property "b"] (.bool true) empty = .ok updated ∧
      updated = .object [("a", .array [empty, .object [("b", .bool true)]])]) ∧
    set [.property "a", .index 1, .property "b"] (.bool true)
        (.object [("a", .array [.null, .object [("b", .null)]])]) =
      .ok (.object [("a", .array [.null, .object [("b", .bool true)]])]) ∧
    (∃ built, build [.index 0, .index 0] (.bool true) = .ok built) ∧
    ¬ ∃ updated, set [.index 0, .index 0] (.bool true) (.array []) = .ok updated := by
  have hnull : (Value.bool true).isNull = false := rfl
  obtain ⟨hiff, hlaid, hagain⟩ := set_root (p := [.property "a", .index 1, .property "b"]) hnull
  obtain ⟨updated, hupdated⟩ := hiff.2 ⟨⟨_, rfl⟩, by simp [IndicesApart, Segment.isIndex]⟩
  refine ⟨⟨updated, hupdated, (hlaid _ _ rfl hupdated).2.1⟩, hagain .null _ rfl, ⟨_, rfl⟩, ?_⟩
  intro h
  have hapart := ((set_root (p := [.index 0, .index 0]) hnull).1.1 h).2
  simp [IndicesApart, Segment.isIndex] at hapart

end ConfigPatch.Value
