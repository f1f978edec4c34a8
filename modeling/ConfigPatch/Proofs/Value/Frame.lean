import ConfigPatch.Proofs.Value.Step

/-!
# What storing a value changes

After a value was stored at a path it is read there. What is read at paths
that lead elsewhere is read as before; what is new at such a path is an
element that a sequence was filled up with. The mappings on the way keep
their names in order, with at most that of the path behind them, and the
sequences grow at most up to the index.
-/

namespace ConfigPatch.Value

variable {v x y updated config value : Value} {s : Segment} {previous : Option Segment}
variable {p q before after : Path} {old new : Value}

/-! ## Reading what was stored -/

theorem lookup?_setFrom (h : setFrom previous p x v = .ok updated) :
    lookup? p updated = some x := by
  induction p generalizing previous v updated with
  | nil =>
    cases h
    rfl
  | cons s rest ih =>
    obtain ⟨htaken, inner, hinner, rfl⟩ := setFrom_cons_eq_ok.1 h
    rw [lookup?, below?_putChild_self htaken, Option.bind_some]
    exact ih hinner

/-! ## Reading elsewhere -/

/-- **What was there stays** on every path that leads elsewhere. -/
theorem lookup?_setFrom_of_diverges (h : setFrom previous p x v = .ok updated)
    (hq : p.Diverges q) (hy : lookup? q v = some y) : lookup? q updated = some y := by
  induction p generalizing previous v updated q with
  | nil => exact absurd rfl hq.ne_nil.1
  | cons s rest ih =>
    obtain ⟨t, q, rfl⟩ := List.exists_cons_of_ne_nil hq.ne_nil.2
    obtain ⟨htaken, inner, hinner, rfl⟩ := setFrom_cons_eq_ok.1 h
    rw [Path.diverges_cons_iff] at hq
    by_cases hst : s = t
    · -- on the way of the path, so what is new is not looked at
      subst hst
      rw [lookup?, below?_putChild_self htaken, Option.bind_some]
      refine ih hinner (hq rfl) ?_
      rw [lookup?_slot (hq rfl).ne_nil.2, hy]
    · obtain ⟨w, hw, hy⟩ := Option.bind_eq_some_iff.1 hy
      rw [lookup?, below?_putChild_of_ne hst, below?_filled hw]
      exact hy

/-- **An element that a sequence was filled up with**: it stands in front
of the index that the path has there. -/
def IsPadding (config : Value) (p q : Path) (x : Value) : Prop :=
  ∃ before n m rest items, p = before ++ .index n :: rest ∧ q = before ++ [.index m] ∧
    met config before (.index n) = .array items ∧ items.length ≤ m.toNat ∧ m < n ∧
    x = padding rest

/-- There is nothing to read in what sequences are filled up with. -/
theorem lookup?_padding (h : lookup? q (padding p) = some y) : q = [] ∧ y = padding p := by
  cases q with
  | nil =>
    cases h
    exact ⟨rfl, rfl⟩
  | cons t q =>
    have hnone : (padding p).below? t = none := by
      unfold padding
      split <;> cases t <;> rfl
    rw [lookup?, hnone] at h
    cases h

/-- What is padding below a segment is padding. -/
theorem IsPadding.cons (h : IsPadding (v.slot s p) p q x) : IsPadding v (s :: p) (s :: q) x := by
  obtain ⟨before, n, m, rest, items, rfl, rfl, hmet, hbounds⟩ := h
  refine ⟨s :: before, n, m, rest, items, rfl, rfl, ?_, hbounds⟩
  rw [met_cons, hmet]

/-- **What is new is padding** on every path that leads elsewhere. -/
theorem isPadding_of_setFrom (h : setFrom previous p x v = .ok updated) (hv : v.isNull = false)
    (hq : p.Diverges q) (hnone : lookup? q v = none) (hy : lookup? q updated = some y) :
    IsPadding v p q y := by
  induction p generalizing previous v updated q with
  | nil => exact absurd rfl hq.ne_nil.1
  | cons s rest ih =>
    obtain ⟨t, q, rfl⟩ := List.exists_cons_of_ne_nil hq.ne_nil.2
    obtain ⟨htaken, inner, hinner, rfl⟩ := setFrom_cons_eq_ok.1 h
    rw [Path.diverges_cons_iff] at hq
    by_cases hst : s = t
    · subst hst
      rw [lookup?, below?_putChild_self htaken, Option.bind_some] at hy
      refine (ih hinner isNull_slot (hq rfl) ?_ hy).cons
      rw [lookup?_slot (hq rfl).ne_nil.2, hnone]
    · rw [lookup?, below?_putChild_of_ne hst] at hy
      obtain ⟨w, hw, hinside⟩ := Option.bind_eq_some_iff.1 hy
      have hnew : v.below? t = none := by
        cases hold : v.below? t with
        | none => rfl
        | some z =>
          -- what stands below the segment stands there still, with all that is in it
          rw [below?_filled hold] at hw
          cases hw
          rw [lookup?, hold, Option.bind_some, hinside] at hnone
          cases hnone
      obtain ⟨rfl, n, m, items, rfl, rfl, rfl, hge, hle⟩ := eq_fill_of_below?_filled hnew hw
      obtain ⟨rfl, rfl⟩ := lookup?_padding hinside
      have hlt : m < n := by
        rw [UInt64.lt_iff_toNat_lt]
        rw [UInt64.le_iff_toNat_le] at hle
        have hne : n.toNat ≠ m.toNat := fun heq => hst (congrArg _ (UInt64.toNat_inj.1 heq))
        omega
      exact ⟨[], n, m, rest, items, rfl, rfl, met_nil hv, hge, hlt, rfl⟩

/-! ## The containers on the way -/

/-- **How a container grows** when something is stored below a segment. -/
inductive Grown : Segment → Value → Value → Prop
  | mapping {name : String} {old new : Entries}
    (h : new.names = old.names ∨ name ∉ old.names ∧ new.names = old.names ++ [name]) :
    Grown (.property name) (.object old) (.object new)
  | sequence {n : UInt64} {old new : List Value}
    (h : new.length = old.length ∨ old.length < n.toNat + 1 ∧ new.length = n.toNat + 1) :
    Grown (.index n) (.array old) (.array new)

theorem grown_putChild {fill : Value} (h : refusal? previous s v = none) :
    Grown s v ((v.filled s fill).putChild s x) := by
  rcases of_refusal?_eq_none h with ⟨name, entries, rfl, rfl⟩ | ⟨n, items, rfl, rfl⟩
  · refine .mapping ?_
    rw [Entries.names_insert]
    split
    · exact .inl rfl
    · rename_i hnew
      exact .inr ⟨hnew, rfl⟩
  · refine .sequence ?_
    rw [List.length_set, List.length_append, List.length_replicate]
    omega

/-- **Every container on the way grows** as storing below its segment
asks for. -/
theorem grown_of_setFrom (h : setFrom previous p x v = .ok updated) (hv : v.isNull = false)
    (hp : p = before ++ s :: after) :
    ∃ container, lookup? before updated = some container ∧ Grown s (met v before s) container := by
  induction before generalizing previous p v updated with
  | nil =>
    subst hp
    obtain ⟨htaken, inner, -, rfl⟩ := setFrom_cons_eq_ok.1 h
    rw [met_nil hv]
    exact ⟨_, rfl, grown_putChild htaken⟩
  | cons b before ih =>
    subst hp
    obtain ⟨htaken, inner, hinner, rfl⟩ := setFrom_cons_eq_ok.1 h
    rw [lookup?, below?_putChild_self htaken, Option.bind_some, met_cons]
    exact ih hinner isNull_slot rfl

/-! ## Storing a value -/

/-- **Storing a value** changes what is read at its path, and nothing that
is read elsewhere; only padding comes to it. The containers on the way
grow by one name at the end, or up to the index. -/
theorem set_frame (h : set p value config = .ok updated) :
    get p updated = .ok value.stored ∧
    (∀ q, p.Diverges q →
      (∀ x, get q config = .ok x → get q updated = .ok x) ∧
      ∀ cause x, get q config = .error cause → get q updated = .ok x → IsPadding config p q x) ∧
    ∀ before s after, p = before ++ s :: after →
      ∃ container, get before updated = .ok container ∧
        Grown s (met config before s) container := by
  obtain ⟨hconfig, -, -, h⟩ := set_eq_ok.1 h
  refine ⟨get_eq_ok.2 (lookup?_setFrom h), fun q hq => ⟨fun x hx => ?_, fun cause x hcause hx => ?_⟩,
    fun before s after hp => ?_⟩
  · exact get_eq_ok.2 (lookup?_setFrom_of_diverges h hq (get_eq_ok.1 hx))
  · refine isPadding_of_setFrom h hconfig hq ?_ (get_eq_ok.1 hx)
    refine Option.eq_none_iff_forall_ne_some.2 fun y hy => ?_
    rw [get_eq_ok.2 hy] at hcause
    cases hcause
  · obtain ⟨container, hcontainer, hgrown⟩ := grown_of_setFrom h hconfig hp
    exact ⟨container, get_eq_ok.2 hcontainer, hgrown⟩

/-- A null on the way becomes a sequence, which is filled up with mappings,
and one that is not there is filled up with null. -/
theorem set_frame_of_null :
    get [.property "a", .index 2, .property "b", .index 1] (.object [("c", .string "x"),
        ("a", .array [empty, empty, .object [("b", .array [.null, .bool true])]])]) =
      .ok (.bool true) ∧
    get [.property "c"] (.object [("c", .string "x"),
        ("a", .array [empty, empty, .object [("b", .array [.null, .bool true])]])]) =
      .ok (.string "x") ∧
    IsPadding (.object [("c", .string "x"), ("a", .null)])
      [.property "a", .index 2, .property "b", .index 1] [.property "a", .index 1] empty ∧
    ∃ container, get [.property "a", .index 2, .property "b"] (.object [("c", .string "x"),
        ("a", .array [empty, empty, .object [("b", .array [.null, .bool true])]])]) =
      .ok container ∧ Grown (.index 1) (.array []) container := by
  have h : set [.property "a", .index 2, .property "b", .index 1] (.bool true)
      (.object [("c", .string "x"), ("a", .null)]) =
        .ok (.object [("c", .string "x"),
          ("a", .array [empty, empty, .object [("b", .array [.null, .bool true])]])]) := by
    rfl
  exact ⟨(set_frame h).1, ((set_frame h).2.1 _ (by decide +kernel)).1 _ rfl,
    ((set_frame h).2.1 _ (by decide +kernel)).2 (.notAnArray "a") _ rfl rfl,
    (set_frame h).2.2 [.property "a", .index 2, .property "b"] (.index 1) [] rfl⟩

end ConfigPatch.Value
