import ConfigPatch.Proofs.Value.Step

/-!
# When storing a value is refused

Storing fails at the first segment that the container it goes into refuses,
for the cause that it is refused for, and succeeds if there is none. Which
containers are met and what they refuse depends on the path and on the
configuration, and not on the value that is stored.
-/

namespace ConfigPatch.Value

variable {v x y updated config value fill : Value} {s t : Segment} {previous : Option Segment}
variable {p before after rest : Path} {cause : Error} {items : List Value} {n : UInt64}

/-! ## The first segment that is refused -/

/-- Why a segment is refused by the container it goes into, on a way that
starts behind a given segment. -/
def refusalFrom? (previous : Option Segment) (v : Value) (before : Path) (s : Segment) :
    Option Error :=
  refusal? (before.getLast?.or previous) s (met v before s)

theorem refusalFrom?_nil (hv : v.isNull = false) :
    refusalFrom? previous v [] s = refusal? previous s v := by
  rw [refusalFrom?, met_nil hv]
  rfl

theorem refusalFrom?_cons (h : rest = before ++ t :: after) :
    refusalFrom? previous v (s :: before) t = refusalFrom? (some s) (v.slot s rest) before t := by
  rw [refusalFrom?, refusalFrom?, h, ← met_cons, List.getLast?_cons, Option.or_some]
  rfl

/-- A segment is refused, and none of those before it is. -/
def RefusedFirst (previous : Option Segment) (v : Value) (before : Path) (s : Segment)
    (cause : Error) : Prop :=
  refusalFrom? previous v before s = some cause ∧
    ∀ first t second, before = first ++ t :: second → refusalFrom? previous v first t = none

theorem refusedFirst_nil_iff (hv : v.isNull = false) :
    RefusedFirst previous v [] s cause ↔ refusal? previous s v = some cause := by
  unfold RefusedFirst
  rw [refusalFrom?_nil hv]
  refine and_iff_left fun first t second h => ?_
  cases first <;> cases h

theorem refusedFirst_cons_iff (hv : v.isNull = false) (h : rest = before ++ t :: after) :
    RefusedFirst previous v (s :: before) t cause ↔ refusal? previous s v = none ∧
      RefusedFirst (some s) (v.slot s rest) before t cause := by
  -- what stands further in front is met by the same segments
  have hcons {first second : Path} {r : Segment} (hbefore : before = first ++ r :: second) :
      refusalFrom? previous v (s :: first) r = refusalFrom? (some s) (v.slot s rest) first r := by
    have hrest : rest = first ++ r :: (second ++ t :: after) := by
      rw [h, hbefore, List.append_assoc, List.cons_append]
    exact refusalFrom?_cons hrest
  unfold RefusedFirst
  rw [refusalFrom?_cons h]
  constructor
  · rintro ⟨hcause, hnone⟩
    refine ⟨?_, hcause, fun first r second hbefore => ?_⟩
    · rw [← refusalFrom?_nil hv]
      exact hnone [] s before rfl
    · rw [← hcons hbefore]
      exact hnone (s :: first) r second (congrArg (s :: ·) hbefore)
  · rintro ⟨htaken, hcause, hnone⟩
    refine ⟨hcause, fun first r second hbefore => ?_⟩
    cases first with
    | nil =>
      cases hbefore
      rw [refusalFrom?_nil hv, htaken]
    | cons b first =>
      obtain ⟨rfl, hrest⟩ := List.cons.inj hbefore
      rw [hcons hrest]
      exact hnone first r second hrest

/-- **Storing fails at the first segment that is refused.** -/
theorem setFrom_eq_error_iff (hv : v.isNull = false) : setFrom previous p x v = .error cause ↔
    ∃ before s after, p = before ++ s :: after ∧ RefusedFirst previous v before s cause := by
  induction p generalizing previous v with
  | nil =>
    constructor
    · intro h
      cases h
    · rintro ⟨before, s, after, h, -⟩
      cases before <;> cases h
  | cons s rest ih =>
    rw [setFrom_cons_eq_error, ih isNull_slot]
    constructor
    · rintro (hcause | ⟨htaken, before, t, after, hrest, hfirst⟩)
      · exact ⟨[], s, rest, rfl, (refusedFirst_nil_iff hv).2 hcause⟩
      · exact ⟨s :: before, t, after, congrArg (s :: ·) hrest,
          (refusedFirst_cons_iff hv hrest).2 ⟨htaken, hfirst⟩⟩
    · rintro ⟨before, t, after, hp, hfirst⟩
      cases before with
      | nil =>
        cases hp
        exact .inl ((refusedFirst_nil_iff hv).1 hfirst)
      | cons b before =>
        obtain ⟨rfl, hrest⟩ := List.cons.inj hp
        obtain ⟨htaken, hfirst⟩ := (refusedFirst_cons_iff hv hrest).1 hfirst
        exact .inr ⟨htaken, before, t, after, hrest, hfirst⟩

/-- **Storing succeeds** if no segment is refused. -/
theorem exists_setFrom_iff (hv : v.isNull = false) : (∃ w, setFrom previous p x v = .ok w) ↔
    ∀ before s after, p = before ++ s :: after → refusalFrom? previous v before s = none := by
  induction p generalizing previous v with
  | nil =>
    refine ⟨fun _ before s after hp => ?_, fun _ => ⟨x, rfl⟩⟩
    cases before <;> cases hp
  | cons s rest ih =>
    constructor
    · rintro ⟨w, h⟩ before t after hp
      obtain ⟨htaken, inner, hinner, -⟩ := setFrom_cons_eq_ok.1 h
      cases before with
      | nil =>
        cases hp
        rw [refusalFrom?_nil hv, htaken]
      | cons b before =>
        obtain ⟨rfl, hrest⟩ := List.cons.inj hp
        rw [refusalFrom?_cons hrest]
        exact (ih isNull_slot).1 ⟨inner, hinner⟩ before t after hrest
    · intro h
      have htaken := h [] s rest rfl
      rw [refusalFrom?_nil hv] at htaken
      obtain ⟨inner, hinner⟩ := (ih isNull_slot).2 fun before t after hrest => by
        rw [← refusalFrom?_cons hrest]
        exact h (s :: before) t after (congrArg (s :: ·) hrest)
      exact ⟨_, setFrom_cons_eq_ok.2 ⟨htaken, inner, hinner, rfl⟩⟩

/-! ## Filling up in words -/

/-- The most elements that a sequence in memory has. -/
def maxLength : Nat := 0x7FFFFFFFFFFFFFFF

/-- A sum of words, if it is a word. -/
def checkedAdd? (a b : UInt64) : Option UInt64 :=
  if a.toNat + b.toNat < UInt64.size then some (a + b) else none

/-- A difference of words, if it is a word. -/
def checkedSub? (a b : UInt64) : Option UInt64 :=
  if b ≤ a then some (a - b) else none

theorem checkedAdd?_eq_some {a b : UInt64} (h : a.toNat + b.toNat < UInt64.size) :
    ∃ sum, checkedAdd? a b = some sum ∧ sum.toNat = a.toNat + b.toNat :=
  ⟨a + b, if_pos h, by rw [UInt64.toNat_add, Nat.mod_eq_of_lt h]⟩

theorem checkedSub?_eq_some {a b : UInt64} (h : b.toNat ≤ a.toNat) :
    ∃ gap, checkedSub? a b = some gap ∧ gap.toNat = a.toNat - b.toNat := by
  have hle : b ≤ a := UInt64.le_iff_toNat_le.2 h
  exact ⟨a - b, if_pos hle, UInt64.toNat_sub_of_le _ _ hle⟩

/-- Filling up a sequence with all the arithmetic done in words. There is
no outcome if an operation wraps. -/
def fillUpChecked? (fill : Value) (n : UInt64) (items : List Value) :
    Option (Except Error (List Value)) := do
  let length := UInt64.ofNat items.length
  if n < length then return .ok items
  let gap ← checkedSub? n length
  if UInt64.ofNat paddingLimit ≤ gap then return .error (.indexOutOfRange n items.length)
  let _reserved ← checkedAdd? gap 1
  let size ← checkedAdd? n 1
  return .ok (items ++ List.replicate (size.toNat - items.length) fill)

/-- **No arithmetic wraps** for any index. -/
theorem fillUpChecked?_eq (h : items.length ≤ maxLength) :
    fillUpChecked? fill n items = some (fillUp fill n items) := by
  have hlength : (UInt64.ofNat items.length).toNat = items.length :=
    UInt64.toNat_ofNat_of_lt' (Nat.lt_of_le_of_lt h (by decide))
  have hlimit : (UInt64.ofNat paddingLimit).toNat = paddingLimit := by decide
  have hbound : maxLength + paddingLimit + 1 < UInt64.size := by decide
  have hone : (1 : UInt64).toNat = 1 := by decide
  unfold fillUpChecked? fillUp
  simp only [UInt64.lt_iff_toNat_lt, UInt64.le_iff_toNat_le, hlength, hlimit]
  by_cases hin : n.toNat < items.length
  · rw [if_pos hin, if_pos hin]
    rfl
  · obtain ⟨gap, hgap, hgap'⟩ : ∃ gap, checkedSub? n (UInt64.ofNat items.length) = some gap ∧ _ :=
      checkedSub?_eq_some (by rw [hlength]; omega)
    rw [hlength] at hgap'
    rw [if_neg hin, if_neg hin, hgap]
    simp only [Option.bind_eq_bind, Option.bind_some, hgap']
    by_cases hfar : paddingLimit ≤ n.toNat - items.length
    · rw [if_pos hfar, if_pos hfar]
      rfl
    · obtain ⟨reserved, hreserved, -⟩ : ∃ sum, checkedAdd? gap 1 = some sum ∧ _ :=
        checkedAdd?_eq_some (by rw [hgap', hone]; omega)
      obtain ⟨size, hsize, hsize'⟩ : ∃ sum, checkedAdd? n 1 = some sum ∧ _ :=
        checkedAdd?_eq_some (by rw [hone]; omega)
      rw [if_neg hfar, if_neg hfar, hreserved, hsize]
      simp only [Option.bind_some, hsize', hone]
      rfl

/-! ## Storing a value -/

/-- **When storing a value is refused.** A null configuration or value is,
at every path. Otherwise the first segment is reported that the container
it goes into refuses, whatever the value, and storing succeeds if there is
none. -/
theorem set_refused (p : Path) (value config : Value) :
    (config.isNull = true ∨ value.isNull = true → set p value config = .error .missingValue) ∧
    (config.isNull = false → value.isNull = false → p ≠ [] →
      (∀ cause, set p value config = .error cause ↔
        ∃ before s after, p = before ++ s :: after ∧ RefusedFirst none config before s cause) ∧
      ((∃ updated, set p value config = .ok updated) ↔
        ∀ before s after, p = before ++ s :: after → refusalFrom? none config before s = none) ∧
      ∀ other cause, other.isNull = false →
        (set p other config = .error cause ↔ set p value config = .error cause)) ∧
    ∀ fill n items, items.length ≤ maxLength →
      fillUpChecked? fill n items = some (fillUp fill n items) := by
  refine ⟨fun hnull => ?_, fun hconfig hvalue hp => ⟨fun cause => ?_, ?_, fun other cause hother => ?_⟩,
    fun fill n items => fillUpChecked?_eq⟩
  · rw [set, if_pos]
    rw [Bool.or_eq_true]
    exact hnull
  · rw [set_eq_setFrom hconfig hvalue hp]
    exact setFrom_eq_error_iff hconfig
  · rw [set_eq_setFrom hconfig hvalue hp]
    exact exists_setFrom_iff hconfig
  · rw [set_eq_setFrom hconfig hvalue hp, set_eq_setFrom hconfig hother hp, setFrom_eq_error_iff hconfig,
      setFrom_eq_error_iff hconfig]

/-- A null becomes a sequence, which takes as many elements as the limit
and no more, and what an index leads to becomes a mapping. -/
theorem set_refused_at_limit :
    set [.property "a", .index 65536] (.bool true) (.object [("a", .null)]) =
      .error (.indexOutOfRange 65536 0) ∧
    (∃ updated, set [.property "a", .index 65535] (.bool true) (.object [("a", .null)]) =
      .ok updated) ∧
    set [.property "a", .index 0, .index 0] (.bool true) empty = .error (.notAnArray "[0]") ∧
    set [.property "a"] .null empty = .error .missingValue := by
  have hlast (s : Segment) : [s] = [] ++ s :: [] := rfl
  refine ⟨?_, ?_, ?_, (set_refused _ _ _).1 (.inr rfl)⟩
  · refine (((set_refused _ _ _).2.1 rfl rfl (List.cons_ne_nil _ _)).1 _).2
      ⟨[.property "a"], .index 65536, [], rfl, ?_⟩
    refine (refusedFirst_cons_iff rfl (hlast _)).2 ⟨rfl, (refusedFirst_nil_iff rfl).2 ?_⟩
    decide +kernel
  · refine ((set_refused _ _ _).2.1 rfl rfl (List.cons_ne_nil _ _)).2.1.2 fun before s after h => ?_
    rcases before with _ | ⟨b, _ | ⟨c, before⟩⟩
    · cases h
      rfl
    · cases h
      decide +kernel
    · cases before <;> cases h
  · refine (((set_refused _ _ _).2.1 rfl rfl (List.cons_ne_nil _ _)).1 _).2
      ⟨[.property "a", .index 0], .index 0, [], rfl, ?_⟩
    have hway : ([.index 0, .index 0] : Path) = [.index 0] ++ .index 0 :: [] := rfl
    refine (refusedFirst_cons_iff rfl hway).2 ⟨rfl, (refusedFirst_cons_iff rfl (hlast _)).2 ⟨?_, ?_⟩⟩
    · decide +kernel
    · exact (refusedFirst_nil_iff rfl).2 (by decide +kernel)

end ConfigPatch.Value
