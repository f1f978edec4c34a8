import ConfigPatch.Error
import ConfigPatch.Text.Utf8

/-!
# Cutting text

What is known of a text from a cut that was granted: the text is the
parts around the offsets, in order. Every later proof about spans of a
text reads its cuts through `slice?_eq_some_iff`.
-/

namespace ConfigPatch

/-! ## Outcomes -/

namespace Failure

variable {α β : Type}

/-- A sequence of two steps succeeds where both do. -/
theorem bind_eq_ok {ε : Type} {x : Except ε α} {f : α → Except ε β} {b : β} :
    x >>= f = .ok b ↔ ∃ a, x = .ok a ∧ f a = .ok b := by
  cases x with
  | ok a =>
    constructor
    · intro h
      exact ⟨a, rfl, h⟩
    · rintro ⟨a', ha, h⟩
      cases ha
      exact h
  | error e =>
    constructor
    · intro h
      cases h
    · rintro ⟨a, ha, -⟩
      cases ha

@[simp]
theorem ok_bind (a : α) (f : α → Except Failure β) : .ok a >>= f = f a := rfl

/-- A step that succeeds on every element. -/
theorem mapM_eq_ok {γ : Type} {xs : List γ} {k : γ → α} {f : α → Except Failure β} {g : γ → β}
    (h : ∀ x ∈ xs, f (k x) = .ok (g x)) : (xs.map k).mapM f = .ok (xs.map g) := by
  induction xs with
  | nil => rfl
  | cons x xs ih =>
    rw [List.map_cons, List.mapM_cons, h x List.mem_cons_self, ok_bind,
      ih fun y hy => h y (List.mem_cons_of_mem _ hy)]
    rfl

theorem mapM_cons_eq_ok {x : α} {xs : List α} {f : α → Except Failure β} {zs : List β} :
    (x :: xs).mapM f = .ok zs ↔ ∃ y ys, f x = .ok y ∧ xs.mapM f = .ok ys ∧ zs = y :: ys := by
  rw [List.mapM_cons, bind_eq_ok]
  constructor
  · rintro ⟨y, hy, h⟩
    obtain ⟨ys, hys, h⟩ := bind_eq_ok.1 h
    cases h
    exact ⟨y, ys, hy, hys, rfl⟩
  · rintro ⟨y, ys, hy, hys, rfl⟩
    exact ⟨y, hy, bind_eq_ok.2 ⟨ys, hys, rfl⟩⟩

theorem mapM_append_eq_ok {xs ys : List α} {f : α → Except Failure β} {zs : List β} :
    (xs ++ ys).mapM f = .ok zs ↔
      ∃ as bs, xs.mapM f = .ok as ∧ ys.mapM f = .ok bs ∧ zs = as ++ bs := by
  rw [List.mapM_append, bind_eq_ok]
  constructor
  · rintro ⟨as, has, h⟩
    obtain ⟨bs, hbs, h⟩ := bind_eq_ok.1 h
    cases h
    exact ⟨as, bs, has, hbs, rfl⟩
  · rintro ⟨as, bs, has, hbs, rfl⟩
    exact ⟨as, has, bind_eq_ok.2 ⟨bs, hbs, rfl⟩⟩

/-- A result comes from an element. -/
theorem exists_of_mem_mapM {xs : List α} {f : α → Except Failure β} {ys : List β} {y : β}
    (h : xs.mapM f = .ok ys) (hy : y ∈ ys) : ∃ x ∈ xs, f x = .ok y := by
  induction xs generalizing ys with
  | nil =>
    cases h
    cases hy
  | cons x xs ih =>
    obtain ⟨z, zs, hz, hzs, rfl⟩ := mapM_cons_eq_ok.1 h
    rcases List.mem_cons.1 hy with rfl | hy
    · exact ⟨x, List.mem_cons_self, hz⟩
    · obtain ⟨x', hx', hfx⟩ := ih hzs hy
      exact ⟨x', List.mem_cons_of_mem _ hx', hfx⟩

theorem mapM_congr {xs : List α} {f g : α → Except Failure β} (h : ∀ x ∈ xs, f x = g x) :
    xs.mapM f = xs.mapM g := by
  induction xs with
  | nil => rfl
  | cons x xs ih =>
    rw [List.mapM_cons, List.mapM_cons, h x List.mem_cons_self,
      ih fun y hy => h y (List.mem_cons_of_mem _ hy)]

/-- A step on other elements that gives the same results in another
form. -/
theorem mapM_map_eq_ok {γ δ : Type} {xs : List α} {k : α → β} {f : β → Except Failure γ}
    {g : α → Except Failure δ} {r : δ → γ} (h : ∀ x, f (k x) = (g x).map r) {ys : List γ} :
    (xs.map k).mapM f = .ok ys ↔ ∃ zs, xs.mapM g = .ok zs ∧ ys = zs.map r := by
  induction xs generalizing ys with
  | nil =>
    constructor
    · intro hys
      cases hys
      exact ⟨[], rfl, rfl⟩
    · rintro ⟨zs, hzs, rfl⟩
      cases hzs
      rfl
  | cons x xs ih =>
    rw [List.map_cons, mapM_cons_eq_ok]
    constructor
    · rintro ⟨y, ys, hy, hys, rfl⟩
      obtain ⟨zs, hzs, rfl⟩ := ih.1 hys
      rw [h] at hy
      cases hz : g x with
      | error cause =>
        rw [hz] at hy
        cases hy
      | ok z =>
        rw [hz] at hy
        cases hy
        exact ⟨z :: zs, mapM_cons_eq_ok.2 ⟨z, zs, hz, hzs, rfl⟩, rfl⟩
    · rintro ⟨all, hall, rfl⟩
      obtain ⟨z, zs, hz, hzs, rfl⟩ := mapM_cons_eq_ok.1 hall
      refine ⟨r z, zs.map r, ?_, ih.2 ⟨zs, hzs, rfl⟩, rfl⟩
      rw [h, hz]
      rfl

@[simp]
theorem ofCut_eq_ok {x : Option α} {a : α} : ofCut x = .ok a ↔ x = some a := by
  cases x <;> simp [ofCut]

@[simp]
theorem ofExcept_eq_ok {x : Except Error α} {a : α} : ofExcept x = .ok a ↔ x = .ok a := by
  cases x with
  | ok b =>
    change Except.ok b = Except.ok a ↔ _
    rw [Except.ok.injEq, Except.ok.injEq]
  | error e => exact ⟨nofun, nofun⟩

@[simp]
theorem ofCut_some (a : α) : ofCut (some a) = .ok a := rfl

@[simp]
theorem ofExcept_ok (a : α) : ofExcept (.ok a) = .ok a := rfl

/-- **A clean outcome**: no cut of the text is refused, and something holds
of what comes out. -/
inductive Clean (P : α → Prop) : Except Failure α → Prop
  | ok {a : α} : P a → Clean P (.ok a)
  | refused {cause : Error} : Clean P (.error (.refused cause))

theorem Clean.of_eq_ok {P : α → Prop} {x : Except Failure α} {a : α} (h : Clean P x)
    (hx : x = .ok a) : P a := by
  cases h with
  | ok h =>
    cases hx
    exact h
  | refused => cases hx

theorem Clean.bind {P : α → Prop} {Q : β → Prop} {x : Except Failure α}
    {f : α → Except Failure β} (hx : Clean P x) (hf : ∀ a, x = .ok a → P a → Clean Q (f a)) :
    Clean Q (x >>= f) := by
  cases hx with
  | ok h => exact hf _ rfl h
  | refused => exact .refused

/-- What may be refused cuts nothing. -/
theorem clean_ofExcept {P : α → Prop} {x : Except Error α} (h : ∀ a, x = .ok a → P a) :
    Clean P (ofExcept x) := by
  cases x with
  | ok a => exact .ok (h a rfl)
  | error cause => exact .refused

theorem Clean.mapM {P : β → Prop} {xs : List α} {f : α → Except Failure β}
    (h : ∀ x ∈ xs, Clean P (f x)) : Clean (fun ys => ∀ y ∈ ys, P y) (xs.mapM f) := by
  induction xs with
  | nil => exact .ok (List.forall_mem_nil P)
  | cons x xs ih =>
    rw [List.mapM_cons]
    refine (h x List.mem_cons_self).bind fun y _ hy => ?_
    refine (ih fun z hz => h z (List.mem_cons_of_mem _ hz)).bind fun ys _ hys => ?_
    exact .ok (List.forall_mem_cons.2 ⟨hy, hys⟩)

end Failure

namespace Text

variable {s part : String} {start stop : Nat}

/-- An offset at which a text can be cut. -/
def IsCut (cs : List Char) (n : Nat) : Prop :=
  ∃ before after, cs = before ++ after ∧ (utf8 before).length = n

/-- **A slice is granted exactly where the text falls into three parts**
of which it is the middle one. -/
theorem slice?_eq_some_iff :
    slice? s start stop = some part ↔
      ∃ before after, s.toList = before ++ part.toList ++ after ∧
        (utf8 before).length = start ∧ start + (bytes part).length = stop := by
  constructor
  · intro h
    by_cases hlt : stop < start
    · simp [slice?, hlt] at h
    · simp only [slice?, hlt, if_false, Option.bind_eq_bind, Option.bind_eq_some_iff,
        Prod.exists, Option.pure_def, Option.some.injEq] at h
      obtain ⟨before, tail, hhead, middle, after, htail, rfl⟩ := h
      obtain ⟨hs, hstart⟩ := splitAt?_eq_some_iff.1 hhead
      obtain ⟨rfl, hlen⟩ := splitAt?_eq_some_iff.1 htail
      refine ⟨before, after, by simp [hs], hstart, ?_⟩
      simp only [bytes, String.toList_ofList, hlen]
      omega
  · rintro ⟨before, after, hs, hstart, hstop⟩
    have hlt : ¬ stop < start := by omega
    have hhead : splitAt? s.toList start = some (before, part.toList ++ after) :=
      splitAt?_eq_some_iff.2 ⟨by simp [hs], hstart⟩
    have htail : splitAt? (part.toList ++ after) (stop - start) = some (part.toList, after) :=
      splitAt?_eq_some_iff.2 ⟨rfl, by simp only [bytes] at hstop; omega⟩
    simp [slice?, hlt, hhead, htail]

end Text

end ConfigPatch
