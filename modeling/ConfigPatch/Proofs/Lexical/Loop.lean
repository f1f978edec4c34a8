/-!
# Loops

A loop takes turns: a turn goes on from a state to another one, or ends the
loop with a result. `runLoop` takes at most so many turns. What the turns
keep holds at the end, and a loop whose states get smaller comes to an end
in as many turns as its first state allows.
-/

namespace ConfigPatch.Lexical

variable {σ ρ : Type} {turn : σ → σ ⊕ ρ} {inv : σ → Prop} {size : σ → Nat}

/-- The result of a loop, if it ends within so many turns. -/
def runLoop (turn : σ → σ ⊕ ρ) : Nat → σ → Option ρ
  | 0, _ => none
  | turns + 1, state =>
    match turn state with
    | .inl state => runLoop turn turns state
    | .inr result => some result

theorem runLoop_inl {turns : Nat} {state next : σ} (h : turn state = .inl next) :
    runLoop turn (turns + 1) state = runLoop turn turns next := by
  rw [runLoop, h]

theorem runLoop_inr {turns : Nat} {state : σ} {result : ρ} (h : turn state = .inr result) :
    runLoop turn (turns + 1) state = some result := by
  rw [runLoop, h]

/-- More turns than it takes do not change what a loop ends with. -/
theorem runLoop_of_le {turns more : Nat} {state : σ} {result : ρ}
    (h : runLoop turn turns state = some result) (hle : turns ≤ more) :
    runLoop turn more state = some result := by
  induction turns generalizing more state with
  | zero => cases h
  | succ turns ih =>
    obtain ⟨more, rfl⟩ : ∃ n, more = n + 1 := ⟨more - 1, by omega⟩
    cases hturn : turn state with
    | inr found =>
      rw [runLoop_inr hturn] at h ⊢
      exact h
    | inl next =>
      rw [runLoop_inl hturn] at h ⊢
      exact ih h (by omega)

/-- **A loop ends** if what its turns keep makes the state smaller with
each of them, and then its last state has been kept as well. -/
theorem exists_runLoop
    (hturn : ∀ state next, inv state → turn state = .inl next → inv next ∧ size next < size state)
    {first : σ} (hfirst : inv first) {turns : Nat} (hsize : size first < turns) :
    ∃ last result, inv last ∧ turn last = .inr result ∧ runLoop turn turns first = some result := by
  induction turns generalizing first with
  | zero => exact absurd hsize (Nat.not_lt_zero _)
  | succ turns ih =>
    cases h : turn first with
    | inr result => exact ⟨first, result, hfirst, h, runLoop_inr h⟩
    | inl next =>
      obtain ⟨hnext, hless⟩ := hturn first next hfirst h
      rw [runLoop_inl h]
      exact ih hnext (by omega)

/-- **What a loop ends with**: an answer that a turn does not change, and
that the last turn gives. -/
theorem runLoop_eq {answer : σ → ρ}
    (hturn : ∀ state next, inv state → turn state = .inl next →
      inv next ∧ size next < size state ∧ answer next = answer state)
    (hend : ∀ state result, inv state → turn state = .inr result → result = answer state)
    {first : σ} (hfirst : inv first) {turns : Nat} (hsize : size first < turns) :
    runLoop turn turns first = some (answer first) := by
  have hkept : ∀ state next, (inv state ∧ answer state = answer first) → turn state = .inl next →
      (inv next ∧ answer next = answer first) ∧ size next < size state := by
    rintro state next ⟨hinv, hsame⟩ h
    obtain ⟨hnext, hless, hanswer⟩ := hturn state next hinv h
    exact ⟨⟨hnext, hanswer.trans hsame⟩, hless⟩
  obtain ⟨last, result, ⟨hlast, hsame⟩, hresult, hrun⟩ := exists_runLoop hkept ⟨hfirst, rfl⟩ hsize
  rw [hrun, hend last result hlast hresult, hsame]

end ConfigPatch.Lexical
