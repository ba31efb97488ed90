import Mathlib.Logic.Basic

/-!
# Loops with fuel

A loop is its body: from a state either the next state or a result. `iterate`
runs it for so many rounds at most; a result that is reached stays the result
with more rounds, and what the body keeps holds of the result.
-/

namespace DevOS.Lib

variable {σ ρ : Type}

/-- Run a loop; `none` when the rounds do not suffice. -/
def iterate (body : σ → σ ⊕ ρ) : (fuel : Nat) → σ → Option ρ
  | 0, _ => none
  | fuel + 1, s =>
      match body s with
      | .inl s' => iterate body fuel s'
      | .inr r => some r

variable {body : σ → σ ⊕ ρ}

theorem iterate_next {s s' : σ} (h : body s = .inl s') (fuel : Nat) :
    iterate body (fuel + 1) s = iterate body fuel s' := by
  rw [iterate, h]

theorem iterate_done {s : σ} {r : ρ} (h : body s = .inr r) (fuel : Nat) :
    iterate body (fuel + 1) s = some r := by
  rw [iterate, h]

/-- More rounds do not change a result. -/
theorem iterate_mono : ∀ {fuel fuel' : Nat} {s : σ} {r : ρ}, iterate body fuel s = some r →
    fuel ≤ fuel' → iterate body fuel' s = some r := by
  intro fuel
  induction fuel with
  | zero => intro fuel' s r h _; cases h
  | succ fuel ih =>
      intro fuel' s r h hle
      obtain ⟨m, rfl⟩ : ∃ m, fuel' = m + 1 := ⟨fuel' - 1, by omega⟩
      cases hb : body s with
      | inl s' =>
          rw [iterate_next hb] at h ⊢
          exact ih h (by omega)
      | inr r' =>
          rw [iterate_done hb] at h ⊢
          exact h

/-- **The invariant rule**: what every round keeps, and the last round turns
into `Q`, holds of the result as `Q`. -/
theorem iterate_invariant {I : σ → Prop} {Q : ρ → Prop}
    (hnext : ∀ {s s'}, I s → body s = .inl s' → I s')
    (hdone : ∀ {s r}, I s → body s = .inr r → Q r) :
    ∀ {fuel : Nat} {s : σ} {r : ρ}, I s → iterate body fuel s = some r → Q r := by
  intro fuel
  induction fuel with
  | zero => intro s r _ h; cases h
  | succ fuel ih =>
      intro s r hs h
      cases hb : body s with
      | inl s' =>
          rw [iterate_next hb] at h
          exact ih (hnext hs hb) h
      | inr r' =>
          rw [iterate_done hb] at h
          cases h
          exact hdone hs hb

/-- **The measure rule**: a loop whose rounds keep `I` and make a measure
smaller comes to an end. -/
theorem iterate_terminates {I : σ → Prop} (measure : σ → Nat)
    (hnext : ∀ {s s'}, I s → body s = .inl s' → I s' ∧ measure s' < measure s) :
    ∀ {s : σ}, I s → ∃ fuel r, iterate body fuel s = some r := by
  have hbound : ∀ (n : Nat) {s : σ}, I s → measure s < n →
      ∃ fuel r, iterate body fuel s = some r := by
    intro n
    induction n with
    | zero => intro s _ h; exact absurd h (Nat.not_lt_zero _)
    | succ n ih =>
        intro s hs hlt
        cases hb : body s with
        | inl s' =>
            obtain ⟨hs', hless⟩ := hnext hs hb
            obtain ⟨fuel, r, hr⟩ := ih hs' (by omega)
            exact ⟨fuel + 1, r, by rw [iterate_next hb, hr]⟩
        | inr r => exact ⟨1, r, iterate_done hb 0⟩
  intro s hs
  exact hbound (measure s + 1) hs (Nat.lt_succ_self _)

/-- **The divergence rule**: a loop that goes on from every state of `I`, to
another one, never ends. -/
theorem iterate_diverges {I : σ → Prop}
    (hnext : ∀ {s}, I s → ∃ s', body s = .inl s' ∧ I s') (fuel : Nat) :
    ∀ {s : σ}, I s → iterate body fuel s = none := by
  induction fuel with
  | zero => intro s _; rfl
  | succ fuel ih =>
      intro s hs
      obtain ⟨s', hb, hs'⟩ := hnext hs
      rw [iterate_next hb]
      exact ih hs'

/-- Rounds of the loop lead from one state to another. -/
inductive Rounds (body : σ → σ ⊕ ρ) : σ → σ → Prop
  | refl (s : σ) : Rounds body s s
  | next {s s' s'' : σ} (h : Rounds body s s') (hb : body s' = .inl s'') : Rounds body s s''

/-- A loop that has come to a result has done so at a state that its rounds lead
to. -/
theorem Rounds.of_iterate {fuel : Nat} {s : σ} {r : ρ} (h : iterate body fuel s = some r) :
    ∃ s', Rounds body s s' ∧ body s' = .inr r := by
  refine iterate_invariant (I := Rounds body s)
    (Q := fun r => ∃ s', Rounds body s s' ∧ body s' = .inr r) ?_ ?_ (.refl s) h
  · intro s₁ s₂ hs hb
    exact hs.next hb
  · intro s₁ r hs hb
    exact ⟨s₁, hs, hb⟩

/-- **The simulation rule**: rounds of a loop are rounds of one that follows
it. -/
theorem Rounds.map {σ' ρ' : Type} {body' : σ' → σ' ⊕ ρ'} {f : σ → σ'}
    (hf : ∀ {s s'}, body s = .inl s' → body' (f s) = .inl (f s')) {s s' : σ}
    (h : Rounds body s s') : Rounds body' (f s) (f s') := by
  induction h with
  | refl => exact .refl _
  | next _ hb ih => exact ih.next (hf hb)

/-- What a loop comes to from a state that it reaches, it comes to. -/
theorem Rounds.result {s s' : σ} (h : Rounds body s s') : ∀ {fuel : Nat} {r : ρ},
    iterate body fuel s' = some r → ∃ fuel', iterate body fuel' s = some r := by
  induction h with
  | refl => intro fuel r hr; exact ⟨fuel, hr⟩
  | next _ hb ih =>
      intro fuel r hr
      exact ih ((iterate_next hb fuel).trans hr)

end DevOS.Lib
