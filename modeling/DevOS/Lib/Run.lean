import Mathlib.Data.List.Basic

/-!
# Runs of a fallible step function

A system is a step function on states that can fail (`Except`). `runFrom`
executes a sequence of labels; `Guarded` says that each label met its guard
in the state where it was executed. The induction over runs is done here
once: an invariant that every guarded step preserves holds at the end of every
guarded run, and if guarded steps from invariant states never fail, neither
do guarded runs.
-/

namespace DevOS.Lib

variable {σ ι ε : Type}

/-- Execute the labels in order; the first failure ends the run. -/
def runFrom (step : σ → ι → Except ε σ) : σ → List ι → Except ε σ
  | s, [] => .ok s
  | s, l :: ls =>
      match step s l with
      | .error e => .error e
      | .ok s' => runFrom step s' ls

/-- A run in two parts. -/
theorem runFrom_split {step : σ → ι → Except ε σ} {ls' : List ι} :
    ∀ {ls : List ι} {s : σ}, runFrom step s (ls ++ ls') =
      match runFrom step s ls with
      | .error e => .error e
      | .ok t => runFrom step t ls' := by
  intro ls
  induction ls with
  | nil => intro s; rfl
  | cons l ls ih =>
      intro s
      rw [List.cons_append, runFrom, runFrom]
      cases step s l with
      | error e => rfl
      | ok s' => exact ih

theorem runFrom_append {step : σ → ι → Except ε σ} {ls ls' : List ι} {s t : σ}
    (h : runFrom step s ls = .ok t) : runFrom step s (ls ++ ls') = runFrom step t ls' := by
  rw [runFrom_split, h]

/-- Every label meets its guard in the state it is executed in. -/
def Guarded (step : σ → ι → Except ε σ) (guard : σ → ι → Prop) : σ → List ι → Prop
  | _, [] => True
  | s, l :: ls =>
      guard s l ∧
        match step s l with
        | .error _ => True
        | .ok s' => Guarded step guard s' ls

instance Guarded.decidable (step : σ → ι → Except ε σ) (guard : σ → ι → Prop)
    [∀ s l, Decidable (guard s l)] : ∀ (s : σ) (ls : List ι), Decidable (Guarded step guard s ls)
  | _, [] => .isTrue trivial
  | s, l :: ls =>
      match h : step s l with
      | .error _ => decidable_of_iff (guard s l) (by simp [Guarded, h])
      | .ok s' =>
          have := Guarded.decidable step guard s' ls
          decidable_of_iff (guard s l ∧ Guarded step guard s' ls) (by simp [Guarded, h])

variable {step : σ → ι → Except ε σ} {guard : σ → ι → Prop}

/-- A guard that holds in every state holds along every run. -/
theorem Guarded.of_forall : ∀ {ls : List ι} (s : σ), (∀ l ∈ ls, ∀ s, guard s l) →
    Guarded step guard s ls := by
  intro ls
  induction ls with
  | nil => intro s _; trivial
  | cons l ls ih =>
      intro s h
      refine ⟨h l List.mem_cons_self s, ?_⟩
      cases hs : step s l with
      | error e => trivial
      | ok t => exact ih t fun l' hl' => h l' (List.mem_cons_of_mem _ hl')

theorem Guarded.append {ls' : List ι} : ∀ {ls : List ι} {s t : σ}, Guarded step guard s ls →
    runFrom step s ls = .ok t → Guarded step guard t ls' → Guarded step guard s (ls ++ ls') := by
  intro ls
  induction ls with
  | nil =>
      intro s t _ hr h
      cases hr
      exact h
  | cons l ls ih =>
      intro s t hg hr h
      obtain ⟨h1, h2⟩ := hg
      refine ⟨h1, ?_⟩
      cases hs : step s l with
      | error e => trivial
      | ok s' =>
          simp only [hs] at h2
          simp only [runFrom, hs] at hr
          exact ih h2 hr h

/-- A guarded run is guarded up to every label, and from there on. -/
theorem Guarded.split {ls' : List ι} : ∀ {ls : List ι} {s : σ}, Guarded step guard s (ls ++ ls') →
    Guarded step guard s ls ∧ ∀ t, runFrom step s ls = .ok t → Guarded step guard t ls' := by
  intro ls
  induction ls with
  | nil =>
      intro s h
      refine ⟨trivial, fun t ht => ?_⟩
      cases ht
      exact h
  | cons l ls ih =>
      intro s h
      obtain ⟨h1, h2⟩ := h
      cases hs : step s l with
      | error e => exact ⟨⟨h1, by simp [hs]⟩, fun t ht => by simp [runFrom, hs] at ht⟩
      | ok s' =>
          simp only [hs] at h2
          obtain ⟨hfirst, hrest⟩ := ih h2
          refine ⟨⟨h1, by simp only [hs]; exact hfirst⟩, fun t ht => hrest t ?_⟩
          simpa only [runFrom, hs] using ht

/-- **The invariant rule**: what every guarded step preserves holds at the end
of every guarded run. -/
theorem Guarded.invariant {I : σ → Prop}
    (hstep : ∀ s l s', I s → guard s l → step s l = .ok s' → I s') :
    ∀ {ls : List ι} {s s' : σ}, I s → Guarded step guard s ls → runFrom step s ls = .ok s' →
      I s' := by
  intro ls
  induction ls with
  | nil =>
      intro s s' hi _ hr
      cases hr
      exact hi
  | cons l ls ih =>
      intro s s' hi hg hr
      obtain ⟨h1, h2⟩ := hg
      cases hs : step s l with
      | error e => simp [runFrom, hs] at hr
      | ok t =>
          simp only [hs] at h2
          simp only [runFrom, hs] at hr
          exact ih (hstep s l t hi h1 hs) h2 hr

/-- **The progress rule**: if guarded steps from invariant states succeed and
preserve the invariant, so do guarded runs. -/
theorem Guarded.progress {I : σ → Prop}
    (hstep : ∀ s l, I s → guard s l → ∃ s', step s l = .ok s' ∧ I s') :
    ∀ {ls : List ι} {s : σ}, I s → Guarded step guard s ls →
      ∃ s', runFrom step s ls = .ok s' ∧ I s' := by
  intro ls
  induction ls with
  | nil => intro s hi _; exact ⟨s, rfl, hi⟩
  | cons l ls ih =>
      intro s hi hg
      obtain ⟨h1, h2⟩ := hg
      obtain ⟨t, ht, hit⟩ := hstep s l hi h1
      simp only [ht] at h2
      obtain ⟨s', hr, hi'⟩ := ih hit h2
      exact ⟨s', by simp [runFrom, ht, hr], hi'⟩

/-- **Labels that stand for runs**: if every label does what a run of another
step function does, a run over labels is one run of that function. -/
theorem runFrom_flatMap {κ : Type} {f : σ → κ → Except ε σ} {g : ι → List κ} {I : σ → Prop}
    (hkeep : ∀ s x s', I s → f s x = .ok s' → I s') :
    ∀ {ls : List ι} {s : σ}, (∀ l ∈ ls, ∀ s, I s → step s l = runFrom f s (g l)) → I s →
      runFrom step s ls = runFrom f s (ls.flatMap g) := by
  intro ls
  induction ls with
  | nil => intro s _ _; rfl
  | cons l ls ih =>
      intro s hstep hi
      rw [List.flatMap_cons, runFrom_split, runFrom, hstep l List.mem_cons_self s hi]
      cases hrun : runFrom f s (g l) with
      | error e => rfl
      | ok t =>
          have hall : Guarded f (fun _ _ => True) s (g l) :=
            Guarded.of_forall s fun _ _ _ => trivial
          have hit : I t := hall.invariant (fun s x s' hs _ hx => hkeep s x s' hs hx) hi hrun
          exact ih (fun l' hl' => hstep l' (List.mem_cons_of_mem _ hl')) hit

/-- **Writes to a table**, where the writes to one place agree: each place holds
what is written to it, or what it held. -/
theorem runFrom_writes {κ β : Type} [DecidableEq κ] {step : (κ → β) → ι → Except ε (κ → β)}
    (key : ι → κ) (value : κ → β) : ∀ {ls : List ι},
      (∀ l ∈ ls, ∀ table, step table l = .ok (Function.update table (key l) (value (key l)))) →
      ∀ table, ∃ table', runFrom step table ls = .ok table' ∧
        ∀ k, table' k = if k ∈ ls.map key then value k else table k := by
  intro ls
  induction ls with
  | nil => exact fun _ table => ⟨table, rfl, fun k => (if_neg List.not_mem_nil).symm⟩
  | cons l ls ih =>
      intro hstep table
      obtain ⟨table', hrun, htable⟩ := ih (fun l' hl' => hstep l' (List.mem_cons_of_mem _ hl'))
        (Function.update table (key l) (value (key l)))
      refine ⟨table', ?_, fun k => ?_⟩
      · rw [runFrom, hstep l List.mem_cons_self]
        exact hrun
      · rw [htable]
        simp only [List.map_cons, List.mem_cons]
        by_cases hk : k = key l
        · subst hk
          simp
        · simp [hk]

/-- A computation succeeds with a result that passes a check. -/
def okAnd {α : Type} (x : Except ε α) (p : α → Bool) : Bool :=
  match x with
  | .error _ => false
  | .ok a => p a

theorem exists_of_okAnd {α : Type} {x : Except ε α} {p : α → Bool} (h : okAnd x p = true) :
    ∃ a, x = .ok a ∧ p a = true := by
  cases x with
  | error e => simp [okAnd] at h
  | ok a => exact ⟨a, rfl, h⟩

/-- The result of a computation that succeeds. -/
def okOr {α : Type} (x : Except ε α) (d : α) : α :=
  match x with
  | .error _ => d
  | .ok a => a

theorem eq_ok_okOr {α : Type} {x : Except ε α} {d : α}
    (h : okAnd x (fun _ => true) = true) : x = .ok (okOr x d) := by
  cases x with
  | error e => simp [okAnd] at h
  | ok a => rfl

end DevOS.Lib
