import Mathlib.Data.List.Basic

/-!
# First matches

Two searches of a list, one with a wider predicate than the other: when they
come to the same element, also where the wider search sees only a prefix.
-/

namespace DevOS.Lib

variable {α : Type} {p q : α → Bool}

/-- The first match of a wider predicate is the first match of a narrower one
when no element that only the wider one takes comes before it. -/
theorem find?_eq_find?_iff (hqp : ∀ x, q x = true → p x = true) : ∀ (xs : List α),
    xs.find? p = xs.find? q ↔ ∀ pre x post, xs = pre ++ x :: post → p x = true → q x = false →
      ∃ y ∈ pre, q y = true := by
  intro xs
  induction xs with
  | nil =>
      refine ⟨fun _ pre x post h => ?_, fun _ => rfl⟩
      cases pre <;> cases h
  | cons a xs ih =>
      cases hq : q a with
      | true =>
          rw [List.find?_cons_of_pos (hqp a hq), List.find?_cons_of_pos hq]
          refine ⟨fun _ pre x post h hp hx => ?_, fun _ => rfl⟩
          cases pre with
          | nil =>
              obtain ⟨rfl, -⟩ := List.cons.inj h
              rw [hq] at hx
              cases hx
          | cons b pre =>
              obtain ⟨rfl, -⟩ := List.cons.inj h
              exact ⟨a, List.mem_cons_self, hq⟩
      | false =>
          rw [List.find?_cons_of_neg (p := q) (by rw [hq]; decide)]
          cases hp : p a with
          | true =>
              rw [List.find?_cons_of_pos hp]
              constructor
              · intro h
                have := List.find?_some h.symm
                rw [hq] at this
                cases this
              · intro h
                obtain ⟨y, hy, -⟩ := h [] a xs rfl hp hq
                cases hy
          | false =>
              rw [List.find?_cons_of_neg (by rw [hp]; decide), ih]
              constructor
              · intro h pre x post heq hpx hqx
                cases pre with
                | nil =>
                    obtain ⟨rfl, -⟩ := List.cons.inj heq
                    rw [hp] at hpx
                    cases hpx
                | cons b pre =>
                    obtain ⟨rfl, htail⟩ := List.cons.inj heq
                    obtain ⟨y, hy, hqy⟩ := h pre x post htail hpx hqx
                    exact ⟨y, List.mem_cons_of_mem _ hy, hqy⟩
              · intro h pre x post heq hpx hqx
                obtain ⟨y, hy, hqy⟩ := h (a :: pre) x post (by rw [heq]; rfl) hpx hqx
                obtain rfl | hy := List.mem_cons.mp hy
                · rw [hq] at hqy
                  cases hqy
                · exact ⟨y, hy, hqy⟩

/-- The same where the narrower search goes on behind the list. -/
theorem find?_eq_find?_append_iff (hqp : ∀ x, q x = true → p x = true) (xs ys : List α) :
    xs.find? p = (xs ++ ys).find? q ↔
      (∀ pre x post, xs = pre ++ x :: post → p x = true → q x = false → ∃ y ∈ pre, q y = true) ∧
      ((∃ y ∈ xs ++ ys, q y = true) → ∃ y ∈ xs, q y = true) := by
  rw [← find?_eq_find?_iff hqp, List.find?_append]
  cases hq : xs.find? q with
  | some y =>
      have hy : ∃ y ∈ xs, q y = true := ⟨y, List.mem_of_find?_eq_some hq, List.find?_some hq⟩
      exact ⟨fun h => ⟨h, fun _ => hy⟩, fun h => h.1⟩
  | none =>
      have hno : ¬ ∃ y ∈ xs, q y = true := by
        rintro ⟨y, hy, hqy⟩
        exact List.find?_eq_none.mp hq y hy hqy
      rw [Option.none_or]
      constructor
      · intro h
        cases hp : xs.find? p with
        | none =>
            refine ⟨rfl, fun ⟨y, hy, hqy⟩ => absurd hqy ?_⟩
            rw [hp] at h
            obtain hy | hy := List.mem_append.mp hy
            · exact List.find?_eq_none.mp hq y hy
            · exact List.find?_eq_none.mp h.symm y hy
        | some x =>
            rw [hp] at h
            have hx := List.find?_some h.symm
            exact absurd ⟨x, List.mem_of_find?_eq_some hp, hx⟩ hno
      · rintro ⟨hp, hrest⟩
        rw [hp]
        symm
        rw [List.find?_eq_none]
        intro y hy hqy
        exact hno (hrest ⟨y, List.mem_append_right _ hy, hqy⟩)

/-- What a prefix has before the first element that stops a search is a prefix
of what the list has. -/
theorem takeWhile_append_prefix (p : α → Bool) (xs ys : List α) :
    ∃ rest, (xs ++ ys).takeWhile p = xs.takeWhile p ++ rest := by
  induction xs with
  | nil => exact ⟨_, rfl⟩
  | cons x xs ih =>
      obtain ⟨rest, hrest⟩ := ih
      cases hx : p x with
      | true =>
          refine ⟨rest, ?_⟩
          rw [List.cons_append, List.takeWhile_cons_of_pos hx, List.takeWhile_cons_of_pos hx, hrest,
            List.cons_append]
      | false =>
          have hneg : ¬ p x = true := by rw [hx]; decide
          refine ⟨[], ?_⟩
          rw [List.cons_append, List.takeWhile_cons_of_neg hneg, List.takeWhile_cons_of_neg hneg,
            List.append_nil]

end DevOS.Lib
