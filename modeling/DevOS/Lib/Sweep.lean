import Mathlib.Data.List.Nodup
import Mathlib.Data.List.Perm.Basic

/-!
# List operations of a sweep over end points

Insertion sort that scans the sorted prefix from its right end, and removal
of an element by overwriting it with the last one. Both are about arbitrary
element types: the sort needs a strict comparison that is transitive and
asymmetric, the removal needs the element to occur once.
-/

namespace DevOS.Lib

variable {α : Type}

/-! ## Insertion from the right -/

/-- Insert `x` into the prefix `ys`, kept with its right end first: skip
elements until one is strictly smaller. -/
def insertRight (lt : α → α → Bool) (x : α) : List α → List α
  | [] => [x]
  | y :: ys => if lt y x then x :: y :: ys else y :: insertRight lt x ys

/-- Insertion sort. -/
def sortRight (lt : α → α → Bool) (xs : List α) : List α :=
  (xs.foldl (fun acc x => insertRight lt x acc) []).reverse

variable {lt : α → α → Bool}

theorem insertRight_perm (x : α) (ys : List α) : (insertRight lt x ys).Perm (x :: ys) := by
  induction ys with
  | nil => exact List.Perm.refl _
  | cons y ys ih =>
      unfold insertRight
      split
      · exact List.Perm.refl _
      · exact (ih.cons y).trans (List.Perm.swap x y ys)

theorem foldl_insertRight_perm (xs : List α) : ∀ acc : List α,
    (xs.foldl (fun acc x => insertRight lt x acc) acc).Perm (xs ++ acc) := by
  induction xs with
  | nil => intro acc; exact List.Perm.refl _
  | cons x xs ih =>
      intro acc
      have hstep := ih (insertRight lt x acc)
      exact (hstep.trans ((insertRight_perm x acc).append_left xs)).trans List.perm_middle

/-- **The sort permutes.** -/
theorem sortRight_perm (xs : List α) : (sortRight lt xs).Perm xs := by
  have h : (xs.foldl (fun acc x => insertRight lt x acc) []).Perm (xs ++ []) :=
    foldl_insertRight_perm xs []
  rw [List.append_nil] at h
  exact (List.reverse_perm _).trans h

section Sorted

variable (hasymm : ∀ a b, lt a b = true → lt b a = false)
  (htrans : ∀ a b c, lt a b = true → lt b c = true → lt a c = true)

include hasymm htrans

theorem insertRight_sorted {x : α} {ys : List α} (h : ys.Pairwise fun a b => lt a b = false) :
    (insertRight lt x ys).Pairwise fun a b => lt a b = false := by
  induction ys with
  | nil => exact List.pairwise_singleton _ _
  | cons y ys ih =>
      obtain ⟨hy, hys⟩ := List.pairwise_cons.mp h
      unfold insertRight
      split
      · rename_i hyx
        refine List.pairwise_cons.mpr ⟨fun z hz => ?_, h⟩
        rcases List.mem_cons.mp hz with rfl | hz
        · exact hasymm _ _ hyx
        · -- `x` below `z` would put `y` below `z` too
          cases hxz : lt x z with
          | false => rfl
          | true =>
              have := htrans _ _ _ hyx hxz
              rw [hy z hz] at this
              cases this
      · rename_i hyx
        refine List.pairwise_cons.mpr ⟨fun z hz => ?_, ih hys⟩
        rcases List.mem_cons.mp ((insertRight_perm x ys).mem_iff.mp hz) with rfl | hz
        · exact Bool.eq_false_iff.mpr hyx
        · exact hy z hz

/-- **The sort sorts**: nothing is followed by something strictly smaller. -/
theorem sortRight_sorted (xs : List α) :
    (sortRight lt xs).Pairwise fun a b => lt b a = false := by
  have hfold : ∀ (xs acc : List α), (acc.Pairwise fun a b => lt a b = false) →
      ((xs.foldl (fun acc x => insertRight lt x acc) acc).Pairwise fun a b => lt a b = false) := by
    intro xs
    induction xs with
    | nil => intro acc h; exact h
    | cons x xs ih => intro acc h; exact ih _ (insertRight_sorted hasymm htrans h)
  rw [sortRight, List.pairwise_reverse]
  exact hfold xs [] List.Pairwise.nil

end Sorted

/-! ## Removal by swapping with the last element -/

/-- A list with an element has a last one, and without repetitions that one
occurs nowhere else. -/
theorem exists_concat_of_nodup {l : List α} {e : α} (hnd : l.Nodup) (he : e ∈ l) :
    ∃ init z, l = init ++ [z] ∧ z ∉ init := by
  have hl := List.dropLast_append_getLast (List.ne_nil_of_mem he)
  refine ⟨l.dropLast, l.getLast (List.ne_nil_of_mem he), hl.symm, fun h => ?_⟩
  rw [← hl] at hnd
  exact (List.nodup_append.mp hnd).2.2 _ h _ (List.mem_singleton.mpr rfl) rfl

variable [DecidableEq α]

/-- Overwrite `e` with the last element and drop the last place. -/
def swapRemove (l : List α) (e : α) : List α :=
  (l.map fun x => if x = e then l.getLast?.getD e else x).dropLast

/-- The two shapes of a removal: `e` was last, or the last element takes its
place. -/
theorem swapRemove_concat (init : List α) (z e : α) :
    swapRemove (init ++ [z]) e = init.map fun x => if x = e then z else x := by
  simp [swapRemove]

variable {l : List α} {e : α}

/-- **Removal removes `e` and nothing else.** -/
theorem mem_swapRemove (hnd : l.Nodup) (he : e ∈ l) (i : α) :
    i ∈ swapRemove l e ↔ i ∈ l ∧ i ≠ e := by
  obtain ⟨init, z, rfl, hz⟩ := exists_concat_of_nodup hnd he
  rw [swapRemove_concat, List.mem_map]
  constructor
  · rintro ⟨x, hx, rfl⟩
    split
    · rename_i hxe
      refine ⟨by simp, fun hze => hz ?_⟩
      rw [hze, ← hxe]
      exact hx
    · rename_i hxe
      exact ⟨List.mem_append_left _ hx, hxe⟩
  · rintro ⟨hi, hne⟩
    rcases List.mem_append.mp hi with hi | hi
    · exact ⟨i, hi, by rw [if_neg hne]⟩
    · rw [List.mem_singleton] at hi
      subst hi
      have hein : e ∈ init := by
        rcases List.mem_append.mp he with h | h
        · exact h
        · exact absurd (List.mem_singleton.mp h).symm hne
      exact ⟨e, hein, by rw [if_pos rfl]⟩

theorem nodup_swapRemove (hnd : l.Nodup) (he : e ∈ l) : (swapRemove l e).Nodup := by
  obtain ⟨init, z, rfl, hz⟩ := exists_concat_of_nodup hnd he
  rw [swapRemove_concat]
  refine List.Nodup.map_on ?_ (List.nodup_append.mp hnd).1
  intro x hx y hy hxy
  by_cases hxe : x = e <;> by_cases hye : y = e
  · rw [hxe, hye]
  · rw [if_pos hxe, if_neg hye] at hxy
    exact absurd (hxy ▸ hy) hz
  · rw [if_neg hxe, if_pos hye] at hxy
    exact absurd (hxy ▸ hx) hz
  · rw [if_neg hxe, if_neg hye] at hxy
    exact hxy

end DevOS.Lib
