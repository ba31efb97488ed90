import Mathlib.Data.List.Basic

/-!
# Scanning for the first minimum

The loop that keeps the best candidate seen so far and replaces it only by a
strictly smaller one. It ends with the FIRST of the smallest admissible
elements, or with what it started from when no admissible element is smaller
than the starting bound. Values are compared through a rank in `Nat`.
-/

namespace DevOS.Lib

variable {ι α : Type}

/-- **The scan finds the first minimum**: either nothing beats the starting
value, or the list splits at the chosen element, everything admissible before
it is strictly larger and everything admissible after it is no smaller. -/
theorem scan_first_min (ok : ι → Prop) (key : ι → α) (rank : α → Nat)
    (step : α × Option ι → ι → α × Option ι)
    (htake : ∀ acc i, ok i → rank (key i) < rank acc.1 → step acc i = (key i, some i))
    (hskip : ∀ acc i, ¬ (ok i ∧ rank (key i) < rank acc.1) → step acc i = acc) :
    ∀ (xs : List ι) (acc : α × Option ι),
    ((∀ i ∈ xs, ok i → rank acc.1 ≤ rank (key i)) ∧ xs.foldl step acc = acc) ∨
    ∃ pre i post, xs = pre ++ i :: post ∧ ok i ∧ rank (key i) < rank acc.1 ∧
      xs.foldl step acc = (key i, some i) ∧
      (∀ j ∈ pre, ok j → rank (key i) < rank (key j)) ∧
      (∀ j ∈ post, ok j → rank (key i) ≤ rank (key j)) := by
  intro xs
  induction xs with
  | nil =>
      intro acc
      exact .inl ⟨fun i hi => by simp at hi, rfl⟩
  | cons x xs ih =>
      intro acc
      by_cases hx : ok x ∧ rank (key x) < rank acc.1
      · -- `x` becomes the best so far
        have hs := htake acc x hx.1 hx.2
        rcases ih (key x, some x) with ⟨hall, hr⟩ | ⟨pre, i, post, he, hi, hlt, hr, hpre, hpost⟩
        · refine .inr ⟨[], x, xs, rfl, hx.1, hx.2, ?_, fun j hj => by simp at hj, hall⟩
          rw [List.foldl_cons, hs, hr]
        · refine .inr ⟨x :: pre, i, post, by rw [he]; rfl, hi, Nat.lt_trans hlt hx.2, ?_,
            fun j hj hok => ?_, hpost⟩
          · rw [List.foldl_cons, hs, hr]
          · rcases List.mem_cons.mp hj with rfl | hj
            · exact hlt
            · exact hpre j hj hok
      · have hs := hskip acc x hx
        rcases ih acc with ⟨hall, hr⟩ | ⟨pre, i, post, he, hi, hlt, hr, hpre, hpost⟩
        · refine .inl ⟨fun j hj hok => ?_, by rw [List.foldl_cons, hs, hr]⟩
          rcases List.mem_cons.mp hj with rfl | hj
          · exact Nat.le_of_not_lt (fun hc => hx ⟨hok, hc⟩)
          · exact hall j hj hok
        · refine .inr ⟨x :: pre, i, post, by rw [he]; rfl, hi, hlt, ?_, fun j hj hok => ?_, hpost⟩
          · rw [List.foldl_cons, hs, hr]
          · rcases List.mem_cons.mp hj with rfl | hj
            · exact Nat.lt_of_lt_of_le hlt (Nat.le_of_not_lt (fun hc => hx ⟨hok, hc⟩))
            · exact hpre j hj hok

end DevOS.Lib
