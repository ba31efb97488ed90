import DevOS.Lib.RadixTree

/-!
# Lookups that need a right

A lookup in a radix tree may need a right that every word on its way has to
grant, as page walks in user mode do. It finds no more than the lookup without
(`find_of_only`), and as much where every word grants the right
(`find_only_of_all`).
-/

namespace DevOS.Lib

variable {ν ι α β : Type}

/-- What a word names, if it grants the right. -/
def only {γ : Type} (ok : α → Bool) (f : α → Option γ) (a : α) : Option γ :=
  if ok a then f a else none

theorem only_eq_some {γ : Type} {ok : α → Bool} {f : α → Option γ} {a : α} {c : γ} :
    only ok f a = some c ↔ ok a = true ∧ f a = some c := by
  unfold only
  split
  · rename_i h
    simp [h]
  · rename_i h
    simp [h]

theorem only_of_ok {γ : Type} {ok : α → Bool} {f : α → Option γ} {a : α} (h : ok a = true) :
    only ok f a = f a := if_pos h

theorem only_of_none {γ : Type} {ok : α → Bool} {f : α → Option γ} {a : α} (h : f a = none) :
    only ok f a = none := by
  unfold only
  rw [h, ite_self]

variable {child : α → Option ν} {leaf : Nat → α → Option β} {ok : α → Bool}
  {mem mem' : ν → ι → α}

theorem nodeAt_of_only : ∀ {p : List ι} {t u : ν},
    nodeAt (only ok child) mem t p = some u → nodeAt child mem t p = some u := by
  intro p
  induction p with
  | nil => exact fun h => h
  | cons i p ih =>
      intro t u h
      simp only [nodeAt] at h ⊢
      cases hc : only ok child (mem t i) with
      | none =>
          rw [hc] at h
          cases h
      | some v =>
          rw [hc] at h
          rw [(only_eq_some.mp hc).2]
          exact ih h

/-- **What is found with the right** is found without it, in a word that grants
the right. -/
theorem find_of_only : ∀ {p : List ι} {t : ν} {b : β},
    find (only ok child) (fun k => only ok (leaf k)) mem t p = some b →
    find child leaf mem t p = some b ∧ ∃ k a, leaf k a = some b ∧ ok a = true := by
  intro p
  induction p with
  | nil =>
      intro t b h
      cases h
  | cons i p ih =>
      intro t b h
      simp only [find] at h ⊢
      cases hl : only ok (leaf p.length) (mem t i) with
      | some c =>
          rw [hl] at h
          cases h
          obtain ⟨hok, hleaf⟩ := only_eq_some.mp hl
          rw [hleaf]
          exact ⟨rfl, _, _, hleaf, hok⟩
      | none =>
          rw [hl] at h
          cases hc : only ok child (mem t i) with
          | none =>
              rw [hc] at h
              cases h
          | some u =>
              rw [hc] at h
              obtain ⟨hok, hchild⟩ := only_eq_some.mp hc
              rw [only_of_ok hok] at hl
              rw [hl, hchild]
              exact ih h

/-- **Where every word that names something grants the right**, it makes no
difference. -/
theorem find_only_of_all : ∀ {p : List ι} {t : ν},
    (∀ q j u, q ++ [j] <+: p → nodeAt child mem t q = some u →
      ok (mem u j) = true ∨ child (mem u j) = none ∧ ∀ k, leaf k (mem u j) = none) →
    find (only ok child) (fun k => only ok (leaf k)) mem t p = find child leaf mem t p := by
  intro p
  induction p with
  | nil => intro t _; rfl
  | cons i p ih =>
      intro t h
      have hword := h [] i t (List.cons_prefix_cons.mpr ⟨rfl, List.nil_prefix⟩) rfl
      simp only [find]
      rcases hword with hok | ⟨hchild, hleaf⟩
      · rw [only_of_ok hok, only_of_ok hok]
        cases leaf p.length (mem t i) with
        | some b => rfl
        | none =>
            cases hc : child (mem t i) with
            | none => rfl
            | some v =>
                refine ih fun q j u hpre hu => ?_
                refine h (i :: q) j u (List.cons_prefix_cons.mpr ⟨rfl, hpre⟩) ?_
                simp only [nodeAt, hc]
                exact hu
      · rw [only_of_none (hleaf _), only_of_none hchild, hleaf, hchild]

/-- It depends on the words along its path only. -/
theorem find_only_along {p : List ι} {t : ν}
    (h : ∀ q j u, q ++ [j] <+: p → nodeAt child mem t q = some u → mem' u j = mem u j) :
    find (only ok child) (fun k => only ok (leaf k)) mem' t p =
      find (only ok child) (fun k => only ok (leaf k)) mem t p :=
  find_along fun q j u hpre hu => h q j u hpre (nodeAt_of_only hu)

end DevOS.Lib
