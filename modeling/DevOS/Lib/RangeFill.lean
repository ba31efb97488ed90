import Mathlib.Data.Finset.Card
import Mathlib.Order.Interval.Finset.Nat

/-!
# Filling a range

A partial map on the naturals is filled over a range: each cell of the range
was empty and holds a value now, or is as it was, and `lost` counts the cells
that were not filled. Filling is put together from adjacent ranges
(`Fills.trans`), each of which was filled wholly (`Fills.all`) or not at all
(`Fills.skip`).
-/

namespace DevOS.Lib

variable {β : Type} {P : Nat → β → Prop} {τ τ' τ'' : Nat → Option β} {lo mid hi lost lost' : Nat}

/-- The cells of `[lo, hi)` that were empty and are no longer. -/
def newly (τ τ' : Nat → Option β) (lo hi : Nat) : Finset Nat :=
  (Finset.Ico lo hi).filter fun a => (τ a).isNone ∧ (τ' a).isSome

theorem mem_newly {a : Nat} :
    a ∈ newly τ τ' lo hi ↔ (lo ≤ a ∧ a < hi) ∧ (τ a).isNone ∧ (τ' a).isSome := by
  rw [newly, Finset.mem_filter, Finset.mem_Ico]

/-- The map `τ` has been filled over `[lo, hi)` with values that `P` allows. -/
structure Fills (P : Nat → β → Prop) (τ τ' : Nat → Option β) (lo hi lost : Nat) : Prop where
  frame : ∀ a, ¬ (lo ≤ a ∧ a < hi) → τ' a = τ a
  cell : ∀ a, τ' a = τ a ∨ τ a = none ∧ ∃ t, τ' a = some t ∧ P a t
  count : lost + (newly τ τ' lo hi).card = hi - lo

/-- Nothing was filled. -/
theorem Fills.skip (lo hi : Nat) (h : ∀ a, τ' a = τ a) : Fills P τ τ' lo hi (hi - lo) := by
  refine ⟨fun a _ => h a, fun a => .inl (h a), ?_⟩
  have hempty : newly τ τ' lo hi = ∅ := by
    ext a
    rw [mem_newly, h a]
    cases τ a <;> simp
  rw [hempty, Finset.card_empty, Nat.add_zero]

/-- Everything was filled. -/
theorem Fills.all (hframe : ∀ a, ¬ (lo ≤ a ∧ a < hi) → τ' a = τ a)
    (h : ∀ a, lo ≤ a ∧ a < hi → τ a = none ∧ ∃ t, τ' a = some t ∧ P a t) :
    Fills P τ τ' lo hi 0 := by
  refine ⟨hframe, fun a => ?_, ?_⟩
  · by_cases ha : lo ≤ a ∧ a < hi
    · exact .inr (h a ha)
    · exact .inl (hframe a ha)
  · have hfull : newly τ τ' lo hi = Finset.Ico lo hi := by
      ext a
      rw [mem_newly, Finset.mem_Ico]
      refine ⟨fun ha => ha.1, fun ha => ⟨ha, ?_⟩⟩
      obtain ⟨hn, t, ht, -⟩ := h a ha
      rw [hn, ht]
      simp
    rw [hfull, Nat.card_Ico, Nat.zero_add]

/-- **Filling adjacent ranges**, the lower one first. -/
theorem Fills.trans (h : Fills P τ τ' lo mid lost) (h' : Fills P τ' τ'' mid hi lost')
    (hlo : lo ≤ mid) (hhi : mid ≤ hi) : Fills P τ τ'' lo hi (lost + lost') := by
  have hsplit : newly τ τ'' lo hi = newly τ τ' lo mid ∪ newly τ' τ'' mid hi := by
    ext a
    rw [Finset.mem_union, mem_newly, mem_newly, mem_newly]
    by_cases ha : a < mid
    · rw [h'.frame a (by omega)]
      constructor
      · intro hc
        exact .inl ⟨⟨hc.1.1, ha⟩, hc.2⟩
      · intro hc
        rcases hc with hc | hc
        · exact ⟨⟨hc.1.1, by omega⟩, hc.2⟩
        · exact absurd hc.1.1 (by omega)
    · rw [h.frame a (by omega)]
      constructor
      · intro hc
        exact .inr ⟨⟨by omega, hc.1.2⟩, hc.2⟩
      · intro hc
        rcases hc with hc | hc
        · exact absurd hc.1.2 ha
        · exact ⟨⟨by omega, hc.1.2⟩, hc.2⟩
  have hdisj : Disjoint (newly τ τ' lo mid) (newly τ' τ'' mid hi) := by
    rw [Finset.disjoint_left]
    intro a h1 h2
    rw [mem_newly] at h1 h2
    omega
  refine ⟨fun a ha => ?_, fun a => ?_, ?_⟩
  · rw [h'.frame a (by omega), h.frame a (by omega)]
  · by_cases ha : a < mid
    · rw [h'.frame a (by omega)]
      exact h.cell a
    · rw [← h.frame a (by omega)]
      exact h'.cell a
  · have h1 := h.count
    have h2 := h'.count
    rw [hsplit, Finset.card_union_of_disjoint hdisj]
    omega

/-- The cells around the range were not filled. -/
theorem Fills.widen (h : Fills P τ τ' lo hi lost) {lo' hi' : Nat} (hlo : lo' ≤ lo) (hle : lo ≤ hi)
    (hhi : hi ≤ hi') : Fills P τ τ' lo' hi' ((lo - lo') + lost + (hi' - hi)) :=
  ((Fills.skip lo' lo fun _ => rfl).trans h hlo hle).trans (.skip hi hi' fun _ => rfl) (by omega)
    hhi

/-- Where nothing was lost, every cell was filled. -/
theorem Fills.filled (h : Fills P τ τ' lo hi 0) {a : Nat} (h1 : lo ≤ a) (h2 : a < hi) :
    τ a = none ∧ ∃ t, τ' a = some t ∧ P a t := by
  have hcount := h.count
  rw [Nat.zero_add, ← Nat.card_Ico] at hcount
  have hfull : newly τ τ' lo hi = Finset.Ico lo hi :=
    Finset.eq_of_subset_of_card_le (Finset.filter_subset _ _) hcount.ge
  have hmem : a ∈ newly τ τ' lo hi := hfull ▸ Finset.mem_Ico.mpr ⟨h1, h2⟩
  obtain ⟨-, hnone, hsome⟩ := mem_newly.mp hmem
  rcases h.cell a with hsame | hcell
  · rw [hsame, Option.isNone_iff_eq_none.mp hnone] at hsome
    cases hsome
  · exact hcell

end DevOS.Lib
