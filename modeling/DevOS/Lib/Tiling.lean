import Mathlib.Algebra.Order.Group.Nat
import Mathlib.Algebra.Order.Ring.Nat
import Mathlib.Logic.Function.Basic
import Mathlib.Tactic.Ring

/-!
# Aligned block tilings

A line of frames is cut into BLOCKS: a block of order `k` starts at a
multiple of `2 ^ k`, spans `2 ^ k` frames, and is recorded only by a mark on
its first frame (`Cell.head k`) and by `Cell.tail` on the others. Frames in
no block are `vacant`.

The recorded marks form a `Tiling` when every block is aligned, its other
frames are tails, and no tail is left without a block. Blocks of a tiling are
disjoint without further assumption. The edits are local: `Tiling.replace`
re-cuts a window that is a union of whole blocks, and `split`, `merge` and
`group` are its instances.
-/

namespace DevOS.Lib

/-- What is recorded about one frame. -/
inductive Cell where
  | vacant
  | head (order : Nat)
  | tail
deriving DecidableEq, Repr

/-- Marks that describe aligned, disjoint blocks of order at most `m`. -/
structure Tiling (m : Nat) (c : Nat → Cell) : Prop where
  order_le : ∀ {h k}, c h = .head k → k ≤ m
  aligned : ∀ {h k}, c h = .head k → 2 ^ k ∣ h
  tails : ∀ {h k t}, c h = .head k → h < t → t < h + 2 ^ k → c t = .tail
  covered : ∀ {t}, c t = .tail → ∃ h k, c h = .head k ∧ h < t ∧ t < h + 2 ^ k

variable {m : Nat} {c c' : Nat → Cell}

/-- **Blocks are disjoint**: a frame in two blocks is in one block. -/
theorem Tiling.disjoint (hc : Tiling m c) {h₁ h₂ k₁ k₂ f : Nat}
    (e₁ : c h₁ = .head k₁) (e₂ : c h₂ = .head k₂)
    (l₁ : h₁ ≤ f) (u₁ : f < h₁ + 2 ^ k₁) (l₂ : h₂ ≤ f) (u₂ : f < h₂ + 2 ^ k₂) : h₁ = h₂ := by
  rcases Nat.lt_trichotomy h₁ h₂ with hlt | heq | hgt
  · have := hc.tails e₁ hlt (by omega)
    rw [e₂] at this
    cases this
  · exact heq
  · have := hc.tails e₂ hgt (by omega)
    rw [e₁] at this
    cases this

/-- Every frame of a block is occupied. -/
theorem Tiling.occupied (hc : Tiling m c) {h k f : Nat} (e : c h = .head k)
    (l : h ≤ f) (u : f < h + 2 ^ k) : c f ≠ .vacant := by
  rcases Nat.eq_or_lt_of_le l with rfl | hlt
  · simp [e]
  · simp [hc.tails e hlt u]

/-- **Re-cut a window.** `W` is a union of whole blocks of the old marks, the
new marks agree outside `W` and tile `W` by themselves. -/
theorem Tiling.replace (hc : Tiling m c) {W : Nat → Prop}
    (hout : ∀ t, ¬ W t → c' t = c t)
    (hclosed : ∀ {h k f}, c h = .head k → h ≤ f → f < h + 2 ^ k → (W f ↔ W h))
    (hheads : ∀ {h k}, W h → c' h = .head k → k ≤ m ∧ 2 ^ k ∣ h ∧
      ∀ t, h < t → t < h + 2 ^ k → W t ∧ c' t = .tail)
    (hcover : ∀ {t}, W t → c' t = .tail → ∃ h k, c' h = .head k ∧ h < t ∧ t < h + 2 ^ k) :
    Tiling m c' := by
  have hcell : ∀ {h k}, ¬ W h → c' h = .head k → c h = .head k := by
    intro h k hw e
    rwa [hout h hw] at e
  refine ⟨?_, ?_, ?_, ?_⟩
  · intro h k e
    by_cases hw : W h
    · exact (hheads hw e).1
    · exact hc.order_le (hcell hw e)
  · intro h k e
    by_cases hw : W h
    · exact (hheads hw e).2.1
    · exact hc.aligned (hcell hw e)
  · intro h k t e hlt hub
    by_cases hw : W h
    · exact ((hheads hw e).2.2 t hlt hub).2
    · have e' := hcell hw e
      have hwt : ¬ W t := fun h' => hw ((hclosed e' (Nat.le_of_lt hlt) hub).mp h')
      rw [hout t hwt]
      exact hc.tails e' hlt hub
  · intro t e
    by_cases hw : W t
    · exact hcover hw e
    · rw [hout t hw] at e
      obtain ⟨h, k, eh, hlt, hub⟩ := hc.covered e
      have hwh : ¬ W h := fun h' => hw ((hclosed eh (Nat.le_of_lt hlt) hub).mpr h')
      exact ⟨h, k, (hout h hwh).trans eh, hlt, hub⟩

/-- **Split** a block into its two halves. -/
theorem Tiling.split (hc : Tiling m c) {h k : Nat} (e : c h = .head (k + 1)) :
    Tiling m (Function.update (Function.update c h (.head k)) (h + 2 ^ k) (.head k)) := by
  have hpow : 2 ^ (k + 1) = 2 ^ k + 2 ^ k := by ring
  have hpos : 0 < 2 ^ k := Nat.two_pow_pos k
  have hal := hc.aligned e
  have hk : k ≤ m := by
    have := hc.order_le e
    omega
  have hal' : 2 ^ k ∣ h := dvd_trans (pow_dvd_pow 2 (Nat.le_succ k)) hal
  have htail : ∀ t, h < t → t < h + 2 ^ (k + 1) → t ≠ h + 2 ^ k →
      Function.update (Function.update c h (.head k)) (h + 2 ^ k) (.head k) t = .tail := by
    intro t h1 h2 h3
    rw [Function.update_of_ne h3, Function.update_of_ne (by omega)]
    exact hc.tails e h1 h2
  refine hc.replace (W := fun t => h ≤ t ∧ t < h + 2 ^ (k + 1)) ?_ ?_ ?_ ?_
  · intro t ht
    rw [Function.update_of_ne (by rintro rfl; omega), Function.update_of_ne (by rintro rfl; omega)]
  · intro h' k' f e' hl hu
    constructor
    · intro hw
      have := hc.disjoint e e' hw.1 hw.2 hl hu
      omega
    · intro hw
      have hh := hc.disjoint e e' hw.1 hw.2 (le_refl _) (by have := Nat.two_pow_pos k'; omega)
      subst hh
      rw [e] at e'
      cases e'
      omega
  · intro x k' hw ex
    have hx : x = h ∨ x = h + 2 ^ k := by
      by_contra hn
      have := htail x (by omega) (by omega) (by omega)
      rw [ex] at this
      cases this
    rcases hx with rfl | rfl
    · rw [Function.update_of_ne (by omega), Function.update_self] at ex
      cases ex
      exact ⟨hk, hal', fun t h1 h2 => ⟨by omega, htail t h1 (by omega) (by omega)⟩⟩
    · rw [Function.update_self] at ex
      cases ex
      exact ⟨hk, Nat.dvd_add hal' (Nat.dvd_refl _),
        fun t h1 h2 => ⟨by omega, htail t (by omega) (by omega) (by omega)⟩⟩
  · intro t hw et
    by_cases ht : t < h + 2 ^ k
    · refine ⟨h, k, ?_, ?_, ht⟩
      · rw [Function.update_of_ne (by omega), Function.update_self]
      · rcases Nat.eq_or_lt_of_le hw.1 with rfl | hlt
        · rw [Function.update_of_ne (by omega), Function.update_self] at et
          cases et
        · exact hlt
    · refine ⟨h + 2 ^ k, k, Function.update_self .., ?_, by omega⟩
      rcases Nat.eq_or_lt_of_le (Nat.le_of_not_lt ht) with rfl | hlt
      · rw [Function.update_self] at et
        cases et
      · exact hlt

/-- **Group** whole blocks that exactly fill an aligned window into one
block. -/
theorem Tiling.group (hc : Tiling m c) {h k : Nat} (hk : k ≤ m) (hal : 2 ^ k ∣ h)
    (hclosed : ∀ {h' k' f}, c h' = .head k' → h' ≤ f → f < h' + 2 ^ k' →
      (h ≤ f ∧ f < h + 2 ^ k ↔ h ≤ h' ∧ h' < h + 2 ^ k))
    (hnew : c' h = .head k) (htail : ∀ t, h < t → t < h + 2 ^ k → c' t = .tail)
    (hout : ∀ t, ¬ (h ≤ t ∧ t < h + 2 ^ k) → c' t = c t) : Tiling m c' := by
  refine hc.replace (W := fun t => h ≤ t ∧ t < h + 2 ^ k) hout hclosed ?_ ?_
  · intro x k' hw ex
    have hx : x = h := by
      by_contra hn
      have := htail x (by omega) (by omega)
      rw [ex] at this
      cases this
    subst hx
    rw [hnew] at ex
    cases ex
    exact ⟨hk, hal, fun t h1 h2 => ⟨by omega, htail t h1 h2⟩⟩
  · intro t hw et
    refine ⟨h, k, hnew, ?_, hw.2⟩
    rcases Nat.eq_or_lt_of_le hw.1 with rfl | hlt
    · rw [hnew] at et
      cases et
    · exact hlt

/-- **Merge** two buddies: equal orders, adjacent, the left one aligned for
the next order. -/
theorem Tiling.merge (hc : Tiling m c) {h k : Nat} (e₁ : c h = .head k)
    (e₂ : c (h + 2 ^ k) = .head k) (hk : k < m) (hal : 2 ^ (k + 1) ∣ h) :
    Tiling m (Function.update (Function.update c h (.head (k + 1))) (h + 2 ^ k) .tail) := by
  have hpow : 2 ^ (k + 1) = 2 ^ k + 2 ^ k := by ring
  have hpos : 0 < 2 ^ k := Nat.two_pow_pos k
  refine hc.group (h := h) (k := k + 1) hk hal ?_ ?_ ?_ ?_
  · intro h' k' f e' hl hu
    have hpos' := Nat.two_pow_pos k'
    -- a block meeting the window is one of the two buddies
    have hone : ∀ g, h' ≤ g → g < h' + 2 ^ k' → h ≤ g → g < h + 2 ^ (k + 1) →
        k' = k ∧ (h' = h ∨ h' = h + 2 ^ k) := by
      intro g g1 g2 g3 g4
      by_cases hg : g < h + 2 ^ k
      · have hh := hc.disjoint e₁ e' g3 hg g1 g2
        subst hh
        rw [e₁] at e'
        cases e'
        exact ⟨rfl, .inl rfl⟩
      · have hh := hc.disjoint e₂ e' (by omega) (by omega) g1 g2
        subst hh
        rw [e₂] at e'
        cases e'
        exact ⟨rfl, .inr rfl⟩
    constructor
    · intro hw
      obtain ⟨rfl, hcase⟩ := hone f hl hu hw.1 hw.2
      omega
    · intro hw
      obtain ⟨rfl, hcase⟩ := hone h' (le_refl _) (by omega) hw.1 hw.2
      omega
  · rw [Function.update_of_ne (by omega), Function.update_self]
  · intro t h1 h2
    by_cases ht : t = h + 2 ^ k
    · rw [ht, Function.update_self]
    · rw [Function.update_of_ne ht, Function.update_of_ne (by omega)]
      by_cases hlt : t < h + 2 ^ k
      · exact hc.tails e₁ h1 hlt
      · exact hc.tails e₂ (by omega) (by omega)
  · intro t ht
    rw [Function.update_of_ne (by rintro rfl; omega), Function.update_of_ne (by rintro rfl; omega)]

end DevOS.Lib
