import DevOS.Lib.Tiling
import Mathlib.Algebra.Ring.Parity

/-!
# Coalesced tilings

Some blocks of a tiling are FREE. The tiling is coalesced when no two free
blocks are buddies: two halves of an aligned block of the next order. A
coalesced tiling is a normal form: an aligned window of free frames lies in
one free block (`Coalesced.window`), so the free frames alone determine the
free blocks (`Coalesced.head_unique`).
-/

namespace DevOS.Lib

variable {m : Nat} {c c' : Nat → Cell} {free free' : Nat → Prop}

/-- The frame lies in a free block. -/
def FreeFrame (c : Nat → Cell) (free : Nat → Prop) (f : Nat) : Prop :=
  ∃ h k, c h = .head k ∧ free h ∧ h ≤ f ∧ f < h + 2 ^ k

/-- No two free buddies of an order below `m`. -/
def Coalesced (m : Nat) (c : Nat → Cell) (free : Nat → Prop) : Prop :=
  ∀ h k, k < m → 2 ^ (k + 1) ∣ h → c h = .head k → free h →
    c (h + 2 ^ k) = .head k → ¬ free (h + 2 ^ k)

/-! ## Aligned windows -/

theorem add_le_of_dvd {d a b : Nat} (ha : d ∣ a) (hb : d ∣ b) (h : a < b) : a + d ≤ b := by
  obtain ⟨x, rfl⟩ := ha
  obtain ⟨y, rfl⟩ := hb
  have hxy : x + 1 ≤ y := Nat.lt_of_mul_lt_mul_left h
  calc d * x + d = d * (x + 1) := by ring
    _ ≤ d * y := Nat.mul_le_mul_left d hxy

/-- Two aligned windows that meet are nested. -/
theorem window_nested {h g k j f : Nat} (hk : 2 ^ k ∣ h) (hj : 2 ^ j ∣ g) (hkj : k ≤ j)
    (h1 : h ≤ f) (h2 : f < h + 2 ^ k) (g1 : g ≤ f) (g2 : f < g + 2 ^ j) :
    g ≤ h ∧ h + 2 ^ k ≤ g + 2 ^ j := by
  have hdvd : 2 ^ k ∣ 2 ^ j := pow_dvd_pow 2 hkj
  have hg : 2 ^ k ∣ g := dvd_trans hdvd hj
  constructor
  · by_contra hlt
    have := add_le_of_dvd hk hg (Nat.lt_of_not_le hlt)
    omega
  · exact add_le_of_dvd hk (Nat.dvd_add hg hdvd) (by omega)

/-- The right buddy of an aligned frame is aligned no further. -/
theorem not_dvd_add_pow {h k : Nat} (hk : 2 ^ (k + 1) ∣ h) : ¬ 2 ^ (k + 1) ∣ h + 2 ^ k := by
  intro hc
  have hpow : 2 ^ (k + 1) ∣ 2 ^ k := (Nat.dvd_add_right hk).mp hc
  have := Nat.le_of_dvd (Nat.two_pow_pos k) hpow
  have := Nat.two_pow_pos k
  rw [Nat.pow_succ] at *
  omega

/-- A frame aligned for order `k` and no further is a right buddy. -/
theorem sub_pow_dvd {h k : Nat} (hk : 2 ^ k ∣ h) (hnot : ¬ 2 ^ (k + 1) ∣ h) :
    2 ^ (k + 1) ∣ h - 2 ^ k := by
  obtain ⟨x, rfl⟩ := hk
  rcases Nat.even_or_odd' x with ⟨y, rfl | rfl⟩
  · exact absurd ⟨y, by ring⟩ hnot
  · refine ⟨y, ?_⟩
    rw [show 2 ^ k * (2 * y + 1) = 2 ^ (k + 1) * y + 2 ^ k by ring, Nat.add_sub_cancel]

/-! ## The normal form -/

/-- **An aligned window of free frames lies in one free block.** Induction on
the order: the two halves lie in free blocks; if these are two, they are the
halves themselves, free buddies. -/
theorem Coalesced.window (hco : Coalesced m c free) (hc : Tiling m c) :
    ∀ (k h : Nat), k ≤ m → 2 ^ k ∣ h → (∀ f, h ≤ f → f < h + 2 ^ k → FreeFrame c free f) →
      ∃ g j, c g = .head j ∧ free g ∧ g ≤ h ∧ h + 2 ^ k ≤ g + 2 ^ j := by
  intro k
  induction k with
  | zero =>
      intro h _ _ hall
      obtain ⟨g, j, hg, hfree, h1, h2⟩ := hall h (Nat.le_refl h) (by omega)
      exact ⟨g, j, hg, hfree, h1, by omega⟩
  | succ k ih =>
      intro h hk hal hall
      have hpow : 2 ^ (k + 1) = 2 ^ k + 2 ^ k := by ring
      have hpos := Nat.two_pow_pos k
      have hal' : 2 ^ k ∣ h := dvd_trans (pow_dvd_pow 2 (Nat.le_succ k)) hal
      obtain ⟨g, j, hg, hfree, h1, h2⟩ := ih h (by omega) hal' fun f h1 h2 =>
        hall f h1 (by omega)
      obtain ⟨g', j', hg', hfree', h1', h2'⟩ := ih (h + 2 ^ k) (by omega)
        (Nat.dvd_add hal' (Nat.dvd_refl _)) fun f h1 h2 => hall f (by omega) (by omega)
      -- a block of a larger order that holds one half holds the whole window
      have hwhole : ∀ b i, c b = .head i → k < i → b ≤ h → h < b + 2 ^ i →
          b ≤ h ∧ h + 2 ^ (k + 1) ≤ b + 2 ^ i := by
        intro b i hb hi hle hlt
        exact window_nested hal (hc.aligned hb) hi (Nat.le_refl h) (by omega) hle hlt
      by_cases hj : k < j
      · obtain ⟨w1, w2⟩ := hwhole g j hg hj h1 (by omega)
        exact ⟨g, j, hg, hfree, w1, w2⟩
      · by_cases hj' : k < j'
        · have hin := window_nested (f := h + 2 ^ k) hal (hc.aligned hg') hj' (by omega) (by omega)
            h1' (by omega)
          exact ⟨g', j', hg', hfree', hin.1, hin.2⟩
        · -- both blocks have order `k`: they are the two halves
          have hle : ∀ i, 2 ^ k ≤ 2 ^ i → k ≤ i := fun i hi =>
            (Nat.pow_le_pow_iff_right (by decide)).mp hi
          have hjk : j = k := by
            have := hle j (by omega)
            omega
          have hjk' : j' = k := by
            have := hle j' (by omega)
            omega
          rw [hjk] at hg h2
          rw [hjk'] at hg' h2'
          have hgh : g = h := by omega
          have hgh' : g' = h + 2 ^ k := by omega
          subst hgh hgh'
          exact absurd hfree' (hco g k (by omega) hal hg hfree hg')

/-- **Normal form**: two coalesced tilings with the same free frames have the
same free blocks. -/
theorem Coalesced.head_unique (hco : Coalesced m c free) (hc : Tiling m c)
    (hco' : Coalesced m c' free') (hc' : Tiling m c')
    (hsame : ∀ f, FreeFrame c free f ↔ FreeFrame c' free' f) {h k : Nat}
    (hh : c h = .head k) (hfree : free h) : c' h = .head k ∧ free' h := by
  have hpos := Nat.two_pow_pos k
  obtain ⟨g, j, hg, hfree', h1, h2⟩ := hco'.window hc' k h (hc.order_le hh) (hc.aligned hh)
    fun f f1 f2 => (hsame f).mp ⟨h, k, hh, hfree, f1, f2⟩
  obtain ⟨b, i, hb, -, b1, b2⟩ := hco.window hc j g (hc'.order_le hg) (hc'.aligned hg)
    fun f f1 f2 => (hsame f).mpr ⟨g, j, hg, hfree', f1, f2⟩
  -- the block around the block around `h` is the block at `h`
  have hbh : b = h := hc.disjoint hb hh (by omega) (by omega) (Nat.le_refl h) (by omega)
  subst hbh
  rw [hh] at hb
  cases hb
  have hgh : g = b := by omega
  subst hgh
  have hpow : 2 ^ j = 2 ^ k := by omega
  have hjk : j = k := Nat.pow_right_injective (Nat.le_refl 2) hpow
  subst hjk
  exact ⟨hg, hfree'⟩

/-! ## Splitting and merging -/

/-- `c'` is `c` with the free block at `h` cut into two free halves. -/
structure Halved (c c' : Nat → Cell) (free free' : Nat → Prop) (h k : Nat) : Prop where
  whole : c h = .head (k + 1) ∧ free h
  left : c' h = .head k ∧ free' h
  right : c' (h + 2 ^ k) = .head k ∧ free' (h + 2 ^ k)
  mid : c (h + 2 ^ k) = .tail
  other : ∀ x, x ≠ h → x ≠ h + 2 ^ k → c' x = c x ∧ (free' x ↔ free x)

/-- Cutting a free block leaves the free frames as they are. -/
theorem Halved.freeFrame {h k : Nat} (hs : Halved c c' free free' h k) (f : Nat) :
    FreeFrame c' free' f ↔ FreeFrame c free f := by
  have hpow : 2 ^ (k + 1) = 2 ^ k + 2 ^ k := by ring
  constructor
  · rintro ⟨g, j, hg, hfree, h1, h2⟩
    by_cases hgh : g = h
    · rw [hgh, hs.left.1] at hg
      cases hg
      exact ⟨h, k + 1, hs.whole.1, hs.whole.2, by omega, by omega⟩
    · by_cases hgr : g = h + 2 ^ k
      · rw [hgr, hs.right.1] at hg
        cases hg
        exact ⟨h, k + 1, hs.whole.1, hs.whole.2, by omega, by omega⟩
      · obtain ⟨hc, hf⟩ := hs.other g hgh hgr
        exact ⟨g, j, hc.symm.trans hg, hf.mp hfree, h1, h2⟩
  · rintro ⟨g, j, hg, hfree, h1, h2⟩
    by_cases hgh : g = h
    · rw [hgh, hs.whole.1] at hg
      cases hg
      by_cases hf : f < h + 2 ^ k
      · exact ⟨h, k, hs.left.1, hs.left.2, by omega, hf⟩
      · exact ⟨h + 2 ^ k, k, hs.right.1, hs.right.2, by omega, by omega⟩
    · have hgr : g ≠ h + 2 ^ k := by
        intro hc
        rw [hc, hs.mid] at hg
        cases hg
      obtain ⟨hc, hf⟩ := hs.other g hgh hgr
      exact ⟨g, j, hc.trans hg, hf.mpr hfree, h1, h2⟩

/-- No two free buddies apart from the block at `p`. -/
def CoalescedBut (m : Nat) (c : Nat → Cell) (free : Nat → Prop) (p : Nat) : Prop :=
  Coalesced m c fun x => free x ∧ x ≠ p

/-- Cutting the block at `h` makes no free buddies but its own halves. -/
theorem Halved.coalesced {h k : Nat} (hs : Halved c c' free free' h k) (hc : Tiling m c)
    (hco : CoalescedBut m c free h) : CoalescedBut m c' free' h := by
  have hal := hc.aligned hs.whole.1
  intro g j hj hdvd hg hfree hg' hfree'
  have hgr : g ≠ h + 2 ^ k := by
    intro he
    rw [he, hs.right.1] at hg
    cases hg
    exact not_dvd_add_pow hal (he ▸ hdvd)
  have hgr' : g + 2 ^ j ≠ h + 2 ^ k := by
    intro he
    rw [he, hs.right.1] at hg'
    cases hg'
    exact hfree.2 (by omega)
  obtain ⟨e1, f1⟩ := hs.other g hfree.2 hgr
  obtain ⟨e2, f2⟩ := hs.other (g + 2 ^ j) hfree'.2 hgr'
  exact hco g j hj hdvd (e1.symm.trans hg) ⟨f1.mp hfree.1, hfree.2⟩ (e2.symm.trans hg')
    ⟨f2.mp hfree'.1, hfree'.2⟩

/-- Merging two free buddies back: no other free buddies appear. -/
theorem Halved.coalesced_whole {h k p : Nat} (hs : Halved c c' free free' h k)
    (hp : p = h ∨ p = h + 2 ^ k) (hco : CoalescedBut m c' free' p) :
    CoalescedBut m c free h := by
  have hmid : ∀ {x j}, c x = .head j → x ≠ h + 2 ^ k := by
    intro x j hx he
    rw [he, hs.mid] at hx
    cases hx
  intro g j hj hdvd hg hfree hg' hfree'
  obtain ⟨e1, f1⟩ := hs.other g hfree.2 (hmid hg)
  obtain ⟨e2, f2⟩ := hs.other (g + 2 ^ j) hfree'.2 (hmid hg')
  have hne : ∀ {x i}, c x = .head i → x ≠ h → x ≠ p := by
    intro x i hx hxh he
    rcases hp with rfl | rfl
    · exact hxh he
    · exact hmid hx he
  exact hco g j hj hdvd (e1.trans hg) ⟨f1.mpr hfree.1, hne hg hfree.2⟩ (e2.trans hg')
    ⟨f2.mpr hfree'.1, hne hg' hfree'.2⟩

end DevOS.Lib
