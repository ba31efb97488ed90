import DevOS.Mm.BuddyMap

/-!
# Buddy allocator — allocation and the block map

`alloc_pages` seen through the block map: each splitting round cuts a free
block in two, so the free frames stay what they are until the last store takes
the block in hand out of them. On a coalesced map the cut-off halves are the
only free buddies around, and freeing the block merges exactly those again:
`free_pages` undoes `alloc_pages`, lists included.
-/

namespace DevOS.Mm

open DevOS.Lib

/-! ## Splitting -/

/-- **One round of the splitting loop**, on any links, cuts the block in
hand. -/
theorem splitDown_cut (fuel : Nat) {b : Buddy} {p k order : Nat}
    (htiled : Tiling pageMaxOrder b.cell) (hp : p < b.memNrPages) (hs : b.state p = .buddy)
    (hk : b.order p = k + 1) (hlt : order ≤ k) :
    ∃ b', splitDown order p (fuel + 1) b = splitDown order p fuel b' ∧ Cut b b' p k := by
  obtain ⟨-, hqs, hmax⟩ := upperHalf_tail htiled hp hs hk
  obtain ⟨b', he, -⟩ := insertFree_map (b := halve b p k) (p := p + 2 ^ k)
    (by rw [halve_order, if_pos (.inr rfl)]; omega)
  exact ⟨b', splitDown_round hk hlt hqs he, halve_cut htiled hp hs hk he⟩

/-- **The splitting loop**, on any links: the free frames stay, and no free
buddies appear but those of the block in hand. -/
theorem splitDown_map (order p : Nat) : ∀ (fuel : Nat) {b : Buddy},
    Tiling pageMaxOrder b.cell → p < b.memNrPages → b.state p = .buddy → order ≤ b.order p →
    b.order p ≤ order + fuel →
    ∃ b', splitDown order p fuel b = .ok b' ∧ Tiling pageMaxOrder b'.cell ∧
      b'.state p = .buddy ∧ b'.order p = order ∧ SameFree b b' ∧
      (CoalescedBut pageMaxOrder b.cell (fun h => b.state h = .buddy) p →
        CoalescedBut pageMaxOrder b'.cell (fun h => b'.state h = .buddy) p) := by
  intro fuel
  induction fuel with
  | zero =>
      intro b htiled _ hs hle hfuel
      exact ⟨b, rfl, htiled, hs, by omega, SameFree.refl b, fun h => h⟩
  | succ fuel ih =>
      intro b htiled hp hs hle hfuel
      rcases Nat.eq_or_lt_of_le hle with heq | hlt
      · have hng : ¬ (b.memMap p).order > order := by
          have : (b.memMap p).order = order := heq.symm
          omega
        exact ⟨b, by rw [splitDown, if_neg hng], htiled, hs, heq.symm, SameFree.refl b,
          fun h => h⟩
      · obtain ⟨k, hk⟩ : ∃ k, b.order p = k + 1 := ⟨b.order p - 1, by omega⟩
        obtain ⟨b₁, he, hcut⟩ := splitDown_cut fuel htiled hp hs hk (by omega : order ≤ k)
        have ho₁ : b₁.order p = k := hcut.left.2
        obtain ⟨b₂, he₂, ht₂, hs₂, ho₂, hsame₂, hco₂⟩ := ih (hcut.tiling htiled)
          (hcut.nr ▸ hp) hcut.left.1 (by omega) (by omega)
        exact ⟨b₂, he.trans he₂, ht₂, hs₂, ho₂, hcut.sameFree.trans hsame₂,
          fun h => hco₂ (hcut.halved.coalesced htiled h)⟩

/-! ## Allocation -/

/-- The last store of `alloc_pages`. -/
def claim (b : Buddy) (p : Nat) : Buddy := b.setPage p fun pg => { pg with state := .allocated }

theorem claim_fields (b : Buddy) (p x : Nat) :
    (claim b p).state x = (if x = p then .allocated else b.state x) ∧
      (claim b p).order x = b.order x := by
  by_cases hx : x = p <;> simp [claim, hx, Buddy.state, Buddy.order]

/-- What `alloc_pages(order)` does to the map when it returns `p`. -/
structure Taken (b b' : Buddy) (p : Nat) : Prop where
  nr : b'.memNrPages = b.memNrPages
  tiling : Tiling pageMaxOrder b'.cell
  state : b'.state p = .allocated
  was : b.state p = .buddy
  free : ∀ f, b'.FreeFrame f ↔ b.FreeFrame f ∧ ¬ (p ≤ f ∧ f < p + 2 ^ b'.order p)
  allocated : ∀ x, x ≠ p → (b'.state x = .allocated ↔ b.state x = .allocated)
  order : ∀ x, x ≠ p → b.state x = .allocated → b'.order x = b.order x
  reserved : ∀ x, b'.state x = .reserved ↔ b.state x = .reserved
  coalesced : b.Coalesced → b'.Coalesced

/-- Claiming the block in hand takes its frames out of the free ones. -/
theorem claim_taken {b b₂ : Buddy} {p : Nat} (hp : p < b.memNrPages) (hs : b.state p = .buddy)
    (htiled : Tiling pageMaxOrder b₂.cell) (hs₂ : b₂.state p = .buddy) (hsame : SameFree b b₂)
    (hco : b.Coalesced →
      CoalescedBut pageMaxOrder b₂.cell (fun h => b₂.state h = .buddy) p) :
    Taken b (claim b₂ p) p := by
  have hp₂ : p < b₂.memNrPages := hsame.nr ▸ hp
  have hcell : b₂.cell p = .head (b₂.order p) := cell_eq_head.mpr ⟨hp₂, .inl hs₂, rfl⟩
  have hst : ∀ x, (claim b₂ p).state x = if x = p then .allocated else b₂.state x :=
    fun x => (claim_fields b₂ p x).1
  have hcells : (claim b₂ p).cell = b₂.cell := by
    funext x
    by_cases hx : x = p
    · subst hx
      rw [hcell]
      exact cell_eq_head.mpr ⟨hp₂, .inr (by rw [hst, if_pos rfl]), (claim_fields b₂ x x).2⟩
    · exact cell_congr rfl (by rw [hst, if_neg hx]) (claim_fields b₂ p x).2
  -- the free blocks are those of `b₂` other than the claimed one
  have hfree : ∀ x, (claim b₂ p).state x = .buddy ↔ b₂.state x = .buddy ∧ x ≠ p := by
    intro x
    rw [hst]
    by_cases hx : x = p <;> simp [hx]
  refine ⟨hsame.nr, by rw [hcells]; exact htiled, by rw [hst, if_pos rfl], hs, fun f => ?_,
    fun x hx => ?_, fun x _ hal => ?_, fun x => ?_, fun h => ?_⟩
  · rw [← hsame.free f, (claim_fields b₂ p p).2]
    unfold Buddy.FreeFrame
    rw [hcells]
    constructor
    · rintro ⟨h, k, hh, hfr, h1, h2⟩
      obtain ⟨hfr', hne⟩ := (hfree h).mp hfr
      refine ⟨⟨h, k, hh, hfr', h1, h2⟩, fun hin => hne ?_⟩
      exact htiled.disjoint hh hcell h1 h2 hin.1 hin.2
    · rintro ⟨⟨h, k, hh, hfr, h1, h2⟩, hout⟩
      refine ⟨h, k, hh, (hfree h).mpr ⟨hfr, ?_⟩, h1, h2⟩
      rintro rfl
      rw [hcell] at hh
      cases hh
      exact hout ⟨h1, h2⟩
  · rw [hst, if_neg hx, hsame.allocated]
  · rw [(claim_fields b₂ p x).2, hsame.order x hal]
  · rw [hst, ← hsame.reserved]
    by_cases hx : x = p <;> simp [hx, hs₂]
  · have hkept := hco h
    rw [Buddy.Coalesced, hcells]
    intro g j hj hdvd hg hfr hg' hfr'
    exact hkept g j hj hdvd hg ((hfree g).mp hfr) hg' ((hfree _).mp hfr')

/-- **`alloc_pages` on the block map**: what it does when it returns a
page. -/
theorem allocPages_taken {b b' : Buddy} {L : Nat → List Nat} (h : Rep b (fun _ => False) L)
    {order p : Nat} (ho : order ≤ pageMaxOrder) (he : allocPages b order = .ok (some p, b')) :
    Taken b b' p := by
  have ho' : ¬ order > pageMaxOrder := Nat.not_lt.mpr ho
  rcases popFirst_spec h (pageMaxOrder + 1 - order) order (by omega) with
    ⟨hpop, -⟩ | ⟨q, b₁, xs, hpop, hsm, hq, hs, hge, -, -, -⟩
  · rw [allocPages, if_neg ho', hpop] at he
    cases he
  · have htiled₁ : Tiling pageMaxOrder b₁.cell := by
      rw [hsm.cell]
      exact h.tiling
    obtain ⟨b₂, he₂, ht₂, hs₂, ho₂, hsame₂, hco₂⟩ := splitDown_map order q (b₁.order q) htiled₁
      (hsm.nr ▸ hq) (by rw [hsm.state]; exact hs) (by rw [hsm.order]; exact hge) (by omega)
    rw [allocPages, if_neg ho', hpop] at he
    simp only [] at he
    rw [show (b₁.memMap q).order = b₁.order q from rfl, he₂] at he
    cases he
    refine claim_taken hq hs ht₂ hs₂ (hsm.sameFree.trans hsame₂) fun hco => hco₂ ?_
    have hstate : b₁.state = b.state := funext hsm.state
    rw [hsm.cell, hstate]
    intro g j hj hdvd hg hfr hg' hfr'
    exact hco g j hj hdvd hg hfr.1 hg' hfr'.1

/-- A list is empty exactly when no block of its order is free. -/
theorem Rep.freeMatrix_none {b : Buddy} {L : Nat → List Nat} (h : Rep b (fun _ => False) L)
    {k : Nat} (hk : k ≤ pageMaxOrder) :
    b.freeMatrix k = none ↔ ¬ ∃ x, x < b.memNrPages ∧ b.state x = .buddy ∧ b.order x = k := by
  have hmem := h.lists.mem k hk
  rw [(h.lists.list k hk).head_eq, List.head?_eq_none_iff]
  constructor
  · rintro hnil ⟨x, h1, h2, h3⟩
    have := (hmem x).mpr ⟨h1, h2, h3, fun hc => hc⟩
    rw [hnil] at this
    cases this
  · intro hno
    cases hL : L k with
    | nil => rfl
    | cons x xs =>
        obtain ⟨h1, h2, h3, -⟩ := (hmem x).mp (by rw [hL]; simp)
        exact absurd ⟨x, h1, h2, h3⟩ hno

/-- There is a free block of at least the order. -/
def Buddy.Sufficient (b : Buddy) (order : Nat) : Prop :=
  ∃ x, x < b.memNrPages ∧ b.state x = .buddy ∧ order ≤ b.order x

/-- **`alloc_pages` is exact**: `NULL`, with nothing changed, exactly when no
free block is large enough. Otherwise it returns the head of an allocation of
that order, cut from a smallest sufficient free block; the frames of that
allocation were free and are the only ones that no longer are. The
representation holds again, and a coalesced map stays coalesced. -/
theorem allocPages_exact (b : Buddy) (L : Nat → List Nat) (h : Rep b (fun _ => False) L)
    (order : Nat) (ho : order ≤ pageMaxOrder) :
    (allocPages b order = .ok (none, b) ↔ ¬ b.Sufficient order) ∧
    (b.Sufficient order → ∃ p b' L', allocPages b order = .ok (some p, b') ∧
      b'.state p = .allocated ∧ b'.order p = order ∧ Rep b' (fun _ => False) L' ∧
      (∃ g, g < b.memNrPages ∧ b.state g = .buddy ∧ order ≤ b.order g ∧
        (∀ x, x < b.memNrPages → b.state x = .buddy → order ≤ b.order x →
          b.order g ≤ b.order x) ∧
        g ≤ p ∧ p + 2 ^ order ≤ g + 2 ^ b.order g) ∧
      (∀ f, p ≤ f → f < p + 2 ^ order → b.FreeFrame f) ∧
      (∀ f, b'.FreeFrame f ↔ b.FreeFrame f ∧ ¬ (p ≤ f ∧ f < p + 2 ^ order)) ∧
      (∀ x, x ≠ p → (b'.state x = .allocated ↔ b.state x = .allocated)) ∧
      (∀ x, x ≠ p → b.state x = .allocated → b'.order x = b.order x) ∧
      (∀ x, b'.state x = .reserved ↔ b.state x = .reserved) ∧
      (b.Coalesced → b'.Coalesced)) := by
  rcases allocPages_found h ho with
    ⟨he, hnone⟩ | ⟨p, b', xs, he, hp, hs, hge, hempty, -, hr, hs', ho', -⟩
  · have hno : ¬ b.Sufficient order := by
      rintro ⟨x, hx, hsx, hox⟩
      have hmax := h.order_le hx (.inl hsx)
      exact (h.freeMatrix_none hmax).mp (hnone _ hox hmax) ⟨x, hx, hsx, rfl⟩
    exact ⟨⟨fun _ => hno, fun _ => he⟩, fun hc => absurd hc hno⟩
  · have hsuf : b.Sufficient order := ⟨p, hp, hs, hge⟩
    refine ⟨⟨fun hc => ?_, fun hc => absurd hsuf hc⟩, fun _ => ?_⟩
    · rw [he] at hc
      cases hc
    · have ht := allocPages_taken h ho he
      have hpow : 2 ^ order ≤ 2 ^ b.order p := Nat.pow_le_pow_right (by decide) hge
      have hfree := ht.free
      rw [ho'] at hfree
      -- the lists below the block's order are empty, so no smaller block does
      have hmin : ∀ x, x < b.memNrPages → b.state x = .buddy → order ≤ b.order x →
          b.order p ≤ b.order x := by
        intro x hx hsx hox
        by_contra hlt
        exact (h.freeMatrix_none (h.order_le hx (.inl hsx))).mp
          (hempty _ hox (Nat.lt_of_not_le hlt)) ⟨x, hx, hsx, rfl⟩
      exact ⟨p, b', _, he, hs', ho', hr, ⟨p, hp, hs, hge, hmin, Nat.le_refl p, by omega⟩,
        fun f h1 h2 => ⟨p, b.order p, cell_eq_head.mpr ⟨hp, .inl hs, rfl⟩, hs, h1, by omega⟩,
        hfree, ht.allocated, ht.order, ht.reserved, ht.coalesced⟩

/-- Two frames in one free block. -/
def wholePair : Buddy where
  memMap x := if x = 0 then ⟨.buddy, 1, none, none⟩ else if x = 1 then ⟨.tail, 0, none, none⟩
    else Page.zero
  memNrPages := 2
  freeMatrix k := if k = 1 then some 0 else none
  managedMem := 0

def wholePairLists (k : Nat) : List Nat := if k = 1 then [0] else []

theorem wholePair_head {h k : Nat} (e : wholePair.cell h = .head k) : h = 0 ∧ k = 1 := by
  obtain ⟨hlt, hs, ho⟩ := cell_eq_head.mp e
  have hlt' : h < 2 := hlt
  have hh : h = 0 ∨ h = 1 := by omega
  rcases hh with rfl | rfl
  · exact ⟨rfl, ho.symm⟩
  · rcases hs with hs | hs <;> cases hs

theorem wholePair_rep : Rep wholePair (fun _ => False) wholePairLists where
  tiling := {
    order_le := fun e => by rw [(wholePair_head e).2]; decide
    aligned := fun e => by rw [(wholePair_head e).1]; exact Nat.dvd_zero _
    tails := fun {h k t} e h1 h2 => by
      obtain ⟨rfl, rfl⟩ := wholePair_head e
      have ht : t = 1 := by omega
      subst ht
      rfl
    covered := fun {t} e => by
      obtain ⟨hlt, hs⟩ := cell_eq_tail.mp e
      have hlt' : t < 2 := hlt
      have ht : t = 0 ∨ t = 1 := by omega
      rcases ht with rfl | rfl
      · cases hs
      · exact ⟨0, 1, rfl, by decide, by decide⟩ }
  lists := {
    list := fun k _ => by
      by_cases hk : k = 1
      · subst hk
        exact ⟨⟨some 0, rfl, rfl, rfl, rfl⟩, by decide⟩
      · simp only [wholePair, wholePairLists, if_neg hk]
        exact dList_nil
    mem := fun k _ x => by
      by_cases hk : k = 1
      · subst hk
        constructor
        · intro hx
          have hx0 : x = 0 := by simpa [wholePairLists] using hx
          subst hx0
          exact ⟨by decide, rfl, rfl, fun hc => hc⟩
        · rintro ⟨h1, h2, h3, -⟩
          have hx0 := (wholePair_head (cell_eq_head.mpr ⟨h1, .inl h2, h3⟩)).1
          simp [wholePairLists, hx0]
      · simp only [wholePairLists, if_neg hk, List.not_mem_nil, false_iff]
        rintro ⟨h1, h2, h3, -⟩
        exact hk (wholePair_head (cell_eq_head.mpr ⟨h1, .inl h2, h3⟩)).2 }

theorem wholePair_coalesced : wholePair.Coalesced := by
  intro h k _ _ e _ e'
  obtain ⟨rfl, rfl⟩ := wholePair_head e
  have := (wholePair_head e').1
  omega

/-- One frame is cut from a block of two. -/
theorem allocPages_exact_split :
    wholePair.Sufficient 0 ∧
    ∃ p b' L', allocPages wholePair 0 = .ok (some p, b') ∧ b'.state p = .allocated ∧
      b'.order p = 0 ∧ Rep b' (fun _ => False) L' ∧ b'.Coalesced := by
  have hsuf : wholePair.Sufficient 0 := ⟨0, by decide, rfl, Nat.zero_le _⟩
  obtain ⟨p, b', L', he, hs, ho, hr, -, -, -, -, -, -, hco⟩ :=
    (allocPages_exact wholePair wholePairLists wholePair_rep 0 (Nat.zero_le _)).2 hsuf
  exact ⟨hsuf, p, b', L', he, hs, ho, hr, hco wholePair_coalesced⟩

/-! ## Freeing what was just allocated -/

/-- A block just allocated from a coalesced map does not merge left: the left
buddy and everything up to the block's alignment would be one free window of
the map before, larger than the block that was cut. -/
theorem Taken.not_leftMerges {b b' : Buddy} {p : Nat} (ht : Taken b b' p) (hco : b.Coalesced)
    (htiled : Tiling pageMaxOrder b.cell) (hp : p < b.memNrPages)
    (hle : b'.order p ≤ b.order p) : ¬ LeftMerges b' p := by
  rintro ⟨hmax, hord, hright, hlow, hleft⟩
  have hcell : b.cell p = .head (b.order p) := cell_eq_head.mpr ⟨hp, .inl ht.was, rfl⟩
  have hback : ∀ f, b'.FreeFrame f → b.FreeFrame f := fun f hf => ((ht.free f).mp hf).1
  have hpos := Nat.two_pow_pos (alignmentOrder p)
  have hpowle : 2 ^ b'.order p ≤ 2 ^ b.order p := Nat.pow_le_pow_right (by decide) hle
  -- to the right of `p`, one order after the other
  have hup : ∀ j, b'.order p ≤ j → j ≤ alignmentOrder p →
      ∀ f, p ≤ f → f < p + 2 ^ j → b.FreeFrame f := by
    intro j hj
    induction j, hj using Nat.le_induction with
    | base =>
        intro _ f h1 h2
        exact ⟨p, b.order p, hcell, ht.was, h1, by omega⟩
    | succ j hj ih =>
        intro hja f h1 h2
        have hpow : 2 ^ (j + 1) = 2 ^ j + 2 ^ j := by ring
        by_cases hf : f < p + 2 ^ j
        · exact ih (by omega) f h1 hf
        · obtain ⟨g1, g2, g3⟩ := hright j (by omega) hj
          exact hback f ⟨p + 2 ^ j, j, cell_eq_head.mpr ⟨g1, .inl g2, g3⟩, g2, by omega,
            by omega⟩
  have hdown : ∀ f, p - 2 ^ alignmentOrder p ≤ f → f < p → b.FreeFrame f := by
    intro f h1 h2
    have hlt := ht.nr
    exact hback f ⟨p - 2 ^ alignmentOrder p, alignmentOrder p,
      cell_eq_head.mpr ⟨by omega, .inl hleft.1, hleft.2⟩, hleft.1, h1, by omega⟩
  have hdvd : 2 ^ alignmentOrder p ∣ p := (le_alignmentOrder.mp (Nat.le_refl _)).2
  have hnot : ¬ 2 ^ (alignmentOrder p + 1) ∣ p := by
    intro hc
    have := le_alignmentOrder.mpr ⟨(by omega : alignmentOrder p + 1 ≤ pageMaxOrder), hc⟩
    omega
  have hpow : 2 ^ (alignmentOrder p + 1) = 2 ^ alignmentOrder p + 2 ^ alignmentOrder p := by ring
  obtain ⟨g, j, hg, -, h1, h2⟩ := hco.window htiled (alignmentOrder p + 1)
    (p - 2 ^ alignmentOrder p) (by omega) (sub_pow_dvd hdvd hnot) fun f h1 h2 => by
      by_cases hf : f < p
      · exact hdown f h1 hf
      · exact hup _ hord (Nat.le_refl _) f (by omega) (by omega)
  have hposp := Nat.two_pow_pos (b.order p)
  have hgp := htiled.disjoint hg hcell (f := p) (by omega) (by omega) (Nat.le_refl p) (by omega)
  omega

/-- Removing the cut-off halves again and putting the block back in front
gives the old lists. -/
theorem mergedLists_splitLists {L : Nat → List Nat} {p order j : Nat} {xs : List Nat}
    (hle : order ≤ j) (hL : L j = p :: xs) :
    Function.update (mergedLists (splitLists L p order j xs) p order j) j
      (p :: mergedLists (splitLists L p order j xs) p order j j) = L := by
  funext i
  by_cases hij : i = j
  · subst hij
    rw [Function.update_self, mergedLists, if_neg (by omega), splitLists, if_neg (by omega),
      Function.update_self, hL]
  · rw [Function.update_of_ne hij, mergedLists, splitLists]
    by_cases hi : order ≤ i ∧ i < j
    · rw [if_pos hi, if_pos hi, List.erase_cons_head, Function.update_of_ne hij]
    · rw [if_neg hi, if_neg hi, Function.update_of_ne hij]

/-- **Allocating and freeing is the identity** on a coalesced map: after
`free_pages` of the page `alloc_pages` returned, every list has its old
elements in their old sequence, and every page its old state and every block
its old order. -/
theorem freePages_allocPages (b : Buddy) (L : Nat → List Nat) (h : Rep b (fun _ => False) L)
    (hco : b.Coalesced) (order p : Nat) (b' : Buddy)
    (he : allocPages b order = .ok (some p, b')) :
    ∃ b'', freePages b' p = .ok b'' ∧ Rep b'' (fun _ => False) L ∧
      (∀ k, k ≤ pageMaxOrder → b''.freeMatrix k = b.freeMatrix k) ∧ SameBlocks b b'' := by
  have ho : order ≤ pageMaxOrder := by
    by_contra hc
    rw [allocPages, if_pos (Nat.lt_of_not_le hc)] at he
    cases he
  have ht := allocPages_taken h ho he
  rcases allocPages_found h ho with
    ⟨hn, -⟩ | ⟨q, b₁, xs, he₁, hq, hs, hge, -, hxs, hr, hs₁, ho₁, -⟩
  · rw [hn] at he
    cases he
  · rw [he] at he₁
    cases he₁
    have hp' : p < b'.memNrPages := ht.nr ▸ hq
    have hno := ht.not_leftMerges hco h.tiling hq (by omega)
    obtain ⟨b₂, he₂, -, hr₂, hs₂, -⟩ := freePages_merged hr hp' hs₁ hno
    obtain ⟨b₃, he₃, hf⟩ := freePages_freed ht.tiling (ht.coalesced hco) hp' hs₁
    rw [he₂] at he₃
    cases he₃
    -- the free frames are back, so the blocks are
    have hblock : ∀ f, p ≤ f → f < p + 2 ^ b'.order p → b.FreeFrame f := by
      intro f h1 h2
      have hpow : 2 ^ b'.order p ≤ 2 ^ b.order p := by
        rw [ho₁]
        exact Nat.pow_le_pow_right (by decide) hge
      exact ⟨p, b.order p, cell_eq_head.mpr ⟨hq, .inl hs, rfl⟩, hs, h1, by omega⟩
    have hsame : SameBlocks b b₂ := by
      refine sameBlocks_of_free (hf.nr.trans ht.nr) h.tiling hco hf.tiling hf.coalesced
        (fun f => ?_) (fun x => ?_) (fun x hx => ?_) fun x => ?_
      · rw [hf.free, ht.free]
        have := hblock f
        tauto
      · rw [hf.allocated]
        by_cases hx : x = p
        · subst hx
          simp [hs]
        · rw [ht.allocated x hx]
          exact ⟨fun h => h.1, fun h => ⟨h, hx⟩⟩
      · have hxp : x ≠ p := by
          rintro rfl
          rw [hs] at hx
          cases hx
        rw [hf.order x hxp ((ht.allocated x hxp).mpr hx), ht.order x hxp hx]
      · rw [hf.reserved, ht.reserved]
    have hord : b₂.order p = b.order p := hsame.order p hq (.inl hs)
    rw [hord, ho₁, mergedLists_splitLists hge hxs] at hr₂
    refine ⟨b₂, he₂, hr₂, fun k hk => ?_, hsame⟩
    rw [(hr₂.lists.list k hk).head_eq, (h.lists.list k hk).head_eq]

/-- The halves of the block of two merge back. -/
theorem freePages_allocPages_pair :
    ∃ p b' b'', allocPages wholePair 0 = .ok (some p, b') ∧ freePages b' p = .ok b'' ∧
      Rep b'' (fun _ => False) wholePairLists ∧
      (∀ k, k ≤ pageMaxOrder → b''.freeMatrix k = wholePair.freeMatrix k) ∧
      SameBlocks wholePair b'' := by
  rcases allocPages_spec wholePair_rep (Nat.zero_le pageMaxOrder) with he | ⟨p, b', _, he, _⟩
  · have hno : okAnd (allocPages wholePair 0) (fun r => r.1 = some 0) = true := by decide
    rw [he] at hno
    cases hno
  · obtain ⟨b'', hf⟩ :=
      freePages_allocPages wholePair wholePairLists wholePair_rep wholePair_coalesced 0 p b' he
    exact ⟨p, b', b'', he, hf⟩

end DevOS.Mm
