import DevOS.Lib.Coalesce
import DevOS.Lib.Run
import DevOS.Mm.BuddyOps

/-!
# Buddy allocator — the block map

`free_pages` seen through the `state` and `order` fields alone, whatever the
links hold. Freeing a block of a coalesced map, with merges to either side,
gives a coalesced map again, of the old free frames and the block's. Since a
coalesced map is determined by its free frames, the order in which blocks are
freed does not show in it.
-/

namespace DevOS.Mm

open DevOS.Lib

/-- The frame lies in a free block. -/
def Buddy.FreeFrame (b : Buddy) (f : Nat) : Prop :=
  Lib.FreeFrame b.cell (fun h => b.state h = .buddy) f

/-- No two buddies of an order below the maximum are both free. -/
def Buddy.Coalesced (b : Buddy) : Prop :=
  Lib.Coalesced pageMaxOrder b.cell fun h => b.state h = .buddy

/-! ## A block in hand -/

/-- The block at `p` is free and in the hands of the running code: it may have
a free buddy, no other two free blocks are buddies. -/
structure InHand (b : Buddy) (p : Nat) : Prop where
  tiling : Tiling pageMaxOrder b.cell
  lt : p < b.memNrPages
  state : b.state p = .buddy
  coalesced : CoalescedBut pageMaxOrder b.cell (fun h => b.state h = .buddy) p

theorem InHand.cell {b : Buddy} {p : Nat} (h : InHand b p) : b.cell p = .head (b.order p) :=
  cell_eq_head.mpr ⟨h.lt, .inl h.state, rfl⟩

theorem Cut.halved {b b' : Buddy} {p k : Nat} (h : Cut b b' p k) :
    Halved b.cell b'.cell (fun x => b.state x = .buddy) (fun x => b'.state x = .buddy) p k where
  whole := ⟨cell_eq_head.mpr ⟨h.head_lt, .inl h.whole.1, h.whole.2⟩, h.whole.1⟩
  left := ⟨cell_eq_head.mpr ⟨h.nr ▸ h.head_lt, .inl h.left.1, h.left.2⟩, h.left.1⟩
  right := ⟨cell_eq_head.mpr ⟨h.nr ▸ h.lt, .inl h.right.1, h.right.2⟩, h.right.1⟩
  mid := cell_eq_tail.mpr ⟨h.lt, h.mid⟩
  other := by
    intro x hx hxr
    obtain ⟨hs, ho⟩ := h.other x hx hxr
    exact ⟨cell_congr h.nr hs ho, by rw [hs]⟩

/-! ## Merging -/

/-- A merge to either side: `h` and `h + 2 ^ k` are free blocks of order `k`,
the block in hand one of them. -/
structure Buddies (b : Buddy) (p h k : Nat) : Prop where
  hand : p = h ∨ p = h + 2 ^ k
  lt : h + 2 ^ k < b.memNrPages
  below : k < pageMaxOrder
  aligned : 2 ^ (k + 1) ∣ h
  left : b.state h = .buddy ∧ b.order h = k
  right : b.state (h + 2 ^ k) = .buddy ∧ b.order (h + 2 ^ k) = k

/-- Two buddies in one block in hand: the map stays tiled. -/
theorem Buddies.inHand {b b' : Buddy} {p h k : Nat} (hb : Buddies b p h k) (hi : InHand b p)
    (hcut : Cut b' b h k) : InHand b' h := by
  exact ⟨hcut.tiling_whole hi.tiling hb.below hb.aligned, hcut.head_lt, hcut.whole.1,
    hcut.halved.coalesced_whole hb.hand hi.coalesced⟩

/-- With no free buddy of the block in hand, to its right or to its left,
nothing is left to merge. -/
theorem InHand.coalesced_of_no_buddy {b : Buddy} {p : Nat} (hi : InHand b p)
    (hright : ∀ q, b.order p < pageMaxOrder → 2 ^ (b.order p + 1) ∣ p → q = p + 2 ^ b.order p →
      b.cell q = .head (b.order p) → b.state q ≠ .buddy)
    (hleft : ∀ q, b.order p < pageMaxOrder → 2 ^ (b.order p + 1) ∣ q → p = q + 2 ^ b.order p →
      b.cell q = .head (b.order p) → b.state q ≠ .buddy) : b.Coalesced := by
  intro g j hj hdvd hg hfree hg' hfree'
  by_cases hgp : g = p
  · subst hgp
    rw [hi.cell] at hg
    cases hg
    exact hright _ hj hdvd rfl hg' hfree'
  · by_cases hgp' : g + 2 ^ j = p
    · rw [hgp', hi.cell] at hg'
      cases hg'
      exact hleft g hj hdvd hgp'.symm hg hfree
    · exact hi.coalesced g j hj hdvd hg ⟨hfree, hgp⟩ hg' ⟨hfree', hgp'⟩

/-- **One round of the merging loop**, on any links: it ends with no free
buddy left, or merges two buddies. -/
theorem mergeUp_round (fuel : Nat) {b : Buddy} {p : Nat} (hi : InHand b p) :
    (mergeUp (fuel + 1) p b = .ok (p, b) ∧ b.Coalesced) ∨
    ∃ h b', mergeUp (fuel + 1) p b = mergeUp fuel h b' ∧ Buddies b p h (b.order p) ∧
      Cut b' b h (b.order p) := by
  have hcell := hi.cell
  have hmax := hi.tiling.order_le hcell
  have hal := hi.tiling.aligned hcell
  have hpos := Nat.two_pow_pos (b.order p)
  have hkp : (b.memMap p).order = b.order p := rfl
  have hstop := hi.coalesced_of_no_buddy
  have hunfold := mergeUp.eq_2 p b fuel
  simp only [hkp] at hunfold
  by_cases hlt : b.order p < pageMaxOrder
  · rw [if_pos hlt] at hunfold
    have halign : b.order p < alignmentOrder p ↔ 2 ^ (b.order p + 1) ∣ p := by
      rw [← Nat.succ_le_iff, le_alignmentOrder]
      exact ⟨fun h => h.2, fun h => ⟨hlt, h⟩⟩
    by_cases hright : alignmentOrder p > b.order p
    · have hdvd := halign.mp hright
      rw [if_pos hright] at hunfold
      have hnoleft : ∀ q, b.order p < pageMaxOrder → 2 ^ (b.order p + 1) ∣ q →
          p = q + 2 ^ b.order p → b.cell q = .head (b.order p) → b.state q ≠ .buddy := by
        intro q _ hq hpq
        exact absurd (hpq ▸ hdvd) (not_dvd_add_pow hq)
      by_cases hn : p + 2 ^ b.order p ≥ b.memNrPages
      · rw [if_pos hn] at hunfold
        refine .inl ⟨hunfold, hstop (fun q _ _ hq hc => ?_) hnoleft⟩
        have := (cell_eq_head.mp hc).1
        omega
      · rw [if_neg hn] at hunfold
        by_cases hfree : (b.memMap (p + 2 ^ b.order p)).state = .buddy ∧
            (b.memMap (p + 2 ^ b.order p)).order = b.order p
        · have hbud : Buddies b p p (b.order p) :=
            ⟨.inl rfl, Nat.lt_of_not_le hn, hlt, hdvd, ⟨hi.state, rfl⟩, hfree⟩
          obtain ⟨b₁, he, hsame⟩ := removeFree_sameMap (b := b) (p := p + 2 ^ b.order p)
            (by rw [hbud.right.2]; omega)
          rw [if_pos hfree, he] at hunfold
          exact .inr ⟨p, absorb b₁ p (p + 2 ^ b.order p), hunfold, hbud,
            absorb_cut hsame hbud.lt hbud.left hbud.right⟩
        · rw [if_neg hfree] at hunfold
          refine .inl ⟨hunfold, hstop (fun q _ _ hq hc hs => ?_) hnoleft⟩
          subst hq
          exact hfree ⟨hs, (cell_eq_head.mp hc).2.2⟩
    · have hdvd : ¬ 2 ^ (b.order p + 1) ∣ p := fun hc => hright (halign.mpr hc)
      rw [if_neg hright] at hunfold
      have hnoright : ∀ q, b.order p < pageMaxOrder → 2 ^ (b.order p + 1) ∣ p →
          q = p + 2 ^ b.order p → b.cell q = .head (b.order p) → b.state q ≠ .buddy :=
        fun q _ hq => absurd hq hdvd
      by_cases hlow : p < 2 ^ b.order p
      · rw [if_pos hlow] at hunfold
        refine .inl ⟨hunfold, hstop hnoright fun q _ _ hq => ?_⟩
        omega
      · rw [if_neg hlow] at hunfold
        by_cases hfree : (b.memMap (p - 2 ^ b.order p)).state = .buddy ∧
            (b.memMap (p - 2 ^ b.order p)).order = b.order p
        · have hsum : p - 2 ^ b.order p + 2 ^ b.order p = p := by omega
          have hleft : 2 ^ (b.order p + 1) ∣ p - 2 ^ b.order p := sub_pow_dvd hal hdvd
          have hlt' := hi.lt
          have hbud : Buddies b p (p - 2 ^ b.order p) (b.order p) :=
            ⟨.inr hsum.symm, by omega, hlt, hleft, hfree, by rw [hsum]; exact ⟨hi.state, rfl⟩⟩
          obtain ⟨b₁, he, hsame⟩ := removeFree_sameMap (b := b) (p := p) hmax
          rw [if_pos hfree, he] at hunfold
          have hcut := absorb_cut hsame hbud.lt hbud.left hbud.right
          rw [hsum] at hcut
          exact .inr ⟨p - 2 ^ b.order p, absorb b₁ (p - 2 ^ b.order p) p, hunfold, hbud, hcut⟩
        · rw [if_neg hfree] at hunfold
          refine .inl ⟨hunfold, hstop hnoright fun q _ _ hq hc hs => ?_⟩
          have hq' : p - 2 ^ b.order p = q := by omega
          rw [hq'] at hfree
          exact hfree ⟨hs, (cell_eq_head.mp hc).2.2⟩
  · rw [if_neg hlt] at hunfold
    exact .inl ⟨hunfold, hstop (fun q h => absurd h hlt) fun q h => absurd h hlt⟩

/-- What merging and list primitives leave of the map: its size, the free
frames, and everything allocated or reserved. -/
structure SameFree (b b' : Buddy) : Prop where
  nr : b'.memNrPages = b.memNrPages
  free : ∀ f, b'.FreeFrame f ↔ b.FreeFrame f
  allocated : ∀ x, b'.state x = .allocated ↔ b.state x = .allocated
  order : ∀ x, b.state x = .allocated → b'.order x = b.order x
  reserved : ∀ x, b'.state x = .reserved ↔ b.state x = .reserved

theorem SameFree.refl (b : Buddy) : SameFree b b :=
  ⟨rfl, fun _ => Iff.rfl, fun _ => Iff.rfl, fun _ _ => rfl, fun _ => Iff.rfl⟩

theorem SameFree.trans {b b' b'' : Buddy} (h : SameFree b b') (h' : SameFree b' b'') :
    SameFree b b'' where
  nr := h'.nr.trans h.nr
  free := fun f => (h'.free f).trans (h.free f)
  allocated := fun x => (h'.allocated x).trans (h.allocated x)
  order := fun x hx => (h'.order x ((h.allocated x).mpr hx)).trans (h.order x hx)
  reserved := fun x => (h'.reserved x).trans (h.reserved x)

/-- The map after a list primitive is the map before it. -/
theorem SameMap.sameFree {b b' : Buddy} (h : SameMap b b') : SameFree b b' where
  nr := h.nr
  free := fun f => by
    have hstate : b'.state = b.state := funext h.state
    rw [Buddy.FreeFrame, Buddy.FreeFrame, h.cell, hstate]
  allocated := fun x => by rw [h.state]
  order := fun x _ => h.order x
  reserved := fun x => by rw [h.state]

theorem Cut.sameFree {b b' : Buddy} {p k : Nat} (h : Cut b b' p k) : SameFree b b' where
  nr := h.nr
  free := h.halved.freeFrame
  allocated := fun x => (h.kept x).1
  order := fun x => (h.kept x).2.2
  reserved := fun x => (h.kept x).2.1

theorem Cut.sameFree_symm {b b' : Buddy} {p k : Nat} (h : Cut b b' p k) : SameFree b' b where
  nr := h.nr.symm
  free := fun f => (h.halved.freeFrame f).symm
  allocated := fun x => (h.kept x).1.symm
  order := fun x hx => ((h.kept x).2.2 ((h.kept x).1.mp hx)).symm
  reserved := fun x => (h.kept x).2.1.symm

/-- **The merging loop**, on any links, ends on a free block of a coalesced
map with the same free frames. -/
theorem mergeUp_map : ∀ (fuel : Nat) {b : Buddy} {p : Nat}, InHand b p →
    pageMaxOrder ≤ b.order p + fuel →
    ∃ q b', mergeUp fuel p b = .ok (q, b') ∧ InHand b' q ∧ b'.Coalesced ∧ SameFree b b' := by
  intro fuel
  induction fuel with
  | zero =>
      intro b p hi hfuel
      refine ⟨p, b, rfl, hi, ?_, SameFree.refl b⟩
      have hnot : ¬ b.order p < pageMaxOrder := by omega
      exact hi.coalesced_of_no_buddy (fun q h => absurd h hnot) fun q h => absurd h hnot
  | succ fuel ih =>
      intro b p hi hfuel
      rcases mergeUp_round fuel hi with ⟨he, hco⟩ | ⟨h, b₁, he, hbud, hcut⟩
      · exact ⟨p, b, he, hi, hco, SameFree.refl b⟩
      · obtain ⟨q, b₂, he₂, hi₂, hco₂, hsame₂⟩ := ih (hbud.inHand hi hcut) (by
          have := hcut.whole.2
          omega)
        exact ⟨q, b₂, he.trans he₂, hi₂, hco₂, hcut.sameFree_symm.trans hsame₂⟩

/-! ## Freeing -/

/-- A released block is in hand. -/
theorem release_inHand {b : Buddy} {p : Nat} (htiled : Tiling pageMaxOrder b.cell)
    (hco : b.Coalesced) (hp : p < b.memNrPages) (hs : b.state p = .allocated) :
    InHand (release b p) p := by
  have hcells := release_cell hp hs
  refine ⟨by rw [hcells]; exact htiled, hp, release_state_self b p, ?_⟩
  rw [hcells]
  intro g j hj hdvd hg hfree hg' hfree'
  exact hco g j hj hdvd hg ((release_state_of_ne b hfree.2).symm.trans hfree.1) hg'
    ((release_state_of_ne b hfree'.2).symm.trans hfree'.1)

/-- Releasing a block adds its frames to the free ones. -/
theorem release_freeFrame {b : Buddy} {p : Nat} (hp : p < b.memNrPages)
    (hs : b.state p = .allocated) (f : Nat) :
    (release b p).FreeFrame f ↔ b.FreeFrame f ∨ p ≤ f ∧ f < p + 2 ^ b.order p := by
  have hcell : b.cell p = .head (b.order p) := cell_eq_head.mpr ⟨hp, .inr hs, rfl⟩
  have hstate : ∀ h, b.state h = .buddy ∨ h = p → (release b p).state h = .buddy := by
    intro h hh
    by_cases hne : h = p
    · rw [hne, release_state_self]
    · rw [release_state_of_ne b hne]
      exact hh.resolve_right hne
  unfold Buddy.FreeFrame
  rw [release_cell hp hs]
  constructor
  · rintro ⟨h, k, hh, hfree, h1, h2⟩
    by_cases hhp : h = p
    · subst hhp
      rw [hcell] at hh
      cases hh
      exact .inr ⟨h1, h2⟩
    · rw [release_state_of_ne b hhp] at hfree
      exact .inl ⟨h, k, hh, hfree, h1, h2⟩
  · rintro (⟨h, k, hh, hfree, h1, h2⟩ | ⟨h1, h2⟩)
    · exact ⟨h, k, hh, hstate h (.inl hfree), h1, h2⟩
    · exact ⟨p, b.order p, hcell, hstate p (.inr rfl), h1, h2⟩

/-- What `free_pages(p)` does to a coalesced map. -/
structure Freed (b b' : Buddy) (p : Nat) : Prop where
  nr : b'.memNrPages = b.memNrPages
  tiling : Tiling pageMaxOrder b'.cell
  coalesced : b'.Coalesced
  free : ∀ f, b'.FreeFrame f ↔ b.FreeFrame f ∨ p ≤ f ∧ f < p + 2 ^ b.order p
  allocated : ∀ x, b'.state x = .allocated ↔ b.state x = .allocated ∧ x ≠ p
  order : ∀ x, x ≠ p → b.state x = .allocated → b'.order x = b.order x
  reserved : ∀ x, b'.state x = .reserved ↔ b.state x = .reserved

/-- **`free_pages` on the block map**, on any links. -/
theorem freePages_freed {b : Buddy} {p : Nat} (htiled : Tiling pageMaxOrder b.cell)
    (hco : b.Coalesced) (hp : p < b.memNrPages) (hs : b.state p = .allocated) :
    ∃ b', freePages b p = .ok b' ∧ Freed b b' p := by
  have hi := release_inHand htiled hco hp hs
  obtain ⟨q, b₁, he₁, hi₁, hco₁, hsame₁⟩ := mergeUp_map pageMaxOrder hi (by omega)
  obtain ⟨b₂, he₂, hnr₂, hst₂, hord₂⟩ := insertFree_map (b := b₁) (p := q)
    (hi₁.tiling.order_le hi₁.cell)
  have hsame₂ := SameMap.of_insert hi₁.state hnr₂ hst₂ hord₂
  have hsame := hsame₁.trans hsame₂.sameFree
  have hstate₂ : b₂.state = b₁.state := funext hsame₂.state
  refine ⟨b₂, freePages_eq_ok hs he₁ he₂, hsame.nr, ?_, ?_, fun f => ?_, fun x => ?_,
    fun x hx hal => ?_, fun x => ?_⟩
  · rw [hsame₂.cell]
    exact hi₁.tiling
  · rw [Buddy.Coalesced, hsame₂.cell, hstate₂]
    exact hco₁
  · rw [hsame.free, release_freeFrame hp hs]
  · rw [hsame.allocated]
    by_cases hx : x = p
    · simp [hx]
    · rw [release_state_of_ne b hx]
      exact ⟨fun h => ⟨h, hx⟩, fun h => h.1⟩
  · rw [hsame.order x (by rw [release_state_of_ne b hx]; exact hal), release_order]
  · rw [hsame.reserved]
    by_cases hx : x = p
    · simp [hx, hs]
    · rw [release_state_of_ne b hx]

/-- **`free_pages` keeps a coalesced map coalesced**: freeing any allocation
gives a coalesced tiling whose free frames are the old ones and those of the
block; every other allocation and every reserved page is as it was. -/
theorem freePages_blockMap (b : Buddy) (htiled : Tiling pageMaxOrder b.cell) (hco : b.Coalesced)
    (p : Nat) (hp : p < b.memNrPages) (hs : b.state p = .allocated) :
    ∃ b', freePages b p = .ok b' ∧ b'.memNrPages = b.memNrPages ∧
      Tiling pageMaxOrder b'.cell ∧ b'.Coalesced ∧
      (∀ f, b'.FreeFrame f ↔ b.FreeFrame f ∨ p ≤ f ∧ f < p + 2 ^ b.order p) ∧
      (∀ x, b'.state x = .allocated ↔ b.state x = .allocated ∧ x ≠ p) ∧
      (∀ x, x ≠ p → b.state x = .allocated → b'.order x = b.order x) ∧
      ∀ x, b'.state x = .reserved ↔ b.state x = .reserved := by
  obtain ⟨b', he, hf⟩ := freePages_freed htiled hco hp hs
  exact ⟨b', he, hf.nr, hf.tiling, hf.coalesced, hf.free, hf.allocated, hf.order, hf.reserved⟩

/-- Two frames: the first in a given state, the second allocated. -/
def framePair (first : PageState) : Buddy where
  memMap x := if x = 0 then ⟨first, 0, none, none⟩ else if x = 1 then ⟨.allocated, 0, none, none⟩
    else Page.zero
  memNrPages := 2
  freeMatrix k := if k = 0 ∧ first = .buddy then some 0 else none
  managedMem := 0

theorem framePair_head {first : PageState} {h k : Nat} (e : (framePair first).cell h = .head k) :
    (h = 0 ∨ h = 1) ∧ k = 0 := by
  obtain ⟨hlt, -, ho⟩ := cell_eq_head.mp e
  have hlt' : h < 2 := hlt
  have hh : h = 0 ∨ h = 1 := by omega
  rcases hh with rfl | rfl
  · exact ⟨.inl rfl, ho.symm⟩
  · exact ⟨.inr rfl, ho.symm⟩

theorem framePair_tiling {first : PageState} (hfirst : first ≠ .tail) :
    Tiling pageMaxOrder (framePair first).cell where
  order_le := fun e => by rw [(framePair_head e).2]; exact Nat.zero_le _
  aligned := fun e => by rw [(framePair_head e).2]; exact Nat.one_dvd _
  tails := fun e h1 h2 => by rw [(framePair_head e).2] at h2; omega
  covered := by
    intro t e
    obtain ⟨hlt, hs⟩ := cell_eq_tail.mp e
    have hlt' : t < 2 := hlt
    have ht : t = 0 ∨ t = 1 := by omega
    rcases ht with rfl | rfl
    · exact absurd hs hfirst
    · cases hs

theorem framePair_coalesced (first : PageState) : (framePair first).Coalesced := by
  intro h k _ _ e _ e' hfree'
  rw [(framePair_head e).2] at hfree' e'
  rcases (framePair_head e').1 with hc | hc
  · omega
  · rw [hc] at hfree'
    cases hfree'

/-- A merge to the left. -/
theorem freePages_blockMap_left :
    (framePair .buddy).state 1 = .allocated ∧
    ∃ b', freePages (framePair .buddy) 1 = .ok b' ∧ b'.memNrPages = 2 ∧
      Tiling pageMaxOrder b'.cell ∧ b'.Coalesced ∧
      (∀ f, b'.FreeFrame f ↔
        (framePair .buddy).FreeFrame f ∨ 1 ≤ f ∧ f < 1 + 2 ^ (framePair .buddy).order 1) ∧
      (∀ x, b'.state x = .allocated ↔ (framePair .buddy).state x = .allocated ∧ x ≠ 1) ∧
      (∀ x, x ≠ 1 → (framePair .buddy).state x = .allocated →
        b'.order x = (framePair .buddy).order x) ∧
      ∀ x, b'.state x = .reserved ↔ (framePair .buddy).state x = .reserved :=
  ⟨rfl, freePages_blockMap (framePair .buddy) (framePair_tiling (by decide))
    (framePair_coalesced _) 1 (by decide) rfl⟩

/-! ## Freeing several blocks -/

/-- What freeing the blocks at `ps` does to a coalesced map. -/
structure FreedAll (b b' : Buddy) (ps : List Nat) : Prop where
  nr : b'.memNrPages = b.memNrPages
  tiling : Tiling pageMaxOrder b'.cell
  coalesced : b'.Coalesced
  free : ∀ f, b'.FreeFrame f ↔ b.FreeFrame f ∨ ∃ p ∈ ps, p ≤ f ∧ f < p + 2 ^ b.order p
  allocated : ∀ x, b'.state x = .allocated ↔ b.state x = .allocated ∧ x ∉ ps
  order : ∀ x, x ∉ ps → b.state x = .allocated → b'.order x = b.order x
  reserved : ∀ x, b'.state x = .reserved ↔ b.state x = .reserved

/-- **Freeing a list of allocations**, one after the other. -/
theorem freePages_all : ∀ (ps : List Nat) {b : Buddy}, Tiling pageMaxOrder b.cell → b.Coalesced →
    ps.Nodup → (∀ p ∈ ps, p < b.memNrPages ∧ b.state p = .allocated) →
    ∃ b', runFrom freePages b ps = .ok b' ∧ FreedAll b b' ps := by
  intro ps
  induction ps with
  | nil =>
      intro b htiled hco _ _
      exact ⟨b, rfl, rfl, htiled, hco, fun f => by simp, fun x => by simp, fun _ _ _ => rfl,
        fun _ => Iff.rfl⟩
  | cons p ps ih =>
      intro b htiled hco hnd hall
      obtain ⟨hp, hs⟩ := hall p (by simp)
      obtain ⟨hnot, hnd'⟩ := List.nodup_cons.mp hnd
      obtain ⟨b₁, he₁, hf₁⟩ := freePages_freed htiled hco hp hs
      have hne : ∀ q ∈ ps, q ≠ p := fun q hq hc => hnot (hc ▸ hq)
      have hall₁ : ∀ q ∈ ps, q < b₁.memNrPages ∧ b₁.state q = .allocated := by
        intro q hq
        obtain ⟨hq1, hq2⟩ := hall q (by simp [hq])
        exact ⟨hf₁.nr ▸ hq1, (hf₁.allocated q).mpr ⟨hq2, hne q hq⟩⟩
      obtain ⟨b₂, he₂, hf₂⟩ := ih hf₁.tiling hf₁.coalesced hnd' hall₁
      refine ⟨b₂, by simp only [runFrom, he₁]; exact he₂, hf₂.nr.trans hf₁.nr, hf₂.tiling,
        hf₂.coalesced, fun f => ?_, fun x => ?_, fun x hx hal => ?_, fun x => ?_⟩
      · have horder : ∀ q ∈ ps, b₁.order q = b.order q := fun q hq =>
          hf₁.order q (hne q hq) (hall q (by simp [hq])).2
        rw [hf₂.free, hf₁.free, or_assoc]
        refine or_congr Iff.rfl ?_
        simp only [List.mem_cons, exists_eq_or_imp]
        refine or_congr Iff.rfl (exists_congr fun q => and_congr_right fun hq => ?_)
        rw [horder q hq]
      · rw [hf₂.allocated, hf₁.allocated, List.mem_cons, not_or, and_assoc]
      · rw [List.mem_cons, not_or] at hx
        rw [hf₂.order x hx.2 ((hf₁.allocated x).mpr ⟨hal, hx.1⟩), hf₁.order x hx.1 hal]
      · rw [hf₂.reserved, hf₁.reserved]

/-- The same block map: the same pages free, allocated, tails and reserved,
and the same orders of all blocks. -/
structure SameBlocks (b b' : Buddy) : Prop where
  nr : b'.memNrPages = b.memNrPages
  state : ∀ x, x < b.memNrPages → b'.state x = b.state x
  order : ∀ x, x < b.memNrPages → b.state x = .buddy ∨ b.state x = .allocated →
    b'.order x = b.order x

/-- **A coalesced map is determined** by its free frames and what is allocated
and reserved. -/
theorem sameBlocks_of_free {b b' : Buddy} (hnr : b'.memNrPages = b.memNrPages)
    (ht : Tiling pageMaxOrder b.cell) (hco : b.Coalesced) (ht' : Tiling pageMaxOrder b'.cell)
    (hco' : b'.Coalesced) (hfree : ∀ f, b'.FreeFrame f ↔ b.FreeFrame f)
    (hal : ∀ x, b'.state x = .allocated ↔ b.state x = .allocated)
    (hord : ∀ x, b.state x = .allocated → b'.order x = b.order x)
    (hres : ∀ x, b'.state x = .reserved ↔ b.state x = .reserved) : SameBlocks b b' := by
  have hto : ∀ x, x < b.memNrPages → b.state x = .buddy →
      b'.state x = .buddy ∧ b'.order x = b.order x := by
    intro x hx hs
    obtain ⟨hc, hs'⟩ := hco.head_unique ht hco' ht' (fun f => (hfree f).symm)
      (cell_eq_head.mpr ⟨hx, .inl hs, rfl⟩) hs
    exact ⟨hs', (cell_eq_head.mp hc).2.2⟩
  have hfrom : ∀ x, x < b.memNrPages → b'.state x = .buddy → b.state x = .buddy := by
    intro x hx hs
    exact (hco'.head_unique ht' hco ht hfree
      (cell_eq_head.mpr ⟨hnr ▸ hx, .inl hs, rfl⟩) hs).2
  refine ⟨hnr, fun x hx => ?_, fun x hx hs => ?_⟩
  · cases hs : b.state x with
    | reserved => exact (hres x).mpr hs
    | buddy => exact (hto x hx hs).1
    | allocated => exact (hal x).mpr hs
    | tail =>
        -- a tail is what is neither free, allocated nor reserved
        have h1 := hfrom x hx
        have h2 := hal x
        have h3 := hres x
        rw [hs] at h1 h2 h3
        cases hs' : b'.state x with
        | reserved => exact absurd (h3.mp hs') (by simp)
        | buddy => exact absurd (h1 hs') (by simp)
        | allocated => exact absurd (h2.mp hs') (by simp)
        | tail => rfl
  · rcases hs with hs | hs
    · exact (hto x hx hs).2
    · exact hord x hs

/-- **The order of freeing does not matter**: freeing the same allocations of a
coalesced map in two orders gives the same block map. -/
theorem freePages_order_irrelevant (b : Buddy) (htiled : Tiling pageMaxOrder b.cell)
    (hco : b.Coalesced) (ps qs : List Nat) (hperm : ps.Perm qs) (hnd : ps.Nodup)
    (hall : ∀ p ∈ ps, p < b.memNrPages ∧ b.state p = .allocated) :
    ∃ b₁ b₂, runFrom freePages b ps = .ok b₁ ∧ runFrom freePages b qs = .ok b₂ ∧
      SameBlocks b₁ b₂ := by
  obtain ⟨b₁, he₁, hf₁⟩ := freePages_all ps htiled hco hnd hall
  obtain ⟨b₂, he₂, hf₂⟩ := freePages_all qs htiled hco (hperm.nodup_iff.mp hnd) fun p hp =>
    hall p (hperm.mem_iff.mpr hp)
  refine ⟨b₁, b₂, he₁, he₂, sameBlocks_of_free (hf₂.nr.trans hf₁.nr.symm) hf₁.tiling
    hf₁.coalesced hf₂.tiling hf₂.coalesced (fun f => ?_) (fun x => ?_) (fun x hx => ?_) fun x => ?_⟩
  · rw [hf₁.free, hf₂.free]
    simp only [hperm.mem_iff]
  · rw [hf₁.allocated, hf₂.allocated, hperm.mem_iff]
  · obtain ⟨hal, hnot⟩ := (hf₁.allocated x).mp hx
    rw [hf₁.order x hnot hal, hf₂.order x (fun hc => hnot (hperm.mem_iff.mpr hc)) hal]
  · rw [hf₁.reserved, hf₂.reserved]

/-- Two neighbours, freed from either end. -/
theorem freePages_order_pair :
    ∃ b₁ b₂, runFrom freePages (framePair .allocated) [0, 1] = .ok b₁ ∧
      runFrom freePages (framePair .allocated) [1, 0] = .ok b₂ ∧ SameBlocks b₁ b₂ :=
  freePages_order_irrelevant (framePair .allocated) (framePair_tiling (by decide))
    (framePair_coalesced _) [0, 1] [1, 0] (List.Perm.swap 1 0 []) (by decide) (by decide)

end DevOS.Mm
