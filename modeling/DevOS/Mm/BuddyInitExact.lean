import DevOS.Arch.BootmemRuns
import DevOS.Mm.BuddyInit
import DevOS.Mm.BuddyMap
import Mathlib.Data.Set.Card

/-!
# Buddy allocator — what initialisation leaves

`buddy_init` on a sorted table of disjoint entries. No page is marked twice,
so the pages expected are the pages free, and these are what the grouping
accounts for: the panic at the end is not reached. The blocks are the largest
there can be, so the map is coalesced.
-/

namespace DevOS.Mm

open DevOS.Lib Arch

/-! ## Counting the marks -/

/-- `set_first_order_buddy_for_range` returns how many pages are new. -/
theorem setFirstOrderBuddyForRange_count (b : Buddy) (s e : Nat)
    (hnew : ∀ x, s ≤ x → x < e → b.state x ≠ .buddy) :
    freeAhead (setFirstOrderBuddyForRange b s e).1 0 =
      freeAhead b 0 + (setFirstOrderBuddyForRange b s e).2 := by
  have hm := setFirstOrderBuddyForRange_marks b s e
  have hcount : (setFirstOrderBuddyForRange b s e).2 =
      (Finset.Ico s (min e b.memNrPages)).card := by
    rw [Nat.card_Ico]
    unfold setFirstOrderBuddyForRange
    simp only []
    split
    · split <;> simp only [] <;> omega
    · split <;> simp only [] <;> omega
  have hunion : (Finset.Ico 0 b.memNrPages).filter
      (fun x => (setFirstOrderBuddyForRange b s e).1.state x = .buddy) =
      (Finset.Ico 0 b.memNrPages).filter (fun x => b.state x = .buddy) ∪
        Finset.Ico s (min e b.memNrPages) := by
    ext x
    have hx := hm.buddy x
    simp only [Finset.mem_filter, Finset.mem_Ico, Finset.mem_union, hx]
    constructor
    · rintro ⟨h, hb | ⟨-, h1, h2⟩⟩
      · exact .inl ⟨h, hb⟩
      · exact .inr ⟨h1, by omega⟩
    · rintro (⟨h, hb⟩ | h)
      · exact ⟨h, .inl hb⟩
      · exact ⟨by omega, .inr (by omega)⟩
  have hdisj : Disjoint ((Finset.Ico 0 b.memNrPages).filter fun x => b.state x = .buddy)
      (Finset.Ico s (min e b.memNrPages)) := by
    rw [Finset.disjoint_left]
    intro x h1 h2
    simp only [Finset.mem_filter, Finset.mem_Ico] at h1 h2
    exact hnew x h2.1 (by omega) h1.2
  rw [hcount, freeAhead, freeAhead, hm.nr, hunion, Finset.card_union_of_disjoint hdisj]

/-- **Marking an entry** whose pages are not marked yet keeps
`expected_pages` the number of marked pages. -/
theorem markEntry_count {rs re : Nat} (hw : rs ≤ re) {acc : Buddy × Nat} {e : E820Entry}
    (hnew : ∀ x, EntryFrame rs re e x → acc.1.state x ≠ .buddy)
    (hacc : acc.2 = freeAhead acc.1 0) :
    (markEntry rs re acc e).2 = freeAhead (markEntry rs re acc e).1 0 := by
  unfold EntryFrame at hnew
  unfold markEntry
  by_cases hram : e.type ≠ e820TypeRam
  · rw [if_pos hram]
    exact hacc
  · rw [if_neg hram]
    have hram' : e.type = e820TypeRam := not_not.mp hram
    simp only [hram', true_and] at hnew
    simp only []
    generalize divUp e.addr pageSize = s at hnew
    generalize (e.addr + e.size) % 2 ^ 64 / pageSize = t at hnew
    generalize hs' : (if s ≥ rs ∧ s < re then re else s) = s'
    generalize ht' : (if t > rs ∧ t ≤ re then rs else t) = t'
    by_cases hempty : s' ≥ t'
    · rw [if_pos hempty]
      exact hacc
    · rw [if_neg hempty]
      by_cases hin : s' < rs ∧ t' > re
      · rw [if_pos hin]
        have h1 := setFirstOrderBuddyForRange_count acc.1 s' rs fun x hx hlt =>
          hnew x (by split at hs' <;> split at ht' <;> omega)
        -- the second range lies behind the first, so it is still unmarked
        have h2 := setFirstOrderBuddyForRange_count (setFirstOrderBuddyForRange acc.1 s' rs).1
          re t' fun x hx hlt => by
            rw [ne_eq, (setFirstOrderBuddyForRange_marks acc.1 s' rs).buddy]
            rintro (hc | ⟨-, hc⟩)
            · exact hnew x (by split at hs' <;> split at ht' <;> omega) hc
            · omega
        simp only []
        omega
      · rw [if_neg hin]
        have h1 := setFirstOrderBuddyForRange_count acc.1 s' t' fun x hx hlt =>
          hnew x (by split at hs' <;> split at ht' <;> omega)
        simp only []
        omega

/-- The frame lies wholly inside a RAM entry. -/
def RamFrame (table : List E820Entry) (f : Nat) : Prop :=
  ∃ e ∈ table, e.type = e820TypeRam ∧ e.addr ≤ f * pageSize ∧ f * pageSize + pageSize ≤ e.stop

/-- The pages `buddy_init` takes of an entry, in bytes. -/
theorem entryFrame_iff {rs re x : Nat} {e : E820Entry} (hstop : e.stop ≤ 2 ^ 52) :
    EntryFrame rs re e x ↔ e.type = e820TypeRam ∧ e.addr ≤ x * pageSize ∧
      x * pageSize + pageSize ≤ e.stop ∧ ¬ (rs ≤ x ∧ x < re) := by
  have hend : (e.addr + e.size) % 2 ^ 64 = e.stop :=
    Nat.mod_eq_of_lt (lt_of_le_of_lt hstop (by decide))
  have haddr : e.addr ≤ e.stop := Nat.le_add_right _ _
  have hlow : divUp e.addr pageSize ≤ x ↔ e.addr ≤ x * pageSize := by
    simp only [divUp, pageSize]
    omega
  have hhigh : x < e.stop / pageSize ↔ x * pageSize + pageSize ≤ e.stop := by
    simp only [pageSize]
    omega
  rw [EntryFrame, hend, hlow, hhigh]

/-- **`expected_pages`** is the number of marked pages: sorted entries have no
page in common. -/
theorem foldl_markEntry_count {rs re : Nat} (hw : rs ≤ re) : ∀ (table : List E820Entry)
    (acc : Buddy × Nat), RamBelow table → (table.Pairwise fun e f => e.stop ≤ f.addr) →
    (∀ e ∈ table, ∀ x, EntryFrame rs re e x → acc.1.state x ≠ .buddy) →
    acc.2 = freeAhead acc.1 0 →
    (table.foldl (markEntry rs re) acc).2 = freeAhead (table.foldl (markEntry rs re) acc).1 0 := by
  intro table
  induction table with
  | nil => intro acc _ _ _ hacc; exact hacc
  | cons e table ih =>
      intro acc hram hsorted hnew hacc
      obtain ⟨hbefore, hsorted'⟩ := List.pairwise_cons.mp hsorted
      refine ih _ hram.tail hsorted' (fun f hf x hx => ?_)
        (markEntry_count hw (hnew e (by simp)) hacc)
      rw [ne_eq, (markEntry_marks hw acc e).buddy]
      rintro (hc | ⟨-, hc⟩)
      · exact hnew f (by simp [hf]) x hx hc
      · -- a page of both entries would end before it starts
        obtain ⟨-, -, h2, -⟩ := (entryFrame_iff (hram e (by simp) hc.1)).mp hc
        obtain ⟨-, h3, -, -⟩ := (entryFrame_iff (hram f (by simp [hf]) hx.1)).mp hx
        have := hbefore f hf
        simp only [pageSize] at *
        omega

/-! ## The end of the map -/

/-- `last_ram_addr` bounds every RAM entry. -/
theorem stop_le_lastRamAddr {table : List E820Entry} (hram : RamBelow table)
    (hsorted : table.Pairwise fun e f => e.stop ≤ f.addr) {e : E820Entry} (he : e ∈ table)
    (het : e.type = e820TypeRam) : e.stop ≤ lastRamAddr table := by
  have hrev : table.reverse.Pairwise fun e f => f.stop ≤ e.addr := List.pairwise_reverse.mpr hsorted
  have hmem : ∀ f, f ∈ table.reverse → f ∈ table := fun f hf => List.mem_reverse.mp hf
  unfold lastRamAddr
  split
  · rename_i hnone
    have := List.find?_eq_none.mp hnone e (List.mem_reverse.mpr he)
    simp [het] at this
  · rename_i l hl
    obtain ⟨hlt, as, bs, heq, has⟩ := List.find?_eq_some_iff_append.mp hl
    have hl' : l ∈ table := hmem l (by rw [heq]; simp)
    have hlast : (l.addr + l.size) % 2 ^ 64 = l.stop :=
      hram.end64_eq hl' (by simpa using hlt)
    have hcase : e ∈ as ∨ e = l ∨ e ∈ bs := by
      have : e ∈ as ++ l :: bs := heq ▸ List.mem_reverse.mpr he
      simpa using this
    rw [hlast]
    rcases hcase with hea | rfl | heb
    · have := has e hea
      simp [het] at this
    · exact Nat.le_refl _
    · rw [heq] at hrev
      have hle := (List.pairwise_cons.mp (List.pairwise_append.mp hrev).2.1).1 e heb
      exact hle.trans (Nat.le_add_right _ _)

/-! ## The result -/

/-- Blocks that cannot grow are coalesced. -/
theorem Maximal.coalesced {b : Buddy} (h : Maximal b b.memNrPages)
    (htiled : Tiling pageMaxOrder b.cell) : b.Coalesced := by
  intro g k hk hdvd hg _ hg' _
  have hpow : 2 ^ (k + 1) = 2 ^ k + 2 ^ k := by ring
  obtain ⟨x, h1, h2, h3⟩ := h g k (cell_eq_head.mp hg).1 hg hk hdvd
  by_cases hx : x < g + 2 ^ k
  · exact htiled.occupied hg h1 hx h3
  · exact htiled.occupied hg' (by omega) (by omega) h3

/-- With nothing allocated, the frames that are not vacant are free. -/
theorem freeFrame_iff_occupied {b : Buddy} (htiled : Tiling pageMaxOrder b.cell)
    (hnone : ∀ x, x < b.memNrPages → b.state x ≠ .allocated) (f : Nat) :
    b.FreeFrame f ↔ b.cell f ≠ .vacant := by
  have hfree : ∀ {h k}, b.cell h = .head k → b.state h = .buddy := by
    intro h k hh
    obtain ⟨hlt, hs, -⟩ := cell_eq_head.mp hh
    exact hs.resolve_right (hnone h hlt)
  constructor
  · rintro ⟨h, k, hh, -, h1, h2⟩
    exact htiled.occupied hh h1 h2
  · intro hocc
    cases hc : b.cell f with
    | vacant => exact absurd hc hocc
    | head k =>
        have hpos := Nat.two_pow_pos k
        exact ⟨f, k, hc, hfree hc, Nat.le_refl f, by omega⟩
    | tail =>
        obtain ⟨h, k, hh, h1, h2⟩ := htiled.covered hc
        exact ⟨h, k, hh, hfree hh, by omega, h2⟩

/-- **`buddy_init` is exact**: on every sorted table of disjoint entries below
`2 ^ 52`, with a pool end at or above the kernel (and far enough from `2 ^ 64`
to be rounded up to a page), it does not panic. The free frames are the frames
of RAM entries outside the kernel and the pool; the blocks are aligned, tile
the map, are coalesced and on their lists; every other page stays reserved;
and `managed_mem` counts the free frames. -/
theorem buddyInit_exact (table : List E820Entry) (hram : RamBelow table)
    (hsorted : table.Pairwise fun e f => e.stop ≤ f.addr) (poolEnd : Nat)
    (hpool : kernelPhys ≤ poolEnd) (hwrap : poolEnd + pageSize ≤ 2 ^ 64) :
    ∃ b L, buddyInit table poolEnd (memInit (lastRamAddr table / pageSize)) = .ok b ∧
      b.memNrPages = lastRamAddr table / pageSize ∧
      (∀ f, b.FreeFrame f ↔ RamFrame table f ∧
        ¬ (kernelPhys / pageSize ≤ f ∧ f < (poolEnd + (pageSize - 1)) / pageSize)) ∧
      Rep b (fun _ => False) L ∧ b.Coalesced ∧
      (∀ f, f < b.memNrPages → ¬ b.FreeFrame f → b.state f = .reserved) ∧
      b.managedMem = pageSize * Set.ncard {f | b.FreeFrame f} := by
  have hup : divUp poolEnd pageSize = (poolEnd + (pageSize - 1)) / pageSize := by
    simp only [divUp, pageSize] at *
    omega
  have hw : kernelPhys / pageSize ≤ divUp poolEnd pageSize := by
    rw [hup]
    simp only [kernelPhys, pageSize] at *
    omega
  obtain ⟨b, L, he, hn, hinv, hmax⟩ :=
    buddyInit_grouped table poolEnd (lastRamAddr table / pageSize)
  have hmark := fun x =>
    @markEntries_buddy table poolEnd (lastRamAddr table / pageSize) x hw
  have hnr := (foldl_markEntry_marked (kernelPhys / pageSize) (divUp poolEnd pageSize) table
    (memInit (lastRamAddr table / pageSize), 0) (marked_memInit _)).2
  have hcount : (markEntries table poolEnd (memInit (lastRamAddr table / pageSize))).2 =
      freeAhead (markEntries table poolEnd (memInit (lastRamAddr table / pageSize))).1 0 := by
    refine foldl_markEntry_count hw table _ hram hsorted (fun e _ x _ hc => ?_) ?_
    · simp [memInit, Page.zero, Buddy.state] at hc
    · simp [freeAhead, memInit, Page.zero, Buddy.state]
  -- a marked frame is below the end of the map anyway
  have hfree : ∀ f, b.FreeFrame f ↔ RamFrame table f ∧
      ¬ (kernelPhys / pageSize ≤ f ∧ f < (poolEnd + (pageSize - 1)) / pageSize) := by
    intro f
    rw [freeFrame_iff_occupied hinv.tiling hinv.free, hinv.managed_iff, hn, hmark, ← hup]
    constructor
    · rintro ⟨-, -, e, he, hfr⟩
      obtain ⟨h1, h2, h3, h4⟩ := (entryFrame_iff (hram e he hfr.1)).mp hfr
      exact ⟨⟨e, he, h1, h2, h3⟩, h4⟩
    · rintro ⟨⟨e, he, h1, h2, h3⟩, h4⟩
      have hlast := stop_le_lastRamAddr hram hsorted he h1
      have hlt : f < lastRamAddr table / pageSize := by
        simp only [pageSize] at *
        omega
      exact ⟨hlt, hlt, e, he, (entryFrame_iff (hram e he h1)).mpr ⟨h1, h2, h3, h4⟩⟩
  have hset : {f | b.FreeFrame f} = ((Finset.Ico 0 (markEntries table poolEnd (memInit
      (lastRamAddr table / pageSize))).1.memNrPages).filter fun x => (markEntries table poolEnd
      (memInit (lastRamAddr table / pageSize))).1.state x = .buddy : Set Nat) := by
    ext f
    have hnr' : (markEntries table poolEnd (memInit (lastRamAddr table / pageSize))).1.memNrPages
        = lastRamAddr table / pageSize := hnr
    simp only [Set.mem_ofPred_eq, Finset.coe_filter, Finset.mem_Ico, hnr']
    rw [freeFrame_iff_occupied hinv.tiling hinv.free, hinv.managed_iff, hn]
    simp
  rw [if_neg (not_not.mpr hcount)] at he
  refine ⟨_, L, he, hn, hfree, hinv.rep _, hmax.coalesced hinv.tiling, fun f hf hno => ?_, ?_⟩
  · have hvacant : b.cell f = .vacant := by
      by_contra hc
      exact hno ((freeFrame_iff_occupied hinv.tiling hinv.free f).mpr hc)
    exact cell_eq_vacant.mp hvacant hf
  · show freeAhead _ 0 * pageSize = pageSize * Set.ncard {f | b.FreeFrame f}
    rw [hset, Set.ncard_coe_finset, Nat.mul_comm]
    rfl

/-- Low memory and 6 MiB from 1 MiB on, of which the kernel and the pool take
the second and third. -/
def lowTable : List E820Entry := [⟨0, 0x9FC00, 1⟩, ⟨0xF0000, 0x10000, 2⟩, ⟨0x100000, 0x600000, 1⟩]

theorem buddyInit_exact_low :
    ∃ b L, buddyInit lowTable 0x300800 (memInit (lastRamAddr lowTable / pageSize)) = .ok b ∧
      b.memNrPages = lastRamAddr lowTable / pageSize ∧
      (∀ f, b.FreeFrame f ↔ RamFrame lowTable f ∧
        ¬ (kernelPhys / pageSize ≤ f ∧ f < (0x300800 + (pageSize - 1)) / pageSize)) ∧
      Rep b (fun _ => False) L ∧ b.Coalesced ∧
      (∀ f, f < b.memNrPages → ¬ b.FreeFrame f → b.state f = .reserved) ∧
      b.managedMem = pageSize * Set.ncard {f | b.FreeFrame f} :=
  buddyInit_exact lowTable (by simp [RamBelow, lowTable, E820Entry.stop])
    (by simp [lowTable, E820Entry.stop]) 0x300800 (by decide) (by decide)

end DevOS.Mm
