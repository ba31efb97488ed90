import DevOS.Mm.BuddyOps
import Mathlib.Data.Nat.Log
import Mathlib.Order.Interval.Finset.Nat

/-!
# Buddy allocator — initialisation

`buddy_init` in its two phases. Marking turns the whole pages of the RAM
entries outside the reserved window into free pages of order 0: already a
tiling, of single pages, with every list still empty. Grouping then walks the
map once, each time cutting the largest aligned block that starts at the
current page; `GroupInv` is the state of that walk.
-/

namespace DevOS.Mm

open DevOS.Lib

/-! ## Range stores -/

/-- A loop that rewrites each page of a range rewrites exactly that range. -/
theorem foldl_setPage (f : Page → Page) : ∀ (count first : Nat) (b : Buddy) (x : Nat),
    ((List.range' first count).foldl (fun b i => b.setPage i f) b).memMap x =
      if first ≤ x ∧ x < first + count then f (b.memMap x) else b.memMap x := by
  intro count
  induction count with
  | zero =>
      intro first b x
      simp
  | succ count ih =>
      intro first b x
      rw [List.range'_succ, List.foldl_cons, ih, setPage_memMap]
      by_cases hx : x = first
      · subst hx
        simp
      · rw [if_neg hx]
        by_cases hin : first + 1 ≤ x ∧ x < first + 1 + count
        · rw [if_pos hin, if_pos (by omega)]
        · rw [if_neg hin, if_neg (by omega)]

theorem foldl_setPage_globals (f : Page → Page) : ∀ (l : List Nat) (b : Buddy),
    (l.foldl (fun b i => b.setPage i f) b).memNrPages = b.memNrPages ∧
      (l.foldl (fun b i => b.setPage i f) b).freeMatrix = b.freeMatrix := by
  intro l
  induction l with
  | nil => intro b; exact ⟨rfl, rfl⟩
  | cons i l ih => intro b; exact ih (b.setPage i f)

/-! ## Marking -/

/-- Only the first loop of `buddy_init` has run: no list is filled and every
page is reserved or a free page of order 0. -/
structure Marked (b : Buddy) : Prop where
  empty : ∀ k, b.freeMatrix k = none
  order : ∀ x, b.order x = 0
  state : ∀ x, b.state x = .reserved ∨ b.state x = .buddy

theorem marked_memInit (n : Nat) : Marked (memInit n) :=
  ⟨fun _ => rfl, fun _ => rfl, fun _ => .inl rfl⟩

/-- What a marking step does to the map: the frames in `R` (below
`mem_nr_pages`) become free, nothing else changes. -/
structure Marks (b b' : Buddy) (R : Nat → Prop) : Prop where
  nr : b'.memNrPages = b.memNrPages
  marked : Marked b → Marked b'
  buddy : ∀ x, b'.state x = .buddy ↔ b.state x = .buddy ∨ x < b.memNrPages ∧ R x

theorem Marks.refl (b : Buddy) {R : Nat → Prop} (hR : ∀ x, x < b.memNrPages → ¬ R x) :
    Marks b b R := by
  refine ⟨rfl, id, fun x => ⟨.inl, ?_⟩⟩
  rintro (h | ⟨h, hr⟩)
  · exact h
  · exact absurd hr (hR x h)

theorem Marks.trans {b b' b'' : Buddy} {R R' S : Nat → Prop} (h : Marks b b' R)
    (h' : Marks b' b'' R') (hS : ∀ x, x < b.memNrPages → (S x ↔ R x ∨ R' x)) :
    Marks b b'' S := by
  refine ⟨h'.nr.trans h.nr, fun hm => h'.marked (h.marked hm), fun x => ?_⟩
  rw [h'.buddy, h.buddy, h.nr]
  have := hS x
  tauto

theorem Marks.congr {b b' : Buddy} {R S : Nat → Prop} (h : Marks b b' R)
    (hS : ∀ x, x < b.memNrPages → (S x ↔ R x)) : Marks b b' S := by
  refine ⟨h.nr, h.marked, fun x => ?_⟩
  rw [h.buddy]
  have := hS x
  tauto

theorem setFirstOrderBuddyForRange_marks (b : Buddy) (s e : Nat) :
    Marks b (setFirstOrderBuddyForRange b s e).1 (fun x => s ≤ x ∧ x < e) := by
  unfold setFirstOrderBuddyForRange
  simp only []
  have hclip : ∀ x, x < (if e > b.memNrPages then b.memNrPages else e) ↔
      x < b.memNrPages ∧ x < e := by
    intro x
    split <;> omega
  generalize (if e > b.memNrPages then b.memNrPages else e) = t at hclip
  by_cases hempty : s ≥ t
  · rw [if_pos hempty]
    refine Marks.refl b (fun x hx hr => ?_)
    have := (hclip x).mpr ⟨hx, hr.2⟩
    omega
  · rw [if_neg hempty]
    obtain ⟨hn, hf⟩ := foldl_setPage_globals
      (fun pg => { pg with state := .buddy, order := 0 }) (List.range' s (t - s)) b
    have hmap := foldl_setPage (fun pg => { pg with state := .buddy, order := 0 }) (t - s) s b
    refine ⟨hn, fun hm => ⟨fun k => by rw [hf]; exact hm.empty k, fun x => ?_, fun x => ?_⟩,
      fun x => ?_⟩
    · rw [Buddy.order, hmap]
      split
      · rfl
      · exact hm.order x
    · rw [Buddy.state, hmap]
      split
      · exact .inr rfl
      · exact hm.state x
    · rw [Buddy.state, hmap]
      have := hclip x
      split
      · simp only [true_iff]
        exact .inr (by omega)
      · constructor
        · exact .inl
        · rintro (h | h)
          · exact h
          · omega

/-- The frames of one E820 entry that `buddy_init` manages: whole pages of a
RAM entry outside the reserved window. -/
def EntryFrame (rs re : Nat) (e : Arch.E820Entry) (x : Nat) : Prop :=
  e.type = Arch.e820TypeRam ∧ divUp e.addr pageSize ≤ x ∧
    x < (e.addr + e.size) % 2 ^ 64 / pageSize ∧ ¬ (rs ≤ x ∧ x < re)

/-- **The clipping of `buddy_init`** is exact in every position of an entry
relative to the reserved window. -/
theorem markEntry_marks {rs re : Nat} (hw : rs ≤ re) (acc : Buddy × Nat) (e : Arch.E820Entry) :
    Marks acc.1 (markEntry rs re acc e).1 (EntryFrame rs re e) := by
  unfold markEntry EntryFrame
  by_cases hram : e.type ≠ Arch.e820TypeRam
  · rw [if_pos hram]
    exact Marks.refl _ (fun x _ hr => hram hr.1)
  · rw [if_neg hram]
    have hram' : e.type = Arch.e820TypeRam := not_not.mp hram
    simp only [hram', true_and]
    generalize divUp e.addr pageSize = s
    generalize (e.addr + e.size) % 2 ^ 64 / pageSize = t
    generalize hs' : (if s ≥ rs ∧ s < re then re else s) = s'
    generalize ht' : (if t > rs ∧ t ≤ re then rs else t) = t'
    by_cases hempty : s' ≥ t'
    · rw [if_pos hempty]
      refine Marks.refl _ (fun x _ hr => ?_)
      split at hs' <;> split at ht' <;> omega
    · rw [if_neg hempty]
      by_cases hin : s' < rs ∧ t' > re
      · rw [if_pos hin]
        refine (setFirstOrderBuddyForRange_marks acc.1 s' rs).trans
          (setFirstOrderBuddyForRange_marks _ re t') (fun x _ => ?_)
        split at hs' <;> split at ht' <;> omega
      · rw [if_neg hin]
        refine (setFirstOrderBuddyForRange_marks acc.1 s' t').congr (fun x _ => ?_)
        split at hs' <;> split at ht' <;> omega

/-- Marking never fills a list or an order, whatever the window. -/
theorem markEntry_marked (rs re : Nat) {acc : Buddy × Nat} (e : Arch.E820Entry)
    (h : Marked acc.1) : Marked (markEntry rs re acc e).1 ∧
      (markEntry rs re acc e).1.memNrPages = acc.1.memNrPages := by
  have hset := setFirstOrderBuddyForRange_marks
  unfold markEntry
  by_cases hram : e.type ≠ Arch.e820TypeRam
  · rw [if_pos hram]
    exact ⟨h, rfl⟩
  · rw [if_neg hram]
    simp only []
    generalize (if divUp e.addr pageSize ≥ rs ∧ divUp e.addr pageSize < re then re
      else divUp e.addr pageSize) = s
    generalize (if (e.addr + e.size) % 2 ^ 64 / pageSize > rs ∧
      (e.addr + e.size) % 2 ^ 64 / pageSize ≤ re then rs
      else (e.addr + e.size) % 2 ^ 64 / pageSize) = t
    by_cases hempty : s ≥ t
    · rw [if_pos hempty]
      exact ⟨h, rfl⟩
    · rw [if_neg hempty]
      by_cases hin : s < rs ∧ t > re
      · rw [if_pos hin]
        exact ⟨(hset _ _ _).marked ((hset _ _ _).marked h), ((hset _ _ _).nr).trans (hset _ _ _).nr⟩
      · rw [if_neg hin]
        exact ⟨(hset _ _ _).marked h, (hset _ _ _).nr⟩

theorem foldl_markEntry_marked (rs re : Nat) : ∀ (table : List Arch.E820Entry)
    (acc : Buddy × Nat), Marked acc.1 → Marked (table.foldl (markEntry rs re) acc).1 ∧
      (table.foldl (markEntry rs re) acc).1.memNrPages = acc.1.memNrPages := by
  intro table
  induction table with
  | nil => intro acc h; exact ⟨h, rfl⟩
  | cons e table ih =>
      intro acc h
      obtain ⟨h1, h2⟩ := markEntry_marked rs re e h
      obtain ⟨h3, h4⟩ := ih (markEntry rs re acc e) h1
      exact ⟨h3, h4.trans h2⟩

theorem foldl_markEntry_buddy {rs re : Nat} (hw : rs ≤ re) : ∀ (table : List Arch.E820Entry)
    (acc : Buddy × Nat) (x : Nat), (table.foldl (markEntry rs re) acc).1.state x = .buddy ↔
      acc.1.state x = .buddy ∨ x < acc.1.memNrPages ∧ ∃ e ∈ table, EntryFrame rs re e x := by
  intro table
  induction table with
  | nil => intro acc x; simp
  | cons e table ih =>
      intro acc x
      have hm := markEntry_marks hw acc e
      rw [List.foldl_cons, ih, hm.buddy, hm.nr]
      simp only [List.mem_cons, exists_eq_or_imp]
      tauto

/-- **What `buddy_init` marks**: the whole pages of RAM entries outside
`[KERNEL_PHYS, pool_end)`. -/
theorem markEntries_buddy {table : List Arch.E820Entry} {poolEnd n x : Nat}
    (hw : kernelPhys / pageSize ≤ divUp poolEnd pageSize) :
    (markEntries table poolEnd (memInit n)).1.state x = .buddy ↔
      x < n ∧ ∃ e ∈ table, EntryFrame (kernelPhys / pageSize) (divUp poolEnd pageSize) e x := by
  rw [markEntries, foldl_markEntry_buddy hw]
  simp [memInit, Page.zero, Buddy.state]

/-! ## Grouping -/

/-- The scan stops within its bound, after free pages only. -/
theorem contiguousEnd_spec (b : Buddy) : ∀ (fuel j : Nat),
    j ≤ contiguousEnd b fuel j ∧ contiguousEnd b fuel j ≤ j + fuel ∧
      (∀ x, j ≤ x → x < contiguousEnd b fuel j → b.state x = .buddy) ∧
      (contiguousEnd b fuel j < j + fuel → b.state (contiguousEnd b fuel j) ≠ .buddy) := by
  intro fuel
  induction fuel with
  | zero =>
      intro j
      exact ⟨Nat.le_refl _, Nat.le_refl _, fun x h1 h2 => absurd h2 (Nat.not_lt.mpr h1),
        fun h => absurd h (Nat.lt_irrefl _)⟩
  | succ fuel ih =>
      intro j
      rw [contiguousEnd]
      by_cases hs : (b.memMap j).state ≠ .buddy
      · rw [if_pos hs]
        exact ⟨Nat.le_refl _, by omega, fun x h1 h2 => by omega, fun _ => hs⟩
      · rw [if_neg hs]
        obtain ⟨h1, h2, h3, h4⟩ := ih (j + 1)
        refine ⟨by omega, by omega, fun x hx hlt => ?_, fun hlt => h4 (by omega)⟩
        rcases Nat.eq_or_lt_of_le hx with rfl | hgt
        · exact not_not.mp hs
        · exact h3 x hgt hlt

theorem lengthOrder_eq {n : Nat} (h : n ≠ 0) (hn : n < 2 ^ 64) :
    (lengthOrder n).toNat = Nat.log2 n := by
  have hlog : Nat.log2 n < 64 := (Nat.log2_lt h).mpr hn
  rw [lengthOrder, if_neg h, clzll]
  simp only [Int.toNat_natCast]
  omega

/-- **The block `buddy_init` cuts** at a free page `i`: aligned, inside the map
and over free pages only; if the alignment allows a larger one, a page that is
not free is in the way. -/
theorem blockOrder_spec {b : Buddy} {i : Nat} (hi : i < b.memNrPages)
    (hs : b.state i = .buddy) :
    blockOrder b i ≤ alignmentOrder i ∧ i + 2 ^ blockOrder b i ≤ b.memNrPages ∧
      (∀ x, i ≤ x → x < i + 2 ^ blockOrder b i → b.state x = .buddy) ∧
      (blockOrder b i < alignmentOrder i → ∃ x, i ≤ x ∧ x < i + 2 ^ (blockOrder b i + 1) ∧
        (x < b.memNrPages → b.state x ≠ .buddy)) := by
  have halign := alignmentOrder_le i
  have hmax : pageMaxOrder = 10 := rfl
  have hposa := Nat.two_pow_pos (alignmentOrder i)
  have hend : ∀ t, (if i + 2 ^ alignmentOrder i ≤ b.memNrPages then i + 2 ^ alignmentOrder i
      else b.memNrPages) = t → i < t ∧ t ≤ b.memNrPages ∧ t ≤ i + 2 ^ alignmentOrder i ∧
        (t = i + 2 ^ alignmentOrder i ∨ t = b.memNrPages) := by
    rintro t rfl
    split <;> omega
  unfold blockOrder
  simp only []
  generalize hte : (if i + 2 ^ alignmentOrder i ≤ b.memNrPages then i + 2 ^ alignmentOrder i
      else b.memNrPages) = t
  obtain ⟨h1, h2, h3, hwhich⟩ := hend t hte
  obtain ⟨g1, g2, g3, g4⟩ := contiguousEnd_spec b (t - i) i
  generalize contiguousEnd b (t - i) i = j at g1 g2 g3 g4
  have hij : i < j := by
    rcases Nat.eq_or_lt_of_le g1 with rfl | hlt
    · exact absurd hs (g4 (by omega))
    · exact hlt
  have hpow : 2 ^ alignmentOrder i ≤ 2 ^ 10 := Nat.pow_le_pow_right (by decide) (by omega)
  have hne : j - i ≠ 0 := by omega
  rw [lengthOrder_eq hne (by omega)]
  have hself : 2 ^ Nat.log2 (j - i) ≤ j - i := Nat.log2_self_le hne
  have hnext : j - i < 2 ^ (Nat.log2 (j - i) + 1) := Nat.lt_log2_self
  refine ⟨?_, by omega, fun x hx hlt => g3 x hx (by omega), fun hlt => ?_⟩
  · have hle : 2 ^ Nat.log2 (j - i) ≤ 2 ^ alignmentOrder i := by omega
    exact (Nat.pow_le_pow_iff_right (by decide)).mp hle
  · -- the scan did not reach the alignment, so it met a page that is not free
    have hroom : 2 ^ (Nat.log2 (j - i) + 1) ≤ 2 ^ alignmentOrder i :=
      Nat.pow_le_pow_right (by decide) hlt
    exact ⟨j, g1, by omega, fun hj => g4 (by omega)⟩

/-- The map during grouping at page `i`: tiled, the blocks below `i` on their
lists, the pages from `i` on as marking left them, and `cells₀` the managed
frames. -/
structure GroupInv (managed : Nat → Prop) (b : Buddy) (i : Nat) (L : Nat → List Nat) :
    Prop where
  tiling : Tiling pageMaxOrder b.cell
  lists : FreeLists b (fun x => i ≤ x) L
  ahead : ∀ x, i ≤ x → x < b.memNrPages →
    b.state x = .reserved ∨ b.state x = .buddy ∧ b.order x = 0
  free : ∀ x, x < b.memNrPages → b.state x ≠ .allocated
  managed_iff : ∀ x, b.cell x ≠ .vacant ↔ x < b.memNrPages ∧ managed x

/-- Marking establishes the invariant at page 0: single pages, empty lists. -/
theorem Marked.groupInv {b : Buddy} (h : Marked b) :
    GroupInv (fun x => b.state x = .buddy) b 0 (fun _ => []) := by
  have hhead : ∀ {x k}, b.cell x = .head k → k = 0 := by
    intro x k hc
    rw [← (cell_eq_head.mp hc).2.2]
    exact h.order x
  have hnotail : ∀ x, b.cell x ≠ .tail := by
    intro x hc
    have := (cell_eq_tail.mp hc).2
    rcases h.state x with hs | hs <;> simp [hs] at this
  refine ⟨⟨?_, ?_, ?_, ?_⟩, ⟨fun k _ => ?_, fun k _ x => ?_⟩, fun x _ _ => ?_, fun x _ => ?_,
    fun x => ?_⟩
  · intro x k hc
    rw [hhead hc]
    exact Nat.zero_le _
  · intro x k hc
    rw [hhead hc]
    exact Nat.one_dvd x
  · intro x k t hc h1 h2
    rw [hhead hc] at h2
    omega
  · intro t hc
    exact absurd hc (hnotail t)
  · rw [h.empty]
    exact dList_nil
  · simp
  · rcases h.state x with hs | hs
    · exact .inl hs
    · exact .inr ⟨hs, h.order x⟩
  · rcases h.state x with hs | hs <;> simp [hs]
  · rw [ne_eq, cell_eq_vacant, Classical.not_imp]
    rcases h.state x with hs | hs <;> simp [hs]

/-- The stores of one grouping round before `insert_free`. -/
def cut (b : Buddy) (i order : Nat) : Buddy :=
  setTails (b.setPage i fun pg => { pg with order := order }) (i + 1) (2 ^ order - 1)

theorem cut_fields (b : Buddy) (i k x : Nat) :
    (cut b i k).state x = (if i < x ∧ x < i + 2 ^ k then .tail else b.state x) ∧
      (cut b i k).order x = (if x = i then k else b.order x) ∧
      (cut b i k).next x = b.next x ∧ (cut b i k).prev x = b.prev x := by
  have hpos := Nat.two_pow_pos k
  have hmap := foldl_setPage (fun pg => { pg with state := .tail }) (2 ^ k - 1) (i + 1)
    (b.setPage i fun pg => { pg with order := k }) x
  have hcut : (cut b i k).memMap x =
      if i < x ∧ x < i + 2 ^ k then { b.memMap x with state := .tail }
      else if x = i then { b.memMap i with order := k } else b.memMap x := by
    rw [show (cut b i k).memMap x = _ from hmap, setPage_memMap]
    by_cases hin : i < x ∧ x < i + 2 ^ k
    · rw [if_pos hin, if_pos (by omega), if_neg (by omega)]
    · rw [if_neg hin, if_neg (by omega)]
  by_cases hin : i < x ∧ x < i + 2 ^ k
  · have hxi : x ≠ i := by omega
    simp [Buddy.state, Buddy.order, Buddy.next, Buddy.prev, hcut, hin, hxi]
  · by_cases hxi : x = i
    · subst hxi
      simp [Buddy.state, Buddy.order, Buddy.next, Buddy.prev, hcut]
    · simp [Buddy.state, Buddy.order, Buddy.next, Buddy.prev, hcut, hin, hxi]

theorem cut_globals (b : Buddy) (i k : Nat) :
    (cut b i k).memNrPages = b.memNrPages ∧ (cut b i k).freeMatrix = b.freeMatrix := by
  obtain ⟨h1, h2⟩ := foldl_setPage_globals (fun pg => { pg with state := .tail })
    (List.range' (i + 1) (2 ^ k - 1)) (b.setPage i fun pg => { pg with order := k })
  exact ⟨h1, h2⟩

/-- **One grouping round** at a free page: the pages of the block become one
free block on its list. -/
theorem group_round {managed : Nat → Prop} {b : Buddy} {i : Nat} {L : Nat → List Nat}
    (h : GroupInv managed b i L) (hi : i < b.memNrPages) (hs : b.state i = .buddy) :
    ∃ b' L', insertFree (cut b i (blockOrder b i)) i = .ok b' ∧
      b'.memNrPages = b.memNrPages ∧ GroupInv managed b' (i + 2 ^ blockOrder b i) L' ∧
      (∀ x, b'.state x = if i < x ∧ x < i + 2 ^ blockOrder b i then .tail else b.state x) ∧
      ∀ x, b'.order x = if x = i then blockOrder b i else b.order x := by
  obtain ⟨hal, hfit, hfree, -⟩ := blockOrder_spec hi hs
  generalize blockOrder b i = k at hal hfit hfree
  have hpos := Nat.two_pow_pos k
  obtain ⟨hkmax, hdvd⟩ := le_alignmentOrder.mp hal
  obtain ⟨hn, hf⟩ := cut_globals b i k
  -- everything from `i` on is still off the lists
  have hlists : FreeLists (cut b i k) (fun x => i ≤ x) L := by
    refine h.lists.congr hf (fun _ _ x _ => (cut_fields b i k x).2.2) (fun x => ?_)
      (fun x _ hx => ?_)
    · rw [(cut_fields b i k x).1, hn]
      by_cases hx : i < x ∧ x < i + 2 ^ k
      · have hle : i ≤ x := by omega
        simp [hle]
      · rw [if_neg hx]
    · rw [(cut_fields b i k x).2.1, if_neg (by omega)]
  have hoi : (cut b i k).order i = k := by rw [(cut_fields b i k i).2.1, if_pos rfl]
  obtain ⟨b', he, hn', hst, hord, hfl⟩ := insertFree_spec (p := i) hlists (by rw [hn]; exact hi)
    (fun _ => Nat.le_refl i) (by rw [hoi]; exact hkmax)
  have hst' : ∀ x, b'.state x = if i < x ∧ x < i + 2 ^ k then .tail else b.state x := by
    intro x
    rw [hst, (cut_fields b i k x).1]
    by_cases hx : x = i
    · rw [if_pos hx, if_neg (by omega), hx, hs]
    · rw [if_neg hx]
  have hord' : ∀ x, b'.order x = if x = i then k else b.order x := by
    intro x
    rw [hord, (cut_fields b i k x).2.1]
  have hnr : b'.memNrPages = b.memNrPages := hn'.trans hn
  have hzero : ∀ x, i ≤ x → x < i + 2 ^ k → b.cell x = .head 0 := by
    intro x h1 h2
    have hx := hfree x h1 h2
    rcases h.ahead x h1 (by omega) with hr | hr
    · rw [hr] at hx
      cases hx
    · exact cell_eq_head.mpr ⟨by omega, .inl hx, hr.2⟩
  have hnew : b'.cell i = .head k :=
    cell_eq_head.mpr ⟨by omega, .inl (by rw [hst', if_neg (by omega), hs]),
      by rw [hord', if_pos rfl]⟩
  have htail : ∀ t, i < t → t < i + 2 ^ k → b'.cell t = .tail := fun t h1 h2 =>
    cell_eq_tail.mpr ⟨by omega, by rw [hst', if_pos ⟨h1, h2⟩]⟩
  have hout : ∀ t, ¬ (i ≤ t ∧ t < i + 2 ^ k) → b'.cell t = b.cell t := by
    intro t ht
    exact cell_congr hnr (by rw [hst', if_neg (by omega)]) (by rw [hord', if_neg (by omega)])
  refine ⟨b', Function.update L ((cut b i k).order i) (i :: L ((cut b i k).order i)), he, hnr,
    ⟨?_, ?_, ?_, ?_, ?_⟩, hst', hord'⟩
  · refine h.tiling.group hkmax hdvd ?_ hnew htail hout
    -- the window holds single pages, so a block meeting it is one of them
    intro h' k' f e' hl hu
    constructor
    · intro hw
      have := h.tiling.disjoint (hzero f hw.1 hw.2) e' (Nat.le_refl f) (by omega) hl hu
      omega
    · intro hw
      rw [hzero h' hw.1 hw.2] at e'
      cases e'
      omega
  · refine hfl.off_congr (fun x _ hb => ?_)
    have : ¬ (i < x ∧ x < i + 2 ^ k) := by
      intro hc
      rw [hst', if_pos hc] at hb
      cases hb
    omega
  · intro x hx hxn
    rw [hst', if_neg (by omega), hord', if_neg (by omega)]
    exact h.ahead x (by omega) (by omega)
  · intro x hx
    rw [hst']
    split
    · simp
    · exact h.free x (by omega)
  · intro x
    rw [hnr, ← h.managed_iff x]
    by_cases hw : i ≤ x ∧ x < i + 2 ^ k
    · rw [hzero x hw.1 hw.2]
      rcases Nat.eq_or_lt_of_le hw.1 with rfl | hlt
      · simp [hnew]
      · simp [htail x hlt hw.2]
    · rw [hout x hw]

/-- Past the end of the map nothing is left to group. -/
theorem GroupInv.finish {managed : Nat → Prop} {b : Buddy} {i : Nat} {L : Nat → List Nat}
    (h : GroupInv managed b i L) (hi : b.memNrPages ≤ i) : GroupInv managed b b.memNrPages L where
  tiling := h.tiling
  lists := h.lists.off_congr (fun x hx _ => by omega)
  ahead := fun x h1 h2 => by omega
  free := h.free
  managed_iff := h.managed_iff

/-- Every block below `i` that its alignment would let grow has a frame in the
way that is not managed. -/
def Maximal (b : Buddy) (i : Nat) : Prop :=
  ∀ h k, h < i → b.cell h = .head k → k < pageMaxOrder → 2 ^ (k + 1) ∣ h →
    ∃ x, h ≤ x ∧ x < h + 2 ^ (k + 1) ∧ b.cell x = .vacant

/-- A page that is not free starts no block. -/
theorem Maximal.skip {managed : Nat → Prop} {b : Buddy} {i : Nat} {L : Nat → List Nat}
    (h : Maximal b i) (hinv : GroupInv managed b i L) (hi : i < b.memNrPages)
    (hs : b.state i ≠ .buddy) : Maximal b (i + 1) := by
  intro g k hg hcell hk hdvd
  rcases Nat.eq_or_lt_of_le (Nat.le_of_lt_succ hg) with rfl | hlt
  · have hfree := hinv.free g hi
    rcases (cell_eq_head.mp hcell).2.1 with hc | hc
    · exact absurd hc hs
    · exact absurd hc hfree
  · exact h g k hlt hcell hk hdvd

/-- The block a grouping round cuts is as large as it can be. -/
theorem Maximal.round {managed : Nat → Prop} {b b' : Buddy} {i : Nat} {L L' : Nat → List Nat}
    (h : Maximal b i) (hinv : GroupInv managed b i L) (hi : i < b.memNrPages)
    (hs : b.state i = .buddy) (hn : b'.memNrPages = b.memNrPages)
    (hinv' : GroupInv managed b' (i + 2 ^ blockOrder b i) L')
    (hst : ∀ x, b'.state x = if i < x ∧ x < i + 2 ^ blockOrder b i then .tail else b.state x)
    (hord : ∀ x, b'.order x = if x = i then blockOrder b i else b.order x) :
    Maximal b' (i + 2 ^ blockOrder b i) := by
  obtain ⟨-, -, -, hmax⟩ := blockOrder_spec hi hs
  -- the same frames are managed before and after
  have hvacant : ∀ x, b.cell x = .vacant → b'.cell x = .vacant := by
    intro x hx
    by_contra hc
    have hx' := (hinv'.managed_iff x).mp hc
    rw [hn, ← hinv.managed_iff x] at hx'
    exact hx' hx
  intro g k hg hcell hk hdvd
  rcases Nat.lt_trichotomy g i with hlt | heq | hgt
  · have hsame : b'.cell g = b.cell g :=
      cell_congr hn (by rw [hst, if_neg (by omega)]) (by rw [hord, if_neg (by omega)])
    obtain ⟨x, h1, h2, h3⟩ := h g k hlt (hsame ▸ hcell) hk hdvd
    exact ⟨x, h1, h2, hvacant x h3⟩
  · subst heq
    have hkb : blockOrder b g = k := by
      rw [← (cell_eq_head.mp hcell).2.2, hord, if_pos rfl]
    have hroom : k + 1 ≤ alignmentOrder g := le_alignmentOrder.mpr ⟨hk, hdvd⟩
    obtain ⟨x, h1, h2, h3⟩ := hmax (by omega)
    rw [hkb] at h2
    refine ⟨x, h1, h2, hvacant x (cell_eq_vacant.mpr fun hx => ?_)⟩
    exact (hinv.ahead x h1 hx).resolve_right fun hc => h3 hx hc.1
  · obtain ⟨-, hs', -⟩ := cell_eq_head.mp hcell
    rw [hst, if_pos ⟨hgt, hg⟩] at hs'
    rcases hs' with hc | hc <;> cases hc

/-- How many pages from `i` on are free. -/
def freeAhead (b : Buddy) (i : Nat) : Nat :=
  ((Finset.Ico i b.memNrPages).filter fun x => b.state x = .buddy).card

theorem freeAhead_skip {b : Buddy} {i : Nat} (hs : b.state i ≠ .buddy) :
    freeAhead b (i + 1) = freeAhead b i := by
  unfold freeAhead
  congr 1
  ext x
  simp only [Finset.mem_filter, Finset.mem_Ico]
  constructor
  · rintro ⟨h, hx⟩
    exact ⟨by omega, hx⟩
  · rintro ⟨h, hx⟩
    have hne : x ≠ i := by
      rintro rfl
      exact hs hx
    exact ⟨by omega, hx⟩

/-- A grouping round accounts for exactly the pages it passes. -/
theorem freeAhead_round {b b' : Buddy} {i k : Nat} (hn : b'.memNrPages = b.memNrPages)
    (hfit : i + 2 ^ k ≤ b.memNrPages)
    (hfree : ∀ x, i ≤ x → x < i + 2 ^ k → b.state x = .buddy)
    (hsame : ∀ x, i + 2 ^ k ≤ x → b'.state x = b.state x) :
    freeAhead b i = 2 ^ k + freeAhead b' (i + 2 ^ k) := by
  have hpos := Nat.two_pow_pos k
  have hunion : (Finset.Ico i b.memNrPages).filter (fun x => b.state x = .buddy) =
      Finset.Ico i (i + 2 ^ k) ∪
        (Finset.Ico (i + 2 ^ k) b.memNrPages).filter fun x => b'.state x = .buddy := by
    ext x
    simp only [Finset.mem_filter, Finset.mem_Ico, Finset.mem_union]
    by_cases hx : x < i + 2 ^ k
    · constructor
      · exact fun h => .inl ⟨h.1.1, hx⟩
      · rintro (h | h)
        · exact ⟨by omega, hfree x h.1 hx⟩
        · omega
    · rw [hsame x (Nat.le_of_not_lt hx)]
      constructor
      · exact fun h => .inr ⟨by omega, h.2⟩
      · rintro (h | h)
        · omega
        · exact ⟨by omega, h.2⟩
  have hdisj : Disjoint (Finset.Ico i (i + 2 ^ k))
      ((Finset.Ico (i + 2 ^ k) b.memNrPages).filter fun x => b'.state x = .buddy) := by
    rw [Finset.disjoint_left]
    intro x h1 h2
    simp only [Finset.mem_filter, Finset.mem_Ico] at h1 h2
    omega
  unfold freeAhead
  rw [hunion, Finset.card_union_of_disjoint hdisj, Nat.card_Ico, hn]
  omega

/-- **Grouping** with enough fuel ends in a represented state with nothing in
hand, nothing allocated, the same managed frames and the largest blocks; it
accounts for every page that was free. -/
theorem group_spec {managed : Nat → Prop} : ∀ (fuel i : Nat) (b : Buddy) (acc : Nat)
    (L : Nat → List Nat), GroupInv managed b i L → Maximal b i → b.memNrPages ≤ i + fuel →
    ∃ b' L', group fuel i b acc = .ok (b', acc + freeAhead b i) ∧
      b'.memNrPages = b.memNrPages ∧ GroupInv managed b' b.memNrPages L' ∧
      Maximal b' b.memNrPages := by
  intro fuel
  induction fuel with
  | zero =>
      intro i b acc L h hmax hfuel
      have hnone : freeAhead b i = 0 := by
        rw [freeAhead, Finset.Ico_eq_empty (by omega)]
        rfl
      exact ⟨b, L, by rw [hnone]; rfl, rfl, h.finish (by omega),
        fun g k hg => hmax g k (by omega)⟩
  | succ fuel ih =>
      intro i b acc L h hmax hfuel
      rw [group]
      by_cases hi : i < b.memNrPages
      · rw [if_pos hi]
        by_cases hs : (b.memMap i).state ≠ .buddy
        · rw [if_pos hs]
          rw [← freeAhead_skip hs]
          refine ih (i + 1) b acc L ⟨h.tiling, ?_, fun x hx => h.ahead x (by omega), h.free,
            h.managed_iff⟩ (hmax.skip h hi hs) (by omega)
          refine h.lists.off_congr (fun x _ hb => ?_)
          have : x ≠ i := by
            rintro rfl
            exact hs hb
          omega
        · rw [if_neg hs]
          have hs' : b.state i = .buddy := not_not.mp hs
          obtain ⟨b₁, L₁, he, hn, hinv, hst, hord⟩ := group_round h hi hs'
          have hpos := Nat.two_pow_pos (blockOrder b i)
          obtain ⟨-, hfit, hfree, -⟩ := blockOrder_spec hi hs'
          obtain ⟨b₂, L₂, he₂, hn₂, hinv₂, hmax₂⟩ := ih (i + 2 ^ blockOrder b i) b₁
            (acc + 2 ^ blockOrder b i) L₁ hinv (hmax.round h hi hs' hn hinv hst hord) (by omega)
          rw [hn] at hinv₂ hmax₂
          refine ⟨b₂, L₂, ?_, hn₂.trans hn, hinv₂, hmax₂⟩
          rw [freeAhead_round hn hfit hfree fun x hx => by rw [hst, if_neg (by omega)],
            ← Nat.add_assoc]
          simp only [cut] at he
          simp only [he]
          exact he₂
      · rw [if_neg hi]
        have hnone : freeAhead b i = 0 := by
          rw [freeAhead, Finset.Ico_eq_empty (by omega)]
          rfl
        exact ⟨b, L, by rw [hnone]; rfl, rfl, h.finish (Nat.le_of_not_lt hi),
          fun g k hg => hmax g k (by omega)⟩

/-- The state the walk ends in is represented, with nothing in hand. -/
theorem GroupInv.rep {managed : Nat → Prop} {b : Buddy} {L : Nat → List Nat}
    (h : GroupInv managed b b.memNrPages L) (m : Nat) :
    Rep { b with managedMem := m } (fun _ => False) L := by
  refine ⟨h.tiling, (h.lists.off_congr (fun x hx _ => ?_)).congr rfl (fun _ _ _ _ => ⟨rfl, rfl⟩)
    (fun _ => Iff.rfl) (fun _ _ _ => rfl)⟩
  simp only [false_iff]
  omega

/-- **`buddy_init` in one line**: the grouping always goes through; the panic
depends on the two page counts only. -/
theorem buddyInit_grouped (table : List Arch.E820Entry) (poolEnd n : Nat) :
    let marks := markEntries table poolEnd (memInit n)
    ∃ b L, buddyInit table poolEnd (memInit n) =
        (if marks.2 ≠ freeAhead marks.1 0 then .error groupingPanic
        else .ok { b with managedMem := freeAhead marks.1 0 * pageSize }) ∧
      b.memNrPages = n ∧ GroupInv (fun x => marks.1.state x = .buddy) b b.memNrPages L ∧
      Maximal b b.memNrPages := by
  intro marks
  obtain ⟨hm, hn⟩ := foldl_markEntry_marked (kernelPhys / pageSize)
    (divUp poolEnd pageSize) table (memInit n, 0) (marked_memInit n)
  have hn' : marks.1.memNrPages = n := hn
  obtain ⟨b, L, he, hn₁, hinv, hmax⟩ := group_spec marks.1.memNrPages 0 marks.1 0 _
    (Marked.groupInv hm) (fun g k hg => absurd hg (Nat.not_lt_zero g)) (by omega)
  rw [← hn₁] at hinv hmax
  refine ⟨b, L, ?_, hn₁.trans hn', hinv, hmax⟩
  rw [Nat.zero_add] at he
  rw [buddyInit]
  simp only [marks] at he
  simp only [he, marks]

/-- **What `buddy_init` leaves**: if it does not panic, a represented state
with nothing allocated whose blocks cover exactly the marked frames. -/
theorem buddyInit_rep {table : List Arch.E820Entry} {poolEnd n : Nat} {b : Buddy}
    (h : buddyInit table poolEnd (memInit n) = .ok b) :
    ∃ L, Rep b (fun _ => False) L ∧ b.memNrPages = n ∧
      (∀ x, x < n → b.state x ≠ .allocated) ∧
      ∀ x, b.cell x ≠ .vacant ↔
        x < n ∧ (markEntries table poolEnd (memInit n)).1.state x = .buddy := by
  obtain ⟨b', L, he, hn, hinv, -⟩ := buddyInit_grouped table poolEnd n
  rw [he] at h
  split at h
  · cases h
  · cases h
    refine ⟨L, hinv.rep _, hn, fun x hx => hinv.free x (hn ▸ hx), fun x => ?_⟩
    have hx := hinv.managed_iff x
    rw [hn] at hx
    exact hx

end DevOS.Mm
