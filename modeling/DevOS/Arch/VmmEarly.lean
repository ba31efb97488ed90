import DevOS.Arch.BootmemFrames
import DevOS.Arch.VmmBoot
import DevOS.Arch.VmmTouch

/-!
# Page tables — the first tables

While the VMM is in `VMM_IDENTITY`, `__alloc_table` is
`bootmem_alloc_page_phys` and the table is cleared and filled through the
identity map, which ends at `low_map_end`. `bootmem_init` compares only the
start of the pool with that end, so whether a table is in reach depends on how
many whole pages of RAM lie between the two.
-/

namespace DevOS.Arch

variable {kernel : KernelImage} {table : List E820Entry} {b : Bootmem}

/-- **A table is the lowest frame that is left**, or `NULL` if none is. -/
theorem bootTable_frames (hram : RamBelow table)
    (hsorted : table.Pairwise fun e f => e.stop ≤ f.addr) (mode : VmmMode)
    (b : LiveBootmem kernel table) :
    framesFrom b.val.poolEnd table = [] ∧ bootTable hram mode b = (none, b) ∨
    ∃ f, framesFrom b.val.poolEnd table =
        f :: framesFrom (bootTable hram mode b).2.val.poolEnd table ∧
      (bootTable hram mode b).1 = some (physToVirt mode (f * pageSize)) := by
  rcases PoolInv.page_eq b.property hsorted hram with
    ⟨hnil, hcall⟩ | ⟨f, rest, b', hleft, hpos, hcall, hrest⟩
  · obtain ⟨hptr, hnext⟩ := bootTable_eq hram mode hcall
    rw [if_pos rfl] at hptr
    exact .inl ⟨hnil, Prod.ext hptr (Subtype.ext hnext)⟩
  · obtain ⟨hptr, hnext⟩ := bootTable_eq hram mode hcall
    rw [if_neg (Nat.mul_ne_zero hpos.ne' (by decide))] at hptr
    rw [← hnext] at hrest
    exact .inr ⟨f, hrest ▸ hleft, hptr⟩

/-- `n` calls of `__alloc_table()` in `VMM_IDENTITY`: the tables they return,
`NULL` left out. -/
def earlyTables (table : List E820Entry) : Nat → Bootmem → Except String (List Nat × Bootmem)
  | 0, b => .ok ([], b)
  | n + 1, b =>
      match bootmemAllocPagePhys table b with
      | .error e => .error e
      | .ok (phys, b) =>
          match earlyTables table n b with
          | .error e => .error e
          | .ok (tables, b) => .ok (if phys = 0 then tables else phys :: tables, b)

/-- The calls walk down the list of the frames that are left. -/
theorem earlyTables_eq (hram : RamBelow table)
    (hsorted : table.Pairwise fun e f => e.stop ≤ f.addr) (n : Nat) : ∀ {b : Bootmem},
    PoolInv kernel table ⟨b, []⟩ →
    ∃ b', earlyTables table n b =
      .ok (((framesFrom b.poolEnd table).take n).map (· * pageSize), b') := by
  induction n with
  | zero =>
      intro b _
      exact ⟨b, rfl⟩
  | succ n ih =>
      intro b h
      rcases h.page_eq hsorted hram with ⟨hnil, hcall⟩ | ⟨f, rest, b', hleft, hpos, hcall, hrest⟩
      · obtain ⟨b'', hmore⟩ := ih h
        have hnil : framesFrom b.poolEnd table = [] := hnil
        rw [hnil, List.take_nil] at hmore ⊢
        refine ⟨b'', ?_⟩
        rw [earlyTables, hcall]
        dsimp only
        rw [hmore]
        rfl
      · obtain ⟨b'', hmore⟩ := ih (h.afterPage hram hcall).1
        rw [hrest] at hmore
        have hleft : framesFrom b.poolEnd table = f :: rest := hleft
        refine ⟨b'', ?_⟩
        rw [earlyTables, hcall, hleft]
        dsimp only
        rw [hmore, List.take_succ_cons, List.map_cons]
        have hne : f * pageSize ≠ 0 := Nat.mul_ne_zero (Nat.pos_iff_ne_zero.mp hpos) (by decide)
        dsimp only
        rw [if_neg hne]

/-- Every state of bootmem that `vmm_map_hhdm` can leave behind is one after
some number of these calls. -/
theorem vmmMapHhdm_earlyTables (K : KernelTables) (hspan : ∀ e ∈ table, e.stop ≤ hhdmSpan)
    (live : LiveBootmem kernel table) :
    ∃ n tables, earlyTables table n live.val = .ok (tables,
      (vmmMapHhdm (bootmemSource kernel hspan .identity) K (vmmInit K live)
        table).2.source.val) := by
  have hdrawn : Drawn (bootmemSource kernel hspan .identity) live
      (vmmMapHhdm (bootmemSource kernel hspan .identity) K (vmmInit K live) table).2.source := by
    refine vmmMapHhdm_keeps
      (M := fun s => Drawn (bootmemSource kernel hspan .identity) live s.source)
      (fun flags large s v x h => h.trans (setUnit_drawn s K.kernPml4 v x flags large))
      (fun s h => h) table ?_
    rw [vmmInit_source]
    exact .refl
  generalize (vmmMapHhdm (bootmemSource kernel hspan .identity) K (vmmInit K live) table).2.source =
    last at hdrawn
  induction hdrawn using Relation.ReflTransGen.head_induction_on with
  | refl => exact ⟨0, [], rfl⟩
  | @head first next hfirst _ ih =>
      obtain ⟨n, tables, hrest⟩ := ih
      have hram := ramBelow_of_span hspan
      have hnext : next = (bootTable hram .identity first).2 := hfirst
      refine ⟨n + 1, ?_⟩
      rw [earlyTables]
      have hpage : ∃ phys b, bootmemAllocPagePhys table first.val = .ok (phys, b) := by
        rcases first.property.allocPagePhys hram with hpage | ⟨phys, b, hpage, -⟩
        · exact ⟨0, first.val, hpage⟩
        · exact ⟨phys, b, hpage⟩
      obtain ⟨phys, b, hpage⟩ := hpage
      rw [hnext, (bootTable_eq hram .identity hpage).2] at hrest
      simp only [hpage, hrest]
      exact ⟨_, rfl⟩

/-- The first `n` elements of an ascending list lie below a limit when that
many do, or all do. -/
theorem take_below_iff {P : Nat → Prop} [DecidablePred P] (hdown : ∀ x y, x < y → P y → P x)
    (frames : List Nat) : ∀ n, frames.Pairwise (· < ·) →
    ((∀ x ∈ frames.take n, P x) ↔
      n ≤ (frames.filter fun x => decide (P x)).length ∨ ∀ x ∈ frames, P x) := by
  induction frames with
  | nil => intro n _; simp
  | cons f rest ih =>
      intro n hsorted
      obtain ⟨hfirst, hrest⟩ := List.pairwise_cons.mp hsorted
      cases n with
      | zero => simp
      | succ n =>
          by_cases hf : P f
          · simp only [List.take_succ_cons, List.forall_mem_cons, hf, true_and, ih n hrest,
              decide_true, List.filter_cons_of_pos, List.length_cons, Nat.succ_le_succ_iff]
          · -- nothing above `f` is below the limit either
            have hnone : rest.filter (fun x => decide (P x)) = [] := by
              rw [List.filter_eq_nil_iff]
              intro x hx hpx
              exact hf (hdown f x (hfirst x hx) (of_decide_eq_true hpx))
            simp [hf, hnone]

/-- The frames of RAM from `lo` on that lie wholly below the end of the
identity map. -/
def lowFrames (table : List E820Entry) (lo : Nat) : Set Nat :=
  {f | f ∈ ramFrames table lo ∧ f * pageSize + pageSize ≤ lowMapEnd}

theorem lowFrames_ncard (lo : Nat) (hsorted : table.Pairwise fun e f => e.stop ≤ f.addr) :
    (lowFrames table lo).ncard =
      ((framesFrom lo table).filter fun f =>
        decide (f * pageSize + pageSize ≤ lowMapEnd)).length := by
  have hset : lowFrames table lo = (((framesFrom lo table).filter fun f =>
      decide (f * pageSize + pageSize ≤ lowMapEnd)).toFinset : Set Nat) := by
    ext f
    simp [lowFrames, mem_framesFrom]
  have hnodup := ((framesFrom_sorted lo hsorted).filter fun f =>
    decide (f * pageSize + pageSize ≤ lowMapEnd)).imp Nat.ne_of_lt
  rw [hset, Set.ncard_coe_finset, List.toFinset_card_of_nodup hnodup]

theorem bootmemInit_poolEnd (h : bootmemInit kernel table .boot = .ok (0, b)) :
    b.poolEnd = b.poolStart := by
  simp only [bootmemInit, Bootmem.boot, ne_eq, not_true_eq_false, if_false] at h
  cases hfind : findPool kernel 0 table with
  | none => simp [hfind] at h
  | some res =>
      simp only [hfind] at h
      split at h
      · cases h
      · split at h
        · cases h
        · cases h
          rfl

/-- **Which early tables are in reach.** After a successful `bootmem_init`, the
tables that `n` calls of `__alloc_table` return in `VMM_IDENTITY` all lie below
`low_map_end` exactly when there are `n` whole pages of RAM between the start
of the pool and `low_map_end`, or no whole page of RAM reaches beyond it. -/
theorem earlyTables_below_iff (kernel : KernelImage) (table : List E820Entry)
    (hram : RamBelow table) (hsorted : table.Pairwise fun e f => e.stop ≤ f.addr) (b : Bootmem)
    (hinit : bootmemInit kernel table .boot = .ok (0, b)) (n : Nat) :
    ∃ tables b', earlyTables table n b = .ok (tables, b') ∧
      ((∀ t ∈ tables, t + pageSize ≤ lowMapEnd) ↔
        n ≤ (lowFrames table b.poolStart).ncard ∨
          ∀ f ∈ ramFrames table b.poolStart, f * pageSize + pageSize ≤ lowMapEnd) := by
  obtain ⟨b', hcalls⟩ := earlyTables_eq hram hsorted n (PoolInv.init hram hinit)
  rw [bootmemInit_poolEnd hinit] at hcalls
  refine ⟨_, b', hcalls, ?_⟩
  have hdown : ∀ x y, x < y → y * pageSize + pageSize ≤ lowMapEnd →
      x * pageSize + pageSize ≤ lowMapEnd := by
    intro x y hxy hy
    exact (Nat.add_le_add_right (Nat.mul_le_mul_right _ hxy.le) _).trans hy
  rw [lowFrames_ncard _ hsorted, List.forall_mem_map,
    take_below_iff hdown _ n (framesFrom_sorted _ hsorted)]
  simp only [mem_framesFrom]

/-- RAM from 2 MiB on, with a hole in it. -/
theorem earlyTables_below_iff_hole :
    ∃ tables b', earlyTables holeTable 3 ⟨0x230000, 0x230000, 0, 0, .enabled⟩ =
        .ok (tables, b') ∧
      ((∀ t ∈ tables, t + pageSize ≤ lowMapEnd) ↔
        3 ≤ (lowFrames holeTable 0x230000).ncard ∨
          ∀ f ∈ ramFrames holeTable 0x230000, f * pageSize + pageSize ≤ lowMapEnd) :=
  earlyTables_below_iff ⟨0x30000, by decide⟩ holeTable
    (by simp [RamBelow, holeTable, E820Entry.stop]) (by simp [holeTable, E820Entry.stop]) _
    (by rfl) 3

/-- The kernel image fills the low RAM entry, and the next one starts at 1 GiB:
the pool starts at `low_map_end`, and so does the first table. -/
def splitTable : List E820Entry :=
  [⟨0x200000, 0x20000, e820TypeRam⟩, ⟨0x40000000, 0x40000000, e820TypeRam⟩]

theorem earlyTables_beyond_split :
    ¬ ∀ (kernel : KernelImage) (table : List E820Entry), RamBelow table →
      (table.Pairwise fun e f => e.stop ≤ f.addr) → ∀ b : Bootmem,
      bootmemInit kernel table .boot = .ok (0, b) → ∀ n tables b',
      earlyTables table n b = .ok (tables, b') → ∀ t ∈ tables, t + pageSize ≤ lowMapEnd := by
  intro hall
  have hbelow := hall ⟨0x20000, by decide⟩ splitTable
    (by simp [RamBelow, splitTable, E820Entry.stop]) (by simp [splitTable, E820Entry.stop])
    ⟨0x40000000, 0x40000000, 1, 0, .enabled⟩ (by rfl) 1 [0x40000000]
    ⟨0x40000000, 0x40001000, 1, 0x1000, .enabled⟩ (by rfl) 0x40000000 List.mem_cons_self
  exact absurd hbelow (by decide)

end DevOS.Arch
