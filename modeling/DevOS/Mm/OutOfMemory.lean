import DevOS.Arch.VmmAgree
import DevOS.Mm.ReadyVmm
import DevOS.Sched.Sched

/-!
# Page tables — out of memory

`alloc_pages` answers `NULL` when there is no free block, but `__alloc_table`
passes it through `page_to_hhdm`, which computes an address from it that is not
canonical. The model of `vmm.c` with an empty table source says where a table is
needed; there the code faults.
-/

namespace DevOS.Mm

open DevOS.Lib DevOS.Arch

namespace Ready

variable (D : PageDiff)

/-- `create_task(priority)`. -/
def createTask (kernPml4 : Nat) (st : Sched.State) (s : Vmm Buddy) (priority : UInt32) :
    Except String (Option Sched.Slot × Sched.State × Vmm Buddy) :=
  match Sched.getFreeSlot st with
  | none => .ok (none, st, s)
  | some _ => do
      let (pml4, s) ← vmmCreateUserPml4 D kernPml4 s
      let (task, st) := Sched.createTask st priority (pml4.getD 0)
      return (task, st, s)

end Ready

/-! ## No free block -/

/-- Every free list is empty. -/
def Buddy.Exhausted (b : Buddy) : Prop := ∀ k, k ≤ pageMaxOrder → b.freeMatrix k = none

theorem popFirst_exhausted {b : Buddy} (h : b.Exhausted) (fuel : Nat) :
    ∀ i, i + fuel ≤ pageMaxOrder + 1 → popFirst fuel i b = .ok (none, b) := by
  induction fuel with
  | zero => exact fun _ _ => rfl
  | succ fuel ih =>
      intro i hi
      have hpop : popFree b i = .ok (none, b) := by
        rw [popFree, if_neg (by omega)]
        simp only [h i (by omega)]
      rw [popFirst, hpop]
      exact ih (i + 1) (by omega)

theorem allocPages_exhausted {b : Buddy} (h : b.Exhausted) : allocPages b 0 = .ok (none, b) := by
  rw [allocPages, if_neg (by decide), popFirst_exhausted h _ 0 (by decide)]

/-- No table to be had: where the model of `vmm.c` asks for one, `denied`. -/
def noTables (σ : Type) : TableSource σ where
  alloc s := (none, s)
  avail _ _ := False
  alloc_avail := nofun
  avail_of_alloc := nofun
  avail_page := nofun

/-- The pointer computed from `NULL`. -/
theorem allocTable_exhausted (D : PageDiff) {s : Vmm Buddy} (h : s.source.Exhausted) :
    Ready.allocTable D s = .ok (pageToHhdm (D.pfn 0), s) := by
  rw [Ready.allocTable, allocPages_exhausted h]
  rfl

/-- An allocator without a free block is a source without tables. -/
theorem noTables_backed (D : PageDiff) : Backed D (noTables Buddy) id Buddy.Exhausted :=
  ⟨fun _ h _ => allocPages_exhausted h, nofun⟩

theorem vmmCreateUserPml4_faults (D : PageDiff) (kernPml4 : Nat) {s : Vmm Buddy}
    (h : s.source.Exhausted) : Ready.vmmCreateUserPml4 D kernPml4 s = .error exceptionPanic := by
  have halloc := allocTable_exhausted D h
  have hne := D.null_ne_zero
  have hset : Ready.memsetTable s (pageToHhdm (D.pfn 0)) = .error exceptionPanic :=
    if_neg D.null_not_canonical
  generalize pageToHhdm (D.pfn 0) = table at halloc hne hset
  rw [Ready.vmmCreateUserPml4, halloc, ok_bind]
  dsimp only
  rw [if_neg hne, hset]
  rfl

/-- **Out of memory is not reported**: with every free list empty,
`__alloc_table` returns an address that is neither `NULL` nor canonical, and
`vmm_create_user_pml4`, `create_task` and every `vmm_map` that needs a table end
in the panic of a general protection fault. -/
theorem outOfMemory_faults (D : PageDiff) (kernPml4 : Nat) (s : Vmm Buddy)
    (hnone : s.source.Exhausted) :
    (∃ table, Ready.allocTable D s = .ok (table, s) ∧ table ≠ 0 ∧ ¬ Canonical table) ∧
    Ready.vmmCreateUserPml4 D kernPml4 s = .error exceptionPanic ∧
    (∀ st priority, Sched.getFreeSlot st ≠ none →
      Ready.createTask D kernPml4 st s priority = .error exceptionPanic) ∧
    ∀ (pml4 virt phys size : Nat) (flags : Word),
      (Arch.vmmMap (noTables Buddy) kernPml4 s.watch pml4 virt phys size flags).2.denied = true →
      Ready.vmmMap D kernPml4 s.watch pml4 virt phys size flags = .error exceptionPanic := by
  refine ⟨⟨pageToHhdm (D.pfn 0), allocTable_exhausted D hnone, D.null_ne_zero,
    D.null_not_canonical⟩, vmmCreateUserPml4_faults D kernPml4 hnone,
    fun st priority hslot => ?_, fun pml4 virt phys size flags hneeded => ?_⟩
  · cases hfree : Sched.getFreeSlot st with
    | none => exact absurd hfree hslot
    | some i =>
        rw [Ready.createTask, hfree]
        dsimp only
        rw [vmmCreateUserPml4_faults D kernPml4 hnone]
        rfl
  · exact (vmmMap_follows (noTables_backed D) (s := s.watch) ⟨hnone, rfl⟩ kernPml4 pml4 virt phys
      size flags).fault hneeded

/-- Division of the byte difference. -/
def dividing : PageDiff := ⟨_, fun _ => .inl rfl⟩

/-- `VMM_READY` with empty tables and no free block. -/
def emptyReady : Vmm Buddy := ⟨.ready, fun _ _ => 0, memInit 0, false, false⟩

theorem outOfMemory_faults_empty :
    (∃ table, Ready.allocTable dividing emptyReady = .ok (table, emptyReady) ∧ table ≠ 0 ∧
      ¬ Canonical table) ∧
    Ready.vmmCreateUserPml4 dividing 0x1000 emptyReady = .error exceptionPanic ∧
    (∀ st priority, Sched.getFreeSlot st ≠ none →
      Ready.createTask dividing 0x1000 st emptyReady priority = .error exceptionPanic) ∧
    ∀ (pml4 virt phys size : Nat) (flags : Word),
      (Arch.vmmMap (noTables Buddy) 0x1000 emptyReady.watch pml4 virt phys size
        flags).2.denied = true →
      Ready.vmmMap dividing 0x1000 emptyReady.watch pml4 virt phys size flags =
        .error exceptionPanic :=
  outOfMemory_faults dividing 0x1000 emptyReady fun _ _ => rfl

/-- One page at 0 in the empty tree: a table is needed, and no `NULL`. -/
theorem outOfMemory_unreported :
    (Arch.vmmMap (noTables Buddy) 0x1000 emptyReady.watch 0x1000 0 0 0x1000
      ptPresent).2.denied = true ∧
    ¬ ((∃ s, Ready.allocTable dividing emptyReady = .ok (0, s)) ∧
      (∃ s, Ready.vmmCreateUserPml4 dividing 0x1000 emptyReady = .ok (none, s)) ∧
      (∃ st s, Ready.createTask dividing 0x1000 (Sched.boot 0) emptyReady 1 = .ok (none, st, s)) ∧
      ∃ s, Ready.vmmMap dividing 0x1000 emptyReady.watch 0x1000 0 0 0x1000 ptPresent =
        .ok (0x1000, s)) := by
  refine ⟨by decide +kernel, ?_⟩
  rintro ⟨⟨s, hs⟩, -⟩
  rw [allocTable_exhausted dividing fun _ _ => rfl] at hs
  obtain ⟨hzero, -⟩ := Prod.mk.inj (Except.ok.inj hs)
  exact dividing.null_ne_zero hzero

end DevOS.Mm
