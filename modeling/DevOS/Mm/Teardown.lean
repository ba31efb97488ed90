import DevOS.Arch.VmmLeaves
import DevOS.Mm.BuddyInitExact
import DevOS.Mm.BuddyPool
import DevOS.Mm.OutOfMemory
import DevOS.Mm.TeardownPages

/-!
# Address spaces — giving everything back

Runs of `alloc_pages`, `free_pages`, `vmm_create_user_pml4`, `vmm_map` of whole
blocks and `vmm_destroy_user_pml4`, over the allocator's own state. As long as
no `free_pages` has merged left, the teardown of an address space frees its
blocks, its tables and its PML4 and nothing else. The teardown itself may merge
left: that leaves the block map as it should be, and only the lists are wrong
afterwards.
-/

namespace DevOS.Mm

open DevOS.Lib DevOS.Arch

/-! ## The block map -/

variable {b₀ b : Buddy}

/-- The frame is in an allocation. -/
def Buddy.InAllocation (b : Buddy) (f : Nat) : Prop :=
  ∃ p k, b.allocation p = some k ∧ InBlock p k f

/-- Two allocations with a frame in common are one. -/
theorem BlockMap.allocation_inj (h : BlockMap b₀ b) {p q j k f : Nat}
    (hp : b.allocation p = some j) (hq : b.allocation q = some k) (hpf : InBlock p j f)
    (hqf : InBlock q k f) : p = q :=
  h.tiling.disjoint (cell_of_allocation hp) (cell_of_allocation hq) hpf.1 hpf.2 hqf.1 hqf.2

theorem BlockMap.managed_iff (h : BlockMap b₀ b) {f : Nat} :
    b₀.Managed f ↔ b.cell f ≠ .vacant := by
  rw [ne_eq, cell_eq_vacant, Classical.not_imp, h.nr, h.reserved]
  rfl

theorem BlockMap.managed (h : BlockMap b₀ b) {p k f : Nat} (hp : b.allocation p = some k)
    (hf : InBlock p k f) : b₀.Managed f :=
  h.managed_iff.mpr (h.tiling.occupied (cell_of_allocation hp) hf.1 hf.2)

/-- **A managed frame is free or in an allocation.** -/
theorem BlockMap.free_iff (h : BlockMap b₀ b) {f : Nat} :
    b.FreeFrame f ↔ b₀.Managed f ∧ ¬ b.InAllocation f := by
  constructor
  · rintro ⟨p, k, hp, hfree, hle, hlt⟩
    refine ⟨h.managed_iff.mpr (h.tiling.occupied hp hle hlt), ?_⟩
    rintro ⟨q, j, hq, hin⟩
    obtain rfl := h.tiling.disjoint hp (cell_of_allocation hq) hle hlt hin.1 hin.2
    rw [(allocation_eq_some.mp hq).2.1] at hfree
    cases hfree
  · rintro ⟨hm, hout⟩
    obtain ⟨p, k, hp, hle, hlt⟩ : ∃ p k, b.cell p = .head k ∧ p ≤ f ∧ f < p + 2 ^ k := by
      have hocc := h.managed_iff.mp hm
      cases hc : b.cell f with
      | vacant => exact absurd hc hocc
      | head k => exact ⟨f, k, hc, Nat.le_refl f, Nat.lt_add_of_pos_right (Nat.two_pow_pos k)⟩
      | tail =>
          obtain ⟨p, k, hp, hlt, hin⟩ := h.tiling.covered hc
          exact ⟨p, k, hp, Nat.le_of_lt hlt, hin⟩
    obtain ⟨hnr, hfree | hal, hk⟩ := cell_eq_head.mp hp
    · exact ⟨p, k, hp, hfree, hle, hlt⟩
    · exact absurd ⟨p, k, allocation_eq_some.mpr ⟨hnr, hal, hk⟩, hle, hlt⟩ hout

/-! ## Freeing one page after the other -/

/-- The pages are freed in turn. -/
def poolFreeAll (b : { b // BlockMap b₀ b }) (pages : List Nat) : { b // BlockMap b₀ b } :=
  pages.foldl poolFree b

/-- The allocations at these pages have ended, and no other. -/
theorem poolFreeAll_allocation (pages : List Nat) : ∀ (b : { b // BlockMap b₀ b }) (p : Nat),
    (poolFreeAll b pages).val.allocation p = if p ∈ pages then none else b.val.allocation p := by
  induction pages with
  | nil => exact fun _ _ => rfl
  | cons q pages ih =>
      intro b p
      rw [poolFreeAll, List.foldl_cons, ← poolFreeAll, ih, poolFree_allocation]
      by_cases hmem : p ∈ pages
      · rw [if_pos hmem, if_pos (List.mem_cons_of_mem q hmem)]
      · rw [if_neg hmem]
        by_cases hpq : p = q
        · rw [hpq, Function.update_self, if_pos List.mem_cons_self]
        · rw [Function.update_of_ne hpq, if_neg fun h => (List.mem_cons.mp h).elim hpq hmem]

/-- **What the frees give back**: the frames of the allocations that started at
one of the pages. They were not free, they are free afterwards, and no other
frame changes hands. -/
theorem poolFreeAll_returned (b : { b // BlockMap b₀ b }) (pages : List Nat) (F : Nat → Prop)
    (hF : ∀ f, F f ↔ ∃ q ∈ pages, ∃ k, b.val.allocation q = some k ∧ InBlock q k f) :
    (∀ f, F f → ¬ b.val.FreeFrame f) ∧
    (∀ f, (poolFreeAll b pages).val.FreeFrame f ↔ b.val.FreeFrame f ∨ F f) ∧
    ∀ p k, (poolFreeAll b pages).val.allocation p = some k ↔
      b.val.allocation p = some k ∧ ¬ F p := by
  have hended : ∀ p k, (poolFreeAll b pages).val.allocation p = some k ↔
      b.val.allocation p = some k ∧ p ∉ pages := by
    intro p k
    rw [poolFreeAll_allocation]
    by_cases hp : p ∈ pages
    · simp [hp]
    · simp [hp]
  -- a frame of what is freed lies in no other allocation
  have hapart : ∀ p k f, b.val.allocation p = some k → InBlock p k f → (F f ↔ p ∈ pages) := by
    intro p k f hp hin
    rw [hF]
    constructor
    · rintro ⟨q, hq, j, hj, hqf⟩
      exact b.property.allocation_inj hj hp hqf hin ▸ hq
    · intro hq
      exact ⟨p, hq, k, hp, hin⟩
  have hallocated : ∀ f, F f → b.val.InAllocation f := by
    intro f hf
    obtain ⟨q, -, k, hk, hin⟩ := (hF f).mp hf
    exact ⟨q, k, hk, hin⟩
  refine ⟨fun f hf hfree => (b.property.free_iff.mp hfree).2 (hallocated f hf), fun f => ?_,
    fun p k => ?_⟩
  · rw [(poolFreeAll b pages).property.free_iff, b.property.free_iff]
    constructor
    · rintro ⟨hmanaged, hout⟩
      by_cases hin : b.val.InAllocation f
      · obtain ⟨p, k, hp, hpf⟩ := hin
        refine .inr ((hapart p k f hp hpf).mpr ?_)
        by_contra hq
        exact hout ⟨p, k, (hended p k).mpr ⟨hp, hq⟩, hpf⟩
      · exact .inl ⟨hmanaged, hin⟩
    · rintro (⟨hmanaged, hout⟩ | hf)
      · refine ⟨hmanaged, ?_⟩
        rintro ⟨p, k, hp, hpf⟩
        exact hout ⟨p, k, ((hended p k).mp hp).1, hpf⟩
      · obtain ⟨p, k, hp, hpf⟩ := hallocated f hf
        refine ⟨b.property.managed hp hpf, ?_⟩
        rintro ⟨q, j, hq, hqf⟩
        obtain ⟨hq, hnot⟩ := (hended q j).mp hq
        exact hnot ((hapart q j f hq hqf).mp hf)
  · rw [hended]
    refine and_congr_right fun hp => not_congr ?_
    exact (hapart p k p hp (inBlock_self p k)).symm

/-- **The run does not fail**, left merges or not. -/
theorem runFrom_freePage (pages : List Nat) : ∀ (s : Vmm { b // BlockMap b₀ b }),
    (∀ p ∈ pages, p < b₀.memNrPages) →
    runFrom Ready.freePage (rawVmm Subtype.val s) pages =
      .ok (rawVmm Subtype.val { s with source := poolFreeAll s.source pages }) := by
  induction pages with
  | nil => exact fun _ _ => rfl
  | cons q pages ih =>
      intro s hpages
      have hq : q < s.source.val.memNrPages := by
        rw [s.source.property.nr]
        exact hpages q List.mem_cons_self
      have hfree : Ready.freePage (rawVmm Subtype.val s) q =
          .ok (rawVmm Subtype.val { s with source := poolFree s.source q }) := by
        show (freePages s.source.val q >>= _) = _
        rw [poolFree_eq s.source hq]
        rfl
      rw [runFrom, hfree]
      exact ih { s with source := poolFree s.source q } fun p hp =>
        hpages p (List.mem_cons_of_mem q hp)

/-- No call of the run merges left. -/
structure NoLeftMerge (b : Buddy) (pages : List Nat) : Prop where
  guarded : Guarded freePages (fun b p => ¬ (Op.free p).MergesLeft b) b pages

instance (b : Buddy) (pages : List Nat) : Decidable (NoLeftMerge b pages) :=
  decidable_of_iff _ ⟨NoLeftMerge.mk, NoLeftMerge.guarded⟩

/-- Every free list is exactly the free blocks of its order. -/
def Buddy.ListsExact (b : Buddy) : Prop := ∃ L, Rep b (fun _ => False) L

theorem poolFreeAll_lists (pages : List Nat) : ∀ (b : { b // BlockMap b₀ b }),
    (∀ p ∈ pages, p < b₀.memNrPages) → NoLeftMerge b.val pages → b.val.ListsExact →
    (poolFreeAll b pages).val.ListsExact := by
  induction pages with
  | nil => exact fun _ _ _ h => h
  | cons q pages ih =>
      intro b hpages hno h
      have hq : q < b.val.memNrPages := by
        rw [b.property.nr]
        exact hpages q List.mem_cons_self
      have hfree := poolFree_eq b hq
      obtain ⟨hfirst, hrest⟩ := hno.guarded
      simp only [hfree] at hrest
      have hin : (Op.free q).InMap b.val := hq
      exact ih (poolFree b q) (fun p hp => hpages p (List.mem_cons_of_mem q hp)) ⟨hrest⟩
        (Op.exec_rep h hin hfirst hfree)

/-! ## The allocator behind `__alloc_table` -/

/-- Where the lists are exact the pool hands out what `alloc_pages` does. -/
theorem buddyPool_backed (D : PageDiff) (hreach : b₀.memNrPages * pageSize ≤ hhdmLimit) :
    Backed D (buddyPool b₀ hreach).tables Subtype.val fun b => b.val.ListsExact := by
  have hpages : ∀ a : { b // BlockMap b₀ b }, a.val.ListsExact →
      allocPages a.val 0 = .ok ((poolAlloc a 0).1, (poolAlloc a 0).2.val) := by
    rintro a ⟨L, hL⟩
    exact poolAlloc_eq a hL (Nat.zero_le _)
  refine ⟨fun a ha hnone => ?_, fun a ptr ha hsome => ?_⟩
  · have hnone' : (poolAlloc a 0).1 = none := Option.map_eq_none_iff.mp hnone
    have hcall := hpages a ha
    rwa [hnone'] at hcall
  · obtain ⟨p, hp, rfl⟩ := Option.map_eq_some_iff.mp hsome
    have hp' : (poolAlloc a 0).1 = some p := hp
    have hcall := hpages a ha
    rw [hp'] at hcall
    have hmanaged : b₀.Managed p :=
      ((buddyPool b₀ hreach).alloc_some a 0 p _ (Prod.ext hp rfl)).2 p (inBlock_self p 0) |>.1
    have hlt := (buddyPool b₀ hreach).managed_lt p hmanaged
    have hl : hhdmLimit = 0x777F80000000 := rfl
    have hb : hhdmBase = 0xFFFF888000000000 := rfl
    have hptr : pageToHhdm p = p * pageSize + hhdmBase := Nat.mod_eq_of_lt (by omega)
    have hin : (Op.alloc 0).InMap a.val := trivial
    have hexec : (Op.alloc 0).exec a.val = .ok (poolAlloc a 0).2.val := by
      rw [Op.exec, hcall]
    refine ⟨Op.exec_rep ha hin id hexec, by omega, ?_, p, hcall, D.page hlt⟩
    unfold Canonical
    omega

/-! ## Clients -/

/-- An address space and the blocks that were mapped into it, each by its first
frame and its order. -/
structure Filled where
  pml4 : Nat
  blocks : List (Nat × Nat)
deriving DecidableEq

/-- The block is mapped into the address space with this PML4. -/
def Filled.add (pml4 : Nat) (block : Nat × Nat) (u : Filled) : Filled :=
  if u.pml4 = pml4 then { u with blocks := block :: u.blocks } else u

@[simp] theorem Filled.add_pml4 (pml4 : Nat) (block : Nat × Nat) (u : Filled) :
    (u.add pml4 block).pml4 = u.pml4 := by
  unfold Filled.add
  split <;> rfl

/-- The VMM and CR3, the blocks that were obtained from `alloc_pages` and not
given back, and the address spaces. -/
structure Client (τ : Type) where
  vmm : Vmm τ
  cr3 : Nat
  held : List (Nat × Nat)
  spaces : List Filled

/-- The calls a run is made of. `freePages` frees the first page of a block and
`mapUser` maps a whole block. -/
inductive ClientOp where
  | allocPages (order : Nat)
  | freePages (block : Nat × Nat)
  | createUser
  | mapUser (pml4 virt : Nat) (block : Nat × Nat) (flags : Word)
  | destroyUser (pml4 : Nat)

/-- The blocks that were mapped under a PML4. -/
def Client.blocksOf {τ : Type} (c : Client τ) (pml4 : Nat) : List (Nat × Nat) :=
  (c.spaces.filter fun u => u.pml4 = pml4).flatMap Filled.blocks

/-- A run goes on where `vmm_map` returns 0. -/
def notMapped : String := "not mapped"

/-- One call. -/
def clientStep (D : PageDiff) (kernPml4 : Nat) (c : Client Buddy) :
    ClientOp → Except String (Client Buddy)
  | .allocPages order =>
      match allocPages c.vmm.source order with
      | .error e => .error e
      | .ok (none, b) => .ok { c with vmm := { c.vmm with source := b } }
      | .ok (some p, b) =>
          .ok { c with vmm := { c.vmm with source := b }, held := (p, order) :: c.held }
  | .freePages block =>
      match Ready.freePage c.vmm block.1 with
      | .error e => .error e
      | .ok s => .ok { c with vmm := s, held := c.held.filter fun b => b ≠ block }
  | .createUser =>
      match Ready.vmmCreateUserPml4 D kernPml4 c.vmm with
      | .error e => .error e
      | .ok (none, _) => .error outOfPages
      | .ok (some pml4, s) => .ok { c with vmm := s, spaces := ⟨pml4, []⟩ :: c.spaces }
  | .mapUser pml4 virt block flags =>
      match Ready.vmmMap D kernPml4 c.vmm pml4 virt (block.1 * pageSize) (2 ^ block.2 * pageSize)
        flags with
      | .error e => .error e
      | .ok (failed, s) =>
          if failed = 0 then .ok { c with vmm := s, spaces := c.spaces.map (Filled.add pml4 block) }
          else .error notMapped
  | .destroyUser pml4 =>
      match Ready.vmmDestroyUserPml4 kernPml4 c.vmm c.cr3 pml4 with
      | .error e => .error e
      | .ok (_, cr3, s) =>
          .ok ⟨s, cr3, c.held.filter fun b => b ∉ c.blocksOf pml4,
            c.spaces.filter fun u => u.pml4 ≠ pml4⟩

/-- The calls a client may make: it frees and maps blocks that it holds, maps
them present, into address spaces that live and at low addresses, and destroys
an address space while it holds the blocks in it. -/
def ClientOp.Allowed {τ : Type} (c : Client τ) : ClientOp → Prop
  | .allocPages _ => True
  | .freePages block => block ∈ c.held
  | .createUser => True
  | .mapUser pml4 virt block flags => (∃ u ∈ c.spaces, u.pml4 = pml4) ∧ block ∈ c.held ∧
      virt + 2 ^ block.2 * pageSize ≤ 2 ^ 47 ∧ FlagsOk flags ∧ present flags = true
  | .destroyUser pml4 => ∃ u ∈ c.spaces, u.pml4 = pml4 ∧ ∀ b ∈ u.blocks, b ∈ c.held

instance {τ : Type} (c : Client τ) : ∀ op : ClientOp, Decidable (op.Allowed c)
  | .allocPages _ => .isTrue trivial
  | .freePages _ => inferInstanceAs (Decidable (_ ∈ _))
  | .createUser => .isTrue trivial
  | .mapUser _ _ _ flags =>
      have : Decidable (FlagsOk flags) := inferInstanceAs (Decidable (_ = _))
      inferInstanceAs (Decidable (_ ∧ _))
  | .destroyUser _ => inferInstanceAs (Decidable (∃ u ∈ c.spaces, _))

/-- A `free_pages` of the call merges left. -/
def ClientOp.MergesLeft (c : Client Buddy) : ClientOp → Prop
  | .freePages block => (Op.free block.1).MergesLeft c.vmm.source
  | .destroyUser pml4 => ¬ NoLeftMerge c.vmm.source (pml4Pages c.vmm pml4)
  | _ => False

instance (c : Client Buddy) : ∀ op : ClientOp, Decidable (op.MergesLeft c)
  | .freePages block => inferInstanceAs (Decidable ((Op.free block.1).MergesLeft c.vmm.source))
  | .destroyUser pml4 =>
      inferInstanceAs (Decidable (¬ NoLeftMerge c.vmm.source (pml4Pages c.vmm pml4)))
  | .allocPages _ => .isFalse id
  | .createUser => .isFalse id
  | .mapUser _ _ _ _ => .isFalse id

/-! ## What is mapped -/

/-- The leaves of the low half are on frames of the blocks, and the first frame
of each block has one. -/
structure FilledOk {τ : Type} (s : Vmm τ) (root : Nat) (blocks : List (Nat × Nat)) : Prop where
  leaves : ∀ q e, q.length = 4 → (∀ i, [i] <+: q → Low i) → s.leafAt root q = some e →
    ∃ x, LeafFrom x e ∧ ∃ b ∈ blocks, InBlock b.1 b.2 (x / pageSize)
  firsts : ∀ b ∈ blocks, ∃ q e, q.length = 4 ∧ (∀ i, [i] <+: q → Low i) ∧
    s.leafAt root q = some e ∧ LeafFrom (b.1 * pageSize) e

section Filled

variable {τ : Type} {s s' : Vmm τ} {root kern : Nat} {blocks : List (Nat × Nat)}

theorem FilledOk.still (h : FilledOk s root blocks) (hstill : Still kern root s s') :
    FilledOk s' root blocks := by
  refine ⟨fun q e hq hlow he => ?_, fun b hb => ?_⟩
  · rw [hstill.leafAt (.inr hlow) (Nat.le_of_eq hq)] at he
    exact h.leaves q e hq hlow he
  · obtain ⟨q, e, hq, hlow, he, hfrom⟩ := h.firsts b hb
    rw [← hstill.leafAt (.inr hlow) (Nat.le_of_eq hq)] at he
    exact ⟨q, e, hq, hlow, he, hfrom⟩

theorem FilledOk.of_mem (h : FilledOk s root blocks) (hmem : s'.mem = s.mem) :
    FilledOk s' root blocks := by
  have hstill : Still root root s s' := Still.of_mem hmem root
  exact h.still hstill

/-- Paths that start low are low. -/
theorem low_of_cons {i : Fin 512} {r : List (Fin 512)} (hi : Low i) :
    ∀ j, [j] <+: i :: r → Low j :=
  fun _ hj => (List.cons_prefix_cons.mp hj).1 ▸ hi

theorem FilledOk.aligned (h : FilledOk s root blocks) : LargeAligned root s := by
  intro i j k t hi ht hpres hpse
  have hleaf : s.leafAt root ([i, j] ++ [k] ++ [0]) = some (1, s.mem t k) := by
    rw [leafAt_through ht]
    simp [find, leaf, hpres, hpse]
  obtain ⟨x, ⟨haddr, hlevel⟩, -⟩ := h.leaves _ _ rfl (low_of_cons hi) hleaf
  obtain hzero | ⟨-, hdvd⟩ := hlevel
  · cases hzero
  · rw [haddr]
    exact Nat.mod_eq_zero_of_dvd hdvd

/-- An address space without a leaf. -/
theorem filledOk_nil (h : ∀ q, q.length = 4 → (∀ i, [i] <+: q → Low i) → s.leafAt root q = none) :
    FilledOk s root [] := by
  refine ⟨fun q e hq hlow he => ?_, nofun⟩
  rw [h q hq hlow] at he
  cases he

end Filled

end DevOS.Mm
