import DevOS.Arch.VmmTree
import DevOS.Lib.Run
import Mathlib.Logic.Function.Basic
import Mathlib.Logic.Relation

/-!
# Address spaces — the program

`vmm_create_user_pml4` and `vmm_destroy_user_pml4` of `arch/x86/vmm.c`, in
`VMM_READY`. There table pages come from `alloc_pages` and go back with
`free_pages`; `PagePool` is what the VMM uses of that allocator, a frame being
named by its number.

`page_to_hhdm` does not check for `NULL`: what `__alloc_table` returns in
`VMM_READY` when `alloc_pages` has no page is not a pointer to a page. The
model has `none` there, and its runs end at a denied allocation.
-/

namespace DevOS.Arch

/-- `hhdm_to_page(hhdm)`. -/
def hhdmToPage (hhdm : Nat) : Nat := (hhdm + 2 ^ 64 - hhdmBase) % 2 ^ 64 / pageSize

/-- The frames of the block of order `k` at `p`. -/
def InBlock (p k f : Nat) : Prop := p ≤ f ∧ f < p + 2 ^ k

instance (p k f : Nat) : Decidable (InBlock p k f) := inferInstanceAs (Decidable (_ ∧ _))

/-! ## The page allocator -/

/-- `alloc_pages` and `free_pages` over the frames they manage. `blocks` gives
the order of the allocated block that starts at a frame. A block that is
handed out has no frame of an allocated one; freeing a frame that starts no
allocated block does nothing. -/
structure PagePool (σ : Type) where
  alloc : σ → (order : Nat) → Option Nat × σ
  free : σ → (pfn : Nat) → σ
  managed : Nat → Prop
  blocks : σ → Nat → Option Nat
  blocks_disjoint : ∀ s p j q k f, blocks s p = some j → blocks s q = some k →
    InBlock p j f → InBlock q k f → p = q
  alloc_some : ∀ s k p s', alloc s k = (some p, s') →
    blocks s' = Function.update (blocks s) p (some k) ∧
    ∀ f, InBlock p k f → managed f ∧ ∀ q j, blocks s q = some j → ¬ InBlock q j f
  alloc_none : ∀ s k s', alloc s k = (none, s') → blocks s' = blocks s
  free_blocks : ∀ s p, blocks (free s p) = Function.update (blocks s) p none
  managed_lt : ∀ f, managed f → f * pageSize < hhdmLimit

section Pool

variable {σ : Type} (P : PagePool σ)

/-- The frame is in an allocated block. -/
def PagePool.Allocated (s : σ) (f : Nat) : Prop := ∃ p k, P.blocks s p = some k ∧ InBlock p k f

theorem inBlock_self (p k : Nat) : InBlock p k p :=
  ⟨Nat.le_refl p, Nat.lt_add_of_pos_right (Nat.two_pow_pos k)⟩

theorem inBlock_zero {p f : Nat} : InBlock p 0 f ↔ f = p := by
  unfold InBlock
  omega

/-- The pointer to a frame leads back to it. -/
theorem virtToPhys_pageToHhdm {f : Nat} (h : f * pageSize < hhdmLimit) :
    virtToPhys (pageToHhdm f) = f * pageSize := by
  have hl : hhdmLimit = 0x777F80000000 := rfl
  have hb : hhdmBase = 0xFFFF888000000000 := rfl
  rw [pageToHhdm, Nat.mod_eq_of_lt (by omega)]
  exact virtToPhys_hhdm (Nat.dvd_mul_left _ _) h

theorem pageSize_mul_div (f : Nat) : f * pageSize / pageSize = f :=
  Nat.mul_div_cancel f (by decide)

/-- What an allocation does to the blocks. -/
theorem PagePool.alloc_blocks (s : σ) (k : Nat) :
    (∀ p j, P.blocks s p = some j → P.blocks (P.alloc s k).2 p = some j) ∧
    ∀ p j, P.blocks (P.alloc s k).2 p = some j →
      P.blocks s p = some j ∨ (P.alloc s k).1 = some p ∧ j = k := by
  cases h : P.alloc s k with
  | mk res s' =>
      cases res with
      | none =>
          rw [P.alloc_none s k s' h]
          exact ⟨fun _ _ h => h, fun _ _ h => .inl h⟩
      | some p =>
          obtain ⟨hblocks, hfresh⟩ := P.alloc_some s k p s' h
          rw [hblocks]
          refine ⟨fun q j hq => ?_, fun q j hq => ?_⟩
          · have hne : q ≠ p := by
              rintro rfl
              exact (hfresh q (inBlock_self q k)).2 q j hq (inBlock_self q j)
            rwa [Function.update_of_ne hne]
          · by_cases hne : q = p
            · subst hne
              rw [Function.update_self] at hq
              exact .inr ⟨rfl, (Option.some.inj hq).symm⟩
            · rw [Function.update_of_ne hne] at hq
              exact .inl hq

/-- `__alloc_table` in `VMM_READY`: `page_to_hhdm(alloc_pages(0))`. -/
def PagePool.tables : TableSource σ where
  alloc s := ((P.alloc s 0).1.map pageToHhdm, (P.alloc s 0).2)
  avail s t := pageSize ∣ t ∧ P.managed (t / pageSize) ∧ ¬ P.Allocated s (t / pageSize)
  alloc_avail := by
    intro s ptr s' h
    obtain ⟨hres, rfl⟩ := Prod.mk.inj h
    obtain ⟨f, hf, rfl⟩ := Option.map_eq_some_iff.mp hres
    obtain ⟨hblocks, hfresh⟩ := P.alloc_some s 0 f _ (Prod.ext hf rfl)
    obtain ⟨hmanaged, hfree⟩ := hfresh f (inBlock_zero.mpr rfl)
    rw [virtToPhys_pageToHhdm (P.managed_lt f hmanaged), pageSize_mul_div]
    refine ⟨⟨Nat.dvd_mul_left _ _, hmanaged, ?_⟩,
      fun hav => hav.2.2 ⟨f, 0, ?_, inBlock_zero.mpr rfl⟩⟩
    · rintro ⟨q, j, hq, hin⟩
      exact hfree q j hq hin
    · rw [hblocks, Function.update_self]
  avail_of_alloc := by
    rintro s t ⟨hdvd, hmanaged, hfree⟩
    refine ⟨hdvd, hmanaged, ?_⟩
    rintro ⟨p, j, hp, hin⟩
    exact hfree ⟨p, j, (P.alloc_blocks s 0).1 p j hp, hin⟩
  avail_page := by
    rintro s t ⟨hdvd, hmanaged, -⟩
    have hlt := P.managed_lt _ hmanaged
    rw [Nat.div_mul_cancel hdvd] at hlt
    exact ⟨hdvd, hlt⟩

theorem lt_of_mem_span {lo hi f : Nat} (h : lo ≤ f ∧ f < lo + (hi - lo)) : lo ≤ f ∧ f < hi := by
  omega

theorem mul_pageSize_lt {f hi limit : Nat} (hf : f < hi) (h : hi * pageSize ≤ limit) :
    f * pageSize < limit :=
  Nat.lt_of_lt_of_le (Nat.mul_lt_mul_of_pos_right hf (by decide)) h

/-- Single frames between two limits, the lowest one first. The state is the
list of those that are allocated. -/
def framePool (lo hi : Nat) (hhi : hi * pageSize ≤ hhdmLimit) : PagePool (List Nat) where
  alloc s k :=
    match (List.range' lo (hi - lo)).find? fun f => k = 0 ∧ f ∉ s with
    | none => (none, s)
    | some f => (some f, f :: s)
  free s f := s.filter (· ≠ f)
  managed f := lo ≤ f ∧ f < hi
  blocks s f := if f ∈ s then some 0 else none
  blocks_disjoint := by
    intro s p j q k f hp hq hpf hqf
    split at hp
    · split at hq
      · cases hp
        cases hq
        rw [← inBlock_zero.mp hpf, ← inBlock_zero.mp hqf]
      · cases hq
    · cases hp
  alloc_some := by
    intro s k p s' h
    split at h
    · cases h
    · rename_i f hfind
      cases h
      have hmem := List.mem_range'_1.mp (List.mem_of_find?_eq_some hfind)
      have hfree := List.find?_some hfind
      obtain ⟨rfl, hnot⟩ := of_decide_eq_true hfree
      refine ⟨?_, fun f hf => ?_⟩
      · funext q
        by_cases hq : q = p
        · rw [hq, Function.update_self, if_pos List.mem_cons_self]
        · rw [Function.update_of_ne hq]
          simp [hq]
      · rw [inBlock_zero.mp hf]
        refine ⟨lt_of_mem_span hmem, fun q j hq hin => ?_⟩
        split at hq
        · cases hq
          rw [inBlock_zero.mp hin] at hnot
          exact hnot ‹_›
        · cases hq
  alloc_none := by
    intro s k s' h
    split at h
    · cases h
      rfl
    · cases h
  free_blocks := by
    intro s p
    funext q
    by_cases hq : q = p
    · rw [hq, Function.update_self]
      simp
    · rw [Function.update_of_ne hq]
      simp [hq]
  managed_lt := by
    rintro f ⟨-, hf⟩
    exact mul_pageSize_lt hf hhi

/-- `free_pages(hhdm_to_page(addr))`. -/
def freeAt (s : Vmm σ) (addr : Nat) : Vmm σ :=
  { s with source := P.free s.source (hhdmToPage addr) }

/-! ## Creating an address space -/

/-- The entries of the kernel half of a PML4. -/
def upperEntries : List (Fin 512) := (List.finRange 512).filter fun i => 256 ≤ i.val

/-- The entries of the low half. -/
def lowerEntries : List (Fin 512) := (List.finRange 512).filter fun i => i.val < 256

/-- `vmm_create_user_pml4()`, given the address of `kern_pml4`. -/
def vmmCreateUserPml4 (A : TableSource σ) (kernPml4 : Nat) (s : Vmm σ) : Option Nat × Vmm σ :=
  match allocTable A s with
  | (none, s) => (none, s)
  | (some pml4, s) =>
      (some pml4,
        upperEntries.foldl (fun s i => s.write pml4 i (s.read kernPml4 i)) (s.clear pml4))

/-! ## Destroying one -/

/-- The panic of `vmm_destroy_user_pml4`. -/
def corruptedPanic : String := "VMM: corrupted 2MB page alignment detected at %p\n"

/-- One of the four nested loops: what `body` does for each present entry of a
table, then the table's own page. -/
def destroyTable (entries : List (Fin 512)) (body : Vmm σ → Word → Except String (Vmm σ))
    (s : Vmm σ) (table : Nat) : Except String (Vmm σ) :=
  match Lib.runFrom
    (fun s i => if present (s.read table i) then body s (s.read table i) else .ok s) s entries with
  | .error e => .error e
  | .ok s => .ok (freeAt P s table)

/-- The loop over a page table: its pages are freed. -/
def destroyPt : Vmm σ → Nat → Except String (Vmm σ) :=
  destroyTable P (List.finRange 512) fun s entry =>
    .ok (freeAt P s (physToVirt s.mode (addrOf entry)))

/-- The loop over a page directory: large pages are freed, page tables are
walked. -/
def destroyPd : Vmm σ → Nat → Except String (Vmm σ) :=
  destroyTable P (List.finRange 512) fun s entry =>
    if pse entry then
      let addr := physToVirt s.mode (addrOf entry)
      if addr % 0x200000 ≠ 0 then .error corruptedPanic else .ok (freeAt P s addr)
    else destroyPt P s (physToVirt s.mode (addrOf entry))

/-- The loop over a PDPT. -/
def destroyPdpt : Vmm σ → Nat → Except String (Vmm σ) :=
  destroyTable P (List.finRange 512) fun s entry =>
    destroyPd P s (physToVirt s.mode (addrOf entry))

/-- `CR3_ADDR_MASK`. -/
def cr3AddrMask : Nat := 0x000FFFFFFFFFF000

/-- `vmm_destroy_user_pml4(pml4)` with CR3 at `cr3`: the code, CR3 and the
VMM afterwards. -/
def vmmDestroyUserPml4 (kernPml4 : Nat) (s : Vmm σ) (cr3 pml4 : Nat) :
    Except String (Int × Nat × Vmm σ) :=
  if pml4 = kernPml4 then .ok (-1, cr3, s)
  else
    let cr3 :=
      if physToVirt s.mode (cr3 &&& cr3AddrMask) = pml4 then virtToPhys kernPml4 else cr3
    match destroyTable P lowerEntries
      (fun s entry => destroyPdpt P s (physToVirt s.mode (addrOf entry))) s pml4 with
    | .error e => .error e
    | .ok s => .ok (0, cr3, s)

end Pool

end DevOS.Arch
