import DevOS.Arch.BootmemRuns
import DevOS.Arch.VmmHhdm

/-!
# Page tables — while bootmem hands out the tables

Until the buddy allocator takes over, `__alloc_table` is
`bootmem_alloc_page_phys` or, once there is a direct map, `bootmem_alloc_page`.
Bootmem in its invariant is a table source: a page is handed out once, lies in
RAM and never in the kernel image, where the static tables are. So the direct
map that boot builds is the one the memory map asks for.
-/

namespace DevOS.Arch

variable {kernel : KernelImage} {table : List E820Entry}

/-- Bootmem between `bootmem_init` and `bootmem_lock`. -/
def LiveBootmem (kernel : KernelImage) (table : List E820Entry) : Type :=
  { b : Bootmem // PoolInv kernel table ⟨b, []⟩ }

/-- `pool_end` after a page, and what stays. -/
theorem PoolInv.afterPage {b b' : Bootmem} {phys : Nat} (h : PoolInv kernel table ⟨b, []⟩)
    (hram : RamBelow table) (hcall : bootmemAllocPagePhys table b = .ok (phys, b')) :
    PoolInv kernel table ⟨b', []⟩ ∧ b.poolEnd ≤ b'.poolEnd ∧
      (phys ≠ 0 → InRam table b.poolEnd phys pageSize ∧ b'.poolEnd = phys + pageSize) := by
  rcases h.allocPagePhys hram with
    hnone | ⟨p, c, hpage, hin, hstate, hstart, hend, hle, -, hentry⟩
  · cases hcall.symm.trans hnone
    exact ⟨h, le_rfl, fun hne => absurd rfl hne⟩
  · cases hcall.symm.trans hpage
    have hlow : b.poolEnd ≤ phys := hin.lower
    have hdvd : pageSize ∣ b'.poolEnd := hend ▸ Nat.dvd_add hin.start_dvd (Nat.dvd_refl _)
    refine ⟨h.grow hstate hstart (by show b.poolEnd ≤ b'.poolEnd; omega) hdvd hle hentry ?_,
      by omega, fun _ => ⟨hin, hend⟩⟩
    intro f hf
    exact absurd hf List.not_mem_nil

/-- `__alloc_table()` on bootmem: the pointer is the page's address as the
VMM's state shows it. The panics of bootmem are not reached. -/
def bootTable (hram : RamBelow table) (mode : VmmMode) (b : LiveBootmem kernel table) :
    Option Nat × LiveBootmem kernel table :=
  match hcall : bootmemAllocPagePhys table b.val with
  | .error _ => (none, b)
  | .ok (phys, b') =>
      (if phys = 0 then none else some (physToVirt mode phys),
        ⟨b', (b.property.afterPage hram hcall).1⟩)

theorem bootTable_eq (hram : RamBelow table) (mode : VmmMode) {b : LiveBootmem kernel table}
    {phys : Nat} {b' : Bootmem} (hcall : bootmemAllocPagePhys table b.val = .ok (phys, b')) :
    (bootTable hram mode b).1 = (if phys = 0 then none else some (physToVirt mode phys)) ∧
      (bootTable hram mode b).2.val = b' := by
  unfold bootTable
  split
  · rename_i herror
    cases herror.symm.trans hcall
  · rename_i hok
    cases hok.symm.trans hcall
    exact ⟨rfl, rfl⟩

/-- What a call of `bootTable` does to the pool. -/
theorem bootTable_spec (hram : RamBelow table) (mode : VmmMode) (b : LiveBootmem kernel table) :
    b.val.poolEnd ≤ (bootTable hram mode b).2.val.poolEnd ∧
    ∀ ptr, (bootTable hram mode b).1 = some ptr →
      ∃ phys, ptr = physToVirt mode phys ∧ InRam table b.val.poolEnd phys pageSize ∧
        (bootTable hram mode b).2.val.poolEnd = phys + pageSize := by
  unfold bootTable
  split
  · exact ⟨le_rfl, fun ptr h => by cases h⟩
  · rename_i phys b' hcall
    obtain ⟨-, hgrow, hpage⟩ := b.property.afterPage hram hcall
    refine ⟨hgrow, fun ptr h => ?_⟩
    dsimp only at h ⊢
    split at h
    · cases h
    · rename_i hne
      cases h
      exact ⟨phys, rfl, hpage hne⟩

theorem ramBelow_of_span (hspan : ∀ e ∈ table, e.stop ≤ hhdmSpan) : RamBelow table :=
  fun e he _ => (hspan e he).trans (by decide)

/-- A page of RAM is in reach of the direct map. -/
theorem InRam.lt_hhdmLimit {lo p : Nat} (h : InRam table lo p pageSize)
    (hspan : ∀ e ∈ table, e.stop ≤ hhdmSpan) : p < hhdmLimit := by
  obtain ⟨e, he, -, -, hstop⟩ := h.ram
  have hle := hspan e he
  have hs : hhdmSpan = 0x400000000000 := rfl
  have hl : hhdmLimit = 0x777F80000000 := rfl
  unfold pageSize at hstop
  omega

/-- **Bootmem is a table source**: what may still be handed out are the pages
of RAM from `pool_end` on. -/
def bootmemSource (kernel : KernelImage) (hspan : ∀ e ∈ table, e.stop ≤ hhdmSpan)
    (mode : VmmMode) : TableSource (LiveBootmem kernel table) where
  alloc := bootTable (ramBelow_of_span hspan) mode
  avail b p := InRam table b.val.poolEnd p pageSize
  alloc_avail := by
    intro b ptr b' h
    obtain ⟨-, hpage⟩ := bootTable_spec (ramBelow_of_span hspan) mode b
    rw [h] at hpage
    obtain ⟨phys, rfl, hin, hend⟩ := hpage ptr rfl
    rw [virtToPhys_physToVirt mode hin.start_dvd (hin.lt_hhdmLimit hspan)]
    refine ⟨hin, fun hagain => ?_⟩
    have hlow : b'.val.poolEnd ≤ phys := hagain.lower
    have hend' : b'.val.poolEnd = phys + 4096 := hend
    omega
  avail_of_alloc := by
    intro b p h
    have hgrow := (bootTable_spec (ramBelow_of_span hspan) mode b).1
    exact ⟨hgrow.trans h.lower, h.start_dvd, h.size_dvd, h.ram⟩
  avail_page := by
    intro b p h
    exact ⟨h.start_dvd, h.lt_hhdmLimit hspan⟩

/-- The static tables lie in the image, below `__kernel_vma_end`. -/
def KernelTables.InImage (K : KernelTables) (kernel : KernelImage) : Prop :=
  ∀ t ∈ [K.kernPml4, K.pdptLow, K.pdLow, K.pdptKern, K.pdKern], t < kernelVmaStart + kernel.size

/-- The kernel's own tables are not handed out: the pool starts where the image
ends. -/
theorem bootmem_unavail {K : KernelTables} (hK : K.InImage kernel) {b : Bootmem}
    (hinv : PoolInv kernel table ⟨b, []⟩) :
    ∀ t ∈ [K.kernPml4, K.pdptLow, K.pdLow, K.pdptKern, K.pdKern],
      ¬ InRam table b.poolEnd (virtToPhys t) pageSize := by
  intro t ht hav
  have habove : kernel.kernelEnd ≤ b.poolStart := hinv.above
  have hgrown : b.poolStart ≤ b.poolEnd := hinv.grown
  have hlow : b.poolEnd ≤ virtToPhys t := hav.lower
  obtain ⟨-, h1, h2⟩ := K.image t ht
  have hphys := virtToPhys_image h1 h2
  have hlt := hK t ht
  unfold KernelImage.kernelEnd at habove
  omega

/-- **Boot's direct map.** Once `bootmem_init` has succeeded on the table, the
direct map built with tables from bootmem shows what the memory map asks for,
unless bootmem ran out of pages, and leaves the rest of the address space to
`vmm_init`. -/
theorem vmmMapHhdm_bootmem (K : KernelTables) (hK : K.InImage kernel)
    (hsorted : table.Pairwise fun e f => e.stop ≤ f.addr)
    (hspan : ∀ e ∈ table, e.stop ≤ hhdmSpan) {b : Bootmem}
    (hboot : bootmemInit kernel table .boot = .ok (0, b)) :
    let A := bootmemSource kernel hspan .identity
    let s := vmmInit K ⟨b, PoolInv.init (ramBelow_of_span hspan) hboot⟩
    (∀ a, ¬ InWindow a → (vmmMapHhdm A K s table).2.translate (virtToPhys K.kernPml4) a =
      s.translate (virtToPhys K.kernPml4) a) ∧
    ((vmmMapHhdm A K s table).2.denied = true ∨
      ∀ p, p < hhdmSpan → HhdmContents table
        ((vmmMapHhdm A K s table).2.translate (virtToPhys K.kernPml4)) p) := by
  intro A s
  have hinv := PoolInv.init (ramBelow_of_span hspan) hboot
  have havail : ∀ t ∈ [K.kernPml4, K.pdptLow, K.pdLow, K.pdptKern, K.pdKern],
      ¬ A.avail ⟨b, hinv⟩ (virtToPhys t) := bootmem_unavail hK hinv
  have hrun : HhdmRun A (virtToPhys K.kernPml4) s (vmmMapHhdm A K s table).2
      (extend (table.foldl extendEntry fun _ => none) vgaFlags 0xA0000 0xC0000)
      (touch (InEntries table) 0xA0000 0xC0000) :=
    vmmInit_hhdmRun A K ⟨b, hinv⟩ havail hsorted hspan
  exact ⟨hrun.outside, hrun.shows.imp id fun h p hp => h.hhdmContents hsorted hp⟩

end DevOS.Arch
