import DevOS.Arch.BootmemPlaced
import DevOS.Mm.HandOff
import DevOS.Mm.TeardownRuns

/-!
# Kernel — memory, from power-on to `VMM_READY`

The memory part of `entry` in `kernel/entry.c`: `vmm_init`, `bootmem_init`,
`vmm_map_hhdm`, `vmm_unmap_low_identity`, `mem_init`, `buddy_init` and
`vmm_use_alloc_pages`, on the table that `e820_init` leaves. A boot that goes
through ends in the state from which the runs over the buddy allocator start.
A word written through a pointer that no map shows is a fault, which is
modelled for the tables of `vmm_map_hhdm`, for the headers of `__alloc` and for
the memory map. The tables that `mem_init` takes after that are cleared through
the direct map: they are RAM, which it shows unless a table was denied, and then
bootmem has no frame left.
-/

namespace DevOS.Kernel

open DevOS.Lib DevOS.Arch DevOS.Mm

/-! ## The program -/

section Program

variable {σ : Type}

/-- `vmm_use_alloc_pages()`. -/
def vmmUseAllocPages (s : Vmm σ) : Int × Vmm σ :=
  match s.mode with
  | .early | .identity | .transition => (-1, s)
  | .virtualOnly | .ready => (0, { s with mode := .ready })

/-- Whether `memset(virt, 0, bytes)` faults: some page of the range, which
starts on a page, is not mapped. -/
def memsetFaults (s : Vmm σ) (root virt bytes : Nat) : Bool :=
  (List.range (divUp bytes pageSize)).any fun k =>
    (s.translate root ((virt + k * pageSize) % 2 ^ 64)).isNone

variable {table : List E820Entry} (kernel : KernelImage) (hspan : ∀ e ∈ table, e.stop ≤ hhdmSpan)
  (K : KernelTables)

/-- The flags of the memory map. -/
def memMapFlags : Word := ptPresent ||| ptGlobal ||| ptNx ||| ptWritable

def memMapPanic : String := "Memory map module failed to allocate\n"

/-- `mem_init()`: the memory map, and the page tables it is mapped in. -/
def mapMemMap (fuel lastRam : Nat) (s : Vmm (LiveBootmem kernel table)) :
    Option (Except String (Buddy × Vmm (LiveBootmem kernel table))) :=
  let memNrPages := lastRam / pageSize
  let bytes := memNrPages * pageStructSize % 2 ^ 64
  match bootmemAllocMapped kernel hspan K.kernPml4 fuel s memMapAddr bytes memMapFlags with
  | none => none
  | some (.error e) => some (.error e)
  | some (.ok (none, _)) => some (.error memMapPanic)
  | some (.ok (some memMap, s)) =>
      if memsetFaults s (virtToPhys K.kernPml4) memMap bytes then some (.error exceptionPanic)
      else some (.ok (memInit memNrPages, s))

/-- From `bootmem_init()` on an untouched `.bss`, the code is 0. -/
theorem bootmemInit_code {code : Int} {b : Bootmem}
    (h : bootmemInit kernel table .boot = .ok (code, b)) :
    bootmemInit kernel table .boot = .ok (0, b) := by
  have hcode : code = 0 := by
    simp only [bootmemInit, Bootmem.boot, ne_eq, not_true_eq_false, if_false] at h
    cases hfind : findPool kernel 0 table with
    | none => simp [hfind] at h
    | some res =>
        simp only [hfind] at h
        split at h
        · cases h
        · split at h
          · cases h
          · cases h
            rfl
  rw [h, hcode]

/-- `bootmem_init()`. -/
def startBootmem : Except String (LiveBootmem kernel table) :=
  match h : bootmemInit kernel table .boot with
  | .error e => .error e
  | .ok (_, b) => .ok ⟨b, PoolInv.init (ramBelow_of_span hspan) (bootmemInit_code kernel h)⟩

/-- `vmm_init()`, which takes no page, then `vmm_map_hhdm()` and
`vmm_unmap_low_identity()`; `entry` ignores what they return. -/
def earlyMaps (b : LiveBootmem kernel table) : Vmm (LiveBootmem kernel table) :=
  let s := vmmInit K b
  let s := (vmmMapHhdm (bootmemSource kernel hspan s.mode) K s table).2
  (vmmUnmapLowIdentity K s).2

/-- `entry` up to `buddy_init`, on the sanitized table, with `fuel` for the scan
of `vmm_virt_range_has_mapping`: the memory map, and the tables with bootmem
behind them. -/
def earlyMemory (fuel lastRam : Nat) :
    Option (Except String (Buddy × Vmm (LiveBootmem kernel table))) :=
  match startBootmem kernel hspan with
  | .error e => some (.error e)
  | .ok b =>
      let s := earlyMaps kernel hspan K b
      if s.faulted then some (.error exceptionPanic)
      else mapMemMap kernel hspan K fuel lastRam s

/-- The memory part of `entry`. The buddy allocator takes over with the kernel's
table in CR3 and no page in anybody's hands. -/
def bootMemory (fuel lastRam : Nat) : Option (Except String (Client Buddy)) :=
  match earlyMemory kernel hspan K fuel lastRam with
  | none => none
  | some (.error e) => some (.error e)
  | some (.ok (map, s)) =>
      match buddyInit table s.source.val.poolEnd map with
      | .error e => some (.error e)
      | .ok buddy =>
          let (_, s) := vmmUseAllocPages s
          some (.ok ⟨⟨s.mode, s.mem, buddy, false, false⟩, virtToPhys K.kernPml4, [], []⟩)

end Program

/-! ## The tables before `mem_init` -/

theorem translate_of_mem {σ τ : Type} {s : Vmm σ} {s' : Vmm τ} {root : Nat} (h : s'.mem = s.mem)
    (a : Nat) : s'.translate root a = s.translate root a := by
  unfold Vmm.translate Vmm.leafAt
  rw [h]

/-- What clearing a word of the PML4 does to translations. -/
theorem translate_unlink {σ : Type} {A : TableSource σ} {s : Vmm σ} {pml4 : Nat}
    (h : TreeOk A (virtToPhys pml4) s) (i : Fin 512) (a : Nat) :
    (s.write pml4 i 0).translate (virtToPhys pml4) a =
      if pml4Idx a = i then none else s.translate (virtToPhys pml4) a := by
  have hpath : pathOf a = pml4Idx a :: [pdptIdx a, pdIdx a, ptIdx a] := rfl
  unfold Vmm.translate
  by_cases hc : Canonical a
  · rw [if_pos hc, if_pos hc, hpath]
    split
    · rename_i hi
      have hpres : present ((s.write pml4 i 0).mem (virtToPhys pml4) (pml4Idx a)) = false := by
        rw [write_mem, if_pos ⟨rfl, hi⟩]
        decide
      simp only [Vmm.leafAt, find, leaf_eq_none_of_not_present hpres,
        child_eq_none_of_not_present hpres, Option.map_none]
    · rename_i hi
      rw [(h.unlink i).2 _ _ hi rfl]
  · rw [if_neg hc, if_neg hc, ite_self]

section Early

variable {kernel : KernelImage} {table : List E820Entry} {hspan : ∀ e ∈ table, e.stop ≤ hhdmSpan}
  {K : KernelTables} {b : LiveBootmem kernel table}

theorem startBootmem_init (h : startBootmem kernel hspan = .ok b) :
    bootmemInit kernel table .boot = .ok (0, b.val) := by
  unfold startBootmem at h
  split at h
  · cases h
  · rename_i hcall
    cases h
    exact bootmemInit_code kernel hcall

/-- The kernel's address space outside the direct map once the identity map is
gone: the image and nothing else. -/
def imageTranslation (a : Nat) : Option Translation :=
  if kernelVmaStart ≤ a ∧ a < kernelVmaStart + largePageSize then
    some ⟨kernelPhys + (a - kernelVmaStart), largePageSize,
      ptPresent ||| ptWritable ||| ptPse ||| ptGlobal⟩
  else none

/-- What the direct map shows of an address is one translation. -/
theorem hhdmContents_congr {τ τ' : Nat → Option Translation} {p : Nat}
    (h : HhdmContents table τ p) (heq : τ' (hhdmBase + p) = τ (hhdmBase + p)) :
    HhdmContents table τ' p :=
  ⟨fun e he hpage hram => heq ▸ h.ram e he hpage hram,
    fun e he hpage hacpi => heq ▸ h.acpi e he hpage hacpi,
    fun hno hvga => heq ▸ h.vga hno hvga, fun hno hrest => heq ▸ h.rest hno hrest⟩

theorem vmmMapHhdm_mode {σ : Type} {A : TableSource σ} {s : Vmm σ} (h : s.mode = .identity) :
    (vmmMapHhdm A K s table).2.mode = .transition := by
  unfold vmmMapHhdm
  rw [if_neg (not_not.mpr h)]

theorem vmmInit_mode {σ : Type} (source : σ) : (vmmInit K source).mode = .identity := rfl

/-- What the three calls leave. -/
theorem earlyMaps_eq :
    (earlyMaps kernel hspan K b).mode = .virtualOnly ∧
    (earlyMaps kernel hspan K b).mem = ((vmmMapHhdm (bootmemSource kernel hspan .identity) K
      (vmmInit K b) table).2.write K.kernPml4 0 0).mem ∧
    (earlyMaps kernel hspan K b).denied =
      (vmmMapHhdm (bootmemSource kernel hspan .identity) K (vmmInit K b) table).2.denied := by
  have hmode : (vmmMapHhdm (bootmemSource kernel hspan .identity) K (vmmInit K b) table).2.mode =
      .transition := vmmMapHhdm_mode (vmmInit_mode b)
  unfold earlyMaps
  dsimp only
  rw [vmmInit_mode, vmmUnmapLowIdentity, if_neg (not_not.mpr hmode)]
  generalize (vmmMapHhdm (bootmemSource kernel hspan .identity) K (vmmInit K b) table).2 = s
  exact ⟨rfl, rfl, rfl⟩

/-- **Before `mem_init`**: a state that the boot code reaches, past the identity
map, with the image and the direct map shown. -/
theorem earlyMaps_spec (hK : K.InImage kernel)
    (hsorted : table.Pairwise fun e f => e.stop ≤ f.addr)
    (hstart : startBootmem kernel hspan = .ok b) :
    BootReach K hspan (earlyMaps kernel hspan K b) ∧
    (earlyMaps kernel hspan K b).mode = .virtualOnly ∧
    (∀ a, ¬ InWindow a →
      (earlyMaps kernel hspan K b).translate (virtToPhys K.kernPml4) a = imageTranslation a) ∧
    ((earlyMaps kernel hspan K b).denied = true ∨ ∀ p, p < hhdmSpan → HhdmContents table
      ((earlyMaps kernel hspan K b).translate (virtToPhys K.kernPml4)) p) := by
  have hboot := startBootmem_init hstart
  have hinit : BootReach K hspan (vmmInit K b) := .init hboot
  have hmapped : BootReach K hspan
      (vmmMapHhdm (bootmemSource kernel hspan .identity) K (vmmInit K b) table).2 := hinit.mapHhdm
  have hsame : (⟨b.val, PoolInv.init (ramBelow_of_span hspan) hboot⟩ : LiveBootmem kernel table) =
      b := rfl
  have hhhdm := vmmMapHhdm_bootmem K hK hsorted hspan hboot
  rw [hsame] at hhhdm
  obtain ⟨houtside, hdirect⟩ := hhhdm
  have hwords := vmmInit_words K b
  have htranslate : ∀ a, (earlyMaps kernel hspan K b).translate (virtToPhys K.kernPml4) a =
      if pml4Idx a = 0 then none else (vmmMapHhdm (bootmemSource kernel hspan .identity) K
        (vmmInit K b) table).2.translate (virtToPhys K.kernPml4) a := by
    intro a
    rw [← translate_unlink (hmapped.tree hK hsorted).ok]
    exact translate_of_mem earlyMaps_eq.2.1 a
  refine ⟨hinit.mapHhdm.unmapLow, earlyMaps_eq.1, fun a ha => ?_, ?_⟩
  · rw [htranslate, houtside a ha, hwords.translate, imageTranslation]
    have hidx : a < 2 ^ 39 → pml4Idx a = 0 := fun h => by
      rw [pml4Idx, Nat.div_eq_of_lt h]
      rfl
    by_cases hlow : a < 2 ^ 30
    · have himage : ¬ (kernelVmaStart ≤ a ∧ a < kernelVmaStart + largePageSize) := by
        unfold kernelVmaStart
        omega
      rw [if_pos (hidx (by omega)), if_neg himage]
    · rw [if_neg hlow]
      split
      · rename_i hzero
        rw [if_neg]
        rintro ⟨h1, h2⟩
        have hval := congrArg Fin.val hzero
        rw [pml4Idx, Fin.val_ofNat] at hval
        unfold kernelVmaStart at h1 h2
        unfold largePageSize at h2
        have hzero' : (0 : Fin 512).val = 0 := rfl
        omega
      · rfl
  · refine hdirect.imp (fun hden => ?_) fun hall p hp => ?_
    · exact earlyMaps_eq.2.2.trans hden
    · have hwindow : (earlyMaps kernel hspan K b).translate (virtToPhys K.kernPml4)
          (hhdmBase + p) = (vmmMapHhdm (bootmemSource kernel hspan .identity) K (vmmInit K b)
            table).2.translate (virtToPhys K.kernPml4) (hhdmBase + p) := by
        rw [htranslate, if_neg]
        intro hzero
        have hval := congrArg Fin.val hzero
        rw [pml4Idx, Fin.val_ofNat] at hval
        unfold hhdmSpan at hp
        unfold hhdmBase at hval
        have hzero' : (0 : Fin 512).val = 0 := rfl
        omega
      exact hhdmContents_congr (hall p hp) hwindow

end Early

/-! ## `mem_init` and `buddy_init` -/

section MemMap

variable {kernel : KernelImage} {table : List E820Entry} {hspan : ∀ e ∈ table, e.stop ≤ hhdmSpan}
  {K : KernelTables} {s s' : Vmm (LiveBootmem kernel table)} {fuel lastRam n : Nat} {map b : Buddy}

/-- A `mem_init` that goes through. -/
theorem mapMemMap_ok (h : mapMemMap kernel hspan K fuel lastRam s = some (.ok (map, s'))) :
    ∃ memMap, bootmemAllocMapped kernel hspan K.kernPml4 fuel s memMapAddr
        (lastRam / pageSize * pageStructSize % 2 ^ 64) memMapFlags = some (.ok (some memMap, s')) ∧
      memsetFaults s' (virtToPhys K.kernPml4) memMap
        (lastRam / pageSize * pageStructSize % 2 ^ 64) = false ∧
      map = memInit (lastRam / pageSize) := by
  unfold mapMemMap at h
  dsimp only at h
  split at h
  · cases h
  · cases h
  · cases h
  · rename_i memMap s₁ hcall
    split at h
    · cases h
    · rename_i hfaults
      cases h
      exact ⟨memMap, hcall, Bool.not_eq_true _ ▸ hfaults, rfl⟩

/-- A range that `memset` can write to is mapped. -/
theorem translate_of_memset {σ : Type} {s : Vmm σ} {root virt bytes a : Nat}
    (hvirt : pageSize ∣ virt) (hend : virt + bytes + pageSize ≤ 2 ^ 64)
    (h : memsetFaults s root virt bytes = false) (h1 : virt ≤ a) (h2 : a < virt + bytes) :
    ∃ t, s.translate root a = some t := by
  have hp : pageSize = 4096 := rfl
  obtain ⟨d, rfl⟩ := Nat.exists_eq_add_of_le h1
  have hk : d / pageSize < divUp bytes pageSize := by
    unfold divUp
    rw [hp] at hend ⊢
    omega
  have hpage := List.any_eq_false.mp h (d / pageSize) (List.mem_range.mpr hk)
  have hmod : (virt + d / pageSize * pageSize) % 2 ^ 64 = virt + d / pageSize * pageSize := by
    apply Nat.mod_eq_of_lt
    rw [hp] at hend ⊢
    omega
  rw [hmod, Option.isNone_iff_eq_none] at hpage
  obtain ⟨t, ht⟩ := Option.ne_none_iff_exists'.mp hpage
  have hdvd : pageSize ∣ virt + d / pageSize * pageSize :=
    Nat.dvd_add hvirt (Nat.dvd_mul_left _ _)
  have hlo : virt + d / pageSize * pageSize ≤ virt + d := by
    rw [hp]
    omega
  have hhi : virt + d < virt + d / pageSize * pageSize + pageSize := by
    rw [hp]
    omega
  rw [translate_page s root hdvd hlo hhi, ht]
  exact ⟨_, rfl⟩

/-- **What `buddy_init` takes over** if it goes through: the frames of RAM
outside the kernel and the boot pool, coalesced and on exact lists. -/
theorem buddyInit_takes (hram : RamBelow table)
    (hsorted : table.Pairwise fun e f => e.stop ≤ f.addr) {poolEnd : Nat}
    (hpool : kernelPhys ≤ poolEnd) (hbound : poolEnd + pageSize ≤ 2 ^ 64)
    (hdvd : pageSize ∣ poolEnd) (hn : n = lastRamAddr table / pageSize)
    (h : buddyInit table poolEnd (memInit n) = .ok b) :
    (∃ L, Rep b (fun _ => False) L) ∧ b.Coalesced ∧ b.memNrPages = n ∧
    ∀ f, b.FreeFrame f ↔
      RamFrame table f ∧ ¬ (kernelPhys ≤ f * pageSize ∧ f * pageSize < poolEnd) := by
  have hp : pageSize = 4096 := rfl
  have hk : kernelPhys / pageSize * pageSize = kernelPhys := by decide
  have hup : divUp poolEnd pageSize * pageSize = poolEnd := by
    obtain ⟨k, rfl⟩ := hdvd
    unfold divUp
    rw [hp] at hbound ⊢
    omega
  have hw : kernelPhys / pageSize ≤ divUp poolEnd pageSize := by
    rw [hp] at hk hup ⊢
    omega
  obtain ⟨c, L, he, hnr, hinv, hmax⟩ := buddyInit_grouped table poolEnd n
  rw [h] at he
  split at he
  · cases he
  cases he
  refine ⟨⟨L, hinv.rep _⟩, hmax.coalesced hinv.tiling, hnr, fun f => ?_⟩
  show c.FreeFrame f ↔ _
  rw [freeFrame_iff_occupied hinv.tiling hinv.free, hinv.managed_iff, hnr, markEntries_buddy hw]
  have hspot : ¬ (kernelPhys / pageSize ≤ f ∧ f < divUp poolEnd pageSize) ↔
      ¬ (kernelPhys ≤ f * pageSize ∧ f * pageSize < poolEnd) := by
    rw [hp] at hk hup ⊢
    omega
  constructor
  · rintro ⟨-, -, e, he, hfr⟩
    obtain ⟨h1, h2, h3, h4⟩ := (entryFrame_iff (hram e he hfr.1)).mp hfr
    exact ⟨⟨e, he, h1, h2, h3⟩, hspot.mp h4⟩
  · rintro ⟨⟨e, he, h1, h2, h3⟩, h4⟩
    have hlast := stop_le_lastRamAddr hram hsorted he h1
    have hlt : f < n := by
      rw [hp] at h3 hn
      omega
    exact ⟨hlt, hlt, e, he, (entryFrame_iff (hram e he h1)).mpr ⟨h1, h2, h3, hspot.mpr h4⟩⟩

theorem lastRamAddr_le (hspan : ∀ e ∈ table, e.stop ≤ hhdmSpan) :
    lastRamAddr table ≤ hhdmSpan := by
  unfold lastRamAddr
  split
  · exact Nat.zero_le _
  · rename_i e hfind
    exact (Nat.mod_le _ _).trans (hspan e (List.mem_reverse.mp (List.mem_of_find?_eq_some hfind)))

/-- The size of the memory map, in bytes and in whole pages. -/
theorem memMap_size (hspan : ∀ e ∈ table, e.stop ≤ hhdmSpan) :
    ∃ bytes m, lastRamAddr table / pageSize * pageStructSize % 2 ^ 64 = bytes ∧
      bytes = lastRamAddr table / pageSize * pageStructSize ∧ bytes ≤ 2 ^ 39 ∧
      roundUp bytes pageSize = m * pageSize ∧ bytes ≤ m * pageSize ∧
      m * pageSize < bytes + pageSize := by
  have hlast := lastRamAddr_le hspan
  unfold hhdmSpan at hlast
  unfold roundUp pageStructSize pageSize
  generalize lastRamAddr table = last at hlast
  have hmod : last / 4096 * 24 % 2 ^ 64 = last / 4096 * 24 := Nat.mod_eq_of_lt (by omega)
  have hsum : (last / 4096 * 24 + 4096 - 1) % 2 ^ 64 = last / 4096 * 24 + 4095 :=
    Nat.mod_eq_of_lt (by omega)
  refine ⟨last / 4096 * 24, (last / 4096 * 24 + 4095) / 4096, hmod, rfl, ?_, ?_, ?_, ?_⟩
  · omega
  · rw [hsum]
  · omega
  · omega

/-- Nor do its pages and the table's end leave the 64 bits. -/
theorem memMap_room (hspan : ∀ e ∈ table, e.stop ≤ hhdmSpan) {bytes m : Nat}
    (hround : roundUp bytes pageSize = m * pageSize) (hm : m * pageSize < bytes + pageSize)
    (hle : bytes ≤ 2 ^ 39) : ∀ e ∈ table, e.stop + roundUp bytes pageSize ≤ 2 ^ 64 := by
  intro e he
  have hstop := hspan e he
  rw [hround]
  unfold hhdmSpan at hstop
  unfold pageSize at hm ⊢
  omega

/-- The scan of `mem_init` ends. -/
theorem mapMemMap_ends (h : BootTree K hspan s)
    (hsorted : table.Pairwise fun e f => e.stop ≤ f.addr) (hlast : lastRam = lastRamAddr table) :
    ∃ fuel res, mapMemMap kernel hspan K fuel lastRam s = some res := by
  obtain ⟨bytes, m, hmod, -, hle, hround, -, hm⟩ := memMap_size hspan
  have hroom := memMap_room hspan hround hm hle
  have hword : memMapAddr < 2 ^ 64 := by decide
  obtain ⟨fuel, r, hr⟩ := h.check_ends hword (m * pageSize)
  have hcall : ∃ res, bootmemAllocMapped kernel hspan K.kernPml4 fuel s memMapAddr bytes
      memMapFlags = some res := by
    rcases bootmemAllocMapped_cases hsorted K.kernPml4 fuel memMapAddr bytes memMapFlags hround
      hroom with ⟨hnone, -⟩ | hres | hres | ⟨-, b, -, hres⟩
    · rw [hr] at hnone
      cases hnone
    all_goals exact ⟨_, hres⟩
  obtain ⟨res, hres⟩ := hcall
  refine ⟨fuel, ?_⟩
  unfold mapMemMap
  dsimp only
  rw [hlast, hmod, hres]
  rcases res with e | ⟨_ | memMap, s₁⟩
  · exact ⟨_, rfl⟩
  · exact ⟨_, rfl⟩
  · dsimp only
    split
    all_goals exact ⟨_, rfl⟩

end MemMap

/-! ## A boot that goes through -/

section Ready

variable {firmware out : List E820Entry} {kernel : KernelImage} {K : KernelTables}
  {hspan : ∀ e ∈ out, e.stop ≤ hhdmSpan} {s : Vmm (LiveBootmem kernel out)} {lastRam fuel : Nat}
  {c : Client Buddy}

/-- Bytes of the memory map. -/
def memMapBytes (lastRam : Nat) : Nat := lastRam / pageSize * pageStructSize

/-- The memory map on the frames `frame 0`, `frame 1`, ..., which are RAM of
their own: no table is on them and the buddy allocator does not have them. -/
structure MemMapOn (firmware : List E820Entry) (kernel : KernelImage) (K : KernelTables)
    (lastRam : Nat) (c : Client Buddy) (frame : Nat → Nat) : Prop where
  shown : ∀ i, i < memMapBytes lastRam → ∃ t,
    c.vmm.translate (virtToPhys K.kernPml4) (memMapAddr + i) = some t ∧
    t.phys = frame (i / pageSize) * pageSize + i % pageSize ∧
    ∃ large, t.flags = unitFlags large memMapFlags
  distinct : ∀ j k, j * pageSize < memMapBytes lastRam → k * pageSize < memMapBytes lastRam →
    frame j = frame k → j = k
  own : ∀ k, k * pageSize < memMapBytes lastRam →
    DeclaredRam firmware (frame k) ∧ OffKernel kernel (frame k) ∧
      ¬ c.vmm.source.FreeFrame (frame k) ∧
      ∀ p t, p.length ≤ 3 → c.vmm.tableAt (virtToPhys K.kernPml4) p = some t →
        t ≠ frame k * pageSize

/-- What the memory part of `entry` leaves, when bootmem has handed out what lies
below `poolEnd`. -/
structure Booted (firmware out : List E820Entry) (kernel : KernelImage) (K : KernelTables)
    (lastRam poolEnd : Nat) (c : Client Buddy) : Prop where
  ready : ReadyBoot K.kernPml4 c
  cr3 : c.cr3 = virtToPhys K.kernPml4
  pool : kernel.kernelEnd ≤ poolEnd
  free : ∀ f, c.vmm.source.FreeFrame f ↔
    RamFrame out f ∧ ¬ (kernelPhys ≤ f * pageSize ∧ f * pageSize < poolEnd)
  safe : ∀ f, c.vmm.source.FreeFrame f → DeclaredRam firmware f ∧ OffKernel kernel f
  memMap : ∃ frame, MemMapOn firmware kernel K lastRam c frame
  elsewhere : ∀ a, ¬ InWindow a →
    ¬ (memMapAddr ≤ a ∧ a < memMapAddr + roundUp (memMapBytes lastRam) pageSize) →
    c.vmm.translate (virtToPhys K.kernPml4) a = imageTranslation a

/-- The tables below a root on a page boundary are on page boundaries. -/
theorem tableAt_aligned {σ : Type} {s : Vmm σ} {root t : Nat} {p : List (Fin 512)}
    (hroot : pageSize ∣ root) (ht : s.tableAt root p = some t) : pageSize ∣ t := by
  cases p using List.reverseRecOn with
  | nil =>
      cases ht
      exact hroot
  | append_singleton p i =>
      rw [Vmm.tableAt, nodeAt_concat] at ht
      obtain ⟨v, -, hchild⟩ := Option.bind_eq_some_iff.mp ht
      unfold child at hchild
      split at hchild
      · cases hchild
        exact pageSize_dvd_addrOf _
      · cases hchild

theorem kernPml4_dvd (K : KernelTables) : pageSize ∣ virtToPhys K.kernPml4 := by
  obtain ⟨hdvd, h1, h2⟩ := K.image K.kernPml4 (by simp)
  rw [virtToPhys_image h1 h2]
  unfold kernelVmaStart at h1 ⊢
  unfold kernelPhys
  unfold pageSize at hdvd ⊢
  omega

/-- No table of the kernel is on a frame that `buddy_init` takes over. -/
theorem table_taken (hK : K.InImage kernel)
    (hsorted : out.Pairwise fun e f => e.stop ≤ f.addr) (h : BootReach K hspan s)
    {p : List (Fin 512)} {t : Nat} (hp : p.length ≤ 3)
    (ht : s.tableAt (virtToPhys K.kernPml4) p = some t) :
    ¬ (RamFrame out (t / pageSize) ∧
      ¬ (kernelPhys ≤ t / pageSize * pageSize ∧
        t / pageSize * pageSize < s.source.val.poolEnd)) := by
  rintro ⟨⟨e, he, hram, hlo, hhi⟩, hout⟩
  have hdvd := tableAt_aligned (kernPml4_dvd K) ht
  have hself : t / pageSize * pageSize = t := Nat.div_mul_cancel hdvd
  rw [hself] at hlo hhi hout
  have habove := h.tablesAbove hK hsorted p t hp ht
  have hpool : s.source.val.poolEnd ≤ t := by
    by_contra hlt
    exact hout ⟨habove, Nat.lt_of_not_le hlt⟩
  exact (h.tree hK hsorted).ok.unavail p t hp ht ⟨hpool, hdvd, dvd_refl _, e, he, hram, hlo, hhi⟩

/-- A frame outside the kernel and the pool. -/
theorem offKernel_of_free {f poolEnd : Nat} (hpool : kernel.kernelEnd ≤ poolEnd)
    (hout : ¬ (kernelPhys ≤ f * pageSize ∧ f * pageSize < poolEnd)) : OffKernel kernel f := by
  have hk : kernelPhys / pageSize * pageSize = kernelPhys := by decide
  unfold OffKernel
  unfold pageSize at hout hk ⊢
  omega

/-- The memory map after a request that was answered and a `memset` that did
not fault. -/
theorem memMapOn_of_placement (hsan : Sanitized firmware out)
    {s₀ : Vmm (LiveBootmem kernel out)} {m : Nat}
    (hplaced : Placement K s₀ s memMapAddr m memMapFlags)
    (hsize : memMapBytes lastRam ≤ m * pageSize) (hle : memMapBytes lastRam ≤ 2 ^ 39)
    (hfaults : memsetFaults s (virtToPhys K.kernPml4) memMapAddr (memMapBytes lastRam) = false)
    (hmem : c.vmm.mem = s.mem) (hfree : ∀ f, c.vmm.source.FreeFrame f ↔
      RamFrame out f ∧ ¬ (kernelPhys ≤ f * pageSize ∧ f * pageSize < s.source.val.poolEnd)) :
    MemMapOn firmware kernel K lastRam c fun k =>
      (requestFrames out s₀.source.val m)[k]?.getD 0 := by
  have hlt : ∀ k, k * pageSize < memMapBytes lastRam →
      k < (requestFrames out s₀.source.val m).length := by
    intro k hk
    rw [hplaced.enough]
    exact Nat.lt_of_mul_lt_mul_right (hk.trans_le hsize)
  have hvirt : pageSize ∣ memMapAddr := by decide
  have hend : memMapAddr + memMapBytes lastRam + pageSize ≤ 2 ^ 64 := by
    unfold memMapAddr pageSize
    omega
  refine ⟨fun i hi => ?_, fun j k hj hk he => ?_, fun k hk => ?_⟩
  · obtain ⟨t, ht⟩ := translate_of_memset hvirt hend hfaults (Nat.le_add_right memMapAddr i)
      (Nat.add_lt_add_left hi memMapAddr)
    obtain ⟨hphys, hflags⟩ := hplaced.placed _ t (Nat.le_add_right _ _)
      (Nat.add_lt_add_left (hi.trans_le hsize) _) ht
    rw [frameAddr, Nat.add_sub_cancel_left] at hphys
    exact ⟨t, (translate_of_mem hmem _).trans ht, hphys, hflags⟩
  · rw [List.getElem?_eq_getElem (hlt j hj), List.getElem?_eq_getElem (hlt k hk)] at he
    exact (hplaced.distinct.getElem_inj_iff).mp he
  · have hlt := hlt k hk
    rw [List.getElem?_eq_getElem hlt, Option.getD_some]
    have hmemFrame := List.getElem_mem hlt
    generalize (requestFrames out s₀.source.val m)[k] = f at hmemFrame
    obtain ⟨hin, hbelow⟩ := hplaced.taken f hmemFrame
    have hkernel := s₀.source.kernelEnd_le.trans hin.lower
    have hphys := s₀.source.kernelPhys_le.trans hin.lower
    obtain ⟨e, he, hram, hlo, hhi⟩ := hin.ram
    refine ⟨declaredRam_of_entry hsan he hram hlo hhi, .inr hkernel, fun hf => ?_,
      fun p t hp ht => hplaced.tables p t hp ?_ f hmemFrame⟩
    · exact ((hfree f).mp hf).2 ⟨hphys, hbelow⟩
    · rw [Vmm.tableAt, ← hmem]
      exact ht

/-- The state at the hand-over to the buddy allocator. -/
theorem readyBoot_of_handOver (hspan : ∀ e ∈ out, e.stop ≤ hhdmSpan) (hK : K.InImage kernel)
    (hsorted : out.Pairwise fun e f => e.stop ≤ f.addr) (hreach : BootReach K hspan s)
    {buddy : Buddy} (hlists : buddy.ListsExact) (hco : buddy.Coalesced)
    (hnr : buddy.memNrPages = lastRamAddr out / pageSize) (hfree : ∀ f, buddy.FreeFrame f ↔
      RamFrame out f ∧ ¬ (kernelPhys ≤ f * pageSize ∧ f * pageSize < s.source.val.poolEnd)) :
    ReadyBoot K.kernPml4 ⟨⟨.ready, s.mem, buddy, false, false⟩, virtToPhys K.kernPml4, [], []⟩ := by
  have htree := (hreach.tree hK hsorted).ok
  refine ⟨rfl, rfl, hlists, hco, ?_, kernPml4_dvd K,
    ⟨htree.separate, htree.below, fun _ _ _ _ h => h, htree.pml4⟩, fun p t hp ht hf => ?_, rfl, rfl⟩
  · have hle := lastRamAddr_le hspan
    have hs : hhdmSpan ≤ hhdmLimit := by decide
    show buddy.memNrPages * pageSize ≤ hhdmLimit
    rw [hnr]
    exact ((Nat.div_mul_le_self _ _).trans hle).trans hs
  · exact table_taken hK hsorted hreach hp ht ((hfree _).mp hf)

/-- The boot ends, whatever it ends in. -/
theorem bootMemory_ends (hK : K.InImage kernel)
    (hsorted : out.Pairwise fun e f => e.stop ≤ f.addr) (hlast : lastRam = lastRamAddr out) :
    ∃ fuel res, bootMemory kernel hspan K fuel lastRam = some res := by
  have hearly : ∃ fuel res, earlyMemory kernel hspan K fuel lastRam = some res := by
    cases hstart : startBootmem kernel hspan with
    | error e => exact ⟨0, .error e, by rw [earlyMemory, hstart]⟩
    | ok b =>
        obtain ⟨hreach, -⟩ := earlyMaps_spec hK hsorted hstart
        obtain ⟨fuel, res, hres⟩ := mapMemMap_ends (hreach.tree hK hsorted) hsorted hlast
        refine ⟨fuel, ?_⟩
        rw [earlyMemory, hstart]
        dsimp only
        split
        · exact ⟨_, rfl⟩
        · exact ⟨res, hres⟩
  obtain ⟨fuel, res, hres⟩ := hearly
  refine ⟨fuel, ?_⟩
  rw [bootMemory, hres]
  rcases res with e | ⟨map, s⟩
  · exact ⟨_, rfl⟩
  · dsimp only
    split
    all_goals exact ⟨_, rfl⟩

/-- The calls before `buddy_init`, if none ends in a panic. -/
theorem earlyMemory_ok {map : Buddy}
    (h : earlyMemory kernel hspan K fuel lastRam = some (.ok (map, s))) :
    ∃ b, startBootmem kernel hspan = .ok b ∧ (earlyMaps kernel hspan K b).faulted = false ∧
      mapMemMap kernel hspan K fuel lastRam (earlyMaps kernel hspan K b) =
        some (.ok (map, s)) := by
  unfold earlyMemory at h
  split at h
  · cases h
  rename_i b hstart
  dsimp only at h
  split at h
  · cases h
  rename_i hreached
  exact ⟨b, hstart, Bool.eq_false_iff.mpr hreached, h⟩

/-- The calls of a boot that goes through. -/
theorem bootMemory_ok (h : bootMemory kernel hspan K fuel lastRam = some (.ok c)) :
    ∃ map s buddy, earlyMemory kernel hspan K fuel lastRam = some (.ok (map, s)) ∧
      buddyInit out s.source.val.poolEnd map = .ok buddy ∧
      c = ⟨⟨(vmmUseAllocPages s).2.mode, (vmmUseAllocPages s).2.mem, buddy, false, false⟩,
        virtToPhys K.kernPml4, [], []⟩ := by
  unfold bootMemory at h
  split at h
  · cases h
  · cases h
  rename_i map s hearly
  split at h
  · cases h
  rename_i buddy hbuddy
  exact ⟨map, s, buddy, hearly, hbuddy, (Except.ok.inj (Option.some.inj h)).symm⟩

/-- What a boot that goes through leaves. -/
theorem bootMemory_booted (hK : K.InImage kernel) (hsan : Sanitized firmware out)
    (hlast : lastRam = lastRamAddr out)
    (hboot : bootMemory kernel hspan K fuel lastRam = some (.ok c)) :
    ∃ map s b, earlyMemory kernel hspan K fuel lastRam = some (.ok (map, s)) ∧
      Booted firmware out kernel K lastRam s.source.val.poolEnd c ∧
      startBootmem kernel hspan = .ok b ∧ ((earlyMaps kernel hspan K b).denied = true ∨
        ∀ p, p < hhdmSpan → HhdmContents out (c.vmm.translate (virtToPhys K.kernPml4)) p) := by
  have hsorted := hsan.tidy.sorted
  obtain ⟨map, s, buddy, hearly, hbuddy, rfl⟩ := bootMemory_ok hboot
  obtain ⟨b, hstart, -, hmap⟩ := earlyMemory_ok hearly
  obtain ⟨hreach₀, hmode₀, houtside, hdirect⟩ := earlyMaps_spec hK hsorted hstart
  obtain ⟨memMap, hcall, hfaults, rfl⟩ := mapMemMap_ok hmap
  obtain ⟨bytes, m, hmod, hbytes, hle, hround, hsize, hm⟩ := memMap_size hspan
  rw [hlast, hmod] at hcall hfaults
  have hmap : memMapBytes lastRam = bytes := hlast ▸ hbytes.symm
  have hroom : ∀ e ∈ out, e.stop + roundUp bytes pageSize ≤ 2 ^ 64 :=
    memMap_room hspan hround hm hle
  have hhigh : memMapAddr + m * pageSize ≤ 2 ^ 64 - 2 ^ 30 := by
    unfold memMapAddr
    unfold pageSize at hm ⊢
    omega
  obtain ⟨rfl, hplaced⟩ := bootmemAllocMapped_placed hK hsorted hreach₀ (by decide) hround hroom
    (.inr (by decide)) hhigh (by unfold FlagsOk; decide) (by decide) hcall
  have hreach : BootReach K hspan s :=
    .allocMapped fuel memMapAddr bytes memMapFlags hreach₀ hroom hcall
  have hmode : s.mode = .virtualOnly := hplaced.mode.trans hmode₀
  obtain ⟨hlists, hco, hnr, hfree⟩ := buddyInit_takes (ramBelow_of_span hspan) hsorted
    s.source.kernelPhys_le (PoolInv.window s.source.property).2.1
    s.source.property.aligned (congrArg (· / pageSize) hlast) hbuddy
  have hpool : kernel.kernelEnd ≤ s.source.val.poolEnd := s.source.kernelEnd_le
  rw [vmmUseAllocPages, hmode]
  refine ⟨_, s, b, hearly, ⟨readyBoot_of_handOver hspan hK hsorted hreach hlists hco (hlast ▸ hnr)
    hfree, rfl, hpool, hfree, fun f hf => ?_, ⟨_, memMapOn_of_placement hsan hplaced
      (hmap.trans_le hsize) (hmap.trans_le hle) (hmap ▸ hfaults) rfl hfree⟩, fun a ha hout => ?_⟩,
    hstart, hdirect.imp_right fun hall p hp => ?_⟩
  · obtain ⟨⟨e, he, hram, hlo, hhi⟩, hout⟩ := (hfree f).mp hf
    exact ⟨declaredRam_of_entry hsan he hram hlo hhi, offKernel_of_free hpool hout⟩
  · rw [hmap, hround] at hout
    exact ((translate_of_mem rfl a).trans (hplaced.frame a hout)).trans (houtside a ha)
  · refine hhdmContents_congr (hall p hp) ((translate_of_mem rfl _).trans (hplaced.frame _ ?_))
    unfold hhdmSpan at hp
    unfold hhdmBase memMapAddr
    omega

theorem bootMemory_readyBoot (hK : K.InImage kernel) (hsan : Sanitized firmware out)
    (hlast : lastRam = lastRamAddr out)
    (hboot : bootMemory kernel hspan K fuel lastRam = some (.ok c)) : ReadyBoot K.kernPml4 c := by
  obtain ⟨_, _, _, _, hbooted, _⟩ := bootMemory_booted hK hsan hlast hboot
  exact hbooted.ready

/-- **A boot that goes through** ends in `VMM_READY` as the runs over the buddy
allocator start from it: the allocator has the frames of RAM outside the kernel
and what bootmem has handed out by then, the memory map lies on frames of its
own, and outside the direct map and the memory map nothing but the image is
mapped. The direct map
shows all of the table unless a page table could not be had. -/
theorem bootMemory_ready (kernel : KernelImage) (K : KernelTables) (hK : K.InImage kernel)
    (firmware out : List E820Entry) (lastRam : Nat) (hmin : 2 ≤ firmware.length)
    (hmax : firmware.length ≤ 256) (hbound : ∀ e ∈ firmware, e.addr + e.size ≤ 2 ^ 52)
    (he820 : e820Init firmware = .ok (out, lastRam)) (hspan : ∀ e ∈ out, e.stop ≤ hhdmSpan) :
    (∃ fuel res, bootMemory kernel hspan K fuel lastRam = some res) ∧
    ∀ fuel c, bootMemory kernel hspan K fuel lastRam = some (.ok c) →
      ∃ map s b, earlyMemory kernel hspan K fuel lastRam = some (.ok (map, s)) ∧
        Booted firmware out kernel K lastRam s.source.val.poolEnd c ∧
        startBootmem kernel hspan = .ok b ∧ ((earlyMaps kernel hspan K b).denied = true ∨
          ∀ p, p < hhdmSpan → HhdmContents out (c.vmm.translate (virtToPhys K.kernPml4)) p) := by
  obtain ⟨hsan, hlast⟩ := e820Init_sanitized hmin hmax hbound he820
  exact ⟨bootMemory_ends hK hsan.tidy.sorted hlast,
    fun _ _ hboot => bootMemory_booted hK hsan hlast hboot⟩

/-- A machine with 64 KiB of low RAM and 256 KiB from `KERNEL_PHYS`, as its
firmware tells it, and the sanitized table. -/
def smallMachine : List E820Entry := [⟨0x200000, 0x40000, 1⟩, ⟨0, 0x10000, 1⟩]

def smallRam : List E820Entry := [⟨0, 0x10000, 1⟩, ⟨0x200000, 0x40000, 1⟩]

theorem smallRam_span : ∀ e ∈ smallRam, e.stop ≤ hhdmSpan := by decide

/-- A boot that comes to its end. -/
def Goes : Option (Except String (Client Buddy)) → Bool
  | some (.ok _) => true
  | _ => false

theorem smallMachine_goes :
    ∃ c, bootMemory smallKernel smallRam_span firstTables 60 0x240000 = some (.ok c) := by
  have hgoes : Goes (bootMemory smallKernel smallRam_span firstTables 60 0x240000) = true := by
    decide +kernel
  generalize bootMemory smallKernel smallRam_span firstTables 60 0x240000 = out at hgoes
  unfold Goes at hgoes
  split at hgoes
  · rename_i c
    exact ⟨c, rfl⟩
  · cases hgoes

theorem smallMachine_e820 : e820Init smallMachine = .ok (smallRam, 0x240000) := by decide +kernel

/-- The boot of the small machine, as runs over the buddy allocator start from it. -/
theorem smallMachine_ready {c : Client Buddy}
    (h : bootMemory smallKernel smallRam_span firstTables 60 0x240000 = some (.ok c)) :
    ReadyBoot firstTables.kernPml4 c := by
  obtain ⟨hsan, hlast⟩ := e820Init_sanitized (by decide) (by decide) (by decide) smallMachine_e820
  exact bootMemory_readyBoot smallKernel_tables hsan hlast h

theorem bootMemory_ready_small : ∃ c map s,
    bootMemory smallKernel smallRam_span firstTables 60 0x240000 = some (.ok c) ∧
    earlyMemory smallKernel smallRam_span firstTables 60 0x240000 = some (.ok (map, s)) ∧
    Booted smallMachine smallRam smallKernel firstTables 0x240000 s.source.val.poolEnd c := by
  obtain ⟨c, hcall⟩ := smallMachine_goes
  obtain ⟨map, s, -, hearly, hbooted, -⟩ := (bootMemory_ready smallKernel firstTables
    smallKernel_tables smallMachine smallRam 0x240000 (by decide) (by decide) (by decide)
    smallMachine_e820 smallRam_span).2 60 c hcall
  exact ⟨c, map, s, hcall, hearly, hbooted⟩

end Ready

end DevOS.Kernel
