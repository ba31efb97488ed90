import DevOS.Arch.Bootmem
import DevOS.Arch.Pte
import Mathlib.Data.List.FinRange

/-!
# Page tables — the program

`arch/x86/vmm.c`. Table pages are kept by physical address: a pointer to a
table is a virtual address and reads or writes the page that `virt_to_phys`
gives for it. `__alloc_table` is a parameter (`TableSource`): which allocator
stands behind it depends on the VMM's state, and it returns a pointer to a
page nobody uses or `NULL`. An index is masked to 9 bits in every call, so it
is a `Fin 512` and `get_or_create_table`'s range check never fires. In
`VMM_IDENTITY` a table beyond the identity map faults when it is cleared, which
a flag of the state records. That a table is shown by the direct map later on is
left to the modules that know what it shows. Flag words are 64-bit; addresses
and sizes are naturals, reduced modulo `2 ^ 64` where the C expression can leave
64 bits.
-/

namespace DevOS.Arch

/-- `enum state`. -/
inductive VmmMode where
  | early
  | identity
  | transition
  | virtualOnly
  | ready
deriving DecidableEq, Repr

/-- `phys_to_virt`: through the direct map once it is there. -/
def physToVirt (mode : VmmMode) (phys : Nat) : Nat :=
  match mode with
  | .early | .identity => phys
  | .transition | .virtualOnly | .ready => (phys + hhdmBase) % 2 ^ 64

/-- The panic of `__isr_dispatch`, for a fault of the kernel. -/
def exceptionPanic : String := "Unhandled exception with vector ID %d\n"

/-- What stands behind `__alloc_table`: `alloc` gives the pointer (`none` for
`NULL`), `avail` the pages that may still be handed out. A page is handed out
at most once. -/
structure TableSource (σ : Type) where
  alloc : σ → Option Nat × σ
  avail : σ → Nat → Prop
  alloc_avail : ∀ s ptr s', alloc s = (some ptr, s') →
    avail s (virtToPhys ptr) ∧ ¬ avail s' (virtToPhys ptr)
  avail_of_alloc : ∀ s p, avail (alloc s).2 p → avail s p
  avail_page : ∀ s p, avail s p → pageSize ∣ p ∧ p < hhdmLimit

/-- The VMM's state, the words of all table pages, and the table source. Two
ghosts: whether an allocation has failed (`denied`), and whether a table was
cleared where nothing is mapped (`faulted`). After such a fault the machine is in
the panic of `__isr_dispatch`, and what the model computes on from there is no
state of the machine. -/
structure Vmm (σ : Type) where
  mode : VmmMode
  mem : Nat → Fin 512 → Word
  source : σ
  denied : Bool
  faulted : Bool

section

variable {σ : Type} (A : TableSource σ)

/-- `table[idx]` through a pointer. -/
def Vmm.read (s : Vmm σ) (table : Nat) (idx : Fin 512) : Word := s.mem (virtToPhys table) idx

/-- `table[idx] = w`. -/
def Vmm.write (s : Vmm σ) (table : Nat) (idx : Fin 512) (w : Word) : Vmm σ :=
  { s with mem := fun t i => if t = virtToPhys table ∧ i = idx then w else s.mem t i }

/-- An access to a table faults: until there is a direct map nothing is mapped
between the end of the identity map and `HHDM_BASE`. -/
def outOfReach (mode : VmmMode) (table : Nat) : Bool :=
  decide (mode = .identity ∧ lowMapEnd ≤ table ∧ table < hhdmBase)

theorem outOfReach_of_ne {mode : VmmMode} (h : mode ≠ .identity) (table : Nat) :
    outOfReach mode table = false :=
  decide_eq_false fun hout => h hout.1

/-- `memset(table, 0, PAGE_SIZE)`: the first access to every table that is handed
out. -/
def Vmm.clear (s : Vmm σ) (table : Nat) : Vmm σ :=
  { s with
    mem := fun t i => if t = virtToPhys table then 0 else s.mem t i
    faulted := s.faulted || outOfReach s.mode table }

/-- `__alloc_table()`. -/
def allocTable (s : Vmm σ) : Option Nat × Vmm σ :=
  let (ptr, source) := A.alloc s.source
  (ptr, { s with source := source, denied := s.denied || ptr.isNone })

/-- `get_or_create_table(table, idx)`; `none` for `NULL`. -/
def getOrCreateTable (s : Vmm σ) (table : Nat) (idx : Fin 512) : Option Nat × Vmm σ :=
  if s.mode = .early then (none, s)
  else
    let entry := s.read table idx
    if present entry then
      if pse entry then (none, s) else (some (physToVirt s.mode (addrOf entry)), s)
    else
      match allocTable A s with
      | (none, s) => (none, s)
      | (some subTable, s) =>
          let s := s.clear subTable
          let link := BitVec.ofNat 64 (virtToPhys subTable) ||| ptPresent ||| ptWritable ||| ptUser
          (some subTable, s.write table idx link)

instance neZero_entries : NeZero 512 := ⟨by decide⟩

/-- The index into the table of each level. -/
def pml4Idx (virt : Nat) : Fin 512 := Fin.ofNat 512 (virt / 2 ^ 39)
def pdptIdx (virt : Nat) : Fin 512 := Fin.ofNat 512 (virt / 2 ^ 30)
def pdIdx (virt : Nat) : Fin 512 := Fin.ofNat 512 (virt / 2 ^ 21)
def ptIdx (virt : Nat) : Fin 512 := Fin.ofNat 512 (virt / 2 ^ 12)

/-- `get_or_create_pd(pml4, virt)`. -/
def getOrCreatePd (s : Vmm σ) (pml4 virt : Nat) : Option Nat × Vmm σ :=
  match getOrCreateTable A s pml4 (pml4Idx virt) with
  | (none, s) => (none, s)
  | (some pdpt, s) => getOrCreateTable A s pdpt (pdptIdx virt)

/-- `get_or_create_pt(pml4, virt)`: the walk of `get_or_create_pd` and one
level more. -/
def getOrCreatePt (s : Vmm σ) (pml4 virt : Nat) : Option Nat × Vmm σ :=
  match getOrCreatePd A s pml4 virt with
  | (none, s) => (none, s)
  | (some pd, s) => getOrCreateTable A s pd (pdIdx virt)

/-- `set_page`: 0 or -1. -/
def setPage (s : Vmm σ) (pml4 virt phys : Nat) (flags : Word) (overwrite : Bool) : Int × Vmm σ :=
  if virt % pageSize ≠ 0 then (-1, s)
  else if phys % pageSize ≠ 0 then (-1, s)
  else
    match getOrCreatePt A s pml4 virt with
    | (none, s) => (-1, s)
    | (some pt, s) =>
        if !overwrite && present (s.read pt (ptIdx virt)) then (-1, s)
        else (0, s.write pt (ptIdx virt) ((BitVec.ofNat 64 phys &&& ~~~flagsMask) ||| flags))

/-- `set_large_page`: 0 or -1. -/
def setLargePage (s : Vmm σ) (pml4 virt phys : Nat) (flags : Word) (overwrite : Bool) :
    Int × Vmm σ :=
  if virt % largePageSize ≠ 0 then (-1, s)
  else if phys % largePageSize ≠ 0 then (-1, s)
  else
    match getOrCreatePd A s pml4 virt with
    | (none, s) => (-1, s)
    | (some pd, s) =>
        if !overwrite && present (s.read pd (pdIdx virt)) then (-1, s)
        else (0, s.write pd (pdIdx virt)
          ((BitVec.ofNat 64 phys &&& ~~~largeFlagsMask) ||| flags ||| ptPse))

/-- One member of the two loops: set a page, count it if it fails. -/
def setOne (set : Vmm σ → Nat → Nat → Int × Vmm σ) (step virt phys : Nat)
    (acc : Nat × Vmm σ) (k : Nat) : Nat × Vmm σ :=
  match set acc.2 ((virt + k * step) % 2 ^ 64) ((phys + k * step) % 2 ^ 64) with
  | (code, s) => (if code ≠ 0 then acc.1 + step else acc.1, s)

/-- The loop `for (i = 0; i < size; i += step)` of both `set_pages` and
`set_large_pages`. -/
def setEach (set : Vmm σ → Nat → Nat → Int × Vmm σ) (step : Nat) (s : Vmm σ)
    (virt phys size : Nat) : Nat × Vmm σ :=
  if virt % step ≠ 0 then (size, s)
  else if phys % step ≠ 0 then (size, s)
  else if size % step ≠ 0 then (size, s)
  else (List.range (size / step)).foldl (setOne set step virt phys) (0, s)

/-- `set_pages`: the bytes that could not be mapped. -/
def setPages (s : Vmm σ) (pml4 virt phys size : Nat) (flags : Word) (overwrite : Bool) :
    Nat × Vmm σ :=
  setEach (fun s v p => setPage A s pml4 v p flags overwrite) pageSize s virt phys size

/-- `set_large_pages`. -/
def setLargePages (s : Vmm σ) (pml4 virt phys size : Nat) (flags : Word) (overwrite : Bool) :
    Nat × Vmm σ :=
  setEach (fun s v p => setLargePage A s pml4 v p flags overwrite) largePageSize s virt phys size

/-- The `offset` by which an unaligned start is moved up. -/
def headOffset (virt : Nat) : Nat :=
  if virt % pageSize ≠ 0 then (roundUp virt pageSize + 2 ^ 64 - virt) % 2 ^ 64 else 0

/-- The `offset` by which an unaligned end is moved down. -/
def tailOffset (virtEnd : Nat) : Nat :=
  if virtEnd % pageSize ≠ 0 then virtEnd - roundDown virtEnd pageSize else 0

/-- The three parts of a page-aligned range that `set_range` sets: 4 KiB pages
up to the first 2 MiB boundary, large pages, 4 KiB pages after the last. -/
structure RangeCut where
  prePadSize : Nat
  largeVirt : Nat
  largePhys : Nat
  largeSize : Nat
  posPadVirt : Nat
  posPadPhys : Nat
  posPadSize : Nat

def rangeCut (virt phys virtEnd : Nat) : RangeCut :=
  let largeVirt := roundUp virt largePageSize
  let largePhys := roundUp phys largePageSize
  let largeVirtEnd := roundDown virtEnd largePageSize
  let largeSize := if largeVirtEnd > largeVirt then largeVirtEnd - largeVirt else 0
  let prePadEnd := if largeVirt < virtEnd then largeVirt else virtEnd
  let posPadVirt := (largeVirt + largeSize) % 2 ^ 64
  { prePadSize := if prePadEnd > virt then prePadEnd - virt else 0
    largeVirt := largeVirt
    largePhys := largePhys
    largeSize := largeSize
    posPadVirt := posPadVirt
    posPadPhys := (largePhys + largeSize) % 2 ^ 64
    posPadSize := if virtEnd > posPadVirt then virtEnd - posPadVirt else 0 }

/-- `if (size) failed += set(...)`. -/
def addFailed (size : Nat) (set : Vmm σ → Nat × Vmm σ) (acc : Nat × Vmm σ) : Nat × Vmm σ :=
  if size ≠ 0 then
    match set acc.2 with
    | (f, s) => (acc.1 + f, s)
  else acc

/-- `set_range`: the bytes of the range that were not mapped. -/
def setRange (s : Vmm σ) (pml4 virt phys size : Nat) (flags : Word) (overwrite : Bool) :
    Nat × Vmm σ :=
  if virt % largePageSize ≠ phys % largePageSize then (size, s)
  else
    let head := headOffset virt
    let tail := tailOffset ((virt + size) % 2 ^ 64)
    let virtEnd := (virt + size) % 2 ^ 64 - tail
    let virt := (virt + head) % 2 ^ 64
    let phys := (phys + head) % 2 ^ 64
    if virt ≥ virtEnd then (size, s)
    else
      let cut := rangeCut virt phys virtEnd
      let acc := addFailed cut.prePadSize
        (fun s => setPages A s pml4 virt phys cut.prePadSize flags overwrite) (head + tail, s)
      let acc := addFailed cut.largeSize
        (fun s => setLargePages A s pml4 cut.largeVirt cut.largePhys cut.largeSize flags overwrite)
        acc
      addFailed cut.posPadSize
        (fun s => setPages A s pml4 cut.posPadVirt cut.posPadPhys cut.posPadSize flags overwrite)
        acc

/-- `SIZE_MAX`. -/
def sizeMax : Nat := 2 ^ 64 - 1

/-- `KERN_PML4`. -/
def kernPml4Token : Nat := 0xFFFFFFFFFFFFFFFF

/-- `vmm_map`, given the address of the static `kern_pml4`. -/
def vmmMap (kernPml4 : Nat) (s : Vmm σ) (pml4 virt phys size : Nat) (flags : Word) : Nat × Vmm σ :=
  let pml4 := if pml4 = kernPml4Token then kernPml4 else pml4
  if pml4 = 0 then (sizeMax, s)
  else if pml4 % 0x1000 ≠ 0 then (sizeMax, s)
  else if virt % largePageSize ≠ phys % largePageSize then
    if virt % pageSize ≠ phys % pageSize then (size, s)
    else
      let head := headOffset virt
      let tail := tailOffset ((virt + size) % 2 ^ 64)
      let virtEnd := (virt + size) % 2 ^ 64 - tail
      let virt := (virt + head) % 2 ^ 64
      let phys := (phys + head) % 2 ^ 64
      if virt ≥ virtEnd then (size, s)
      else
        let (failed, s) := setPages A s pml4 virt phys (virtEnd - virt) flags false
        (head + tail + failed, s)
  else setRange A s pml4 virt phys size flags false

/-! ## The kernel's own tables -/

/-- The addresses of the static tables of `vmm.c`: five pages of the kernel
image. -/
structure KernelTables where
  kernPml4 : Nat
  pdptLow : Nat
  pdLow : Nat
  pdptKern : Nat
  pdKern : Nat
  image : ∀ t ∈ [kernPml4, pdptLow, pdLow, pdptKern, pdKern],
    pageSize ∣ t ∧ kernelVmaStart ≤ t ∧ t < kernelVmaStart + 0x200000
  nodup : [kernPml4, pdptLow, pdLow, pdptKern, pdKern].Nodup

variable (K : KernelTables)

/-- `virt_to_phys(table) | PT_PRESENT | PT_WRITABLE`. -/
def kernelLink (table : Nat) : Word :=
  BitVec.ofNat 64 (virtToPhys table) ||| ptPresent ||| ptWritable

/-- `pd_low[i]`: 2 MiB of the identity map. -/
def lowWord (i : Fin 512) : Word :=
  BitVec.ofNat 64 (i.val * 0x200000) ||| ptPresent ||| ptWritable ||| ptPse

/-- The kernel image's entry of `pd_kern`. -/
def kernWord : Word :=
  BitVec.ofNat 64 kernelPhys ||| ptPresent ||| ptWritable ||| ptPse ||| ptGlobal

/-- `map_low_identity()`. -/
def mapLowIdentity (s : Vmm σ) : Vmm σ :=
  let s := s.write K.kernPml4 0 (kernelLink K.pdptLow)
  let s := s.write K.pdptLow 0 (kernelLink K.pdLow)
  let s := (List.finRange 512).foldl (fun s i => s.write K.pdLow i (lowWord i)) s
  { s with mode := .identity }

/-- `map_kernel()`. -/
def mapKernel (s : Vmm σ) : Vmm σ :=
  let s := s.write K.kernPml4 (pml4Idx kernelVmaStart) (kernelLink K.pdptKern)
  let s := s.write K.pdptKern (pdptIdx kernelVmaStart) (kernelLink K.pdKern)
  s.write K.pdKern (pdIdx kernelVmaStart) kernWord

/-- `vmm_init()` on zeroed tables. -/
def vmmInit (source : σ) : Vmm σ :=
  mapKernel K (mapLowIdentity K ⟨.early, fun _ _ => 0, source, false, false⟩)

def e820TypeAcpi : Nat := 3
def e820TypeNvs : Nat := 4

/-- The flags `vmm_map_hhdm` chooses for an entry. -/
def hhdmFlags (type : Nat) : Word :=
  let flags := ptPresent ||| ptGlobal ||| ptNx
  if type = e820TypeRam then flags ||| ptWritable
  else if type = e820TypeNvs ∨ type = e820TypeAcpi then flags
  else ptPcd ||| ptPwt

/-- The flags of the VGA window. -/
def vgaFlags : Word := ptPresent ||| ptWritable ||| ptGlobal ||| ptNx ||| ptPcd ||| ptPwt

/-- One round of the loop of `vmm_map_hhdm`, on `failed` and the tables. -/
def mapHhdmEntry (acc : Nat × Vmm σ) (e : E820Entry) : Nat × Vmm σ :=
  let (f, s) := setRange A acc.2 K.kernPml4 ((hhdmBase + e.addr) % 2 ^ 64) e.addr e.size
    (hhdmFlags e.type) false
  ((acc.1 + f) % 2 ^ 64, s)

/-- `vmm_map_hhdm()`. -/
def vmmMapHhdm (s : Vmm σ) (table : List E820Entry) : Int × Vmm σ :=
  if s.mode ≠ .identity then (-1, s)
  else
    let (failed, s) := table.foldl (mapHhdmEntry A K) (0, s)
    let (_, s) := setRange A s K.kernPml4 (hhdmBase + 0xA0000) 0xA0000 0x20000 vgaFlags false
    (if failed ≠ 0 then -1 else 0, { s with mode := .transition })

end

end DevOS.Arch
