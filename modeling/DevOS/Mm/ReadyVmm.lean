import DevOS.Arch.VmmUser
import DevOS.Arch.VmmTouch
import DevOS.Mm.Buddy
import Mathlib.Data.Nat.ModEq

/-!
# Page tables — `VMM_READY` over the buddy allocator

`vmm.c` with the pointers of the source: `__alloc_table` passes what
`alloc_pages` answers through `page_to_hhdm` without a check, and a write to an
address that is not canonical is a fault. The functions that ask for a table are
written out again over that. Where a table source hands out what `alloc_pages`
does, they do what the model of `vmm.c` does, and fault where it is denied a
table.
-/

namespace DevOS.Mm

open DevOS.Lib DevOS.Arch

/-! ## Pages and addresses -/

/-- `MEM_MAP_ADDR`. -/
def memMapAddr : Nat := 0xFFFFEA0000000000

/-- `sizeof(struct page)`. -/
def pageStructSize : Nat := 24

/-- The address of a page record; `NULL` is 0. -/
def pagePtr : Option Nat → Nat
  | none => 0
  | some pfn => (memMapAddr + pfn * pageStructSize) % 2 ^ 64

/-- `page - mem_map`. C defines it for pages of the map only; for other
addresses a compiler divides, or multiplies by the inverse of the size. -/
structure PageDiff where
  pfn : Nat → Nat
  spec : ∀ page, pfn page = (page + 2 ^ 64 - memMapAddr) % 2 ^ 64 / pageStructSize ∨
    pfn page * pageStructSize % 2 ^ 64 = (page + 2 ^ 64 - memMapAddr) % 2 ^ 64

/-- Multiplied by the inverse of 3, the byte difference gives the page's
offset. -/
theorem pageToHhdm_of_mul {q d : Nat} (h : q * pageStructSize % 2 ^ 64 = d) :
    pageToHhdm q = (d * (512 * 0xAAAAAAAAAAAAAAAB) + hhdmBase) % 2 ^ 64 := by
  have hinv : q * pageStructSize * (512 * 0xAAAAAAAAAAAAAAAB) =
      q * pageSize + 2 ^ 64 * (2 * q * pageSize) := by
    unfold pageStructSize pageSize
    omega
  have hmod := ((Nat.mod_modEq (q * pageStructSize) (2 ^ 64)).symm.mul_right
    (512 * 0xAAAAAAAAAAAAAAAB)).add_right hhdmBase
  rw [h, hinv] at hmod
  rw [pageToHhdm, ← hmod, Nat.add_right_comm, Nat.add_mul_mod_self_left]

/-- A page of the map is told from its record's address. -/
theorem PageDiff.page (D : PageDiff) {p : Nat} (hp : p * pageSize < hhdmLimit) :
    pageToHhdm (D.pfn (pagePtr (some p))) = pageToHhdm p := by
  have hl : hhdmLimit = 0x777F80000000 := rfl
  have hm : memMapAddr = 0xFFFFEA0000000000 := rfl
  have hsmall : p * pageStructSize < 2 ^ 64 - memMapAddr := by
    unfold pageSize at hp
    unfold pageStructSize
    omega
  have hptr : pagePtr (some p) = memMapAddr + p * pageStructSize := Nat.mod_eq_of_lt (by omega)
  have hdiff : (pagePtr (some p) + 2 ^ 64 - memMapAddr) % 2 ^ 64 = p * pageStructSize := by
    rw [hptr]
    omega
  rcases D.spec (pagePtr (some p)) with hdiv | hmul
  · rw [hdiv, hdiff, Nat.mul_div_cancel _ (by decide)]
  · rw [hdiff] at hmul
    have hself : p * pageStructSize % 2 ^ 64 = p * pageStructSize :=
      Nat.mod_eq_of_lt (by omega)
    rw [pageToHhdm_of_mul hmul, ← pageToHhdm_of_mul hself]

/-- The two addresses that `page_to_hhdm(NULL)` can be. -/
theorem PageDiff.null (D : PageDiff) : pageToHhdm (D.pfn 0) = 0x000E332AAAAAA000 ∨
    pageToHhdm (D.pfn 0) = 0x5563888000000000 := by
  have hdiff : (0 + 2 ^ 64 - memMapAddr) % 2 ^ 64 = 0x160000000000 := by decide
  rcases D.spec 0 with hdiv | hmul
  · left
    rw [hdiv, hdiff]
    decide
  · right
    rw [pageToHhdm_of_mul hmul, hdiff]
    decide

theorem PageDiff.null_ne_zero (D : PageDiff) : pageToHhdm (D.pfn 0) ≠ 0 := by
  rcases D.null with h | h
  · rw [h]
    decide
  · rw [h]
    decide

theorem PageDiff.null_not_canonical (D : PageDiff) : ¬ Canonical (pageToHhdm (D.pfn 0)) := by
  rcases D.null with h | h
  · rw [h]
    decide
  · rw [h]
    decide

namespace Ready

/-! ## `vmm.c` in `VMM_READY` -/

variable (D : PageDiff)

/-- `__alloc_table()`. -/
def allocTable (s : Vmm Buddy) : Except String (Nat × Vmm Buddy) := do
  let (page, b) ← allocPages s.source 0
  return (pageToHhdm (D.pfn (pagePtr page)), { s with source := b })

/-- `memset(table, 0, PAGE_SIZE)`: a general protection fault unless the
address is canonical. -/
def memsetTable (s : Vmm Buddy) (table : Nat) : Except String (Vmm Buddy) :=
  if Canonical table then .ok (s.clear table) else .error exceptionPanic

/-- `get_or_create_table(table, idx)`. -/
def getOrCreateTable (s : Vmm Buddy) (table : Nat) (idx : Fin 512) :
    Except String (Option Nat × Vmm Buddy) :=
  if s.mode = .early then .ok (none, s)
  else
    let entry := s.read table idx
    if present entry then
      if pse entry then .ok (none, s) else .ok (some (physToVirt s.mode (addrOf entry)), s)
    else do
      let (subTable, s) ← allocTable D s
      if subTable = 0 then return (none, s)
      else
        let s ← memsetTable s subTable
        let link := BitVec.ofNat 64 (virtToPhys subTable) ||| ptPresent ||| ptWritable ||| ptUser
        return (some subTable, s.write table idx link)

/-- `get_or_create_pd(pml4, virt)`. -/
def getOrCreatePd (s : Vmm Buddy) (pml4 virt : Nat) : Except String (Option Nat × Vmm Buddy) := do
  match ← getOrCreateTable D s pml4 (pml4Idx virt) with
  | (none, s) => return (none, s)
  | (some pdpt, s) => getOrCreateTable D s pdpt (pdptIdx virt)

/-- `get_or_create_pt(pml4, virt)`. -/
def getOrCreatePt (s : Vmm Buddy) (pml4 virt : Nat) : Except String (Option Nat × Vmm Buddy) := do
  match ← getOrCreatePd D s pml4 virt with
  | (none, s) => return (none, s)
  | (some pd, s) => getOrCreateTable D s pd (pdIdx virt)

/-- `set_page`, never overwriting. -/
def setPage (pml4 : Nat) (flags : Word) (s : Vmm Buddy) (virt phys : Nat) :
    Except String (Int × Vmm Buddy) :=
  if virt % pageSize ≠ 0 then .ok (-1, s)
  else if phys % pageSize ≠ 0 then .ok (-1, s)
  else do
    match ← getOrCreatePt D s pml4 virt with
    | (none, s) => return (-1, s)
    | (some pt, s) =>
        if present (s.read pt (ptIdx virt)) then return (-1, s)
        else
          let entry := (BitVec.ofNat 64 phys &&& ~~~flagsMask) ||| flags
          return (0, s.write pt (ptIdx virt) entry)

/-- `set_large_page`, never overwriting. -/
def setLargePage (pml4 : Nat) (flags : Word) (s : Vmm Buddy) (virt phys : Nat) :
    Except String (Int × Vmm Buddy) :=
  if virt % largePageSize ≠ 0 then .ok (-1, s)
  else if phys % largePageSize ≠ 0 then .ok (-1, s)
  else do
    match ← getOrCreatePd D s pml4 virt with
    | (none, s) => return (-1, s)
    | (some pd, s) =>
        if present (s.read pd (pdIdx virt)) then return (-1, s)
        else
          let entry := (BitVec.ofNat 64 phys &&& ~~~largeFlagsMask) ||| flags ||| ptPse
          return (0, s.write pd (pdIdx virt) entry)

/-- One round of the loops of `set_pages` and `set_large_pages`. -/
def setOne (set : Vmm Buddy → Nat → Nat → Except String (Int × Vmm Buddy)) (step virt phys : Nat)
    (acc : Nat × Vmm Buddy) (k : Nat) : Except String (Nat × Vmm Buddy) := do
  let (code, s) ← set acc.2 ((virt + k * step) % 2 ^ 64) ((phys + k * step) % 2 ^ 64)
  return (if code ≠ 0 then acc.1 + step else acc.1, s)

/-- `set_pages` and `set_large_pages`. -/
def setEach (set : Vmm Buddy → Nat → Nat → Except String (Int × Vmm Buddy)) (step : Nat)
    (s : Vmm Buddy) (virt phys size : Nat) : Except String (Nat × Vmm Buddy) :=
  if virt % step ≠ 0 then .ok (size, s)
  else if phys % step ≠ 0 then .ok (size, s)
  else if size % step ≠ 0 then .ok (size, s)
  else (List.range (size / step)).foldlM (setOne set step virt phys) (0, s)

/-- `if (size) failed += set(...)`. -/
def addFailed (size : Nat) (set : Vmm Buddy → Except String (Nat × Vmm Buddy))
    (acc : Nat × Vmm Buddy) : Except String (Nat × Vmm Buddy) :=
  if size ≠ 0 then do
    let (f, s) ← set acc.2
    return (acc.1 + f, s)
  else .ok acc

/-- `set_range`. -/
def setRange (s : Vmm Buddy) (pml4 virt phys size : Nat) (flags : Word) :
    Except String (Nat × Vmm Buddy) :=
  if virt % largePageSize ≠ phys % largePageSize then .ok (size, s)
  else
    let head := headOffset virt
    let tail := tailOffset ((virt + size) % 2 ^ 64)
    let virtEnd := (virt + size) % 2 ^ 64 - tail
    let virt := (virt + head) % 2 ^ 64
    let phys := (phys + head) % 2 ^ 64
    if virt ≥ virtEnd then .ok (size, s)
    else do
      let cut := rangeCut virt phys virtEnd
      let acc ← addFailed cut.prePadSize
        (fun s => setEach (setPage D pml4 flags) pageSize s virt phys cut.prePadSize)
        (head + tail, s)
      let acc ← addFailed cut.largeSize
        (fun s => setEach (setLargePage D pml4 flags) largePageSize s cut.largeVirt cut.largePhys
          cut.largeSize) acc
      addFailed cut.posPadSize
        (fun s => setEach (setPage D pml4 flags) pageSize s cut.posPadVirt cut.posPadPhys
          cut.posPadSize) acc

/-- `vmm_map`. -/
def vmmMap (kernPml4 : Nat) (s : Vmm Buddy) (pml4 virt phys size : Nat) (flags : Word) :
    Except String (Nat × Vmm Buddy) :=
  let pml4 := if pml4 = kernPml4Token then kernPml4 else pml4
  if pml4 = 0 then .ok (sizeMax, s)
  else if pml4 % 0x1000 ≠ 0 then .ok (sizeMax, s)
  else if virt % largePageSize ≠ phys % largePageSize then
    if virt % pageSize ≠ phys % pageSize then .ok (size, s)
    else
      let head := headOffset virt
      let tail := tailOffset ((virt + size) % 2 ^ 64)
      let virtEnd := (virt + size) % 2 ^ 64 - tail
      let virt := (virt + head) % 2 ^ 64
      let phys := (phys + head) % 2 ^ 64
      if virt ≥ virtEnd then .ok (size, s)
      else do
        let (failed, s) ← setEach (setPage D pml4 flags) pageSize s virt phys (virtEnd - virt)
        return (head + tail + failed, s)
  else setRange D s pml4 virt phys size flags

/-- `vmm_create_user_pml4()`. -/
def vmmCreateUserPml4 (kernPml4 : Nat) (s : Vmm Buddy) :
    Except String (Option Nat × Vmm Buddy) := do
  let (pml4, s) ← allocTable D s
  if pml4 = 0 then return (none, s)
  else
    let s ← memsetTable s pml4
    return (some pml4, upperEntries.foldl (fun s i => s.write pml4 i (s.read kernPml4 i)) s)

/-- `free_pages(hhdm_to_page(addr))`. -/
def freeAt (s : Vmm Buddy) (addr : Nat) : Except String (Vmm Buddy) := do
  let b ← freePages s.source (hhdmToPage addr)
  return { s with source := b }

/-- One of the four nested loops of the teardown, as in `destroyTable` of the
model. -/
def destroyTable (entries : List (Fin 512)) (body : Vmm Buddy → Word → Except String (Vmm Buddy))
    (s : Vmm Buddy) (table : Nat) : Except String (Vmm Buddy) := do
  let s ← runFrom
    (fun s i => if present (s.read table i) then body s (s.read table i) else .ok s) s entries
  freeAt s table

/-- The loop over a page table. -/
def destroyPt : Vmm Buddy → Nat → Except String (Vmm Buddy) :=
  destroyTable (List.finRange 512) fun s entry => freeAt s (physToVirt s.mode (addrOf entry))

/-- The loop over a page directory. -/
def destroyPd : Vmm Buddy → Nat → Except String (Vmm Buddy) :=
  destroyTable (List.finRange 512) fun s entry =>
    if pse entry then
      let addr := physToVirt s.mode (addrOf entry)
      if addr % 0x200000 ≠ 0 then .error corruptedPanic else freeAt s addr
    else destroyPt s (physToVirt s.mode (addrOf entry))

/-- The loop over a PDPT. -/
def destroyPdpt : Vmm Buddy → Nat → Except String (Vmm Buddy) :=
  destroyTable (List.finRange 512) fun s entry => destroyPd s (physToVirt s.mode (addrOf entry))

/-- `vmm_destroy_user_pml4(pml4)` with CR3 at `cr3`. -/
def vmmDestroyUserPml4 (kernPml4 : Nat) (s : Vmm Buddy) (cr3 pml4 : Nat) :
    Except String (Int × Nat × Vmm Buddy) :=
  if pml4 = kernPml4 then .ok (-1, cr3, s)
  else do
    let cr3 :=
      if physToVirt s.mode (cr3 &&& cr3AddrMask) = pml4 then virtToPhys kernPml4 else cr3
    let s ← destroyTable lowerEntries
      (fun s entry => destroyPdpt s (physToVirt s.mode (addrOf entry))) s pml4
    return (0, cr3, s)

end Ready

/-! ## Following the model -/

theorem ok_bind {ε α β : Type} (a : α) (f : α → Except ε β) :
    ((.ok a : Except ε α) >>= f) = f a := rfl

section Simulation

variable {τ α β : Type}

/-- The VMM of the model over the allocator's own state. -/
def rawVmm (val : τ → Buddy) (s : Vmm τ) : Vmm Buddy :=
  { mode := s.mode, mem := s.mem, source := val s.source, denied := s.denied,
    faulted := s.faulted }

/-- A table source that hands out what `alloc_pages(0)` does, in states with
`Good`. -/
structure Backed (D : PageDiff) (A : TableSource τ) (val : τ → Buddy) (Good : τ → Prop) :
    Prop where
  none : ∀ a, Good a → (A.alloc a).1 = none → allocPages (val a) 0 = .ok (none, val (A.alloc a).2)
  some : ∀ a ptr, Good a → (A.alloc a).1 = some ptr → Good (A.alloc a).2 ∧
    ptr ≠ 0 ∧ Canonical ptr ∧ ∃ p, allocPages (val a) 0 = .ok (some p, val (A.alloc a).2) ∧
      pageToHhdm (D.pfn (pagePtr (some p))) = ptr

/-- Nothing was denied so far. -/
structure Granted (Good : τ → Prop) (s : Vmm τ) : Prop where
  good : Good s.source
  granted : s.denied = false

/-- What the code returns against the model: the model's result, or a fault
where the model was denied a table. -/
structure Follows (val : τ → Buddy) (Good : τ → Prop) (r : Except String (α × Vmm Buddy))
    (m : α × Vmm τ) : Prop where
  fault : m.2.denied = true → r = .error exceptionPanic
  ok : m.2.denied = false → r = .ok (m.1, rawVmm val m.2) ∧ Good m.2.source

variable {D : PageDiff} {A : TableSource τ} {val : τ → Buddy} {Good : τ → Prop} {s : Vmm τ}

theorem Follows.pure {x : α} (h : Granted Good s) :
    Follows val Good (.ok (x, rawVmm val s)) (x, s) :=
  ⟨fun hd => absurd (h.granted.symm.trans hd) Bool.false_ne_true, fun _ => ⟨rfl, h.good⟩⟩

/-- One call after another. -/
theorem Follows.bind {r : Except String (α × Vmm Buddy)} {m : α × Vmm τ}
    {f : α × Vmm Buddy → Except String (β × Vmm Buddy)} {out : β × Vmm τ}
    (h : Follows val Good r m)
    (hnext : Granted Good m.2 → Follows val Good (f (m.1, rawVmm val m.2)) out)
    (hlast : m.2.denied = true → out.2.denied = true) : Follows val Good (r >>= f) out := by
  cases hd : m.2.denied with
  | true =>
      rw [h.fault hd]
      exact ⟨fun _ => rfl, fun hno => absurd (hno.symm.trans (hlast hd)) Bool.false_ne_true⟩
  | false =>
      obtain ⟨hr, hgood⟩ := h.ok hd
      rw [hr]
      exact hnext ⟨hgood, hd⟩

theorem getOrCreateTable_denied (h : s.denied = true) (table : Nat) (i : Fin 512) :
    (Arch.getOrCreateTable A s table i).2.denied = true :=
  getOrCreateTable_keeps (M := fun s => s.denied = true) (fun _ _ _ _ h => h) (fun _ _ h => h)
    (fun _ h => by simp [Arch.allocTable, h]) h table i

theorem setUnit_denied (h : s.denied = true) (pml4 v x : Nat) (flags : Word) (large : Bool) :
    (setUnit A pml4 flags large s v x).2.denied = true :=
  setUnit_keeps (M := fun s => s.denied = true) (fun _ _ _ _ h => h) (fun _ _ h => h)
    (fun _ h => by simp [Arch.allocTable, h]) h pml4 v x flags large

theorem allocTable_none (h : (A.alloc s.source).1 = none) :
    Arch.allocTable A s = (none, { s with source := (A.alloc s.source).2, denied := true }) := by
  rw [Arch.allocTable]
  simp only [h, Option.isNone_none, Bool.or_true]

/-- `__alloc_table()` and the `memset` after it. -/
theorem allocTable_follows (hA : Backed D A val Good) (h : Granted Good s) :
    ((A.alloc s.source).1 = none ∧ ∃ table s', Ready.allocTable D (rawVmm val s) = .ok (table, s') ∧
      table ≠ 0 ∧ Ready.memsetTable s' table = .error exceptionPanic) ∨
    ∃ ptr s', Arch.allocTable A s = (some ptr, s') ∧ Granted Good s' ∧ ptr ≠ 0 ∧
      Ready.allocTable D (rawVmm val s) = .ok (ptr, rawVmm val s') ∧
      Ready.memsetTable (rawVmm val s') ptr = .ok (rawVmm val (s'.clear ptr)) := by
  cases hptr : (A.alloc s.source).1 with
  | none =>
      left
      have hpages : allocPages (rawVmm val s).source 0 = _ := hA.none _ h.good hptr
      refine ⟨rfl, pageToHhdm (D.pfn 0), { rawVmm val s with source := val (A.alloc s.source).2 },
        ?_, D.null_ne_zero, if_neg D.null_not_canonical⟩
      rw [Ready.allocTable, hpages]
      rfl
  | some ptr =>
      right
      obtain ⟨hgood, hne, hcanon, p, hpages, hpage⟩ := hA.some _ ptr h.good hptr
      have hpages' : allocPages (rawVmm val s).source 0 = _ := hpages
      refine ⟨ptr, { s with source := (A.alloc s.source).2 }, ?_, ⟨hgood, h.granted⟩, hne, ?_,
        if_pos hcanon⟩
      · rw [Arch.allocTable]
        simp only [hptr, Option.isNone_some, Bool.or_false]
      · rw [Ready.allocTable, hpages', ok_bind]
        dsimp only
        rw [hpage]
        rfl

variable (hA : Backed D A val Good)

include hA

theorem getOrCreateTable_follows (h : Granted Good s) (table : Nat) (i : Fin 512) :
    Follows val Good (Ready.getOrCreateTable D (rawVmm val s) table i)
      (Arch.getOrCreateTable A s table i) := by
  have hmode : (rawVmm val s).mode = s.mode := rfl
  have hread : (rawVmm val s).read table i = s.read table i := rfl
  unfold Ready.getOrCreateTable Arch.getOrCreateTable
  rw [hmode]
  split
  · exact .pure h
  · dsimp only
    rw [hread]
    split
    · split
      · exact .pure h
      · exact .pure h
    · obtain ⟨hnone, sub, s', halloc, hne, hset⟩ | ⟨sub, s', hmodel, hs', hne, halloc, hset⟩ :=
        allocTable_follows hA h
      · rw [halloc, ok_bind]
        dsimp only
        rw [if_neg hne, hset, allocTable_none hnone]
        exact ⟨fun _ => rfl, nofun⟩
      · rw [halloc, ok_bind, hmodel]
        dsimp only
        rw [if_neg hne, hset, ok_bind]
        exact Follows.pure (s := (s'.clear sub).write table i _) ⟨hs'.good, hs'.granted⟩

theorem getOrCreatePd_follows (h : Granted Good s) (pml4 virt : Nat) :
    Follows val Good (Ready.getOrCreatePd D (rawVmm val s) pml4 virt)
      (Arch.getOrCreatePd A s pml4 virt) := by
  have hfirst := getOrCreateTable_follows hA h pml4 (pml4Idx virt)
  unfold Ready.getOrCreatePd Arch.getOrCreatePd
  generalize Arch.getOrCreateTable A s pml4 (pml4Idx virt) = m at hfirst ⊢
  obtain ⟨pdpt, s'⟩ := m
  cases pdpt with
  | none => exact hfirst.bind .pure id
  | some pdpt =>
      exact hfirst.bind (fun hs => getOrCreateTable_follows hA hs _ _)
        fun hden => getOrCreateTable_denied hden _ _

theorem getOrCreatePt_follows (h : Granted Good s) (pml4 virt : Nat) :
    Follows val Good (Ready.getOrCreatePt D (rawVmm val s) pml4 virt)
      (Arch.getOrCreatePt A s pml4 virt) := by
  have hfirst := getOrCreatePd_follows hA h pml4 virt
  unfold Ready.getOrCreatePt Arch.getOrCreatePt
  generalize Arch.getOrCreatePd A s pml4 virt = m at hfirst ⊢
  obtain ⟨pd, s'⟩ := m
  cases pd with
  | none => exact hfirst.bind .pure id
  | some pd =>
      exact hfirst.bind (fun hs => getOrCreateTable_follows hA hs _ _)
        fun hden => getOrCreateTable_denied hden _ _

omit hA in
/-- The end of `set_page` and `set_large_page`. -/
theorem setEntry_follows {r : Except String (Option Nat × Vmm Buddy)} {m : Option Nat × Vmm τ}
    (h : Follows val Good r m) (i : Fin 512) (w : Word) :
    Follows val Good
      (do
        match ← r with
        | (none, s) => return (-1, s)
        | (some t, s) => if present (s.read t i) then return (-1, s) else return (0, s.write t i w))
      (match m with
        | (none, s) => ((-1 : Int), s)
        | (some t, s) =>
            if !false && present (s.read t i) then (-1, s) else (0, s.write t i w)) := by
  obtain ⟨t, s'⟩ := m
  cases t with
  | none => exact h.bind .pure id
  | some t =>
      have hread : (rawVmm val s').read t i = s'.read t i := rfl
      cases hpres : present (s'.read t i) with
      | true =>
          simp only [hpres, if_true, Bool.not_false, Bool.and_self]
          refine h.bind (fun hs => ?_) id
          simp only [hread, hpres, if_true]
          exact .pure hs
      | false =>
          simp only [hpres, Bool.false_eq_true, if_false, Bool.and_false]
          refine h.bind (fun hs => ?_) id
          simp only [hread, hpres, Bool.false_eq_true, if_false]
          exact Follows.pure (s := s'.write t i w) ⟨hs.good, hs.granted⟩

theorem setPage_follows (h : Granted Good s) (pml4 virt phys : Nat) (flags : Word) :
    Follows val Good (Ready.setPage D pml4 flags (rawVmm val s) virt phys)
      (setUnit A pml4 flags false s virt phys) := by
  rw [setUnit, if_neg Bool.false_ne_true]
  unfold Ready.setPage Arch.setPage
  split
  · exact .pure h
  · split
    · exact .pure h
    · exact setEntry_follows (getOrCreatePt_follows hA h pml4 virt) _ _

theorem setLargePage_follows (h : Granted Good s) (pml4 virt phys : Nat) (flags : Word) :
    Follows val Good (Ready.setLargePage D pml4 flags (rawVmm val s) virt phys)
      (setUnit A pml4 flags true s virt phys) := by
  rw [setUnit, if_pos rfl]
  unfold Ready.setLargePage Arch.setLargePage
  split
  · exact .pure h
  · split
    · exact .pure h
    · exact setEntry_follows (getOrCreatePd_follows hA h pml4 virt) _ _

omit hA in
/-- The loop, page by page. -/
theorem setEach_follows {set : Vmm Buddy → Nat → Nat → Except String (Int × Vmm Buddy)}
    {pml4 : Nat} {flags : Word} {large : Bool}
    (hset : ∀ s v x, Granted Good s →
      Follows val Good (set (rawVmm val s) v x) (setUnit A pml4 flags large s v x))
    (h : Granted Good s) (step virt phys size : Nat) :
    Follows val Good (Ready.setEach set step (rawVmm val s) virt phys size)
      (Arch.setEach (setUnit A pml4 flags large) step s virt phys size) := by
  have hone : ∀ (acc : Nat × Vmm τ) k, Granted Good acc.2 →
      Follows val Good (Ready.setOne set step virt phys (acc.1, rawVmm val acc.2) k)
        (Arch.setOne (setUnit A pml4 flags large) step virt phys acc k) := by
    intro acc k hacc
    unfold Ready.setOne Arch.setOne
    exact (hset acc.2 _ _ hacc).bind .pure id
  have hstill : ∀ (ks : List Nat) (acc : Nat × Vmm τ), acc.2.denied = true →
      (ks.foldl (Arch.setOne (setUnit A pml4 flags large) step virt phys) acc).2.denied =
        true := by
    intro ks
    induction ks with
    | nil => exact fun _ hacc => hacc
    | cons k ks ih => exact fun acc hacc => ih _ (setUnit_denied hacc pml4 _ _ flags large)
  have hall : ∀ (ks : List Nat) (acc : Nat × Vmm τ), Granted Good acc.2 →
      Follows val Good (ks.foldlM (Ready.setOne set step virt phys) (acc.1, rawVmm val acc.2))
        (ks.foldl (Arch.setOne (setUnit A pml4 flags large) step virt phys) acc) := by
    intro ks
    induction ks with
    | nil => exact fun _ hacc => .pure hacc
    | cons k ks ih =>
        intro acc hacc
        rw [List.foldlM_cons, List.foldl_cons]
        exact (hone acc k hacc).bind (ih _) (hstill ks _)
  unfold Ready.setEach Arch.setEach
  split
  · exact .pure h
  · split
    · exact .pure h
    · split
      · exact .pure h
      · exact hall _ (0, s) h

omit hA in
theorem addFailed_follows {set : Vmm Buddy → Except String (Nat × Vmm Buddy)}
    {set' : Vmm τ → Nat × Vmm τ} {n : Nat} {acc : Nat × Vmm τ}
    (hset : ∀ s, Granted Good s → Follows val Good (set (rawVmm val s)) (set' s))
    (h : Granted Good acc.2) :
    Follows val Good (Ready.addFailed n set (acc.1, rawVmm val acc.2))
      (Arch.addFailed n set' acc) := by
  unfold Ready.addFailed Arch.addFailed
  split
  · exact (hset acc.2 h).bind .pure id
  · exact .pure h

theorem setPages_follows (h : Granted Good s) (pml4 virt phys size : Nat) (flags : Word) :
    Follows val Good
      (Ready.setEach (Ready.setPage D pml4 flags) pageSize (rawVmm val s) virt phys size)
      (setPages A s pml4 virt phys size flags false) := by
  rw [setPages_eq]
  exact setEach_follows (fun s v x hs => setPage_follows hA hs pml4 v x flags) h _ virt phys size

theorem setLargePages_follows (h : Granted Good s) (pml4 virt phys size : Nat) (flags : Word) :
    Follows val Good
      (Ready.setEach (Ready.setLargePage D pml4 flags) largePageSize (rawVmm val s) virt phys size)
      (setLargePages A s pml4 virt phys size flags false) := by
  rw [setLargePages_eq]
  exact setEach_follows (fun s v x hs => setLargePage_follows hA hs pml4 v x flags) h _ virt phys
    size

/-- The three parts of a cut. -/
theorem cut_follows {acc : Nat × Vmm τ} (h : Granted Good acc.2) (pml4 lo x : Nat) (flags : Word)
    (cut : RangeCut) :
    Follows val Good
      (do
        let acc ← Ready.addFailed cut.prePadSize
          (fun s => Ready.setEach (Ready.setPage D pml4 flags) pageSize s lo x cut.prePadSize)
          (acc.1, rawVmm val acc.2)
        let acc ← Ready.addFailed cut.largeSize
          (fun s => Ready.setEach (Ready.setLargePage D pml4 flags) largePageSize s cut.largeVirt
            cut.largePhys cut.largeSize) acc
        Ready.addFailed cut.posPadSize
          (fun s => Ready.setEach (Ready.setPage D pml4 flags) pageSize s cut.posPadVirt
            cut.posPadPhys cut.posPadSize) acc)
      (Arch.addFailed cut.posPadSize
        (fun s => setPages A s pml4 cut.posPadVirt cut.posPadPhys cut.posPadSize flags false)
        (Arch.addFailed cut.largeSize
          (fun s => setLargePages A s pml4 cut.largeVirt cut.largePhys cut.largeSize flags false)
          (Arch.addFailed cut.prePadSize
            (fun s => setPages A s pml4 lo x cut.prePadSize flags false) acc))) := by
  have hpages : ∀ s v x n, s.denied = true →
      (setPages A s pml4 v x n flags false).2.denied = true := fun s v x n hs =>
    setPages_keeps (M := fun s => s.denied = true) (V := fun _ => True)
      (fun large _ v x _ hs => setUnit_denied hs pml4 v x flags large) (.inl fun _ => trivial) hs
  have hlarge : ∀ s v x n, s.denied = true →
      (setLargePages A s pml4 v x n flags false).2.denied = true := fun s v x n hs =>
    setLargePages_keeps (M := fun s => s.denied = true) (V := fun _ => True)
      (fun large _ v x _ hs => setUnit_denied hs pml4 v x flags large) (.inl fun _ => trivial) hs
  refine (addFailed_follows (fun s hs => setPages_follows hA hs pml4 lo x cut.prePadSize flags)
    h).bind (fun hs => ?_) fun hden => ?_
  · refine (addFailed_follows (fun s hs => setLargePages_follows hA hs pml4 cut.largeVirt
      cut.largePhys cut.largeSize flags) hs).bind (fun hs => ?_) fun hden => ?_
    · exact addFailed_follows (fun s hs => setPages_follows hA hs pml4 cut.posPadVirt
        cut.posPadPhys cut.posPadSize flags) hs
    · exact addFailed_keeps (M := fun s => s.denied = true) (fun _ s => hpages s _ _ _) hden
  · exact addFailed_keeps (M := fun s => s.denied = true) (fun _ s => hpages s _ _ _)
      (addFailed_keeps (M := fun s => s.denied = true) (fun _ s => hlarge s _ _ _) hden)

theorem setRange_follows (h : Granted Good s) (pml4 virt phys size : Nat) (flags : Word) :
    Follows val Good (Ready.setRange D (rawVmm val s) pml4 virt phys size flags)
      (Arch.setRange A s pml4 virt phys size flags false) := by
  unfold Ready.setRange Arch.setRange
  split
  · exact .pure h
  · dsimp only
    split
    · exact .pure h
    · generalize rangeCut _ _ _ = cut
      generalize headOffset virt + tailOffset _ = ends
      have hs : Granted Good (ends, s).2 := h
      exact cut_follows hA hs pml4 _ _ flags cut

/-- **`vmm_map` in `VMM_READY`** does what the model does, and faults where the
model is denied a table. -/
theorem vmmMap_follows (h : Granted Good s) (kernPml4 pml4 virt phys size : Nat) (flags : Word) :
    Follows val Good (Ready.vmmMap D kernPml4 (rawVmm val s) pml4 virt phys size flags)
      (Arch.vmmMap A kernPml4 s pml4 virt phys size flags) := by
  unfold Ready.vmmMap Arch.vmmMap
  dsimp only
  generalize (if pml4 = kernPml4Token then kernPml4 else pml4) = root
  split
  · exact .pure h
  · split
    · exact .pure h
    · split
      · split
        · exact .pure h
        · split
          · exact .pure h
          · exact (setPages_follows hA h root _ _ _ flags).bind .pure id
      · exact setRange_follows hA h root virt phys size flags

/-- **`vmm_create_user_pml4`** likewise. -/
theorem vmmCreateUserPml4_follows (h : Granted Good s) (kernPml4 : Nat) :
    Follows val Good (Ready.vmmCreateUserPml4 D kernPml4 (rawVmm val s))
      (Arch.vmmCreateUserPml4 A kernPml4 s) := by
  unfold Ready.vmmCreateUserPml4 Arch.vmmCreateUserPml4
  obtain ⟨hnone, pml4, s', halloc, hne, hset⟩ | ⟨pml4, s', hmodel, hs', hne, halloc, hset⟩ :=
    allocTable_follows hA h
  · rw [halloc, ok_bind]
    dsimp only
    rw [if_neg hne, hset, allocTable_none hnone]
    exact ⟨fun _ => rfl, nofun⟩
  · have hcopy : ∀ (is : List (Fin 512)) (s : Vmm τ),
        is.foldl (fun s i => s.write pml4 i (s.read kernPml4 i)) (rawVmm val s) =
          rawVmm val (is.foldl (fun s i => s.write pml4 i (s.read kernPml4 i)) s) := by
      intro is
      induction is with
      | nil => exact fun _ => rfl
      | cons i is ih => exact fun s => ih (s.write pml4 i (s.read kernPml4 i))
    have hkeep : ∀ (is : List (Fin 512)) (s : Vmm τ), Granted Good s →
        Granted Good (is.foldl (fun s i => s.write pml4 i (s.read kernPml4 i)) s) := by
      intro is
      induction is with
      | nil => exact fun _ hs => hs
      | cons i is ih => exact fun s hs => ih _ ⟨hs.good, hs.granted⟩
    rw [halloc, ok_bind, hmodel]
    dsimp only
    rw [if_neg hne, hset, ok_bind, hcopy]
    exact .pure (hkeep _ _ ⟨hs'.good, hs'.granted⟩)

end Simulation

end DevOS.Mm
