import DevOS.Arch.BootmemFrames
import DevOS.Arch.VmmAgree
import DevOS.Arch.VmmBoot

/-!
# Bootmem — mapped allocations

`bootmem_alloc_mapped` of `arch/x86/bootmem.c`: it looks for mappings in the
range, takes RAM with `__alloc` and maps the segments one after another. What
`__alloc` takes from a live pool, and what holds of pool and tables in every
state that the boot code reaches.
-/

namespace DevOS.Arch

open DevOS.Lib

/-! ## The program -/

/-- `vmm_unmap_low_identity()`. -/
def vmmUnmapLowIdentity {σ : Type} (K : KernelTables) (s : Vmm σ) : Int × Vmm σ :=
  if s.mode ≠ .transition then (-1, s)
  else (0, { s.write K.kernPml4 0 0 with mode := .virtualOnly })

/-- The loop over the segments, on `offset`, `failed` and the tables. -/
def mapSegments {σ : Type} (A : TableSource σ) (kernPml4 virt : Nat) (flags : Word) :
    List AllocSegment → (offset failed : Nat) → Vmm σ → Nat × Nat × Vmm σ
  | [], offset, failed, s => (offset, failed, s)
  | g :: gs, offset, _, s =>
      let (failed, s) := vmmMap A kernPml4 s kernPml4Token ((virt + offset) % 2 ^ 64) g.start
        g.size flags
      mapSegments A kernPml4 virt flags gs ((offset + g.size) % 2 ^ 64) failed s

variable {kernel : KernelImage} {table : List E820Entry}

instance PoolInv.decidable (b : Bootmem) : Decidable (PoolInv kernel table ⟨b, []⟩) :=
  decidable_of_iff
    (b.state = .enabled ∧ kernel.kernelEnd ≤ b.poolStart ∧ b.poolStart ≤ b.poolEnd ∧
      pageSize ∣ b.poolEnd ∧ b.poolEnd ≤ 2 ^ 52 ∧
      ∃ e ∈ table[b.currentE820Entry]?, e.addr ≤ b.poolEnd)
    ⟨fun ⟨h1, h2, h3, h4, h5, h6⟩ => ⟨h1, h2, h3, h4, h5, h6, nofun⟩,
      fun h => ⟨h.enabled, h.above, h.grown, h.aligned, h.bounded, h.entry⟩⟩

/-- `__alloc(bytes)` on a live pool; `none` where its sums have left 64 bits and
the pool is none any more. -/
def liveAlloc (bytes : Nat) (b : LiveBootmem kernel table) :
    Option (List AllocSegment × LiveBootmem kernel table) :=
  let (segments, b') := bootmemAlloc table bytes b.val
  if h : PoolInv kernel table ⟨b', []⟩ then some (segments, ⟨b', h⟩) else none

/-- The physical addresses where the loop of `__alloc` writes the header of a
segment, in segments that it then gives up as well. -/
def headerAddrs (poolEnd bytes : Nat) : (allocated : Nat) → List E820Entry → List Nat
  | _, [] => []
  | allocated, e :: es =>
      if e.type ≠ e820TypeRam then headerAddrs poolEnd bytes allocated es
      else
        match usableRange poolEnd e with
        | none => headerAddrs poolEnd bytes allocated es
        | some (segmentStart, segmentEnd) =>
            let remaining := (bytes + 2 ^ 64 - allocated) % 2 ^ 64
            let segmentEnd :=
              if (segmentStart + remaining) % 2 ^ 64 < segmentEnd then
                (segmentStart + remaining) % 2 ^ 64
              else segmentEnd
            let allocated :=
              (allocated + (segmentEnd + 2 ^ 64 - segmentStart) % 2 ^ 64) % 2 ^ 64
            segmentStart ::
              if allocated < bytes then headerAddrs poolEnd bytes allocated es else []

/-- Whether `__alloc(bytes)` faults: it writes its headers through the direct map,
which has to translate their addresses. What it translates them to, and whether
the page may be written, is not looked at: of RAM the direct map shows the page
itself, writable. -/
def headerFaults (kernPml4 bytes : Nat) (s : Vmm (LiveBootmem kernel table)) : Bool :=
  let b := s.source.val
  (headerAddrs b.poolEnd bytes 0 (table.drop b.currentE820Entry)).any fun segment =>
    (s.translate (virtToPhys kernPml4) ((segment + hhdmBase) % 2 ^ 64)).isNone

def mapPanic : String := "Bootmem map alloc failed, can't recover\n"

/-- The end of `bootmem_alloc_mapped`, after the loop. -/
def checkMapped {σ : Type} (virt bytes : Nat) :
    Nat × Nat × Vmm σ → Except String (Option Nat × Vmm σ)
  | (offset, failed, s) =>
      if failed ≠ 0 then .error mapPanic
      else if offset ≠ bytes then .error mapPanic
      else .ok (some virt, s)

/-- `bootmem_alloc_mapped(virt, bytes, flags)`, with `fuel` for the scan of
`vmm_virt_range_has_mapping`. `NULL` is `none`. -/
def bootmemAllocMapped (kernel : KernelImage) (hspan : ∀ e ∈ table, e.stop ≤ hhdmSpan)
    (kernPml4 fuel : Nat) (s : Vmm (LiveBootmem kernel table)) (virt bytes : Nat) (flags : Word) :
    Option (Except String (Option Nat × Vmm (LiveBootmem kernel table))) :=
  if s.source.val.state ≠ .enabled then some (.ok (none, s))
  else if virt = 0 then some (.ok (none, s))
  else if bytes = 0 then some (.ok (none, s))
  else
    let bytes := roundUp bytes pageSize
    match vmmVirtRangeHasMapping kernPml4 s kernPml4Token virt bytes fuel with
    | none => none
    | some mapped =>
        if mapped ≠ 0 then some (.ok (none, s))
        else if bytes ≠ 0 ∧ headerFaults kernPml4 bytes s then some (.error exceptionPanic)
        else
          match liveAlloc bytes s.source with
          | none => none
          | some ([], b) => some (.ok (none, { s with source := b }))
          | some (g :: gs, b) =>
              some (checkMapped virt bytes (mapSegments (bootmemSource kernel hspan s.mode)
                kernPml4 virt flags (g :: gs) 0 0 { s.watch with source := b }))

/-- Page tables and bootmem after `vmm_init`, `bootmem_init` and any calls of
`vmm_map_hhdm`, `vmm_unmap_low_identity`, `bootmem_alloc_page`, `vmm_map` on the
kernel's tables and `bootmem_alloc_mapped`, with requests that no sum of
`__alloc` leaves 64 bits for. -/
inductive BootReach (K : KernelTables) (hspan : ∀ e ∈ table, e.stop ≤ hhdmSpan) :
    Vmm (LiveBootmem kernel table) → Prop
  | init {b : Bootmem} (hboot : bootmemInit kernel table .boot = .ok (0, b)) :
      BootReach K hspan (vmmInit K ⟨b, PoolInv.init (ramBelow_of_span hspan) hboot⟩)
  | mapHhdm {s : Vmm (LiveBootmem kernel table)} (h : BootReach K hspan s) :
      BootReach K hspan (vmmMapHhdm (bootmemSource kernel hspan s.mode) K s table).2
  | unmapLow {s : Vmm (LiveBootmem kernel table)} (h : BootReach K hspan s) :
      BootReach K hspan (vmmUnmapLowIdentity K s).2
  | page {s : Vmm (LiveBootmem kernel table)} (h : BootReach K hspan s) :
      BootReach K hspan
        { s with source := ((bootmemSource kernel hspan s.mode).alloc s.source).2 }
  | map {s : Vmm (LiveBootmem kernel table)} (pml4 virt phys size : Nat) (flags : Word)
      (hroot : mapRoot K.kernPml4 pml4 = K.kernPml4) (h : BootReach K hspan s) :
      BootReach K hspan
        (vmmMap (bootmemSource kernel hspan s.mode) K.kernPml4 s pml4 virt phys size flags).2
  | allocMapped {s s' : Vmm (LiveBootmem kernel table)} {res : Option Nat}
      (fuel virt bytes : Nat) (flags : Word) (h : BootReach K hspan s)
      (hroom : ∀ e ∈ table, e.stop + roundUp bytes pageSize ≤ 2 ^ 64)
      (hcall : bootmemAllocMapped kernel hspan K.kernPml4 fuel s virt bytes flags =
        some (.ok (res, s'))) : BootReach K hspan s'

/-! ## `__alloc` on a live pool -/

/-- More than there can be is not found, while no sum leaves 64 bits. -/
theorem findSegments_huge {poolEnd bytes : Nat} (hpool : poolEnd ≤ 2 ^ 52)
    (hbytes : 2 ^ 52 ≤ bytes) :
    ∀ (es : List E820Entry) (i allocated : Nat),
      (∀ e ∈ es, e.stop ≤ hhdmSpan ∧ e.stop + bytes ≤ 2 ^ 64) →
      (es.Pairwise fun e f => e.stop ≤ f.addr) → (∀ e ∈ es, allocated ≤ e.addr) →
      findSegments poolEnd bytes i allocated es = none := by
  have hspan : hhdmSpan = 2 ^ 46 := rfl
  intro es
  induction es with
  | nil => exact fun _ _ _ _ _ => rfl
  | cons e es ih =>
      intro i allocated hstop hsorted hlow
      obtain ⟨hafter, hsorted'⟩ := List.pairwise_cons.mp hsorted
      have hrest := fun f hf => hstop f (List.mem_cons_of_mem e hf)
      obtain ⟨hes, hbound⟩ := hstop e List.mem_cons_self
      have hea := hlow e List.mem_cons_self
      have hskip := ih (i + 1) allocated hrest hsorted' fun f hf =>
        hlow f (List.mem_cons_of_mem e hf)
      rw [findSegments]
      split
      · exact hskip
      · cases hrange : usableRange poolEnd e with
        | none => exact hskip
        | some range =>
            obtain ⟨start, stop⟩ := range
            have hend : e.end64 = e.stop := Nat.mod_eq_of_lt (by
              show e.stop < 2 ^ 64
              omega)
            obtain ⟨-, h2, -, h4, -, h6⟩ := usableRange_spec (by omega) hend hpool hrange
            have hrem : (bytes + 2 ^ 64 - allocated) % 2 ^ 64 = bytes - allocated :=
              sub_size (by omega) (by omega)
            have hmod : (start + (bytes - allocated)) % 2 ^ 64 = start + (bytes - allocated) :=
              Nat.mod_eq_of_lt (by omega)
            have hsize : (stop + 2 ^ 64 - start) % 2 ^ 64 = stop - start :=
              sub_size h4.le (by omega)
            have hsum : (allocated + (stop - start)) % 2 ^ 64 = allocated + (stop - start) :=
              Nat.mod_eq_of_lt (by omega)
            have hcut : ¬ start + (bytes - allocated) < stop := by omega
            have hmore : allocated + (stop - start) < bytes := by omega
            have hnext := ih (i + 1) (allocated + (stop - start)) hrest hsorted' fun f hf => by
              have := hafter f hf
              omega
            simp only [hrem, hmod, if_neg hcut, hsize, hsum, if_pos hmore, hnext]

/-- What a call of `__alloc` takes from a live pool. -/
structure Takes (table : List E820Entry) (b b' : Bootmem) (n : Nat) (segments : List AllocSegment) :
    Prop where
  some : segments ≠ []
  bound : n * pageSize < 2 ^ 52
  frames : segments.flatMap AllocSegment.frames = (framesFrom b.poolEnd table).take n
  enough : n ≤ (framesFrom b.poolEnd table).length
  chained : Chained segments (n * pageSize)
  inRam : ∀ g ∈ segments, InRam table b.poolEnd g.start g.size
  left : framesFrom b'.poolEnd table = (framesFrom b.poolEnd table).drop n

theorem Takes.pos {b b' : Bootmem} {n : Nat} {segments : List AllocSegment}
    (h : Takes table b b' n segments) : 0 < n := by
  obtain ⟨g, gs, rfl⟩ := List.exists_cons_of_ne_nil h.some
  have hpos := h.chained.pos g List.mem_cons_self
  have htotal : g.size + totalBytes gs = n * pageSize := h.chained.total_eq
  refine Nat.pos_of_ne_zero fun hzero => ?_
  rw [hzero, Nat.zero_mul] at htotal
  omega

/-- What is left afterwards was left before. -/
theorem Takes.avail {b b' : Bootmem} {n p : Nat} {segments : List AllocSegment}
    (h : Takes table b b' n segments) (hp : InRam table b'.poolEnd p pageSize) :
    InRam table b.poolEnd p pageSize := by
  obtain ⟨f, rfl⟩ := hp.start_dvd
  rw [Nat.mul_comm] at hp ⊢
  have hmem : f ∈ framesFrom b'.poolEnd table := mem_framesFrom.mpr hp
  rw [h.left] at hmem
  exact mem_framesFrom.mp (List.mem_of_mem_drop hmem)

theorem liveAlloc_cases (hspan : ∀ e ∈ table, e.stop ≤ hhdmSpan)
    (hsorted : table.Pairwise fun e f => e.stop ≤ f.addr) (b : LiveBootmem kernel table) {n : Nat}
    (hbound : ∀ e ∈ table, e.stop + n * pageSize ≤ 2 ^ 64) :
    liveAlloc (n * pageSize) b = some ([], b) ∨
    ∃ b', liveAlloc (n * pageSize) b = some ((bootmemAlloc table (n * pageSize) b.val).1, b') ∧
      Takes table b.val b'.val n (bootmemAlloc table (n * pageSize) b.val).1 := by
  have hram := ramBelow_of_span hspan
  have hinv : PoolInv kernel table ⟨b.val, []⟩ := b.property
  have hnone : bootmemAlloc table (n * pageSize) b.val = ([], b.val) →
      liveAlloc (n * pageSize) b = some ([], b) := by
    intro hcall
    rw [liveAlloc, hcall]
    exact dif_pos hinv
  rcases Nat.eq_zero_or_pos n with rfl | hn
  · left
    apply hnone
    rw [bootmemAlloc, if_neg (not_not.mpr hinv.enabled), if_pos (Nat.zero_mul _)]
  by_cases hsmall : n * pageSize < 2 ^ 52
  · rcases hinv.alloc_eq hsorted hram hn hsmall with
      ⟨-, hcall⟩ | ⟨segments, b', henough, hcall, hframes, hchained, hin, hleft⟩
    · exact .inl (hnone hcall)
    · right
      obtain ⟨s', hpool, hinv'⟩ := hinv.alloc hram hsorted (Nat.dvd_mul_left pageSize n) hsmall
      rw [Pool.call, hcall] at hpool
      cases hpool
      have hlive : PoolInv kernel table ⟨b', []⟩ :=
        ⟨hinv'.enabled, hinv'.above, hinv'.grown, hinv'.aligned, hinv'.bounded, hinv'.entry, nofun⟩
      refine ⟨⟨b', hlive⟩, ?_, ?_⟩
      · rw [liveAlloc, hcall]
        exact dif_pos hlive
      · rw [hcall]
        refine ⟨?_, hsmall, hframes, henough, hchained, hin, hleft⟩
        rintro rfl
        have htotal : 0 = n * pageSize := hchained.total_eq
        exact absurd htotal.symm (Nat.mul_ne_zero hn.ne' (by decide))
  · left
    apply hnone
    have hdrop : table.drop b.val.currentE820Entry ⊆ table := List.drop_subset _ _
    have hfind := findSegments_huge hinv.bounded (Nat.le_of_not_lt hsmall)
      (table.drop b.val.currentE820Entry) b.val.currentE820Entry 0
      (fun e he => ⟨hspan e (hdrop he), hbound e (hdrop he)⟩)
      (hsorted.sublist (List.drop_sublist _ _)) fun _ _ => Nat.zero_le _
    rw [bootmemAlloc, if_neg (not_not.mpr hinv.enabled),
      if_neg (Nat.mul_ne_zero hn.ne' (by decide))]
    simp only [hfind]

/-! ## Reachable states -/

section Leaves

variable {σ : Type} {A : TableSource σ} {root pml4 : Nat} {s : Vmm σ} {q : List (Fin 512)}

/-- A page that is not aligned is not set. -/
theorem setUnit_unaligned {large : Bool} {v x : Nat}
    (h : ¬ (unitSize large ∣ v ∧ unitSize large ∣ x)) (flags : Word) :
    setUnit A pml4 flags large s v x = (-1, s) := by
  have hmod : v % unitSize large ≠ 0 ∨ x % unitSize large ≠ 0 := by
    by_contra hno
    push Not at hno
    exact h ⟨Nat.dvd_of_mod_eq_zero hno.1, Nat.dvd_of_mod_eq_zero hno.2⟩
  cases large with
  | false =>
      rw [setUnit, if_neg Bool.false_ne_true, setPage]
      split
      · rfl
      · rename_i hv
        exact if_pos (hmod.resolve_left fun hne => hv hne)
  | true =>
      rw [setUnit, if_pos rfl, setLargePage]
      split
      · rfl
      · rename_i hv
        exact if_pos (hmod.resolve_left fun hne => hv hne)

/-- Setting a page changes no leaf that is there. -/
theorem setUnit_keepsLeaf (h : TreeOk A (virtToPhys pml4) s) (large : Bool) (v x : Nat)
    (flags : Word) (hq : q.length = 4) (hleaf : s.leafAt (virtToPhys pml4) q ≠ none) :
    (setUnit A pml4 flags large s v x).2.leafAt (virtToPhys pml4) q =
      s.leafAt (virtToPhys pml4) q := by
  by_cases haligned : unitSize large ∣ v ∧ unitSize large ∣ x
  · have hset := setUnit_leaf h haligned.1 haligned.2 flags
    by_cases hcode : (setUnit A pml4 flags large s v x).1 = 0
    · obtain ⟨hin, hout⟩ := hset.done hcode q hq
      exact hout fun hpre => hleaf (hin hpre).2
    · exact (hset.failed hcode).1 q hq
  · rw [setUnit_unaligned haligned]

/-- **Clearing an entry of the root** takes its tables out of the tree. -/
theorem TreeOk.unlink (h : TreeOk A (virtToPhys pml4) s) (i : Fin 512) :
    TreeOk A (virtToPhys pml4) (s.write pml4 i 0) ∧
    ∀ j r, j ≠ i → r.length = 3 →
      (s.write pml4 i 0).leafAt (virtToPhys pml4) (j :: r) =
        s.leafAt (virtToPhys pml4) (j :: r) := by
  -- the root is no table below itself, so only its own entry changes
  have hwords : ∀ j r, j ≠ i → r.length ≤ 3 → ∀ q k u, q ++ [k] <+: j :: r →
      s.tableAt (virtToPhys pml4) q = some u → (s.write pml4 i 0).mem u k = s.mem u k := by
    intro j r hne hr q k u hpre hat
    have hlen := hpre.length_le
    rw [List.length_append, List.length_singleton, List.length_cons] at hlen
    rw [write_mem, if_neg]
    rintro ⟨rfl, rfl⟩
    have hroot := h.separate q [] _ (by omega) (by simp) hat rfl
    subst hroot
    exact hne (List.cons_prefix_cons.mp hpre).1.symm
  have htables : ∀ q, q.length ≤ 3 → ∀ u,
      (s.write pml4 i 0).tableAt (virtToPhys pml4) q = some u →
      s.tableAt (virtToPhys pml4) q = some u := by
    intro q hq u hat
    cases q with
    | nil => exact hat
    | cons j r =>
        rw [List.length_cons] at hq
        by_cases hj : j = i
        · have hgone : child ((s.write pml4 i 0).mem (virtToPhys pml4) j) = none := by
            rw [write_mem, if_pos ⟨rfl, hj⟩]
            exact child_eq_none_of_not_present (by decide)
          simp only [Vmm.tableAt, nodeAt, hgone] at hat
          cases hat
        · rw [← hat]
          exact (nodeAt_along fun q k u hpre hu =>
            congrArg child (hwords j r hj (by omega) q k u hpre hu)).symm
  refine ⟨⟨?_, ?_, ?_, ?_⟩, fun j r hne hr => find_along fun q k u => hwords j r hne hr.le q k u⟩
  · intro p q u hp hq hat hat'
    exact h.separate p q u hp hq (htables p hp u hat) (htables q hq u hat')
  · exact fun p t hpos hp hat => h.below p t hpos hp (htables p hp t hat)
  · exact fun p t hp hat => h.unavail p t hp (htables p hp t hat)
  · intro k hk
    rw [write_mem] at hk ⊢
    split at hk
    · cases hk
    · rename_i hno
      rw [if_neg hno]
      exact h.pml4 k hk

end Leaves

section Reach

variable {K : KernelTables} {hspan : ∀ e ∈ table, e.stop ≤ hhdmSpan}
  {s : Vmm (LiveBootmem kernel table)}

/-- Which pages bootmem may hand out does not depend on the VMM's state. -/
theorem TreeOk.anyMode {mode : VmmMode} {root : Nat}
    (h : TreeOk (bootmemSource kernel hspan mode) root s) (mode' : VmmMode) :
    TreeOk (bootmemSource kernel hspan mode') root s :=
  ⟨h.separate, h.below, h.unavail, h.pml4⟩

/-- The kernel's tables while bootmem serves them: a tree, past `VMM_EARLY`,
with the kernel's image mapped. -/
structure BootTree (K : KernelTables) (hspan : ∀ e ∈ table, e.stop ≤ hhdmSpan)
    (s : Vmm (LiveBootmem kernel table)) : Prop where
  ok : TreeOk (bootmemSource kernel hspan s.mode) (virtToPhys K.kernPml4) s
  mode : s.mode ≠ .early
  image : s.leafAt (virtToPhys K.kernPml4) (pathOf kernelVmaStart) ≠ none

theorem BootTree.unit (h : BootTree K hspan s) (mode : VmmMode) (flags : Word) (large : Bool)
    (v x : Nat) :
    BootTree K hspan
      (setUnit (bootmemSource kernel hspan mode) K.kernPml4 flags large s v x).2 := by
  have hok := h.ok.anyMode mode
  have htouched := setUnit_touched hok large v x flags
  refine ⟨htouched.ok.anyMode _, htouched.mode ▸ h.mode, ?_⟩
  rw [setUnit_keepsLeaf hok large v x flags rfl h.image]
  exact h.image

theorem BootTree.map (h : BootTree K hspan s) (mode : VmmMode) {pml4 : Nat}
    (hroot : mapRoot K.kernPml4 pml4 = K.kernPml4) (virt phys size : Nat) (flags : Word) :
    BootTree K hspan
      (vmmMap (bootmemSource kernel hspan mode) K.kernPml4 s pml4 virt phys size flags).2 :=
  vmmMap_keeps (fun large _ v x _ hs => hroot.symm ▸ hs.unit mode flags large v x)
    (.inl fun _ => trivial) h

/-- The VMM's state may change and pages may be taken from the pool. -/
theorem BootTree.relabel (h : BootTree K hspan s) {s' : Vmm (LiveBootmem kernel table)}
    (hmem : s'.mem = s.mem) (hmode : s'.mode ≠ .early)
    (hb : ∀ p, InRam table s'.source.val.poolEnd p pageSize →
      InRam table s.source.val.poolEnd p pageSize) : BootTree K hspan s' := by
  obtain ⟨mode, mem, source, denied⟩ := s'
  subst hmem
  exact ⟨⟨h.ok.separate, h.ok.below, fun p t hp hat hav => h.ok.unavail p t hp hat (hb t hav),
    h.ok.pml4⟩, hmode, h.image⟩

theorem BootTree.segments (mode : VmmMode) (virt : Nat) (flags : Word) :
    ∀ (segments : List AllocSegment) (offset failed : Nat)
      {s : Vmm (LiveBootmem kernel table)}, BootTree K hspan s →
      BootTree K hspan (mapSegments (bootmemSource kernel hspan mode) K.kernPml4 virt flags
        segments offset failed s).2.2
  | [], _, _, _, h => h
  | _ :: gs, _, _, _, h => BootTree.segments mode virt flags gs _ _ (h.map mode rfl _ _ _ flags)

theorem checkMapped_cases {σ : Type} (virt bytes : Nat) (out : Nat × Nat × Vmm σ) :
    checkMapped virt bytes out = .error mapPanic ∨
    out.2.1 = 0 ∧ out.1 = bytes ∧ checkMapped virt bytes out = .ok (some virt, out.2.2) := by
  obtain ⟨offset, failed, s⟩ := out
  simp only [checkMapped]
  split
  · exact .inl rfl
  · rename_i hfailed
    split
    · exact .inl rfl
    · rename_i hoffset
      exact .inr ⟨not_not.mp hfailed, not_not.mp hoffset, rfl⟩

/-- What a call comes to. -/
theorem bootmemAllocMapped_cases (hsorted : table.Pairwise fun e f => e.stop ≤ f.addr) {n : Nat}
    (kernPml4 fuel virt bytes : Nat) (flags : Word) (hn : roundUp bytes pageSize = n * pageSize)
    (hroom : ∀ e ∈ table, e.stop + roundUp bytes pageSize ≤ 2 ^ 64) :
    let check := vmmVirtRangeHasMapping kernPml4 s kernPml4Token virt (n * pageSize) fuel
    let res := bootmemAllocMapped kernel hspan kernPml4 fuel s virt bytes flags
    let segments := (bootmemAlloc table (n * pageSize) s.source.val).1
    check = none ∧ res = none ∨ res = some (.ok (none, s)) ∨ res = some (.error exceptionPanic) ∨
    check = some 0 ∧ ∃ b, Takes table s.source.val b.val n segments ∧
      res = some (checkMapped virt (n * pageSize) (mapSegments
        (bootmemSource kernel hspan s.mode) kernPml4 virt flags segments 0 0
        { s.watch with source := b })) := by
  intro check res segments
  have henabled : s.source.val.state = .enabled := s.source.property.enabled
  have hres : res = bootmemAllocMapped kernel hspan kernPml4 fuel s virt bytes flags := rfl
  rw [bootmemAllocMapped, if_neg (not_not.mpr henabled)] at hres
  split at hres
  · exact .inr (.inl hres)
  split at hres
  · exact .inr (.inl hres)
  rw [hn] at hroom
  simp only [hn] at hres
  have hdef : check = vmmVirtRangeHasMapping kernPml4 s kernPml4Token virt (n * pageSize) fuel :=
    rfl
  rw [← hdef] at hres
  cases hcheck : check with
  | none =>
      rw [hcheck] at hres
      exact .inl ⟨rfl, hres⟩
  | some mapped =>
      rw [hcheck] at hres
      simp only at hres
      split at hres
      · exact .inr (.inl hres)
      rename_i hzero
      split at hres
      · exact .inr (.inr (.inl hres))
      rw [not_not.mp hzero]
      rcases liveAlloc_cases hspan hsorted s.source hroom with hnone | ⟨b, hsome, htakes⟩
      · rw [hnone] at hres
        exact .inr (.inl hres)
      · refine .inr (.inr (.inr ⟨rfl, b, htakes, ?_⟩))
        rw [hsome] at hres
        obtain ⟨g, gs, hseg⟩ := List.exists_cons_of_ne_nil htakes.some
        have hseg' : segments = g :: gs := hseg
        rw [hseg] at hres
        rw [hseg']
        exact hres

/-- **In every reachable state** the kernel's tables are such a tree. -/
theorem BootReach.tree (hK : K.InImage kernel)
    (hsorted : table.Pairwise fun e f => e.stop ≤ f.addr) (h : BootReach K hspan s) :
    BootTree K hspan s := by
  induction h with
  | @init b hboot =>
      have hinv := PoolInv.init (ramBelow_of_span hspan) hboot
      have hwords := vmmInit_words K (⟨b, hinv⟩ : LiveBootmem kernel table)
      refine ⟨hwords.treeOk ?_, ?_, ?_⟩
      · rw [vmmInit_source]
        exact bootmem_unavail hK hinv
      · simp [vmmInit, mapKernel, mapLowIdentity, Vmm.write]
      · have hleaf := hwords.leafAt 511 510 0 0
        have hpath : pathOf kernelVmaStart = [511, 510, 0, 0] := by decide
        rw [← hpath] at hleaf
        intro hnone
        have hsome := hleaf.symm.trans hnone
        simp at hsome
  | @mapHhdm s _ ih =>
      exact vmmMapHhdm_keeps (fun flags large _ v x hs => hs.unit s.mode flags large v x)
        (fun _ hs => hs.relabel rfl (by simp) fun _ hp => hp) table ih
  | @unmapLow s _ ih =>
      unfold vmmUnmapLowIdentity
      split
      · exact ih
      · obtain ⟨hok, hleaves⟩ := ih.ok.unlink 0
        have hcut : BootTree K hspan (s.write K.kernPml4 0 0) := by
          refine ⟨hok, ih.mode, ?_⟩
          have hpath : pathOf kernelVmaStart = 511 :: [510, 0, 0] := by decide
          rw [hpath, hleaves 511 [510, 0, 0] (by decide) rfl, ← hpath]
          exact ih.image
        exact hcut.relabel rfl (by simp) fun _ hp => hp
  | @page s _ ih =>
      exact ih.relabel rfl ih.mode fun p hp =>
        (bootmemSource kernel hspan s.mode).avail_of_alloc _ p hp
  | @map s pml4 virt phys size flags hroot _ ih => exact ih.map s.mode hroot virt phys size flags
  | @allocMapped s s' res fuel virt bytes flags _ hroom hcall ih =>
      rcases bootmemAllocMapped_cases hsorted K.kernPml4 fuel virt bytes flags rfl hroom with
        ⟨-, hres⟩ | hres | hres | ⟨-, b, htakes, hres⟩
      · rw [hcall] at hres
        cases hres
      · rw [hcall] at hres
        cases hres
        exact ih
      · rw [hcall] at hres
        cases hres
      · have hstart : BootTree K hspan { s.watch with source := b } :=
          ih.relabel rfl ih.mode fun p hp => htakes.avail hp
        have hend := hstart.segments s.mode virt flags
          (bootmemAlloc table (roundUp bytes pageSize) s.source.val).1 0 0
        rw [hcall, Option.some_inj] at hres
        rcases checkMapped_cases virt _ _ with herr | ⟨-, -, hok⟩
        · cases hres.trans herr
        · cases hres.trans hok
          exact hend

end Reach

end DevOS.Arch
