import DevOS.Kernel.Tasks

/-!
# Kernel — what user mode reaches

None of the kernel's mappings has `PT_USER`, from `vmm_init` to the memory map,
and `make_task` adds none. So a task in user mode reaches its own two frames and
nothing else.
-/

namespace DevOS.Kernel

open DevOS.Lib DevOS.Arch DevOS.Mm DevOS.Sched

/-! ## The boot -/

section Boot

variable {kernel : KernelImage} {table : List E820Entry} {hspan : ∀ e ∈ table, e.stop ≤ hhdmSpan}
  {K : KernelTables} {s s' : Vmm (LiveBootmem kernel table)} {flags : Word} {fuel lastRam : Nat}

/-- `vmm_init` makes no page for user mode. -/
theorem vmmInit_supervisor {σ : Type} (K : KernelTables) (source : σ) :
    Supervisor (virtToPhys K.kernPml4) (vmmInit K source) := by
  have hwords := vmmInit_words K source
  have hlow : ∀ i, grants ptUser (lowWord i) = false := by decide +kernel
  rintro p k e hp he
  obtain ⟨i₄, i₃, i₂, i₁, rfl⟩ : ∃ i₄ i₃ i₂ i₁, p = [i₄, i₃, i₂, i₁] := by
    match p, hp with
    | [i₄, i₃, i₂, i₁], _ => exact ⟨i₄, i₃, i₂, i₁, rfl⟩
  rw [hwords.leafAt] at he
  split at he
  · cases he
    exact hlow i₂
  · split at he
    · cases he
      decide
    · cases he

/-- The kernel's tables in early boot, without a page for user mode. -/
structure Supervised (K : KernelTables) (hspan : ∀ e ∈ table, e.stop ≤ hhdmSpan)
    (s : Vmm (LiveBootmem kernel table)) : Prop where
  tree : BootTree K hspan s
  leaves : Supervisor (virtToPhys K.kernPml4) s

theorem Supervised.unit (h : Supervised K hspan s) (hflags : grants ptUser flags = false)
    (mode : VmmMode) (large : Bool) (v x : Nat) :
    Supervised K hspan
      (setUnit (bootmemSource kernel hspan mode) K.kernPml4 flags large s v x).2 :=
  ⟨h.tree.unit mode flags large v x, h.leaves.unit (h.tree.ok.anyMode mode) hflags large v x⟩

theorem Supervised.segments (hflags : grants ptUser flags = false) (mode : VmmMode) (virt : Nat) :
    ∀ (segments : List AllocSegment) (offset failed : Nat)
      {s : Vmm (LiveBootmem kernel table)}, Supervised K hspan s →
      Supervised K hspan (mapSegments (bootmemSource kernel hspan mode) K.kernPml4 virt flags
        segments offset failed s).2.2
  | [], _, _, _, h => h
  | _ :: gs, _, _, _, h => by
      have hroot : mapRoot K.kernPml4 kernPml4Token = K.kernPml4 := if_pos rfl
      refine Supervised.segments hflags mode virt gs _ _ ?_
      exact vmmMap_keeps (M := Supervised K hspan) (V := fun _ => True)
        (fun large _ v x _ hs => hroot.symm ▸ hs.unit hflags mode large v x)
        (.inl fun _ => trivial) h

/-- Up to `mem_init`. -/
theorem earlyMaps_supervised (hK : K.InImage kernel)
    (hsorted : table.Pairwise fun e f => e.stop ≤ f.addr) {b : LiveBootmem kernel table}
    (hstart : startBootmem kernel hspan = .ok b) :
    Supervised K hspan (earlyMaps kernel hspan K b) := by
  have hinit : BootReach K hspan (vmmInit K b) := .init (startBootmem_init hstart)
  have hmapped : Supervised K hspan
      (vmmMapHhdm (bootmemSource kernel hspan .identity) K (vmmInit K b) table).2 :=
    vmmMapHhdm_keeps_flags (M := Supervised K hspan) (F := fun f => grants ptUser f = false)
      hhdmFlags_supervisor (by decide) (fun _ large _ v x hf hs => hs.unit hf .identity large v x)
      (fun _ hs => ⟨hs.tree.relabel rfl (by simp) fun _ hp => hp, hs.leaves.of_mem rfl⟩) table
      ⟨hinit.tree hK hsorted, vmmInit_supervisor K b⟩
  have hcut := hmapped.leaves.unlink hmapped.tree.ok 0
  exact ⟨((hinit.mapHhdm.unmapLow).tree hK hsorted), hcut.of_mem earlyMaps_eq.2.1⟩

/-- And the memory map. -/
theorem mapMemMap_supervised (hsorted : table.Pairwise fun e f => e.stop ≤ f.addr)
    (hlast : lastRam = lastRamAddr table) (h : Supervised K hspan s) {map : Buddy}
    (hcall : mapMemMap kernel hspan K fuel lastRam s = some (.ok (map, s'))) :
    Supervised K hspan s' := by
  obtain ⟨memMap, halloc, -, -⟩ := mapMemMap_ok hcall
  obtain ⟨bytes, m, hmod, -, hle, hround, -, hm⟩ := memMap_size hspan
  rw [hlast, hmod] at halloc
  rcases bootmemAllocMapped_cases hsorted K.kernPml4 fuel memMapAddr bytes memMapFlags hround
    (memMap_room hspan hround hm hle) with ⟨-, hres⟩ | hres | hres | ⟨-, b, htakes, hres⟩
  · cases halloc.symm.trans hres
  · cases halloc.symm.trans hres
  · cases halloc.symm.trans hres
  · have hstart : Supervised K hspan { s.watch with source := b } :=
      ⟨h.tree.relabel rfl h.tree.mode fun p hp => htakes.avail hp, h.leaves.of_mem rfl⟩
    have hflags : grants ptUser memMapFlags = false := by decide
    have hend := Supervised.segments hflags s.mode memMapAddr
      (bootmemAlloc table (m * pageSize) s.source.val).1 0 0 hstart
    rw [halloc, Option.some_inj] at hres
    rcases checkMapped_cases memMapAddr _ _ with herr | ⟨-, -, hok⟩
    · cases hres.trans herr
    · cases hres.trans hok
      exact hend

/-- **No page of the kernel is for user mode** after a boot that goes through. -/
theorem bootMemory_supervisor (hK : K.InImage kernel)
    (hsorted : table.Pairwise fun e f => e.stop ≤ f.addr) (hlast : lastRam = lastRamAddr table)
    {c : Client Buddy} (hboot : bootMemory kernel hspan K fuel lastRam = some (.ok c)) :
    Supervisor (virtToPhys K.kernPml4) c.vmm := by
  obtain ⟨map, s, buddy, hearly, -, rfl⟩ := bootMemory_ok hboot
  obtain ⟨b, hstart, -, hmap⟩ := earlyMemory_ok hearly
  have hs := mapMemMap_supervised hsorted hlast (earlyMaps_supervised hK hsorted hstart) hmap
  refine hs.leaves.of_mem ?_
  show (vmmUseAllocPages s).2.mem = s.mem
  unfold vmmUseAllocPages
  cases s.mode <;> rfl

end Boot

/-! ## The tasks -/

section Tasks

variable {b₀ : Buddy} {hreach : b₀.memNrPages * pageSize ≤ hhdmLimit} {kernPml4 : Nat}
  {userTest : Fin 512 → Word} {m : Client { b // BlockMap b₀ b }} {s₀ : Vmm Buddy} {y : System}
  {t : Task} {page a : Nat} {mask : Word}

/-- The rights of an access in user mode: `PT_USER` and no more than the tables
grant. -/
structure UserMask (mask : Word) : Prop where
  user : grants ptUser mask = true
  granted : grants mask userWrites = true

/-- User mode does not reach the high half. -/
theorem TasksInv.user_high (h : TasksInv hreach kernPml4 userTest s₀ y m)
    (hs : Supervisor (virtToPhys kernPml4) s₀) (hmask : UserMask mask) {pml4 : Nat}
    (hmem : pml4 ∈ m.addrSpaces.live) (ha : 2 ^ 47 ≤ a) :
    m.vmm.userTranslate mask (virtToPhys pml4) a = none := by
  by_cases hc : Canonical a
  · have hupper : ¬ Low (pml4Idx a) := by
      show ¬ a / 2 ^ 39 % 512 < 256
      unfold Canonical at hc
      omega
    have hword := h.upper pml4 hmem _ hupper
    rw [← (h.guarded hs).unreachable hmask.user a]
    simp only [Vmm.userTranslate, pathOf, find, hword]
  · rw [Vmm.userTranslate, if_neg hc]

/-- **What a task reaches in user mode**: its two frames. -/
theorem TasksInv.userTranslate (h : TasksInv hreach kernPml4 userTest s₀ y m)
    (hs : Supervisor (virtToPhys kernPml4) s₀) (hmask : UserMask mask)
    (hp : Placed kernPml4 userTest m t page) (a : Nat) :
    (m.vmm.userTranslate mask (virtToPhys t.vmem) a).map Translation.phys =
      if userVirt ≤ a ∧ a < userVirt + 2 * pageSize then some (page * pageSize + (a - userVirt))
      else none := by
  by_cases hlow : a < 2 ^ 47
  · have hi : Low (pml4Idx a) := by
      show a / 2 ^ 39 % 512 < 256
      omega
    rw [hp.rights.userTranslate hi hmask.granted]
    split
    · rename_i hin
      obtain ⟨tr, hat, large, rfl⟩ := hp.shown a hin.1 hin.2
      rw [hat, Option.map_some]
    · rename_i hout
      rw [hp.only a hlow hout, Option.map_none]
  · have hout : ¬ (userVirt ≤ a ∧ a < userVirt + 2 * pageSize) := by
      have hend : userVirt + 2 * pageSize ≤ 2 ^ 47 := by decide
      omega
    rw [h.user_high hs hmask hp.space (Nat.le_of_not_lt hlow), if_neg hout, Option.map_none]

end Tasks

/-- **A task in user mode reaches its own two frames**, for reads and for writes,
and nothing else, after any boot that goes through and any calls of
`make_task`: no mapping of the kernel is for user mode. -/
theorem user_reaches_own_frames (kernel : KernelImage) (K : KernelTables)
    (hK : K.InImage kernel) (firmware out : List E820Entry) (lastRam : Nat)
    (hmin : 2 ≤ firmware.length) (hmax : firmware.length ≤ 256)
    (hbound : ∀ e ∈ firmware, e.addr + e.size ≤ 2 ^ 52)
    (he820 : e820Init firmware = .ok (out, lastRam)) (hspan : ∀ e ∈ out, e.stop ≤ hhdmSpan)
    (fuel : Nat) (c : Client Buddy)
    (hboot : bootMemory kernel hspan K fuel lastRam = some (.ok c)) (D : PageDiff)
    (userTest : Fin 512 → Word) (ps : List UInt32) (y : System)
    (hrun : runFrom (makeOne D K.kernPml4 userTest)
      ⟨c.vmm, Sched.boot (virtToPhys K.kernPml4)⟩ ps = .ok y)
    (i : Sched.Slot) (hi : y.sched.running i) :
    Supervisor (virtToPhys K.kernPml4) y.vmm ∧
    ∃ page, (y.sched.tasks i).pages = some page ∧ ∀ mask, UserMask mask → ∀ a,
      (y.vmm.userTranslate mask (virtToPhys (y.sched.tasks i).vmem) a).map Translation.phys =
        if userVirt ≤ a ∧ a < userVirt + 2 * pageSize then some (page * pageSize + (a - userVirt))
        else none := by
  obtain ⟨hsan, hlast⟩ := e820Init_sanitized hmin hmax hbound he820
  have hready := bootMemory_readyBoot hK hsan hlast hboot
  have hs := bootMemory_supervisor hK hsan.tidy.sorted hlast hboot
  obtain ⟨m, hstart⟩ := tasksInv_boot hready userTest
  obtain ⟨m', hm'⟩ := hstart.makeTasks ps hrun
  obtain ⟨page, hp⟩ := hm'.placed i hi
  have hmem : y.vmm.mem = m'.vmm.mem := hm'.vmm ▸ rfl
  refine ⟨(hm'.guarded hs).of_mem hmem, page, hp.pages, fun mask hmask a => ?_⟩
  rw [← hm'.userTranslate hs hmask hp a]
  simp only [Vmm.userTranslate, hmem]

theorem userWrites_mask : UserMask userWrites := ⟨by decide, by decide⟩

theorem user_reaches_own_frames_two : ∃ y page, smallTasks [1024, 100] = some (.ok y) ∧
    Supervisor (virtToPhys firstTables.kernPml4) y.vmm ∧
    (y.sched.tasks 1).pages = some page ∧
    (y.vmm.userTranslate userWrites (virtToPhys (y.sched.tasks 1).vmem) 0x101008).map
      Translation.phys = some (page * pageSize + (0x101008 - userVirt)) := by
  obtain ⟨y, hgoes, -, h1⟩ := smallTasks_goes
  obtain ⟨c, hboot, hrun⟩ := smallTasks_run hgoes
  obtain ⟨hkernel, page, hpages, hreach⟩ := user_reaches_own_frames smallKernel firstTables
    smallKernel_tables smallMachine smallRam 0x240000 (by decide) (by decide) (by decide)
    smallMachine_e820 smallRam_span 60 c hboot dividing _ [1024, 100] y hrun 1 h1
  refine ⟨y, page, hgoes, hkernel, hpages, ?_⟩
  rw [hreach userWrites userWrites_mask 0x101008, if_pos (by decide)]

end DevOS.Kernel
