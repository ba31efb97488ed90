import DevOS.Arch.Isr
import DevOS.Kernel.Privilege
import DevOS.Kernel.TasksRefine
import DevOS.Lib.Port

/-!
# Kernel — the machine in user mode

What happens after `enter_task`: instructions of the executing task, whatever
they are, and interrupts, in any order. An instruction has what the MMU grants
user mode under CR3; a fault ends in the panic of `__isr_dispatch`. From the
first interrupt on each task runs as it would on a machine of its own, with its
registers and its two pages.
-/

namespace DevOS.Kernel

open DevOS.Lib DevOS.Arch DevOS.Mm DevOS.Sched

/-! ## The machine -/

/-- An instruction over the registers and words of memory. Of a frame, the
vector and the error code are no registers. -/
abbrev UserInstr := Instr Regs Nat Word

/-- The frame of an interrupt. -/
def interruptFrame (r : Regs) (vectorId errorCode : UInt64) : Regs :=
  { r with vectorId := vectorId, errorCode := errorCode }

def istPanic : String := "IST dispatch received invalid vector ID %d\n"

/-- `__isr_dispatch(r)`. -/
def isrDispatch (s : State) (r : Regs) : Except String (State × Regs) :=
  if r.vectorId < 32 then .error exceptionPanic
  else if r.vectorId < 256 then .ok ((irqDispatch s r).1, (irqDispatch s r).2.1)
  else .error istPanic

/-- The word at an address that user mode has the rights for, as the frame's
address and the index in it. -/
def userWord (s : Vmm Buddy) (mask : Word) (root a : Nat) : Option (Nat × Fin 512) :=
  if a % 8 = 0 then
    (s.userTranslate mask root a).map fun t =>
      (t.phys / pageSize * pageSize, Fin.ofNat 512 (t.phys / 8))
  else none

/-- The memory as user mode has it under the tables at `root`. -/
def mmuPort (root : Nat) : Port (Vmm Buddy) Nat Word where
  load s a := (userWord s userReads root a).map fun w => s.mem w.1 w.2
  store s a w := (userWord s userWrites root a).map fun (page, i) =>
    { s with mem := Function.update s.mem page (Function.update (s.mem page) i w) }

/-- The page tables, the allocator and all of memory, the scheduler with the
executing task, and the registers. -/
structure Machine where
  vmm : Vmm Buddy
  cpu : Cpu
  regs : Regs

inductive Event where
  | user (f : UserInstr)
  | interrupt (vectorId errorCode : UInt64)

/-- The machine takes a step. -/
def Machine.step (x : Machine) : Event → Except String Machine
  | .user f =>
      match (mmuPort x.cpu.sched.cr3).exec f x.regs x.vmm with
      | none => .error exceptionPanic
      | some (regs, vmm) => .ok { x with vmm := vmm, regs := loadedRegs regs }
  | .interrupt vectorId errorCode =>
      let frame := interruptFrame x.regs vectorId errorCode
      match isrDispatch x.cpu.sched frame with
      | .error e => .error e
      | .ok (_, r) => .ok { x with cpu := x.cpu.interrupt frame, regs := loadedRegs r }

/-! ## A task alone -/

/-- The registers and the two pages of a task. -/
structure Thread where
  regs : Regs
  pages : Fin 2 → Fin 512 → Word

/-- The word at an address of the two pages. -/
def threadWord (a : Nat) : Option (Fin 2 × Fin 512) :=
  if a % 8 = 0 ∧ userVirt ≤ a ∧ a < userVirt + 2 * pageSize then
    some (Fin.ofNat 2 ((a - userVirt) / pageSize), Fin.ofNat 512 (a / 8))
  else none

def threadPort : Port (Fin 2 → Fin 512 → Word) Nat Word where
  load pages a := (threadWord a).map fun w => pages w.1 w.2
  store pages a w := (threadWord a).map fun (k, i) =>
    Function.update pages k (Function.update (pages k) i w)

/-- A task that has the machine to itself. -/
def Thread.step (t : Thread) (f : UserInstr) : Option Thread :=
  match threadPort.exec f t.regs t.pages with
  | none => none
  | some (regs, pages) => some ⟨loadedRegs regs, pages⟩

def Thread.run : Thread → List UserInstr → Option Thread
  | t, [] => some t
  | t, f :: fs =>
      match t.step f with
      | none => none
      | some t' => t'.run fs

/-! ## The tasks of a machine -/

/-- The first frame of a task of `y`. -/
def firstFrame (y : System) (i : Sched.Slot) : Nat := (y.sched.tasks i).pages.getD 0

/-- A frame that a running task has. -/
def TaskFrame (y : System) (f : Nat) : Prop :=
  ∃ i, y.sched.running i ∧ InBlock (firstFrame y i) 1 f

/-- Task `i` of the machine: the registers are in the CPU while it executes. -/
def Machine.thread (y : System) (x : Machine) (i : Sched.Slot) : Thread :=
  ⟨if x.cpu.exec = i then x.regs else loadedRegs (x.cpu.sched.tasks i).ctx,
    fun k => x.vmm.mem ((firstFrame y i + k.val) * pageSize)⟩

/-- The instructions that task `i` executes. -/
def Machine.instrsOf (i : Sched.Slot) : Machine → List Event → List UserInstr
  | _, [] => []
  | x, e :: es =>
      match x.step e with
      | .error _ => []
      | .ok x' =>
          match e with
          | .interrupt _ _ => x'.instrsOf i es
          | .user f => if x.cpu.exec = i then f :: x'.instrsOf i es else x'.instrsOf i es

/-! ## The ground it stands on -/

/-- A root that CR3 holds at `enter_task` or that `schedule` may load. -/
def RootOf (y : System) (r : Nat) : Prop :=
  r = y.sched.cr3 ∨ ∃ i, y.sched.running i ∧ r = virtToPhys (y.sched.tasks i).vmem

/-- What `make_task` has left for the run. -/
structure Ground (y : System) : Prop where
  fresh : Fresh y.sched
  start : ∀ i, y.sched.running i → (y.sched.tasks i).ctx = taskFrame
  reach : ∀ i, y.sched.running i → ∀ mask, UserMask mask → ∀ a,
    (y.vmm.userTranslate mask (virtToPhys (y.sched.tasks i).vmem) a).map Translation.phys =
      if userVirt ≤ a ∧ a < userVirt + 2 * pageSize then
        some (firstFrame y i * pageSize + (a - userVirt))
      else none
  loaded : ∀ mask, UserMask mask → ∀ a t, y.vmm.userTranslate mask y.sched.cr3 a = some t →
    ∃ i, y.sched.running i ∧ y.sched.cr3 = virtToPhys (y.sched.tasks i).vmem
  off : ∀ r, RootOf y r → ∀ path t, path.length ≤ 3 → y.vmm.tableAt r path = some t →
    ¬ TaskFrame y (t / pageSize)
  apart : ∀ i j, y.sched.running i → y.sched.running j → i ≠ j →
    ∀ f, InBlock (firstFrame y i) 1 f → ¬ InBlock (firstFrame y j) 1 f

section Ground

variable {b₀ : Buddy} {hreach : b₀.memNrPages * pageSize ≤ hhdmLimit} {kernPml4 : Nat}
  {userTest : Fin 512 → Word} {m : Client { b // BlockMap b₀ b }} {s₀ : Vmm Buddy} {y : System}

theorem Placed.firstFrame {i : Sched.Slot} {page : Nat}
    (h : Placed kernPml4 userTest m (y.sched.tasks i) page) : Kernel.firstFrame y i = page := by
  rw [Kernel.firstFrame, h.pages, Option.getD_some]

/-- Where CR3 points to. -/
theorem TasksInv.loaded_root (h : TasksInv hreach kernPml4 userTest s₀ y m) {r : Nat}
    (hr : RootOf y r) : r ∈ virtToPhys kernPml4 :: m.addrSpaces.roots := by
  rcases hr with rfl | ⟨i, hi, rfl⟩
  · rcases h.loaded with hk | ⟨i, hi, hc⟩
    · rw [hk]
      exact List.mem_cons_self
    · rw [hc]
      exact List.mem_cons_of_mem _ (List.mem_map_of_mem (h.space hi))
  · obtain ⟨page, hp⟩ := h.placed i hi
    exact List.mem_cons_of_mem _ (List.mem_map_of_mem hp.space)

/-- **The invariant of `make_task` is such a ground**, over a kernel without
pages for user mode. -/
theorem TasksInv.ground (h : TasksInv hreach kernPml4 userTest s₀ y m)
    (hs : Supervisor (virtToPhys kernPml4) s₀) (hfresh : Fresh y.sched) : Ground y := by
  have hmem : y.vmm.mem = m.vmm.mem := h.vmm ▸ rfl
  have huser : ∀ mask r a, y.vmm.userTranslate mask r a = m.vmm.userTranslate mask r a := by
    intro mask r a
    simp only [Vmm.userTranslate, hmem]
  refine ⟨hfresh, fun i hi => ?_, fun i hi mask hmask a => ?_, fun mask hmask a t hat => ?_,
    fun r hr path t hlen ht => ?_, fun i j hi hj hne f hf hf' => ?_⟩
  · obtain ⟨page, hp⟩ := h.placed i hi
    exact hp.ctx
  · obtain ⟨page, hp⟩ := h.placed i hi
    rw [huser, h.userTranslate hs hmask hp a, hp.firstFrame]
  · rw [huser] at hat
    rcases h.loaded with hk | ⟨i, hi, hc⟩
    · rw [hk, (h.guarded hs).unreachable hmask.user] at hat
      cases hat
    · by_cases hrun : y.sched.running i
      · exact ⟨i, hrun, hc⟩
      · -- nothing is mapped there
        obtain ⟨hspace, hempty⟩ := h.bare i hi hrun
        rw [hc] at hat
        by_cases hlow : a < 2 ^ 47
        · have hnone := hempty a hlow
          rw [(userTranslate_some hat).1] at hnone
          cases hnone
        · rw [h.user_high hs hmask hspace (Nat.le_of_not_lt hlow)] at hat
          cases hat
  · rintro ⟨i, hi, hin⟩
    obtain ⟨page, hp⟩ := h.placed i hi
    rw [hp.firstFrame] at hin
    rw [Vmm.tableAt, hmem] at ht
    exact h.table_off hp.block (h.loaded_root hr) hlen ht hin
  · obtain ⟨p, hp⟩ := h.placed i hi
    obtain ⟨q, hq⟩ := h.placed j hj
    rw [hp.firstFrame] at hf
    rw [hq.firstFrame] at hf'
    refine (h.apart i j hi hj hne).2 ?_
    rw [hp.pages, hq.pages]
    exact congrArg some (m.vmm.source.property.allocation_inj
      (h.inv.held _ hp.block).allocated (h.inv.held _ hq.block).allocated hf hf')

end Ground

/-! ## Instructions -/

section Run

variable {y : System} {s s' : Vmm Buddy} {r a : Nat} {mask w : Word} {i j : Sched.Slot}

/-- Memory outside the frames of the tasks is as it was. The scheduler's globals and
the kernel's stacks, which `schedule` and the CPU write, are records of their
own and no part of this memory. -/
def OffTasks (y : System) (s : Vmm Buddy) : Prop :=
  ∀ t, (∀ f, TaskFrame y f → t ≠ f * pageSize) → s.mem t = y.vmm.mem t

/-- **No task's frame decides a page walk.** -/
theorem Ground.userTranslate (hg : Ground y) (hs : OffTasks y s) (hr : RootOf y r) (mask : Word)
    (a : Nat) : s.userTranslate mask r a = y.vmm.userTranslate mask r a := by
  unfold Vmm.userTranslate
  rw [find_only_along]
  intro q j u hpre hu
  have hlen : q.length ≤ 3 := by
    have hle := hpre.length_le
    rw [List.length_append, List.length_singleton, pathOf] at hle
    simp only [List.length_cons, List.length_nil] at hle
    omega
  refine congrFun (hs u fun f hf hc => hg.off r hr q u hlen hu ?_) j
  rw [hc, pageSize_mul_div]
  exact hf

theorem Ground.inBlock (hg : Ground y) {t : Translation} (hi : y.sched.running i)
    (hmask : UserMask mask)
    (hat : y.vmm.userTranslate mask (virtToPhys (y.sched.tasks i).vmem) a = some t) :
    InBlock (firstFrame y i) 1 (t.phys / pageSize) := by
  have hreach := hg.reach i hi mask hmask a
  rw [hat, Option.map_some] at hreach
  split at hreach
  · have hphys := Option.some.inj hreach
    rw [hphys]
    unfold InBlock pageSize at *
    omega
  · cases hreach

/-- What user mode reaches is a frame of the task whose table it is. -/
theorem Ground.reached (hg : Ground y) (hr : RootOf y r) (hmask : UserMask mask)
    {t : Translation} (hat : y.vmm.userTranslate mask r a = some t) :
    ∃ i, y.sched.running i ∧ r = virtToPhys (y.sched.tasks i).vmem ∧
      InBlock (firstFrame y i) 1 (t.phys / pageSize) := by
  rcases hr with rfl | ⟨i, hi, rfl⟩
  · obtain ⟨i, hi, hroot⟩ := hg.loaded mask hmask a t hat
    rw [hroot] at hat
    exact ⟨i, hi, hroot, hg.inBlock hi hmask hat⟩
  · exact ⟨i, hi, rfl, hg.inBlock hi hmask hat⟩

theorem userReads_mask : UserMask userReads := ⟨by decide, by decide⟩

/-- **A store** changes one frame, of the task whose table it is. -/
theorem Ground.store (hg : Ground y) (hs : OffTasks y s) (hr : RootOf y r)
    (h : (mmuPort r).store s a w = some s') :
    ∃ i f page, y.sched.running i ∧ r = virtToPhys (y.sched.tasks i).vmem ∧
      InBlock (firstFrame y i) 1 f ∧
      s' = { s with mem := Function.update s.mem (f * pageSize) page } := by
  obtain ⟨⟨base, k⟩, hword, rfl⟩ := Option.map_eq_some_iff.mp h
  unfold userWord at hword
  split at hword
  · obtain ⟨t, hat, he⟩ := Option.map_eq_some_iff.mp hword
    rw [hg.userTranslate hs hr] at hat
    obtain ⟨i, hi, hroot, hin⟩ := hg.reached hr userWrites_mask hat
    obtain ⟨rfl, rfl⟩ := Prod.mk.inj he
    exact ⟨i, _, _, hi, hroot, hin, rfl⟩
  · cases hword

/-- It leaves all memory outside that task's frames. -/
theorem Ground.store_off (hg : Ground y) (hs : OffTasks y s) (hr : RootOf y r)
    (h : (mmuPort r).store s a w = some s') :
    OffTasks y s' ∧ ∀ j, y.sched.running j → r ≠ virtToPhys (y.sched.tasks j).vmem →
      ∀ f, InBlock (firstFrame y j) 1 f → s'.mem (f * pageSize) = s.mem (f * pageSize) := by
  obtain ⟨i, g, page, hi, hroot, hin, rfl⟩ := hg.store hs hr h
  refine ⟨fun t ht => ?_, fun j hj hne f hf => ?_⟩
  · show Function.update s.mem (g * pageSize) page t = y.vmm.mem t
    rw [Function.update_of_ne (ht g ⟨i, hi, hin⟩)]
    exact hs t ht
  · have hij : i ≠ j := fun hc => hne (hc ▸ hroot)
    have hpage : f * pageSize ≠ g * pageSize := by
      intro hc
      have hfg : f = g := by rw [← pageSize_mul_div f, hc, pageSize_mul_div]
      exact hg.apart i j hi hj hij g hin (hfg ▸ hf)
    show Function.update s.mem (g * pageSize) page (f * pageSize) = s.mem (f * pageSize)
    rw [Function.update_of_ne hpage]

/-- And so do the instructions. -/
theorem Ground.exec_off (hg : Ground y) (hs : OffTasks y s) (hr : RootOf y r) {f : UserInstr}
    {regs regs' : Regs} (h : (mmuPort r).exec f regs s = some (regs', s')) :
    OffTasks y s' ∧ ∀ j, y.sched.running j → r ≠ virtToPhys (y.sched.tasks j).vmem →
      ∀ f, InBlock (firstFrame y j) 1 f → s'.mem (f * pageSize) = s.mem (f * pageSize) := by
  refine Port.exec_keeps
    (M := fun s' => OffTasks y s' ∧ ∀ j, y.sched.running j →
      r ≠ virtToPhys (y.sched.tasks j).vmem →
      ∀ f, InBlock (firstFrame y j) 1 f → s'.mem (f * pageSize) = s.mem (f * pageSize))
    (fun s₁ a w s₂ hstore hs₁ => ?_) h ⟨hs, fun _ _ _ _ _ => rfl⟩
  obtain ⟨hoff, hsame⟩ := hg.store_off hs₁.1 hr hstore
  exact ⟨hoff, fun j hj hne f hf => (hsame j hj hne f hf).trans (hs₁.2 j hj hne f hf)⟩

/-- The words that a task reaches are those of its thread. -/
theorem Ground.userWord (hg : Ground y) (hs : OffTasks y s) (hi : y.sched.running i)
    (hmask : UserMask mask) (a : Nat) :
    Kernel.userWord s mask (virtToPhys (y.sched.tasks i).vmem) a =
      (threadWord a).map fun w => ((firstFrame y i + w.1.val) * pageSize, w.2) := by
  have hreach := hg.reach i hi mask hmask a
  rw [← hg.userTranslate hs (.inr ⟨i, hi, rfl⟩)] at hreach
  unfold Kernel.userWord threadWord
  by_cases hal : a % 8 = 0
  · rw [if_pos hal]
    split at hreach
    · rename_i hin
      rw [if_pos ⟨hal, hin.1, hin.2⟩, Option.map_some]
      obtain ⟨t, hat, hphys⟩ := Option.map_eq_some_iff.mp hreach
      rw [hat, Option.map_some]
      have hbase : t.phys / pageSize * pageSize =
          (firstFrame y i + ((a - userVirt) / pageSize) % 2) * pageSize := by
        rw [hphys]
        unfold userVirt pageSize at *
        omega
      have hindex : Fin.ofNat 512 (t.phys / 8) = Fin.ofNat 512 (a / 8) := by
        refine Fin.ext ?_
        rw [Fin.val_ofNat, Fin.val_ofNat, hphys]
        unfold userVirt pageSize at *
        omega
      rw [hbase, hindex, Fin.val_ofNat]
    · rename_i hout
      rw [if_neg fun hc => hout hc.2, Option.map_eq_none_iff.mp hreach]
      rfl
  · rw [if_neg hal, if_neg fun hc => hal hc.1]
    rfl

/-- **The MMU gives a task what its thread has.** -/
theorem Ground.simulates (hg : Ground y) (hi : y.sched.running i) :
    Simulates (mmuPort (virtToPhys (y.sched.tasks i).vmem)) threadPort
      fun s pages => OffTasks y s ∧
        pages = fun k => s.mem ((firstFrame y i + k.val) * pageSize) := by
  constructor
  · rintro s pages ⟨hs, rfl⟩
    funext a
    show (Kernel.userWord s userReads _ a).map _ = _
    rw [hg.userWord hs hi userReads_mask, Option.map_map]
    rfl
  · rintro s pages ⟨hs, rfl⟩ a w
    have hword := hg.userWord hs hi userWrites_mask a
    cases hw : threadWord a with
    | none =>
        rw [hw] at hword
        refine .inl ⟨?_, ?_⟩
        · show (Kernel.userWord s userWrites _ a).map _ = none
          rw [hword]
          rfl
        · show (threadWord a).map _ = none
          rw [hw]
          rfl
    | some kw =>
        obtain ⟨k, idx⟩ := kw
        rw [hw] at hword
        have hstore : (mmuPort (virtToPhys (y.sched.tasks i).vmem)).store s a w =
            some { s with
              mem := Function.update s.mem ((firstFrame y i + k.val) * pageSize)
                (Function.update (s.mem ((firstFrame y i + k.val) * pageSize)) idx w) } := by
          show (Kernel.userWord s userWrites _ a).map _ = _
          rw [hword]
          rfl
        refine .inr ⟨_, _, hstore, ?_, (hg.store_off hs (.inr ⟨i, hi, rfl⟩) hstore).1, rfl⟩
        show (threadWord a).map _ = _
        rw [hw, Option.map_some]
        refine congrArg some (funext fun k' => ?_)
        show Function.update (fun k => s.mem ((firstFrame y i + k.val) * pageSize)) k
            (Function.update (s.mem ((firstFrame y i + k.val) * pageSize)) idx w) k' =
          Function.update s.mem ((firstFrame y i + k.val) * pageSize)
            (Function.update (s.mem ((firstFrame y i + k.val) * pageSize)) idx w)
            ((firstFrame y i + k'.val) * pageSize)
        by_cases hk : k' = k
        · subst hk
          rw [Function.update_self, Function.update_self]
        · have hpage :
              (firstFrame y i + k'.val) * pageSize ≠ (firstFrame y i + k.val) * pageSize := by
            intro hc
            have := Fin.val_ne_of_ne hk
            unfold pageSize at hc
            omega
          rw [Function.update_of_ne hk, Function.update_of_ne hpage]

/-- Two tasks do not share a table. -/
theorem Ground.root_ne (hg : Ground y) (hi : y.sched.running i) (hj : y.sched.running j)
    (hne : i ≠ j) :
    virtToPhys (y.sched.tasks i).vmem ≠ virtToPhys (y.sched.tasks j).vmem := by
  intro hroot
  have hin : userVirt ≤ userVirt ∧ userVirt < userVirt + 2 * pageSize := by decide
  have h₁ := hg.reach i hi userReads userReads_mask userVirt
  have h₂ := hg.reach j hj userReads userReads_mask userVirt
  rw [hroot, h₂, if_pos hin] at h₁
  have hfirst : firstFrame y j = firstFrame y i := by
    have hphys := Option.some.inj h₁
    unfold pageSize at hphys
    omega
  exact hg.apart i j hi hj hne _ (inBlock_self _ 1) (hfirst ▸ inBlock_self _ 1)

/-! ## Steps -/

variable {x x' : Machine}

/-- The machine from the first interrupt on. -/
structure Alive (y : System) (x : Machine) : Prop where
  off : OffTasks y x.vmm
  table : OnTable y.sched x.cpu
  regs : loadedRegs x.regs = x.regs

theorem Alive.root (h : Alive y x) : RootOf y x.cpu.sched.cr3 :=
  .inr ⟨_, h.table.running, h.table.cr3⟩

/-- **An instruction** is one of the executing task's thread, and no other
thread notices. -/
theorem Alive.user (h : Alive y x) (hg : Ground y) {f : UserInstr}
    (hstep : x.step (.user f) = .ok x') :
    Alive y x' ∧ (x.thread y x.cpu.exec).step f = some (x'.thread y x.cpu.exec) ∧
    ∀ j, y.sched.running j → x.cpu.exec ≠ j → x'.thread y j = x.thread y j := by
  unfold Machine.step at hstep
  dsimp only at hstep
  split at hstep
  · cases hstep
  · rename_i regs vmm hexec
    cases hstep
    obtain ⟨hoff, hsame⟩ := hg.exec_off h.off h.root hexec
    refine ⟨⟨hoff, h.table, loadedRegs_loadedRegs _⟩, ?_, fun j hj hne => ?_⟩
    · rw [h.table.cr3] at hexec
      obtain ⟨pages, hthread, -, rfl⟩ := (hg.simulates h.table.running).exec ⟨h.off, rfl⟩ hexec
      unfold Machine.thread Thread.step
      rw [if_pos rfl, if_pos rfl]
      dsimp only
      rw [hthread]
    · have hroot : x.cpu.sched.cr3 ≠ virtToPhys (y.sched.tasks j).vmem := by
        rw [h.table.cr3]
        exact hg.root_ne h.table.running hj hne
      unfold Machine.thread
      rw [if_neg hne, if_neg hne]
      refine congrArg _ (funext fun k => ?_)
      have hin : InBlock (firstFrame y j) 1 (firstFrame y j + k.val) :=
        ⟨Nat.le_add_right _ _, Nat.add_lt_add_left k.isLt _⟩
      exact hsame j hj hroot _ hin

/-- What the dispatch of an interrupt does to the machine. -/
theorem Machine.interrupt_ok {v e : UInt64} (hstep : x.step (.interrupt v e) = .ok x') :
    x' = { x with
      cpu := x.cpu.interrupt (interruptFrame x.regs v e)
      regs := loadedRegs (schedule x.cpu.sched (interruptFrame x.regs v e)).2 } := by
  unfold Machine.step isrDispatch at hstep
  dsimp only at hstep
  split at hstep
  · cases hstep
  · rename_i hdispatch
    split at hdispatch
    · cases hdispatch
    · split at hdispatch
      · cases hdispatch
        exact (Except.ok.inj hstep).symm
      · cases hdispatch

/-- **An interrupt** changes no thread. -/
theorem Alive.interrupt (h : Alive y x) {v e : UInt64}
    (hstep : x.step (.interrupt v e) = .ok x') :
    Alive y x' ∧ ∀ j, x'.thread y j = x.thread y j := by
  obtain rfl := Machine.interrupt_ok hstep
  have htable := h.table.interrupt (interruptFrame x.regs v e)
  obtain ⟨⟨hregs, -⟩, hctx⟩ := schedule_entered htable.current
  refine ⟨⟨h.off, htable, loadedRegs_loadedRegs _⟩, fun j => ?_⟩
  have hcharged : loadedRegs ((charge x.cpu.sched (interruptFrame x.regs v e)).tasks j).ctx =
      if x.cpu.exec = j then x.regs else loadedRegs (x.cpu.sched.tasks j).ctx := by
    split
    · rename_i hj
      rw [charge_self (hj ▸ h.table.current)]
      exact h.regs
    · rename_i hj
      rw [charge_other fun hc => hj (Option.some.inj (h.table.current.symm.trans hc))]
  show Thread.mk (if (x.cpu.interrupt _).exec = j then loadedRegs (schedule _ _).2
      else loadedRegs (((x.cpu.interrupt _).sched).tasks j).ctx) _ = _
  rw [Machine.thread, ← hcharged]
  refine congrArg (Thread.mk · _) ?_
  split
  · rename_i hj
    rw [hregs, hj]
  · exact congrArg loadedRegs (hctx j)

/-! ## Runs -/

/-- **From the first interrupt on** every thread runs the instructions of its
task, and nothing else happens to memory. -/
theorem Alive.run (hg : Ground y) (es : List Event) : ∀ {x x' : Machine}, Alive y x →
    runFrom Machine.step x es = .ok x' →
    Alive y x' ∧ ∀ i, y.sched.running i →
      (x.thread y i).run (x.instrsOf i es) = some (x'.thread y i) := by
  induction es with
  | nil =>
      intro x x' h hrun
      cases hrun
      exact ⟨h, fun _ _ => rfl⟩
  | cons e es ih =>
      intro x x' h hrun
      unfold runFrom at hrun
      split at hrun
      · cases hrun
      · rename_i x₁ hstep
        cases e with
        | user f =>
            obtain ⟨halive, hone, hother⟩ := h.user hg hstep
            obtain ⟨halive', hrest⟩ := ih halive hrun
            refine ⟨halive', fun i hi => ?_⟩
            rw [Machine.instrsOf, hstep]
            dsimp only
            split
            · rename_i hexec
              rw [← hexec, Thread.run, hone]
              dsimp only
              rw [hexec]
              exact hrest i hi
            · rename_i hexec
              rw [← hother i hi hexec]
              exact hrest i hi
        | interrupt v c =>
            obtain ⟨halive, hsame⟩ := h.interrupt hstep
            obtain ⟨halive', hrest⟩ := ih halive hrun
            refine ⟨halive', fun i hi => ?_⟩
            rw [Machine.instrsOf, hstep, ← hsame i]
            exact hrest i hi

/-- The machine before the first interrupt: the table in CR3 is that of the task
made last, and what its frames hold is all that may have changed. -/
structure Entered (y : System) (A : Sched.Slot) (x : Machine) : Prop where
  off : OffTasks y x.vmm
  cpu : x.cpu = enterTask y.sched A
  pages : ∀ j, y.sched.running j → y.sched.cr3 ≠ virtToPhys (y.sched.tasks j).vmem →
    ∀ f, InBlock (firstFrame y j) 1 f → x.vmm.mem (f * pageSize) = y.vmm.mem (f * pageSize)

variable {A : Sched.Slot}

theorem Entered.run (hg : Ground y) (fs : List UserInstr) : ∀ {x x' : Machine}, Entered y A x →
    runFrom Machine.step x (fs.map .user) = .ok x' → Entered y A x' := by
  induction fs with
  | nil =>
      intro x x' h hrun
      cases hrun
      exact h
  | cons f fs ih =>
      intro x x' h hrun
      rw [List.map_cons] at hrun
      unfold runFrom at hrun
      split at hrun
      · cases hrun
      · rename_i x₁ hstep
        refine ih ?_ hrun
        unfold Machine.step at hstep
        dsimp only at hstep
        split at hstep
        · cases hstep
        · rename_i regs vmm hexec
          cases hstep
          rw [h.cpu] at hexec
          obtain ⟨hoff, hsame⟩ := hg.exec_off h.off (.inl rfl) hexec
          exact ⟨hoff, h.cpu, fun j hj hne f hf =>
            (hsame j hj hne f hf).trans (h.pages j hj hne f hf)⟩

/-- **The first interrupt** starts every task where `make_task` put it. -/
theorem Entered.interrupt (h : Entered y A x) (hg : Ground y) (hA : y.sched.running A)
    {v e : UInt64} (hstep : x.step (.interrupt v e) = .ok x') :
    Alive y x' ∧ x'.vmm = x.vmm ∧
    ∀ j, y.sched.running j → (x'.thread y j).regs = loadedRegs taskFrame := by
  obtain rfl := Machine.interrupt_ok hstep
  have htable := hg.fresh.onTable hA (interruptFrame x.regs v e)
  rw [← h.cpu] at htable
  obtain ⟨⟨hregs, -⟩, hctx⟩ := schedule_entered htable.current
  have hsched : x.cpu.sched = y.sched := congrArg Cpu.sched h.cpu
  have hcharge : charge x.cpu.sched (interruptFrame x.regs v e) = y.sched := by
    rw [hsched, charge_none hg.fresh.current]
  rw [hcharge] at hregs hctx
  refine ⟨⟨h.off, htable, loadedRegs_loadedRegs _⟩, rfl, fun j hj => ?_⟩
  rw [← hg.start j hj]
  show (if (x.cpu.interrupt _).exec = j then loadedRegs (schedule _ _).2
      else loadedRegs (((x.cpu.interrupt _).sched).tasks j).ctx) = _
  split
  · rename_i hj'
    rw [hregs, hj']
  · exact congrArg loadedRegs (hctx j)

end Run

end DevOS.Kernel
