import DevOS.Arch.Pte
import DevOS.Lib.FirstMin
import Mathlib.Data.List.FinRange
import Mathlib.Logic.Function.Basic

/-!
# Scheduler — the program

`sched/sched.c` and `sched/task.h`, with the register frame of
`arch/x86/interrupt.h`, the acknowledgement path of `arch/x86/irq.c` and
`arch/x86/pic.c`, and `make_task`/`enter_task` of `kernel/entry.c`.

The scheduler's globals are one record; CR3 is part of it because
`vmm_set_table` is the scheduler's only effect outside its own data. The two
allocations `make_task` performs (a PML4 page and the task's pages) are
arguments: what the allocators return is decided elsewhere. `schedule`'s
periodic `printk` has no effect on the state and is left out.
-/

namespace DevOS.Sched

/-- `TASK_SLOTS`. -/
abbrev Slot := Fin 16

/-- `struct regs`: the frame that `isr.asm` pushes and pops. The source calls
the word of register r14 `r4`. -/
structure Regs where
  rax : UInt64
  rbx : UInt64
  rcx : UInt64
  rdx : UInt64
  rsi : UInt64
  rdi : UInt64
  rbp : UInt64
  r8 : UInt64
  r9 : UInt64
  r10 : UInt64
  r11 : UInt64
  r12 : UInt64
  r13 : UInt64
  r4 : UInt64
  r15 : UInt64
  vectorId : UInt64
  errorCode : UInt64
  rip : UInt64
  cs : UInt64
  rflags : UInt64
  rsp : UInt64
  ss : UInt64
deriving DecidableEq, Repr

/-- A zeroed frame, as in the `.bss` task table. -/
def Regs.zero : Regs :=
  ⟨0, 0, 0, 0, 0, 0, 0, 0, 0, 0, 0, 0, 0, 0, 0, 0, 0, 0, 0, 0, 0, 0⟩

/-- `enum task_state`. -/
inductive TaskState where
  | free
  | init
  | running
  | dead
deriving DecidableEq, Repr

/-- `struct task`. `vmem` is the (virtual) address of the PML4, 0 for `NULL`;
`pages` is the frame number heading the task's page list. -/
structure Task where
  pid : UInt64
  state : TaskState
  ctx : Regs
  vmem : Nat
  pages : Option Nat
  vtime : UInt64
  priority : UInt32

def Task.zero : Task := ⟨0, .free, Regs.zero, 0, none, 0, 0⟩

/-- The globals of `sched.c` and the CR3 register. -/
structure State where
  tasks : Slot → Task
  nextPid : UInt64
  current : Option Slot
  clock : UInt64
  cr3 : Nat

/-- The scheduler before any task exists, with the kernel's table loaded. -/
def boot (cr3 : Nat) : State := ⟨fun _ => Task.zero, 0, none, 0, cr3⟩

/-- Rewrite one task. -/
def State.setTask (s : State) (i : Slot) (f : Task → Task) : State :=
  { s with tasks := Function.update s.tasks i (f (s.tasks i)) }

/-- `vmm_set_table(pml4)`. -/
def State.vmmSetTable (s : State) (pml4 : Nat) : State := { s with cr3 := Arch.virtToPhys pml4 }

/-! ## Creating tasks -/

/-- `get_free_slot()`. -/
def getFreeSlot (s : State) : Option Slot :=
  (List.finRange 16).find? fun i => (s.tasks i).state = .free

/-- `create_task(priority)`, given the PML4 that `vmm_create_user_pml4`
returns (0 when it fails). -/
def createTask (s : State) (priority : UInt32) (pml4 : Nat) : Option Slot × State :=
  match getFreeSlot s with
  | none => (none, s)
  | some i =>
      let s := s.setTask i fun t => { t with vmem := pml4 }
      if pml4 = 0 then (none, s)
      else
        let s := s.setTask i fun t =>
          { t with
            ctx := { t.ctx with rflags := 0x202, cs := 0x28 ||| 3, ss := 0x30 ||| 3 }
            priority := priority
            pid := s.nextPid
            state := .init }
        (some i, { s with nextPid := s.nextPid + 1 })

/-- `run_task(task, entry, stack_top)`. -/
def runTask (s : State) (i : Slot) (entry stackTop : UInt64) : State :=
  s.setTask i fun t =>
    { t with ctx := { t.ctx with rip := entry, rsp := stackTop }, state := .running }

/-- `make_task(priority)`, given what its two allocations return. -/
def makeTask (s : State) (priority : UInt32) (pml4 : Nat) (pages : Option Nat) :
    Option Slot × State :=
  match createTask s priority pml4 with
  | (none, s) => (none, s)
  | (some i, s) =>
      let s := s.vmmSetTable (s.tasks i).vmem
      match pages with
      | none => (none, s)
      | some page =>
          let s := s.setTask i fun t => { t with pages := some page }
          (some i, runTask s i (0x100000 + 0x1000) (0x100000 + 0x1000))

/-- One call of `make_task` with the outcomes of its two allocations, as frame
numbers. -/
structure Making where
  priority : UInt32
  pml4 : Option Nat
  pages : Option Nat

def Making.make (m : Making) (s : State) : State :=
  (makeTask s m.priority (m.pml4.elim 0 pageToHhdm) m.pages).2

/-- The calls of `make_task` that `entry` makes before `enter_task`. -/
def makeTasks (s : State) (ms : List Making) : State := ms.foldl (fun s m => m.make s) s

/-! ## Switching tasks -/

/-- The top of `schedule`: save the frame and charge one quantum. -/
def charge (s : State) (r : Regs) : State :=
  match s.current with
  | none => s
  | some c => s.setTask c fun t => { t with ctx := r, vtime := t.vtime + t.priority.toUInt64 }

/-- One round of the selection loop on `(min_vtime, current)`. -/
def pickStep (s : State) (acc : UInt64 × Option Slot) (i : Slot) : UInt64 × Option Slot :=
  if (s.tasks i).state ≠ .running ∨ (s.tasks i).vtime ≥ acc.1 then acc
  else ((s.tasks i).vtime, some i)

/-- The selection loop: `min_vtime` starts at `UINT64_MAX`. -/
def pick (s : State) : UInt64 × Option Slot :=
  (List.finRange 16).foldl (pickStep s) (0xFFFFFFFFFFFFFFFF, s.current)

/-- The renormalising loop. -/
def renormalise (s : State) (minVtime : UInt64) : State :=
  { s with tasks := fun i =>
      if (s.tasks i).state = .running then
        { s.tasks i with vtime := (s.tasks i).vtime - minVtime }
      else s.tasks i }

/-- The rest of `schedule` once a task is chosen: renormalise, count the
tick, hand back the task's frame and load its table. -/
def resume (s : State) (c : Slot) (minVtime : UInt64) : State × Regs :=
  let s := renormalise { s with current := some c } minVtime
  let s := { s with clock := if s.clock + 1 ≥ 1024 then 0 else s.clock + 1 }
  (s.vmmSetTable (s.tasks c).vmem, (s.tasks c).ctx)

/-- `schedule(r)`; the second component is what `*r` holds afterwards. -/
def schedule (s : State) (r : Regs) : State × Regs :=
  let s := charge s r
  match pick s with
  | (_, none) => (s, r)
  | (minVtime, some c) => resume s c minVtime

/-- `pic_send_EOI(irq)`: the bytes written to the command ports. -/
def picSendEOI (irq : UInt8) : List (Nat × UInt8) :=
  (0x20, 0x20) :: if irq ≥ 8 then [(0xA0, 0x20)] else []

/-- The argument `irq_dispatch(r)` passes to `pic_send_EOI`, converted to
`uint8_t`, and the state it leaves. -/
def irqDispatch (s : State) (r : Regs) : State × Regs × UInt8 :=
  let (s, r) := schedule s r
  (s, r, (r.vectorId - 32).toUInt8)

/-- The machine in user mode: the scheduler and the task whose code runs. -/
structure Cpu where
  sched : State
  exec : Slot

/-- `enter_task(task)`: the CPU starts executing the task; the scheduler's
data and CR3 are not touched. -/
def enterTask (s : State) (i : Slot) : Cpu := ⟨s, i⟩

/-- A timer interrupt delivers the frame `r` of the executing task. The frame
written back is resumed: that of `current`, or `r` itself when there is
none. -/
def Cpu.interrupt (c : Cpu) (r : Regs) : Cpu :=
  let s := (schedule c.sched r).1
  ⟨s, s.current.getD c.exec⟩

end DevOS.Sched
