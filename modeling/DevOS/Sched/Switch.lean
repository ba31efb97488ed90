import DevOS.Sched.Schedule
import DevOS.Sched.Tasks
import Mathlib.Data.Fintype.Card

/-!
# Scheduler — switching contexts

Three properties that tie `schedule` to the code around it: the frame handed
back belongs to the task that is resumed, CR3 belongs to the task that
executes, and the interrupt acknowledged is the one that arrived. Each holds
from the second interrupt on, or under a condition; what breaks it otherwise
is that `enter_task` sets neither `current` nor CR3, and that `irq_dispatch`
reads the vector from the frame `schedule` has already replaced.
-/

namespace DevOS.Sched

variable {s : State} {r : Regs} {c A : Slot}

/-! ## Acknowledging the interrupt -/

/-- The number passed on is the vector's offset exactly when the low bytes
agree. -/
theorem eoi_argument_iff (x : UInt64) {v : Nat} (hv : 32 ≤ v ∧ v < 48) :
    (x - 32).toUInt8 = UInt8.ofNat (v - 32) ↔ x.toUInt8 = UInt8.ofNat v := by
  have h32 : (32 : UInt64).toNat = 32 := rfl
  have hx := x.toNat_lt
  rw [← UInt8.toNat_inj, ← UInt8.toNat_inj, UInt64.toNat_toUInt8, UInt64.toNat_toUInt8,
    UInt64.toNat_sub, UInt8.toNat_ofNat', UInt8.toNat_ofNat', h32]
  omega

/-- PIC2 is written to for the lines 8 to 15. -/
theorem mem_picSendEOI_iff {v : Nat} (hv : 32 ≤ v ∧ v < 48) :
    (0xA0, 0x20) ∈ picSendEOI (UInt8.ofNat (v - 32)) ↔ 40 ≤ v := by
  have hle : UInt8.ofNat (v - 32) ≥ 8 ↔ 40 ≤ v := by
    rw [ge_iff_le, UInt8.le_iff_toNat_le, UInt8.toNat_ofNat']
    have h8 : (8 : UInt8).toNat = 8 := rfl
    omega
  rw [picSendEOI, ← hle]
  split <;> rename_i h <;> simp [h]

/-- The virtual time a task will have once `current` is charged. -/
def State.dueTime (s : State) (i : Slot) : UInt64 :=
  if s.current = some i then (s.tasks i).vtime + (s.tasks i).priority.toUInt64
  else (s.tasks i).vtime

/-- The task that is due: RUNNING, with the least due time below `UINT64_MAX`,
in the lowest slot among equals. -/
structure Due (s : State) (c : Slot) : Prop where
  running : s.running c
  below : s.dueTime c < 0xFFFFFFFFFFFFFFFF
  least : ∀ j, s.running j → s.dueTime c ≤ s.dueTime j
  first : ∀ j, s.running j → j < c → s.dueTime c < s.dueTime j

theorem charge_vtime (s : State) (r : Regs) (i : Slot) :
    ((charge s r).tasks i).vtime = s.dueTime i := by
  unfold State.dueTime
  split
  · rename_i h
    rw [charge_self h]
  · rename_i h
    rw [charge_other h]

/-- The task that is due is the one the selection loop finds after the charge. -/
theorem least_charge_iff (s : State) (r : Regs) (c : Slot) : Least (charge s r) c ↔ Due s c := by
  have hrun : ∀ i, (charge s r).running i ↔ s.running i := by
    intro i
    unfold State.running
    rw [charge_state]
  constructor
  · intro h
    have hbelow := h.below
    have hleast := h.least
    have hfirst := h.first
    simp only [charge_vtime, hrun] at hbelow hleast hfirst
    exact ⟨(hrun c).mp h.running, hbelow, hleast, hfirst⟩
  · intro h
    refine ⟨(hrun c).mpr h.running, ?_, fun j hj => ?_, fun j hj hlt => ?_⟩
    · rw [charge_vtime]
      exact h.below
    · rw [charge_vtime, charge_vtime]
      exact h.least j ((hrun j).mp hj)
    · rw [charge_vtime, charge_vtime]
      exact h.first j ((hrun j).mp hj) hlt

/-- **What `irq_dispatch` acknowledges**: the interrupt `v` that arrived,
unless the task that is due is another than `current` and was saved under a
vector with another low byte. -/
theorem irqDispatch_acknowledges_iff (s : State) (r : Regs) (v : Nat) (hv : 32 ≤ v ∧ v < 48)
    (hr : r.vectorId = UInt64.ofNat v) :
    ((irqDispatch s r).2.2 = UInt8.ofNat (v - 32) ∧
      ((0xA0, 0x20) ∈ picSendEOI (irqDispatch s r).2.2 ↔ 40 ≤ v)) ↔
    ∀ c, Due s c →
      s.current = some c ∨ (s.tasks c).ctx.vectorId.toUInt8 = UInt8.ofNat v := by
  simp only [← least_charge_iff s r]
  have hbyte : r.vectorId.toUInt8 = UInt8.ofNat v := by
    rw [hr, ← UInt8.toNat_inj, UInt64.toNat_toUInt8, UInt64.toNat_ofNat', UInt8.toNat_ofNat']
    omega
  -- the second half of the acknowledgement follows from the first
  have hleft : ((irqDispatch s r).2.2 = UInt8.ofNat (v - 32) ∧
      ((0xA0, 0x20) ∈ picSendEOI (irqDispatch s r).2.2 ↔ 40 ≤ v)) ↔
      (schedule s r).2.vectorId.toUInt8 = UInt8.ofNat v := by
    show ((schedule s r).2.vectorId - 32).toUInt8 = _ ∧ _ ↔ _
    rw [← eoi_argument_iff _ hv]
    refine ⟨fun h => h.1, fun h => ⟨h, ?_⟩⟩
    show (0xA0, 0x20) ∈ picSendEOI ((schedule s r).2.vectorId - 32).toUInt8 ↔ _
    rw [h]
    exact mem_picSendEOI_iff hv
  rw [hleft]
  -- the frame of `current` was saved a moment ago
  have hcurrent : ∀ c, s.current = some c →
      ((charge s r).tasks c).ctx.vectorId.toUInt8 = UInt8.ofNat v := by
    intro c hc
    rw [charge_self hc]
    exact hbyte
  rcases schedule_cases s r with ⟨c, hc, he⟩ | ⟨hall, hrest⟩
  · rw [he, resume_regs]
    by_cases hcur : s.current = some c
    · refine ⟨fun _ d hd => .inl ?_, fun _ => hcurrent c hcur⟩
      rw [hcur, hc.unique hd]
    · rw [charge_other hcur]
      refine ⟨fun h d hd => ?_, fun h => (h c hc).resolve_left hcur⟩
      rw [← hc.unique hd]
      exact .inr h
  · have hno : ∀ c, ¬ Least (charge s r) c := by
      intro c hc
      have hmax := hall c (by have := hc.running; rwa [State.running, charge_state] at this)
      have hbelow := hc.below
      rw [hmax] at hbelow
      exact absurd hbelow (by decide)
    refine ⟨fun _ c hc => absurd hc (hno c), fun _ => ?_⟩
    rcases hrest with ⟨-, he⟩ | ⟨c, hcur, he⟩
    · rw [he]
      exact hbyte
    · rw [he, resume_regs]
      exact hcurrent c hcur

/-- One task and a timer interrupt taken while it is `current`. -/
def soleTask : State :=
  (schedule (makeTasks (boot 0x230000) [⟨1024, some 0x1000, some 0x1010⟩])
    { Regs.zero with vectorId := 32 }).1

theorem soleTask_timer_acknowledged :
    (irqDispatch soleTask { Regs.zero with vectorId := 32 }).2.2 = 0 ∧
      ((0xA0, 0x20) ∈ picSendEOI (irqDispatch soleTask { Regs.zero with vectorId := 32 }).2.2 ↔
        40 ≤ 32) := by
  have hsole : ∀ c, soleTask.running c → soleTask.current = some c := by decide +kernel
  refine (irqDispatch_acknowledges_iff soleTask _ 32 (by decide) rfl).mpr fun c hc => .inl ?_
  exact hsole c hc.running

/-- The first timer interrupt after `entry`: task A's frame was never saved,
its vector is 0, so line 224 is acknowledged, at both PICs. -/
theorem first_timer_misacknowledged :
    Made entryTasks ∧
    ¬ ((irqDispatch entryTasks { Regs.zero with vectorId := 32 }).2.2 = UInt8.ofNat (32 - 32) ∧
      ((0xA0, 0x20) ∈ picSendEOI (irqDispatch entryTasks { Regs.zero with vectorId := 32 }).2.2 ↔
        40 ≤ 32)) :=
  ⟨entryTasks_made, by decide +kernel⟩

/-! ## Restoring the registers -/

/-- The general registers, rip, rflags and rsp of a frame. -/
def Regs.context (r : Regs) : List UInt64 :=
  [r.rax, r.rbx, r.rcx, r.rdx, r.rsi, r.rdi, r.rbp, r.r8, r.r9, r.r10, r.r11, r.r12, r.r13,
    r.r4, r.r15, r.rip, r.rflags, r.rsp]

/-- One interrupt: the task it preempted, the frame it delivered, and the task
and frame `schedule` wrote back (if it wrote). -/
structure Tick where
  preempted : Slot
  frame : Regs
  written : Option (Slot × Regs)

def Cpu.tick (c : Cpu) (r : Regs) : Tick :=
  ⟨c.exec, r, (schedule c.sched r).1.current.map fun T => (T, (schedule c.sched r).2)⟩

/-- The interrupts of a run. -/
def Cpu.ticks : Cpu → List Regs → List Tick
  | _, [] => []
  | c, r :: rs => c.tick r :: (c.interrupt r).ticks rs

/-- The frame of the last interrupt that preempted `T`; the history has its
newest entry first. -/
def lastFrame (T : Slot) : List Tick → Option Regs
  | [] => none
  | t :: hist => if t.preempted = T then some t.frame else lastFrame T hist

/-- At every interrupt, what is written back for a task is the context that
task was last preempted with, or its initial one. -/
def Restores (initial : Slot → Regs) (hist : List Tick) : List Tick → Prop
  | [] => True
  | t :: ts =>
      (∀ T w, t.written = some (T, w) →
        w.context = ((lastFrame T (t :: hist)).getD (initial T)).context) ∧
      Restores initial (t :: hist) ts

/-- The saved contexts are the ones last delivered. -/
def Saved (initial : Slot → Regs) (hist : List Tick) (s : State) : Prop :=
  ∀ T, (s.tasks T).ctx.context = ((lastFrame T hist).getD (initial T)).context

variable {initial : Slot → Regs} {hist : List Tick}

/-- The charge records the frame under `current`. If that is the task that was
executing, or the frame is what is recorded already, nothing is lost. -/
theorem Saved.charge {cpu : Cpu} (h : Saved initial hist cpu.sched)
    (hcur : cpu.sched.current = some cpu.exec ∨
      (cpu.sched.current = none ∧ r.context = (cpu.sched.tasks cpu.exec).ctx.context)) :
    Saved initial (cpu.tick r :: hist) (charge cpu.sched r) := by
  intro T
  by_cases hT : cpu.exec = T
  · subst hT
    have hlast : lastFrame cpu.exec (cpu.tick r :: hist) = some r := by simp [lastFrame, Cpu.tick]
    rw [hlast]
    rcases hcur with hcur | ⟨hcur, hsame⟩
    · rw [charge_self hcur]
      rfl
    · rw [charge_none hcur]
      exact hsame.symm
  · have hlast : lastFrame T (cpu.tick r :: hist) = lastFrame T hist := by
      simp [lastFrame, Cpu.tick, hT]
    have hother : cpu.sched.current ≠ some T := by
      rcases hcur with hcur | ⟨hcur, -⟩
      · rw [hcur]
        exact fun h => hT (Option.some.inj h)
      · rw [hcur]
        exact fun h => by cases h
    rw [hlast, charge_other hother]
    exact h T

/-- **One interrupt**: if the frame is recorded under the task that was
executing and some task is resumed, the frame written back is the right one,
the saved contexts stay right, and `current` is the executing task again. -/
theorem Saved.interrupt {cpu : Cpu} (h : Saved initial hist cpu.sched)
    (hcur : cpu.sched.current = some cpu.exec ∨
      (cpu.sched.current = none ∧ r.context = (cpu.sched.tasks cpu.exec).ctx.context))
    (hres : (schedule cpu.sched r).1.current = some c) :
    (∀ T w, (cpu.tick r).written = some (T, w) →
      w.context = ((lastFrame T (cpu.tick r :: hist)).getD (initial T)).context) ∧
    Saved initial (cpu.tick r :: hist) (cpu.interrupt r).sched ∧
    (cpu.interrupt r).sched.current = some (cpu.interrupt r).exec := by
  have hcharged := h.charge (r := r) hcur
  obtain ⟨⟨hregs, -⟩, hctx⟩ := schedule_entered hres
  refine ⟨fun T w hw => ?_, fun T => ?_, ?_⟩
  · simp only [Cpu.tick, hres, Option.map_some, Option.some.injEq, Prod.mk.injEq] at hw
    obtain ⟨rfl, rfl⟩ := hw
    rw [hregs]
    exact hcharged c
  · show ((schedule cpu.sched r).1.tasks T).ctx.context = _
    rw [hctx]
    exact hcharged T
  · simp [Cpu.interrupt, hres]

/-- Once a task is `current`, one always is. -/
theorem schedule_current_isSome (h : s.current = some c) :
    ∃ d, (schedule s r).1.current = some d := by
  cases hd : (schedule s r).1.current with
  | some d => exact ⟨d, rfl⟩
  | none =>
      rw [(schedule_idle hd).1] at h
      cases h

/-- From a state where `current` is the executing task, every later write-back
is right. -/
theorem Saved.ticks (rs : List Regs) : ∀ {cpu : Cpu} {hist : List Tick},
    Saved initial hist cpu.sched → cpu.sched.current = some cpu.exec →
    Restores initial hist (cpu.ticks rs) := by
  induction rs with
  | nil => intro cpu hist _ _; trivial
  | cons r rs ih =>
      intro cpu hist h hcur
      obtain ⟨d, hd⟩ := schedule_current_isSome (r := r) hcur
      obtain ⟨hw, hsaved, hcur'⟩ := h.interrupt (r := r) (.inl hcur) hd
      exact ⟨hw, ih hsaved hcur'⟩

/-- With no RUNNING task and no `current`, interrupts write nothing back. -/
theorem restores_idle (rs : List Regs) : ∀ {cpu : Cpu} {hist : List Tick},
    cpu.sched.current = none → (∀ j, ¬ cpu.sched.running j) →
    Restores initial hist (cpu.ticks rs) := by
  induction rs with
  | nil => intro cpu hist _ _; trivial
  | cons r rs ih =>
      intro cpu hist hcur hnone
      have hidle : schedule cpu.sched r = (cpu.sched, r) := by
        rcases schedule_cases cpu.sched r with ⟨d, hd, -⟩ | ⟨-, ⟨-, he⟩ | ⟨d, hd, -⟩⟩
        · have := hd.running
          rw [charge_none hcur] at this
          exact absurd this (hnone d)
        · exact he
        · rw [hcur] at hd
          cases hd
      refine ⟨fun T w hw => ?_, ih ?_ ?_⟩
      · simp [Cpu.tick, hidle, hcur] at hw
      · show (schedule cpu.sched r).1.current = none
        rw [hidle, hcur]
      · intro j
        show ¬ (schedule cpu.sched r).1.running j
        rw [hidle]
        exact hnone j

/-- **Contexts survive preemption** in every run whose first interrupt
delivers the context that `enter_task` started: at every interrupt the frame
written back for a task is the one it was last preempted with, or its initial
context if it has not executed. -/
theorem context_restored_of_first_frame (s : State) (hs : Made s) (A : Slot) (rs : List Regs)
    (hfirst : ∀ r, rs.head? = some r → r.context = (s.tasks A).ctx.context) :
    Restores (fun T => (s.tasks T).ctx) [] ((enterTask s A).ticks rs) := by
  have hstart : Saved (fun T => (s.tasks T).ctx) [] (enterTask s A).sched := fun T => rfl
  cases rs with
  | nil => trivial
  | cons r rs =>
      cases hcur : (schedule s r).1.current with
      | some d =>
          obtain ⟨hw, hsaved, hcur'⟩ :=
            hstart.interrupt (r := r) (.inr ⟨hs.fresh.current, hfirst r rfl⟩) hcur
          exact ⟨hw, hsaved.ticks rs hcur'⟩
      | none =>
          -- nothing was chosen although all virtual times are 0: no task is RUNNING
          obtain ⟨hnone, -, hall⟩ := schedule_idle hcur
          refine restores_idle (r :: rs) hnone fun j hj => ?_
          have hmax := hall j hj
          rw [hs.fresh.vtime j] at hmax
          exact absurd hmax (by decide)

/-- The frame of task A as `entry` starts it, at a timer interrupt. -/
def startFrame : Regs := { (entryTasks.tasks 0).ctx with vectorId := 32 }

theorem context_restored_from_start_frame :
    Restores (fun T => (entryTasks.tasks T).ctx) []
      ((enterTask entryTasks 0).ticks
        [startFrame, { startFrame with rax := 7 }, { startFrame with rax := 8 }]) :=
  context_restored_of_first_frame entryTasks entryTasks_made 0 _
    (fun r hr => by cases hr; rfl)

/-- Task A of `entry` increments rax; the first interrupt finds it at 1 and
writes 0 back. -/
theorem first_frame_lost :
    Made entryTasks ∧ entryTasks.running 0 ∧
    ¬ Restores (fun T => (entryTasks.tasks T).ctx) []
      ((enterTask entryTasks 0).ticks [{ startFrame with rax := 1 }]) := by
  refine ⟨entryTasks_made, by decide +kernel, fun h => ?_⟩
  have hw := h.1 0 (entryTasks.tasks 0).ctx (by decide +kernel)
  exact absurd hw (by decide +kernel)

/-! ## Pairing CR3 with the executing task -/

theorem pageToHhdm_eq {f : Nat} (hf : f * pageSize < Arch.hhdmLimit) :
    pageToHhdm f = f * pageSize + hhdmBase := by
  have hl : Arch.hhdmLimit = 0x777F80000000 := rfl
  have hb : hhdmBase = 0xFFFF888000000000 := rfl
  rw [pageToHhdm]
  exact Nat.mod_eq_of_lt (by omega)

theorem virtToPhys_pageToHhdm {f : Nat} (hf : f * pageSize < Arch.hhdmLimit) :
    Arch.virtToPhys (pageToHhdm f) = f * pageSize := by
  rw [pageToHhdm_eq hf]
  exact Arch.virtToPhys_hhdm ⟨f, Nat.mul_comm _ _⟩ hf

/-- The frames that the `vmm_create_user_pml4` calls of a sequence return. -/
def tables (ms : List Making) : List Nat := ms.filterMap (·.pml4)

/-- The slots that are not FREE. -/
def occupied (s : State) : Finset Slot := Finset.univ.filter fun i => (s.tasks i).state ≠ .free

/-- **The invariant of `make_task`**, over the table frames used so far: the
tasks have different pids below `next_pid` and different tables, and CR3
points to the table of the task made last. -/
structure Paired (used : List Nat) (s : State) : Prop where
  count : s.nextPid.toNat = (occupied s).card
  pid_lt : ∀ i, (s.tasks i).state ≠ .free → (s.tasks i).pid.toNat < s.nextPid.toNat
  pid_inj : ∀ i j, (s.tasks i).state ≠ .free → (s.tasks j).state ≠ .free →
    (s.tasks i).pid = (s.tasks j).pid → i = j
  vmem : ∀ i, (s.tasks i).state ≠ .free → ∃ f ∈ used, (s.tasks i).vmem = pageToHhdm f
  vmem_inj : ∀ i j, (s.tasks i).state ≠ .free → (s.tasks j).state ≠ .free →
    (s.tasks i).vmem = (s.tasks j).vmem → i = j
  newest : ∀ i, (s.tasks i).state ≠ .free →
    ∃ j, (s.tasks j).state ≠ .free ∧ (s.tasks j).pid + 1 = s.nextPid
  cr3 : ∀ i, (s.tasks i).state ≠ .free → (s.tasks i).pid + 1 = s.nextPid →
    s.cr3 = Arch.virtToPhys (s.tasks i).vmem

theorem Paired.boot (cr3 : Nat) : Paired [] (boot cr3) where
  count := by simp [occupied, Sched.boot, Task.zero]
  pid_lt i hi := absurd rfl hi
  pid_inj i _ hi := absurd rfl hi
  vmem i hi := absurd rfl hi
  vmem_inj i _ hi := absurd rfl hi
  newest i hi := absurd rfl hi
  cr3 i hi := absurd rfl hi

theorem Paired.unmade {used : List Nat} {s' : State} (h : Paired used s) (hu : Unmade s s') :
    Paired used s' where
  count := by
    have hocc : occupied s' = occupied s := by
      unfold occupied
      congr 1
      funext i
      rw [hu.state]
    rw [hu.nextPid, hocc, h.count]
  pid_lt i hi := by
    rw [hu.state] at hi
    rw [hu.other i hi, hu.nextPid]
    exact h.pid_lt i hi
  pid_inj i j hi hj := by
    rw [hu.state] at hi hj
    rw [hu.other i hi, hu.other j hj]
    exact h.pid_inj i j hi hj
  vmem i hi := by
    rw [hu.state] at hi
    rw [hu.other i hi]
    exact h.vmem i hi
  vmem_inj i j hi hj := by
    rw [hu.state] at hi hj
    rw [hu.other i hi, hu.other j hj]
    exact h.vmem_inj i j hi hj
  newest i hi := by
    rw [hu.state] at hi
    obtain ⟨j, hj, he⟩ := h.newest i hi
    refine ⟨j, by rwa [hu.state], ?_⟩
    rw [hu.other j hj, hu.nextPid]
    exact he
  cr3 i hi := by
    rw [hu.state] at hi
    rw [hu.other i hi, hu.nextPid, hu.cr3]
    exact h.cr3 i hi

/-- A new task takes the next pid (16 slots: it cannot wrap) and a table no
task has. -/
theorem Paired.madeIn {used : List Nat} {s' : State} {i : Slot} {f : Nat} (h : Paired used s)
    (hm : MadeIn s s' i (pageToHhdm f)) (hfresh : ∀ g ∈ used, pageToHhdm g ≠ pageToHhdm f) :
    Paired (f :: used) s' := by
  have hocc : occupied s' = insert i (occupied s) := by
    ext j
    by_cases hj : j = i
    · subst hj
      simp [occupied, hm.state]
    · simp [occupied, hm.other j hj, hj]
  have hnot : i ∉ occupied s := by simp [occupied, hm.was]
  have hcard : s.nextPid.toNat + 1 ≤ 16 := by
    have hle := Finset.card_le_univ (insert i (occupied s))
    rwa [Finset.card_insert_of_notMem hnot, ← h.count, Fintype.card_fin] at hle
  have hnext : s'.nextPid.toNat = s.nextPid.toNat + 1 := by
    rw [hm.nextPid, UInt64.toNat_add]
    exact Nat.mod_eq_of_lt (by show s.nextPid.toNat + 1 < _; omega)
  -- an occupied slot of `s'` is the new one, or was occupied and is unchanged
  have hslot : ∀ j, (s'.tasks j).state ≠ .free →
      j = i ∨ (j ≠ i ∧ (s.tasks j).state ≠ .free ∧ s'.tasks j = s.tasks j) := by
    intro j hj
    by_cases hji : j = i
    · exact .inl hji
    · have ho := hm.other j hji
      rw [ho] at hj
      exact .inr ⟨hji, hj, ho⟩
  have hpid : ∀ j, (s.tasks j).state ≠ .free → (s.tasks j).pid ≠ s.nextPid := by
    intro j hj he
    have := h.pid_lt j hj
    rw [he] at this
    omega
  have hvm : ∀ j, (s.tasks j).state ≠ .free → (s.tasks j).vmem ≠ pageToHhdm f := by
    intro j hj he
    obtain ⟨g, hg, hgv⟩ := h.vmem j hj
    exact hfresh g hg (hgv.symm.trans he)
  refine ⟨?_, fun j hj => ?_, fun j k hj hk he => ?_, fun j hj => ?_, fun j k hj hk he => ?_,
    fun _ _ => ⟨i, hm.state, by rw [hm.pid, hm.nextPid]⟩, fun j hj he => ?_⟩
  · rw [hnext, hocc, Finset.card_insert_of_notMem hnot, h.count]
  · rcases hslot j hj with rfl | ⟨-, hj', ho⟩
    · rw [hm.pid, hnext]
      omega
    · have := h.pid_lt j hj'
      rw [ho, hnext]
      omega
  · rcases hslot j hj with rfl | ⟨-, hj', hoj⟩ <;> rcases hslot k hk with rfl | ⟨-, hk', hok⟩
    · rfl
    · rw [hm.pid, hok] at he
      exact absurd he.symm (hpid k hk')
    · rw [hm.pid, hoj] at he
      exact absurd he (hpid j hj')
    · rw [hoj, hok] at he
      exact h.pid_inj j k hj' hk' he
  · rcases hslot j hj with rfl | ⟨-, hj', ho⟩
    · exact ⟨f, List.mem_cons_self, hm.vmem⟩
    · obtain ⟨g, hg, hgv⟩ := h.vmem j hj'
      exact ⟨g, List.mem_cons_of_mem _ hg, by rw [ho, hgv]⟩
  · rcases hslot j hj with rfl | ⟨-, hj', hoj⟩ <;> rcases hslot k hk with rfl | ⟨-, hk', hok⟩
    · rfl
    · rw [hm.vmem, hok] at he
      exact absurd he.symm (hvm k hk')
    · rw [hm.vmem, hoj] at he
      exact absurd he (hvm j hj')
    · rw [hoj, hok] at he
      exact h.vmem_inj j k hj' hk' he
  · rcases hslot j hj with rfl | ⟨-, hj', ho⟩
    · rw [hm.cr3, hm.vmem]
    · -- an older task's successor pid is not the new `next_pid`
      have hlt := h.pid_lt j hj'
      rw [ho, hm.nextPid] at he
      have hn := congrArg UInt64.toNat he
      rw [← hm.nextPid, hnext, UInt64.toNat_add,
        Nat.mod_eq_of_lt (by show (s.tasks j).pid.toNat + 1 < _; omega)] at hn
      have h1 : (1 : UInt64).toNat = 1 := rfl
      omega

/-- **Every sequence of `make_task` calls** that gets its tables from distinct
frames keeps the invariant. -/
theorem Paired.makeTasks (ms : List Making) : ∀ {used : List Nat} {s : State}, Paired used s →
    (used ++ tables ms).Nodup → (∀ f ∈ used ++ tables ms, f * pageSize < Arch.hhdmLimit) →
    ∃ used', (∀ f ∈ used', f * pageSize < Arch.hhdmLimit) ∧ Paired used' (makeTasks s ms) := by
  induction ms with
  | nil =>
      intro used s h _ hlim
      exact ⟨used, fun f hf => hlim f (List.mem_append_left _ hf), h⟩
  | cons m ms ih =>
      intro used s h hnd hlim
      rcases makeTask_cases s m.priority (m.pml4.elim 0 pageToHhdm) m.pages with
        hu | ⟨h0, i, hm⟩
      · -- nothing was made: the call's frame, if any, is forgotten
        refine ih (h.unmade hu) (hnd.sublist ?_) fun f hf => hlim f ?_
        · exact List.Sublist.append_left ((List.sublist_cons_self m ms).filterMap _) used
        · exact List.Sublist.subset
            (List.Sublist.append_left ((List.sublist_cons_self m ms).filterMap _) used) hf
      · cases hp : m.pml4 with
        | none =>
            rw [hp, Option.elim_none] at h0
            exact absurd rfl h0
        | some f =>
            have htab : tables (m :: ms) = f :: tables ms := by simp [tables, hp]
            rw [htab] at hnd hlim
            have hperm : List.Perm (used ++ f :: tables ms) (f :: used ++ tables ms) :=
              List.perm_middle
            rw [hp, Option.elim_some] at hm
            have hnew : Paired (f :: used) (m.make s) := by
              refine h.madeIn (i := i) ?_ fun g hg he => ?_
              · rw [Making.make, hp, Option.elim_some]
                exact hm
              · have hlg := hlim g (List.mem_append_left _ hg)
                have hlf := hlim f (by simp)
                have hfg : g * pageSize = f * pageSize := by
                  rw [← virtToPhys_pageToHhdm hlg, he, virtToPhys_pageToHhdm hlf]
                have hfg' : g = f := Nat.eq_of_mul_eq_mul_right (by decide) hfg
                rw [hperm.nodup_iff] at hnd
                exact (List.nodup_cons.mp hnd).1 (List.mem_append_left _ (hfg' ▸ hg))
            exact ih hnew (hperm.nodup_iff.mp hnd) fun g hg => hlim g (hperm.mem_iff.mpr hg)

/-- The machine after a sequence of interrupts. -/
def Cpu.after (cpu : Cpu) (rs : List Regs) : Cpu := rs.foldl Cpu.interrupt cpu

/-- The executing task is `current`, it is RUNNING, and CR3 holds what
`virt_to_phys` makes of its table; no table or state has changed. -/
structure OnTable (s : State) (cpu : Cpu) : Prop where
  current : cpu.sched.current = some cpu.exec
  cr3 : cpu.sched.cr3 = Arch.virtToPhys (s.tasks cpu.exec).vmem
  running : s.running cpu.exec
  state : ∀ i, (cpu.sched.tasks i).state = (s.tasks i).state
  vmem : ∀ i, (cpu.sched.tasks i).vmem = (s.tasks i).vmem

/-- Every interrupt that resumes a task loads its table. -/
theorem OnTable.interrupt_of {cpu : Cpu} {d : Slot}
    (hstate : ∀ i, (cpu.sched.tasks i).state = (s.tasks i).state)
    (hvmem : ∀ i, (cpu.sched.tasks i).vmem = (s.tasks i).vmem)
    (hd : (schedule cpu.sched r).1.current = some d) (hrun : s.running d) :
    OnTable s (cpu.interrupt r) := by
  have hexec : (cpu.interrupt r).exec = d := by simp [Cpu.interrupt, hd]
  refine ⟨by rw [hexec]; exact hd, ?_, by rw [hexec]; exact hrun, fun i => ?_, fun i => ?_⟩
  · rw [hexec, ← hvmem d]
    exact (schedule_entered hd).1.2
  · exact (schedule_frame cpu.sched r i).1.trans (hstate i)
  · exact (schedule_frame cpu.sched r i).2.1.trans (hvmem i)

theorem OnTable.interrupt {cpu : Cpu} (h : OnTable s cpu) (r : Regs) :
    OnTable s (cpu.interrupt r) := by
  rcases schedule_cases cpu.sched r with ⟨d, hd, he⟩ | ⟨-, ⟨hn, -⟩ | ⟨d, hd, he⟩⟩
  · refine OnTable.interrupt_of h.state h.vmem (by rw [he, resume_current]) ?_
    have hrun := hd.running
    rw [State.running, charge_state, h.state] at hrun
    exact hrun
  · rw [h.current] at hn
    cases hn
  · refine OnTable.interrupt_of h.state h.vmem (by rw [he, resume_current]) ?_
    rw [h.current] at hd
    cases hd
    exact h.running

theorem OnTable.after (rs : List Regs) :
    ∀ {cpu : Cpu}, OnTable s cpu → OnTable s (cpu.after rs) := by
  induction rs with
  | nil => intro cpu h; exact h
  | cons r rs ih => intro cpu h; exact ih (h.interrupt r)

/-- The first interrupt already switches to a task with its table. -/
theorem Fresh.onTable (hs : Fresh s) (hA : s.running A) (r : Regs) :
    OnTable s ((enterTask s A).interrupt r) := by
  rcases schedule_cases s r with ⟨d, hd, he⟩ | ⟨hall, -⟩
  · refine OnTable.interrupt_of (fun _ => rfl) (fun _ => rfl) (d := d) ?_ ?_
    · show (schedule s r).1.current = some d
      rw [he, resume_current]
    · have hrun := hd.running
      rwa [State.running, charge_state] at hrun
  · have hmax := hall A hA
    rw [charge_none hs.current, hs.vtime A] at hmax
    exact absurd hmax (by decide)

/-- **CR3 and the executing task are paired** throughout every run of
`enter_task(A)` exactly when A is the task `make_task` created last: `make_task`
leaves its task's table loaded, `enter_task` loads none, and from the first
interrupt on `schedule` loads the table of the task it resumes. -/
theorem cr3_paired_iff_newest (cr3 : Nat) (ms : List Making) (hdistinct : (tables ms).Nodup)
    (hbelow : ∀ f ∈ tables ms, f * pageSize < Arch.hhdmLimit) (A : Slot)
    (hA : (makeTasks (boot cr3) ms).running A) :
    (∀ rs, let cpu := (enterTask (makeTasks (boot cr3) ms) A).after rs
      cpu.sched.cr3 + hhdmBase = (cpu.sched.tasks cpu.exec).vmem) ↔
    ((makeTasks (boot cr3) ms).tasks A).pid + 1 = (makeTasks (boot cr3) ms).nextPid := by
  have hfresh := ((Made.boot cr3).makeTasks ms).fresh
  obtain ⟨used, hlim, hp⟩ := (Paired.boot cr3).makeTasks ms
    (by rwa [List.nil_append]) (by rwa [List.nil_append])
  generalize makeTasks (boot cr3) ms = s at *
  have hnonfree : ∀ i, s.running i → (s.tasks i).state ≠ .free := by
    intro i hi he
    rw [State.running, he] at hi
    cases hi
  -- a task's table address is the direct-map address of what `virt_to_phys` gives
  have hphys : ∀ i, (s.tasks i).state ≠ .free →
      Arch.virtToPhys (s.tasks i).vmem + hhdmBase = (s.tasks i).vmem := by
    intro i hi
    obtain ⟨f, hf, he⟩ := hp.vmem i hi
    rw [he, virtToPhys_pageToHhdm (hlim f hf), pageToHhdm_eq (hlim f hf)]
  refine ⟨fun h => ?_, fun hnew rs => ?_⟩
  · obtain ⟨j, hj, hpid⟩ := hp.newest A (hnonfree A hA)
    have h0 : s.cr3 + hhdmBase = (s.tasks A).vmem := h []
    rw [hp.cr3 j hj hpid, hphys j hj] at h0
    rw [← hp.vmem_inj j A hj (hnonfree A hA) h0]
    exact hpid
  · cases rs with
    | nil =>
        show s.cr3 + hhdmBase = (s.tasks A).vmem
        rw [hp.cr3 A (hnonfree A hA) hnew, hphys A (hnonfree A hA)]
    | cons r rs =>
        have hon := (hfresh.onTable hA r).after rs
        show ((enterTask s A).interrupt r |>.after rs).sched.cr3 + hhdmBase = _
        rw [hon.cr3, hphys _ (hnonfree _ hon.running)]
        exact (hon.vmem _).symm

/-- With the tasks of `entry`, entering D, the last one made, is safe. -/
theorem cr3_paired_entering_newest :
    let cpu := (enterTask entryTasks 3).after [startFrame, { startFrame with rax := 7 }]
    cpu.sched.cr3 + hhdmBase = (cpu.sched.tasks cpu.exec).vmem :=
  (cr3_paired_iff_newest 0x230000 _ (by decide) (by decide) 3 (by decide +kernel)).mpr
    (by decide +kernel) [startFrame, { startFrame with rax := 7 }]

/-- `entry` enters A with the table of D loaded. -/
theorem cr3_unpaired_entering_first :
    entryTasks.running 0 ∧
    ¬ ∀ rs, let cpu := (enterTask entryTasks 0).after rs
      cpu.sched.cr3 + hhdmBase = (cpu.sched.tasks cpu.exec).vmem := by
  refine ⟨by decide +kernel, fun h => ?_⟩
  exact absurd (h []) (by decide +kernel)

end DevOS.Sched
