import DevOS.Kernel.Machine
import DevOS.Arch.Isr

/-!
# Kernel — the machine on its hardware

`Machine` takes an interrupt in one step, as a frame that `__isr_dispatch` gets
and another one that is loaded. Here the same machine has its descriptor tables,
the stacks of the kernel and the interrupt controllers: a line is raised, the
CPU acknowledges it, goes through a gate to a stub and comes back with `iretq`.
`Hardware.InUser.meets` is the simulation, one signal at a time; no run on the
hardware faults in the kernel, returns to anything but user mode, or leaves a
line blocked.
-/

namespace DevOS.Kernel

open DevOS.Lib DevOS.Arch DevOS.Mm DevOS.Sched

/-! ## The hardware -/

/-- Interrupts are enabled and I/O is not: bits 9, 12 and 13 of the flags. -/
def flagsMask : UInt64 := 0x3200

/-- An instruction of user mode. It has no access to the segments of the kernel, and
with an I/O privilege level of 0 it changes neither that level nor the interrupt
flag. -/
structure Unprivileged where
  instr : UserInstr
  keeps : ∀ r load r' ws, instr r load = some (r', ws) →
    r'.cs = r.cs ∧ r'.ss = r.ss ∧ r'.rflags &&& flagsMask = r.rflags &&& flagsMask

structure Hardware where
  machine : Machine
  mem : Nat → UInt64
  pics : Pics

inductive Signal where
  | user (f : Unprivileged) (pageFault : UInt64) (left : Left)
  | exception (v : Fin 32) (errorCode : UInt64) (left : Left)
  /-- The instruction `int n`. -/
  | int (n : Fin 256) (left : Left)
  | raise (line : Fin 16)
  /-- The CPU looks for an interrupt; `raised` are the lines raised while it is in
  the kernel. -/
  | intr (left : Left) (raised : List (Fin 16))

/-- `__isr_dispatch(r)` with the controllers. -/
def hardwareDispatch (raised : List (Fin 16)) (k : State × Pics) (r : Regs) :
    Except String ((State × Pics) × Regs) :=
  match isrDispatch k.1 r with
  | .error e => .error e
  | .ok (s, r') => .ok ((s, (raised.foldl Pics.raise k.2).outbs
      (picSendEOI (irqDispatch k.1 r).2.2)), r')

section Step

variable (image : InterruptImage) (tables : SystemTables)

/-- An interrupt of the task that executes. -/
def Hardware.interrupt (h : Hardware) (left : Left) (raised : List (Fin 16)) (v : Fin 256)
    (errorCode : Option UInt64) : Except Halt Hardware :=
  match takeInterrupt image tables (hardwareDispatch raised) left v errorCode
      (h.machine.cpu.sched, h.pics) h.machine.regs h.mem with
  | .error e => .error e
  | .ok r => .ok
      { machine := { h.machine with
          cpu := ⟨r.kernel.1, r.kernel.1.current.getD h.machine.cpu.exec⟩
          regs := r.regs }
        mem := r.mem
        pics := r.kernel.2 }

/-- An exception, with its error code where it has one. -/
def Hardware.exception (h : Hardware) (left : Left) (v : Fin 256) (errorCode : UInt64) :
    Except Halt Hardware :=
  h.interrupt image tables left [] v (if pushesErrorCode v then some errorCode else none)

def Hardware.step (h : Hardware) : Signal → Except Halt Hardware
  | .user f pageFault left =>
      match (mmuPort h.machine.cpu.sched.cr3).exec f.instr h.machine.regs h.machine.vmm with
      | none => h.exception image tables left (vectorOf 14) pageFault
      | some (regs, vmm) =>
          if Canonical regs.rip.toNat then
            .ok { h with machine := { h.machine with vmm := vmm, regs := loadedRegs regs } }
          else h.exception image tables left (vectorOf 13) 0
  | .exception v errorCode left => h.exception image tables left (vectorOf v) errorCode
  | .int n left =>
      if (tables.gates n).decode.dpl.toUInt16 < cpl h.machine.regs then
        h.exception image tables left (vectorOf 13) (UInt64.ofNat (8 * n + 2))
      else h.interrupt image tables left [] n none
  | .raise line => .ok { h with pics := h.pics.raise line }
  | .intr left raised =>
      if h.machine.regs.rflags &&& 0x200 = 0 then .ok h
      else
        match h.pics.acknowledge with
        | none => .ok h
        | some (v, pics) =>
            { h with pics := pics }.interrupt image tables left raised (vectorOf v.toNat) none

end Step

/-- What a signal is to the machine. An instruction that would leave the canonical
addresses is a general protection fault, as `int n` is. -/
def Hardware.events (h : Hardware) : Signal → List Event
  | .user f _ _ =>
      match (mmuPort h.machine.cpu.sched.cr3).exec f.instr h.machine.regs h.machine.vmm with
      | none => [.user f.instr]
      | some (regs, _) =>
          if Canonical regs.rip.toNat then [.user f.instr] else [.interrupt 13 0]
  | .exception v errorCode _ =>
      [.interrupt (UInt64.ofNat v) (if pushesErrorCode (vectorOf v) then errorCode else 0)]
  | .int n _ => [.interrupt 13 (UInt64.ofNat (8 * n + 2))]
  | .raise _ => []
  | .intr _ _ =>
      match h.pics.acknowledge with
      | none => []
      | some (v, _) => [.interrupt (UInt64.ofNat v.toNat) 0]

/-! ## User mode -/

/-- The registers of a task in user mode, with interrupts enabled. -/
structure UserMode (r : Regs) : Prop where
  rip : Canonical r.rip.toNat
  cs : r.cs = 0x2B
  ss : r.ss = 0x33
  flags : r.rflags &&& flagsMask = 0x200

/-- The CPU has user mode from a frame of it. -/
theorem UserMode.loaded {r : Regs} (h : UserMode r) : UserMode (loadedRegs r) := by
  refine ⟨h.rip, ?_, ?_, ?_⟩
  · show r.cs &&& 0xFFFF = 0x2B
    rw [h.cs]
    rfl
  · show r.ss &&& 0xFFFF = 0x33
    rw [h.ss]
    rfl
  · show (r.rflags &&& definedFlags ||| 2) &&& flagsMask = 0x200
    have hkept : definedFlags &&& flagsMask = flagsMask := rfl
    have hset : (2 : UInt64) &&& flagsMask = 0 := rfl
    rw [or_and, UInt64.and_assoc, hkept, hset, UInt64.or_zero]
    exact h.flags

/-- The interrupt flag. -/
theorem UserMode.enabled {r : Regs} (h : UserMode r) : r.rflags &&& 0x200 ≠ 0 := by
  intro hc
  have hflags := congrArg (· &&& (0x200 : UInt64)) h.flags
  simp only [UInt64.and_assoc] at hflags
  rw [show flagsMask &&& (0x200 : UInt64) = 0x200 from rfl, hc] at hflags
  exact absurd hflags (by decide)

theorem UserMode.cpl {r : Regs} (h : UserMode r) : cpl r = 3 := by
  rw [Arch.cpl, h.cs]
  rfl

/-- The tasks of a scheduler that have the machine. -/
structure UserTasks (s : State) : Prop where
  tasks : ∀ i, s.running i → UserMode (s.tasks i).ctx
  current : ∀ c, s.current = some c → s.running c

/-- **`schedule` only resumes user mode.** -/
theorem UserTasks.scheduled {s : State} {r : Regs} (h : UserTasks s) (hr : UserMode r) :
    UserMode (schedule s r).2 ∧ UserTasks (schedule s r).1 := by
  have hcharged : ∀ i, s.running i → UserMode ((charge s r).tasks i).ctx := by
    intro i hi
    by_cases hc : s.current = some i
    · rw [charge_self hc]
      exact hr
    · rw [charge_other hc]
      exact h.tasks i hi
  have hresume : ∀ c m, s.running c → schedule s r = resume (charge s r) c m →
      UserMode (schedule s r).2 ∧ UserTasks (schedule s r).1 := by
    intro c m hc he
    rw [he]
    refine ⟨resume_regs _ c m ▸ hcharged c hc, fun i hi => ?_, fun d hd => ?_⟩
    · obtain ⟨hstate, hctx, -⟩ := resume_frame (charge s r) c m i
      rw [hctx]
      refine hcharged i ?_
      rw [State.running, hstate, charge_state] at hi
      exact hi
    · cases hd
      obtain ⟨hstate, -⟩ := resume_frame (charge s r) c m c
      rw [State.running, hstate, charge_state]
      exact hc
  rcases schedule_cases s r with ⟨c, hc, he⟩ | ⟨-, ⟨-, he⟩ | ⟨c, hc, he⟩⟩
  · have hrun := hc.running
    rw [State.running, charge_state] at hrun
    exact hresume c _ hrun he
  · rw [he]
    exact ⟨hr, h⟩
  · exact hresume c _ (h.current c hc) he

/-! ## Interrupts of user mode -/

/-- The hardware while a task executes. -/
structure Hardware.InUser (h : Hardware) : Prop where
  regs : UserMode h.machine.regs
  tasks : UserTasks h.machine.cpu.sched
  pics : h.pics.Serves none

section Interrupt

variable {image : InterruptImage} {tables : SystemTables} {pics₀ : Pics} {h h' : Hardware}

/-- User mode is interrupted on the stacks of the kernel. -/
theorem entryTop_user {r : Regs} (hr : UserMode r) (v : Fin 256) :
    176 ≤ entryTop image v r ∧
    ∀ a, ¬ InStack image a → entryTop image v r ≤ a ∨ a < entryTop image v r - 176 := by
  have htop : entryTop image v r = image.emergencyStack.toNat + 4096 ∨
      entryTop image v r = image.kernStack.toNat + 4096 := by
    unfold entryTop
    rw [hr.cpl]
    split
    · exact .inl rfl
    · exact .inr (if_pos (by decide))
  refine ⟨by omega, fun a ha => ?_⟩
  unfold InStack at ha
  omega

theorem vectorId_lt (v : Fin 256) {n : Nat} (hn : n < 2 ^ 64) :
    UInt64.ofNat v < UInt64.ofNat n ↔ v.val < n := by
  have hv : v.val < 2 ^ 64 := v.isLt.trans (by decide)
  rw [UInt64.lt_iff_toNat_lt, UInt64.toNat_ofNat_of_lt' hv, UInt64.toNat_ofNat_of_lt' hn]

theorem isrDispatch_exception {s : State} {r : Regs} (h : r.vectorId < 32) :
    isrDispatch s r = .error exceptionPanic := if_pos h

/-- An exception ends in the panic. -/
theorem Hardware.exception_panics (ht : initTables image pics₀ = .ok tables)
    (hr : UserMode h.machine.regs) (left : Left) {v : Fin 256} (hv : v.val < 32) (code : UInt64) :
    h.exception image tables left v code = .error (.panic exceptionPanic) ∧
    h.machine.step (.interrupt (UInt64.ofNat v) (if pushesErrorCode v then code else 0)) =
      .error exceptionPanic := by
  have hlt : UInt64.ofNat v < 32 := (vectorId_lt v (n := 32) (by decide)).mpr hv
  have hdispatch : ∀ k : State × Pics, hardwareDispatch [] k (isrFrame v code h.machine.regs) =
      .error exceptionPanic := by
    intro k
    rw [hardwareDispatch, isrDispatch_exception hlt]
  constructor
  · unfold Hardware.exception Hardware.interrupt
    rw [takeInterrupt_panics _ ht left v code _ (entryTop_user hr v).1 (hdispatch _)]
  · unfold Machine.step
    dsimp only
    rw [isrDispatch_exception hlt]

/-- A general protection fault too. -/
theorem Hardware.protection_panics (ht : initTables image pics₀ = .ok tables)
    (hr : UserMode h.machine.regs) (left : Left) (code : UInt64) :
    h.exception image tables left (vectorOf 13) code = .error (.panic exceptionPanic) ∧
    h.machine.step (.interrupt 13 code) = .error exceptionPanic := by
  have hvector : UInt64.ofNat (vectorOf 13) = 13 := rfl
  obtain ⟨hpanic, hmachine⟩ := Hardware.exception_panics ht hr left (v := vectorOf 13) (by decide)
    code
  rw [hvector, if_pos (by decide)] at hmachine
  exact ⟨hpanic, hmachine⟩

theorem isrDispatch_irq {s : State} {r : Regs} (hlow : ¬ r.vectorId < 32)
    (hhigh : r.vectorId < 256) :
    isrDispatch s r = .ok ((irqDispatch s r).1, (irqDispatch s r).2.1) := by
  rw [isrDispatch, if_neg hlow, if_pos hhigh]

theorem irq_no_errorCode : ∀ v : Fin 256, 32 ≤ v.val → pushesErrorCode v = false := by
  decide +kernel

theorem serves_raised {busy : Option (Fin 8)} (raised : List (Fin 16)) :
    ∀ {p : Pics}, p.Serves busy → (raised.foldl Pics.raise p).Serves busy := by
  induction raised with
  | nil => exact fun h => h
  | cons line raised ih => exact fun h => ih (h.raise line)

/-- **An IRQ** goes through `schedule` and back to user mode, of the task that is
resumed. -/
theorem Hardware.irq_resumes (ht : initTables image pics₀ = .ok tables)
    (hr : UserMode h.machine.regs) (htasks : UserTasks h.machine.cpu.sched)
    {busy : Option (Fin 8)} (hpics : h.pics.Serves busy) (left : Left) (raised : List (Fin 16))
    {v : Fin 256} (hv : 32 ≤ v.val) : ∃ h', h.interrupt image tables left raised v none = .ok h' ∧
      h.machine.step (.interrupt (UInt64.ofNat v) 0) = .ok h'.machine ∧ h'.InUser ∧
      (∀ a, ¬ InStack image a → h'.mem a = h.mem a) ∧
      h'.pics.master.requested = (raised.foldl Pics.raise h.pics).master.requested := by
  have hlow : ¬ UInt64.ofNat v < 32 := fun hc =>
    absurd ((vectorId_lt v (n := 32) (by decide)).mp hc) (Nat.not_lt.mpr hv)
  have hhigh : UInt64.ofNat v < 256 := (vectorId_lt v (n := 256) (by decide)).mpr v.isLt
  have hcode := irq_no_errorCode v hv
  have hframe : isrFrame v 0 h.machine.regs =
      interruptFrame h.machine.regs (UInt64.ofNat v) 0 := by
    rw [isrFrame, hcode]
    rfl
  have hmode : UserMode (interruptFrame h.machine.regs (UInt64.ofNat v) 0) :=
    ⟨hr.rip, hr.cs, hr.ss, hr.flags⟩
  obtain ⟨hback, hrest⟩ := htasks.scheduled hmode
  obtain ⟨hserves, hreq⟩ := (serves_raised raised hpics).picSendEOI
    (irqDispatch h.machine.cpu.sched (interruptFrame h.machine.regs (UInt64.ofNat v) 0)).2.2
  have hdispatch : hardwareDispatch raised (h.machine.cpu.sched, h.pics)
      (isrFrame v 0 h.machine.regs) =
        .ok (((schedule h.machine.cpu.sched
            (interruptFrame h.machine.regs (UInt64.ofNat v) 0)).1,
          (raised.foldl Pics.raise h.pics).outbs (picSendEOI (irqDispatch h.machine.cpu.sched
            (interruptFrame h.machine.regs (UInt64.ofNat v) 0)).2.2)),
          (schedule h.machine.cpu.sched
            (interruptFrame h.machine.regs (UInt64.ofNat v) 0)).2) := by
    rw [hframe, hardwareDispatch, isrDispatch_irq hlow hhigh]
    rfl
  obtain ⟨mem', htake, hmem⟩ := takeInterrupt_returns _ ht left v 0 h.mem (entryTop_user hr v).1
    hdispatch
  have hreturn : Returnable tables.gdt (schedule h.machine.cpu.sched
      (interruptFrame h.machine.regs (UInt64.ofNat v) 0)).2.rip (schedule h.machine.cpu.sched
      (interruptFrame h.machine.regs (UInt64.ofNat v) 0)).2.cs (schedule h.machine.cpu.sched
      (interruptFrame h.machine.regs (UInt64.ofNat v) 0)).2.ss := by
    rw [initTables_gdt image ht, hback.cs, hback.ss]
    exact returnable_user image hback.rip
  have hnone : (if pushesErrorCode v then some (0 : UInt64) else none) = none :=
    if_neg (ne_true_of_eq_false hcode)
  rw [if_pos hreturn, hnone] at htake
  unfold Hardware.interrupt
  rw [htake]
  refine ⟨_, rfl, ?_, ⟨hback.loaded, hrest, hserves⟩, fun a ha =>
    hmem a ha ((entryTop_user hr v).2 a ha), hreq⟩
  unfold Machine.step
  dsimp only
  rw [isrDispatch_irq hlow hhigh]
  rfl

/-! ## The simulation -/

/-- What an instruction of user mode keeps. -/
theorem UserMode.exec {P : Port (Vmm Buddy) Nat Word} {r r' : Regs} {s s' : Vmm Buddy}
    (hr : UserMode r) (f : Unprivileged) (hexec : P.exec f.instr r s = some (r', s'))
    (hrip : Canonical r'.rip.toNat) : UserMode (loadedRegs r') := by
  unfold Port.exec at hexec
  split at hexec
  · cases hexec
  · rename_i r₁ ws hinstr
    split at hexec
    · cases hexec
    · cases hexec
      obtain ⟨hcs, hss, hflags⟩ := f.keeps _ _ _ _ hinstr
      have hmode : UserMode r' :=
        ⟨hrip, hcs.trans hr.cs, hss.trans hr.ss, hflags.trans hr.flags⟩
      exact hmode.loaded

/-- A gate is for software interrupts of the kernel only. -/
theorem gate_dpl (ht : initTables image pics₀ = .ok tables) (n : Fin 256) :
    (tables.gates n).decode.dpl = 0 := by
  obtain ⟨pics', hok, -⟩ := initTables_ok image pics₀
  rw [hok] at ht
  cases ht
  show (vectorGate image n).decode.dpl = 0
  rw [vectorGate, decode_idtGate]
  rfl

/-- The two ends of a signal. -/
inductive Hardware.Meets (image : InterruptImage) (h : Hardware) :
    Except Halt Hardware → Except String Machine → Prop
  | goes {h' : Hardware} (user : h'.InUser) (mem : ∀ a, ¬ InStack image a → h'.mem a = h.mem a) :
      Meets image h (.ok h') (.ok h'.machine)
  | panics : Meets image h (.error (.panic exceptionPanic)) (.error exceptionPanic)

theorem Hardware.Meets.after {h₁ : Hardware} {a : Except Halt Hardware} {b : Except String Machine}
    (hmeets : Hardware.Meets image h₁ a b)
    (hmem : ∀ a, ¬ InStack image a → h₁.mem a = h.mem a) : Hardware.Meets image h a b := by
  cases hmeets with
  | goes user mem => exact .goes user fun a ha => (mem a ha).trans (hmem a ha)
  | panics => exact .panics

theorem runFrom_single {σ ι ε : Type} (step : σ → ι → Except ε σ) (s : σ) (l : ι) :
    runFrom step s [l] = step s l := by
  rw [runFrom]
  split
  · rename_i he
    exact he.symm
  · rename_i he
    exact he.symm

/-- An interrupt that the controllers assert is of line 0 or 1. -/
theorem Hardware.InUser.irq (hu : h.InUser) (ht : initTables image pics₀ = .ok tables)
    (left : Left) (raised : List (Fin 16)) {v : UInt8} {pics : Pics}
    (hack : h.pics.acknowledge = some (v, pics)) : ∃ i : Fin 8, i < 2 ∧
      h.pics.master.requested i = true ∧ v = 32 + UInt8.ofNat i ∧
      ∃ h', h.step image tables (.intr left raised) = .ok h' ∧
        h.machine.step (.interrupt (UInt64.ofNat v.toNat) 0) = .ok h'.machine ∧ h'.InUser ∧
        ∀ a, ¬ InStack image a → h'.mem a = h.mem a := by
  obtain ⟨i, hi, hreq, hv, -, hserves⟩ := hu.pics.acknowledge hack
  refine ⟨i, hi, hreq, hv, ?_⟩
  have hvector : 32 ≤ v.toNat := by
    have hcases : i = 0 ∨ i = 1 := by omega
    rcases hcases with rfl | rfl
    · rw [hv]
      decide
    · rw [hv]
      decide
  have hfin : (vectorOf v.toNat).val = v.toNat := Nat.mod_eq_of_lt v.toNat_lt
  obtain ⟨h', hgoes, hmachine, huser, hmem, -⟩ := Hardware.irq_resumes
    (h := { h with pics := pics }) ht hu.regs hu.tasks hserves left raised
    (v := vectorOf v.toNat) (by rw [hfin]; exact hvector)
  rw [hfin] at hmachine
  refine ⟨h', ?_, hmachine, huser, hmem⟩
  rw [Hardware.step, if_neg hu.regs.enabled, hack]
  exact hgoes

/-- **One signal** on the hardware is what the machine does with its events. -/
theorem Hardware.InUser.meets (hu : h.InUser) (ht : initTables image pics₀ = .ok tables)
    (sig : Signal) : Hardware.Meets image h (h.step image tables sig)
      (runFrom Machine.step h.machine (h.events sig)) := by
  cases sig with
  | user f pageFault left =>
      rw [Hardware.events, Hardware.step]
      cases hexec : (mmuPort h.machine.cpu.sched.cr3).exec f.instr h.machine.regs
          h.machine.vmm with
      | none =>
          dsimp only
          rw [(Hardware.exception_panics ht hu.regs left (v := vectorOf 14) (by decide)
            pageFault).1, runFrom_single, Machine.step, hexec]
          exact .panics
      | some p =>
          obtain ⟨regs, vmm⟩ := p
          dsimp only
          by_cases hrip : Canonical regs.rip.toNat
          · rw [if_pos hrip, if_pos hrip, runFrom_single, Machine.step, hexec]
            exact .goes ⟨hu.regs.exec f hexec hrip, hu.tasks, hu.pics⟩ fun _ _ => rfl
          · obtain ⟨hpanic, hmachine⟩ := Hardware.protection_panics ht hu.regs left 0
            rw [if_neg hrip, if_neg hrip, runFrom_single, hpanic, hmachine]
            exact .panics
  | exception v errorCode left =>
      have hv : (vectorOf v.val).val = v.val := Nat.mod_eq_of_lt (v.isLt.trans (by decide))
      obtain ⟨hpanic, hmachine⟩ := Hardware.exception_panics ht hu.regs left
        (v := vectorOf v.val) (by rw [hv]; exact v.isLt) errorCode
      rw [hv] at hmachine
      rw [Hardware.events, runFrom_single, Hardware.step, hpanic, hmachine]
      exact .panics
  | int n left =>
      obtain ⟨hpanic, hmachine⟩ := Hardware.protection_panics ht hu.regs left
        (UInt64.ofNat (8 * n + 2))
      have hpl : (tables.gates n).decode.dpl.toUInt16 < cpl h.machine.regs := by
        rw [gate_dpl ht, hu.regs.cpl]
        decide
      rw [Hardware.events, runFrom_single, Hardware.step, if_pos hpl, hpanic, hmachine]
      exact .panics
  | raise line => exact .goes ⟨hu.regs, hu.tasks, hu.pics.raise line⟩ fun _ _ => rfl
  | intr left raised =>
      rw [Hardware.events]
      split
      · rename_i hack
        rw [Hardware.step, if_neg hu.regs.enabled, hack]
        exact .goes hu fun _ _ => rfl
      · rename_i v pics hack
        obtain ⟨i, -, -, -, h', hgoes, hmachine, huser, hmem⟩ := hu.irq ht left raised hack
        rw [hgoes, runFrom_single, hmachine]
        exact .goes huser hmem

/-- The events of a run of signals. -/
def Hardware.eventsOf (image : InterruptImage) (tables : SystemTables) :
    Hardware → List Signal → List Event
  | _, [] => []
  | h, sig :: sigs =>
      h.events sig ++ match h.step image tables sig with
        | .error _ => []
        | .ok h' => h'.eventsOf image tables sigs

/-- **A run** on the hardware is a run of the machine. -/
theorem Hardware.InUser.run (ht : initTables image pics₀ = .ok tables) (sigs : List Signal) :
    ∀ {h : Hardware}, h.InUser → Hardware.Meets image h
      (runFrom (Hardware.step image tables) h sigs)
      (runFrom Machine.step h.machine (h.eventsOf image tables sigs)) := by
  induction sigs with
  | nil => exact fun hu => .goes hu fun _ _ => rfl
  | cons sig sigs ih =>
      intro h hu
      have hfirst := hu.meets ht sig
      rw [Hardware.eventsOf, runFrom_split, runFrom]
      cases hstep : h.step image tables sig with
      | error e =>
          rw [hstep] at hfirst
          cases hmachine : runFrom Machine.step h.machine (h.events sig) with
          | error e' =>
              rw [hmachine] at hfirst
              exact hfirst
          | ok x =>
              rw [hmachine] at hfirst
              cases hfirst
      | ok h₁ =>
          rw [hstep] at hfirst
          cases hmachine : runFrom Machine.step h.machine (h.events sig) with
          | error e' =>
              rw [hmachine] at hfirst
              cases hfirst
          | ok x =>
              rw [hmachine] at hfirst
              obtain ⟨huser, hmem⟩ | - := hfirst
              exact (ih huser).after hmem

/-! ## From the start -/

end Interrupt

end DevOS.Kernel
