import DevOS.Sched.Fairness
import Mathlib.Data.Finset.Lattice.Fold
import Mathlib.Order.Lattice.Nat
import Mathlib.Data.Fintype.Basic

/-!
# Scheduler — virtual time

`create_task`, `run_task` and `schedule` in any order. A task that has not run
yet owes nothing, whenever it becomes RUNNING; the task that is charged next
owes nothing either. So no RUNNING task ever owes more than its own price, and
the 64-bit counters never wrap.
-/

namespace DevOS.Sched

variable {s : State} {r : Regs}

/-- A call of the scheduler's interface; `create` comes with the PML4 that
`vmm_create_user_pml4` returns. -/
inductive SchedOp where
  | create (priority : UInt32) (pml4 : Nat)
  | run (task : Slot) (entry stackTop : UInt64)
  | schedule (r : Regs)

/-- The scheduler executes one call. -/
def SchedOp.exec (s : State) : SchedOp → State
  | .create priority pml4 => (createTask s priority pml4).2
  | .run task entry stackTop => runTask s task entry stackTop
  | .schedule r => (Sched.schedule s r).1

/-- The calls made since the boot state. -/
def execAll (s : State) (ops : List SchedOp) : State := ops.foldl SchedOp.exec s

/-- The largest priority among RUNNING tasks. -/
def largestPriority (s : State) : Nat := (Finset.univ.filter s.running).sup (price s)

/-! ## The invariant -/

/-- **Nobody owes more than one quantum**: not RUNNING tasks, which owe at most
their own; tasks that do not run, and the one that is charged next, owe
nothing. -/
structure Solvent (s : State) : Prop where
  idle : ∀ i, ¬ s.running i → owed s i = 0
  running : ∀ i, s.running i → owed s i ≤ price s i
  current : ∀ c, s.current = some c → s.running c ∧ owed s c = 0

theorem solvent_boot (cr3 : Nat) : Solvent (boot cr3) := by
  refine ⟨fun _ _ => rfl, fun i hi => ?_, fun c hc => ?_⟩
  · cases hi
  · cases hc

/-- A task is rewritten, but for its virtual time; a RUNNING one stays RUNNING at
its price. -/
theorem Solvent.setTask (h : Solvent s) (i : Slot) {f : Task → Task}
    (hvtime : (f (s.tasks i)).vtime = (s.tasks i).vtime)
    (hstays : s.running i → (f (s.tasks i)).state = .running ∧
      (f (s.tasks i)).priority = (s.tasks i).priority) : Solvent (s.setTask i f) := by
  have hother : ∀ j, j ≠ i → (s.setTask i f).tasks j = s.tasks j := fun j hj => setTask_other f hj
  have hself : owed (s.setTask i f) i = owed s i := by
    rw [owed, setTask_self, hvtime, owed]
  have hrunning : s.running i → (s.setTask i f).running i := by
    intro hrun
    rw [State.running, setTask_self]
    exact (hstays hrun).1
  refine ⟨fun j hj => ?_, fun j hj => ?_, fun c hc => ?_⟩
  · by_cases hji : j = i
    · subst hji
      rw [hself]
      exact h.idle j fun hrun => hj (hrunning hrun)
    · rw [State.running, hother j hji] at hj
      rw [owed, hother j hji]
      exact h.idle j hj
  · by_cases hji : j = i
    · subst hji
      rw [hself]
      by_cases hrun : s.running j
      · rw [price, setTask_self, (hstays hrun).2]
        exact h.running j hrun
      · rw [h.idle j hrun]
        exact Nat.zero_le _
    · rw [State.running, hother j hji] at hj
      rw [owed, price, hother j hji]
      exact h.running j hj
  · obtain ⟨hrun, hzero⟩ := h.current c hc
    by_cases hci : c = i
    · subst hci
      rw [hself]
      exact ⟨hrunning hrun, hzero⟩
    · rw [State.running, owed, hother c hci]
      exact ⟨hrun, hzero⟩

/-- `create_task`: a FREE slot is not RUNNING. -/
theorem Solvent.createTask (h : Solvent s) (priority : UInt32) (pml4 : Nat) :
    Solvent (createTask s priority pml4).2 := by
  rcases createTask_cases s priority pml4 with he | ⟨i, hfree, hcases⟩
  · rw [he]
    exact h
  · have hnot : ¬ s.running i := by
      rw [State.running, hfree]
      decide
    rcases hcases with ⟨-, he⟩ | ⟨-, he⟩
    · rw [he]
      have hset := h.setTask i (f := fun t => { t with vmem := 0 }) rfl
        fun hrun => absurd hrun hnot
      exact hset
    · rw [he]
      obtain ⟨hidle, hrunning, hcurrent⟩ :=
        h.setTask i (f := newTask priority pml4 s.nextPid) rfl fun hrun => absurd hrun hnot
      exact ⟨hidle, hrunning, hcurrent⟩

/-- `run_task`, on a task that has not run yet or that runs already. -/
theorem Solvent.runTask (h : Solvent s) (i : Slot) (entry stackTop : UInt64) :
    Solvent (runTask s i entry stackTop) :=
  h.setTask i rfl fun _ => ⟨rfl, rfl⟩

/-! ## `schedule` -/

/-- **The charge**: the current task owes one quantum afterwards, and the
addition does not wrap. -/
theorem Solvent.charge_owed (h : Solvent s) (r : Regs) (i : Slot) (hi : s.running i) :
    owed (charge s r) i ≤ price (charge s r) i := by
  rw [charge_price]
  by_cases hc : s.current = some i
  · rw [charge_owed_self hc (h.current i hc).2]
  · rw [owed, charge_other hc]
    exact h.running i hi

/-- With a RUNNING task there is a least one: nobody owes `UINT64_MAX`. -/
theorem Solvent.least (h : Solvent s) (r : Regs) (hrun : ∃ i, s.running i) :
    ∃ c, Least (charge s r) c ∧
      schedule s r = resume (charge s r) c ((charge s r).tasks c).vtime ∧
      pick (charge s r) = (((charge s r).tasks c).vtime, some c) := by
  obtain ⟨i, hi⟩ := hrun
  rcases pick_spec (charge s r) with ⟨c, hc, hp⟩ | ⟨hall, -⟩
  · exact ⟨c, hc, by simp only [schedule, hp], hp⟩
  · have hmax := hall i (by rwa [State.running, charge_state])
    have hle := h.charge_owed r i hi
    have hprice := price_lt (charge s r) i
    rw [owed, hmax] at hle
    simp only [UInt64.toNat_ofNat] at hle
    omega

theorem Solvent.schedule (h : Solvent s) (r : Regs) : Solvent (schedule s r).1 := by
  by_cases hrun : ∃ i, s.running i
  · obtain ⟨c, hc, he, -⟩ := h.least r hrun
    rw [he]
    have hstate : ∀ i, (resume (charge s r) c ((charge s r).tasks c).vtime).1.running i ↔
        s.running i := by
      intro i
      rw [State.running, (resume_frame _ _ _ i).1, charge_state, State.running]
    refine ⟨fun i hi => ?_, fun i hi => ?_, fun d hd => ?_⟩
    · -- neither charged nor renormalised
      rw [hstate] at hi
      have hcur : s.current ≠ some i := fun he => hi (h.current i he).1
      have hnot : ¬ (charge s r).running i := by rwa [State.running, charge_state]
      rw [owed, resume_task, if_neg hnot, charge_other hcur]
      exact h.idle i hi
    · have hi' : (charge s r).running i := by
        rw [State.running, charge_state]
        exact (hstate i).mp hi
      have hadd := resume_owed_add hc hi'
      have hle := h.charge_owed r i ((hstate i).mp hi)
      have hprice : price (resume (charge s r) c ((charge s r).tasks c).vtime).1 i =
          price (charge s r) i := by
        rw [price, (resume_frame _ _ _ i).2.2.2, price]
      omega
    · cases hd
      refine ⟨(hstate c).mpr ?_, resume_owed hc⟩
      have hrunning := hc.running
      rwa [State.running, charge_state] at hrunning
  · -- without a RUNNING task there is no current one, and nothing happens
    have hnone : s.current = none := by
      cases hcur : s.current with
      | none => rfl
      | some c => exact absurd ⟨c, (h.current c hcur).1⟩ hrun
    rcases schedule_cases s r with ⟨c, hc, -⟩ | ⟨-, ⟨-, he⟩ | ⟨c, hcur, -⟩⟩
    · have hrunning := hc.running
      rw [State.running, charge_state] at hrunning
      exact absurd ⟨c, hrunning⟩ hrun
    · rw [he]
      exact h
    · rw [hnone] at hcur
      cases hcur

/-! ## Runs -/

/-- One call of any kind. -/
theorem Solvent.exec (h : Solvent s) (op : SchedOp) : Solvent (op.exec s) := by
  cases op with
  | create priority pml4 => exact h.createTask priority pml4
  | run task entry stackTop => exact h.runTask task entry stackTop
  | schedule r => exact h.schedule r

theorem Solvent.execAll (ops : List SchedOp) : ∀ {s : State}, Solvent s →
    Solvent (execAll s ops) := by
  induction ops with
  | nil => intro s h; exact h
  | cons op ops ih => intro s h; exact ih (h.exec op)

/-- **Virtual time never wraps**: whatever calls were made since boot, after a
call of `schedule` with a RUNNING task the current task is RUNNING with virtual
time 0, and no RUNNING task is above the largest priority among them; and in
every call neither the addition of the priority nor the subtraction of
`min_vtime` wraps. -/
theorem virtual_time_never_wraps (cr3 : Nat) (ops : List SchedOp) (r : Regs) :
    let s := execAll (boot cr3) ops
    let s' := (schedule s r).1
    ((∃ i, s.running i) →
      (∃ c, s'.current = some c ∧ s'.running c ∧ (s'.tasks c).vtime = 0) ∧
      ∀ i, s'.running i → (s'.tasks i).vtime.toNat ≤ largestPriority s' ∧
        (s'.tasks i).vtime.toNat < 2 ^ 32) ∧
    (∀ c, s.current = some c → ((charge s r).tasks c).vtime.toNat =
      (s.tasks c).vtime.toNat + (s.tasks c).priority.toNat) ∧
    ∀ i, s.running i → (s'.tasks i).vtime.toNat + (pick (charge s r)).1.toNat =
      ((charge s r).tasks i).vtime.toNat := by
  have h : Solvent (execAll (boot cr3) ops) := (solvent_boot cr3).execAll ops
  have h' := h.schedule r
  generalize execAll (boot cr3) ops = s at h h'
  refine ⟨fun hrun => ⟨?_, fun i hi => ?_⟩, fun c hc => ?_, fun i hi => ?_⟩
  · obtain ⟨c, -, he, -⟩ := h.least r hrun
    have hcur : (Sched.schedule s r).1.current = some c := by rw [he, resume_current]
    obtain ⟨hc, hzero⟩ := h'.current c hcur
    exact ⟨c, hcur, hc, UInt64.toNat_inj.mp hzero⟩
  · have hle := h'.running i hi
    have hprice := price_lt (Sched.schedule s r).1 i
    have hsup : price (Sched.schedule s r).1 i ≤ largestPriority (Sched.schedule s r).1 :=
      Finset.le_sup (Finset.mem_filter.mpr ⟨Finset.mem_univ i, hi⟩)
    unfold owed at hle
    omega
  · have howed := charge_owed_self (r := r) hc (h.current c hc).2
    have hzero := (h.current c hc).2
    unfold owed at howed hzero
    unfold price at howed
    omega
  · obtain ⟨c, hc, he, hp⟩ := h.least r ⟨i, hi⟩
    have hi' : (charge s r).running i := by rwa [State.running, charge_state]
    have hadd := resume_owed_add hc hi'
    unfold owed at hadd
    rw [he, hp]
    exact hadd

/-- A task that starts to run late, while another has run before. -/
example : (∃ i, (execAll (boot 0) [.create 5 0x1000, .run 0 0 0, .schedule Regs.zero,
      .create 7 0x2000, .schedule Regs.zero, .run 1 0 0]).running i) ∧
    (execAll (boot 0) [.create 5 0x1000, .run 0 0 0, .schedule Regs.zero, .create 7 0x2000,
      .schedule Regs.zero, .run 1 0 0, .schedule Regs.zero]).current = some 1 := by
  decide +kernel

end DevOS.Sched
