import DevOS.Sched.Sched

/-!
# Scheduler — making tasks

`create_task`, `run_task` and `make_task` with every outcome of their
allocations, and the states they build before the first interrupt.
-/

namespace DevOS.Sched

variable {s : State}

theorem setTask_task (s : State) (i : Slot) (f : Task → Task) (j : Slot) :
    (s.setTask i f).tasks j = if j = i then f (s.tasks i) else s.tasks j := by
  simp [State.setTask, Function.update_apply]

theorem setTask_other {i j : Slot} (f : Task → Task) (h : j ≠ i) :
    (s.setTask i f).tasks j = s.tasks j := by
  rw [setTask_task, if_neg h]

@[simp] theorem setTask_self (s : State) (i : Slot) (f : Task → Task) :
    (s.setTask i f).tasks i = f (s.tasks i) := by
  rw [setTask_task, if_pos rfl]

theorem free_of_getFreeSlot {i : Slot} (h : getFreeSlot s = some i) :
    (s.tasks i).state = .free := by
  have := List.find?_some h
  simpa using this

/-! ## `create_task` -/

/-- The record `create_task` leaves in the slot it takes. -/
def newTask (priority : UInt32) (pml4 : Nat) (pid : UInt64) (t : Task) : Task :=
  { t with
    vmem := pml4
    ctx := { t.ctx with rflags := 0x202, cs := 0x28 ||| 3, ss := 0x30 ||| 3 }
    priority := priority
    pid := pid
    state := .init }

/-- The state `create_task` leaves when it succeeds with slot `i`. -/
def State.withTask (s : State) (i : Slot) (priority : UInt32) (pml4 : Nat) : State :=
  { s.setTask i (newTask priority pml4 s.nextPid) with nextPid := s.nextPid + 1 }

/-- **Inversion of `create_task`**: no slot; a slot but no table (the slot
stays FREE); or a new task with the next pid. -/
theorem createTask_cases (s : State) (priority : UInt32) (pml4 : Nat) :
    createTask s priority pml4 = (none, s) ∨
    ∃ i, (s.tasks i).state = .free ∧
      ((pml4 = 0 ∧ createTask s priority pml4 =
          (none, s.setTask i fun t => { t with vmem := 0 })) ∨
        (pml4 ≠ 0 ∧ createTask s priority pml4 = (some i, s.withTask i priority pml4))) := by
  unfold createTask
  cases hslot : getFreeSlot s with
  | none => exact .inl rfl
  | some i =>
      right
      refine ⟨i, free_of_getFreeSlot hslot, ?_⟩
      by_cases h : pml4 = 0
      · left
        simp only [h, if_pos, true_and]
      · right
        simp only [h, if_neg, not_false_eq_true, ne_eq, true_and]
        simp [State.withTask, State.setTask, newTask]

/-! ## `make_task` -/

/-- No task was made: FREE slots stay FREE and the others are untouched. -/
structure Unmade (s s' : State) : Prop where
  state : ∀ j, (s'.tasks j).state = (s.tasks j).state
  other : ∀ j, (s.tasks j).state ≠ .free → s'.tasks j = s.tasks j
  nextPid : s'.nextPid = s.nextPid
  cr3 : s'.cr3 = s.cr3

/-- A task was made in slot `i` with the PML4 at `pml4`: it has the next pid,
and its table is the one CR3 now points to. -/
structure MadeIn (s s' : State) (i : Slot) (pml4 : Nat) : Prop where
  was : (s.tasks i).state = .free
  state : (s'.tasks i).state ≠ .free
  other : ∀ j, j ≠ i → s'.tasks j = s.tasks j
  vmem : (s'.tasks i).vmem = pml4
  pid : (s'.tasks i).pid = s.nextPid
  nextPid : s'.nextPid = s.nextPid + 1
  cr3 : s'.cr3 = Arch.virtToPhys pml4

/-- **Inversion of `make_task`**: it creates no task, or one whose table it
loads, whether or not the task's pages could then be allocated. -/
theorem makeTask_cases (s : State) (priority : UInt32) (pml4 : Nat) (pages : Option Nat) :
    Unmade s (makeTask s priority pml4 pages).2 ∨
    (pml4 ≠ 0 ∧ ∃ i, MadeIn s (makeTask s priority pml4 pages).2 i pml4) := by
  rcases createTask_cases s priority pml4 with he | ⟨i, hfree, ⟨-, he⟩ | ⟨h0, he⟩⟩
  · left
    simp only [makeTask, he]
    exact ⟨fun _ => rfl, fun _ _ => rfl, rfl, rfl⟩
  · left
    simp only [makeTask, he]
    refine ⟨fun j => ?_, fun j hj => ?_, rfl, rfl⟩
    · rw [setTask_task]
      split
      · rename_i hj
        rw [hj]
      · rfl
    · exact setTask_other _ fun h => hj (h ▸ hfree)
  · right
    refine ⟨h0, i, ?_⟩
    have hcr3 : Arch.virtToPhys ((s.withTask i priority pml4).tasks i).vmem =
        Arch.virtToPhys pml4 := by
      simp [State.withTask, newTask]
    cases pages with
    | none =>
        simp only [makeTask, he]
        refine ⟨hfree, ?_, fun j hj => ?_, ?_, ?_, rfl, hcr3⟩
        · simp [State.vmmSetTable, State.withTask, newTask]
        · exact setTask_other _ hj
        · simp [State.vmmSetTable, State.withTask, newTask]
        · simp [State.vmmSetTable, State.withTask, newTask]
    | some page =>
        simp only [makeTask, he]
        refine ⟨hfree, ?_, fun j hj => ?_, ?_, ?_, rfl, hcr3⟩
        · simp [runTask]
        · rw [runTask, setTask_other _ hj, setTask_other _ hj]
          exact setTask_other _ hj
        · simp [runTask, State.vmmSetTable, State.withTask, newTask]
        · simp [runTask, State.vmmSetTable, State.withTask, newTask]

/-! ## Before the first interrupt -/

/-- **Nothing has run yet**: no task is `current` and all virtual times are 0. -/
structure Fresh (s : State) : Prop where
  current : s.current = none
  vtime : ∀ i, (s.tasks i).vtime = 0

theorem Fresh.setTask (h : Fresh s) (i : Slot) {f : Task → Task}
    (hf : (f (s.tasks i)).vtime = (s.tasks i).vtime) : Fresh (s.setTask i f) := by
  refine ⟨h.current, fun j => ?_⟩
  rw [setTask_task]
  split
  · rw [hf, h.vtime]
  · exact h.vtime j

theorem Fresh.withTask (h : Fresh s) (i : Slot) (priority : UInt32) (pml4 : Nat) :
    Fresh (s.withTask i priority pml4) := by
  obtain ⟨h1, h2⟩ := h.setTask i (f := newTask priority pml4 s.nextPid) rfl
  exact ⟨h1, h2⟩

theorem Fresh.createTask (h : Fresh s) (priority : UInt32) (pml4 : Nat) :
    Fresh (createTask s priority pml4).2 := by
  rcases createTask_cases s priority pml4 with he | ⟨i, -, ⟨-, he⟩ | ⟨-, he⟩⟩
  · rw [he]
    exact h
  · rw [he]
    have hvmem := h.setTask i (f := fun t => { t with vmem := 0 }) rfl
    exact hvmem
  · rw [he]
    exact h.withTask i priority pml4

theorem Fresh.runTask (h : Fresh s) (i : Slot) (entry stackTop : UInt64) :
    Fresh (runTask s i entry stackTop) := h.setTask i rfl

theorem Fresh.vmmSetTable (h : Fresh s) (pml4 : Nat) : Fresh (s.vmmSetTable pml4) :=
  ⟨h.current, h.vtime⟩

theorem Fresh.makeTask (h : Fresh s) (priority : UInt32) (pml4 : Nat) (pages : Option Nat) :
    Fresh (makeTask s priority pml4 pages).2 := by
  have hc := h.createTask priority pml4
  unfold Sched.makeTask
  cases he : Sched.createTask s priority pml4 with
  | mk res s' =>
      rw [he] at hc
      cases res with
      | none => exact hc
      | some i =>
          have hl := Fresh.vmmSetTable hc (s'.tasks i).vmem
          cases pages with
          | none => exact hl
          | some page => exact (hl.setTask i rfl).runTask i _ _

/-- The states that `create_task`, `run_task` and `make_task` build from the
boot state, in any order and with every outcome of their allocations. -/
inductive Made : State → Prop
  | boot (cr3 : Nat) : Made (boot cr3)
  | create {s : State} (priority : UInt32) (pml4 : Nat) :
      Made s → Made (createTask s priority pml4).2
  | run {s : State} (i : Slot) (entry stackTop : UInt64) :
      Made s → (s.tasks i).state = .init → Made (runTask s i entry stackTop)
  | make {s : State} (m : Making) : Made s → Made (m.make s)

theorem Made.fresh (h : Made s) : Fresh s := by
  induction h with
  | boot cr3 => exact ⟨rfl, fun _ => rfl⟩
  | create priority pml4 _ ih => exact ih.createTask priority pml4
  | run i entry stackTop _ _ ih => exact ih.runTask i entry stackTop
  | make m _ ih => exact ih.makeTask _ _ _

theorem Made.makeTasks (ms : List Making) : ∀ {s : State}, Made s → Made (makeTasks s ms) := by
  induction ms with
  | nil => intro s h; exact h
  | cons m ms ih => intro s h; exact ih (h.make m)

/-- The tasks of `entry`, with four tables and four blocks of pages from
frame 0x1000 on. -/
def entryTasks : State :=
  makeTasks (boot 0x230000)
    [⟨1024, some 0x1000, some 0x1010⟩, ⟨1024, some 0x1001, some 0x1012⟩,
      ⟨100, some 0x1002, some 0x1014⟩, ⟨10000, some 0x1003, some 0x1016⟩]

theorem entryTasks_made : Made entryTasks := (Made.boot 0x230000).makeTasks _

end DevOS.Sched
