import DevOS.Kernel.Tasks

/-!
# Kernel — the scheduler's `make_task` refined

The scheduler's model of `make_task` takes the outcomes of its allocations as
arguments. Every run over the page tables and the allocator is such a run, with
the outcomes that were had, and meets what the results about the scheduler ask
of them: the tables are distinct frames.
-/

namespace DevOS.Kernel

open DevOS.Lib DevOS.Arch DevOS.Mm DevOS.Sched

variable {b₀ : Buddy} {hreach : b₀.memNrPages * pageSize ≤ hhdmLimit} {kernPml4 : Nat}
  {userTest : Fin 512 → Word} {D : PageDiff} {m : Client { b // BlockMap b₀ b }}
  {s₀ : Vmm Buddy} {y y' : System} {priority : UInt32} {res : Option Sched.Slot}

/-! ## One call -/

/-- What `task_alloc_pages` leaves of the scheduler. -/
theorem taskAllocPages_sched {i : Sched.Slot} {order : Nat} {page : Option Nat}
    (hcall : taskAllocPages y i order = .ok (page, y')) :
    y'.sched = match page with
      | none => y.sched
      | some page => y.sched.setTask i fun t => { t with pages := some page } := by
  unfold taskAllocPages at hcall
  split at hcall
  · cases hcall
  · cases hcall
    rfl
  · cases hcall
    rfl

/-- **`make_task` is the scheduler's**, given the table it gets. -/
theorem makeTask_sched (hcall : makeTask D kernPml4 userTest y priority = .ok (res, y'))
    {i : Sched.Slot} {pml4 : Nat} {s : Vmm Buddy}
    (hcreate : createTask D kernPml4 y priority =
      .ok (some i, ⟨s, y.sched.withTask i priority pml4⟩))
    (hsched : Sched.createTask y.sched priority pml4 = (some i, y.sched.withTask i priority pml4)) :
    ∃ pages, (res, y'.sched) = Sched.makeTask y.sched priority pml4 pages := by
  unfold makeTask at hcall
  rw [hcreate] at hcall
  dsimp only at hcall
  split at hcall
  · cases hcall
  · rename_i y₁ halloc
    cases hcall
    refine ⟨none, ?_⟩
    rw [taskAllocPages_sched halloc]
    simp only [Sched.makeTask, hsched]
  · rename_i page y₁ halloc
    split at hcall
    · cases hcall
    · split at hcall
      · cases hcall
      · cases hcall
        refine ⟨some page, ?_⟩
        rw [taskAllocPages_sched halloc]
        simp only [Sched.makeTask, hsched]
        rfl

/-- The slot that `create_task` took. -/
theorem makeTask_madeIn {s : State} {i : Sched.Slot} {pml4 : Nat}
    (hfree : (s.tasks i).state = .free)
    (h : Sched.createTask s priority pml4 = (some i, s.withTask i priority pml4))
    (pages : Option Nat) : MadeIn s (Sched.makeTask s priority pml4 pages).2 i pml4 := by
  have hvmem : ((s.withTask i priority pml4).tasks i).vmem = pml4 :=
    congrArg Task.vmem (setTask_self s i _)
  cases pages with
  | none =>
      simp only [Sched.makeTask, h]
      refine ⟨hfree, fun hc => ?_, fun j hj => setTask_other _ hj, hvmem,
        congrArg Task.pid (setTask_self s i _), rfl, congrArg virtToPhys hvmem⟩
      exact TaskState.noConfusion ((congrArg Task.state (setTask_self s i _)).symm.trans hc)
  | some page =>
      simp only [Sched.makeTask, h]
      refine ⟨hfree, fun hc => ?_, fun j hj => ?_, ?_, ?_, rfl, congrArg virtToPhys hvmem⟩
      · rw [runTask, setTask_self] at hc
        cases hc
      · exact (setTask_other _ hj).trans ((setTask_other _ hj).trans (setTask_other _ hj))
      · rw [runTask, setTask_self, setTask_self]
        exact hvmem
      · rw [runTask, setTask_self, setTask_self]
        exact congrArg Task.pid (setTask_self s i _)

theorem make_table (s : State) (priority : UInt32) (f : Nat) (pages : Option Nat) :
    (⟨priority, some f, pages⟩ : Making).make s =
      (Sched.makeTask s priority (pageToHhdm f) pages).2 := by
  rw [Making.make, Option.elim_some]

/-- **One call** is the scheduler's with the outcomes that were had; a table
that it gets is on a frame no table was on. -/
theorem TasksInv.refines (h : TasksInv hreach kernPml4 userTest s₀ y m)
    (hcall : Kernel.makeTask D kernPml4 userTest y priority = .ok (res, y')) :
    ∃ mk : Making, mk.priority = priority ∧ y'.sched = mk.make y.sched ∧ ∀ f, mk.pml4 = some f →
      f * pageSize < hhdmLimit ∧ pageToHhdm f ∉ m.addrSpaces.live ∧
      ∃ i, MadeIn y.sched y'.sched i (pageToHhdm f) := by
  cases hcreate : createTask D kernPml4 y priority with
  | error e =>
      unfold Kernel.makeTask at hcall
      rw [hcreate] at hcall
      cases hcall
  | ok out =>
      obtain ⟨slot, y₁⟩ := out
      obtain ⟨rfl, rfl, hslot⟩ | ⟨i, pml4, s', rfl, hfree, hsched, rfl, hinv, hnew, hnot⟩ :=
        createTask_ok h hcreate
      · unfold Kernel.makeTask at hcall
        rw [hcreate] at hcall
        cases hcall
        refine ⟨⟨priority, none, none⟩, rfl, ?_, fun f hf => by cases hf⟩
        simp only [Making.make, Sched.makeTask, Sched.createTask, hslot]
      · obtain ⟨pages, he⟩ := makeTask_sched hcall hcreate hsched
        obtain ⟨f, hmanaged, hpml4⟩ := hinv.tables.pointer pml4 List.mem_cons_self
        have hmadeIn := makeTask_madeIn hfree hsched pages
        rw [hpml4] at he hnot hmadeIn
        have hmade : y'.sched = (Sched.makeTask y.sched priority (pageToHhdm f) pages).2 :=
          congrArg Prod.snd he
        refine ⟨⟨priority, some f, pages⟩, rfl, hmade.trans (make_table ..).symm, fun g hg => ?_⟩
        obtain rfl : f = g := Option.some.inj hg
        refine ⟨(buddyPool b₀ hreach).managed_lt f hmanaged, fun hmem => hnot ?_, i, ?_⟩
        · exact List.mem_cons_of_mem _ (List.mem_map_of_mem hmem)
        · rw [hmade]
          exact hmadeIn

/-! ## Runs -/

/-- `y` is what the scheduler's `make_task` makes with the outcomes `ms`, whose
tables are distinct frames that the tasks now have. -/
structure Traced (kernPml4 : Nat) (y : System) (ms : List Making) : Prop where
  sched : y.sched = makeTasks (Sched.boot (virtToPhys kernPml4)) ms
  nodup : (tables ms).Nodup
  below : ∀ f ∈ tables ms, f * pageSize < hhdmLimit
  taken : ∀ f ∈ tables ms, ∃ i, (y.sched.tasks i).state ≠ .free ∧
    (y.sched.tasks i).vmem = pageToHhdm f

/-- The table of a task is one of the address spaces. -/
theorem TasksInv.space (h : TasksInv hreach kernPml4 userTest s₀ y m) {i : Sched.Slot}
    (hi : (y.sched.tasks i).state ≠ .free) : (y.sched.tasks i).vmem ∈ m.addrSpaces.live := by
  by_cases hrun : y.sched.running i
  · obtain ⟨page, hp⟩ := h.placed i hrun
    exact hp.space
  · exact (h.bare i hi hrun).space

theorem makeTasks_append (s : State) (ms : List Making) (mk : Making) :
    makeTasks s (ms ++ [mk]) = mk.make (makeTasks s ms) := by
  rw [makeTasks, List.foldl_append]
  rfl

theorem tables_append (ms : List Making) (mk : Making) :
    tables (ms ++ [mk]) = tables ms ++ mk.pml4.toList := by
  rw [tables, List.filterMap_append]
  cases hp : mk.pml4 <;> simp [tables, hp]

/-- Without a table no task is made. -/
theorem unmade_of_none {mk : Making} (h : mk.pml4 = none) (s : State) : Unmade s (mk.make s) := by
  rw [Making.make, h]
  rcases makeTask_cases s mk.priority 0 mk.pages with hun | ⟨hne, -⟩
  · exact hun
  · exact absurd rfl hne

theorem Traced.step {ms : List Making} (ht : Traced kernPml4 y ms)
    (h : TasksInv hreach kernPml4 userTest s₀ y m)
    (hcall : Kernel.makeOne D kernPml4 userTest y priority = .ok y') :
    ∃ mk : Making, mk.priority = priority ∧ Traced kernPml4 y' (ms ++ [mk]) := by
  unfold Kernel.makeOne at hcall
  split at hcall
  · cases hcall
  rename_i hmake
  cases hcall
  obtain ⟨mk, hpriority, hsched, htable⟩ := h.refines hmake
  have hrun : y'.sched = makeTasks (Sched.boot (virtToPhys kernPml4)) (ms ++ [mk]) := by
    rw [hsched, ht.sched, makeTasks_append]
  refine ⟨mk, hpriority, ?_⟩
  cases hp : mk.pml4 with
  | none =>
      have hsame : tables (ms ++ [mk]) = tables ms := by
        rw [tables_append, hp, Option.toList_none, List.append_nil]
      have hun := unmade_of_none hp y.sched
      rw [← hsched] at hun
      refine ⟨hrun, hsame ▸ ht.nodup, hsame ▸ ht.below, fun f hf => ?_⟩
      obtain ⟨i, hi, hvmem⟩ := ht.taken f (hsame ▸ hf)
      refine ⟨i, ?_, ?_⟩
      · rw [hun.other i hi]
        exact hi
      · rw [hun.other i hi]
        exact hvmem
  | some f =>
      have hmore : tables (ms ++ [mk]) = tables ms ++ [f] := by
        rw [tables_append, hp, Option.toList_some]
      obtain ⟨hbelow, hfresh, i, hmade⟩ := htable f hp
      have hnot : f ∉ tables ms := by
        intro hf
        obtain ⟨j, hj, hvmem⟩ := ht.taken f hf
        exact hfresh (hvmem ▸ h.space hj)
      refine ⟨hrun, ?_, fun g hg => ?_, fun g hg => ?_⟩
      · rw [hmore]
        exact List.nodup_append.mpr ⟨ht.nodup, List.nodup_singleton f, fun a ha b hb =>
          fun hab => hnot (List.mem_singleton.mp hb ▸ hab ▸ ha)⟩
      · rcases List.mem_append.mp (hmore ▸ hg) with hg | hg
        · exact ht.below g hg
        · exact List.mem_singleton.mp hg ▸ hbelow
      · rcases List.mem_append.mp (hmore ▸ hg) with hg | hg
        · obtain ⟨j, hj, hvmem⟩ := ht.taken g hg
          have hne : j ≠ i := fun hc => hj (hc ▸ hmade.was)
          refine ⟨j, ?_, ?_⟩
          · rw [hmade.other j hne]
            exact hj
          · rw [hmade.other j hne]
            exact hvmem
        · obtain rfl := List.mem_singleton.mp hg
          exact ⟨i, hmade.state, hmade.vmem⟩

theorem traced_boot (kernPml4 : Nat) (vmm : Vmm Buddy) :
    Traced kernPml4 ⟨vmm, Sched.boot (virtToPhys kernPml4)⟩ [] :=
  ⟨rfl, List.nodup_nil, fun _ hf => absurd hf List.not_mem_nil,
    fun _ hf => absurd hf List.not_mem_nil⟩

theorem Traced.run (ps : List UInt32) :
    ∀ {y y' : System} {m : Client { b // BlockMap b₀ b }} {ms : List Making},
      Traced kernPml4 y ms → TasksInv hreach kernPml4 userTest s₀ y m →
      runFrom (Kernel.makeOne D kernPml4 userTest) y ps = .ok y' →
      ∃ ms' : List Making, ms'.map Making.priority = ps ∧ Traced kernPml4 y' (ms ++ ms') := by
  induction ps with
  | nil =>
      intro y y' m ms ht _ hrun
      cases hrun
      exact ⟨[], rfl, ms.append_nil.symm ▸ ht⟩
  | cons p ps ih =>
      intro y y' m ms ht h hrun
      unfold runFrom at hrun
      split at hrun
      · cases hrun
      · rename_i y₁ hone
        obtain ⟨mk, hpriority, ht₁⟩ := ht.step h hone
        obtain ⟨m₁, h₁⟩ := h.makeOne hone
        obtain ⟨ms', hps, ht'⟩ := ih ht₁ h₁ hrun
        refine ⟨mk :: ms', ?_, ?_⟩
        · rw [List.map_cons, hpriority, hps]
        · rw [List.append_cons]
          exact ht'

/-- **The runs over the page tables and the allocator are runs of the
scheduler**: the calls of `make_task` of any boot have outcomes with which the
scheduler's model gives the same tasks, and their tables are distinct frames. -/
theorem makeTasks_refined (D : PageDiff) (kernPml4 : Nat) (userTest : Fin 512 → Word)
    (c : Client Buddy) (h : ReadyBoot kernPml4 c) (ps : List UInt32) (y : System)
    (hrun : runFrom (makeOne D kernPml4 userTest) ⟨c.vmm, Sched.boot (virtToPhys kernPml4)⟩ ps =
      .ok y) :
    ∃ ms : List Making, ms.map Making.priority = ps ∧
      y.sched = makeTasks (Sched.boot (virtToPhys kernPml4)) ms ∧ (tables ms).Nodup ∧
      ∀ f ∈ tables ms, f * pageSize < hhdmLimit := by
  obtain ⟨m, hstart⟩ := tasksInv_boot h userTest
  obtain ⟨ms, hps, ht⟩ := Traced.run ps (traced_boot kernPml4 c.vmm) hstart hrun
  exact ⟨ms, hps, ht.sched, ht.nodup, ht.below⟩

theorem makeTasks_refined_two : ∃ y ms, smallTasks [1024, 100] = some (.ok y) ∧
    ms.map Making.priority = [1024, 100] ∧
    y.sched = makeTasks (Sched.boot (virtToPhys firstTables.kernPml4)) ms := by
  obtain ⟨y, hgoes, -, -⟩ := smallTasks_goes
  obtain ⟨c, hboot, hrun⟩ := smallTasks_run hgoes
  obtain ⟨ms, hps, hsched, -⟩ := makeTasks_refined dividing _ _ c (smallMachine_ready hboot)
    [1024, 100] y hrun
  exact ⟨y, ms, hgoes, hps, hsched⟩

end DevOS.Kernel
