import DevOS.Sched.Sched

/-!
# Scheduler — what one call does

`schedule` charges the current task, selects the RUNNING task of least
virtual time (the lowest slot among equals), renormalises and switches. This
module states each part once: the charge and the switch field by field, the
selection through `Least`, and `schedule_cases`, the inversion of a whole call
on which the results about runs are built.
-/

namespace DevOS.Sched

variable {s : State} {r : Regs} {c i : Slot}

def State.running (s : State) (i : Slot) : Prop := (s.tasks i).state = .running

instance (s : State) (i : Slot) : Decidable (s.running i) :=
  inferInstanceAs (Decidable ((s.tasks i).state = .running))

/-! ## The charge -/

@[simp] theorem charge_current (s : State) (r : Regs) : (charge s r).current = s.current := by
  unfold charge
  split <;> rfl

theorem charge_none (h : s.current = none) : charge s r = s := by
  simp [charge, h]

theorem charge_other (h : s.current ≠ some i) : (charge s r).tasks i = s.tasks i := by
  unfold charge
  split
  · rfl
  · rename_i c hc
    have hne : i ≠ c := fun he => h (he ▸ hc)
    simp [State.setTask, hne]

theorem charge_self (h : s.current = some i) : (charge s r).tasks i =
    { s.tasks i with ctx := r, vtime := (s.tasks i).vtime + (s.tasks i).priority.toUInt64 } := by
  simp [charge, h, State.setTask]

/-- The charge leaves everything but the saved frame and the virtual time. -/
theorem charge_frame (s : State) (r : Regs) (i : Slot) :
    ((charge s r).tasks i).state = (s.tasks i).state ∧
      ((charge s r).tasks i).vmem = (s.tasks i).vmem ∧
      ((charge s r).tasks i).priority = (s.tasks i).priority := by
  by_cases h : s.current = some i
  · rw [charge_self h]
    exact ⟨rfl, rfl, rfl⟩
  · rw [charge_other h]
    exact ⟨rfl, rfl, rfl⟩

@[simp] theorem charge_state (s : State) (r : Regs) (i : Slot) :
    ((charge s r).tasks i).state = (s.tasks i).state := (charge_frame s r i).1

@[simp] theorem charge_vmem (s : State) (r : Regs) (i : Slot) :
    ((charge s r).tasks i).vmem = (s.tasks i).vmem := (charge_frame s r i).2.1

@[simp] theorem charge_priority (s : State) (r : Regs) (i : Slot) :
    ((charge s r).tasks i).priority = (s.tasks i).priority := (charge_frame s r i).2.2

/-! ## The selection -/

/-- `c` is the RUNNING task of least virtual time below `UINT64_MAX`, the
lowest slot among equals. -/
structure Least (s : State) (c : Slot) : Prop where
  running : s.running c
  below : (s.tasks c).vtime < 0xFFFFFFFFFFFFFFFF
  least : ∀ j, s.running j → (s.tasks c).vtime ≤ (s.tasks j).vtime
  first : ∀ j, s.running j → j < c → (s.tasks c).vtime < (s.tasks j).vtime

/-- Two least tasks are the same: each would precede the other. -/
theorem Least.unique {d : Slot} (hc : Least s c) (hd : Least s d) : c = d := by
  rcases lt_trichotomy c d with h | h | h
  · have h1 := hd.first c hc.running h
    have h2 := hc.least d hd.running
    exact absurd h1 (UInt64.not_lt.mpr h2)
  · exact h
  · have h1 := hc.first d hd.running h
    have h2 := hd.least c hc.running
    exact absurd h1 (UInt64.not_lt.mpr h2)

/-- **The selection loop**: it ends on the least task, or keeps `current` when
no RUNNING task is below `UINT64_MAX`. -/
theorem pick_spec (s : State) :
    (∃ c, Least s c ∧ pick s = ((s.tasks c).vtime, some c)) ∨
    ((∀ j, s.running j → (s.tasks j).vtime = 0xFFFFFFFFFFFFFFFF) ∧
      pick s = (0xFFFFFFFFFFFFFFFF, s.current)) := by
  have hscan := Lib.scan_first_min s.running (fun i => (s.tasks i).vtime) UInt64.toNat
    (pickStep s) ?_ ?_ (List.finRange 16) (0xFFFFFFFFFFFFFFFF, s.current)
  · rcases hscan with ⟨hall, hr⟩ | ⟨pre, c, post, he, hok, hlt, hr, hpre, hpost⟩
    · right
      refine ⟨fun j hj => ?_, hr⟩
      have h1 := hall j (List.mem_finRange j) hj
      have h2 := (s.tasks j).vtime.toNat_lt
      apply UInt64.toNat_inj.mp
      simp only [UInt64.toNat_ofNat] at h1 ⊢
      omega
    · left
      have hsorted := List.pairwise_lt_finRange 16
      rw [he, List.pairwise_append, List.pairwise_cons] at hsorted
      -- slots before `c` are strictly above it, slots after it not below
      have hsplit : ∀ j : Slot, j ∈ pre ∨ j = c ∨ j ∈ post := by
        intro j
        have hj := List.mem_finRange j
        rwa [he, List.mem_append, List.mem_cons] at hj
      refine ⟨c, ⟨hok, UInt64.lt_iff_toNat_lt.mpr hlt, ?_, ?_⟩, hr⟩
      · intro j hj
        apply UInt64.le_iff_toNat_le.mpr
        rcases hsplit j with h | h | h
        · exact Nat.le_of_lt (hpre j h hj)
        · rw [h]
        · exact hpost j h hj
      · intro j hj hlt'
        rcases hsplit j with h | h | h
        · exact UInt64.lt_iff_toNat_lt.mpr (hpre j h hj)
        · exact absurd hlt' (h ▸ lt_irrefl c)
        · exact absurd (hsorted.2.1.1 j h) (not_lt.mpr hlt'.le)
  · intro acc i hok hlt
    unfold pickStep
    rw [if_neg]
    intro h
    rcases h with h | h
    · exact h hok
    · exact absurd (UInt64.le_iff_toNat_le.mp h) (Nat.not_le.mpr hlt)
  · intro acc i h
    unfold pickStep
    rw [if_pos]
    by_cases hok : s.running i
    · right
      exact UInt64.le_iff_toNat_le.mpr (Nat.le_of_not_lt fun hlt => h ⟨hok, hlt⟩)
    · exact .inl hok

/-! ## The switch -/

@[simp] theorem resume_current (s : State) (c : Slot) (m : UInt64) :
    (resume s c m).1.current = some c := rfl

theorem resume_task (s : State) (c : Slot) (m : UInt64) (i : Slot) :
    (resume s c m).1.tasks i =
      if s.running i then { s.tasks i with vtime := (s.tasks i).vtime - m } else s.tasks i := rfl

/-- The switch changes no task but for the virtual time of RUNNING ones. -/
theorem resume_frame (s : State) (c : Slot) (m : UInt64) (i : Slot) :
    ((resume s c m).1.tasks i).state = (s.tasks i).state ∧
      ((resume s c m).1.tasks i).ctx = (s.tasks i).ctx ∧
      ((resume s c m).1.tasks i).vmem = (s.tasks i).vmem ∧
      ((resume s c m).1.tasks i).priority = (s.tasks i).priority := by
  rw [resume_task]
  split <;> exact ⟨rfl, rfl, rfl, rfl⟩

@[simp] theorem resume_regs (s : State) (c : Slot) (m : UInt64) :
    (resume s c m).2 = (s.tasks c).ctx := (resume_frame s c m c).2.1

@[simp] theorem resume_cr3 (s : State) (c : Slot) (m : UInt64) :
    (resume s c m).1.cr3 = Arch.virtToPhys (s.tasks c).vmem :=
  congrArg Arch.virtToPhys (resume_frame s c m c).2.2.1

/-! ## A whole call -/

/-- **Inversion of `schedule`**: it resumes the least task of the charged
state; failing that, it resumes `current` (with nothing to choose from), or
returns when there is none. -/
theorem schedule_cases (s : State) (r : Regs) :
    (∃ c, Least (charge s r) c ∧
      schedule s r = resume (charge s r) c ((charge s r).tasks c).vtime) ∨
    ((∀ j, s.running j → ((charge s r).tasks j).vtime = 0xFFFFFFFFFFFFFFFF) ∧
      ((s.current = none ∧ schedule s r = (s, r)) ∨
        ∃ c, s.current = some c ∧
          schedule s r = resume (charge s r) c 0xFFFFFFFFFFFFFFFF)) := by
  unfold schedule
  rcases pick_spec (charge s r) with ⟨c, hc, hp⟩ | ⟨hall, hp⟩
  · left
    exact ⟨c, hc, by simp only [hp]⟩
  · right
    refine ⟨fun j hj => hall j (by rwa [State.running, charge_state]), ?_⟩
    rw [charge_current] at hp
    cases hcur : s.current with
    | none =>
        left
        rw [hcur, charge_none hcur] at hp
        refine ⟨rfl, ?_⟩
        simp only [charge_none hcur, hp]
    | some c =>
        right
        rw [hcur] at hp
        exact ⟨c, rfl, by simp only [hp]⟩

/-- `schedule` changes neither the states nor the tables nor the priorities,
so which tasks compete is fixed over a run. -/
theorem schedule_frame (s : State) (r : Regs) (i : Slot) :
    ((schedule s r).1.tasks i).state = (s.tasks i).state ∧
      ((schedule s r).1.tasks i).vmem = (s.tasks i).vmem ∧
      ((schedule s r).1.tasks i).priority = (s.tasks i).priority := by
  have hres : ∀ c m, ((resume (charge s r) c m).1.tasks i).state = (s.tasks i).state ∧
      ((resume (charge s r) c m).1.tasks i).vmem = (s.tasks i).vmem ∧
      ((resume (charge s r) c m).1.tasks i).priority = (s.tasks i).priority := by
    intro c m
    obtain ⟨h1, -, h3, h4⟩ := resume_frame (charge s r) c m i
    rw [h1, h3, h4]
    exact charge_frame s r i
  rcases schedule_cases s r with ⟨c, -, he⟩ | ⟨-, ⟨-, he⟩ | ⟨c, -, he⟩⟩
  · rw [he]
    exact hres c _
  · rw [he]
    exact ⟨rfl, rfl, rfl⟩
  · rw [he]
    exact hres c _

theorem schedule_running (s : State) (r : Regs) (i : Slot) :
    (schedule s r).1.running i ↔ s.running i := by
  unfold State.running
  rw [(schedule_frame s r i).1]

/-- **A task is entered**: if the call ends with a `current` task, it has
handed back that task's frame and loaded that task's table. -/
theorem schedule_entered (h : (schedule s r).1.current = some c) :
    ((schedule s r).2 = ((charge s r).tasks c).ctx ∧
      (schedule s r).1.cr3 = Arch.virtToPhys (s.tasks c).vmem) ∧
      ∀ i, ((schedule s r).1.tasks i).ctx = ((charge s r).tasks i).ctx := by
  have hres : ∀ d m, schedule s r = resume (charge s r) d m →
      ((schedule s r).2 = ((charge s r).tasks c).ctx ∧
      (schedule s r).1.cr3 = Arch.virtToPhys (s.tasks c).vmem) ∧
      ∀ i, ((schedule s r).1.tasks i).ctx = ((charge s r).tasks i).ctx := by
    intro d m he
    rw [he] at h ⊢
    cases h
    refine ⟨⟨resume_regs _ _ _, ?_⟩, fun i => (resume_frame _ _ _ i).2.1⟩
    rw [resume_cr3, charge_vmem]
  rcases schedule_cases s r with ⟨d, -, he⟩ | ⟨-, ⟨hn, he⟩ | ⟨d, -, he⟩⟩
  · exact hres d _ he
  · rw [he, hn] at h
    cases h
  · exact hres d _ he

/-- A call that ends without a `current` task found none and chose none, and
changed nothing. -/
theorem schedule_idle (h : (schedule s r).1.current = none) :
    s.current = none ∧ schedule s r = (s, r) ∧
      ∀ j, s.running j → (s.tasks j).vtime = 0xFFFFFFFFFFFFFFFF := by
  rcases schedule_cases s r with ⟨d, -, he⟩ | ⟨hall, ⟨hn, he⟩ | ⟨d, -, he⟩⟩
  · rw [he] at h
    cases h
  · rw [charge_none hn] at hall
    exact ⟨hn, he, hall⟩
  · rw [he] at h
    cases h

end DevOS.Sched
