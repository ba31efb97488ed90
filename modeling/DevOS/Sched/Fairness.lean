import DevOS.Sched.Schedule
import DevOS.Sched.Tasks

/-!
# Scheduler — proportional fairness

Over any number of calls, the virtual time a task has been charged in total
(calls entered with it as `current`, times its priority) stays within one of
its own quanta of every other task's. The 64-bit counters are renormalised at
each call, so the totals are not stored anywhere: the invariant `Balanced`
recovers them as one common offset plus each task's remaining virtual time.
-/

namespace DevOS.Sched

variable {s : State} {r : Regs} {n : Slot → Nat}

/-- The state after a sequence of calls of `schedule`. -/
def run (s : State) (rs : List Regs) : State := rs.foldl (fun s r => (schedule s r).1) s

/-- How often a task has been charged, one more call included. -/
def tally (s : State) (n : Slot → Nat) (i : Slot) : Nat :=
  if s.current = some i then n i + 1 else n i

/-- The number of calls entered with each task as `current`, on top of `n`. -/
def charges (s : State) (n : Slot → Nat) : List Regs → Slot → Nat
  | [] => n
  | r :: rs => charges (schedule s r).1 (tally s n) rs

/-- What a task pays for one call, and what it still owes. -/
def price (s : State) (i : Slot) : Nat := (s.tasks i).priority.toNat

def owed (s : State) (i : Slot) : Nat := (s.tasks i).vtime.toNat

/-- All totals are one offset above the stored virtual times, and no RUNNING
task owes more than one quantum. -/
def Level (s : State) (n : Slot → Nat) (offset : Nat) : Prop :=
  ∀ i, s.running i → n i * price s i = offset + owed s i ∧ owed s i ≤ price s i

/-- **The run invariant**: the totals are level, and the task that will be
charged next owes nothing. -/
structure Balanced (s : State) (n : Slot → Nat) : Prop where
  level : ∃ offset, Level s n offset
  current : ∀ c, s.current = some c → s.running c ∧ owed s c = 0

/-! ## The charge -/

theorem price_lt (s : State) (i : Slot) : price s i < 2 ^ 32 := (s.tasks i).priority.toNat_lt

theorem charge_price (s : State) (r : Regs) (i : Slot) : price (charge s r) i = price s i := by
  rw [price, charge_priority, price]

theorem charge_owed_self {c : Slot} (hc : s.current = some c) (h0 : owed s c = 0) :
    owed (charge s r) c = price s c := by
  have hp := price_lt s c
  unfold owed price at *
  rw [charge_self hc]
  show ((s.tasks c).vtime + (s.tasks c).priority.toUInt64).toNat = _
  rw [UInt64.toNat_add, UInt32.toNat_toUInt64, h0, Nat.zero_add]
  exact Nat.mod_eq_of_lt (by omega)

/-- The charge moves the tally and the stored virtual time together, and the
64-bit addition does not wrap. -/
theorem Level.charge {offset : Nat} (h : Level s n offset)
    (hcur : ∀ c, s.current = some c → s.running c ∧ owed s c = 0) :
    Level (charge s r) (tally s n) offset := by
  intro i hi
  have hrun : s.running i := by rwa [State.running, charge_state] at hi
  obtain ⟨htot, hle⟩ := h i hrun
  rw [charge_price]
  by_cases hc : s.current = some i
  · have h0 := (hcur i hc).2
    rw [charge_owed_self hc h0, tally, if_pos hc, Nat.add_mul, Nat.one_mul]
    omega
  · have howed : owed (Sched.charge s r) i = owed s i := by rw [owed, charge_other hc, owed]
    rw [howed, tally, if_neg hc]
    exact ⟨htot, hle⟩

/-! ## The renormalisation -/

/-- The 64-bit subtraction of the least virtual time does not wrap. -/
theorem resume_owed_add {c i : Slot} (hc : Least s c) (hi : s.running i) :
    owed (resume s c (s.tasks c).vtime).1 i + owed s c = owed s i := by
  have hmin := hc.least i hi
  have hle : owed s c ≤ owed s i := UInt64.le_iff_toNat_le.mp hmin
  have hsub : owed (resume s c (s.tasks c).vtime).1 i = owed s i - owed s c := by
    rw [owed, resume_task, if_pos hi]
    exact UInt64.toNat_sub_of_le _ _ hmin
  omega

/-- Subtracting the least virtual time raises the offset by as much. -/
theorem Level.resume {c : Slot} {offset : Nat} (h : Level s n offset) (hc : Least s c) :
    Level (resume s c (s.tasks c).vtime).1 n (offset + owed s c) := by
  intro i hi
  have hrun : s.running i := by
    rwa [State.running, (resume_frame s c _ i).1] at hi
  obtain ⟨htot, hle⟩ := h i hrun
  have hprice : price (Sched.resume s c (s.tasks c).vtime).1 i = price s i := by
    rw [price, (resume_frame s c _ i).2.2.2, price]
  have hadd := resume_owed_add hc hrun
  rw [hprice]
  omega

theorem resume_owed {c : Slot} (hc : Least s c) :
    owed (resume s c (s.tasks c).vtime).1 c = 0 := by
  rw [owed, resume_task, if_pos hc.running]
  simp

/-! ## Runs -/

/-- **One call keeps the balance.** -/
theorem Balanced.schedule (h : Balanced s n) (r : Regs) :
    Balanced (schedule s r).1 (tally s n) := by
  obtain ⟨offset, hlevel⟩ := h.level
  have hcharged := hlevel.charge (r := r) h.current
  rcases schedule_cases s r with ⟨c, hc, he⟩ | ⟨hall, ⟨hn, he⟩ | ⟨c, hcur, he⟩⟩
  · -- the least task is resumed and owes nothing from then on
    rw [he]
    refine ⟨⟨_, hcharged.resume hc⟩, fun d hd => ?_⟩
    cases hd
    refine ⟨?_, resume_owed hc⟩
    rw [State.running, (resume_frame _ _ _ _).1]
    exact hc.running
  · -- nothing to run: the call returns at once
    rw [he]
    have htally : tally s n = n := by
      funext i
      simp [tally, hn]
    rw [htally]
    exact h
  · -- `current` is RUNNING and owes at most its price, far below `UINT64_MAX`
    have hrun := (h.current c hcur).1
    have howed := hall c hrun
    have hle := (hcharged c (by rwa [State.running, charge_state])).2
    have hp := price_lt (charge s r) c
    rw [owed, howed] at hle
    simp only [UInt64.toNat_ofNat] at hle
    omega

theorem Balanced.run (rs : List Regs) : ∀ {s : State} {n : Slot → Nat}, Balanced s n →
    Balanced (run s rs) (charges s n rs) := by
  induction rs with
  | nil => intro s n h; exact h
  | cons r rs ih => intro s n h; exact ih (h.schedule r)

/-- Before the first call nothing is owed and nothing has been charged. -/
theorem Balanced.start (hcur : s.current = none) (hv : ∀ i, s.running i → (s.tasks i).vtime = 0) :
    Balanced s (fun _ => 0) := by
  refine ⟨⟨0, fun i hi => ?_⟩, fun c hc => ?_⟩
  · have h0 : owed s i = 0 := by rw [owed, hv i hi]; rfl
    rw [h0]
    simp
  · rw [hcur] at hc
    cases hc

theorem run_frame (rs : List Regs) : ∀ (s : State) (i : Slot),
    ((run s rs).running i ↔ s.running i) ∧ price (run s rs) i = price s i := by
  induction rs with
  | nil => intro s i; exact ⟨Iff.rfl, rfl⟩
  | cons r rs ih =>
      intro s i
      obtain ⟨h1, h2⟩ := ih (schedule s r).1 i
      refine ⟨h1.trans (schedule_running s r i), h2.trans ?_⟩
      rw [price, (schedule_frame s r i).2.2, price]

/-- **Proportional fairness**: from a state in which no task is `current` and
every RUNNING task has virtual time 0, after any number of calls no RUNNING
task has been charged more than one of its own quanta beyond any other. -/
theorem proportional_fairness (s : State) (hcur : s.current = none)
    (hv : ∀ i, s.running i → (s.tasks i).vtime = 0) (rs : List Regs) (i j : Slot)
    (hi : s.running i) (hj : s.running j) :
    charges s (fun _ => 0) rs i * (s.tasks i).priority.toNat ≤
      charges s (fun _ => 0) rs j * (s.tasks j).priority.toNat + (s.tasks i).priority.toNat := by
  obtain ⟨offset, hlevel⟩ := ((Balanced.start hcur hv).run rs).level
  obtain ⟨hri, hpi⟩ := run_frame rs s i
  obtain ⟨hrj, hpj⟩ := run_frame rs s j
  obtain ⟨hti, hle⟩ := hlevel i (hri.mpr hi)
  obtain ⟨htj, -⟩ := hlevel j (hrj.mpr hj)
  rw [hpi] at hti hle
  rw [hpj] at htj
  unfold price at hti hle htj
  omega

theorem proportional_fairness_entry :
    charges entryTasks (fun _ => 0) [Regs.zero, Regs.zero, Regs.zero] 0 *
        (entryTasks.tasks 0).priority.toNat ≤
      charges entryTasks (fun _ => 0) [Regs.zero, Regs.zero, Regs.zero] 2 *
        (entryTasks.tasks 2).priority.toNat + (entryTasks.tasks 0).priority.toNat :=
  proportional_fairness entryTasks entryTasks_made.fresh.current
    (fun i _ => entryTasks_made.fresh.vtime i) [Regs.zero, Regs.zero, Regs.zero] 0 2
    (by decide +kernel) (by decide +kernel)

end DevOS.Sched
