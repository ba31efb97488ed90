import DevOS.Lib.Run
import DevOS.Mm.BuddyInit

/-!
# Buddy allocator — whole runs

Runs of `alloc_pages` and `free_pages` from any `mem_map` that `buddy_init`
produces. The invariant of a run ties the client's view, the list of live
allocations, to the heads marked `PG_ALLOCATED`.

Two properties are carried through every run in which no `free_pages` call
merges left: live blocks never overlap, and each `free_matrix[k]` is exactly
the list of the free blocks of order `k`. A single left merge breaks both:
`remove_free` is called on the page in hand instead of on the left buddy, so
the buddy stays on the list of its old order with a larger block behind it.
-/

namespace DevOS.Mm

open DevOS.Lib

/-- A call of the allocator's interface. -/
inductive Op where
  | alloc (order : Nat)
  | free (p : Nat)
deriving DecidableEq, Repr

/-- The call frees an allocation and its merging loop reaches the left
branch. -/
def Op.MergesLeft (b : Buddy) : Op → Prop
  | .alloc _ => False
  | .free p => b.state p = .allocated ∧ LeftMerges b p

instance Op.decidableMergesLeft (b : Buddy) : ∀ op : Op, Decidable (op.MergesLeft b)
  | .alloc _ => .isFalse id
  | .free _ => inferInstanceAs (Decidable (_ ∧ _))

/-- The call names a page of the map, if any. -/
def Op.InMap (b : Buddy) : Op → Prop
  | .alloc _ => True
  | .free p => p < b.memNrPages

instance Op.decidableInMap (b : Buddy) : ∀ op : Op, Decidable (op.InMap b)
  | .alloc _ => .isTrue trivial
  | .free _ => inferInstanceAs (Decidable (_ < _))

/-- The allocator executes one call. -/
def Op.exec (b : Buddy) : Op → Except String Buddy
  | .alloc order =>
      match allocPages b order with
      | .error e => .error e
      | .ok (_, b) => .ok b
  | .free p => freePages b p

/-! ## The free lists along a run -/

/-- `L k` is read off `free_matrix[k]` along the `next` pointers: a finite,
consistently linked list whose members are exactly the `PG_BUDDY` pages of
order `k`, each once and on no other list. -/
structure FreeListExact (b : Buddy) (L : Nat → List Nat) : Prop where
  linked : ∀ k, k ≤ pageMaxOrder → DList b.next b.prev (b.freeMatrix k) (L k)
  exactly : ∀ k, k ≤ pageMaxOrder → ∀ x, x ∈ L k ↔
    x < b.memNrPages ∧ b.state x = .buddy ∧ b.order x = k
  once : ∀ k, k ≤ pageMaxOrder → (L k).Nodup
  elsewhere : ∀ j k, j ≤ pageMaxOrder → k ≤ pageMaxOrder → j ≠ k → ∀ x ∈ L k, x ∉ L j

theorem Rep.freeListExact {b : Buddy} {L : Nat → List Nat} (h : Rep b (fun _ => False) L) :
    FreeListExact b L where
  linked := h.lists.list
  exactly := fun k hk x => by simpa using h.lists.mem k hk x
  once := fun k hk => (h.lists.list k hk).nodup
  elsewhere := fun j k hj hk hjk x hx hx' =>
    hjk ((h.lists.order_eq hj hx').symm.trans (h.lists.order_eq hk hx))

/-- One call, from a represented state to a represented state. -/
theorem Op.exec_rep {b b' : Buddy} {op : Op} (h : ∃ L, Rep b (fun _ => False) L)
    (hin : op.InMap b) (hno : ¬ op.MergesLeft b)
    (he : op.exec b = .ok b') : ∃ L, Rep b' (fun _ => False) L := by
  obtain ⟨L, hr⟩ := h
  cases op with
  | alloc order =>
      simp only [Op.exec] at he
      by_cases ho : order > pageMaxOrder
      · simp [allocPages, ho] at he
      · rcases allocPages_spec hr (Nat.le_of_not_lt ho) with ha | ⟨p, b₁, L₁, ha, hr₁, _⟩
        · rw [ha] at he
          cases he
          exact ⟨L, hr⟩
        · rw [ha] at he
          cases he
          exact ⟨L₁, hr₁⟩
  | free p =>
      simp only [Op.exec] at he
      by_cases hs : b.state p = .allocated
      · obtain ⟨b₁, L₁, hf, hr₁, _⟩ := freePages_spec hr hin hs
          (fun hl => hno ⟨hs, hl⟩)
        rw [hf] at he
        cases he
        exact ⟨L₁, hr₁⟩
      · rw [freePages_ignored hs] at he
        cases he
        exact ⟨L, hr⟩

/-- **Free lists stay exact**: from every `buddy_init`, in every run whose
`free_pages` calls do not merge left, each free list is exactly the free
blocks of its order. -/
theorem free_lists_exact_of_no_left_merge {table : List Arch.E820Entry} {poolEnd n : Nat}
    {b₀ b : Buddy} {ops : List Op} (hinit : buddyInit table poolEnd (memInit n) = .ok b₀)
    (hsafe : Guarded Op.exec (fun b op => op.InMap b ∧ ¬ op.MergesLeft b) b₀ ops)
    (hrun : runFrom Op.exec b₀ ops = .ok b) :
    ∃ L, FreeListExact b L := by
  obtain ⟨L₀, hr₀, _⟩ := buddyInit_rep hinit
  obtain ⟨L, hr⟩ := hsafe.invariant (I := fun b => ∃ L, Rep b (fun _ => False) L)
    (fun s op s' hi hg he => op.exec_rep hi hg.1 hg.2 he) ⟨L₀, hr₀⟩ hrun
  exact ⟨L, hr.freeListExact⟩

/-- A machine with 16 KiB of low RAM and the kernel, with its boot pool, in
the 128 KiB from `KERNEL_PHYS`. -/
def smallTable : List Arch.E820Entry := [⟨0, 0x4000, 1⟩, ⟨0x200000, 0x20000, 1⟩]

/-- That machine after `buddy_init`: frames 0 to 3 are one free block. -/
def smallBoot : Buddy := okOr (buddyInit smallTable 0x220000 (memInit 0x220)) (memInit 0x220)

theorem smallBoot_init : buddyInit smallTable 0x220000 (memInit 0x220) = .ok smallBoot :=
  eq_ok_okOr (by decide +kernel)

theorem free_lists_exact_small_run :
    ∃ b, runFrom Op.exec smallBoot [.alloc 0, .alloc 1, .free 2] = .ok b ∧
      ∃ L, FreeListExact b L := by
  obtain ⟨b, hrun, _⟩ := exists_of_okAnd
    (x := runFrom Op.exec smallBoot [.alloc 0, .alloc 1, .free 2]) (p := fun _ => true)
    (by decide +kernel)
  exact ⟨b, hrun, free_lists_exact_of_no_left_merge smallBoot_init (by decide +kernel) hrun⟩

/-- Freeing frame 0 and then frame 1 merges left: frame 0 heads a block of
order 1 but still heads the list of order 0. -/
theorem free_lists_broken_by_left_merge :
    ∃ b, Guarded Op.exec (fun b op => op.InMap b) smallBoot
        [.alloc 0, .alloc 0, .alloc 1, .free 0, .free 1] ∧
      runFrom Op.exec smallBoot [.alloc 0, .alloc 0, .alloc 1, .free 0, .free 1] = .ok b ∧
      ¬ ∃ L, FreeListExact b L := by
  obtain ⟨b, hrun, hb⟩ := exists_of_okAnd (x := runFrom Op.exec smallBoot
    [.alloc 0, .alloc 0, .alloc 1, .free 0, .free 1])
    (p := fun b => b.freeMatrix 0 = some 0 && b.order 0 = 1) (by decide +kernel)
  simp only [Bool.and_eq_true, decide_eq_true_eq] at hb
  refine ⟨b, by decide +kernel, hrun, ?_⟩
  rintro ⟨L, hL⟩
  have hhead := (hL.linked 0 (by decide)).head_eq
  rw [hb.1] at hhead
  have hord := ((hL.exactly 0 (by decide) 0).mp (List.mem_of_head? hhead.symm)).2.2
  rw [hb.2] at hord
  cases hord

/-! ## Live allocations along a run -/

/-- The allocator with its client: the allocations returned and not yet
freed as `(pfn, order)`, and every page ever returned. -/
structure Session where
  mem : Buddy
  live : List (Nat × Nat)
  returned : List Nat

/-- The session right after `buddy_init`. -/
def Session.start (b : Buddy) : Session := ⟨b, [], []⟩

/-- One call and its effect on the client's view: freeing a page ends the
live allocation that starts there, if any. -/
def Session.step (s : Session) : Op → Except String Session
  | .alloc order =>
      match allocPages s.mem order with
      | .error e => .error e
      | .ok (none, b) => .ok { s with mem := b }
      | .ok (some p, b) => .ok ⟨b, (p, order) :: s.live, p :: s.returned⟩
  | .free p =>
      match freePages s.mem p with
      | .error e => .error e
      | .ok b => .ok { s with mem := b, live := s.live.filter fun a => a.1 ≠ p }

/-- The calls a client may make: orders up to the maximum, and pages that an
earlier `alloc_pages` returned. -/
def Session.Admissible (s : Session) : Op → Prop
  | .alloc order => order ≤ pageMaxOrder
  | .free p => p ∈ s.returned

instance (s : Session) : ∀ op : Op, Decidable (s.Admissible op)
  | .alloc _ => inferInstanceAs (Decidable (_ ≤ _))
  | .free _ => inferInstanceAs (Decidable (_ ∈ _))

/-- Two blocks `[pfn, pfn + 2^order)` have no frame in common. -/
def Apart (a c : Nat × Nat) : Prop := a.1 + 2 ^ a.2 ≤ c.1 ∨ c.1 + 2 ^ c.2 ≤ a.1

instance (a c : Nat × Nat) : Decidable (Apart a c) := inferInstanceAs (Decidable (_ ∨ _))

/-- No double allocation: the live blocks are pairwise apart, aligned, inside
the map of `n` pages and made of managed frames. -/
structure LiveOk (managed : Nat → Prop) (n : Nat) (live : List (Nat × Nat)) : Prop where
  apart : live.Pairwise Apart
  aligned : ∀ a ∈ live, 2 ^ a.2 ∣ a.1
  inside : ∀ a ∈ live, a.1 + 2 ^ a.2 ≤ n
  managed : ∀ a ∈ live, ∀ f, a.1 ≤ f → f < a.1 + 2 ^ a.2 → managed f

/-- A frame is under management: `buddy_init` put it in a block. -/
def Buddy.Managed (b : Buddy) (f : Nat) : Prop := f < b.memNrPages ∧ b.state f ≠ .reserved

/-- The run invariant: a represented state whose `PG_ALLOCATED` heads are the
live allocations, over the frames managed from the start. -/
structure SessionInv (b₀ : Buddy) (s : Session) : Prop where
  rep : ∃ L, Rep s.mem (fun _ => False) L
  nr : s.mem.memNrPages = b₀.memNrPages
  vacant : ∀ x, s.mem.cell x = .vacant ↔ b₀.cell x = .vacant
  live_iff : ∀ a, a ∈ s.live ↔
    a.1 < s.mem.memNrPages ∧ s.mem.state a.1 = .allocated ∧ s.mem.order a.1 = a.2
  nodup : s.live.Nodup
  returned_lt : ∀ p ∈ s.returned, p < s.mem.memNrPages

/-- The invariant gives the property. -/
theorem SessionInv.liveOk {b₀ : Buddy} {s : Session} (h : SessionInv b₀ s) :
    LiveOk b₀.Managed b₀.memNrPages s.live := by
  obtain ⟨L, hr⟩ := h.rep
  have hhead : ∀ a ∈ s.live, s.mem.cell a.1 = .head a.2 := by
    intro a ha
    obtain ⟨h1, h2, h3⟩ := (h.live_iff a).mp ha
    exact cell_eq_head.mpr ⟨h1, .inr h2, h3⟩
  have hocc : ∀ a ∈ s.live, ∀ f, a.1 ≤ f → f < a.1 + 2 ^ a.2 → b₀.Managed f := by
    intro a ha f h1 h2
    have hf := hr.tiling.occupied (hhead a ha) h1 h2
    have hf₀ : ¬ b₀.cell f = .vacant := fun hc => hf ((h.vacant f).mpr hc)
    rw [cell_eq_vacant, Classical.not_imp] at hf₀
    exact hf₀
  refine ⟨?_, fun a ha => hr.tiling.aligned (hhead a ha), fun a ha => ?_, hocc⟩
  · refine h.nodup.imp_of_mem (fun {a c} ha hc hne => ?_)
    by_contra hover
    -- overlapping blocks of a tiling have the same head, hence the same order
    have hposa := Nat.two_pow_pos a.2
    have hposc := Nat.two_pow_pos c.2
    simp only [Apart, not_or, Nat.not_le] at hover
    have heq : a.1 = c.1 := hr.tiling.disjoint (f := max a.1 c.1) (hhead a ha) (hhead c hc)
      (by omega) (by omega) (by omega) (by omega)
    have ha' := ((h.live_iff a).mp ha).2.2
    have hc' := ((h.live_iff c).mp hc).2.2
    rw [heq] at ha'
    exact hne (Prod.ext heq (ha'.symm.trans hc'))
  · have hpos := Nat.two_pow_pos a.2
    have := (hocc a ha (a.1 + 2 ^ a.2 - 1) (by omega) (by omega)).1
    omega

theorem sessionInv_start {table : List Arch.E820Entry} {poolEnd n : Nat} {b₀ : Buddy}
    (hinit : buddyInit table poolEnd (memInit n) = .ok b₀) :
    SessionInv b₀ (Session.start b₀) := by
  obtain ⟨L, hr, hn, hfree, _⟩ := buddyInit_rep hinit
  refine ⟨⟨L, hr⟩, rfl, fun _ => Iff.rfl, fun a => ?_, List.nodup_nil, by simp [Session.start]⟩
  simp only [Session.start, List.not_mem_nil, false_iff]
  rintro ⟨h1, h2, _⟩
  exact hfree a.1 (by omega) h2

/-- **One admissible call** that does not merge left succeeds and preserves
the run invariant. -/
theorem SessionInv.step {b₀ : Buddy} {s : Session} {op : Op} (h : SessionInv b₀ s)
    (hadm : s.Admissible op) (hno : ¬ op.MergesLeft s.mem) :
    ∃ s', s.step op = .ok s' ∧ SessionInv b₀ s' := by
  obtain ⟨L, hr⟩ := h.rep
  cases op with
  | alloc order =>
      rcases allocPages_spec hr hadm with ha | ⟨p, b', L', ha, hr', hp, hs, hs', ho', hk⟩
      · exact ⟨{ s with mem := s.mem }, by simp only [Session.step, ha], h⟩
      · refine ⟨⟨b', (p, order) :: s.live, p :: s.returned⟩, by simp only [Session.step, ha],
          ⟨L', hr'⟩, hk.nr.trans h.nr, fun x => (hk.vacant x).trans (h.vacant x), ?_, ?_, ?_⟩
        · intro a
          rw [List.mem_cons, h.live_iff]
          by_cases hap : a.1 = p
          · obtain ⟨x, k⟩ := a
            simp only at hap
            subst hap
            simp [hs, hs', ho', hp, hk.nr, eq_comm]
          · have hne : a ≠ (p, order) := fun hc => hap (by rw [hc])
            rw [hk.head_iff hap]
            exact or_iff_right hne
        · refine List.nodup_cons.mpr ⟨fun hc => ?_, h.nodup⟩
          obtain ⟨_, h2, _⟩ := (h.live_iff _).mp hc
          rw [hs] at h2
          cases h2
        · intro q hq
          rw [hk.nr]
          rcases List.mem_cons.mp hq with rfl | hq
          · exact hp
          · exact h.returned_lt q hq
  | free p =>
      have hp : p < s.mem.memNrPages := h.returned_lt p hadm
      by_cases hs : s.mem.state p = .allocated
      · obtain ⟨b', L', hf, hr', hs', hk⟩ := freePages_spec hr hp hs (fun hl => hno ⟨hs, hl⟩)
        refine ⟨{ s with mem := b', live := s.live.filter fun a => a.1 ≠ p },
          by simp only [Session.step, hf], ⟨L', hr'⟩, hk.nr.trans h.nr,
          fun x => (hk.vacant x).trans (h.vacant x), fun a => ?_, h.nodup.filter _, ?_⟩
        · rw [List.mem_filter, h.live_iff]
          by_cases hap : a.1 = p
          · simp [hap, hs']
          · simp only [ne_eq, hap, not_false_eq_true, decide_true, and_true]
            exact (hk.head_iff hap).symm
        · intro q hq
          rw [hk.nr]
          exact h.returned_lt q hq
      · -- nothing is live at a page that heads no allocation
        have hlive : (s.live.filter fun a => a.1 ≠ p) = s.live := by
          refine List.filter_eq_self.mpr (fun a ha => ?_)
          simp only [ne_eq, decide_eq_true_eq]
          rintro rfl
          exact hs ((h.live_iff a).mp ha).2.1
        refine ⟨{ s with mem := s.mem, live := s.live.filter fun a => a.1 ≠ p },
          by simp only [Session.step, freePages_ignored hs], ?_⟩
        rw [hlive]
        exact h

/-- **No double allocation**: from every `buddy_init`, every run of admissible
calls whose `free_pages` calls do not merge left runs without panic, and its
live allocations are apart, aligned, inside the map and on managed frames. -/
theorem live_ok_of_no_left_merge {table : List Arch.E820Entry} {poolEnd n : Nat} {b₀ : Buddy}
    {ops : List Op} (hinit : buddyInit table poolEnd (memInit n) = .ok b₀)
    (hrun : Guarded Session.step (fun s op => s.Admissible op ∧ ¬ op.MergesLeft s.mem)
      (Session.start b₀) ops) :
    ∃ s, runFrom Session.step (Session.start b₀) ops = .ok s ∧
      LiveOk b₀.Managed b₀.memNrPages s.live := by
  obtain ⟨s, hs, hi⟩ := hrun.progress (I := SessionInv b₀)
    (fun s op hi hg => hi.step hg.1 hg.2) (sessionInv_start hinit)
  exact ⟨s, hs, hi.liveOk⟩

theorem live_ok_small_run :
    ∃ s, runFrom Session.step (Session.start smallBoot) [.alloc 0, .alloc 1, .free 2] = .ok s ∧
      LiveOk smallBoot.Managed smallBoot.memNrPages s.live :=
  live_ok_of_no_left_merge smallBoot_init (by decide +kernel)

/-- After a left merge frame 0 is on two lists, and is handed out twice. -/
theorem double_allocation_after_left_merge :
    ∃ s, Guarded Session.step (fun s op => s.Admissible op) (Session.start smallBoot)
        [.alloc 0, .alloc 0, .alloc 1, .free 0, .free 1, .alloc 0, .alloc 1] ∧
      runFrom Session.step (Session.start smallBoot)
        [.alloc 0, .alloc 0, .alloc 1, .free 0, .free 1, .alloc 0, .alloc 1] = .ok s ∧
      s.live = [(0, 1), (0, 0), (2, 1)] ∧
      ¬ LiveOk smallBoot.Managed smallBoot.memNrPages s.live := by
  obtain ⟨s, hrun, hs⟩ := exists_of_okAnd (x := runFrom Session.step (Session.start smallBoot)
    [.alloc 0, .alloc 0, .alloc 1, .free 0, .free 1, .alloc 0, .alloc 1])
    (p := fun s => s.live = [(0, 1), (0, 0), (2, 1)]) (by decide +kernel)
  simp only [decide_eq_true_eq] at hs
  refine ⟨s, by decide +kernel, hrun, hs, fun hok => ?_⟩
  have hapart := hok.apart
  rw [hs] at hapart
  revert hapart
  decide

end DevOS.Mm
