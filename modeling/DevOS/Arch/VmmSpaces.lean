import DevOS.Arch.VmmForest
import DevOS.Lib.Run

/-!
# Address spaces — the kernel half

`vmm_create_user_pml4` copies the kernel half of `kern_pml4` once. Afterwards
the tables below the copied entries are shared, so an address space sees every
later mapping below them; an entry that `kern_pml4` gets later it does not see.
-/

namespace DevOS.Arch

open DevOS.Lib

variable {σ : Type} {A : TableSource σ} {kernPml4 : Nat}

/-! ## Runs -/

/-- An address space. `slots` is a ghost: the entries of `kern_pml4` that were
present when it was created. -/
structure UserSpace where
  pml4 : Nat
  slots : Fin 512 → Bool

/-- The page that holds an address space's PML4. -/
def UserSpace.root (u : UserSpace) : Nat := virtToPhys u.pml4

/-- The VMM and the address spaces created so far. -/
structure Spaces (σ : Type) where
  vmm : Vmm σ
  live : List UserSpace

/-- The calls a run is made of. -/
inductive SpaceOp where
  | createUser
  | mapKern (virt phys size : Nat) (flags : Word)
  | mapUser (pml4 virt phys size : Nat) (flags : Word)

/-- The run ends where `alloc_pages` has no page. -/
def outOfPages : String := "no page"

/-- The result of a `vmm_map`, if no allocation was denied. -/
def Spaces.mapped (st : Spaces σ) (r : Nat × Vmm σ) : Except String (Spaces σ) :=
  if r.2.denied then .error outOfPages else .ok { st with vmm := r.2 }

theorem Spaces.mapped_ok {st st' : Spaces σ} {r : Nat × Vmm σ} (h : st.mapped r = .ok st') :
    st' = { st with vmm := r.2 } := by
  unfold Spaces.mapped at h
  split at h
  · cases h
  · exact (Except.ok.inj h).symm

/-- One call. -/
def spaceStep (A : TableSource σ) (kernPml4 : Nat) (st : Spaces σ) :
    SpaceOp → Except String (Spaces σ)
  | .createUser =>
      match vmmCreateUserPml4 A kernPml4 st.vmm with
      | (none, _) => .error outOfPages
      | (some pml4, s) =>
          .ok ⟨s, ⟨pml4, fun i => present (st.vmm.read kernPml4 i)⟩ :: st.live⟩
  | .mapKern virt phys size flags =>
      st.mapped (vmmMap A kernPml4 st.vmm kernPml4Token virt phys size flags)
  | .mapUser pml4 virt phys size flags =>
      st.mapped (vmmMap A kernPml4 st.vmm pml4 virt phys size flags)

/-- What is asked for: any range under `KERN_PML4`, low ranges under the PML4 of
an address space. -/
def SpaceOp.Allowed (st : Spaces σ) : SpaceOp → Prop
  | .createUser => True
  | .mapKern _ _ _ _ => True
  | .mapUser pml4 virt _ size _ => (∃ u ∈ st.live, u.pml4 = pml4) ∧ virt + size ≤ 2 ^ 47

instance (st : Spaces σ) : (op : SpaceOp) → Decidable (op.Allowed st)
  | .createUser => .isTrue trivial
  | .mapKern _ _ _ _ => .isTrue trivial
  | .mapUser _ _ _ _ _ => inferInstanceAs (Decidable (_ ∧ _))

/-- The VMM in `VMM_READY` with a well-formed kernel tree and no address space
yet. -/
structure Booted (A : TableSource σ) (kernPml4 : Nat) (st : Spaces σ) : Prop where
  mode : st.vmm.mode = .ready
  tree : TreeOk A (virtToPhys kernPml4) st.vmm
  live : st.live = []

/-! ## The invariant -/

/-- The address spaces are a forest with the kernel's tree, and each has in its
kernel half the entries it was created with. -/
structure SpacesInv (A : TableSource σ) (kernPml4 : Nat) (st : Spaces σ) : Prop where
  forest : Forest A (virtToPhys kernPml4) (st.live.map UserSpace.root) st.vmm
  aligned : ∀ u ∈ st.live, pageSize ∣ u.root
  slots : ∀ u ∈ st.live, ∀ i, ¬ Low i → present (st.vmm.mem u.root i) = u.slots i

theorem Booted.inv {st : Spaces σ} (h : Booted A kernPml4 st) : SpacesInv A kernPml4 st := by
  have hlive := h.live
  refine ⟨?_, fun u hu => ?_, fun u hu => ?_⟩
  · rw [hlive, List.map_nil]
    exact Forest.of_kern h.tree
  · rw [hlive] at hu
    exact absurd hu (by simp)
  · rw [hlive] at hu
    exact absurd hu (by simp)

theorem mem_roots {users : List UserSpace} {u : UserSpace} (hu : u ∈ users) :
    u.root ∈ users.map UserSpace.root := List.mem_map_of_mem hu

/-- The pointer of a page is not `KERN_PML4`. -/
theorem ne_kernPml4Token {pml4 : Nat} (h : pageSize ∣ virtToPhys pml4) :
    pml4 ≠ kernPml4Token := by
  rintro rfl
  exact absurd h (by decide)

/-- A mapping into one of the trees, below its own slots. -/
theorem SpacesInv.touched {st : Spaces σ} {c : Nat} {H : Fin 512 → Prop} {s' : Vmm σ}
    (h : SpacesInv A kernPml4 st) (hc : c ∈ virtToPhys kernPml4 :: st.live.map UserSpace.root)
    (hH : ∀ k, H k → Owned (virtToPhys kernPml4) c [k]) (ht : Touched A c H st.vmm s') :
    SpacesInv A kernPml4 { st with vmm := s' } := by
  refine ⟨h.forest.touched hc hH ht, h.aligned, fun u hu i hi => ?_⟩
  show present (s'.mem u.root i) = u.slots i
  rw [h.forest.upper_kept hc hH ht (mem_roots hu) hi]
  exact h.slots u hu i hi

/-- `vmm_map(KERN_PML4, ...)`. -/
theorem SpacesInv.mapKern {st : Spaces σ} (h : SpacesInv A kernPml4 st)
    (virt phys size : Nat) (flags : Word) :
    SpacesInv A kernPml4 { st with
      vmm := (vmmMap A kernPml4 st.vmm kernPml4Token virt phys size flags).2 } := by
  have hroot : mapRoot kernPml4 kernPml4Token = kernPml4 := if_pos rfl
  have htree := h.forest.treeOk List.mem_cons_self
  rw [← hroot] at htree
  have ht := vmmMap_touched (H := fun _ => True) phys flags htree
    (.inl fun _ => trivial : RangeIn _ virt size)
  rw [hroot] at ht
  exact h.touched List.mem_cons_self (fun _ _ => .inl rfl) ht

/-- `vmm_map` on low addresses of an address space. -/
theorem vmmMap_low_touched {s : Vmm σ} {pml4 virt size : Nat} (kernPml4 phys : Nat) (flags : Word)
    (hpml4 : pageSize ∣ virtToPhys pml4) (htree : TreeOk A (virtToPhys pml4) s)
    (hlow : virt + size ≤ 2 ^ 47) :
    Touched A (virtToPhys pml4) Low s (vmmMap A kernPml4 s pml4 virt phys size flags).2 := by
  have hroot : mapRoot kernPml4 pml4 = pml4 := if_neg (ne_kernPml4Token hpml4)
  have hrange : RangeIn (fun v => Low (pml4Idx v)) virt size := by
    refine .inr ⟨hlow, fun v hv => ?_⟩
    show v / 2 ^ 39 % 512 < 256
    omega
  rw [← hroot] at htree
  have ht := vmmMap_touched phys flags htree hrange
  rwa [hroot] at ht

/-- `vmm_create_user_pml4()`. -/
theorem SpacesInv.createUser {st : Spaces σ} {pml4 : Nat} {s' : Vmm σ}
    (h : SpacesInv A kernPml4 st)
    (hcreate : vmmCreateUserPml4 A kernPml4 st.vmm = (some pml4, s')) :
    SpacesInv A kernPml4
      ⟨s', ⟨pml4, fun i => present (st.vmm.read kernPml4 i)⟩ :: st.live⟩ := by
  have hkern := (h.forest.own _ List.mem_cons_self).unavail [] _ owned_nil (by simp) rfl
  have hnew := vmmCreateUserPml4_spec hkern hcreate
  refine ⟨hnew.forest h.forest, fun u hu => ?_, fun u hu i hi => ?_⟩
  · obtain rfl | hu := List.mem_cons.mp hu
    · exact (A.avail_page _ _ hnew.avail).1
    · exact h.aligned u hu
  · obtain rfl | hu := List.mem_cons.mp hu
    · exact congrArg present (hnew.upper i hi)
    · have hmem := List.mem_cons_of_mem (virtToPhys kernPml4) (mem_roots hu)
      show present (s'.mem u.root i) = u.slots i
      rw [hnew.still h.forest hmem [] u.root owned_nil (by simp) rfl i]
      exact h.slots u hu i hi

/-- **Every call keeps the invariant.** -/
theorem SpacesInv.step {st st' : Spaces σ} {op : SpaceOp} (h : SpacesInv A kernPml4 st)
    (hop : op.Allowed st) (hstep : spaceStep A kernPml4 st op = .ok st') :
    SpacesInv A kernPml4 st' := by
  cases op with
  | createUser =>
      unfold spaceStep at hstep
      cases hcreate : vmmCreateUserPml4 A kernPml4 st.vmm with
      | mk res s' =>
          rw [hcreate] at hstep
          cases res with
          | none => cases hstep
          | some pml4 =>
              cases hstep
              exact h.createUser hcreate
  | mapKern virt phys size flags =>
      rw [Spaces.mapped_ok hstep]
      exact h.mapKern virt phys size flags
  | mapUser pml4 virt phys size flags =>
      obtain ⟨⟨u, hu, rfl⟩, hlow⟩ := hop
      have hmem := List.mem_cons_of_mem (virtToPhys kernPml4) (mem_roots hu)
      rw [Spaces.mapped_ok hstep]
      exact h.touched hmem (fun k hk => owned_cons hk)
        (vmmMap_low_touched kernPml4 _ _ (h.aligned u hu) (h.forest.treeOk hmem) hlow)

/-! ## What an address space sees -/

/-- The kernel half of an address space translates as `kern_pml4` does below
the entries it was created with, and nothing else. -/
theorem SpacesInv.translate {st : Spaces σ} (h : SpacesInv A kernPml4 st) {u : UserSpace}
    (hu : u ∈ st.live) {virt : Nat} (hhalf : 2 ^ 64 - 2 ^ 47 ≤ virt) (htop : virt < 2 ^ 64) :
    (u.slots (pml4Idx virt) = true →
      st.vmm.translate u.root virt = st.vmm.translate (virtToPhys kernPml4) virt) ∧
    (u.slots (pml4Idx virt) = false → st.vmm.translate u.root virt = none) := by
  have hupper : ¬ Low (pml4Idx virt) := by
    show ¬ virt / 2 ^ 39 % 512 < 256
    omega
  have hslot := h.slots u hu _ hupper
  refine ⟨fun hs => ?_, fun hs => ?_⟩
  · have hword := h.forest.shared u.root (mem_roots hu) _ hupper (hslot.trans hs)
    simp only [Vmm.translate, Vmm.leafAt, pathOf, find, hword]
  · have hpres := hslot.trans hs
    simp only [Vmm.translate, Vmm.leafAt, pathOf, find, leaf_eq_none_of_not_present hpres,
      child_eq_none_of_not_present hpres, Option.map_none, ite_self]

/-- **The kernel half in every address space.** After any run, every address
space translates a kernel address as `kern_pml4` does if `kern_pml4` had the
address's top-level entry when the address space was created, and else does
not translate it. -/
theorem kernel_half_shared (A : TableSource σ) (kernPml4 : Nat) (st₀ st : Spaces σ)
    (hboot : Booted A kernPml4 st₀) (ops : List SpaceOp)
    (hops : Guarded (spaceStep A kernPml4) SpaceOp.Allowed st₀ ops)
    (hrun : runFrom (spaceStep A kernPml4) st₀ ops = .ok st) (u : UserSpace) (hu : u ∈ st.live)
    (virt : Nat) (hhalf : 2 ^ 64 - 2 ^ 47 ≤ virt) (htop : virt < 2 ^ 64) :
    (u.slots (pml4Idx virt) = true →
      st.vmm.translate u.root virt = st.vmm.translate (virtToPhys kernPml4) virt) ∧
    (u.slots (pml4Idx virt) = false → st.vmm.translate u.root virt = none) :=
  (Guarded.invariant (fun _ _ _ h hop hstep => h.step hop hstep) hboot.inv hops hrun).translate
    hu hhalf htop

/-- A cleared `kern_pml4` and 64 frames for tables. -/
def samplePool : PagePool (List Nat) := framePool 0x400 0x440 (by decide)

def sampleKernPml4 : Nat := kernelVmaStart + 0x1000

def sampleSpaces : Spaces (List Nat) := ⟨⟨.ready, fun _ _ => 0, [], false, false⟩, []⟩

theorem sampleSpaces_booted : Booted samplePool.tables sampleKernPml4 sampleSpaces := by
  refine ⟨rfl, TreeOk.of_cleared (fun _ => rfl) ?_, rfl⟩
  rintro ⟨-, hmanaged, -⟩
  have hle : 0x400 ≤ virtToPhys sampleKernPml4 / pageSize := hmanaged.1
  exact absurd hle (by decide)

/-- A kernel page mapped after an address space was created, below an entry that
was there, and a page of its own beside it. -/
theorem kernel_half_shared_page : ∃ st u, u ∈ st.live ∧
    runFrom (spaceStep samplePool.tables sampleKernPml4) sampleSpaces
      [.mapKern 0xFFFF900000000000 0x5000 0x1000 ptPresent, .createUser,
        .mapKern 0xFFFF900000001000 0x7000 0x1000 ptPresent,
        .mapUser (pageToHhdm 0x403) 0x100000 0x9000 0x1000 ptPresent] = .ok st ∧
    (st.vmm.translate u.root 0xFFFF900000001000).isSome ∧
    st.vmm.translate u.root 0xFFFF900000001000 =
      st.vmm.translate (virtToPhys sampleKernPml4) 0xFFFF900000001000 := by
  obtain ⟨st, hrun, hst⟩ := exists_of_okAnd (x := runFrom
    (spaceStep samplePool.tables sampleKernPml4) sampleSpaces
    [.mapKern 0xFFFF900000000000 0x5000 0x1000 ptPresent, .createUser,
      .mapKern 0xFFFF900000001000 0x7000 0x1000 ptPresent,
      .mapUser (pageToHhdm 0x403) 0x100000 0x9000 0x1000 ptPresent])
    (p := fun st => st.live.any fun u => u.slots (pml4Idx 0xFFFF900000001000) &&
      (st.vmm.translate u.root 0xFFFF900000001000).isSome)
    (by decide +kernel)
  obtain ⟨u, hu, hsees⟩ := List.any_eq_true.mp hst
  rw [Bool.and_eq_true] at hsees
  exact ⟨st, u, hu, hrun, hsees.2,
    (kernel_half_shared _ _ _ st sampleSpaces_booted _ (by decide +kernel) hrun u hu _
      (by decide) (by decide)).1 hsees.1⟩

/-- A kernel page mapped after an address space was created, below a new
top-level entry, is not there in the address space. -/
theorem kernel_half_not_copied_again : ∃ st u, u ∈ st.live ∧
    runFrom (spaceStep samplePool.tables sampleKernPml4) sampleSpaces
      [.createUser, .mapKern 0xFFFF900000000000 0x5000 0x1000 ptPresent] = .ok st ∧
    Booted samplePool.tables sampleKernPml4 sampleSpaces ∧
    2 ^ 64 - 2 ^ 47 ≤ 0xFFFF900000000000 ∧
    st.vmm.translate (virtToPhys sampleKernPml4) 0xFFFF900000000000 =
      some ⟨0x5000, 0x1000, ptPresent⟩ ∧
    st.vmm.translate u.root 0xFFFF900000000000 = none := by
  obtain ⟨st, hrun, hst⟩ := exists_of_okAnd (x := runFrom
    (spaceStep samplePool.tables sampleKernPml4) sampleSpaces
    [.createUser, .mapKern 0xFFFF900000000000 0x5000 0x1000 ptPresent])
    (p := fun st => st.live.any fun u =>
      st.vmm.translate (virtToPhys sampleKernPml4) 0xFFFF900000000000 =
        some ⟨0x5000, 0x1000, ptPresent⟩ ∧
      st.vmm.translate u.root 0xFFFF900000000000 = none)
    (by decide +kernel)
  obtain ⟨u, hu, hsees⟩ := List.any_eq_true.mp hst
  obtain ⟨hkern, hnone⟩ := of_decide_eq_true hsees
  exact ⟨st, u, hu, hrun, sampleSpaces_booted, by decide, hkern, hnone⟩

end DevOS.Arch
