import DevOS.Arch.UserAccess
import DevOS.Kernel.Memory
import DevOS.Mm.HeldPages
import DevOS.Sched.Switch

/-!
# Kernel — making tasks

`make_task` of `kernel/entry.c` with `create_task`, `run_task` and
`task_alloc_pages` of `sched/sched.c`, over the page tables and the allocator
of `VMM_READY`. The scheduler's model of `make_task` is told what its two
allocations return; here they are made. A task that runs has an address space
of its own with two pages in its low half, of which no other task and no table
has a frame, and shares the kernel half.
-/

namespace DevOS.Kernel

open DevOS.Lib DevOS.Arch DevOS.Mm DevOS.Sched

/-! ## The program -/

/-- The VMM over the buddy allocator, and the scheduler's globals with CR3. -/
structure System where
  vmm : Vmm Buddy
  sched : State

/-- `hhdm_to_phys(hhdm)`. -/
def hhdmToPhys (hhdm : Nat) : Nat := (hhdm + 2 ^ 64 - hhdmBase) % 2 ^ 64

/-- `user_virt`. -/
def userVirt : Nat := 0x100000

def userFlags : Word := ptPresent ||| ptWritable ||| ptUser

/-- `memcpy(virt, page, 0x1000)` to a page boundary: a fault unless the page is
mapped under CR3. -/
def memcpyPage (s : Vmm Buddy) (cr3 virt : Nat) (page : Fin 512 → Word) :
    Except String (Vmm Buddy) :=
  match s.translate cr3 virt with
  | none => .error exceptionPanic
  | some t => .ok { s with mem := Function.update s.mem t.phys page }

section Program

variable (D : PageDiff) (kernPml4 : Nat) (userTest : Fin 512 → Word)

/-- `create_task(priority)`. -/
def createTask (y : System) (priority : UInt32) : Except String (Option Slot × System) :=
  match getFreeSlot y.sched with
  | none => .ok (none, y)
  | some _ =>
      match Ready.vmmCreateUserPml4 D kernPml4 y.vmm with
      | .error e => .error e
      | .ok (vmem, vmm) =>
          let (task, sched) := Sched.createTask y.sched priority (vmem.getD 0)
          .ok (task, ⟨vmm, sched⟩)

/-- `task_alloc_pages(task, order)`. -/
def taskAllocPages (y : System) (i : Slot) (order : Nat) :
    Except String (Option Nat × System) :=
  match allocPages y.vmm.source order with
  | .error e => .error e
  | .ok (none, b) => .ok (none, { y with vmm := { y.vmm with source := b } })
  | .ok (some page, b) =>
      let pages := (y.sched.tasks i).pages
      let b := b.setPage page fun pg => { pg with next := pages, prev := none }
      let b := b.setPrev? pages (some page)
      .ok (some page, ⟨{ y.vmm with source := b },
        y.sched.setTask i fun t => { t with pages := some page }⟩)

/-- `make_task(priority)`, with the 4 KiB from `user_test` on. -/
def makeTask (y : System) (priority : UInt32) : Except String (Option Slot × System) :=
  match createTask D kernPml4 y priority with
  | .error e => .error e
  | .ok (none, y) => .ok (none, y)
  | .ok (some i, y) =>
      let y := { y with sched := y.sched.vmmSetTable (y.sched.tasks i).vmem }
      match taskAllocPages y i 1 with
      | .error e => .error e
      | .ok (none, y) => .ok (none, y)
      | .ok (some page, y) =>
          match Ready.vmmMap D kernPml4 y.vmm (y.sched.tasks i).vmem userVirt
              (hhdmToPhys (pageToHhdm page)) (2 * pageSize) userFlags with
          | .error e => .error e
          | .ok (_, vmm) =>
              match memcpyPage vmm y.sched.cr3 (userVirt + 0x1000) userTest with
              | .error e => .error e
              | .ok vmm =>
                  .ok (some i, ⟨vmm, runTask y.sched i (userVirt + 0x1000).toUInt64
                    (userVirt + 0x1000).toUInt64⟩)

/-- One of the calls of `make_task` in `entry`, whose result is not looked
at. -/
def makeOne (y : System) (priority : UInt32) : Except String System :=
  match makeTask D kernPml4 userTest y priority with
  | .error e => .error e
  | .ok (_, y) => .ok y

end Program

/-! ## The invariant -/

variable {b₀ : Buddy} {hreach : b₀.memNrPages * pageSize ≤ hhdmLimit} {kernPml4 : Nat}
  {userTest : Fin 512 → Word} {D : PageDiff} {m m' m'' : Client { b // BlockMap b₀ b }}
  {s₀ : Vmm Buddy} {y y' : System} {t : Task} {page : Nat} {priority : UInt32}

/-- The frame of a task before it has run. -/
def taskFrame : Regs :=
  { Regs.zero with rip := 0x101000, cs := 0x2B, rflags := 0x202, rsp := 0x101000, ss := 0x33 }

/-- A task on the block of two frames at `page`: its low half is these two, of
which the second holds the program. -/
structure Placed (kernPml4 : Nat) (userTest : Fin 512 → Word)
    (m : Client { b // BlockMap b₀ b }) (t : Task) (page : Nat) : Prop where
  pages : t.pages = some page
  space : t.vmem ∈ m.addrSpaces.live
  block : (page, 1) ∈ m.held
  shown : ∀ a, userVirt ≤ a → a < userVirt + 2 * pageSize →
    ∃ tr, m.vmm.translate (virtToPhys t.vmem) a = some tr ∧
      MapsTo userVirt (page * pageSize) userFlags a tr
  only : ∀ a, a < 2 ^ 47 → ¬ (userVirt ≤ a ∧ a < userVirt + 2 * pageSize) →
    m.vmm.translate (virtToPhys t.vmem) a = none
  rights : Granting Low (virtToPhys t.vmem) m.vmm
  code : m.vmm.mem ((page + 1) * pageSize) = userTest
  ctx : t.ctx = taskFrame

/-- An address space with nothing in its low half. -/
structure Bare (m : Client { b // BlockMap b₀ b }) (pml4 : Nat) : Prop where
  space : pml4 ∈ m.addrSpaces.live
  empty : ∀ a, a < 2 ^ 47 → m.vmm.translate (virtToPhys pml4) a = none

/-- **The invariant of `make_task`.** -/
structure TasksInv (hreach : b₀.memNrPages * pageSize ≤ hhdmLimit) (kernPml4 : Nat)
    (userTest : Fin 512 → Word) (s₀ : Vmm Buddy) (y : System)
    (m : Client { b // BlockMap b₀ b }) : Prop where
  vmm : rawVmm Subtype.val m.vmm = y.vmm
  inv : ClientInv hreach kernPml4 m
  kernel : ∀ a, m.vmm.translate (virtToPhys kernPml4) a = s₀.translate (virtToPhys kernPml4) a
  guarded : Supervisor (virtToPhys kernPml4) s₀ → Supervisor (virtToPhys kernPml4) m.vmm
  upper : ∀ pml4 ∈ m.addrSpaces.live, ∀ i, ¬ Low i →
    m.vmm.mem (virtToPhys pml4) i = m.vmm.mem (virtToPhys kernPml4) i
  free : ∀ i, (y.sched.tasks i).state = .free →
    (y.sched.tasks i).ctx = Regs.zero ∧ (y.sched.tasks i).pages = none
  placed : ∀ i, y.sched.running i → ∃ page, Placed kernPml4 userTest m (y.sched.tasks i) page
  apart : ∀ i j, y.sched.running i → y.sched.running j → i ≠ j →
    (y.sched.tasks i).vmem ≠ (y.sched.tasks j).vmem ∧
      (y.sched.tasks i).pages ≠ (y.sched.tasks j).pages
  bare : ∀ i, (y.sched.tasks i).state ≠ .free → ¬ y.sched.running i →
    Bare m (y.sched.tasks i).vmem
  loaded : y.sched.cr3 = virtToPhys kernPml4 ∨
    ∃ i, (y.sched.tasks i).state ≠ .free ∧ y.sched.cr3 = virtToPhys (y.sched.tasks i).vmem

/-! ## Steps on one address space -/

/-- From `m` to `m'`, trees other than the one at `c` and held pages other than
those of `own` are left alone. -/
structure Extends (kernPml4 : Nat) (m m' : Client { b // BlockMap b₀ b }) (c : Nat)
    (own : Option (Nat × Nat)) : Prop where
  live : ∀ pml4 ∈ m.addrSpaces.live, pml4 ∈ m'.addrSpaces.live
  held : ∀ b ∈ m.held, b ∈ m'.held
  still : ∀ r ∈ virtToPhys kernPml4 :: m.addrSpaces.roots, r ≠ c →
    Still (virtToPhys kernPml4) r m.vmm m'.vmm
  pages : ∀ b ∈ m.held, own ≠ some b → ∀ f, InBlock b.1 b.2 f →
    m'.vmm.mem (f * pageSize) = m.vmm.mem (f * pageSize)

variable {c : Nat} {own : Option (Nat × Nat)}

theorem Extends.trans (h : Extends kernPml4 m m' c own) (h' : Extends kernPml4 m' m'' c own) :
    Extends kernPml4 m m'' c own := by
  have hroots : ∀ r ∈ virtToPhys kernPml4 :: m.addrSpaces.roots,
      r ∈ virtToPhys kernPml4 :: m'.addrSpaces.roots := by
    intro r hr
    obtain rfl | hr := List.mem_cons.mp hr
    · exact List.mem_cons_self
    · obtain ⟨pml4, hmem, rfl⟩ := List.mem_map.mp hr
      exact List.mem_cons_of_mem _ (List.mem_map_of_mem (h.live pml4 hmem))
  refine ⟨fun a ha => h'.live a (h.live a ha), fun b hb => h'.held b (h.held b hb),
    fun r hr hne p t hp hlen ht j => ?_, fun b hb hne f hf => ?_⟩
  · have hfirst := h.still r hr hne
    rw [h'.still r (hroots r hr) hne p t hp hlen ((hfirst.tableAt hp hlen).trans ht) j]
    exact hfirst p t hp hlen ht j
  · exact (h'.pages b (h.held b hb) hne f hf).trans (h.pages b hb hne f hf)

/-- A placed task stays where it is. -/
theorem Placed.extends (h : Placed kernPml4 userTest m t page) (he : Extends kernPml4 m m' c own)
    (hc : virtToPhys t.vmem ≠ c) (hown : own ≠ some (page, 1)) :
    Placed kernPml4 userTest m' t page := by
  have hroot : virtToPhys t.vmem ∈ virtToPhys kernPml4 :: m.addrSpaces.roots :=
    List.mem_cons_of_mem _ (List.mem_map_of_mem h.space)
  have hstill := he.still _ hroot hc
  have hsame : ∀ a, a < 2 ^ 47 → m'.vmm.translate (virtToPhys t.vmem) a =
      m.vmm.translate (virtToPhys t.vmem) a := fun a ha => hstill.translate (owned_pathOf ha)
  refine ⟨h.pages, he.live _ h.space, he.held _ h.block, fun a h1 h2 => ?_, fun a h1 h2 => ?_,
    h.rights.still hstill, ?_, h.ctx⟩
  · rw [hsame a (h2.trans (by decide))]
    exact h.shown a h1 h2
  · rw [hsame a h1]
    exact h.only a h1 h2
  · have hin : InBlock page 1 (page + 1) := ⟨Nat.le_succ page, Nat.lt_succ_self (page + 1)⟩
    rw [he.pages _ h.block hown _ hin]
    exact h.code

theorem Bare.extends {pml4 : Nat} (h : Bare m pml4) (he : Extends kernPml4 m m' c own)
    (hc : virtToPhys pml4 ≠ c) : Bare m' pml4 := by
  have hstill := he.still _ (List.mem_cons_of_mem _ (List.mem_map_of_mem h.space)) hc
  exact ⟨he.live _ h.space, fun a ha => (hstill.translate (owned_pathOf ha)).trans (h.empty a ha)⟩

/-- The kernel's half as the other trees have it, where they are left alone. -/
theorem Extends.kernel (h : Extends kernPml4 m m' c own) (hc : virtToPhys kernPml4 ≠ c) :
    (∀ a, m'.vmm.translate (virtToPhys kernPml4) a = m.vmm.translate (virtToPhys kernPml4) a) ∧
    (∀ p, p.length = 4 → m'.vmm.leafAt (virtToPhys kernPml4) p =
      m.vmm.leafAt (virtToPhys kernPml4) p) ∧
    (∀ i, m'.vmm.mem (virtToPhys kernPml4) i = m.vmm.mem (virtToPhys kernPml4) i) ∧
    ∀ pml4 ∈ m.addrSpaces.live, virtToPhys pml4 ≠ c → ∀ i,
      m'.vmm.mem (virtToPhys pml4) i = m.vmm.mem (virtToPhys pml4) i := by
  have hkern := h.still _ List.mem_cons_self hc
  refine ⟨fun a => hkern.translate (.inl rfl),
    fun p hp => hkern.leafAt (.inl rfl) (Nat.le_of_eq hp), hkern [] _ owned_nil (by simp) rfl,
    fun pml4 hmem hne => ?_⟩
  exact h.still _ (List.mem_cons_of_mem _ (List.mem_map_of_mem hmem)) hne [] _ owned_nil (by simp)
    rfl

theorem map_add_pml4 (spaces : List Filled) (pml4 : Nat) (block : Nat × Nat) :
    (spaces.map (Filled.add pml4 block)).map Filled.pml4 = spaces.map Filled.pml4 := by
  simp [Function.comp_def]

section Steps

variable (h : ClientInv hreach kernPml4 m)

include h

theorem extends_created {pml4 : Nat} {s' : Vmm { b // BlockMap b₀ b }} (own : Option (Nat × Nat))
    (hnew : Created (buddyPool b₀ hreach).tables (virtToPhys kernPml4) (virtToPhys pml4) m.vmm s') :
    Extends kernPml4 m { m with vmm := s', spaces := ⟨pml4, []⟩ :: m.spaces } (virtToPhys pml4)
      own :=
  ⟨fun _ ha => List.mem_cons_of_mem _ ha, fun _ hb => hb,
    fun _ hr _ => hnew.still h.tables.forest hr, fun _ hb _ _ hf => h.page_created hnew hb hf⟩

theorem extends_mapped {v : Filled} {s' : Vmm { b // BlockMap b₀ b }} (block : Nat × Nat)
    (own : Option (Nat × Nat)) (hv : v ∈ m.spaces)
    (ht : Touched (buddyPool b₀ hreach).tables (virtToPhys v.pml4) Low m.vmm s') :
    Extends kernPml4 m { m with vmm := s', spaces := m.spaces.map (Filled.add v.pml4 block) }
      (virtToPhys v.pml4) own := by
  have hmem := ClientInv.mem_live hv
  have hroot := List.mem_cons_of_mem (virtToPhys kernPml4) (ClientInv.mem_roots hv)
  refine ⟨fun a ha => ?_, fun _ hb => hb, fun r hr hne => (h.tables.mapUser hmem ht).2 r hr hne,
    fun _ hb _ _ hf => h.page_touched hroot ht hb hf⟩
  show a ∈ (m.spaces.map (Filled.add v.pml4 block)).map Filled.pml4
  rw [map_add_pml4]
  exact ha

/-- A change to the low half of an address space leaves its upper half. -/
theorem upper_touched {v : Filled} {s' : Vmm { b // BlockMap b₀ b }} (hv : v ∈ m.spaces)
    (ht : Touched (buddyPool b₀ hreach).tables (virtToPhys v.pml4) Low m.vmm s') {i : Fin 512}
    (hi : ¬ Low i) : s'.mem (virtToPhys v.pml4) i = m.vmm.mem (virtToPhys v.pml4) i :=
  h.tables.forest.upper_kept (List.mem_cons_of_mem _ (ClientInv.mem_roots hv))
    (fun _ hk => owned_cons hk) ht (ClientInv.mem_roots hv) hi

/-- User mode keeps its rights in an address space that is mapped into. -/
theorem rights_mapped {v : Filled} (hv : v ∈ m.spaces) {flags : Word}
    (hrights : Granting Low (virtToPhys v.pml4) m.vmm) (hflags : grants userWrites flags = true)
    (virt phys size : Nat) :
    Granting Low (virtToPhys v.pml4)
      (Arch.vmmMap (buddyPool b₀ hreach).tables kernPml4 m.vmm v.pml4 virt phys size flags).2 := by
  have hroot : mapRoot kernPml4 v.pml4 = v.pml4 :=
    if_neg (ne_kernPml4Token (h.tables.aligned (ClientInv.mem_live hv)).1)
  have htree : TreeOk (buddyPool b₀ hreach).tables (virtToPhys v.pml4) m.vmm :=
    h.tables.forest.treeOk (List.mem_cons_of_mem _ (ClientInv.mem_roots hv))
  rw [← hroot] at hrights htree
  have hmapped := hrights.map htree hflags virt phys size
  rw [hroot] at hmapped
  exact hmapped

theorem extends_written {f : Nat} {block : Nat × Nat} (c : Nat) (hblock : block ∈ m.held)
    (hf : InBlock block.1 block.2 f) (word : Fin 512 → Word) :
    Extends kernPml4 m
      { m with vmm := { m.vmm with mem := Function.update m.vmm.mem (f * pageSize) word } }
      c (some block) := by
  refine ⟨fun _ ha => ha, fun _ hb => hb, fun r hr _ => h.still_of_held hblock hf word hr,
    fun b hb hne g hg => ?_⟩
  have hpage : g * pageSize ≠ f * pageSize := by
    intro he
    have hgf : g = f := by rw [← pageSize_mul_div g, he, pageSize_mul_div]
    have hal := (h.held b hb).allocated
    have hal' := (h.held block hblock).allocated
    have hfirst := m.vmm.source.property.allocation_inj hal hal' (hgf ▸ hg) hf
    rw [hfirst, hal'] at hal
    exact hne (congrArg some (Prod.ext hfirst (Option.some.inj hal).symm).symm)
  show Function.update m.vmm.mem (f * pageSize) word (g * pageSize) = m.vmm.mem (g * pageSize)
  rw [Function.update_of_ne hpage]

end Steps

/-- The page that `task_alloc_pages` obtains and links into an empty list. -/
theorem extends_linked (h : ClientInv hreach kernPml4 m) {order : Nat} {b : Buddy} (c : Nat)
    (own : Option (Nat × Nat)) (hcall : allocPages m.vmm.source.val order = .ok (some page, b)) :
    ∃ source, source.val = b.setPage page (fun pg => { pg with next := none, prev := none }) ∧
      ClientInv hreach kernPml4
        { m with
          vmm := { m.vmm with source := source }
          held := (page, order) :: m.held } ∧
      Extends kernPml4 m
        { m with
          vmm := { m.vmm with source := source }
          held := (page, order) :: m.held } c own ∧
      ∀ b ∈ m.held, b.1 ≠ page := by
  obtain ⟨source, rfl, hinv⟩ := h.allocPages hcall
  obtain ⟨hfresh, hal⟩ := h.alloc_fresh hcall
  have hsame := setPage_sameMap source.val page
    (f := fun pg => { pg with next := none, prev := none }) (fun _ => rfl) fun _ => rfl
  have hstate := (allocation_eq_some.mp hal).2.1
  obtain ⟨source', hs', hinv'⟩ := hinv.relinked hsame rfl fun x hx => by
    have hne : x ≠ page := by
      rintro rfl
      rw [show source.val.state x = .buddy from hx] at hstate
      cases hstate
    simp [Buddy.next, Buddy.prev, hne]
  refine ⟨source', hs', hinv', ⟨fun _ ha => ha, fun _ hb => List.mem_cons_of_mem _ hb,
    fun r _ _ => Still.of_mem rfl r, fun _ _ _ _ _ => rfl⟩, fun b hb he => ?_⟩
  rw [← he, (h.held b hb).allocated] at hfresh
  cases hfresh

/-! ## `make_task` -/

/-- `create_task`, if it goes through: no slot, or a task with a new address
space. -/
theorem createTask_ok (h : TasksInv hreach kernPml4 userTest s₀ y m) {res : Option Slot}
    (hcall : createTask D kernPml4 y priority = .ok (res, y')) :
    (res = none ∧ y' = y ∧ getFreeSlot y.sched = none) ∨
    ∃ i pml4 s', res = some i ∧ (y.sched.tasks i).state = .free ∧
      Sched.createTask y.sched priority pml4 = (some i, y.sched.withTask i priority pml4) ∧
      y' = ⟨rawVmm Subtype.val s', y.sched.withTask i priority pml4⟩ ∧
      ClientInv hreach kernPml4 { m with vmm := s', spaces := ⟨pml4, []⟩ :: m.spaces } ∧
      Created (buddyPool b₀ hreach).tables (virtToPhys kernPml4) (virtToPhys pml4) m.vmm s' ∧
      virtToPhys pml4 ∉ virtToPhys kernPml4 :: m.addrSpaces.roots := by
  unfold createTask at hcall
  split at hcall
  · rename_i hslot
    cases hcall
    exact .inl ⟨rfl, rfl, hslot⟩
  · rename_i slot hslot
    split at hcall
    · cases hcall
    · rename_i vmem vmm hcreate
      rw [← h.vmm] at hcreate
      obtain ⟨pml4, s', rfl, rfl, hinv, hnew, hnot⟩ := h.inv.created hcreate
      have hne : pml4 ≠ 0 := (hinv.tables.pointer_ok List.mem_cons_self).1
      rcases createTask_cases y.sched priority pml4 with he | ⟨i, hfree, ⟨hzero, -⟩ | ⟨-, he⟩⟩
      · -- there is a slot
        unfold Sched.createTask at he
        rw [hslot] at he
        simp [hne] at he
      · exact absurd hzero hne
      · rw [Option.getD_some, he] at hcall
        cases hcall
        exact .inr ⟨i, pml4, s', rfl, hfree, he, rfl, hinv, hnew, hnot⟩

/-- **One task more.** -/
theorem TasksInv.withNew (h : TasksInv hreach kernPml4 userTest s₀ y m) {pml4 : Nat} {i : Slot}
    (hvmm : rawVmm Subtype.val m'.vmm = y'.vmm) (hinv : ClientInv hreach kernPml4 m')
    (he : Extends kernPml4 m m' (virtToPhys pml4) own)
    (hnot : virtToPhys pml4 ∉ virtToPhys kernPml4 :: m.addrSpaces.roots)
    (hlive : ∀ a ∈ m'.addrSpaces.live, a = pml4 ∨ a ∈ m.addrSpaces.live)
    (hupper : ∀ i, ¬ Low i →
      m'.vmm.mem (virtToPhys pml4) i = m'.vmm.mem (virtToPhys kernPml4) i)
    (hfree : (y.sched.tasks i).state = .free)
    (hother : ∀ j, j ≠ i → y'.sched.tasks j = y.sched.tasks j)
    (hstate : (y'.sched.tasks i).state ≠ .free) (hown : ∀ b ∈ m.held, own ≠ some b)
    (hvmem : (y'.sched.tasks i).vmem = pml4) (hcr3 : y'.sched.cr3 = virtToPhys pml4)
    (hplaced : y'.sched.running i →
      ∃ page, Placed kernPml4 userTest m' (y'.sched.tasks i) page ∧ ∀ b ∈ m.held, b.1 ≠ page)
    (hbare : ¬ y'.sched.running i → Bare m' pml4) :
    TasksInv hreach kernPml4 userTest s₀ y' m' := by
  have hkern : virtToPhys kernPml4 ≠ virtToPhys pml4 := fun hc => hnot (hc ▸ List.mem_cons_self)
  have hroot : ∀ a ∈ m.addrSpaces.live, virtToPhys a ≠ virtToPhys pml4 := fun a ha hc =>
    hnot (hc ▸ List.mem_cons_of_mem _ (List.mem_map_of_mem ha))
  obtain ⟨htranslate, hleaves, hwords, hothers⟩ := he.kernel hkern
  have hwas : ∀ j, j ≠ i → y'.sched.running j → y.sched.running j := by
    intro j hj hrun
    rwa [State.running, hother j hj] at hrun
  -- a task that was there before, and the new one
  have hapart : ∀ j, j ≠ i → y'.sched.running i → y'.sched.running j →
      (y'.sched.tasks i).vmem ≠ (y'.sched.tasks j).vmem ∧
        (y'.sched.tasks i).pages ≠ (y'.sched.tasks j).pages := by
    intro j hj hi hrun
    obtain ⟨page, hpage, hfresh⟩ := hplaced hi
    obtain ⟨q, hq⟩ := h.placed j (hwas j hj hrun)
    rw [hother j hj, hvmem, hpage.pages, hq.pages]
    refine ⟨fun hc => hroot _ hq.space (congrArg virtToPhys hc).symm, fun hc => ?_⟩
    exact hfresh _ hq.block (Option.some.inj hc).symm
  refine ⟨hvmm, hinv, fun a => (htranslate a).trans (h.kernel a),
    fun hs => (h.guarded hs).of_leaves fun p hp => .inl (hleaves p hp), fun a ha j hj => ?_,
    fun j hj => ?_, fun j hj => ?_, fun j k hj hk hne => ?_, fun j hj hrun => ?_,
    .inr ⟨i, hstate, hvmem ▸ hcr3⟩⟩
  · obtain rfl | ha := hlive a ha
    · exact hupper j hj
    · rw [hothers a ha (hroot a ha), hwords]
      exact h.upper a ha j hj
  · have hne : j ≠ i := fun hc => hstate (hc ▸ hj)
    rw [hother j hne] at hj ⊢
    exact h.free j hj
  · by_cases hne : j = i
    · subst hne
      obtain ⟨page, hpage, -⟩ := hplaced hj
      exact ⟨page, hpage⟩
    · obtain ⟨page, hpage⟩ := h.placed j (hwas j hne hj)
      rw [hother j hne]
      exact ⟨page, hpage.extends he (hroot _ hpage.space) (hown _ hpage.block)⟩
  · by_cases hji : j = i
    · subst hji
      exact hapart k (Ne.symm hne) hj hk
    · by_cases hki : k = i
      · subst hki
        exact ⟨(hapart j hji hk hj).1.symm, (hapart j hji hk hj).2.symm⟩
      · rw [hother j hji, hother k hki]
        exact h.apart j k (hwas j hji hj) (hwas k hki hk) hne
  · by_cases hne : j = i
    · subst hne
      exact hvmem ▸ hbare hrun
    · rw [State.running, hother j hne] at hrun
      rw [hother j hne] at hj ⊢
      have hb := h.bare j hj hrun
      exact hb.extends he (hroot _ hb.space)

/-- Nothing is mapped in the low half of a new address space. -/
theorem leafAt_of_created {A : TableSource { b // BlockMap b₀ b }} {kern u a : Nat}
    {s s' : Vmm { b // BlockMap b₀ b }} (hnew : Created A kern u s s') (ha : a < 2 ^ 47) :
    s'.leafAt u (pathOf a) = none := by
  have hlow : Low (pml4Idx a) := by
    show a / 2 ^ 39 % 512 < 256
    omega
  have hpres : present (s'.mem u (pml4Idx a)) = false := by
    rw [hnew.low _ hlow]
    decide
  simp only [Vmm.leafAt, pathOf, find, leaf_eq_none_of_not_present hpres,
    child_eq_none_of_not_present hpres]

theorem translate_of_leafAt {σ : Type} {s : Vmm σ} {root a : Nat}
    (h : s.leafAt root (pathOf a) = none) : s.translate root a = none := by
  unfold Vmm.translate
  rw [h, Option.map_none, ite_self]

/-- The two pages are mapped at `user_virt` and nothing else, on fresh tables. -/
theorem placed_of_fills {s s' : Vmm { b // BlockMap b₀ b }} {root : Nat}
    (hbare : ∀ a, a < 2 ^ 47 → s.translate root a = none)
    (hfills : Fills (MapsTo userVirt (page * pageSize) userFlags) (s.translate root)
      (s'.translate root) userVirt (userVirt + 2 * pageSize) 0) :
    (∀ a, userVirt ≤ a → a < userVirt + 2 * pageSize → ∃ tr, s'.translate root a = some tr ∧
      MapsTo userVirt (page * pageSize) userFlags a tr) ∧
    ∀ a, a < 2 ^ 47 → ¬ (userVirt ≤ a ∧ a < userVirt + 2 * pageSize) →
      s'.translate root a = none := by
  exact ⟨fun a h1 h2 => (hfills.filled h1 h2).2,
    fun a h1 h2 => (hfills.frame a h2).trans (hbare a h1)⟩

/-- `task_alloc_pages` where there is no block. -/
theorem taskAllocPages_none {i : Slot} {order : Nat}
    (hcall : taskAllocPages y i order = .ok (none, y')) :
    ∃ b, allocPages y.vmm.source order = .ok (none, b) ∧
      y' = { y with vmm := { y.vmm with source := b } } := by
  unfold taskAllocPages at hcall
  split at hcall
  · cases hcall
  · cases hcall
    exact ⟨_, ‹_›, rfl⟩
  · cases hcall

/-- `task_alloc_pages` of a task without pages. -/
theorem taskAllocPages_some {i : Slot} {order : Nat} (hpages : (y.sched.tasks i).pages = none)
    (hcall : taskAllocPages y i order = .ok (some page, y')) :
    ∃ b, allocPages y.vmm.source order = .ok (some page, b) ∧
      y' = ⟨{ y.vmm with
          source := b.setPage page fun pg => { pg with next := none, prev := none } },
        y.sched.setTask i fun t => { t with pages := some page }⟩ := by
  unfold taskAllocPages at hcall
  split at hcall
  · cases hcall
  · cases hcall
  · rw [hpages] at hcall
    cases hcall
    exact ⟨_, ‹_›, rfl⟩

theorem hhdmToPhys_pageToHhdm {f : Nat} (h : f * pageSize < hhdmLimit) :
    hhdmToPhys (pageToHhdm f) = f * pageSize := by
  have hl : hhdmLimit = 0x777F80000000 := rfl
  have hb : hhdmBase = 0xFFFF888000000000 := rfl
  rw [hhdmToPhys, pageToHhdm]
  omega

/-- The page of the program is reached through the new tables. -/
theorem memcpyPage_ok {s s' : Vmm Buddy} {root : Nat} {tr : Translation}
    (hat : s.translate root (userVirt + 0x1000) = some tr)
    (hmaps : MapsTo userVirt (page * pageSize) userFlags (userVirt + 0x1000) tr)
    (hcall : memcpyPage s root (userVirt + 0x1000) userTest = .ok s') :
    s' = { s with mem := Function.update s.mem ((page + 1) * pageSize) userTest } := by
  obtain ⟨large, rfl⟩ := hmaps
  have hphys : page * pageSize + (userVirt + 0x1000 - userVirt) = (page + 1) * pageSize := by
    rw [Nat.add_sub_cancel_left, Nat.add_mul, Nat.one_mul]
    rfl
  rw [memcpyPage, hat] at hcall
  dsimp only at hcall
  rw [hphys] at hcall
  exact (Except.ok.inj hcall).symm

/-- What `make_task` makes of the record of `create_task`. -/
def placedTask (page : Nat) (t : Task) : Task :=
  { t with
    ctx := { t.ctx with rip := 0x101000, rsp := 0x101000 }
    pages := some page
    state := .running }

/-- The slots after a `make_task` that goes through. -/
theorem runTask_slots (s : State) (i : Slot) (priority : UInt32) (pml4 page : Nat) :
    let s' := runTask (((s.withTask i priority pml4).vmmSetTable pml4).setTask i fun t =>
      { t with pages := some page }) i (userVirt + 0x1000).toUInt64 (userVirt + 0x1000).toUInt64
    s'.tasks i = placedTask page (newTask priority pml4 s.nextPid (s.tasks i)) ∧
      ∀ j, j ≠ i → s'.tasks j = s.tasks j := by
  intro s'
  refine ⟨?_, fun j hj => ?_⟩
  · simp only [s', runTask, setTask_self, State.vmmSetTable, State.withTask]
    rfl
  · exact (setTask_other _ hj).trans ((setTask_other _ hj).trans (setTask_other _ hj))

/-- `make_task` where the two pages are not to be had: the task keeps its address
space. -/
theorem TasksInv.noPages (h : TasksInv hreach kernPml4 userTest s₀ y m) {pml4 : Nat} {i : Slot}
    {s' : Vmm { b // BlockMap b₀ b }} {b : Buddy} (hfree : (y.sched.tasks i).state = .free)
    (hinv : ClientInv hreach kernPml4 { m with vmm := s', spaces := ⟨pml4, []⟩ :: m.spaces })
    (hnew : Created (buddyPool b₀ hreach).tables (virtToPhys kernPml4) (virtToPhys pml4) m.vmm s')
    (hnot : virtToPhys pml4 ∉ virtToPhys kernPml4 :: m.addrSpaces.roots)
    (hcall : allocPages s'.source.val 1 = .ok (none, b)) :
    ∃ m' : Client { b // BlockMap b₀ b }, TasksInv hreach kernPml4 userTest s₀
      ⟨{ rawVmm Subtype.val s' with source := b },
        (y.sched.withTask i priority pml4).vmmSetTable pml4⟩ m' := by
  obtain ⟨source, rfl, hinv'⟩ := hinv.allocPages hcall
  have hkern : virtToPhys kernPml4 ≠ virtToPhys pml4 := fun hc => hnot (hc ▸ List.mem_cons_self)
  have hstate : ((y.sched.withTask i priority pml4).tasks i).state = .init := by
    rw [State.withTask, setTask_self]
    rfl
  have hsecond : Extends kernPml4 { m with vmm := s', spaces := ⟨pml4, []⟩ :: m.spaces }
      { m with vmm := { s' with source := source }, spaces := ⟨pml4, []⟩ :: m.spaces }
      (virtToPhys pml4) none :=
    ⟨fun _ ha => ha, fun _ hb => hb, fun r _ _ => Still.of_mem rfl r, fun _ _ _ _ _ => rfl⟩
  refine ⟨_, h.withNew rfl hinv' ((extends_created h.inv none hnew).trans hsecond) hnot
    (fun a ha => List.mem_cons.mp ha) (fun j hj => ?_) hfree (fun j hj => setTask_other _ hj)
    (fun hc => ?_) (fun _ _ hc => ?_) ?_ rfl (fun hrun => ?_)
    fun _ => ⟨List.mem_cons_self, fun a ha => ?_⟩⟩
  · exact (hnew.upper j hj).trans (hnew.other _ j hkern).symm
  · exact TaskState.noConfusion (hstate.symm.trans hc)
  · cases hc
  · exact congrArg Task.vmem (setTask_self y.sched i _)
  · exact TaskState.noConfusion (hstate.symm.trans hrun)
  · have hempty := translate_of_leafAt (leafAt_of_created hnew ha)
    exact (translate_of_mem rfl a).trans hempty

/-- No 2 MiB fit into the range. -/
theorem userRange_noSlot (w : Nat) : ¬ Slot userVirt (userVirt + 2 ^ 1 * pageSize) w := by
  rintro ⟨-, h1, h2⟩
  unfold userVirt at h1 h2
  unfold largePageSize pageSize at h2
  omega

/-- `make_task` where the pages are had: they are mapped, hold the program, and
are the new task's own. -/
theorem TasksInv.withPages (h : TasksInv hreach kernPml4 userTest s₀ y m) {pml4 failed : Nat}
    {i : Slot} {s' : Vmm { b // BlockMap b₀ b }} {b : Buddy} {vmm vmm' : Vmm Buddy}
    {sched : State} (hfree : (y.sched.tasks i).state = .free)
    (hinv : ClientInv hreach kernPml4 { m with vmm := s', spaces := ⟨pml4, []⟩ :: m.spaces })
    (hnew : Created (buddyPool b₀ hreach).tables (virtToPhys kernPml4) (virtToPhys pml4) m.vmm s')
    (hnot : virtToPhys pml4 ∉ virtToPhys kernPml4 :: m.addrSpaces.roots)
    (hcall : allocPages s'.source.val 1 = .ok (some page, b))
    (hmap : Ready.vmmMap D kernPml4
      { rawVmm Subtype.val s' with
        source := b.setPage page fun pg => { pg with next := none, prev := none } }
      pml4 userVirt (hhdmToPhys (pageToHhdm page)) (2 * pageSize) userFlags = .ok (failed, vmm))
    (hcopy : memcpyPage vmm (virtToPhys pml4) (userVirt + 0x1000) userTest = .ok vmm')
    (hslot : sched.tasks i =
      placedTask page (newTask priority pml4 y.sched.nextPid (y.sched.tasks i)))
    (hother : ∀ j, j ≠ i → sched.tasks j = y.sched.tasks j)
    (hcr3 : sched.cr3 = virtToPhys pml4) :
    ∃ m' : Client { b // BlockMap b₀ b },
      TasksInv hreach kernPml4 userTest s₀ ⟨vmm', sched⟩ m' := by
  have hkern : virtToPhys kernPml4 ≠ virtToPhys pml4 := fun hc => hnot (hc ▸ List.mem_cons_self)
  obtain ⟨source, hsource, hinv₂, hsecond, hfresh⟩ :=
    extends_linked hinv (virtToPhys pml4) (some (page, 1)) hcall
  rw [← hsource] at hmap
  have hblock : (page, 1) ∈ (page, 1) :: m.held := List.mem_cons_self
  have hlt : page * pageSize < hhdmLimit := (buddyPool b₀ hreach).managed_lt page
    (source.property.managed (hinv₂.held _ hblock).allocated (inBlock_self page 1))
  rw [hhdmToPhys_pageToHhdm hlt] at hmap
  -- the two pages are mapped on the new tables
  have hbare : ∀ a, a < 2 ^ 47 → s'.leafAt (virtToPhys pml4) (pathOf a) = none :=
    fun a ha => leafAt_of_created hnew ha
  have hend : userVirt + 2 ^ 1 * pageSize ≤ 2 ^ 47 := by decide
  obtain ⟨-, s₃, rfl, hinv₃, hs₃, htouched, hfills⟩ := hinv₂.mapFresh (v := ⟨pml4, []⟩)
    List.mem_cons_self hblock (by decide) hend (by unfold FlagsOk; decide) (by decide)
    (fun a _ h2 => hbare a (h2.trans_le hend)) userRange_noSlot hmap
  have hspaces : (⟨pml4, []⟩ : Filled) ∈ (⟨pml4, []⟩ : Filled) :: m.spaces := List.mem_cons_self
  have hthird := extends_mapped hinv₂ (page, 1) (some (page, 1)) hspaces htouched
  obtain ⟨hshown, honly⟩ := placed_of_fills
    (fun a ha => translate_of_leafAt (hbare a ha)) hfills
  have hrights : Granting Low (virtToPhys pml4) s₃ := by
    rw [hs₃]
    exact rights_mapped hinv₂ hspaces ((Granting.of_created hnew).of_mem rfl) (by decide) _ _ _
  -- the program is copied to the second one
  obtain ⟨tr, hat, hmaps⟩ := hshown (userVirt + 0x1000) (by decide) (by decide)
  have hat' : (rawVmm Subtype.val s₃).translate (virtToPhys pml4) (userVirt + 0x1000) = some tr :=
    (translate_of_mem rfl _).trans hat
  have hcopied := memcpyPage_ok hat' hmaps hcopy
  subst hcopied
  have hsnd : InBlock (page, 1).1 (page, 1).2 (page + 1) :=
    ⟨Nat.le_succ page, Nat.lt_succ_self (page + 1)⟩
  have hinv₄ := hinv₃.writePage hblock hsnd userTest
  have hfourth := extends_written hinv₃ (virtToPhys pml4) hblock hsnd userTest
  have hlive : ∀ a, a ∈ (((⟨pml4, []⟩ : Filled) :: m.spaces).map
      (Filled.add pml4 (page, 1))).map Filled.pml4 ↔ a = pml4 ∨ a ∈ m.addrSpaces.live := by
    intro a
    rw [map_add_pml4]
    exact List.mem_cons
  have hroots : ∀ a, a = pml4 ∨ a ∈ m.addrSpaces.live → Still (virtToPhys kernPml4) (virtToPhys a)
      s₃ { s₃ with mem := Function.update s₃.mem ((page + 1) * pageSize) userTest } :=
    fun a ha => hinv₃.still_of_held hblock hsnd userTest
      (List.mem_cons_of_mem _ (List.mem_map_of_mem ((hlive a).mpr ha)))
  have hnewStill := hroots pml4 (.inl rfl)
  have hkernStill := hinv₃.still_of_held hblock hsnd userTest List.mem_cons_self
  have hrunning : (sched.tasks i).state = .running := congrArg Task.state hslot
  have hspace : (sched.tasks i).vmem = pml4 := congrArg Task.vmem hslot
  have hmapped : ∀ a, a < 2 ^ 47 →
      Vmm.translate { s₃ with mem := Function.update s₃.mem ((page + 1) * pageSize) userTest }
        (virtToPhys pml4) a = s₃.translate (virtToPhys pml4) a :=
    fun a ha => hnewStill.translate (owned_pathOf ha)
  refine ⟨_, h.withNew rfl hinv₄
    ((((extends_created h.inv (some (page, 1)) hnew).trans hsecond).trans hthird).trans hfourth)
    hnot (fun a ha => (hlive a).mp ha) (fun j hj => ?_) hfree hother (fun hc => ?_)
    (fun b hb he => ?_) hspace hcr3 (fun _ => ?_) fun hno => absurd hrunning hno⟩
  · calc Function.update s₃.mem ((page + 1) * pageSize) userTest (virtToPhys pml4) j
        = s₃.mem (virtToPhys pml4) j := hnewStill [] _ owned_nil (by simp) rfl j
      _ = s'.mem (virtToPhys pml4) j := upper_touched hinv₂ List.mem_cons_self htouched hj
      _ = m.vmm.mem (virtToPhys kernPml4) j := hnew.upper j hj
      _ = s'.mem (virtToPhys kernPml4) j := (hnew.other _ j hkern).symm
      _ = s₃.mem (virtToPhys kernPml4) j :=
        ((hthird.still _ List.mem_cons_self hkern) [] _ owned_nil (by simp) rfl j).symm
      _ = Function.update s₃.mem ((page + 1) * pageSize) userTest (virtToPhys kernPml4) j :=
        (hkernStill [] _ owned_nil (by simp) rfl j).symm
  · exact TaskState.noConfusion (hrunning.symm.trans hc)
  · exact hfresh b hb (congrArg Prod.fst (Option.some.inj he)).symm
  · have hframe := (h.free i hfree).1
    refine ⟨page, ⟨congrArg Task.pages hslot, (hlive _).mpr (.inl hspace), hblock,
      fun a h1 h2 => ?_, fun a h1 h2 => ?_, hspace.symm ▸ hrights.still hnewStill,
      Function.update_self .., ?_⟩,
      hfresh⟩
    · obtain ⟨tr, hat, hmaps⟩ := hshown a h1 h2
      exact ⟨tr, by rw [hspace, hmapped a (h2.trans_le hend), hat], hmaps⟩
    · rw [hspace, hmapped a h1]
      exact honly a h1 h2
    · rw [congrArg Task.ctx hslot, placedTask, newTask, hframe]
      rfl

/-- **`make_task` keeps the invariant.** -/
theorem TasksInv.makeTask (h : TasksInv hreach kernPml4 userTest s₀ y m) {res : Option Slot}
    (hcall : Kernel.makeTask D kernPml4 userTest y priority = .ok (res, y')) :
    ∃ m' : Client { b // BlockMap b₀ b }, TasksInv hreach kernPml4 userTest s₀ y' m' := by
  unfold Kernel.makeTask at hcall
  split at hcall
  · cases hcall
  · rename_i y₁ hcreate
    cases hcall
    obtain ⟨-, rfl, -⟩ | ⟨_, _, _, hsome, -⟩ := createTask_ok h hcreate
    · exact ⟨m, h⟩
    · cases hsome
  · rename_i i y₁ hcreate
    obtain ⟨hnone, -⟩ | ⟨i', pml4, s', hsome, hfree, -, rfl, hinv, hnew, hnot⟩ :=
      createTask_ok h hcreate
    · cases hnone
    obtain rfl := Option.some.inj hsome
    have hvmem : ((y.sched.withTask i priority pml4).tasks i).vmem = pml4 :=
      congrArg Task.vmem (setTask_self y.sched i _)
    have hnopages : ((y.sched.withTask i priority pml4).tasks i).pages = none :=
      (congrArg Task.pages (setTask_self y.sched i _)).trans (h.free i hfree).2
    dsimp only at hcall
    rw [hvmem] at hcall
    split at hcall
    · cases hcall
    · -- no two pages
      rename_i y₂ hpages
      cases hcall
      obtain ⟨b, hnone, rfl⟩ := taskAllocPages_none hpages
      exact h.noPages hfree hinv hnew hnot hnone
    · rename_i page y₂ hpages
      obtain ⟨b, hsome, rfl⟩ := taskAllocPages_some hnopages hpages
      split at hcall
      · cases hcall
      · rename_i failed vmm hmap
        split at hcall
        · cases hcall
        · rename_i vmm' hcopy
          cases hcall
          have hvmem' : ((((y.sched.withTask i priority pml4).vmmSetTable pml4).setTask i
              fun t => { t with pages := some page }).tasks i).vmem = pml4 :=
            (congrArg Task.vmem (setTask_self _ i _)).trans hvmem
          dsimp only at hmap
          rw [hvmem'] at hmap
          obtain ⟨hslot, hother⟩ := runTask_slots y.sched i priority pml4 page
          exact h.withPages hfree hinv hnew hnot hsome hmap hcopy hslot hother rfl

/-! ## Runs -/

theorem TasksInv.makeOne (h : TasksInv hreach kernPml4 userTest s₀ y m)
    (hcall : Kernel.makeOne D kernPml4 userTest y priority = .ok y') :
    ∃ m' : Client { b // BlockMap b₀ b }, TasksInv hreach kernPml4 userTest s₀ y' m' := by
  unfold Kernel.makeOne at hcall
  split at hcall
  · cases hcall
  · rename_i hmake
    cases hcall
    exact h.makeTask hmake

/-- Before the first task. -/
theorem tasksInv_boot {c : Client Buddy} (h : ReadyBoot kernPml4 c) (userTest : Fin 512 → Word) :
    ∃ m : Client { b // BlockMap c.vmm.source b }, TasksInv h.reach kernPml4 userTest c.vmm
      ⟨c.vmm, Sched.boot (virtToPhys kernPml4)⟩ m := by
  obtain ⟨m, hraw, hinv⟩ := h.inv
  have hspaces : m.spaces = [] := (congrArg Client.spaces hraw).trans h.spaces
  have hlive : m.addrSpaces.live = [] := congrArg (List.map Filled.pml4) hspaces
  have hvmm : rawVmm Subtype.val m.vmm = c.vmm := congrArg Client.vmm hraw
  refine ⟨m, hvmm, hinv, fun a => translate_of_mem (congrArg Vmm.mem hvmm) a,
    fun hs => hs.of_mem (congrArg Vmm.mem hvmm), fun pml4 hmem => ?_, fun i _ => ⟨rfl, rfl⟩,
    fun i hi => ?_, fun i _ hi => ?_, fun i hi => absurd rfl hi, .inl rfl⟩
  · rw [hlive] at hmem
    cases hmem
  all_goals exact TaskState.noConfusion hi

/-- **The calls of `make_task`**, in any number. -/
theorem TasksInv.makeTasks (ps : List UInt32) :
    ∀ {y y' : System} {m : Client { b // BlockMap b₀ b }},
      TasksInv hreach kernPml4 userTest s₀ y m →
      runFrom (Kernel.makeOne D kernPml4 userTest) y ps = .ok y' →
      ∃ m' : Client { b // BlockMap b₀ b }, TasksInv hreach kernPml4 userTest s₀ y' m' := by
  induction ps with
  | nil =>
      intro y y' m h hrun
      cases hrun
      exact ⟨m, h⟩
  | cons p ps ih =>
      intro y y' m h hrun
      unfold runFrom at hrun
      split at hrun
      · cases hrun
      · rename_i y₁ hone
        obtain ⟨m₁, h₁⟩ := h.makeOne hone
        exact ih h₁ hrun

/-! ## What the tasks see -/

/-- A running task has its two pages to itself: they are all of its low half,
its high half is the kernel's, and it starts in the second page. -/
structure OwnSpace (kernPml4 : Nat) (userTest : Fin 512 → Word) (s₀ : Vmm Buddy) (y : System)
    (t : Task) (page : Nat) : Prop where
  pages : t.pages = some page
  block : y.vmm.source.allocation page = some 1
  shown : ∀ a, userVirt ≤ a → a < userVirt + 2 * pageSize →
    ∃ tr, y.vmm.translate (virtToPhys t.vmem) a = some tr ∧
      MapsTo userVirt (page * pageSize) userFlags a tr
  only : ∀ a, a < 2 ^ 47 → ¬ (userVirt ≤ a ∧ a < userVirt + 2 * pageSize) →
    y.vmm.translate (virtToPhys t.vmem) a = none
  high : ∀ a, 2 ^ 47 ≤ a → y.vmm.translate (virtToPhys t.vmem) a =
    s₀.translate (virtToPhys kernPml4) a
  code : y.vmm.mem ((page + 1) * pageSize) = userTest
  start : t.ctx = taskFrame

/-- The tasks of `y` are kept apart, from each other and from the tables. -/
structure Isolated (kernPml4 : Nat) (userTest : Fin 512 → Word) (s₀ : Vmm Buddy) (y : System) :
    Prop where
  kernel : ∀ a, y.vmm.translate (virtToPhys kernPml4) a = s₀.translate (virtToPhys kernPml4) a
  space : ∀ i, y.sched.running i →
    ∃ page, OwnSpace kernPml4 userTest s₀ y (y.sched.tasks i) page
  apart : ∀ i j, y.sched.running i → y.sched.running j → i ≠ j →
    (y.sched.tasks i).vmem ≠ (y.sched.tasks j).vmem ∧
    ∀ p q, (y.sched.tasks i).pages = some p → (y.sched.tasks j).pages = some q →
      ∀ f, InBlock p 1 f → ¬ InBlock q 1 f
  tables : ∀ i, y.sched.running i → ∀ p, (y.sched.tasks i).pages = some p →
    ∀ r, (r = kernPml4 ∨ ∃ j, y.sched.running j ∧ r = (y.sched.tasks j).vmem) →
      ∀ path t, path.length ≤ 3 → y.vmm.tableAt (virtToPhys r) path = some t →
        ¬ InBlock p 1 (t / pageSize)

/-- A table that some tree reaches is on no page of a task. -/
theorem TasksInv.table_off (h : TasksInv hreach kernPml4 userTest s₀ y m) {b : Nat × Nat}
    (hb : b ∈ m.held) {r t : Nat} {path : List (Fin 512)}
    (hr : r ∈ virtToPhys kernPml4 :: m.addrSpaces.roots) (hlen : path.length ≤ 3)
    (ht : m.vmm.tableAt r path = some t) : ¬ InBlock b.1 b.2 (t / pageSize) := by
  obtain ⟨r', hr', hown, ht'⟩ := h.inv.tables.forest.owner hr ht
  exact fun hin => (h.inv.held b hb).noTable _ hin r' hr' ⟨path, t, hown, hlen, ht', rfl⟩

/-- Above the low half an address space is the kernel's. -/
theorem TasksInv.high (h : TasksInv hreach kernPml4 userTest s₀ y m) {pml4 a : Nat}
    (hmem : pml4 ∈ m.addrSpaces.live) (ha : 2 ^ 47 ≤ a) :
    m.vmm.translate (virtToPhys pml4) a = s₀.translate (virtToPhys kernPml4) a := by
  rw [← h.kernel]
  by_cases hc : Canonical a
  · have hupper : ¬ Low (pml4Idx a) := by
      show ¬ a / 2 ^ 39 % 512 < 256
      unfold Canonical at hc
      omega
    have hword := h.upper pml4 hmem _ hupper
    simp only [Vmm.translate, Vmm.leafAt, pathOf, find, hword]
  · rw [Vmm.translate, Vmm.translate, if_neg hc, if_neg hc]

theorem TasksInv.isolated (h : TasksInv hreach kernPml4 userTest s₀ y m) :
    Isolated kernPml4 userTest s₀ y := by
  have htranslate : ∀ r a, y.vmm.translate r a = m.vmm.translate r a := fun r a =>
    h.vmm ▸ translate_of_mem rfl a
  have hmem : y.vmm.mem = m.vmm.mem := h.vmm ▸ rfl
  have hsource : y.vmm.source = m.vmm.source.val := h.vmm ▸ rfl
  have hroot : ∀ {i page}, Placed kernPml4 userTest m (y.sched.tasks i) page →
      virtToPhys (y.sched.tasks i).vmem ∈ virtToPhys kernPml4 :: m.addrSpaces.roots :=
    fun hp => List.mem_cons_of_mem _ (List.mem_map_of_mem hp.space)
  refine ⟨fun a => (htranslate _ a).trans (h.kernel a), fun i hi => ?_, fun i j hi hj hne => ?_,
    fun i hi p hp r hr path t hlen ht => ?_⟩
  · obtain ⟨page, hp⟩ := h.placed i hi
    refine ⟨page, hp.pages, hsource ▸ (h.inv.held _ hp.block).allocated, fun a h1 h2 => ?_,
      fun a h1 h2 => ?_, fun a ha => ?_, hmem ▸ hp.code, hp.ctx⟩
    · rw [htranslate]
      exact hp.shown a h1 h2
    · rw [htranslate]
      exact hp.only a h1 h2
    · rw [htranslate]
      exact h.high hp.space ha
  · obtain ⟨hvmem, hpages⟩ := h.apart i j hi hj hne
    obtain ⟨p', hp'⟩ := h.placed i hi
    obtain ⟨q', hq'⟩ := h.placed j hj
    refine ⟨hvmem, fun p q hp hq f hfp hfq => hpages ?_⟩
    obtain rfl := Option.some.inj (hp.symm.trans hp'.pages)
    obtain rfl := Option.some.inj (hq.symm.trans hq'.pages)
    rw [hp, hq]
    exact congrArg some (m.vmm.source.property.allocation_inj
      (h.inv.held _ hp'.block).allocated (h.inv.held _ hq'.block).allocated hfp hfq)
  · obtain ⟨p', hp'⟩ := h.placed i hi
    obtain rfl := Option.some.inj (hp.symm.trans hp'.pages)
    rw [Vmm.tableAt, hmem] at ht
    refine h.table_off hp'.block ?_ hlen ht
    obtain rfl | ⟨j, hj, rfl⟩ := hr
    · exact List.mem_cons_self
    · obtain ⟨q, hq⟩ := h.placed j hj
      exact hroot hq

/-- **The tasks of `entry` are isolated.** From the hand-over to the buddy
allocator, whatever calls of `make_task` go through: every task that runs has
two frames of its own as the low half of an address space of its own, with the
program in the second; the kernel's half is as it was, and no table of any tree
is on a task's frame. -/
theorem makeTasks_isolated (D : PageDiff) (kernPml4 : Nat) (userTest : Fin 512 → Word)
    (c : Client Buddy) (h : ReadyBoot kernPml4 c) (ps : List UInt32) (y : System)
    (hrun : runFrom (makeOne D kernPml4 userTest) ⟨c.vmm, Sched.boot (virtToPhys kernPml4)⟩ ps =
      .ok y) :
    Isolated kernPml4 userTest c.vmm y := by
  obtain ⟨m, hstart⟩ := tasksInv_boot h userTest
  obtain ⟨m', hm'⟩ := hstart.makeTasks ps hrun
  exact hm'.isolated

/-- `entry` on the small machine, up to `enter_task`, with calls of `make_task`
of these priorities. -/
def smallTasks (ps : List UInt32) : Option (Except String System) :=
  match bootMemory smallKernel smallRam_span firstTables 60 0x240000 with
  | none => none
  | some (.error e) => some (.error e)
  | some (.ok c) => some (runFrom (makeOne dividing firstTables.kernPml4 fun _ => 0x90)
      ⟨c.vmm, Sched.boot (virtToPhys firstTables.kernPml4)⟩ ps)

/-- Both tasks run at the end. -/
def BothRun (i j : Slot) : Option (Except String System) → Bool
  | some (.ok y) => (y.sched.tasks i).state == .running && (y.sched.tasks j).state == .running
  | _ => false

theorem smallTasks_goes : ∃ y, smallTasks [1024, 100] = some (.ok y) ∧
    y.sched.running 0 ∧ y.sched.running 1 := by
  have hgoes : BothRun 0 1 (smallTasks [1024, 100]) = true := by decide +kernel
  generalize smallTasks [1024, 100] = out at hgoes
  unfold BothRun at hgoes
  split at hgoes
  · rename_i y
    rw [Bool.and_eq_true, beq_iff_eq, beq_iff_eq] at hgoes
    exact ⟨y, rfl, hgoes⟩
  · cases hgoes

/-- Its parts. -/
theorem smallTasks_run {ps : List UInt32} (h : smallTasks ps = some (.ok y)) :
    ∃ c, bootMemory smallKernel smallRam_span firstTables 60 0x240000 = some (.ok c) ∧
      runFrom (makeOne dividing firstTables.kernPml4 fun _ => 0x90)
        ⟨c.vmm, Sched.boot (virtToPhys firstTables.kernPml4)⟩ ps = .ok y := by
  unfold smallTasks at h
  split at h
  · cases h
  · cases h
  · rename_i c hboot
    exact ⟨c, hboot, Option.some.inj h⟩

theorem makeTasks_isolated_two : ∃ c y, smallTasks [1024, 100] = some (.ok y) ∧
    y.sched.running 0 ∧ y.sched.running 1 ∧
    Isolated firstTables.kernPml4 (fun _ => 0x90) c y := by
  obtain ⟨y, hgoes, h0, h1⟩ := smallTasks_goes
  obtain ⟨c, hboot, hrun⟩ := smallTasks_run hgoes
  exact ⟨c.vmm, y, hgoes, h0, h1, makeTasks_isolated dividing _ _ c (smallMachine_ready hboot)
    [1024, 100] y hrun⟩

end DevOS.Kernel
