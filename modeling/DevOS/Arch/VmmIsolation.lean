import DevOS.Arch.VmmDestroy
import DevOS.Arch.VmmSpaces

/-!
# Address spaces — isolation

Runs of `vmm_create_user_pml4`, `vmm_map` on low addresses and
`vmm_destroy_user_pml4`. The teardown gives every frame that an address space
maps back to the allocator, so what is mapped has to be the address space's to
give: a frame of an allocated block that holds no table and that no other
address space maps (`DataOk`). Under that, no call on one address space changes
what another or the kernel translates.
-/

namespace DevOS.Arch

open DevOS.Lib

variable {σ : Type} {P : PagePool σ} {kernPml4 kern u f : Nat} {users users' : List Nat}
  {s s' : Vmm σ} {H : Fin 512 → Prop}

/-! ## Runs -/

/-- The VMM, CR3 and the PML4s of the address spaces that live. -/
structure AddrSpaces (σ : Type) where
  vmm : Vmm σ
  cr3 : Nat
  live : List Nat

/-- The calls a run is made of; `alloc_pages` is where the pages come from that
are mapped. -/
inductive UserOp where
  | createUser
  | mapUser (pml4 virt phys size : Nat) (flags : Word)
  | destroyUser (pml4 : Nat)
  | allocPages (order : Nat)

/-- The address space a call is about. -/
def UserOp.target : UserOp → Option Nat
  | .createUser => none
  | .mapUser pml4 _ _ _ _ => some pml4
  | .destroyUser pml4 => some pml4
  | .allocPages _ => none

/-- One call; the run ends where `alloc_pages` has no page or the kernel
panics. -/
def userStep (P : PagePool σ) (kernPml4 : Nat) (st : AddrSpaces σ) :
    UserOp → Except String (AddrSpaces σ)
  | .createUser =>
      match vmmCreateUserPml4 P.tables kernPml4 st.vmm with
      | (none, _) => .error outOfPages
      | (some pml4, s) => .ok { st with vmm := s, live := pml4 :: st.live }
  | .mapUser pml4 virt phys size flags =>
      let s := (vmmMap P.tables kernPml4 st.vmm pml4 virt phys size flags).2
      if s.denied then .error outOfPages else .ok { st with vmm := s }
  | .destroyUser pml4 =>
      match vmmDestroyUserPml4 P kernPml4 st.vmm st.cr3 pml4 with
      | .error e => .error e
      | .ok (_, cr3, s) => .ok ⟨s, cr3, st.live.erase pml4⟩
  | .allocPages order =>
      .ok { st with vmm := { st.vmm with source := (P.alloc st.vmm.source order).2 } }

theorem userStep_mapUser {st st' : AddrSpaces σ} {pml4 virt phys size : Nat} {flags : Word}
    (h : userStep P kernPml4 st (.mapUser pml4 virt phys size flags) = .ok st') :
    st' = { st with vmm := (vmmMap P.tables kernPml4 st.vmm pml4 virt phys size flags).2 } := by
  simp only [userStep] at h
  split at h
  · cases h
  · exact (Except.ok.inj h).symm

/-- A frame is the address space `u`'s to give: it lies in an allocated block
that holds no table and of which no other address space maps a frame. -/
def OwnFrame (P : PagePool σ) (kern : Nat) (users : List Nat) (s : Vmm σ) (u f : Nat) : Prop :=
  ∃ p k, P.blocks s.source p = some k ∧ InBlock p k f ∧ ∀ g, InBlock p k g →
    (∀ r ∈ kern :: users, ¬ TableFrame kern r s g) ∧ ∀ v ∈ users, v ≠ u → ¬ MapsFrame s v g

/-- Every frame that is mapped is the address space's to give. -/
def DataOk (P : PagePool σ) (kern : Nat) (users : List Nat) (s : Vmm σ) : Prop :=
  ∀ u ∈ users, ∀ f, MapsFrame s u f → OwnFrame P kern users s u f

/-- The roots of the address spaces. -/
def AddrSpaces.roots (st : AddrSpaces σ) : List Nat := st.live.map virtToPhys

/-- What is asked for: low ranges, under PML4s that live, such that what is
mapped afterwards is each address space's to give. -/
def UserOp.Allowed (P : PagePool σ) (kernPml4 : Nat) (st : AddrSpaces σ) : UserOp → Prop
  | .createUser => True
  | .mapUser pml4 virt phys size flags => pml4 ∈ st.live ∧ virt + size ≤ 2 ^ 47 ∧
      DataOk P (virtToPhys kernPml4) st.roots
        (vmmMap P.tables kernPml4 st.vmm pml4 virt phys size flags).2
  | .destroyUser pml4 => pml4 ∈ st.live
  | .allocPages order => order ≤ pageMaxOrder

/-! ## The pool -/

/-- Drawing tables keeps the blocks and adds blocks of one frame. -/
theorem Drawn.blocks {a b : σ} (h : Drawn P.tables a b) :
    (∀ p k, P.blocks a p = some k → P.blocks b p = some k) ∧
    ∀ p k, P.blocks b p = some k → P.blocks a p = some k ∨ k = 0 := by
  induction h with
  | refl => exact ⟨fun _ _ h => h, fun _ _ h => .inl h⟩
  | @tail c d _ hlast ih =>
      obtain rfl : d = (P.alloc c 0).2 := hlast
      obtain ⟨hkeep, hnew⟩ := P.alloc_blocks c 0
      refine ⟨fun p k hp => hkeep p k (ih.1 p k hp), fun p k hp => ?_⟩
      obtain hp | ⟨-, rfl⟩ := hnew p k hp
      · exact ih.2 p k hp
      · exact .inr rfl

/-- A page that has been drawn is a block of its own. -/
theorem Drawn.held {a b : σ} {t : Nat} (h : Drawn P.tables a b) (hav : P.tables.avail a t)
    (hgone : ¬ P.tables.avail b t) : P.blocks b (t / pageSize) = some 0 := by
  obtain ⟨hdvd, hmanaged, hfree⟩ := hav
  have halloc : P.Allocated b (t / pageSize) := by
    by_contra hnot
    exact hgone ⟨hdvd, hmanaged, hnot⟩
  obtain ⟨p, k, hp, hin⟩ := halloc
  obtain hp' | rfl := h.blocks.2 p k hp
  · exact absurd ⟨p, k, hp', hin⟩ hfree
  · rw [inBlock_zero.mp hin]
    exact hp

/-- What can be drawn is in no allocated block. -/
theorem not_allocated_of_avail {a : σ} {t : Nat} (h : P.tables.avail a t) :
    ¬ P.Allocated a (t / pageSize) := h.2.2

/-- The pointer to a frame of the pool. -/
theorem pageToHhdm_spec {f : Nat} (h : P.managed f) :
    virtToPhys (pageToHhdm f) = f * pageSize ∧
    hhdmToPage (pageToHhdm f) = virtToPhys (pageToHhdm f) / pageSize := by
  have hlt := P.managed_lt f h
  have hroot := virtToPhys_pageToHhdm hlt
  refine ⟨hroot, ?_⟩
  rw [hroot]
  exact hhdmToPage_physToVirt (Nat.lt_trans hlt (by decide))

/-- `vmm_create_user_pml4` returns such a pointer. -/
theorem vmmCreateUserPml4_pointer {pml4 : Nat}
    (h : vmmCreateUserPml4 P.tables kernPml4 s = (some pml4, s')) :
    ∃ f, P.managed f ∧ pml4 = pageToHhdm f := by
  have hpages : P.tables.alloc s.source =
      ((P.alloc s.source 0).1.map pageToHhdm, (P.alloc s.source 0).2) := rfl
  unfold vmmCreateUserPml4 allocTable at h
  cases halloc : P.alloc s.source 0 with
  | mk res source =>
      rw [hpages, halloc] at h
      cases res with
      | none => cases h
      | some f =>
          obtain ⟨hptr, -⟩ := Prod.mk.inj h
          exact ⟨f, ((P.alloc_some _ _ _ _ halloc).2 f (inBlock_zero.mpr rfl)).1,
            (Option.some.inj hptr).symm⟩

/-- A new address space maps nothing. -/
theorem Created.not_mapsFrame {A : TableSource σ} (h : Created A kern u s s') :
    ¬ MapsFrame s' u f := by
  rintro ⟨virt, hvirt, tr, htr, -⟩
  have hlow : Low (pml4Idx virt) := by
    show virt / 2 ^ 39 % 512 < 256
    omega
  have hpres : present (s'.mem u (pml4Idx virt)) = false := by
    rw [h.low _ hlow]
    decide
  simp [Vmm.translate, Vmm.leafAt, pathOf, find, leaf_eq_none_of_not_present hpres,
    child_eq_none_of_not_present hpres] at htr

/-! ## Frames of a tree that stays -/

theorem Still.mapsFrame {r : Nat} (h : Still kern r s s') : MapsFrame s' r f ↔ MapsFrame s r f := by
  have hsame : ∀ virt, virt < 2 ^ 47 → s'.translate r virt = s.translate r virt :=
    fun virt hvirt => h.translate (owned_pathOf hvirt)
  constructor
  · rintro ⟨virt, hvirt, tr, htr, hf⟩
    exact ⟨virt, hvirt, tr, hsame virt hvirt ▸ htr, hf⟩
  · rintro ⟨virt, hvirt, tr, htr, hf⟩
    exact ⟨virt, hvirt, tr, (hsame virt hvirt).trans htr, hf⟩

theorem Still.tableFrame {r : Nat} (h : Still kern r s s') (hf : TableFrame kern r s' f) :
    TableFrame kern r s f := by
  obtain ⟨p, t, hp, hlen, ht, rfl⟩ := hf
  rw [h.tableAt hp hlen] at ht
  exact ⟨p, t, hp, hlen, ht, rfl⟩

theorem Still.noHuge {r : Nat} (h : Still kern r s s') (hhuge : NoHuge r s) : NoHuge r s' := by
  intro i t j hi ht
  rw [h.tableAt (owned_cons hi) (by simp)] at ht
  rw [h [i] t (owned_cons hi) (by simp) ht j]
  exact hhuge i t j hi ht

/-- **What is mapped stays fine** if nothing new is mapped, the blocks of what
is mapped stay allocated, and new tables are on frames that were not
allocated. -/
theorem DataOk.keep (h : DataOk P kern users s)
    (hmaps : ∀ v ∈ users', ∀ f, MapsFrame s' v f → v ∈ users ∧ MapsFrame s v f)
    (hblocks : ∀ v ∈ users', ∀ f p k, MapsFrame s v f → P.blocks s.source p = some k →
      InBlock p k f → P.blocks s'.source p = some k)
    (htables : ∀ r ∈ kern :: users', ∀ g, TableFrame kern r s' g →
      r ∈ kern :: users ∧ TableFrame kern r s g ∨ ¬ P.Allocated s.source g) :
    DataOk P kern users' s' := by
  intro v hv f hf
  obtain ⟨hv', hf'⟩ := hmaps v hv f hf
  obtain ⟨p, k, hp, hin, hrest⟩ := h v hv' f hf'
  refine ⟨p, k, hblocks v hv f p k hf' hp hin, hin, fun g hg => ⟨fun r hr htab => ?_,
    fun w hw hne hmap => ?_⟩⟩
  · obtain ⟨hr', htab'⟩ | hnot := htables r hr g htab
    · exact (hrest g hg).1 r hr' htab'
    · exact hnot ⟨p, k, hp, hg⟩
  · obtain ⟨hw', hmap'⟩ := hmaps w hw g hmap
    exact (hrest g hg).2 w hw' hne hmap'

/-! ## The invariant -/

/-- Address spaces with their own tables, each on an allocated frame of its
own, and with frames of their own. -/
structure IsoInv (P : PagePool σ) (kernPml4 : Nat) (st : AddrSpaces σ) : Prop where
  mode : st.vmm.mode = .ready
  forest : Forest P.tables (virtToPhys kernPml4) st.roots st.vmm
  pointer : ∀ pml4 ∈ st.live, ∃ f, P.managed f ∧ pml4 = pageToHhdm f
  nodup : st.live.Nodup
  held : ∀ u ∈ st.roots, ∀ p t, Owned (virtToPhys kernPml4) u p → p.length ≤ 3 →
    st.vmm.tableAt u p = some t → P.blocks st.vmm.source (t / pageSize) = some 0
  huge : ∀ u ∈ st.roots, NoHuge u st.vmm
  data : DataOk P (virtToPhys kernPml4) st.roots st.vmm

/-- The part of it that is about tables: what is mapped plays no part. -/
structure OwnTables (P : PagePool σ) (kernPml4 : Nat) (st : AddrSpaces σ) : Prop where
  mode : st.vmm.mode = .ready
  forest : Forest P.tables (virtToPhys kernPml4) st.roots st.vmm
  pointer : ∀ pml4 ∈ st.live, ∃ f, P.managed f ∧ pml4 = pageToHhdm f
  nodup : st.live.Nodup
  held : ∀ u ∈ st.roots, ∀ p t, Owned (virtToPhys kernPml4) u p → p.length ≤ 3 →
    st.vmm.tableAt u p = some t → P.blocks st.vmm.source (t / pageSize) = some 0
  huge : ∀ u ∈ st.roots, NoHuge u st.vmm

theorem IsoInv.own {st : AddrSpaces σ} (h : IsoInv P kernPml4 st) : OwnTables P kernPml4 st :=
  ⟨h.mode, h.forest, h.pointer, h.nodup, h.held, h.huge⟩

theorem OwnTables.iso {st : AddrSpaces σ} (h : OwnTables P kernPml4 st)
    (hdata : DataOk P (virtToPhys kernPml4) st.roots st.vmm) : IsoInv P kernPml4 st :=
  ⟨h.mode, h.forest, h.pointer, h.nodup, h.held, h.huge, hdata⟩

/-- The VMM in `VMM_READY` with a well-formed kernel tree and no address space
yet. -/
structure BootedPool (P : PagePool σ) (kernPml4 : Nat) (st : AddrSpaces σ) : Prop where
  mode : st.vmm.mode = .ready
  tree : TreeOk P.tables (virtToPhys kernPml4) st.vmm
  live : st.live = []

theorem BootedPool.own {st : AddrSpaces σ} (h : BootedPool P kernPml4 st) :
    OwnTables P kernPml4 st := by
  obtain ⟨vmm, cr3, live⟩ := st
  obtain ⟨hmode, htree, hlive⟩ := h
  cases hlive
  refine ⟨hmode, Forest.of_kern htree, ?_, List.nodup_nil, ?_, ?_⟩
  · intro pml4 hmem
    cases hmem
  · intro u hu
    cases hu
  · intro u hu
    cases hu

theorem BootedPool.inv {st : AddrSpaces σ} (h : BootedPool P kernPml4 st) :
    IsoInv P kernPml4 st := by
  refine h.own.iso fun u hu => ?_
  rw [AddrSpaces.roots, h.live] at hu
  cases hu

section Steps

variable {st : AddrSpaces σ}

theorem mem_addrRoots {kernPml4 pml4 : Nat} (h : pml4 ∈ st.live) :
    virtToPhys pml4 ∈ virtToPhys kernPml4 :: st.roots :=
  List.mem_cons_of_mem _ (List.mem_map_of_mem h)

/-- An address space is known by its PML4's page. -/
theorem OwnTables.root_inj (h : OwnTables P kernPml4 st) {a b : Nat} (ha : a ∈ st.live)
    (hb : b ∈ st.live) (he : virtToPhys a = virtToPhys b) : a = b := by
  obtain ⟨f, hf, hfa⟩ := h.pointer a ha
  obtain ⟨g, hg, hgb⟩ := h.pointer b hb
  rw [hfa, hgb, (pageToHhdm_spec hf).1, (pageToHhdm_spec hg).1] at he
  rw [hfa, hgb, Nat.eq_of_mul_eq_mul_right (by decide) he]

theorem OwnTables.aligned (h : OwnTables P kernPml4 st) {pml4 : Nat} (hmem : pml4 ∈ st.live) :
    pageSize ∣ virtToPhys pml4 ∧ hhdmToPage pml4 = virtToPhys pml4 / pageSize := by
  obtain ⟨f, hf, hfa⟩ := h.pointer pml4 hmem
  obtain ⟨hroot, hpage⟩ := pageToHhdm_spec hf
  rw [← hfa] at hroot hpage
  exact ⟨hroot ▸ Nat.dvd_mul_left _ _, hpage⟩

theorem OwnTables.ne_kern (h : OwnTables P kernPml4 st) {pml4 : Nat} (hmem : pml4 ∈ st.live) :
    pml4 ≠ kernPml4 :=
  fun he => h.forest.kern_not_mem (he ▸ List.mem_map_of_mem hmem)

/-- The pointer itself, as `vmm_map` checks it. -/
theorem OwnTables.pointer_ok (h : OwnTables P kernPml4 st) {pml4 : Nat} (hmem : pml4 ∈ st.live) :
    pml4 ≠ 0 ∧ pageSize ∣ pml4 := by
  obtain ⟨f, hf, hfa⟩ := h.pointer pml4 hmem
  have hlt := P.managed_lt f hf
  have hl : hhdmLimit = 0x777F80000000 := rfl
  have hb : hhdmBase = 0xFFFF888000000000 := rfl
  have hp : pageSize = 4096 := rfl
  rw [pageToHhdm, hb, hp] at hfa
  rw [hp] at hlt ⊢
  omega

/-- The tables of an address space lie on page boundaries. -/
theorem OwnTables.table_aligned (h : OwnTables P kernPml4 st) {r t : Nat} {p : List (Fin 512)}
    (hr : r ∈ st.roots) (ht : st.vmm.tableAt r p = some t) : pageSize ∣ t := by
  cases p using List.reverseRecOn with
  | nil =>
      cases ht
      obtain ⟨pml4, hmem, rfl⟩ := List.mem_map.mp hr
      exact (h.aligned hmem).1
  | append_singleton p i =>
      rw [Vmm.tableAt, nodeAt_concat] at ht
      obtain ⟨v, -, hchild⟩ := Option.bind_eq_some_iff.mp ht
      unfold child at hchild
      split at hchild
      · cases hchild
        exact pageSize_dvd_addrOf _
      · cases hchild

/-! ## Each call -/

/-- `vmm_map` on low addresses. -/
theorem OwnTables.mapUser (h : OwnTables P kernPml4 st) {pml4 : Nat} (hmem : pml4 ∈ st.live)
    (ht : Touched P.tables (virtToPhys pml4) Low st.vmm s') :
    OwnTables P kernPml4 { st with vmm := s' } ∧
    ∀ r ∈ virtToPhys kernPml4 :: st.roots, r ≠ virtToPhys pml4 →
      Still (virtToPhys kernPml4) r st.vmm s' := by
  have hc : virtToPhys pml4 ∈ virtToPhys kernPml4 :: st.roots := mem_addrRoots hmem
  have hH : ∀ k, Low k → Owned (virtToPhys kernPml4) (virtToPhys pml4) [k] :=
    fun k hk => owned_cons hk
  have hstill : ∀ r ∈ virtToPhys kernPml4 :: st.roots, r ≠ virtToPhys pml4 →
      Still (virtToPhys kernPml4) r st.vmm s' :=
    fun r hr hne => h.forest.still hc hH ht hr hne
  have hforest := h.forest.touched hc hH ht
  obtain ⟨hkeep, -⟩ := ht.drawn.blocks
  refine ⟨⟨ht.mode.trans h.mode, hforest, h.pointer, h.nodup, fun u hu p t hp hlen htp => ?_,
    fun u hu => ?_⟩, hstill⟩
  · by_cases hne : u = virtToPhys pml4
    · subst hne
      obtain htp' | hav := ht.nodes p t hlen htp
      · exact hkeep _ _ (h.held _ hu p t hp hlen htp')
      · exact ht.drawn.held hav (ht.ok.unavail p t hlen htp)
    · have htp' := (hstill u (List.mem_cons_of_mem _ hu) hne).tableAt hp hlen
      exact hkeep _ _ (h.held u hu p t hp hlen (htp'.symm.trans htp))
  · by_cases hne : u = virtToPhys pml4
    · subst hne
      intro i t j hi htp hpres
      by_contra hpse
      -- a large leaf would have been there before
      obtain ⟨htp', he⟩ := ht.upper [i] t j (by simp) htp hpres (by simpa using hpse)
      rw [he] at hpres hpse
      exact hpse (h.huge _ hu i t j hi htp' hpres)
    · exact (hstill u (List.mem_cons_of_mem _ hu) hne).noHuge (h.huge u hu)

/-- `vmm_create_user_pml4()`. -/
theorem OwnTables.createUser (h : OwnTables P kernPml4 st) {pml4 : Nat}
    (hcreate : vmmCreateUserPml4 P.tables kernPml4 st.vmm = (some pml4, s')) :
    OwnTables P kernPml4 { st with vmm := s', live := pml4 :: st.live } ∧
    Created P.tables (virtToPhys kernPml4) (virtToPhys pml4) st.vmm s' ∧
    virtToPhys pml4 ∉ virtToPhys kernPml4 :: st.roots := by
  have hkern := (h.forest.own _ List.mem_cons_self).unavail [] _ owned_nil (by simp) rfl
  have hnew := vmmCreateUserPml4_spec hkern hcreate
  have hnot := hnew.not_mem h.forest
  have hne : virtToPhys pml4 ≠ virtToPhys kernPml4 := fun he => hnot (he ▸ List.mem_cons_self)
  have hstill : ∀ r ∈ virtToPhys kernPml4 :: st.roots, Still (virtToPhys kernPml4) r st.vmm s' :=
    fun r hr => hnew.still h.forest hr
  have hdrawn : Drawn P.tables st.vmm.source s'.source := .single hnew.drawn
  obtain ⟨hkeep, -⟩ := hdrawn.blocks
  refine ⟨⟨hnew.mode.trans h.mode, hnew.forest h.forest, fun a ha => ?_, ?_,
    fun u hu p t hp hlen htp => ?_, fun u hu => ?_⟩, hnew, hnot⟩
  · obtain rfl | ha := List.mem_cons.mp ha
    · exact vmmCreateUserPml4_pointer hcreate
    · exact h.pointer a ha
  · refine List.nodup_cons.mpr ⟨fun hmem => ?_, h.nodup⟩
    exact hnot (mem_addrRoots hmem)
  · obtain rfl | hu := List.mem_cons.mp hu
    · rw [(hnew.tableAt hne hp htp).2]
      exact hdrawn.held hnew.avail hnew.gone
    · have htp' := (hstill u (List.mem_cons_of_mem _ hu)).tableAt hp hlen
      exact hkeep _ _ (h.held u hu p t hp hlen (htp'.symm.trans htp))
  · obtain rfl | hu := List.mem_cons.mp hu
    · intro i t j hi htp
      exact absurd (hnew.tableAt hne (owned_cons hi) htp).1 (by simp)
    · exact (hstill u (List.mem_cons_of_mem _ hu)).noHuge (h.huge u hu)

/-- A table that was there after `vmm_create_user_pml4` and not before is the
new PML4, on a frame that was not allocated. -/
theorem Created.tableFrame {u r : Nat} {roots : List Nat}
    (hnew : Created P.tables kern u s s') (hforest : Forest P.tables kern roots s)
    (hnot : u ∉ kern :: roots) (hr : r ∈ kern :: u :: roots) (hf : TableFrame kern r s' f) :
    r ∈ kern :: roots ∧ TableFrame kern r s f ∨ ¬ P.Allocated s.source f := by
  by_cases hru : r = u
  · obtain ⟨p, t, hp, -, htp, rfl⟩ := hf
    rw [hru] at hp htp
    rw [(hnew.tableAt (fun he => hnot (he ▸ List.mem_cons_self)) hp htp).2]
    exact .inr (not_allocated_of_avail hnew.avail)
  · have hr' : r ∈ kern :: roots := by
      obtain hr | hr := List.mem_cons.mp hr
      · exact hr ▸ List.mem_cons_self
      · exact List.mem_cons_of_mem _ ((List.mem_cons.mp hr).resolve_left hru)
    exact .inl ⟨hr', (hnew.still hforest hr').tableFrame hf⟩

theorem IsoInv.createUser (h : IsoInv P kernPml4 st) {pml4 : Nat}
    (hcreate : vmmCreateUserPml4 P.tables kernPml4 st.vmm = (some pml4, s')) :
    IsoInv P kernPml4 { st with vmm := s', live := pml4 :: st.live } ∧
    ∀ r ∈ virtToPhys kernPml4 :: st.roots, Still (virtToPhys kernPml4) r st.vmm s' := by
  obtain ⟨hown, hnew, hnot⟩ := h.own.createUser hcreate
  have hstill : ∀ r ∈ virtToPhys kernPml4 :: st.roots, Still (virtToPhys kernPml4) r st.vmm s' :=
    fun r hr => hnew.still h.forest hr
  have hdrawn : Drawn P.tables st.vmm.source s'.source := .single hnew.drawn
  refine ⟨hown.iso (h.data.keep (fun v hv f hf => ?_)
    (fun v hv f p k _ hp _ => hdrawn.blocks.1 p k hp)
    fun r hr g hg => hnew.tableFrame h.forest hnot hr hg), hstill⟩
  obtain rfl | hv := List.mem_cons.mp hv
  · exact absurd hf hnew.not_mapsFrame
  · exact ⟨hv, (hstill v (List.mem_cons_of_mem _ hv)).mapsFrame.mp hf⟩

/-- **The allocator is called and nothing else**: the tables of the address
spaces that stay are fine if no block with a table in it is freed. -/
theorem OwnTables.fewer (h : OwnTables P kernPml4 st) {live : List Nat} {cr3 : Nat}
    (hmem : s'.mem = st.vmm.mem) (hmode : s'.mode = st.vmm.mode)
    (hlive : ∀ a ∈ live, a ∈ st.live) (hnodup : live.Nodup)
    (hkept : ∀ r ∈ virtToPhys kernPml4 :: live.map virtToPhys, ∀ p t q k,
      Owned (virtToPhys kernPml4) r p → p.length ≤ 3 → st.vmm.tableAt r p = some t →
      pageSize ∣ t → P.blocks st.vmm.source q = some k → InBlock q k (t / pageSize) →
      P.blocks s'.source q = some k) : OwnTables P kernPml4 ⟨s', cr3, live⟩ := by
  have hstill : ∀ r, Still (virtToPhys kernPml4) r st.vmm s' := Still.of_mem hmem
  have hroots : ∀ r ∈ live.map virtToPhys, r ∈ st.roots := by
    intro r hr
    obtain ⟨a, ha, rfl⟩ := List.mem_map.mp hr
    exact List.mem_map_of_mem (hlive a ha)
  refine ⟨hmode.trans h.mode, h.forest.fewer hmem hroots fun r hr p t hp hlen ht hav => ?_,
    fun a ha => h.pointer a (hlive a ha), hnodup, fun u hu p t hp hlen ht => ?_,
    fun u hu => (hstill u).noHuge (h.huge u (hroots u hu))⟩
  · have hr' := List.cons_subset_cons (virtToPhys kernPml4) hroots hr
    refine (h.forest.own r hr').unavail p t hp hlen ht ⟨hav.1, hav.2.1, fun hal => hav.2.2 ?_⟩
    obtain ⟨q, k, hq, hin⟩ := hal
    exact ⟨q, k, hkept r hr p t q k hp hlen ht hav.1 hq hin, hin⟩
  · rw [(hstill u).tableAt hp hlen] at ht
    exact hkept u (List.mem_cons_of_mem _ hu) p t _ 0 hp hlen ht
      (h.table_aligned (hroots u hu) ht) (h.held u (hroots u hu) p t hp hlen ht)
      (inBlock_zero.mpr rfl)

/-- `alloc_pages(order)`. -/
theorem OwnTables.allocPages (h : OwnTables P kernPml4 st) (order : Nat) :
    OwnTables P kernPml4
      { st with vmm := { st.vmm with source := (P.alloc st.vmm.source order).2 } } :=
  h.fewer rfl rfl (fun _ ha => ha) h.nodup
    fun _ _ _ _ q k _ _ _ _ hq _ => (P.alloc_blocks st.vmm.source order).1 q k hq

theorem IsoInv.allocPages (h : IsoInv P kernPml4 st) (order : Nat) :
    IsoInv P kernPml4
      { st with vmm := { st.vmm with source := (P.alloc st.vmm.source order).2 } } :=
  (h.own.allocPages order).iso (h.data.keep (fun _ hv _ hf => ⟨hv, hf⟩)
    (fun _ _ _ p k _ hp _ => (P.alloc_blocks st.vmm.source order).1 p k hp)
    fun _ hr _ hg => .inl ⟨hr, hg⟩)

/-- The teardown of one address space frees no block that a table of another
tree is in. -/
theorem IsoInv.block_kept (h : IsoInv P kernPml4 st) {u r t q k : Nat} {p : List (Fin 512)}
    (hu : u ∈ st.roots) (hr : r ∈ virtToPhys kernPml4 :: st.roots) (hne : r ≠ u)
    (hp : Owned (virtToPhys kernPml4) r p) (hlen : p.length ≤ 3)
    (ht : st.vmm.tableAt r p = some t) (hdvd : pageSize ∣ t)
    (hq : P.blocks st.vmm.source q = some k) (hin : InBlock q k (t / pageSize)) :
    ¬ Freed (virtToPhys kernPml4) u st.vmm q := by
  rintro (⟨p', t', hp', hlen', ht', rfl⟩ | hmap)
  · -- one of its tables: the block is that table's frame
    rw [h.held u hu p' t' hp' hlen' ht'] at hq
    cases hq
    have hframe := inBlock_zero.mp hin
    have hdvd' := h.own.table_aligned hu ht'
    have htt : t = t' := by
      rw [← Nat.div_mul_cancel hdvd, hframe, Nat.div_mul_cancel hdvd']
    subst htt
    exact hne (h.forest.apart r hr u (List.mem_cons_of_mem _ hu) p p' t hp hp' hlen hlen' ht ht')
  · -- a frame that it maps: its block holds no table
    obtain ⟨q', k', hq', hin', hrest⟩ := h.data u hu q hmap
    have hself := inBlock_self q k
    have hqq := P.blocks_disjoint _ _ _ _ _ q hq hq' hself hin'
    subst hqq
    rw [hq] at hq'
    cases hq'
    exact (hrest _ hin).1 r hr ⟨p, t, hp, hlen, ht, rfl⟩

/-- The address spaces that stay. -/
theorem OwnTables.others (h : OwnTables P kernPml4 st) {pml4 r : Nat} (hmem : pml4 ∈ st.live)
    (hr : r ∈ (st.live.erase pml4).map virtToPhys) : r ∈ st.roots ∧ r ≠ virtToPhys pml4 := by
  obtain ⟨a, ha, rfl⟩ := List.mem_map.mp hr
  obtain ⟨hne, ha'⟩ := h.nodup.mem_erase_iff.mp ha
  exact ⟨List.mem_map_of_mem ha', fun he => hne (h.root_inj ha' hmem he)⟩

/-- Their trees and the kernel's. -/
theorem OwnTables.otherTrees (h : OwnTables P kernPml4 st) {pml4 r : Nat} (hmem : pml4 ∈ st.live)
    (hr : r ∈ virtToPhys kernPml4 :: (st.live.erase pml4).map virtToPhys) :
    r ∈ virtToPhys kernPml4 :: st.roots ∧ r ≠ virtToPhys pml4 := by
  obtain rfl | hr := List.mem_cons.mp hr
  · exact ⟨List.mem_cons_self,
      fun he => h.forest.kern_not_mem (he ▸ List.mem_map_of_mem hmem)⟩
  · obtain ⟨hr', hne⟩ := h.others hmem hr
    exact ⟨List.mem_cons_of_mem _ hr', hne⟩

/-- `vmm_destroy_user_pml4(pml4)`. -/
theorem IsoInv.destroyUser (h : IsoInv P kernPml4 st) {pml4 cr3 : Nat} (hmem : pml4 ∈ st.live)
    (hfreed : FreedOnly P (Freed (virtToPhys kernPml4) (virtToPhys pml4) st.vmm) st.vmm s') :
    IsoInv P kernPml4 ⟨s', cr3, st.live.erase pml4⟩ := by
  have hu : virtToPhys pml4 ∈ st.roots := List.mem_map_of_mem hmem
  have hstill : ∀ r, Still (virtToPhys kernPml4) r st.vmm s' := Still.of_mem hfreed.mem
  refine OwnTables.iso (h.own.fewer hfreed.mem hfreed.mode (fun a ha => List.mem_of_mem_erase ha)
    (h.nodup.erase pml4) fun r hr p t q k hp hlen ht hdvd hq hin => ?_)
    (h.data.keep (fun v hv f hf => ⟨(h.own.others hmem hv).1, (hstill v).mapsFrame.mp hf⟩)
      (fun v hv f p k hf hp hin => ?_)
      fun r hr g hg => .inl ⟨(h.own.otherTrees hmem hr).1, (hstill r).tableFrame hg⟩)
  · obtain ⟨hr', hne⟩ := h.own.otherTrees hmem hr
    exact ((hfreed.blocks q).resolve_right
      (h.block_kept hu hr' hne hp hlen ht hdvd hq hin)).trans hq
  · -- the block of a frame that another address space maps is not freed
    obtain ⟨hv', hne⟩ := h.own.others hmem hv
    refine ((hfreed.blocks p).resolve_right ?_).trans hp
    obtain ⟨p', k', hp', hin', hrest⟩ := h.data v hv' f hf
    have hpp := P.blocks_disjoint _ _ _ _ _ f hp hp' hin hin'
    subst hpp
    have hself := inBlock_self p k'
    rintro (htab | hmap)
    · exact (hrest p hself).1 _ (List.mem_cons_of_mem _ hu) htab
    · exact (hrest p hself).2 _ hu (Ne.symm hne) hmap

/-- What `vmm_map` newly maps lies in the physical range. -/
theorem IsoInv.map_frames (h : IsoInv P kernPml4 st) {pml4 virt phys size : Nat} {flags : Word}
    (hmem : pml4 ∈ st.live) (hr : RangeOk virt phys size) (hf : FlagsOk flags)
    (hpres : present flags = true)
    (hmap : MapsFrame (vmmMap P.tables kernPml4 st.vmm pml4 virt phys size flags).2
      (virtToPhys pml4) f) :
    MapsFrame st.vmm (virtToPhys pml4) f ∨
      ∃ a, virt ≤ a ∧ a < virt + size ∧ (phys + (a - virt)) / pageSize = f := by
  obtain ⟨hne, hdvd⟩ := h.own.pointer_ok hmem
  have hroot : mapRoot kernPml4 pml4 = pml4 := if_neg (ne_kernPml4Token (h.own.aligned hmem).1)
  have htree := h.forest.treeOk (mem_addrRoots hmem)
  rw [← hroot] at hne hdvd htree
  obtain ⟨-, hfills⟩ := vmmMap_fills hne hdvd htree hr hf hpres
  rw [hroot] at hfills
  obtain ⟨a, ha, tr, htr, rfl⟩ := hmap
  obtain hsame | ⟨hnone, tr', htr', large, hto⟩ := hfills.cell a
  · exact .inl ⟨a, ha, tr, hsame.symm.trans htr, rfl⟩
  · right
    have hin : virt ≤ a ∧ a < virt + size := by
      by_contra hout
      rw [hfills.frame a hout, hnone] at htr
      cases htr
    obtain rfl : tr' = tr := Option.some.inj (htr'.symm.trans htr)
    rw [hto]
    exact ⟨a, hin.1, hin.2, rfl⟩

/-- **What can be checked before a `vmm_map`**: if each frame of the physical
range is the address space's to give, what is mapped afterwards is. -/
theorem IsoInv.map_data (h : IsoInv P kernPml4 st) {pml4 virt phys size : Nat} {flags : Word}
    (hmem : pml4 ∈ st.live) (hlow : virt + size ≤ 2 ^ 47) (hr : RangeOk virt phys size)
    (hf : FlagsOk flags) (hpres : present flags = true)
    (hown : ∀ a, virt ≤ a → a < virt + size → OwnFrame P (virtToPhys kernPml4) st.roots st.vmm
      (virtToPhys pml4) ((phys + (a - virt)) / pageSize)) :
    DataOk P (virtToPhys kernPml4) st.roots
      (vmmMap P.tables kernPml4 st.vmm pml4 virt phys size flags).2 := by
  obtain ⟨hdvd, -⟩ := h.own.aligned hmem
  have hc : virtToPhys pml4 ∈ virtToPhys kernPml4 :: st.roots := mem_addrRoots hmem
  have htree := h.forest.treeOk hc
  have ht := vmmMap_low_touched kernPml4 phys flags hdvd htree hlow
  have hnew : ∀ f, MapsFrame (vmmMap P.tables kernPml4 st.vmm pml4 virt phys size flags).2
      (virtToPhys pml4) f → MapsFrame st.vmm (virtToPhys pml4) f ∨
        OwnFrame P (virtToPhys kernPml4) st.roots st.vmm (virtToPhys pml4) f := by
    intro f hmap
    refine (h.map_frames hmem hr hf hpres hmap).imp id ?_
    rintro ⟨a, hle, hlt, rfl⟩
    exact hown a hle hlt
  generalize (vmmMap P.tables kernPml4 st.vmm pml4 virt phys size flags).2 = s' at ht hnew
  have hstill : ∀ r ∈ virtToPhys kernPml4 :: st.roots, r ≠ virtToPhys pml4 →
      Still (virtToPhys kernPml4) r st.vmm s' :=
    fun r hr hne => h.forest.still hc (fun k hk => owned_cons hk) ht hr hne
  intro v hv f hmap
  have hold : OwnFrame P (virtToPhys kernPml4) st.roots st.vmm v f := by
    by_cases hne : v = virtToPhys pml4
    · subst hne
      exact (hnew f hmap).elim (h.data _ hv f) id
    · exact h.data v hv f ((hstill v (List.mem_cons_of_mem _ hv) hne).mapsFrame.mp hmap)
  obtain ⟨p, k, hp, hin, hrest⟩ := hold
  refine ⟨p, k, ht.drawn.blocks.1 p k hp, hin, fun g hg => ⟨fun r hr htab => ?_,
    fun w hw hwv hwmap => ?_⟩⟩
  · -- a new table is on a frame that was not allocated
    by_cases hne : r = virtToPhys pml4
    · subst hne
      obtain ⟨q, t, hq, hlen, htq, rfl⟩ := htab
      obtain htq' | hav := ht.nodes q t hlen htq
      · exact (hrest _ hg).1 _ hr ⟨q, t, hq, hlen, htq', rfl⟩
      · exact not_allocated_of_avail hav ⟨p, k, hp, hg⟩
    · exact (hrest g hg).1 r hr ((hstill r hr hne).tableFrame htab)
  · by_cases hne : w = virtToPhys pml4
    · subst hne
      obtain hwmap' | ⟨p', k', hp', hg', hrest'⟩ := hnew g hwmap
      · exact (hrest g hg).2 _ hw hwv hwmap'
      · -- the same block would be both address spaces'
        have hpp := P.blocks_disjoint _ _ _ _ _ g hp hp' hg hg'
        subst hpp
        rw [hp] at hp'
        cases hp'
        have hvmap := (hstill v (List.mem_cons_of_mem _ hv) (Ne.symm hwv)).mapsFrame.mp hmap
        exact (hrest' f hin).2 v hv (Ne.symm hwv) hvmap
    · exact (hrest g hg).2 w hw hwv
        ((hstill w (List.mem_cons_of_mem _ hw) hne).mapsFrame.mp hwmap)

/-- **Every call** keeps the invariant and leaves the own tables of all trees
but its own. -/
theorem IsoInv.step {st' : AddrSpaces σ} {op : UserOp} (h : IsoInv P kernPml4 st)
    (hop : op.Allowed P kernPml4 st) (hstep : userStep P kernPml4 st op = .ok st') :
    IsoInv P kernPml4 st' ∧
    (∀ r ∈ virtToPhys kernPml4 :: st.roots, (∀ pml4, op.target = some pml4 → r ≠ virtToPhys pml4) →
      Still (virtToPhys kernPml4) r st.vmm st'.vmm) ∧
    ∀ v ∈ st.live, op.target ≠ some v → v ∈ st'.live := by
  cases op with
  | createUser =>
      unfold userStep at hstep
      cases hcreate : vmmCreateUserPml4 P.tables kernPml4 st.vmm with
      | mk res s' =>
          rw [hcreate] at hstep
          cases res with
          | none => cases hstep
          | some pml4 =>
              cases hstep
              obtain ⟨hinv, hstill⟩ := h.createUser hcreate
              exact ⟨hinv, fun r hr _ => hstill r hr, fun v hv _ => List.mem_cons_of_mem _ hv⟩
  | mapUser pml4 virt phys size flags =>
      obtain ⟨hmem, hlow, hdata⟩ := hop
      have htree := h.forest.treeOk (mem_addrRoots hmem)
      have ht := vmmMap_low_touched kernPml4 phys flags (h.own.aligned hmem).1 htree hlow
      obtain ⟨hinv, hstill⟩ := h.own.mapUser hmem ht
      rw [userStep_mapUser hstep]
      exact ⟨hinv.iso hdata, fun r hr hne => hstill r hr (hne pml4 rfl), fun v hv _ => hv⟩
  | destroyUser pml4 =>
      have hmem : pml4 ∈ st.live := hop
      have hu : virtToPhys pml4 ∈ st.roots := List.mem_map_of_mem hmem
      simp only [userStep] at hstep
      split at hstep
      · cases hstep
      · rename_i code cr3 s' hdestroy
        cases hstep
        have hfreed := vmmDestroyUserPml4_freed h.mode
          (h.forest.own _ (List.mem_cons_of_mem _ hu)) (h.huge _ hu) (h.own.aligned hmem).2 hdestroy
        refine ⟨h.destroyUser hmem hfreed, fun r _ _ => Still.of_mem hfreed.mem r,
          fun v hv hne => ?_⟩
        exact (List.mem_erase_of_ne fun he => hne (congrArg some he.symm)).mpr hv
  | allocPages order =>
      cases hstep
      exact ⟨h.allocPages order, fun r _ _ => Still.of_mem rfl r, fun v hv _ => hv⟩

end Steps

/-- A table of the low half of a tree, or its PML4. -/
def LowTable (s : Vmm σ) (root t : Nat) : Prop :=
  ∃ p, p.length ≤ 3 ∧ (∀ i, [i] <+: p → Low i) ∧ s.tableAt root p = some t

/-- **Address spaces are isolated.** In every run in which what is mapped is the
address space's to give, a call on one address space leaves what every other
translates at low addresses and what `kern_pml4` translates; and the tables of
different address spaces are different pages, all of them allocated. -/
theorem address_spaces_isolated (P : PagePool σ) (kernPml4 : Nat) (st₀ st st' : AddrSpaces σ)
    (hboot : BootedPool P kernPml4 st₀) (ops : List UserOp)
    (hops : Guarded (userStep P kernPml4) (UserOp.Allowed P kernPml4) st₀ ops)
    (hrun : runFrom (userStep P kernPml4) st₀ ops = .ok st) (op : UserOp)
    (hop : op.Allowed P kernPml4 st) (hstep : userStep P kernPml4 st op = .ok st') :
    (∀ v ∈ st.live, op.target ≠ some v → v ∈ st'.live ∧ ∀ virt, virt < 2 ^ 47 →
      st'.vmm.translate (virtToPhys v) virt = st.vmm.translate (virtToPhys v) virt) ∧
    (∀ virt, st'.vmm.translate (virtToPhys kernPml4) virt =
      st.vmm.translate (virtToPhys kernPml4) virt) ∧
    (∀ u ∈ st'.live, ∀ v ∈ st'.live, u ≠ v → ∀ t, LowTable st'.vmm (virtToPhys u) t →
      ¬ LowTable st'.vmm (virtToPhys v) t) ∧
    ∀ u ∈ st'.live, ∀ t, LowTable st'.vmm (virtToPhys u) t →
      P.Allocated st'.vmm.source (t / pageSize) := by
  have hinv := Guarded.invariant (I := IsoInv P kernPml4)
    (fun _ _ _ h hop hstep => (h.step hop hstep).1) hboot.inv hops hrun
  obtain ⟨hinv', hstill, hlive⟩ := hinv.step hop hstep
  have htarget : ∀ pml4, op.target = some pml4 → pml4 ∈ st.live := by
    intro pml4 ht
    cases op with
    | createUser => cases ht
    | mapUser _ _ _ _ _ => cases ht; exact hop.1
    | destroyUser _ => cases ht; exact hop
    | allocPages _ => cases ht
  refine ⟨fun v hv hne => ⟨hlive v hv hne, fun virt hvirt => ?_⟩, fun virt => ?_,
    fun u hu v hv hne t hut hvt => ?_, fun u hu t hut => ?_⟩
  · refine (hstill _ (mem_addrRoots hv) fun pml4 ht he => hne ?_).translate (owned_pathOf hvirt)
    rw [hinv.own.root_inj hv (htarget pml4 ht) he]
    exact ht
  · refine (hstill _ List.mem_cons_self fun pml4 ht he => ?_).translate (.inl rfl)
    exact hinv.forest.kern_not_mem (he ▸ List.mem_map_of_mem (htarget pml4 ht))
  · obtain ⟨p, hp, hlow, ht⟩ := hut
    obtain ⟨q, hq, hlow', ht'⟩ := hvt
    exact hne (hinv'.own.root_inj hu hv (hinv'.forest.apart _ (mem_addrRoots hu) _
      (mem_addrRoots hv) p q t (.inr hlow) (.inr hlow') hp hq ht ht'))
  · obtain ⟨p, hp, hlow, ht⟩ := hut
    exact ⟨t / pageSize, 0, hinv'.held _ (List.mem_map_of_mem hu) p t (.inr hlow) hp ht,
      inBlock_zero.mpr rfl⟩

/-- Cleared tables, no address space. -/
def sampleAddrSpaces : AddrSpaces (List Nat) := ⟨⟨.ready, fun _ _ => 0, [], false, false⟩, 0, []⟩

/-- Two address spaces without a mapping, on frames `0x400` and `0x401`, and a
page on frame `0x402`. -/
def samplePair : AddrSpaces (List Nat) :=
  ⟨⟨.ready, fun _ _ => 0, [0x402, 0x401, 0x400], false, false⟩, 0,
    [pageToHhdm 0x401, pageToHhdm 0x400]⟩

/-- In cleared memory an address space is a cleared page. -/
theorem vmmCreateUserPml4_cleared {A : TableSource σ} {source source' : σ} {ptr : Nat}
    (halloc : A.alloc source = (some ptr, source')) :
    vmmCreateUserPml4 A kernPml4 ⟨.ready, fun _ _ => 0, source, false, false⟩ =
      (some ptr, ⟨.ready, fun _ _ => 0, source', false, false⟩) := by
  have hwrite : ∀ i, (⟨.ready, fun _ _ => 0, source', false, false⟩ : Vmm σ).write ptr i
      ((⟨.ready, fun _ _ => 0, source', false, false⟩ : Vmm σ).read kernPml4 i) =
        ⟨.ready, fun _ _ => 0, source', false, false⟩ := by
    intro i
    simp [Vmm.write, Vmm.read]
  have hcopy : ∀ l : List (Fin 512), l.foldl (fun s i => s.write ptr i (s.read kernPml4 i))
      (⟨.ready, fun _ _ => 0, source', false, false⟩ : Vmm σ) =
        ⟨.ready, fun _ _ => 0, source', false, false⟩ := by
    intro l
    induction l with
    | nil => rfl
    | cons i l ih => rw [List.foldl_cons, hwrite, ih]
  have hclear : (⟨.ready, fun _ _ => 0, source', false, false⟩ : Vmm σ).clear ptr =
      ⟨.ready, fun _ _ => 0, source', false, false⟩ := by
    simp [Vmm.clear, outOfReach_of_ne]
  unfold vmmCreateUserPml4 allocTable
  rw [halloc]
  simp only [Option.isNone_some, Bool.or_false, hclear, hcopy]

theorem samplePair_run : runFrom (userStep samplePool sampleKernPml4) sampleAddrSpaces
    [.createUser, .createUser, .allocPages 0] = .ok samplePair := by
  have hone : vmmCreateUserPml4 samplePool.tables sampleKernPml4 sampleAddrSpaces.vmm =
      (some (pageToHhdm 0x400), ⟨.ready, fun _ _ => 0, [0x400], false, false⟩) :=
    vmmCreateUserPml4_cleared (by decide)
  have htwo : vmmCreateUserPml4 samplePool.tables sampleKernPml4
      ⟨.ready, fun _ _ => 0, [0x400], false, false⟩ =
      (some (pageToHhdm 0x401), ⟨.ready, fun _ _ => 0, [0x401, 0x400], false, false⟩) :=
    vmmCreateUserPml4_cleared (by decide)
  have hthree : (samplePool.alloc [0x401, 0x400] 0).2 = [0x402, 0x401, 0x400] := by decide
  simp only [runFrom, userStep, hone, htwo, hthree]
  rfl

theorem sampleAddrSpaces_booted : BootedPool samplePool sampleKernPml4 sampleAddrSpaces :=
  ⟨rfl, sampleSpaces_booted.tree, rfl⟩

/-- In cleared memory a tree is its root. -/
theorem tableAt_cleared (hmem : s.mem = fun _ _ => 0) {r t : Nat} {p : List (Fin 512)}
    (ht : s.tableAt r p = some t) : t = r := by
  cases p with
  | nil => exact (Option.some.inj ht).symm
  | cons i p =>
      have hnone : child (0 : Word) = none := by decide
      simp only [Vmm.tableAt, nodeAt, hmem, hnone] at ht
      cases ht

theorem translate_cleared (hmem : s.mem = fun _ _ => 0) (r virt : Nat) :
    s.translate r virt = none := by
  have hempty : s.leafAt r (pathOf virt) = none := by
    rw [Vmm.leafAt, hmem]
    exact find_empty (fun k _ => leaf_eq_none_of_not_present (by decide) k) (fun _ => by decide) _
  unfold Vmm.translate
  rw [hempty]
  split <;> rfl

/-- The page on frame `0x402` is the first address space's to give. -/
theorem samplePair_ownFrame : OwnFrame samplePool (virtToPhys sampleKernPml4) samplePair.roots
    samplePair.vmm (virtToPhys (pageToHhdm 0x400)) 0x402 := by
  refine ⟨0x402, 0, by decide, by decide, fun g hg => ⟨fun r hr htab => ?_, fun v hv _ hmap => ?_⟩⟩
  · obtain ⟨p, t, -, -, ht, hframe⟩ := htab
    have hroots : ∀ r ∈ virtToPhys sampleKernPml4 :: samplePair.roots, r / pageSize ≠ 0x402 := by
      decide
    rw [tableAt_cleared rfl ht, inBlock_zero.mp hg] at hframe
    exact hroots r hr hframe
  · obtain ⟨virt, -, tr, htr, -⟩ := hmap
    rw [translate_cleared rfl] at htr
    cases htr

theorem samplePair_guarded : Guarded (userStep samplePool sampleKernPml4)
    (UserOp.Allowed samplePool sampleKernPml4) sampleAddrSpaces
    [.createUser, .createUser, .allocPages 0] := by
  refine Guarded.of_forall _ fun op hop st => ?_
  simp only [List.mem_cons, List.not_mem_nil, or_false] at hop
  obtain rfl | rfl | rfl := hop
  · trivial
  · trivial
  · exact Nat.zero_le _

theorem samplePair_inv : IsoInv samplePool sampleKernPml4 samplePair :=
  Guarded.invariant (fun _ _ _ h hop hstep => (h.step hop hstep).1) sampleAddrSpaces_booted.inv
    samplePair_guarded samplePair_run

theorem samplePair_allowed : UserOp.Allowed samplePool sampleKernPml4 samplePair
    (.mapUser (pageToHhdm 0x400) 0x400000 0x402000 0x1000 ptPresent) := by
  refine ⟨by decide, by decide, samplePair_inv.map_data (by decide) (by decide)
    ⟨by decide, by decide, by decide⟩ (by unfold FlagsOk; decide) (by decide) ?_⟩
  intro a hle hlt
  have hframe : (0x402000 + (a - 0x400000)) / pageSize = 0x402 := by
    unfold pageSize
    omega
  rw [hframe]
  exact samplePair_ownFrame

/-- One address space maps its page, the other is destroyed. -/
theorem address_spaces_isolated_pair : ∃ st st',
    runFrom (userStep samplePool sampleKernPml4) sampleAddrSpaces
      ([.createUser, .createUser, .allocPages 0] ++
        [.mapUser (pageToHhdm 0x400) 0x400000 0x402000 0x1000 ptPresent]) = .ok st ∧
    userStep samplePool sampleKernPml4 st (.destroyUser (pageToHhdm 0x401)) = .ok st' ∧
    st.vmm.translate 0x400000 0x400000 = some ⟨0x402000, 0x1000, ptPresent⟩ ∧
    st'.vmm.translate 0x400000 0x400000 = st.vmm.translate 0x400000 0x400000 := by
  obtain ⟨st, hrun, hst⟩ := exists_of_okAnd (x := runFrom (userStep samplePool sampleKernPml4)
    samplePair [.mapUser (pageToHhdm 0x400) 0x400000 0x402000 0x1000 ptPresent])
    (p := fun st =>
      decide (st.vmm.translate 0x400000 0x400000 = some ⟨0x402000, 0x1000, ptPresent⟩) &&
        decide (pageToHhdm 0x401 ∈ st.live) && decide (pageToHhdm 0x400 ∈ st.live) &&
        okAnd (userStep samplePool sampleKernPml4 st (.destroyUser (pageToHhdm 0x401)))
          fun _ => true)
    (by decide +kernel)
  simp only [Bool.and_eq_true, decide_eq_true_eq] at hst
  obtain ⟨⟨⟨htr, hdead⟩, hlive⟩, hok⟩ := hst
  obtain ⟨st', hstep, -⟩ := exists_of_okAnd hok
  have hops : Guarded (userStep samplePool sampleKernPml4)
      (UserOp.Allowed samplePool sampleKernPml4) samplePair
      [.mapUser (pageToHhdm 0x400) 0x400000 0x402000 0x1000 ptPresent] := by
    refine ⟨samplePair_allowed, ?_⟩
    split <;> trivial
  have hall := (runFrom_append samplePair_run).trans hrun
  have hisolated := address_spaces_isolated samplePool sampleKernPml4 sampleAddrSpaces st st'
    sampleAddrSpaces_booted _ (samplePair_guarded.append samplePair_run hops) hall
    (.destroyUser (pageToHhdm 0x401)) hdead hstep
  have hroot : virtToPhys (pageToHhdm 0x400) = 0x400000 := by decide
  have hsame := (hisolated.1 (pageToHhdm 0x400) hlive (by decide)).2 0x400000 (by decide)
  rw [hroot] at hsame
  exact ⟨st, st', hall, hstep, htr, hsame⟩

/-- Two mappings of one page each, of different frames. -/
theorem samplePair_frames {s₁ s₂ : AddrSpaces (List Nat)} (hlive : pageToHhdm 0x401 ∈ s₁.live)
    (h₁ : userStep samplePool sampleKernPml4 samplePair
      (.mapUser (pageToHhdm 0x400) 0x400000 0x402000 0x1000 ptPresent) = .ok s₁)
    (h₂ : userStep samplePool sampleKernPml4 s₁
      (.mapUser (pageToHhdm 0x401) 0x400000 0x405000 0x1000 ptPresent) = .ok s₂) (f : Nat) :
    (MapsFrame s₂.vmm (virtToPhys (pageToHhdm 0x400)) f → f = 0x402) ∧
    (MapsFrame s₂.vmm (virtToPhys (pageToHhdm 0x401)) f → f = 0x405) := by
  have hpair : ∀ r f, ¬ MapsFrame samplePair.vmm r f := by
    rintro r f ⟨virt, -, tr, htr, -⟩
    rw [translate_cleared rfl] at htr
    cases htr
  obtain ⟨hinv, hstill, hkeep⟩ := samplePair_inv.step samplePair_allowed h₁
  have hmem₀ : pageToHhdm 0x400 ∈ s₁.live := by
    rw [userStep_mapUser h₁]
    decide
  have hne : virtToPhys (pageToHhdm 0x400) ≠ virtToPhys (pageToHhdm 0x401) := by decide
  refine ⟨fun hmap => ?_, fun hmap => ?_⟩
  · have ht := vmmMap_low_touched sampleKernPml4 0x405000 ptPresent (hinv.own.aligned hlive).1
      (hinv.forest.treeOk (mem_addrRoots hlive))
      (by decide : 0x400000 + 0x1000 ≤ 2 ^ 47)
    have hother := hinv.forest.still (mem_addrRoots hlive) (fun k hk => owned_cons hk) ht
      (mem_addrRoots hmem₀) hne
    rw [userStep_mapUser h₂] at hmap
    have hmap₁ := hother.mapsFrame.mp hmap
    rw [userStep_mapUser h₁] at hmap₁
    obtain hold | ⟨a, hle, hlt, hf⟩ := samplePair_inv.map_frames (by decide)
      ⟨by decide, by decide, by decide⟩ (by unfold FlagsOk; decide) (by decide) hmap₁
    · exact absurd hold (hpair _ f)
    · unfold pageSize at hf
      omega
  · rw [userStep_mapUser h₂] at hmap
    obtain hold | ⟨a, hle, hlt, hf⟩ := hinv.map_frames hlive ⟨by decide, by decide, by decide⟩
      (by unfold FlagsOk; decide) (by decide) hmap
    · have hother := hstill _ (mem_addrRoots (by decide : pageToHhdm 0x401 ∈ samplePair.live))
        fun pml4 ht => by cases ht; exact hne.symm
      exact absurd (hother.mapsFrame.mp hold) (hpair _ f)
    · unfold pageSize at hf
      omega

/-- **An address space that maps a table of another** gives it away when it is
destroyed. No frame is mapped by both; yet the next address space but one is
created on the table's page, and the other's mapping is gone. -/
theorem foreign_table_given_away : ∃ s₁ s₂ st st',
    BootedPool samplePool sampleKernPml4 sampleAddrSpaces ∧
    runFrom (userStep samplePool sampleKernPml4) sampleAddrSpaces
      [.createUser, .createUser, .allocPages 0] = .ok samplePair ∧
    userStep samplePool sampleKernPml4 samplePair
      (.mapUser (pageToHhdm 0x400) 0x400000 0x402000 0x1000 ptPresent) = .ok s₁ ∧
    userStep samplePool sampleKernPml4 s₁
      (.mapUser (pageToHhdm 0x401) 0x400000 0x405000 0x1000 ptPresent) = .ok s₂ ∧
    (∀ f, ¬ (MapsFrame s₂.vmm (virtToPhys (pageToHhdm 0x400)) f ∧
      MapsFrame s₂.vmm (virtToPhys (pageToHhdm 0x401)) f)) ∧
    runFrom (userStep samplePool sampleKernPml4) s₂
      [.destroyUser (pageToHhdm 0x401), .createUser] = .ok st ∧
    userStep samplePool sampleKernPml4 st .createUser = .ok st' ∧
    pageToHhdm 0x400 ∈ st.live ∧
    st.vmm.translate (virtToPhys (pageToHhdm 0x400)) 0x400000 =
      some ⟨0x402000, 0x1000, ptPresent⟩ ∧
    st'.vmm.translate (virtToPhys (pageToHhdm 0x400)) 0x400000 = none := by
  obtain ⟨s₁, h₁, hs₁⟩ := exists_of_okAnd (x := userStep samplePool sampleKernPml4 samplePair
    (.mapUser (pageToHhdm 0x400) 0x400000 0x402000 0x1000 ptPresent))
    (p := fun s₁ => decide (pageToHhdm 0x401 ∈ s₁.live) &&
      okAnd (userStep samplePool sampleKernPml4 s₁
        (.mapUser (pageToHhdm 0x401) 0x400000 0x405000 0x1000 ptPresent)) fun s₂ =>
      okAnd (runFrom (userStep samplePool sampleKernPml4) s₂
        [.destroyUser (pageToHhdm 0x401), .createUser]) fun st =>
      decide (pageToHhdm 0x400 ∈ st.live) &&
      decide (st.vmm.translate (virtToPhys (pageToHhdm 0x400)) 0x400000 =
        some ⟨0x402000, 0x1000, ptPresent⟩) &&
      okAnd (userStep samplePool sampleKernPml4 st .createUser) fun st' =>
        st'.vmm.translate (virtToPhys (pageToHhdm 0x400)) 0x400000 = none)
    (by decide +kernel)
  rw [Bool.and_eq_true, decide_eq_true_eq] at hs₁
  obtain ⟨s₂, h₂, hs₂⟩ := exists_of_okAnd hs₁.2
  obtain ⟨st, hrun, hst⟩ := exists_of_okAnd hs₂
  simp only [Bool.and_eq_true, decide_eq_true_eq] at hst
  obtain ⟨⟨hlive, htr⟩, hok⟩ := hst
  obtain ⟨st', hstep, hgone⟩ := exists_of_okAnd hok
  refine ⟨s₁, s₂, st, st', sampleAddrSpaces_booted, samplePair_run, h₁, h₂, fun f hboth => ?_, hrun,
    hstep, hlive, htr, of_decide_eq_true hgone⟩
  obtain ⟨hone, htwo⟩ := samplePair_frames hs₁.1 h₁ h₂ f
  have hsame := (hone hboth.1).symm.trans (htwo hboth.2)
  cases hsame

end DevOS.Arch
