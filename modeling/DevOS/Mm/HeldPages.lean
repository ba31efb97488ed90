import DevOS.Mm.TeardownRuns

/-!
# Address spaces — what is on the pages

The invariant of the runs says nothing about what is on the pages that a client
holds, nor about the links of their records. Both can be written without any
call noticing, and no call writes to a page that is held.
-/

namespace DevOS.Arch

open DevOS.Lib

/-! ## Words that are in no table -/

section Rewrite

variable {σ : Type} {A : TableSource σ} {P : PagePool σ} {kern kernPml4 : Nat} {users : List Nat}
  {s s' : Vmm σ}

/-- **The trees stay** if all their own tables do. -/
theorem Forest.rewritten (h : Forest A kern users s)
    (hstill : ∀ r ∈ kern :: users, Still kern r s s')
    (havail : ∀ t, A.avail s'.source t → A.avail s.source t) : Forest A kern users s' := by
  have hroot : ∀ r ∈ kern :: users, ∀ i, s'.mem r i = s.mem r i :=
    fun r hr i => hstill r hr [] r owned_nil (by simp) rfl i
  refine ⟨fun r hr => ?_, fun r hr r' hr' p p' t hp hp' hl hl' ht ht' => ?_, h.kern_not_mem,
    fun u hu i hi hpres => ?_⟩
  · exact (h.own r hr).still (hstill r hr) fun p t hp hl ht hav =>
      (h.own r hr).unavail p t hp hl ht (havail t hav)
  · rw [(hstill r hr).tableAt hp hl] at ht
    rw [(hstill r' hr').tableAt hp' hl'] at ht'
    exact h.apart r hr r' hr' p p' t hp hp' hl hl' ht ht'
  · rw [hroot u (List.mem_cons_of_mem _ hu)] at hpres ⊢
    rw [hroot kern List.mem_cons_self]
    exact h.shared u hu i hi hpres

theorem OwnTables.rewritten {st : AddrSpaces σ} (h : OwnTables P kernPml4 st)
    (hmode : s'.mode = st.vmm.mode)
    (hstill : ∀ r ∈ virtToPhys kernPml4 :: st.roots, Still (virtToPhys kernPml4) r st.vmm s')
    (hblocks : P.blocks s'.source = P.blocks st.vmm.source) :
    OwnTables P kernPml4 { st with vmm := s' } := by
  have hroots : ∀ u ∈ st.roots, Still (virtToPhys kernPml4) u st.vmm s' :=
    fun u hu => hstill u (List.mem_cons_of_mem _ hu)
  have havail : ∀ t, P.tables.avail s'.source t → P.tables.avail st.vmm.source t := by
    rintro t ⟨hdvd, hmanaged, hfree⟩
    refine ⟨hdvd, hmanaged, ?_⟩
    rintro ⟨p, k, hp, hin⟩
    exact hfree ⟨p, k, (congrFun hblocks p).trans hp, hin⟩
  refine ⟨hmode.trans h.mode, h.forest.rewritten hstill havail, h.pointer, h.nodup,
    fun u hu p t hp hlen ht => ?_, fun u hu => (hroots u hu).noHuge (h.huge u hu)⟩
  rw [(hroots u hu).tableAt hp hlen] at ht
  exact (congrFun hblocks _).trans (h.held u hu p t hp hlen ht)

end Rewrite

end DevOS.Arch

namespace DevOS.Mm

open DevOS.Lib DevOS.Arch

variable {b₀ : Buddy} {hreach : b₀.memNrPages * pageSize ≤ hhdmLimit} {kernPml4 : Nat}
  {m : Client { b // BlockMap b₀ b }} {D : PageDiff}

/-- **The invariant stays** if the own tables, the allocations and the free lists
do. -/
theorem ClientInv.rewritten (h : ClientInv hreach kernPml4 m) {s' : Vmm { b // BlockMap b₀ b }}
    (hmode : s'.mode = m.vmm.mode) (hden : s'.denied = m.vmm.denied)
    (hstill : ∀ r ∈ virtToPhys kernPml4 :: m.addrSpaces.roots,
      Still (virtToPhys kernPml4) r m.vmm s')
    (hblocks : s'.source.val.allocation = m.vmm.source.val.allocation)
    (hlists : s'.source.val.ListsExact) : ClientInv hreach kernPml4 { m with vmm := s' } := by
  refine ⟨⟨hlists, hden.trans h.granted.granted⟩, h.tables.rewritten hmode hstill hblocks, h.kern,
    fun b hb => ?_, fun u hu => (h.filled u hu).still
      (hstill _ (List.mem_cons_of_mem _ (ClientInv.mem_roots hu)))⟩
  obtain ⟨hal, hno⟩ := h.held b hb
  exact ⟨(congrFun hblocks b.1).trans hal,
    fun g hg r hr htab => hno g hg r hr ((hstill r hr).tableFrame htab)⟩

/-- A word of a held page is in no table. -/
theorem ClientInv.still_of_held (h : ClientInv hreach kernPml4 m) {b : Nat × Nat} (hb : b ∈ m.held)
    {f : Nat} (hf : InBlock b.1 b.2 f) (page : Fin 512 → Word) {r : Nat}
    (hr : r ∈ virtToPhys kernPml4 :: m.addrSpaces.roots) :
    Still (virtToPhys kernPml4) r m.vmm
      { m.vmm with mem := Function.update m.vmm.mem (f * pageSize) page } := by
  intro p t hp hlen ht j
  have hne : t ≠ f * pageSize := by
    rintro rfl
    exact (h.held b hb).noTable f hf r hr ⟨p, _, hp, hlen, ht, pageSize_mul_div f⟩
  exact congrFun (Function.update_of_ne hne _ _) j

/-- **A held page is written.** -/
theorem ClientInv.writePage (h : ClientInv hreach kernPml4 m) {b : Nat × Nat} (hb : b ∈ m.held)
    {f : Nat} (hf : InBlock b.1 b.2 f) (page : Fin 512 → Word) :
    ClientInv hreach kernPml4
      { m with vmm := { m.vmm with mem := Function.update m.vmm.mem (f * pageSize) page } } :=
  h.rewritten rfl rfl (fun _ hr => h.still_of_held hb hf page hr) rfl h.granted.good

/-! ## The links of allocated pages -/

/-- The links of allocated pages are on no free list. -/
theorem Buddy.ListsExact.relinked {b b' : Buddy} (h : b.ListsExact) (hsame : SameMap b b')
    (hheads : b'.freeMatrix = b.freeMatrix)
    (hlinks : ∀ x, b.state x = .buddy → b'.next x = b.next x ∧ b'.prev x = b.prev x) :
    b'.ListsExact := by
  obtain ⟨L, hL⟩ := h
  refine ⟨L, ?_, ?_⟩
  · rw [hsame.cell]
    exact hL.tiling
  · refine hL.lists.congr hheads (fun k hk x hx => hlinks x ((hL.lists.mem k hk x).mp hx).2.1)
      (fun x => ?_) fun x _ _ => hsame.order x
    rw [hsame.nr, hsame.state]

theorem BlockMap.relinked {b b' : Buddy} (h : BlockMap b₀ b) (hsame : SameMap b b') :
    BlockMap b₀ b' := by
  refine ⟨hsame.nr.trans h.nr, hsame.cell ▸ h.tiling, ?_, fun x => ?_⟩
  · unfold Buddy.Coalesced
    rw [hsame.cell]
    simp only [hsame.state]
    exact h.coalesced
  · rw [hsame.state]
    exact h.reserved x

theorem ClientInv.relinked (h : ClientInv hreach kernPml4 m) {b : Buddy}
    (hsame : SameMap m.vmm.source.val b) (hheads : b.freeMatrix = m.vmm.source.val.freeMatrix)
    (hlinks : ∀ x, m.vmm.source.val.state x = .buddy →
      b.next x = m.vmm.source.val.next x ∧ b.prev x = m.vmm.source.val.prev x) :
    ∃ source, source.val = b ∧
      ClientInv hreach kernPml4 { m with vmm := { m.vmm with source := source } } := by
  refine ⟨⟨b, m.vmm.source.property.relinked hsame⟩, rfl, ?_⟩
  refine h.rewritten rfl rfl (fun r _ => Still.of_mem rfl r) ?_
    (h.granted.good.relinked hsame hheads hlinks)
  funext x
  exact allocation_congr hsame.nr (by rw [hsame.state]) fun _ => hsame.order x

/-- A block that `alloc_pages` hands out was in no allocation. -/
theorem ClientInv.alloc_fresh (h : ClientInv hreach kernPml4 m) {order p : Nat} {b : Buddy}
    (hcall : Mm.allocPages m.vmm.source.val order = .ok (some p, b)) :
    m.vmm.source.val.allocation p = none ∧ b.allocation p = some order := by
  obtain ⟨L, hL⟩ := h.granted.good
  have ho : order ≤ pageMaxOrder := by
    by_contra hlarge
    rw [Mm.allocPages, if_pos (Nat.lt_of_not_le hlarge)] at hcall
    cases hcall
  obtain ⟨hres, hb⟩ := Prod.mk.inj (Except.ok.inj (hcall.symm.trans (poolAlloc_eq _ hL ho)))
  obtain ⟨hblocks, hfresh⟩ :=
    (buddyPool b₀ hreach).alloc_some m.vmm.source order p _ (Prod.ext hres.symm rfl)
  constructor
  · cases hal : m.vmm.source.val.allocation p with
    | none => rfl
    | some k => exact absurd (inBlock_self p k) ((hfresh p (inBlock_self p order)).2 p k hal)
  · rw [hb]
    exact (congrFun hblocks p).trans (Function.update_self ..)

/-! ## What the calls leave alone -/

theorem rawVmm_injective {s s' : Vmm { b // BlockMap b₀ b }}
    (h : rawVmm Subtype.val s = rawVmm Subtype.val s') : s = s' := by
  obtain ⟨mode, mem, source, denied, faulted⟩ := s
  obtain ⟨mode', mem', source', denied', faulted'⟩ := s'
  obtain ⟨hmode, hmem, hsource, hghosts⟩ := Vmm.mk.inj h
  rw [Vmm.mk.injEq]
  exact ⟨hmode, hmem, Subtype.ext hsource, hghosts⟩

/-- `vmm_create_user_pml4`, if it goes through: never `NULL`, and what it does to
the tables. -/
theorem ClientInv.created (h : ClientInv hreach kernPml4 m) {res : Option Nat} {s : Vmm Buddy}
    (hcall : Ready.vmmCreateUserPml4 D kernPml4 (rawVmm Subtype.val m.vmm) = .ok (res, s)) :
    ∃ pml4 s', res = some pml4 ∧ rawVmm Subtype.val s' = s ∧
      ClientInv hreach kernPml4 { m with vmm := s', spaces := ⟨pml4, []⟩ :: m.spaces } ∧
      Created (buddyPool b₀ hreach).tables (virtToPhys kernPml4) (virtToPhys pml4) m.vmm s' ∧
      virtToPhys pml4 ∉ virtToPhys kernPml4 :: m.addrSpaces.roots := by
  have hfollows := vmmCreateUserPml4_follows (buddyPool_backed D hreach) h.granted kernPml4
  cases hcreate : Arch.vmmCreateUserPml4 (buddyPool b₀ hreach).tables kernPml4 m.vmm with
  | mk res' s' =>
      rw [hcreate] at hfollows
      cases hden : s'.denied with
      | true =>
          rw [hfollows.fault hden] at hcall
          cases hcall
      | false =>
          obtain ⟨hok, -⟩ := hfollows.ok hden
          obtain ⟨rfl, hraw⟩ := Prod.mk.inj (Except.ok.inj (hok.symm.trans hcall))
          cases res' with
          | none =>
              -- without a page the model is denied one
              unfold Arch.vmmCreateUserPml4 Arch.allocTable at hcreate
              cases halloc : (buddyPool b₀ hreach).tables.alloc m.vmm.source with
              | mk ptr source =>
                  rw [halloc] at hcreate
                  cases ptr with
                  | none =>
                      cases hcreate
                      simp at hden
                  | some ptr => cases hcreate
          | some pml4 =>
              obtain ⟨-, hnew, hnot⟩ := h.tables.createUser hcreate
              obtain ⟨s'', hs'', hinv⟩ := h.createUser hcall
              obtain rfl := rawVmm_injective (hs''.trans hraw.symm)
              exact ⟨pml4, s'', rfl, hs'', hinv, hnew, hnot⟩

/-- `vmm_create_user_pml4` writes to no held page. -/
theorem ClientInv.page_created (h : ClientInv hreach kernPml4 m) {u : Nat}
    {s' : Vmm { b // BlockMap b₀ b }}
    (hnew : Created (buddyPool b₀ hreach).tables (virtToPhys kernPml4) u m.vmm s') {b : Nat × Nat}
    (hb : b ∈ m.held) {f : Nat} (hf : InBlock b.1 b.2 f) :
    s'.mem (f * pageSize) = m.vmm.mem (f * pageSize) := by
  funext j
  refine hnew.other _ j ?_
  rintro rfl
  have hnot := not_allocated_of_avail hnew.avail
  rw [pageSize_mul_div] at hnot
  exact hnot ⟨b.1, b.2, (h.held b hb).allocated, hf⟩

/-- Nor does a change to the low half of an address space. -/
theorem ClientInv.page_touched (h : ClientInv hreach kernPml4 m) {r : Nat}
    {s' : Vmm { b // BlockMap b₀ b }}
    (hr : r ∈ virtToPhys kernPml4 :: m.addrSpaces.roots)
    (ht : Touched (buddyPool b₀ hreach).tables r Low m.vmm s') {b : Nat × Nat} (hb : b ∈ m.held)
    {f : Nat} (hf : InBlock b.1 b.2 f) : s'.mem (f * pageSize) = m.vmm.mem (f * pageSize) := by
  obtain ⟨hal, hno⟩ := h.held b hb
  funext j
  rcases ht.words (f * pageSize) j with hsame | hav | ⟨p, k, hlen, hat, hk, hpre⟩
  · exact hsame
  · have hnot := not_allocated_of_avail hav
    rw [pageSize_mul_div] at hnot
    exact absurd ⟨b.1, b.2, hal, hf⟩ hnot
  · refine absurd ⟨p, _, ?_, hlen, hat, pageSize_mul_div f⟩ (hno f hf r hr)
    exact (owned_cons hk).of_slot hpre

/-- **`vmm_map` of a held block at free low addresses**, if it goes through: it
maps the whole block. -/
theorem ClientInv.mapFresh (h : ClientInv hreach kernPml4 m) {v : Filled} (hv : v ∈ m.spaces)
    {block : Nat × Nat} (hblock : block ∈ m.held) {virt : Nat} {flags : Word} {failed : Nat}
    {s : Vmm Buddy} (hvirt : pageSize ∣ virt) (hlow : virt + 2 ^ block.2 * pageSize ≤ 2 ^ 47)
    (hflags : FlagsOk flags) (hpres : present flags = true)
    (hfree : ∀ a, virt ≤ a → a < virt + 2 ^ block.2 * pageSize →
      m.vmm.leafAt (virtToPhys v.pml4) (pathOf a) = none)
    (hslots : ∀ w, ¬ Slot virt (virt + 2 ^ block.2 * pageSize) w)
    (hcall : Ready.vmmMap D kernPml4 (rawVmm Subtype.val m.vmm) v.pml4 virt (block.1 * pageSize)
      (2 ^ block.2 * pageSize) flags = .ok (failed, s)) :
    failed = 0 ∧ ∃ s', rawVmm Subtype.val s' = s ∧
      ClientInv hreach kernPml4
        { m with vmm := s', spaces := m.spaces.map (Filled.add v.pml4 block) } ∧
      s' = (Arch.vmmMap (buddyPool b₀ hreach).tables kernPml4 m.vmm v.pml4 virt
        (block.1 * pageSize) (2 ^ block.2 * pageSize) flags).2 ∧
      Touched (buddyPool b₀ hreach).tables (virtToPhys v.pml4) Low m.vmm s' ∧
      Fills (MapsTo virt (block.1 * pageSize) flags) (m.vmm.translate (virtToPhys v.pml4))
        (s'.translate (virtToPhys v.pml4)) virt (virt + 2 ^ block.2 * pageSize) 0 := by
  have hmem := ClientInv.mem_live hv
  have hroots : virtToPhys v.pml4 ∈ virtToPhys kernPml4 :: m.addrSpaces.roots :=
    List.mem_cons_of_mem _ (ClientInv.mem_roots hv)
  have hrange := h.block_range hblock hlow
  have htree : TreeOk (buddyPool b₀ hreach).tables (virtToPhys v.pml4) m.vmm :=
    h.tables.forest.treeOk hroots
  have htouched := vmmMap_low_touched kernPml4 (block.1 * pageSize) flags
    (h.tables.aligned hmem).1 htree hlow
  have hfollows := vmmMap_follows (buddyPool_backed D hreach) h.granted kernPml4 v.pml4 virt
    (block.1 * pageSize) (2 ^ block.2 * pageSize) flags
  have hroot : mapRoot kernPml4 v.pml4 = v.pml4 :=
    if_neg (ne_kernPml4Token (h.tables.aligned hmem).1)
  obtain ⟨hne, hdvd⟩ := h.tables.pointer_ok hmem
  have hfills := (vmmMap_fills (A := (buddyPool b₀ hreach).tables) (hroot.symm ▸ hne)
    (hroot.symm ▸ hdvd) (hroot.symm ▸ htree) hrange hflags hpres).2
  have hmode : m.vmm.mode ≠ .early := by
    rw [show m.vmm.mode = .ready from h.tables.mode]
    decide
  have hphys : block.1 * pageSize < 2 ^ 64 := by
    have := hrange.phys
    omega
  have hzero := fun hgot : (Arch.vmmMap (buddyPool b₀ hreach).tables kernPml4 m.vmm v.pml4 virt
      (block.1 * pageSize) (2 ^ block.2 * pageSize) flags).2.denied = false => vmmMap_zero_iff
    (hroot.symm ▸ hne) (hroot.symm ▸ hdvd) (hroot.symm ▸ htree) hmode hvirt
    (Nat.dvd_mul_left _ _) (Nat.dvd_mul_left _ _) hphys (.inl hlow) (hroot.symm ▸ hfree) hgot
  rw [hroot] at hfills hzero
  revert hfollows htouched hfills hzero
  generalize hout : Arch.vmmMap (buddyPool b₀ hreach).tables kernPml4 m.vmm v.pml4 virt
    (block.1 * pageSize) (2 ^ block.2 * pageSize) flags = out
  obtain ⟨failed', s'⟩ := out
  intro htouched hfollows hfills hzero
  cases hden : s'.denied with
  | true =>
      rw [hfollows.fault hden] at hcall
      cases hcall
  | false =>
      obtain ⟨hok, -⟩ := hfollows.ok hden
      obtain ⟨rfl, hraw⟩ := Prod.mk.inj (Except.ok.inj (hok.symm.trans hcall))
      obtain rfl : failed' = 0 := (hzero hden).mpr (.inr fun w hw => absurd hw (hslots w))
      obtain ⟨s'', hs'', hinv⟩ := h.mapUser
        ⟨⟨v, hv, rfl⟩, hblock, hlow, hflags, hpres⟩ hcall
      obtain rfl := rawVmm_injective (hs''.trans hraw.symm)
      exact ⟨rfl, s'', hs'', hinv, rfl, htouched, hfills⟩

end DevOS.Mm
