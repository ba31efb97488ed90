import DevOS.Mm.Teardown

/-!
# Address spaces — giving everything back, along runs

The invariant of a run that has not merged left, what each call does to it, and
from it what the teardown of an address space frees.
-/

namespace DevOS.Mm

open DevOS.Lib DevOS.Arch

variable {b₀ : Buddy} {hreach : b₀.memNrPages * pageSize ≤ hhdmLimit} {kernPml4 : Nat}

/-- The address spaces as the pool has them. -/
def Client.addrSpaces {τ : Type} (c : Client τ) : AddrSpaces τ :=
  ⟨c.vmm, c.cr3, c.spaces.map Filled.pml4⟩

/-- The same system over the allocator's own state. -/
def Client.raw (m : Client { b // BlockMap b₀ b }) : Client Buddy :=
  ⟨rawVmm Subtype.val m.vmm, m.cr3, m.held, m.spaces⟩

/-- A block that a client holds is an allocation with no table in it. -/
structure HeldOk (kernPml4 : Nat) (m : Client { b // BlockMap b₀ b }) (b : Nat × Nat) : Prop where
  allocated : m.vmm.source.val.allocation b.1 = some b.2
  noTable : ∀ g, InBlock b.1 b.2 g → ∀ r ∈ virtToPhys kernPml4 :: m.addrSpaces.roots,
    ¬ TableFrame (virtToPhys kernPml4) r m.vmm g

/-- **The invariant of a run.** -/
structure ClientInv (hreach : b₀.memNrPages * pageSize ≤ hhdmLimit) (kernPml4 : Nat)
    (m : Client { b // BlockMap b₀ b }) : Prop where
  granted : Granted (fun b : { b // BlockMap b₀ b } => b.val.ListsExact) m.vmm
  tables : OwnTables (buddyPool b₀ hreach) kernPml4 m.addrSpaces
  kern : pageSize ∣ virtToPhys kernPml4
  held : ∀ b ∈ m.held, HeldOk kernPml4 m b
  filled : ∀ u ∈ m.spaces, FilledOk m.vmm (virtToPhys u.pml4) u.blocks

variable {m : Client { b // BlockMap b₀ b }}

theorem ClientInv.mem_live {u : Filled} (hu : u ∈ m.spaces) : u.pml4 ∈ m.addrSpaces.live :=
  List.mem_map_of_mem hu

theorem ClientInv.mem_roots {u : Filled} (hu : u ∈ m.spaces) :
    virtToPhys u.pml4 ∈ m.addrSpaces.roots :=
  List.mem_map_of_mem (ClientInv.mem_live hu)

/-- The tables of all trees lie on page boundaries. -/
theorem ClientInv.table_aligned (h : ClientInv hreach kernPml4 m) {r t : Nat}
    {p : List (Fin 512)} (hr : r ∈ virtToPhys kernPml4 :: m.addrSpaces.roots)
    (ht : m.vmm.tableAt r p = some t) : pageSize ∣ t := by
  obtain rfl | hr := List.mem_cons.mp hr
  · cases p using List.reverseRecOn with
    | nil =>
        cases ht
        exact h.kern
    | append_singleton p i =>
        rw [Vmm.tableAt, nodeAt_concat] at ht
        obtain ⟨v, -, hchild⟩ := Option.bind_eq_some_iff.mp ht
        unfold child at hchild
        split at hchild
        · cases hchild
          exact pageSize_dvd_addrOf _
        · cases hchild
  · exact h.tables.table_aligned hr ht

/-- A frame with a table on it is not free. -/
theorem ClientInv.table_not_free (h : ClientInv hreach kernPml4 m) {r g : Nat}
    (hr : r ∈ virtToPhys kernPml4 :: m.addrSpaces.roots)
    (hg : TableFrame (virtToPhys kernPml4) r m.vmm g) : ¬ m.vmm.source.val.FreeFrame g := by
  obtain ⟨p, t, hp, hlen, ht, rfl⟩ := hg
  intro hfree
  obtain ⟨hmanaged, hout⟩ := m.vmm.source.property.free_iff.mp hfree
  exact (h.tables.forest.own r hr).unavail p t hp hlen ht ⟨h.table_aligned hr ht, hmanaged, hout⟩

/-! ## Each call -/

/-- `alloc_pages`, whether or not it returns a page. -/
theorem ClientInv.drawn (h : ClientInv hreach kernPml4 m) (order : Nat)
    (hlists : (poolAlloc m.vmm.source order).2.val.ListsExact) :
    ClientInv hreach kernPml4
      { m with vmm := { m.vmm with source := (poolAlloc m.vmm.source order).2 } } := by
  refine ⟨⟨hlists, h.granted.granted⟩, h.tables.allocPages order, h.kern, fun b hb => ?_,
    fun u hu => (h.filled u hu).of_mem rfl⟩
  obtain ⟨hal, hno⟩ := h.held b hb
  exact ⟨((buddyPool b₀ hreach).alloc_blocks m.vmm.source order).1 _ _ hal, hno⟩

theorem ClientInv.allocPages (h : ClientInv hreach kernPml4 m) {order : Nat} {res : Option Nat}
    {b' : Buddy} (hcall : allocPages m.vmm.source.val order = .ok (res, b')) :
    ∃ source, source.val = b' ∧ ClientInv hreach kernPml4
      { m with
        vmm := { m.vmm with source := source }
        held := (res.map fun p => (p, order)).toList ++ m.held } := by
  obtain ⟨L, hL⟩ := h.granted.good
  have ho : order ≤ pageMaxOrder := by
    by_contra hlarge
    rw [Mm.allocPages, if_pos (Nat.lt_of_not_le hlarge)] at hcall
    cases hcall
  obtain ⟨hres, hb⟩ := Prod.mk.inj (Except.ok.inj (hcall.symm.trans (poolAlloc_eq _ hL ho)))
  have hlists : (poolAlloc m.vmm.source order).2.val.ListsExact := by
    have hin : (Op.alloc order).InMap m.vmm.source.val := trivial
    have hexec : (Op.alloc order).exec m.vmm.source.val =
        .ok (poolAlloc m.vmm.source order).2.val := by
      rw [Op.exec, poolAlloc_eq _ hL ho]
    exact Op.exec_rep h.granted.good hin id hexec
  refine ⟨(poolAlloc m.vmm.source order).2, hb.symm, ?_⟩
  have hinv := h.drawn order hlists
  cases res with
  | none => exact hinv
  | some p =>
      refine ⟨hinv.granted, hinv.tables, hinv.kern, fun b hmem => ?_, hinv.filled⟩
      obtain rfl | hmem := List.mem_cons.mp hmem
      · -- the frames of the new block were free, so there is no table in it
        obtain ⟨hblocks, hfresh⟩ :=
          (buddyPool b₀ hreach).alloc_some m.vmm.source order p _ (Prod.ext hres.symm rfl)
        refine ⟨(congrFun hblocks p).trans (Function.update_self ..),
          fun g hg r hr htab => h.table_not_free hr htab ?_⟩
        · obtain ⟨hmanaged, hnone⟩ := hfresh g hg
          refine m.vmm.source.property.free_iff.mpr ⟨hmanaged, ?_⟩
          rintro ⟨q, j, hq, hin⟩
          exact hnone q j hq hin
      · obtain ⟨hal, hno⟩ := hinv.held b hmem
        exact ⟨hal, hno⟩

/-- **Pages are freed**: the invariant stays for the address spaces that stay,
if no table of theirs is freed. -/
theorem ClientInv.freed (h : ClientInv hreach kernPml4 m) {pages : List Nat} {cr3 : Nat}
    {held : List (Nat × Nat)} {spaces : List Filled}
    (hlists : (poolFreeAll m.vmm.source pages).val.ListsExact)
    (hspaces : spaces.Sublist m.spaces) (hheld : ∀ b ∈ held, b ∈ m.held ∧ b.1 ∉ pages)
    (hkept : ∀ r ∈ virtToPhys kernPml4 :: (spaces.map Filled.pml4).map virtToPhys, ∀ g,
      TableFrame (virtToPhys kernPml4) r m.vmm g → ∀ q ∈ pages, ∀ k,
      m.vmm.source.val.allocation q = some k → ¬ InBlock q k g) :
    ClientInv hreach kernPml4
      ⟨{ m.vmm with source := poolFreeAll m.vmm.source pages }, cr3, held, spaces⟩ := by
  have hsub : ∀ r ∈ virtToPhys kernPml4 :: (spaces.map Filled.pml4).map virtToPhys,
      r ∈ virtToPhys kernPml4 :: m.addrSpaces.roots :=
    List.cons_subset_cons _ ((hspaces.map _).map _).subset
  refine ⟨⟨hlists, h.granted.granted⟩, ?_, h.kern, fun b hb => ?_,
    fun u hu => (h.filled u (hspaces.subset hu)).of_mem rfl⟩
  · refine OwnTables.fewer h.tables rfl rfl (hspaces.map _).subset
      ((hspaces.map _).nodup h.tables.nodup) fun r hr p t q k hp hlen ht _ hq hin => ?_
    show (poolFreeAll m.vmm.source pages).val.allocation q = some k
    rw [poolFreeAll_allocation, if_neg]
    · exact hq
    · exact fun hmem => hkept r hr _ ⟨p, t, hp, hlen, ht, rfl⟩ q hmem k hq hin
  · obtain ⟨hb', hnot⟩ := hheld b hb
    obtain ⟨hal, hno⟩ := h.held b hb'
    refine ⟨?_, fun g hg r hr => hno g hg r (hsub r hr)⟩
    show (poolFreeAll m.vmm.source pages).val.allocation b.1 = some b.2
    rw [poolFreeAll_allocation, if_neg hnot]
    exact hal

theorem ClientInv.freePages (h : ClientInv hreach kernPml4 m) {b : Nat × Nat} (hb : b ∈ m.held)
    (hno : ¬ (Op.free b.1).MergesLeft m.vmm.source.val) :
    ClientInv hreach kernPml4
      { m with
        vmm := { m.vmm with source := poolFreeAll m.vmm.source [b.1] }
        held := m.held.filter fun c => c ≠ b } ∧
    Ready.freePage (rawVmm Subtype.val m.vmm) b.1 =
      .ok (rawVmm Subtype.val { m.vmm with source := poolFreeAll m.vmm.source [b.1] }) := by
  obtain ⟨hal, hnone⟩ := h.held b hb
  have hlt : b.1 < b₀.memNrPages :=
    (m.vmm.source.property.managed hal (inBlock_self _ _)).1
  have hpages : ∀ p ∈ [b.1], p < b₀.memNrPages := fun p hp => List.mem_singleton.mp hp ▸ hlt
  have hguard : NoLeftMerge m.vmm.source.val [b.1] := by
    refine ⟨hno, ?_⟩
    split
    · trivial
    · trivial
  refine ⟨h.freed (poolFreeAll_lists _ _ hpages hguard h.granted.good) (List.Sublist.refl _)
    (fun c hc => ?_) fun r hr g hg q hq k hk hin => ?_, ?_⟩
  · obtain ⟨hc, hne⟩ := List.mem_filter.mp hc
    refine ⟨hc, fun hmem => of_decide_eq_true hne (Prod.ext (List.mem_singleton.mp hmem) ?_)⟩
    have hcal := (h.held c hc).allocated
    rw [List.mem_singleton.mp hmem, hal] at hcal
    exact (Option.some.inj hcal).symm
  · rw [List.mem_singleton.mp hq] at hk hin
    rw [hal] at hk
    cases hk
    exact hnone g hin r hr hg
  · have hrun := runFrom_freePage [b.1] m.vmm hpages
    rw [runFrom] at hrun
    split at hrun
    · cases hrun
    · rename_i s' hs
      rw [hs]
      exact hrun

/-- `vmm_create_user_pml4`. -/
theorem ClientInv.createUser (h : ClientInv hreach kernPml4 m) {D : PageDiff} {pml4 : Nat}
    {s : Vmm Buddy}
    (hcall : Ready.vmmCreateUserPml4 D kernPml4 (rawVmm Subtype.val m.vmm) = .ok (some pml4, s)) :
    ∃ s', rawVmm Subtype.val s' = s ∧
      ClientInv hreach kernPml4 { m with vmm := s', spaces := ⟨pml4, []⟩ :: m.spaces } := by
  have hfollows := vmmCreateUserPml4_follows (buddyPool_backed D hreach) h.granted kernPml4
  cases hcreate : Arch.vmmCreateUserPml4 (buddyPool b₀ hreach).tables kernPml4 m.vmm with
  | mk res s' =>
      rw [hcreate] at hfollows
      cases hden : s'.denied with
      | true =>
          rw [hfollows.fault hden] at hcall
          cases hcall
      | false =>
          obtain ⟨hok, hgood⟩ := hfollows.ok hden
          obtain ⟨rfl, rfl⟩ := Prod.mk.inj (Except.ok.inj (hok.symm.trans hcall))
          obtain ⟨htables, hnew, hnot⟩ := h.tables.createUser hcreate
          have hdrawn : Drawn (buddyPool b₀ hreach).tables m.vmm.source s'.source :=
            .single hnew.drawn
          refine ⟨s', rfl, ⟨hgood, hden⟩, htables, h.kern, fun b hb => ?_, fun u hu => ?_⟩
          · obtain ⟨hal, hno⟩ := h.held b hb
            refine ⟨hdrawn.blocks.1 _ _ hal, fun g hg r hr htab => ?_⟩
            obtain ⟨hr', hold⟩ | hfresh := hnew.tableFrame h.tables.forest hnot hr htab
            · exact hno g hg r hr' hold
            · exact hfresh ⟨b.1, b.2, hal, hg⟩
          · obtain rfl | hu := List.mem_cons.mp hu
            · -- the low entries of a new PML4 are cleared
              refine filledOk_nil fun q hq hlow => ?_
              obtain ⟨i, r, rfl⟩ := List.exists_cons_of_ne_nil
                (List.ne_nil_of_length_pos (by omega : 0 < q.length))
              have hpres : present (s'.mem (virtToPhys pml4) i) = false := by
                rw [hnew.low i (hlow i ⟨r, rfl⟩)]
                decide
              simp only [Vmm.leafAt, find, leaf_eq_none_of_not_present hpres,
                child_eq_none_of_not_present hpres]
            · exact (h.filled u hu).still
                (hnew.still h.tables.forest (List.mem_cons_of_mem _ (ClientInv.mem_roots hu)))

/-- The physical range of a block that a client holds. -/
theorem ClientInv.block_range (h : ClientInv hreach kernPml4 m) {b : Nat × Nat} (hb : b ∈ m.held)
    {virt : Nat} (hlow : virt + 2 ^ b.2 * pageSize ≤ 2 ^ 47) :
    RangeOk virt (b.1 * pageSize) (2 ^ b.2 * pageSize) := by
  have hpos := Nat.two_pow_pos b.2
  have hlast : InBlock b.1 b.2 (b.1 + 2 ^ b.2 - 1) := by
    unfold InBlock
    omega
  have hmanaged := m.vmm.source.property.managed (h.held b hb).allocated hlast
  have hlt := (buddyPool b₀ hreach).managed_lt _ hmanaged
  have hl : hhdmLimit = 0x777F80000000 := rfl
  have hp : pageSize = 4096 := rfl
  revert hlow hpos hlt
  generalize 2 ^ b.2 = n
  intro hlow hpos hlt
  have hsum : b.1 * pageSize + n * pageSize ≤ hhdmLimit + pageSize := by
    rw [hp] at hlt ⊢
    omega
  exact ⟨.inl hlow, by omega, Nat.lt_of_le_of_lt hsum (by decide)⟩

/-- A leaf of the mapping is on a frame of the block. -/
theorem inBlock_of_lt {p k x : Nat} (hx : x < 2 ^ k * pageSize) :
    InBlock p k ((p * pageSize + x) / pageSize) := by
  have hdiv : (p * pageSize + x) / pageSize = p + x / pageSize := by
    rw [Nat.add_comm, Nat.add_mul_div_right _ _ (by decide), Nat.add_comm]
  have hlt : x / pageSize < 2 ^ k := Nat.div_lt_of_lt_mul (Nat.mul_comm _ _ ▸ hx)
  rw [hdiv]
  exact ⟨Nat.le_add_right p _, Nat.add_lt_add_left hlt p⟩

/-- `vmm_map` of a block, where it returns 0. -/
theorem ClientInv.mapUser (h : ClientInv hreach kernPml4 m) {D : PageDiff} {pml4 virt : Nat}
    {block : Nat × Nat} {flags : Word} {s : Vmm Buddy}
    (hop : (ClientOp.mapUser pml4 virt block flags).Allowed m)
    (hcall : Ready.vmmMap D kernPml4 (rawVmm Subtype.val m.vmm) pml4 virt (block.1 * pageSize)
      (2 ^ block.2 * pageSize) flags = .ok (0, s)) :
    ∃ s', rawVmm Subtype.val s' = s ∧ ClientInv hreach kernPml4
      { m with vmm := s', spaces := m.spaces.map (Filled.add pml4 block) } := by
  obtain ⟨⟨v, hv, rfl⟩, hblock, hlow, hflags, hpres⟩ := hop
  have hmem := ClientInv.mem_live hv
  have hroots : virtToPhys v.pml4 ∈ virtToPhys kernPml4 :: m.addrSpaces.roots :=
    List.mem_cons_of_mem _ (ClientInv.mem_roots hv)
  have hrange := h.block_range hblock hlow
  have htree : TreeOk (buddyPool b₀ hreach).tables (virtToPhys v.pml4) m.vmm :=
    h.tables.forest.treeOk hroots
  have ht := vmmMap_low_touched kernPml4 (block.1 * pageSize) flags (h.tables.aligned hmem).1 htree
    hlow
  have hfollows := vmmMap_follows (buddyPool_backed D hreach) h.granted kernPml4 v.pml4 virt
    (block.1 * pageSize) (2 ^ block.2 * pageSize) flags
  have hroot : mapRoot kernPml4 v.pml4 = v.pml4 :=
    if_neg (ne_kernPml4Token (h.tables.aligned hmem).1)
  obtain ⟨hne, hdvd⟩ := h.tables.pointer_ok hmem
  have hpos : 0 < 2 ^ block.2 * pageSize := Nat.mul_pos (Nat.two_pow_pos block.2) (by decide)
  have hleaves := fun hdone : (Arch.vmmMap (buddyPool b₀ hreach).tables kernPml4 m.vmm v.pml4 virt
      (block.1 * pageSize) (2 ^ block.2 * pageSize) flags).1 = 0 =>
    vmmMap_leaves (hroot.symm ▸ hne) (hroot.symm ▸ hdvd) (hroot.symm ▸ htree) hrange hpos hflags
      hpres hdone
  rw [hroot] at hleaves
  revert hfollows ht hleaves
  generalize Arch.vmmMap (buddyPool b₀ hreach).tables kernPml4 m.vmm v.pml4 virt
    (block.1 * pageSize) (2 ^ block.2 * pageSize) flags = out
  obtain ⟨failed, s'⟩ := out
  intro ht hfollows hleaves
  cases hden : s'.denied with
  | true =>
      rw [hfollows.fault hden] at hcall
      cases hcall
  | false =>
      obtain ⟨hok, hgood⟩ := hfollows.ok hden
      obtain ⟨rfl, rfl⟩ := Prod.mk.inj (Except.ok.inj (hok.symm.trans hcall))
      obtain ⟨hnew, b, hb, hfrom⟩ := hleaves rfl
      obtain ⟨htables, hstill⟩ := h.tables.mapUser hmem ht
      have hspaces : (m.spaces.map (Filled.add v.pml4 block)).map Filled.pml4 =
          m.spaces.map Filled.pml4 := by
        simp [Function.comp_def]
      refine ⟨s', rfl, ⟨hgood, hden⟩, ?_, h.kern, fun c hc => ?_, fun u hu => ?_⟩
      · unfold Client.addrSpaces
        rw [hspaces]
        exact htables
      · obtain ⟨hal, hno⟩ := h.held c hc
        refine ⟨ht.drawn.blocks.1 _ _ hal, fun g hg r hr htab => ?_⟩
        have hr' : r ∈ virtToPhys kernPml4 :: m.addrSpaces.roots := by
          unfold Client.addrSpaces AddrSpaces.roots at hr
          rwa [hspaces] at hr
        by_cases hroot : r = virtToPhys v.pml4
        · subst hroot
          obtain ⟨q, t, hq, hlen, htq, rfl⟩ := htab
          obtain hold | hav := ht.nodes q t hlen htq
          · exact hno _ hg _ hr' ⟨q, t, hq, hlen, hold, rfl⟩
          · exact not_allocated_of_avail hav ⟨c.1, c.2, hal, hg⟩
        · exact hno g hg r hr' ((hstill r hr' hroot).tableFrame htab)
      · obtain ⟨w, hw, rfl⟩ := List.mem_map.mp hu
        rw [Filled.add_pml4]
        by_cases hself : w.pml4 = v.pml4
        · rw [Filled.add, if_pos hself, hself]
          have hfilled := h.filled w hw
          rw [hself] at hfilled
          refine ⟨fun q e hq hql he => ?_, fun c hc => ?_⟩
          · obtain hsame | ⟨-, x, e', hx, he', hfrom'⟩ := hnew q hq
            · obtain ⟨x, hx, c, hc, hin⟩ := hfilled.leaves q e hq hql (hsame.symm.trans he)
              exact ⟨x, hx, c, List.mem_cons_of_mem _ hc, hin⟩
            · obtain rfl : e' = e := Option.some.inj (he'.symm.trans he)
              exact ⟨_, hfrom', block, List.mem_cons_self, inBlock_of_lt hx⟩
          · obtain rfl | hc := List.mem_cons.mp hc
            · refine ⟨pathOf virt, b, rfl, low_of_cons ?_, hb, hfrom⟩
              have hpos := Nat.mul_pos (Nat.two_pow_pos c.2) (by decide : 0 < pageSize)
              show virt / 2 ^ 39 % 512 < 256
              omega
            · obtain ⟨q, e, hq, hql, he, hfrom'⟩ := hfilled.firsts c hc
              refine ⟨q, e, hq, hql, ?_, hfrom'⟩
              obtain hsame | ⟨hnone, -⟩ := hnew q hq
              · exact hsame.trans he
              · rw [hnone] at he
                cases he
        · rw [Filled.add, if_neg hself]
          refine (h.filled w hw).still
            (hstill _ (List.mem_cons_of_mem _ (ClientInv.mem_roots hw)) fun he => hself ?_)
          exact h.tables.root_inj (ClientInv.mem_live hw) hmem he

/-! ## The teardown -/

/-- A frame of an address space: of a block mapped into it, of a table of its
low half or of its PML4. -/
def Filled.Holds {τ : Type} (u : Filled) (s : Vmm τ) (f : Nat) : Prop :=
  (∃ b ∈ u.blocks, InBlock b.1 b.2 f) ∨ ∃ t, LowTable s (virtToPhys u.pml4) t ∧ t / pageSize = f

section Space

variable {u : Filled} (h : ClientInv hreach kernPml4 m) (hu : u ∈ m.spaces)

include h hu

/-- The low tables are allocations of one page. -/
theorem ClientInv.lowTable {t : Nat} (ht : LowTable m.vmm (virtToPhys u.pml4) t) :
    TableFrame (virtToPhys kernPml4) (virtToPhys u.pml4) m.vmm (t / pageSize) ∧
    m.vmm.source.val.allocation (t / pageSize) = some 0 := by
  obtain ⟨p, hlen, hlow, hat⟩ := ht
  exact ⟨⟨p, t, .inr hlow, hlen, hat, rfl⟩,
    h.tables.held _ (ClientInv.mem_roots hu) p t (.inr hlow) hlen hat⟩

/-- **What the teardown frees**: low tables and pages in the blocks, among them
the first one of each. -/
theorem ClientInv.mem_pages {q : Nat} :
    (q ∈ pml4Pages m.vmm u.pml4 → (∃ t, LowTable m.vmm (virtToPhys u.pml4) t ∧ t / pageSize = q) ∨
      ∃ b ∈ u.blocks, InBlock b.1 b.2 q) ∧
    ((∃ t, LowTable m.vmm (virtToPhys u.pml4) t ∧ t / pageSize = q) ∨ (∃ b ∈ u.blocks, b.1 = q) →
      q ∈ pml4Pages m.vmm u.pml4) := by
  have hmem := ClientInv.mem_live hu
  have hroot := ClientInv.mem_roots hu
  have hfilled := h.filled u hu
  have hown := h.tables.forest.own _ (List.mem_cons_of_mem _ hroot)
  rw [mem_pml4Pages_iff (s := m.vmm) h.tables.mode hown rfl (h.tables.huge _ hroot)
    (h.tables.aligned hmem).2]
  refine ⟨Or.imp id ?_, Or.imp id ?_⟩
  · rintro ⟨p, n, e, hlen, hlow, he, rfl⟩
    obtain ⟨x, hfrom, b, hb, hin⟩ := hfilled.leaves p (n, e) hlen hlow he
    exact ⟨b, hb, hfrom.addr ▸ hin⟩
  · rintro ⟨b, hb, rfl⟩
    obtain ⟨p, ⟨n, e⟩, hlen, hlow, he, hfrom⟩ := hfilled.firsts b hb
    refine ⟨p, n, e, hlen, hlow, he, ?_⟩
    rw [hfrom.addr, pageSize_mul_div]

variable (hlive : ∀ b ∈ u.blocks, b ∈ m.held)

include hlive

/-- An allocation that the teardown ends is a table or a block. -/
theorem ClientInv.ended {q k : Nat} (hq : q ∈ pml4Pages m.vmm u.pml4)
    (hk : m.vmm.source.val.allocation q = some k) :
    (TableFrame (virtToPhys kernPml4) (virtToPhys u.pml4) m.vmm q ∧ k = 0) ∨
      (q, k) ∈ u.blocks := by
  obtain ⟨t, ht, rfl⟩ | ⟨b, hb, hin⟩ := (h.mem_pages hu).1 hq
  · obtain ⟨hframe, hal⟩ := h.lowTable hu ht
    rw [hal] at hk
    exact .inl ⟨hframe, (Option.some.inj hk).symm⟩
  · have hal := (h.held b (hlive b hb)).allocated
    obtain rfl := m.vmm.source.property.allocation_inj hal hk hin (inBlock_self _ k)
    rw [hal] at hk
    cases hk
    exact .inr hb

/-- Its frames are in the allocations that end. -/
theorem ClientInv.holds_iff {f : Nat} : u.Holds m.vmm f ↔
    ∃ q ∈ pml4Pages m.vmm u.pml4, ∃ k, m.vmm.source.val.allocation q = some k ∧ InBlock q k f := by
  constructor
  · rintro (⟨b, hb, hin⟩ | ⟨t, ht, rfl⟩)
    · exact ⟨b.1, (h.mem_pages hu).2 (.inr ⟨b, hb, rfl⟩), b.2, (h.held b (hlive b hb)).allocated,
        hin⟩
    · exact ⟨_, (h.mem_pages hu).2 (.inl ⟨t, ht, rfl⟩), 0, (h.lowTable hu ht).2, inBlock_self _ 0⟩
  · rintro ⟨q, hq, k, hk, hin⟩
    obtain ⟨t, ht, rfl⟩ | ⟨b, hb, hinb⟩ := (h.mem_pages hu).1 hq
    · rw [(h.lowTable hu ht).2] at hk
      cases hk
      exact .inr ⟨t, ht, (inBlock_zero.mp hin).symm⟩
    · have hal := (h.held b (hlive b hb)).allocated
      obtain rfl := m.vmm.source.property.allocation_inj hal hk hinb (inBlock_self _ k)
      rw [hal] at hk
      cases hk
      exact .inl ⟨b, hb, hin⟩

/-- Every page that is freed is in the map. -/
theorem ClientInv.pages_lt {q : Nat} (hq : q ∈ pml4Pages m.vmm u.pml4) : q < b₀.memNrPages := by
  obtain ⟨t, ht, rfl⟩ | ⟨b, hb, hin⟩ := (h.mem_pages hu).1 hq
  · exact (m.vmm.source.property.managed (h.lowTable hu ht).2 (inBlock_self _ 0)).1
  · exact (m.vmm.source.property.managed (h.held b (hlive b hb)).allocated hin).1

/-- **The teardown does not panic** and frees these pages. -/
theorem ClientInv.teardown (cr3 : Nat) :
    ∃ cr3', Ready.vmmDestroyUserPml4 kernPml4 (rawVmm Subtype.val m.vmm) cr3 u.pml4 =
      .ok (0, cr3', rawVmm Subtype.val
        { m.vmm with source := poolFreeAll m.vmm.source (pml4Pages m.vmm u.pml4) }) := by
  have hmem := ClientInv.mem_live hu
  have hroot := ClientInv.mem_roots hu
  have hown := h.tables.forest.own _ (List.mem_cons_of_mem _ hroot)
  -- what the walk needs of the tables says nothing about the allocator
  have hraw : OwnOk (noTables Buddy) (virtToPhys kernPml4) (virtToPhys u.pml4)
      (rawVmm Subtype.val m.vmm) :=
    ⟨hown.separate, hown.below, fun _ _ _ _ _ hav => hav, hown.pml4⟩
  have hrun := runFrom_freePage (pml4Pages m.vmm u.pml4) m.vmm
    fun q hq => h.pages_lt hu hlive hq
  have hpages : pml4Pages (rawVmm Subtype.val m.vmm) u.pml4 = pml4Pages m.vmm u.pml4 := rfl
  rw [Ready.vmmDestroyUserPml4_pages (u := virtToPhys u.pml4) h.tables.mode
    (h.filled u hu).aligned hraw rfl (h.tables.huge _ hroot) (h.tables.ne_kern hmem), hpages, hrun]
  exact ⟨_, rfl⟩

/-- The invariant after a teardown that did not merge left. -/
theorem ClientInv.destroyUser
    (hno : NoLeftMerge m.vmm.source.val (pml4Pages m.vmm u.pml4)) (cr3 : Nat) :
    ClientInv hreach kernPml4
      ⟨{ m.vmm with source := poolFreeAll m.vmm.source (pml4Pages m.vmm u.pml4) }, cr3,
        m.held.filter fun b => b ∉ m.blocksOf u.pml4,
        m.spaces.filter fun v => v.pml4 ≠ u.pml4⟩ := by
  have hmem := ClientInv.mem_live hu
  have hblocks : ∀ b ∈ u.blocks, b ∈ m.blocksOf u.pml4 := fun b hb =>
    List.mem_flatMap.mpr ⟨u, List.mem_filter.mpr ⟨hu, decide_eq_true rfl⟩, hb⟩
  have hothers : ∀ r ∈ virtToPhys kernPml4 ::
      ((m.spaces.filter fun v => v.pml4 ≠ u.pml4).map Filled.pml4).map virtToPhys,
      r ∈ virtToPhys kernPml4 :: m.addrSpaces.roots ∧ r ≠ virtToPhys u.pml4 := by
    intro r hr
    obtain rfl | hr := List.mem_cons.mp hr
    · exact ⟨List.mem_cons_self, fun he =>
        h.tables.forest.kern_not_mem (he ▸ ClientInv.mem_roots hu)⟩
    · obtain ⟨a, ha, rfl⟩ := List.mem_map.mp hr
      obtain ⟨v, hv, rfl⟩ := List.mem_map.mp ha
      obtain ⟨hv, hne⟩ := List.mem_filter.mp hv
      exact ⟨List.mem_cons_of_mem _ (ClientInv.mem_roots hv), fun he =>
        of_decide_eq_true hne (h.tables.root_inj (ClientInv.mem_live hv) hmem he)⟩
  have hlists := poolFreeAll_lists (pml4Pages m.vmm u.pml4) m.vmm.source
    (fun q hq => h.pages_lt hu hlive hq) hno h.granted.good
  refine h.freed hlists List.filter_sublist (fun b hb => ?_) fun r hr g hg q hq k hk hin => ?_
  · obtain ⟨hb, hnot⟩ := List.mem_filter.mp hb
    obtain ⟨hal, hnone⟩ := h.held b hb
    refine ⟨hb, fun hq => ?_⟩
    obtain ⟨hframe, -⟩ | hmapped := h.ended hu hlive hq hal
    · exact hnone b.1 (inBlock_self _ _) _
        (List.mem_cons_of_mem _ (ClientInv.mem_roots hu)) hframe
    · exact of_decide_eq_true hnot (hblocks b hmapped)
  · obtain ⟨hr', hne⟩ := hothers r hr
    obtain ⟨hframe, rfl⟩ | hmapped := h.ended hu hlive hq hk
    · -- the same page would be a table of two trees
      obtain rfl := inBlock_zero.mp hin
      obtain ⟨p, t, hp, hlen, ht, hf⟩ := hg
      obtain ⟨p', t', hp', hlen', ht', hf'⟩ := hframe
      have hdvd := h.table_aligned hr' ht
      have hroots := List.mem_cons_of_mem (virtToPhys kernPml4) (ClientInv.mem_roots hu)
      have hdvd' := h.table_aligned hroots ht'
      have htt : t = t' := by
        rw [← Nat.div_mul_cancel hdvd, hf, ← hf', Nat.div_mul_cancel hdvd']
      subst htt
      exact hne (h.tables.forest.apart r hr' _ hroots p p' t hp hp' hlen hlen' ht ht')
    · exact (h.held _ (hlive _ hmapped)).noTable g hin r hr' hg

end Space

/-! ## Runs -/

/-- **Each call** keeps the invariant. -/
theorem ClientInv.step (h : ClientInv hreach kernPml4 m) {D : PageDiff} {op : ClientOp}
    {c : Client Buddy} (hop : op.Allowed m) (hno : ¬ op.MergesLeft m.raw)
    (hstep : clientStep D kernPml4 m.raw op = .ok c) :
    ∃ m' : Client { b // BlockMap b₀ b }, m'.raw = c ∧ ClientInv hreach kernPml4 m' := by
  cases op with
  | allocPages order =>
      simp only [clientStep] at hstep
      split at hstep
      · cases hstep
      · rename_i b hcall
        obtain ⟨source, rfl, hinv⟩ := h.allocPages hcall
        cases hstep
        exact ⟨_, rfl, hinv⟩
      · rename_i p b hcall
        obtain ⟨source, rfl, hinv⟩ := h.allocPages hcall
        cases hstep
        exact ⟨_, rfl, hinv⟩
  | freePages block =>
      have hno' : ¬ (Op.free block.1).MergesLeft m.vmm.source.val := hno
      obtain ⟨hinv, hcall⟩ := h.freePages hop hno'
      simp only [clientStep, Client.raw, hcall] at hstep
      cases hstep
      exact ⟨_, rfl, hinv⟩
  | createUser =>
      simp only [clientStep] at hstep
      split at hstep
      · cases hstep
      · cases hstep
      · rename_i pml4 s hcall
        obtain ⟨s', rfl, hinv⟩ := h.createUser hcall
        cases hstep
        exact ⟨_, rfl, hinv⟩
  | mapUser pml4 virt block flags =>
      simp only [clientStep] at hstep
      split at hstep
      · cases hstep
      · rename_i failed s hcall
        split at hstep
        · rename_i hzero
          subst hzero
          obtain ⟨s', rfl, hinv⟩ := h.mapUser hop hcall
          cases hstep
          exact ⟨_, rfl, hinv⟩
        · cases hstep
  | destroyUser pml4 =>
      obtain ⟨u, hu, rfl, hlive⟩ := hop
      obtain ⟨cr3, hcall⟩ := h.teardown hu hlive m.cr3
      have hinv := h.destroyUser hu hlive (not_not.mp hno) cr3
      generalize pml4Pages m.vmm u.pml4 = pages at hcall hinv
      simp only [clientStep, Client.raw, hcall] at hstep
      cases hstep
      exact ⟨_, rfl, hinv⟩

/-- `VMM_READY` before any address space: exact lists and coalesced blocks, as
`buddy_init` leaves them, and a well-formed kernel tree none of whose tables is
on a free frame. -/
structure ReadyBoot (kernPml4 : Nat) (c : Client Buddy) : Prop where
  mode : c.vmm.mode = .ready
  granted : c.vmm.denied = false
  lists : c.vmm.source.ListsExact
  coalesced : c.vmm.source.Coalesced
  reach : c.vmm.source.memNrPages * pageSize ≤ hhdmLimit
  kern : pageSize ∣ virtToPhys kernPml4
  tree : TreeOk (noTables Buddy) (virtToPhys kernPml4) c.vmm
  taken : ∀ p t, p.length ≤ 3 → c.vmm.tableAt (virtToPhys kernPml4) p = some t →
    ¬ c.vmm.source.FreeFrame (t / pageSize)
  held : c.held = []
  spaces : c.spaces = []

theorem ReadyBoot.inv {c : Client Buddy} (h : ReadyBoot kernPml4 c) :
    ∃ m : Client { b // BlockMap c.vmm.source b }, m.raw = c ∧ ClientInv h.reach kernPml4 m := by
  obtain ⟨L, hL⟩ := h.lists
  have hmap : BlockMap c.vmm.source c.vmm.source :=
    ⟨rfl, hL.tiling, h.coalesced, fun _ => Iff.rfl⟩
  refine ⟨⟨⟨c.vmm.mode, c.vmm.mem, ⟨c.vmm.source, hmap⟩, c.vmm.denied, c.vmm.faulted⟩, c.cr3,
      c.held, c.spaces⟩,
    rfl, ⟨h.lists, h.granted⟩, ?_, h.kern, fun b hb => ?_, fun u hu => ?_⟩
  · refine BootedPool.own ⟨h.mode, ⟨h.tree.separate, h.tree.below, fun p t hlen ht hav => ?_,
      h.tree.pml4⟩, ?_⟩
    · exact h.taken p t hlen ht (hmap.free_iff.mpr ⟨hav.2.1, hav.2.2⟩)
    · unfold Client.addrSpaces
      rw [h.spaces]
      rfl
  · rw [h.held] at hb
    cases hb
  · rw [h.spaces] at hu
    cases hu

/-- **The teardown gives everything back, once.** In every run from
`VMM_READY` in which no `free_pages` has merged left, the teardown of an
address space whose blocks are all held frees the frames of these blocks, of its
low tables and of its PML4, none of which was free, ends their allocations and
no others, and does not panic. -/
theorem teardown_returns_all (D : PageDiff) (kernPml4 : Nat) (c₀ c : Client Buddy)
    (hboot : ReadyBoot kernPml4 c₀) (ops : List ClientOp)
    (hops : Guarded (clientStep D kernPml4) (fun c op => op.Allowed c ∧ ¬ op.MergesLeft c) c₀ ops)
    (hrun : runFrom (clientStep D kernPml4) c₀ ops = .ok c) (u : Filled) (hu : u ∈ c.spaces)
    (hlive : ∀ b ∈ u.blocks, b ∈ c.held) :
    ∃ cr3 s, Ready.vmmDestroyUserPml4 kernPml4 c.vmm c.cr3 u.pml4 = .ok (0, cr3, s) ∧
      (∀ f, u.Holds c.vmm f → ¬ c.vmm.source.FreeFrame f) ∧
      (∀ f, s.source.FreeFrame f ↔ c.vmm.source.FreeFrame f ∨ u.Holds c.vmm f) ∧
      ∀ p k, s.source.allocation p = some k ↔
        c.vmm.source.allocation p = some k ∧ ¬ u.Holds c.vmm p := by
  obtain ⟨m₀, hm₀, hinv₀⟩ := hboot.inv
  obtain ⟨m, rfl, h⟩ := Guarded.invariant
    (I := fun c => ∃ m : Client { b // BlockMap c₀.vmm.source b }, m.raw = c ∧
      ClientInv hboot.reach kernPml4 m)
    (fun c op c' hc hop hstep => by
      obtain ⟨m, rfl, h⟩ := hc
      exact h.step hop.1 hop.2 hstep) ⟨m₀, hm₀, hinv₀⟩ hops hrun
  obtain ⟨cr3, hcall⟩ := h.teardown hu hlive m.cr3
  have hholds := fun f => h.holds_iff hu hlive (f := f)
  generalize pml4Pages m.vmm u.pml4 = pages at hcall hholds
  exact ⟨cr3, _, hcall, poolFreeAll_returned m.vmm.source pages (u.Holds m.vmm) hholds⟩

/-- A machine with 64 KiB of low RAM and the kernel, with its boot pool, in the
128 KiB from `KERNEL_PHYS`. -/
def wideTable : List E820Entry := [⟨0, 0x10000, 1⟩, ⟨0x200000, 0x20000, 1⟩]

/-- That machine after `buddy_init`. -/
def wideBoot : Buddy := okOr (buddyInit wideTable 0x220000 (memInit 0x220)) (memInit 0x220)

/-- In `VMM_READY` with cleared tables. -/
def wideClient : Client Buddy := ⟨⟨.ready, fun _ _ => 0, wideBoot, false, false⟩, 0, [], []⟩

theorem wideClient_boot : ReadyBoot sampleKernPml4 wideClient := by
  obtain ⟨b, L, hinit, hnr, hfree, hL, hco, -⟩ := buddyInit_exact wideTable
    (by simp [RamBelow, wideTable, E820Entry.stop]) (by simp [wideTable, E820Entry.stop]) 0x220000
    (by decide) (by decide)
  have hlast : lastRamAddr wideTable / pageSize = 0x220 := by decide
  rw [hlast] at hinit hnr
  have hb : wideBoot = b := by rw [wideBoot, hinit, okOr]
  have hsource : wideClient.vmm.source = b := by simp only [wideClient, hb]
  refine ⟨rfl, rfl, ⟨L, hsource ▸ hL⟩, hsource ▸ hco, ?_, by decide,
    TreeOk.of_cleared (fun _ => rfl) id, fun p t _ ht hfree' => ?_, rfl, rfl⟩
  · rw [hsource, hnr]
    decide
  · -- the tree is its root, which lies in the kernel's image
    rw [hsource, tableAt_cleared rfl ht] at hfree'
    exact ((hfree _).mp hfree').2 (by decide)

/-- A block of two pages, mapped at two addresses. -/
theorem teardown_returns_all_wide : ∃ c u cr3 s,
    runFrom (clientStep dividing sampleKernPml4) wideClient
      [.allocPages 1, .createUser, .mapUser (pageToHhdm 2) 0x400000 (0, 1) ptPresent,
        .mapUser (pageToHhdm 2) 0x402000 (0, 1) ptPresent] = .ok c ∧
    u ∈ c.spaces ∧ u.blocks = [(0, 1), (0, 1)] ∧
    Ready.vmmDestroyUserPml4 sampleKernPml4 c.vmm c.cr3 u.pml4 = .ok (0, cr3, s) ∧
    ∀ f, s.source.FreeFrame f ↔ c.vmm.source.FreeFrame f ∨ u.Holds c.vmm f := by
  obtain ⟨c, hrun, hc⟩ := exists_of_okAnd
    (x := runFrom (clientStep dividing sampleKernPml4) wideClient
      [.allocPages 1, .createUser, .mapUser (pageToHhdm 2) 0x400000 (0, 1) ptPresent,
        .mapUser (pageToHhdm 2) 0x402000 (0, 1) ptPresent])
    (p := fun c => c.spaces = [⟨pageToHhdm 2, [(0, 1), (0, 1)]⟩] && c.held = [(0, 1)])
    (by decide +kernel)
  rw [Bool.and_eq_true, decide_eq_true_eq, decide_eq_true_eq] at hc
  obtain ⟨hspaces, hheld⟩ := hc
  have hu : ⟨pageToHhdm 2, [(0, 1), (0, 1)]⟩ ∈ c.spaces := by
    rw [hspaces]
    exact List.mem_singleton_self _
  obtain ⟨cr3, s, hcall, -, hfree, -⟩ := teardown_returns_all dividing sampleKernPml4 wideClient c
    wideClient_boot _ (by decide +kernel) hrun _ hu (by simp [hheld])
  exact ⟨c, _, cr3, s, hrun, hu, rfl, hcall, hfree⟩

/-- A frame with no free head at or below it is not free. -/
theorem not_freeFrame {b : Buddy} {f : Nat} (h : ∀ p, p < f + 1 → b.state p ≠ .buddy) :
    ¬ b.FreeFrame f := by
  rintro ⟨p, k, -, hfree, hle, -⟩
  exact h p (Nat.lt_succ_of_le hle) hfree

/-- **After a left merge** frame 2 is handed out twice, as a page and in a
block of two. The block is given back and frame 2 becomes a tail of the block
of four at 0, which is handed out. The teardown of an address space with the
page leaves frame 2 where it is. -/
theorem teardown_misses_block : ∃ c u cr3 s, ReadyBoot sampleKernPml4 wideClient ∧
    Guarded (clientStep dividing sampleKernPml4) (fun c op => op.Allowed c) wideClient
      [.allocPages 0, .allocPages 0, .allocPages 0, .allocPages 0, .freePages (2, 0),
        .freePages (3, 0), .allocPages 0, .allocPages 1, .freePages (2, 1), .freePages (1, 0),
        .freePages (0, 0), .allocPages 2, .createUser,
        .mapUser (pageToHhdm 4) 0x400000 (2, 0) ptPresent] ∧
    runFrom (clientStep dividing sampleKernPml4) wideClient
      [.allocPages 0, .allocPages 0, .allocPages 0, .allocPages 0, .freePages (2, 0),
        .freePages (3, 0), .allocPages 0, .allocPages 1, .freePages (2, 1), .freePages (1, 0),
        .freePages (0, 0), .allocPages 2, .createUser,
        .mapUser (pageToHhdm 4) 0x400000 (2, 0) ptPresent] = .ok c ∧
    u ∈ c.spaces ∧ (∀ b ∈ u.blocks, b ∈ c.held) ∧
    Ready.vmmDestroyUserPml4 sampleKernPml4 c.vmm c.cr3 u.pml4 = .ok (0, cr3, s) ∧
    ¬ ∀ f, s.source.FreeFrame f ↔ c.vmm.source.FreeFrame f ∨ u.Holds c.vmm f := by
  obtain ⟨c, hrun, hc⟩ := exists_of_okAnd
    (x := runFrom (clientStep dividing sampleKernPml4) wideClient
      [.allocPages 0, .allocPages 0, .allocPages 0, .allocPages 0, .freePages (2, 0),
        .freePages (3, 0), .allocPages 0, .allocPages 1, .freePages (2, 1), .freePages (1, 0),
        .freePages (0, 0), .allocPages 2, .createUser,
        .mapUser (pageToHhdm 4) 0x400000 (2, 0) ptPresent])
    (p := fun c => c.spaces = [⟨pageToHhdm 4, [(2, 0)]⟩] && decide ((2, 0) ∈ c.held) &&
      okAnd (Ready.vmmDestroyUserPml4 sampleKernPml4 c.vmm c.cr3 (pageToHhdm 4)) fun r =>
        r.1 = 0 && decide (∀ p, p < 2 + 1 → r.2.2.source.state p ≠ .buddy))
    (by decide +kernel)
  simp only [Bool.and_eq_true, decide_eq_true_eq] at hc
  obtain ⟨⟨hspaces, hheld⟩, hdestroy⟩ := hc
  obtain ⟨⟨code, cr3, s⟩, hcall, hs⟩ := exists_of_okAnd hdestroy
  simp only [Bool.and_eq_true, decide_eq_true_eq] at hs
  obtain ⟨rfl, hnone⟩ := hs
  refine ⟨c, ⟨pageToHhdm 4, [(2, 0)]⟩, cr3, s, wideClient_boot, by decide +kernel, hrun, ?_, ?_,
    hcall, fun hall => ?_⟩
  · rw [hspaces]
    exact List.mem_singleton_self _
  · intro b hb
    rw [List.mem_singleton.mp hb]
    exact hheld
  · refine not_freeFrame hnone ((hall 2).mpr (.inr (.inl ⟨(2, 0), List.mem_singleton_self _, ?_⟩)))
    exact inBlock_self 2 0

end DevOS.Mm
