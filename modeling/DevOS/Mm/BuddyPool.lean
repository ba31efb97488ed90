import DevOS.Arch.VmmIsolation
import DevOS.Mm.BuddyAlloc
import DevOS.Mm.BuddyRuns

/-!
# Buddy allocator — the pool behind the page tables

In `VMM_READY` table pages come from `alloc_pages` and go back with
`free_pages`. A coalesced block map is a page pool of the VMM. `free_pages`
keeps it one whatever the links hold. Of `alloc_pages` it is assumed that it
takes the block it returns out of the free ones, since after a left merge the
lists may name a block that is in use; where the lists are exact it does.
-/

namespace DevOS.Mm

open DevOS.Lib DevOS.Arch

variable {b₀ b b' : Buddy}

/-- A coalesced block map over the frames that `b₀` manages. -/
structure BlockMap (b₀ b : Buddy) : Prop where
  nr : b.memNrPages = b₀.memNrPages
  tiling : Tiling pageMaxOrder b.cell
  coalesced : b.Coalesced
  reserved : ∀ x, b.state x = .reserved ↔ b₀.state x = .reserved

/-- The order of the allocation that starts at a frame. -/
def Buddy.allocation (b : Buddy) (p : Nat) : Option Nat :=
  if p < b.memNrPages ∧ b.state p = .allocated then some (b.order p) else none

theorem allocation_eq_some {p k : Nat} :
    b.allocation p = some k ↔ p < b.memNrPages ∧ b.state p = .allocated ∧ b.order p = k := by
  unfold Buddy.allocation
  split
  · rename_i h
    simp [h]
  · rename_i h
    constructor
    · intro hc
      cases hc
    · rintro ⟨hp, hs, -⟩
      exact absurd ⟨hp, hs⟩ h

/-- The allocation at a frame reads the frame's `state` and `order` only. -/
theorem allocation_congr {x : Nat} (hnr : b'.memNrPages = b.memNrPages)
    (hstate : b'.state x = .allocated ↔ b.state x = .allocated)
    (horder : b.state x = .allocated → b'.order x = b.order x) :
    b'.allocation x = b.allocation x := by
  refine Option.ext fun k => ?_
  rw [allocation_eq_some, allocation_eq_some, hnr, hstate]
  constructor
  · rintro ⟨hlt, hal, hk⟩
    exact ⟨hlt, hal, (horder hal).symm.trans hk⟩
  · rintro ⟨hlt, hal, hk⟩
    exact ⟨hlt, hal, (horder hal).trans hk⟩

/-- An allocation is a block of the map. -/
theorem cell_of_allocation {p k : Nat} (h : b.allocation p = some k) : b.cell p = .head k := by
  obtain ⟨hp, hs, hk⟩ := allocation_eq_some.mp h
  exact cell_eq_head.mpr ⟨hp, .inr hs, hk⟩

/-! ## Freeing -/

/-- **`free_pages` keeps the block map**, and ends the allocation that starts at
the page, if there is one. -/
theorem BlockMap.freePages (h : BlockMap b₀ b) {p : Nat} (hp : p < b.memNrPages) :
    ∃ b', freePages b p = .ok b' ∧ BlockMap b₀ b' ∧
      b'.allocation = Function.update b.allocation p none := by
  by_cases hs : b.state p = .allocated
  · obtain ⟨b', he, hf⟩ := freePages_freed h.tiling h.coalesced hp hs
    refine ⟨b', he, ⟨hf.nr.trans h.nr, hf.tiling, hf.coalesced,
      fun x => (hf.reserved x).trans (h.reserved x)⟩, ?_⟩
    funext x
    by_cases hx : x = p
    · subst hx
      rw [Function.update_self, Buddy.allocation, if_neg]
      rintro ⟨-, hal⟩
      exact ((hf.allocated x).mp hal).2 rfl
    · rw [Function.update_of_ne hx]
      refine allocation_congr hf.nr ?_ (hf.order x hx)
      rw [hf.allocated]
      exact ⟨fun hal => hal.1, fun hal => ⟨hal, hx⟩⟩
  · refine ⟨b, freePages_ignored hs, h, ?_⟩
    have hnone : b.allocation p = none := if_neg fun hc => hs hc.2
    rw [← hnone, Function.update_eq_self]

/-- `free_pages` on block maps; a frame beyond the map has no page. -/
def poolFree (b : { b // BlockMap b₀ b }) (p : Nat) : { b // BlockMap b₀ b } :=
  if hp : p < b.val.memNrPages then
    ⟨okOr (freePages b.val p) b.val, by
      obtain ⟨b', he, hmap, -⟩ := b.property.freePages hp
      rw [he]
      exact hmap⟩
  else b

/-- On a page of the map it is `free_pages`. -/
theorem poolFree_eq (b : { b // BlockMap b₀ b }) {p : Nat} (hp : p < b.val.memNrPages) :
    freePages b.val p = .ok (poolFree b p).val := by
  obtain ⟨b', he, -⟩ := b.property.freePages hp
  rw [poolFree, dif_pos hp]
  simp only [he]
  rfl

theorem poolFree_allocation (b : { b // BlockMap b₀ b }) (p : Nat) :
    (poolFree b p).val.allocation = Function.update b.val.allocation p none := by
  by_cases hp : p < b.val.memNrPages
  · obtain ⟨b', he, -, hal⟩ := b.property.freePages hp
    rw [poolFree_eq b hp] at he
    rw [Except.ok.inj he, hal]
  · have hnone : b.val.allocation p = none := if_neg fun hc => hp hc.1
    rw [poolFree, dif_neg hp, ← hnone, Function.update_eq_self]

/-! ## Allocating -/

/-- `p` is handed out: a block of the order that was free and no longer is. -/
structure HandedOut (b b' : Buddy) (order p : Nat) : Prop where
  taken : Taken b b' p
  inside : p < b.memNrPages
  order : b'.order p = order

theorem HandedOut.blockMap {order p : Nat} (h : HandedOut b b' order p) (hb : BlockMap b₀ b) :
    BlockMap b₀ b' :=
  ⟨h.taken.nr.trans hb.nr, h.taken.tiling, h.taken.coalesced hb.coalesced,
    fun x => (h.taken.reserved x).trans (hb.reserved x)⟩

theorem HandedOut.allocation {order p : Nat} (h : HandedOut b b' order p) :
    b'.allocation = Function.update b.allocation p (some order) := by
  funext x
  by_cases hx : x = p
  · subst hx
    rw [Function.update_self]
    exact allocation_eq_some.mpr ⟨h.taken.nr ▸ h.inside, h.taken.state, h.order⟩
  · rw [Function.update_of_ne hx]
    exact allocation_congr h.taken.nr (h.taken.allocated x hx) (h.taken.order x hx)

/-- The frames of the block are managed and were in no allocation. -/
theorem HandedOut.fresh {order p f : Nat} (h : HandedOut b b' order p) (hb : BlockMap b₀ b)
    (hf : InBlock p order f) :
    b₀.Managed f ∧ ∀ q j, b.allocation q = some j → ¬ InBlock q j f := by
  have hp : b'.allocation p = some order := by rw [h.allocation, Function.update_self]
  have hcell := cell_of_allocation hp
  refine ⟨?_, fun q j hq hin => ?_⟩
  · have hocc := h.taken.tiling.occupied hcell hf.1 hf.2
    rw [ne_eq, cell_eq_vacant, Classical.not_imp, h.taken.nr, hb.nr, h.taken.reserved,
      hb.reserved] at hocc
    exact hocc
  · -- the other allocation is still there, and blocks of a tiling are apart
    have hne : q ≠ p := by
      rintro rfl
      have hs := (allocation_eq_some.mp hq).2.1
      rw [h.taken.was] at hs
      cases hs
    have hq' : b'.allocation q = some j := by rw [h.allocation, Function.update_of_ne hne, hq]
    exact hne (h.taken.tiling.disjoint (cell_of_allocation hq') hcell hin.1 hin.2 hf.1 hf.2)

open Classical in
/-- `alloc_pages` on block maps, up to a call that does not hand out a free
block. -/
noncomputable def poolAlloc (b : { b // BlockMap b₀ b }) (order : Nat) :
    Option Nat × { b // BlockMap b₀ b } :=
  match allocPages b.val order with
  | .ok (some p, b') =>
      if h : HandedOut b.val b' order p then (some p, ⟨b', h.blockMap b.property⟩) else (none, b)
  | _ => (none, b)

/-- What `poolAlloc` returns was handed out. -/
theorem poolAlloc_some {s s' : { b // BlockMap b₀ b }} {order p : Nat}
    (h : poolAlloc s order = (some p, s')) : HandedOut s.val s'.val order p := by
  unfold poolAlloc at h
  split at h
  · split at h
    · cases h
      assumption
    · cases h
  · cases h

theorem poolAlloc_none {s s' : { b // BlockMap b₀ b }} {order : Nat}
    (h : poolAlloc s order = (none, s')) : s' = s := by
  unfold poolAlloc at h
  split at h
  · split at h
    · cases h
    · cases h
      rfl
  · cases h
    rfl

/-- **Where the lists are exact** it is `alloc_pages`. -/
theorem poolAlloc_eq (s : { b // BlockMap b₀ b }) {L : Nat → List Nat}
    (h : Rep s.val (fun _ => False) L) {order : Nat} (ho : order ≤ pageMaxOrder) :
    allocPages s.val order = .ok ((poolAlloc s order).1, (poolAlloc s order).2.val) := by
  rcases allocPages_found h ho with ⟨he, -⟩ | ⟨p, b', xs, he, hp, -, -, -, -, -, -, hord, -⟩
  · rw [poolAlloc]
    simp only [he]
  · have ht := allocPages_taken h ho he
    have hout : HandedOut s.val b' order p := ⟨ht, hp, hord⟩
    rw [poolAlloc]
    simp only [he, dif_pos hout]

/-! ## The pool -/

/-- **A coalesced block map is a page pool.** -/
noncomputable def buddyPool (b₀ : Buddy) (hreach : b₀.memNrPages * pageSize ≤ hhdmLimit) :
    PagePool { b // BlockMap b₀ b } where
  alloc := poolAlloc
  free := poolFree
  managed := b₀.Managed
  blocks s := s.val.allocation
  blocks_disjoint := by
    intro s p j q k f hp hq hpf hqf
    exact s.property.tiling.disjoint (cell_of_allocation hp) (cell_of_allocation hq)
      hpf.1 hpf.2 hqf.1 hqf.2
  alloc_some := by
    intro s k p s' h
    have hout := poolAlloc_some h
    exact ⟨hout.allocation, fun f hf => hout.fresh s.property hf⟩
  alloc_none := by
    intro s k s' h
    rw [poolAlloc_none h]
  free_blocks := poolFree_allocation
  managed_lt := by
    rintro f ⟨hf, -⟩
    exact Nat.lt_of_lt_of_le (Nat.mul_lt_mul_of_pos_right hf (by decide)) hreach

/-- **Tables are allocations**: in every run over the buddy allocator in which
what is mapped is the address space's to give, the low tables of every address
space are on pages that are `PG_ALLOCATED`, each an allocation of its own, and
what it maps lies in an allocation. -/
theorem tables_are_allocations (b₀ : Buddy) (hreach : b₀.memNrPages * pageSize ≤ hhdmLimit)
    (kernPml4 : Nat) (st₀ st : AddrSpaces { b // BlockMap b₀ b })
    (hboot : BootedPool (buddyPool b₀ hreach) kernPml4 st₀) (ops : List UserOp)
    (hops : Guarded (userStep (buddyPool b₀ hreach) kernPml4)
      (UserOp.Allowed (buddyPool b₀ hreach) kernPml4) st₀ ops)
    (hrun : runFrom (userStep (buddyPool b₀ hreach) kernPml4) st₀ ops = .ok st) :
    (∀ u ∈ st.live, ∀ t, LowTable st.vmm (virtToPhys u) t →
      st.vmm.source.val.state (t / pageSize) = .allocated ∧
      st.vmm.source.val.order (t / pageSize) = 0) ∧
    ∀ u ∈ st.live, ∀ f, MapsFrame st.vmm (virtToPhys u) f →
      ∃ p, st.vmm.source.val.state p = .allocated ∧
        InBlock p (st.vmm.source.val.order p) f := by
  have hinv := Guarded.invariant (I := IsoInv (buddyPool b₀ hreach) kernPml4)
    (fun _ _ _ h hop hstep => (h.step hop hstep).1) hboot.inv hops hrun
  refine ⟨fun u hu t ht => ?_, fun u hu f hf => ?_⟩
  · obtain ⟨p, hlen, hlow, hat⟩ := ht
    have hheld := hinv.held _ (List.mem_map_of_mem hu) p t (.inr hlow) hlen hat
    exact (allocation_eq_some.mp hheld).2
  · obtain ⟨p, k, hp, hin, -⟩ := hinv.data _ (List.mem_map_of_mem hu) f hf
    obtain ⟨-, hs, rfl⟩ := allocation_eq_some.mp hp
    exact ⟨p, hs, hin⟩

end DevOS.Mm
