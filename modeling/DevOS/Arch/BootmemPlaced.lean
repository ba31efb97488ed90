import DevOS.Arch.BootmemRequest

/-!
# Bootmem — where a mapped allocation lies

What a call of `bootmem_alloc_mapped` that returns its address leaves, whether
or not a segment was lost: each address of the range that is translated leads
to its own frame of those `__alloc` took, none of these frames is a table of
the kernel's tree, and the rest of the address space is as it was. The tables
of the tree lie in the kernel's image or were handed out by bootmem.
-/

namespace DevOS.Arch

open DevOS.Lib

/-! ## Where the tables of a tree lie -/

section TablesIn

variable {σ : Type} {A : TableSource σ} {P Q : Nat → Prop} {root kernPml4 : Nat} {s s' : Vmm σ}
  {H : Fin 512 → Prop}

/-- Every table of the tree is where `P` allows. -/
def TablesIn (P : Nat → Prop) (root : Nat) (s : Vmm σ) : Prop :=
  ∀ p t, p.length ≤ 3 → s.tableAt root p = some t → P t

theorem TablesIn.of_mem (h : TablesIn P root s) (hmem : s'.mem = s.mem) : TablesIn P root s' := by
  intro p t hp ht
  refine h p t hp ?_
  rw [Vmm.tableAt, ← hmem]
  exact ht

/-- New tables come from the table source. -/
theorem TablesIn.touched (h : TablesIn P root s) (ht : Touched A root H s s')
    (hav : ∀ t, A.avail s.source t → P t) : TablesIn P root s' := by
  intro p t hp hat
  obtain hold | hnew := ht.nodes p t hp hat
  · exact h p t hp hold
  · exact hav t hnew

/-- Clearing a word adds no table. -/
theorem tableAt_of_cleared {table : Nat} {i : Fin 512} :
    ∀ {p : List (Fin 512)} {root t : Nat}, (s.write table i 0).tableAt root p = some t →
      s.tableAt root p = some t := by
  intro p
  induction p with
  | nil => exact fun h => h
  | cons j p ih =>
      intro root t h
      rw [Vmm.tableAt, nodeAt, write_mem] at h
      split at h
      · cases h
      · rename_i u hchild
        split at hchild
        · rw [child_eq_none_of_not_present (by decide)] at hchild
          cases hchild
        · rw [Vmm.tableAt, nodeAt, hchild]
          exact ih h

theorem TablesIn.unlink (h : TablesIn P root s) (table : Nat) (i : Fin 512) :
    TablesIn P root (s.write table i 0) :=
  fun p t hp hat => h p t hp (tableAt_of_cleared hat)

/-- **The loop over the segments** writes to the tree and to new tables only. -/
theorem mapSegments_touched (virt : Nat) (flags : Word) : ∀ (segments : List AllocSegment)
    (offset failed : Nat) {s : Vmm σ}, TreeOk A (virtToPhys kernPml4) s →
    Touched A (virtToPhys kernPml4) (fun _ => True) s
      (mapSegments A kernPml4 virt flags segments offset failed s).2.2 := by
  have hroot : mapRoot kernPml4 kernPml4Token = kernPml4 := if_pos rfl
  intro segments
  induction segments with
  | nil => exact fun _ _ _ h => .refl h
  | cons g gs ih =>
      intro offset failed s h
      have hmap : Touched A (virtToPhys (mapRoot kernPml4 kernPml4Token)) (fun _ => True) s
          (vmmMap A kernPml4 s kernPml4Token ((virt + offset) % 2 ^ 64) g.start g.size flags).2 :=
        vmmMap_touched g.start flags (by rwa [hroot]) (.inl fun _ => trivial)
      rw [hroot] at hmap
      rw [mapSegments_cons]
      exact hmap.trans (ih _ _ hmap.ok)

end TablesIn

section Reach

variable {kernel : KernelImage} {table : List E820Entry} {K : KernelTables}
  {hspan : ∀ e ∈ table, e.stop ≤ hhdmSpan} {s : Vmm (LiveBootmem kernel table)}

/-- Nothing below the kernel is handed out. -/
theorem LiveBootmem.kernelEnd_le (b : LiveBootmem kernel table) :
    kernel.kernelEnd ≤ b.val.poolEnd := by
  have h := b.property
  exact h.above.trans h.grown

theorem LiveBootmem.kernelPhys_le (b : LiveBootmem kernel table) : kernelPhys ≤ b.val.poolEnd :=
  (Nat.le_add_right kernelPhys kernel.size).trans b.kernelEnd_le

/-- The pool only grows. -/
theorem drawn_poolEnd {mode : VmmMode} {b b' : LiveBootmem kernel table}
    (h : Drawn (bootmemSource kernel hspan mode) b b') : b.val.poolEnd ≤ b'.val.poolEnd := by
  induction h with
  | refl => exact le_rfl
  | tail _ hlast ih =>
      subst hlast
      exact ih.trans (bootTable_spec (ramBelow_of_span hspan) mode _).1

/-- **The kernel's tables** lie at or above `KERNEL_PHYS` in every reachable
state. -/
theorem BootReach.tablesAbove (hK : K.InImage kernel)
    (hsorted : table.Pairwise fun e f => e.stop ≤ f.addr) (h : BootReach K hspan s) :
    TablesIn (kernelPhys ≤ ·) (virtToPhys K.kernPml4) s := by
  have hav : ∀ (b : LiveBootmem kernel table) (t : Nat),
      InRam table b.val.poolEnd t pageSize → kernelPhys ≤ t :=
    fun b t hin => b.kernelPhys_le.trans hin.lower
  have hunit : ∀ (mode : VmmMode) (flags : Word) (large : Bool)
      (s : Vmm (LiveBootmem kernel table)) (v x : Nat),
      BootTree K hspan s ∧ TablesIn (kernelPhys ≤ ·) (virtToPhys K.kernPml4) s →
      BootTree K hspan (setUnit (bootmemSource kernel hspan mode) K.kernPml4 flags large s v x).2 ∧
        TablesIn (kernelPhys ≤ ·) (virtToPhys K.kernPml4)
          (setUnit (bootmemSource kernel hspan mode) K.kernPml4 flags large s v x).2 :=
    fun mode flags large s v x hs => ⟨hs.1.unit mode flags large v x,
      hs.2.touched (setUnit_touched (hs.1.ok.anyMode mode) large v x flags) (hav s.source)⟩
  induction h with
  | @init b hboot =>
      intro p t _ ht
      have hwords := vmmInit_words K
        (⟨b, PoolInv.init (ramBelow_of_span hspan) hboot⟩ : LiveBootmem kernel table)
      have himage : ∀ x ∈ [K.kernPml4, K.pdptLow, K.pdLow, K.pdptKern, K.pdKern],
          kernelPhys ≤ virtToPhys x := by
        intro x hx
        obtain ⟨-, h1, h2⟩ := K.image x hx
        rw [virtToPhys_image h1 h2]
        exact Nat.le_add_left _ _
      rcases hwords.tables p t ht with ⟨-, rfl⟩ | ⟨-, rfl⟩ | ⟨-, rfl⟩ | ⟨-, rfl⟩ | ⟨-, rfl⟩
      all_goals exact himage _ (by simp)
  | @mapHhdm s hprev ih =>
      exact (vmmMapHhdm_keeps
        (M := fun s => BootTree K hspan s ∧ TablesIn (kernelPhys ≤ ·) (virtToPhys K.kernPml4) s)
        (fun flags large s' v x hs => hunit s.mode flags large s' v x hs)
        (fun _ hs => ⟨hs.1.relabel rfl (by simp) fun _ hp => hp, hs.2.of_mem rfl⟩) table
        ⟨hprev.tree hK hsorted, ih⟩).2
  | @unmapLow s _ ih =>
      unfold vmmUnmapLowIdentity
      split
      · exact ih
      · exact (ih.unlink K.kernPml4 0).of_mem rfl
  | @page s _ ih => exact ih.of_mem rfl
  | @map s pml4 virt phys size flags hroot hprev ih =>
      have hok := (hprev.tree hK hsorted).ok
      have htouched : Touched (bootmemSource kernel hspan s.mode)
          (virtToPhys (mapRoot K.kernPml4 pml4)) (fun _ => True) s
          (vmmMap (bootmemSource kernel hspan s.mode) K.kernPml4 s pml4 virt phys size flags).2 :=
        vmmMap_touched phys flags (by rwa [hroot]) (.inl fun _ => trivial)
      rw [hroot] at htouched
      exact ih.touched htouched (hav s.source)
  | @allocMapped s s' res fuel virt bytes flags hprev hroom hcall ih =>
      rcases bootmemAllocMapped_cases hsorted K.kernPml4 fuel virt bytes flags rfl hroom with
        ⟨-, hres⟩ | hres | hres | ⟨-, b, htakes, hres⟩
      · rw [hcall] at hres
        cases hres
      · rw [hcall] at hres
        cases hres
        exact ih
      · rw [hcall] at hres
        cases hres
      · have hstart : BootTree K hspan { s.watch with source := b } :=
          (hprev.tree hK hsorted).relabel rfl (hprev.tree hK hsorted).mode
            fun p hp => htakes.avail hp
        have htables : TablesIn (kernelPhys ≤ ·) (virtToPhys K.kernPml4)
            { s.watch with source := b } := ih.of_mem rfl
        have hend := htables.touched (mapSegments_touched virt flags
          (bootmemAlloc table (roundUp bytes pageSize) s.source.val).1 0 0 hstart.ok) (hav b)
        rw [hcall, Option.some_inj] at hres
        rcases checkMapped_cases virt _ _ with herr | ⟨-, -, hok⟩
        · cases hres.trans herr
        · cases hres.trans hok
          exact hend

end Reach

/-! ## Where the pages of the range lie -/

section Placed

variable {σ : Type} {A : TableSource σ} {root kernPml4 virt phys size base stop v f : Nat}
  {s₀ s s' : Vmm σ} {want : Nat → Nat} {flags : Word} {segments : List AllocSegment}

/-- A range that was free, up to the cursor `v`: what is mapped there is where
`want` says, the rest is free still, and nothing else has changed. -/
structure PlacedTo (root : Nat) (s₀ : Vmm σ) (want : Nat → Nat) (flags : Word) (base stop v : Nat)
    (s : Vmm σ) : Prop where
  placed : ∀ a t, base ≤ a → a < v → s.translate root a = some t →
    t.phys = want a ∧ ∃ large, t.flags = unitFlags large flags
  free : ∀ a, v ≤ a → a < stop → s.translate root a = none
  frame : ∀ a, ¬ (base ≤ a ∧ a < stop) → s.translate root a = s₀.translate root a

/-- One segment more, some pages of which may have been refused. -/
theorem PlacedTo.segment (h : PlacedTo root s₀ want flags base stop v s)
    (hfills : Fills (MapsTo v phys flags) (s.translate root) (s'.translate root) v (v + size) f)
    (hbase : base ≤ v) (hstop : v + size ≤ stop)
    (hwant : ∀ a, v ≤ a → a < v + size → want a = phys + (a - v)) :
    PlacedTo root s₀ want flags base stop (v + size) s' := by
  refine ⟨fun a t h1 h2 ht => ?_, fun a h1 h2 => ?_, fun a ha => ?_⟩
  · by_cases hin : v ≤ a
    · obtain hsame | ⟨-, t', ht', large, rfl⟩ := hfills.cell a
      · rw [hsame, h.free a hin (h2.trans_le hstop)] at ht
        cases ht
      · cases ht.symm.trans ht'
        exact ⟨(hwant a hin h2).symm, large, rfl⟩
    · rw [hfills.frame a fun hc => hin hc.1] at ht
      exact h.placed a t h1 (Nat.lt_of_not_le hin) ht
  · rw [hfills.frame a (by omega)]
    exact h.free a (by omega) h2
  · rw [hfills.frame a (by omega)]
    exact h.frame a ha

/-- **The loop over the segments** maps nothing but each segment's own frames,
lost segments or not. -/
theorem mapSegments_placed (hv : pageSize ∣ virt) (hstop : stop = virt + totalBytes segments)
    (hseg : ∀ g ∈ segments, pageSize ∣ g.start ∧ pageSize ∣ g.size ∧ g.start + g.size < 2 ^ 52)
    (hne : kernPml4 ≠ 0) (hdvd : pageSize ∣ kernPml4)
    (hhalf : stop ≤ 2 ^ 47 ∨ 2 ^ 64 - 2 ^ 47 ≤ virt) (htop : stop ≤ 2 ^ 64 - 2 ^ 30)
    (hf : FlagsOk flags) (hpres : present flags = true) :
    ∀ (post pre : List AllocSegment) (failed : Nat) {s : Vmm σ}, segments = pre ++ post →
      TreeOk A (virtToPhys kernPml4) s →
      PlacedTo (virtToPhys kernPml4) s₀ (frameAddr (segments.flatMap AllocSegment.frames) virt)
        flags virt stop (virt + totalBytes pre) s →
      PlacedTo (virtToPhys kernPml4) s₀ (frameAddr (segments.flatMap AllocSegment.frames) virt)
        flags virt stop stop
        (mapSegments A kernPml4 virt flags post (totalBytes pre) failed s).2.2 := by
  have hroot : mapRoot kernPml4 kernPml4Token = kernPml4 := if_pos rfl
  have hseg' : ∀ g ∈ segments, pageSize ∣ g.start ∧ pageSize ∣ g.size ∧ g.start + g.size ≤ 2 ^ 52 :=
    fun g hg => ⟨(hseg g hg).1, (hseg g hg).2.1, (hseg g hg).2.2.le⟩
  intro post
  induction post with
  | nil =>
      intro pre failed s hsplit _ h
      rw [List.append_nil] at hsplit
      rw [← hsplit, ← hstop] at h
      exact h
  | cons g post ih =>
      intro pre failed s hsplit hok h
      obtain ⟨hgs, hgd, hlim⟩ := hseg g (by simp [hsplit])
      obtain ⟨-, hend, hwant⟩ := segment_at hv hstop hseg' hsplit
      have htotal : totalBytes (pre ++ [g]) = totalBytes pre + g.size := totalBytes_append pre [g]
      have hsum : (virt + totalBytes pre) % 2 ^ 64 = virt + totalBytes pre :=
        Nat.mod_eq_of_lt (by omega)
      have hnext : (totalBytes pre + g.size) % 2 ^ 64 = totalBytes pre + g.size :=
        Nat.mod_eq_of_lt (by omega)
      have hrange : RangeOk (virt + totalBytes pre) g.start g.size :=
        ⟨by omega, by omega, hlim⟩
      obtain ⟨hok', hfills⟩ := vmmMap_fills (A := A) (hroot ▸ hne) (hroot ▸ hdvd)
        (hroot.symm ▸ hok) hrange hf hpres
      rw [hroot] at hok' hfills
      have hmap := h.segment hfills (Nat.le_add_right _ _) hend hwant
      rw [Nat.add_assoc, ← htotal] at hmap
      rw [mapSegments_cons, hsum, hnext, ← htotal]
      exact ih (pre ++ [g]) _ (by simp [hsplit]) hok' hmap

end Placed

/-! ## A call that returns its address -/

section Call

variable {kernel : KernelImage} {table : List E820Entry} {K : KernelTables}
  {hspan : ∀ e ∈ table, e.stop ≤ hhdmSpan} {s s' : Vmm (LiveBootmem kernel table)}
  {virt bytes n v fuel : Nat} {flags : Word}

/-- The frames that a request for `n` pages takes. -/
def requestFrames (table : List E820Entry) (b : Bootmem) (n : Nat) : List Nat :=
  (framesFrom b.poolEnd table).take n

/-- What a request for `n` pages at `virt` that was answered has done. -/
structure Placement (K : KernelTables) (s s' : Vmm (LiveBootmem kernel table)) (virt n : Nat)
    (flags : Word) : Prop where
  placed : ∀ a t, virt ≤ a → a < virt + n * pageSize →
    s'.translate (virtToPhys K.kernPml4) a = some t →
    t.phys = frameAddr (requestFrames table s.source.val n) virt a ∧
      ∃ large, t.flags = unitFlags large flags
  frame : ∀ a, ¬ (virt ≤ a ∧ a < virt + n * pageSize) →
    s'.translate (virtToPhys K.kernPml4) a = s.translate (virtToPhys K.kernPml4) a
  enough : (requestFrames table s.source.val n).length = n
  distinct : (requestFrames table s.source.val n).Nodup
  taken : ∀ f ∈ requestFrames table s.source.val n,
    InRam table s.source.val.poolEnd (f * pageSize) pageSize ∧
      f * pageSize < s'.source.val.poolEnd
  tables : TablesIn (fun t => ∀ f ∈ requestFrames table s.source.val n, t ≠ f * pageSize)
    (virtToPhys K.kernPml4) s'
  mode : s'.mode = s.mode

/-- The frames taken end where the pool then starts. -/
theorem Takes.below {b b' : Bootmem} {segments : List AllocSegment}
    (h : Takes table b b' n segments) (hsorted : table.Pairwise fun e f => e.stop ≤ f.addr)
    {f : Nat} (hf : f ∈ requestFrames table b n) : f * pageSize < b'.poolEnd := by
  have hin : InRam table b.poolEnd (f * pageSize) pageSize :=
    mem_framesFrom.mp (List.mem_of_mem_take hf)
  by_contra hge
  have hleft : f ∈ framesFrom b'.poolEnd table :=
    mem_framesFrom.mpr ⟨Nat.le_of_not_lt hge, hin.start_dvd, hin.size_dvd, hin.ram⟩
  rw [h.left] at hleft
  have hnodup := (framesFrom_sorted b.poolEnd hsorted).imp Nat.ne_of_lt
  exact List.disjoint_take_drop hnodup (le_refl n) hf hleft

/-- **What an answered request leaves**: every page of the range that is mapped
is a frame of its own that was taken for it, no frame taken is a table of the
kernel's tree, and all other addresses translate as before. -/
theorem bootmemAllocMapped_placed (hK : K.InImage kernel)
    (hsorted : table.Pairwise fun e f => e.stop ≤ f.addr) (hreach : BootReach K hspan s)
    (hvirt : pageSize ∣ virt) (hn : roundUp bytes pageSize = n * pageSize)
    (hroom : ∀ e ∈ table, e.stop + roundUp bytes pageSize ≤ 2 ^ 64)
    (hhalf : virt + n * pageSize ≤ 2 ^ 47 ∨ 2 ^ 64 - 2 ^ 47 ≤ virt)
    (htop : virt + n * pageSize ≤ 2 ^ 64 - 2 ^ 30) (hf : FlagsOk flags)
    (hpres : present flags = true)
    (hcall : bootmemAllocMapped kernel hspan K.kernPml4 fuel s virt bytes flags =
      some (.ok (some v, s'))) : v = virt ∧ Placement K s s' virt n flags := by
  have htree := hreach.tree hK hsorted
  obtain ⟨hdvd, hlow, -⟩ := K.image K.kernPml4 (by simp)
  have hne : K.kernPml4 ≠ 0 := by
    unfold kernelVmaStart at hlow
    omega
  rcases bootmemAllocMapped_cases hsorted K.kernPml4 fuel virt bytes flags hn hroom with
    ⟨-, hres⟩ | hres | hres | ⟨hcheck, b, htakes, hres⟩
  · rw [hcall] at hres
    cases hres
  · rw [hcall] at hres
    cases hres
  · rw [hcall] at hres
    cases hres
  rw [hcall, Option.some_inj] at hres
  have hstart : BootTree K hspan { s.watch with source := b } :=
    htree.relabel rfl htree.mode fun p hp => htakes.avail hp
  have hfree := htree.check_free hvirt (by omega) hcheck
  have hseg : ∀ g ∈ (bootmemAlloc table (n * pageSize) s.source.val).1,
      pageSize ∣ g.start ∧ pageSize ∣ g.size ∧ g.start + g.size < 2 ^ 52 := by
    intro g hg
    have hin := htakes.inRam g hg
    obtain ⟨e, he, -, -, hle⟩ := hin.ram
    have hlim := hspan e he
    unfold hhdmSpan at hlim
    exact ⟨hin.start_dvd, hin.size_dvd, by omega⟩
  have hframes : (bootmemAlloc table (n * pageSize) s.source.val).1.flatMap AllocSegment.frames =
      requestFrames table s.source.val n := htakes.frames
  have hbefore : PlacedTo (virtToPhys K.kernPml4) s
      (frameAddr ((bootmemAlloc table (n * pageSize) s.source.val).1.flatMap AllocSegment.frames)
        virt) flags virt (virt + n * pageSize) virt { s.watch with source := b } := by
    refine ⟨fun a t h1 h2 => absurd h1 (Nat.not_le_of_lt h2), fun a h1 h2 => ?_, fun _ _ => rfl⟩
    exact translate_eq_none_of_gap htree.ok.readable fun hgap =>
      (gapOf_eq_none_iff htree.ok.readable a).mp hgap (hfree a h1 h2)
  have htouched := mapSegments_touched virt flags
    (bootmemAlloc table (n * pageSize) s.source.val).1 0 0 hstart.ok
  have hplaced := mapSegments_placed (A := bootmemSource kernel hspan s.mode) hvirt
    (by rw [htakes.chained.total_eq]) hseg hne hdvd hhalf htop hf hpres _ [] 0
    (List.nil_append _).symm hstart.ok hbefore
  rw [hframes] at hplaced
  rcases checkMapped_cases virt _ _ with herr | ⟨-, -, hok⟩
  · cases hres.trans herr
  cases hres.trans hok
  refine ⟨rfl, hplaced.placed, hplaced.frame, ?_, ?_, fun f hmem => ⟨?_, ?_⟩, ?_, htouched.mode⟩
  · rw [requestFrames, List.length_take, Nat.min_eq_left htakes.enough]
  · exact ((framesFrom_sorted _ hsorted).imp Nat.ne_of_lt).sublist (List.take_sublist _ _)
  · exact mem_framesFrom.mp (List.mem_of_mem_take hmem)
  · exact (htakes.below hsorted hmem).trans_le (drawn_poolEnd htouched.drawn)
  · have hold : TablesIn (fun t => ∀ f ∈ requestFrames table s.source.val n, t ≠ f * pageSize)
        (virtToPhys K.kernPml4) { s.watch with source := b } := by
      intro p t hp ht f hmem he
      have hin : InRam table s.source.val.poolEnd (f * pageSize) pageSize :=
        mem_framesFrom.mp (List.mem_of_mem_take hmem)
      exact htree.ok.unavail p t hp ht (he ▸ hin)
    refine hold.touched htouched fun t hav f hmem he => ?_
    have hbelow := htakes.below hsorted hmem
    rw [← he] at hbelow
    have hin : InRam table b.val.poolEnd t pageSize := hav
    exact absurd hin.lower (Nat.not_le_of_lt hbelow)

end Call

end DevOS.Arch
