import DevOS.Arch.VmmCost

/-!
# Page tables — the direct map is built, or faults

The tables that `vmm_map_hhdm` needs follow from the memory map alone
(`hhdmTables`): those above every page of an entry, and the page table of the
VGA window unless a large page lies there. It draws a frame for each of them, or
all there are, the lowest first. So whether it faults is decided by how many of
the frames lie below the end of the identity map.
-/

namespace DevOS.Arch

open DevOS.Lib

variable {kernel : KernelImage} {table : List E820Entry} {pml4 : Nat}
  {N : Set (List (Fin 512))} {frames : List Nat}

/-! ## The tables the memory map needs -/

/-- The tables of the pages of some entries. -/
def entryTables (entries : List E820Entry) : Set (List (Fin 512)) :=
  {q | ∃ e ∈ entries, TableOf True (hhdmBase + e.addr) (hhdmBase + e.stop) q}

/-- The first 2 MiB are a large page of an entry that is mapped. -/
def LowLarge (table : List E820Entry) : Prop :=
  ∃ e ∈ table, present (hhdmFlags e.type) = true ∧ Slot e.addr e.stop 0

/-- The tables that `vmm_map_hhdm` needs: those of the pages of every entry, and
of the VGA window unless a large page shows it. -/
def hhdmTables (table : List E820Entry) : Set (List (Fin 512)) :=
  entryTables table ∪
    {q | ¬ LowLarge table ∧ TableOf True (hhdmBase + 0xA0000) (hhdmBase + 0xC0000) q}

theorem hhdmTables_length {q : List (Fin 512)} (h : q ∈ hhdmTables table) : q.length ≤ 3 := by
  obtain ⟨e, -, hq⟩ | ⟨-, hq⟩ := h
  · exact hq.length_le
  · exact hq.length_le

/-- What the entries `done` put into the window. -/
def wantedOf (done : List E820Entry) : Nat → Option Word := done.foldl extendEntry fun _ => none

section Loop

variable {hspan : ∀ e ∈ table, e.stop ≤ hhdmSpan} {s₀ : Vmm (LiveBootmem kernel table)}
  {K : KernelTables} (hsorted : table.Pairwise fun e f => e.stop ≤ f.addr)
  (hshort : ∀ q ∈ N, q.length ≤ 3)

include hsorted hshort

/-- One entry. -/
theorem HhdmCost.entry {acc : Nat × Vmm (LiveBootmem kernel table)} {e : E820Entry}
    {done : List E820Entry}
    (h : HhdmCost hspan frames (virtToPhys K.kernPml4) N (entryTables done) s₀ acc.2
      (wantedOf done) (InEntries done))
    (hstop : e.stop ≤ hhdmSpan) (hdone : ∀ d ∈ done, d.stop ≤ e.addr)
    (hmem : ∀ q, TableOf True (hhdmBase + e.addr) (hhdmBase + e.stop) q → q ∈ N) :
    HhdmCost hspan frames (virtToPhys K.kernPml4) N (entryTables (done ++ [e])) s₀
      (mapHhdmEntry (bootmemSource kernel hspan .identity) K acc e).2 (wantedOf (done ++ [e]))
      (InEntries (done ++ [e])) := by
  have hrun := h.run.entry hstop hdone
  have hb : hhdmBase = 0xFFFF888000000000 := rfl
  have hs : hhdmSpan = 0x400000000000 := rfl
  have hsum : hhdmBase + e.stop = hhdmBase + e.addr + e.size := (Nat.add_assoc _ _ _).symm
  rw [hsum] at hmem
  have hwrap : (hhdmBase + e.addr) % 2 ^ 64 = hhdmBase + e.addr := by
    unfold E820Entry.stop at hstop
    exact Nat.mod_eq_of_lt (by omega)
  have hrange := h.range hsorted hshort hstop (hhdmFlags_ok e.type) ?_ ?_ hmem
  · have hwanted : extendEntry (wantedOf done) e = wantedOf (done ++ [e]) := by
      rw [wantedOf, wantedOf, List.foldl_append]
      rfl
    rw [hwanted] at hrun
    unfold mapHhdmEntry at hrun ⊢
    rw [hwrap] at hrun ⊢
    refine ⟨hrun, hrange.draws, hrange.there.imp id fun hthere q hq => hthere q ?_⟩
    obtain ⟨f, hf, hq⟩ := hq
    rcases List.mem_append.mp hf with hf | hf
    · exact .inl ⟨f, hf, hq⟩
    · rw [List.mem_singleton.mp hf, hsum] at hq
      exact .inr hq
  · rintro x hx1 hx2 ⟨d, hd, hcov⟩
    have hle := hdone d hd
    have hlt := hcov.2
    omega
  · intro x hx1 hx2
    refine foldl_extendEntry_of_not_mem done (fun d hd hpage => ?_) rfl
    have hle := hdone d hd
    obtain ⟨hlo, hhi⟩ := (d.hasPage_iff x).mp hpage
    obtain ⟨-, -, h1, -⟩ := hhdm_boundaries e.addr e.size
    have h2 : lastPage d.stop ≤ d.stop := by
      unfold lastPage
      omega
    omega

/-- **The loop of `vmm_map_hhdm`.** -/
theorem HhdmCost.entries (rest : List E820Entry) : ∀ {done : List E820Entry}
    (acc : Nat × Vmm (LiveBootmem kernel table)),
    (done ++ rest).Pairwise (fun e f => e.stop ≤ f.addr) → (∀ e ∈ rest, e.stop ≤ hhdmSpan) →
    (∀ q ∈ entryTables rest, q ∈ N) →
    HhdmCost hspan frames (virtToPhys K.kernPml4) N (entryTables done) s₀ acc.2 (wantedOf done)
      (InEntries done) →
    HhdmCost hspan frames (virtToPhys K.kernPml4) N (entryTables (done ++ rest)) s₀
      (rest.foldl (mapHhdmEntry (bootmemSource kernel hspan .identity) K) acc).2
      (wantedOf (done ++ rest)) (InEntries (done ++ rest)) := by
  induction rest with
  | nil =>
      intro done acc _ _ _ h
      rw [List.append_nil]
      exact h
  | cons e rest ih =>
      intro done acc hsort hstop hmem h
      have hdone : ∀ d ∈ done, d.stop ≤ e.addr := fun d hd =>
        (List.pairwise_append.mp hsort).2.2 d hd e List.mem_cons_self
      have hassoc : done ++ e :: rest = done ++ [e] ++ rest := by simp
      rw [List.foldl_cons, hassoc]
      rw [hassoc] at hsort
      refine ih _ hsort (fun f hf => hstop f (List.mem_cons_of_mem _ hf)) ?_
        (h.entry hsorted hshort (hstop e List.mem_cons_self) hdone fun q hq =>
          hmem q ⟨e, List.mem_cons_self, hq⟩)
      rintro q ⟨f, hf, hq⟩
      exact hmem q ⟨f, List.mem_cons_of_mem _ hf, hq⟩

end Loop

/-! ## The VGA window -/

theorem wantedOf_some {p : Nat} (h : wantedOf table p ≠ none) :
    ∃ e ∈ table, e.HasPage p ∧ present (hhdmFlags e.type) = true := by
  by_contra hno
  refine h (foldl_extendEntry_of_not_mem table (fun e he hpage hpres => hno ⟨e, he, hpage, hpres⟩)
    rfl)

/-- The page table of the VGA window. -/
theorem regionPath_vga {p : Nat} (h : p < largePageSize) :
    regionPath (hhdmBase + p) = regionPath hhdmBase := by
  have hb : hhdmBase = 0xFFFF888000000000 := rfl
  have hl : largePageSize = 0x200000 := rfl
  rw [regionPath_inj]
  omega

/-- A page of the VGA window, counted from `HHDM_BASE`. -/
theorem vga_page {v : Nat} (h1 : hhdmBase + 0xA0000 ≤ v)
    (h2 : v + pageSize ≤ hhdmBase + 0xC0000) :
    ∃ p, v = hhdmBase + p ∧ 0xA0000 ≤ p ∧ p + pageSize ≤ 0xC0000 := by
  obtain ⟨q, rfl⟩ := Nat.exists_eq_add_of_le h1
  refine ⟨0xA0000 + q, Nat.add_assoc _ _ _, Nat.le_add_right _ _, ?_⟩
  rw [Nat.add_assoc, Nat.add_assoc] at h2
  have hle := Nat.le_of_add_le_add_left h2
  omega

/-- The window is shorter than a large page. -/
theorem not_slot_vga (w : Nat) : ¬ Slot (hhdmBase + 0xA0000) (hhdmBase + 0xC0000) w := by
  rintro ⟨-, h1, h2⟩
  have hle := (Nat.add_le_add_right h1 largePageSize).trans h2
  rw [Nat.add_assoc] at hle
  exact absurd (Nat.le_of_add_le_add_left hle) (by decide)

theorem tableOf_vga {q : List (Fin 512)}
    (h : TableOf True (hhdmBase + 0xA0000) (hhdmBase + 0xC0000) q) : q <+: regionPath hhdmBase := by
  have hl : largePageSize = 0x200000 := rfl
  obtain ⟨-, ⟨v, -, h1, h2, -, hpre⟩ | ⟨-, w, hslot, -⟩⟩ := h
  · obtain ⟨p, rfl, -, hp⟩ := vga_page h1 h2
    rwa [regionPath_vga (by omega)] at hpre
  · exact absurd hslot (not_slot_vga w)

/-- An entry that shows a page of the VGA window does so through a page table,
unless it has the large page at 0. -/
theorem low_of_wanted {p : Nat} (h1 : 0xA0000 ≤ p) (h2 : p < 0xC0000)
    (hwant : wantedOf table p ≠ none) (hlow : ¬ LowLarge table) :
    regionPath hhdmBase ∈ entryTables table := by
  have hb : hhdmBase = 0xFFFF888000000000 := rfl
  have hl : largePageSize = 0x200000 := rfl
  have hp : pageSize = 4096 := rfl
  obtain ⟨e, he, ⟨hlo, hhi⟩, hpres⟩ := wantedOf_some hwant
  refine ⟨e, he, by simp [regionPath], .inl ⟨hhdmBase + p / 4096 * 4096, ?_, by omega, by omega,
    fun _ hslot => hlow ⟨e, he, hpres, ?_⟩, ?_⟩⟩
  · rw [hp]
    omega
  · have hzero : (hhdmBase + p / 4096 * 4096) / largePageSize * largePageSize = hhdmBase := by
      rw [hl]
      omega
    obtain ⟨-, hslo, hshi⟩ := hslot
    rw [hzero] at hslo hshi
    exact ⟨Nat.dvd_zero _, by omega, by omega⟩
  · rw [regionPath_vga (by omega)]

section Vga

variable {hspan : ∀ e ∈ table, e.stop ≤ hhdmSpan} {s₀ s : Vmm (LiveBootmem kernel table)}
  {D : Set (List (Fin 512))} (hsorted : table.Pairwise fun e f => e.stop ≤ f.addr)

include hsorted

/-- One page of the VGA window. -/
theorem HhdmCost.vgaStep {p x : Nat} {want' : Nat → Option Word} {touched touched' : Nat → Prop}
    (h : HhdmCost hspan frames (virtToPhys pml4) (hhdmTables table) (entryTables table ∪ D) s₀ s
      (extend (wantedOf table) vgaFlags 0xA0000 p) touched)
    (hlo : 0xA0000 ≤ p) (hhi : p + pageSize ≤ 0xC0000) (hv : pageSize ∣ hhdmBase + p)
    (hx : pageSize ∣ x)
    (hrun : HhdmRun (bootmemSource kernel hspan .identity) (virtToPhys pml4) s₀
      (setUnit (bootmemSource kernel hspan .identity) pml4 vgaFlags false s (hhdmBase + p) x).2
      want' touched') :
    HhdmCost hspan frames (virtToPhys pml4) (hhdmTables table)
      (entryTables table ∪ {q | ¬ LowLarge table ∧ q = regionPath hhdmBase}) s₀
      (setUnit (bootmemSource kernel hspan .identity) pml4 vgaFlags false s (hhdmBase + p) x).2
      want' touched' := by
  have hb : hhdmBase = 0xFFFF888000000000 := rfl
  have hs : hhdmSpan = 0x400000000000 := rfl
  have hl : largePageSize = 0x200000 := rfl
  have hp : pageSize = 4096 := rfl
  have hregion : regionPath (hhdmBase + p) = regionPath hhdmBase := regionPath_vga (by omega)
  have hcanon : Canonical (hhdmBase + p) := by
    unfold Canonical
    omega
  have hat : extend (wantedOf table) vgaFlags 0xA0000 p p = wantedOf table p :=
    extend_outside (by omega)
  by_cases hshown : s.denied = false ∧ wantedOf table p ≠ none
  · -- shown by an entry: nothing happens
    obtain ⟨hgranted, hwant⟩ := hshown
    have hleaf : s.leafAt (virtToPhys pml4) (pathOf (hhdmBase + p)) ≠ none := by
      intro hnone
      rcases h.run.shows with hden | hshows
      · rw [hgranted] at hden
        cases hden
      · have hc := hshows.contents p (by omega)
        rw [hat] at hc
        refine hwant (hc.eq_none ?_)
        rw [Vmm.translate, if_pos hcanon, hnone]
        rfl
    rw [setPage_shown h.run.ok hleaf] at hrun ⊢
    refine ⟨hrun, h.draws, (h.subset ?_).there⟩
    rintro q (hq | ⟨hlow, rfl⟩)
    · exact .inl hq
    · exact .inl (low_of_wanted (by omega) (by omega) hwant hlow)
  · have hnew : s.denied = false → wantedOf table p = none := fun hgranted =>
      not_not.mp fun hwant => hshown ⟨hgranted, hwant⟩
    refine (h.unit hsorted (fun q => hhdmTables_length) false hcanon hv hx hrun
      (fun hgranted q hq hpre hne => .inr ⟨?_, ?_⟩) fun hgranted => ?_).subset ?_
    · -- a large page at 0 would show the page
      rintro ⟨e, he, hpres, -, hzero, hstop⟩
      have hpage : e.HasPage p := by
        unfold E820Entry.HasPage
        omega
      have hsome : wantedOf table p = some (hhdmFlags e.type) :=
        foldl_extendEntry_of_mem hpage hpres table hsorted he rfl
      exact absurd (hsome.symm.trans (hnew hgranted)) (Option.some_ne_none _)
    · refine tableOf_small (Nat.add_le_add_left hlo _) ?_ hv (fun _ => not_slot_vga _) hq hpre hne
      rw [Nat.add_assoc]
      exact Nat.add_le_add_left hhi _
    · exact h.run.hidden (by omega) (hat.trans (hnew hgranted)) hgranted
    · rintro q (hq | ⟨-, rfl⟩)
      · exact .inr (.inl hq)
      · exact .inl hregion.symm

/-- **The VGA window**, after which every table of the direct map is there. -/
theorem HhdmCost.vga
    (h : HhdmCost hspan frames (virtToPhys pml4) (hhdmTables table) (entryTables table) s₀ s
      (wantedOf table) (InEntries table)) :
    HhdmCost hspan frames (virtToPhys pml4) (hhdmTables table) (hhdmTables table) s₀
      (setRange (bootmemSource kernel hspan .identity) s pml4 (hhdmBase + 0xA0000) 0xA0000 0x20000
        vgaFlags false).2
      (extend (wantedOf table) vgaFlags 0xA0000 0xC0000)
      (touch (InEntries table) 0xA0000 0xC0000) := by
  have hin : 0xA0000 + 0x20000 ≤ hhdmSpan := by decide
  have hf : FlagsOk vgaFlags := by
    unfold FlagsOk
    decide
  have hend : hhdmBase + 0xA0000 + 0x20000 = hhdmBase + 0xC0000 := Nat.add_assoc _ _ _
  obtain ⟨hfirst, hlast, -, -⟩ := hhdm_boundaries 0xA0000 0x20000
  have hlo : firstPage 0xA0000 = 0xA0000 := rfl
  have hhi : lastPage (0xA0000 + 0x20000) = 0xC0000 := rfl
  rw [hlo] at hfirst
  rw [hhi] at hlast
  have hwalk := setRange_walk (A := bootmemSource kernel hspan .identity) pml4 vgaFlags (s := s)
    (M := fun v _ s => HhdmCost hspan frames (virtToPhys pml4) (hhdmTables table)
      (entryTables table ∪
        {q | v ≠ hhdmBase + 0xA0000 ∧ ¬ LowLarge table ∧ q = regionPath hhdmBase}) s₀ s
      (extend (wantedOf table) vgaFlags 0xA0000 (v - hhdmBase))
      (touch (InEntries table) 0xA0000 (v - hhdmBase)))
    (rangeOk_hhdm hin) (by decide) (by rw [hfirst, hlast]; decide) (by decide) ⟨?_, ?_⟩ ?_
  · rw [hlast, Nat.add_sub_cancel_left] at hwalk
    refine hwalk.initial fun q hq => ?_
    rcases hq with hq | ⟨hlow, hq⟩
    · exact ⟨q, .inl hq, List.prefix_rfl⟩
    · exact ⟨regionPath hhdmBase, .inr ⟨by decide, hlow, rfl⟩, tableOf_vga hq⟩
  · intro v f s hM h1 h2 hv hx _
    rw [hend] at h2
    have hrun := hhdmRun_step hin hf (.inr (by decide)) false v 0 s hM.run (hfirst ▸ h1)
      (hlast ▸ h2) hv hx
    obtain ⟨p, rfl, hplo, hphi⟩ := vga_page h1 h2
    rw [Nat.add_sub_cancel_left] at hM
    refine (hM.vgaStep hsorted hplo hphi hv hx hrun).subset ?_
    exact Set.union_subset_union_right _ fun q hq => hq.2
  · intro v f s _ _ hslot _
    rw [hend] at hslot
    exact absurd hslot (not_slot_vga v)
  · rw [hfirst, Nat.add_sub_cancel_left]
    refine ⟨?_, h.draws, h.there.imp id fun hthere q hq => ?_⟩
    · rw [extend_self]
      exact h.run.mono fun x hx => .inl hx
    · rcases hq with hq | ⟨hne, -⟩
      · exact hthere q hq
      · exact absurd rfl hne

end Vga

/-! ## From `vmm_init` on -/

/-- The tables of a range of the window lie above addresses of the window. -/
theorem TableOf.inWindow {lo hi : Nat} {q : List (Fin 512)}
    (h : TableOf True (hhdmBase + lo) (hhdmBase + hi) q) (hhi : hi ≤ hhdmSpan) :
    ∃ a, InWindow a ∧ q ≠ [] ∧ q <+: regionPath a := by
  have hp : pageSize = 4096 := rfl
  have hl : largePageSize = 0x200000 := rfl
  obtain ⟨hq, ⟨v, -, h1, h2, -, hpre⟩ | ⟨-, w, ⟨-, h1, h2⟩, hpre⟩⟩ := h
  · exact ⟨v, ⟨by omega, by omega⟩, hq, hpre⟩
  · exact ⟨w, ⟨by omega, by omega⟩, hq, hpre.trans ⟨[pdIdx w], rfl⟩⟩

theorem hhdmTables_inWindow (hspan : ∀ e ∈ table, e.stop ≤ hhdmSpan) {q : List (Fin 512)}
    (h : q ∈ hhdmTables table) : ∃ a, InWindow a ∧ q ≠ [] ∧ q <+: regionPath a := by
  obtain ⟨e, he, hq⟩ | ⟨-, hq⟩ := h
  · exact hq.inWindow (hspan e he)
  · exact hq.inWindow (by decide)

/-- None of them is there after `vmm_init`. -/
theorem InitWords.missing_window {σ : Type} {K : KernelTables} {s : Vmm σ} (h : InitWords K s)
    {a : Nat} (ha : InWindow a) {q : List (Fin 512)} (hq : q ≠ []) (hpre : q <+: regionPath a) :
    s.tableAt (virtToPhys K.kernPml4) q = none := by
  have hb : hhdmBase = 0xFFFF888000000000 := rfl
  have hs : hhdmSpan = 0x400000000000 := rfl
  obtain ⟨h1, h2⟩ := ha
  have hslot : (pml4Idx a).val = a / 2 ^ 39 % 512 := Fin.val_ofNat ..
  have hne : pml4Idx a ≠ 511 ∧ pml4Idx a ≠ 0 := by
    constructor <;> intro heq <;> rw [heq] at hslot
    · have : (511 : Nat) = a / 2 ^ 39 % 512 := hslot
      omega
    · have : (0 : Nat) = a / 2 ^ 39 % 512 := hslot
      omega
  cases q with
  | nil => exact absurd rfl hq
  | cons i q =>
      obtain ⟨rfl, -⟩ := List.cons_prefix_cons.mp hpre
      have hchild := (h.child (pml4Idx a)).1
      rw [if_neg hne.1, if_neg hne.2] at hchild
      simp only [Vmm.tableAt, nodeAt, hchild]

/-- There is always something to map: the VGA window. -/
theorem hhdmTables_nonempty (table : List E820Entry) : (hhdmTables table).Nonempty := by
  have hb : hhdmBase = 0xFFFF888000000000 := rfl
  by_cases hlow : LowLarge table
  · obtain ⟨e, he, -, -, hlo, hhi⟩ := hlow
    refine ⟨[pml4Idx hhdmBase], .inl ⟨e, he, by simp, .inr ⟨trivial, hhdmBase, ⟨?_, ?_, ?_⟩, ?_⟩⟩⟩
    · decide
    · omega
    · omega
    · exact ⟨[pdptIdx hhdmBase], rfl⟩
  · refine ⟨regionPath (hhdmBase + 0xA0000), .inr ⟨hlow, by simp [regionPath], .inl
      ⟨hhdmBase + 0xA0000, by decide, le_rfl, by decide, fun _ => not_slot_vga _,
        List.prefix_rfl⟩⟩⟩

section Boot

variable {K : KernelTables} {b : Bootmem}

/-- **`vmm_map_hhdm` after `vmm_init`** draws a frame for every table it needs,
or all there are. -/
theorem vmmMapHhdm_cost (K : KernelTables) (hK : K.InImage kernel)
    (hsorted : table.Pairwise fun e f => e.stop ≤ f.addr)
    (hspan : ∀ e ∈ table, e.stop ≤ hhdmSpan) (live : LiveBootmem kernel table) :
    ∃ s : Vmm (LiveBootmem kernel table),
      (vmmMapHhdm (bootmemSource kernel hspan .identity) K (vmmInit K live) table).2 =
        { s with mode := .transition } ∧
      HhdmCost hspan (framesFrom live.val.poolEnd table) (virtToPhys K.kernPml4)
        (hhdmTables table) (hhdmTables table) (vmmInit K live) s
        (extend (wantedOf table) vgaFlags 0xA0000 0xC0000)
        (touch (InEntries table) 0xA0000 0xC0000) := by
  have hwords := vmmInit_words K live
  obtain ⟨hgranted, hreached⟩ := vmmInit_ghosts K live
  have hempty := vmmInit_window K live
  have hsource := vmmInit_source K live
  have hok : TreeOk (bootmemSource kernel hspan .identity) (virtToPhys K.kernPml4)
      (vmmInit K live) := by
    refine hwords.treeOk ?_
    rw [hsource]
    exact bootmem_unavail hK live.property
  have hstart : HhdmCost hspan (framesFrom live.val.poolEnd table) (virtToPhys K.kernPml4)
      (hhdmTables table) (entryTables []) (vmmInit K live) (vmmInit K live) (wantedOf [])
      (InEntries []) := by
    refine ⟨⟨hok, by rw [show (vmmInit K live).mode = .identity from rfl]; decide,
      fun _ _ => rfl, .inr ⟨hempty.contents, fun p hp hpt => ?_⟩⟩,
      ⟨0, rfl, by rw [hsource, List.drop_zero], Nat.zero_le _, ?_, .inl ⟨hgranted, ?_⟩⟩, .inr ?_⟩
    · obtain ⟨-, hx, -⟩ := hempty.tables p hp hpt
      exact hx.elim
    · rw [hreached, List.take_zero]
      exact iff_of_true rfl fun _ h => absurd h List.not_mem_nil
    · have hall : missing (virtToPhys K.kernPml4) (hhdmTables table) (vmmInit K live) =
          hhdmTables table := by
        refine Set.Subset.antisymm (fun q hq => hq.1) fun q hq => ⟨hq, ?_⟩
        obtain ⟨a, ha, hne, hpre⟩ := hhdmTables_inWindow hspan hq
        exact hwords.missing_window ha hne hpre
      rw [hall, Nat.add_zero]
    · rintro q ⟨e, he, -⟩
      exact absurd he List.not_mem_nil
  have hloop := HhdmCost.entries hsorted (fun q => hhdmTables_length) table (0, vmmInit K live)
    (by rwa [List.nil_append]) hspan (fun q hq => .inl hq) hstart
  rw [List.nil_append] at hloop
  refine ⟨_, ?_, hloop.vga hsorted⟩
  have hmode : (vmmInit K live).mode = .identity := rfl
  rw [vmmMapHhdm, if_neg (not_not.mpr hmode)]

/-- **Where the direct map faults**: among the lowest frames of RAM, as many as
it needs tables. -/
theorem vmmMapHhdm_faulted (K : KernelTables) (hK : K.InImage kernel)
    (hsorted : table.Pairwise fun e f => e.stop ≤ f.addr)
    (hspan : ∀ e ∈ table, e.stop ≤ hhdmSpan) (live : LiveBootmem kernel table) :
    (vmmMapHhdm (bootmemSource kernel hspan .identity) K (vmmInit K live) table).2.faulted =
        false ↔
      (hhdmTables table).ncard ≤ (lowFrames table live.val.poolEnd).ncard ∨
        ∀ f ∈ ramFrames table live.val.poolEnd, f * pageSize + pageSize ≤ lowMapEnd := by
  obtain ⟨s, hs, hcost⟩ := vmmMapHhdm_cost K hK hsorted hspan live
  obtain ⟨k, hdraw⟩ := hcost.draws
  -- all that is needed, or all there is
  have htake : (framesFrom live.val.poolEnd table).take k =
      (framesFrom live.val.poolEnd table).take (hhdmTables table).ncard := by
    rcases hdraw.count with ⟨hgranted, hcount⟩ | ⟨-, hall, hless⟩
    · have hnone : missing (virtToPhys K.kernPml4) (hhdmTables table) s = ∅ := by
        refine Set.eq_empty_iff_forall_notMem.mpr fun q hq => ?_
        rcases hcost.there with hden | hthere
        · rw [hgranted] at hden
          cases hden
        · exact (hthere q hq.1).2 hq.2
      rw [hnone, Set.ncard_empty, Nat.zero_add] at hcount
      rw [hcount]
    · rw [List.take_of_length_le hall.ge, List.take_of_length_le (hall ▸ hless.le)]
  have hdown : ∀ x y, x < y → y * pageSize + pageSize ≤ lowMapEnd →
      x * pageSize + pageSize ≤ lowMapEnd := fun x y hxy hy =>
    (Nat.add_le_add_right (Nat.mul_le_mul_right _ hxy.le) _).trans hy
  rw [hs, lowFrames_ncard _ hsorted]
  show s.faulted = false ↔ _
  rw [hdraw.fault, htake, take_below_iff hdown _ _ (framesFrom_sorted _ hsorted)]
  simp only [mem_framesFrom]

/-- `vmm_map_hhdm` took `s₀` to `s` without a fault and, unless a table was
denied, with the direct map the memory map asks for and every other translation
as it was. -/
structure HhdmBuilt {σ : Type} (table : List E820Entry) (root : Nat) (s₀ s : Vmm σ) : Prop where
  reached : s.faulted = false
  shown : s.denied = false → ∀ p, p < 2 ^ 46 → HhdmContents table (s.translate root) p
  outside : s.denied = false → ∀ a, ¬ (hhdmBase ≤ a ∧ a < hhdmBase + 2 ^ 46) →
    s.translate root a = s₀.translate root a

/-- **The direct map after boot**: with tables from bootmem, `vmm_map_hhdm`
builds the direct map that the memory map asks for exactly when it needs no more
tables than there are whole pages of RAM between the start of the pool and
`low_map_end`, or no whole page of RAM reaches beyond it. Otherwise it faults
when it clears a table. -/
theorem vmmMapHhdm_built_iff (kernel : KernelImage) (table : List E820Entry) (K : KernelTables)
    (hK : K.InImage kernel) (hsorted : table.Pairwise fun e f => e.stop ≤ f.addr)
    (hspan : ∀ e ∈ table, e.stop ≤ hhdmSpan) (b : Bootmem)
    (hboot : bootmemInit kernel table .boot = .ok (0, b)) :
    HhdmBuilt table (virtToPhys K.kernPml4)
        (vmmInit K ⟨b, PoolInv.init (ramBelow_of_span hspan) hboot⟩)
        (vmmMapHhdm (bootmemSource kernel hspan .identity) K
          (vmmInit K ⟨b, PoolInv.init (ramBelow_of_span hspan) hboot⟩) table).2 ↔
      (hhdmTables table).ncard ≤ (lowFrames table b.poolStart).ncard ∨
        ∀ f ∈ ramFrames table b.poolStart, f * pageSize + pageSize ≤ lowMapEnd := by
  have hfault := vmmMapHhdm_faulted K hK hsorted hspan
    ⟨b, PoolInv.init (ramBelow_of_span hspan) hboot⟩
  rw [show (⟨b, PoolInv.init (ramBelow_of_span hspan) hboot⟩ : LiveBootmem kernel table).val.poolEnd
    = b.poolStart from bootmemInit_poolEnd hboot] at hfault
  obtain ⟨houtside, hshown⟩ := vmmMapHhdm_bootmem K hK hsorted hspan hboot
  refine ⟨fun h => hfault.mp h.reached, fun h => ⟨hfault.mpr h, fun hgranted => ?_,
    fun _ => houtside⟩⟩
  rcases hshown with hden | hall
  · rw [hden] at hgranted
    cases hgranted
  · exact hall

end Boot

theorem holeTable_span : ∀ e ∈ holeTable, e.stop ≤ hhdmSpan := by decide

theorem holeTable_init :
    bootmemInit ⟨0x30000, by decide⟩ holeTable .boot =
      .ok (0, ⟨0x230000, 0x230000, 0, 0, .enabled⟩) := by
  rfl

theorem vmmMapHhdm_built_iff_hole :
    HhdmBuilt holeTable (virtToPhys firstTables.kernPml4)
        (vmmInit firstTables
          ⟨_, PoolInv.init (ramBelow_of_span holeTable_span) holeTable_init⟩)
        (vmmMapHhdm (bootmemSource ⟨0x30000, by decide⟩ holeTable_span .identity) firstTables
          (vmmInit firstTables
            ⟨_, PoolInv.init (ramBelow_of_span holeTable_span) holeTable_init⟩) holeTable).2 ↔
      (hhdmTables holeTable).ncard ≤ (lowFrames holeTable 0x230000).ncard ∨
        ∀ f ∈ ramFrames holeTable 0x230000, f * pageSize + pageSize ≤ lowMapEnd :=
  vmmMapHhdm_built_iff ⟨0x30000, by decide⟩ holeTable firstTables
    (by unfold KernelTables.InImage; decide) (by decide) holeTable_span _ holeTable_init

theorem splitTable_span : ∀ e ∈ splitTable, e.stop ≤ hhdmSpan := by decide

/-- **The first table faults**: the pool starts at `low_map_end`. -/
theorem vmmMapHhdm_split_faults :
    ¬ ∀ (kernel : KernelImage) (table : List E820Entry) (K : KernelTables), K.InImage kernel →
      (table.Pairwise fun e f => e.stop ≤ f.addr) → ∀ (hspan : ∀ e ∈ table, e.stop ≤ hhdmSpan)
      (b : Bootmem) (hboot : bootmemInit kernel table .boot = .ok (0, b)),
      HhdmBuilt table (virtToPhys K.kernPml4)
        (vmmInit K ⟨b, PoolInv.init (ramBelow_of_span hspan) hboot⟩)
        (vmmMapHhdm (bootmemSource kernel hspan .identity) K
          (vmmInit K ⟨b, PoolInv.init (ramBelow_of_span hspan) hboot⟩) table).2 := by
  intro hall
  have hK : firstTables.InImage ⟨0x20000, by decide⟩ := by
    unfold KernelTables.InImage
    decide
  have hboot : bootmemInit ⟨0x20000, by decide⟩ splitTable .boot =
      .ok (0, ⟨0x40000000, 0x40000000, 1, 0, .enabled⟩) := by
    rfl
  have hbuilt := hall _ splitTable firstTables hK (by decide) splitTable_span _ hboot
  rcases (vmmMapHhdm_faulted firstTables hK (by decide) splitTable_span _).mp hbuilt.reached with
    hfew | hlow
  · -- no frame of the pool is in reach
    have hnone : lowFrames splitTable 0x40000000 = ∅ := by
      refine Set.eq_empty_iff_forall_notMem.mpr ?_
      rintro f ⟨⟨hlo, -⟩, hhi⟩
      unfold lowMapEnd pageSize at *
      omega
    rw [hnone, Set.ncard_empty] at hfew
    have hfin : (hhdmTables splitTable).Finite :=
      (List.finite_length_le (Fin 512) 3).subset fun q hq => hhdmTables_length hq
    exact absurd ((Set.ncard_pos hfin).mpr (hhdmTables_nonempty _)) (Nat.not_lt.mpr hfew)
  · have hfirst : 0x40000 ∈ ramFrames splitTable 0x40000000 :=
      ⟨by decide, by decide, by decide, ⟨0x40000000, 0x40000000, e820TypeRam⟩,
        by simp [splitTable], rfl, by decide, by decide⟩
    exact absurd (hlow 0x40000 hfirst) (by decide)

end DevOS.Arch
