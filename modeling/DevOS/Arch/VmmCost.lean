import DevOS.Arch.VmmEarly
import DevOS.Arch.VmmLeaves
import DevOS.Arch.VmmNeeds

/-!
# Page tables — what a range of the direct map costs

In `VMM_IDENTITY` bootmem gives the lowest frames of RAM that are left, and a
table is cleared through the identity map. A run that fills the window draws a
frame for each of its tables that is missing, until all frames are drawn
(`Drawing`), and leaves a table above each page it was to set (`HhdmCost`).
-/

namespace DevOS.Arch

open DevOS.Lib

variable {kernel : KernelImage} {table : List E820Entry} {root pml4 : Nat}
  {N : Set (List (Fin 512))} {frames : List Nat} {k : Nat} {flags : Word}

/-! ## Faults -/

/-- **A fault of the model is one of the machine**: as `vmm_map_hhdm` goes on,
what lies below `HHDM_BASE` is mapped exactly if it is in reach. -/
theorem HhdmRun.outOfReach_iff {σ : Type} {A : TableSource σ} {K : KernelTables} {source : σ}
    {s : Vmm σ} {want : Nat → Option Word} {touched : Nat → Prop}
    (h : HhdmRun A (virtToPhys K.kernPml4) (vmmInit K source) s want touched) {t : Nat}
    (hlow : t < hhdmBase) :
    outOfReach .identity t = true ↔ s.translate (virtToPhys K.kernPml4) t = none := by
  have hb : hhdmBase = 0xFFFF888000000000 := rfl
  have hk : kernelVmaStart = 0xFFFFFFFF80000000 := rfl
  rw [h.outside t fun hin => absurd hin.1 (by omega), (vmmInit_words K source).translate,
    outOfReach, decide_eq_true_iff]
  unfold lowMapEnd
  split
  · exact iff_of_false (by omega) (Option.some_ne_none _)
  · rw [if_neg (by omega)]
    exact iff_of_true ⟨rfl, by omega, hlow⟩ rfl

/-! ## Drawing tables -/

/-- Of the frames of RAM, `k` have become tables, and of the tables of `N` as
many are there; or all frames have, and these were too few. The run has faulted
if one of them lies beyond the identity map. -/
structure Drawing (frames : List Nat) (root : Nat) (N : Set (List (Fin 512))) (k : Nat)
    (s : Vmm (LiveBootmem kernel table)) : Prop where
  mode : s.mode = .identity
  left : framesFrom s.source.val.poolEnd table = frames.drop k
  taken : k ≤ frames.length
  fault : s.faulted = false ↔ ∀ f ∈ frames.take k, f * pageSize + pageSize ≤ lowMapEnd
  count : s.denied = false ∧ (missing root N s).ncard + k = N.ncard ∨
    s.denied = true ∧ k = frames.length ∧ k < N.ncard

/-- A frame is in reach if it lies below `low_map_end`. -/
theorem outOfReach_frame {f : Nat} (hlow : f * pageSize < hhdmBase) :
    outOfReach .identity (f * pageSize) = false ↔ f * pageSize + pageSize ≤ lowMapEnd := by
  rw [outOfReach, decide_eq_false_iff_not]
  unfold lowMapEnd pageSize at *
  constructor
  · intro h
    by_contra hhigh
    exact h ⟨rfl, by omega, hlow⟩
  · rintro h ⟨-, hhigh, -⟩
    omega

section Fetch

variable {hspan : ∀ e ∈ table, e.stop ≤ hhdmSpan} {s : Vmm (LiveBootmem kernel table)}
  (hsorted : table.Pairwise fun e f => e.stop ≤ f.addr) (hshort : ∀ q ∈ N, q.length ≤ 3)

include hsorted hshort

/-- A table is fetched or created: one of `N`, unless tables have run out. -/
theorem Drawing.fetch (h : Drawing frames root N k s) {p : List (Fin 512)} {t : Nat}
    {i : Fin 512} (hok : TreeOk (bootmemSource kernel hspan .identity) root s)
    (hp : p.length ≤ 2) (ht : s.tableAt root p = some (virtToPhys t))
    (hmem : s.denied = false → p ++ [i] ∈ N) :
    ∃ k, Drawing frames root N k
      (getOrCreateTable (bootmemSource kernel hspan .identity) s t i).2 := by
  have hframes := bootTable_frames (ramBelow_of_span hspan) hsorted .identity s.source
  have hnodes := getOrCreateTable_cases hok hp ht i
  revert hnodes
  generalize (getOrCreateTable (bootmemSource kernel hspan .identity) s t i) = res
  rintro (⟨hsame, -⟩ | ⟨hsame, -, hnone, hfail⟩ |
    ⟨ptr, -, halloc, hlink, hav, -, hsource, hmode, hfault, hdenied⟩)
  · rw [hsame]
    exact ⟨k, h⟩
  · -- no frame is left
    obtain ⟨hnil, hcall⟩ := hframes.resolve_right fun ⟨f, _, hptr⟩ =>
      absurd (hptr.symm.trans hfail) (Option.some_ne_none _)
    have hall : k = frames.length := by
      have hdrop := List.drop_eq_nil_iff.mp (h.left.symm.trans hnil)
      exact le_antisymm h.taken hdrop
    rw [hsame]
    refine ⟨k, h.mode, ?_, h.taken, h.fault, .inr ⟨rfl, hall, ?_⟩⟩
    · have hnext : (bootTable (ramBelow_of_span hspan) .identity s.source).2 = s.source := by
        rw [hcall]
      show framesFrom
        (bootTable (ramBelow_of_span hspan) .identity s.source).2.val.poolEnd table = _
      rw [hnext]
      exact h.left
    · rcases h.count with ⟨hgranted, hcount⟩ | ⟨-, -, hless⟩
      · have hpos := (Set.ncard_pos (missing_finite hshort)).mpr ⟨_, hmem hgranted, hnone⟩
        omega
      · exact hless
  · obtain ⟨-, hcall⟩ | ⟨f, hleft, hptr⟩ := hframes
    · exact absurd (halloc.symm.trans (congrArg Prod.fst hcall)) (Option.some_ne_none _)
    have hptr : ptr = f * pageSize := Option.some.inj (halloc.symm.trans hptr)
    subst hptr
    have hdrop := h.left.symm.trans hleft
    have hlt : k < frames.length := by
      by_contra hge
      rw [List.drop_eq_nil_of_le (Nat.le_of_not_lt hge)] at hdrop
      cases hdrop
    have hat : frames[k]? = some f := by
      rw [← List.head?_drop, hdrop]
      rfl
    have hlow : f * pageSize < hhdmBase := by
      have hframe : f ∈ ramFrames table s.source.val.poolEnd := by
        rw [← mem_framesFrom, hleft]
        exact List.mem_cons_self
      exact (hframe.lt_hhdmLimit hspan).trans (by decide)
    refine ⟨k + 1, hmode.trans h.mode, ?_, hlt, ?_, ?_⟩
    · rw [hsource]
      show framesFrom
        (bootTable (ramBelow_of_span hspan) .identity s.source).2.val.poolEnd table = _
      rw [← List.tail_drop, hdrop, List.tail_cons]
    · rw [hfault, h.mode, Bool.or_eq_false_iff, h.fault, outOfReach_frame hlow,
        List.take_add_one, hat, Option.toList_some, List.forall_mem_append,
        List.forall_mem_singleton]
    · rw [hdenied]
      rcases h.count with ⟨hgranted, hcount⟩ | ⟨-, hall, -⟩
      · have hone := hlink.missing hshort (hmem hgranted)
        exact .inl ⟨hgranted, by omega⟩
      · exact absurd hall hlt.ne

/-- **A page draws what its tables cost**: they are in `N`, unless tables have
run out. -/
theorem Drawing.unit (h : Drawing frames (virtToPhys pml4) N k s)
    (hok : TreeOk (bootmemSource kernel hspan .identity) (virtToPhys pml4) s) (large : Bool)
    (v x : Nat) (flags : Word)
    (hmem : s.denied = false →
      ∀ q, q ≠ [] → q <+: unitPath large v → q ≠ unitPath large v → q ∈ N) :
    ∃ k, Drawing frames (virtToPhys pml4) N k
      (setUnit (bootmemSource kernel hspan .identity) pml4 flags large s v x).2 := by
  have hleaf : ∀ (s : Vmm (LiveBootmem kernel table)) t i w,
      (∀ q, q.length ≤ 3 → (s.write t i w).tableAt (virtToPhys pml4) q =
        s.tableAt (virtToPhys pml4) q) →
      (∃ k, Drawing frames (virtToPhys pml4) N k s) →
      ∃ k, Drawing frames (virtToPhys pml4) N k (s.write t i w) := by
    rintro s t i w htables ⟨k, h⟩
    refine ⟨k, h.mode, h.left, h.taken, h.fault, ?_⟩
    rw [missing_congr hshort htables]
    exact h.count
  cases hden : s.denied with
  | false =>
      have hsteps : TableSteps (bootmemSource kernel hspan .identity) (virtToPhys pml4) N
          fun s => ∃ k, Drawing frames (virtToPhys pml4) N k s :=
        ⟨fun s p t i hok hp ht hin ⟨_, h⟩ => h.fetch hsorted hshort hok hp ht fun _ => hin, hleaf⟩
      exact hsteps.unit hok large v x flags (hmem hden) ⟨k, h⟩
  | true =>
      have hsteps : TableSteps (bootmemSource kernel hspan .identity) (virtToPhys pml4) Set.univ
          fun s => s.denied = true ∧ ∃ k, Drawing frames (virtToPhys pml4) N k s := by
        refine ⟨fun s p t i hok hp ht _ ⟨hden, _, h⟩ => ?_,
          fun s t i w htables ⟨hden, h⟩ => ⟨hden, hleaf s t i w htables h⟩⟩
        exact ⟨(getOrCreateTable_spec hok hp ht i).1.denied hden,
          h.fetch hsorted hshort hok hp ht fun hgranted => by rw [hden] at hgranted; cases hgranted⟩
      exact (hsteps.unit hok large v x flags (fun _ _ _ _ => Set.mem_univ _) ⟨hden, k, h⟩).2

end Fetch

/-! ## A page that is shown -/

section Shown

variable {σ : Type} {A : TableSource σ} {s : Vmm σ} {i : Fin 512}

theorem present_of_find {mem : Nat → Fin 512 → Word} {t : Nat} {p : List (Fin 512)}
    (h : find child leaf mem t (i :: p) ≠ none) : present (mem t i) = true := by
  by_contra hpres
  rw [Bool.not_eq_true] at hpres
  refine h ?_
  simp only [find, leaf_eq_none_of_not_present hpres, child_eq_none_of_not_present hpres]

theorem getOrCreateTable_present {t : Nat} (h : present (s.read t i) = true) :
    (getOrCreateTable A s t i).2 = s := by
  unfold getOrCreateTable
  by_cases hmode : s.mode = .early
  · rw [if_pos hmode]
  · rw [if_neg hmode]
    dsimp only
    rw [if_pos h]
    by_cases hpse : pse (s.read t i) = true
    · rw [if_pos hpse]
    · rw [if_neg hpse]

/-- On the way to a leaf no table is created. -/
theorem descend_shown (r : List (Fin 512)) : ∀ {p : List (Fin 512)} {t : Nat}, TreeOk A root s →
    p.length + r.length ≤ 3 → s.tableAt root p = some (virtToPhys t) →
    find child leaf s.mem (virtToPhys t) (r ++ [i]) ≠ none →
    (descend A s t r).2 = s ∧
      ∀ ptr, (descend A s t r).1 = some ptr → present (s.read ptr i) = true := by
  induction r with
  | nil =>
      intro p t _ _ _ hfind
      refine ⟨rfl, fun ptr hptr => ?_⟩
      cases hptr
      exact present_of_find hfind
  | cons j r ih =>
      intro p t hok hlen ht hfind
      rw [List.length_cons] at hlen
      have hpres : present (s.mem (virtToPhys t) j) = true := present_of_find hfind
      have hsame := getOrCreateTable_present (A := A) (s := s) (t := t) (i := j) hpres
      obtain ⟨-, hres⟩ := getOrCreateTable_spec hok (by omega) ht j
      rw [descend]
      revert hsame hres
      cases getOrCreateTable A s t j with
      | mk res s₁ =>
          rintro rfl hres
          obtain ⟨ptr, rfl, hptr⟩ | ⟨rfl, -⟩ := hres
          · refine ih hok ?_ hptr ?_
            · rw [List.length_append, List.length_singleton]
              omega
            · rw [tableAt_concat ht] at hptr
              have hnode : nodeAt child s₁.mem (virtToPhys t) [j] = some (virtToPhys ptr) := by
                simp only [nodeAt, hptr]
              rwa [← find_append leaf_succ_eq_none_of_child (by simp) hnode]
          · exact ⟨rfl, fun ptr hptr => by cases hptr⟩

/-- **A page that is shown already** is left with everything as it is. -/
theorem setPage_shown (hok : TreeOk A (virtToPhys pml4) s) {v : Nat}
    (hshown : s.leafAt (virtToPhys pml4) (pathOf v) ≠ none) (x : Nat) (flags : Word) :
    (setUnit A pml4 flags false s v x).2 = s := by
  show (setPage A s pml4 v x flags false).2 = s
  unfold setPage
  split
  · rfl
  · split
    · rfl
    · rw [getOrCreatePt_eq]
      obtain ⟨hsame, hpres⟩ := descend_shown (p := []) (i := ptIdx v)
        [pml4Idx v, pdptIdx v, pdIdx v] hok (by simp) rfl hshown
      revert hsame hpres
      cases descend A s pml4 [pml4Idx v, pdptIdx v, pdIdx v] with
      | mk res s₁ =>
          rintro rfl hpres
          cases res with
          | none => rfl
          | some pt =>
              simp only [hpres pt rfl, Bool.not_false, Bool.and_self, if_true]

end Shown

/-! ## The tables of a range -/

/-- Of the range `[lo, hi)`, the tables that hold its pages up to `v`. -/
def tablesUpTo (lo hi v : Nat) : Set (List (Fin 512)) :=
  {q | (∃ u, pageSize ∣ u ∧ lo ≤ u ∧ u + pageSize ≤ v ∧
      ¬ Slot lo hi (u / largePageSize * largePageSize) ∧ q = regionPath u) ∨
    ∃ w, Slot lo hi w ∧ w + largePageSize ≤ v ∧ q = [pml4Idx w, pdptIdx w]}

theorem tablesUpTo_first {lo hi v : Nat} (hv : v ≤ firstPage lo) : tablesUpTo lo hi v = ∅ := by
  refine Set.eq_empty_iff_forall_notMem.mpr ?_
  rintro q (⟨u, hu, hlo, hle, -⟩ | ⟨w, hw, hle, -⟩)
  · unfold firstPage pageSize at *
    omega
  · obtain ⟨-, hlo, -⟩ := hw
    unfold firstPage largePageSize at *
    omega

theorem tablesUpTo_small {lo hi v : Nat} (hv : pageSize ∣ v)
    (hno : ¬ Slot lo hi (v / largePageSize * largePageSize)) :
    tablesUpTo lo hi (v + pageSize) ⊆ insert (regionPath v) (tablesUpTo lo hi v) := by
  rintro q (⟨u, hu, hlo, hle, hslot, rfl⟩ | ⟨w, hw, hle, rfl⟩)
  · rcases Nat.lt_or_ge u v with hlt | hge
    · refine .inr (.inl ⟨u, hu, hlo, ?_, hslot, rfl⟩)
      unfold pageSize at *
      omega
    · obtain rfl : u = v := by omega
      exact .inl rfl
  · refine .inr (.inr ⟨w, hw, ?_, rfl⟩)
    by_contra hgt
    -- the page would lie in the slot
    have hsame : v / largePageSize * largePageSize = w := by
      have hd := hw.1
      unfold pageSize largePageSize at *
      omega
    exact hno (hsame ▸ hw)

theorem tablesUpTo_large {lo hi v : Nat} (hv : Slot lo hi v) :
    tablesUpTo lo hi (v + largePageSize) ⊆
      insert [pml4Idx v, pdptIdx v] (tablesUpTo lo hi v) := by
  have hdv := hv.1
  rintro q (⟨u, hu, hlo, hle, hslot, rfl⟩ | ⟨w, hw, hle, rfl⟩)
  · refine .inr (.inl ⟨u, hu, hlo, ?_, hslot, rfl⟩)
    by_contra hgt
    have hsame : u / largePageSize * largePageSize = v := by
      unfold pageSize largePageSize at *
      omega
    exact hslot (hsame ▸ hv)
  · have hdw := hw.1
    rcases Nat.lt_or_ge w v with hlt | hge
    · refine .inr (.inr ⟨w, hw, ?_, rfl⟩)
      unfold largePageSize at *
      omega
    · obtain rfl : w = v := by omega
      exact .inl rfl

/-- The tables of a range are those on the way to these. -/
theorem TableOf.initial {lo hi : Nat} {q : List (Fin 512)} (h : TableOf True lo hi q) :
    ∃ q' ∈ tablesUpTo lo hi (lastPage hi), q <+: q' := by
  obtain ⟨-, ⟨v, hv, hlo, hhi, hno, hpre⟩ | ⟨-, w, hw, hpre⟩⟩ := h
  · refine ⟨regionPath v, .inl ⟨v, hv, hlo, ?_, hno trivial, rfl⟩, hpre⟩
    unfold lastPage pageSize at *
    omega
  · refine ⟨_, .inr ⟨w, hw, ?_, rfl⟩, hpre⟩
    obtain ⟨hd, -, hhi⟩ := hw
    unfold lastPage largePageSize at *
    omega

/-! ## The run -/

section Run

variable {hspan : ∀ e ∈ table, e.stop ≤ hhdmSpan} {s₀ s : Vmm (LiveBootmem kernel table)}
  {want want' : Nat → Option Word} {touched touched' : Nat → Prop} {D D' : Set (List (Fin 512))}

/-- A run that fills the window, what it has drawn, and the tables `D` that are
there unless one was denied. -/
structure HhdmCost (hspan : ∀ e ∈ table, e.stop ≤ hhdmSpan) (frames : List Nat) (root : Nat)
    (N D : Set (List (Fin 512))) (s₀ s : Vmm (LiveBootmem kernel table))
    (want : Nat → Option Word) (touched : Nat → Prop) : Prop where
  run : HhdmRun (bootmemSource kernel hspan .identity) root s₀ s want touched
  draws : ∃ k, Drawing frames root N k s
  there : s.denied = true ∨ ∀ q ∈ D, q.length ≤ 3 ∧ s.tableAt root q ≠ none

/-- Tables on the way to a table are there too. -/
theorem HhdmCost.initial (h : HhdmCost hspan frames root N D s₀ s want touched)
    (hD : ∀ q ∈ D', ∃ q' ∈ D, q <+: q') :
    HhdmCost hspan frames root N D' s₀ s want touched := by
  refine ⟨h.run, h.draws, h.there.imp id fun hthere q hq => ?_⟩
  obtain ⟨q', hq', hpre⟩ := hD q hq
  obtain ⟨hlen, hat⟩ := hthere q' hq'
  exact ⟨hpre.length_le.trans hlen, nodeAt_of_initial hpre hat⟩

theorem HhdmCost.subset (h : HhdmCost hspan frames root N D s₀ s want touched) (hD : D' ⊆ D) :
    HhdmCost hspan frames root N D' s₀ s want touched :=
  h.initial fun q hq => ⟨q, hD hq, List.prefix_rfl⟩

/-- Where nothing is wanted, nothing is shown. -/
theorem HhdmRun.hidden {σ : Type} {A : TableSource σ} {s₀ s : Vmm σ}
    (h : HhdmRun A root s₀ s want touched) {p : Nat} (hp : p < hhdmSpan) (hwant : want p = none)
    (hgranted : s.denied = false) : s.translate root (hhdmBase + p) = none := by
  rcases h.shows with hden | hshows
  · rw [hden] at hgranted
    cases hgranted
  · have hshown := hshows.contents p hp
    rwa [hwant] at hshown

variable (hsorted : table.Pairwise fun e f => e.stop ≤ f.addr) (hshort : ∀ q ∈ N, q.length ≤ 3)

include hsorted hshort

/-- **One page** that nothing shows yet: its table is there afterwards. -/
theorem HhdmCost.unit (h : HhdmCost hspan frames (virtToPhys pml4) N D s₀ s want touched)
    (large : Bool) {v x : Nat} (hc : Canonical v) (hv : unitSize large ∣ v)
    (hx : unitSize large ∣ x)
    (hrun : HhdmRun (bootmemSource kernel hspan .identity) (virtToPhys pml4) s₀
      (setUnit (bootmemSource kernel hspan .identity) pml4 flags large s v x).2 want' touched')
    (hmem : s.denied = false →
      ∀ q, q ≠ [] → q <+: unitPath large v → q ≠ unitPath large v → q ∈ N)
    (hnew : s.denied = false → s.translate (virtToPhys pml4) v = none) :
    HhdmCost hspan frames (virtToPhys pml4) N (insert (unitPath large v).dropLast D) s₀
      (setUnit (bootmemSource kernel hspan .identity) pml4 flags large s v x).2 want' touched' := by
  obtain ⟨k, hdraw⟩ := h.draws
  refine ⟨hrun, hdraw.unit hsorted hshort h.run.ok large v x flags hmem, ?_⟩
  have hset := setUnit_leaf h.run.ok hv hx flags
  have hmode := hrun.mode
  revert hset hmode
  generalize setUnit (bootmemSource kernel hspan .identity) pml4 flags large s v x = res
  intro hset hmode
  rcases h.there with hden | hthere
  · exact .inl (hset.denied hden)
  cases hgranted : s.denied with
  | true => exact .inl (hset.denied hgranted)
  | false =>
      -- the walk goes through, unless a table is denied
      have hwalked : res.2.denied = true ∨
          res.2.tableAt (virtToPhys pml4) (unitPath large v).dropLast ≠ none := by
        rcases hset.walked with hat | hcov | hden | hearly
        · exact .inr hat
        · have hnone := hnew hgranted
          rw [Vmm.translate, if_pos hc, Option.map_eq_none_iff] at hnone
          exact absurd hnone (hcov _ rfl (unitPath_isInitial large v))
        · exact .inl hden
        · exact absurd hearly hmode
      refine hwalked.imp id fun hat q hq => ?_
      rcases hq with rfl | hq
      · refine ⟨?_, hat⟩
        cases large <;> simp [unitPath, pathOf, regionPath]
      · obtain ⟨hlen, hold⟩ := hthere q hq
        refine ⟨hlen, ?_⟩
        rcases hset.tables q hlen with heq | ⟨hnone, -⟩
        · rwa [heq]
        · exact absurd hnone hold

/-- One page more of a range of which nothing was wanted. -/
theorem HhdmCost.step {addr size v : Nat} (large : Bool)
    (h : HhdmCost hspan frames (virtToPhys pml4) N D s₀ s
      (extend want flags (firstPage addr) (v - hhdmBase))
      (touch touched (firstPage addr) (v - hhdmBase)))
    (hin : addr + size ≤ hhdmSpan) (hf : FlagsOk flags)
    (hfree : ∀ x, addr ≤ x → x < addr + size → ¬ touched x)
    (hwant : ∀ x, firstPage addr ≤ x → x < lastPage (addr + size) → want x = none)
    (hlo : hhdmBase + addr ≤ v) (hhi : v + unitSize large ≤ hhdmBase + addr + size)
    (hv : unitSize large ∣ v) (hx : unitSize large ∣ physAt (hhdmBase + addr) addr v)
    (hmem : ∀ q, q ≠ [] → q <+: unitPath large v → q ≠ unitPath large v → q ∈ N)
    (hD : D' ⊆ insert (unitPath large v).dropLast D) :
    HhdmCost hspan frames (virtToPhys pml4) N D' s₀
      (setUnit (bootmemSource kernel hspan .identity) pml4 flags large s v
        (physAt (hhdmBase + addr) addr v)).2
      (extend want flags (firstPage addr) (v + unitSize large - hhdmBase))
      (touch touched (firstPage addr) (v + unitSize large - hhdmBase)) := by
  have hb : hhdmBase = 0xFFFF888000000000 := rfl
  have hs : hhdmSpan = 0x400000000000 := rfl
  have hp : pageSize = 4096 := rfl
  obtain ⟨hfirst, hlast, -, hlastle⟩ := hhdm_boundaries addr size
  have hpage : pageSize ∣ v ∧ pageSize ≤ unitSize large ∧ pageSize ∣ v + unitSize large := by
    cases large with
    | true =>
        have hd : 0x200000 ∣ v := hv
        show 4096 ∣ v ∧ 4096 ≤ 0x200000 ∧ 4096 ∣ v + 0x200000
        omega
    | false => exact ⟨hv, le_rfl, Nat.dvd_add hv (Nat.dvd_refl _)⟩
  have hcursor : hhdmBase + firstPage addr ≤ v ∧
      v + unitSize large ≤ hhdmBase + lastPage (addr + size) := by
    rw [← hfirst, ← hlast]
    unfold firstPage lastPage pageSize at *
    omega
  have hrun := hhdmRun_step hin hf (.inl hfree) large v 0 s h.run (hfirst ▸ hcursor.1)
    (hlast ▸ hcursor.2) hv hx
  refine (h.unit hsorted hshort large (by unfold Canonical; omega) hv hx hrun (fun _ => hmem)
    fun hgranted => ?_).subset hD
  have hat : hhdmBase + (v - hhdmBase) = v := by omega
  rw [← hat]
  refine h.run.hidden (by omega) ?_ hgranted
  rw [extend_outside (by omega)]
  exact hwant _ (by omega) (by omega)

/-- **One range of the direct map**, of which nothing is wanted yet: the tables
of its pages are there afterwards. -/
theorem HhdmCost.range (h : HhdmCost hspan frames (virtToPhys pml4) N D s₀ s want touched)
    {addr size : Nat} (hin : addr + size ≤ hhdmSpan) (hf : FlagsOk flags)
    (hfree : ∀ x, addr ≤ x → x < addr + size → ¬ touched x)
    (hwant : ∀ x, firstPage addr ≤ x → x < lastPage (addr + size) → want x = none)
    (hmem : ∀ q, TableOf True (hhdmBase + addr) (hhdmBase + addr + size) q → q ∈ N) :
    HhdmCost hspan frames (virtToPhys pml4) N
      (D ∪ {q | TableOf True (hhdmBase + addr) (hhdmBase + addr + size) q}) s₀
      (setRange (bootmemSource kernel hspan .identity) s pml4 (hhdmBase + addr) addr size flags
        false).2
      (extend want flags (firstPage addr) (lastPage (addr + size)))
      (touch touched (firstPage addr) (lastPage (addr + size))) := by
  have hb : hhdmBase = 0xFFFF888000000000 := rfl
  have hs : hhdmSpan = 0x400000000000 := rfl
  have hr := rangeOk_hhdm hin
  obtain ⟨hfirst, hlast, hlo, hhi⟩ := hhdm_boundaries addr size
  have hall : ∀ {s : Vmm (LiveBootmem kernel table)} {want touched},
      HhdmCost hspan frames (virtToPhys pml4) N
        (D ∪ tablesUpTo (hhdmBase + addr) (hhdmBase + addr + size)
          (lastPage (hhdmBase + addr + size))) s₀ s want touched →
      HhdmCost hspan frames (virtToPhys pml4) N
        (D ∪ {q | TableOf True (hhdmBase + addr) (hhdmBase + addr + size) q}) s₀ s want
        touched := by
    refine fun h => h.initial fun q hq => ?_
    rcases hq with hq | hq
    · exact ⟨q, .inl hq, List.prefix_rfl⟩
    · obtain ⟨q', hq', hpre⟩ := TableOf.initial hq
      exact ⟨q', .inr hq', hpre⟩
  have hstart : HhdmCost hspan frames (virtToPhys pml4) N
      (D ∪ tablesUpTo (hhdmBase + addr) (hhdmBase + addr + size) (firstPage (hhdmBase + addr))) s₀
      s (extend want flags (firstPage addr) (firstPage (hhdmBase + addr) - hhdmBase))
      (touch touched (firstPage addr) (firstPage (hhdmBase + addr) - hhdmBase)) := by
    rw [tablesUpTo_first le_rfl, Set.union_empty, hfirst, Nat.add_sub_cancel_left, extend_self]
    exact ⟨h.run.mono fun x hx => .inl hx, h.draws, h.there⟩
  by_cases hlt : firstPage addr < lastPage (addr + size)
  · have hwalk := setRange_walk (A := bootmemSource kernel hspan .identity) pml4 flags (s := s)
      (M := fun v _ s => HhdmCost hspan frames (virtToPhys pml4) N
        (D ∪ tablesUpTo (hhdmBase + addr) (hhdmBase + addr + size) v) s₀ s
        (extend want flags (firstPage addr) (v - hhdmBase))
        (touch touched (firstPage addr) (v - hhdmBase))) hr
      (by unfold largePageSize; omega) (by omega) (by omega) ⟨?_, ?_⟩ hstart
    · have hdone := hall hwalk
      rwa [hlast, Nat.add_sub_cancel_left] at hdone
    · intro v f s hM h1 h2 hd hx hno
      refine hM.step hsorted hshort false hin hf hfree hwant h1 h2 hd hx
        (fun q hq hpre hne => hmem q (tableOf_small h1 h2 hd hno hq hpre hne)) ?_
      rw [← Set.union_insert]
      exact Set.union_subset_union_right D (tablesUpTo_small hd (hno trivial))
    · intro v f s hM _ hslot hx
      refine hM.step hsorted hshort true hin hf hfree hwant hslot.2.1 hslot.2.2
        hslot.1 hx (fun q hq hpre hne => hmem q (tableOf_large trivial hslot hq hpre hne)) ?_
      rw [← Set.union_insert]
      exact Set.union_subset_union_right D (tablesUpTo_large hslot)
  · rw [setRange_empty hr (by omega)]
    have hsame : extend want flags (firstPage addr) (lastPage (addr + size)) = want := by
      funext p
      exact extend_outside (by omega)
    rw [hsame]
    refine hall ?_
    rw [tablesUpTo_first (by omega), Set.union_empty]
    exact ⟨h.run.mono fun x hx => .inl hx, h.draws, h.there⟩

end Run

end DevOS.Arch
