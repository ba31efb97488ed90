import DevOS.Arch.VmmHasMapping
import DevOS.Arch.VmmHhdm
import DevOS.Arch.VmmTouch

/-!
# Page tables — the check and the mapping

`vmm_virt_range_has_mapping` looks for leaves; `set_large_page` also refuses a
2 MiB slot that has a page table, even one without entries. So after a check
that found nothing, `vmm_map` maps every byte exactly when no slot that it sets
as a large page has a page table. Physical addresses and flags play no part.
-/

namespace DevOS.Arch

open DevOS.Lib

variable {σ : Type} {A : TableSource σ} {root pml4 virt phys size lo hi : Nat}
  {s s' s₀ : Vmm σ} {flags : Word}

/-! ## `vmm_map` on whole pages -/

/-- A 2 MiB slot of a range. -/
def Slot (lo hi w : Nat) : Prop := largePageSize ∣ w ∧ lo ≤ w ∧ w + largePageSize ≤ hi

/-- `if (size) failed += set_pages(...)`, page by page; `q` gives the physical
address of each. -/
theorem addFailed_walk {M : Nat → Nat → Vmm σ → Prop} {v v' n x p : Nat} (q : Nat → Nat)
    (set : Vmm σ → Nat → Nat → Int × Vmm σ) (step : Nat) (acc : Nat × Vmm σ) (hpos : 0 < step)
    (hword : step ∣ 2 ^ 64) (hle : v ≤ v') (htop : v' ≤ 2 ^ 64) (hn : n = v' - v)
    (hat : v < v' → x = v ∧ step ∣ v ∧ step ∣ v' ∧ step ∣ p ∧
      ∀ u, v ≤ u → physAt v p u % 2 ^ 64 = q u)
    (hstep : ∀ u f s, M u f s → v ≤ u → u + step ≤ v' → step ∣ u → step ∣ q u →
      M (u + step) (f + if (set s u (q u)).1 ≠ 0 then step else 0) (set s u (q u)).2)
    (h0 : M v acc.1 acc.2) :
    M v' (addFailed n (fun s => setEach set step s x p n) acc).1
      (addFailed n (fun s => setEach set step s x p n) acc).2 := by
  rcases Nat.eq_or_lt_of_le hle with heq | hlt
  · have hzero : n = 0 := by omega
    rw [addFailed, if_neg (not_not.mpr hzero), ← heq]
    exact h0
  · obtain ⟨rfl, hv, hv', hp, hq⟩ := hat hlt
    have hsize : step ∣ v' - x := (Nat.dvd_sub hv' hv)
    have hend : x + (v' - x) = v' := by omega
    have hwalk := setEach_walk (s := acc.2) (g := acc.1) hpos hv hp hsize (by omega)
      (fun u f s hM h1 h2 h3 h4 => by
        have hdvd := (Nat.dvd_mod_iff hword).mpr h4
        rw [hq u h1] at hdvd ⊢
        exact hstep u f s hM h1 (by omega) h3 hdvd) h0
    rw [hend] at hwalk
    rw [addFailed, if_pos (by omega), hn]
    exact hwalk

/-- What setting the pages of a range must keep: small pages where no 2 MiB slot
of the range is, large ones on those slots. `q` gives the physical address of
each. -/
structure WalkSteps (A : TableSource σ) (pml4 : Nat) (flags : Word) (cong : Prop) (lo hi : Nat)
    (q : Nat → Nat) (M : Nat → Nat → Vmm σ → Prop) : Prop where
  small : ∀ v f s, M v f s → lo ≤ v → v + pageSize ≤ hi → pageSize ∣ v → pageSize ∣ q v →
    (cong → ¬ Slot lo hi (v / largePageSize * largePageSize)) →
    M (v + pageSize) (f + if (setUnit A pml4 flags false s v (q v)).1 ≠ 0 then pageSize else 0)
      (setUnit A pml4 flags false s v (q v)).2
  large : ∀ v f s, M v f s → cong → Slot lo hi v → largePageSize ∣ q v →
    M (v + largePageSize)
      (f + if (setUnit A pml4 flags true s v (q v)).1 ≠ 0 then largePageSize else 0)
      (setUnit A pml4 flags true s v (q v)).2

/-- The physical address of `v` when `lo` is at `p`, in 64 bits. -/
def physOf (lo p v : Nat) : Nat := physAt lo p v % 2 ^ 64

/-- Counted from a later address. -/
theorem physOf_shift {lo p mid u : Nat} (hmid : lo ≤ mid) (hu : mid ≤ u) :
    physAt mid ((p + (mid - lo)) % 2 ^ 64) u % 2 ^ 64 = physOf lo p u := by
  have hsum : p + (mid - lo) + (u - mid) = p + (u - lo) := by omega
  rw [physAt, Nat.mod_add_mod, hsum]
  rfl

/-- The three parts of a cut, page by page. -/
theorem cut_walk {M : Nat → Nat → Vmm σ → Prop} {p g : Nat} (hlt : lo < hi) (hlo : pageSize ∣ lo)
    (hhi : pageSize ∣ hi) (htop : lo ≤ 2 ^ 64 - 2 ^ 21) (hend : hi < 2 ^ 64) (hp : p < 2 ^ 64)
    (hcong : lo % largePageSize = p % largePageSize)
    (h : WalkSteps A pml4 flags (lo % largePageSize = p % largePageSize) lo hi (physOf lo p) M)
    (h0 : M lo g s) (cut : RangeCut) (hcut : rangeCut lo p hi = cut) :
    M hi
      (addFailed cut.posPadSize
        (fun s => setPages A s pml4 cut.posPadVirt cut.posPadPhys cut.posPadSize flags false)
        (addFailed cut.largeSize
          (fun s =>
            setLargePages A s pml4 cut.largeVirt cut.largePhys cut.largeSize flags false)
          (addFailed cut.prePadSize
            (fun s => setPages A s pml4 lo p cut.prePadSize flags false) (g, s)))).1
      (addFailed cut.posPadSize
        (fun s => setPages A s pml4 cut.posPadVirt cut.posPadPhys cut.posPadSize flags false)
        (addFailed cut.largeSize
          (fun s =>
            setLargePages A s pml4 cut.largeVirt cut.largePhys cut.largeSize flags false)
          (addFailed cut.prePadSize
            (fun s => setPages A s pml4 lo p cut.prePadSize flags false) (g, s)))).2 := by
  obtain ⟨mid, mid', h1, h2, h3, hpre, hmid, hlarge, hlargeAt, hpos, hposAt, hslots⟩ :=
    rangeCut_spec hlt hlo hhi htop hend hp hcong
  subst hcut
  generalize rangeCut lo p hi = cut at *
  have hword : pageSize ∣ 2 ^ 64 := by decide
  have hword' : largePageSize ∣ 2 ^ 64 := by decide
  have hplo : pageSize ∣ p := by
    unfold pageSize largePageSize at *
    omega
  -- small pages lie outside the slots
  have hsmall : ∀ u, u < mid ∨ mid' ≤ u → ¬ Slot lo hi (u / largePageSize * largePageSize) := by
    intro u hu hslot
    have := hslots u hslot.2.1 hslot.2.2
    omega
  simp only [setPages_eq, setLargePages_eq]
  have hone := addFailed_walk (M := M) (p := p) (physOf lo p) (setUnit A pml4 flags false) pageSize
    (g, s) (by decide) hword h1 (by omega) hpre (fun _ => ⟨rfl, hlo, hmid, hplo, fun _ _ => rfl⟩)
    (fun u f s hM hu1 hu2 hu3 hu4 => h.small u f s hM hu1 (by omega) hu3 hu4 fun _ =>
      hsmall u (.inl (by unfold pageSize at hu2; omega))) h0
  have htwo := addFailed_walk (M := M) (physOf lo p) (setUnit A pml4 flags true) largePageSize _
    (by decide) hword' h2 (by omega) hlarge (fun hne => by
      obtain ⟨hv, hx, hd1, hd2, hd3⟩ := hlargeAt hne
      refine ⟨hv, hd1, hd2, hx ▸ (Nat.dvd_mod_iff hword').mpr hd3, fun u hu => ?_⟩
      rw [hx]
      exact physOf_shift h1 hu)
    (fun u f s hM hu1 hu2 hu3 hu4 => h.large u f s hM hcong ⟨hu3, by omega, by omega⟩ hu4) hone
  exact addFailed_walk (M := M) (physOf lo p) (setUnit A pml4 flags false) pageSize _ (by decide)
    hword h3 (by omega) hpos (fun hne => by
      obtain ⟨hv, hx, hd⟩ := hposAt hne
      refine ⟨hv, hd, hhi, hx ▸ (Nat.dvd_mod_iff hword).mpr ?_, fun u hu => ?_⟩
      · unfold pageSize at *
        omega
      · rw [hx]
        exact physOf_shift (h1.trans h2) hu)
    (fun u f s hM hu1 hu2 hu3 hu4 => h.small u f s hM (by omega) hu2 hu3 hu4 fun _ =>
      hsmall u (.inr hu1)) htwo

variable (pml4 flags) in
/-- **`set_range`, page by page**: large pages on the 2 MiB slots of the range,
small ones elsewhere. -/
theorem setRange_walk {M : Nat → Nat → Vmm σ → Prop} (hr : RangeOk virt phys size)
    (hcong : virt % largePageSize = phys % largePageSize)
    (hlt : firstPage virt < lastPage (virt + size)) (htop : virt + size ≤ 2 ^ 64 - 2 ^ 21)
    (h : WalkSteps A pml4 flags True virt (virt + size) (physAt virt phys) M)
    (h0 : M (firstPage virt) (endBytes virt size) s) :
    M (lastPage (virt + size)) (setRange A s pml4 virt phys size flags false).1
      (setRange A s pml4 virt phys size flags false).2 := by
  obtain ⟨hwrap, hends, hend, hlo, hplo⟩ := hr.ends
  have hphys := hr.phys
  have hlop : virt ≤ firstPage virt ∧ firstPage virt < virt + 4096 ∧
      pageSize ∣ firstPage virt := by
    unfold firstPage pageSize
    omega
  have hhip : lastPage (virt + size) ≤ virt + size ∧ virt + size < lastPage (virt + size) + 4096 ∧
      pageSize ∣ lastPage (virt + size) := by
    unfold lastPage pageSize
    omega
  have hcong' : firstPage virt % largePageSize =
      physAt virt phys (firstPage virt) % largePageSize := by
    unfold largePageSize physAt at *
    omega
  unfold setRange
  rw [if_neg (not_not.mpr hcong)]
  simp only [hwrap, hends, hend, hlo, hplo]
  rw [if_neg (by omega)]
  generalize firstPage virt = lo at *
  generalize lastPage (virt + size) = hi at *
  have hat : ∀ v, lo ≤ v → v ≤ hi → physOf lo (physAt virt phys lo) v = physAt virt phys v := by
    intro v h1 h2
    unfold physOf physAt
    omega
  -- the slots of the range are those of its whole pages
  have hslot : ∀ w, Slot virt (virt + size) w ↔ Slot lo hi w := by
    intro w
    unfold Slot largePageSize pageSize at *
    omega
  refine cut_walk hlt hlop.2.2 hhip.2.2 (by omega) (by omega) (by unfold physAt; omega) hcong' ?_
    h0 _ rfl
  refine ⟨fun v f s hM h1 h2 hd hq hno => ?_, fun v f s hM hc hw hq => ?_⟩
  · rw [hat v h1 (by omega)] at hq ⊢
    exact h.small v f s hM (by omega) (by omega) hd hq fun _ =>
      (hslot _).not.mpr (hno hcong')
  · have hle := hw.2.2
    rw [hat v hw.2.1 (by omega)] at hq ⊢
    exact h.large v f s hM trivial ((hslot v).mpr hw) hq

/-- The ends of a page-aligned range are not moved. -/
theorem aligned_ends (hv : pageSize ∣ virt) (hs : pageSize ∣ size) (htop : virt + size < 2 ^ 64) :
    headOffset virt = 0 ∧ (virt + size) % 2 ^ 64 = virt + size ∧ tailOffset (virt + size) = 0 := by
  have hmod : virt % pageSize = 0 := Nat.mod_eq_zero_of_dvd hv
  have hmod' : (virt + size) % pageSize = 0 := Nat.mod_eq_zero_of_dvd (Nat.dvd_add hv hs)
  refine ⟨?_, Nat.mod_eq_of_lt htop, ?_⟩
  · rw [headOffset, if_neg (not_not.mpr hmod)]
  · rw [tailOffset, if_neg (not_not.mpr hmod')]

/-- **`vmm_map` on whole pages, page by page**: large pages on the 2 MiB slots
of the range if the two addresses are equal modulo 2 MiB, small ones
elsewhere. -/
theorem vmmMap_walk {kernPml4 : Nat} {M : Nat → Nat → Vmm σ → Prop}
    (hne : mapRoot kernPml4 pml4 ≠ 0) (hdvd : pageSize ∣ mapRoot kernPml4 pml4)
    (hv : pageSize ∣ virt) (hs : pageSize ∣ size) (hp : pageSize ∣ phys) (hphys : phys < 2 ^ 64)
    (htop : virt + size ≤ 2 ^ 64 - 2 ^ 21)
    (h : WalkSteps A (mapRoot kernPml4 pml4) flags (virt % largePageSize = phys % largePageSize)
      virt (virt + size) (physOf virt phys) M)
    (h0 : M virt 0 s) :
    M (virt + size) (vmmMap A kernPml4 s pml4 virt phys size flags).1
      (vmmMap A kernPml4 s pml4 virt phys size flags).2 := by
  have hmod : mapRoot kernPml4 pml4 % 0x1000 = 0 := Nat.mod_eq_zero_of_dvd hdvd
  have hroot : (if pml4 = kernPml4Token then kernPml4 else pml4) = mapRoot kernPml4 pml4 := rfl
  obtain ⟨hhead, hend, htail⟩ := aligned_ends hv hs (by omega)
  have hvirt : (virt + 0) % 2 ^ 64 = virt := Nat.mod_eq_of_lt (by omega)
  have hphys' : (phys + 0) % 2 ^ 64 = phys := Nat.mod_eq_of_lt hphys
  rcases Nat.eq_zero_or_pos size with rfl | hpos
  · have hsame : vmmMap A kernPml4 s pml4 virt phys 0 flags = (0, s) := by
      unfold vmmMap setRange
      simp only [hroot, hend, hhead, htail]
      rw [if_neg hne, if_neg (not_not.mpr hmod)]
      split
      · split
        · rfl
        · rw [if_pos (by omega)]
      · rw [if_pos (by omega)]
    rw [hsame]
    exact h0
  · unfold vmmMap
    simp only [hroot, hend, hhead, htail, hvirt, hphys', Nat.sub_zero]
    rw [if_neg hne, if_neg (not_not.mpr hmod)]
    by_cases hcong : virt % largePageSize = phys % largePageSize
    · rw [if_neg (not_not.mpr hcong), setRange]
      simp only [hend, hhead, htail, hvirt, hphys', Nat.sub_zero]
      rw [if_neg (not_not.mpr hcong), if_neg (by omega)]
      exact cut_walk (by omega) hv (Nat.dvd_add hv hs) (by omega) (by omega) hphys hcong h h0 _ rfl
    · have hsmall : virt % pageSize = phys % pageSize := by
        rw [Nat.mod_eq_zero_of_dvd hv, Nat.mod_eq_zero_of_dvd hp]
      rw [if_pos hcong, if_neg (not_not.mpr hsmall), if_neg (by omega), Nat.add_sub_cancel_left]
      have hwalk := setEach_walk (M := M) (s := s) (g := 0) (by decide : 0 < pageSize) hv hp hs
        (by omega) (fun u f s hM h1 h2 h3 h4 => h.small u f s hM h1 h2 h3
          ((Nat.dvd_mod_iff (by decide : pageSize ∣ 2 ^ 64)).mpr h4) fun hc => absurd hc hcong) h0
      rw [setPages_eq]
      simp only [Nat.zero_add] at hwalk ⊢
      exact hwalk

/-! ## After a check that found nothing -/

/-- **A slot with a page table refuses a large page.** -/
theorem setLargePage_blocked (h : TreeOk A (virtToPhys pml4) s)
    (hpt : HasPt (virtToPhys pml4) s virt) (phys : Nat) (flags : Word) :
    (setLargePage A s pml4 virt phys flags false).1 ≠ 0 := by
  obtain ⟨hgrown, hwalk⟩ := descend_spec [pml4Idx virt, pdptIdx virt] (p := []) h (by simp)
    (show s.tableAt (virtToPhys pml4) [] = some (virtToPhys pml4) from rfl)
  unfold setLargePage
  rw [getOrCreatePd_eq]
  split
  · exact Int.neg_ne_zero.mpr Int.one_ne_zero
  · split
    · exact Int.neg_ne_zero.mpr Int.one_ne_zero
    · cases hres : descend A s pml4 [pml4Idx virt, pdptIdx virt] with
      | mk ptr s₁ =>
          rw [hres] at hgrown hwalk
          cases ptr with
          | none => exact Int.neg_ne_zero.mpr Int.one_ne_zero
          | some pd =>
              -- the entry for the slot is the link to its page table
              have hpd : s₁.tableAt (virtToPhys pml4) [pml4Idx virt, pdptIdx virt] =
                  some (virtToPhys pd) := by
                rcases hwalk with ⟨ptr, heq, ht⟩ | ⟨heq, -⟩
                · cases heq
                  exact ht
                · cases heq
              have hlink : child (s₁.mem (virtToPhys pd) (pdIdx virt)) ≠ none := by
                rw [← tableAt_concat hpd]
                rcases hgrown.tables (regionPath virt) (by simp [regionPath]) with he | ⟨hn, -⟩
                · exact fun hnone => hpt (he.symm.trans hnone)
                · exact absurd hn hpt
              have hpres : present (s₁.read pd (pdIdx virt)) = true := by
                by_contra hno
                exact hlink (child_eq_none_of_not_present (Bool.eq_false_iff.mpr hno))
              simp only [hpres, Bool.not_false, Bool.true_and, if_true]
              decide

/-- What is ahead of the cursor `v`: the rest of the range is free, and its slots
are as they were. -/
structure Clear (root : Nat) (s₀ : Vmm σ) (lo hi v : Nat) (s : Vmm σ) : Prop where
  free : ∀ a, v ≤ a → a < hi → s.leafAt root (pathOf a) = none
  slots : ∀ w, Slot lo hi w → v ≤ w → (HasPt root s w ↔ HasPt root s₀ w)

/-- How far a run has come: something was refused exactly if a slot with a page
table has been passed. -/
structure Ahead (root : Nat) (s₀ : Vmm σ) (cong : Prop) (lo hi v f : Nat) (s : Vmm σ) : Prop where
  clear : Clear root s₀ lo hi v s
  count : f = 0 ↔ ∀ w, cong → Slot lo hi w → HasPt root s₀ w → v ≤ w

/-- The run is ahead, unless a table was denied. -/
structure AheadRun (A : TableSource σ) (root : Nat) (s₀ : Vmm σ) (cong : Prop) (lo hi v f : Nat)
    (s : Vmm σ) : Prop where
  ok : TreeOk A root s
  mode : s.mode ≠ .early
  ahead : s.denied = true ∨ Ahead root s₀ cong lo hi v f s

section Steps

variable {cong : Prop} {v x f : Nat} {large : Bool} {code : Int}
  {found : Option (Nat × Word)}

theorem unitSize_pos (large : Bool) : 0 < unitSize large := by
  cases large <;> decide

/-- A page is refused in a free range only for a page table in its slot, unless
no table could be had. -/
theorem Clear.code_eq_zero (h : Clear root s₀ lo hi v s)
    (hset : SetLeaf A root s (unitPath large v) found code s') (hhi : v + unitSize large ≤ hi)
    (hmode : s'.mode ≠ .early) (hgot : s'.denied ≠ true)
    (hfree : ¬ (large = true ∧ HasPt root s v)) : code = 0 := by
  by_contra hcode
  have hpos := unitSize_pos large
  have hnone := h.free v le_rfl (by omega)
  have hbelow : unitPath large v <+: pathOf v := by
    cases large with
    | false => exact List.prefix_rfl
    | true => exact regionPath_below.mpr rfl
  rcases (hset.failed hcode).2 with hcov | ⟨hlen, hpt⟩ | hden | hearly
  · exact hcov (pathOf v) rfl hbelow hnone
  · cases large with
    | false => simp [unitPath, pathOf] at hlen
    | true => exact hfree ⟨rfl, hpt⟩
  · exact hgot hden
  · exact hmode hearly

/-- A page leaves what is ahead of it as it was. -/
theorem Clear.unit (h : Clear root s₀ lo hi v s)
    (hset : SetLeaf A root s (unitPath large v) found code s')
    (hhalf : hi ≤ 2 ^ 47 ∨ 2 ^ 64 - 2 ^ 47 ≤ lo ∧ hi ≤ 2 ^ 64) (hlo : lo ≤ v)
    (hhi : v + unitSize large ≤ hi) (hv : unitSize large ∣ v) :
    Clear root s₀ lo hi (v + unitSize large) s' := by
  have hpos := unitSize_pos large
  have hcanon : ∀ a, v ≤ a → a < hi → Canonical a := by
    intro a h1 h2
    unfold Canonical
    omega
  refine ⟨fun a h1 h2 => ?_, fun w hw hle => ?_⟩
  · have hold := h.free a (by omega) h2
    by_cases hc : code = 0
    · have hout : ¬ unitPath large v <+: pathOf a := fun hpre => by
        have := (unitPath_below (hcanon v le_rfl (by omega)) (hcanon a (by omega) h2) hv).mp hpre
        omega
      exact ((hset.done hc (pathOf a) rfl).2 hout).trans hold
    · exact ((hset.failed hc).1 (pathOf a) rfl).trans hold
  · rw [← h.slots w hw (by omega)]
    rcases hset.tables (regionPath w) (by simp [regionPath]) with heq | ⟨-, hpre, hne⟩
    · rw [HasPt, HasPt, heq]
    · -- a new table would be in the slot of the page
      exfalso
      obtain ⟨hd, hw1, hw2⟩ := hw
      unfold largePageSize at hd hw2
      cases large with
      | false =>
          have := regionPath_inj.mp (regionPath_below.mp hpre)
          unfold unitSize pageSize at *
          omega
      | true => exact hne (List.IsPrefix.eq_of_length hpre rfl)

/-- What a page leaves ahead of it. -/
theorem Ahead.unit (h : Ahead root s₀ cong lo hi v f s)
    (hset : SetLeaf A root s (unitPath large v) found code s')
    (hhalf : hi ≤ 2 ^ 47 ∨ 2 ^ 64 - 2 ^ 47 ≤ lo ∧ hi ≤ 2 ^ 64) (hlo : lo ≤ v)
    (hhi : v + unitSize large ≤ hi) (hv : unitSize large ∣ v)
    (hslot : ∀ w, cong → Slot lo hi w → v ≤ w → w < v + unitSize large → large = true ∧ w = v)
    (hlarge : large = true → cong ∧ Slot lo hi v)
    (hcode : code = 0 ↔ ¬ (large = true ∧ HasPt root s v)) :
    Ahead root s₀ cong lo hi (v + unitSize large)
      (f + if code ≠ 0 then unitSize large else 0) s' := by
  have hpos := unitSize_pos large
  have hstep : (f + if code ≠ 0 then unitSize large else 0) = 0 ↔ f = 0 ∧ code = 0 := by
    split <;> omega
  refine ⟨h.clear.unit hset hhalf hlo hhi hv, ?_⟩
  rw [hstep, h.count, hcode]
  constructor
  · rintro ⟨hbefore, hfree⟩ w hc hw hpt
    by_contra hlt
    obtain ⟨hl, rfl⟩ := hslot w hc hw (hbefore w hc hw hpt) (by omega)
    exact hfree ⟨hl, (h.clear.slots w hw le_rfl).mpr hpt⟩
  · intro hall
    refine ⟨fun w hc hw hpt => by have := hall w hc hw hpt; omega, ?_⟩
    rintro ⟨hl, hpt⟩
    obtain ⟨hc, hw⟩ := hlarge hl
    have := hall v hc hw ((h.clear.slots v hw le_rfl).mp hpt)
    omega

variable (hhalf : hi ≤ 2 ^ 47 ∨ 2 ^ 64 - 2 ^ 47 ≤ lo ∧ hi ≤ 2 ^ 64)

include hhalf

/-- One page of the run. -/
theorem AheadRun.unit (large : Bool) (h : AheadRun A (virtToPhys pml4) s₀ cong lo hi v f s)
    (hlo : lo ≤ v)
    (hhi : v + unitSize large ≤ hi) (hv : unitSize large ∣ v) (hx : unitSize large ∣ x)
    (hslot : ∀ w, cong → Slot lo hi w → v ≤ w → w < v + unitSize large → large = true ∧ w = v)
    (hlarge : large = true → cong ∧ Slot lo hi v) (flags : Word) :
    AheadRun A (virtToPhys pml4) s₀ cong lo hi (v + unitSize large)
      (f + if (setUnit A pml4 flags large s v x).1 ≠ 0 then unitSize large else 0)
      (setUnit A pml4 flags large s v x).2 := by
  have hset := setUnit_leaf h.ok hv hx flags
  have hblocked : large = true ∧ HasPt (virtToPhys pml4) s v →
      (setUnit A pml4 flags large s v x).1 ≠ 0 := by
    rintro ⟨rfl, hpt⟩
    exact setLargePage_blocked h.ok hpt x flags
  have hmode : (setUnit A pml4 flags large s v x).2.mode ≠ .early := hset.mode ▸ h.mode
  refine ⟨hset.ok, hmode, ?_⟩
  by_cases hden : (setUnit A pml4 flags large s v x).2.denied = true
  · exact .inl hden
  · rcases h.ahead with hbefore | hahead
    · exact absurd (hset.denied hbefore) hden
    · exact .inr (hahead.unit hset hhalf hlo hhi hv hslot hlarge
        ⟨fun hc hb => hblocked hb hc, hahead.clear.code_eq_zero hset hhi hmode hden⟩)

theorem aheadRun_steps (q : Nat → Nat) (flags : Word) :
    WalkSteps A pml4 flags cong lo hi q (AheadRun A (virtToPhys pml4) s₀ cong lo hi) where
  small := by
    intro v f s h hlo hhi hv hx hno
    have hslot : ∀ w, cong → Slot lo hi w → v ≤ w → w < v + pageSize → False := by
      rintro w hc ⟨hd, hw1, hw2⟩ h1 h2
      have hw : v / largePageSize * largePageSize = w := by
        unfold pageSize largePageSize at *
        omega
      exact hno hc (hw ▸ ⟨hd, hw1, hw2⟩)
    exact AheadRun.unit hhalf false h hlo hhi hv hx
      (fun w hc hw h1 h2 => absurd (hslot w hc hw h1 h2) id) (fun hf => nomatch hf) flags
  large := by
    intro v f s h hc hw hx
    refine AheadRun.unit hhalf true h hw.2.1 hw.2.2 hw.1 hx (fun w _ hw' h1 h2 => ?_)
      (fun _ => ⟨hc, hw⟩) flags
    have hd := hw.1
    have hd' := hw'.1
    simp only [unitSize, if_true] at h2
    unfold largePageSize at *
    exact ⟨rfl, by omega⟩

end Steps

/-- **When `vmm_map` maps a whole free range.** -/
theorem vmmMap_zero_iff {kernPml4 : Nat} (hne : mapRoot kernPml4 pml4 ≠ 0)
    (hdvd : pageSize ∣ mapRoot kernPml4 pml4)
    (hok : TreeOk A (virtToPhys (mapRoot kernPml4 pml4)) s) (hmode : s.mode ≠ .early)
    (hv : pageSize ∣ virt) (hs : pageSize ∣ size) (hp : pageSize ∣ phys) (hphys : phys < 2 ^ 64)
    (hrange : ScanRange virt size)
    (hfree : ∀ a, virt ≤ a → a < virt + size →
      s.leafAt (virtToPhys (mapRoot kernPml4 pml4)) (pathOf a) = none)
    (hgot : (vmmMap A kernPml4 s pml4 virt phys size flags).2.denied = false) :
    (vmmMap A kernPml4 s pml4 virt phys size flags).1 = 0 ↔
      virt % largePageSize ≠ phys % largePageSize ∨
      ∀ w, Slot virt (virt + size) w → ¬ HasPt (virtToPhys (mapRoot kernPml4 pml4)) s w := by
  have hhalf : virt + size ≤ 2 ^ 47 ∨ 2 ^ 64 - 2 ^ 47 ≤ virt ∧ virt + size ≤ 2 ^ 64 := by
    unfold ScanRange at hrange
    omega
  have hstart : AheadRun A (virtToPhys (mapRoot kernPml4 pml4)) s
      (virt % largePageSize = phys % largePageSize) virt (virt + size) virt 0 s :=
    ⟨hok, hmode, .inr ⟨⟨hfree, fun _ _ _ => Iff.rfl⟩, ⟨fun _ _ _ hw _ => hw.2.1, fun _ => rfl⟩⟩⟩
  have hend := vmmMap_walk hne hdvd hv hs hp hphys (by unfold ScanRange at hrange; omega)
    (aheadRun_steps hhalf _ flags) hstart
  rcases hend.ahead with hden | hahead
  · rw [hgot] at hden
    cases hden
  · rw [hahead.count]
    constructor
    · intro hall
      by_cases hcong : virt % largePageSize = phys % largePageSize
      · refine .inr fun w hw hpt => ?_
        have := hall w hcong hw hpt
        have hend := hw.2.2
        unfold largePageSize at hend
        omega
      · exact .inl hcong
    · rintro (hcong | hno) w hc hw hpt
      · exact absurd hc hcong
      · exact absurd hpt (hno w hw)

/-! ## Reachable page tables -/

/-- The tables are a tree, past `VMM_EARLY`. -/
def KernTree (A : TableSource σ) (K : KernelTables) (s : Vmm σ) : Prop :=
  TreeOk A (virtToPhys K.kernPml4) s ∧ s.mode ≠ .early

theorem KernTree.unit {K : KernelTables} (h : KernTree A K s) (large : Bool) (v x : Nat)
    (flags : Word) : KernTree A K (setUnit A K.kernPml4 flags large s v x).2 := by
  have htouched := setUnit_touched h.1 large v x flags
  exact ⟨htouched.ok, htouched.mode ▸ h.2⟩

/-- Watch the allocations from here on. -/
def Vmm.watch (s : Vmm σ) : Vmm σ := { s with denied := false }

end DevOS.Arch
