import DevOS.Arch.VmmMap

/-!
# Page tables — where `set_range` cuts

`set_range` passes up to three parts of its range on: 4 KiB pages up to the
first 2 MiB boundary, large pages, and 4 KiB pages after the last boundary. The
parts tile the whole pages of the range as long as rounding its start up stays
within 64 bits; next to the top of the address space it wraps to 0.
-/

namespace DevOS.Arch

variable {σ : Type} {virt phys size lo hi mid mid' a : Nat}

/-- The arguments of a call of `set_large_pages` or `set_pages`. -/
structure SubRange where
  large : Bool
  virt : Nat
  phys : Nat
  size : Nat
deriving DecidableEq, Repr

def SubRange.Covers (r : SubRange) (a : Nat) : Prop := r.virt ≤ a ∧ a < r.virt + r.size

/-- A call behind `if (size)`. -/
def SubRange.ifAny (r : SubRange) : List SubRange := if r.size ≠ 0 then [r] else []

/-- The calls for a range from `v` on, cut into three. -/
def cutCalls (v p : Nat) (cut : RangeCut) : List SubRange :=
  SubRange.ifAny ⟨false, v, p, cut.prePadSize⟩ ++
    SubRange.ifAny ⟨true, cut.largeVirt, cut.largePhys, cut.largeSize⟩ ++
    SubRange.ifAny ⟨false, cut.posPadVirt, cut.posPadPhys, cut.posPadSize⟩

/-- The calls `set_range` makes, in order. -/
def rangeCalls (virt phys size : Nat) : List SubRange :=
  if virt % largePageSize ≠ phys % largePageSize then []
  else
    let virtEnd := (virt + size) % 2 ^ 64 - tailOffset ((virt + size) % 2 ^ 64)
    let phys := (phys + headOffset virt) % 2 ^ 64
    let virt := (virt + headOffset virt) % 2 ^ 64
    if virt ≥ virtEnd then []
    else cutCalls virt phys (rangeCut virt phys virtEnd)

/-- One of the calls: what it fails to map is added up. -/
def callSub (A : TableSource σ) (pml4 : Nat) (flags : Word) (overwrite : Bool)
    (acc : Nat × Vmm σ) (r : SubRange) : Nat × Vmm σ :=
  let (f, s) :=
    if r.large then setLargePages A acc.2 pml4 r.virt r.phys r.size flags overwrite
    else setPages A acc.2 pml4 r.virt r.phys r.size flags overwrite
  (acc.1 + f, s)

theorem foldl_ifAny (A : TableSource σ) (pml4 : Nat) (flags : Word) (overwrite : Bool)
    (r : SubRange) (acc : Nat × Vmm σ) :
    r.ifAny.foldl (callSub A pml4 flags overwrite) acc =
      addFailed r.size (fun s =>
        if r.large then setLargePages A s pml4 r.virt r.phys r.size flags overwrite
        else setPages A s pml4 r.virt r.phys r.size flags overwrite) acc := by
  rw [SubRange.ifAny, addFailed]
  split
  · rfl
  · rfl

theorem foldl_cut (A : TableSource σ) (pml4 v p : Nat) (flags : Word) (overwrite : Bool)
    (cut : RangeCut) (acc : Nat × Vmm σ) :
    (cutCalls v p cut).foldl (callSub A pml4 flags overwrite) acc =
      addFailed cut.posPadSize
        (fun s => setPages A s pml4 cut.posPadVirt cut.posPadPhys cut.posPadSize flags overwrite)
        (addFailed cut.largeSize
          (fun s =>
            setLargePages A s pml4 cut.largeVirt cut.largePhys cut.largeSize flags overwrite)
          (addFailed cut.prePadSize
            (fun s => setPages A s pml4 v p cut.prePadSize flags overwrite) acc)) := by
  rw [cutCalls, List.foldl_append, List.foldl_append, foldl_ifAny, foldl_ifAny, foldl_ifAny]
  rfl

/-- `set_range` counts some bytes and makes these calls. -/
theorem setRange_eq_calls (A : TableSource σ) (s : Vmm σ) (pml4 virt phys size : Nat)
    (flags : Word) (overwrite : Bool) :
    ∃ lost, setRange A s pml4 virt phys size flags overwrite =
      (rangeCalls virt phys size).foldl (callSub A pml4 flags overwrite) (lost, s) := by
  unfold setRange rangeCalls
  by_cases hcong : virt % largePageSize ≠ phys % largePageSize
  · rw [if_pos hcong, if_pos hcong]
    exact ⟨size, rfl⟩
  · rw [if_neg hcong, if_neg hcong]
    simp only []
    by_cases hempty : (virt + headOffset virt) % 2 ^ 64 ≥
        (virt + size) % 2 ^ 64 - tailOffset ((virt + size) % 2 ^ 64)
    · rw [if_pos hempty, if_pos hempty]
      exact ⟨size, rfl⟩
    · rw [if_neg hempty, if_neg hempty]
      exact ⟨headOffset virt + tailOffset ((virt + size) % 2 ^ 64),
        (foldl_cut A pml4 _ _ flags overwrite _ _).symm⟩

/-- What a cut of `[virt, virt + size)` must be. -/
structure Cuts (virt phys size : Nat) (calls : List SubRange) : Prop where
  disjoint : calls.Pairwise fun r r' => ∀ a, r.Covers a → ¬ r'.Covers a
  union : ∀ a, (∃ r ∈ calls, r.Covers a) ↔
    virt ≤ roundDown a pageSize ∧ roundDown a pageSize + pageSize ≤ virt + size
  offset : ∀ r ∈ calls, r.phys + virt = phys + r.virt
  aligned : ∀ r ∈ calls, r.large = true → largePageSize ∣ r.virt ∧ largePageSize ∣ r.virt + r.size

/-! ## Tiling -/

theorem mem_ifAny {r x : SubRange} : r ∈ x.ifAny ↔ x.size ≠ 0 ∧ r = x := by
  rw [SubRange.ifAny]
  split
  · rename_i h
    rw [List.mem_singleton]
    exact ⟨fun hr => ⟨h, hr⟩, fun hr => hr.2⟩
  · rename_i h
    exact ⟨fun hr => absurd hr List.not_mem_nil, fun hr => absurd hr.1 h⟩

theorem pairwise_ifAny (x : SubRange) (R : SubRange → SubRange → Prop) : x.ifAny.Pairwise R := by
  rw [SubRange.ifAny]
  split
  · exact List.pairwise_singleton _ _
  · exact List.Pairwise.nil

/-- A part of a range: it lies between two addresses, or there is none of it. -/
def SubRange.Fits (r : SubRange) (lo hi : Nat) : Prop :=
  r.size = hi - lo ∧ (lo < hi → r.virt = lo)

theorem SubRange.Fits.covers {r : SubRange} (h : r.Fits lo hi) (hne : r.size ≠ 0) :
    r.Covers a ↔ lo ≤ a ∧ a < hi := by
  obtain ⟨hsize, hvirt⟩ := h
  have hlt : lo < hi := by omega
  rw [SubRange.Covers, hvirt hlt]
  omega

theorem SubRange.Fits.exists_covers {r : SubRange} (h : r.Fits lo hi) :
    (∃ r' ∈ r.ifAny, r'.Covers a) ↔ lo ≤ a ∧ a < hi := by
  constructor
  · rintro ⟨r', hr', hc⟩
    obtain ⟨hne, rfl⟩ := mem_ifAny.mp hr'
    exact (h.covers hne).mp hc
  · intro ha
    have hne : r.size ≠ 0 := by
      have := h.1
      omega
    exact ⟨r, mem_ifAny.mpr ⟨hne, rfl⟩, (h.covers hne).mpr ha⟩

section Tiles

variable {x y z : SubRange} (hx : x.Fits lo mid) (hy : y.Fits mid mid') (hz : z.Fits mid' hi)
  (h2 : mid ≤ mid')

include hx hy hz h2

/-- Three parts that meet cover the whole. -/
theorem tiles_union (h1 : lo ≤ mid) (h3 : mid' ≤ hi) (a : Nat) :
    (∃ r ∈ x.ifAny ++ y.ifAny ++ z.ifAny, r.Covers a) ↔ lo ≤ a ∧ a < hi := by
  have hsplit : (∃ r ∈ x.ifAny ++ y.ifAny ++ z.ifAny, r.Covers a) ↔
      (∃ r ∈ x.ifAny, r.Covers a) ∨ (∃ r ∈ y.ifAny, r.Covers a) ∨ ∃ r ∈ z.ifAny, r.Covers a := by
    simp only [List.mem_append, or_and_right, exists_or, or_assoc]
  rw [hsplit, hx.exists_covers, hy.exists_covers, hz.exists_covers]
  omega

/-- They do not overlap. -/
theorem tiles_disjoint :
    (x.ifAny ++ y.ifAny ++ z.ifAny).Pairwise fun r r' => ∀ a, r.Covers a → ¬ r'.Covers a := by
  have hpart : ∀ {p q : SubRange} {i j k l : Nat}, p.Fits i j → q.Fits k l → j ≤ k →
      ∀ r ∈ p.ifAny, ∀ r' ∈ q.ifAny, ∀ a, r.Covers a → ¬ r'.Covers a := by
    intro p q i j k l hp hq hjk r hr r' hr' a ha ha'
    have h1 := hp.exists_covers.mp ⟨r, hr, ha⟩
    have h2 := hq.exists_covers.mp ⟨r', hr', ha'⟩
    omega
  rw [List.pairwise_append, List.pairwise_append]
  refine ⟨⟨pairwise_ifAny _ _, pairwise_ifAny _ _, hpart hx hy (Nat.le_refl _)⟩,
    pairwise_ifAny _ _, fun r hr => ?_⟩
  rcases List.mem_append.mp hr with hr | hr
  · exact hpart hx hz h2 r hr
  · exact hpart hy hz (Nat.le_refl _) r hr

end Tiles

/-- The cut of a range of whole pages whose start is not in the last 2 MiB. -/
theorem cutCalls_spec {p : Nat} (hlt : lo < hi) (hlo : pageSize ∣ lo) (hhi : pageSize ∣ hi)
    (htop : lo ≤ 2 ^ 64 - 2 ^ 21) (hend : hi < 2 ^ 64) (hp : p + (hi - lo) < 2 ^ 64)
    (hcong : lo % largePageSize = p % largePageSize) :
    ((cutCalls lo p (rangeCut lo p hi)).Pairwise fun r r' => ∀ a, r.Covers a → ¬ r'.Covers a) ∧
    (∀ a, (∃ r ∈ cutCalls lo p (rangeCut lo p hi), r.Covers a) ↔ lo ≤ a ∧ a < hi) ∧
    (∀ r ∈ cutCalls lo p (rangeCut lo p hi), r.phys + lo = p + r.virt) ∧
    ∀ r ∈ cutCalls lo p (rangeCut lo p hi), r.large = true →
      largePageSize ∣ r.virt ∧ largePageSize ∣ r.virt + r.size := by
  obtain ⟨mid, mid', h1, h2, h3, hpre, -, hlarge, hlargeAt, hpos, hposAt, -⟩ :=
    rangeCut_spec hlt hlo hhi htop hend (Nat.lt_of_le_of_lt (Nat.le_add_right _ _) hp) hcong
  generalize rangeCut lo p hi = cut at *
  have hx : SubRange.Fits ⟨false, lo, p, cut.prePadSize⟩ lo mid := ⟨hpre, fun _ => rfl⟩
  have hy : SubRange.Fits ⟨true, cut.largeVirt, cut.largePhys, cut.largeSize⟩ mid mid' :=
    ⟨hlarge, fun h => (hlargeAt h).1⟩
  have hz : SubRange.Fits ⟨false, cut.posPadVirt, cut.posPadPhys, cut.posPadSize⟩ mid' hi :=
    ⟨hpos, fun h => (hposAt h).1⟩
  refine ⟨tiles_disjoint hx hy hz h2, tiles_union hx hy hz h2 h1 h3, fun r hr => ?_,
    fun r hr hr' => ?_⟩
  · rcases List.mem_append.mp hr with hr | hr
    · rcases List.mem_append.mp hr with hr | hr
      · obtain ⟨-, rfl⟩ := mem_ifAny.mp hr
        rfl
      · obtain ⟨hne, rfl⟩ := mem_ifAny.mp hr
        have hne : cut.largeSize ≠ 0 := hne
        obtain ⟨hv, hphys, -⟩ := hlargeAt (by omega)
        dsimp only
        rw [hv, hphys, Nat.mod_eq_of_lt (by omega)]
        omega
    · obtain ⟨hne, rfl⟩ := mem_ifAny.mp hr
      have hne : cut.posPadSize ≠ 0 := hne
      obtain ⟨hv, hphys, -⟩ := hposAt (by omega)
      dsimp only
      rw [hv, hphys, Nat.mod_eq_of_lt (by omega)]
      omega
  · rcases List.mem_append.mp hr with hr | hr
    · rcases List.mem_append.mp hr with hr | hr
      · obtain ⟨-, rfl⟩ := mem_ifAny.mp hr
        cases hr'
      · obtain ⟨hne, rfl⟩ := mem_ifAny.mp hr
        have hne : cut.largeSize ≠ 0 := hne
        obtain ⟨hv, -, hd, hd', -⟩ := hlargeAt (by omega)
        dsimp only
        rw [hv, hlarge, Nat.add_sub_cancel' h2]
        exact ⟨hd, hd'⟩
    · obtain ⟨-, rfl⟩ := mem_ifAny.mp hr
      cases hr'

/-- A start that rounds up to 0 makes the large part begin there. -/
theorem rangeCut_wrapped {p : Nat} (hL : roundUp lo largePageSize = 0)
    (hH : roundDown hi largePageSize = 2 ^ 64 - 2 ^ 21) :
    (rangeCut lo p hi).largeVirt = 0 ∧ (rangeCut lo p hi).largeSize = 2 ^ 64 - 2 ^ 21 := by
  simp only [rangeCut, hL, hH]
  exact ⟨trivial, rfl⟩

/-! ## The exact range of inputs -/

/-- The pages of a range lie between its rounded ends. -/
theorem page_inside_iff (virt size a : Nat) :
    virt ≤ roundDown a pageSize ∧ roundDown a pageSize + pageSize ≤ virt + size ↔
      firstPage virt ≤ a ∧ a < lastPage (virt + size) := by
  simp only [roundDown, pageSize, firstPage, lastPage]
  omega

/-- The ends that `set_range` computes, when rounding up to a page stays within
64 bits. -/
theorem range_ends (hvirt : virt + size < 2 ^ 64) (hpage : virt ≤ 2 ^ 64 - 4096) :
    (virt + size) % 2 ^ 64 - tailOffset ((virt + size) % 2 ^ 64) = lastPage (virt + size) ∧
    (virt + headOffset virt) % 2 ^ 64 = firstPage virt ∧
    headOffset virt = firstPage virt - virt := by
  have hhead : headOffset virt = firstPage virt - virt := by
    unfold headOffset firstPage roundUp pageSize
    split
    · omega
    · omega
  rw [Nat.mod_eq_of_lt hvirt, tailOffset_eq, hhead]
  unfold firstPage lastPage
  omega

theorem rangeCalls_eq (hcong : virt % largePageSize = phys % largePageSize)
    (hend : (virt + size) % 2 ^ 64 - tailOffset ((virt + size) % 2 ^ 64) = hi)
    (hstart : (virt + headOffset virt) % 2 ^ 64 = lo) :
    rangeCalls virt phys size = if lo ≥ hi then [] else
      cutCalls lo ((phys + headOffset virt) % 2 ^ 64)
        (rangeCut lo ((phys + headOffset virt) % 2 ^ 64) hi) := by
  unfold rangeCalls
  rw [if_neg (not_not.mpr hcong)]
  simp only [hend, hstart]

/-- A range that starts below the last 2 MiB is cut correctly. -/
theorem rangeCalls_cuts (hcong : virt % largePageSize = phys % largePageSize)
    (hvirt : virt + size < 2 ^ 64) (hphys : phys + size < 2 ^ 52)
    (htop : virt ≤ 2 ^ 64 - 2 ^ 21 ∨
      virt ≤ 2 ^ 64 - 4096 ∧ lastPage (virt + size) ≤ firstPage virt) :
    Cuts virt phys size (rangeCalls virt phys size) := by
  have hpage : virt ≤ 2 ^ 64 - 4096 := by omega
  obtain ⟨hend, hstart, hhead⟩ := range_ends hvirt hpage
  rw [rangeCalls_eq hcong hend hstart]
  by_cases hempty : firstPage virt ≥ lastPage (virt + size)
  · rw [if_pos hempty]
    refine ⟨List.Pairwise.nil, fun a => ?_, fun r hr => absurd hr List.not_mem_nil,
      fun r hr => absurd hr List.not_mem_nil⟩
    rw [page_inside_iff]
    constructor
    · rintro ⟨r, hr, -⟩
      exact absurd hr List.not_mem_nil
    · intro ha
      omega
  · rw [if_neg hempty, hhead]
    have hlo : virt ≤ firstPage virt ∧ pageSize ∣ firstPage virt ∧
        (virt ≤ 2 ^ 64 - 2 ^ 21 → firstPage virt ≤ 2 ^ 64 - 2 ^ 21) ∧
        firstPage virt - virt < 4096 := by
      unfold firstPage pageSize
      omega
    have hhi : lastPage (virt + size) ≤ virt + size ∧ pageSize ∣ lastPage (virt + size) := by
      unfold lastPage pageSize
      omega
    have hp : (phys + (firstPage virt - virt)) % 2 ^ 64 = phys + (firstPage virt - virt) :=
      Nat.mod_eq_of_lt (by omega)
    have hcong' : firstPage virt % largePageSize =
        (phys + (firstPage virt - virt)) % largePageSize := by
      unfold largePageSize at *
      omega
    rw [hp]
    obtain ⟨hdis, hunion, hoff, halign⟩ := cutCalls_spec (Nat.lt_of_not_ge hempty) hlo.2.1 hhi.2
      (hlo.2.2.1 (by omega)) (by omega) (by omega) hcong'
    refine ⟨hdis, fun a => ?_, fun r hr => ?_, halign⟩
    · rw [hunion, page_inside_iff]
    · have := hoff r hr
      omega

/-- A range that starts above is not: the large part begins at address 0. -/
theorem rangeCalls_wrapped (virt phys size : Nat)
    (hcong : virt % largePageSize = phys % largePageSize) (hvirt : virt + size < 2 ^ 64)
    (htop : 2 ^ 64 - 2 ^ 21 < virt)
    (hbad : virt ≤ 2 ^ 64 - 4096 → firstPage virt < lastPage (virt + size)) :
    ∃ r ∈ rangeCalls virt phys size, r.Covers 0 := by
  -- the rounded start: in the last 2 MiB, or 0
  obtain ⟨lo, hstart, hL, hlt⟩ : ∃ lo, (virt + headOffset virt) % 2 ^ 64 = lo ∧
      roundUp lo largePageSize = 0 ∧ lo < lastPage (virt + size) := by
    by_cases hpage : virt ≤ 2 ^ 64 - 4096
    · obtain ⟨-, hstart, -⟩ := range_ends hvirt hpage
      refine ⟨_, hstart, ?_, hbad hpage⟩
      unfold roundUp largePageSize firstPage
      omega
    · refine ⟨0, ?_, rfl, ?_⟩
      · unfold headOffset roundUp pageSize
        split
        · omega
        · omega
      · unfold lastPage
        omega
  have hend : (virt + size) % 2 ^ 64 - tailOffset ((virt + size) % 2 ^ 64) =
      lastPage (virt + size) := by
    rw [Nat.mod_eq_of_lt hvirt, tailOffset_eq]
    unfold lastPage
    omega
  have hH : roundDown (lastPage (virt + size)) largePageSize = 2 ^ 64 - 2 ^ 21 := by
    unfold roundDown largePageSize lastPage
    omega
  obtain ⟨hv, hs⟩ := rangeCut_wrapped (p := (phys + headOffset virt) % 2 ^ 64) hL hH
  rw [rangeCalls_eq hcong hend hstart, if_neg (Nat.not_le.mpr hlt)]
  generalize rangeCut lo ((phys + headOffset virt) % 2 ^ 64) (lastPage (virt + size)) = cut at *
  refine ⟨⟨true, cut.largeVirt, cut.largePhys, cut.largeSize⟩, ?_, ?_⟩
  · refine List.mem_append_left _ (List.mem_append_right _ (mem_ifAny.mpr ⟨?_, rfl⟩))
    show cut.largeSize ≠ 0
    omega
  · show cut.largeVirt ≤ 0 ∧ 0 < cut.largeVirt + cut.largeSize
    omega

/-- **Where `set_range` cuts correctly.** For every range below `2 ^ 64` with
physical addresses below `2 ^ 52`, the parts it passes on are disjoint, are
together the whole pages of the range, keep the offset, and the large one is
2 MiB aligned, exactly when the range starts at or below `2 ^ 64 - 2 ^ 21`, or
starts no higher than the last page and has no whole page in it. -/
theorem rangeCalls_cuts_iff (virt phys size : Nat)
    (hcong : virt % largePageSize = phys % largePageSize) (hvirt : virt + size < 2 ^ 64)
    (hphys : phys + size < 2 ^ 52) :
    Cuts virt phys size (rangeCalls virt phys size) ↔
      virt ≤ 2 ^ 64 - 2 ^ 21 ∨
        virt ≤ 2 ^ 64 - 4096 ∧ lastPage (virt + size) ≤ firstPage virt := by
  constructor
  · intro hcuts
    by_contra hbad
    obtain ⟨r, hr, hc⟩ := rangeCalls_wrapped virt phys size hcong hvirt (by omega) (by omega)
    have hzero := ((hcuts.union 0).mp ⟨r, hr, hc⟩).1
    have hround : roundDown 0 pageSize = 0 := rfl
    omega
  · exact rangeCalls_cuts hcong hvirt hphys

/-- 3 MiB of the upper half from an unaligned start on. -/
theorem rangeCalls_cuts_iff_upper :
    Cuts 0xFFFF900000001800 0x1800 0x300000 (rangeCalls 0xFFFF900000001800 0x1800 0x300000) ↔
      0xFFFF900000001800 ≤ 2 ^ 64 - 2 ^ 21 ∨
        0xFFFF900000001800 ≤ 2 ^ 64 - 4096 ∧
          lastPage (0xFFFF900000001800 + 0x300000) ≤ firstPage 0xFFFF900000001800 :=
  rangeCalls_cuts_iff _ _ _ (by decide) (by decide) (by decide)

/-- One page of the last 2 MiB: the part for large pages is the address space
below them. -/
theorem rangeCalls_wrong_at_top :
    ¬ ∀ virt phys size : Nat, virt % largePageSize = phys % largePageSize →
      virt + size < 2 ^ 64 → phys + size < 2 ^ 52 →
      Cuts virt phys size (rangeCalls virt phys size) := by
  intro hall
  have hcuts := hall 0xFFFFFFFFFFF00000 0x100000 0x1000 (by decide) (by decide) (by decide)
  obtain ⟨r, hr, hc⟩ := rangeCalls_wrapped 0xFFFFFFFFFFF00000 0x100000 0x1000
    (by decide) (by decide) (by decide) (by decide)
  exact absurd ((hcuts.union 0).mp ⟨r, hr, hc⟩).1 (by decide)

end DevOS.Arch
