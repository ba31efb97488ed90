import DevOS.Arch.VmmPage
import DevOS.Lib.RangeFill

/-!
# Page tables — ranges

`set_pages`, `set_large_pages`, `set_range` and `vmm_map` set the pages of a
range one after the other, from the first page boundary in the range to the
last (`setRange_induct`, `vmmMap_induct`). From what one page does follows what
`vmm_map` does to every translation, and that it counts the bytes it did not
map.
-/

namespace DevOS.Arch

open DevOS.Lib

variable {σ : Type} {A : TableSource σ} {root pml4 virt phys size : Nat} {s : Vmm σ} {flags : Word}

/-! ## Cutting a range into pages -/

/-- The ranges `vmm_map` is made for: in one canonical half and below the last
GiB, onto physical addresses that an entry can hold. -/
structure RangeOk (virt phys size : Nat) : Prop where
  half : virt + size ≤ 2 ^ 47 ∨ 2 ^ 64 - 2 ^ 47 ≤ virt
  top : virt + size ≤ 2 ^ 64 - 2 ^ 30
  phys : phys + size < 2 ^ 52

/-- The first page boundary of a range. -/
def firstPage (virt : Nat) : Nat := (virt + 4095) / 4096 * 4096

/-- The last page boundary of a range that ends at `virtEnd`. -/
def lastPage (virtEnd : Nat) : Nat := virtEnd / 4096 * 4096

/-- The pages of a range keep their distance to the physical range. -/
def physAt (virt phys v : Nat) : Nat := phys + (v - virt)

theorem headOffset_eq (h : RangeOk virt phys size) : headOffset virt = firstPage virt - virt := by
  have htop := h.top
  unfold headOffset firstPage roundUp pageSize
  split <;> omega

theorem tailOffset_eq (e : Nat) : tailOffset e = e - lastPage e := by
  unfold tailOffset lastPage roundDown pageSize
  split <;> omega

/-- **The loop of `set_pages` and `set_large_pages`**: what holds at the start
and is kept by each page holds at the end. Physical addresses may wrap. -/
theorem setEach_walk {set : Vmm σ → Nat → Nat → Int × Vmm σ} {step g : Nat}
    {M : Nat → Nat → Vmm σ → Prop} (hpos : 0 < step) (hv : step ∣ virt) (hp : step ∣ phys)
    (hsize : step ∣ size) (hvirt : virt + size ≤ 2 ^ 64)
    (hstep : ∀ v f s, M v f s → virt ≤ v → v + step ≤ virt + size → step ∣ v →
      step ∣ physAt virt phys v →
      M (v + step) (f + if (set s v (physAt virt phys v % 2 ^ 64)).1 ≠ 0 then step else 0)
        (set s v (physAt virt phys v % 2 ^ 64)).2)
    (h0 : M virt g s) :
    M (virt + size) (g + (setEach set step s virt phys size).1)
      (setEach set step s virt phys size).2 := by
  unfold setEach
  rw [if_neg (not_not.mpr (Nat.mod_eq_zero_of_dvd hv)),
    if_neg (not_not.mpr (Nat.mod_eq_zero_of_dvd hp)),
    if_neg (not_not.mpr (Nat.mod_eq_zero_of_dvd hsize))]
  obtain ⟨n, rfl⟩ := hsize
  rw [Nat.mul_div_cancel_left n hpos]
  -- the loop's index `k` stands for the address `virt + k * step`
  have hloop : ∀ k, k ≤ n → M (virt + step * k)
      (g + ((List.range k).foldl (setOne set step virt phys) (0, s)).1)
      ((List.range k).foldl (setOne set step virt phys) (0, s)).2 := by
    intro k
    induction k with
    | zero => intro _; exact h0
    | succ k ih =>
        intro hk
        have hle : step * k + step ≤ step * n := by
          rw [← Nat.mul_succ]
          exact Nat.mul_le_mul_left step hk
        have hat : physAt virt phys (virt + step * k) = phys + step * k := by
          unfold physAt
          omega
        have hone := hstep _ _ _ (ih (by omega)) (by omega) (by omega)
          (Nat.dvd_add hv (Nat.dvd_mul_right step k))
          (hat ▸ Nat.dvd_add hp (Nat.dvd_mul_right step k))
        rw [hat] at hone
        rw [List.range_succ, List.foldl_append]
        simp only [List.foldl_cons, List.foldl_nil]
        generalize (List.range k).foldl (setOne set step virt phys) (0, s) = acc at hone
        unfold setOne
        rw [Nat.mul_comm k step, Nat.mod_eq_of_lt (show virt + step * k < 2 ^ 64 by omega)]
        rw [Nat.mul_succ, ← Nat.add_assoc]
        generalize (phys + step * k) % 2 ^ 64 = x at *
        revert hone
        cases set acc.2 (virt + step * k) x with
        | mk code s' =>
            intro hone
            dsimp only at hone ⊢
            split at hone <;> simp_all [Nat.add_assoc]
  exact hloop n (Nat.le_refl n)

/-- The same loop over physical addresses that do not wrap. -/
theorem setEach_induct {set : Vmm σ → Nat → Nat → Int × Vmm σ} {step g : Nat}
    {M : Nat → Nat → Vmm σ → Prop} (hpos : 0 < step) (hv : step ∣ virt) (hp : step ∣ phys)
    (hsize : step ∣ size) (hvirt : virt + size ≤ 2 ^ 64) (hphys : phys + size ≤ 2 ^ 64)
    (hstep : ∀ v f s, M v f s → virt ≤ v → v + step ≤ virt + size → step ∣ v →
      step ∣ physAt virt phys v →
      M (v + step) (f + if (set s v (physAt virt phys v)).1 ≠ 0 then step else 0)
        (set s v (physAt virt phys v)).2)
    (h0 : M virt g s) :
    M (virt + size) (g + (setEach set step s virt phys size).1)
      (setEach set step s virt phys size).2 := by
  refine setEach_walk hpos hv hp hsize hvirt (fun v f s hM h1 h2 h3 h4 => ?_) h0
  have hone := hstep v f s hM h1 h2 h3 h4
  have hlt : physAt virt phys v < 2 ^ 64 := by
    unfold physAt
    omega
  rw [Nat.mod_eq_of_lt hlt]
  exact hone

/-- The two calls are that loop over pages of one size. -/
theorem setPages_eq (s : Vmm σ) (v p n : Nat) : setPages A s pml4 v p n flags false =
    setEach (setUnit A pml4 flags false) (unitSize false) s v p n := rfl

theorem setLargePages_eq (s : Vmm σ) (v p n : Nat) : setLargePages A s pml4 v p n flags false =
    setEach (setUnit A pml4 flags true) (unitSize true) s v p n := rfl

/-- **Where `set_range` cuts**: at two page boundaries, with 2 MiB boundaries
around the large pages, and every 2 MiB slot of the range between the two.
Physical addresses may wrap. -/
theorem rangeCut_spec {lo hi p : Nat} (hlt : lo < hi) (hlo : pageSize ∣ lo) (hhi : pageSize ∣ hi)
    (htop : lo ≤ 2 ^ 64 - 2 ^ 21) (hend : hi < 2 ^ 64) (hp : p < 2 ^ 64)
    (hcong : lo % largePageSize = p % largePageSize) :
    ∃ mid mid', lo ≤ mid ∧ mid ≤ mid' ∧ mid' ≤ hi ∧
      (rangeCut lo p hi).prePadSize = mid - lo ∧ pageSize ∣ mid ∧
      (rangeCut lo p hi).largeSize = mid' - mid ∧
      (mid < mid' → (rangeCut lo p hi).largeVirt = mid ∧
        (rangeCut lo p hi).largePhys = (p + (mid - lo)) % 2 ^ 64 ∧ largePageSize ∣ mid ∧
        largePageSize ∣ mid' ∧ largePageSize ∣ p + (mid - lo)) ∧
      (rangeCut lo p hi).posPadSize = hi - mid' ∧
      (mid' < hi → (rangeCut lo p hi).posPadVirt = mid' ∧
        (rangeCut lo p hi).posPadPhys = (p + (mid' - lo)) % 2 ^ 64 ∧ pageSize ∣ mid') ∧
      ∀ v, lo ≤ v / largePageSize * largePageSize →
        v / largePageSize * largePageSize + largePageSize ≤ hi → mid ≤ v ∧ v < mid' := by
  unfold pageSize at hlo hhi
  unfold largePageSize at hcong
  obtain ⟨L, hLe⟩ : ∃ L, L = (lo + 0x1FFFFF) / 0x200000 * 0x200000 := ⟨_, rfl⟩
  obtain ⟨H, hHe⟩ : ∃ H, H = hi / 0x200000 * 0x200000 := ⟨_, rfl⟩
  have hL : roundUp lo largePageSize = L := by
    unfold roundUp largePageSize
    omega
  have hP : roundUp p largePageSize = (p + (L - lo)) % 2 ^ 64 := by
    unfold roundUp largePageSize
    omega
  have hH : roundDown hi largePageSize = H := hHe.symm
  simp only [rangeCut, hL, hP, hH]
  unfold pageSize largePageSize
  by_cases hin : L ≤ hi
  · -- a 2 MiB boundary lies in the range: cut at the first and the last one
    have hsize : (if H > L then H - L else 0) = H - L := by split <;> omega
    have hpre : (if L < hi then L else hi) = L := by split <;> omega
    have hwrap : (L + (H - L)) % 2 ^ 64 = H := by omega
    have hwrap' : ((p + (L - lo)) % 2 ^ 64 + (H - L)) % 2 ^ 64 = (p + (H - lo)) % 2 ^ 64 := by
      rw [Nat.mod_add_mod]
      congr 1
      omega
    rw [hsize, hpre, hwrap, hwrap']
    refine ⟨L, H, by omega, by omega, by omega, ?_, by omega, rfl, fun _ => ⟨rfl, rfl, ?_⟩, ?_,
      fun _ => ⟨rfl, rfl, by omega⟩, fun v h1 h2 => by omega⟩
    · split <;> omega
    · omega
    · split <;> omega
  · -- none does: all pages are set by the first call
    have hsize : (if H > L then H - L else 0) = 0 := by split <;> omega
    have hpre : (if L < hi then L else hi) = hi := by split <;> omega
    have hwrap : (L + 0) % 2 ^ 64 = L := by omega
    rw [hsize, hpre, hwrap]
    refine ⟨hi, hi, by omega, by omega, by omega, ?_, by omega, by omega, fun h => ?_, ?_,
      fun h => ?_, fun v h1 h2 => by omega⟩
    · split <;> omega
    · omega
    · split <;> omega
    · omega

/-- One step of a run over the pages of a range: a page is set, and its bytes
are counted if that fails. -/
def PageStep (A : TableSource σ) (pml4 : Nat) (flags : Word) (virt phys lo hi : Nat)
    (M : Nat → Nat → Vmm σ → Prop) : Prop :=
  ∀ large v f s, M v f s → lo ≤ v → v + unitSize large ≤ hi → unitSize large ∣ v →
    unitSize large ∣ physAt virt phys v →
    M (v + unitSize large)
      (f + if (setUnit A pml4 flags large s v (physAt virt phys v)).1 ≠ 0 then unitSize large
        else 0)
      (setUnit A pml4 flags large s v (physAt virt phys v)).2

/-- A part of a range, page by page. -/
theorem PageStep.part {M : Nat → Nat → Vmm σ → Prop} {lo hi v v' g : Nat} {large : Bool}
    (h : PageStep A pml4 flags virt phys lo hi M) (hlo : lo ≤ v) (hle : v ≤ v') (hhi : v' ≤ hi)
    (hvirt : virt ≤ v) (htop : hi ≤ 2 ^ 64) (hphys : physAt virt phys hi ≤ 2 ^ 64)
    (hv : unitSize large ∣ v) (hv' : unitSize large ∣ v')
    (hp : unitSize large ∣ physAt virt phys v) (h0 : M v g s) :
    M v' (g + (setEach (setUnit A pml4 flags large) (unitSize large) s v (physAt virt phys v)
        (v' - v)).1)
      (setEach (setUnit A pml4 flags large) (unitSize large) s v (physAt virt phys v)
        (v' - v)).2 := by
  have hpos : 0 < unitSize large := by cases large <;> decide
  have hat : ∀ x, v ≤ x → physAt v (physAt virt phys v) x = physAt virt phys x := by
    intro x hx
    unfold physAt
    omega
  have hp' : physAt virt phys v + (v' - v) ≤ 2 ^ 64 := by
    unfold physAt at hphys ⊢
    omega
  obtain ⟨n, rfl⟩ := Nat.exists_eq_add_of_le hle
  rw [Nat.add_sub_cancel_left] at hp' ⊢
  refine setEach_induct (M := M) hpos hv hp ((Nat.dvd_add_iff_right hv).mpr hv') (by omega) hp' ?_
    h0
  intro x f s₁ hM hx hle' hdvd hdvd'
  rw [hat x hx] at hdvd' ⊢
  exact h large x f s₁ hM (by omega) (by omega) hdvd hdvd'

/-- One of the three parts of `set_range`, which may be empty. -/
theorem PageStep.addFailed {M : Nat → Nat → Vmm σ → Prop} {lo hi v v' n x p : Nat}
    (h : PageStep A pml4 flags virt phys lo hi M) (large : Bool) (acc : Nat × Vmm σ)
    (hlo : lo ≤ v) (hle : v ≤ v')
    (hhi : v' ≤ hi) (hvirt : virt ≤ v) (htop : hi ≤ 2 ^ 64) (hphys : physAt virt phys hi ≤ 2 ^ 64)
    (hn : n = v' - v)
    (hat : v < v' → x = v ∧ p = physAt virt phys v ∧ unitSize large ∣ v ∧ unitSize large ∣ v' ∧
      unitSize large ∣ physAt virt phys v)
    (h0 : M v acc.1 acc.2) :
    M v'
      (addFailed n (fun s => setEach (setUnit A pml4 flags large) (unitSize large) s x p n) acc).1
      (addFailed n (fun s => setEach (setUnit A pml4 flags large) (unitSize large) s x p n)
        acc).2 := by
  subst hn
  unfold Arch.addFailed
  by_cases hlt : v < v'
  · obtain ⟨rfl, rfl, hd1, hd2, hd3⟩ := hat hlt
    rw [if_pos (by omega)]
    exact h.part hlo hle hhi hvirt htop hphys hd1 hd2 hd3 h0
  · have he : v = v' := by omega
    rw [if_neg (by omega)]
    exact he ▸ h0

/-- The bytes of the two ends that are in no page of the range. -/
def endBytes (virt size : Nat) : Nat :=
  (firstPage virt - virt) + (virt + size - lastPage (virt + size))

/-- The values `set_range` and `vmm_map` compute before they set anything. -/
theorem RangeOk.ends (h : RangeOk virt phys size) :
    (virt + size) % 2 ^ 64 = virt + size ∧
    headOffset virt + tailOffset (virt + size) = endBytes virt size ∧
    virt + size - tailOffset (virt + size) = lastPage (virt + size) ∧
    (virt + headOffset virt) % 2 ^ 64 = firstPage virt ∧
    (phys + headOffset virt) % 2 ^ 64 = physAt virt phys (firstPage virt) := by
  have htop := h.top
  have hphys := h.phys
  rw [headOffset_eq h, tailOffset_eq]
  unfold endBytes physAt firstPage lastPage
  omega

/-- **`set_range`, page by page.** -/
theorem setRange_induct {M : Nat → Nat → Vmm σ → Prop} (hr : RangeOk virt phys size)
    (hcong : virt % largePageSize = phys % largePageSize)
    (hlt : firstPage virt < lastPage (virt + size))
    (h : PageStep A pml4 flags virt phys (firstPage virt) (lastPage (virt + size)) M)
    (h0 : M (firstPage virt) (endBytes virt size) s) :
    M (lastPage (virt + size)) (setRange A s pml4 virt phys size flags false).1
      (setRange A s pml4 virt phys size flags false).2 := by
  obtain ⟨hwrap, hends, hend, hlo, hplo⟩ := hr.ends
  have htop := hr.top
  have hphys := hr.phys
  have hlop : virt ≤ firstPage virt ∧ pageSize ∣ firstPage virt := by
    unfold firstPage pageSize
    omega
  have hhip : lastPage (virt + size) ≤ virt + size ∧ pageSize ∣ lastPage (virt + size) := by
    unfold lastPage pageSize
    omega
  have hcong' : firstPage virt % largePageSize =
      physAt virt phys (firstPage virt) % largePageSize := by
    unfold largePageSize physAt at *
    omega
  unfold setRange
  rw [if_neg (not_not.mpr hcong)]
  simp only [hwrap, hends, hend, hlo, hplo]
  rw [if_neg (by omega)]
  generalize firstPage virt = lo at *
  generalize lastPage (virt + size) = hi at *
  obtain ⟨mid, mid', h1, h2, h3, hpre, hmid, hlarge, hlargeAt, hpos, hposAt, -⟩ :=
    rangeCut_spec hlt hlop.2 hhip.2 (by omega) (by omega) (by unfold physAt; omega) hcong'
  have hat : ∀ x, lo ≤ x → physAt virt phys lo + (x - lo) = physAt virt phys x := by
    intro x hx
    unfold physAt
    omega
  have hmod : ∀ x, lo ≤ x → x ≤ hi →
      (physAt virt phys lo + (x - lo)) % 2 ^ 64 = physAt virt phys x := by
    intro x hx hle
    unfold physAt
    omega
  have hphi : physAt virt phys hi ≤ 2 ^ 64 := by
    unfold physAt
    omega
  have hsmall : ∀ x, lo ≤ x → pageSize ∣ x → pageSize ∣ physAt virt phys x := by
    intro x hx hdvd
    unfold physAt pageSize largePageSize at *
    omega
  simp only [setPages_eq, setLargePages_eq]
  have hone := h.addFailed false (endBytes virt size, s) (Nat.le_refl lo) h1 (by omega) hlop.1
    (by omega) hphi hpre (fun _ => ⟨rfl, rfl, hlop.2, hmid, hsmall lo (Nat.le_refl lo) hlop.2⟩) h0
  have htwo := h.addFailed true _ h1 h2 h3 (by omega) (by omega) hphi hlarge (fun hne => by
    obtain ⟨hv, hp, hd1, hd2, hd3⟩ := hlargeAt hne
    rw [hmod mid h1 (by omega)] at hp
    rw [hat mid h1] at hd3
    exact ⟨hv, hp, hd1, hd2, hd3⟩) hone
  exact h.addFailed false _ (by omega) h3 (Nat.le_refl hi) (by omega) (by omega) hphi hpos
    (fun hne => by
      obtain ⟨hv, hp, hd⟩ := hposAt hne
      rw [hmod mid' (by omega) h3] at hp
      exact ⟨hv, hp, hd, hhip.2, hsmall mid' (by omega) hd⟩) htwo

/-- A range with no whole page in it. -/
theorem setRange_empty (hr : RangeOk virt phys size)
    (hle : lastPage (virt + size) ≤ firstPage virt) :
    setRange A s pml4 virt phys size flags false = (size, s) := by
  obtain ⟨hwrap, -, hend, hlo, -⟩ := hr.ends
  unfold setRange
  split
  · rfl
  · simp only [hwrap, hend, hlo]
    rw [if_pos hle]

/-- The table `vmm_map` works on. -/
def mapRoot (kernPml4 pml4 : Nat) : Nat := if pml4 = kernPml4Token then kernPml4 else pml4

/-- **`vmm_map`, page by page**: it does nothing, or sets the pages of the
range one after the other. -/
theorem vmmMap_induct {kernPml4 : Nat} (hr : RangeOk virt phys size)
    (hne : mapRoot kernPml4 pml4 ≠ 0) (hdvd : pageSize ∣ mapRoot kernPml4 pml4) :
    vmmMap A kernPml4 s pml4 virt phys size flags = (size, s) ∨
    firstPage virt < lastPage (virt + size) ∧
      ∀ M : Nat → Nat → Vmm σ → Prop,
        PageStep A (mapRoot kernPml4 pml4) flags virt phys (firstPage virt)
          (lastPage (virt + size)) M →
        M (firstPage virt) (endBytes virt size) s →
        M (lastPage (virt + size)) (vmmMap A kernPml4 s pml4 virt phys size flags).1
          (vmmMap A kernPml4 s pml4 virt phys size flags).2 := by
  have hmod : mapRoot kernPml4 pml4 % 0x1000 = 0 := Nat.mod_eq_zero_of_dvd hdvd
  have hroot : (if pml4 = kernPml4Token then kernPml4 else pml4) = mapRoot kernPml4 pml4 := rfl
  obtain ⟨hwrap, hends, hend, hlo, hplo⟩ := hr.ends
  unfold vmmMap
  simp only [hroot, hwrap, hends, hend, hlo, hplo]
  rw [if_neg hne, if_neg (not_not.mpr hmod)]
  by_cases hlt : firstPage virt < lastPage (virt + size)
  · by_cases hcong : virt % largePageSize = phys % largePageSize
    · rw [if_neg (not_not.mpr hcong)]
      exact .inr ⟨hlt, fun M h h0 => setRange_induct hr hcong hlt h h0⟩
    · -- no large page can be used: 4 KiB pages throughout
      rw [if_pos hcong]
      by_cases hsmall : virt % pageSize = phys % pageSize
      · rw [if_neg (not_not.mpr hsmall), if_neg (by omega)]
        refine .inr ⟨hlt, fun M h h0 => ?_⟩
        rw [setPages_eq]
        have htop := hr.top
        have hphys := hr.phys
        unfold pageSize at hsmall
        refine h.part (Nat.le_refl _) (Nat.le_of_lt hlt) (Nat.le_refl _) ?_ ?_ ?_ ?_ ?_ ?_ h0
        · unfold firstPage
          omega
        · unfold lastPage
          omega
        · unfold physAt lastPage
          omega
        · show 4096 ∣ firstPage virt
          unfold firstPage
          omega
        · show 4096 ∣ lastPage (virt + size)
          unfold lastPage
          omega
        · show 4096 ∣ physAt virt phys (firstPage virt)
          unfold physAt firstPage
          omega
      · rw [if_pos hsmall]
        exact .inl rfl
  · left
    split
    · split
      · rfl
      · rw [if_pos (by omega)]
    · exact setRange_empty hr (by omega)

/-- Every byte of a page is translated by the same leaf. -/
theorem translate_page (s : Vmm σ) (root : Nat) {v a : Nat} (hv : pageSize ∣ v) (hle : v ≤ a)
    (hlt : a < v + pageSize) :
    s.translate root a = (s.translate root v).map fun t => { t with phys := t.phys + (a - v) } := by
  unfold pageSize at hv hlt
  have hcanon : Canonical a ↔ Canonical v := by
    unfold Canonical
    omega
  have hpath : pathOf a = pathOf v := pathOf_inj.mpr (by omega)
  unfold Vmm.translate
  by_cases hc : Canonical v
  · rw [if_pos (hcanon.mpr hc), if_pos hc, hpath, Option.map_map]
    congr 1
    funext ⟨k, e⟩
    have h1 : a % 2 ^ 12 = v % 2 ^ 12 + (a - v) := by omega
    have h2 : a % 2 ^ 21 = v % 2 ^ 21 + (a - v) := by omega
    have h3 : a % 2 ^ 30 = v % 2 ^ 30 + (a - v) := by omega
    rcases k with _ | _ | k
    · simp only [leafTranslation, Function.comp, h1, Nat.add_assoc]
    · simp only [leafTranslation, Function.comp, h2, Nat.add_assoc]
    · simp only [leafTranslation, Function.comp, h3, Nat.add_assoc]
  · rw [if_neg (fun h => hc (hcanon.mp h)), if_neg hc]
    rfl

/-! ## What a range does to translations -/

/-- The values a range may be given: its own physical address, under a leaf of
either size. -/
def MapsTo (virt phys : Nat) (flags : Word) (a : Nat) (t : Translation) : Prop :=
  ∃ large, t = ⟨phys + (a - virt), unitSize large, unitFlags large flags⟩

/-- What holds after the pages up to `v`: `f` bytes have not been mapped, those
at the two ends of the range among them. -/
structure MapRun (A : TableSource σ) (root virt phys size : Nat) (flags : Word) (s : Vmm σ)
    (v f : Nat) (s' : Vmm σ) : Prop where
  ok : TreeOk A root s'
  fills : ∃ lost, f = endBytes virt size + lost ∧
    Fills (MapsTo virt phys flags) (s.translate root) (s'.translate root) (firstPage virt) v lost

/-- A page of the range is canonical and has a physical address that fits. -/
theorem RangeOk.page (hr : RangeOk virt phys size) {v n : Nat} (hn : 0 < n)
    (hlo : firstPage virt ≤ v) (hhi : v + n ≤ lastPage (virt + size)) :
    Canonical v ∧ physAt virt phys v < 2 ^ 63 ∧ virt ≤ v := by
  have hhalf := hr.half
  have htop := hr.top
  have hphys := hr.phys
  have hlo' : virt ≤ firstPage virt := by
    unfold firstPage
    omega
  have hhi' : lastPage (virt + size) ≤ virt + size := by
    unfold lastPage
    omega
  unfold Canonical physAt
  omega

/-- One page more. -/
theorem mapRun_step (hr : RangeOk virt phys size) (hf : FlagsOk flags)
    (hpres : present flags = true) :
    PageStep A pml4 flags virt phys (firstPage virt) (lastPage (virt + size))
      (MapRun A (virtToPhys pml4) virt phys size flags s) := by
  intro large v f s₁ hrun hlo hhi hv hp
  have hpos : 0 < unitSize large := by cases large <;> decide
  obtain ⟨hc, hlim, hvirt⟩ := hr.page hpos hlo hhi
  obtain ⟨lost, hlost, hfills⟩ := hrun.fills
  have hset := setUnit_spec hrun.ok hc hv hp hlim hf
  refine ⟨hset.ok, ?_⟩
  by_cases hcode : (setUnit A pml4 flags large s₁ v (physAt virt phys v)).1 = 0
  · -- the page was free: all its bytes are newly mapped
    refine ⟨lost, by rw [if_neg (not_not.mpr hcode)]; omega, ?_⟩
    refine hfills.trans (Fills.all hset.frame fun a ha => ?_) hlo (by omega)
    obtain ⟨hold, hnew⟩ := hset.done hcode a ha
    rw [if_pos hpres] at hnew
    refine ⟨hold, _, hnew, large, ?_⟩
    have haddr : physAt virt phys v + (a - v) = phys + (a - virt) := by
      unfold physAt
      omega
    rw [unitTranslation, haddr]
  · refine ⟨lost + unitSize large, by rw [if_pos hcode]; omega, ?_⟩
    have hskip := Fills.skip (P := MapsTo virt phys flags) v (v + unitSize large)
      (hset.failed hcode)
    rw [Nat.add_sub_cancel_left] at hskip
    exact hfills.trans hskip hlo (by omega)

/-- **`vmm_map` fills its range** and counts what it did not map. -/
theorem vmmMap_fills {kernPml4 : Nat} (hne : mapRoot kernPml4 pml4 ≠ 0)
    (hdvd : pageSize ∣ mapRoot kernPml4 pml4)
    (htree : TreeOk A (virtToPhys (mapRoot kernPml4 pml4)) s) (hr : RangeOk virt phys size)
    (hf : FlagsOk flags) (hpres : present flags = true) :
    TreeOk A (virtToPhys (mapRoot kernPml4 pml4))
      (vmmMap A kernPml4 s pml4 virt phys size flags).2 ∧
    Fills (MapsTo virt phys flags) (s.translate (virtToPhys (mapRoot kernPml4 pml4)))
      ((vmmMap A kernPml4 s pml4 virt phys size flags).2.translate
        (virtToPhys (mapRoot kernPml4 pml4)))
      virt (virt + size) (vmmMap A kernPml4 s pml4 virt phys size flags).1 := by
  have hsame : ∀ lo hi, Fills (MapsTo virt phys flags)
      (s.translate (virtToPhys (mapRoot kernPml4 pml4)))
      (s.translate (virtToPhys (mapRoot kernPml4 pml4))) lo hi (hi - lo) :=
    fun lo hi => Fills.skip lo hi fun _ => rfl
  rcases vmmMap_induct (A := A) (s := s) hr hne hdvd with he | ⟨hlt, hinduct⟩
  · rw [he]
    have hskip := hsame virt (virt + size)
    rw [Nat.add_sub_cancel_left] at hskip
    exact ⟨htree, hskip⟩
  · have hstart : MapRun A (virtToPhys (mapRoot kernPml4 pml4)) virt phys size flags s
        (firstPage virt) (endBytes virt size) s := by
      refine ⟨htree, 0, rfl, ?_⟩
      have hskip := hsame (firstPage virt) (firstPage virt)
      rwa [Nat.sub_self] at hskip
    have hrun := hinduct _ (mapRun_step hr hf hpres) hstart
    obtain ⟨lost, hlost, hfills⟩ := hrun.fills
    refine ⟨hrun.ok, ?_⟩
    have hlo : virt ≤ firstPage virt := by
      unfold firstPage
      omega
    have hhi : lastPage (virt + size) ≤ virt + size := by
      unfold lastPage
      omega
    have hwide := hfills.widen hlo (Nat.le_of_lt hlt) hhi
    rw [hlost]
    have hcount : endBytes virt size + lost =
        firstPage virt - virt + lost + (virt + size - lastPage (virt + size)) := by
      unfold endBytes
      omega
    rwa [hcount]

/-- **`vmm_map` is exact and framed.** A page wholly inside the range was not
translated and is mapped with the flags asked for, as a 4 KiB page or as part
of a 2 MiB page, or is as it was; addresses outside the range are as they were;
and the result is the size less the bytes newly mapped. -/
theorem vmmMap_exact (A : TableSource σ) (kernPml4 pml4 virt phys size : Nat) (flags : Word)
    (s : Vmm σ) (hne : mapRoot kernPml4 pml4 ≠ 0) (hdvd : pageSize ∣ mapRoot kernPml4 pml4)
    (htree : TreeOk A (virtToPhys (mapRoot kernPml4 pml4)) s) (hr : RangeOk virt phys size)
    (hf : FlagsOk flags) (hpres : present flags = true) :
    let root := virtToPhys (mapRoot kernPml4 pml4)
    let r := (vmmMap A kernPml4 s pml4 virt phys size flags).1
    let s' := (vmmMap A kernPml4 s pml4 virt phys size flags).2
    (∀ v, pageSize ∣ v → virt ≤ v → v + pageSize ≤ virt + size →
      (∃ large, ∀ a, v ≤ a → a < v + pageSize → s.translate root a = none ∧
        s'.translate root a =
          some ⟨phys + (a - virt), unitSize large, unitFlags large flags⟩) ∨
      (∀ a, v ≤ a → a < v + pageSize → s'.translate root a = s.translate root a)) ∧
    (∀ a, ¬ (virt ≤ a ∧ a < virt + size) → s'.translate root a = s.translate root a) ∧
    r = size - ((Finset.Ico virt (virt + size)).filter fun a =>
      (s.translate root a).isNone ∧ (s'.translate root a).isSome).card := by
  intro root r s'
  obtain ⟨-, hfills⟩ := vmmMap_fills hne hdvd htree hr hf hpres
  refine ⟨fun v hv hlo hhi => ?_, hfills.frame, ?_⟩
  · rcases hfills.cell v with hsame | ⟨hnone, t, hsome, large, ht⟩
    · right
      intro a hle hlt
      rw [translate_page s' root hv hle hlt, translate_page s root hv hle hlt]
      exact congrArg (Option.map _) hsame
    · left
      refine ⟨large, fun a hle hlt => ?_⟩
      have hphys : phys + (v - virt) + (a - v) = phys + (a - virt) := by omega
      rw [translate_page s' root hv hle hlt, translate_page s root hv hle hlt]
      refine ⟨congrArg (Option.map _) hnone, (congrArg (Option.map _) hsome).trans ?_⟩
      rw [ht, Option.map_some, hphys]
  · have hcount := hfills.count
    rw [Nat.add_sub_cancel_left] at hcount
    exact Nat.eq_sub_of_add_eq hcount

/-- Pages handed out one after the other up to a limit: a table source. -/
def bumpSource (limit : Nat) (hlimit : limit ≤ hhdmLimit) : TableSource Nat where
  alloc next :=
    if pageSize ∣ next ∧ next < limit then (some next, next + pageSize) else (none, next)
  avail next p := pageSize ∣ p ∧ next ≤ p ∧ p < limit
  alloc_avail := by
    intro next ptr next' h
    split at h
    · rename_i hc
      cases h
      rw [virtToPhys_low hc.1 (by omega)]
      unfold pageSize at hc ⊢
      omega
    · cases h
  avail_of_alloc := by
    intro next p h
    split at h
    · unfold pageSize at h ⊢
      omega
    · exact h
  avail_page := fun next p h => ⟨h.1, by omega⟩

/-- A cleared root is a well-formed tree. -/
theorem TreeOk.of_cleared (hzero : ∀ i, s.mem root i = 0)
    (havail : ¬ A.avail s.source root) : TreeOk A root s := by
  have hnil : ∀ p t, s.tableAt root p = some t → p = [] ∧ t = root := by
    intro p t h
    cases p with
    | nil => exact ⟨rfl, (Option.some.inj h).symm⟩
    | cons i p =>
        have hchild : child (s.mem root i) = none := by
          rw [hzero i]
          decide
        simp only [nodeAt, hchild] at h
        cases h
  refine ⟨fun p q u _ _ hp hq => ?_, fun p t hpos _ ht => ?_, fun p t _ ht => ?_,
    fun i hi => ?_⟩
  · rw [(hnil p u hp).1, (hnil q u hq).1]
  · rw [(hnil p t ht).1] at hpos
    exact absurd hpos (Nat.lt_irrefl 0)
  · rw [(hnil p t ht).2]
    exact havail
  · rw [hzero i] at hi
    exact absurd hi (by decide)

/-- An unaligned range around a 2 MiB page, into a cleared tree. -/
theorem vmmMap_exact_cleared :
    let A := bumpSource 0x10000 (by decide)
    let s : Vmm Nat := ⟨.ready, fun _ _ => 0, 0x2000, false, false⟩
    let r := (vmmMap A 0x1000 s kernPml4Token 0x3FF800 0x9FF800 0x202000 ptPresent).1
    let s' := (vmmMap A 0x1000 s kernPml4Token 0x3FF800 0x9FF800 0x202000 ptPresent).2
    TreeOk A 0x1000 s ∧ RangeOk 0x3FF800 0x9FF800 0x202000 ∧
    (∀ a, ¬ (0x3FF800 ≤ a ∧ a < 0x3FF800 + 0x202000) →
      s'.translate 0x1000 a = s.translate 0x1000 a) ∧
    r = 0x202000 - ((Finset.Ico 0x3FF800 (0x3FF800 + 0x202000)).filter fun a =>
      (s.translate 0x1000 a).isNone ∧ (s'.translate 0x1000 a).isSome).card := by
  intro A s r s'
  have hroot : virtToPhys (mapRoot 0x1000 kernPml4Token) = 0x1000 := by decide
  have htree : TreeOk A 0x1000 s := TreeOk.of_cleared (fun _ => rfl) fun h => by
    have hle : 0x2000 ≤ 0x1000 := h.2.1
    omega
  have hrange : RangeOk 0x3FF800 0x9FF800 0x202000 := ⟨by decide, by decide, by decide⟩
  have h := vmmMap_exact A 0x1000 kernPml4Token 0x3FF800 0x9FF800 0x202000 ptPresent s (by decide)
    (by decide) (hroot ▸ htree) hrange (by unfold FlagsOk; decide) (by decide)
  rw [hroot] at h
  exact ⟨htree, hrange, h.2⟩

end DevOS.Arch
