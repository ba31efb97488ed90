import DevOS.Arch.VmmScan

/-!
# Page tables — what the scan answers

`vmm_virt_range_has_mapping` is exact for page-aligned ranges that stay out of
the last 512 GiB of the address space. For other ranges it can go wrong in two
ways, and the conditions are exact: from an unaligned start the cursor can jump
over the last page, and a gap that reaches the top sends it back to the bottom
for ever unless there is a mapping on the way.
-/

namespace DevOS.Arch

open DevOS.Lib

variable {σ : Type}

section Scan

variable {root kernPml4 pml4 virt size : Nat} {s : Vmm σ}

theorem hasMapping_eq (virt size : Nat) (hne : mapRoot kernPml4 pml4 ≠ 0)
    (hdvd : pageSize ∣ mapRoot kernPml4 pml4)
    (htree : Readable (virtToPhys (mapRoot kernPml4 pml4)) s) (fuel : Nat) :
    vmmVirtRangeHasMapping kernPml4 s pml4 virt size fuel =
      iterate (gapBody (gapOf (virtToPhys (mapRoot kernPml4 pml4)) s) ((virt + size) % 2 ^ 64)) fuel
        virt := by
  have hmod : mapRoot kernPml4 pml4 % 0x1000 = 0 := Nat.mod_eq_zero_of_dvd hdvd
  have hroot : (if pml4 = kernPml4Token then kernPml4 else pml4) = mapRoot kernPml4 pml4 := rfl
  have hbody : scanBody s (mapRoot kernPml4 pml4) ((virt + size) % 2 ^ 64) =
      gapBody (gapOf (virtToPhys (mapRoot kernPml4 pml4)) s) ((virt + size) % 2 ^ 64) :=
    funext fun v => scanBody_eq htree _ v
  rw [vmmVirtRangeHasMapping]
  simp only [hroot, hbody]
  rw [if_neg hne, if_neg (not_not.mpr hmod)]

theorem translate_eq_none_of_gap (h : Readable root s) {a : Nat} (hgap : gapOf root s a ≠ none) :
    s.translate root a = none := by
  have hleaf : s.leafAt root (pathOf a) = none := by
    by_contra hne
    exact hgap ((gapOf_eq_none_iff h a).mpr hne)
  rw [Vmm.translate, hleaf]
  split
  · rfl
  · rfl

theorem translate_ne_none_iff (h : Readable root s) {a : Nat} (hc : Canonical a) :
    s.translate root a ≠ none ↔ gapOf root s a = none := by
  rw [gapOf_eq_none_iff h, Vmm.translate, if_pos hc, ne_eq, ne_eq, Option.map_eq_none_iff]

/-- Below the last 512 GiB no gap reaches the top. -/
theorem not_topGap_of_le {stop : Nat} (hpos : 0 < stop) (hle : stop ≤ 2 ^ 64 - 2 ^ 39) :
    ¬ TopGap (gapOf root s) stop := by
  rintro ⟨n, hn, htop⟩
  obtain ⟨lo, hs⟩ := gapFun_gapOf root s _ _ (by omega) hn
  have h1 := hs.lo_le
  have h2 := hs.n_le
  rw [← hs.base] at htop
  omega

/-- A page-aligned start jumps over nothing. -/
theorem not_skipped_of_dvd {gap : Nat → Option Nat} {stop : Nat} (hvirt : pageSize ∣ virt) :
    ¬ Skipped gap virt stop := by
  refine not_skipped_of_le ?_
  unfold pageSize at hvirt
  omega

/-- The range of an exact scan: in one half, below the last 512 GiB. -/
def ScanRange (virt size : Nat) : Prop :=
  virt + size ≤ 2 ^ 47 ∨ 2 ^ 64 - 2 ^ 47 ≤ virt ∧ virt + size ≤ 0xFFFFFF8000000000

theorem ScanRange.canonical {a : Nat} (h : ScanRange virt size) (h1 : virt ≤ a)
    (h2 : a < virt + size) : Canonical a := by
  unfold ScanRange at h
  unfold Canonical
  omega

theorem scanRange_not_topGap (root : Nat) (s : Vmm σ) (h : ScanRange virt size)
    (hpos : 0 < virt + size) :
    ¬ TopGap (gapOf root s) (virt + size) :=
  not_topGap_of_le hpos (by unfold ScanRange at h; omega)

variable (hne : mapRoot kernPml4 pml4 ≠ 0) (hdvd : pageSize ∣ mapRoot kernPml4 pml4)
  (htree : Readable (virtToPhys (mapRoot kernPml4 pml4)) s) (hvirt : pageSize ∣ virt)
  (hrange : ScanRange virt size)

include hne hdvd htree hvirt hrange

/-- The scan ends, and its answer tells whether a page of the range has a
leaf. -/
theorem hasMapping_ends :
    ∃ fuel r, vmmVirtRangeHasMapping kernPml4 s pml4 virt size fuel = some r ∧
      ((r = 1 ∧ ∃ a, virt ≤ a ∧ a < virt + size ∧
          gapOf (virtToPhys (mapRoot kernPml4 pml4)) s a = none) ∨
        (r = 0 ∧ ∀ a, virt ≤ a → a < virt + size →
          gapOf (virtToPhys (mapRoot kernPml4 pml4)) s a ≠ none)) := by
  have hlt : virt + size < 2 ^ 64 := by
    unfold ScanRange at hrange
    omega
  have hgap := gapFun_gapOf (virtToPhys (mapRoot kernPml4 pml4)) s
  by_cases hpos : 0 < virt + size
  · have hno := scanRange_not_topGap (virtToPhys (mapRoot kernPml4 pml4)) s hrange hpos
    obtain ⟨fuel, r, hr⟩ := scan_terminates_low hgap hlt hno (show virt < 2 ^ 64 by omega)
    refine ⟨fuel, r, ?_, ?_⟩
    · rw [hasMapping_eq virt size hne hdvd htree, Nat.mod_eq_of_lt hlt]
      exact hr
    · rcases scan_result hr with rfl | rfl
      · exact .inr ⟨rfl, scan_zero hgap hlt (not_skipped_of_dvd hvirt) (by omega) hr⟩
      · exact .inl ⟨rfl, scan_one hgap hlt hno (by omega) hr⟩
  · refine ⟨1, 0, ?_, .inr ⟨rfl, fun a _ ha => by omega⟩⟩
    rw [hasMapping_eq virt size hne hdvd htree, Nat.mod_eq_of_lt hlt, iterate, gapBody,
      if_neg (by omega)]

end Scan

/-- **`vmm_virt_range_has_mapping` is exact** on page-aligned ranges in one half
of the address space, below the last 512 GiB: the scan ends, with 1 if a page
of the range is translated and with 0 otherwise. -/
theorem vmmVirtRangeHasMapping_exact (kernPml4 pml4 virt size : Nat) (s : Vmm σ)
    (hne : mapRoot kernPml4 pml4 ≠ 0) (hdvd : pageSize ∣ mapRoot kernPml4 pml4)
    (htree : Readable (virtToPhys (mapRoot kernPml4 pml4)) s) (hvirt : pageSize ∣ virt)
    (hsize : pageSize ∣ size)
    (hrange : virt + size ≤ 2 ^ 47 ∨
      2 ^ 64 - 2 ^ 47 ≤ virt ∧ virt + size ≤ 0xFFFFFF8000000000) :
    ∃ fuel, ∀ rounds, fuel ≤ rounds →
      ((∃ a, pageSize ∣ a ∧ virt ≤ a ∧ a + pageSize ≤ virt + size ∧
          s.translate (virtToPhys (mapRoot kernPml4 pml4)) a ≠ none) →
        vmmVirtRangeHasMapping kernPml4 s pml4 virt size rounds = some 1) ∧
      ((∀ a, pageSize ∣ a → virt ≤ a → a + pageSize ≤ virt + size →
          s.translate (virtToPhys (mapRoot kernPml4 pml4)) a = none) →
        vmmVirtRangeHasMapping kernPml4 s pml4 virt size rounds = some 0) := by
  obtain ⟨fuel, r, hr, hcases⟩ := hasMapping_ends hne hdvd htree hvirt hrange
  refine ⟨fuel, fun rounds hrounds => ?_⟩
  have hstay : vmmVirtRangeHasMapping kernPml4 s pml4 virt size rounds = some r := by
    rw [hasMapping_eq virt size hne hdvd htree] at hr ⊢
    exact iterate_mono hr hrounds
  unfold pageSize at hvirt hsize
  rcases hcases with ⟨rfl, a, ha1, ha2, hgap⟩ | ⟨rfl, hall⟩
  · refine ⟨fun _ => hstay, fun hnone => ?_⟩
    -- the page of `a` lies in the range and is translated
    have hpage : a / 4096 * 4096 / 2 ^ 12 = a / 2 ^ 12 := by omega
    rw [← gapOf_page hpage] at hgap
    have hlo : virt ≤ a / 4096 * 4096 := by omega
    have hhi : a / 4096 * 4096 + 4096 ≤ virt + size := by omega
    have hc := ScanRange.canonical hrange hlo (by omega)
    exact absurd (hnone _ (Nat.dvd_mul_left _ _) hlo hhi)
      ((translate_ne_none_iff htree hc).mpr hgap)
  · refine ⟨fun hsome => ?_, fun _ => hstay⟩
    obtain ⟨a, -, ha1, ha2, hsome⟩ := hsome
    unfold pageSize at ha2
    exact absurd (translate_eq_none_of_gap htree (hall a ha1 (by omega))) hsome

/-- A tree whose entries all hold addresses in reach can be walked. -/
theorem Readable.of_addrs {root : Nat} {s : Vmm σ} (haddr : ∀ t i, addrOf (s.mem t i) < hhdmLimit)
    (hpml4 : ∀ i, present (s.mem root i) = true → pse (s.mem root i) = false) :
    Readable root s := by
  refine ⟨fun p t hpos _ ht => ?_, hpml4⟩
  induction p using List.reverseRecOn with
  | nil => exact absurd hpos (by simp)
  | append_singleton p i _ =>
      rw [Vmm.tableAt, nodeAt_concat] at ht
      obtain ⟨u, -, hu⟩ := Option.bind_eq_some_iff.mp ht
      rw [child] at hu
      split at hu
      · cases hu
        exact haddr u i
      · cases hu

/-- Four tables below 64 KiB that map the page at `0x1000` and nothing else. -/
def onePageTree : Vmm Unit where
  mode := .ready
  mem t i :=
    if t = 0x1000 ∧ i = 0 then 0x2003
    else if t = 0x2000 ∧ i = 0 then 0x3003
    else if t = 0x3000 ∧ i = 0 then 0x4003
    else if t = 0x4000 ∧ i = 1 then 0x9003
    else 0
  source := ()
  denied := false
  faulted := false

theorem onePageTree_readable : Readable (virtToPhys (mapRoot 0 0x1000)) onePageTree := by
  refine Readable.of_addrs (fun t i => ?_) (fun i => ?_)
  · simp only [onePageTree]
    split_ifs <;> decide
  · simp only [onePageTree]
    split_ifs <;> decide

theorem vmmVirtRangeHasMapping_exact_onePage :
    ∃ fuel, ∀ rounds, fuel ≤ rounds →
      ((∃ a, pageSize ∣ a ∧ 0 ≤ a ∧ a + pageSize ≤ 0 + 0x3000 ∧
          onePageTree.translate (virtToPhys (mapRoot 0 0x1000)) a ≠ none) →
        vmmVirtRangeHasMapping 0 onePageTree 0x1000 0 0x3000 rounds = some 1) ∧
      ((∀ a, pageSize ∣ a → 0 ≤ a → a + pageSize ≤ 0 + 0x3000 →
          onePageTree.translate (virtToPhys (mapRoot 0 0x1000)) a = none) →
        vmmVirtRangeHasMapping 0 onePageTree 0x1000 0 0x3000 rounds = some 0) :=
  vmmVirtRangeHasMapping_exact 0 0x1000 0 0x3000 onePageTree (by decide) (by decide)
    onePageTree_readable (by decide) (by decide) (by decide)

/-! ## Any start -/

/-- The scan of a range is safe: it ends, and when it answers 0 no byte of the
range is translated. -/
def ScanSafe (kernPml4 pml4 virt size : Nat) (s : Vmm σ) : Prop :=
  (∃ fuel r, vmmVirtRangeHasMapping kernPml4 s pml4 virt size fuel = some r) ∧
    ∀ fuel, vmmVirtRangeHasMapping kernPml4 s pml4 virt size fuel = some 0 →
      ∀ a, virt ≤ a → a < virt + size →
        s.translate (virtToPhys (mapRoot kernPml4 pml4)) a = none

theorem canonical_page {a v : Nat} (h : a / 4096 = v / 4096) (hc : Canonical a) : Canonical v := by
  unfold Canonical at *
  omega

/-- All addresses of a page are translated, or none. -/
theorem translate_eq_none_page {root a v : Nat} {s : Vmm σ} (htree : Readable root s)
    (h : a / 4096 = v / 4096) (hv : s.translate root v = none) : s.translate root a = none := by
  by_contra hne
  have hc : Canonical a := by
    by_contra hnc
    exact hne (by rw [Vmm.translate, if_neg hnc])
  have hgap := (translate_ne_none_iff htree hc).mp hne
  rw [gapOf_page h] at hgap
  exact (translate_ne_none_iff htree (canonical_page h hc)).mpr hgap hv

/-- **When the scan is safe.** For every start and every size that ends below
`2 ^ 64`: the range is empty; or the cursor jumps over the last page, and that
page is not translated; or it does not, and some address below the end has a
leaf on its walk or the missing entry over the last byte ends below the top. -/
theorem scanSafe_iff (kernPml4 pml4 virt size : Nat) (s : Vmm σ)
    (hne : mapRoot kernPml4 pml4 ≠ 0) (hdvd : pageSize ∣ mapRoot kernPml4 pml4)
    (htree : Readable (virtToPhys (mapRoot kernPml4 pml4)) s) (hend : virt + size < 2 ^ 64) :
    ScanSafe kernPml4 pml4 virt size s ↔
      size = 0 ∨
      Skipped (gapOf (virtToPhys (mapRoot kernPml4 pml4)) s) virt (virt + size) ∧
        s.translate (virtToPhys (mapRoot kernPml4 pml4)) (virt + size - 1) = none ∨
      ¬ Skipped (gapOf (virtToPhys (mapRoot kernPml4 pml4)) s) virt (virt + size) ∧
        ((∃ a < virt + size, gapOf (virtToPhys (mapRoot kernPml4 pml4)) s a = none) ∨
          ¬ TopGap (gapOf (virtToPhys (mapRoot kernPml4 pml4)) s) (virt + size)) := by
  have hrun := fun fuel => hasMapping_eq virt size hne hdvd htree fuel
  have hgap := gapFun_gapOf (virtToPhys (mapRoot kernPml4 pml4)) s
  simp only [Nat.mod_eq_of_lt hend] at hrun
  unfold ScanSafe
  simp only [hrun]
  generalize virtToPhys (mapRoot kernPml4 pml4) = root at *
  rcases Nat.eq_zero_or_pos size with hzero | hpos
  · refine iff_of_true ⟨⟨1, 0, ?_⟩, fun _ _ a ha hlt => by omega⟩ (.inl hzero)
    rw [iterate, gapBody, if_neg (by omega)]
  · have hlt : virt < virt + size := by omega
    by_cases hskip : Skipped (gapOf root s) virt (virt + size)
    · -- the answer is 0 in any case
      obtain ⟨fuel, hfuel⟩ := scan_skipped hend hskip hlt
      constructor
      · rintro ⟨-, hsafe⟩
        exact .inr (.inl ⟨hskip, hsafe fuel hfuel _ (by omega) (by omega)⟩)
      · rintro (h0 | ⟨-, hlast⟩ | ⟨hno, -⟩)
        · omega
        · refine ⟨⟨fuel, 0, hfuel⟩, fun _ _ a ha halt => ?_⟩
          by_cases hsame : a / 4096 = (virt + size - 1) / 4096
          · exact translate_eq_none_page htree hsame hlast
          · refine translate_eq_none_of_gap htree ?_
            rw [hskip.2 a (by omega) (by omega)]
            exact Option.some_ne_none _
        · exact absurd hskip hno
    · constructor
      · rintro ⟨⟨fuel, r, hends⟩, -⟩
        refine .inr (.inr ⟨hskip, ?_⟩)
        by_contra hbad
        push Not at hbad
        rw [scan_diverges hgap hend hbad.1 hbad.2 hskip hlt fuel] at hends
        cases hends
      · rintro (h0 | ⟨hyes, -⟩ | ⟨-, hwhy⟩)
        · omega
        · exact absurd hyes hskip
        · refine ⟨?_, fun fuel hfuel a ha halt => ?_⟩
          · rcases hwhy with ⟨a, ha, hhit⟩ | hno
            · exact scan_terminates_hit hgap hend (by omega) hhit (by omega)
            · exact scan_terminates_low hgap hend hno (by omega)
          · exact translate_eq_none_of_gap htree
              (scan_zero hgap hend hskip (by omega) hfuel a ha halt)

theorem scanSafe_iff_onePage :
    ScanSafe 0 0x1000 0 0x1800 onePageTree ↔
      0x1800 = 0 ∨
      Skipped (gapOf (virtToPhys (mapRoot 0 0x1000)) onePageTree) 0 (0 + 0x1800) ∧
        onePageTree.translate (virtToPhys (mapRoot 0 0x1000)) (0 + 0x1800 - 1) = none ∨
      ¬ Skipped (gapOf (virtToPhys (mapRoot 0 0x1000)) onePageTree) 0 (0 + 0x1800) ∧
        ((∃ a < 0 + 0x1800, gapOf (virtToPhys (mapRoot 0 0x1000)) onePageTree a = none) ∨
          ¬ TopGap (gapOf (virtToPhys (mapRoot 0 0x1000)) onePageTree) (0 + 0x1800)) :=
  scanSafe_iff 0 0x1000 0 0x1800 onePageTree (by decide) (by decide) onePageTree_readable
    (by decide)

/-- The range `[0x800, 0x1800)` reaches into the mapped page. The cursor starts
at `0x800`, finds no entry, moves on to `0x1800` and has left the range. -/
theorem scanSafe_misses_onePage :
    ¬ ∀ (kernPml4 pml4 virt size : Nat) (s : Vmm Unit), mapRoot kernPml4 pml4 ≠ 0 →
      pageSize ∣ mapRoot kernPml4 pml4 → Readable (virtToPhys (mapRoot kernPml4 pml4)) s →
      virt + size < 2 ^ 64 → ScanSafe kernPml4 pml4 virt size s := by
  intro hall
  have hsafe := hall 0 0x1000 0x800 0x1000 onePageTree (by decide) (by decide)
    onePageTree_readable (by decide)
  have hzero : vmmVirtRangeHasMapping 0 onePageTree 0x1000 0x800 0x1000 2 = some 0 := by
    decide +kernel
  have hnone := hsafe.2 2 hzero 0x1000 (by decide) (by decide)
  exact absurd hnone (by decide +kernel)

end DevOS.Arch
