import DevOS.Arch.VmmMap

/-!
# Page tables — the leaves a mapping adds

Where `vmm_map` returns 0 it has added leaves for the pages of its physical
range and no others, the first page of the range has one of its own, and every
2 MiB leaf is on a 2 MiB boundary.
-/

namespace DevOS.Arch

open DevOS.Lib

variable {σ : Type} {A : TableSource σ} {root pml4 virt phys size : Nat} {s : Vmm σ} {flags : Word}

/-- A leaf that maps from `x` on: a 4 KiB page, or a 2 MiB page on its
boundary. -/
structure LeafFrom (x : Nat) (leaf : Nat × Word) : Prop where
  addr : addrOf leaf.2 = x
  level : leaf.1 = 0 ∨ leaf.1 = 1 ∧ largePageSize ∣ x

/-- The leaf that `set_page` or `set_large_page` writes. -/
theorem unitLeaf_from {large : Bool} (hphys : unitSize large ∣ phys) (hlim : phys < 2 ^ 63)
    (hf : FlagsOk flags) (hpres : present flags = true) :
    ∃ b, unitLeaf large phys flags = some b ∧ LeafFrom phys b := by
  cases large with
  | true =>
      obtain ⟨hp, hpse, -, -⟩ := large_spec hphys hlim hf
      have hd : largePageSize ∣ phys := hphys
      have hx := page_and_flagsMask (Dvd.dvd.trans (by decide) hd) hlim
      have hfits : (flags ||| ptPse) &&& ~~~flagsMask = 0#64 := by
        have hbits : ptPse &&& ~~~flagsMask = 0#64 := by decide
        rw [BitVec.and_comm, BitVec.and_or_distrib_left, BitVec.and_comm, hf, BitVec.and_comm,
          hbits, BitVec.or_zero]
      refine ⟨(1, (BitVec.ofNat 64 phys &&& ~~~largeFlagsMask) ||| flags ||| ptPse), ?_, ?_,
        .inr ⟨rfl, hd⟩⟩
      · simp only [unitLeaf, if_true, leaf, hp, hpse, hpres, Bool.and_self]
      · show addrOf _ = phys
        rw [and_not_of_disjoint (large_and_largeFlagsMask hd hlim), BitVec.or_assoc, addrOf,
          packed_base hx hfits, BitVec.toNat_ofNat]
        exact Nat.mod_eq_of_lt (by omega)
  | false =>
      obtain ⟨hp, haddr, -⟩ := small_spec hphys hlim hf
      refine ⟨(0, (BitVec.ofNat 64 phys &&& ~~~flagsMask) ||| flags), ?_, haddr, .inl rfl⟩
      simp only [unitLeaf, Bool.false_eq_true, if_false, leaf, hp, hpres, if_true]

/-- A page's own path leads below the word that is written for it. -/
theorem unitPath_isInitial (large : Bool) (v : Nat) : unitPath large v <+: pathOf v := by
  cases large with
  | true => exact regionPath_below.mpr rfl
  | false => exact List.prefix_rfl

/-- What holds after the pages up to `v`: the leaves are the old ones and some
for pages of the range, and as long as every byte was mapped the first page has
one. -/
structure LeafRun (A : TableSource σ) (root virt phys size : Nat) (s : Vmm σ) (v f : Nat)
    (s' : Vmm σ) : Prop where
  ok : TreeOk A root s'
  leaves : ∀ q, q.length = 4 → s'.leafAt root q = s.leafAt root q ∨
    s.leafAt root q = none ∧ ∃ x b, virt ≤ x ∧ x < v ∧ s'.leafAt root q = some b ∧
      LeafFrom (physAt virt phys x) b
  count : endBytes virt size ≤ f
  first : f = endBytes virt size → firstPage virt < v →
    ∃ b, s'.leafAt root (pathOf (firstPage virt)) = some b ∧
      LeafFrom (physAt virt phys (firstPage virt)) b

/-- One page more. -/
theorem leafRun_step (hr : RangeOk virt phys size) (hf : FlagsOk flags)
    (hpres : present flags = true) :
    PageStep A pml4 flags virt phys (firstPage virt) (lastPage (virt + size))
      (LeafRun A (virtToPhys pml4) virt phys size s) := by
  intro large v f s₁ hrun hlo hhi hv hp
  have hpos : 0 < unitSize large := by cases large <;> decide
  obtain ⟨-, hlim, hvirt⟩ := hr.page hpos hlo hhi
  have hset := setUnit_leaf hrun.ok hv hp flags
  obtain ⟨b, hb, hfrom⟩ := unitLeaf_from hp hlim hf hpres
  by_cases hcode : (setUnit A pml4 flags large s₁ v (physAt virt phys v)).1 = 0
  · have hdone := hset.done hcode
    rw [if_neg (not_not.mpr hcode), Nat.add_zero]
    refine ⟨hset.ok, fun q hq => ?_, hrun.count, fun hcount _ => ?_⟩
    · by_cases hpre : unitPath large v <+: q
      · -- below the word that was written: nothing before, the page's leaf now
        obtain ⟨hnew, hold⟩ := (hdone q hq).1 hpre
        rw [hb] at hnew
        refine .inr ⟨?_, v, b, hvirt, Nat.lt_add_of_pos_right hpos, hnew, hfrom⟩
        obtain hsame | ⟨hnone, -⟩ := hrun.leaves q hq
        · rw [← hsame, hold]
        · exact hnone
      · rw [(hdone q hq).2 hpre]
        refine (hrun.leaves q hq).imp id ?_
        rintro ⟨hnone, x, c, hx, hxv, hc⟩
        exact ⟨hnone, x, c, hx, Nat.lt_add_right _ hxv, hc⟩
    · obtain hlt | rfl := Nat.lt_or_eq_of_le hlo
      · -- the first page has its leaf already, so it is not below that word
        obtain ⟨c, hc, hcfrom⟩ := hrun.first hcount hlt
        refine ⟨c, ?_, hcfrom⟩
        rw [(hdone _ rfl).2, hc]
        intro hpre
        rw [((hdone _ rfl).1 hpre).2] at hc
        cases hc
      · refine ⟨b, ?_, hfrom⟩
        rw [((hdone _ rfl).1 (unitPath_isInitial large _)).1, hb]
  · have hfailed := (hset.failed hcode).1
    rw [if_pos hcode]
    refine ⟨hset.ok, fun q hq => ?_, Nat.le_add_right_of_le hrun.count, fun hcount => ?_⟩
    · rw [hfailed q hq]
      refine (hrun.leaves q hq).imp id ?_
      rintro ⟨hnone, x, c, hx, hxv, hc⟩
      exact ⟨hnone, x, c, hx, Nat.lt_add_right _ hxv, hc⟩
    · have hle := hrun.count
      omega

/-- **The leaves of a mapping that succeeds**: for pages of the range only, and
one for the first of them. -/
theorem vmmMap_leaves {kernPml4 : Nat} (hne : mapRoot kernPml4 pml4 ≠ 0)
    (hdvd : pageSize ∣ mapRoot kernPml4 pml4)
    (htree : TreeOk A (virtToPhys (mapRoot kernPml4 pml4)) s) (hr : RangeOk virt phys size)
    (hsize : 0 < size) (hf : FlagsOk flags) (hpres : present flags = true)
    (hdone : (vmmMap A kernPml4 s pml4 virt phys size flags).1 = 0) :
    (∀ q, q.length = 4 →
      (vmmMap A kernPml4 s pml4 virt phys size flags).2.leafAt
        (virtToPhys (mapRoot kernPml4 pml4)) q =
          s.leafAt (virtToPhys (mapRoot kernPml4 pml4)) q ∨
      s.leafAt (virtToPhys (mapRoot kernPml4 pml4)) q = none ∧ ∃ x b, x < size ∧
        (vmmMap A kernPml4 s pml4 virt phys size flags).2.leafAt
          (virtToPhys (mapRoot kernPml4 pml4)) q = some b ∧ LeafFrom (phys + x) b) ∧
    ∃ b, (vmmMap A kernPml4 s pml4 virt phys size flags).2.leafAt
      (virtToPhys (mapRoot kernPml4 pml4)) (pathOf virt) = some b ∧ LeafFrom phys b := by
  rcases vmmMap_induct (A := A) (s := s) hr hne hdvd with he | ⟨hlt, hinduct⟩
  · rw [he] at hdone
    exact absurd hdone (Nat.ne_of_gt hsize)
  · have hstart : LeafRun A (virtToPhys (mapRoot kernPml4 pml4)) virt phys size s
        (firstPage virt) (endBytes virt size) s :=
      ⟨htree, fun _ _ => .inl rfl, Nat.le_refl _, fun _ h => absurd h (Nat.lt_irrefl _)⟩
    have hrun := hinduct _ (leafRun_step hr hf hpres) hstart
    have hends : endBytes virt size = 0 := Nat.le_zero.mp (hdone ▸ hrun.count)
    have hfirst : firstPage virt = virt := by
      unfold endBytes firstPage at *
      omega
    have hlast : lastPage (virt + size) ≤ virt + size := by
      unfold lastPage
      omega
    refine ⟨fun q hq => (hrun.leaves q hq).imp id ?_, ?_⟩
    · rintro ⟨hnone, x, b, hx, hxv, hb, hfrom⟩
      exact ⟨hnone, x - virt, b, by omega, hb, hfrom⟩
    · have hb := hrun.first (hdone.trans hends.symm) hlt
      rw [hfirst] at hb
      rwa [physAt, Nat.sub_self, Nat.add_zero] at hb

end DevOS.Arch
