import DevOS.Arch.VmmPage

/-!
# Page tables — the kernel's first tables

The tree `vmm_init` builds out of the five static tables: it is well formed,
and it translates the first GiB to itself, the kernel image to where it was
loaded, and nothing else.
-/

namespace DevOS.Arch

open DevOS.Lib

variable {σ : Type}

/-! ## Words -/

theorem write_mem (s : Vmm σ) (table : Nat) (idx : Fin 512) (w : Word) (t : Nat) (i : Fin 512) :
    (s.write table idx w).mem t i = if t = virtToPhys table ∧ i = idx then w else s.mem t i := rfl

/-- The words of a table that a loop fills. -/
theorem foldl_write_mem (table : Nat) (f : Fin 512 → Word) (t : Nat) (i : Fin 512) :
    ∀ (l : List (Fin 512)) (s : Vmm σ), (l.foldl (fun s i => s.write table i (f i)) s).mem t i =
      if t = virtToPhys table ∧ i ∈ l then f i else s.mem t i := by
  intro l
  induction l with
  | nil => intro s; simp
  | cons j l ih =>
      intro s
      rw [List.foldl_cons, ih, write_mem]
      by_cases ht : t = virtToPhys table <;> by_cases hi : i ∈ l <;> by_cases hj : i = j <;>
        simp_all

/-- What a write leaves alone, a loop of writes does. -/
theorem foldl_write_keeps {α : Type} (g : Vmm σ → α) (hg : ∀ s t i w, g (Vmm.write s t i w) = g s)
    (table : Nat) (f : Fin 512 → Word) : ∀ (l : List (Fin 512)) (s : Vmm σ),
      g (l.foldl (fun s i => s.write table i (f i)) s) = g s := by
  intro l
  induction l with
  | nil => intro s; rfl
  | cons j l ih =>
      intro s
      rw [List.foldl_cons, ih, hg]

/-- Where the image is loaded. -/
theorem virtToPhys_image {t : Nat} (ht : kernelVmaStart ≤ t) (hlt : t < kernelVmaStart + 0x200000) :
    virtToPhys t = t - kernelVmaStart + kernelPhys := by
  have hk : kernelVmaStart = 0xFFFFFFFF80000000 := rfl
  have hp : kernelPhys = 0x200000 := rfl
  rw [virtToPhys, if_pos ht]
  omega

section Tables

variable (K : KernelTables)

/-- The static tables are distinct physical pages. -/
theorem KernelTables.phys_nodup :
    ([K.kernPml4, K.pdptLow, K.pdLow, K.pdptKern, K.pdKern].map virtToPhys).Nodup := by
  refine K.nodup.map_on fun t ht u hu h => ?_
  obtain ⟨-, h1, h2⟩ := K.image t ht
  obtain ⟨-, h3, h4⟩ := K.image u hu
  rw [virtToPhys_image h1 h2, virtToPhys_image h3 h4] at h
  omega

/-- **The words `vmm_init` leaves.** -/
structure InitWords (s : Vmm σ) : Prop where
  kernPml4 : ∀ i, s.mem (virtToPhys K.kernPml4) i =
    if i = 511 then kernelLink K.pdptKern else if i = 0 then kernelLink K.pdptLow else 0
  pdptLow : ∀ i, s.mem (virtToPhys K.pdptLow) i = if i = 0 then kernelLink K.pdLow else 0
  pdLow : ∀ i, s.mem (virtToPhys K.pdLow) i = lowWord i
  pdptKern : ∀ i, s.mem (virtToPhys K.pdptKern) i = if i = 510 then kernelLink K.pdKern else 0
  pdKern : ∀ i, s.mem (virtToPhys K.pdKern) i = if i = 0 then kernWord else 0

/-- What writes and changes of the VMM's state leave alone, `vmm_init` does. -/
theorem vmmInit_keeps {α : Type} (g : Vmm σ → α) (hg : ∀ s t i w, g (Vmm.write s t i w) = g s)
    (hmode : ∀ s mode, g { s with mode := mode } = g s) (source : σ) :
    g (vmmInit K source) = g ⟨.early, fun _ _ => 0, source, false, false⟩ := by
  unfold vmmInit mapKernel mapLowIdentity
  rw [hg, hg, hg, hmode, foldl_write_keeps g hg, hg, hg]

theorem vmmInit_source (source : σ) : (vmmInit K source).source = source :=
  vmmInit_keeps K Vmm.source (fun _ _ _ _ => rfl) (fun _ _ => rfl) source

/-- `vmm_init` allocates nothing and clears nothing. -/
theorem vmmInit_ghosts (source : σ) :
    (vmmInit K source).denied = false ∧ (vmmInit K source).faulted = false :=
  ⟨vmmInit_keeps K Vmm.denied (fun _ _ _ _ => rfl) (fun _ _ => rfl) source,
    vmmInit_keeps K Vmm.faulted (fun _ _ _ _ => rfl) (fun _ _ => rfl) source⟩

theorem vmmInit_words (source : σ) : InitWords K (vmmInit K source) := by
  have hnodup := K.phys_nodup
  simp only [List.map_cons, List.map_nil, List.nodup_cons, List.mem_cons, List.not_mem_nil,
    not_or, or_false] at hnodup
  obtain ⟨⟨h12, h13, h14, h15⟩, ⟨h23, h24, h25⟩, ⟨h34, h35⟩, h45, -⟩ := hnodup
  have hi4 : pml4Idx kernelVmaStart = 511 := by decide
  have hi3 : pdptIdx kernelVmaStart = 510 := by decide
  have hi2 : pdIdx kernelVmaStart = 0 := by decide
  have hmem : ∀ t i, (vmmInit K source).mem t i =
      if t = virtToPhys K.pdKern ∧ i = 0 then kernWord
      else if t = virtToPhys K.pdptKern ∧ i = 510 then kernelLink K.pdKern
      else if t = virtToPhys K.kernPml4 ∧ i = 511 then kernelLink K.pdptKern
      else if t = virtToPhys K.pdLow ∧ i ∈ List.finRange 512 then lowWord i
      else if t = virtToPhys K.pdptLow ∧ i = 0 then kernelLink K.pdLow
      else if t = virtToPhys K.kernPml4 ∧ i = 0 then kernelLink K.pdptLow
      else 0 := by
    intro t i
    unfold vmmInit mapKernel mapLowIdentity
    simp only [write_mem, hi4, hi3, hi2]
    rw [foldl_write_mem]
    simp only [write_mem]
  constructor <;> intro i <;> rw [hmem]
  · simp [h12, h13, h14, h15]
  · simp [Ne.symm h12, h23, h24, h25]
  · simp [Ne.symm h13, h34, h35, List.mem_finRange]
  · simp [Ne.symm h14, Ne.symm h24, Ne.symm h34, h45]
  · simp [Ne.symm h15, Ne.symm h25, Ne.symm h35, Ne.symm h45]

variable {K} {s : Vmm σ} {A : TableSource σ}

/-- A link to one of the static tables. -/
theorem kernelLink_spec (K : KernelTables) {t : Nat}
    (ht : t ∈ [K.kernPml4, K.pdptLow, K.pdLow, K.pdptKern, K.pdKern]) :
    child (kernelLink t) = some (virtToPhys t) ∧ pse (kernelLink t) = false ∧
      virtToPhys t < hhdmLimit := by
  obtain ⟨hd, h1, h2⟩ := K.image t ht
  have hphys := virtToPhys_image h1 h2
  have hk : kernelVmaStart = 0xFFFFFFFF80000000 := rfl
  have hp : kernelPhys = 0x200000 := rfl
  have hl : hhdmLimit = 0x777F80000000 := rfl
  have hdvd : pageSize ∣ virtToPhys t := by
    unfold pageSize at hd ⊢
    omega
  have hflags : FlagsOk (ptPresent ||| ptWritable) := by
    unfold FlagsOk
    decide
  have hlim : virtToPhys t < hhdmLimit := by omega
  have hlink := link_spec hdvd hlim hflags (by decide) (by decide)
  rw [← BitVec.or_assoc] at hlink
  exact ⟨hlink.1, hlink.2, hlim⟩

/-- The identity map's large pages. -/
theorem lowWord_spec (i : Fin 512) : present (lowWord i) = true ∧ pse (lowWord i) = true ∧
    (lowWord i &&& ~~~largeFlagsMask).toNat = i.val * 0x200000 ∧
    lowWord i &&& largeFlagsMask = ptPresent ||| ptWritable ||| ptPse := by
  have hi := i.isLt
  have hdvd : largePageSize ∣ i.val * 0x200000 := Nat.dvd_mul_left _ _
  have hflags : FlagsOk (ptPresent ||| ptWritable) := by
    unfold FlagsOk
    decide
  have hword := large_spec hdvd (by omega) hflags
  rw [and_not_of_disjoint (large_and_largeFlagsMask hdvd (by omega)), ← BitVec.or_assoc] at hword
  exact ⟨hword.1.trans (by decide), hword.2⟩

/-- The links between the static tables. -/
theorem InitWords.child (h : InitWords K s) (i : Fin 512) :
    child (s.mem (virtToPhys K.kernPml4) i) =
      (if i = 511 then some (virtToPhys K.pdptKern)
        else if i = 0 then some (virtToPhys K.pdptLow) else none) ∧
    child (s.mem (virtToPhys K.pdptLow) i) =
      (if i = 0 then some (virtToPhys K.pdLow) else none) ∧
    child (s.mem (virtToPhys K.pdLow) i) = none ∧
    child (s.mem (virtToPhys K.pdptKern) i) =
      (if i = 510 then some (virtToPhys K.pdKern) else none) ∧
    child (s.mem (virtToPhys K.pdKern) i) = none := by
  have hzero : Arch.child 0 = none := by decide
  rw [h.kernPml4, h.pdptLow, h.pdLow, h.pdptKern, h.pdKern]
  refine ⟨?_, ?_, ?_, ?_, ?_⟩
  · split
    · exact (kernelLink_spec K (by simp)).1
    · split
      · exact (kernelLink_spec K (by simp)).1
      · exact hzero
  · split
    · exact (kernelLink_spec K (by simp)).1
    · exact hzero
  · exact child_eq_none_of_pse (lowWord_spec i).2.1
  · split
    · exact (kernelLink_spec K (by simp)).1
    · exact hzero
  · split
    · decide
    · exact hzero

/-- The tables of the tree. -/
theorem InitWords.tables (h : InitWords K s) (p : List (Fin 512)) : ∀ t,
    s.tableAt (virtToPhys K.kernPml4) p = some t →
    p = [] ∧ t = virtToPhys K.kernPml4 ∨ p = [0] ∧ t = virtToPhys K.pdptLow ∨
    p = [0, 0] ∧ t = virtToPhys K.pdLow ∨ p = [511] ∧ t = virtToPhys K.pdptKern ∨
    p = [511, 510] ∧ t = virtToPhys K.pdKern := by
  induction p using List.reverseRecOn with
  | nil =>
      intro t ht
      exact .inl ⟨rfl, (Option.some.inj ht).symm⟩
  | append_singleton p i ih =>
      intro t ht
      cases hp : s.tableAt (virtToPhys K.kernPml4) p with
      | none =>
          rw [Vmm.tableAt, nodeAt_concat] at ht
          rw [Vmm.tableAt] at hp
          rw [hp] at ht
          cases ht
      | some u =>
          rw [tableAt_concat hp] at ht
          obtain ⟨hpml4, hlow, hpd, hkern, hpdk⟩ := h.child i
          rcases ih u hp with ⟨rfl, rfl⟩ | ⟨rfl, rfl⟩ | ⟨rfl, rfl⟩ | ⟨rfl, rfl⟩ | ⟨rfl, rfl⟩
          · rw [hpml4] at ht
            split at ht
            · cases ht
              simp_all
            · split at ht
              · cases ht
                simp_all
              · cases ht
          · rw [hlow] at ht
            split at ht
            · cases ht
              simp_all
            · cases ht
          · rw [hpd] at ht
            cases ht
          · rw [hkern] at ht
            split at ht
            · cases ht
              simp_all
            · cases ht
          · rw [hpdk] at ht
            cases ht

/-- **The kernel's first tree is well formed**, if its tables are not handed
out again. -/
theorem InitWords.treeOk (h : InitWords K s)
    (havail : ∀ t ∈ [K.kernPml4, K.pdptLow, K.pdLow, K.pdptKern, K.pdKern],
      ¬ A.avail s.source (virtToPhys t)) : TreeOk A (virtToPhys K.kernPml4) s := by
  have htable : ∀ p t, s.tableAt (virtToPhys K.kernPml4) p = some t →
      ∃ x ∈ [K.kernPml4, K.pdptLow, K.pdLow, K.pdptKern, K.pdKern], t = virtToPhys x := by
    intro p t ht
    rcases h.tables p t ht with ⟨-, ht⟩ | ⟨-, ht⟩ | ⟨-, ht⟩ | ⟨-, ht⟩ | ⟨-, ht⟩
    all_goals exact ⟨_, by simp, ht⟩
  have hnodup := K.phys_nodup
  simp only [List.map_cons, List.map_nil, List.nodup_cons, List.mem_cons, List.not_mem_nil,
    not_or, or_false] at hnodup
  refine ⟨fun p q u _ _ hp hq => ?_, fun p t _ _ ht => ?_, fun p t _ ht => ?_, fun i _ => ?_⟩
  · have hp' := h.tables p u hp
    have hq' := h.tables q u hq
    grind
  · obtain ⟨x, hx, rfl⟩ := htable p t ht
    exact (kernelLink_spec K hx).2.2
  · obtain ⟨x, hx, rfl⟩ := htable p t ht
    exact havail x hx
  · rw [h.kernPml4]
    split
    · exact (kernelLink_spec K (by simp)).2.1
    · split
      · exact (kernelLink_spec K (by simp)).2.1
      · decide

/-- No page table is in it. -/
theorem InitWords.not_hasPt (h : InitWords K s) (a : Nat) :
    ¬ HasPt (virtToPhys K.kernPml4) s a := by
  intro hpt
  obtain ⟨t, ht⟩ := Option.ne_none_iff_exists'.mp hpt
  rcases h.tables _ t ht with ⟨hp, -⟩ | ⟨hp, -⟩ | ⟨hp, -⟩ | ⟨hp, -⟩ | ⟨hp, -⟩
  all_goals exact absurd (congrArg List.length hp) (by simp [regionPath])

/-- The leaves of the tree. -/
theorem InitWords.leafAt (h : InitWords K s) (i₄ i₃ i₂ i₁ : Fin 512) :
    s.leafAt (virtToPhys K.kernPml4) [i₄, i₃, i₂, i₁] =
      if i₄ = 0 ∧ i₃ = 0 then some (1, lowWord i₂)
      else if i₄ = 511 ∧ i₃ = 510 ∧ i₂ = 0 then some (1, kernWord) else none := by
  have hzero : ∀ k, leaf k 0 = none := leaf_eq_none_of_not_present (by decide)
  have hlow : leaf 1 (lowWord i₂) = some (1, lowWord i₂) := by
    simp [leaf, (lowWord_spec i₂).1, (lowWord_spec i₂).2.1]
  have hkern : leaf 1 kernWord = some (1, kernWord) := by decide
  -- links and cleared words are no leaves
  have hlink : ∀ t ∈ [K.kernPml4, K.pdptLow, K.pdLow, K.pdptKern, K.pdKern], ∀ k,
      leaf (k + 1) (kernelLink t) = none :=
    fun t ht k => leaf_succ_eq_none_of_child k _ _ (kernelLink_spec K ht).1
  have hpdptLow : ∀ k i, leaf (k + 1) (s.mem (virtToPhys K.pdptLow) i) = none := by
    intro k i
    rw [h.pdptLow]
    split
    · exact hlink _ (by simp) k
    · exact hzero _
  have hpdptKern : ∀ k i, leaf (k + 1) (s.mem (virtToPhys K.pdptKern) i) = none := by
    intro k i
    rw [h.pdptKern]
    split
    · exact hlink _ (by simp) k
    · exact hzero _
  have hroot : leaf 3 (s.mem (virtToPhys K.kernPml4) i₄) = none := rfl
  rw [Vmm.leafAt, find]
  simp only [List.length_cons, List.length_nil, hroot, (h.child i₄).1]
  by_cases h511 : i₄ = 511
  · have h0 : i₄ ≠ 0 := by
      rw [h511]
      decide
    rw [if_pos h511, if_neg (fun hc => h0 hc.1)]
    simp only [find, List.length_cons, List.length_nil, hpdptKern, (h.child i₃).2.2.2.1]
    by_cases h510 : i₃ = 510
    · rw [if_pos h510]
      have hchild : Arch.child 0 = none := by decide
      simp only [h.pdKern, h511, h510, true_and]
      by_cases h2 : i₂ = 0
      · simp only [if_pos h2, Nat.zero_add, hkern]
      · simp only [if_neg h2, hzero, hchild]
    · rw [if_neg h510, if_neg (fun hc => h510 hc.2.1)]
  · rw [if_neg h511]
    by_cases h0 : i₄ = 0
    · rw [if_pos h0]
      simp only [find, List.length_cons, List.length_nil, hpdptLow, (h.child i₃).2.1]
      by_cases h3 : i₃ = 0
      · rw [if_pos h3, if_pos ⟨h0, h3⟩]
        simp only [h.pdLow, Nat.zero_add, hlow]
      · rw [if_neg h3, if_neg (fun hc => h3 hc.2), if_neg (fun hc => h511 hc.1)]
    · rw [if_neg h0, if_neg (fun hc => h0 hc.1), if_neg (fun hc => h511 hc.1)]

/-- **What the first tree translates**: the first GiB to itself, the kernel
image to where it was loaded. -/
theorem InitWords.translate (h : InitWords K s) (a : Nat) :
    s.translate (virtToPhys K.kernPml4) a =
      if a < 2 ^ 30 then some ⟨a, largePageSize, ptPresent ||| ptWritable ||| ptPse⟩
      else if kernelVmaStart ≤ a ∧ a < kernelVmaStart + largePageSize then
        some ⟨kernelPhys + (a - kernelVmaStart), largePageSize,
          ptPresent ||| ptWritable ||| ptPse ||| ptGlobal⟩
      else none := by
  have hk : kernelVmaStart = 0xFFFFFFFF80000000 := rfl
  have hi : ∀ x : Nat, ∀ n : Nat, n < 512 → (Fin.ofNat 512 x = Fin.ofNat 512 n ↔ x % 512 = n) := by
    intro x n hn
    rw [Fin.ext_iff, Fin.val_ofNat, Fin.val_ofNat, Nat.mod_eq_of_lt hn]
  have hlow : Canonical a → (pml4Idx a = 0 ∧ pdptIdx a = 0 ↔ a < 2 ^ 30) := by
    intro hc
    unfold Canonical at hc
    rw [pml4Idx, pdptIdx, show (0 : Fin 512) = Fin.ofNat 512 0 from rfl, hi _ 0 (by decide),
      hi _ 0 (by decide)]
    omega
  have hkern : Canonical a → (pml4Idx a = 511 ∧ pdptIdx a = 510 ∧ pdIdx a = 0 ↔
      kernelVmaStart ≤ a ∧ a < kernelVmaStart + 0x200000) := by
    intro hc
    unfold Canonical at hc
    rw [pml4Idx, pdptIdx, pdIdx, show (0 : Fin 512) = Fin.ofNat 512 0 from rfl,
      show (510 : Fin 512) = Fin.ofNat 512 510 from rfl,
      show (511 : Fin 512) = Fin.ofNat 512 511 from rfl, hi _ 0 (by decide), hi _ 510 (by decide),
      hi _ 511 (by decide)]
    omega
  unfold Vmm.translate largePageSize
  by_cases hc : Canonical a
  · rw [if_pos hc, pathOf, h.leafAt]
    by_cases h1 : a < 2 ^ 30
    · rw [if_pos ((hlow hc).mpr h1), if_pos h1]
      obtain ⟨-, -, haddr, hflags⟩ := lowWord_spec (pdIdx a)
      have hval : (pdIdx a).val * 0x200000 + a % 2 ^ 21 = a := by
        rw [pdIdx, Fin.val_ofNat]
        omega
      show some (Translation.mk ((lowWord (pdIdx a) &&& ~~~largeFlagsMask).toNat + a % 2 ^ 21)
        0x200000 (lowWord (pdIdx a) &&& largeFlagsMask)) = _
      rw [haddr, hflags, hval]
    · rw [if_neg (fun hn => h1 ((hlow hc).mp hn)), if_neg h1]
      by_cases h2 : kernelVmaStart ≤ a ∧ a < kernelVmaStart + 0x200000
      · rw [if_pos ((hkern hc).mpr h2), if_pos h2]
        have haddr : (kernWord &&& ~~~largeFlagsMask).toNat = kernelPhys := by decide
        have hflags : kernWord &&& largeFlagsMask =
            ptPresent ||| ptWritable ||| ptPse ||| ptGlobal := by decide
        have hoff : a % 2 ^ 21 = a - kernelVmaStart := by omega
        show some (Translation.mk ((kernWord &&& ~~~largeFlagsMask).toNat + a % 2 ^ 21) 0x200000
          (kernWord &&& largeFlagsMask)) = _
        rw [haddr, hflags, hoff]
      · rw [if_neg (fun hn => h2 ((hkern hc).mp hn)), if_neg h2]
        rfl
  · rw [if_neg hc]
    unfold Canonical at hc
    rw [if_neg (by omega), if_neg (by omega)]

end Tables

end DevOS.Arch
