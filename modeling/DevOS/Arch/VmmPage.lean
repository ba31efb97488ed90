import DevOS.Arch.VmmTree

/-!
# Page tables — one page

`set_page` and `set_large_page`. Each sets the leaves below one path, if there
were none, or fails and changes no leaf; it fails only if the page is mapped
already, if a page table stands where a large leaf would go, or if a table
could not be allocated.
-/

namespace DevOS.Arch

open DevOS.Lib

variable {σ : Type} {A : TableSource σ} {root t table : Nat} {s s' : Vmm σ}
  {p path : List (Fin 512)} {i : Fin 512} {w : Word}

/-- **Writing a leaf** at word `i` of the table at `p`, a page directory or a
page table, where there was nothing: it is found below that word and nothing
else changes. -/
theorem TreeOk.write (h : TreeOk A root s) (hp : p.length = 2 ∨ p.length = 3)
    (ht : s.tableAt root p = some (virtToPhys table))
    (hold : present (s.read table i) = false) (hw : p.length = 2 → child w = none) :
    TreeOk A root (s.write table i w) ∧
    (∀ q, q.length ≤ 3 → (s.write table i w).tableAt root q = s.tableAt root q) ∧
    ∀ q, q.length = 4 →
      ((p ++ [i]) <+: q → (s.write table i w).leafAt root q = leaf (3 - p.length) w ∧
        s.leafAt root q = none) ∧
      (¬ (p ++ [i]) <+: q → (s.write table i w).leafAt root q = s.leafAt root q) := by
  have hnew : (s.write table i w).mem (virtToPhys table) i = w := by simp [Vmm.write]
  have hother : ∀ u j, ¬ (u = virtToPhys table ∧ j = i) →
      (s.write table i w).mem u j = s.mem u j := by
    intro u j hc
    simp [Vmm.write, hc]
  have hold' : present (s.mem (virtToPhys table) i) = false := hold
  -- the word linked no table and links none: a page table's words never do
  have htables : ∀ q, q.length ≤ 3 → (s.write table i w).tableAt root q = s.tableAt root q := by
    refine nodeAt_congr fun q u hq hu j => ?_
    by_cases hc : u = virtToPhys table ∧ j = i
    · -- a page directory's word: it had no child and has none
      have hqp : q = p := h.separate q p u (by omega) (by omega) hu (hc.1 ▸ ht)
      have hlen := congrArg List.length hqp
      rw [hc.1, hc.2, hnew, child_eq_none_of_not_present hold']
      exact hw (by omega)
    · rw [hother u j hc]
  refine ⟨⟨h.separate.congr htables, fun q u hpos hq hu => ?_, fun q u hq hu => ?_,
    fun j hj => ?_⟩, htables, fun q hq => ⟨fun hpre => ?_, fun hpre => ?_⟩⟩
  · exact h.below q u hpos hq (htables q hq ▸ hu)
  · exact h.unavail q u hq (htables q hq ▸ hu)
  · have hroot : ¬ (root = virtToPhys table ∧ j = i) := by
      intro hc
      have hnil : [] = p := h.separate [] p root (by simp) (by omega) rfl (hc.1 ▸ ht)
      rw [← hnil] at hp
      simp at hp
    rw [hother root j hroot] at hj ⊢
    exact h.pml4 j hj
  · obtain ⟨r, rfl⟩ := hpre
    rw [List.append_assoc, List.singleton_append] at hq ⊢
    have hr : r.length = 3 - p.length := by
      rw [List.length_append, List.length_cons] at hq
      omega
    have hnode : (s.write table i w).tableAt root p = some (virtToPhys table) := by
      rw [htables p (by omega), ht]
    rw [Vmm.leafAt, Vmm.leafAt,
      find_append leaf_succ_eq_none_of_child (List.cons_ne_nil _ _) hnode,
      find_append leaf_succ_eq_none_of_child (List.cons_ne_nil _ _) ht]
    refine ⟨?_, ?_⟩
    · simp only [find, hnew, hr]
      cases hl : leaf (3 - p.length) w with
      | some b => rfl
      | none =>
          rcases hp with hp | hp
          · simp only [hw hp]
          · have hnil : r = [] := List.length_eq_zero_iff.mp (by omega)
            cases child w with
            | none => rfl
            | some u => simp only [hnil, find]
    · simp only [find, leaf_eq_none_of_not_present hold', child_eq_none_of_not_present hold']
  · exact find_frame h.separate (by omega) ht (fun q' u _ _ j hc => hother u j hc) q [] root rfl
      (by simp [hq]) hpre

/-- What setting one page does: `path` leads to the word that was to be
written, `found` is the leaf it is afterwards. -/
structure SetLeaf (A : TableSource σ) (root : Nat) (s : Vmm σ) (path : List (Fin 512))
    (found : Option (Nat × Word)) (code : Int) (s' : Vmm σ) : Prop where
  ok : TreeOk A root s'
  mode : s'.mode = s.mode
  denied : s.denied = true → s'.denied = true
  tables : ∀ q, q.length ≤ 3 → s'.tableAt root q = s.tableAt root q ∨
    s.tableAt root q = none ∧ q <+: path ∧ q ≠ path
  walked : s'.tableAt root path.dropLast ≠ none ∨ Covered root s path ∨ Refused s'
  done : code = 0 → ∀ q, q.length = 4 →
    (path <+: q → s'.leafAt root q = found ∧ s.leafAt root q = none) ∧
    (¬ path <+: q → s'.leafAt root q = s.leafAt root q)
  failed : code ≠ 0 → (∀ q, q.length = 4 → s'.leafAt root q = s.leafAt root q) ∧
    (Covered root s path ∨ (path.length = 3 ∧ s.tableAt root path ≠ none) ∨
      Refused s')

/-- The walk failed: nothing is set. -/
theorem SetLeaf.of_walk (hg : Grown A root s s' fun q => q <+: p)
    (hpath : p ++ [i] = path) (hwhy : Covered root s p ∨ Refused s')
    (found : Option (Nat × Word)) : SetLeaf A root s path found (-1) s' := by
  have hpre : p <+: path := ⟨[i], hpath⟩
  have hwhy' : Covered root s path ∨ Refused s' :=
    hwhy.imp (fun hcov q hq hpq => hcov q hq (hpre.trans hpq)) id
  refine ⟨hg.ok, hg.mode, hg.denied, fun q hq => ?_, .inr hwhy', fun h => absurd h (by decide),
    fun _ => ⟨hg.leaves, hwhy'.imp id .inr⟩⟩
  rcases hg.tables q hq with he | ⟨hn, hqp⟩
  · exact .inl he
  · refine .inr ⟨hn, hqp.trans hpre, fun he => ?_⟩
    have hle := hqp.sublist.length_le
    rw [he, ← hpath, List.length_append, List.length_singleton] at hle
    omega

/-- The walk went through to the table at `p`: the word below it is written if
it is free. -/
theorem SetLeaf.of_table {s₁ : Vmm σ} (hg : Grown A root s s₁ fun q => q <+: p)
    (hp : p.length = 2 ∨ p.length = 3) (ht : s₁.tableAt root p = some (virtToPhys table))
    (hpath : p ++ [i] = path) (hw : p.length = 2 → child w = none) :
    SetLeaf A root s path (leaf (3 - p.length) w)
      (if !false && present (s₁.read table i) then (-1, s₁) else (0, s₁.write table i w)).1
      (if !false && present (s₁.read table i) then (-1, s₁) else (0, s₁.write table i w)).2 := by
  have hpre : p <+: path := ⟨[i], hpath⟩
  have hlen : path.length = p.length + 1 := by rw [← hpath]; simp
  have hlast : path.dropLast = p := by rw [← hpath, List.dropLast_concat]
  have hwalked : s₁.tableAt root path.dropLast ≠ none := by
    rw [hlast, ht]
    exact Option.some_ne_none _
  have htables : ∀ q, q.length ≤ 3 → s₁.tableAt root q = s.tableAt root q ∨
      s.tableAt root q = none ∧ q <+: path ∧ q ≠ path := by
    intro q hq
    refine (hg.tables q hq).imp id fun ⟨hn, hqp⟩ => ⟨hn, hqp.trans hpre, fun he => ?_⟩
    have := hqp.sublist.length_le
    rw [he] at this
    omega
  cases hpres : present (s₁.read table i) with
  | true =>
      simp only [Bool.not_false, Bool.true_and, if_true]
      refine ⟨hg.ok, hg.mode, hg.denied, htables, .inl hwalked, fun h => absurd h (by decide),
        fun _ => ⟨hg.leaves, ?_⟩⟩
      have hpres' : present (s₁.mem (virtToPhys table) i) = true := hpres
      by_cases hleaf : leaf (3 - p.length) (s₁.mem (virtToPhys table) i) = none
      · -- a present word that is no leaf links a page table
        have hp2 : p.length = 2 := by
          rcases hp with hp | hp
          · exact hp
          · rw [hp] at hleaf
            simp [leaf, hpres'] at hleaf
        have hpse : pse (s₁.mem (virtToPhys table) i) = false := by
          rw [hp2] at hleaf
          simpa [leaf, hpres'] using hleaf
        have hsub : s₁.tableAt root path ≠ none := by
          rw [← hpath, tableAt_concat ht, child, hpres', hpse]
          simp
        refine .inr (.inl ⟨by omega, ?_⟩)
        rcases htables path (by omega) with he | ⟨-, -, hne⟩
        · rwa [← he]
        · exact absurd rfl hne
      · -- a leaf: it covers every address below the path
        left
        intro q hq hpq
        obtain ⟨r, rfl⟩ := hpath ▸ hpq
        rw [← hg.leaves _ hq, List.append_assoc, List.singleton_append, Vmm.leafAt,
          find_append leaf_succ_eq_none_of_child (List.cons_ne_nil _ _) ht]
        have hr : r.length = 3 - p.length := by
          simp only [List.length_append, List.length_singleton] at hq
          omega
        obtain ⟨b, hb⟩ := Option.ne_none_iff_exists'.mp hleaf
        simp only [find, hr, hb]
        exact Option.some_ne_none b
  | false =>
      simp only [Bool.not_false, Bool.true_and, Bool.false_eq_true, if_false]
      obtain ⟨hok, htab, hleaf⟩ := hg.ok.write hp ht hpres hw
      refine ⟨hok, hg.mode, hg.denied, fun q hq => ?_, .inl ?_, fun _ q hq => ?_,
        fun h => absurd rfl h⟩
      · rw [htab q hq]
        exact htables q hq
      · rw [htab _ (by rw [hlast]; omega)]
        exact hwalked
      · rw [← hpath, ← hg.leaves q hq]
        exact hleaf q hq

/-- **The walk and the write** of `set_page` and `set_large_page`. -/
theorem SetLeaf.of_descend {pml4 : Nat} (h : TreeOk A (virtToPhys pml4) s)
    (hp : p.length = 2 ∨ p.length = 3) (hw : p.length = 2 → child w = none) :
    SetLeaf A (virtToPhys pml4) s (p ++ [i]) (leaf (3 - p.length) w)
      (match descend A s pml4 p with
        | (none, s) => ((-1 : Int), s)
        | (some t, s) =>
            if !false && present (s.read t i) then (-1, s) else (0, s.write t i w)).1
      (match descend A s pml4 p with
        | (none, s) => ((-1 : Int), s)
        | (some t, s) =>
            if !false && present (s.read t i) then (-1, s) else (0, s.write t i w)).2 := by
  have hroot : s.tableAt (virtToPhys pml4) [] = some (virtToPhys pml4) := rfl
  have hlen : ([] : List (Fin 512)).length + p.length ≤ 3 := by
    rw [List.length_nil]
    omega
  obtain ⟨hg, hres⟩ := descend_spec p h hlen hroot
  rw [List.nil_append] at hg hres
  revert hg hres
  cases descend A s pml4 p with
  | mk res s₁ =>
      intro hg hres
      rcases hres with ⟨ptr, rfl, hptr⟩ | ⟨rfl, hwhy⟩
      · exact SetLeaf.of_table hg hp hptr rfl hw
      · exact SetLeaf.of_walk hg rfl hwhy _

/-- `set_page` on a page-aligned pair of addresses. -/
theorem setPage_leaf {pml4 virt phys : Nat} (h : TreeOk A (virtToPhys pml4) s)
    (hv : pageSize ∣ virt) (hphys : pageSize ∣ phys) (flags : Word) :
    SetLeaf A (virtToPhys pml4) s (pathOf virt)
      (leaf 0 ((BitVec.ofNat 64 phys &&& ~~~flagsMask) ||| flags))
      (setPage A s pml4 virt phys flags false).1 (setPage A s pml4 virt phys flags false).2 := by
  unfold setPage
  rw [if_neg (not_not.mpr (Nat.mod_eq_zero_of_dvd hv)),
    if_neg (not_not.mpr (Nat.mod_eq_zero_of_dvd hphys)), getOrCreatePt_eq]
  exact SetLeaf.of_descend (p := [pml4Idx virt, pdptIdx virt, pdIdx virt]) h (.inr rfl)
    fun hlen => absurd hlen (by simp)

/-- `set_large_page` on a 2 MiB-aligned pair of addresses. -/
theorem setLargePage_leaf {pml4 virt phys : Nat} (h : TreeOk A (virtToPhys pml4) s)
    (hv : largePageSize ∣ virt) (hphys : largePageSize ∣ phys) (flags : Word) :
    SetLeaf A (virtToPhys pml4) s [pml4Idx virt, pdptIdx virt, pdIdx virt]
      (leaf 1 ((BitVec.ofNat 64 phys &&& ~~~largeFlagsMask) ||| flags ||| ptPse))
      (setLargePage A s pml4 virt phys flags false).1
      (setLargePage A s pml4 virt phys flags false).2 := by
  have hchild := child_eq_none_of_pse
    (pse_or_ptPse ((BitVec.ofNat 64 phys &&& ~~~largeFlagsMask) ||| flags))
  unfold setLargePage
  rw [if_neg (not_not.mpr (Nat.mod_eq_zero_of_dvd hv)),
    if_neg (not_not.mpr (Nat.mod_eq_zero_of_dvd hphys)), getOrCreatePd_eq]
  exact SetLeaf.of_descend (p := [pml4Idx virt, pdptIdx virt]) h (.inl rfl) fun _ => hchild

/-! ## At addresses -/

/-- The size of the page that is set: `set_large_page` or `set_page`. -/
def unitSize (large : Bool) : Nat := if large then largePageSize else pageSize

/-- The flags of its leaf. -/
def unitFlags (large : Bool) (flags : Word) : Word := if large then flags ||| ptPse else flags

/-- The path of the 2 MiB around an address. -/
def regionPath (virt : Nat) : List (Fin 512) := [pml4Idx virt, pdptIdx virt, pdIdx virt]

/-- The path of the word that is written. -/
def unitPath (large : Bool) (virt : Nat) : List (Fin 512) :=
  if large then regionPath virt else pathOf virt

/-- `set_large_page` or `set_page`, without overwriting. -/
def setUnit (A : TableSource σ) (pml4 : Nat) (flags : Word) (large : Bool) (s : Vmm σ)
    (virt phys : Nat) : Int × Vmm σ :=
  if large then setLargePage A s pml4 virt phys flags false
  else setPage A s pml4 virt phys flags false

/-- A page table is there for the 2 MiB around an address. -/
def HasPt (root : Nat) (s : Vmm σ) (virt : Nat) : Prop := s.tableAt root (regionPath virt) ≠ none

theorem pathOf_inj {virt a : Nat} : pathOf virt = pathOf a ↔
    virt % 2 ^ 48 / 2 ^ 12 = a % 2 ^ 48 / 2 ^ 12 := by
  simp only [pathOf, pml4Idx, pdptIdx, pdIdx, ptIdx, List.cons.injEq, Fin.ext_iff, Fin.val_ofNat,
    and_true]
  omega

theorem regionPath_inj {virt a : Nat} : regionPath virt = regionPath a ↔
    virt % 2 ^ 48 / 2 ^ 21 = a % 2 ^ 48 / 2 ^ 21 := by
  simp only [regionPath, pml4Idx, pdptIdx, pdIdx, List.cons.injEq, Fin.ext_iff, Fin.val_ofNat,
    and_true]
  omega

theorem regionPath_below {virt a : Nat} :
    regionPath virt <+: pathOf a ↔ regionPath virt = regionPath a := by
  rw [List.prefix_iff_eq_take]
  rfl

/-- **The addresses below a path** are those of the page. -/
theorem unitPath_below {large : Bool} {virt a : Nat} (hc : Canonical virt) (ha : Canonical a)
    (hv : unitSize large ∣ virt) :
    unitPath large virt <+: pathOf a ↔ virt ≤ a ∧ a < virt + unitSize large := by
  unfold Canonical at hc ha
  cases large with
  | true =>
      have hd : 0x200000 ∣ virt := hv
      show regionPath virt <+: pathOf a ↔ virt ≤ a ∧ a < virt + 0x200000
      rw [regionPath_below, regionPath_inj]
      omega
  | false =>
      have hd : 4096 ∣ virt := hv
      show pathOf virt <+: pathOf a ↔ virt ≤ a ∧ a < virt + 4096
      have heq : pathOf virt <+: pathOf a ↔ pathOf virt = pathOf a :=
        ⟨fun h => h.eq_of_length rfl, fun h => h ▸ List.prefix_rfl⟩
      rw [heq, pathOf_inj]
      omega

/-- What the page says about an address in it. -/
def unitTranslation (large : Bool) (virt phys : Nat) (flags : Word) (a : Nat) : Translation :=
  ⟨phys + (a - virt), unitSize large, unitFlags large flags⟩

/-- The leaf that is written. -/
def unitLeaf (large : Bool) (phys : Nat) (flags : Word) : Option (Nat × Word) :=
  if large then leaf 1 ((BitVec.ofNat 64 phys &&& ~~~largeFlagsMask) ||| flags ||| ptPse)
  else leaf 0 ((BitVec.ofNat 64 phys &&& ~~~flagsMask) ||| flags)

theorem unitLeaf_translation {large : Bool} {virt phys a : Nat} {flags : Word}
    (hv : unitSize large ∣ virt) (hphys : unitSize large ∣ phys) (hlim : phys < 2 ^ 63)
    (hf : FlagsOk flags) (ha : virt ≤ a ∧ a < virt + unitSize large) :
    (unitLeaf large phys flags).map (leafTranslation a) =
      if present flags then some (unitTranslation large virt phys flags a) else none := by
  cases large with
  | true =>
      obtain ⟨hpres, hpse, haddr, hflags⟩ := large_spec hphys hlim hf
      have hoff : a % 2 ^ 21 = a - virt := by
        have hd : 0x200000 ∣ virt := hv
        have hlt : a < virt + 0x200000 := ha.2
        omega
      simp only [unitLeaf, if_true, leaf, hpres, hpse, Bool.and_true]
      split
      · show some (leafTranslation a (1, _)) = _
        simp only [leafTranslation, haddr, hflags, hoff]
        rfl
      · rfl
  | false =>
      obtain ⟨hpres, haddr, hflags⟩ := small_spec hphys hlim hf
      have hoff : a % 2 ^ 12 = a - virt := by
        have hd : 4096 ∣ virt := hv
        have hlt : a < virt + 4096 := ha.2
        omega
      simp only [unitLeaf, Bool.false_eq_true, if_false, leaf, hpres]
      split
      · show some (leafTranslation a (0, _)) = _
        simp only [leafTranslation, haddr, hflags, hoff]
        rfl
      · rfl

/-- **What setting one page does** to translations. -/
structure SetUnit (A : TableSource σ) (root : Nat) (s : Vmm σ) (large : Bool) (virt phys : Nat)
    (flags : Word) (code : Int) (s' : Vmm σ) : Prop where
  ok : TreeOk A root s'
  mode : s'.mode = s.mode
  denied : s.denied = true → s'.denied = true
  pt : ∀ a, HasPt root s' a →
    HasPt root s a ∨ large = false ∧ a % 2 ^ 48 / 2 ^ 21 = virt % 2 ^ 48 / 2 ^ 21
  done : code = 0 → ∀ a, virt ≤ a ∧ a < virt + unitSize large →
    s.translate root a = none ∧ s'.translate root a =
      if present flags then some (unitTranslation large virt phys flags a) else none
  frame : ∀ a, ¬ (virt ≤ a ∧ a < virt + unitSize large) → s'.translate root a = s.translate root a
  failed : code ≠ 0 → ∀ a, s'.translate root a = s.translate root a
  why : code ≠ 0 → (∀ a, virt ≤ a ∧ a < virt + unitSize large → s.translate root a ≠ none) ∨
    large = true ∧ HasPt root s virt ∨ Refused s'

/-- `set_page` and `set_large_page` write one leaf. -/
theorem setUnit_leaf {pml4 virt phys : Nat} {large : Bool} (h : TreeOk A (virtToPhys pml4) s)
    (hv : unitSize large ∣ virt) (hphys : unitSize large ∣ phys) (flags : Word) :
    SetLeaf A (virtToPhys pml4) s (unitPath large virt) (unitLeaf large phys flags)
      (setUnit A pml4 flags large s virt phys).1 (setUnit A pml4 flags large s virt phys).2 := by
  cases large with
  | true => exact setLargePage_leaf h hv hphys flags
  | false => exact setPage_leaf h hv hphys flags

/-- The page's addresses are canonical. -/
theorem canonical_of_unit {large : Bool} {virt a : Nat} (hc : Canonical virt)
    (hv : unitSize large ∣ virt) (ha : virt ≤ a ∧ a < virt + unitSize large) : Canonical a := by
  unfold Canonical at hc ⊢
  cases large with
  | true =>
      have hd : 0x200000 ∣ virt := hv
      have hlt : a < virt + 0x200000 := ha.2
      omega
  | false =>
      have hd : 4096 ∣ virt := hv
      have hlt : a < virt + 4096 := ha.2
      omega

/-- **`set_page` and `set_large_page`** set a page that was not translated, or
change no translation. -/
theorem setUnit_spec {pml4 virt phys : Nat} {flags : Word} {large : Bool}
    (h : TreeOk A (virtToPhys pml4) s) (hc : Canonical virt) (hv : unitSize large ∣ virt)
    (hphys : unitSize large ∣ phys) (hlim : phys < 2 ^ 63) (hf : FlagsOk flags) :
    SetUnit A (virtToPhys pml4) s large virt phys flags
      (setUnit A pml4 flags large s virt phys).1 (setUnit A pml4 flags large s virt phys).2 := by
  have hset := setUnit_leaf h hv hphys flags
  revert hset
  cases setUnit A pml4 flags large s virt phys with
  | mk code s' =>
      intro hset
      have hkeep : ∀ a, (Canonical a → s'.leafAt (virtToPhys pml4) (pathOf a) =
          s.leafAt (virtToPhys pml4) (pathOf a)) →
          s'.translate (virtToPhys pml4) a = s.translate (virtToPhys pml4) a := by
        intro a ha
        unfold Vmm.translate
        split
        · rw [ha ‹_›]
        · rfl
      refine ⟨hset.ok, hset.mode, hset.denied, fun a hpt => ?_, fun hcode a ha => ?_,
        fun a ha => ?_,
        fun hcode a => hkeep a fun _ => (hset.failed hcode).1 _ rfl, fun hcode => ?_⟩
      · rcases hset.tables (regionPath a) (by simp [regionPath]) with he | ⟨-, hpre, hne⟩
        · left
          rwa [HasPt, he] at hpt
        · right
          cases large with
          | true => exact absurd (hpre.eq_of_length rfl) hne
          | false => exact ⟨rfl, regionPath_inj.mp (regionPath_below.mp hpre)⟩
      · have hca := canonical_of_unit hc hv ha
        obtain ⟨hnew, hold⟩ :=
          (hset.done hcode (pathOf a) rfl).1 ((unitPath_below hc hca hv).mpr ha)
        rw [Vmm.translate, Vmm.translate, if_pos hca, if_pos hca, hold, hnew]
        exact ⟨rfl, unitLeaf_translation hv hphys hlim hf ha⟩
      · refine hkeep a fun hca => ?_
        by_cases hcode : code = 0
        · refine (hset.done hcode (pathOf a) rfl).2 fun hpre => ha ?_
          exact (unitPath_below hc hca hv).mp hpre
        · exact (hset.failed hcode).1 _ rfl
      · rcases (hset.failed hcode).2 with hcov | ⟨hlen, ht⟩ | hden
        · left
          intro a ha
          have hca := canonical_of_unit hc hv ha
          rw [Vmm.translate, if_pos hca, Ne, Option.map_eq_none_iff]
          exact hcov (pathOf a) rfl ((unitPath_below hc hca hv).mpr ha)
        · cases large with
          | true => exact .inr (.inl ⟨rfl, ht⟩)
          | false => exact absurd hlen (by simp [unitPath, pathOf])
        · exact .inr (.inr hden)

end DevOS.Arch
