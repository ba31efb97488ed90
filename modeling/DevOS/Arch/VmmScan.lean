import DevOS.Arch.VmmMap
import DevOS.Lib.Loop

/-!
# Page tables — the scan for a mapping

`vmm_virt_range_has_mapping` walks a range with a cursor: at a missing entry it
moves on by what the entry would map, at a leaf it answers 1. A missing entry of
an upper level moves the cursor to the next boundary of that level, a missing
entry of a page table moves it by 4096 from wherever it stands, and both can
pass the top of the address space. The loop is studied over a function that
gives the size of the missing entry over an address (`gapOf`).
-/

namespace DevOS.Arch

open DevOS.Lib

variable {σ : Type}

/-! ## The program -/

/-- One round of the loop of `vmm_virt_range_has_mapping`. -/
def scanBody (s : Vmm σ) (pml4 stop : Nat) (virt : Nat) : Nat ⊕ Int :=
  if virt < stop then
    let entry := s.read pml4 (pml4Idx virt)
    if !present entry then .inl ((roundDown virt 0x8000000000 + 0x8000000000) % 2 ^ 64)
    else
      let pdpt := physToVirt s.mode (addrOf entry)
      let entry := s.read pdpt (pdptIdx virt)
      if !present entry then .inl ((roundDown virt 0x40000000 + 0x40000000) % 2 ^ 64)
      else if pse entry then .inr 1
      else
        let pd := physToVirt s.mode (addrOf entry)
        let entry := s.read pd (pdIdx virt)
        if !present entry then .inl ((roundDown virt largePageSize + largePageSize) % 2 ^ 64)
        else if pse entry then .inr 1
        else
          let pt := physToVirt s.mode (addrOf entry)
          let entry := s.read pt (ptIdx virt)
          if !present entry then .inl ((virt + pageSize) % 2 ^ 64)
          else .inr 1
  else .inr 0

/-- `vmm_virt_range_has_mapping`; `none` when the rounds do not suffice. -/
def vmmVirtRangeHasMapping (kernPml4 : Nat) (s : Vmm σ) (pml4 virt size fuel : Nat) :
    Option Int :=
  let pml4 := if pml4 = kernPml4Token then kernPml4 else pml4
  if pml4 = 0 then some (-1)
  else if pml4 % 0x1000 ≠ 0 then some (-1)
  else iterate (scanBody s pml4 ((virt + size) % 2 ^ 64)) fuel virt

/-! ## Gaps -/

/-- The size of the missing entry on a walk, `none` if the walk ends in a leaf. -/
def gapWalk (root : Nat) (s : Vmm σ) (i₄ i₃ i₂ i₁ : Fin 512) : Option Nat :=
  let entry := s.mem root i₄
  if !present entry then some (2 ^ 39)
  else
    let entry := s.mem (addrOf entry) i₃
    if !present entry then some (2 ^ 30)
    else if pse entry then none
    else
      let entry := s.mem (addrOf entry) i₂
      if !present entry then some (2 ^ 21)
      else if pse entry then none
      else if !present (s.mem (addrOf entry) i₁) then some (2 ^ 12)
      else none

/-- The size of the missing entry over an address, `none` if it is mapped. -/
def gapOf (root : Nat) (s : Vmm σ) (virt : Nat) : Option Nat :=
  gapWalk root s (pml4Idx virt) (pdptIdx virt) (pdIdx virt) (ptIdx virt)

/-- Where the cursor moves from a missing entry. -/
def nextAddr (size virt : Nat) : Nat :=
  if size = 4096 then (virt + 4096) % 2 ^ 64 else (roundDown virt size + size) % 2 ^ 64

theorem nextAddr_pml4 (virt : Nat) :
    nextAddr (2 ^ 39) virt = (roundDown virt 0x8000000000 + 0x8000000000) % 2 ^ 64 := by
  simp only [nextAddr, Nat.reducePow, Nat.reduceEqDiff, if_false]

theorem nextAddr_pdpt (virt : Nat) :
    nextAddr (2 ^ 30) virt = (roundDown virt 0x40000000 + 0x40000000) % 2 ^ 64 := by
  simp only [nextAddr, Nat.reducePow, Nat.reduceEqDiff, if_false]

theorem nextAddr_pd (virt : Nat) :
    nextAddr (2 ^ 21) virt = (roundDown virt largePageSize + largePageSize) % 2 ^ 64 := by
  simp only [nextAddr, largePageSize, Nat.reducePow, Nat.reduceEqDiff, if_false]

theorem nextAddr_pt (virt : Nat) : nextAddr (2 ^ 12) virt = (virt + pageSize) % 2 ^ 64 := by
  simp only [nextAddr, pageSize, Nat.reducePow, if_true]

/-- A round of the loop over gaps. -/
def gapBody (gap : Nat → Option Nat) (stop virt : Nat) : Nat ⊕ Int :=
  if virt < stop then
    match gap virt with
    | none => .inr 1
    | some size => .inl (nextAddr size virt)
  else .inr 0

/-- A tree that can be walked: its tables are in reach of the direct map, and no
entry of the PML4 is a leaf. -/
structure Readable (root : Nat) (s : Vmm σ) : Prop where
  below : ∀ p t, 0 < p.length → p.length ≤ 3 → s.tableAt root p = some t → t < hhdmLimit
  pml4 : ∀ i, present (s.mem root i) = true → pse (s.mem root i) = false

theorem TreeOk.readable {A : TableSource σ} {root : Nat} {s : Vmm σ} (h : TreeOk A root s) :
    Readable root s := ⟨h.below, h.pml4⟩

section Walk

variable {root : Nat} {s : Vmm σ}

theorem child_of_present {e : Word} (hp : present e = true) (hs : pse e = false) :
    child e = some (addrOf e) := by
  rw [child, hp, hs]
  rfl

theorem Readable.pdpt (h : Readable root s) {i : Fin 512}
    (hp : present (s.mem root i) = true) :
    s.tableAt root [i] = some (addrOf (s.mem root i)) ∧ addrOf (s.mem root i) < hhdmLimit := by
  have ht : s.tableAt root [i] = some (addrOf (s.mem root i)) := by
    simp only [Vmm.tableAt, nodeAt, child_of_present hp (h.pml4 i hp)]
  exact ⟨ht, h.below _ _ (by simp) (by simp) ht⟩

/-- One level further down. -/
theorem Readable.down (h : Readable root s) {p : List (Fin 512)} {t : Nat} {i : Fin 512}
    (hlen : p.length ≤ 2) (ht : s.tableAt root p = some t) (hp : present (s.mem t i) = true)
    (hs : pse (s.mem t i) = false) :
    s.tableAt root (p ++ [i]) = some (addrOf (s.mem t i)) ∧ addrOf (s.mem t i) < hhdmLimit := by
  have hnode : s.tableAt root (p ++ [i]) = some (addrOf (s.mem t i)) := by
    rw [tableAt_concat ht, child_of_present hp hs]
  exact ⟨hnode, h.below _ _ (by simp) (by simp; omega) hnode⟩

theorem mem_physToVirt {t : Nat} (hlim : t < hhdmLimit) (mode : VmmMode) (hdvd : pageSize ∣ t)
    (i : Fin 512) : s.mem (virtToPhys (physToVirt mode t)) i = s.mem t i := by
  rw [virtToPhys_physToVirt _ hdvd hlim]

/-- **The loop looks at gaps only.** -/
theorem scanBody_eq {pml4 : Nat} (h : Readable (virtToPhys pml4) s) (stop virt : Nat) :
    scanBody s pml4 stop virt = gapBody (gapOf (virtToPhys pml4) s) stop virt := by
  rw [scanBody, gapBody, gapOf, gapWalk]
  by_cases hlt : virt < stop
  · rw [if_pos hlt, if_pos hlt]
    simp only [Vmm.read]
    by_cases h4 : present (s.mem (virtToPhys pml4) (pml4Idx virt)) = true
    · obtain ⟨ht3, hlim3⟩ := h.pdpt h4
      simp only [h4, Bool.not_true, Bool.false_eq_true, if_false,
        mem_physToVirt hlim3 s.mode (pageSize_dvd_addrOf _)]
      by_cases h3 : present (s.mem (addrOf (s.mem (virtToPhys pml4) (pml4Idx virt)))
          (pdptIdx virt)) = true
      · by_cases hs3 : pse (s.mem (addrOf (s.mem (virtToPhys pml4) (pml4Idx virt)))
            (pdptIdx virt)) = true
        · simp only [h3, hs3, Bool.not_true, Bool.false_eq_true, if_false, if_true]
        · obtain ⟨ht2, hlim2⟩ := h.down (by simp) ht3 h3 (by simpa using hs3)
          simp only [h3, hs3, Bool.not_true, Bool.false_eq_true, if_false,
            mem_physToVirt hlim2 s.mode (pageSize_dvd_addrOf _)]
          generalize addrOf (s.mem (addrOf (s.mem (virtToPhys pml4) (pml4Idx virt)))
            (pdptIdx virt)) = pd at *
          by_cases h2 : present (s.mem pd (pdIdx virt)) = true
          · by_cases hs2 : pse (s.mem pd (pdIdx virt)) = true
            · simp only [h2, hs2, Bool.not_true, Bool.false_eq_true, if_false, if_true]
            · obtain ⟨-, hlim1⟩ := h.down (by simp) ht2 h2 (by simpa using hs2)
              simp only [h2, hs2, Bool.not_true, Bool.false_eq_true, if_false,
                mem_physToVirt hlim1 s.mode (pageSize_dvd_addrOf _)]
              by_cases h1 : present (s.mem (addrOf (s.mem pd (pdIdx virt))) (ptIdx virt)) = true
              · simp only [h1, Bool.not_true, Bool.false_eq_true, if_false]
              · simp only [h1, Bool.not_false, if_true, nextAddr_pt]
          · simp only [h2, Bool.not_false, if_true, nextAddr_pd]
      · simp only [h3, Bool.not_false, if_true, nextAddr_pdpt]
    · simp only [h4, Bool.not_false, if_true, nextAddr_pml4]
  · rw [if_neg hlt, if_neg hlt]

/-- **A gap is an address without a leaf.** -/
theorem gapOf_eq_none_iff (h : Readable root s) (virt : Nat) :
    gapOf root s virt = none ↔ s.leafAt root (pathOf virt) ≠ none := by
  by_cases h4 : present (s.mem root (pml4Idx virt)) = true
  · have hs4 := h.pml4 _ h4
    by_cases h3 : present (s.mem (addrOf (s.mem root (pml4Idx virt))) (pdptIdx virt)) = true
    · by_cases hs3 : pse (s.mem (addrOf (s.mem root (pml4Idx virt))) (pdptIdx virt)) = true
      · simp [gapOf, gapWalk, find, pathOf, leaf, child, h4, hs4, h3, hs3]
      · by_cases h2 : present (s.mem (addrOf (s.mem (addrOf (s.mem root (pml4Idx virt)))
            (pdptIdx virt))) (pdIdx virt)) = true
        · by_cases hs2 : pse (s.mem (addrOf (s.mem (addrOf (s.mem root (pml4Idx virt)))
              (pdptIdx virt))) (pdIdx virt)) = true
          · simp [gapOf, gapWalk, find, pathOf, leaf, child, h4, hs4, h3, hs3, h2, hs2]
          · by_cases h1 : present (s.mem (addrOf (s.mem (addrOf (s.mem (addrOf (s.mem root
                (pml4Idx virt))) (pdptIdx virt))) (pdIdx virt))) (ptIdx virt)) = true
            · simp [gapOf, gapWalk, find, pathOf, leaf, child, h4, hs4, h3, hs3, h2, hs2, h1]
            · simp [gapOf, gapWalk, find, pathOf, leaf, child, h4, hs4, h3, hs3, h2, hs2, h1]
        · simp [gapOf, gapWalk, find, pathOf, leaf, child, h4, hs4, h3, hs3, h2]
    · simp [gapOf, gapWalk, find, pathOf, leaf, child, h4, hs4, h3]
  · simp [gapOf, gapWalk, find, pathOf, leaf, child, h4]

/-! ## Blocks -/

/-- A missing entry is missing for every walk through it. -/
theorem gapWalk_some {i₄ i₃ i₂ i₁ : Fin 512} {n : Nat} (h : gapWalk root s i₄ i₃ i₂ i₁ = some n) :
    n = 2 ^ 39 ∧ (∀ j₃ j₂ j₁, gapWalk root s i₄ j₃ j₂ j₁ = some n) ∨
    n = 2 ^ 30 ∧ (∀ j₂ j₁, gapWalk root s i₄ i₃ j₂ j₁ = some n) ∨
    n = 2 ^ 21 ∧ (∀ j₁, gapWalk root s i₄ i₃ i₂ j₁ = some n) ∨ n = 2 ^ 12 := by
  rw [gapWalk] at h
  split at h
  · rename_i h4
    cases h
    exact .inl ⟨rfl, fun _ _ _ => by rw [gapWalk, if_pos h4]⟩
  · rename_i h4
    dsimp only at h
    split at h
    · rename_i h3
      cases h
      exact .inr (.inl ⟨rfl, fun _ _ => by rw [gapWalk, if_neg h4]; dsimp only; rw [if_pos h3]⟩)
    · rename_i h3
      split at h
      · cases h
      · rename_i hs3
        split at h
        · rename_i h2
          cases h
          refine .inr (.inr (.inl ⟨rfl, fun _ => ?_⟩))
          rw [gapWalk, if_neg h4]
          dsimp only
          rw [if_neg h3, if_neg hs3, if_pos h2]
        · split at h
          · cases h
          · split at h
            · cases h
              exact .inr (.inr (.inr rfl))
            · cases h

/-- The index of an address at a level depends on the block it lies in. -/
theorem ofNat_div_eq {a v k l : Nat} (h : a / 2 ^ k = v / 2 ^ k) :
    Fin.ofNat 512 (a / 2 ^ (k + l)) = Fin.ofNat 512 (v / 2 ^ (k + l)) := by
  rw [Nat.pow_add, ← Nat.div_div_eq_div_mul, ← Nat.div_div_eq_div_mul, h]

/-- All addresses of a page have the same walk. -/
theorem gapOf_page {a v : Nat} (h : a / 2 ^ 12 = v / 2 ^ 12) : gapOf root s a = gapOf root s v := by
  have h4 : pml4Idx a = pml4Idx v := ofNat_div_eq (l := 27) h
  have h3 : pdptIdx a = pdptIdx v := ofNat_div_eq (l := 18) h
  have h2 : pdIdx a = pdIdx v := ofNat_div_eq (l := 9) h
  have h1 : ptIdx a = ptIdx v := ofNat_div_eq (l := 0) h
  rw [gapOf, gapOf, h4, h3, h2, h1]

/-- **The gap over an address** is the gap over every address of its block. -/
theorem gapOf_block {v n : Nat} (hv : gapOf root s v = some n) :
    (n = 2 ^ 39 ∨ n = 2 ^ 30 ∨ n = 2 ^ 21 ∨ n = 2 ^ 12) ∧
      ∀ a, a / n = v / n → gapOf root s a = some n := by
  rcases gapWalk_some hv with ⟨rfl, hall⟩ | ⟨rfl, hall⟩ | ⟨rfl, hall⟩ | rfl
  · refine ⟨.inl rfl, fun a ha => ?_⟩
    have h4 : pml4Idx a = pml4Idx v := ofNat_div_eq (l := 0) ha
    rw [gapOf, h4]
    exact hall _ _ _
  · refine ⟨.inr (.inl rfl), fun a ha => ?_⟩
    have h4 : pml4Idx a = pml4Idx v := ofNat_div_eq (l := 9) ha
    have h3 : pdptIdx a = pdptIdx v := ofNat_div_eq (l := 0) ha
    rw [gapOf, h4, h3]
    exact hall _ _
  · refine ⟨.inr (.inr (.inl rfl)), fun a ha => ?_⟩
    have h4 : pml4Idx a = pml4Idx v := ofNat_div_eq (l := 18) ha
    have h3 : pdptIdx a = pdptIdx v := ofNat_div_eq (l := 9) ha
    have h2 : pdIdx a = pdIdx v := ofNat_div_eq (l := 0) ha
    rw [gapOf, h4, h3, h2]
    exact hall _
  · exact ⟨.inr (.inr (.inr rfl)), fun a ha => (gapOf_page ha).trans hv⟩

end Walk

/-! ## The loop over gaps -/

/-- A step of the cursor: the missing entry covers `[lo, lo + n)`. -/
structure Skip (gap : Nat → Option Nat) (v n lo w : Nat) : Prop where
  lo_le : lo ≤ v
  lt_hi : v < lo + n
  lo_dvd : 4096 ∣ lo
  n_dvd : 4096 ∣ n
  n_le : n ≤ 2 ^ 39
  top : lo + n ≤ 2 ^ 64
  block : ∀ a, lo ≤ a → a < lo + n → gap a = some n
  base : lo = roundDown v n
  next : n = 4096 ∧ w = (v + 4096) % 2 ^ 64 ∨ n ≠ 4096 ∧ w = (lo + n) % 2 ^ 64

/-- A function that gives the size of the missing entry over an address. -/
def GapFun (gap : Nat → Option Nat) : Prop :=
  ∀ v n, v < 2 ^ 64 → gap v = some n → ∃ lo, Skip gap v n lo (nextAddr n v)

theorem gapFun_gapOf (root : Nat) (s : Vmm σ) : GapFun (gapOf root s) := by
  intro v n hv hgap
  obtain ⟨hn, hblock⟩ := gapOf_block hgap
  have hpos : 0 < n := by omega
  have hsame : ∀ a, roundDown v n ≤ a → a < roundDown v n + n → gapOf root s a = some n := by
    intro a h1 h2
    refine hblock a (Nat.div_eq_of_lt_le h1 ?_)
    rw [Nat.succ_mul]
    exact h2
  have hnext : n = 4096 ∧ nextAddr n v = (v + 4096) % 2 ^ 64 ∨
      n ≠ 4096 ∧ nextAddr n v = (roundDown v n + n) % 2 ^ 64 := by
    by_cases h12 : n = 4096
    · refine .inl ⟨h12, ?_⟩
      rw [nextAddr, if_pos h12]
    · refine .inr ⟨h12, ?_⟩
      rw [nextAddr, if_neg h12]
  refine ⟨roundDown v n, ?_, ?_, ?_, ?_, ?_, ?_, hsame, rfl, hnext⟩
  · exact Nat.div_mul_le_self v n
  · exact Nat.lt_div_mul_add hpos
  · rcases hn with rfl | rfl | rfl | rfl <;> unfold roundDown <;> omega
  · omega
  · omega
  · rcases hn with rfl | rfl | rfl | rfl <;> unfold roundDown <;> omega

section Loop

variable {gap : Nat → Option Nat} {stop v v₀ : Nat} (hgap : GapFun gap)

/-- The missing entry over the last byte reaches the top of the address space. -/
def TopGap (gap : Nat → Option Nat) (stop : Nat) : Prop :=
  ∃ n, gap (stop - 1) = some n ∧ roundDown (stop - 1) n + n = 2 ^ 64

/-- The cursor, moving by 4096 from an unaligned start, jumps over the last
page: it is further into its page than the last byte is, and every page before
the last one has a page table without an entry for it. -/
def Skipped (gap : Nat → Option Nat) (virt stop : Nat) : Prop :=
  (stop - 1) % 4096 < virt % 4096 ∧
    ∀ a, virt / 4096 ≤ a / 4096 → a / 4096 < (stop - 1) / 4096 → gap a = some 4096

theorem gapBody_next {w : Nat} (hb : gapBody gap stop v = .inl w) :
    v < stop ∧ ∃ n, gap v = some n ∧ w = nextAddr n v := by
  rw [gapBody] at hb
  split at hb
  · rename_i hlt
    cases hv : gap v with
    | none => rw [hv] at hb; cases hb
    | some n =>
        rw [hv] at hb
        cases hb
        exact ⟨hlt, n, rfl, rfl⟩
  · cases hb

theorem gapBody_done {r : Int} (hb : gapBody gap stop v = .inr r) :
    r = 1 ∧ v < stop ∧ gap v = none ∨ r = 0 ∧ stop ≤ v := by
  rw [gapBody] at hb
  split at hb
  · rename_i hlt
    cases hv : gap v with
    | none =>
        rw [hv] at hb
        cases hb
        exact .inl ⟨rfl, hlt, rfl⟩
    | some n => rw [hv] at hb; cases hb
  · rename_i hge
    cases hb
    exact .inr ⟨rfl, Nat.le_of_not_lt hge⟩

/-- A gap that reaches the top and holds an address before `stop` is the gap
over the last byte. -/
theorem Skip.topGap {n lo w : Nat} (h : Skip gap v n lo w) (hv : v < stop)
    (hstop : stop < 2 ^ 64) (htop : lo + n = 2 ^ 64) : TopGap gap stop := by
  have hlo := h.lo_le
  have hlast : gap (stop - 1) = some n := h.block _ (by omega) (by omega)
  have hsame : (stop - 1) / n = v / n := by
    have hbase : v / n * n = lo := h.base.symm
    refine Nat.div_eq_of_lt_le (by omega) ?_
    rw [Nat.succ_mul]
    omega
  refine ⟨n, hlast, ?_⟩
  rw [roundDown, hsame]
  exact (congrArg (· + n) h.base.symm).trans htop

/-- A gap that holds the last byte is the gap over it. -/
theorem Skip.reaches_top {n lo w : Nat} (h : Skip gap v n lo w) (htop : TopGap gap stop)
    (h1 : lo ≤ stop - 1) (h2 : stop - 1 < lo + n) : lo + n = 2 ^ 64 := by
  obtain ⟨m, hm, hmtop⟩ := htop
  have hn : m = n := Option.some.inj (hm.symm.trans (h.block _ h1 h2))
  have hbase : v / n * n = lo := h.base.symm
  have hsame : (stop - 1) / n = v / n := by
    refine Nat.div_eq_of_lt_le (by omega) ?_
    rw [Nat.succ_mul]
    omega
  rw [hn, roundDown, hsame, hbase] at hmtop
  exact hmtop

/-- A cursor that is not further into its page than the last byte jumps over
nothing. -/
theorem not_skipped_of_le (h : v % 4096 ≤ (stop - 1) % 4096) : ¬ Skipped gap v stop :=
  fun hs => absurd hs.1 (Nat.not_lt.mpr h)

theorem not_skipped_cases (h : ¬ Skipped gap v stop) :
    v % 4096 ≤ (stop - 1) % 4096 ∨
      ∃ a, v / 4096 ≤ a / 4096 ∧ a / 4096 < (stop - 1) / 4096 ∧ gap a ≠ some 4096 := by
  by_contra hno
  push Not at hno
  exact h ⟨hno.1, hno.2⟩

/-- Moving the cursor by one page keeps what it will see. -/
theorem not_skipped_next {lo w : Nat} (h : Skip gap v 4096 lo w) (hns : ¬ Skipped gap v stop)
    (hw : w = v + 4096) (hlo : lo + 4096 ≤ stop - 1) : w < stop ∧ ¬ Skipped gap w stop := by
  have hpage : lo = v / 4096 * 4096 := h.base
  rcases not_skipped_cases hns with hle | ⟨a, ha1, ha2, ha3⟩
  · exact ⟨by omega, not_skipped_of_le (by omega)⟩
  · have hout : ¬ (lo ≤ a ∧ a < lo + 4096) := fun hin => ha3 (h.block a hin.1 hin.2)
    exact ⟨by omega, fun hs => ha3 (hs.2 a (by omega) ha2)⟩

/-- **The last page is jumped over**: the loop ends and answers 0. -/
theorem scan_skipped (hstop : stop < 2 ^ 64) (hskip : Skipped gap v stop) (hv : v < stop) :
    ∃ fuel, iterate (gapBody gap stop) fuel v = some 0 := by
  -- the cursor stays behind the last page until it enters it beyond the end
  have hround : ∀ {v w : Nat}, v / 4096 ≤ (stop - 1) / 4096 ∧ Skipped gap v stop →
      gapBody gap stop v = .inl w →
      (w / 4096 ≤ (stop - 1) / 4096 ∧ Skipped gap w stop) ∧ 2 ^ 64 - w < 2 ^ 64 - v := by
    intro v w hI hb
    obtain ⟨hpage, hoff, hrun⟩ := hI
    obtain ⟨hlt, n, hn, rfl⟩ := gapBody_next hb
    have hunit : gap v = some 4096 := hrun v (Nat.le_refl _) (by omega)
    rw [hunit] at hn
    cases hn
    have hnext : nextAddr 4096 v = v + 4096 := by
      rw [nextAddr, if_pos rfl]
      omega
    rw [hnext]
    exact ⟨⟨by omega, by omega, fun a ha1 ha2 => hrun a (by omega) ha2⟩, by omega⟩
  obtain ⟨fuel, r, hr⟩ := iterate_terminates
    (I := fun v => v / 4096 ≤ (stop - 1) / 4096 ∧ Skipped gap v stop) (fun v => 2 ^ 64 - v)
    hround ⟨by omega, hskip⟩
  have hzero : r = 0 := by
    refine iterate_invariant (I := fun v => v / 4096 ≤ (stop - 1) / 4096 ∧ Skipped gap v stop)
      (Q := fun r => r = 0) (fun hI hb => (hround hI hb).1) (fun {v r} hI hb => ?_)
      ⟨by omega, hskip⟩ hr
    obtain ⟨hpage, hoff, hrun⟩ := hI
    rcases gapBody_done hb with ⟨-, hlt, hnone⟩ | ⟨hr, -⟩
    · rw [hrun v (Nat.le_refl _) (by omega)] at hnone
      cases hnone
    · exact hr
  exact ⟨fuel, hzero ▸ hr⟩

include hgap

/-- What a round that goes on does. -/
theorem gapBody_skip {w : Nat} (hv : v < 2 ^ 64) (hb : gapBody gap stop v = .inl w) :
    v < stop ∧ ∃ n lo, gap v = some n ∧ Skip gap v n lo w := by
  obtain ⟨hlt, n, hn, rfl⟩ := gapBody_next hb
  obtain ⟨lo, hskip⟩ := hgap v n hv hn
  exact ⟨hlt, n, lo, hn, hskip⟩

/-- **Without a gap at the top** the cursor moves up, and the loop ends. -/
theorem scan_terminates_low (hstop : stop < 2 ^ 64) (hno : ¬ TopGap gap stop) (hv : v < 2 ^ 64) :
    ∃ fuel r, iterate (gapBody gap stop) fuel v = some r := by
  refine iterate_terminates (I := fun v => v < 2 ^ 64) (fun v => 2 ^ 64 - v)
    (fun {v w} hv hb => ?_) hv
  obtain ⟨hlt, n, lo, -, hskip⟩ := gapBody_skip hgap hv hb
  have hne : lo + n ≠ 2 ^ 64 := fun he => hno (hskip.topGap hlt hstop he)
  obtain ⟨h1, h2, h3, h4, -, h5, -, -, h6⟩ := hskip
  omega

/-- **With a mapped page** the loop ends: the cursor passes the top once at
most, and cannot pass the page from below. -/
theorem scan_terminates_hit (hstop : stop < 2 ^ 64) {h : Nat} (hh : h < 2 ^ 64)
    (hhit : gap h = none) (hv : v < 2 ^ 64) :
    ∃ fuel r, iterate (gapBody gap stop) fuel v = some r := by
  refine iterate_terminates (I := fun v => v < 2 ^ 64)
    (fun v => if v / 4096 ≤ h / 4096 then 2 ^ 64 - v else 2 ^ 65 - v) (fun {v w} hv hb => ?_) hv
  obtain ⟨hlt, n, lo, -, hskip⟩ := gapBody_skip hgap hv hb
  have hout : ¬ (lo ≤ h ∧ h < lo + n) := by
    intro hin
    rw [hskip.block h hin.1 hin.2] at hhit
    cases hhit
  obtain ⟨h1, h2, h3, h4, -, h5, -, -, h6⟩ := hskip
  have hlow : v / 4096 ≤ h / 4096 → lo + n < 2 ^ 64 ∧ w / 4096 ≤ h / 4096 ∧ v < w := by omega
  have hhigh : ¬ v / 4096 ≤ h / 4096 → v < w ∨ w < 4096 := by omega
  refine ⟨by omega, ?_⟩
  split
  · rename_i hw
    split
    · rename_i hle
      have := hlow hle
      omega
    · omega
  · rename_i hw
    split
    · rename_i hle
      have := hlow hle
      omega
    · rename_i hle
      have := hhigh hle
      omega

/-- **The loop hangs** when nothing below `stop` is mapped, the gap over the
last byte reaches the top and the last page is not jumped over. -/
theorem scan_diverges (hstop : stop < 2 ^ 64) (hnone : ∀ a < stop, gap a ≠ none)
    (htop : TopGap gap stop) (hskip : ¬ Skipped gap v stop) (hv : v < stop) (fuel : Nat) :
    iterate (gapBody gap stop) fuel v = none := by
  refine iterate_diverges (I := fun v => v < stop ∧ ¬ Skipped gap v stop) (fun {v} hI => ?_) fuel
    ⟨hv, hskip⟩
  obtain ⟨hlt, hns⟩ := hI
  cases hn : gap v with
  | none => exact absurd hn (hnone v hlt)
  | some n =>
      obtain ⟨lo, hskip⟩ := hgap v n (by omega) hn
      refine ⟨nextAddr n v, by rw [gapBody, if_pos hlt, hn], ?_⟩
      generalize nextAddr n v = w at *
      have hlo := hskip.lo_le
      have hle := hskip.top
      by_cases hwrap : lo + n = 2 ^ 64
      · -- the cursor passes the top
        have hin : w < 4096 ∧ w % 4096 ≤ (stop - 1) % 4096 ∧ w < stop := by
          have hdvd := hskip.lo_dvd
          have hnext := hskip.next
          omega
        exact ⟨hin.2.2, not_skipped_of_le hin.2.1⟩
      · have hlast : lo + n ≤ stop - 1 := by
          by_contra hin
          exact hwrap (hskip.reaches_top htop (by omega) (by omega))
        have hdvd := hskip.lo_dvd
        rcases hskip.next with ⟨rfl, hw⟩ | ⟨hne, hw⟩
        · have hhi := hskip.lt_hi
          exact not_skipped_next hskip hns (by omega) hlast
        · have hdvd' := hskip.n_dvd
          exact ⟨by omega, not_skipped_of_le (by omega)⟩

/-- **No miss**: if the last page is not jumped over, the answer 0 means that
nothing in the range is mapped. -/
theorem scan_zero (hstop : stop < 2 ^ 64) (hskip : ¬ Skipped gap v₀ stop) (hv : v₀ < 2 ^ 64)
    {fuel : Nat} (hr : iterate (gapBody gap stop) fuel v₀ = some 0) :
    ∀ a, v₀ ≤ a → a < stop → gap a ≠ none := by
  have hpre : ∀ v, v = v₀ → v < 2 ^ 64 ∧ ((∀ a, v₀ ≤ a → a < stop → gap a ≠ none) ∨
      (∀ a, v₀ ≤ a → a / 4096 < v / 4096 → gap a ≠ none) ∧ ¬ Skipped gap v stop) := by
    rintro v rfl
    exact ⟨hv, .inr ⟨fun a ha hlt => absurd ha (by omega), hskip⟩⟩
  refine iterate_invariant
    (I := fun v => v < 2 ^ 64 ∧ ((∀ a, v₀ ≤ a → a < stop → gap a ≠ none) ∨
      (∀ a, v₀ ≤ a → a / 4096 < v / 4096 → gap a ≠ none) ∧ ¬ Skipped gap v stop))
    (Q := fun r => r = 0 → ∀ a, v₀ ≤ a → a < stop → gap a ≠ none)
    (fun {v w} hI hb => ?_) (fun {v r} hI hb hr => ?_) (hpre v₀ rfl) hr rfl
  · obtain ⟨hlt, n, lo, hn, hs⟩ := gapBody_skip hgap hI.1 hb
    have hbound : w < 2 ^ 64 := by
      have := hs.next
      omega
    refine ⟨hbound, ?_⟩
    rcases hI.2 with hall | ⟨hseen, hns⟩
    · exact .inl hall
    · have hlo := hs.lo_le
      have hhi := hs.lt_hi
      have hdvd := hs.lo_dvd
      have hdvd' := hs.n_dvd
      have htop := hs.top
      have hnext := hs.next
      have hin : ∀ a, lo ≤ a → a < lo + n → gap a ≠ none := by
        intro a h1 h2 hnone
        rw [hs.block a h1 h2] at hnone
        cases hnone
      by_cases hwrap : lo + n = 2 ^ 64
      · -- the rest of the range lies in this gap
        left
        intro a ha halt
        by_cases hold : a / 4096 < v / 4096
        · exact hseen a ha hold
        · exact hin a (by omega) (by omega)
      · refine .inr ⟨fun a ha halt => ?_, ?_⟩
        · by_cases hold : a / 4096 < v / 4096
          · exact hseen a ha hold
          · exact hin a (by omega) (by omega)
        · rcases hnext with ⟨rfl, hw⟩ | ⟨hne, hw⟩
          · by_cases hlast : lo + 4096 ≤ stop - 1
            · exact (not_skipped_next hs hns (by omega) hlast).2
            · exact not_skipped_of_le (by omega)
          · exact not_skipped_of_le (by omega)
  · rcases hI.2 with hall | ⟨hseen, hns⟩
    · exact hall
    · rcases gapBody_done hb with ⟨h1, -⟩ | ⟨-, hge⟩
      · rw [hr] at h1
        cases h1
      · intro a ha hlt
        rcases not_skipped_cases hns with hle | ⟨b, hb1, hb2, -⟩
        · exact hseen a ha (by omega)
        · exact absurd hb2 (by omega)

/-- **No false alarm**: if the cursor never passes the top, the answer 1 means
that something in the range is mapped. -/
theorem scan_one (hstop : stop < 2 ^ 64) (hno : ¬ TopGap gap stop) (hv : v₀ < 2 ^ 64) {fuel : Nat}
    (hr : iterate (gapBody gap stop) fuel v₀ = some 1) :
    ∃ a, v₀ ≤ a ∧ a < stop ∧ gap a = none := by
  refine iterate_invariant (I := fun v => v₀ ≤ v ∧ v < 2 ^ 64)
    (Q := fun r => r = 1 → ∃ a, v₀ ≤ a ∧ a < stop ∧ gap a = none)
    (fun {v w} hI hb => ?_) (fun {v r} hI hb hr => ?_) ⟨Nat.le_refl _, hv⟩ hr rfl
  · obtain ⟨hlt, n, lo, -, hs⟩ := gapBody_skip hgap hI.2 hb
    have hne : lo + n ≠ 2 ^ 64 := fun he => hno (hs.topGap hlt hstop he)
    obtain ⟨h1, h2, h3, h4, -, h5, -, -, h6⟩ := hs
    omega
  · rcases gapBody_done hb with ⟨-, hlt, hnone⟩ | ⟨h0, -⟩
    · exact ⟨v, hI.1, hlt, hnone⟩
    · rw [hr] at h0
      cases h0

omit hgap in
theorem scan_result {fuel : Nat} {r : Int} (hr : iterate (gapBody gap stop) fuel v = some r) :
    r = 0 ∨ r = 1 := by
  refine iterate_invariant (I := fun _ => True) (Q := fun r => r = 0 ∨ r = 1)
    (fun _ _ => trivial) (fun _ hb => ?_) trivial hr
  rcases gapBody_done hb with ⟨h, -⟩ | ⟨h, -⟩
  · exact .inr h
  · exact .inl h

end Loop

end DevOS.Arch
