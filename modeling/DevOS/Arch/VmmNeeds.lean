import DevOS.Arch.VmmAgree
import Mathlib.Data.Set.Card
import Mathlib.Data.Set.Finite.List

/-!
# Page tables — how many tables a mapping needs

A table source that still serves `left` tables never fails while at most that
many tables of a range are missing: each table that is created was missing and
costs one. With it, `vmm_map` on a free range maps every page of it.
-/

namespace DevOS.Arch

open DevOS.Lib

variable {σ : Type} {A : TableSource σ} {left : σ → Nat} {root table pml4 : Nat} {s s' s₀ : Vmm σ}
  {p : List (Fin 512)} {i : Fin 512} {w flags : Word} {N : Set (List (Fin 512))}

/-! ## Counting tables -/

/-- `left` counts the tables a source still serves. -/
structure Counted (A : TableSource σ) (left : σ → Nat) : Prop where
  served : ∀ a, 0 < left a → (A.alloc a).1 ≠ none
  spent : ∀ a, left a ≤ left (A.alloc a).2 + 1

/-- The tables of `N` that the tree does not have. -/
def missing (root : Nat) (N : Set (List (Fin 512))) (s : Vmm σ) : Set (List (Fin 512)) :=
  {q | q ∈ N ∧ s.tableAt root q = none}

theorem missing_finite (hshort : ∀ q ∈ N, q.length ≤ 3) : (missing root N s).Finite :=
  (List.finite_length_le (Fin 512) 3).subset fun q hq => hshort q hq.1

theorem missing_congr (hshort : ∀ q ∈ N, q.length ≤ 3)
    (h : ∀ q, q.length ≤ 3 → s'.tableAt root q = s.tableAt root q) :
    missing root N s' = missing root N s := by
  ext q
  exact and_congr_right fun hq => by rw [h q (hshort q hq)]

/-- A table that is created was missing and is no longer. -/
theorem FreshLink.missing {t u : Nat} (h : FreshLink root s s' p t i u)
    (hshort : ∀ q ∈ N, q.length ≤ 3) (hmem : p ++ [i] ∈ N) :
    (missing root N s').ncard + 1 = (missing root N s).ncard := by
  have htables := fun q hq => h.tables q (hshort q hq)
  have hset : Arch.missing root N s' = Arch.missing root N s \ {p ++ [i]} := by
    ext q
    constructor
    · rintro ⟨hq, hnone⟩
      have hne : q ≠ p ++ [i] := by
        rintro rfl
        rw [(htables _ hq).1 rfl] at hnone
        cases hnone
      exact ⟨⟨hq, (htables q hq).2 hne ▸ hnone⟩, hne⟩
    · rintro ⟨⟨hq, hnone⟩, hne⟩
      exact ⟨hq, ((htables q hq).2 hne).trans hnone⟩
  have hold : s.tableAt root (p ++ [i]) = none := by
    rw [tableAt_concat h.node]
    exact child_eq_none_of_not_present h.absent
  rw [hset]
  exact Set.ncard_sdiff_singleton_add_one ⟨hmem, hold⟩ (missing_finite hshort)

/-- There are tables enough for those of `N`, and none was denied. -/
structure Ample (left : σ → Nat) (root : Nat) (N : Set (List (Fin 512))) (s : Vmm σ) : Prop where
  short : ∀ q ∈ N, q.length ≤ 3
  granted : s.denied = false
  enough : (missing root N s).ncard ≤ left s.source

/-! ## Walking down the tables -/

/-- What setting a page keeps, if its tables are in `N`: it is kept when a table
of `N` is fetched or created, and when a leaf is written. -/
structure TableSteps (A : TableSource σ) (root : Nat) (N : Set (List (Fin 512)))
    (M : Vmm σ → Prop) : Prop where
  fetch : ∀ s p table i, TreeOk A root s → p.length ≤ 2 →
    s.tableAt root p = some (virtToPhys table) → p ++ [i] ∈ N → M s →
    M (getOrCreateTable A s table i).2
  leaf : ∀ s table i w,
    (∀ q, q.length ≤ 3 → (s.write table i w).tableAt root q = s.tableAt root q) → M s →
    M (s.write table i w)

section TableSteps

variable {M : Vmm σ → Prop}

theorem TableSteps.descend (hsteps : TableSteps A root N M) (r : List (Fin 512)) :
    ∀ {s : Vmm σ} {p : List (Fin 512)} {table : Nat}, TreeOk A root s → p.length + r.length ≤ 3 →
      s.tableAt root p = some (virtToPhys table) →
      (∀ q, p.length < q.length → q <+: p ++ r → q ∈ N) → M s → M (descend A s table r).2 := by
  induction r with
  | nil => exact fun _ _ _ _ h => h
  | cons i r ih =>
      intro s p table hok hlen ht hmem h
      rw [List.length_cons] at hlen
      have hpath : p ++ i :: r = p ++ [i] ++ r := by simp
      have hfirst := hsteps.fetch s p table i hok (by omega) ht
        (hmem _ (by simp) (hpath ▸ List.prefix_append _ r)) h
      obtain ⟨hgrown, hres⟩ := getOrCreateTable_spec hok (by omega) ht i
      rw [Arch.descend]
      revert hfirst hgrown hres
      cases getOrCreateTable A s table i with
      | mk ptr s₁ =>
          intro hfirst hgrown hres
          obtain ⟨ptr, rfl, hat⟩ | ⟨rfl, -⟩ := hres
          · refine ih hgrown.ok ?_ hat (fun q hq hpre => ?_) hfirst
            · rw [List.length_append, List.length_singleton]
              omega
            · rw [List.length_append, List.length_singleton] at hq
              exact hmem q (by omega) (hpath ▸ hpre)
          · exact hfirst

theorem TableSteps.of_descend (hsteps : TableSteps A (virtToPhys pml4) N M)
    (hok : TreeOk A (virtToPhys pml4) s) (hp : p.length = 2 ∨ p.length = 3)
    (hw : p.length = 2 → child w = none) (hmem : ∀ q, q ≠ [] → q <+: p → q ∈ N) (h : M s) :
    M (match Arch.descend A s pml4 p with
        | (none, s) => ((-1 : Int), s)
        | (some t, s) =>
            if !false && present (s.read t i) then (-1, s) else (0, s.write t i w)).2 := by
  have hroot : s.tableAt (virtToPhys pml4) [] = some (virtToPhys pml4) := rfl
  have hlen : ([] : List (Fin 512)).length + p.length ≤ 3 := by
    rw [List.length_nil]
    omega
  have hwalk := hsteps.descend p hok hlen hroot
    (fun q hq hpre => hmem q (List.length_pos_iff.mp hq) hpre) h
  obtain ⟨hgrown, hres⟩ := descend_spec p hok hlen hroot
  revert hwalk hgrown hres
  cases Arch.descend A s pml4 p with
  | mk res s₁ =>
      intro hwalk hgrown hres
      obtain ⟨ptr, rfl, hptr⟩ | ⟨rfl, -⟩ := hres
      · cases hpres : present (s₁.read ptr i) with
        | true =>
            simp only [hpres, Bool.not_false, Bool.and_self, if_true]
            exact hwalk
        | false =>
            simp only [hpres, Bool.and_false, Bool.false_eq_true, if_false]
            -- writing a leaf leaves the tables as they are
            exact hsteps.leaf s₁ ptr i w (hgrown.ok.write hp hptr hpres hw).2.1 hwalk
      · exact hwalk

/-- **One page**, whose tables are in `N`. -/
theorem TableSteps.unit (hsteps : TableSteps A (virtToPhys pml4) N M)
    (hok : TreeOk A (virtToPhys pml4) s) (large : Bool) (v x : Nat) (flags : Word)
    (hmem : ∀ q, q ≠ [] → q <+: unitPath large v → q ≠ unitPath large v → q ∈ N) (h : M s) :
    M (setUnit A pml4 flags large s v x).2 := by
  cases large with
  | true =>
      show M (setLargePage A s pml4 v x flags false).2
      unfold setLargePage
      rw [getOrCreatePd_eq]
      split
      · exact h
      · split
        · exact h
        · refine hsteps.of_descend (p := [pml4Idx v, pdptIdx v]) hok (.inl rfl)
            (fun _ => child_eq_none_of_pse (pse_or_ptPse _)) (fun q hq hpre => ?_) h
          refine hmem q hq (hpre.trans ⟨[pdIdx v], rfl⟩) fun he => ?_
          have := hpre.length_le
          rw [he] at this
          simp [unitPath, regionPath] at this
  | false =>
      show M (setPage A s pml4 v x flags false).2
      unfold setPage
      rw [getOrCreatePt_eq]
      split
      · exact h
      · split
        · exact h
        · refine hsteps.of_descend (p := [pml4Idx v, pdptIdx v, pdIdx v]) hok (.inr rfl)
            (fun hlen => absurd hlen (by simp)) (fun q hq hpre => ?_) h
          refine hmem q hq (hpre.trans ⟨[ptIdx v], rfl⟩) fun he => ?_
          have := hpre.length_le
          rw [he] at this
          simp [unitPath, pathOf] at this

end TableSteps

theorem ample_steps (hc : Counted A left) : TableSteps A root N (Ample left root N) := by
  refine ⟨fun s p table i hok hp ht hmem h => ?_, fun s table i w htables h => ?_⟩
  · have henough := h.enough
    obtain ⟨hsame, -⟩ | ⟨-, -, hnone, hfail⟩ |
      ⟨ptr, -, -, hlink, -, -, hsource, -, -, hgranted⟩ := getOrCreateTable_cases hok hp ht i
    · rw [hsame]
      exact h
    · have hpos := (Set.ncard_pos (missing_finite h.short)).mpr ⟨p ++ [i], hmem, hnone⟩
      exact absurd hfail (hc.served _ (hpos.trans_le henough))
    · have hcount := hlink.missing h.short hmem
      have hspent := hc.spent s.source
      refine ⟨h.short, hgranted.trans h.granted, ?_⟩
      rw [hsource]
      omega
  · refine ⟨h.short, h.granted, ?_⟩
    rw [missing_congr h.short htables]
    exact h.enough

/-- **A page is never denied a table** while there are enough for its path. -/
theorem setUnit_ample (hc : Counted A left) (hok : TreeOk A (virtToPhys pml4) s) (large : Bool)
    (v x : Nat) (flags : Word)
    (hmem : ∀ q, q ≠ [] → q <+: unitPath large v → q ≠ unitPath large v → q ∈ N)
    (h : Ample left (virtToPhys pml4) N s) :
    Ample left (virtToPhys pml4) N (setUnit A pml4 flags large s v x).2 :=
  (ample_steps hc).unit hok large v x flags hmem h

/-! ## Filling a free range -/

/-- The tables that the pages of a range lie in. -/
def TableOf (cong : Prop) (lo hi : Nat) (q : List (Fin 512)) : Prop :=
  q ≠ [] ∧
    ((∃ v, pageSize ∣ v ∧ lo ≤ v ∧ v + pageSize ≤ hi ∧
        (cong → ¬ Slot lo hi (v / largePageSize * largePageSize)) ∧ q <+: regionPath v) ∨
      cong ∧ ∃ w, Slot lo hi w ∧ q <+: [pml4Idx w, pdptIdx w])

theorem TableOf.length_le {cong : Prop} {lo hi : Nat} {q : List (Fin 512)}
    (h : TableOf cong lo hi q) : q.length ≤ 3 := by
  rcases h.2 with ⟨v, -, -, -, -, hpre⟩ | ⟨-, w, -, hpre⟩
  · exact hpre.length_le
  · exact hpre.length_le.trans (by simp)

/-- Whole pages of the range `[base, v)` are where `want` says. -/
def MappedTo (root : Nat) (s : Vmm σ) (want : Nat → Nat) (base v : Nat) : Prop :=
  ∀ a, base ≤ a → a < v → ∃ t, s.translate root a = some t ∧ t.phys = want a

/-- A free range that is filled up to the cursor `v`, with tables enough for
the rest. -/
structure Filled (A : TableSource σ) (left : σ → Nat) (root : Nat) (N : Set (List (Fin 512)))
    (s₀ : Vmm σ) (want : Nat → Nat) (base stop v : Nat) (s : Vmm σ) : Prop where
  ok : TreeOk A root s
  mode : s.mode ≠ .early
  ample : Ample left root N s
  clear : Clear root s₀ base stop v s
  mapped : MappedTo root s want base v

/-- A range of which all that was not refused is mapped. -/
structure Mapping (A : TableSource σ) (root : Nat) (want : Nat → Nat) (base v f : Nat)
    (s : Vmm σ) : Prop where
  ok : TreeOk A root s
  mapped : f = 0 → MappedTo root s want base v

section Fill

variable {want : Nat → Nat} {base stop lo hi v x f : Nat} {large : Bool} {cong : Prop}

theorem MappedTo.unit (h : MappedTo root s want base v)
    (hset : SetUnit A root s large v x flags 0 s') (hpres : present flags = true)
    (hwant : ∀ a, v ≤ a → a < v + unitSize large → want a = x + (a - v)) :
    MappedTo root s' want base (v + unitSize large) := by
  intro a h1 h2
  by_cases hlt : a < v
  · obtain ⟨t, ht, hphys⟩ := h a h1 hlt
    exact ⟨t, (hset.frame a (by omega)).trans ht, hphys⟩
  · have hdone := (hset.done rfl a ⟨by omega, h2⟩).2
    rw [if_pos hpres] at hdone
    exact ⟨_, hdone, (hwant a (by omega) h2).symm⟩

section Half

variable (hhalf : stop ≤ 2 ^ 47 ∨ 2 ^ 64 - 2 ^ 47 ≤ base ∧ stop ≤ 2 ^ 64)

include hhalf

theorem canonical_of_half (h1 : base ≤ v) (h2 : v < stop) : Canonical v := by
  unfold Canonical
  omega

/-- One page of a free range. -/
theorem Filled.unit (hc : Counted A left)
    (h : Filled A left (virtToPhys pml4) N s₀ want base stop v s) (hlo : base ≤ v)
    (hhi : v + unitSize large ≤ stop) (hv : unitSize large ∣ v) (hx : unitSize large ∣ x)
    (hlim : x < 2 ^ 63) (hf : FlagsOk flags) (hpres : present flags = true)
    (hwant : ∀ a, v ≤ a → a < v + unitSize large → want a = x + (a - v))
    (hmem : ∀ q, q ≠ [] → q <+: unitPath large v → q ≠ unitPath large v → q ∈ N)
    (hfree : large = true → ¬ HasPt (virtToPhys pml4) s₀ v) :
    (setUnit A pml4 flags large s v x).1 = 0 ∧
      Filled A left (virtToPhys pml4) N s₀ want base stop (v + unitSize large)
        (setUnit A pml4 flags large s v x).2 := by
  have hpos := unitSize_pos large
  have hset := setUnit_leaf h.ok hv hx flags
  have hunit := setUnit_spec h.ok (canonical_of_half hhalf hlo (by omega)) hv hx hlim hf
  have hample := setUnit_ample hc h.ok large v x flags hmem h.ample
  have hmode : (setUnit A pml4 flags large s v x).2.mode ≠ .early := hset.mode ▸ h.mode
  have hslot : ¬ (large = true ∧ HasPt (virtToPhys pml4) s v) := by
    rintro ⟨rfl, hpt⟩
    exact hfree rfl ((h.clear.slots v ⟨hv, hlo, hhi⟩ le_rfl).mp hpt)
  have hgranted : (setUnit A pml4 flags large s v x).2.denied ≠ true := by
    rw [hample.granted]
    exact Bool.false_ne_true
  have hcode := h.clear.code_eq_zero hset hhi hmode hgranted hslot
  refine ⟨hcode, hset.ok, hmode, hample, h.clear.unit hset hhalf hlo hhi hv, ?_⟩
  rw [hcode] at hunit
  exact h.mapped.unit hunit hpres hwant

/-- One page, whatever becomes of it. -/
theorem Mapping.unit (h : Mapping A (virtToPhys pml4) want base v f s) (hlo : base ≤ v)
    (hhi : v + unitSize large ≤ stop) (hv : unitSize large ∣ v) (hx : unitSize large ∣ x)
    (hlim : x < 2 ^ 63) (hf : FlagsOk flags) (hpres : present flags = true)
    (hwant : ∀ a, v ≤ a → a < v + unitSize large → want a = x + (a - v)) :
    Mapping A (virtToPhys pml4) want base (v + unitSize large)
      (f + if (setUnit A pml4 flags large s v x).1 ≠ 0 then unitSize large else 0)
      (setUnit A pml4 flags large s v x).2 := by
  have hpos := unitSize_pos large
  have hunit := setUnit_spec h.ok (canonical_of_half hhalf hlo (by omega)) hv hx hlim hf
  refine ⟨hunit.ok, fun hzero => ?_⟩
  split at hzero
  · omega
  · rename_i hcode
    rw [not_not.mp hcode] at hunit
    exact (h.mapped (by omega)).unit hunit hpres hwant

end Half

theorem physOf_eq {lo p v : Nat} (h : p + (v - lo) < 2 ^ 64) : physOf lo p v = p + (v - lo) :=
  Nat.mod_eq_of_lt h

/-- The tables above a page of the range are tables of the range. -/
theorem tableOf_small {q : List (Fin 512)} (hlo : lo ≤ v) (hhi : v + pageSize ≤ hi)
    (hv : pageSize ∣ v) (hno : cong → ¬ Slot lo hi (v / largePageSize * largePageSize))
    (hq : q ≠ []) (hpre : q <+: unitPath false v) (hne : q ≠ unitPath false v) :
    TableOf cong lo hi q := by
  have hpath : unitPath false v = regionPath v ++ [ptIdx v] := rfl
  rw [hpath] at hpre hne
  exact ⟨hq, .inl ⟨v, hv, hlo, hhi, hno, (List.prefix_concat_iff.mp hpre).resolve_left hne⟩⟩

theorem tableOf_large {q : List (Fin 512)} (hcong : cong) (hslot : Slot lo hi v)
    (hq : q ≠ []) (hpre : q <+: unitPath true v) (hne : q ≠ unitPath true v) :
    TableOf cong lo hi q := by
  have hpath : unitPath true v = [pml4Idx v, pdptIdx v] ++ [pdIdx v] := rfl
  rw [hpath] at hpre hne
  exact ⟨hq, .inr ⟨hcong, v, hslot, (List.prefix_concat_iff.mp hpre).resolve_left hne⟩⟩

/-- The physical addresses of one page of a segment. -/
theorem segment_unit {virt phys size : Nat} (hlim : phys + size ≤ 2 ^ 52)
    (hwant : ∀ a, virt ≤ a → a < virt + size → want a = phys + (a - virt)) (hlo : virt ≤ v)
    (hhi : v + unitSize large ≤ virt + size) :
    physOf virt phys v < 2 ^ 63 ∧
      ∀ a, v ≤ a → a < v + unitSize large → want a = physOf virt phys v + (a - v) := by
  have hpos := unitSize_pos large
  rw [physOf_eq (by omega)]
  refine ⟨by omega, fun a h1 h2 => ?_⟩
  rw [hwant a (by omega) (by omega)]
  omega

section Segment

variable {kernPml4 virt phys size : Nat}
  (hhalf : stop ≤ 2 ^ 47 ∨ 2 ^ 64 - 2 ^ 47 ≤ base ∧ stop ≤ 2 ^ 64)
  (hne : mapRoot kernPml4 pml4 ≠ 0) (hdvd : pageSize ∣ mapRoot kernPml4 pml4)
  (hv : pageSize ∣ virt) (hs : pageSize ∣ size) (hp : pageSize ∣ phys)
  (hlim : phys + size ≤ 2 ^ 52) (hbase : base ≤ virt) (hstop : virt + size ≤ stop)
  (htop : stop ≤ 2 ^ 64 - 2 ^ 21) (hf : FlagsOk flags) (hpres : present flags = true)
  (hwant : ∀ a, virt ≤ a → a < virt + size → want a = phys + (a - virt))

include hhalf hne hdvd hv hs hp hlim hbase hstop htop hf hpres hwant

variable (pml4 kernPml4) in
/-- **`vmm_map` fills a free range** whose slots have no page table, with tables
enough: it returns 0. -/
theorem vmmMap_filled (hc : Counted A left)
    (hmem : ∀ q, TableOf (virt % largePageSize = phys % largePageSize) virt (virt + size) q →
      q ∈ N)
    (hfree : virt % largePageSize = phys % largePageSize → ∀ w, Slot virt (virt + size) w →
      ¬ HasPt (virtToPhys (mapRoot kernPml4 pml4)) s₀ w)
    (h : Filled A left (virtToPhys (mapRoot kernPml4 pml4)) N s₀ want base stop virt s) :
    (vmmMap A kernPml4 s pml4 virt phys size flags).1 = 0 ∧
      Filled A left (virtToPhys (mapRoot kernPml4 pml4)) N s₀ want base stop (virt + size)
        (vmmMap A kernPml4 s pml4 virt phys size flags).2 := by
  refine vmmMap_walk (M := fun v f s => f = 0 ∧
    Filled A left (virtToPhys (mapRoot kernPml4 pml4)) N s₀ want base stop v s)
    hne hdvd hv hs hp (by omega) (by omega) ⟨?_, ?_⟩ ⟨rfl, h⟩
  · rintro v f s ⟨rfl, h⟩ hlo hhi hdv hdx hno
    have hunit : v + unitSize false ≤ virt + size := hhi
    obtain ⟨hx, hat⟩ := segment_unit (v := v) hlim hwant hlo hunit
    obtain ⟨hcode, hnext⟩ := h.unit hhalf hc (hbase.trans hlo) (hunit.trans hstop) hdv hdx hx hf
      hpres hat (fun q hq hpre hne' => hmem q (tableOf_small hlo hhi hdv hno hq hpre hne')) nofun
    rw [if_neg (not_not.mpr hcode)]
    exact ⟨rfl, hnext⟩
  · rintro v f s ⟨rfl, h⟩ hcong hslot hdx
    have hlo : virt ≤ v := hslot.2.1
    have hhi : v + unitSize true ≤ virt + size := hslot.2.2
    obtain ⟨hx, hat⟩ := segment_unit (v := v) hlim hwant hlo hhi
    obtain ⟨hcode, hnext⟩ := h.unit hhalf hc (hbase.trans hlo) (hhi.trans hstop) hslot.1 hdx hx hf
      hpres hat (fun q hq hpre hne' => hmem q (tableOf_large hcong hslot hq hpre hne'))
      fun _ => hfree hcong v hslot
    rw [if_neg (not_not.mpr hcode)]
    exact ⟨rfl, hnext⟩

variable (pml4 kernPml4) in
/-- **`vmm_map` maps what it does not refuse.** -/
theorem vmmMap_mapping (h : Mapping A (virtToPhys (mapRoot kernPml4 pml4)) want base virt 0 s) :
    Mapping A (virtToPhys (mapRoot kernPml4 pml4)) want base (virt + size)
      (vmmMap A kernPml4 s pml4 virt phys size flags).1
      (vmmMap A kernPml4 s pml4 virt phys size flags).2 := by
  refine vmmMap_walk (M := Mapping A (virtToPhys (mapRoot kernPml4 pml4)) want base)
    hne hdvd hv hs hp (by omega) (by omega) ⟨?_, ?_⟩ h
  · intro v f s h hlo hhi hdv hdx _
    have hunit : v + unitSize false ≤ virt + size := hhi
    obtain ⟨hx, hat⟩ := segment_unit (v := v) hlim hwant hlo hunit
    exact h.unit hhalf (hbase.trans hlo) (hunit.trans hstop) hdv hdx hx hf hpres hat
  · intro v f s h _ hslot hdx
    have hlo : virt ≤ v := hslot.2.1
    have hhi : v + unitSize true ≤ virt + size := hslot.2.2
    obtain ⟨hx, hat⟩ := segment_unit (v := v) hlim hwant hlo hhi
    exact h.unit hhalf (hbase.trans hlo) (hhi.trans hstop) hslot.1 hdx hx hf hpres hat

end Segment

end Fill

end DevOS.Arch
