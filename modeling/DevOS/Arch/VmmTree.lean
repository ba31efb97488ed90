import DevOS.Arch.Vmm
import DevOS.Lib.RadixTree

/-!
# Page tables — the tree

What the MMU reads out of a four-level tree (`translate`), what makes a tree
well formed, and what `get_or_create_table` and the walks built on it do to it:
they create tables, and that translates nothing.
-/

namespace DevOS.Arch

open DevOS.Lib

/-! ## Words -/

/-- The table a word points to. -/
def child (e : Word) : Option Nat := if present e && !pse e then some (addrOf e) else none

/-- The leaf a word is, with `k` levels below it: a 4 KiB page, or with
`PT_PSE` a 2 MiB or 1 GiB page; `PT_PSE` is reserved in the PML4. -/
def leaf (k : Nat) (e : Word) : Option (Nat × Word) :=
  match k with
  | 0 => if present e then some (0, e) else none
  | 1 => if present e && pse e then some (1, e) else none
  | 2 => if present e && pse e then some (2, e) else none
  | _ => none

theorem child_eq_none_of_not_present {e : Word} (h : present e = false) : child e = none := by
  simp [child, h]

theorem child_eq_none_of_pse {e : Word} (h : pse e = true) : child e = none := by
  simp [child, h]

theorem leaf_eq_none_of_not_present {e : Word} (h : present e = false) (k : Nat) :
    leaf k e = none := by
  unfold leaf
  split <;> simp [h]

theorem leaf_succ_eq_none_of_child (k : Nat) (e : Word) (u : Nat) (h : child e = some u) :
    leaf (k + 1) e = none := by
  unfold child at h
  split at h
  · rename_i hc
    rw [Bool.and_eq_true, Bool.not_eq_true'] at hc
    rcases k with _ | _ | k <;> simp [leaf, hc.2]
  · cases h

/-- Flags that fit an entry. -/
def FlagsOk (flags : Word) : Prop := flags &&& ~~~flagsMask = 0#64

theorem FlagsOk.large {flags : Word} (h : FlagsOk flags) : flags &&& ~~~largeFlagsMask = 0#64 := by
  have hmask : ~~~flagsMask &&& ~~~largeFlagsMask = ~~~largeFlagsMask := by decide
  rw [← hmask, ← BitVec.and_assoc, h, BitVec.zero_and]

/-- Present and pse of a word that packs an address and flags. -/
theorem present_packed {x f m : Word} (hx : x &&& m = 0#64) (hm : ptPresent &&& ~~~m = 0#64) :
    present (x ||| f) = present f := by
  rw [present, packed_test hx hm, present]

theorem pse_packed {x f m : Word} (hx : x &&& m = 0#64) (hm : ptPse &&& ~~~m = 0#64) :
    pse (x ||| f) = pse f := by
  rw [pse, packed_test hx hm, pse]

/-- A word that links a table page. -/
theorem link_spec {p : Nat} {f : Word} (hp : pageSize ∣ p) (hlim : p < hhdmLimit)
    (hf : FlagsOk f) (hpres : present f = true) (hpse : pse f = false) :
    child (BitVec.ofNat 64 p ||| f) = some p ∧ pse (BitVec.ofNat 64 p ||| f) = false := by
  have h63 : p < 2 ^ 63 := Nat.lt_trans hlim (by decide)
  have hx := page_and_flagsMask hp h63
  have haddr : addrOf (BitVec.ofNat 64 p ||| f) = p := by
    rw [addrOf, packed_base hx hf, BitVec.toNat_ofNat]
    exact Nat.mod_eq_of_lt (by omega)
  have hpse' := (pse_packed hx (by decide)).trans hpse
  refine ⟨?_, hpse'⟩
  rw [child, hpse', haddr, present_packed hx (by decide), hpres]
  rfl

/-- The word of a 4 KiB page. -/
theorem small_spec {p : Nat} {flags : Word} (hp : pageSize ∣ p) (hlim : p < 2 ^ 63)
    (hf : FlagsOk flags) :
    present ((BitVec.ofNat 64 p &&& ~~~flagsMask) ||| flags) = present flags ∧
      addrOf ((BitVec.ofNat 64 p &&& ~~~flagsMask) ||| flags) = p ∧
      ((BitVec.ofNat 64 p &&& ~~~flagsMask) ||| flags) &&& flagsMask = flags := by
  have hx := page_and_flagsMask hp hlim
  rw [and_not_of_disjoint hx]
  refine ⟨present_packed hx (by decide), ?_, packed_flags hx hf⟩
  rw [addrOf, packed_base hx hf, BitVec.toNat_ofNat]
  exact Nat.mod_eq_of_lt (by omega)

theorem pse_or_ptPse (w : Word) : pse (w ||| ptPse) = true := by
  have habsorb : (w ||| ptPse) &&& ptPse = ptPse := by
    apply BitVec.eq_of_getLsbD_eq
    intro i hi
    simp only [BitVec.getLsbD_and, BitVec.getLsbD_or]
    cases w.getLsbD i <;> cases ptPse.getLsbD i <;> rfl
  rw [pse, habsorb]
  decide

/-- The word of a 2 MiB page. -/
theorem large_spec {p : Nat} {flags : Word} (hp : largePageSize ∣ p) (hlim : p < 2 ^ 63)
    (hf : FlagsOk flags) :
    present ((BitVec.ofNat 64 p &&& ~~~largeFlagsMask) ||| flags ||| ptPse) = present flags ∧
      pse ((BitVec.ofNat 64 p &&& ~~~largeFlagsMask) ||| flags ||| ptPse) = true ∧
      (((BitVec.ofNat 64 p &&& ~~~largeFlagsMask) ||| flags ||| ptPse) &&&
        ~~~largeFlagsMask).toNat = p ∧
      ((BitVec.ofNat 64 p &&& ~~~largeFlagsMask) ||| flags ||| ptPse) &&& largeFlagsMask =
        flags ||| ptPse := by
  have hx := large_and_largeFlagsMask hp hlim
  have hf' : (flags ||| ptPse) &&& ~~~largeFlagsMask = 0#64 := by
    have hp : ptPse &&& ~~~largeFlagsMask = 0#64 := by decide
    have hdist : (flags ||| ptPse) &&& ~~~largeFlagsMask =
        (flags &&& ~~~largeFlagsMask) ||| (ptPse &&& ~~~largeFlagsMask) := by
      apply BitVec.eq_of_getLsbD_eq
      intro i hi
      simp only [BitVec.getLsbD_and, BitVec.getLsbD_or, Bool.and_or_distrib_right]
    rw [hdist, hf.large, hp, BitVec.or_zero]
  rw [and_not_of_disjoint hx, BitVec.or_assoc]
  have hpres : present (flags ||| ptPse) = present flags := by
    rw [BitVec.or_comm]
    exact present_packed (m := ptPresent) (by decide) (by decide)
  refine ⟨(present_packed hx (by decide)).trans hpres,
    (pse_packed hx (by decide)).trans (pse_or_ptPse flags), ?_, packed_flags hx hf'⟩
  rw [packed_base hx hf', BitVec.toNat_ofNat]
  exact Nat.mod_eq_of_lt (by omega)

/-! ## Trees -/

/-- Where an address translates to: the physical address of the byte, the size
of the page that maps it, and the flags of the leaf. -/
structure Translation where
  phys : Nat
  size : Nat
  flags : Word
deriving DecidableEq

/-- The bits of a 1 GiB leaf that are not its address. -/
def hugeFlagsMask : Word := 0x800000003FFFFFFF

/-- What a leaf says about an address under it. -/
def leafTranslation (virt : Nat) : Nat × Word → Translation
  | (0, e) => ⟨addrOf e + virt % 2 ^ 12, 2 ^ 12, e &&& flagsMask⟩
  | (1, e) => ⟨(e &&& ~~~largeFlagsMask).toNat + virt % 2 ^ 21, 2 ^ 21, e &&& largeFlagsMask⟩
  | (_, e) => ⟨(e &&& ~~~hugeFlagsMask).toNat + virt % 2 ^ 30, 2 ^ 30, e &&& hugeFlagsMask⟩

/-- The indices of an address, from the PML4 down. -/
def pathOf (virt : Nat) : List (Fin 512) := [pml4Idx virt, pdptIdx virt, pdIdx virt, ptIdx virt]

/-- Bits 48 to 63 repeat bit 47. -/
def Canonical (virt : Nat) : Prop := virt < 2 ^ 47 ∨ 2 ^ 64 - 2 ^ 47 ≤ virt ∧ virt < 2 ^ 64

instance (virt : Nat) : Decidable (Canonical virt) := inferInstanceAs (Decidable (_ ∨ _ ∧ _))

section Tree

variable {σ : Type}

/-- The table at a path of the tree at `root`. -/
abbrev Vmm.tableAt (s : Vmm σ) (root : Nat) (p : List (Fin 512)) : Option Nat :=
  nodeAt child s.mem root p

/-- The leaf a full path leads to. -/
abbrev Vmm.leafAt (s : Vmm σ) (root : Nat) (p : List (Fin 512)) : Option (Nat × Word) :=
  find child leaf s.mem root p

/-- **What the MMU makes of an address.** -/
def Vmm.translate (s : Vmm σ) (root virt : Nat) : Option Translation :=
  if Canonical virt then (s.leafAt root (pathOf virt)).map (leafTranslation virt) else none

variable {A : TableSource σ}

/-- **A well-formed tree**: no table is reached twice, none is still available
for allocation, all can be addressed, and no PML4 entry has the reserved
`PT_PSE`. -/
structure TreeOk (A : TableSource σ) (root : Nat) (s : Vmm σ) : Prop where
  separate : Separate child s.mem root 3
  below : ∀ p t, 0 < p.length → p.length ≤ 3 → s.tableAt root p = some t → t < hhdmLimit
  unavail : ∀ p t, p.length ≤ 3 → s.tableAt root p = some t → ¬ A.avail s.source t
  pml4 : ∀ i, present (s.mem root i) = true → pse (s.mem root i) = false

/-! ## Creating tables -/

/-- Why no table could be had: an allocation has failed, or the VMM creates
none yet. -/
def Refused (s : Vmm σ) : Prop := s.denied = true ∨ s.mode = .early

/-- Following `phys_to_virt` leads back to the table. -/
theorem virtToPhys_physToVirt (mode : VmmMode) {t : Nat} (hdvd : pageSize ∣ t)
    (hlim : t < hhdmLimit) : virtToPhys (physToVirt mode t) = t := by
  have hwrap : (t + hhdmBase) % 2 ^ 64 = t + hhdmBase := by
    have hl : hhdmLimit = 0x777F80000000 := rfl
    have hb : hhdmBase = 0xFFFF888000000000 := rfl
    exact Nat.mod_eq_of_lt (by omega)
  cases mode <;> simp only [physToVirt, hwrap]
  · exact virtToPhys_low hdvd hlim
  · exact virtToPhys_low hdvd hlim
  all_goals exact virtToPhys_hhdm hdvd hlim

/-- Tables were added and nothing else: every leaf is what it was, and every
table where there was none is one of the `new` paths. -/
structure Grown (A : TableSource σ) (root : Nat) (s s' : Vmm σ) (new : List (Fin 512) → Prop) :
    Prop where
  ok : TreeOk A root s'
  mode : s'.mode = s.mode
  denied : s.denied = true → s'.denied = true
  leaves : ∀ q, q.length = 4 → s'.leafAt root q = s.leafAt root q
  tables : ∀ q, q.length ≤ 3 →
    s'.tableAt root q = s.tableAt root q ∨ s.tableAt root q = none ∧ new q

variable {root t table : Nat} {s s' s'' : Vmm σ} {p : List (Fin 512)} {i : Fin 512}
  {new new' : List (Fin 512) → Prop}

theorem tableAt_concat (h : s.tableAt root p = some t) :
    s.tableAt root (p ++ [i]) = child (s.mem t i) := by
  show nodeAt child s.mem root (p ++ [i]) = _
  rw [nodeAt_concat, show nodeAt child s.mem root p = some t from h]
  rfl

theorem Grown.refl (h : TreeOk A root s) : Grown A root s s new :=
  ⟨h, rfl, id, fun _ _ => rfl, fun _ _ => .inl rfl⟩

theorem Grown.mono (h : Grown A root s s' new) (hnew : ∀ q, new q → new' q) :
    Grown A root s s' new' :=
  ⟨h.ok, h.mode, h.denied, h.leaves,
    fun q hq => (h.tables q hq).imp id fun hc => ⟨hc.1, hnew q hc.2⟩⟩

theorem Grown.trans (h : Grown A root s s' new) (h' : Grown A root s' s'' new) :
    Grown A root s s'' new := by
  refine ⟨h'.ok, h'.mode.trans h.mode, fun hd => h'.denied (h.denied hd), fun q hq => ?_,
    fun q hq => ?_⟩
  · rw [h'.leaves q hq, h.leaves q hq]
  · rcases h'.tables q hq with h2 | ⟨h2, hn⟩
    · rw [h2]
      exact h.tables q hq
    · rcases h.tables q hq with h1 | ⟨h1, -⟩
      · exact .inr ⟨h1 ▸ h2, hn⟩
      · exact .inr ⟨h1, hn⟩

/-- A failed or unused allocation leaves the tree. -/
theorem TreeOk.drawn (h : TreeOk A root s) (denied : Bool) :
    TreeOk A root { s with source := (A.alloc s.source).2, denied := denied } :=
  ⟨h.separate, h.below,
    fun p t hp ht hav => h.unavail p t hp ht (A.avail_of_alloc _ _ hav), h.pml4⟩

/-- A table page `u` that was not in the tree has been cleared and linked at
word `i` of the table at `p`. -/
structure FreshLink (root : Nat) (s s' : Vmm σ) (p : List (Fin 512)) (t : Nat) (i : Fin 512)
    (u : Nat) : Prop where
  separate : Separate child s.mem root 3
  length_le : p.length ≤ 2
  node : s.tableAt root p = some t
  absent : present (s.mem t i) = false
  fresh : ∀ q, q.length ≤ 3 → s.tableAt root q ≠ some u
  link : child (s'.mem t i) = some u
  zero : ∀ j, s'.mem u j = 0
  other : ∀ v j, v ≠ u → ¬ (v = t ∧ j = i) → s'.mem v j = s.mem v j

section FreshLink

variable {u : Nat} (h : FreshLink root s s' p t i u)

include h

theorem FreshLink.ne_fresh {q : List (Fin 512)} {v : Nat} (hq : q.length ≤ 3)
    (hv : s.tableAt root q = some v) : v ≠ u := fun he => h.fresh q hq (he ▸ hv)

/-- The new table is at its path, the others are where they were. -/
theorem FreshLink.tables (q : List (Fin 512)) (hq : q.length ≤ 3) :
    (q = p ++ [i] → s'.tableAt root q = some u) ∧
      (q ≠ p ++ [i] → s'.tableAt root q = s.tableAt root q) := by
  have hlen := h.length_le
  have hzero : ∀ j, child (s'.mem u j) = none := by
    intro j
    rw [h.zero j]
    decide
  have hother : ∀ q v, q.length < 3 → s.tableAt root q = some v → ∀ j, ¬ (v = t ∧ j = i) →
      child (s'.mem v j) = child (s.mem v j) := by
    intro q v hq hv j hc
    rw [h.other v j (h.ne_fresh (Nat.le_of_lt hq) hv) hc]
  exact nodeAt_link h.separate (by omega) h.node (child_eq_none_of_not_present h.absent) h.link
    hzero hother q hq

/-- No leaf changes: through the new table nothing is found, and nothing was
found through the word that links it. -/
theorem FreshLink.leaves (q : List (Fin 512)) (hq : q.length = 4) :
    s'.leafAt root q = s.leafAt root q := by
  have hlen := h.length_le
  by_cases hpre : (p ++ [i]) <+: q
  · -- below the new link: nothing before, a cleared table now
    obtain ⟨r, rfl⟩ := hpre
    rw [List.append_assoc, List.singleton_append] at hq ⊢
    have hr : ∃ k, r.length = k + 1 := ⟨r.length - 1, by
      rw [List.length_append, List.length_cons] at hq
      omega⟩
    obtain ⟨k, hk⟩ := hr
    have hnode : s'.tableAt root p = some t := by
      rw [(h.tables p (by omega)).2 (by simp), h.node]
    have hempty : find child leaf s'.mem u r = none := by
      refine find_empty (fun k j => ?_) (fun j => ?_) r
      · rw [h.zero j]
        exact leaf_eq_none_of_not_present (by decide) k
      · rw [h.zero j]
        decide
    have hold : find child leaf s.mem t (i :: r) = none := by
      simp only [find, leaf_eq_none_of_not_present h.absent, child_eq_none_of_not_present h.absent]
    have hnew : find child leaf s'.mem t (i :: r) = none := by
      simp only [find, hk, leaf_succ_eq_none_of_child k _ u h.link, h.link]
      exact hempty
    rw [Vmm.leafAt, Vmm.leafAt,
      find_append leaf_succ_eq_none_of_child (List.cons_ne_nil _ _) hnode,
      find_append leaf_succ_eq_none_of_child (List.cons_ne_nil _ _) h.node, hold, hnew]
  · have hother : ∀ q v, q.length ≤ 3 → nodeAt child s.mem root q = some v →
        ∀ j, ¬ (v = t ∧ j = i) → s'.mem v j = s.mem v j :=
      fun q v hq hv j hc => h.other v j (h.ne_fresh hq hv) hc
    exact find_frame h.separate (by omega) h.node hother q [] root rfl (by simp [hq]) hpre

/-- **Linking a fresh table** keeps the tree well formed. -/
theorem FreshLink.grown (hok : TreeOk A root s) (hmode : s'.mode = s.mode)
    (hlim : u < hhdmLimit) (hdenied : s.denied = true → s'.denied = true)
    (havail : ∀ q, A.avail s'.source q → A.avail s.source q) (hgone : ¬ A.avail s'.source u) :
    Grown A root s s' (fun q => q = p ++ [i]) := by
  refine ⟨⟨h.separate.link h.fresh h.tables, ?_, ?_, ?_⟩, hmode, hdenied,
    h.leaves, ?_⟩
  · intro q v hpos hq hv
    by_cases hqe : q = p ++ [i]
    · rw [(h.tables q hq).1 hqe] at hv
      cases hv
      exact hlim
    · rw [(h.tables q hq).2 hqe] at hv
      exact hok.below q v hpos hq hv
  · intro q v hq hv hav
    by_cases hqe : q = p ++ [i]
    · rw [(h.tables q hq).1 hqe] at hv
      cases hv
      exact hgone hav
    · rw [(h.tables q hq).2 hqe] at hv
      exact hok.unavail q v hq hv (havail v hav)
  · intro j hj
    by_cases hc : root = t ∧ j = i
    · have hlink := h.link
      rw [← hc.1, ← hc.2] at hlink
      unfold child at hlink
      split at hlink
      · rename_i hb
        rw [Bool.and_eq_true, Bool.not_eq_true'] at hb
        exact hb.2
      · cases hlink
    · have hroot : root ≠ u := h.ne_fresh (q := []) (by simp) rfl
      rw [h.other root j hroot hc] at hj ⊢
      exact hok.pml4 j hj
  · intro q hq
    by_cases hqe : q = p ++ [i]
    · right
      refine ⟨?_, hqe⟩
      rw [hqe, tableAt_concat h.node]
      exact child_eq_none_of_not_present h.absent
    · exact .inl ((h.tables q hq).2 hqe)

end FreshLink

/-- Every address below a path has a leaf already. -/
def Covered (root : Nat) (s : Vmm σ) (p : List (Fin 512)) : Prop :=
  ∀ q, q.length = 4 → p <+: q → s.leafAt root q ≠ none

/-- A large leaf in the way covers everything below it. -/
theorem TreeOk.covered_of_pse (h : TreeOk A root s) (hp : p.length ≤ 2)
    (ht : s.tableAt root p = some t) (hpres : present (s.mem t i) = true)
    (hpse : pse (s.mem t i) = true) : Covered root s (p ++ [i]) := by
  intro q hq hpre
  obtain ⟨r, rfl⟩ := hpre
  rw [List.append_assoc, List.singleton_append] at hq ⊢
  rw [Vmm.leafAt, find_append leaf_succ_eq_none_of_child (List.cons_ne_nil _ _) ht]
  rw [List.length_append, List.length_cons] at hq
  -- in the PML4 the bit is reserved, so `p` is a PDPT or a page directory
  have hne : p ≠ [] := by
    rintro rfl
    cases ht
    rw [h.pml4 i hpres] at hpse
    cases hpse
  have hpos := List.length_pos_iff.mpr hne
  have hr : r.length = 1 ∨ r.length = 2 := by omega
  rcases hr with hr | hr <;> simp [find, leaf, hr, hpres, hpse]

/-- **What `get_or_create_table` can do**: leave everything as it is, because
the table is there or cannot be; fail to get a page; or link a page that
nobody used. -/
theorem getOrCreateTable_cases (h : TreeOk A root s) (hp : p.length ≤ 2)
    (ht : s.tableAt root p = some (virtToPhys table)) (i : Fin 512) :
    ((getOrCreateTable A s table i).2 = s ∧
      ((∃ ptr, (getOrCreateTable A s table i).1 = some ptr ∧
          s.tableAt root (p ++ [i]) = some (virtToPhys ptr)) ∨
        (getOrCreateTable A s table i).1 = none ∧
          (Covered root s (p ++ [i]) ∨ s.mode = .early))) ∨
    ((getOrCreateTable A s table i).2 = { s with source := (A.alloc s.source).2, denied := true } ∧
      (getOrCreateTable A s table i).1 = none ∧ s.tableAt root (p ++ [i]) = none ∧
      (A.alloc s.source).1 = none) ∨
    ∃ ptr, (getOrCreateTable A s table i).1 = some ptr ∧ (A.alloc s.source).1 = some ptr ∧
      FreshLink root s (getOrCreateTable A s table i).2 p (virtToPhys table) i (virtToPhys ptr) ∧
      A.avail s.source (virtToPhys ptr) ∧
      ¬ A.avail (getOrCreateTable A s table i).2.source (virtToPhys ptr) ∧
      (getOrCreateTable A s table i).2.source = (A.alloc s.source).2 ∧
      (getOrCreateTable A s table i).2.mode = s.mode ∧
      (getOrCreateTable A s table i).2.faulted = (s.faulted || outOfReach s.mode ptr) ∧
      (getOrCreateTable A s table i).2.denied = s.denied := by
  unfold getOrCreateTable
  by_cases hmode : s.mode = .early
  · rw [if_pos hmode]
    exact .inl ⟨rfl, .inr ⟨rfl, .inr hmode⟩⟩
  rw [if_neg hmode]
  cases hpres : present (s.read table i) with
  | true =>
      left
      cases hpse : pse (s.read table i) with
      | true =>
          simp only [hpres, hpse, if_true]
          exact ⟨trivial, .inr ⟨trivial, .inl (h.covered_of_pse hp ht hpres hpse)⟩⟩
      | false =>
          have hchild : child (s.mem (virtToPhys table) i) = some (addrOf (s.read table i)) := by
            show (if present (s.read table i) && !pse (s.read table i) then _ else none) = _
            rw [hpres, hpse]
            rfl
          have hsub := (tableAt_concat ht).trans hchild
          have hlim := h.below _ _ (by simp) (by simp; omega) hsub
          simp only [hpres, hpse, if_true, Bool.false_eq_true, if_false]
          refine ⟨trivial, .inl ⟨_, rfl, ?_⟩⟩
          rw [virtToPhys_physToVirt s.mode (pageSize_dvd_addrOf _) hlim]
          exact hsub
  | false =>
      right
      cases halloc : A.alloc s.source with
      | mk res source =>
          simp only [hpres, Bool.false_eq_true, if_false, allocTable, halloc]
          cases res with
          | none =>
              refine .inl ⟨by rw [Option.isNone_none, Bool.or_true], rfl, ?_, rfl⟩
              rw [tableAt_concat ht]
              exact child_eq_none_of_not_present hpres
          | some sub =>
              right
              obtain ⟨hav, hgone⟩ := A.alloc_avail _ _ _ halloc
              obtain ⟨hdvd, hlim⟩ := A.avail_page _ _ hav
              -- what was available is no table of the tree
              have hfresh : ∀ q, q.length ≤ 3 → s.tableAt root q ≠ some (virtToPhys sub) :=
                fun q hq hc => h.unavail q _ hq hc hav
              have hne : virtToPhys sub ≠ virtToPhys table :=
                fun he => hfresh p (by omega) (he ▸ ht)
              refine ⟨sub, rfl, rfl, ?_, hav, hgone, rfl, rfl, rfl, Bool.or_false _⟩
              refine ⟨h.separate, hp, ht, hpres, hfresh, ?_, fun j => ?_, fun v j hv hc => ?_⟩
              · have hflags : FlagsOk (ptPresent ||| (ptWritable ||| ptUser)) := by
                  unfold FlagsOk
                  decide
                have hlink := (link_spec hdvd hlim hflags (by decide) (by decide)).1
                simpa [Vmm.write, BitVec.or_assoc] using hlink
              · simp [Vmm.write, Vmm.clear, hne]
              · simp [Vmm.write, Vmm.clear, hv, hc]

/-- **`get_or_create_table`**: it returns the table at the path, old or new,
or fails because a large leaf covers the path or no table could be had. -/
theorem getOrCreateTable_spec (h : TreeOk A root s) (hp : p.length ≤ 2)
    (ht : s.tableAt root p = some (virtToPhys table)) (i : Fin 512) :
    Grown A root s (getOrCreateTable A s table i).2 (fun q => q = p ++ [i]) ∧
    ((∃ ptr, (getOrCreateTable A s table i).1 = some ptr ∧
        (getOrCreateTable A s table i).2.tableAt root (p ++ [i]) = some (virtToPhys ptr)) ∨
      ((getOrCreateTable A s table i).1 = none ∧
        (Covered root s (p ++ [i]) ∨
          Refused (getOrCreateTable A s table i).2))) := by
  have hcases := getOrCreateTable_cases h hp ht i
  revert hcases
  cases getOrCreateTable A s table i with
  | mk res s' =>
      dsimp only
      rintro (⟨rfl, hres⟩ | ⟨rfl, rfl, -⟩ |
        ⟨ptr, rfl, -, hlink, hav, hgone, hsource, hmode, -, hdenied⟩)
      · exact ⟨Grown.refl h, hres.imp id fun hc => ⟨hc.1, hc.2.imp id .inr⟩⟩
      · exact ⟨⟨h.drawn true, rfl, fun _ => rfl, fun _ _ => rfl, fun _ _ => .inl rfl⟩,
          .inr ⟨rfl, .inr (.inl rfl)⟩⟩
      · have hlim := (A.avail_page _ _ hav).2
        have hmono : ∀ q, A.avail s'.source q → A.avail s.source q := by
          intro q hq
          rw [hsource] at hq
          exact A.avail_of_alloc _ _ hq
        refine ⟨hlink.grown h hmode hlim (fun hd => hdenied.trans hd) hmono hgone,
          .inl ⟨ptr, rfl, ?_⟩⟩
        exact (hlink.tables _ (by simp; omega)).1 rfl

/-- The walk of `get_or_create_pd` and `get_or_create_pt` down a path. -/
def descend (A : TableSource σ) (s : Vmm σ) (table : Nat) : List (Fin 512) → Option Nat × Vmm σ
  | [] => (some table, s)
  | i :: r =>
      match getOrCreateTable A s table i with
      | (none, s) => (none, s)
      | (some sub, s) => descend A s sub r

theorem getOrCreatePd_eq (s : Vmm σ) (pml4 virt : Nat) :
    getOrCreatePd A s pml4 virt = descend A s pml4 [pml4Idx virt, pdptIdx virt] := by
  unfold getOrCreatePd
  simp only [descend]
  cases getOrCreateTable A s pml4 (pml4Idx virt) with
  | mk res s₁ =>
      cases res with
      | none => rfl
      | some sub =>
          simp only
          cases getOrCreateTable A s₁ sub (pdptIdx virt) with
          | mk res s₂ => cases res <;> rfl

theorem getOrCreatePt_eq (s : Vmm σ) (pml4 virt : Nat) :
    getOrCreatePt A s pml4 virt = descend A s pml4 [pml4Idx virt, pdptIdx virt, pdIdx virt] := by
  unfold getOrCreatePt
  rw [getOrCreatePd_eq]
  simp only [descend]
  cases getOrCreateTable A s pml4 (pml4Idx virt) with
  | mk res s₁ =>
      cases res with
      | none => rfl
      | some sub =>
          simp only
          cases getOrCreateTable A s₁ sub (pdptIdx virt) with
          | mk res s₂ =>
              cases res with
              | none => rfl
              | some sub =>
                  simp only
                  cases getOrCreateTable A s₂ sub (pdIdx virt) with
                  | mk res s₃ => cases res <;> rfl

/-- **The walk down a path** creates the tables on it and changes no leaf. -/
theorem descend_spec (r : List (Fin 512)) : ∀ {s : Vmm σ} {p : List (Fin 512)} {table : Nat},
    TreeOk A root s → p.length + r.length ≤ 3 → s.tableAt root p = some (virtToPhys table) →
    Grown A root s (descend A s table r).2 (fun q => q <+: p ++ r) ∧
    ((∃ ptr, (descend A s table r).1 = some ptr ∧
        (descend A s table r).2.tableAt root (p ++ r) = some (virtToPhys ptr)) ∨
      ((descend A s table r).1 = none ∧
        (Covered root s (p ++ r) ∨ Refused (descend A s table r).2))) := by
  induction r with
  | nil =>
      intro s p table h _ ht
      rw [List.append_nil]
      exact ⟨Grown.refl h, .inl ⟨table, rfl, ht⟩⟩
  | cons i r ih =>
      intro s p table h hlen ht
      rw [List.length_cons] at hlen
      obtain ⟨hgrown, hres⟩ := getOrCreateTable_spec h (by omega) ht i
      have hpre : p ++ [i] <+: p ++ i :: r := ⟨r, by simp⟩
      have hgrown' : Grown A root s (getOrCreateTable A s table i).2 (fun q => q <+: p ++ i :: r) :=
        hgrown.mono fun q hq => hq ▸ hpre
      unfold descend
      revert hgrown hgrown' hres
      cases getOrCreateTable A s table i with
      | mk res s₁ =>
          intro hgrown hres hgrown'
          rcases hres with ⟨ptr, rfl, hptr⟩ | ⟨rfl, hwhy⟩
          · obtain ⟨hg, hr⟩ := ih hgrown.ok (by simp; omega) hptr
            rw [List.append_assoc, List.singleton_append] at hg hr
            refine ⟨hgrown'.trans hg, hr.imp id fun ⟨hn, hwhy⟩ => ⟨hn, hwhy.imp ?_ ?_⟩⟩
            · intro hcov q hq hpq
              rw [← hgrown.leaves q hq]
              exact hcov q hq hpq
            · exact id
          · -- what covers a prefix of the path covers the path
            refine ⟨hgrown', .inr ⟨rfl, hwhy.imp (fun hcov q hq hpq => ?_) id⟩⟩
            exact hcov q hq (hpre.trans hpq)

end Tree

end DevOS.Arch
