import DevOS.Arch.VmmIsolation
import DevOS.Mm.ReadyVmm

/-!
# Page tables — the pages of an address space

The teardown calls `free_pages` on one page after the other and writes to no
table, so it is a run of `free_pages` over a list that the tables give before
it starts (`vmmDestroyUserPml4_pages`). On the list is a page for each leaf of
the low half, each table there, and the PML4.
-/

namespace DevOS.Mm

open DevOS.Lib DevOS.Arch

variable {τ : Type} {root t table f n : Nat} {s : Vmm τ} {p : List (Fin 512)} {i j : Fin 512}
  {e : Word}

/-! ## What lies below a path -/

/-- A frame of the tree at or below a path: that of a table, or the first one
of a leaf. -/
def Below (s : Vmm τ) (root : Nat) (p : List (Fin 512)) (f : Nat) : Prop :=
  (∃ q t, p <+: q ∧ q.length ≤ 3 ∧ s.tableAt root q = some t ∧ t / pageSize = f) ∨
  ∃ q n e, p <+: q ∧ q.length = 4 ∧ s.leafAt root q = some (n, e) ∧ addrOf e / pageSize = f

/-- A path that is longer starts with one more index. -/
theorem prefix_cases {q : List (Fin 512)} (h : p <+: q) :
    q = p ∨ ∃ i, (p ++ [i]) <+: q := by
  obtain ⟨r, rfl⟩ := h
  cases r with
  | nil => exact .inl (List.append_nil p)
  | cons i r => exact .inr ⟨i, r, by rw [List.append_assoc, List.singleton_append]⟩

/-- Below a table lie the table and what lies below its entries. -/
theorem below_table (ht : s.tableAt root p = some t) (hlen : p.length ≤ 3) :
    Below s root p f ↔ t / pageSize = f ∨ ∃ i, Below s root (p ++ [i]) f := by
  constructor
  · rintro (⟨q, u, hpre, hq, hu, hf⟩ | ⟨q, n, e, hpre, hq, he, hf⟩)
    · obtain rfl | ⟨i, hi⟩ := prefix_cases hpre
      · rw [ht] at hu
        cases hu
        exact .inl hf
      · exact .inr ⟨i, .inl ⟨q, u, hi, hq, hu, hf⟩⟩
    · obtain rfl | ⟨i, hi⟩ := prefix_cases hpre
      · omega
      · exact .inr ⟨i, .inr ⟨q, n, e, hi, hq, he, hf⟩⟩
  · rintro (hf | ⟨i, ⟨q, u, hpre, hq⟩ | ⟨q, n, e, hpre, hq⟩⟩)
    · exact .inl ⟨p, t, List.prefix_rfl, hlen, ht, hf⟩
    · exact .inl ⟨q, u, (List.prefix_append p [i]).trans hpre, hq⟩
    · exact .inr ⟨q, n, e, (List.prefix_append p [i]).trans hpre, hq⟩

/-- A table below an entry is reached through it. -/
theorem tableAt_through {q : List (Fin 512)} {u : Nat} (ht : s.tableAt root p = some t)
    (hpre : (p ++ [i]) <+: q) (hu : s.tableAt root q = some u) : child (s.mem t i) ≠ none := by
  obtain ⟨r, rfl⟩ := hpre
  rw [Vmm.tableAt, nodeAt_append, show nodeAt child s.mem root (p ++ [i]) = child (s.mem t i) from
    tableAt_concat ht] at hu
  intro hnone
  rw [hnone] at hu
  cases hu

/-- A leaf below an entry is found through it. -/
theorem leafAt_through (ht : s.tableAt root p = some t) (r : List (Fin 512)) :
    s.leafAt root (p ++ [i] ++ r) = find child leaf s.mem t (i :: r) := by
  rw [Vmm.leafAt, List.append_assoc, List.singleton_append,
    find_append leaf_succ_eq_none_of_child (List.cons_ne_nil _ _) ht]

/-- Nothing lies below an entry that is not present. -/
theorem not_below_absent (ht : s.tableAt root p = some t)
    (hpres : present (s.mem t i) = false) : ¬ Below s root (p ++ [i]) f := by
  rintro (⟨q, u, hpre, -, hu, -⟩ | ⟨q, n, e, ⟨r, rfl⟩, -, he, -⟩)
  · exact tableAt_through ht hpre hu (child_eq_none_of_not_present hpres)
  · rw [leafAt_through ht] at he
    simp only [find, leaf_eq_none_of_not_present hpres, child_eq_none_of_not_present hpres] at he
    cases he

/-- Below an entry that is a leaf lies the leaf's frame. -/
theorem below_leaf (ht : s.tableAt root p = some t) (hlen : p.length ≤ 3)
    (hleaf : leaf (3 - p.length) (s.mem t i) = some (n, e)) :
    Below s root (p ++ [i]) f ↔ addrOf e / pageSize = f := by
  have hfound : ∀ r, (p ++ [i] ++ r).length = 4 → s.leafAt root (p ++ [i] ++ r) = some (n, e) := by
    intro r hr
    have hr' : r.length = 3 - p.length := by
      simp only [List.length_append, List.length_singleton] at hr
      omega
    rw [leafAt_through ht]
    simp only [find, hr', hleaf]
  constructor
  · rintro (⟨q, u, hpre, hq, hu, -⟩ | ⟨q, n', e', ⟨r, rfl⟩, hq, he, hf⟩)
    · -- a leaf above the page tables has no table below it
      have hle := hpre.length_le
      rw [List.length_append, List.length_singleton] at hle
      obtain ⟨k, hk⟩ : ∃ k, 3 - p.length = k + 1 := ⟨2 - p.length, by omega⟩
      obtain ⟨v, hv⟩ := Option.ne_none_iff_exists'.mp (tableAt_through ht hpre hu)
      rw [hk, leaf_succ_eq_none_of_child k _ v hv] at hleaf
      cases hleaf
    · rw [hfound r hq] at he
      cases he
      exact hf
  · intro hf
    have hlen' : (p ++ [i] ++ List.replicate (3 - p.length) (0 : Fin 512)).length = 4 := by
      simp only [List.length_append, List.length_singleton, List.length_replicate]
      omega
    exact .inr ⟨_, n, e, List.prefix_append _ _, hlen', hfound _ hlen', hf⟩

/-! ## The pages that are freed -/

/-- The pages that one of the four loops frees: those of its present entries
and then the table's. -/
def tablePages (entries : List (Fin 512)) (pages : Word → List Nat) (s : Vmm τ) (table : Nat) :
    List Nat :=
  (entries.flatMap fun i => if present (s.read table i) then pages (s.read table i) else []) ++
    [hhdmToPage table]

/-- The page of an entry's address. -/
def entryPage (s : Vmm τ) (entry : Word) : Nat := hhdmToPage (physToVirt s.mode (addrOf entry))

/-- The pages freed by the loop over a page table. -/
def ptPages (s : Vmm τ) : Nat → List Nat :=
  tablePages (List.finRange 512) (fun entry => [entryPage s entry]) s

/-- The pages freed by the loop over a page directory. -/
def pdPages (s : Vmm τ) : Nat → List Nat :=
  tablePages (List.finRange 512)
    (fun entry => if pse entry then [entryPage s entry]
      else ptPages s (physToVirt s.mode (addrOf entry))) s

/-- The pages freed by the loop over a PDPT. -/
def pdptPages (s : Vmm τ) : Nat → List Nat :=
  tablePages (List.finRange 512) (fun entry => pdPages s (physToVirt s.mode (addrOf entry))) s

/-- The pages that the teardown frees. -/
def pml4Pages (s : Vmm τ) : Nat → List Nat :=
  tablePages lowerEntries (fun entry => pdptPages s (physToVirt s.mode (addrOf entry))) s

/-- **The pages of one loop** are what lies below the table, if those of each
entry are what lies below the entry. -/
theorem mem_tablePages {entries : List (Fin 512)} {pages : Word → List Nat}
    (ht : s.tableAt root p = some (virtToPhys table))
    (hpage : hhdmToPage table = virtToPhys table / pageSize)
    (hpages : ∀ i ∈ entries, present (s.read table i) = true →
      (f ∈ pages (s.read table i) ↔ Below s root (p ++ [i]) f)) :
    f ∈ tablePages entries pages s table ↔
      virtToPhys table / pageSize = f ∨ ∃ i ∈ entries, Below s root (p ++ [i]) f := by
  rw [tablePages, List.mem_append, List.mem_flatMap, List.mem_singleton, hpage, or_comm, eq_comm]
  refine or_congr Iff.rfl (exists_congr fun i => and_congr_right fun hi => ?_)
  cases hpres : present (s.read table i) with
  | true =>
      rw [if_pos rfl]
      exact hpages i hi hpres
  | false =>
      rw [if_neg Bool.false_ne_true]
      exact iff_of_false List.not_mem_nil (not_below_absent ht hpres)

/-- The same where the loop is over all entries. -/
theorem mem_tablePages_all {pages : Word → List Nat}
    (ht : s.tableAt root p = some (virtToPhys table)) (hlen : p.length ≤ 3)
    (hpage : hhdmToPage table = virtToPhys table / pageSize)
    (hpages : ∀ i, present (s.read table i) = true →
      (f ∈ pages (s.read table i) ↔ Below s root (p ++ [i]) f)) :
    f ∈ tablePages (List.finRange 512) pages s table ↔ Below s root p f := by
  rw [mem_tablePages ht hpage fun i _ => hpages i, below_table ht hlen]
  refine or_congr Iff.rfl (exists_congr fun i => ?_)
  rw [and_iff_right (List.mem_finRange i)]

/-! ## The pages of an address space -/

/-- Every 2 MiB leaf of the low half is on a 2 MiB boundary. -/
def LargeAligned (root : Nat) (s : Vmm τ) : Prop :=
  ∀ i j k t, Low i → s.tableAt root [i, j] = some t → present (s.mem t k) = true →
    pse (s.mem t k) = true → addrOf (s.mem t k) % 0x200000 = 0

section Pages

variable {A : TableSource τ} {kern u : Nat} {k : Fin 512} (hmode : s.mode = .ready)

include hmode

theorem entryPage_eq (e : Word) : entryPage s e = addrOf e / pageSize := by
  rw [entryPage, hmode]
  exact hhdmToPage_physToVirt (Nat.lt_trans (addrOf_lt e) (by decide))

theorem mem_ptPages {pt : Nat} (ht : s.tableAt u [i, j, k] = some (virtToPhys pt))
    (hpage : hhdmToPage pt = virtToPhys pt / pageSize) :
    f ∈ ptPages s pt ↔ Below s u [i, j, k] f := by
  refine mem_tablePages_all ht (Nat.le_refl 3) hpage fun l hpres => ?_
  have hleaf : leaf 0 (s.mem (virtToPhys pt) l) = some (0, s.mem (virtToPhys pt) l) := if_pos hpres
  rw [List.mem_singleton, entryPage_eq hmode, below_leaf ht (Nat.le_refl 3) hleaf, eq_comm]
  rfl

variable (hown : OwnOk A kern u s)

include hown

theorem mem_pdPages (hi : Low i) {pd : Nat} (ht : s.tableAt u [i, j] = some (virtToPhys pd))
    (hpage : hhdmToPage pd = virtToPhys pd / pageSize) :
    f ∈ pdPages s pd ↔ Below s u [i, j] f := by
  refine mem_tablePages_all ht (Nat.le_succ 2) hpage fun k hpres => ?_
  have hpres' : present (s.mem (virtToPhys pd) k) = true := hpres
  cases hpse : pse (s.read pd k) with
  | true =>
      have hpse' : pse (s.mem (virtToPhys pd) k) = true := hpse
      have hleaf : leaf 1 (s.mem (virtToPhys pd) k) = some (1, s.mem (virtToPhys pd) k) := by
        simp only [leaf, hpres', hpse', Bool.and_self, if_true]
      rw [if_pos rfl, List.mem_singleton, entryPage_eq hmode, below_leaf ht (Nat.le_succ 2) hleaf,
        eq_comm]
      rfl
  | false =>
      obtain ⟨hpt, hback, hpt'⟩ := hown.entry (p := [i, j]) (owned_cons hi) (by simp) ht hpres'
        hpse
      rw [if_neg Bool.false_ne_true]
      refine mem_ptPages hmode ?_ ?_
      · rw [Vmm.read, hback]
        exact hpt
      · rw [Vmm.read, hback, hmode, hpt']

theorem mem_pdptPages (hhuge : NoHuge u s) (hi : Low i) {pdpt : Nat}
    (ht : s.tableAt u [i] = some (virtToPhys pdpt))
    (hpage : hhdmToPage pdpt = virtToPhys pdpt / pageSize) :
    f ∈ pdptPages s pdpt ↔ Below s u [i] f := by
  refine mem_tablePages_all ht (by simp) hpage fun j hpres => ?_
  obtain ⟨hpd, hback, hpd'⟩ := hown.entry (p := [i]) (owned_cons hi) (by simp) ht hpres
    (hhuge i _ j hi ht hpres)
  refine mem_pdPages hmode hown hi ?_ ?_
  · rw [Vmm.read, hback]
    exact hpd
  · rw [Vmm.read, hback, hmode, hpd']

/-- **The pages that the teardown frees** are those of the low half: the PML4's
and what lies below its low entries. -/
theorem mem_pml4Pages {pml4 : Nat} (hu : u = virtToPhys pml4) (hhuge : NoHuge u s)
    (hpage : hhdmToPage pml4 = virtToPhys pml4 / pageSize) :
    f ∈ pml4Pages s pml4 ↔ u / pageSize = f ∨ ∃ i, Low i ∧ Below s u [i] f := by
  subst hu
  have hlow : ∀ i, i ∈ lowerEntries ↔ Low i := fun i => by simp [lowerEntries, Low]
  have hroot : s.tableAt (virtToPhys pml4) [] = some (virtToPhys pml4) := rfl
  rw [pml4Pages, mem_tablePages hroot hpage fun i hi hpres => ?_]
  · simp only [hlow, List.nil_append]
  · have hi' := (hlow i).mp hi
    obtain ⟨hpdpt, hback, hpdpt'⟩ := hown.entry (p := []) (owned_cons hi') (by simp) rfl hpres
      (hown.pml4 i (owned_cons hi') hpres)
    refine mem_pdptPages hmode hown hhuge hi' ?_ ?_
    · rw [Vmm.read, hback]
      exact hpdpt
    · rw [Vmm.read, hback, hmode, hpdpt']

/-- **By kind**: a page for each table of the low half, the PML4 among them,
and one for each leaf. -/
theorem mem_pml4Pages_iff {pml4 : Nat} (hu : u = virtToPhys pml4) (hhuge : NoHuge u s)
    (hpage : hhdmToPage pml4 = virtToPhys pml4 / pageSize) :
    f ∈ pml4Pages s pml4 ↔ (∃ t, LowTable s u t ∧ t / pageSize = f) ∨
      ∃ q n e, q.length = 4 ∧ (∀ i, [i] <+: q → Low i) ∧ s.leafAt u q = some (n, e) ∧
        addrOf e / pageSize = f := by
  have hfirst : ∀ {i : Fin 512} {q : List (Fin 512)}, Low i → [i] <+: q → ∀ j, [j] <+: q →
      Low j := by
    intro i q hi hpre j hj
    obtain ⟨r, rfl⟩ := hpre
    exact (List.cons_prefix_cons.mp hj).1 ▸ hi
  have hhead : ∀ {q : List (Fin 512)}, (∀ j, [j] <+: q → Low j) → q ≠ [] →
      ∃ i, Low i ∧ [i] <+: q := by
    intro q hlow hne
    obtain ⟨i, r, rfl⟩ := List.exists_cons_of_ne_nil hne
    exact ⟨i, hlow i ⟨r, rfl⟩, r, rfl⟩
  rw [mem_pml4Pages hmode hown hu hhuge hpage]
  constructor
  · rintro (hf | ⟨i, hi, ⟨q, t, hpre, hlen, ht, hf⟩ | ⟨q, n, e, hpre, hlen, he, hf⟩⟩)
    · exact .inl ⟨u, ⟨[], by simp, fun _ h => absurd (List.prefix_nil.mp h) (by simp), rfl⟩, hf⟩
    · exact .inl ⟨t, ⟨q, hlen, hfirst hi hpre, ht⟩, hf⟩
    · exact .inr ⟨q, n, e, hlen, hfirst hi hpre, he, hf⟩
  · rintro (⟨t, ⟨q, hlen, hlow, ht⟩, hf⟩ | ⟨q, n, e, hlen, hlow, he, hf⟩)
    · by_cases hq : q = []
      · subst hq
        cases ht
        exact .inl hf
      · obtain ⟨i, hi, hpre⟩ := hhead hlow hq
        exact .inr ⟨i, hi, .inl ⟨q, t, hpre, hlen, ht, hf⟩⟩
    · obtain ⟨i, hi, hpre⟩ := hhead hlow fun hnil => by simp [hnil] at hlen
      exact .inr ⟨i, hi, .inr ⟨q, n, e, hpre, hlen, he, hf⟩⟩

end Pages

/-! ## The teardown is a run -/

namespace Ready

/-- `free_pages` on a page. -/
def freePage (s : Vmm Buddy) (p : Nat) : Except String (Vmm Buddy) := do
  let b ← freePages s.source p
  return { s with source := b }

/-- From `s₀` on, pages were freed. -/
def Same (s₀ s : Vmm Buddy) : Prop := s.mem = s₀.mem ∧ s.mode = s₀.mode

variable {s₀ s s' : Vmm Buddy}

theorem Same.step {x : Nat} (h : Same s₀ s) (hok : freePage s x = .ok s') : Same s₀ s' := by
  unfold freePage at hok
  cases hfree : freePages s.source x with
  | error e =>
      rw [hfree] at hok
      cases hok
  | ok b =>
      rw [hfree] at hok
      cases hok
      exact h

theorem freeAt_page (h : Same s₀ s) (entry : Word) :
    freeAt s (physToVirt s.mode (addrOf entry)) = runFrom freePage s [entryPage s₀ entry] := by
  rw [entryPage, ← h.2]
  show freePage s (hhdmToPage _) = runFrom freePage s [_]
  rw [runFrom]
  cases freePage s (hhdmToPage (physToVirt s.mode (addrOf entry))) <;> rfl

/-- **One loop of the teardown** is a run over its pages, if its body is one
for each present entry. -/
theorem destroyTable_pages {entries : List (Fin 512)} {pages : Word → List Nat} {table : Nat}
    {body : Vmm Buddy → Word → Except String (Vmm Buddy)}
    (hbody : ∀ i ∈ entries, present (s₀.read table i) = true → ∀ s, Same s₀ s →
      body s (s₀.read table i) = runFrom freePage s (pages (s₀.read table i))) (h : Same s₀ s) :
    destroyTable entries body s table = runFrom freePage s (tablePages entries pages s₀ table) := by
  have hloop : runFrom
      (fun s i => if present (s.read table i) then body s (s.read table i) else .ok s) s entries =
      runFrom freePage s (entries.flatMap fun i =>
        if present (s₀.read table i) then pages (s₀.read table i) else []) := by
    refine runFrom_flatMap (I := Same s₀) (fun s x s' hs hx => hs.step hx) (fun i hi s hs => ?_) h
    have hread : s.read table i = s₀.read table i := by rw [Vmm.read, hs.1, Vmm.read]
    simp only [hread]
    cases hpres : present (s₀.read table i) with
    | true => exact hbody i hi hpres s hs
    | false => rfl
  rw [destroyTable, tablePages, runFrom_split, hloop]
  cases runFrom freePage s (entries.flatMap fun i =>
      if present (s₀.read table i) then pages (s₀.read table i) else []) with
  | error e => rfl
  | ok s₁ =>
      show freePage s₁ (hhdmToPage table) = runFrom freePage s₁ [hhdmToPage table]
      rw [runFrom]
      cases freePage s₁ (hhdmToPage table) <;> rfl

theorem destroyPt_pages (pt : Nat) (h : Same s₀ s) :
    destroyPt s pt = runFrom freePage s (ptPages s₀ pt) :=
  destroyTable_pages (fun _ _ _ _ hs => freeAt_page hs _) h

section Teardown

variable {A : TableSource Buddy} {kern u : Nat} (hmode : s₀.mode = .ready)
  (haligned : LargeAligned u s₀)

include hmode haligned

theorem destroyPd_pages (hi : Low i) {pd : Nat} (ht : s₀.tableAt u [i, j] = some (virtToPhys pd))
    (h : Same s₀ s) : destroyPd s pd = runFrom freePage s (pdPages s₀ pd) := by
  refine destroyTable_pages (fun k _ hpres s hs => ?_) h
  cases hpse : pse (s₀.read pd k) with
  | true =>
      have haddr : physToVirt s.mode (addrOf (s₀.read pd k)) % 0x200000 = 0 := by
        have hlt := addrOf_lt (s₀.read pd k)
        have hleaf : addrOf (s₀.read pd k) % 0x200000 = 0 := haligned i j k _ hi ht hpres hpse
        have hb : hhdmBase = 0xFFFF888000000000 := rfl
        rw [hs.2, hmode]
        simp only [physToVirt]
        omega
      simp only [if_true, haddr, ne_eq, not_true_eq_false, if_false]
      exact freeAt_page hs _
  | false =>
      simp only [Bool.false_eq_true, if_false]
      rw [hs.2]
      exact destroyPt_pages _ hs

variable (hown : OwnOk A kern u s₀)

include hown

theorem destroyPdpt_pages (hhuge : NoHuge u s₀) (hi : Low i) {pdpt : Nat}
    (ht : s₀.tableAt u [i] = some (virtToPhys pdpt)) (h : Same s₀ s) :
    destroyPdpt s pdpt = runFrom freePage s (pdptPages s₀ pdpt) := by
  refine destroyTable_pages (fun j _ hpres s hs => ?_) h
  obtain ⟨hpd, hback, -⟩ := hown.entry (p := [i]) (owned_cons hi) (by simp) ht hpres
    (hhuge i _ j hi ht hpres)
  rw [hs.2]
  refine destroyPd_pages hmode haligned (j := j) hi ?_ hs
  rw [Vmm.read, hback]
  exact hpd

/-- **`vmm_destroy_user_pml4`** frees the pages of the address space one after
the other. -/
theorem vmmDestroyUserPml4_pages {kernPml4 cr3 pml4 : Nat} (hu : u = virtToPhys pml4)
    (hhuge : NoHuge u s₀) (hne : pml4 ≠ kernPml4) :
    vmmDestroyUserPml4 kernPml4 s₀ cr3 pml4 = (runFrom freePage s₀ (pml4Pages s₀ pml4)).map
      fun s => (0, if physToVirt s₀.mode (cr3 &&& cr3AddrMask) = pml4 then virtToPhys kernPml4
        else cr3, s) := by
  subst hu
  have hrun : destroyTable lowerEntries
      (fun s entry => destroyPdpt s (physToVirt s.mode (addrOf entry))) s₀ pml4 =
        runFrom freePage s₀ (pml4Pages s₀ pml4) := by
    refine destroyTable_pages (fun i hi hpres s hs => ?_) ⟨rfl, rfl⟩
    have hlow : Low i := by simpa [lowerEntries, Low] using hi
    obtain ⟨hpdpt, hback, -⟩ := hown.entry (p := []) (owned_cons hlow) (by simp) rfl hpres
      (hown.pml4 i (owned_cons hlow) hpres)
    rw [hs.2]
    refine destroyPdpt_pages hmode haligned hown hhuge hlow ?_ hs
    rw [Vmm.read, hback]
    exact hpdpt
  rw [vmmDestroyUserPml4, if_neg hne]
  simp only [hrun]
  cases runFrom freePage s₀ (pml4Pages s₀ pml4) <;> rfl

end Teardown

end Ready

end DevOS.Mm
