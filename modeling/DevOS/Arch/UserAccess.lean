import DevOS.Arch.BootmemPlaced
import DevOS.Arch.VmmForest
import DevOS.Lib.RadixAccess

/-!
# Page tables — what user mode may access

In user mode the MMU wants the rights of an access in every entry of its page
walk. `vmm.c` links every table it allocates with all of them, so that the
leaves decide; the kernel's leaves lack `PT_USER`.
-/

namespace DevOS.Arch

open DevOS.Lib

variable {σ : Type} {A : TableSource σ} {s s' : Vmm σ} {root pml4 table : Nat}
  {p q : List (Fin 512)} {i : Fin 512} {w mask flags : Word}

/-! ## Rights -/

/-- The entry grants all of `mask`. -/
def grants (mask e : Word) : Bool := e &&& mask == mask

/-- The rights of a read and of a write in user mode. -/
def userReads : Word := ptPresent ||| ptUser
def userWrites : Word := ptPresent ||| ptWritable ||| ptUser

/-- **What the MMU makes of an address in user mode.** -/
def Vmm.userTranslate (s : Vmm σ) (mask : Word) (root virt : Nat) : Option Translation :=
  if Canonical virt then
    (find (only (grants mask) child) (fun k => only (grants mask) (leaf k)) s.mem root
      (pathOf virt)).map (leafTranslation virt)
  else none

theorem grants_iff {e : Word} :
    grants mask e = true ↔ ∀ i, mask.getLsbD i = true → e.getLsbD i = true := by
  unfold grants
  rw [beq_iff_eq]
  constructor
  · intro h i hi
    have hbit := congrArg (fun v => v.getLsbD i) h
    simp only [BitVec.getLsbD_and, hi, Bool.and_true] at hbit
    exact hbit
  · intro h
    apply BitVec.eq_of_getLsbD_eq
    intro i _
    rw [BitVec.getLsbD_and]
    cases hm : mask.getLsbD i with
    | false => rw [Bool.and_false]
    | true => rw [h i hm, Bool.and_true]

theorem grants_or_right {e : Word} (h : grants mask e = true) (x : Word) :
    grants mask (x ||| e) = true := by
  rw [grants_iff] at h ⊢
  intro i hi
  rw [BitVec.getLsbD_or, h i hi, Bool.or_true]

theorem grants_or_left {e : Word} (h : grants mask e = true) (x : Word) :
    grants mask (e ||| x) = true := by
  rw [BitVec.or_comm]
  exact grants_or_right h x

/-- Fewer rights are granted too. -/
theorem grants_mono {mask' e : Word} (h : grants mask e = true) (hsub : grants mask' mask = true) :
    grants mask' e = true := by
  rw [grants_iff] at h hsub ⊢
  exact fun i hi => h i (hsub i hi)

theorem leaf_word {k k' : Nat} {a e : Word} (h : leaf k a = some (k', e)) : e = a := by
  unfold leaf at h
  split at h
  · split at h
    · cases h
      rfl
    · cases h
  · split at h
    · cases h
      rfl
    · cases h
  · split at h
    · cases h
      rfl
    · cases h
  · cases h

/-- **What user mode reaches** is mapped, by a leaf that grants the access. -/
theorem userTranslate_some {virt : Nat} {t : Translation}
    (h : s.userTranslate mask root virt = some t) :
    s.translate root virt = some t ∧
    ∃ k e, s.leafAt root (pathOf virt) = some (k, e) ∧ grants mask e = true := by
  unfold Vmm.userTranslate at h
  split at h
  · rename_i hc
    obtain ⟨⟨k, e⟩, hfind, rfl⟩ := Option.map_eq_some_iff.mp h
    obtain ⟨hleaf, k', a, ha, hok⟩ := find_of_only hfind
    have hat : s.leafAt root (pathOf virt) = some (k, e) := hleaf
    rw [Vmm.translate, if_pos hc, hat]
    exact ⟨rfl, k, e, rfl, leaf_word ha ▸ hok⟩
  · cases h

/-! ## The kernel's leaves -/

/-- No leaf of the tree is for user mode. -/
def Supervisor (root : Nat) (s : Vmm σ) : Prop :=
  ∀ p k e, p.length = 4 → s.leafAt root p = some (k, e) → grants ptUser e = false

theorem Supervisor.unreachable (h : Supervisor root s) (hmask : grants ptUser mask = true)
    (virt : Nat) : s.userTranslate mask root virt = none := by
  cases ht : s.userTranslate mask root virt with
  | none => rfl
  | some t =>
      obtain ⟨-, k, e, hleaf, hgrants⟩ := userTranslate_some ht
      have hno := h _ k e rfl hleaf
      rw [grants_mono hgrants hmask] at hno
      cases hno

theorem Supervisor.of_leaves (h : Supervisor root s)
    (hleaf : ∀ p, p.length = 4 → s'.leafAt root p = s.leafAt root p ∨ s'.leafAt root p = none) :
    Supervisor root s' := by
  intro p k e hp he
  rcases hleaf p hp with hsame | hnone
  · exact h p k e hp (hsame ▸ he)
  · rw [hnone] at he
    cases he

theorem Supervisor.of_mem {τ : Type} {s' : Vmm τ} (h : Supervisor root s) (hmem : s'.mem = s.mem) :
    Supervisor root s' := by
  intro p k e hp he
  refine h p k e hp ?_
  rw [Vmm.leafAt, ← hmem]
  exact he

theorem masked_and (x m : Word) : (x &&& ~~~m) &&& m = 0#64 := by
  apply BitVec.eq_of_getLsbD_eq
  intro i hi
  simp only [BitVec.getLsbD_and, BitVec.getLsbD_not, hi, BitVec.getLsbD_zero]
  cases x.getLsbD i <;> cases m.getLsbD i <;> rfl

/-- The leaf that is written is for user mode if the flags say so. -/
theorem unitLeaf_grants {large : Bool} {x k : Nat} {e : Word}
    (h : unitLeaf large x flags = some (k, e)) : grants ptUser e = grants ptUser flags := by
  unfold unitLeaf at h
  cases large with
  | true =>
      rw [if_pos rfl] at h
      obtain rfl := leaf_word h
      unfold grants
      rw [BitVec.or_assoc, packed_test (masked_and _ _) (by decide), BitVec.or_comm,
        packed_test (m := ptUser) (by decide) (by decide)]
  | false =>
      rw [if_neg Bool.false_ne_true] at h
      obtain rfl := leaf_word h
      unfold grants
      rw [packed_test (masked_and _ _) (by decide)]

/-- **Setting a page for the kernel** keeps the leaves the kernel's. -/
theorem Supervisor.unit (h : Supervisor (virtToPhys pml4) s)
    (hok : TreeOk A (virtToPhys pml4) s) (hflags : grants ptUser flags = false) (large : Bool)
    (v x : Nat) : Supervisor (virtToPhys pml4) (setUnit A pml4 flags large s v x).2 := by
  by_cases haligned : unitSize large ∣ v ∧ unitSize large ∣ x
  · have hset := setUnit_leaf hok haligned.1 haligned.2 flags
    intro p k e hp he
    by_cases hcode : (setUnit A pml4 flags large s v x).1 = 0
    · obtain ⟨hin, hout⟩ := hset.done hcode p hp
      by_cases hpre : unitPath large v <+: p
      · rw [(hin hpre).1] at he
        rw [unitLeaf_grants he, hflags]
      · rw [hout hpre] at he
        exact h p k e hp he
    · rw [(hset.failed hcode).1 p hp] at he
      exact h p k e hp he
  · rw [setUnit_unaligned haligned]
    exact h

/-- Clearing an entry of the root. -/
theorem Supervisor.unlink (h : Supervisor (virtToPhys pml4) s)
    (hok : TreeOk A (virtToPhys pml4) s) (i : Fin 512) :
    Supervisor (virtToPhys pml4) (s.write pml4 i 0) := by
  refine h.of_leaves fun p hp => ?_
  cases p with
  | nil => cases hp
  | cons j r =>
      have hr : r.length = 3 := Nat.succ.inj hp
      by_cases hj : j = i
      · right
        subst hj
        have hpres : present ((s.write pml4 j 0).mem (virtToPhys pml4) j) = false := by
          rw [write_mem, if_pos ⟨rfl, rfl⟩]
          decide
        simp only [Vmm.leafAt, find, leaf_eq_none_of_not_present hpres,
          child_eq_none_of_not_present hpres]
      · exact .inl ((hok.unlink i).2 j r hj hr)

/-- **`vmm_map_hhdm` keeps** what setting a page with one of its flags keeps. -/
theorem vmmMapHhdm_keeps_flags {M : Vmm σ → Prop} {F : Word → Prop} {K : KernelTables}
    (hF : ∀ type, F (hhdmFlags type)) (hvga : F vgaFlags)
    (hset : ∀ flags large s v x, F flags → M s → M (setUnit A K.kernPml4 flags large s v x).2)
    (hmode : ∀ s, M s → M { s with mode := .transition }) (table : List E820Entry) (h0 : M s) :
    M (vmmMapHhdm A K s table).2 := by
  have hentries : ∀ (es : List E820Entry) (acc : Nat × Vmm σ), M acc.2 →
      M (es.foldl (mapHhdmEntry A K) acc).2 := by
    intro es
    induction es with
    | nil => exact fun _ h => h
    | cons e es ih =>
        intro acc h
        exact ih _ (setRange_keeps (V := fun _ => True)
          (fun large s v x _ => hset _ large s v x (hF e.type)) (.inl fun _ => trivial) h)
  unfold vmmMapHhdm
  split
  · exact h0
  · exact hmode _ (setRange_keeps (V := fun _ => True)
      (fun large s v x _ => hset _ large s v x hvga) (.inl fun _ => trivial)
      (hentries table (0, s) h0))

theorem hhdmFlags_supervisor (type : Nat) : grants ptUser (hhdmFlags type) = false := by
  unfold hhdmFlags
  dsimp only
  split
  · decide
  · split
    all_goals decide

/-! ## Tables of user mode -/

/-- Below the slots `H` of the root, every entry that is present grants all that
user mode may ask for. -/
def Granting (H : Fin 512 → Prop) (root : Nat) (s : Vmm σ) : Prop :=
  ∀ p t j, p.length ≤ 3 → (∀ k, [k] <+: p ++ [j] → H k) → s.tableAt root p = some t →
    present (s.mem t j) = true → grants userWrites (s.mem t j) = true

variable {H : Fin 512 → Prop}

theorem link_grants (x : Word) :
    grants userWrites (x ||| ptPresent ||| ptWritable ||| ptUser) = true := by
  rw [BitVec.or_assoc, BitVec.or_assoc]
  exact grants_or_right (by decide) x

/-- The words after a step of the walk. -/
theorem getOrCreateTable_words (s : Vmm σ) (table : Nat) (i : Fin 512) (t : Nat) (j : Fin 512) :
    (getOrCreateTable A s table i).2.mem t j = s.mem t j ∨
    (getOrCreateTable A s table i).2.mem t j = 0 ∨
    grants userWrites ((getOrCreateTable A s table i).2.mem t j) = true := by
  unfold getOrCreateTable
  split
  · exact .inl rfl
  · dsimp only
    split
    · split
      all_goals exact .inl rfl
    · unfold allocTable
      dsimp only
      split
      · rename_i he
        cases (Prod.mk.inj he).2
        exact .inl rfl
      · rename_i sub s₁ he
        cases (Prod.mk.inj he).2
        show (if t = virtToPhys table ∧ j = i then _ else _) = _ ∨ (if _ then _ else _) = _ ∨
          grants userWrites (if _ then _ else _) = true
        split
        · exact .inr (.inr (link_grants _))
        · by_cases hsub : t = virtToPhys sub
          · exact .inr (.inl (if_pos hsub))
          · exact .inl (if_neg hsub)

theorem Granting.still {kern : Nat} (h : Granting Low root s) (hstill : Still kern root s s') :
    Granting Low root s' := by
  intro p t j hp hH hat hpres
  have hown : Owned kern root p := .inr fun k hk => hH k (hk.trans (List.prefix_append p [j]))
  rw [hstill.tableAt hown hp] at hat
  rw [hstill p t hown hp hat j] at hpres ⊢
  exact h p t j hp hH hat hpres

theorem Granting.of_mem {τ : Type} {s' : Vmm τ} (h : Granting H root s) (hmem : s'.mem = s.mem) :
    Granting H root s' := by
  intro p t j hp hH hat
  rw [Vmm.tableAt, hmem] at hat
  rw [hmem]
  exact h p t j hp hH hat

/-- A new address space has no entries yet. -/
theorem Granting.of_created {kern : Nat} (h : Created A kern root s s') : Granting Low root s' := by
  intro p t j hp hH hat hpres
  cases p with
  | nil =>
      cases hat
      rw [h.low j (hH j ⟨[], rfl⟩)] at hpres
      exact absurd hpres (by decide)
  | cons i p =>
      have hi : Low i := hH i (List.cons_prefix_cons.mpr ⟨rfl, List.nil_prefix⟩)
      have hnone : child (s'.mem root i) = none := by
        rw [h.low i hi]
        exact child_eq_none_of_not_present (by decide)
      simp only [Vmm.tableAt, nodeAt, hnone] at hat
      cases hat

/-- A walk through the tree, one step. -/
theorem Granting.step (h : Granting H root s) (hok : TreeOk A root s) (hp : p.length ≤ 2)
    (ht : s.tableAt root p = some (virtToPhys table)) (i : Fin 512) :
    Granting H root (getOrCreateTable A s table i).2 := by
  have hcases := getOrCreateTable_cases hok hp ht i
  have hwords := getOrCreateTable_words (A := A) s table i
  revert hcases hwords
  generalize (getOrCreateTable A s table i).2 = s'
  rintro hcases hwords
  rcases hcases with ⟨rfl, -⟩ | ⟨rfl, -⟩ | ⟨ptr, -, -, hlink, -⟩
  · exact h
  · exact h
  · intro q t j hq hH hat hpres
    by_cases hqe : q = p ++ [i]
    · -- the new table is empty
      rw [(hlink.tables q hq).1 hqe] at hat
      cases hat
      rw [hlink.zero j] at hpres
      exact absurd hpres (by decide)
    · rw [(hlink.tables q hq).2 hqe] at hat
      rcases hwords t j with hsame | hzero | hgrants
      · rw [hsame] at hpres ⊢
        exact h q t j hq hH hat hpres
      · rw [hzero] at hpres
        exact absurd hpres (by decide)
      · exact hgrants

theorem Granting.descend (r : List (Fin 512)) :
    ∀ {s : Vmm σ} {p : List (Fin 512)} {table : Nat}, Granting H root s → TreeOk A root s →
      p.length + r.length ≤ 3 → s.tableAt root p = some (virtToPhys table) →
      Granting H root (Arch.descend A s table r).2 := by
  induction r with
  | nil => intro s p table h _ _ _; exact h
  | cons i r ih =>
      intro s p table h hok hlen ht
      rw [List.length_cons] at hlen
      have hone := h.step hok (by omega) ht i
      obtain ⟨hgrown, hres⟩ := getOrCreateTable_spec hok (by omega) ht i
      unfold Arch.descend
      revert hone hgrown hres
      cases getOrCreateTable A s table i with
      | mk res s₁ =>
          intro hone hgrown hres
          obtain ⟨ptr, rfl, hptr⟩ | ⟨rfl, -⟩ := hres
          · exact ih hone hgrown.ok (by simp; omega) hptr
          · exact hone

/-- An entry that grants the rights is written, and no table hung there. -/
theorem Granting.write (h : Granting H root s) (hw : grants userWrites w = true)
    (htables : ∀ q, q.length ≤ 3 → (s.write table i w).tableAt root q = s.tableAt root q) :
    Granting H root (s.write table i w) := by
  intro q t j hq hH hat hpres
  rw [htables q hq] at hat
  rw [write_mem] at hpres ⊢
  split
  · exact hw
  · rename_i hne
    rw [if_neg hne] at hpres
    exact h q t j hq hH hat hpres

/-- The walk and the write of `set_page` and `set_large_page`. -/
theorem granting_of_descend (h : Granting H (virtToPhys pml4) s)
    (hok : TreeOk A (virtToPhys pml4) s) (hp : p.length = 2 ∨ p.length = 3)
    (hw : grants userWrites w = true) (hchild : p.length = 2 → child w = none) :
    Granting H (virtToPhys pml4)
      (match Arch.descend A s pml4 p with
        | (none, s) => ((-1 : Int), s)
        | (some t, s) =>
            if !false && present (s.read t i) then (-1, s) else (0, s.write t i w)).2 := by
  have hroot : s.tableAt (virtToPhys pml4) [] = some (virtToPhys pml4) := rfl
  have hlen : ([] : List (Fin 512)).length + p.length ≤ 3 := by
    rw [List.length_nil]
    omega
  have hwalk := h.descend p hok hlen hroot
  obtain ⟨hgrown, hres⟩ := descend_spec p hok hlen hroot
  revert hwalk hgrown hres
  cases Arch.descend A s pml4 p with
  | mk res s₁ =>
      intro hwalk hgrown hres
      obtain ⟨ptr, rfl, hptr⟩ | ⟨rfl, -⟩ := hres
      · cases hpres : present (s₁.read ptr i) with
        | true =>
            simp only [hpres, Bool.not_false, Bool.and_self, if_true]
            exact hwalk
        | false =>
            simp only [hpres, Bool.and_false, Bool.false_eq_true, if_false]
            exact hwalk.write hw (hgrown.ok.write hp hptr hpres hchild).2.1
      · exact hwalk

/-- **Setting a page for user mode** keeps all entries granting. -/
theorem Granting.unit (h : Granting H (virtToPhys pml4) s) (hok : TreeOk A (virtToPhys pml4) s)
    (hflags : grants userWrites flags = true) (large : Bool) (v x : Nat) :
    Granting H (virtToPhys pml4) (setUnit A pml4 flags large s v x).2 := by
  cases large with
  | true =>
      show Granting H _ (setLargePage A s pml4 v x flags false).2
      unfold setLargePage
      rw [getOrCreatePd_eq]
      split
      · exact h
      · split
        · exact h
        · exact granting_of_descend (p := [pml4Idx v, pdptIdx v]) h hok (.inl rfl)
            (grants_or_left (grants_or_right hflags _) _)
            fun _ => child_eq_none_of_pse (pse_or_ptPse _)
  | false =>
      show Granting H _ (setPage A s pml4 v x flags false).2
      unfold setPage
      rw [getOrCreatePt_eq]
      split
      · exact h
      · split
        · exact h
        · exact granting_of_descend (p := [pml4Idx v, pdptIdx v, pdIdx v]) h hok (.inr rfl)
            (grants_or_right hflags _) fun hlen => absurd hlen (by simp)

/-- **`vmm_map` for user mode.** -/
theorem Granting.map {kernPml4 : Nat} (h : Granting H (virtToPhys (mapRoot kernPml4 pml4)) s)
    (hok : TreeOk A (virtToPhys (mapRoot kernPml4 pml4)) s)
    (hflags : grants userWrites flags = true) (virt phys size : Nat) :
    Granting H (virtToPhys (mapRoot kernPml4 pml4))
      (vmmMap A kernPml4 s pml4 virt phys size flags).2 :=
  (vmmMap_keeps
    (M := fun s => TreeOk A (virtToPhys (mapRoot kernPml4 pml4)) s ∧
      Granting H (virtToPhys (mapRoot kernPml4 pml4)) s) (V := fun _ => True)
    (fun large _ v x _ hs => ⟨(setUnit_touched hs.1 large v x flags).ok,
      hs.2.unit hs.1 hflags large v x⟩) (.inl fun _ => trivial) ⟨hok, h⟩).2

/-- **In granting tables user mode reaches all that is mapped.** -/
theorem Granting.userTranslate (h : Granting H root s) {virt : Nat} (hH : H (pml4Idx virt))
    (hmask : grants mask userWrites = true) :
    s.userTranslate mask root virt = s.translate root virt := by
  unfold Vmm.userTranslate Vmm.translate
  split
  · rw [find_only_of_all]
    intro q j u hpre hu
    have hlen : q.length ≤ 3 := by
      have := hpre.length_le
      rw [List.length_append, List.length_singleton, pathOf] at this
      simp only [List.length_cons, List.length_nil] at this
      omega
    have hslot : ∀ k, [k] <+: q ++ [j] → H k := by
      intro k hk
      have hfirst := hk.trans hpre
      rw [pathOf, List.cons_prefix_cons] at hfirst
      rw [hfirst.1]
      exact hH
    cases hpres : present (s.mem u j) with
    | false =>
        exact .inr ⟨child_eq_none_of_not_present hpres, leaf_eq_none_of_not_present hpres⟩
    | true => exact .inl (grants_mono (h q u j hlen hslot hu hpres) hmask)
  · rfl

end DevOS.Arch
