import DevOS.Arch.VmmTouch

/-!
# Page tables — many trees

The kernel's tree and those of the address spaces share memory. The kernel owns
all tables of its tree; an address space owns its PML4 and the tables of its
low half, and reaches the others through entries it copied from `kern_pml4`
(`Forest`). Whatever touches one tree leaves the own tables of the others.
-/

namespace DevOS.Arch

open DevOS.Lib

variable {σ : Type} {A : TableSource σ} {kern root r c t virt : Nat} {users users' : List Nat}
  {s s' : Vmm σ} {p q : List (Fin 512)} {i k : Fin 512} {H : Fin 512 → Prop}

/-! ## Own tables -/

/-- The slots of the low half. -/
def Low (i : Fin 512) : Prop := i.val < 256

instance (i : Fin 512) : Decidable (Low i) := inferInstanceAs (Decidable (_ < _))

/-- The paths of the tree at `root` that lead to its own tables. -/
def Owned (kern root : Nat) (p : List (Fin 512)) : Prop := root = kern ∨ ∀ i, [i] <+: p → Low i

theorem owned_nil : Owned kern root [] := .inr fun _ h => absurd (List.prefix_nil.mp h) (by simp)

theorem Owned.of_prefix (h : Owned kern root p) (hpre : q <+: p) : Owned kern root q :=
  h.imp id fun hlow i hi => hlow i (hi.trans hpre)

/-- Paths into the low half are own paths. -/
theorem owned_cons (hi : Low i) : Owned kern root (i :: p) :=
  .inr fun a ha => by
    rw [(List.cons_prefix_cons.mp ha).1]
    exact hi

/-- What leads to a word below an own slot is an own path. -/
theorem Owned.of_slot {j : Fin 512} (h : Owned kern root [k]) (hk : [k] <+: p ++ [j]) :
    Owned kern root p := by
  cases p with
  | nil => exact owned_nil
  | cons a p =>
      have hka : k = a := (List.cons_prefix_cons.mp hk).1
      refine h.imp id fun hlow i hi => ?_
      have hia : i = a := (List.cons_prefix_cons.mp hi).1
      rw [hia, ← hka]
      exact hlow k List.prefix_rfl

/-- The path of a low address is its tree's own. -/
theorem owned_pathOf (hvirt : virt < 2 ^ 47) : Owned kern root (pathOf virt) := by
  refine owned_cons ?_
  show virt / 2 ^ 39 % 512 < 256
  omega

/-- The own tables of a tree are as they were. -/
def Still (kern root : Nat) (s s' : Vmm σ) : Prop :=
  ∀ p t, Owned kern root p → p.length ≤ 3 → s.tableAt root p = some t → ∀ j, s'.mem t j = s.mem t j

theorem Still.of_mem (h : s'.mem = s.mem) (r : Nat) : Still kern r s s' := by
  intro p t _ _ _ j
  rw [h]

theorem Still.tableAt (h : Still kern root s s') (hp : Owned kern root p) (hlen : p.length ≤ 3) :
    s'.tableAt root p = s.tableAt root p := by
  refine nodeAt_along fun q j t hpre ht => ?_
  have hle := hpre.length_le
  rw [List.length_append, List.length_singleton] at hle
  have hq := hp.of_prefix ((List.prefix_append q [j]).trans hpre)
  rw [h q t hq (by omega) ht j]

theorem Still.leafAt (h : Still kern root s s') (hp : Owned kern root p) (hlen : p.length ≤ 4) :
    s'.leafAt root p = s.leafAt root p := by
  refine find_along fun q j t hpre ht => ?_
  have hle := hpre.length_le
  rw [List.length_append, List.length_singleton] at hle
  have hq := hp.of_prefix ((List.prefix_append q [j]).trans hpre)
  exact h q t hq (by omega) ht j

/-- Addresses that are translated by own tables are translated as before. -/
theorem Still.translate (h : Still kern root s s') (hp : Owned kern root (pathOf virt)) :
    s'.translate root virt = s.translate root virt := by
  unfold Vmm.translate
  rw [h.leafAt hp (Nat.le_refl 4)]

/-- A well-formed tree, as far as its own tables go. -/
structure OwnOk (A : TableSource σ) (kern root : Nat) (s : Vmm σ) : Prop where
  separate : ∀ p q t, Owned kern root p → Owned kern root q → p.length ≤ 3 → q.length ≤ 3 →
    s.tableAt root p = some t → s.tableAt root q = some t → p = q
  below : ∀ p t, Owned kern root p → 0 < p.length → p.length ≤ 3 → s.tableAt root p = some t →
    t < hhdmLimit
  unavail : ∀ p t, Owned kern root p → p.length ≤ 3 → s.tableAt root p = some t →
    ¬ A.avail s.source t
  pml4 : ∀ i, Owned kern root [i] → present (s.mem root i) = true → pse (s.mem root i) = false

theorem TreeOk.own (h : TreeOk A root s) : OwnOk A kern root s :=
  ⟨fun p q t _ _ hp hq => h.separate p q t hp hq, fun p t _ => h.below p t,
    fun p t _ => h.unavail p t, fun i _ => h.pml4 i⟩

/-- A tree whose own tables are as they were is well formed as before. -/
theorem OwnOk.still (h : OwnOk A kern root s) (hstill : Still kern root s s')
    (havail : ∀ p t, Owned kern root p → p.length ≤ 3 → s.tableAt root p = some t →
      ¬ A.avail s'.source t) : OwnOk A kern root s' := by
  refine ⟨fun p q t hp hq hlp hlq htp htq => ?_, fun p t hp hpos hlp htp => ?_,
    fun p t hp hlp htp => ?_, fun i hi hpres => ?_⟩
  · rw [hstill.tableAt hp hlp] at htp
    rw [hstill.tableAt hq hlq] at htq
    exact h.separate p q t hp hq hlp hlq htp htq
  · rw [hstill.tableAt hp hlp] at htp
    exact h.below p t hp hpos hlp htp
  · rw [hstill.tableAt hp hlp] at htp
    exact havail p t hp hlp htp
  · have hword := hstill [] root owned_nil (by simp) rfl i
    rw [hword] at hpres ⊢
    exact h.pml4 i hi hpres

/-! ## The forest -/

/-- **The trees of the kernel and of the address spaces**: no own table of one
is an own table of another, and what an address space has in its kernel half
is what `kern_pml4` has. -/
structure Forest (A : TableSource σ) (kern : Nat) (users : List Nat) (s : Vmm σ) : Prop where
  own : ∀ r ∈ kern :: users, OwnOk A kern r s
  apart : ∀ r ∈ kern :: users, ∀ r' ∈ kern :: users, ∀ p p' t, Owned kern r p →
    Owned kern r' p' → p.length ≤ 3 → p'.length ≤ 3 → s.tableAt r p = some t →
    s.tableAt r' p' = some t → r = r'
  kern_not_mem : kern ∉ users
  shared : ∀ u ∈ users, ∀ i, ¬ Low i → present (s.mem u i) = true → s.mem u i = s.mem kern i

/-- The kernel's tree alone. -/
theorem Forest.of_kern (h : TreeOk A kern s) : Forest A kern [] s := by
  refine ⟨fun r hr => ?_, fun r hr r' hr' _ _ _ _ _ _ _ _ _ => ?_, by simp, fun u hu => ?_⟩
  · rw [List.mem_singleton.mp hr]
    exact h.own
  · rw [List.mem_singleton.mp hr, List.mem_singleton.mp hr']
  · exact absurd hu (by simp)

/-- Fewer address spaces in the same memory, none of whose tables is handed out
again. -/
theorem Forest.fewer (h : Forest A kern users s) (hmem : s'.mem = s.mem)
    (hsub : ∀ u ∈ users', u ∈ users)
    (havail : ∀ r ∈ kern :: users', ∀ p t, Owned kern r p → p.length ≤ 3 →
      s.tableAt r p = some t → ¬ A.avail s'.source t) : Forest A kern users' s' := by
  have hstill : ∀ r, Still kern r s s' := Still.of_mem hmem
  have htrees : ∀ r ∈ kern :: users', r ∈ kern :: users := List.cons_subset_cons kern hsub
  refine ⟨fun r hr => ?_, fun r hr r' hr' p p' t hp hp' hl hl' ht ht' => ?_,
    fun hk => h.kern_not_mem (hsub _ hk), fun u hu i hi hpres => ?_⟩
  · exact (h.own r (htrees r hr)).still (hstill r) (havail r hr)
  · rw [(hstill r).tableAt hp hl] at ht
    rw [(hstill r').tableAt hp' hl'] at ht'
    exact h.apart r (htrees r hr) r' (htrees r' hr') p p' t hp hp' hl hl' ht ht'
  · rw [hmem] at hpres ⊢
    exact h.shared u (hsub u hu) i hi hpres

/-- Every table of a tree is an own table, of the tree or of the kernel's. -/
theorem Forest.owner (h : Forest A kern users s) (hr : r ∈ kern :: users)
    (ht : s.tableAt r p = some t) :
    ∃ r' ∈ kern :: users, Owned kern r' p ∧ s.tableAt r' p = some t := by
  by_cases hp : Owned kern r p
  · exact ⟨r, hr, hp, ht⟩
  · refine ⟨kern, List.mem_cons_self, .inl rfl, ?_⟩
    have hkern : r ≠ kern := fun he => hp (.inl he)
    have hu : r ∈ users := (List.mem_cons.mp hr).resolve_left hkern
    cases p with
    | nil => exact absurd owned_nil hp
    | cons i p =>
        have hi : ¬ Low i := fun hlow => hp (owned_cons hlow)
        have hpres : present (s.mem r i) = true := by
          cases hpres : present (s.mem r i) with
          | true => rfl
          | false =>
              simp only [Vmm.tableAt, nodeAt, child_eq_none_of_not_present hpres] at ht
              cases ht
        have hword := h.shared r hu i hi hpres
        simp only [Vmm.tableAt, nodeAt, hword] at ht ⊢
        exact ht

/-- **Each tree of a forest is well formed**, shared tables included. -/
theorem Forest.treeOk (h : Forest A kern users s) (hr : r ∈ kern :: users) : TreeOk A r s := by
  refine ⟨fun p q t hp hq htp htq => ?_, fun p t hpos hp ht => ?_, fun p t hp ht => ?_,
    fun i hpres => ?_⟩
  · obtain ⟨r₁, hr₁, ho₁, ht₁⟩ := h.owner hr htp
    obtain ⟨r₂, hr₂, ho₂, ht₂⟩ := h.owner hr htq
    have he := h.apart r₁ hr₁ r₂ hr₂ p q t ho₁ ho₂ hp hq ht₁ ht₂
    subst he
    exact (h.own r₁ hr₁).separate p q t ho₁ ho₂ hp hq ht₁ ht₂
  · obtain ⟨r₁, hr₁, ho₁, ht₁⟩ := h.owner hr ht
    exact (h.own r₁ hr₁).below p t ho₁ hpos hp ht₁
  · obtain ⟨r₁, hr₁, ho₁, ht₁⟩ := h.owner hr ht
    exact (h.own r₁ hr₁).unavail p t ho₁ hp ht₁
  · by_cases hi : Owned kern r [i]
    · exact (h.own r hr).pml4 i hi hpres
    · have hkern : r ≠ kern := fun he => hi (.inl he)
      have hlow : ¬ Low i := fun hlow => hi (owned_cons hlow)
      have hword := h.shared r ((List.mem_cons.mp hr).resolve_left hkern) i hlow hpres
      rw [hword] at hpres ⊢
      exact (h.own kern List.mem_cons_self).pml4 i (.inl rfl) hpres

/-- **One tree changes**: the others keep their own tables, and the changed tree
gets none but pages that were available. -/
theorem Forest.change (h : Forest A kern users s)
    (hstill : ∀ r ∈ kern :: users', r ≠ c → r ∈ kern :: users ∧ Still kern r s s')
    (havail : ∀ t, A.avail s'.source t → A.avail s.source t) (hown : OwnOk A kern c s')
    (hnodes : ∀ p t, Owned kern c p → p.length ≤ 3 → s'.tableAt c p = some t →
      c ∈ kern :: users ∧ s.tableAt c p = some t ∨ A.avail s.source t)
    (hkern : kern ∉ users')
    (hshared : ∀ u ∈ users', ∀ i, ¬ Low i → present (s'.mem u i) = true →
      s'.mem u i = s'.mem kern i) : Forest A kern users' s' := by
  -- an own table of a tree that stayed is none of the changed tree
  have hcross : ∀ r ∈ kern :: users', r ≠ c → ∀ p p' t, Owned kern r p → Owned kern c p' →
      p.length ≤ 3 → p'.length ≤ 3 → s'.tableAt r p = some t → s'.tableAt c p' = some t →
      False := by
    intro r hr hne p p' t hp hp' hlp hlp' htp htp'
    obtain ⟨hr', hs⟩ := hstill r hr hne
    rw [hs.tableAt hp hlp] at htp
    obtain ⟨hc, htc⟩ | hav := hnodes p' t hp' hlp' htp'
    · exact hne (h.apart r hr' c hc p p' t hp hp' hlp hlp' htp htc)
    · exact (h.own r hr').unavail p t hp hlp htp hav
  refine ⟨fun r hr => ?_, fun r hr r' hr' p p' t hp hp' hlp hlp' htp htp' => ?_, hkern, hshared⟩
  · by_cases hc : r = c
    · rw [hc]
      exact hown
    · obtain ⟨hr', hs⟩ := hstill r hr hc
      exact (h.own r hr').still hs fun p t hp hlp ht hav =>
        (h.own r hr').unavail p t hp hlp ht (havail t hav)
  · by_cases hc : r = c <;> by_cases hc' : r' = c
    · rw [hc, hc']
    · subst hc
      exact (hcross r' hr' hc' p' p t hp' hp hlp' hlp htp' htp).elim
    · subst hc'
      exact (hcross r hr hc p p' t hp hp' hlp hlp' htp htp').elim
    · obtain ⟨hr₁, hs⟩ := hstill r hr hc
      obtain ⟨hr₂, hs'⟩ := hstill r' hr' hc'
      rw [hs.tableAt hp hlp] at htp
      rw [hs'.tableAt hp' hlp'] at htp'
      exact h.apart r hr₁ r' hr₂ p p' t hp hp' hlp hlp' htp htp'

/-! ## Mapping -/

/-- **Touching one tree** below its own slots leaves the own tables of the
others. -/
theorem Forest.still (h : Forest A kern users s) (hc : c ∈ kern :: users)
    (hH : ∀ k, H k → Owned kern c [k]) (ht : Touched A c H s s') (hr : r ∈ kern :: users)
    (hne : r ≠ c) : Still kern r s s' := by
  intro p t hp hlp htp j
  obtain he | hav | ⟨q, k, hq, htq, hk, hpre⟩ := ht.words t j
  · exact he
  · exact absurd hav ((h.own r hr).unavail p t hp hlp htp)
  · exact absurd (h.apart r hr c hc p q t hp ((hH k hk).of_slot hpre) hlp hq htp htq) hne

/-- An address space's entries for the kernel half are never written to. -/
theorem Forest.upper_kept (h : Forest A kern users s) (hc : c ∈ kern :: users)
    (hH : ∀ k, H k → Owned kern c [k]) (ht : Touched A c H s s') {u : Nat} (hu : u ∈ users)
    (hi : ¬ Low i) : s'.mem u i = s.mem u i := by
  have hu' : u ∈ kern :: users := List.mem_cons_of_mem _ hu
  by_cases hne : u = c
  · subst hne
    have hkern : u ≠ kern := fun he => h.kern_not_mem (he ▸ hu)
    obtain he | hav | ⟨q, k, hq, htq, hk, hpre⟩ := ht.words u i
    · exact he
    · exact absurd hav ((h.own u hu').unavail [] u owned_nil (by simp) rfl)
    · -- the PML4 itself, at a slot that is its own
      have hnil : q = [] := (h.own u hu').separate q [] u ((hH k hk).of_slot hpre) owned_nil hq
        (by simp) htq rfl
      subst hnil
      have hki : k = i := (List.cons_prefix_cons.mp hpre).1
      exact absurd ((hH k hk).resolve_left hkern k List.prefix_rfl) (hki ▸ hi)
  · exact h.still hc hH ht hu' hne [] u owned_nil (by simp) rfl i

/-- **A mapping keeps the forest.** -/
theorem Forest.touched (h : Forest A kern users s) (hc : c ∈ kern :: users)
    (hH : ∀ k, H k → Owned kern c [k]) (ht : Touched A c H s s') : Forest A kern users s' := by
  refine h.change (fun r hr hne => ⟨hr, h.still hc hH ht hr hne⟩) (fun t => ht.drawn.avail)
    ht.ok.own (fun p t _ hlp htp => (ht.nodes p t hlp htp).imp (fun htp => ⟨hc, htp⟩) id)
    h.kern_not_mem fun u hu i hi hpres => ?_
  rw [h.upper_kept hc hH ht hu hi] at hpres ⊢
  have hword := h.shared u hu i hi hpres
  by_cases hkern : c = kern
  · -- the entry was there when it was copied, so it has stayed
    subst hkern
    rw [ht.kept i (hword ▸ hpres)]
    exact hword
  · rw [h.still hc hH ht List.mem_cons_self (Ne.symm hkern) [] kern owned_nil (by simp) rfl i]
    exact hword

/-! ## Creating an address space -/

/-- Copying entries from one table to another. -/
theorem copyEntries_mem {src dst : Nat} (hne : virtToPhys src ≠ virtToPhys dst)
    (l : List (Fin 512)) : ∀ (s : Vmm σ) (t : Nat) (j : Fin 512),
    (l.foldl (fun s i => s.write dst i (s.read src i)) s).mem t j =
      if t = virtToPhys dst ∧ j ∈ l then s.mem (virtToPhys src) j else s.mem t j := by
  induction l with
  | nil => intro s t j; simp
  | cons i l ih =>
      intro s t j
      have hsrc : (s.write dst i (s.read src i)).mem (virtToPhys src) j =
          s.mem (virtToPhys src) j := if_neg fun hc => hne hc.1
      rw [List.foldl_cons, ih, hsrc]
      by_cases hd : t = virtToPhys dst
      · by_cases hj : j ∈ l
        · rw [if_pos ⟨hd, hj⟩, if_pos ⟨hd, List.mem_cons_of_mem i hj⟩]
        · rw [if_neg fun hc => hj hc.2]
          by_cases hji : j = i
          · rw [if_pos ⟨hd, hji ▸ List.mem_cons_self⟩, hji]
            exact if_pos ⟨hd, rfl⟩
          · rw [if_neg fun hc => (List.mem_cons.mp hc.2).elim hji hj]
            exact if_neg fun hc => hji hc.2
      · rw [if_neg fun hc => hd hc.1, if_neg fun hc => hd hc.1]
        exact if_neg fun hc => hd hc.1

/-- What `vmm_create_user_pml4` makes: a page that nobody used is a PML4 with
an empty low half and the kernel half of `kern_pml4`. -/
structure Created (A : TableSource σ) (kern u : Nat) (s s' : Vmm σ) : Prop where
  avail : A.avail s.source u
  gone : ¬ A.avail s'.source u
  drawn : s'.source = (A.alloc s.source).2
  mode : s'.mode = s.mode
  low : ∀ i, Low i → s'.mem u i = 0
  upper : ∀ i, ¬ Low i → s'.mem u i = s.mem kern i
  other : ∀ t i, t ≠ u → s'.mem t i = s.mem t i

theorem vmmCreateUserPml4_spec {kernPml4 pml4 : Nat}
    (hkern : ¬ A.avail s.source (virtToPhys kernPml4))
    (h : vmmCreateUserPml4 A kernPml4 s = (some pml4, s')) :
    Created A (virtToPhys kernPml4) (virtToPhys pml4) s s' := by
  unfold vmmCreateUserPml4 allocTable at h
  cases halloc : A.alloc s.source with
  | mk res source =>
      rw [halloc] at h
      cases res with
      | none => cases h
      | some ptr =>
          cases h
          obtain ⟨hav, hgone⟩ := A.alloc_avail _ _ _ halloc
          have hne : virtToPhys kernPml4 ≠ virtToPhys pml4 := fun he => hkern (he ▸ hav)
          have hkeep : ∀ (l : List (Fin 512)) (s : Vmm σ),
              (l.foldl (fun s i => s.write pml4 i (s.read kernPml4 i)) s).source = s.source ∧
              (l.foldl (fun s i => s.write pml4 i (s.read kernPml4 i)) s).mode = s.mode := by
            intro l
            induction l with
            | nil => intro s; exact ⟨rfl, rfl⟩
            | cons i l ih => intro s; exact ih _
          have hmem : ∀ i, i ∈ upperEntries ↔ ¬ Low i := by
            intro i
            simp [upperEntries, Low]
          refine ⟨hav, ?_, ?_, ?_, fun i hi => ?_, fun i hi => ?_, fun t i ht => ?_⟩
          · rw [(hkeep _ _).1]
            exact hgone
          · rw [(hkeep _ _).1, halloc]
            rfl
          · rw [(hkeep _ _).2]
            rfl
          · rw [copyEntries_mem hne, if_neg fun hc => (hmem i).mp hc.2 hi]
            exact if_pos rfl
          · rw [copyEntries_mem hne, if_pos ⟨rfl, (hmem i).mpr hi⟩]
            exact if_neg hne
          · rw [copyEntries_mem hne, if_neg fun hc => ht hc.1]
            exact if_neg ht

section Created

variable {u : Nat} (hu : Created A kern u s s')

include hu

theorem Created.source_avail (hav : A.avail s'.source t) : A.avail s.source t := by
  rw [hu.drawn] at hav
  exact A.avail_of_alloc _ _ hav

theorem Created.not_mem (h : Forest A kern users s) : u ∉ kern :: users := fun hmem =>
  (h.own u hmem).unavail [] u owned_nil (by simp) rfl hu.avail

/-- The trees that were there keep their own tables. -/
theorem Created.still (h : Forest A kern users s) (hr : r ∈ kern :: users) : Still kern r s s' := by
  intro p t hp hlp ht j
  refine hu.other t j ?_
  rintro rfl
  exact (h.own r hr).unavail p t hp hlp ht hu.avail

/-- The new tree has no own table but its PML4. -/
theorem Created.tableAt (hne : u ≠ kern) (hp : Owned kern u p) (ht : s'.tableAt u p = some t) :
    p = [] ∧ t = u := by
  cases p with
  | nil => exact ⟨rfl, (Option.some.inj ht).symm⟩
  | cons i p =>
      have hlow := hp.resolve_left hne i (List.cons_prefix_cons.mpr ⟨rfl, List.nil_prefix⟩)
      have hnone : child (s'.mem u i) = none := by
        rw [hu.low i hlow]
        decide
      simp only [Vmm.tableAt, nodeAt, hnone] at ht
      cases ht

/-- **A new address space joins the forest.** -/
theorem Created.forest (h : Forest A kern users s) : Forest A kern (u :: users) s' := by
  have hnot := hu.not_mem h
  have hne : u ≠ kern := fun he => hnot (he ▸ List.mem_cons_self)
  have hold : ∀ r ∈ kern :: u :: users, r ≠ u → r ∈ kern :: users := by
    intro r hr hru
    simp only [List.mem_cons] at hr ⊢
    exact hr.imp id fun hr => hr.resolve_left hru
  have hown : OwnOk A kern u s' := by
    refine ⟨fun p q t hp hq _ _ htp htq => ?_, fun p t hp hpos _ ht => ?_,
      fun p t hp _ ht => ?_, fun i hi hpres => ?_⟩
    · rw [(hu.tableAt hne hp htp).1, (hu.tableAt hne hq htq).1]
    · rw [(hu.tableAt hne hp ht).1] at hpos
      exact absurd hpos (Nat.lt_irrefl 0)
    · rw [(hu.tableAt hne hp ht).2]
      exact hu.gone
    · rw [hu.low i (hi.resolve_left hne i List.prefix_rfl)] at hpres
      exact absurd hpres (by decide)
  refine h.change (c := u) (fun r hr hru => ⟨hold r hr hru, hu.still h (hold r hr hru)⟩)
    (fun t => hu.source_avail) hown (fun p t hp _ ht => ?_) (fun hmem => ?_)
    fun v hv i hi hpres => ?_
  · rw [(hu.tableAt hne hp ht).2]
    exact .inr hu.avail
  · obtain he | hmem := List.mem_cons.mp hmem
    · exact hne he.symm
    · exact h.kern_not_mem hmem
  · have hk : s'.mem kern i = s.mem kern i := hu.other kern i (Ne.symm hne)
    by_cases hvu : v = u
    · rw [hvu, hu.upper i hi, hk]
    · rw [hu.other v i hvu] at hpres ⊢
      rw [hk]
      exact h.shared v ((List.mem_cons.mp hv).resolve_left hvu) i hi hpres

end Created

end DevOS.Arch
