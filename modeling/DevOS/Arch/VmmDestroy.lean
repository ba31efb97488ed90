import DevOS.Arch.VmmForest

/-!
# Address spaces — what is freed

`vmm_destroy_user_pml4` frees the pages that the low half of an address space
maps, the tables that map them and the PML4. It writes to no table.
-/

namespace DevOS.Arch

open DevOS.Lib

variable {σ : Type} {P : PagePool σ} {kern u t f virt : Nat} {s s₀ s' : Vmm σ}
  {p : List (Fin 512)} {i j k l : Fin 512} {e : Word}

/-! ## Frames -/

/-- An address space maps a frame at a low address. -/
def MapsFrame (s : Vmm σ) (root f : Nat) : Prop :=
  ∃ virt, virt < 2 ^ 47 ∧ ∃ tr, s.translate root virt = some tr ∧ tr.phys / pageSize = f

/-- A frame holds an own table of a tree. -/
def TableFrame (kern root : Nat) (s : Vmm σ) (f : Nat) : Prop :=
  ∃ p t, Owned kern root p ∧ p.length ≤ 3 ∧ s.tableAt root p = some t ∧ t / pageSize = f

theorem hhdmToPage_physToVirt {x : Nat} (hx : x < 2 ^ 64) :
    hhdmToPage (physToVirt .ready x) = x / pageSize := by
  have hb : hhdmBase = 0xFFFF888000000000 := rfl
  have hback : ((x + hhdmBase) % 2 ^ 64 + 2 ^ 64 - hhdmBase) % 2 ^ 64 = x := by omega
  simp only [hhdmToPage, physToVirt, hback]

theorem addrOf_lt (e : Word) : addrOf e < 2 ^ 63 := by
  have hlt : e &&& ~~~flagsMask ≤ ~~~flagsMask := by
    rw [BitVec.le_def, BitVec.toNat_and]
    exact Nat.and_le_right
  exact Nat.lt_of_le_of_lt (BitVec.le_def.mp hlt) (by decide)

/-- The address of a 2 MiB leaf, when no bit below it is set. -/
theorem large_addr (h : addrOf e % 0x200000 = 0) : (e &&& ~~~largeFlagsMask).toNat = addrOf e := by
  have hmask : ~~~flagsMask &&& ~~~largeFlagsMask = ~~~largeFlagsMask := by decide
  have hx := large_and_largeFlagsMask (Nat.dvd_of_mod_eq_zero h) (addrOf_lt e)
  have hself : BitVec.ofNat 64 (addrOf e) = e &&& ~~~flagsMask := BitVec.ofNat_toNat ..
  rw [hself] at hx
  have hkeep := and_not_of_disjoint hx
  rw [BitVec.and_assoc, hmask] at hkeep
  rw [hkeep, addrOf]

/-- An entry that links an own table below the PML4. -/
theorem OwnOk.entry {A : TableSource σ} (hown : OwnOk A kern u s) (hp : Owned kern u (p ++ [i]))
    (hlen : p.length ≤ 2) (ht : s.tableAt u p = some t) (hpres : present (s.mem t i) = true)
    (hpse : pse (s.mem t i) = false) :
    s.tableAt u (p ++ [i]) = some (addrOf (s.mem t i)) ∧
    virtToPhys (physToVirt s.mode (addrOf (s.mem t i))) = addrOf (s.mem t i) ∧
    hhdmToPage (physToVirt .ready (addrOf (s.mem t i))) = addrOf (s.mem t i) / pageSize := by
  have hchild : s.tableAt u (p ++ [i]) = some (addrOf (s.mem t i)) := by
    rw [tableAt_concat ht, child, hpres, hpse]
    rfl
  have hlen' : (p ++ [i]).length ≤ 3 := by
    rw [List.length_append, List.length_singleton]
    omega
  have hlim := hown.below (p ++ [i]) _ hp (by simp) hlen' hchild
  exact ⟨hchild, virtToPhys_physToVirt s.mode (pageSize_dvd_addrOf _) hlim,
    hhdmToPage_physToVirt (Nat.lt_trans (addrOf_lt _) (by decide))⟩

/-- Every path into the low half is the path of an address. -/
theorem exists_pathOf (hi : Low i) (j k l : Fin 512) :
    ∃ virt, virt < 2 ^ 47 ∧ pathOf virt = [i, j, k, l] ∧ virt % 2 ^ 12 = 0 ∧
      (l = 0 → virt % 2 ^ 21 = 0) := by
  have hi' : i.val < 256 := hi
  have hj := j.isLt
  have hk := k.isLt
  have hl := l.isLt
  refine ⟨i.val * 2 ^ 39 + j.val * 2 ^ 30 + k.val * 2 ^ 21 + l.val * 2 ^ 12, by omega, ?_,
    by omega, fun h0 => ?_⟩
  · simp only [pathOf, pml4Idx, pdptIdx, pdIdx, ptIdx, List.cons.injEq, Fin.ext_iff, Fin.val_ofNat,
      and_true]
    omega
  · rw [h0]
    show (i.val * 2 ^ 39 + j.val * 2 ^ 30 + k.val * 2 ^ 21 + 0 * 2 ^ 12) % 2 ^ 21 = 0
    omega

theorem MapsFrame.of_leaf (hi : Low i) {n : Nat}
    (hleaf : s.leafAt u [i, j, k, l] = some (n, e))
    (hphys : ∀ virt, virt % 2 ^ 12 = 0 → (l = 0 → virt % 2 ^ 21 = 0) →
      (leafTranslation virt (n, e)).phys / pageSize = f) : MapsFrame s u f := by
  obtain ⟨virt, hvirt, hpath, hsmall, hlarge⟩ := exists_pathOf hi j k l
  refine ⟨virt, hvirt, leafTranslation virt (n, e), ?_, hphys virt hsmall hlarge⟩
  rw [Vmm.translate, if_pos (.inl hvirt), hpath, hleaf]
  rfl

/-- The frame of a present entry of a page table is mapped. -/
theorem mapsFrame_page (hi : Low i) (ht : s.tableAt u [i, j, k] = some t)
    (hpres : present (s.mem t l) = true) : MapsFrame s u (addrOf (s.mem t l) / pageSize) := by
  have hleaf : s.leafAt u ([i, j, k] ++ [l]) = some (0, s.mem t l) := by
    rw [Vmm.leafAt, find_append leaf_succ_eq_none_of_child (List.cons_ne_nil _ _) ht]
    simp [find, leaf, hpres]
  refine MapsFrame.of_leaf hi hleaf fun virt hsmall _ => ?_
  simp only [leafTranslation, hsmall, Nat.add_zero]

/-- The frame of a 2 MiB entry of a page directory is mapped. -/
theorem mapsFrame_large (hi : Low i) (ht : s.tableAt u [i, j] = some t)
    (hpres : present (s.mem t k) = true) (hpse : pse (s.mem t k) = true)
    (haddr : addrOf (s.mem t k) % 0x200000 = 0) :
    MapsFrame s u (addrOf (s.mem t k) / pageSize) := by
  have hleaf : s.leafAt u ([i, j] ++ [k, 0]) = some (1, s.mem t k) := by
    rw [Vmm.leafAt, find_append leaf_succ_eq_none_of_child (List.cons_ne_nil _ _) ht]
    simp [find, leaf, hpres, hpse]
  refine MapsFrame.of_leaf hi hleaf fun virt _ hlarge => ?_
  simp only [leafTranslation, hlarge rfl, Nat.add_zero, large_addr haddr]

/-! ## Freeing -/

/-- From `s₀` on, blocks at frames in `F` were freed and nothing else was
done. -/
structure FreedOnly (P : PagePool σ) (F : Nat → Prop) (s₀ s : Vmm σ) : Prop where
  mem : s.mem = s₀.mem
  mode : s.mode = s₀.mode
  blocks : ∀ p, P.blocks s.source p = P.blocks s₀.source p ∨ F p

theorem FreedOnly.refl {F : Nat → Prop} (s : Vmm σ) : FreedOnly P F s s :=
  ⟨rfl, rfl, fun _ => .inl rfl⟩

theorem FreedOnly.freeAt {F : Nat → Prop} {addr : Nat} (h : FreedOnly P F s₀ s)
    (hF : F (hhdmToPage addr)) : FreedOnly P F s₀ (freeAt P s addr) := by
  refine ⟨h.mem, h.mode, fun p => ?_⟩
  by_cases hp : p = hhdmToPage addr
  · exact .inr (hp ▸ hF)
  · refine (h.blocks p).imp (fun hb => ?_) id
    rw [Arch.freeAt, P.free_blocks, Function.update_of_ne hp]
    exact hb

/-- **One loop of the teardown** frees what its body frees and the table. -/
theorem destroyTable_freed {F : Nat → Prop} {entries : List (Fin 512)} {table : Nat}
    {body : Vmm σ → Word → Except String (Vmm σ)}
    (hbody : ∀ i ∈ entries, present (s₀.read table i) = true → ∀ s s', FreedOnly P F s₀ s →
      body s (s₀.read table i) = .ok s' → FreedOnly P F s₀ s')
    (htable : F (hhdmToPage table)) (h : FreedOnly P F s₀ s)
    (hok : destroyTable P entries body s table = .ok s') : FreedOnly P F s₀ s' := by
  unfold destroyTable at hok
  split at hok
  · cases hok
  · rename_i s₁ hloop
    cases hok
    refine FreedOnly.freeAt ?_ htable
    refine Guarded.invariant (I := FreedOnly P F s₀)
      (fun s i s' hs (hi : i ∈ entries) hstep => ?_) h (Guarded.of_forall s fun i hi _ => hi) hloop
    have hread : s.read table i = s₀.read table i := by rw [Vmm.read, hs.mem, Vmm.read]
    rw [hread] at hstep
    split at hstep
    · exact hbody i hi ‹_› s s' hs hstep
    · cases hstep
      exact hs

/-- The frames that the teardown of an address space may free. -/
def Freed (kern u : Nat) (s : Vmm σ) (f : Nat) : Prop := TableFrame kern u s f ∨ MapsFrame s u f

section Teardown

variable (hmode : s₀.mode = .ready)

include hmode

theorem destroyPt_freed (hi : Low i) {pt : Nat}
    (ht : s₀.tableAt u [i, j, k] = some (virtToPhys pt)) (hpt : Freed kern u s₀ (hhdmToPage pt))
    (h : FreedOnly P (Freed kern u s₀) s₀ s) (hok : destroyPt P s pt = .ok s') :
    FreedOnly P (Freed kern u s₀) s₀ s' := by
  refine destroyTable_freed (fun l _ hpres s s' hs hstep => ?_) hpt h hok
  cases hstep
  refine hs.freeAt (.inr ?_)
  rw [hs.mode, hmode, hhdmToPage_physToVirt (Nat.lt_trans (addrOf_lt _) (by decide))]
  exact mapsFrame_page hi ht hpres

variable (hown : OwnOk P.tables kern u s₀)

include hown

/-- A pointer to an own table below the PML4. -/
theorem OwnOk.pointer (hp : Owned kern u (p ++ [i])) (hlen : p.length ≤ 2)
    (ht : s₀.tableAt u p = some t) (hpres : present (s₀.mem t i) = true)
    (hpse : pse (s₀.mem t i) = false) :
    s₀.tableAt u (p ++ [i]) = some (addrOf (s₀.mem t i)) ∧
    virtToPhys (physToVirt s₀.mode (addrOf (s₀.mem t i))) = addrOf (s₀.mem t i) ∧
    Freed kern u s₀ (hhdmToPage (physToVirt s₀.mode (addrOf (s₀.mem t i)))) := by
  obtain ⟨hchild, hback, hpage⟩ := hown.entry hp hlen ht hpres hpse
  have hlen' : (p ++ [i]).length ≤ 3 := by
    rw [List.length_append, List.length_singleton]
    omega
  refine ⟨hchild, hback, .inl ⟨p ++ [i], _, hp, hlen', hchild, ?_⟩⟩
  rw [hmode, hpage]

theorem destroyPd_freed (hi : Low i) {pd : Nat}
    (ht : s₀.tableAt u [i, j] = some (virtToPhys pd)) (hpd : Freed kern u s₀ (hhdmToPage pd))
    (h : FreedOnly P (Freed kern u s₀) s₀ s) (hok : destroyPd P s pd = .ok s') :
    FreedOnly P (Freed kern u s₀) s₀ s' := by
  refine destroyTable_freed (fun k _ hpres s s' hs hstep => ?_) hpd h hok
  dsimp only at hstep
  rw [hs.mode] at hstep
  split at hstep
  · -- a large page: it is freed if its address is a multiple of 2 MiB
    rename_i hpse
    split at hstep
    · cases hstep
    · rename_i haddr
      cases hstep
      refine hs.freeAt (.inr ?_)
      have hlt := addrOf_lt (s₀.mem (virtToPhys pd) k)
      have haligned : addrOf (s₀.mem (virtToPhys pd) k) % 0x200000 = 0 := by
        have hb : hhdmBase = 0xFFFF888000000000 := rfl
        rw [hmode] at haddr
        simp only [physToVirt, Vmm.read] at haddr
        omega
      rw [hmode, hhdmToPage_physToVirt (Nat.lt_trans (addrOf_lt _) (by decide))]
      exact mapsFrame_large hi ht hpres hpse haligned
  · rename_i hpse
    have hpse' := Bool.eq_false_iff.mpr hpse
    obtain ⟨hpt, hback, hfreed⟩ := hown.pointer hmode (owned_cons hi) (by simp) ht hpres hpse'
    rw [← hback] at hpt
    exact destroyPt_freed hmode hi hpt hfreed hs hstep

theorem destroyPdpt_freed (hi : Low i) {pdpt : Nat}
    (hplain : ∀ j, present (s₀.mem (virtToPhys pdpt) j) = true →
      pse (s₀.mem (virtToPhys pdpt) j) = false)
    (ht : s₀.tableAt u [i] = some (virtToPhys pdpt)) (hpdpt : Freed kern u s₀ (hhdmToPage pdpt))
    (h : FreedOnly P (Freed kern u s₀) s₀ s) (hok : destroyPdpt P s pdpt = .ok s') :
    FreedOnly P (Freed kern u s₀) s₀ s' := by
  refine destroyTable_freed (fun j _ hpres s s' hs hstep => ?_) hpdpt h hok
  rw [hs.mode] at hstep
  obtain ⟨hpd, hback, hfreed⟩ :=
    hown.pointer hmode (owned_cons hi) (by simp) ht hpres (hplain j hpres)
  rw [← hback] at hpd
  exact destroyPd_freed hmode hown hi hpd hfreed hs hstep

end Teardown

/-- No 1 GiB leaf stands in a PDPT of the low half. -/
def NoHuge (root : Nat) (s : Vmm σ) : Prop :=
  ∀ i t j, Low i → s.tableAt root [i] = some t → present (s.mem t j) = true →
    pse (s.mem t j) = false

/-- **`vmm_destroy_user_pml4`** frees own tables of the address space and frames
that it maps, and writes to no table. -/
theorem vmmDestroyUserPml4_freed {kernPml4 cr3 cr3' pml4 : Nat} {code : Int}
    (hmode : s.mode = .ready) (hown : OwnOk P.tables kern (virtToPhys pml4) s)
    (hhuge : NoHuge (virtToPhys pml4) s) (hpml4 : hhdmToPage pml4 = virtToPhys pml4 / pageSize)
    (hok : vmmDestroyUserPml4 P kernPml4 s cr3 pml4 = .ok (code, cr3', s')) :
    FreedOnly P (Freed kern (virtToPhys pml4) s) s s' := by
  have hroot : Freed kern (virtToPhys pml4) s (hhdmToPage pml4) :=
    .inl ⟨[], virtToPhys pml4, owned_nil, by simp, rfl, hpml4.symm⟩
  unfold vmmDestroyUserPml4 at hok
  split at hok
  · cases hok
    exact FreedOnly.refl s
  · dsimp only at hok
    split at hok
    · cases hok
    · rename_i s₁ hloop
      cases hok
      refine destroyTable_freed (fun i hi hpres s₁ s₂ hs hstep => ?_) hroot (FreedOnly.refl s) hloop
      have hlow : Low i := by simpa [lowerEntries, Low] using hi
      rw [hs.mode] at hstep
      obtain ⟨hpdpt, hback, hfreed⟩ := hown.pointer (p := []) hmode (owned_cons hlow) (by simp)
        rfl hpres (hown.pml4 i (owned_cons hlow) hpres)
      rw [← hback] at hpdpt
      exact destroyPdpt_freed hmode hown hlow (fun j => hhuge i _ j hlow hpdpt) hpdpt hfreed hs
        hstep

end DevOS.Arch
