import DevOS.Arch.VmmMap
import DevOS.Arch.VmmUser

/-!
# Page tables — what a mapping touches

`vmm_map` on one tree writes to words of that tree below some of its top-level
slots and to pages that were available, and to nothing else (`Touched`). This
holds for any physical range and any flags: what the leaves say plays no part.
-/

namespace DevOS.Arch

open DevOS.Lib

variable {σ : Type} {A : TableSource σ} {root table pml4 virt phys size : Nat}
  {s s' s'' : Vmm σ} {p : List (Fin 512)} {i k : Fin 512} {w flags : Word} {H H' : Fin 512 → Prop}

/-- A table source after some allocations. -/
def Drawn (A : TableSource σ) : σ → σ → Prop :=
  Relation.ReflTransGen fun a b => b = (A.alloc a).2

theorem Drawn.avail {a b : σ} (h : Drawn A a b) {t : Nat} (hav : A.avail b t) : A.avail a t := by
  induction h with
  | refl => exact hav
  | tail _ hlast ih =>
      subst hlast
      exact ih (A.avail_of_alloc _ _ hav)

section Walk

variable {M : Vmm σ → Prop} (hwrite : ∀ s t i w, M s → M (s.write t i w))
  (hclear : ∀ s t, M s → M (s.clear t)) (halloc : ∀ s, M s → M (allocTable A s).2)

include hwrite hclear halloc

/-- A walk keeps what its writes and allocations keep. -/
theorem getOrCreateTable_keeps (h : M s) (table : Nat) (i : Fin 512) :
    M (getOrCreateTable A s table i).2 := by
  unfold getOrCreateTable
  split
  · exact h
  · dsimp only
    split
    · split
      · exact h
      · exact h
    · have hnext := halloc s h
      cases hptr : allocTable A s with
      | mk ptr s' =>
          rw [hptr] at hnext
          cases ptr with
          | none => exact hnext
          | some sub => exact hwrite _ table i _ (hclear _ sub hnext)

theorem descend_keeps (r : List (Fin 512)) : ∀ {s : Vmm σ} (table : Nat), M s →
    M (descend A s table r).2 := by
  induction r with
  | nil => exact fun _ h => h
  | cons i r ih =>
      intro s table h
      have hfirst := getOrCreateTable_keeps hwrite hclear halloc h table i
      rw [descend]
      cases hget : getOrCreateTable A s table i with
      | mk ptr s' =>
          rw [hget] at hfirst
          cases ptr with
          | none => exact hfirst
          | some sub => exact ih sub hfirst

/-- Setting a page keeps what its writes and allocations keep. -/
theorem setUnit_keeps (h : M s) (pml4 v x : Nat) (flags : Word) (large : Bool) :
    M (setUnit A pml4 flags large s v x).2 := by
  have hwalk := fun r => descend_keeps hwrite hclear halloc r pml4 h
  cases large with
  | false =>
      rw [setUnit, if_neg Bool.false_ne_true, setPage, getOrCreatePt_eq]
      have hpt := hwalk [pml4Idx v, pdptIdx v, pdIdx v]
      split
      · exact h
      · split
        · exact h
        · split
          · rename_i hd
            rw [hd] at hpt
            exact hpt
          · rename_i hd
            rw [hd] at hpt
            split
            · exact hpt
            · exact hwrite _ _ _ _ hpt
  | true =>
      rw [setUnit, if_pos rfl, setLargePage, getOrCreatePd_eq]
      have hpd := hwalk [pml4Idx v, pdptIdx v]
      split
      · exact h
      · split
        · exact h
        · split
          · rename_i hd
            rw [hd] at hpd
            exact hpd
          · rename_i hd
            rw [hd] at hpd
            split
            · exact hpd
            · exact hwrite _ _ _ _ hpd

end Walk

/-- Setting a page draws on the table source and uses it in no other way. -/
theorem setUnit_drawn (s : Vmm σ) (pml4 v x : Nat) (flags : Word) (large : Bool) :
    Drawn A s.source (setUnit A pml4 flags large s v x).2.source :=
  setUnit_keeps (M := fun t => Drawn A s.source t.source) (fun _ _ _ _ h => h)
    (fun _ _ h => h) (fun _ h => h.tail rfl) .refl pml4 v x flags large

/-- From `s` to `s'`, the tree at `root` was changed below the slots `H` of its
PML4 and otherwise only pages that were available were written to. Present
entries of the PML4 are kept, and no large leaf has appeared in the PML4 or in
a PDPT. -/
structure Touched (A : TableSource σ) (root : Nat) (H : Fin 512 → Prop) (s s' : Vmm σ) :
    Prop where
  ok : TreeOk A root s'
  mode : s'.mode = s.mode
  drawn : Drawn A s.source s'.source
  nodes : ∀ p t, p.length ≤ 3 → s'.tableAt root p = some t →
    s.tableAt root p = some t ∨ A.avail s.source t
  words : ∀ t j, s'.mem t j = s.mem t j ∨ A.avail s.source t ∨
    ∃ p k, p.length ≤ 3 ∧ s.tableAt root p = some t ∧ H k ∧ [k] <+: p ++ [j]
  kept : ∀ j, present (s.mem root j) = true → s'.mem root j = s.mem root j
  upper : ∀ p t j, p.length ≤ 1 → s'.tableAt root p = some t → present (s'.mem t j) = true →
    pse (s'.mem t j) = true → s.tableAt root p = some t ∧ s'.mem t j = s.mem t j

theorem Touched.refl (h : TreeOk A root s) : Touched A root H s s :=
  ⟨h, rfl, .refl, fun _ _ _ ht => .inl ht, fun _ _ => .inl rfl, fun _ _ => rfl,
    fun _ _ _ _ ht _ _ => ⟨ht, rfl⟩⟩

theorem Touched.mono (h : Touched A root H s s') (hH : ∀ k, H k → H' k) :
    Touched A root H' s s' := by
  refine ⟨h.ok, h.mode, h.drawn, h.nodes, fun t j => ?_, h.kept, h.upper⟩
  obtain he | hav | ⟨p, k, hp, ht, hk, hpre⟩ := h.words t j
  · exact .inl he
  · exact .inr (.inl hav)
  · exact .inr (.inr ⟨p, k, hp, ht, hH k hk, hpre⟩)

theorem Touched.trans (h : Touched A root H s s') (h' : Touched A root H s' s'') :
    Touched A root H s s'' := by
  refine ⟨h'.ok, h'.mode.trans h.mode, h.drawn.trans h'.drawn, fun p t hp ht => ?_,
    fun t j => ?_, fun j hj => ?_, fun p t j hp ht hpres hpse => ?_⟩
  · obtain ht' | hav := h'.nodes p t hp ht
    · exact h.nodes p t hp ht'
    · exact .inr (h.drawn.avail hav)
  · obtain he | hav | ⟨p, k, hp, ht, hk, hpre⟩ := h'.words t j
    · rw [he]
      exact h.words t j
    · exact .inr (.inl (h.drawn.avail hav))
    · -- a table of the tree in between was one before or is a page drawn since
      obtain ht' | hav := h.nodes p t hp ht
      · exact .inr (.inr ⟨p, k, hp, ht', hk, hpre⟩)
      · exact .inr (.inl hav)
  · have he := h.kept j hj
    rw [h'.kept j (by rw [he]; exact hj), he]
  · obtain ⟨ht', he⟩ := h'.upper p t j hp ht hpres hpse
    rw [he] at hpres hpse
    obtain ⟨ht'', he'⟩ := h.upper p t j hp ht' hpres hpse
    exact ⟨ht'', he.trans he'⟩

/-! ## Walks -/

/-- Linking a fresh page. -/
theorem FreshLink.touched {t u : Nat} (h : FreshLink root s s' p t i u) (hok : TreeOk A root s')
    (hmode : s'.mode = s.mode) (hdrawn : Drawn A s.source s'.source) (hav : A.avail s.source u)
    (hk : [k] <+: p ++ [i]) : Touched A root (· = k) s s' := by
  have hpse : pse (s'.mem t i) = false := by
    have hlink := h.link
    unfold child at hlink
    split at hlink
    · rename_i hb
      rw [Bool.and_eq_true, Bool.not_eq_true'] at hb
      exact hb.2
    · cases hlink
  refine ⟨hok, hmode, hdrawn, fun q v hq hv => ?_, fun v j => ?_, fun j hj => ?_,
    fun q v j hq hv hpres hlarge => ?_⟩
  · by_cases hqe : q = p ++ [i]
    · rw [(h.tables q hq).1 hqe] at hv
      cases hv
      exact .inr hav
    · rw [(h.tables q hq).2 hqe] at hv
      exact .inl hv
  · by_cases hu : v = u
    · exact .inr (.inl (hu ▸ hav))
    · by_cases hc : v = t ∧ j = i
      · obtain ⟨rfl, rfl⟩ := hc
        have hlen := h.length_le
        exact .inr (.inr ⟨p, k, by omega, h.node, rfl, hk⟩)
      · exact .inl (h.other v j hu hc)
  · refine h.other root j (h.ne_fresh (q := []) (by simp) rfl) fun hc => ?_
    rw [hc.1, hc.2, h.absent] at hj
    cases hj
  · by_cases hqe : q = p ++ [i]
    · rw [(h.tables q (by omega)).1 hqe] at hv
      cases hv
      rw [h.zero j] at hpres
      exact absurd hpres (by decide)
    · rw [(h.tables q (by omega)).2 hqe] at hv
      refine ⟨hv, h.other v j (h.ne_fresh (by omega) hv) fun hc => ?_⟩
      rw [hc.1, hc.2, hpse] at hlarge
      cases hlarge

theorem getOrCreateTable_touched (h : TreeOk A root s) (hp : p.length ≤ 2)
    (ht : s.tableAt root p = some (virtToPhys table)) (hk : [k] <+: p ++ [i]) :
    Touched A root (· = k) s (getOrCreateTable A s table i).2 := by
  have hok := (getOrCreateTable_spec h hp ht i).1.ok
  have hcases := getOrCreateTable_cases h hp ht i
  revert hok hcases
  generalize (getOrCreateTable A s table i).2 = s'
  rintro hok (⟨rfl, -⟩ | ⟨rfl, -⟩ | ⟨ptr, -, -, hlink, hav, -, hsource, hmode, -⟩)
  · exact Touched.refl h
  · exact ⟨hok, rfl, .single rfl, fun _ _ _ ht => .inl ht, fun _ _ => .inl rfl, fun _ _ => rfl,
      fun _ _ _ _ ht _ _ => ⟨ht, rfl⟩⟩
  · exact hlink.touched hok hmode (.single hsource) hav hk

theorem descend_touched (r : List (Fin 512)) : ∀ {s : Vmm σ} {p : List (Fin 512)} {table : Nat},
    TreeOk A root s → p.length + r.length ≤ 3 → s.tableAt root p = some (virtToPhys table) →
    (r ≠ [] → [k] <+: p ++ r) → Touched A root (· = k) s (descend A s table r).2 := by
  induction r with
  | nil => intro s p table h _ _ _; exact Touched.refl h
  | cons i r ih =>
      intro s p table h hlen ht hk
      rw [List.length_cons] at hlen
      have hk' := hk (List.cons_ne_nil i r)
      have hi : [k] <+: p ++ [i] := by
        cases p with
        | nil => exact List.cons_prefix_cons.mpr ⟨(List.cons_prefix_cons.mp hk').1, List.nil_prefix⟩
        | cons j p =>
            exact List.cons_prefix_cons.mpr ⟨(List.cons_prefix_cons.mp hk').1, List.nil_prefix⟩
      have hone := getOrCreateTable_touched h (by omega) ht hi
      obtain ⟨-, hres⟩ := getOrCreateTable_spec h (by omega) ht i
      unfold descend
      revert hone hres
      cases getOrCreateTable A s table i with
      | mk res s₁ =>
          intro hone hres
          obtain ⟨ptr, rfl, hptr⟩ | ⟨rfl, -⟩ := hres
          · refine hone.trans (ih hone.ok (by simp; omega) hptr fun _ => ?_)
            rwa [List.append_assoc]
          · exact hone

/-! ## Leaves -/

theorem TreeOk.write_touched (h : TreeOk A root s) (hp : p.length = 2 ∨ p.length = 3)
    (ht : s.tableAt root p = some (virtToPhys table))
    (hold : present (s.read table i) = false) (hw : p.length = 2 → child w = none)
    (hk : [k] <+: p ++ [i]) : Touched A root (· = k) s (s.write table i w) := by
  obtain ⟨hok, htables, -⟩ := h.write hp ht hold hw
  -- the table that is written to is neither the PML4 nor a PDPT
  have hdeep : ∀ q v, q.length ≤ 1 → s.tableAt root q = some v → ∀ j,
      (s.write table i w).mem v j = s.mem v j := by
    intro q v hq hv j
    refine if_neg fun hc => ?_
    have hqp := h.separate q p v (by omega) (by omega) hv (hc.1 ▸ ht)
    rw [hqp] at hq
    omega
  refine ⟨hok, rfl, .refl, fun q v hq hv => ?_, fun v j => ?_, fun j _ => ?_,
    fun q v j hq hv _ _ => ?_⟩
  · rw [htables q hq] at hv
    exact .inl hv
  · by_cases hc : v = virtToPhys table ∧ j = i
    · obtain ⟨rfl, rfl⟩ := hc
      exact .inr (.inr ⟨p, k, by omega, ht, rfl, hk⟩)
    · exact .inl (if_neg hc)
  · exact hdeep [] root (by simp) rfl j
  · rw [htables q (by omega)] at hv
    exact ⟨hv, hdeep q v hq hv j⟩

/-- The walk and the write of `set_page` and `set_large_page`. -/
theorem touched_of_descend (h : TreeOk A (virtToPhys pml4) s)
    (hp : p.length = 2 ∨ p.length = 3) (hw : p.length = 2 → child w = none) (hk : [k] <+: p) :
    Touched A (virtToPhys pml4) (· = k) s
      (match descend A s pml4 p with
        | (none, s) => ((-1 : Int), s)
        | (some t, s) =>
            if !false && present (s.read t i) then (-1, s) else (0, s.write t i w)).2 := by
  have hroot : s.tableAt (virtToPhys pml4) [] = some (virtToPhys pml4) := rfl
  have hlen : ([] : List (Fin 512)).length + p.length ≤ 3 := by
    rw [List.length_nil]
    omega
  have hwalk := descend_touched p h hlen hroot fun _ => hk
  obtain ⟨-, hres⟩ := descend_spec p h hlen hroot
  revert hwalk hres
  cases descend A s pml4 p with
  | mk res s₁ =>
      intro hwalk hres
      obtain ⟨ptr, rfl, hptr⟩ | ⟨rfl, -⟩ := hres
      · cases hpres : present (s₁.read ptr i) with
        | true =>
            simp only [hpres, Bool.not_false, Bool.and_self, if_true]
            exact hwalk
        | false =>
            simp only [hpres, Bool.and_false, Bool.false_eq_true, if_false]
            exact hwalk.trans (hwalk.ok.write_touched hp hptr hpres hw
              (hk.trans (List.prefix_append p [i])))
      · exact hwalk

/-- **`set_page` and `set_large_page`** touch the slot of their address. -/
theorem setUnit_touched (h : TreeOk A (virtToPhys pml4) s) (large : Bool) (v x : Nat)
    (flags : Word) :
    Touched A (virtToPhys pml4) (· = pml4Idx v) s (setUnit A pml4 flags large s v x).2 := by
  cases large with
  | true =>
      show Touched A _ _ s (setLargePage A s pml4 v x flags false).2
      unfold setLargePage
      rw [getOrCreatePd_eq]
      split
      · exact Touched.refl h
      · split
        · exact Touched.refl h
        · exact touched_of_descend (p := [pml4Idx v, pdptIdx v]) h (.inl rfl)
            (fun _ => child_eq_none_of_pse (pse_or_ptPse _)) ⟨_, rfl⟩
  | false =>
      show Touched A _ _ s (setPage A s pml4 v x flags false).2
      unfold setPage
      rw [getOrCreatePt_eq]
      split
      · exact Touched.refl h
      · split
        · exact Touched.refl h
        · exact touched_of_descend (p := [pml4Idx v, pdptIdx v, pdIdx v]) h (.inr rfl)
            (fun hlen => absurd hlen (by simp)) ⟨_, rfl⟩

/-! ## Ranges -/

/-- A range of which only addresses in `V` are set: `V` holds of every address,
or the range lies in the low half and so do all of its pages. -/
def RangeIn (V : Nat → Prop) (virt size : Nat) : Prop :=
  (∀ v, V v) ∨ virt + size ≤ 2 ^ 47 ∧ ∀ v, v < 2 ^ 47 → V v

/-- `set_pages` and `set_large_pages` keep what every page keeps. -/
theorem setEach_keeps {set : Vmm σ → Nat → Nat → Int × Vmm σ} {step : Nat} {M : Vmm σ → Prop}
    {V : Nat → Prop} (hset : ∀ s v x, V v → M s → M (set s v x).2) (hpos : 0 < step)
    (hV : RangeIn V virt size) (h0 : M s) : M (setEach set step s virt phys size).2 := by
  unfold setEach
  split
  · exact h0
  · split
    · exact h0
    · split
      · exact h0
      · have hloop : ∀ n, n ≤ size / step →
            M ((List.range n).foldl (setOne set step virt phys) (0, s)).2 := by
          intro n
          induction n with
          | zero => intro _; exact h0
          | succ n ih =>
              intro hn
              rw [List.range_succ, List.foldl_append]
              simp only [List.foldl_cons, List.foldl_nil]
              refine hset _ _ _ ?_ (ih (by omega))
              obtain hall | ⟨hlow, hall⟩ := hV
              · exact hall _
              · refine hall _ (Nat.lt_of_le_of_lt (Nat.mod_le _ _) ?_)
                have hmul : (n + 1) * step ≤ size :=
                  (Nat.le_div_iff_mul_le hpos).mp hn
                rw [Nat.succ_mul] at hmul
                omega
        exact hloop _ (Nat.le_refl _)

theorem addFailed_keeps {M : Vmm σ → Prop} {set : Vmm σ → Nat × Vmm σ} {n : Nat}
    {acc : Nat × Vmm σ} (hset : n ≠ 0 → ∀ s, M s → M (set s).2) (h0 : M acc.2) :
    M (addFailed n set acc).2 := by
  unfold addFailed
  split
  · exact hset ‹_› _ h0
  · exact h0

/-- No part of a cut range goes beyond its end. -/
theorem rangeCut_le (lo x hi : Nat) :
    ((rangeCut lo x hi).prePadSize ≠ 0 → lo + (rangeCut lo x hi).prePadSize ≤ hi) ∧
    ((rangeCut lo x hi).largeSize ≠ 0 →
      (rangeCut lo x hi).largeVirt + (rangeCut lo x hi).largeSize ≤ hi) ∧
    ((rangeCut lo x hi).posPadSize ≠ 0 →
      (rangeCut lo x hi).posPadVirt + (rangeCut lo x hi).posPadSize ≤ hi) := by
  have hpart : ∀ a b : Nat, b ≤ hi → (if b > a then b - a else 0) ≠ 0 →
      a + (if b > a then b - a else 0) ≤ hi := by
    intro a b hb hne
    split at hne
    · rw [if_pos ‹_›]
      omega
    · exact absurd rfl hne
  have hpre : (if roundUp lo largePageSize < hi then roundUp lo largePageSize else hi) ≤ hi := by
    split
    · exact Nat.le_of_lt ‹_›
    · exact Nat.le_refl hi
  simp only [rangeCut]
  exact ⟨hpart _ _ hpre, hpart _ _ (Nat.div_mul_le_self hi largePageSize),
    hpart _ _ (Nat.le_refl hi)⟩

/-- The three parts that `set_range` sets. -/
theorem rangeCut_keeps {M : Vmm σ → Prop} {cut : RangeCut} {lo x hi : Nat}
    (hpre : cut.prePadSize ≠ 0 → lo + cut.prePadSize ≤ hi)
    (hlarge : cut.largeSize ≠ 0 → cut.largeVirt + cut.largeSize ≤ hi)
    (hpos : cut.posPadSize ≠ 0 → cut.posPadVirt + cut.posPadSize ≤ hi)
    (hsmall : ∀ s v y n, v + n ≤ hi → M s → M (setPages A s pml4 v y n flags false).2)
    (hbig : ∀ s v y n, v + n ≤ hi → M s → M (setLargePages A s pml4 v y n flags false).2)
    {acc : Nat × Vmm σ} (h0 : M acc.2) :
    M (addFailed cut.posPadSize
        (fun s => setPages A s pml4 cut.posPadVirt cut.posPadPhys cut.posPadSize flags false)
        (addFailed cut.largeSize
          (fun s =>
            setLargePages A s pml4 cut.largeVirt cut.largePhys cut.largeSize flags false)
          (addFailed cut.prePadSize
            (fun s => setPages A s pml4 lo x cut.prePadSize flags false) acc))).2 := by
  have hone := addFailed_keeps (fun hne s hs => hsmall s lo x _ (hpre hne) hs) h0
  have htwo := addFailed_keeps
    (fun hne s hs => hbig s cut.largeVirt cut.largePhys _ (hlarge hne) hs) hone
  exact addFailed_keeps
    (fun hne s hs => hsmall s cut.posPadVirt cut.posPadPhys _ (hpos hne) hs) htwo

/-- A range below the trimmed end of `virt`'s stays where that one is. -/
theorem RangeIn.trimmed {V : Nat → Prop} (hV : RangeIn V virt size) {v n : Nat}
    (hle : v + n ≤ (virt + size) % 2 ^ 64 - tailOffset ((virt + size) % 2 ^ 64)) :
    RangeIn V v n := by
  refine hV.imp id fun ⟨hlow, hall⟩ => ⟨?_, hall⟩
  calc v + n ≤ (virt + size) % 2 ^ 64 := hle.trans (Nat.sub_le _ _)
    _ ≤ virt + size := Nat.mod_le _ _
    _ ≤ 2 ^ 47 := hlow

section Keeps

variable {M : Vmm σ → Prop} {V : Nat → Prop}
  (hset : ∀ large s v x, V v → M s → M (setUnit A pml4 flags large s v x).2)

include hset

theorem setPages_keeps (hV : RangeIn V virt size) (h0 : M s) :
    M (setPages A s pml4 virt phys size flags false).2 := by
  rw [setPages_eq]
  exact setEach_keeps (hset false) (by decide) hV h0

theorem setLargePages_keeps (hV : RangeIn V virt size) (h0 : M s) :
    M (setLargePages A s pml4 virt phys size flags false).2 := by
  rw [setLargePages_eq]
  exact setEach_keeps (hset true) (by decide) hV h0

/-- **`set_range` keeps** what setting each page of the range keeps. -/
theorem setRange_keeps (hV : RangeIn V virt size) (h0 : M s) :
    M (setRange A s pml4 virt phys size flags false).2 := by
  unfold setRange
  simp only []
  split
  · exact h0
  · split
    · exact h0
    · obtain ⟨hpre, hlarge, hpos⟩ := rangeCut_le ((virt + headOffset virt) % 2 ^ 64)
        ((phys + headOffset virt) % 2 ^ 64)
        ((virt + size) % 2 ^ 64 - tailOffset ((virt + size) % 2 ^ 64))
      exact rangeCut_keeps hpre hlarge hpos
        (fun s v y n hle hs => setPages_keeps hset (hV.trimmed hle) hs)
        (fun s v y n hle hs => setLargePages_keeps hset (hV.trimmed hle) hs) h0

end Keeps

/-- **`vmm_map` keeps** what setting each page of the range keeps. -/
theorem vmmMap_keeps {M : Vmm σ → Prop} {V : Nat → Prop} {kernPml4 : Nat}
    (hset : ∀ large s v x, V v → M s → M (setUnit A (mapRoot kernPml4 pml4) flags large s v x).2)
    (hV : RangeIn V virt size) (h0 : M s) :
    M (vmmMap A kernPml4 s pml4 virt phys size flags).2 := by
  have hroot : (if pml4 = kernPml4Token then kernPml4 else pml4) = mapRoot kernPml4 pml4 := rfl
  unfold vmmMap
  simp only [hroot]
  split
  · exact h0
  · split
    · exact h0
    · split
      · split
        · exact h0
        · split
          · exact h0
          · rename_i hlt
            exact setPages_keeps hset
              (hV.trimmed (Nat.add_sub_cancel' (Nat.le_of_not_ge hlt)).le) h0
      · exact setRange_keeps hset hV h0

/-- **`vmm_map_hhdm` keeps** what setting each page and the change of the
VMM's state keep. -/
theorem vmmMapHhdm_keeps {M : Vmm σ → Prop} {K : KernelTables}
    (hset : ∀ flags large s v x, M s → M (setUnit A K.kernPml4 flags large s v x).2)
    (hmode : ∀ s, M s → M { s with mode := .transition }) (table : List E820Entry) (h0 : M s) :
    M (vmmMapHhdm A K s table).2 := by
  have hentries : ∀ (es : List E820Entry) (acc : Nat × Vmm σ), M acc.2 →
      M (es.foldl (mapHhdmEntry A K) acc).2 := by
    intro es
    induction es with
    | nil => exact fun _ h => h
    | cons e es ih =>
        intro acc h
        exact ih _ (setRange_keeps (V := fun _ => True) (fun large s v x _ => hset _ large s v x)
          (.inl fun _ => trivial) h)
  unfold vmmMapHhdm
  split
  · exact h0
  · exact hmode _ (setRange_keeps (V := fun _ => True) (fun large s v x _ => hset _ large s v x)
      (.inl fun _ => trivial) (hentries table (0, s) h0))

/-- **`vmm_map` touches** the slots of its range, for any physical range and any
flags. -/
theorem vmmMap_touched {kernPml4 : Nat} (phys : Nat) (flags : Word)
    (h : TreeOk A (virtToPhys (mapRoot kernPml4 pml4)) s)
    (hH : RangeIn (fun v => H (pml4Idx v)) virt size) :
    Touched A (virtToPhys (mapRoot kernPml4 pml4)) H s
      (vmmMap A kernPml4 s pml4 virt phys size flags).2 := by
  refine vmmMap_keeps (M := Touched A (virtToPhys (mapRoot kernPml4 pml4)) H s)
    (fun large s₁ v x hv hs => ?_) hH (Touched.refl h)
  exact hs.trans ((setUnit_touched hs.ok large v x flags).mono fun k hk => hk ▸ hv)

end DevOS.Arch
