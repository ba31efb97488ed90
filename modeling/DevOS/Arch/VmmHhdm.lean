import DevOS.Arch.E820Sweep
import DevOS.Arch.VmmInit
import DevOS.Arch.VmmMap

/-!
# Page tables — the direct map

What `vmm_map_hhdm` puts into the window of the direct map. The contents are
kept as a map `want` from physical addresses to flags, which each page that is
set extends where nothing was set before; `touched` are the addresses of the
pages that were set, around which page tables may have been created. A large
page meets a page table only if its 2 MiB were touched, and the ranges of a
sorted table never touch each other's large pages.
-/

namespace DevOS.Arch

open DevOS.Lib

variable {σ : Type} {A : TableSource σ} {root pml4 : Nat} {s s₀ : Vmm σ} {flags : Word}
  {want : Nat → Option Word} {touched : Nat → Prop}

/-- The physical addresses below which the direct map is looked at. -/
def hhdmSpan : Nat := 2 ^ 46

/-- The window of the direct map. -/
def InWindow (a : Nat) : Prop := hhdmBase ≤ a ∧ a < hhdmBase + hhdmSpan

/-- How the direct map shows physical address `p`: not at all, or with given
flags, through a leaf of either size. -/
def Shown (p : Nat) (t : Option Translation) : Option Word → Prop
  | none => t = none
  | some flags => ∃ large, t = some ⟨p, unitSize large, unitFlags large flags⟩

/-- The contents of the window. -/
structure Shows (root : Nat) (s : Vmm σ) (want : Nat → Option Word) (touched : Nat → Prop) :
    Prop where
  contents : ∀ p, p < hhdmSpan → Shown p (s.translate root (hhdmBase + p)) (want p)
  tables : ∀ p, p < hhdmSpan → HasPt root s (hhdmBase + p) →
    ∃ q, touched q ∧ q / 2 ^ 21 = p / 2 ^ 21

/-- Pages with `flags` over `[lo, hi)`, where nothing was wanted yet. -/
def extend (want : Nat → Option Word) (flags : Word) (lo hi p : Nat) : Option Word :=
  (want p).or (if (lo ≤ p ∧ p < hi) ∧ present flags = true then some flags else none)

def touch (touched : Nat → Prop) (lo hi q : Nat) : Prop := touched q ∨ lo ≤ q ∧ q < hi

theorem extend_self (want : Nat → Option Word) (flags : Word) (lo : Nat) :
    extend want flags lo lo = want := by
  funext p
  rw [extend, if_neg (by omega), Option.or_none]

theorem extend_extend {lo mid hi : Nat} (h1 : lo ≤ mid) (h2 : mid ≤ hi) :
    extend (extend want flags lo mid) flags mid hi = extend want flags lo hi := by
  funext p
  unfold extend
  rw [Option.or_assoc]
  congr 1
  by_cases hpres : present flags = true
  · by_cases hp : lo ≤ p ∧ p < mid
    · rw [if_pos ⟨hp, hpres⟩, Option.some_or, if_pos ⟨by omega, hpres⟩]
    · rw [if_neg (fun h => hp h.1), Option.none_or]
      by_cases hp' : mid ≤ p ∧ p < hi
      · rw [if_pos ⟨hp', hpres⟩, if_pos ⟨by omega, hpres⟩]
      · rw [if_neg (fun h => hp' h.1), if_neg (by omega)]
  · rw [if_neg (fun h => hpres h.2), if_neg (fun h => hpres h.2), if_neg (fun h => hpres h.2)]
    rfl

/-- A run that fills the window: until an allocation fails the contents are
known, and outside the window nothing changes. -/
structure HhdmRun (A : TableSource σ) (root : Nat) (s₀ s : Vmm σ) (want : Nat → Option Word)
    (touched : Nat → Prop) : Prop where
  ok : TreeOk A root s
  mode : s.mode ≠ .early
  outside : ∀ a, ¬ InWindow a → s.translate root a = s₀.translate root a
  shows : s.denied = true ∨ Shows root s want touched

theorem Shown.eq_none {p : Nat} {t : Option Translation} {w : Option Word} (h : Shown p t w)
    (ht : t = none) : w = none := by
  cases w with
  | none => rfl
  | some flags =>
      obtain ⟨large, hl⟩ := h
      rw [ht] at hl
      cases hl

theorem extend_of_some {p lo hi : Nat} (h : want p ≠ none) :
    extend want flags lo hi p = want p := by
  obtain ⟨w, hw⟩ := Option.ne_none_iff_exists'.mp h
  rw [extend, hw, Option.some_or]

theorem extend_outside {p lo hi : Nat} (h : ¬ (lo ≤ p ∧ p < hi)) :
    extend want flags lo hi p = want p := by
  rw [extend, if_neg (fun hc => h hc.1), Option.or_none]

/-- The contents after one page: set where nothing was shown, or left. -/
theorem Shows.unit {large : Bool} {q : Nat} {code : Int} {s' : Vmm σ}
    (h : Shows root s want touched)
    (hset : SetUnit A root s large (hhdmBase + q) q flags code s')
    (hq : unitSize large ∣ q) (hspan : q + unitSize large ≤ hhdmSpan)
    (hfree : large = true → ∀ x, q ≤ x → x < q + unitSize large → ¬ touched x) :
    Refused s' ∨
      Shows root s' (extend want flags q (q + unitSize large))
        (touch touched q (q + unitSize large)) := by
  have hb : hhdmBase = 0xFFFF888000000000 := rfl
  have hs : hhdmSpan = 0x400000000000 := rfl
  have hpos : 0 < unitSize large := by cases large <;> decide
  have htables : ∀ p, p < hhdmSpan → HasPt root s' (hhdmBase + p) →
      ∃ x, touch touched q (q + unitSize large) x ∧ x / 2 ^ 21 = p / 2 ^ 21 := by
    intro p hp hpt
    rcases hset.pt _ hpt with hold | ⟨-, heq⟩
    · obtain ⟨x, hx, heq⟩ := h.tables p hp hold
      exact ⟨x, .inl hx, heq⟩
    · exact ⟨q, .inr ⟨Nat.le_refl q, by omega⟩, by omega⟩
  by_cases hcode : code = 0
  · -- the page was free, so nothing was wanted there
    refine .inr ⟨fun p hp => ?_, htables⟩
    by_cases hin : q ≤ p ∧ p < q + unitSize large
    · obtain ⟨hold, hnew⟩ := hset.done hcode (hhdmBase + p) (by omega)
      have hwant := (h.contents p hp).eq_none hold
      rw [extend, hwant, Option.none_or, hnew]
      by_cases hpres : present flags = true
      · rw [if_pos hpres, if_pos ⟨hin, hpres⟩]
        refine ⟨large, ?_⟩
        have haddr : q + (hhdmBase + p - (hhdmBase + q)) = p := by omega
        rw [unitTranslation, haddr]
      · rw [if_neg hpres, if_neg (fun hc => hpres hc.2)]
        rfl
    · rw [extend_outside hin, hset.frame _ (by omega)]
      exact h.contents p hp
  · rcases hset.why hcode with hfull | ⟨hlarge, hpt⟩ | hden
    · refine .inr ⟨fun p hp => ?_, htables⟩
      rw [hset.failed hcode]
      by_cases hin : q ≤ p ∧ p < q + unitSize large
      · -- the page was shown already
        have hwant : want p ≠ none := by
          intro hnone
          have hshown := h.contents p hp
          rw [hnone] at hshown
          exact hfull (hhdmBase + p) (by omega) hshown
        rw [extend_of_some hwant]
        exact h.contents p hp
      · rw [extend_outside hin]
        exact h.contents p hp
    · -- a page table where the large page should go: its 2 MiB were touched
      obtain ⟨x, hx, heq⟩ := h.tables q (by omega) hpt
      subst hlarge
      have hd : 0x200000 ∣ q := hq
      have hlt : x < q + unitSize true := by
        show x < q + 0x200000
        omega
      exact absurd hx (hfree rfl x (by omega) hlt)
    · exact .inl hden

/-- **One page of the direct map.** -/
theorem HhdmRun.unit {large : Bool} {q : Nat} (h : HhdmRun A (virtToPhys pml4) s₀ s want touched)
    (hq : unitSize large ∣ q) (hspan : q + unitSize large ≤ hhdmSpan) (hf : FlagsOk flags)
    (hfree : large = true → ∀ x, q ≤ x → x < q + unitSize large → ¬ touched x) :
    HhdmRun A (virtToPhys pml4) s₀ (setUnit A pml4 flags large s (hhdmBase + q) q).2
      (extend want flags q (q + unitSize large)) (touch touched q (q + unitSize large)) := by
  have hb : hhdmBase = 0xFFFF888000000000 := rfl
  have hs : hhdmSpan = 0x400000000000 := rfl
  have hpos : 0 < unitSize large := by cases large <;> decide
  have hc : Canonical (hhdmBase + q) := by
    unfold Canonical
    omega
  have hbase : unitSize large ∣ hhdmBase := by cases large <;> decide
  have hset := setUnit_spec h.ok hc (Nat.dvd_add hbase hq) hq (by omega) hf
  revert hset
  cases setUnit A pml4 flags large s (hhdmBase + q) q with
  | mk code s' =>
      intro hset
      refine ⟨hset.ok, hset.mode ▸ h.mode, fun a ha => ?_, ?_⟩
      · rw [hset.frame a fun hin => ha ⟨by omega, by omega⟩]
        exact h.outside a ha
      · rcases h.shows with hden | hshows
        · exact .inl (hset.denied hden)
        · rcases hshows.unit hset hq hspan hfree with (hden | hearly) | hnew
          · exact .inl hden
          · exact absurd hearly (hset.mode ▸ h.mode)
          · exact .inr hnew

theorem touch_touch {lo mid hi : Nat} (h1 : lo ≤ mid) (h2 : mid ≤ hi) :
    touch (touch touched lo mid) mid hi = touch touched lo hi := by
  funext q
  simp only [touch, or_assoc]
  refine propext (or_congr Iff.rfl ?_)
  omega

/-- A range of the window may always be set. -/
theorem rangeOk_hhdm {addr size : Nat} (h : addr + size ≤ hhdmSpan) :
    RangeOk (hhdmBase + addr) addr size := by
  have hb : hhdmBase = 0xFFFF888000000000 := rfl
  have hs : hhdmSpan = 0x400000000000 := rfl
  constructor <;> omega

/-- The page boundaries of a range of the window are those of the physical
range. -/
theorem hhdm_boundaries (addr size : Nat) :
    firstPage (hhdmBase + addr) = hhdmBase + firstPage addr ∧
    lastPage (hhdmBase + addr + size) = hhdmBase + lastPage (addr + size) ∧
    addr ≤ firstPage addr ∧ lastPage (addr + size) ≤ addr + size := by
  have hb : hhdmBase = 0xFFFF888000000000 := rfl
  unfold firstPage lastPage
  omega

/-- One page more of a range. -/
theorem hhdmRun_step {addr size : Nat} (hspan : addr + size ≤ hhdmSpan) (hf : FlagsOk flags)
    (hfree : (∀ x, addr ≤ x → x < addr + size → ¬ touched x) ∨ size < largePageSize) :
    PageStep A pml4 flags (hhdmBase + addr) addr (firstPage (hhdmBase + addr))
      (lastPage (hhdmBase + addr + size)) fun v _ s =>
        HhdmRun A (virtToPhys pml4) s₀ s (extend want flags (firstPage addr) (v - hhdmBase))
          (touch touched (firstPage addr) (v - hhdmBase)) := by
  intro large v f s₁ hM hvlo hvhi hv hp
  obtain ⟨hfirst, hlast, hlo, hhi⟩ := hhdm_boundaries addr size
  rw [hfirst] at hvlo
  rw [hlast] at hvhi
  obtain ⟨q, rfl⟩ := Nat.exists_eq_add_of_le (show hhdmBase ≤ v by omega)
  have hq : physAt (hhdmBase + addr) addr (hhdmBase + q) = q := by
    unfold physAt
    omega
  rw [hq] at hp ⊢
  rw [Nat.add_sub_cancel_left] at hM
  have hfree' : large = true → ∀ x, q ≤ x → x < q + unitSize large →
      ¬ touch touched (firstPage addr) q x := by
    intro hlarge x hx1 hx2 htouch
    rcases htouch with hold | hnew
    · rcases hfree with hfree | hshort
      · exact hfree x (by omega) (by omega) hold
      · subst hlarge
        have hle : hhdmBase + q + largePageSize ≤ hhdmBase + lastPage (addr + size) := hvhi
        omega
    · omega
  have hunit := hM.unit hp (by omega) hf hfree'
  rw [extend_extend (by omega) (by omega), touch_touch (by omega) (by omega)] at hunit
  rw [Nat.add_assoc, Nat.add_sub_cancel_left]
  exact hunit

/-- More may be touched. -/
theorem HhdmRun.mono {touched' : Nat → Prop} (h : HhdmRun A root s₀ s want touched)
    (hle : ∀ x, touched x → touched' x) : HhdmRun A root s₀ s want touched' := by
  refine ⟨h.ok, h.mode, h.outside, h.shows.imp id fun hshows =>
    ⟨hshows.contents, fun p hp hpt => ?_⟩⟩
  obtain ⟨x, hx, heq⟩ := hshows.tables p hp hpt
  exact ⟨x, hle x hx, heq⟩

/-- **One range of the direct map**: `set_range` on `HHDM_BASE + addr`. It may
meet page tables around addresses touched before only if it is too short for a
large page. -/
theorem HhdmRun.range (h : HhdmRun A (virtToPhys pml4) s₀ s want touched) (addr size : Nat)
    (hspan : addr + size ≤ hhdmSpan) (hf : FlagsOk flags)
    (hfree : (∀ x, addr ≤ x → x < addr + size → ¬ touched x) ∨ size < largePageSize) :
    HhdmRun A (virtToPhys pml4) s₀
      (setRange A s pml4 (hhdmBase + addr) addr size flags false).2
      (extend want flags (firstPage addr) (lastPage (addr + size)))
      (touch touched (firstPage addr) (lastPage (addr + size))) := by
  have hb : hhdmBase = 0xFFFF888000000000 := rfl
  have hr := rangeOk_hhdm hspan
  obtain ⟨hfirst, hlast, -, -⟩ := hhdm_boundaries addr size
  by_cases hlt : firstPage addr < lastPage (addr + size)
  · have hcong : (hhdmBase + addr) % largePageSize = addr % largePageSize := by
      unfold largePageSize
      omega
    have hstart : HhdmRun A (virtToPhys pml4) s₀ s
        (extend want flags (firstPage addr) (firstPage (hhdmBase + addr) - hhdmBase))
        (touch touched (firstPage addr) (firstPage (hhdmBase + addr) - hhdmBase)) := by
      rw [hfirst, Nat.add_sub_cancel_left, extend_self]
      exact h.mono fun x hx => .inl hx
    have hrun := setRange_induct hr hcong (by omega) (hhdmRun_step hspan hf hfree) hstart
    rw [hlast, Nat.add_sub_cancel_left] at hrun
    exact hrun
  · rw [setRange_empty hr (by omega)]
    have hsame : extend want flags (firstPage addr) (lastPage (addr + size)) = want := by
      funext p
      exact extend_outside (by omega)
    rw [hsame]
    exact h.mono fun x hx => .inl hx

/-! ## The loop over the memory map -/

/-- What an entry adds to the contents. -/
def extendEntry (want : Nat → Option Word) (e : E820Entry) : Nat → Option Word :=
  extend want (hhdmFlags e.type) (firstPage e.addr) (lastPage e.stop)

/-- Addresses in one of the entries. -/
def InEntries (entries : List E820Entry) (x : Nat) : Prop := ∃ e ∈ entries, e.Covers x

theorem hhdmFlags_ok (type : Nat) : FlagsOk (hhdmFlags type) := by
  unfold hhdmFlags FlagsOk
  split
  · decide
  · split <;> decide

/-- One entry. -/
theorem HhdmRun.entry {K : KernelTables} {acc : Nat × Vmm σ} {e : E820Entry}
    {done : List E820Entry}
    (h : HhdmRun A (virtToPhys K.kernPml4) s₀ acc.2 want (InEntries done))
    (hspan : e.stop ≤ hhdmSpan) (hdone : ∀ d ∈ done, d.stop ≤ e.addr) :
    HhdmRun A (virtToPhys K.kernPml4) s₀ (mapHhdmEntry A K acc e).2 (extendEntry want e)
      (InEntries (done ++ [e])) := by
  have hb : hhdmBase = 0xFFFF888000000000 := rfl
  have hs : hhdmSpan = 0x400000000000 := rfl
  unfold E820Entry.stop at hspan
  have hwrap : (hhdmBase + e.addr) % 2 ^ 64 = hhdmBase + e.addr := Nat.mod_eq_of_lt (by omega)
  have hfree : ∀ x, e.addr ≤ x → x < e.addr + e.size → ¬ InEntries done x := by
    intro x hx1 hx2 hin
    obtain ⟨d, hd, hcov⟩ := hin
    have hle := hdone d hd
    have hlt := hcov.2
    omega
  have hrange := h.range e.addr e.size hspan (hhdmFlags_ok e.type) (.inl hfree)
  unfold mapHhdmEntry
  rw [hwrap]
  refine hrange.mono fun x hx => ?_
  rcases hx with ⟨d, hd, hcov⟩ | hx
  · exact ⟨d, List.mem_append_left _ hd, hcov⟩
  · obtain ⟨-, -, hlo, hhi⟩ := hhdm_boundaries e.addr e.size
    refine ⟨e, by simp, ?_⟩
    unfold E820Entry.Covers E820Entry.stop
    omega

/-- **The loop of `vmm_map_hhdm`**: each entry of a sorted table adds its
pages. -/
theorem HhdmRun.entries {K : KernelTables} (rest : List E820Entry) :
    ∀ {done : List E820Entry} {acc : Nat × Vmm σ} {want : Nat → Option Word},
      (done ++ rest).Pairwise (fun e f => e.stop ≤ f.addr) → (∀ e ∈ rest, e.stop ≤ hhdmSpan) →
      HhdmRun A (virtToPhys K.kernPml4) s₀ acc.2 want (InEntries done) →
      HhdmRun A (virtToPhys K.kernPml4) s₀ (rest.foldl (mapHhdmEntry A K) acc).2
        (rest.foldl extendEntry want) (InEntries (done ++ rest)) := by
  induction rest with
  | nil =>
      intro done acc want _ _ h
      rw [List.append_nil]
      exact h
  | cons e rest ih =>
      intro done acc want hsorted hspan h
      have hdone : ∀ d ∈ done, d.stop ≤ e.addr := by
        intro d hd
        exact (List.pairwise_append.mp hsorted).2.2 d hd e (by simp)
      have hassoc : done ++ e :: rest = done ++ [e] ++ rest := by simp
      rw [List.foldl_cons, List.foldl_cons, hassoc]
      rw [hassoc] at hsorted
      exact ih hsorted (fun f hf => hspan f (List.mem_cons_of_mem _ hf))
        (h.entry (hspan e (by simp)) hdone)

/-- The 4 KiB page of an address lies wholly in an entry. -/
def E820Entry.HasPage (e : E820Entry) (p : Nat) : Prop :=
  e.addr ≤ p / 4096 * 4096 ∧ p / 4096 * 4096 + 4096 ≤ e.stop

theorem E820Entry.hasPage_iff (e : E820Entry) (p : Nat) :
    e.HasPage p ↔ firstPage e.addr ≤ p ∧ p < lastPage e.stop := by
  unfold E820Entry.HasPage firstPage lastPage
  omega

/-- What is wanted stays. -/
theorem foldl_extendEntry_of_some {p : Nat} (entries : List E820Entry) :
    ∀ {want : Nat → Option Word}, want p ≠ none → entries.foldl extendEntry want p = want p := by
  induction entries with
  | nil => intro want _; rfl
  | cons e entries ih =>
      intro want h
      have hstep : extendEntry want e p = want p := extend_of_some h
      rw [List.foldl_cons, ih (by rwa [hstep]), hstep]

/-- **Where a page is in an entry that is mapped**, the contents are that
entry's. -/
theorem foldl_extendEntry_of_mem {p : Nat} {e : E820Entry} (hpage : e.HasPage p)
    (hpres : present (hhdmFlags e.type) = true) (entries : List E820Entry) :
    ∀ {want : Nat → Option Word}, entries.Pairwise (fun e f => e.stop ≤ f.addr) → e ∈ entries →
      want p = none → entries.foldl extendEntry want p = some (hhdmFlags e.type) := by
  induction entries with
  | nil => intro want _ hmem _; cases hmem
  | cons f entries ih =>
      intro want hsorted hmem hnone
      rw [List.pairwise_cons] at hsorted
      rw [List.foldl_cons]
      rcases List.mem_cons.mp hmem with rfl | hmem
      · have hstep : extendEntry want e p = some (hhdmFlags e.type) := by
          rw [extendEntry, extend, hnone, Option.none_or,
            if_pos ⟨(e.hasPage_iff p).mp hpage, hpres⟩]
        rw [foldl_extendEntry_of_some entries (by rw [hstep]; exact Option.some_ne_none _), hstep]
      · -- an earlier entry ends before this one starts
        have hstep : extendEntry want f p = none := by
          rw [extendEntry, extend_outside ?_, hnone]
          intro hin
          have hle := hsorted.1 e hmem
          have hf := ((f.hasPage_iff p).mpr hin).2
          have he := hpage.1
          omega
        exact ih hsorted.2 hmem hstep

/-- **Where no mapped entry has the page**, nothing is wanted. -/
theorem foldl_extendEntry_of_not_mem {p : Nat} (entries : List E820Entry) :
    ∀ {want : Nat → Option Word},
      (∀ e ∈ entries, e.HasPage p → ¬ present (hhdmFlags e.type) = true) →
      want p = none → entries.foldl extendEntry want p = none := by
  induction entries with
  | nil => intro want _ hnone; exact hnone
  | cons e entries ih =>
      intro want hno hnone
      rw [List.foldl_cons]
      refine ih (fun f hf => hno f (List.mem_cons_of_mem _ hf)) ?_
      rw [extendEntry, extend, hnone, Option.none_or, if_neg ?_]
      intro hc
      exact hno e (by simp) ((e.hasPage_iff p).mpr hc.1) hc.2

/-- The tree does not depend on the VMM's state once it has left `EARLY`. -/
theorem HhdmRun.withMode (h : HhdmRun A root s₀ s want touched) (mode : VmmMode)
    (hmode : mode ≠ .early) : HhdmRun A root s₀ { s with mode := mode } want touched :=
  ⟨⟨h.ok.separate, h.ok.below, h.ok.unavail, h.ok.pml4⟩, hmode, h.outside,
    h.shows.imp id fun hshows => ⟨hshows.contents, hshows.tables⟩⟩

/-- **`vmm_map_hhdm`** from a tree with an empty window: the pages of the
memory map, then the VGA window where they left room. -/
theorem vmmMapHhdm_run {K : KernelTables} {table : List E820Entry}
    (hok : TreeOk A (virtToPhys K.kernPml4) s) (hmode : s.mode = .identity)
    (hempty : Shows (virtToPhys K.kernPml4) s (fun _ => none) fun _ => False)
    (hsorted : table.Pairwise fun e f => e.stop ≤ f.addr)
    (hspan : ∀ e ∈ table, e.stop ≤ hhdmSpan) :
    HhdmRun A (virtToPhys K.kernPml4) s (vmmMapHhdm A K s table).2
      (extend (table.foldl extendEntry fun _ => none) vgaFlags 0xA0000 0xC0000)
      (touch (InEntries table) 0xA0000 0xC0000) := by
  have hstart : HhdmRun A (virtToPhys K.kernPml4) s s (fun _ => none) (InEntries []) :=
    ⟨hok, by rw [hmode]; decide, fun _ _ => rfl, .inr ⟨hempty.contents, fun p hp hpt => by
      obtain ⟨-, hx, -⟩ := hempty.tables p hp hpt
      exact hx.elim⟩⟩
  have hloop : HhdmRun A (virtToPhys K.kernPml4) s (table.foldl (mapHhdmEntry A K) (0, s)).2
      (table.foldl extendEntry fun _ => none) (InEntries ([] ++ table)) :=
    HhdmRun.entries table (by rwa [List.nil_append]) hspan hstart
  rw [List.nil_append] at hloop
  have hvga : FlagsOk vgaFlags := by
    unfold FlagsOk
    decide
  have hlast := (hloop.range 0xA0000 0x20000 (by decide) hvga (.inr (by decide))).withMode
    .transition (by decide)
  unfold vmmMapHhdm
  rw [if_neg (not_not.mpr hmode)]
  exact hlast

/-- The window is empty after `vmm_init`. -/
theorem vmmInit_window (K : KernelTables) (source : σ) :
    Shows (virtToPhys K.kernPml4) (vmmInit K source) (fun _ => none) fun _ => False := by
  have hb : hhdmBase = 0xFFFF888000000000 := rfl
  have hk : kernelVmaStart = 0xFFFFFFFF80000000 := rfl
  have hs : hhdmSpan = 0x400000000000 := rfl
  have hwords := vmmInit_words K source
  refine ⟨fun p hp => ?_, fun p _ hpt => absurd hpt (hwords.not_hasPt _)⟩
  show (vmmInit K source).translate _ (hhdmBase + p) = none
  rw [hwords.translate, if_neg (by omega), if_neg (by omega)]

/-- **`vmm_map_hhdm` after `vmm_init`**, with a table source that does not hand
out the static tables. -/
theorem vmmInit_hhdmRun (A : TableSource σ) (K : KernelTables) (source : σ)
    {table : List E820Entry}
    (havail : ∀ t ∈ [K.kernPml4, K.pdptLow, K.pdLow, K.pdptKern, K.pdKern],
      ¬ A.avail source (virtToPhys t))
    (hsorted : table.Pairwise fun e f => e.stop ≤ f.addr)
    (hspan : ∀ e ∈ table, e.stop ≤ hhdmSpan) :
    HhdmRun A (virtToPhys K.kernPml4) (vmmInit K source)
      (vmmMapHhdm A K (vmmInit K source) table).2
      (extend (table.foldl extendEntry fun _ => none) vgaFlags 0xA0000 0xC0000)
      (touch (InEntries table) 0xA0000 0xC0000) := by
  have hok : TreeOk A (virtToPhys K.kernPml4) (vmmInit K source) := by
    refine (vmmInit_words K source).treeOk ?_
    rwa [vmmInit_source]
  exact vmmMapHhdm_run hok rfl (vmmInit_window K source) hsorted hspan

/-- The types whose pages `vmm_map_hhdm` makes present. -/
theorem present_hhdmFlags (type : Nat) : present (hhdmFlags type) = true ↔
    type = e820TypeRam ∨ type = e820TypeAcpi ∨ type = e820TypeNvs := by
  unfold hhdmFlags
  by_cases h1 : type = e820TypeRam
  · simp only [h1, true_or, iff_true]
    decide
  · by_cases h2 : type = e820TypeNvs ∨ type = e820TypeAcpi
    · simp only [if_neg h1, if_pos h2]
      exact ⟨fun _ => .inr h2.symm, fun _ => by decide⟩
    · simp only [if_neg h1, if_neg h2]
      refine ⟨fun h => absurd h (by decide), fun h => ?_⟩
      rcases h with h | h | h
      · exact absurd h h1
      · exact absurd (.inr h) h2
      · exact absurd (.inl h) h2

/-- The contents of the window that a memory map asks for. -/
structure HhdmContents (table : List E820Entry) (τ : Nat → Option Translation) (p : Nat) :
    Prop where
  ram : ∀ e ∈ table, e.HasPage p → e.type = e820TypeRam →
    ∃ large, τ (hhdmBase + p) = some ⟨p, unitSize large,
      unitFlags large (ptPresent ||| ptGlobal ||| ptNx ||| ptWritable)⟩
  acpi : ∀ e ∈ table, e.HasPage p → e.type = e820TypeAcpi ∨ e.type = e820TypeNvs →
    ∃ large, τ (hhdmBase + p) = some ⟨p, unitSize large,
      unitFlags large (ptPresent ||| ptGlobal ||| ptNx)⟩
  vga : (∀ e ∈ table, e.HasPage p →
      ¬ (e.type = e820TypeRam ∨ e.type = e820TypeAcpi ∨ e.type = e820TypeNvs)) →
    0xA0000 ≤ p ∧ p < 0xC0000 →
    ∃ large, τ (hhdmBase + p) = some ⟨p, unitSize large,
      unitFlags large (ptPresent ||| ptWritable ||| ptGlobal ||| ptNx ||| ptPcd ||| ptPwt)⟩
  rest : (∀ e ∈ table, e.HasPage p →
      ¬ (e.type = e820TypeRam ∨ e.type = e820TypeAcpi ∨ e.type = e820TypeNvs)) →
    ¬ (0xA0000 ≤ p ∧ p < 0xC0000) → τ (hhdmBase + p) = none

/-- What `vmm_map_hhdm` sets in turn is what the memory map asks for. -/
theorem Shows.hhdmContents {table : List E820Entry}
    (h : Shows root s (extend (table.foldl extendEntry fun _ => none) vgaFlags 0xA0000 0xC0000)
      touched)
    (hsorted : table.Pairwise fun e f => e.stop ≤ f.addr) {p : Nat} (hp : p < hhdmSpan) :
    HhdmContents table (s.translate root) p := by
  have hshown := h.contents p hp
  have hentry : ∀ e ∈ table, e.HasPage p → present (hhdmFlags e.type) = true →
      ∃ large, s.translate root (hhdmBase + p) =
        some ⟨p, unitSize large, unitFlags large (hhdmFlags e.type)⟩ := by
    intro e he hpage hpres
    have hwant : table.foldl extendEntry (fun _ => none) p = some (hhdmFlags e.type) :=
      foldl_extendEntry_of_mem hpage hpres table hsorted he rfl
    rwa [extend_of_some (by rw [hwant]; exact Option.some_ne_none _), hwant] at hshown
  have hnone : (∀ e ∈ table, e.HasPage p →
      ¬ (e.type = e820TypeRam ∨ e.type = e820TypeAcpi ∨ e.type = e820TypeNvs)) →
      table.foldl extendEntry (fun _ => none) p = none := fun hno =>
    foldl_extendEntry_of_not_mem table
      (fun e he hpage hpres => hno e he hpage ((present_hhdmFlags _).mp hpres)) rfl
  refine ⟨fun e he hpage htype => ?_, fun e he hpage htype => ?_, fun hno hin => ?_,
    fun hno hout => ?_⟩
  · have hram := hentry e he hpage ((present_hhdmFlags _).mpr (.inl htype))
    rwa [hhdmFlags, if_pos htype] at hram
  · have hacpi := hentry e he hpage ((present_hhdmFlags _).mpr (.inr htype))
    have hne : e.type ≠ e820TypeRam := by
      rcases htype with ht | ht <;> rw [ht] <;> decide
    rwa [hhdmFlags, if_neg hne, if_pos htype.symm] at hacpi
  · rwa [extend, hnone hno, Option.none_or, if_pos ⟨hin, by decide⟩] at hshown
  · rwa [extend_outside hout, hnone hno] at hshown

/-- The static tables at the start of the image. -/
def firstTables : KernelTables where
  kernPml4 := kernelVmaStart
  pdptLow := kernelVmaStart + 0x1000
  pdLow := kernelVmaStart + 0x2000
  pdptKern := kernelVmaStart + 0x3000
  pdKern := kernelVmaStart + 0x4000
  image := by decide
  nodup := by decide

/-- Pages above the image. -/
def tablePages : TableSource Nat := bumpSource 0x800000 (by decide)

end DevOS.Arch
