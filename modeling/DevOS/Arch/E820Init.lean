import DevOS.Arch.E820Sweep
import Mathlib.Order.Bounds.Basic

/-!
# E820 — which maps `e820_init` accepts

`e820_init` sanitizes the firmware table and then looks backwards for the last
RAM entry. A table of at most 128 entries has at most 256 change points, and
the first of them closes no entry, so the output array is never full and
denotes the whole table. The one thing that goes wrong is the early return of
`e820_sanitize` for a table of fewer than two entries: it leaves the output
empty.
-/

namespace DevOS.Arch

variable {table out : List E820Entry} {e : E820Entry} {a : Nat}

/-! ## The output array is never full -/

section Count

variable {T : Nat → E820Entry} {n : Nat} {w : SweepState} {p : ChangePoint}

theorem closeEntry_count_le (w : SweepState) (x : Nat) :
    (w.closeEntry x).1.count ≤ w.count + 1 := by
  simp only [SweepState.closeEntry]
  split
  · exact Nat.le_refl _
  · exact Nat.le_succ _

/-- A round finishes one entry at most. -/
theorem sweepStep_count_le (w : SweepState) (p : ChangePoint) :
    (sweepStep T w p).1.count ≤ w.count + 1 := by
  have hclose := closeEntry_count_le { w with overlap := trackOverlap T w.overlap p } p.addr
  simp only [sweepStep]
  split
  · exact Nat.le_succ _
  · by_cases hlast : w.lastType ≠ 0
    · simp only [if_pos hlast]
      cases hc : SweepState.closeEntry { w with overlap := trackOverlap T w.overlap p } p.addr with
      | mk v stop =>
          rw [hc] at hclose
          cases stop with
          | true => exact hclose
          | false =>
              dsimp only
              split
              · exact hclose
              · exact hclose
    · simp only [if_neg hlast]
      split
      · exact Nat.le_succ _
      · exact Nat.le_succ _

/-- A round that finds no open entry finishes none. -/
theorem sweepStep_count_of_closed (hlast : w.lastType = 0) (p : ChangePoint) :
    (sweepStep T w p).1.count = w.count := by
  have hnot : ¬ w.lastType ≠ 0 := fun h => h hlast
  simp only [sweepStep, if_neg hnot]
  split
  · rfl
  · split
    · rfl
    · rfl

theorem sweep_count_le (ps : List ChangePoint) : ∀ w : SweepState,
    (sweep T w ps).count ≤ w.count + ps.length := by
  induction ps with
  | nil => intro w; exact Nat.le_refl _
  | cons p ps ih =>
      intro w
      have hstep := sweepStep_count_le (T := T) w p
      rw [List.length_cons, sweep]
      split
      · rename_i v hv
        rw [hv] at hstep
        exact hstep.trans (by omega)
      · rename_i v hv
        rw [hv] at hstep
        exact (ih v).trans (by dsimp only at hstep; omega)

/-- The first change point closes nothing. -/
theorem sweep_start_count_le (ps : List ChangePoint) :
    (sweep T .start ps).count ≤ ps.length - 1 := by
  cases ps with
  | nil => exact Nat.le_refl _
  | cons p ps =>
      have hfirst : (sweepStep T .start p).1.count = 0 := sweepStep_count_of_closed rfl p
      rw [sweep, List.length_cons, Nat.add_sub_cancel]
      split
      · rename_i v hv
        rw [hv] at hfirst
        exact hfirst ▸ Nat.zero_le _
      · rename_i v hv
        rw [hv] at hfirst
        have hrest := sweep_count_le (T := T) ps v
        rwa [hfirst, Nat.zero_add] at hrest

theorem changePoints_length_le (n : Nat) : ∀ ps, changePoints T n = some ps →
    ps.length ≤ 2 * n := by
  induction n with
  | zero =>
      intro ps h
      cases h
      exact Nat.le_refl _
  | succ n ih =>
      intro ps h
      rw [changePoints] at h
      cases hps : changePoints T n with
      | none => rw [hps] at h; cases h
      | some qs =>
          rw [hps] at h
          dsimp only at h
          have hqs := ih qs hps
          split at h
          · cases h
          · split at h
            · cases h
              rw [List.length_append, List.length_cons, List.length_cons, List.length_nil]
              omega
            · cases h
              omega

end Count

/-- **The output has room to spare** when the table has at most 128 entries. -/
theorem e820Sanitize_length_lt (hmax : table.length ≤ 128) (h : e820Sanitize table = some out) :
    out.length < e820MaxEntries := by
  rw [e820Sanitize] at h
  split at h
  · cases h
    decide
  · split at h
    · cases h
    · cases hps : changePoints (entriesOf table) table.length with
      | none => rw [hps] at h; cases h
      | some ps =>
          rw [hps] at h
          cases h
          have hlen := changePoints_length_le table.length ps hps
          have hsort : (sortPoints (entriesOf table) ps).length = ps.length :=
            (Lib.sortRight_perm ps).length_eq
          have hcount := sweep_start_count_le (T := entriesOf table)
            (sortPoints (entriesOf table) ps)
          rw [SweepState.finished, List.length_map, List.length_range]
          show _ < 256
          omega

/-! ## The backward search -/

theorem exists_covers_of_typeAt (h : typeAt table a ≠ 0) : ∃ e ∈ table, e.Covers a := by
  by_contra hnone
  exact h (typeAt_eq_zero fun e he hc => hnone ⟨e, he, hc⟩)

/-- In a tidy table the backward search ends at the highest RAM address. -/
theorem lastRamAddr_spec (htidy : Tidy out)
    (hwrap : ∀ x, typeAt out x = e820TypeRam → x + 1 < 2 ^ 64) (hram : typeAt out a = e820TypeRam) :
    ∃ last, lastRamAddr out = last + 1 ∧ IsGreatest {x | typeAt out x = e820TypeRam} last := by
  have hentry : ∀ x, typeAt out x = e820TypeRam → ∃ f ∈ out, f.Covers x ∧ f.type = e820TypeRam := by
    intro x hx
    obtain ⟨f, hf, hc⟩ := exists_covers_of_typeAt (a := x) (by rw [hx]; decide)
    exact ⟨f, hf, hc, by rw [← htidy.typeAt_eq hf hc, hx]⟩
  obtain ⟨f, hf, -, hft⟩ := hentry a hram
  cases hfind : out.reverse.find? fun e => decide (e.type = e820TypeRam) with
  | none =>
      have hno := List.find?_eq_none.mp hfind f (List.mem_reverse.mpr hf)
      exact absurd (decide_eq_true hft) hno
  | some e =>
      obtain ⟨htype, after, before, hsplit, hafter⟩ := List.find?_eq_some_iff_append.mp hfind
      have hout : out = before.reverse ++ e :: after.reverse := by
        rw [← List.reverse_reverse out, hsplit]
        simp
      have he : e ∈ out := by rw [hout]; simp
      have hsize := htidy.pos e he
      have hcov : e.Covers (e.stop - 1) := by
        rw [E820Entry.Covers, E820Entry.stop]
        omega
      have htop : typeAt out (e.stop - 1) = e820TypeRam :=
        (htidy.typeAt_eq he hcov).trans (of_decide_eq_true htype)
      have hstop : e.stop - 1 + 1 = e.stop := Nat.sub_add_cancel (Nat.lt_of_lt_of_le hsize
        (Nat.le_add_left _ _))
      refine ⟨e.stop - 1, ?_, htop, ?_⟩
      · have hlt := hwrap _ htop
        rw [hstop] at hlt ⊢
        rw [lastRamAddr, hfind]
        exact Nat.mod_eq_of_lt hlt
      · intro x hx
        obtain ⟨g, hg, hc, hgt⟩ := hentry x hx
        -- the entry that covers `x` is `e` or stands before it
        have hle : g.stop ≤ e.stop := by
          have hsorted := htidy.sorted
          rw [hout] at hg hsorted
          rcases List.mem_append.mp hg with hg | hg
          · have hbefore := (List.pairwise_append.mp hsorted).2.2 g hg e List.mem_cons_self
            exact hbefore.trans (Nat.le_add_right _ _)
          · rcases List.mem_cons.mp hg with rfl | hg
            · exact Nat.le_refl _
            · have hno := hafter g (List.mem_reverse.mp hg)
              rw [decide_eq_true hgt] at hno
              cases hno
        have hx := hc.2
        omega

/-! ## Acceptance -/

/-- `e820_init` on a table whose sanitized form denotes it. -/
theorem e820Init_spec (hmin : 2 ≤ table.length) (hmax : table.length ≤ 128)
    (hwrap : ∀ e ∈ table, e.addr + e.size < 2 ^ 64) (hram : typeAt table a = e820TypeRam) :
    ∃ out last, e820Init table = .ok (out, last + 1) ∧
      IsGreatest {x | typeAt table x = e820TypeRam} last := by
  obtain ⟨out, hout, hsan⟩ := e820Sanitize_spec hmin (hmax.trans (by decide)) hwrap
  have hall := hsan.everywhere (e820Sanitize_length_lt hmax hout)
  have hbound : ∀ x, typeAt out x = e820TypeRam → x + 1 < 2 ^ 64 := by
    intro x hx
    rw [hall] at hx
    obtain ⟨f, hf, hc⟩ := exists_covers_of_typeAt (a := x) (by rw [hx]; decide)
    exact Nat.lt_of_le_of_lt hc.2 (hwrap f hf)
  obtain ⟨last, hlast, hgreatest⟩ :=
    lastRamAddr_spec hsan.tidy hbound ((hall a).trans hram)
  refine ⟨out, last, ?_, ?_⟩
  · simp [e820Init, hout, hlast]
  · simpa only [hall] using hgreatest

/-- A table of one entry is not copied, and the search finds nothing. -/
theorem e820Init_short (h : table.length < 2) :
    e820Init table = .error "Failed to find last ram address\n" := by
  simp [e820Init, e820Sanitize, h, lastRamAddr]

/-- **Which usable maps `e820_init` accepts**: for every table of at most 128
entries without wrap in which some address is RAM (so of one entry at least),
it boots on with `last_ram_addr` one past the highest RAM address exactly when
the table has two entries or more. -/
theorem e820Init_accepts_iff (table : List E820Entry) (hmax : table.length ≤ 128)
    (hwrap : ∀ e ∈ table, e.addr + e.size < 2 ^ 64) (hram : ∃ a, typeAt table a = e820TypeRam) :
    (∃ out last, e820Init table = .ok (out, last + 1) ∧
      IsGreatest {x | typeAt table x = e820TypeRam} last) ↔ 2 ≤ table.length := by
  obtain ⟨a, ha⟩ := hram
  constructor
  · rintro ⟨out, last, hok, -⟩
    by_contra hshort
    rw [e820Init_short (Nat.not_le.mp hshort)] at hok
    cases hok
  · intro htwo
    exact e820Init_spec htwo hmax hwrap ha

/-- Low memory and the memory above 1 MiB, with a reserved hole between. -/
def twoRamTable : List E820Entry :=
  [⟨0x100000, 0x3ff00000, 1⟩, ⟨0, 0xa0000, 1⟩, ⟨0x9f000, 0x1000, 2⟩]

theorem e820Init_accepts_iff_twoRam :
    (∃ out last, e820Init twoRamTable = .ok (out, last + 1) ∧
      IsGreatest {x | typeAt twoRamTable x = e820TypeRam} last) ↔ 2 ≤ twoRamTable.length :=
  e820Init_accepts_iff twoRamTable (by decide) (by decide) ⟨0, by decide +kernel⟩

/-- One RAM entry of 1 GiB is all the firmware reports, and `e820_init`
panics. -/
theorem e820Init_rejects_single :
    ¬ ∀ table : List E820Entry, 1 ≤ table.length → table.length ≤ 128 →
      (∀ e ∈ table, e.addr + e.size < 2 ^ 64) → (∃ a, typeAt table a = e820TypeRam) →
      ∃ out last, e820Init table = .ok (out, last + 1) ∧
        IsGreatest {x | typeAt table x = e820TypeRam} last := by
  intro hall
  obtain ⟨out, last, hok, -⟩ := hall [⟨0, 0x40000000, 1⟩] (by decide) (by decide) (by decide)
    ⟨0, by decide +kernel⟩
  rw [e820Init_short (by decide)] at hok
  cases hok

end DevOS.Arch
