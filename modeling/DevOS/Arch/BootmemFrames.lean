import DevOS.Arch.BootmemLedger
import Mathlib.Data.List.Sort
import Mathlib.Data.Set.Card
import Mathlib.Order.Bounds.Basic

/-!
# Bootmem — the RAM that is left

The frames of RAM from an address on, listed entry by entry. On a sorted table
the list is ascending, both loops of `bootmem.c` walk down it (one takes its
head, the other a prefix of it), and the entries before `current_e820_entry`
add nothing to it. So bootmem fails only when the RAM that is left does not
suffice, and what it returns are the lowest frames that are left.
-/

namespace DevOS.Arch

variable {table es : List E820Entry} {e : E820Entry} {kernel : KernelImage} {lo f : Nat}

/-! ## The list of frames -/

/-- The number of the first frame that starts at or above `a`. -/
def firstFrame (a : Nat) : Nat := (a + pageSize - 1) / pageSize

/-- The whole frames of one entry from `lo` on, if it is RAM. -/
def E820Entry.framesFrom (lo : Nat) (e : E820Entry) : List Nat :=
  if e.type = e820TypeRam then
    List.range' (firstFrame (max lo e.addr)) (e.stop / pageSize - firstFrame (max lo e.addr))
  else []

/-- The whole frames of RAM from `lo` on, in the order of the table. -/
def framesFrom (lo : Nat) (es : List E820Entry) : List Nat := es.flatMap (·.framesFrom lo)

/-- The frames of RAM from `lo` on. -/
def ramFrames (table : List E820Entry) (lo : Nat) : Set Nat :=
  {f | InRam table lo (f * pageSize) pageSize}

theorem firstFrame_le_iff {a : Nat} : firstFrame a ≤ f ↔ a ≤ f * pageSize := by
  simp only [firstFrame, pageSize]
  omega

theorem E820Entry.mem_framesFrom : f ∈ e.framesFrom lo ↔
    e.type = e820TypeRam ∧ lo ≤ f * pageSize ∧ e.addr ≤ f * pageSize ∧
      f * pageSize + pageSize ≤ e.stop := by
  rw [E820Entry.framesFrom]
  split
  · rename_i hram
    have hfirst : firstFrame (max lo e.addr) ≤ f ↔ lo ≤ f * pageSize ∧ e.addr ≤ f * pageSize :=
      firstFrame_le_iff.trans max_le_iff
    have hlast : f < e.stop / pageSize ↔ f * pageSize + pageSize ≤ e.stop := by
      rw [Nat.lt_iff_add_one_le, Nat.le_div_iff_mul_le (by decide), Nat.add_one_mul]
    rw [List.mem_range'_1]
    constructor
    · intro h
      have h1 := hfirst.mp h.1
      exact ⟨hram, h1.1, h1.2, hlast.mp (by omega)⟩
    · intro h
      have h1 := hfirst.mpr ⟨h.2.1, h.2.2.1⟩
      have h2 := hlast.mpr h.2.2.2
      exact ⟨h1, by omega⟩
  · rename_i hram
    constructor
    · intro h
      cases h
    · intro h
      exact absurd h.1 hram

theorem mem_framesFrom : f ∈ framesFrom lo es ↔ f ∈ ramFrames es lo := by
  rw [framesFrom, List.mem_flatMap]
  constructor
  · rintro ⟨e, he, hf⟩
    obtain ⟨hram, hlo, haddr, hstop⟩ := E820Entry.mem_framesFrom.mp hf
    exact ⟨hlo, Nat.dvd_mul_left _ _, Nat.dvd_refl _, e, he, hram, haddr, hstop⟩
  · rintro ⟨hlo, -, -, e, he, hram, haddr, hstop⟩
    exact ⟨e, he, E820Entry.mem_framesFrom.mpr ⟨hram, hlo, haddr, hstop⟩⟩

theorem framesFrom_append (lo : Nat) (xs ys : List E820Entry) :
    framesFrom lo (xs ++ ys) = framesFrom lo xs ++ framesFrom lo ys :=
  List.flatMap_append

theorem framesFrom_cons (lo : Nat) (e : E820Entry) (es : List E820Entry) :
    framesFrom lo (e :: es) = e.framesFrom lo ++ framesFrom lo es :=
  List.flatMap_cons

/-- On a sorted table the list is ascending. -/
theorem framesFrom_sorted (lo : Nat) (hsorted : es.Pairwise fun e f => e.stop ≤ f.addr) :
    (framesFrom lo es).Pairwise (· < ·) := by
  induction es with
  | nil => exact List.Pairwise.nil
  | cons e es ih =>
      obtain ⟨he, hes⟩ := List.pairwise_cons.mp hsorted
      rw [framesFrom_cons, List.pairwise_append]
      refine ⟨?_, ih hes, ?_⟩
      · rw [E820Entry.framesFrom]
        split
        · exact List.pairwise_lt_range'
        · exact List.Pairwise.nil
      · intro f hf g hg
        obtain ⟨d, hd, hg⟩ := List.mem_flatMap.mp hg
        have h1 := (E820Entry.mem_framesFrom.mp hf).2.2.2
        have h2 := (E820Entry.mem_framesFrom.mp hg).2.2.1
        have h3 := he d hd
        unfold pageSize at h1 h2
        omega

/-- The list holds each frame of RAM once. -/
theorem framesFrom_ncard (lo : Nat) (hsorted : es.Pairwise fun e f => e.stop ≤ f.addr) :
    (ramFrames es lo).ncard = (framesFrom lo es).length := by
  have hset : ramFrames es lo = ((framesFrom lo es).toFinset : Set Nat) := by
    ext f
    rw [List.coe_toFinset]
    exact mem_framesFrom.symm
  have hnodup : (framesFrom lo es).Nodup := (framesFrom_sorted lo hsorted).imp Nat.ne_of_lt
  rw [hset, Set.ncard_coe_finset, List.toFinset_card_of_nodup hnodup]

theorem framesFrom_eq_nil (h : ∀ e ∈ es, ∀ f, f ∉ e.framesFrom lo) : framesFrom lo es = [] := by
  rw [framesFrom, List.flatMap_eq_nil_iff]
  intro e he
  exact List.eq_nil_iff_forall_not_mem.mpr (h e he)

/-- **What lies before the current entry is used up**: it ends where the
current entry starts, at or below `pool_end`. -/
theorem framesFrom_drop {i : Nat} (hsorted : table.Pairwise fun e f => e.stop ≤ f.addr)
    (he : table[i]? = some e) (haddr : e.addr ≤ lo) :
    framesFrom lo (table.drop i) = framesFrom lo table := by
  have hsplit : framesFrom lo table =
      framesFrom lo (table.take i) ++ framesFrom lo (table.drop i) := by
    rw [framesFrom, framesFrom, framesFrom, ← List.flatMap_append, List.take_append_drop]
  have hbefore : framesFrom lo (table.take i) = [] := by
    refine framesFrom_eq_nil fun d hd f hf => ?_
    have hmem : e ∈ table.drop i := by
      rw [List.mem_iff_getElem?]
      exact ⟨0, by rw [List.getElem?_drop]; exact he⟩
    rw [← List.take_append_drop i table] at hsorted
    have hle : d.stop ≤ e.addr := (List.pairwise_append.mp hsorted).2.2 d hd e hmem
    obtain ⟨-, h1, -, h2⟩ := E820Entry.mem_framesFrom.mp hf
    unfold pageSize at h1 h2
    omega
  rw [hsplit, hbefore, List.nil_append]

/-- Moving the start up within the page that an entry at or below all others
starts in loses no frame. -/
theorem framesFrom_moveUp {a : Nat} (h : ∀ d ∈ es, a ≤ d.addr) :
    framesFrom (max lo (firstFrame a * pageSize)) es = framesFrom lo es := by
  refine List.flatMap_congr fun d hd => ?_
  have ha := h d hd
  have hfirst : firstFrame (max (max lo (firstFrame a * pageSize)) d.addr) =
      firstFrame (max lo d.addr) := by
    simp only [firstFrame, pageSize]
    omega
  rw [E820Entry.framesFrom, E820Entry.framesFrom, hfirst]

/-! ## The page search -/

theorem framesFrom_of_not_ram (hram : e.type ≠ e820TypeRam) : e.framesFrom lo = [] := if_neg hram

/-- The candidate address in an entry is its first frame from the old one on. -/
theorem moveUp_eq {allocation addr : Nat} (hdvd : pageSize ∣ allocation)
    (haddr : addr ≤ 2 ^ 52) :
    (if allocation < addr then roundUp addr pageSize else allocation) =
        firstFrame (max allocation addr) * pageSize ∧
      firstFrame (max allocation addr) * pageSize =
        max allocation (firstFrame addr * pageSize) := by
  obtain ⟨k, rfl⟩ := hdvd
  constructor
  · split
    · simp only [firstFrame, roundUp, pageSize] at *
      omega
    · simp only [firstFrame, pageSize] at *
      omega
  · simp only [firstFrame, pageSize]
    omega

/-- **The page search takes the head of the list.** -/
theorem findPage_eq : ∀ (es : List E820Entry) (i allocation : Nat), RamBelow es →
    (es.Pairwise fun e f => e.stop ≤ f.addr) → pageSize ∣ allocation → allocation ≤ 2 ^ 52 →
    (findPage i allocation es).map Prod.fst =
      (framesFrom allocation es).head?.map (· * pageSize) := by
  intro es
  induction es with
  | nil => intro i allocation _ _ _ _; rfl
  | cons e es ih =>
      intro i allocation hram hsorted hdvd hle
      obtain ⟨hbelow, hes⟩ := List.pairwise_cons.mp hsorted
      rw [findPage, framesFrom_cons]
      split
      · rename_i htype
        rw [framesFrom_of_not_ram htype, List.nil_append]
        exact ih _ _ hram.tail hes hdvd hle
      · rename_i htype
        have htype' : e.type = e820TypeRam := not_not.mp htype
        have hstop := hram e List.mem_cons_self htype'
        have haddr : e.addr ≤ 2 ^ 52 := (Nat.le_add_right _ _).trans hstop
        obtain ⟨hcand, hmax⟩ := moveUp_eq hdvd haddr
        obtain ⟨-, hge, hcdvd, hcle⟩ := moveUp_spec hdvd hle haddr rfl
        rw [hcand] at hge hcdvd hcle
        have hframes : e.framesFrom allocation = List.range' (firstFrame (max allocation e.addr))
            (e.stop / pageSize - firstFrame (max allocation e.addr)) := if_pos htype'
        dsimp only
        rw [hcand, hram.end64_eq List.mem_cons_self htype', Nat.mod_eq_of_lt (by
          simp only [pageSize] at hcle ⊢; omega), hframes]
        split
        · -- no whole frame in this entry: the candidate moves on with no loss
          rename_i hfull
          have hnone : e.stop / pageSize - firstFrame (max allocation e.addr) = 0 := by
            simp only [pageSize] at hfull ⊢
            omega
          rw [hnone, List.range'_zero, List.nil_append, ih _ _ hram.tail hes hcdvd hcle, hmax,
            framesFrom_moveUp fun d hd => (Nat.le_add_right _ _).trans (hbelow d hd)]
        · rename_i hfits
          have hsome : e.stop / pageSize - firstFrame (max allocation e.addr) =
              e.stop / pageSize - firstFrame (max allocation e.addr) - 1 + 1 := by
            simp only [pageSize] at hfits ⊢
            omega
          rw [hsome, List.range'_succ]
          rfl

/-! ## The segment search -/

/-- The usable part of a RAM entry is its list of frames. -/
theorem usableRange_eq {poolEnd : Nat} (htype : e.type = e820TypeRam) (hstop : e.stop ≤ 2 ^ 52)
    (hend : e.end64 = e.stop) (hpool : poolEnd ≤ 2 ^ 52) :
    match usableRange poolEnd e with
    | none => e.framesFrom poolEnd = []
    | some (start, stop) =>
        e.framesFrom poolEnd = List.range' (start / pageSize) ((stop - start) / pageSize) := by
  have haddr : e.addr ≤ 2 ^ 52 := (Nat.le_add_right _ _).trans hstop
  have hlow : (if poolEnd > e.addr then poolEnd else e.addr) = max poolEnd e.addr := by
    split
    · omega
    · omega
  have hup : roundUp (max poolEnd e.addr) pageSize =
      firstFrame (max poolEnd e.addr) * pageSize := by
    simp only [roundUp, firstFrame, pageSize]
    omega
  have hframes : e.framesFrom poolEnd = List.range' (firstFrame (max poolEnd e.addr))
      (e.stop / pageSize - firstFrame (max poolEnd e.addr)) := if_pos htype
  rw [usableRange, hlow, hup, hend, hframes]
  generalize firstFrame (max poolEnd e.addr) = first
  split
  · rename_i hout
    split at hout
    · rename_i hge
      have hnone : e.stop / pageSize - first = 0 := by
        simp only [roundDown, pageSize] at hge ⊢
        omega
      rw [hnone, List.range'_zero]
    · cases hout
  · rename_i start stop hout
    split at hout
    · cases hout
    · cases hout
      have h1 : first * pageSize / pageSize = first := Nat.mul_div_cancel _ (by decide)
      have h2 : (roundDown e.stop pageSize - first * pageSize) / pageSize =
          e.stop / pageSize - first := by
        simp only [roundDown, pageSize]
        omega
      rw [h1, h2]

/-- The number of pages of a segment cut from an entry: as many as are asked
for, or all there are. -/
theorem cut_pages {start stop n : Nat} (hstart : pageSize ∣ start) (hstop : pageSize ∣ stop) :
    (if start + n * pageSize < stop then start + n * pageSize else stop) - start =
      min n ((stop - start) / pageSize) * pageSize := by
  obtain ⟨a, rfl⟩ := hstart
  obtain ⟨b, rfl⟩ := hstop
  split
  · simp only [pageSize] at *
    omega
  · simp only [pageSize] at *
    omega

/-- The same on `size_t`. -/
theorem cut_size {start stop n : Nat} (hstart : pageSize ∣ start) (hstop : pageSize ∣ stop)
    (hlt : start < stop) (hword : stop < 2 ^ 64) :
    ((if start + n * pageSize < stop then start + n * pageSize else stop) + 2 ^ 64 - start) %
      2 ^ 64 = min n ((stop - start) / pageSize) * pageSize := by
  rw [sub_size (by split <;> omega) (by split <;> omega), cut_pages hstart hstop]

theorem take_range' (first m n : Nat) :
    (List.range' first m).take n = List.range' first (min n m) := by
  rcases Nat.le_total n m with h | h
  · rw [Nat.min_eq_left h, List.take_range'_of_length_ge h]
  · rw [Nat.min_eq_right h, List.take_range'_of_length_le h]

/-- What a search for `n` frames in a list of frames must return: a prefix of
the list, or nothing when the list is too short. -/
def TakesPrefix (n : Nat) (frames : List Nat) : Option (List AllocSegment × Nat × Nat) → Prop
  | none => frames.length < n
  | some (segments, _) =>
      n ≤ frames.length ∧ segments.flatMap AllocSegment.frames = frames.take n

/-- **The segment search takes a prefix of the list**, and fails when the list
is too short. -/
theorem findSegments_eq {poolEnd bytes : Nat} (hpool : poolEnd ≤ 2 ^ 52) (hbound : bytes < 2 ^ 52) :
    ∀ (es : List E820Entry) (i allocated n : Nat), RamBelow es → 0 < n →
    allocated + n * pageSize = bytes →
    TakesPrefix n (framesFrom poolEnd es) (findSegments poolEnd bytes i allocated es) := by
  intro es
  induction es with
  | nil =>
      intro i allocated n _ hpos _
      exact hpos
  | cons e es ih =>
      intro i allocated n hram hpos hn
      rw [findSegments, framesFrom_cons]
      by_cases htype : e.type ≠ e820TypeRam
      · rw [if_pos htype, framesFrom_of_not_ram htype, List.nil_append]
        exact ih _ _ _ hram.tail hpos hn
      · rw [if_neg htype]
        have htype' : e.type = e820TypeRam := not_not.mp htype
        have hstop := hram e List.mem_cons_self htype'
        have hend := hram.end64_eq List.mem_cons_self htype'
        have hframes := usableRange_eq htype' hstop hend hpool
        cases hrange : usableRange poolEnd e with
        | none =>
            rw [hrange] at hframes
            dsimp only at hframes ⊢
            rw [hframes, List.nil_append]
            exact ih _ _ _ hram.tail hpos hn
        | some range =>
            obtain ⟨start, stop⟩ := range
            rw [hrange] at hframes
            obtain ⟨-, -, hsdvd, hlt, hedvd, hle⟩ := usableRange_spec hstop hend hpool hrange
            have hrem : (bytes + 2 ^ 64 - allocated) % 2 ^ 64 = n * pageSize := by omega
            have hwrap : (start + n * pageSize) % 2 ^ 64 = start + n * pageSize :=
              Nat.mod_eq_of_lt (by omega)
            dsimp only at hframes ⊢
            rw [hrem, hwrap, cut_size hsdvd hedvd hlt (by omega), hframes]
            generalize (stop - start) / pageSize = m
            have hsum : (allocated + min n m * pageSize) % 2 ^ 64 =
                allocated + min n m * pageSize := by
              have := Nat.mul_le_mul_right pageSize (Nat.min_le_left n m)
              exact Nat.mod_eq_of_lt (by omega)
            rw [hsum]
            have hsegment : (AllocSegment.mk start (min n m * pageSize)).frames =
                (List.range' (start / pageSize) m).take n := by
              rw [take_range', AllocSegment.frames, Nat.mul_div_cancel _ (by decide)]
            have hlength : (List.range' (start / pageSize) m).length = m := List.length_range'
            generalize List.range' (start / pageSize) m = head at hsegment hlength ⊢
            by_cases hmore : allocated + min n m * pageSize < bytes
            · -- the entry is used up and more is needed
              rw [if_pos hmore]
              have hmn : m < n := by
                rw [← hn] at hmore
                have := Nat.lt_of_mul_lt_mul_right (Nat.lt_of_add_lt_add_left hmore)
                omega
              have hmin : min n m = m := Nat.min_eq_right hmn.le
              rw [hmin] at hsegment ⊢
              have hrest := ih (i + 1) (allocated + m * pageSize) (n - m) hram.tail (by omega)
                (by rw [← hn, Nat.sub_mul]; have := Nat.mul_le_mul_right pageSize hmn.le; omega)
              cases hrec : findSegments poolEnd bytes (i + 1) (allocated + m * pageSize) es with
              | none =>
                  rw [hrec] at hrest
                  have hshort : (framesFrom poolEnd es).length < n - m := hrest
                  show (head ++ framesFrom poolEnd es).length < n
                  rw [List.length_append]
                  omega
              | some found =>
                  obtain ⟨segments, last⟩ := found
                  rw [hrec] at hrest
                  obtain ⟨hlong, htake⟩ := hrest
                  refine ⟨?_, ?_⟩
                  · rw [List.length_append]
                    omega
                  · rw [List.flatMap_cons, hsegment, htake, List.take_append, hlength]
            · rw [if_neg hmore]
              have hnm : n ≤ m := by
                by_contra hmn
                rw [Nat.min_eq_right (Nat.le_of_not_le hmn), ← hn] at hmore
                have := Nat.mul_lt_mul_of_pos_right (Nat.not_le.mp hmn)
                  (show 0 < pageSize by decide)
                omega
              refine ⟨?_, ?_⟩
              · rw [List.length_append]
                omega
              · rw [List.flatMap_singleton, hsegment, List.take_append_of_le_length (by omega)]

/-! ## The calls -/

/-- Once the head is handed out, the rest of the list is what is left. -/
theorem framesFrom_tail {rest : List Nat} (hsorted : table.Pairwise fun e f => e.stop ≤ f.addr)
    (h : framesFrom lo table = f :: rest) :
    framesFrom (f * pageSize + pageSize) table = rest := by
  have hhead := framesFrom_sorted lo hsorted
  rw [h] at hhead
  obtain ⟨hfirst, hrest⟩ := List.pairwise_cons.mp hhead
  refine (framesFrom_sorted _ hsorted).eq_of_mem_iff hrest fun g => ?_
  have hmem : g ∈ ramFrames table lo ↔ g ∈ f :: rest := by rw [← mem_framesFrom, h]
  have hf : f ∈ ramFrames table lo := by rw [← mem_framesFrom, h]; exact List.mem_cons_self
  have hlo : lo ≤ f * pageSize := InRam.lower hf
  rw [mem_framesFrom]
  constructor
  · rintro ⟨hg, h1, h2, h3⟩
    rcases List.mem_cons.mp (hmem.mp ⟨by omega, h1, h2, h3⟩) with rfl | hr
    · simp only [pageSize] at hg
      omega
    · exact hr
  · intro hr
    obtain ⟨-, h1, h2, h3⟩ := hmem.mpr (List.mem_cons_of_mem _ hr)
    have hlt := hfirst g hr
    refine ⟨?_, h1, h2, h3⟩
    simp only [pageSize]
    omega

/-- Past a frame that is left, those after it are left. -/
theorem framesFrom_after {rest : List Nat} (hsorted : table.Pairwise fun e f => e.stop ≤ f.addr)
    (before : List Nat) : ∀ {lo : Nat}, framesFrom lo table = before ++ f :: rest →
      framesFrom (f * pageSize + pageSize) table = rest := by
  induction before with
  | nil => exact fun h => framesFrom_tail hsorted h
  | cons g before ih => exact fun h => ih (framesFrom_tail hsorted h)

/-- The search ends with the last segment. -/
theorem findSegments_last {poolEnd bytes : Nat} (hpool : poolEnd ≤ 2 ^ 52)
    (hbytes : pageSize ∣ bytes) (hbound : bytes < 2 ^ 52) :
    ∀ (es : List E820Entry) (i allocated : Nat), RamBelow es → pageSize ∣ allocated →
    allocated < bytes → ∀ {segments : List AllocSegment} {last j : Nat},
    findSegments poolEnd bytes i allocated es = some (segments, last, j) →
    ∃ before g, segments = before ++ [g] ∧ g.stop = last := by
  intro es
  induction es with
  | nil => intro i allocated _ _ _ segments last j h; cases h
  | cons e es ih =>
      intro i allocated hram hdvd hlt segments last j h
      obtain hrest | ⟨start, cut, hcut, hround⟩ :=
        findSegments_cons hpool hbytes hbound hram hdvd hlt h
      · exact ih (i + 1) allocated hram.tail hdvd hlt hrest
      · have hdvd' : pageSize ∣ cut - start := Nat.dvd_sub hcut.cut_dvd hcut.start_dvd
        obtain ⟨segments', rfl, hmore, hrec⟩ | ⟨-, rfl, rfl, -⟩ := hround
        · obtain ⟨before, g, rfl, hstop⟩ := ih (i + 1) _ hram.tail
            (Nat.dvd_add hdvd hdvd') hmore hrec
          exact ⟨_ :: before, g, rfl, hstop⟩
        · exact ⟨[], _, rfl, Nat.add_sub_cancel' hcut.lt.le⟩

/-- The frames of a segment end where it does. -/
theorem AllocSegment.frames_last {g : AllocSegment} (hstart : pageSize ∣ g.start)
    (hsize : pageSize ∣ g.size) (hpos : 0 < g.size) :
    ∃ before f, g.frames = before ++ [f] ∧ f * pageSize + pageSize = g.stop := by
  obtain ⟨a, ha⟩ := hstart
  obtain ⟨n, hn⟩ := hsize
  have hn0 : n ≠ 0 := by
    rintro rfl
    omega
  obtain ⟨m, rfl⟩ := Nat.exists_eq_succ_of_ne_zero hn0
  refine ⟨List.range' a m, a + m, ?_, ?_⟩
  · rw [AllocSegment.frames, ha, hn, Nat.mul_div_cancel_left _ (by decide),
      Nat.mul_div_cancel_left _ (by decide), List.range'_1_concat]
  · rw [AllocSegment.stop, ha, hn]
    unfold pageSize
    omega

theorem roundUp_of_dvd {a : Nat} (ha : a ≤ 2 ^ 52) (hdvd : pageSize ∣ a) :
    roundUp a pageSize = a := by
  obtain ⟨k, rfl⟩ := hdvd
  simp only [roundUp, pageSize] at *
  omega

section Calls

variable {s : Pool} (h : PoolInv kernel table s)
  (hsorted : table.Pairwise fun e f => e.stop ≤ f.addr)

include h hsorted

/-- What is left for a pool is left in the entries from the current one on. -/
theorem PoolInv.framesFrom_drop :
    framesFrom s.bootmem.poolEnd (table.drop s.bootmem.currentE820Entry) =
      framesFrom s.bootmem.poolEnd table := by
  obtain ⟨e, he, haddr⟩ := h.entry
  exact Arch.framesFrom_drop hsorted he haddr

variable (hram : RamBelow table)

include hram

/-- **A page call takes the lowest frame that is left**, and fails when none
is. -/
theorem PoolInv.page_eq :
    (framesFrom s.bootmem.poolEnd table = [] ∧
      bootmemAllocPagePhys table s.bootmem = .ok (0, s.bootmem)) ∨
    ∃ f rest b, framesFrom s.bootmem.poolEnd table = f :: rest ∧ 0 < f ∧
      bootmemAllocPagePhys table s.bootmem = .ok (f * pageSize, b) ∧
      framesFrom b.poolEnd table = rest := by
  have hfind := findPage_eq (table.drop s.bootmem.currentE820Entry) s.bootmem.currentE820Entry
    s.bootmem.poolEnd (hram.drop _) (hsorted.sublist (List.drop_sublist _ _)) h.aligned h.bounded
  rw [h.framesFrom_drop hsorted] at hfind
  have hcall := h.allocPagePhys_eq
  rw [roundUp_of_dvd h.bounded h.aligned] at hcall
  cases hleft : framesFrom s.bootmem.poolEnd table with
  | nil =>
      rw [hleft] at hfind
      rw [Option.map_eq_none_iff.mp hfind] at hcall
      exact .inl ⟨rfl, hcall⟩
  | cons f rest =>
      rw [hleft] at hfind
      obtain ⟨⟨phys, j⟩, hfound, hphys⟩ := Option.map_eq_some_iff.mp hfind
      have hphys : phys = f * pageSize := hphys
      rw [hfound, hphys] at hcall
      have hf : f ∈ ramFrames table s.bootmem.poolEnd := by
        rw [← mem_framesFrom, hleft]
        exact List.mem_cons_self
      obtain ⟨hlo, -, -, e, he, htype, -, hstop⟩ := hf
      have hle := hstop.trans (hram e he htype)
      refine .inr ⟨f, rest, _, rfl, ?_, hcall, ?_⟩
      · -- the kernel lies below the pool
        have habove := h.above.trans h.grown
        have hkernel : kernelPhys ≤ kernel.kernelEnd := Nat.le_add_right _ _
        simp only [kernelPhys, pageSize] at *
        omega
      · dsimp only
        rw [Nat.mod_eq_of_lt (Nat.lt_of_le_of_lt hle (by decide))]
        exact framesFrom_tail hsorted hleft

/-- **A request takes the lowest frames that are left**, and fails when they
are too few. -/
theorem PoolInv.alloc_eq {n : Nat} (hn : 0 < n) (hbound : n * pageSize < 2 ^ 52) :
    ((framesFrom s.bootmem.poolEnd table).length < n ∧
      bootmemAlloc table (n * pageSize) s.bootmem = ([], s.bootmem)) ∨
    ∃ segments b, n ≤ (framesFrom s.bootmem.poolEnd table).length ∧
      bootmemAlloc table (n * pageSize) s.bootmem = (segments, b) ∧
      segments.flatMap AllocSegment.frames = (framesFrom s.bootmem.poolEnd table).take n ∧
      Chained segments (n * pageSize) ∧
      (∀ g ∈ segments, InRam table s.bootmem.poolEnd g.start g.size) ∧
      framesFrom b.poolEnd table = (framesFrom s.bootmem.poolEnd table).drop n := by
  have hfind := findSegments_eq h.bounded hbound (table.drop s.bootmem.currentE820Entry)
    s.bootmem.currentE820Entry 0 n (hram.drop _) hn (Nat.zero_add _)
  rw [h.framesFrom_drop hsorted] at hfind
  have hbytes : ¬ n * pageSize = 0 := Nat.mul_ne_zero (Nat.pos_iff_ne_zero.mp hn) (by decide)
  rw [bootmemAlloc, if_neg (not_not.mpr h.enabled), if_neg hbytes]
  cases hfound : findSegments s.bootmem.poolEnd (n * pageSize) s.bootmem.currentE820Entry 0
      (table.drop s.bootmem.currentE820Entry) with
  | none =>
      rw [hfound] at hfind
      exact .inl ⟨hfind, rfl⟩
  | some found =>
      obtain ⟨segments, last, j⟩ := found
      rw [hfound] at hfind
      have hdvd : pageSize ∣ n * pageSize := Nat.dvd_mul_left _ _
      have hdrop := hsorted.sublist (List.drop_sublist s.bootmem.currentE820Entry table)
      have hchained := findSegments_chained h.bounded hdvd hbound _ _ _ (hram.drop _) hdrop
        (Nat.dvd_zero _) (Nat.pos_of_ne_zero hbytes) hfound
      have hspec := findSegments_spec h.bounded hdvd hbound _ _ _ (hram.drop _) hdrop
        (Nat.dvd_zero _) (Nat.pos_of_ne_zero hbytes) hfound
      refine .inr ⟨segments, _, hfind.1, rfl, hfind.2, hchained, fun g hg => ?_, ?_⟩
      · obtain ⟨h1, h2, h3, e, he, h4⟩ := (hspec.inRam g hg).1
        exact ⟨h1, h2, h3, e, List.mem_of_mem_drop he, h4⟩
      · obtain ⟨before, g, rfl, rfl⟩ := findSegments_last h.bounded hdvd hbound _ _ _ (hram.drop _)
          (Nat.dvd_zero _) (Nat.pos_of_ne_zero hbytes) hfound
        have hg : g ∈ before ++ [g] := by simp
        have hin := (hspec.inRam g hg).1
        obtain ⟨init, f, hframes, hstop⟩ :=
          AllocSegment.frames_last hin.start_dvd hin.size_dvd (hchained.pos g hg)
        -- the last frame that was taken, then those that are left
        have hsplit : framesFrom s.bootmem.poolEnd table =
            before.flatMap AllocSegment.frames ++ init ++
              f :: (framesFrom s.bootmem.poolEnd table).drop n := by
          have htaken := hfind.2
          rw [List.flatMap_append, List.flatMap_singleton, hframes] at htaken
          conv_lhs => rw [← List.take_append_drop n (framesFrom s.bootmem.poolEnd table), ← htaken]
          simp
        rw [← hstop]
        exact framesFrom_after hsorted _ hsplit

end Calls

/-! ## Bootmem fails only when it must -/

end DevOS.Arch
