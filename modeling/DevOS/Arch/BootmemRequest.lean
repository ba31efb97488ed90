import DevOS.Arch.BootmemMapped
import DevOS.Arch.VmmEarly
import DevOS.Arch.VmmNeeds

/-!
# Bootmem — all or nothing

Of the results of `vmm_map` for its segments `bootmem_alloc_mapped` keeps the
last one only, so a segment that could not be mapped goes unnoticed when a later
one can. Each segment but the last is an E820 entry that the request uses up;
where those find their tables and no page table in their slots, the call is all
or nothing.
-/

namespace DevOS.Arch

open DevOS.Lib

variable {kernel : KernelImage} {table : List E820Entry}

/-! ## What a request uses up -/

/-- The pages of an entry as a segment. -/
def E820Entry.segment (lo : Nat) (e : E820Entry) : AllocSegment :=
  ⟨(e.framesFrom lo).headD 0 * pageSize, (e.framesFrom lo).length * pageSize⟩

/-- An entry that a request for `n` pages uses up and does not end in; `before`
are the entries below it. -/
structure UsedUp (es : List E820Entry) (lo n : Nat) (before : List E820Entry) (e : E820Entry) :
    Prop where
  entry : before ++ [e] <+: es
  some : e.framesFrom lo ≠ []
  short : (framesFrom lo (before ++ [e])).length < n

theorem UsedUp.cons {es before : List E820Entry} {d e : E820Entry} {lo n : Nat}
    (h : UsedUp es lo n before d) :
    UsedUp (e :: es) lo ((e.framesFrom lo).length + n) (e :: before) d := by
  refine ⟨List.cons_prefix_cons.mpr ⟨rfl, h.entry⟩, h.some, ?_⟩
  rw [List.cons_append, framesFrom_cons, List.length_append]
  exact Nat.add_lt_add_left h.short _

/-- **Every segment but the last** is an entry that the request uses up. -/
theorem findSegments_usedUp {poolEnd bytes : Nat} (hpool : poolEnd ≤ 2 ^ 52)
    (hbound : bytes < 2 ^ 52) :
    ∀ (es : List E820Entry) (i allocated n : Nat), RamBelow es → allocated + n * pageSize = bytes →
    ∀ {segments : List AllocSegment} {last : Nat × Nat},
    findSegments poolEnd bytes i allocated es = some (segments, last) →
    ∀ pre g post, segments = pre ++ g :: post → post ≠ [] →
      ∃ before e, UsedUp es poolEnd n before e ∧ g = e.segment poolEnd ∧
        totalBytes pre = (framesFrom poolEnd before).length * pageSize := by
  intro es
  induction es with
  | nil => exact fun _ _ _ _ _ _ _ h => nomatch h
  | cons e es ih =>
      intro i allocated n hram hn segments last h pre g post hsplit hpost
      -- an entry with no page left is passed over
      have hskip : e.framesFrom poolEnd = [] →
          findSegments poolEnd bytes (i + 1) allocated es = some (segments, last) →
          ∃ before d, UsedUp (e :: es) poolEnd n before d ∧ g = d.segment poolEnd ∧
            totalBytes pre = (framesFrom poolEnd before).length * pageSize := by
        intro hnil hrest
        obtain ⟨before, d, hused, hg, hpre⟩ := ih _ _ n hram.tail hn hrest pre g post hsplit hpost
        have hcons := hused.cons (e := e)
        rw [hnil, List.length_nil, Nat.zero_add] at hcons
        refine ⟨e :: before, d, hcons, hg, ?_⟩
        rw [hpre, framesFrom_cons, hnil, List.nil_append]
      rw [findSegments] at h
      by_cases htype : e.type ≠ e820TypeRam
      · rw [if_pos htype] at h
        exact hskip (framesFrom_of_not_ram htype) h
      · rw [if_neg htype] at h
        have htype' : e.type = e820TypeRam := not_not.mp htype
        have hstop := hram e List.mem_cons_self htype'
        have hend := hram.end64_eq List.mem_cons_self htype'
        have hframes := usableRange_eq htype' hstop hend hpool
        cases hrange : usableRange poolEnd e with
        | none =>
            rw [hrange] at hframes h
            exact hskip hframes h
        | some range =>
            obtain ⟨start, stop⟩ := range
            rw [hrange] at hframes h
            obtain ⟨-, -, hsdvd, hlt, hedvd, hle⟩ := usableRange_spec hstop hend hpool hrange
            have hrem : (bytes + 2 ^ 64 - allocated) % 2 ^ 64 = n * pageSize := by omega
            have hwrap : (start + n * pageSize) % 2 ^ 64 = start + n * pageSize :=
              Nat.mod_eq_of_lt (by omega)
            dsimp only at hframes h
            rw [hrem, hwrap, cut_size hsdvd hedvd hlt (by omega)] at h
            have hm : 0 < (stop - start) / pageSize := by
              obtain ⟨a, rfl⟩ := hsdvd
              obtain ⟨b, rfl⟩ := hedvd
              simp only [pageSize] at *
              omega
            generalize (stop - start) / pageSize = m at hframes h hm
            have hsize : (allocated + min n m * pageSize) % 2 ^ 64 =
                allocated + min n m * pageSize := by
              have := Nat.mul_le_mul_right pageSize (Nat.min_le_left n m)
              exact Nat.mod_eq_of_lt (by omega)
            rw [hsize] at h
            have hlength : (e.framesFrom poolEnd).length = m := by
              rw [hframes, List.length_range']
            split at h
            · -- the entry is used up and more is needed
              rename_i hmore
              have hmn : m < n := by
                rw [← hn] at hmore
                have := Nat.lt_of_mul_lt_mul_right (Nat.lt_of_add_lt_add_left hmore)
                omega
              rw [Nat.min_eq_right hmn.le] at h
              have hsegment : e.segment poolEnd = ⟨start, m * pageSize⟩ := by
                rw [E820Entry.segment, hlength, hframes]
                obtain ⟨k, rfl⟩ := Nat.exists_eq_add_of_lt hm
                rw [Nat.zero_add, List.range'_succ, List.headD_cons, Nat.div_mul_cancel hsdvd]
              cases hrest : findSegments poolEnd bytes (i + 1) (allocated + m * pageSize) es with
              | none =>
                  rw [hrest] at h
                  cases h
              | some found =>
                  obtain ⟨rest, last'⟩ := found
                  rw [hrest] at h
                  cases h
                  cases pre with
                  | nil =>
                      obtain ⟨rfl, -⟩ := List.cons.inj hsplit
                      refine ⟨[], e, ⟨List.cons_prefix_cons.mpr ⟨rfl, List.nil_prefix⟩, ?_, ?_⟩,
                        hsegment.symm, (Nat.zero_mul pageSize).symm⟩
                      · exact fun hnil => by simp [hnil] at hlength; omega
                      · rw [List.nil_append, framesFrom_cons, List.length_append, hlength]
                        exact hmn
                  | cons g' pre =>
                      obtain ⟨rfl, htail⟩ := List.cons.inj hsplit
                      have hsum : allocated + m * pageSize + (n - m) * pageSize = bytes := by
                        rw [Nat.add_assoc, ← Nat.add_mul, Nat.add_sub_cancel' hmn.le, hn]
                      obtain ⟨before, d, hused, hg, hpre⟩ :=
                        ih _ _ (n - m) hram.tail hsum hrest pre g post htail hpost
                      have hcons := hused.cons (e := e)
                      rw [hlength, Nat.add_sub_cancel' hmn.le] at hcons
                      refine ⟨e :: before, d, hcons, hg, ?_⟩
                      rw [framesFrom_cons, List.length_append, hlength, Nat.add_mul, ← hpre]
                      rfl
            · cases h
              have hone := congrArg List.length hsplit
              have hpos := List.length_pos_iff.mpr hpost
              simp only [List.length_append, List.length_cons, List.length_nil] at hone
              omega

/-- Every segment but the last of a request on a live pool. -/
theorem PoolInv.alloc_usedUp {b : Bootmem} (h : PoolInv kernel table ⟨b, []⟩)
    (hsorted : table.Pairwise fun e f => e.stop ≤ f.addr) (hram : RamBelow table) {n : Nat}
    (hbound : n * pageSize < 2 ^ 52) {pre post : List AllocSegment} {g : AllocSegment}
    (hsplit : (bootmemAlloc table (n * pageSize) b).1 = pre ++ g :: post) (hpost : post ≠ []) :
    ∃ before e, UsedUp table b.poolEnd n before e ∧ g = e.segment b.poolEnd ∧
      totalBytes pre = (framesFrom b.poolEnd before).length * pageSize := by
  -- the entries before the current one have no page above the pool
  have hpassed : framesFrom b.poolEnd (table.take b.currentE820Entry) = [] := by
    have hall := framesFrom_append b.poolEnd (table.take b.currentE820Entry)
      (table.drop b.currentE820Entry)
    have hrest : framesFrom b.poolEnd (table.drop b.currentE820Entry) =
        framesFrom b.poolEnd table := h.framesFrom_drop hsorted
    rw [List.take_append_drop, hrest] at hall
    exact List.self_eq_append_left.mp hall
  rcases bootmemAlloc_cases table h.enabled (n * pageSize) with
    hnone | ⟨segments, last, j, -, hfind, hcall⟩
  · rw [show bootmemAlloc table (n * pageSize) b = ([], b) from hnone] at hsplit
    simp at hsplit
  · rw [show bootmemAlloc table (n * pageSize) b = _ from hcall] at hsplit
    have hdrop : RamBelow (table.drop b.currentE820Entry) := fun e he =>
      hram e (List.drop_subset _ _ he)
    obtain ⟨before, e, hused, hg, hpre⟩ := findSegments_usedUp h.bounded hbound _ _ 0 n hdrop
      (Nat.zero_add _) hfind pre g post hsplit hpost
    refine ⟨table.take b.currentE820Entry ++ before, e, ⟨?_, hused.some, ?_⟩, hg, ?_⟩
    · rw [List.append_assoc]
      have hentry := (List.prefix_append_right_inj (table.take b.currentE820Entry)).mpr hused.entry
      rwa [List.take_append_drop] at hentry
    · rw [List.append_assoc, framesFrom_append, hpassed, List.nil_append]
      exact hused.short
    · rw [framesFrom_append, hpassed, List.nil_append]
      exact hpre

/-! ## Mapping the segments -/

section Segments

/-- Where the bytes of a request lie, by the frames of its segments. -/
def frameAddr (frames : List Nat) (virt a : Nat) : Nat :=
  frames[(a - virt) / pageSize]?.getD 0 * pageSize + (a - virt) % pageSize

theorem frames_length : ∀ (segments : List AllocSegment), (∀ g ∈ segments, pageSize ∣ g.size) →
    (segments.flatMap AllocSegment.frames).length * pageSize = totalBytes segments
  | [], _ => Nat.zero_mul pageSize
  | g :: gs, h => by
      have hlen : g.frames.length * pageSize = g.size := by
        rw [AllocSegment.frames, List.length_range', Nat.div_mul_cancel (h g List.mem_cons_self)]
      rw [List.flatMap_cons, List.length_append, Nat.add_mul, hlen,
        frames_length gs fun d hd => h d (List.mem_cons_of_mem g hd)]
      rfl

/-- The bytes of one segment. -/
theorem frameAddr_segment {pre post : List AllocSegment} {g : AllocSegment} {virt a : Nat}
    (hsize : ∀ d ∈ pre ++ g :: post, pageSize ∣ d.size) (hstart : pageSize ∣ g.start)
    (h1 : virt + totalBytes pre ≤ a) (h2 : a < virt + totalBytes pre + g.size) :
    frameAddr ((pre ++ g :: post).flatMap AllocSegment.frames) virt a =
      g.start + (a - (virt + totalBytes pre)) := by
  have hpre := frames_length pre fun d hd => hsize d (List.mem_append_left _ hd)
  obtain ⟨m, hm⟩ := hsize g (by simp)
  obtain ⟨c, hc⟩ := hstart
  obtain ⟨d, rfl⟩ := Nat.exists_eq_add_of_le h1
  have hd : d / pageSize < m := by
    simp only [pageSize] at *
    omega
  have hframes : g.frames = List.range' c m := by
    rw [AllocSegment.frames, hm, hc, Nat.mul_div_cancel_left _ (by decide : 0 < pageSize),
      Nat.mul_div_cancel_left _ (by decide : 0 < pageSize)]
  have hindex : (virt + totalBytes pre + d - virt) / pageSize =
      (pre.flatMap AllocSegment.frames).length + d / pageSize := by
    simp only [pageSize] at *
    omega
  have hoffset : (virt + totalBytes pre + d - virt) % pageSize = d % pageSize := by
    simp only [pageSize] at *
    omega
  have hat : ((pre ++ g :: post).flatMap AllocSegment.frames)[
      (pre.flatMap AllocSegment.frames).length + d / pageSize]? = some (c + d / pageSize) := by
    rw [List.flatMap_append, List.flatMap_cons, List.getElem?_append_right (Nat.le_add_right _ _),
      Nat.add_sub_cancel_left, hframes, List.getElem?_append_left (by rwa [List.length_range']),
      List.getElem?_range' hd, Nat.one_mul]
  rw [frameAddr, hindex, hoffset, hat, hc, Nat.add_sub_cancel_left, Option.getD_some, Nat.add_mul,
    Nat.mul_comm c, Nat.add_assoc, Nat.div_add_mod']

variable {σ : Type} {A : TableSource σ} {left : σ → Nat} {kernPml4 virt stop : Nat}
  {segments : List AllocSegment} {N : Set (List (Fin 512))} {s₀ : Vmm σ} {flags : Word}

/-- What the loop has done: `failed` tells whether all is mapped. -/
def LoopDone (root : Nat) (segments : List AllocSegment) (virt stop : Nat)
    (out : Nat × Nat × Vmm σ) : Prop :=
  out.1 = totalBytes segments ∧ (out.2.1 = 0 →
    MappedTo root out.2.2 (frameAddr (segments.flatMap AllocSegment.frames) virt) virt stop)

/-- A segment at `v` lies in tables of `N`, and no page table is in the way of
its large pages. -/
structure SegmentFits (N : Set (List (Fin 512))) (root : Nat) (s : Vmm σ) (v : Nat)
    (g : AllocSegment) : Prop where
  tables : ∀ q, TableOf (v % largePageSize = g.start % largePageSize) v (v + g.size) q → q ∈ N
  slots : v % largePageSize = g.start % largePageSize → ∀ w, Slot v (v + g.size) w →
    ¬ HasPt root s w

theorem mapSegments_cons (g : AllocSegment) (gs : List AllocSegment) (offset failed : Nat)
    (s : Vmm σ) :
    mapSegments A kernPml4 virt flags (g :: gs) offset failed s =
      mapSegments A kernPml4 virt flags gs ((offset + g.size) % 2 ^ 64)
        (vmmMap A kernPml4 s kernPml4Token ((virt + offset) % 2 ^ 64) g.start g.size flags).1
        (vmmMap A kernPml4 s kernPml4Token ((virt + offset) % 2 ^ 64) g.start g.size flags).2 := by
  rw [mapSegments]

variable (hv : pageSize ∣ virt) (hstop : stop = virt + totalBytes segments)
  (hseg : ∀ g ∈ segments, pageSize ∣ g.start ∧ pageSize ∣ g.size ∧ g.start + g.size ≤ 2 ^ 52)

include hv hstop hseg

/-- One segment of the request. -/
theorem segment_at {pre post : List AllocSegment} {g : AllocSegment}
    (hsplit : segments = pre ++ g :: post) :
    pageSize ∣ virt + totalBytes pre ∧ virt + totalBytes pre + g.size ≤ stop ∧
      ∀ a, virt + totalBytes pre ≤ a → a < virt + totalBytes pre + g.size →
        frameAddr (segments.flatMap AllocSegment.frames) virt a =
          g.start + (a - (virt + totalBytes pre)) := by
  subst hsplit
  have hsizes : ∀ d ∈ pre ++ g :: post, pageSize ∣ d.size := fun d hd => (hseg d hd).2.1
  have hpre := frames_length pre fun d hd => hsizes d (List.mem_append_left _ hd)
  have htotal : totalBytes (pre ++ g :: post) = totalBytes pre + (g.size + totalBytes post) :=
    totalBytes_append pre (g :: post)
  refine ⟨Nat.dvd_add hv (hpre ▸ Nat.dvd_mul_left pageSize _), by omega, fun a h1 h2 => ?_⟩
  exact frameAddr_segment hsizes (hseg g (by simp)).1 h1 h2

variable (hne : kernPml4 ≠ 0) (hdvd : pageSize ∣ kernPml4)
  (hhalf : stop ≤ 2 ^ 47 ∨ 2 ^ 64 - 2 ^ 47 ≤ virt ∧ stop ≤ 2 ^ 64)
  (htop : stop ≤ 2 ^ 64 - 2 ^ 21) (hf : FlagsOk flags) (hpres : present flags = true)
  (hc : Counted A left)
  (hbefore : ∀ (pre : List AllocSegment) (g : AllocSegment) (post : List AllocSegment),
    segments = pre ++ g :: post → post ≠ [] →
    SegmentFits N (virtToPhys kernPml4) s₀ (virt + totalBytes pre) g)

include hne hdvd hhalf htop hf hpres hc hbefore

/-- **The loop over the segments**: every segment but the last is mapped, and
`failed` says whether the last one is. -/
theorem mapSegments_spec : ∀ (post pre : List AllocSegment) (g : AllocSegment)
    (failed : Nat) (s : Vmm σ), segments = pre ++ g :: post →
    Filled A left (virtToPhys kernPml4) N s₀
      (frameAddr (segments.flatMap AllocSegment.frames) virt) virt stop (virt + totalBytes pre) s →
    LoopDone (virtToPhys kernPml4) segments virt stop
      (mapSegments A kernPml4 virt flags (g :: post) (totalBytes pre) failed s) := by
  have hroot : mapRoot kernPml4 kernPml4Token = kernPml4 := if_pos rfl
  intro post
  induction post with
  | nil =>
      intro pre g failed s hsplit h
      obtain ⟨hgs, hgd, hlim⟩ := hseg g (by simp [hsplit])
      obtain ⟨hat, hend, hwant⟩ := segment_at hv hstop hseg hsplit
      have htotal : totalBytes segments = totalBytes pre + g.size := by
        rw [hsplit, totalBytes_append]
        rfl
      have hsum : (virt + totalBytes pre) % 2 ^ 64 = virt + totalBytes pre :=
        Nat.mod_eq_of_lt (by omega)
      have hnext : (totalBytes pre + g.size) % 2 ^ 64 = totalBytes pre + g.size :=
        Nat.mod_eq_of_lt (by omega)
      have hmap := vmmMap_mapping (A := A) (s := s) kernPml4Token kernPml4
        hhalf (hroot ▸ hne) (hroot ▸ hdvd) hat hgd hgs hlim (Nat.le_add_right _ _) hend htop hf
        hpres hwant ⟨hroot ▸ h.ok, fun _ => hroot ▸ h.mapped⟩
      rw [hroot] at hmap
      rw [mapSegments_cons, mapSegments, hsum, hnext]
      refine ⟨htotal.symm, fun hzero => ?_⟩
      have hdone := hmap.mapped hzero
      rwa [Nat.add_assoc, ← htotal, ← hstop] at hdone
  | cons g' post ih =>
      intro pre g failed s hsplit h
      obtain ⟨hgs, hgd, hlim⟩ := hseg g (by simp [hsplit])
      obtain ⟨hat, hend, hwant⟩ := segment_at hv hstop hseg hsplit
      have hfits := hbefore pre g (g' :: post) hsplit (List.cons_ne_nil g' post)
      have htotal : totalBytes (pre ++ [g]) = totalBytes pre + g.size :=
        totalBytes_append pre [g]
      have hsum : (virt + totalBytes pre) % 2 ^ 64 = virt + totalBytes pre :=
        Nat.mod_eq_of_lt (by omega)
      have hnext : (totalBytes pre + g.size) % 2 ^ 64 = totalBytes pre + g.size :=
        Nat.mod_eq_of_lt (by omega)
      have hmap := vmmMap_filled (A := A) (s := s) kernPml4Token kernPml4
        hhalf (hroot ▸ hne) (hroot ▸ hdvd) hat hgd hgs hlim (Nat.le_add_right _ _) hend htop hf
        hpres hwant hc hfits.tables (by rw [hroot]; exact hfits.slots) (by rw [hroot]; exact h)
      rw [hroot, Nat.add_assoc, ← htotal] at hmap
      rw [mapSegments_cons, hsum, hnext, ← htotal]
      exact ih (pre ++ [g]) g' _ _ (by simp [hsplit]) hmap.2

end Segments

/-! ## All or nothing -/

section AllOrNothing

variable {K : KernelTables} {hspan : ∀ e ∈ table, e.stop ≤ hhdmSpan}
  {s : Vmm (LiveBootmem kernel table)}

/-- Bootmem serves a table for every page it has left. -/
theorem bootmemSource_counted (hspan : ∀ e ∈ table, e.stop ≤ hhdmSpan)
    (hsorted : table.Pairwise fun e f => e.stop ≤ f.addr) (mode : VmmMode) :
    Counted (bootmemSource kernel hspan mode)
      fun b : LiveBootmem kernel table => (framesFrom b.val.poolEnd table).length := by
  refine ⟨fun b hpos => ?_, fun b => ?_⟩
  · rcases bootTable_frames (ramBelow_of_span hspan) hsorted mode b with ⟨hnil, -⟩ | ⟨f, -, hptr⟩
    · rw [hnil] at hpos
      exact absurd hpos (Nat.lt_irrefl 0)
    · exact hptr ▸ Option.some_ne_none _
  · rcases bootTable_frames (ramBelow_of_span hspan) hsorted mode b with ⟨hnil, -⟩ | ⟨f, hleft, -⟩
    · rw [hnil]
      exact Nat.zero_le _
    · rw [hleft, List.length_cons]
      exact le_rfl

/-- The virtual address for the pages of an entry; `before` are the entries
below it. -/
def requestAt (virt lo : Nat) (before : List E820Entry) : Nat :=
  virt + (framesFrom lo before).length * pageSize

/-- The tables that the entries a request uses up are mapped in. -/
def usedTables (table : List E820Entry) (lo n virt : Nat) : Set (List (Fin 512)) :=
  {q | ∃ before e, UsedUp table lo n before e ∧
    TableOf (requestAt virt lo before % largePageSize = (e.segment lo).start % largePageSize)
      (requestAt virt lo before) (requestAt virt lo before + (e.segment lo).size) q}

/-- What `bootmem_alloc_mapped` relies on in a free range and does not check:
flags without address bits, for the entries that are used up no page table in
the way of a large page, and RAM for the tables they are mapped in. -/
structure Mappable (K : KernelTables) (s : Vmm (LiveBootmem kernel table)) (virt n : Nat)
    (flags : Word) : Prop where
  flags : FlagsOk flags
  slots : ∀ before e, UsedUp table s.source.val.poolEnd n before e →
    requestAt virt s.source.val.poolEnd before % largePageSize =
      (e.segment s.source.val.poolEnd).start % largePageSize →
    ∀ w, Slot (requestAt virt s.source.val.poolEnd before)
      (requestAt virt s.source.val.poolEnd before + (e.segment s.source.val.poolEnd).size) w →
      ¬ HasPt (virtToPhys K.kernPml4) s w
  tables : (missing (virtToPhys K.kernPml4)
      (usedTables table s.source.val.poolEnd n virt) s).ncard + n ≤
    (ramFrames table s.source.val.poolEnd).ncard

/-- All or nothing: a panic, `NULL` with nothing changed, or every page in its
place. -/
def AllOrNothing (K : KernelTables) (s : Vmm (LiveBootmem kernel table)) (virt n : Nat) :
    Except String (Option Nat × Vmm (LiveBootmem kernel table)) → Prop
  | .error e => e = mapPanic ∨ e = exceptionPanic
  | .ok (none, s') => s' = s
  | .ok (some v, s') =>
      let frames := (bootmemAlloc table (n * pageSize) s.source.val).1.flatMap AllocSegment.frames
      v = virt ∧ frames.length = n ∧ ∀ k f, frames[k]? = some f →
        ∃ t, s'.translate (virtToPhys K.kernPml4) (virt + k * pageSize) = some t ∧
          t.phys = f * pageSize

/-- A call that returns `virt` has mapped the page there. -/
theorem AllOrNothing.first {virt n v : Nat} {s' : Vmm (LiveBootmem kernel table)}
    (h : AllOrNothing K s virt n (.ok (some v, s'))) (hn : 0 < n) :
    s'.translate (virtToPhys K.kernPml4) virt ≠ none := by
  obtain ⟨-, hlength, hpages⟩ := h
  rw [← hlength] at hn
  obtain ⟨t, ht, -⟩ := hpages 0 _ (List.getElem?_eq_getElem hn)
  rw [Nat.zero_mul, Nat.add_zero] at ht
  rw [ht]
  exact Option.some_ne_none t

/-- The scan ends: it meets the kernel's image at the latest. -/
theorem BootTree.check_ends (h : BootTree K hspan s) {virt : Nat} (hvirt : virt < 2 ^ 64)
    (size : Nat) :
    ∃ fuel r, vmmVirtRangeHasMapping K.kernPml4 s kernPml4Token virt size fuel = some r := by
  have hroot : mapRoot K.kernPml4 kernPml4Token = K.kernPml4 := if_pos rfl
  obtain ⟨hdvd, hlow, -⟩ := K.image K.kernPml4 (by simp)
  have hne : K.kernPml4 ≠ 0 := by
    unfold kernelVmaStart at hlow
    omega
  have hhit : gapOf (virtToPhys K.kernPml4) s kernelVmaStart = none :=
    (gapOf_eq_none_iff h.ok.readable kernelVmaStart).mpr h.image
  obtain ⟨fuel, r, hr⟩ := scan_terminates_hit (gapFun_gapOf (virtToPhys K.kernPml4) s)
    (Nat.mod_lt (virt + size) (by decide)) (by decide) hhit hvirt
  refine ⟨fuel, r, ?_⟩
  rw [hasMapping_eq virt size (hroot ▸ hne) (hroot ▸ hdvd) (hroot.symm ▸ h.ok.readable), hroot]
  exact hr

/-- A check that finds nothing leaves the range free. -/
theorem BootTree.check_free (h : BootTree K hspan s) {virt size fuel : Nat}
    (hvirt : pageSize ∣ virt) (hend : virt + size < 2 ^ 64)
    (hcheck : vmmVirtRangeHasMapping K.kernPml4 s kernPml4Token virt size fuel = some 0) :
    ∀ a, virt ≤ a → a < virt + size → s.leafAt (virtToPhys K.kernPml4) (pathOf a) = none := by
  have hroot : mapRoot K.kernPml4 kernPml4Token = K.kernPml4 := if_pos rfl
  obtain ⟨hdvd, hlow, -⟩ := K.image K.kernPml4 (by simp)
  have hne : K.kernPml4 ≠ 0 := by
    unfold kernelVmaStart at hlow
    omega
  rw [hasMapping_eq virt size (hroot ▸ hne) (hroot ▸ hdvd) (hroot.symm ▸ h.ok.readable), hroot,
    Nat.mod_eq_of_lt hend] at hcheck
  have hgaps := scan_zero (gapFun_gapOf _ s) hend (not_skipped_of_dvd hvirt) (by omega) hcheck
  intro a h1 h2
  exact not_not.mp fun hl => hgaps a h1 h2 ((gapOf_eq_none_iff h.ok.readable a).mpr hl)

/-- Before the first segment. -/
theorem BootTree.filled (h : BootTree K hspan s) {virt n : Nat} {flags : Word}
    (hsorted : table.Pairwise fun e f => e.stop ≤ f.addr) {b : LiveBootmem kernel table}
    {segments : List AllocSegment} (htakes : Takes table s.source.val b.val n segments)
    (hfree : ∀ a, virt ≤ a → a < virt + n * pageSize →
      s.leafAt (virtToPhys K.kernPml4) (pathOf a) = none)
    (hmap : Mappable K s virt n flags) (want : Nat → Nat) :
    Filled (bootmemSource kernel hspan s.mode)
      (fun b : LiveBootmem kernel table => (framesFrom b.val.poolEnd table).length)
      (virtToPhys K.kernPml4) (usedTables table s.source.val.poolEnd n virt) s want virt
      (virt + n * pageSize) virt { s.watch with source := b } := by
  have hstart : BootTree K hspan { s.watch with source := b } :=
    h.relabel rfl h.mode fun p hp => htakes.avail hp
  refine ⟨hstart.ok, hstart.mode, ⟨?_, rfl, ?_⟩, ⟨hfree, fun _ _ _ => Iff.rfl⟩, ?_⟩
  · rintro q ⟨before, e, -, hq⟩
    exact hq.length_le
  · have htables := hmap.tables
    have hleft := congrArg List.length htakes.left
    rw [List.length_drop] at hleft
    rw [framesFrom_ncard _ hsorted] at htables
    have henough : (missing (virtToPhys K.kernPml4)
        (usedTables table s.source.val.poolEnd n virt) s).ncard ≤
        (framesFrom b.val.poolEnd table).length := by
      rw [hleft]
      exact Nat.le_sub_of_add_le htables
    exact henough
  · intro a h1 h2
    omega

/-- The segments of a request that fits. -/
theorem BootTree.request (h : BootTree K hspan s) {virt n : Nat} {flags : Word}
    (hsorted : table.Pairwise fun e f => e.stop ≤ f.addr) (hvirt : pageSize ∣ virt)
    (hpres : present flags = true)
    (hhalf : virt + n * pageSize ≤ 2 ^ 47 ∨
      2 ^ 64 - 2 ^ 47 ≤ virt ∧ virt + n * pageSize ≤ 2 ^ 64 - 2 ^ 21)
    {b : LiveBootmem kernel table} {segments : List AllocSegment}
    (hcall : (bootmemAlloc table (n * pageSize) s.source.val).1 = segments)
    (htakes : Takes table s.source.val b.val n segments)
    (hfree : ∀ a, virt ≤ a → a < virt + n * pageSize →
      s.leafAt (virtToPhys K.kernPml4) (pathOf a) = none)
    (hmap : Mappable K s virt n flags) :
    LoopDone (virtToPhys K.kernPml4) segments virt (virt + n * pageSize)
      (mapSegments (bootmemSource kernel hspan s.mode) K.kernPml4 virt flags segments 0 0
        { s.watch with source := b }) := by
  obtain ⟨hdvd, hlow, -⟩ := K.image K.kernPml4 (by simp)
  have hne : K.kernPml4 ≠ 0 := by
    unfold kernelVmaStart at hlow
    omega
  have hseg : ∀ g ∈ segments, pageSize ∣ g.start ∧ pageSize ∣ g.size ∧
      g.start + g.size ≤ 2 ^ 52 := by
    intro g hg
    have hin := htakes.inRam g hg
    obtain ⟨e, he, -, -, hle⟩ := hin.ram
    have hlim := hspan e he
    unfold hhdmSpan at hlim
    exact ⟨hin.start_dvd, hin.size_dvd, by omega⟩
  have hbefore : ∀ (pre : List AllocSegment) (g : AllocSegment) (post : List AllocSegment),
      segments = pre ++ g :: post → post ≠ [] →
      SegmentFits (usedTables table s.source.val.poolEnd n virt) (virtToPhys K.kernPml4) s
        (virt + totalBytes pre) g := by
    intro pre g post hsplit hpost
    obtain ⟨before, e, hused, rfl, htotal⟩ := PoolInv.alloc_usedUp s.source.property hsorted
      (ramBelow_of_span hspan) htakes.bound (hcall.trans hsplit) hpost
    rw [htotal]
    exact ⟨fun q hq => ⟨before, e, hused, hq⟩, hmap.slots before e hused⟩
  obtain ⟨g, post, hsplit⟩ := List.exists_cons_of_ne_nil htakes.some
  have hdone := mapSegments_spec hvirt (by rw [htakes.chained.total_eq]) hseg hne hdvd
    (by omega) (by omega) hmap.flags hpres (bootmemSource_counted hspan hsorted s.mode) hbefore
    post [] g 0 { s.watch with source := b } hsplit (h.filled hsorted htakes hfree hmap _)
  rw [hsplit] at hdone ⊢
  exact hdone

end AllOrNothing

/-! ## Two entries and no page to spare -/

def smallKernel : KernelImage := ⟨0x5000, by decide⟩

theorem smallKernel_tables : firstTables.InImage smallKernel := by
  unfold KernelTables.InImage
  decide

end DevOS.Arch
