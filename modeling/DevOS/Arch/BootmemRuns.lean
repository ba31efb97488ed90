import DevOS.Arch.Bootmem

/-!
# Bootmem — what it hands out

Every run of bootmem calls over a tidy table keeps the pool between the end of
the kernel and `pool_end`: whatever was handed out lies there, on whole pages
of RAM entries, and no call panics.
-/

namespace DevOS.Arch

variable {table es : List E820Entry} {e : E820Entry} {kernel : KernelImage}

/-- RAM ends below `2 ^ 52`, so no address computation wraps. -/
def RamBelow (table : List E820Entry) : Prop :=
  ∀ e ∈ table, e.type = e820TypeRam → e.stop ≤ 2 ^ 52

theorem RamBelow.end64_eq (h : RamBelow table) (he : e ∈ table) (hram : e.type = e820TypeRam) :
    e.end64 = e.stop :=
  Nat.mod_eq_of_lt (lt_of_le_of_lt (h e he hram) (by decide))

theorem RamBelow.tail (h : RamBelow (e :: es)) : RamBelow es :=
  fun f hf => h f (List.mem_cons_of_mem _ hf)

/-- Rounding up to a page, below `2 ^ 52`: the least page boundary above. -/
theorem roundUp_page {a : Nat} (ha : a ≤ 2 ^ 52) :
    a ≤ roundUp a pageSize ∧ pageSize ∣ roundUp a pageSize ∧ roundUp a pageSize ≤ 2 ^ 52 ∧
      roundUp a pageSize < a + pageSize := by
  have hr : roundUp a pageSize = (a + 4095) / 4096 * 4096 := by
    simp only [roundUp, pageSize]
    omega
  rw [hr, pageSize]
  refine ⟨by omega, ⟨_, Nat.mul_comm _ _⟩, by omega, by omega⟩

/-! ## Pages -/

/-- Memory that bootmem may hand out: whole pages of a RAM entry at or above
`lo`. -/
structure InRam (table : List E820Entry) (lo start size : Nat) : Prop where
  lower : lo ≤ start
  start_dvd : pageSize ∣ start
  size_dvd : pageSize ∣ size
  ram : ∃ e ∈ table, e.type = e820TypeRam ∧ e.addr ≤ start ∧ start + size ≤ e.stop

/-- The candidate is moved up into an entry if need be. -/
theorem moveUp_spec {allocation addr cand : Nat} (hdvd : pageSize ∣ allocation)
    (hle : allocation ≤ 2 ^ 52) (haddr : addr ≤ 2 ^ 52)
    (hcand : (if allocation < addr then roundUp addr pageSize else allocation) = cand) :
    allocation ≤ cand ∧ addr ≤ cand ∧ pageSize ∣ cand ∧ cand ≤ 2 ^ 52 := by
  obtain ⟨h1, h2, h3, -⟩ := roundUp_page haddr
  subst hcand
  split
  · exact ⟨by omega, h1, h2, h3⟩
  · exact ⟨le_rfl, by omega, hdvd, hle⟩

/-- **The page search**: a page of RAM at or above where the search starts. -/
theorem findPage_spec : ∀ (es : List E820Entry) (i allocation : Nat), RamBelow es →
    pageSize ∣ allocation → allocation ≤ 2 ^ 52 → ∀ {phys j : Nat},
    findPage i allocation es = some (phys, j) →
    InRam es allocation phys pageSize ∧ phys + pageSize ≤ 2 ^ 52 ∧
      ∃ e, es[j - i]? = some e ∧ i ≤ j ∧ e.addr ≤ phys := by
  intro es
  induction es with
  | nil => intro i allocation _ _ _ phys j h; cases h
  | cons e es ih =>
      intro i allocation hram hdvd hle phys j h
      unfold findPage at h
      -- a result from the rest of the table
      have hrest : ∀ allocation', pageSize ∣ allocation' → allocation ≤ allocation' →
          allocation' ≤ 2 ^ 52 → findPage (i + 1) allocation' es = some (phys, j) →
          InRam (e :: es) allocation phys pageSize ∧ phys + pageSize ≤ 2 ^ 52 ∧
            ∃ f, (e :: es)[j - i]? = some f ∧ i ≤ j ∧ f.addr ≤ phys := by
        intro allocation' hd hge hle' h'
        obtain ⟨⟨h1, h2, h3, f, hf, h4⟩, h5, g, hg, hij, hga⟩ :=
          ih (i + 1) allocation' hram.tail hd hle' h'
        refine ⟨⟨hge.trans h1, h2, h3, f, List.mem_cons_of_mem _ hf, h4⟩, h5, g, ?_, by omega, hga⟩
        have hidx : j - i = j - (i + 1) + 1 := by omega
        rw [hidx, List.getElem?_cons_succ]
        exact hg
      split at h
      · exact hrest allocation hdvd le_rfl hle h
      · rename_i htype
        have htype' : e.type = e820TypeRam := not_not.mp htype
        have hstop := hram e List.mem_cons_self htype'
        have haddr : e.addr ≤ 2 ^ 52 := (Nat.le_add_right _ _).trans hstop
        have hend := hram.end64_eq List.mem_cons_self htype'
        dsimp only at h
        generalize hcand : (if allocation < e.addr then roundUp e.addr pageSize else allocation) =
          cand at h
        obtain ⟨hc1, hc2, hc3, hc4⟩ := moveUp_spec hdvd hle haddr hcand
        have hmod : (cand + pageSize) % 2 ^ 64 = cand + pageSize :=
          Nat.mod_eq_of_lt (by simp only [pageSize]; omega)
        split at h
        · exact hrest cand hc3 hc1 hc4 h
        · rename_i hfits
          rw [hmod, hend] at hfits
          cases h
          refine ⟨⟨hc1, hc3, Nat.dvd_refl _, e, List.mem_cons_self, htype', hc2, by omega⟩,
            by omega,
            e, by simp, le_rfl, hc2⟩

/-! ## Segments -/

theorem usableRange_spec {poolEnd start stop : Nat} (hstop : e.stop ≤ 2 ^ 52)
    (hend : e.end64 = e.stop) (hpool : poolEnd ≤ 2 ^ 52)
    (h : usableRange poolEnd e = some (start, stop)) :
    poolEnd ≤ start ∧ e.addr ≤ start ∧ pageSize ∣ start ∧ start < stop ∧ pageSize ∣ stop ∧
      stop ≤ e.stop := by
  unfold usableRange at h
  dsimp only at h
  have haddr : e.addr ≤ 2 ^ 52 := (Nat.le_add_right _ _).trans hstop
  generalize hlow : (if poolEnd > e.addr then poolEnd else e.addr) = low at h
  have hmax : low ≤ 2 ^ 52 ∧ poolEnd ≤ low ∧ e.addr ≤ low := by
    split at hlow <;> omega
  obtain ⟨h1, h2, -, -⟩ := roundUp_page hmax.1
  split at h
  · cases h
  · rename_i hlt
    cases h
    refine ⟨hmax.2.1.trans h1, hmax.2.2.trans h1, h2, Nat.lt_of_not_le hlt,
      ⟨_, Nat.mul_comm _ _⟩, ?_⟩
    rw [hend, roundDown]
    exact Nat.div_mul_le_self _ _

/-- What a search for segments returns: whole pages of RAM above `lo`, none
beyond `last`, where the search stopped in entry `j`. -/
structure Segments (es : List E820Entry) (lo : Nat) (segments : List AllocSegment)
    (last i j : Nat) : Prop where
  inRam : ∀ g ∈ segments, InRam es lo g.start g.size ∧ g.start + g.size ≤ last
  last_dvd : pageSize ∣ last
  last_le : last ≤ 2 ^ 52
  lo_le : lo ≤ last
  entry : ∃ e, es[j - i]? = some e ∧ i ≤ j ∧ e.addr ≤ last

theorem Segments.cons {lo last i j : Nat} {segments : List AllocSegment}
    (h : Segments es lo segments last (i + 1) j) : Segments (e :: es) lo segments last i j := by
  obtain ⟨f, hf, hij, haddr⟩ := h.entry
  refine ⟨fun g hg => ?_, h.last_dvd, h.last_le, h.lo_le, f, ?_, by omega, haddr⟩
  · obtain ⟨⟨h1, h2, h3, f', hf', h4⟩, h5⟩ := h.inRam g hg
    exact ⟨⟨h1, h2, h3, f', List.mem_cons_of_mem _ hf', h4⟩, h5⟩
  · have hidx : j - i = j - (i + 1) + 1 := by omega
    rw [hidx, List.getElem?_cons_succ]
    exact hf

/-- What one round of `__alloc` cuts from a RAM entry: whole pages from
`pool_end` on, no more than is still asked for. -/
structure CutFrom (e : E820Entry) (poolEnd remaining start cut : Nat) : Prop where
  ram : e.type = e820TypeRam
  lower : poolEnd ≤ start
  addr_le : e.addr ≤ start
  start_dvd : pageSize ∣ start
  cut_dvd : pageSize ∣ cut
  lt : start < cut
  le_stop : cut ≤ e.stop
  le_asked : cut ≤ start + remaining

/-- `a - b` on `size_t`, where it does not wrap. -/
theorem sub_size {a b : Nat} (hle : b ≤ a) (hlt : a < 2 ^ 64) :
    (a + 2 ^ 64 - b) % 2 ^ 64 = a - b := by
  omega

/-- **One round of the segment search**: the entry has nothing to give, or a
segment is cut from it; the search then goes on with what is missing, or is
done. -/
theorem findSegments_cons {poolEnd bytes i allocated last j : Nat} {segments : List AllocSegment}
    (hpool : poolEnd ≤ 2 ^ 52) (hbytes : pageSize ∣ bytes) (hbound : bytes < 2 ^ 52)
    (hram : RamBelow (e :: es)) (hdvd : pageSize ∣ allocated) (hlt : allocated < bytes)
    (h : findSegments poolEnd bytes i allocated (e :: es) = some (segments, last, j)) :
    findSegments poolEnd bytes (i + 1) allocated es = some (segments, last, j) ∨
    ∃ start cut, CutFrom e poolEnd (bytes - allocated) start cut ∧
      ((∃ segments', segments = ⟨start, cut - start⟩ :: segments' ∧
          allocated + (cut - start) < bytes ∧
          findSegments poolEnd bytes (i + 1) (allocated + (cut - start)) es =
            some (segments', last, j)) ∨
        bytes ≤ allocated + (cut - start) ∧ segments = [⟨start, cut - start⟩] ∧ last = cut ∧
          j = i) := by
  unfold findSegments at h
  split at h
  · exact .inl h
  · rename_i htype
    have htype' : e.type = e820TypeRam := not_not.mp htype
    have hstop := hram e List.mem_cons_self htype'
    have hend := hram.end64_eq List.mem_cons_self htype'
    split at h
    · exact .inl h
    · rename_i start stop husable
      obtain ⟨h1, h2, h3, h4, h5, h6⟩ := usableRange_spec hstop hend hpool husable
      have hmod : (start + (bytes - allocated)) % 2 ^ 64 = start + (bytes - allocated) :=
        Nat.mod_eq_of_lt (by omega)
      have hrem : pageSize ∣ bytes - allocated := Nat.dvd_sub hbytes hdvd
      dsimp only at h
      rw [sub_size hlt.le (by omega), hmod] at h
      -- the segment ends where the request or the entry does
      generalize hcut : (if start + (bytes - allocated) < stop then
        start + (bytes - allocated) else stop) = cut at h
      have hcut' : start < cut ∧ cut ≤ stop ∧ cut ≤ start + (bytes - allocated) ∧
          pageSize ∣ cut := by
        subst hcut
        split
        · exact ⟨by omega, by omega, by omega, Nat.dvd_add h3 hrem⟩
        · exact ⟨h4, by omega, by omega, h5⟩
      obtain ⟨hc1, hc2, hc3, hc4⟩ := hcut'
      rw [sub_size hc1.le (by omega), Nat.mod_eq_of_lt (by omega)] at h
      refine .inr ⟨start, cut, ⟨htype', h1, h2, h3, hc4, hc1, hc2.trans h6, hc3⟩, ?_⟩
      split at h
      · rename_i hmore
        cases hrec : findSegments poolEnd bytes (i + 1) (allocated + (cut - start)) es with
        | none => simp [hrec] at h
        | some res =>
            obtain ⟨segments', last', j'⟩ := res
            simp only [hrec, Option.some.injEq, Prod.mk.injEq] at h
            obtain ⟨rfl, rfl, rfl⟩ := h
            exact .inl ⟨segments', rfl, hmore, rfl⟩
      · rename_i hdone
        cases h
        exact .inr ⟨Nat.le_of_not_lt hdone, rfl, rfl, rfl⟩

/-- **The segment search** of `__alloc` over a tidy table. -/
theorem findSegments_spec {poolEnd bytes : Nat} (hpool : poolEnd ≤ 2 ^ 52)
    (hbytes : pageSize ∣ bytes) (hbound : bytes < 2 ^ 52) :
    ∀ (es : List E820Entry) (i allocated : Nat), RamBelow es →
    (es.Pairwise fun e f => e.stop ≤ f.addr) → pageSize ∣ allocated → allocated < bytes →
    ∀ {segments : List AllocSegment} {last j : Nat},
    findSegments poolEnd bytes i allocated es = some (segments, last, j) →
    Segments es poolEnd segments last i j := by
  intro es
  induction es with
  | nil => intro i allocated _ _ _ _ segments last j h; cases h
  | cons e es ih =>
      intro i allocated hram hsorted hdvd hlt segments last j h
      obtain ⟨hafter, hsorted'⟩ := List.pairwise_cons.mp hsorted
      obtain hrest | ⟨start, cut, hcut, hround⟩ :=
        findSegments_cons hpool hbytes hbound hram hdvd hlt h
      · exact (ih (i + 1) allocated hram.tail hsorted' hdvd hlt hrest).cons
      · have hstop := hram e List.mem_cons_self hcut.ram
        have hlt := hcut.lt
        have hle := hcut.le_stop
        have hlow := hcut.lower
        have haddr := hcut.addr_le
        have hsize : start + (cut - start) = cut := by omega
        have hdvd' : pageSize ∣ cut - start := Nat.dvd_sub hcut.cut_dvd hcut.start_dvd
        have hseg : InRam (e :: es) poolEnd start (cut - start) :=
          ⟨hlow, hcut.start_dvd, hdvd', e, List.mem_cons_self, hcut.ram, haddr, by omega⟩
        obtain ⟨segments', rfl, hmore, hrec⟩ | ⟨-, rfl, rfl, rfl⟩ := hround
        · -- more is needed: later entries lie above this one
          have hs := ih (i + 1) (allocated + (cut - start)) hram.tail hsorted'
            (Nat.dvd_add hdvd hdvd') hmore hrec
          obtain ⟨f, hf, -, hfa⟩ := hs.entry
          have hef := hafter f (List.mem_of_getElem? hf)
          have hs' := hs.cons (e := e)
          refine ⟨fun g hg => ?_, hs'.last_dvd, hs'.last_le, hs'.lo_le, hs'.entry⟩
          rcases List.mem_cons.mp hg with rfl | hg
          · exact ⟨hseg, by show start + (cut - start) ≤ last; omega⟩
          · exact hs'.inRam g hg
        · refine ⟨fun g hg => ?_, hcut.cut_dvd, by omega, by omega, e, by simp, le_rfl, by omega⟩
          rw [List.mem_singleton.mp hg]
          exact ⟨hseg, hsize.le⟩

/-! ## Runs -/

/-- A frame that was handed out: RAM between the start of the pool and
`pool_end`. -/
structure Issued (table : List E820Entry) (b : Bootmem) (f : Nat) : Prop where
  lower : b.poolStart ≤ f * pageSize
  upper : f * pageSize + pageSize ≤ b.poolEnd
  ram : ∃ e ∈ table, e.type = e820TypeRam ∧ e.addr ≤ f * pageSize ∧ f * pageSize + pageSize ≤ e.stop

/-- **The pool invariant.** -/
structure PoolInv (kernel : KernelImage) (table : List E820Entry) (s : Pool) : Prop where
  enabled : s.bootmem.state = .enabled
  above : kernel.kernelEnd ≤ s.bootmem.poolStart
  grown : s.bootmem.poolStart ≤ s.bootmem.poolEnd
  aligned : pageSize ∣ s.bootmem.poolEnd
  bounded : s.bootmem.poolEnd ≤ 2 ^ 52
  entry : ∃ e, table[s.bootmem.currentE820Entry]? = some e ∧ e.addr ≤ s.bootmem.poolEnd
  issued : ∀ f ∈ s.issued, Issued table s.bootmem f

/-- The pool moves up: the start stays, the end grows to a page boundary in a
known entry, and the new frames are issued. -/
theorem PoolInv.grow {s s' : Pool} (h : PoolInv kernel table s)
    (hstate : s'.bootmem.state = .enabled)
    (hstart : s'.bootmem.poolStart = s.bootmem.poolStart)
    (hend : s.bootmem.poolEnd ≤ s'.bootmem.poolEnd) (hdvd : pageSize ∣ s'.bootmem.poolEnd)
    (hbound : s'.bootmem.poolEnd ≤ 2 ^ 52)
    (hentry : ∃ e, table[s'.bootmem.currentE820Entry]? = some e ∧ e.addr ≤ s'.bootmem.poolEnd)
    (hissued : ∀ f ∈ s'.issued, f ∈ s.issued ∨ Issued table s'.bootmem f) :
    PoolInv kernel table s' := by
  refine ⟨hstate, hstart ▸ h.above, hstart ▸ h.grown.trans hend, hdvd, hbound,
    hentry, fun f hf => ?_⟩
  rcases hissued f hf with hold | hnew
  · obtain ⟨h1, h2, h3⟩ := h.issued f hold
    exact ⟨hstart ▸ h1, h2.trans hend, h3⟩
  · exact hnew

/-- Entry `j` of the table from entry `i` on. -/
theorem getElem?_of_drop {i j : Nat} (hij : i ≤ j) (h : (table.drop i)[j - i]? = some e) :
    table[j]? = some e := by
  rw [List.getElem?_drop] at h
  have hidx : i + (j - i) = j := by omega
  rwa [hidx] at h

theorem RamBelow.drop (h : RamBelow table) (i : Nat) : RamBelow (table.drop i) :=
  fun e he => h e (List.mem_of_mem_drop he)

/-- The page call without its panics: in the invariant none is reached. -/
theorem PoolInv.allocPagePhys_eq {s : Pool} (h : PoolInv kernel table s) :
    bootmemAllocPagePhys table s.bootmem =
      match findPage s.bootmem.currentE820Entry (roundUp s.bootmem.poolEnd pageSize)
        (table.drop s.bootmem.currentE820Entry) with
      | none => .ok (0, s.bootmem)
      | some (allocation, i) =>
          .ok (allocation, { s.bootmem with
            poolEnd := (allocation + pageSize) % 2 ^ 64
            currentE820Entry := i
            poolBytes := (s.bootmem.poolBytes + pageSize) % 2 ^ 64 }) := by
  obtain ⟨e, he, hea⟩ := h.entry
  have hlen : ¬ s.bootmem.currentE820Entry ≥ table.length := by
    have := (List.getElem?_eq_some_iff.mp he).1
    omega
  have hcur : entriesOf table s.bootmem.currentE820Entry = e := by
    rw [entriesOf, List.getD_eq_getElem?_getD, he, Option.getD_some]
  have haddr : ¬ (entriesOf table s.bootmem.currentE820Entry).addr > s.bootmem.poolEnd := by
    rw [hcur]
    omega
  unfold bootmemAllocPagePhys
  exact (if_neg (not_not.mpr h.enabled)).trans ((if_neg hlen).trans (if_neg haddr))

/-- **`bootmem_alloc_page_phys`** does not panic. It has no page, or returns a
page of RAM at or above `pool_end` and moves the end behind it. -/
theorem PoolInv.allocPagePhys {s : Pool} (h : PoolInv kernel table s) (hram : RamBelow table) :
    bootmemAllocPagePhys table s.bootmem = .ok (0, s.bootmem) ∨
    ∃ phys b, bootmemAllocPagePhys table s.bootmem = .ok (phys, b) ∧
      InRam table s.bootmem.poolEnd phys pageSize ∧ b.state = .enabled ∧
      b.poolStart = s.bootmem.poolStart ∧ b.poolEnd = phys + pageSize ∧ b.poolEnd ≤ 2 ^ 52 ∧
      b.poolBytes = (s.bootmem.poolBytes + pageSize) % 2 ^ 64 ∧
      ∃ e, table[b.currentE820Entry]? = some e ∧ e.addr ≤ b.poolEnd := by
  obtain ⟨hr1, hr2, hr3, -⟩ := roundUp_page h.bounded
  rw [h.allocPagePhys_eq]
  cases hfind : findPage s.bootmem.currentE820Entry (roundUp s.bootmem.poolEnd pageSize)
      (table.drop s.bootmem.currentE820Entry) with
  | none => exact .inl rfl
  | some res =>
      obtain ⟨phys, j⟩ := res
      obtain ⟨⟨h1, h2, h3, f, hf, hfram⟩, h5, g, hg, hij, hga⟩ :=
        findPage_spec _ _ _ (hram.drop _) hr2 hr3 hfind
      have hmod : (phys + pageSize) % 2 ^ 64 = phys + pageSize :=
        Nat.mod_eq_of_lt (by omega)
      simp only [hmod]
      exact .inr ⟨phys, _, rfl, ⟨hr1.trans h1, h2, h3, f, List.mem_of_mem_drop hf, hfram⟩,
        h.enabled, rfl, rfl, h5, rfl, g, getElem?_of_drop hij hg,
        hga.trans (Nat.le_add_right _ _)⟩

/-- The call keeps the invariant. -/
theorem PoolInv.page {s : Pool} (h : PoolInv kernel table s) (hram : RamBelow table) :
    ∃ s', Pool.call table s .page = .ok s' ∧ PoolInv kernel table s' := by
  rcases h.allocPagePhys hram with
    hnone | ⟨phys, b, hpage, hin, hstate, hstart, hend, hle, -, hentry⟩
  · refine ⟨s, ?_, h⟩
    simp only [Pool.call, hnone, if_true]
  · simp only [Pool.call, hpage]
    obtain ⟨hlow, hdvd, -, e, he, hetype, hea, hes⟩ := hin
    have hphys : phys / pageSize * pageSize = phys := Nat.div_mul_cancel hdvd
    have hgrow : s.bootmem.poolEnd ≤ b.poolEnd := by omega
    refine ⟨_, rfl, h.grow hstate hstart hgrow ?_ hle hentry fun f hf => ?_⟩
    · show pageSize ∣ b.poolEnd
      rw [hend]
      exact Nat.dvd_add hdvd (Nat.dvd_refl _)
    · dsimp only at hf
      split at hf
      · exact .inl hf
      · rcases List.mem_append.mp hf with hf | hf
        · exact .inl hf
        · right
          rw [List.mem_singleton.mp hf]
          have hgrown := h.grown
          exact ⟨by show b.poolStart ≤ _; omega, by show _ ≤ b.poolEnd; omega, e, he, hetype,
            by omega, by omega⟩

/-- The frames of a segment of whole pages lie in it. -/
theorem mem_frames {g : AllocSegment} (hstart : pageSize ∣ g.start) (hsize : pageSize ∣ g.size)
    {f : Nat} (hf : f ∈ g.frames) :
    g.start ≤ f * pageSize ∧ f * pageSize + pageSize ≤ g.start + g.size := by
  obtain ⟨a, ha⟩ := hstart
  obtain ⟨k, hk⟩ := hsize
  rw [AllocSegment.frames, List.mem_range'_1, ha, hk] at hf
  rw [ha, hk]
  simp only [pageSize] at hf ⊢
  omega

/-- **`__alloc`** keeps the invariant. -/
theorem PoolInv.alloc {s : Pool} (h : PoolInv kernel table s) (hram : RamBelow table)
    (hsorted : table.Pairwise fun e f => e.stop ≤ f.addr) {bytes : Nat} (hdvd : pageSize ∣ bytes)
    (hbytes : bytes < 2 ^ 52) :
    ∃ s', Pool.call table s (.alloc bytes) = .ok s' ∧ PoolInv kernel table s' := by
  simp only [Pool.call, bootmemAlloc, h.enabled, ne_eq, not_true_eq_false, if_false]
  by_cases h0 : bytes = 0
  · refine ⟨_, rfl, ?_⟩
    simpa [h0] using h
  · simp only [h0, if_false]
    cases hfind : findSegments s.bootmem.poolEnd bytes s.bootmem.currentE820Entry 0
        (table.drop s.bootmem.currentE820Entry) with
    | none =>
        refine ⟨_, rfl, ?_⟩
        simpa using h
    | some res =>
        obtain ⟨segments, last, j⟩ := res
        have hs := findSegments_spec h.bounded hdvd hbytes _ _ _ (hram.drop _)
          (hsorted.sublist (List.drop_sublist _ _)) (Nat.dvd_zero _) (Nat.pos_of_ne_zero h0) hfind
        obtain ⟨g, hg, hij, hga⟩ := hs.entry
        refine ⟨_, rfl, h.grow rfl rfl hs.lo_le hs.last_dvd hs.last_le
          ⟨g, getElem?_of_drop hij hg, hga⟩ fun f hf => ?_⟩
        rcases List.mem_append.mp hf with hf | hf
        · exact .inl hf
        · right
          obtain ⟨seg, hseg, hfseg⟩ := List.mem_flatMap.mp hf
          obtain ⟨⟨h1, h2, h3, e, he, hetype, hea, hes⟩, hlast⟩ := hs.inRam seg hseg
          obtain ⟨hlo, hhi⟩ := mem_frames h2 h3 hfseg
          refine ⟨?_, ?_, e, List.mem_of_mem_drop he, hetype, by omega, by omega⟩
          · exact h.grown.trans (h1.trans hlo)
          · exact hhi.trans hlast

/-! ## `bootmem_init` -/

theorem findPool_spec : ∀ (es : List E820Entry) (i : Nat), RamBelow es →
    ∀ {start j : Nat}, findPool kernel i es = some (start, j) →
    kernel.kernelEnd ≤ start ∧ start ≤ 2 ^ 52 ∧
      ∃ e, es[j - i]? = some e ∧ i ≤ j ∧ e.addr ≤ start := by
  intro es
  induction es with
  | nil => intro i _ start j h; cases h
  | cons e es ih =>
      intro i hram start j h
      unfold findPool at h
      have hrest : findPool kernel (i + 1) es = some (start, j) →
          kernel.kernelEnd ≤ start ∧ start ≤ 2 ^ 52 ∧
            ∃ f, (e :: es)[j - i]? = some f ∧ i ≤ j ∧ f.addr ≤ start := by
        intro h'
        obtain ⟨h1, h2, f, hf, hij, hfa⟩ := ih (i + 1) hram.tail h'
        refine ⟨h1, h2, f, ?_, by omega, hfa⟩
        have hidx : j - i = j - (i + 1) + 1 := by omega
        rw [hidx, List.getElem?_cons_succ]
        exact hf
      split at h
      · exact hrest h
      · rename_i htype
        split at h
        · exact hrest h
        · have hstop := hram e List.mem_cons_self (not_not.mp htype)
          have haddr : e.addr ≤ 2 ^ 52 := (Nat.le_add_right _ _).trans hstop
          have hk : kernel.kernelEnd ≤ 2 ^ 52 := by
            have := kernel.size_le
            simp only [KernelImage.kernelEnd, kernelPhys]
            omega
          cases h
          split
          · exact ⟨le_rfl, hk, e, by simp, le_rfl, by omega⟩
          · exact ⟨by omega, haddr, e, by simp, le_rfl, le_rfl⟩

/-- **`bootmem_init`** establishes the invariant with nothing handed out. -/
theorem PoolInv.init (hram : RamBelow table) {b : Bootmem}
    (h : bootmemInit kernel table .boot = .ok (0, b)) : PoolInv kernel table ⟨b, []⟩ := by
  simp only [bootmemInit, Bootmem.boot, ne_eq, not_true_eq_false, if_false] at h
  cases hfind : findPool kernel 0 table with
  | none => simp [hfind] at h
  | some res =>
      obtain ⟨start, j⟩ := res
      obtain ⟨h1, h2, e, he, -, hea⟩ := findPool_spec table 0 hram hfind
      rw [Nat.sub_zero] at he
      simp only [hfind] at h
      split at h
      · cases h
      · split at h
        · cases h
        · cases h
          obtain ⟨hr1, hr2, hr3, -⟩ := roundUp_page h2
          exact ⟨rfl, h1.trans hr1, le_rfl, hr2, hr3, ⟨e, he, hea.trans hr1⟩,
            fun f hf => absurd hf List.not_mem_nil⟩

/-- A call that asks for whole pages, fewer than `2 ^ 52` bytes. -/
def BootmemCall.WholePages : BootmemCall → Prop
  | .page => True
  | .alloc bytes => pageSize ∣ bytes ∧ bytes < 2 ^ 52

/-- **Every run of bootmem** after a successful `bootmem_init` goes through
without a panic and ends in the pool invariant. -/
theorem pool_run (hram : RamBelow table) (hsorted : table.Pairwise fun e f => e.stop ≤ f.addr)
    {b : Bootmem} (hinit : bootmemInit kernel table .boot = .ok (0, b)) {calls : List BootmemCall}
    (hcalls : ∀ c ∈ calls, c.WholePages) :
    ∃ s, Lib.runFrom (Pool.call table) ⟨b, []⟩ calls = .ok s ∧ PoolInv kernel table s := by
  have hguard : Lib.Guarded (Pool.call table) (fun _ c => c.WholePages) ⟨b, []⟩ calls :=
    Lib.Guarded.of_forall _ fun c hc _ => hcalls c hc
  refine hguard.progress (I := PoolInv kernel table) (fun s c h hc => ?_) (PoolInv.init hram hinit)
  cases c with
  | page => exact h.page hram
  | alloc bytes => exact h.alloc hram hsorted hc.1 hc.2

end DevOS.Arch
