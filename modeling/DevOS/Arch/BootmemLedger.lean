import DevOS.Arch.BootmemRuns

/-!
# Bootmem — the ledger of a run

A run of bootmem calls together with everything it has returned, in order. A
page and a segment are entered alike, as a start and a size. Both allocators
only ever return memory at or above `pool_end` and leave `pool_end` behind it,
so the ledger is sorted by address, and `pool_bytes` is its sum.
-/

namespace DevOS.Arch

variable {table es : List E820Entry} {e : E820Entry} {kernel : KernelImage}

/-- One past the last byte. -/
def AllocSegment.stop (g : AllocSegment) : Nat := g.start + g.size

/-- The bytes of all blocks. -/
def totalBytes (blocks : List AllocSegment) : Nat := (blocks.map AllocSegment.size).sum

/-- Bootmem together with the pages and segments it has returned, in order. -/
structure Ledger where
  bootmem : Bootmem
  returned : List AllocSegment

/-- One call; what it returns is entered at the end. -/
def Ledger.call (table : List E820Entry) (s : Ledger) : BootmemCall → Except String Ledger
  | .page =>
      match bootmemAllocPagePhys table s.bootmem with
      | .error e => .error e
      | .ok (phys, b) =>
          .ok ⟨b, if phys = 0 then s.returned else s.returned ++ [⟨phys, pageSize⟩]⟩
  | .alloc bytes =>
      let (segments, b) := bootmemAlloc table bytes s.bootmem
      .ok ⟨b, s.returned ++ segments⟩

/-- The frames of a ledger. -/
def Ledger.pool (s : Ledger) : Pool := ⟨s.bootmem, s.returned.flatMap AllocSegment.frames⟩

/-- The ledger refines the set of frames handed out. -/
theorem Ledger.call_pool {s s' : Ledger} {c : BootmemCall} (h : Ledger.call table s c = .ok s') :
    Pool.call table s.pool c = .ok s'.pool := by
  cases c with
  | page =>
      simp only [Ledger.call] at h
      simp only [Pool.call, Ledger.pool]
      cases hp : bootmemAllocPagePhys table s.bootmem with
      | error e =>
          rw [hp] at h
          cases h
      | ok res =>
          obtain ⟨phys, b⟩ := res
          simp only [hp] at h
          cases h
          by_cases h0 : phys = 0
          · simp [h0]
          · simp [h0, AllocSegment.frames, pageSize]
  | alloc bytes =>
      simp only [Ledger.call] at h
      cases h
      simp [Pool.call, Ledger.pool]

/-! ## The segments of one call -/

/-- The segments `__alloc` chains: none empty, in increasing address order,
and of `total` bytes together. -/
structure Chained (segments : List AllocSegment) (total : Nat) : Prop where
  pos : ∀ g ∈ segments, 0 < g.size
  sorted : segments.Pairwise fun g h => g.stop ≤ h.start
  total_eq : totalBytes segments = total

/-- **The segment search** finds the bytes asked for, in order: the entries it
walks are sorted, and so is what it cuts from them. -/
theorem findSegments_chained {poolEnd bytes : Nat} (hpool : poolEnd ≤ 2 ^ 52)
    (hbytes : pageSize ∣ bytes) (hbound : bytes < 2 ^ 52) :
    ∀ (es : List E820Entry) (i allocated : Nat), RamBelow es →
    (es.Pairwise fun e f => e.stop ≤ f.addr) → pageSize ∣ allocated → allocated < bytes →
    ∀ {segments : List AllocSegment} {last j : Nat},
    findSegments poolEnd bytes i allocated es = some (segments, last, j) →
    Chained segments (bytes - allocated) := by
  intro es
  induction es with
  | nil => intro i allocated _ _ _ _ segments last j h; cases h
  | cons e es ih =>
      intro i allocated hram hsorted hdvd hlt segments last j h
      obtain ⟨hafter, hsorted'⟩ := List.pairwise_cons.mp hsorted
      obtain hrest | ⟨start, cut, hcut, hround⟩ :=
        findSegments_cons hpool hbytes hbound hram hdvd hlt h
      · exact ih (i + 1) allocated hram.tail hsorted' hdvd hlt hrest
      · have hpos := hcut.lt
        have hle := hcut.le_stop
        have hasked := hcut.le_asked
        have hdvd' : pageSize ∣ cut - start := Nat.dvd_sub hcut.cut_dvd hcut.start_dvd
        obtain ⟨segments', rfl, hmore, hrec⟩ | ⟨hdone, rfl, rfl, rfl⟩ := hround
        · have hs := ih (i + 1) (allocated + (cut - start)) hram.tail hsorted'
            (Nat.dvd_add hdvd hdvd') hmore hrec
          have hin := findSegments_spec hpool hbytes hbound es (i + 1) _ hram.tail hsorted'
            (Nat.dvd_add hdvd hdvd') hmore hrec
          refine ⟨fun g hg => ?_, List.pairwise_cons.mpr ⟨fun g hg => ?_, hs.sorted⟩, ?_⟩
          · rcases List.mem_cons.mp hg with rfl | hg
            · show 0 < cut - start
              omega
            · exact hs.pos g hg
          · -- a later segment lies in a later entry
            obtain ⟨f, hf, -, hfa, -⟩ := (hin.inRam g hg).1.ram
            have hef := hafter f hf
            show start + (cut - start) ≤ g.start
            omega
          · have htotal := hs.total_eq
            simp only [totalBytes, List.map_cons, List.sum_cons] at htotal ⊢
            omega
        · refine ⟨fun g hg => ?_, List.pairwise_singleton _ _, ?_⟩
          · rw [List.mem_singleton.mp hg]
            exact Nat.sub_pos_of_lt hpos
          · simp only [totalBytes, List.map_cons, List.map_nil, List.sum_cons, List.sum_nil]
            omega

/-! ## The invariant -/

/-- **The ledger invariant**: the pool invariant, every block inside RAM above
the kernel and below `pool_end`, blocks sorted, and `pool_bytes` their sum. -/
structure LedgerInv (kernel : KernelImage) (table : List E820Entry) (s : Ledger) : Prop where
  pool : PoolInv kernel table s.pool
  inRam : ∀ g ∈ s.returned, InRam table kernel.kernelEnd g.start g.size
  pos : ∀ g ∈ s.returned, 0 < g.size
  below : ∀ g ∈ s.returned, g.stop ≤ s.bootmem.poolEnd
  sorted : s.returned.Pairwise fun g h => g.stop ≤ h.start
  bytes : s.bootmem.poolBytes = totalBytes s.returned
  room : totalBytes s.returned ≤ s.bootmem.poolEnd

theorem totalBytes_append (xs ys : List AllocSegment) :
    totalBytes (xs ++ ys) = totalBytes xs + totalBytes ys := by
  simp [totalBytes]

/-- Blocks in order between two addresses fit between them. -/
theorem totalBytes_le {lo hi : Nat} : ∀ (blocks : List AllocSegment), lo ≤ hi →
    (∀ g ∈ blocks, lo ≤ g.start ∧ g.stop ≤ hi) →
    (blocks.Pairwise fun g h => g.stop ≤ h.start) → lo + totalBytes blocks ≤ hi := by
  intro blocks
  induction blocks generalizing lo with
  | nil => intro hle _ _; exact hle
  | cons g blocks ih =>
      intro _ hin hsorted
      obtain ⟨hafter, hsorted'⟩ := List.pairwise_cons.mp hsorted
      obtain ⟨h1, h2⟩ := hin g List.mem_cons_self
      have hrest := @ih g.stop h2
        (fun k hk => ⟨hafter k hk, (hin k (List.mem_cons_of_mem _ hk)).2⟩) hsorted'
      simp only [totalBytes, List.map_cons, List.sum_cons, AllocSegment.stop] at hrest ⊢
      omega

/-- New blocks between the old and the new `pool_end` are entered. -/
theorem LedgerInv.enter {s : Ledger} {b : Bootmem} {blocks : List AllocSegment}
    (h : LedgerInv kernel table s)
    (hpool : PoolInv kernel table (Ledger.mk b (s.returned ++ blocks)).pool)
    (hgrow : s.bootmem.poolEnd ≤ b.poolEnd)
    (hin : ∀ g ∈ blocks, InRam table s.bootmem.poolEnd g.start g.size ∧ 0 < g.size ∧
      g.stop ≤ b.poolEnd)
    (hsorted : blocks.Pairwise fun g h => g.stop ≤ h.start)
    (hbytes : b.poolBytes = (s.bootmem.poolBytes + totalBytes blocks) % 2 ^ 64) :
    LedgerInv kernel table ⟨b, s.returned ++ blocks⟩ := by
  have hkernel : kernel.kernelEnd ≤ s.bootmem.poolEnd := h.pool.above.trans h.pool.grown
  have hfit : s.bootmem.poolEnd + totalBytes blocks ≤ b.poolEnd :=
    totalBytes_le blocks hgrow (fun g hg => ⟨(hin g hg).1.lower, (hin g hg).2.2⟩) hsorted
  have hroom : totalBytes (s.returned ++ blocks) ≤ b.poolEnd := by
    have := h.room
    rw [totalBytes_append]
    omega
  have hbound : b.poolEnd ≤ 2 ^ 52 := hpool.bounded
  refine ⟨hpool, fun g hg => ?_, fun g hg => ?_, fun g hg => ?_, ?_, ?_, hroom⟩
  · rcases List.mem_append.mp hg with hg | hg
    · exact h.inRam g hg
    · obtain ⟨h1, h2, h3, h4⟩ := (hin g hg).1
      exact ⟨hkernel.trans h1, h2, h3, h4⟩
  · rcases List.mem_append.mp hg with hg | hg
    · exact h.pos g hg
    · exact (hin g hg).2.1
  · rcases List.mem_append.mp hg with hg | hg
    · exact (h.below g hg).trans hgrow
    · exact (hin g hg).2.2
  · refine List.pairwise_append.mpr ⟨h.sorted, hsorted, fun g hg k hk => ?_⟩
    exact (h.below g hg).trans (hin k hk).1.lower
  · show b.poolBytes = _
    rw [hbytes, h.bytes, ← totalBytes_append]
    exact Nat.mod_eq_of_lt (lt_of_le_of_lt (hroom.trans hbound) (by decide))

/-- **`bootmem_alloc_page_phys`** keeps the ledger. -/
theorem LedgerInv.page {s : Ledger} (h : LedgerInv kernel table s) (hram : RamBelow table) :
    ∃ s', Ledger.call table s .page = .ok s' ∧ LedgerInv kernel table s' := by
  rcases h.pool.allocPagePhys hram with
    hnone | ⟨phys, b, hpage, hin, hstate, hstart, hend, hle, hbytes, hentry⟩
  · refine ⟨s, ?_, h⟩
    simp only [Ledger.call]
    rw [show s.bootmem = s.pool.bootmem from rfl, hnone]
    simp only [if_true]
    rfl
  · have hlow := hin.lower
    have hphys : phys ≠ 0 := by
      have h1 := h.pool.above
      have h2 := h.pool.grown
      simp only [KernelImage.kernelEnd, kernelPhys] at h1
      omega
    have hcall : Ledger.call table s .page = .ok ⟨b, s.returned ++ [⟨phys, pageSize⟩]⟩ := by
      simp only [Ledger.call]
      rw [show s.bootmem = s.pool.bootmem from rfl, hpage]
      simp only [if_neg hphys]
    obtain ⟨p, hp, hinv⟩ := h.pool.page hram
    rw [Ledger.call_pool hcall] at hp
    cases hp
    have hold : s.pool.bootmem = s.bootmem := rfl
    rw [hold] at hlow hin hbytes
    refine ⟨_, hcall, h.enter hinv (by omega) (fun g hg => ?_) (List.pairwise_singleton _ _) ?_⟩
    · rw [List.mem_singleton.mp hg]
      exact ⟨hin, by show 0 < pageSize; decide, hend.ge⟩
    · rw [hbytes]
      simp [totalBytes]

/-- What `__alloc` can do: nothing, or hand out what the search found. -/
theorem bootmemAlloc_cases (table : List E820Entry) {b : Bootmem} (hstate : b.state = .enabled)
    (bytes : Nat) :
    bootmemAlloc table bytes b = ([], b) ∨
    ∃ segments last j, 0 < bytes ∧
      findSegments b.poolEnd bytes b.currentE820Entry 0 (table.drop b.currentE820Entry) =
        some (segments, last, j) ∧
      bootmemAlloc table bytes b = (segments, { b with
        poolEnd := last, poolBytes := (b.poolBytes + bytes) % 2 ^ 64, currentE820Entry := j }) := by
  unfold bootmemAlloc
  rw [if_neg (not_not.mpr hstate)]
  by_cases h0 : bytes = 0
  · exact .inl (if_pos h0)
  · rw [if_neg h0]
    cases hfind : findSegments b.poolEnd bytes b.currentE820Entry 0
        (table.drop b.currentE820Entry) with
    | none => exact .inl rfl
    | some res => exact .inr ⟨res.1, res.2.1, res.2.2, Nat.pos_of_ne_zero h0, rfl, rfl⟩

/-- **`__alloc`** keeps the ledger. -/
theorem LedgerInv.alloc {s : Ledger} (h : LedgerInv kernel table s) (hram : RamBelow table)
    (hsorted : table.Pairwise fun e f => e.stop ≤ f.addr) {bytes : Nat} (hdvd : pageSize ∣ bytes)
    (hbytes : bytes < 2 ^ 52) :
    ∃ s', Ledger.call table s (.alloc bytes) = .ok s' ∧ LedgerInv kernel table s' := by
  obtain ⟨p, hp, hinv⟩ := h.pool.alloc hram hsorted hdvd hbytes
  have hstate : s.bootmem.state = .enabled := h.pool.enabled
  rcases bootmemAlloc_cases table hstate bytes with
    hnone | ⟨segments, last, j, hpos, hfind, halloc⟩
  · refine ⟨s, ?_, h⟩
    simp only [Ledger.call, hnone, List.append_nil]
  · have hcall : Ledger.call table s (.alloc bytes) = .ok ⟨{ s.bootmem with
        poolEnd := last, poolBytes := (s.bootmem.poolBytes + bytes) % 2 ^ 64,
        currentE820Entry := j }, s.returned ++ segments⟩ := by
      simp only [Ledger.call, halloc]
    rw [Ledger.call_pool hcall] at hp
    cases hp
    have hs := findSegments_spec h.pool.bounded hdvd hbytes _ _ _ (hram.drop _)
      (hsorted.sublist (List.drop_sublist _ _)) (Nat.dvd_zero _) hpos hfind
    have hc := findSegments_chained h.pool.bounded hdvd hbytes _ _ _ (hram.drop _)
      (hsorted.sublist (List.drop_sublist _ _)) (Nat.dvd_zero _) hpos hfind
    refine ⟨_, hcall, h.enter hinv hs.lo_le (fun g hg => ?_) hc.sorted ?_⟩
    · obtain ⟨⟨h1, h2, h3, e, he, h4⟩, h5⟩ := hs.inRam g hg
      exact ⟨⟨h1, h2, h3, e, List.mem_of_mem_drop he, h4⟩, hc.pos g hg, h5⟩
    · rw [hc.total_eq, Nat.sub_zero]

/-- Two RAM entries with a hole, and a request that needs both. -/
def holeTable : List E820Entry := [⟨0x200000, 0x33800, 1⟩, ⟨0x300000, 0x100000, 1⟩]

end DevOS.Arch
