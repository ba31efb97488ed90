import DevOS.Boot.FatRead
import DevOS.Lib.Run

/-!
# FAT32 — the FAT cache over runs

`fat_get_next_cluster` on any devices, one call after the other, while any
`disk_read` may fail. A read that fails has left anything in the cache, and the
cache still names the sector it held before. So the cache stays coherent as
long as no fetch fails while it is valid, and what it gives are entries of the
FAT as long as the sectors fetched have numbers of 32 bits.
-/

namespace DevOS.Boot

open DevOS.Lib

variable {ω : Type} {diskRead : DiskRead ω} {image : DiskImage} {st st' : FatState ω}

/-- A call of `fat_get_next_cluster`. -/
structure NextCall where
  dev : FatDev
  cluster : UInt32

/-- What it is asked for. -/
def NextCall.run (diskRead : DiskRead ω) (st : FatState ω) (call : NextCall) :
    Except Int Nat × FatState ω :=
  fatGetNextCluster diskRead call.dev call.cluster.toNat st

/-- One call, for its state. -/
def NextCall.step (diskRead : DiskRead ω) (st : FatState ω) (call : NextCall) :
    Except String (FatState ω) := .ok (call.run diskRead st).2

/-- The sector of the FAT, relative to the partition, as `fat_cache_fetch` asks
for it. -/
def NextCall.sector (call : NextCall) : Nat :=
  u32 (call.dev.fat.toNat + call.cluster.toNat / 128)

/-- What `disk_read` is asked for when the sector is fetched. -/
def NextCall.request (call : NextCall) : DiskRequest :=
  ⟨call.dev.abar, call.dev.port, u32 (call.dev.lba.toNat + call.sector), 1⟩

/-- The call fetches a sector with `disk_read`. -/
def NextCall.Fetches (st : FatState ω) (call : NextCall) : Prop :=
  fatCacheIsStale st.cache call.dev (call.cluster.toNat / 128) = true ∧
    u32 (call.sector + 1) ≤ call.dev.sectors.toNat

/-- A call the cache stands: a `disk_read` that it needs does not fail while the
cache is valid, and the number of the FAT sector that it reads fits in 32
bits. -/
structure NextCall.Safe (diskRead : DiskRead ω) (st : FatState ω) (call : NextCall) : Prop where
  reads : st.cache.valid = true → call.Fetches st → (diskRead st.world call.request).1 = 0
  fits : call.Fetches st →
    call.dev.lba.toNat + call.dev.fat.toNat + call.cluster.toNat / 128 < 2 ^ 32

/-- The cache is coherent, and the number of the sector that it holds fits in 32
bits. -/
structure FatCache.Exact (cache : FatCache) (image : DiskImage) : Prop where
  coherent : cache.Coherent image
  fits : cache.valid = true → cache.lba.toNat + cache.fat.toNat + cache.sectorNo < 2 ^ 32

/-- A read that succeeds has passed the check. -/
theorem fatReadSectors_passed {dev : FatDev} {lba count : Nat}
    {w w' : ω} {bytes : List UInt8}
    (h : fatReadSectors diskRead dev lba count w = (0, bytes, w')) :
    u32 (lba + count) ≤ dev.sectors.toNat := by
  by_contra hno
  rw [fatReadSectors_rejected (Nat.lt_of_not_le hno)] at h
  cases h

theorem fatCacheFetch_passed {dev : FatDev} {sectorNo : Nat}
    (h : fatCacheFetch diskRead dev sectorNo st = (0, st')) :
    u32 (u32 (dev.fat.toNat + sectorNo) + 1) ≤ dev.sectors.toNat ∧
      st'.cache.sectorNo = sectorNo := by
  unfold fatCacheFetch at h
  generalize hread :
    fatReadSectors diskRead dev (u32 (dev.fat.toNat + sectorNo)) 1 st.world = r at h
  obtain ⟨code, bytes, w⟩ := r
  dsimp only at h
  split at h
  · rename_i hcode
    exact absurd (Prod.mk.inj h).1 hcode
  · rename_i hcode
    rw [not_not.mp hcode] at hread
    cases h
    exact ⟨fatReadSectors_passed hread, rfl⟩

/-- A fetch that fails has been rejected and left everything as it was, or its
`disk_read` failed and the cache is as valid as before. -/
theorem fatCacheFetch_failed {dev : FatDev} {sectorNo : Nat} {code : Int}
    (h : fatCacheFetch diskRead dev sectorNo st = (code, st')) (hcode : code ≠ 0) :
    st'.cache = st.cache ∨
    u32 (u32 (dev.fat.toNat + sectorNo) + 1) ≤ dev.sectors.toNat ∧
      (diskRead st.world ⟨dev.abar, dev.port,
        u32 (dev.lba.toNat + u32 (dev.fat.toNat + sectorNo)), 1⟩).1 ≠ 0 ∧
      st'.cache.valid = st.cache.valid := by
  unfold fatCacheFetch at h
  by_cases haccept : u32 (u32 (dev.fat.toNat + sectorNo) + 1) ≤ dev.sectors.toNat
  · right
    rw [fatReadSectors_accepted haccept] at h
    generalize diskRead st.world _ = r at h ⊢
    obtain ⟨c, bytes, w⟩ := r
    dsimp only at h ⊢
    split at h
    · rename_i hc
      cases h
      exact ⟨haccept, hc, rfl⟩
    · cases h
      exact absurd rfl hcode
  · left
    rw [fatReadSectors_rejected (Nat.lt_of_not_le haccept)] at h
    dsimp only at h
    rw [if_pos (by decide), patch_nil] at h
    cases h
    rfl

/-- A call that fails has failed to fetch. -/
theorem fatGetNextCluster_error {dev : FatDev} {c : Nat} {code : Int}
    (h : fatGetNextCluster diskRead dev c st = (.error code, st')) :
    fatCacheIsStale st.cache dev (c / 128) = true ∧ code ≠ 0 ∧
      fatCacheFetch diskRead dev (c / 128) st = (code, st') := by
  unfold fatGetNextCluster at h
  dsimp only at h
  split at h
  · rename_i hstale
    generalize fatCacheFetch diskRead dev (c / 128) st = r at h
    obtain ⟨code₁, st₁⟩ := r
    dsimp only at h
    split at h
    · rename_i hcode
      cases h
      exact ⟨hstale, hcode, rfl⟩
    · cases h
  · cases h

/-- After a call that succeeds the cache is fresh for the cluster; either it was
so before, or the sector has been fetched. -/
theorem fatGetNextCluster_fresh (hhonest : Honest diskRead image) {dev : FatDev} {c next : Nat}
    (h : fatGetNextCluster diskRead dev c st = (.ok next, st')) :
    fatCacheIsStale st'.cache dev (c / 128) = false ∧
      (st' = st ∨ fatCacheIsStale st.cache dev (c / 128) = true ∧
        u32 (u32 (dev.fat.toNat + c / 128) + 1) ≤ dev.sectors.toNat) := by
  unfold fatGetNextCluster at h
  dsimp only at h
  split at h
  · rename_i hstale
    generalize hfetch : fatCacheFetch diskRead dev (c / 128) st = r at h
    obtain ⟨code, st₁⟩ := r
    dsimp only at h
    split at h
    · cases h
    · rename_i hcode
      rw [not_not.mp hcode] at hfetch
      cases h
      exact ⟨(fatCacheFetch_coherent hhonest hfetch).2,
        .inr ⟨hstale, (fatCacheFetch_passed hfetch).1⟩⟩
  · rename_i hfresh
    cases h
    exact ⟨Bool.eq_false_iff.mpr hfresh, .inl rfl⟩

/-- **One call** keeps an exact cache; where it succeeds it gives the FAT
entry. -/
theorem NextCall.Safe.exact (hhonest : Honest diskRead image) {call : NextCall}
    (hsafe : call.Safe diskRead st) (hexact : st.cache.Exact image) :
    (call.run diskRead st).2.cache.Exact image ∧
      ∀ next, (call.run diskRead st).1 = .ok next →
        next = call.dev.fatEntry image call.cluster.toNat := by
  generalize hrun : call.run diskRead st = r
  obtain ⟨result, st'⟩ := r
  cases result with
  | ok next =>
      obtain ⟨hlink, hco⟩ := fatGetNextCluster_ok hhonest hexact.coherent hrun
      obtain ⟨hfresh, hfrom⟩ := fatGetNextCluster_fresh hhonest hrun
      obtain ⟨-, -, -, hlba, hfat, -, hno⟩ := fresh_iff.mp hfresh
      have hfits : call.dev.lba.toNat + call.dev.fat.toNat + call.cluster.toNat / 128 < 2 ^ 32 := by
        obtain rfl | hfetches := hfrom
        · have hheld := hexact.fits (fresh_iff.mp hfresh).1
          rw [hlba, hfat, hno] at hheld
          exact hheld
        · exact hsafe.fits hfetches
      refine ⟨⟨hco, fun _ => ?_⟩, fun next' hnext => ?_⟩
      · rw [hlba, hfat, hno]
        exact hfits
      · obtain rfl := Except.ok.inj hnext
        rw [hlink, link_eq_fatEntry image hfits]
  | error code =>
      obtain ⟨hstale, hcode, hfetch⟩ := fatGetNextCluster_error hrun
      refine ⟨?_, fun next hnext => (by cases hnext)⟩
      obtain hsame | ⟨haccept, hfailed, hvalid⟩ := fatCacheFetch_failed hfetch hcode
      · rw [hsame]
        exact hexact
      · -- the cache was not valid, and is not
        have hstays : st'.cache.valid ≠ true := fun hv =>
          hfailed (hsafe.reads (hvalid.symm.trans hv) ⟨hstale, haccept⟩)
        exact ⟨fun hv => absurd hv hstays, fun hv => absurd hv hstays⟩

/-- **The FAT cache is coherent** over every run from the empty cache in which no
fetch fails while the cache is valid: every call that succeeds gives the FAT
entry on its device's disk. -/
theorem fat_cache_coherent (diskRead : DiskRead ω) (image : DiskImage)
    (hhonest : Honest diskRead image) (st₀ : FatState ω) (hempty : st₀.cache.valid = false)
    (calls : List NextCall) (call : NextCall)
    (hsafe : Guarded (NextCall.step diskRead) (fun st call => call.Safe diskRead st) st₀
      (calls ++ [call])) :
    ∃ st, runFrom (NextCall.step diskRead) st₀ calls = .ok st ∧
      ∀ next, (call.run diskRead st).1 = .ok next →
        next = call.dev.fatEntry image call.cluster.toNat := by
  have hinvalid : st₀.cache.valid ≠ true := by
    rw [hempty]
    exact Bool.false_ne_true
  have hexact₀ : st₀.cache.Exact image :=
    ⟨fun hv => absurd hv hinvalid, fun hv => absurd hv hinvalid⟩
  obtain ⟨hbefore, hlast⟩ := hsafe.split
  obtain ⟨st, hrun, hexact⟩ := hbefore.progress (I := fun st => st.cache.Exact image)
    (fun st call hexact hcall => ⟨_, rfl, (hcall.exact hhonest hexact).1⟩) hexact₀
  exact ⟨st, hrun, ((hlast st hrun).1.exact hhonest hexact).2⟩

/-- Two calls that each need a sector of their own. -/
def sampleCalls : List NextCall := [⟨sampleDev, 5⟩, ⟨sampleDev, 200⟩]

theorem fat_cache_coherent_sample : ∃ st,
    runFrom (NextCall.step fun (w : Unit) rq => (0, sampleImage.contents rq, w))
      ⟨(), sampleCache, fun _ => 0⟩ [⟨sampleDev, 5⟩] = .ok st ∧
    ∀ next, ((⟨sampleDev, 200⟩ : NextCall).run
        (fun (w : Unit) rq => (0, sampleImage.contents rq, w)) st).1 = .ok next →
      next = sampleDev.fatEntry sampleImage 200 :=
  fat_cache_coherent (fun w rq => (0, sampleImage.contents rq, w)) sampleImage (fun _ _ _ => rfl)
    ⟨(), sampleCache, fun _ => 0⟩ rfl [⟨sampleDev, 5⟩] ⟨sampleDev, 200⟩
    ⟨⟨fun _ _ => rfl, fun _ => by decide⟩, ⟨fun _ _ => rfl, fun _ => by decide⟩, trivial⟩

/-- The second read fails, and stores a sector of zeros. -/
def failingSecond (reads : Nat) (rq : DiskRequest) : Int × List UInt8 × Nat :=
  if reads = 1 then (-1, List.replicate 512 0, reads + 1)
  else (0, sampleImage.contents rq, reads + 1)

/-- **A fetch that fails spoils the cache**: cluster 5 links to cluster 3, but
after a failed fetch of another sector the cache says 0. -/
theorem fat_cache_spoilt : Honest failingSecond sampleImage ∧ sampleCache.valid = false ∧
    ∃ st, runFrom (NextCall.step failingSecond) ⟨0, sampleCache, fun _ => 0⟩ sampleCalls = .ok st ∧
      ((⟨sampleDev, 5⟩ : NextCall).run failingSecond st).1 = .ok 0 ∧
      sampleDev.fatEntry sampleImage 5 = 3 := by
  refine ⟨fun w rq hok => ?_, rfl, _, rfl, ?_, ?_⟩
  · unfold failingSecond at hok ⊢
    split at hok
    · cases hok
    · rename_i hsecond
      rw [if_neg hsecond]
  · decide +kernel
  · decide +kernel

end DevOS.Boot
