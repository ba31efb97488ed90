import DevOS.Boot.FatWay

/-!
# FAT32 — two disks in lockstep

`fat_read` on two disks that differ in the top four bits of FAT entries only.
The code takes all 32 bits of an entry for the next cluster. So an entry matters
whose low 28 bits are a cluster and whose top bits are 0 on one of the disks
only: there the chain goes on and on the other disk it ends. As long as no such
entry decides how a run goes on, the two runs make the same requests and come
to the same result.
-/

namespace DevOS.Boot

open DevOS.Lib

/-! ## Two disks -/

/-- The sector is one of the FAT's. -/
def FatDev.IsFatSector (dev : FatDev) (abar : Nat) (port : UInt8) (lba : Nat) : Prop :=
  abar = dev.abar ∧ port = dev.port ∧ dev.lba.toNat + dev.fat.toNat ≤ lba ∧
    lba < dev.lba.toNat + dev.fat.toNat + dev.fatSectors.toNat

/-- Entry `i` of a sector of the FAT. -/
def sectorEntry (bytes : List UInt8) (i : Nat) : Nat :=
  littleEndian (fun j => bytes.getD j 0) 4 (4 * i)

/-- The disks differ in reserved bits of FAT entries only. -/
structure ReservedDiffer (dev : FatDev) (image₁ image₂ : DiskImage) : Prop where
  outside : ∀ abar port lba, ¬ dev.IsFatSector abar port lba →
    image₁.sector abar port lba = image₂.sector abar port lba
  entries : ∀ abar port lba, dev.IsFatSector abar port lba → ∀ i, i < 128 →
    sectorEntry (image₁.sector abar port lba) i % 2 ^ 28 =
      sectorEntry (image₂.sector abar port lba) i % 2 ^ 28

/-- The FAT entry of the cluster matters: its low 28 bits are a cluster, and its
reserved bits are 0 on one of the disks only. -/
def Sensitive (dev : FatDev) (image₁ image₂ : DiskImage) (c : Nat) : Prop :=
  inChain (dev.link image₁ c % 2 ^ 28) = true ∧
    ¬ (dev.link image₁ c < 2 ^ 28 ↔ dev.link image₂ c < 2 ^ 28)

section Disks

variable {dev : FatDev} {image₁ image₂ : DiskImage}

/-- The low bits of links are the same on both disks. -/
theorem ReservedDiffer.link_mod (hdiffer : ReservedDiffer dev image₁ image₂) (c : Nat) :
    dev.link image₁ c % 2 ^ 28 = dev.link image₂ c % 2 ^ 28 := by
  have hsector := hdiffer.outside dev.abar dev.port
    (u32 (dev.lba.toNat + u32 (dev.fat.toNat + c / 128)))
  have hentries := hdiffer.entries dev.abar dev.port
    (u32 (dev.lba.toNat + u32 (dev.fat.toNat + c / 128)))
  by_cases hfat : dev.IsFatSector dev.abar dev.port
      (u32 (dev.lba.toNat + u32 (dev.fat.toNat + c / 128)))
  · exact hentries hfat (c % 128) (Nat.mod_lt _ (by decide))
  · unfold FatDev.link
    rw [hsector hfat]

/-- Where the entry does not matter, the links are the same or both lead out of
the clusters. -/
theorem link_eq_or_out (hdiffer : ReservedDiffer dev image₁ image₂) {c : Nat}
    (h : ¬ Sensitive dev image₁ image₂ c) : dev.link image₁ c = dev.link image₂ c ∨
      inChain (dev.link image₁ c) = false ∧ inChain (dev.link image₂ c) = false := by
  have hmod := hdiffer.link_mod c
  simp only [Sensitive, inChain_iff] at h
  rw [inChain_eq_false, inChain_eq_false]
  omega

/-- The sectors that a request is for hold the same on both disks, where it
passes the check. -/
def SameSectors (dev : FatDev) (image₁ image₂ : DiskImage) (lba count : Nat) : Prop :=
  u32 (lba + count) ≤ dev.sectors.toNat →
    image₁.contents ⟨dev.abar, dev.port, u32 (dev.lba.toNat + lba), count⟩ =
      image₂.contents ⟨dev.abar, dev.port, u32 (dev.lba.toNat + lba), count⟩

/-- The sectors of the cluster have numbers below `2 ^ 32`. -/
def FatDev.Unwrapped (dev : FatDev) (c : Nat) : Prop :=
  dev.data.toNat + (c - 1) * dev.sectorsPerCluster.toNat < 2 ^ 32

/-- Sectors behind the FAT hold the same on both disks. -/
theorem sameSectors_data (hdiffer : ReservedDiffer dev image₁ image₂) (hregular : dev.Regular)
    {lba count : Nat} (hdata : dev.data.toNat ≤ lba) (hfit : lba + count < 2 ^ 32) :
    SameSectors dev image₁ image₂ lba count := by
  intro hpass
  have hspan := hregular.span
  have hdata_eq := hregular.data_eq
  rw [u32_of_lt hfit] at hpass
  unfold DiskImage.contents
  refine List.flatMap_congr fun k hk => hdiffer.outside _ _ _ ?_
  have hk' : k < count := List.mem_range.mp hk
  dsimp only
  rw [u32_of_lt (by omega)]
  rintro ⟨-, -, -, hlt⟩
  omega

/-- A cluster's sectors, one by one or at once. -/
theorem FatDev.Unwrapped.same (hdiffer : ReservedDiffer dev image₁ image₂)
    (hregular : dev.Regular) {c : Nat} (hlow : 2 ≤ c) (hfit : dev.Unwrapped c) :
    (∀ s, s < dev.sectorsPerCluster.toNat →
      SameSectors dev image₁ image₂ (u32 (clusterLba dev c + s)) 1) ∧
    SameSectors dev image₁ image₂ (clusterLba dev c) dev.sectorsPerCluster.toNat := by
  have hsplit : (c - 1) * dev.sectorsPerCluster.toNat =
      (c - 2) * dev.sectorsPerCluster.toNat + dev.sectorsPerCluster.toNat := by
    rw [show c - 1 = c - 2 + 1 by omega, Nat.succ_mul]
  unfold FatDev.Unwrapped at hfit
  have hlba : clusterLba dev c = dev.data.toNat + (c - 2) * dev.sectorsPerCluster.toNat :=
    u32_of_lt (by omega)
  refine ⟨fun s hs => ?_, ?_⟩
  · rw [u32_of_lt (by omega)]
    exact sameSectors_data hdiffer hregular (by omega) (by omega)
  · exact sameSectors_data hdiffer hregular (by omega) (by omega)

end Disks

/-! ## Places and FAT entries -/

/-- What `fat_read` reads at the place, of the directory or of the file, holds
the same on both disks. -/
def Place.SameData (dev : FatDev) (image₁ image₂ : DiskImage) : Place → Prop
  | .looking _ c => inChain c = true → ∀ s, s < dev.sectorsPerCluster.toNat →
      SameSectors dev image₁ image₂ (u32 (clusterLba dev c + s)) 1
  | .reading c => inChain c = true →
      SameSectors dev image₁ image₂ (clusterLba dev c) dev.sectorsPerCluster.toNat
  | .blocked => True

/-- No FAT entry that matters decides how `fat_read` goes on from the place. In a
directory one does not where the chain would go on with a cluster whose first
sector is rejected. -/
def Place.Insensitive (dev : FatDev) (image₁ image₂ : DiskImage) : Place → Prop
  | .looking rest c => inChain c = true → dev.scanCluster image₁ (nameExtOf rest) c = .next →
      dev.FatPasses c → Sensitive dev image₁ image₂ c →
      dev.sectors.toNat < u32 (clusterLba dev (dev.link image₁ c % 2 ^ 28) + 1)
  | .reading c => inChain c = true → dev.Readable c → ¬ Sensitive dev image₁ image₂ c
  | .blocked => True

/-! ## Lockstep -/

/-- Two states of the reader, each of its own disk, that a run does not tell
apart. -/
structure Paired {ω : Type} (dev : FatDev) (image₁ image₂ : DiskImage) (st₁ st₂ : FatState ω) :
    Prop where
  world : st₁.world = st₂.world
  buffer : st₁.buffer = st₂.buffer
  stale : ∀ sectorNo,
    fatCacheIsStale st₁.cache dev sectorNo = fatCacheIsStale st₂.cache dev sectorNo
  sound₁ : st₁.cache.Sound dev image₁
  sound₂ : st₂.cache.Sound dev image₂

section Lockstep

variable {ω : Type} {dev : FatDev} {image₁ image₂ : DiskImage} {st₁ st₂ : FatState ω}

/-- Reads on both disks have the same code and the same next world. -/
theorem fatReadSectors_lockstep (faults : DiskRead ω) (dev : FatDev) (image₁ image₂ : DiskImage)
    (lba count : Nat) (w : ω) : ∃ code bytes₁ bytes₂ w',
    fatReadSectors (faulty faults image₁) dev lba count w = (code, bytes₁, w') ∧
    fatReadSectors (faulty faults image₂) dev lba count w = (code, bytes₂, w') ∧
    (SameSectors dev image₁ image₂ lba count → bytes₁ = bytes₂) := by
  by_cases hpass : u32 (lba + count) ≤ dev.sectors.toNat
  · refine ⟨_, _, _, _, fatReadSectors_accepted hpass w, fatReadSectors_accepted hpass w,
      fun hsame => ?_⟩
    rw [hsame hpass]
  · have hreject := Nat.lt_of_not_le hpass
    exact ⟨_, _, _, _, fatReadSectors_rejected hreject w, fatReadSectors_rejected hreject w,
      fun _ => rfl⟩

theorem scanSector_lockstep (faults : DiskRead ω) (hpair : Paired dev image₁ image₂ st₁ st₂)
    (target : List UInt8) {lba : Nat} (hsame : SameSectors dev image₁ image₂ lba 1) : ∃ r st₁' st₂',
    scanSector (faulty faults image₁) dev target lba st₁ = (r, st₁') ∧
    scanSector (faulty faults image₂) dev target lba st₂ = (r, st₂') ∧
    Paired dev image₁ image₂ st₁' st₂' := by
  obtain ⟨code, bytes₁, bytes₂, w', hread₁, hread₂, hbytes⟩ :=
    fatReadSectors_lockstep faults dev image₁ image₂ lba 1 st₁.world
  obtain rfl := hbytes hsame
  rw [hpair.world] at hread₂
  have hkept : Paired dev image₁ image₂ ⟨w', st₁.cache, patch st₁.buffer 0 bytes₁⟩
      ⟨w', st₂.cache, patch st₂.buffer 0 bytes₁⟩ :=
    ⟨rfl, congrArg (patch · 0 bytes₁) hpair.buffer, hpair.stale, hpair.sound₁, hpair.sound₂⟩
  unfold scanSector
  rw [hread₁, hread₂, hpair.buffer]
  rw [hpair.buffer] at hkept
  dsimp only
  split
  · exact ⟨_, _, _, rfl, rfl, hkept⟩
  · exact ⟨_, _, _, rfl, rfl, hkept⟩

theorem scanSectors_lockstep (faults : DiskRead ω) (target : List UInt8) {lba : Nat} :
    ∀ (count s : Nat) {st₁ st₂ : FatState ω}, Paired dev image₁ image₂ st₁ st₂ →
    (∀ k, s ≤ k → k < s + count → SameSectors dev image₁ image₂ (u32 (lba + k)) 1) →
    ∃ r st₁' st₂', scanSectors (faulty faults image₁) dev target lba count s st₁ = (r, st₁') ∧
      scanSectors (faulty faults image₂) dev target lba count s st₂ = (r, st₂') ∧
      Paired dev image₁ image₂ st₁' st₂' := by
  intro count
  induction count with
  | zero => intro s st₁ st₂ hpair _; exact ⟨_, _, _, rfl, rfl, hpair⟩
  | succ count ih =>
      intro s st₁ st₂ hpair hsame
      obtain ⟨r, st₁', st₂', hscan₁, hscan₂, hpair'⟩ :=
        scanSector_lockstep faults hpair target (hsame s (by omega) (by omega))
      rw [scanSectors, scanSectors, hscan₁, hscan₂]
      cases r with
      | next => exact ih (s + 1) hpair' fun k h1 h2 => hsame k (by omega) (by omega)
      | stop code => exact ⟨_, _, _, rfl, rfl, hpair'⟩
      | found e => exact ⟨_, _, _, rfl, rfl, hpair'⟩

theorem fatCacheFetch_lockstep (faults : DiskRead ω) (hpair : Paired dev image₁ image₂ st₁ st₂)
    (sectorNo : Nat) : ∃ code st₁' st₂',
    fatCacheFetch (faulty faults image₁) dev sectorNo st₁ = (code, st₁') ∧
    fatCacheFetch (faulty faults image₂) dev sectorNo st₂ = (code, st₂') ∧
    (code = 0 → st₁'.world = st₂'.world ∧ st₁'.buffer = st₂'.buffer ∧
      ∀ n, fatCacheIsStale st₁'.cache dev n = fatCacheIsStale st₂'.cache dev n) := by
  obtain ⟨code, bytes₁, bytes₂, w', hread₁, hread₂, -⟩ := fatReadSectors_lockstep faults dev
    image₁ image₂ (u32 (dev.fat.toNat + sectorNo)) 1 st₁.world
  rw [hpair.world] at hread₂
  unfold fatCacheFetch
  rw [hread₁, hread₂]
  dsimp only
  by_cases hcode : code = 0
  · rw [if_neg (fun hne => hne hcode), if_neg (fun hne => hne hcode)]
    exact ⟨_, _, _, rfl, rfl, fun _ => ⟨rfl, hpair.buffer, fun _ => rfl⟩⟩
  · rw [if_pos hcode, if_pos hcode]
    exact ⟨_, _, _, rfl, rfl, fun h => absurd h hcode⟩

/-- **`fat_get_next_cluster` in lockstep**: both fail with one code, or each gives
the link on its own disk. -/
theorem fatGetNextCluster_lockstep (faults : DiskRead ω)
    (hpair : Paired dev image₁ image₂ st₁ st₂) (c : Nat) :
    (∃ code st₁' st₂', fatGetNextCluster (faulty faults image₁) dev c st₁ = (.error code, st₁') ∧
      fatGetNextCluster (faulty faults image₂) dev c st₂ = (.error code, st₂')) ∨
    ∃ st₁' st₂', fatGetNextCluster (faulty faults image₁) dev c st₁ =
        (.ok (dev.link image₁ c), st₁') ∧
      fatGetNextCluster (faulty faults image₂) dev c st₂ = (.ok (dev.link image₂ c), st₂') ∧
      Paired dev image₁ image₂ st₁' st₂' ∧ dev.FatPasses c := by
  -- that both succeed is enough: what they then give is known
  have hok : ∀ {next₁ next₂ : Nat} {st₁' st₂' : FatState ω},
      fatGetNextCluster (faulty faults image₁) dev c st₁ = (.ok next₁, st₁') →
      fatGetNextCluster (faulty faults image₂) dev c st₂ = (.ok next₂, st₂') →
      (st₁'.world = st₂'.world ∧ st₁'.buffer = st₂'.buffer ∧
        ∀ n, fatCacheIsStale st₁'.cache dev n = fatCacheIsStale st₂'.cache dev n) →
      ∃ st₁' st₂', fatGetNextCluster (faulty faults image₁) dev c st₁ =
          (.ok (dev.link image₁ c), st₁') ∧
        fatGetNextCluster (faulty faults image₂) dev c st₂ = (.ok (dev.link image₂ c), st₂') ∧
        Paired dev image₁ image₂ st₁' st₂' ∧ dev.FatPasses c := by
    rintro next₁ next₂ st₁' st₂' h₁ h₂ ⟨hworld, hbuffer, hstale⟩
    obtain ⟨rfl, hpass, hsound₁⟩ :=
      fatGetNextCluster_sound (faulty_honest faults image₁) hpair.sound₁ h₁
    obtain ⟨rfl, -, hsound₂⟩ :=
      fatGetNextCluster_sound (faulty_honest faults image₂) hpair.sound₂ h₂
    exact ⟨_, _, h₁, h₂, ⟨hworld, hbuffer, hstale, hsound₁, hsound₂⟩, hpass⟩
  cases hstale : fatCacheIsStale st₁.cache dev (c / 128) with
  | false =>
      have hstale₂ := hpair.stale (c / 128)
      rw [hstale] at hstale₂
      have h₁ : fatGetNextCluster (faulty faults image₁) dev c st₁ =
          (.ok (st₁.cache.entryAt (c % 128)), st₁) := by
        unfold fatGetNextCluster
        dsimp only
        rw [hstale]
        rfl
      have h₂ : fatGetNextCluster (faulty faults image₂) dev c st₂ =
          (.ok (st₂.cache.entryAt (c % 128)), st₂) := by
        unfold fatGetNextCluster
        dsimp only
        rw [← hstale₂]
        rfl
      exact .inr (hok h₁ h₂ ⟨hpair.world, hpair.buffer, hpair.stale⟩)
  | true =>
      have hstale₂ := hpair.stale (c / 128)
      rw [hstale] at hstale₂
      obtain ⟨code, st₁', st₂', hfetch₁, hfetch₂, hsame⟩ :=
        fatCacheFetch_lockstep faults hpair (c / 128)
      have hrun : ∀ {image : DiskImage} {st st' : FatState ω},
          fatCacheIsStale st.cache dev (c / 128) = true →
          fatCacheFetch (faulty faults image) dev (c / 128) st = (code, st') →
          fatGetNextCluster (faulty faults image) dev c st =
            if code ≠ 0 then (.error code, st') else (.ok (st'.cache.entryAt (c % 128)), st') := by
        intro image st st' hs hfetch
        unfold fatGetNextCluster
        dsimp only
        rw [if_pos hs, hfetch]
      have h₁ := hrun hstale hfetch₁
      have h₂ := hrun hstale₂.symm hfetch₂
      by_cases hcode : code = 0
      · rw [if_neg (fun hne => hne hcode)] at h₁ h₂
        exact .inr (hok h₁ h₂ (hsame hcode))
      · rw [if_pos hcode] at h₁ h₂
        exact .inl ⟨code, st₁', st₂', h₁, h₂⟩

/-! ## Directories -/

/-- **A round of a lookup in lockstep**: both end with one code or with one
entry, or each goes on with the link on its own disk. -/
theorem fileLookupBody_lockstep (faults : DiskRead ω)
    (hpair : Paired dev image₁ image₂ st₁ st₂) (target : List UInt8) {c : Nat}
    (hsame : inChain c = true → ∀ s, s < dev.sectorsPerCluster.toNat →
      SameSectors dev image₁ image₂ (u32 (clusterLba dev c + s)) 1) :
    (∃ code st₁' st₂', fileLookupBody (faulty faults image₁) dev target (c, st₁) =
        .inr (.error code, st₁') ∧
      fileLookupBody (faulty faults image₂) dev target (c, st₂) = .inr (.error code, st₂')) ∨
    inChain c = true ∧
    ((∃ e st₁' st₂', dev.scanCluster image₁ target c = .found e ∧
      fileLookupBody (faulty faults image₁) dev target (c, st₁) = .inr (.ok e, st₁') ∧
      fileLookupBody (faulty faults image₂) dev target (c, st₂) = .inr (.ok e, st₂') ∧
      Paired dev image₁ image₂ st₁' st₂') ∨
    ∃ st₁' st₂', dev.scanCluster image₁ target c = .next ∧ dev.FatPasses c ∧
      fileLookupBody (faulty faults image₁) dev target (c, st₁) =
        .inl (dev.link image₁ c, st₁') ∧
      fileLookupBody (faulty faults image₂) dev target (c, st₂) =
        .inl (dev.link image₂ c, st₂') ∧
      Paired dev image₁ image₂ st₁' st₂') := by
  unfold fileLookupBody
  dsimp only
  cases hin : inChain c with
  | false => exact .inl ⟨-1, st₁, st₂, rfl, rfl⟩
  | true =>
      obtain ⟨r, s₁, s₂, hscan₁, hscan₂, hpair'⟩ := scanSectors_lockstep faults target
        dev.sectorsPerCluster.toNat 0 hpair fun k _ hk => hsame hin k (by omega)
      rw [if_pos rfl, if_pos rfl, hscan₁, hscan₂]
      cases r with
      | stop code => exact .inl ⟨code, s₁, s₂, rfl, rfl⟩
      | found e =>
          have hscan := scanSectors_honest (faulty_honest faults image₁) _ _ hscan₁
            (fun _ => Scan.noConfusion) freshState
          exact .inr ⟨rfl, .inl ⟨e, s₁, s₂, hscan, rfl, rfl, hpair'⟩⟩
      | next =>
          have hscan := scanSectors_honest (faulty_honest faults image₁) _ _ hscan₁
            (fun _ => Scan.noConfusion) freshState
          dsimp only
          obtain ⟨code, t₁, t₂, hnext₁, hnext₂⟩ | ⟨t₁, t₂, hnext₁, hnext₂, hpair'', hpass⟩ :=
            fatGetNextCluster_lockstep faults hpair' c
          · rw [hnext₁, hnext₂]
            exact .inl ⟨code, t₁, t₂, rfl, rfl⟩
          · rw [hnext₁, hnext₂]
            exact .inr ⟨rfl, .inr ⟨t₁, t₂, hscan, hpass, rfl, rfl, hpair''⟩⟩

/-- A lookup that comes to the cluster ends there: it is none, or its first
sector is rejected. -/
def FatDev.DeadEnd (dev : FatDev) (c : Nat) : Prop :=
  inChain c = false ∨ dev.sectors.toNat < u32 (clusterLba dev c + 1)

/-- The scan of such a cluster is rejected. -/
theorem FatDev.DeadEnd.scan (hspc : 0 < dev.sectorsPerCluster.toNat) {c : Nat}
    (h : dev.DeadEnd c) (hin : inChain c = true) (diskRead : DiskRead ω) (target : List UInt8)
    (st : FatState ω) : ∃ st', scanSectors diskRead dev target (clusterLba dev c)
      dev.sectorsPerCluster.toNat 0 st = (.stop (-1), st') := by
  obtain hout | hreject := h
  · rw [hin] at hout
    cases hout
  · have hscan : ∃ st', scanSector diskRead dev target (clusterLba dev c) st =
        (.stop (-1), st') := by
      rw [scanSector, fatReadSectors_rejected hreject]
      exact ⟨_, rfl⟩
    obtain ⟨st', hscan⟩ := hscan
    exact ⟨st', scanSectors_stop hspc hscan⟩

theorem FatDev.DeadEnd.body (hspc : 0 < dev.sectorsPerCluster.toNat) {c : Nat}
    (h : dev.DeadEnd c) (diskRead : DiskRead ω) (target : List UInt8) (st : FatState ω) :
    ∃ st', fileLookupBody diskRead dev target (c, st) = .inr (.error (-1), st') := by
  unfold fileLookupBody
  dsimp only
  cases hin : inChain c with
  | false => exact ⟨st, rfl⟩
  | true =>
      obtain ⟨st', hscan⟩ := h.scan hspc hin diskRead target st
      refine ⟨st', ?_⟩
      rw [if_pos rfl, hscan]

/-- Where the FAT entry does not matter for a lookup, the links are the same or
the lookup ends at either. -/
theorem link_eq_or_dead (hdiffer : ReservedDiffer dev image₁ image₂) {c : Nat}
    (h : Sensitive dev image₁ image₂ c →
      dev.sectors.toNat < u32 (clusterLba dev (dev.link image₁ c % 2 ^ 28) + 1)) :
    dev.link image₁ c = dev.link image₂ c ∨
      dev.DeadEnd (dev.link image₁ c) ∧ dev.DeadEnd (dev.link image₂ c) := by
  by_cases hsensitive : Sensitive dev image₁ image₂ c
  · have hreject := h hsensitive
    -- a link is the cluster of its low bits, or no cluster
    have hdead : ∀ x, x % 2 ^ 28 = dev.link image₁ c % 2 ^ 28 → dev.DeadEnd x := by
      intro x hx
      by_cases hlt : x < 2 ^ 28
      · right
        rw [← Nat.mod_eq_of_lt hlt, hx]
        exact hreject
      · left
        rw [inChain_eq_false]
        omega
    exact .inr ⟨hdead _ rfl, hdead _ (hdiffer.link_mod c).symm⟩
  · obtain heq | ⟨hout₁, hout₂⟩ := link_eq_or_out hdiffer hsensitive
    · exact .inl heq
    · exact .inr ⟨.inl hout₁, .inl hout₂⟩

/-- What two lookups in lockstep come to: the same, and at an entry the states
are still paired. -/
def SameLookup (dev : FatDev) (image₁ image₂ : DiskImage) (ok : FatDirEntry → Prop)
    (r₁ r₂ : Option (Except Int FatDirEntry × FatState ω)) : Prop :=
  r₁ = none ∧ r₂ = none ∨
  (∃ code st₁ st₂, r₁ = some (.error code, st₁) ∧ r₂ = some (.error code, st₂)) ∨
  ∃ e st₁ st₂, r₁ = some (.ok e, st₁) ∧ r₂ = some (.ok e, st₂) ∧
    Paired dev image₁ image₂ st₁ st₂ ∧ ok e

/-- The way of the path on the first disk. -/
structure SafeWay (dev : FatDev) (image₁ image₂ : DiskImage) (path : Option (List UInt8)) :
    Prop where
  sameData : ∀ place, Comes dev image₁ path place → place.SameData dev image₁ image₂
  insensitive : ∀ place, Comes dev image₁ path place → place.Insensitive dev image₁ image₂

variable {path : Option (List UInt8)}

/-- **A lookup in lockstep.** -/
theorem fileLookup_loop_lockstep (faults : DiskRead ω)
    (hdiffer : ReservedDiffer dev image₁ image₂)
    (hspc : 0 < dev.sectorsPerCluster.toNat) (hway : SafeWay dev image₁ image₂ path)
    {rest : List UInt8} : ∀ (n : Nat) {c : Nat} {st₁ st₂ : FatState ω},
    Paired dev image₁ image₂ st₁ st₂ → Comes dev image₁ path (.looking rest c) →
    SameLookup dev image₁ image₂
      (fun e => Comes dev image₁ path (enter ((strchr '/'.toUInt8 rest).map List.tail) e))
      (iterate (fileLookupBody (faulty faults image₁) dev (nameExtOf rest)) n (c, st₁))
      (iterate (fileLookupBody (faulty faults image₂) dev (nameExtOf rest)) n (c, st₂)) := by
  intro n
  induction n with
  | zero => intro c st₁ st₂ _ _; exact .inl ⟨rfl, rfl⟩
  | succ n ih =>
      intro c st₁ st₂ hpair hcomes
      obtain ⟨code, s₁, s₂, hb₁, hb₂⟩ | ⟨hin, hfound | hnext⟩ :=
        fileLookupBody_lockstep faults hpair (nameExtOf rest) (hway.sameData _ hcomes)
      · rw [iterate_done hb₁, iterate_done hb₂]
        exact .inr (.inl ⟨code, s₁, s₂, rfl, rfl⟩)
      · obtain ⟨e, s₁, s₂, hscan, hb₁, hb₂, hpair'⟩ := hfound
        rw [iterate_done hb₁, iterate_done hb₂]
        exact .inr (.inr ⟨e, s₁, s₂, rfl, rfl, hpair', hcomes.find hin hscan⟩)
      · obtain ⟨s₁, s₂, hscan, hpass, hb₁, hb₂, hpair'⟩ := hnext
        rw [iterate_next hb₁, iterate_next hb₂]
        obtain heq | ⟨hdead₁, hdead₂⟩ := link_eq_or_dead hdiffer
          (hway.insensitive _ hcomes hin hscan hpass)
        · rw [← heq]
          exact ih hpair' (hcomes.look hin hscan hpass)
        · cases n with
          | zero => exact .inl ⟨rfl, rfl⟩
          | succ n =>
              obtain ⟨t₁, he₁⟩ := hdead₁.body hspc (faulty faults image₁) (nameExtOf rest) s₁
              obtain ⟨t₂, he₂⟩ := hdead₂.body hspc (faulty faults image₂) (nameExtOf rest) s₂
              rw [iterate_done he₁, iterate_done he₂]
              exact .inr (.inl ⟨-1, t₁, t₂, rfl, rfl⟩)

/-- **A walk in lockstep.** -/
theorem pathLoop_lockstep (faults : DiskRead ω) (hdiffer : ReservedDiffer dev image₁ image₂)
    (hspc : 0 < dev.sectorsPerCluster.toNat)
    (hway : SafeWay dev image₁ image₂ path) (n : Nat) : ∀ (rounds : Nat)
    {rest : Option (List UInt8)} {entry : FatDirEntry} {st₁ st₂ : FatState ω},
    (rest.map List.length).getD 0 < rounds → Paired dev image₁ image₂ st₁ st₂ →
    Comes dev image₁ path (enter rest entry) →
    SameLookup dev image₁ image₂ (fun e => Comes dev image₁ path (.reading e.cluster))
      (pathLoop (faulty faults image₁) dev n rounds rest entry st₁)
      (pathLoop (faulty faults image₂) dev n rounds rest entry st₂) := by
  intro rounds
  induction rounds with
  | zero => intro rest entry st₁ st₂ hlen; exact absurd hlen (Nat.not_lt_zero _)
  | succ rounds ih =>
      intro rest entry st₁ st₂ hlen hpair hcomes
      cases rest with
      | none => exact .inr (.inr ⟨entry, st₁, st₂, rfl, rfl, hpair, hcomes⟩)
      | some rest =>
          rw [enter] at hcomes
          by_cases hend : rest.headD 0 = 0
          · rw [if_pos hend] at hcomes
            refine .inr (.inr ⟨entry, st₁, st₂, ?_, ?_, hpair, hcomes⟩)
            · rw [pathLoop]
              exact if_pos hend
            · rw [pathLoop]
              exact if_pos hend
          · rw [if_neg hend] at hcomes
            have hne : rest ≠ [] := by
              rintro rfl
              exact hend rfl
            have hshort : (((strchr '/'.toUInt8 rest).map List.tail).map List.length).getD 0 <
                rounds := by
              have := strchr_tail_length '/'.toUInt8 rest hne
              have hlen' : rest.length < rounds + 1 := hlen
              omega
            rw [pathLoop_succ hend, pathLoop_succ hend]
            by_cases hdir : entry.attributes &&& fatAttrDirectory = 0
            · rw [fatFileLookup, fatFileLookup, if_pos hdir, if_pos hdir]
              exact .inr (.inl ⟨-1, st₁, st₂, rfl, rfl⟩)
            · rw [if_neg hdir] at hcomes
              rw [fatFileLookup, fatFileLookup, if_neg hdir, if_neg hdir]
              obtain ⟨hr₁, hr₂⟩ | ⟨code, s₁, s₂, hr₁, hr₂⟩ | ⟨e, s₁, s₂, hr₁, hr₂, hpair', he⟩ :=
                fileLookup_loop_lockstep faults hdiffer hspc hway n hpair hcomes
              · rw [hr₁, hr₂]
                exact .inl ⟨rfl, rfl⟩
              · rw [hr₁, hr₂]
                exact .inr (.inl ⟨code, s₁, s₂, rfl, rfl⟩)
              · rw [hr₁, hr₂]
                exact ih hshort hpair' he

/-! ## The file -/

/-- **A round of the file's loop in lockstep.** -/
theorem fatReadBody_lockstep (faults : DiskRead ω) (hpair : Paired dev image₁ image₂ st₁ st₂)
    {c : Nat} (hsame : inChain c = true →
      SameSectors dev image₁ image₂ (clusterLba dev c) dev.sectorsPerCluster.toNat)
    (offset : Nat) (dest : Nat → UInt8) :
    (∃ code dest' st₁' st₂',
      fatReadBody (faulty faults image₁) dev ⟨c, offset, dest, st₁⟩ = .inr (code, dest', st₁') ∧
      fatReadBody (faulty faults image₂) dev ⟨c, offset, dest, st₂⟩ =
        .inr (code, dest', st₂')) ∨
    inChain c = true ∧ dev.Readable c ∧ ∃ offset' dest' st₁' st₂',
      fatReadBody (faulty faults image₁) dev ⟨c, offset, dest, st₁⟩ =
        .inl ⟨dev.link image₁ c, offset', dest', st₁'⟩ ∧
      fatReadBody (faulty faults image₂) dev ⟨c, offset, dest, st₂⟩ =
        .inl ⟨dev.link image₂ c, offset', dest', st₂'⟩ ∧
      Paired dev image₁ image₂ st₁' st₂' := by
  unfold fatReadBody
  dsimp only
  cases hin : inChain c with
  | false => exact .inl ⟨0, dest, st₁, st₂, rfl, rfl⟩
  | true =>
      obtain ⟨code, bytes₁, bytes₂, w', hread₁, hread₂, hbytes⟩ := fatReadSectors_lockstep faults
        dev image₁ image₂ (clusterLba dev c) dev.sectorsPerCluster.toNat st₁.world
      obtain rfl := hbytes (hsame hin)
      rw [if_pos rfl, if_pos rfl, hread₁, ← hpair.world, hread₂]
      dsimp only
      have hpair' : Paired dev image₁ image₂ ⟨w', st₁.cache, st₁.buffer⟩
          ⟨w', st₂.cache, st₂.buffer⟩ :=
        ⟨rfl, hpair.buffer, hpair.stale, hpair.sound₁, hpair.sound₂⟩
      by_cases hcode : code = 0
      · rw [if_neg (fun hne => hne hcode), if_neg (fun hne => hne hcode)]
        rw [hcode] at hread₁
        obtain ⟨code', t₁, t₂, hnext₁, hnext₂⟩ | ⟨t₁, t₂, hnext₁, hnext₂, hpair'', hpass⟩ :=
          fatGetNextCluster_lockstep faults hpair' c
        · rw [hnext₁, hnext₂]
          exact .inl ⟨code', _, t₁, t₂, rfl, rfl⟩
        · rw [hnext₁, hnext₂]
          exact .inr ⟨rfl, ⟨fatReadSectors_passed hread₁, hpass⟩, _, _, t₁, t₂, rfl, rfl, hpair''⟩
      · rw [if_pos hcode, if_pos hcode]
        exact .inl ⟨code, _, _, _, rfl, rfl⟩

/-- The code and the caller's memory. -/
def readResult (r : Int × (Nat → UInt8) × FatState ω) : Int × (Nat → UInt8) := (r.1, r.2.1)

theorem fatRead_loop_lockstep (faults : DiskRead ω) (hdiffer : ReservedDiffer dev image₁ image₂)
    (hway : SafeWay dev image₁ image₂ path) : ∀ (n : Nat) {c : Nat}
    (offset : Nat) (dest : Nat → UInt8) {st₁ st₂ : FatState ω},
    Paired dev image₁ image₂ st₁ st₂ → Comes dev image₁ path (.reading c) →
    (iterate (fatReadBody (faulty faults image₁) dev) n ⟨c, offset, dest, st₁⟩).map readResult =
      (iterate (fatReadBody (faulty faults image₂) dev) n ⟨c, offset, dest, st₂⟩).map
        readResult := by
  intro n
  induction n with
  | zero => intro c offset dest st₁ st₂ _ _; rfl
  | succ n ih =>
      intro c offset dest st₁ st₂ hpair hcomes
      obtain ⟨code, dest', s₁, s₂, hb₁, hb₂⟩ |
          ⟨hin, hreadable, offset', dest', s₁, s₂, hb₁, hb₂, hpair'⟩ :=
        fatReadBody_lockstep faults hpair (hway.sameData _ hcomes) offset dest
      · rw [iterate_done hb₁, iterate_done hb₂]
        rfl
      · rw [iterate_next hb₁, iterate_next hb₂]
        obtain heq | ⟨hout₁, hout₂⟩ :=
          link_eq_or_out hdiffer (hway.insensitive _ hcomes hin hreadable)
        · rw [← heq]
          exact ih _ _ hpair' (hcomes.read hin hreadable)
        · cases n with
          | zero => rfl
          | succ n =>
              have he₁ := fatReadBody_out (faulty faults image₁) dev
                (s := ⟨dev.link image₁ c, offset', dest', s₁⟩) hout₁
              have he₂ := fatReadBody_out (faulty faults image₂) dev
                (s := ⟨dev.link image₂ c, offset', dest', s₂⟩) hout₂
              rw [iterate_done he₁, iterate_done he₂]
              rfl

/-- **`fat_read` in lockstep**: on a safe way both disks give the same code and
the same bytes. -/
theorem fatRead_lockstep (faults : DiskRead ω) (hdiffer : ReservedDiffer dev image₁ image₂)
    (hspc : 0 < dev.sectorsPerCluster.toNat)
    (hway : SafeWay dev image₁ image₂ path) (n : Nat) (dest : Nat → UInt8)
    (hpair : Paired dev image₁ image₂ st₁ st₂) :
    (fatRead (faulty faults image₁) dev n path dest st₁).map readResult =
      (fatRead (faulty faults image₂) dev n path dest st₂).map readResult := by
  unfold fatRead fatPathLookup
  obtain ⟨hr₁, hr₂⟩ | ⟨code, s₁, s₂, hr₁, hr₂⟩ | ⟨e, s₁, s₂, hr₁, hr₂, hpair', he⟩ :=
    pathLoop_lockstep faults hdiffer hspc hway n ((path.map List.length).getD 0 + 1)
      (Nat.lt_succ_self _) hpair .start
  · rw [hr₁, hr₂]
  · rw [hr₁, hr₂]
    rfl
  · rw [hr₁, hr₂]
    exact fatRead_loop_lockstep faults hdiffer hway n 0 dest hpair' he

end Lockstep

end DevOS.Boot
