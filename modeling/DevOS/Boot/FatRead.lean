import DevOS.Boot.Fat

/-!
# FAT32 — reading a file

`fat_read` on a volume whose reads succeed. The FAT cache is coherent: whatever
sector it holds is that sector of the disk, and every successful fetch keeps it
so, whether it was made by the directory walk or by the file's own chain. The
loop over the file's chain then reads each cluster to its place in the
caller's buffer.
-/

namespace DevOS.Boot

open DevOS.Lib

/-! ## Disks -/

/-- What the disks hold: sectors of 512 bytes. -/
structure DiskImage where
  sector : (abar : Nat) → (port : UInt8) → (lba : Nat) → List UInt8
  length_eq : ∀ abar port lba, (sector abar port lba).length = 512

/-- The sectors a request is for. -/
def DiskImage.contents (image : DiskImage) (rq : DiskRequest) : List UInt8 :=
  (List.range rq.count).flatMap fun k => image.sector rq.abar rq.port (rq.lba + k)

/-- A read that reports success has stored the sectors asked for; the disk
does not change. -/
def Honest {ω : Type} (diskRead : DiskRead ω) (image : DiskImage) : Prop :=
  ∀ w rq, (diskRead w rq).1 = 0 → (diskRead w rq).2.1 = image.contents rq

/-- The disk that serves every request. -/
def imageRead (image : DiskImage) : DiskRead Unit := fun w rq => (0, image.contents rq, w)

theorem imageRead_honest (image : DiskImage) : Honest (imageRead image) image :=
  fun _ _ _ => rfl

/-- Reads inside the partition succeed. -/
def ReadsSucceed {ω : Type} (diskRead : DiskRead ω) (dev : FatDev) : Prop :=
  ∀ w lba count, lba + count ≤ dev.sectors.toNat →
    (diskRead w ⟨dev.abar, dev.port, u32 (dev.lba.toNat + lba), count⟩).1 = 0

theorem imageRead_succeeds (image : DiskImage) (dev : FatDev) :
    ReadsSucceed (imageRead image) dev := fun _ _ _ _ => rfl

/-- The cache, where valid, holds the sector it names. -/
def FatCache.Coherent (cache : FatCache) (image : DiskImage) : Prop :=
  cache.valid = true → ∀ i, i < 512 → cache.entry i =
    (image.sector cache.abar cache.port
      (u32 (cache.lba.toNat + u32 (cache.fat.toNat + cache.sectorNo)))).getD i 0

/-! ## Volumes -/

/-- Sector `s` of the volume. -/
def FatDev.sectorAt (dev : FatDev) (image : DiskImage) (s : Nat) : List UInt8 :=
  image.sector dev.abar dev.port (dev.lba.toNat + s)

/-- The FAT entry of a cluster, all 32 bits of it. -/
def FatDev.fatEntry (dev : FatDev) (image : DiskImage) (c : Nat) : Nat :=
  littleEndian (fun i => (dev.sectorAt image (dev.fat.toNat + c / 128)).getD i 0) 4 (4 * (c % 128))

/-- The FAT entry of a cluster where the 32-bit sums of `fat_cache_fetch` and
`fat_read_sectors` find it. -/
def FatDev.link (dev : FatDev) (image : DiskImage) (c : Nat) : Nat :=
  littleEndian (fun i => (image.sector dev.abar dev.port
    (u32 (dev.lba.toNat + u32 (dev.fat.toNat + c / 128)))).getD i 0) 4 (4 * (c % 128))

/-- The FAT32 link of a cluster: the low 28 bits of its entry. -/
def FatDev.nextCluster (dev : FatDev) (image : DiskImage) (c : Nat) : Nat :=
  dev.fatEntry image c % 2 ^ 28

/-- The bytes of a cluster. -/
def FatDev.clusterBytes (dev : FatDev) (image : DiskImage) (c : Nat) : List UInt8 :=
  (List.range dev.sectorsPerCluster.toNat).flatMap fun k =>
    dev.sectorAt image (dev.data.toNat + (c - 2) * dev.sectorsPerCluster.toNat + k)

/-- The clusters from `c` on, up to an end-of-chain value. That the list is
finite is that the chain has no cycle. -/
inductive ClusterChain (next : Nat → Nat) : Nat → List Nat → Prop
  | done {c : Nat} (hend : 0x0FFFFFF8 ≤ c) : ClusterChain next c []
  | link {c : Nat} {cs : List Nat} (hlow : 2 ≤ c) (hhigh : c < 0x0FFFFFF8)
      (hrest : ClusterChain next (next c) cs) : ClusterChain next c (c :: cs)

/-- The cluster and its FAT sector lie in the volume. -/
structure InRange (dev : FatDev) (c : Nat) : Prop where
  fat : c / 128 < dev.fatSectors.toNat
  data : dev.data.toNat + (c - 1) * dev.sectorsPerCluster.toNat ≤ dev.sectors.toNat

/-- The cluster and its FAT sector lie in the volume, and the reserved bits of
its FAT entry are 0. -/
structure InVolume (dev : FatDev) (image : DiskImage) (c : Nat) : Prop where
  fat : c / 128 < dev.fatSectors.toNat
  data : dev.data.toNat + (c - 1) * dev.sectorsPerCluster.toNat ≤ dev.sectors.toNat
  reserved : dev.fatEntry image c < 2 ^ 28

theorem InVolume.inRange {dev : FatDev} {image : DiskImage} {c : Nat} (h : InVolume dev image c) :
    InRange dev c := ⟨h.fat, h.data⟩

/-- A volume without wrap-around: it ends within 32-bit sector numbers, and the
data follows the FAT as `fat_dev_init` computes it. -/
structure FatDev.Regular (dev : FatDev) : Prop where
  span : dev.lba.toNat + dev.sectors.toNat ≤ 2 ^ 32
  data_eq : dev.data.toNat = dev.fat.toNat + dev.fatSectors.toNat

/-- **`fat_dev_init`** makes a regular volume, where nothing wraps. -/
theorem fatDevInit_regular {ω : Type} {diskRead : DiskRead ω} {disk : BlDisk} {dev : FatDev}
    {w w' : ω} (h : fatDevInit diskRead disk w = (.ok dev, w'))
    (hspan : disk.lba.toNat + disk.sectors.toNat ≤ 2 ^ 32)
    (hfat : dev.fat.toNat + dev.fatSectors.toNat < 2 ^ 32) : dev.Regular := by
  unfold fatDevInit at h
  dsimp only at h
  split at h
  · cases h
  · cases h
    exact ⟨hspan, (UInt32.toNat_add _ _).trans (Nat.mod_eq_of_lt hfat)⟩

/-- The clusters that a chain goes through. -/
theorem inChain_iff {c : Nat} : inChain c = true ↔ 2 ≤ c ∧ c < 0x0FFFFFF8 := by
  rw [inChain, Bool.and_eq_true, decide_eq_true_eq, decide_eq_true_eq]

theorem inChain_eq_false {c : Nat} : inChain c = false ↔ c < 2 ∨ 0x0FFFFFF8 ≤ c := by
  rw [← Bool.not_eq_true, inChain_iff]
  omega

theorem u32_of_lt {x : Nat} (h : x < 2 ^ 32) : u32 x = x := Nat.mod_eq_of_lt h

section Read

variable {ω : Type} {diskRead : DiskRead ω} {image : DiskImage} {dev : FatDev}

/-! ## Sectors -/

theorem fatReadSectors_rejected {lba count : Nat} (h : dev.sectors.toNat < u32 (lba + count))
    (w : ω) : fatReadSectors diskRead dev lba count w = (-1, [], w) := if_pos h

theorem fatReadSectors_accepted {lba count : Nat} (h : u32 (lba + count) ≤ dev.sectors.toNat)
    (w : ω) : fatReadSectors diskRead dev lba count w =
      diskRead w ⟨dev.abar, dev.port, u32 (dev.lba.toNat + lba), count⟩ :=
  if_neg (Nat.not_lt.mpr h)

/-- **`fat_read_sectors`** inside the volume. -/
theorem fatReadSectors_in (hhonest : Honest diskRead image) (hreads : ReadsSucceed diskRead dev)
    {lba count : Nat} (hin : lba + count ≤ dev.sectors.toNat) (w : ω) :
    ∃ w', fatReadSectors diskRead dev lba count w =
      (0, image.contents ⟨dev.abar, dev.port, u32 (dev.lba.toNat + lba), count⟩, w') := by
  have hlt := dev.sectors.toNat_lt
  have hsum : u32 (lba + count) = lba + count := u32_of_lt (by omega)
  have hcode := hreads w lba count hin
  have hbytes := hhonest w _ hcode
  rw [fatReadSectors, hsum, if_neg (by omega)]
  generalize diskRead w ⟨dev.abar, dev.port, u32 (dev.lba.toNat + lba), count⟩ = r at hcode hbytes
  obtain ⟨code, bytes, w'⟩ := r
  exact ⟨w', by rw [← hbytes, ← hcode]⟩

theorem fatReadSectors_honest (hhonest : Honest diskRead image) {lba count : Nat} {w w' : ω}
    {bytes : List UInt8} (h : fatReadSectors diskRead dev lba count w = (0, bytes, w')) :
    bytes = image.contents ⟨dev.abar, dev.port, u32 (dev.lba.toNat + lba), count⟩ := by
  unfold fatReadSectors at h
  split at h
  · cases h
  · have := hhonest w ⟨dev.abar, dev.port, u32 (dev.lba.toNat + lba), count⟩ (by rw [h])
    rw [h] at this
    exact this

theorem contents_one (image : DiskImage) (abar : Nat) (port : UInt8) (lba : Nat) :
    image.contents ⟨abar, port, lba, 1⟩ = image.sector abar port lba := by
  simp [DiskImage.contents]

/-! ## The cache -/

/-- **A fetch that succeeds** leaves a coherent cache that holds the sector. -/
theorem fatCacheFetch_coherent (hhonest : Honest diskRead image) {sectorNo : Nat}
    {st st' : FatState ω} (h : fatCacheFetch diskRead dev sectorNo st = (0, st')) :
    st'.cache.Coherent image ∧ fatCacheIsStale st'.cache dev sectorNo = false := by
  unfold fatCacheFetch at h
  generalize hread :
    fatReadSectors diskRead dev (u32 (dev.fat.toNat + sectorNo)) 1 st.world = r at h
  obtain ⟨code, bytes, w⟩ := r
  dsimp only at h
  split at h
  · rename_i hcode
    exact absurd (Prod.mk.inj h).1 hcode
  · rename_i hcode
    rw [not_not.mp hcode] at hread
    have hbytes := fatReadSectors_honest hhonest hread
    rw [contents_one] at hbytes
    cases h
    refine ⟨fun _ i hi => ?_, by simp [fatCacheIsStale]⟩
    have hlen := image.length_eq dev.abar dev.port
      (u32 (dev.lba.toNat + u32 (dev.fat.toNat + sectorNo)))
    show patch st.cache.entry 0 bytes i = _
    rw [patch_zero, hbytes, hlen, if_pos hi]

/-- A fetch of a sector in the volume succeeds. -/
theorem fatCacheFetch_in (hhonest : Honest diskRead image) (hreads : ReadsSucceed diskRead dev)
    {sectorNo : Nat} (hin : dev.fat.toNat + sectorNo + 1 ≤ dev.sectors.toNat) (st : FatState ω) :
    ∃ st', fatCacheFetch diskRead dev sectorNo st = (0, st') := by
  have hlt := dev.sectors.toNat_lt
  obtain ⟨w', hread⟩ := fatReadSectors_in hhonest hreads
    (by rw [u32_of_lt (by omega)]; exact hin : u32 (dev.fat.toNat + sectorNo) + 1 ≤ _) st.world
  unfold fatCacheFetch
  rw [hread]
  exact ⟨_, rfl⟩

/-- A fresh cache is about the device and the sector. -/
theorem fresh_iff {cache : FatCache} {sectorNo : Nat} :
    fatCacheIsStale cache dev sectorNo = false ↔ cache.valid = true ∧ cache.abar = dev.abar ∧
      cache.port = dev.port ∧ cache.lba = dev.lba ∧ cache.fat = dev.fat ∧
      cache.fatSectors = dev.fatSectors ∧ cache.sectorNo = sectorNo := by
  simp [fatCacheIsStale, and_assoc]

/-- A coherent cache that is fresh for the cluster's sector has its entry. -/
theorem entryAt_eq_link {cache : FatCache} (hco : cache.Coherent image) {c : Nat}
    (hfresh : fatCacheIsStale cache dev (c / 128) = false) :
    cache.entryAt (c % 128) = dev.link image c := by
  obtain ⟨hvalid, habar, hport, hlba, hfat, -, hno⟩ := fresh_iff.mp hfresh
  refine littleEndian_congr fun i h1 h2 => ?_
  rw [hco hvalid i (by omega), habar, hport, hlba, hfat, hno]

/-- Where no sum wraps, that is the FAT entry. -/
theorem link_eq_fatEntry (image : DiskImage) {c : Nat}
    (hfit : dev.lba.toNat + dev.fat.toNat + c / 128 < 2 ^ 32) :
    dev.link image c = dev.fatEntry image c := by
  unfold FatDev.link FatDev.fatEntry FatDev.sectorAt
  rw [u32_of_lt (by omega : dev.fat.toNat + c / 128 < 2 ^ 32), u32_of_lt (by omega)]

theorem FatDev.Regular.link_eq (hregular : dev.Regular) (image : DiskImage) {c : Nat}
    (hin : dev.fat.toNat + c / 128 + 1 ≤ dev.sectors.toNat) :
    dev.link image c = dev.fatEntry image c := by
  have hspan := hregular.span
  exact link_eq_fatEntry image (by omega)

/-- **`fat_get_next_cluster`**, where it succeeds, gives the entry on the disk,
and keeps a coherent cache. -/
theorem fatGetNextCluster_ok (hhonest : Honest diskRead image) {c next : Nat}
    {st st' : FatState ω} (hco : st.cache.Coherent image)
    (h : fatGetNextCluster diskRead dev c st = (.ok next, st')) :
    next = dev.link image c ∧ st'.cache.Coherent image := by
  unfold fatGetNextCluster at h
  dsimp only at h
  split at h
  · generalize hfetch : fatCacheFetch diskRead dev (c / 128) st = r at h
    obtain ⟨code, st₁⟩ := r
    dsimp only at h
    split at h
    · cases h
    · rename_i hcode
      rw [not_not.mp hcode] at hfetch
      cases h
      obtain ⟨hco', hfresh⟩ := fatCacheFetch_coherent hhonest hfetch
      exact ⟨entryAt_eq_link hco' hfresh, hco'⟩
  · rename_i hfresh
    cases h
    exact ⟨entryAt_eq_link hco (Bool.eq_false_iff.mpr hfresh), hco⟩

/-- **`fat_get_next_cluster`** of a cluster of the volume gives its FAT
entry, from the cache or from the disk. -/
theorem fatGetNextCluster_in (hhonest : Honest diskRead image)
    (hreads : ReadsSucceed diskRead dev) (hregular : dev.Regular) {c : Nat}
    (hin : dev.fat.toNat + c / 128 + 1 ≤ dev.sectors.toNat) {st : FatState ω}
    (hco : st.cache.Coherent image) :
    ∃ st', fatGetNextCluster diskRead dev c st = (.ok (dev.fatEntry image c), st') ∧
      st'.cache.Coherent image := by
  have hlink := hregular.link_eq image hin
  unfold fatGetNextCluster
  dsimp only
  cases hstale : fatCacheIsStale st.cache dev (c / 128) with
  | true =>
      obtain ⟨st₁, hfetch⟩ := fatCacheFetch_in hhonest hreads hin st
      obtain ⟨hco₁, hfresh₁⟩ := fatCacheFetch_coherent hhonest hfetch
      refine ⟨st₁, ?_, hco₁⟩
      rw [if_pos rfl, hfetch]
      dsimp only
      rw [if_neg (fun hc => hc rfl), entryAt_eq_link hco₁ hfresh₁, hlink]
  | false =>
      refine ⟨st, ?_, hco⟩
      rw [if_neg (by decide), entryAt_eq_link hco hstale, hlink]

/-! ## The directory walk -/

/-- Scanning directory sectors does not touch the cache. -/
theorem scanSector_cache (diskRead : DiskRead ω) (dev : FatDev) (target : List UInt8)
    (lba : Nat) (st : FatState ω) :
    (scanSector diskRead dev target lba st).2.cache = st.cache := by
  unfold scanSector
  generalize fatReadSectors diskRead dev lba 1 st.world = r
  obtain ⟨code, bytes, w⟩ := r
  dsimp only
  split
  · rfl
  · rfl

theorem scanSectors_cache (diskRead : DiskRead ω) (dev : FatDev) (target : List UInt8)
    (lba : Nat) : ∀ (count s : Nat) (st : FatState ω),
    (scanSectors diskRead dev target lba count s st).2.cache = st.cache := by
  intro count
  induction count with
  | zero => intro s st; rfl
  | succ count ih =>
      intro s st
      have hone := scanSector_cache diskRead dev target (u32 (lba + s)) st
      rw [scanSectors]
      generalize scanSector diskRead dev target (u32 (lba + s)) st = r at hone
      obtain ⟨scan, st₁⟩ := r
      cases scan with
      | next => exact (ih (s + 1) st₁).trans hone
      | stop code => exact hone
      | found e => exact hone

/-- A round of the walk that goes on has taken the next cluster from the FAT,
with the cache as it was. -/
theorem fileLookupBody_next {target : List UInt8} {s s' : Nat × FatState ω}
    (h : fileLookupBody diskRead dev target s = .inl s') : ∃ st₁ : FatState ω,
    st₁.cache = s.2.cache ∧ fatGetNextCluster diskRead dev s.1 st₁ = (.ok s'.1, s'.2) := by
  obtain ⟨c, st⟩ := s
  have hkeep := scanSectors_cache diskRead dev target (clusterLba dev c)
    dev.sectorsPerCluster.toNat 0 st
  unfold fileLookupBody at h
  dsimp only at h
  split at h
  · split at h
    · cases h
    · cases h
    · rename_i st₁ hscan
      rw [hscan] at hkeep
      split at h
      · cases h
      · rename_i next st₂ hnext
        cases h
        exact ⟨st₁, hkeep, hnext⟩
  · cases h

/-- So has a round of the file's loop. -/
theorem fatReadBody_next {s s' : ReadState ω} (h : fatReadBody diskRead dev s = .inl s') :
    ∃ st₁ : FatState ω, st₁.cache = s.st.cache ∧
      fatGetNextCluster diskRead dev s.cluster st₁ = (.ok s'.cluster, s'.st) := by
  unfold fatReadBody at h
  split at h
  · generalize fatReadSectors diskRead dev (clusterLba dev s.cluster)
      dev.sectorsPerCluster.toNat s.st.world = r at h
    obtain ⟨code, bytes, w⟩ := r
    dsimp only at h
    split at h
    · cases h
    · split at h
      · cases h
      · rename_i next st₂ hnext
        cases h
        exact ⟨{ s.st with world := w }, rfl, hnext⟩
  · cases h

/-- A round that finds the entry leaves the cache. -/
theorem fileLookupBody_found {target : List UInt8} {s : Nat × FatState ω}
    {r : Except Int FatDirEntry × FatState ω}
    (h : fileLookupBody diskRead dev target s = .inr r) (e : FatDirEntry) (he : r.1 = .ok e) :
    r.2.cache = s.2.cache := by
  obtain ⟨c, st⟩ := s
  have hkeep := scanSectors_cache diskRead dev target (clusterLba dev c)
    dev.sectorsPerCluster.toNat 0 st
  unfold fileLookupBody at h
  dsimp only at h
  split at h
  · split at h
    · cases h
      cases he
    · rename_i e₁ st₁ hscan
      rw [hscan] at hkeep
      cases h
      exact hkeep
    · split at h
      · cases h
        cases he
      · cases h
  · cases h
    cases he

/-- What every successful `fat_get_next_cluster` keeps of the cache. -/
def KeptByNext (diskRead : DiskRead ω) (dev : FatDev) (I : FatCache → Prop) : Prop :=
  ∀ (c next : Nat) (st st' : FatState ω), I st.cache →
    fatGetNextCluster diskRead dev c st = (.ok next, st') → I st'.cache

theorem coherent_kept (hhonest : Honest diskRead image) :
    KeptByNext diskRead dev fun cache => cache.Coherent image :=
  fun _ _ _ _ hco h => (fatGetNextCluster_ok hhonest hco h).2

/-- **`fat_file_lookup`** keeps it when it finds an entry. -/
theorem fatFileLookup_keeps {I : FatCache → Prop} (hkept : KeptByNext diskRead dev I)
    {fuel : Nat} {directory e : FatDirEntry} {target : List UInt8} {st st' : FatState ω}
    (hst : I st.cache)
    (h : fatFileLookup diskRead dev fuel directory target st = some (.ok e, st')) :
    I st'.cache := by
  unfold fatFileLookup at h
  split at h
  · cases h
  · -- a lookup that fails promises nothing
    refine iterate_invariant (I := fun s => I s.2.cache)
      (Q := fun r => ∀ e, r.1 = .ok e → I r.2.cache) ?_ ?_ hst h e rfl
    · intro s s' hs hb
      obtain ⟨st₁, hcache, hnext⟩ := fileLookupBody_next hb
      exact hkept _ _ _ _ (by rw [hcache]; exact hs) hnext
    · intro s r hs hb e he
      rw [fileLookupBody_found hb e he]
      exact hs

/-- **`fat_path_lookup`** keeps it when it resolves. -/
theorem pathLoop_keeps {I : FatCache → Prop} (hkept : KeptByNext diskRead dev I) {fuel : Nat} :
    ∀ (rounds : Nat) {path : Option (List UInt8)} {entry e : FatDirEntry} {st st' : FatState ω},
    I st.cache → pathLoop diskRead dev fuel rounds path entry st = some (.ok e, st') →
    I st'.cache := by
  intro rounds
  induction rounds with
  | zero =>
      intro path entry e st st' hst h
      cases h
      exact hst
  | succ rounds ih =>
      intro path entry e st st' hst h
      cases path with
      | none =>
          cases h
          exact hst
      | some path =>
          rw [pathLoop] at h
          split at h
          · cases h
            exact hst
          · dsimp only at h
            split at h
            · cases h
            · cases h
            · rename_i e₁ st₁ hlookup
              exact ih (fatFileLookup_keeps hkept hst hlookup) h

/-! ## More fuel -/

theorem fatFileLookup_mono {fuel fuel' : Nat} {directory : FatDirEntry} {target : List UInt8}
    {st : FatState ω} {r : Except Int FatDirEntry × FatState ω}
    (h : fatFileLookup diskRead dev fuel directory target st = some r) (hle : fuel ≤ fuel') :
    fatFileLookup diskRead dev fuel' directory target st = some r := by
  unfold fatFileLookup at h ⊢
  split at h
  · rename_i hdir
    rw [if_pos hdir]
    exact h
  · rename_i hdir
    rw [if_neg hdir]
    exact iterate_mono h hle

theorem pathLoop_mono {fuel fuel' : Nat} (hle : fuel ≤ fuel') : ∀ (rounds : Nat)
    {path : Option (List UInt8)} {entry : FatDirEntry} {st : FatState ω}
    {r : Except Int FatDirEntry × FatState ω},
    pathLoop diskRead dev fuel rounds path entry st = some r →
    pathLoop diskRead dev fuel' rounds path entry st = some r := by
  intro rounds
  induction rounds with
  | zero => intro path entry st r h; exact h
  | succ rounds ih =>
      intro path entry st r h
      cases path with
      | none => exact h
      | some path =>
          rw [pathLoop] at h ⊢
          dsimp only at h ⊢
          split at h
          · rename_i hend
            rw [if_pos hend]
            exact h
          · rename_i hmore
            rw [if_neg hmore]
            generalize hlookup : fatFileLookup diskRead dev fuel entry _ st = res at h
            cases res with
            | none => cases h
            | some res =>
                rw [fatFileLookup_mono hlookup hle]
                obtain ⟨e, st₁⟩ := res
                cases e with
                | error code => exact h
                | ok e => exact ih h

/-- What `fat_read` is, once the path has been resolved. -/
theorem fatRead_resolved {fuel n : Nat}
    {path : Option (List UInt8)} {file : FatDirEntry} {st st₁ : FatState ω}
    (hlookup : fatPathLookup diskRead dev fuel (rootEntry dev) path st = some (.ok file, st₁))
    (hn : fuel ≤ n) (dest : Nat → UInt8) :
    fatRead diskRead dev n path dest st =
      iterate (fatReadBody diskRead dev) n ⟨file.cluster, 0, dest, st₁⟩ := by
  have hlookup' : fatPathLookup diskRead dev n (rootEntry dev) path st = some (.ok file, st₁) :=
    pathLoop_mono hn _ hlookup
  rw [fatRead, hlookup']

/-- More rounds do not change what `fat_read` returns. -/
theorem fatRead_mono {n m : Nat}
    {path : Option (List UInt8)} {dest : Nat → UInt8} {st : FatState ω}
    {r : Int × (Nat → UInt8) × FatState ω} (h : fatRead diskRead dev n path dest st = some r)
    (hle : n ≤ m) : fatRead diskRead dev m path dest st = some r := by
  unfold fatRead at h ⊢
  cases hlookup : fatPathLookup diskRead dev n (rootEntry dev) path st with
  | none =>
      rw [hlookup] at h
      cases h
  | some res =>
      have hlookup' : fatPathLookup diskRead dev m (rootEntry dev) path st = some res :=
        pathLoop_mono hle _ hlookup
      rw [hlookup] at h
      rw [hlookup']
      obtain ⟨e | file, st₁⟩ := res
      · exact h
      · exact iterate_mono h hle

/-! ## The file -/

/-- The sectors `fat_read` asks for are those of the cluster. -/
theorem clusterBytes_eq (image : DiskImage) (hregular : dev.Regular) {c : Nat} (hlow : 2 ≤ c)
    (hdata : dev.data.toNat + (c - 1) * dev.sectorsPerCluster.toNat ≤ dev.sectors.toNat) :
    clusterLba dev c + dev.sectorsPerCluster.toNat ≤ dev.sectors.toNat ∧
    image.contents ⟨dev.abar, dev.port, u32 (dev.lba.toNat + clusterLba dev c),
      dev.sectorsPerCluster.toNat⟩ = dev.clusterBytes image c := by
  have hspan := hregular.span
  have hlt := dev.sectors.toNat_lt
  have hsplit : (c - 1) * dev.sectorsPerCluster.toNat =
      (c - 2) * dev.sectorsPerCluster.toNat + dev.sectorsPerCluster.toNat := by
    rw [show c - 1 = c - 2 + 1 by omega, Nat.succ_mul]
  have hlba : clusterLba dev c = dev.data.toNat + (c - 2) * dev.sectorsPerCluster.toNat :=
    u32_of_lt (by omega)
  refine ⟨by omega, ?_⟩
  unfold DiskImage.contents FatDev.clusterBytes
  dsimp only
  by_cases hzero : dev.sectorsPerCluster.toNat = 0
  · rw [hzero]
    rfl
  · rw [u32_of_lt (by omega), hlba]
    simp only [FatDev.sectorAt, Nat.add_assoc]

theorem clusterBytes_length (c : Nat) :
    (dev.clusterBytes image c).length = dev.sectorsPerCluster.toNat * 512 := by
  have hall : ∀ (n : Nat) (f : Nat → List UInt8), (∀ k, (f k).length = 512) →
      ((List.range n).flatMap f).length = n * 512 := by
    intro n f hf
    induction n with
    | zero => rfl
    | succ n ih =>
        rw [List.range_succ, List.flatMap_append, List.length_append, ih,
          List.flatMap_singleton, hf]
        omega
  exact hall _ _ fun k => image.length_eq _ _ _

/-- A round in a cluster of the volume reads the cluster to its place and takes
its FAT entry for the next one. -/
theorem fatReadBody_in (hhonest : Honest diskRead image) (hreads : ReadsSucceed diskRead dev)
    (hregular : dev.Regular) {s : ReadState ω} (hlow : 2 ≤ s.cluster)
    (hhigh : s.cluster < 0x0FFFFFF8) (hin : InRange dev s.cluster)
    (hco : s.st.cache.Coherent image) :
    ∃ st', st'.cache.Coherent image ∧ fatReadBody diskRead dev s =
      .inl ⟨dev.fatEntry image s.cluster, s.offset + dev.sectorsPerCluster.toNat * 512,
        patch s.dest s.offset (dev.clusterBytes image s.cluster), st'⟩ := by
  obtain ⟨hfit, hbytes⟩ := clusterBytes_eq image hregular hlow hin.data
  obtain ⟨w', hread⟩ := fatReadSectors_in hhonest hreads hfit s.st.world
  rw [hbytes] at hread
  have hdata := hregular.data_eq
  have hfat := hin.fat
  have hend := hin.data
  have hpos : 0 ≤ (s.cluster - 1) * dev.sectorsPerCluster.toNat := Nat.zero_le _
  have hco' : ({ s.st with world := w' } : FatState ω).cache.Coherent image := hco
  obtain ⟨st₁, hnext, hco₁⟩ := fatGetNextCluster_in hhonest hreads hregular (c := s.cluster)
    (by omega) hco'
  have hinside : inChain s.cluster = true := inChain_iff.mpr ⟨hlow, hhigh⟩
  refine ⟨st₁, hco₁, ?_⟩
  rw [fatReadBody, if_pos hinside, hread]
  dsimp only
  rw [if_neg (fun hc => hc rfl), hnext]

/-- **The loop of `fat_read`**: from a chain's first cluster on, it reads the
clusters one behind the other and ends with code 0. -/
theorem fatRead_loop (hhonest : Honest diskRead image) (hreads : ReadsSucceed diskRead dev)
    (hregular : dev.Regular) {c : Nat} {cs : List Nat}
    (hchain : ClusterChain (dev.nextCluster image) c cs)
    (hin : ∀ c ∈ cs, InVolume dev image c) : ∀ {s : ReadState ω}, s.cluster = c →
    s.st.cache.Coherent image →
    ∃ st', iterate (fatReadBody diskRead dev) (cs.length + 1) s =
      some (0, patch s.dest s.offset (cs.flatMap (dev.clusterBytes image)), st') := by
  induction hchain with
  | done hend =>
      intro s hc _
      refine ⟨s.st, ?_⟩
      have hbody : fatReadBody diskRead dev s = .inr (0, s.dest, s.st) := by
        rw [fatReadBody, if_neg]
        rw [hc, inChain_iff]
        omega
      rw [List.length_nil, iterate_done hbody, List.flatMap_nil, patch_nil]
  | @link c cs hlow hhigh hrest ih =>
      intro s hc hco
      have hvol := hin c List.mem_cons_self
      have hlink : dev.nextCluster image c = dev.fatEntry image c :=
        Nat.mod_eq_of_lt hvol.reserved
      obtain ⟨st₁, hco₁, hbody⟩ := fatReadBody_in hhonest hreads hregular (s := s)
        (by rw [hc]; exact hlow) (by rw [hc]; exact hhigh) (by rw [hc]; exact hvol.inRange) hco
      rw [hc] at hbody
      obtain ⟨st', hloop⟩ := ih (fun d hd => hin d (List.mem_cons_of_mem _ hd))
        (s := ⟨dev.fatEntry image c, s.offset + dev.sectorsPerCluster.toNat * 512,
          patch s.dest s.offset (dev.clusterBytes image c), st₁⟩) hlink.symm hco₁
      refine ⟨st', ?_⟩
      rw [List.length_cons, iterate_next hbody, hloop, List.flatMap_cons, ← patch_append,
        clusterBytes_length]

/-- **`fat_read` returns the file**: on every regular volume, from every
coherent cache, for every path that `fat_path_lookup` resolves to an entry
whose cluster chain lies in the volume and ends, with enough rounds `fat_read`
returns 0; the caller's buffer then holds the clusters of the chain, in order,
and nothing beyond them has been written. -/
theorem fatRead_file (diskRead : DiskRead ω) (image : DiskImage) (dev : FatDev)
    (hhonest : Honest diskRead image) (hreads : ReadsSucceed diskRead dev)
    (hregular : dev.Regular) (path : Option (List UInt8)) (st : FatState ω)
    (hco : st.cache.Coherent image) (fuel : Nat) (file : FatDirEntry) (st₁ : FatState ω)
    (hlookup : fatPathLookup diskRead dev fuel (rootEntry dev) path st = some (.ok file, st₁))
    (chain : List Nat) (hchain : ClusterChain (dev.nextCluster image) file.cluster chain)
    (hin : ∀ c ∈ chain, InVolume dev image c) (dest : Nat → UInt8) :
    ∃ rounds dest' st', (∀ n, rounds ≤ n →
        fatRead diskRead dev n path dest st = some (0, dest', st')) ∧
      (∀ i, i < (chain.flatMap (dev.clusterBytes image)).length →
        dest' i = (chain.flatMap (dev.clusterBytes image)).getD i 0) ∧
      ∀ i, (chain.flatMap (dev.clusterBytes image)).length ≤ i → dest' i = dest i := by
  have hco₁ := pathLoop_keeps (coherent_kept hhonest) _ hco hlookup
  obtain ⟨st', hloop⟩ := fatRead_loop hhonest hreads hregular hchain hin
    (s := ⟨file.cluster, 0, dest, st₁⟩) rfl hco₁
  refine ⟨max fuel (chain.length + 1), patch dest 0 (chain.flatMap (dev.clusterBytes image)), st',
    fun n hn => ?_, fun i hi => ?_, fun i hi => ?_⟩
  · rw [fatRead_resolved hlookup (by omega)]
    exact iterate_mono hloop (by omega)
  · rw [patch_zero, if_pos hi]
  · rw [patch_zero, if_neg (by omega)]

end Read

/-- The start of each sector of a small volume: its FAT, the root directory
with the file `A`, and the file's clusters 5 and 3. -/
def sampleSector : (lba : Nat) → List UInt8
  | 1 => [0xF8, 0xFF, 0xFF, 0x0F, 0xFF, 0xFF, 0xFF, 0x0F, 0xF8, 0xFF, 0xFF, 0x0F,
      0xF8, 0xFF, 0xFF, 0x0F, 0, 0, 0, 0, 3, 0, 0, 0]
  | 2 => [65, 32, 32, 32, 32, 32, 32, 32, 32, 32, 32, 0x20, 0, 0, 0, 0, 0, 0, 0, 0, 0, 0,
      0, 0, 0, 0, 5, 0]
  | 3 => [7]
  | 5 => [9]
  | _ => []

theorem sampleSector_length (lba : Nat) : (sampleSector lba).length ≤ 512 := by
  unfold sampleSector
  split <;> decide

/-- The volume, each sector filled up with 0. -/
def sampleImage : DiskImage where
  sector _ _ lba := sampleSector lba ++ List.replicate (512 - (sampleSector lba).length) 0
  length_eq _ _ lba := by
    have hlen := sampleSector_length lba
    rw [List.length_append, List.length_replicate]
    omega

def sampleDev : FatDev := ⟨0, 0, 0, 6, 1, 1, 2, 2, 1⟩

def sampleCache : FatCache := ⟨false, 0, 0, 0, 0, 0, 0, fun _ => 0⟩

set_option maxRecDepth 4000 in
theorem fatRead_file_sample : ∃ rounds dest' st', (∀ n, rounds ≤ n →
      fatRead (fun w rq => (0, sampleImage.contents rq, w)) sampleDev n
        (some ['a'.toUInt8]) (fun _ => 0) ⟨(), sampleCache, fun _ => 0⟩ = some (0, dest', st')) ∧
    (∀ i, i < ([5, 3].flatMap (sampleDev.clusterBytes sampleImage)).length →
      dest' i = ([5, 3].flatMap (sampleDev.clusterBytes sampleImage)).getD i 0) ∧
    ∀ i, ([5, 3].flatMap (sampleDev.clusterBytes sampleImage)).length ≤ i → dest' i = 0 := by
  have hlink5 : sampleDev.fatEntry sampleImage 5 = 3 := by decide
  have hlink3 : sampleDev.fatEntry sampleImage 3 = 0x0FFFFFF8 := by decide
  have hchain : ClusterChain (sampleDev.nextCluster sampleImage) 5 [5, 3] := by
    refine .link (by decide) (by decide) ?_
    rw [FatDev.nextCluster, hlink5]
    refine .link (by decide) (by decide) ?_
    rw [show 3 % 2 ^ 28 = 3 by decide, FatDev.nextCluster, hlink3]
    exact .done (by decide)
  exact fatRead_file (fun w rq => (0, sampleImage.contents rq, w)) sampleImage sampleDev
    (fun _ _ _ => rfl) (fun _ _ _ _ => rfl) ⟨by decide, by decide⟩ (some ['a'.toUInt8])
    ⟨(), sampleCache, fun _ => 0⟩ (fun h => by cases h) 1
    ⟨[65, 32, 32, 32, 32, 32, 32, 32, 32, 32, 32], 0x20, 0, 5⟩ _ rfl [5, 3] hchain
    (by
      intro c hc
      simp only [List.mem_cons, List.not_mem_nil, or_false] at hc
      obtain rfl | rfl := hc
      · exact ⟨by decide, by decide, by rw [hlink5]; decide⟩
      · exact ⟨by decide, by decide, by rw [hlink3]; decide⟩) _

end DevOS.Boot
