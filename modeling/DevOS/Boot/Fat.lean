import DevOS.Lib.Bytes
import DevOS.Lib.Loop
import Mathlib.Algebra.Order.Ring.Int

/-!
# FAT32 — the program

`boot/fat.c`, the boot loader's reader. `disk_read` is the firmware's: from a
world and a request it gives a return code, the bytes it has stored at its
destination (whatever the code) and the next world. The reader's own state is
the FAT cache and the static sector buffer. `uint32_t` arithmetic is reduced
modulo `2 ^ 32`; `char` is signed, as on i686. A function that can fail
returns its code as an `Except.error`.

The two `while` loops over cluster chains are `Lib.iterate`: a chain on the
disk need not end, so they take the number of rounds they may make.
-/

namespace DevOS.Boot

open DevOS.Lib

/-- A value converted to `uint32_t`. -/
def u32 (x : Nat) : Nat := x % 2 ^ 32

/-- A `char` as the `int` it is promoted to. -/
def signedChar (c : UInt8) : Int := Int.bmod c.toNat 256

/-! ## Devices -/

/-- What `disk_read` is asked for: `count` sectors from `lba` on. -/
structure DiskRequest where
  abar : Nat
  port : UInt8
  lba : Nat
  count : Nat
deriving DecidableEq, Repr

/-- `BL_DiskRead`. -/
def DiskRead (ω : Type) : Type := ω → DiskRequest → Int × List UInt8 × ω

/-- `fat_dev_t`. -/
structure FatDev where
  abar : Nat
  port : UInt8
  lba : UInt32
  sectors : UInt32
  fat : UInt32
  fatSectors : UInt32
  rootDirCluster : UInt32
  data : UInt32
  sectorsPerCluster : UInt8
deriving DecidableEq, Repr

/-- `BL_Disk`: the partition a device is made from. -/
structure BlDisk where
  abar : Nat
  port : UInt8
  lba : UInt32
  sectors : UInt32

/-- `fat_cache`; `entry` by bytes. -/
structure FatCache where
  valid : Bool
  abar : Nat
  port : UInt8
  lba : UInt32
  fat : UInt32
  fatSectors : UInt32
  sectorNo : Nat
  entry : Nat → UInt8

/-- The state of the reader: the world of `disk_read`, `fat_cache` and the
static `buffer`. -/
structure FatState (ω : Type) where
  world : ω
  cache : FatCache
  buffer : Nat → UInt8

section Program

variable {ω : Type} (diskRead : DiskRead ω)

/-- `fat_read_sectors(dev, lba, count, buffer)`: the code and the bytes stored
at `buffer`. -/
def fatReadSectors (dev : FatDev) (lba count : Nat) (w : ω) : Int × List UInt8 × ω :=
  if u32 (lba + count) > dev.sectors.toNat then (-1, [], w)
  else diskRead w ⟨dev.abar, dev.port, u32 (dev.lba.toNat + lba), count⟩

/-- `fat_dev_init(dev, disk)`. The fields of the BPB stand at their offsets in
the boot sector. -/
def fatDevInit (disk : BlDisk) (w : ω) : Except Int FatDev × ω :=
  let dev : FatDev := ⟨disk.abar, disk.port, disk.lba, disk.sectors, 0, 0, 0, 0, 0⟩
  let (code, bytes, w) := fatReadSectors diskRead dev 0 1 w
  if code ≠ 0 then (.error (-1), w)
  else
    let sector := patch (fun _ => 0) 0 bytes
    let fat := UInt32.ofNat (littleEndian sector 2 14)
    let fatSectors :=
      UInt32.ofNat (littleEndian sector 1 16) * UInt32.ofNat (littleEndian sector 4 36)
    (.ok { dev with
      fat := fat
      fatSectors := fatSectors
      rootDirCluster := UInt32.ofNat (littleEndian sector 4 44)
      data := fat + fatSectors
      sectorsPerCluster := UInt8.ofNat (littleEndian sector 1 13) }, w)

/-! ## The FAT cache -/

/-- `fat_cache_is_stale(dev, sector_no)`. -/
def fatCacheIsStale (cache : FatCache) (dev : FatDev) (sectorNo : Nat) : Bool :=
  !cache.valid ||
    (cache.abar != dev.abar || cache.port != dev.port || cache.lba != dev.lba ||
      cache.fat != dev.fat || cache.fatSectors != dev.fatSectors) ||
    cache.sectorNo != sectorNo

/-- `fat_cache_fetch(dev, sector_no)`. The bytes land in the cache even when the
read fails. -/
def fatCacheFetch (dev : FatDev) (sectorNo : Nat) (st : FatState ω) : Int × FatState ω :=
  let (code, bytes, w) := fatReadSectors diskRead dev (u32 (dev.fat.toNat + sectorNo)) 1 st.world
  let entry := patch st.cache.entry 0 bytes
  if code ≠ 0 then (code, { st with world := w, cache := { st.cache with entry := entry } })
  else
    (0, { st with
      world := w
      cache := ⟨true, dev.abar, dev.port, dev.lba, dev.fat, dev.fatSectors, sectorNo, entry⟩ })

/-- `fat_cache.entry[i]`. -/
def FatCache.entryAt (cache : FatCache) (i : Nat) : Nat := littleEndian cache.entry 4 (4 * i)

/-- `fat_get_next_cluster(dev, current_cluster_no, next_cluster)`. -/
def fatGetNextCluster (dev : FatDev) (currentClusterNo : Nat) (st : FatState ω) :
    Except Int Nat × FatState ω :=
  let sectorNo := currentClusterNo / 128
  let localOffset := currentClusterNo % 128
  if fatCacheIsStale st.cache dev sectorNo then
    let (code, st) := fatCacheFetch diskRead dev sectorNo st
    if code ≠ 0 then (.error code, st) else (.ok (st.cache.entryAt localOffset), st)
  else (.ok (st.cache.entryAt localOffset), st)

/-- The condition of the chain loops. -/
def inChain (cluster : Nat) : Bool := 2 ≤ cluster && cluster < 0x0FFFFFF8

/-- `dev->data + (cluster - 2) * dev->sectors_per_cluster`. -/
def clusterLba (dev : FatDev) (cluster : Nat) : Nat :=
  u32 (dev.data.toNat + (cluster - 2) * dev.sectorsPerCluster.toNat)

/-! ## Directories -/

/-- `fat_dir_entry_t`: the name with its extension, the attributes and the two
halves of the first cluster. -/
structure FatDirEntry where
  nameExt : List UInt8
  attributes : UInt8
  clusterHigh : Nat
  clusterLow : Nat
deriving DecidableEq, Repr

/-- `FAT_ATTR_DIRECTORY`. -/
def fatAttrDirectory : UInt8 := 0x10

/-- `cluster_low | ((uint32_t)cluster_high << 16)`. -/
def FatDirEntry.cluster (e : FatDirEntry) : Nat := e.clusterLow ||| e.clusterHigh <<< 16

/-- `dir_entries[i]`. -/
def dirEntryAt (buffer : Nat → UInt8) (i : Nat) : FatDirEntry where
  nameExt := (List.range 11).map fun j => buffer (32 * i + j)
  attributes := buffer (32 * i + 11)
  clusterHigh := littleEndian buffer 2 (32 * i + 20)
  clusterLow := littleEndian buffer 2 (32 * i + 26)

/-- `FAT_DIR_ENTRIES_PER_SECTOR`. -/
def fatDirEntriesPerSector : Nat := 512 / 32

/-- What a scan has come to: nothing yet, a return code, or the entry. -/
inductive Scan where
  | next
  | stop (code : Int)
  | found (e : FatDirEntry)

/-- The loop over the entries of a sector from entry `i` on. -/
def scanEntries (target : List UInt8) (buffer : Nat → UInt8) : (count i : Nat) → Scan
  | 0, _ => .next
  | count + 1, i =>
      let e := dirEntryAt buffer i
      let name0 := signedChar (e.nameExt.headD 0)
      if name0 = 0x00 then .stop (-1)
      else if name0 = 0xE5 then scanEntries target buffer count (i + 1)
      else if e.attributes = 0x0F then scanEntries target buffer count (i + 1)
      else if e.nameExt = target then .found e
      else scanEntries target buffer count (i + 1)

/-- Read a sector of a directory to `buffer` and scan it. -/
def scanSector (dev : FatDev) (target : List UInt8) (lba : Nat) (st : FatState ω) :
    Scan × FatState ω :=
  let (code, bytes, w) := fatReadSectors diskRead dev lba 1 st.world
  let st := { st with world := w, buffer := patch st.buffer 0 bytes }
  if code ≠ 0 then (.stop code, st)
  else (scanEntries target st.buffer fatDirEntriesPerSector 0, st)

/-- The loop over the sectors of a cluster from sector `s` on. -/
def scanSectors (dev : FatDev) (target : List UInt8) (lba : Nat) :
    (count s : Nat) → FatState ω → Scan × FatState ω
  | 0, _, st => (.next, st)
  | count + 1, s, st =>
      match scanSector diskRead dev target (u32 (lba + s)) st with
      | (.next, st) => scanSectors dev target lba count (s + 1) st
      | (.stop code, st) => (.stop code, st)
      | (.found e, st) => (.found e, st)

/-- A round of the loop of `fat_file_lookup`. -/
def fileLookupBody (dev : FatDev) (target : List UInt8) (s : Nat × FatState ω) :
    (Nat × FatState ω) ⊕ (Except Int FatDirEntry × FatState ω) :=
  let (dirCluster, st) := s
  if inChain dirCluster then
    match scanSectors diskRead dev target (clusterLba dev dirCluster)
      dev.sectorsPerCluster.toNat 0 st with
    | (.stop code, st) => .inr (.error code, st)
    | (.found e, st) => .inr (.ok e, st)
    | (.next, st) =>
        match fatGetNextCluster diskRead dev dirCluster st with
        | (.error code, st) => .inr (.error code, st)
        | (.ok next, st) => .inl (next, st)
  else .inr (.error (-1), st)

/-- `fat_file_lookup(dev, directory, target, file)`. -/
def fatFileLookup (dev : FatDev) (fuel : Nat) (directory : FatDirEntry) (target : List UInt8)
    (st : FatState ω) : Option (Except Int FatDirEntry × FatState ω) :=
  if directory.attributes &&& fatAttrDirectory = 0 then some (.error (-1), st)
  else iterate (fileLookupBody diskRead dev target) fuel (directory.cluster, st)

/-! ## Paths -/

/-- `toupper(ch)`. -/
def toUpper (c : UInt8) : UInt8 := if 'a'.toUInt8 ≤ c ∧ c ≤ 'z'.toUInt8 then c - 32 else c

/-- The loop of `fat_short_name_to_name_ext`: `i` and `name_ext` when it
ends. -/
def shortNameLoop : (shortName : List UInt8) → (i : Nat) → (nameExt : Nat → UInt8) →
    Nat × (Nat → UInt8)
  | [], i, nameExt => (i, nameExt)
  | c :: shortName, i, nameExt =>
      if i < 11 then
        if c = '/'.toUInt8 ∨ c = 0 then (i, nameExt)
        else if c = '.'.toUInt8 then
          shortNameLoop shortName 8
            (if i < 8 then patch nameExt i (List.replicate (8 - i) ' '.toUInt8) else nameExt)
        else shortNameLoop shortName (i + 1) (patch nameExt i [toUpper c])
      else (i, nameExt)

/-- `fat_short_name_to_name_ext(short_name, name_ext)`. -/
def fatShortNameToNameExt (shortName : List UInt8) (nameExt : Nat → UInt8) : Nat → UInt8 :=
  let shortName := if shortName.head? = some '/'.toUInt8 then shortName.tail else shortName
  let (i, nameExt) := shortNameLoop shortName 0 nameExt
  patch nameExt i (List.replicate (11 - i) ' '.toUInt8)

/-- `strchr(str, ch)`. -/
def strchr (ch : UInt8) : List UInt8 → Option (List UInt8)
  | [] => none
  | c :: str => if c = 0 then none else if c = ch then some (c :: str) else strchr ch str

/-- The loop of `fat_path_lookup`; every round drops at least one byte of the
path, whose length bounds the rounds. `none` is a `NULL` path. -/
def pathLoop (dev : FatDev) (fuel : Nat) : (rounds : Nat) → Option (List UInt8) → FatDirEntry →
    FatState ω → Option (Except Int FatDirEntry × FatState ω)
  | 0, _, entry, st => some (.ok entry, st)
  | rounds + 1, path, entry, st =>
      match path with
      | none => some (.ok entry, st)
      | some path =>
          if path.headD 0 = 0 then some (.ok entry, st)
          else
            let nameExt := fatShortNameToNameExt path fun _ => 0
            let target := (List.range 11).map nameExt
            let rest := (strchr '/'.toUInt8 path).map List.tail
            match fatFileLookup diskRead dev fuel entry target st with
            | none => none
            | some (.error code, st) => some (.error code, st)
            | some (.ok entry, st) => pathLoop dev fuel rounds rest entry st

/-- `fat_path_lookup(dev, directory, path, file)`. -/
def fatPathLookup (dev : FatDev) (fuel : Nat) (directory : FatDirEntry)
    (path : Option (List UInt8)) (st : FatState ω) :
    Option (Except Int FatDirEntry × FatState ω) :=
  pathLoop diskRead dev fuel ((path.map List.length).getD 0 + 1) path directory st

/-! ## Reading a file -/

/-- The entry `fat_read` starts from. -/
def rootEntry (dev : FatDev) : FatDirEntry where
  nameExt := "ROOT       ".toList.map Char.toUInt8
  attributes := fatAttrDirectory
  clusterHigh := dev.rootDirCluster.toNat / 2 ^ 16
  clusterLow := dev.rootDirCluster.toNat % 2 ^ 16

/-- The loop of `fat_read`: the cluster, how far `buffer` has advanced, what the
caller's memory holds from `buffer` on, and the reader's state. -/
structure ReadState (ω : Type) where
  cluster : Nat
  offset : Nat
  dest : Nat → UInt8
  st : FatState ω

/-- A round of the loop of `fat_read`. -/
def fatReadBody (dev : FatDev) (s : ReadState ω) :
    ReadState ω ⊕ (Int × (Nat → UInt8) × FatState ω) :=
  if inChain s.cluster then
    let (code, bytes, w) :=
      fatReadSectors diskRead dev (clusterLba dev s.cluster) dev.sectorsPerCluster.toNat s.st.world
    let dest := patch s.dest s.offset bytes
    let st := { s.st with world := w }
    if code ≠ 0 then .inr (code, dest, st)
    else
      match fatGetNextCluster diskRead dev s.cluster st with
      | (.error code, st) => .inr (code, dest, st)
      | (.ok next, st) =>
          .inl ⟨next, s.offset + dev.sectorsPerCluster.toNat * 512, dest, st⟩
  else .inr (0, s.dest, s.st)

/-- `fat_read(dev, path, buffer)`: the return code, the caller's memory from
`buffer` on and the reader's state. -/
def fatRead (dev : FatDev) (fuel : Nat) (path : Option (List UInt8)) (dest : Nat → UInt8)
    (st : FatState ω) : Option (Int × (Nat → UInt8) × FatState ω) :=
  match fatPathLookup diskRead dev fuel (rootEntry dev) path st with
  | none => none
  | some (.error code, st) => some (code, dest, st)
  | some (.ok file, st) =>
      iterate (fatReadBody diskRead dev) fuel ⟨file.cluster, 0, dest, st⟩

end Program

end DevOS.Boot
