import DevOS.Boot.FatRead
import DevOS.Lib.FirstMatch

/-!
# FAT32 — looking up a name

What `fat_file_lookup` finds in a directory whose reads succeed. The entries of
a directory are those of its clusters, in the order of the chain; the three
nested loops of the code are one scan of that list. The code compares a signed
`char` with `0xE5`, so it takes a deleted entry for a live one, it takes a
volume label for a file, and it leaves the chain at a FAT entry whose reserved
bits are set.
-/

namespace DevOS.Boot

open DevOS.Lib

/-! ## Scanning a list of entries -/

/-- The rules of the loop over a sector, on the entries themselves. -/
def scanList (target : List UInt8) : List FatDirEntry → Scan
  | [] => .next
  | e :: es =>
      let name0 := signedChar (e.nameExt.headD 0)
      if name0 = 0x00 then .stop (-1)
      else if name0 = 0xE5 then scanList target es
      else if e.attributes = 0x0F then scanList target es
      else if e.nameExt = target then .found e
      else scanList target es

/-- A scan goes on behind a list where it has come to nothing. -/
def Scan.orElse : Scan → Scan → Scan
  | .next, r => r
  | .stop code, _ => .stop code
  | .found e, _ => .found e

theorem scanList_append (target : List UInt8) (xs ys : List FatDirEntry) :
    scanList target (xs ++ ys) = (scanList target xs).orElse (scanList target ys) := by
  induction xs with
  | nil => rfl
  | cons e xs ih =>
      simp only [List.cons_append, scanList, ih]
      split
      · rfl
      · split
        · rfl
        · split
          · rfl
          · split
            · rfl
            · rfl

/-- The entries of a sector. -/
def sectorEntries (bytes : List UInt8) : List FatDirEntry :=
  (List.range fatDirEntriesPerSector).map (dirEntryAt fun i => bytes.getD i 0)

theorem scanEntries_eq (target : List UInt8) (buffer : Nat → UInt8) : ∀ (count i : Nat),
    scanEntries target buffer count i =
      scanList target ((List.range' i count).map (dirEntryAt buffer)) := by
  intro count
  induction count with
  | zero => intro i; rfl
  | succ count ih =>
      intro i
      rw [List.range'_succ, List.map_cons, scanEntries, scanList, ih]

/-- An entry depends on its own 32 bytes only. -/
theorem dirEntryAt_congr {buffer buffer' : Nat → UInt8} {i : Nat}
    (h : ∀ j, 32 * i ≤ j → j < 32 * i + 32 → buffer j = buffer' j) :
    dirEntryAt buffer i = dirEntryAt buffer' i := by
  unfold dirEntryAt
  congr 1
  · refine List.map_congr_left fun j hj => h _ (by omega) ?_
    have := List.mem_range.mp hj
    omega
  · exact h _ (by omega) (by omega)
  · exact littleEndian_congr fun j h1 h2 => h j (by omega) (by omega)
  · exact littleEndian_congr fun j h1 h2 => h j (by omega) (by omega)

/-- **The loop over a sector** that has been read to the buffer. -/
theorem scanEntries_sector (target : List UInt8) (buffer : Nat → UInt8) {bytes : List UInt8}
    (hlen : bytes.length = 512) :
    scanEntries target (patch buffer 0 bytes) fatDirEntriesPerSector 0 =
      scanList target (sectorEntries bytes) := by
  rw [scanEntries_eq, sectorEntries, List.range_eq_range']
  congr 1
  refine List.map_congr_left fun i hi => dirEntryAt_congr fun j h1 h2 => ?_
  have hi' : i < 16 := by
    have := (List.mem_range'_1.mp hi).2
    simpa only [fatDirEntriesPerSector] using this
  rw [patch_zero, if_pos (by omega)]

/-! ## The entries of a directory -/

section Directory

variable {ω : Type} {diskRead : DiskRead ω} {image : DiskImage} {dev : FatDev}

/-- The entries of a cluster. -/
def FatDev.clusterEntries (dev : FatDev) (image : DiskImage) (c : Nat) : List FatDirEntry :=
  (List.range dev.sectorsPerCluster.toNat).flatMap fun k =>
    sectorEntries (dev.sectorAt image (dev.data.toNat + (c - 2) * dev.sectorsPerCluster.toNat + k))

/-- The clusters of a chain that the code comes to: it leaves the chain behind
the first FAT entry with reserved bits. -/
def FatDev.reached (dev : FatDev) (image : DiskImage) : List Nat → List Nat
  | [] => []
  | c :: cs => if dev.fatEntry image c < 2 ^ 28 then c :: dev.reached image cs else [c]

theorem reached_prefix (dev : FatDev) (image : DiskImage) (cs : List Nat) :
    ∃ rest, cs = dev.reached image cs ++ rest := by
  induction cs with
  | nil => exact ⟨[], rfl⟩
  | cons c cs ih =>
      rw [FatDev.reached]
      split
      · obtain ⟨rest, hrest⟩ := ih
        exact ⟨rest, by rw [List.cons_append, ← hrest]⟩
      · exact ⟨cs, rfl⟩

/-- A sector in the volume is scanned as the list of its entries. -/
theorem scanSector_in (hhonest : Honest diskRead image) (hreads : ReadsSucceed diskRead dev)
    (hspan : dev.lba.toNat + dev.sectors.toNat ≤ 2 ^ 32) (target : List UInt8) (lba : Nat)
    (hin : lba + 1 ≤ dev.sectors.toNat) (st : FatState ω) :
    ∃ st', scanSector diskRead dev target lba st =
        (scanList target (sectorEntries (dev.sectorAt image lba)), st') ∧
      st'.cache = st.cache := by
  obtain ⟨w', hread⟩ := fatReadSectors_in hhonest hreads hin st.world
  rw [contents_one, u32_of_lt (by omega)] at hread
  have hscan : scanSector diskRead dev target lba st =
      (scanList target (sectorEntries (dev.sectorAt image lba)),
        ⟨w', st.cache, patch st.buffer 0 (dev.sectorAt image lba)⟩) := by
    unfold scanSector
    rw [hread]
    dsimp only
    rw [if_neg (fun hc => hc rfl)]
    exact congrArg₂ Prod.mk (scanEntries_sector target st.buffer (image.length_eq _ _ _)) rfl
  exact ⟨_, hscan, rfl⟩

/-- A scan of a cluster ends with its first sector if that one's does. -/
theorem scanSectors_stop (hspc : 0 < dev.sectorsPerCluster.toNat) {target : List UInt8} {c : Nat}
    {code : Int} {st st' : FatState ω}
    (h : scanSector diskRead dev target (clusterLba dev c) st = (.stop code, st')) :
    scanSectors diskRead dev target (clusterLba dev c) dev.sectorsPerCluster.toNat 0 st =
      (.stop code, st') := by
  obtain ⟨count, hcount⟩ := Nat.exists_eq_add_one.mpr hspc
  have hfirst : u32 (clusterLba dev c + 0) = clusterLba dev c :=
    Nat.mod_eq_of_lt (Nat.mod_lt _ (by decide))
  rw [hcount, scanSectors, hfirst, h]

/-- **The loop over the sectors** of a cluster from sector `s` on. -/
theorem scanSectors_in (hhonest : Honest diskRead image) (hreads : ReadsSucceed diskRead dev)
    (hspan : dev.lba.toNat + dev.sectors.toNat ≤ 2 ^ 32) (target : List UInt8) (lba : Nat) :
    ∀ (count s : Nat) (st : FatState ω), lba + s + count ≤ dev.sectors.toNat →
    ∃ st', scanSectors diskRead dev target lba count s st =
        (scanList target ((List.range' s count).flatMap fun k =>
          sectorEntries (dev.sectorAt image (lba + k))), st') ∧
      st'.cache = st.cache := by
  intro count
  induction count with
  | zero => intro s st _; exact ⟨st, rfl, rfl⟩
  | succ count ih =>
      intro s st hin
      have hlt := dev.sectors.toNat_lt
      obtain ⟨st₁, hone, hcache⟩ := scanSector_in hhonest hreads hspan target (lba + s)
        (by omega) st
      rw [scanSectors, u32_of_lt (by omega), hone, List.range'_succ, List.flatMap_cons,
        scanList_append]
      generalize scanList target (sectorEntries (dev.sectorAt image (lba + s))) = r
      cases r with
      | next =>
          obtain ⟨st₂, hrest, hcache₂⟩ := ih (s + 1) st₁ (by omega)
          exact ⟨st₂, hrest, hcache₂.trans hcache⟩
      | stop code => exact ⟨st₁, rfl, hcache⟩
      | found e => exact ⟨st₁, rfl, hcache⟩

/-- What `fat_file_lookup` returns after a scan. -/
def Scan.result : Scan → Except Int FatDirEntry
  | .next => .error (-1)
  | .stop code => .error code
  | .found e => .ok e

/-- A round in a cluster of the volume scans the list of its entries, and where
that comes to nothing takes the FAT entry for the next cluster. -/
theorem fileLookupBody_in (hhonest : Honest diskRead image) (hreads : ReadsSucceed diskRead dev)
    (hregular : dev.Regular) (target : List UInt8) {c : Nat} (hlow : 2 ≤ c)
    (hhigh : c < 0x0FFFFFF8) (hin : InRange dev c) {st : FatState ω}
    (hco : st.cache.Coherent image) :
    ∃ st', st'.cache.Coherent image ∧ fileLookupBody diskRead dev target (c, st) =
      match scanList target (dev.clusterEntries image c) with
      | .next => .inl (dev.fatEntry image c, st')
      | .stop code => .inr (.error code, st')
      | .found e => .inr (.ok e, st') := by
  have hspan := hregular.span
  have hlt := dev.sectors.toNat_lt
  have hdata := hin.data
  have hfat := hin.fat
  have hdata_eq := hregular.data_eq
  have hsplit : (c - 1) * dev.sectorsPerCluster.toNat =
      (c - 2) * dev.sectorsPerCluster.toNat + dev.sectorsPerCluster.toNat := by
    rw [show c - 1 = c - 2 + 1 by omega, Nat.succ_mul]
  have hlba : clusterLba dev c = dev.data.toNat + (c - 2) * dev.sectorsPerCluster.toNat :=
    u32_of_lt (by omega)
  have hinside : inChain c = true := inChain_iff.mpr ⟨hlow, hhigh⟩
  obtain ⟨st₁, hscan, hcache⟩ := scanSectors_in hhonest hreads hspan target
    (clusterLba dev c) dev.sectorsPerCluster.toNat 0 st (by omega)
  rw [← List.range_eq_range', hlba] at hscan
  change scanSectors _ _ _ _ _ _ _ = (scanList target (dev.clusterEntries image c), st₁) at hscan
  have hco₁ : st₁.cache.Coherent image := by rw [hcache]; exact hco
  unfold fileLookupBody
  dsimp only
  rw [if_pos hinside, hlba, hscan]
  generalize scanList target (dev.clusterEntries image c) = r
  cases r with
  | next =>
      obtain ⟨st₂, hnext, hco₂⟩ := fatGetNextCluster_in hhonest hreads hregular (c := c)
        (by omega) hco₁
      exact ⟨st₂, hco₂, by dsimp only; rw [hnext]⟩
  | stop code => exact ⟨st₁, hco₁, rfl⟩
  | found e => exact ⟨st₁, hco₁, rfl⟩

/-- **The loop of `fat_file_lookup`** scans the entries of the clusters it
reaches. -/
theorem fileLookup_loop (hhonest : Honest diskRead image) (hreads : ReadsSucceed diskRead dev)
    (hregular : dev.Regular) (target : List UInt8) {c : Nat} {cs : List Nat}
    (hchain : ClusterChain (dev.nextCluster image) c cs) (hin : ∀ c ∈ cs, InRange dev c) :
    ∀ {st : FatState ω}, st.cache.Coherent image →
    ∃ st', iterate (fileLookupBody diskRead dev target) (cs.length + 1) (c, st) =
      some ((scanList target
        ((dev.reached image cs).flatMap (dev.clusterEntries image))).result, st') := by
  have hout : ∀ {c : Nat} (st : FatState ω) (fuel : Nat), 0x0FFFFFF8 ≤ c →
      iterate (fileLookupBody diskRead dev target) (fuel + 1) (c, st) =
        some (.error (-1), st) := by
    intro c st fuel hend
    refine iterate_done ?_ fuel
    unfold fileLookupBody
    dsimp only
    rw [if_neg]
    rw [inChain_iff]
    omega
  induction hchain with
  | done hend =>
      intro st _
      exact ⟨st, hout st 0 hend⟩
  | @link c cs hlow hhigh hrest ih =>
      intro st hco
      obtain ⟨st₁, hco₁, hbody⟩ := fileLookupBody_in hhonest hreads hregular target hlow hhigh
        (hin c List.mem_cons_self) hco
      rw [FatDev.reached, List.length_cons]
      by_cases hres : dev.fatEntry image c < 2 ^ 28
      · obtain ⟨st₂, hloop⟩ := ih (fun d hd => hin d (List.mem_cons_of_mem _ hd)) hco₁
        have hlink : dev.nextCluster image c = dev.fatEntry image c := Nat.mod_eq_of_lt hres
        rw [hlink] at hloop
        rw [if_pos hres, List.flatMap_cons, scanList_append]
        generalize scanList target (dev.clusterEntries image c) = r at hbody
        cases r with
        | next => exact ⟨st₂, by rw [iterate_next hbody, hloop]; rfl⟩
        | stop code => exact ⟨st₁, iterate_done hbody _⟩
        | found e => exact ⟨st₁, iterate_done hbody _⟩
      · rw [if_neg hres, List.flatMap_singleton]
        generalize scanList target (dev.clusterEntries image c) = r at hbody
        cases r with
        | next => exact ⟨st₁, by rw [iterate_next hbody, hout st₁ _ (by omega)]; rfl⟩
        | stop code => exact ⟨st₁, iterate_done hbody _⟩
        | found e => exact ⟨st₁, iterate_done hbody _⟩

/-! ## What a lookup is for -/

/-- The name does not start with `0x00`. -/
def FatDirEntry.named (e : FatDirEntry) : Bool := e.nameExt.headD 0 != 0

/-- The entries before the one that ends the directory. -/
def liveEntries (es : List FatDirEntry) : List FatDirEntry := es.takeWhile FatDirEntry.named

def FatDirEntry.deleted (e : FatDirEntry) : Bool := e.nameExt.headD 0 == 0xE5

def FatDirEntry.longName (e : FatDirEntry) : Bool := e.attributes == 0x0F

def FatDirEntry.volumeLabel (e : FatDirEntry) : Bool := e.attributes &&& 0x08 != 0

/-- A file or a directory of the name. -/
def FatDirEntry.wanted (target : List UInt8) (e : FatDirEntry) : Bool :=
  !e.deleted && !e.longName && !e.volumeLabel && e.nameExt == target

/-- A deleted entry or a volume label of the name. -/
def FatDirEntry.decoy (target : List UInt8) (e : FatDirEntry) : Bool :=
  (e.deleted || e.volumeLabel) && !e.longName && e.nameExt == target

/-- What a lookup returns for the entry it is after, or none. -/
def lookupResult : Option FatDirEntry → Except Int FatDirEntry
  | some e => .ok e
  | none => .error (-1)

/-- An entry the code takes. -/
def FatDirEntry.taken (target : List UInt8) (e : FatDirEntry) : Bool :=
  !e.longName && e.nameExt == target

theorem signedChar_eq_zero (c : UInt8) : signedChar c = 0 ↔ c = 0 := by
  constructor
  · intro h
    have hdvd : (256 : Int) ∣ c.toNat := Int.dvd_of_bmod_eq_zero h
    have hlt := c.toNat_lt
    have hzero : c.toNat = 0 := by omega
    exact UInt8.toNat_inj.mp hzero
  · intro h
    have hzero : c.toNat = 0 := congrArg UInt8.toNat h
    exact Int.bmod_eq_zero_of_dvd (by omega)

/-- No `char` is `0xE5`. -/
theorem signedChar_ne_deleted (c : UInt8) : signedChar c ≠ 0xE5 := by
  have hlt := Int.bmod_lt (x := c.toNat) (m := 256) (by decide)
  unfold signedChar
  omega

/-- **The scan** finds the first entry the code takes, before the end of the
directory. -/
theorem scanList_result (target : List UInt8) (es : List FatDirEntry) :
    (scanList target es).result =
      lookupResult ((liveEntries es).find? (FatDirEntry.taken target)) := by
  unfold liveEntries
  induction es with
  | nil => rfl
  | cons e es ih =>
      rw [scanList, if_neg (signedChar_ne_deleted _)]
      by_cases hend : e.nameExt.headD 0 = 0
      · rw [if_pos ((signedChar_eq_zero _).mpr hend), List.takeWhile_cons_of_neg]
        · rfl
        · rw [FatDirEntry.named, hend]
          decide
      · have hnamed : e.named = true := by simpa [FatDirEntry.named] using hend
        rw [if_neg (fun h => hend ((signedChar_eq_zero _).mp h)),
          List.takeWhile_cons_of_pos hnamed, List.find?_cons]
        cases htaken : e.taken target with
        | true =>
            simp only [FatDirEntry.taken, FatDirEntry.longName, Bool.and_eq_true,
              Bool.not_eq_true', beq_eq_false_iff_ne, beq_iff_eq] at htaken
            rw [if_neg htaken.1, if_pos htaken.2]
            rfl
        | false =>
            dsimp only
            rw [← ih]
            split
            · rfl
            · rename_i hlfn
              rw [if_neg]
              intro hname
              simp [FatDirEntry.taken, FatDirEntry.longName, hlfn, hname] at htaken

theorem taken_of_wanted (target : List UInt8) (e : FatDirEntry) (h : e.wanted target = true) :
    e.taken target = true := by
  simp only [FatDirEntry.wanted, Bool.and_eq_true] at h
  simp only [FatDirEntry.taken, Bool.and_eq_true]
  exact ⟨h.1.1.2, h.2⟩

/-- What the code takes and is not wanted is a decoy. -/
theorem decoy_iff {target : List UInt8} (e : FatDirEntry) :
    e.decoy target = true ↔ e.taken target = true ∧ e.wanted target = false := by
  simp only [FatDirEntry.decoy, FatDirEntry.taken, FatDirEntry.wanted]
  cases e.deleted <;> cases e.volumeLabel <;> cases e.longName <;> simp

/-- The entries of a directory, by its clusters. -/
def FatDev.entries (dev : FatDev) (image : DiskImage) (chain : List Nat) : List FatDirEntry :=
  liveEntries (chain.flatMap (dev.clusterEntries image))

/-- What `fat_file_lookup` returns: of the clusters it reaches, the first entry
it takes. -/
theorem fatFileLookup_result (hhonest : Honest diskRead image)
    (hreads : ReadsSucceed diskRead dev) (hregular : dev.Regular) {directory : FatDirEntry}
    (hdir : directory.attributes &&& fatAttrDirectory ≠ 0) (target : List UInt8)
    {chain : List Nat} (hchain : ClusterChain (dev.nextCluster image) directory.cluster chain)
    (hin : ∀ c ∈ chain, InRange dev c) {st : FatState ω} (hco : st.cache.Coherent image) :
    ∃ st', ∀ n, chain.length + 1 ≤ n → fatFileLookup diskRead dev n directory target st =
      some (lookupResult ((dev.entries image (dev.reached image chain)).find?
        (FatDirEntry.taken target)), st') := by
  obtain ⟨st', hloop⟩ := fileLookup_loop hhonest hreads hregular target hchain hin hco
  refine ⟨st', fun n hn => ?_⟩
  rw [scanList_result] at hloop
  rw [fatFileLookup, if_neg hdir]
  exact iterate_mono hloop hn

theorem lookupResult_inj {r r' : Option FatDirEntry} (h : lookupResult r = lookupResult r') :
    r = r' := by
  cases r <;> cases r' <;> simp_all [lookupResult]

/-- **`fat_file_lookup` finds the right entry** exactly in these directories: no
deleted entry or volume label of the name stands before the first file or
directory of the name in the clusters the code reaches, and where the chain has
such a file or directory, those clusters have one. -/
theorem file_lookup_finds_entry (diskRead : DiskRead ω) (image : DiskImage) (dev : FatDev)
    (hhonest : Honest diskRead image) (hreads : ReadsSucceed diskRead dev)
    (hregular : dev.Regular) (directory : FatDirEntry)
    (hdir : directory.attributes &&& fatAttrDirectory ≠ 0) (target : List UInt8)
    (chain : List Nat) (hchain : ClusterChain (dev.nextCluster image) directory.cluster chain)
    (hin : ∀ c ∈ chain, InRange dev c) (st : FatState ω) (hco : st.cache.Coherent image) :
    (∃ rounds st', ∀ n, rounds ≤ n → fatFileLookup diskRead dev n directory target st =
      some (lookupResult ((dev.entries image chain).find? (FatDirEntry.wanted target)), st')) ↔
    (∀ pre e post, dev.entries image (dev.reached image chain) = pre ++ e :: post →
      e.decoy target = true → ∃ e' ∈ pre, e'.wanted target = true) ∧
    ((∃ e ∈ dev.entries image chain, e.wanted target = true) →
      ∃ e ∈ dev.entries image (dev.reached image chain), e.wanted target = true) := by
  obtain ⟨st', hresult⟩ := fatFileLookup_result hhonest hreads hregular hdir target hchain hin hco
  obtain ⟨rest, hrest⟩ := reached_prefix dev image chain
  have hprefix : ∃ more, dev.entries image chain =
      dev.entries image (dev.reached image chain) ++ more := by
    have hsplit : chain.flatMap (dev.clusterEntries image) =
        (dev.reached image chain).flatMap (dev.clusterEntries image) ++
          rest.flatMap (dev.clusterEntries image) := by
      rw [← List.flatMap_append, ← hrest]
    unfold FatDev.entries liveEntries
    rw [hsplit]
    exact takeWhile_append_prefix _ _ _
  obtain ⟨more, hmore⟩ := hprefix
  have hiff := find?_eq_find?_append_iff (taken_of_wanted target)
    (dev.entries image (dev.reached image chain)) more
  rw [← hmore] at hiff
  have hcond : (∃ rounds st', ∀ n, rounds ≤ n →
      fatFileLookup diskRead dev n directory target st = some (lookupResult
        ((dev.entries image chain).find? (FatDirEntry.wanted target)), st')) ↔
      (dev.entries image (dev.reached image chain)).find? (FatDirEntry.taken target) =
        (dev.entries image chain).find? (FatDirEntry.wanted target) := by
    constructor
    · rintro ⟨rounds, st₁, hrun⟩
      have h1 := hresult (max rounds (chain.length + 1)) (Nat.le_max_right _ _)
      have h2 := hrun (max rounds (chain.length + 1)) (Nat.le_max_left _ _)
      have heq := (Prod.mk.inj (Option.some.inj (h1.symm.trans h2))).1
      exact lookupResult_inj heq
    · intro heq
      refine ⟨chain.length + 1, st', fun n hn => ?_⟩
      rw [hresult n hn, heq]
  rw [hcond, hiff]
  refine and_congr_left fun _ => ?_
  constructor
  · intro h pre e post heq hdecoy
    obtain ⟨htaken, hwanted⟩ := (decoy_iff e).mp hdecoy
    exact h pre e post heq htaken hwanted
  · intro h pre e post heq htaken hwanted
    exact h pre e post heq ((decoy_iff e).mpr ⟨htaken, hwanted⟩)

end Directory

/-- `A` in 11 bytes. -/
def sampleName : List UInt8 := [65, 32, 32, 32, 32, 32, 32, 32, 32, 32, 32]

/-- A disk by the start of each sector, the rest of the sector 0. -/
def paddedImage (start : Nat → List UInt8) : DiskImage where
  sector _ _ lba := (start lba ++ List.replicate 512 0).take 512
  length_eq _ _ lba := by
    rw [List.length_take, List.length_append, List.length_replicate]
    omega

/-- An entry as it stands in a sector. -/
def entryBytes (name : List UInt8) (attributes clusterLow : UInt8) : List UInt8 :=
  name ++ [attributes] ++ List.replicate 14 0 ++ [clusterLow] ++ List.replicate 5 0

/-- A root directory of two clusters, 2 and 4: the first one is full of other files,
each behind the entry of a long name; `A` and an entry of its long name stand in
the second one. -/
def longImage : DiskImage := paddedImage fun
  | 1 => [0xF8, 0xFF, 0xFF, 0x0F, 0xFF, 0xFF, 0xFF, 0x0F, 4, 0, 0, 0, 0xF8, 0xFF, 0xFF, 0x0F,
      0xF8, 0xFF, 0xFF, 0x0F, 3, 0, 0, 0]
  | 2 => (List.range 8).flatMap fun k =>
      entryBytes (0x41 :: List.replicate 10 0x61) 0x0F 0 ++
        entryBytes (UInt8.ofNat (66 + k) :: List.replicate 10 32) 0x20 0
  | 4 => entryBytes sampleName 0x0F 0 ++ entryBytes sampleName 0x20 5
  | _ => []

theorem longImage_rootChain : ClusterChain (sampleDev.nextCluster longImage)
    (rootEntry sampleDev).cluster [2, 4] := by
  have hlink2 : sampleDev.fatEntry longImage 2 = 4 := by decide
  have hlink4 : sampleDev.fatEntry longImage 4 = 0x0FFFFFF8 := by decide
  refine .link (by decide) (by decide) ?_
  rw [show (rootEntry sampleDev).cluster = 2 by decide, FatDev.nextCluster, hlink2]
  refine .link (by decide) (by decide) ?_
  rw [show 4 % 2 ^ 28 = 4 from rfl, FatDev.nextCluster, hlink4]
  exact .done (by decide)

set_option maxRecDepth 8000 in
theorem file_lookup_finds_entry_sample : ∃ rounds st', ∀ n, rounds ≤ n →
    fatFileLookup (imageRead longImage) sampleDev n (rootEntry sampleDev)
      sampleName ⟨(), sampleCache, fun _ => 0⟩ = some (.ok ⟨sampleName, 0x20, 0, 5⟩, st') := by
  have hreached : sampleDev.reached longImage [2, 4] = [2, 4] := by decide
  have hfirst : (sampleDev.entries longImage [2, 4]).find? (FatDirEntry.wanted sampleName) =
      some ⟨sampleName, 0x20, 0, 5⟩ := by decide +kernel
  have hclean : ∀ e ∈ sampleDev.entries longImage [2, 4], e.decoy sampleName ≠ true := by
    decide +kernel
  have hfound := (file_lookup_finds_entry (imageRead longImage)
    longImage sampleDev (imageRead_honest _) (imageRead_succeeds _ _) ⟨by decide, by decide⟩
    (rootEntry sampleDev) (by decide) sampleName [2, 4] longImage_rootChain
    (by
      intro c hc
      obtain rfl | hc := List.mem_cons.mp hc
      · exact ⟨by decide, by decide⟩
      · obtain rfl := List.mem_singleton.mp hc
        exact ⟨by decide, by decide⟩)
    ⟨(), sampleCache, fun _ => 0⟩ (fun h => by cases h)).mpr
    (by
      rw [hreached]
      refine ⟨fun pre e post heq hdecoy => ?_, fun h => h⟩
      refine absurd hdecoy (hclean e ?_)
      rw [heq]
      exact List.mem_append_right _ List.mem_cons_self)
  rw [hfirst] at hfound
  exact hfound

/-- A root directory that holds a deleted entry only. -/
def deletedImage : DiskImage := paddedImage fun
  | 1 => [0xF8, 0xFF, 0xFF, 0x0F, 0xFF, 0xFF, 0xFF, 0x0F, 0xF8, 0xFF, 0xFF, 0x0F]
  | 2 => [0xE5, 65, 32, 32, 32, 32, 32, 32, 32, 32, 32, 0x20]
  | _ => []

/-- The name of the deleted entry. -/
def deletedName : List UInt8 := [0xE5, 65, 32, 32, 32, 32, 32, 32, 32, 32, 32]

set_option maxRecDepth 4000 in
theorem deletedImage_entries :
    sampleDev.entries deletedImage [2] = [⟨deletedName, 0x20, 0, 0⟩] := by decide

set_option maxRecDepth 4000 in
/-- The code finds the deleted entry. -/
theorem file_lookup_finds_deleted :
    ClusterChain (sampleDev.nextCluster deletedImage) (rootEntry sampleDev).cluster [2] ∧
    (sampleDev.entries deletedImage [2]).find? (FatDirEntry.wanted deletedName) = none ∧
    ∀ n, 2 ≤ n → ∃ st',
      fatFileLookup (imageRead deletedImage) sampleDev n
        (rootEntry sampleDev) deletedName ⟨(), sampleCache, fun _ => 0⟩ =
      some (.ok ⟨deletedName, 0x20, 0, 0⟩, st') := by
  have hlink : sampleDev.fatEntry deletedImage 2 = 0x0FFFFFF8 := by decide
  have hroot : (rootEntry sampleDev).cluster = 2 := by decide
  have hchain : ClusterChain (sampleDev.nextCluster deletedImage) (rootEntry sampleDev).cluster
      [2] := by
    refine .link (by decide) (by decide) ?_
    rw [hroot, FatDev.nextCluster, hlink]
    exact .done (by decide)
  refine ⟨hchain, by rw [deletedImage_entries]; decide, fun n hn => ?_⟩
  have hresult : ∃ st', ∀ n, 2 ≤ n →
      fatFileLookup (imageRead deletedImage) sampleDev n
        (rootEntry sampleDev) deletedName ⟨(), sampleCache, fun _ => 0⟩ =
      some (lookupResult ((sampleDev.entries deletedImage
        (sampleDev.reached deletedImage [2])).find? (FatDirEntry.taken deletedName)), st') :=
    fatFileLookup_result (imageRead_honest _) (imageRead_succeeds _ _) ⟨by decide, by decide⟩
      (by decide) deletedName hchain
      (by
        intro c hc
        obtain rfl := List.mem_singleton.mp hc
        exact ⟨by decide, by decide⟩)
      (fun h => by cases h)
  obtain ⟨st', hresult⟩ := hresult
  have hreached : sampleDev.reached deletedImage [2] = [2] := by decide
  refine ⟨st', ?_⟩
  rw [hresult n hn, hreached, deletedImage_entries]
  rfl

end DevOS.Boot
