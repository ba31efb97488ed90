import DevOS.Boot.FatBounds

/-!
# FAT32 — reads outside of the partition

When `fat_read` reads outside of its partition. A disk with a script leads it to
each place on its way; there the script fails the next read, so that the run ends
and its requests show.
-/

namespace DevOS.Boot

open DevOS.Lib

section Leak

variable {dev : FatDev} {image : DiskImage} {path : Option (List UInt8)}

/-- Every request of `fat_read` for the path is inside, those of a run that does
not end too. -/
def StaysInside (dev : FatDev) (image : DiskImage) (path : Option (List UInt8)) : Prop :=
  ∀ (ω : Type) (diskRead : DiskRead ω) (log : ω → List DiskRequest),
    Honest diskRead image → Notes diskRead log →
    ∀ (st : FatState ω) (dest : Nat → UInt8), st.cache.Sound dev image →
    (∀ n r, fatRead diskRead dev n path dest st = some r →
      AllInside dev (log st.world) (log r.2.2.world)) ∧
    ∀ phase phase', arrive dest path (rootEntry dev) st = .inl phase →
      Rounds (fatStep diskRead dev dest) phase phase' →
      AllInside dev (log st.world) (log phase'.state.world)

/-- The FAT sector in the cache is not the last number there is. -/
def FatCache.Low (cache : FatCache) (dev : FatDev) : Prop :=
  ∀ sectorNo, fatCacheIsStale cache dev sectorNo = false →
    u32 (dev.fat.toNat + sectorNo) ≠ 2 ^ 32 - 1

/-- A script leads the run to the place, with what is left of the script. -/
def Reached (dev : FatDev) (image : DiskImage) (path : Option (List UInt8)) (place : Place) :
    Prop :=
  ∃ j log cache buffer offset dest, FatCache.Sound cache dev image ∧ cache.Low dev ∧
    ∀ t, ∃ phase phase',
      arrive (fun _ => 0) path (rootEntry dev) (scriptState (List.replicate j 0 ++ t)) =
        .inl phase ∧
      place.phase offset dest ⟨(t, log), cache, buffer⟩ = some phase' ∧
      Rounds (fatStep (faulty scripted image) dev fun _ => 0) phase phase'

/-! ## The last read -/

/-- **What a run that stays inside asks for last is inside.** -/
theorem StaysInside.last (h : StaysInside dev image path) {script : List Int}
    {phase phase' : Phase (List Int × List DiskRequest)}
    (harrive : arrive (fun _ => 0) path (rootEntry dev) (scriptState script) = .inl phase)
    (hrun : Rounds (fatStep (faulty scripted image) dev fun _ => 0) phase phase')
    {code : Int} {dest : Nat → UInt8} {st : FatState (List Int × List DiskRequest)}
    (hend : fatStep (faulty scripted image) dev (fun _ => 0) phase' = .inr (code, dest, st))
    {rq : DiskRequest} {log : List DiskRequest} (hlog : st.world.2 = log ++ [rq]) :
    dev.Inside rq := by
  obtain ⟨N, hN⟩ := hrun.result (iterate_done hend 0)
  obtain ⟨n, hn⟩ := fatRead_of_phases harrive hN
  obtain ⟨hends, -⟩ := h _ (faulty scripted image) Prod.snd (faulty_honest scripted image)
    (faulty_notes scripted_notes image) (scriptState script) (fun _ => 0) (.empty rfl dev image)
  have hmem : rq ∈ st.world.2 := by
    rw [hlog]
    exact List.mem_append_right _ (List.mem_singleton_self rq)
  obtain hold | hinside := hends n _ hn rq hmem
  · cases hold
  · exact hinside

/-- So it does not leak. -/
theorem StaysInside.not_leaks (h : StaysInside dev image path)
    (hspan : dev.lba.toNat + dev.sectors.toNat ≤ 2 ^ 32) {script : List Int}
    {phase phase' : Phase (List Int × List DiskRequest)}
    (harrive : arrive (fun _ => 0) path (rootEntry dev) (scriptState script) = .inl phase)
    (hrun : Rounds (fatStep (faulty scripted image) dev fun _ => 0) phase phase')
    {lba count : Nat} (hlba : lba < 2 ^ 32)
    (hend : u32 (lba + count) ≤ dev.sectors.toNat → ∃ code dest st log,
      fatStep (faulty scripted image) dev (fun _ => 0) phase' = .inr (code, dest, st) ∧
      st.world.2 = log ++ [dev.request lba count]) : ¬ dev.Leaks lba count := by
  intro hleaks
  obtain ⟨code, dest, st, log, hstep, hlog⟩ := hend hleaks.1
  exact (inside_iff hspan hlba hleaks.1).mp (h.last harrive hrun hstep hlog) hleaks

/-- Scanning sectors that come to nothing leaves the rest of them. -/
theorem scanSectors_add {ω : Type} {diskRead : DiskRead ω} {target : List UInt8} {lba : Nat} :
    ∀ (count m s : Nat) {st st' : FatState ω},
    scanSectors diskRead dev target lba count s st = (.next, st') →
    scanSectors diskRead dev target lba (count + m) s st =
      scanSectors diskRead dev target lba m (s + count) st' := by
  intro count
  induction count with
  | zero =>
      intro m s st st' h
      obtain rfl := (Prod.mk.inj h).2
      rw [Nat.zero_add, Nat.add_zero]
  | succ count ih =>
      intro m s st st' h
      rw [Nat.succ_add, scanSectors]
      rw [scanSectors] at h
      split at h
      · rename_i st₁ hscan
        rw [ih m (s + 1) h, Nat.add_assoc, Nat.add_comm 1 count]
      · cases h
      · cases h

/-- **A sector of a directory** whose read fails ends the run. -/
theorem fatStep_sector_fails {rest : List UInt8} {c s : Nat} (hin : inChain c = true)
    (hs : s < dev.sectorsPerCluster.toNat) (hpass : u32 (u32 (clusterLba dev c + s) + 1) ≤
      dev.sectors.toNat) {st : FatState (List Int × List DiskRequest)} {log : List DiskRequest}
    {cache : FatCache} {buffer : Nat → UInt8}
    (hscan : scanSectors (faulty scripted image) dev (nameExtOf rest) (clusterLba dev c) s 0 st =
      (.next, ⟨([7], log), cache, buffer⟩)) :
    ∃ code dest st' log',
      fatStep (faulty scripted image) dev (fun _ => 0) (.looking rest c st) =
        .inr (code, dest, st') ∧
      st'.world.2 = log' ++ [dev.request (u32 (clusterLba dev c + s)) 1] := by
  obtain ⟨m, hm⟩ : ∃ m, dev.sectorsPerCluster.toNat = s + (m + 1) :=
    ⟨dev.sectorsPerCluster.toNat - s - 1, by omega⟩
  have hone : ∃ buffer', scanSector (faulty scripted image) dev (nameExtOf rest)
      (u32 (clusterLba dev c + s)) ⟨([7], log), cache, buffer⟩ =
      (.stop 7, ⟨([], log ++ [dev.request (u32 (clusterLba dev c + s)) 1]), cache, buffer'⟩) := by
    unfold scanSector
    rw [scripted_read image hpass]
    exact ⟨_, rfl⟩
  obtain ⟨buffer', hone⟩ := hone
  refine ⟨7, fun _ => 0,
    ⟨([], log ++ [dev.request (u32 (clusterLba dev c + s)) 1]), cache, buffer'⟩, log, ?_, rfl⟩
  unfold fatStep fileLookupBody
  dsimp only
  rw [if_pos hin, hm, scanSectors_add _ _ _ hscan, Nat.zero_add, scanSectors, hone]

/-- A sector of the FAT whose read fails. -/
theorem scripted_next_fails (image : DiskImage) {cache : FatCache} {c : Nat}
    (hstale : fatCacheIsStale cache dev (c / 128) = true) (hpass : dev.FatPasses c)
    (log : List DiskRequest) (buffer : Nat → UInt8) : ∃ cache',
    fatGetNextCluster (faulty scripted image) dev c ⟨([7], log), cache, buffer⟩ =
      (.error 7, ⟨([], log ++ [dev.request (u32 (dev.fat.toNat + c / 128)) 1]), cache',
        buffer⟩) := by
  have hfetch : ∃ cache', fatCacheFetch (faulty scripted image) dev (c / 128)
      ⟨([7], log), cache, buffer⟩ = (7,
        ⟨([], log ++ [dev.request (u32 (dev.fat.toNat + c / 128)) 1]), cache', buffer⟩) := by
    unfold fatCacheFetch
    dsimp only
    rw [scripted_read image hpass]
    exact ⟨_, rfl⟩
  obtain ⟨cache', hfetch⟩ := hfetch
  refine ⟨cache', ?_⟩
  unfold fatGetNextCluster
  dsimp only
  rw [if_pos hstale, hfetch]
  rfl

/-- **The FAT sector of a directory's cluster** whose read fails ends the run. -/
theorem fatStep_look_fails {rest : List UInt8} {c : Nat} (hin : inChain c = true)
    {st : FatState (List Int × List DiskRequest)} {log : List DiskRequest} {cache : FatCache}
    {buffer : Nat → UInt8} (hstale : fatCacheIsStale cache dev (c / 128) = true)
    (hpass : dev.FatPasses c)
    (hscan : scanSectors (faulty scripted image) dev (nameExtOf rest) (clusterLba dev c)
      dev.sectorsPerCluster.toNat 0 st = (.next, ⟨([7], log), cache, buffer⟩)) :
    ∃ code dest st' log',
      fatStep (faulty scripted image) dev (fun _ => 0) (.looking rest c st) =
        .inr (code, dest, st') ∧
      st'.world.2 = log' ++ [dev.request (u32 (dev.fat.toNat + c / 128)) 1] := by
  obtain ⟨cache', hnext⟩ := scripted_next_fails image hstale hpass log buffer
  refine ⟨7, fun _ => 0,
    ⟨([], log ++ [dev.request (u32 (dev.fat.toNat + c / 128)) 1]), cache', buffer⟩, log, ?_, rfl⟩
  unfold fatStep fileLookupBody
  dsimp only
  rw [if_pos hin, hscan]
  dsimp only
  rw [hnext]

/-- **A cluster of the file** whose read fails ends the run. -/
theorem fatStep_data_fails {c : Nat} (hin : inChain c = true)
    (hpass : u32 (clusterLba dev c + dev.sectorsPerCluster.toNat) ≤ dev.sectors.toNat)
    (offset : Nat) (dest : Nat → UInt8) (log : List DiskRequest) (cache : FatCache)
    (buffer : Nat → UInt8) : ∃ code dest' st' log',
      fatStep (faulty scripted image) dev (fun _ => 0)
        (.reading ⟨c, offset, dest, ⟨([7], log), cache, buffer⟩⟩) = .inr (code, dest', st') ∧
      st'.world.2 =
        log' ++ [dev.request (clusterLba dev c) dev.sectorsPerCluster.toNat] := by
  refine ⟨7, patch dest offset [],
    ⟨([], log ++ [dev.request (clusterLba dev c) dev.sectorsPerCluster.toNat]), cache, buffer⟩,
    log, ?_, rfl⟩
  unfold fatStep fatReadBody
  dsimp only
  rw [if_pos hin, scripted_read image hpass]
  rfl

/-- **The FAT sector of a file's cluster** whose read fails ends the run. -/
theorem fatStep_read_fails {c : Nat} (hin : inChain c = true)
    (hdata : u32 (clusterLba dev c + dev.sectorsPerCluster.toNat) ≤ dev.sectors.toNat)
    (hpass : dev.FatPasses c) (offset : Nat) (dest : Nat → UInt8) (log : List DiskRequest)
    {cache : FatCache} (hstale : fatCacheIsStale cache dev (c / 128) = true)
    (buffer : Nat → UInt8) : ∃ code dest' st' log',
      fatStep (faulty scripted image) dev (fun _ => 0)
        (.reading ⟨c, offset, dest, ⟨([0, 7], log), cache, buffer⟩⟩) = .inr (code, dest', st') ∧
      st'.world.2 = log' ++ [dev.request (u32 (dev.fat.toNat + c / 128)) 1] := by
  let log₁ := log ++ [dev.request (clusterLba dev c) dev.sectorsPerCluster.toNat]
  obtain ⟨cache', hnext⟩ := scripted_next_fails image hstale hpass log₁ buffer
  refine ⟨7, patch dest offset (image.contents (dev.request (clusterLba dev c)
    dev.sectorsPerCluster.toNat)),
    ⟨([], log₁ ++ [dev.request (u32 (dev.fat.toNat + c / 128)) 1]), cache', buffer⟩, log₁, ?_, rfl⟩
  unfold fatStep fatReadBody
  dsimp only
  rw [if_pos hin, scripted_read image hdata]
  dsimp only
  rw [if_neg (fun hne => hne rfl), hnext, if_pos rfl]

/-! ## Places that are reached -/

/-- The next cluster comes with a cache that is low, if its FAT sector is. -/
theorem fatGetNextCluster_low {ω : Type} {diskRead : DiskRead ω} {c next : Nat}
    {st st' : FatState ω} (hlow : st.cache.Low dev)
    (hsector : u32 (dev.fat.toNat + c / 128) ≠ 2 ^ 32 - 1)
    (h : fatGetNextCluster diskRead dev c st = (.ok next, st')) : st'.cache.Low dev := by
  unfold fatGetNextCluster at h
  dsimp only at h
  split at h
  · generalize hfetch : fatCacheFetch diskRead dev (c / 128) st = r at h
    obtain ⟨code, st₁⟩ := r
    dsimp only at h
    split at h
    · cases h
    · rename_i hcode
      rw [not_not.mp hcode] at hfetch
      obtain ⟨-, hno⟩ := fatCacheFetch_passed hfetch
      cases h
      intro sectorNo hfresh
      obtain ⟨-, -, -, -, -, -, hno'⟩ := fresh_iff.mp hfresh
      rw [← hno', hno]
      exact hsector
  · obtain rfl := (Prod.mk.inj h).2
    exact hlow


/-- **What a run reaches is tight** when its requests stay inside. -/
theorem StaysInside.tight (h : StaysInside dev image path)
    (hspan : dev.lba.toNat + dev.sectors.toNat ≤ 2 ^ 32) {place : Place}
    (hreached : Reached dev image path place) : place.Tight dev image := by
  obtain ⟨j, log, cache, buffer, offset, dest, hsound, hlow, hreach⟩ := hreached
  cases place with
  | blocked => trivial
  | looking rest c =>
      intro hin
      constructor
      · intro s hs hscan
        have hlba : u32 (clusterLba dev c + s) < 2 ^ 32 := u32_lt _
        refine (leaks_one dev hlba).not.mp ?_
        obtain ⟨j', log', buffer', hsectors⟩ := scripted_scanSectors image (nameExtOf rest)
          (fun _ => Scan.noConfusion) _ _ _ buffer hscan
        -- the sectors before it are read, then the script fails
        obtain ⟨phase, phase', harrive, hphase, hrun⟩ := hreach (List.replicate j' 0 ++ [7])
        obtain rfl := Option.some.inj hphase
        exact h.not_leaks hspan harrive hrun hlba fun hpass =>
          fatStep_sector_fails hin hs hpass (hsectors [7] log cache)
      · intro hscan
        cases hstale : fatCacheIsStale cache dev (c / 128) with
        | false => exact hlow _ hstale
        | true =>
            have hlba : u32 (dev.fat.toNat + c / 128) < 2 ^ 32 := u32_lt _
            refine (leaks_one dev hlba).not.mp ?_
            obtain ⟨j', log', buffer', hsectors⟩ := scripted_scanSectors image (nameExtOf rest)
              (fun _ => Scan.noConfusion) _ _ _ buffer hscan
            obtain ⟨phase, phase', harrive, hphase, hrun⟩ := hreach (List.replicate j' 0 ++ [7])
            obtain rfl := Option.some.inj hphase
            exact h.not_leaks hspan harrive hrun hlba fun hpass =>
              fatStep_look_fails hin hstale hpass (hsectors [7] log cache)
  | reading c =>
      intro hin
      constructor
      · have hlba : clusterLba dev c < 2 ^ 32 := u32_lt _
        obtain ⟨phase, phase', harrive, hphase, hrun⟩ := hreach [7]
        obtain rfl := Option.some.inj hphase
        exact h.not_leaks hspan harrive hrun hlba fun hpass =>
          fatStep_data_fails hin hpass offset dest log cache buffer
      · intro hdata
        cases hstale : fatCacheIsStale cache dev (c / 128) with
        | false => exact hlow _ hstale
        | true =>
            have hlba : u32 (dev.fat.toNat + c / 128) < 2 ^ 32 := u32_lt _
            refine (leaks_one dev hlba).not.mp ?_
            obtain ⟨phase, phase', harrive, hphase, hrun⟩ := hreach [0, 7]
            obtain rfl := Option.some.inj hphase
            exact h.not_leaks hspan harrive hrun hlba fun hpass =>
              fatStep_read_fails hin hdata hpass offset dest log hstale buffer

/-- The way begins where an empty script leads. -/
theorem Reached.start (hblocked : enter path (rootEntry dev) ≠ .blocked) :
    Reached dev image path (enter path (rootEntry dev)) := by
  refine ⟨0, [], freshState.cache, freshState.buffer, 0, fun _ => 0, .empty rfl dev image,
    fun _ hfresh => (by cases hfresh), fun t => ?_⟩
  obtain ⟨phase, hphase⟩ := Place.phase_exists hblocked 0 (fun _ => 0) (scriptState t)
  exact ⟨phase, phase, arrive_of_phase hphase, hphase, .refl phase⟩

/-- A round that the script lets pass leads on. -/
theorem Reached.next {place place' : Place} (h : Reached dev image path place)
    (htight : ∀ cache buffer offset dest, FatCache.Sound cache dev image → cache.Low dev →
      ∃ j log' cache' buffer' offset' dest', FatCache.Sound cache' dev image ∧ cache'.Low dev ∧
        ∀ t log phase, place.phase offset dest
          (FatState.mk (List.replicate j (0 : Int) ++ t, log) cache buffer) = some phase →
        ∃ phase', place'.phase offset' dest' ⟨(t, log ++ log'), cache', buffer'⟩ = some phase' ∧
          fatStep (faulty scripted image) dev (fun _ => 0) phase = .inl phase') :
    Reached dev image path place' := by
  obtain ⟨j, log, cache, buffer, offset, dest, hsound, hlow, hreach⟩ := h
  obtain ⟨j', log', cache', buffer', offset', dest', hsound', hlow', hround⟩ :=
    htight cache buffer offset dest hsound hlow
  refine ⟨j + j', log ++ log', cache', buffer', offset', dest', hsound', hlow', fun t => ?_⟩
  obtain ⟨phase, phase₁, harrive, hphase, hrun⟩ := hreach (List.replicate j' 0 ++ t)
  obtain ⟨phase', hphase', hstep⟩ := hround t log phase₁ hphase
  rw [← List.append_assoc, List.replicate_append_replicate] at harrive
  exact ⟨phase, phase', harrive, hphase', hrun.next hstep⟩

/-- A round of a lookup that goes on. -/
theorem Reached.look {rest : List UInt8} {c : Nat}
    (h : Reached dev image path (.looking rest c)) (hin : inChain c = true)
    (hscan : dev.scanCluster image (nameExtOf rest) c = .next) (hfat : dev.FatPasses c)
    (hsector : u32 (dev.fat.toNat + c / 128) ≠ 2 ^ 32 - 1) :
    Reached dev image path (.looking rest (dev.link image c)) := by
  refine h.next fun cache buffer offset dest hsound hlow => ?_
  obtain ⟨j, log', cache', buffer', hsound', hlook⟩ :=
    scripted_look (nameExtOf rest) hsound hin hscan hfat buffer
  have hlow' : cache'.Low dev := by
    obtain ⟨st₁, hcache, hnext⟩ := fileLookupBody_next (hlook [] [])
    have hlow₁ : st₁.cache.Low dev := by
      rw [hcache]
      exact hlow
    exact fatGetNextCluster_low hlow₁ hsector hnext
  refine ⟨j, log', cache', buffer', offset, dest, hsound', hlow', fun t log phase hphase => ?_⟩
  obtain rfl := Option.some.inj hphase
  refine ⟨_, rfl, ?_⟩
  rw [fatStep, hlook]

/-- A round of a lookup that finds its entry. -/
theorem Reached.find {rest : List UInt8} {c : Nat} {e : FatDirEntry}
    (h : Reached dev image path (.looking rest c)) (hin : inChain c = true)
    (hscan : dev.scanCluster image (nameExtOf rest) c = .found e)
    (hblocked : enter ((strchr '/'.toUInt8 rest).map List.tail) e ≠ .blocked) :
    Reached dev image path (enter ((strchr '/'.toUInt8 rest).map List.tail) e) := by
  refine h.next fun cache buffer offset dest hsound hlow => ?_
  obtain ⟨j, log', buffer', hfind⟩ := scripted_find (nameExtOf rest) hin hscan buffer
  refine ⟨j, log', cache, buffer', 0, fun _ => 0, hsound, hlow, fun t log phase hphase => ?_⟩
  obtain rfl := Option.some.inj hphase
  obtain ⟨phase', hphase'⟩ := Place.phase_exists hblocked 0 (fun _ => 0)
    (FatState.mk (t, log ++ log') cache buffer')
  refine ⟨phase', hphase', ?_⟩
  rw [fatStep, hfind]
  exact arrive_of_phase hphase'

/-- A round of the file's loop. -/
theorem Reached.read {c : Nat} (h : Reached dev image path (.reading c)) (hin : inChain c = true)
    (hreadable : dev.Readable c) (hsector : u32 (dev.fat.toNat + c / 128) ≠ 2 ^ 32 - 1) :
    Reached dev image path (.reading (dev.link image c)) := by
  refine h.next fun cache buffer offset dest hsound hlow => ?_
  obtain ⟨j, log', cache', offset', dest', hsound', hread⟩ :=
    scripted_readBody hsound hin hreadable offset dest buffer
  have hlow' : cache'.Low dev := by
    obtain ⟨st₁, hcache, hnext⟩ := fatReadBody_next (hread [] [])
    have hlow₁ : st₁.cache.Low dev := by
      rw [hcache]
      exact hlow
    exact fatGetNextCluster_low hlow₁ hsector hnext
  refine ⟨j, log', cache', buffer, offset', dest', hsound', hlow', fun t log phase hphase => ?_⟩
  obtain rfl := Option.some.inj hphase
  refine ⟨_, rfl, ?_⟩
  rw [fatStep, hread]

/-- **Every place on the way is reached**, if the requests stay inside. -/
theorem StaysInside.reached (h : StaysInside dev image path)
    (hspan : dev.lba.toNat + dev.sectors.toNat ≤ 2 ^ 32) {place : Place}
    (hcomes : Comes dev image path place) (hblocked : place ≠ .blocked) :
    Reached dev image path place := by
  induction hcomes with
  | start => exact .start hblocked
  | look _ hin hscan hfat ih =>
      have hreached := ih (fun h => by cases h)
      exact hreached.look hin hscan hfat ((h.tight hspan hreached hin).2 hscan)
  | find _ hin hscan ih => exact (ih (fun h => by cases h)).find hin hscan hblocked
  | read _ hin hreadable ih =>
      have hreached := ih (fun h => by cases h)
      exact hreached.read hin hreadable ((h.tight hspan hreached hin).2 hreadable.data)

/-- Every request of `fat_dev_init` for the device is inside. -/
def InitInside (dev : FatDev) : Prop :=
  ∀ (ω : Type) (diskRead : DiskRead ω) (log : ω → List DiskRequest), Notes diskRead log →
    ∀ (w : ω), AllInside dev (log w)
      (log (fatDevInit diskRead ⟨dev.abar, dev.port, dev.lba, dev.sectors⟩ w).2)

/-- `fat_dev_init` reads the first sector of the partition. -/
theorem fatDevInit_inside (hspan : dev.lba.toNat + dev.sectors.toNat ≤ 2 ^ 32) :
    InitInside dev := by
  intro ω diskRead log hnotes w
  let bare : FatDev := ⟨dev.abar, dev.port, dev.lba, dev.sectors, 0, 0, 0, 0, 0⟩
  have hlow : ¬ bare.Leaks 0 1 := (leaks_one bare (by decide)).not.mpr (by decide)
  have hbare : bare.lba.toNat + bare.sectors.toNat ≤ 2 ^ 32 := hspan
  have hread := fatReadSectors_inside hnotes hbare (by decide) hlow
    (fun rq (hrq : rq ∈ log w) => .inl hrq)
  unfold fatDevInit
  generalize hres : fatReadSectors diskRead bare 0 1 w = r at hread
  obtain ⟨code, bytes, w'⟩ := r
  dsimp only at hread ⊢
  rw [hres]
  dsimp only
  split
  · exact hread
  · exact hread

/-- **The reads of `fat_dev_init` and `fat_read` stay in the partition** exactly
for the paths on whose way no request leaks. -/
theorem disk_reads_inside (dev : FatDev) (image : DiskImage) (path : Option (List UInt8))
    (hspan : dev.lba.toNat + dev.sectors.toNat ≤ 2 ^ 32) :
    InitInside dev ∧ StaysInside dev image path ↔
      ∀ place, Comes dev image path place → place.Tight dev image := by
  constructor
  · rintro ⟨-, h⟩ place hcomes
    by_cases hblocked : place = .blocked
    · rw [hblocked]
      trivial
    · exact h.tight hspan (h.reached hspan hcomes hblocked)
  · intro htight
    refine ⟨fatDevInit_inside hspan, fun ω diskRead log hhonest hnotes st dest hsound =>
      ⟨fun n r hrun => ?_, fun phase phase' harrive hrun => ?_⟩⟩
    · exact fatRead_inside hhonest hnotes hspan htight hsound hrun
    · exact (rounds_inside hhonest hnotes hspan htight hsound harrive hrun).inside

end Leak

theorem disk_reads_inside_sample :
    sampleDev.lba.toNat + sampleDev.sectors.toNat ≤ 2 ^ 32 ∧ InitInside sampleDev ∧
      StaysInside sampleDev sampleImage (some ['a'.toUInt8]) := by
  refine ⟨by decide, (disk_reads_inside sampleDev sampleImage (some ['a'.toUInt8])
    (by decide)).mpr fun place hcomes => ?_⟩
  obtain rfl | rfl | rfl | rfl := sampleDev_comes hcomes
  · refine fun _ => ⟨fun s hs _ => ?_, fun _ => by decide⟩
    obtain rfl : s = 0 := Nat.lt_one_iff.mp hs
    decide
  · exact fun _ => ⟨fun hleaks => absurd hleaks.2 (by decide), fun _ => by decide⟩
  · exact fun _ => ⟨fun hleaks => absurd hleaks.2 (by decide), fun _ => by decide⟩
  · intro hin
    cases hin

/-- A partition of six sectors from sector 1 on whose boot sector claims a FAT of
`2 ^ 32 - 2` sectors: the data begins at sector `2 ^ 32 - 1`. -/
def leakImage : DiskImage := paddedImage fun
  | 1 => List.replicate 13 0 ++ [1, 1, 0, 1] ++ List.replicate 19 0 ++
      [0xFE, 0xFF, 0xFF, 0xFF, 0, 0, 0, 0, 2, 0, 0, 0]
  | _ => []

/-- The device `fat_dev_init` makes of it. -/
def leakDev : FatDev := ⟨0, 0, 1, 6, 1, 0xFFFFFFFE, 2, 0xFFFFFFFF, 1⟩

set_option maxRecDepth 4000 in
/-- The lookup of any name there reads the sector before the partition. -/
theorem disk_read_before_partition :
    (fatDevInit (faulty scripted leakImage) ⟨0, 0, 1, 6⟩ ([], [])).1 = .ok leakDev ∧
    leakDev.lba.toNat + leakDev.sectors.toNat ≤ 2 ^ 32 ∧
    (∃ dest st, fatRead (faulty scripted leakImage) leakDev 1 (some ['a'.toUInt8]) (fun _ => 0)
      (scriptState []) = some (-1, dest, st) ∧ st.world.2 = [⟨0, 0, 0, 1⟩]) ∧
    ¬ leakDev.Inside ⟨0, 0, 0, 1⟩ ∧
    ¬ (InitInside leakDev ∧ StaysInside leakDev leakImage (some ['a'.toUInt8])) := by
  have hrun : ∃ dest st, fatRead (faulty scripted leakImage) leakDev 1 (some ['a'.toUInt8])
      (fun _ => 0) (scriptState []) = some (-1, dest, st) ∧ st.world.2 = [⟨0, 0, 0, 1⟩] :=
    ⟨_, _, rfl, rfl⟩
  have hout : ¬ leakDev.Inside ⟨0, 0, 0, 1⟩ := by
    rintro ⟨-, -, hsectors⟩
    exact absurd (hsectors 0 Nat.one_pos).1 (by decide)
  refine ⟨by decide, by decide, hrun, hout, ?_⟩
  rintro ⟨-, h⟩
  obtain ⟨dest, st, hread, hlog⟩ := hrun
  obtain ⟨hends, -⟩ := h _ (faulty scripted leakImage) Prod.snd (faulty_honest _ _)
    (faulty_notes scripted_notes _) (scriptState []) (fun _ => 0) (.empty rfl _ _)
  have hmem : ⟨0, 0, 0, 1⟩ ∈ st.world.2 := by
    rw [hlog]
    exact List.mem_singleton_self _
  obtain hold | hinside := hends 1 _ hread _ hmem
  · cases hold
  · exact hout hinside

end DevOS.Boot
