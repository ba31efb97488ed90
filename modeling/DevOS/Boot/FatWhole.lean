import DevOS.Boot.FatCache
import DevOS.Boot.FatPath
import Mathlib.Data.Nat.Find

/-!
# FAT32 — what a return code of 0 says

The loop of `fat_read` ends with code 0 at every value outside of the clusters:
at an end-of-chain value, but also at a free entry or at the reserved one; and
the bad-cluster value is in its range, so it is followed as a cluster. A chain
that is broken so gives an error only where a read on the way is outside of the
partition.
-/

namespace DevOS.Boot

open DevOS.Lib

/-- The chain comes to an end-of-chain value over good clusters. -/
def WholeChain (next : Nat → Nat) (c : Nat) : Prop :=
  ∃ k, 0x0FFFFFF8 ≤ next^[k] c ∧ ∀ j, j < k → 2 ≤ next^[j] c ∧ next^[j] c < 0x0FFFFFF7

/-- The chain comes to a free, reserved or bad entry over good clusters. -/
def BrokenChain (next : Nat → Nat) (c : Nat) : Prop :=
  ∃ k, (next^[k] c = 0 ∨ next^[k] c = 1 ∨ next^[k] c = 0x0FFFFFF7) ∧
    ∀ j, j < k → 2 ≤ next^[j] c ∧ next^[j] c < 0x0FFFFFF7

/-- The reads for the cluster, of its data and of its FAT sector, pass the check
of `fat_read_sectors`. -/
structure FatDev.Readable (dev : FatDev) (c : Nat) : Prop where
  data : u32 (clusterLba dev c + dev.sectorsPerCluster.toNat) ≤ dev.sectors.toNat
  fat : u32 (u32 (dev.fat.toNat + c / 128) + 1) ≤ dev.sectors.toNat

/-- Following the chain, the reader comes to a cluster that it cannot read. -/
def FatDev.Stopped (dev : FatDev) (next : Nat → Nat) (c : Nat) : Prop :=
  ∃ k, (∀ j, j ≤ k → inChain (next^[j] c) = true) ∧ ¬ dev.Readable (next^[k] c)

/-- The cache is coherent, and what it holds of the device is a sector that the
device reads. -/
structure FatCache.Sound (cache : FatCache) (dev : FatDev) (image : DiskImage) : Prop where
  coherent : cache.Coherent image
  read : ∀ sectorNo, fatCacheIsStale cache dev sectorNo = false →
    u32 (u32 (dev.fat.toNat + sectorNo) + 1) ≤ dev.sectors.toNat

/-- An empty cache is sound. -/
theorem FatCache.Sound.empty {cache : FatCache} (h : cache.valid = false) (dev : FatDev)
    (image : DiskImage) : cache.Sound dev image := by
  refine ⟨fun hvalid => ?_, fun sectorNo hfresh => ?_⟩
  · rw [h] at hvalid
    cases hvalid
  · have hvalid := (fresh_iff.mp hfresh).1
    rw [h] at hvalid
    cases hvalid

section Whole

variable {ω : Type} {diskRead : DiskRead ω} {image : DiskImage} {dev : FatDev}

/-! ## One round -/

/-- **`fat_get_next_cluster`** that succeeds has a FAT sector the device reads,
and keeps a sound cache. -/
theorem fatGetNextCluster_sound (hhonest : Honest diskRead image) {c next : Nat}
    {st st' : FatState ω} (hsound : st.cache.Sound dev image)
    (h : fatGetNextCluster diskRead dev c st = (.ok next, st')) :
    next = dev.link image c ∧ u32 (u32 (dev.fat.toNat + c / 128) + 1) ≤ dev.sectors.toNat ∧
      st'.cache.Sound dev image := by
  obtain ⟨hnext, hco⟩ := fatGetNextCluster_ok hhonest hsound.coherent h
  refine ⟨hnext, ?_⟩
  unfold fatGetNextCluster at h
  dsimp only at h
  split at h
  · generalize hfetch : fatCacheFetch diskRead dev (c / 128) st = r at h
    obtain ⟨code, st₁⟩ := r
    dsimp only at h
    split at h
    · cases h
    · rename_i hcode
      rw [not_not.mp hcode] at hfetch
      obtain ⟨hpassed, hno⟩ := fatCacheFetch_passed hfetch
      cases h
      refine ⟨hpassed, hco, fun sectorNo hfresh => ?_⟩
      obtain ⟨-, -, -, -, -, -, hno'⟩ := fresh_iff.mp hfresh
      rw [← hno', hno]
      exact hpassed
  · rename_i hfresh
    cases h
    exact ⟨hsound.read _ (Bool.eq_false_iff.mpr hfresh), hsound⟩

theorem sound_kept (hhonest : Honest diskRead image) :
    KeptByNext diskRead dev fun cache => cache.Sound dev image :=
  fun _ _ _ _ hsound h => (fatGetNextCluster_sound hhonest hsound h).2.2

/-- **A round of the file's loop** in a cluster fails, or has read the cluster
and goes on with its link. -/
theorem fatReadBody_cases (hhonest : Honest diskRead image) {s : ReadState ω}
    (hin : inChain s.cluster = true) (hsound : s.st.cache.Sound dev image) :
    (∃ code dest st', code ≠ 0 ∧ fatReadBody diskRead dev s = .inr (code, dest, st')) ∨
    dev.Readable s.cluster ∧ ∃ s', fatReadBody diskRead dev s = .inl s' ∧
      s'.cluster = dev.link image s.cluster ∧ s'.st.cache.Sound dev image := by
  unfold fatReadBody
  rw [if_pos hin]
  generalize hread : fatReadSectors diskRead dev (clusterLba dev s.cluster)
    dev.sectorsPerCluster.toNat s.st.world = r
  obtain ⟨code, bytes, w⟩ := r
  dsimp only
  by_cases hcode : code = 0
  · rw [if_neg (fun hne => hne hcode)]
    rw [hcode] at hread
    have hdata := fatReadSectors_passed hread
    have hsound' : ({ s.st with world := w } : FatState ω).cache.Sound dev image := hsound
    cases hnext : fatGetNextCluster diskRead dev s.cluster { s.st with world := w } with
    | mk result st₁ =>
        cases result with
        | error code₁ =>
            obtain ⟨-, hne, -⟩ := fatGetNextCluster_error hnext
            exact .inl ⟨code₁, _, st₁, hne, rfl⟩
        | ok next =>
            obtain ⟨hlink, hfat, hsound₁⟩ := fatGetNextCluster_sound hhonest hsound' hnext
            exact .inr ⟨⟨hdata, hfat⟩, _, rfl, hlink, hsound₁⟩
  · rw [if_pos hcode]
    exact .inl ⟨code, _, _, hcode, rfl⟩

theorem fatReadBody_out (diskRead : DiskRead ω) (dev : FatDev) {s : ReadState ω}
    (hout : inChain s.cluster = false) :
    fatReadBody diskRead dev s = .inr (0, s.dest, s.st) := by
  unfold fatReadBody
  rw [if_neg (Bool.eq_false_iff.mp hout)]

/-- A disk that serves every request has the next cluster, where the FAT sector
passes the check. -/
theorem fatGetNextCluster_served {c : Nat}
    (hfat : u32 (u32 (dev.fat.toNat + c / 128) + 1) ≤ dev.sectors.toNat) (st : FatState Unit) :
    ∃ next st', fatGetNextCluster (imageRead image) dev c st = (.ok next, st') := by
  cases hrun : fatGetNextCluster (imageRead image) dev c st with
  | mk result st₁ =>
      cases result with
      | ok next => exact ⟨next, st₁, rfl⟩
      | error code =>
          obtain ⟨-, hcode, hfetch⟩ := fatGetNextCluster_error hrun
          unfold fatCacheFetch at hfetch
          rw [fatReadSectors_accepted hfat] at hfetch
          exact absurd (Prod.mk.inj hfetch).1.symm hcode

/-- Such a disk reads a readable cluster. -/
theorem fatReadBody_readable {s : ReadState Unit} (hin : inChain s.cluster = true)
    (hreadable : dev.Readable s.cluster) :
    ∃ s', fatReadBody (imageRead image) dev s = .inl s' := by
  unfold fatReadBody
  rw [if_pos hin, fatReadSectors_accepted hreadable.data]
  generalize hread : imageRead image s.st.world _ = r
  obtain ⟨code, bytes, w⟩ := r
  have hcode : code = 0 := (Prod.mk.inj hread).1.symm
  obtain ⟨next, st', hrun⟩ := fatGetNextCluster_served hreadable.fat { s.st with world := w }
  dsimp only
  rw [if_neg (fun hne => hne hcode), hrun]
  exact ⟨_, rfl⟩

/-! ## The loop -/

/-- Values met before an end, and which of them is the first to break the
chain. -/
theorem whole_or_broken {next : Nat → Nat} {c k : Nat}
    (hin : ∀ j, j < k → inChain (next^[j] c) = true) (hout : inChain (next^[k] c) = false) :
    WholeChain next c ∨ BrokenChain next c := by
  by_cases hbad : ∃ j, j < k ∧ next^[j] c = 0x0FFFFFF7
  · right
    -- the first bad cluster
    obtain ⟨hlt, heq⟩ := Nat.find_spec hbad
    refine ⟨Nat.find hbad, .inr (.inr heq), fun j hj => ?_⟩
    have hne : next^[j] c ≠ 0x0FFFFFF7 := fun h => Nat.find_min hbad hj ⟨by omega, h⟩
    have hj' := inChain_iff.mp (hin j (by omega))
    omega
  · have hgood : ∀ j, j < k → 2 ≤ next^[j] c ∧ next^[j] c < 0x0FFFFFF7 := by
      intro j hj
      have hne : next^[j] c ≠ 0x0FFFFFF7 := fun h => hbad ⟨j, hj, h⟩
      have hj' := inChain_iff.mp (hin j hj)
      omega
    obtain hlow | hend := inChain_eq_false.mp hout
    · exact .inr ⟨k, by omega, hgood⟩
    · exact .inl ⟨k, hend, hgood⟩

/-- A loop that returns 0 has followed the chain out of the clusters. -/
theorem fatRead_loop_zero (hhonest : Honest diskRead image) : ∀ (n : Nat) {s : ReadState ω}
    {dest' : Nat → UInt8} {st' : FatState ω}, s.st.cache.Sound dev image →
    iterate (fatReadBody diskRead dev) n s = some (0, dest', st') →
    ∃ k, (∀ j, j < k → inChain ((dev.link image)^[j] s.cluster) = true) ∧
      inChain ((dev.link image)^[k] s.cluster) = false := by
  intro n
  induction n with
  | zero => intro s dest' st' _ h; cases h
  | succ n ih =>
      intro s dest' st' hsound h
      cases hin : inChain s.cluster with
      | false => exact ⟨0, fun j hj => absurd hj (Nat.not_lt_zero _), hin⟩
      | true =>
          obtain ⟨code, dest₁, st₁, hcode, hbody⟩ | ⟨-, s', hbody, hlink, hsound'⟩ :=
            fatReadBody_cases hhonest hin hsound
          · rw [iterate_done hbody] at h
            exact absurd (congrArg Prod.fst (Option.some.inj h)) hcode
          · rw [iterate_next hbody] at h
            obtain ⟨k, hbefore, hend⟩ := ih hsound' h
            rw [hlink] at hbefore hend
            refine ⟨k + 1, fun j hj => ?_, hend⟩
            cases j with
            | zero => exact hin
            | succ j => exact hbefore j (by omega)

/-- A loop on a chain with a cluster that it cannot read returns an error. -/
theorem fatRead_loop_stopped (hhonest : Honest diskRead image) : ∀ (k : Nat) {s : ReadState ω},
    s.st.cache.Sound dev image →
    (∀ j, j ≤ k → inChain ((dev.link image)^[j] s.cluster) = true) →
    ¬ dev.Readable ((dev.link image)^[k] s.cluster) →
    ∃ code dest' st', code ≠ 0 ∧
      iterate (fatReadBody diskRead dev) (k + 1) s = some (code, dest', st') := by
  intro k
  induction k with
  | zero =>
      intro s hsound hin hstop
      obtain ⟨code, dest', st', hcode, hbody⟩ | ⟨hreadable, -⟩ :=
        fatReadBody_cases hhonest (hin 0 (Nat.le_refl _)) hsound
      · exact ⟨code, dest', st', hcode, iterate_done hbody 0⟩
      · exact absurd hreadable hstop
  | succ k ih =>
      intro s hsound hin hstop
      obtain ⟨code, dest', st', hcode, hbody⟩ | ⟨-, s', hbody, hlink, hsound'⟩ :=
        fatReadBody_cases hhonest (hin 0 (Nat.zero_le _)) hsound
      · exact ⟨code, dest', st', hcode, iterate_done hbody _⟩
      · rw [Function.iterate_succ_apply, ← hlink] at hstop
        obtain ⟨code, dest', st', hcode, hloop⟩ := ih hsound'
          (fun j hj => by rw [hlink]; exact hin (j + 1) (by omega)) hstop
        exact ⟨code, dest', st', hcode, by rw [iterate_next hbody, hloop]⟩

/-- On a disk that serves every request, a loop on a chain that it can read
returns nothing but 0. -/
theorem fatRead_loop_served {c : Nat} (hgoes : ¬ dev.Stopped (dev.link image) c) {n : Nat}
    {s : ReadState Unit} (hc : s.cluster = c) (hsound : s.st.cache.Sound dev image)
    {r : Int × (Nat → UInt8) × FatState Unit}
    (h : iterate (fatReadBody (imageRead image) dev) n s = some r) : r.1 = 0 := by
  refine iterate_invariant (I := fun s => s.st.cache.Sound dev image ∧
    ∃ k, s.cluster = (dev.link image)^[k] c ∧
      ∀ j, j < k → inChain ((dev.link image)^[j] c) = true)
    (Q := fun r => r.1 = 0) ?_ ?_ ⟨hsound, 0, hc, fun j hj => absurd hj (Nat.not_lt_zero _)⟩ h
  · rintro s s' ⟨hs, k, hk, hbefore⟩ hb
    cases hin : inChain s.cluster with
    | false =>
        rw [fatReadBody_out _ _ hin] at hb
        cases hb
    | true =>
        obtain ⟨code, dest', st', -, hbody⟩ | ⟨-, s₁, hbody, hlink, hsound'⟩ :=
          fatReadBody_cases (imageRead_honest image) hin hs
        · rw [hbody] at hb
          cases hb
        · rw [hbody] at hb
          obtain rfl := Sum.inl.inj hb
          refine ⟨hsound', k + 1, ?_, fun j hj => ?_⟩
          · rw [hlink, Function.iterate_succ_apply', ← hk]
          · obtain hj | rfl := Nat.lt_succ_iff_lt_or_eq.mp hj
            · exact hbefore j hj
            · rw [← hk]
              exact hin
  · rintro s r ⟨-, k, hk, hbefore⟩ hb
    cases hin : inChain s.cluster with
    | false =>
        rw [fatReadBody_out _ _ hin] at hb
        obtain rfl := Sum.inr.inj hb
        rfl
    | true =>
        have hreadable : dev.Readable s.cluster := by
          by_contra hno
          refine hgoes ⟨k, fun j hj => ?_, by rw [← hk]; exact hno⟩
          obtain hj | rfl := Nat.lt_or_eq_of_le hj
          · exact hbefore j hj
          · rw [← hk]
            exact hin
        obtain ⟨s', hbody⟩ := fatReadBody_readable hin hreadable
        rw [hbody] at hb
        cases hb

end Whole

/-! ## The return code -/

/-- The reader's state before its first call: nothing in the cache. -/
def freshState : FatState Unit := ⟨(), ⟨false, 0, 0, 0, 0, 0, 0, fun _ => 0⟩, fun _ => 0⟩

/-- On the disk the path leads to the entry. -/
def ResolvesTo (image : DiskImage) (dev : FatDev) (path : Option (List UInt8))
    (file : FatDirEntry) : Prop :=
  ∃ fuel st₁, fatPathLookup (imageRead image) dev fuel (rootEntry dev) path freshState =
    some (.ok file, st₁)

/-- What code 0 promises of a run that resolves the path to the entry: the chain
is whole; and a broken chain gives an error. -/
def CodeTellsChain {ω : Type} (diskRead : DiskRead ω) (image : DiskImage) (dev : FatDev)
    (path : Option (List UInt8)) (file : FatDirEntry) (st : FatState ω) : Prop :=
  ∀ dest,
    (∀ n dest' st', fatRead diskRead dev n path dest st = some (0, dest', st') →
      WholeChain (dev.link image) file.cluster) ∧
    (BrokenChain (dev.link image) file.cluster → ∃ rounds code dest' st', code ≠ 0 ∧
      ∀ n, rounds ≤ n → fatRead diskRead dev n path dest st = some (code, dest', st'))

/-- **Code 0 tells a whole chain**, on every honest disk and from every sound
cache, exactly of these files: if the chain is broken, then the reader comes,
following it, to a cluster outside of what it can read. -/
theorem success_means_whole_chain (image : DiskImage) (dev : FatDev)
    (path : Option (List UInt8)) (file : FatDirEntry) (hfile : ResolvesTo image dev path file)
    (_hcluster : file.cluster ≠ 0) :
    (∀ (ω : Type) (diskRead : DiskRead ω) (fuel : Nat) (st st₁ : FatState ω),
      Honest diskRead image → st.cache.Sound dev image →
      fatPathLookup diskRead dev fuel (rootEntry dev) path st = some (.ok file, st₁) →
      CodeTellsChain diskRead image dev path file st) ↔
    (BrokenChain (dev.link image) file.cluster → dev.Stopped (dev.link image) file.cluster) := by
  constructor
  · intro h hbroken
    by_contra hgoes
    obtain ⟨fuel, st₁, hlookup⟩ := hfile
    have hsound : freshState.cache.Sound dev image := .empty rfl dev image
    have hsound₁ := pathLoop_keeps (sound_kept (imageRead_honest image)) _ hsound hlookup
    obtain ⟨rounds, code, dest', st', hcode, hread⟩ := (h Unit (imageRead image) fuel freshState
      st₁ (imageRead_honest image) hsound hlookup fun _ => 0).2 hbroken
    have hrun := hread (max rounds fuel) (Nat.le_max_left _ _)
    rw [fatRead_resolved hlookup (Nat.le_max_right _ _)] at hrun
    exact hcode (fatRead_loop_served hgoes rfl hsound₁ hrun)
  · intro hstops ω diskRead fuel st st₁ hhonest hsound hlookup dest
    have hsound₁ := pathLoop_keeps (sound_kept hhonest) _ hsound hlookup
    have herror : BrokenChain (dev.link image) file.cluster → ∃ rounds code dest' st', code ≠ 0 ∧
        ∀ n, rounds ≤ n → fatRead diskRead dev n path dest st = some (code, dest', st') := by
      intro hbroken
      obtain ⟨k, hin, hstop⟩ := hstops hbroken
      obtain ⟨code, dest', st', hcode, hloop⟩ := fatRead_loop_stopped hhonest k
        (s := ⟨file.cluster, 0, dest, st₁⟩) hsound₁ hin hstop
      refine ⟨max fuel (k + 1), code, dest', st', hcode, fun n hn => ?_⟩
      rw [fatRead_resolved hlookup (by omega)]
      exact iterate_mono hloop (by omega)
    refine ⟨fun n dest' st' hzero => ?_, herror⟩
    have hzero' := fatRead_mono hzero (Nat.le_max_left n fuel)
    have hloop := hzero'
    rw [fatRead_resolved hlookup (Nat.le_max_right _ _)] at hloop
    obtain ⟨k, hbefore, hend⟩ := fatRead_loop_zero hhonest _ hsound₁ hloop
    obtain hwhole | hbroken := whole_or_broken hbefore hend
    · exact hwhole
    · obtain ⟨rounds, code, dest₁, st₂, hcode, hread⟩ := herror hbroken
      have h1 := hread (max rounds n) (Nat.le_max_left _ _)
      have h2 := fatRead_mono hzero (Nat.le_max_right rounds n)
      rw [h1] at h2
      exact absurd (congrArg Prod.fst (Option.some.inj h2)) hcode

set_option maxRecDepth 4000 in
theorem success_means_whole_chain_sample :
    CodeTellsChain (imageRead sampleImage) sampleImage sampleDev (some ['a'.toUInt8])
      ⟨sampleName, 0x20, 0, 5⟩ freshState := by
  have hlookup : ∃ st₁, fatPathLookup (imageRead sampleImage) sampleDev 1 (rootEntry sampleDev)
      (some ['a'.toUInt8]) freshState = some (.ok ⟨sampleName, 0x20, 0, 5⟩, st₁) := ⟨_, rfl⟩
  have hlink3 : sampleDev.link sampleImage 3 = 0x0FFFFFF8 := by decide
  have hlink5 : sampleDev.link sampleImage 5 = 3 := by decide
  obtain ⟨st₁, hlookup⟩ := hlookup
  refine (success_means_whole_chain sampleImage sampleDev (some ['a'.toUInt8])
    ⟨sampleName, 0x20, 0, 5⟩ ⟨1, st₁, hlookup⟩ (by decide)).mpr (fun hbroken => ?_) Unit
    (imageRead sampleImage) 1 freshState st₁ (imageRead_honest _) (.empty rfl _ _) hlookup
  rw [show (FatDirEntry.mk sampleName 0x20 0 5).cluster = 5 by decide] at hbroken
  have htwo : (sampleDev.link sampleImage)^[2] 5 = 0x0FFFFFF8 := by
    rw [Function.iterate_succ_apply, Function.iterate_one, hlink5, hlink3]
  obtain ⟨k, hk, hbefore⟩ := hbroken
  match k with
  | 0 => exact absurd hk (by decide)
  | 1 =>
      rw [Function.iterate_one, hlink5] at hk
      exact absurd hk (by decide)
  | 2 =>
      rw [htwo] at hk
      exact absurd hk (by decide)
  | k + 3 =>
      have := (hbefore 2 (by omega)).2
      rw [htwo] at this
      exact absurd this (by decide)

/-- `sampleImage` with a free FAT entry for the file's first cluster. -/
def brokenImage : DiskImage := paddedImage fun
  | 1 => [0xF8, 0xFF, 0xFF, 0x0F, 0xFF, 0xFF, 0xFF, 0x0F, 0xF8, 0xFF, 0xFF, 0x0F]
  | lba => sampleSector lba

set_option maxRecDepth 4000 in
/-- The file's first cluster is free in the FAT, and `fat_read` returns 0. -/
theorem success_on_broken_chain :
    ResolvesTo brokenImage sampleDev (some ['a'.toUInt8]) ⟨sampleName, 0x20, 0, 5⟩ ∧
    (FatDirEntry.mk sampleName 0x20 0 5).cluster = 5 ∧ sampleDev.link brokenImage 5 = 0 ∧
    (∃ dest' st', fatRead (imageRead brokenImage) sampleDev 2 (some ['a'.toUInt8]) (fun _ => 0)
      freshState = some (0, dest', st')) ∧
    ¬ WholeChain (sampleDev.link brokenImage) 5 := by
  have hlink : sampleDev.link brokenImage 5 = 0 := by decide
  refine ⟨⟨1, _, rfl⟩, by decide, hlink, ⟨_, _, rfl⟩, ?_⟩
  rintro ⟨k, hk, hbefore⟩
  match k with
  | 0 => exact absurd hk (by decide)
  | 1 =>
      rw [Function.iterate_one, hlink] at hk
      exact absurd hk (by decide)
  | k + 2 =>
      have := (hbefore 1 (by omega)).1
      rw [Function.iterate_one, hlink] at this
      exact absurd this (by decide)

end DevOS.Boot
