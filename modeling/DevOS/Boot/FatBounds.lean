import DevOS.Boot.FatWay

/-!
# FAT32 — reads inside the partition

`fat_read_sectors` checks `lba + count` against the size of the partition, but
the sum is taken modulo `2 ^ 32`. A request whose sum wraps passes the check and
is for sectors outside of the partition; every other request that passes it is
inside. So `fat_read` stays inside on the ways that come to no cluster whose
sectors wrap so: of the requests for one sector, those for sector `2 ^ 32 - 1`.
-/

namespace DevOS.Boot

open DevOS.Lib

/-! ## Requests -/

/-- The request is for sectors of the partition only. -/
def FatDev.Inside (dev : FatDev) (rq : DiskRequest) : Prop :=
  rq.abar = dev.abar ∧ rq.port = dev.port ∧ ∀ k, k < rq.count →
    dev.lba.toNat ≤ rq.lba + k ∧ rq.lba + k < dev.lba.toNat + dev.sectors.toNat

/-- The request passes the check because its sum wraps. -/
def FatDev.Leaks (dev : FatDev) (lba count : Nat) : Prop :=
  u32 (lba + count) ≤ dev.sectors.toNat ∧ 2 ^ 32 ≤ lba + count

/-- **The check** lets a request through that is inside, or one that leaks. -/
theorem inside_iff {dev : FatDev} (hspan : dev.lba.toNat + dev.sectors.toNat ≤ 2 ^ 32)
    {lba count : Nat} (hlba : lba < 2 ^ 32)
    (hpass : u32 (lba + count) ≤ dev.sectors.toNat) :
    dev.Inside (dev.request lba count) ↔ ¬ dev.Leaks lba count := by
  have hlt := dev.sectors.toNat_lt
  constructor
  · rintro ⟨-, -, hsectors⟩ ⟨-, hwrap⟩
    have hcount : 0 < count := by omega
    have hfirst := hsectors 0 hcount
    have hlast := hsectors (count - 1) (Nat.sub_lt hcount Nat.one_pos)
    simp only [FatDev.request, u32] at hfirst hlast
    by_cases hbase : dev.lba.toNat + lba < 2 ^ 32
    · rw [Nat.mod_eq_of_lt hbase] at hlast
      omega
    · rw [Nat.mod_eq_sub_mod (Nat.le_of_not_lt hbase), Nat.mod_eq_of_lt (by omega)] at hfirst
      omega
  · intro hno
    refine ⟨rfl, rfl, fun k hk => ?_⟩
    have hk' : k < count := hk
    have hfit : lba + count < 2 ^ 32 := by
      by_contra hwrap
      exact hno ⟨hpass, Nat.le_of_not_lt hwrap⟩
    rw [u32_of_lt hfit] at hpass
    have hbase : (dev.request lba count).lba = dev.lba.toNat + lba := u32_of_lt (by omega)
    rw [hbase]
    omega

/-- Of one sector, only the request for the last number there is leaks. -/
theorem leaks_one (dev : FatDev) {lba : Nat} (hlba : lba < 2 ^ 32) :
    dev.Leaks lba 1 ↔ lba = 2 ^ 32 - 1 := by
  constructor
  · rintro ⟨-, hwrap⟩
    omega
  · rintro rfl
    exact ⟨Nat.zero_le _, Nat.le_refl _⟩

/-- A disk whose world notes the requests. -/
def Notes {ω : Type} (diskRead : DiskRead ω) (log : ω → List DiskRequest) : Prop :=
  ∀ w rq, log (diskRead w rq).2.2 = log w ++ [rq]

theorem faulty_notes {ω : Type} {faults : DiskRead ω} {log : ω → List DiskRequest}
    (h : Notes faults log) (image : DiskImage) : Notes (faulty faults image) log := h

theorem scripted_notes : Notes scripted Prod.snd := fun _ _ => rfl

/-- Each request is an old one or inside. -/
def AllInside (dev : FatDev) (before after : List DiskRequest) : Prop :=
  ∀ rq ∈ after, rq ∈ before ∨ dev.Inside rq

/-! ## Places -/

/-- No request of `fat_read` at the place leaks. A sector of a directory is read
when the ones before it have come to nothing; a sector of the FAT, when the whole
cluster has been read. -/
def Place.Tight (dev : FatDev) (image : DiskImage) : Place → Prop
  | .looking rest c => inChain c = true →
      (∀ s, s < dev.sectorsPerCluster.toNat →
        (scanSectors (imageRead image) dev (nameExtOf rest) (clusterLba dev c) s 0 freshState).1 =
          .next → u32 (clusterLba dev c + s) ≠ 2 ^ 32 - 1) ∧
      (dev.scanCluster image (nameExtOf rest) c = .next →
        u32 (dev.fat.toNat + c / 128) ≠ 2 ^ 32 - 1)
  | .reading c => inChain c = true →
      ¬ dev.Leaks (clusterLba dev c) dev.sectorsPerCluster.toNat ∧
      (u32 (clusterLba dev c + dev.sectorsPerCluster.toNat) ≤ dev.sectors.toNat →
        u32 (dev.fat.toNat + c / 128) ≠ 2 ^ 32 - 1)
  | .blocked => True

section Inside

variable {ω : Type} {diskRead : DiskRead ω} {log : ω → List DiskRequest} {image : DiskImage}
  {dev : FatDev}

theorem u32_lt (x : Nat) : u32 x < 2 ^ 32 := Nat.mod_lt _ (by decide)

/-- **A read** that does not leak keeps the requests inside. -/
theorem fatReadSectors_inside (hnotes : Notes diskRead log)
    (hspan : dev.lba.toNat + dev.sectors.toNat ≤ 2 ^ 32) {lba count : Nat} (hlba : lba < 2 ^ 32)
    (hno : ¬ dev.Leaks lba count) {before : List DiskRequest} {w : ω}
    (h : AllInside dev before (log w)) :
    AllInside dev before (log (fatReadSectors diskRead dev lba count w).2.2) := by
  by_cases hpass : u32 (lba + count) ≤ dev.sectors.toNat
  · rw [fatReadSectors_accepted hpass, hnotes]
    intro rq hrq
    obtain hrq | hrq := List.mem_append.mp hrq
    · exact h rq hrq
    · obtain rfl := List.mem_singleton.mp hrq
      exact .inr ((inside_iff hspan hlba hpass).mpr hno)
  · rw [fatReadSectors_rejected (Nat.lt_of_not_le hpass)]
    exact h

theorem scanSector_inside (hnotes : Notes diskRead log)
    (hspan : dev.lba.toNat + dev.sectors.toNat ≤ 2 ^ 32) {lba : Nat} (hlba : lba < 2 ^ 32)
    (hno : lba ≠ 2 ^ 32 - 1) {before : List DiskRequest} {st : FatState ω}
    (target : List UInt8) (h : AllInside dev before (log st.world)) :
    AllInside dev before (log (scanSector diskRead dev target lba st).2.world) := by
  have hread := fatReadSectors_inside hnotes hspan hlba ((leaks_one dev hlba).not.mpr hno) h
  unfold scanSector
  generalize fatReadSectors diskRead dev lba 1 st.world = r at hread
  obtain ⟨code, bytes, w⟩ := r
  dsimp only at hread ⊢
  split
  · exact hread
  · exact hread

/-- The sectors of a cluster. -/
theorem scanSectors_inside (hhonest : Honest diskRead image) (hnotes : Notes diskRead log)
    (hspan : dev.lba.toNat + dev.sectors.toNat ≤ 2 ^ 32) {before : List DiskRequest}
    {target : List UInt8} {lba : Nat} : ∀ (count s : Nat) {st : FatState ω} (st₀ : FatState Unit),
    (∀ k, k < count → (scanSectors (imageRead image) dev target lba k s st₀).1 = .next →
      u32 (lba + (s + k)) ≠ 2 ^ 32 - 1) →
    AllInside dev before (log st.world) →
    AllInside dev before (log (scanSectors diskRead dev target lba count s st).2.world) := by
  intro count
  induction count with
  | zero => intro s st st₀ _ h; exact h
  | succ count ih =>
      intro s st st₀ hno h
      have hone := scanSector_inside hnotes hspan (u32_lt (lba + s)) (hno 0 (Nat.succ_pos _) rfl)
        target h
      rw [scanSectors]
      cases hscan : scanSector diskRead dev target (u32 (lba + s)) st with
      | mk r st₁ =>
          rw [hscan] at hone
          cases r with
          | stop code => exact hone
          | found e => exact hone
          | next =>
              have himage := scanSector_honest hhonest hscan (fun _ => Scan.noConfusion) st₀
              -- the image's own scan has come as far
              refine ih (s + 1) (scanSector (imageRead image) dev target (u32 (lba + s)) st₀).2
                (fun k hk hnext => ?_) hone
              have hmore := hno (k + 1) (by omega) (by
                rw [scanSectors]
                generalize scanSector (imageRead image) dev target (u32 (lba + s)) st₀ = res
                  at himage hnext
                obtain ⟨r₁, st₂⟩ := res
                obtain rfl : r₁ = .next := himage
                exact hnext)
              rw [show s + 1 + k = s + (k + 1) by omega]
              exact hmore

theorem fatGetNextCluster_inside (hnotes : Notes diskRead log)
    (hspan : dev.lba.toNat + dev.sectors.toNat ≤ 2 ^ 32) {before : List DiskRequest} {c : Nat}
    (hno : u32 (dev.fat.toNat + c / 128) ≠ 2 ^ 32 - 1) {st : FatState ω}
    (h : AllInside dev before (log st.world)) :
    AllInside dev before (log (fatGetNextCluster diskRead dev c st).2.world) := by
  have hlba : u32 (dev.fat.toNat + c / 128) < 2 ^ 32 := u32_lt _
  have hread := fatReadSectors_inside hnotes hspan hlba ((leaks_one dev hlba).not.mpr hno) h
  have hfetch : AllInside dev before (log (fatCacheFetch diskRead dev (c / 128) st).2.world) := by
    unfold fatCacheFetch
    generalize fatReadSectors diskRead dev (u32 (dev.fat.toNat + c / 128)) 1 st.world = r at hread
    obtain ⟨code, bytes, w⟩ := r
    dsimp only at hread ⊢
    split
    · exact hread
    · exact hread
  unfold fatGetNextCluster
  dsimp only
  split
  · generalize fatCacheFetch diskRead dev (c / 128) st = r at hfetch
    obtain ⟨code, st₁⟩ := r
    dsimp only at hfetch ⊢
    split
    · exact hfetch
    · exact hfetch
  · exact h

/-- **A round of a lookup** at a tight place. -/
theorem fileLookupBody_inside (hhonest : Honest diskRead image) (hnotes : Notes diskRead log)
    (hspan : dev.lba.toNat + dev.sectors.toNat ≤ 2 ^ 32) {before : List DiskRequest}
    {rest : List UInt8} {c : Nat} (htight : (Place.looking rest c).Tight dev image)
    {st : FatState ω} (h : AllInside dev before (log st.world)) :
    (∀ s', fileLookupBody diskRead dev (nameExtOf rest) (c, st) = .inl s' →
      AllInside dev before (log s'.2.world)) ∧
    ∀ r, fileLookupBody diskRead dev (nameExtOf rest) (c, st) = .inr r →
      AllInside dev before (log r.2.world) := by
  unfold fileLookupBody
  dsimp only
  cases hin : inChain c with
  | false =>
      refine ⟨fun s' hs => (by cases hs), fun r hr => ?_⟩
      obtain rfl := Sum.inr.inj hr
      exact h
  | true =>
      obtain ⟨hsectors, hfat⟩ := htight hin
      have hscan : AllInside dev before (log (scanSectors diskRead dev (nameExtOf rest)
          (clusterLba dev c) dev.sectorsPerCluster.toNat 0 st).2.world) := by
        refine scanSectors_inside hhonest hnotes hspan _ 0 freshState (fun k hk hnext => ?_) h
        rw [Nat.zero_add]
        exact hsectors k hk hnext
      rw [if_pos rfl]
      cases hres : scanSectors diskRead dev (nameExtOf rest) (clusterLba dev c)
          dev.sectorsPerCluster.toNat 0 st with
      | mk r st₁ =>
          rw [hres] at hscan
          cases r with
          | stop code =>
              refine ⟨fun s' hs => (by cases hs), fun r hr => ?_⟩
              obtain rfl := Sum.inr.inj hr
              exact hscan
          | found e =>
              refine ⟨fun s' hs => (by cases hs), fun r hr => ?_⟩
              obtain rfl := Sum.inr.inj hr
              exact hscan
          | next =>
              have himage : dev.scanCluster image (nameExtOf rest) c = .next :=
                scanSectors_honest hhonest _ _ hres (fun _ => Scan.noConfusion) freshState
              have hnext := fatGetNextCluster_inside hnotes hspan (hfat himage) hscan
              dsimp only at hnext ⊢
              cases hrun : fatGetNextCluster diskRead dev c st₁ with
              | mk result st₂ =>
                  rw [hrun] at hnext
                  cases result with
                  | error code =>
                      refine ⟨fun s' hs => (by cases hs), fun r hr => ?_⟩
                      obtain rfl := Sum.inr.inj hr
                      exact hnext
                  | ok next =>
                      refine ⟨fun s' hs => ?_, fun r hr => (by cases hr)⟩
                      obtain rfl := Sum.inl.inj hs
                      exact hnext

/-- **A round of the file's loop** at a tight place. -/
theorem fatReadBody_inside (hnotes : Notes diskRead log)
    (hspan : dev.lba.toNat + dev.sectors.toNat ≤ 2 ^ 32) {before : List DiskRequest}
    {s : ReadState ω} (htight : (Place.reading s.cluster).Tight dev image)
    (h : AllInside dev before (log s.st.world)) :
    (∀ s', fatReadBody diskRead dev s = .inl s' → AllInside dev before (log s'.st.world)) ∧
    ∀ r, fatReadBody diskRead dev s = .inr r → AllInside dev before (log r.2.2.world) := by
  cases hin : inChain s.cluster with
  | false =>
      rw [fatReadBody_out _ _ hin]
      refine ⟨fun s' hs => (by cases hs), fun r hr => ?_⟩
      obtain rfl := Sum.inr.inj hr
      exact h
  | true =>
      obtain ⟨hdata, hfat⟩ := htight hin
      have hlba : clusterLba dev s.cluster < 2 ^ 32 := u32_lt _
      have hread := fatReadSectors_inside hnotes hspan hlba hdata h
      unfold fatReadBody
      rw [if_pos hin]
      generalize hres : fatReadSectors diskRead dev (clusterLba dev s.cluster)
        dev.sectorsPerCluster.toNat s.st.world = res at hread
      obtain ⟨code, bytes, w⟩ := res
      dsimp only at hread ⊢
      by_cases hcode : code = 0
      · rw [hcode] at hres
        have hnext := fatGetNextCluster_inside hnotes hspan (hfat (fatReadSectors_passed hres))
          (show AllInside dev before (log ({ s.st with world := w } : FatState ω).world) from hread)
        rw [if_neg (fun hne => hne hcode)]
        cases hrun : fatGetNextCluster diskRead dev s.cluster { s.st with world := w } with
        | mk result st₂ =>
            rw [hrun] at hnext
            cases result with
            | error code =>
                refine ⟨fun s' hs => (by cases hs), fun r hr => ?_⟩
                obtain rfl := Sum.inr.inj hr
                exact hnext
            | ok next =>
                refine ⟨fun s' hs => ?_, fun r hr => (by cases hr)⟩
                obtain rfl := Sum.inl.inj hs
                exact hnext
      · rw [if_pos hcode]
        refine ⟨fun s' hs => (by cases hs), fun r hr => ?_⟩
        obtain rfl := Sum.inr.inj hr
        exact hread

/-! ## Runs -/

variable {path : Option (List UInt8)}

/-- A run on the way: the place, a sound cache, and requests that are inside. -/
structure OnWay (dev : FatDev) (image : DiskImage) (path : Option (List UInt8))
    (log : ω → List DiskRequest) (before : List DiskRequest) (place : Place) (st : FatState ω) :
    Prop where
  comes : Comes dev image path place
  sound : st.cache.Sound dev image
  inside : AllInside dev before (log st.world)

/-- A round of a lookup stays on the way. -/
theorem OnWay.look (hhonest : Honest diskRead image) (hnotes : Notes diskRead log)
    (hspan : dev.lba.toNat + dev.sectors.toNat ≤ 2 ^ 32)
    (htight : ∀ place, Comes dev image path place → place.Tight dev image)
    {before : List DiskRequest} {rest : List UInt8} {c : Nat} {st : FatState ω}
    (h : OnWay dev image path log before (.looking rest c) st) :
    (∀ c' st', fileLookupBody diskRead dev (nameExtOf rest) (c, st) = .inl (c', st') →
      OnWay dev image path log before (.looking rest c') st') ∧
    ∀ result st', fileLookupBody diskRead dev (nameExtOf rest) (c, st) = .inr (result, st') →
      AllInside dev before (log st'.world) ∧ ∀ e, result = .ok e →
        OnWay dev image path log before (enter ((strchr '/'.toUInt8 rest).map List.tail) e)
          st' := by
  have hround := fileLookupBody_inside hhonest hnotes hspan (htight _ h.comes) h.inside
  constructor
  · intro c' st' hb
    obtain ⟨hin, hscan, hfat, hlink, hsound⟩ := fileLookupBody_goes hhonest h.sound hb
    obtain rfl : c' = dev.link image c := hlink
    exact ⟨h.comes.look hin hscan hfat, hsound, hround.1 _ hb⟩
  · intro result st' hb
    refine ⟨hround.2 _ hb, fun e he => ?_⟩
    obtain rfl : result = .ok e := he
    obtain ⟨hin, hscan, hcache⟩ := fileLookupBody_finds hhonest hb
    refine ⟨h.comes.find hin hscan, ?_, hround.2 _ hb⟩
    rw [hcache]
    exact h.sound

/-- A round of the file's loop stays on the way. -/
theorem OnWay.read (hhonest : Honest diskRead image) (hnotes : Notes diskRead log)
    (hspan : dev.lba.toNat + dev.sectors.toNat ≤ 2 ^ 32)
    (htight : ∀ place, Comes dev image path place → place.Tight dev image)
    {before : List DiskRequest} {s : ReadState ω}
    (h : OnWay dev image path log before (.reading s.cluster) s.st) :
    (∀ s', fatReadBody diskRead dev s = .inl s' →
      OnWay dev image path log before (.reading s'.cluster) s'.st) ∧
    ∀ r, fatReadBody diskRead dev s = .inr r → AllInside dev before (log r.2.2.world) := by
  have hround := fatReadBody_inside hnotes hspan (htight _ h.comes) h.inside
  refine ⟨fun s' hb => ?_, hround.2⟩
  cases hin : inChain s.cluster with
  | false =>
      rw [fatReadBody_out _ _ hin] at hb
      cases hb
  | true =>
      obtain ⟨code, d, t, -, hbody⟩ | ⟨hreadable, s₁, hbody, hlink, hsound'⟩ :=
        fatReadBody_cases hhonest hin h.sound
      · rw [hbody] at hb
        cases hb
      · have hs' : s₁ = s' := Sum.inl.inj (hbody.symm.trans hb)
        rw [hs'] at hlink hsound'
        refine ⟨?_, hsound', hround.1 _ hb⟩
        rw [hlink]
        exact h.comes.read hin hreadable

/-- **A lookup** on a way of tight places. -/
theorem fileLookup_loop_inside (hhonest : Honest diskRead image) (hnotes : Notes diskRead log)
    (hspan : dev.lba.toNat + dev.sectors.toNat ≤ 2 ^ 32)
    (htight : ∀ place, Comes dev image path place → place.Tight dev image)
    {before : List DiskRequest} {rest : List UInt8} {c n : Nat} {st : FatState ω}
    (h : OnWay dev image path log before (.looking rest c) st)
    {r : Except Int FatDirEntry × FatState ω}
    (hrun : iterate (fileLookupBody diskRead dev (nameExtOf rest)) n (c, st) = some r) :
    AllInside dev before (log r.2.world) ∧ ∀ e, r.1 = .ok e →
      OnWay dev image path log before (enter ((strchr '/'.toUInt8 rest).map List.tail) e) r.2 := by
  refine iterate_invariant
    (I := fun s => OnWay dev image path log before (.looking rest s.1) s.2)
    (Q := fun r => AllInside dev before (log r.2.world) ∧ ∀ e, r.1 = .ok e →
      OnWay dev image path log before (enter ((strchr '/'.toUInt8 rest).map List.tail) e) r.2)
    ?_ ?_ h hrun
  · intro s s' hs hb
    exact (hs.look hhonest hnotes hspan htight).1 s'.1 s'.2 hb
  · intro s r hs hb
    exact (hs.look hhonest hnotes hspan htight).2 r.1 r.2 hb

/-- **A walk** on a way of tight places. -/
theorem pathLoop_inside (hhonest : Honest diskRead image) (hnotes : Notes diskRead log)
    (hspan : dev.lba.toNat + dev.sectors.toNat ≤ 2 ^ 32)
    (htight : ∀ place, Comes dev image path place → place.Tight dev image)
    {before : List DiskRequest} {n : Nat} : ∀ (rounds : Nat) {rest : Option (List UInt8)}
    {entry : FatDirEntry} {st : FatState ω} {r : Except Int FatDirEntry × FatState ω},
    (rest.map List.length).getD 0 < rounds →
    OnWay dev image path log before (enter rest entry) st →
    pathLoop diskRead dev n rounds rest entry st = some r →
    AllInside dev before (log r.2.world) ∧ ∀ e, r.1 = .ok e →
      OnWay dev image path log before (.reading e.cluster) r.2 := by
  intro rounds
  induction rounds with
  | zero => intro rest entry st r hlen; exact absurd hlen (Nat.not_lt_zero _)
  | succ rounds ih =>
      intro rest entry st r hlen h hrun
      -- the walk is at its end
      have hdone : r = (.ok entry, st) → enter rest entry = .reading entry.cluster →
          AllInside dev before (log r.2.world) ∧ ∀ e, r.1 = .ok e →
            OnWay dev image path log before (.reading e.cluster) r.2 := by
        rintro rfl henter
        refine ⟨h.inside, fun e he => ?_⟩
        obtain rfl := Except.ok.inj he
        rw [henter] at h
        exact h
      cases rest with
      | none => exact hdone (Option.some.inj hrun).symm rfl
      | some rest =>
          by_cases hend : rest.headD 0 = 0
          · have hwalk : pathLoop diskRead dev n (rounds + 1) (some rest) entry st =
                some (.ok entry, st) := by
              rw [pathLoop]
              exact if_pos hend
            exact hdone (Option.some.inj (hrun.symm.trans hwalk)) (if_pos hend)
          · have hne : rest ≠ [] := by
              rintro rfl
              exact hend rfl
            have hshort := strchr_tail_length '/'.toUInt8 rest hne
            have hlen' : rest.length < rounds + 1 := hlen
            rw [pathLoop_succ hend] at hrun
            rw [enter, if_neg hend] at h
            by_cases hdir : entry.attributes &&& fatAttrDirectory = 0
            · rw [fatFileLookup, if_pos hdir] at hrun
              obtain rfl := Option.some.inj hrun
              exact ⟨h.inside, fun e he => (by cases he)⟩
            · rw [if_neg hdir] at h
              rw [fatFileLookup, if_neg hdir] at hrun
              cases hlookup : iterate (fileLookupBody diskRead dev (nameExtOf rest)) n
                  (entry.cluster, st) with
              | none =>
                  rw [hlookup] at hrun
                  cases hrun
              | some res =>
                  rw [hlookup] at hrun
                  obtain ⟨hinside, hnext⟩ := fileLookup_loop_inside hhonest hnotes hspan htight h
                    hlookup
                  obtain ⟨code | e, st'⟩ := res
                  · obtain rfl := Option.some.inj hrun
                    exact ⟨hinside, fun e he => (by cases he)⟩
                  · exact ih (by omega) (hnext e rfl) hrun

/-- **`fat_read`** on a way of tight places asks for sectors of the partition
only. -/
theorem fatRead_inside (hhonest : Honest diskRead image) (hnotes : Notes diskRead log)
    (hspan : dev.lba.toNat + dev.sectors.toNat ≤ 2 ^ 32)
    (htight : ∀ place, Comes dev image path place → place.Tight dev image) {n : Nat}
    {dest : Nat → UInt8} {st : FatState ω} (hsound : st.cache.Sound dev image)
    {r : Int × (Nat → UInt8) × FatState ω} (hrun : fatRead diskRead dev n path dest st = some r) :
    AllInside dev (log st.world) (log r.2.2.world) := by
  have hstart : OnWay dev image path log (log st.world) (enter path (rootEntry dev)) st :=
    ⟨.start, hsound, fun rq hrq => .inl hrq⟩
  unfold fatRead fatPathLookup at hrun
  cases hwalk : pathLoop diskRead dev n ((path.map List.length).getD 0 + 1) path (rootEntry dev)
      st with
  | none =>
      rw [hwalk] at hrun
      cases hrun
  | some res =>
      rw [hwalk] at hrun
      obtain ⟨hinside, hfile⟩ := pathLoop_inside hhonest hnotes hspan htight _
        (Nat.lt_succ_self _) hstart hwalk
      obtain ⟨code | file, st'⟩ := res
      · obtain rfl := Option.some.inj hrun
        exact hinside
      · refine iterate_invariant
          (I := fun s => OnWay dev image path log (log st.world) (.reading s.cluster) s.st)
          (Q := fun r => AllInside dev (log st.world) (log r.2.2.world)) ?_ ?_ (hfile file rfl)
          hrun
        · intro s s' hs hb
          exact (hs.read hhonest hnotes hspan htight).1 s' hb
        · intro s r hs hb
          exact (hs.read hhonest hnotes hspan htight).2 r hb

/-- **A run that goes on**, on a way of tight places. -/
theorem rounds_inside (hhonest : Honest diskRead image) (hnotes : Notes diskRead log)
    (hspan : dev.lba.toNat + dev.sectors.toNat ≤ 2 ^ 32)
    (htight : ∀ place, Comes dev image path place → place.Tight dev image)
    {dest : Nat → UInt8} {st : FatState ω} (hsound : st.cache.Sound dev image)
    {phase phase' : Phase ω} (harrive : arrive dest path (rootEntry dev) st = .inl phase)
    (hrun : Rounds (fatStep diskRead dev dest) phase phase') :
    OnWay dev image path log (log st.world) phase'.place phase'.state := by
  induction hrun with
  | refl =>
      obtain ⟨hplace, hstate⟩ := arrive_inl harrive
      rw [hplace, hstate]
      exact ⟨.start, hsound, fun rq hrq => .inl hrq⟩
  | @next s s'' _ hb ih =>
      cases s with
      | looking rest c st₁ =>
          obtain ⟨hgoes, hends⟩ := OnWay.look hhonest hnotes hspan htight ih
          rw [fatStep] at hb
          split at hb
          · rename_i c' st' hbody
            cases hb
            exact hgoes c' st' hbody
          · cases hb
          · rename_i e st' hbody
            obtain ⟨hplace, hstate⟩ := arrive_inl hb
            rw [hplace, hstate]
            exact (hends _ st' hbody).2 e rfl
      | reading s₁ =>
          obtain ⟨hgoes, -⟩ := OnWay.read hhonest hnotes hspan htight ih
          rw [fatStep] at hb
          split at hb
          · rename_i s' hbody
            cases hb
            exact hgoes s' hbody
          · cases hb

end Inside

end DevOS.Boot
