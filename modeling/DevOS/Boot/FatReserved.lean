import DevOS.Boot.FatLockstep

/-!
# FAT32 — the reserved bits of FAT entries

When `fat_read` tells two disks apart that differ in reserved bits only. A disk
with a script leads both runs to the same place; where an entry that matters
decides how to go on, one of them makes a read that the other one does not
make, and a failure of that read shows in the code.
-/

namespace DevOS.Boot

open DevOS.Lib

/-! ## Where the disks are told apart -/

section Apart

variable {dev : FatDev} {image₁ image₂ : DiskImage} {path : Option (List UInt8)}

/-- Both disks give the same code and the same bytes for the path. -/
def SameOnBoth (dev : FatDev) (image₁ image₂ : DiskImage) (path : Option (List UInt8)) : Prop :=
  ∀ (ω : Type) (faults : DiskRead ω) (st₁ st₂ : FatState ω) (n : Nat) (dest : Nat → UInt8),
    Paired dev image₁ image₂ st₁ st₂ →
    (fatRead (faulty faults image₁) dev n path dest st₁).map readResult =
      (fatRead (faulty faults image₂) dev n path dest st₂).map readResult

/-- A script leads both runs to the place, with what is left of the script. -/
def PairReached (dev : FatDev) (image₁ image₂ : DiskImage) (path : Option (List UInt8))
    (place : Place) : Prop :=
  ∃ j log cache₁ buffer offset dest, ∀ t, ∃ cache₂ phase phase₁ phase₂,
    arrive (fun _ => 0) path (rootEntry dev) (scriptState (List.replicate j 0 ++ t)) =
      .inl phase ∧
    place.phase offset dest ⟨(t, log), cache₁, buffer⟩ = some phase₁ ∧
    place.phase offset dest ⟨(t, log), cache₂, buffer⟩ = some phase₂ ∧
    Paired dev image₁ image₂ (FatState.mk (t, log) cache₁ buffer) ⟨(t, log), cache₂, buffer⟩ ∧
    Rounds (fatStep (faulty scripted image₁) dev fun _ => 0) phase phase₁ ∧
    Rounds (fatStep (faulty scripted image₂) dev fun _ => 0) phase phase₂

/-- Two runs of `SameOnBoth` that come to an end end alike. -/
theorem SameOnBoth.results (h : SameOnBoth dev image₁ image₂ path) {script : List Int}
    {phase phase₁ phase₂ : Phase (List Int × List DiskRequest)}
    (harrive : arrive (fun _ => 0) path (rootEntry dev) (scriptState script) = .inl phase)
    (hrun₁ : Rounds (fatStep (faulty scripted image₁) dev fun _ => 0) phase phase₁)
    (hrun₂ : Rounds (fatStep (faulty scripted image₂) dev fun _ => 0) phase phase₂)
    {r₁ r₂ : Int × (Nat → UInt8) × FatState (List Int × List DiskRequest)}
    (hend₁ : fatStep (faulty scripted image₁) dev (fun _ => 0) phase₁ = .inr r₁)
    (hend₂ : fatStep (faulty scripted image₂) dev (fun _ => 0) phase₂ = .inr r₂) :
    readResult r₁ = readResult r₂ := by
  obtain ⟨N₁, hN₁⟩ := hrun₁.result (iterate_done hend₁ 0)
  obtain ⟨N₂, hN₂⟩ := hrun₂.result (iterate_done hend₂ 0)
  obtain ⟨n₁, hn₁⟩ := fatRead_of_phases harrive hN₁
  obtain ⟨n₂, hn₂⟩ := fatRead_of_phases harrive hN₂
  have hpair : Paired dev image₁ image₂ (scriptState script) (scriptState script) :=
    ⟨rfl, rfl, fun _ => rfl, .empty rfl dev image₁, .empty rfl dev image₂⟩
  have hsame := h _ scripted (scriptState script) (scriptState script) (max n₁ n₂) (fun _ => 0)
    hpair
  rw [fatRead_mono hn₁ (Nat.le_max_left _ _), fatRead_mono hn₂ (Nat.le_max_right _ _)] at hsame
  exact Option.some.inj hsame

/-- A state that is paired with one of this world and buffer has them too. -/
theorem Paired.eq_mk {ω : Type} {w : ω} {cache₁ : FatCache} {buffer : Nat → UInt8}
    {st₂ : FatState ω} (h : Paired dev image₁ image₂ ⟨w, cache₁, buffer⟩ st₂) :
    st₂ = ⟨w, st₂.cache, buffer⟩ := by
  obtain ⟨w₂, cache₂, buffer₂⟩ := st₂
  obtain rfl : w = w₂ := h.world
  obtain rfl : buffer = buffer₂ := h.buffer
  rfl

/-- From a place of a lookup that goes on, each run comes to its own link. -/
theorem PairReached.look {rest : List UInt8} {c : Nat}
    (h : PairReached dev image₁ image₂ path (.looking rest c))
    (hin : inChain c = true)
    (hsame : (Place.looking rest c).SameData dev image₁ image₂)
    (hscan : dev.scanCluster image₁ (nameExtOf rest) c = .next) (hfat : dev.FatPasses c) :
    ∃ j log cache₁ buffer, ∀ t, ∃ cache₂ phase,
      arrive (fun _ => 0) path (rootEntry dev) (scriptState (List.replicate j 0 ++ t)) =
        .inl phase ∧
      Paired dev image₁ image₂ (FatState.mk (t, log) cache₁ buffer) ⟨(t, log), cache₂, buffer⟩ ∧
      Rounds (fatStep (faulty scripted image₁) dev fun _ => 0) phase
        (.looking rest (dev.link image₁ c) ⟨(t, log), cache₁, buffer⟩) ∧
      Rounds (fatStep (faulty scripted image₂) dev fun _ => 0) phase
        (.looking rest (dev.link image₂ c) ⟨(t, log), cache₂, buffer⟩) := by
  obtain ⟨j, log, cache₁, buffer, offset, dest, hreach⟩ := h
  have hsound : cache₁.Sound dev image₁ := by
    obtain ⟨_, _, _, _, _, _, _, hpair, _⟩ := hreach []
    exact hpair.sound₁
  obtain ⟨j', log', cache₁', buffer', -, hlook⟩ :=
    scripted_look (nameExtOf rest) hsound hin hscan hfat buffer
  refine ⟨j + j', log ++ log', cache₁', buffer', fun t => ?_⟩
  obtain ⟨cache₂, phase, phase₁, phase₂, harrive, hphase₁, hphase₂, hpair, hrun₁, hrun₂⟩ :=
    hreach (List.replicate j' 0 ++ t)
  obtain rfl := Option.some.inj hphase₁
  obtain rfl := Option.some.inj hphase₂
  rw [← List.append_assoc, List.replicate_append_replicate] at harrive
  have hb₁ := hlook t log
  -- the second run makes the same round
  obtain ⟨code, s₁, s₂, hb, -⟩ | ⟨-, ⟨e, s₁, s₂, -, hb, -⟩ | ⟨s₁, s₂, -, -, hb, hb₂, hpair'⟩⟩ :=
    fileLookupBody_lockstep scripted hpair (nameExtOf rest) hsame
  · rw [hb₁] at hb
    cases hb
  · rw [hb₁] at hb
    cases hb
  · rw [hb₁] at hb
    obtain rfl := (Prod.mk.inj (Sum.inl.inj hb)).2
    rw [hpair'.eq_mk] at hb₂ hpair'
    refine ⟨s₂.cache, phase, harrive, hpair', hrun₁.next ?_, hrun₂.next ?_⟩
    · rw [fatStep, hb₁]
    · rw [fatStep, hb₂]

/-- From a place where the lookup finds its entry, both runs enter it. -/
theorem PairReached.find {rest : List UInt8} {c : Nat} {e : FatDirEntry}
    (h : PairReached dev image₁ image₂ path (.looking rest c)) (hin : inChain c = true)
    (hsame : (Place.looking rest c).SameData dev image₁ image₂)
    (hscan : dev.scanCluster image₁ (nameExtOf rest) c = .found e)
    (henter : enter ((strchr '/'.toUInt8 rest).map List.tail) e ≠ .blocked) :
    PairReached dev image₁ image₂ path (enter ((strchr '/'.toUInt8 rest).map List.tail) e) := by
  obtain ⟨j, log, cache₁, buffer, offset, dest, hreach⟩ := h
  obtain ⟨j', log', buffer', hfind⟩ := scripted_find (nameExtOf rest) hin hscan buffer
  refine ⟨j + j', log ++ log', cache₁, buffer', 0, fun _ => 0, fun t => ?_⟩
  obtain ⟨cache₂, phase, phase₁, phase₂, harrive, hphase₁, hphase₂, hpair, hrun₁, hrun₂⟩ :=
    hreach (List.replicate j' 0 ++ t)
  obtain rfl := Option.some.inj hphase₁
  obtain rfl := Option.some.inj hphase₂
  rw [← List.append_assoc, List.replicate_append_replicate] at harrive
  have hb₁ := hfind t log cache₁
  obtain ⟨code, s₁, s₂, hb, -⟩ | ⟨-, ⟨e', s₁, s₂, -, hb, hb₂, hpair'⟩ | ⟨s₁, s₂, -, -, hb, -⟩⟩ :=
    fileLookupBody_lockstep scripted hpair (nameExtOf rest) hsame
  · rw [hb₁] at hb
    cases hb
  · rw [hb₁] at hb
    obtain ⟨he, rfl⟩ := Prod.mk.inj (Sum.inr.inj hb)
    obtain rfl := Except.ok.inj he
    rw [hpair'.eq_mk] at hb₂ hpair'
    obtain ⟨phase₁, hphase₁⟩ := Place.phase_exists henter 0 (fun _ => 0)
      (FatState.mk (t, log ++ log') cache₁ buffer')
    obtain ⟨phase₂, hphase₂⟩ := Place.phase_exists henter 0 (fun _ => 0)
      (FatState.mk (t, log ++ log') s₂.cache buffer')
    refine ⟨s₂.cache, phase, phase₁, phase₂, harrive, hphase₁, hphase₂, hpair', hrun₁.next ?_,
      hrun₂.next ?_⟩
    · rw [fatStep, hb₁]
      exact arrive_of_phase hphase₁
    · rw [fatStep, hb₂]
      exact arrive_of_phase hphase₂
  · rw [hb₁] at hb
    cases hb

/-- From a place of the file, each run comes to its own link. -/
theorem PairReached.read {c : Nat} (h : PairReached dev image₁ image₂ path (.reading c))
    (hin : inChain c = true)
    (hsame : (Place.reading c).SameData dev image₁ image₂) (hreadable : dev.Readable c) :
    ∃ j log cache₁ buffer offset dest, ∀ t, ∃ cache₂ phase,
      arrive (fun _ => 0) path (rootEntry dev) (scriptState (List.replicate j 0 ++ t)) =
        .inl phase ∧
      Paired dev image₁ image₂ (FatState.mk (t, log) cache₁ buffer) ⟨(t, log), cache₂, buffer⟩ ∧
      Rounds (fatStep (faulty scripted image₁) dev fun _ => 0) phase
        (.reading ⟨dev.link image₁ c, offset, dest, ⟨(t, log), cache₁, buffer⟩⟩) ∧
      Rounds (fatStep (faulty scripted image₂) dev fun _ => 0) phase
        (.reading ⟨dev.link image₂ c, offset, dest, ⟨(t, log), cache₂, buffer⟩⟩) := by
  obtain ⟨j, log, cache₁, buffer, offset, dest, hreach⟩ := h
  have hsound : cache₁.Sound dev image₁ := by
    obtain ⟨_, _, _, _, _, _, _, hpair, _⟩ := hreach []
    exact hpair.sound₁
  obtain ⟨j', log', cache₁', offset', dest', -, hread⟩ :=
    scripted_readBody hsound hin hreadable offset dest buffer
  refine ⟨j + j', log ++ log', cache₁', buffer, offset', dest', fun t => ?_⟩
  obtain ⟨cache₂, phase, phase₁, phase₂, harrive, hphase₁, hphase₂, hpair, hrun₁, hrun₂⟩ :=
    hreach (List.replicate j' 0 ++ t)
  obtain rfl := Option.some.inj hphase₁
  obtain rfl := Option.some.inj hphase₂
  rw [← List.append_assoc, List.replicate_append_replicate] at harrive
  have hb₁ := hread t log
  obtain ⟨code, d, s₁, s₂, hb, -⟩ | ⟨-, -, o, d, s₁, s₂, hb, hb₂, hpair'⟩ :=
    fatReadBody_lockstep scripted hpair hsame offset dest
  · rw [hb₁] at hb
    cases hb
  · rw [hb₁] at hb
    obtain ⟨-, rfl, rfl, rfl⟩ := ReadState.mk.inj (Sum.inl.inj hb)
    rw [hpair'.eq_mk] at hb₂ hpair'
    refine ⟨s₂.cache, phase, harrive, hpair', hrun₁.next ?_, hrun₂.next ?_⟩
    · rw [fatStep, hb₁]
    · rw [fatStep, hb₂]

/-- A lookup that comes to a cluster whose first sector may be read fails as that
read does. -/
theorem fatStep_looking_fails (image : DiskImage) (hspc : 0 < dev.sectorsPerCluster.toNat)
    {c : Nat} (hin : inChain c = true) (hpass : u32 (clusterLba dev c + 1) ≤ dev.sectors.toNat)
    (rest : List UInt8) (t : List Int) (log : List DiskRequest) (cache : FatCache)
    (buffer dest : Nat → UInt8) : ∃ st',
    fatStep (faulty scripted image) dev dest (.looking rest c ⟨(7 :: t, log), cache, buffer⟩) =
      .inr (7, dest, st') := by
  have hscan : ∃ st', scanSector (faulty scripted image) dev (nameExtOf rest) (clusterLba dev c)
      ⟨(7 :: t, log), cache, buffer⟩ = (.stop 7, st') := by
    unfold scanSector
    rw [scripted_read image hpass]
    exact ⟨_, rfl⟩
  obtain ⟨st', hscan⟩ := hscan
  refine ⟨st', ?_⟩
  unfold fatStep fileLookupBody
  dsimp only
  rw [if_pos hin, scanSectors_stop hspc hscan]

theorem fatStep_looking_out {ω : Type} (diskRead : DiskRead ω) {c : Nat}
    (hout : inChain c = false) (rest : List UInt8) (st : FatState ω) (dest : Nat → UInt8) :
    fatStep diskRead dev dest (.looking rest c st) = .inr (-1, dest, st) := by
  unfold fatStep fileLookupBody
  dsimp only
  rw [if_neg (Bool.eq_false_iff.mp hout)]

/-- The file's loop fails in a cluster whose read fails or is rejected. -/
theorem fatStep_reading_fails (image : DiskImage) {c : Nat} (hin : inChain c = true)
    (offset : Nat) (dest₀ dest : Nat → UInt8) (t : List Int) (log : List DiskRequest)
    (cache : FatCache) (buffer : Nat → UInt8) : ∃ code dest' st', code ≠ 0 ∧
    fatStep (faulty scripted image) dev dest₀
      (.reading ⟨c, offset, dest, ⟨(7 :: t, log), cache, buffer⟩⟩) = .inr (code, dest', st') := by
  unfold fatStep fatReadBody
  dsimp only
  rw [if_pos hin]
  by_cases hpass : u32 (clusterLba dev c + dev.sectorsPerCluster.toNat) ≤ dev.sectors.toNat
  · rw [scripted_read image hpass]
    exact ⟨7, _, _, by decide, rfl⟩
  · rw [fatReadSectors_rejected (Nat.lt_of_not_le hpass)]
    exact ⟨-1, _, _, by decide, rfl⟩

theorem fatStep_reading_out {ω : Type} (diskRead : DiskRead ω) {c : Nat}
    (hout : inChain c = false) (offset : Nat) (dest₀ dest : Nat → UInt8) (st : FatState ω) :
    fatStep diskRead dev dest₀ (.reading ⟨c, offset, dest, st⟩) = .inr (0, dest, st) := by
  rw [fatStep, fatReadBody_out _ _ (s := ⟨c, offset, dest, st⟩) hout]

/-- Of an entry that matters, one link is the cluster of the low bits and the
other one is no cluster. -/
theorem Sensitive.links (hdiffer : ReservedDiffer dev image₁ image₂) {c : Nat}
    (h : Sensitive dev image₁ image₂ c) :
    inChain (dev.link image₁ c % 2 ^ 28) = true ∧
    (dev.link image₁ c = dev.link image₁ c % 2 ^ 28 ∧ inChain (dev.link image₂ c) = false ∨
      dev.link image₂ c = dev.link image₁ c % 2 ^ 28 ∧ inChain (dev.link image₁ c) = false) := by
  have hmod := hdiffer.link_mod c
  refine ⟨h.1, ?_⟩
  have hne := h.2
  rw [inChain_eq_false, inChain_eq_false]
  omega

/-- **What both runs reach does not hang on an entry that matters.** -/
theorem SameOnBoth.insensitive (h : SameOnBoth dev image₁ image₂ path)
    (hdiffer : ReservedDiffer dev image₁ image₂)
    (hspc : 0 < dev.sectorsPerCluster.toNat) {place : Place}
    (hsame : place.SameData dev image₁ image₂)
    (hreached : PairReached dev image₁ image₂ path place) :
    place.Insensitive dev image₁ image₂ := by
  cases place with
  | blocked => trivial
  | looking rest c =>
      intro hin hscan hfat hsensitive
      by_contra hpass
      obtain ⟨hx, hlinks⟩ := hsensitive.links hdiffer
      obtain ⟨j, log, cache₁, buffer, hreach⟩ :=
        hreached.look hin hsame hscan hfat
      -- the next read fails with code 7
      obtain ⟨cache₂, phase, harrive, -, hrun₁, hrun₂⟩ := hreach [7]
      obtain ⟨heq, hout⟩ | ⟨heq, hout⟩ := hlinks
      · rw [heq] at hrun₁
        obtain ⟨st', hend₁⟩ := fatStep_looking_fails image₁ hspc hx (Nat.le_of_not_lt hpass) rest
          [] log cache₁ buffer fun _ => 0
        have hsame := h.results harrive hrun₁ hrun₂ hend₁ (fatStep_looking_out _ hout rest _ _)
        exact absurd (congrArg Prod.fst hsame) (by decide : (7 : Int) ≠ -1)
      · rw [heq] at hrun₂
        obtain ⟨st', hend₂⟩ := fatStep_looking_fails image₂ hspc hx (Nat.le_of_not_lt hpass) rest
          [] log cache₂ buffer fun _ => 0
        have hsame := h.results harrive hrun₁ hrun₂ (fatStep_looking_out _ hout rest _ _) hend₂
        exact absurd (congrArg Prod.fst hsame) (by decide : (-1 : Int) ≠ 7)
  | reading c =>
      intro hin hreadable hsensitive
      obtain ⟨hx, hlinks⟩ := hsensitive.links hdiffer
      obtain ⟨j, log, cache₁, buffer, offset, dest, hreach⟩ :=
        hreached.read hin hsame hreadable
      obtain ⟨cache₂, phase, harrive, -, hrun₁, hrun₂⟩ := hreach [7]
      obtain ⟨heq, hout⟩ | ⟨heq, hout⟩ := hlinks
      · rw [heq] at hrun₁
        obtain ⟨code, dest', st', hcode, hend₁⟩ := fatStep_reading_fails image₁ hx offset
          (fun _ => 0) dest [] log cache₁ buffer
        have hsame := h.results harrive hrun₁ hrun₂ hend₁ (fatStep_reading_out _ hout _ _ _ _)
        exact hcode (congrArg Prod.fst hsame)
      · rw [heq] at hrun₂
        obtain ⟨code, dest', st', hcode, hend₂⟩ := fatStep_reading_fails image₂ hx offset
          (fun _ => 0) dest [] log cache₂ buffer
        have hsame := h.results harrive hrun₁ hrun₂ (fatStep_reading_out _ hout _ _ _ _) hend₂
        exact hcode (congrArg Prod.fst hsame).symm

/-- Nothing comes after the place. -/
def Place.Dead (dev : FatDev) : Place → Prop
  | .looking _ c => dev.DeadEnd c
  | .reading c => inChain c = false
  | .blocked => True

/-- No lookup goes on from a dead end. -/
theorem FatDev.DeadEnd.not_scanned (hspc : 0 < dev.sectorsPerCluster.toNat) {c : Nat}
    (h : dev.DeadEnd c) (hin : inChain c = true) {image : DiskImage} {target : List UInt8}
    {r : Scan} (hscan : dev.scanCluster image target c = r) : r = .stop (-1) := by
  obtain ⟨st', hdead⟩ := h.scan hspc hin (imageRead image) target freshState
  rw [FatDev.scanCluster, hdead] at hscan
  exact hscan.symm

/-- **Both runs are led along the way** of the first one, as long as it goes on. -/
theorem SameOnBoth.reached (h : SameOnBoth dev image₁ image₂ path)
    (hdiffer : ReservedDiffer dev image₁ image₂)
    (hspc : 0 < dev.sectorsPerCluster.toNat)
    (hsame : ∀ place, Comes dev image₁ path place → place.SameData dev image₁ image₂)
    {place : Place} (hcomes : Comes dev image₁ path place) :
    PairReached dev image₁ image₂ path place ∨ place.Dead dev := by
  induction hcomes with
  | start =>
      by_cases hblocked : enter path (rootEntry dev) = .blocked
      · right
        rw [hblocked]
        trivial
      · left
        refine ⟨0, [], freshState.cache, freshState.buffer, 0, fun _ => 0, fun t => ?_⟩
        obtain ⟨phase, hphase⟩ := Place.phase_exists hblocked 0 (fun _ => 0) (scriptState t)
        exact ⟨freshState.cache, phase, phase, phase, arrive_of_phase hphase, hphase, hphase,
          ⟨rfl, rfl, fun _ => rfl, .empty rfl dev image₁, .empty rfl dev image₂⟩, .refl _,
          .refl _⟩
  | @look rest c hbefore hin hscan hfat ih =>
      obtain hreached | hdead := ih
      · have hplace := h.insensitive hdiffer hspc (hsame _ hbefore) hreached
        obtain heq | ⟨hdead, -⟩ := link_eq_or_dead hdiffer (hplace hin hscan hfat)
        · left
          obtain ⟨j, log, cache₁, buffer, hreach⟩ := hreached.look hin
            (hsame _ hbefore) hscan hfat
          refine ⟨j, log, cache₁, buffer, 0, fun _ => 0, fun t => ?_⟩
          obtain ⟨cache₂, phase, harrive, hpair, hrun₁, hrun₂⟩ := hreach t
          rw [← heq] at hrun₂
          exact ⟨cache₂, phase, _, _, harrive, rfl, rfl, hpair, hrun₁, hrun₂⟩
        · exact .inr hdead
      · cases hdead.not_scanned hspc hin hscan
  | @find rest c e hbefore hin hscan ih =>
      obtain hreached | hdead := ih
      · by_cases hblocked : enter ((strchr '/'.toUInt8 rest).map List.tail) e = .blocked
        · right
          rw [hblocked]
          trivial
        · exact .inl (hreached.find hin (hsame _ hbefore) hscan hblocked)
      · cases hdead.not_scanned hspc hin hscan
  | @read c hbefore hin hreadable ih =>
      obtain hreached | hdead := ih
      · have hplace := h.insensitive hdiffer hspc (hsame _ hbefore) hreached
        obtain heq | ⟨hout, -⟩ := link_eq_or_out hdiffer (hplace hin hreadable)
        · left
          obtain ⟨j, log, cache₁, buffer, offset, dest, hreach⟩ := hreached.read
            hin (hsame _ hbefore) hreadable
          refine ⟨j, log, cache₁, buffer, offset, dest, fun t => ?_⟩
          obtain ⟨cache₂, phase, harrive, hpair, hrun₁, hrun₂⟩ := hreach t
          rw [← heq] at hrun₂
          exact ⟨cache₂, phase, _, _, harrive, rfl, rfl, hpair, hrun₁, hrun₂⟩
        · exact .inr hout
      · exact absurd (hin.symm.trans hdead) (by decide)

/-- **The reserved bits of FAT entries do not matter**, for the code and the bytes
of `fat_read` on two disks that differ in them, exactly for the paths on whose
way no entry that matters decides how `fat_read` goes on. -/
theorem reserved_bits_ignored (dev : FatDev) (image₁ image₂ : DiskImage)
    (path : Option (List UInt8)) (hspc : 0 < dev.sectorsPerCluster.toNat)
    (hdiffer : ReservedDiffer dev image₁ image₂)
    (hsame : ∀ place, Comes dev image₁ path place → place.SameData dev image₁ image₂) :
    SameOnBoth dev image₁ image₂ path ↔
      ∀ place, Comes dev image₁ path place → place.Insensitive dev image₁ image₂ := by
  constructor
  · intro h place hcomes
    obtain hreached | hdead := h.reached hdiffer hspc hsame hcomes
    · exact h.insensitive hdiffer hspc (hsame _ hcomes) hreached
    · cases place with
      | blocked => trivial
      | looking rest c =>
          intro hin hscan
          cases hdead.not_scanned hspc hin hscan
      | reading c =>
          intro hin
          exact absurd (hin.symm.trans hdead) (by decide)
  · intro hinsensitive ω faults st₁ st₂ n dest hpair
    exact fatRead_lockstep faults hdiffer hspc ⟨hsame, hinsensitive⟩ n dest hpair

end Apart

/-- The image with another sector. -/
def DiskImage.withSector (image : DiskImage) (dev : FatDev) (lba : Nat) (start : List UInt8) :
    DiskImage where
  sector abar port l :=
    if abar = dev.abar ∧ port = dev.port ∧ l = lba then (start ++ List.replicate 512 0).take 512
    else image.sector abar port l
  length_eq abar port l := by
    split
    · rw [List.length_take, List.length_append, List.length_replicate]
      omega
    · exact image.length_eq _ _ _

/-- Behind its start a sector holds 0. -/
theorem getD_padded (start : List UInt8) (n : Nat) {j : Nat} (h : start.length ≤ j) :
    (start ++ List.replicate n 0).getD j 0 = 0 := by
  rw [List.getD_eq_getElem?_getD, List.getElem?_append_right h, List.getElem?_replicate]
  split <;> rfl

theorem getD_padded_take (start : List UInt8) (n m : Nat) {j : Nat} (h : start.length ≤ j) :
    ((start ++ List.replicate n 0).take m).getD j 0 = 0 := by
  rw [List.getD_eq_getElem?_getD, List.getElem?_take]
  split
  · rw [← List.getD_eq_getElem?_getD]
    exact getD_padded start n h
  · rfl

/-- On the small volume, another FAT sector whose six entries have the same low
bits. -/
theorem sampleDev_reservedDiffer {start : List UInt8} (hlen : start.length = 24)
    (h : ∀ i, i < 6 → sectorEntry (sampleImage.sector 0 0 1) i % 2 ^ 28 =
      sectorEntry ((start ++ List.replicate 512 0).take 512) i % 2 ^ 28) :
    ReservedDiffer sampleDev sampleImage (sampleImage.withSector sampleDev 1 start) := by
  refine ⟨fun abar port lba hout => ?_, fun abar port lba hfat i _ => ?_⟩
  · refine (if_neg ?_).symm
    rintro ⟨rfl, rfl, rfl⟩
    exact hout ⟨rfl, rfl, by decide, by decide⟩
  · obtain ⟨rfl, rfl, hlow, hhigh⟩ := hfat
    obtain rfl : lba = 1 := by
      have h1 : sampleDev.lba.toNat + sampleDev.fat.toNat = 1 := by decide
      have h2 : sampleDev.fatSectors.toNat = 1 := by decide
      omega
    show _ = sectorEntry ((start ++ List.replicate 512 0).take 512) i % 2 ^ 28
    by_cases hi : i < 6
    · exact h i hi
    · refine congrArg (· % 2 ^ 28) (littleEndian_congr fun j hj _ => ?_)
      have hsample : (sampleImage.sector 0 0 1).getD j 0 = 0 :=
        getD_padded _ _ (show 24 ≤ j by omega)
      exact hsample.trans (getD_padded_take start 512 512 (by omega)).symm

/-- The FAT of the small volume with reserved bits in the last entry of the
file's chain. -/
def quietFat : List UInt8 :=
  [0xF8, 0xFF, 0xFF, 0x0F, 0xFF, 0xFF, 0xFF, 0x0F, 0xF8, 0xFF, 0xFF, 0x0F,
    0xF8, 0xFF, 0xFF, 0xFF, 0, 0, 0, 0, 3, 0, 0, 0]

/-- The same with a reserved bit in the entry of the file's first cluster. -/
def cuttingFat : List UInt8 :=
  [0xF8, 0xFF, 0xFF, 0x0F, 0xFF, 0xFF, 0xFF, 0x0F, 0xF8, 0xFF, 0xFF, 0x0F,
    0xF8, 0xFF, 0xFF, 0x0F, 0, 0, 0, 0, 3, 0, 0, 0x10]

set_option maxRecDepth 4000 in
theorem quietFat_differs :
    ReservedDiffer sampleDev sampleImage (sampleImage.withSector sampleDev 1 quietFat) :=
  sampleDev_reservedDiffer rfl (by decide)

set_option maxRecDepth 4000 in
theorem cuttingFat_differs :
    ReservedDiffer sampleDev sampleImage (sampleImage.withSector sampleDev 1 cuttingFat) :=
  sampleDev_reservedDiffer rfl (by decide)

set_option maxRecDepth 4000 in
theorem reserved_bits_ignored_sample : SameOnBoth sampleDev sampleImage
    (sampleImage.withSector sampleDev 1 quietFat) (some ['a'.toUInt8]) := by
  have hregular : sampleDev.Regular := ⟨by decide, by decide⟩
  have hdiffer := quietFat_differs
  have hscan : sampleDev.scanCluster sampleImage (nameExtOf ['a'.toUInt8]) 2 =
      .found ⟨sampleName, 0x20, 0, 5⟩ := rfl
  have hunwrapped : ∀ c, c ≤ 5 → sampleDev.Unwrapped c := by
    intro c hc
    show 2 + (c - 1) * 1 < 2 ^ 32
    omega
  have hlink5 : sampleDev.link sampleImage 5 = 3 := by decide
  have hlink5' : sampleDev.link (sampleImage.withSector sampleDev 1 quietFat) 5 = 3 := by decide
  have hlink3 : sampleDev.link sampleImage 3 = 0x0FFFFFF8 := by decide
  refine (reserved_bits_ignored sampleDev sampleImage (sampleImage.withSector sampleDev 1 quietFat)
    (some ['a'.toUInt8]) (by decide) hdiffer ?_).mpr ?_
  · intro place hcomes
    obtain rfl | rfl | rfl | rfl := sampleDev_comes hcomes
    · exact fun _ => ((hunwrapped 2 (by decide)).same hdiffer hregular (by decide)).1
    · exact fun _ => ((hunwrapped 5 (by decide)).same hdiffer hregular (by decide)).2
    · exact fun _ => ((hunwrapped 3 (by decide)).same hdiffer hregular (by decide)).2
    · intro hin
      cases hin
  · intro place hcomes
    obtain rfl | rfl | rfl | rfl := sampleDev_comes hcomes
    · intro _ hs
      rw [hscan] at hs
      cases hs
    · rintro - - ⟨-, hne⟩
      rw [hlink5, hlink5'] at hne
      exact hne Iff.rfl
    · rintro - - ⟨hlow, -⟩
      rw [hlink3] at hlow
      cases hlow
    · intro hin
      cases hin

set_option maxRecDepth 4000 in
/-- A reserved bit in the entry of the file's first cluster: `fat_read` returns
0 on both disks, with two clusters of the file on one and one on the other. -/
theorem reserved_bits_cut_file :
    ReservedDiffer sampleDev sampleImage (sampleImage.withSector sampleDev 1 cuttingFat) ∧
    (∃ dest st, fatRead (imageRead sampleImage) sampleDev 3 (some ['a'.toUInt8]) (fun _ => 0)
      freshState = some (0, dest, st) ∧ dest 512 = 7) ∧
    ∃ dest st, fatRead (imageRead (sampleImage.withSector sampleDev 1 cuttingFat)) sampleDev 3
      (some ['a'.toUInt8]) (fun _ => 0) freshState = some (0, dest, st) ∧ dest 512 = 0 :=
  ⟨cuttingFat_differs, ⟨_, _, rfl, rfl⟩, ⟨_, _, rfl, rfl⟩⟩

end DevOS.Boot
