import DevOS.Boot.FatWhole

/-!
# FAT32 — the way of `fat_read`

The places `fat_read` comes to for a path on a disk whose reads succeed: the
clusters of the directories in which it looks up the components, and the
clusters of the file. `fat_read` itself, with its nested loops, does what one
loop over such places does. A disk that answers from a script leads it to
any of them.
-/

namespace DevOS.Boot

open DevOS.Lib

/-! ## The way of a walk -/

/-- What a lookup comes to in a cluster when its reads succeed. -/
def FatDev.scanCluster (dev : FatDev) (image : DiskImage) (target : List UInt8) (c : Nat) : Scan :=
  (scanSectors (imageRead image) dev target (clusterLba dev c) dev.sectorsPerCluster.toNat 0
    freshState).1

/-- The FAT sector of the cluster passes the check of `fat_read_sectors`. -/
def FatDev.FatPasses (dev : FatDev) (c : Nat) : Prop :=
  u32 (u32 (dev.fat.toNat + c / 128) + 1) ≤ dev.sectors.toNat

/-- Where `fat_read` is: in a cluster of a directory with the rest of the path to
look up, in a cluster of the file, or at an entry that is no directory. -/
inductive Place where
  | looking (path : List UInt8) (c : Nat)
  | reading (c : Nat)
  | blocked

/-- The place where an entry is taken up. -/
def enter (path : Option (List UInt8)) (e : FatDirEntry) : Place :=
  match path with
  | none => .reading e.cluster
  | some path =>
      if path.headD 0 = 0 then .reading e.cluster
      else if e.attributes &&& fatAttrDirectory = 0 then .blocked
      else .looking path e.cluster

/-- The places `fat_read` comes to for the path when its reads succeed. -/
inductive Comes (dev : FatDev) (image : DiskImage) (path : Option (List UInt8)) : Place → Prop
  | start : Comes dev image path (enter path (rootEntry dev))
  | look {rest : List UInt8} {c : Nat} (h : Comes dev image path (.looking rest c))
      (hin : inChain c = true) (hscan : dev.scanCluster image (nameExtOf rest) c = .next)
      (hfat : dev.FatPasses c) : Comes dev image path (.looking rest (dev.link image c))
  | find {rest : List UInt8} {c : Nat} {e : FatDirEntry}
      (h : Comes dev image path (.looking rest c)) (hin : inChain c = true)
      (hscan : dev.scanCluster image (nameExtOf rest) c = .found e) :
      Comes dev image path (enter ((strchr '/'.toUInt8 rest).map List.tail) e)
  | read {c : Nat} (h : Comes dev image path (.reading c)) (hin : inChain c = true)
      (hreadable : dev.Readable c) : Comes dev image path (.reading (dev.link image c))

set_option maxRecDepth 4000 in
/-- The places on the way to `A` on the small volume. -/
theorem sampleDev_comes {place : Place}
    (h : Comes sampleDev sampleImage (some ['a'.toUInt8]) place) :
    place = .looking ['a'.toUInt8] 2 ∨ place = .reading 5 ∨ place = .reading 3 ∨
      place = .reading 0x0FFFFFF8 := by
  have hscan : sampleDev.scanCluster sampleImage (nameExtOf ['a'.toUInt8]) 2 =
      .found ⟨sampleName, 0x20, 0, 5⟩ := rfl
  have hlink3 : sampleDev.link sampleImage 3 = 0x0FFFFFF8 := by decide
  have hlink5 : sampleDev.link sampleImage 5 = 3 := by decide
  induction h with
  | start => exact .inl rfl
  | look h hin hs hfat ih =>
      obtain ih | ih | ih | ih := ih
      · obtain ⟨rfl, rfl⟩ := Place.looking.inj ih
        rw [hscan] at hs
        cases hs
      · cases ih
      · cases ih
      · cases ih
  | find h hin hs ih =>
      obtain ih | ih | ih | ih := ih
      · obtain ⟨rfl, rfl⟩ := Place.looking.inj ih
        rw [hscan] at hs
        obtain rfl := Scan.found.inj hs
        exact .inr (.inl rfl)
      · cases ih
      · cases ih
      · cases ih
  | read h hin hreadable ih =>
      obtain ih | ih | ih | ih := ih
      · cases ih
      · obtain rfl := Place.reading.inj ih
        exact .inr (.inr (.inl (by rw [hlink5])))
      · obtain rfl := Place.reading.inj ih
        exact .inr (.inr (.inr (by rw [hlink3])))
      · obtain rfl := Place.reading.inj ih
        cases hin

/-- What is left of a path is shorter. -/
theorem strchr_tail_length (ch : UInt8) : ∀ (xs : List UInt8), xs ≠ [] →
    (((strchr ch xs).map List.tail).map List.length).getD 0 < xs.length := by
  intro xs
  induction xs with
  | nil => intro h; exact absurd rfl h
  | cons x xs ih =>
      intro _
      rw [strchr]
      split
      · exact Nat.succ_pos _
      · split
        · exact Nat.lt_succ_self _
        · cases xs with
          | nil => exact Nat.succ_pos _
          | cons y ys => exact Nat.lt_succ_of_lt (ih (List.cons_ne_nil _ _))

section Honest

variable {ω : Type} {dev : FatDev}

/-- What an honest disk has shown of a sector is what the image shows. -/
theorem scanSector_honest {diskRead : DiskRead ω} {image : DiskImage}
    (hhonest : Honest diskRead image) {target : List UInt8} {lba : Nat} {st st' : FatState ω}
    {r : Scan} (h : scanSector diskRead dev target lba st = (r, st'))
    (hr : ∀ code, r ≠ .stop code) (st₀ : FatState Unit) :
    (scanSector (imageRead image) dev target lba st₀).1 = r := by
  unfold scanSector at h
  generalize hread : fatReadSectors diskRead dev lba 1 st.world = res at h
  obtain ⟨code, bytes, w⟩ := res
  dsimp only at h
  by_cases hcode : code = 0
  · rw [hcode] at hread
    have hbytes := fatReadSectors_honest hhonest hread
    rw [contents_one] at hbytes
    rw [if_neg (fun hne => hne hcode), hbytes,
      scanEntries_sector _ _ (image.length_eq _ _ _)] at h
    unfold scanSector
    rw [fatReadSectors_accepted (fatReadSectors_passed hread)]
    dsimp only [imageRead]
    rw [if_neg (fun hne => hne rfl), contents_one,
      scanEntries_sector _ _ (image.length_eq _ _ _)]
    dsimp only
    exact (Prod.mk.inj h).1
  · rw [if_pos hcode] at h
    exact absurd (Prod.mk.inj h).1.symm (hr code)

theorem scanSectors_honest {diskRead : DiskRead ω} {image : DiskImage}
    (hhonest : Honest diskRead image) {target : List UInt8} {lba : Nat} : ∀ (count s : Nat)
    {st st' : FatState ω} {r : Scan}, scanSectors diskRead dev target lba count s st = (r, st') →
    (∀ code, r ≠ .stop code) → ∀ st₀ : FatState Unit,
    (scanSectors (imageRead image) dev target lba count s st₀).1 = r := by
  intro count
  induction count with
  | zero =>
      intro s st st' r h _ st₀
      exact (Prod.mk.inj h).1
  | succ count ih =>
      intro s st st' r h hr st₀
      rw [scanSectors] at h
      cases hone : scanSector diskRead dev target (u32 (lba + s)) st with
      | mk r₁ st₁ =>
          rw [hone] at h
          rw [scanSectors]
          cases r₁ with
          | stop code => exact absurd (Prod.mk.inj h).1.symm (hr code)
          | next =>
              have himage := scanSector_honest hhonest hone (fun _ => Scan.noConfusion) st₀
              generalize scanSector (imageRead image) dev target (u32 (lba + s)) st₀ = res
                at himage
              obtain ⟨r₂, st₂⟩ := res
              obtain rfl : r₂ = .next := himage
              exact ih (s + 1) h hr st₂
          | found e =>
              have himage := scanSector_honest hhonest hone (fun _ => Scan.noConfusion) st₀
              generalize scanSector (imageRead image) dev target (u32 (lba + s)) st₀ = res
                at himage
              obtain ⟨r₂, st₂⟩ := res
              obtain rfl : r₂ = .found e := himage
              exact (Prod.mk.inj h).1

/-- A round of a lookup that goes on does so along the way. -/
theorem fileLookupBody_goes {diskRead : DiskRead ω} {image : DiskImage}
    (hhonest : Honest diskRead image) {target : List UInt8} {c c' : Nat} {st st' : FatState ω}
    (hsound : st.cache.Sound dev image)
    (h : fileLookupBody diskRead dev target (c, st) = .inl (c', st')) :
    inChain c = true ∧ dev.scanCluster image target c = .next ∧ dev.FatPasses c ∧
      c' = dev.link image c ∧ st'.cache.Sound dev image := by
  have hkeep := scanSectors_cache diskRead dev target (clusterLba dev c)
    dev.sectorsPerCluster.toNat 0 st
  unfold fileLookupBody at h
  dsimp only at h
  split at h
  · rename_i hin
    split at h
    · cases h
    · cases h
    · rename_i st₁ hscan
      rw [hscan] at hkeep
      split at h
      · cases h
      · rename_i next st₂ hnext
        cases h
        have hsound₁ : st₁.cache.Sound dev image := by rw [hkeep]; exact hsound
        obtain ⟨hlink, hpass, hsound₂⟩ := fatGetNextCluster_sound hhonest hsound₁ hnext
        exact ⟨hin, scanSectors_honest hhonest _ _ hscan (fun _ => Scan.noConfusion) freshState,
          hpass, hlink, hsound₂⟩
  · cases h

/-- So does one that finds the entry. -/
theorem fileLookupBody_finds {diskRead : DiskRead ω} {image : DiskImage}
    (hhonest : Honest diskRead image) {target : List UInt8} {c : Nat} {e : FatDirEntry}
    {st st' : FatState ω} (h : fileLookupBody diskRead dev target (c, st) = .inr (.ok e, st')) :
    inChain c = true ∧ dev.scanCluster image target c = .found e ∧ st'.cache = st.cache := by
  have hkeep := scanSectors_cache diskRead dev target (clusterLba dev c)
    dev.sectorsPerCluster.toNat 0 st
  unfold fileLookupBody at h
  dsimp only at h
  split at h
  · rename_i hin
    split at h
    · cases h
    · rename_i e₁ st₁ hscan
      rw [hscan] at hkeep
      cases h
      exact ⟨hin, scanSectors_honest hhonest _ _ hscan (fun _ => Scan.noConfusion) freshState,
        hkeep⟩
    · split at h
      · cases h
      · cases h
  · cases h

end Honest

/-- A disk that serves and fails as `faults` does, and holds the image. -/
def faulty {ω : Type} (faults : DiskRead ω) (image : DiskImage) : DiskRead ω := fun w rq =>
  ((faults w rq).1, if (faults w rq).1 = 0 then image.contents rq else (faults w rq).2.1,
    (faults w rq).2.2)

theorem faulty_honest {ω : Type} (faults : DiskRead ω) (image : DiskImage) :
    Honest (faulty faults image) image := fun _ _ h => if_pos h

/-! ## One loop -/

section Phases

variable {ω : Type}

/-- `fat_read` at a place, with its state. -/
inductive Phase (ω : Type) where
  | looking (rest : List UInt8) (c : Nat) (st : FatState ω)
  | reading (s : ReadState ω)

/-- The state of the reader in a phase. -/
def Phase.state : Phase ω → FatState ω
  | .looking _ _ st => st
  | .reading s => s.st

/-- The place of a phase. -/
def Phase.place : Phase ω → Place
  | .looking rest c _ => .looking rest c
  | .reading s => .reading s.cluster

variable (diskRead : DiskRead ω) (dev : FatDev) (dest : Nat → UInt8)

/-- Take up an entry with the rest of the path. -/
def arrive (path : Option (List UInt8)) (e : FatDirEntry) (st : FatState ω) :
    Phase ω ⊕ (Int × (Nat → UInt8) × FatState ω) :=
  match path with
  | none => .inl (.reading ⟨e.cluster, 0, dest, st⟩)
  | some path =>
      if path.headD 0 = 0 then .inl (.reading ⟨e.cluster, 0, dest, st⟩)
      else if e.attributes &&& fatAttrDirectory = 0 then .inr (-1, dest, st)
      else .inl (.looking path e.cluster st)

/-- A round, of a lookup or of the file's loop. -/
def fatStep : Phase ω → Phase ω ⊕ (Int × (Nat → UInt8) × FatState ω)
  | .looking rest c st =>
      match fileLookupBody diskRead dev (nameExtOf rest) (c, st) with
      | .inl (c', st') => .inl (.looking rest c' st')
      | .inr (.error code, st') => .inr (code, dest, st')
      | .inr (.ok e, st') => arrive dest ((strchr '/'.toUInt8 rest).map List.tail) e st'
  | .reading s =>
      match fatReadBody diskRead dev s with
      | .inl s' => .inl (.reading s')
      | .inr r => .inr r

/-- The end of `fat_read` when the walk has come to a result. -/
def finish (n : Nat) : Except Int FatDirEntry × FatState ω →
    Option (Int × (Nat → UInt8) × FatState ω)
  | (.error code, st) => some (code, dest, st)
  | (.ok file, st) => iterate (fatReadBody diskRead dev) n ⟨file.cluster, 0, dest, st⟩

/-- The end of `fat_read` when a lookup has come to a result. -/
def afterLookup (n rounds : Nat) (rest : List UInt8) : Except Int FatDirEntry × FatState ω →
    Option (Int × (Nat → UInt8) × FatState ω)
  | (.error code, st) => some (code, dest, st)
  | (.ok e, st) =>
      (pathLoop diskRead dev n rounds ((strchr '/'.toUInt8 rest).map List.tail) e st).bind
        (finish diskRead dev dest n)

variable {diskRead : DiskRead ω} {dev : FatDev} {dest : Nat → UInt8}

/-- Taking up an entry is coming to its place. -/
theorem arrive_inl {path : Option (List UInt8)} {e : FatDirEntry}
    {st : FatState ω} {phase : Phase ω} (h : arrive dest path e st = .inl phase) :
    phase.place = enter path e ∧ phase.state = st := by
  unfold arrive at h
  unfold enter
  cases path with
  | none =>
      cases h
      exact ⟨rfl, rfl⟩
  | some path =>
      dsimp only at h ⊢
      by_cases hend : path.headD 0 = 0
      · rw [if_pos hend] at h ⊢
        cases h
        exact ⟨rfl, rfl⟩
      · rw [if_neg hend] at h ⊢
        by_cases hdir : e.attributes &&& fatAttrDirectory = 0
        · rw [if_pos hdir] at h
          cases h
        · rw [if_neg hdir] at h ⊢
          cases h
          exact ⟨rfl, rfl⟩

theorem finish_mono {n m : Nat} {x : Except Int FatDirEntry × FatState ω}
    {r : Int × (Nat → UInt8) × FatState ω} (h : finish diskRead dev dest n x = some r)
    (hle : n ≤ m) : finish diskRead dev dest m x = some r := by
  obtain ⟨e | file, st⟩ := x
  · exact h
  · exact iterate_mono h hle

theorem walk_mono {n m rounds : Nat} {path : Option (List UInt8)} {e : FatDirEntry}
    {st : FatState ω} {r : Int × (Nat → UInt8) × FatState ω}
    (h : (pathLoop diskRead dev n rounds path e st).bind (finish diskRead dev dest n) = some r)
    (hle : n ≤ m) :
    (pathLoop diskRead dev m rounds path e st).bind (finish diskRead dev dest m) = some r := by
  obtain ⟨x, hx, hr⟩ := Option.bind_eq_some_iff.mp h
  rw [pathLoop_mono hle _ hx]
  exact finish_mono hr hle

theorem afterLookup_mono {n m rounds : Nat} {rest : List UInt8}
    {x : Except Int FatDirEntry × FatState ω} {r : Int × (Nat → UInt8) × FatState ω}
    (h : afterLookup diskRead dev dest n rounds rest x = some r) (hle : n ≤ m) :
    afterLookup diskRead dev dest m rounds rest x = some r := by
  obtain ⟨code | e, st⟩ := x
  · exact h
  · exact walk_mono h hle

theorem reading_of_phases : ∀ (N : Nat) {s : ReadState ω} {r : Int × (Nat → UInt8) × FatState ω},
    iterate (fatStep diskRead dev dest) N (.reading s) = some r →
    iterate (fatReadBody diskRead dev) N s = some r := by
  intro N
  induction N with
  | zero => intro s r h; cases h
  | succ N ih =>
      intro s r h
      cases hb : fatReadBody diskRead dev s with
      | inl s' =>
          have hstep : fatStep diskRead dev dest (.reading s) = .inl (.reading s') := by
            rw [fatStep, hb]
          rw [iterate_next hstep] at h
          rw [iterate_next hb]
          exact ih h
      | inr r' =>
          have hstep : fatStep diskRead dev dest (.reading s) = .inr r' := by
            rw [fatStep, hb]
          rw [iterate_done hstep] at h
          rw [iterate_done hb]
          exact h

/-- What the phases of a lookup come to, the lookup and the rest of `fat_read`
come to. -/
def LookupFollows (diskRead : DiskRead ω) (dev : FatDev) (dest : Nat → UInt8) (N : Nat) : Prop :=
  ∀ (rest : List UInt8) (c : Nat) (st : FatState ω) (r : Int × (Nat → UInt8) × FatState ω),
    rest ≠ [] → iterate (fatStep diskRead dev dest) N (.looking rest c st) = some r →
    ∃ n x, iterate (fileLookupBody diskRead dev (nameExtOf rest)) n (c, st) = some x ∧
      ∀ rounds, rest.length ≤ rounds → afterLookup diskRead dev dest n rounds rest x = some r

variable (diskRead dev) in
/-- **A walk from an entry** reads the file, ends at what is no directory, or
looks up the next component. -/
theorem walk_cases (dest : Nat → UInt8) (path : Option (List UInt8)) (e : FatDirEntry)
    (st : FatState ω) :
    (arrive dest path e st = .inl (.reading ⟨e.cluster, 0, dest, st⟩) ∧ ∀ n rounds,
      (pathLoop diskRead dev n (rounds + 1) path e st).bind (finish diskRead dev dest n) =
        iterate (fatReadBody diskRead dev) n ⟨e.cluster, 0, dest, st⟩) ∨
    (∃ r, arrive dest path e st = .inr r ∧ ∀ n rounds,
      (pathLoop diskRead dev n (rounds + 1) path e st).bind (finish diskRead dev dest n) =
        some r) ∨
    ∃ rest, path = some rest ∧ rest ≠ [] ∧
      arrive dest path e st = .inl (.looking rest e.cluster st) ∧ ∀ n rounds,
      (pathLoop diskRead dev n (rounds + 1) path e st).bind (finish diskRead dev dest n) =
        (iterate (fileLookupBody diskRead dev (nameExtOf rest)) n (e.cluster, st)).bind
          (afterLookup diskRead dev dest n rounds rest) := by
  cases path with
  | none => exact .inl ⟨rfl, fun _ _ => rfl⟩
  | some rest =>
      rw [arrive]
      by_cases hend : rest.headD 0 = 0
      · rw [if_pos hend]
        refine .inl ⟨rfl, fun n rounds => ?_⟩
        have hwalk : pathLoop diskRead dev n (rounds + 1) (some rest) e st = some (.ok e, st) := by
          rw [pathLoop]
          exact if_pos hend
        rw [hwalk]
        rfl
      · rw [if_neg hend]
        by_cases hdir : e.attributes &&& fatAttrDirectory = 0
        · rw [if_pos hdir]
          refine .inr (.inl ⟨_, rfl, fun n rounds => ?_⟩)
          rw [pathLoop_succ hend, fatFileLookup, if_pos hdir]
          rfl
        · rw [if_neg hdir]
          have hne : rest ≠ [] := by
            rintro rfl
            exact hend rfl
          refine .inr (.inr ⟨rest, rfl, hne, rfl, fun n rounds => ?_⟩)
          rw [pathLoop_succ hend, fatFileLookup, if_neg hdir]
          generalize iterate (fileLookupBody diskRead dev (nameExtOf rest)) n (e.cluster, st) = x
          obtain _ | ⟨code | e', st'⟩ := x
          · rfl
          · rfl
          · rfl

/-- What the phases come to, a walk from an entry comes to. -/
theorem walk_of_phases {N : Nat} (hlookup : LookupFollows diskRead dev dest N)
    {path : Option (List UInt8)} {e : FatDirEntry} {st : FatState ω} {phase : Phase ω}
    {r : Int × (Nat → UInt8) × FatState ω} (harrive : arrive dest path e st = .inl phase)
    (h : iterate (fatStep diskRead dev dest) N phase = some r) :
    ∃ n, ∀ rounds, (path.map List.length).getD 0 < rounds →
      (pathLoop diskRead dev n rounds path e st).bind (finish diskRead dev dest n) = some r := by
  obtain ⟨hat, hwalk⟩ | ⟨r', hat, -⟩ | ⟨rest, rfl, hne, hat, hwalk⟩ :=
    walk_cases diskRead dev dest path e st
  · obtain rfl := Sum.inl.inj (harrive.symm.trans hat)
    refine ⟨N, fun rounds hrounds => ?_⟩
    obtain ⟨rounds, rfl⟩ := Nat.exists_eq_add_one_of_ne_zero (Nat.ne_zero_of_lt hrounds)
    rw [hwalk]
    exact reading_of_phases N h
  · rw [hat] at harrive
    cases harrive
  · obtain rfl := Sum.inl.inj (harrive.symm.trans hat)
    obtain ⟨n, x, hx, hafter⟩ := hlookup rest e.cluster st r hne h
    refine ⟨n, fun rounds hrounds => ?_⟩
    obtain ⟨rounds, rfl⟩ := Nat.exists_eq_add_one_of_ne_zero (Nat.ne_zero_of_lt hrounds)
    rw [hwalk, hx]
    exact hafter rounds (Nat.le_of_lt_succ hrounds)

/-- A walk from what is no directory ends there. -/
theorem walk_blocked {path : Option (List UInt8)} {e : FatDirEntry} {st : FatState ω}
    {r : Int × (Nat → UInt8) × FatState ω} (harrive : arrive dest path e st = .inr r)
    (n : Nat) {rounds : Nat} (hrounds : 0 < rounds) :
    (pathLoop diskRead dev n rounds path e st).bind (finish diskRead dev dest n) = some r := by
  obtain ⟨rounds, rfl⟩ := Nat.exists_eq_add_one_of_ne_zero (Nat.ne_of_gt hrounds)
  obtain ⟨hat, -⟩ | ⟨r', hat, hwalk⟩ | ⟨rest, -, -, hat, -⟩ :=
    walk_cases diskRead dev dest path e st
  · rw [hat] at harrive
    cases harrive
  · obtain rfl := Sum.inr.inj (harrive.symm.trans hat)
    exact hwalk n rounds
  · rw [hat] at harrive
    cases harrive

theorem lookup_of_phases : ∀ N, LookupFollows diskRead dev dest N := by
  intro N
  induction N with
  | zero => intro rest c st r _ h; cases h
  | succ N ih =>
      intro rest c st r hne h
      cases hb : fileLookupBody diskRead dev (nameExtOf rest) (c, st) with
      | inl s' =>
          obtain ⟨c', st'⟩ := s'
          have hstep : fatStep diskRead dev dest (.looking rest c st) =
              .inl (.looking rest c' st') := by
            rw [fatStep, hb]
          rw [iterate_next hstep] at h
          obtain ⟨n, x, hx, hafter⟩ := ih rest c' st' r hne h
          exact ⟨n + 1, x, (iterate_next hb n).trans hx, fun rounds hrounds =>
            afterLookup_mono (hafter rounds hrounds) (Nat.le_succ n)⟩
      | inr res =>
          obtain ⟨code | e, st'⟩ := res
          · have hstep : fatStep diskRead dev dest (.looking rest c st) =
                .inr (code, dest, st') := by
              rw [fatStep, hb]
            rw [iterate_done hstep] at h
            exact ⟨1, _, iterate_done hb 0, fun _ _ => h⟩
          · have hstep : fatStep diskRead dev dest (.looking rest c st) =
                arrive dest ((strchr '/'.toUInt8 rest).map List.tail) e st' := by
              rw [fatStep, hb]
            have hshort := strchr_tail_length '/'.toUInt8 rest hne
            cases harrive : arrive dest ((strchr '/'.toUInt8 rest).map List.tail) e st' with
            | inl phase =>
                rw [iterate_next (hstep.trans harrive)] at h
                obtain ⟨n, hwalk⟩ := walk_of_phases ih harrive h
                exact ⟨n + 1, _, iterate_done hb n, fun rounds hrounds =>
                  walk_mono (hwalk rounds (by omega)) (Nat.le_succ n)⟩
            | inr r' =>
                rw [iterate_done (hstep.trans harrive)] at h
                obtain rfl := Option.some.inj h
                exact ⟨1, _, iterate_done hb 0, fun rounds hrounds =>
                  walk_blocked harrive 1 (by omega)⟩

/-- `fat_read` is its walk and what follows. -/
theorem fatRead_eq_walk (n : Nat) (path : Option (List UInt8)) (st : FatState ω) :
    fatRead diskRead dev n path dest st =
      (pathLoop diskRead dev n ((path.map List.length).getD 0 + 1) path (rootEntry dev) st).bind
        (finish diskRead dev dest n) := by
  rw [fatRead, fatPathLookup]
  generalize pathLoop diskRead dev n ((path.map List.length).getD 0 + 1) path (rootEntry dev) st =
    walk
  obtain _ | ⟨code | file, st'⟩ := walk
  · rfl
  · rfl
  · rfl

/-- **`fat_read` as one loop.** -/
theorem fatRead_of_phases {path : Option (List UInt8)} {st : FatState ω} {phase : Phase ω}
    (harrive : arrive dest path (rootEntry dev) st = .inl phase) {N : Nat}
    {r : Int × (Nat → UInt8) × FatState ω}
    (h : iterate (fatStep diskRead dev dest) N phase = some r) :
    ∃ n, fatRead diskRead dev n path dest st = some r := by
  obtain ⟨n, hwalk⟩ := walk_of_phases (lookup_of_phases N) harrive h
  refine ⟨n, ?_⟩
  rw [fatRead_eq_walk]
  exact hwalk _ (Nat.lt_succ_self _)

end Phases

/-! ## A disk with a script -/

/-- What `fat_read_sectors` asks for. -/
def FatDev.request (dev : FatDev) (lba count : Nat) : DiskRequest :=
  ⟨dev.abar, dev.port, u32 (dev.lba.toNat + lba), count⟩

/-- The phase of a place. -/
def Place.phase {ω : Type} (offset : Nat) (dest : Nat → UInt8) (st : FatState ω) :
    Place → Option (Phase ω)
  | .looking rest c => some (.looking rest c st)
  | .reading c => some (.reading ⟨c, offset, dest, st⟩)
  | .blocked => none

/-- Arriving at an entry is entering its place. -/
theorem arrive_of_phase {ω : Type} {dest : Nat → UInt8} {path : Option (List UInt8)}
    {e : FatDirEntry} {st : FatState ω} {phase : Phase ω}
    (h : (enter path e).phase 0 dest st = some phase) : arrive dest path e st = .inl phase := by
  unfold enter at h
  unfold arrive
  cases path with
  | none => exact congrArg Sum.inl (Option.some.inj h)
  | some path =>
      dsimp only at h ⊢
      by_cases hend : path.headD 0 = 0
      · rw [if_pos hend] at h ⊢
        exact congrArg Sum.inl (Option.some.inj h)
      · rw [if_neg hend] at h ⊢
        by_cases hdir : e.attributes &&& fatAttrDirectory = 0
        · rw [if_pos hdir] at h
          cases h
        · rw [if_neg hdir] at h ⊢
          exact congrArg Sum.inl (Option.some.inj h)

theorem Place.phase_exists {ω : Type} {place : Place} (h : place ≠ .blocked) (offset : Nat)
    (dest : Nat → UInt8) (st : FatState ω) : ∃ phase, place.phase offset dest st = some phase := by
  cases place with
  | looking rest c => exact ⟨_, rfl⟩
  | reading c => exact ⟨_, rfl⟩
  | blocked => exact absurd rfl h

/-- A disk that returns the codes of a script, then 0, and notes the requests. -/
def scripted : DiskRead (List Int × List DiskRequest) := fun w rq =>
  (w.1.headD 0, [], (w.1.tail, w.2 ++ [rq]))

/-- The state before the first call, on the disk with the script. -/
def scriptState (script : List Int) : FatState (List Int × List DiskRequest) :=
  ⟨(script, []), freshState.cache, freshState.buffer⟩

section Scripted

variable (image : DiskImage) {dev : FatDev} (target : List UInt8)

/-- A read that passes the check takes one code from the script. -/
theorem scripted_read {lba count : Nat} (hpass : u32 (lba + count) ≤ dev.sectors.toNat)
    (code : Int) (t : List Int) (log : List DiskRequest) :
    fatReadSectors (faulty scripted image) dev lba count (code :: t, log) =
      (code, if code = 0 then image.contents (dev.request lba count) else [],
        (t, log ++ [dev.request lba count])) := by
  rw [fatReadSectors_accepted hpass]
  rfl

theorem scripted_scanSector {lba : Nat} (hpass : u32 (lba + 1) ≤ dev.sectors.toNat)
    (cache : FatCache) (buffer : Nat → UInt8) (t : List Int) (log : List DiskRequest) :
    scanSector (faulty scripted image) dev target lba ⟨(0 :: t, log), cache, buffer⟩ =
      (scanList target (sectorEntries (image.contents (dev.request lba 1))),
        ⟨(t, log ++ [dev.request lba 1]), cache,
          patch buffer 0 (image.contents (dev.request lba 1))⟩) := by
  have hlen : (image.contents (dev.request lba 1)).length = 512 := by
    rw [FatDev.request, contents_one]
    exact image.length_eq _ _ _
  unfold scanSector
  rw [scripted_read image hpass]
  dsimp only
  rw [if_neg (fun hne => hne rfl), if_pos rfl, scanEntries_sector _ _ hlen]

theorem imageRead_scanSector {lba : Nat} (hpass : u32 (lba + 1) ≤ dev.sectors.toNat)
    (st : FatState Unit) : (scanSector (imageRead image) dev target lba st).1 =
      scanList target (sectorEntries (image.contents (dev.request lba 1))) := by
  have hlen : (image.contents (dev.request lba 1)).length = 512 := by
    rw [FatDev.request, contents_one]
    exact image.length_eq _ _ _
  unfold scanSector
  rw [fatReadSectors_accepted hpass]
  dsimp only [imageRead]
  rw [if_neg (fun hne => hne rfl)]
  dsimp only
  exact scanEntries_sector target st.buffer hlen

/-- **The sectors of a cluster** on the disk with a script that lets them be
read. -/
theorem scripted_scanSectors {lba : Nat} {r : Scan} (hr : ∀ code, r ≠ .stop code) :
    ∀ (count s : Nat) (st₀ : FatState Unit) (buffer : Nat → UInt8),
    (scanSectors (imageRead image) dev target lba count s st₀).1 = r →
    ∃ j log' buffer', ∀ t log cache,
      scanSectors (faulty scripted image) dev target lba count s
        ⟨(List.replicate j 0 ++ t, log), cache, buffer⟩ =
      (r, ⟨(t, log ++ log'), cache, buffer'⟩) := by
  intro count
  induction count with
  | zero =>
      intro s st₀ buffer h
      refine ⟨0, [], buffer, fun t log cache => ?_⟩
      rw [List.append_nil, ← h]
      rfl
  | succ count ih =>
      intro s st₀ buffer h
      by_cases hpass : u32 (u32 (lba + s) + 1) ≤ dev.sectors.toNat
      · have hone := imageRead_scanSector image target hpass st₀
        have hscan := scripted_scanSector image target hpass
        rw [scanSectors] at h
        generalize scanSector (imageRead image) dev target (u32 (lba + s)) st₀ = res at h hone
        obtain ⟨r₁, st₁⟩ := res
        dsimp only at hone
        rw [← hone] at hscan
        cases r₁ with
        | next =>
            obtain ⟨j, log', buffer', hrest⟩ := ih (s + 1) st₁
              (patch buffer 0 (image.contents (dev.request (u32 (lba + s)) 1))) h
            refine ⟨j + 1, dev.request (u32 (lba + s)) 1 :: log', buffer', fun t log cache => ?_⟩
            rw [List.replicate_succ, List.cons_append, scanSectors, hscan]
            dsimp only
            rw [hrest, List.append_assoc, List.singleton_append]
        | stop code => exact absurd h.symm (hr code)
        | found e =>
            refine ⟨1, [dev.request (u32 (lba + s)) 1],
              patch buffer 0 (image.contents (dev.request (u32 (lba + s)) 1)),
              fun t log cache => ?_⟩
            rw [List.replicate_one, List.singleton_append, scanSectors, hscan]
            dsimp only
            rw [← h]
      · -- a rejected sector stops the scan
        rw [scanSectors, scanSector, fatReadSectors_rejected (Nat.lt_of_not_le hpass)] at h
        exact absurd h.symm (hr (-1))

variable {image} {cache : FatCache}

/-- **The next cluster** on the disk with a script. -/
theorem scripted_next (hsound : cache.Sound dev image) {c : Nat} (hfat : dev.FatPasses c) :
    ∃ j log' cache', cache'.Sound dev image ∧ ∀ t log buffer,
      fatGetNextCluster (faulty scripted image) dev c
        ⟨(List.replicate j 0 ++ t, log), cache, buffer⟩ =
      (.ok (dev.link image c), ⟨(t, log ++ log'), cache', buffer⟩) := by
  cases hstale : fatCacheIsStale cache dev (c / 128) with
  | false =>
      refine ⟨0, [], cache, hsound, fun t log buffer => ?_⟩
      rw [← entryAt_eq_link hsound.coherent hstale, List.append_nil]
      unfold fatGetNextCluster
      dsimp only
      rw [if_neg (by rw [hstale]; decide)]
      rfl
  | true =>
      let bytes := image.contents (dev.request (u32 (dev.fat.toNat + c / 128)) 1)
      let cache' : FatCache := ⟨true, dev.abar, dev.port, dev.lba, dev.fat, dev.fatSectors, c / 128,
        patch cache.entry 0 bytes⟩
      have hrun : ∀ (t : List Int) (log : List DiskRequest) (buffer : Nat → UInt8),
          fatGetNextCluster (faulty scripted image) dev c ⟨(0 :: t, log), cache, buffer⟩ =
          (.ok (cache'.entryAt (c % 128)),
            ⟨(t, log ++ [dev.request (u32 (dev.fat.toNat + c / 128)) 1]), cache', buffer⟩) := by
        intro t log buffer
        have hfetch : fatCacheFetch (faulty scripted image) dev (c / 128)
            ⟨(0 :: t, log), cache, buffer⟩ = (0,
              ⟨(t, log ++ [dev.request (u32 (dev.fat.toNat + c / 128)) 1]), cache', buffer⟩) := by
          unfold fatCacheFetch
          dsimp only
          rw [scripted_read image hfat]
          rfl
        unfold fatGetNextCluster
        dsimp only
        rw [if_pos hstale, hfetch]
        rfl
      have hst : (FatState.mk (([0] : List Int), ([] : List DiskRequest)) cache
          fun _ => 0).cache.Sound dev image := hsound
      obtain ⟨hlink, -, hsound'⟩ := fatGetNextCluster_sound (faulty_honest scripted image) hst
        (hrun [] [] fun _ => 0)
      refine ⟨1, [dev.request (u32 (dev.fat.toNat + c / 128)) 1], cache', hsound',
        fun t log buffer => ?_⟩
      rw [List.replicate_one, List.singleton_append, hrun, hlink]

/-- **A round of a lookup** that goes on. -/
theorem scripted_look (hsound : cache.Sound dev image) {c : Nat} (hin : inChain c = true)
    (hscan : dev.scanCluster image target c = .next) (hfat : dev.FatPasses c)
    (buffer : Nat → UInt8) :
    ∃ j log' cache' buffer', cache'.Sound dev image ∧ ∀ t log,
      fileLookupBody (faulty scripted image) dev target
        (c, ⟨(List.replicate j 0 ++ t, log), cache, buffer⟩) =
      .inl (dev.link image c, ⟨(t, log ++ log'), cache', buffer'⟩) := by
  obtain ⟨j₁, log₁, buffer', hsectors⟩ := scripted_scanSectors image target
    (fun _ => Scan.noConfusion) _ _ _ buffer hscan
  obtain ⟨j₂, log₂, cache', hsound', hnext⟩ := scripted_next hsound hfat
  refine ⟨j₁ + j₂, log₁ ++ log₂, cache', buffer', hsound', fun t log => ?_⟩
  unfold fileLookupBody
  dsimp only
  rw [if_pos hin, ← List.replicate_append_replicate, List.append_assoc, hsectors]
  dsimp only
  rw [hnext, List.append_assoc]

/-- **A round of a lookup** that finds the entry. -/
theorem scripted_find {c : Nat} (hin : inChain c = true) {e : FatDirEntry}
    (hscan : dev.scanCluster image target c = .found e) (buffer : Nat → UInt8) :
    ∃ j log' buffer', ∀ t log cache,
      fileLookupBody (faulty scripted image) dev target
        (c, ⟨(List.replicate j 0 ++ t, log), cache, buffer⟩) =
      .inr (.ok e, ⟨(t, log ++ log'), cache, buffer'⟩) := by
  obtain ⟨j, log', buffer', hsectors⟩ := scripted_scanSectors image target
    (fun _ => Scan.noConfusion) _ _ _ buffer hscan
  refine ⟨j, log', buffer', fun t log cache => ?_⟩
  unfold fileLookupBody
  dsimp only
  rw [if_pos hin, hsectors]

/-- **A round of the file's loop.** -/
theorem scripted_readBody (hsound : cache.Sound dev image) {c : Nat} (hin : inChain c = true)
    (hreadable : dev.Readable c) (offset : Nat) (dest buffer : Nat → UInt8) :
    ∃ j log' cache' offset' dest', cache'.Sound dev image ∧ ∀ t log,
      fatReadBody (faulty scripted image) dev
        ⟨c, offset, dest, ⟨(List.replicate j 0 ++ t, log), cache, buffer⟩⟩ =
      .inl ⟨dev.link image c, offset', dest', ⟨(t, log ++ log'), cache', buffer⟩⟩ := by
  obtain ⟨j, log', cache', hsound', hnext⟩ := scripted_next hsound hreadable.fat
  refine ⟨j + 1, dev.request (clusterLba dev c) dev.sectorsPerCluster.toNat :: log', cache',
    offset + dev.sectorsPerCluster.toNat * 512,
    patch dest offset (image.contents (dev.request (clusterLba dev c)
      dev.sectorsPerCluster.toNat)), hsound', fun t log => ?_⟩
  unfold fatReadBody
  dsimp only
  rw [if_pos hin, List.replicate_succ, List.cons_append, scripted_read image hreadable.data]
  dsimp only
  rw [if_neg (fun hne => hne rfl), hnext, List.append_assoc, List.singleton_append, if_pos rfl]

end Scripted

end DevOS.Boot
