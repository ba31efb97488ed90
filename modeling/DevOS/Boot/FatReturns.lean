import DevOS.Boot.FatWay
import Mathlib.Dynamics.PeriodicPts.Defs
import Mathlib.Order.Preorder.Finite

/-!
# FAT32 — when `fat_read` returns

The two chain loops of the reader have no bound and no check for cycles: a loop
ends when a lookup finds its entry or the directory's end, when a read fails,
or when the FAT leads out of the clusters. The clusters are finitely many, so
`fat_read` returns unless it comes to a cycle of clusters none of which ends
the loop; and round such a cycle it goes for ever.
-/

namespace DevOS.Boot

open DevOS.Lib

/-! ## Cycles -/

/-- With reads that succeed `fat_read` goes on to the next cluster: the scan of
the directory's cluster has come to nothing, or the file's cluster is read. -/
def FatDev.GoesOn (dev : FatDev) (image : DiskImage) : Place → Prop
  | .looking rest c =>
      inChain c = true ∧ dev.scanCluster image (nameExtOf rest) c = .next ∧ dev.FatPasses c
  | .reading c => inChain c = true ∧ dev.Readable c
  | .blocked => False

/-- The place one cluster on along the FAT. -/
def FatDev.onward (dev : FatDev) (image : DiskImage) : Place → Place
  | .looking rest c => .looking rest (dev.link image c)
  | .reading c => .reading (dev.link image c)
  | .blocked => .blocked

/-- The FAT leads from the place back to it, and `fat_read` goes on from every
place on the cycle. -/
def FatDev.Cyclic (dev : FatDev) (image : DiskImage) (place : Place) : Prop :=
  ∃ n, 0 < n ∧ Function.IsPeriodicPt (dev.onward image) n place ∧
    ∀ k, k < n → dev.GoesOn image ((dev.onward image)^[k] place)

/-- How much of the path there is to look up yet. -/
def Place.rank : Place → Nat
  | .looking rest _ => rest.length + 1
  | .reading _ => 0
  | .blocked => 0

section Places

variable {dev : FatDev} {image : DiskImage}

@[simp] theorem rank_onward (place : Place) : (dev.onward image place).rank = place.rank := by
  cases place with
  | looking rest c => rfl
  | reading c => rfl
  | blocked => rfl

/-- What is left of the path when an entry is found is less. -/
theorem rank_enter (rest : List UInt8) (c : Nat) (e : FatDirEntry) :
    (enter ((strchr '/'.toUInt8 rest).map List.tail) e).rank < (Place.looking rest c).rank := by
  have hshort : ∀ path, (strchr '/'.toUInt8 rest).map List.tail = some path →
      path.length < rest.length := by
    intro path hpath
    have hne : rest ≠ [] := by
      rintro rfl
      cases hpath
    have hlen := strchr_tail_length '/'.toUInt8 rest hne
    rw [hpath] at hlen
    exact hlen
  cases hpath : (strchr '/'.toUInt8 rest).map List.tail with
  | none => exact Nat.succ_pos _
  | some path =>
      unfold enter
      dsimp only
      split
      · exact Nat.succ_pos _
      · split
        · exact Nat.succ_pos _
        · exact Nat.succ_lt_succ (hshort path hpath)

theorem onward_iterate_looking (rest : List UInt8) (k : Nat) : ∀ (c : Nat),
    (dev.onward image)^[k] (.looking rest c) = .looking rest ((dev.link image)^[k] c) := by
  induction k with
  | zero => intro c; rfl
  | succ k ih => intro c; exact ih (dev.link image c)

theorem onward_iterate_reading (k : Nat) : ∀ (c : Nat),
    (dev.onward image)^[k] (.reading c) = .reading ((dev.link image)^[k] c) := by
  induction k with
  | zero => intro c; rfl
  | succ k ih => intro c; exact ih (dev.link image c)

/-- On a cycle `fat_read` goes on for ever. -/
theorem FatDev.Cyclic.goesOn {place : Place} (h : dev.Cyclic image place) (k : Nat) :
    dev.GoesOn image ((dev.onward image)^[k] place) := by
  obtain ⟨n, hn, hperiod, hgoes⟩ := h
  rw [← hperiod.iterate_mod_apply k]
  exact hgoes _ (Nat.mod_lt k hn)

/-- **The pigeonhole**: the places from which `fat_read` goes on for ever come to
a cycle. -/
theorem cyclic_of_goesOn {place : Place}
    (hgoes : ∀ k, dev.GoesOn image ((dev.onward image)^[k] place)) :
    ∃ k, dev.Cyclic image ((dev.onward image)^[k] place) := by
  -- there are finitely many clusters to be at
  have hfinite : ∃ t : Set Place, t.Finite ∧ ∀ k, (dev.onward image)^[k] place ∈ t := by
    cases place with
    | looking rest c =>
        refine ⟨Place.looking rest '' {c | c < 0x0FFFFFF8}, (Set.finite_lt_nat _).image _,
          fun k => ?_⟩
        have hk := hgoes k
        rw [onward_iterate_looking] at hk ⊢
        exact Set.mem_image_of_mem _ (inChain_iff.mp hk.1).2
    | reading c =>
        refine ⟨Place.reading '' {c | c < 0x0FFFFFF8}, (Set.finite_lt_nat _).image _,
          fun k => ?_⟩
        have hk := hgoes k
        rw [onward_iterate_reading] at hk ⊢
        exact Set.mem_image_of_mem _ (inChain_iff.mp hk.1).2
    | blocked => exact absurd (hgoes 0) id
  obtain ⟨t, ht, hmem⟩ := hfinite
  obtain ⟨i, j, hij, heq⟩ := Set.Finite.exists_lt_map_eq_of_forall_mem hmem ht
  refine ⟨i, j - i, Nat.sub_pos_of_lt hij, ?_, fun k _ => ?_⟩
  · rw [Function.IsPeriodicPt, Function.IsFixedPt, ← Function.iterate_add_apply,
      Nat.sub_add_cancel (Nat.le_of_lt hij)]
    exact heq.symm
  · rw [← Function.iterate_add_apply]
    exact hgoes _

/-- `fat_read` comes to the next place from one where it goes on. -/
theorem Comes.onward {path : Option (List UInt8)} {place : Place}
    (h : Comes dev image path place) (hgoes : dev.GoesOn image place) :
    Comes dev image path (dev.onward image place) := by
  cases place with
  | looking rest c => exact h.look hgoes.1 hgoes.2.1 hgoes.2.2
  | reading c => exact h.read hgoes.1 hgoes.2
  | blocked => exact absurd hgoes id

/-- Without a cycle on the way, every chain on it is left. -/
theorem Comes.leaves {path : Option (List UInt8)}
    (hacyclic : ∀ place, Comes dev image path place → ¬ dev.Cyclic image place) {place : Place}
    (h : Comes dev image path place) :
    ∃ k, ¬ dev.GoesOn image ((dev.onward image)^[k] place) := by
  by_contra hno
  have hgoes : ∀ k, dev.GoesOn image ((dev.onward image)^[k] place) := fun k =>
    not_not.mp fun hk => hno ⟨k, hk⟩
  have hcomes : ∀ k, Comes dev image path ((dev.onward image)^[k] place) := by
    intro k
    induction k with
    | zero => exact h
    | succ k ih =>
        rw [Function.iterate_succ_apply']
        exact ih.onward (hgoes k)
  obtain ⟨k, hcyclic⟩ := cyclic_of_goesOn hgoes
  exact hacyclic _ (hcomes k) hcyclic

end Places

/-! ## Runs that return -/

section Returning

variable {ω : Type} {diskRead : DiskRead ω} {image : DiskImage} {dev : FatDev}
  {dest : Nat → UInt8} {path : Option (List UInt8)}

/-- **A round** ends the run, goes on to the next cluster, or takes up an entry
with less of the path. -/
theorem fatStep_cases (dest : Nat → UInt8) (hhonest : Honest diskRead image) {phase : Phase ω}
    (hcomes : Comes dev image path phase.place) (hsound : phase.state.cache.Sound dev image) :
    (∃ r, fatStep diskRead dev dest phase = .inr r) ∨
    ∃ phase', fatStep diskRead dev dest phase = .inl phase' ∧
      Comes dev image path phase'.place ∧ phase'.state.cache.Sound dev image ∧
      (dev.GoesOn image phase.place ∧ phase'.place = dev.onward image phase.place ∨
        phase'.place.rank < phase.place.rank) := by
  cases phase with
  | looking rest c st =>
      rw [fatStep]
      cases hb : fileLookupBody diskRead dev (nameExtOf rest) (c, st) with
      | inl s' =>
          obtain ⟨c', st'⟩ := s'
          obtain ⟨hin, hscan, hfat, rfl, hsound'⟩ := fileLookupBody_goes hhonest hsound hb
          exact .inr ⟨_, rfl, Comes.look hcomes hin hscan hfat, hsound',
            .inl ⟨⟨hin, hscan, hfat⟩, rfl⟩⟩
      | inr res =>
          obtain ⟨code | e, st'⟩ := res
          · exact .inl ⟨_, rfl⟩
          · obtain ⟨hin, hscan, hcache⟩ := fileLookupBody_finds hhonest hb
            dsimp only
            cases harrive : arrive dest ((strchr '/'.toUInt8 rest).map List.tail) e st' with
            | inr r => exact .inl ⟨r, rfl⟩
            | inl phase' =>
                obtain ⟨hplace, hstate⟩ := arrive_inl harrive
                refine .inr ⟨phase', rfl, ?_, ?_, .inr ?_⟩
                · rw [hplace]
                  exact Comes.find hcomes hin hscan
                · rw [hstate, hcache]
                  exact hsound
                · rw [hplace]
                  exact rank_enter rest c e
  | reading s =>
      rw [fatStep]
      cases hin : inChain s.cluster with
      | false =>
          rw [fatReadBody_out _ _ hin]
          exact .inl ⟨_, rfl⟩
      | true =>
          obtain ⟨code, d, t, -, hbody⟩ | ⟨hreadable, s', hbody, hlink, hsound'⟩ :=
            fatReadBody_cases hhonest hin hsound
          · rw [hbody]
            exact .inl ⟨_, rfl⟩
          · rw [hbody]
            have hplace : (Phase.reading s').place =
                dev.onward image (Phase.reading s).place := congrArg Place.reading hlink
            refine .inr ⟨_, rfl, ?_, hsound', .inl ⟨⟨hin, hreadable⟩, hplace⟩⟩
            rw [hplace]
            exact Comes.onward hcomes ⟨hin, hreadable⟩

/-- **The phases return** from a place on a way without cycles. -/
theorem phases_return (dest : Nat → UInt8) (hhonest : Honest diskRead image)
    (hacyclic : ∀ place, Comes dev image path place → ¬ dev.Cyclic image place) : ∀ (bound : Nat)
    {phase : Phase ω}, phase.place.rank < bound → Comes dev image path phase.place →
    phase.state.cache.Sound dev image →
    ∃ N r, iterate (fatStep diskRead dev dest) N phase = some r := by
  intro bound
  induction bound with
  | zero => intro phase hrank; exact absurd hrank (Nat.not_lt_zero _)
  | succ bound ih =>
      intro phase hrank hcomes hsound
      -- as long as the path stays, induct on how soon its chain is left
      obtain ⟨k, hleaves⟩ := hcomes.leaves hacyclic
      induction k generalizing phase with
      | zero =>
          obtain ⟨r, hstep⟩ | ⟨phase', hstep, hcomes', hsound', ⟨hgoes, -⟩ | hless⟩ :=
            fatStep_cases dest hhonest hcomes hsound
          · exact ⟨1, r, iterate_done hstep 0⟩
          · exact absurd hgoes hleaves
          · obtain ⟨N, r, hN⟩ := ih (by omega) hcomes' hsound'
            exact ⟨N + 1, r, (iterate_next hstep N).trans hN⟩
      | succ k ihk =>
          obtain ⟨r, hstep⟩ | ⟨phase', hstep, hcomes', hsound', ⟨-, hplace⟩ | hless⟩ :=
            fatStep_cases dest hhonest hcomes hsound
          · exact ⟨1, r, iterate_done hstep 0⟩
          · have hrank' : phase'.place.rank < bound + 1 := by
              rw [hplace, rank_onward]
              exact hrank
            rw [Function.iterate_succ_apply, ← hplace] at hleaves
            obtain ⟨N, r, hN⟩ := ihk hrank' hcomes' hsound' hleaves
            exact ⟨N + 1, r, (iterate_next hstep N).trans hN⟩
          · obtain ⟨N, r, hN⟩ := ih (by omega) hcomes' hsound'
            exact ⟨N + 1, r, (iterate_next hstep N).trans hN⟩

/-! ## Runs that do not -/

/-- What the file's loop comes to, its phases come to. -/
theorem phases_of_reading (dest : Nat → UInt8) {n : Nat} {s : ReadState ω}
    {r : Int × (Nat → UInt8) × FatState ω} (h : iterate (fatReadBody diskRead dev) n s = some r) :
    ∃ N, iterate (fatStep diskRead dev dest) N (.reading s) = some r := by
  obtain ⟨s', hrounds, hend⟩ := Rounds.of_iterate h
  have hphases : Rounds (fatStep diskRead dev dest) (.reading s) (.reading s') :=
    hrounds.map fun {s₁ s₂} hb => by rw [fatStep, hb]
  have hlast : fatStep diskRead dev dest (.reading s') = .inr r := by
    rw [fatStep, hend]
  exact hphases.result (iterate_done hlast 0)

/-- What a lookup comes to, its phases come to in a last round. -/
theorem phases_of_lookup (dest : Nat → UInt8) {rest : List UInt8} {n c : Nat} {st : FatState ω}
    {x : Except Int FatDirEntry × FatState ω}
    (h : iterate (fileLookupBody diskRead dev (nameExtOf rest)) n (c, st) = some x) :
    ∃ c' st', Rounds (fatStep diskRead dev dest) (.looking rest c st) (.looking rest c' st') ∧
      fileLookupBody diskRead dev (nameExtOf rest) (c', st') = .inr x := by
  obtain ⟨s', hrounds, hend⟩ := Rounds.of_iterate h
  have hphases : Rounds (fatStep diskRead dev dest) (.looking rest c st)
      (.looking rest s'.1 s'.2) :=
    hrounds.map (f := fun s => Phase.looking rest s.1 s.2) fun {s₁ s₂} hb => by rw [fatStep, hb]
  exact ⟨s'.1, s'.2, hphases, hend⟩

/-- **What a walk and the file's loop come to, the phases come to.** -/
theorem phases_of_walk {n : Nat} : ∀ (rounds : Nat) {path : Option (List UInt8)}
    {e : FatDirEntry} {st : FatState ω} {phase : Phase ω}
    {r : Int × (Nat → UInt8) × FatState ω}, (path.map List.length).getD 0 < rounds →
    arrive dest path e st = .inl phase →
    (pathLoop diskRead dev n rounds path e st).bind (finish diskRead dev dest n) = some r →
    ∃ N, iterate (fatStep diskRead dev dest) N phase = some r := by
  intro rounds
  induction rounds with
  | zero => intro path e st phase r hlen; exact absurd hlen (Nat.not_lt_zero _)
  | succ rounds ih =>
      intro path e st phase r hlen harrive h
      obtain ⟨hat, hwalk⟩ | ⟨r', hat, -⟩ | ⟨rest, rfl, hne, hat, hwalk⟩ :=
        walk_cases diskRead dev dest path e st
      · obtain rfl := Sum.inl.inj (harrive.symm.trans hat)
        rw [hwalk] at h
        exact phases_of_reading dest h
      · rw [hat] at harrive
        cases harrive
      · obtain rfl := Sum.inl.inj (harrive.symm.trans hat)
        rw [hwalk] at h
        obtain ⟨x, hlookup, hafter⟩ := Option.bind_eq_some_iff.mp h
        obtain ⟨c, st₁, hphases, hlast⟩ := phases_of_lookup dest hlookup
        obtain ⟨code | e', st'⟩ := x
        · have hstop : fatStep diskRead dev dest (.looking rest c st₁) =
              .inr (code, dest, st') := by
            rw [fatStep, hlast]
          obtain rfl := Option.some.inj hafter
          exact hphases.result (iterate_done hstop 0)
        · have hfound : fatStep diskRead dev dest (.looking rest c st₁) =
              arrive dest ((strchr '/'.toUInt8 rest).map List.tail) e' st' := by
            rw [fatStep, hlast]
          have hshort := strchr_tail_length '/'.toUInt8 rest hne
          have hlen' : rest.length < rounds + 1 := hlen
          have hrounds : 0 < rounds := by omega
          cases hnext : arrive dest ((strchr '/'.toUInt8 rest).map List.tail) e' st' with
          | inl phase' =>
              obtain ⟨N, hN⟩ := ih (by omega) hnext hafter
              exact hphases.result ((iterate_next (hfound.trans hnext) N).trans hN)
          | inr r' =>
              obtain rfl := Option.some.inj ((walk_blocked hnext n hrounds).symm.trans hafter)
              exact hphases.result (iterate_done (hfound.trans hnext) 0)

end Returning

section Diverging

variable {image : DiskImage} {dev : FatDev} {dest : Nat → UInt8} {path : Option (List UInt8)}

/-- From the place, a run on the disk that serves every request does not end. -/
def Endless (dev : FatDev) (image : DiskImage) (dest : Nat → UInt8) (place : Place) : Prop :=
  place ≠ .blocked ∧ ∀ (phase : Phase Unit), phase.place = place →
    phase.state.cache.Sound dev image →
    ∀ N, iterate (fatStep (imageRead image) dev dest) N phase = none

/-- A scan from any state comes to what the image shows. -/
theorem scanSectors_served {target : List UInt8} {c : Nat} {r : Scan}
    (hscan : dev.scanCluster image target c = r) (hr : ∀ code, r ≠ .stop code)
    (st : FatState Unit) : ∃ st', scanSectors (imageRead image) dev target (clusterLba dev c)
      dev.sectorsPerCluster.toNat 0 st = (r, st') ∧ st'.cache = st.cache := by
  have hkeep := scanSectors_cache (imageRead image) dev target (clusterLba dev c)
    dev.sectorsPerCluster.toNat 0 st
  have hsame := scanSectors_honest (imageRead_honest image) _ 0
    (Prod.ext hscan rfl : scanSectors (imageRead image) dev target (clusterLba dev c)
      dev.sectorsPerCluster.toNat 0 freshState = (r, _)) hr st
  exact ⟨_, Prod.ext hsame rfl, hkeep⟩

/-- **A round where `fat_read` goes on**, on the disk that serves every
request. -/
theorem fatStep_goes (dest : Nat → UInt8) {phase : Phase Unit}
    (hgoes : dev.GoesOn image phase.place) (hsound : phase.state.cache.Sound dev image) :
    ∃ phase', fatStep (imageRead image) dev dest phase = .inl phase' ∧
      phase'.place = dev.onward image phase.place ∧ phase'.state.cache.Sound dev image := by
  cases phase with
  | looking rest c st =>
      obtain ⟨hin, hscan, hfat⟩ := hgoes
      obtain ⟨st₁, hsectors, hcache⟩ := scanSectors_served hscan (fun _ => Scan.noConfusion) st
      obtain ⟨next, st₂, hnext⟩ : ∃ next st₂,
          fatGetNextCluster (imageRead image) dev c st₁ = (.ok next, st₂) :=
        fatGetNextCluster_served hfat st₁
      have hbody : fileLookupBody (imageRead image) dev (nameExtOf rest) (c, st) =
          .inl (next, st₂) := by
        unfold fileLookupBody
        dsimp only
        rw [if_pos hin, hsectors]
        dsimp only
        rw [hnext]
      obtain ⟨-, -, -, rfl, hsound'⟩ :=
        fileLookupBody_goes (imageRead_honest image) hsound hbody
      refine ⟨.looking rest (dev.link image c) st₂, ?_, rfl, hsound'⟩
      rw [fatStep, hbody]
  | reading s =>
      obtain ⟨hin, hreadable⟩ := hgoes
      obtain ⟨code, d, t, -, hstop⟩ | ⟨-, s', hbody, hlink, hsound'⟩ :=
        fatReadBody_cases (imageRead_honest image) hin hsound
      · obtain ⟨s', hbody⟩ : ∃ s', fatReadBody (imageRead image) dev s = .inl s' :=
          fatReadBody_readable hin hreadable
        rw [hstop] at hbody
        cases hbody
      · refine ⟨.reading s', ?_, congrArg Place.reading hlink, hsound'⟩
        rw [fatStep, hbody]

/-- **On a cycle** the run goes round for ever. -/
theorem FatDev.Cyclic.endless {place : Place} (h : dev.Cyclic image place)
    (dest : Nat → UInt8) : Endless dev image dest place := by
  refine ⟨?_, fun phase hplace hsound N => ?_⟩
  · rintro rfl
    exact h.goesOn 0
  · refine iterate_diverges (I := fun phase : Phase Unit =>
      phase.state.cache.Sound dev image ∧ ∃ k, phase.place = (dev.onward image)^[k] place) ?_ N
      ⟨hsound, 0, hplace⟩
    rintro phase₁ ⟨hsound₁, k, hk⟩
    have hgoes : dev.GoesOn image phase₁.place := by
      rw [hk]
      exact h.goesOn k
    obtain ⟨phase₂, hstep, hplace₂, hsound₂⟩ := fatStep_goes dest hgoes hsound₁
    refine ⟨phase₂, hstep, hsound₂, k + 1, ?_⟩
    rw [hplace₂, hk, Function.iterate_succ_apply']

/-- A run that goes on to a place from which it does not end, does not end. -/
theorem Endless.of_onward {place : Place} (hgoes : dev.GoesOn image place)
    (h : Endless dev image dest (dev.onward image place)) : Endless dev image dest place := by
  refine ⟨?_, fun phase hplace hsound N => ?_⟩
  · rintro rfl
    exact hgoes
  · rw [← hplace] at hgoes
    obtain ⟨phase', hstep, hplace', hsound'⟩ := fatStep_goes dest hgoes hsound
    rw [hplace] at hplace'
    cases N with
    | zero => rfl
    | succ N =>
        rw [iterate_next hstep]
        exact h.2 phase' hplace' hsound' N

/-- A run that finds the entry of such a place does not end either. -/
theorem Endless.of_found {rest : List UInt8} {c : Nat} {e : FatDirEntry}
    (hin : inChain c = true) (hscan : dev.scanCluster image (nameExtOf rest) c = .found e)
    (h : Endless dev image dest (enter ((strchr '/'.toUInt8 rest).map List.tail) e)) :
    Endless dev image dest (.looking rest c) := by
  refine ⟨Place.noConfusion, fun phase hplace hsound N => ?_⟩
  cases phase with
  | reading s => cases hplace
  | looking rest' c' st =>
      obtain ⟨rfl, rfl⟩ := Place.looking.inj hplace
      obtain ⟨st', hsectors, hcache⟩ := scanSectors_served hscan (fun _ => Scan.noConfusion) st
      have hbody : fileLookupBody (imageRead image) dev (nameExtOf rest') (c', st) =
          .inr (.ok e, st') := by
        unfold fileLookupBody
        dsimp only
        rw [if_pos hin, hsectors]
      have hstep : fatStep (imageRead image) dev dest (.looking rest' c' st) =
          arrive dest ((strchr '/'.toUInt8 rest').map List.tail) e st' := by
        rw [fatStep, hbody]
      obtain ⟨phase', hphase'⟩ := Place.phase_exists h.1 0 dest st'
      have harrive := arrive_of_phase hphase'
      obtain ⟨hplace', hstate'⟩ := arrive_inl harrive
      cases N with
      | zero => rfl
      | succ N =>
          rw [iterate_next (hstep.trans harrive)]
          refine h.2 phase' hplace' ?_ N
          rw [hstate', hcache]
          exact hsound

/-- A run that comes to a place from which it does not end, does not end. -/
theorem Endless.before {place : Place} (hcomes : Comes dev image path place)
    (h : Endless dev image dest place) : Endless dev image dest (enter path (rootEntry dev)) := by
  induction hcomes with
  | start => exact h
  | look hcomes hin hscan hfat ih => exact ih (.of_onward ⟨hin, hscan, hfat⟩ h)
  | find hcomes hin hscan ih => exact ih (.of_found hin hscan h)
  | read hcomes hin hreadable ih => exact ih (.of_onward ⟨hin, hreadable⟩ h)

/-- **`fat_read` does not return** where it comes to a cycle, when every read
succeeds. -/
theorem fatRead_diverges {place : Place} (hcomes : Comes dev image path place)
    (hcyclic : dev.Cyclic image place) {st : FatState Unit} (hsound : st.cache.Sound dev image)
    (n : Nat) : fatRead (imageRead image) dev n path dest st = none := by
  have hendless := Endless.before hcomes (hcyclic.endless dest)
  obtain ⟨phase, hphase⟩ := Place.phase_exists hendless.1 0 dest st
  have harrive := arrive_of_phase hphase
  obtain ⟨hplace, hstate⟩ := arrive_inl harrive
  cases hread : fatRead (imageRead image) dev n path dest st with
  | none => rfl
  | some r =>
      rw [fatRead_eq_walk] at hread
      obtain ⟨N, hN⟩ := phases_of_walk _ (Nat.lt_succ_self _) harrive hread
      rw [hendless.2 phase hplace (by rw [hstate]; exact hsound) N] at hN
      cases hN

end Diverging

/-- `fat_read` returns for the path, whichever reads fail and whatever sector of
the FAT is in the cache. -/
def Returns (dev : FatDev) (image : DiskImage) (path : Option (List UInt8)) : Prop :=
  ∀ (ω : Type) (diskRead : DiskRead ω), Honest diskRead image →
    ∀ (st : FatState ω) (dest : Nat → UInt8), st.cache.Sound dev image →
    ∃ fuel r, ∀ n, fuel ≤ n → fatRead diskRead dev n path dest st = some r

/-- **`fat_read` returns** exactly for the paths on whose way there is no
cycle. -/
theorem fat_read_returns_iff (dev : FatDev) (image : DiskImage) (path : Option (List UInt8)) :
    Returns dev image path ↔
      ∀ place, Comes dev image path place → ¬ dev.Cyclic image place := by
  constructor
  · intro h place hcomes hcyclic
    have hsound : freshState.cache.Sound dev image := .empty rfl dev image
    obtain ⟨fuel, r, hread⟩ := h Unit (imageRead image) (imageRead_honest image) freshState
      (fun _ => 0) hsound
    have hfuel := hread fuel (Nat.le_refl _)
    rw [fatRead_diverges hcomes hcyclic hsound] at hfuel
    cases hfuel
  · intro hacyclic ω diskRead hhonest st dest hsound
    obtain ⟨n, r, hread⟩ : ∃ n r, fatRead diskRead dev n path dest st = some r := by
      cases harrive : arrive dest path (rootEntry dev) st with
      | inl phase =>
          obtain ⟨hplace, hstate⟩ := arrive_inl harrive
          obtain ⟨N, r, hN⟩ := phases_return dest hhonest hacyclic _
            (Nat.lt_succ_self phase.place.rank) (by rw [hplace]; exact .start)
            (by rw [hstate]; exact hsound)
          obtain ⟨n, hn⟩ := fatRead_of_phases harrive hN
          exact ⟨n, r, hn⟩
      | inr r =>
          refine ⟨0, r, ?_⟩
          rw [fatRead_eq_walk]
          exact walk_blocked harrive 0 (Nat.succ_pos _)
    exact ⟨n, r, fun m hm => fatRead_mono hread hm⟩

/-- `sampleImage` with the FAT entry of the file's first cluster made its own
number. -/
def cyclicImage : DiskImage := paddedImage fun
  | 1 => [0xF8, 0xFF, 0xFF, 0x0F, 0xFF, 0xFF, 0xFF, 0x0F, 0xF8, 0xFF, 0xFF, 0x0F,
      0, 0, 0, 0, 0, 0, 0, 0, 5, 0, 0, 0]
  | lba => sampleSector lba

set_option maxRecDepth 4000 in
/-- A file whose only cluster is linked to itself: `fat_read` never returns. -/
theorem fat_read_cyclic_diverges : ¬ ∃ fuel r,
    fatRead (imageRead cyclicImage) sampleDev fuel (some ['a'.toUInt8])
      (fun _ => 0) ⟨(), sampleCache, fun _ => 0⟩ = some r := by
  have hscan : sampleDev.scanCluster cyclicImage (nameExtOf ['a'.toUInt8]) 2 =
      .found ⟨sampleName, 0x20, 0, 5⟩ := rfl
  have hcomes : Comes sampleDev cyclicImage (some ['a'.toUInt8]) (.reading 5) :=
    Comes.find .start (by decide) hscan
  have hlink : sampleDev.link cyclicImage 5 = 5 := by decide
  have hcyclic : sampleDev.Cyclic cyclicImage (.reading 5) := by
    refine ⟨1, Nat.one_pos, congrArg Place.reading hlink, fun k hk => ?_⟩
    obtain rfl := Nat.lt_one_iff.mp hk
    exact ⟨by decide, by decide, by decide⟩
  rintro ⟨n, r, hr⟩
  rw [fatRead_diverges hcomes hcyclic (.empty rfl _ _)] at hr
  cases hr

end DevOS.Boot
