import DevOS.Boot.FatLookup

/-!
# FAT32 — walking a path

`fat_path_lookup` against the lookup of a path's components one after the
other. The converter of names and the walker find the same ends of components,
so without a leading `/` the walk is that fold. With one, the converter skips
it but `strchr` stops at it: the first component is looked up twice.
-/

namespace DevOS.Boot

open DevOS.Lib

/-! ## Components -/

/-- A component of a path. -/
structure Component where
  bytes : List UInt8
  nonempty : bytes ≠ []
  noSlash : '/'.toUInt8 ∉ bytes
  noNul : (0 : UInt8) ∉ bytes

/-- Components joined by `/`. -/
def joinPath : List Component → List UInt8
  | [] => []
  | [c] => c.bytes
  | c :: d :: cs => c.bytes ++ '/'.toUInt8 :: joinPath (d :: cs)

/-- The 11 bytes a name is looked up by. -/
def nameExtOf (shortName : List UInt8) : List UInt8 :=
  (List.range 11).map (fatShortNameToNameExt shortName fun _ => 0)

def Component.name (c : Component) : List UInt8 := nameExtOf c.bytes

/-- Look up names one after the other, each in the entry found before. -/
def lookupAll {ω : Type} (diskRead : DiskRead ω) (dev : FatDev) (fuel : Nat) :
    (names : List (List UInt8)) → FatDirEntry → FatState ω →
    Option (Except Int FatDirEntry × FatState ω)
  | [], entry, st => some (.ok entry, st)
  | name :: names, entry, st =>
      match fatFileLookup diskRead dev fuel entry name st with
      | none => none
      | some (.error code, st) => some (.error code, st)
      | some (.ok entry, st) => lookupAll diskRead dev fuel names entry st

/-! ## Names -/

/-- The converter ends a name at a `/`. -/
theorem shortNameLoop_slash (rest : List UInt8) : ∀ (xs : List UInt8) (i : Nat)
    (nameExt : Nat → UInt8), '/'.toUInt8 ∉ xs →
    shortNameLoop (xs ++ '/'.toUInt8 :: rest) i nameExt = shortNameLoop xs i nameExt := by
  intro xs
  induction xs with
  | nil =>
      intro i nameExt _
      rw [List.nil_append, shortNameLoop, shortNameLoop, if_pos (Or.inl rfl), ite_self]
  | cons x xs ih =>
      intro i nameExt hno
      have htail : '/'.toUInt8 ∉ xs := fun h => hno (List.mem_cons_of_mem _ h)
      rw [List.cons_append, shortNameLoop, shortNameLoop, ih _ _ htail, ih _ _ htail]

theorem Component.head_ne (c : Component) (rest : List UInt8) :
    (c.bytes ++ rest).head? ≠ some '/'.toUInt8 ∧ (c.bytes ++ rest).headD 0 ≠ 0 := by
  obtain ⟨bytes, hne, hslash, hnul⟩ := c
  cases bytes with
  | nil => exact absurd rfl hne
  | cons b bytes =>
      constructor
      · rintro h
        obtain rfl := Option.some.inj h
        exact hslash List.mem_cons_self
      · intro h
        exact hnul (h ▸ List.mem_cons_self)

/-- The 11 bytes when the loop of the converter has ended: filled up with
spaces. -/
def paddedName (r : Nat × (Nat → UInt8)) : List UInt8 :=
  (List.range 11).map (patch r.2 r.1 (List.replicate (11 - r.1) ' '.toUInt8))

theorem nameExtOf_eq {xs : List UInt8} (h : xs.head? ≠ some '/'.toUInt8) :
    nameExtOf xs = paddedName (shortNameLoop xs 0 fun _ => 0) := by
  unfold nameExtOf fatShortNameToNameExt
  rw [if_neg h]
  rfl

/-- A leading `/` is skipped. -/
theorem nameExtOf_leading (xs : List UInt8) :
    nameExtOf ('/'.toUInt8 :: xs) = paddedName (shortNameLoop xs 0 fun _ => 0) := rfl

theorem Component.name_eq (c : Component) :
    c.name = paddedName (shortNameLoop c.bytes 0 fun _ => 0) := by
  have hhead := (c.head_ne []).1
  rw [List.append_nil] at hhead
  exact nameExtOf_eq hhead

/-- **The converter and the components**: a path that starts with a component
before a `/` is converted as the component. -/
theorem nameExtOf_slash (c : Component) (rest : List UInt8) :
    nameExtOf (c.bytes ++ '/'.toUInt8 :: rest) = c.name := by
  rw [nameExtOf_eq (c.head_ne _).1, shortNameLoop_slash _ _ _ _ c.noSlash, c.name_eq]

/-- `strchr` finds the end of a component. -/
theorem strchr_slash (rest : List UInt8) : ∀ (xs : List UInt8), '/'.toUInt8 ∉ xs →
    (0 : UInt8) ∉ xs → strchr '/'.toUInt8 (xs ++ '/'.toUInt8 :: rest) =
      some ('/'.toUInt8 :: rest) := by
  intro xs
  induction xs with
  | nil =>
      intro _ _
      rw [List.nil_append, strchr, if_neg (by decide), if_pos rfl]
  | cons x xs ih =>
      intro hslash hnul
      have hx : x ≠ 0 := fun h => hnul (h ▸ List.mem_cons_self)
      have hx' : x ≠ '/'.toUInt8 := fun h => hslash (h ▸ List.mem_cons_self)
      rw [List.cons_append, strchr, if_neg hx, if_neg hx']
      exact ih (fun h => hslash (List.mem_cons_of_mem _ h)) fun h =>
        hnul (List.mem_cons_of_mem _ h)

theorem strchr_none : ∀ (xs : List UInt8), '/'.toUInt8 ∉ xs → strchr '/'.toUInt8 xs = none := by
  intro xs
  induction xs with
  | nil => intro _; rfl
  | cons x xs ih =>
      intro hslash
      have hx : x ≠ '/'.toUInt8 := fun h => hslash (h ▸ List.mem_cons_self)
      rw [strchr, if_neg hx, ih fun h => hslash (List.mem_cons_of_mem _ h), ite_self]

/-! ## The walk -/

section Walk

variable {ω : Type} {diskRead : DiskRead ω} {dev : FatDev} {fuel : Nat}

/-- A round of the walk on a path that does not start with its terminator. -/
theorem pathLoop_succ {path : List UInt8} (hpath : path.headD 0 ≠ 0) (rounds : Nat)
    (entry : FatDirEntry) (st : FatState ω) :
    pathLoop diskRead dev fuel (rounds + 1) (some path) entry st =
      match fatFileLookup diskRead dev fuel entry (nameExtOf path) st with
      | none => none
      | some (.error code, st) => some (.error code, st)
      | some (.ok entry, st) => pathLoop diskRead dev fuel rounds
          ((strchr '/'.toUInt8 path).map List.tail) entry st := by
  rw [pathLoop]
  dsimp only
  rw [if_neg hpath]
  rfl

theorem pathLoop_none (rounds : Nat) (entry : FatDirEntry) (st : FatState ω) :
    pathLoop diskRead dev fuel rounds none entry st = some (.ok entry, st) := by
  cases rounds <;> rfl

/-- **The walk** of a joined path looks up its components one after the
other. -/
theorem pathLoop_join : ∀ (cs : List Component) (rounds : Nat) (entry : FatDirEntry)
    (st : FatState ω), cs.length < rounds →
    pathLoop diskRead dev fuel rounds (some (joinPath cs)) entry st =
      lookupAll diskRead dev fuel (cs.map Component.name) entry st := by
  intro cs
  induction cs with
  | nil =>
      intro rounds entry st hrounds
      obtain ⟨rounds, rfl⟩ : ∃ m, rounds = m + 1 := ⟨rounds - 1, by omega⟩
      rfl
  | cons c cs ih =>
      intro rounds entry st hrounds
      rw [List.length_cons] at hrounds
      obtain ⟨rounds, rfl⟩ : ∃ m, rounds = m + 1 := ⟨rounds - 1, by omega⟩
      rw [List.map_cons, lookupAll]
      cases cs with
      | nil =>
          have hhead := (c.head_ne []).2
          rw [List.append_nil] at hhead
          rw [joinPath, pathLoop_succ hhead, strchr_none _ c.noSlash]
          change (match fatFileLookup diskRead dev fuel entry c.name st with
            | none => _ | some (.error code, st) => _ | some (.ok entry, st) => _) = _
          simp only [Option.map_none, pathLoop_none]
          rfl
      | cons d cs =>
          rw [joinPath, pathLoop_succ (c.head_ne _).2, nameExtOf_slash,
            strchr_slash _ _ c.noSlash c.noNul]
          simp only [Option.map_some, List.tail_cons]
          split
          · rfl
          · rfl
          · exact ih rounds _ _ (by omega)

theorem joinPath_length : ∀ (cs : List Component), cs.length ≤ (joinPath cs).length := by
  intro cs
  induction cs with
  | nil => exact Nat.le_refl _
  | cons c cs ih =>
      have hpos := List.length_pos_of_ne_nil c.nonempty
      cases cs with
      | nil => exact hpos
      | cons d cs =>
          have hslash : ('/'.toUInt8 :: joinPath (d :: cs)).length =
              (joinPath (d :: cs)).length + 1 := rfl
          rw [joinPath, List.length_append, List.length_cons]
          omega

theorem fatPathLookup_join (cs : List Component) (directory : FatDirEntry) (st : FatState ω) :
    fatPathLookup diskRead dev fuel directory (some (joinPath cs)) st =
      lookupAll diskRead dev fuel (cs.map Component.name) directory st :=
  pathLoop_join cs _ _ _ (Nat.lt_succ_of_le (joinPath_length cs))

/-- **The walk behind a leading `/`** looks up one name more: the first one
twice. -/
theorem fatPathLookup_leading (cs : List Component) (directory : FatDirEntry)
    (st : FatState ω) :
    fatPathLookup diskRead dev fuel directory (some ('/'.toUInt8 :: joinPath cs)) st =
      lookupAll diskRead dev fuel
        (nameExtOf ('/'.toUInt8 :: joinPath cs) :: cs.map Component.name) directory st := by
  have hchr : strchr '/'.toUInt8 ('/'.toUInt8 :: joinPath cs) =
      some ('/'.toUInt8 :: joinPath cs) := by
    rw [strchr, if_neg (by decide), if_pos rfl]
  have hhead : ('/'.toUInt8 :: joinPath cs).headD 0 ≠ 0 := by
    rw [List.headD_cons]
    decide
  unfold fatPathLookup
  rw [pathLoop_succ hhead, hchr, lookupAll]
  simp only [Option.map_some, List.tail_cons, Option.getD_some, List.length_cons]
  split
  · rfl
  · rfl
  · exact pathLoop_join cs _ _ _ (Nat.lt_succ_of_le (joinPath_length cs))

theorem nameExtOf_first (c : Component) (cs : List Component) :
    nameExtOf ('/'.toUInt8 :: joinPath (c :: cs)) = c.name := by
  rw [nameExtOf_leading, c.name_eq]
  cases cs with
  | nil => rfl
  | cons d cs => rw [joinPath, shortNameLoop_slash _ _ _ _ c.noSlash]

end Walk

/-! ## A directory that holds itself -/

/-- The entry of a directory in cluster 2. -/
def loopEntry (name : List UInt8) : FatDirEntry := ⟨name, fatAttrDirectory, 0, 2⟩

/-- The directory of cluster 2 holds the one entry of that name: itself. -/
def loopImage (name : List UInt8) : DiskImage := paddedImage fun
  | 2 => name ++ [0x10, 0, 0, 0, 0, 0, 0, 0, 0, 0, 0, 0, 0, 0, 0, 2]
  | _ => []

/-- A disk that fails with code 8 after so many reads. -/
def countingRead (image : DiskImage) (limit : Nat) : DiskRead Nat := fun w rq =>
  if w < limit then (0, image.contents rq, w + 1) else (8, [], w)

theorem countingRead_honest (image : DiskImage) (limit : Nat) :
    Honest (countingRead image limit) image := by
  intro w rq h
  unfold countingRead at h ⊢
  split at h
  · rename_i hlt
    rw [if_pos hlt]
  · cases h

/-- A name has 11 bytes, the first of them not 0. -/
structure IsName (name : List UInt8) : Prop where
  length_eq : name.length = 11
  named : name.headD 0 ≠ 0

/-- The directory: its entry, then the end. -/
theorem loopImage_entries {name : List UInt8} (hname : IsName name) : ∃ e es,
    e.nameExt.headD 0 = 0 ∧
    sectorEntries ((loopImage name).sector 0 0 2) = loopEntry name :: e :: es := by
  match name, hname.length_eq with
  | [b0, b1, b2, b3, b4, b5, b6, b7, b8, b9, b10], _ => exact ⟨_, _, rfl, rfl⟩

theorem loopImage_scan {name : List UInt8} (hname : IsName name) (target : List UInt8) :
    scanList target (sectorEntries ((loopImage name).sector 0 0 2)) =
      if name = target then .found (loopEntry name) else .stop (-1) := by
  obtain ⟨e, es, he, hentries⟩ := loopImage_entries hname
  have hnamed : signedChar ((loopEntry name).nameExt.headD 0) ≠ 0 := fun h =>
    hname.named ((signedChar_eq_zero _).mp h)
  have hattr : (loopEntry name).attributes ≠ 0x0F := by
    show fatAttrDirectory ≠ 0x0F
    decide
  rw [hentries, scanList, if_neg hnamed, if_neg (signedChar_ne_deleted _), if_neg hattr]
  by_cases h : name = target
  · rw [if_pos h]
    exact if_pos h
  · rw [if_neg h, scanList, if_pos ((signedChar_eq_zero _).mpr he)]
    exact if_neg h

/-- **A lookup in the directory** is one read: it finds the directory itself, or
ends at the end of the directory, or fails as the read does. -/
theorem fatFileLookup_loop {name : List UInt8} (hname : IsName name) (limit : Nat)
    (target : List UInt8) (st : FatState Nat) : ∃ st',
    fatFileLookup (countingRead (loopImage name) limit) sampleDev 1 (loopEntry name) target st =
      some (if st.world < limit then
          if name = target then .ok (loopEntry name) else .error (-1)
        else .error 8, st') ∧
    (st.world < limit → st'.world = st.world + 1) := by
  have hread : fatReadSectors (countingRead (loopImage name) limit) sampleDev 2 1 st.world =
      if st.world < limit then (0, (loopImage name).sector 0 0 2, st.world + 1)
      else (8, [], st.world) := by
    rw [fatReadSectors_accepted (by decide), countingRead]
    split
    · rw [contents_one]
      rfl
    · rfl
  have hdir : (loopEntry name).attributes &&& fatAttrDirectory ≠ 0 := by
    show fatAttrDirectory &&& fatAttrDirectory ≠ 0
    decide
  have hlba : clusterLba sampleDev 2 = 2 := by decide
  have hspc : sampleDev.sectorsPerCluster.toNat = 1 := by decide
  have hcluster : (loopEntry name).cluster = 2 := by
    show (2 : Nat) ||| 0 <<< 16 = 2
    decide
  by_cases hlt : st.world < limit
  · rw [if_pos hlt] at hread
    have hscan : scanSector (countingRead (loopImage name) limit) sampleDev target 2 st =
        (if name = target then .found (loopEntry name) else .stop (-1),
          ⟨st.world + 1, st.cache, patch st.buffer 0 ((loopImage name).sector 0 0 2)⟩) := by
      unfold scanSector
      rw [hread]
      dsimp only
      rw [if_neg (fun h => h rfl), scanEntries_sector _ _ ((loopImage name).length_eq 0 0 2),
        loopImage_scan hname]
    refine ⟨⟨st.world + 1, st.cache, patch st.buffer 0 ((loopImage name).sector 0 0 2)⟩, ?_,
      fun _ => rfl⟩
    rw [fatFileLookup, if_neg hdir, hcluster, if_pos hlt]
    refine iterate_done ?_ 0
    unfold fileLookupBody
    dsimp only
    rw [if_pos (by decide), hlba, hspc, scanSectors, show u32 (2 + 0) = 2 by decide, hscan]
    by_cases h : name = target
    · rw [if_pos h, if_pos h]
    · rw [if_neg h, if_neg h]
  · rw [if_neg hlt] at hread
    have hscan : scanSector (countingRead (loopImage name) limit) sampleDev target 2 st =
        (.stop 8, st) := by
      unfold scanSector
      rw [hread]
      dsimp only
      rw [if_pos (by decide), patch_nil]
    refine ⟨st, ?_, fun h => absurd h hlt⟩
    rw [fatFileLookup, if_neg hdir, hcluster, if_neg hlt]
    refine iterate_done ?_ 0
    unfold fileLookupBody
    dsimp only
    rw [if_pos (by decide), hlba, hspc, scanSectors, show u32 (2 + 0) = 2 by decide, hscan]

/-- How many reads the lookup of names makes there. -/
def loopReads (name : List UInt8) : List (List UInt8) → Nat
  | [] => 0
  | n :: names => if name = n then loopReads name names + 1 else 1

/-- **Looking up names there**: where the disk fails before the last read, the
code is the disk's, otherwise it is not. -/
theorem lookupAll_loop {name : List UInt8} (hname : IsName name) (limit : Nat) :
    ∀ (names : List (List UInt8)) (st : FatState Nat), st.world ≤ limit → ∃ r st',
    lookupAll (countingRead (loopImage name) limit) sampleDev 1 names (loopEntry name) st =
      some (r, st') ∧ (r = .error 8 ↔ limit < st.world + loopReads name names) := by
  intro names
  induction names with
  | nil =>
      intro st hle
      refine ⟨_, st, rfl, fun h => (by cases h), fun h => ?_⟩
      rw [loopReads] at h
      omega
  | cons n names ih =>
      intro st hle
      obtain ⟨st₁, hlookup, hworld⟩ := fatFileLookup_loop hname limit n st
      rw [lookupAll, hlookup, loopReads]
      by_cases hlt : st.world < limit
      · have hw := hworld hlt
        rw [if_pos hlt]
        by_cases hn : name = n
        · rw [if_pos hn, if_pos hn]
          obtain ⟨r, st', hrest, hr⟩ := ih st₁ (by omega)
          refine ⟨r, st', hrest, hr.trans ?_⟩
          rw [hw]
          omega
        · rw [if_neg hn, if_neg hn]
          refine ⟨_, _, rfl, fun h => ?_, fun h => ?_⟩
          · cases h
          · omega
      · rw [if_neg hlt]
        refine ⟨_, _, rfl, fun _ => ?_, fun _ => rfl⟩
        split <;> omega

/-! ## The first byte of a name -/

theorem toUpper_ne_zero {b : UInt8} (h : b ≠ 0) : toUpper b ≠ 0 := by
  unfold toUpper
  split
  · rename_i hrange
    intro hzero
    have h32 : b = 32 := by
      have := congrArg (· + 32) hzero
      simpa using this
    rw [h32] at hrange
    exact absurd hrange (by decide)
  · exact h

/-- Behind the first byte the converter leaves it. -/
theorem shortNameLoop_keeps : ∀ (xs : List UInt8) (i : Nat) (nameExt : Nat → UInt8), 1 ≤ i →
    1 ≤ (shortNameLoop xs i nameExt).1 ∧ (shortNameLoop xs i nameExt).2 0 = nameExt 0 := by
  intro xs
  induction xs with
  | nil => intro i nameExt hi; exact ⟨hi, rfl⟩
  | cons x xs ih =>
      intro i nameExt hi
      have hpatch : ∀ bytes, patch nameExt i bytes 0 = nameExt 0 := by
        intro bytes
        rw [patch, if_neg (by omega)]
      rw [shortNameLoop]
      split
      · split
        · exact ⟨hi, rfl⟩
        · split
          · split
            · exact ⟨(ih _ _ (by omega)).1, (ih _ _ (by omega)).2.trans (hpatch _)⟩
            · exact ih _ _ (by omega)
          · exact ⟨(ih _ _ (by omega)).1, (ih _ _ (by omega)).2.trans (hpatch _)⟩
      · exact ⟨hi, rfl⟩

theorem Component.isName (c : Component) : IsName c.name := by
  refine ⟨by rw [Component.name, nameExtOf, List.length_map, List.length_range], ?_⟩
  have hfirst : ∀ r : Nat × (Nat → UInt8), (r.1 = 0 ∨ r.2 0 ≠ 0) → (paddedName r).headD 0 ≠ 0 := by
    intro r hr
    show patch r.2 r.1 (List.replicate (11 - r.1) ' '.toUInt8) 0 ≠ 0
    by_cases hzero : r.1 = 0
    · rw [hzero, patch_zero, if_pos (by rw [List.length_replicate]; omega)]
      decide
    · rw [patch, if_neg (by omega)]
      exact hr.resolve_left hzero
  rw [c.name_eq]
  refine hfirst _ (Or.inr ?_)
  obtain ⟨bytes, hne, hslash, hnul⟩ := c
  cases bytes with
  | nil => exact absurd rfl hne
  | cons b bytes =>
      have hb : b ≠ '/'.toUInt8 := fun h => hslash (h ▸ List.mem_cons_self)
      have hb0 : b ≠ 0 := fun h => hnul (h ▸ List.mem_cons_self)
      rw [shortNameLoop, if_pos (by decide), if_neg (not_or.mpr ⟨hb, hb0⟩)]
      split
      · rw [if_pos (by decide), (shortNameLoop_keeps _ _ _ (by decide)).2]
        show (patch (fun _ => 0) 0 (List.replicate 8 ' '.toUInt8) 0) ≠ 0
        decide
      · rw [(shortNameLoop_keeps _ _ _ (by decide)).2, patch_zero, List.length_singleton,
          if_pos (by decide)]
        exact toUpper_ne_zero hb0

/-! ## Paths and their components -/

/-- The path with these components. -/
def pathOf (leading : Bool) (cs : List Component) : List UInt8 :=
  if leading then '/'.toUInt8 :: joinPath cs else joinPath cs

/-- **`fat_path_lookup` is the fold over the components**, on every disk and from
every directory, exactly of the paths without a leading `/`. -/
theorem path_lookup_folds (cs : List Component) (leading : Bool) :
    (∀ (ω : Type) (diskRead : DiskRead ω) (image : DiskImage) (dev : FatDev) (fuel : Nat)
      (directory : FatDirEntry) (st : FatState ω), Honest diskRead image →
      (fatPathLookup diskRead dev fuel directory (some (pathOf leading cs)) st).map Prod.fst =
        (lookupAll diskRead dev fuel (cs.map Component.name) directory st).map Prod.fst) ↔
    leading = false := by
  cases leading with
  | false =>
      refine ⟨fun _ => rfl, fun _ ω diskRead image dev fuel directory st _ => ?_⟩
      rw [show pathOf false cs = joinPath cs from rfl, fatPathLookup_join]
  | true =>
      refine ⟨fun h => ?_, fun h => (by cases h)⟩
      cases cs with
      | nil =>
          -- the walk looks up 11 spaces, and the fold nothing, from what is no directory
          have heq := h Unit (fun w _ => (8, [], w)) sampleImage sampleDev 1
            ⟨[], 0, 0, 0⟩ ⟨(), sampleCache, fun _ => 0⟩ (fun _ _ hc => by cases hc)
          cases heq
      | cons c cs =>
          have hname := c.isName
          -- the disk lasts for the fold and fails at the read that the walk makes more
          have heq := h Nat
            (countingRead (loopImage c.name) (loopReads c.name ((c :: cs).map Component.name)))
            (loopImage c.name) sampleDev 1 (loopEntry c.name) ⟨0, sampleCache, fun _ => 0⟩
            (countingRead_honest _ _)
          rw [show pathOf true (c :: cs) = '/'.toUInt8 :: joinPath (c :: cs) from rfl,
            fatPathLookup_leading, nameExtOf_first] at heq
          obtain ⟨r, st, hwalk, hr⟩ := lookupAll_loop hname
            (loopReads c.name ((c :: cs).map Component.name))
            (c.name :: (c :: cs).map Component.name) ⟨0, sampleCache, fun _ => 0⟩ (Nat.zero_le _)
          obtain ⟨r', st', hfold, hr'⟩ := lookupAll_loop hname
            (loopReads c.name ((c :: cs).map Component.name)) ((c :: cs).map Component.name)
            ⟨0, sampleCache, fun _ => 0⟩ (Nat.zero_le _)
          rw [hwalk, hfold] at heq
          have hsame : r = r' := Option.some.inj heq
          have hmore : loopReads c.name (c.name :: (c :: cs).map Component.name) =
              loopReads c.name ((c :: cs).map Component.name) + 1 := if_pos rfl
          have hfails : r = .error 8 := hr.mpr (by rw [hmore]; omega)
          rw [hsame] at hfails
          have hlt := hr'.mp hfails
          rw [Nat.zero_add] at hlt
          exact absurd hlt (Nat.lt_irrefl _)

/-- The component `a`. -/
def sampleComponent : Component := ⟨['a'.toUInt8], by decide, by decide, by decide⟩

set_option maxRecDepth 4000 in
/-- `/a` on the volume whose root directory has the file `A`: its lookup finds
it and goes on to look for `A` in it. -/
theorem path_lookup_leading_fails : ∃ st st',
    fatPathLookup (imageRead sampleImage) sampleDev 2 (rootEntry sampleDev)
        (some (pathOf true [sampleComponent])) ⟨(), sampleCache, fun _ => 0⟩ =
      some (.error (-1), st) ∧
    lookupAll (imageRead sampleImage) sampleDev 2
        ([sampleComponent].map Component.name) (rootEntry sampleDev)
        ⟨(), sampleCache, fun _ => 0⟩ =
      some (.ok ⟨sampleName, 0x20, 0, 5⟩, st') :=
  ⟨_, _, rfl, rfl⟩

end DevOS.Boot
