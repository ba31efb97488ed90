import DevOS.Boot.Fat
import DevOS.Lib.Region
import DevOS.Printk.Pointer

/-!
# FAT32 — 8.3 names

`fat_short_name_to_name_ext` once more, by its pointers: `short_name` is an
index into a string and its NUL, behind which there is nothing to read, and
`name_ext` is the start of a buffer whose stores are noted. The index `i` goes
back to 8 at a dot, so it is the string that the loop gets to the end of. The
result is the one of the converter over lists (`Boot.Fat`), whatever the string,
and on a name of the 8.3 form it is the padded name.
-/

namespace DevOS.Boot

open DevOS.Lib DevOS.Printk

/-! ## The program -/

/-- The memory around `name_ext`. -/
abbrev NameBuf := Region UInt8

/-- The 11 bytes of `name_ext`. -/
def NameBuf.nameExt (m : NameBuf) : List UInt8 := (List.range 11).map fun k : Nat => m.cells k

/-- A store of four bytes, the lowest first. -/
def NameBuf.store32 (m : NameBuf) (k : Int) (w : UInt32) : NameBuf :=
  (((m.store k w.toUInt8).store (k + 1) (w >>> 8).toUInt8).store (k + 2) (w >>> 16).toUInt8).store
    (k + 3) (w >>> 24).toUInt8

/-- `while (size >= 4) { *p32++ = v32; size -= 4; }`. -/
def memsetWords (v32 : UInt32) : (size : Nat) → (p32 : Int) → NameBuf → Nat × Int × NameBuf
  | size + 4, p32, m => memsetWords v32 size (p32 + 4) (m.store32 p32 v32)
  | size, p32, m => (size, p32, m)

/-- `while (size--) *p8++ = value`. -/
def memsetBytes (value : UInt8) : (size : Nat) → (p8 : Int) → NameBuf → NameBuf
  | 0, _, m => m
  | size + 1, p8, m => memsetBytes value size (p8 + 1) (m.store p8 value)

/-- `memset(ptr, value, size)` of `boot/string.c`; `size` is a `uint32_t`. -/
def memset (ptr : Int) (value : UInt8) (size : Int) (m : NameBuf) : NameBuf :=
  match memsetWords (value.toUInt32 * 0x01010101) (size % 2 ^ 32).toNat ptr m with
  | (size, p8, m) => memsetBytes value size p8 m

/-- `short_name`, `i` and `name_ext` in the loop. -/
structure NameState where
  shortName : Nat
  i : Int
  nameExt : NameBuf

/-- A round of the loop; no result of a read behind the NUL. -/
def shortNameBody (text : List UInt8) (s : NameState) : NameState ⊕ Option NameState :=
  if s.i < 11 then
    match byteAt text s.shortName with
    | none => .inr none
    | some c =>
        if c = '/'.toUInt8 ∨ c = 0 then .inr (some s)
        else if c = '.'.toUInt8 then
          .inl ⟨s.shortName + 1, 8,
            if s.i < 8 then memset s.i ' '.toUInt8 (8 - s.i) s.nameExt else s.nameExt⟩
        else .inl ⟨s.shortName + 1, s.i + 1, s.nameExt.store s.i (toUpper c)⟩
  else .inr (some s)

/-- `fat_short_name_to_name_ext(short_name, name_ext)` in so many rounds. -/
def fatShortNameToNameExtAt (text : List UInt8) (fuel : Nat) (nameExt : NameBuf) :
    Option NameBuf :=
  match byteAt text 0 with
  | none => none
  | some c =>
      let shortName := if c = '/'.toUInt8 then 1 else 0
      match iterate (shortNameBody text) fuel ⟨shortName, 0, nameExt⟩ with
      | some (some s) => some (memset s.i ' '.toUInt8 (11 - s.i) s.nameExt)
      | _ => none

/-! ## `memset` -/

/-- The word that is stored has the value in each of its bytes. -/
theorem store32_broadcast (value : UInt8) (k : Int) (m : NameBuf) :
    m.store32 k (value.toUInt32 * 0x01010101) = memsetBytes value 4 k m := by
  have hlt := value.toNat_lt
  have hword : (value.toUInt32 * 0x01010101).toNat = value.toNat * 16843009 := by
    rw [UInt32.toNat_mul, UInt8.toNat_toUInt32]
    exact Nat.mod_eq_of_lt (by simp only [UInt32.reduceToNat]; omega)
  have hbyte : ∀ n : UInt32, n = 0 ∨ n = 8 ∨ n = 16 ∨ n = 24 →
      ((value.toUInt32 * 0x01010101) >>> n).toUInt8 = value := by
    rintro n hn
    apply UInt8.toNat.inj
    rw [UInt32.toNat_toUInt8, UInt32.toNat_shiftRight, hword, Nat.shiftRight_eq_div_pow]
    have hall : ∀ v < 2 ^ 8, ∀ n ∈ [0, 8, 16, 24], v * 16843009 / 2 ^ n % 2 ^ 8 = v := by
      decide +kernel
    rcases hn with rfl | rfl | rfl | rfl
    · exact hall _ hlt 0 (by decide)
    · exact hall _ hlt 8 (by decide)
    · exact hall _ hlt 16 (by decide)
    · exact hall _ hlt 24 (by decide)
  have hfirst := hbyte 0 (.inl rfl)
  rw [UInt32.shiftRight_zero] at hfirst
  rw [NameBuf.store32, hfirst, hbyte 8 (by decide), hbyte 16 (by decide), hbyte 24 (by decide)]
  simp only [memsetBytes, Int.add_assoc]
  rfl

theorem memsetBytes_add (value : UInt8) : ∀ (n size : Nat) (p : Int) (m : NameBuf),
    memsetBytes value (n + size) p m =
      memsetBytes value size (p + n) (memsetBytes value n p m) := by
  intro n
  induction n with
  | zero =>
      intro size p m
      rw [Nat.zero_add, Int.natCast_zero, Int.add_zero]
      rfl
  | succ n ih =>
      intro size p m
      have hp : p + 1 + n = p + ((n + 1 : Nat) : Int) := by omega
      rw [Nat.succ_add, memsetBytes, memsetBytes, ih, hp]

theorem memsetWords_eq (value : UInt8) : ∀ (size : Nat) (p : Int) (m : NameBuf),
    (match memsetWords (value.toUInt32 * 0x01010101) size p m with
      | (size, p8, m) => memsetBytes value size p8 m) = memsetBytes value size p m
  | size + 4, p, m => by
      rw [memsetWords, memsetWords_eq value size, store32_broadcast, Nat.add_comm size 4,
        memsetBytes_add]
      rfl
  | 0, _, _ => rfl
  | 1, _, _ => rfl
  | 2, _, _ => rfl
  | 3, _, _ => rfl

/-- **The loop over words** stores what one over bytes would. -/
theorem memset_eq (ptr : Int) (value : UInt8) {size : Nat} (hsize : size < 2 ^ 32) (m : NameBuf) :
    memset ptr value size m = memsetBytes value size ptr m := by
  have hmod : ((size : Int) % 2 ^ 32).toNat = size := by omega
  rw [memset, hmod]
  exact memsetWords_eq value size ptr m

theorem memsetBytes_bytes (value : UInt8) : ∀ (size : Nat) (p : Int) (m : NameBuf) (k : Int),
    (memsetBytes value size p m).cells k =
      if p ≤ k ∧ k < p + size then value else m.cells k := by
  intro size
  induction size with
  | zero =>
      intro p m k
      rw [memsetBytes, if_neg (by omega)]
  | succ size ih =>
      intro p m k
      rw [memsetBytes, ih]
      by_cases hk : k = p
      · rw [if_neg (by omega), if_pos (by omega), Region.store_cells, if_pos hk]
      · rw [Region.store_cells, if_neg hk]
        exact if_congr (by omega) rfl rfl

theorem memsetBytes_stores (value : UInt8) : ∀ (size : Nat) (p : Int) (m : NameBuf) (k : Int),
    k ∈ (memsetBytes value size p m).stores ↔ k ∈ m.stores ∨ p ≤ k ∧ k < p + size := by
  intro size
  induction size with
  | zero =>
      intro p m k
      rw [memsetBytes]
      exact ⟨.inl, fun h => h.elim id fun h => absurd h (by omega)⟩
  | succ size ih =>
      intro p m k
      rw [memsetBytes, ih, Region.mem_store, or_assoc]
      exact or_congr_right (by omega)

/-! ## The loop -/

/-- The converter by its pointers is where the one over lists is: `i` and what
is stored agree, everything below `i` has been stored, and nothing has been
outside `name_ext`. -/
structure Converting (before : Int → UInt8) (r : Nat × (Nat → UInt8)) (i : Int) (m : NameBuf) :
    Prop where
  index : i = r.1
  index_le : r.1 ≤ 11
  bytes : ∀ k : Nat, m.cells k = r.2 k
  frame : ∀ k, ¬ (0 ≤ k ∧ k < 11) → m.cells k = before k
  stores : ∀ k ∈ m.stores, 0 ≤ k ∧ k < 11
  filled : ∀ k, 0 ≤ k ∧ k < i → k ∈ m.stores

section Converting

variable {before : Int → UInt8} {i : Int} {n : Nat} {f : Nat → UInt8} {m : NameBuf}

/-- **A `memset`** from `i` on. -/
theorem Converting.memset (h : Converting before (n, f) i m) {stop : Nat} (hstop : n ≤ stop)
    (hle : stop ≤ 11) (value : UInt8) :
    Converting before (stop, patch f n (List.replicate (stop - n) value)) stop
      (Boot.memset i value (stop - i) m) := by
  have hi : i = n := h.index
  have hsize : (stop - i : Int) = ((stop - n : Nat) : Int) := by omega
  rw [hsize, memset_eq i value (by omega)]
  refine ⟨rfl, hle, ?_, ?_, ?_, ?_⟩
  · intro k
    rw [memsetBytes_bytes, h.bytes]
    simp only [patch, List.length_replicate]
    by_cases hk : n ≤ k ∧ k < n + (stop - n)
    · rw [if_pos (by omega), if_pos hk, List.getD_replicate _ (by omega)]
    · rw [if_neg (by omega), if_neg hk]
  · intro k hk
    rw [memsetBytes_bytes, if_neg (by omega), h.frame k hk]
  · intro k hk
    rcases (memsetBytes_stores _ _ _ _ _).mp hk with hk | hk
    · exact h.stores k hk
    · omega
  · intro k hk
    refine (memsetBytes_stores _ _ _ _ _).mpr ?_
    by_cases hlow : k < i
    · exact .inl (h.filled k ⟨hk.1, hlow⟩)
    · exact .inr (by omega)

/-- **A character** at `i`. -/
theorem Converting.store (h : Converting before (n, f) i m) (hn : n < 11) (b : UInt8) :
    Converting before (n + 1, patch f n [b]) (i + 1) (m.store i b) := by
  have hi : i = n := h.index
  refine ⟨by omega, hn, ?_, ?_, ?_, ?_⟩
  · intro k
    simp only [patch, List.length_singleton]
    by_cases hk : (k : Int) = i
    · have hkn : k = n := by omega
      rw [Region.store_cells, if_pos hk, if_pos (by omega), hkn, Nat.sub_self]
      rfl
    · rw [Region.store_cells, if_neg hk, if_neg (by omega)]
      exact h.bytes k
  · intro k hk
    rw [Region.store_cells, if_neg (by omega), h.frame k hk]
  · intro k hk
    rcases Region.mem_store.mp hk with hk | hk
    · exact h.stores k hk
    · omega
  · intro k hk
    by_cases hlow : k < i
    · exact Region.mem_store.mpr (.inl (h.filled k ⟨hk.1, hlow⟩))
    · exact Region.mem_store.mpr (.inr (by omega))

/-- The jump of a dot, backwards. -/
theorem Converting.back (h : Converting before (n, f) i m) (hn : 8 ≤ n) :
    Converting before (8, f) 8 m := by
  have hi : i = n := h.index
  exact ⟨rfl, (by decide : 8 ≤ 11), h.bytes, h.frame, h.stores, fun k hk => h.filled k (by omega)⟩

end Converting

/-- **The loop**, by induction on the string that is left: it comes to an end,
where the one over lists does. -/
theorem shortNameBody_loop {before : Int → UInt8} {text : List UInt8} : ∀ (rest : List UInt8)
    (n : Nat) (f : Nat → UInt8) {s : NameState}, At text s.shortName rest →
    Converting before (n, f) s.i s.nameExt →
    ∃ s', iterate (shortNameBody text) (rest.length + 1) s = some (some s') ∧
      Converting before (shortNameLoop rest n f) s'.i s'.nameExt := by
  intro rest
  induction rest with
  | nil =>
      intro n f s hat h
      refine ⟨s, iterate_done ?_ 0, h⟩
      have hend : peek [] = '/'.toUInt8 ∨ peek [] = 0 := .inr rfl
      rw [shortNameBody, hat.byte]
      dsimp only
      rw [if_pos hend, ite_self]
  | cons c rest ih =>
      intro n f s hat h
      have hi : s.i = n := h.index
      have hnext : At text (s.shortName + 1) rest := hat.next (List.cons_ne_nil c rest)
      rw [shortNameLoop]
      by_cases hn : n < 11
      · have hlt : s.i < 11 := by omega
        rw [if_pos hn]
        by_cases hend : c = '/'.toUInt8 ∨ c = 0
        · refine ⟨s, iterate_done ?_ _, ?_⟩
          · rw [shortNameBody, if_pos hlt, hat.byte]
            exact if_pos hend
          · rw [if_pos hend]
            exact h
        · rw [if_neg hend]
          by_cases hdot : c = '.'.toUInt8
          · -- the dot: the name is filled up to 8, wherever `i` was
            have hbody : shortNameBody text s = .inl ⟨s.shortName + 1, 8,
                if s.i < 8 then memset s.i ' '.toUInt8 (8 - s.i) s.nameExt else s.nameExt⟩ := by
              rw [shortNameBody, if_pos hlt, hat.byte]
              dsimp only [peek, List.headD]
              rw [if_neg hend, if_pos hdot]
            rw [if_pos hdot, List.length_cons, iterate_next hbody]
            refine ih 8 _ hnext ?_
            dsimp only
            by_cases h8 : n < 8
            · have h8' : s.i < 8 := by omega
              rw [if_pos h8, if_pos h8']
              exact h.memset (Nat.le_of_lt h8) (by decide) ' '.toUInt8
            · have h8' : ¬ s.i < 8 := by omega
              rw [if_neg h8, if_neg h8']
              exact h.back (Nat.le_of_not_lt h8)
          · have hbody : shortNameBody text s = .inl ⟨s.shortName + 1, s.i + 1,
                s.nameExt.store s.i (toUpper c)⟩ := by
              rw [shortNameBody, if_pos hlt, hat.byte]
              dsimp only [peek, List.headD]
              rw [if_neg hend, if_neg hdot]
            rw [if_neg hdot, List.length_cons, iterate_next hbody]
            exact ih (n + 1) _ hnext (h.store hn (toUpper c))
      · have hge : ¬ s.i < 11 := by omega
        refine ⟨s, iterate_done ?_ _, ?_⟩
        · rw [shortNameBody, if_neg hge]
        · rw [if_neg hn]
          exact h

/-- **The converter by its pointers** comes to an end on every string, does what
the one over lists does, and has stored each of the 11 bytes and no other. -/
theorem fatShortNameToNameExtAt_eq (text : List UInt8) (before : Int → UInt8) :
    ∃ m, fatShortNameToNameExtAt text (text.length + 1) (.start before) = some m ∧
      (∀ k : Nat, m.cells k = fatShortNameToNameExt text (fun k => before k) k) ∧
      (∀ k, ¬ (0 ≤ k ∧ k < 11) → m.cells k = before k) ∧
      ∀ k, k ∈ m.stores ↔ 0 ≤ k ∧ k < 11 := by
  -- `short_name` behind a leading `/`
  obtain ⟨rest, hle, hat, hrest⟩ : ∃ rest : List UInt8, rest.length ≤ text.length ∧
      At text (if peek text = '/'.toUInt8 then 1 else 0) rest ∧
      (if text.head? = some '/'.toUInt8 then text.tail else text) = rest := by
    cases text with
    | nil => exact ⟨[], Nat.le_refl _, At.start [], rfl⟩
    | cons c text =>
        have hhead : peek (c :: text) = c := rfl
        rw [hhead, List.head?_cons]
        by_cases hc : c = '/'.toUInt8
        · rw [if_pos hc, if_pos (congrArg some hc)]
          exact ⟨text, Nat.le_succ _, (At.start _).next (List.cons_ne_nil c text), rfl⟩
        · rw [if_neg hc, if_neg fun h => hc (Option.some.inj h)]
          exact ⟨_, Nat.le_refl _, At.start _, rfl⟩
  have hstart : Converting before (0, fun k => before k) 0 (.start before) :=
    ⟨rfl, Nat.zero_le _, fun _ => rfl, fun _ _ => rfl, (fun _ h => nomatch h),
      fun k h => by omega⟩
  obtain ⟨s, hs, h⟩ := shortNameBody_loop rest 0 (fun k => before k)
    (s := ⟨if peek text = '/'.toUInt8 then 1 else 0, 0, (.start before)⟩) hat hstart
  have hs' := iterate_mono hs (Nat.succ_le_succ hle)
  have hlist : fatShortNameToNameExt text (fun k => before k) =
      patch (shortNameLoop rest 0 fun k => before k).2 (shortNameLoop rest 0 fun k => before k).1
        (List.replicate (11 - (shortNameLoop rest 0 fun k => before k).1) ' '.toUInt8) := by
    rw [fatShortNameToNameExt, hrest]
  generalize (shortNameLoop rest 0 fun k => before k) = r at h hlist
  obtain ⟨n, f⟩ := r
  have hfull := h.memset h.index_le (Nat.le_refl 11) ' '.toUInt8
  refine ⟨_, ?_, ?_, hfull.frame, fun k => ⟨hfull.stores k, hfull.filled k⟩⟩
  · rw [fatShortNameToNameExtAt, (At.start text).byte]
    dsimp only
    rw [hs']
    rfl
  · intro k
    rw [hlist]
    exact hfull.bytes k

/-! ## Names of the 8.3 form -/

/-- A character of a name. -/
def Plain (c : UInt8) : Prop := c ≠ '.'.toUInt8 ∧ c ≠ '/'.toUInt8 ∧ c ≠ 0

/-- **An 8.3 name**: a base and perhaps an extension behind a dot. -/
structure ShortName where
  base : List UInt8
  ext : Option (List UInt8)
  base_pos : 1 ≤ base.length
  base_le : base.length ≤ 8
  ext_le : (ext.getD []).length ≤ 3
  base_plain : ∀ c ∈ base, Plain c
  ext_plain : ∀ c ∈ ext.getD [], Plain c

/-- As it is written. -/
def ShortName.text (name : ShortName) : List UInt8 :=
  name.base ++ (name.ext.map ('.'.toUInt8 :: ·)).getD []

/-- In a path: perhaps behind a `/`, and at the end of the string or before
another `/` and whatever follows. -/
def ShortName.inPath (name : ShortName) (leading : Bool) (after : Option (List UInt8)) :
    List UInt8 :=
  (if leading then ['/'.toUInt8] else []) ++
    (name.text ++ (after.map ('/'.toUInt8 :: ·)).getD [])

/-- A capital letter for a letter of ASCII. -/
def upperByte (c : UInt8) : UInt8 := (Char.ofUInt8 c).toUpper.toUInt8

/-- Upper-cased and padded with spaces. -/
def padded (width : Nat) (cs : List UInt8) : List UInt8 :=
  cs.map upperByte ++ List.replicate (width - cs.length) ' '.toUInt8

/-- As it is stored in a directory. -/
def ShortName.nameExt (name : ShortName) : List UInt8 :=
  padded 8 name.base ++ padded 3 (name.ext.getD [])

theorem toUpper_eq (c : UInt8) : toUpper c = upperByte c := by
  have hall : ∀ b : BitVec 8, toUpper ⟨b⟩ = upperByte ⟨b⟩ := by decide +kernel
  exact hall c.toBitVec

theorem padded_length {width : Nat} {cs : List UInt8} (h : cs.length ≤ width) :
    (padded width cs).length = width := by
  rw [padded, List.length_append, List.length_map, List.length_replicate]
  omega

theorem ShortName.nameExt_length (name : ShortName) : name.nameExt.length = 11 := by
  rw [ShortName.nameExt, List.length_append, padded_length name.base_le,
    padded_length name.ext_le]

/-- Characters are stored one behind the other. -/
theorem shortNameLoop_plain (rest : List UInt8) : ∀ (xs : List UInt8) (i : Nat)
    (nameExt : Nat → UInt8), (∀ c ∈ xs, Plain c) → i + xs.length ≤ 11 →
    shortNameLoop (xs ++ rest) i nameExt =
      shortNameLoop rest (i + xs.length) (patch nameExt i (xs.map upperByte)) := by
  intro xs
  induction xs with
  | nil =>
      intro i nameExt _ _
      rw [List.map_nil, patch_nil]
      rfl
  | cons x xs ih =>
      intro i nameExt hplain hlen
      rw [List.length_cons] at hlen
      obtain ⟨hdot, hslash, hnul⟩ := hplain x List.mem_cons_self
      have hlen' : i + 1 + xs.length = i + (x :: xs).length := by
        rw [List.length_cons]
        omega
      have hpatch := patch_append nameExt i [toUpper x] (xs.map upperByte)
      rw [List.length_singleton, List.singleton_append, toUpper_eq] at hpatch
      rw [List.cons_append, shortNameLoop, if_pos (by omega), if_neg (not_or.mpr ⟨hslash, hnul⟩),
        if_neg hdot, ih _ _ (fun c hc => hplain c (List.mem_cons_of_mem _ hc)) (by omega), hlen',
        toUpper_eq, hpatch, List.map_cons]

/-- The first dot fills the name up. -/
theorem shortNameLoop_dot (rest : List UInt8) {i : Nat} (hi : i ≤ 8) (nameExt : Nat → UInt8) :
    shortNameLoop ('.'.toUInt8 :: rest) i nameExt =
      shortNameLoop rest 8 (patch nameExt i (List.replicate (8 - i) ' '.toUInt8)) := by
  rw [shortNameLoop, if_pos (by omega), if_neg (by decide), if_pos rfl]
  by_cases h : i < 8
  · rw [if_pos h]
  · have hsub : 8 - i = 0 := by omega
    rw [if_neg h, hsub, List.replicate_zero, patch_nil]

/-- The loop ends with the name. -/
theorem shortNameLoop_end (after : Option (List UInt8)) (i : Nat) (nameExt : Nat → UInt8) :
    shortNameLoop ((after.map ('/'.toUInt8 :: ·)).getD []) i nameExt = (i, nameExt) := by
  cases after with
  | none => rfl
  | some more =>
      rw [Option.map_some, Option.getD_some, shortNameLoop, if_pos (Or.inl rfl), ite_self]

/-- A leading `/` is skipped, and the base does not start with one. -/
theorem ShortName.skip (name : ShortName) (leading : Bool) (after : Option (List UInt8)) :
    (if (name.inPath leading after).head? = some '/'.toUInt8 then (name.inPath leading after).tail
      else name.inPath leading after) =
    name.base ++ ((name.ext.map ('.'.toUInt8 :: ·)).getD [] ++
      (after.map ('/'.toUInt8 :: ·)).getD []) := by
  rw [ShortName.inPath, ShortName.text, List.append_assoc]
  cases leading with
  | true => rfl
  | false =>
      obtain ⟨b, bs, hbase⟩ := List.exists_cons_of_length_pos name.base_pos
      have hb : b ≠ '/'.toUInt8 := (name.base_plain b (hbase ▸ List.mem_cons_self)).2.1
      rw [hbase]
      exact if_neg fun h => hb (Option.some.inj h)

/-- **The converter on an 8.3 name.** -/
theorem fatShortNameToNameExt_inPath (name : ShortName) (leading : Bool)
    (after : Option (List UInt8)) (before : Nat → UInt8) :
    fatShortNameToNameExt (name.inPath leading after) before = patch before 0 name.nameExt := by
  have hbase := name.base_le
  have hext := name.ext_le
  have hplain := name.ext_plain
  rw [fatShortNameToNameExt, name.skip, shortNameLoop_plain _ _ _ _ name.base_plain (by omega),
    Nat.zero_add, ShortName.nameExt, padded, padded]
  have hfirst := patch_append before 0 (name.base.map upperByte)
  rw [Nat.zero_add, List.length_map] at hfirst
  cases hcase : name.ext with
  | none =>
      have hpad : List.replicate (11 - name.base.length) ' '.toUInt8 =
          List.replicate (8 - name.base.length) ' '.toUInt8 ++ List.replicate 3 ' '.toUInt8 := by
        rw [← List.replicate_add]
        congr 1
        omega
      rw [Option.map_none, Option.getD_none, List.nil_append, shortNameLoop_end]
      dsimp only
      rw [hfirst, hpad, ← List.append_assoc]
      rfl
  | some ext =>
      rw [hcase] at hext hplain
      rw [Option.getD_some] at hext hplain
      have h8 : (name.base.map upperByte ++
          List.replicate (8 - name.base.length) ' '.toUInt8).length = 8 := padded_length hbase
      have hsecond := patch_append before 0 (name.base.map upperByte ++
        List.replicate (8 - name.base.length) ' '.toUInt8) (ext.map upperByte)
      have hthird := patch_append before 0 (name.base.map upperByte ++
        List.replicate (8 - name.base.length) ' '.toUInt8 ++ ext.map upperByte)
        (List.replicate (11 - (8 + ext.length)) ' '.toUInt8)
      have hpad : 11 - (8 + ext.length) = 3 - ext.length := by omega
      rw [h8, Nat.zero_add] at hsecond
      rw [List.length_append, h8, List.length_map, Nat.zero_add] at hthird
      rw [Option.map_some, Option.getD_some, Option.getD_some, List.cons_append,
        shortNameLoop_dot _ hbase, hfirst, shortNameLoop_plain _ _ _ _ hplain (by omega),
        shortNameLoop_end, hsecond]
      dsimp only
      rw [hthird, hpad, List.append_assoc]

/-- **Names are converted.** A name of the 8.3 form, wherever in a path, becomes
its base and extension in capitals, padded; and on any string at all the
converter comes to an end, and stores the 11 bytes of `name_ext` and nothing
else. -/
theorem short_name_conversion :
    (∀ (name : ShortName) (leading : Bool) (after : Option (List UInt8)) (before : Int → UInt8),
      ∃ fuel m, fatShortNameToNameExtAt (name.inPath leading after) fuel (.start before) = some m ∧
        m.nameExt = name.nameExt) ∧
    ∀ (text : List UInt8) (before : Int → UInt8),
      ∃ fuel m, fatShortNameToNameExtAt text fuel (.start before) = some m ∧
        (∀ k, k ∈ m.stores ↔ 0 ≤ k ∧ k < 11) ∧
        ∀ k, ¬ (0 ≤ k ∧ k < 11) → m.cells k = before k := by
  constructor
  · intro name leading after before
    obtain ⟨m, hm, hbytes, -, -⟩ :=
      fatShortNameToNameExtAt_eq (name.inPath leading after) before
    have hlen := name.nameExt_length
    refine ⟨_, m, hm, ?_⟩
    rw [NameBuf.nameExt]
    refine List.ext_getElem (by rw [List.length_map, List.length_range, hlen]) fun k hk hk' => ?_
    rw [List.getElem_map, List.getElem_range, hbytes, fatShortNameToNameExt_inPath, patch_zero,
      if_pos hk', List.getD_eq_getElem _ _ hk']
  · intro text before
    obtain ⟨m, hm, -, hframe, hstores⟩ := fatShortNameToNameExtAt_eq text before
    exact ⟨_, m, hm, hstores, hframe⟩

/-- `kernel.bin` on the way to another name. -/
theorem short_name_conversion_kernel : ∃ fuel m,
    fatShortNameToNameExtAt (literal "/kernel.bin/x") fuel (.start fun _ => 0) = some m ∧
      m.nameExt = literal "KERNEL  BIN" := by
  have hplain : (∀ c ∈ literal "kernel", Plain c) ∧ ∀ c ∈ literal "bin", Plain c := by
    unfold Plain
    decide +kernel
  exact short_name_conversion.1 ⟨literal "kernel", some (literal "bin"), by decide, by decide,
    by decide, hplain.1, hplain.2⟩ true (some (literal "x")) fun _ => 0

/-- A second dot starts the extension again. -/
example : (fatShortNameToNameExtAt (literal "a.bc.ef/x") 10 (.start fun _ => 0)).map
    NameBuf.nameExt = some (literal "A       EF ") := by
  decide

end DevOS.Boot
