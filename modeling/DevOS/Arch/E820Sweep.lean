import DevOS.Arch.E820
import Mathlib.Data.Finset.Lattice.Fold
import Mathlib.Order.Lattice.Nat
import Mathlib.Data.List.Pairwise

/-!
# E820 — the sweep is exact

A table denotes a function from addresses to types: the largest type among the
entries that cover an address, 0 where there is none (`typeAt`).
`e820_sanitize` produces a sorted, disjoint, merged table of the same
function. The proof reads the sweep as building that function from left to
right: after a prefix of the sorted change points the types below the current
address are final (`typeOf`), the finished entries denote them (`Built`), and
above it one type holds throughout.
-/

namespace DevOS.Arch

/-! ## What a table denotes -/

/-- One past the last byte of an entry. -/
def E820Entry.stop (e : E820Entry) : Nat := e.addr + e.size

def E820Entry.Covers (e : E820Entry) (a : Nat) : Prop := e.addr ≤ a ∧ a < e.stop

instance (e : E820Entry) (a : Nat) : Decidable (e.Covers a) :=
  inferInstanceAs (Decidable (_ ∧ _))

/-- The largest type among the entries covering `a`, 0 if there is none. -/
def typeAt (table : List E820Entry) (a : Nat) : Nat :=
  (table.toFinset.filter (·.Covers a)).sup E820Entry.type

variable {table out : List E820Entry} {e : E820Entry} {a t : Nat}

theorem typeAt_le_iff : typeAt table a ≤ t ↔ ∀ e ∈ table, e.Covers a → e.type ≤ t := by
  simp [typeAt, Finset.sup_le_iff]

theorem le_typeAt (he : e ∈ table) (hc : e.Covers a) : e.type ≤ typeAt table a :=
  typeAt_le_iff.mp le_rfl e he hc

theorem typeAt_eq_zero (h : ∀ e ∈ table, ¬ e.Covers a) : typeAt table a = 0 :=
  Nat.le_zero.mp (typeAt_le_iff.mpr fun e he hc => absurd hc (h e he))

/-- Appending an entry. -/
theorem typeAt_concat (table : List E820Entry) (e : E820Entry) (a : Nat) :
    typeAt (table ++ [e]) a = max (typeAt table a) (if e.Covers a then e.type else 0) := by
  apply le_antisymm
  · refine typeAt_le_iff.mpr fun f hf hc => ?_
    rcases List.mem_append.mp hf with hf | hf
    · exact le_max_of_le_left (le_typeAt hf hc)
    · rw [List.mem_singleton] at hf
      subst hf
      rw [if_pos hc]
      exact le_max_right _ _
  · refine max_le (typeAt_le_iff.mpr fun f hf hc => ?_) ?_
    · exact le_typeAt (List.mem_append_left _ hf) hc
    · split
      · rename_i hc
        exact le_typeAt (by simp) hc
      · exact Nat.zero_le _

/-- Sorted and disjoint, with no empty entry. -/
structure Tidy (out : List E820Entry) : Prop where
  sorted : out.Pairwise fun e f => e.stop ≤ f.addr
  pos : ∀ e ∈ out, 0 < e.size

/-- In a tidy table at most one entry covers an address. -/
theorem Tidy.unique (h : Tidy out) {f : E820Entry} (he : e ∈ out) (hf : f ∈ out)
    (hce : e.Covers a) (hcf : f.Covers a) : e = f := by
  by_contra hne
  have hsymm : Std.Symm fun x y : E820Entry => x.stop ≤ y.addr ∨ y.stop ≤ x.addr :=
    ⟨fun _ _ => Or.symm⟩
  have hpair : out.Pairwise fun x y => x.stop ≤ y.addr ∨ y.stop ≤ x.addr :=
    h.sorted.imp fun hxy => .inl hxy
  have hapart := hpair.forall he hf hne
  obtain ⟨h1, h2⟩ := hce
  obtain ⟨h3, h4⟩ := hcf
  rcases hapart with h | h <;> omega

theorem Tidy.typeAt_eq (h : Tidy out) (he : e ∈ out) (hc : e.Covers a) :
    typeAt out a = e.type := by
  apply le_antisymm
  · exact typeAt_le_iff.mpr fun f hf hcf => by rw [h.unique hf he hcf hc]
  · exact le_typeAt he hc

theorem Tidy.addr_covered (h : Tidy out) (he : e ∈ out) : e.Covers e.addr :=
  ⟨le_rfl, Nat.lt_add_of_pos_right (h.pos e he)⟩

/-! ## Prefixes of the change points -/

section Prefix

variable (T : Nat → E820Entry) (n : Nat)

/-- Where entry `i` starts and where it stops. -/
def startOf (i : Nat) : ChangePoint := ⟨(T i).addr, i⟩

def stopOf (i : Nat) : ChangePoint := ⟨(T i).stop, i⟩

/-- Entry `i` covers `a`, as far as the points in `pre` tell. -/
def Alive (pre : List ChangePoint) (a i : Nat) : Prop :=
  startOf T i ∈ pre ∧ (T i).addr ≤ a ∧ ¬ (stopOf T i ∈ pre ∧ (T i).stop ≤ a)

instance (pre : List ChangePoint) (a i : Nat) : Decidable (Alive T pre a i) :=
  inferInstanceAs (Decidable (_ ∧ _ ∧ ¬ (_ ∧ _)))

/-- The type at `a`, as far as the points in `pre` tell. -/
def typeOf (pre : List ChangePoint) (a : Nat) : Nat :=
  ((Finset.range n).filter (Alive T pre a)).sup fun i => (T i).type

variable {T n} {pre post : List ChangePoint} {p : ChangePoint} {x : Nat}

theorem typeOf_le_iff : typeOf T n pre a ≤ t ↔ ∀ i < n, Alive T pre a i → (T i).type ≤ t := by
  simp [typeOf, Finset.sup_le_iff]

theorem le_typeOf {i : Nat} (hi : i < n) (h : Alive T pre a i) : (T i).type ≤ typeOf T n pre a :=
  typeOf_le_iff.mp le_rfl i hi h

theorem typeOf_congr {pre' : List ChangePoint} {a' : Nat}
    (h : ∀ i < n, Alive T pre a i ↔ Alive T pre' a' i) : typeOf T n pre a = typeOf T n pre' a' := by
  apply le_antisymm
  · exact typeOf_le_iff.mpr fun i hi ha => le_typeOf hi ((h i hi).mp ha)
  · exact typeOf_le_iff.mpr fun i hi ha => le_typeOf hi ((h i hi).mpr ha)

/-- Points at or above `x` say nothing about addresses below `x`. -/
theorem typeOf_append (hpost : ∀ q ∈ post, x ≤ q.addr) (ha : a < x) :
    typeOf T n (pre ++ post) a = typeOf T n pre a := by
  refine typeOf_congr fun i _ => ?_
  unfold Alive
  have hstart : (T i).addr ≤ a → startOf T i ∉ post := fun hle hmem => by
    have := hpost _ hmem
    simp only [startOf] at this
    omega
  have hstop : (T i).stop ≤ a → stopOf T i ∉ post := fun hle hmem => by
    have := hpost _ hmem
    simp only [stopOf] at this
    omega
  simp only [List.mem_append]
  tauto

/-- What holds of the next point `p` when the points in `pre` have been
processed in order. -/
structure NextPoint (T : Nat → E820Entry) (n : Nat) (pre : List ChangePoint) (p : ChangePoint) :
    Prop where
  entry_lt : p.entry < n
  addr_lt : p.addr < 2 ^ 64
  pos : 0 < (T p.entry).size
  kind : p = startOf T p.entry ∨ p = stopOf T p.entry
  fresh : p ∉ pre
  before : ∀ q ∈ pre, q.addr ≤ p.addr
  started : ∀ i, startOf T i ∈ pre → i < n
  opened : p = stopOf T p.entry → startOf T p.entry ∈ pre
  unstopped : p = startOf T p.entry → stopOf T p.entry ∉ pre
  stops_last : ∀ i, stopOf T i ∈ pre → (T i).stop = p.addr → p = stopOf T p.entry

theorem startOf_eq_iff (hp : p = startOf T p.entry) (i : Nat) : startOf T i = p ↔ i = p.entry := by
  refine ⟨fun he => congrArg ChangePoint.entry he, fun he => ?_⟩
  rw [he, ← hp]

theorem stopOf_eq_iff (hp : p = stopOf T p.entry) (i : Nat) : stopOf T i = p ↔ i = p.entry := by
  refine ⟨fun he => congrArg ChangePoint.entry he, fun he => ?_⟩
  rw [he, ← hp]

/-- An entry that is not empty does not stop where it starts. -/
theorem startOf_ne_stopOf {i j : Nat} (hpos : 0 < (T j).size) : startOf T i ≠ stopOf T j := by
  intro he
  simp only [startOf, stopOf, ChangePoint.mk.injEq, E820Entry.stop] at he
  obtain ⟨h1, rfl⟩ := he
  omega

/-- A stop does not raise the type anywhere. -/
theorem NextPoint.typeOf_stop_le (h : NextPoint T n pre p) (hp : p = stopOf T p.entry) :
    typeOf T n (pre ++ [p]) a ≤ typeOf T n pre a := by
  refine typeOf_le_iff.mpr fun i hi ⟨hs, hle, hstop⟩ => le_typeOf hi ⟨?_, hle, ?_⟩
  · rcases List.mem_append.mp hs with hs | hs
    · exact hs
    · exact absurd ((List.mem_singleton.mp hs).trans hp) (startOf_ne_stopOf h.pos)
  · exact fun hc => hstop ⟨List.mem_append_left _ hc.1, hc.2⟩

/-- From the current address on, the type is that of the entries started and
not stopped. -/
theorem alive_iff (hpre : ∀ q ∈ pre, q.addr ≤ x) (ha : x ≤ a) (i : Nat) :
    Alive T pre a i ↔ startOf T i ∈ pre ∧ stopOf T i ∉ pre := by
  unfold Alive
  have hstart : startOf T i ∈ pre → (T i).addr ≤ a := fun hm => (hpre _ hm).trans ha
  have hstop : stopOf T i ∈ pre → (T i).stop ≤ a := fun hm => (hpre _ hm).trans ha
  tauto

/-! ## The overlap list -/

/-- The overlap list holds the entries started and not stopped, once each. -/
structure Tracks (T : Nat → E820Entry) (pre : List ChangePoint) (overlap : List Nat) : Prop where
  nodup : overlap.Nodup
  mem : ∀ i, i ∈ overlap ↔ startOf T i ∈ pre ∧ stopOf T i ∉ pre

theorem NextPoint.isStart_iff (h : NextPoint T n pre p) :
    p.addr = (T p.entry).addr ↔ p = startOf T p.entry := by
  refine ⟨fun he => ?_, fun he => congrArg ChangePoint.addr he⟩
  rcases h.kind with hk | hk
  · exact hk
  · have hpos := h.pos
    have haddr : p.addr = (T p.entry).stop := congrArg ChangePoint.addr hk
    rw [E820Entry.stop] at haddr
    omega

/-- **One change point keeps the overlap list right.** -/
theorem Tracks.step {overlap : List Nat} (h : Tracks T pre overlap) (hp : NextPoint T n pre p) :
    Tracks T (pre ++ [p]) (trackOverlap T overlap p) := by
  unfold trackOverlap
  split
  · rename_i hstart
    rw [hp.isStart_iff] at hstart
    have hnot : p.entry ∉ overlap := by
      rw [h.mem, ← hstart]
      exact fun hc => hp.fresh hc.1
    refine ⟨by rw [← List.concat_eq_append]; exact h.nodup.concat hnot, fun i => ?_⟩
    rw [List.mem_append, List.mem_singleton, List.mem_append, List.mem_singleton, List.mem_append,
      List.mem_singleton, startOf_eq_iff hstart, h.mem]
    have hstop : stopOf T i ≠ p := by
      intro he
      have hi : i = p.entry := congrArg ChangePoint.entry he
      rw [hstart, hi] at he
      exact startOf_ne_stopOf hp.pos he.symm
    have hun := hp.unstopped hstart
    by_cases hi : i = p.entry
    · subst hi
      tauto
    · tauto
  · rename_i hstart
    have hstop : p = stopOf T p.entry :=
      hp.kind.resolve_left fun hk => hstart (hp.isStart_iff.mpr hk)
    have hin : p.entry ∈ overlap := by
      rw [h.mem, ← hstop]
      exact ⟨hp.opened hstop, hp.fresh⟩
    refine ⟨Lib.nodup_swapRemove h.nodup hin, fun i => ?_⟩
    have hne : startOf T i ≠ p := by
      rw [hstop]
      exact startOf_ne_stopOf hp.pos
    rw [Lib.mem_swapRemove h.nodup hin, h.mem, List.mem_append, List.mem_singleton,
      List.mem_append, List.mem_singleton, stopOf_eq_iff hstop]
    tauto

/-- The largest type in the list, as a fold. -/
theorem foldl_type_le_iff (l : List Nat) : ∀ c,
    l.foldl (fun c i => if (T i).type > c then (T i).type else c) c ≤ t ↔
      c ≤ t ∧ ∀ i ∈ l, (T i).type ≤ t := by
  induction l with
  | nil => intro c; simp
  | cons i l ih =>
      intro c
      have hmax : (if (T i).type > c then (T i).type else c) ≤ t ↔ c ≤ t ∧ (T i).type ≤ t := by
        split <;> omega
      rw [List.foldl_cons, ih, List.forall_mem_cons, hmax, and_assoc]

theorem currentType_le_iff {overlap : List Nat} :
    currentType T overlap ≤ t ↔ ∀ i ∈ overlap, (T i).type ≤ t := by
  rw [currentType, foldl_type_le_iff]
  simp

/-- **`current_type` is the type from the current address on.** -/
theorem Tracks.currentType_eq {overlap : List Nat} (h : Tracks T pre overlap)
    (hn : ∀ i, startOf T i ∈ pre → i < n) (hpre : ∀ q ∈ pre, q.addr ≤ x) (ha : x ≤ a) :
    currentType T overlap = typeOf T n pre a := by
  apply le_antisymm
  · refine currentType_le_iff.mpr fun i hi => ?_
    rw [h.mem] at hi
    exact le_typeOf (hn i hi.1) ((alive_iff hpre ha i).mpr hi)
  · refine typeOf_le_iff.mpr fun i hi halive => ?_
    rw [alive_iff hpre ha, ← h.mem] at halive
    exact currentType_le_iff.mp le_rfl i halive

/-! ## The finished entries -/

variable {fin : List E820Entry} {y : Nat}

/-- An entry's type is not the type at its stop, whatever points follow: an
entry of a larger type starts there, or the type has dropped and only stops
follow at this address (starts come first). -/
def Settled (T : Nat → E820Entry) (n : Nat) (pre : List ChangePoint) (e : E820Entry) : Prop :=
  (∃ i < n, startOf T i ∈ pre ∧ (T i).addr = e.stop ∧ 0 < (T i).size ∧ e.type < (T i).type) ∨
  (typeOf T n pre e.stop < e.type ∧ ∃ i, stopOf T i ∈ pre ∧ (T i).stop = e.stop)

theorem Settled.step (h : Settled T n pre e) (hp : NextPoint T n pre p) :
    Settled T n (pre ++ [p]) e := by
  rcases h with ⟨i, hi, hs, hrest⟩ | ⟨hlt, i, hs, he⟩
  · exact .inl ⟨i, hi, List.mem_append_left _ hs, hrest⟩
  · refine .inr ⟨lt_of_le_of_lt ?_ hlt, i, List.mem_append_left _ hs, he⟩
    have hle : (T i).stop ≤ p.addr := hp.before _ hs
    rcases Nat.lt_or_eq_of_le hle with hlt' | heq
    · apply le_of_eq
      refine typeOf_append (x := p.addr) (fun q hq => ?_) (he ▸ hlt')
      rw [List.mem_singleton.mp hq]
    · exact hp.typeOf_stop_le (hp.stops_last i hs heq)

theorem Settled.type_ne (h : Settled T n pre e) : typeOf T n pre e.stop ≠ e.type := by
  rcases h with ⟨i, hi, hs, ha, hpos, hlt⟩ | ⟨hlt, -⟩
  · have halive : Alive T pre e.stop i := by
      refine ⟨hs, le_of_eq ha, fun hc => ?_⟩
      have := hc.2
      rw [E820Entry.stop, ha] at this
      omega
    have := le_typeOf hi halive
    omega
  · exact ne_of_lt hlt

/-- The finished entries denote the types below `x`. -/
structure Built (T : Nat → E820Entry) (n : Nat) (pre : List ChangePoint) (x : Nat)
    (fin : List E820Entry) : Prop where
  tidy : Tidy fin
  stop_le : ∀ e ∈ fin, e.stop ≤ x
  agrees : ∀ a < x, typeAt fin a = typeOf T n pre a
  settled : ∀ e ∈ fin, Settled T n pre e

theorem Built.typeAt_above (h : Built T n pre x fin) (ha : x ≤ a) : typeAt fin a = 0 := by
  refine typeAt_eq_zero fun e he hc => ?_
  have := h.stop_le e he
  have := hc.2
  omega

/-- The next point leaves what is built. -/
theorem Built.step (h : Built T n pre x fin) (hp : NextPoint T n pre p) (hx : x ≤ p.addr) :
    Built T n (pre ++ [p]) x fin := by
  refine ⟨h.tidy, h.stop_le, fun a ha => ?_, fun e he => (h.settled e he).step hp⟩
  rw [h.agrees a ha]
  refine (typeOf_append (x := x) (fun q hq => ?_) ha).symm
  rw [List.mem_singleton.mp hq]
  exact hx

/-- Nothing has to be built where the type is 0. -/
theorem Built.skip (h : Built T n pre y fin) (hyx : y ≤ x)
    (hzero : ∀ a, y ≤ a → a < x → typeOf T n pre a = 0) : Built T n pre x fin := by
  refine ⟨h.tidy, fun e he => (h.stop_le e he).trans hyx, fun a ha => ?_, h.settled⟩
  by_cases hay : a < y
  · exact h.agrees a hay
  · rw [h.typeAt_above (by omega), hzero a (by omega) ha]

/-- **Closing an entry**: one more stretch of a single type. -/
theorem Built.close (h : Built T n pre y fin) (hyx : y < x)
    (htype : ∀ a, y ≤ a → a < x → typeOf T n pre a = t)
    (hset : Settled T n pre ⟨y, x - y, t⟩) : Built T n pre x (fin ++ [⟨y, x - y, t⟩]) := by
  have hstop : (⟨y, x - y, t⟩ : E820Entry).stop = x := by
    simp only [E820Entry.stop]
    omega
  have hcovers : ∀ a, (⟨y, x - y, t⟩ : E820Entry).Covers a ↔ y ≤ a ∧ a < x := by
    intro a
    rw [E820Entry.Covers, hstop]
  refine ⟨⟨?_, ?_⟩, ?_, ?_, ?_⟩
  · rw [List.pairwise_append]
    refine ⟨h.tidy.sorted, List.pairwise_singleton _ _, fun e he f hf => ?_⟩
    rw [List.mem_singleton.mp hf]
    exact h.stop_le e he
  · intro e he
    rcases List.mem_append.mp he with he | he
    · exact h.tidy.pos e he
    · rw [List.mem_singleton.mp he]
      show 0 < x - y
      omega
  · intro e he
    rcases List.mem_append.mp he with he | he
    · exact (h.stop_le e he).trans hyx.le
    · rw [List.mem_singleton.mp he, hstop]
  · intro a ha
    rw [typeAt_concat]
    by_cases hay : a < y
    · rw [if_neg (by rw [hcovers]; omega), h.agrees a hay]
      simp
    · rw [if_pos (by rw [hcovers]; omega), h.typeAt_above (by omega),
        htype a (by omega) ha]
      simp
  · intro e he
    rcases List.mem_append.mp he with he | he
    · exact h.settled e he
    · rw [List.mem_singleton.mp he]
      exact hset

/-! ## The sweep -/

variable {w w' : SweepState}

/-- Writing to the open slot leaves the finished entries. -/
theorem finished_update (w : SweepState) (f : E820Entry) :
    { w with out := Function.update w.out w.count f }.finished = w.finished := by
  refine List.map_congr_left fun k hk => ?_
  rw [List.mem_range] at hk
  exact Function.update_of_ne (Nat.ne_of_lt hk) _ _

theorem finished_succ (w : SweepState) :
    { w with count := w.count + 1 }.finished = w.finished ++ [w.out w.count] := by
  simp [SweepState.finished, List.range_succ]

/-- The open entry starts at `y` and has the last type. -/
def Opened (w : SweepState) (y : Nat) : Prop :=
  w.lastType ≠ 0 → w.lastAddr = y ∧ (w.out w.count).addr = y ∧ (w.out w.count).type = w.lastType

/-- `closeEntry` on an entry that would be empty: it is dropped. -/
theorem closeEntry_empty (h : w.lastAddr = x) :
    (w.closeEntry x).2 = false ∧ (w.closeEntry x).1.finished = w.finished ∧
      (w.closeEntry x).1.count = w.count ∧ (w.closeEntry x).1.overlap = w.overlap := by
  have hsize : (x + 2 ^ 64 - w.lastAddr) % 2 ^ 64 = 0 := by omega
  have hclose : w.closeEntry x =
      ({ w with out := Function.update w.out w.count { w.out w.count with size := 0 } },
        false) := by
    simp only [SweepState.closeEntry, hsize, ne_eq, not_true_eq_false, if_false]
  rw [hclose]
  exact ⟨rfl, finished_update w _, rfl, rfl⟩

/-- `closeEntry` on an entry that is not empty: it is kept. -/
theorem closeEntry_keep (ho : Opened w y) (ht : w.lastType ≠ 0) (hyx : y < x) (hx : x < 2 ^ 64) :
    (w.closeEntry x).2 = decide (w.count + 1 ≥ e820MaxEntries) ∧
      (w.closeEntry x).1.finished = w.finished ++ [⟨y, x - y, w.lastType⟩] ∧
      (w.closeEntry x).1.count = w.count + 1 ∧ (w.closeEntry x).1.overlap = w.overlap := by
  obtain ⟨h1, h2, h3⟩ := ho ht
  have hsize : (x + 2 ^ 64 - w.lastAddr) % 2 ^ 64 = x - y := by omega
  have hne : x - y ≠ 0 := by omega
  have hclose : w.closeEntry x =
      ({ ({ w with out := Function.update w.out w.count { w.out w.count with size := x - y } } :
          SweepState) with count := w.count + 1 }, decide (w.count + 1 ≥ e820MaxEntries)) := by
    simp only [SweepState.closeEntry, hsize, ne_eq, hne, not_false_eq_true, if_true]
  rw [hclose]
  refine ⟨rfl, ?_, rfl, rfl⟩
  rw [finished_succ, finished_update]
  simp [h2, h3]

/-- **The sweep invariant**: the overlap list is right, the finished entries
denote everything below some `y`, and from `y` on the last type holds. -/
structure SweepInv (T : Nat → E820Entry) (n : Nat) (pre : List ChangePoint) (w : SweepState) :
    Prop where
  tracks : Tracks T pre w.overlap
  level : ∃ y, Built T n pre y w.finished ∧ (∀ a, y ≤ a → typeOf T n pre a = w.lastType) ∧
    (y = 0 ∨ ∃ q ∈ pre, y ≤ q.addr) ∧ Opened w y
  count_lt : w.count < e820MaxEntries

theorem SweepInv.start (T : Nat → E820Entry) (n : Nat) : SweepInv T n [] .start := by
  refine ⟨⟨List.nodup_nil, fun i => by simp [SweepState.start]⟩, ?_, by decide⟩
  have hnone : ∀ e, e ∉ SweepState.start.finished := fun e => List.not_mem_nil
  refine ⟨0, ⟨⟨List.Pairwise.nil, fun e he => absurd he (hnone e)⟩,
    fun e he => absurd he (hnone e), fun a ha => absurd ha (Nat.not_lt_zero a),
    fun e he => absurd he (hnone e)⟩, fun a _ => ?_, .inl rfl, fun h => absurd rfl h⟩
  exact Nat.le_zero.mp (typeOf_le_iff.mpr fun i _ hi => absurd hi.1 List.not_mem_nil)

/-- The type changes at the next point: the entry that ends there is settled. -/
theorem settled_of_change (hp : NextPoint T n pre p) (hyp : y ≤ p.addr)
    (hbefore : typeOf T n pre p.addr = t) (hafter : typeOf T n (pre ++ [p]) p.addr ≠ t) :
    Settled T n (pre ++ [p]) ⟨y, p.addr - y, t⟩ := by
  have hstop : (⟨y, p.addr - y, t⟩ : E820Entry).stop = p.addr := by
    simp only [E820Entry.stop]
    omega
  unfold Settled
  rw [hstop]
  rcases hp.kind with hk | hk
  · -- a start can only raise the type, to the type of the entry that starts
    left
    refine ⟨p.entry, hp.entry_lt, by simp [← hk], (hp.isStart_iff.mpr hk).symm, hp.pos, ?_⟩
    by_contra hle
    apply hafter
    apply le_antisymm
    · refine typeOf_le_iff.mpr fun i hi ⟨hs, ha, hno⟩ => ?_
      rcases List.mem_append.mp hs with hs | hs
      · rw [← hbefore]
        exact le_typeOf hi ⟨hs, ha, fun hc => hno ⟨List.mem_append_left _ hc.1, hc.2⟩⟩
      · rw [List.mem_singleton, startOf_eq_iff hk] at hs
        rw [hs]
        exact Nat.le_of_not_lt hle
    · rw [← hbefore]
      refine typeOf_le_iff.mpr fun i hi halive => le_typeOf hi ?_
      rw [alive_iff hp.before le_rfl] at halive
      refine ⟨List.mem_append_left _ halive.1, hp.before _ halive.1, fun hc => ?_⟩
      rcases List.mem_append.mp hc.1 with hc | hc
      · exact halive.2 hc
      · have he := List.mem_singleton.mp hc
        have hi' : i = p.entry := congrArg ChangePoint.entry he
        rw [hi'] at he
        exact startOf_ne_stopOf hp.pos (hk.symm.trans he.symm)
  · right
    refine ⟨lt_of_le_of_ne ?_ hafter, p.entry, by simp [← hk], ?_⟩
    · rw [← hbefore]
      exact hp.typeOf_stop_le hk
    · exact (congrArg ChangePoint.addr hk).symm

/-- What is left when `new_table` is full. -/
structure Full (T : Nat → E820Entry) (n : Nat) (pre : List ChangePoint) (x : Nat)
    (w : SweepState) : Prop where
  built : Built T n pre x w.finished
  count : e820MaxEntries ≤ w.count

/-- Closing at a change of type: the finished entries then reach up to the
change point. -/
theorem Built.closeEntry (h : Built T n pre y w.finished) (hp : NextPoint T n pre p)
    (hyp : y ≤ p.addr) (habove : ∀ a, y ≤ a → typeOf T n pre a = w.lastType)
    (hopen : Opened w y) (hchange : typeOf T n (pre ++ [p]) p.addr ≠ w.lastType)
    (ht : w.lastType ≠ 0) (hcount : w.count < e820MaxEntries) :
    Built T n (pre ++ [p]) p.addr (w.closeEntry p.addr).1.finished ∧
      (w.closeEntry p.addr).1.overlap = w.overlap ∧
      ((w.closeEntry p.addr).2 = true → e820MaxEntries ≤ (w.closeEntry p.addr).1.count) ∧
      ((w.closeEntry p.addr).2 = false → (w.closeEntry p.addr).1.count < e820MaxEntries) := by
  have hbuilt := h.step hp hyp
  rcases Nat.eq_or_lt_of_le hyp with heq | hlt
  · -- the type changed twice at this address
    obtain ⟨h1, h2, h3, h4⟩ := closeEntry_empty (w := w) (x := p.addr) ((hopen ht).1.trans heq)
    rw [h1, h2, h3, h4]
    exact ⟨heq ▸ hbuilt, rfl, fun hc => (by cases hc), fun _ => hcount⟩
  · obtain ⟨h1, h2, h3, h4⟩ := closeEntry_keep hopen ht hlt hp.addr_lt
    have hsame : ∀ a, y ≤ a → a < p.addr → typeOf T n (pre ++ [p]) a = w.lastType := by
      intro a hya hap
      rw [← habove a hya]
      refine typeOf_append (x := p.addr) (fun q hq => ?_) hap
      rw [List.mem_singleton.mp hq]
    have hset := settled_of_change hp hyp (habove p.addr hyp) hchange
    rw [h1, h2, h3, h4]
    refine ⟨hbuilt.close hlt hsame hset, rfl, fun hc => ?_, fun hc => ?_⟩
    · exact of_decide_eq_true hc
    · exact Nat.lt_of_not_le (of_decide_eq_false hc)

/-- Opening the next entry re-establishes the invariant at the change point. -/
theorem SweepInv.opened (htracks : Tracks T pre w.overlap)
    (hbuilt : Built T n pre p.addr w.finished)
    (hp : p ∈ pre) (habove : ∀ a, p.addr ≤ a → typeOf T n pre a = t)
    (hcount : w.count < e820MaxEntries) :
    SweepInv T n pre
      { (if t ≠ 0 then w.openEntry p.addr t else w) with lastType := t } := by
  by_cases ht : t = 0
  · subst ht
    simp only [ne_eq, not_true_eq_false, if_false]
    exact ⟨htracks, ⟨p.addr, hbuilt, habove, .inr ⟨p, hp, le_rfl⟩, fun hc => absurd rfl hc⟩, hcount⟩
  · simp only [ne_eq, ht, not_false_eq_true, if_true]
    have hfin : (w.openEntry p.addr t).finished = w.finished := finished_update w _
    refine ⟨htracks, ⟨p.addr, ?_, habove, .inr ⟨p, hp, le_rfl⟩, fun _ => ⟨rfl, ?_, ?_⟩⟩, hcount⟩
    · rw [← hfin] at hbuilt
      exact hbuilt
    · simp [SweepState.openEntry]
    · simp [SweepState.openEntry]

/-- **One round of the sweep** keeps the invariant, or fills the table with
everything below the change point built. -/
theorem SweepInv.step (h : SweepInv T n pre w) (hp : NextPoint T n pre p) :
    ((sweepStep T w p).2 = false ∧ SweepInv T n (pre ++ [p]) (sweepStep T w p).1) ∨
    ((sweepStep T w p).2 = true ∧ Full T n (pre ++ [p]) p.addr (sweepStep T w p).1) := by
  obtain ⟨y, hbuilt, habove, hreach, hopen⟩ := h.level
  have hyp : y ≤ p.addr := by
    rcases hreach with rfl | ⟨q, hq, hle⟩
    · exact Nat.zero_le _
    · exact hle.trans (hp.before q hq)
  have htracks := h.tracks.step hp
  have hbefore' : ∀ q ∈ pre ++ [p], q.addr ≤ p.addr := by
    intro q hq
    rcases List.mem_append.mp hq with hq | hq
    · exact hp.before q hq
    · rw [List.mem_singleton.mp hq]
  have hstarted' : ∀ i, startOf T i ∈ pre ++ [p] → i < n := by
    intro i hi
    rcases List.mem_append.mp hi with hi | hi
    · exact hp.started i hi
    · have he : i = p.entry := congrArg ChangePoint.entry (List.mem_singleton.mp hi)
      rw [he]
      exact hp.entry_lt
  have hcur : ∀ a, p.addr ≤ a → typeOf T n (pre ++ [p]) a =
      currentType T (trackOverlap T w.overlap p) :=
    fun a ha => (htracks.currentType_eq hstarted' hbefore' ha).symm
  have hmem : p ∈ pre ++ [p] := by simp
  unfold sweepStep
  by_cases hsame : currentType T (trackOverlap T w.overlap p) = w.lastType
  · -- no change of type: the open entry, if any, just grows
    left
    simp only [hsame, if_true]
    refine ⟨trivial, htracks, ⟨y, hbuilt.step hp hyp, fun a ha => ?_, ?_, hopen⟩, h.count_lt⟩
    · by_cases hap : a < p.addr
      · rw [← habove a ha]
        refine typeOf_append (x := p.addr) (fun q hq => ?_) hap
        rw [List.mem_singleton.mp hq]
      · rw [hcur a (by omega), hsame]
    · rcases hreach with h0 | ⟨q, hq, hle⟩
      · exact .inl h0
      · exact .inr ⟨q, List.mem_append_left _ hq, hle⟩
  · simp only [hsame, if_false]
    have hchange : typeOf T n (pre ++ [p]) p.addr ≠ w.lastType := by
      rw [hcur p.addr le_rfl]
      exact hsame
    by_cases ht : w.lastType = 0
    · -- no entry is open
      left
      have hclosed : ¬ (w.lastType ≠ 0) := not_not.mpr ht
      simp only [hclosed, if_false]
      refine ⟨trivial, SweepInv.opened (w := { w with overlap := trackOverlap T w.overlap p })
        htracks ?_ hmem hcur h.count_lt⟩
      refine (hbuilt.step hp hyp).skip hyp fun a hya hap => ?_
      rw [typeOf_append (x := p.addr) (fun q hq => by rw [List.mem_singleton.mp hq]) hap,
        habove a hya, ht]
    · -- the open entry ends here; afterwards the table may be full
      simp only [ht, ne_eq, not_false_eq_true, if_true]
      have hclose := Built.closeEntry (w := { w with overlap := trackOverlap T w.overlap p })
        hbuilt hp hyp habove hopen hchange ht h.count_lt
      revert hclose
      cases SweepState.closeEntry { w with overlap := trackOverlap T w.overlap p } p.addr with
      | mk w₁ full =>
          intro ⟨hb, hov, hfull, hroom⟩
          cases full with
          | true => exact .inr ⟨rfl, hb, hfull rfl⟩
          | false =>
              left
              refine ⟨rfl, SweepInv.opened ?_ hb hmem hcur (hroom rfl)⟩
              rw [hov]
              exact htracks

/-! ## The sorted change points -/

/-- The change points of the entries that are not empty, sorted with starts
before stops. -/
structure SortedPoints (T : Nat → E820Entry) (n : Nat) (pts : List ChangePoint) : Prop where
  addr_lt : ∀ p ∈ pts, p.addr < 2 ^ 64
  mem : ∀ p, p ∈ pts ↔ p.entry < n ∧ 0 < (T p.entry).size ∧
    (p = startOf T p.entry ∨ p = stopOf T p.entry)
  nodup : pts.Nodup
  sorted : pts.Pairwise fun p q =>
    p.addr < q.addr ∨ p.addr = q.addr ∧ (p = startOf T p.entry ∨ q = stopOf T q.entry)

theorem SortedPoints.next (h : SortedPoints T n (pre ++ p :: post)) : NextPoint T n pre p := by
  obtain ⟨hlt, hpos, hkind⟩ := (h.mem p).mp (by simp)
  have hnd := h.nodup
  rw [List.nodup_append, List.nodup_cons] at hnd
  have hsorted := h.sorted
  rw [List.pairwise_append, List.pairwise_cons] at hsorted
  have hbefore : ∀ q ∈ pre, q.addr ≤ p.addr := by
    intro q hq
    rcases hsorted.2.2 q hq p List.mem_cons_self with hlt | ⟨heq, -⟩
    · exact hlt.le
    · exact heq.le
  refine ⟨hlt, h.addr_lt p (by simp), hpos, hkind, fun hp => ?_, hbefore, fun i hi => ?_,
    fun hstop => ?_, fun hstart hstop => ?_, fun i hi he => ?_⟩
  · exact hnd.2.2 p hp p List.mem_cons_self rfl
  · exact ((h.mem _).mp (List.mem_append_left _ hi)).1
  · -- the start is not later: it has a smaller address
    have hmem : startOf T p.entry ∈ pre ++ p :: post := (h.mem _).mpr ⟨hlt, hpos, .inl rfl⟩
    have haddr : (startOf T p.entry).addr < p.addr := by
      rw [hstop]
      exact Nat.lt_add_of_pos_right hpos
    rcases List.mem_append.mp hmem with hm | hm
    · exact hm
    · rcases List.mem_cons.mp hm with hm | hm
      · rw [hm] at haddr
        exact absurd haddr (Nat.lt_irrefl _)
      · rcases hsorted.2.1.1 _ hm with hlt' | ⟨heq, -⟩ <;> omega
  · have hle := hbefore _ hstop
    have haddr : p.addr = (T p.entry).addr := congrArg ChangePoint.addr hstart
    simp only [stopOf, E820Entry.stop] at hle
    omega
  · rcases hsorted.2.2 _ hi p List.mem_cons_self with hlt' | ⟨-, hs | hs⟩
    · simp only [stopOf] at hlt'
      omega
    · have hpos' := ((h.mem _).mp (List.mem_append_left (p :: post) hi)).2.1
      exact absurd hs.symm (startOf_ne_stopOf hpos')
    · exact hs

/-- **The whole sweep**: it ends with the invariant over all points, or with a
full table that is right below the point it stopped at. -/
theorem SweepInv.sweep (post : List ChangePoint) : ∀ {pre : List ChangePoint} {w : SweepState},
    SweepInv T n pre w → SortedPoints T n (pre ++ post) →
    SweepInv T n (pre ++ post) (sweep T w post) ∨
    ∃ done rest x, pre ++ post = done ++ rest ∧ (∀ q ∈ rest, x ≤ q.addr) ∧
      Full T n done x (sweep T w post) := by
  induction post with
  | nil =>
      intro pre w h _
      rw [List.append_nil]
      exact .inl h
  | cons p post ih =>
      intro pre w h hpts
      have hassoc : pre ++ p :: post = (pre ++ [p]) ++ post := by simp
      have hstep := h.step hpts.next
      unfold Arch.sweep
      revert hstep
      cases sweepStep T w p with
      | mk w' full =>
          intro hstep
          rcases hstep with ⟨rfl, hinv⟩ | ⟨rfl, hfull⟩
          · rw [hassoc] at hpts ⊢
            exact ih hinv hpts
          · -- full: the points left are all at or above this one
            refine .inr ⟨pre ++ [p], post, p.addr, hassoc, fun q hq => ?_, hfull⟩
            have hsorted := hpts.sorted
            rw [List.pairwise_append, List.pairwise_cons] at hsorted
            rcases hsorted.2.1.1 q hq with hlt | ⟨heq, -⟩
            · exact hlt.le
            · exact heq.le

/-- A point comes strictly first: smaller address, or a start before a stop. -/
theorem changePointCmp_lt_iff (a b : ChangePoint) :
    changePointCmp T a b < 0 ↔ a.addr < b.addr ∨
      (a.addr = b.addr ∧ a.addr = (T a.entry).addr ∧ b.addr ≠ (T b.entry).addr) := by
  unfold changePointCmp
  split_ifs <;> omega

theorem changePoints_spec (hwrap : ∀ i < n, (T i).stop < 2 ^ 64) :
    ∃ ps, changePoints T n = some ps ∧ ps.Nodup ∧ ∀ p, p ∈ ps ↔ p.entry < n ∧
      0 < (T p.entry).size ∧ (p = startOf T p.entry ∨ p = stopOf T p.entry) := by
  induction n with
  | zero => exact ⟨[], rfl, List.nodup_nil, fun p => by simp⟩
  | succ n ih =>
      obtain ⟨ps, he, hnd, hmem⟩ := ih fun i hi => hwrap i (by omega)
      have hn := hwrap n (Nat.lt_succ_self n)
      have hstop : ((T n).addr + (T n).size) % 2 ^ 64 = (T n).stop := Nat.mod_eq_of_lt hn
      have hle : ¬ (T n).stop < (T n).addr := by
        rw [E820Entry.stop]
        omega
      have hsplit : ∀ i, i < n + 1 ↔ i < n ∨ i = n := fun i => by omega
      by_cases hpos : (T n).size > 0
      · refine ⟨ps ++ [startOf T n, stopOf T n], ?_, ?_, fun p => ?_⟩
        · simp only [changePoints, he, hstop, hle, if_false, hpos, if_true]
          rfl
        · rw [List.nodup_append]
          refine ⟨hnd, ?_, fun p hp q hq => ?_⟩
          · simpa using startOf_ne_stopOf hpos
          · have hlt := ((hmem p).mp hp).1
            rintro rfl
            simp only [List.mem_cons, List.not_mem_nil, or_false] at hq
            rcases hq with rfl | rfl <;> exact Nat.lt_irrefl _ hlt
        · rw [List.mem_append, hmem, hsplit]
          simp only [List.mem_cons, List.not_mem_nil, or_false]
          constructor
          · rintro (⟨h1, h2⟩ | rfl | rfl)
            · exact ⟨.inl h1, h2⟩
            · exact ⟨.inr rfl, hpos, .inl rfl⟩
            · exact ⟨.inr rfl, hpos, .inr rfl⟩
          · rintro ⟨h1 | h1, h2, h3⟩
            · exact .inl ⟨h1, h2, h3⟩
            · rw [h1] at h3
              exact .inr h3
      · refine ⟨ps, ?_, hnd, fun p => ?_⟩
        · simp only [changePoints, he, hstop, hle, if_false, hpos]
        · rw [hmem, hsplit]
          constructor
          · rintro ⟨h1, h2⟩
            exact ⟨.inl h1, h2⟩
          · rintro ⟨h1 | h1, h2, h3⟩
            · exact ⟨h1, h2, h3⟩
            · rw [h1] at h2
              exact absurd h2 hpos

/-- **Collecting and sorting** gives the sorted change points. -/
theorem sortPoints_spec (hwrap : ∀ i < n, (T i).stop < 2 ^ 64) :
    ∃ ps, changePoints T n = some ps ∧ SortedPoints T n (sortPoints T ps) := by
  obtain ⟨ps, he, hnd, hmem⟩ := changePoints_spec hwrap
  have hperm : (sortPoints T ps).Perm ps := Lib.sortRight_perm ps
  refine ⟨ps, he, fun p hp => ?_, fun p => ?_, hperm.nodup_iff.mpr hnd, ?_⟩
  · obtain ⟨h1, h2, h3⟩ := (hmem p).mp (hperm.mem_iff.mp hp)
    have hw := hwrap _ h1
    rcases h3 with h3 | h3 <;> rw [h3]
    · exact lt_of_le_of_lt (Nat.le_add_right _ _) hw
    · exact hw
  · rw [hperm.mem_iff, hmem]
  · have hsorted : (sortPoints T ps).Pairwise
        fun a b => decide (changePointCmp T b a < 0) = false := Lib.sortRight_sorted
      (fun a b h => by
        simp only [decide_eq_true_eq, decide_eq_false_iff_not, changePointCmp_lt_iff] at h ⊢
        omega)
      (fun a b c h1 h2 => by
        simp only [decide_eq_true_eq, changePointCmp_lt_iff] at h1 h2 ⊢
        omega) ps
    refine hsorted.imp_of_mem fun {p q} hp hq hpq => ?_
    obtain ⟨-, hpos, hkp⟩ := (hmem p).mp (hperm.mem_iff.mp hp)
    obtain ⟨-, -, hkq⟩ := (hmem q).mp (hperm.mem_iff.mp hq)
    simp only [decide_eq_false_iff_not, changePointCmp_lt_iff, not_or, not_and] at hpq
    rcases Nat.lt_or_eq_of_le (Nat.le_of_not_lt hpq.1) with hlt | heq
    · exact .inl hlt
    · refine .inr ⟨heq, ?_⟩
      rcases hkp with hkp | hkp
      · exact .inl hkp
      · rcases hkq with hkq | hkq
        · -- a start after a stop at the same address
          have hps : p.addr = (T p.entry).stop := congrArg ChangePoint.addr hkp
          have hqs : q.addr = (T q.entry).addr := congrArg ChangePoint.addr hkq
          have hne := hpq.2 heq.symm hqs
          rw [E820Entry.stop] at hps
          omega
        · exact .inr hkq

theorem entriesOf_eq {i : Nat} (hi : i < table.length) : entriesOf table i = table[i] := by
  simp [entriesOf, hi]

/-- After all points nothing is left out: the type is that of the table. -/
theorem SortedPoints.typeOf_eq {pts : List ChangePoint}
    (h : SortedPoints (entriesOf table) table.length pts) (a : Nat) :
    typeOf (entriesOf table) table.length pts a = typeAt table a := by
  have hget : ∀ i < table.length, entriesOf table i ∈ table := by
    intro i hi
    rw [entriesOf_eq hi]
    exact List.getElem_mem hi
  apply le_antisymm
  · refine typeOf_le_iff.mpr fun i hi ⟨hs, hle, hno⟩ => le_typeAt (hget i hi) ⟨hle, ?_⟩
    have hpos := ((h.mem _).mp hs).2.1
    exact Nat.lt_of_not_le fun hc => hno ⟨(h.mem _).mpr ⟨hi, hpos, .inr rfl⟩, hc⟩
  · refine typeAt_le_iff.mpr fun e he ⟨hle, hlt⟩ => ?_
    obtain ⟨i, hi, rfl⟩ := List.getElem_of_mem he
    rw [← entriesOf_eq hi] at hle hlt ⊢
    have hpos : 0 < (entriesOf table i).size := by
      rw [E820Entry.stop] at hlt
      omega
    exact le_typeOf hi ⟨(h.mem _).mpr ⟨hi, hpos, .inl rfl⟩, hle, fun hc => by omega⟩

end Prefix

/-! ## The sanitized table -/

/-- What `e820_sanitize` promises of its output. -/
structure Sanitized (table out : List E820Entry) : Prop where
  tidy : Tidy out
  merged : ∀ e ∈ out, ∀ f ∈ out, e.stop = f.addr → e.type ≠ f.type
  below : ∀ e ∈ out, ∀ a < e.stop, typeAt out a = typeAt table a
  everywhere : out.length < e820MaxEntries → ∀ a, typeAt out a = typeAt table a

/-- What is built below `x` from the first points is final, and touching
entries of equal type cannot occur in it. -/
theorem Built.sanitized {done rest : List ChangePoint} {x : Nat}
    (hpts : SortedPoints (entriesOf table) table.length (done ++ rest))
    (hrest : ∀ q ∈ rest, x ≤ q.addr)
    (h : Built (entriesOf table) table.length done x out) :
    Tidy out ∧ (∀ e ∈ out, ∀ f ∈ out, e.stop = f.addr → e.type ≠ f.type) ∧
      ∀ a < x, typeAt out a = typeAt table a := by
  have hbelow : ∀ a < x, typeAt out a = typeAt table a := by
    intro a ha
    rw [h.agrees a ha, ← hpts.typeOf_eq, typeOf_append hrest ha]
  refine ⟨h.tidy, fun e he f hf htouch heq => ?_, hbelow⟩
  have hcov := h.tidy.addr_covered hf
  have hlt : f.addr < x := lt_of_lt_of_le hcov.2 (h.stop_le f hf)
  apply (h.settled e he).type_ne
  rw [htouch, ← h.agrees _ hlt, h.tidy.typeAt_eq hf hcov, heq]

/-- When all points are processed the last type is 0, since every entry has
stopped below `2 ^ 64`; so the finished entries denote the whole table. -/
theorem Built.typeAt_eq {pts : List ChangePoint} {y last : Nat}
    (hpts : SortedPoints (entriesOf table) table.length pts)
    (hwrap : ∀ e ∈ table, e.addr + e.size < 2 ^ 64)
    (h : Built (entriesOf table) table.length pts y out)
    (habove : ∀ a, y ≤ a → typeOf (entriesOf table) table.length pts a = last) (a : Nat) :
    typeAt out a = typeAt table a := by
  have hlast : last = 0 := by
    rw [← habove (max y (2 ^ 64)) (le_max_left _ _), hpts.typeOf_eq]
    refine typeAt_eq_zero fun e he hc => ?_
    have h1 := hwrap e he
    have h2 := hc.2
    rw [E820Entry.stop] at h2
    omega
  by_cases ha : a < y
  · rw [h.agrees a ha, hpts.typeOf_eq]
  · rw [h.typeAt_above (Nat.le_of_not_lt ha), ← hpts.typeOf_eq, habove a (Nat.le_of_not_lt ha),
      hlast]

theorem entriesOf_stop_lt (hwrap : ∀ e ∈ table, e.addr + e.size < 2 ^ 64) :
    ∀ i < table.length, (entriesOf table i).stop < 2 ^ 64 := by
  intro i hi
  rw [entriesOf_eq hi]
  exact hwrap _ (List.getElem_mem hi)

/-- The specification of `e820_sanitize`. -/
theorem e820Sanitize_spec (hmin : 2 ≤ table.length) (hmax : table.length ≤ 256)
    (hwrap : ∀ e ∈ table, e.addr + e.size < 2 ^ 64) :
    ∃ out, e820Sanitize table = some out ∧ Sanitized table out := by
  obtain ⟨ps, hps, hpts⟩ := sortPoints_spec (entriesOf_stop_lt hwrap)
  have hlen : ¬ table.length > e820MaxEntries := Nat.not_lt.mpr hmax
  refine ⟨(sweep (entriesOf table) .start (sortPoints (entriesOf table) ps)).finished, ?_, ?_⟩
  · simp only [e820Sanitize, Nat.not_lt.mpr hmin, if_false, hlen, hps]
  · generalize sortPoints (entriesOf table) ps = pts at hpts ⊢
    have hrun := (SweepInv.start (entriesOf table) table.length).sweep pts
      (by rw [List.nil_append]; exact hpts)
    rw [List.nil_append] at hrun
    rcases hrun with hinv | ⟨done, rest, x, hsplit, hrest, hfull⟩
    · obtain ⟨y, hbuilt, habove, -⟩ := hinv.level
      have hall := hbuilt.typeAt_eq hpts hwrap habove
      rw [← List.append_nil pts] at hpts
      obtain ⟨h1, h2, -⟩ := hbuilt.sanitized hpts fun q hq => absurd hq List.not_mem_nil
      exact ⟨h1, h2, fun _ _ a _ => hall a, fun _ a => hall a⟩
    · rw [hsplit] at hpts
      obtain ⟨h1, h2, h3⟩ := hfull.built.sanitized hpts hrest
      refine ⟨h1, h2, fun e he a ha => h3 a (lt_of_lt_of_le ha (hfull.built.stop_le e he)),
        fun hlt => ?_⟩
      rw [SweepState.finished, List.length_map, List.length_range] at hlt
      exact absurd hfull.count (Nat.not_le.mpr hlt)

/-- **`e820_sanitize` is exact**: on every table of 2 to 256 entries none of
which wraps it returns 0, and the output is sorted, disjoint, without empty
entries or touching entries of equal type, and gives each address below the
end of its last entry (every address, when it has room to spare) the largest
type of the input entries that cover it. -/
theorem e820Sanitize_exact (table : List E820Entry) (hmin : 2 ≤ table.length)
    (hmax : table.length ≤ 256) (hwrap : ∀ e ∈ table, e.addr + e.size < 2 ^ 64) :
    ∃ out, e820Sanitize table = some out ∧
      out.Pairwise (fun e f => e.addr + e.size ≤ f.addr) ∧ (∀ e ∈ out, 0 < e.size) ∧
      (∀ e ∈ out, ∀ f ∈ out, e.addr + e.size = f.addr → e.type ≠ f.type) ∧
      (∀ e ∈ out, ∀ a < e.addr + e.size, typeAt out a = typeAt table a) ∧
      (out.length < 256 → ∀ a, typeAt out a = typeAt table a) := by
  obtain ⟨out, he, h⟩ := e820Sanitize_spec hmin hmax hwrap
  exact ⟨out, he, h.tidy.sorted, h.tidy.pos, h.merged, h.below, h.everywhere⟩

/-- A reserved entry across the end of a RAM entry, and a duplicate. -/
def overlappingTable : List E820Entry :=
  [⟨0, 0x9fc00, 1⟩, ⟨0x9f000, 0x2000, 2⟩, ⟨0, 0x9fc00, 1⟩]

theorem e820Sanitize_exact_overlapping :
    ∃ out, e820Sanitize overlappingTable = some out ∧
      out.Pairwise (fun e f => e.addr + e.size ≤ f.addr) ∧ (∀ e ∈ out, 0 < e.size) ∧
      (∀ e ∈ out, ∀ f ∈ out, e.addr + e.size = f.addr → e.type ≠ f.type) ∧
      (∀ e ∈ out, ∀ a < e.addr + e.size, typeAt out a = typeAt overlappingTable a) ∧
      (out.length < 256 → ∀ a, typeAt out a = typeAt overlappingTable a) :=
  e820Sanitize_exact overlappingTable (by decide) (by decide) (by decide)

end DevOS.Arch
