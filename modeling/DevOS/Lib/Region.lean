import Mathlib.Logic.Function.Basic
import Mathlib.Data.List.Basic

/-!
# Regions of memory

A REGION is the memory around a pointer, by offset, together with the offsets
that have been stored to; so what code has not stored to can be stated too.

The loops here store in one cell after the other. One that copies cells of the
region to others gives a copy of the old region as long as no cell is read after
it has been overwritten; which cells those are depends on the order. A loop that
counts up may copy downwards, one that counts down upwards.
-/

namespace DevOS.Lib

/-- `for (i = a; i < b; i++)`. -/
def countUp (a b : Int) : List Int := (List.range (b - a).toNat).map fun k : Nat => a + k

/-- `for (i = a; i >= b; i--)`. -/
def countDown (a b : Int) : List Int := (List.range (a - b + 1).toNat).map fun k : Nat => a - k

theorem mem_countUp {a b i : Int} : i ∈ countUp a b ↔ a ≤ i ∧ i < b := by
  rw [countUp, List.mem_map]
  constructor
  · rintro ⟨k, hk, rfl⟩
    have := List.mem_range.mp hk
    omega
  · intro h
    exact ⟨(i - a).toNat, List.mem_range.mpr (by omega), by omega⟩

theorem mem_countDown {a b i : Int} : i ∈ countDown a b ↔ b ≤ i ∧ i ≤ a := by
  rw [countDown, List.mem_map]
  constructor
  · rintro ⟨k, hk, rfl⟩
    have := List.mem_range.mp hk
    omega
  · intro h
    exact ⟨(a - i).toNat, List.mem_range.mpr (by omega), by omega⟩

theorem countUp_sorted (a b : Int) : (countUp a b).Pairwise fun i j => i < j := by
  rw [countUp, List.pairwise_map]
  refine List.pairwise_lt_range.imp fun h => ?_
  omega

theorem countDown_sorted (a b : Int) : (countDown a b).Pairwise fun i j => j < i := by
  rw [countDown, List.pairwise_map]
  refine List.pairwise_lt_range.imp fun h => ?_
  omega

/-- The first of the numbers. -/
theorem countUp_cons {a b : Int} (h : a < b) : countUp a b = a :: countUp (a + 1) b := by
  have hlen : (b - a).toNat = (b - (a + 1)).toNat + 1 := by omega
  rw [countUp, hlen, List.range_succ_eq_map, List.map_cons, List.map_map, countUp]
  refine congrArg₂ _ (by omega) (List.map_congr_left fun k _ => ?_)
  simp only [Function.comp_apply]
  omega

/-- The cells, by offset, and the offsets that have been stored to. -/
structure Region (β : Type) where
  cells : Int → β
  stores : List Int

namespace Region

variable {β : Type}

/-- A region that nothing has been stored to. -/
def start (cells : Int → β) : Region β := ⟨cells, []⟩

/-- A store. -/
def store (m : Region β) (i : Int) (v : β) : Region β :=
  ⟨Function.update m.cells i v, m.stores ++ [i]⟩

theorem store_cells (m : Region β) (i : Int) (v : β) (k : Int) :
    (m.store i v).cells k = if k = i then v else m.cells k := Function.update_apply ..

theorem mem_store {m : Region β} {i k : Int} {v : β} :
    k ∈ (m.store i v).stores ↔ k ∈ m.stores ∨ k = i := by
  rw [store, List.mem_append, List.mem_singleton]

/-- Store in every cell of the list, in order, what the cells as they are by
then give for it. -/
def storeLoop (value : (Int → β) → Int → β) (order : List Int) (m : Region β) : Region β :=
  order.foldl (fun m i => m.store i (value m.cells i)) m

theorem mem_storeLoop {value : (Int → β) → Int → β} {k : Int} : ∀ {order : List Int}
    {m : Region β}, k ∈ (m.storeLoop value order).stores ↔ k ∈ m.stores ∨ k ∈ order := by
  intro order
  induction order with
  | nil =>
      intro m
      exact ⟨.inl, fun h => h.elim id fun h => nomatch h⟩
  | cons i order ih =>
      intro m
      have hgo : m.storeLoop value (i :: order) =
          (m.store i (value m.cells i)).storeLoop value order := rfl
      rw [hgo, ih, mem_store, List.mem_cons, or_assoc]

/-- **A copy**: each cell gets what its source held before the loop, if no
source is a cell that was stored before it is read. -/
theorem storeLoop_copy {src : Int → Int} : ∀ {order : List Int} (m : Region β) (i : Int),
    (order.Pairwise fun i j => src j ≠ i) →
    (m.storeLoop (fun cells i => cells (src i)) order).cells i =
      if i ∈ order then m.cells (src i) else m.cells i := by
  intro order
  induction order with
  | nil => intro m i _; rfl
  | cons a order ih =>
      intro m i hord
      obtain ⟨hsrc, hord⟩ := List.pairwise_cons.mp hord
      have hgo : m.storeLoop (fun cells i => cells (src i)) (a :: order) =
          (m.store a (m.cells (src a))).storeLoop (fun cells i => cells (src i)) order := rfl
      rw [hgo, ih _ i hord, store_cells, store_cells]
      by_cases hmem : i ∈ order
      · -- the source of `i` is still what it was
        rw [if_pos hmem, if_pos (List.mem_cons_of_mem _ hmem), if_neg (hsrc i hmem)]
      · rw [if_neg hmem]
        by_cases hi : i = a
        · rw [if_pos hi, if_pos (hi ▸ List.mem_cons_self), hi]
        · rw [if_neg hi, if_neg fun h => (List.mem_cons.mp h).elim hi hmem]

/-- Counting up, cells may be copied downwards. -/
theorem storeLoop_down {d : Int} (hd : 0 ≤ d) (a b : Int) (m : Region β) (i : Int) :
    (m.storeLoop (fun cells i => cells (i + d)) (countUp a b)).cells i =
      if a ≤ i ∧ i < b then m.cells (i + d) else m.cells i := by
  rw [storeLoop_copy m i ((countUp_sorted a b).imp fun h => by omega)]
  simp only [mem_countUp]

/-- Counting down, they may be copied upwards. -/
theorem storeLoop_up {d : Int} (hd : 0 ≤ d) (a b : Int) (m : Region β) (i : Int) :
    (m.storeLoop (fun cells i => cells (i - d)) (countDown a b)).cells i =
      if b ≤ i ∧ i ≤ a then m.cells (i - d) else m.cells i := by
  rw [storeLoop_copy m i ((countDown_sorted a b).imp fun h => by omega)]
  simp only [mem_countDown]

/-- **A fill.** -/
theorem storeLoop_fill (v : β) (a b : Int) (m : Region β) (i : Int) :
    (m.storeLoop (fun _ _ => v) (countUp a b)).cells i =
      if a ≤ i ∧ i < b then v else m.cells i := by
  have hall : ∀ (order : List Int) (m : Region β),
      (m.storeLoop (fun _ _ => v) order).cells i = if i ∈ order then v else m.cells i := by
    intro order
    induction order with
    | nil => intro m; rfl
    | cons a order ih =>
        intro m
        have hgo : m.storeLoop (fun _ _ => v) (a :: order) =
            (m.store a v).storeLoop (fun _ _ => v) order := rfl
        rw [hgo, ih, store_cells]
        by_cases hi : i = a
        · rw [if_pos hi, ite_self, if_pos (hi ▸ List.mem_cons_self)]
        · rw [if_neg hi]
          simp only [List.mem_cons, hi, false_or]
  rw [hall]
  simp only [mem_countUp]

end Region

end DevOS.Lib
