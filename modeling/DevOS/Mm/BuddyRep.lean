import DevOS.Lib.LinkedList
import DevOS.Lib.Tiling
import DevOS.Mm.Buddy

/-!
# Buddy allocator — representation

What the allocator's globals mean. The `state`/`order` fields record an
aligned block `Tiling` of the managed frames, and `free_matrix[k]` heads the
doubly linked list of the free blocks of order `k`. Inside an operation a
free block can be in the hands of the running code and on no list; `off`
names those pages, and is empty between operations.

Each list primitive gets one spec lemma here: what it does to the lists, and
that it leaves the block map alone.
-/

namespace DevOS.Mm

open DevOS.Lib

/-! ## Field access -/

abbrev Buddy.state (b : Buddy) (p : Nat) : PageState := (b.memMap p).state
abbrev Buddy.order (b : Buddy) (p : Nat) : Nat := (b.memMap p).order
abbrev Buddy.next (b : Buddy) (p : Nat) : Option Nat := (b.memMap p).next
abbrev Buddy.prev (b : Buddy) (p : Nat) : Option Nat := (b.memMap p).prev

@[simp] theorem setPage_memMap (b : Buddy) (p : Nat) (f : Page → Page) (q : Nat) :
    (b.setPage p f).memMap q = if q = p then f (b.memMap p) else b.memMap q := by
  simp [Buddy.setPage, Function.update_apply]

@[simp] theorem setPage_freeMatrix (b : Buddy) (p : Nat) (f : Page → Page) :
    (b.setPage p f).freeMatrix = b.freeMatrix := rfl

@[simp] theorem setPage_memNrPages (b : Buddy) (p : Nat) (f : Page → Page) :
    (b.setPage p f).memNrPages = b.memNrPages := rfl

@[simp] theorem setHead_memMap (b : Buddy) (k : Nat) (v : Option Nat) :
    (b.setHead k v).memMap = b.memMap := rfl

@[simp] theorem setHead_freeMatrix (b : Buddy) (k : Nat) (v : Option Nat) :
    (b.setHead k v).freeMatrix = Function.update b.freeMatrix k v := rfl

@[simp] theorem setHead_memNrPages (b : Buddy) (k : Nat) (v : Option Nat) :
    (b.setHead k v).memNrPages = b.memNrPages := rfl

@[simp] theorem setPrev?_memMap (b : Buddy) (q v : Option Nat) (x : Nat) :
    (b.setPrev? q v).memMap x =
      if q = some x then { b.memMap x with prev := v } else b.memMap x := by
  cases q with
  | none => simp [Buddy.setPrev?]
  | some q =>
      by_cases hx : x = q
      · simp [Buddy.setPrev?, hx]
      · simp [Buddy.setPrev?, hx, Ne.symm hx]

@[simp] theorem setPrev?_freeMatrix (b : Buddy) (q v : Option Nat) :
    (b.setPrev? q v).freeMatrix = b.freeMatrix := by
  cases q <;> rfl

@[simp] theorem setPrev?_memNrPages (b : Buddy) (q v : Option Nat) :
    (b.setPrev? q v).memNrPages = b.memNrPages := by
  cases q <;> rfl

/-! ## The block map -/

/-- The block mark of a frame. -/
def Buddy.cell (b : Buddy) (i : Nat) : Cell :=
  if i < b.memNrPages then
    match b.state i with
    | .reserved => .vacant
    | .buddy => .head (b.order i)
    | .allocated => .head (b.order i)
    | .tail => .tail
  else .vacant

theorem cell_eq_head {b : Buddy} {i k : Nat} :
    b.cell i = .head k ↔
      i < b.memNrPages ∧ (b.state i = .buddy ∨ b.state i = .allocated) ∧ b.order i = k := by
  unfold Buddy.cell
  by_cases h : i < b.memNrPages
  · cases hs : b.state i <;> simp [h]
  · simp [h]

theorem cell_eq_tail {b : Buddy} {i : Nat} :
    b.cell i = .tail ↔ i < b.memNrPages ∧ b.state i = .tail := by
  unfold Buddy.cell
  by_cases h : i < b.memNrPages
  · cases hs : b.state i <;> simp [h]
  · simp [h]

theorem cell_eq_vacant {b : Buddy} {i : Nat} :
    b.cell i = .vacant ↔ (i < b.memNrPages → b.state i = .reserved) := by
  unfold Buddy.cell
  by_cases h : i < b.memNrPages
  · cases hs : b.state i <;> simp [h]
  · simp [h]

/-- The block mark reads the `state` and `order` fields only. -/
theorem cell_congr {b b' : Buddy} {i : Nat} (hn : b'.memNrPages = b.memNrPages)
    (hs : b'.state i = b.state i) (ho : b'.order i = b.order i) : b'.cell i = b.cell i := by
  unfold Buddy.cell
  rw [hn, hs, ho]

/-! ## The free lists -/

/-- `free_matrix[k]` heads the list `L k` of exactly the free blocks of order
`k` that are not in hand. -/
structure FreeLists (b : Buddy) (off : Nat → Prop) (L : Nat → List Nat) : Prop where
  list : ∀ k, k ≤ pageMaxOrder → DList b.next b.prev (b.freeMatrix k) (L k)
  mem : ∀ k, k ≤ pageMaxOrder → ∀ x, x ∈ L k ↔
    x < b.memNrPages ∧ b.state x = .buddy ∧ b.order x = k ∧ ¬ off x

/-- Fields other than the links can change as long as the same pages belong
on the same lists. -/
theorem FreeLists.congr {b b' : Buddy} {off off' : Nat → Prop} {L : Nat → List Nat}
    (h : FreeLists b off L) (hhead : b'.freeMatrix = b.freeMatrix)
    (hlink : ∀ k, k ≤ pageMaxOrder → ∀ x ∈ L k, b'.next x = b.next x ∧ b'.prev x = b.prev x)
    (hmem : ∀ x, x < b'.memNrPages ∧ b'.state x = .buddy ∧ ¬ off' x ↔
      x < b.memNrPages ∧ b.state x = .buddy ∧ ¬ off x)
    (hord : ∀ x, b.state x = .buddy → ¬ off x → b'.order x = b.order x) :
    FreeLists b' off' L := by
  refine ⟨fun k hk => ?_, fun k hk x => ?_⟩
  · rw [hhead]
    exact (h.list k hk).congr (hlink k hk)
  · rw [h.mem k hk x]
    have := hmem x
    constructor
    · rintro ⟨h1, h2, h3, h4⟩
      obtain ⟨g1, g2, g3⟩ := this.mpr ⟨h1, h2, h4⟩
      exact ⟨g1, g2, (hord x h2 h4).trans h3, g3⟩
    · rintro ⟨h1, h2, h3, h4⟩
      obtain ⟨g1, g2, g3⟩ := this.mp ⟨h1, h2, h4⟩
      exact ⟨g1, g2, (hord x g2 g3).symm.trans h3, g3⟩

/-- A page on a list is on the list of its own order only. -/
theorem FreeLists.order_eq {b : Buddy} {off : Nat → Prop} {L : Nat → List Nat}
    (h : FreeLists b off L) {k x : Nat} (hk : k ≤ pageMaxOrder) (hx : x ∈ L k) :
    b.order x = k := ((h.mem k hk x).mp hx).2.2.1

/-- The head of a list is a member of it. -/
theorem FreeLists.head_mem {b : Buddy} {off : Nat → Prop} {L : Nat → List Nat}
    (h : FreeLists b off L) {k x : Nat} (hk : k ≤ pageMaxOrder)
    (hx : b.freeMatrix k = some x) : x ∈ L k := by
  have := (h.list k hk).head_eq
  rw [hx] at this
  exact List.mem_of_head? this.symm

/-- What a list primitive may not touch: the size of the map and every page's
`state` and `order`. -/
structure SameMap (b b' : Buddy) : Prop where
  nr : b'.memNrPages = b.memNrPages
  state : ∀ q, b'.state q = b.state q
  order : ∀ q, b'.order q = b.order q

theorem SameMap.cell {b b' : Buddy} (h : SameMap b b') : b'.cell = b.cell := by
  funext i
  exact cell_congr h.nr (h.state i) (h.order i)

/-! ## The list primitives do not touch the map -/

theorem SameMap.refl (b : Buddy) : SameMap b b := ⟨rfl, fun _ => rfl, fun _ => rfl⟩

theorem SameMap.trans {b b' b'' : Buddy} (h : SameMap b b') (h' : SameMap b' b'') :
    SameMap b b'' :=
  ⟨h'.nr.trans h.nr, fun q => (h'.state q).trans (h.state q),
    fun q => (h'.order q).trans (h.order q)⟩

theorem setPage_sameMap (b : Buddy) (p : Nat) {f : Page → Page}
    (hstate : ∀ pg, (f pg).state = pg.state) (horder : ∀ pg, (f pg).order = pg.order) :
    SameMap b (b.setPage p f) := by
  refine ⟨rfl, fun q => ?_, fun q => ?_⟩
  · show ((b.setPage p f).memMap q).state = _
    rw [setPage_memMap]
    split
    · rename_i hq
      rw [hq, hstate]
    · rfl
  · show ((b.setPage p f).memMap q).order = _
    rw [setPage_memMap]
    split
    · rename_i hq
      rw [hq, horder]
    · rfl

theorem setHead_sameMap (b : Buddy) (k : Nat) (v : Option Nat) : SameMap b (b.setHead k v) :=
  ⟨rfl, fun _ => rfl, fun _ => rfl⟩

theorem setPrev?_sameMap (b : Buddy) (q v : Option Nat) : SameMap b (b.setPrev? q v) := by
  cases q with
  | none => exact SameMap.refl b
  | some q =>
      show SameMap b (b.setPage q fun pg => { pg with prev := v })
      exact setPage_sameMap b q (by intro; rfl) (by intro; rfl)

/-- `remove_free` works on any links and keeps the map. -/
theorem removeFree_sameMap {b : Buddy} {p : Nat} (ho : b.order p ≤ pageMaxOrder) :
    ∃ b', removeFree b p = .ok b' ∧ SameMap b b' := by
  have ho' : ¬ (b.memMap p).order > pageMaxOrder := Nat.not_lt.mpr ho
  unfold removeFree
  simp only [if_neg ho']
  by_cases hs : (b.memMap p).state ≠ .buddy
  · exact ⟨b, if_pos hs, SameMap.refl b⟩
  · rw [if_neg hs]
    by_cases hl : (b.memMap p).prev = none ∧ (b.memMap p).next = none ∧
        b.freeMatrix (b.memMap p).order ≠ some p
    · exact ⟨b, if_pos hl, SameMap.refl b⟩
    · rw [if_neg hl]
      refine ⟨_, rfl, ?_⟩
      cases (b.memMap p).prev with
      | none =>
          exact ((setHead_sameMap b _ _).trans (setPrev?_sameMap _ _ _)).trans
            (setPage_sameMap _ p (by intro; rfl) (by intro; rfl))
      | some q =>
          exact ((setPage_sameMap b q (by intro; rfl) (by intro; rfl)).trans
            (setPrev?_sameMap _ _ _)).trans
            (setPage_sameMap _ p (by intro; rfl) (by intro; rfl))

/-- `pop_free` works on any links and keeps the map. -/
theorem popFree_sameMap {b b' : Buddy} {k : Nat} {res : Option Nat}
    (h : popFree b k = .ok (res, b')) : SameMap b b' := by
  unfold popFree at h
  split at h
  · cases h
  · split at h
    · cases h
      exact SameMap.refl b
    · cases h
      exact ((setHead_sameMap b _ _).trans (setPrev?_sameMap _ _ _)).trans
        (setPage_sameMap _ _ (by intro; rfl) (by intro; rfl))

/-- `insert_free` works on any links; of the map it only marks the page
free. -/
theorem insertFree_map {b : Buddy} {p : Nat} (ho : b.order p ≤ pageMaxOrder) :
    ∃ b', insertFree b p = .ok b' ∧ b'.memNrPages = b.memNrPages ∧
      (∀ q, b'.state q = if q = p then .buddy else b.state q) ∧
      ∀ q, b'.order q = b.order q := by
  have ho' : ¬ (b.memMap p).order > pageMaxOrder := Nat.not_lt.mpr ho
  unfold insertFree
  simp only [if_neg ho']
  refine ⟨_, rfl, ?_⟩
  have hsame := ((setPage_sameMap b p (f := fun pg =>
    { pg with next := b.freeMatrix (b.memMap p).order, prev := none })
    (fun _ => rfl) (fun _ => rfl)).trans (setPrev?_sameMap _ (((b.setPage p fun pg =>
      { pg with next := b.freeMatrix (b.memMap p).order, prev := none }).memMap p).next)
      (some p))).trans (setHead_sameMap _ (b.memMap p).order (some p))
  refine ⟨hsame.nr, fun q => ?_, fun q => ?_⟩
  · rw [← hsame.state q]
    show (((Buddy.setPage _ p _).memMap q).state) = _
    rw [setPage_memMap]
    split <;> rfl
  · rw [← hsame.order q]
    show (((Buddy.setPage _ p _).memMap q).order) = _
    rw [setPage_memMap]
    split
    · rename_i hq
      rw [hq]
    · rfl

/-- Nothing changes in the map if the page was marked free before. -/
theorem SameMap.of_insert {b b' : Buddy} {p : Nat} (hs : b.state p = .buddy)
    (hnr : b'.memNrPages = b.memNrPages)
    (hstate : ∀ q, b'.state q = if q = p then .buddy else b.state q)
    (horder : ∀ q, b'.order q = b.order q) : SameMap b b' := by
  refine ⟨hnr, fun q => ?_, horder⟩
  rw [hstate]
  split
  · rename_i hq
    rw [hq, hs]
  · rfl

/-! ## The list primitives -/

/-- `insert_free`, field by field. -/
theorem insertFree_fields {b : Buddy} {p : Nat} (ho : b.order p ≤ pageMaxOrder)
    (hp : b.freeMatrix (b.order p) ≠ some p) :
    ∃ b', insertFree b p = .ok b' ∧ b'.memNrPages = b.memNrPages ∧
      b'.freeMatrix = Function.update b.freeMatrix (b.order p) (some p) ∧
      ∀ q, b'.memMap q =
        if q = p then ⟨.buddy, b.order p, none, b.freeMatrix (b.order p)⟩
        else if b.freeMatrix (b.order p) = some q then { b.memMap q with prev := some p }
        else b.memMap q := by
  have ho' : ¬ (b.memMap p).order > pageMaxOrder := Nat.not_lt.mpr ho
  refine ⟨_, by rw [insertFree, if_neg ho'], by simp, by simp [Buddy.order], ?_⟩
  intro q
  by_cases hq : q = p
  · subst hq
    simp [hp, Buddy.order]
  · simp [hq, Buddy.order]

/-- **`insert_free`** on a page that is on no list: it becomes the head of the
list of its order and is marked free. -/
theorem insertFree_spec {b : Buddy} {off : Nat → Prop} {L : Nat → List Nat} {p : Nat}
    (h : FreeLists b off L) (hp : p < b.memNrPages) (hoff : b.state p = .buddy → off p)
    (ho : b.order p ≤ pageMaxOrder) :
    ∃ b', insertFree b p = .ok b' ∧ b'.memNrPages = b.memNrPages ∧
      (∀ q, b'.state q = if q = p then .buddy else b.state q) ∧
      (∀ q, b'.order q = b.order q) ∧
      FreeLists b' (fun x => off x ∧ x ≠ p)
        (Function.update L (b.order p) (p :: L (b.order p))) := by
  -- `p` is in hand or not free, so it is on no list
  have hnot : ∀ k, k ≤ pageMaxOrder → p ∉ L k := by
    intro k hk hm
    obtain ⟨_, h2, _, h4⟩ := (h.mem k hk p).mp hm
    exact h4 (hoff h2)
  have hhead : b.freeMatrix (b.order p) ≠ some p := fun hc => hnot _ ho (h.head_mem ho hc)
  obtain ⟨b', he, hn, hfm, hmap⟩ := insertFree_fields ho hhead
  obtain ⟨b'', he', -, hstate, horder⟩ := insertFree_map ho
  cases he.symm.trans he'
  have hself : b'.memMap p = ⟨.buddy, b.order p, none, b.freeMatrix (b.order p)⟩ := by
    rw [hmap, if_pos rfl]
  have hfirst : ∀ q, q ≠ p → b.freeMatrix (b.order p) = some q →
      b'.memMap q = { b.memMap q with prev := some p } := by
    intro q hq hf
    rw [hmap, if_neg hq, if_pos hf]
  have hother : ∀ q, q ≠ p → b.freeMatrix (b.order p) ≠ some q → b'.memMap q = b.memMap q := by
    intro q hq hf
    rw [hmap, if_neg hq, if_neg hf]
  have hkeep : ∀ q, q ≠ p → b'.next q = b.next q := by
    intro q hq
    by_cases hf : b.freeMatrix (b.order p) = some q
    · simp [Buddy.next, hfirst q hq hf]
    · simp [Buddy.next, hother q hq hf]
  refine ⟨b', he, hn, hstate, horder, ⟨?_, ?_⟩⟩
  · intro k hk
    rw [hfm]
    by_cases hkp : k = b.order p
    · subst hkp
      rw [Function.update_self, Function.update_self]
      refine (h.list _ hk).push (hnot _ hk) ?_ ?_ ?_ ?_ ?_
      · simp [Buddy.next, hself]
      · simp [Buddy.prev, hself]
      · intro y hy
        have hyp : y ≠ p := fun hc => hhead (hc ▸ hy)
        simp [Buddy.prev, hfirst y hyp hy]
      · intro y hy
        exact hkeep y fun hc => hnot _ hk (hc ▸ hy)
      · intro y hy hne
        have hyp : y ≠ p := fun hc => hnot _ hk (hc ▸ hy)
        simp [Buddy.prev, hother y hyp hne]
    · rw [Function.update_of_ne hkp, Function.update_of_ne hkp]
      refine (h.list k hk).congr (fun x hx => ?_)
      have hxp : x ≠ p := fun hc => hnot k hk (hc ▸ hx)
      have hxh : b.freeMatrix (b.order p) ≠ some x := by
        intro hc
        exact hkp ((h.order_eq hk hx).symm.trans (h.order_eq ho (h.head_mem ho hc)))
      simp [Buddy.next, Buddy.prev, hother x hxp hxh]
  · intro k hk x
    by_cases hxp : x = p
    · subst hxp
      by_cases hkp : k = b.order x
      · subst hkp
        simp [hn, hp, Buddy.state, Buddy.order, hself]
      · have hko : ¬ b.order x = k := fun hc => hkp hc.symm
        simp [Function.update_of_ne hkp, hnot k hk, Buddy.order, hself, hko]
    · have hmem : x ∈ Function.update L (b.order p) (p :: L (b.order p)) k ↔ x ∈ L k := by
        by_cases hkp : k = b.order p
        · subst hkp
          simp [hxp]
        · rw [Function.update_of_ne hkp]
      rw [hmem, h.mem k hk x, hn, hstate, if_neg hxp, horder]
      simp [hxp]

/-- **Taking a page off its list.** If a change touches the links of members of
list `k` only and leaves there everything but `p`, then `p` is in hand. -/
theorem FreeLists.take {b b' : Buddy} {off : Nat → Prop} {L : Nat → List Nat} {k p : Nat}
    {xs : List Nat} (h : FreeLists b off L) (hk : k ≤ pageMaxOrder) (hsame : SameMap b b')
    (hp : p ∈ L k) (hxs : ∀ x, x ∈ xs ↔ x ∈ L k ∧ x ≠ p)
    (hlist : DList b'.next b'.prev (b'.freeMatrix k) xs)
    (hheads : ∀ j, j ≠ k → b'.freeMatrix j = b.freeMatrix j)
    (hlinks : ∀ x, x ∉ L k → b'.next x = b.next x ∧ b'.prev x = b.prev x) :
    FreeLists b' (fun x => off x ∨ x = p) (Function.update L k xs) := by
  have hpk := h.order_eq hk hp
  refine ⟨fun j hj => ?_, fun j hj x => ?_⟩
  · by_cases hjk : j = k
    · rw [hjk, Function.update_self]
      exact hlist
    · rw [Function.update_of_ne hjk, hheads j hjk]
      refine (h.list j hj).congr fun x hx => hlinks x fun hxk => hjk ?_
      exact (h.order_eq hj hx).symm.trans (h.order_eq hk hxk)
  · rw [hsame.nr, hsame.state, hsame.order]
    by_cases hjk : j = k
    · rw [hjk, Function.update_self, hxs x, h.mem k hk x]
      simp only [not_or, and_assoc]
    · rw [Function.update_of_ne hjk, h.mem j hj x]
      constructor
      · rintro ⟨h1, h2, h3, h4⟩
        refine ⟨h1, h2, h3, ?_⟩
        rintro (hc | rfl)
        · exact h4 hc
        · exact hjk (h3.symm.trans hpk)
      · rintro ⟨h1, h2, h3, h4⟩
        exact ⟨h1, h2, h3, fun hc => h4 (.inl hc)⟩

/-- `pop_free` on a non-empty list, field by field. -/
theorem popFree_fields {b : Buddy} {k p : Nat} (hk : k ≤ pageMaxOrder)
    (hp : b.freeMatrix k = some p) (hself : b.next p ≠ some p) :
    ∃ b', popFree b k = .ok (some p, b') ∧ b'.memNrPages = b.memNrPages ∧
      b'.freeMatrix = Function.update b.freeMatrix k (b.next p) ∧
      ∀ q, b'.memMap q =
        if q = p then { b.memMap p with next := none, prev := none }
        else if b.next p = some q then { b.memMap q with prev := none }
        else b.memMap q := by
  refine ⟨_, by rw [popFree, if_neg (by omega), hp], by simp, by simp [Buddy.next], ?_⟩
  intro q
  by_cases hq : q = p
  · subst hq
    have hself' : ¬ (b.memMap q).next = some q := hself
    simp [hself']
  · simp [hq, Buddy.next]

/-- **`pop_free`** on an empty list returns `NULL` and changes nothing. -/
theorem popFree_none {b : Buddy} {k : Nat} (hk : k ≤ pageMaxOrder)
    (hp : b.freeMatrix k = none) : popFree b k = .ok (none, b) := by
  rw [popFree, if_neg (by omega), hp]

/-- **`pop_free`** on a non-empty list takes its head in hand. -/
theorem popFree_spec {b : Buddy} {off : Nat → Prop} {L : Nat → List Nat} {k p : Nat}
    (h : FreeLists b off L) (hk : k ≤ pageMaxOrder) (hp : b.freeMatrix k = some p) :
    ∃ b' xs, popFree b k = .ok (some p, b') ∧ SameMap b b' ∧ L k = p :: xs ∧
      FreeLists b' (fun x => off x ∨ x = p) (Function.update L k xs) := by
  have hlist := h.list k hk
  obtain ⟨xs, hxs⟩ : ∃ xs, L k = p :: xs := by
    have := hlist.head_eq
    rw [hp] at this
    cases hL : L k with
    | nil => simp [hL] at this
    | cons y ys =>
        rw [hL] at this
        cases this
        exact ⟨ys, rfl⟩
  rw [hxs] at hlist
  have hnd := List.nodup_cons.mp hlist.nodup
  have hnext : b.next p = xs.head? := hlist.next_head
  have hnp : b.next p ≠ some p := by
    rw [hnext]
    intro hc
    exact hnd.1 (List.mem_of_head? hc)
  obtain ⟨b', he, -, hfm, hmap⟩ := popFree_fields hk hp hnp
  have hsame := popFree_sameMap he
  have hfirst : ∀ q, q ≠ p → b.next p = some q →
      b'.memMap q = { b.memMap q with prev := none } := by
    intro q hq hf
    rw [hmap, if_neg hq, if_pos hf]
  have hother : ∀ q, q ≠ p → b.next p ≠ some q → b'.memMap q = b.memMap q := by
    intro q hq hf
    rw [hmap, if_neg hq, if_neg hf]
  have hmem : ∀ x, x ∈ xs ↔ x ∈ L k ∧ x ≠ p := by
    intro x
    rw [hxs, List.mem_cons]
    constructor
    · intro hx
      exact ⟨.inr hx, fun hc => hnd.1 (hc ▸ hx)⟩
    · intro hx
      exact hx.1.resolve_left hx.2
  refine ⟨b', xs, he, hsame, hxs, h.take hk hsame (by simp [hxs]) hmem ?_ ?_ ?_⟩
  · rw [hfm, Function.update_self]
    refine hlist.pop ?_ ?_ ?_
    · intro y hy
      have hyp : y ≠ p := fun hc => hnp (hc ▸ hy)
      simp [Buddy.prev, hfirst y hyp hy]
    · intro y hy
      have hyp : y ≠ p := ((hmem y).mp hy).2
      by_cases hf : b.next p = some y
      · simp [Buddy.next, hfirst y hyp hf]
      · simp [Buddy.next, hother y hyp hf]
    · intro y hy hne
      simp [Buddy.prev, hother y ((hmem y).mp hy).2 hne]
  · intro j hjk
    rw [hfm, Function.update_of_ne hjk]
  · intro x hx
    rw [hxs] at hx
    have hxp : x ≠ p := fun hc => hx (by simp [hc])
    have hxn : b.next p ≠ some x := by
      intro hc
      rw [hnext] at hc
      exact hx (by simp [List.mem_of_head? hc])
    simp [Buddy.next, Buddy.prev, hother x hxp hxn]

/-- `remove_free` on a linked free page, field by field. The predecessor, the
successor and the page itself are distinct. -/
theorem removeFree_fields {b : Buddy} {p : Nat} (ho : b.order p ≤ pageMaxOrder)
    (hs : b.state p = .buddy)
    (hlinked : b.prev p = none → b.freeMatrix (b.order p) = some p)
    (hpp : b.prev p ≠ some p) (hnp : b.next p ≠ some p)
    (hpn : ∀ q, b.prev p = some q → b.next p ≠ some q) :
    ∃ b', removeFree b p = .ok b' ∧ b'.memNrPages = b.memNrPages ∧
      (b'.freeMatrix = if b.prev p = none
        then Function.update b.freeMatrix (b.order p) (b.next p) else b.freeMatrix) ∧
      ∀ q, b'.memMap q =
        if q = p then { b.memMap p with next := none, prev := none }
        else if b.prev p = some q then { b.memMap q with next := b.next p }
        else if b.next p = some q then { b.memMap q with prev := b.prev p }
        else b.memMap q := by
  have ho' : ¬ (b.memMap p).order > pageMaxOrder := Nat.not_lt.mpr ho
  have hs' : ¬ (b.memMap p).state ≠ .buddy := fun hc => hc hs
  have hl' : ¬ ((b.memMap p).prev = none ∧ (b.memMap p).next = none ∧
      b.freeMatrix (b.memMap p).order ≠ some p) := fun hc => hc.2.2 (hlinked hc.1)
  have hnp' : ¬ (b.memMap p).next = some p := hnp
  simp only [removeFree, if_neg ho', if_neg hs', if_neg hl']
  cases hprev : (b.memMap p).prev with
  | none =>
      have hprev' : b.prev p = none := hprev
      refine ⟨_, rfl, by simp, ?_, ?_⟩
      · rw [if_pos hprev']
        simp [Buddy.order, Buddy.next]
      · intro q
        by_cases hq : q = p
        · subst hq
          simp [hnp']
        · simp [hq, hprev, Buddy.next]
  | some r =>
      have hprev' : b.prev p = some r := hprev
      have hrp : p ≠ r := fun hc => hpp (hc ▸ hprev')
      have hrn : ¬ (b.memMap p).next = some r := hpn r hprev'
      refine ⟨_, rfl, by simp, by simp [hprev'], ?_⟩
      intro q
      by_cases hq : q = p
      · subst hq
        simp [hnp', hrp]
      · by_cases hqr : q = r
        · subst hqr
          simp [hq, hrp, hrn, hprev', Buddy.next]
        · simp [hq, hqr, Ne.symm hqr, hrp, hprev, Buddy.next]

/-- **`remove_free`** takes a page off the list of its order. -/
theorem removeFree_spec {b : Buddy} {off : Nat → Prop} {L : Nat → List Nat} {p : Nat}
    (h : FreeLists b off L) (hp : p < b.memNrPages) (hs : b.state p = .buddy)
    (ho : b.order p ≤ pageMaxOrder) (hoff : ¬ off p) :
    ∃ b', removeFree b p = .ok b' ∧ SameMap b b' ∧
      FreeLists b' (fun x => off x ∨ x = p)
        (Function.update L (b.order p) ((L (b.order p)).erase p)) := by
  -- split the list at `p`: its links are the last of `us` and the first of `vs`
  have hlist := h.list _ ho
  obtain ⟨us, vs, huv⟩ := List.append_of_mem ((h.mem _ ho p).mpr ⟨hp, hs, rfl, hoff⟩)
  rw [huv] at hlist
  obtain ⟨hprev, hnext⟩ := hlist.links_at
  have hnd := List.nodup_append.mp hlist.nodup
  have hpv := (List.nodup_cons.mp hnd.2.1).1
  have hpu : p ∉ us := fun hc => hnd.2.2 p hc p (by simp) rfl
  have huv' : ∀ x ∈ us, x ∉ vs := fun x hx hv => hnd.2.2 x hx x (by simp [hv]) rfl
  have hprev_mem : ∀ q, b.prev p = some q → q ∈ us := by
    intro q hq
    rw [hprev] at hq
    exact List.mem_of_getLast? hq
  have hnext_mem : ∀ q, b.next p = some q → q ∈ vs := by
    intro q hq
    rw [hnext] at hq
    exact List.mem_of_head? hq
  have hnil : b.prev p = none ↔ us = [] := by
    rw [hprev]
    exact List.getLast?_eq_none_iff
  have hhd : us = [] → b.freeMatrix (b.order p) = some p := by
    rintro rfl
    exact hlist.head_eq
  obtain ⟨b', he, -, hfm, hmap⟩ := removeFree_fields ho hs (fun hc => hhd (hnil.mp hc))
    (fun hc => hpu (hprev_mem p hc)) (fun hc => hpv (hnext_mem p hc))
    (fun q hq hc => huv' q (hprev_mem q hq) (hnext_mem q hc))
  obtain ⟨b'', he', hsame⟩ := removeFree_sameMap ho
  cases he.symm.trans he'
  have hother : ∀ q, q ≠ p → b.prev p ≠ some q → b.next p ≠ some q →
      b'.memMap q = b.memMap q := by
    intro q h1 h2 h3
    rw [hmap, if_neg h1, if_neg h2, if_neg h3]
  have hbef : ∀ q, q ≠ p → b.prev p = some q →
      b'.memMap q = { b.memMap q with next := b.next p } := by
    intro q h1 h2
    rw [hmap, if_neg h1, if_pos h2]
  have haft : ∀ q, q ≠ p → b.prev p ≠ some q → b.next p = some q →
      b'.memMap q = { b.memMap q with prev := b.prev p } := by
    intro q h1 h2 h3
    rw [hmap, if_neg h1, if_neg h2, if_pos h3]
  have hne : ∀ y ∈ us ++ vs, y ≠ p := by
    rintro y hy rfl
    rcases List.mem_append.mp hy with hy | hy
    · exact hpu hy
    · exact hpv hy
  have hmem : ∀ x, x ∈ us ++ vs ↔ x ∈ L (b.order p) ∧ x ≠ p := by
    intro x
    rw [huv]
    constructor
    · intro hx
      refine ⟨?_, hne x hx⟩
      rcases List.mem_append.mp hx with hx | hx <;> simp [hx]
    · intro hx
      simpa [hx.2] using hx.1
  have hp' : p ∈ L (b.order p) := by simp [huv]
  have herase : (L (b.order p)).erase p = us ++ vs := by
    rw [huv, List.erase_append_right _ hpu, List.erase_cons_head]
  rw [herase]
  refine ⟨b', he, hsame, h.take ho hsame hp' hmem ?_ ?_ ?_⟩
  · refine hlist.unlink ?_ ?_ ?_ ?_ ?_
    · rw [hfm]
      by_cases hus : us = []
      · rw [if_pos (hnil.mpr hus), if_pos hus, Function.update_self]
      · rw [if_neg (fun hc => hus (hnil.mp hc)), if_neg hus]
    · intro y hy hpy
      simp [Buddy.next, hbef y (hne y (by simp [hy])) hpy]
    · intro y hy hny
      have h2 : b.prev p ≠ some y := fun hc => huv' y (hprev_mem y hc) hy
      simp [Buddy.prev, haft y (hne y (by simp [hy])) h2 hny]
    · intro y hy hpy
      by_cases hny : b.next p = some y
      · simp [Buddy.next, haft y (hne y hy) hpy hny]
      · simp [Buddy.next, hother y (hne y hy) hpy hny]
    · intro y hy hny
      by_cases hpy : b.prev p = some y
      · simp [Buddy.prev, hbef y (hne y hy) hpy]
      · simp [Buddy.prev, hother y (hne y hy) hpy hny]
  · intro j hjk
    rw [hfm]
    split
    · exact Function.update_of_ne hjk _ _
    · rfl
  · intro x hx
    rw [huv] at hx
    have h1 : x ≠ p := fun hc => hx (by simp [hc])
    have h2 : b.prev p ≠ some x := fun hc => hx (by simp [hprev_mem x hc])
    have h3 : b.next p ≠ some x := fun hc => hx (by simp [hnext_mem x hc])
    simp [Buddy.next, Buddy.prev, hother x h1 h2 h3]

end DevOS.Mm
