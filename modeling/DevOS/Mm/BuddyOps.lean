import DevOS.Mm.BuddyRep

/-!
# Buddy allocator — the operations keep the representation

`alloc_pages` keeps the representation unconditionally: each split turns one
block in hand into a smaller block in hand and a freed upper half.

`free_pages` keeps it as long as the merging loop never merges to the LEFT.
A right merge unlinks the buddy it swallows; a left merge calls
`remove_free` on the page in hand (which is on no list) and raises the order
of the left buddy while that buddy is still linked under its old order.
`LeftMerges` says on the state before the call when that branch is reached.
-/

namespace DevOS.Mm

open DevOS.Lib

/-! ## Alignment -/

theorem le_ctz {fuel : Nat} : ∀ {n k : Nat}, k ≤ ctz fuel n ↔ k ≤ fuel ∧ 2 ^ k ∣ n := by
  induction fuel with
  | zero =>
      intro n k
      simp only [ctz, Nat.le_zero]
      constructor
      · rintro rfl
        simp
      · exact fun h => h.1
  | succ fuel ih =>
      intro n k
      rw [ctz]
      cases k with
      | zero => simp
      | succ k =>
          by_cases hn : n % 2 = 1
          · rw [if_pos hn]
            constructor
            · intro h
              omega
            · rintro ⟨_, h⟩
              have : 2 ∣ n := dvd_trans (dvd_pow_self 2 (Nat.succ_ne_zero k)) h
              omega
          · rw [if_neg hn, Nat.add_le_add_iff_right, ih, Nat.add_le_add_iff_right]
            have hn2 : n = 2 * (n / 2) := by omega
            have : 2 ^ k ∣ n / 2 ↔ 2 ^ (k + 1) ∣ n := by
              conv_rhs => rw [hn2, Nat.pow_succ', Nat.mul_dvd_mul_iff_left (by decide)]
            rw [this]

/-- `alignment_order` is the largest order up to the maximum that the frame
number is aligned for. -/
theorem le_alignmentOrder {k p : Nat} :
    k ≤ alignmentOrder p ↔ k ≤ pageMaxOrder ∧ 2 ^ k ∣ p := by
  have hmax : pageMaxOrder = 10 := rfl
  unfold alignmentOrder
  by_cases hp : p = 0
  · subst hp
    simp [hmax]
  · rw [if_neg hp]
    by_cases hc : ctz 64 p > pageMaxOrder
    · have h10 : 2 ^ pageMaxOrder ∣ p := (le_ctz.mp (Nat.le_of_lt hc)).2
      simp only [hc, if_true]
      constructor
      · exact fun h => ⟨h, dvd_trans (pow_dvd_pow 2 h) h10⟩
      · exact fun h => h.1
    · simp only [hc, if_false]
      rw [le_ctz]
      constructor
      · rintro ⟨h1, h2⟩
        have : k ≤ ctz 64 p := le_ctz.mpr ⟨h1, h2⟩
        exact ⟨by omega, h2⟩
      · rintro ⟨h1, h2⟩
        exact ⟨by omega, h2⟩

theorem alignmentOrder_le (p : Nat) : alignmentOrder p ≤ pageMaxOrder :=
  (le_alignmentOrder.mp (Nat.le_refl _)).1

/-! ## The invariant -/

/-- The globals represent a block tiling and its free lists, up to the free
blocks in hand. -/
structure Rep (b : Buddy) (off : Nat → Prop) (L : Nat → List Nat) : Prop where
  tiling : Tiling pageMaxOrder b.cell
  lists : FreeLists b off L

/-- What an operation on the block at `p` leaves alone: every allocation
headed elsewhere, and which frames are managed. -/
structure Keeps (b b' : Buddy) (p : Nat) : Prop where
  nr : b'.memNrPages = b.memNrPages
  allocated : ∀ q, q ≠ p → (b'.state q = .allocated ↔ b.state q = .allocated)
  order : ∀ q, q ≠ p → b.state q = .allocated → b'.order q = b.order q
  vacant : ∀ q, b'.cell q = .vacant ↔ b.cell q = .vacant

theorem Keeps.refl (b : Buddy) (p : Nat) : Keeps b b p :=
  ⟨rfl, fun _ _ => Iff.rfl, fun _ _ _ => rfl, fun _ => Iff.rfl⟩

theorem Keeps.trans {b b' b'' : Buddy} {p : Nat} (h : Keeps b b' p) (h' : Keeps b' b'' p) :
    Keeps b b'' p where
  nr := h'.nr.trans h.nr
  allocated := fun q hq => (h'.allocated q hq).trans (h.allocated q hq)
  order := fun q hq hs => (h'.order q hq ((h.allocated q hq).mpr hs)).trans (h.order q hq hs)
  vacant := fun q => (h'.vacant q).trans (h.vacant q)

/-- Elsewhere the same allocations are there. -/
theorem Keeps.head_iff {b b' : Buddy} {p x k : Nat} (h : Keeps b b' p) (hx : x ≠ p) :
    x < b'.memNrPages ∧ b'.state x = .allocated ∧ b'.order x = k ↔
      x < b.memNrPages ∧ b.state x = .allocated ∧ b.order x = k := by
  rw [h.nr, h.allocated x hx]
  constructor
  · rintro ⟨h1, h2, h3⟩
    exact ⟨h1, h2, (h.order x hx h2).symm.trans h3⟩
  · rintro ⟨h1, h2, h3⟩
    exact ⟨h1, h2, (h.order x hx h2).trans h3⟩

theorem SameMap.keeps {b b' : Buddy} (h : SameMap b b') (p : Nat) : Keeps b b' p where
  nr := h.nr
  allocated := fun q _ => by rw [h.state]
  order := fun q _ _ => h.order q
  vacant := fun q => by rw [h.cell]

/-- Only the free pages of the map matter for what is in hand. -/
theorem FreeLists.off_congr {b : Buddy} {off off' : Nat → Prop} {L : Nat → List Nat}
    (h : FreeLists b off L)
    (hoff : ∀ x, x < b.memNrPages → b.state x = .buddy → (off' x ↔ off x)) :
    FreeLists b off' L := by
  refine h.congr rfl (fun _ _ _ _ => ⟨rfl, rfl⟩) (fun x => ?_) (fun _ _ _ => rfl)
  have := hoff x
  tauto

theorem Rep.order_le {b : Buddy} {off : Nat → Prop} {L : Nat → List Nat} (h : Rep b off L)
    {p : Nat} (hp : p < b.memNrPages) (hs : b.state p = .buddy ∨ b.state p = .allocated) :
    b.order p ≤ pageMaxOrder := h.tiling.order_le (cell_eq_head.mpr ⟨hp, hs, rfl⟩)

/-! ## A block and its halves -/

/-- `b'` is `b` with the free block at `p` cut into two free halves of order
`k`. -/
structure Cut (b b' : Buddy) (p k : Nat) : Prop where
  nr : b'.memNrPages = b.memNrPages
  lt : p + 2 ^ k < b.memNrPages
  whole : b.state p = .buddy ∧ b.order p = k + 1
  mid : b.state (p + 2 ^ k) = .tail
  left : b'.state p = .buddy ∧ b'.order p = k
  right : b'.state (p + 2 ^ k) = .buddy ∧ b'.order (p + 2 ^ k) = k
  other : ∀ x, x ≠ p → x ≠ p + 2 ^ k → b'.state x = b.state x ∧ b'.order x = b.order x

theorem Cut.head_lt {b b' : Buddy} {p k : Nat} (h : Cut b b' p k) : p < b.memNrPages :=
  lt_of_le_of_lt (Nat.le_add_right p _) h.lt

/-- In terms of the tiling it is a split. -/
theorem Cut.tiling {b b' : Buddy} {p k : Nat} (h : Cut b b' p k)
    (htiled : Tiling pageMaxOrder b.cell) : Tiling pageMaxOrder b'.cell := by
  have hcells : b'.cell =
      Function.update (Function.update b.cell p (.head k)) (p + 2 ^ k) (.head k) := by
    funext x
    by_cases hxr : x = p + 2 ^ k
    · rw [hxr, Function.update_self]
      exact cell_eq_head.mpr ⟨h.nr ▸ h.lt, .inl h.right.1, h.right.2⟩
    · rw [Function.update_of_ne hxr]
      by_cases hx : x = p
      · rw [hx, Function.update_self]
        exact cell_eq_head.mpr ⟨h.nr ▸ h.head_lt, .inl h.left.1, h.left.2⟩
      · rw [Function.update_of_ne hx]
        exact cell_congr h.nr (h.other x hx hxr).1 (h.other x hx hxr).2
  rw [hcells]
  exact htiled.split (cell_eq_head.mpr ⟨h.head_lt, .inl h.whole.1, h.whole.2⟩)

/-- The other way round it is a merge. -/
theorem Cut.tiling_whole {b b' : Buddy} {p k : Nat} (h : Cut b b' p k)
    (htiled : Tiling pageMaxOrder b'.cell) (hk : k < pageMaxOrder) (hdvd : 2 ^ (k + 1) ∣ p) :
    Tiling pageMaxOrder b.cell := by
  have hcells : b.cell =
      Function.update (Function.update b'.cell p (.head (k + 1))) (p + 2 ^ k) .tail := by
    funext x
    by_cases hxr : x = p + 2 ^ k
    · rw [hxr, Function.update_self]
      exact cell_eq_tail.mpr ⟨h.lt, h.mid⟩
    · rw [Function.update_of_ne hxr]
      by_cases hx : x = p
      · rw [hx, Function.update_self]
        exact cell_eq_head.mpr ⟨h.head_lt, .inl h.whole.1, h.whole.2⟩
      · rw [Function.update_of_ne hx]
        exact (cell_congr h.nr (h.other x hx hxr).1 (h.other x hx hxr).2).symm
  rw [hcells]
  exact htiled.merge (cell_eq_head.mpr ⟨h.nr ▸ h.head_lt, .inl h.left.1, h.left.2⟩)
    (cell_eq_head.mpr ⟨h.nr ▸ h.lt, .inl h.right.1, h.right.2⟩) hk hdvd

/-- Cutting or merging does not change what is allocated or reserved. -/
theorem Cut.kept {b b' : Buddy} {p k : Nat} (h : Cut b b' p k) (x : Nat) :
    (b'.state x = .allocated ↔ b.state x = .allocated) ∧
      (b'.state x = .reserved ↔ b.state x = .reserved) ∧
      (b.state x = .allocated → b'.order x = b.order x) := by
  by_cases hx : x = p
  · subst hx
    simp [h.whole.1, h.left.1]
  · by_cases hxr : x = p + 2 ^ k
    · subst hxr
      simp [h.mid, h.right.1]
    · obtain ⟨hs, ho⟩ := h.other x hx hxr
      rw [hs, ho]
      exact ⟨Iff.rfl, Iff.rfl, fun _ => rfl⟩

theorem Cut.vacant {b b' : Buddy} {p k : Nat} (h : Cut b b' p k) (x : Nat) :
    b'.cell x = .vacant ↔ b.cell x = .vacant := by
  rw [cell_eq_vacant, cell_eq_vacant, h.nr, (h.kept x).2.1]

theorem Cut.keeps {b b' : Buddy} {p k : Nat} (h : Cut b b' p k) : Keeps b b' p :=
  ⟨h.nr, fun x _ => (h.kept x).1, fun x _ => (h.kept x).2.2, h.vacant⟩

theorem Cut.keeps_whole {b b' : Buddy} {p k : Nat} (h : Cut b b' p k) : Keeps b' b p :=
  ⟨h.nr.symm, fun x _ => (h.kept x).1.symm,
    fun x _ hx => ((h.kept x).2.2 ((h.kept x).1.mp hx)).symm, fun x => (h.vacant x).symm⟩

/-! ## Splitting -/

/-- The two stores of a splitting round before `insert_free`: the block at
`p` and its upper half get order `k`. -/
def halve (b : Buddy) (p k : Nat) : Buddy :=
  (b.setPage p fun pg => { pg with order := k }).setPage (p + 2 ^ k)
    fun pg => { pg with order := k }

theorem halve_order (b : Buddy) (p k x : Nat) :
    (halve b p k).order x = if x = p ∨ x = p + 2 ^ k then k else b.order x := by
  by_cases hx : x = p + 2 ^ k
  · simp [halve, hx, Buddy.order]
  · by_cases hxp : x = p <;> simp [halve, hx, hxp, Buddy.order]

/-- Only orders change. -/
theorem halve_keep (b : Buddy) (p k x : Nat) :
    (halve b p k).state x = b.state x ∧ (halve b p k).next x = b.next x ∧
      (halve b p k).prev x = b.prev x := by
  by_cases hx : x = p + 2 ^ k
  · simp [halve, hx, Buddy.state, Buddy.next, Buddy.prev]
  · by_cases hxp : x = p <;> simp [halve, hx, hxp, Buddy.state, Buddy.next, Buddy.prev]

/-- A round of the splitting loop in terms of `halve`. -/
theorem splitDown_round {b b' : Buddy} {p k order fuel : Nat} (hk : b.order p = k + 1)
    (hlt : order ≤ k) (ht : b.state (p + 2 ^ k) = .tail)
    (hins : insertFree (halve b p k) (p + 2 ^ k) = .ok b') :
    splitDown order p (fuel + 1) b = splitDown order p fuel b' := by
  have hk' : (b.memMap p).order = k + 1 := hk
  have ht' : (b.memMap (p + 2 ^ k)).state = .tail := ht
  have hpage : (b.setPage p fun pg => { pg with order := pg.order - 1 })
      = b.setPage p fun pg => { pg with order := k } := by
    simp [Buddy.setPage, hk']
  rw [splitDown, if_pos (by omega)]
  simp only [hpage]
  simp only [halve] at hins
  simp [ht', hins]

/-- The second half of a block is a tail of it. -/
theorem upperHalf_tail {b : Buddy} {p k : Nat} (htiled : Tiling pageMaxOrder b.cell)
    (hp : p < b.memNrPages) (hs : b.state p = .buddy) (hk : b.order p = k + 1) :
    p + 2 ^ k < b.memNrPages ∧ b.state (p + 2 ^ k) = .tail ∧ k < pageMaxOrder := by
  have hpos := Nat.two_pow_pos k
  have hcell : b.cell p = .head (k + 1) := cell_eq_head.mpr ⟨hp, .inl hs, hk⟩
  have htail : b.cell (p + 2 ^ k) = .tail :=
    htiled.tails hcell (by omega) (by rw [Nat.pow_succ]; omega)
  obtain ⟨hqn, hqs⟩ := cell_eq_tail.mp htail
  exact ⟨hqn, hqs, htiled.order_le hcell⟩

/-- A splitting round cuts the block. -/
theorem halve_cut {b b' : Buddy} {p k : Nat} (htiled : Tiling pageMaxOrder b.cell)
    (hp : p < b.memNrPages) (hs : b.state p = .buddy) (hk : b.order p = k + 1)
    (he : insertFree (halve b p k) (p + 2 ^ k) = .ok b') : Cut b b' p k := by
  have hpos := Nat.two_pow_pos k
  have hne : p ≠ p + 2 ^ k := by omega
  obtain ⟨hqn, hqs, hmax⟩ := upperHalf_tail htiled hp hs hk
  obtain ⟨b'', he', hnr, hst, hord⟩ := insertFree_map (b := halve b p k) (p := p + 2 ^ k)
    (by rw [halve_order, if_pos (.inr rfl)]; omega)
  cases he.symm.trans he'
  have hst' : ∀ x, b'.state x = if x = p + 2 ^ k then .buddy else b.state x := by
    intro x
    rw [hst, (halve_keep b p k x).1]
  have hord' : ∀ x, b'.order x = if x = p ∨ x = p + 2 ^ k then k else b.order x := by
    intro x
    rw [hord, halve_order]
  exact {
    nr := hnr
    lt := hqn
    whole := ⟨hs, hk⟩
    mid := hqs
    left := ⟨by rw [hst', if_neg hne]; exact hs, by rw [hord', if_pos (.inl rfl)]⟩
    right := ⟨by rw [hst', if_pos rfl], by rw [hord', if_pos (.inr rfl)]⟩
    other := fun x hx hxr =>
      ⟨by rw [hst', if_neg hxr], by rw [hord', if_neg (by simp [hx, hxr])]⟩ }

/-- **One round of the splitting loop**: the block in hand is halved and its
upper half is freed. -/
theorem splitDown_step (fuel : Nat) {b : Buddy} {L : Nat → List Nat} {p k order : Nat}
    (h : Rep b (· = p) L) (hp : p < b.memNrPages) (hs : b.state p = .buddy)
    (hk : b.order p = k + 1) (hlt : order ≤ k) :
    ∃ b', splitDown order p (fuel + 1) b = splitDown order p fuel b' ∧
      Rep b' (· = p) (Function.update L k ((p + 2 ^ k) :: L k)) ∧ b'.state p = .buddy ∧
      b'.order p = k ∧ Keeps b b' p := by
  have hpos : 0 < 2 ^ k := Nat.two_pow_pos k
  have hqp : p + 2 ^ k ≠ p := by omega
  obtain ⟨hqn, hqs, hmax⟩ := upperHalf_tail h.tiling hp hs hk
  -- halving touches orders only, and of no page that is on a list
  have hlists : FreeLists (halve b p k) (· = p) L := by
    refine h.lists.congr rfl (fun _ _ x _ => (halve_keep b p k x).2) (fun x => ?_)
      (fun x hsx hoff => ?_)
    · rw [(halve_keep b p k x).1]
      rfl
    · rw [halve_order, if_neg]
      rintro (hc | rfl)
      · exact hoff hc
      · rw [hqs] at hsx
        cases hsx
  have hoq : (halve b p k).order (p + 2 ^ k) = k := by rw [halve_order, if_pos (.inr rfl)]
  obtain ⟨b', he, -, -, -, hfl⟩ := insertFree_spec (p := p + 2 ^ k) hlists hqn
    (by rw [(halve_keep b p k _).1, hqs]; intro hc; cases hc) (by omega)
  rw [hoq] at hfl
  have hcut := halve_cut h.tiling hp hs hk he
  refine ⟨b', splitDown_round hk hlt hqs he,
    ⟨hcut.tiling h.tiling, hfl.off_congr fun x _ _ => ?_⟩, hcut.left.1, hcut.left.2, hcut.keeps⟩
  constructor
  · rintro rfl
    exact ⟨rfl, Ne.symm hqp⟩
  · exact fun hc => hc.1

/-- **The splitting loop** ends with a block of exactly the requested order
in hand; each order on the way gets the upper half that was cut off. -/
theorem splitDown_spec (order p : Nat) : ∀ (fuel : Nat) {b : Buddy} {L : Nat → List Nat},
    Rep b (· = p) L → p < b.memNrPages → b.state p = .buddy → order ≤ b.order p →
    b.order p ≤ order + fuel →
    ∃ b', splitDown order p fuel b = .ok b' ∧
      Rep b' (· = p) (fun i => if order ≤ i ∧ i < b.order p then (p + 2 ^ i) :: L i else L i) ∧
      b'.state p = .buddy ∧ b'.order p = order ∧ Keeps b b' p := by
  intro fuel
  induction fuel with
  | zero =>
      intro b L h hp hs hle hfuel
      have hnone :
          (fun i => if order ≤ i ∧ i < b.order p then (p + 2 ^ i) :: L i else L i) = L := by
        funext i
        rw [if_neg (by omega)]
      exact ⟨b, rfl, by rw [hnone]; exact h, hs, by omega, Keeps.refl b p⟩
  | succ fuel ih =>
      intro b L h hp hs hle hfuel
      rcases Nat.eq_or_lt_of_le hle with heq | hlt
      · have hng : ¬ (b.memMap p).order > order := by
          have : (b.memMap p).order = order := heq.symm
          omega
        have hnone : (fun i => if order ≤ i ∧ i < b.order p then (p + 2 ^ i) :: L i else L i) =
            L := by
          funext i
          rw [if_neg (by omega)]
        exact ⟨b, by rw [splitDown, if_neg hng], by rw [hnone]; exact h, hs, heq.symm,
          Keeps.refl b p⟩
      · obtain ⟨k, hk⟩ : ∃ k, b.order p = k + 1 := ⟨b.order p - 1, by omega⟩
        obtain ⟨b₁, he, hr, hs₁, ho₁, hkeep⟩ :=
          splitDown_step fuel h hp hs hk (by omega : order ≤ k)
        obtain ⟨b₂, he₂, hr₂, hs₂, ho₂, hkeep₂⟩ :=
          ih hr (by rw [hkeep.nr]; exact hp) hs₁ (by omega) (by omega)
        refine ⟨b₂, he.trans he₂, ?_, hs₂, ho₂, hkeep.trans hkeep₂⟩
        -- this round cut off the half of order `k`, the others those below
        have hlists : (fun i => if order ≤ i ∧ i < b.order p then (p + 2 ^ i) :: L i else L i) =
            fun i => if order ≤ i ∧ i < b₁.order p then
              (p + 2 ^ i) :: Function.update L k ((p + 2 ^ k) :: L k) i
              else Function.update L k ((p + 2 ^ k) :: L k) i := by
          funext i
          rw [ho₁]
          by_cases hik : i = k
          · subst hik
            rw [if_pos (by omega), if_neg (by omega), Function.update_self]
          · rw [Function.update_of_ne hik]
            by_cases hi : order ≤ i ∧ i < k
            · rw [if_pos (by omega), if_pos hi]
            · rw [if_neg (by omega), if_neg hi]
        rw [hlists]
        exact hr₂

/-! ## Allocation -/

/-- The search either finds every list from order `i` up empty, or takes the
head of the first non-empty one in hand. -/
theorem popFirst_spec {b : Buddy} {L : Nat → List Nat} (h : Rep b (fun _ => False) L) :
    ∀ (fuel i : Nat), i + fuel ≤ pageMaxOrder + 1 →
    (popFirst fuel i b = .ok (none, b) ∧ ∀ k, i ≤ k → k < i + fuel → b.freeMatrix k = none) ∨
    ∃ p b' xs, popFirst fuel i b = .ok (some p, b') ∧ SameMap b b' ∧ p < b.memNrPages ∧
      b.state p = .buddy ∧ i ≤ b.order p ∧ (∀ k, i ≤ k → k < b.order p → b.freeMatrix k = none) ∧
      L (b.order p) = p :: xs ∧ Rep b' (· = p) (Function.update L (b.order p) xs) := by
  intro fuel
  induction fuel with
  | zero =>
      intro i _
      exact .inl ⟨rfl, fun k h1 h2 => by omega⟩
  | succ fuel ih =>
      intro i hi
      have hik : i ≤ pageMaxOrder := by omega
      cases hf : b.freeMatrix i with
      | none =>
          rcases ih (i + 1) (by omega) with
            ⟨he, hnone⟩ | ⟨p, b', xs, he, hsm, hp, hs, ho, hempty, hxs, hr⟩
          · refine .inl ⟨by rw [popFirst, popFree_none hik hf]; exact he, fun k h1 h2 => ?_⟩
            rcases Nat.eq_or_lt_of_le h1 with rfl | hlt
            · exact hf
            · exact hnone k (by omega) (by omega)
          · refine .inr ⟨p, b', xs, by rw [popFirst, popFree_none hik hf]; exact he, hsm, hp, hs,
              by omega, fun k h1 h2 => ?_, hxs, hr⟩
            rcases Nat.eq_or_lt_of_le h1 with rfl | hlt
            · exact hf
            · exact hempty k (by omega) h2
      | some p =>
          obtain ⟨b', xs, he, hsm, hxs, hfl⟩ := popFree_spec h.lists hik hf
          obtain ⟨hp, hs, ho, _⟩ := (h.lists.mem i hik p).mp (by simp [hxs])
          refine .inr ⟨p, b', xs, by rw [popFirst, he], hsm, hp, hs, by omega,
            fun k h1 h2 => by omega, ho ▸ hxs, ?_, ?_⟩
          · rw [hsm.cell]
            exact h.tiling
          · rw [ho]
            exact hfl.off_congr (fun x _ _ => by simp)

/-- The lists after `alloc_pages(order)` has taken `p` from the head of a list
of order `j`: the tail of that list is left, and each order from `order` up to
`j` has got the half that was cut off. -/
def splitLists (L : Nat → List Nat) (p order j : Nat) (xs : List Nat) (i : Nat) : List Nat :=
  if order ≤ i ∧ i < j then (p + 2 ^ i) :: Function.update L j xs i else Function.update L j xs i

/-- **`alloc_pages`** on a represented state: `NULL` if every list from the
order up is empty, otherwise the head of the first list that is not, cut down
to the order. -/
theorem allocPages_found {b : Buddy} {L : Nat → List Nat} (h : Rep b (fun _ => False) L)
    {order : Nat} (ho : order ≤ pageMaxOrder) :
    (allocPages b order = .ok (none, b) ∧
      ∀ k, order ≤ k → k ≤ pageMaxOrder → b.freeMatrix k = none) ∨
    ∃ p b' xs, allocPages b order = .ok (some p, b') ∧ p < b.memNrPages ∧ b.state p = .buddy ∧
      order ≤ b.order p ∧ (∀ k, order ≤ k → k < b.order p → b.freeMatrix k = none) ∧
      L (b.order p) = p :: xs ∧
      Rep b' (fun _ => False) (splitLists L p order (b.order p) xs) ∧
      b'.state p = .allocated ∧ b'.order p = order ∧ Keeps b b' p := by
  have ho' : ¬ order > pageMaxOrder := Nat.not_lt.mpr ho
  rcases popFirst_spec h (pageMaxOrder + 1 - order) order (by omega) with
    ⟨he, hnone⟩ | ⟨p, b₁, xs, he, hsm, hp, hs, hge, hempty, hxs, hr⟩
  · exact .inl ⟨by rw [allocPages, if_neg ho', he], fun k h1 h2 => hnone k h1 (by omega)⟩
  · have hp₁ : p < b₁.memNrPages := by
      rw [hsm.nr]
      exact hp
    obtain ⟨b₂, he₂, hr₂, hs₂, ho₂, hkeep⟩ := splitDown_spec order p (b₁.order p) hr hp₁
      (by rw [hsm.state]; exact hs) (by rw [hsm.order]; exact hge) (by omega)
    rw [hsm.order] at hr₂
    have hkeep' : Keeps b b₂ p := (hsm.keeps p).trans hkeep
    have hp₂ : p < b₂.memNrPages := by
      rw [hkeep'.nr]
      exact hp
    -- the last store only turns the head from free to allocated
    let b₃ := b₂.setPage p fun pg => { pg with state := .allocated }
    have hst : ∀ x, b₃.state x = if x = p then .allocated else b₂.state x := by
      intro x
      by_cases hx : x = p <;> simp [b₃, hx, Buddy.state]
    have hfld : ∀ x, b₃.order x = b₂.order x ∧ b₃.next x = b₂.next x ∧ b₃.prev x = b₂.prev x := by
      intro x
      by_cases hx : x = p <;> simp [b₃, hx, Buddy.order, Buddy.next, Buddy.prev]
    have hcells : b₃.cell = b₂.cell := by
      funext x
      by_cases hx : x = p
      · subst hx
        rw [cell_eq_head.mpr ⟨hp₂, .inl hs₂, rfl⟩]
        exact cell_eq_head.mpr ⟨hp₂, .inr (by rw [hst, if_pos rfl]), (hfld x).1⟩
      · exact cell_congr rfl (by rw [hst, if_neg hx]) (hfld x).1
    refine .inr ⟨p, b₃, xs, ?_, hp, hs, hge, hempty, hxs, ⟨?_, ?_⟩, ?_, ?_, ?_⟩
    · rw [allocPages, if_neg ho', he]
      simp only []
      rw [show (b₁.memMap p).order = b₁.order p from rfl, he₂]
    · rw [hcells]
      exact hr₂.tiling
    · refine hr₂.lists.congr rfl (fun _ _ x _ => (hfld x).2) (fun x => ?_)
        (fun x _ _ => (hfld x).1)
      rw [hst]
      by_cases hx : x = p <;> simp [hx, b₃]
    · rw [hst, if_pos rfl]
    · rw [(hfld p).1, ho₂]
    · refine hkeep'.trans ⟨rfl, fun q hq => ?_, fun q _ _ => (hfld q).1, fun q => by rw [hcells]⟩
      rw [hst, if_neg hq]

/-- **`alloc_pages`** on a represented state does not panic. It returns `NULL`
and changes nothing, or returns a page that was the head of a free block and
now heads an allocation of exactly the requested order; nothing else becomes
or stops being allocated. -/
theorem allocPages_spec {b : Buddy} {L : Nat → List Nat} (h : Rep b (fun _ => False) L)
    {order : Nat} (ho : order ≤ pageMaxOrder) :
    allocPages b order = .ok (none, b) ∨
    ∃ p b' L', allocPages b order = .ok (some p, b') ∧ Rep b' (fun _ => False) L' ∧
      p < b.memNrPages ∧ b.state p = .buddy ∧ b'.state p = .allocated ∧ b'.order p = order ∧
      Keeps b b' p := by
  rcases allocPages_found h ho with ⟨he, -⟩ | ⟨p, b', xs, he, hp, hs, -, -, -, hr, hs', ho', hk⟩
  · exact .inl he
  · exact .inr ⟨p, b', _, he, hr, hp, hs, hs', ho', hk⟩

/-! ## Merging -/

/-- The right buddy of a block of order `j` at `p` is a free block of the same
order. -/
def RightFree (b : Buddy) (p j : Nat) : Prop :=
  p + 2 ^ j < b.memNrPages ∧ b.state (p + 2 ^ j) = .buddy ∧ b.order (p + 2 ^ j) = j

/-- The left buddy of a block of order `j` at `p` is a free block of the same
order. -/
def LeftFree (b : Buddy) (p j : Nat) : Prop :=
  2 ^ j ≤ p ∧ b.state (p - 2 ^ j) = .buddy ∧ b.order (p - 2 ^ j) = j

/-- The merging loop, started at `p`, gets to a left merge: the right buddies
are free at every order from the block's own up to the largest order `p` is
aligned for, and at that order the left buddy is free. -/
def LeftMerges (b : Buddy) (p : Nat) : Prop :=
  alignmentOrder p < pageMaxOrder ∧ b.order p ≤ alignmentOrder p ∧
    (∀ j, j < alignmentOrder p → b.order p ≤ j → RightFree b p j) ∧
    LeftFree b p (alignmentOrder p)

instance (b : Buddy) (p j : Nat) : Decidable (RightFree b p j) :=
  inferInstanceAs (Decidable (_ ∧ _ ∧ _))

instance (b : Buddy) (p j : Nat) : Decidable (LeftFree b p j) :=
  inferInstanceAs (Decidable (_ ∧ _ ∧ _))

instance (b : Buddy) (p : Nat) : Decidable (LeftMerges b p) :=
  inferInstanceAs (Decidable (_ ∧ _ ∧ (∀ j, j < _ → _ → _) ∧ _))

/-- A block in hand that has grown to the right has the same way left: if the
grown block would merge left, so would the original one. -/
theorem LeftMerges.of_grown {b b' : Buddy} {p : Nat} (hn : b'.memNrPages = b.memNrPages)
    (hright : RightFree b p (b.order p)) (hord : b'.order p = b.order p + 1)
    (hkeep : ∀ q, q ≠ p → q ≠ p + 2 ^ b.order p →
      b'.state q = b.state q ∧ b'.order q = b.order q)
    (h : LeftMerges b' p) : LeftMerges b p := by
  obtain ⟨h1, h2, h3, h4, h5, h6⟩ := h
  have hposp := Nat.two_pow_pos (b.order p)
  refine ⟨h1, by omega, fun j hj hoj => ?_, h4, ?_⟩
  · rcases Nat.eq_or_lt_of_le hoj with rfl | hlt
    · exact hright
    · have hpow : 2 ^ b.order p < 2 ^ j := Nat.pow_lt_pow_right (by decide) hlt
      obtain ⟨g1, g2, g3⟩ := h3 j hj (by omega)
      obtain ⟨k1, k2⟩ := hkeep (p + 2 ^ j) (by omega) (by omega)
      exact ⟨by rw [← hn]; exact g1, k1.symm.trans g2, k2.symm.trans g3⟩
  · have hpos := Nat.two_pow_pos (alignmentOrder p)
    obtain ⟨k1, k2⟩ := hkeep (p - 2 ^ alignmentOrder p) (by omega) (by omega)
    exact ⟨k1.symm.trans h5, k2.symm.trans h6⟩

/-- The stores of a right merge after `remove_free`: the buddy becomes a tail
and the block grows. -/
def absorb (b : Buddy) (p q : Nat) : Buddy :=
  (b.setPage q fun pg => { pg with state := .tail }).setPage p
    fun pg => { pg with order := pg.order + 1 }

theorem absorb_fields {b : Buddy} {p q : Nat} (hqp : q ≠ p) (x : Nat) :
    (absorb b p q).state x = (if x = q then .tail else b.state x) ∧
      (absorb b p q).order x = (if x = p then b.order p + 1 else b.order x) ∧
      (absorb b p q).next x = b.next x ∧ (absorb b p q).prev x = b.prev x := by
  by_cases hxq : x = q
  · subst hxq
    simp [absorb, hqp, Buddy.state, Buddy.order, Buddy.next, Buddy.prev]
  · by_cases hxp : x = p
    · subst hxp
      simp [absorb, hxq, Buddy.state, Buddy.order, Buddy.next, Buddy.prev]
    · simp [absorb, hxq, hxp, Buddy.state, Buddy.order, Buddy.next, Buddy.prev]

/-- The stores of a merge undo a cut. -/
theorem absorb_cut {b b₁ : Buddy} {h k : Nat} (hsame : SameMap b b₁)
    (hlt : h + 2 ^ k < b.memNrPages) (hleft : b.state h = .buddy ∧ b.order h = k)
    (hright : b.state (h + 2 ^ k) = .buddy ∧ b.order (h + 2 ^ k) = k) :
    Cut (absorb b₁ h (h + 2 ^ k)) b h k := by
  have hpos := Nat.two_pow_pos k
  have hne : h + 2 ^ k ≠ h := by omega
  have hst : ∀ x, (absorb b₁ h (h + 2 ^ k)).state x =
      if x = h + 2 ^ k then .tail else b.state x := by
    intro x
    rw [(absorb_fields hne x).1, hsame.state]
  have hord : ∀ x, (absorb b₁ h (h + 2 ^ k)).order x = if x = h then k + 1 else b.order x := by
    intro x
    rw [(absorb_fields hne x).2.1, hsame.order, hsame.order, hleft.2]
  have hnr : (absorb b₁ h (h + 2 ^ k)).memNrPages = b.memNrPages := hsame.nr
  exact {
    nr := hnr.symm
    lt := hnr ▸ hlt
    whole := ⟨by rw [hst, if_neg (Ne.symm hne)]; exact hleft.1, by rw [hord, if_pos rfl]⟩
    mid := by rw [hst, if_pos rfl]
    left := hleft
    right := hright
    other := fun x hx hxr => ⟨by rw [hst, if_neg hxr], by rw [hord, if_neg hx]⟩ }

/-- **One right merge**: the right buddy leaves its list and the block in hand
grows over it. -/
theorem mergeUp_right {b : Buddy} {L : Nat → List Nat} {p : Nat} (fuel : Nat)
    (h : Rep b (· = p) L) (hs : b.state p = .buddy)
    (hlt : b.order p < alignmentOrder p) (hright : RightFree b p (b.order p)) :
    ∃ b', mergeUp (fuel + 1) p b = mergeUp fuel p b' ∧
      Rep b' (· = p) (Function.update L (b.order p) ((L (b.order p)).erase (p + 2 ^ b.order p))) ∧
      b'.state p = .buddy ∧ b'.order p = b.order p + 1 ∧ Keeps b b' p ∧
      (¬ LeftMerges b p → ¬ LeftMerges b' p) := by
  obtain ⟨hqn, hqs, hqo⟩ := hright
  have hpos : 0 < 2 ^ b.order p := Nat.two_pow_pos _
  have hqp : p + 2 ^ b.order p ≠ p := by omega
  have hal := alignmentOrder_le p
  have hmax : b.order p < pageMaxOrder := by omega
  obtain ⟨b₁, he, hsm, hfl⟩ := removeFree_spec h.lists hqn hqs (by rw [hqo]; omega) hqp
  rw [hqo] at hfl
  have hcut := absorb_cut hsm hqn ⟨hs, rfl⟩ ⟨hqs, hqo⟩
  refine ⟨absorb b₁ p (p + 2 ^ b.order p), ?_,
    ⟨hcut.tiling_whole h.tiling hmax (le_alignmentOrder.mp hlt).2, ?_⟩, hcut.whole.1, hcut.whole.2,
    hcut.keeps_whole, ?_⟩
  · have h1 : (b.memMap p).order < pageMaxOrder := hmax
    have h2 : alignmentOrder p > (b.memMap p).order := hlt
    have h3 : ¬ p + 2 ^ (b.memMap p).order ≥ b.memNrPages := Nat.not_le.mpr hqn
    rw [mergeUp]
    simp only [if_pos h1, if_pos h2, if_neg h3]
    rw [if_pos ⟨hqs, hqo⟩]
    simp only [Buddy.order] at he
    rw [he]
    rfl
  · refine hfl.congr rfl (fun _ _ x _ => (absorb_fields hqp x).2.2) (fun x => ?_)
      (fun x _ hoff => ?_)
    · rw [(absorb_fields hqp x).1,
        show (absorb b₁ p (p + 2 ^ b.order p)).memNrPages = b₁.memNrPages from rfl]
      by_cases hx : x = p + 2 ^ b.order p <;> simp [hx]
    · rw [(absorb_fields hqp x).2.1, if_neg (fun hc => hoff (.inl hc))]
  · -- the block still starts at `p`, so a left merge later is one of the old block
    intro hno hc
    refine hno (hc.of_grown hcut.nr.symm ⟨hqn, hqs, hqo⟩ hcut.whole.2 (fun x hx hxq => ?_))
    obtain ⟨hstate, horder⟩ := hcut.other x hx hxq
    exact ⟨hstate.symm, horder.symm⟩

/-- The lists after the block at `p` has grown from order `k` to order `j`: each
right buddy on the way is gone. -/
def mergedLists (L : Nat → List Nat) (p k j i : Nat) : List Nat :=
  if k ≤ i ∧ i < j then (L i).erase (p + 2 ^ i) else L i

theorem mergedLists_self (L : Nat → List Nat) (p k : Nat) : mergedLists L p k k = L := by
  funext i
  rw [mergedLists, if_neg (by omega)]

theorem mergedLists_step (L : Nat → List Nat) {p k j : Nat} (h : k < j) :
    mergedLists (Function.update L k ((L k).erase (p + 2 ^ k))) p (k + 1) j =
      mergedLists L p k j := by
  funext i
  unfold mergedLists
  by_cases hik : i = k
  · subst hik
    rw [if_neg (by omega), if_pos (by omega), Function.update_self]
  · rw [Function.update_of_ne hik]
    by_cases hi : k ≤ i ∧ i < j
    · rw [if_pos hi, if_pos (by omega)]
    · rw [if_neg hi, if_neg (by omega)]

/-- **The merging loop** of a block that does not merge left stays at `p` and
keeps the representation. -/
theorem mergeUp_spec {p : Nat} : ∀ (fuel : Nat) {b : Buddy} {L : Nat → List Nat},
    Rep b (· = p) L → p < b.memNrPages → b.state p = .buddy → ¬ LeftMerges b p →
    ∃ b', mergeUp fuel p b = .ok (p, b') ∧ b.order p ≤ b'.order p ∧
      Rep b' (· = p) (mergedLists L p (b.order p) (b'.order p)) ∧ b'.state p = .buddy ∧
      Keeps b b' p := by
  intro fuel
  induction fuel with
  | zero =>
      intro b L h _ hs _
      exact ⟨b, rfl, Nat.le_refl _, (mergedLists_self L p _).symm ▸ h, hs, Keeps.refl b p⟩
  | succ fuel ih =>
      intro b L h hp hs hno
      have hstop : mergeUp (fuel + 1) p b = .ok (p, b) →
          ∃ b', mergeUp (fuel + 1) p b = .ok (p, b') ∧ b.order p ≤ b'.order p ∧
            Rep b' (· = p) (mergedLists L p (b.order p) (b'.order p)) ∧ b'.state p = .buddy ∧
            Keeps b b' p :=
        fun he => ⟨b, he, Nat.le_refl _, (mergedLists_self L p _).symm ▸ h, hs, Keeps.refl b p⟩
      by_cases hmax : (b.memMap p).order < pageMaxOrder
      · by_cases hal : alignmentOrder p > (b.memMap p).order
        · by_cases hright : RightFree b p (b.order p)
          · obtain ⟨b₁, he, hr, hs₁, ho₁, hkeep, hno₁⟩ := mergeUp_right fuel h hs hal hright
            obtain ⟨b₂, he₂, hle₂, hr₂, hs₂, hkeep₂⟩ :=
              ih hr (by rw [hkeep.nr]; exact hp) hs₁ (hno₁ hno)
            rw [ho₁] at hle₂ hr₂
            rw [mergedLists_step L hle₂] at hr₂
            exact ⟨b₂, he.trans he₂, by omega, hr₂, hs₂, hkeep.trans hkeep₂⟩
          · apply hstop
            rw [mergeUp]
            simp only [if_pos hmax, if_pos hal]
            by_cases hn : p + 2 ^ (b.memMap p).order ≥ b.memNrPages
            · rw [if_pos hn]
            · rw [if_neg hn, if_neg]
              rintro ⟨h1, h2⟩
              exact hright ⟨Nat.lt_of_not_le hn, h1, h2⟩
        · -- the block is as large as its alignment allows: only the left buddy is left
          have hord : b.order p = alignmentOrder p := by
            have h1 : b.order p ≤ alignmentOrder p :=
              le_alignmentOrder.mpr ⟨Nat.le_of_lt hmax, h.tiling.aligned
                (cell_eq_head.mpr ⟨hp, .inl hs, rfl⟩)⟩
            have h2 : alignmentOrder p ≤ b.order p := Nat.le_of_not_lt hal
            omega
          apply hstop
          rw [mergeUp]
          simp only [if_pos hmax, if_neg hal]
          by_cases hlow : p < 2 ^ (b.memMap p).order
          · rw [if_pos hlow]
          · rw [if_neg hlow, if_neg]
            rintro ⟨h1, h2⟩
            have hord' : (b.memMap p).order = alignmentOrder p := hord
            rw [hord'] at hlow h1 h2 hmax
            exact hno ⟨hmax, Nat.le_of_eq hord, fun j hj hoj => by omega,
              Nat.le_of_not_lt hlow, h1, h2⟩
      · exact hstop (by rw [mergeUp]; simp only [if_neg hmax])

/-! ## Freeing -/

/-- The first stores of `free_pages`. -/
def release (b : Buddy) (p : Nat) : Buddy :=
  b.setPage p fun pg => { pg with state := .buddy, prev := none, next := none }

@[simp] theorem release_order (b : Buddy) (p x : Nat) : (release b p).order x = b.order x := by
  by_cases hx : x = p <;> simp [release, hx, Buddy.order]

@[simp] theorem release_state_self (b : Buddy) (p : Nat) : (release b p).state p = .buddy := by
  simp [release, Buddy.state]

theorem release_state_of_ne (b : Buddy) {p x : Nat} (hx : x ≠ p) :
    (release b p).state x = b.state x := by
  simp [release, hx, Buddy.state]

theorem release_links (b : Buddy) {p x : Nat} (hx : x ≠ p) :
    (release b p).next x = b.next x ∧ (release b p).prev x = b.prev x := by
  simp [release, hx, Buddy.next, Buddy.prev]

/-- Releasing an allocation moves no block. -/
theorem release_cell {b : Buddy} {p : Nat} (hp : p < b.memNrPages) (hs : b.state p = .allocated) :
    (release b p).cell = b.cell := by
  funext x
  by_cases hx : x = p
  · subst hx
    rw [cell_eq_head.mpr ⟨hp, .inr hs, rfl⟩]
    exact cell_eq_head.mpr ⟨hp, .inl (release_state_self b x), release_order b x x⟩
  · exact cell_congr rfl (release_state_of_ne b hx) (release_order b p x)

/-- A released block is in hand: free, but on no list yet. -/
theorem release_rep {b : Buddy} {L : Nat → List Nat} {p : Nat} (h : Rep b (fun _ => False) L)
    (hp : p < b.memNrPages) (hs : b.state p = .allocated) : Rep (release b p) (· = p) L := by
  refine ⟨?_, h.lists.congr rfl (fun k hk x hx => ?_) (fun x => ?_)
    (fun x _ _ => release_order b p x)⟩
  · rw [release_cell hp hs]
    exact h.tiling
  · refine release_links b ?_
    rintro rfl
    obtain ⟨_, hb, _⟩ := (h.lists.mem k hk x).mp hx
    rw [hs] at hb
    cases hb
  · show x < b.memNrPages ∧ _ ↔ _
    by_cases hx : x = p
    · simp [hx, hs]
    · simp [hx, release_state_of_ne b hx]

/-- Whether the merging loop turns left does not depend on the block's own
state. -/
theorem release_leftMerges {b : Buddy} {p : Nat} (h : LeftMerges (release b p) p) :
    LeftMerges b p := by
  obtain ⟨h1, h2, h3, h4, h5, h6⟩ := h
  simp only [release_order] at h2 h3 h6
  have hpos := Nat.two_pow_pos (alignmentOrder p)
  rw [release_state_of_ne b (by omega)] at h5
  refine ⟨h1, h2, fun j hj hoj => ?_, h4, h5, h6⟩
  obtain ⟨g1, g2, g3⟩ := h3 j hj hoj
  have hposj := Nat.two_pow_pos j
  rw [release_state_of_ne b (by omega)] at g2
  rw [release_order] at g3
  exact ⟨g1, g2, g3⟩

/-- `free_pages` of an allocation: release, merge, insert. -/
theorem freePages_eq_ok {b b₁ b₂ : Buddy} {p q : Nat} (hs : b.state p = .allocated)
    (hmerge : mergeUp pageMaxOrder p (release b p) = .ok (q, b₁))
    (hinsert : insertFree b₁ q = .ok b₂) : freePages b p = .ok b₂ := by
  have hs' : ¬ (b.memMap p).state ≠ .allocated := fun hc => hc hs
  rw [freePages, if_neg hs']
  simp only [release] at hmerge
  simp only [hmerge, hinsert]

/-- **`free_pages`** of anything but the head of an allocation does
nothing. -/
theorem freePages_ignored {b : Buddy} {p : Nat} (h : b.state p ≠ .allocated) :
    freePages b p = .ok b := by
  have h' : (b.memMap p).state ≠ .allocated := h
  rw [freePages, if_pos h']

/-- **`free_pages`** of an allocation that does not merge left: the block grows
to the right up to some order and goes to the head of that order's list. -/
theorem freePages_merged {b : Buddy} {L : Nat → List Nat} {p : Nat}
    (h : Rep b (fun _ => False) L) (hp : p < b.memNrPages) (hs : b.state p = .allocated)
    (hno : ¬ LeftMerges b p) :
    ∃ b', freePages b p = .ok b' ∧ b.order p ≤ b'.order p ∧
      Rep b' (fun _ => False)
        (Function.update (mergedLists L p (b.order p) (b'.order p)) (b'.order p)
          (p :: mergedLists L p (b.order p) (b'.order p) (b'.order p))) ∧
      b'.state p = .buddy ∧ Keeps b b' p := by
  have hkr : Keeps b (release b p) p :=
    ⟨rfl, fun q hq => by rw [release_state_of_ne b hq], fun q _ _ => release_order b p q,
      fun q => by rw [release_cell hp hs]⟩
  obtain ⟨b₁, he₁, hle₁, hr₁, hs₁, hk₁⟩ := mergeUp_spec pageMaxOrder (release_rep h hp hs) hp
    (release_state_self b p) fun hl => hno (release_leftMerges hl)
  rw [release_order] at hle₁ hr₁
  have hp₁ : p < b₁.memNrPages := by
    rw [hk₁.nr]
    exact hp
  obtain ⟨b₂, he₂, hn₂, hst₂, hord₂, hfl₂⟩ := insertFree_spec (p := p) hr₁.lists hp₁
    (fun _ => rfl) (hr₁.order_le hp₁ (.inl hs₁))
  have hsm := SameMap.of_insert hs₁ hn₂ hst₂ hord₂
  rw [← hord₂ p] at hle₁ hfl₂
  refine ⟨b₂, freePages_eq_ok hs he₁ he₂, hle₁, ⟨?_, hfl₂.off_congr (fun x _ _ => ?_)⟩, ?_,
    hkr.trans (hk₁.trans (hsm.keeps p))⟩
  · rw [hsm.cell]
    exact hr₁.tiling
  · constructor
    · exact False.elim
    · exact fun hc => hc.2 hc.1
  · rw [hsm.state, hs₁]

/-- **`free_pages`** of an allocation that does not merge left frees it and
keeps the representation; no other allocation changes. -/
theorem freePages_spec {b : Buddy} {L : Nat → List Nat} {p : Nat}
    (h : Rep b (fun _ => False) L) (hp : p < b.memNrPages) (hs : b.state p = .allocated)
    (hno : ¬ LeftMerges b p) :
    ∃ b' L', freePages b p = .ok b' ∧ Rep b' (fun _ => False) L' ∧ b'.state p = .buddy ∧
      Keeps b b' p := by
  obtain ⟨b', he, -, hr, hs', hk⟩ := freePages_merged h hp hs hno
  exact ⟨b', _, he, hr, hs', hk⟩

end DevOS.Mm
