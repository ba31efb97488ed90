import Mathlib.Data.List.Basic

/-!
# Linked lists in memory

NULL-terminated doubly linked lists threaded through two link functions
`next` and `prev` of an arbitrary node type. A list SEGMENT is described by
the node before it, the link into it, its members in order, the node it ends
at and the link out of it; a whole list is a segment entered with no
predecessor and left with no successor.

Nothing here fixes how the links are stored. Each edit (push at the head,
pop of the head, unlinking an inner node) is stated by what the new links
must be at the nodes involved and by agreement with the old links at every
other member, so a caller discharges it by reading its own memory.
-/

namespace DevOS.Lib

variable {α : Type}

/-- The members `xs` are linked both ways from `entry` (whose predecessor is
`before`) up to the outgoing link `exit`, with `last` the final node. -/
def Segment (next prev : α → Option α) :
    (before entry : Option α) → List α → (last exit : Option α) → Prop
  | before, entry, [], last, exit => last = before ∧ exit = entry
  | before, entry, x :: xs, last, exit =>
      entry = some x ∧ prev x = before ∧ Segment next prev (some x) (next x) xs last exit

/-- A whole list: no predecessor at the head, no successor at the end, and
no node met twice. -/
structure DList (next prev : α → Option α) (head : Option α) (xs : List α) : Prop where
  linked : ∃ last, Segment next prev none head xs last none
  nodup : xs.Nodup

variable {next prev next' prev' : α → Option α}

/-- Segments read only the links of their members. -/
theorem Segment.congr {xs : List α} : ∀ {before entry last exit : Option α},
    Segment next prev before entry xs last exit →
    (∀ x ∈ xs, next' x = next x ∧ prev' x = prev x) →
    Segment next' prev' before entry xs last exit := by
  induction xs with
  | nil => intro _ _ _ _ h _; exact h
  | cons x xs ih =>
      intro before entry last exit h hag
      obtain ⟨he, hp, hs⟩ := h
      obtain ⟨hn', hp'⟩ := hag x (by simp)
      refine ⟨he, hp'.trans hp, ?_⟩
      rw [hn']
      exact ih hs (fun y hy => hag y (by simp [hy]))

/-- Segments compose at the seam. -/
theorem segment_append {xs ys : List α} : ∀ {before entry last exit : Option α},
    Segment next prev before entry (xs ++ ys) last exit ↔
      ∃ mid link, Segment next prev before entry xs mid link ∧
        Segment next prev mid link ys last exit := by
  induction xs with
  | nil =>
      intro before entry last exit
      constructor
      · intro h
        exact ⟨before, entry, ⟨rfl, rfl⟩, h⟩
      · rintro ⟨mid, link, ⟨rfl, rfl⟩, h⟩
        exact h
  | cons x xs ih =>
      intro before entry last exit
      constructor
      · rintro ⟨he, hp, hs⟩
        obtain ⟨mid, link, h1, h2⟩ := ih.mp hs
        exact ⟨mid, link, ⟨he, hp, h1⟩, h2⟩
      · rintro ⟨mid, link, ⟨he, hp, h1⟩, h2⟩
        exact ⟨he, hp, ih.mpr ⟨mid, link, h1, h2⟩⟩

/-- The final node of a segment is a member, or the node before it when the
segment is empty. -/
theorem Segment.last_mem {xs : List α} : ∀ {before entry last exit : Option α},
    Segment next prev before entry xs last exit →
    (xs = [] ∧ last = before) ∨ ∃ y ∈ xs, last = some y := by
  induction xs with
  | nil => intro _ _ _ _ h; exact .inl ⟨rfl, h.1⟩
  | cons x xs ih =>
      intro before entry last exit h
      rcases ih h.2.2 with ⟨_, hl⟩ | ⟨y, hy, hl⟩
      · exact .inr ⟨x, by simp, hl⟩
      · exact .inr ⟨y, by simp [hy], hl⟩

/-- **Redirect the way out**: when only the last member's `next` changes, the
segment is the same with a new exit. -/
theorem Segment.redirect (next' prev' : α → Option α) {xs : List α} (out : Option α) :
    ∀ {before entry last exit : Option α},
    Segment next prev before entry xs last exit → xs.Nodup →
    (∀ x ∈ xs, prev' x = prev x) → (∀ x ∈ xs, last ≠ some x → next' x = next x) →
    (∀ x ∈ xs, last = some x → next' x = out) →
    Segment next' prev' before (if xs = [] then out else entry) xs last out := by
  induction xs with
  | nil =>
      intro before entry last exit h _ _ _ _
      exact ⟨h.1, rfl⟩
  | cons x xs ih =>
      intro before entry last exit h hnd hprev hkeep hlast
      obtain ⟨he, hp, hs⟩ := h
      have hnd' := List.nodup_cons.mp hnd
      have hrec := ih hs hnd'.2 (fun y hy => hprev y (by simp [hy]))
        (fun y hy => hkeep y (by simp [hy])) (fun y hy => hlast y (by simp [hy]))
      refine ⟨by simpa using he, (hprev x (by simp)).trans hp, ?_⟩
      rcases hs.last_mem with ⟨rfl, hl⟩ | ⟨y, hy, hl⟩
      · rw [hlast x (by simp) hl]
        simpa using hrec
      · have hne : xs ≠ [] := by
          intro hc
          simp [hc] at hy
        have hxy : last ≠ some x := by
          intro hc
          rw [hl] at hc
          cases hc
          exact hnd'.1 hy
        rw [hkeep x (by simp) hxy]
        simpa [hne] using hrec

/-- **Redirect the way in**: when only the first member's `prev` changes, the
segment is the same with a new predecessor. -/
theorem Segment.rebase (next' prev' : α → Option α) {xs : List α} (before' : Option α)
    {before entry last exit : Option α}
    (h : Segment next prev before entry xs last exit) (hnd : xs.Nodup)
    (hnext : ∀ x ∈ xs, next' x = next x)
    (hkeep : ∀ x ∈ xs, entry ≠ some x → prev' x = prev x)
    (hfirst : ∀ x ∈ xs, entry = some x → prev' x = before') :
    ∃ last', Segment next' prev' before' entry xs last' exit := by
  cases xs with
  | nil => exact ⟨before', rfl, h.2⟩
  | cons x xs =>
      obtain ⟨he, hp, hs⟩ := h
      have hnd' := List.nodup_cons.mp hnd
      refine ⟨last, he, hfirst x (by simp) he, ?_⟩
      rw [hnext x (by simp)]
      refine hs.congr (fun y hy => ⟨hnext y (by simp [hy]), hkeep y (by simp [hy]) ?_⟩)
      intro hc
      rw [he] at hc
      cases hc
      exact hnd'.1 hy

/-- Lists read only the links of their members. -/
theorem DList.congr {head : Option α} {xs : List α} (h : DList next prev head xs)
    (hag : ∀ x ∈ xs, next' x = next x ∧ prev' x = prev x) : DList next' prev' head xs := by
  obtain ⟨last, hs⟩ := h.linked
  exact ⟨⟨last, hs.congr hag⟩, h.nodup⟩

theorem dList_nil : DList next prev none [] := ⟨⟨none, rfl, rfl⟩, List.nodup_nil⟩

/-- The head is the first member. -/
theorem DList.head_eq {head : Option α} {xs : List α} (h : DList next prev head xs) :
    head = xs.head? := by
  obtain ⟨last, hs⟩ := h.linked
  cases xs with
  | nil => exact hs.2.symm
  | cons x xs => exact hs.1

/-- **Push** a node that is not a member: it becomes the head, the old head
learns its predecessor, every other link is kept. -/
theorem DList.push {head : Option α} {xs : List α} (h : DList next prev head xs) {x : α}
    (hx : x ∉ xs) (hnext : next' x = head) (hprev : prev' x = none)
    (hhead : ∀ y, head = some y → prev' y = some x)
    (hkeepn : ∀ y ∈ xs, next' y = next y)
    (hkeepp : ∀ y ∈ xs, head ≠ some y → prev' y = prev y) :
    DList next' prev' (some x) (x :: xs) := by
  obtain ⟨last, hs⟩ := h.linked
  obtain ⟨last', hs'⟩ := hs.rebase next' prev' (some x) h.nodup hkeepn hkeepp
    (fun y _ hy => hhead y hy)
  refine ⟨⟨last', rfl, hprev, ?_⟩, List.nodup_cons.mpr ⟨hx, h.nodup⟩⟩
  rw [hnext]
  exact hs'

/-- **Pop** the head: the next node becomes the head and forgets its
predecessor, every other link is kept. -/
theorem DList.pop {head : Option α} {x : α} {xs : List α} (h : DList next prev head (x :: xs))
    (hhead : ∀ y, next x = some y → prev' y = none)
    (hkeepn : ∀ y ∈ xs, next' y = next y)
    (hkeepp : ∀ y ∈ xs, next x ≠ some y → prev' y = prev y) :
    DList next' prev' (next x) xs := by
  obtain ⟨last, hs⟩ := h.linked
  obtain ⟨_, _, hs⟩ := hs
  have hnd := (List.nodup_cons.mp h.nodup).2
  obtain ⟨last', hs'⟩ := hs.rebase next' prev' none hnd hkeepn hkeepp (fun y _ hy => hhead y hy)
  exact ⟨⟨last', hs'⟩, hnd⟩

/-- The links of a member at a known place: its predecessor is the last node
of the prefix, its successor the first of the suffix. -/
theorem DList.links_at {head : Option α} {xs ys : List α} {x : α}
    (h : DList next prev head (xs ++ x :: ys)) :
    prev x = xs.getLast? ∧ next x = ys.head? := by
  obtain ⟨last, hs⟩ := h.linked
  obtain ⟨mid, link, h1, hl, hp, h2⟩ := segment_append.mp hs
  constructor
  · rw [hp]
    rcases List.eq_nil_or_concat xs with rfl | ⟨zs, z, rfl⟩
    · exact h1.1
    · rw [List.concat_eq_append] at h1 ⊢
      obtain ⟨_, _, _, _, _, h3⟩ := segment_append.mp h1
      simpa using h3.1
  · cases ys with
    | nil => exact h2.2.symm
    | cons y ys => exact h2.1

/-- The first member links to the second. -/
theorem DList.next_head {head : Option α} {x : α} {xs : List α}
    (h : DList next prev head (x :: xs)) : next x = xs.head? := by
  have h' : DList next prev head ([] ++ x :: xs) := h
  exact h'.links_at.2

/-- **Unlink** a member: its neighbours are linked to each other, the head
moves on when the member was first, every other link is kept. -/
theorem DList.unlink {head head' : Option α} {xs ys : List α} {x : α}
    (h : DList next prev head (xs ++ x :: ys))
    (hhead : head' = if xs = [] then next x else head)
    (hbefore : ∀ y ∈ xs, prev x = some y → next' y = next x)
    (hafter : ∀ y ∈ ys, next x = some y → prev' y = prev x)
    (hkeepn : ∀ y ∈ xs ++ ys, prev x ≠ some y → next' y = next y)
    (hkeepp : ∀ y ∈ xs ++ ys, next x ≠ some y → prev' y = prev y) :
    DList next' prev' head' (xs ++ ys) := by
  obtain ⟨last, hs⟩ := h.linked
  obtain ⟨mid, link, h1, hl, hp, h2⟩ := segment_append.mp hs
  have hnd := h.nodup
  rw [List.nodup_append] at hnd
  obtain ⟨hnx, hnxy, hdis⟩ := hnd
  have hny := (List.nodup_cons.mp hnxy).2
  have hxy : ∀ a ∈ xs, a ∉ ys := fun a ha hb => hdis a ha a (by simp [hb]) rfl
  obtain ⟨hpx, hnx'⟩ := h.links_at
  -- the suffix now hangs off the member's old predecessor
  obtain ⟨last', hs2⟩ := h2.rebase next' prev' mid hny
    (fun y hy => hkeepn y (by simp [hy]) (by
      intro hc
      rw [hpx] at hc
      exact hxy y (List.mem_of_getLast? hc) hy))
    (fun y hy hne => hkeepp y (by simp [hy]) hne)
    (fun y hy he => (hafter y hy he).trans hp)
  -- and the prefix leads straight to it
  have hs1 := h1.redirect next' prev' (next x) hnx
    (fun y hy => hkeepp y (by simp [hy]) (by
      intro hc
      rw [hnx'] at hc
      exact hxy y hy (List.mem_of_head? hc)))
    (fun y hy hne => hkeepn y (by simp [hy]) (by rw [hp]; exact hne))
    (fun y hy he => hbefore y hy (by rw [hp]; exact he))
  refine ⟨⟨last', segment_append.mpr ⟨mid, next x, ?_, hs2⟩⟩, ?_⟩
  · rw [hhead]
    exact hs1
  · exact List.nodup_append.mpr ⟨hnx, hny, fun a ha b hb => hdis a ha b (by simp [hb])⟩

end DevOS.Lib
