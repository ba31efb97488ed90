import Mathlib.Data.List.Induction

/-!
# Radix trees in memory

Nodes are addresses into a memory of words; a word may name a child node, and
a node is reached from the root by a path of indices. `Separate` says that no
node is reached by two paths (down to a depth), which is what makes an update
of one word local: it changes the node reached by one path only. The two
updates of a page-table walk are treated: rewriting a word without touching
the tree (`nodeAt_congr`), and hanging an empty node under a word that had no
child (`nodeAt_link`). A lookup (`find`) follows a path until a word holds a
value; words hold values or children, never both.
-/

namespace DevOS.Lib

variable {ν ι α : Type} (child : α → Option ν)

/-- The node at the end of a path. -/
def nodeAt (mem : ν → ι → α) : ν → List ι → Option ν
  | t, [] => some t
  | t, i :: p =>
      match child (mem t i) with
      | none => none
      | some u => nodeAt mem u p

variable {child} {mem mem' : ν → ι → α} {root t : ν} {p q : List ι} {i j : ι} {d : Nat}

theorem nodeAt_append (t : ν) (p q : List ι) :
    nodeAt child mem t (p ++ q) = (nodeAt child mem t p).bind fun u => nodeAt child mem u q := by
  induction p generalizing t with
  | nil => rfl
  | cons k p ih =>
      simp only [List.cons_append, nodeAt]
      cases child (mem t k) with
      | none => rfl
      | some u => exact ih u

theorem nodeAt_concat (t : ν) (p : List ι) (i : ι) :
    nodeAt child mem t (p ++ [i]) = (nodeAt child mem t p).bind fun u => child (mem u i) := by
  rw [nodeAt_append]
  congr 1
  funext u
  simp only [nodeAt]
  cases child (mem u i) <;> rfl

/-- A path that leads somewhere leads there by way of nodes. -/
theorem nodeAt_of_initial (h : p <+: q) (hq : nodeAt child mem t q ≠ none) :
    nodeAt child mem t p ≠ none := by
  obtain ⟨r, rfl⟩ := h
  intro hp
  rw [nodeAt_append, hp] at hq
  exact hq rfl

variable (child) in
/-- No node is reached by two paths of length at most `d`. -/
def Separate (mem : ν → ι → α) (root : ν) (d : Nat) : Prop :=
  ∀ p q u, p.length ≤ d → q.length ≤ d → nodeAt child mem root p = some u →
    nodeAt child mem root q = some u → p = q

/-- **A change that touches no child of the tree** leaves every path. -/
theorem nodeAt_congr
    (h : ∀ p u, p.length < d → nodeAt child mem root p = some u →
      ∀ i, child (mem' u i) = child (mem u i)) :
    ∀ p, p.length ≤ d → nodeAt child mem' root p = nodeAt child mem root p := by
  intro p
  induction p using List.reverseRecOn with
  | nil => intro _; rfl
  | append_singleton p i ih =>
      intro hlen
      rw [List.length_append, List.length_singleton] at hlen
      rw [nodeAt_concat, nodeAt_concat, ih (by omega)]
      cases hp : nodeAt child mem root p with
      | none => rfl
      | some u => exact h p u (by omega) hp i

/-- The node at a path depends on the words along it only. -/
theorem nodeAt_along : ∀ {p : List ι} {root : ν},
    (∀ q j u, q ++ [j] <+: p → nodeAt child mem root q = some u →
      child (mem' u j) = child (mem u j)) →
    nodeAt child mem' root p = nodeAt child mem root p := by
  intro p
  induction p with
  | nil => intro root _; rfl
  | cons i p ih =>
      intro root h
      have hword := h [] i root (List.cons_prefix_cons.mpr ⟨rfl, List.nil_prefix⟩) rfl
      simp only [nodeAt, hword]
      cases hc : child (mem root i) with
      | none => rfl
      | some v =>
          refine ih fun q j u hpre hu => ?_
          refine h (i :: q) j u (List.cons_prefix_cons.mpr ⟨rfl, hpre⟩) ?_
          simp only [nodeAt, hc]
          exact hu

/-- **Hanging an empty node `s`** under word `i` of the node at `p`: that path
now leads to `s`, no other path changes. -/
theorem nodeAt_link {s : ν} (hsep : Separate child mem root d) (hp : p.length < d)
    (ht : nodeAt child mem root p = some t) (hold : child (mem t i) = none)
    (hnew : child (mem' t i) = some s) (hempty : ∀ j, child (mem' s j) = none)
    (hother : ∀ q u, q.length < d → nodeAt child mem root q = some u → ∀ j, ¬ (u = t ∧ j = i) →
      child (mem' u j) = child (mem u j)) :
    ∀ q, q.length ≤ d →
      (q = p ++ [i] → nodeAt child mem' root q = some s) ∧
      (q ≠ p ++ [i] → nodeAt child mem' root q = nodeAt child mem root q) := by
  intro q
  induction q using List.reverseRecOn with
  | nil =>
      intro _
      exact ⟨fun h => absurd h (by simp), fun _ => rfl⟩
  | append_singleton q j ih =>
      intro hlen
      rw [List.length_append, List.length_singleton] at hlen
      obtain ⟨ih1, ih2⟩ := ih (by omega)
      rw [nodeAt_concat, nodeAt_concat]
      by_cases hq : q = p ++ [i]
      · -- below the new node there is nothing
        rw [ih1 hq]
        refine ⟨fun h => absurd (congrArg List.length h) (by simp [hq]), fun _ => ?_⟩
        rw [hq, nodeAt_concat, ht]
        show child (mem' s j) = (child (mem t i)).bind _
        rw [hold]
        exact hempty j
      · rw [ih2 hq]
        cases hu : nodeAt child mem root q with
        | none =>
            refine ⟨fun h => ?_, fun _ => rfl⟩
            rw [(List.append_inj' h rfl).1, ht] at hu
            cases hu
        | some u =>
            refine ⟨fun h => ?_, fun h => ?_⟩
            · obtain ⟨h1, h2⟩ := List.append_inj' h rfl
              rw [h1, ht] at hu
              cases hu
              cases h2
              exact hnew
            · refine hother q u (by omega) hu j fun hc => h ?_
              rw [hc.2, hsep q p u (by omega) (by omega) hu (hc.1 ▸ ht)]

/-- The tree stays separate when the node that was hung was not in it. -/
theorem Separate.link {s : ν} (hsep : Separate child mem root d)
    (hs : ∀ q, q.length ≤ d → nodeAt child mem root q ≠ some s)
    (h : ∀ q, q.length ≤ d →
      (q = p ++ [i] → nodeAt child mem' root q = some s) ∧
      (q ≠ p ++ [i] → nodeAt child mem' root q = nodeAt child mem root q)) :
    Separate child mem' root d := by
  intro q r u hq hr hqu hru
  by_cases h1 : q = p ++ [i] <;> by_cases h2 : r = p ++ [i]
  · rw [h1, h2]
  · rw [(h q hq).1 h1] at hqu
    rw [(h r hr).2 h2, ← hqu] at hru
    exact absurd hru (hs r hr)
  · rw [(h r hr).1 h2] at hru
    rw [(h q hq).2 h1, ← hru] at hqu
    exact absurd hqu (hs q hq)
  · rw [(h q hq).2 h1] at hqu
    rw [(h r hr).2 h2] at hru
    exact hsep q r u hq hr hqu hru

theorem Separate.congr (hsep : Separate child mem root d)
    (h : ∀ q, q.length ≤ d → nodeAt child mem' root q = nodeAt child mem root q) :
    Separate child mem' root d := by
  intro q r u hq hr hqu hru
  rw [h q hq] at hqu
  rw [h r hr] at hru
  exact hsep q r u hq hr hqu hru

/-! ## Lookups -/

section Find

variable {β : Type} (leaf : Nat → α → Option β)

variable (child) in
/-- Follow a path until a word holds a value. What a word holds depends on the
number of indices still to come. -/
def find (mem : ν → ι → α) : ν → List ι → Option β
  | _, [] => none
  | t, i :: p =>
      match leaf p.length (mem t i) with
      | some b => some b
      | none =>
          match child (mem t i) with
          | none => none
          | some u => find mem u p

variable {leaf}

/-- A lookup starts with the nodes on its way. -/
theorem find_append (hexcl : ∀ k a u, child a = some u → leaf (k + 1) a = none) :
    ∀ {p : List ι} {t u : ν} {r : List ι}, r ≠ [] → nodeAt child mem t p = some u →
      find child leaf mem t (p ++ r) = find child leaf mem u r := by
  intro p
  induction p with
  | nil =>
      intro t u r _ h
      cases h
      rfl
  | cons i p ih =>
      intro t u r hr h
      simp only [nodeAt] at h
      cases hc : child (mem t i) with
      | none => simp [hc] at h
      | some v =>
          simp only [hc] at h
          have hlen : (p ++ r).length = (p ++ r).length - 1 + 1 := by
            have := List.length_pos_iff.mpr hr
            rw [List.length_append]
            omega
          have hnone : leaf (p ++ r).length (mem t i) = none := by
            rw [hlen]
            exact hexcl _ _ _ hc
          simp only [List.cons_append, find, hnone, hc]
          exact ih hr h

/-- Nothing is found in an empty node. -/
theorem find_empty (h : ∀ k j, leaf k (mem t j) = none) (hc : ∀ j, child (mem t j) = none) :
    ∀ p, find child leaf mem t p = none := by
  intro p
  cases p with
  | nil => rfl
  | cons i p => simp only [find, h, hc]

/-- A lookup depends on the words along its path only. -/
theorem find_along : ∀ {p : List ι} {root : ν},
    (∀ q j u, q ++ [j] <+: p → nodeAt child mem root q = some u → mem' u j = mem u j) →
    find child leaf mem' root p = find child leaf mem root p := by
  intro p
  induction p with
  | nil => intro root _; rfl
  | cons i p ih =>
      intro root h
      have hword := h [] i root (List.cons_prefix_cons.mpr ⟨rfl, List.nil_prefix⟩) rfl
      simp only [find, hword]
      cases hl : leaf p.length (mem root i) with
      | some b => rfl
      | none =>
          cases hc : child (mem root i) with
          | none => rfl
          | some v =>
              refine ih fun q j u hpre hu => ?_
              refine h (i :: q) j u (List.cons_prefix_cons.mpr ⟨rfl, hpre⟩) ?_
              simp only [nodeAt, hc]
              exact hu

/-- **A lookup is local**: if the memories agree on the nodes of the tree but
for word `i` of the node at `p`, every lookup that does not go through that
word finds the same. -/
theorem find_frame (hsep : Separate child mem root d) (hp : p.length ≤ d)
    (ht : nodeAt child mem root p = some t)
    (hother : ∀ q u, q.length ≤ d → nodeAt child mem root q = some u → ∀ j, ¬ (u = t ∧ j = i) →
      mem' u j = mem u j) :
    ∀ (r pre : List ι) (u : ν), nodeAt child mem root pre = some u →
      pre.length + r.length ≤ d + 1 → ¬ (p ++ [i]) <+: (pre ++ r) →
      find child leaf mem' u r = find child leaf mem u r := by
  intro r
  induction r with
  | nil => intro pre u _ _ _; rfl
  | cons j r ih =>
      intro pre u hu hlen hnot
      rw [List.length_cons] at hlen
      have hword : mem' u j = mem u j := by
        refine hother pre u (by omega) hu j fun hc => hnot ?_
        have hpre : pre = p := hsep pre p u (by omega) hp hu (hc.1 ▸ ht)
        rw [hpre, hc.2]
        exact ⟨r, by simp⟩
      simp only [find, hword]
      cases hl : leaf r.length (mem u j) with
      | some b => rfl
      | none =>
          cases hc : child (mem u j) with
          | none => rfl
          | some v =>
              have hv : nodeAt child mem root (pre ++ [j]) = some v := by
                rw [nodeAt_concat, hu]
                exact hc
              refine ih (pre ++ [j]) v hv ?_ ?_
              · rw [List.length_append, List.length_singleton]
                omega
              · rwa [List.append_assoc]

end Find

end DevOS.Lib
