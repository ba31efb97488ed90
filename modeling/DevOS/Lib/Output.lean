import Mathlib.Data.List.Basic

/-!
# Outputs and chunks

An OUTPUT takes elements one by one and can say how many it has taken. Code
that is written against any output behaves the same on two outputs related by
a simulation. One such pair is a list that grows without bound and a bounded
buffer that is emptied in chunks: `Chunks` relates the two.
-/

namespace DevOS.Lib

variable {α κ κ' : Type}

/-- A place to put elements, with a count. -/
structure Output (α κ : Type) where
  put : κ → α → κ
  len : κ → Int

/-- Put several elements. -/
def Output.puts (o : Output α κ) (k : κ) (xs : List α) : κ := xs.foldl o.put k

/-- The two outputs keep related states related, and their counts agree. -/
structure Output.Simulates (o : Output α κ) (o' : Output α κ') (R : κ → κ' → Prop) : Prop where
  put : ∀ {k k'} (x : α), R k k' → R (o.put k x) (o'.put k' x)
  len : ∀ {k k'}, R k k' → o.len k = o'.len k'

theorem Output.Simulates.puts {o : Output α κ} {o' : Output α κ'} {R : κ → κ' → Prop}
    (h : o.Simulates o' R) : ∀ (xs : List α) {k : κ} {k' : κ'}, R k k' →
    R (o.puts k xs) (o'.puts k' xs) := by
  intro xs
  induction xs with
  | nil => intro k k' hk; exact hk
  | cons x xs ih => intro k k' hk; exact ih (h.put x hk)

/-! ## Chunks -/

/-- `out` is cut into chunks of 1 to `cap` elements, of which the last is
still pending (and may be empty). -/
structure Chunks (cap : Nat) (chunks : List (List α)) (pending out : List α) : Prop where
  contents : chunks.flatten ++ pending = out
  size : ∀ c ∈ chunks, 1 ≤ c.length ∧ c.length ≤ cap
  pending_le : pending.length ≤ cap

variable {cap : Nat} {chunks : List (List α)} {pending out : List α}

theorem chunks_nil (cap : Nat) : Chunks cap ([] : List (List α)) [] [] :=
  ⟨rfl, fun _ hc => absurd hc List.not_mem_nil, Nat.zero_le _⟩

/-- One more element, with room for it. -/
theorem Chunks.push (h : Chunks cap chunks pending out) (hroom : pending.length < cap) (x : α) :
    Chunks cap chunks (pending ++ [x]) (out ++ [x]) where
  contents := by rw [← List.append_assoc, h.contents]
  size := h.size
  pending_le := by
    rw [List.length_append]
    exact hroom

/-- What is pending becomes a chunk. -/
theorem Chunks.flush (h : Chunks cap chunks pending out) (hsome : pending ≠ []) :
    Chunks cap (chunks ++ [pending]) [] out where
  contents := by
    rw [List.flatten_append, List.append_nil, List.flatten_singleton]
    exact h.contents
  size := by
    intro c hc
    rcases List.mem_append.mp hc with hc | hc
    · exact h.size c hc
    · rw [List.mem_singleton.mp hc]
      exact ⟨List.length_pos_iff.mpr hsome, h.pending_le⟩
  pending_le := Nat.zero_le _

end DevOS.Lib
