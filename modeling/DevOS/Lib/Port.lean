import Mathlib.Data.Option.Basic

/-!
# Instructions over a memory

A port is what an instruction has of a memory: loads, and stores that may fault.
An instruction reads the registers and what can be loaded, and gives the
registers after it and what it stores. Two ports that answer alike execute
instructions alike (`Simulates.exec`), and an instruction keeps what every store
keeps (`Port.exec_keeps`).
-/

namespace DevOS.Lib

variable {ρ α ω μ ν : Type}

/-- Loads and stores of `ω` at addresses `α` in a memory `μ`; `none` is a fault. -/
structure Port (μ α ω : Type) where
  load : μ → α → Option ω
  store : μ → α → ω → Option μ

/-- From the registers and what can be loaded: the registers afterwards and the
stores in order, or a fault. -/
abbrev Instr (ρ α ω : Type) := ρ → (α → Option ω) → Option (ρ × List (α × ω))

/-- The stores of an instruction. -/
def Port.storeAll (P : Port μ α ω) : μ → List (α × ω) → Option μ
  | m, [] => some m
  | m, (a, w) :: ws =>
      match P.store m a w with
      | none => none
      | some m' => P.storeAll m' ws

/-- One instruction. -/
def Port.exec (P : Port μ α ω) (f : Instr ρ α ω) (r : ρ) (m : μ) : Option (ρ × μ) :=
  match f r (P.load m) with
  | none => none
  | some (r', ws) =>
      match P.storeAll m ws with
      | none => none
      | some m' => some (r', m')

variable {P : Port μ α ω} {Q : Port ν α ω} {R : μ → ν → Prop} {m m' : μ} {n : ν}

/-- What every store keeps. -/
theorem Port.storeAll_keeps {M : μ → Prop}
    (h : ∀ m a w m', P.store m a w = some m' → M m → M m') :
    ∀ {ws : List (α × ω)} {m m' : μ}, P.storeAll m ws = some m' → M m → M m' := by
  intro ws
  induction ws with
  | nil =>
      intro m m' hs hm
      cases hs
      exact hm
  | cons w ws ih =>
      intro m m' hs hm
      unfold Port.storeAll at hs
      split at hs
      · cases hs
      · rename_i m₁ hone
        exact ih hs (h _ _ _ _ hone hm)

theorem Port.exec_keeps {M : μ → Prop} (h : ∀ m a w m', P.store m a w = some m' → M m → M m')
    {f : Instr ρ α ω} {r r' : ρ} (hexec : P.exec f r m = some (r', m')) (hm : M m) : M m' := by
  unfold Port.exec at hexec
  split at hexec
  · cases hexec
  · split at hexec
    · cases hexec
    · rename_i hall
      cases hexec
      exact Port.storeAll_keeps h hall hm

/-- Both fault, or both go through to related results. -/
def Together (R : μ → ν → Prop) (a : Option μ) (b : Option ν) : Prop :=
  (a = none ∧ b = none) ∨ ∃ m n, a = some m ∧ b = some n ∧ R m n

/-- **Related memories answer alike.** -/
structure Simulates (P : Port μ α ω) (Q : Port ν α ω) (R : μ → ν → Prop) : Prop where
  load : ∀ {m n}, R m n → P.load m = Q.load n
  store : ∀ {m n}, R m n → ∀ a w, Together R (P.store m a w) (Q.store n a w)

theorem Simulates.storeAll (h : Simulates P Q R) :
    ∀ (ws : List (α × ω)) {m : μ} {n : ν}, R m n →
      Together R (P.storeAll m ws) (Q.storeAll n ws) := by
  intro ws
  induction ws with
  | nil => exact fun hR => .inr ⟨_, _, rfl, rfl, hR⟩
  | cons w ws ih =>
      intro m n hR
      obtain ⟨a, w⟩ := w
      unfold Port.storeAll
      rcases h.store hR a w with ⟨hm, hn⟩ | ⟨m', n', hm, hn, hR'⟩
      · rw [hm, hn]
        exact .inl ⟨rfl, rfl⟩
      · rw [hm, hn]
        exact ih hR'

/-- **Instructions run alike** over related memories. -/
theorem Simulates.exec (h : Simulates P Q R) (hR : R m n) {f : Instr ρ α ω} {r r' : ρ}
    (hexec : P.exec f r m = some (r', m')) : ∃ n', Q.exec f r n = some (r', n') ∧ R m' n' := by
  unfold Port.exec at hexec ⊢
  rw [← h.load hR]
  split at hexec
  · cases hexec
  · rename_i r₁ ws _
    rcases h.storeAll ws hR with ⟨hm, -⟩ | ⟨m₁, n₁, hm, hn, hR'⟩
    · rw [hm] at hexec
      cases hexec
    · rw [hm] at hexec
      cases hexec
      exact ⟨n₁, by rw [hn], hR'⟩

end DevOS.Lib
