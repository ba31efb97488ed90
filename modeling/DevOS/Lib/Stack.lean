import Mathlib.Data.List.Range
import Mathlib.Logic.Function.Basic

/-!
# Lib — a stack in memory

A stack that grows down in memory, one value every `w` addresses. `Holds w s xs`
says what pops would give; nothing is said of the memory below the pointer, so a
call may leave anything there.
-/

namespace DevOS.Lib

/-- Memory and the pointer to the value on top. -/
structure Stack (ω : Type*) where
  mem : Nat → ω
  sp : Nat

variable {ω : Type*} {w : Nat} {s : Stack ω} {x : ω} {xs ys : List ω}

def Stack.push (w : Nat) (s : Stack ω) (x : ω) : Stack ω :=
  ⟨Function.update s.mem (s.sp - w) x, s.sp - w⟩

/-- The value on top is at `s.mem s.sp`. -/
def Stack.pop (w : Nat) (s : Stack ω) : Stack ω := ⟨s.mem, s.sp + w⟩

def Stack.pushAll (w : Nat) (s : Stack ω) (xs : List ω) : Stack ω := xs.foldl (Stack.push w) s

/-- The values `xs` stored from address `p` up. -/
def storeWords (w : Nat) (mem : Nat → ω) : Nat → List ω → Nat → ω
  | _, [] => mem
  | p, x :: xs => Function.update (storeWords w mem (p + w) xs) p x

/-- The values on top of the stack begin with `xs`. -/
def Stack.Holds (w : Nat) : Stack ω → List ω → Prop
  | _, [] => True
  | s, x :: xs => s.mem s.sp = x ∧ Stack.Holds w (s.pop w) xs

namespace Stack

/-- Only the memory from the pointer up matters. -/
theorem Holds.congr {t : Stack ω} (hsp : t.sp = s.sp)
    (hmem : ∀ a, s.sp ≤ a → t.mem a = s.mem a) (h : s.Holds w xs) : t.Holds w xs := by
  induction xs generalizing s t with
  | nil => exact h
  | cons x xs ih =>
      refine ⟨?_, ih (s := s.pop w) ?_ ?_ h.2⟩
      · rw [hsp, hmem _ le_rfl]
        exact h.1
      · show t.sp + w = s.sp + w
        rw [hsp]
      · intro a ha
        exact hmem a ((Nat.le_add_right _ _).trans ha)

theorem Holds.push (hw : 0 < w) (hroom : w ≤ s.sp) (h : s.Holds w xs) (x : ω) :
    (s.push w x).Holds w (x :: xs) := by
  refine ⟨Function.update_self .., h.congr ?_ fun a ha => ?_⟩
  · show s.sp - w + w = s.sp
    exact Nat.sub_add_cancel hroom
  · show Function.update s.mem (s.sp - w) x a = s.mem a
    exact Function.update_of_ne (by omega) ..

/-- Pushes come back in the other order. -/
theorem Holds.pushAll (hw : 0 < w) (h : s.Holds w ys) (xs : List ω) :
    w * xs.length ≤ s.sp → (s.pushAll w xs).Holds w (xs.reverse ++ ys) := by
  induction xs generalizing s ys with
  | nil => exact fun _ => h
  | cons x xs ih =>
      intro hroom
      rw [List.length_cons, Nat.mul_succ] at hroom
      have hnext := ih (h.push hw (by omega) x) (by
        show w * xs.length ≤ s.sp - w
        omega)
      rw [List.reverse_cons, List.append_assoc]
      exact hnext

@[simp] theorem pushAll_sp : (s.pushAll w xs).sp = s.sp - w * xs.length := by
  induction xs generalizing s with
  | nil => rfl
  | cons x xs ih =>
      show ((s.push w x).pushAll w xs).sp = _
      rw [ih, List.length_cons, Nat.mul_succ]
      show s.sp - w - w * xs.length = _
      omega

/-- Pushes leave what is outside of their places. -/
theorem pushAll_mem (hw : 0 < w) {a : Nat} (ha : s.sp ≤ a ∨ a < s.sp - w * xs.length) :
    w * xs.length ≤ s.sp → (s.pushAll w xs).mem a = s.mem a := by
  induction xs generalizing s with
  | nil => exact fun _ => rfl
  | cons x xs ih =>
      intro hroom
      rw [List.length_cons, Nat.mul_succ] at ha hroom
      show ((s.push w x).pushAll w xs).mem a = _
      rw [ih (s := s.push w x) (by show s.sp - w ≤ a ∨ a < s.sp - w - _; omega)
        (by show _ ≤ s.sp - w; omega)]
      exact Function.update_of_ne (by omega) ..

/-- A store over the top of the stack. -/
theorem holds_storeWords (hw : 0 < w) (mem : Nat → ω) (p : Nat) (xs : List ω) :
    Holds w ⟨storeWords w mem p xs, p⟩ xs := by
  induction xs generalizing p with
  | nil => trivial
  | cons x xs ih =>
      refine ⟨Function.update_self .., Holds.congr
        (s := ⟨storeWords w mem (p + w) xs, p + w⟩) rfl (fun a ha => ?_) (ih (p + w))⟩
      have hlt : p + w ≤ a := ha
      exact Function.update_of_ne (by omega) ..

end Stack

theorem storeWords_off (mem : Nat → ω) {p a : Nat} (ha : a < p ∨ p + w * xs.length ≤ a)
    (hw : 0 < w) : storeWords w mem p xs a = mem a := by
  induction xs generalizing p with
  | nil => rfl
  | cons x xs ih =>
      rw [List.length_cons, Nat.mul_succ] at ha
      have hne : a ≠ p := by
        have := Nat.zero_le (w * xs.length)
        omega
      exact (Function.update_of_ne hne ..).trans (ih (by omega))

end DevOS.Lib
