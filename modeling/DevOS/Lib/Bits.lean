import Mathlib.Algebra.Order.Ring.Nat

/-!
# Packed words

A word that packs a BASE and FLAGS: a mask `m` says which bits are flags, the
base has none of them and the flags only those. Either part is read back by
masking, and the base of a packed word is an aligned address when the mask's
low bits are.
-/

namespace DevOS.Lib

variable {w : Nat}

theorem packed_base {x f m : BitVec w} (hx : x &&& m = 0#w) (hf : f &&& ~~~m = 0#w) :
    (x ||| f) &&& ~~~m = x := by
  apply BitVec.eq_of_getLsbD_eq
  intro i hi
  have h1 := congrArg (fun v => v.getLsbD i) hx
  have h2 := congrArg (fun v => v.getLsbD i) hf
  simp only [BitVec.getLsbD_and, BitVec.getLsbD_not, hi, BitVec.getLsbD_zero] at h1 h2
  simp only [BitVec.getLsbD_and, BitVec.getLsbD_or, BitVec.getLsbD_not, hi]
  revert h1 h2
  cases x.getLsbD i <;> cases f.getLsbD i <;> cases m.getLsbD i <;> simp

theorem packed_flags {x f m : BitVec w} (hx : x &&& m = 0#w) (hf : f &&& ~~~m = 0#w) :
    (x ||| f) &&& m = f := by
  apply BitVec.eq_of_getLsbD_eq
  intro i hi
  have h1 := congrArg (fun v => v.getLsbD i) hx
  have h2 := congrArg (fun v => v.getLsbD i) hf
  simp only [BitVec.getLsbD_and, BitVec.getLsbD_not, hi, BitVec.getLsbD_zero] at h1 h2
  simp only [BitVec.getLsbD_and, BitVec.getLsbD_or]
  revert h1 h2
  cases x.getLsbD i <;> cases f.getLsbD i <;> cases m.getLsbD i <;> simp

/-- A base without flag bits is its own base. -/
theorem and_not_of_disjoint {x m : BitVec w} (hx : x &&& m = 0#w) : x &&& ~~~m = x := by
  have := packed_base hx (f := 0#w) (by simp)
  simpa using this

/-- Testing flag bits of a packed word reads the flags only. -/
theorem packed_test {x f m t : BitVec w} (hx : x &&& m = 0#w) (ht : t &&& ~~~m = 0#w) :
    (x ||| f) &&& t = f &&& t := by
  apply BitVec.eq_of_getLsbD_eq
  intro i hi
  have h1 := congrArg (fun v => v.getLsbD i) hx
  have h2 := congrArg (fun v => v.getLsbD i) ht
  simp only [BitVec.getLsbD_and, BitVec.getLsbD_not, hi, BitVec.getLsbD_zero] at h1 h2
  simp only [BitVec.getLsbD_and, BitVec.getLsbD_or]
  revert h1 h2
  cases x.getLsbD i <;> cases f.getLsbD i <;> cases m.getLsbD i <;> cases t.getLsbD i <;> simp

/-- **Aligned addresses carry no flags**: a multiple of `2 ^ k` below `2 ^ t`
shares no bit with a mask whose bits lie below `k` or from `t` on. -/
theorem aligned_and_mask {p k t : Nat} {m : BitVec w} (hp : 2 ^ k ∣ p) (ht : p < 2 ^ t)
    (hm : ∀ i, k ≤ i → i < t → m.getLsbD i = false) : BitVec.ofNat w p &&& m = 0#w := by
  apply BitVec.eq_of_getLsbD_eq
  intro i hi
  simp only [BitVec.getLsbD_and, BitVec.getLsbD_ofNat, hi, decide_true, Bool.true_and,
    Nat.zero_testBit]
  obtain ⟨q, rfl⟩ := hp
  rcases Nat.lt_or_ge i k with hlow | hge
  · rw [Nat.testBit_two_pow_mul]
    simp [Nat.not_le.mpr hlow]
  · rcases Nat.lt_or_ge i t with hmid | hhigh
    · rw [hm i hge hmid, Bool.and_false]
    · rw [Nat.testBit_lt_two_pow (Nat.lt_of_lt_of_le ht (Nat.pow_le_pow_right (by decide) hhigh)),
        Bool.false_and]

/-! ## Fields -/

/-- Fields with their widths, the lowest first, as one number. -/
def joinFields : List (Nat × Nat) → Nat
  | [] => 0
  | (width, v) :: fields => v + 2 ^ width * joinFields fields

/-- A number cut into fields of given widths. -/
def cutFields : Nat → List Nat → List (Nat × Nat)
  | _, [] => []
  | x, width :: widths => (width, x % 2 ^ width) :: cutFields (x / 2 ^ width) widths

/-- **Cut and joined**, a number is what fits the widths. -/
theorem joinFields_cutFields (x : Nat) (widths : List Nat) :
    joinFields (cutFields x widths) = x % 2 ^ widths.sum := by
  induction widths generalizing x with
  | nil => exact (Nat.mod_one x).symm
  | cons width widths ih =>
      show x % 2 ^ width + 2 ^ width * joinFields (cutFields (x / 2 ^ width) widths) = _
      rw [ih, List.sum_cons, pow_add, Nat.mod_mul]

end DevOS.Lib
