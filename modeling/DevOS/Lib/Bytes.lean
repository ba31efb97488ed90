import Mathlib.Data.List.GetD

/-!
# Byte buffers

A buffer is a function from offsets to bytes. `patch` stores a run of bytes at
an offset; two runs stored one behind the other are one run.
-/

namespace DevOS.Lib

/-- Store `bytes` at offset `off`. -/
def patch (buf : Nat → UInt8) (off : Nat) (bytes : List UInt8) (i : Nat) : UInt8 :=
  if off ≤ i ∧ i < off + bytes.length then bytes.getD (i - off) 0 else buf i

theorem patch_nil (buf : Nat → UInt8) (off : Nat) : patch buf off [] = buf := by
  funext i
  rw [patch, if_neg]
  rintro ⟨h1, h2⟩
  rw [List.length_nil] at h2
  omega

theorem patch_append (buf : Nat → UInt8) (off : Nat) (xs ys : List UInt8) :
    patch (patch buf off xs) (off + xs.length) ys = patch buf off (xs ++ ys) := by
  funext i
  simp only [patch, List.length_append]
  by_cases h1 : off ≤ i
  · by_cases h2 : i < off + xs.length
    · rw [if_neg (by omega), if_pos ⟨h1, h2⟩, if_pos (by omega),
        List.getD_append _ _ _ _ (by omega)]
    · by_cases h3 : i < off + xs.length + ys.length
      · rw [if_pos (by omega), if_pos (by omega), List.getD_append_right _ _ _ _ (by omega)]
        congr 1
        omega
      · rw [if_neg (by omega), if_neg (by omega), if_neg (by omega)]
  · rw [if_neg (by omega), if_neg (by omega), if_neg (by omega)]

/-- A run stored at the start of a buffer, byte by byte. -/
theorem patch_zero (buf : Nat → UInt8) (bytes : List UInt8) (i : Nat) :
    patch buf 0 bytes i = if i < bytes.length then bytes.getD i 0 else buf i := by
  rw [patch]
  simp only [Nat.zero_le, true_and, Nat.zero_add, Nat.sub_zero]

/-- The little-endian number of `count` bytes at an offset. -/
def littleEndian (buf : Nat → UInt8) : (count off : Nat) → Nat
  | 0, _ => 0
  | count + 1, off => (buf off).toNat + 256 * littleEndian buf count (off + 1)

/-- The number depends on its own bytes only. -/
theorem littleEndian_congr {buf buf' : Nat → UInt8} : ∀ {count off : Nat},
    (∀ i, off ≤ i → i < off + count → buf i = buf' i) →
    littleEndian buf count off = littleEndian buf' count off := by
  intro count
  induction count with
  | zero => intro off _; rfl
  | succ count ih =>
      intro off h
      rw [littleEndian, littleEndian, h off (by omega) (by omega),
        ih fun i h1 h2 => h i (by omega) (by omega)]

end DevOS.Lib
