import DevOS.Printk.Buffer
import Mathlib.Data.Set.List

/-!
# Printk — wide strings

`_putwc` and `_wstr` emit UTF-8. What they emit of a scalar value is its encoding
in the standard library, whose decoder takes the encodings of scalar values and
nothing else; so it gets the string back.
-/

namespace DevOS.Printk

open DevOS.Lib

/-- A Unicode scalar value that can stand in a string. -/
def IsScalar (wc : Int) : Prop := 1 ≤ wc ∧ wc ≤ 0x10FFFF ∧ ¬ (0xD800 ≤ wc ∧ wc ≤ 0xDFFF)

instance (wc : Int) : Decidable (IsScalar wc) := inferInstanceAs (Decidable (_ ∧ _ ∧ _))

/-- The bytes that `_wstr(ctx, s, len)` emits. -/
def wideBytes (s : List Int) (len : Int) : List UInt8 := wstr unbuffered [] s len

/-- Decode UTF-8, strictly: overlong forms, surrogates and stray bytes have no
result. -/
def decodeUtf8 (bytes : List UInt8) : Option (List Int) :=
  bytes.toByteArray.utf8Decode?.map fun cs => cs.toList.map fun c => (c.toNat : Int)

/-! ## One character -/

/-- The bytes that `_putwc` emits. -/
def charBytes (wc : Int) : List UInt8 := putwc unbuffered [] wc

section Output

variable {κ : Type} (o : Output UInt8 κ)

theorem puts_append (k : κ) (xs ys : List UInt8) :
    o.puts k (xs ++ ys) = o.puts (o.puts k xs) ys := List.foldl_append

/-- `_putwc` puts the same bytes wherever it puts them. -/
theorem putwc_eq (k : κ) (wc : Int) : putwc o k wc = o.puts k (charBytes wc) := by
  unfold charBytes putwc
  dsimp only
  repeat' split
  · rfl
  · rw [puts_unbuffered, List.nil_append]
  · rw [puts_unbuffered, List.nil_append]
  · rw [puts_unbuffered, List.nil_append]
  · rfl

end Output

/-- The low six bits, as a continuation byte. -/
theorem continuation_eq (n : Nat) : 0x80 ||| (n &&& 0x3F) = n % 64 + 0x80 := by
  have hlow : n &&& 0x3F = n % 64 := Nat.and_two_pow_sub_one_eq_mod n 6
  have hor : 0x80 + n % 64 = 0x80 ||| n % 64 :=
    Nat.two_pow_add_eq_or_of_lt (Nat.mod_lt n (by decide : 0 < 2 ^ 6)) 2
  rw [hlow, ← hor, Nat.add_comm]

/-- The bits above the others, in a first byte. -/
theorem lead_eq {n i : Nat} (h : n < 2 ^ i) (a : Nat) :
    2 ^ i * a ||| n = n % 2 ^ i + 2 ^ i * a := by
  rw [Nat.mod_eq_of_lt h, ← Nat.two_pow_add_eq_or_of_lt h, Nat.add_comm]

/-- **A scalar value** is emitted as the standard library encodes it. -/
theorem charBytes_eq (c : Char) : charBytes c.toNat = String.utf8EncodeChar c := by
  have hle : c.toNat ≤ 0x10FFFF := by
    rcases c.valid with h | h
    · exact Nat.le_of_lt (Nat.lt_trans h (by decide))
    · exact Nat.le_of_lt_succ h.2
  have hval : c.val.toNat = c.toNat := rfl
  rw [charBytes, putwc, String.utf8EncodeChar, hval]
  generalize c.toNat = n at hle
  simp only [Int.toNat_natCast, puts_unbuffered, List.nil_append]
  by_cases h1 : n ≤ 0x7F
  · have h1' : (n : Int) ≤ 0x7F := by omega
    have hmod : ((n : Int) % 256).toNat = n := by omega
    rw [if_pos h1', if_pos h1, unbuffered, toChar, hmod]
    rfl
  · have h1' : ¬ (n : Int) ≤ 0x7F := by omega
    rw [if_neg h1', if_neg h1]
    by_cases h2 : n ≤ 0x7FF
    · have h2' : (n : Int) ≤ 0x7FF := by omega
      have hlead : 0xC0 ||| n / 64 = n / 64 % 0x20 + 0xC0 := lead_eq (i := 5) (by omega) 6
      rw [if_pos h2', if_pos h2, continuation_eq, Nat.shiftRight_eq_div_pow, hlead]
    · have h2' : ¬ (n : Int) ≤ 0x7FF := by omega
      rw [if_neg h2', if_neg h2]
      by_cases h3 : n ≤ 0xFFFF
      · have h3' : (n : Int) ≤ 0xFFFF := by omega
        have hlead : 0xE0 ||| n / 4096 = n / 4096 % 0x10 + 0xE0 := lead_eq (i := 4) (by omega) 14
        rw [if_pos h3', if_pos h3, continuation_eq, continuation_eq, Nat.shiftRight_eq_div_pow,
          Nat.shiftRight_eq_div_pow, hlead]
      · have h3' : ¬ (n : Int) ≤ 0xFFFF := by omega
        have h4 : (n : Int) ≤ 0x10FFFF := by omega
        have hlead : 0xF0 ||| n / 262144 = n / 262144 % 0x08 + 0xF0 :=
          lead_eq (i := 3) (by omega) 30
        rw [if_neg h3', if_neg h3, if_pos h4, continuation_eq, continuation_eq, continuation_eq,
          Nat.shiftRight_eq_div_pow, Nat.shiftRight_eq_div_pow, Nat.shiftRight_eq_div_pow, hlead]

/-! ## Strings -/

/-- A string, character after character. -/
theorem foldl_putwc {κ : Type} (o : Output UInt8 κ) : ∀ (s : List Int) (k : κ),
    s.foldl (putwc o) k = o.puts k (s.flatMap charBytes) := by
  intro s
  induction s with
  | nil => intro k; rfl
  | cons wc s ih =>
      intro k
      rw [List.foldl_cons, ih, putwc_eq, List.flatMap_cons, puts_append]

theorem wideBytes_eq (s : List Int) (len : Int) :
    wideBytes s len = (s.take len.toNat).flatMap charBytes := by
  rw [wideBytes, wstr, foldl_putwc, puts_unbuffered, List.nil_append]

/-- A scalar value is the code of a character. -/
theorem IsScalar.exists_char {wc : Int} (h : IsScalar wc) : ∃ c : Char, (c.toNat : Int) = wc := by
  obtain ⟨hpos, hle, hsurrogate⟩ := h
  have hvalid : wc.toNat.isValidChar := by
    rw [Nat.isValidChar]
    omega
  exact ⟨Char.ofNatAux wc.toNat hvalid, Int.toNat_of_nonneg (by omega)⟩

/-- **The decoder gets scalar values back.** -/
theorem decodeUtf8_charBytes {s : List Int} (hs : ∀ wc ∈ s, IsScalar wc) :
    decodeUtf8 (s.flatMap charBytes) = some s := by
  have hrange : s ∈ Set.range (List.map fun c : Char => (c.toNat : Int)) := by
    rw [Set.range_list_map]
    exact fun wc hwc => (hs wc hwc).exists_char
  obtain ⟨cs, rfl⟩ := hrange
  have hbytes : (cs.map fun c => (c.toNat : Int)).flatMap charBytes =
      cs.flatMap String.utf8EncodeChar := by
    rw [List.flatMap_map]
    exact congrArg cs.flatMap (funext charBytes_eq)
  have hencode : (cs.flatMap String.utf8EncodeChar).toByteArray = cs.utf8Encode := rfl
  rw [decodeUtf8, hbytes, hencode, List.utf8Decode?_utf8Encode]
  rfl

/-- **Wide strings are encoded as UTF-8.** For every string of scalar values and
every length, `_wstr` puts the same bytes wherever it puts them; a strict decoder
gives back the characters up to that length; and no other ones have these bytes. -/
theorem wstr_utf8 (s : List Int) (hs : ∀ wc ∈ s, IsScalar wc) (n : Nat) :
    (∀ (κ : Type) (o : Output UInt8 κ) (k : κ), wstr o k s n = o.puts k (wideBytes s n)) ∧
    decodeUtf8 (wideBytes s n) = some (s.take n) ∧
    ∀ (s' : List Int) (n' : Nat), (∀ wc ∈ s', IsScalar wc) → wideBytes s' n' = wideBytes s n →
      s'.take n' = s.take n := by
  have hdecode : ∀ (s : List Int) (n : Nat), (∀ wc ∈ s, IsScalar wc) →
      decodeUtf8 (wideBytes s n) = some (s.take n) := by
    intro s n hs
    rw [wideBytes_eq, Int.toNat_natCast]
    exact decodeUtf8_charBytes fun wc hwc => hs wc (List.mem_of_mem_take hwc)
  refine ⟨fun κ o k => ?_, hdecode s n hs, fun s' n' hs' heq => ?_⟩
  · rw [wstr, foldl_putwc, wideBytes_eq]
  · have h' := hdecode s' n' hs'
    rw [heq, hdecode s n hs] at h'
    exact (Option.some.inj h').symm

/-- Characters of all four lengths. -/
def mixedWidths : List Int := [0x41, 0xE9, 0x20AC, 0x1F600]

theorem wstr_utf8_mixed : (∀ wc ∈ mixedWidths, IsScalar wc) ∧
    (∀ (κ : Type) (o : Output UInt8 κ) (k : κ),
      wstr o k mixedWidths (3 : Nat) = o.puts k (wideBytes mixedWidths (3 : Nat))) ∧
    decodeUtf8 (wideBytes mixedWidths (3 : Nat)) = some (mixedWidths.take 3) ∧
    ∀ (s' : List Int) (n' : Nat), (∀ wc ∈ s', IsScalar wc) →
      wideBytes s' n' = wideBytes mixedWidths (3 : Nat) → s'.take n' = mixedWidths.take 3 := by
  have hs : ∀ wc ∈ mixedWidths, IsScalar wc := by decide
  exact ⟨hs, wstr_utf8 mixedWidths hs 3⟩

example : wideBytes mixedWidths 3 = [0x41, 0xC3, 0xA9, 0xE2, 0x82, 0xAC] := by decide

end DevOS.Printk
