import DevOS.Printk.Buffer
import Mathlib.Data.Nat.Digits.Lemmas

/-!
# Printk — integer conversions

What C11's `fprintf` prescribes for `d`, `i`, `u`, `o`, `x` and `X`, rule by
rule, and that `_integer` emits exactly that. The digits come out of a buffer
of 24 bytes, which is room for every 64-bit value in the bases that are used.
-/

namespace DevOS.Printk

open DevOS.Lib

/-! ## The rules of C -/

/-- The integer conversions. -/
inductive IntConv where
  | d
  | i
  | u
  | o
  | x
  | X
deriving DecidableEq, Repr

def IntConv.char : IntConv → UInt8
  | .d => 'd'.toUInt8
  | .i => 'i'.toUInt8
  | .u => 'u'.toUInt8
  | .o => 'o'.toUInt8
  | .x => 'x'.toUInt8
  | .X => 'X'.toUInt8

def IntConv.isSigned : IntConv → Bool
  | .d | .i => true
  | .u | .o | .x | .X => false

def IntConv.base : IntConv → Nat
  | .d | .i | .u => 10
  | .o => 8
  | .x | .X => 16

/-- The five flags of C. -/
structure CFlags where
  minus : Bool
  plus : Bool
  space : Bool
  hash : Bool
  zero : Bool
deriving DecidableEq, Repr

/-- The `FL_` bits that `_vprintkl` has set for them; `X` adds `FL_UPPER`. -/
def CFlags.bits (fl : CFlags) (conv : IntConv) : Flags :=
  ⟨fl.minus, fl.plus, fl.space, fl.hash, fl.zero, decide (conv = .X), false⟩

/-- C says what the flags do: `+` and space for signed conversions, `#` for `o`,
`x` and `X`. -/
structure CFlags.Defined (fl : CFlags) (conv : IntConv) : Prop where
  plus : fl.plus = true → conv.isSigned = true
  space : fl.space = true → conv.isSigned = true
  hash : fl.hash = true → conv = .o ∨ conv = .x ∨ conv = .X

/-- The width of the type that a length modifier names. -/
def Length.bits : Length → Nat
  | .hh => 8
  | .h => 16
  | .none => 32
  | .l | .ll | .j | .z | .t => 64

/-- The argument converted to that type, signed or unsigned. -/
def cValue (conv : IntConv) (len : Length) (arg : UInt64) : Int :=
  if conv.isSigned then Int.bmod arg.toNat (2 ^ len.bits)
  else (arg.toNat % 2 ^ len.bits : Nat)

/-- A digit; `X` has capitals. -/
def cDigit (conv : IntConv) (d : Nat) : UInt8 :=
  if conv = .X then (Nat.digitChar d).toUpper.toUInt8 else (Nat.digitChar d).toUInt8

/-- The digits of a magnitude, at least as many as the precision says, which is
1 by default. So 0 with precision 0 has none. -/
def cDigits (conv : IntConv) (precision : Option Nat) (n : Nat) : List UInt8 :=
  let ds := (Nat.digits conv.base n).reverse.map (cDigit conv)
  List.replicate (precision.getD 1 - ds.length) '0'.toUInt8 ++ ds

/-- `#` makes the first digit of `o` a 0, unless it is one already. -/
def cBody (fl : CFlags) (conv : IntConv) (precision : Option Nat) (n : Nat) : List UInt8 :=
  let ds := cDigits conv precision n
  if fl.hash ∧ conv = .o ∧ ds.head? ≠ some '0'.toUInt8 then '0'.toUInt8 :: ds else ds

/-- `#` puts `0x` or `0X` before a value other than 0. -/
def cPrefix (fl : CFlags) (conv : IntConv) (n : Nat) : List UInt8 :=
  if fl.hash ∧ n ≠ 0 then
    match conv with
    | .x => literal "0x"
    | .X => literal "0X"
    | _ => []
  else []

/-- The sign. `+` goes before space. -/
def cSign (fl : CFlags) (value : Int) : List UInt8 :=
  if value < 0 then literal "-"
  else if fl.plus then literal "+"
  else if fl.space then literal " "
  else []

/-- What a conversion prints before it is padded. -/
def cUnpadded (fl : CFlags) (conv : IntConv) (precision : Option Nat) (value : Int) :
    List UInt8 × List UInt8 :=
  (cSign fl value ++ cPrefix fl conv value.natAbs, cBody fl conv precision value.natAbs)

/-- **The field**: padded to the right with spaces for `-`, else after sign and
prefix with zeros for `0` without a precision, else to the left with spaces. -/
def cField (fl : CFlags) (conv : IntConv) (width : Nat) (precision : Option Nat) (value : Int) :
    List UInt8 :=
  let (lead, body) := cUnpadded fl conv precision value
  let n := width - (lead.length + body.length)
  if fl.minus then lead ++ body ++ List.replicate n ' '.toUInt8
  else if fl.zero ∧ precision = none then lead ++ List.replicate n '0'.toUInt8 ++ body
  else List.replicate n ' '.toUInt8 ++ lead ++ body

example : cField ⟨false, false, false, true, true⟩ .o 6 none 8 = literal "000010" := by
  decide +kernel

/-- The field is as long as the width or what it holds, whichever is more. -/
theorem cField_length (fl : CFlags) (conv : IntConv) (width : Nat) (precision : Option Nat)
    (value : Int) : (cField fl conv width precision value).length =
      max width ((cUnpadded fl conv precision value).1.length +
        (cUnpadded fl conv precision value).2.length) := by
  unfold cField
  generalize cUnpadded fl conv precision value = lb
  obtain ⟨lead, body⟩ := lb
  dsimp only
  split
  · simp only [List.length_append, List.length_replicate]
    omega
  · split
    · simp only [List.length_append, List.length_replicate]
      omega
    · simp only [List.length_append, List.length_replicate]
      omega

/-! ## Digits -/

theorem digit_eq (conv : IntConv) {d : Nat} (hd : d < 16) :
    digit (decide (conv = .X)) d = cDigit conv d := by
  have hall : ∀ conv : IntConv, ∀ d < 16, digit (decide (conv = .X)) d = cDigit conv d := by
    intro conv
    cases conv <;> decide
  exact hall conv d hd

/-- **The loop of `_ntoa`**, with room for all digits. -/
theorem ntoaLoop_eq (upper : Bool) {base : Nat} (hbase : 1 < base) : ∀ (space val : Nat)
    (acc : List UInt8), (Nat.digits base val).length ≤ space →
    ntoaLoop upper base space val acc =
      ((Nat.digits base val).reverse.map (digit upper) ++ acc, 0) := by
  intro space
  induction space with
  | zero =>
      intro val acc hlen
      have hnil := List.length_eq_zero_iff.mp (Nat.le_zero.mp hlen)
      rw [Nat.digits_eq_nil_iff_eq_zero.mp hnil, Nat.digits_zero]
      rfl
  | succ space ih =>
      intro val acc hlen
      rw [ntoaLoop]
      split
      · rename_i hzero
        rw [hzero, Nat.digits_zero]
        rfl
      · rename_i hne
        rw [Nat.digits_eq_cons_digits_div hbase hne] at hlen ⊢
        rw [ih _ _ (by simpa using hlen)]
        simp

/-- Every 64-bit value has at most 22 digits in base 8 or above. -/
theorem digits_length_le {base val : Nat} (hbase : 8 ≤ base) (hval : val < 2 ^ 64) :
    (Nat.digits base val).length ≤ 22 := by
  rw [Nat.digits_length_le_iff (by omega)]
  calc val < 8 ^ 22 := Nat.lt_of_lt_of_le hval (by decide)
    _ ≤ base ^ 22 := Nat.pow_le_pow_left hbase 22

/-- **`_ntoa`** gives the digits, highest first; 0 has one. -/
theorem ntoa_eq (upper : Bool) {base val : Nat} (hbase : 8 ≤ base) (hval : val < 2 ^ 64) :
    ntoa val base upper = if val = 0 then ['0'.toUInt8]
      else (Nat.digits base val).reverse.map (digit upper) := by
  have hlen : (Nat.digits base val).length ≤ ntoaBufferSize :=
    Nat.le_trans (digits_length_le hbase hval) (by decide)
  rw [ntoa, ntoaLoop_eq upper (by omega) _ _ _ hlen, List.append_nil]
  rfl

/-- From 1 to 22 of them. -/
theorem ntoa_length (upper : Bool) {base val : Nat} (hbase : 8 ≤ base) (hval : val < 2 ^ 64) :
    1 ≤ (ntoa val base upper).length ∧ (ntoa val base upper).length ≤ 22 := by
  rw [ntoa_eq upper hbase hval]
  split
  · decide
  · rename_i hne
    rw [List.length_map, List.length_reverse]
    exact ⟨List.length_pos_iff.mpr (Nat.digits_ne_nil_iff_ne_zero.mpr hne),
      digits_length_le hbase hval⟩

theorem digit_ne_zero (upper : Bool) {d : Nat} (h : d < 16) (hne : d ≠ 0) :
    digit upper d ≠ '0'.toUInt8 := by
  have hall : ∀ upper : Bool, ∀ d < 16, d ≠ 0 → digit upper d ≠ '0'.toUInt8 := by decide
  exact hall upper d h hne

/-- The first of them is no 0, of any other value. -/
theorem ntoa_head_ne (upper : Bool) {base val : Nat} (hlow : 8 ≤ base) (hhigh : base ≤ 16)
    (hval : val < 2 ^ 64) (hne : val ≠ 0) :
    (ntoa val base upper).head? ≠ some '0'.toUInt8 := by
  have hnil : Nat.digits base val ≠ [] := Nat.digits_ne_nil_iff_ne_zero.mpr hne
  have hlast := Nat.getLast_digit_ne_zero base hne
  have hlt := Nat.digits_lt_base (by omega : 1 < base) (List.getLast_mem hnil)
  rw [ntoa_eq upper hlow hval, if_neg hne, List.head?_map, List.head?_reverse,
    List.getLast?_eq_some_getLast hnil, Option.map_some]
  intro hc
  exact digit_ne_zero upper (by omega) hlast (Option.some.inj hc)

/-! ## The value -/

/-- The value and its sign, as `_integer` reads them. -/
theorem integerValue_eq (fl : CFlags) (conv : IntConv) (len : Length) (arg : UInt64) :
    integerValue conv.isSigned (fl.bits conv) len arg =
      ((cValue conv len arg).natAbs,
        { fl.bits conv with neg := decide (cValue conv len arg < 0) }) := by
  have hlt := arg.toNat_lt
  cases hs : conv.isSigned with
  | true =>
      have hvalue : cValue conv len arg = signedArg len arg := by
        rw [cValue, if_pos hs]
        cases len <;> rfl
      rw [integerValue, if_pos rfl, hvalue]
      dsimp only
      split
      · rename_i hneg
        rw [decide_eq_true hneg]
      · rename_i hpos
        rw [decide_eq_false hpos]
        rfl
  | false =>
      have hvalue : cValue conv len arg = (unsignedArg len arg : Int) := by
        have hself : arg.toNat % 2 ^ 64 = arg.toNat := Nat.mod_eq_of_lt hlt
        rw [cValue, if_neg (by rw [hs]; decide)]
        cases len <;> simp only [unsignedArg, Length.bits, hself]
      have hpos : ¬ ((unsignedArg len arg : Int) < 0) := Int.not_lt.mpr (Int.natCast_nonneg _)
      rw [integerValue, if_neg (by decide), hvalue, decide_eq_false hpos, Int.natAbs_natCast]
      rfl

theorem cValue_natAbs_lt (conv : IntConv) (len : Length) (arg : UInt64) :
    (cValue conv len arg).natAbs < 2 ^ 64 := by
  have hpow : 2 ^ len.bits ≤ 2 ^ 64 := by cases len <;> decide
  have hpos : 0 < 2 ^ len.bits := Nat.two_pow_pos _
  generalize hm : 2 ^ len.bits = m at hpow hpos
  rw [cValue, hm]
  split
  · have hlow : -((m / 2 : Nat) : Int) ≤ Int.bmod arg.toNat m := Int.le_bmod hpos
    have hhigh : Int.bmod arg.toNat m < ((m + 1) / 2 : Nat) := Int.bmod_lt hpos
    omega
  · have hlt := Nat.mod_lt arg.toNat hpos
    omega

/-- The sign byte. -/
theorem integerSign_eq {fl : CFlags} {conv : IntConv} (hdef : fl.Defined conv) (value : Int) :
    (if integerSign conv.isSigned { fl.bits conv with neg := decide (value < 0) } ≠ 0 then
      [integerSign conv.isSigned { fl.bits conv with neg := decide (value < 0) }] else []) =
      cSign fl value := by
  have hplus : (fl.plus && conv.isSigned) = fl.plus := by
    cases hp : fl.plus with
    | true => rw [hdef.plus hp, Bool.and_self]
    | false => rfl
  have hsign : integerSign conv.isSigned { fl.bits conv with neg := decide (value < 0) } =
      if value < 0 then '-'.toUInt8 else if fl.plus then '+'.toUInt8
      else if fl.space then ' '.toUInt8 else 0 := by
    show (if decide (value < 0) = true then '-'.toUInt8
      else if (fl.plus && conv.isSigned) = true then '+'.toUInt8
      else if fl.space = true then ' '.toUInt8 else 0) = _
    rw [hplus]
    simp only [decide_eq_true_eq]
  rw [hsign, cSign]
  split
  · rfl
  · split
    · rfl
    · split <;> rfl

/-! ## The field -/

/-- The precision as `_integer` gets it, -1 if it is absent. -/
def precisionArg (precision : Option Nat) : Int := precision.elim (-1) fun p => p

theorem precisionArg_neg (precision : Option Nat) :
    precisionArg precision < 0 ↔ precision = none := by
  cases precision with
  | none => decide
  | some p =>
      have harg : precisionArg (some p) = p := rfl
      rw [harg]
      constructor
      · intro hneg
        omega
      · exact nofun

/-- `nlen`. -/
def digitCount (precision : Option Nat) (n : Nat) (nstr : List UInt8) : Int :=
  if precisionArg precision = 0 ∧ n = 0 then 0 else nstr.length

/-- `prec_zeros`. -/
def precisionZeros (precision : Option Nat) (nlen : Int) : Int :=
  if precisionArg precision > nlen then precisionArg precision - nlen else 0

theorem precisionZeros_toNat (precision : Option Nat) {nlen : Int} (hlen : 0 ≤ nlen) :
    (precisionZeros precision nlen).toNat = precision.getD 0 - nlen.toNat := by
  have harg : (precisionArg precision).toNat = precision.getD 0 := by
    cases precision with
    | none => rfl
    | some p => rfl
  rw [precisionZeros, ← harg]
  split
  · omega
  · omega

theorem precisionZeros_nonneg (precision : Option Nat) (nlen : Int) :
    0 ≤ precisionZeros precision nlen := by
  rw [precisionZeros]
  split
  · omega
  · exact Int.le_refl 0

theorem base_bounds (conv : IntConv) : 8 ≤ conv.base ∧ conv.base ≤ 16 := by
  cases conv <;> decide

/-- The digits of a value other than 0. -/
theorem ntoa_digits (conv : IntConv) {n : Nat} (hn : n < 2 ^ 64) (hne : n ≠ 0) :
    ntoa n conv.base (decide (conv = .X)) =
      (Nat.digits conv.base n).reverse.map (cDigit conv) ∧
    0 < (ntoa n conv.base (decide (conv = .X))).length ∧
    (ntoa n conv.base (decide (conv = .X))).length ≤ 22 := by
  obtain ⟨hlow, hhigh⟩ := base_bounds conv
  have hds : ntoa n conv.base (decide (conv = .X)) =
      (Nat.digits conv.base n).reverse.map (cDigit conv) := by
    rw [ntoa_eq _ hlow hn, if_neg hne]
    refine List.map_congr_left fun d hd => digit_eq conv ?_
    exact Nat.lt_of_lt_of_le (Nat.digits_lt_base (by omega) (List.mem_reverse.mp hd)) hhigh
  exact ⟨hds, ntoa_length _ hlow hn⟩

/-- The first of them is no 0. -/
theorem ntoa_head (conv : IntConv) {n : Nat} (hn : n < 2 ^ 64) (hne : n ≠ 0) :
    (ntoa n conv.base (decide (conv = .X))).head? ≠ some '0'.toUInt8 :=
  ntoa_head_ne _ (base_bounds conv).1 (base_bounds conv).2 hn hne

/-- They are all printed, behind the zeros that are missing. -/
theorem counts_of_ne_zero (precision : Option Nat) {n : Nat} (hne : n ≠ 0) {nstr : List UInt8}
    (hpos : 0 < nstr.length) :
    digitCount precision n nstr = nstr.length ∧
    (precisionZeros precision (digitCount precision n nstr)).toNat =
      precision.getD 1 - nstr.length := by
  have hlen : digitCount precision n nstr = nstr.length := if_neg fun hc => hne hc.2
  refine ⟨hlen, ?_⟩
  rw [hlen, precisionZeros_toNat _ (by omega), Int.toNat_natCast]
  cases precision with
  | none =>
      simp only [Option.getD_none]
      omega
  | some p => rfl

/-- **The zeros of the precision and the digits.** -/
theorem digits_emitted (conv : IntConv) (precision : Option Nat) {n : Nat} (hn : n < 2 ^ 64) :
    let nstr := ntoa n conv.base (decide (conv = .X))
    let nlen := digitCount precision n nstr
    List.replicate (precisionZeros precision nlen).toNat '0'.toUInt8 ++ nstr.take nlen.toNat =
      cDigits conv precision n ∧
    0 ≤ nlen ∧ nlen ≤ 22 ∧ nlen.toNat ≤ nstr.length := by
  intro nstr nlen
  by_cases hzero : n = 0
  · subst hzero
    have hnstr : nstr = ['0'.toUInt8] := rfl
    have hds : cDigits conv precision 0 = List.replicate (precision.getD 1) '0'.toUInt8 := by
      simp [cDigits]
    rw [hds]
    cases precision with
    | none =>
        have hlen : nlen = 1 := rfl
        rw [hlen, hnstr]
        decide
    | some p =>
        cases p with
        | zero =>
            have hlen : nlen = 0 := rfl
            rw [hlen, hnstr]
            decide
        | succ p =>
            have hlen : nlen = 1 := if_neg fun hc => absurd hc.1 (by simp [precisionArg]; omega)
            have hzeros : (precisionZeros (some (p + 1)) nlen).toNat = p := by
              rw [precisionZeros_toNat _ (by omega), hlen]
              rfl
            rw [hzeros, hlen, hnstr, Option.getD_some, List.replicate_succ']
            exact ⟨rfl, by decide, by decide, by decide⟩
  · obtain ⟨hds, hpos, hcount⟩ := ntoa_digits conv hn hzero
    obtain ⟨hlen, hzeros⟩ := counts_of_ne_zero precision hzero hpos
    have hlen' : nlen = nstr.length := hlen
    have hcount' : nstr.length ≤ 22 := hcount
    refine ⟨?_, by omega, by omega, by omega⟩
    rw [hzeros, hlen', Int.toNat_natCast, List.take_length, cDigits, ← hds]

/-- The bytes of the prefix. -/
def prefixBytes (upper : Bool) (prefixType : Int) : List UInt8 :=
  if prefixType ≠ 0 then
    '0'.toUInt8 :: if prefixType = 2 then [if upper then 'X'.toUInt8 else 'x'.toUInt8] else []
  else []

/-- The first digit is a 0 only where there are zeros for the precision, or the
value is 0 and has digits. -/
theorem cDigits_head (conv : IntConv) (precision : Option Nat) {n : Nat} (hn : n < 2 ^ 64) :
    (cDigits conv precision n).head? ≠ some '0'.toUInt8 ↔
      precisionZeros precision
        (digitCount precision n (ntoa n conv.base (decide (conv = .X)))) = 0 ∧
        (n ≠ 0 ∨ precisionArg precision = 0) := by
  by_cases hzero : n = 0
  · subst hzero
    have hds : cDigits conv precision 0 = List.replicate (precision.getD 1) '0'.toUInt8 := by
      simp [cDigits]
    have hstr : ntoa 0 conv.base (decide (conv = .X)) = ['0'.toUInt8] := rfl
    rw [hds, hstr]
    cases precision with
    | none => decide
    | some p =>
        cases p with
        | zero => decide
        | succ p =>
            have harg : precisionArg (some (p + 1)) = p + 1 := rfl
            rw [harg, Option.getD_some, List.replicate_succ, List.head?_cons]
            constructor
            · intro hc
              exact absurd rfl hc
            · rintro ⟨-, hc | hc⟩
              · exact absurd rfl hc
              · omega
  · obtain ⟨hds, hpos, -⟩ := ntoa_digits conv hn hzero
    obtain ⟨-, hzeros⟩ := counts_of_ne_zero precision hzero hpos
    have hnonneg := precisionZeros_nonneg precision
      (digitCount precision n (ntoa n conv.base (decide (conv = .X))))
    have hshape : cDigits conv precision n =
        List.replicate (precision.getD 1 - (ntoa n conv.base (decide (conv = .X))).length)
          '0'.toUInt8 ++ ntoa n conv.base (decide (conv = .X)) := by
      rw [cDigits, ← hds]
    rw [hshape]
    generalize precision.getD 1 - (ntoa n conv.base (decide (conv = .X))).length = k at hzeros
    cases k with
    | zero =>
        have htop := ntoa_head conv hn hzero
        rw [List.replicate_zero, List.nil_append]
        exact ⟨fun _ => ⟨by omega, .inl hzero⟩, fun _ => htop⟩
    | succ k =>
        rw [List.replicate_succ, List.cons_append, List.head?_cons]
        constructor
        · intro hc
          exact absurd rfl hc
        · rintro ⟨hc, -⟩
          omega

/-- **The prefix**: that of `x` and `X` stands before the digits, that of `o` is
one of them. -/
theorem prefix_split {fl : CFlags} {conv : IntConv} (hdef : fl.Defined conv)
    (precision : Option Nat) {n : Nat} (hn : n < 2 ^ 64) :
    let z := precisionZeros precision
      (digitCount precision n (ntoa n conv.base (decide (conv = .X))))
    let pt := prefixType (fl.bits conv) conv.base n (precisionArg precision) z
    ∃ k, prefixBytes (decide (conv = .X)) pt = cPrefix fl conv n ++ List.replicate k '0'.toUInt8 ∧
      cBody fl conv precision n = List.replicate k '0'.toUInt8 ++ cDigits conv precision n ∧
      pt = (cPrefix fl conv n).length + k ∧ 0 ≤ pt ∧ pt ≤ 2 := by
  intro z pt
  cases hhash : fl.hash with
  | false =>
      have hpt : pt = 0 := if_neg (by simp [CFlags.bits, hhash])
      refine ⟨0, ?_⟩
      rw [hpt]
      simp [prefixBytes, cPrefix, cBody, hhash]
  | true =>
      have hbits : (fl.bits conv).prefixed = true := hhash
      obtain rfl | hx := hdef.hash hhash
      · -- an octal 0, where the first digit is none
        have hhead := cDigits_head .o precision hn
        by_cases hneed : z = 0 ∧ (n ≠ 0 ∨ precisionArg precision = 0)
        · have hpt : pt = 1 := by
            simp only [pt, prefixType, hbits, if_true]
            exact if_pos ⟨rfl, hneed.1, hneed.2⟩
          refine ⟨1, ?_⟩
          rw [hpt]
          simp [prefixBytes, cPrefix, cBody, hhash, hhead.mpr hneed]
        · have hpt : pt = 0 := by
            simp only [pt, prefixType, hbits, if_true]
            rw [if_neg fun hc => hneed hc.2, if_neg fun hc => absurd hc.1 (by decide)]
          have hfirst : (cDigits .o precision n).head? = some '0'.toUInt8 :=
            not_not.mp fun hc => hneed (hhead.mp hc)
          refine ⟨0, ?_⟩
          rw [hpt]
          simp [prefixBytes, cPrefix, cBody, hhash, hfirst]
      · have hbase : conv.base = 16 := by
          obtain rfl | rfl := hx <;> rfl
        have hnot : conv ≠ .o := by
          obtain rfl | rfl := hx <;> decide
        by_cases hzero : n = 0
        · have hpt : pt = 0 := by
            simp only [pt, prefixType, hbits, if_true, hbase]
            rw [if_neg fun hc => absurd hc.1 (by decide), if_neg fun hc => hc.2 hzero]
          refine ⟨0, ?_⟩
          rw [hpt]
          simp [prefixBytes, cPrefix, cBody, hnot, hzero]
        · have hpt : pt = 2 := by
            simp only [pt, prefixType, hbits, if_true, hbase]
            rw [if_neg fun hc => absurd hc.1 (by decide), if_pos ⟨trivial, hzero⟩]
          refine ⟨0, ?_⟩
          rw [hpt]
          obtain rfl | rfl := hx
          · simp [prefixBytes, cPrefix, cBody, hhash, hzero]
            decide
          · simp [prefixBytes, cPrefix, cBody, hhash, hzero]
            decide

/-- The second half of `_integer`, byte by byte. -/
theorem putField_eq (f : IntegerField) (out : List UInt8) :
    putField unbuffered f out = out ++
      ((if f.flags.leftJustify then [] else List.replicate f.padN.toNat ' '.toUInt8) ++
        (if f.sign ≠ 0 then [f.sign] else []) ++ prefixBytes f.flags.upper f.prefixType ++
        List.replicate f.zeroN.toNat '0'.toUInt8 ++ f.nstr.take f.nlen.toNat ++
        (if f.flags.leftJustify then List.replicate f.padN.toNat ' '.toUInt8 else [])) := by
  have hput : ∀ (k : List UInt8) c, unbuffered.put k c = k ++ [c] := fun _ _ => rfl
  have hprefix : ∀ k, putPrefix unbuffered f k = k ++ prefixBytes f.flags.upper f.prefixType := by
    intro k
    simp only [putPrefix, prefixBytes, hput]
    split
    · split
      · simp
      · simp
    · simp
  simp only [putField, pad, str, puts_unbuffered, hput, hprefix]
  cases f.flags.leftJustify with
  | true =>
      by_cases hsign : f.sign = 0
      · simp [hsign]
      · simp [hsign]
  | false =>
      by_cases hsign : f.sign = 0
      · simp [hsign]
      · simp [hsign]

/-- The room that is left of the width. -/
theorem padding_eq {width : Nat} {n : Int} (hwidth : width ≤ 2 ^ 30) (hn : 0 ≤ n)
    (hlt : n < 2 ^ 31) :
    (if (width : Int) > int32 n then int32 (width - int32 n) else 0) =
      (width - n.toNat : Nat) := by
  have hself : int32 n = n := Int.bmod_eq_of_le (by omega) (by omega)
  rw [hself]
  split
  · have hdiff : int32 (width - n) = width - n := Int.bmod_eq_of_le (by omega) (by omega)
    rw [hdiff]
    omega
  · omega

/-- The first half of `_integer`, by its intermediate values. -/
theorem integerField_eq (fl : CFlags) (conv : IntConv) (width : Nat) (precision : Option Nat)
    (len : Length) (arg : UInt64) :
    let value := cValue conv len arg
    let flags : Flags := { fl.bits conv with neg := decide (value < 0) }
    let nstr := ntoa value.natAbs conv.base (decide (conv = .X))
    let nlen := digitCount precision value.natAbs nstr
    let z := precisionZeros precision nlen
    let sign := integerSign conv.isSigned flags
    let pt := prefixType (fl.bits conv) conv.base value.natAbs (precisionArg precision) z
    let field := int32 ((if sign ≠ 0 then 1 else 0) + pt + z + nlen)
    let padN := if (width : Int) > field then int32 (width - field) else 0
    integerField conv.isSigned conv.base (fl.bits conv) width (precisionArg precision) len arg =
      if (fl.zero && !fl.minus && decide (precisionArg precision < 0)) = true then
        ⟨flags, sign, pt, 0, int32 (padN + z), nstr, nlen⟩
      else ⟨flags, sign, pt, padN, z, nstr, nlen⟩ := by
  rw [integerField, integerValue_eq]
  rfl

/-- The pieces that `_integer` writes are those of C: of the prefix, `k` zeros
(none or one) count as digits. -/
structure Pieces (fl : CFlags) (conv : IntConv) (precision : Option Nat) (value : Int)
    (sign : UInt8) (pt z nlen : Int) (nstr : List UInt8) (k : Nat) : Prop where
  signed : (if sign ≠ 0 then [sign] else []) = cSign fl value
  start : prefixBytes (decide (conv = .X)) pt =
    cPrefix fl conv value.natAbs ++ List.replicate k '0'.toUInt8
  digits : cBody fl conv precision value.natAbs = List.replicate k '0'.toUInt8 ++
    (List.replicate z.toNat '0'.toUInt8 ++ nstr.take nlen.toNat)
  zeros : 0 ≤ z ∧ z.toNat = precision.getD 0 - nlen.toNat
  count : 0 ≤ (if sign ≠ 0 then 1 else 0) + pt + z + nlen ∧
    (if sign ≠ 0 then 1 else 0) + pt + z + nlen < 2 ^ 31
  length : ((if sign ≠ 0 then 1 else 0) + pt + z + nlen).toNat =
    (cSign fl value ++ cPrefix fl conv value.natAbs).length +
      (cBody fl conv precision value.natAbs).length

theorem pieces_of_c {fl : CFlags} {conv : IntConv} (hdef : fl.Defined conv)
    {precision : Option Nat} (hprec : ∀ p ∈ precision, p ≤ 2 ^ 30) {value : Int}
    (hlt : value.natAbs < 2 ^ 64) :
    let nstr := ntoa value.natAbs conv.base (decide (conv = .X))
    let nlen := digitCount precision value.natAbs nstr
    let z := precisionZeros precision nlen
    ∃ k, Pieces fl conv precision value
      (integerSign conv.isSigned { fl.bits conv with neg := decide (value < 0) })
      (prefixType (fl.bits conv) conv.base value.natAbs (precisionArg precision) z) z nlen nstr
      k := by
  have hsign := integerSign_eq hdef value
  obtain ⟨hds, hlen0, hlen22, htake⟩ := digits_emitted conv precision hlt
  obtain ⟨k, hpre, hbody, hpt, hpt0, hpt2⟩ := prefix_split hdef precision hlt
  have hp : precision.getD 0 ≤ 2 ^ 30 := by
    cases precision with
    | none => exact Nat.zero_le _
    | some p => exact hprec p rfl
  dsimp only
  generalize ntoa value.natAbs conv.base (decide (conv = .X)) = nstr at *
  generalize digitCount precision value.natAbs nstr = nlen at *
  have hz0 := precisionZeros_nonneg precision nlen
  have hznat := precisionZeros_toNat precision hlen0
  generalize precisionZeros precision nlen = z at *
  generalize prefixType (fl.bits conv) conv.base value.natAbs (precisionArg precision) z = pt at *
  generalize integerSign conv.isSigned { fl.bits conv with neg := decide (value < 0) } = sign at *
  have hsignlen : (if sign ≠ 0 then (1 : Int) else 0) = (cSign fl value).length ∧
      (cSign fl value).length ≤ 1 := by
    rw [← hsign]
    split <;> simp
  have hlen : (cDigits conv precision value.natAbs).length = z.toNat + nlen.toNat := by
    rw [← hds, List.length_append, List.length_replicate, List.length_take,
      Nat.min_eq_left htake]
  refine ⟨k, hsign, hpre, by rw [hbody, ← hds], ⟨hz0, hznat⟩, ?_, ?_⟩
  · rw [hsignlen.1]
    omega
  · rw [hsignlen.1, List.length_append, hbody, List.length_append, List.length_replicate, hlen]
    omega

/-- **Integer conversions follow C**: for every argument, conversion, length
modifier, width and precision up to `2 ^ 30` and flags that C defines for the
conversion, `_integer` emits the field of C, which is as long as the width or
what it holds, whichever is more. -/
theorem integer_follows_c (fl : CFlags) (conv : IntConv) (hdef : fl.Defined conv) (width : Nat)
    (hwidth : width ≤ 2 ^ 30) (precision : Option Nat) (hprec : ∀ p ∈ precision, p ≤ 2 ^ 30)
    (len : Length) (arg : UInt64) (out : List UInt8) :
    integer unbuffered out conv.isSigned conv.base (fl.bits conv) width (precisionArg precision)
        len arg =
      out ++ cField fl conv width precision (cValue conv len arg) ∧
    (cField fl conv width precision (cValue conv len arg)).length =
      max width ((cUnpadded fl conv precision (cValue conv len arg)).1.length +
        (cUnpadded fl conv precision (cValue conv len arg)).2.length) := by
  refine ⟨?_, cField_length _ _ _ _ _⟩
  have hfield := integerField_eq fl conv width precision len arg
  obtain ⟨k, hpieces⟩ := pieces_of_c hdef hprec (cValue_natAbs_lt conv len arg)
  dsimp only at hfield hpieces
  generalize cValue conv len arg = value at hfield hpieces ⊢
  generalize ntoa value.natAbs conv.base (decide (conv = .X)) = nstr at hfield hpieces
  generalize digitCount precision value.natAbs nstr = nlen at hfield hpieces
  generalize precisionZeros precision nlen = z at hfield hpieces
  generalize prefixType (fl.bits conv) conv.base value.natAbs (precisionArg precision) z = pt
    at hfield hpieces
  generalize integerSign conv.isSigned { fl.bits conv with neg := decide (value < 0) } = sign
    at hfield hpieces
  rw [padding_eq hwidth hpieces.count.1 hpieces.count.2, hpieces.length] at hfield
  rw [integer, hfield, cField, cUnpadded]
  dsimp only
  have hnle := Nat.sub_le width ((cSign fl value ++ cPrefix fl conv value.natAbs).length +
    (cBody fl conv precision value.natAbs).length)
  generalize width - ((cSign fl value ++ cPrefix fl conv value.natAbs).length +
    (cBody fl conv precision value.natAbs).length) = n at hnle
  have hleft : (fl.bits conv).leftJustify = fl.minus := rfl
  have hupper : (fl.bits conv).upper = decide (conv = .X) := rfl
  by_cases hzero : fl.minus = false ∧ fl.zero = true ∧ precision = none
  · -- zeros after sign and prefix; of the precision there are none
    obtain ⟨hminus, hzp, rfl⟩ := hzero
    obtain ⟨hz0, hznat⟩ := hpieces.zeros
    have hz : z = 0 := by
      rw [Option.getD_none] at hznat
      omega
    have hsum : int32 ((n : Int) + 0) = n := Int.bmod_eq_of_le (by omega) (by omega)
    have hcond : (fl.zero && !fl.minus && decide (precisionArg none < 0)) = true := by
      rw [hminus, hzp]
      decide
    rw [if_pos hcond, putField_eq]
    simp only [hleft, hupper, hminus, hzp, hpieces.signed, hpieces.start, hpieces.digits, hz, hsum,
      Int.toNat_natCast]
    simp only [Bool.false_eq_true, if_false, if_true, and_self, Int.toNat_zero,
      List.replicate_zero, List.nil_append, List.append_nil, List.append_assoc]
    rw [← List.append_assoc (List.replicate k _), List.replicate_append_replicate, Nat.add_comm,
      ← List.replicate_append_replicate, List.append_assoc]
  · have hcond : ¬ (fl.zero && !fl.minus && decide (precisionArg precision < 0)) = true := by
      rw [Bool.and_eq_true, Bool.and_eq_true, decide_eq_true_eq, precisionArg_neg]
      rintro ⟨⟨hzp, hminus⟩, hprec⟩
      exact hzero ⟨by simpa using hminus, hzp, hprec⟩
    rw [if_neg hcond, putField_eq]
    simp only [hleft, hupper, hpieces.signed, hpieces.start, hpieces.digits, Int.toNat_natCast]
    cases hminus : fl.minus with
    | true => simp only [if_true, List.nil_append, List.append_assoc]
    | false =>
        rw [if_neg (by decide), if_neg (by decide), if_neg (by decide),
          if_neg fun hc => hzero ⟨hminus, hc⟩]
        simp only [List.append_nil, List.append_assoc]

/-- The `switch` calls `_integer` with the sign and the base of the conversion. -/
theorem convert_integer {κ μ : Type} (o : Output UInt8 κ) (mem : Memory μ) (fl : CFlags)
    (conv : IntConv) (width precision : Int) (len : Length) (echo : List UInt8)
    (s : Printer κ μ) :
    convert o mem conv.char ⟨fl.bits .d, width, precision, len⟩ echo s =
      { s with
        args := s.args.tail
        out := integer o s.out conv.isSigned conv.base (fl.bits conv) width precision len
          (s.args.headD 0) } := by
  cases conv <;> rfl

/-- `%+024lld` of the least 64-bit value. -/
theorem integer_follows_c_least :
    integer unbuffered [] true 10 (CFlags.bits ⟨false, true, false, false, true⟩ .d) 24 (-1) .ll
      0x8000000000000000 = literal "-00009223372036854775808" := by
  have h := (integer_follows_c ⟨false, true, false, false, true⟩ .d ⟨fun _ => rfl, nofun, nofun⟩ 24
    (by decide) none nofun .ll 0x8000000000000000 []).1
  refine h.trans ?_
  decide +kernel

end DevOS.Printk
