import DevOS.Lib.Output
import Mathlib.Algebra.Order.Ring.Int

/-!
# Printk — the formatter

`lib/printk.c` down to `_vprintkl`, over any output: the source's
`printk_context_t` is one (`Printk.Buffer`), a list that grows without bound
another. A format string is the bytes from the pointer on; past the last one
a read gives NUL. Variadic arguments are the 64-bit slots `va_arg` reads from,
and a `va_arg` of a narrower type reads the low bits of its slot. An `int`
that overflows is taken to wrap.

The string functions a conversion needs (`strlen`, `wcslen`, the reads of the
string) and the store of `%n` go through a `Memory`, whatever that is.
-/

namespace DevOS.Printk

open DevOS.Lib

/-- A value converted to `int`. -/
def int32 (x : Int) : Int := Int.bmod x (2 ^ 32)

/-- A value converted to `char`. -/
def toChar (x : Int) : UInt8 := UInt8.ofNat (x % 256).toNat

/-- `*fmt`. -/
def peek (fmt : List UInt8) : UInt8 := fmt.headD 0

/-- The bytes of a string literal. -/
def literal (s : String) : List UInt8 := s.toList.map Char.toUInt8

/-- The memory that arguments point into: the string before its terminating
NUL, narrow or wide, and a store of so many bytes. -/
structure Memory (μ : Type) where
  str : μ → UInt64 → List UInt8
  wstr : μ → UInt64 → List Int
  store : μ → UInt64 → (bytes : Nat) → (value : Nat) → μ

/-- The `FL_` bits. -/
structure Flags where
  leftJustify : Bool
  alwaysSign : Bool
  signPad : Bool
  prefixed : Bool
  zeroPad : Bool
  upper : Bool
  neg : Bool
deriving DecidableEq, Repr

def Flags.none : Flags := ⟨false, false, false, false, false, false, false⟩

/-- `length_t`. -/
inductive Length where
  | none
  | hh
  | h
  | l
  | ll
  | j
  | z
  | t
deriving DecidableEq, Repr

section Pieces

variable {κ : Type} (o : Output UInt8 κ)

/-- `_putwc(ctx, wc)`: UTF-8; beyond `0x10FFFF` nothing. -/
def putwc (k : κ) (wc : Int) : κ :=
  let n := wc.toNat
  if wc ≤ 0x7F then o.put k (toChar wc)
  else if wc ≤ 0x7FF then
    o.puts k [UInt8.ofNat (0xC0 ||| n >>> 6), UInt8.ofNat (0x80 ||| (n &&& 0x3F))]
  else if wc ≤ 0xFFFF then
    o.puts k [UInt8.ofNat (0xE0 ||| n >>> 12), UInt8.ofNat (0x80 ||| ((n >>> 6) &&& 0x3F)),
      UInt8.ofNat (0x80 ||| (n &&& 0x3F))]
  else if wc ≤ 0x10FFFF then
    o.puts k [UInt8.ofNat (0xF0 ||| n >>> 18), UInt8.ofNat (0x80 ||| ((n >>> 12) &&& 0x3F)),
      UInt8.ofNat (0x80 ||| ((n >>> 6) &&& 0x3F)), UInt8.ofNat (0x80 ||| (n &&& 0x3F))]
  else k

/-- `_pad(ctx, c, n)`. -/
def pad (k : κ) (c : UInt8) (n : Int) : κ := o.puts k (List.replicate n.toNat c)

/-- `_str(ctx, s, len)`. -/
def str (k : κ) (s : List UInt8) (len : Int) : κ := o.puts k (s.take len.toNat)

/-- `_wstr(ctx, s, len)`. -/
def wstr (k : κ) (s : List Int) (len : Int) : κ := (s.take len.toNat).foldl (putwc o) k

end Pieces

/-! ## Integers -/

/-- `NTOA_BUFFER_SIZE`. -/
def ntoaBufferSize : Nat := 24

/-- `d[i]`. -/
def digit (upper : Bool) (i : Nat) : UInt8 :=
  (literal (if upper then "0123456789ABCDEF" else "0123456789abcdef")).getD i 0

/-- The loop of `_ntoa` with so many bytes of the buffer left; the digits
written and what is left of the value. -/
def ntoaLoop (upper : Bool) (base : Nat) : (space val : Nat) → List UInt8 → List UInt8 × Nat
  | 0, val, digits => (digits, val)
  | space + 1, val, digits =>
      if val = 0 then (digits, val)
      else ntoaLoop upper base space (val / base) (digit upper (val % base) :: digits)

/-- `_ntoa(ctx, val, base, upper)`: the bytes from the returned pointer to the
end of the buffer. -/
def ntoa (val base : Nat) (upper : Bool) : List UInt8 :=
  if val = 0 then ['0'.toUInt8]
  else
    match ntoaLoop upper base ntoaBufferSize val [] with
    | (digits, rest) => if rest ≠ 0 then '?'.toUInt8 :: digits.tail else digits

/-- The signed `va_arg` of `_integer`. -/
def signedArg (len : Length) (arg : UInt64) : Int :=
  match len with
  | .hh => Int.bmod arg.toNat (2 ^ 8)
  | .h => Int.bmod arg.toNat (2 ^ 16)
  | .l | .ll | .j | .z | .t => Int.bmod arg.toNat (2 ^ 64)
  | .none => Int.bmod arg.toNat (2 ^ 32)

/-- The unsigned `va_arg` of `_integer`. -/
def unsignedArg (len : Length) (arg : UInt64) : Nat :=
  match len with
  | .hh => arg.toNat % 2 ^ 8
  | .h => arg.toNat % 2 ^ 16
  | .l | .ll | .j | .z | .t => arg.toNat
  | .none => arg.toNat % 2 ^ 32

/-- `uval` and the flags after the `va_arg` of `_integer`: the magnitude of a
negative value, with `FL_NEG`. -/
def integerValue (isSigned : Bool) (flags : Flags) (len : Length) (arg : UInt64) : Nat × Flags :=
  if isSigned then
    let x := signedArg len arg
    if x < 0 then (x.natAbs, { flags with neg := true }) else (x.natAbs, flags)
  else (unsignedArg len arg, flags)

/-- `sign`, 0 for none. -/
def integerSign (isSigned : Bool) (flags : Flags) : UInt8 :=
  if flags.neg then '-'.toUInt8
  else if flags.alwaysSign && isSigned then '+'.toUInt8
  else if flags.signPad then ' '.toUInt8
  else 0

/-- `prefix_type`, which is also its length. -/
def prefixType (flags : Flags) (base uval : Nat) (precision precZeros : Int) : Int :=
  if flags.prefixed then
    if base = 8 ∧ precZeros = 0 ∧ (uval ≠ 0 ∨ precision = 0) then 1
    else if base = 16 ∧ uval ≠ 0 then 2
    else 0
  else 0

/-- What `_integer` has worked out before it writes: the flags, `sign`,
`prefix_type`, `pad_n`, `zero_n + prec_zeros` and the first `nlen` of the
digits `nstr`. -/
structure IntegerField where
  flags : Flags
  sign : UInt8
  prefixType : Int
  padN : Int
  zeroN : Int
  nstr : List UInt8
  nlen : Int
deriving DecidableEq, Repr

/-- The first half of `_integer`. -/
def integerField (isSigned : Bool) (base : Nat) (flags : Flags) (width precision : Int)
    (len : Length) (arg : UInt64) : IntegerField :=
  let (uval, flags) := integerValue isSigned flags len arg
  let nstr := ntoa uval base flags.upper
  let nlen : Int := if precision = 0 ∧ uval = 0 then 0 else nstr.length
  let precZeros := if precision > nlen then precision - nlen else 0
  let sign := integerSign isSigned flags
  let prefixType := prefixType flags base uval precision precZeros
  let field := int32 ((if sign ≠ 0 then 1 else 0) + prefixType + precZeros + nlen)
  let padN := if width > field then int32 (width - field) else 0
  if flags.zeroPad && !flags.leftJustify && decide (precision < 0) then
    ⟨flags, sign, prefixType, 0, int32 (padN + precZeros), nstr, nlen⟩
  else ⟨flags, sign, prefixType, padN, precZeros, nstr, nlen⟩

section Integer

variable {κ : Type} (o : Output UInt8 κ)

/-- The prefix. -/
def putPrefix (f : IntegerField) (k : κ) : κ :=
  if f.prefixType ≠ 0 then
    let k := o.put k '0'.toUInt8
    if f.prefixType = 2 then o.put k (if f.flags.upper then 'X'.toUInt8 else 'x'.toUInt8) else k
  else k

/-- The second half of `_integer`. -/
def putField (f : IntegerField) (k : κ) : κ :=
  let k := if !f.flags.leftJustify then pad o k ' '.toUInt8 f.padN else k
  let k := if f.sign ≠ 0 then o.put k f.sign else k
  let k := putPrefix o f k
  let k := pad o k '0'.toUInt8 f.zeroN
  let k := str o k f.nstr f.nlen
  if f.flags.leftJustify then pad o k ' '.toUInt8 f.padN else k

/-- `_integer(ctx, is_signed, base, flags, width, precision, len, va)`, with
the slot its `va_arg` reads. -/
def integer (k : κ) (isSigned : Bool) (base : Nat) (flags : Flags) (width precision : Int)
    (len : Length) (arg : UInt64) : κ :=
  putField o (integerField isSigned base flags width precision len arg) k

end Integer

/-! ## Conversion specifications -/

/-- What stands between `%` and the conversion character. -/
structure Spec where
  flags : Flags
  width : Int
  precision : Int
  length : Length
deriving DecidableEq, Repr

/-- The loop over the flag characters. -/
def parseFlags : List UInt8 → Flags → Flags × List UInt8
  | [], flags => (flags, [])
  | c :: fmt, flags =>
      if c = '-'.toUInt8 then parseFlags fmt { flags with leftJustify := true }
      else if c = '+'.toUInt8 then parseFlags fmt { flags with alwaysSign := true }
      else if c = ' '.toUInt8 then parseFlags fmt { flags with signPad := true }
      else if c = '#'.toUInt8 then parseFlags fmt { flags with prefixed := true }
      else if c = '0'.toUInt8 then parseFlags fmt { flags with zeroPad := true }
      else (flags, c :: fmt)

/-- `while (*fmt >= '0' && *fmt <= '9') n = n * 10 + (*fmt++ - '0')`. -/
def parseDigits : List UInt8 → Int → Int × List UInt8
  | [], n => (n, [])
  | c :: fmt, n =>
      if '0'.toUInt8 ≤ c ∧ c ≤ '9'.toUInt8 then
        parseDigits fmt (int32 (n * 10 + (c.toNat - '0'.toNat)))
      else (n, c :: fmt)

/-- The width: `*` takes an argument, negative for left justification. -/
def parseWidth (fmt : List UInt8) (flags : Flags) (args : List UInt64) :
    Int × Flags × List UInt8 × List UInt64 :=
  if peek fmt = '*'.toUInt8 then
    let width := int32 (args.headD 0).toNat
    if width < 0 then (int32 (-width), { flags with leftJustify := true }, fmt.tail, args.tail)
    else (width, flags, fmt.tail, args.tail)
  else
    match parseDigits fmt 0 with
    | (width, fmt) => (width, flags, fmt, args)

/-- The precision, -1 for none. -/
def parsePrecision (fmt : List UInt8) (args : List UInt64) : Int × List UInt8 × List UInt64 :=
  if peek fmt = '.'.toUInt8 then
    let fmt := fmt.tail
    if peek fmt = '*'.toUInt8 then
      let precision := int32 (args.headD 0).toNat
      (if precision < 0 then -1 else precision, fmt.tail, args.tail)
    else
      match parseDigits fmt 0 with
      | (precision, fmt) => (precision, fmt, args)
  else (-1, fmt, args)

/-- The length modifier. -/
def parseLength (fmt : List UInt8) : Length × List UInt8 :=
  if peek fmt = 'h'.toUInt8 then
    if peek fmt.tail = 'h'.toUInt8 then (.hh, fmt.tail.tail) else (.h, fmt.tail)
  else if peek fmt = 'l'.toUInt8 then
    if peek fmt.tail = 'l'.toUInt8 then (.ll, fmt.tail.tail) else (.l, fmt.tail)
  else if peek fmt = 'j'.toUInt8 then (.j, fmt.tail)
  else if peek fmt = 'z'.toUInt8 then (.z, fmt.tail)
  else if peek fmt = 't'.toUInt8 then (.t, fmt.tail)
  else (.none, fmt)

/-- All of it; the format from the conversion character on and the arguments
left. -/
def parseSpec (fmt : List UInt8) (args : List UInt64) : Spec × List UInt8 × List UInt64 :=
  match parseFlags fmt .none with
  | (flags, fmt) =>
      match parseWidth fmt flags args with
      | (width, flags, fmt, args) =>
          match parsePrecision fmt args with
          | (precision, fmt, args) =>
              match parseLength fmt with
              | (length, fmt) => (⟨flags, width, precision, length⟩, fmt, args)

/-! ## Conversions -/

/-- The state of a call: the output, the arguments left and the memory. -/
structure Printer (κ μ : Type) where
  out : κ
  args : List UInt64
  mem : μ

section Conversions

variable {κ μ : Type} (o : Output UInt8 κ) (mem : Memory μ)

/-- Padding to the left, the piece, padding to the right: of the two paddings
at most one is made. -/
def justified (flags : Flags) (n : Int) (piece : κ → κ) (k : κ) : κ :=
  let k := if !flags.leftJustify ∧ n > 0 then pad o k ' '.toUInt8 n else k
  let k := piece k
  if flags.leftJustify ∧ n > 0 then pad o k ' '.toUInt8 n else k

/-- `case 'c'`. -/
def convertChar (sp : Spec) (arg : UInt64) (k : κ) : κ :=
  let ch := int32 arg.toNat
  justified o sp.flags (int32 (sp.width - 1))
    (fun k => if sp.length = .l then putwc o k ch else o.put k (toChar ch)) k

/-- `if (precision >= 0 && str_len > precision) str_len = precision`, on
`strlen` converted to `int`. -/
def clipLength (sp : Spec) (len : Nat) : Int :=
  if sp.precision ≥ 0 ∧ int32 len > sp.precision then sp.precision else int32 len

/-- `case 's'`. -/
def convertString (sp : Spec) (arg : UInt64) (m : μ) (k : κ) : κ :=
  if sp.length = .l then
    let s := if arg = 0 then (literal "(null)").map fun c => (c.toNat : Int) else mem.wstr m arg
    let len := clipLength sp s.length
    justified o sp.flags (int32 (sp.width - len)) (fun k => wstr o k s len) k
  else
    let s := if arg = 0 then literal "(null)" else mem.str m arg
    let len := clipLength sp s.length
    justified o sp.flags (int32 (sp.width - len)) (fun k => str o k s len) k

/-- `case 'p'`. -/
def convertPointer (sp : Spec) (arg : UInt64) (k : κ) : κ :=
  let nstr := ntoa arg.toNat 16 false
  let nlen : Int := nstr.length
  let zeroN := if nlen < 16 then 16 - nlen else 0
  justified o sp.flags (int32 (sp.width - (2 + zeroN + nlen)))
    (fun k => str o (pad o (str o k (literal "0x") 2) '0'.toUInt8 zeroN) nstr nlen) k

/-- The size of the type `%n` stores. -/
def Length.bytes : Length → Nat
  | .hh => 1
  | .h => 2
  | .none => 4
  | .l | .ll | .j | .z | .t => 8

/-- `case 'n'`. -/
def convertCount (sp : Spec) (arg : UInt64) (count : Int) (m : μ) : μ :=
  if arg = 0 then m
  else mem.store m arg sp.length.bytes (count % 2 ^ (8 * sp.length.bytes)).toNat

/-- The `switch (spec)`. `echo` is the specification from its `%` on; its length
is converted to `int` for `_str`. -/
def convert (c : UInt8) (sp : Spec) (echo : List UInt8) (s : Printer κ μ) : Printer κ μ :=
  let arg := s.args.headD 0
  let rest := s.args.tail
  let int := fun isSigned base flags =>
    { s with
      args := rest
      out := integer o s.out isSigned base flags sp.width sp.precision sp.length arg }
  if c = 'd'.toUInt8 ∨ c = 'i'.toUInt8 then int true 10 sp.flags
  else if c = 'u'.toUInt8 then int false 10 sp.flags
  else if c = 'o'.toUInt8 then int false 8 sp.flags
  else if c = 'x'.toUInt8 then int false 16 sp.flags
  else if c = 'X'.toUInt8 then int false 16 { sp.flags with upper := true }
  else if c = 'c'.toUInt8 then { s with args := rest, out := convertChar o sp arg s.out }
  else if c = 's'.toUInt8 then
    { s with args := rest, out := convertString o mem sp arg s.mem s.out }
  else if c = 'p'.toUInt8 then { s with args := rest, out := convertPointer o sp arg s.out }
  else if c = 'n'.toUInt8 then
    { s with args := rest, mem := convertCount mem sp arg (o.len s.out) s.mem }
  else { s with out := str o s.out echo (int32 echo.length) }

/-- The loop of `_vprintkl`. Every round passes at least one byte of the
format, so its length bounds the rounds. -/
def formatLoop : (fuel : Nat) → List UInt8 → Printer κ μ → Printer κ μ
  | 0, _, s => s
  | fuel + 1, fmt, s =>
      if peek fmt = 0 then s
      else if peek fmt ≠ '%'.toUInt8 then
        formatLoop fuel fmt.tail { s with out := o.put s.out (peek fmt) }
      else if peek fmt.tail = '%'.toUInt8 then
        formatLoop fuel fmt.tail.tail { s with out := o.put s.out '%'.toUInt8 }
      else
        match parseSpec fmt.tail s.args with
        | (sp, rest, args) =>
            if peek rest = 0 then { s with args := args }
            else
              formatLoop fuel rest.tail
                (convert o mem (peek rest) sp (fmt.take (fmt.length - rest.tail.length))
                  { s with args := args })

/-- `_vprintkl` up to its last `_flush`. -/
def format (fmt : List UInt8) (s : Printer κ μ) : Printer κ μ :=
  formatLoop o mem fmt.length fmt s

end Conversions

/-! ## The loop ends -/

theorem parseFlags_length : ∀ (fmt : List UInt8) (flags : Flags),
    (parseFlags fmt flags).2.length ≤ fmt.length := by
  intro fmt
  induction fmt with
  | nil => intro flags; exact Nat.le_refl _
  | cons c fmt ih =>
      intro flags
      rw [parseFlags, List.length_cons]
      repeat' split
      · exact Nat.le_trans (ih _) (Nat.le_succ _)
      · exact Nat.le_trans (ih _) (Nat.le_succ _)
      · exact Nat.le_trans (ih _) (Nat.le_succ _)
      · exact Nat.le_trans (ih _) (Nat.le_succ _)
      · exact Nat.le_trans (ih _) (Nat.le_succ _)
      · exact Nat.le_refl _

theorem parseDigits_length : ∀ (fmt : List UInt8) (n : Int),
    (parseDigits fmt n).2.length ≤ fmt.length := by
  intro fmt
  induction fmt with
  | nil => intro n; exact Nat.le_refl _
  | cons c fmt ih =>
      intro n
      rw [parseDigits, List.length_cons]
      split
      · exact Nat.le_trans (ih _) (Nat.le_succ _)
      · exact Nat.le_refl _

theorem parseWidth_length (fmt : List UInt8) (flags : Flags) (args : List UInt64) :
    (parseWidth fmt flags args).2.2.1.length ≤ fmt.length := by
  have htail : fmt.tail.length ≤ fmt.length := by
    rw [List.length_tail]
    exact Nat.sub_le _ _
  have hdigits := parseDigits_length fmt 0
  rw [parseWidth]
  by_cases hstar : peek fmt = '*'.toUInt8
  · rw [if_pos hstar]
    generalize int32 (args.headD 0).toNat = w
    by_cases hw : w < 0
    · simp only [if_pos hw]
      exact htail
    · simp only [if_neg hw]
      exact htail
  · rw [if_neg hstar]
    generalize parseDigits fmt 0 = r at hdigits
    exact hdigits

theorem parsePrecision_length (fmt : List UInt8) (args : List UInt64) :
    (parsePrecision fmt args).2.1.length ≤ fmt.length := by
  have htail : fmt.tail.length ≤ fmt.length := by
    rw [List.length_tail]
    exact Nat.sub_le _ _
  unfold parsePrecision
  split
  · dsimp only
    split
    · rw [List.length_tail]
      omega
    · have hdigits := parseDigits_length fmt.tail 0
      generalize parseDigits fmt.tail 0 = r at hdigits
      exact Nat.le_trans hdigits htail
  · exact Nat.le_refl _

theorem parseLength_length (fmt : List UInt8) : (parseLength fmt).2.length ≤ fmt.length := by
  unfold parseLength
  repeat' split
  all_goals simp only [List.length_tail]
  all_goals omega

/-- The parser only moves forward. -/
theorem parseSpec_length (fmt : List UInt8) (args : List UInt64) :
    (parseSpec fmt args).2.1.length ≤ fmt.length := by
  have h1 := parseFlags_length fmt .none
  unfold parseSpec
  generalize parseFlags fmt .none = r₁ at h1 ⊢
  obtain ⟨flags, fmt₁⟩ := r₁
  have h2 := parseWidth_length fmt₁ flags args
  dsimp only
  generalize parseWidth fmt₁ flags args = r₂ at h2 ⊢
  obtain ⟨width, flags₂, fmt₂, args₂⟩ := r₂
  have h3 := parsePrecision_length fmt₂ args₂
  dsimp only
  generalize parsePrecision fmt₂ args₂ = r₃ at h3 ⊢
  exact Nat.le_trans (parseLength_length r₃.2.1) (Nat.le_trans h3 (Nat.le_trans h2 h1))

/-- **The loop ends by itself**: more rounds than the format has bytes change
nothing. -/
theorem formatLoop_fuel {κ μ : Type} (o : Output UInt8 κ) (mem : Memory μ) :
    ∀ (fuel fuel' : Nat) (fmt : List UInt8) (s : Printer κ μ), fmt.length ≤ fuel →
    fmt.length ≤ fuel' → formatLoop o mem fuel fmt s = formatLoop o mem fuel' fmt s := by
  -- an empty format ends the loop, whatever the fuel
  have hnil : ∀ (fuel : Nat) (s : Printer κ μ), formatLoop o mem fuel [] s = s := by
    intro fuel s
    cases fuel with
    | zero => rfl
    | succ fuel => rfl
  intro fuel
  induction fuel with
  | zero =>
      intro fuel' fmt s h _
      rw [List.length_eq_zero_iff.mp (Nat.le_zero.mp h), hnil, hnil]
  | succ fuel ih =>
      intro fuel' fmt s h h'
      cases fuel' with
      | zero => rw [List.length_eq_zero_iff.mp (Nat.le_zero.mp h'), hnil, hnil]
      | succ fuel' =>
          rw [formatLoop, formatLoop]
          split
          · rfl
          · have htail : fmt.tail.length ≤ fuel ∧ fmt.tail.length ≤ fuel' := by
              rw [List.length_tail]
              omega
            split
            · exact ih _ _ _ htail.1 htail.2
            · split
              · refine ih _ _ _ ?_ ?_
                · rw [List.length_tail]
                  omega
                · rw [List.length_tail]
                  omega
              · have hspec := parseSpec_length fmt.tail s.args
                split
                rename_i sp rest args heq
                rw [heq] at hspec
                dsimp only at hspec
                split
                · rfl
                · refine ih _ _ _ ?_ ?_
                  · rw [List.length_tail]
                    omega
                  · rw [List.length_tail]
                    omega

end DevOS.Printk
