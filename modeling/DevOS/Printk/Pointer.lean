import DevOS.Printk.Format

/-!
# Printk — the format string by its pointer

`_vprintkl` again, now with the pointer `fmt` as an index into the string in
memory. Behind the terminating NUL there is nothing to read: a read there has
no result, and neither has a loop that runs out of fuel. With more fuel than the
string has bytes the result is the one of the formatter over lists
(`Printk.Format`), so no such read is made.
-/

namespace DevOS.Printk

open DevOS.Lib

/-! ## The program -/

section Program

variable (text : List UInt8)

/-- `fmt[p]`, of a string and its NUL. -/
def byteAt (p : Nat) : Option UInt8 := (text ++ [0])[p]?

/-- The bytes from `fmt + p` on that `_str` reads. -/
def bytesAt : (count p : Nat) → Option (List UInt8)
  | 0, _ => some []
  | count + 1, p =>
      match byteAt text p with
      | none => none
      | some c => (bytesAt count (p + 1)).map (c :: ·)

/-- The loop over the flag characters. -/
def flagsAt : (fuel p : Nat) → Flags → Option (Flags × Nat)
  | 0, _, _ => none
  | fuel + 1, p, flags =>
      match byteAt text p with
      | none => none
      | some c =>
          if c = '-'.toUInt8 then flagsAt fuel (p + 1) { flags with leftJustify := true }
          else if c = '+'.toUInt8 then flagsAt fuel (p + 1) { flags with alwaysSign := true }
          else if c = ' '.toUInt8 then flagsAt fuel (p + 1) { flags with signPad := true }
          else if c = '#'.toUInt8 then flagsAt fuel (p + 1) { flags with prefixed := true }
          else if c = '0'.toUInt8 then flagsAt fuel (p + 1) { flags with zeroPad := true }
          else some (flags, p)

/-- The loop over the digits of a width or a precision. -/
def digitsAt : (fuel p : Nat) → Int → Option (Int × Nat)
  | 0, _, _ => none
  | fuel + 1, p, n =>
      match byteAt text p with
      | none => none
      | some c =>
          if '0'.toUInt8 ≤ c ∧ c ≤ '9'.toUInt8 then
            digitsAt fuel (p + 1) (int32 (n * 10 + (c.toNat - '0'.toNat)))
          else some (n, p)

/-- The width. -/
def widthAt (fuel p : Nat) (flags : Flags) (args : List UInt64) :
    Option (Int × Flags × Nat × List UInt64) :=
  match byteAt text p with
  | none => none
  | some c =>
      if c = '*'.toUInt8 then
        let width := int32 (args.headD 0).toNat
        if width < 0 then
          some (int32 (-width), { flags with leftJustify := true }, p + 1, args.tail)
        else some (width, flags, p + 1, args.tail)
      else (digitsAt text fuel p 0).map fun r => (r.1, flags, r.2, args)

/-- The precision. -/
def precisionAt (fuel p : Nat) (args : List UInt64) : Option (Int × Nat × List UInt64) :=
  match byteAt text p with
  | none => none
  | some c =>
      if c = '.'.toUInt8 then
        match byteAt text (p + 1) with
        | none => none
        | some c =>
            if c = '*'.toUInt8 then
              let precision := int32 (args.headD 0).toNat
              some (if precision < 0 then -1 else precision, p + 1 + 1, args.tail)
            else (digitsAt text fuel (p + 1) 0).map fun r => (r.1, r.2, args)
      else some (-1, p, args)

/-- A length modifier that may be doubled. -/
def doubledAt (c : UInt8) (once twice : Length) (p : Nat) : Option (Length × Nat) :=
  (byteAt text p).map fun c' => if c' = c then (twice, p + 1) else (once, p)

/-- The length modifier. -/
def lengthAt (p : Nat) : Option (Length × Nat) :=
  match byteAt text p with
  | none => none
  | some c =>
      if c = 'h'.toUInt8 then doubledAt text 'h'.toUInt8 .h .hh (p + 1)
      else if c = 'l'.toUInt8 then doubledAt text 'l'.toUInt8 .l .ll (p + 1)
      else if c = 'j'.toUInt8 then some (.j, p + 1)
      else if c = 'z'.toUInt8 then some (.z, p + 1)
      else if c = 't'.toUInt8 then some (.t, p + 1)
      else some (.none, p)

/-- What stands between `%` and the conversion character. -/
def specAt (fuel p : Nat) (args : List UInt64) : Option (Spec × Nat × List UInt64) :=
  match flagsAt text fuel p .none with
  | none => none
  | some (flags, p) =>
      match widthAt text fuel p flags args with
      | none => none
      | some (width, flags, p, args) =>
          match precisionAt text fuel p args with
          | none => none
          | some (precision, p, args) =>
              (lengthAt text p).map fun r => (⟨flags, width, precision, r.1⟩, r.2, args)

variable {κ μ : Type} (o : Output UInt8 κ) (mem : Memory μ)

/-- The conversion characters of the `switch (spec)`. -/
def conversions : List UInt8 := literal "diuoxXcspn"

/-- The `switch (spec)`; its default reads the specification again. -/
def convertAt (c : UInt8) (sp : Spec) (specStart p : Nat) (s : Printer κ μ) :
    Option (Printer κ μ) :=
  if c ∈ conversions then some (convert o mem c sp [] s)
  else
    (bytesAt text (int32 (p - specStart : Nat)).toNat specStart).map fun bytes =>
      { s with out := o.puts s.out bytes }

/-- The loop of `_vprintkl`. -/
def vprintklAt : (fuel p : Nat) → Printer κ μ → Option (Printer κ μ)
  | 0, _, _ => none
  | fuel + 1, p, s =>
      match byteAt text p with
      | none => none
      | some c =>
          if c = 0 then some s
          else if c ≠ '%'.toUInt8 then vprintklAt fuel (p + 1) { s with out := o.put s.out c }
          else
            match byteAt text (p + 1) with
            | none => none
            | some c =>
                if c = '%'.toUInt8 then
                  vprintklAt fuel (p + 1 + 1) { s with out := o.put s.out '%'.toUInt8 }
                else
                  match specAt text fuel (p + 1) s.args with
                  | none => none
                  | some (sp, p', args) =>
                      match byteAt text p' with
                      | none => none
                      | some c =>
                          if c = 0 then some { s with args := args }
                          else
                            match convertAt text o mem c sp p (p' + 1) { s with args := args } with
                            | none => none
                            | some s => vprintklAt fuel (p' + 1) s

end Program

/-! ## Against the formatter over lists -/

/-- The pointer is in the string or at its NUL, and these bytes follow. -/
structure At (text : List UInt8) (p : Nat) (fmt : List UInt8) : Prop where
  bound : p ≤ text.length
  rest : text.drop p = fmt

section At

variable {text fmt : List UInt8} {p : Nat}

theorem At.start (text : List UInt8) : At text 0 text := ⟨Nat.zero_le _, rfl⟩

theorem At.length (h : At text p fmt) : p + fmt.length = text.length := by
  rw [← h.rest, List.length_drop]
  have := h.bound
  omega

/-- **A read** at the pointer. -/
theorem At.byte (h : At text p fmt) : byteAt text p = some (peek fmt) := by
  obtain ⟨hbound, rfl⟩ := h
  rw [byteAt, peek]
  by_cases hend : p = text.length
  · rw [hend, List.getElem?_append_right (Nat.le_refl _), Nat.sub_self, List.drop_length]
    rfl
  · have hlt : p < text.length := by omega
    rw [List.getElem?_append_left hlt, List.drop_eq_getElem_cons hlt,
      List.getElem?_eq_getElem hlt]
    rfl

/-- A pointer at a byte may advance. -/
theorem At.next (h : At text p fmt) (hne : fmt ≠ []) : At text (p + 1) fmt.tail := by
  have hlen := h.length
  have hpos := List.length_pos_iff.mpr hne
  refine ⟨by omega, ?_⟩
  rw [← h.rest, List.tail_drop]

/-- So may one at a byte that is not NUL. -/
theorem At.pass (h : At text p fmt) {c : UInt8} (hc : peek fmt = c) (hne : c ≠ 0) :
    At text (p + 1) fmt.tail := by
  refine h.next ?_
  rintro rfl
  exact hne hc.symm

theorem At.bytes : ∀ (n : Nat) {p : Nat} {fmt : List UInt8}, At text p fmt → n ≤ fmt.length →
    bytesAt text n p = some (fmt.take n) := by
  intro n
  induction n with
  | zero => intro p fmt _ _; rfl
  | succ n ih =>
      intro p fmt h hle
      cases fmt with
      | nil => exact absurd hle (Nat.not_succ_le_zero _)
      | cons c fmt =>
          have hnext := ih (h.next (List.cons_ne_nil c fmt)) (Nat.le_of_succ_le_succ hle)
          rw [List.tail_cons] at hnext
          rw [bytesAt, h.byte, hnext, List.take_succ_cons]
          rfl

/-- **The loop over the flags.** -/
theorem flagsAt_eq : ∀ (fuel : Nat) {p : Nat} {fmt : List UInt8} (flags : Flags),
    At text p fmt → fmt.length < fuel → ∃ p', At text p' (parseFlags fmt flags).2 ∧
      flagsAt text fuel p flags = some ((parseFlags fmt flags).1, p') := by
  intro fuel
  induction fuel with
  | zero => intro p fmt flags _ h; exact absurd h (Nat.not_lt_zero _)
  | succ fuel ih =>
      intro p fmt flags h hlen
      cases fmt with
      | nil =>
          refine ⟨p, h, ?_⟩
          rw [flagsAt, h.byte]
          rfl
      | cons c fmt =>
          have hgo := fun flags => ih flags (h.next (List.cons_ne_nil c fmt))
            (Nat.lt_of_succ_lt_succ hlen)
          rw [flagsAt, h.byte, parseFlags]
          dsimp only [peek, List.headD]
          repeat' split
          · exact hgo _
          · exact hgo _
          · exact hgo _
          · exact hgo _
          · exact hgo _
          · exact ⟨p, h, rfl⟩

/-- **The loop over digits.** -/
theorem digitsAt_eq : ∀ (fuel : Nat) {p : Nat} {fmt : List UInt8} (n : Int),
    At text p fmt → fmt.length < fuel → ∃ p', At text p' (parseDigits fmt n).2 ∧
      digitsAt text fuel p n = some ((parseDigits fmt n).1, p') := by
  intro fuel
  induction fuel with
  | zero => intro p fmt n _ h; exact absurd h (Nat.not_lt_zero _)
  | succ fuel ih =>
      intro p fmt n h hlen
      cases fmt with
      | nil =>
          refine ⟨p, h, ?_⟩
          rw [digitsAt, h.byte]
          rfl
      | cons c fmt =>
          have hgo := fun n => ih n (h.next (List.cons_ne_nil c fmt))
            (Nat.lt_of_succ_lt_succ hlen)
          rw [digitsAt, h.byte, parseDigits]
          dsimp only [peek, List.headD]
          split
          · exact hgo _
          · exact ⟨p, h, rfl⟩

theorem widthAt_eq {fuel : Nat} (h : At text p fmt) (hlen : fmt.length < fuel) (flags : Flags)
    (args : List UInt64) : ∃ p', At text p' (parseWidth fmt flags args).2.2.1 ∧
      widthAt text fuel p flags args = some ((parseWidth fmt flags args).1,
        (parseWidth fmt flags args).2.1, p', (parseWidth fmt flags args).2.2.2) := by
  rw [widthAt, h.byte, parseWidth]
  dsimp only
  by_cases hstar : peek fmt = '*'.toUInt8
  · have hnext := h.pass hstar (by decide)
    rw [if_pos hstar, if_pos hstar]
    generalize int32 (args.headD 0).toNat = width
    by_cases hneg : width < 0
    · rw [if_pos hneg, if_pos hneg]
      exact ⟨p + 1, hnext, rfl⟩
    · rw [if_neg hneg, if_neg hneg]
      exact ⟨p + 1, hnext, rfl⟩
  · obtain ⟨p', hp', heq⟩ := digitsAt_eq fuel 0 h hlen
    rw [if_neg hstar, if_neg hstar, heq]
    exact ⟨p', hp', rfl⟩

theorem precisionAt_eq {fuel : Nat} (h : At text p fmt) (hlen : fmt.length < fuel)
    (args : List UInt64) : ∃ p', At text p' (parsePrecision fmt args).2.1 ∧
      precisionAt text fuel p args = some ((parsePrecision fmt args).1, p',
        (parsePrecision fmt args).2.2) := by
  rw [precisionAt, h.byte, parsePrecision]
  dsimp only
  by_cases hdot : peek fmt = '.'.toUInt8
  · have hnext := h.pass hdot (by decide)
    rw [if_pos hdot, if_pos hdot, hnext.byte]
    dsimp only
    by_cases hstar : peek fmt.tail = '*'.toUInt8
    · rw [if_pos hstar, if_pos hstar]
      generalize int32 (args.headD 0).toNat = precision
      exact ⟨p + 1 + 1, hnext.pass hstar (by decide), rfl⟩
    · have hlen' : fmt.tail.length < fuel := by
        rw [List.length_tail]
        omega
      obtain ⟨p', hp', heq⟩ := digitsAt_eq fuel 0 hnext hlen'
      rw [if_neg hstar, if_neg hstar, heq]
      exact ⟨p', hp', rfl⟩
  · rw [if_neg hdot, if_neg hdot]
    exact ⟨p, h, rfl⟩

theorem doubledAt_eq (h : At text p fmt) {c : UInt8} (hc : c ≠ 0) (once twice : Length) :
    ∃ p', At text p' (if peek fmt = c then (twice, fmt.tail) else (once, fmt)).2 ∧
      doubledAt text c once twice p =
        some ((if peek fmt = c then (twice, fmt.tail) else (once, fmt)).1, p') := by
  rw [doubledAt, h.byte, Option.map_some]
  by_cases heq : peek fmt = c
  · rw [if_pos heq, if_pos heq]
    exact ⟨p + 1, h.pass heq hc, rfl⟩
  · rw [if_neg heq, if_neg heq]
    exact ⟨p, h, rfl⟩

theorem lengthAt_eq (h : At text p fmt) : ∃ p', At text p' (parseLength fmt).2 ∧
    lengthAt text p = some ((parseLength fmt).1, p') := by
  rw [lengthAt, h.byte, parseLength]
  dsimp only
  by_cases hh : peek fmt = 'h'.toUInt8
  · rw [if_pos hh, if_pos hh]
    exact doubledAt_eq (h.pass hh (by decide)) (by decide) .h .hh
  · rw [if_neg hh, if_neg hh]
    by_cases hl : peek fmt = 'l'.toUInt8
    · rw [if_pos hl, if_pos hl]
      exact doubledAt_eq (h.pass hl (by decide)) (by decide) .l .ll
    · rw [if_neg hl, if_neg hl]
      repeat' split
      · rename_i hj
        exact ⟨p + 1, h.pass hj (by decide), rfl⟩
      · rename_i hz
        exact ⟨p + 1, h.pass hz (by decide), rfl⟩
      · rename_i ht
        exact ⟨p + 1, h.pass ht (by decide), rfl⟩
      · exact ⟨p, h, rfl⟩

/-- **All of a specification.** -/
theorem specAt_eq {fuel : Nat} (h : At text p fmt) (hlen : fmt.length < fuel)
    (args : List UInt64) : ∃ p', At text p' (parseSpec fmt args).2.1 ∧
      specAt text fuel p args = some ((parseSpec fmt args).1, p', (parseSpec fmt args).2.2) := by
  have hlen₁ := parseFlags_length fmt .none
  obtain ⟨p₁, h₁, heq₁⟩ := flagsAt_eq fuel .none h hlen
  rw [specAt, heq₁, parseSpec]
  generalize parseFlags fmt .none = r₁ at hlen₁ h₁
  obtain ⟨flags, fmt₁⟩ := r₁
  dsimp only at hlen₁ h₁ ⊢
  have hlen₂ := parseWidth_length fmt₁ flags args
  obtain ⟨p₂, h₂, heq₂⟩ := widthAt_eq h₁ (Nat.lt_of_le_of_lt hlen₁ hlen) flags args
  rw [heq₂]
  generalize parseWidth fmt₁ flags args = r₂ at hlen₂ h₂
  obtain ⟨width, flags, fmt₂, args⟩ := r₂
  dsimp only at hlen₂ h₂ ⊢
  have hlen₃ : fmt₂.length < fuel := by omega
  obtain ⟨p₃, h₃, heq₃⟩ := precisionAt_eq h₂ hlen₃ args
  rw [heq₃]
  generalize parsePrecision fmt₂ args = r₃ at h₃
  obtain ⟨precision, fmt₃, args⟩ := r₃
  dsimp only at h₃ ⊢
  obtain ⟨p₄, h₄, heq₄⟩ := lengthAt_eq h₃
  rw [heq₄]
  exact ⟨p₄, h₄, rfl⟩

end At

section Run

variable {text : List UInt8} {κ μ : Type} (o : Output UInt8 κ) (mem : Memory μ)

/-- What `_str` prints of a specification that is echoed. -/
def clip (echo : List UInt8) : List UInt8 := echo.take (int32 echo.length).toNat

theorem mem_conversions {c : UInt8} : c ∈ conversions ↔ c = 'd'.toUInt8 ∨ c = 'i'.toUInt8 ∨
    c = 'u'.toUInt8 ∨ c = 'o'.toUInt8 ∨ c = 'x'.toUInt8 ∨ c = 'X'.toUInt8 ∨ c = 'c'.toUInt8 ∨
    c = 's'.toUInt8 ∨ c = 'p'.toUInt8 ∨ c = 'n'.toUInt8 := by
  rw [show conversions = ['d'.toUInt8, 'i'.toUInt8, 'u'.toUInt8, 'o'.toUInt8, 'x'.toUInt8,
    'X'.toUInt8, 'c'.toUInt8, 's'.toUInt8, 'p'.toUInt8, 'n'.toUInt8] from rfl]
  simp only [List.mem_cons, List.not_mem_nil, or_false]

/-- The conversions do not look at the specification, and take one argument. -/
theorem convert_of_mem {c : UInt8} (h : c ∈ conversions) (sp : Spec) (echo : List UInt8)
    (s : Printer κ μ) : convert o mem c sp echo s = convert o mem c sp [] s ∧
      (convert o mem c sp echo s).args = s.args.tail := by
  have hcase : ∀ (p : Prop) [Decidable p] {a x y : Printer κ μ}, a.args = s.args.tail →
      (¬ p → x = y ∧ x.args = s.args.tail) →
      (if p then a else x) = (if p then a else y) ∧ (if p then a else x).args = s.args.tail := by
    intro p _ a x y ha hx
    by_cases hp : p
    · rw [if_pos hp, if_pos hp]
      exact ⟨rfl, ha⟩
    · rw [if_neg hp, if_neg hp]
      exact hx hp
  unfold convert
  dsimp only
  refine hcase _ rfl fun hdi => hcase _ rfl fun hu => hcase _ rfl fun ho => hcase _ rfl fun hx =>
    hcase _ rfl fun hX => hcase _ rfl fun hc => hcase _ rfl fun hs => hcase _ rfl fun hp =>
      hcase _ rfl fun hn => ?_
  obtain h | h | h | h | h | h | h | h | h | h := mem_conversions.mp h
  · exact absurd (.inl h) hdi
  · exact absurd (.inr h) hdi
  · exact absurd h hu
  · exact absurd h ho
  · exact absurd h hx
  · exact absurd h hX
  · exact absurd h hc
  · exact absurd h hs
  · exact absurd h hp
  · exact absurd h hn

/-- Any other character echoes it. -/
theorem convert_of_not_mem {c : UInt8} (h : c ∉ conversions) (sp : Spec) (echo : List UInt8)
    (s : Printer κ μ) :
    convert o mem c sp echo s = { s with out := o.puts s.out (clip echo) } := by
  have hne : ∀ c' ∈ conversions, c ≠ c' := by
    rintro c' hc' rfl
    exact h hc'
  unfold convert
  rw [if_neg (not_or.mpr ⟨hne _ (by decide), hne _ (by decide)⟩), if_neg (hne _ (by decide)),
    if_neg (hne _ (by decide)), if_neg (hne _ (by decide)), if_neg (hne _ (by decide)),
    if_neg (hne _ (by decide)), if_neg (hne _ (by decide)), if_neg (hne _ (by decide)),
    if_neg (hne _ (by decide))]
  rfl

/-- **The `switch (spec)`.** -/
theorem convertAt_eq {start p : Nat} {fmt rest : List UInt8} (hstart : At text start fmt)
    (hp : At text p rest) (hle : rest.length ≤ fmt.length) (c : UInt8) (sp : Spec)
    (s : Printer κ μ) : convertAt text o mem c sp start p s =
      some (convert o mem c sp (fmt.take (fmt.length - rest.length)) s) := by
  have hlen₁ := hstart.length
  have hlen₂ := hp.length
  have hcount : p - start = fmt.length - rest.length := by omega
  have hecho : (fmt.take (fmt.length - rest.length)).length = fmt.length - rest.length := by
    rw [List.length_take]
    omega
  unfold convertAt
  by_cases hmem : c ∈ conversions
  · rw [if_pos hmem, (convert_of_mem o mem hmem sp (fmt.take _) s).1]
  · rw [if_neg hmem, convert_of_not_mem o mem hmem, hcount, clip, hecho, List.take_take]
    have hfits : (int32 (fmt.length - rest.length : Nat)).toNat ≤ fmt.length - rest.length := by
      rw [int32, Int.bmod_def]
      split <;> omega
    rw [hstart.bytes _ (by omega), Nat.min_eq_left hfits]
    rfl

/-- **`_vprintkl` by its pointer** does what the formatter over lists does: with
more fuel than there are bytes it ends, and reads none behind the NUL. -/
theorem vprintklAt_eq : ∀ (fuel : Nat) {p : Nat} {fmt : List UInt8} (s : Printer κ μ),
    At text p fmt → fmt.length < fuel →
    vprintklAt text o mem fuel p s = some (formatLoop o mem fuel fmt s) := by
  intro fuel
  induction fuel with
  | zero => intro p fmt s _ h; exact absurd h (Nat.not_lt_zero _)
  | succ fuel ih =>
      intro p fmt s h hlen
      have htail : fmt.tail.length = fmt.length - 1 := List.length_tail
      rw [vprintklAt, h.byte, formatLoop]
      dsimp only
      by_cases hend : peek fmt = 0
      · rw [if_pos hend, if_pos hend]
      · rw [if_neg hend, if_neg hend]
        have hnext := h.pass rfl hend
        have hpos : 0 < fmt.length := by
          refine List.length_pos_iff.mpr ?_
          rintro rfl
          exact hend rfl
        by_cases hpercent : peek fmt ≠ '%'.toUInt8
        · rw [if_pos hpercent, if_pos hpercent]
          exact ih _ hnext (by omega)
        · rw [if_neg hpercent, if_neg hpercent, hnext.byte]
          dsimp only
          by_cases htwice : peek fmt.tail = '%'.toUInt8
          · rw [if_pos htwice, if_pos htwice]
            refine ih _ (hnext.pass htwice (by decide)) ?_
            rw [List.length_tail]
            omega
          · rw [if_neg htwice, if_neg htwice]
            have hspec := parseSpec_length fmt.tail s.args
            have hfuel : fmt.tail.length < fuel := by omega
            obtain ⟨p', h', heq⟩ := specAt_eq hnext hfuel s.args
            rw [heq]
            generalize parseSpec fmt.tail s.args = r at hspec h'
            obtain ⟨sp, rest, args⟩ := r
            dsimp only at hspec h' ⊢
            rw [h'.byte]
            dsimp only
            by_cases hnul : peek rest = 0
            · rw [if_pos hnul, if_pos hnul]
            · rw [if_neg hnul, if_neg hnul]
              have hafter := h'.pass rfl hnul
              have hshort : rest.tail.length ≤ fmt.length := by
                rw [List.length_tail]
                omega
              rw [convertAt_eq o mem h hafter hshort]
              refine ih _ hafter ?_
              rw [List.length_tail]
              omega

end Run

end DevOS.Printk
