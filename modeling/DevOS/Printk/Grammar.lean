import DevOS.Printk.Buffer
import DevOS.Printk.Pointer

/-!
# Printk — the grammar of format strings

A format string is a sequence of literals, `%%` and specifications
`%[-+ #0]*(digits|*)?(.(digits|*)?)?(hh|h|l|ll|j|z|t)?c`, and at its end perhaps a
specification without its character. Each part of a specification is as long as
it can be, which leaves one way to split a string. `_vprintkl` reads a string
this way, up to what it prints of a specification it does not know: the length
of that is converted to `int`.
-/

namespace DevOS.Printk

open DevOS.Lib

/-! ## Specifications -/

/-- `[-+ #0]`. -/
def isFlag (c : UInt8) : Bool := c ∈ literal "-+ #0"

/-- `[0-9]`. -/
def isDigit (c : UInt8) : Bool := '0'.toUInt8 ≤ c ∧ c ≤ '9'.toUInt8

/-- `(digits|*)?`, without digits when there is nothing. -/
inductive Number where
  | digits (ds : List UInt8) (hds : ∀ d ∈ ds, isDigit d = true)
  | star

def Number.text : Number → List UInt8
  | .digits ds _ => ds
  | .star => ['*'.toUInt8]

/-- How many arguments it takes. -/
def Number.stars : Number → Nat
  | .digits _ _ => 0
  | .star => 1

/-- It goes as far as it can before what follows. -/
def Number.Greedy : Number → (after : List UInt8) → Prop
  | .digits ds _, after => isDigit (peek after) = false ∧ (ds = [] → peek after ≠ '*'.toUInt8)
  | .star, _ => True

/-- `(.(digits|*)?)?`. -/
structure Precision where
  number : Option Number

def Precision.text : Precision → List UInt8
  | ⟨none⟩ => []
  | ⟨some n⟩ => '.'.toUInt8 :: n.text

def Precision.stars : Precision → Nat
  | ⟨none⟩ => 0
  | ⟨some n⟩ => n.stars

def Precision.Greedy : Precision → (after : List UInt8) → Prop
  | ⟨none⟩, after => peek after ≠ '.'.toUInt8
  | ⟨some n⟩, after => n.Greedy after

/-- `(hh|h|l|ll|j|z|t)?`. -/
def Length.text : Length → List UInt8
  | .none => []
  | .hh => ['h'.toUInt8, 'h'.toUInt8]
  | .h => ['h'.toUInt8]
  | .l => ['l'.toUInt8]
  | .ll => ['l'.toUInt8, 'l'.toUInt8]
  | .j => ['j'.toUInt8]
  | .z => ['z'.toUInt8]
  | .t => ['t'.toUInt8]

def Length.Greedy : Length → (after : List UInt8) → Prop
  | .none, after => peek after ∉ literal "hljzt"
  | .h, after => peek after ≠ 'h'.toUInt8
  | .l, after => peek after ≠ 'l'.toUInt8
  | .hh, _ | .ll, _ | .j, _ | .z, _ | .t, _ => True

/-- A specification between its `%` and its character. -/
structure SpecText where
  flags : List UInt8
  flags_ok : ∀ c ∈ flags, isFlag c = true
  width : Number
  precision : Precision
  length : Length

def SpecText.text (sp : SpecText) : List UInt8 :=
  sp.flags ++ (sp.width.text ++ (sp.precision.text ++ sp.length.text))

/-- One argument for each `*`. -/
def SpecText.stars (sp : SpecText) : Nat := sp.width.stars + sp.precision.stars

structure SpecText.Greedy (sp : SpecText) (after : List UInt8) : Prop where
  flags : isFlag (peek (sp.width.text ++ (sp.precision.text ++ (sp.length.text ++ after)))) = false
  width : sp.width.Greedy (sp.precision.text ++ (sp.length.text ++ after))
  precision : sp.precision.Greedy (sp.length.text ++ after)
  length : sp.length.Greedy after

theorem SpecText.text_append (sp : SpecText) (after : List UInt8) : sp.text ++ after =
    sp.flags ++ (sp.width.text ++ (sp.precision.text ++ (sp.length.text ++ after))) := by
  simp only [SpecText.text, List.append_assoc]

/-! ## Strings -/

/-- A part of a format string. -/
inductive Piece where
  | char (c : UInt8)
  | percent
  | spec (sp : SpecText) (c : UInt8)

/-- The whole specification. -/
def SpecText.whole (sp : SpecText) (c : UInt8) : List UInt8 := '%'.toUInt8 :: (sp.text ++ [c])

/-- The string is these pieces, and perhaps an incomplete specification. -/
inductive Split : List UInt8 → List Piece → Option SpecText → Prop
  | nil : Split [] [] none
  | char {c : UInt8} {fmt : List UInt8} {ps : List Piece} {t : Option SpecText}
      (hc : c ≠ '%'.toUInt8) (h : Split fmt ps t) : Split (c :: fmt) (.char c :: ps) t
  | percent {fmt : List UInt8} {ps : List Piece} {t : Option SpecText} (h : Split fmt ps t) :
      Split ('%'.toUInt8 :: '%'.toUInt8 :: fmt) (.percent :: ps) t
  | spec {sp : SpecText} {c : UInt8} {fmt : List UInt8} {ps : List Piece} {t : Option SpecText}
      (hne : peek (sp.text ++ c :: fmt) ≠ '%'.toUInt8) (hgreedy : sp.Greedy (c :: fmt))
      (h : Split fmt ps t) : Split ('%'.toUInt8 :: (sp.text ++ c :: fmt)) (.spec sp c :: ps) t
  | incomplete {sp : SpecText} (hne : peek sp.text ≠ '%'.toUInt8) (hgreedy : sp.Greedy []) :
      Split ('%'.toUInt8 :: sp.text) [] (some sp)

/-! ## What the pieces stand for -/

/-- What a flag character sets. -/
def setFlag (flags : Flags) (c : UInt8) : Flags :=
  if c = '-'.toUInt8 then { flags with leftJustify := true }
  else if c = '+'.toUInt8 then { flags with alwaysSign := true }
  else if c = ' '.toUInt8 then { flags with signPad := true }
  else if c = '#'.toUInt8 then { flags with prefixed := true }
  else { flags with zeroPad := true }

/-- A decimal number, as an `int`. -/
def decimal (ds : List UInt8) : Int :=
  ds.foldl (fun n d => int32 (n * 10 + (d.toNat - '0'.toNat))) 0

/-- The width, and the flags with it: `*` stands for the argument, which is
negative for left justification. -/
def Number.width (flags : Flags) (args : List UInt64) : Number → Int × Flags
  | .digits ds _ => (decimal ds, flags)
  | .star =>
      let width := int32 (args.headD 0).toNat
      if width < 0 then (int32 (-width), { flags with leftJustify := true }) else (width, flags)

/-- The precision, -1 for none. -/
def Precision.value (args : List UInt64) : Precision → Int
  | ⟨none⟩ => -1
  | ⟨some (.digits ds _)⟩ => decimal ds
  | ⟨some .star⟩ =>
      let precision := int32 (args.headD 0).toNat
      if precision < 0 then -1 else precision

/-- What the specification says, with the arguments for its stars. -/
def SpecText.spec (sp : SpecText) (args : List UInt64) : Spec :=
  let (width, flags) := sp.width.width (sp.flags.foldl setFlag .none) args
  ⟨flags, width, sp.precision.value (args.drop sp.width.stars), sp.length⟩

section Meaning

variable {κ μ : Type} (o : Output UInt8 κ) (mem : Memory μ) (echo : List UInt8 → List UInt8)

/-- What a piece does. A specification takes an argument for each star, and one
for its conversion; one that is not known takes no other and is echoed. -/
def Piece.run (s : Printer κ μ) : Piece → Printer κ μ
  | .char c => { s with out := o.put s.out c }
  | .percent => { s with out := o.put s.out '%'.toUInt8 }
  | .spec sp c =>
      let args := s.args.drop sp.stars
      if c ∈ conversions then convert o mem c (sp.spec s.args) [] { s with args := args }
      else { s with args := args, out := o.puts s.out (echo (sp.whole c)) }

/-- An incomplete specification prints nothing. -/
def runTail (s : Printer κ μ) : Option SpecText → Printer κ μ
  | none => s
  | some sp => { s with args := s.args.drop sp.stars }

/-- What a string does, from left to right. -/
def runPieces (ps : List Piece) (t : Option SpecText) (s : Printer κ μ) : Printer κ μ :=
  runTail (ps.foldl (Piece.run o mem echo) s) t

theorem runPieces_nil (t : Option SpecText) (s : Printer κ μ) :
    runPieces o mem echo [] t s = runTail s t := rfl

theorem runPieces_cons (piece : Piece) (ps : List Piece) (t : Option SpecText) (s : Printer κ μ) :
    runPieces o mem echo (piece :: ps) t s =
      runPieces o mem echo ps t (piece.run o mem echo s) := rfl

end Meaning

/-- How many arguments a piece takes. -/
def Piece.takes : Piece → Nat
  | .char _ | .percent => 0
  | .spec sp c => sp.stars + if c ∈ conversions then 1 else 0

/-- How many arguments a string takes. -/
def takes (ps : List Piece) (t : Option SpecText) : Nat :=
  (ps.map Piece.takes).sum + (t.map SpecText.stars).getD 0

/-! ## The parser on the grammar -/

theorem parseFlags_greedy {rest : List UInt8} (hrest : isFlag (peek rest) = false) :
    ∀ (flags : List UInt8) (fl : Flags), (∀ c ∈ flags, isFlag c = true) →
    parseFlags (flags ++ rest) fl = (flags.foldl setFlag fl, rest) := by
  intro flags
  induction flags with
  | nil =>
      intro fl _
      cases rest with
      | nil => rfl
      | cons c rest =>
          have hc : ∀ c' ∈ literal "-+ #0", c ≠ c' := by
            rintro c' hc' rfl
            exact absurd hc' (of_decide_eq_false hrest)
          rw [List.nil_append, parseFlags, if_neg (hc _ (by decide)), if_neg (hc _ (by decide)),
            if_neg (hc _ (by decide)), if_neg (hc _ (by decide)), if_neg (hc _ (by decide))]
          rfl
  | cons c flags ih =>
      intro fl hflags
      have hc : c ∈ literal "-+ #0" := of_decide_eq_true (hflags c List.mem_cons_self)
      have hih := fun fl => ih fl fun c' hc' => hflags c' (List.mem_cons_of_mem _ hc')
      rw [List.cons_append, parseFlags, hih, hih, hih, hih, hih, List.foldl_cons, setFlag]
      repeat' split
      · rfl
      · rfl
      · rfl
      · rfl
      · rfl
      · simp_all [literal]

theorem parseDigits_greedy {rest : List UInt8} (hrest : isDigit (peek rest) = false) :
    ∀ (ds : List UInt8) (n : Int), (∀ d ∈ ds, isDigit d = true) →
    parseDigits (ds ++ rest) n =
      (ds.foldl (fun n d => int32 (n * 10 + (d.toNat - '0'.toNat))) n, rest) := by
  intro ds
  induction ds with
  | nil =>
      intro n _
      cases rest with
      | nil => rfl
      | cons c rest =>
          have hc : ¬ ('0'.toUInt8 ≤ c ∧ c ≤ '9'.toUInt8) := of_decide_eq_false hrest
          rw [List.nil_append, parseDigits, if_neg hc]
          rfl
  | cons d ds ih =>
      intro n hds
      rw [List.cons_append, parseDigits,
        if_pos (of_decide_eq_true (hds d List.mem_cons_self)),
        ih _ fun d' hd' => hds d' (List.mem_cons_of_mem _ hd')]
      rfl

theorem isDigit_ne_star {d : UInt8} (h : isDigit d = true) : d ≠ '*'.toUInt8 := by
  rintro rfl
  exact absurd h (by decide)

/-- Digits that go as far as they can do not begin with a star. -/
theorem digits_not_star {ds rest : List UInt8} (hds : ∀ d ∈ ds, isDigit d = true)
    (hstar : ds = [] → peek rest ≠ '*'.toUInt8) : peek (ds ++ rest) ≠ '*'.toUInt8 := by
  cases ds with
  | nil => exact hstar rfl
  | cons d ds => exact isDigit_ne_star (hds d List.mem_cons_self)

theorem parseWidth_greedy {n : Number} {rest : List UInt8} (h : n.Greedy rest) (flags : Flags)
    (args : List UInt64) : parseWidth (n.text ++ rest) flags args =
      ((n.width flags args).1, (n.width flags args).2, rest, args.drop n.stars) := by
  cases n with
  | digits ds hds =>
      obtain ⟨hdigit, hstar⟩ := h
      have hpeek : peek (Number.text (.digits ds hds) ++ rest) ≠ '*'.toUInt8 :=
        digits_not_star hds hstar
      rw [parseWidth, if_neg hpeek, Number.text, parseDigits_greedy hdigit ds 0 hds]
      rfl
  | star =>
      rw [parseWidth, if_pos (show peek (Number.text .star ++ rest) = '*'.toUInt8 from rfl),
        Number.width, Number.stars, List.drop_one]
      generalize int32 (args.headD 0).toNat = width
      by_cases hneg : width < 0
      · simp only [if_pos hneg]
        rfl
      · simp only [if_neg hneg]
        rfl

theorem parsePrecision_greedy {n : Precision} {rest : List UInt8} (h : n.Greedy rest)
    (args : List UInt64) : parsePrecision (n.text ++ rest) args =
      (n.value args, rest, args.drop n.stars) := by
  obtain ⟨_ | n⟩ := n
  · have hpeek : peek (Precision.text ⟨none⟩ ++ rest) ≠ '.'.toUInt8 := h
    rw [parsePrecision, if_neg hpeek]
    rfl
  · have hpeek : peek (Precision.text ⟨some n⟩ ++ rest) = '.'.toUInt8 := rfl
    rw [parsePrecision, if_pos hpeek]
    cases n with
    | digits ds hds =>
        obtain ⟨hdigit, hstar⟩ := h
        have hpeek' : peek (Precision.text ⟨some (.digits ds hds)⟩ ++ rest).tail ≠ '*'.toUInt8 :=
          digits_not_star hds hstar
        have htail : (Precision.text ⟨some (.digits ds hds)⟩ ++ rest).tail = ds ++ rest := rfl
        dsimp only
        rw [if_neg hpeek', htail, parseDigits_greedy hdigit ds 0 hds]
        rfl
    | star =>
        dsimp only
        rw [if_pos (show peek (Precision.text ⟨some .star⟩ ++ rest).tail = '*'.toUInt8 from rfl),
          Precision.value, Precision.stars, Number.stars, List.drop_one]
        generalize int32 (args.headD 0).toNat = precision
        rfl

theorem parseLength_greedy {len : Length} {rest : List UInt8} (h : len.Greedy rest) :
    parseLength (len.text ++ rest) = (len, rest) := by
  cases len with
  | none =>
      have hne : ∀ c' ∈ literal "hljzt", peek rest ≠ c' := by
        rintro c' hc' heq
        exact h (heq ▸ hc')
      rw [Length.text, List.nil_append, parseLength, if_neg (hne _ (by decide)),
        if_neg (hne _ (by decide)), if_neg (hne _ (by decide)), if_neg (hne _ (by decide)),
        if_neg (hne _ (by decide))]
  | h => exact if_neg h
  | l => exact if_neg h
  | hh => rfl
  | ll => rfl
  | j => rfl
  | z => rfl
  | t => rfl

/-- **The parser reads a specification** of the grammar for what it says. -/
theorem parseSpec_greedy {sp : SpecText} {after : List UInt8} (h : sp.Greedy after)
    (args : List UInt64) :
    parseSpec (sp.text ++ after) args = (sp.spec args, after, args.drop sp.stars) := by
  rw [parseSpec, sp.text_append, parseFlags_greedy h.flags _ _ sp.flags_ok]
  dsimp only
  rw [parseWidth_greedy h.width]
  dsimp only
  rw [parsePrecision_greedy h.precision]
  dsimp only
  rw [parseLength_greedy h.length, List.drop_drop]
  rfl

/-! ## Every string splits in one way -/

/-- As many bytes with a property as there are. -/
theorem exists_span {p : UInt8 → Bool} (hp : p 0 = false) (fmt : List UInt8) :
    ∃ xs rest, (∀ c ∈ xs, p c = true) ∧ p (peek rest) = false ∧ fmt = xs ++ rest := by
  induction fmt with
  | nil => exact ⟨[], [], fun _ hc => absurd hc List.not_mem_nil, hp, rfl⟩
  | cons c fmt ih =>
      cases hc : p c with
      | false => exact ⟨[], c :: fmt, fun _ hc => absurd hc List.not_mem_nil, hc, rfl⟩
      | true =>
          obtain ⟨xs, rest, hxs, hrest, rfl⟩ := ih
          refine ⟨c :: xs, rest, fun c' hc' => ?_, hrest, rfl⟩
          obtain rfl | hc' := List.mem_cons.mp hc'
          · exact hc
          · exact hxs c' hc'

/-- A string that begins with a byte other than NUL. -/
theorem eq_cons_of_peek {fmt : List UInt8} {c : UInt8} (h : peek fmt = c) (hc : c ≠ 0) :
    fmt = c :: fmt.tail := by
  cases fmt with
  | nil => exact absurd h.symm hc
  | cons c' fmt => rw [← h]; rfl

theorem exists_number (fmt : List UInt8) :
    ∃ (n : Number) (rest : List UInt8), n.Greedy rest ∧ fmt = n.text ++ rest := by
  by_cases hstar : peek fmt = '*'.toUInt8
  · exact ⟨.star, fmt.tail, trivial, eq_cons_of_peek hstar (by decide)⟩
  · obtain ⟨ds, rest, hds, hrest, rfl⟩ := exists_span (p := isDigit) (by decide) fmt
    refine ⟨.digits ds hds, rest, ⟨hrest, ?_⟩, rfl⟩
    rintro rfl
    exact hstar

theorem exists_precision (fmt : List UInt8) :
    ∃ (n : Precision) (rest : List UInt8), n.Greedy rest ∧ fmt = n.text ++ rest := by
  by_cases hdot : peek fmt = '.'.toUInt8
  · obtain ⟨n, rest, hgreedy, heq⟩ := exists_number fmt.tail
    refine ⟨⟨some n⟩, rest, hgreedy, ?_⟩
    rw [eq_cons_of_peek hdot (by decide), heq]
    rfl
  · exact ⟨⟨none⟩, fmt, hdot, rfl⟩

theorem exists_length (fmt : List UInt8) :
    ∃ (len : Length) (rest : List UInt8), len.Greedy rest ∧ fmt = len.text ++ rest := by
  by_cases hmem : peek fmt ∈ literal "hljzt"
  · have hcons : fmt = peek fmt :: fmt.tail := eq_cons_of_peek rfl fun h0 => by
      rw [h0] at hmem
      exact absurd hmem (by decide)
    have hcases : peek fmt = 'h'.toUInt8 ∨ peek fmt = 'l'.toUInt8 ∨ peek fmt = 'j'.toUInt8 ∨
        peek fmt = 'z'.toUInt8 ∨ peek fmt = 't'.toUInt8 := by
      simpa [literal] using hmem
    obtain h | h | h | h | h := hcases
    · rw [h] at hcons
      by_cases htwice : peek fmt.tail = 'h'.toUInt8
      · refine ⟨.hh, fmt.tail.tail, trivial, ?_⟩
        rw [hcons, eq_cons_of_peek htwice (by decide)]
        rfl
      · exact ⟨.h, fmt.tail, htwice, hcons⟩
    · rw [h] at hcons
      by_cases htwice : peek fmt.tail = 'l'.toUInt8
      · refine ⟨.ll, fmt.tail.tail, trivial, ?_⟩
        rw [hcons, eq_cons_of_peek htwice (by decide)]
        rfl
      · exact ⟨.l, fmt.tail, htwice, hcons⟩
    · rw [h] at hcons
      exact ⟨.j, fmt.tail, trivial, hcons⟩
    · rw [h] at hcons
      exact ⟨.z, fmt.tail, trivial, hcons⟩
    · rw [h] at hcons
      exact ⟨.t, fmt.tail, trivial, hcons⟩
  · exact ⟨.none, fmt, hmem, rfl⟩

/-- Every string begins with a specification, perhaps an empty one. -/
theorem exists_spec (fmt : List UInt8) :
    ∃ (sp : SpecText) (after : List UInt8), sp.Greedy after ∧ fmt = sp.text ++ after := by
  obtain ⟨flags, rest, hflags, hflag, rfl⟩ := exists_span (p := isFlag) (by decide) fmt
  obtain ⟨width, rest, hwidth, rfl⟩ := exists_number rest
  obtain ⟨precision, rest, hprecision, rfl⟩ := exists_precision rest
  obtain ⟨len, after, hlength, rfl⟩ := exists_length rest
  exact ⟨⟨flags, hflags, width, precision, len⟩, after, ⟨hflag, hwidth, hprecision, hlength⟩,
    (SpecText.text_append ⟨flags, hflags, width, precision, len⟩ after).symm⟩

/-- **Every string splits.** -/
theorem exists_split : ∀ (n : Nat) (fmt : List UInt8), fmt.length ≤ n → ∃ ps t, Split fmt ps t := by
  intro n
  induction n with
  | zero =>
      intro fmt h
      rw [List.length_eq_zero_iff.mp (Nat.le_zero.mp h)]
      exact ⟨[], none, .nil⟩
  | succ n ih =>
      intro fmt h
      cases fmt with
      | nil => exact ⟨[], none, .nil⟩
      | cons c fmt =>
          have hlen : fmt.length ≤ n := Nat.le_of_succ_le_succ h
          by_cases hc : c = '%'.toUInt8
          · by_cases htwice : peek fmt = '%'.toUInt8
            · obtain ⟨ps, t, hsplit⟩ := ih fmt.tail (by rw [List.length_tail]; omega)
              rw [hc, eq_cons_of_peek htwice (by decide)]
              exact ⟨_, _, .percent hsplit⟩
            · obtain ⟨sp, after, hgreedy, rfl⟩ := exists_spec fmt
              rw [hc]
              cases after with
              | nil =>
                  rw [List.append_nil] at htwice ⊢
                  exact ⟨_, _, .incomplete htwice hgreedy⟩
              | cons c' after =>
                  rw [List.length_append, List.length_cons] at hlen
                  obtain ⟨ps, t, hsplit⟩ := ih after (by omega)
                  exact ⟨_, _, .spec htwice hgreedy hsplit⟩
          · obtain ⟨ps, t, hsplit⟩ := ih fmt hlen
            exact ⟨_, _, .char hc hsplit⟩

theorem Number.text_injective {n n' : Number} (h : n.text = n'.text) : n = n' := by
  have hno : ∀ {ds : List UInt8}, (∀ d ∈ ds, isDigit d = true) → ds ≠ ['*'.toUInt8] := by
    rintro ds hds rfl
    exact isDigit_ne_star (hds _ List.mem_cons_self) rfl
  cases n with
  | digits ds hds =>
      cases n' with
      | digits ds' hds' =>
          obtain rfl : ds = ds' := h
          rfl
      | star => exact absurd h (hno hds)
  | star =>
      cases n' with
      | digits ds' hds' => exact absurd h.symm (hno hds')
      | star => rfl

theorem Precision.text_injective {n n' : Precision} (h : n.text = n'.text) : n = n' := by
  obtain ⟨_ | n⟩ := n <;> obtain ⟨_ | n'⟩ := n'
  · rfl
  · cases h
  · cases h
  · rw [Number.text_injective (List.cons.inj h).2]

/-- **A specification that goes as far as it can is the only one.** -/
theorem SpecText.Greedy.unique {sp sp' : SpecText} {after after' : List UInt8}
    (h : sp.Greedy after) (h' : sp'.Greedy after') (heq : sp.text ++ after = sp'.text ++ after') :
    sp = sp' ∧ after = after' := by
  obtain ⟨flags, hflags, width, precision, len⟩ := sp
  obtain ⟨flags', hflags', width', precision', len'⟩ := sp'
  obtain ⟨hf, hw, hp, hl⟩ := h
  obtain ⟨hf', hw', hp', hl'⟩ := h'
  rw [SpecText.text_append, SpecText.text_append] at heq
  dsimp only at hf hw hp hl hf' hw' hp' hl' heq
  -- the parser leaves the same behind each part
  have hrest₁ := congrArg (fun fmt => (parseFlags fmt .none).2) heq
  rw [parseFlags_greedy hf _ _ hflags, parseFlags_greedy hf' _ _ hflags'] at hrest₁
  dsimp only at hrest₁
  have hrest₂ := congrArg (fun fmt => (parseWidth fmt .none []).2.2.1) hrest₁
  rw [parseWidth_greedy hw, parseWidth_greedy hw'] at hrest₂
  dsimp only at hrest₂
  have hrest₃ := congrArg (fun fmt => (parsePrecision fmt []).2.1) hrest₂
  rw [parsePrecision_greedy hp, parsePrecision_greedy hp'] at hrest₃
  dsimp only at hrest₃
  have hrest₄ := congrArg parseLength hrest₃
  rw [parseLength_greedy hl, parseLength_greedy hl'] at hrest₄
  -- so the parts are the same
  obtain ⟨rfl, rfl⟩ := Prod.mk.inj hrest₄
  rw [hrest₁] at heq
  rw [hrest₂] at hrest₁
  obtain rfl := Precision.text_injective (List.append_cancel_right hrest₂)
  obtain rfl := Number.text_injective (List.append_cancel_right hrest₁)
  obtain rfl := List.append_cancel_right heq
  exact ⟨rfl, rfl⟩

/-- **A string splits in one way.** -/
theorem Split.unique {fmt : List UInt8} {ps : List Piece} {t : Option SpecText}
    (h : Split fmt ps t) : ∀ {ps' : List Piece} {t' : Option SpecText}, Split fmt ps' t' →
    ps' = ps ∧ t' = t := by
  induction h with
  | nil =>
      intro ps' t' h'
      cases h'
      exact ⟨rfl, rfl⟩
  | char hc _ ih =>
      intro ps' t' h'
      cases h' with
      | char _ h' =>
          obtain ⟨rfl, rfl⟩ := ih h'
          exact ⟨rfl, rfl⟩
      | percent => exact absurd rfl hc
      | spec => exact absurd rfl hc
      | incomplete => exact absurd rfl hc
  | @percent fmt ps t _ ih =>
      intro ps' t' h'
      generalize htext : '%'.toUInt8 :: fmt = text at h'
      have hpeek : peek text = '%'.toUInt8 := by rw [← htext]; rfl
      cases h' with
      | char hc => exact absurd rfl hc
      | percent h' =>
          obtain ⟨-, rfl⟩ := List.cons.inj htext
          obtain ⟨rfl, rfl⟩ := ih h'
          exact ⟨rfl, rfl⟩
      | spec hne => exact absurd hpeek hne
      | incomplete hne => exact absurd hpeek hne
  | @spec sp c fmt ps t hne hgreedy _ ih =>
      intro ps' t' h'
      generalize htext : sp.text ++ c :: fmt = text at h' hne
      cases h' with
      | char hc => exact absurd rfl hc
      | percent => exact absurd rfl hne
      | spec hne' hgreedy' h' =>
          obtain ⟨rfl, hafter⟩ := hgreedy.unique hgreedy' htext
          obtain ⟨rfl, rfl⟩ := List.cons.inj hafter
          obtain ⟨rfl, rfl⟩ := ih h'
          exact ⟨rfl, rfl⟩
      | @incomplete sp' hne' hgreedy' =>
          rw [← List.append_nil sp'.text] at htext
          cases (hgreedy.unique hgreedy' htext).2
  | @incomplete sp hne hgreedy =>
      intro ps' t' h'
      generalize htext : sp.text = text at h' hne
      cases h' with
      | char hc => exact absurd rfl hc
      | percent => exact absurd rfl hne
      | spec hne' hgreedy' h' =>
          rw [← List.append_nil sp.text] at htext
          cases (hgreedy.unique hgreedy' htext).2
      | @incomplete sp' hne' hgreedy' =>
          rw [← List.append_nil sp.text, ← List.append_nil sp'.text] at htext
          obtain ⟨rfl, -⟩ := hgreedy.unique hgreedy' htext
          exact ⟨rfl, rfl⟩

/-! ## The formatter on the pieces -/

section Run

variable {κ μ : Type} (o : Output UInt8 κ) (mem : Memory μ)

theorem run_spec (sp : SpecText) (c : UInt8) (s : Printer κ μ) :
    (Piece.spec sp c).run o mem clip s =
      convert o mem c (sp.spec s.args) (sp.whole c) { s with args := s.args.drop sp.stars } := by
  rw [Piece.run]
  by_cases hmem : c ∈ conversions
  · rw [if_pos hmem, (convert_of_mem o mem hmem _ (sp.whole c) _).1]
  · rw [if_neg hmem, convert_of_not_mem o mem hmem]

/-- **The formatter reads a string by its pieces**, and echoes what `_str`
prints. -/
theorem formatLoop_split {fmt : List UInt8} {ps : List Piece} {t : Option SpecText}
    (h : Split fmt ps t) (hnul : 0 ∉ fmt) : ∀ (fuel : Nat) (s : Printer κ μ), fmt.length ≤ fuel →
    formatLoop o mem fuel fmt s = runPieces o mem clip ps t s := by
  induction h with
  | nil =>
      intro fuel s _
      cases fuel with
      | zero => rfl
      | succ fuel => rfl
  | @char c fmt ps t hc _ ih =>
      intro fuel s hlen
      obtain ⟨fuel, rfl⟩ : ∃ m, fuel = m + 1 := ⟨fuel - 1, by rw [List.length_cons] at hlen; omega⟩
      have hc0 : peek (c :: fmt) ≠ 0 := fun h0 => hnul (h0 ▸ List.mem_cons_self)
      have hrest : 0 ∉ fmt := fun h0 => hnul (List.mem_cons_of_mem _ h0)
      rw [formatLoop, if_neg hc0, if_pos (show peek (c :: fmt) ≠ '%'.toUInt8 from hc)]
      exact ih hrest fuel _ (Nat.le_of_succ_le_succ hlen)
  | @percent fmt ps t _ ih =>
      intro fuel s hlen
      rw [List.length_cons, List.length_cons] at hlen
      obtain ⟨fuel, rfl⟩ : ∃ m, fuel = m + 1 := ⟨fuel - 1, by omega⟩
      have hrest : 0 ∉ fmt := fun h0 => hnul (List.mem_cons_of_mem _ (List.mem_cons_of_mem _ h0))
      have hpeek : peek ('%'.toUInt8 :: '%'.toUInt8 :: fmt) = '%'.toUInt8 := rfl
      rw [formatLoop, if_neg (by rw [hpeek]; decide), if_neg (not_not.mpr hpeek),
        if_pos (show peek ('%'.toUInt8 :: '%'.toUInt8 :: fmt).tail = '%'.toUInt8 from rfl)]
      exact ih hrest fuel _ (by omega)
  | @spec sp c fmt ps t hne hgreedy _ ih =>
      intro fuel s hlen
      rw [List.length_cons, List.length_append, List.length_cons] at hlen
      obtain ⟨fuel, rfl⟩ : ∃ m, fuel = m + 1 := ⟨fuel - 1, by omega⟩
      have hmem : ∀ x ∈ c :: fmt, x ∈ '%'.toUInt8 :: (sp.text ++ c :: fmt) := fun x hx =>
        List.mem_cons_of_mem _ (List.mem_append_right _ hx)
      have hc0 : peek (c :: fmt) ≠ 0 := fun h0 => hnul (h0 ▸ hmem c List.mem_cons_self)
      have hrest : 0 ∉ fmt := fun h0 => hnul (hmem 0 (List.mem_cons_of_mem _ h0))
      have hpeek : peek ('%'.toUInt8 :: (sp.text ++ c :: fmt)) = '%'.toUInt8 := rfl
      -- the bytes from the percent sign to the character
      have hwhole : ('%'.toUInt8 :: (sp.text ++ c :: fmt)).take
          (('%'.toUInt8 :: (sp.text ++ c :: fmt)).length - (c :: fmt).tail.length) =
          sp.whole c := by
        have hsplit : '%'.toUInt8 :: (sp.text ++ c :: fmt) = sp.whole c ++ fmt := by
          rw [SpecText.whole, List.cons_append, List.append_assoc, List.singleton_append]
        rw [hsplit, List.tail_cons, List.length_append, Nat.add_sub_cancel, List.take_left]
      rw [formatLoop, if_neg (by rw [hpeek]; decide), if_neg (not_not.mpr hpeek), List.tail_cons,
        if_neg hne, parseSpec_greedy hgreedy]
      dsimp only
      rw [if_neg hc0, hwhole, List.tail_cons, ih hrest fuel _ (by omega), runPieces_cons, run_spec]
      rfl
  | @incomplete sp hne hgreedy =>
      intro fuel s hlen
      obtain ⟨fuel, rfl⟩ : ∃ m, fuel = m + 1 := ⟨fuel - 1, by rw [List.length_cons] at hlen; omega⟩
      have hpeek : peek ('%'.toUInt8 :: sp.text) = '%'.toUInt8 := rfl
      rw [formatLoop, if_neg (by rw [hpeek]; decide), if_neg (not_not.mpr hpeek), List.tail_cons,
        if_neg hne]
      have hspec := parseSpec_greedy hgreedy s.args
      rw [List.append_nil] at hspec
      rw [hspec]
      rfl

theorem run_args (echo : List UInt8 → List UInt8) (piece : Piece) (s : Printer κ μ) :
    (piece.run o mem echo s).args = s.args.drop piece.takes := by
  cases piece with
  | char c => rfl
  | percent => rfl
  | spec sp c =>
      rw [Piece.run, Piece.takes]
      by_cases hmem : c ∈ conversions
      · rw [if_pos hmem, if_pos hmem, (convert_of_mem o mem hmem _ _ _).2, ← List.drop_drop,
          List.drop_one]
      · rw [if_neg hmem, if_neg hmem]
        rfl

/-- **The arguments are taken from left to right**, as many as the grammar
says. -/
theorem runPieces_args (echo : List UInt8 → List UInt8) (t : Option SpecText) :
    ∀ (ps : List Piece) (s : Printer κ μ),
    (runPieces o mem echo ps t s).args = s.args.drop (takes ps t) := by
  intro ps
  induction ps with
  | nil =>
      intro s
      cases t with
      | none => rfl
      | some sp =>
          show s.args.drop sp.stars = s.args.drop (0 + sp.stars)
          rw [Nat.zero_add]
  | cons piece ps ih =>
      intro s
      have hsum : takes (piece :: ps) t = piece.takes + takes ps t := by
        rw [takes, takes, List.map_cons, List.sum_cons, Nat.add_assoc]
      rw [hsum, ← List.drop_drop, ← run_args o mem echo piece s]
      exact ih (piece.run o mem echo s)

end Run

/-! ## The echo -/

theorem int32_toNat_lt {n : Nat} (h : 2 ^ 31 ≤ n) : (int32 n).toNat < n := by
  rw [int32, Int.bmod_def]
  split <;> omega

/-- What is echoed is the specification if it is shorter than `2 ^ 31` bytes. -/
theorem clip_of_lt {e : List UInt8} (h : e.length < 2 ^ 31) : clip e = e := by
  have hint : int32 e.length = e.length := Int.bmod_eq_of_le (by omega) (by omega)
  rw [clip, hint, Int.toNat_natCast, List.take_length]

theorem clip_length_le (e : List UInt8) : (clip e).length ≤ e.length := by
  rw [clip, List.length_take]
  exact Nat.min_le_right _ _

theorem clip_length_lt {e : List UInt8} (h : 2 ^ 31 ≤ e.length) : (clip e).length < e.length := by
  rw [clip, List.length_take]
  exact Nat.lt_of_le_of_lt (Nat.min_le_left _ _) (int32_toNat_lt h)

/-- The piece is no specification, or one that is known or short. -/
def Piece.Short : Piece → Prop
  | .char _ | .percent => True
  | .spec sp c => c ∉ conversions → (sp.whole c).length < 2 ^ 31

theorem Piece.Short.run_eq {κ μ : Type} (o : Output UInt8 κ) (mem : Memory μ) {piece : Piece}
    (h : piece.Short) (s : Printer κ μ) : piece.run o mem clip s = piece.run o mem id s := by
  cases piece with
  | char c => rw [Piece.run, Piece.run]
  | percent => rw [Piece.run, Piece.run]
  | spec sp c =>
      rw [Piece.run, Piece.run]
      by_cases hmem : c ∈ conversions
      · rw [if_pos hmem, if_pos hmem]
      · rw [if_neg hmem, if_neg hmem, clip_of_lt (h hmem), id]

theorem runPieces_short {κ μ : Type} (o : Output UInt8 κ) (mem : Memory μ)
    (t : Option SpecText) : ∀ (ps : List Piece) (s : Printer κ μ), (∀ p ∈ ps, p.Short) →
    runPieces o mem clip ps t s = runPieces o mem id ps t s := by
  intro ps
  induction ps with
  | nil => intro s _; rw [runPieces_nil, runPieces_nil]
  | cons piece ps ih =>
      intro s h
      rw [runPieces_cons, runPieces_cons, (h piece List.mem_cons_self).run_eq]
      exact ih _ fun p hp => h p (List.mem_cons_of_mem _ hp)

/-- The unbuffered output without its count. -/
def uncounted : Output UInt8 (List UInt8) := ⟨unbuffered.put, fun _ => 0⟩

/-- The second output is longer by so many bytes. -/
def Longer (d : Nat) (out out' : List UInt8) : Prop := out'.length = out.length + d

theorem Longer.push {d : Nat} {out out' : List UInt8} (h : Longer d out out') (c : UInt8) :
    Longer d (out ++ [c]) (out' ++ [c]) := by
  have hlen : out'.length = out.length + d := h
  rw [Longer, List.length_append, List.length_append, hlen, List.length_singleton]
  omega

theorem longer_simulates (d : Nat) : uncounted.Simulates uncounted (Longer d) where
  put := fun c h => h.push c
  len := fun _ => rfl

/-- Without a memory the count does not matter. -/
theorem convert_noMemory {κ : Type} (put : κ → UInt8 → κ) (len len' : κ → Int) (c : UInt8)
    (sp : Spec) (echo : List UInt8) (s : Printer κ Unit) :
    convert ⟨put, len⟩ noMemory c sp echo s = convert ⟨put, len'⟩ noMemory c sp echo s := rfl

theorem convert_uncounted (c : UInt8) (sp : Spec) (echo : List UInt8)
    (s : Printer (List UInt8) Unit) :
    convert unbuffered noMemory c sp echo s = convert uncounted noMemory c sp echo s :=
  convert_noMemory _ _ _ c sp echo s

/-- **A piece** that is not short is printed with less than it should. -/
theorem Piece.run_longer (piece : Piece) {d : Nat} {s s' : Printer (List UInt8) Unit}
    (h : InStep (Longer d) s s') : ∃ d', d ≤ d' ∧
    InStep (Longer d') (piece.run unbuffered noMemory clip s)
      (piece.run unbuffered noMemory id s') ∧ (d' = d → piece.Short) := by
  have hout : s'.out.length = s.out.length + d := h.out
  have hone : ∀ c : UInt8, Longer d (unbuffered.put s.out c) (unbuffered.put s'.out c) := fun c =>
    h.out.push c
  cases piece with
  | char c =>
      rw [Piece.run, Piece.run]
      exact ⟨d, Nat.le_refl _, ⟨hone c, h.args, rfl⟩, fun _ => trivial⟩
  | percent =>
      rw [Piece.run, Piece.run]
      exact ⟨d, Nat.le_refl _, ⟨hone _, h.args, rfl⟩, fun _ => trivial⟩
  | spec sp c =>
      rw [Piece.run, Piece.run, h.args]
      by_cases hmem : c ∈ conversions
      · rw [if_pos hmem, if_pos hmem, convert_uncounted, convert_uncounted]
        exact ⟨d, Nat.le_refl _, convert_sim (longer_simulates d) noMemory c _ []
          ⟨h.out, rfl, rfl⟩, fun _ hno => absurd hmem hno⟩
      · rw [if_neg hmem, if_neg hmem, id]
        have hle := clip_length_le (sp.whole c)
        have hlen : Longer (d + ((sp.whole c).length - (clip (sp.whole c)).length))
            (unbuffered.puts s.out (clip (sp.whole c))) (unbuffered.puts s'.out (sp.whole c)) := by
          rw [Longer, puts_unbuffered, puts_unbuffered, List.length_append, List.length_append]
          omega
        refine ⟨d + ((sp.whole c).length - (clip (sp.whole c)).length), Nat.le_add_right _ _,
          ⟨?_, rfl, rfl⟩, fun heq _ => ?_⟩
        · dsimp only
          exact hlen
        · by_contra hlong
          have hlt := clip_length_lt (Nat.le_of_not_lt hlong)
          omega

theorem runPieces_longer (t : Option SpecText) : ∀ (ps : List Piece) {d : Nat}
    {s s' : Printer (List UInt8) Unit}, InStep (Longer d) s s' → ∃ d', d ≤ d' ∧
    Longer d' (runPieces unbuffered noMemory clip ps t s).out
      (runPieces unbuffered noMemory id ps t s').out ∧ (d' = d → ∀ p ∈ ps, p.Short) := by
  intro ps
  induction ps with
  | nil =>
      intro d s s' h
      refine ⟨d, Nat.le_refl _, ?_, fun _ p hp => absurd hp List.not_mem_nil⟩
      rw [runPieces_nil, runPieces_nil]
      cases t with
      | none => exact h.out
      | some sp => exact h.out
  | cons piece ps ih =>
      intro d s s' h
      obtain ⟨d₁, hle₁, hstep, hshort⟩ := piece.run_longer h
      obtain ⟨d₂, hle₂, hout, hall⟩ := ih hstep
      rw [runPieces_cons, runPieces_cons]
      refine ⟨d₂, Nat.le_trans hle₁ hle₂, hout, fun heq p hp => ?_⟩
      obtain rfl | hp := List.mem_cons.mp hp
      · exact hshort (by omega)
      · exact hall (by omega) p hp

/-! ## The grammar is followed -/

/-- A string in memory, before its terminating NUL. -/
structure CString where
  bytes : List UInt8
  nul_free : 0 ∉ bytes

/-- `_vprintkl` does for the string what its pieces stand for, each
specification that is not known echoed as it stands. -/
def Follows (fmt : CString) (ps : List Piece) (t : Option SpecText) : Prop :=
  ∀ (κ μ : Type) (o : Output UInt8 κ) (mem : Memory μ) (s : Printer κ μ) (fuel : Nat),
    fmt.bytes.length < fuel →
    vprintklAt fmt.bytes o mem fuel 0 s = some (runPieces o mem id ps t s)

/-- **`_vprintkl` returns**, without a read behind the NUL. -/
theorem vprintklAt_split {fmt : CString} {ps : List Piece} {t : Option SpecText}
    (h : Split fmt.bytes ps t) {κ μ : Type} (o : Output UInt8 κ) (mem : Memory μ)
    (s : Printer κ μ) {fuel : Nat} (hfuel : fmt.bytes.length < fuel) :
    vprintklAt fmt.bytes o mem fuel 0 s = some (runPieces o mem clip ps t s) := by
  rw [vprintklAt_eq o mem fuel s (At.start _) hfuel,
    formatLoop_split o mem h fmt.nul_free fuel s (Nat.le_of_lt hfuel)]

theorem follows_iff {fmt : CString} {ps : List Piece} {t : Option SpecText}
    (h : Split fmt.bytes ps t) : Follows fmt ps t ↔ ∀ p ∈ ps, p.Short := by
  constructor
  · intro hfollows
    let s : Printer (List UInt8) Unit := ⟨[], [], ()⟩
    have hfuel : fmt.bytes.length < fmt.bytes.length + 1 := Nat.lt_succ_self _
    have heq := Option.some.inj ((vprintklAt_split h unbuffered noMemory s hfuel).symm.trans
      (hfollows _ _ unbuffered noMemory s _ hfuel))
    have hstep : InStep (Longer 0) s s := ⟨rfl, rfl, rfl⟩
    obtain ⟨d, -, hlonger, hshort⟩ := runPieces_longer t ps hstep
    rw [heq, Longer] at hlonger
    exact hshort (by omega)
  · intro hshort κ μ o mem s fuel hfuel
    rw [vprintklAt_split h o mem s hfuel, runPieces_short o mem t ps s hshort]

/-- **Format strings follow the grammar.** Every string splits in one way;
`_vprintkl` ends, reads nothing behind the NUL and takes the arguments the
grammar prescribes. It does all that the pieces stand for exactly if each
specification it does not know is shorter than `2 ^ 31` bytes. -/
theorem vprintkl_follows_grammar (fmt : CString) : ∃ ps t, Split fmt.bytes ps t ∧
    (∀ ps' t', Split fmt.bytes ps' t' → ps' = ps ∧ t' = t) ∧
    (∀ (κ μ : Type) (o : Output UInt8 κ) (mem : Memory μ) (s : Printer κ μ) (fuel : Nat),
      fmt.bytes.length < fuel → ∃ s', vprintklAt fmt.bytes o mem fuel 0 s = some s' ∧
        s'.args = s.args.drop (takes ps t)) ∧
    (Follows fmt ps t ↔ ∀ p ∈ ps, p.Short) := by
  obtain ⟨ps, t, hsplit⟩ := exists_split _ fmt.bytes (Nat.le_refl _)
  refine ⟨ps, t, hsplit, fun ps' t' h' => hsplit.unique h', ?_, follows_iff hsplit⟩
  intro κ μ o mem s fuel hfuel
  exact ⟨_, vprintklAt_split hsplit o mem s hfuel, runPieces_args o mem clip t ps s⟩

/-- A specification of so many dashes. -/
def dashes (n : Nat) : SpecText where
  flags := List.replicate n '-'.toUInt8
  flags_ok := fun c hc => by
    rw [List.eq_of_mem_replicate hc]
    decide
  width := .digits [] fun _ hd => absurd hd List.not_mem_nil
  precision := ⟨none⟩
  length := .none

theorem dashes_text (n : Nat) : (dashes n).text = List.replicate n '-'.toUInt8 :=
  List.append_nil _

/-- So many dashes before a character that is no conversion. -/
def dashesFormat (n : Nat) : CString where
  bytes := '%'.toUInt8 :: ((dashes n).text ++ ['q'.toUInt8])
  nul_free := by
    intro h
    rw [dashes_text] at h
    obtain h | h := List.mem_cons.mp h
    · exact absurd h (by decide)
    · obtain h | h := List.mem_append.mp h
      · exact absurd (List.eq_of_mem_replicate h) (by decide)
      · exact absurd (List.mem_singleton.mp h) (by decide)

theorem dashesFormat_split (n : Nat) :
    Split (dashesFormat n).bytes [.spec (dashes n) 'q'.toUInt8] none := by
  have hgreedy : (dashes n).Greedy ['q'.toUInt8] := by
    refine ⟨(rfl : isFlag 'q'.toUInt8 = false), ⟨(rfl : isDigit 'q'.toUInt8 = false), fun _ => ?_⟩,
      ?_, ?_⟩
    · exact (by decide : 'q'.toUInt8 ≠ '*'.toUInt8)
    · exact (by decide : 'q'.toUInt8 ≠ '.'.toUInt8)
    · exact (by decide : 'q'.toUInt8 ∉ literal "hljzt")
  refine .spec ?_ hgreedy .nil
  rw [dashes_text]
  cases n with
  | zero => exact (by decide : 'q'.toUInt8 ≠ '%'.toUInt8)
  | succ n => exact (by decide : '-'.toUInt8 ≠ '%'.toUInt8)

theorem dashes_length (n : Nat) : ((dashes n).whole 'q'.toUInt8).length = n + 2 := by
  rw [SpecText.whole, dashes_text, List.length_cons, List.length_append, List.length_replicate]
  rfl

/-- From `2 ^ 31` bytes on the length is negative for a while. -/
theorem clip_nil {e : List UInt8} (hlow : 2 ^ 31 ≤ e.length) (hhigh : e.length < 2 ^ 32) :
    clip e = [] := by
  have hneg : (int32 e.length).toNat = 0 := by
    rw [int32, Int.bmod_def]
    split <;> omega
  rw [clip, hneg, List.take_zero]

/-- A specification of `2 ^ 31 + 2` bytes is not echoed at all. -/
theorem long_echo_lost :
    Split (dashesFormat (2 ^ 31)).bytes [.spec (dashes (2 ^ 31)) 'q'.toUInt8] none ∧
    (∀ fuel, (dashesFormat (2 ^ 31)).bytes.length < fuel →
      vprintklAt (dashesFormat (2 ^ 31)).bytes unbuffered noMemory fuel 0 ⟨[], [], ()⟩ =
        some ⟨[], [], ()⟩) ∧
    ¬ Follows (dashesFormat (2 ^ 31)) [.spec (dashes (2 ^ 31)) 'q'.toUInt8] none := by
  have hsplit := dashesFormat_split (2 ^ 31)
  have hlen := dashes_length (2 ^ 31)
  have hq : 'q'.toUInt8 ∉ conversions := by decide
  refine ⟨hsplit, fun fuel hfuel => ?_, fun hfollows => ?_⟩
  · have hclip : clip ((dashes (2 ^ 31)).whole 'q'.toUInt8) = [] :=
      clip_nil (by omega) (by omega)
    rw [vprintklAt_split hsplit unbuffered noMemory _ hfuel, runPieces_cons, runPieces_nil,
      Piece.run, if_neg hq, hclip]
    rfl
  · have hshort := (follows_iff hsplit).mp hfollows _ List.mem_cons_self hq
    omega

end DevOS.Printk
