import Mathlib.Data.List.Basic

/-!
# Lib — a terminal with styles

What a terminal makes of a stream of bytes, as far as the selection of styles
goes: text is shown in the style in force, and a sequence `ESC [ n ; … m`
selects a style, one parameter after the other. Other sequences are skipped.
-/

namespace DevOS.Lib

/-- What a character is drawn with; `none` is the terminal's own colour. -/
structure Style where
  bold : Bool
  foreground : Option Nat
  background : Option Nat
deriving DecidableEq, Repr

def Style.plain : Style := ⟨false, none, none⟩

/-- One parameter of a selection. The bright colours are those from 8 on. -/
def Style.select (s : Style) (n : Nat) : Style :=
  if n = 0 then .plain
  else if n = 1 then { s with bold := true }
  else if 30 ≤ n ∧ n ≤ 37 then { s with foreground := some (n - 30) }
  else if 40 ≤ n ∧ n ≤ 47 then { s with background := some (n - 40) }
  else if 90 ≤ n ∧ n ≤ 97 then { s with foreground := some (n - 82) }
  else s

/-- Where in a sequence the terminal is. -/
inductive AnsiState where
  | ground
  | escape
  | params (done : List Nat) (now : Nat)
deriving DecidableEq, Repr

structure StyledText where
  state : AnsiState
  style : Style
  shown : List (Style × UInt8)

namespace StyledText

def start : StyledText := ⟨.ground, .plain, []⟩

def feed (t : StyledText) (b : UInt8) : StyledText :=
  match t.state with
  | .ground =>
      if b = 0x1B then { t with state := .escape }
      else { t with shown := t.shown ++ [(t.style, b)] }
  | .escape => { t with state := if b = 0x5B then .params [] 0 else .ground }
  | .params done now =>
      if 0x30 ≤ b ∧ b ≤ 0x39 then { t with state := .params done (now * 10 + (b - 0x30).toNat) }
      else if b = 0x3B then { t with state := .params (done ++ [now]) 0 }
      else if b = 0x6D then
        { t with state := .ground, style := (done ++ [now]).foldl Style.select t.style }
      else { t with state := .ground }

def feedAll (t : StyledText) (bs : List UInt8) : StyledText := bs.foldl feed t

theorem feedAll_append (t : StyledText) (bs cs : List UInt8) :
    t.feedAll (bs ++ cs) = (t.feedAll bs).feedAll cs := List.foldl_append ..

/-- **Text** is shown in the style in force. -/
theorem feedAll_text (style : Style) {bs : List UInt8} (hbs : 0x1B ∉ bs) :
    ∀ shown, feedAll ⟨.ground, style, shown⟩ bs =
      ⟨.ground, style, shown ++ bs.map fun b => (style, b)⟩ := by
  induction bs with
  | nil => exact fun shown => congrArg (StyledText.mk _ _) (List.append_nil shown).symm
  | cons b bs ih =>
      intro shown
      rw [List.mem_cons, not_or] at hbs
      have hfeed : feed ⟨.ground, style, shown⟩ b = ⟨.ground, style, shown ++ [(style, b)]⟩ :=
        if_neg (Ne.symm hbs.1)
      show (feed ⟨.ground, style, shown⟩ b).feedAll bs = _
      rw [hfeed, ih hbs.2, List.append_assoc]
      rfl

end StyledText

end DevOS.Lib
