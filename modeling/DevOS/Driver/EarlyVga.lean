import DevOS.Lib.Region
import Mathlib.Data.UInt

/-!
# The VGA console

`driver/vga/early_vga.c`. The framebuffer is the memory from `buffer` on, a
region of cells; with it goes what the driver does to the outside and nothing in
it reads back, its `outb`s.

`char` is signed on this target. Where the source has an `int`, the numbers
here are unbounded; the cursor keeps them small.
-/

namespace DevOS.Driver

open DevOS.Lib

/-- `WIDTH`. -/
def vgaWidth : Int := 80

/-- `HEIGHT`. -/
def vgaHeight : Int := 25

/-- `TAB_WIDTH`. -/
def tabWidth : Int := 4

/-- `DEFAULT_COLOR`. -/
def defaultColor : UInt8 := 0x07

/-- `DEFAULT_CHAR`. -/
def defaultChar : UInt16 := 0x0700

/-- The variables of the driver, the framebuffer, and the `outb`s, port and
value. -/
structure Vga where
  buffer : Region UInt16
  cx : Int
  cy : Int
  color : UInt8
  outs : List (UInt16 × UInt8)

/-- The high byte; of a cell, its attribute. -/
def highByte (w : UInt16) : UInt8 := (w >>> 8).toUInt8

/-- The low byte; of a cell, its character. -/
def lowByte (w : UInt16) : UInt8 := w.toUInt8

/-- `outb(0x3D4, ..)` to `outb(0x3D5, ..)` with an `io_wait()` after each: the
low and the high byte of the position, which is a `short`. -/
def cursorOuts (x y : Int) : List (UInt16 × UInt8) :=
  let pos := (Int16.ofInt (y * vgaWidth + x)).toUInt16
  [(0x3D4, 0x0F), (0x80, 0), (0x3D5, lowByte pos), (0x80, 0),
    (0x3D4, 0x0E), (0x80, 0), (0x3D5, highByte pos), (0x80, 0)]

/-- `set_cursor(x, y)`. -/
def setCursor (x y : Int) (s : Vga) : Vga :=
  { s with outs := s.outs ++ cursorOuts x y, cx := x, cy := y }

/-- `early_vga_clrscr()`. -/
def earlyVgaClrscr (s : Vga) : Vga :=
  setCursor 0 0
    { s with
      buffer := s.buffer.storeLoop (fun _ _ => defaultChar) (countUp 0 (vgaWidth * vgaHeight)) }

/-- `(color << 8) | ch` in an `int`, stored in 16 bits. -/
def charCell (color ch : UInt8) : UInt16 :=
  ((color.toUInt32 <<< 8) ||| ch.toInt8.toInt32.toUInt32).toUInt16

/-- `putc(ch, x, y)`. -/
def putc (ch : UInt8) (x y : Int) (s : Vga) : Vga :=
  let position := y * vgaWidth + x
  if position < 0 ∨ position > vgaWidth * vgaHeight then s
  else { s with buffer := s.buffer.store position (charCell s.color ch) }

/-- `scroll(y)`. -/
def scroll (y : Int) (s : Vga) : Vga :=
  if y = 0 then s
  else
    let totalChars := vgaWidth * vgaHeight
    let buffer :=
      if y > 0 then
        let shift := y * vgaWidth
        let stop := if totalChars - shift < 0 then 0 else totalChars - shift
        (s.buffer.storeLoop (fun cells i => cells (i + shift)) (countUp 0 stop)).storeLoop
          (fun _ _ => defaultChar) (countUp stop totalChars)
      else
        let shift := if -y * vgaWidth > totalChars then totalChars else -y * vgaWidth
        (s.buffer.storeLoop (fun cells i => cells (i - shift))
          (countDown (totalChars - 1) shift)).storeLoop
          (fun _ _ => defaultChar) (countUp 0 shift)
    setCursor s.cx (s.cy - y) { s with buffer := buffer }

/-- The `switch (ch)` of `early_vga_putc`. -/
def switchChar (ch : UInt8) (s : Vga) : Vga :=
  if ch = '\n'.toUInt8 then { s with cx := 0, cy := s.cy + 1 }
  else if ch = '\r'.toUInt8 then { s with cx := 0 }
  else if ch = '\t'.toUInt8 then { s with cx := s.cx + (tabWidth - s.cx.tmod tabWidth) }
  else { putc ch s.cx s.cy s with cx := s.cx + 1 }

/-- `if (cx >= WIDTH) { cx = 0; cy++; }`. -/
def wrapLine (s : Vga) : Vga :=
  if s.cx ≥ vgaWidth then { s with cx := 0, cy := s.cy + 1 } else s

/-- `if (cy >= HEIGHT) scroll(1)`. -/
def scrollLine (s : Vga) : Vga := if s.cy ≥ vgaHeight then scroll 1 s else s

/-- `early_vga_putc(ch)`. -/
def earlyVgaPutc (ch : UInt8) (s : Vga) : Vga :=
  let s := scrollLine (wrapLine (switchChar ch s))
  setCursor s.cx s.cy s

/-- `early_vga_write(str, n)`, for the `n` bytes at `str`. -/
def earlyVgaWrite (str : List UInt8) (s : Vga) : Vga := str.foldl (fun s ch => earlyVgaPutc ch s) s

/-- `get_level_color(level)`. -/
def getLevelColor (level : Int) : UInt8 :=
  let colors : List UInt8 := [0x40, 0x04, 0x0C, 0x0C, 0x0E, 0x0F]
  if level < 0 ∨ level ≥ colors.length then defaultColor else colors.getD level.toNat 0

/-- `early_vga_log_write(level, str, n)`. -/
def earlyVgaLogWrite (level : Int) (str : List UInt8) (s : Vga) : Vga :=
  { earlyVgaWrite str { s with color := getLevelColor level } with color := defaultColor }

/-! ## Cells -/

/-- A `char` promoted to `int`: its own bits, then copies of the top one. -/
theorem promoted_bit (ch : UInt8) {i : Nat} (hi : i < 32) :
    (ch.toBitVec.signExtend 32)[i] =
      if i < 8 then ch.toBitVec.getLsbD i else decide (0x80 ≤ ch) := by
  have hmsb : ch.toBitVec.msb = decide (0x80 ≤ ch) := by
    rw [BitVec.msb_eq_decide]
    rfl
  rw [← hmsb]
  by_cases h : i < 8
  · simp [BitVec.getElem_signExtend, h]
  · simp [BitVec.getElem_signExtend, h]

theorem charCell_low (color ch : UInt8) : lowByte (charCell color ch) = ch := by
  apply UInt8.eq_of_toBitVec_eq
  ext i hi
  have hi' : i < 32 := by omega
  simp [lowByte, charCell, promoted_bit, hi, hi']

/-- **The attribute that is stored**: from `0x80` on the sign of the character
covers the colour. -/
theorem charCell_high (color ch : UInt8) :
    highByte (charCell color ch) = if ch < 0x80 then color else 0xFF := by
  apply UInt8.eq_of_toBitVec_eq
  ext i hi
  have hi₁ : i < 16 := by omega
  have hi₂ : 8 + i < 16 := by omega
  have hi₃ : 8 + i < 32 := by omega
  have hi₄ : ¬ 8 + i < 8 := by omega
  simp only [highByte, charCell]
  by_cases hch : ch < 0x80
  · have hsign : ¬ 0x80 ≤ ch := UInt8.not_le.mpr hch
    simp [promoted_bit, hi, hi₁, hi₂, hi₃, hi₄, hch, hsign]
  · have hsign : 0x80 ≤ ch := UInt8.not_lt.mp hch
    have hones : ∀ i, (h : i < 8) → (255#8)[i] = true := by decide
    simp [promoted_bit, hi₁, hi₂, hi₃, hi₄, hch, hsign, hones]

/-- Of a 7-bit character: the colour over the character. -/
theorem charCell_eq (color : UInt8) {ch : UInt8} (h : ch < 0x80) :
    charCell color ch = color.toUInt16 <<< 8 ||| ch.toUInt16 := by
  have hsign : ¬ 0x80 ≤ ch := UInt8.not_le.mpr h
  apply UInt16.eq_of_toBitVec_eq
  ext i hi
  have hi' : i < 32 := by omega
  by_cases h8 : i < 8
  · simp [charCell, promoted_bit, hi', h8]
  · have hout : ch.toBitVec.getLsbD i = false := BitVec.getLsbD_of_ge _ _ (by omega)
    simp [charCell, promoted_bit, hi', hsign, h8, hout]

/-- No level has the attribute `0xFF`. -/
theorem getLevelColor_ne (level : Int) : getLevelColor level ≠ 0xFF := by
  have hall : ∀ n < 6, ([0x40, 0x04, 0x0C, 0x0C, 0x0E, 0x0F] : List UInt8).getD n 0 ≠ 0xFF := by
    decide
  rw [getLevelColor, show ([0x40, 0x04, 0x0C, 0x0C, 0x0E, 0x0F] : List UInt8).length = 6 from rfl]
  by_cases hout : level < 0 ∨ level ≥ (6 : Nat)
  · rw [if_pos hout]
    decide
  · rw [if_neg hout]
    exact hall _ (by omega)

/-! ## The cursor's position -/

theorem bytes_toNat (w : UInt16) : (highByte w).toNat * 256 + (lowByte w).toNat = w.toNat := by
  have hlt := w.toNat_lt
  simp only [highByte, lowByte, UInt16.toNat_toUInt8, UInt16.toNat_shiftRight]
  simp only [UInt16.reduceToNat, Nat.reduceMod, Nat.shiftRight_eq_div_pow]
  omega

/-- **What the hardware is told** is the position of the cell. -/
theorem cursorOuts_position {x y : Int} (hx : 0 ≤ x ∧ x < vgaWidth) (hy : 0 ≤ y ∧ y < vgaHeight) :
    ∃ lo hi : UInt8, cursorOuts x y = [(0x3D4, 0x0F), (0x80, 0), (0x3D5, lo), (0x80, 0),
      (0x3D4, 0x0E), (0x80, 0), (0x3D5, hi), (0x80, 0)] ∧
      hi.toNat * 256 + lo.toNat = y * vgaWidth + x := by
  refine ⟨_, _, rfl, ?_⟩
  simp only [vgaWidth, vgaHeight] at hx hy ⊢
  obtain ⟨n, hn⟩ := Int.eq_ofNat_of_zero_le (a := y * 80 + x) (by omega)
  have hpos : (Int16.ofInt (n : Nat)).toUInt16 = UInt16.ofNat n := rfl
  have hsize : n < UInt16.size := by
    simp only [UInt16.size]
    omega
  have hfits : (UInt16.ofNat n).toNat = n := UInt16.toNat_ofNat_of_lt' hsize
  rw [hn, hpos]
  exact_mod_cast (bytes_toNat _).trans hfits

/-! ## Storing -/

/-- An index of a cell of the screen. -/
def OnScreen (i : Int) : Prop := 0 ≤ i ∧ i < vgaWidth * vgaHeight

instance (i : Int) : Decidable (OnScreen i) := inferInstanceAs (Decidable (_ ∧ _))

section Stores

variable {s : Vga}

@[simp] theorem setCursor_buffer (x y : Int) : (setCursor x y s).buffer = s.buffer := rfl

@[simp] theorem setCursor_color (x y : Int) : (setCursor x y s).color = s.color := rfl

/-- The screen is blank. -/
theorem earlyVgaClrscr_cells {i : Int} (h : OnScreen i) :
    (earlyVgaClrscr s).buffer.cells i = defaultChar := by
  rw [earlyVgaClrscr, setCursor_buffer, Region.storeLoop_fill]
  exact if_pos h

theorem earlyVgaClrscr_stores {i : Int} (h : i ∈ (earlyVgaClrscr s).buffer.stores) :
    i ∈ s.buffer.stores ∨ OnScreen i := by
  rw [earlyVgaClrscr, setCursor_buffer, Region.mem_storeLoop, mem_countUp] at h
  exact h

/-- The shift of `scroll` has the sign of `y`. -/
theorem shift_sign (y : Int) : (0 < y → 0 < y * vgaWidth) ∧ (y < 0 → y * vgaWidth < 0) ∧
    -y * vgaWidth = -(y * vgaWidth) := by
  simp only [vgaWidth]
  omega

/-- **`scroll`** moves the screen up by `y` rows, or down by `-y`; what comes in
is blank. -/
theorem scroll_cells (y : Int) {i : Int} (h : OnScreen i) : (scroll y s).buffer.cells i =
    if OnScreen (i + y * vgaWidth) then s.buffer.cells (i + y * vgaWidth) else defaultChar := by
  obtain ⟨hup, hdown, hneg⟩ := shift_sign y
  obtain ⟨hlow, hhigh⟩ := h
  rw [scroll]
  by_cases hzero : y = 0
  · rw [if_pos hzero, hzero, Int.zero_mul, Int.add_zero, if_pos ⟨hlow, hhigh⟩]
  · rw [if_neg hzero]
    simp only [setCursor_buffer]
    by_cases hpos : y > 0
    · rw [if_pos hpos]
      generalize hstop : (if vgaWidth * vgaHeight - y * vgaWidth < 0 then 0
        else vgaWidth * vgaHeight - y * vgaWidth) = stop
      rw [Region.storeLoop_fill, Region.storeLoop_down (by omega)]
      by_cases hin : i < stop
      · have hsrc : OnScreen (i + y * vgaWidth) := ⟨by omega, by split at hstop <;> omega⟩
        rw [if_neg (by omega), if_pos ⟨hlow, hin⟩, if_pos hsrc]
      · have hsrc : ¬ OnScreen (i + y * vgaWidth) := by
          rintro ⟨-, hsrc⟩
          split at hstop <;> omega
        rw [if_pos (by omega), if_neg hsrc]
    · rw [if_neg hpos, hneg]
      generalize hshift : (if -(y * vgaWidth) > vgaWidth * vgaHeight then vgaWidth * vgaHeight
        else -(y * vgaWidth)) = shift
      rw [Region.storeLoop_fill, Region.storeLoop_up (by split at hshift <;> omega)]
      by_cases hin : i < shift
      · have hsrc : ¬ OnScreen (i + y * vgaWidth) := by
          rintro ⟨hsrc, -⟩
          split at hshift <;> omega
        rw [if_pos ⟨hlow, hin⟩, if_neg hsrc]
      · have heq : i - shift = i + y * vgaWidth := by split at hshift <;> omega
        have hsrc : OnScreen (i + y * vgaWidth) := ⟨by omega, by omega⟩
        rw [if_neg (by omega), if_pos (by omega), if_pos hsrc, heq]

theorem scroll_stores (y : Int) :
    ∀ i ∈ (scroll y s).buffer.stores, i ∈ s.buffer.stores ∨ OnScreen i := by
  obtain ⟨hup, hdown, hneg⟩ := shift_sign y
  have htotal : 0 < vgaWidth * vgaHeight := by decide
  intro i hi
  rw [scroll] at hi
  by_cases hzero : y = 0
  · rw [if_pos hzero] at hi
    exact .inl hi
  · rw [if_neg hzero] at hi
    simp only [setCursor_buffer] at hi
    by_cases hpos : y > 0
    · rw [if_pos hpos] at hi
      generalize hstop : (if vgaWidth * vgaHeight - y * vgaWidth < 0 then 0
        else vgaWidth * vgaHeight - y * vgaWidth) = stop at hi
      simp only [Region.mem_storeLoop, mem_countUp] at hi
      rcases hi with (hi | hi) | hi
      · exact .inl hi
      · exact .inr ⟨hi.1, by split at hstop <;> omega⟩
      · exact .inr ⟨by split at hstop <;> omega, hi.2⟩
    · rw [if_neg hpos, hneg] at hi
      generalize hshift : (if -(y * vgaWidth) > vgaWidth * vgaHeight then vgaWidth * vgaHeight
        else -(y * vgaWidth)) = shift at hi
      simp only [Region.mem_storeLoop, mem_countUp, mem_countDown] at hi
      rcases hi with (hi | hi) | hi
      · exact .inl hi
      · exact .inr ⟨by split at hshift <;> omega, by omega⟩
      · exact .inr ⟨hi.1, by split at hshift <;> omega⟩

/-- The cursor goes with the rows, where it can. -/
theorem scroll_vars (y : Int) : (scroll y s).cx = s.cx ∧ (scroll y s).cy = s.cy - y ∧
    (scroll y s).color = s.color := by
  rw [scroll]
  by_cases hzero : y = 0
  · rw [if_pos hzero, hzero, Int.sub_zero]
    exact ⟨rfl, rfl, rfl⟩
  · rw [if_neg hzero]
    exact ⟨rfl, rfl, rfl⟩

/-- **`putc`** on the screen. -/
theorem putc_eq (ch : UInt8) {x y : Int} (h : OnScreen (y * vgaWidth + x)) :
    putc ch x y s =
      { s with buffer := s.buffer.store (y * vgaWidth + x) (charCell s.color ch) } := by
  obtain ⟨hlow, hhigh⟩ := h
  rw [putc, if_neg (by omega)]

end Stores

end DevOS.Driver
