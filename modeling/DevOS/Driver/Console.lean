import DevOS.Driver.EarlyVga
import DevOS.Lib.Terminal
import DevOS.Printk.Buffer

/-!
# The VGA console refines a terminal

What the framebuffer holds against a terminal of unbounded height that keeps,
in each cell, the level and the byte it was written with. The console moves its
buffer in place when the cursor leaves the last row; the terminal only grows.
`Window` says that the one is the part of the other from some row on, and every
stage of `early_vga_putc` keeps it.
-/

namespace DevOS.Driver

open DevOS.Lib

/-- A call of `early_vga_log_write`. -/
structure LogCall where
  level : Int
  str : List UInt8
deriving DecidableEq, Repr

/-- Calls one after the other. -/
def logAll (calls : List LogCall) (s : Vga) : Vga :=
  calls.foldl (fun s call => earlyVgaLogWrite call.level call.str s) s

/-- The console in the course of a call: what of the string has been written so
far is the string of `now`. -/
def midway (now : LogCall) (s : Vga) : Vga :=
  earlyVgaWrite now.str { s with color := getLevelColor now.level }

/-- A call is over when its string is written. -/
theorem earlyVgaLogWrite_eq (call : LogCall) (s : Vga) :
    earlyVgaLogWrite call.level call.str s = { midway call s with color := defaultColor } := rfl

/-- `done` and `now` are what has been written at some time of these calls:
whole calls, and the first bytes of the next one. -/
structure Reached (calls done : List LogCall) (now : LogCall) : Prop where
  exists_rest : ∃ rest more, calls = done ++ ⟨now.level, now.str ++ rest⟩ :: more

/-! ## The terminal -/

/-- A terminal whose cells keep the level and the byte. -/
abbrev LogTerminal := Terminal (Int × UInt8)

/-- A byte, as a key. -/
def keyOf (level : Int) (ch : UInt8) : Key (Int × UInt8) :=
  if ch = '\n'.toUInt8 then .newline
  else if ch = '\r'.toUInt8 then .carriageReturn
  else if ch = '\t'.toUInt8 then .tab
  else .put (level, ch)

/-- Feed the terminal a string. -/
def feedCall (t : LogTerminal) (call : LogCall) : LogTerminal :=
  call.str.foldl (fun t ch => t.feed 80 4 (keyOf call.level ch)) t

/-- The terminal after calls. -/
def terminal (calls : List LogCall) : LogTerminal := calls.foldl feedCall Terminal.empty

/-- What `putc` stores for a cell. -/
def storedCell : Option (Int × UInt8) → UInt16
  | none => defaultChar
  | some (level, ch) => charCell (getLevelColor level) ch

/-! ## The window -/

/-- The console shows the terminal from row `k` on. -/
structure Window (k : Nat) (s : Vga) (t : LogTerminal) : Prop where
  cx : s.cx = t.col
  cy : s.cy + k = t.row
  cells : ∀ i j : Nat, i < 25 → j < 80 →
    s.buffer.cells (i * vgaWidth + j) = storedCell (t.cell (k + i) j)
  stores : ∀ i ∈ s.buffer.stores, OnScreen i

section Window

variable {k : Nat} {s : Vga} {t : LogTerminal}

/-- Cells of the screen have indices of their own. -/
theorem cell_index {i j : Nat} {x y : Int} (hj : j < 80) (hx : 0 ≤ x ∧ x < 80) :
    i * vgaWidth + j = y * vgaWidth + x ↔ i = y ∧ j = x := by
  simp only [vgaWidth]
  omega

theorem onScreen_of {x y : Int} (hx : 0 ≤ x ∧ x < 80) (hy : 0 ≤ y ∧ y < 25) :
    OnScreen (y * vgaWidth + x) := by
  simp only [OnScreen, vgaWidth, vgaHeight]
  omega

/-- **The character**, stored in the cell at the cursor. -/
theorem Window.put (h : Window k s t) {level : Int} (hcolor : s.color = getLevelColor level)
    (hx : 0 ≤ s.cx ∧ s.cx < 80) (hy : 0 ≤ s.cy ∧ s.cy < 25) (ch : UInt8) :
    Window k { Driver.putc ch s.cx s.cy s with cx := s.cx + 1 } (t.press 4 (.put (level, ch))) := by
  have hcx := h.cx
  have hcy := h.cy
  have hon := onScreen_of hx hy
  rw [putc_eq ch hon, hcolor]
  refine ⟨?_, h.cy, ?_, ?_⟩
  · simp only [Terminal.press]
    omega
  · intro i j hi hj
    simp only [Terminal.press, Region.store_cells]
    by_cases hrow : k + i = t.row
    · rw [hrow, Function.update_self]
      by_cases hcol : j = t.col
      · have hidx : i * vgaWidth + j = s.cy * vgaWidth + s.cx :=
          (cell_index hj hx).mpr ⟨by omega, by omega⟩
        rw [if_pos hidx, hcol, Function.update_self]
        rfl
      · have hidx : (i * vgaWidth + j : Int) ≠ s.cy * vgaWidth + s.cx := fun hc =>
          hcol (by have := ((cell_index hj hx).mp hc).2; omega)
        rw [if_neg hidx, Function.update_of_ne hcol, h.cells i j hi hj, hrow]
    · have hidx : (i * vgaWidth + j : Int) ≠ s.cy * vgaWidth + s.cx := fun hc =>
        hrow (by have := ((cell_index hj hx).mp hc).1; omega)
      rw [if_neg hidx, Function.update_of_ne hrow, h.cells i j hi hj]
  · intro i hi
    rcases Region.mem_store.mp hi with hi | hi
    · exact h.stores i hi
    · rw [hi]
      exact hon

/-- **The `switch`** is the key. -/
theorem Window.switchChar (h : Window k s t) {level : Int} (hcolor : s.color = getLevelColor level)
    (hx : 0 ≤ s.cx ∧ s.cx < 80) (hy : 0 ≤ s.cy ∧ s.cy < 25) (ch : UInt8) :
    Window k (Driver.switchChar ch s) (t.press 4 (keyOf level ch)) := by
  have hcx := h.cx
  have hcy := h.cy
  rw [Driver.switchChar, keyOf]
  by_cases hnl : ch = '\n'.toUInt8
  · rw [if_pos hnl, if_pos hnl]
    refine ⟨rfl, ?_, h.cells, h.stores⟩
    simp only [Terminal.press]
    omega
  · rw [if_neg hnl, if_neg hnl]
    by_cases hcr : ch = '\r'.toUInt8
    · rw [if_pos hcr, if_pos hcr]
      exact ⟨rfl, h.cy, h.cells, h.stores⟩
    · rw [if_neg hcr, if_neg hcr]
      by_cases htab : ch = '\t'.toUInt8
      · rw [if_pos htab, if_pos htab]
        refine ⟨?_, h.cy, h.cells, h.stores⟩
        simp only [Terminal.press, tabWidth, Int.tmod_eq_emod_of_nonneg hx.1]
        omega
      · rw [if_neg htab, if_neg htab]
        exact h.put hcolor hx hy ch

theorem Window.wrapLine (h : Window k s t) : Window k (Driver.wrapLine s) (t.wrap 80) := by
  have hcx := h.cx
  have hcy := h.cy
  rw [Driver.wrapLine, Terminal.wrap]
  by_cases hpast : 80 ≤ t.col
  · have hpast' : s.cx ≥ vgaWidth := by
      simp only [vgaWidth]
      omega
    rw [if_pos hpast, if_pos hpast']
    refine ⟨rfl, ?_, h.cells, h.stores⟩
    dsimp only
    omega
  · have hpast' : ¬ s.cx ≥ vgaWidth := by
      simp only [vgaWidth]
      omega
    rw [if_neg hpast, if_neg hpast']
    exact h

/-- **The scroll**: the window goes down a row, which is empty. -/
theorem Window.scroll (h : Window k s t) (hrow : t.row = k + 25)
    (hblank : ∀ j, t.cell (k + 25) j = none) : Window (k + 1) (Driver.scroll 1 s) t := by
  have hcy := h.cy
  obtain ⟨hx, hy, -⟩ := scroll_vars (s := s) 1
  refine ⟨hx.trans h.cx, by omega, ?_, ?_⟩
  · intro i j hi hj
    have hsrc : (i * vgaWidth + j : Int) + 1 * vgaWidth = ((i + 1 : Nat) : Int) * vgaWidth + j := by
      simp only [vgaWidth]
      omega
    rw [scroll_cells 1 (onScreen_of (by omega) (by omega)), hsrc]
    by_cases hlast : i + 1 < 25
    · have hcell : k + (i + 1) = k + 1 + i := by omega
      rw [if_pos (onScreen_of (by omega) (by omega)), h.cells (i + 1) j hlast hj, hcell]
    · have hout : ¬ OnScreen (((i + 1 : Nat) : Int) * vgaWidth + j) := by
        simp only [OnScreen, vgaWidth, vgaHeight]
        omega
      have hend : k + 1 + i = k + 25 := by omega
      rw [if_neg hout, hend, hblank]
      rfl
  · intro i hi
    rcases scroll_stores 1 i hi with hi | hi
    · exact h.stores i hi
    · exact hi

end Window

/-! ## The console -/

/-- The console shows the last rows of the terminal, and has told the hardware
where its cursor is. -/
structure Displays (s : Vga) (t : LogTerminal) : Prop where
  window : Window (t.top 25) s t
  col : t.col < 80
  fresh : t.Fresh
  told : cursorOuts s.cx s.cy <:+ s.outs

section Displays

variable {s : Vga} {t : LogTerminal}

theorem Displays.cursor (h : Displays s t) : (0 ≤ s.cx ∧ s.cx < 80) ∧ (0 ≤ s.cy ∧ s.cy < 25) := by
  have hcx := h.window.cx
  have hcy := h.window.cy
  have hcol := h.col
  simp only [Terminal.top] at hcy
  omega

/-- The colour is not on display. -/
theorem Displays.setColor (h : Displays s t) (color : UInt8) :
    Displays { s with color := color } t :=
  ⟨⟨h.window.cx, h.window.cy, h.window.cells, h.window.stores⟩, h.col, h.fresh, h.told⟩

/-- **The hardware's cursor** is where the next character goes. -/
theorem Displays.hardware_cursor (h : Displays s t) : ∃ lo hi : UInt8,
    [(0x3D4, 0x0F), (0x80, 0), (0x3D5, lo), (0x80, 0),
      (0x3D4, 0x0E), (0x80, 0), (0x3D5, hi), (0x80, 0)] <:+ s.outs ∧
    hi.toNat * 256 + lo.toNat = (t.row - t.top 25) * 80 + t.col := by
  have hcx := h.window.cx
  have hcy := h.window.cy
  obtain ⟨hx, hy⟩ := h.cursor
  obtain ⟨lo, hi, houts, hpos⟩ := cursorOuts_position hx hy
  have htold := h.told
  rw [houts] at htold
  refine ⟨lo, hi, htold, ?_⟩
  simp only [vgaWidth] at hpos
  omega

theorem earlyVgaPutc_color (ch : UInt8) (s : Vga) : (earlyVgaPutc ch s).color = s.color := by
  have hswitch : (switchChar ch s).color = s.color := by
    rw [switchChar, putc]
    repeat' split
    all_goals rfl
  have hwrap : (wrapLine (switchChar ch s)).color = s.color := by
    rw [wrapLine]
    split
    · exact hswitch
    · exact hswitch
  rw [earlyVgaPutc, setCursor_color, scrollLine]
  split
  · exact (scroll_vars 1).2.2.trans hwrap
  · exact hwrap

/-- **A character** is a key. -/
theorem Displays.putc (h : Displays s t) {level : Int} (hcolor : s.color = getLevelColor level)
    (ch : UInt8) : Displays (earlyVgaPutc ch s) (t.feed 80 4 (keyOf level ch)) := by
  obtain ⟨hx, hy⟩ := h.cursor
  have hwin : Window (t.top 25) (wrapLine (switchChar ch s)) (t.feed 80 4 (keyOf level ch)) :=
    (h.window.switchChar hcolor hx hy ch).wrapLine
  have hmoved := Terminal.feed_top (by decide : 0 < 80) 4 25 t (keyOf level ch)
  have hcy := hwin.cy
  rw [earlyVgaPutc]
  generalize wrapLine (switchChar ch s) = s' at hwin hcy ⊢
  have hwin' : Window ((t.feed 80 4 (keyOf level ch)).top 25) (scrollLine s')
      (t.feed 80 4 (keyOf level ch)) := by
    rw [scrollLine]
    rcases hmoved with htop | ⟨htop, hrow⟩
    · -- the cursor is still in one of the rows
      have hin : ¬ s'.cy ≥ vgaHeight := by
        have hlast : (t.feed 80 4 (keyOf level ch)).row + 1 - 25 = t.top 25 := htop
        simp only [vgaHeight]
        omega
      rw [if_neg hin, htop]
      exact hwin
    · -- it has left the last one
      have hout : s'.cy ≥ vgaHeight := by
        simp only [vgaHeight]
        omega
      have hbelow : t.row < t.top 25 + 25 := by
        simp only [Terminal.top]
        omega
      rw [if_pos hout, htop]
      exact hwin.scroll hrow fun j => h.fresh.feed_below hbelow j
  exact ⟨⟨hwin'.cx, hwin'.cy, hwin'.cells, hwin'.stores⟩, Terminal.feed_col_lt (by decide),
    h.fresh.feed (by decide), List.suffix_append ..⟩

/-- **A string**, by induction on it. -/
theorem Displays.write {level : Int} : ∀ (str : List UInt8) {s : Vga} {t : LogTerminal},
    Displays s t → s.color = getLevelColor level →
    Displays (earlyVgaWrite str s) (feedCall t ⟨level, str⟩) := by
  intro str
  induction str with
  | nil => intro s t h _; exact h
  | cons ch str ih =>
      intro s t h hcolor
      exact ih (h.putc hcolor ch) ((earlyVgaPutc_color ch s).trans hcolor)

theorem Displays.midway (h : Displays s t) (now : LogCall) :
    Displays (Driver.midway now s) (feedCall t now) :=
  (h.setColor (getLevelColor now.level)).write now.str rfl

/-- **Calls**, by induction on them. -/
theorem Displays.logAll : ∀ (calls : List LogCall) {s : Vga} {t : LogTerminal}, Displays s t →
    Displays (Driver.logAll calls s) (calls.foldl feedCall t) := by
  intro calls
  induction calls with
  | nil => intro s t h; exact h
  | cons call calls ih =>
      intro s t h
      have hcall := (h.midway call).setColor defaultColor
      rw [← earlyVgaLogWrite_eq] at hcall
      exact ih hcall

end Displays

/-- The console after `early_vga_clrscr`, whatever it was before. -/
def cleared (s : Vga) : Vga := earlyVgaClrscr { s with buffer := .start s.buffer.cells }

theorem displays_cleared (s : Vga) : Displays (cleared s) Terminal.empty := by
  refine ⟨⟨rfl, rfl, ?_, ?_⟩, by decide, Terminal.fresh_empty, List.suffix_append ..⟩
  · intro i j hi hj
    rw [cleared]
    exact earlyVgaClrscr_cells (onScreen_of (by omega) (by omega))
  · intro i hi
    rw [cleared] at hi
    rcases earlyVgaClrscr_stores hi with hi | hi
    · exact absurd hi List.not_mem_nil
    · exact hi

/-- At any time the console displays the terminal that was fed the same. -/
theorem displays_midway (s : Vga) (done : List LogCall) (now : LogCall) :
    Displays (midway now (logAll done (cleared s))) (terminal (done ++ [now])) := by
  have hsnoc : terminal (done ++ [now]) = feedCall (terminal done) now := by
    rw [terminal, List.foldl_append]
    rfl
  rw [hsnoc]
  exact ((displays_cleared s).logAll done).midway now

/-! ## Text of 7 bits -/

/-- No byte has its top bit set. -/
def SevenBit (calls : List LogCall) : Prop := ∀ call ∈ calls, ∀ ch ∈ call.str, ch < 0x80

instance (calls : List LogCall) : Decidable (SevenBit calls) :=
  inferInstanceAs (Decidable (∀ call ∈ calls, ∀ ch ∈ call.str, ch < 0x80))

theorem SevenBit.reached {calls done : List LogCall} {now : LogCall} (h : SevenBit calls)
    (hreach : Reached calls done now) : SevenBit (done ++ [now]) := by
  obtain ⟨rest, more, rfl⟩ := hreach
  intro call hcall ch hch
  rcases List.mem_append.mp hcall with hcall | hcall
  · exact h call (List.mem_append_left _ hcall) ch hch
  · rw [List.mem_singleton.mp hcall] at hch
    exact h _ (List.mem_append_right _ List.mem_cons_self) ch (List.mem_append_left _ hch)

/-- A cell of the terminal in the format of the framebuffer: the colour of the
level over the character. -/
def terminalCell : Option (Int × UInt8) → UInt16
  | none => 0x0700
  | some (level, ch) => (getLevelColor level).toUInt16 <<< 8 ||| ch.toUInt16

/-- **What a console that refines the terminal is like**: its cursor is on the
screen and where the terminal's is, its stores have been to the screen, and the
screen shows the last 25 rows. -/
structure ShowsTerminal (s : Vga) (t : LogTerminal) : Prop where
  cx : 0 ≤ s.cx ∧ s.cx < 80
  cy : 0 ≤ s.cy ∧ s.cy < 25
  cursor : s.cx = t.col ∧ s.cy + t.top 25 = t.row
  stores : ∀ i ∈ s.buffer.stores, 0 ≤ i ∧ i < 2000
  cells : ∀ i j : Nat, i < 25 → j < 80 → s.buffer.cells (i * 80 + j) = terminalCell (t.shown 25 i j)

theorem keyOf_put {level : Int} {ch : UInt8} {a : Int × UInt8} (h : keyOf level ch = .put a) :
    a = (level, ch) := by
  unfold keyOf at h
  split at h
  · cases h
  · split at h
    · cases h
    · split at h
      · cases h
      · cases h
        rfl

theorem feedCall_holds {P : Int × UInt8 → Prop} {call : LogCall}
    (hP : ∀ ch ∈ call.str, P (call.level, ch)) {t : LogTerminal} (h : t.Holds P) :
    (feedCall t call).Holds P := by
  have hall : ∀ (str : List UInt8), (∀ ch ∈ str, P (call.level, ch)) → ∀ {t : LogTerminal},
      t.Holds P → (str.foldl (fun t ch => t.feed 80 4 (keyOf call.level ch)) t).Holds P := by
    intro str
    induction str with
    | nil => intro _ t h; exact h
    | cons ch str ih =>
        intro hstr t h
        refine ih (fun ch' hch' => hstr ch' (List.mem_cons_of_mem _ hch')) (h.feed ?_)
        intro a ha
        rw [keyOf_put ha]
        exact hstr ch List.mem_cons_self
  exact hall call.str hP h

/-- **The cells keep what the calls wrote.** -/
theorem terminal_holds {P : Int × UInt8 → Prop} : ∀ (calls : List LogCall) {t : LogTerminal},
    (∀ call ∈ calls, ∀ ch ∈ call.str, P (call.level, ch)) → t.Holds P →
    (calls.foldl feedCall t).Holds P := by
  intro calls
  induction calls with
  | nil => intro t _ h; exact h
  | cons call calls ih =>
      intro t hP h
      exact ih (fun c hc => hP c (List.mem_cons_of_mem _ hc))
        (feedCall_holds (hP call List.mem_cons_self) h)

theorem storedCell_eq {c : Option (Int × UInt8)} (h : ∀ a, c = some a → a.2 < 0x80) :
    storedCell c = terminalCell c := by
  cases c with
  | none => rfl
  | some a => exact charCell_eq _ (h a rfl)

/-- What is on display, of text of 7 bits. -/
theorem Displays.showsTerminal {s : Vga} {t : LogTerminal} (h : Displays s t)
    (h7 : t.Holds fun a => a.2 < 0x80) : ShowsTerminal s t := by
  obtain ⟨hx, hy⟩ := h.cursor
  refine ⟨hx, hy, ⟨h.window.cx, h.window.cy⟩, h.window.stores, fun i j hi hj => ?_⟩
  exact (h.window.cells i j hi hj).trans (storedCell_eq fun a ha => h7 _ _ a ha)

/-- **The console refines a terminal of unbounded height**: after
`early_vga_clrscr`, whatever calls are made with text of 7 bits and at whatever
levels, it shows the terminal after every character, and after every call. -/
theorem console_refines_terminal (s : Vga) (calls : List LogCall) (h7 : SevenBit calls) :
    ShowsTerminal (logAll calls (cleared s)) (terminal calls) ∧
    ∀ done now, Reached calls done now →
      ShowsTerminal (midway now (logAll done (cleared s))) (terminal (done ++ [now])) := by
  constructor
  · exact ((displays_cleared s).logAll calls).showsTerminal
      (terminal_holds calls h7 (Terminal.holds_empty _))
  · intro done now hreach
    exact (displays_midway s done now).showsTerminal
      (terminal_holds _ (h7.reached hreach) (Terminal.holds_empty _))

/-- The driver when nothing has been done yet. -/
def powerOn : Vga := ⟨.start fun _ => 0, 0, 0, defaultColor, []⟩

/-- Text with every control character that a terminal knows. -/
def controlCalls : List LogCall :=
  [⟨0, Printk.literal "a\tb\n"⟩, ⟨3, Printk.literal "cd\re"⟩]

theorem console_refines_terminal_controls : SevenBit controlCalls ∧
    ShowsTerminal (logAll controlCalls (cleared powerOn)) (terminal controlCalls) ∧
    ∀ done now, Reached controlCalls done now →
      ShowsTerminal (midway now (logAll done (cleared powerOn))) (terminal (done ++ [now])) := by
  have h7 : SevenBit controlCalls := by decide +kernel
  exact ⟨h7, console_refines_terminal powerOn controlCalls h7⟩

example : (terminal controlCalls).shown 25 0 4 = some (0, 'b'.toUInt8) ∧
    (terminal controlCalls).shown 25 1 0 = some (3, 'e'.toUInt8) := by decide

/-! ## Levels -/

/-- A cell that shows a byte has the colour of its level, or else the default,
over the byte; a blank has the default over 0. -/
def CellKept (cell : UInt16) : Option (Int × UInt8) → Prop
  | none => highByte cell = defaultColor ∧ lowByte cell = 0
  | some (level, ch) =>
      (highByte cell = defaultColor ∨ highByte cell = getLevelColor level) ∧ lowByte cell = ch

/-- **Every cell is kept**, by what was written to it last. -/
def LevelsKept (s : Vga) (t : LogTerminal) : Prop :=
  ∀ i j : Nat, i < 25 → j < 80 → CellKept (s.buffer.cells (i * vgaWidth + j)) (t.shown 25 i j)

/-- What `putc` stores keeps a byte just if it has 7 bits. -/
theorem cellKept_iff (level : Int) (ch : UInt8) :
    CellKept (storedCell (some (level, ch))) (some (level, ch)) ↔ ch < 0x80 := by
  rw [CellKept, storedCell, charCell_high, charCell_low]
  constructor
  · rintro ⟨hhigh, -⟩
    by_contra hge
    rw [if_neg hge] at hhigh
    rcases hhigh with hhigh | hhigh
    · exact absurd hhigh (by decide)
    · exact getLevelColor_ne level hhigh.symm
  · intro h
    rw [if_pos h]
    exact ⟨.inr rfl, rfl⟩

theorem Displays.levelsKept {s : Vga} {t : LogTerminal} (h : Displays s t)
    (h7 : t.Holds fun a => a.2 < 0x80) : LevelsKept s t := by
  intro i j hi hj
  rw [h.window.cells i j hi hj]
  have hcell : ∀ a, t.shown 25 i j = some a → a.2 < 0x80 := fun a ha => h7 _ _ a ha
  rw [Terminal.shown] at hcell ⊢
  cases hc : t.cell (t.top 25 + i) j with
  | none => exact ⟨rfl, rfl⟩
  | some a => exact (cellKept_iff a.1 a.2).mpr (hcell a hc)

/-- A byte with its top bit set is no control character. -/
theorem keyOf_of_ge (level : Int) {ch : UInt8} (h : ¬ ch < 0x80) :
    keyOf level ch = .put (level, ch) := by
  have hne : ∀ c : UInt8, c < 0x80 → ch ≠ c := by
    rintro c hc rfl
    exact h hc
  rw [keyOf, if_neg (hne _ (by decide)), if_neg (hne _ (by decide)), if_neg (hne _ (by decide))]

/-- It is not kept. -/
theorem Displays.not_levelsKept {s : Vga} {t : LogTerminal} {level : Int} {ch : UInt8}
    (h : Displays s (t.feed 80 4 (keyOf level ch))) (hcol : t.col < 80) (hch : ¬ ch < 0x80) :
    ¬ LevelsKept s (t.feed 80 4 (keyOf level ch)) := by
  intro hkept
  rw [keyOf_of_ge level hch] at h hkept
  obtain ⟨i, hi, hshown⟩ :=
    Terminal.feed_put_shown (by decide : 0 < 80) (by decide : 2 ≤ 25) 4 t (level, ch)
  have hcell := hkept i t.col hi hcol
  rw [h.window.cells i t.col hi hcol] at hcell
  rw [Terminal.shown] at hshown hcell
  rw [hshown] at hcell
  exact hch ((cellKept_iff level ch).mp hcell)

/-- **Levels are kept for text of 7 bits**, and for no other: in the course of
any calls every cell has the colour of its level, over its byte, just if no byte
has its top bit set. Such a byte turns the attribute of its cell into `0xFF`. -/
theorem levels_kept_iff (s : Vga) (calls : List LogCall) :
    (∀ done now, Reached calls done now →
      LevelsKept (midway now (logAll done (cleared s))) (terminal (done ++ [now]))) ↔
    SevenBit calls := by
  constructor
  · intro hkept call hcall ch hch
    by_contra hge
    obtain ⟨done, more, rfl⟩ := List.append_of_mem hcall
    obtain ⟨written, rest, hstr⟩ := List.append_of_mem hch
    -- the moment when that byte has been written
    have hreach : Reached (done ++ call :: more) done ⟨call.level, written ++ [ch]⟩ := by
      refine ⟨rest, more, ?_⟩
      rw [List.append_assoc, List.singleton_append, ← hstr]
    have hdisplays := displays_midway s done ⟨call.level, written ++ [ch]⟩
    have hfeed : terminal (done ++ [⟨call.level, written ++ [ch]⟩]) =
        (terminal (done ++ [⟨call.level, written⟩])).feed 80 4 (keyOf call.level ch) := by
      simp only [terminal, feedCall, List.foldl_append, List.foldl_cons, List.foldl_nil]
    have hkept' := hkept _ _ hreach
    rw [hfeed] at hdisplays hkept'
    exact hdisplays.not_levelsKept (displays_midway s done ⟨call.level, written⟩).col hge hkept'
  · intro h7 done now hreach
    exact (displays_midway s done now).levelsKept
      (terminal_holds _ (h7.reached hreach) (Terminal.holds_empty _))

/-- What `%lc` prints for é. -/
def accentCalls : List LogCall := [⟨6, Printk.putwc Printk.unbuffered [] 0xE9⟩]

/-- Its first byte gets the attribute `0xFF`. -/
theorem levels_lost_accent : accentCalls = [⟨6, [0xC3, 0xA9]⟩] ∧ getLevelColor 6 = defaultColor ∧
    highByte ((logAll accentCalls (cleared powerOn)).buffer.cells 0) = 0xFF ∧
    ¬ LevelsKept (logAll accentCalls (cleared powerOn)) (terminal accentCalls) := by
  have hcells := ((displays_cleared powerOn).logAll accentCalls).window.cells 0 0
    (by decide) (by decide)
  have hbuf : (logAll accentCalls (cleared powerOn)).buffer.cells 0 =
      charCell (getLevelColor 6) 0xC3 := hcells
  refine ⟨by decide, by decide, by rw [hbuf]; decide, fun hkept => ?_⟩
  have hcell := hkept 0 0 (by decide) (by decide)
  rw [hcells] at hcell
  exact absurd ((cellKept_iff 6 0xC3).mp hcell) (by decide)

end DevOS.Driver
