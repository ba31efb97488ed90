import DevOS.Lib.Loop
import DevOS.Lib.Sgr
import DevOS.Printk.Buffer

/-!
# The serial line as a sink

`driver/uart/early_uart.c` over the UART that it programs, and `printk` over it.
The transmitter takes a byte only while it is empty and is then busy for some
polls of the line status; the driver waits for it before each byte. The
receiver is only used by the loopback test. `io_wait` is left out.
-/

namespace DevOS.Driver

open DevOS.Lib DevOS.Printk

/-! ## The device -/

/-- The registers that the driver writes, the bytes that went out, and the
transmitter: `busy` polls until it is empty again, `wait n` after byte `n`.
`loopback` is what comes back of a byte in loopback mode. -/
structure Uart where
  ier : UInt8
  lcr : UInt8
  fcr : UInt8
  mcr : UInt8
  divisorLow : UInt8
  divisorHigh : UInt8
  loopback : UInt8 → UInt8
  received : UInt8
  wait : Nat → Nat
  busy : Nat
  line : List UInt8

/-- A write to the data register: the divisor, the loop, or the line. A byte for
a transmitter that is busy is lost. -/
def Uart.writeData (u : Uart) (value : UInt8) : Uart :=
  if u.lcr &&& 0x80 ≠ 0 then { u with divisorLow := value }
  else if u.mcr &&& 0x10 ≠ 0 then { u with received := u.loopback value }
  else if u.busy = 0 then { u with line := u.line ++ [value], busy := u.wait u.line.length }
  else u

def Uart.writeIer (u : Uart) (value : UInt8) : Uart :=
  if u.lcr &&& 0x80 ≠ 0 then { u with divisorHigh := value } else { u with ier := value }

/-- A read of the line status, bit 5 for an empty transmitter. -/
def Uart.readLsr (u : Uart) : UInt8 × Uart :=
  (if u.busy = 0 then 0x60 else 0, { u with busy := u.busy - 1 })

/-! ## The driver -/

/-- The UART and `uart_present`. -/
structure Serial where
  uart : Uart
  present : Bool

/-- `early_uart_init()`. -/
def earlyUartInit (u : Uart) : Serial :=
  let u := u.writeIer 0x00
  let u := { u with lcr := 0x80 }
  let u := u.writeData 0x03
  let u := u.writeIer 0x00
  let u := { u with lcr := 0x03 }
  let u := { u with fcr := 0xC7 }
  let u := { u with mcr := 0x1E }
  let u := u.writeData 0xAE
  if u.received = 0xAE then ⟨{ u with mcr := 0x0F }, true⟩ else ⟨u, false⟩

/-- A round of the wait: bit 5, `BSY`, ends it. -/
def pollLsr (u : Uart) : Uart ⊕ Uart :=
  if u.readLsr.1 &&& 0x20 = 0 then .inl u.readLsr.2 else .inr u.readLsr.2

/-- `while (!(inb(PORT + REG_LSR) & BSY)) io_wait();`, for at most `fuel` polls. -/
def waitEmpty (fuel : Nat) (u : Uart) : Option Uart := iterate pollLsr fuel u

/-- A byte, once the transmitter is empty. -/
def sendByte (fuel : Nat) (u : Uart) (ch : UInt8) : Option Uart :=
  match waitEmpty fuel u with
  | none => none
  | some u => some (u.writeData ch)

def sendBytes (fuel : Nat) : Uart → List UInt8 → Option Uart
  | u, [] => some u
  | u, ch :: str =>
      match sendByte fuel u ch with
      | none => none
      | some u => sendBytes fuel u str

/-- The body of the functions below, where there is a UART. -/
def Serial.send (fuel : Nat) (s : Serial) (str : List UInt8) : Option Serial :=
  if !s.present then some s
  else
    match sendBytes fuel s.uart str with
    | none => none
    | some u => some { s with uart := u }

/-- `early_uart_putc(ch)`. -/
def earlyUartPutc (fuel : Nat) (ch : UInt8) (s : Serial) : Option Serial := s.send fuel [ch]

/-- `early_uart_puts(str)`, of a string up to its terminator. -/
def earlyUartPuts (fuel : Nat) (str : List UInt8) (s : Serial) : Option Serial := s.send fuel str

/-- `early_uart_write(str, n)`. -/
def earlyUartWrite (fuel : Nat) (str : List UInt8) (n : Nat) (s : Serial) : Option Serial :=
  s.send fuel (str.take n)

/-- `get_level_ansi(level)`. -/
def getLevelAnsi (level : Int) : List UInt8 :=
  if level = 0 then literal "\x1B[1;37;41m"
  else if level = 1 then literal "\x1B[1;31m"
  else if level = 2 ∨ level = 3 then literal "\x1B[0;91m"
  else if level = 4 then literal "\x1B[0;93m"
  else if level = 5 then literal "\x1B[0;97m"
  else literal "\x1B[0m"

/-- `early_uart_log_write(level, str, n)`, with `n` the length of the string. -/
def earlyUartLogWrite (fuel : Nat) (level : Int) (str : List UInt8) (s : Serial) : Option Serial :=
  if !s.present ∨ str.length = 0 then some s
  else do
    let s ← earlyUartPuts fuel (getLevelAnsi level) s
    let s ← earlyUartWrite fuel str (str.length - 1) s
    if str.getLast? = some '\n'.toUInt8 then earlyUartPuts fuel (literal "\x1B[0m\n") s
    else do
      let s ← earlyUartPutc fuel (str.getLast?.getD 0) s
      earlyUartPuts fuel (literal "\x1B[0m") s

/-! ## What is sent -/

variable {fuel : Nat} {u : Uart} {s : Serial}

/-- A transmitter that sends what it is given, and is never busy for `fuel`
polls. -/
structure Uart.Ready (u : Uart) (fuel : Nat) : Prop where
  divisor : u.lcr &&& 0x80 = 0
  loop : u.mcr &&& 0x10 = 0
  wait : ∀ n, u.wait n < fuel
  busy : u.busy < fuel

theorem waitEmpty_of_lt (h : u.busy < fuel) : waitEmpty fuel u = some { u with busy := 0 } := by
  induction fuel generalizing u with
  | zero => exact absurd h (Nat.not_lt_zero _)
  | succ fuel ih =>
      by_cases hbusy : u.busy = 0
      · have hbody : pollLsr u = .inr { u with busy := 0 } := by
          simp only [pollLsr, Uart.readLsr, hbusy, if_true]
          exact if_neg (by decide)
        exact iterate_done hbody fuel
      · have hbody : pollLsr u = .inl { u with busy := u.busy - 1 } := by
          simp only [pollLsr, Uart.readLsr, if_neg hbusy]
          exact if_pos rfl
        refine (iterate_next hbody fuel).trans (ih ?_)
        show u.busy - 1 < fuel
        omega

theorem Uart.Ready.sendByte (h : u.Ready fuel) (ch : UInt8) : ∃ u',
    sendByte fuel u ch = some u' ∧ u'.line = u.line ++ [ch] ∧ u'.Ready fuel := by
  unfold Driver.sendByte
  rw [waitEmpty_of_lt h.busy]
  refine ⟨_, rfl, ?_⟩
  unfold Uart.writeData
  rw [if_neg (not_not_intro h.divisor), if_neg (not_not_intro h.loop), if_pos rfl]
  exact ⟨rfl, h.divisor, h.loop, h.wait, h.wait _⟩

/-- **No byte is lost**, and the order is kept. -/
theorem Uart.Ready.sendBytes (str : List UInt8) : ∀ {u : Uart}, u.Ready fuel → ∃ u',
    sendBytes fuel u str = some u' ∧ u'.line = u.line ++ str ∧ u'.Ready fuel := by
  induction str with
  | nil => exact fun h => ⟨_, rfl, (List.append_nil _).symm, h⟩
  | cons ch str ih =>
      intro u h
      obtain ⟨u₁, hone, hline, h₁⟩ := h.sendByte ch
      obtain ⟨u', hall, hline', h'⟩ := ih h₁
      refine ⟨u', ?_, ?_, h'⟩
      · rw [Driver.sendBytes, hone]
        exact hall
      · rw [hline', hline, List.append_assoc]
        rfl

/-- A UART that has passed its test. -/
structure Serial.Live (s : Serial) (fuel : Nat) : Prop where
  present : s.present = true
  ready : s.uart.Ready fuel

theorem Serial.Live.send (h : s.Live fuel) (str : List UInt8) : ∃ s',
    s.send fuel str = some s' ∧ s'.uart.line = s.uart.line ++ str ∧ s'.Live fuel := by
  obtain ⟨u', hall, hline, h'⟩ := Uart.Ready.sendBytes str h.ready
  refine ⟨{ s with uart := u' }, ?_, hline, h.present, h'⟩
  unfold Serial.send
  rw [h.present, hall]
  rfl

/-- The bytes of a call of the log, with `last` the last one of its string. -/
def logBytes (level : Int) (front : List UInt8) (last : UInt8) : List UInt8 :=
  getLevelAnsi level ++ front ++
    if last = '\n'.toUInt8 then literal "\x1B[0m\n" else last :: literal "\x1B[0m"

theorem Serial.Live.logWrite (h : s.Live fuel) (level : Int) (front : List UInt8) (last : UInt8) :
    ∃ s', earlyUartLogWrite fuel level (front ++ [last]) s = some s' ∧
      s'.uart.line = s.uart.line ++ logBytes level front last ∧ s'.Live fuel := by
  have hgoes : ¬ ((!s.present) = true ∨ (front ++ [last]).length = 0) := by
    rw [h.present, List.length_append]
    simp
  have htake : (front ++ [last]).take ((front ++ [last]).length - 1) = front := by
    rw [List.length_append]
    exact List.take_left
  obtain ⟨s₁, hcolor, hline₁, h₁⟩ := h.send (getLevelAnsi level)
  obtain ⟨s₂, hfront, hline₂, h₂⟩ := h₁.send front
  unfold earlyUartLogWrite logBytes
  rw [if_neg hgoes, List.getLast?_concat]
  by_cases hlast : last = '\n'.toUInt8
  · subst hlast
    obtain ⟨s₃, hreset, hline₃, h₃⟩ := h₂.send (literal "\x1B[0m\n")
    refine ⟨s₃, ?_, ?_, h₃⟩
    · simp only [earlyUartPuts, earlyUartWrite, hcolor, htake, hfront, hreset,
        Option.bind_eq_bind, Option.bind_some, if_true]
    · rw [if_pos rfl, hline₃, hline₂, hline₁, List.append_assoc, List.append_assoc,
        List.append_assoc]
  · obtain ⟨s₃, hch, hline₃, h₃⟩ := h₂.send [last]
    obtain ⟨s₄, hreset, hline₄, h₄⟩ := h₃.send (literal "\x1B[0m")
    refine ⟨s₄, ?_, ?_, h₄⟩
    · simp only [earlyUartPuts, earlyUartWrite, earlyUartPutc, hcolor, htake, hfront, hch, hreset,
        Option.getD_some, Option.some.injEq, hlast, Option.bind_eq_bind, Option.bind_some, if_false]
    · rw [if_neg hlast, hline₄, hline₃, hline₂, hline₁]
      simp only [List.append_assoc, List.singleton_append]

/-! ## What a terminal shows -/

/-- The style of a level. -/
def levelStyle (level : Int) : Style :=
  if level = 0 then ⟨true, some 7, some 1⟩
  else if level = 1 then ⟨true, some 1, none⟩
  else if level = 2 ∨ level = 3 then ⟨false, some 9, none⟩
  else if level = 4 then ⟨false, some 11, none⟩
  else if level = 5 then ⟨false, some 15, none⟩
  else .plain

/-- What a call shows: the last character in the level's style too, unless it is a
newline. -/
def logShown (level : Int) (front : List UInt8) (last : UInt8) : List (Style × UInt8) :=
  front.map (fun b => (levelStyle level, b)) ++
    [(if last = '\n'.toUInt8 then .plain else levelStyle level, last)]

def isNewline (b : UInt8) : Bool := b = '\n'.toUInt8

theorem feedAll_level (level : Int) (shown : List (Style × UInt8)) :
    StyledText.feedAll ⟨.ground, .plain, shown⟩ (getLevelAnsi level) =
      ⟨.ground, levelStyle level, shown⟩ := by
  unfold getLevelAnsi levelStyle
  split_ifs
  all_goals rfl

theorem feedAll_reset (style : Style) (shown : List (Style × UInt8)) :
    StyledText.feedAll ⟨.ground, style, shown⟩ (literal "\x1B[0m") = ⟨.ground, .plain, shown⟩ := rfl

/-- **A call** shows its string and leaves no style behind. -/
theorem feedAll_logBytes (level : Int) {front : List UInt8} {last : UInt8}
    (hesc : 0x1B ∉ front ++ [last]) (shown : List (Style × UInt8)) :
    StyledText.feedAll ⟨.ground, .plain, shown⟩ (logBytes level front last) =
      ⟨.ground, .plain, shown ++ logShown level front last⟩ := by
  have hfront : (0x1B : UInt8) ∉ front := fun hc => hesc (List.mem_append_left _ hc)
  have hlast : (0x1B : UInt8) ∉ [last] := fun hc => hesc (List.mem_append_right _ hc)
  unfold logBytes logShown
  rw [StyledText.feedAll_append, StyledText.feedAll_append, feedAll_level,
    StyledText.feedAll_text _ hfront, ← List.append_assoc]
  split
  · rename_i hnl
    show StyledText.feedAll _ (literal "\x1B[0m" ++ ['\n'.toUInt8]) = _
    rw [StyledText.feedAll_append, feedAll_reset, StyledText.feedAll_text _ (by decide), hnl]
    rfl
  · show StyledText.feedAll _ ([last] ++ literal "\x1B[0m") = _
    rw [StyledText.feedAll_append, StyledText.feedAll_text _ hlast, feedAll_reset]
    rfl

theorem logShown_text (level : Int) (front : List UInt8) (last : UInt8) :
    (logShown level front last).map Prod.snd = front ++ [last] := by
  simp [logShown]

/-- The characters that can be seen are in the style of the level. -/
theorem logShown_style (level : Int) (front : List UInt8) (last : UInt8) :
    (logShown level front last).filter (fun c => !isNewline c.2) =
      ((front ++ [last]).filter fun b => !isNewline b).map fun b => (levelStyle level, b) := by
  unfold logShown
  rw [List.filter_append, List.filter_append, List.map_append, List.filter_map]
  congr 1
  by_cases hnl : last = '\n'.toUInt8
  · simp [hnl, isNewline]
  · simp [hnl, isNewline]

/-! ## The initialisation -/

/-- The registers that `early_uart_init` leaves, whatever they were. -/
theorem earlyUartInit_eq (u : Uart) : earlyUartInit u =
    let u' := { u.writeIer 0x00 with
      lcr := 0x03, fcr := 0xC7, mcr := 0x1E, divisorLow := 0x03, divisorHigh := 0x00,
      received := (u.writeIer 0x00).loopback 0xAE }
    if (u.writeIer 0x00).loopback 0xAE = 0xAE then ⟨{ u' with mcr := 0x0F }, true⟩
    else ⟨u', false⟩ := by
  generalize hfirst : u.writeIer 0x00 = v
  have hlow : ({ v with lcr := 0x80 } : Uart).writeData 0x03 =
      { v with lcr := 0x80, divisorLow := 0x03 } :=
    if_pos (show (0x80 : UInt8) &&& 0x80 ≠ 0 by decide)
  have hhigh : ({ v with lcr := 0x80, divisorLow := 0x03 } : Uart).writeIer 0x00 =
      { v with lcr := 0x80, divisorLow := 0x03, divisorHigh := 0x00 } :=
    if_pos (show (0x80 : UInt8) &&& 0x80 ≠ 0 by decide)
  have hloop : ({ v with
      lcr := 0x03, divisorLow := 0x03, divisorHigh := 0x00, fcr := 0xC7,
      mcr := 0x1E } : Uart).writeData 0xAE = { v with
      lcr := 0x03, divisorLow := 0x03, divisorHigh := 0x00, fcr := 0xC7, mcr := 0x1E,
      received := v.loopback 0xAE } :=
    (if_neg (not_not_intro (show (0x03 : UInt8) &&& 0x80 = 0 by decide))).trans
      (if_pos (show (0x1E : UInt8) &&& 0x10 ≠ 0 by decide))
  unfold earlyUartInit
  simp only [hfirst, hlow, hhigh, hloop]

/-- What the first write leaves alone. -/
theorem writeIer_frame (u : Uart) (value : UInt8) :
    (u.writeIer value).loopback = u.loopback ∧ (u.writeIer value).wait = u.wait ∧
    (u.writeIer value).busy = u.busy ∧ (u.writeIer value).line = u.line := by
  unfold Uart.writeIer
  split
  · exact ⟨rfl, rfl, rfl, rfl⟩
  · exact ⟨rfl, rfl, rfl, rfl⟩

/-- The test byte comes back, and does not go out. -/
theorem earlyUartInit_live (hloop : u.loopback 0xAE = 0xAE) (hwait : ∀ n, u.wait n < fuel)
    (hbusy : u.busy < fuel) :
    (earlyUartInit u).Live fuel ∧ (earlyUartInit u).uart.line = u.line := by
  obtain ⟨hl, hw, hb, hline⟩ := writeIer_frame u 0x00
  rw [earlyUartInit_eq, hl]
  dsimp only
  rw [if_pos hloop]
  refine ⟨⟨rfl, show (0x03 : UInt8) &&& 0x80 = 0 by decide,
    show (0x0F : UInt8) &&& 0x10 = 0 by decide, fun n => ?_, ?_⟩, hline⟩
  · show (u.writeIer 0x00).wait n < fuel
    rw [hw]
    exact hwait n
  · show (u.writeIer 0x00).busy < fuel
    rw [hb]
    exact hbusy

theorem earlyUartInit_absent (hloop : u.loopback 0xAE ≠ 0xAE) :
    (earlyUartInit u).present = false ∧ (earlyUartInit u).uart.line = u.line := by
  obtain ⟨hl, -, -, hline⟩ := writeIer_frame u 0x00
  rw [earlyUartInit_eq, hl]
  dsimp only
  rw [if_neg hloop]
  exact ⟨rfl, hline⟩

/-! ## The log -/

/-- Calls of the sink, one after the other. -/
def logCalls (fuel : Nat) : List (Int × List UInt8) → Serial → Option Serial
  | [], s => some s
  | (level, str) :: calls, s =>
      match earlyUartLogWrite fuel level str s with
      | none => none
      | some s => logCalls fuel calls s

theorem logCalls_absent (h : s.present = false) (calls : List (Int × List UInt8)) :
    logCalls fuel calls s = some s := by
  induction calls with
  | nil => rfl
  | cons call calls ih =>
      have hnone : earlyUartLogWrite fuel call.1 call.2 s = some s :=
        if_pos (.inl (by rw [h]; rfl))
      rw [logCalls, hnone]
      exact ih

/-- The strings of calls, with the styles of their levels, where they can be
seen. -/
structure Shows (calls : List (Int × List UInt8)) (shown : List (Style × UInt8)) : Prop where
  text : shown.map Prod.snd = calls.flatMap Prod.snd
  style : shown.filter (fun c => !isNewline c.2) = calls.flatMap fun c =>
    (c.2.filter fun b => !isNewline b).map fun b => (levelStyle c.1, b)

/-- **The log on the line** is the log on the terminal. -/
theorem Serial.Live.logCalls (calls : List (Int × List UInt8)) : ∀ {s : Serial}, s.Live fuel →
    (∀ c ∈ calls, 0x1B ∉ c.2) → ∃ s' out shown, logCalls fuel calls s = some s' ∧
      s'.uart.line = s.uart.line ++ out ∧ Shows calls shown ∧
      ∀ before, StyledText.feedAll ⟨.ground, .plain, before⟩ out =
        ⟨.ground, .plain, before ++ shown⟩ := by
  induction calls with
  | nil =>
      intro s h _
      exact ⟨s, [], [], rfl, (List.append_nil _).symm, ⟨rfl, rfl⟩,
        fun before => congrArg (StyledText.mk _ _) (List.append_nil before).symm⟩
  | cons call calls ih =>
      intro s h hesc
      obtain ⟨level, str⟩ := call
      have hrest : ∀ c ∈ calls, 0x1B ∉ c.2 := fun c hc => hesc c (List.mem_cons_of_mem _ hc)
      rcases List.eq_nil_or_concat' str with rfl | ⟨front, last, rfl⟩
      · obtain ⟨s', out, shown, hall, hline, hshows, hfeed⟩ := ih h hrest
        refine ⟨s', out, shown, ?_, hline, ⟨hshows.text, hshows.style⟩, hfeed⟩
        have hnone : earlyUartLogWrite fuel level [] s = some s := if_pos (.inr rfl)
        rw [Driver.logCalls, hnone]
        exact hall
      · obtain ⟨s₁, hone, hline₁, h₁⟩ := h.logWrite level front last
        obtain ⟨s', out, shown, hall, hline, hshows, hfeed⟩ := ih h₁ hrest
        have hstr := hesc _ List.mem_cons_self
        refine ⟨s', logBytes level front last ++ out, logShown level front last ++ shown, ?_, ?_,
          ⟨?_, ?_⟩, fun before => ?_⟩
        · rw [Driver.logCalls, hone]
          exact hall
        · rw [hline, hline₁, List.append_assoc]
        · rw [List.map_append, logShown_text, hshows.text]
          rfl
        · rw [List.filter_append, hshows.style]
          exact congrArg (· ++ _) (logShown_style level front last)
        · rw [StyledText.feedAll_append, feedAll_logBytes level hstr, hfeed, List.append_assoc]

/-! ## `printk` -/

section Printk

variable {μ : Type}

/-- A call of `printkl`, with the memory that it finds. -/
structure PrintkCall (μ : Type) where
  level : Int
  fmt : Option (List UInt8)
  args : List UInt64
  mem : μ

/-- The text of a call. -/
def PrintkCall.text (mem : Memory μ) (call : PrintkCall μ) : List UInt8 :=
  (plain mem call.fmt call.args call.mem).1

/-- What sink `i` is called with by calls of `printkl`. -/
def sinkCalls (sinks : Fin maxSinks → PrintkSink) (mem : Memory μ) (i : Fin maxSinks)
    (calls : List (PrintkCall μ)) : List (Int × List UInt8) :=
  calls.flatMap fun call =>
    writesTo i (vprintkl sinks mem call.level call.fmt call.args call.mem).2.1.writes

/-- A call gives a sink its text, in chunks. -/
theorem vprintkl_chunks (sinks : Fin maxSinks → PrintkSink) (mem : Memory μ) {i : Fin maxSinks}
    (hi : (sinks i).present = true) (call : PrintkCall μ) :
    ∃ chunks : List (List UInt8), chunks.flatten = call.text mem ∧
      writesTo i (vprintkl sinks mem call.level call.fmt call.args call.mem).2.1.writes =
        chunks.map fun c => (call.level, c) := by
  obtain ⟨level, fmt, args, m⟩ := call
  cases fmt with
  | none => exact ⟨[], rfl, rfl⟩
  | some fmt =>
      have hstep : InStep (Buffers sinks level)
          (format (buffered sinks) mem fmt ⟨⟨[], level, 0, []⟩, args, m⟩)
          (format unbuffered mem fmt ⟨[], args, m⟩) :=
        formatLoop_sim (buffered_simulates sinks level) mem _ _
          ⟨buffers_start sinks level, rfl, rfl⟩
      obtain ⟨⟨-, -, chunks, hchunks, hwrites⟩, hempty⟩ := Buffers.flush sinks hstep.out
      have hall := hchunks.contents
      rw [hempty, List.append_nil] at hall
      refine ⟨chunks, hall, ?_⟩
      show writesTo i (flush sinks _).writes = _
      rw [hwrites, writesTo_flatMap, if_pos hi]

theorem chunks_text (level : Int) (chunks : List (List UInt8)) :
    (chunks.map fun c => (level, c)).flatMap Prod.snd = chunks.flatten ∧
    ((chunks.map fun c => (level, c)).flatMap fun c =>
        (c.2.filter fun b => !isNewline b).map fun b => (levelStyle c.1, b)) =
      (chunks.flatten.filter fun b => !isNewline b).map fun b => (levelStyle level, b) := by
  induction chunks with
  | nil => exact ⟨rfl, rfl⟩
  | cons c chunks ih =>
      simp only [List.map_cons, List.flatMap_cons, List.flatten_cons, List.filter_append,
        List.map_append, ih.1, ih.2, and_self]

/-- The chunks are the texts, of all calls. -/
theorem sinkCalls_text (sinks : Fin maxSinks → PrintkSink) (mem : Memory μ) {i : Fin maxSinks}
    (hi : (sinks i).present = true) (calls : List (PrintkCall μ)) :
    (sinkCalls sinks mem i calls).flatMap Prod.snd = calls.flatMap (PrintkCall.text mem) ∧
    ((sinkCalls sinks mem i calls).flatMap fun c =>
        (c.2.filter fun b => !isNewline b).map fun b => (levelStyle c.1, b)) =
      calls.flatMap fun call => ((call.text mem).filter fun b => !isNewline b).map fun b =>
        (levelStyle call.level, b) := by
  induction calls with
  | nil => exact ⟨rfl, rfl⟩
  | cons call calls ih =>
      obtain ⟨chunks, hflat, hwrites⟩ := vprintkl_chunks sinks mem hi call
      obtain ⟨htext, hstyle⟩ := chunks_text call.level chunks
      have hcons : sinkCalls sinks mem i (call :: calls) =
          (chunks.map fun c => (call.level, c)) ++ sinkCalls sinks mem i calls := by
        rw [sinkCalls, List.flatMap_cons, hwrites]
        rfl
      rw [hcons, List.flatMap_append, List.flatMap_append, htext, hstyle, hflat, ih.1, ih.2]
      exact ⟨rfl, rfl⟩

/-- **The serial log**: whatever is printed, if the text has no escape in it, a
terminal on the line shows exactly the text, each character that can be seen in the
style of its level, and is back at its own style; every byte goes out, and none where
the loopback test has failed. -/
theorem serial_log_faithful (sinks : Fin maxSinks → PrintkSink) (mem : Memory μ)
    (i : Fin maxSinks) (hi : (sinks i).present = true) (calls : List (PrintkCall μ))
    (hesc : ∀ call ∈ calls, 0x1B ∉ call.text mem) (u : Uart) (fuel : Nat)
    (hwait : ∀ n, u.wait n < fuel) (hbusy : u.busy < fuel) :
    ∃ s out, logCalls fuel (sinkCalls sinks mem i calls) (earlyUartInit u) = some s ∧
      s.uart.line = u.line ++ out ∧
      (u.loopback 0xAE ≠ 0xAE → out = []) ∧
      (u.loopback 0xAE = 0xAE → ∃ shown,
        StyledText.start.feedAll out = ⟨.ground, .plain, shown⟩ ∧
        shown.map Prod.snd = calls.flatMap (PrintkCall.text mem) ∧
        shown.filter (fun c => !isNewline c.2) = calls.flatMap fun call =>
          ((call.text mem).filter fun b => !isNewline b).map fun b =>
            (levelStyle call.level, b)) := by
  obtain ⟨htext, hstyle⟩ := sinkCalls_text sinks mem hi calls
  by_cases hloop : u.loopback 0xAE = 0xAE
  · obtain ⟨hlive, hline⟩ := earlyUartInit_live hloop hwait hbusy
    have hall : ∀ c ∈ sinkCalls sinks mem i calls, 0x1B ∉ c.2 := by
      intro c hc hb
      have hin : (0x1B : UInt8) ∈ (sinkCalls sinks mem i calls).flatMap Prod.snd :=
        List.mem_flatMap.mpr ⟨c, hc, hb⟩
      rw [htext] at hin
      obtain ⟨call, hcall, hin⟩ := List.mem_flatMap.mp hin
      exact hesc call hcall hin
    obtain ⟨s, out, shown, hrun, hout, hshows, hfeed⟩ := hlive.logCalls _ hall
    refine ⟨s, out, hrun, by rw [hout, hline], fun hno => absurd hloop hno, fun _ =>
      ⟨shown, hfeed [], hshows.text.trans htext, hshows.style.trans hstyle⟩⟩
  · obtain ⟨habsent, hline⟩ := earlyUartInit_absent hloop
    exact ⟨_, [], logCalls_absent habsent _, by rw [hline, List.append_nil], fun _ => rfl,
      fun hyes => absurd hyes hloop⟩

/-- A UART that takes two polls for a byte. -/
def slowUart : Uart := ⟨0, 0x80, 0, 0, 0, 0, id, 0, fun _ => 2, 1, []⟩

def lastSlot : Fin maxSinks := ⟨7, Nat.lt_succ_self 7⟩

def twoCalls : List (PrintkCall Unit) :=
  [⟨4, some (literal "free: %d\n"), [12], ()⟩, ⟨1, some (literal "%s"), [], ()⟩]

theorem serial_log_faithful_two :
    (∀ call ∈ twoCalls, 0x1B ∉ call.text noMemory) ∧
    ∃ s out, logCalls 3 (sinkCalls twoSinks noMemory lastSlot twoCalls) (earlyUartInit slowUart) =
        some s ∧
      s.uart.line = slowUart.line ++ out ∧
      (slowUart.loopback 0xAE ≠ 0xAE → out = []) ∧
      (slowUart.loopback 0xAE = 0xAE → ∃ shown,
        StyledText.start.feedAll out = ⟨.ground, .plain, shown⟩ ∧
        shown.map Prod.snd = twoCalls.flatMap (PrintkCall.text noMemory) ∧
        shown.filter (fun c => !isNewline c.2) = twoCalls.flatMap fun call =>
          ((call.text noMemory).filter fun b => !isNewline b).map fun b =>
            (levelStyle call.level, b)) :=
  have hesc : ∀ call ∈ twoCalls, 0x1B ∉ call.text noMemory := by decide +kernel
  ⟨hesc, serial_log_faithful twoSinks noMemory lastSlot (by decide) twoCalls hesc slowUart 3
    (fun _ => show 2 < 3 by decide) (show 1 < 3 by decide)⟩

end Printk

end DevOS.Driver
