import DevOS.Sched.Sched
import DevOS.Lib.FirstMatch

/-!
# Arch — the interrupt controllers

`arch/x86/pic.c` over the two controllers that it programs. What a controller
does with a command or a data byte, which request it passes on and what an
acknowledge of the CPU does to it is the 8259A's; `io_wait`, a write to a port
that nothing listens to, is left out.

`pic_send_EOI` is called with whatever number `irq_dispatch` computes. It always
writes to the master, and the slave's lines are all masked, so every number ends
the interrupt that is in service.
-/

namespace DevOS.Arch

open DevOS.Sched

/-! ## The controllers -/

/-- A byte that an initialisation expects on the data port. -/
inductive Icw where
  | vectorBase
  | wiring
  | mode
deriving DecidableEq, Repr

/-- A controller: the latched requests, the lines in service, and what it has
been programmed with. -/
structure Pic8259 where
  requested : Fin 8 → Bool
  inService : Fin 8 → Bool
  mask : UInt8
  base : UInt8
  expects : List Icw

/-- The line of highest priority. -/
def firstLine (q : Fin 8 → Bool) : Option (Fin 8) := (List.finRange 8).find? q

def Pic8259.masked (p : Pic8259) (i : Fin 8) : Bool := p.mask.toNat.testBit i

/-- The request that is passed on: not masked, and above what is in service. -/
def Pic8259.pending (p : Pic8259) : Option (Fin 8) :=
  match firstLine fun i => p.requested i && !p.masked i with
  | none => none
  | some i =>
      match firstLine p.inService with
      | none => some i
      | some j => if i < j then some i else none

def Pic8259.acknowledge (p : Pic8259) (i : Fin 8) : Pic8259 :=
  { p with
    requested := Function.update p.requested i false
    inService := Function.update p.inService i true }

/-- A byte on the command port: an initialisation, or the end of the interrupt of
highest priority in service. Nothing else is sent. -/
def Pic8259.command (p : Pic8259) (value : UInt8) : Pic8259 :=
  if value &&& 0x10 ≠ 0 then
    { requested := fun _ => false
      inService := fun _ => false
      mask := 0
      base := p.base
      expects := .vectorBase :: ((if value &&& 0x02 = 0 then [.wiring] else []) ++
        if value &&& 0x01 ≠ 0 then [.mode] else []) }
  else if value = 0x20 then
    match firstLine p.inService with
    | none => p
    | some i => { p with inService := Function.update p.inService i false }
  else p

/-- A byte on the data port. -/
def Pic8259.data (p : Pic8259) (value : UInt8) : Pic8259 :=
  match p.expects with
  | [] => { p with mask := value }
  | .vectorBase :: rest => { p with base := value &&& 0xF8, expects := rest }
  | _ :: rest => { p with expects := rest }

/-- The slave's output is line 2 of the master. -/
structure Pics where
  master : Pic8259
  slave : Pic8259

def Pics.outb (p : Pics) (w : Nat × UInt8) : Pics :=
  if w.1 = 0x20 then { p with master := p.master.command w.2 }
  else if w.1 = 0x21 then { p with master := p.master.data w.2 }
  else if w.1 = 0xA0 then { p with slave := p.slave.command w.2 }
  else if w.1 = 0xA1 then { p with slave := p.slave.data w.2 }
  else p

def Pics.outbs (p : Pics) (ws : List (Nat × UInt8)) : Pics := ws.foldl Pics.outb p

theorem mod8_lt (n : Nat) : n % 8 < 8 := Nat.mod_lt n (Nat.zero_lt_succ 7)

/-- A line among those of its controller. -/
def lineAt (n : Nat) : Fin 8 := ⟨n % 8, mod8_lt n⟩

/-- A device raises its line. No device has line 2. -/
def Pics.raise (p : Pics) (line : Fin 16) : Pics :=
  if line.val < 8 then
    if line.val = 2 then p
    else { p with master := { p.master with
      requested := Function.update p.master.requested (lineAt line) true } }
  else { p with slave := { p.slave with
    requested := Function.update p.slave.requested (lineAt line) true } }

/-- The master with its line 2 as the slave drives it. -/
def Pics.wired (p : Pics) : Pic8259 :=
  { p.master with
    requested := fun i => p.master.requested i || (i.val == 2 && p.slave.pending.isSome) }

/-- The CPU acknowledges: the vector, or `none` where no interrupt is asserted. -/
def Pics.acknowledge (p : Pics) : Option (UInt8 × Pics) :=
  match p.wired.pending with
  | none => none
  | some i =>
      let master := p.master.acknowledge i
      if i.val = 2 then
        match p.slave.pending with
        | some j => some (p.slave.base + UInt8.ofNat j, ⟨master, p.slave.acknowledge j⟩)
        | none => some (p.slave.base + 7, ⟨master, p.slave⟩)
      else some (p.master.base + UInt8.ofNat i, ⟨master, p.slave⟩)

/-! ## The driver -/

def remapPanic1 : String := "Attemoted to remap PIC1 to IRQ %#X!\n"
def remapPanic2 : String := "Attemoted to remap PIC2 to IRQ %#X!\n"
def overlapPanic : String := "Requested remap would cause PIC2 to overlap PIC1!\n"

/-- `1 << n`, converted to `uint8_t`. -/
def bit8 (n : Nat) : UInt8 := UInt8.ofNat (1 <<< n)

/-- `pic_remap(offset1, offset2)`. -/
def picRemap (offset1 offset2 : Int) (p : Pics) : Except String Pics :=
  if offset1 < 32 ∨ offset1 ≥ 248 then .error remapPanic1
  else if offset2 < 32 ∨ offset2 ≥ 248 then .error remapPanic2
  else if (if offset1 > offset2 then offset1 - offset2 else offset2 - offset1) < 8 then
    .error overlapPanic
  else .ok (p.outbs [(0x20, 0x11), (0xA0, 0x11),
    (0x21, UInt8.ofNat offset1.toNat), (0xA1, UInt8.ofNat offset2.toNat),
    (0x21, bit8 2), (0xA1, 2), (0x21, 0x01), (0xA1, 0x01),
    (0x21, 0xFF - bit8 2), (0xA1, 0xFF)])

/-- `pic_mask(irq)`. -/
def picMask (irq : UInt8) (p : Pics) : Pics :=
  if irq ≥ 8 then p.outb (0xA1, p.slave.mask ||| bit8 (irq.toNat - 8))
  else p.outb (0x21, p.master.mask ||| bit8 irq.toNat)

/-- `pic_unmask(irq)`. -/
def picUnmask (irq : UInt8) (p : Pics) : Pics :=
  if irq ≥ 8 then p.outb (0xA1, p.slave.mask &&& ~~~bit8 (irq.toNat - 8))
  else p.outb (0x21, p.master.mask &&& ~~~bit8 irq.toNat)

/-! ## In operation -/

variable {p : Pics}

/-- As `irq_init` leaves the controllers, with at most one line in service. -/
structure Pics.Serves (p : Pics) (busy : Option (Fin 8)) : Prop where
  master : p.master.mask = 0xF8 ∧ p.master.base = 32 ∧ p.master.expects = []
  slave : p.slave.mask = 0xFF ∧ p.slave.base = 40 ∧ p.slave.expects = []
  cascade : p.master.requested 2 = false
  service : ∀ i, p.master.inService i = true ↔ busy = some i
  idle : ∀ i, p.slave.inService i = false

theorem firstLine_none {q : Fin 8 → Bool} (h : ∀ i, q i = false) : firstLine q = none := by
  rw [firstLine, List.find?_eq_none]
  intro i _
  rw [h i]
  exact Bool.false_ne_true

theorem firstLine_some {q : Fin 8 → Bool} {i : Fin 8} (h : firstLine q = some i) :
    q i = true := List.find?_some h

theorem firstLine_isSome {q : Fin 8 → Bool} {i : Fin 8} (h : q i = true) :
    ∃ j, firstLine q = some j := by
  apply Option.isSome_iff_exists.mp
  rw [firstLine, List.find?_isSome]
  exact ⟨i, List.mem_finRange i, h⟩

/-- Only lines 0 and 1 are open, and the cascade. -/
theorem Pics.Serves.masked {busy : Option (Fin 8)} (h : p.Serves busy) (i : Fin 8) :
    p.master.masked i = decide (3 ≤ i) := by
  rw [Pic8259.masked, h.master.1]
  revert i
  decide

/-- The slave asserts nothing. -/
theorem Pics.Serves.slave_pending {busy : Option (Fin 8)} (h : p.Serves busy) :
    p.slave.pending = none := by
  have hall : ∀ i, (p.slave.requested i && !p.slave.masked i) = false := by
    intro i
    have hmasked : p.slave.masked i = true := by
      rw [Pic8259.masked, h.slave.1]
      revert i
      decide
    rw [hmasked, Bool.not_true, Bool.and_false]
  rw [Pic8259.pending, firstLine_none hall]

theorem Pics.Serves.wired {busy : Option (Fin 8)} (h : p.Serves busy) : p.wired = p.master := by
  unfold Pics.wired
  rw [h.slave_pending]
  simp only [Option.isSome_none, Bool.and_false, Bool.or_false]

/-- What the CPU sees with no line in service. -/
theorem Pics.Serves.pending (h : p.Serves none) :
    p.master.pending = firstLine fun i => p.master.requested i && !decide (3 ≤ i) := by
  have hfree : firstLine p.master.inService = none := by
    apply firstLine_none
    intro i
    rw [Bool.eq_false_iff]
    intro hi
    cases (h.service i).mp hi
  rw [Pic8259.pending, hfree]
  simp only [h.masked]
  split
  · rename_i hnone
    exact hnone.symm
  · rename_i hsome
    exact hsome.symm

/-- **An acknowledge** is of line 0 or 1, by its own vector. -/
theorem Pics.Serves.acknowledge (h : p.Serves none) {v : UInt8} {p' : Pics}
    (hack : p.acknowledge = some (v, p')) :
    ∃ i : Fin 8, i < 2 ∧ p.master.requested i = true ∧ v = 32 + UInt8.ofNat i ∧
      p' = ⟨p.master.acknowledge i, p.slave⟩ ∧ p'.Serves (some i) := by
  unfold Pics.acknowledge at hack
  rw [h.wired, h.pending] at hack
  split at hack
  · cases hack
  · rename_i i hfirst
    have hreq := firstLine_some hfirst
    rw [Bool.and_eq_true, Bool.not_eq_true', decide_eq_false_iff_not, not_le] at hreq
    have hne : i ≠ 2 := by
      rintro rfl
      rw [h.cascade] at hreq
      cases hreq.1
    have hval : i.val ≠ 2 := fun hc => hne (Fin.ext hc)
    have hlt : i < 2 := by
      have := hreq.2
      omega
    rw [if_neg hval, h.master.2.1] at hack
    cases hack
    refine ⟨i, hlt, hreq.1, rfl, rfl, h.master, h.slave, ?_, fun j => ?_, h.idle⟩
    · exact (Function.update_of_ne hne.symm ..).trans h.cascade
    · show Function.update p.master.inService i true j = true ↔ _
      by_cases hj : j = i
      · subst hj
        simp
      · rw [Function.update_of_ne hj, h.service j]
        simp [Ne.symm hj]

theorem Pics.Serves.raise {busy : Option (Fin 8)} (h : p.Serves busy) (line : Fin 16) :
    (p.raise line).Serves busy := by
  unfold Pics.raise
  split
  · rename_i hlt
    split
    · exact h
    · rename_i hne
      refine ⟨h.master, h.slave, ?_, h.service, h.idle⟩
      refine (Function.update_of_ne (fun hc => hne ?_) ..).trans h.cascade
      have hval : 2 = line.val % 8 := congrArg Fin.val hc
      rw [Nat.mod_eq_of_lt hlt] at hval
      exact hval.symm
  · exact ⟨h.master, h.slave, h.cascade, h.service, h.idle⟩

/-- What the master does with the end of an interrupt. -/
theorem Pics.Serves.eoi {busy : Option (Fin 8)} (h : p.Serves busy) :
    (p.outb (0x20, 0x20)).Serves none ∧
    (p.outb (0x20, 0x20)).master.requested = p.master.requested := by
  have hcommand : p.outb (0x20, 0x20) =
      { p with master := match firstLine p.master.inService with
        | none => p.master
        | some i => { p.master with inService := Function.update p.master.inService i false } } :=
    rfl
  rw [hcommand]
  split
  · rename_i hnone
    refine ⟨⟨h.master, h.slave, h.cascade, fun i => ⟨fun hi => ?_, nofun⟩, h.idle⟩, rfl⟩
    obtain ⟨j, hj⟩ := firstLine_isSome hi
    rw [hnone] at hj
    cases hj
  · rename_i i hsome
    have hbusy := (h.service i).mp (firstLine_some hsome)
    refine ⟨⟨h.master, h.slave, h.cascade, fun j => ⟨fun hj => ?_, nofun⟩, h.idle⟩, rfl⟩
    change Function.update p.master.inService i false j = true at hj
    by_cases hji : j = i
    · subst hji
      rw [Function.update_self] at hj
      cases hj
    · rw [Function.update_of_ne hji] at hj
      exact absurd (Option.some.inj (((h.service j).mp hj).symm.trans hbusy)) hji

/-- The slave has nothing in service that such a command would end. -/
theorem Pics.Serves.eoi_slave (h : p.Serves none) : p.outb (0xA0, 0x20) = p := by
  show { p with slave := p.slave.command 0x20 } = p
  have : p.slave.command 0x20 = p.slave := by
    show (match firstLine p.slave.inService with
      | none => p.slave
      | some i => { p.slave with inService := Function.update p.slave.inService i false }) = _
    rw [firstLine_none h.idle]
  rw [this]

/-- **Whatever number** `pic_send_EOI` is called with, the interrupt is over. -/
theorem Pics.Serves.picSendEOI {busy : Option (Fin 8)} (h : p.Serves busy) (irq : UInt8) :
    (p.outbs (picSendEOI irq)).Serves none ∧
    (p.outbs (picSendEOI irq)).master.requested = p.master.requested := by
  obtain ⟨hserves, hreq⟩ := h.eoi
  unfold Sched.picSendEOI
  split
  · show ((p.outb (0x20, 0x20)).outb (0xA0, 0x20)).Serves none ∧ _
    rw [show p.outbs [(0x20, 0x20), (0xA0, 0x20)] =
      (p.outb (0x20, 0x20)).outb (0xA0, 0x20) from rfl, hserves.eoi_slave]
    exact ⟨hserves, hreq⟩
  · exact ⟨hserves, hreq⟩

theorem Pic8259.command_init (p : Pic8259) : p.command 0x11 =
    ⟨fun _ => false, fun _ => false, 0, p.base, [.vectorBase, .wiring, .mode]⟩ := by
  rw [Pic8259.command, if_pos (by decide), if_pos (by decide), if_pos (by decide)]
  rfl

/-- A remap forgets what the controllers were. -/
theorem picRemap_32_40 (p : Pics) : picRemap 32 40 p =
    .ok ⟨⟨fun _ => false, fun _ => false, 0xFB, 32, []⟩,
      ⟨fun _ => false, fun _ => false, 0xFF, 40, []⟩⟩ := by
  have hpanics : picRemap 32 40 p = .ok (p.outbs [(0x20, 0x11), (0xA0, 0x11), (0x21, 32),
      (0xA1, 40), (0x21, bit8 2), (0xA1, 2), (0x21, 0x01), (0xA1, 0x01), (0x21, 0xFF - bit8 2),
      (0xA1, 0xFF)]) := rfl
  rw [hpanics]
  show Except.ok (Pics.mk
    ((((((p.master.command 0x11).data 32).data (bit8 2)).data 0x01).data (0xFF - bit8 2)))
    ((((((p.slave.command 0x11).data 40).data 2).data 0x01).data 0xFF))) = _
  rw [Pic8259.command_init, Pic8259.command_init]
  rfl

/-- The two calls of `pic_unmask` after it. -/
theorem Pics.serves_remapped : (picUnmask 1 (picUnmask 0
    ⟨⟨fun _ => false, fun _ => false, 0xFB, 32, []⟩,
      ⟨fun _ => false, fun _ => false, 0xFF, 40, []⟩⟩)).Serves none :=
  ⟨⟨by decide, rfl, rfl⟩, ⟨rfl, rfl, rfl⟩, rfl, fun _ => ⟨nofun, nofun⟩, fun _ => rfl⟩

end DevOS.Arch
