import DevOS.Lib.Bits
import DevOS.Lib.Run
import DevOS.Arch.Pic
import Mathlib.Tactic.IntervalCases

/-!
# Arch — the descriptor tables

`arch/x86/gdt.c`, `tss.c`, `idt.c`, and the parts of `isr.c` and `irq.c` that fill
the tables, as `entry` calls them. A descriptor scatters its address over several
fields; `Gate` and `tssBase` are what the CPU puts together from them.
-/

namespace DevOS.Arch

open DevOS.Lib

/-! ## Segments -/

/-- `gdt_entry_t`. -/
structure GdtEntry where
  limitLow : UInt16
  baseLow : UInt16
  baseMid : UInt8
  access : UInt8
  limitFlags : UInt8
  baseHigh : UInt8

def GdtEntry.zero : GdtEntry := ⟨0, 0, 0, 0, 0, 0⟩

def gdtKernelCodeSegment : UInt16 := 0x08
def gdtTssSegment : UInt16 := 0x18

/-- Bits of a value, in their place: `(v & mask) << shift`. -/
def maskShift (mask : UInt8) (shift : UInt8) (v : UInt8) : UInt8 := (v &&& mask) <<< shift

/-- The macros of `GDT_MACROS.h` for an access byte:
`A(a) | RW(rw) | DC(dc) | E(e) | S(s) | DPL(dpl) | P(p)`. -/
def gdtAccess (a rw dc e s dpl p : UInt8) : UInt8 :=
  maskShift 1 0 a ||| maskShift 1 1 rw ||| maskShift 1 2 dc ||| maskShift 1 3 e |||
    maskShift 1 4 s ||| maskShift 3 5 dpl ||| maskShift 1 7 p

/-- `LIMIT_HIGH(high) | L(l) | DB(db) | G(g)`. -/
def gdtLimitFlags (high l db g : UInt8) : UInt8 :=
  maskShift 0xF 0 high ||| maskShift 1 5 l ||| maskShift 1 6 db ||| maskShift 1 7 g

/-- A code or a data segment of `gdt`. -/
def gdtSegment (code : Bool) (dpl : UInt8) : GdtEntry :=
  ⟨0xFFFF, 0, 0, gdtAccess 0 1 0 (if code then 1 else 0) 1 dpl 1,
    gdtLimitFlags 0xF (if code then 1 else 0) (if code then 0 else 1) 1, 0⟩

/-- `gdt`, with the two entries of the TSS segment. -/
def gdt (tss : GdtEntry × GdtEntry) : List GdtEntry :=
  [.zero, gdtSegment true 0, gdtSegment false 0, tss.1, tss.2, gdtSegment true 3,
    gdtSegment false 3]

/-! ## The TSS -/

/-- `tss_t`, without its reserved words. -/
structure Tss where
  rsp : Fin 3 → UInt64
  ist : Fin 7 → UInt64
  iopb : UInt16

/-- Where the linker has put the stubs, the two stacks and the TSS. -/
structure InterruptImage where
  isrTable : Fin 256 → UInt64
  kernStack : UInt64
  emergencyStack : UInt64
  tss : UInt64
  isrTable_injective : ∀ v w, isrTable v = isrTable w → v = w
  isrTable_ne_zero : ∀ v, isrTable v ≠ 0
  kernStack_aligned : kernStack.toNat % 16 = 0
  emergencyStack_aligned : emergencyStack.toNat % 16 = 0
  kernStack_fits : kernStack.toNat + 4096 < 2 ^ 64
  emergencyStack_fits : emergencyStack.toNat + 4096 < 2 ^ 64

variable (image : InterruptImage)

/-- `tss` after `tss_set`. -/
def tssSet : Tss where
  rsp := fun i => if i.val = 0 then image.kernStack + 4096 else 0
  ist := fun i => if i.val = 0 then image.emergencyStack + 4096 else 0
  iopb := 104

/-- The entries that `tss_set(tss_gdt_entry)` writes: `*tss_gdt_entry` and, as
two words of 32 bits, the next one. -/
def tssSetEntry : GdtEntry × GdtEntry :=
  let tssHigh := (image.tss >>> 32).toUInt32
  (⟨103, image.tss.toUInt16, (image.tss >>> 16).toUInt8, gdtAccess 1 0 0 1 0 0 1, 0,
      (image.tss >>> 24).toUInt8⟩,
    ⟨tssHigh.toUInt16, (tssHigh >>> 16).toUInt16, 0, 0, 0, 0⟩)

/-- The address that `ltr` reads from the two entries of an available TSS. -/
def tssBase (gdt : List GdtEntry) (selector : UInt16) : Option Nat :=
  match gdt[selector.toNat / 8]?, gdt[selector.toNat / 8 + 1]? with
  | some e, some f =>
      if e.access &&& 0x9F = 0x89 then
        some (joinFields [(16, e.baseLow.toNat), (8, e.baseMid.toNat), (8, e.baseHigh.toNat),
          (16, f.limitLow.toNat), (16, f.baseLow.toNat)])
      else none
  | _, _ => none

theorem shift64_16 : UInt64.toNat 16 % 64 = 16 := rfl
theorem shift64_24 : UInt64.toNat 24 % 64 = 24 := rfl
theorem shift64_32 : UInt64.toNat 32 % 64 = 32 := rfl
theorem shift32_16 : UInt32.toNat 16 % 32 = 16 := rfl

/-- **The TSS that the CPU finds** is `tss`. -/
theorem tssBase_gdt : tssBase (gdt (tssSetEntry image)) gdtTssSegment = some image.tss.toNat := by
  have haccess : (tssSetEntry image).1.access &&& 0x9F = 0x89 := by
    show gdtAccess 1 0 0 1 0 0 1 &&& 0x9F = 0x89
    decide
  have hcut : joinFields (cutFields image.tss.toNat [16, 8, 8, 16, 16]) = image.tss.toNat := by
    rw [joinFields_cutFields]
    exact Nat.mod_eq_of_lt image.tss.toNat_lt
  have hhigh : image.tss.toNat / 2 ^ 32 % 2 ^ 32 = image.tss.toNat / 2 ^ 32 :=
    Nat.mod_eq_of_lt (Nat.div_lt_of_lt_mul image.tss.toNat_lt)
  rw [← hcut]
  show (if (tssSetEntry image).1.access &&& 0x9F = 0x89 then some (joinFields _) else none) = _
  rw [if_pos haccess]
  simp only [cutFields, tssSetEntry, UInt64.toNat_toUInt16, UInt64.toNat_toUInt8,
    UInt64.toNat_shiftRight, UInt64.toNat_toUInt32, UInt32.toNat_toUInt16,
    UInt32.toNat_shiftRight, Nat.shiftRight_eq_div_pow, shift64_16, shift64_24, shift64_32,
    shift32_16, hhigh, Nat.div_div_eq_div_mul, ← pow_add, Nat.reduceAdd]

/-! ## The gates -/

/-- `idt_gate_t`. -/
structure IdtGate where
  offsetLow : UInt16
  segment : UInt16
  ist : UInt8
  attributes : UInt8
  offsetMid : UInt16
  offsetHigh : UInt32
  reserved : UInt32

/-- `gates`. -/
abbrev IdtGates := Fin 256 → IdtGate

def IdtGate.zero : IdtGate := ⟨0, 0, 0, 0, 0, 0, 0⟩

def idtInterruptGate : UInt8 := 0x0E
def idtTrapGate : UInt8 := 0x0F
def noIst : UInt8 := 0
def emergIst : UInt8 := 1

def idtOffsetPanic : String := "Attempted to set IDT %#X to NULL while enabled!\n"
def idtSegmentPanic : String := "Attempted to set IDT %#X segment to %#X!\n"

/-- `(type & 0x1F) | ((dpl & 0x3) << 5) | ((p & 0x1) << 7)`. -/
def gateAttributes (type dpl : UInt8) (p : Bool) : UInt8 :=
  maskShift 0x1F 0 type ||| maskShift 0x3 5 dpl ||| maskShift 0x1 7 (if p then 1 else 0)

/-- The gate that `idt_set_gate` writes. -/
def idtGate (offset : UInt64) (segment : UInt16) (ist type dpl : UInt8) (p : Bool) : IdtGate :=
  ⟨offset.toUInt16, segment, ist &&& 0x7, gateAttributes type dpl p, (offset >>> 16).toUInt16,
    (offset >>> 32).toUInt32, 0⟩

/-- `idt_set_gate(interrupt, offset, segment, ist, type, dpl, p)`. -/
def idtSetGate (gates : IdtGates) (interrupt : Fin 256) (offset : UInt64) (segment : UInt16)
    (ist type dpl : UInt8) (p : Bool) : Except String IdtGates :=
  if offset = 0 ∧ p = true then .error idtOffsetPanic
  else if segment = 0 ∨ segment % 8 ≠ 0 then .error idtSegmentPanic
  else .ok (Function.update gates interrupt (idtGate offset segment ist type dpl p))

/-- A gate as the CPU reads it. -/
structure Gate where
  offset : Nat
  segment : UInt16
  ist : UInt8
  type : UInt8
  dpl : UInt8
  present : Bool
deriving DecidableEq

def IdtGate.decode (g : IdtGate) : Gate where
  offset := joinFields [(16, g.offsetLow.toNat), (16, g.offsetMid.toNat), (32, g.offsetHigh.toNat)]
  segment := g.segment
  ist := g.ist &&& 0x7
  type := g.attributes &&& 0xF
  dpl := (g.attributes >>> 5) &&& 0x3
  present := decide (g.attributes >>> 7 = 1)

section Attributes

variable (type dpl : UInt8) (p : Bool)

theorem gateAttributes_type : gateAttributes type dpl p &&& 0xF = type &&& 0xF := by
  apply UInt8.toBitVec_inj.mp
  ext i hi
  cases p <;> interval_cases i <;> simp [gateAttributes, maskShift]

theorem gateAttributes_dpl : (gateAttributes type dpl p >>> 5) &&& 0x3 = dpl &&& 0x3 := by
  apply UInt8.toBitVec_inj.mp
  ext i hi
  cases p <;> interval_cases i <;> simp [gateAttributes, maskShift]

theorem gateAttributes_present : gateAttributes type dpl p >>> 7 = if p then 1 else 0 := by
  apply UInt8.toBitVec_inj.mp
  ext i hi
  cases p <;> interval_cases i <;> simp [gateAttributes, maskShift]

end Attributes

/-- **A gate is read back** as it was set. -/
theorem decode_idtGate (offset : UInt64) (segment : UInt16) (ist type dpl : UInt8) (p : Bool) :
    (idtGate offset segment ist type dpl p).decode =
      ⟨offset.toNat, segment, ist &&& 0x7, type &&& 0xF, dpl &&& 0x3, p⟩ := by
  have hcut : joinFields (cutFields offset.toNat [16, 16, 32]) = offset.toNat := by
    rw [joinFields_cutFields]
    exact Nat.mod_eq_of_lt offset.toNat_lt
  have hoffset : joinFields [(16, offset.toUInt16.toNat), (16, (offset >>> 16).toUInt16.toNat),
      (32, (offset >>> 32).toUInt32.toNat)] = offset.toNat := by
    rw [← hcut]
    simp only [cutFields, UInt64.toNat_toUInt16, UInt64.toNat_shiftRight, UInt64.toNat_toUInt32,
      Nat.shiftRight_eq_div_pow, shift64_16, shift64_32, Nat.div_div_eq_div_mul, ← pow_add,
      Nat.reduceAdd]
  have hist : ist &&& 0x7 &&& 0x7 = ist &&& 0x7 := by
    rw [UInt8.and_assoc]
    rfl
  have hpresent : decide (gateAttributes type dpl p >>> 7 = 1) = p := by
    rw [gateAttributes_present]
    cases p <;> rfl
  show Gate.mk (joinFields _) segment (ist &&& 0x7 &&& 0x7) (gateAttributes type dpl p &&& 0xF)
    ((gateAttributes type dpl p >>> 5) &&& 0x3)
    (decide (gateAttributes type dpl p >>> 7 = 1)) = _
  rw [hist, gateAttributes_type, gateAttributes_dpl, hpresent]
  exact congrArg (Gate.mk · _ _ _ _ _) hoffset

/-! ## The tables as `entry` leaves them -/

/-- A number as a `uint8_t`. -/
def vectorOf (n : Nat) : Fin 256 := Fin.ofNat 256 n

/-- A call of `isr_set_gate`, with the arguments that differ. All gates are
present, for the kernel's code segment and for software interrupts of the
kernel. -/
structure GateCall where
  vector : Fin 256
  ist : UInt8
  type : UInt8
deriving DecidableEq

/-- `isr_set_gate(interrupt, GDT_KERNEL_CODE_SEGMENT, ist, type, 0, 1)`. Its check
of the vector is of a `uint8_t`. -/
def isrSetGate (gates : IdtGates) (call : GateCall) : Except String IdtGates :=
  idtSetGate gates call.vector (image.isrTable call.vector) gdtKernelCodeSegment call.ist
    call.type 0 true

/-- The calls of `isr_init`, with its two loops. -/
def isrInitCalls : List GateCall :=
  [⟨0, noIst, idtTrapGate⟩, ⟨1, noIst, idtTrapGate⟩, ⟨2, emergIst, idtInterruptGate⟩,
    ⟨3, noIst, idtTrapGate⟩, ⟨4, noIst, idtTrapGate⟩, ⟨5, noIst, idtTrapGate⟩,
    ⟨6, noIst, idtTrapGate⟩, ⟨7, noIst, idtTrapGate⟩, ⟨8, emergIst, idtInterruptGate⟩,
    ⟨9, noIst, idtTrapGate⟩, ⟨10, noIst, idtTrapGate⟩, ⟨11, noIst, idtTrapGate⟩,
    ⟨12, noIst, idtTrapGate⟩, ⟨13, noIst, idtTrapGate⟩, ⟨14, noIst, idtInterruptGate⟩,
    ⟨15, noIst, idtTrapGate⟩, ⟨16, noIst, idtTrapGate⟩, ⟨17, noIst, idtTrapGate⟩,
    ⟨18, emergIst, idtInterruptGate⟩, ⟨19, noIst, idtTrapGate⟩, ⟨20, noIst, idtTrapGate⟩,
    ⟨21, noIst, idtTrapGate⟩] ++
  (List.range' 22 6).map (fun i => ⟨vectorOf i, noIst, idtTrapGate⟩) ++
  [⟨28, noIst, idtTrapGate⟩, ⟨29, noIst, idtTrapGate⟩, ⟨30, noIst, idtTrapGate⟩,
    ⟨31, noIst, idtTrapGate⟩] ++
  (List.range' 32 224).map fun i => ⟨vectorOf i, noIst, idtInterruptGate⟩

def isrInit (gates : IdtGates) : Except String IdtGates :=
  runFrom (isrSetGate image) gates isrInitCalls

def irqToInterruptOffset : Nat := 32

/-- `irq_set_gate(irq, GDT_KERNEL_CODE_SEGMENT, ist, type, 0, p)`. -/
def irqSetGate (irq : UInt8) (ist type : UInt8) (p : Bool) (gates : IdtGates) (pics : Pics) :
    Except String (IdtGates × Pics) :=
  let pics := if p then picUnmask irq pics else picMask irq pics
  match idtSetGate gates (vectorOf (irq.toNat + irqToInterruptOffset))
      (image.isrTable (vectorOf (irq.toNat + irqToInterruptOffset))) gdtKernelCodeSegment
      ist type 0 p with
  | .error e => .error e
  | .ok gates => .ok (gates, pics)

/-- `irq_init()`. -/
def irqInit (gates : IdtGates) (pics : Pics) : Except String (IdtGates × Pics) :=
  match picRemap irqToInterruptOffset (irqToInterruptOffset + 8) pics with
  | .error e => .error e
  | .ok pics =>
      match irqSetGate image 0 noIst idtInterruptGate true gates pics with
      | .error e => .error e
      | .ok (gates, pics) => irqSetGate image 1 noIst idtInterruptGate true gates pics

/-- What the CPU is given, and the controllers. -/
structure SystemTables where
  gdt : List GdtEntry
  tss : Tss
  gates : IdtGates
  pics : Pics

/-- `gdt_init`, `idt_init`, `isr_init` and `irq_init`, whatever the controllers
were before. -/
def initTables (pics : Pics) : Except String SystemTables :=
  match isrInit image (fun _ => .zero) with
  | .error e => .error e
  | .ok gates =>
      match irqInit image gates pics with
      | .error e => .error e
      | .ok (gates, pics) => .ok ⟨gdt (tssSetEntry image), tssSet image, gates, pics⟩

/-! ## What the gates are -/

/-- The stack that a gate switches to, by its vector. -/
def vectorIst (v : Fin 256) : UInt8 := if v = 2 ∨ v = 8 ∨ v = 18 then emergIst else noIst

def vectorType (v : Fin 256) : UInt8 :=
  if v = 2 ∨ v = 8 ∨ v = 14 ∨ v = 18 ∨ 32 ≤ v.val then idtInterruptGate else idtTrapGate

theorem isrInitCalls_cover : isrInitCalls.map GateCall.vector = List.finRange 256 := by
  decide +kernel

theorem isrInitCalls_agree : ∀ c ∈ isrInitCalls,
    c.ist = vectorIst c.vector ∧ c.type = vectorType c.vector := by
  decide +kernel

/-- The gate of a vector. -/
def vectorGate (v : Fin 256) : IdtGate :=
  idtGate (image.isrTable v) gdtKernelCodeSegment (vectorIst v) (vectorType v) 0 true

theorem idtSetGate_vector (gates : IdtGates) (v : Fin 256) :
    idtSetGate gates v (image.isrTable v) gdtKernelCodeSegment (vectorIst v) (vectorType v) 0 true =
      .ok (Function.update gates v (vectorGate image v)) := by
  rw [idtSetGate, if_neg fun h => image.isrTable_ne_zero v h.1, if_neg (by decide)]
  rfl

/-- `isr_init` sets every gate, and `irq_init` sets two of them again. -/
theorem isrInit_gates (gates : IdtGates) : isrInit image gates = .ok (vectorGate image) := by
  have hcalls : ∀ c ∈ isrInitCalls, ∀ table, isrSetGate image table c =
      .ok (Function.update table c.vector (vectorGate image c.vector)) := by
    intro c hc table
    obtain ⟨hist, htype⟩ := isrInitCalls_agree c hc
    rw [isrSetGate, hist, htype]
    exact idtSetGate_vector image table c.vector
  obtain ⟨gates', hrun, hgates⟩ := runFrom_writes GateCall.vector (vectorGate image) hcalls gates
  rw [isrInit, hrun]
  congr 1
  funext v
  rw [hgates, if_pos (isrInitCalls_cover ▸ List.mem_finRange v)]

theorem irqSetGate_vector {gates : IdtGates} {pics : Pics} {irq : UInt8} {v : Fin 256}
    (hv : vectorOf (irq.toNat + irqToInterruptOffset) = v) (hist : noIst = vectorIst v)
    (htype : idtInterruptGate = vectorType v) (hgates : gates = vectorGate image) :
    irqSetGate image irq noIst idtInterruptGate true gates pics =
      .ok (vectorGate image, picUnmask irq pics) := by
  rw [irqSetGate, hv, hist, htype, idtSetGate_vector, hgates, Function.update_eq_self]
  rfl

/-- **The tables of the running kernel**, and controllers with nothing in
service. -/
theorem initTables_ok (pics : Pics) : ∃ pics', initTables image pics =
    .ok ⟨gdt (tssSetEntry image), tssSet image, vectorGate image, pics'⟩ ∧ pics'.Serves none := by
  have hirq : irqInit image (vectorGate image) pics = .ok (vectorGate image, picUnmask 1
      (picUnmask 0 ⟨⟨fun _ => false, fun _ => false, 0xFB, 32, []⟩,
        ⟨fun _ => false, fun _ => false, 0xFF, 40, []⟩⟩)) := by
    have hremap := picRemap_32_40 pics
    change picRemap irqToInterruptOffset (irqToInterruptOffset + 8) pics = _ at hremap
    rw [irqInit, hremap]
    dsimp only
    rw [irqSetGate_vector image (v := 32) (by decide) (by decide) (by decide) rfl]
    dsimp only
    rw [irqSetGate_vector image (v := 33) (by decide) (by decide) (by decide) rfl]
  refine ⟨_, ?_, Pics.serves_remapped⟩
  rw [initTables, isrInit_gates]
  dsimp only
  rw [hirq]

end DevOS.Arch
