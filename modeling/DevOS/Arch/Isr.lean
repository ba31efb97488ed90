import DevOS.Arch.Descriptors
import DevOS.Arch.VmmTree
import DevOS.Lib.Stack

/-!
# Arch — an interrupt and its way back

From the CPU's delivery through a gate, over the stub in `arch/x86/isr.asm`, to
`__isr_dispatch` and its `struct regs`, and back with `iretq`. The stubs are
lists of instructions; what the C function does to the registers that it may
clobber and to the stack below its frame is arbitrary.
-/

namespace DevOS.Arch

open DevOS.Lib DevOS.Sched

/-! ## Registers and frames -/

/-- The registers that a stub saves. -/
inductive Gpr where
  | rax | rbx | rcx | rdx | rsi | rdi | rbp
  | r8 | r9 | r10 | r11 | r12 | r13 | r14 | r15
deriving DecidableEq

/-- The value of a register; `r14` is under its name in `struct regs`. -/
def gprOf (r : Regs) : Gpr → UInt64
  | .rax => r.rax | .rbx => r.rbx | .rcx => r.rcx | .rdx => r.rdx | .rsi => r.rsi
  | .rdi => r.rdi | .rbp => r.rbp | .r8 => r.r8 | .r9 => r.r9 | .r10 => r.r10
  | .r11 => r.r11 | .r12 => r.r12 | .r13 => r.r13 | .r14 => r.r4 | .r15 => r.r15

/-- Registers of which only these values are known to matter. -/
def regsOf (gpr : Gpr → UInt64) (vectorId errorCode rip cs rflags rsp ss : UInt64) : Regs :=
  ⟨gpr .rax, gpr .rbx, gpr .rcx, gpr .rdx, gpr .rsi, gpr .rdi, gpr .rbp, gpr .r8, gpr .r9,
    gpr .r10, gpr .r11, gpr .r12, gpr .r13, gpr .r14, gpr .r15, vectorId, errorCode, rip, cs,
    rflags, rsp, ss⟩

/-- The flags that there are, but for the one of virtual-8086 mode, which is never
set in 64-bit mode. -/
def definedFlags : UInt64 := 0x3D7FD5

/-- The registers that the CPU has from a frame: of the selectors 16 bits, of the
flags those that there are, and bit 1 set; the vector and the error code are no
registers. -/
def loadedRegs (r : Regs) : Regs :=
  { r with
    vectorId := 0
    errorCode := 0
    cs := r.cs &&& 0xFFFF
    rflags := r.rflags &&& definedFlags ||| 2
    ss := r.ss &&& 0xFFFF }

theorem or_and (x y m : UInt64) : (x ||| y) &&& m = x &&& m ||| y &&& m :=
  UInt64.eq_of_toBitVec_eq BitVec.and_or_distrib_right

/-- What the CPU has it has from any frame of it. -/
theorem loadedRegs_loadedRegs (r : Regs) : loadedRegs (loadedRegs r) = loadedRegs r := by
  have hselector : ∀ x : UInt64, x &&& 0xFFFF &&& 0xFFFF = x &&& 0xFFFF := fun x =>
    UInt64.and_assoc x 0xFFFF 0xFFFF
  have hflags : ∀ x : UInt64, (x &&& definedFlags ||| 2) &&& definedFlags ||| 2 =
      x &&& definedFlags ||| 2 := by
    intro x
    rw [or_and, UInt64.and_assoc, UInt64.or_assoc]
    rfl
  unfold loadedRegs
  dsimp only
  rw [hselector, hselector, hflags]

/-- The order of the pops in `__isr_handler`, and of the first fields of
`struct regs`. -/
def popOrder : List Gpr :=
  [.rax, .rbx, .rcx, .rdx, .rsi, .rdi, .rbp, .r8, .r9, .r10, .r11, .r12, .r13, .r14, .r15]

/-- The order of the pushes. -/
def pushOrder : List Gpr :=
  [.r15, .r14, .r13, .r12, .r11, .r10, .r9, .r8, .rbp, .rdi, .rsi, .rdx, .rcx, .rbx, .rax]

/-- The words of a `struct regs`, from its lowest address up. -/
def frameWords (r : Regs) : List UInt64 :=
  popOrder.map (gprOf r) ++ [r.vectorId, r.errorCode, r.rip, r.cs, r.rflags, r.rsp, r.ss]

/-- The `struct regs` at an address. -/
def frameAt (mem : Nat → UInt64) (p : Nat) : Regs :=
  ⟨mem p, mem (p + 8), mem (p + 16), mem (p + 24), mem (p + 32), mem (p + 40), mem (p + 48),
    mem (p + 56), mem (p + 64), mem (p + 72), mem (p + 80), mem (p + 88), mem (p + 96),
    mem (p + 104), mem (p + 112), mem (p + 120), mem (p + 128), mem (p + 136), mem (p + 144),
    mem (p + 152), mem (p + 160), mem (p + 168)⟩

theorem frameAt_of_holds {mem : Nat → UInt64} {p : Nat} {r : Regs}
    (h : Stack.Holds 8 ⟨mem, p⟩ (frameWords r)) : frameAt mem p = r := by
  simp only [frameWords, popOrder, List.map_cons, List.map_nil, List.cons_append, List.nil_append,
    Stack.Holds, Stack.pop, Nat.add_assoc, Nat.reduceAdd, gprOf, and_true] at h
  obtain ⟨h0, h1, h2, h3, h4, h5, h6, h7, h8, h9, h10, h11, h12, h13, h14, h15, h16, h17, h18, h19,
    h20, h21⟩ := h
  rw [frameAt, h0, h1, h2, h3, h4, h5, h6, h7, h8, h9, h10, h11, h12, h13, h14, h15, h16, h17, h18,
    h19, h20, h21]

/-! ## The stubs -/

inductive Asm where
  | push (g : Gpr)
  | pushImm (n : Nat)
  /-- `mov rdi, rsp` and `call __isr_dispatch`. -/
  | callDispatch
  | pop (g : Gpr)
  | addRsp (n : Nat)
  | iretq

/-- `__isr_handler`. -/
def isrHandler : List Asm :=
  pushOrder.map .push ++ [.callDispatch] ++ popOrder.map .pop ++ [.addRsp 16, .iretq]

/-- The vectors that `isr.asm` gives to `ISR_ERR`. -/
def isrErr : List Nat := [8, 10, 11, 12, 13, 14, 17, 21, 29, 30]

/-- `__isr_v`: the macro `ISR` or `ISR_ERR`, which jumps to `__isr_handler`. -/
def isrStub (v : Fin 256) : List Asm :=
  if v.val ∈ isrErr then .pushImm v :: isrHandler else .pushImm 0 :: .pushImm v :: isrHandler

/-- What ends a run: a panic, or a fault of the CPU in the kernel. -/
inductive Halt where
  | panic (text : String)
  | fault
deriving DecidableEq

variable {κ : Type}

/-- The CPU in the kernel. -/
structure Core (κ : Type) where
  gpr : Gpr → UInt64
  stack : Stack UInt64
  kernel : κ

/-- What a call leaves in the registers and in the stack below its frame. -/
structure Left where
  gpr : Gpr → UInt64
  words : Nat → UInt64

variable (image : InterruptImage)

/-- The words of the two stacks of `mm/stack.c`. -/
def InStack (a : Nat) : Prop :=
  image.kernStack.toNat ≤ a ∧ a < image.kernStack.toNat + 4096 ∨
  image.emergencyStack.toNat ≤ a ∧ a < image.emergencyStack.toNat + 4096

instance instDecidableInStack (a : Nat) : Decidable (InStack image a) :=
  inferInstanceAs (Decidable (_ ∨ _))

/-- The stack on return from the call: anything below its frame. The C function
writes to the two stacks only; the data of the kernel, tasks and controllers
among them, is none of these words. -/
def Left.over (left : Left) (s : Stack UInt64) (a : Nat) : UInt64 :=
  if InStack image a ∧ a < s.sp then left.words a else s.mem a

/-- The memory, the registers and the kernel's data on return from an interrupt. -/
structure Returned (κ : Type) where
  kernel : κ
  mem : Nat → UInt64
  regs : Regs

section Run

variable (gdt : List GdtEntry) (dispatch : κ → Regs → Except String (κ × Regs)) (left : Left)

/-- A 64-bit code segment that is present. -/
def codeSegment (selector : UInt16) : Option GdtEntry :=
  match gdt[selector.toNat / 8]? with
  | some e =>
      if selector &&& 4 = 0 ∧ e.access &&& 0x9C = 0x98 ∧ e.limitFlags &&& 0x60 = 0x20 then some e
      else none
  | none => none

/-- A data segment that is present and may be written. -/
def dataSegment (selector : UInt16) : Option GdtEntry :=
  match gdt[selector.toNat / 8]? with
  | some e => if selector &&& 4 = 0 ∧ e.access &&& 0x9A = 0x92 then some e else none
  | none => none

def GdtEntry.dpl (e : GdtEntry) : UInt8 := (e.access >>> 5) &&& 3

/-- `iretq` in the kernel takes this address and these selectors. -/
def Returnable (rip cs ss : UInt64) : Prop :=
  Canonical rip.toNat ∧
  ((codeSegment gdt cs.toUInt16).any fun e => e.dpl.toUInt16 == cs.toUInt16 &&& 3) ∧
  (((dataSegment gdt ss.toUInt16).any fun e =>
      e.dpl.toUInt16 == cs.toUInt16 &&& 3 && ss.toUInt16 &&& 3 == cs.toUInt16 &&& 3) ∨
    (ss.toUInt16 = 0 ∧ cs.toUInt16 &&& 3 = 0))

instance instDecidableReturnable (rip cs ss : UInt64) : Decidable (Returnable gdt rip cs ss) :=
  inferInstanceAs (Decidable (_ ∧ _ ∧ _))

/-- `iretq`, with no task nested. -/
def iretq (c : Core κ) : Except Halt (Returned κ) :=
  let r := regsOf c.gpr 0 0 (c.stack.mem c.stack.sp) (c.stack.mem (c.stack.sp + 8))
    (c.stack.mem (c.stack.sp + 16)) (c.stack.mem (c.stack.sp + 24)) (c.stack.mem (c.stack.sp + 32))
  if Returnable gdt r.rip r.cs r.ss then .ok ⟨c.kernel, c.stack.mem, loadedRegs r⟩
  else .error .fault

/-- An instruction of a stub, up to its `iretq`. -/
def Asm.step (c : Core κ) : Asm → Except Halt (Core κ)
  | .push g => .ok { c with stack := c.stack.push 8 (c.gpr g) }
  | .pushImm n => .ok { c with stack := c.stack.push 8 (UInt64.ofNat n) }
  | .callDispatch =>
      match dispatch c.kernel (frameAt c.stack.mem c.stack.sp) with
      | .error e => .error (.panic e)
      | .ok (kernel, r) => .ok ⟨left.gpr, ⟨storeWords 8 (left.over image c.stack) c.stack.sp
          (frameWords r), c.stack.sp⟩, kernel⟩
  | .pop g => .ok { c with
      gpr := Function.update c.gpr g (c.stack.mem c.stack.sp)
      stack := c.stack.pop 8 }
  | .addRsp n => .ok { c with stack := ⟨c.stack.mem, c.stack.sp + n⟩ }
  | .iretq => .error .fault

def runAsm : Core κ → List Asm → Except Halt (Returned κ)
  | _, [] => .error .fault
  | c, .iretq :: _ => iretq gdt c
  | c, i :: is =>
      match Asm.step image dispatch left c i with
      | .error e => .error e
      | .ok c => runAsm c is

/-! ## What the stubs do -/

variable {c : Core κ}

theorem runAsm_pushImm (n : Nat) (is : List Asm) :
    runAsm image gdt dispatch left c (.pushImm n :: is) =
      runAsm image gdt dispatch left { c with stack := c.stack.push 8 (UInt64.ofNat n) } is := by
  rw [runAsm]
  · rfl
  · exact fun h => Asm.noConfusion h

theorem runAsm_pushes (gs : List Gpr) (is : List Asm) : ∀ c : Core κ,
    runAsm image gdt dispatch left c (gs.map .push ++ is) =
      runAsm image gdt dispatch left { c with stack := c.stack.pushAll 8 (gs.map c.gpr) } is := by
  induction gs with
  | nil => exact fun c => rfl
  | cons g gs ih =>
      intro c
      rw [List.map_cons, List.cons_append, runAsm]
      · exact ih _
      · exact fun h => Asm.noConfusion h

theorem runAsm_pops (v : Gpr → UInt64) (ws : List UInt64) (is : List Asm) (gs : List Gpr) :
    ∀ c : Core κ, c.stack.Holds 8 (gs.map v ++ ws) →
      ∃ s : Stack UInt64, s.mem = c.stack.mem ∧ s.Holds 8 ws ∧
        runAsm image gdt dispatch left c (gs.map .pop ++ is) = runAsm image gdt dispatch left
          ⟨fun g => if g ∈ gs then v g else c.gpr g, s, c.kernel⟩ is := by
  induction gs with
  | nil =>
      intro c h
      exact ⟨c.stack, rfl, h, by simp⟩
  | cons g gs ih =>
      intro c h
      obtain ⟨htop, hrest⟩ := h
      obtain ⟨s, hmem, hs, hrun⟩ := ih ⟨Function.update c.gpr g (c.stack.mem c.stack.sp),
        c.stack.pop 8, c.kernel⟩ hrest
      refine ⟨s, hmem, hs, ?_⟩
      rw [List.map_cons, List.cons_append, runAsm]
      · refine hrun.trans (congrArg (runAsm image gdt dispatch left · is) ?_)
        congr 1
        funext g'
        by_cases hg : g' = g
        · subst hg
          simp [htop]
        · simp [hg]
      · exact fun h => Asm.noConfusion h

/-- `iretq` with its five words on top. -/
theorem iretq_of_holds {rip cs rflags rsp ss : UInt64}
    (h : c.stack.Holds 8 [rip, cs, rflags, rsp, ss]) : iretq gdt c =
      if Returnable gdt rip cs ss then
        .ok ⟨c.kernel, c.stack.mem, loadedRegs (regsOf c.gpr 0 0 rip cs rflags rsp ss)⟩
      else .error .fault := by
  simp only [Stack.Holds, Stack.pop, Nat.add_assoc, Nat.reduceAdd, and_true] at h
  obtain ⟨hrip, hcs, hrflags, hrsp, hss⟩ := h
  simp only [iretq, hrip, hcs, hrflags, hrsp, hss]
  rfl

theorem mem_popOrder (g : Gpr) : g ∈ popOrder := by
  cases g <;> decide

/-- **The second half of the handler**: the frame is loaded. -/
theorem runAsm_return (r : Regs) (h : c.stack.Holds 8 (frameWords r)) :
    runAsm image gdt dispatch left c (popOrder.map .pop ++ [.addRsp 16, .iretq]) =
      if Returnable gdt r.rip r.cs r.ss then .ok ⟨c.kernel, c.stack.mem, loadedRegs r⟩
      else .error .fault := by
  obtain ⟨s, hmem, hs, hrun⟩ := runAsm_pops image gdt dispatch left
    (gprOf r) _ [.addRsp 16, .iretq] popOrder c h
  rw [hrun]
  simp only [mem_popOrder, if_true, ← hmem]
  show iretq gdt ⟨gprOf r, ⟨s.mem, s.sp + 16⟩, c.kernel⟩ = _
  rw [iretq_of_holds gdt hs.2.2]
  rfl

/-- The first half, from the two words that a stub leaves over the CPU's: the call
gets the frame. -/
theorem runAsm_call (r : Regs) (hroom : 120 ≤ c.stack.sp) (hgpr : c.gpr = gprOf r)
    (h : c.stack.Holds 8 [r.vectorId, r.errorCode, r.rip, r.cs, r.rflags, r.rsp, r.ss]) :
    ∃ s : Stack UInt64, s.sp = c.stack.sp - 120 ∧ frameAt s.mem s.sp = r ∧
      (∀ a, c.stack.sp ≤ a ∨ a < c.stack.sp - 120 → s.mem a = c.stack.mem a) ∧
      runAsm image gdt dispatch left c isrHandler = runAsm image gdt dispatch left
        ⟨c.gpr, s, c.kernel⟩ (.callDispatch :: (popOrder.map .pop ++ [.addRsp 16, .iretq])) := by
  refine ⟨c.stack.pushAll 8 (pushOrder.map c.gpr), Stack.pushAll_sp, ?_,
    fun a ha => Stack.pushAll_mem (by decide) ha hroom, ?_⟩
  · have hframe := h.pushAll (by decide) (pushOrder.map c.gpr) hroom
    apply frameAt_of_holds
    rw [hgpr] at hframe ⊢
    exact hframe
  · rw [isrHandler, List.append_assoc, List.append_assoc, runAsm_pushes]
    rfl

/-- **The handler** gives the frame to the dispatch and loads what it leaves
there. -/
theorem runAsm_handler (r : Regs) (hroom : 120 ≤ c.stack.sp) (hgpr : c.gpr = gprOf r)
    (h : c.stack.Holds 8 [r.vectorId, r.errorCode, r.rip, r.cs, r.rflags, r.rsp, r.ss]) :
    (∀ e, dispatch c.kernel r = .error e →
      runAsm image gdt dispatch left c isrHandler = .error (.panic e)) ∧
    ∀ kernel r', dispatch c.kernel r = .ok (kernel, r') → ∃ mem,
      runAsm image gdt dispatch left c isrHandler =
        (if Returnable gdt r'.rip r'.cs r'.ss then .ok ⟨kernel, mem, loadedRegs r'⟩
        else .error .fault) ∧
      ∀ a, ¬ InStack image a → c.stack.sp + 56 ≤ a ∨ a < c.stack.sp - 120 →
        mem a = c.stack.mem a := by
  obtain ⟨s, hsp, hframe, hmem, hrun⟩ := runAsm_call image gdt dispatch left r hroom hgpr
    h
  rw [hrun, runAsm]
  · rw [Asm.step]
    dsimp only
    rw [hframe]
    refine ⟨fun e he => ?_, fun kernel r' hr' => ?_⟩
    · rw [he]
    · rw [hr']
      have hholds := Stack.holds_storeWords (show 0 < 8 by decide) (left.over image s) s.sp
        (frameWords r')
      refine ⟨_, runAsm_return image gdt dispatch left r' hholds, fun a ha hout => ?_⟩
      show storeWords 8 (left.over image s) s.sp (frameWords r') a = _
      rw [storeWords_off _ (by rw [hsp]; show _ ∨ _ - 120 + 8 * 22 ≤ a; omega) (by decide),
        Left.over, if_neg fun hin => ha hin.1]
      exact hmem a (by omega)
  · exact fun h => Asm.noConfusion h

end Run

/-! ## Delivery -/

/-- The exceptions with which the CPU pushes an error code. -/
def pushesErrorCode (v : Fin 256) : Bool :=
  v.val = 8 || (10 ≤ v.val && v.val ≤ 14) || v.val = 17 || v.val = 21 || v.val = 29 || v.val = 30

/-- The privilege level that is interrupted. -/
def cpl (r : Regs) : UInt16 := r.cs.toUInt16 &&& 3

section Deliver

variable (tables : SystemTables)

/-- The TSS of the task register, by its descriptor. -/
def loadedTss : Option Tss :=
  match tssBase tables.gdt gdtTssSegment with
  | some base => if base = image.tss.toNat then some tables.tss else none
  | none => none

/-- The stack of a gate, of the inner level, or the one in use. -/
def deliverStack (tss : Tss) (gate : Gate) (dpl : UInt8) (r : Regs) : UInt64 :=
  if gate.ist ≠ 0 then tss.ist (Fin.ofNat 7 (gate.ist.toNat - 1))
  else if dpl.toUInt16 < cpl r then tss.rsp (Fin.ofNat 3 dpl.toNat)
  else r.rsp

/-- The CPU goes through gate `v`: the address of the handler, and the stack with
what it has pushed. -/
def deliver (v : Fin 256) (errorCode : Option UInt64) (r : Regs) (mem : Nat → UInt64) :
    Option (Nat × Stack UInt64) :=
  let gate := (tables.gates v).decode
  match codeSegment tables.gdt gate.segment, loadedTss image tables with
  | some e, some tss =>
      if gate.present = true ∧ (gate.type = 0x0E ∨ gate.type = 0x0F) ∧
          e.dpl.toUInt16 ≤ cpl r then
        let top := (deliverStack tss gate e.dpl r).toNat / 16 * 16
        some (gate.offset, Stack.pushAll 8 ⟨mem, top⟩
          ([r.ss, r.rsp, r.rflags, r.cs, r.rip] ++ errorCode.toList))
      else none
  | _, _ => none

/-- The stub at an address. -/
def stubAt (offset : Nat) : Option (Fin 256) :=
  (List.finRange 256).find? fun v => (image.isrTable v).toNat == offset

/-- An interrupt, from the delivery to the `iretq`. -/
def takeInterrupt (dispatch : κ → Regs → Except String (κ × Regs)) (left : Left) (v : Fin 256)
    (errorCode : Option UInt64) (kernel : κ) (r : Regs) (mem : Nat → UInt64) :
    Except Halt (Returned κ) :=
  match deliver image tables v errorCode r mem with
  | none => .error .fault
  | some (offset, stack) =>
      match stubAt image offset with
      | none => .error .fault
      | some w => runAsm image tables.gdt dispatch left ⟨gprOf r, stack, kernel⟩ (isrStub w)

end Deliver

/-! ## There and back -/

/-- The stack that an interrupt is taken on, from its top. -/
def entryTop (v : Fin 256) (r : Regs) : Nat :=
  if vectorIst v ≠ 0 then image.emergencyStack.toNat + 4096
  else if 0 < cpl r then image.kernStack.toNat + 4096
  else r.rsp.toNat / 16 * 16

/-- The frame of an interrupt. -/
def isrFrame (v : Fin 256) (code : UInt64) (r : Regs) : Regs :=
  { r with vectorId := UInt64.ofNat v, errorCode := if pushesErrorCode v then code else 0 }

theorem stubAt_isrTable (v : Fin 256) : stubAt image (image.isrTable v).toNat = some v := by
  have hsome : (stubAt image (image.isrTable v).toNat).isSome = true :=
    List.find?_isSome.mpr ⟨v, List.mem_finRange v, beq_self_eq_true _⟩
  obtain ⟨w, hw⟩ := Option.isSome_iff_exists.mp hsome
  have hoffset := List.find?_some hw
  rw [beq_iff_eq] at hoffset
  rw [hw, image.isrTable_injective w v (UInt64.toNat_inj.mp hoffset)]

theorem loadedTss_initTables {tables : SystemTables} {pics : Pics}
    (h : initTables image pics = .ok tables) : loadedTss image tables = some (tssSet image) := by
  obtain ⟨pics', hok, -⟩ := initTables_ok image pics
  rw [hok] at h
  cases h
  rw [loadedTss, tssBase_gdt]
  exact if_pos rfl

theorem codeSegment_kernel : codeSegment (gdt (tssSetEntry image)) gdtKernelCodeSegment =
    some (gdtSegment true 0) := by
  show (if gdtKernelCodeSegment &&& 4 = 0 ∧ (gdtSegment true 0).access &&& 0x9C = 0x98 ∧
    (gdtSegment true 0).limitFlags &&& 0x60 = 0x20 then some (gdtSegment true 0) else none) = _
  exact if_pos (by decide)

/-- The top of a stack of `mm/stack.c` is aligned and does not wrap. -/
theorem stackTop_toNat {base : UInt64} (haligned : base.toNat % 16 = 0)
    (hfits : base.toNat + 4096 < 2 ^ 64) :
    (base + 4096).toNat / 16 * 16 = base.toNat + 4096 := by
  have hadd : (base + 4096).toNat = base.toNat + 4096 := by
    rw [UInt64.toNat_add]
    exact Nat.mod_eq_of_lt hfits
  omega

theorem deliverStack_top (v : Fin 256) (r : Regs) :
    (deliverStack (tssSet image) (vectorGate image v).decode 0 r).toNat / 16 * 16 =
      entryTop image v r := by
  have hist : (vectorGate image v).decode.ist = vectorIst v := by
    rw [vectorGate, decode_idtGate]
    unfold vectorIst
    split <;> rfl
  have hzero : (0 : UInt8).toUInt16 = 0 := rfl
  unfold deliverStack entryTop
  rw [hist, hzero]
  split
  · rename_i hne
    have hone : vectorIst v = 1 := by
      unfold vectorIst at hne ⊢
      split
      · rfl
      · rename_i hv
        rw [if_neg hv] at hne
        exact absurd rfl hne
    rw [hone]
    exact stackTop_toNat image.emergencyStack_aligned image.emergencyStack_fits
  · split
    · exact stackTop_toNat image.kernStack_aligned image.kernStack_fits
    · rfl

/-- **Delivery** through the tables of the running kernel. -/
theorem deliver_initTables {tables : SystemTables} {pics : Pics}
    (h : initTables image pics = .ok tables) (v : Fin 256) (errorCode : Option UInt64) (r : Regs)
    (mem : Nat → UInt64) : deliver image tables v errorCode r mem =
      some ((image.isrTable v).toNat, Stack.pushAll 8 ⟨mem, entryTop image v r⟩
        ([r.ss, r.rsp, r.rflags, r.cs, r.rip] ++ errorCode.toList)) := by
  have htss := loadedTss_initTables image h
  obtain ⟨pics', hok, -⟩ := initTables_ok image pics
  rw [hok] at h
  cases h
  have hgate := decode_idtGate (image.isrTable v) gdtKernelCodeSegment (vectorIst v) (vectorType v)
    0 true
  change (vectorGate image v).decode = _ at hgate
  have htype : vectorType v &&& 0xF = 0x0E ∨ vectorType v &&& 0xF = 0x0F := by
    unfold vectorType
    split
    · exact .inl rfl
    · exact .inr rfl
  have hdpl : (gdtSegment true 0).dpl = 0 := by decide
  unfold deliver
  simp only
  rw [htss, ← deliverStack_top, hgate, codeSegment_kernel]
  simp only [hdpl]
  rw [if_pos ⟨trivial, htype, Nat.zero_le _⟩]

theorem isrErr_pushes (v : Fin 256) : pushesErrorCode v = decide (v.val ∈ isrErr) := by
  revert v
  decide +kernel

/-- The stub makes the frame of the CPU one of `__isr_handler`, error code or not. -/
theorem runAsm_stub (gdt : List GdtEntry) (dispatch : κ → Regs → Except String (κ × Regs))
    (left : Left) (v : Fin 256) (code : UInt64) (r : Regs) (mem : Nat → UInt64) (top : Nat)
    (hroom : 176 ≤ top) (kernel : κ) : ∃ s : Stack UInt64, s.sp = top - 56 ∧
      (∀ a, top ≤ a ∨ a < top - 56 → s.mem a = mem a) ∧
      s.Holds 8 [(isrFrame v code r).vectorId, (isrFrame v code r).errorCode, r.rip, r.cs,
        r.rflags, r.rsp, r.ss] ∧
      runAsm image gdt dispatch left ⟨gprOf r, Stack.pushAll 8 ⟨mem, top⟩
          ([r.ss, r.rsp, r.rflags, r.cs, r.rip] ++
            (if pushesErrorCode v then some code else none).toList), kernel⟩ (isrStub v) =
        runAsm image gdt dispatch left ⟨gprOf r, s, kernel⟩ isrHandler := by
  have hall : ∀ e : UInt64, ∃ s : Stack UInt64, s = Stack.pushAll 8 ⟨mem, top⟩
      [r.ss, r.rsp, r.rflags, r.cs, r.rip, e, UInt64.ofNat v] ∧ s.sp = top - 56 ∧
      (∀ a, top ≤ a ∨ a < top - 56 → s.mem a = mem a) ∧
      s.Holds 8 [UInt64.ofNat v, e, r.rip, r.cs, r.rflags, r.rsp, r.ss] := by
    intro e
    refine ⟨_, rfl, Stack.pushAll_sp, fun a ha => Stack.pushAll_mem (by decide) ha ?_, ?_⟩
    · show 56 ≤ top
      omega
    · have hempty : Stack.Holds 8 ⟨mem, top⟩ ([] : List UInt64) := trivial
      exact hempty.pushAll (by decide) _ (by show 56 ≤ top; omega)
  by_cases hv : pushesErrorCode v = true
  · obtain ⟨s, hs, hsp, hmem, hholds⟩ := hall code
    refine ⟨s, hsp, hmem, ?_, ?_⟩
    · rw [isrFrame, if_pos hv]
      exact hholds
    · rw [isrStub, if_pos (of_decide_eq_true ((isrErr_pushes v).symm.trans hv)), if_pos hv, hs,
        runAsm_pushImm]
      rfl
  · obtain ⟨s, hs, hsp, hmem, hholds⟩ := hall 0
    refine ⟨s, hsp, hmem, ?_, ?_⟩
    · rw [isrFrame, if_neg hv]
      exact hholds
    · rw [isrStub, if_neg fun hc => hv ((isrErr_pushes v).trans (decide_eq_true hc)), if_neg hv,
        hs, runAsm_pushImm, runAsm_pushImm]
      rfl

section Take

variable {image} {tables : SystemTables} {pics : Pics}
  (dispatch : κ → Regs → Except String (κ × Regs))

/-- From the delivery to the handler. -/
theorem takeInterrupt_handler (h : initTables image pics = .ok tables) (left : Left) (v : Fin 256)
    (code : UInt64) (kernel : κ) (r : Regs) (mem : Nat → UInt64)
    (hroom : 176 ≤ entryTop image v r) : ∃ s : Stack UInt64, s.sp = entryTop image v r - 56 ∧
      (∀ a, entryTop image v r ≤ a ∨ a < entryTop image v r - 56 → s.mem a = mem a) ∧
      s.Holds 8 [(isrFrame v code r).vectorId, (isrFrame v code r).errorCode, r.rip, r.cs,
        r.rflags, r.rsp, r.ss] ∧
      takeInterrupt image tables dispatch left v (if pushesErrorCode v then some code else none)
          kernel r mem =
        runAsm image tables.gdt dispatch left ⟨gprOf r, s, kernel⟩ isrHandler := by
  obtain ⟨s, hsp, hmem, hholds, hstub⟩ := runAsm_stub image tables.gdt dispatch left v code r mem
    _ hroom kernel
  refine ⟨s, hsp, hmem, hholds, ?_⟩
  unfold takeInterrupt
  rw [deliver_initTables image h]
  dsimp only
  rw [stubAt_isrTable]
  exact hstub

theorem takeInterrupt_panics (h : initTables image pics = .ok tables) (left : Left) (v : Fin 256)
    (code : UInt64) {kernel : κ} {r : Regs} (mem : Nat → UInt64)
    (hroom : 176 ≤ entryTop image v r) {e : String}
    (he : dispatch kernel (isrFrame v code r) = .error e) :
    takeInterrupt image tables dispatch left v (if pushesErrorCode v then some code else none)
      kernel r mem = .error (.panic e) := by
  obtain ⟨s, hsp, -, hholds, htake⟩ := takeInterrupt_handler dispatch h left v code kernel r mem
    hroom
  rw [htake]
  exact (runAsm_handler image tables.gdt dispatch left (c := ⟨gprOf r, s, kernel⟩)
    (isrFrame v code r) (by rw [hsp]; omega) rfl hholds).1 e he

theorem takeInterrupt_returns (h : initTables image pics = .ok tables) (left : Left) (v : Fin 256)
    (code : UInt64) {kernel kernel' : κ} {r r' : Regs} (mem : Nat → UInt64)
    (hroom : 176 ≤ entryTop image v r)
    (hr' : dispatch kernel (isrFrame v code r) = .ok (kernel', r')) : ∃ mem',
      takeInterrupt image tables dispatch left v (if pushesErrorCode v then some code else none)
          kernel r mem =
        (if Returnable tables.gdt r'.rip r'.cs r'.ss then .ok ⟨kernel', mem', loadedRegs r'⟩
        else .error .fault) ∧
      ∀ a, ¬ InStack image a → entryTop image v r ≤ a ∨ a < entryTop image v r - 176 →
        mem' a = mem a := by
  obtain ⟨s, hsp, hmem, hholds, htake⟩ := takeInterrupt_handler dispatch h left v code kernel r
    mem hroom
  obtain ⟨mem', hrun, hframe⟩ := (runAsm_handler image tables.gdt dispatch left
    (c := ⟨gprOf r, s, kernel⟩) (isrFrame v code r) (by rw [hsp]; omega) rfl hholds).2 kernel' r'
    hr'
  refine ⟨mem', htake.trans hrun, fun a ha hout => ?_⟩
  rw [hframe a ha (by show s.sp + 56 ≤ a ∨ a < s.sp - 120; omega)]
  exact hmem a (by omega)

end Take

/-- **An interrupt, there and back.** Through the tables that `entry` has set up,
whatever was interrupted: `__isr_dispatch` gets the interrupted registers with the
vector and the error code of the CPU, 0 where it has none; it returns, with what
the CPU loads of the registers that it leaves in the frame, exactly to what the
CPU may return to; and no word changes outside the stacks and the 176 bytes of
the frame. -/
theorem interrupt_there_and_back (image : InterruptImage) (pics : Pics) (tables : SystemTables)
    (h : initTables image pics = .ok tables) {κ : Type}
    (dispatch : κ → Regs → Except String (κ × Regs)) (left : Left) (v : Fin 256) (code : UInt64)
    (kernel : κ) (r : Regs) (mem : Nat → UInt64) (hroom : 176 ≤ entryTop image v r) :
    (∀ e, dispatch kernel (isrFrame v code r) = .error e →
      takeInterrupt image tables dispatch left v (if pushesErrorCode v then some code else none)
        kernel r mem = .error (.panic e)) ∧
    ∀ kernel' r', dispatch kernel (isrFrame v code r) = .ok (kernel', r') →
      (¬ Returnable tables.gdt r'.rip r'.cs r'.ss →
        takeInterrupt image tables dispatch left v
          (if pushesErrorCode v then some code else none) kernel r mem = .error .fault) ∧
      (Returnable tables.gdt r'.rip r'.cs r'.ss → ∃ mem',
        takeInterrupt image tables dispatch left v
            (if pushesErrorCode v then some code else none) kernel r mem =
          .ok ⟨kernel', mem', loadedRegs r'⟩ ∧
        ∀ a, ¬ InStack image a → entryTop image v r ≤ a ∨ a < entryTop image v r - 176 →
          mem' a = mem a) := by
  refine ⟨fun e he => takeInterrupt_panics dispatch h left v code mem hroom he,
    fun kernel' r' hr' => ?_⟩
  obtain ⟨mem', hrun, hframe⟩ := takeInterrupt_returns dispatch h left v code mem hroom hr'
  rw [hrun]
  exact ⟨fun hno => if_neg hno, fun hyes => ⟨mem', if_pos hyes, hframe⟩⟩

/-- The selectors of a task, from `create_task`. -/
theorem returnable_user {rip : UInt64} (hrip : Canonical rip.toNat) :
    Returnable (gdt (tssSetEntry image)) rip 0x2B 0x33 := by
  have hcode : codeSegment (gdt (tssSetEntry image)) 0x2B = some (gdtSegment true 3) := by
    show (if (0x2B : UInt16) &&& 4 = 0 ∧ (gdtSegment true 3).access &&& 0x9C = 0x98 ∧
      (gdtSegment true 3).limitFlags &&& 0x60 = 0x20 then some (gdtSegment true 3) else none) = _
    exact if_pos (by decide)
  have hdata : dataSegment (gdt (tssSetEntry image)) 0x33 = some (gdtSegment false 3) := by
    show (if (0x33 : UInt16) &&& 4 = 0 ∧ (gdtSegment false 3).access &&& 0x9A = 0x92 then
      some (gdtSegment false 3) else none) = _
    exact if_pos (by decide)
  refine ⟨hrip, ?_, .inl ?_⟩
  · show ((codeSegment (gdt (tssSetEntry image)) 0x2B).any _) = true
    rw [hcode]
    decide
  · show ((dataSegment (gdt (tssSetEntry image)) 0x33).any _) = true
    rw [hdata]
    decide

theorem initTables_gdt {tables : SystemTables} {pics : Pics}
    (h : initTables image pics = .ok tables) : tables.gdt = gdt (tssSetEntry image) := by
  obtain ⟨pics', hok, -⟩ := initTables_ok image pics
  rw [hok] at h
  cases h
  rfl

/-! ## An image -/

/-- Stubs of 16 bytes, one after the other. -/
def smallStub (v : Fin 256) : UInt64 := UInt64.ofNat (0x100000 + 16 * v)

theorem smallStub_toNat (v : Fin 256) : (smallStub v).toNat = 0x100000 + 16 * v.val := by
  have hv := v.isLt
  exact Nat.mod_eq_of_lt (show 0x100000 + 16 * v.val < 2 ^ 64 by omega)

theorem smallStub_injective (v w : Fin 256) (h : smallStub v = smallStub w) : v = w := by
  have hnat := congrArg UInt64.toNat h
  rw [smallStub_toNat, smallStub_toNat] at hnat
  exact Fin.ext (by omega)

theorem smallStub_ne_zero (v : Fin 256) : smallStub v ≠ 0 := by
  intro h
  have hnat := congrArg UInt64.toNat h
  rw [smallStub_toNat] at hnat
  exact absurd hnat (Nat.ne_of_gt (Nat.add_pos_left (by decide) _))

theorem smallStacks : (0x104000 : UInt64).toNat % 16 = 0 ∧ (0x105000 : UInt64).toNat % 16 = 0 ∧
    (0x104000 : UInt64).toNat + 4096 < 2 ^ 64 ∧ (0x105000 : UInt64).toNat + 4096 < 2 ^ 64 := by
  decide

def smallImage : InterruptImage where
  isrTable := smallStub
  kernStack := 0x104000
  emergencyStack := 0x105000
  tss := 0x106004
  isrTable_injective := smallStub_injective
  isrTable_ne_zero := smallStub_ne_zero
  kernStack_aligned := smallStacks.1
  emergencyStack_aligned := smallStacks.2.1
  kernStack_fits := smallStacks.2.2.1
  emergencyStack_fits := smallStacks.2.2.2

/-- A task in user mode. -/
def smallRegs : Regs := { Regs.zero with cs := 0x2B, ss := 0x33, rflags := 0x202, rsp := 0x101000 }

def idlePics : Pics :=
  ⟨⟨fun _ => false, fun _ => false, 0, 0, []⟩, ⟨fun _ => false, fun _ => false, 0, 0, []⟩⟩

/-- A dispatch that counts, and writes to the frame. -/
def countDispatch (n : Nat) (r : Regs) : Except String (Nat × Regs) :=
  .ok (n + 1, { r with rax := r.vectorId })

theorem interrupt_there_and_back_timer : ∃ tables mem,
    initTables smallImage idlePics = .ok tables ∧
    takeInterrupt smallImage tables countDispatch ⟨fun _ => 5, fun _ => 6⟩ 32
        (if pushesErrorCode 32 then some 0 else none) 0 smallRegs (fun _ => 0) =
      .ok ⟨1, mem, { smallRegs with rax := 32 }⟩ := by
  obtain ⟨pics', hok, -⟩ := initTables_ok smallImage idlePics
  obtain ⟨-, hback⟩ := interrupt_there_and_back smallImage idlePics _ hok countDispatch
    ⟨fun _ => 5, fun _ => 6⟩ 32 0 0 smallRegs (fun _ => 0) (by decide)
  obtain ⟨mem, hrun, -⟩ := (hback _ _ rfl).2 (returnable_user smallImage (by decide))
  exact ⟨_, mem, hok, hrun⟩

end DevOS.Arch
