import DevOS.Arch.E820Sweep
import DevOS.Lib.Run

/-!
# Bootmem — the program

`arch/x86/bootmem.c`: the bump allocator that hands out RAM above the kernel
image until `buddy_init` takes over. The E820 table is the sanitized one;
`kernel` gives `KERNEL_END`. The segments `__alloc` threads through the memory
it hands out are a list here, `panic` is an error. The messages to `printk`
have no effect on the state and are left out.
-/

namespace DevOS.Arch

/-- `vmm_get_low_map_end()` once `vmm_init` has run. -/
def lowMapEnd : Nat := 512 * 0x200000

inductive BootmemMode where
  | disabled
  | enabled
  | locked
deriving DecidableEq, Repr

/-- The globals of `bootmem.c`. -/
structure Bootmem where
  poolStart : Nat
  poolEnd : Nat
  currentE820Entry : Nat
  poolBytes : Nat
  state : BootmemMode
deriving DecidableEq, Repr

/-- `struct alloc_segment`, with the physical address it stands at. -/
structure AllocSegment where
  start : Nat
  size : Nat
deriving DecidableEq, Repr

/-- `.bss`. -/
def Bootmem.boot : Bootmem := ⟨0, 0, 0, 0, .disabled⟩

/-- `entries[i].addr + entries[i].size`. -/
def E820Entry.end64 (e : E820Entry) : Nat := (e.addr + e.size) % 2 ^ 64

section

variable (kernel : KernelImage)

/-- The loop of `bootmem_init`: the first RAM entry that reaches beyond the
kernel, and where the pool then starts. -/
def findPool (i : Nat) : List E820Entry → Option (Nat × Nat)
  | [] => none
  | e :: es =>
      if e.type ≠ e820TypeRam then findPool (i + 1) es
      else if e.end64 ≤ kernel.kernelEnd then findPool (i + 1) es
      else some (if e.addr < kernel.kernelEnd then kernel.kernelEnd else e.addr, i)

/-- `bootmem_init()`. -/
def bootmemInit (table : List E820Entry) (b : Bootmem) : Except String (Int × Bootmem) :=
  if b.state ≠ .disabled then .ok (-1, b)
  else
    let b := { b with poolStart := 0, poolEnd := 0, poolBytes := 0 }
    let b := match findPool kernel 0 table with
      | none => b
      | some (start, i) => { b with poolStart := start, currentE820Entry := i }
    if b.poolStart = 0 then .error "Bootmem failed to create pool!\n"
    else if b.poolStart > lowMapEnd then .error "Bootmem failed to create pool!\n"
    else
      let start := roundUp b.poolStart pageSize
      .ok (0, { b with poolStart := start, poolEnd := start, state := .enabled })

end

/-- The loop of `bootmem_alloc_page_phys` from entry `i` on: the page and the
entry it lies in. -/
def findPage (i allocation : Nat) : List E820Entry → Option (Nat × Nat)
  | [] => none
  | e :: es =>
      if e.type ≠ e820TypeRam then findPage (i + 1) allocation es
      else
        let allocation := if allocation < e.addr then roundUp e.addr pageSize else allocation
        if (allocation + pageSize) % 2 ^ 64 > e.end64 then findPage (i + 1) allocation es
        else some (allocation, i)

/-- `bootmem_alloc_page_phys()`; 0 when there is no page. -/
def bootmemAllocPagePhys (table : List E820Entry) (b : Bootmem) : Except String (Nat × Bootmem) :=
  if b.state ≠ .enabled then .ok (0, b)
  else if b.currentE820Entry ≥ table.length then .error "Bootmem state corrupted!\n"
  else if (entriesOf table b.currentE820Entry).addr > b.poolEnd then
    .error "Bootmem state corrupted!\n"
  else
    match findPage b.currentE820Entry (roundUp b.poolEnd pageSize)
      (table.drop b.currentE820Entry) with
    | none => .ok (0, b)
    | some (allocation, i) =>
        .ok (allocation, { b with
          poolEnd := (allocation + pageSize) % 2 ^ 64
          currentE820Entry := i
          poolBytes := (b.poolBytes + pageSize) % 2 ^ 64 })

/-- The part of one entry that `__alloc` can still use, `none` if there is no
whole page. -/
def usableRange (poolEnd : Nat) (e : E820Entry) : Option (Nat × Nat) :=
  let segmentEnd := roundDown e.end64 pageSize
  let segmentStart := roundUp (if poolEnd > e.addr then poolEnd else e.addr) pageSize
  if segmentStart ≥ segmentEnd then none else some (segmentStart, segmentEnd)

/-- The loop of `__alloc` from entry `i` on: the segments still to be added,
the end of the last one and the entry it lies in. -/
def findSegments (poolEnd bytes : Nat) (i allocated : Nat) :
    List E820Entry → Option (List AllocSegment × Nat × Nat)
  | [] => none
  | e :: es =>
      if e.type ≠ e820TypeRam then findSegments poolEnd bytes (i + 1) allocated es
      else
        match usableRange poolEnd e with
        | none => findSegments poolEnd bytes (i + 1) allocated es
        | some (segmentStart, segmentEnd) =>
            let remaining := (bytes + 2 ^ 64 - allocated) % 2 ^ 64
            let segmentEnd :=
              if (segmentStart + remaining) % 2 ^ 64 < segmentEnd then
                (segmentStart + remaining) % 2 ^ 64
              else segmentEnd
            let segment := AllocSegment.mk segmentStart
              ((segmentEnd + 2 ^ 64 - segmentStart) % 2 ^ 64)
            let allocated := (allocated + segment.size) % 2 ^ 64
            if allocated < bytes then
              match findSegments poolEnd bytes (i + 1) allocated es with
              | none => none
              | some (segments, last) => some (segment :: segments, last)
            else some ([segment], segmentEnd, i)

/-- `__alloc(bytes)`; the empty list for `NULL`. -/
def bootmemAlloc (table : List E820Entry) (bytes : Nat) (b : Bootmem) :
    List AllocSegment × Bootmem :=
  if b.state ≠ .enabled then ([], b)
  else if bytes = 0 then ([], b)
  else
    match findSegments b.poolEnd bytes b.currentE820Entry 0 (table.drop b.currentE820Entry) with
    | none => ([], b)
    | some (segments, segmentEnd, i) =>
        (segments, { b with
          poolEnd := segmentEnd
          poolBytes := (b.poolBytes + bytes) % 2 ^ 64
          currentE820Entry := i })

/-! ## Runs -/

/-- The two ways bootmem is asked for memory. -/
inductive BootmemCall where
  | page
  | alloc (bytes : Nat)
deriving DecidableEq, Repr

/-- The frames of a segment. -/
def AllocSegment.frames (g : AllocSegment) : List Nat :=
  List.range' (g.start / pageSize) (g.size / pageSize)

/-- Bootmem together with the frames it has handed out. -/
structure Pool where
  bootmem : Bootmem
  issued : List Nat

/-- One call; the frames it returns are recorded. -/
def Pool.call (table : List E820Entry) (s : Pool) : BootmemCall → Except String Pool
  | .page =>
      match bootmemAllocPagePhys table s.bootmem with
      | .error e => .error e
      | .ok (phys, b) =>
          .ok ⟨b, if phys = 0 then s.issued else s.issued ++ [phys / pageSize]⟩
  | .alloc bytes =>
      let (segments, b) := bootmemAlloc table bytes s.bootmem
      .ok ⟨b, s.issued ++ segments.flatMap AllocSegment.frames⟩

end DevOS.Arch
