import DevOS.Include
import DevOS.Lib.Sweep
import Mathlib.Logic.Function.Basic

/-!
# E820 — the program

`arch/x86/e820.c`. The firmware table is a list of entries; a
`struct e820_entry*` into it is an index. Addresses and sizes are 64-bit: the
two expressions that can wrap are reduced modulo `2 ^ 64`. Types are compared
unsigned, as the C code does (`enum e820_type` has no negative member, so the
`int` operand of `>` is converted). The warnings about unaligned entries are
`printk` output only and are left out.
-/

namespace DevOS.Arch

/-- `struct e820_entry`. -/
structure E820Entry where
  addr : Nat
  size : Nat
  type : Nat
deriving DecidableEq, Repr

/-- `E820_TYPE_RAM`. -/
def e820TypeRam : Nat := 1

/-- `E820_MAX_ENTRIES`. -/
def e820MaxEntries : Nat := 256

/-- `struct change_point`. -/
structure ChangePoint where
  addr : Nat
  entry : Nat
deriving DecidableEq, Repr

section Sanitize

-- what `table->entries` points to
variable (entries : Nat → E820Entry)

/-- `change_point_cmp(a, b)`: by address, starts before ends. -/
def changePointCmp (a b : ChangePoint) : Int :=
  if a.addr ≠ b.addr then
    if a.addr > b.addr then 1 else -1
  else
    (if a.addr ≠ (entries a.entry).addr then 1 else 0) -
      (if b.addr ≠ (entries b.entry).addr then 1 else 0)

/-- The loop that collects the change points; `none` is the `return -1` on an
entry that wraps. -/
def changePoints : Nat → Option (List ChangePoint)
  | 0 => some []
  | i + 1 =>
      match changePoints i with
      | none => none
      | some ps =>
          let stop := ((entries i).addr + (entries i).size) % 2 ^ 64
          if stop < (entries i).addr then none
          else if (entries i).size > 0 then some (ps ++ [⟨(entries i).addr, i⟩, ⟨stop, i⟩])
          else some ps

/-- The sort. -/
def sortPoints (ps : List ChangePoint) : List ChangePoint :=
  Lib.sortRight (fun a b => decide (changePointCmp entries a b < 0)) ps

/-- The state of the sweep: `overlap_list`, `last_type`, `last_addr` and
`new_table`, an array with a count. -/
structure SweepState where
  overlap : List Nat
  lastType : Nat
  lastAddr : Nat
  out : Nat → E820Entry
  count : Nat

/-- The sweep starts with an empty `new_table` over zeroed storage. -/
def SweepState.start : SweepState := ⟨[], 0, 0, fun _ => ⟨0, 0, 0⟩, 0⟩

/-- Update of the overlap list at a change point. -/
def trackOverlap (overlap : List Nat) (p : ChangePoint) : List Nat :=
  if p.addr = (entries p.entry).addr then overlap ++ [p.entry]
  else Lib.swapRemove overlap p.entry

/-- `current_type`: the largest type in the overlap list. -/
def currentType (overlap : List Nat) : Nat :=
  overlap.foldl (fun c i => if (entries i).type > c then (entries i).type else c) 0

/-- The `if (last_type)` block: give the open entry its size, and keep it if
that is not 0. The second component tells of the `break` when `new_table` is
full. -/
def SweepState.closeEntry (w : SweepState) (addr : Nat) : SweepState × Bool :=
  let size := (addr + 2 ^ 64 - w.lastAddr) % 2 ^ 64
  let w := { w with out := Function.update w.out w.count { w.out w.count with size := size } }
  if size ≠ 0 then ({ w with count := w.count + 1 }, decide (w.count + 1 ≥ e820MaxEntries))
  else (w, false)

/-- The `if (current_type)` block: open the next entry. -/
def SweepState.openEntry (w : SweepState) (addr type : Nat) : SweepState :=
  { w with
    out := Function.update w.out w.count { w.out w.count with addr := addr, type := type }
    lastAddr := addr }

/-- One round of the sweep; the second component tells of the `break`. -/
def sweepStep (w : SweepState) (p : ChangePoint) : SweepState × Bool :=
  let w := { w with overlap := trackOverlap entries w.overlap p }
  let type := currentType entries w.overlap
  if type = w.lastType then (w, false)
  else
    match (if w.lastType ≠ 0 then w.closeEntry p.addr else (w, false)) with
    | (w, true) => (w, true)
    | (w, false) =>
        let w := if type ≠ 0 then w.openEntry p.addr type else w
        ({ w with lastType := type }, false)

/-- The sweep over the sorted change points. -/
def sweep (w : SweepState) : List ChangePoint → SweepState
  | [] => w
  | p :: ps =>
      match sweepStep entries w p with
      | (w, true) => w
      | (w, false) => sweep w ps

end Sanitize

/-- The entries `new_table` holds. -/
def SweepState.finished (w : SweepState) : List E820Entry := (List.range w.count).map w.out

/-- `table->entries` for a table given as a list. -/
def entriesOf (table : List E820Entry) (i : Nat) : E820Entry := table.getD i ⟨0, 0, 0⟩

/-- `e820_sanitize(table, new_table)` with an empty `new_table`: its entries
when 0 is returned, `none` when -1 is. -/
def e820Sanitize (table : List E820Entry) : Option (List E820Entry) :=
  if table.length < 2 then some []
  else if table.length > e820MaxEntries then none
  else
    match changePoints (entriesOf table) table.length with
    | none => none
    | some ps => some (sweep (entriesOf table) .start (sortPoints (entriesOf table) ps)).finished

/-- The loop of `e820_init` that looks for the last RAM entry: one past its
last byte, 0 if there is none. -/
def lastRamAddr (out : List E820Entry) : Nat :=
  match out.reverse.find? fun e => e.type = e820TypeRam with
  | none => 0
  | some e => (e.addr + e.size) % 2 ^ 64

/-- `e820_init(table)`: the sanitized table and `last_ram_addr`. -/
def e820Init (table : List E820Entry) : Except String (List E820Entry × Nat) :=
  match e820Sanitize table with
  | none => .error "Failed to sanitize E820 memory map!\n"
  | some out =>
      if lastRamAddr out = 0 then .error "Failed to find last ram address\n"
      else .ok (out, lastRamAddr out)

end DevOS.Arch
