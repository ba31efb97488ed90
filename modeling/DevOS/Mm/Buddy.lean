import DevOS.Include
import DevOS.Arch.E820
import Mathlib.Logic.Function.Basic

/-!
# Buddy allocator — the program

`mm/buddy.c` over `include/page.h`. A `struct page *` into `mem_map` is its
page frame number, `NULL` is `none`; `mem_map` is the function from frame
numbers to page records, meaningful below `mem_nr_pages`. A call that ends in
`panic` is an `Except.error` with the panic's format string.

The `while` loops of `alloc_pages` and `free_pages` and the scans of
`buddy_init` recurse on an explicit bound that the C loop cannot exceed: the
order only falls (rises) by one each round, and the scans advance by at least
one page.
-/

namespace DevOS.Mm

/-- `PG_RESERVED`, `PG_BUDDY` (head of a free block), `PG_ALLOCATED` (head of
an allocation), `PG_TAIL` (any other page of a block). -/
inductive PageState where
  | reserved
  | buddy
  | allocated
  | tail
deriving DecidableEq, Repr

/-- `struct page`. -/
structure Page where
  state : PageState
  order : Nat
  prev : Option Nat
  next : Option Nat
deriving DecidableEq, Repr

/-- A page record as `mem_init` leaves it: zeroed, `PG_RESERVED`. -/
def Page.zero : Page := ⟨.reserved, 0, none, none⟩

/-- The allocator's globals: `mem_map`, `mem_nr_pages`, `free_matrix` and
`managed_mem`. -/
structure Buddy where
  memMap : Nat → Page
  memNrPages : Nat
  freeMatrix : Nat → Option Nat
  managedMem : Nat

/-- The globals after `mem_init`: every page reserved, every list empty. -/
def memInit (memNrPages : Nat) : Buddy :=
  ⟨fun _ => Page.zero, memNrPages, fun _ => none, 0⟩

/-- Rewrite one page record. -/
def Buddy.setPage (b : Buddy) (p : Nat) (f : Page → Page) : Buddy :=
  { b with memMap := Function.update b.memMap p (f (b.memMap p)) }

/-- Point one free list at a new head. -/
def Buddy.setHead (b : Buddy) (order : Nat) (p : Option Nat) : Buddy :=
  { b with freeMatrix := Function.update b.freeMatrix order p }

/-- `if (q) q->prev = v`. -/
def Buddy.setPrev? (b : Buddy) (q : Option Nat) (v : Option Nat) : Buddy :=
  match q with
  | none => b
  | some q => b.setPage q fun pg => { pg with prev := v }

def orderPanic : String := "Order %d is more than or equal as limit (%d)\n"

/-- `insert_free(page)`: push the page on the list of its order. -/
def insertFree (b : Buddy) (p : Nat) : Except String Buddy :=
  let order := (b.memMap p).order
  if order > pageMaxOrder then .error orderPanic
  else
    let b := b.setPage p fun pg => { pg with next := b.freeMatrix order, prev := none }
    let b := b.setPrev? (b.memMap p).next (some p)
    let b := b.setHead order (some p)
    .ok (b.setPage p fun pg => { pg with state := .buddy })

/-- `pop_free(order)`: take the head of a list, or `NULL`. -/
def popFree (b : Buddy) (order : Nat) : Except String (Option Nat × Buddy) :=
  if order > pageMaxOrder then .error orderPanic
  else
    match b.freeMatrix order with
    | none => .ok (none, b)
    | some p =>
        let b := b.setHead order (b.memMap p).next
        let b := b.setPrev? (b.freeMatrix order) none
        .ok (some p, b.setPage p fun pg => { pg with next := none, prev := none })

/-- `remove_free(page)`: unlink a page of a free list. A page without
neighbours that does not head the list of its order is taken to be
unlinked. -/
def removeFree (b : Buddy) (p : Nat) : Except String Buddy :=
  let order := (b.memMap p).order
  if order > pageMaxOrder then .error orderPanic
  else if (b.memMap p).state ≠ .buddy then .ok b
  else if (b.memMap p).prev = none ∧ (b.memMap p).next = none ∧ b.freeMatrix order ≠ some p then
    .ok b
  else
    let b :=
      match (b.memMap p).prev with
      | some q => b.setPage q fun pg => { pg with next := (b.memMap p).next }
      | none => b.setHead order (b.memMap p).next
    let b := b.setPrev? (b.memMap p).next (b.memMap p).prev
    .ok (b.setPage p fun pg => { pg with next := none, prev := none })

/-- `__builtin_ctzll`, counting at most `fuel` bits. -/
def ctz : (fuel n : Nat) → Nat
  | 0, _ => 0
  | fuel + 1, n => if n % 2 = 1 then 0 else ctz fuel (n / 2) + 1

/-- `alignment_order(pfn)`: trailing zero bits, at most `PAGE_MAX_ORDER`; a
zero frame number counts as 64 zero bits. -/
def alignmentOrder (pfn : Nat) : Nat :=
  let order := if pfn = 0 then 64 else ctz 64 pfn
  if order > pageMaxOrder then pageMaxOrder else order

/-- `__builtin_clzll`. -/
def clzll (n : Nat) : Nat := 63 - Nat.log2 n

/-- `length_order(length)`, rounded down; -1 for an empty range. -/
def lengthOrder (length : Nat) : Int :=
  if length = 0 then -1 else (63 - clzll length : Nat)

/-- `set_first_order_buddy_for_range`: mark a frame range (clipped to
`mem_nr_pages`) as free pages of order 0 and return how many there are. -/
def setFirstOrderBuddyForRange (b : Buddy) (startPage endPage : Nat) : Buddy × Nat :=
  let endPage := if endPage > b.memNrPages then b.memNrPages else endPage
  if startPage ≥ endPage then (b, 0)
  else
    ((List.range' startPage (endPage - startPage)).foldl
      (fun b i => b.setPage i fun pg => { pg with state := .buddy, order := 0 }) b,
      endPage - startPage)

/-- The body of `buddy_init`'s loop over the E820 entries: mark the whole
pages of one RAM entry outside the reserved window. -/
def markEntry (reservedStartPage reservedEndPage : Nat) (acc : Buddy × Nat)
    (e : Arch.E820Entry) : Buddy × Nat :=
  if e.type ≠ Arch.e820TypeRam then acc
  else
    let startPage := divUp e.addr pageSize
    let endPage := (e.addr + e.size) % 2 ^ 64 / pageSize
    let startPage :=
      if startPage ≥ reservedStartPage ∧ startPage < reservedEndPage then reservedEndPage
      else startPage
    let endPage :=
      if endPage > reservedStartPage ∧ endPage ≤ reservedEndPage then reservedStartPage
      else endPage
    if startPage ≥ endPage then acc
    else if startPage < reservedStartPage ∧ endPage > reservedEndPage then
      let (b, n) := setFirstOrderBuddyForRange acc.1 startPage reservedStartPage
      let (b, n') := setFirstOrderBuddyForRange b reservedEndPage endPage
      (b, acc.2 + n + n')
    else
      let (b, n) := setFirstOrderBuddyForRange acc.1 startPage endPage
      (b, acc.2 + n)

/-- The first loop of `buddy_init`: every managed page marked, and
`expected_pages`. -/
def markEntries (table : List Arch.E820Entry) (poolEnd : Nat) (b : Buddy) : Buddy × Nat :=
  table.foldl (markEntry (kernelPhys / pageSize) (divUp poolEnd pageSize)) (b, 0)

/-- `while (j < end) { if (mem_map[j].state != PG_BUDDY) break; j++; }`, with
`fuel = end - j`. -/
def contiguousEnd (b : Buddy) : (fuel j : Nat) → Nat
  | 0, j => j
  | fuel + 1, j => if (b.memMap j).state ≠ .buddy then j else contiguousEnd b fuel (j + 1)

/-- `for (j = first; j < first + count; j++) mem_map[j].state = PG_TAIL`. -/
def setTails (b : Buddy) (first count : Nat) : Buddy :=
  (List.range' first count).foldl (fun b j => b.setPage j fun pg => { pg with state := .tail }) b

/-- The order `buddy_init` gives the block starting at the marked page `i`:
the largest that its alignment and the marked pages after it allow. -/
def blockOrder (b : Buddy) (i : Nat) : Nat :=
  let maxPagesInBlock := 2 ^ alignmentOrder i
  let end' := if i + maxPagesInBlock ≤ b.memNrPages then i + maxPagesInBlock else b.memNrPages
  (lengthOrder (contiguousEnd b (end' - i) i - i)).toNat

/-- The grouping loop of `buddy_init` from page `i` on; returns
`accounted_pages`. -/
def group : (fuel i : Nat) → Buddy → (accounted : Nat) → Except String (Buddy × Nat)
  | 0, _, b, accounted => .ok (b, accounted)
  | fuel + 1, i, b, accounted =>
      if i < b.memNrPages then
        if (b.memMap i).state ≠ .buddy then group fuel (i + 1) b accounted
        else
          let order := blockOrder b i
          let b := b.setPage i fun pg => { pg with order := order }
          let pagesInBlock := 2 ^ order
          match insertFree (setTails b (i + 1) (pagesInBlock - 1)) i with
          | .error e => .error e
          | .ok b => group fuel (i + pagesInBlock) b (accounted + pagesInBlock)
      else .ok (b, accounted)

def groupingPanic : String :=
  "Buddy grouping failed, expected %zu pages but accounted %zu\n"

/-- `buddy_init()` on the sanitized table, with the value
`bootmem_get_pool_end()` has at that moment. -/
def buddyInit (table : List Arch.E820Entry) (poolEnd : Nat) (b : Buddy) : Except String Buddy :=
  let (b, expected) := markEntries table poolEnd b
  match group b.memNrPages 0 b 0 with
  | .error e => .error e
  | .ok (b, accounted) =>
      if expected ≠ accounted then .error groupingPanic
      else .ok { b with managedMem := accounted * pageSize }

/-- The search of `alloc_pages`: pop the first non-empty list from order `i`
up; `fuel` is the number of orders left. -/
def popFirst : (fuel i : Nat) → Buddy → Except String (Option Nat × Buddy)
  | 0, _, b => .ok (none, b)
  | fuel + 1, i, b =>
      match popFree b i with
      | .error e => .error e
      | .ok (some p, b) => .ok (some p, b)
      | .ok (none, b) => popFirst fuel (i + 1) b

def tailPanic : String :=
  "Unexpected page state, expected %u(PG_TAIL) but state is %u\n"

/-- The splitting loop of `alloc_pages`: halve the block, freeing the upper
half, until it has the requested order. -/
def splitDown (order p : Nat) : (fuel : Nat) → Buddy → Except String Buddy
  | 0, b => .ok b
  | fuel + 1, b =>
      if (b.memMap p).order > order then
        let b := b.setPage p fun pg => { pg with order := pg.order - 1 }
        let buddy := p + 2 ^ (b.memMap p).order
        if (b.memMap buddy).state ≠ .tail then .error tailPanic
        else
          let b := b.setPage buddy fun pg => { pg with order := (b.memMap p).order }
          match insertFree b buddy with
          | .error e => .error e
          | .ok b => splitDown order p fuel b
      else .ok b

/-- `alloc_pages(order)`. -/
def allocPages (b : Buddy) (order : Nat) : Except String (Option Nat × Buddy) :=
  if order > pageMaxOrder then .error "Order %d is more than maximum of %d\n"
  else
    match popFirst (pageMaxOrder + 1 - order) order b with
    | .error e => .error e
    | .ok (none, b) => .ok (none, b)
    | .ok (some p, b) =>
        match splitDown order p (b.memMap p).order b with
        | .error e => .error e
        | .ok b => .ok (some p, b.setPage p fun pg => { pg with state := .allocated })

/-- The merging loop of `free_pages`; returns the page the grown block
starts at. The left branch raises the order of a buddy that stays linked. -/
def mergeUp : (fuel p : Nat) → Buddy → Except String (Nat × Buddy)
  | 0, p, b => .ok (p, b)
  | fuel + 1, p, b =>
      let order := (b.memMap p).order
      if order < pageMaxOrder then
        if alignmentOrder p > order then
          let buddy := p + 2 ^ order
          if buddy ≥ b.memNrPages then .ok (p, b)
          else if (b.memMap buddy).state = .buddy ∧ (b.memMap buddy).order = order then
            match removeFree b buddy with
            | .error e => .error e
            | .ok b =>
                let b := b.setPage buddy fun pg => { pg with state := .tail }
                mergeUp fuel p (b.setPage p fun pg => { pg with order := pg.order + 1 })
          else .ok (p, b)
        else if p < 2 ^ order then .ok (p, b)
        else
          let buddy := p - 2 ^ order
          if (b.memMap buddy).state = .buddy ∧ (b.memMap buddy).order = order then
            match removeFree b p with
            | .error e => .error e
            | .ok b =>
                let b := b.setPage p fun pg => { pg with state := .tail }
                mergeUp fuel buddy (b.setPage buddy fun pg => { pg with order := pg.order + 1 })
          else .ok (p, b)
      else .ok (p, b)

/-- `free_pages(page)`. -/
def freePages (b : Buddy) (p : Nat) : Except String Buddy :=
  if (b.memMap p).state ≠ .allocated then .ok b
  else
    let b := b.setPage p fun pg => { pg with state := .buddy, prev := none, next := none }
    match mergeUp pageMaxOrder p b with
    | .error e => .error e
    | .ok (p, b) => insertFree b p

end DevOS.Mm
