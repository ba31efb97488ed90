import DevOS.Arch.BootmemRuns
import DevOS.Mm.BuddyInitExact

/-!
# Memory — from firmware to the buddy allocator

The boot sequence composed: the firmware's table is sanitized, bootmem hands
out RAM above the kernel, and `buddy_init` takes the rest. Every frame that
reaches a user of either allocator is RAM by the firmware's own word, none
belongs to both, and none touches the kernel image.
-/

namespace DevOS.Mm

open Arch

variable {table out : List E820Entry}

/-- Every byte of the frame is declared RAM by some firmware entry and
anything worse by none. -/
def DeclaredRam (table : List E820Entry) (f : Nat) : Prop :=
  ∀ a, f * pageSize ≤ a → a < f * pageSize + pageSize →
    (∃ e ∈ table, e.Covers a ∧ e.type = e820TypeRam) ∧
      ∀ e ∈ table, e.Covers a → e.type ≤ e820TypeRam

/-- The frame and the kernel image have no byte in common. -/
def OffKernel (kernel : KernelImage) (f : Nat) : Prop :=
  f * pageSize + pageSize ≤ kernelPhys ∨ kernel.kernelEnd ≤ f * pageSize

theorem exists_of_typeAt_ram {a : Nat} (h : typeAt table a = e820TypeRam) :
    (∃ e ∈ table, e.Covers a ∧ e.type = e820TypeRam) ∧
      ∀ e ∈ table, e.Covers a → e.type ≤ e820TypeRam := by
  have hle := typeAt_le_iff.mp (le_of_eq h)
  refine ⟨?_, hle⟩
  by_contra hno
  have hzero : typeAt table a ≤ 0 := by
    refine typeAt_le_iff.mpr fun e he hc => ?_
    have h1 := hle e he hc
    have h2 : e.type ≠ e820TypeRam := fun heq => hno ⟨e, he, hc, heq⟩
    simp only [e820TypeRam] at h1 h2
    omega
  rw [h] at hzero
  exact absurd hzero (by decide)

/-- A frame inside a RAM entry of the sanitized table is declared RAM. -/
theorem declaredRam_of_entry (h : Sanitized table out) {e : E820Entry} (he : e ∈ out)
    (hram : e.type = e820TypeRam) {f : Nat} (hlo : e.addr ≤ f * pageSize)
    (hhi : f * pageSize + pageSize ≤ e.stop) : DeclaredRam table f := by
  intro a h1 h2
  have hcov : e.Covers a := ⟨by omega, by omega⟩
  apply exists_of_typeAt_ram
  rw [← h.below e he a hcov.2, h.tidy.typeAt_eq he hcov, hram]

theorem ramBelow_of_sanitized (h : Sanitized table out)
    (hbound : ∀ e ∈ table, e.addr + e.size ≤ 2 ^ 52) : RamBelow out := by
  intro e he hram
  have hpos := h.tidy.pos e he
  -- some firmware entry covers the last byte of `e`
  have hcov : e.Covers (e.stop - 1) := by
    simp only [E820Entry.Covers, E820Entry.stop]
    omega
  have htype : typeAt table (e.stop - 1) = e820TypeRam := by
    rw [← h.below e he _ hcov.2, h.tidy.typeAt_eq he hcov, hram]
  obtain ⟨⟨f, hf, hfc, -⟩, -⟩ := exists_of_typeAt_ram htype
  have := hbound f hf
  have := hfc.2
  simp only [E820Entry.stop] at *
  omega

/-- What `e820_init` hands on when it does not panic. -/
theorem e820Init_sanitized (hmin : 2 ≤ table.length) (hmax : table.length ≤ 256)
    (hbound : ∀ e ∈ table, e.addr + e.size ≤ 2 ^ 52) {lastRam : Nat}
    (h : e820Init table = .ok (out, lastRam)) :
    Sanitized table out ∧ lastRam = lastRamAddr out := by
  obtain ⟨out', hout, hsan⟩ := e820Sanitize_spec hmin hmax fun e he =>
    lt_of_le_of_lt (hbound e he) (by decide)
  simp only [e820Init, hout] at h
  split at h
  · cases h
  · cases h
    exact ⟨hsan, rfl⟩

/-- The pool ends at a page at or above the kernel. -/
theorem PoolInv.window {kernel : KernelImage} {s : Pool} (h : PoolInv kernel out s) :
    kernelPhys ≤ s.bootmem.poolEnd ∧ s.bootmem.poolEnd + pageSize ≤ 2 ^ 64 ∧
      divUp s.bootmem.poolEnd pageSize * pageSize = s.bootmem.poolEnd := by
  have hkernel : kernelPhys ≤ kernel.kernelEnd := Nat.le_add_right _ _
  have hbounded := h.bounded
  refine ⟨hkernel.trans (h.above.trans h.grown), ?_, ?_⟩
  · simp only [pageSize] at *
    omega
  · obtain ⟨k, hk⟩ := h.aligned
    rw [hk] at hbounded ⊢
    simp only [divUp, pageSize] at hbounded ⊢
    omega

/-- **The hand-off is safe**: for every firmware table of 2 to 256 entries
below `2 ^ 52`, once `e820_init` and `bootmem_init` have succeeded, every
sequence of bootmem calls goes through, and then every frame bootmem handed
out and every frame `buddy_init` marks free is declared RAM and off the
kernel; no frame is both; and the blocks `buddy_init` forms cover marked
frames only. -/
theorem handoff_safe (kernel : KernelImage) (table : List E820Entry) (hmin : 2 ≤ table.length)
    (hmax : table.length ≤ 256) (hbound : ∀ e ∈ table, e.addr + e.size ≤ 2 ^ 52)
    (out : List E820Entry) (lastRam : Nat) (he820 : e820Init table = .ok (out, lastRam))
    (b : Bootmem) (hboot : bootmemInit kernel out .boot = .ok (0, b)) (calls : List BootmemCall)
    (hcalls : ∀ c ∈ calls, c.WholePages) :
    ∃ s, Lib.runFrom (Pool.call out) ⟨b, []⟩ calls = .ok s ∧
      let marked := fun f =>
        (markEntries out s.bootmem.poolEnd (memInit (lastRam / pageSize))).1.state f = .buddy
      (∀ f, f ∈ s.issued ∨ marked f → DeclaredRam table f ∧ OffKernel kernel f) ∧
      (∀ f, ¬ (f ∈ s.issued ∧ marked f)) ∧
      ∀ buddy, buddyInit out s.bootmem.poolEnd (memInit (lastRam / pageSize)) = .ok buddy →
        ∀ f, buddy.cell f ≠ .vacant → marked f := by
  obtain ⟨hsan, -⟩ := e820Init_sanitized hmin hmax hbound he820
  have hram := ramBelow_of_sanitized hsan hbound
  obtain ⟨s, hrun, hinv⟩ := pool_run hram hsan.tidy.sorted hboot hcalls
  refine ⟨s, hrun, ?_⟩
  have hpool : kernel.kernelEnd ≤ s.bootmem.poolEnd := hinv.above.trans hinv.grown
  obtain ⟨hlow, -, hwindow⟩ := PoolInv.window hinv
  have hw : kernelPhys / pageSize ≤ divUp s.bootmem.poolEnd pageSize := by
    simp only [kernelPhys, pageSize] at *
    omega
  -- a marked frame lies in a RAM entry, below the kernel or above the pool
  have hmarked : ∀ f, (markEntries out s.bootmem.poolEnd
      (memInit (lastRam / pageSize))).1.state f = .buddy →
      ∃ e ∈ out, e.type = e820TypeRam ∧ e.addr ≤ f * pageSize ∧
        f * pageSize + pageSize ≤ e.stop ∧
        (f * pageSize + pageSize ≤ kernelPhys ∨ s.bootmem.poolEnd ≤ f * pageSize) := by
    intro f hf
    obtain ⟨-, e, he, hfr⟩ := (markEntries_buddy hw).mp hf
    obtain ⟨h0, h1, h2, h3⟩ := (entryFrame_iff (hram e he hfr.1)).mp hfr
    refine ⟨e, he, h0, h1, h2, ?_⟩
    simp only [kernelPhys, pageSize] at *
    omega
  refine ⟨fun f hf => ?_, fun f hf => ?_, fun buddy hb f hcell => ?_⟩
  · rcases hf with hf | hf
    · obtain ⟨h1, h2, e, he, het, h3, h4⟩ := hinv.issued f hf
      exact ⟨declaredRam_of_entry hsan he het h3 h4, .inr (hinv.above.trans h1)⟩
    · obtain ⟨e, he, het, h3, h4, h5⟩ := hmarked f hf
      exact ⟨declaredRam_of_entry hsan he het h3 h4, h5.imp id hpool.trans⟩
  · obtain ⟨h1, h2, -⟩ := hinv.issued f hf.1
    obtain ⟨-, -, -, -, -, h3⟩ := hmarked f hf.2
    have h4 := hinv.above
    have h5 : kernelPhys ≤ kernel.kernelEnd := Nat.le_add_right _ _
    simp only [pageSize] at *
    omega
  · obtain ⟨L, -, -, -, hcov⟩ := buddyInit_rep hb
    exact ((hcov f).mp hcell).2

/-- **The hand-off goes through**: after the same start and any bootmem calls,
`buddy_init` does not panic and takes over exactly the RAM frames outside the
kernel and the pool. -/
theorem handoff_buddyInit (kernel : KernelImage) (hmin : 2 ≤ table.length)
    (hmax : table.length ≤ 256) (hbound : ∀ e ∈ table, e.addr + e.size ≤ 2 ^ 52)
    {lastRam : Nat} (he820 : e820Init table = .ok (out, lastRam)) {b : Bootmem}
    (hboot : bootmemInit kernel out .boot = .ok (0, b)) {calls : List BootmemCall}
    (hcalls : ∀ c ∈ calls, c.WholePages) :
    ∃ s buddy L, Lib.runFrom (Pool.call out) ⟨b, []⟩ calls = .ok s ∧
      buddyInit out s.bootmem.poolEnd (memInit (lastRam / pageSize)) = .ok buddy ∧
      Rep buddy (fun _ => False) L ∧ buddy.Coalesced ∧
      ∀ f, buddy.FreeFrame f ↔ RamFrame out f ∧
        ¬ (kernelPhys ≤ f * pageSize ∧ f * pageSize < s.bootmem.poolEnd) := by
  obtain ⟨hsan, rfl⟩ := e820Init_sanitized hmin hmax hbound he820
  have hram := ramBelow_of_sanitized hsan hbound
  obtain ⟨s, hrun, hinv⟩ := pool_run hram hsan.tidy.sorted hboot hcalls
  obtain ⟨hlow, hwrap, hwindow⟩ := PoolInv.window hinv
  obtain ⟨buddy, L, he, -, hfree, hr, hco, -⟩ :=
    buddyInit_exact out hram hsan.tidy.sorted s.bootmem.poolEnd hlow hwrap
  refine ⟨s, buddy, L, hrun, he, hr, hco, fun f => ?_⟩
  rw [hfree]
  refine and_congr Iff.rfl (not_congr ?_)
  have hk : kernelPhys = 512 * pageSize := rfl
  rw [hk] at hlow ⊢
  simp only [divUp, pageSize] at *
  omega

/-- Low memory, 30 MiB above it and a reserved page, with an overlap. -/
def firmwareTable : List E820Entry :=
  [⟨0, 0xA0000, 1⟩, ⟨0x100000, 0x1F00000, 1⟩, ⟨0x9F000, 0x61000, 2⟩]

theorem handoff_safe_firmware :
    ∃ s, Lib.runFrom (Pool.call [⟨0, 0x9F000, 1⟩, ⟨0x9F000, 0x61000, 2⟩, ⟨0x100000, 0x1F00000, 1⟩])
        ⟨⟨0x230000, 0x230000, 2, 0, .enabled⟩, []⟩ [.page, .alloc 0x3000, .page] = .ok s ∧
      let marked := fun f =>
        (markEntries [⟨0, 0x9F000, 1⟩, ⟨0x9F000, 0x61000, 2⟩, ⟨0x100000, 0x1F00000, 1⟩]
          s.bootmem.poolEnd (memInit (0x2000000 / pageSize))).1.state f = .buddy
      (∀ f, f ∈ s.issued ∨ marked f →
        DeclaredRam firmwareTable f ∧ OffKernel ⟨0x30000, by decide⟩ f) ∧
      (∀ f, ¬ (f ∈ s.issued ∧ marked f)) ∧
      ∀ buddy, buddyInit [⟨0, 0x9F000, 1⟩, ⟨0x9F000, 0x61000, 2⟩, ⟨0x100000, 0x1F00000, 1⟩]
          s.bootmem.poolEnd (memInit (0x2000000 / pageSize)) = .ok buddy →
        ∀ f, buddy.cell f ≠ .vacant → marked f :=
  handoff_safe ⟨0x30000, by decide⟩ firmwareTable (by decide) (by decide) (by decide) _ 0x2000000
    (by rfl) _ (by rfl) _ (by
      intro c hc
      simp only [List.mem_cons, List.not_mem_nil, or_false] at hc
      rcases hc with rfl | rfl | rfl
      · trivial
      · exact ⟨by decide, by decide⟩
      · trivial)

end DevOS.Mm
