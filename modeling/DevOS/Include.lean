import Mathlib.Algebra.Order.Ring.Nat

/-!
# Shared headers

`include/page.h`, `include/math.h` and `include/addr.h`, and the kernel's
link-time constants (`kernel/linker.ld`). Addresses and sizes are naturals;
the C `uintptr_t`/`size_t` arithmetic that can leave 64 bits is reduced
modulo `2 ^ 64` at the place where the C expression is evaluated.
-/

namespace DevOS

/-- `PAGE_SIZE`. -/
def pageSize : Nat := 4096

/-- `PAGE_MAX_ORDER`. -/
def pageMaxOrder : Nat := 10

/-- `ROUND_DOWN(a, b)`. -/
def roundDown (a b : Nat) : Nat := a / b * b

/-- `ROUND_UP(a, b)` on 64-bit operands. -/
def roundUp (a b : Nat) : Nat := (a + b - 1) % 2 ^ 64 / b * b

/-- `DIV_UP(a, b)` on 64-bit operands. -/
def divUp (a b : Nat) : Nat := (a + b - 1) % 2 ^ 64 / b

/-- `HHDM_BASE`: where the direct map of physical memory starts. -/
def hhdmBase : Nat := 0xFFFF888000000000

/-- `page_to_hhdm(page)` for the page of frame number `pfn`. -/
def pageToHhdm (pfn : Nat) : Nat := (pfn * pageSize + hhdmBase) % 2 ^ 64

/-- `KERNEL_PHYS`: the physical address the kernel image is loaded at. -/
def kernelPhys : Nat := 0x200000

/-- `__kernel_vma_start`: the virtual address the kernel image is linked at. -/
def kernelVmaStart : Nat := 0xFFFFFFFF80000000

/-- A linked kernel image. The linker script's `RAM` region bounds its size,
so `__kernel_vma_end - __kernel_vma_start` never exceeds 2 MiB. -/
structure KernelImage where
  size : Nat
  size_le : size ≤ 0x200000

/-- `KERNEL_END`: one past the last physical byte of the image. -/
def KernelImage.kernelEnd (k : KernelImage) : Nat := kernelPhys + k.size

end DevOS
