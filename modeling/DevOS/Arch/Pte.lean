import DevOS.Include
import DevOS.Lib.Bits

/-!
# Page-table words

The flag bits and masks of `arch/x86/vmm.h` and `arch/x86/vmm.c`, and the
address conversions between physical memory and the kernel's windows onto it.
A table entry is a 64-bit word; an address is a natural number.
-/

namespace DevOS.Arch

open DevOS.Lib

/-- `uint64_t` as a word of bits. -/
abbrev Word := BitVec 64

def ptPresent : Word := 0x1
def ptWritable : Word := 0x2
def ptUser : Word := 0x4
def ptPwt : Word := 0x8
def ptPcd : Word := 0x10
def ptPse : Word := 0x80
def ptGlobal : Word := 0x100
def ptNx : Word := 0x8000000000000000

/-- `FLAGS_MASK`: the bits of an entry that are not its address. -/
def flagsMask : Word := 0x8000000000000FFF

/-- `LARGE_FLAGS_MASK`: the same for a 2 MiB leaf. -/
def largeFlagsMask : Word := 0x80000000001FFFFF

/-- `LARGE_PAGE_SIZE`. -/
def largePageSize : Nat := 0x200000

/-- `entry & PT_PRESENT`. -/
def present (e : Word) : Bool := e &&& ptPresent != 0

/-- `entry & PT_PSE`. -/
def pse (e : Word) : Bool := e &&& ptPse != 0

/-- `entry & ~FLAGS_MASK`. -/
def addrOf (e : Word) : Nat := (e &&& ~~~flagsMask).toNat

/-- `virt_to_phys`: kernel-image addresses by the load offset, direct-map
addresses by the direct-map offset, low addresses as they are. -/
def virtToPhys (virt : Nat) : Nat :=
  if virt ≥ kernelVmaStart then (virt + kernelPhys - kernelVmaStart) % 2 ^ 64
  else if virt ≥ hhdmBase then addrOf (BitVec.ofNat 64 (virt - hhdmBase))
  else addrOf (BitVec.ofNat 64 virt)

/-! ## Addresses -/

theorem flagsMask_bits {i : Nat} (h1 : 12 ≤ i) (h2 : i < 63) : flagsMask.getLsbD i = false := by
  have h : ∀ j : Fin 64, 12 ≤ j.val → j.val < 63 → flagsMask.getLsbD j.val = false := by decide
  exact h ⟨i, by omega⟩ h1 h2

theorem largeFlagsMask_bits {i : Nat} (h1 : 21 ≤ i) (h2 : i < 63) :
    largeFlagsMask.getLsbD i = false := by
  have h : ∀ j : Fin 64, 21 ≤ j.val → j.val < 63 → largeFlagsMask.getLsbD j.val = false := by
    decide
  exact h ⟨i, by omega⟩ h1 h2

/-- A page-aligned address has no flag bits. -/
theorem page_and_flagsMask {p : Nat} (hp : 4096 ∣ p) (ht : p < 2 ^ 63) :
    BitVec.ofNat 64 p &&& flagsMask = 0#64 :=
  aligned_and_mask (k := 12) (t := 63) hp ht (fun _ h1 h2 => flagsMask_bits h1 h2)

theorem large_and_largeFlagsMask {p : Nat} (hp : 0x200000 ∣ p) (ht : p < 2 ^ 63) :
    BitVec.ofNat 64 p &&& largeFlagsMask = 0#64 :=
  aligned_and_mask (k := 21) (t := 63) hp ht (fun _ h1 h2 => largeFlagsMask_bits h1 h2)

/-- A page-aligned address survives masking. -/
theorem addrOf_page {p : Nat} (hp : 4096 ∣ p) (ht : p < 2 ^ 63) :
    addrOf (BitVec.ofNat 64 p) = p := by
  rw [addrOf, and_not_of_disjoint (page_and_flagsMask hp ht), BitVec.toNat_ofNat]
  exact Nat.mod_eq_of_lt (by omega)

/-- The address in an entry is page-aligned. -/
theorem pageSize_dvd_addrOf (e : Word) : pageSize ∣ addrOf e := by
  apply Nat.dvd_of_mod_eq_zero
  apply Nat.eq_of_testBit_eq
  intro i
  show ((e &&& ~~~flagsMask).toNat % 2 ^ 12).testBit i = _
  rw [Nat.testBit_mod_two_pow, Nat.zero_testBit]
  by_cases hi : i < 12
  · have hmask : ∀ j : Fin 12, (~~~flagsMask).getLsbD j.val = false := by decide
    have hbit := hmask ⟨i, hi⟩
    rw [BitVec.testBit_toNat, BitVec.getLsbD_and, hbit, Bool.and_false, Bool.and_false]
  · simp [hi]

/-- The last physical address the direct map can show: above it the window
would run into the kernel image. -/
def hhdmLimit : Nat := kernelVmaStart - hhdmBase

/-- **The direct map is inverted** by `virt_to_phys`. -/
theorem virtToPhys_hhdm {p : Nat} (hp : 4096 ∣ p) (hlim : p < hhdmLimit) :
    virtToPhys (p + hhdmBase) = p := by
  have hl : hhdmLimit = 0x777F80000000 := rfl
  have hb : hhdmBase = 0xFFFF888000000000 := rfl
  have hk : kernelVmaStart = 0xFFFFFFFF80000000 := rfl
  rw [virtToPhys, if_neg (by omega), if_pos (by omega), Nat.add_sub_cancel]
  exact addrOf_page hp (by omega)

/-- Low addresses are their own physical addresses. -/
theorem virtToPhys_low {p : Nat} (hp : 4096 ∣ p) (hlim : p < hhdmLimit) : virtToPhys p = p := by
  have hl : hhdmLimit = 0x777F80000000 := rfl
  have hb : hhdmBase = 0xFFFF888000000000 := rfl
  have hk : kernelVmaStart = 0xFFFFFFFF80000000 := rfl
  rw [virtToPhys, if_neg (by omega), if_neg (by omega)]
  exact addrOf_page hp (by omega)

end DevOS.Arch
