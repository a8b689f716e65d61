import Mathlib.Algebra.Order.Group.Int
import Mathlib.Algebra.Order.Group.Nat
import Mathlib.Tactic.Common

/-!
# Memory layout and address arithmetic

The constants of `param.h`, `mmu.h` and `memlayout.h` and the address macros built from them.
Addresses are natural numbers below `2 ^ 32`; the places where the source relies on `uint`
wrapping reduce modulo `2 ^ 32` explicitly. A physical frame is named by its number, the
physical address divided by `PGSIZE`, since every physical address the kernel stores in a page
table, on the free list or in the count array is page aligned.

`Layout` holds what the linker decides: the addresses `data` and `end` of the kernel image.
-/

namespace OsLabs.Xv6

/-! ## Constants -/

/-- Bytes mapped by a page. -/
def PGSIZE : ℕ := 4096
/-- Maximum number of processes. -/
def NPROC : ℕ := 64
/-- Directory entries per page directory. -/
def NPDENTRIES : ℕ := 1024
/-- Maximum number of arguments of `exec`. -/
def MAXARG : ℕ := 32
/-- Start of extended memory. -/
def EXTMEM : ℕ := 0x100000
/-- Top of physical memory. -/
def PHYSTOP : ℕ := 0xE000000
/-- Other devices are at high addresses. -/
def DEVSPACE : ℕ := 0xFE000000
/-- First kernel virtual address. -/
def KERNBASE : ℕ := 0x80000000
/-- Address where the kernel is linked. -/
def KERNLINK : ℕ := KERNBASE + EXTMEM

/-- The first physical page that `kinit1` leaves to `kinit2`: 4 MB. -/
def INITSTOP : ℕ := 4 * 1024 * 1024

/-- The linker's addresses: the start of the kernel's data and the end of its image. The image
starts with at least a page of text, and all of it lies in the 4 MB that `entrypgdir` maps. -/
class Layout where
  data : ℕ
  end_ : ℕ
  data_aligned : data % PGSIZE = 0
  text_lt : KERNLINK < data
  data_le : data ≤ end_
  end_le : end_ ≤ KERNBASE + INITSTOP

/-! ## Address macros -/

/-- Truncation to a `uint`. -/
def uint (n : ℕ) : ℕ := n % 2 ^ 32

/-- The `uint` of an `int` added to a `uint`. -/
def addInt (sz : ℕ) (n : ℤ) : ℕ := ((sz + n) % 2 ^ 32).toNat

def PGROUNDUP (sz : ℕ) : ℕ := uint (sz + PGSIZE - 1) / PGSIZE * PGSIZE

def PGROUNDDOWN (a : ℕ) : ℕ := a / PGSIZE * PGSIZE

/-- Page directory index. -/
def PDX (va : ℕ) : ℕ := va / 2 ^ 22 % 1024

/-- Page table index. -/
def PTX (va : ℕ) : ℕ := va / 2 ^ 12 % 1024

/-- A virtual address from its indexes and offset. -/
def PGADDR (d t o : ℕ) : ℕ := uint (d * 2 ^ 22 + t * 2 ^ 12 + o)

/-- Kernel virtual to physical address. -/
def V2P (a : ℕ) : ℕ := uint (a + 2 ^ 32 - KERNBASE)

/-- Physical to kernel virtual address. -/
def P2V (a : ℕ) : ℕ := a + KERNBASE

/-- The number of pages that meet `[0, sz)`. -/
def pages (sz : ℕ) : ℕ := (sz + 4095) / 4096

/-- The number of pages below `KERNBASE`. -/
def UPAGES : ℕ := KERNBASE / PGSIZE

theorem UPAGES_eq : UPAGES = 524288 := by decide

theorem KERNBASE_eq : KERNBASE = 2147483648 := rfl

/-- The end of the first page of the kernel's text. -/
theorem KERNLINK_PGSIZE : KERNLINK + PGSIZE = 2148536320 := rfl

theorem KERNLINK_eq : KERNLINK = 2148532224 := rfl

theorem KERNBASE_pos : 0 < KERNBASE := by
  rw [KERNBASE_eq]
  omega

theorem PGROUNDUP_of_lt {sz : ℕ} (h : sz + PGSIZE ≤ 2 ^ 32) : PGROUNDUP sz = pages sz * 4096 := by
  simp only [PGROUNDUP, uint, pages, PGSIZE] at *
  omega

theorem PGROUNDUP_eq {sz : ℕ} (h : sz ≤ KERNBASE) : PGROUNDUP sz = pages sz * 4096 := by
  refine PGROUNDUP_of_lt ?_
  simp only [KERNBASE, PGSIZE] at *
  omega

theorem PDX_eq {va : ℕ} (h : va < 2 ^ 32) : PDX va = va / 4096 / 1024 := by
  simp only [PDX]
  omega

theorem PTX_eq (va : ℕ) : PTX va = va / 4096 % 1024 := rfl

theorem PDX_page {v : ℕ} (h : v < 2 ^ 20) : PDX (v * 4096) = v / 1024 := by
  rw [PDX_eq (by omega)]
  omega

theorem pages_mono {a b : ℕ} (h : a ≤ b) : pages a ≤ pages b := by
  simp only [pages]
  omega

theorem pages_le_UPAGES {sz : ℕ} (h : sz ≤ KERNBASE) : pages sz ≤ UPAGES := by
  rw [UPAGES_eq]
  simp only [pages, KERNBASE] at *
  omega

/-- The frames that `kfree` accepts and `kinit1` and `kinit2` put on the free list: those from
`PGROUNDUP(V2P(end))` up to `PHYSTOP`. -/
def InRange [L : Layout] (f : ℕ) : Prop :=
  L.end_ ≤ f * PGSIZE + KERNBASE ∧ f * PGSIZE < PHYSTOP

instance [Layout] (f : ℕ) : Decidable (InRange f) := inferInstanceAs (Decidable (_ ∧ _))

/-- The frames that `kfree` panics for. -/
theorem not_inRange [L : Layout] {f : ℕ} :
    ¬InRange f ↔ f * PGSIZE + KERNBASE < L.end_ ∨ PHYSTOP ≤ f * PGSIZE := by
  unfold InRange
  omega

theorem InRange.ne_zero [L : Layout] {f : ℕ} (h : InRange f) : f ≠ 0 := by
  rintro rfl
  have h₁ := h.1
  have h₂ := L.data_le
  have h₃ := L.text_lt
  simp only [KERNLINK, EXTMEM] at h₃
  omega

end OsLabs.Xv6
