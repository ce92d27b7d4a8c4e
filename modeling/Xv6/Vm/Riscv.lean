/-
riscv.h and memlayout.h: pages, Sv39 page-table entries, and the fixed addresses of
the kernel's and a process's memory. Addresses and entries are natural numbers below
2^64; `u64` is where the C arithmetic wraps.
-/
import Mathlib

namespace Xv6

/-- Arithmetic on uint64. -/
def u64 (x : Nat) : Nat := x % 2 ^ 64

/-- Arithmetic on uint. -/
def u32 (x : Nat) : Nat := x % 2 ^ 32

def PGSIZE : Nat := 4096
def PGSHIFT : Nat := 12

def PGROUNDUP (sz : Nat) : Nat := u64 (sz + PGSIZE - 1) / PGSIZE * PGSIZE
def PGROUNDDOWN (a : Nat) : Nat := a / PGSIZE * PGSIZE

def PTE_V : Nat := 1 <<< 0
def PTE_R : Nat := 1 <<< 1
def PTE_W : Nat := 1 <<< 2
def PTE_X : Nat := 1 <<< 3
def PTE_U : Nat := 1 <<< 4

def PA2PTE (pa : Nat) : Nat := (pa >>> 12) <<< 10
def PTE2PA (pte : Nat) : Nat := u64 ((pte >>> 10) <<< 12)
def PTE_FLAGS (pte : Nat) : Nat := pte &&& 0x3FF

def PXMASK : Nat := 0x1FF
def PXSHIFT (level : Nat) : Nat := PGSHIFT + 9 * level
def PX (level va : Nat) : Nat := (va >>> PXSHIFT level) &&& PXMASK

def MAXVA : Nat := 1 <<< (9 + 9 + 9 + 12 - 1)

def KERNBASE : Nat := 0x80000000
def PHYSTOP : Nat := KERNBASE + 128 * 1024 * 1024
def TRAMPOLINE : Nat := MAXVA - PGSIZE
def TRAPFRAME : Nat := TRAMPOLINE - PGSIZE

/-- The flag test `pte & f` of the source. -/
abbrev Flag (pte f : Nat) : Prop := pte &&& f ≠ 0

/-! ## Rounding -/

/-- The number of pages below `PGROUNDUP sz`. -/
def pagesBelow (sz : Nat) : Nat := (sz + PGSIZE - 1) / PGSIZE

theorem PGROUNDUP_eq {sz : Nat} (h : sz + PGSIZE ≤ 2 ^ 64) : PGROUNDUP sz = pagesBelow sz * PGSIZE := by
  have hp : PGSIZE = 4096 := rfl
  rw [PGROUNDUP, u64, Nat.mod_eq_of_lt (by omega), pagesBelow]

theorem lt_pagesBelow {k sz : Nat} : k < pagesBelow sz ↔ k * PGSIZE < sz := by
  simp only [pagesBelow, PGSIZE]
  omega

theorem pagesBelow_mul (n : Nat) : pagesBelow (n * PGSIZE) = n := by
  simp only [pagesBelow, PGSIZE]
  omega

theorem le_pagesBelow_mul (sz : Nat) : sz ≤ pagesBelow sz * PGSIZE := by
  simp only [pagesBelow, PGSIZE]
  omega

theorem pagesBelow_mono {a b : Nat} (h : a ≤ b) : pagesBelow a ≤ pagesBelow b := by
  simp only [pagesBelow, PGSIZE]
  omega

/-! ## Page-table entries -/

theorem PA2PTE_eq (pa : Nat) : PA2PTE pa = pa / 2 ^ 12 * 2 ^ 10 := by
  rw [PA2PTE, Nat.shiftLeft_eq, Nat.shiftRight_eq_div_pow]

theorem PA2PTE_or {pa f : Nat} (hf : f < 2 ^ 10) : PA2PTE pa ||| f = pa / 2 ^ 12 * 2 ^ 10 + f := by
  rw [PA2PTE, ← Nat.shiftLeft_add_eq_or_of_lt hf, Nat.shiftLeft_eq, Nat.shiftRight_eq_div_pow]

/-- An entry carries its physical page. -/
theorem PTE2PA_or {pa f : Nat} (hf : f < 2 ^ 10) (ha : pa % PGSIZE = 0) (hpa : pa < 2 ^ 64) :
    PTE2PA (PA2PTE pa ||| f) = pa := by
  rw [show PGSIZE = 4096 from rfl] at ha
  have hpage : (pa / 2 ^ 12 * 2 ^ 10 + f) / 2 ^ 10 = pa / 2 ^ 12 := by omega
  rw [PTE2PA, u64, PA2PTE_or hf, Nat.shiftLeft_eq, Nat.shiftRight_eq_div_pow, hpage]
  omega

theorem flags_and {pte k : Nat} (hk : 0x3FF &&& k = k) : PTE_FLAGS pte &&& k = pte &&& k := by
  rw [PTE_FLAGS, Nat.and_assoc, hk]

/-- An entry carries its flags. -/
theorem PTE_FLAGS_or {pa f : Nat} (hf : f < 2 ^ 10) : PTE_FLAGS (PA2PTE pa ||| f) = f := by
  rw [PTE_FLAGS, show (0x3FF : Nat) = 2 ^ 10 - 1 from rfl, Nat.and_two_pow_sub_one_eq_mod, PA2PTE_or hf]
  omega

theorem or_and_flag {pa f k : Nat} (hf : f < 2 ^ 10) (hk : 0x3FF &&& k = k) : (PA2PTE pa ||| f) &&& k = f &&& k := by
  rw [← flags_and hk, PTE_FLAGS_or hf]

theorem flag_or {a b k : Nat} : Flag (a ||| b) k ↔ Flag a k ∨ Flag b k := by
  rw [Flag, Nat.and_or_distrib_right, Ne, Nat.or_eq_zero_iff]
  exact not_and_or

theorem PTE_FLAGS_lt (pte : Nat) : PTE_FLAGS pte < 2 ^ 10 := by
  rw [PTE_FLAGS, show (0x3FF : Nat) = 2 ^ 10 - 1 from rfl, Nat.and_two_pow_sub_one_eq_mod]
  exact Nat.mod_lt _ (by decide)

/-- The index of a virtual page in the table at `level`. -/
theorem PX_eq (level va : Nat) : PX level va = va / PGSIZE / 512 ^ level % 512 := by
  rw [PX, show PXMASK = 2 ^ 9 - 1 from rfl, Nat.and_two_pow_sub_one_eq_mod, Nat.shiftRight_eq_div_pow, PXSHIFT,
    show PGSHIFT = 12 from rfl, Nat.pow_add, ← Nat.div_div_eq_div_mul, Nat.pow_mul]
  rfl

end Xv6
