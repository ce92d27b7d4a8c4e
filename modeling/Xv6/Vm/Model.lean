/-
vm.c: the page-table functions and the copies between user and kernel memory, over the
physical memory of kalloc.c. Pointers are addresses, 0 is the null pointer, and a
failing C function's -1 is -1 here. Loops over virtual addresses carry a count that
cannot run out: `walk` panics at MAXVA, which every such loop reaches within `vaPages`
steps.
-/
import Xv6.Vm.Kalloc

namespace Xv6.Mem

open Lib

/-- More steps than there are virtual pages below MAXVA. -/
def vaPages : Nat := MAXVA / PGSIZE + 1

/-- A C int passed on as a uint64. -/
def intToU64 (x : Nat) : Nat := if x % 2 ^ 32 < 2 ^ 31 then x % 2 ^ 32 else 2 ^ 64 - 2 ^ 32 + x % 2 ^ 32

/-! ## Page tables -/

/-- The loop of walk, from `level` down to the table at level 0. -/
def walkFrom (va : Nat) (alloc : Bool) : Nat → Nat → Code Mem Nat
  | 0, pagetable => return pagetable + 8 * PX 0 va
  | level + 1, pagetable => do
    let pte := pagetable + 8 * PX (level + 1) va
    let v ← load pte 8
    if Flag v PTE_V then walkFrom va alloc level (PTE2PA v)
    else if alloc = false then return 0
    else
      let pg ← kalloc
      if pg = 0 then return 0
      memset pg 0
      store pte 8 (PA2PTE pg ||| PTE_V)
      walkFrom va alloc level pg

def walk (pagetable va : Nat) (alloc : Bool) : Code Mem Nat :=
  if va ≥ MAXVA then Code.panic "walk" else walkFrom va alloc 2 pagetable

def walkaddr (pagetable va : Nat) : Code Mem Nat := do
  if va ≥ MAXVA then return 0
  let pte ← walk pagetable va false
  if pte = 0 then return 0
  let v ← load pte 8
  if v &&& PTE_V = 0 then return 0
  if v &&& PTE_U = 0 then return 0
  return PTE2PA v

def mappagesLoop (pagetable last perm : Nat) : Nat → Nat → Nat → Code Mem Int
  | 0, _, _ => Code.panic "walk"
  | n + 1, a, pa => do
    let pte ← walk pagetable a true
    if pte = 0 then return -1
    let v ← load pte 8
    if Flag v PTE_V then Code.panic "mappages: remap"
    else
      store pte 8 (PA2PTE pa ||| perm ||| PTE_V)
      if a = last then return 0
      mappagesLoop pagetable last perm n (u64 (a + PGSIZE)) (u64 (pa + PGSIZE))

def mappages (pagetable va size pa perm : Nat) : Code Mem Int :=
  if size = 0 then Code.panic "mappages: size"
  else mappagesLoop pagetable (PGROUNDDOWN (u64 (va + size - 1))) perm vaPages (PGROUNDDOWN va) pa

def uvmunmapLoop (pagetable limit : Nat) (doFree : Bool) : Nat → Nat → Code Mem Unit
  | 0, _ => Code.panic "walk"
  | n + 1, a => do
    if a < limit then
      let pte ← walk pagetable a false
      if pte = 0 then Code.panic "uvmunmap: walk"
      else
        let v ← load pte 8
        if v &&& PTE_V = 0 then Code.panic "uvmunmap: not mapped"
        else if PTE_FLAGS v = PTE_V then Code.panic "uvmunmap: not a leaf"
        else
          Code.when doFree (kfree (PTE2PA v))
          store pte 8 0
          uvmunmapLoop pagetable limit doFree n (u64 (a + PGSIZE))
    else return

def uvmunmap (pagetable va npages : Nat) (doFree : Bool) : Code Mem Unit :=
  if va % PGSIZE ≠ 0 then Code.panic "uvmunmap: not aligned"
  else uvmunmapLoop pagetable (u64 (va + npages * PGSIZE)) doFree vaPages va

def uvmcreate : Code Mem Nat := do
  let pagetable ← kalloc
  if pagetable = 0 then return 0
  memset pagetable 0
  return pagetable

def uvmfirst (pagetable : Nat) (src : List UInt8) : Code Mem Unit :=
  if src.length ≥ PGSIZE then Code.panic "uvmfirst: more than a page"
  else do
    let mem ← kalloc
    memset mem 0
    let _ ← mappages pagetable 0 PGSIZE mem (PTE_W ||| PTE_R ||| PTE_X ||| PTE_U)
    storeBytes mem src

def uvmdealloc (pagetable oldsz newsz : Nat) : Code Mem Nat := do
  if newsz ≥ oldsz then return oldsz
  Code.when (PGROUNDUP newsz < PGROUNDUP oldsz) do
    uvmunmap pagetable (PGROUNDUP newsz) (intToU64 ((PGROUNDUP oldsz - PGROUNDUP newsz) / PGSIZE)) true
  return newsz

/-- The loop of uvmalloc; `oldsz` is already rounded up. -/
def uvmallocLoop (pagetable oldsz newsz xperm : Nat) : Nat → Nat → Code Mem Nat
  | 0, _ => Code.panic "walk"
  | n + 1, a => do
    if a < newsz then
      let mem ← kalloc
      if mem = 0 then
        let _ ← uvmdealloc pagetable a oldsz
        return 0
      memset mem 0
      let r ← mappages pagetable a PGSIZE mem (PTE_R ||| PTE_U ||| xperm)
      if r ≠ 0 then
        kfree mem
        let _ ← uvmdealloc pagetable a oldsz
        return 0
      uvmallocLoop pagetable oldsz newsz xperm n (u64 (a + PGSIZE))
    else return newsz

def uvmalloc (pagetable oldsz newsz xperm : Nat) : Code Mem Nat :=
  if newsz < oldsz then return oldsz
  else uvmallocLoop pagetable (PGROUNDUP oldsz) newsz xperm vaPages (PGROUNDUP oldsz)

/-- One pass of freewalk over the entries `is` of a table; `free` is the recursive call. -/
def freewalkEntries (free : Nat → Code Mem Unit) (pagetable : Nat) : List Nat → Code Mem Unit
  | [] => return
  | i :: is => do
    let pte ← load (pagetable + 8 * i) 8
    if Flag pte PTE_V ∧ pte &&& (PTE_R ||| PTE_W ||| PTE_X) = 0 then
      free (PTE2PA pte)
      store (pagetable + 8 * i) 8 0
      freewalkEntries free pagetable is
    else if Flag pte PTE_V then Code.panic "freewalk: leaf"
    else freewalkEntries free pagetable is

/-- Recursion at most `depth` tables deep; a table that refers further down than level 0
sends the C code into memory that is no table. -/
def freewalkFrom : Nat → Nat → Code Mem Unit
  | 0, _ => Code.panic "kerneltrap"
  | depth + 1, pagetable => do
    freewalkEntries (freewalkFrom depth) pagetable (List.range 512)
    kfree pagetable

def freewalk (pagetable : Nat) : Code Mem Unit := freewalkFrom 3 pagetable

def uvmfree (pagetable sz : Nat) : Code Mem Unit := do
  Code.when (sz > 0) (uvmunmap pagetable 0 (PGROUNDUP sz / PGSIZE) true)
  freewalk pagetable

def uvmcopyLoop (old new sz : Nat) : Nat → Nat → Code Mem Int
  | 0, _ => Code.panic "walk"
  | n + 1, i => do
    if i < sz then
      let pte ← walk old i false
      if pte = 0 then Code.panic "uvmcopy: pte should exist"
      else
        let v ← load pte 8
        if v &&& PTE_V = 0 then Code.panic "uvmcopy: page not present"
        else
          let mem ← kalloc
          if mem = 0 then
            uvmunmap new 0 (i / PGSIZE) true
            return -1
          copyPage mem (PTE2PA v)
          let r ← mappages new i PGSIZE mem (PTE_FLAGS v)
          if r ≠ 0 then
            kfree mem
            uvmunmap new 0 (i / PGSIZE) true
            return -1
          uvmcopyLoop old new sz n (u64 (i + PGSIZE))
    else return 0

def uvmcopy (old new sz : Nat) : Code Mem Int := uvmcopyLoop old new sz vaPages 0

def uvmclear (pagetable va : Nat) : Code Mem Unit := do
  let pte ← walk pagetable va false
  if pte = 0 then Code.panic "uvmclear"
  else store pte 8 ((← load pte 8) &&& (2 ^ 64 - 1 - PTE_U))

/-! ## Copies between user and kernel memory -/

def copyoutLoop (pagetable : Nat) : Nat → Nat → List UInt8 → Code Mem Int
  | _, _, [] => return 0
  | 0, _, _ :: _ => return 0
  | k + 1, dstva, src => do
    let va0 := PGROUNDDOWN dstva
    let pa0 ← walkaddr pagetable va0
    if pa0 = 0 then return -1
    let n := min (PGSIZE - (dstva - va0)) src.length
    storeBytes (pa0 + (dstva - va0)) (src.take n)
    copyoutLoop pagetable k (u64 (va0 + PGSIZE)) (src.drop n)

/-- Each step copies at least one byte. -/
def copyout (pagetable dstva : Nat) (src : List UInt8) : Code Mem Int :=
  copyoutLoop pagetable src.length dstva src

/-- The result and the bytes stored at dst, also when the copy stops early. -/
def copyinLoop (pagetable : Nat) : Nat → Nat → Nat → List UInt8 → Code Mem (Int × List UInt8)
  | 0, _, _, dst => return (0, dst)
  | k + 1, srcva, len, dst => do
    if len = 0 then return (0, dst)
    let va0 := PGROUNDDOWN srcva
    let pa0 ← walkaddr pagetable va0
    if pa0 = 0 then return (-1, dst)
    let n := min (PGSIZE - (srcva - va0)) len
    let bytes ← loadBytes (pa0 + (srcva - va0)) n
    copyinLoop pagetable k (u64 (va0 + PGSIZE)) (len - n) (dst ++ bytes)

def copyin (pagetable srcva len : Nat) : Code Mem (Int × List UInt8) := copyinLoop pagetable len srcva len []

def copyinstrLoop (pagetable : Nat) : Nat → Nat → Nat → List UInt8 → Code Mem (Int × List UInt8)
  | 0, _, _, dst => return (-1, dst)
  | k + 1, srcva, max, dst => do
    if max = 0 then return (-1, dst)
    let va0 := PGROUNDDOWN srcva
    let pa0 ← walkaddr pagetable va0
    if pa0 = 0 then return (-1, dst)
    let n := min (PGSIZE - (srcva - va0)) max
    let bytes ← loadBytes (pa0 + (srcva - va0)) n
    match bytes.findIdx? (· = 0) with
    | some j => return (0, dst ++ bytes.take j ++ [0])
    | none => copyinstrLoop pagetable k (u64 (va0 + PGSIZE)) (max - n) (dst ++ bytes)

def copyinstr (pagetable srcva max : Nat) : Code Mem (Int × List UInt8) := copyinstrLoop pagetable max srcva max []

/-! ## proc.c: the page table of a process -/

def trampoline : Code Mem Nat := fun s => .ok (s.layout.trampoline, s)

def procPagetable (trapframe : Nat) : Code Mem Nat := do
  let pagetable ← uvmcreate
  if pagetable = 0 then return 0
  let pa ← trampoline
  let r ← mappages pagetable TRAMPOLINE PGSIZE pa (PTE_R ||| PTE_X)
  if r < 0 then
    uvmfree pagetable 0
    return 0
  let r ← mappages pagetable TRAPFRAME PGSIZE trapframe (PTE_R ||| PTE_W)
  if r < 0 then
    uvmunmap pagetable TRAMPOLINE 1 false
    uvmfree pagetable 0
    return 0
  return pagetable

def procFreepagetable (pagetable sz : Nat) : Code Mem Unit := do
  uvmunmap pagetable TRAMPOLINE 1 false
  uvmunmap pagetable TRAPFRAME 1 false
  uvmfree pagetable sz

end Xv6.Mem
