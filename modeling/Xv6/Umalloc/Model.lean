/-
umalloc.c: the memory allocator of user programs, by Kernighan and Ritchie. The headers
are two maps over addresses, `s.ptr` and `s.size`; sizes are counted in headers and are
32 bits, pointers are 64. The free list is circular, through the static header `base`.

sbrk is what the kernel answers: any function of the state and the size, which may refuse.
What it returned is kept (`core`). The two search loops run on fuel: a call returns what
it returns with enough of it (`Yields`), and one that does not stop yields nothing.
-/
import Xv6.Lib.Chain
import Xv6.Lib.Extent
import Xv6.Vm.Riscv

namespace Xv6.Umalloc

open Lib

/-- sizeof(Header) -/
def HEADER : Nat := 16

/-- Headers, by address; where the last search ended; and the memory obtained from sbrk. -/
structure State where
  ptr : Nat → Nat := fun _ => 0
  size : Nat → Nat := fun _ => 0
  freep : Nat := 0
  core : List Extent := []

/-- `p + n`, for a pointer to headers. -/
def add (p n : Nat) : Nat := u64 (p + HEADER * n)

/-- What sbrk(n) returns, if it succeeds. -/
abbrev Sbrk := State → Nat → Option Nat

/-- The condition to leave free's loop: `bp` belongs behind `p`, or behind the last block. -/
def found (s : State) (bp p : Nat) : Bool :=
  decide (bp > p ∧ bp < s.ptr p) || decide (p ≥ s.ptr p ∧ (bp > p ∨ bp < s.ptr p))

/-- Join with the block behind, or link to it. -/
def joinNext (bp p : Nat) (s : State) : State :=
  if add bp (s.size bp) = s.ptr p then
    { s with
      size := Function.update s.size bp (u32 (s.size bp + s.size (s.ptr p)))
      ptr := Function.update s.ptr bp (s.ptr (s.ptr p)) }
  else { s with ptr := Function.update s.ptr bp (s.ptr p) }

/-- Join with the block before, or link it. -/
def joinPrev (bp p : Nat) (s : State) : State :=
  if add p (s.size p) = bp then
    { s with
      size := Function.update s.size p (u32 (s.size p + s.size bp))
      ptr := Function.update s.ptr p (s.ptr bp) }
  else { s with ptr := Function.update s.ptr p bp }

def free (ap : Nat) (s : State) (fuel : Nat) : Option State :=
  let bp := ap - HEADER
  (walk s.ptr (found s bp) fuel s.freep).map fun p => { joinPrev bp p (joinNext bp p s) with freep := p }

def morecore (sbrk : Sbrk) (nu : Nat) (s : State) (fuel : Nat) : Option (Nat × State) :=
  let nu := if nu < 4096 then 4096 else nu
  match sbrk s (nu * HEADER) with
  | none => some (0, s)
  | some hp =>
    let s := { s with core := ⟨hp, nu * HEADER⟩ :: s.core, size := Function.update s.size hp nu }
    (free (add hp 1) s fuel).map fun s => (s.freep, s)

/-- Take the block at `p`, or its end. -/
def take (nunits prevp p : Nat) (s : State) : Nat × State :=
  if s.size p = nunits then (add p 1, { s with ptr := Function.update s.ptr prevp (s.ptr p), freep := prevp })
  else
    let s := { s with size := Function.update s.size p (s.size p - nunits) }
    let p := add p (s.size p)
    (add p 1, { s with size := Function.update s.size p nunits, freep := prevp })

def mallocLoop (sbrk : Sbrk) (nunits : Nat) : Nat → Nat → Nat → State → Option (Nat × State)
  | 0, _, _, _ => none
  | fuel + 1, prevp, p, s =>
    if s.size p ≥ nunits then some (take nunits prevp p s)
    else if p = s.freep then
      match morecore sbrk nunits s fuel with
      | none => none
      | some (p, s) => if p = 0 then some (0, s) else mallocLoop sbrk nunits fuel p (s.ptr p) s
    else mallocLoop sbrk nunits fuel p (s.ptr p) s

/-- The number of headers for a block of `nbytes`, with its own. -/
def units (nbytes : Nat) : Nat := u32 ((nbytes + HEADER - 1) / HEADER + 1)

def malloc (base : Nat) (sbrk : Sbrk) (nbytes : Nat) (s : State) (fuel : Nat) : Option (Nat × State) :=
  let s := if s.freep = 0 then
      { s with ptr := Function.update s.ptr base base, size := Function.update s.size base 0, freep := base }
    else s
  mallocLoop sbrk (units nbytes) fuel s.freep (s.ptr s.freep) s

/-- The call returns `r`. -/
def Yields {α : Type} (f : Nat → Option α) (r : α) : Prop := ∃ n, ∀ fuel ≥ n, f fuel = some r

end Xv6.Umalloc
