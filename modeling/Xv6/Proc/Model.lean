/-
proc.c, pipe.c, the descriptor part of file.c and sysfile.c, and the system calls over
them, on one kernel state: physical memory, the process table and the file table.
System calls run one at a time, as if each ran to its end before the next one starts;
`wait` returns when it can and is not taken while it would sleep. What the file system
answers (the file exec reads, the inode open finds) is part of the call. Locks, sleep
channels, the saved kernel context and current directories do not show here.
-/
import Xv6.Proc.Exec
import Xv6.Lib.Transition
import Xv6.Param

namespace Xv6

open Lib Mem

/-- struct proc; pointers into the tables are indices. -/
structure Proc where
  state : ProcState := .UNUSED
  killed : Bool := false
  xstate : Int := 0
  pid : Int := 0
  parent : Option (Fin NPROC) := none
  sz : Nat := 0
  pagetable : Nat := 0
  trapframe : Nat := 0
  ofile : Fin NOFILE → Option (Fin NFILE) := fun _ => none
  name : List UInt8 := []

/-- p->ofile[fd] = v -/
def Proc.setFd (x : Proc) (fd : Fin NOFILE) (v : Option (Fin NFILE)) : Proc :=
  { x with ofile := Function.update x.ofile fd v }

@[simp] theorem Proc.setFd_ofile (x : Proc) (fd : Fin NOFILE) (v : Option (Fin NFILE)) :
    (x.setFd fd v).ofile = Function.update x.ofile fd v := rfl

inductive FileType where
  | FD_NONE | FD_PIPE | FD_INODE | FD_DEVICE
  deriving DecidableEq, Repr

/-- struct file, as far as descriptors and pipes use it. -/
structure File where
  type : FileType := .FD_NONE
  ref : Nat := 0
  readable : Bool := false
  writable : Bool := false
  pipe : Nat := 0

/-- The kernel's state. `kernelPages` records the pages the kernel keeps from booting on. -/
structure Sys where
  mem : Mem
  proc : Fin NPROC → Proc := fun _ => {}
  file : Fin NFILE → File := fun _ => {}
  nextpid : Int := 1
  initproc : Option (Fin NPROC) := none
  kernelPages : List Nat := []

namespace Sys

def withMem (s : Sys) (m : Mem) : Sys := { s with mem := m }

def updProc (s : Sys) (p : Fin NPROC) (f : Proc → Proc) : Sys :=
  { s with proc := Function.update s.proc p (f (s.proc p)) }

def updFile (s : Sys) (i : Fin NFILE) (f : File → File) : Sys :=
  { s with file := Function.update s.file i (f (s.file i)) }

/-- A function of the memory, run in the kernel. -/
def vm {α : Type} (c : Code Mem α) : Code Sys α := fun s =>
  match c s.mem with
  | .ok (a, m) => .ok (a, s.withMem m)
  | .error e => .error e

def setProc (p : Fin NPROC) (f : Proc → Proc) : Code Sys Unit := modify fun s => s.updProc p f

def setFile (i : Fin NFILE) (f : File → File) : Code Sys Unit := modify fun s => s.updFile i f

section Fields

variable (s : Sys) (m : Mem) (p : Fin NPROC) (f : Proc → Proc) (i : Fin NFILE) (g : File → File)

@[simp] theorem withMem_proc : (s.withMem m).proc = s.proc := rfl
@[simp] theorem withMem_kernelPages : (s.withMem m).kernelPages = s.kernelPages := rfl
@[simp] theorem updProc_proc : (s.updProc p f).proc = Function.update s.proc p (f (s.proc p)) := rfl
@[simp] theorem updProc_file : (s.updProc p f).file = s.file := rfl
@[simp] theorem updProc_updProc (f' : Proc → Proc) : (s.updProc p f).updProc p f' = s.updProc p fun x => f' (f x) := by
  simp [updProc]
@[simp] theorem updFile_proc : (s.updFile i g).proc = s.proc := rfl
@[simp] theorem updFile_file : (s.updFile i g).file = Function.update s.file i (g (s.file i)) := rfl

end Fields

/-- A C int as the uint64 it is converted to. -/
def u64OfInt (x : Int) : Nat := (x % 2 ^ 64).toNat

/-- The int that a sum of ints wraps to. -/
def i32 (x : Int) : Int := Int.bmod x (2 ^ 32)

/-- The low 32 bits of a saved register as an int. -/
def argint (a : Nat) : Int := if a % 2 ^ 32 < 2 ^ 31 then a % 2 ^ 32 else a % 2 ^ 32 - 2 ^ 32

/-- The bytes of an int. -/
def intBytes (x : Int) : List UInt8 := (List.range 4).map fun i => UInt8.ofNat (u64OfInt x / 256 ^ i)

/-! ## struct trapframe and struct pipe -/

def trapframeSize : Nat := 288
def trapframeEpc : Nat := 24
def trapframeSp : Nat := 48
def trapframeA0 : Nat := 112
def trapframeA1 : Nat := 120

def pipeNread : Nat := 536
def pipeNwrite : Nat := 540
def pipeReadopen : Nat := 544
def pipeWriteopen : Nat := 548

/-! ## file.c and pipe.c -/

def filealloc : Code Sys (Option (Fin NFILE)) := do
  let s ← get
  match (List.finRange NFILE).find? fun f => (s.file f).ref = 0 with
  | none => return none
  | some f =>
    setFile f fun x => { x with ref := 1 }
    return some f

def filedup (f : Fin NFILE) : Code Sys Unit := do
  if ((← get).file f).ref < 1 then Code.panic "filedup"
  else setFile f fun x => { x with ref := x.ref + 1 }

def pipeclose (pi : Nat) (writable : Bool) : Code Mem Unit := do
  store (pi + if writable then pipeWriteopen else pipeReadopen) 4 0
  let readopen ← load (pi + pipeReadopen) 4
  let writeopen ← load (pi + pipeWriteopen) 4
  Code.when (readopen = 0 ∧ writeopen = 0) (kfree pi)

def fileclose (f : Fin NFILE) : Code Sys Unit := do
  let ff := (← get).file f
  if ff.ref < 1 then Code.panic "fileclose"
  else if ff.ref - 1 > 0 then setFile f fun x => { x with ref := x.ref - 1 }
  else
    setFile f fun x => { x with ref := 0, type := .FD_NONE }
    Code.when (ff.type = .FD_PIPE) (vm (pipeclose ff.pipe ff.writable))

/-- pipealloc's initialisation of the pipe. -/
def pipeinit (pi : Nat) : Code Mem Unit := do
  store (pi + pipeReadopen) 4 1
  store (pi + pipeWriteopen) 4 1
  store (pi + pipeNwrite) 4 0
  store (pi + pipeNread) 4 0

def pipealloc : Code Sys (Option (Fin NFILE × Fin NFILE)) := do
  match ← filealloc with
  | none => return none
  | some f0 =>
    match ← filealloc with
    | none =>
      fileclose f0
      return none
    | some f1 =>
      let pi ← vm kalloc
      if pi = 0 then
        fileclose f0
        fileclose f1
        return none
      vm (pipeinit pi)
      setFile f0 fun x => { x with type := .FD_PIPE, readable := true, writable := false, pipe := pi }
      setFile f1 fun x => { x with type := .FD_PIPE, readable := false, writable := true, pipe := pi }
      return some (f0, f1)

/-- argfd: the descriptor and its file. -/
def argfd (p : Fin NPROC) (a : Nat) : Code Sys (Option (Fin NOFILE × Fin NFILE)) := do
  let fd := argint a
  if h : 0 ≤ fd ∧ fd.toNat < NOFILE then
    match ((← get).proc p).ofile ⟨fd.toNat, h.2⟩ with
    | none => return none
    | some f => return some (⟨fd.toNat, h.2⟩, f)
  else return none

def fdalloc (p : Fin NPROC) (f : Fin NFILE) : Code Sys (Option (Fin NOFILE)) := do
  let s ← get
  match (List.finRange NOFILE).find? fun fd => (s.proc p).ofile fd = none with
  | none => return none
  | some fd =>
    setProc p (·.setFd fd (some f))
    return some fd

/-! ## proc.c -/

def allocpid : Code Sys Int := do
  let pid := (← get).nextpid
  modify fun s => { s with nextpid := i32 (pid + 1) }
  return pid

def freeproc (p : Fin NPROC) : Code Sys Unit := do
  let pr := (← get).proc p
  Code.when (pr.trapframe ≠ 0) (vm (kfree pr.trapframe))
  setProc p fun x => { x with trapframe := 0 }
  Code.when (pr.pagetable ≠ 0) (vm (procFreepagetable pr.pagetable pr.sz))
  setProc p fun x => { x with
    pagetable := 0, sz := 0, pid := 0, parent := none, name := [], killed := false, xstate := 0, state := .UNUSED }

def allocproc : Code Sys (Option (Fin NPROC)) := do
  let s ← get
  match (List.finRange NPROC).find? fun p => (s.proc p).state = .UNUSED with
  | none => return none
  | some p =>
    let pid ← allocpid
    setProc p fun x => { x with pid, state := .USED }
    let trapframe ← vm kalloc
    setProc p fun x => { x with trapframe }
    if trapframe = 0 then
      freeproc p
      return none
    let pagetable ← vm (procPagetable trapframe)
    setProc p fun x => { x with pagetable }
    if pagetable = 0 then
      freeproc p
      return none
    return some p

def growproc (p : Fin NPROC) (n : Int) : Code Sys Int := do
  let pr := (← get).proc p
  if n > 0 then
    let sz ← vm (uvmalloc pr.pagetable pr.sz (u64OfInt (pr.sz + n)) PTE_W)
    if sz = 0 then return -1
    setProc p fun x => { x with sz }
    return 0
  else if n < 0 then
    let sz ← vm (uvmdealloc pr.pagetable pr.sz (u64OfInt (pr.sz + n)))
    setProc p fun x => { x with sz }
    return 0
  else return 0

/-- fork's loop over the open files. -/
def forkFiles (p np : Fin NPROC) : List (Fin NOFILE) → Code Sys Unit
  | [] => return
  | fd :: fds => do
    match ((← get).proc p).ofile fd with
    | none => forkFiles p np fds
    | some f =>
      filedup f
      setProc np (·.setFd fd (some f))
      forkFiles p np fds

def fork (p : Fin NPROC) : Code Sys Int := do
  match ← allocproc with
  | none => return -1
  | some np =>
    let pr := (← get).proc p
    let npr := (← get).proc np
    let r ← vm (uvmcopy pr.pagetable npr.pagetable pr.sz)
    if r < 0 then
      freeproc np
      return -1
    setProc np fun x => { x with sz := pr.sz }
    let regs ← vm (loadBytes pr.trapframe trapframeSize)
    vm (storeBytes npr.trapframe regs)
    vm (store (npr.trapframe + trapframeA0) 8 0)
    forkFiles p np (List.finRange NOFILE)
    setProc np fun x => { x with name := pr.name }
    setProc np fun x => { x with parent := some p }
    setProc np fun x => { x with state := .RUNNABLE }
    return npr.pid

def reparent (p : Fin NPROC) : Code Sys Unit :=
  modify fun s => { s with
    proc := fun q => if (s.proc q).parent = some p then { s.proc q with parent := s.initproc } else s.proc q }

/-- exit's loop over the open files. -/
def closeFiles (p : Fin NPROC) : List (Fin NOFILE) → Code Sys Unit
  | [] => return
  | fd :: fds => do
    match ((← get).proc p).ofile fd with
    | none => closeFiles p fds
    | some f =>
      fileclose f
      setProc p (·.setFd fd none)
      closeFiles p fds

def exit (p : Fin NPROC) (status : Int) : Code Sys Unit := do
  if (← get).initproc = some p then Code.panic "init exiting"
  else
    closeFiles p (List.finRange NOFILE)
    reparent p
    setProc p fun x => { x with xstate := status, state := .ZOMBIE }

/-- wait's copyout of the child's exit status. -/
def waitCopyout (p q : Fin NPROC) (addr : Nat) : Code Sys Int := do
  if addr = 0 then return 0
  let s ← get
  vm (copyout (s.proc p).pagetable addr (intBytes (s.proc q).xstate))

/-- wait: the result, or none while it has to sleep. -/
def wait (p : Fin NPROC) (addr : Nat) : Code Sys (Option Int) := do
  let s ← get
  match (List.finRange NPROC).find? fun q => (s.proc q).parent = some p ∧ (s.proc q).state = .ZOMBIE with
  | some q =>
    let r ← waitCopyout p q addr
    if r < 0 then return some (-1)
    freeproc q
    return some (s.proc q).pid
  | none =>
    if (∀ q, (s.proc q).parent ≠ some p) ∨ (s.proc p).killed then return some (-1)
    return none

def kill (pid : Int) : Code Sys Int := do
  let s ← get
  match (List.finRange NPROC).find? fun q => (s.proc q).pid = pid with
  | none => return -1
  | some q =>
    setProc q fun x => { x with killed := true, state := if x.state = .SLEEPING then .RUNNABLE else x.state }
    return 0

/-! ## exec -/

/-- The name exec keeps for debugging: what follows the last slash, cut to 15 bytes. -/
def execName (path : List UInt8) : List UInt8 := ((path.reverse.takeWhile (· ≠ 47)).reverse).take 15

/-- exec, the file system answering `namei`. -/
def exec (namei : List UInt8 → Option Inode) (p : Fin NPROC) (path : List UInt8) (argv : List Nat) :
    Code Sys Int := do
  match namei path with
  | none => return -1
  | some ip =>
    let pr := (← get).proc p
    match ← vm (execImage ip pr.trapframe argv) with
    | none => return -1
    | some img =>
      vm (store (pr.trapframe + trapframeA1) 8 img.sp)
      setProc p fun x => { x with name := execName path, pagetable := img.pagetable, sz := img.sz }
      vm (store (pr.trapframe + trapframeEpc) 8 img.entry)
      vm (store (pr.trapframe + trapframeSp) 8 img.sp)
      vm (procFreepagetable pr.pagetable pr.sz)
      return img.argc

/-! ## The system calls -/

def sysExec (namei : List UInt8 → Option Inode) (p : Fin NPROC) (upath uargv : Nat) : Code Sys Int := do
  let pr := (← get).proc p
  match ← vm (fetchstr pr.pagetable upath MAXPATH) with
  | none => return -1
  | some path =>
    match ← vm (fetchArgs pr.pagetable pr.sz uargv MAXARG []) with
    | (true, argv) =>
      let ret ← exec namei p path argv
      vm (freeArgs argv)
      return ret
    | (false, argv) =>
      vm (freeArgs argv)
      return -1

def sysSbrk (p : Fin NPROC) (a : Nat) : Code Sys Int := do
  let addr := ((← get).proc p).sz
  let r ← growproc p (argint a)
  if r < 0 then return -1
  return addr

def sysDup (p : Fin NPROC) (a : Nat) : Code Sys Int := do
  match ← argfd p a with
  | none => return -1
  | some (_, f) =>
    match ← fdalloc p f with
    | none => return -1
    | some fd =>
      filedup f
      return fd

def sysClose (p : Fin NPROC) (a : Nat) : Code Sys Int := do
  match ← argfd p a with
  | none => return -1
  | some (fd, f) =>
    setProc p (·.setFd fd none)
    fileclose f
    return 0

/-- The inode sys_open found, as far as the file table sees it. -/
structure Opened where
  device : Bool
  omode : Nat

/-- sys_open from where it has its inode, or has none. -/
def sysOpen (p : Fin NPROC) (found : Option Opened) : Code Sys Int := do
  match found with
  | none => return -1
  | some ip =>
    match ← filealloc with
    | none => return -1
    | some f =>
      match ← fdalloc p f with
      | none =>
        fileclose f
        return -1
      | some fd =>
        setFile f fun x => { x with
          type := if ip.device then .FD_DEVICE else .FD_INODE
          readable := ¬ Flag ip.omode 1
          writable := Flag ip.omode 1 ∨ Flag ip.omode 2 }
        return fd

/-- sys_pipe's way back from a failed copyout. -/
def pipeUndo (p : Fin NPROC) (fds : List (Fin NOFILE)) (rf wf : Fin NFILE) : Code Sys Int := do
  setProc p fun x => fds.foldl (fun x fd => x.setFd fd none) x
  fileclose rf
  fileclose wf
  return -1

def sysPipe (p : Fin NPROC) (fdarray : Nat) : Code Sys Int := do
  match ← pipealloc with
  | none => return -1
  | some (rf, wf) =>
    match ← fdalloc p rf with
    | none => pipeUndo p [] rf wf
    | some fd0 =>
      match ← fdalloc p wf with
      | none => pipeUndo p [fd0] rf wf
      | some fd1 =>
        let pagetable := ((← get).proc p).pagetable
        let r ← vm (copyout pagetable fdarray (intBytes fd0))
        if r < 0 then pipeUndo p [fd0, fd1] rf wf
        else
          let r ← vm (copyout pagetable (u64 (fdarray + 4)) (intBytes fd1))
          if r < 0 then pipeUndo p [fd0, fd1] rf wf
          else return 0

/-- A system call with its arguments as the registers have them. -/
inductive Call where
  | fork
  | exec (namei : List UInt8 → Option Inode) (path uargv : Nat)
  | sbrk (n : Nat)
  | pipe (fdarray : Nat)
  | openf (found : Option Opened)
  | dup (fd : Nat)
  | close (fd : Nat)
  | exit (status : Nat)
  | wait (addr : Nat)
  | kill (pid : Nat)

/-- How a call ends: with a value for the caller, asleep, or never (exit). -/
inductive Result where
  | ret (r : Int)
  | sleeps
  | gone

def dispatch (p : Fin NPROC) : Call → Code Sys Result
  | .fork => return .ret (← fork p)
  | .exec namei path uargv => return .ret (← sysExec namei p path uargv)
  | .sbrk n => return .ret (← sysSbrk p n)
  | .pipe fdarray => return .ret (← sysPipe p fdarray)
  | .openf found => return .ret (← sysOpen p found)
  | .dup fd => return .ret (← sysDup p fd)
  | .close fd => return .ret (← sysClose p fd)
  | .exit status => do
    exit p (argint status)
    return .gone
  | .wait addr => do
    match ← wait p addr with
    | none => return .sleeps
    | some r => return .ret r
  | .kill pid => return .ret (← kill (argint pid))

/-- syscall(): false when the caller sleeps instead. -/
def syscall (p : Fin NPROC) (c : Call) : Code Sys Bool := do
  match ← dispatch p c with
  | .ret r =>
    vm (store (((← get).proc p).trapframe + trapframeA0) 8 (u64OfInt r))
    return true
  | .sleeps => return false
  | .gone => return true

/-- What may happen next: a system call of process `p`, with the allocations that will be
refused on the way, or a store of `p` to its own memory. -/
inductive Action where
  | call (p : Fin NPROC) (c : Call) (fails : Nat → Bool)
  | store (p : Fin NPROC) (va : Nat) (b : UInt8)

def step (s : Sys) : Action → Outcome Sys
  | .call p c fails =>
    if (s.proc p).state = .RUNNABLE then
      match syscall p c (s.withMem (s.mem.withFails fails)) with
      | .ok (true, s') => .ok s'
      | .ok (false, _) => .disabled
      | .error msg => .panic msg
    else .disabled
  | .store p va b =>
    if (s.proc p).state = .RUNNABLE then
      match vm (copyout (s.proc p).pagetable va [b]) s with
      | .ok (_, s') => .ok s'
      | .error msg => .panic msg
    else .disabled

/-! ## Booting -/

/-- freerange's loop; memory has fewer pages than the count. -/
def freerangeLoop (paEnd : Nat) : Nat → Nat → Code Mem Unit
  | 0, _ => return
  | k + 1, p => do
    if p + PGSIZE ≤ paEnd then
      kfree p
      freerangeLoop paEnd k (p + PGSIZE)
    else return

def freerange (paStart paEnd : Nat) : Code Mem Unit := freerangeLoop paEnd (paEnd / PGSIZE) (PGROUNDUP paStart)

def kinit : Code Mem Unit := do
  freerange (← get).layout.kend PHYSTOP

/-- The pages the kernel takes while it boots (its page table, stacks and virtio queues);
booting panics when one is refused. -/
def bootAlloc : Nat → List Nat → Code Mem (List Nat)
  | 0, l => return l
  | k + 1, l => do
    let pa ← kalloc
    if pa = 0 then Code.panic "kalloc" else bootAlloc k (pa :: l)

def initcode : List UInt8 := [
  0x17, 0x05, 0x00, 0x00, 0x13, 0x05, 0x45, 0x02,
  0x97, 0x05, 0x00, 0x00, 0x93, 0x85, 0x35, 0x02,
  0x93, 0x08, 0x70, 0x00, 0x73, 0x00, 0x00, 0x00,
  0x93, 0x08, 0x20, 0x00, 0x73, 0x00, 0x00, 0x00,
  0xef, 0xf0, 0x9f, 0xff, 0x2f, 0x69, 0x6e, 0x69,
  0x74, 0x00, 0x00, 0x24, 0x00, 0x00, 0x00, 0x00,
  0x00, 0x00, 0x00, 0x00]

def userinit : Code Sys Unit := do
  match ← allocproc with
  | none => Code.panic "kerneltrap"
  | some p =>
    modify fun s => { s with initproc := some p }
    let pr := (← get).proc p
    vm (uvmfirst pr.pagetable initcode)
    setProc p fun x => { x with sz := PGSIZE }
    vm (store (pr.trapframe + trapframeEpc) 8 0)
    vm (store (pr.trapframe + trapframeSp) 8 PGSIZE)
    setProc p fun x => { x with name := "initcode".toUTF8.toList, state := .RUNNABLE }

/-- main(), with `k` pages taken by the kernel before the first process. -/
def main (k : Nat) : Code Sys Unit := do
  vm kinit
  let l ← vm (bootAlloc k [])
  modify fun s => { s with kernelPages := l }
  userinit

end Sys

end Xv6
