/-
Pipes (pipe.c) with any number of processes inside pipewrite, piperead and pipeclose at
once. A process stands at a control point of the call it is in. One step takes it
from there to the next point at which it can lose the processor to another user of the
pipe: the acquire of `pi->lock`, each pass of a loop made under the lock, and the two
halves of `sleep`. `put`, `taken` and `returned` are a record that no step reads: what
went into the ring and by which call, what came out, and what pipewrite returned.
-/
import Xv6.Lib.Ring
import Xv6.Lib.Transition

namespace Xv6.Pipes

open Lib

def PIPESIZE : Nat := 512

instance : NeZero PIPESIZE := ⟨by decide⟩

/-- `struct pipe`; who holds its lock is part of the system's state. -/
structure Pipe where
  data : Fin PIPESIZE → UInt8
  nread : UInt32
  nwrite : UInt32
  readopen : Bool
  writeopen : Bool

/-- A pipewrite(pi, addr, n): `src i` is what copyin fetches from `addr + i`, nothing if it fails. -/
structure WriteCall where
  id : Nat
  src : Nat → Option UInt8
  n : Int

/-- A piperead(pi, addr, n): `dst i` tells whether copyout to `addr + i` succeeds. -/
structure ReadCall where
  dst : Nat → Bool
  n : Int

/-- Where a process stands. -/
inductive Thread where
  | idle
  /-- pipewrite at acquire(&pi->lock): on entry, or on the way out of sleep -/
  | writeEnter (c : WriteCall) (i : Nat)
  /-- pipewrite at while(i < n), lock held -/
  | writeLoop (c : WriteCall) (i : Nat)
  /-- asleep on &pi->nwrite -/
  | writeSleep (c : WriteCall) (i : Nat)
  | readEnter (c : ReadCall)
  /-- piperead at while(pi->nread == pi->nwrite && pi->writeopen), lock held -/
  | readWait (c : ReadCall)
  /-- asleep on &pi->nread -/
  | readSleep (c : ReadCall)
  /-- piperead at for(; i < n; i++), lock held -/
  | readLoop (c : ReadCall) (i : Nat)
  | close (writable : Bool)

structure St where
  pipe : Pipe
  lock : Option Nat
  thread : Nat → Thread
  killed : Nat → Bool
  freed : Bool
  /-- how many pipewrite calls have begun: the next one's id -/
  calls : Nat
  put : List (Nat × UInt8)
  taken : List UInt8
  returned : List (WriteCall × Int)

namespace St

def goto (s : St) (t : Nat) (th : Thread) : St := { s with thread := Function.update s.thread t th }

def acquire (s : St) (t : Nat) : St := { s with lock := some t }

def release (s : St) : St := { s with lock := none }

/-- wakeup(&pi->nread) -/
def wakeupReaders (s : St) : St :=
  { s with thread := fun t => match s.thread t with | .readSleep c => .readEnter c | th => th }

/-- wakeup(&pi->nwrite) -/
def wakeupWriters (s : St) : St :=
  { s with thread := fun t => match s.thread t with | .writeSleep c i => .writeEnter c i | th => th }

/-- kill() sets the flag and makes a sleeping process runnable. -/
def kill (s : St) (t : Nat) : St :=
  { s with
    killed := Function.update s.killed t true
    thread := Function.update s.thread t <| match s.thread t with
      | .writeSleep c i => .writeEnter c i
      | .readSleep c => .readEnter c
      | th => th }

/-- `pi->data[pi->nwrite++ % PIPESIZE] = ch` -/
def store (s : St) (id : Nat) (ch : UInt8) : St :=
  { s with
    pipe := { s.pipe with
      data := Function.update s.pipe.data (Ring.cell PIPESIZE s.pipe.nwrite) ch
      nwrite := s.pipe.nwrite + 1 }
    put := s.put ++ [(id, ch)] }

/-- `ch = pi->data[pi->nread++ % PIPESIZE]` -/
def fetch (s : St) : St :=
  { s with
    pipe := { s.pipe with nread := s.pipe.nread + 1 }
    taken := s.taken ++ [s.pipe.data (Ring.cell PIPESIZE s.pipe.nread)] }

/-- pipewrite is done with the lock and returns. -/
def writeReturn (s : St) (t : Nat) (c : WriteCall) (r : Int) : St :=
  { s.release.goto t .idle with returned := s.returned ++ [(c, r)] }

/-- One pass of pipewrite's loop. -/
def pipewrite (s : St) (t : Nat) (c : WriteCall) (i : Nat) : St :=
  if i < c.n then
    if s.pipe.readopen = false ∨ s.killed t then
      s.writeReturn t c (-1)
    else if s.pipe.nwrite = s.pipe.nread + UInt32.ofNat PIPESIZE then
      (s.wakeupReaders.release).goto t (.writeSleep c i)
    else match c.src i with
      | none => s.wakeupReaders.writeReturn t c i
      | some ch => (s.store c.id ch).goto t (.writeLoop c (i + 1))
  else s.wakeupReaders.writeReturn t c i

/-- One pass of piperead's loop that waits for data. -/
def pipereadWait (s : St) (t : Nat) (c : ReadCall) : St :=
  if s.pipe.nread = s.pipe.nwrite ∧ s.pipe.writeopen then
    if s.killed t then s.release.goto t .idle
    else s.release.goto t (.readSleep c)
  else s.goto t (.readLoop c 0)

/-- One pass of piperead's loop that copies. The byte has left the ring when copyout fails. -/
def pipereadCopy (s : St) (t : Nat) (c : ReadCall) (i : Nat) : St :=
  if i < c.n ∧ s.pipe.nread ≠ s.pipe.nwrite then
    if c.dst i then s.fetch.goto t (.readLoop c (i + 1))
    else (s.fetch.wakeupWriters.release).goto t .idle
  else (s.wakeupWriters.release).goto t .idle

/-- The end is marked closed and its peers are woken. -/
def closeEnd (s : St) (writable : Bool) : St :=
  if writable then { s with pipe := { s.pipe with writeopen := false } }.wakeupReaders
  else { s with pipe := { s.pipe with readopen := false } }.wakeupWriters

/-- pipeclose: the memory is given back with the second end. -/
def pipeclose (s : St) (t : Nat) (writable : Bool) : St :=
  let s := (s.closeEnd writable).goto t .idle
  if s.pipe.readopen = false ∧ s.pipe.writeopen = false then { s with freed := true } else s

end St

/-- What can happen: a process enters the pipe, a process inside goes on, a process is killed. -/
inductive Label where
  | write (t : Nat) (src : Nat → Option UInt8) (n : Int)
  | read (t : Nat) (dst : Nat → Bool) (n : Int)
  | close (t : Nat) (writable : Bool)
  | run (t : Nat)
  | kill (t : Nat)

/-- A call can only begin in a process that is in none. -/
def enter (s : St) (t : Nat) (s' : St) : Outcome St :=
  match s.thread t with
  | .idle => .ok s'
  | _ => .disabled

/-- acquire(&pi->lock) waits while the lock is held. -/
def acquiring (s : St) (t : Nat) (s' : St) : Outcome St :=
  match s.lock with
  | none => .ok (s'.acquire t)
  | some _ => .disabled

def run (s : St) (t : Nat) : Outcome St :=
  match s.thread t with
  | .writeEnter c i => acquiring s t (s.goto t (.writeLoop c i))
  | .writeLoop c i => .ok (s.pipewrite t c i)
  | .readEnter c => acquiring s t (s.goto t (.readWait c))
  | .readWait c => .ok (s.pipereadWait t c)
  | .readLoop c i => .ok (s.pipereadCopy t c i)
  | .close w => match s.lock with
    | none => .ok (s.pipeclose t w)
    | some _ => .disabled
  | .idle | .writeSleep _ _ | .readSleep _ => .disabled

/-- One step of the system; nobody uses a pipe that has been freed. -/
def step (s : St) (l : Label) : Outcome St :=
  if s.freed then .disabled
  else match l with
    | .write t src n => enter s t { s.goto t (.writeEnter ⟨s.calls, src, n⟩ 0) with calls := s.calls + 1 }
    | .read t dst n => enter s t (s.goto t (.readEnter ⟨dst, n⟩))
    | .close t w => enter s t (s.goto t (.close w))
    | .run t => run s t
    | .kill t => .ok (s.kill t)

/-- What pipealloc leaves: both ends open, both counters 0, whatever kalloc's page had in it. -/
def init (s : St) : Prop :=
  ∃ data, s = ⟨⟨data, 0, 0, true, true⟩, none, fun _ => .idle, fun _ => false, false, 0, [], [], []⟩

end Xv6.Pipes
