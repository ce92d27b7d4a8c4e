/-
The console (console.c) and the command history this kernel keeps beside it
(historyBuffer.h, sys_history in sysproc.c). Input bytes arrive through consoleintr,
any number of processes are inside consoleread. `historyBuf` is memory addressed by
bytes, because the code indexes its arrays without a bound: an index outside an
array reaches the next field of the struct, and outside the struct whatever lies there
(not `cons`, whose storage is apart), up to the end of the memory the kernel has mapped,
where the access traps. What consoleintr and consoleread do to the ring, which array
elements are touched and what was typed, committed, consumed and delivered is recorded
in fields that no step reads.
-/
import Xv6.Lib.Ring
import Xv6.Lib.Triple
import Xv6.Lib.Transition

namespace Xv6.Console

open Lib

def INPUT_BUF_SIZE : Nat := 128
def MAX_HISTORY : Nat := 16

instance : NeZero INPUT_BUF_SIZE := ⟨by decide⟩

/-- C('D'), C('H'), C('P') and C('U'), the delete key, and the two ends of a line -/
def ctrlD : UInt8 := 4
def ctrlH : UInt8 := 8
def ctrlP : UInt8 := 16
def ctrlU : UInt8 := 21
def delete : UInt8 := 0x7f
def newline : UInt8 := 10
def carriageReturn : UInt8 := 13

/-! ## struct historyBufferArray

Byte offsets of its fields: `bufferArr` is at 0, and no code uses the other ones. -/

def LENGTHS_ARR : Int := MAX_HISTORY * INPUT_BUF_SIZE
def LAST_COMMAND_INDEX : Int := LENGTHS_ARR + 4 * MAX_HISTORY
def CURRENT_CM : Int := LAST_COMMAND_INDEX + 12
def HISTORY_SIZE : Int := CURRENT_CM + 128 + 4

/-- The memory around `historyBuf` that the kernel can access, as offsets from its start. -/
structure Mapped where
  lo : Int
  hi : Int
  lo_le : lo ≤ 0
  le_hi : HISTORY_SIZE ≤ hi

/-- An element of an array of `historyBuf` that the code touches: of `current_cm`, or a row of `bufferArr` or
`lengthsArr`. -/
inductive Access where
  | currentCm (i : Int)
  | row (i : Int)
  deriving DecidableEq

/-- `cons`; who holds its lock is part of the system's state. -/
structure Cons where
  buf : Fin INPUT_BUF_SIZE → UInt8
  r : UInt32
  w : UInt32
  e : UInt32

/-- A consoleread(user_dst, dst, n): `ok i` tells whether copyout of the `i`-th byte succeeds; `n` counts down. -/
structure ReadCall where
  target : Int
  n : Int
  ok : Nat → Bool

/-- Where a process stands in consoleread. -/
inductive Thread where
  | idle
  /-- at acquire(&cons.lock): on entry, or on the way out of sleep -/
  | enter (c : ReadCall)
  /-- at while(n > 0), lock held -/
  | loop (c : ReadCall)
  /-- asleep on &cons.r -/
  | sleep (c : ReadCall)

/-- `historyBuf` as bytes, the variables of the history beside it, and what went to the uart. -/
structure Hist where
  mem : Int → UInt8
  index : Int
  row : Int
  lastCom : UInt32
  nextCom : UInt32
  uart : List UInt8
  touched : List Access

structure St where
  cons : Cons
  hist : Hist
  lock : Option Nat
  thread : Nat → Thread
  killed : Nat → Bool
  /-- the bytes that arrived, each with `cons.e - cons.r` at that time -/
  typed : List (UInt8 × Nat)
  committed : List UInt8
  consumed : List UInt8
  delivered : List UInt8

/-! ## Memory -/

section Memory

variable (K : Mapped)

def load (o : Int) : Code Hist UInt8 := do
  let h ← get
  if K.lo ≤ o ∧ o < K.hi then pure (h.mem o) else Code.panic "kerneltrap"

def store (o : Int) (b : UInt8) : Code Hist Unit := do
  if K.lo ≤ o ∧ o < K.hi then modify fun h => { h with mem := Function.update h.mem o b }
  else Code.panic "kerneltrap"

def loadWord (o : Int) : Code Hist UInt32 := do
  let b0 ← load K o
  let b1 ← load K (o + 1)
  let b2 ← load K (o + 2)
  let b3 ← load K (o + 3)
  pure (UInt32.ofNat (b0.toNat + 256 * b1.toNat + 256 ^ 2 * b2.toNat + 256 ^ 3 * b3.toNat))

def storeWord (o : Int) (v : UInt32) : Code Hist Unit := do
  store K o (UInt8.ofNat v.toNat)
  store K (o + 1) (UInt8.ofNat (v.toNat / 256))
  store K (o + 2) (UInt8.ofNat (v.toNat / 256 ^ 2))
  store K (o + 3) (UInt8.ofNat (v.toNat / 256 ^ 3))

def touch (a : Access) : Code Hist Unit := modify fun h => { h with touched := h.touched ++ [a] }

def currentCm (i : Int) : Code Hist UInt8 := do
  touch (.currentCm i)
  load K (CURRENT_CM + i)

def setCurrentCm (i : Int) (c : UInt8) : Code Hist Unit := do
  touch (.currentCm i)
  store K (CURRENT_CM + i) c

def lengthsArr (row : Int) : Code Hist UInt32 := do
  touch (.row row)
  loadWord K (LENGTHS_ARR + 4 * row)

def setLengthsArr (row : Int) (size : UInt32) : Code Hist Unit := do
  touch (.row row)
  storeWord K (LENGTHS_ARR + 4 * row) size

def bufferArr (row : Int) (i : Nat) : Code Hist UInt8 := do
  touch (.row row)
  load K (INPUT_BUF_SIZE * row + i)

def setBufferArr (row : Int) (i : Nat) (c : UInt8) : Code Hist Unit := do
  touch (.row row)
  store K (INPUT_BUF_SIZE * row + i) c

def lastCommandIndex : Code Hist UInt32 := loadWord K LAST_COMMAND_INDEX

def setLastCommandIndex (v : UInt32) : Code Hist Unit := storeWord K LAST_COMMAND_INDEX v

end Memory

/-! ## Output -/

def consputc (c : UInt8) : Code Hist Unit := modify fun h => { h with uart := h.uart ++ [c] }

/-- consputc(BACKSPACE) -/
def consputBackspace : Code Hist Unit := modify fun h => { h with uart := h.uart ++ [8, 32, 8] }

/-! ## The history -/

section History

variable (K : Mapped)

/-- `for (i = 0; current_cm[i] != '\n'; ++i) size++`: it ends at a newline or traps at the end of memory. -/
def scanNewline : Nat → Nat → Code Hist Nat
  | 0, _ => Code.panic "kerneltrap"
  | fuel + 1, i => do
    let c ← currentCm K i
    if c = newline then pure i else scanNewline fuel (i + 1)

/-- `for (i = 0; i < size; i++) bufferArr[row][i] = current_cm[i]`, with `n` bytes to go -/
def copyLine (row : Int) : Nat → Nat → Code Hist Unit
  | 0, _ => pure ()
  | n + 1, i => do
    let c ← currentCm K i
    setBufferArr K row i c
    copyLine row n (i + 1)

def callSysHistory : Code Hist Unit := do
  let last ← lastCommandIndex K
  Code.when (last = 15) (setLastCommandIndex K 0)
  let size ← scanNewline K K.hi.toNat 0
  let h ← get
  setLengthsArr K h.row (UInt32.ofNat size)
  copyLine K h.row size 0
  modify fun h => { h with row := h.row + 1 }

/-- `for (...; i++) consputc(bufferArr[row][i])`, with `n` bytes to go -/
def printRow (row : Int) : Nat → Nat → Code Hist Unit
  | 0, _ => pure ()
  | n + 1, i => do
    let c ← bufferArr K row i
    consputc c
    printRow row n (i + 1)

/-- The '\x41' key: the command before the last index. -/
def printLast : Code Hist Unit := do
  let last ← lastCommandIndex K
  modify fun h => { h with lastCom := last - 1 }
  let len ← lengthsArr K (last - 1).toNat
  printRow K (last - 1).toNat len.toNat 0

/-- The '\x42' key. -/
def printNext : Code Hist Unit := do
  let last ← lastCommandIndex K
  modify fun h => { h with nextCom := last + 2 }
  let len ← lengthsArr K (last + 2).toNat
  printRow K (last + 2).toNat len.toNat 0

/-- sys_history: `target` is an int, computed in unsigned arithmetic. -/
def sysHistory (historyNum : Int32) : Code Hist Unit := do
  let last ← lastCommandIndex K
  let target := (last - historyNum.toUInt32).toInt32.toInt
  printRow K (target - 1) INPUT_BUF_SIZE 0
  consputc newline

end History

/-! ## consoleintr -/

namespace Cons

def push (k : Cons) (c : UInt8) : Cons :=
  { k with buf := Function.update k.buf (Ring.cell INPUT_BUF_SIZE k.e) c, e := k.e + 1 }

def erase (k : Cons) : Cons := { k with e := k.e - 1 }

def commit (k : Cons) : Cons := { k with w := k.e }

/-- The last byte typed. -/
def last (k : Cons) : UInt8 := k.buf (Ring.cell INPUT_BUF_SIZE (k.e - 1))

/-- The bytes between `w` and `e`. -/
def line (k : Cons) : List UInt8 := Ring.window k.buf k.w (k.e - k.w).toNat

end Cons

/-- Code that works on the history alone. -/
def onHist {α : Type} (c : Code Hist α) : Code St α := fun s =>
  match c s.hist with
  | .ok (a, h) => .ok (a, { s with hist := h })
  | .error msg => .error msg

def updCons (f : Cons → Cons) : Code St Unit := modify fun s => { s with cons := f s.cons }

/-- wakeup(&cons.r) -/
def wakeup : Code St Unit :=
  modify fun s => { s with thread := fun t => match s.thread t with | .sleep c => .enter c | th => th }

/-- The loop of C('U'), which takes back at most `e - w` bytes. -/
def killLine : Nat → Code St Unit
  | 0 => pure ()
  | n + 1 => do
    let s ← get
    if s.cons.e ≠ s.cons.w ∧ s.cons.last ≠ newline then do
      updCons Cons.erase
      onHist consputBackspace
      killLine n
    else pure ()

/-- `current_cm[index] = c; index++; consputc(c)` -/
def recordChar (K : Mapped) (c : UInt8) : Code Hist Unit := do
  let h ← get
  setCurrentCm K h.index c
  modify fun h => { h with index := h.index + 1 }
  consputc c

/-- `index = 0; call_sys_history(); lastCommandIndex++` -/
def recordLine (K : Mapped) : Code Hist Unit := do
  modify fun h => { h with index := 0 }
  callSysHistory K
  let last ← lastCommandIndex K
  setLastCommandIndex K (last + 1)

/-- A whole line, or end-of-file, has arrived. -/
def commit (K : Mapped) : Code St Unit := do
  onHist (recordLine K)
  modify fun s => { s with committed := s.committed ++ s.cons.line }
  updCons Cons.commit
  wakeup

/-- Store a byte for consumption by consoleread. -/
def storeChar (K : Mapped) (c : UInt8) : Code St Unit := do
  onHist (recordChar K c)
  updCons (Cons.push · c)
  let s ← get
  Code.when (c = newline ∨ c = ctrlD ∨ s.cons.e - s.cons.r = UInt32.ofNat INPUT_BUF_SIZE) (commit K)

/-- C('H') and the delete key. -/
def backspace : Code St Unit := do
  onHist (modify fun h => { h with index := h.index - 1 })
  let s ← get
  Code.when (s.cons.e ≠ s.cons.w) do
    updCons Cons.erase
    onHist consputBackspace

/-- The handler; what C('P') prints does not concern the console's state. -/
def consoleintr (K : Mapped) (c : UInt8) : Code St Unit := do
  let s ← get
  modify fun s => { s with typed := s.typed ++ [(c, (s.cons.e - s.cons.r).toNat)] }
  if c = ctrlP then pure ()
  else if c = ctrlU then killLine (s.cons.e - s.cons.w).toNat
  else if c = ctrlH ∨ c = delete then backspace
  else if c = 0x41 then onHist (printLast K)
  else if c = 0x42 then onHist (printNext K)
  else if c ≠ 0 ∧ s.cons.e - s.cons.r < UInt32.ofNat INPUT_BUF_SIZE then
    storeChar K (if c = carriageReturn then newline else c)
  else pure ()

/-! ## consoleread -/

namespace St

def goto (s : St) (t : Nat) (th : Thread) : St := { s with thread := Function.update s.thread t th }

def acquire (s : St) (t : Nat) : St := { s with lock := some t }

/-- consoleread gives up the lock, to sleep or to return. -/
def leave (s : St) (t : Nat) (th : Thread) : St := { s with lock := none }.goto t th

/-- The byte at the read index. -/
def front (s : St) : UInt8 := s.cons.buf (Ring.cell INPUT_BUF_SIZE s.cons.r)

/-- `c = cons.buf[cons.r++ % INPUT_BUF_SIZE]`, and the byte stays consumed. -/
def consume (s : St) : St :=
  { s with cons := { s.cons with r := s.cons.r + 1 }, consumed := s.consumed ++ [s.front] }

/-- One pass of consoleread's loop. -/
def consoleread (s : St) (t : Nat) (c : ReadCall) : St :=
  if 0 < c.n then
    if s.cons.r = s.cons.w then
      if s.killed t then s.leave t .idle else s.leave t (.sleep c)
    else if s.front = ctrlD then
      -- r++, and r-- again if something was read before: the next read meets it
      if c.n < c.target then s.leave t .idle else s.consume.leave t .idle
    else if c.ok (c.target - c.n).toNat = false then s.consume.leave t .idle
    else
      let s' := { s.consume with delivered := s.delivered ++ [s.front] }
      if s.front = newline then s'.leave t .idle else s'.goto t (.loop { c with n := c.n - 1 })
  else s.leave t .idle

/-- kill() sets the flag and makes a sleeping process runnable. -/
def kill (s : St) (t : Nat) : St :=
  { s with
    killed := Function.update s.killed t true
    thread := Function.update s.thread t <| match s.thread t with
      | .sleep c => .enter c
      | th => th }

end St

/-! ## The system -/

/-- What can happen: a byte arrives, a process enters consoleread or goes on in it, a process is killed, a process
calls history. -/
inductive Label where
  | intr (c : UInt8)
  | read (t : Nat) (n : Int) (ok : Nat → Bool)
  | run (t : Nat)
  | kill (t : Nat)
  | history (n : Int32)

def outcome (c : Code St Unit) (s : St) : Outcome St :=
  match c s with
  | .ok (_, s') => .ok s'
  | .error msg => .panic msg

def run (s : St) (t : Nat) : Outcome St :=
  match s.thread t with
  | .enter c => match s.lock with
    | none => .ok ((s.goto t (.loop c)).acquire t)
    | some _ => .disabled
  | .loop c => .ok (s.consoleread t c)
  | .idle | .sleep _ => .disabled

/-- One step; consoleintr runs under the console's lock, consoleread holds it between its passes. -/
def step (K : Mapped) (s : St) : Label → Outcome St
  | .intr c => match s.lock with
    | none => outcome (consoleintr K c) s
    | some _ => .disabled
  | .read t n ok => match s.thread t with
    | .idle => .ok (s.goto t (.enter ⟨n, n, ok⟩))
    | _ => .disabled
  | .run t => run s t
  | .kill t => .ok (s.kill t)
  | .history n => outcome (onHist (sysHistory K n)) s

/-- Power on: the kernel's variables are zero. -/
def init (s : St) : Prop :=
  ∃ mem : Int → UInt8, (∀ o, 0 ≤ o → o < HISTORY_SIZE → mem o = 0) ∧
    s = ⟨⟨fun _ => 0, 0, 0, 0⟩, ⟨mem, 0, 0, 0, 0, [], []⟩, none, fun _ => .idle, fun _ => false, [], [], [], []⟩

end Xv6.Console
