/-
The processors and the processes: scheduler, swtch, sleep, wakeup, kill, fork, exit and
wait of proc.c, interleaved at lock operations and swtch.

A kernel stack is a list of frames, each a point in a function; a processor runs the top
frame of the stack it is on. One step of a processor runs that function up to its next
lock operation or swtch. What is not in proc.c (the rest of the kernel, user code) is the
frame `body`, which may take and drop locks of its own and call the functions modelled
here, and interrupts come on any processor that holds no lock: a device's `handler`, or
the timer's yield. Allocations and copyout succeed or fail with the step.

A processor's `noff` and a lock's holder are as spinlock.c keeps them. The log is a record
that no step reads.
-/
import Xv6.Lib.Transition
import Xv6.Param

namespace Xv6.Sched

open Lib

inductive Lock where
  | proc (p : Fin NPROC)
  | wait
  | other (n : Nat)
  deriving DecidableEq

/-- What sleep waits for: an address, of a process table entry or another one. -/
inductive Chan where
  | proc (p : Fin NPROC)
  | other (n : Nat)
  deriving DecidableEq

/-- A processor's own stack, on which scheduler() runs, and the kernel stacks. -/
inductive Stack where
  | cpu (c : Fin NCPU)
  | kstack (p : Fin NPROC)
  deriving DecidableEq

/-- A call of wakeup: its channel, the process that made it, and when. -/
structure Wake where
  chan : Option Chan
  caller : Option (Fin NPROC)
  start : Nat
  deriving DecidableEq

/-- Why wait returns -1. -/
inductive Why where
  | noKids | killed | copyout
  deriving DecidableEq

/-- A point in a function, and what it has in its variables. The first of each function is its start, up to the first
lock operation; `i` counts through the process table. -/
inductive Frame where
  -- scheduler()
  | scan (i : Fin NPROC)
  | chosen (i : Fin NPROC)
  | back (i : Fin NPROC)
  | forkret (p : Fin NPROC)
  | body
  | handler
  -- yield()
  | yield
  | yield1 (p : Fin NPROC)
  | yield2 (p : Fin NPROC)
  -- sleep(chan, lk)
  | sleep (ch : Chan) (lk : Lock)
  | sleep1 (p : Fin NPROC) (ch : Chan) (lk : Lock)
  | sleep2 (p : Fin NPROC) (ch : Chan) (lk : Lock)
  | sleep3 (p : Fin NPROC) (lk : Lock)
  | sleep4 (lk : Lock)
  -- wakeup(chan)
  | wakeup (w : Wake) (i : Nat)
  | wakeup1 (w : Wake) (i : Fin NPROC)
  -- kill(pid)
  | kill (pid : Int32) (i : Nat)
  | kill1 (pid : Int32) (i : Fin NPROC)
  | setkilled
  | setkilled1 (p : Fin NPROC)
  -- fork(), with allocproc()
  | alloc (p : Fin NPROC) (i : Nat)
  | alloc1 (p i : Fin NPROC)
  | fork1 (p np : Fin NPROC)
  | fork2 (p np : Fin NPROC)
  | fork3 (p np : Fin NPROC)
  | fork4 (p np : Fin NPROC)
  | fork5 (p np : Fin NPROC)
  -- exit(status), with reparent()
  | exit (status : Int)
  | reparent (p : Fin NPROC) (status : Int) (i : Nat)
  | exit2 (p : Fin NPROC) (status : Int)
  | exit3 (p : Fin NPROC) (status : Int)
  | exit4 (p : Fin NPROC)
  | dead
  -- wait(addr)
  | wait
  | kids (p : Fin NPROC) (i : Nat) (havekids : Bool)
  | kid (p i : Fin NPROC)
  | waitKilled (p : Fin NPROC)
  | waitDone (pid : Int32)
  | waitFail (p : Fin NPROC) (why : Why)
  deriving DecidableEq

/-- `struct proc`. A saved context is the stack its sp points into. The last five are for the record: which process of
all times this is, which one created it, which one its parent is, when it took the lock it goes to sleep with, and when
it called sleep. -/
structure Proc where
  state : ProcState := .UNUSED
  chan : Option Chan := none
  killed : Bool := false
  xstate : Int := 0
  pid : Int32 := 0
  parent : Option (Fin NPROC) := none
  context : Stack
  uid : Nat := 0
  creator : Nat := 0
  parentUid : Nat := 0
  locked : Nat := 0
  checked : Nat := 0

/-- `struct cpu`, and the stack it is on. -/
structure Cpu where
  proc : Option (Fin NPROC)
  context : Stack
  cur : Stack
  noff : Nat

/-- An exit: the process, its pid and the status. -/
structure Exit where
  uid : Nat
  pid : Int32
  status : Int
  deriving DecidableEq

/-- A wait that returned a child: the child, what it returned, the waiter, the child's creator, and whether that one
had exited. -/
structure Reap where
  child : Nat
  pid : Int32
  status : Int
  waiter : Nat
  creator : Nat
  orphan : Bool

/-- The record: a clock that counts lock acquisitions and wakeup calls, when and by which process each lock was last
acquired, the wakeup calls that have returned, the processes that have exited, and the waits that returned one. -/
structure Log where
  clock : Nat
  lockTime : Lock → Nat
  lockBy : Lock → Option (Fin NPROC)
  nextuid : Nat
  completed : List Wake
  exited : List Exit
  reaped : List Reap

structure St where
  proc : Fin NPROC → Proc
  cpu : Fin NCPU → Cpu
  lock : Lock → Option (Fin NCPU)
  frames : Stack → List Frame
  nextpid : Int32
  initproc : Fin NPROC
  log : Log

/-! ## What a step consists of -/

inductive Op where
  | none
  | acquire (l : Lock)
  | release (l : Lock)

/-- What happens to the processor: nothing, `c->proc = p; swtch(&c->context, &p->context)`, `c->proc = 0`, or sched(). -/
inductive Go where
  | stay
  | run (p : Fin NPROC)
  | clear
  | sched

/-- What is counted or goes on record. -/
inductive Note where
  | none
  /-- a process gets its number: allocpid(), and `uid` -/
  | allocpid
  | wakes
  | woke (w : Wake)
  | exits (p : Fin NPROC) (status : Int)
  | reaps (r : Reap)

/-- A step of a function: a lock operation, the frames that take the place of its own, an entry of the process table
written, a kernel stack set up empty with a return to forkret, and what happens to the processor. -/
structure Act where
  op : Op := .none
  next : List Frame
  write : Option (Fin NPROC × Proc) := none
  start : Option (Fin NPROC) := none
  go : Go := .stay
  note : Note := .none

namespace St

def myproc (s : St) (c : Fin NCPU) : Option (Fin NPROC) := (s.cpu c).proc

def setCpu (s : St) (c : Fin NCPU) (v : Cpu) : St := { s with cpu := Function.update s.cpu c v }

def setProc (s : St) (p : Fin NPROC) (v : Proc) : St := { s with proc := Function.update s.proc p v }

/-- acquire(), with push_off(). -/
def acquire (s : St) (c : Fin NCPU) (l : Lock) : Outcome St :=
  match s.lock l with
  | some h => if h = c then .panic "acquire" else .disabled
  | none => .ok { s.setCpu c { s.cpu c with noff := (s.cpu c).noff + 1 } with
      lock := Function.update s.lock l (some c)
      log := { s.log with
        clock := s.log.clock + 1
        lockTime := Function.update s.log.lockTime l s.log.clock
        lockBy := Function.update s.log.lockBy l (s.myproc c) } }

/-- release(), with pop_off(). -/
def release (s : St) (c : Fin NCPU) (l : Lock) : Outcome St :=
  if s.lock l = some c then
    .ok { s.setCpu c { s.cpu c with noff := (s.cpu c).noff - 1 } with lock := Function.update s.lock l none }
  else .panic "release"

def doOp (s : St) (c : Fin NCPU) : Op → Outcome St
  | .none => .ok s
  | .acquire l => s.acquire c l
  | .release l => s.release c l

def takeNote (s : St) : Note → Log
  | .none => s.log
  | .allocpid => { s.log with nextuid := s.log.nextuid + 1 }
  | .wakes => { s.log with clock := s.log.clock + 1 }
  | .woke w => { s.log with completed := w :: s.log.completed }
  | .exits p status => { s.log with exited := ⟨(s.proc p).uid, (s.proc p).pid, status⟩ :: s.log.exited }
  | .reaps r => { s.log with reaped := r :: s.log.reaped }

/-- The frames and the process table after a step on stack `k`. -/
def put (s : St) (k : Stack) (rest : List Frame) (a : Act) : St :=
  { s with
    frames := match a.start with
      | none => Function.update s.frames k (a.next ++ rest)
      | some p => Function.update (Function.update s.frames k (a.next ++ rest)) (.kstack p) [.forkret p]
    proc := match a.write with
      | none => s.proc
      | some (p, v) => Function.update s.proc p v
    nextpid := match a.note with
      | .allocpid => s.nextpid + 1
      | _ => s.nextpid
    log := s.takeNote a.note }

/-- sched(), and the switches of scheduler(). -/
def switch (s : St) (c : Fin NCPU) : Go → Outcome St
  | .stay => .ok s
  | .run p =>
    .ok (s.setCpu c { s.cpu c with proc := some p, context := (s.cpu c).cur, cur := (s.proc p).context })
  | .clear => .ok (s.setCpu c { s.cpu c with proc := none })
  | .sched =>
    match s.myproc c with
    | none => .panic "kerneltrap"
    | some p =>
      if s.lock (.proc p) ≠ some c then .panic "sched p->lock"
      else if (s.cpu c).noff ≠ 1 then .panic "sched locks"
      else if (s.proc p).state = .RUNNING then .panic "sched running"
      else .ok ((s.setProc p { s.proc p with context := (s.cpu c).cur }).setCpu c { s.cpu c with cur := (s.cpu c).context })

end St

/-- A step on the processor's stack: the lock operation, the writes, the switch. The table is written under the lock, so
the order of the first two does not show. -/
def apply (s : St) (c : Fin NCPU) (rest : List Frame) (a : Act) : Outcome St :=
  match s.doOp c a.op with
  | .ok s1 => (s1.put (s.cpu c).cur rest a).switch c a.go
  | .panic msg => .panic msg
  | .disabled => .disabled

/-! ## proc.c -/

/-- freeproc(): the memory apart. -/
def freeproc (x : Proc) : Proc :=
  { x with pid := 0, parent := none, chan := none, killed := false, xstate := 0, state := .UNUSED }

def goneUid (l : Log) (u : Nat) : Bool := l.exited.any (·.uid = u)

/-- With a process's entry at hand; without one the pointer is null. -/
def withProc (p : Option (Fin NPROC)) (k : Fin NPROC → Outcome Act) : Outcome Act :=
  match p with
  | some p => k p
  | none => .panic "kerneltrap"

section Act

variable (s : St) (c : Fin NCPU) (ok : Bool)

/-- wakeup's loop. -/
def wakeupAct (w : Wake) (i : Nat) : Act :=
  if h : i < NPROC then
    if s.myproc c = some ⟨i, h⟩ then { next := [.wakeup w (i + 1)] }
    else { op := .acquire (.proc ⟨i, h⟩), next := [.wakeup1 w ⟨i, h⟩] }
  else { next := [], note := .woke w }

/-- wakeup's loop body. -/
def wakeup1Act (w : Wake) (i : Fin NPROC) : Act :=
  let x := s.proc i
  { op := .release (.proc i), next := [.wakeup w (i + 1)]
    write := some (i, if x.state = .SLEEPING ∧ x.chan = w.chan then { x with state := .RUNNABLE } else x) }

/-- kill's loop body. -/
def kill1Act (pid : Int32) (i : Fin NPROC) : Act :=
  let x := s.proc i
  if x.pid = pid then
    { op := .release (.proc i), next := []
      write := some (i, { x with killed := true, state := if x.state = .SLEEPING then .RUNNABLE else x.state }) }
  else { op := .release (.proc i), next := [.kill pid (i + 1)] }

/-- allocproc's loop body. -/
def alloc1Act (p i : Fin NPROC) : Act :=
  let x := s.proc i
  if x.state = .UNUSED then
    let x := { x with pid := s.nextpid, state := .USED, uid := s.log.nextuid, creator := (s.proc p).uid }
    if ok then
      { next := [.fork1 p i], write := some (i, { x with context := .kstack i }), start := some i, note := .allocpid }
    else { op := .release (.proc i), next := [], write := some (i, freeproc x), note := .allocpid }
  else { op := .release (.proc i), next := [.alloc p (i + 1)] }

/-- reparent's loop, and what exit does after it. -/
def reparentAct (p : Fin NPROC) (status : Int) (i : Nat) : Act :=
  if h : i < NPROC then
    let x := s.proc ⟨i, h⟩
    if x.parent = some p then
      { next := [.wakeup ⟨some (.proc s.initproc), s.myproc c, s.log.clock⟩ 0, .reparent p status (i + 1)]
        write := some (⟨i, h⟩, { x with parent := some s.initproc, parentUid := (s.proc s.initproc).uid })
        note := .wakes }
    else { next := [.reparent p status (i + 1)] }
  else
    { next := [.wakeup ⟨(s.proc p).parent.map .proc, s.myproc c, s.log.clock⟩ 0, .exit2 p status], note := .wakes }

/-- wait's scan of the table, and what it does after it. -/
def kidsAct (p : Fin NPROC) (i : Nat) (havekids : Bool) : Act :=
  if h : i < NPROC then
    if (s.proc ⟨i, h⟩).parent = some p then { op := .acquire (.proc ⟨i, h⟩), next := [.kid p ⟨i, h⟩] }
    else { next := [.kids p (i + 1) havekids] }
  else if havekids then { op := .acquire (.proc p), next := [.waitKilled p] }
  else { next := [.waitFail p .noKids] }

/-- wait, with a child's lock. -/
def kidAct (p i : Fin NPROC) : Act :=
  let x := s.proc i
  if x.state = .ZOMBIE then
    if ok then
      { op := .release (.proc i), next := [.waitDone x.pid], write := some (i, freeproc x)
        note := .reaps ⟨x.uid, x.pid, x.xstate, (s.proc p).uid, x.creator, goneUid s.log x.creator⟩ }
    else { op := .release (.proc i), next := [.waitFail p .copyout] }
  else { op := .release (.proc i), next := [.kids p (i + 1) true] }

/-- What the top frame does. -/
def act : Frame → Outcome Act
  | .scan i => .ok { op := .acquire (.proc i), next := [.chosen i] }
  | .chosen i =>
    if (s.proc i).state = .RUNNABLE then
      .ok { next := [.back i], write := some (i, { s.proc i with state := .RUNNING }), go := .run i }
    else .ok { op := .release (.proc i), next := [.scan (i + 1)] }
  | .back i => .ok { op := .release (.proc i), next := [.scan (i + 1)], go := .clear }
  | .forkret _ => withProc (s.myproc c) fun p => .ok { op := .release (.proc p), next := [.body] }
  | .body | .handler => .disabled
  | .yield => withProc (s.myproc c) fun p => .ok { op := .acquire (.proc p), next := [.yield1 p] }
  | .yield1 p => .ok { next := [.yield2 p], write := some (p, { s.proc p with state := .RUNNABLE }), go := .sched }
  | .yield2 p => .ok { op := .release (.proc p), next := [] }
  | .sleep ch lk => withProc (s.myproc c) fun p =>
    .ok { op := .acquire (.proc p), next := [.sleep1 p ch lk]
          write := some (p, { s.proc p with locked := s.log.lockTime lk, checked := s.log.clock }) }
  | .sleep1 p ch lk => .ok { op := .release lk, next := [.sleep2 p ch lk] }
  | .sleep2 p ch lk =>
    .ok { next := [.sleep3 p lk], write := some (p, { s.proc p with chan := some ch, state := .SLEEPING }), go := .sched }
  | .sleep3 p lk =>
    .ok { op := .release (.proc p), next := [.sleep4 lk], write := some (p, { s.proc p with chan := none }) }
  | .sleep4 lk => .ok { op := .acquire lk, next := [] }
  | .wakeup w i => .ok (wakeupAct s c w i)
  | .wakeup1 w i => .ok (wakeup1Act s w i)
  | .kill pid i =>
    if h : i < NPROC then .ok { op := .acquire (.proc ⟨i, h⟩), next := [.kill1 pid ⟨i, h⟩] } else .ok { next := [] }
  | .kill1 pid i => .ok (kill1Act s pid i)
  | .setkilled => withProc (s.myproc c) fun p => .ok { op := .acquire (.proc p), next := [.setkilled1 p] }
  | .setkilled1 p =>
    .ok { op := .release (.proc p), next := [], write := some (p, { s.proc p with killed := true }) }
  | .alloc p i =>
    if h : i < NPROC then .ok { op := .acquire (.proc ⟨i, h⟩), next := [.alloc1 p ⟨i, h⟩] } else .ok { next := [] }
  | .alloc1 p i => .ok (alloc1Act s ok p i)
  | .fork1 p np =>
    if ok then .ok { op := .release (.proc np), next := [.fork2 p np] }
    else .ok { op := .release (.proc np), next := [], write := some (np, freeproc (s.proc np)) }
  | .fork2 p np => .ok { op := .acquire .wait, next := [.fork3 p np] }
  | .fork3 p np =>
    .ok { op := .release .wait, next := [.fork4 p np]
          write := some (np, { s.proc np with parent := some p, parentUid := (s.proc p).uid }) }
  | .fork4 p np => .ok { op := .acquire (.proc np), next := [.fork5 p np] }
  | .fork5 _ np =>
    .ok { op := .release (.proc np), next := [], write := some (np, { s.proc np with state := .RUNNABLE }) }
  | .exit status => withProc (s.myproc c) fun p =>
    if p = s.initproc then .panic "init exiting" else .ok { op := .acquire .wait, next := [.reparent p status 0] }
  | .reparent p status i => .ok (reparentAct s c p status i)
  | .exit2 p status => .ok { op := .acquire (.proc p), next := [.exit3 p status] }
  | .exit3 p status =>
    .ok { op := .release .wait, next := [.exit4 p], note := .exits p status
          write := some (p, { s.proc p with xstate := status, state := .ZOMBIE }) }
  | .exit4 _ => .ok { next := [.dead], go := .sched }
  | .dead => .panic "zombie exit"
  | .wait => withProc (s.myproc c) fun p => .ok { op := .acquire .wait, next := [.kids p 0 false] }
  | .kids p i havekids => .ok (kidsAct s p i havekids)
  | .kid p i => .ok (kidAct s ok p i)
  | .waitKilled p =>
    if (s.proc p).killed then .ok { op := .release (.proc p), next := [.waitFail p .killed] }
    else .ok { op := .release (.proc p), next := [.sleep (.proc p) .wait, .kids p 0 false] }
  | .waitDone _ | .waitFail _ _ => .ok { op := .release .wait, next := [] }

end Act

/-! ## The system -/

/-- What code outside proc.c may do. -/
inductive Call where
  | acquire (n : Nat)
  | release (n : Nat)
  | sleep (ch : Chan) (n : Nat)
  | wakeup (ch : Chan)
  | kill (pid : Int32)
  | setkilled
  | fork
  | exit (status : Int)
  | wait
  /-- an interrupt handler returns -/
  | ret

/-- A call from frame `f`. -/
def callAct (s : St) (c : Fin NCPU) (f : Frame) : Call → Outcome Act
  | .acquire n => .ok { op := .acquire (.other n), next := [f] }
  | .release n => .ok { op := .release (.other n), next := [f] }
  | .wakeup ch => .ok { next := [.wakeup ⟨some ch, s.myproc c, s.log.clock⟩ 0, f], note := .wakes }
  | .sleep ch n => .ok { next := [.sleep ch (.other n), f] }
  | .kill pid => .ok { next := [.kill pid 0, f] }
  | .setkilled => .ok { next := [.setkilled, f] }
  | .fork => withProc (s.myproc c) fun p => .ok { next := [.alloc p 0, f] }
  | .exit status => .ok { next := [.exit status, f] }
  | .wait => .ok { next := [.wait, f] }
  | .ret => .disabled

/-- What a handler may do: it does not sleep and is not a process. -/
def handlerAct (s : St) (c : Fin NCPU) : Call → Outcome Act
  | .acquire n => callAct s c .handler (.acquire n)
  | .release n => callAct s c .handler (.release n)
  | .wakeup ch => callAct s c .handler (.wakeup ch)
  | .ret => if (s.cpu c).noff = 0 then .ok { next := [] } else .disabled
  | _ => .disabled

/-- What can happen on a processor: the function on top goes on, with its allocation or copyout succeeding or not; other
code calls a function; an interrupt of a device or the timer comes. -/
inductive Label where
  | run (c : Fin NCPU) (ok : Bool)
  | call (c : Fin NCPU) (k : Call)
  | intr (c : Fin NCPU)
  | timer (c : Fin NCPU)

def Label.cpu : Label → Fin NCPU
  | .run c _ | .call c _ | .intr c | .timer c => c

/-- What a label does when `f` is on top. -/
def labelAct (s : St) (f : Frame) : Label → Outcome Act
  | .run c ok => act s c ok f
  | .call c k => match f with
    | .body => callAct s c .body k
    | .handler => handlerAct s c k
    | _ => .disabled
  | .intr c => if (s.cpu c).noff = 0 then .ok { next := [.handler, f] } else .disabled
  | .timer c =>
    if (s.cpu c).noff = 0 then
      match s.myproc c with
      | some _ => .ok { next := [.yield, f] }
      | none => .disabled
    else .disabled

def step (s : St) (lb : Label) : Outcome St :=
  match s.frames (s.cpu lb.cpu).cur with
  | [] => .disabled
  | f :: rest =>
    match labelAct s f lb with
    | .ok a => apply s lb.cpu rest a
    | .panic msg => .panic msg
    | .disabled => .disabled

/-- After userinit: one process, init, that has never run, and every processor at the start of scheduler(). -/
def booted : St where
  proc p := if p = 0 then { state := .RUNNABLE, pid := 1, context := .kstack 0 } else { context := .kstack p }
  cpu c := ⟨none, .cpu c, .cpu c, 0⟩
  lock _ := none
  frames
    | .cpu _ => [.scan 0]
    | .kstack p => if p = 0 then [.forkret 0] else []
  nextpid := 2
  initproc := 0
  log := ⟨0, fun _ => 0, fun _ => none, 1, [], [], []⟩

def init (s : St) : Prop := s = booted

end Xv6.Sched
