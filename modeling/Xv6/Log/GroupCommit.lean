/-
begin_op, log_write, end_op and commit as a machine with any number of processes.
Each critical section under `log.lock` is one step; commit runs without the lock and
takes one step for each loop iteration and each header write, so every other process
may act in between. A process that sleeps in `begin_op` may test again at any time,
which covers every order of wakeups.

Beside the log the state holds what log_write and install_trans do to the buffer
cache (reference counts, and who holds a buffer) and a history of what happened,
newest first, which no step reads.
-/
import Xv6.Log.Model
import Xv6.Lib.Transition

namespace Xv6.GroupCommit

open Lib

/-- Where a process is. -/
inductive Pc where
  | user
  /-- In begin_op, before its test succeeded. -/
  | waiting
  /-- Between begin_op and end_op. -/
  | op
  /-- end_op has set `committing` and calls commit. -/
  | commit
  | writeLog (tail : Nat)
  | writeHead
  | install (tail : Nat)
  /-- Before `log.lh.n = 0`. -/
  | clear
  | eraseHead
  /-- commit has returned; `committing` is still set. -/
  | committed
  deriving DecidableEq

/-- The process is in commit, or about to enter or leave it, with `committing` set. -/
def Pc.inCommit : Pc → Bool
  | .user | .waiting | .op => false
  | _ => true

inductive Event (P : Type) where
  | begin (p : P)
  | write (p : P) (b : Nat)
  | finish (p : P)
  /-- commit's first write_head, with the blocks the header lists. -/
  | commit (bs : List Nat)
  | pin (b : Nat)
  | unpin (b : Nat)

structure State (P : Type) where
  log : Log
  refcnt : Nat → Nat
  /-- The process that holds the buffer of a block. -/
  owner : Nat → Option P
  pc : P → Pc
  hist : List (Event P)

inductive Action (P : Type) where
  | beginOp (p : P)
  | tryBegin (p : P)
  | bread (p : P) (b : Nat)
  | brelse (p : P) (b : Nat)
  | logWrite (p : P) (b : Nat)
  | endOp (p : P)
  | commitStep (p : P)

variable {P : Type} [DecidableEq P]

namespace State

def goto (s : State P) (p : P) (pc : Pc) : State P := { s with pc := Function.update s.pc p pc }

def note (s : State P) (e : Event P) : State P := { s with hist := e :: s.hist }

def bpin (s : State P) (b : Nat) : State P :=
  { s with refcnt := Function.update s.refcnt b (s.refcnt b + 1), hist := .pin b :: s.hist }

def bunpin (s : State P) (b : Nat) : State P :=
  { s with refcnt := Function.update s.refcnt b (s.refcnt b - 1), hist := .unpin b :: s.hist }

end State

/-- The test of begin_op, under `log.lock`: sleep, or count the operation in. -/
def tryBegin (s : State P) (p : P) : State P :=
  if s.log.committing then s
  else if s.log.lh.length + (s.log.outstanding + 1) * MAXOPBLOCKS > LOGSIZE then s
  else ({ s with log.outstanding := s.log.outstanding + 1 }.goto p .op).note (.begin p)

def logWrite (s : State P) (p : P) (b : Nat) : Outcome (State P) :=
  if s.log.lh.length ≥ LOGSIZE ∨ (s.log.lh.length : Int) ≥ s.log.size - 1 then .panic "too big a transaction"
  else if s.log.outstanding < 1 then .panic "log_write outside of trans"
  else if b ∈ s.log.lh then .ok (s.note (.write p b))
  else .ok (({ s.bpin b with log.lh := s.log.lh ++ [b] }).note (.write p b))

/-- end_op's first critical section. -/
def endOp (s : State P) (p : P) : Outcome (State P) :=
  let s := { s with log.outstanding := s.log.outstanding - 1 }
  if s.log.committing then .panic "log.committing"
  else if s.log.outstanding = 0 then .ok (({ s with log.committing := true }.goto p .commit).note (.finish p))
  else .ok ((s.goto p .user).note (.finish p))

/-- commit waits for the buffers it reads: the log block at `tail` and the home block. -/
def buffersFree (s : State P) (tail b : Nat) : Prop :=
  s.owner (s.log.start + tail + 1) = none ∧ s.owner b = none

instance (s : State P) (tail b : Nat) : Decidable (buffersFree s tail b) := inferInstanceAs (Decidable (_ ∧ _))

/-- One step of the process that is in commit. -/
def commitStep (s : State P) (p : P) : Outcome (State P) :=
  match s.pc p with
  | .commit => .ok (s.goto p (if s.log.lh.length > 0 then .writeLog 0 else .committed))
  | .writeLog tail =>
    match s.log.lh[tail]? with
    | some b => if buffersFree s tail b then .ok (s.goto p (.writeLog (tail + 1))) else .disabled
    | none => .ok (s.goto p .writeHead)
  | .writeHead => .ok ((s.goto p (.install 0)).note (.commit s.log.lh))
  | .install tail =>
    match s.log.lh[tail]? with
    | some b => if buffersFree s tail b then .ok ((s.bunpin b).goto p (.install (tail + 1))) else .disabled
    | none => .ok (s.goto p .clear)
  | .clear => .ok ({ s with log.lh := [] }.goto p .eraseHead)
  | .eraseHead => .ok (s.goto p .committed)
  | .committed => .ok ({ s with log.committing := false }.goto p .user)
  | _ => .disabled

/-- log_write is called by a process in an operation that holds the buffer. -/
def step (s : State P) : Action P → Outcome (State P)
  | .beginOp p => if s.pc p = .user then .ok (s.goto p .waiting) else .disabled
  | .tryBegin p => if s.pc p = .waiting then .ok (tryBegin s p) else .disabled
  | .bread p b =>
    if s.owner b = none then
      .ok { s with owner := Function.update s.owner b (some p), refcnt := Function.update s.refcnt b (s.refcnt b + 1) }
    else .disabled
  | .brelse p b =>
    if s.owner b = some p then
      .ok { s with owner := Function.update s.owner b none, refcnt := Function.update s.refcnt b (s.refcnt b - 1) }
    else .disabled
  | .logWrite p b => if s.pc p = .op ∧ s.owner b = some p then logWrite s p b else .disabled
  | .endOp p => if s.pc p = .op then endOp s p else .disabled
  | .commitStep p => commitStep s p

/-- After boot and recovery: no operation, nothing logged, nothing cached. -/
def Init (s : State P) : Prop :=
  s.log.outstanding = 0 ∧ s.log.committing = false ∧ s.log.lh = [] ∧ (∀ b, s.refcnt b = 0) ∧
    (∀ b, s.owner b = none) ∧ (∀ p, s.pc p = .user) ∧ s.hist = []

end Xv6.GroupCommit
