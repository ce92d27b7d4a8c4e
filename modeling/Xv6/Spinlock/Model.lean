/-
push_off and pop_off (spinlock.c) on one processor, under the threads that run on it: any
number of process threads and the scheduler's. `noff` and `intena` belong to the
processor; a switch hands them to another thread, and sched keeps `intena` in a variable
of its own stack meanwhile.

A thread calls push_off for an acquire, or alone as myproc does, and pop_off for what it
has outstanding, in any order; it switches interrupts on and off itself only when nothing
is. push_off is cut between intr_get and intr_off, where an interrupt can still come. An
interrupt runs its handler on the thread's stack, with interrupts off; the handler may do
all a thread does and returns with nothing outstanding. What is not here of acquire is
the waiting: on one processor a lock that is taken is taken by this one, and acquire
panics.

A thread's first switch goes to forkret, which releases the lock scheduler() took for it.
-/
import Xv6.Lib.Transition

namespace Xv6.Spinlock

open Lib

/-- What a push_off is for: an acquire of a lock, or nothing else. -/
inductive Hold (L : Type) where
  | lock (l : L)
  | bare
  deriving DecidableEq

/-- A thread: the push_offs it has outstanding; where it is in push_off, if past intr_get, with `old`; the same for the
code its interrupt handlers have interrupted; and sched's `intena`, once it has called swtch. -/
structure Thread (L : Type) where
  out : List (Hold L)
  top : Option (Hold L × Bool)
  below : List (Option (Hold L × Bool))
  saved : Option Bool

/-- `intr` is the interrupt enable bit; `cur` is the process whose thread runs, or none for scheduler(). -/
structure State (T L : Type) where
  noff : Nat
  intena : Bool
  intr : Bool
  locked : L → Bool
  cur : Option T
  thread : Option T → Thread L

variable {T L : Type} [DecidableEq T] [DecidableEq L]

namespace State

/-- The thread that runs. -/
def me (s : State T L) : Thread L := s.thread s.cur

def setMe (s : State T L) (v : Thread L) : State T L := { s with thread := Function.update s.thread s.cur v }

/-- push_off from intr_off on. -/
def pushOff (s : State T L) (h : Hold L) (old : Bool) : State T L :=
  { s with
    intr := false
    intena := if s.noff = 0 then old else s.intena
    noff := s.noff + 1 }.setMe { s.me with out := h :: s.me.out, top := none }

/-- The rest of acquire. -/
def take (s : State T L) : Hold L → Outcome (State T L)
  | .bare => .ok s
  | .lock l => if s.locked l then .panic "acquire" else .ok { s with locked := Function.update s.locked l true }

/-- What release does before pop_off. -/
def drop (s : State T L) : Hold L → Outcome (State T L)
  | .bare => .ok s
  | .lock l => if s.locked l then .ok { s with locked := Function.update s.locked l false } else .panic "release"

def popOff (s : State T L) (h : Hold L) : Outcome (State T L) :=
  if s.intr then .panic "pop_off - interruptible"
  else if s.noff < 1 then .panic "pop_off"
  else .ok ({ s with
    noff := s.noff - 1
    intr := s.noff - 1 = 0 && s.intena }.setMe { s.me with out := s.me.out.erase h })

/-- sched, up to swtch. The states of processes are not here. -/
def sched (s : State T L) (l : L) : Outcome (State T L) :=
  if ¬s.locked l then .panic "sched p->lock"
  else if s.noff ≠ 1 then .panic "sched locks"
  else if s.intr then .panic "sched interruptible"
  else .ok { s.setMe { s.me with saved := some s.intena } with cur := none }

/-- scheduler's swtch to a process, and what sched does when it comes back there. -/
def run (s : State T L) (t : T) : State T L :=
  { s with
    cur := some t
    intena := match (s.thread (some t)).saved with
      | some intena => intena
      | none => s.intena }

end State

/-- What the running thread does: the two halves of a push_off, a release or pop_off, intr_on or intr_off, sched or (in
scheduler) the switch to a process; or an interrupt comes or returns. -/
inductive Label (T L : Type) where
  | intrGet (h : Hold L)
  | pushOff
  | popOff (h : Hold L)
  | setIntr (on : Bool)
  | trap
  | sret
  | sched
  | run (t : T)

/-- `plock t` is the `p->lock` of a process. -/
def step (plock : T → L) (s : State T L) : Label T L → Outcome (State T L)
  | .intrGet h => if s.me.top = none then .ok (s.setMe { s.me with top := some (h, s.intr) }) else .disabled
  | .pushOff =>
    match s.me.top with
    | none => .disabled
    | some (h, old) => (s.pushOff h old).take h
  | .popOff h =>
    if h ∈ s.me.out ∧ s.me.top = none then
      match s.drop h with
      | .ok s => s.popOff h
      | .panic m => .panic m
      | .disabled => .disabled
    else .disabled
  | .setIntr on => if s.me.out = [] ∧ s.me.top = none then .ok { s with intr := on } else .disabled
  | .trap =>
    if s.intr then .ok ({ s with intr := false }.setMe { s.me with top := none, below := s.me.top :: s.me.below })
    else .disabled
  | .sret =>
    match s.me.below with
    | [] => .disabled
    | f :: below =>
      if s.me.out = [] ∧ s.me.top = none then .ok ({ s with intr := true }.setMe { s.me with top := f, below := below })
      else .disabled
  | .sched =>
    match s.cur with
    | none => .disabled
    | some t => if s.me.out = [.lock (plock t)] ∧ s.me.top = none then s.sched (plock t) else .disabled
  | .run t =>
    if s.cur = none ∧ s.me.out = [.lock (plock t)] ∧ s.me.top = none then .ok (s.run t) else .disabled

/-- scheduler() runs, and every process is yet to start in forkret. -/
structure Init (plock : T → L) (s : State T L) : Prop where
  noff : s.noff = 0
  locked : ∀ l, s.locked l = false
  cur : s.cur = none
  scheduler : (s.thread none).out = [] ∧ (s.thread none).top = none ∧ (s.thread none).below = []
  process : ∀ t, s.thread (some t) = ⟨[.lock (plock t)], none, [], none⟩

end Xv6.Spinlock
