/-
The buffer cache (bio.c) and its clients. A process stands at a control point of bread,
bwrite or brelse, or outside them; what runs under `bcache.lock` is one step, and so is
each half of a disk transfer and taking or dropping a buffer's sleep lock. A process may
hold several buffers. The disk serves a block by its device and number; the driver knows
one device, ROOTDEV, and every caller names that one.

`pins` and `stored` are a record that no step reads: bpin less bunpin for each buffer,
and the last contents a client gave each block.
-/
import Xv6.Lib.Links
import Xv6.Lib.Transition
import Xv6.Param

namespace Xv6.Bio

open Lib

/-- `struct buf`; `lock` is the process whose pid the sleep lock has, if it is locked. The links are kept beside it, for
the list's head has some too, and `disk` is the driver's. -/
structure Buf (α : Type) where
  valid : Bool
  dev : UInt32
  blockno : UInt32
  lock : Option (Fin NPROC)
  refcnt : UInt32
  data : α

/-- A node of the list: a buffer, or `bcache.head`. -/
abbrev Node := Option (Fin NBUF)

/-- Where a process stands. -/
inductive Pc where
  | idle
  /-- bget at acquiresleep(&b->lock), for a bread(dev, blockno) -/
  | wait (b : Fin NBUF) (dev blockno : UInt32)
  /-- bread at if(!b->valid) -/
  | locked (b : Fin NBUF) (dev blockno : UInt32)
  /-- bread, reading from the disk -/
  | reading (b : Fin NBUF) (dev blockno : UInt32)
  /-- bread(dev, blockno) has returned b -/
  | got (b : Fin NBUF) (dev blockno : UInt32)
  /-- bwrite, writing to the disk -/
  | writing (b : Fin NBUF)
  /-- brelse at acquire(&bcache.lock) -/
  | releasing (b : Fin NBUF)
  deriving DecidableEq

structure St (α : Type) where
  buf : Fin NBUF → Buf α
  links : Links Node
  disk : UInt32 → UInt32 → α
  pc : Fin NPROC → Pc
  pins : Fin NBUF → Nat
  stored : UInt32 → UInt32 → α

variable {α : Type}

/-- `m[dev][blockno] = v` -/
def put (m : UInt32 → UInt32 → α) (dev blockno : UInt32) (v : α) : UInt32 → UInt32 → α :=
  Function.update m dev (Function.update (m dev) blockno v)

namespace St

def setBuf (s : St α) (b : Fin NBUF) (v : Buf α) : St α := { s with buf := Function.update s.buf b v }

def goto (s : St α) (t : Fin NPROC) (pc : Pc) : St α := { s with pc := Function.update s.pc t pc }

/-- for(b = bcache.head.next; b != &bcache.head; b = b->next) if(b->dev == dev && b->blockno == blockno) -/
def cached (s : St α) (dev blockno : UInt32) : Option (Option Node) :=
  Links.walk s.links.next none (fun n => n.any fun b => (s.buf b).dev = dev ∧ (s.buf b).blockno = blockno)
    (NBUF + 1) (s.links.next none)

/-- for(b = bcache.head.prev; b != &bcache.head; b = b->prev) if(b->refcnt == 0) -/
def unused (s : St α) : Option (Option Node) :=
  Links.walk s.links.prev none (fun n => n.any fun b => (s.buf b).refcnt = 0) (NBUF + 1) (s.links.prev none)

/-- bget, up to acquiresleep. A search that does not come back to the head would go on forever. -/
def bget (s : St α) (t : Fin NPROC) (dev blockno : UInt32) : Outcome (St α) :=
  match s.cached dev blockno with
  | none => .disabled
  | some (some (some b)) =>
    .ok ((s.setBuf b { s.buf b with refcnt := (s.buf b).refcnt + 1 }).goto t (.wait b dev blockno))
  | some _ =>
    match s.unused with
    | none => .disabled
    | some (some (some b)) =>
      let v := { s.buf b with dev := dev, blockno := blockno, valid := false, refcnt := 1 }
      .ok ((s.setBuf b v).goto t (.wait b dev blockno))
    | some _ => .panic "bget: no buffers"

/-- The end of brelse: one reference less, and to the front of the list with the last one. -/
def unref (s : St α) (b : Fin NBUF) : St α :=
  let refcnt := (s.buf b).refcnt - 1
  let s := s.setBuf b { s.buf b with refcnt := refcnt }
  if refcnt = 0 then { s with links := (s.links.unlink (some b)).insertAfter none (some b) } else s

/-- A process goes on in the call it is in. -/
def run (s : St α) (t : Fin NPROC) : Outcome (St α) :=
  match s.pc t with
  | .idle => .disabled
  | .wait b dev blockno =>
    match (s.buf b).lock with
    | none => .ok ((s.setBuf b { s.buf b with lock := some t }).goto t (.locked b dev blockno))
    | some _ => .disabled
  | .locked b dev blockno =>
    if (s.buf b).valid then .ok (s.goto t (.got b dev blockno)) else .ok (s.goto t (.reading b dev blockno))
  | .reading b dev blockno =>
    let v := { s.buf b with data := s.disk (s.buf b).dev (s.buf b).blockno, valid := true }
    .ok ((s.setBuf b v).goto t (.got b dev blockno))
  | .got _ _ _ => .ok (s.goto t .idle)
  | .writing b =>
    .ok ({ s with disk := put s.disk (s.buf b).dev (s.buf b).blockno (s.buf b).data }.goto t .idle)
  | .releasing b => .ok ((s.unref b).goto t .idle)

end St

/-- What can happen: a process calls one of the functions, goes on in one, or writes to a buffer's data. -/
inductive Label (α : Type) where
  | bread (t : Fin NPROC) (dev blockno : UInt32)
  | bwrite (t : Fin NPROC) (b : Fin NBUF)
  | brelse (t : Fin NPROC) (b : Fin NBUF)
  | bpin (t : Fin NPROC) (b : Fin NBUF)
  | bunpin (t : Fin NPROC) (b : Fin NBUF)
  | change (t : Fin NPROC) (b : Fin NBUF) (v : α)
  | run (t : Fin NPROC)

/-- The process that moves. -/
def Label.proc : Label α → Fin NPROC
  | .bread t _ _ | .bwrite t _ | .brelse t _ | .bpin t _ | .bunpin t _ | .change t _ _ | .run t => t

/-- A call by a process that is not in another one. -/
def call (s : St α) : Label α → Outcome (St α)
  | .bread t dev blockno => s.bget t dev blockno
  | .bwrite t b => if (s.buf b).lock = some t then .ok (s.goto t (.writing b)) else .panic "bwrite"
  | .brelse t b =>
    if (s.buf b).lock = some t then .ok ((s.setBuf b { s.buf b with lock := none }).goto t (.releasing b))
    else .panic "brelse"
  | .bpin _ b =>
    .ok { s.setBuf b { s.buf b with refcnt := (s.buf b).refcnt + 1 } with pins := Function.update s.pins b (s.pins b + 1) }
  | .bunpin _ b =>
    .ok { s.setBuf b { s.buf b with refcnt := (s.buf b).refcnt - 1 } with pins := Function.update s.pins b (s.pins b - 1) }
  | .change _ b v =>
    .ok { s.setBuf b { s.buf b with data := v } with stored := put s.stored (s.buf b).dev (s.buf b).blockno v }
  | .run _ => .disabled

def step (s : St α) : Label α → Outcome (St α)
  | .run t => s.run t
  | lb => match s.pc lb.proc with
    | .idle => call s lb
    | _ => .disabled

theorem step_cases {s s' : St α} {lb : Label α} (he : step s lb = .ok s') :
    (∃ t, lb = .run t ∧ s.run t = .ok s') ∨ s.pc lb.proc = .idle ∧ call s lb = .ok s' := by
  unfold step at he
  split at he
  · exact .inl ⟨_, rfl, he⟩
  · split at he
    · next ht => exact .inr ⟨ht, he⟩
    · cases he

/-! ## Boot -/

/-- binit's loop over the buffers. -/
def binit : Links Node :=
  (List.finRange NBUF).foldl (fun l b => l.insertAfter none (some b)) ⟨fun _ => none, fun _ => none⟩

/-- After binit: zeroed buffers, and a disk. -/
def init (s : St α) : Prop :=
  ∃ (disk : UInt32 → UInt32 → α) (junk : α), s = ⟨fun _ => ⟨false, 0, 0, none, 0, junk⟩, binit, disk, fun _ => .idle,
    fun _ => 0, disk⟩

end Xv6.Bio
