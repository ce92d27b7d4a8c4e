/-
The disk driver (virtio_disk.c), its callers and the device. `vdisk_lock` is held from
each acquire to the next sleep or release, so what a process does in between is cut only
where the device can look: at the store to `avail->idx`, at each test of `b->disk` and at
each turn of virtio_disk_intr's loop. The device runs beside the driver and takes no lock.

Any number of processes call virtio_disk_rw, each with a buffer whose sleep lock it
holds, as bread and bwrite do. kill may wake a process in its sleep.

The device is the one assumption. It takes head indices from the avail ring in order,
carries out the requests it has taken in any order, each by the descriptors it finds in
memory, sets the status byte to 0 and appends the head to the used ring.

`hist` is a record that no step reads: the requests in the order of their posting, those
completed in the order of completion, and how many of these virtio_disk_intr has handled.
-/
import Xv6.Lib.Transition

namespace Xv6.Virtio

open Lib

def NUM : Nat := 8

def VRING_DESC_F_NEXT : UInt16 := 1
def VRING_DESC_F_WRITE : UInt16 := 2

def VIRTIO_BLK_T_IN : UInt32 := 0
def VIRTIO_BLK_T_OUT : UInt32 := 1

/-! ## What driver and device share -/

/-- What a descriptor's address is the address of: `disk.ops[i]`, `b->data`, `disk.info[i].status`, or nothing. -/
inductive Addr (B : Type) where
  | null
  | ops (i : Nat)
  | data (b : B)
  | status (i : Nat)
  deriving DecidableEq

/-- `struct virtq_desc` -/
structure Desc (B : Type) where
  addr : Addr B
  len : Nat
  flags : UInt16
  next : Nat
  deriving DecidableEq

/-- `struct virtio_blk_req` -/
structure BlkReq where
  type : UInt32
  reserved : UInt32
  sector : UInt64
  deriving DecidableEq

/-- An entry of `disk.info`. -/
structure Info (B : Type) where
  b : Option B
  status : UInt8
  deriving DecidableEq

/-- `struct disk` with the two rings it points to. -/
structure Disk (B : Type) where
  desc : Nat → Desc B
  availIdx : UInt16
  availRing : Nat → Nat
  usedIdx : UInt16
  usedRing : Nat → Nat
  free : Nat → Bool
  /-- `disk.used_idx`, how far virtio_disk_intr has looked -/
  seenIdx : UInt16
  info : Nat → Info B
  ops : Nat → BlkReq

/-- The chain of three descriptors at `head`, if it is one the device can use: header and status byte where the
descriptors say, and the data writable for a read. -/
def Disk.chainAt {B : Type} (d : Disk B) (head : Nat) : Option (BlkReq × B × Nat) :=
  let d0 := d.desc head
  let d1 := d.desc d0.next
  let d2 := d.desc d1.next
  if d0.flags &&& VRING_DESC_F_NEXT = 0 ∨ d1.flags &&& VRING_DESC_F_NEXT = 0 ∨ d2.flags &&& VRING_DESC_F_NEXT ≠ 0 ∨
      d2.flags &&& VRING_DESC_F_WRITE = 0 then none
  else
    match d0.addr, d1.addr, d2.addr with
    | .ops i, .data b, .status k =>
      if (d.ops i).type = VIRTIO_BLK_T_IN ∧ d1.flags &&& VRING_DESC_F_WRITE = 0 then none else some (d.ops i, b, k)
    | _, _, _ => none

/-! ## Where everybody stands -/

/-- `int idx[3]` -/
structure Idx where
  i0 : Nat
  i1 : Nat
  i2 : Nat
  deriving DecidableEq

def Idx.toList (x : Idx) : List Nat := [x.i0, x.i1, x.i2]

/-- The arguments of a virtio_disk_rw(b, write); `blockno` is `b->blockno`. -/
structure Call (B : Type) where
  buf : B
  blockno : UInt32
  write : Bool
  deriving DecidableEq

/-- `b->blockno * (BSIZE / 512)` -/
def Call.sector {B : Type} (c : Call B) : UInt64 := (c.blockno * 2).toUInt64

/-- A call that has its descriptors; `num` is the number of its request in `hist`. -/
structure Flight (B : Type) where
  call : Call B
  idx : Idx
  num : Nat
  deriving DecidableEq

inductive Stage where
  /-- before disk.avail->idx += 1, under the lock -/
  | formed
  /-- at while(b->disk == 1), under the lock -/
  | testing
  /-- in sleep(b, &disk.vdisk_lock) -/
  | asleep
  /-- in sleep, before it takes the lock again -/
  | woken
  deriving DecidableEq

/-- Where a process stands. -/
inductive Pc (B : Type) where
  | idle
  /-- before it takes the lock for alloc3_desc -/
  | entry (c : Call B)
  /-- in sleep(&disk.free[0], &disk.vdisk_lock) -/
  | waitFree (c : Call B)
  | flying (f : Flight B) (stage : Stage)
  deriving DecidableEq

/-- Who holds `vdisk_lock`. -/
inductive Holder (P : Type) where
  | proc (p : P)
  | intr
  deriving DecidableEq

/-- A request the device has taken: its number and the head index it found. -/
structure Job where
  num : Nat
  head : Nat
  deriving DecidableEq

/-- The device: how many heads it has taken, the requests it has yet to carry out, and those it has yet to append to the
used ring. -/
structure Device where
  fetched : Nat
  taken : List Job
  done : List Job

structure Hist (P B : Type) where
  posted : List (P × Flight B)
  completed : List Job
  handled : Nat

structure State (P B D : Type) where
  disk : Disk B
  /-- `b->disk` -/
  bufDisk : B → Bool
  data : B → D
  media : UInt64 → D
  /-- `disk.vdisk_lock` -/
  lock : Option (Holder P)
  /-- the process that has locked `b->lock` -/
  held : B → Option P
  pc : P → Pc B
  dev : Device
  hist : Hist P B

variable {P B D : Type} [DecidableEq P] [DecidableEq B]

/-! ## sleep and wakeup -/

/-- A sleep channel: `&disk.free[0]` or a buffer. -/
inductive Chan (B : Type) where
  | free
  | buf (b : B)
  deriving DecidableEq

def Pc.wakeup (c : Chan B) : Pc B → Pc B
  | .waitFree call => if c = .free then .entry call else .waitFree call
  | .flying f .asleep => if c = .buf f.call.buf then .flying f .woken else .flying f .asleep
  | pc => pc

namespace State

def goto (s : State P B D) (p : P) (pc : Pc B) : State P B D := { s with pc := Function.update s.pc p pc }

def wakeup (s : State P B D) (c : Chan B) : State P B D := { s with pc := fun p => (s.pc p).wakeup c }

/-! ## Descriptors -/

def setFree (s : State P B D) (i : Nat) (v : Bool) : State P B D :=
  { s with disk := { s.disk with free := Function.update s.disk.free i v } }

def setDesc (s : State P B D) (i : Nat) (v : Desc B) : State P B D :=
  { s with disk := { s.disk with desc := Function.update s.disk.desc i v } }

def setInfo (s : State P B D) (i : Nat) (v : Info B) : State P B D :=
  { s with disk := { s.disk with info := Function.update s.disk.info i v } }

def allocDesc (s : State P B D) : Option (Nat × State P B D) :=
  ((List.range NUM).find? s.disk.free).map fun i => (i, s.setFree i false)

def freeDesc (s : State P B D) (i : Nat) : Except String (State P B D) :=
  if i ≥ NUM then .error "free_desc 1"
  else if s.disk.free i then .error "free_desc 2"
  else .ok (((s.setDesc i ⟨.null, 0, 0, 0⟩).setFree i true).wakeup .free)

/-- free_chain's while(1), for a number of turns. Each frees a descriptor that was not free, so more than `NUM` of them
do not happen. -/
def freeChain : Nat → State P B D → Nat → Except String (State P B D)
  | 0, _, _ => .error "free_chain"
  | n + 1, s, i => do
    let flag := (s.disk.desc i).flags
    let nxt := (s.disk.desc i).next
    let s ← s.freeDesc i
    if flag &&& VRING_DESC_F_NEXT ≠ 0 then freeChain n s nxt else .ok s

/-- alloc3_desc; no index is its -1. -/
def alloc3Desc (s : State P B D) : Except String (Option Idx × State P B D) :=
  match s.allocDesc with
  | none => .ok (none, s)
  | some (i0, s) =>
    match s.allocDesc with
    | none => do
      let s ← s.freeDesc i0
      .ok (none, s)
    | some (i1, s) =>
      match s.allocDesc with
      | none => do
        let s ← s.freeDesc i0
        let s ← s.freeDesc i1
        .ok (none, s)
      | some (i2, s) => .ok (some ⟨i0, i1, i2⟩, s)

/-! ## virtio_disk_rw -/

/-- From the formatting of the descriptors to the entry in the avail ring. -/
def format (s : State P B D) (c : Call B) (x : Idx) : State P B D :=
  let s := { s with disk := { s.disk with
    ops := Function.update s.disk.ops x.i0 ⟨if c.write then VIRTIO_BLK_T_OUT else VIRTIO_BLK_T_IN, 0, c.sector⟩ } }
  let s := s.setDesc x.i0 ⟨.ops x.i0, 16, VRING_DESC_F_NEXT, x.i1⟩
  let s := s.setDesc x.i1 ⟨.data c.buf, 1024, (if c.write then 0 else VRING_DESC_F_WRITE) ||| VRING_DESC_F_NEXT, x.i2⟩
  let s := s.setDesc x.i2 ⟨.status x.i0, 1, VRING_DESC_F_WRITE, 0⟩
  let s := s.setInfo x.i0 ⟨some c.buf, 0xff⟩
  { s with
    bufDisk := Function.update s.bufDisk c.buf true
    disk := { s.disk with
      availRing := Function.update s.disk.availRing (s.disk.availIdx.toNat % NUM) x.i0 } }

/-- acquire, then one turn of while(1) around alloc3_desc; with the descriptors, on to the avail ring. -/
def enter (s : State P B D) (p : P) (c : Call B) : Outcome (State P B D) :=
  match s.alloc3Desc with
  | .error m => .panic m
  | .ok (none, s) => .ok (s.goto p (.waitFree c))
  | .ok (some x, s) =>
    .ok ({ s.format c x with lock := some (.proc p) }.goto p (.flying ⟨c, x, s.hist.posted.length⟩ .formed))

/-- `disk.avail->idx += 1`, and the notification. -/
def post (s : State P B D) (p : P) (f : Flight B) : State P B D :=
  { s with
    disk := { s.disk with availIdx := s.disk.availIdx + 1 }
    hist := { s.hist with posted := s.hist.posted ++ [(p, f)] } }.goto p (.flying f .testing)

/-- `info[idx[0]].b = 0; free_chain(idx[0]); release` -/
def finish (s : State P B D) (p : P) (f : Flight B) : Outcome (State P B D) :=
  match (s.setInfo f.idx.i0 { s.disk.info f.idx.i0 with b := none }).freeChain (NUM + 1) f.idx.i0 with
  | .error m => .panic m
  | .ok s => .ok ({ s with lock := none }.goto p .idle)

/-- while(b->disk == 1) sleep(b, &disk.vdisk_lock), and what follows it. -/
def test (s : State P B D) (p : P) (f : Flight B) : Outcome (State P B D) :=
  if s.bufDisk f.call.buf then .ok ({ s with lock := none }.goto p (.flying f .asleep)) else s.finish p f

/-! ## virtio_disk_intr -/

/-- One turn of while(disk.used_idx != disk.used->idx), or the release after it. -/
def intrLoop (s : State P B D) : Outcome (State P B D) :=
  if s.disk.seenIdx ≠ s.disk.usedIdx then
    let id := s.disk.usedRing (s.disk.seenIdx.toNat % NUM)
    if (s.disk.info id).status ≠ 0 then .panic "virtio_disk_intr status"
    else
      match (s.disk.info id).b with
      | none => .panic "null b"
      | some b =>
        .ok { { s with bufDisk := Function.update s.bufDisk b false }.wakeup (.buf b) with
          disk := { s.disk with seenIdx := s.disk.seenIdx + 1 }
          hist := { s.hist with handled := s.hist.handled + 1 } }
  else .ok { s with lock := none }

/-! ## The device -/

def fetch (s : State P B D) : Outcome (State P B D) :=
  let seen := UInt16.ofNat s.dev.fetched
  if seen = s.disk.availIdx then .disabled
  else
    .ok { s with dev := { s.dev with
      fetched := s.dev.fetched + 1
      taken := s.dev.taken ++ [⟨s.dev.fetched, s.disk.availRing (seen.toNat % NUM)⟩] } }

/-- Carry out the request at position `k` of those taken. -/
def perform (s : State P B D) (k : Nat) : Outcome (State P B D) :=
  match s.dev.taken[k]? with
  | none => .disabled
  | some j =>
    match s.disk.chainAt j.head with
    | none => .panic "device: bad request"
    | some (r, b, i) =>
      let s := s.setInfo i { s.disk.info i with status := 0 }
      let s := { s with dev := { s.dev with taken := s.dev.taken.eraseIdx k, done := s.dev.done ++ [j] } }
      if r.type = VIRTIO_BLK_T_OUT then .ok { s with media := Function.update s.media r.sector (s.data b) }
      else .ok { s with data := Function.update s.data b (s.media r.sector) }

/-- Append the head of the request at position `k` of those carried out to the used ring. -/
def complete (s : State P B D) (k : Nat) : Outcome (State P B D) :=
  match s.dev.done[k]? with
  | none => .disabled
  | some j =>
    .ok { s with
      dev := { s.dev with done := s.dev.done.eraseIdx k }
      disk := { s.disk with
        usedRing := Function.update s.disk.usedRing (s.disk.usedIdx.toNat % NUM) j.head
        usedIdx := s.disk.usedIdx + 1 }
      hist := { s.hist with completed := s.hist.completed ++ [j] } }

end State

/-! ## The whole -/

inductive Label (P B D : Type) where
  /-- acquiresleep and releasesleep of `b->lock`, by a process outside virtio_disk_rw -/
  | acquiresleep (p : P) (b : B)
  | releasesleep (p : P) (b : B)
  /-- a process outside virtio_disk_rw stores into a buffer it has locked -/
  | fill (p : P) (b : B) (v : D)
  /-- virtio_disk_rw is called -/
  | call (p : P) (c : Call B)
  /-- a process goes on in virtio_disk_rw -/
  | run (p : P)
  /-- kill makes a sleeping process runnable -/
  | kill (p : P)
  /-- virtio_disk_intr takes the lock -/
  | intr
  /-- it goes on in its loop -/
  | intrLoop
  | fetch
  | perform (k : Nat)
  | complete (k : Nat)

/-- A process in virtio_disk_rw goes on; the lock is free where it needs to take it, and a sleeper does not. -/
def State.run (s : State P B D) (p : P) : Outcome (State P B D) :=
  match s.pc p with
  | .idle => .disabled
  | .entry c => if s.lock = none then s.enter p c else .disabled
  | .waitFree _ => .disabled
  | .flying f .formed => .ok (s.post p f)
  | .flying f .testing => s.test p f
  | .flying _ .asleep => .disabled
  | .flying f .woken =>
    if s.lock = none then .ok ({ s with lock := some (.proc p) }.goto p (.flying f .testing)) else .disabled

def step (s : State P B D) : Label P B D → Outcome (State P B D)
  | .acquiresleep p b =>
    if s.pc p = .idle ∧ s.held b = none then .ok { s with held := Function.update s.held b (some p) } else .disabled
  | .releasesleep p b =>
    if s.pc p = .idle ∧ s.held b = some p then .ok { s with held := Function.update s.held b none } else .disabled
  | .fill p b v =>
    if s.pc p = .idle ∧ s.held b = some p then .ok { s with data := Function.update s.data b v } else .disabled
  | .call p c => if s.pc p = .idle ∧ s.held c.buf = some p then .ok (s.goto p (.entry c)) else .disabled
  | .run p => s.run p
  | .kill p =>
    match s.pc p with
    | .waitFree c => .ok (s.goto p (.entry c))
    | .flying f .asleep => .ok (s.goto p (.flying f .woken))
    | _ => .disabled
  | .intr => if s.lock = none then .ok { s with lock := some .intr } else .disabled
  | .intrLoop => if s.lock = some .intr then s.intrLoop else .disabled
  | .fetch => s.fetch
  | .perform k => s.perform k
  | .complete k => s.complete k

/-- What virtio_disk_init leaves, with nobody in a call. -/
structure Init (s : State P B D) : Prop where
  free : ∀ i < NUM, s.disk.free i = true
  availIdx : s.disk.availIdx = 0
  usedIdx : s.disk.usedIdx = 0
  seenIdx : s.disk.seenIdx = 0
  lock : s.lock = none
  pc : ∀ p, s.pc p = .idle
  dev : s.dev = ⟨0, [], []⟩
  hist : s.hist = ⟨[], [], 0⟩

end Xv6.Virtio
