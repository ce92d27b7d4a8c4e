/-
log.c over bio.c's contract: the in-memory log, the functions that move blocks
between the cache, the log area and their home locations, and recovery.

A buffer operation is modelled by what the buffer cache promises its clients:
`bread` returns the contents most recently stored for a block (the cached copy if
there is one, the disk's otherwise), `bwrite` stores a block in the cache and on the
disk before it returns. Recycling a buffer loses a copy equal to the disk's, so it
does not show here. Every disk write is recorded in `issued`: a crash keeps a prefix
of that list.
-/
import Xv6.Disk
import Xv6.Lib.Device

namespace Xv6

/-- struct log, with `lh.block[0..n)` as a list. -/
structure Log where
  start : Nat
  size : Nat
  outstanding : Int := 0
  committing : Bool := false
  lh : List Nat := []

namespace Log

open Lib.Device

/-- The buffer cache and the disk behind it. -/
structure Bufs where
  disk : Nat → Block
  cache : Nat → Option Block
  refcnt : Nat → Nat
  issued : List (Nat × Block)

namespace Bufs

/-- The contents most recently stored for a block. -/
def view (s : Bufs) (b : Nat) : Block := (s.cache b).getD (s.disk b)

def bpin (s : Bufs) (b : Nat) : Bufs := { s with refcnt := Function.update s.refcnt b (s.refcnt b + 1) }

def bunpin (s : Bufs) (b : Nat) : Bufs := { s with refcnt := Function.update s.refcnt b (s.refcnt b - 1) }

def bread (s : Bufs) (b : Nat) : Block × Bufs :=
  (s.view b, { s with
    cache := Function.update s.cache b (some (s.view b))
    refcnt := Function.update s.refcnt b (s.refcnt b + 1) })

def bwrite (s : Bufs) (b : Nat) (data : Block) : Bufs :=
  { s with
    disk := Function.update s.disk b data
    cache := Function.update s.cache b (some data)
    issued := s.issued ++ [(b, data)] }

def brelse (s : Bufs) (b : Nat) : Bufs := { s with refcnt := Function.update s.refcnt b (s.refcnt b - 1) }

/-- The machine after power-up: nothing is cached. -/
def boot (disk : Nat → Block) : Bufs := { disk, cache := fun _ => none, refcnt := fun _ => 0, issued := [] }

end Bufs

open Bufs

/-! ## The header block -/

/-- `hb->block[i] = log.lh.block[i]`, for the blocks from index `i` on. -/
def putBlocks (hb : Block) : Nat → List Nat → Block
  | _, [] => hb
  | i, b :: bs => putBlocks (hb.putLE (4 + 4 * i) 4 b) (i + 1) bs

/-- The header block with `n` and `block[0..n)` stored in it. -/
def putHead (hb : Block) (lh : List Nat) : Block := putBlocks (hb.putLE 0 4 lh.length) 0 lh

/-- The `int n` of a header block. -/
def headCount (hb : Block) : Int := (BitVec.ofNat 32 (hb.getLE 0 4)).toInt

/-- The block numbers a header block lists. -/
def getHead (hb : Block) : List Nat := (List.range (headCount hb).toNat).map fun i => hb.getLE (4 + 4 * i) 4

/-! ## log.c -/

/-- One iteration of `install_trans`. -/
def installBlock (recovering : Bool) (log : Log) (tail b : Nat) (s : Bufs) : Bufs :=
  let (lbuf, s) := s.bread (log.start + tail + 1)
  let (_, s) := s.bread b
  -- memmove(dbuf->data, lbuf->data, BSIZE)
  let s := s.bwrite b lbuf
  let s := if recovering then s else s.bunpin b
  (s.brelse (log.start + tail + 1)).brelse b

/-- `install_trans`, from index `tail` on. -/
def installTransFrom (recovering : Bool) (log : Log) : Nat → List Nat → Bufs → Bufs
  | _, [], s => s
  | tail, b :: bs, s => installTransFrom recovering log (tail + 1) bs (installBlock recovering log tail b s)

/-- Copy committed blocks from the log to their home location. -/
def installTrans (recovering : Bool) (log : Log) (s : Bufs) : Bufs := installTransFrom recovering log 0 log.lh s

/-- Read the log header from disk into the in-memory log header. -/
def readHead (log : Log) (s : Bufs) : Log × Bufs :=
  let (buf, s) := s.bread log.start
  ({ log with lh := getHead buf }, s.brelse log.start)

/-- Write the in-memory log header to disk: the point at which a transaction commits. -/
def writeHead (log : Log) (s : Bufs) : Bufs :=
  let (buf, s) := s.bread log.start
  (s.bwrite log.start (putHead buf log.lh)).brelse log.start

def recoverFromLog (log : Log) (s : Bufs) : Bufs :=
  let (log, s) := readHead log s
  let s := installTrans true log s
  let log := { log with lh := [] }
  writeHead log s

/-- One iteration of `write_log`. -/
def writeLogBlock (log : Log) (tail b : Nat) (s : Bufs) : Bufs :=
  let (_, s) := s.bread (log.start + tail + 1)
  let (from_, s) := s.bread b
  -- memmove(to->data, from->data, BSIZE)
  let s := s.bwrite (log.start + tail + 1) from_
  (s.brelse b).brelse (log.start + tail + 1)

/-- `write_log`, from index `tail` on. -/
def writeLogFrom (log : Log) : Nat → List Nat → Bufs → Bufs
  | _, [], s => s
  | tail, b :: bs, s => writeLogFrom log (tail + 1) bs (writeLogBlock log tail b s)

/-- Copy modified blocks from the cache to the log. -/
def writeLog (log : Log) (s : Bufs) : Bufs := writeLogFrom log 0 log.lh s

def commit (log : Log) (s : Bufs) : Log × Bufs :=
  if log.lh.length > 0 then
    let s := writeLog log s
    let s := writeHead log s
    let s := installTrans false log s
    let log := { log with lh := [] }
    (log, writeHead log s)
  else (log, s)

end Log

end Xv6
