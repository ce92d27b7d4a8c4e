/-
fs.c, run by one process. The state is what the buffer cache shows of the disk, the log's
list of blocks, and the table of in-memory inodes; the disk itself changes when a
transaction commits. There is one device. A block that was changed in the cache but not
passed to log_write stays behind at the commit.

What would sleep for ever with no other process to wake it (a lock that is held, begin_op
on a full log) is an error here, as a panic is.
-/
import Xv6.Fs.Layout
import Xv6.Log.Model
import Xv6.Vm.Model

namespace Xv6.Fs

open Lib

def NINODE : Nat := 50

instance : NeZero NINODE := ⟨by decide⟩

/-- struct inode: the copy of a dinode, and who uses it. -/
structure Inode where
  inum : Nat := 0
  ref : Nat := 0
  locked : Bool := false
  valid : Bool := false
  d : Dinode := {}

/-- The kernel's superblock, the cached blocks, the disk, log.lh and log.outstanding, and the inode table. -/
structure State where
  sb : Superblock
  block : Nat → Block
  disk : Nat → Block
  lh : List Nat := []
  outstanding : Nat := 0
  itable : Fin NINODE → Inode := fun _ => {}

namespace State

def setBlock (s : State) (b : Nat) (c : Block) : State := { s with block := Function.update s.block b c }

def updInode (s : State) (ip : Fin NINODE) (f : Inode → Inode) : State :=
  { s with itable := Function.update s.itable ip (f (s.itable ip)) }

/-- The disk after a commit: the blocks in the log, as they are cached. -/
def committed (s : State) (b : Nat) : Block := if b ∈ s.lh then s.block b else s.disk b

/-- log_write has no place for one more block. -/
def logFull (s : State) : Prop := s.lh.length ≥ LOGSIZE ∨ (s.lh.length : Int) ≥ s.sb.nlog - 1

instance (s : State) : Decidable s.logFull := inferInstanceAs (Decidable (_ ∨ _))

end State

/-- fsinit: read the superblock, and recover the log. The inode table is empty. -/
def fsinit (disk : Nat → Block) : Except String State :=
  let sb := Superblock.decode (disk 1)
  if sb.magic ≠ FSMAGIC then .error "invalid file system"
  else
    let bufs := Log.recoverFromLog { start := sb.logstart, size := sb.nlog } (Log.Bufs.boot disk)
    .ok { sb, block := bufs.view, disk := bufs.disk }

/-! ## Buffers and the log -/

def bread (b : Nat) : Code State Block := do return (← get).block b

/-- Change a buffer's data. -/
def store (b : Nat) (c : Block) : Code State Unit := modify (·.setBlock b c)

def logWrite (b : Nat) : Code State Unit := do
  let s ← get
  if s.logFull then Code.panic "too big a transaction"
  else if s.outstanding < 1 then Code.panic "log_write outside of trans"
  else if b ∈ s.lh then return
  else set { s with lh := s.lh ++ [b] }

def beginOp : Code State Unit := do
  let s ← get
  if s.lh.length + (s.outstanding + 1) * MAXOPBLOCKS > LOGSIZE then Code.panic "begin_op sleeps"
  else set { s with outstanding := s.outstanding + 1 }

def endOp : Code State Unit := do
  let s ← get
  if s.outstanding = 1 then set { s with outstanding := 0, disk := s.committed, lh := [] }
  else set { s with outstanding := s.outstanding - 1 }

/-! ## Blocks -/

def bzero (bno : Nat) : Code State Unit := do
  store bno (Buffer.fill 0)
  logWrite bno

/-- The two loops of balloc look at the blocks in order. -/
def balloc : Code State Nat := do
  let s ← get
  match (List.range s.sb.size).find? fun b => !(s.block (s.sb.BBLOCK b)).bit (b % BPB) with
  | none => return 0
  | some b =>
    let bp ← bread (s.sb.BBLOCK b)
    store (s.sb.BBLOCK b) (bp.setBit (b % BPB))
    logWrite (s.sb.BBLOCK b)
    bzero b
    return b

def bfree (b : Nat) : Code State Unit := do
  let sb := (← get).sb
  let bp ← bread (sb.BBLOCK b)
  if !bp.bit (b % BPB) then Code.panic "freeing free block"
  else
    store (sb.BBLOCK b) (bp.clearBit (b % BPB))
    logWrite (sb.BBLOCK b)

/-! ## Inodes -/

def inode (ip : Fin NINODE) : Code State Inode := do return (← get).itable ip

def setInode (ip : Fin NINODE) (f : Inode → Inode) : Code State Unit := modify (·.updInode ip f)

/-- `ip->addrs[i] = a` -/
def setAddr (ip : Fin NINODE) (i a : Nat) : Code State Unit := setInode ip fun x => { x with d := x.d.setAddr i a }

/-- Copy a modified in-memory inode to disk. -/
def iupdate (ip : Fin NINODE) : Code State Unit := do
  let x ← inode ip
  let b := (← get).sb.IBLOCK x.inum
  let bp ← bread b
  store b (bp.setInode x.inum x.d)
  logWrite b

/-- Find the inode with number `inum` and return the in-memory copy. -/
def iget (inum : Nat) : Code State (Fin NINODE) := do
  let s ← get
  match (List.finRange NINODE).find? fun ip => (s.itable ip).ref > 0 ∧ (s.itable ip).inum = inum with
  | some ip =>
    setInode ip fun x => { x with ref := x.ref + 1 }
    return ip
  | none =>
    match (List.finRange NINODE).find? fun ip => (s.itable ip).ref = 0 with
    | none => Code.panic "iget: no inodes"
    | some ip =>
      setInode ip fun x => { x with inum, ref := 1, valid := false }
      return ip

def idup (ip : Fin NINODE) : Code State (Fin NINODE) := do
  setInode ip fun x => { x with ref := x.ref + 1 }
  return ip

def acquiresleep (ip : Fin NINODE) : Code State Unit := do
  if (← inode ip).locked then Code.panic "acquiresleep sleeps"
  else setInode ip fun x => { x with locked := true }

def releasesleep (ip : Fin NINODE) : Code State Unit := setInode ip fun x => { x with locked := false }

/-- ilock's read of the inode from disk. -/
def load (ip : Fin NINODE) : Code State Unit := do
  let x ← inode ip
  let s ← get
  let d := s.sb.inode s.block x.inum
  setInode ip fun x => { x with d, valid := true }
  if d.type = 0 then Code.panic "ilock: no type" else return

def ilock (ip : Fin NINODE) : Code State Unit := do
  if (← inode ip).ref < 1 then Code.panic "ilock"
  else
    acquiresleep ip
    if (← inode ip).valid then return else load ip

def iunlock (ip : Fin NINODE) : Code State Unit := do
  let x ← inode ip
  if !x.locked ∨ x.ref < 1 then Code.panic "iunlock" else releasesleep ip

/-! ## The blocks of a file -/

/-- bmap's part for the indirect block `ind`. -/
def bmapIndirect (ind bn : Nat) : Code State Nat := do
  let bp ← bread ind
  let addr := bp.word bn
  if addr = 0 then
    let addr ← balloc
    if addr = 0 then return 0
    -- the buffer is the same one balloc left in the cache
    let bp ← bread ind
    store ind (bp.setWord bn addr)
    logWrite ind
    return addr
  else return addr

/-- Return the disk block address of the nth block in inode ip, allocating it if there is none. -/
def bmap (ip : Fin NINODE) (bn : Nat) : Code State Nat := do
  let x ← inode ip
  if bn < NDIRECT then
    if x.d.addrs bn = 0 then
      let addr ← balloc
      if addr = 0 then return 0
      setAddr ip bn addr
      return addr
    else return x.d.addrs bn
  else if bn - NDIRECT < NINDIRECT then
    if x.d.addrs NDIRECT = 0 then
      let addr ← balloc
      if addr = 0 then return 0
      setAddr ip NDIRECT addr
      bmapIndirect addr (bn - NDIRECT)
    else bmapIndirect (x.d.addrs NDIRECT) (bn - NDIRECT)
  else Code.panic "bmap: out of range"

/-- itrunc's loop over the direct blocks. -/
def itruncDirect (ip : Fin NINODE) : List Nat → Code State Unit
  | [] => return
  | i :: is => do
    let x ← inode ip
    Code.when (x.d.addrs i ≠ 0) do
      bfree (x.d.addrs i)
      setAddr ip i 0
    itruncDirect ip is

/-- itrunc's loop over the entries of the indirect block. -/
def itruncIndirect (ind : Nat) : List Nat → Code State Unit
  | [] => return
  | j :: js => do
    let a := (← bread ind).word j
    Code.when (a ≠ 0) (bfree a)
    itruncIndirect ind js

def itrunc (ip : Fin NINODE) : Code State Unit := do
  itruncDirect ip (List.range NDIRECT)
  let ind := (← inode ip).d.addrs NDIRECT
  Code.when (ind ≠ 0) do
    itruncIndirect ind (List.range NINDIRECT)
    bfree ind
    setAddr ip NDIRECT 0
  setInode ip fun x => { x with d := { x.d with size := 0 } }
  iupdate ip

/-- iput's part for an inode that nothing refers to any more. -/
def ifree (ip : Fin NINODE) : Code State Unit := do
  acquiresleep ip
  itrunc ip
  setInode ip fun x => { x with d := { x.d with type := 0 } }
  iupdate ip
  setInode ip fun x => { x with valid := false }
  releasesleep ip

def iput (ip : Fin NINODE) : Code State Unit := do
  let x ← inode ip
  Code.when (x.ref = 1 ∧ x.valid ∧ x.d.nlink = 0) (ifree ip)
  setInode ip fun x => { x with ref := x.ref - 1 }

def iunlockput (ip : Fin NINODE) : Code State Unit := do
  iunlock ip
  iput ip

/-! ## Reading and writing -/

/-- The loop of readi: `n` bytes are left, `acc` is copied already. `dst` says whether either_copyout succeeds. -/
def readiLoop (ip : Fin NINODE) (dst : Nat → List UInt8 → Bool) :
    Nat → Nat → Nat → List UInt8 → Code State (Int × List UInt8)
  | 0, _, _, acc => return (acc.length, acc)
  | k + 1, off, n, acc => do
    if n = 0 then return (acc.length, acc)
    let addr ← bmap ip (off / BSIZE)
    if addr = 0 then return (acc.length, acc)
    let bp ← bread addr
    let m := min n (BSIZE - off % BSIZE)
    if dst acc.length (bp.read (off % BSIZE) m) then
      readiLoop ip dst k (off + m) (n - m) (acc ++ bp.read (off % BSIZE) m)
    else return (-1, acc)

/-- The result, and the bytes copied. Each round copies at least one. -/
def readi (ip : Fin NINODE) (dst : Nat → List UInt8 → Bool) (off n : Nat) : Code State (Int × List UInt8) := do
  let size := (← inode ip).d.size
  if off > size ∨ u32 (off + n) < off then return (0, [])
  let n := if u32 (off + n) > size then size - off else n
  readiLoop ip dst n off n []

/-- A copy to kernel memory. -/
def toKernel : Nat → List UInt8 → Bool := fun _ _ => true

/-- Where writei copies from. -/
inductive Source where
  | kernel (data : List UInt8)
  | user (m : Mem) (pagetable src : Nat)

/-- either_copyin of `n` bytes at `k` from the start: its result, and the bytes it stored. -/
def Source.copyin : Source → Nat → Nat → Int × List UInt8
  | .kernel data, k, n => (0, (data.drop k).take n)
  | .user m pagetable src, k, n =>
    match Mem.copyin pagetable (u64 (src + k)) n m with
    | .ok (r, _) => r
    | .error _ => (-1, [])

/-- The loop of writei: `tot` bytes are copied, `n` are left. -/
def writeiLoop (ip : Fin NINODE) (src : Source) : Nat → Nat → Nat → Nat → Code State (Nat × Nat)
  | 0, off, tot, _ => return (off, tot)
  | k + 1, off, tot, n => do
    if n = 0 then return (off, tot)
    let addr ← bmap ip (off / BSIZE)
    if addr = 0 then return (off, tot)
    let bp ← bread addr
    let m := min n (BSIZE - off % BSIZE)
    store addr (bp.write (off % BSIZE) (src.copyin tot m).2)
    if (src.copyin tot m).1 = -1 then return (off, tot)
    logWrite addr
    writeiLoop ip src k (off + m) (tot + m) (n - m)

def writei (ip : Fin NINODE) (src : Source) (off n : Nat) : Code State Int := do
  let size := (← inode ip).d.size
  if off > size ∨ u32 (off + n) < off then return -1
  if u32 (off + n) > MAXFILE * BSIZE then return -1
  let (off, tot) ← writeiLoop ip src n off 0 n
  setInode ip fun x => { x with d := { x.d with size := max x.d.size off } }
  iupdate ip
  return tot

/-! ## Directories -/

/-- sizeof(struct dirent) -/
def DIRENT : Nat := 16

/-- The characters of a string, with the NUL behind them. -/
def char (s : List UInt8) (i : Nat) : UInt8 := s.getD i 0

/-- Whether strncmp(p, q, n) finds the strings equal. -/
def strnEq (p q : List UInt8) : Nat → Nat → Bool
  | 0, _ => true
  | n + 1, i => if char p i ≠ 0 ∧ char p i = char q i then strnEq p q n (i + 1) else char p i = char q i

def namecmp (s t : List UInt8) : Bool := strnEq s t DIRSIZ 0

/-- The `n` bytes strncpy stores. -/
def strncpy (t : List UInt8) (n : Nat) : List UInt8 :=
  let s := (t.takeWhile (· ≠ 0)).take n
  s ++ List.replicate (n - s.length) 0

/-- struct dirent, from its bytes. -/
def direntInum (de : List UInt8) : Nat := (de.getD 0 0).toNat + 256 * (de.getD 1 0).toNat

def direntName (de : List UInt8) : List UInt8 := de.drop 2

def dirent (inum : Nat) (name : List UInt8) : List UInt8 :=
  [UInt8.ofNat inum, UInt8.ofNat (inum / 256)] ++ strncpy name DIRSIZ

/-- The entry at `off`; `msg` is the caller's panic. -/
def readDirent (dp : Fin NINODE) (msg : String) (off : Nat) : Code State (List UInt8) := do
  let (r, de) ← readi dp toKernel off DIRENT
  if r ≠ DIRENT then Code.panic msg else return de

/-- The offsets of the entries of a directory of `size` bytes. -/
def offsets (size : Nat) : List Nat := (List.range ((size + DIRENT - 1) / DIRENT)).map (DIRENT * ·)

/-- The loop of dirlookup. -/
def dirlookupFrom (dp : Fin NINODE) (name : List UInt8) : List Nat → Code State (Option (Fin NINODE × Nat))
  | [] => return none
  | off :: offs => do
    let de ← readDirent dp "dirlookup read" off
    if direntInum de ≠ 0 ∧ namecmp name (direntName de) then return some (← iget (direntInum de), off)
    else dirlookupFrom dp name offs

/-- Look for a directory entry: the inode, and the offset of the entry. -/
def dirlookup (dp : Fin NINODE) (name : List UInt8) : Code State (Option (Fin NINODE × Nat)) := do
  let x ← inode dp
  if x.d.type ≠ T_DIR then Code.panic "dirlookup not DIR"
  else dirlookupFrom dp name (offsets x.d.size)

/-- The loop of dirlink looks for an empty entry. -/
def dirlinkFrom (dp : Fin NINODE) (size : Nat) : List Nat → Code State Nat
  | [] => return DIRENT * ((size + DIRENT - 1) / DIRENT)
  | off :: offs => do
    let de ← readDirent dp "dirlink read" off
    if direntInum de = 0 then return off else dirlinkFrom dp size offs

/-- Write a new directory entry (name, inum) into the directory dp. -/
def dirlink (dp : Fin NINODE) (name : List UInt8) (inum : Nat) : Code State Int := do
  match ← dirlookup dp name with
  | some (ip, _) =>
    iput ip
    return -1
  | none =>
    let size := (← inode dp).d.size
    let off ← dirlinkFrom dp size (offsets size)
    let r ← writei dp (.kernel (dirent inum name)) off DIRENT
    if r ≠ DIRENT then return -1 else return 0

/-- sys_unlink's write of an empty entry. -/
def clearEntry (dp : Fin NINODE) (off : Nat) : Code State Unit := do
  let r ← writei dp (.kernel (List.replicate DIRENT 0)) off DIRENT
  if r ≠ DIRENT then Code.panic "unlink: writei" else return

/-- What sys_unlink does to the directory: find the entry and clear it. The caller has a reference to the inode. -/
def removeEntry (dp : Fin NINODE) (name : List UInt8) : Code State (Option (Fin NINODE)) := do
  match ← dirlookup dp name with
  | none => return none
  | some (ip, off) =>
    clearEntry dp off
    return some ip

/-! ## Paths -/

def slash : UInt8 := 47

/-- Copy the next path element into the buffer `name`; the path after it, and the buffer. -/
def skipelem (path name : List UInt8) : Option (List UInt8 × List UInt8) :=
  let path := path.dropWhile (· = slash)
  if char path 0 = 0 then none
  else
    let elem := path.takeWhile fun c => c ≠ slash ∧ c ≠ 0
    let name := if elem.length ≥ DIRSIZ then elem.take DIRSIZ else elem ++ 0 :: name.drop (elem.length + 1)
    some ((path.drop elem.length).dropWhile (· = slash), name)

/-- The loop of namex; every round takes an element off the path. -/
def namexLoop (nameiparent : Bool) : Nat → Fin NINODE → List UInt8 → List UInt8 →
    Code State (Option (Fin NINODE × List UInt8))
  | 0, _, _, _ => return none
  | k + 1, ip, path, name =>
    match skipelem path name with
    | none =>
      if nameiparent then do
        iput ip
        return none
      else return some (ip, name)
    | some (path, name) => do
      ilock ip
      if (← inode ip).d.type ≠ T_DIR then
        iunlockput ip
        return none
      if nameiparent ∧ char path 0 = 0 then
        iunlock ip
        return some (ip, name)
      match ← dirlookup ip name with
      | none =>
        iunlockput ip
        return none
      | some (next, _) =>
        iunlockput ip
        namexLoop nameiparent k next path name

/-- Look up the inode for a path name, or that of its parent; `name` is what the caller's buffer holds. -/
def namex (cwd : Fin NINODE) (path : List UInt8) (nameiparent : Bool) (name : List UInt8) :
    Code State (Option (Fin NINODE × List UInt8)) := do
  let ip ← if char path 0 = slash then iget ROOTINO else idup cwd
  namexLoop nameiparent (path.length + 1) ip path name

def namei (cwd : Fin NINODE) (path : List UInt8) : Code State (Option (Fin NINODE)) := do
  return (← namex cwd path false (List.replicate DIRSIZ 0)).map Prod.fst

def nameiparent (cwd : Fin NINODE) (path name : List UInt8) : Code State (Option (Fin NINODE × List UInt8)) :=
  namex cwd path true name

end Xv6.Fs
