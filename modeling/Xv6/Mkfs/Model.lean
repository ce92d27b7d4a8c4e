/-
mkfs.c: the program that builds the initial file system image. The image file is its
sectors and how many of them there are; reading behind the end, a failed assert and a
failed system call end the program (`Code.panic`). Integers are stored little-endian,
which is what xshort and xint do on any host.

An input file is its path and what the successive reads of it return.
-/
import Xv6.Fs.Layout
import Xv6.Lib.Triple

namespace Xv6.Mkfs

open Lib

def NINODES : Nat := 200

def nbitmap : Nat := FSSIZE / (BSIZE * 8) + 1
def ninodeblocks : Nat := NINODES / IPB + 1
def nlog : Nat := LOGSIZE

/-- Number of meta blocks (boot, sb, nlog, inode, bitmap). -/
def nmeta : Nat := 2 + nlog + ninodeblocks + nbitmap

/-- Number of data blocks. -/
def nblocks : Nat := FSSIZE - nmeta

def sb : Superblock where
  magic := FSMAGIC
  size := FSSIZE
  nblocks := nblocks
  ninodes := NINODES
  nlog := nlog
  logstart := 2
  inodestart := 2 + nlog
  bmapstart := 2 + nlog + ninodeblocks

/-- The image file, and the two counters. -/
structure Image where
  sect : Nat → Block := fun _ => Buffer.fill 0
  nsect : Nat := 0
  freeinode : Nat := 1
  freeblock : Nat := 0

/-- A path of the command line, and the non-empty reads of that file, none longer than the buffer. -/
structure Input where
  argv : List UInt8
  reads : List (List UInt8)
  reads_ok : ∀ r ∈ reads, r ≠ [] ∧ r.length ≤ BSIZE

/-- The bytes of the file. -/
def Input.bytes (f : Input) : List UInt8 := f.reads.flatten

def assert (φ : Prop) [Decidable φ] : Code Image Unit := if φ then pure () else Code.panic "assert"

def wsect (sec : Nat) (buf : Block) : Code Image Unit :=
  modify fun s => { s with sect := Function.update s.sect sec buf, nsect := max s.nsect (sec + 1) }

def rsect (sec : Nat) : Code Image Block := do
  let s ← get
  if sec < s.nsect then return s.sect sec else Code.panic "read"

def winode (inum : Nat) (ip : Dinode) : Code Image Unit := do
  let bn := sb.IBLOCK inum
  let buf ← rsect bn
  wsect bn (Block.setInode buf inum ip)

def rinode (inum : Nat) : Code Image Dinode := do
  let buf ← rsect (sb.IBLOCK inum)
  return .decode (Buffer.part buf (DINODE * (inum % IPB)) DINODE)

def ialloc (type : Nat) : Code Image Nat := do
  let inum := (← get).freeinode
  modify fun s => { s with freeinode := s.freeinode + 1 }
  winode inum { type, nlink := 1 }
  return inum

/-- The loop of balloc sets the first `used` bits. -/
def bitmap : Nat → Block
  | 0 => Buffer.fill 0
  | used + 1 => Buffer.setBit (bitmap used) used

def balloc (used : Nat) : Code Image Unit := do
  assert (used < BSIZE * 8)
  wsect sb.bmapstart (bitmap used)

/-- `freeblock++` -/
def nextblock : Code Image Nat := do
  let b := (← get).freeblock
  modify fun s => { s with freeblock := s.freeblock + 1 }
  return b

/-- The inode with an indirect block. -/
def iappendIndirect (din : Dinode) : Code Image Dinode := do
  if din.addrs NDIRECT = 0 then
    let b ← nextblock
    return din.setAddr NDIRECT b
  return din

/-- The block number of block `fbn` of the file, allocated if there is none, and the inode with it. -/
def iappendBlock (din : Dinode) (fbn : Nat) : Code Image (Dinode × Nat) := do
  if fbn < NDIRECT then
    if din.addrs fbn = 0 then
      let b ← nextblock
      return (din.setAddr fbn b, b)
    return (din, din.addrs fbn)
  let din ← iappendIndirect din
  let indirect ← rsect (din.addrs NDIRECT)
  if Block.word indirect (fbn - NDIRECT) = 0 then
    let b ← nextblock
    wsect (din.addrs NDIRECT) (Block.setWord indirect (fbn - NDIRECT) b)
    return (din, b)
  return (din, Block.word indirect (fbn - NDIRECT))

/-- The loop of iappend. Each step takes at least one byte of `p`. -/
def iappendLoop : Nat → Dinode → Nat → List UInt8 → Code Image (Dinode × Nat)
  | 0, din, off, _ => return (din, off)
  | fuel + 1, din, off, p => do
    if p = [] then return (din, off)
    let fbn := off / BSIZE
    assert (fbn < MAXFILE)
    let (din, x) ← iappendBlock din fbn
    let n1 := min p.length ((fbn + 1) * BSIZE - off)
    let buf ← rsect x
    wsect x (Buffer.write buf (off - fbn * BSIZE) (p.take n1))
    iappendLoop fuel din (off + n1) (p.drop n1)

def iappend (inum : Nat) (p : List UInt8) : Code Image Unit := do
  let din ← rinode inum
  let (din, off) ← iappendLoop p.length din din.size p
  winode inum { din with size := off }

/-! ## main -/

/-- A directory entry: the number, and the name cut or filled with zeros to DIRSIZ bytes. -/
def dirent (inum : Nat) (name : List UInt8) : List UInt8 :=
  [UInt8.ofNat inum, UInt8.ofNat (inum / 256)] ++ (name ++ List.replicate DIRSIZ 0).take DIRSIZ

/-- '/', '_' and '.' -/
def slash : UInt8 := 47
def underscore : UInt8 := 95
def dot : UInt8 := 46

/-- "user/" -/
def userDir : List UInt8 := [117, 115, 101, 114, slash]

/-- Get rid of "user/". -/
def strip (argv : List UInt8) : List UInt8 := if userDir.isPrefixOf argv then argv.drop 5 else argv

/-- Skip leading _ in name. -/
def shortname (argv : List UInt8) : List UInt8 :=
  match strip argv with
  | c :: name => if c = underscore then name else c :: name
  | [] => []

def addFile (rootino : Nat) (f : Input) : Code Image Unit := do
  assert (slash ∉ strip f.argv)
  let inum ← ialloc T_FILE
  iappend rootino (dirent inum (shortname f.argv))
  f.reads.forM (iappend inum)

def main (files : List Input) : Code Image Unit := do
  modify fun s => { s with freeblock := nmeta }
  (List.range FSSIZE).forM fun i => wsect i (Buffer.fill 0)
  wsect 1 sb.encode
  let rootino ← ialloc T_DIR
  assert (rootino = ROOTINO)
  iappend rootino (dirent rootino [dot])
  iappend rootino (dirent rootino [dot, dot])
  files.forM (addFile rootino)
  -- fix size of root inode dir
  let din ← rinode rootino
  winode rootino { din with size := (din.size / BSIZE + 1) * BSIZE }
  balloc (← get).freeblock

end Xv6.Mkfs
