/-
fs.h: the on-disk format both mkfs and the kernel use. The structs are read from and
written to the bytes of a block; an inode is the struct in its place of an inode block,
and what a file refers to is its direct blocks, its indirect block and what that lists.
-/
import Xv6.Disk

namespace Xv6

open Lib

def ROOTINO : Nat := 1
def FSMAGIC : Nat := 0x10203040
def NDIRECT : Nat := 12
def NINDIRECT : Nat := BSIZE / 4
def MAXFILE : Nat := NDIRECT + NINDIRECT
def DIRSIZ : Nat := 14

/-- Bitmap bits per block. -/
def BPB : Nat := BSIZE * 8

def T_DIR : Nat := 1
def T_FILE : Nat := 2
def T_DEVICE : Nat := 3

/-! ## struct superblock -/

structure Superblock where
  magic : Nat
  size : Nat
  nblocks : Nat
  ninodes : Nat
  nlog : Nat
  logstart : Nat
  inodestart : Nat
  bmapstart : Nat
  deriving DecidableEq

namespace Superblock

def decode (b : Block) : Superblock where
  magic := b.getLE 0 4
  size := b.getLE 4 4
  nblocks := b.getLE 8 4
  ninodes := b.getLE 12 4
  nlog := b.getLE 16 4
  logstart := b.getLE 20 4
  inodestart := b.getLE 24 4
  bmapstart := b.getLE 28 4

/-- The superblock at the start of a block of zeros. -/
def encode (sb : Superblock) : Block :=
  ((((((((Buffer.fill 0 : Block).putLE 0 4 sb.magic).putLE 4 4 sb.size).putLE 8 4 sb.nblocks).putLE
    12 4 sb.ninodes).putLE 16 4 sb.nlog).putLE 20 4 sb.logstart).putLE 24 4 sb.inodestart).putLE 28 4 sb.bmapstart

/-- The fields are uints. -/
structure Wf (sb : Superblock) : Prop where
  magic : sb.magic < 2 ^ 32
  size : sb.size < 2 ^ 32
  nblocks : sb.nblocks < 2 ^ 32
  ninodes : sb.ninodes < 2 ^ 32
  nlog : sb.nlog < 2 ^ 32
  logstart : sb.logstart < 2 ^ 32
  inodestart : sb.inodestart < 2 ^ 32
  bmapstart : sb.bmapstart < 2 ^ 32

/-- A superblock is read back as it was stored. -/
theorem decode_encode {sb : Superblock} (h : sb.Wf) : decode sb.encode = sb := by
  have hget (off v : Nat) (b : Block) (hoff : off + 4 ≤ BSIZE) (hv : v < 2 ^ 32) : (b.putLE off 4 v).getLE off 4 = v :=
    (Buffer.getLE_putLE hoff).trans (Nat.mod_eq_of_lt hv)
  obtain ⟨magic, size, nblocks, ninodes, nlog, logstart, inodestart, bmapstart⟩ := sb
  unfold decode encode
  congr 1
  all_goals repeat rw [Buffer.getLE_putLE_disjoint (by decide) (by decide)]
  · exact hget _ _ _ (by decide) h.magic
  · exact hget _ _ _ (by decide) h.size
  · exact hget _ _ _ (by decide) h.nblocks
  · exact hget _ _ _ (by decide) h.ninodes
  · exact hget _ _ _ (by decide) h.nlog
  · exact hget _ _ _ (by decide) h.logstart
  · exact hget _ _ _ (by decide) h.inodestart
  · exact hget _ _ _ (by decide) h.bmapstart

/-- Block of free map containing the bit for block `b`. -/
def BBLOCK (sb : Superblock) (b : Nat) : Nat := b / BPB + sb.bmapstart

end Superblock

/-! ## struct dinode -/

/-- The size of a dinode. -/
def DINODE : Nat := 64

/-- Inodes per block. -/
def IPB : Nat := BSIZE / DINODE

/-- Block containing inode `i`. -/
def Superblock.IBLOCK (sb : Superblock) (i : Nat) : Nat := i / IPB + sb.inodestart

/-- On-disk inode structure. The shorts are what they are in memory, 16 bits; addrs has NDIRECT+1 of them. -/
@[ext]
structure Dinode where
  type : Nat := 0
  major : Nat := 0
  minor : Nat := 0
  nlink : Nat := 0
  size : Nat := 0
  addrs : Nat → Nat := fun _ => 0

namespace Dinode

/-- The fields are as wide as those of the struct. -/
structure Wf (d : Dinode) : Prop where
  type : d.type < 2 ^ 16
  major : d.major < 2 ^ 16
  minor : d.minor < 2 ^ 16
  nlink : d.nlink < 2 ^ 16
  size : d.size < 2 ^ 32
  addrs : ∀ i, d.addrs i < 2 ^ 32
  rest : ∀ i, NDIRECT < i → d.addrs i = 0

/-- `addrs[i] = b` -/
def setAddr (d : Dinode) (i b : Nat) : Dinode := { d with addrs := Function.update d.addrs i b }

def decode (b : Buffer DINODE) : Dinode where
  type := b.getLE 0 2
  major := b.getLE 2 2
  minor := b.getLE 4 2
  nlink := b.getLE 6 2
  size := b.getLE 8 4
  addrs i := if i ≤ NDIRECT then b.getLE (12 + 4 * i) 4 else 0

/-- The bytes of `addrs[0..n)` stored in a dinode. -/
def putAddrs (b : Buffer DINODE) (addrs : Nat → Nat) : Nat → Buffer DINODE
  | 0 => b
  | n + 1 => (putAddrs b addrs n).putLE (12 + 4 * n) 4 (addrs n)

def encode (d : Dinode) : Buffer DINODE :=
  putAddrs ((((((Buffer.fill 0 : Buffer DINODE).putLE 0 2 d.type).putLE 2 2 d.major).putLE 4 2 d.minor).putLE
    6 2 d.nlink).putLE 8 4 d.size) d.addrs (NDIRECT + 1)

variable {b : Buffer DINODE} {d : Dinode} {a : Nat → Nat} {n : Nat}

theorem getLE_putAddrs_head {o k : Nat} (hk : o + k ≤ 12) : (putAddrs b a n).getLE o k = b.getLE o k := by
  induction n with
  | zero => rfl
  | succ n ih => rw [putAddrs, Buffer.getLE_putLE_disjoint (by simp only [DINODE]; omega) (by omega), ih]

theorem getLE_putAddrs {i : Nat} (hi : i < n) (hn : n ≤ NDIRECT + 1) :
    (putAddrs b a n).getLE (12 + 4 * i) 4 = a i % 2 ^ 32 := by
  simp only [NDIRECT] at hn
  induction n with
  | zero => omega
  | succ n ih =>
    rw [putAddrs]
    by_cases he : i = n
    · rw [he, Buffer.getLE_putLE (by simp only [DINODE]; omega)]
      rfl
    · rw [Buffer.getLE_putLE_disjoint (by simp only [DINODE]; omega) (by omega), ih (by omega) (by omega)]

/-- **A dinode is read back as it was stored.** -/
theorem decode_encode (h : d.Wf) : decode (encode d) = d := by
  have hN : NDIRECT = 12 := rfl
  ext i
  all_goals dsimp only [decode, encode]
  · rw [getLE_putAddrs_head (by decide)]
    repeat rw [Buffer.getLE_putLE_disjoint (by decide) (by decide)]
    rw [Buffer.getLE_putLE (by decide)]
    exact Nat.mod_eq_of_lt h.type
  · rw [getLE_putAddrs_head (by decide)]
    repeat rw [Buffer.getLE_putLE_disjoint (by decide) (by decide)]
    rw [Buffer.getLE_putLE (by decide)]
    exact Nat.mod_eq_of_lt h.major
  · rw [getLE_putAddrs_head (by decide)]
    repeat rw [Buffer.getLE_putLE_disjoint (by decide) (by decide)]
    rw [Buffer.getLE_putLE (by decide)]
    exact Nat.mod_eq_of_lt h.minor
  · rw [getLE_putAddrs_head (by decide), Buffer.getLE_putLE_disjoint (by decide) (by decide),
      Buffer.getLE_putLE (by decide)]
    exact Nat.mod_eq_of_lt h.nlink
  · rw [getLE_putAddrs_head (by decide), Buffer.getLE_putLE (by decide)]
    exact Nat.mod_eq_of_lt h.size
  · split
    · rw [getLE_putAddrs (by omega) le_rfl, Nat.mod_eq_of_lt (h.addrs i)]
    · rw [h.rest i (by omega)]

theorem decode_wf : (decode b).Wf where
  type := b.getLE_lt 0 2
  major := b.getLE_lt 2 2
  minor := b.getLE_lt 4 2
  nlink := b.getLE_lt 6 2
  size := b.getLE_lt 8 4
  addrs i := by
    dsimp only [decode]
    split
    · exact b.getLE_lt (12 + 4 * i) 4
    · decide
  rest i hi := if_neg (Nat.not_le.mpr hi)

theorem addrs_setAddr {i j a : Nat} : (d.setAddr i a).addrs j = if j = i then a else d.addrs j :=
  Function.update_apply ..

theorem Wf.setAddr {i a : Nat} (h : d.Wf) (hi : i ≤ NDIRECT) (ha : a < 2 ^ 32) : (d.setAddr i a).Wf := by
  refine { h with addrs := fun j => ?_, rest := fun j hj => ?_ }
  · rw [addrs_setAddr]
    split
    · exact ha
    · exact h.addrs j
  · rw [addrs_setAddr, if_neg (by omega)]
    exact h.rest j hj

theorem decode_fill : decode (Buffer.fill 0) = {} := by
  ext i <;> simp [decode, Buffer.getLE_fill_zero]

end Dinode

/-! ## Inodes of an image -/

/-- The inode `inum` of an image. -/
def Superblock.inode (sb : Superblock) (img : Nat → Block) (inum : Nat) : Dinode :=
  .decode ((img (sb.IBLOCK inum)).part (DINODE * (inum % IPB)) DINODE)

/-- An inode block with the inode `inum` replaced. -/
def Block.setInode (b : Block) (inum : Nat) (d : Dinode) : Block := b.setPart (DINODE * (inum % IPB)) d.encode

/-- `a[i]`, for a block that is an array of uints. -/
def Block.word (b : Block) (i : Nat) : Nat := Buffer.getLE b (4 * i) 4

def Block.setWord (b : Block) (i v : Nat) : Block := Buffer.putLE b (4 * i) 4 v

theorem Block.word_setWord {b : Block} {i j v : Nat} (hj : j < NINDIRECT) (hv : v < 2 ^ 32) :
    (b.setWord i v).word j = if j = i then v else b.word j := by
  have hN : NINDIRECT = 256 := rfl
  rw [setWord, word]
  split
  · next he =>
    rw [he, Buffer.getLE_putLE (by simp only [BSIZE]; omega)]
    exact Nat.mod_eq_of_lt hv
  · next he => exact Buffer.getLE_putLE_disjoint (by simp only [BSIZE]; omega) (by omega)

theorem Block.word_fill {i : Nat} : Block.word (Buffer.fill 0) i = 0 := Buffer.getLE_fill_zero

theorem Block.word_of_le {b : Block} {i : Nat} (h : NINDIRECT ≤ i) : b.word i = 0 := by
  have hN : NINDIRECT = 256 := rfl
  rw [word, Buffer.getLE, LittleEndian.get_congr (g := fun _ => 0) fun x hx _ => ?_, LittleEndian.get_zero]
  exact dif_neg (by simp only [BSIZE]; omega)

section

variable {sb : Superblock} {img : Nat → Block} {i j : Nat} {d : Dinode}

theorem inode_slot (i : Nat) : DINODE * (i % IPB) + DINODE ≤ BSIZE := by
  simp only [DINODE, IPB, BSIZE]
  omega

theorem Superblock.inode_congr {img' : Nat → Block} (h : img' (sb.IBLOCK i) = img (sb.IBLOCK i)) :
    sb.inode img' i = sb.inode img i := by
  rw [inode, h, inode]

/-- Writing an inode back changes that inode only. -/
theorem Superblock.inode_setInode (h : d.Wf) :
    sb.inode (Function.update img (sb.IBLOCK i) ((img (sb.IBLOCK i)).setInode i d)) j =
      if j = i then d else sb.inode img j := by
  split
  · next he =>
    rw [he, inode, Function.update_self, Block.setInode, Buffer.part_setPart (inode_slot i), Dinode.decode_encode h]
  · next he =>
    by_cases hb : sb.IBLOCK j = sb.IBLOCK i
    · rw [inode, hb, Function.update_self, Block.setInode, Buffer.part_setPart_disjoint (inode_slot j), ← hb, inode]
      simp only [IBLOCK, IPB, BSIZE, DINODE] at hb ⊢
      omega
    · exact inode_congr (Function.update_of_ne hb _ _)

end

/-! ## What a file refers to -/

namespace Dinode

/-- The address of block `k` of the file, 0 if there is none. -/
def addr (d : Dinode) (img : Nat → Block) (k : Nat) : Nat :=
  if k < NDIRECT then d.addrs k
  else if d.addrs NDIRECT = 0 then 0 else (img (d.addrs NDIRECT)).word (k - NDIRECT)

/-- An address slot's reference: none if it is 0. -/
def ref (a : Nat) : Multiset Nat := if a = 0 then 0 else {a}

/-- The blocks the file refers to, one occurrence for each slot: its blocks, and the one that lists the indirect ones. -/
@[irreducible] def refs (d : Dinode) (img : Nat → Block) : Multiset Nat :=
  ref (d.addrs NDIRECT) + ∑ k ∈ Finset.range MAXFILE, ref (d.addr img k)

variable {d : Dinode} {img img' : Nat → Block} {a b k : Nat}

@[simp] theorem mem_ref : b ∈ ref a ↔ a ≠ 0 ∧ b = a := by
  unfold ref
  split <;> simp_all

theorem ref_zero : ref 0 = 0 := rfl

theorem ref_of_ne (h : a ≠ 0) : ref a = {a} := if_neg h

theorem mem_refs : b ∈ d.refs img ↔ b ≠ 0 ∧ (d.addrs NDIRECT = b ∨ ∃ k < MAXFILE, d.addr img k = b) := by
  simp only [refs, Multiset.mem_add, Multiset.mem_sum, Finset.mem_range, mem_ref]
  constructor
  · rintro (⟨h, rfl⟩ | ⟨k, hk, h, rfl⟩)
    · exact ⟨h, .inl rfl⟩
    · exact ⟨h, .inr ⟨k, hk, rfl⟩⟩
  · rintro ⟨h, rfl | ⟨k, hk, rfl⟩⟩
    · exact .inl ⟨h, rfl⟩
    · exact .inr ⟨k, hk, h, rfl⟩

/-- A file's addresses are in the inode and its indirect block. -/
theorem addr_congr (h : d.addrs NDIRECT ≠ 0 → img' (d.addrs NDIRECT) = img (d.addrs NDIRECT)) :
    d.addr img' = d.addr img := by
  funext k
  unfold addr
  split
  · rfl
  · split
    · rfl
    · next hne => rw [h hne]

theorem refs_congr (h : d.addrs NDIRECT ≠ 0 → img' (d.addrs NDIRECT) = img (d.addrs NDIRECT)) :
    d.refs img' = d.refs img := by
  rw [refs, addr_congr h, refs]

/-- Only the addresses matter. -/
theorem refs_of_addrs {d' : Dinode} (h : d'.addrs = d.addrs) : d'.refs img = d.refs img := by
  have haddr : d'.addr img = d.addr img := by
    funext k
    rw [addr, h, addr]
  rw [refs, h, haddr, refs]

theorem addr_direct (h : k < NDIRECT) : d.addr img k = d.addrs k := if_pos h

theorem addr_indirect (h : NDIRECT ≤ k) (hn : d.addrs NDIRECT ≠ 0) :
    d.addr img k = (img (d.addrs NDIRECT)).word (k - NDIRECT) := by
  rw [addr, if_neg (by omega), if_neg hn]

/-- An inode without addresses. -/
theorem addr_empty (h : ∀ i, d.addrs i = 0) : d.addr img k = 0 := by
  unfold addr
  rw [h, h, if_pos rfl, ite_self]

theorem refs_empty (h : ∀ i, d.addrs i = 0) : d.refs img = 0 := by
  rw [refs, h, ref_zero, zero_add]
  exact Finset.sum_eq_zero fun k _ => by rw [addr_empty h, ref_zero]

theorem addr_setAddr (hk : k < NDIRECT) {j : Nat} : (d.setAddr k a).addr img j = if j = k then a else d.addr img j := by
  unfold addr
  rw [addrs_setAddr, addrs_setAddr, if_neg (Nat.ne_of_gt hk)]
  split_ifs <;> first | rfl | omega

/-- An entry of the indirect block is one of the file's addresses. -/
theorem addr_setWord (img : Nat → Block) {j : Nat} (hn : d.addrs NDIRECT ≠ 0) (hk : NDIRECT ≤ k) (hj : j < MAXFILE)
    (ha : a < 2 ^ 32) :
    d.addr (Function.update img (d.addrs NDIRECT) ((img (d.addrs NDIRECT)).setWord (k - NDIRECT) a)) j =
      if j = k then a else d.addr img j := by
  have hM : MAXFILE = NDIRECT + NINDIRECT := rfl
  unfold addr
  rw [if_neg hn, if_neg hn, Function.update_self]
  split
  · rw [if_neg (by omega)]
  · rw [Block.word_setWord (by omega) ha]
    split_ifs <;> first | rfl | omega

/-- Where no block is referred to twice, a file's blocks are different blocks. -/
theorem addr_inj {k' : Nat} (hnd : (d.refs img).Nodup) (hk : k < MAXFILE) (hk' : k' < MAXFILE) (hne : d.addr img k ≠ 0)
    (he : d.addr img k = d.addr img k') : k = k' := by
  by_contra hkk
  rw [refs, Multiset.nodup_add, ← Finset.add_sum_erase _ _ (Finset.mem_range.mpr hk), Multiset.nodup_add] at hnd
  refine Multiset.disjoint_left.mp hnd.2.1.2.2 (mem_ref.mpr ⟨hne, rfl⟩) (Multiset.mem_sum.mpr ⟨k', ?_, ?_⟩)
  · exact Finset.mem_erase.mpr ⟨Ne.symm hkk, Finset.mem_range.mpr hk'⟩
  · exact mem_ref.mpr ⟨he ▸ hne, he⟩

theorem addr_ne_indirect (hnd : (d.refs img).Nodup) (hk : k < MAXFILE) (hne : d.addr img k ≠ 0) :
    d.addr img k ≠ d.addrs NDIRECT := by
  intro he
  rw [refs, Multiset.nodup_add] at hnd
  refine Multiset.disjoint_left.mp hnd.2.2 (mem_ref.mpr ⟨he ▸ hne, he⟩) (Multiset.mem_sum.mpr ⟨k, ?_, ?_⟩)
  · exact Finset.mem_range.mpr hk
  · exact mem_ref.mpr ⟨hne, rfl⟩

/-- A block added to a file is one more reference. -/
theorem sum_ref_update {f g : Nat → Nat} (hk : k < MAXFILE) (h0 : f k = 0) (hg : ∀ j < MAXFILE, j ≠ k → g j = f j) :
    ∑ j ∈ Finset.range MAXFILE, ref (g j) = ref (g k) + ∑ j ∈ Finset.range MAXFILE, ref (f j) := by
  rw [← Finset.add_sum_erase _ _ (Finset.mem_range.mpr hk),
    ← Finset.add_sum_erase _ (fun j => ref (f j)) (Finset.mem_range.mpr hk), h0, ref_zero, zero_add]
  exact congrArg _ (Finset.sum_congr rfl fun j hj => by
    rw [hg j (Finset.mem_range.mp (Finset.mem_of_mem_erase hj)) (Finset.ne_of_mem_erase hj)])

/-- A new direct block. -/
theorem refs_setAddr (hk : k < NDIRECT) (h0 : d.addrs k = 0) (ha : a ≠ 0) :
    (d.setAddr k a).refs img = {a} + d.refs img := by
  have hM : k < MAXFILE := Nat.lt_add_right _ hk
  have hN : (d.setAddr k a).addrs NDIRECT = d.addrs NDIRECT := by rw [addrs_setAddr, if_neg (Nat.ne_of_gt hk)]
  rw [refs, sum_ref_update hM ((addr_direct hk).trans h0) fun j _ hj => by rw [addr_setAddr hk, if_neg hj],
    addr_setAddr hk, if_pos rfl, ref_of_ne ha, hN, add_left_comm, refs]

/-- A new indirect block lists nothing. -/
theorem addr_setIndirect (h0 : d.addrs NDIRECT = 0) (hz : img a = Buffer.fill 0) :
    (d.setAddr NDIRECT a).addr img = d.addr img := by
  have hN : (d.setAddr NDIRECT a).addrs NDIRECT = a := by rw [addrs_setAddr, if_pos rfl]
  funext j
  unfold addr
  rw [hN, addrs_setAddr, h0, hz, Block.word_fill]
  split_ifs <;> first | rfl | omega

theorem refs_setIndirect (h0 : d.addrs NDIRECT = 0) (hz : img a = Buffer.fill 0) (ha : a ≠ 0) :
    (d.setAddr NDIRECT a).refs img = {a} + d.refs img := by
  have hN : (d.setAddr NDIRECT a).addrs NDIRECT = a := by rw [addrs_setAddr, if_pos rfl]
  rw [refs, addr_setIndirect h0 hz, hN, ref_of_ne ha, refs, h0, ref_zero, zero_add]

/-- A new entry of the indirect block. -/
theorem refs_setWord (hn : d.addrs NDIRECT ≠ 0) (hk : NDIRECT ≤ k) (hm : k < MAXFILE) (h0 : d.addr img k = 0)
    (ha : a ≠ 0) (hlt : a < 2 ^ 32) :
    d.refs (Function.update img (d.addrs NDIRECT) ((img (d.addrs NDIRECT)).setWord (k - NDIRECT) a)) =
      {a} + d.refs img := by
  rw [refs, sum_ref_update hm h0 fun j hj hne => by rw [addr_setWord img hn hk hj hlt, if_neg hne],
    addr_setWord img hn hk hm hlt, if_pos rfl, ref_of_ne ha, add_left_comm, refs]

theorem indirect_mem (img : Nat → Block) (hn : d.addrs NDIRECT ≠ 0) : d.addrs NDIRECT ∈ d.refs img :=
  mem_refs.mpr ⟨hn, .inl rfl⟩

theorem addr_mem (hk : k < MAXFILE) (hne : d.addr img k ≠ 0) : d.addr img k ∈ d.refs img :=
  mem_refs.mpr ⟨hne, .inr ⟨k, hk, rfl⟩⟩

end Dinode

/-- The blocks that allocated inodes refer to. -/
def Superblock.refs (sb : Superblock) (img : Nat → Block) : Multiset Nat :=
  ∑ i ∈ Finset.range sb.ninodes, if (sb.inode img i).type = 0 then 0 else (sb.inode img i).refs img

/-- The blocks of a file of `n` bytes. -/
def blocksOf (n : Nat) : Nat := (n + BSIZE - 1) / BSIZE

theorem blocksOf_le {n m : Nat} (h : n ≤ m * BSIZE) : blocksOf n ≤ m := by
  simp only [blocksOf, BSIZE] at h ⊢
  omega

end Xv6
