/-
Who owns which block. `Owned sb I blk X` is the exact account of a disk whose inodes are
`I`: the bitmap has the bit of a block set if the block is metadata, if one address slot
of one allocated inode refers to it, or if it is in `X`, the blocks that are taken and
not yet in a slot; no block is referred to twice; and files have no holes. The inodes are
a parameter because between a change of the in-memory inode and iupdate the disk is behind.
-/
import Xv6.Fs.Layout

namespace Xv6

open Lib

/-- The blocks an inode refers to, if it is allocated. -/
def Dinode.owns (d : Dinode) (blk : Nat → Block) : Multiset Nat := if d.type = 0 then 0 else d.refs blk

namespace Dinode

variable {d : Dinode} {blk blk' : Nat → Block}

theorem owns_of_ne (h : d.type ≠ 0) : d.owns blk = d.refs blk := if_neg h

/-- The indirect block of an allocated inode is as it was. -/
def SameIndirect (d : Dinode) (blk blk' : Nat → Block) : Prop :=
  d.type ≠ 0 → d.addrs NDIRECT ≠ 0 → blk' (d.addrs NDIRECT) = blk (d.addrs NDIRECT)

theorem owns_congr (h : d.SameIndirect blk blk') : d.owns blk' = d.owns blk := by
  unfold owns
  split
  · rfl
  · next ht => exact refs_congr (h ht)

theorem indirect_owned (ht : d.type ≠ 0) (hn : d.addrs NDIRECT ≠ 0) : d.addrs NDIRECT ∈ d.owns blk := by
  rw [owns_of_ne ht]
  exact indirect_mem blk hn

end Dinode

namespace Superblock

/-- The first data block. -/
def datastart (sb : Superblock) : Nat := sb.size - sb.nblocks

/-- The areas of the disk are apart: the inodes before the bitmap, the bitmap before the data. -/
structure Sound (sb : Superblock) : Prop where
  size : sb.size < 2 ^ 32
  inodes : ∀ i < sb.ninodes, sb.IBLOCK i < sb.bmapstart
  data : sb.bmapstart ≤ sb.datastart
  bitmap : ∀ b < sb.size, sb.BBLOCK b < sb.datastart

/-- The bit of a block in the bitmap. -/
def inUse (sb : Superblock) (blk : Nat → Block) (b : Nat) : Bool := Buffer.bit (blk (sb.BBLOCK b)) (b % BPB)

/-- What the inodes `I` refer to. -/
def refsOf (sb : Superblock) (I : Nat → Dinode) (blk : Nat → Block) : Multiset Nat :=
  ∑ i ∈ Finset.range sb.ninodes, (I i).owns blk

variable {sb : Superblock} {I I' : Nat → Dinode} {blk blk' : Nat → Block} {a b i : Nat} {d : Dinode}

theorem refs_eq : sb.refs blk = sb.refsOf (sb.inode blk) blk := rfl

theorem mem_refsOf : b ∈ sb.refsOf I blk ↔ ∃ i < sb.ninodes, b ∈ (I i).owns blk := by
  simp only [refsOf, Multiset.mem_sum, Finset.mem_range]

theorem refsOf_congr (h : ∀ i < sb.ninodes, (I' i).owns blk' = (I i).owns blk) : sb.refsOf I' blk' = sb.refsOf I blk :=
  Finset.sum_congr rfl fun i hi => h i (Finset.mem_range.mp hi)

/-- One inode's part of the references. -/
theorem refsOf_split (I : Nat → Dinode) (blk : Nat → Block) (hi : i < sb.ninodes) :
    sb.refsOf I blk = (I i).owns blk + ∑ j ∈ (Finset.range sb.ninodes).erase i, (I j).owns blk :=
  (Finset.add_sum_erase _ (fun j => (I j).owns blk) (Finset.mem_range.mpr hi)).symm

/-- Replacing one inode replaces its part. -/
theorem refsOf_update (hi : i < sb.ninodes)
    (ho : ∀ j < sb.ninodes, j ≠ i → (I j).owns blk' = (I j).owns blk) :
    sb.refsOf (Function.update I i d) blk' + (I i).owns blk = sb.refsOf I blk + d.owns blk' := by
  have hrest : ∑ j ∈ (Finset.range sb.ninodes).erase i, (Function.update I i d j).owns blk' =
      ∑ j ∈ (Finset.range sb.ninodes).erase i, (I j).owns blk := by
    refine Finset.sum_congr rfl fun j hj => ?_
    rw [Function.update_of_ne (Finset.ne_of_mem_erase hj)]
    exact ho j (Finset.mem_range.mp (Finset.mem_of_mem_erase hj)) (Finset.ne_of_mem_erase hj)
  rw [refsOf_split _ _ hi, refsOf_split I blk hi, Function.update_self, hrest]
  rw [add_right_comm, add_comm (d.owns blk'), add_right_comm]

theorem BBLOCK_inj {b' : Nat} (hb : sb.BBLOCK b' = sb.BBLOCK b) (hm : b' % BPB = b % BPB) : b' = b := by
  unfold BBLOCK at hb
  rw [← Nat.div_add_mod b' BPB, ← Nat.div_add_mod b BPB, hm, Nat.add_right_cancel hb]

theorem mod_BPB_lt (b : Nat) : b % BPB / 8 < BSIZE :=
  Nat.div_lt_of_lt_mul ((Nat.mod_lt b (by decide)).trans_eq (Nat.mul_comm BSIZE 8))

theorem inUse_setBit {b' : Nat} :
    sb.inUse (Function.update blk (sb.BBLOCK b) (Buffer.setBit (blk (sb.BBLOCK b)) (b % BPB))) b' =
      (decide (b' = b) || sb.inUse blk b') := by
  unfold inUse
  by_cases hB : sb.BBLOCK b' = sb.BBLOCK b
  · rw [hB, Function.update_self, Buffer.bit_setBit (mod_BPB_lt b')]
    congr 1
    simp only [decide_eq_decide]
    exact ⟨BBLOCK_inj hB, fun h => by rw [h]⟩
  · have hne : b' ≠ b := fun h => hB (by rw [h])
    rw [Function.update_of_ne hB]
    simp [hne]

theorem inUse_congr (h : blk' (sb.BBLOCK b) = blk (sb.BBLOCK b)) : sb.inUse blk' b = sb.inUse blk b := by
  rw [inUse, h, inUse]

/-- The blocks that are not in use. -/
def free (sb : Superblock) (blk : Nat → Block) : Finset Nat := (Finset.range sb.size).filter fun b => !sb.inUse blk b

theorem mem_free : b ∈ sb.free blk ↔ b < sb.size ∧ sb.inUse blk b = false := by
  simp [free]

end Superblock

namespace Fs

/-- **Exact ownership** of the blocks, `X` being taken but in no slot. -/
structure Owned (sb : Superblock) (I : Nat → Dinode) (blk : Nat → Block) (X : Multiset Nat) : Prop where
  wf : ∀ i < sb.ninodes, (I i).Wf
  full : ∀ i < sb.ninodes, (I i).type ≠ 0 → ∀ k < blocksOf (I i).size, (I i).addr blk k ≠ 0
  nodup : (sb.refsOf I blk + X).Nodup
  range : ∀ b ∈ sb.refsOf I blk + X, sb.datastart ≤ b ∧ b < sb.size
  bit : ∀ b < sb.size, sb.inUse blk b = true ↔ b < sb.datastart ∨ b ∈ sb.refsOf I blk + X

variable {sb : Superblock} {I I' : Nat → Dinode} {blk blk' : Nat → Block} {X X' : Multiset Nat} {a b i j k : Nat}
  {d : Dinode}

namespace Owned

/-- Nothing but the references and the bits matters, and that there are no holes. -/
theorem of_refs (h : Owned sb I blk X) (hwf : ∀ i < sb.ninodes, (I' i).Wf)
    (hfull : ∀ i < sb.ninodes, (I' i).type ≠ 0 → ∀ k < blocksOf (I' i).size, (I' i).addr blk' k ≠ 0)
    (hrefs : sb.refsOf I' blk' + X' = sb.refsOf I blk + X)
    (hbit : ∀ b < sb.size, sb.inUse blk' b = sb.inUse blk b) : Owned sb I' blk' X' :=
  ⟨hwf, hfull, hrefs ▸ h.nodup, fun b hb => h.range b (hrefs ▸ hb), fun b hb => by rw [hbit b hb, hrefs, h.bit b hb]⟩

theorem mem_of_owns (hi : i < sb.ninodes) (hb : b ∈ (I i).owns blk) : b ∈ sb.refsOf I blk + X :=
  Multiset.mem_add.mpr (.inl (Superblock.mem_refsOf.mpr ⟨i, hi, hb⟩))

theorem range_of (h : Owned sb I blk X) (hi : i < sb.ninodes) (hb : b ∈ (I i).owns blk) :
    sb.datastart ≤ b ∧ b < sb.size := h.range b (mem_of_owns hi hb)

theorem nodup_of (h : Owned sb I blk X) (hi : i < sb.ninodes) : ((I i).owns blk).Nodup := by
  have hnd := (Multiset.nodup_add.mp h.nodup).1
  rw [Superblock.refsOf_split I blk hi] at hnd
  exact (Multiset.nodup_add.mp hnd).1

/-- Two inodes have no block in common. -/
theorem apart (h : Owned sb I blk X) (hi : i < sb.ninodes) (hj : j < sb.ninodes) (hij : j ≠ i) (hb : b ∈ (I i).owns blk) :
    b ∉ (I j).owns blk := by
  have hnd := (Multiset.nodup_add.mp h.nodup).1
  rw [Superblock.refsOf_split I blk hi] at hnd
  intro hbj
  refine Multiset.disjoint_left.mp (Multiset.nodup_add.mp hnd).2.2 hb (Multiset.mem_sum.mpr ⟨j, ?_, hbj⟩)
  exact Finset.mem_erase.mpr ⟨hij, Finset.mem_range.mpr hj⟩

theorem pos (hs : sb.Sound) (hb : sb.datastart ≤ b ∧ b < sb.size) : b ≠ 0 := by
  have := hs.bitmap b hb.2
  omega

/-- Without holes, a file is no larger than its addresses reach. -/
theorem size_le (h : Owned sb I blk X) (hi : i < sb.ninodes) (ht : (I i).type ≠ 0) :
    blocksOf (I i).size ≤ MAXFILE := by
  have hM : MAXFILE = 268 := rfl
  have hN : NDIRECT = 12 := rfl
  by_contra hlt
  refine h.full i hi ht MAXFILE (by omega) ?_
  unfold Dinode.addr
  rw [if_neg (by omega)]
  split
  · rfl
  · exact Block.word_of_le (by decide)

theorem full_congr (h : Owned sb I blk X) (hi : i < sb.ninodes) (hind : (I i).SameIndirect blk blk')
    (ht : (I i).type ≠ 0) (hk : k < blocksOf (I i).size) : (I i).addr blk' k ≠ 0 := by
  rw [Dinode.addr_congr (hind ht)]
  exact h.full i hi ht k hk

/-- The blocks that are neither bitmap blocks nor indirect ones can have any contents. -/
theorem congr (h : Owned sb I blk X) (hbm : ∀ b < sb.size, blk' (sb.BBLOCK b) = blk (sb.BBLOCK b))
    (hind : ∀ i < sb.ninodes, (I i).SameIndirect blk blk') : Owned sb I blk' X := by
  refine h.of_refs h.wf (fun i hi ht k hk => ?_) ?_ fun b hb => Superblock.inUse_congr (hbm b hb)
  · exact h.full_congr hi (hind i hi) ht hk
  · rw [Superblock.refsOf_congr fun i hi => Dinode.owns_congr (hind i hi)]

/-- Inode `i` is replaced; what it refers to comes from what it had and from `X`. -/
theorem replace (h : Owned sb I blk X) (hi : i < sb.ninodes) (hwf : d.Wf)
    (hfull : d.type ≠ 0 → ∀ k < blocksOf d.size, d.addr blk' k ≠ 0)
    (hrefs : d.owns blk' + X' = (I i).owns blk + X) (hbm : ∀ b < sb.size, blk' (sb.BBLOCK b) = blk (sb.BBLOCK b))
    (ho : ∀ j < sb.ninodes, j ≠ i → (I j).SameIndirect blk blk') : Owned sb (Function.update I i d) blk' X' := by
  refine h.of_refs (fun j hj => ?_) (fun j hj ht k hk => ?_) ?_ fun b hb => Superblock.inUse_congr (hbm b hb)
  · by_cases hij : j = i
    · rw [hij, Function.update_self]
      exact hwf
    · rw [Function.update_of_ne hij]
      exact h.wf j hj
  · by_cases hij : j = i
    · rw [hij, Function.update_self] at ht hk ⊢
      exact hfull ht k hk
    · rw [Function.update_of_ne hij] at ht hk ⊢
      exact h.full_congr hj (ho j hj hij) ht hk
  · have hupd := Superblock.refsOf_update (d := d) hi fun j hj hij => Dinode.owns_congr (ho j hj hij)
    refine add_right_cancel (b := (I i).owns blk) ?_
    rw [add_right_comm, hupd, add_assoc, hrefs, add_left_comm, add_comm]

/-! ## balloc -/

/-- A block that is not in use is in nobody's hands. -/
theorem not_mem (h : Owned sb I blk X) (hb : b < sb.size) (hfree : sb.inUse blk b = false) :
    sb.datastart ≤ b ∧ b ∉ sb.refsOf I blk + X := by
  have hnot := mt (h.bit b hb).mpr (by simp [hfree])
  simp only [not_or, Nat.not_lt] at hnot
  exact hnot

theorem alloc (hs : sb.Sound) (h : Owned sb I blk X) (hb : b < sb.size) (hfree : sb.inUse blk b = false) (c : Block)
    (hblk : blk' = Function.update (Function.update blk (sb.BBLOCK b) (Buffer.setBit (blk (sb.BBLOCK b)) (b % BPB))) b c) :
    Owned sb I blk' (b ::ₘ X) := by
  obtain ⟨hdata, hnot⟩ := h.not_mem hb hfree
  have hsame (b' : Nat) (hb' : b' ∈ sb.refsOf I blk + X) : blk' b' = blk b' := by
    have hne : b' ≠ b := fun he => hnot (he ▸ hb')
    have hm := hs.bitmap b hb
    rw [hblk, Function.update_of_ne hne, Function.update_of_ne (by have := (h.range b' hb').1; omega)]
  have hind (i : Nat) (hi : i < sb.ninodes) : (I i).SameIndirect blk blk' := fun ht hn =>
    hsame _ (mem_of_owns hi (Dinode.indirect_owned ht hn))
  have hrefs := Superblock.refsOf_congr fun i hi => Dinode.owns_congr (hind i hi)
  have hadd : sb.refsOf I blk' + b ::ₘ X = b ::ₘ (sb.refsOf I blk + X) := by
    rw [hrefs, Multiset.add_cons]
  refine ⟨h.wf, fun i hi ht k hk => ?_, ?_, fun b' hb' => ?_, fun b' hb' => ?_⟩
  · exact h.full_congr hi (hind i hi) ht hk
  · rw [hadd]
    exact Multiset.nodup_cons.mpr ⟨hnot, h.nodup⟩
  · rw [hadd] at hb'
    rcases Multiset.mem_cons.mp hb' with rfl | hmem
    · exact ⟨hdata, hb⟩
    · exact h.range b' hmem
  · have hbm := hs.bitmap b' hb'
    rw [hadd, Multiset.mem_cons, hblk, Superblock.inUse_congr (Function.update_of_ne (by omega) _ _),
      Superblock.inUse_setBit, Bool.or_eq_true, h.bit b' hb', decide_eq_true_eq, or_left_comm]

end Owned

end Fs

end Xv6
