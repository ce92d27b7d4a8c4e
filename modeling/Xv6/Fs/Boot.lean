/-
The kernel boots on an image mkfs made: the superblock is mkfs's, recovery finds an empty
log, and unless the root directory has the hole mkfs leaves in it, the account of the
blocks is exact.
-/
import Xv6.Fs.Table
import Xv6.Log.Crash
import Xv6.Mkfs.Image

namespace Xv6.Fs

open Lib Mkfs

theorem sound_sb : Mkfs.sb.Sound where
  size := by decide
  inodes i hi := by
    have h := (IBLOCK_lt hi).2
    have hne := IBLOCK_ne hi
    have hb : Mkfs.sb.bmapstart + 1 = nmeta := by decide
    omega
  data := by decide
  bitmap b hb := by
    have h0 : b / BPB = 0 := Nat.div_eq_of_lt (hb.trans (by decide))
    rw [Superblock.BBLOCK, h0]
    decide

/-- The state fsinit leaves on an image. -/
structure Booted (t : Image) (s : State) : Prop where
  sb : s.sb = Mkfs.sb
  block : ∀ b, b ≠ Mkfs.sb.logstart → s.block b = t.sect b
  disk : s.disk = s.block
  lh : s.lh = []
  outstanding : s.outstanding = 0
  itable : s.itable = fun _ => {}

variable {files : List Input} {t : Image} {s : State}

theorem fsinit_made (h : Made files t) : ∃ s, fsinit t.sect = .ok s ∧ Booted t s := by
  have hsb : Superblock.decode (t.sect 1) = Mkfs.sb := by
    rw [h.super]
    exact Superblock.decode_encode ⟨by decide, by decide, by decide, by decide, by decide, by decide, by decide, by decide⟩
  have hempty : Log.EmptyHead { start := Mkfs.sb.logstart, size := Mkfs.sb.nlog } t.sect := by
    have hzero : t.sect Mkfs.sb.logstart = Buffer.fill 0 := h.log _ le_rfl (by decide)
    unfold Log.EmptyHead Log.headCount
    dsimp only
    rw [hzero, Buffer.getLE_fill_zero]
    rfl
  obtain ⟨hb, hdoes⟩ := Log.recover_emptyHead hempty
  refine ⟨_, by rw [fsinit, hsb, if_neg (by decide)], rfl, fun b hne => ?_, ?_, rfl, rfl, rfl⟩
  · rw [hdoes.view]
    exact Function.update_of_ne hne _ _
  · rw [hdoes.view, hdoes.disk]
    rfl

theorem datastart_sb : Mkfs.sb.datastart = nmeta := by decide

theorem BBLOCK_sb {b : Nat} (hb : b < FSSIZE) : Mkfs.sb.BBLOCK b = Mkfs.sb.bmapstart ∧ b % BPB = b := by
  have hlt : b < BPB := hb.trans (by decide)
  rw [Superblock.BBLOCK, Nat.div_eq_of_lt hlt, Nat.zero_add]
  exact ⟨rfl, Nat.mod_eq_of_lt hlt⟩

theorem inUse_made (h : Made files t) {b : Nat} (hb : b < FSSIZE) :
    Mkfs.sb.inUse t.sect b = decide (b < t.freeblock) := by
  rw [Superblock.inUse, (BBLOCK_sb hb).1, (BBLOCK_sb hb).2, h.bitmap]
  exact bit_bitmap (hb.trans (by decide))

theorem owned_made (h : Made files t) (hfit : Fits files) (hn : (files.length + 2) % 64 ≠ 0) :
    Owned Mkfs.sb (Mkfs.sb.inode t.sect) t.sect 0 where
  wf i _ := Dinode.decode_wf
  full := ((h.consistent_iff hfit).mpr hn).mapped
  nodup := by
    rw [add_zero, ← Superblock.refs_eq, h.refs]
    exact Finset.nodup _
  range b hb := by
    rw [add_zero, ← Superblock.refs_eq, h.refs, mem_handedOut] at hb
    rw [datastart_sb]
    exact ⟨hb.1, hb.2.trans_le h.hi⟩
  bit b hb := by
    rw [add_zero, ← Superblock.refs_eq, h.refs, mem_handedOut, datastart_sb, inUse_made h hb, decide_eq_true_eq]
    have := h.lo
    omega

/-- Metadata and data are as mkfs left them. -/
theorem Booted.inode (h : Booted t s) {i : Nat} (hi : i < NINODES) : Mkfs.sb.inode s.block i = Mkfs.sb.inode t.sect i := by
  have hib := (IBLOCK_lt hi).1
  have hlog : Mkfs.sb.logstart < 2 + nlog := by decide
  exact Superblock.inode_congr (h.block _ (by omega))

theorem Booted.bitmap (h : Booted t s) {b : Nat} (hb : b < FSSIZE) :
    s.block (Mkfs.sb.BBLOCK b) = t.sect (Mkfs.sb.BBLOCK b) := by
  rw [(BBLOCK_sb hb).1]
  exact h.block _ (by decide)

theorem Booted.owned (h : Booted t s) (hm : Made files t) (hfit : Fits files) (hn : (files.length + 2) % 64 ≠ 0) :
    Owned Mkfs.sb (Mkfs.sb.inode s.block) s.block 0 := by
  have hown := owned_made hm hfit hn
  have hlog : Mkfs.sb.logstart < nmeta := by decide
  refine (hown.congr (fun b hb => h.bitmap hb) fun i hi ht hne => ?_).congr_inodes fun i hi => h.inode hi
  have hr := (hown.range_of hi (Dinode.indirect_owned ht hne)).1
  rw [datastart_sb] at hr
  exact h.block _ (by omega)

theorem Booted.dinode (h : Booted t s) {i : Nat} : s.dinode i = Mkfs.sb.inode s.block i := by
  have hnone : s.entry i = none := List.find?_eq_none.mpr fun ip _ => by simp [h.itable]
  unfold State.dinode
  rw [hnone, h.sb]

/-- **The kernel starts with a consistent file system.** -/
theorem Booted.consistent (h : Booted t s) (hm : Made files t) (hfit : Fits files) (hn : (files.length + 2) % 64 ≠ 0) :
    s.Consistent where
  sound := h.sb ▸ sound_sb
  keyed ip jp hr := by
    rw [h.itable] at hr
    exact absurd hr (lt_irrefl 0)
  owned := by
    rw [h.sb]
    exact (h.owned hm hfit hn).congr_inodes fun i _ => h.dinode

/-- What an allocated inode refers to is as mkfs left it. -/
theorem Booted.block_of_ref (h : Booted t s) (hm : Made files t) {i b : Nat} (hi : i < NINODES)
    (ht : (Mkfs.sb.inode t.sect i).type ≠ 0) (hb : b ∈ (Mkfs.sb.inode t.sect i).refs t.sect) : s.block b = t.sect b := by
  have hmem : b ∈ Mkfs.sb.refs t.sect := by
    rw [Superblock.refs_eq, Superblock.mem_refsOf]
    exact ⟨i, hi, by rwa [Dinode.owns_of_ne ht]⟩
  rw [hm.refs, mem_handedOut] at hmem
  have hlog : Mkfs.sb.logstart < nmeta := by decide
  exact h.block b (by omega)

/-- The bytes of a file that are on the image, up to the end of its last block. -/
theorem Booted.held (h : Booted t s) (hm : Made files t) {i : Nat} {c : List UInt8} (hi : i < NINODES)
    (ht : (Mkfs.sb.inode t.sect i).type ≠ 0) (hM : blocksOf c.length ≤ MAXFILE)
    (hc : Mkfs.Holds t.sect (Mkfs.sb.inode t.sect i) c) {p : Nat} (hp : p < blocksOf c.length * BSIZE) :
    (Mkfs.sb.inode s.block i).addr s.block (p / BSIZE) ≠ 0 ∧ (Mkfs.sb.inode s.block i).byte s.block p = c.getD p 0 := by
  have haddr : (Mkfs.sb.inode t.sect i).addr s.block = (Mkfs.sb.inode t.sect i).addr t.sect :=
    Dinode.addr_congr fun hn => h.block_of_ref hm hi ht (Dinode.indirect_mem _ hn)
  have hk : p / BSIZE < blocksOf c.length := Nat.div_lt_of_lt_mul (by rwa [Nat.mul_comm])
  have hne := (hc.mapped.addr _ (by omega)).mpr hk
  rw [h.inode hi, Dinode.byte, haddr, h.block_of_ref hm hi ht (Dinode.addr_mem (by omega) hne)]
  exact ⟨hne, hc.byte p hp⟩

/-- **A file the kernel finds on the image** has the bytes mkfs was given. -/
theorem Booted.file_bytes (h : Booted t s) (hm : Made files t) (hfit : Fits files) {i : Nat} {f : Input}
    (hf : files[i]? = some f) : (Mkfs.sb.inode s.block (i + 2)).bytes s.block = f.bytes := by
  have hcount := hfit.count
  have hN : NINODES = 200 := rfl
  have hlen := (List.getElem?_eq_some_iff.mp hf).1
  have hi : i + 2 < NINODES := by omega
  obtain ⟨hfields, hholds⟩ := hm.file i f hf
  have ht : (Mkfs.sb.inode t.sect (i + 2)).type ≠ 0 := by
    rw [hfields]
    exact (by decide : T_FILE ≠ 0)
  have hsize : (Mkfs.sb.inode s.block (i + 2)).size = f.bytes.length := by rw [h.inode hi, hfields]
  have hM := blocksOf_le (hfit.size f (List.mem_of_getElem? hf))
  refine List.ext_getElem? fun p => ?_
  rw [Dinode.bytes, Dinode.getElem?_segment, Nat.zero_add, hsize]
  split
  · next hp =>
    have hpk : p < blocksOf f.bytes.length * BSIZE := by
      simp only [blocksOf, BSIZE]
      omega
    rw [(h.held hm hi ht hM hholds hpk).2, List.getD_eq_getElem?_getD, List.getElem?_eq_getElem hp]
    rfl
  · next hp => rw [List.getElem?_eq_none (by omega)]

theorem Booted.free (h : Booted t s) (hm : Made files t) : s.sb.free s.block = Finset.Ico t.freeblock FSSIZE := by
  ext b
  rw [Superblock.mem_free, Finset.mem_Ico, h.sb, and_comm]
  refine and_congr_left fun hb => ?_
  rw [Superblock.inUse_congr (h.bitmap hb), inUse_made hm hb, decide_eq_false_iff_not, Nat.not_lt]

/-! ## A process at work -/

/-- After begin_op, iget and ilock of `inum` on a table that was empty. -/
def State.working (s : State) (inum : Nat) : State :=
  { s with
    outstanding := 1
    itable := Function.update s.itable 0 { inum, ref := 1, locked := true, valid := true, d := s.sb.inode s.block inum } }

theorem Booted.working_zero (h : Booted t s) (i : Nat) {ip : Fin NINODE} (hr : 0 < ((s.working i).itable ip).ref) :
    ip = 0 := by
  by_contra hne
  rw [State.working, h.itable] at hr
  dsimp only at hr
  rw [Function.update_of_ne hne] at hr
  exact absurd hr (lt_irrefl 0)

theorem Booted.working_keyed (h : Booted t s) (i : Nat) : (s.working i).Keyed := by
  intro ip jp hi hj _
  rw [h.working_zero i hi, h.working_zero i hj]

theorem Booted.working_dinode (h : Booted t s) (i j : Nat) : (s.working i).dinode j = Mkfs.sb.inode s.block j := by
  unfold State.dinode
  cases he : (s.working i).entry j with
  | none =>
    dsimp only [State.working]
    rw [h.sb]
  | some ip =>
    obtain ⟨hr, hj⟩ := (State.entry_some (h.working_keyed i)).mp he
    obtain rfl := h.working_zero i hr
    rw [← hj]
    simp [State.working, h.sb]

theorem Booted.working_consistent (h : Booted t s) (hm : Made files t) (hfit : Fits files)
    (hn : (files.length + 2) % 64 ≠ 0) (i : Nat) : (s.working i).Consistent where
  sound := h.sb ▸ sound_sb
  keyed := h.working_keyed i
  owned := by
    change Owned s.sb _ s.block 0
    rw [h.sb]
    exact (h.owned hm hfit hn).congr_inodes fun j _ => h.working_dinode i j

/-- The image of one small file, booted. -/
theorem boot_hello : ∃ t s, main [hello] {} = .ok ((), t) ∧ fsinit t.sect = .ok s ∧ Booted t s ∧ Made [hello] t ∧
    t.freeblock = 48 := by
  have hfit : Fits [hello] := ⟨by decide, by decide, by decide, by decide⟩
  obtain ⟨_, t, ht, hm, hused⟩ := main_used hfit
  obtain ⟨s, hs, hb⟩ := fsinit_made hm
  exact ⟨t, s, ht, hs, hb, hm, hused.trans (by decide)⟩

end Xv6.Fs
