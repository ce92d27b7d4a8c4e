/-
A file is an array of bytes. readi returns the bytes of a range, writei replaces them, as
many as there are blocks for, and neither touches another file. The source of a write
gives the bytes it has and fails when asked for more; what is in the block by then stays
there.
-/
import Xv6.Fs.Blocks

namespace Xv6

open Lib

namespace Dinode

/-- Byte `p` of a file. -/
def byte (d : Dinode) (blk : Nat → Block) (p : Nat) : UInt8 := Buffer.bytes (blk (d.addr blk (p / BSIZE))) (p % BSIZE)

/-- `size = n` -/
def setSize (d : Dinode) (n : Nat) : Dinode := { d with size := n }

theorem owns_setSize {d : Dinode} {n : Nat} {blk : Nat → Block} : (d.setSize n).owns blk = d.owns blk := by
  unfold owns
  exact if_congr Iff.rfl rfl (refs_of_addrs rfl)

theorem Wf.setSize {d : Dinode} {n : Nat} (h : d.Wf) (hn : n < 2 ^ 32) : (d.setSize n).Wf := { h with size := hn }

/-- The `n` bytes from `off` on. -/
def segment (d : Dinode) (blk : Nat → Block) (off n : Nat) : List UInt8 := (List.range n).map fun i => d.byte blk (off + i)

/-- **The contents** of a file. -/
def bytes (d : Dinode) (blk : Nat → Block) : List UInt8 := d.segment blk 0 d.size

variable {d : Dinode} {blk : Nat → Block} {off n m : Nat}

theorem length_segment : (d.segment blk off n).length = n := by simp [segment]

theorem getElem?_segment {i : Nat} : (d.segment blk off n)[i]? = if i < n then some (d.byte blk (off + i)) else none := by
  unfold segment
  split
  · next h => simp [h]
  · next h => simpa using h

theorem segment_add : d.segment blk off (m + n) = d.segment blk off m ++ d.segment blk (off + m) n := by
  unfold segment
  rw [List.range_add, List.map_append, List.map_map]
  simp [Function.comp_def, Nat.add_assoc]

theorem length_bytes : (d.bytes blk).length = d.size := length_segment

theorem take_drop_bytes : ((d.bytes blk).drop off).take n = d.segment blk off (min n (d.size - off)) := by
  refine List.ext_getElem? fun i => ?_
  rw [List.getElem?_take, List.getElem?_drop, bytes, getElem?_segment, getElem?_segment]
  split_ifs <;> simp_all <;> omega

/-- What is read from one block. -/
theorem read_block (h : off % BSIZE + m ≤ BSIZE) :
    Buffer.read (blk (d.addr blk (off / BSIZE))) (off % BSIZE) m = d.segment blk off m := by
  unfold Buffer.read segment byte
  refine List.map_congr_left fun i hi => ?_
  rw [List.mem_range] at hi
  simp only [BSIZE] at h
  have hdiv : (off + i) / BSIZE = off / BSIZE := by
    simp only [BSIZE]
    omega
  have hmod : (off + i) % BSIZE = off % BSIZE + i := by
    simp only [BSIZE]
    omega
  rw [hdiv, hmod]

end Dinode

namespace Fs

variable {D : Nat → Prop} {s : State} {I : Nat → Dinode} {X : Multiset Nat} {ip : Fin NINODE} {k off n : Nat}

/-! ## readi -/

theorem bmap_mapped (hk : k < MAXFILE) (hne : (s.itable ip).d.addr s.block k ≠ 0) :
    bmap ip k s = .ok ((s.itable ip).d.addr s.block k, s) := by
  have hM : MAXFILE = NDIRECT + NINDIRECT := rfl
  unfold bmap
  rw [inode_bind]
  by_cases hd : k < NDIRECT
  · rw [Dinode.addr_direct hd] at hne ⊢
    rw [if_pos hd, if_neg hne]
    rfl
  · have hn : (s.itable ip).d.addrs NDIRECT ≠ 0 := by
      intro h0
      unfold Dinode.addr at hne
      rw [if_neg hd, if_pos h0] at hne
      exact hne rfl
    rw [Dinode.addr_indirect (by omega) hn] at hne ⊢
    rw [if_neg hd, if_pos (by omega), if_neg hn]
    unfold bmapIndirect
    rw [bread_bind]
    rw [if_neg hne]
    rfl

/-- Every block below the end of the file is there. -/
def Solid (d : Dinode) (blk : Nat → Block) : Prop :=
  blocksOf d.size ≤ MAXFILE ∧ ∀ k < blocksOf d.size, d.addr blk k ≠ 0

theorem Owned.solid {i : Nat} (h : Owned s.sb I s.block X) (hi : i < s.sb.ninodes) (ht : (I i).type ≠ 0) :
    Solid (I i) s.block := ⟨h.size_le hi ht, h.full i hi ht⟩

/-- Every block the range is in is there. -/
def Mapped (d : Dinode) (blk : Nat → Block) (off n : Nat) : Prop :=
  ∀ p, off ≤ p → p < off + n → p / BSIZE < MAXFILE ∧ d.addr blk (p / BSIZE) ≠ 0

theorem Solid.mapped {d : Dinode} {blk : Nat → Block} (h : Solid d blk) (hle : off + n ≤ d.size) : Mapped d blk off n := by
  intro p _ hp
  have hk : p / BSIZE < blocksOf d.size := by
    simp only [blocksOf, BSIZE]
    omega
  exact ⟨hk.trans_le h.1, h.2 _ hk⟩

theorem readiLoop_eq {dst : Nat → List UInt8 → Bool} (hdst : ∀ k l, dst k l = true) :
    ∀ fuel off n acc, n ≤ fuel → Mapped (s.itable ip).d s.block off n → readiLoop ip dst fuel off n acc s =
      .ok ((((acc.length + n : Nat) : Int), acc ++ (s.itable ip).d.segment s.block off n), s)
  | 0, off, n, acc, hn, _ => by
    obtain rfl : n = 0 := by omega
    simp [readiLoop, Dinode.segment]
    rfl
  | fuel + 1, off, n, acc, hn, hf => by
    have hB : BSIZE = 1024 := rfl
    unfold readiLoop
    split
    · next h0 =>
      subst h0
      simp [Dinode.segment]
      rfl
    · next h0 =>
      obtain ⟨hk, hne⟩ := hf off le_rfl (by omega)
      rw [Code.bind_ok (bmap_mapped hk hne), if_neg hne]
      have hm : off % BSIZE + min n (BSIZE - off % BSIZE) ≤ BSIZE := by
        rw [hB]
        omega
      rw [bread_bind, hdst, if_pos rfl, Dinode.read_block hm, readiLoop_eq hdst fuel _ _ _ (by rw [hB]; omega)
        fun p hp hp' => hf p (by omega) (by omega)]
      rw [List.append_assoc, ← Dinode.segment_add, List.length_append, Dinode.length_segment, Nat.add_assoc,
        Nat.add_sub_cancel' (Nat.min_le_left ..)]

/-- readi of a range inside the file whose blocks are there. -/
theorem readi_mapped {dst : Nat → List UInt8 → Bool} (hdst : ∀ k l, dst k l = true) (hlt : off + n < 2 ^ 32)
    (hle : off + n ≤ (s.itable ip).d.size) (hf : Mapped (s.itable ip).d s.block off n) :
    readi ip dst off n s = .ok (((n : Int), (s.itable ip).d.segment s.block off n), s) := by
  have hu : u32 (off + n) = off + n := Nat.mod_eq_of_lt hlt
  unfold readi
  rw [inode_bind, hu, if_neg (by omega), if_neg (by omega), readiLoop_eq hdst _ _ _ _ le_rfl hf]
  simp

/-- **readi** returns the bytes of the file in the range, and changes nothing. -/
theorem readi_eq {dst : Nat → List UInt8 → Bool} (hf : Solid (s.itable ip).d s.block) (hdst : ∀ k l, dst k l = true)
    (hlt : off + n < 2 ^ 32) : readi ip dst off n s =
      .ok (((((((s.itable ip).d.bytes s.block).drop off).take n).length : Int),
        (((s.itable ip).d.bytes s.block).drop off).take n), s) := by
  have hsz : (s.itable ip).d.size < 2 ^ 32 := by
    have := hf.1
    have hM : MAXFILE = 268 := rfl
    simp only [blocksOf, BSIZE] at this
    omega
  have hu : u32 (off + n) = off + n := Nat.mod_eq_of_lt hlt
  unfold readi
  rw [inode_bind, hu, Dinode.take_drop_bytes, Dinode.length_segment]
  dsimp only
  by_cases hoff : off > (s.itable ip).d.size
  · rw [if_pos (.inl hoff), show min n ((s.itable ip).d.size - off) = 0 by omega]
    rfl
  · rw [if_neg (by omega)]
    have hmin : (if off + n > (s.itable ip).d.size then (s.itable ip).d.size - off else n) =
        min n ((s.itable ip).d.size - off) := by
      split <;> omega
    rw [hmin, readiLoop_eq hdst _ _ _ _ le_rfl (hf.mapped (by omega))]
    simp

/-! ## writei -/

/-- How many blocks the blocks `lo` to `hi` of a file still need. -/
def needed (d : Dinode) (blk : Nat → Block) (lo hi : Nat) : Nat :=
  ((Finset.Ico lo hi).filter fun k => d.addr blk k = 0).card + if NDIRECT < hi ∧ d.addrs NDIRECT = 0 then 1 else 0

/-- The source has the bytes `data` and no more of the `n`. -/
def Source.Gives (src : Source) (data : List UInt8) (n : Nat) : Prop := ∀ k m, 0 < m → k ≤ data.length → k + m ≤ n →
  src.copyin k m = (if k + m ≤ data.length then 0 else -1, (data.drop k).take m)

theorem Source.gives_kernel (data : List UInt8) : (Source.kernel data).Gives data data.length := fun k m _ _ hkm => by
  rw [Source.copyin, if_pos hkm]

/-- **What writei's loop does** to `ip`, now `d`: from `off` on, `t` bytes of `data` behind the first `tot` are written
and counted, `g` are written. -/
structure Written (I : Nat → Dinode) (X : Multiset Nat) (ip : Fin NINODE) (data : List UInt8) (off tot : Nat) (s : State)
    (t g : Nat) (s' : State) (d : Dinode) : Prop where
  itable : s'.itable = Function.update s.itable ip { s.itable ip with d }
  owned : Owned s.sb (Function.update I (s.itable ip).inum d) s'.block X
  fields : d = { (s.itable ip).d with addrs := d.addrs }
  stays : ∀ k < MAXFILE, (s.itable ip).d.addr s.block k ≠ 0 → d.addr s'.block k = (s.itable ip).d.addr s.block k
  logged : ∀ p, off ≤ p → p < off + t → d.addr s'.block (p / BSIZE) ≠ 0 ∧ d.addr s'.block (p / BSIZE) ∈ s'.lh
  byte : ∀ p < MAXFILE * BSIZE, (s.itable ip).d.addr s.block (p / BSIZE) ≠ 0 ∨ off ≤ p ∧ p < off + t →
    d.byte s'.block p = if off ≤ p ∧ p < off + g then data.getD (tot + (p - off)) 0 else (s.itable ip).d.byte s.block p
  others : ∀ j < s.sb.ninodes, j ≠ (s.itable ip).inum → ∀ b ∈ (I j).owns s.block, s'.block b = s.block b
  inodes : ∀ j < s.sb.ninodes, s.sb.inode s'.block j = s.sb.inode s.block j

theorem div_BSIZE_lt {p : Nat} (h : p < MAXFILE * BSIZE) : p / BSIZE < MAXFILE :=
  Nat.div_lt_of_lt_mul (by rwa [Nat.mul_comm])

section

variable {a : Nat} {s₁ : State} {d : Dinode} (hs : s.sb.Sound) (h : Owned s.sb I s.block X) (hl : Live I s ip)
  (hb : Bmapped I X ip k s a s₁ d)

include hb

theorem Bmapped.addr_stays {j : Nat} (hj : j < MAXFILE) (hne : (s.itable ip).d.addr s.block j ≠ 0) :
    d.addr s₁.block j = (s.itable ip).d.addr s.block j := by
  by_cases hjk : j = k
  · rw [hjk] at hne ⊢
    rw [hb.addr, hb.stays hne]
  · exact hb.others j hj hjk

include hl in
/-- What bmap returns is one of the file's data blocks. -/
theorem Bmapped.data_block (hm : k < MAXFILE) (ha : a ≠ 0) :
    s.sb.datastart ≤ a ∧ a < s.sb.size ∧ a ≠ d.addrs NDIRECT := by
  have hne : d.addr s₁.block k ≠ 0 := hb.addr ▸ ha
  have htype : d.type ≠ 0 := by
    rw [hb.fields]
    exact hl.type
  have howns : (Function.update I (s.itable ip).inum d (s.itable ip).inum).owns s₁.block = d.refs s₁.block := by
    rw [Function.update_self, Dinode.owns_of_ne htype]
  have hnd := hb.owned.nodup_of hl.inum
  rw [howns] at hnd
  have hr := hb.owned.range_of hl.inum (howns ▸ Dinode.addr_mem hm hne)
  have hi := Dinode.addr_ne_indirect hnd hm hne
  rw [hb.addr] at hr hi
  exact ⟨hr.1, hr.2, hi⟩

include h hl

theorem Bmapped.block_stays {j : Nat} (hj : j < MAXFILE) (hne : (s.itable ip).d.addr s.block j ≠ 0) :
    s₁.block ((s.itable ip).d.addr s.block j) = s.block ((s.itable ip).d.addr s.block j) := by
  have hnd := h.nodup_of hl.inum
  rw [hl.owns] at hnd
  exact hb.keeps _ (hl.mem (Dinode.addr_mem hj hne)) (Dinode.addr_ne_indirect hnd hj hne)

theorem Bmapped.byte_stays {p : Nat} (hp : p < MAXFILE * BSIZE) (hne : (s.itable ip).d.addr s.block (p / BSIZE) ≠ 0) :
    d.byte s₁.block p = (s.itable ip).d.byte s.block p := by
  unfold Dinode.byte
  rw [hb.addr_stays (div_BSIZE_lt hp) hne, hb.block_stays h hl (div_BSIZE_lt hp) hne]

include hs

theorem Bmapped.others_stay {j b : Nat} (hj : j < s.sb.ninodes) (hij : j ≠ (s.itable ip).inum)
    (hbj : b ∈ (I j).owns s.block) : s₁.block b = s.block b := by
  refine hb.keeps b (Superblock.mem_refsOf.mpr ⟨j, hj, hbj⟩) ?_
  rintro rfl
  have hn := Owned.pos hs (h.range_of hj hbj)
  exact h.apart hl.inum hj hij (by rw [hl.owns]; exact Dinode.indirect_mem _ hn) hbj

/-- The disk is full. -/
theorem Bmapped.written_none {data : List UInt8} {tot : Nat} : Written I X ip data off tot s 0 0 s₁ d where
  itable := hb.itable
  owned := hb.owned
  fields := hb.fields
  stays _ hk hne := hb.addr_stays hk hne
  logged p hp hlt := by omega
  byte p hp hcase := by
    rw [if_neg (by omega), hb.byte_stays h hl hp]
    rcases hcase with hne | hr
    · exact hne
    · omega
  others _ hj hij _ hbj := hb.others_stay hs h hl hj hij hbj
  inodes := hb.inodes

/-- The bytes `data` has for a block go into it, and `t` of them count. -/
theorem Bmapped.written (data : List UInt8) (tot : Nat) (s₂ : State) {m t : Nat} (hk : k = off / BSIZE) (hm : k < MAXFILE)
    (ha : a ≠ 0) (hfit : off % BSIZE + m ≤ BSIZE) (ht : t ≤ ((data.drop tot).take m).length)
    (hit : s₂.itable = s₁.itable) (hlog : 0 < t → a ∈ s₂.lh)
    (hblk : s₂.block = Function.update s₁.block a (Buffer.write (s₁.block a) (off % BSIZE) ((data.drop tot).take m))) :
    Written I X ip data off tot s t ((data.drop tot).take m).length s₂ d := by
  have hB : BSIZE = 1024 := rfl
  have hinum : (s.itable ip).inum < s.sb.ninodes := hl.inum
  have htype : d.type ≠ 0 := by
    rw [hb.fields]
    exact hl.type
  have howns : (Function.update I (s.itable ip).inum d (s.itable ip).inum).owns s₁.block = d.refs s₁.block := by
    rw [Function.update_self, Dinode.owns_of_ne htype]
  have hmem : a ∈ (Function.update I (s.itable ip).inum d (s.itable ip).inum).owns s₁.block := by
    rw [howns, ← hb.addr]
    exact Dinode.addr_mem hm (hb.addr ▸ ha)
  obtain ⟨hrange, -, hind⟩ := hb.data_block hl hm ha
  have hnd := hb.owned.nodup_of hinum
  rw [howns] at hnd
  have hsame (b : Nat) (hne : b ≠ a) : s₂.block b = s₁.block b := by rw [hblk, Function.update_of_ne hne]
  -- the block is not the indirect one, so all addresses stay
  have haddr : d.addr s₂.block = d.addr s₁.block := Dinode.addr_congr fun _ => hsame _ hind.symm
  have hlen : ((data.drop tot).take m).length ≤ m := by simp
  refine ⟨hit.trans hb.itable, ?_, hb.fields, fun j hj hne => ?_, fun p hp hlt => ?_, fun p hp hcase => ?_,
    fun j hj hij b hbj => ?_, fun j hj => ?_⟩
  · refine hb.owned.congr (fun b hb' => hsame _ ?_) fun j hj htj hnj => hsame _ ?_
    · have := hs.bitmap b hb'
      omega
    · by_cases hij : j = (s.itable ip).inum
      · rw [hij, Function.update_self] at hnj ⊢
        exact hind.symm
      · intro he
        exact hb.owned.apart hinum hj hij hmem (he ▸ Dinode.indirect_owned htj hnj)
  · rw [haddr]
    exact hb.addr_stays hj hne
  · have hpk : p / BSIZE = k := by
      rw [hk, hB]
      rw [hB] at hfit
      omega
    rw [haddr, hpk, hb.addr]
    exact ⟨ha, hlog (by omega)⟩
  · unfold Dinode.byte
    rw [haddr]
    by_cases hpk : p / BSIZE = k
    · rw [hpk, hb.addr, hblk, Function.update_self, Buffer.bytes_write (Nat.mod_lt _ (by decide))]
      have hcmp : off % BSIZE ≤ p % BSIZE ↔ off ≤ p := by
        rw [hk, hB] at hpk
        rw [hB]
        omega
      have hsub : p % BSIZE - off % BSIZE = p - off := by
        rw [hk, hB] at hpk
        rw [hB]
        omega
      by_cases hin : off ≤ p ∧ p < off + ((data.drop tot).take m).length
      · have hidx : p - off < ((data.drop tot).take m).length := by omega
        simp only [hcmp, hsub]
        rw [dif_pos ⟨hin.1, hidx⟩, if_pos hin, List.getElem_take, List.getElem_drop, List.getD_eq_getElem]
      · have hne : (s.itable ip).d.addr s.block k ≠ 0 := by
          rcases hcase with hne | hr
          · exact hpk ▸ hne
          · exact absurd ⟨hr.1, by omega⟩ hin
        simp only [hcmp, hsub]
        rw [dif_neg (by omega), if_neg hin, ← hb.stays hne, hb.block_stays h hl hm hne]
    · have hpm := div_BSIZE_lt hp
      have hout : ¬ (off ≤ p ∧ p < off + ((data.drop tot).take m).length) := by
        rw [hk, hB] at hpk
        rw [hB] at hfit
        omega
      have hne : (s.itable ip).d.addr s.block (p / BSIZE) ≠ 0 := by
        rcases hcase with hne | hr
        · exact hne
        · exact absurd ⟨hr.1, by omega⟩ hout
      have haddr' := hb.addr_stays hpm hne
      rw [if_neg hout, hsame, ← Dinode.byte, hb.byte_stays h hl hp hne, Dinode.byte]
      intro he
      rw [← hb.addr] at he
      exact hpk (Dinode.addr_inj hnd hpm hm (haddr' ▸ hne) he)
  · rw [hsame, hb.others_stay hs h hl hj hij hbj]
    rintro rfl
    refine hb.owned.apart hinum hj hij hmem ?_
    rw [Function.update_of_ne hij, Dinode.owns_congr fun htj hnj => ?_]
    · exact hbj
    · exact hb.others_stay hs h hl hj hij (Dinode.indirect_owned htj hnj)
  · rw [← hb.inodes j hj]
    have := hs.inodes j hj
    have := hs.data
    exact Superblock.inode_congr (hsame _ (by omega))

end

/-- One block, then the rest. -/
theorem Written.trans {data : List UInt8} {tot m t g : Nat} {s₁ s' : State} {d₁ d : Dinode}
    (hsb : s₁.sb = s.sb) (hlh : s₁.lh ⊆ s'.lh) (hend : off + m ≤ MAXFILE * BSIZE)
    (h₁ : Written I X ip data off tot s m m s₁ d₁)
    (h₂ : Written (Function.update I (s.itable ip).inum d₁) X ip data (off + m) (tot + m) s₁ t g s' d) (hg : t ≤ g) :
    Written I X ip data off tot s (m + t) (m + g) s' d := by
  have hx : s₁.itable ip = { s.itable ip with d := d₁ } := by rw [h₁.itable, Function.update_self]
  have hd : (s₁.itable ip).d = d₁ := by rw [hx]
  have hinum : (s₁.itable ip).inum = (s.itable ip).inum := by rw [hx]
  have hmapped (p : Nat) (hp : p < MAXFILE * BSIZE)
      (hcase : (s.itable ip).d.addr s.block (p / BSIZE) ≠ 0 ∨ off ≤ p ∧ p < off + m) : d₁.addr s₁.block (p / BSIZE) ≠ 0 := by
    rcases hcase with hne | hr
    · rw [h₁.stays _ (div_BSIZE_lt hp) hne]
      exact hne
    · exact (h₁.logged p hr.1 hr.2).1
  have hown := h₂.owned
  rw [hsb, hinum, Function.update_idem] at hown
  refine ⟨?_, hown, ?_, fun k hk hne => ?_, fun p hp hlt => ?_, fun p hp hcase => ?_, fun j hj hij b hb => ?_,
    fun j hj => ?_⟩
  · rw [h₂.itable, h₁.itable, Function.update_self, Function.update_idem]
  · rw [h₂.fields, hd, h₁.fields]
  · rw [h₂.stays k hk, hd, h₁.stays k hk hne]
    rw [hd, h₁.stays k hk hne]
    exact hne
  · by_cases hin : p < off + m
    · have hp' : p < MAXFILE * BSIZE := by omega
      have hl₁ := h₁.logged p hp hin
      rw [h₂.stays _ (div_BSIZE_lt hp') (hd ▸ hl₁.1), hd]
      exact ⟨hl₁.1, hlh hl₁.2⟩
    · exact h₂.logged p (by omega) (by omega)
  · by_cases hin : off + m ≤ p
    · have hcase₂ : (s₁.itable ip).d.addr s₁.block (p / BSIZE) ≠ 0 ∨ off + m ≤ p ∧ p < off + m + t := by
        rcases hcase with hne | hr
        · exact .inl (hd ▸ hmapped p hp (.inl hne))
        · exact .inr ⟨hin, by omega⟩
      rw [h₂.byte p hp hcase₂]
      by_cases hgin : p < off + (m + g)
      · rw [if_pos ⟨hin, by omega⟩, if_pos ⟨by omega, hgin⟩]
        congr 1
        omega
      · have hne : (s.itable ip).d.addr s.block (p / BSIZE) ≠ 0 := hcase.resolve_right (by omega)
        rw [if_neg (by omega), if_neg (by omega), hd, h₁.byte p hp (.inl hne), if_neg (by omega)]
    · have hcase₁ : (s.itable ip).d.addr s.block (p / BSIZE) ≠ 0 ∨ off ≤ p ∧ p < off + m :=
        hcase.imp_right fun hr => ⟨hr.1, by omega⟩
      rw [h₂.byte p hp (.inl (hd ▸ hmapped p hp hcase₁)), if_neg (by omega), hd, h₁.byte p hp hcase₁]
      refine if_congr ?_ rfl rfl
      omega
  · rw [h₂.others j (hsb ▸ hj) (hinum ▸ hij) b ?_, h₁.others j hj hij b hb]
    rw [Function.update_of_ne hij, Dinode.owns_congr fun htj hnj => ?_]
    · exact hb
    · exact h₁.others j hj hij _ (Dinode.indirect_owned htj hnj)
  · have := h₂.inodes j (hsb ▸ hj)
    rw [hsb] at this
    rw [this, h₁.inodes j hj]

/-! ### How far the blocks reach -/

theorem needed_mono (d : Dinode) (blk : Nat → Block) (lo : Nat) {hi hi' : Nat} (h : hi ≤ hi') :
    needed d blk lo hi ≤ needed d blk lo hi' := by
  unfold needed
  refine Nat.add_le_add (Finset.card_le_card (Finset.filter_subset_filter _ (Finset.Ico_subset_Ico_right h))) ?_
  split_ifs <;> omega

theorem missing_le_needed {d : Dinode} {blk : Nat → Block} : missing d blk k ≤ needed d blk k (k + 1) := by
  unfold missing needed
  rw [Nat.Ico_succ_singleton, Finset.filter_singleton]
  split_ifs <;> simp <;> omega

/-- The first block's part of what is needed. -/
theorem needed_succ {a hi : Nat} {s₁ : State} {d : Dinode} (hb : Bmapped I X ip k s a s₁ d) (ha : a ≠ 0) (hk : k < hi)
    (hm : hi ≤ MAXFILE) {blk : Nat → Block} (hblk : d.addr blk = d.addr s₁.block) :
    needed (s.itable ip).d s.block k hi = missing (s.itable ip).d s.block k + needed d blk (k + 1) hi := by
  have hrest : (Finset.Ico (k + 1) hi).filter (fun j => d.addr blk j = 0) =
      (Finset.Ico (k + 1) hi).filter fun j => (s.itable ip).d.addr s.block j = 0 := by
    refine Finset.filter_congr fun j hj => ?_
    rw [Finset.mem_Ico] at hj
    rw [hblk, hb.others j (by omega) (by omega)]
  have hsplit : ((Finset.Ico k hi).filter fun j => (s.itable ip).d.addr s.block j = 0).card =
      (if (s.itable ip).d.addr s.block k = 0 then 1 else 0) +
        ((Finset.Ico (k + 1) hi).filter fun j => (s.itable ip).d.addr s.block j = 0).card := by
    rw [← Finset.insert_Ico_add_one_left_eq_Ico hk, Finset.filter_insert]
    split
    · rw [Finset.card_insert_of_notMem (by simp), Nat.add_comm]
    · rw [Nat.zero_add]
  unfold needed missing
  rw [hrest, hsplit]
  by_cases hd : k < NDIRECT
  · rw [hb.indirect (.inr hd), if_neg (fun hh : NDIRECT ≤ k ∧ _ => by omega)]
    omega
  · have hlisted := hb.listed ha (by omega)
    rw [if_neg (fun hh : NDIRECT < hi ∧ d.addrs NDIRECT = 0 => hlisted hh.2)]
    have hhi : NDIRECT < hi := by omega
    have hle : NDIRECT ≤ k := by omega
    simp only [hhi, hle, true_and]
    omega

/-! ### The loop -/

/-- How many blocks `n` bytes at `off` are in. -/
def spans (off n : Nat) : Nat := if n = 0 then 0 else (off + n - 1) / BSIZE - off / BSIZE + 1

/-- The first round takes one block. -/
theorem spans_step (off : Nat) (hn : n ≠ 0) :
    spans off n = 1 + spans (off + min n (BSIZE - off % BSIZE)) (n - min n (BSIZE - off % BSIZE)) := by
  have hB : BSIZE = 1024 := rfl
  unfold spans
  rw [if_neg hn, hB]
  split <;> omega

/-- Why writei's loop stopped with `t` of `n` bytes counted and `g` written: all are, the blocks ran out, or the source
had no more, somewhere in a block. -/
def Stopped (s : State) (d : Dinode) (data : List UInt8) (off tot n t g : Nat) : Prop :=
  t = n ∧ g = n ∨
  t < n ∧ g = t ∧ (s.sb.free s.block).card < needed d s.block (off / BSIZE) ((off + t) / BSIZE + 1) ∧
    (t = 0 ∨ (off + t) % BSIZE = 0) ∨
  t < n ∧ t ≤ g ∧ g < n ∧ tot + g = data.length ∧ (off + g) / BSIZE = (off + t) / BSIZE ∧ (t = 0 ∨ (off + t) % BSIZE = 0)

theorem Stopped.le {d : Dinode} {data : List UInt8} {tot t g : Nat} (h : Stopped s d data off tot n t g) : t ≤ g := by
  rcases h with ⟨ht, hg⟩ | ⟨-, hg, -⟩ | ⟨-, hle, -⟩
  · omega
  · omega
  · exact hle

theorem Written.none {data : List UInt8} {tot : Nat} (h : Owned s.sb I s.block X) (hl : Live I s ip) :
    Written I X ip data off tot s 0 0 s (s.itable ip).d where
  itable := (Function.update_eq_self ip s.itable).symm
  owned := by
    rw [← hl.dinode, Function.update_eq_self]
    exact h
  fields := rfl
  stays _ _ _ := rfl
  logged p hp hlt := by omega
  byte p _ _ := by rw [if_neg (by omega)]
  others _ _ _ _ _ := rfl
  inodes _ _ := rfl

/-- A stop in the rest of the loop is a stop of the whole. -/
theorem Stopped.after {data : List UInt8} {tot m t g a : Nat} {s₁ s₂ : State} {d : Dinode}
    (hb : Bmapped I X ip (off / BSIZE) s a s₁ d) (ha : a ≠ 0) (hsb : s₂.sb = s.sb)
    (hbm : ∀ b < s.sb.size, s₂.block (s.sb.BBLOCK b) = s₁.block (s.sb.BBLOCK b))
    (haddr : d.addr s₂.block = d.addr s₁.block) (hend : off + n ≤ MAXFILE * BSIZE)
    (hm : min n (BSIZE - off % BSIZE) = m)
    (h : Stopped s₂ d data (off + m) (tot + m) (n - m) t g) :
    Stopped s (s.itable ip).d data off tot n (m + t) (m + g) := by
  have hB : BSIZE = 1024 := rfl
  have hmn : m ≤ n := hm ▸ Nat.min_le_left ..
  -- if there is a rest, this round went to the end of the block
  have hnext (hlt : 0 < n - m) : (off + m) / BSIZE = off / BSIZE + 1 ∧ (off + m) % BSIZE = 0 := by
    rw [hB] at hm ⊢
    omega
  -- and it ended there, or at the next start of a block
  have halign (hlt : 0 < n - m) (hal : t = 0 ∨ (off + m + t) % BSIZE = 0) : (off + (m + t)) % BSIZE = 0 := by
    rw [← Nat.add_assoc]
    rcases hal with rfl | hal
    · exact (hnext hlt).2
    · exact hal
  rcases h with ⟨ht', hg⟩ | ⟨hlt, hg, hfree, hal⟩ | ⟨hlt, hle, hg, hdata, hblk, hal⟩
  · exact .inl ⟨by omega, by omega⟩
  · refine .inr (.inl ⟨by omega, by rw [hg], ?_, .inr (halign (by omega) hal)⟩)
    have hcongr : s.sb.free s₂.block = s.sb.free s₁.block := by
      ext b
      rw [Superblock.mem_free, Superblock.mem_free]
      exact and_congr_right fun hb' => by rw [Superblock.inUse_congr (hbm b hb')]
    have hkt : off / BSIZE + 1 ≤ (off + m + t) / BSIZE := by
      rw [← (hnext (by omega)).1]
      exact Nat.div_le_div_right (by omega)
    have htop : (off + (m + t)) / BSIZE + 1 ≤ MAXFILE := div_BSIZE_lt (by omega)
    rw [hsb, hcongr, (hnext (by omega)).1, Nat.add_assoc off m t] at hfree
    rw [needed_succ hb ha (by rw [← Nat.add_assoc]; omega) htop haddr, ← hb.room ha]
    omega
  · refine .inr (.inr ⟨by omega, by omega, by omega, by omega, ?_, .inr (halign (by omega) hal)⟩)
    rw [← Nat.add_assoc, ← Nat.add_assoc, hblk]

/-- A round of the loop that goes on: the block is written and logged. -/
theorem Bmapped.round {data : List UInt8} {tot m a : Nat} {s₁ s₂ : State} {d : Dinode} (hs : s.sb.Sound)
    (h : Owned s.sb I s.block X) (hl : Live I s ip) (hb : Bmapped I X ip (off / BSIZE) s a s₁ d) (hsb : s₁.sb = s.sb)
    (hkm : off / BSIZE < MAXFILE) (ha : a ≠ 0) (hfit : off % BSIZE + m ≤ BSIZE)
    (hlen : ((data.drop tot).take m).length = m)
    (hs₂ : s₁.log a (Buffer.write (s₁.block a) (off % BSIZE) ((data.drop tot).take m)) = s₂) :
    Written I X ip data off tot s m m s₂ d ∧ Live (Function.update I (s.itable ip).inum d) s₂ ip ∧ (s₂.itable ip).d = d ∧
      d.addr s₂.block = d.addr s₁.block := by
  have hw := hb.written hs h hl data tot s₂ rfl hkm ha hfit hlen.ge (by rw [← hs₂]; rfl)
    (fun _ => hs₂ ▸ State.mem_log) (by rw [← hs₂]; rfl)
  rw [hlen] at hw
  have hx : s₂.itable ip = { s.itable ip with d } := by rw [hw.itable, Function.update_self]
  have hd : (s₂.itable ip).d = d := by rw [hx]
  refine ⟨hw, ⟨?_, ?_, ?_⟩, hd, Dinode.addr_congr fun _ => ?_⟩
  · rw [hx, show s₂.sb = s.sb from hs₂ ▸ hsb]
    exact hl.inum
  · rw [hx, Function.update_self]
  · rw [hd, hw.fields]
    exact hl.type
  · rw [← hs₂]
    exact Function.update_of_ne (hb.data_block hl hkm ha).2.2.symm _ _

/-- **The loop of writei.** -/
theorem writeiLoop_spec {src : Source} {data : List UInt8} {N : Nat} (hsrc : src.Gives data N) :
    ∀ (fuel : Nat) (s : State) (I : Nat → Dinode) (off tot n : Nat), s.sb.Sound → Owned s.sb I s.block X → Live I s ip →
      (∀ k < MAXFILE, (s.itable ip).d.addr s.block k ≠ 0 →
        D ((s.itable ip).d.addr s.block k) ∨ (s.itable ip).d.addr s.block k ∈ s.lh) →
      n ≤ fuel → tot + n ≤ N → tot ≤ data.length → off + n ≤ MAXFILE * BSIZE →
      Runs D (6 * spans off n) (writeiLoop ip src fuel off tot n) s fun r s' => ∃ t g d, r = (off + t, tot + t) ∧
        tot + t ≤ data.length ∧ Stopped s (s.itable ip).d data off tot n t g ∧ Written I X ip data off tot s t g s' d
  | 0, s, I, off, tot, n, hs, h, hl, hD, hf, hN, htot, hend => by
    obtain rfl : n = 0 := by omega
    exact Runs.pure ⟨0, 0, _, rfl, htot, .inl ⟨rfl, rfl⟩, Written.none h hl⟩
  | fuel + 1, s, I, off, tot, n, hs, h, hl, hD, hf, hN, htot, hend => by
    have hB : BSIZE = 1024 := rfl
    unfold writeiLoop
    split
    · next h0 =>
      subst h0
      exact Runs.pure ⟨0, 0, _, rfl, htot, .inl ⟨rfl, rfl⟩, Written.none h hl⟩
    · next h0 =>
      have hkm : off / BSIZE < MAXFILE := div_BSIZE_lt (by omega)
      have hfit : off % BSIZE + min n (BSIZE - off % BSIZE) ≤ BSIZE := by
        rw [hB]
        omega
      have hmpos : 0 < min n (BSIZE - off % BSIZE) := by
        rw [hB]
        omega
      have hspan := spans_step off h0
      generalize hmin : min n (BSIZE - off % BSIZE) = m at *
      refine (bmap_spec hs h hl hkm).seq (1 + 6 * spans (off + m) (n - m)) (by omega) fun a s₁ hk₁ hq => ?_
      obtain ⟨d₁, hb⟩ := hq
      split
      · next ha =>
        refine Runs.pure ⟨0, 0, d₁, rfl, htot, .inr (.inl ⟨by omega, rfl, ?_, .inl rfl⟩), hb.written_none hs h hl⟩
        refine (hb.full ha).trans_le ?_
        exact missing_le_needed
      · next ha =>
        have hdata := hb.data_block hl hkm ha
        have hcopy := hsrc tot m hmpos htot (by omega)
        have hlen : ((data.drop tot).take m).length = min m (data.length - tot) := by
          rw [List.length_take, List.length_drop]
        refine Runs.bread ?_
        dsimp only
        rw [hcopy]
        by_cases hav : tot + m ≤ data.length
        · rw [if_pos hav]
          dsimp only
          rw [if_neg (by decide), Nat.add_comm 1]
          rw [Nat.min_eq_left (by omega)] at hlen
          refine Runs.log ?_
          generalize hs₂ : s₁.log a _ = s₂
          have hsb : s₂.sb = s.sb := hs₂ ▸ hk₁.sb
          have hlog : a ∈ s₂.lh := hs₂ ▸ State.mem_log
          have hlh : s₁.lh ⊆ s₂.lh := hs₂ ▸ State.log_subset
          have hbm (b : Nat) (hb' : b < s.sb.size) : s₂.block (s.sb.BBLOCK b) = s₁.block (s.sb.BBLOCK b) := by
            have := hs.bitmap b hb'
            rw [← hs₂]
            exact Function.update_of_ne (by omega) _ _
          obtain ⟨hw, hl₂, hd, haddr⟩ := hb.round hs h hl hk₁.sb hkm ha hfit hlen hs₂
          have hD₂ (k : Nat) (hk : k < MAXFILE) (hne : (s₂.itable ip).d.addr s₂.block k ≠ 0) :
              D ((s₂.itable ip).d.addr s₂.block k) ∨ (s₂.itable ip).d.addr s₂.block k ∈ s₂.lh := by
            rw [hd, haddr] at hne ⊢
            by_cases hko : k = off / BSIZE
            · rw [hko, hb.addr]
              exact .inr hlog
            · rw [hb.others k hk hko] at hne ⊢
              exact (hD k hk hne).imp_right fun hmem => hlh (hk₁.logged hmem)
          refine (writeiLoop_spec hsrc fuel s₂ _ (off + m) (tot + m) (n - m) (hsb ▸ hs) (hsb ▸ hw.owned) hl₂ hD₂ (by omega)
            (by omega) (by omega) (by omega)).mono le_rfl fun r s' hk' hq => ?_
          obtain ⟨t, g, d, rfl, hle, hstop, hw'⟩ := hq
          refine ⟨m + t, m + g, d, by rw [Nat.add_assoc, Nat.add_assoc], by omega, ?_, hw.trans hsb hk'.logged (by omega) hw' ?_⟩
          · rw [hd] at hstop
            exact hstop.after hb ha hsb hbm haddr hend hmin
          · exact hstop.le
        · rw [if_neg hav]
          dsimp only
          rw [if_pos rfl]
          rw [Nat.min_eq_right (by omega)] at hlen
          have hDa : D a ∨ a ∈ s₁.lh := by
            by_cases hne : (s.itable ip).d.addr s.block (off / BSIZE) = 0
            · exact .inr (hb.fresh hne ha).1
            · rw [← hb.stays hne]
              exact (hD _ hkm hne).imp_right fun hmem => hk₁.logged hmem
          have hw := hb.written (t := 0) hs h hl data tot (s₁.setBlock a _) rfl hkm ha hfit
            (Nat.zero_le _) rfl (fun hlt => absurd hlt (lt_irrefl 0)) rfl
          refine Runs.dirty hDa (Runs.pure ⟨0, _, d₁, rfl, htot, .inr (.inr ?_), hw⟩)
          rw [hlen]
          refine ⟨by omega, by omega, by omega, by omega, ?_, .inl rfl⟩
          rw [hB] at hfit ⊢
          omega

/-! ### The call -/

/-- **What writei does**: as its loop, and the inode is on disk with its new size. -/
structure Wrote (I : Nat → Dinode) (X : Multiset Nat) (ip : Fin NINODE) (data : List UInt8) (off : Nat) (s : State)
    (t g : Nat) (s' : State) (d : Dinode) : Prop where
  itable : s'.itable = Function.update s.itable ip { s.itable ip with d }
  owned : Owned s.sb (Function.update I (s.itable ip).inum d) s'.block X
  fields : d = { (s.itable ip).d with addrs := d.addrs, size := max (s.itable ip).d.size (off + t) }
  stays : ∀ k < MAXFILE, (s.itable ip).d.addr s.block k ≠ 0 → d.addr s'.block k = (s.itable ip).d.addr s.block k
  logged : ∀ p, off ≤ p → p < off + t → d.addr s'.block (p / BSIZE) ≠ 0 ∧ d.addr s'.block (p / BSIZE) ∈ s'.lh
  byte : ∀ p < MAXFILE * BSIZE, (s.itable ip).d.addr s.block (p / BSIZE) ≠ 0 ∨ off ≤ p ∧ p < off + t →
    d.byte s'.block p = if off ≤ p ∧ p < off + g then data.getD (p - off) 0 else (s.itable ip).d.byte s.block p
  others : ∀ j < s.sb.ninodes, j ≠ (s.itable ip).inum → ∀ b ∈ (I j).owns s.block, s'.block b = s.block b
  inodes : ∀ j < s.sb.ninodes, s.sb.inode s'.block j = if j = (s.itable ip).inum then d else s.sb.inode s.block j

/-- The new size leaves no hole. -/
theorem Written.full {data : List UInt8} {t g : Nat} {s' : State} {d : Dinode} (hl : Live I s ip)
    (h : Owned s.sb I s.block X) (hw : Written I X ip data off 0 s t g s' d) (hoff : off ≤ (s.itable ip).d.size)
    {j : Nat} (hj : j < blocksOf (max (s.itable ip).d.size (off + t))) : d.addr s'.block j ≠ 0 := by
  have hdt : (I (s.itable ip).inum).type ≠ 0 := hl.dinode ▸ hl.type
  have hsolid := h.solid hl.inum hdt
  rw [hl.dinode] at hsolid
  by_cases hlt : j < blocksOf (s.itable ip).d.size
  · have hne := hsolid.2 j hlt
    rw [hw.stays j (by have := hsolid.1; omega) hne]
    exact hne
  · have hlog := hw.logged (j * BSIZE)
    rw [Nat.mul_div_cancel _ (by decide)] at hlog
    simp only [blocksOf, BSIZE] at hj hlt hlog
    exact (hlog (by omega) (by omega)).1

theorem writei_spec {src : Source} {data : List UInt8} (hs : s.sb.Sound) (h : Owned s.sb I s.block X) (hl : Live I s ip)
    (hsrc : src.Gives data n) (hoff : off ≤ (s.itable ip).d.size) (hend : off + n ≤ MAXFILE * BSIZE)
    (hD : ∀ k < MAXFILE, (s.itable ip).d.addr s.block k ≠ 0 → D ((s.itable ip).d.addr s.block k)) :
    Runs D (6 * spans off n + 1) (writei ip src off n) s fun r s' => ∃ (t g : Nat) (d : Dinode), r = t ∧ t ≤ data.length ∧
      Stopped s (s.itable ip).d data off 0 n t g ∧ Wrote I X ip data off s t g s' d := by
  have hM : MAXFILE * BSIZE = 274432 := by decide
  have hu : u32 (off + n) = off + n := Nat.mod_eq_of_lt (by omega)
  unfold writei
  refine Runs.inode ?_
  rw [hu, if_neg (by omega), if_neg (by omega)]
  refine (writeiLoop_spec hsrc n s I off 0 n hs h hl (fun k hk hne => .inl (hD k hk hne)) le_rfl (by omega)
    (Nat.zero_le _) hend).seq 1 le_rfl fun r s₁ hk₁ hq => ?_
  obtain ⟨t, g, d, rfl, hle, hstop, hw⟩ := hq
  rw [Nat.zero_add] at hle
  have htn : t ≤ n := by
    rcases hstop with ⟨ht, -⟩ | ⟨ht, -⟩ | ⟨ht, -⟩ <;> omega
  have hx : s₁.itable ip = { s.itable ip with d } := by rw [hw.itable, Function.update_self]
  have hsize : d.size = (s.itable ip).d.size := by rw [hw.fields]
  refine Runs.setInode ?_
  generalize hs₂ : s₁.updInode ip _ = s₂
  have hsb : s₂.sb = s.sb := hs₂ ▸ hk₁.sb
  have hblk : s₂.block = s₁.block := hs₂ ▸ rfl
  have hx₂ : s₂.itable ip = { s.itable ip with d := d.setSize (max (s.itable ip).d.size (off + t)) } := by
    rw [← hs₂]
    change Function.update s₁.itable ip _ ip = _
    rw [Function.update_self, hx, Dinode.setSize, hsize]
  have hit : s₂.itable = Function.update s.itable ip
      { s.itable ip with d := d.setSize (max (s.itable ip).d.size (off + t)) } := by
    rw [← hx₂, ← hs₂]
    change Function.update s₁.itable ip _ = Function.update s.itable ip (Function.update s₁.itable ip _ ip)
    rw [hw.itable, Function.update_self, Function.update_self, Function.update_idem]
  have hwf : (d.setSize (max (s.itable ip).d.size (off + t))).Wf := by
    have hwf := hw.owned.wf _ hl.inum
    rw [Function.update_self] at hwf
    have := hwf.size
    rw [hsize] at this
    exact hwf.setSize (by omega)
  have hown : Owned s.sb (Function.update I (s.itable ip).inum (d.setSize (max (s.itable ip).d.size (off + t))))
      s₂.block X := by
    rw [← Function.update_idem, hblk]
    refine hw.owned.replace hl.inum hwf (fun _ j hj => hw.full hl h hoff hj) ?_ (fun _ _ => rfl) fun _ _ _ _ _ => rfl
    rw [Function.update_self, Dinode.owns_setSize]
  refine Runs.seq (iupdate_spec (by rwa [hsb]) (by rw [hx₂, hsb]; exact hl.inum) (by rw [hx₂]; exact hwf)) 0 le_rfl
    fun _ s' hk' hu' => Runs.pure ⟨t, g, (d.setSize (max (s.itable ip).d.size (off + t))), by simp, hle, hstop, ?_⟩
  have hinum : (s₂.itable ip).inum = (s.itable ip).inum := by rw [hx₂]
  have hd₂ : (s₂.itable ip).d = d.setSize (max (s.itable ip).d.size (off + t)) := by rw [hx₂]
  have hdata (b : Nat) (hb : s.sb.datastart ≤ b) : s'.block b = s₁.block b :=
    (hu'.data b (hsb ▸ hb)).trans (congrFun hblk b)
  have hmem (b : Nat) (hb : b ∈ d.refs s₁.block) : s.sb.datastart ≤ b := by
    refine (hw.owned.range_of hl.inum (b := b) ?_).1
    rw [Function.update_self, Dinode.owns_of_ne (by rw [hw.fields]; exact hl.type)]
    exact hb
  have haddr : d.addr s'.block = d.addr s₁.block := Dinode.addr_congr fun hn => hdata _ (hmem _ (Dinode.indirect_mem _ hn))
  refine ⟨hu'.itable.trans hit, ?_, ?_, fun k hk hne => ?_, fun p hp hlt => ?_, fun p hp hcase => ?_,
    fun j hj hij b hb => ?_, fun j hj => ?_⟩
  · have hown' := hu'.owned (hsb ▸ hown)
    rwa [hsb] at hown'
  · rw [Dinode.setSize, hw.fields]
  · exact (congrFun haddr k).trans (hw.stays k hk hne)
  · have hlog := hw.logged p hp hlt
    rw [← haddr] at hlog
    exact ⟨hlog.1, hk'.logged (hs₂ ▸ hlog.2)⟩
  · rw [← Nat.zero_add (p - off), ← hw.byte p hp hcase]
    have hne : d.addr s₁.block (p / BSIZE) ≠ 0 := by
      rcases hcase with hne | hr
      · rw [hw.stays _ (div_BSIZE_lt hp) hne]
        exact hne
      · exact (hw.logged p hr.1 hr.2).1
    change Buffer.bytes (s'.block (d.addr s'.block _)) _ = Buffer.bytes (s₁.block (d.addr s₁.block _)) _
    rw [haddr, hdata _ (hmem _ (Dinode.addr_mem (div_BSIZE_lt hp) hne))]
  · rw [hdata b (h.range_of hj hb).1, hw.others j hj hij b hb]
  · have hi := hu'.inode j
    rw [hsb, hinum, hd₂, hblk, hw.inodes j hj] at hi
    exact hi

end Fs

end Xv6
