/-
readi and writei implement an array of bytes. From any consistent file system, writei
stores at `off` as many of its bytes as there are blocks for, all of them if there are
enough; the file is the old one with these bytes in place of those it had, or longer;
every other file is as it was; and readi returns the bytes of the new file.

A single call must fit in the log: log_write panics in a transaction that changes more
blocks than the log takes, which is why filewrite writes a few blocks at a time.
-/
import Xv6.Fs.Boot

namespace Xv6.Fs

open Lib

/-- `old` with `data` in place of what it has at `off`, or longer. -/
def splice (old : List UInt8) (off : Nat) (data : List UInt8) : List UInt8 :=
  old.take off ++ data ++ old.drop (off + data.length)

theorem length_splice {old data : List UInt8} {off : Nat} (h : off ≤ old.length) :
    (splice old off data).length = max old.length (off + data.length) := by
  simp only [splice, List.length_append, List.length_take, List.length_drop]
  omega

theorem getElem?_splice {old data : List UInt8} {off p : Nat} (h : off ≤ old.length) : (splice old off data)[p]? =
    if off ≤ p ∧ p < off + data.length then data[p - off]? else old[p]? := by
  unfold splice
  rw [List.append_assoc, List.getElem?_append, List.length_take, Nat.min_eq_left h]
  split
  · next hp => rw [if_neg (by omega), List.getElem?_take, if_pos hp]
  · next hp =>
    rw [List.getElem?_append]
    split
    · next hd => rw [if_pos (by omega)]
    · next hd =>
      rw [if_neg (by omega), List.getElem?_drop]
      congr 1
      omega

variable {s s' : State} {I : Nat → Dinode} {X : Multiset Nat} {ip : Fin NINODE} {data : List UInt8} {off t g : Nat}
  {d : Dinode}

/-- The new contents are the old ones with `t` bytes of `data` in them, if what was stored beyond them changes nothing
below the old end of the file. -/
theorem Wrote.bytes_iff (hw : Wrote I X ip data off s t g s' d) (h : Owned s.sb I s.block X) (hl : Live I s ip)
    (hoff : off ≤ (s.itable ip).d.size) (hend : off + t ≤ MAXFILE * BSIZE) (ht : t ≤ data.length) (htg : t ≤ g) :
    d.bytes s'.block = splice ((s.itable ip).d.bytes s.block) off (data.take t) ↔
      ∀ x, t ≤ x → x < g → off + x < (s.itable ip).d.size → data.getD x 0 = (s.itable ip).d.byte s.block (off + x) := by
  have hdt : (I (s.itable ip).inum).type ≠ 0 := hl.dinode ▸ hl.type
  have hsolid := h.solid hl.inum hdt
  rw [hl.dinode] at hsolid
  have hlen : (data.take t).length = t := by
    rw [List.length_take]
    omega
  have hsize : d.size = max (s.itable ip).d.size (off + t) := by rw [hw.fields]
  -- a byte of the old file
  have hold (p : Nat) (hp : p < (s.itable ip).d.size) :
      d.byte s'.block p = if off ≤ p ∧ p < off + g then data.getD (p - off) 0 else (s.itable ip).d.byte s.block p := by
    have hk : p / BSIZE < blocksOf (s.itable ip).d.size := by
      simp only [blocksOf, BSIZE]
      omega
    have hM := hsolid.1
    refine hw.byte p ?_ (.inl (hsolid.2 _ hk))
    simp only [blocksOf, BSIZE] at hM ⊢
    omega
  have hget (p : Nat) : (d.bytes s'.block)[p]? = if p < d.size then some (d.byte s'.block p) else none := by
    rw [Dinode.bytes, Dinode.getElem?_segment, Nat.zero_add]
  have hget' (p : Nat) : ((s.itable ip).d.bytes s.block)[p]? =
      if p < (s.itable ip).d.size then some ((s.itable ip).d.byte s.block p) else none := by
    rw [Dinode.bytes, Dinode.getElem?_segment, Nat.zero_add]
  constructor
  · intro heq x hx hxg hlt
    have hp := congrArg (fun l => l[off + x]?) heq
    rw [hget, getElem?_splice (by rwa [Dinode.length_bytes]), hlen, hget', if_pos (by omega), if_neg (by omega),
      if_pos hlt, hold _ hlt, if_pos ⟨by omega, by omega⟩, Nat.add_sub_cancel_left] at hp
    exact Option.some.inj hp
  · intro hall
    refine List.ext_getElem? fun p => ?_
    rw [getElem?_splice (by rwa [Dinode.length_bytes]), hlen, hget, hget']
    by_cases hin : off ≤ p ∧ p < off + t
    · rw [if_pos (by omega), if_pos hin, hw.byte p (by omega) (.inr hin), if_pos (by omega),
        List.getElem?_take, if_pos (by omega), List.getD_eq_getElem?_getD, List.getElem?_eq_getElem (by omega)]
      rfl
    · rw [if_neg hin]
      by_cases hp : p < (s.itable ip).d.size
      · rw [if_pos (by omega), if_pos hp, hold p hp]
        split
        · next hpg =>
          have hx := hall (p - off) (by omega) (by omega) (by omega)
          rw [hx, Nat.add_sub_cancel' hpg.1]
        · rfl
      · rw [if_neg (by omega), if_neg hp]

/-- A file has the contents it had if its blocks have. -/
theorem Owned.bytes_congr {sb : Superblock} {blk blk' : Nat → Block} {j : Nat} (h : Owned sb I blk X) (hj : j < sb.ninodes)
    (ht : (I j).type ≠ 0) (hblk : ∀ b ∈ (I j).owns blk, blk' b = blk b) : (I j).bytes blk' = (I j).bytes blk := by
  have hown : (I j).owns blk = (I j).refs blk := Dinode.owns_of_ne ht
  have haddr : (I j).addr blk' = (I j).addr blk := Dinode.addr_congr fun hn => hblk _ (Dinode.indirect_owned ht hn)
  unfold Dinode.bytes Dinode.segment
  refine List.map_congr_left fun p hp => ?_
  have hk : (0 + p) / BSIZE < blocksOf (I j).size := by
    rw [List.mem_range] at hp
    simp only [blocksOf, BSIZE]
    omega
  unfold Dinode.byte
  rw [haddr, hblk]
  rw [hown]
  exact Dinode.addr_mem (by have := h.size_le hj ht; omega) (h.full j hj ht _ hk)

/-- Another file has the contents it had. -/
theorem Wrote.others_bytes {j : Nat} (hw : Wrote I X ip data off s t g s' d) (h : Owned s.sb I s.block X)
    (hj : j < s.sb.ninodes) (hij : j ≠ (s.itable ip).inum) (ht : (I j).type ≠ 0) :
    (I j).bytes s'.block = (I j).bytes s.block := h.bytes_congr hj ht (hw.others j hj hij)

/-- At most the inode of `ip` has changed, and it is on disk if it was. -/
structure Rewritten (s : State) (ip : Fin NINODE) (s' : State) : Prop where
  sb : s'.sb = s.sb
  consistent : s'.Consistent
  itable : s'.itable = Function.update s.itable ip { s.itable ip with d := (s'.itable ip).d }
  dinode : ∀ j < s.sb.ninodes, j ≠ (s.itable ip).inum → s'.dinode j = s.dinode j
  contents : ∀ j < s.sb.ninodes, j ≠ (s.itable ip).inum → (s.dinode j).type ≠ 0 → s'.contents j = s.contents j
  synced : (∀ j < s.sb.ninodes, s.dinode j = s.sb.inode s.block j) →
    ∀ j < s.sb.ninodes, s'.dinode j = s.sb.inode s'.block j

theorem Rewritten.refl (hc : s.Consistent) : Rewritten s ip s :=
  ⟨rfl, hc, by rw [Function.update_eq_self], fun _ _ _ => rfl, fun _ _ _ _ => rfl, id⟩

/-- The file system after writei is consistent, and one inode of it has changed. -/
theorem Wrote.consistent (hw : Wrote s.dinode 0 ip data off s t g s' d) (hc : s.Consistent) (hh : s.Holds ip)
    (hsb : s'.sb = s.sb) :
    s'.Consistent ∧ ∀ j < s.sb.ninodes, s'.dinode j = Function.update s.dinode (s.itable ip).inum d j := by
  have hview (j : Nat) (hj : j < s.sb.ninodes) :
      s'.dinode j = Function.update s.dinode (s.itable ip).inum d j :=
    State.dinode_setDinode hc.keyed hh.ref hh.valid hw.itable hsb fun hne => by rw [hw.inodes j hj, if_neg hne]
  refine ⟨⟨hsb ▸ hc.sound, State.keyed_setDinode hc.keyed hw.itable, ?_⟩, hview⟩
  rw [hsb]
  exact hw.owned.congr_inodes hview

/-- The copy in the table and the inode on disk are changed to `d`, and no other file's blocks. -/
theorem rewritten_of_inode (hc : s.Consistent) (hh : s.Holds ip) (hsb : s'.sb = s.sb)
    (hit : s'.itable = Function.update s.itable ip { s.itable ip with d })
    (hown : Owned s.sb (Function.update s.dinode (s.itable ip).inum d) s'.block 0)
    (hdata : ∀ j < s.sb.ninodes, j ≠ (s.itable ip).inum → ∀ b ∈ (s.dinode j).owns s.block, s'.block b = s.block b)
    (hdisk : ∀ j < s.sb.ninodes, s.sb.inode s'.block j = if j = (s.itable ip).inum then d else s.sb.inode s.block j) :
    Rewritten s ip s' := by
  have hd : (s'.itable ip).d = d := by rw [hit, Function.update_self]
  have hview (j : Nat) (hj : j < s.sb.ninodes) : s'.dinode j = Function.update s.dinode (s.itable ip).inum d j :=
    State.dinode_setDinode hc.keyed hh.ref hh.valid hit hsb fun hne => by rw [hdisk j hj, if_neg hne]
  refine ⟨hsb, ⟨hsb ▸ hc.sound, State.keyed_setDinode hc.keyed hit, ?_⟩, by rw [hd, hit], fun j hj hne => ?_,
    fun j hj hne ht => ?_, fun hs j hj => ?_⟩
  · rw [hsb]
    exact hown.congr_inodes hview
  · rw [hview j hj, Function.update_of_ne hne]
  · rw [State.contents, State.contents, hview j hj, Function.update_of_ne hne]
    exact hc.owned.bytes_congr hj ht (hdata j hj hne)
  · rw [hview j hj, hdisk j hj, Function.update_apply]
    split
    · exact Eq.refl _
    · exact hs j hj

theorem Wrote.rewritten (hw : Wrote s.dinode 0 ip data off s t g s' d) (hc : s.Consistent) (hh : s.Holds ip)
    (hsb : s'.sb = s.sb) : Rewritten s ip s' :=
  rewritten_of_inode hc hh hsb hw.itable hw.owned hw.others hw.inodes

/-- readi returns the bytes `c` of any range, and changes nothing. -/
def Reads (s : State) (ip : Fin NINODE) (c : List UInt8) : Prop := ∀ dst off n, (∀ k l, dst k l = true) →
  off + n < 2 ^ 32 → ∃ r, r = (c.drop off).take n ∧ readi ip dst off n s = .ok (((r.length : Int), r), s)

/-- What writei of `tot` bytes of `data` at `off` leaves, to whoever reads. -/
structure ArrayWrite (s : State) (ip : Fin NINODE) (data : List UInt8) (off tot : Nat) (s' : State) : Prop where
  consistent : s'.Consistent
  size : (s'.dinode (s.itable ip).inum).size = max (s.dinode (s.itable ip).inum).size (off + tot)
  contents : s'.contents (s.itable ip).inum = splice (s.contents (s.itable ip).inum) off (data.take tot)
  others : ∀ j < s.sb.ninodes, j ≠ (s.itable ip).inum → (s.dinode j).type ≠ 0 → s'.contents j = s.contents j
  read : Reads s' ip (splice (s.contents (s.itable ip).inum) off (data.take tot))

theorem reads_contents (hc : s.Consistent) (hh : s.Holds ip) : Reads s ip (s.contents (s.itable ip).inum) := by
  have hl := hh.live hc.keyed
  have hsolid := hc.owned.solid hh.inum (hl.dinode ▸ hh.type)
  rw [hl.dinode] at hsolid
  intro dst off n hdst hlt
  rw [State.contents, hl.dinode]
  exact ⟨_, rfl, readi_eq hsolid hdst hlt⟩

theorem Wrote.inum (hw : Wrote I X ip data off s t g s' d) : (s'.itable ip).inum = (s.itable ip).inum := by
  rw [hw.itable, Function.update_self]

theorem Wrote.holds (hw : Wrote I X ip data off s t g s' d) (hh : s.Holds ip) (hsb : s'.sb = s.sb) : s'.Holds ip := by
  have hx : s'.itable ip = { s.itable ip with d } := by rw [hw.itable, Function.update_self]
  refine ⟨?_, ?_, ?_, ?_⟩
  · rw [hx]
    exact hh.ref
  · rw [hx]
    exact hh.valid
  · rw [hx, hsb]
    exact hh.inum
  · rw [hx, hw.fields]
    exact hh.type

theorem Wrote.arrayWrite (hw : Wrote s.dinode 0 ip data off s t g s' d) (hc : s.Consistent) (hh : s.Holds ip)
    (hsb : s'.sb = s.sb) (hoff : off ≤ (s.itable ip).d.size) (hend : off + t ≤ MAXFILE * BSIZE) (ht : t ≤ data.length)
    (hg : g = t) : ArrayWrite s ip data off t s' := by
  have hl := hh.live hc.keyed
  obtain ⟨hc', hview⟩ := hw.consistent hc hh hsb
  have hd : s'.dinode (s.itable ip).inum = d := by rw [hview _ hh.inum, Function.update_self]
  have hbytes := (hw.bytes_iff hc.owned hl hoff hend ht hg.ge).mpr fun x hx hxg => by omega
  rw [← hl.dinode] at hbytes
  have hcont : s'.contents (s.itable ip).inum = splice (s.contents (s.itable ip).inum) off (data.take t) := by
    rw [State.contents, hd]
    exact hbytes
  refine ⟨hc', ?_, hcont, fun j hj hij htj => ?_, ?_⟩
  · rw [hd, hl.dinode, hw.fields]
  · rw [State.contents, hview j hj, Function.update_of_ne hij]
    exact hw.others_bytes hc.owned hj hij htj
  · have hreads := reads_contents hc' (hw.holds hh hsb)
    rwa [hw.inum, hcont] at hreads

/-- A source that has all the bytes, and enough blocks. -/
theorem Stopped.complete (h : Stopped s d data off 0 data.length t g)
    (hfree : needed d s.block (off / BSIZE) (blocksOf (off + data.length)) ≤ (s.sb.free s.block).card) :
    t = data.length := by
  rcases h with ⟨ht, -⟩ | ⟨ht, -, hfull, -⟩ | ⟨-, -, hg, hdata, -⟩
  · exact ht
  · have hle : (off + t) / BSIZE + 1 ≤ blocksOf (off + data.length) := by
      simp only [blocksOf, BSIZE]
      omega
    have := needed_mono d s.block (off / BSIZE) hle
    omega
  · omega

/-- The table entry of the small file. -/
theorem holds_hello {t : Mkfs.Image} (hb : Booted t s) (hm : Mkfs.Made [Mkfs.hello] t) :
    (s.working 2).Holds 0 ∧ ((s.working 2).itable 0).d.size = 5 := by
  have hd : ((s.working 2).itable 0).d = Mkfs.sb.inode t.sect 2 := by
    rw [← hb.inode (by decide), ← hb.sb]
    rfl
  have hf := (hm.file 0 Mkfs.hello rfl).1
  refine ⟨⟨Nat.one_pos, rfl, ?_, ?_⟩, ?_⟩
  · change 2 < s.sb.ninodes
    rw [hb.sb]
    decide
  · rw [hd, hf]
    change T_FILE ≠ 0
    decide
  · rw [hd, hf]
    change Mkfs.hello.bytes.length = 5
    decide

theorem needed_le {blk : Nat → Block} {lo hi : Nat} : needed d blk lo hi ≤ hi - lo + 1 := by
  unfold needed
  have := Finset.card_filter_le (Finset.Ico lo hi) fun k => d.addr blk k = 0
  rw [Nat.card_Ico] at this
  split <;> omega

/-- Every block written is in the log, so a write of more blocks than the log takes does not return. -/
theorem writei_overflows {src : Source} {data : List UInt8} (hc : s.Consistent) (hh : s.Holds ip)
    (ho : 0 < s.outstanding) (hsrc : src.Gives data data.length) (hoff : off ≤ (s.itable ip).d.size)
    (hend : off + data.length ≤ MAXFILE * BSIZE) (hlh : s.lh.length ≤ s.capacity)
    (hfree : needed (s.itable ip).d s.block (off / BSIZE) (blocksOf (off + data.length)) ≤ (s.sb.free s.block).card)
    (hbig : s.capacity < spans off data.length) :
    writei ip src off data.length s = .error "too big a transaction" := by
  have hl := hh.live hc.keyed
  have hrun := writei_spec (D := fun _ => True) hc.sound hc.owned hl hsrc hoff hend (fun _ _ _ => trivial) ho
  cases he : writei ip src off data.length s with
  | error msg =>
    rw [he] at hrun
    rw [hrun.1]
  | ok r =>
    rw [he] at hrun
    obtain ⟨hk, t, g, d, hr, hle, hstop, hw⟩ := hrun
    have ht := hstop.complete hfree
    have hx := hw.owned.nodup_of hh.inum
    rw [Function.update_self, Dinode.owns_of_ne (by rw [hw.fields]; exact hh.type)] at hx
    -- the blocks of the range, all different, are in the log
    have hlog (i : Nat) (hi : i < spans off data.length) : off / BSIZE + i < MAXFILE ∧
        d.addr r.2.block (off / BSIZE + i) ≠ 0 ∧ d.addr r.2.block (off / BSIZE + i) ∈ r.2.lh := by
      have hp := hw.logged (max off ((off / BSIZE + i) * BSIZE))
      have hdiv : max off ((off / BSIZE + i) * BSIZE) / BSIZE = off / BSIZE + i := by
        simp only [BSIZE]
        omega
      have hM : MAXFILE = 268 := rfl
      have hn : data.length ≠ 0 := by
        rintro h0
        rw [spans, if_pos h0] at hi
        omega
      rw [spans, if_neg hn] at hi
      rw [hdiv] at hp
      simp only [BSIZE] at hi hp hend ⊢
      exact ⟨by omega, hp (by omega) (by omega)⟩
    have hsub : (Finset.range (spans off data.length)).image (fun i => d.addr r.2.block (off / BSIZE + i)) ⊆
        r.2.lh.toFinset := by
      intro b hb
      obtain ⟨i, hi, rfl⟩ := Finset.mem_image.mp hb
      exact List.mem_toFinset.mpr (hlog i (Finset.mem_range.mp hi)).2.2
    have hcard := Finset.card_le_card hsub
    rw [Finset.card_image_of_injOn, Finset.card_range] at hcard
    · have := List.toFinset_card_le r.2.lh
      have := hk.fits
      omega
    · intro i hi j hj he
      rw [Finset.coe_range, Set.mem_Iio] at hi hj
      have := Dinode.addr_inj hx (hlog i hi).1 (hlog j hj).1 (hlog i hi).2.1 he
      omega

end Xv6.Fs
