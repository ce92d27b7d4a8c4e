/-
A write from a user buffer of which only a prefix is mapped. writei copies block by
block, and copyin page by page straight into the cached block: when it fails inside a
block, the bytes before the failure are in the block already, though writei does not
count them and does not log the block. The file is as reported exactly if these bytes are
the ones that were there.
-/
import Xv6.Fs.ByteArray
import Xv6.Proc.Access

namespace Xv6

open Lib

theorem drop_userBytes {m : Mem} {root : Nat} : ∀ {va k len : Nat}, k ≤ (userBytes m root va len).length →
    (userBytes m root va len).drop k = userBytes m root (va + k) (len - k)
  | _, 0, _, _ => rfl
  | va, k + 1, 0, h => absurd h (Nat.not_succ_le_zero k)
  | va, k + 1, len + 1, h => by
    rw [userBytes] at h ⊢
    split at h
    · next ha =>
      rw [List.length_cons] at h
      rw [if_pos ha, List.drop_succ_cons, drop_userBytes (by omega), Nat.add_assoc, Nat.add_comm 1, Nat.succ_sub_succ]
    · exact absurd h (Nat.not_succ_le_zero k)

namespace Fs

variable {m : Mem} {root va off n : Nat} {s s' : State} {ip : Fin NINODE}

/-- A user buffer gives its bytes up to the first that is not accessible. -/
theorem Source.gives_user (h : TableAt m root) (va n : Nat) :
    (Source.user m root va).Gives (userBytes m root (u64 va) n) n := by
  intro k j hj hk hkj
  have haddr : u64 (va + k) = u64 va + k := by
    have hlt : u64 va < 2 ^ 64 := Nat.mod_lt _ (by decide)
    have hadd : u64 (va + k) = (u64 va + k) % 2 ^ 64 := (Nat.mod_add_mod ..).symm
    rw [hadd]
    rcases k with _ | k
    · exact Nat.mod_eq_of_lt hlt
    · -- the byte before is accessible, so the address does not wrap
      have hlast := (getElem?_userBytes m root (u64 va) n k _).mp (List.getElem?_eq_getElem (by omega))
      have hacc := (hlast.2.1 k le_rfl).1
      have hmax : MAXVA = 2 ^ 38 := rfl
      exact Nat.mod_eq_of_lt (by omega)
  have hbytes : ((userBytes m root (u64 va) n).drop k).take j = userBytes m root (u64 va + k) j := by
    rw [drop_userBytes hk, take_userBytes (by omega)]
  have hlen : (userBytes m root (u64 va + k) j).length = j ↔ k + j ≤ (userBytes m root (u64 va) n).length := by
    rw [← hbytes, List.length_take, List.length_drop]
    omega
  rw [Source.copyin, haddr, Mem.copyin, copyinLoop_eq h le_rfl, hbytes, List.nil_append]
  dsimp only
  rw [if_congr hlen rfl rfl]

/-- What is cached and not in the log is as on disk. -/
def State.Clean (s : State) : Prop := ∀ b ∉ s.lh, s.block b = s.disk b

/-- The contents of file `inum` on disk, once the transaction is committed. -/
def State.diskContents (s : State) (inum : Nat) : List UInt8 := (s.sb.inode s.committed inum).bytes s.committed

/-- **The file as writei reports it**: to readers, and on disk after the commit. -/
structure AsReported (s : State) (ip : Fin NINODE) (data : List UInt8) (off tot : Nat) (s' : State) : Prop where
  read : Reads s' ip (splice (s.contents (s.itable ip).inum) off (data.take tot))
  cached : s'.contents (s.itable ip).inum = splice (s.contents (s.itable ip).inum) off (data.take tot)
  disk : s'.diskContents (s.itable ip).inum = splice (s.contents (s.itable ip).inum) off (data.take tot)

/-- The data blocks a file had. -/
def oldBlocks (s : State) (ip : Fin NINODE) (b : Nat) : Prop := ∃ k < MAXFILE, (s.itable ip).d.addr s.block k ≠ 0 ∧
  b = (s.itable ip).d.addr s.block k

variable {data : List UInt8} {t g k : Nat} {d : Dinode}

/-- What readers see reaches the disk: the blocks that were not logged hold, on disk, what they held. -/
theorem Wrote.disk (hw : Wrote s.dinode 0 ip data off s t g s' d) (hk : Kept (oldBlocks s ip) k s s') (hc : s.Consistent)
    (hh : s.Holds ip) (hclean : s.Clean) (hoff : off ≤ (s.itable ip).d.size)
    (ht : t ≤ data.length) (hcached : d.bytes s'.block = splice ((s.itable ip).d.bytes s.block) off (data.take t)) :
    s'.diskContents (s.itable ip).inum = splice ((s.itable ip).d.bytes s.block) off (data.take t) := by
  have hl := hh.live hc.keyed
  have hown := hw.owned
  have htype : d.type ≠ 0 := by
    rw [hw.fields]
    exact hh.type
  have hnd := hown.nodup_of hh.inum
  rw [Function.update_self, Dinode.owns_of_ne htype] at hnd
  have hsolid := hown.solid (s := { s' with sb := s.sb }) hh.inum (by rw [Function.update_self]; exact htype)
  rw [Function.update_self] at hsolid
  have hcommit (b : Nat) (hb : b ∈ s'.lh ∨ ¬ oldBlocks s ip b) : s'.committed b = s'.block b := by
    unfold State.committed
    split
    · rfl
    · next hlh =>
      rw [hk.disk, ← hclean b fun hmem => hlh (hk.logged hmem)]
      exact (hk.block b (hb.resolve_left hlh) hlh).symm
  have hdata (b : Nat) (hb : oldBlocks s ip b) : s.sb.datastart ≤ b := by
    obtain ⟨j, hj, hne, rfl⟩ := hb
    exact (hc.owned.range_of hh.inum (by rw [hl.owns]; exact Dinode.addr_mem hj hne)).1
  have hinode : s'.sb.inode s'.committed (s.itable ip).inum = d := by
    have hlt := hc.sound.inodes _ hh.inum
    have hle := hc.sound.data
    rw [hk.sb, Superblock.inode_congr (hcommit _ (.inr fun hb => by have := hdata _ hb; omega)), hw.inodes _ hh.inum,
      if_pos rfl]
  have haddr : d.addr s'.committed = d.addr s'.block := by
    refine Dinode.addr_congr fun hn => hcommit _ (.inr ?_)
    rintro ⟨j, hj, hne, he⟩
    have hstay := hw.stays j hj hne
    exact Dinode.addr_ne_indirect hnd hj (hstay ▸ hne) (hstay.trans he.symm)
  have hsize : d.size = max (s.itable ip).d.size (off + t) := by rw [hw.fields]
  rw [State.diskContents, hinode]
  refine List.ext_getElem? fun p => ?_
  have hp := congrArg (fun l => l[p]?) hcached
  rw [Dinode.bytes, Dinode.getElem?_segment, Nat.zero_add] at hp
  rw [Dinode.bytes, Dinode.getElem?_segment, Nat.zero_add, ← hp]
  by_cases hlt : p < d.size
  · rw [if_pos hlt, if_pos hlt]
    have hpk : p / BSIZE < blocksOf d.size := by
      simp only [blocksOf, BSIZE]
      omega
    have hpm : p / BSIZE < MAXFILE := hpk.trans_le hsolid.1
    by_cases hb : d.addr s'.block (p / BSIZE) ∈ s'.lh ∨ ¬ oldBlocks s ip (d.addr s'.block (p / BSIZE))
    · rw [Dinode.byte, haddr, hcommit _ hb, Dinode.byte]
    · -- an old block that was not logged: nothing that counts was written there
      rw [not_or, not_not] at hb
      obtain ⟨hlh, j, hj, hne, he⟩ := hb
      have hjp : j = p / BSIZE := Dinode.addr_inj hnd hj hpm (by rw [hw.stays j hj hne]; exact hne)
        ((hw.stays j hj hne).trans he.symm)
      rw [hjp] at hne he
      have hout : ¬ (off ≤ p ∧ p < off + t) := fun hin => hlh (hw.logged p hin.1 hin.2).2
      have hsz : p < (s.itable ip).d.size := by omega
      have hlen : (data.take t).length = t := by
        rw [List.length_take]
        omega
      rw [if_pos hlt, getElem?_splice (by rwa [Dinode.length_bytes]), hlen, if_neg hout, Dinode.bytes,
        Dinode.getElem?_segment, if_pos hsz, Nat.zero_add] at hp
      rw [hp, Dinode.byte, haddr, State.committed, if_neg hlh, hk.disk, ← hclean _ fun hmem => hlh (hk.logged hmem), he,
        Dinode.byte]
  · rw [if_neg hlt, if_neg hlt]

/-- A write from a bad address stops at the start of the block of the first byte that is not accessible, with the bytes
before that one stored. -/
theorem short_write_stops {r : Int} (hc : s.Consistent) (hh : s.Holds ip) (ho : 0 < s.outstanding) (htab : TableAt m root)
    (hoff : off ≤ (s.itable ip).d.size) (hend : off + n ≤ MAXFILE * BSIZE)
    (hbad : (userBytes m root (u64 va) n).length < n)
    (hfree : needed (s.itable ip).d s.block (off / BSIZE) ((off + (userBytes m root (u64 va) n).length) / BSIZE + 1) ≤
      (s.sb.free s.block).card)
    (hrun : writei ip (.user m root va) off n s = .ok (r, s')) :
    ∃ (tot k : Nat) (d : Dinode), r = tot ∧ tot ≤ (userBytes m root (u64 va) n).length ∧
      off + tot = max off ((off + (userBytes m root (u64 va) n).length) / BSIZE * BSIZE) ∧
      Kept (oldBlocks s ip) k s s' ∧
      Wrote s.dinode 0 ip (userBytes m root (u64 va) n) off s tot (userBytes m root (u64 va) n).length s' d := by
  have hspec := writei_spec (D := oldBlocks s ip) hc.sound hc.owned (hh.live hc.keyed) (Source.gives_user htab va n) hoff
    hend (fun k hk hne => ⟨k, hk, hne, rfl⟩) ho
  rw [hrun] at hspec
  generalize userBytes m root (u64 va) n = data at *
  obtain ⟨hk, t, g, d, hr, hle, hstop, hw⟩ := hspec
  rcases hstop with ⟨ht, -⟩ | ⟨ht, -, hfull, -⟩ | ⟨ht, htg, hg, hdata, hblk, hal⟩
  · omega
  · -- the blocks reach to the one in question
    have hlt : (off + t) / BSIZE + 1 ≤ (off + data.length) / BSIZE + 1 :=
      Nat.succ_le_succ (Nat.div_le_div_right (by omega))
    have := needed_mono (s.itable ip).d s.block (off / BSIZE) hlt
    omega
  · rw [Nat.zero_add] at hdata
    rw [hdata] at hblk hw
    refine ⟨t, _, d, hr, hle, ?_, hk, hw⟩
    simp only [BSIZE] at hblk hal ⊢
    omega

/-- **A write cut short by a bad user address** is as reported exactly if the accessible bytes of the block it stopped in
are those the file has there. -/
theorem short_write_as_reported_iff {s s' : State} {ip : Fin NINODE} {m : Mem} {root va off n : Nat} {r : Int}
    (hc : s.Consistent) (hh : s.Holds ip) (ho : 0 < s.outstanding) (hclean : s.Clean) (htab : TableAt m root)
    (hoff : off ≤ (s.itable ip).d.size) (hend : off + n ≤ MAXFILE * BSIZE)
    (hbad : (userBytes m root (u64 va) n).length < n)
    (hfree : needed (s.itable ip).d s.block (off / BSIZE) ((off + (userBytes m root (u64 va) n).length) / BSIZE + 1) ≤
      (s.sb.free s.block).card)
    (hrun : writei ip (.user m root va) off n s = .ok (r, s')) :
    ∃ tot : Nat, r = tot ∧ tot < n ∧
      off + tot = max off ((off + (userBytes m root (u64 va) n).length) / BSIZE * BSIZE) ∧
      (AsReported s ip (userBytes m root (u64 va) n) off tot s' ↔
        ∀ x, tot ≤ x → x < (userBytes m root (u64 va) n).length → off + x < (s.itable ip).d.size →
          (userBytes m root (u64 va) n).getD x 0 = (s.itable ip).d.byte s.block (off + x)) := by
  obtain ⟨t, k, d, hr, hle, hstart, hk, hw⟩ := short_write_stops hc hh ho htab hoff hend hbad hfree hrun
  generalize userBytes m root (u64 va) n = data at *
  have hl := hh.live hc.keyed
  obtain ⟨hc', hview⟩ := hw.consistent hc hh hk.sb
  have hd : s'.dinode (s.itable ip).inum = d := by rw [hview _ hh.inum, Function.update_self]
  have hold : s.contents (s.itable ip).inum = (s.itable ip).d.bytes s.block := by rw [State.contents, hl.dinode]
  have hiff := hw.bytes_iff hc.owned hl hoff (by omega) hle hle
  refine ⟨t, hr, by omega, hstart, ?_⟩
  rw [← hiff]
  constructor
  · intro h
    rw [← hold, ← h.cached, State.contents, hd]
  · intro h
    have hcached : s'.contents (s.itable ip).inum = splice (s.contents (s.itable ip).inum) off (data.take t) := by
      rw [State.contents, hd, h, hold]
    refine ⟨?_, hcached, ?_⟩
    · have hreads := reads_contents hc' (hw.holds hh hk.sb)
      rwa [hw.inum, hcached] at hreads
    · rw [hold]
      exact hw.disk hk hc hh hclean hoff hle h

/-! ## Half a block -/

/-- The second process of the demo has one page, and no h at 3584. -/
def demoEdge (s : Sys) : Bool :=
  (s.proc ⟨1, one_lt_NPROC⟩).state = .RUNNABLE ∧ Accessible s.mem (s.proc ⟨1, one_lt_NPROC⟩).pagetable 0 ∧
    ¬ Accessible s.mem (s.proc ⟨1, one_lt_NPROC⟩).pagetable PGSIZE ∧
    userByte s.mem (s.proc ⟨1, one_lt_NPROC⟩).pagetable 3584 ≠ 104

/-- 512 bytes at the end of its memory, out of the 1024 that a write asks for. -/
theorem demo_edge : ∃ (m : Mem) (root : Nat), TableAt m root ∧ (userBytes m root (u64 3584) 1024).length = 512 ∧
    (userBytes m root (u64 3584) 1024).getD 0 0 ≠ 104 := by
  have hany : Sys.demo.any demoEdge = true := by decide +kernel
  obtain ⟨s, hs, hd⟩ := (Option.any_eq_true _ _).mp hany
  obtain ⟨hrun, hacc, hnot, hbyte⟩ := of_decide_eq_true hd
  have hu := (Sys.inv_of_reach (Sys.demo_reach hs)).userTable (p := ⟨1, by decide⟩) (by rw [hrun]; decide)
  generalize (s.proc ⟨1, by decide⟩).pagetable = root at hacc hnot hbyte hu
  have hva : u64 3584 = 3584 := rfl
  have hpage (i : Nat) (hi : i < 512) : Accessible s.mem root (3584 + i) := by
    have hoff : 0 % PGSIZE + (3584 + i) < PGSIZE := by
      rw [show PGSIZE = 4096 from rfl]
      omega
    have h := (accessible_page s.mem root hoff).2.mpr hacc
    rwa [Nat.zero_add] at h
  have hget (i : Nat) (hi : i < 512) : (userBytes s.mem root 3584 1024)[i]? = some (userByte s.mem root (3584 + i)) :=
    (getElem?_userBytes ..).mpr ⟨by omega, fun j hj => hpage j (by omega), rfl⟩
  refine ⟨s.mem, root, hu.toTableAt, ?_, ?_⟩
  · rw [hva]
    refine le_antisymm ?_ (List.getElem?_eq_some_iff.mp (hget 511 (by omega))).1
    by_contra hlt
    have h512 := (getElem?_userBytes s.mem root 3584 1024 512 _).mp (List.getElem?_eq_getElem (by omega))
    exact hnot (h512.2.1 512 le_rfl)
  · rw [hva, List.getD_eq_getElem?_getD, hget 0 (by omega)]
    exact hbyte

/-- The file of five bytes, in an operation with an empty log. -/
theorem working_hello : ∃ s : State, s.Consistent ∧ s.Holds 0 ∧ s.outstanding = 1 ∧ s.Clean ∧ s.room = 29 ∧
    (s.itable 0).inum = 2 ∧ (s.itable 0).d.size = 5 ∧ (s.itable 0).d.byte s.block 0 = 104 ∧
    (s.sb.free s.block).card = 1952 ∧ (s.itable 0).locked = true := by
  obtain ⟨t, s, -, -, hb, hm, hused⟩ := boot_hello
  have hc := hb.working_consistent hm ⟨by decide, by decide, by decide, by decide⟩ (by decide) 2
  obtain ⟨hh, hsize⟩ := holds_hello hb hm
  refine ⟨s.working 2, hc, hh, rfl, fun b _ => (congrFun hb.disk b).symm, ?_, rfl, hsize, ?_, ?_, rfl⟩
  · change min LOGSIZE (s.sb.nlog - 1) - s.lh.length = 29
    rw [hb.sb, hb.lh]
    decide
  · have hbytes := hb.file_bytes hm ⟨by decide, by decide, by decide, by decide⟩ (i := 0) rfl
    have hfirst := congrArg (fun l => l[0]?) hbytes
    have hfive : (s.sb.inode s.block (0 + 2)).size = 5 := hsize
    rw [← hb.sb, Dinode.bytes, Dinode.getElem?_segment, hfive, if_pos (by decide)] at hfirst
    exact Option.some.inj hfirst
  · change (s.sb.free s.block).card = _
    rw [hb.free hm, Nat.card_Ico, hused]
    decide

/-- Nothing of the file is in the part that could be read, for a write behind its end. -/
theorem short_write_as_reported_iff_append : ∃ (s s' : State) (m : Mem) (root : Nat),
    writei 0 (.user m root 3584) 5 1024 s = .ok (0, s') ∧
      AsReported s 0 (userBytes m root (u64 3584) 1024) 5 0 s' := by
  obtain ⟨s, hc, hh, hout, hclean, hroom, hinum, hsize, hbyte, hfree, -⟩ := working_hello
  obtain ⟨m, root, htab, hlen, -⟩ := demo_edge
  have ho : 0 < s.outstanding := by omega
  obtain ⟨r, s', hrun, -⟩ := (writei_spec (D := fun _ => True) hc.sound hc.owned (hh.live hc.keyed)
    (Source.gives_user htab 3584 1024)  hsize.ge (by decide) fun _ _ _ => trivial).returns ho
    (by rw [hroom]; decide)
  obtain ⟨tot, rfl, -, hstart, hiff⟩ := short_write_as_reported_iff hc hh ho hclean htab hsize.ge (by decide)
    (by rw [hlen]; decide) (needed_le.trans (by rw [hlen, hfree]; decide)) hrun
  rw [hlen] at hstart
  obtain rfl : tot = 0 := by
    simp only [BSIZE] at hstart
    omega
  exact ⟨s, s', m, root, hrun, hiff.mpr fun x _ _ hx => by omega⟩

/-- **Nothing is reported, and the file is overwritten**: the first byte was h. -/
theorem short_write_overwrites : ∃ (s s' : State) (m : Mem) (root : Nat), s.Consistent ∧ s.Holds 0 ∧ s.Clean ∧
    TableAt m root ∧ (s.itable 0).inum = 2 ∧ writei 0 (.user m root 3584) 0 1024 s = .ok (0, s') ∧
    (s.contents 2)[0]? = some 104 ∧ (s'.contents 2)[0]? ≠ some 104 := by
  obtain ⟨s, hc, hh, hout, hclean, hroom, hinum, hsize, hbyte, hfree, -⟩ := working_hello
  obtain ⟨m, root, htab, hlen, hfirst⟩ := demo_edge
  have ho : 0 < s.outstanding := by omega
  have hl := hh.live hc.keyed
  obtain ⟨r, s', hrun, -⟩ := (writei_spec (D := fun _ => True) hc.sound hc.owned hl (Source.gives_user htab 3584 1024)
     (Nat.zero_le _) (by decide) fun _ _ _ => trivial).returns ho (by rw [hroom]; decide)
  obtain ⟨tot, k, d, rfl, hle, hstart, hk, hw⟩ := short_write_stops hc hh ho htab (Nat.zero_le _) (by decide)
    (by rw [hlen]; decide) (needed_le.trans (by rw [hlen, hfree]; decide)) hrun
  rw [hlen] at hstart hw
  obtain rfl : tot = 0 := by
    simp only [BSIZE] at hstart
    omega
  refine ⟨s, s', m, root, hc, hh, hclean, htab, hinum, hrun, ?_, ?_⟩
  · rw [← hinum, State.contents, hl.dinode, Dinode.bytes, Dinode.getElem?_segment, hsize, if_pos (by decide), Nat.zero_add,
      hbyte]
  · have hd : s'.dinode 2 = d := by
      rw [← hinum, (hw.consistent hc hh hk.sb).2 _ hh.inum, Function.update_self]
    have hdsize : d.size = 5 := by
      rw [hw.fields, hsize]
      rfl
    have hsolid := hc.owned.solid hh.inum (hl.dinode ▸ hh.type)
    rw [hl.dinode] at hsolid
    rw [State.contents, hd, Dinode.bytes, Dinode.getElem?_segment, hdsize, if_pos (by decide), Nat.zero_add,
      hw.byte 0 (by decide) (.inl (hsolid.2 _ (by rw [hsize]; decide))), if_pos (by omega)]
    exact fun he => hfirst (Option.some.inj he)

end Fs

end Xv6
