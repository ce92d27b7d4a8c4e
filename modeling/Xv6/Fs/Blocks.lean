/-
balloc, bfree, bmap and iupdate keep the account of the blocks exact. bmap gives a file
the block it asks for, in the direct slots or through the indirect block, or finds the
disk full; either way no other file is touched.
-/
import Xv6.Fs.Txn
import Xv6.Fs.Owned

namespace Xv6.Fs

open Lib

variable {D : Nat → Prop} {s : State} {I : Nat → Dinode} {X : Multiset Nat}

/-! ## Allocation -/

/-- The blocks after balloc gave out `b`. -/
def taken (sb : Superblock) (blk : Nat → Block) (b : Nat) : Nat → Block :=
  Function.update (Function.update blk (sb.BBLOCK b) (Buffer.setBit (blk (sb.BBLOCK b)) (b % BPB))) b (Buffer.fill 0)

section

variable {sb : Superblock} {blk : Nat → Block} {a b : Nat}

theorem taken_self : taken sb blk b b = Buffer.fill 0 := Function.update_self ..

theorem taken_of_ne (h : a ≠ b) (hB : a ≠ sb.BBLOCK b) : taken sb blk b a = blk a := by
  rw [taken, Function.update_of_ne h, Function.update_of_ne hB]

theorem free_taken (hs : sb.Sound) (hdata : sb.datastart ≤ b) :
    sb.free (taken sb blk b) = (sb.free blk).erase b := by
  ext a
  rw [Finset.mem_erase, Superblock.mem_free, Superblock.mem_free, and_left_comm]
  refine and_congr_right fun ha => ?_
  have := hs.bitmap a ha
  rw [taken, Superblock.inUse_congr (Function.update_of_ne (by omega) _ _), Superblock.inUse_setBit]
  simp

end

/-- **balloc** gives out a block that was in nobody's hands, or the disk is full. -/
theorem balloc_spec (hs : s.sb.Sound) (h : Owned s.sb I s.block X) : Runs D 2 balloc s fun a s' =>
    a = 0 ∧ s' = s ∧ s.sb.free s.block = ∅ ∨
    a ∈ s.sb.free s.block ∧ Owned s.sb I s'.block (a ::ₘ X) ∧ s'.block = taken s.sb s.block a ∧
      s'.itable = s.itable ∧ a ∈ s'.lh := by
  unfold balloc
  refine Runs.get ?_
  cases hf : (List.range s.sb.size).find? fun b => !(s.block (s.sb.BBLOCK b)).bit (b % BPB) with
  | none =>
    refine Runs.pure (.inl ⟨rfl, rfl, ?_⟩)
    refine Finset.eq_empty_of_forall_notMem fun b hb => ?_
    have hall := List.find?_eq_none.mp hf b (List.mem_range.mpr (Superblock.mem_free.mp hb).1)
    have hfree := (Superblock.mem_free.mp hb).2
    rw [Superblock.inUse] at hfree
    simp [hfree] at hall
  | some b =>
    have hb := List.mem_range.mp (List.mem_of_find?_eq_some hf)
    have hfree : s.sb.inUse s.block b = false := by simpa [Superblock.inUse] using List.find?_some hf
    refine Runs.bread (Runs.log (Runs.log (g := fun _ => pure b) (Runs.pure ?_)))
    exact .inr ⟨Superblock.mem_free.mpr ⟨hb, hfree⟩, h.alloc hs hb hfree _ rfl, rfl, rfl, State.mem_log⟩

/-! ## The blocks of a file -/

/-- What is missing for block `k` of a file: the block, and the one that would list it. -/
def missing (d : Dinode) (blk : Nat → Block) (k : Nat) : Nat :=
  (if d.addr blk k = 0 then 1 else 0) + if NDIRECT ≤ k ∧ d.addrs NDIRECT = 0 then 1 else 0

/-- `ip` is the in-memory copy of an allocated inode of `I`. -/
structure Live (I : Nat → Dinode) (s : State) (ip : Fin NINODE) : Prop where
  inum : (s.itable ip).inum < s.sb.ninodes
  dinode : I (s.itable ip).inum = (s.itable ip).d
  type : (s.itable ip).d.type ≠ 0

theorem Live.owns {ip : Fin NINODE} (hl : Live I s ip) (blk : Nat → Block) :
    (I (s.itable ip).inum).owns blk = (s.itable ip).d.refs blk := by
  rw [hl.dinode, Dinode.owns_of_ne hl.type]

theorem Live.mem {ip : Fin NINODE} {b : Nat} (hl : Live I s ip) (hb : b ∈ (s.itable ip).d.refs s.block) :
    b ∈ s.sb.refsOf I s.block :=
  Superblock.mem_refsOf.mpr ⟨_, hl.inum, by rwa [hl.owns]⟩

theorem Live.indirect_mem {ip : Fin NINODE} (hl : Live I s ip) (hn : (s.itable ip).d.addrs NDIRECT ≠ 0) :
    (s.itable ip).d.addrs NDIRECT ∈ s.sb.refsOf I s.block := hl.mem (Dinode.indirect_mem _ hn)

/-- **What bmap does** for block `k` of `ip`, returning `a`: the inode is `d` then. -/
structure Bmapped (I : Nat → Dinode) (X : Multiset Nat) (ip : Fin NINODE) (k : Nat) (s : State) (a : Nat) (s' : State)
    (d : Dinode) : Prop where
  itable : s'.itable = Function.update s.itable ip { s.itable ip with d }
  owned : Owned s.sb (Function.update I (s.itable ip).inum d) s'.block X
  fields : d = { (s.itable ip).d with addrs := d.addrs }
  addr : d.addr s'.block k = a
  others : ∀ j < MAXFILE, j ≠ k → d.addr s'.block j = (s.itable ip).d.addr s.block j
  stays : (s.itable ip).d.addr s.block k ≠ 0 → (s.itable ip).d.addr s.block k = a
  fresh : (s.itable ip).d.addr s.block k = 0 → a ≠ 0 → a ∈ s'.lh ∧ a ∉ s.sb.refsOf I s.block
  indirect : (s.itable ip).d.addrs NDIRECT ≠ 0 ∨ k < NDIRECT → d.addrs NDIRECT = (s.itable ip).d.addrs NDIRECT
  listed : a ≠ 0 → NDIRECT ≤ k → d.addrs NDIRECT ≠ 0
  room : a ≠ 0 → (s.sb.free s'.block).card + missing (s.itable ip).d s.block k = (s.sb.free s.block).card
  full : a = 0 → (s.sb.free s.block).card < missing (s.itable ip).d s.block k
  keeps : ∀ b ∈ s.sb.refsOf I s.block, b ≠ (s.itable ip).d.addrs NDIRECT → s'.block b = s.block b
  inodes : ∀ j < s.sb.ninodes, s.sb.inode s'.block j = s.sb.inode s.block j

section

variable {sb : Superblock} {blk : Nat → Block} {a b i : Nat}

theorem Sound.IBLOCK_lt (hs : sb.Sound) (hi : i < sb.ninodes) (b : Nat) : sb.IBLOCK i < sb.BBLOCK b :=
  (hs.inodes i hi).trans_le (Nat.le_add_left _ _)

/-- Taking a block touches none that is owned. -/
theorem taken_same (hs : sb.Sound) (h : Owned sb I blk X) (ha : a ∈ sb.free blk) (hb : b ∈ sb.refsOf I blk) :
    taken sb blk a b = blk b := by
  have ha := Superblock.mem_free.mp ha
  have hb' : b ∈ sb.refsOf I blk + X := Multiset.mem_add.mpr (.inl hb)
  have hr := h.range b hb'
  have hm := hs.bitmap a ha.1
  refine taken_of_ne (fun he => (h.not_mem ha.1 ha.2).2 (he ▸ hb')) (by omega)

theorem inode_taken (hs : sb.Sound) (h : Owned sb I blk X) (ha : a ∈ sb.free blk) (hi : i < sb.ninodes) :
    sb.inode (taken sb blk a) i = sb.inode blk i := by
  have ha := Superblock.mem_free.mp ha
  have hib := Sound.IBLOCK_lt hs hi a
  have hm := hs.bitmap a ha.1
  have hd := (h.not_mem ha.1 ha.2).1
  exact Superblock.inode_congr (taken_of_ne (by omega) (by omega))

theorem card_taken (hs : sb.Sound) (h : Owned sb I blk X) (ha : a ∈ sb.free blk) :
    (sb.free (taken sb blk a)).card + 1 = (sb.free blk).card := by
  have hf := Superblock.mem_free.mp ha
  rw [free_taken hs (h.not_mem hf.1 hf.2).1]
  exact Finset.card_erase_add_one ha

end

variable {ip : Fin NINODE} {k : Nat}

/-- bmap finds the block, or a full disk. -/
theorem Bmapped.unchanged (h : Owned s.sb I s.block X) (hl : Live I s ip)
    (hz : (s.itable ip).d.addr s.block k = 0 → (s.sb.free s.block).card < missing (s.itable ip).d s.block k)
    (hlist : (s.itable ip).d.addr s.block k ≠ 0 → NDIRECT ≤ k → (s.itable ip).d.addrs NDIRECT ≠ 0) :
    Bmapped I X ip k s ((s.itable ip).d.addr s.block k) s (s.itable ip).d where
  itable := (Function.update_eq_self ip s.itable).symm
  owned := by
    rw [← hl.dinode, Function.update_eq_self]
    exact h
  fields := rfl
  addr := rfl
  others _ _ _ := rfl
  stays _ := rfl
  fresh h0 hne := absurd h0 hne
  indirect _ := rfl
  listed := hlist
  room hne := by
    have hmiss : missing (s.itable ip).d s.block k = 0 := by
      unfold missing
      rw [if_neg hne, if_neg fun hh => hlist hne hh.1 hh.2]
    rw [hmiss, Nat.add_zero]
  full := hz
  keeps _ _ _ := rfl
  inodes _ _ := rfl

/-- bmap puts a new block into the slot. -/
theorem Bmapped.attached {a : Nat} {s' : State} {d : Dinode} (hs : s.sb.Sound) (h : Owned s.sb I s.block X)
    (hl : Live I s ip) (ha : a ∈ s.sb.free s.block) (hm : k < MAXFILE) (h0 : (s.itable ip).d.addr s.block k = 0)
    (hlist : NDIRECT ≤ k → (s.itable ip).d.addrs NDIRECT ≠ 0) (hlog : a ∈ s'.lh)
    (hit : s'.itable = Function.update s.itable ip { s.itable ip with d }) (hwf : d.Wf)
    (hfields : d = { (s.itable ip).d with addrs := d.addrs })
    (hind : d.addrs NDIRECT = (s.itable ip).d.addrs NDIRECT)
    (hrefs : d.refs s'.block = {a} + (s.itable ip).d.refs (taken s.sb s.block a))
    (haddr : ∀ j < MAXFILE, d.addr s'.block j = if j = k then a else (s.itable ip).d.addr s.block j)
    (hblk : ∀ b, ((s.itable ip).d.addrs NDIRECT ≠ 0 → b ≠ (s.itable ip).d.addrs NDIRECT) →
      s'.block b = taken s.sb s.block a b) : Bmapped I X ip k s a s' d := by
  have hfree := Superblock.mem_free.mp ha
  have hapart := h.not_mem hfree.1 hfree.2
  have ha0 : a ≠ 0 := Owned.pos hs ⟨hapart.1, hfree.1⟩
  have hown : Owned s.sb I (taken s.sb s.block a) (a ::ₘ X) := h.alloc hs hfree.1 hfree.2 (Buffer.fill 0) rfl
  have hdt : (I (s.itable ip).inum).type ≠ 0 := hl.dinode ▸ hl.type
  have ht : d.type ≠ 0 := by
    rw [hfields]
    exact hl.type
  have hsize : d.size = (I (s.itable ip).inum).size := by rw [hfields, hl.dinode]
  -- the indirect block is this file's own
  have hmem (hn : (s.itable ip).d.addrs NDIRECT ≠ 0) :
      (s.itable ip).d.addrs NDIRECT ∈ (I (s.itable ip).inum).owns s.block := by
    rw [hl.dinode]
    exact Dinode.indirect_owned hl.type hn
  have hmeta (b : Nat) (hb : b < s.sb.datastart) : s'.block b = taken s.sb s.block a b := by
    refine hblk b fun hn => ?_
    have := (h.range_of hl.inum (hmem hn)).1
    omega
  refine ⟨hit, ?_, hfields, by rw [haddr k hm, if_pos rfl], fun j hj hjk => by rw [haddr j hj, if_neg hjk],
    fun hne => absurd h0 hne, fun _ _ => ⟨hlog, ?_⟩, fun _ => hind, fun _ hk => hind ▸ hlist hk, fun _ => ?_,
    fun hz => absurd hz ha0, fun b hb hne => ?_, fun j hj => ?_⟩
  · refine hown.replace hl.inum hwf (fun _ j hj => ?_) ?_ (fun b hb => ?_) fun j hj hij htj hn => ?_
    · have hle := h.size_le hl.inum hdt
      rw [hsize] at hj
      rw [haddr j (by omega)]
      split
      · exact ha0
      · rw [← hl.dinode]
        exact h.full _ hl.inum hdt j hj
    · rw [Dinode.owns_of_ne ht, Dinode.owns_of_ne hdt, hl.dinode, hrefs, add_right_comm, add_comm, ← Multiset.singleton_add]
    · exact hmeta _ (hs.bitmap b hb)
    · refine hblk _ fun hn' he => ?_
      exact h.apart hl.inum hj hij (hmem hn') (he ▸ Dinode.indirect_owned htj hn)
  · exact fun hb => hapart.2 (Multiset.mem_add.mpr (.inl hb))
  · have hcongr : s.sb.free s'.block = s.sb.free (taken s.sb s.block a) := by
      ext b
      rw [Superblock.mem_free, Superblock.mem_free]
      exact and_congr_right fun hb => by rw [Superblock.inUse_congr (hmeta _ (hs.bitmap b hb))]
    have hmiss : missing (s.itable ip).d s.block k = 1 := by
      unfold missing
      rw [if_pos h0, if_neg fun hh => hlist hh.1 hh.2]
    rw [hcongr, hmiss]
    exact card_taken hs h ha
  · rw [hblk b fun _ => hne]
    exact taken_same hs h ha hb
  · rw [← inode_taken hs h ha hj]
    exact Superblock.inode_congr (hmeta _ ((Sound.IBLOCK_lt hs hj a).trans (hs.bitmap a hfree.1)))

theorem bmapIndirect_spec (hs : s.sb.Sound) (h : Owned s.sb I s.block X) (hl : Live I s ip)
    (hn : (s.itable ip).d.addrs NDIRECT ≠ 0) (hk : NDIRECT ≤ k) (hm : k < MAXFILE) :
    Runs D 3 (bmapIndirect ((s.itable ip).d.addrs NDIRECT) (k - NDIRECT)) s fun a s' => ∃ d, Bmapped I X ip k s a s' d := by
  have haddr : (s.itable ip).d.addr s.block k = (s.block ((s.itable ip).d.addrs NDIRECT)).word (k - NDIRECT) :=
    Dinode.addr_indirect hk hn
  have hmem := hl.indirect_mem hn
  unfold bmapIndirect
  refine Runs.bread ?_
  rw [← haddr]
  dsimp only
  split
  · next h0 =>
    refine (balloc_spec hs h).seq 1 le_rfl fun a s₁ hkept hq => ?_
    rcases hq with ⟨rfl, rfl, hfull⟩ | ⟨ha, hown, hblk, hit, hlog⟩
    · rw [if_pos rfl]
      refine Runs.pure ⟨_, h0 ▸ Bmapped.unchanged h hl (fun _ => ?_) fun hne => absurd h0 hne⟩
      rw [hfull, missing, if_pos h0, Finset.card_empty]
      omega
    · have hfree := Superblock.mem_free.mp ha
      have hapart := h.not_mem hfree.1 hfree.2
      have ha0 : a ≠ 0 := Owned.pos hs ⟨hapart.1, hfree.1⟩
      have hlt : a < 2 ^ 32 := hfree.1.trans hs.size
      have hsame : s₁.block ((s.itable ip).d.addrs NDIRECT) = s.block ((s.itable ip).d.addrs NDIRECT) := by
        rw [hblk]
        exact taken_same hs h ha hmem
      have haddr₁ : (s.itable ip).d.addr s₁.block = (s.itable ip).d.addr s.block := Dinode.addr_congr fun _ => hsame
      rw [if_neg ha0]
      refine Runs.bread (Runs.log (Runs.pure ⟨(s.itable ip).d, ?_⟩))
      have hwf := h.wf _ hl.inum
      rw [hl.dinode] at hwf
      refine Bmapped.attached hs h hl ha hm h0 (fun _ => hn) (State.log_subset hlog) ?_ hwf rfl rfl ?_
        (fun j hj => ?_) fun b hb => ?_
      · rw [Function.update_eq_self]
        exact hit
      · rw [← hblk]
        exact Dinode.refs_setWord hn hk hm (by rw [haddr₁]; exact h0) ha0 hlt
      · rw [← haddr₁]
        exact Dinode.addr_setWord _ hn hk hj hlt
      · rw [← hblk]
        exact Function.update_of_ne (hb hn) _ _
  · next hne => exact Runs.pure ⟨_, Bmapped.unchanged h hl (fun h0 => absurd h0 hne) fun _ _ => hn⟩

/-- bmap first takes a block for the indirect one. -/
theorem Bmapped.after_indirect {a b : Nat} {s₁ s' : State} {d : Dinode} (hs : s.sb.Sound) (h : Owned s.sb I s.block X)
    (hl : Live I s ip) (hk : NDIRECT ≤ k) (hn : (s.itable ip).d.addrs NDIRECT = 0) (ha : a ∈ s.sb.free s.block)
    (hblk : s₁.block = taken s.sb s.block a) (hsb : s₁.sb = s.sb)
    (hit : s₁.itable = Function.update s.itable ip { s.itable ip with d := (s.itable ip).d.setAddr NDIRECT a })
    (hb : Bmapped (Function.update I (s.itable ip).inum ((s.itable ip).d.setAddr NDIRECT a)) X ip k s₁ b s' d) :
    Bmapped I X ip k s b s' d := by
  have hfree := Superblock.mem_free.mp ha
  have hapart := h.not_mem hfree.1 hfree.2
  have ha0 : a ≠ 0 := Owned.pos hs ⟨hapart.1, hfree.1⟩
  have hx : s₁.itable ip = { s.itable ip with d := (s.itable ip).d.setAddr NDIRECT a } := by
    rw [hit, Function.update_self]
  have hzero : s₁.block a = Buffer.fill 0 := by rw [hblk, taken_self]
  have haddr : (s₁.itable ip).d.addr s₁.block = (s.itable ip).d.addr s.block := by
    rw [hx]
    exact (Dinode.addr_setIndirect hn hzero).trans (Dinode.addr_congr fun hne => absurd hn hne)
  have hk0 : (s.itable ip).d.addr s.block k = 0 := by
    unfold Dinode.addr
    rw [if_neg (by omega), if_pos hn]
  have hind : (s₁.itable ip).d.addrs NDIRECT = a := by
    rw [hx]
    exact (Dinode.addrs_setAddr ..).trans (if_pos rfl)
  have hmiss : missing (s.itable ip).d s.block k = 2 := by
    unfold missing
    rw [if_pos hk0, if_pos ⟨hk, hn⟩]
  have hmiss₁ : missing (s₁.itable ip).d s₁.block k = 1 := by
    unfold missing
    rw [haddr, if_pos hk0, hind, if_neg fun hh => ha0 hh.2]
  have hcard : (s.sb.free s₁.block).card + 1 = (s.sb.free s.block).card := by
    rw [hblk]
    exact card_taken hs h ha
  have hmem (c : Nat) (hc : c ∈ s.sb.refsOf I s.block) :
      c ∈ s.sb.refsOf (Function.update I (s.itable ip).inum ((s.itable ip).d.setAddr NDIRECT a)) s₁.block := by
    obtain ⟨j, hj, hcj⟩ := Superblock.mem_refsOf.mp hc
    refine Superblock.mem_refsOf.mpr ⟨j, hj, ?_⟩
    by_cases hij : j = (s.itable ip).inum
    · rw [hij, hl.dinode, Dinode.owns_of_ne hl.type] at hcj
      rw [hij, Function.update_self, Dinode.owns_of_ne (d := (s.itable ip).d.setAddr NDIRECT a) hl.type,
        Dinode.refs_setIndirect hn hzero ha0, Dinode.refs_congr fun hne => absurd hn hne]
      exact Multiset.mem_add.mpr (.inr hcj)
    · rw [Function.update_of_ne hij, Dinode.owns_congr fun htj hnj => ?_]
      · exact hcj
      · rw [hblk]
        exact taken_same hs h ha (Superblock.mem_refsOf.mpr ⟨j, hj, Dinode.indirect_owned htj hnj⟩)
  have hinum : (s₁.itable ip).inum = (s.itable ip).inum := by rw [hx]
  have hid : (s₁.itable ip).d = (s.itable ip).d.setAddr NDIRECT a := by rw [hx]
  have hown := hb.owned
  rw [hsb, hinum, Function.update_idem] at hown
  refine ⟨?_, hown, ?_, hb.addr, fun j hj hjk => ?_, fun hne => absurd hk0 hne, fun _ hne => ?_, ?_, fun hne hk => ?_,
    fun hne => ?_, fun h0 => ?_, fun c hc _ => ?_, fun j hj => ?_⟩
  · rw [hb.itable, hit, Function.update_self, Function.update_idem]
  · rw [hb.fields, hid]
    rfl
  · rw [hb.others j hj hjk, haddr]
  · have hf := hb.fresh (by rw [haddr]; exact hk0) hne
    exact ⟨hf.1, fun hc => hf.2 (by rw [hsb]; exact hmem _ hc)⟩
  · rintro (hne | hlt)
    · exact absurd hn hne
    · omega
  · exact hb.listed hne hk
  · have := hb.room hne
    rw [hsb] at this
    omega
  · have := hb.full h0
    rw [hsb] at this
    omega
  · rw [hb.keeps c (by rw [hsb]; exact hmem c hc) ?_, hblk]
    · exact taken_same hs h ha hc
    · rw [hind]
      exact fun he => hapart.2 (he ▸ Multiset.mem_add.mpr (.inl hc))
  · have := hb.inodes j (by rw [hsb]; exact hj)
    rw [hsb, hblk] at this
    exact this.trans (inode_taken hs h ha hj)

/-- **bmap** keeps the account exact, and finds the block or the disk full. -/
theorem bmap_spec (hs : s.sb.Sound) (h : Owned s.sb I s.block X) (hl : Live I s ip) (hm : k < MAXFILE) :
    Runs D 5 (bmap ip k) s fun a s' => ∃ d, Bmapped I X ip k s a s' d := by
  have hwf : (s.itable ip).d.Wf := hl.dinode ▸ h.wf _ hl.inum
  have hdt : (I (s.itable ip).inum).type ≠ 0 := hl.dinode ▸ hl.type
  unfold bmap
  refine Runs.inode ?_
  split
  · next hk =>
    have haddr : (s.itable ip).d.addr s.block k = (s.itable ip).d.addrs k := Dinode.addr_direct hk
    have hlist : NDIRECT ≤ k → (s.itable ip).d.addrs NDIRECT ≠ 0 := fun hh => by omega
    rw [← haddr]
    split
    · next h0 =>
      refine (balloc_spec hs h).seq 3 le_rfl fun a s₁ hkept hq => ?_
      rcases hq with ⟨rfl, rfl, hfull⟩ | ⟨ha, hown, hblk, hit, hlog⟩
      · rw [if_pos rfl]
        refine Runs.pure ⟨_, h0 ▸ Bmapped.unchanged h hl (fun _ => ?_) fun hne => absurd h0 hne⟩
        rw [hfull, missing, if_pos h0, Finset.card_empty]
        omega
      · have hfree := Superblock.mem_free.mp ha
        have ha0 : a ≠ 0 := Owned.pos hs ⟨(h.not_mem hfree.1 hfree.2).1, hfree.1⟩
        have hn : ((s.itable ip).d.setAddr k a).addrs NDIRECT = (s.itable ip).d.addrs NDIRECT := by
          rw [Dinode.addrs_setAddr, if_neg (by omega)]
        rw [if_neg ha0]
        refine Runs.setInode (Runs.pure ⟨(s.itable ip).d.setAddr k a, ?_⟩)
        refine Bmapped.attached hs h hl ha hm h0 hlist hlog ?_ (hwf.setAddr (by omega) (hfree.1.trans hs.size)) rfl hn ?_
          (fun j hj => ?_) fun b _ => congrFun hblk b
        · change Function.update s₁.itable ip _ = _
          rw [hit]
        · rw [← hblk]
          exact Dinode.refs_setAddr hk (haddr ▸ h0) ha0
        · rw [← Dinode.addr_setAddr hk]
          refine congrFun (Dinode.addr_congr fun hne => ?_) j
          rw [hn] at hne ⊢
          rw [show (s₁.updInode ip _).block = s₁.block from rfl, hblk]
          exact taken_same hs h ha (hl.indirect_mem hne)
    · next hne => exact Runs.pure ⟨_, Bmapped.unchanged h hl (fun h0 => absurd h0 hne) fun _ hk => by omega⟩
  · next hk =>
    have hM : MAXFILE = NDIRECT + NINDIRECT := rfl
    rw [if_pos (by omega)]
    split
    · next hn =>
      refine (balloc_spec hs h).seq 3 le_rfl fun a s₁ hkept hq => ?_
      have hk0 : (s.itable ip).d.addr s.block k = 0 := by
        unfold Dinode.addr
        rw [if_neg hk, if_pos hn]
      rcases hq with ⟨rfl, rfl, hfull⟩ | ⟨ha, hown, hblk, hit, hlog⟩
      · rw [if_pos rfl]
        refine Runs.pure ⟨_, hk0 ▸ Bmapped.unchanged h hl (fun _ => ?_) fun hne => absurd hk0 hne⟩
        rw [hfull, missing, if_pos hk0, Finset.card_empty]
        omega
      · have hfree := Superblock.mem_free.mp ha
        have ha0 : a ≠ 0 := Owned.pos hs ⟨(h.not_mem hfree.1 hfree.2).1, hfree.1⟩
        have hx : (s₁.updInode ip fun x => { x with d := x.d.setAddr NDIRECT a }).itable =
            Function.update s.itable ip { s.itable ip with d := (s.itable ip).d.setAddr NDIRECT a } := by
          change Function.update s₁.itable ip _ = _
          rw [hit]
        rw [if_neg ha0]
        refine Runs.setInode ?_
        generalize hs₂ : (s₁.updInode ip fun x => { x with d := x.d.setAddr NDIRECT a }) = s₂ at hx ⊢
        have hsb : s₂.sb = s.sb := hs₂ ▸ hkept.sb
        have hblk₂ : s₂.block = taken s.sb s.block a := hs₂ ▸ hblk
        have hx' : s₂.itable ip = { s.itable ip with d := (s.itable ip).d.setAddr NDIRECT a } := by
          rw [hx, Function.update_self]
        have hind : (s₂.itable ip).d.addrs NDIRECT = a := by
          rw [hx']
          exact (Dinode.addrs_setAddr ..).trans (if_pos rfl)
        have hzero : taken s.sb s.block a a = Buffer.fill 0 := taken_self
        have haddr : ((s.itable ip).d.setAddr NDIRECT a).addr (taken s.sb s.block a) = (s.itable ip).d.addr s.block :=
          (Dinode.addr_setIndirect hn hzero).trans (Dinode.addr_congr fun hne => absurd hn hne)
        have hown₂ : Owned s₂.sb (Function.update I (s.itable ip).inum ((s.itable ip).d.setAddr NDIRECT a)) s₂.block X := by
          rw [hsb, hblk₂]
          rw [hblk] at hown
          refine hown.replace hl.inum (hwf.setAddr le_rfl (hfree.1.trans hs.size)) (fun _ j hj => ?_) ?_ (fun _ _ => rfl)
            fun _ _ _ _ _ => rfl
          · rw [haddr, ← hl.dinode]
            exact h.full _ hl.inum hdt j (hl.dinode ▸ hj)
          · rw [hl.owns, Dinode.owns_of_ne (d := (s.itable ip).d.setAddr NDIRECT a) hl.type,
              Dinode.refs_setIndirect hn hzero ha0, add_right_comm, add_comm, ← Multiset.singleton_add]
        have hl₂ : Live (Function.update I (s.itable ip).inum ((s.itable ip).d.setAddr NDIRECT a)) s₂ ip := by
          refine ⟨?_, ?_, ?_⟩
          · rw [hx', hsb]
            exact hl.inum
          · rw [hx', Function.update_self]
          · rw [hx']
            exact hl.type
        have hrun := bmapIndirect_spec (D := D) (hsb ▸ hs) hown₂ hl₂ (by rw [hind]; exact ha0) (by omega) hm
        rw [hind] at hrun
        refine hrun.mono le_rfl fun b s' _ hq => ?_
        obtain ⟨d, hd⟩ := hq
        exact ⟨d, hd.after_indirect hs h hl (by omega) hn ha hblk₂ hsb hx⟩
    · next hn => exact (bmapIndirect_spec hs h hl hn (by omega) hm).mono (by omega) fun _ _ _ hq => hq

/-! ## Writing the inode back -/

/-- **What iupdate does**: the inode on disk is the one in memory. -/
structure Iupdated (ip : Fin NINODE) (s s' : State) : Prop where
  itable : s'.itable = s.itable
  inode : ∀ j, s.sb.inode s'.block j = if j = (s.itable ip).inum then (s.itable ip).d else s.sb.inode s.block j
  bitmap : ∀ b < s.sb.size, s'.block (s.sb.BBLOCK b) = s.block (s.sb.BBLOCK b)
  data : ∀ b, s.sb.datastart ≤ b → s'.block b = s.block b

theorem iupdate_spec (hs : s.sb.Sound) (hi : (s.itable ip).inum < s.sb.ninodes) (hwf : (s.itable ip).d.Wf) :
    Runs D 1 (iupdate ip) s fun _ s' => Iupdated ip s s' := by
  unfold iupdate
  refine Runs.inode (Runs.get (Runs.bread (Runs.log_last ⟨rfl, fun j => ?_, fun b hb => ?_, fun b hb => ?_⟩)))
  · exact Superblock.inode_setInode hwf
  · exact Function.update_of_ne (Nat.ne_of_gt (Sound.IBLOCK_lt hs hi b)) _ _
  · have := hs.inodes _ hi
    have := hs.data
    exact Function.update_of_ne (by omega) _ _

theorem Iupdated.owned {s' : State} (hu : Iupdated ip s s') (h : Owned s.sb I s.block X) : Owned s.sb I s'.block X :=
  h.congr hu.bitmap fun _ hi ht hn => hu.data _ (h.range_of hi (Dinode.indirect_owned ht hn)).1

end Xv6.Fs
