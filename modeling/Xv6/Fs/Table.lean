/-
The table of in-memory inodes is a cache of the inodes on disk. An inode of the file
system is its valid copy in the table if there is one, and the one on disk otherwise;
no two entries in use are for the same inode.
-/
import Xv6.Fs.File

namespace Xv6.Fs

open Lib

namespace State

/-- The table entry iget finds. -/
def entry (s : State) (inum : Nat) : Option (Fin NINODE) :=
  (List.finRange NINODE).find? fun ip => (s.itable ip).ref > 0 ∧ (s.itable ip).inum = inum

/-- **The inode** `inum` as the kernel has it. -/
def dinode (s : State) (inum : Nat) : Dinode :=
  match s.entry inum with
  | some ip => if (s.itable ip).valid then (s.itable ip).d else s.sb.inode s.block inum
  | none => s.sb.inode s.block inum

/-- No two entries in use are for the same inode. -/
def Keyed (s : State) : Prop := ∀ ip jp, 0 < (s.itable ip).ref → 0 < (s.itable jp).ref →
  (s.itable ip).inum = (s.itable jp).inum → ip = jp

/-- **A consistent file system**: the areas of the disk are apart, the table is keyed, and the account of the blocks is
exact, with no holes in files. -/
structure Consistent (s : State) : Prop where
  sound : s.sb.Sound
  keyed : s.Keyed
  owned : Owned s.sb s.dinode s.block 0

/-- `ip` refers to an allocated inode that has been read from disk, as after ilock. -/
structure Holds (s : State) (ip : Fin NINODE) : Prop where
  ref : 0 < (s.itable ip).ref
  valid : (s.itable ip).valid = true
  inum : (s.itable ip).inum < s.sb.ninodes
  type : (s.itable ip).d.type ≠ 0

/-- The contents of file `inum`. -/
def contents (s : State) (inum : Nat) : List UInt8 := (s.dinode inum).bytes s.block

end State

variable {s s' : State} {ip : Fin NINODE} {inum : Nat} {d : Dinode}

theorem State.entry_some (hk : s.Keyed) : s.entry inum = some ip ↔ 0 < (s.itable ip).ref ∧ (s.itable ip).inum = inum := by
  constructor
  · intro h
    simpa using List.find?_some h
  · intro h
    cases hf : s.entry inum with
    | none =>
      have hall := List.find?_eq_none.mp hf ip (List.mem_finRange ip)
      simp only [decide_eq_true_eq] at hall
      exact absurd h hall
    | some jp =>
      have hj : 0 < (s.itable jp).ref ∧ (s.itable jp).inum = inum := by simpa using List.find?_some hf
      rw [hk ip jp h.1 hj.1 (h.2.trans hj.2.symm)]

/-- What an entry in use says of its inode. -/
theorem State.dinode_entry (hk : s.Keyed) (hr : 0 < (s.itable ip).ref) : s.dinode (s.itable ip).inum =
    if (s.itable ip).valid then (s.itable ip).d else s.sb.inode s.block (s.itable ip).inum := by
  unfold dinode
  rw [(entry_some hk).mpr ⟨hr, rfl⟩]

theorem State.dinode_of_valid (hk : s.Keyed) (hr : 0 < (s.itable ip).ref) (hv : (s.itable ip).valid = true) :
    s.dinode (s.itable ip).inum = (s.itable ip).d := by
  rw [dinode_entry hk hr, if_pos hv]

theorem State.Holds.live (h : s.Holds ip) (hk : s.Keyed) : Live s.dinode s ip :=
  ⟨h.inum, dinode_of_valid hk h.ref h.valid, h.type⟩

/-- One entry's copy changes. -/
theorem State.entry_setDinode (hit : s'.itable = Function.update s.itable ip { s.itable ip with d }) :
    s'.entry inum = s.entry inum := by
  unfold entry
  refine congrArg (fun p => List.find? p (List.finRange NINODE)) (funext fun jp => ?_)
  rw [hit]
  by_cases hj : jp = ip
  · rw [hj, Function.update_self]
  · rw [Function.update_of_ne hj]

theorem State.keyed_setDinode (hk : s.Keyed) (hit : s'.itable = Function.update s.itable ip { s.itable ip with d }) :
    s'.Keyed := by
  have hsame (jp : Fin NINODE) : (s'.itable jp).ref = (s.itable jp).ref ∧ (s'.itable jp).inum = (s.itable jp).inum := by
    rw [hit]
    by_cases hj : jp = ip
    · rw [hj, Function.update_self]
      exact ⟨rfl, rfl⟩
    · rw [Function.update_of_ne hj]
      exact ⟨rfl, rfl⟩
  intro jp kp hj hk' he
  rw [(hsame jp).1] at hj
  rw [(hsame kp).1] at hk'
  rw [(hsame jp).2, (hsame kp).2] at he
  exact hk jp kp hj hk' he

/-- Changing the copy of a valid entry, and the disk at most for that inode, changes that inode. -/
theorem State.dinode_setDinode (hk : s.Keyed) (hr : 0 < (s.itable ip).ref) (hv : (s.itable ip).valid = true)
    (hit : s'.itable = Function.update s.itable ip { s.itable ip with d }) (hsb : s'.sb = s.sb)
    (hdisk : inum ≠ (s.itable ip).inum → s.sb.inode s'.block inum = s.sb.inode s.block inum) :
    s'.dinode inum = Function.update s.dinode (s.itable ip).inum d inum := by
  unfold dinode
  rw [entry_setDinode hit, hsb]
  by_cases hi : inum = (s.itable ip).inum
  · rw [hi, Function.update_self, (entry_some hk).mpr ⟨hr, rfl⟩]
    dsimp only
    rw [hit, Function.update_self, if_pos hv]
  · rw [Function.update_of_ne hi, hdisk hi]
    cases he : s.entry inum with
    | none => rfl
    | some jp =>
      have hj := (entry_some hk).mp he
      have hne : jp ≠ ip := fun hji => hi (by rw [← hj.2, hji])
      dsimp only
      rw [hit, Function.update_of_ne hne]

theorem Owned.congr_inodes {sb : Superblock} {I J : Nat → Dinode} {blk : Nat → Block} {X : Multiset Nat}
    (h : Owned sb I blk X) (hIJ : ∀ i < sb.ninodes, J i = I i) : Owned sb J blk X := by
  refine h.of_refs (fun i hi => ?_) (fun i hi => ?_) ?_ fun _ _ => rfl
  · rw [hIJ i hi]
    exact h.wf i hi
  · rw [hIJ i hi]
    exact h.full i hi
  · rw [Superblock.refsOf_congr fun i hi => by rw [hIJ i hi]]

/-! ## iget and iput -/

/-- The first entry that is not in use. -/
def State.unused (s : State) : Option (Fin NINODE) := (List.finRange NINODE).find? fun ip => (s.itable ip).ref = 0

theorem State.unused_none : s.unused = none ↔ ∀ ip, 0 < (s.itable ip).ref := by
  simp [unused, Nat.pos_iff_ne_zero]

theorem State.unused_some (h : s.unused = some ip) : (s.itable ip).ref = 0 := by simpa using List.find?_some h

/-- iget finds the entry, or takes an unused one, or panics. -/
theorem iget_eq (inum : Nat) : iget inum s =
    match s.entry inum with
    | some ip => .ok (ip, s.updInode ip fun x => { x with ref := x.ref + 1 })
    | none =>
      match s.unused with
      | some ip => .ok (ip, s.updInode ip fun x => { x with inum, ref := 1, valid := false })
      | none => .error "iget: no inodes" := by
  unfold iget
  rw [Code.get_bind, ← State.entry, ← State.unused]
  cases s.entry inum with
  | some ip => rfl
  | none => cases s.unused <;> rfl

/-- Two states with the same file system: at most the entries of the table differ, and they cache the same inodes. -/
structure SameFs (s s' : State) : Prop where
  sb : s'.sb = s.sb
  block : s'.block = s.block
  disk : s'.disk = s.disk
  lh : s'.lh = s.lh
  outstanding : s'.outstanding = s.outstanding
  keyed : s.Keyed → s'.Keyed
  dinode : s.Keyed → ∀ inum, s'.dinode inum = s.dinode inum

namespace SameFs

theorem rfl : SameFs s s := ⟨Eq.refl _, Eq.refl _, Eq.refl _, Eq.refl _, Eq.refl _, id, fun _ _ => Eq.refl _⟩

theorem trans {s'' : State} (h : SameFs s s') (h' : SameFs s' s'') : SameFs s s'' where
  sb := h'.sb.trans h.sb
  block := h'.block.trans h.block
  disk := h'.disk.trans h.disk
  lh := h'.lh.trans h.lh
  outstanding := h'.outstanding.trans h.outstanding
  keyed hk := h'.keyed (h.keyed hk)
  dinode hk j := (h'.dinode (h.keyed hk) j).trans (h.dinode hk j)

variable (h : SameFs s s')

include h

theorem consistent (hc : s.Consistent) : s'.Consistent where
  sound := h.sb ▸ hc.sound
  keyed := h.keyed hc.keyed
  owned := by
    rw [h.sb, h.block]
    exact hc.owned.congr_inodes fun i _ => h.dinode hc.keyed i

theorem contents (hk : s.Keyed) (inum : Nat) : s'.contents inum = s.contents inum := by
  rw [State.contents, h.dinode hk, h.block, State.contents]

theorem room : s'.room = s.room := by rw [State.room, State.capacity, h.sb, h.lh, State.room, State.capacity]

end SameFs

/-- Two states that differ in entries that are not in use. -/
structure Idle (s s' : State) : Prop where
  sb : s'.sb = s.sb
  block : s'.block = s.block
  disk : s'.disk = s.disk
  lh : s'.lh = s.lh
  outstanding : s'.outstanding = s.outstanding
  itable : ∀ ip, s'.itable ip = s.itable ip ∨ (s'.itable ip).ref = 0 ∧ (s.itable ip).ref = 0

namespace Idle

variable (h : Idle s s')

include h

theorem used (hr : 0 < (s.itable ip).ref ∨ 0 < (s'.itable ip).ref) : s'.itable ip = s.itable ip := by
  rcases h.itable ip with he | ⟨h', h₀⟩
  · exact he
  · omega

theorem keyed (hk : s.Keyed) : s'.Keyed := by
  intro ip jp hi hj he
  have hip := h.used (.inr hi)
  have hjp := h.used (.inr hj)
  rw [hip] at hi he
  rw [hjp] at hj he
  exact hk ip jp hi hj he

theorem entry (inum : Nat) : s'.entry inum = s.entry inum := by
  unfold State.entry
  refine congrArg (fun p => List.find? p (List.finRange NINODE)) (funext fun jp => ?_)
  rcases h.itable jp with he | ⟨h', h₀⟩
  · rw [he]
  · simp [h', h₀]

theorem dinode (hk : s.Keyed) (inum : Nat) : s'.dinode inum = s.dinode inum := by
  unfold State.dinode
  rw [h.entry, h.sb, h.block]
  cases he : s.entry inum with
  | none => rfl
  | some ip =>
    dsimp only
    rw [h.used (.inl ((State.entry_some hk).mp he).1)]

theorem same : SameFs s s' := ⟨h.sb, h.block, h.disk, h.lh, h.outstanding, h.keyed, h.dinode⟩

theorem holds (hh : s.Holds ip) : s'.Holds ip := by
  have he := h.used (.inl hh.ref)
  exact ⟨he ▸ hh.ref, he ▸ hh.valid, he ▸ h.sb ▸ hh.inum, he ▸ hh.type⟩

end Idle

/-- **What iget does**: one more reference to an entry for `inum`, which caches what it did, or nothing. -/
structure Fetched (inum : Nat) (s : State) (ip : Fin NINODE) (s' : State) : Prop where
  same : SameFs s s'
  inum : (s'.itable ip).inum = inum
  ref : ∀ kp, (s'.itable kp).ref = (s.itable kp).ref + if kp = ip then 1 else 0
  locked : ∀ kp, (s'.itable kp).locked = (s.itable kp).locked
  keeps : ∀ kp, 0 < (s.itable kp).ref → s'.itable kp = { s.itable kp with ref := (s'.itable kp).ref }

theorem Fetched.holds {jp : Fin NINODE} (h : Fetched inum s ip s') (hh : s.Holds jp) :
    s'.Holds jp ∧ (s'.itable jp).inum = (s.itable jp).inum ∧ (s'.itable jp).d = (s.itable jp).d := by
  have hx := h.keeps jp hh.ref
  have hinum : (s'.itable jp).inum = (s.itable jp).inum := by rw [hx]
  have hd : (s'.itable jp).d = (s.itable jp).d := by rw [hx]
  refine ⟨⟨?_, ?_, ?_, ?_⟩, hinum, hd⟩
  · have := h.ref jp
    have := hh.ref
    omega
  · rw [hx]
    exact hh.valid
  · rw [hinum, h.same.sb]
    exact hh.inum
  · rw [hd]
    exact hh.type

/-- A change to an entry in use that keeps the inode it is for, and what it says of it. -/
theorem sameFs_updInode {f : Inode → Inode} (hr : 0 < (s.itable ip).ref) (hf : 0 < (f (s.itable ip)).ref)
    (hi : (f (s.itable ip)).inum = (s.itable ip).inum)
    (hd : s.Keyed → (if (f (s.itable ip)).valid then (f (s.itable ip)).d else s.sb.inode s.block (s.itable ip).inum) =
      s.dinode (s.itable ip).inum) : SameFs s (s.updInode ip f) := by
  have hself : (s.updInode ip f).itable ip = f (s.itable ip) := Function.update_self ..
  have hne (kp : Fin NINODE) (hk : kp ≠ ip) : (s.updInode ip f).itable kp = s.itable kp := Function.update_of_ne hk ..
  generalize hs' : s.updInode ip f = s' at hself hne
  have hsb : s'.sb = s.sb := hs' ▸ rfl
  have hblk : s'.block = s.block := hs' ▸ rfl
  have hpos (kp : Fin NINODE) : 0 < (s'.itable kp).ref ↔ 0 < (s.itable kp).ref := by
    by_cases hk : kp = ip
    · rw [hk, hself]
      exact ⟨fun _ => hr, fun _ => hf⟩
    · rw [hne kp hk]
  have hinum (kp : Fin NINODE) : (s'.itable kp).inum = (s.itable kp).inum := by
    by_cases hk : kp = ip
    · rw [hk, hself, hi]
    · rw [hne kp hk]
  have hentry (j : Nat) : s'.entry j = s.entry j := by
    unfold State.entry
    refine congrArg (fun p => List.find? p (List.finRange NINODE)) (funext fun kp => ?_)
    simp only [gt_iff_lt, hpos kp, hinum kp]
  refine ⟨hsb, hblk, hs' ▸ rfl, hs' ▸ rfl, hs' ▸ rfl, fun hk kp lp hkp hlp he => ?_, fun hk j => ?_⟩
  · rw [hinum, hinum] at he
    exact hk kp lp ((hpos kp).mp hkp) ((hpos lp).mp hlp) he
  · by_cases hj : j = (s.itable ip).inum
    · rw [hj, ← hd hk, State.dinode, hentry, (State.entry_some hk).mpr ⟨hr, rfl⟩, hsb, hblk]
      dsimp only
      rw [hself]
    · unfold State.dinode
      rw [hentry, hsb, hblk]
      cases he : s.entry j with
      | none => rfl
      | some kp =>
        have hkp : kp ≠ ip := by
          rintro rfl
          exact hj ((State.entry_some hk).mp he).2.symm
        dsimp only
        rw [hne kp hkp]

/-- An entry in use gets one more reference. -/
theorem fetched_dup (hr : 0 < (s.itable ip).ref) :
    Fetched (s.itable ip).inum s ip (s.updInode ip fun x => { x with ref := x.ref + 1 }) := by
  have hsame : SameFs s (s.updInode ip fun x => { x with ref := x.ref + 1 }) :=
    sameFs_updInode hr (Nat.succ_pos _) rfl fun hk => (State.dinode_entry hk hr).symm
  have hx (kp : Fin NINODE) : (s.updInode ip fun x => { x with ref := x.ref + 1 }).itable kp =
      { s.itable kp with ref := (s.itable kp).ref + if kp = ip then 1 else 0 } := by
    by_cases hk : kp = ip
    · rw [hk, if_pos rfl]
      exact Function.update_self ..
    · rw [if_neg hk]
      exact Function.update_of_ne hk ..
  refine ⟨hsame, ?_, fun kp => ?_, fun kp => ?_, fun kp _ => ?_⟩
  · rw [hx]
  · rw [hx]
  · rw [hx]
  · rw [hx]

/-- An entry that is not in use is taken for an inode that has none. -/
theorem fetched_new (he : s.entry inum = none) (hr : (s.itable ip).ref = 0) :
    Fetched inum s ip (s.updInode ip fun x => { x with inum, ref := 1, valid := false }) := by
  have hip : (s.updInode ip fun x => { x with inum, ref := 1, valid := false }).itable ip =
      { s.itable ip with inum, ref := 1, valid := false } := Function.update_self ..
  have hne (kp : Fin NINODE) (hk : kp ≠ ip) :
      (s.updInode ip fun x => { x with inum, ref := 1, valid := false }).itable kp = s.itable kp :=
    Function.update_of_ne hk ..
  generalize hs' : (s.updInode ip fun x => { x with inum, ref := 1, valid := false }) = s' at hip hne
  have hsb : s'.sb = s.sb := hs' ▸ rfl
  have hblk : s'.block = s.block := hs' ▸ rfl
  -- no entry in use is for `inum`
  have hfree (kp : Fin NINODE) (hk : 0 < (s.itable kp).ref) : (s.itable kp).inum ≠ inum := by
    have hall := List.find?_eq_none.mp he kp (List.mem_finRange kp)
    simp only [decide_eq_true_eq] at hall
    exact fun h => hall ⟨hk, h⟩
  have hkeyed (hk : s.Keyed) : s'.Keyed := by
    intro kp lp hkp hlp heq
    by_cases h₁ : kp = ip
    · by_cases h₂ : lp = ip
      · rw [h₁, h₂]
      · rw [h₁, hip, hne lp h₂] at heq
        rw [hne lp h₂] at hlp
        exact absurd heq.symm (hfree lp hlp)
    · rw [hne kp h₁] at hkp heq
      by_cases h₂ : lp = ip
      · rw [h₂, hip] at heq
        exact absurd heq (hfree kp hkp)
      · rw [hne lp h₂] at hlp heq
        exact hk kp lp hkp hlp heq
  refine ⟨⟨hsb, hblk, hs' ▸ rfl, hs' ▸ rfl, hs' ▸ rfl, hkeyed, fun hk j => ?_⟩, by rw [hip], fun kp => ?_, fun kp => ?_,
    fun kp hkp => ?_⟩
  · unfold State.dinode
    by_cases hj : j = inum
    · have h₁ : s'.entry inum = some ip := (State.entry_some (hkeyed hk)).mpr (by rw [hip]; exact ⟨Nat.one_pos, rfl⟩)
      rw [hj, he, h₁]
      dsimp only
      rw [hip, if_neg Bool.false_ne_true, hsb, hblk]
    · have h₁ : s'.entry j = s.entry j := by
        refine Option.ext fun kp => ?_
        rw [State.entry_some (hkeyed hk), State.entry_some hk]
        by_cases hkp : kp = ip
        · rw [hkp, hip, hr]
          simp [Ne.symm hj]
        · rw [hne kp hkp]
      rw [h₁, hsb, hblk]
      cases h₂ : s.entry j with
      | none => rfl
      | some kp =>
        have hkp : kp ≠ ip := by
          rintro rfl
          have := ((State.entry_some hk).mp h₂).1
          omega
        dsimp only
        rw [hne kp hkp]
  · split
    · next h => rw [h, hip, hr]
    · next h => rw [hne kp h, Nat.add_zero]
  · by_cases h : kp = ip
    · rw [h, hip]
    · rw [hne kp h]
  · have h : kp ≠ ip := by
      rintro rfl
      omega
    rw [hne kp h]

theorem iget_spec (s : State) (inum : Nat) : match iget inum s with
    | .ok (ip, s') => Fetched inum s ip s'
    | .error msg => msg = "iget: no inodes" ∧ s.unused = none := by
  rw [iget_eq]
  cases he : s.entry inum with
  | some ip =>
    have hf : 0 < (s.itable ip).ref ∧ (s.itable ip).inum = inum := by simpa using List.find?_some he
    exact hf.2 ▸ fetched_dup hf.1
  | none =>
    cases hu : s.unused with
    | none => exact ⟨rfl, rfl⟩
    | some ip => exact fetched_new he (State.unused_some hu)

/-- The reference iget has taken is given back at once: nothing is freed, whatever the inode. -/
theorem iput_after_iget {ip : Fin NINODE} {s₁ : State} (hg : iget inum s = .ok (ip, s₁)) :
    ∃ s₂, iput ip s₁ = .ok ((), s₂) ∧ Idle s s₂ := by
  have hput (hc : ¬ ((s₁.itable ip).ref = 1 ∧ (s₁.itable ip).valid ∧ (s₁.itable ip).d.nlink = 0)) :
      iput ip s₁ = .ok ((), s₁.updInode ip fun x => { x with ref := x.ref - 1 }) := by
    unfold iput Code.when
    rw [inode_bind, if_neg hc]
    rfl
  rw [iget_eq] at hg
  cases he : s.entry inum with
  | some jp =>
    rw [he] at hg
    cases hg
    have hr : 0 < (s.itable ip).ref := by
      have := List.find?_some he
      simp only [decide_eq_true_eq] at this
      exact this.1
    have hx : (s.updInode ip fun x => { x with ref := x.ref + 1 }).itable ip =
        { s.itable ip with ref := (s.itable ip).ref + 1 } := Function.update_self ..
    refine ⟨_, hput fun hh => ?_, rfl, rfl, rfl, rfl, rfl, fun kp => .inl ?_⟩
    · rw [hx] at hh
      exact absurd hh.1 (by simp only; omega)
    · change Function.update (Function.update s.itable ip _) ip _ kp = _
      rw [hx, Function.update_idem]
      exact congrFun (Function.update_eq_self ip s.itable) kp
  | none =>
    rw [he] at hg
    cases hu : s.unused with
    | none =>
      rw [hu] at hg
      cases hg
    | some jp =>
      rw [hu] at hg
      cases hg
      have hx : (s.updInode ip fun x => { x with inum, ref := 1, valid := false }).itable ip =
          { s.itable ip with inum, ref := 1, valid := false } := Function.update_self ..
      refine ⟨_, hput fun hh => ?_, rfl, rfl, rfl, rfl, rfl, fun kp => ?_⟩
      · rw [hx] at hh
        exact absurd hh.2.1 Bool.false_ne_true
      · change Function.update (Function.update s.itable ip _) ip _ kp = _ ∨
          (Function.update (Function.update s.itable ip _) ip _ kp).ref = 0 ∧ _
        rw [hx, Function.update_idem]
        by_cases hk : kp = ip
        · rw [hk, Function.update_self]
          exact .inr ⟨rfl, State.unused_some hu⟩
        · rw [Function.update_of_ne hk]
          exact .inl rfl

end Xv6.Fs
