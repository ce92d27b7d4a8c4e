/-
Locking an inode, and the brackets of a transaction. To whoever looks at files, ilock,
iunlock, begin_op and end_op change nothing: the entry says the same of its inode before
and after, and a commit only moves blocks from the cache to the disk.
-/
import Xv6.Fs.ByteArray

namespace Xv6.Fs

open Lib

variable {s s' : State} {ip : Fin NINODE}

/-- `ip` refers to an allocated inode, and nobody has it locked: what a struct file has. -/
structure State.Opened (s : State) (ip : Fin NINODE) : Prop where
  consistent : s.Consistent
  ref : 0 < (s.itable ip).ref
  unlocked : (s.itable ip).locked = false
  inum : (s.itable ip).inum < s.sb.ninodes
  type : (s.dinode (s.itable ip).inum).type ≠ 0

/-! ## ilock and iunlock -/

theorem State.updInode_congr {f g : Inode → Inode} (h : f (s.itable ip) = g (s.itable ip)) :
    s.updInode ip f = s.updInode ip g := by rw [updInode, updInode, h]

theorem State.updInode_updInode (f g : Inode → Inode) :
    (s.updInode ip f).updInode ip g = s.updInode ip fun x => g (f x) := by
  simp [updInode]

/-- ilock leaves a valid copy of the inode, which it reads from the disk if there was none. -/
theorem ilock_eq (hk : s.Keyed) (hr : 0 < (s.itable ip).ref) (hl : (s.itable ip).locked = false)
    (ht : (s.dinode (s.itable ip).inum).type ≠ 0) : ilock ip s =
      .ok ((), s.updInode ip fun x => { x with locked := true, valid := true, d := s.dinode x.inum }) := by
  have hdinode := State.dinode_entry hk hr
  have hacq : acquiresleep ip s = .ok ((), s.updInode ip fun x => { x with locked := true }) := by
    unfold acquiresleep
    rw [inode_bind, hl, if_neg Bool.false_ne_true]
    rfl
  have hx : (s.updInode ip fun x => { x with locked := true }).itable ip = { s.itable ip with locked := true } :=
    Function.update_self ..
  unfold ilock
  rw [inode_bind, if_neg (by omega), Code.bind_ok hacq, inode_bind, hx]
  by_cases hv : (s.itable ip).valid = true
  · rw [if_pos hv] at hdinode ⊢
    refine congrArg (fun t => Except.ok ((), t)) (State.updInode_congr ?_)
    rw [hdinode, hv]
  · rw [if_neg hv] at hdinode ⊢
    unfold load
    rw [inode_bind, Code.get_bind, hx]
    change (if (s.sb.inode s.block (s.itable ip).inum).type = 0 then _ else _ : Code State Unit) _ = _
    rw [if_neg (hdinode ▸ ht)]
    refine congrArg (fun t => Except.ok ((), t)) ((State.updInode_updInode _ _).trans (State.updInode_congr ?_))
    dsimp only
    rw [hdinode]
    rfl

/-- What ilock leaves: a holder of the inode, and the same file system. -/
structure Locks (s : State) (ip : Fin NINODE) (s' : State) : Prop where
  same : SameFs s s'
  holds : s'.Holds ip
  inum : (s'.itable ip).inum = (s.itable ip).inum
  locked : (s'.itable ip).locked = true

theorem State.Opened.ilock (h : s.Opened ip) : ∃ s', ilock ip s = .ok ((), s') ∧ Locks s ip s' := by
  refine ⟨_, ilock_eq h.consistent.keyed h.ref h.unlocked h.type, ?_⟩
  have hx : (s.updInode ip fun x => { x with locked := true, valid := true, d := s.dinode x.inum }).itable ip =
      { s.itable ip with locked := true, valid := true, d := s.dinode (s.itable ip).inum } := Function.update_self ..
  refine ⟨sameFs_updInode h.ref h.ref rfl fun _ => if_pos rfl, ⟨?_, ?_, ?_, ?_⟩, ?_, ?_⟩
  · rw [hx]
    exact h.ref
  · rw [hx]
  · rw [hx]
    exact h.inum
  · rw [hx]
    exact h.type
  · rw [hx]
  · rw [hx]

theorem State.Holds.iunlock (h : s.Holds ip) (hc : s.Consistent) (hl : (s.itable ip).locked = true) :
    ∃ s', iunlock ip s = .ok ((), s') ∧ SameFs s s' ∧ s'.Opened ip ∧ (s'.itable ip).inum = (s.itable ip).inum := by
  have heq : Fs.iunlock ip s = .ok ((), s.updInode ip fun x => { x with locked := false }) := by
    have hr := h.ref
    unfold Fs.iunlock
    rw [inode_bind, hl, if_neg (by simp; omega)]
    rfl
  have hx : (s.updInode ip fun x => { x with locked := false }).itable ip = { s.itable ip with locked := false } :=
    Function.update_self ..
  have hsame : SameFs s (s.updInode ip fun x => { x with locked := false }) :=
    sameFs_updInode h.ref h.ref rfl fun hk => (State.dinode_entry hk h.ref).symm
  have hinum : ((s.updInode ip fun x => { x with locked := false }).itable ip).inum = (s.itable ip).inum := by rw [hx]
  refine ⟨_, heq, hsame, ⟨hsame.consistent hc, ?_, ?_, ?_, ?_⟩, hinum⟩
  · rw [hx]
    exact h.ref
  · rw [hx]
  · rw [hinum]
    exact h.inum
  · rw [hinum, hsame.dinode hc.keyed, State.dinode_of_valid hc.keyed h.ref h.valid]
    exact h.type

/-! ## begin_op and end_op -/

theorem beginOp_ensures : beginOp.Ensures s fun _ s' => s' = { s with outstanding := s.outstanding + 1 } := by
  refine .get ?_
  split
  · exact .panic
  · exact .update rfl

theorem endOp_ensures : endOp.Ensures s fun _ s' => s'.sb = s.sb ∧ s'.block = s.block ∧ s'.itable = s.itable := by
  refine .get ?_
  split
  · exact .update ⟨rfl, rfl, rfl⟩
  · exact .update ⟨rfl, rfl, rfl⟩

theorem endOp_returns (s : State) : ∃ s', endOp s = .ok ((), s') := by
  unfold endOp
  rw [Code.get_bind]
  split
  · exact ⟨_, rfl⟩
  · exact ⟨_, rfl⟩

/-- Files are what the cached blocks and the table say. -/
theorem State.dinode_eq (hsb : s'.sb = s.sb) (hblk : s'.block = s.block) (hit : s'.itable = s.itable) :
    s'.dinode = s.dinode := by
  funext inum
  unfold dinode entry
  rw [hsb, hblk, hit]

theorem State.contents_eq (hsb : s'.sb = s.sb) (hblk : s'.block = s.block) (hit : s'.itable = s.itable) :
    s'.contents = s.contents := by
  funext inum
  rw [contents, dinode_eq hsb hblk hit, hblk, contents]

theorem State.Opened.congr (h : s.Opened ip) (hsb : s'.sb = s.sb) (hblk : s'.block = s.block)
    (hit : s'.itable = s.itable) : s'.Opened ip := by
  have hd := dinode_eq hsb hblk hit
  refine ⟨⟨?_, ?_, ?_⟩, ?_, ?_, ?_, ?_⟩
  · exact hsb ▸ h.consistent.sound
  · unfold Keyed
    rw [hit]
    exact h.consistent.keyed
  · rw [hsb, hd, hblk]
    exact h.consistent.owned
  · exact hit ▸ h.ref
  · exact hit ▸ h.unlocked
  · rw [hit, hsb]
    exact h.inum
  · rw [hit, hd]
    exact h.type

end Xv6.Fs
