/-
References to inodes, counted by inode number. A call that works on the table of inodes
without changing a file borrows references and gives them back: `Lent s₀ s H L` says that
`s` is `s₀` but for the references in `H` and the lock on `L`. iget, idup, ilock, iunlock
and iput change `H` and `L` as their names say, and iput frees nothing, as long as an
inode without links is referred to by somebody else.
-/
import Xv6.Fs.DirMap
import Xv6.Fs.Lock

namespace Xv6.Fs

open Lib

variable {s s' s₀ : State} {ip jp kp : Fin NINODE} {i j : Nat} {H : Multiset Nat} {L L₁ : Finset (Fin NINODE)}

/-! ## Counting -/

namespace State

/-- How many references there are to inode `i`. -/
def refs (s : State) (i : Nat) : Nat := (s.entry i).elim 0 fun ip => (s.itable ip).ref

/-- `ip` is the entry of inode `i`, in use. -/
structure At (s : State) (ip : Fin NINODE) (i : Nat) : Prop where
  ref : 0 < (s.itable ip).ref
  inum : (s.itable ip).inum = i

theorem At.entry (h : s.At ip i) (hk : s.Keyed) : s.entry i = some ip := (entry_some hk).mpr ⟨h.ref, h.inum⟩

theorem At.refs (h : s.At ip i) (hk : s.Keyed) : s.refs i = (s.itable ip).ref := by
  rw [State.refs, h.entry hk, Option.elim_some]

theorem at_of_refs (hk : s.Keyed) (h : 0 < s.refs i) : ∃ ip, s.At ip i := by
  unfold refs at h
  cases he : s.entry i with
  | none =>
    rw [he] at h
    exact absurd h (lt_irrefl 0)
  | some ip =>
    obtain ⟨hr, hi⟩ := (entry_some hk).mp he
    exact ⟨ip, hr, hi⟩

theorem refs_eq_zero (hk : s.Keyed) : s.refs i = 0 ↔ ∀ ip, ¬ s.At ip i := by
  constructor
  · intro h ip ha
    have := ha.refs hk
    have := ha.ref
    omega
  · intro h
    by_contra hne
    obtain ⟨ip, ha⟩ := at_of_refs hk (Nat.pos_of_ne_zero hne)
    exact h ip ha

/-- An inode nobody refers to is as it is on disk. -/
theorem dinode_of_refs (hk : s.Keyed) (h : s.refs i = 0) : s.dinode i = s.sb.inode s.block i := by
  unfold dinode
  cases he : s.entry i with
  | none => rfl
  | some ip =>
    obtain ⟨hr, hi⟩ := (entry_some hk).mp he
    exact absurd ⟨hr, hi⟩ ((refs_eq_zero hk).mp h ip)

/-- The inodes referred to. -/
def used (s : State) : Finset Nat := (Finset.univ.filter fun ip => 0 < (s.itable ip).ref).image fun ip => (s.itable ip).inum

theorem mem_used (hk : s.Keyed) : i ∈ s.used ↔ 0 < s.refs i := by
  simp only [used, Finset.mem_image, Finset.mem_filter, Finset.mem_univ, true_and]
  constructor
  · rintro ⟨ip, hr, hi⟩
    rw [At.refs ⟨hr, hi⟩ hk]
    exact hr
  · intro h
    obtain ⟨ip, ha⟩ := at_of_refs hk h
    exact ⟨ip, ha.ref, ha.inum⟩

/-- How many entries are not in use. -/
def spare (s : State) : Nat := NINODE - s.used.card

theorem card_used (hk : s.Keyed) : s.used.card = (Finset.univ.filter fun ip => 0 < (s.itable ip).ref).card := by
  refine Finset.card_image_of_injOn fun ip hi jp hj he => ?_
  simp only [Finset.coe_filter, Finset.mem_univ, true_and, Set.mem_ofPred_eq] at hi hj
  exact hk ip jp hi hj he

/-- With none unused there are none to spare. -/
theorem spare_of_unused (hk : s.Keyed) (h : s.unused = none) : s.spare = 0 := by
  have hall : (Finset.univ.filter fun ip => 0 < (s.itable ip).ref) = Finset.univ :=
    Finset.filter_true_of_mem fun ip _ => unused_none.mp h ip
  rw [spare, card_used hk, hall, Finset.card_univ, Fintype.card_fin]
  exact Nat.sub_self _

end State

/-! ## Borrowing -/

/-- `s` is `s₀` but for references to the inodes in `H` and the lock of `L`. -/
structure Lent (s₀ s : State) (H : Multiset Nat) (L : Finset (Fin NINODE)) : Prop where
  same : SameFs s₀ s
  keyed : s.Keyed
  refs : ∀ i, s.refs i = s₀.refs i + H.count i
  locked : ∀ kp, (s.itable kp).locked = decide (kp ∈ L)
  kept : ∀ kp i, s₀.At kp i → s.At kp i ∧ ((s₀.itable kp).valid = true → (s.itable kp).valid = true)
  /-- no copy of a free inode is valid -/
  typed : ∀ kp i, s.At kp i → (s.itable kp).valid = true → (s₀.dinode i).type ≠ 0

namespace Lent

theorem refl (hk : s.Keyed) (hl : ∀ kp, (s.itable kp).locked = decide (kp ∈ L))
    (ht : ∀ kp i, s.At kp i → (s.itable kp).valid = true → (s.dinode i).type ≠ 0) : Lent s s 0 L :=
  ⟨.rfl, hk, fun _ => by simp, hl, fun _ _ ha => ⟨ha, id⟩, ht⟩

theorem spare_le (hk : s₀.Keyed) (h : Lent s₀ s H L) : s₀.spare ≤ s.spare + H.card := by
  have hsub : s.used ⊆ s₀.used ∪ H.toFinset := by
    intro i hi
    rw [State.mem_used h.keyed, h.refs] at hi
    rw [Finset.mem_union, State.mem_used hk, Multiset.mem_toFinset, ← Multiset.count_pos]
    omega
  have hcard := (Finset.card_le_card hsub).trans (Finset.card_union_le _ _)
  have hH := Multiset.toFinset_card_le H
  unfold State.spare
  omega

end Lent

/-- A step that keeps who is referred to how often. -/
theorem State.refs_congr (hk : s.Keyed) (hk' : s'.Keyed) (hpos : ∀ kp, (s'.itable kp).ref = (s.itable kp).ref)
    (hinum : ∀ kp, 0 < (s.itable kp).ref → (s'.itable kp).inum = (s.itable kp).inum) (i : Nat) : s'.refs i = s.refs i := by
  by_cases h : s.refs i = 0
  · rw [h, State.refs_eq_zero hk']
    rintro kp ⟨hr, hi⟩
    rw [hpos] at hr
    exact (State.refs_eq_zero hk).mp h kp ⟨hr, by rw [← hinum kp hr, hi]⟩
  · obtain ⟨kp, ha⟩ := State.at_of_refs hk (Nat.pos_of_ne_zero h)
    have ha' : s'.At kp i := ⟨by rw [hpos]; exact ha.ref, by rw [hinum kp ha.ref, ha.inum]⟩
    rw [ha.refs hk, ha'.refs hk', hpos]

theorem Fetched.at_self (h : Fetched i s ip s') : s'.At ip i :=
  ⟨by rw [h.ref, if_pos rfl]; exact Nat.succ_pos _, h.inum⟩

theorem Fetched.keeps_at (h : Fetched i s ip s') (ha : s.At jp j) : s'.At jp j := by
  refine ⟨?_, ?_⟩
  · rw [h.ref]
    exact Nat.add_pos_left ha.ref _
  · rw [h.keeps jp ha.ref]
    exact ha.inum

theorem Fetched.valid (h : Fetched i s ip s') (ha : s.At jp j) : (s'.itable jp).valid = (s.itable jp).valid := by
  rw [h.keeps jp ha.ref]

theorem Fetched.refs (h : Fetched i s ip s') (hk : s.Keyed) (j : Nat) :
    s'.refs j = s.refs j + if j = i then 1 else 0 := by
  have hk' := h.same.keyed hk
  by_cases hj : s.refs j = 0
  · rw [hj, Nat.zero_add]
    by_cases hji : j = i
    · subst hji
      rw [h.at_self.refs hk', h.ref, if_pos rfl, if_pos rfl]
      -- the entry was not in use, or inode `j` would have had a reference
      by_contra hne
      have hr : 0 < (s.itable ip).ref := by omega
      refine (State.refs_eq_zero hk).mp hj ip ⟨hr, ?_⟩
      rw [← h.inum, h.keeps ip hr]
    · rw [if_neg hji, State.refs_eq_zero hk']
      rintro kp ⟨hr, hi⟩
      by_cases hkp : kp = ip
      · exact hji (by rw [← hi, hkp, h.inum])
      · rw [h.ref, if_neg hkp, Nat.add_zero] at hr
        refine (State.refs_eq_zero hk).mp hj kp ⟨hr, ?_⟩
        rw [← hi, h.keeps kp hr]
  · obtain ⟨kp, ha⟩ := State.at_of_refs hk (Nat.pos_of_ne_zero hj)
    rw [ha.refs hk, (h.keeps_at ha).refs hk', h.ref]
    refine congrArg _ (if_congr ⟨fun he => ?_, fun he => ?_⟩ (Eq.refl _) (Eq.refl _))
    · rw [← (h.keeps_at ha).inum, he, h.inum]
    · subst he
      exact hk' kp ip (h.keeps_at ha).ref h.at_self.ref ((h.keeps_at ha).inum.trans h.inum.symm)

/-! ## The functions of fs.c -/

theorem State.updInode_self (s : State) (ip : Fin NINODE) (m : Inode → Inode) :
    (s.updInode ip m).itable ip = m (s.itable ip) := Function.update_self ..

theorem State.updInode_of_ne (s : State) (hk : kp ≠ ip) (m : Inode → Inode) :
    (s.updInode ip m).itable kp = s.itable kp := Function.update_of_ne hk ..

/-- The copies in the table after iget were there before: that in a new entry is not valid. -/
theorem iget_valid (hg : iget i s = .ok (ip, s')) (hr : 0 < (s'.itable kp).ref) (hv : (s'.itable kp).valid = true) :
    0 < (s.itable kp).ref ∧ (s'.itable kp).inum = (s.itable kp).inum ∧ (s.itable kp).valid = true := by
  rw [iget_eq] at hg
  split at hg
  · next lp he =>
    obtain ⟨hlp, -⟩ : 0 < (s.itable lp).ref ∧ (s.itable lp).inum = i := by simpa [State.entry] using List.find?_some he
    cases hg
    by_cases hk : kp = ip
    · subst hk
      rw [State.updInode_self] at hv ⊢
      exact ⟨hlp, rfl, hv⟩
    · rw [State.updInode_of_ne s hk] at hr hv ⊢
      exact ⟨hr, rfl, hv⟩
  · split at hg
    · next lp hu =>
      cases hg
      by_cases hk : kp = ip
      · subst hk
        rw [State.updInode_self] at hv
        cases hv
      · rw [State.updInode_of_ne s hk] at hr hv ⊢
        exact ⟨hr, rfl, hv⟩
    · cases hg

namespace Lent

variable (h : Lent s₀ s H L)

include h

theorem iget_spec (i : Nat) : match iget i s with
    | .ok (ip, s') => Lent s₀ s' (i ::ₘ H) L ∧ s'.At ip i ∧ ∀ jp j, s.At jp j → s'.At jp j
    | .error msg => msg = "iget: no inodes" ∧ s.spare = 0 := by
  have hg := Fs.iget_spec s i
  cases he : iget i s with
  | error msg =>
    rw [he] at hg
    exact ⟨hg.1, State.spare_of_unused h.keyed hg.2⟩
  | ok r =>
    rw [he] at hg
    refine ⟨⟨h.same.trans hg.same, hg.same.keyed h.keyed, fun j => ?_, fun kp => ?_,
      fun kp j hj => ?_, fun kp j hj hv => ?_⟩, hg.at_self, fun _ _ => hg.keeps_at⟩
    · rw [hg.refs h.keyed, h.refs, Multiset.count_cons, Nat.add_assoc]
    · rw [hg.locked, h.locked]
    · obtain ⟨ha, hv⟩ := h.kept kp j hj
      exact ⟨hg.keeps_at ha, by rwa [hg.valid ha]⟩
    · obtain ⟨hr, hi, hv'⟩ := iget_valid he hj.ref hv
      exact h.typed kp j ⟨hr, hi.symm.trans hj.inum⟩ hv'

theorem idup_spec (ha : s.At ip i) :
    ∃ s', idup ip s = .ok (ip, s') ∧ Lent s₀ s' (i ::ₘ H) L ∧ ∀ jp j, s.At jp j → s'.At jp j := by
  have hf := fetched_dup ha.ref
  rw [ha.inum] at hf
  refine ⟨_, rfl, ⟨h.same.trans hf.same, hf.same.keyed h.keyed, fun j => ?_, fun kp => ?_,
    fun kp j hj => ?_, fun kp j hj hv => ?_⟩, fun _ _ => hf.keeps_at⟩
  · rw [hf.refs h.keyed, h.refs, Multiset.count_cons, Nat.add_assoc]
  · rw [hf.locked, h.locked]
  · obtain ⟨ha, hv⟩ := h.kept kp j hj
    exact ⟨hf.keeps_at ha, by rwa [hf.valid ha]⟩
  · by_cases hk : kp = ip
    · subst hk
      rw [State.updInode_self] at hv
      exact h.typed kp j ⟨ha.ref, by rw [← hj.inum, State.updInode_self]⟩ hv
    · obtain ⟨hr, hi⟩ := hj
      rw [State.updInode_of_ne s hk] at hr hi hv
      exact h.typed kp j ⟨hr, hi⟩ hv

/-- The lock changes, or the copy of the inode. -/
theorem touch (ha : s.At ip i) {m : Inode → Inode}
    (hm : (m (s.itable ip)).ref = (s.itable ip).ref ∧ (m (s.itable ip)).inum = (s.itable ip).inum)
    (hd : (if (m (s.itable ip)).valid then (m (s.itable ip)).d else s.sb.inode s.block (s.itable ip).inum) =
      s.dinode (s.itable ip).inum)
    (ht : (m (s.itable ip)).valid = true → (s₀.dinode i).type ≠ 0)
    (hv : (s.itable ip).valid = true → (m (s.itable ip)).valid = true)
    (hL : ∀ kp, kp ≠ ip → (kp ∈ L ↔ kp ∈ L₁)) (hl : (m (s.itable ip)).locked = decide (ip ∈ L₁)) :
    Lent s₀ (s.updInode ip m) H L₁ ∧ ∀ jp j, s.At jp j → (s.updInode ip m).At jp j := by
  have hsame : SameFs s (s.updInode ip m) := sameFs_updInode ha.ref (by rw [hm.1]; exact ha.ref) hm.2 fun _ => hd
  have hkeep (kp : Fin NINODE) : ((s.updInode ip m).itable kp).ref = (s.itable kp).ref ∧
      ((s.updInode ip m).itable kp).inum = (s.itable kp).inum := by
    by_cases hk : kp = ip
    · rw [hk, State.updInode_self]
      exact hm
    · rw [State.updInode_of_ne s hk]
      exact ⟨rfl, rfl⟩
  have hat (kp : Fin NINODE) (j : Nat) (hj : s.At kp j) : (s.updInode ip m).At kp j :=
    ⟨by rw [(hkeep kp).1]; exact hj.ref, by rw [(hkeep kp).2]; exact hj.inum⟩
  refine ⟨⟨h.same.trans hsame, hsame.keyed h.keyed, fun j => ?_, fun kp => ?_, fun kp j hj => ?_,
    fun kp j hj hv => ?_⟩, hat⟩
  · rw [← h.refs]
    exact State.refs_congr h.keyed (hsame.keyed h.keyed) (fun kp => (hkeep kp).1) (fun kp _ => (hkeep kp).2) j
  · by_cases hk : kp = ip
    · rw [hk, State.updInode_self, hl]
    · rw [State.updInode_of_ne s hk, h.locked, decide_eq_decide.mpr (hL kp hk)]
  · obtain ⟨ha, hv'⟩ := h.kept kp j hj
    refine ⟨hat kp j ha, fun h₀ => ?_⟩
    by_cases hk : kp = ip
    · rw [hk] at h₀ hv' ⊢
      rw [State.updInode_self]
      exact hv (hv' h₀)
    · rw [State.updInode_of_ne s hk]
      exact hv' h₀
  · have hinum := (hkeep kp).2.symm.trans hj.inum
    by_cases hk : kp = ip
    · subst hk
      rw [State.updInode_self] at hv
      rw [← hinum, ha.inum]
      exact ht hv
    · rw [State.updInode_of_ne s hk] at hv
      exact h.typed kp j ⟨by rw [← (hkeep kp).1]; exact hj.ref, hinum⟩ hv

end Lent

/-- ilock of an allocated inode. -/
theorem Lent.ilock (h : Lent s₀ s H L) (hL : ip ∉ L) (ha : s.At ip i) (hi : i < s₀.sb.ninodes)
    (ht : (s₀.dinode i).type ≠ 0) (hk : s₀.Keyed) : ∃ s', ilock ip s = .ok ((), s') ∧ Lent s₀ s' H (insert ip L) ∧ s'.Holds ip ∧
      (s'.itable ip).d = s₀.dinode i ∧ ∀ jp j, s.At jp j → s'.At jp j := by
  have hd : s.dinode (s.itable ip).inum = s₀.dinode i := by rw [ha.inum, h.same.dinode hk]
  have hlock : (s.itable ip).locked = false := by rw [h.locked, decide_eq_false hL]
  obtain ⟨hl, hat⟩ := h.touch ha (m := fun x => { x with locked := true, valid := true, d := s.dinode x.inum }) ⟨rfl, rfl⟩
    (if_pos rfl) (fun _ => ht) (fun _ => rfl) (fun kp hk => (Finset.mem_insert.trans (or_iff_right hk)).symm)
    (decide_eq_true (Finset.mem_insert_self ip L)).symm
  refine ⟨_, ilock_eq h.keyed ha.ref hlock (by rwa [hd]), hl, ⟨(hat ip i ha).ref, ?_, ?_, ?_⟩, ?_, hat⟩
  · rw [State.updInode_self]
  · rw [(hat ip i ha).inum, hl.same.sb]
    exact hi
  · rw [State.updInode_self]
    exact hd ▸ ht
  · rw [State.updInode_self]
    exact hd

/-- ilock of an inode that is free. -/
theorem Lent.ilock_free (h : Lent s₀ s H L) (hL : ip ∉ L) (ha : s.At ip i) (ht : (s₀.dinode i).type = 0) (hk : s₀.Keyed) :
    Fs.ilock ip s = .error "ilock: no type" := by
  have hv : (s.itable ip).valid = false := by
    by_contra hv
    exact h.typed ip i ha (by simpa using hv) ht
  have hr := ha.ref
  have hdisk : (s.sb.inode s.block (s.itable ip).inum).type = 0 := by
    have hd := State.dinode_entry h.keyed ha.ref
    rw [hv, if_neg Bool.false_ne_true, ha.inum, h.same.dinode hk] at hd
    rw [ha.inum, ← hd, ht]
  have hacq : acquiresleep ip s = .ok ((), s.updInode ip fun x => { x with locked := true }) := by
    unfold acquiresleep
    rw [inode_bind, h.locked, if_neg (by simpa using hL)]
    rfl
  unfold Fs.ilock
  rw [inode_bind, if_neg (by omega), Code.bind_ok hacq, inode_bind, State.updInode_self, if_neg (by simp [hv])]
  unfold load
  rw [inode_bind, Code.get_bind, State.updInode_self]
  change (if (s.sb.inode s.block (s.itable ip).inum).type = 0 then _ else _ : Code State Unit) _ = _
  rw [if_pos hdisk]
  rfl

theorem Lent.iunlock (h : Lent s₀ s H (insert ip L)) (hL : ip ∉ L) (ha : s.At ip i) :
    ∃ s', iunlock ip s = .ok ((), s') ∧ Lent s₀ s' H L ∧ ∀ jp j, s.At jp j → s'.At jp j := by
  have hlock : (s.itable ip).locked = true := by rw [h.locked]; simp
  have hr := ha.ref
  obtain ⟨hl, hat⟩ := h.touch ha (m := fun x => { x with locked := false }) ⟨rfl, rfl⟩
    (State.dinode_entry h.keyed ha.ref).symm (h.typed ip i ha) id (fun kp hk => Finset.mem_insert.trans (or_iff_right hk))
    (decide_eq_false hL).symm
  refine ⟨_, ?_, hl, hat⟩
  unfold Fs.iunlock
  rw [inode_bind, hlock, if_neg (by simp; omega)]
  rfl

/-- A reference less. -/
def State.drop (s : State) (ip : Fin NINODE) : State := s.updInode ip fun x => { x with ref := x.ref - 1 }

theorem State.drop_self : (s.drop ip).itable ip = { s.itable ip with ref := (s.itable ip).ref - 1 } := updInode_self ..

theorem State.drop_of_ne (hk : kp ≠ ip) : (s.drop ip).itable kp = s.itable kp := updInode_of_ne s hk _

/-- What is in use after it was in use before. -/
theorem State.At.of_drop (h : (s.drop ip).At kp j) : s.At kp j ∧ ((s.drop ip).itable kp).valid = (s.itable kp).valid := by
  obtain ⟨hr, hi⟩ := h
  by_cases hk : kp = ip
  · subst hk
    rw [State.drop_self] at hr hi ⊢
    dsimp only at hr
    exact ⟨⟨by omega, hi⟩, rfl⟩
  · rw [State.drop_of_ne hk] at hr hi ⊢
    exact ⟨⟨hr, hi⟩, rfl⟩

theorem State.At.drop (h : s.At kp j) (ha : s.At ip i) (hr : j = i → 1 < (s.itable ip).ref) : (s.drop ip).At kp j := by
  by_cases hkp : kp = ip
  · subst hkp
    have := hr (h.inum.symm.trans ha.inum)
    refine ⟨?_, ?_⟩
    · rw [State.drop_self]
      dsimp only
      omega
    · rw [State.drop_self]
      exact h.inum
  · exact ⟨by rw [State.drop_of_ne hkp]; exact h.ref, by rw [State.drop_of_ne hkp]; exact h.inum⟩

theorem State.keyed_drop (hk : s.Keyed) : (s.drop ip).Keyed := by
  intro kp lp hkp hlp he
  exact hk kp lp (State.At.of_drop ⟨hkp, rfl⟩).1.ref (State.At.of_drop ⟨hlp, rfl⟩).1.ref
    ((State.At.of_drop ⟨hkp, rfl⟩).1.inum.trans (he.trans (State.At.of_drop ⟨hlp, rfl⟩).1.inum.symm))

theorem State.refs_drop (hk : s.Keyed) (ha : s.At ip i) (j : Nat) :
    (s.drop ip).refs j = s.refs j - if j = i then 1 else 0 := by
  have hk' : (s.drop ip).Keyed := State.keyed_drop hk
  by_cases hz : (s.drop ip).refs j = 0
  · rw [hz]
    by_cases hj : s.refs j = 0
    · rw [hj, Nat.zero_sub]
    · obtain ⟨kp, hkp⟩ := State.at_of_refs hk (Nat.pos_of_ne_zero hj)
      -- the reference that went was the last one
      have hnot : ¬ (j = i → 1 < (s.itable ip).ref) := fun hr => (State.refs_eq_zero hk').mp hz kp (hkp.drop ha hr)
      obtain ⟨rfl, hr⟩ := Classical.not_imp.mp hnot
      have := ha.ref
      rw [ha.refs hk, if_pos rfl]
      omega
  · obtain ⟨kp, hkp⟩ := State.at_of_refs hk' (Nat.pos_of_ne_zero hz)
    have hkp' := hkp.of_drop.1
    rw [hkp.refs hk', hkp'.refs hk]
    by_cases hj : j = i
    · subst hj
      rw [hk kp ip hkp'.ref ha.ref (hkp'.inum.trans ha.inum.symm), State.drop_self, if_pos rfl]
    · have hne : kp ≠ ip := by
        rintro rfl
        exact hj (hkp'.inum.symm.trans ha.inum)
      rw [State.drop_of_ne hne, if_neg hj, Nat.sub_zero]

/-- If it was the last reference, the inode is as it is on disk. -/
theorem sameFs_drop (ha : s.At ip i) (hd : s.Keyed → (s.itable ip).ref = 1 → s.dinode i = s.sb.inode s.block i) :
    SameFs s (s.drop ip) := by
  refine ⟨rfl, rfl, rfl, rfl, rfl, State.keyed_drop, fun hk j => ?_⟩
  have hk' : (s.drop ip).Keyed := State.keyed_drop hk
  by_cases hz : (s.drop ip).refs j = 0
  · rw [State.dinode_of_refs hk' hz]
    by_cases hj : s.refs j = 0
    · rw [State.dinode_of_refs hk hj]
      rfl
    · rw [State.refs_drop hk ha] at hz
      have hji : j = i := by
        by_contra hji
        rw [if_neg hji] at hz
        exact hj hz
      rw [hji] at hz hj ⊢
      rw [if_pos rfl, ha.refs hk] at hz
      rw [ha.refs hk] at hj
      rw [hd hk (by omega)]
      rfl
  · obtain ⟨kp, hkp⟩ := State.at_of_refs hk' (Nat.pos_of_ne_zero hz)
    obtain ⟨hkp', hv⟩ := hkp.of_drop
    have hcopy : ((s.drop ip).itable kp).d = (s.itable kp).d := by
      by_cases hk : kp = ip
      · rw [hk, State.drop_self]
      · rw [State.drop_of_ne hk]
    have h1 := State.dinode_entry hk' hkp.ref
    have h2 := State.dinode_entry hk hkp'.ref
    rw [hkp.inum] at h1
    rw [hkp'.inum] at h2
    rw [h1, h2, hv, hcopy]
    rfl

/-- **iput gives a reference back**, and frees nothing. -/
theorem Lent.iput (h : Lent s₀ s (i ::ₘ H) L) (hk : s₀.Keyed) (ha : s.At ip i)
    (hlink : (s₀.dinode i).type ≠ 0 → (s₀.dinode i).nlink = 0 → 0 < s₀.refs i) :
    ∃ s', iput ip s = .ok ((), s') ∧ Lent s₀ s' H L ∧ ∀ jp j, j ≠ i ∨ j ∈ H → s.At jp j → s'.At jp j := by
  have hrefs : (s.itable ip).ref = s₀.refs i + H.count i + 1 := by
    rw [← ha.refs h.keyed, h.refs, Multiset.count_cons_self, Nat.add_assoc]
  have hkeep : ¬ ((s.itable ip).ref = 1 ∧ (s.itable ip).valid ∧ (s.itable ip).d.nlink = 0) := by
    rintro ⟨h1, hv, hn⟩
    have hd := State.dinode_of_valid h.keyed ha.ref hv
    rw [ha.inum, h.same.dinode hk] at hd
    have := hlink (h.typed ip i ha hv) (by rw [hd, hn])
    omega
  have hput : Fs.iput ip s = .ok ((), s.drop ip) := by
    unfold Fs.iput
    rw [inode_bind, Code.when, if_neg hkeep]
    rfl
  have hsame : SameFs s (s.drop ip) := by
    refine sameFs_drop ha fun _ h1 => ?_
    have h0 : s₀.refs i = 0 := by omega
    rw [h.same.dinode hk, State.dinode_of_refs hk h0, h.same.sb, h.same.block]
  refine ⟨_, hput, ⟨h.same.trans hsame, hsame.keyed h.keyed, fun j => ?_, fun kp => ?_,
    fun kp j hj => ⟨(h.kept kp j hj).1.drop ha fun he => ?_, fun hv => ?_⟩, fun kp j hj hv => ?_⟩,
    fun jp j hj hat => hat.drop ha fun he => ?_⟩
  · rw [State.refs_drop h.keyed ha, h.refs, Multiset.count_cons]
    omega
  · rw [← h.locked]
    by_cases hkp : kp = ip
    · rw [hkp, State.drop_self]
    · rw [State.drop_of_ne hkp]
  · subst he
    have := hj.refs hk
    have := hj.ref
    omega
  · obtain ⟨hat, hv'⟩ := h.kept kp j hj
    by_cases hkp : kp = ip
    · rw [hkp] at hv hv' ⊢
      rw [State.drop_self]
      exact hv' hv
    · rw [State.drop_of_ne hkp]
      exact hv' hv
  · obtain ⟨hat, hv'⟩ := hj.of_drop
    exact h.typed kp j hat (hv' ▸ hv)
  · have := Multiset.count_pos.mpr (hj.resolve_left fun hne => hne he)
    rw [he] at this
    omega

/-- **iunlockput.** -/
theorem Lent.iunlockput (h : Lent s₀ s (i ::ₘ H) (insert ip L)) (hL : ip ∉ L) (hk : s₀.Keyed) (ha : s.At ip i)
    (hlink : (s₀.dinode i).type ≠ 0 → (s₀.dinode i).nlink = 0 → 0 < s₀.refs i) :
    ∃ s', iunlockput ip s = .ok ((), s') ∧ Lent s₀ s' H L ∧ ∀ jp j, j ≠ i ∨ j ∈ H → s.At jp j → s'.At jp j := by
  obtain ⟨s₁, he₁, h₁, hat₁⟩ := h.iunlock hL ha
  obtain ⟨s₂, he₂, h₂, hat₂⟩ := h₁.iput hk (hat₁ ip i ha) hlink
  refine ⟨s₂, ?_, h₂, fun jp j hj hat => hat₂ jp j hj (hat₁ jp j hat)⟩
  unfold Fs.iunlockput
  rw [Code.bind_ok he₁, he₂]

end Xv6.Fs
