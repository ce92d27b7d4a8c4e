/-
How many blocks a write passes to log_write. A block that is in the log already is absorbed, so a new data block counts
once, though bzero and writei both log it, and so does the indirect block. A chunk of filewrite logs its data blocks, the
bitmap blocks of those that are new, and at most the indirect block, its bitmap block and the inode's block. These are
MAXOPBLOCKS altogether (`writei_fits_budget`): a chunk that takes four blocks starts inside one that exists.
-/
import Xv6.Fs.FileWrite

namespace Xv6.Fs

open Lib

/-! ## Growth of the log -/

/-- At most `g` blocks were added to the log. -/
structure Grown (g : Nat) (s s' : State) : Prop where
  sb : s'.sb = s.sb
  outstanding : s'.outstanding = s.outstanding
  added : ∃ P : List Nat, s'.lh = s.lh ++ P ∧ P.length ≤ g ∧ P.Nodup ∧ ∀ b ∈ P, b ∉ s.lh

/-- Within an operation, `c` adds at most `g` blocks to the log, and only panics if the log has room for fewer than
`k`. The two differ since log_write panics on a full log even if the block is in it. -/
structure Grows {α : Type} (g k : Nat) (c : Code State α) (s : State) (Q : α → State → Prop) : Prop where
  run : 0 < s.outstanding →
    match c s with
    | .ok (a, s') => Grown g s s' ∧ Q a s'
    | .error msg => msg = "too big a transaction" ∧ s.room < k

variable {α β : Type} {g g' k k' G K : Nat} {s s' s'' : State}

namespace Grown

theorem rfl : Grown g s s := ⟨Eq.refl _, Eq.refl _, [], (List.append_nil _).symm, Nat.zero_le _, List.nodup_nil, by simp⟩

theorem subset (h : Grown g s s') : s.lh ⊆ s'.lh := by
  obtain ⟨P, hP, -⟩ := h.added
  rw [hP]
  exact List.subset_append_left _ _

theorem mono (h : Grown g s s') (hg : g ≤ G) : Grown G s s' := by
  obtain ⟨P, hP, hle, hnd⟩ := h.added
  exact ⟨h.sb, h.outstanding, P, hP, hle.trans hg, hnd⟩

theorem trans (h : Grown g s s') (h' : Grown g' s' s'') : Grown (g + g') s s'' := by
  obtain ⟨P, hP, hle, hnd, hnew⟩ := h.added
  obtain ⟨P', hP', hle', hnd', hnew'⟩ := h'.added
  rw [hP] at hP' hnew'
  refine ⟨h'.sb.trans h.sb, h'.outstanding.trans h.outstanding, P ++ P', ?_, ?_, ?_, fun b hb => ?_⟩
  · rw [hP', List.append_assoc]
  · rw [List.length_append]
    omega
  · refine List.nodup_append.mpr ⟨hnd, hnd', fun a ha b hb hab => ?_⟩
    exact hnew' b hb (List.mem_append_right _ (hab ▸ ha))
  · rcases List.mem_append.mp hb with hb | hb
    · exact hnew b hb
    · exact fun hs => hnew' b hb (List.mem_append_left _ hs)

theorem room (h : Grown g s s') : s.room ≤ s'.room + g := by
  obtain ⟨P, hP, hle, -⟩ := h.added
  unfold State.room State.capacity
  rw [h.sb, hP, List.length_append]
  omega

end Grown

namespace Grows

variable {c : Code State α} {f : α → Code State β} {Q Q' : α → State → Prop} {T : β → State → Prop} {a : α}

theorem of_ok (hc : c s = .ok (a, s')) (hg : Grown g s s') (hQ : Q a s') : Grows g k c s Q := by
  constructor
  intro _
  rw [hc]
  exact ⟨hg, hQ⟩

theorem pure (h : Q a s) : Grows g k (pure a) s Q := of_ok rfl .rfl h

theorem mono (h : Grows g k c s Q) (hg : g ≤ G) (hk : k ≤ K) (hQ : ∀ a s', Grown g s s' → Q a s' → Q' a s') :
    Grows G K c s Q' := by
  constructor
  intro ho
  have hc := h.run ho
  cases he : c s with
  | ok r =>
    rw [he] at hc
    exact ⟨hc.1.mono hg, hQ r.1 r.2 hc.1 hc.2⟩
  | error msg =>
    rw [he] at hc
    exact ⟨hc.1, hc.2.trans_le hk⟩

/-- One command after another. What is known of the first's result may come from elsewhere. -/
theorem bind (g' k' : Nat) (h : Grows g k c s Q) (hg : g + g' ≤ G) (hk : k ≤ K) (hk' : g + k' ≤ K)
    (hf : ∀ a s', 0 < s.outstanding → c s = .ok (a, s') → Grown g s s' → Q a s' → Grows g' k' (f a) s' T) :
    Grows G K (c >>= f) s T := by
  constructor
  intro ho
  have hc := h.run ho
  cases he : c s with
  | error msg =>
    rw [he] at hc
    rw [Code.bind_error he]
    exact ⟨hc.1, hc.2.trans_le hk⟩
  | ok r =>
    rw [he] at hc
    rw [Code.bind_ok he]
    have hr := (hf r.1 r.2 ho he hc.1 hc.2).run (by rw [hc.1.outstanding]; exact ho)
    have hroom := hc.1.room
    cases hfr : f r.1 r.2 with
    | error msg =>
      rw [hfr] at hr
      exact ⟨hr.1, by have := hr.2; omega⟩
    | ok t =>
      rw [hfr] at hr
      exact ⟨(hc.1.trans hr.1).mono hg, hr.2⟩

/-- A command that does not log. -/
theorem step (hc : c s = .ok (a, s')) (hs : Grown 0 s s') (hf : Grows g k (f a) s' T) : Grows g k (c >>= f) s T := by
  refine bind (Q := fun b t => b = a ∧ t = s') g k (of_ok hc hs ⟨rfl, rfl⟩) (Nat.zero_add g).le (Nat.zero_le k)
    (Nat.zero_add k).le fun b t _ _ _ hbt => ?_
  obtain ⟨rfl, rfl⟩ := hbt
  exact hf

theorem get {q : State → Code State β} (h : Grows g k (q s) s T) : Grows g k (MonadState.get >>= q) s T := ⟨h.run⟩

theorem bread {b : Nat} {q : Block → Code State β} (h : Grows g k (q (s.block b)) s T) :
    Grows g k (Fs.bread b >>= q) s T := ⟨h.run⟩

theorem inode {ip : Fin NINODE} {q : Inode → Code State β} (h : Grows g k (q (s.itable ip)) s T) :
    Grows g k (Fs.inode ip >>= q) s T := ⟨h.run⟩

theorem setInode {ip : Fin NINODE} {m : Inode → Inode} {q : Unit → Code State β}
    (h : Grows g k (q ()) (s.updInode ip m) T) : Grows g k (Fs.setInode ip m >>= q) s T :=
  step rfl ⟨rfl, rfl, [], (List.append_nil _).symm, le_rfl, List.nodup_nil, by simp⟩ h

theorem setAddr {ip : Fin NINODE} {i a : Nat} {q : Unit → Code State β}
    (h : Grows g k (q ()) (s.updInode ip fun x => { x with d := x.d.setAddr i a }) T) :
    Grows g k (Fs.setAddr ip i a >>= q) s T := setInode h

/-- A block is stored and passed to log_write, which adds it unless it is there. -/
theorem log_last {b : Nat} {c : Block} {Q : Unit → State → Prop} (h : Q () (s.log b c)) :
    Grows (if b ∈ s.lh then 0 else 1) 1 (Fs.store b c >>= fun _ => Fs.logWrite b) s Q := by
  constructor
  intro ho
  have hstore : (Fs.store b c >>= fun _ => Fs.logWrite b) s = Fs.logWrite b (s.setBlock b c) := rfl
  rw [hstore]
  by_cases hr : 0 < s.room
  · rw [logWrite_ok (s := s.setBlock b c) ho hr]
    refine ⟨⟨rfl, rfl, ?_⟩, h⟩
    change ∃ P, (if b ∈ s.lh then s.lh else s.lh ++ [b]) = s.lh ++ P ∧ _
    by_cases hb : b ∈ s.lh
    · rw [if_pos hb, if_pos hb]
      exact ⟨[], (List.append_nil _).symm, le_rfl, List.nodup_nil, by simp⟩
    · rw [if_neg hb, if_neg hb]
      exact ⟨[b], rfl, le_rfl, List.nodup_singleton b, fun c hc => List.mem_singleton.mp hc ▸ hb⟩
  · have hfull : (s.setBlock b c).logFull := State.logFull_iff.mpr (Nat.eq_zero_of_not_pos hr)
    unfold Fs.logWrite
    rw [Code.get_bind, if_pos hfull]
    exact ⟨rfl, by omega⟩

theorem log {b : Nat} {c : Block} {q : Unit → Code State β} (h : Grows g k (q ()) (s.log b c) T)
    (hg : (if b ∈ s.lh then 0 else 1) + g ≤ G) (hK : 1 ≤ K) (hk : (if b ∈ s.lh then 0 else 1) + k ≤ K) :
    Grows G K (Fs.store b c >>= fun _ => Fs.logWrite b >>= q) s T := by
  change Grows G K ((Fs.store b c >>= fun _ => Fs.logWrite b) >>= q) s T
  refine bind (Q := fun _ s' => s' = s.log b c) g k (log_last rfl) hg hK hk fun _ s' _ _ _ hs' => ?_
  rw [hs']
  exact h

end Grows

/-! ## Blocks -/

variable {ip : Fin NINODE}

theorem balloc_grows : Grows 2 2 balloc s fun a s' => s'.itable = s.itable ∧ (a ≠ 0 → a ∈ s'.lh) := by
  unfold balloc
  refine Grows.get ?_
  split
  · exact Grows.pure ⟨rfl, fun h => absurd rfl h⟩
  · next b _ =>
    refine Grows.bread (Grows.log (g := 1) (k := 1) ?_ (by split <;> omega) (by omega) (by split <;> omega))
    refine Grows.bind (Q := fun _ s' => s'.itable = s.itable ∧ b ∈ s'.lh) 0 0 (Grows.log_last ⟨rfl, State.mem_log⟩)
      (by split <;> omega) le_rfl (by split <;> omega) fun _ _ _ _ _ h => Grows.pure ⟨h.1, fun _ => h.2⟩

/-- The file has an indirect block and it is in the log. -/
def State.IndirectLogged (s : State) (ip : Fin NINODE) : Prop :=
  (s.itable ip).d.addrs NDIRECT ≠ 0 ∧ (s.itable ip).d.addrs NDIRECT ∈ s.lh

instance (s : State) (ip : Fin NINODE) : Decidable (s.IndirectLogged ip) := inferInstanceAs (Decidable (_ ∧ _))

/-- What logging the indirect block adds. -/
def State.indirectCost (s : State) (ip : Fin NINODE) : Nat := if s.IndirectLogged ip then 0 else 1

theorem State.IndirectLogged.cost (h : s.IndirectLogged ip) : s.indirectCost ip = 0 := if_pos h

theorem State.indirectCost_le (s : State) (ip : Fin NINODE) : s.indirectCost ip ≤ 1 := by
  unfold indirectCost
  split <;> omega

/-- What bmap adds for block `k`: the bitmap blocks of what is missing, the new block, and the indirect one. -/
def bmapCost (s : State) (ip : Fin NINODE) (k : Nat) : Nat :=
  missing (s.itable ip).d s.block k +
    if (s.itable ip).d.addr s.block k = 0 then 1 + (if NDIRECT ≤ k then s.indirectCost ip else 0) else 0

theorem State.IndirectLogged.bmapCost_le (h : s.IndirectLogged ip) (k : Nat) : bmapCost s ip k ≤ 2 := by
  simp only [bmapCost, missing, h.1, h.cost, and_false, if_false]
  split_ifs <;> omega

theorem bmapIndirect_grows {k : Nat} (hn : (s.itable ip).d.addrs NDIRECT ≠ 0) (hk : NDIRECT ≤ k) :
    Grows (bmapCost s ip k) (bmapCost s ip k + 1) (bmapIndirect ((s.itable ip).d.addrs NDIRECT) (k - NDIRECT)) s
      fun a s' => s'.itable = s.itable ∧ (a ≠ 0 → (s.itable ip).d.addr s.block k = 0 → s'.IndirectLogged ip) := by
  have haddr : (s.itable ip).d.addr s.block k = (s.block ((s.itable ip).d.addrs NDIRECT)).word (k - NDIRECT) :=
    Dinode.addr_indirect hk hn
  unfold bmapIndirect
  refine Grows.bread ?_
  rw [← haddr]
  dsimp only
  split
  · next h0 =>
    have hcost : bmapCost s ip k = 2 + s.indirectCost ip := by
      unfold bmapCost missing
      rw [if_pos h0, if_pos h0, if_neg fun hh => hn hh.2, if_pos hk]
      omega
    have hle := s.indirectCost_le ip
    rw [hcost]
    refine Grows.bind (s.indirectCost ip) 1 balloc_grows le_rfl (by omega) (by omega) fun a s₁ _ _ hg₁ h₁ => ?_
    by_cases ha : a = 0
    · rw [if_pos ha]
      exact Grows.pure ⟨h₁.1, fun hne => absurd rfl hne⟩
    · rw [if_neg ha]
      have hlog : (if (s.itable ip).d.addrs NDIRECT ∈ s₁.lh then 0 else 1) ≤ s.indirectCost ip := by
        unfold State.indirectCost
        split
        · exact Nat.zero_le _
        · next hnot => rw [if_neg fun hh => hnot (hg₁.subset hh.2)]
      refine Grows.bread (Grows.log (g := 0) (k := 0) (Grows.pure ⟨h₁.1, fun _ _ => ?_⟩) hlog le_rfl (hlog.trans hle))
      change (s₁.itable ip).d.addrs NDIRECT ≠ 0 ∧ (s₁.itable ip).d.addrs NDIRECT ∈ _
      rw [h₁.1]
      exact ⟨hn, State.mem_log⟩
  · next hne => exact Grows.pure ⟨rfl, fun _ h0 => absurd h0 hne⟩

theorem bmap_grows {k : Nat} (hk : k < MAXFILE) : Grows (bmapCost s ip k) (bmapCost s ip k + 1) (bmap ip k) s fun a s' =>
    a ≠ 0 → (s.itable ip).d.addr s.block k = 0 → NDIRECT ≤ k → s'.IndirectLogged ip := by
  unfold bmap
  refine Grows.inode ?_
  split
  · next hk =>
    have haddr : (s.itable ip).d.addr s.block k = (s.itable ip).d.addrs k := Dinode.addr_direct hk
    rw [← haddr]
    split
    · next h0 =>
      have hcost : bmapCost s ip k = 2 := by
        unfold bmapCost missing
        rw [if_pos h0, if_pos h0, if_neg fun hh => by omega, if_neg (by omega)]
      rw [hcost]
      refine Grows.bind 0 0 balloc_grows le_rfl (by omega) (by omega) fun a s₁ _ _ _ _ => ?_
      by_cases ha : a = 0
      · rw [if_pos ha]
        exact Grows.pure fun hne => absurd rfl hne
      · rw [if_neg ha]
        exact Grows.setAddr (Grows.pure fun _ _ hh => by omega)
    · next hne => exact Grows.pure fun _ h0 => absurd h0 hne
  · next hge =>
    have hle : NDIRECT ≤ k := not_lt.mp hge
    rw [if_pos (show k - NDIRECT < NINDIRECT by unfold MAXFILE at hk; omega)]
    · split
      · next hn =>
        have h0 : (s.itable ip).d.addr s.block k = 0 := by
          unfold Dinode.addr
          rw [if_neg hge, if_pos hn]
        have hcost : bmapCost s ip k = 4 := by
          unfold bmapCost missing
          rw [if_pos h0, if_pos h0, if_pos ⟨hle, hn⟩, if_pos hle, State.indirectCost, if_neg fun hh => hh.1 hn]
        rw [hcost]
        refine Grows.bind 2 3 balloc_grows le_rfl (by omega) (by omega) fun a s₁ _ _ _ h₁ => ?_
        by_cases ha : a = 0
        · rw [if_pos ha]
          exact Grows.pure fun hne => absurd rfl hne
        · rw [if_neg ha]
          refine Grows.setAddr ?_
          generalize hs₂ : s₁.updInode ip _ = s₂
          have hind : (s₂.itable ip).d.addrs NDIRECT = a := by
            rw [← hs₂]
            change (Function.update s₁.itable ip _ ip).d.addrs NDIRECT = a
            rw [Function.update_self]
            exact (Dinode.addrs_setAddr ..).trans (if_pos rfl)
          have hlogged : s₂.IndirectLogged ip := by
            rw [State.IndirectLogged, hind, ← hs₂]
            exact ⟨ha, h₁.2 ha⟩
          have hgrows := bmapIndirect_grows (hind ▸ ha : (s₂.itable ip).d.addrs NDIRECT ≠ 0) hle
          rw [hind] at hgrows
          have hcost₂ := hlogged.bmapCost_le k
          refine hgrows.mono hcost₂ (by omega) fun b s₃ hg₃ h₃ _ _ _ => ?_
          rw [State.IndirectLogged, h₃.1]
          exact ⟨hlogged.1, hg₃.subset hlogged.2⟩
      · next hn =>
        exact (bmapIndirect_grows hn hle).mono le_rfl le_rfl fun a s' _ h ha h0 _ => h.2 ha h0

/-! ## Writes -/

/-- What writei's loop adds for the `w` blocks from `lo` on: the blocks, the bitmap blocks of what is missing, and the
indirect block. -/
def writeCost (s : State) (ip : Fin NINODE) (lo : Nat) : Nat → Nat
  | 0 => 0
  | w + 1 => w + 1 + needed (s.itable ip).d s.block lo (lo + (w + 1)) +
      if NDIRECT < lo + (w + 1) then s.indirectCost ip else 0

theorem bmapCost_le_writeCost {k w : Nat} : bmapCost s ip k ≤ writeCost s ip k (w + 1) := by
  have hneed := missing_le_needed.trans (needed_mono (s.itable ip).d s.block k (show k + 1 ≤ k + (w + 1) by omega))
  simp only [bmapCost, writeCost]
  split_ifs <;> omega

/-- The first block's part of the cost. -/
theorem writeCost_succ {I : Nat → Dinode} {X : Multiset Nat} {k a w : Nat} {s₁ s₂ : State} {d : Dinode}
    (hb : Bmapped I X ip k s a s₁ d) (ha : a ≠ 0) (hm : k + (w + 1) ≤ MAXFILE) (hd : (s₂.itable ip).d = d)
    (hblk : d.addr s₂.block = d.addr s₁.block) (hlh : s.lh ⊆ s₂.lh)
    (hind : (s.itable ip).d.addr s.block k = 0 → NDIRECT ≤ k → s₂.IndirectLogged ip) :
    bmapCost s ip k + (if (s.itable ip).d.addr s.block k = 0 then 0 else 1) + writeCost s₂ ip (k + 1) w ≤
      writeCost s ip k (w + 1) := by
  have hle : s₂.indirectCost ip ≤ s.indirectCost ip := by
    unfold State.indirectCost
    split
    · exact Nat.zero_le _
    · next hnot =>
      refine (if_neg fun hh => hnot ?_).ge
      rw [State.IndirectLogged, hd, hb.indirect (.inl hh.1)]
      exact ⟨hh.1, hlh hh.2⟩
  have hzero (h0 : (s.itable ip).d.addr s.block k = 0) (hk : NDIRECT ≤ k) := (hind h0 hk).cost
  rcases w with _ | w
  · have hneed : missing (s.itable ip).d s.block k ≤ needed (s.itable ip).d s.block k (k + (0 + 1)) := missing_le_needed
    simp only [bmapCost, writeCost]
    split_ifs <;> omega
  · have hneed := needed_succ hb ha (show k < k + (w + 1 + 1) by omega) hm hblk
    rw [← hd] at hneed
    simp only [bmapCost, writeCost]
    rw [hneed, show k + 1 + (w + 1) = k + (w + 1 + 1) by omega]
    by_cases h0 : (s.itable ip).d.addr s.block k = 0
    · have hz := hzero h0
      split_ifs <;> omega
    · split_ifs <;> omega

theorem writeiLoop_grows {src : Source} {data : List UInt8} {N : Nat} {X : Multiset Nat} (hsrc : src.Gives data N) :
    ∀ (fuel : Nat) (s : State) (I : Nat → Dinode) (off tot n : Nat), s.sb.Sound → Owned s.sb I s.block X → Live I s ip →
      n ≤ fuel → tot + n ≤ N → tot ≤ data.length → off + n ≤ MAXFILE * BSIZE →
      Grows (writeCost s ip (off / BSIZE) (spans off n)) (writeCost s ip (off / BSIZE) (spans off n) + 1)
        (writeiLoop ip src fuel off tot n) s fun _ _ => True
  | 0, s, I, off, tot, n, hs, h, hl, hf, hN, htot, hend => Grows.pure trivial
  | fuel + 1, s, I, off, tot, n, hs, h, hl, hf, hN, htot, hend => by
    have hB : BSIZE = 1024 := rfl
    unfold writeiLoop
    by_cases h0 : n = 0
    · rw [if_pos h0]
      exact Grows.pure trivial
    rw [if_neg h0]
    have hkm : off / BSIZE < MAXFILE := div_BSIZE_lt (by omega)
    have hfit : off % BSIZE + min n (BSIZE - off % BSIZE) ≤ BSIZE := by
      rw [hB]
      omega
    have hmpos : 0 < min n (BSIZE - off % BSIZE) := by
      rw [hB]
      omega
    have hspan := spans_step off h0
    generalize hmin : min n (BSIZE - off % BSIZE) = m at *
    rw [hspan, Nat.add_comm 1]
    have hle : bmapCost s ip (off / BSIZE) ≤ writeCost s ip (off / BSIZE) (spans (off + m) (n - m) + 1) :=
      bmapCost_le_writeCost
    generalize hcost : writeCost s ip (off / BSIZE) (spans (off + m) (n - m) + 1) = C at *
    refine Grows.bind (C - bmapCost s ip (off / BSIZE)) (C + 1 - bmapCost s ip (off / BSIZE)) (bmap_grows hkm) (by omega)
      (by omega) (by omega) fun a s₁ ho he hg₁ h₁ => ?_
    have hrun := bmap_spec (D := fun _ => True) hs h hl hkm ho
    rw [he] at hrun
    obtain ⟨hk₁, d₁, hb⟩ := hrun
    by_cases ha : a = 0
    · rw [if_pos ha]
      exact Grows.pure trivial
    rw [if_neg ha]
    refine Grows.bread ?_
    dsimp only
    rw [hsrc tot m hmpos htot (by omega)]
    by_cases hav : tot + m ≤ data.length
    · rw [if_pos hav]
      dsimp only
      rw [if_neg (by decide)]
      have hlen : ((data.drop tot).take m).length = m := by
        rw [List.length_take, List.length_drop]
        omega
      generalize hs₂ : s₁.log a (Buffer.write (s₁.block a) (off % BSIZE) ((data.drop tot).take m)) = s₂
      obtain ⟨hw, hl₂, hd, haddr⟩ := hb.round hs h hl hk₁.sb hkm ha hfit hlen hs₂
      have hsb : s₂.sb = s.sb := hs₂ ▸ hk₁.sb
      have hlh : s₁.lh ⊆ s₂.lh := hs₂ ▸ State.log_subset
      have hrest := writeiLoop_grows hsrc fuel s₂ _ (off + m) (tot + m) (n - m) (hsb ▸ hs) (hsb ▸ hw.owned) hl₂ (by omega)
        (by omega) (by omega) (by omega)
      have hsucc := writeCost_succ (w := spans (off + m) (n - m)) hb ha ?_ hd haddr
        (fun b hmem => hlh (hg₁.subset hmem)) fun hz hk => ?_
      · have hnext : writeCost s₂ ip ((off + m) / BSIZE) (spans (off + m) (n - m)) =
            writeCost s₂ ip (off / BSIZE + 1) (spans (off + m) (n - m)) := by
          by_cases hlast : n - m = 0
          · rw [spans, if_pos hlast]
            rfl
          · rw [show (off + m) / BSIZE = off / BSIZE + 1 by rw [hB] at hmin ⊢; omega]
        -- a new block is in the log since bzero
        have hlog : (if a ∈ s₁.lh then 0 else 1) ≤ if (s.itable ip).d.addr s.block (off / BSIZE) = 0 then 0 else 1 := by
          split_ifs with hmem hz hz
          · exact le_rfl
          · exact Nat.zero_le 1
          · exact absurd (hb.fresh hz ha).1 hmem
          · exact le_rfl
        rw [hnext] at hrest
        rw [hcost] at hsucc
        generalize writeCost s₂ ip (off / BSIZE + 1) (spans (off + m) (n - m)) = C₂ at *
        rw [← hs₂] at hrest
        refine Grows.log hrest ?_ ?_ ?_ <;> omega
      · rw [Nat.add_comm _ 1, ← hspan]
        have hM : MAXFILE = 268 := rfl
        rw [spans, if_neg h0]
        rw [hB] at hend ⊢
        omega
      · have hl₁ := h₁ ha hz hk
        rw [State.IndirectLogged, show s₂.itable = s₁.itable by rw [← hs₂]; rfl]
        exact ⟨hl₁.1, hlh hl₁.2⟩
    · rw [if_neg hav]
      dsimp only
      rw [if_pos rfl]
      exact Grows.step (c := store a _) rfl ⟨rfl, rfl, [], (List.append_nil _).symm, le_rfl, List.nodup_nil, by simp⟩
        (Grows.pure trivial)

theorem iupdate_grows : Grows 1 1 (iupdate ip) s fun _ _ => True := by
  unfold iupdate
  refine Grows.inode (Grows.get (Grows.bread ((Grows.log_last trivial).mono ?_ le_rfl fun _ _ _ h => h)))
  split <;> omega

theorem writei_grows {src : Source} {data : List UInt8} {I : Nat → Dinode} {X : Multiset Nat} {off n : Nat} (hs : s.sb.Sound)
    (h : Owned s.sb I s.block X) (hl : Live I s ip) (hsrc : src.Gives data n)
    (hoff : off ≤ (s.itable ip).d.size) (hend : off + n ≤ MAXFILE * BSIZE) :
    Grows (writeCost s ip (off / BSIZE) (spans off n) + 1) (writeCost s ip (off / BSIZE) (spans off n) + 1)
      (writei ip src off n) s fun _ _ => True := by
  have hM : MAXFILE * BSIZE = 274432 := by decide
  have hu : u32 (off + n) = off + n := Nat.mod_eq_of_lt (by omega)
  unfold writei
  refine Grows.inode ?_
  rw [hu, if_neg (by omega), if_neg (by omega)]
  refine Grows.bind 1 1 (writeiLoop_grows hsrc n s I off 0 n hs h hl le_rfl (by omega) (Nat.zero_le _) hend) le_rfl le_rfl
    le_rfl fun r s₁ _ _ _ _ => ?_
  refine Grows.setInode (Grows.bind 0 0 iupdate_grows le_rfl le_rfl le_rfl fun _ _ _ _ _ _ => Grows.pure trivial)

theorem needed_le_of_mapped {d : Dinode} {blk : Nat → Block} {lo w : Nat} (hne : d.addr blk lo ≠ 0) :
    needed d blk lo (lo + (w + 1)) ≤ w + 1 := by
  have hsub : (Finset.Ico lo (lo + (w + 1))).filter (fun k => d.addr blk k = 0) ⊆ Finset.Ico (lo + 1) (lo + (w + 1)) := by
    intro k hk
    rw [Finset.mem_filter, Finset.mem_Ico] at hk
    have hlo : k ≠ lo := fun hk' => hne (hk' ▸ hk.2)
    rw [Finset.mem_Ico]
    omega
  have hcard := Finset.card_le_card hsub
  rw [Nat.card_Ico] at hcard
  unfold needed
  split <;> omega

/-- A chunk is three blocks from the start of one on, or it starts inside a block that exists and takes three more. -/
theorem writeCost_le {off n : Nat} (hf : Solid (s.itable ip).d s.block) (hoff : off ≤ (s.itable ip).d.size)
    (hn : n ≤ maxChunk) : writeCost s ip (off / BSIZE) (spans off n) + 1 ≤ MAXOPBLOCKS := by
  have hmax : maxChunk = 3072 := rfl
  have hop : MAXOPBLOCKS = 10 := rfl
  have hind := s.indirectCost_le ip
  rcases hs : spans off n with _ | w
  · rw [writeCost]
    omega
  · rw [writeCost]
    by_cases hal : off % BSIZE = 0
    · have hw : spans off n ≤ 3 := by
        simp only [spans, BSIZE] at *
        split <;> omega
      have hneed : needed (s.itable ip).d s.block (off / BSIZE) (off / BSIZE + (w + 1)) ≤ _ := needed_le
      split <;> omega
    · have hw : spans off n ≤ 4 := by
        simp only [spans, BSIZE] at *
        split <;> omega
      have hneed := needed_le_of_mapped (w := w) (hf.2 (off / BSIZE) (by simp only [blocksOf, BSIZE] at *; omega))
      split <;> omega

/-! ## What is passed to log_write -/

/-- Same but for the blocks in the log. -/
def State.withLog (s : State) (L : List Nat) : State := { s with lh := L }

/-- **What `c` does and the blocks it passes to log_write do not depend on the blocks in the log**, except that a full
log makes it panic. -/
structure Absorbed {α : Type} (c : Code State α) : Prop where
  run (s : State) (L : List Nat) :
    match c s, c (s.withLog L) with
    | .ok (a, s'), .ok (b, t) => b = a ∧ t = s'.withLog t.lh ∧ ∃ P : List Nat,
        (∀ x, x ∈ s'.lh ↔ x ∈ s.lh ∨ x ∈ P) ∧ ∀ x, x ∈ t.lh ↔ x ∈ L ∨ x ∈ P
    | _, _ => True

namespace Absorbed

variable {c : Code State α} {f : α → Code State β}

theorem pure (a : α) : Absorbed (pure a : Code State α) := ⟨fun _ _ => ⟨rfl, rfl, [], by simp, by simp [State.withLog]⟩⟩

theorem panic (msg : String) : Absorbed (Code.panic msg : Code State α) := ⟨fun _ _ => trivial⟩

theorem bind (h : Absorbed c) (hf : ∀ a, Absorbed (f a)) : Absorbed (c >>= f) := by
  constructor
  intro s L
  have hc := h.run s L
  cases he : c s with
  | error msg =>
    rw [Code.bind_error he]
    trivial
  | ok r =>
    cases he' : c (s.withLog L) with
    | error msg =>
      rw [Code.bind_error he']
      split <;> trivial
    | ok t =>
      rw [he, he'] at hc
      obtain ⟨hb, ht, P, hP, hP'⟩ := hc
      have hf' := (hf r.1).run r.2 t.2.lh
      rw [← ht, ← hb] at hf'
      rw [Code.bind_ok he, Code.bind_ok he', ← hb]
      split
      · next a s' b t' hr hr' =>
        rw [hr, hr'] at hf'
        obtain ⟨hb', ht', P', hs', hs''⟩ := hf'
        refine ⟨hb', ht', P ++ P', fun x => ?_, fun x => ?_⟩
        · rw [hs', hP, List.mem_append, or_assoc]
        · rw [hs'', hP', List.mem_append, or_assoc]
      · trivial

/-- What is read of the state is not the log. -/
theorem get {q : State → Code State β} (h : ∀ s, Absorbed (q s)) (hq : ∀ s L, q (State.withLog s L) = q s) :
    Absorbed (MonadState.get >>= q) := by
  constructor
  intro s L
  rw [Code.get_bind, Code.get_bind, hq]
  exact (h s).run s L

/-- A change of anything else. -/
theorem update {m : State → State} (h : ∀ s L, m (State.withLog s L) = (m s).withLog L) :
    Absorbed (modify m : Code State Unit) := by
  constructor
  intro s L
  have hlh : (m s).lh = s.lh := (congrArg State.lh (h s s.lh) :)
  have hlh' : (m (s.withLog L)).lh = L := congrArg State.lh (h s L)
  refine ⟨rfl, ?_, [], fun x => ?_, fun x => ?_⟩
  · rw [hlh']
    exact h s L
  · rw [hlh]
    simp
  · rw [hlh']
    simp

theorem logWrite (b : Nat) : Absorbed (Fs.logWrite b) := by
  have hok (s s' : State) (h : Fs.logWrite b s = .ok ((), s')) :
      s' = s.withLog s'.lh ∧ ∀ x, x ∈ s'.lh ↔ x ∈ s.lh ∨ x ∈ [b] := by
    unfold Fs.logWrite at h
    rw [Code.get_bind] at h
    split at h
    · cases h
    split at h
    · cases h
    split at h
    · next hmem =>
      cases h
      exact ⟨rfl, fun x => by simp; rintro rfl; exact hmem⟩
    · cases h
      exact ⟨rfl, fun x => List.mem_append⟩
  constructor
  intro s L
  split
  · next a s' b' t hs ht =>
    obtain ⟨hs', hP⟩ := hok s s' hs
    obtain ⟨ht', hP'⟩ := hok _ t ht
    refine ⟨rfl, ?_, [b], hP, hP'⟩
    rw [hs']
    exact ht'
  · trivial

theorem inode (ip : Fin NINODE) : Absorbed (Fs.inode ip) := get (fun _ => pure _) fun _ _ => rfl

theorem bread (b : Nat) : Absorbed (Fs.bread b) := get (fun _ => pure _) fun _ _ => rfl

theorem store (b : Nat) (c : Block) : Absorbed (Fs.store b c) := update fun _ _ => rfl

theorem setInode (ip : Fin NINODE) (m : Inode → Inode) : Absorbed (Fs.setInode ip m) := update fun _ _ => rfl

theorem setAddr (ip : Fin NINODE) (i a : Nat) : Absorbed (Fs.setAddr ip i a) := setInode ip _

end Absorbed

theorem balloc_absorbed : Absorbed balloc := by
  unfold balloc
  refine .get (fun s => ?_) fun _ _ => rfl
  split
  · exact .pure 0
  · next b _ =>
    refine .bind (.bread _) fun bp => .bind (.store _ _) fun _ => .bind (.logWrite _) fun _ => .bind ?_ fun _ => .pure b
    exact .bind (.store _ _) fun _ => .logWrite b

theorem bmapIndirect_absorbed (ind bn : Nat) : Absorbed (bmapIndirect ind bn) := by
  unfold bmapIndirect
  refine .bind (.bread _) fun bp => ?_
  dsimp only
  split
  · refine .bind balloc_absorbed fun a => ?_
    split
    · exact .pure 0
    · exact .bind (.bread _) fun bp => .bind (.store _ _) fun _ => .bind (.logWrite _) fun _ => .pure a
  · exact .pure _

theorem bmap_absorbed (bn : Nat) : Absorbed (bmap ip bn) := by
  unfold bmap
  refine .bind (.inode ip) fun x => ?_
  split
  · split
    · refine .bind balloc_absorbed fun a => ?_
      split
      · exact .pure 0
      · exact .bind (.setAddr _ _ _) fun _ => .pure a
    · exact .pure _
  · split
    · split
      · refine .bind balloc_absorbed fun a => ?_
        split
        · exact .pure 0
        · exact .bind (.setAddr _ _ _) fun _ => bmapIndirect_absorbed _ _
      · exact bmapIndirect_absorbed _ _
    · exact .panic _

theorem writeiLoop_absorbed (src : Source) : ∀ fuel off tot n, Absorbed (writeiLoop ip src fuel off tot n)
  | 0, off, tot, n => .pure _
  | fuel + 1, off, tot, n => by
    unfold writeiLoop
    split
    · exact .pure _
    refine .bind (bmap_absorbed _) fun a => ?_
    split
    · exact .pure _
    refine .bind (.bread a) fun bp => .bind (.store _ _) fun _ => ?_
    split
    · exact .pure _
    · exact .bind (.logWrite a) fun _ => writeiLoop_absorbed src fuel _ _ _

theorem writei_absorbed (ip : Fin NINODE) (src : Source) (off n : Nat) : Absorbed (writei ip src off n) := by
  unfold writei
  refine .bind (.inode ip) fun x => ?_
  dsimp only
  split
  · exact .pure _
  split
  · exact .pure _
  refine .bind (writeiLoop_absorbed src _ _ _ _) fun r => .bind (.setInode _ _) fun _ => .bind ?_ fun _ => .pure _
  unfold iupdate
  exact .bind (.inode ip) fun x => .get (fun s => .bind (.bread _) fun bp => .bind (.store _ _) fun _ => .logWrite _)
    fun _ _ => rfl

/-! ## The budget -/

/-- **A chunk of filewrite fits MAXOPBLOCKS.** The blocks it passes to log_write are those it leaves in an empty log; in
any other they are absorbed. -/
theorem writei_fits_budget {m : Mem} {root off n : Nat} (va : Nat) (hc : s.Consistent) (hh : s.Holds ip)
    (ho : 0 < s.outstanding) (htab : TableAt m root) (hoff : off ≤ (s.itable ip).d.size) (hn : n ≤ maxChunk) :
    match writei ip (.user m root va) off n (s.withLog []) with
    | .ok (r, t) => t.lh.Nodup ∧ t.lh.length ≤ MAXOPBLOCKS ∧
        match writei ip (.user m root va) off n s with
        | .ok (r', s') => r' = r ∧ ∀ b, b ∈ s'.lh ↔ b ∈ s.lh ∨ b ∈ t.lh
        | .error msg => msg = "too big a transaction" ∧ s.room < MAXOPBLOCKS
    | .error msg => msg = "too big a transaction" ∧ s.capacity < MAXOPBLOCKS := by
  have hl := hh.live hc.keyed
  have hf := hc.owned.solid hh.inum (hl.dinode ▸ hh.type)
  rw [hl.dinode] at hf
  have hM : MAXFILE * BSIZE = 274432 := by decide
  have hgrows (L : List Nat) :
      Grows MAXOPBLOCKS MAXOPBLOCKS (writei ip (.user m root va) off n) (s.withLog L) fun _ _ => True := by
    by_cases hend : off + n ≤ MAXFILE * BSIZE
    · have hcost := writeCost_le (s := s.withLog L) hf hoff hn
      have hrun := writei_grows (s := s.withLog L) hc.sound hc.owned ⟨hl.inum, hl.dinode, hl.type⟩
        (Source.gives_user htab va n) hoff hend
      exact hrun.mono hcost hcost fun _ _ _ h => h
    · -- the file would be too long
      have hu : u32 (off + n) = off + n := Nat.mod_eq_of_lt (by
        have hsize := hf.1
        have hmax : maxChunk = 3072 := rfl
        have hM : MAXFILE = 268 := rfl
        simp only [blocksOf, BSIZE] at hsize
        omega)
      unfold writei
      refine Grows.inode ?_
      rw [hu, if_neg (by change ¬ (off > (s.itable ip).d.size ∨ _); omega), if_pos (by omega)]
      exact Grows.pure trivial
  have hempty := (hgrows []).run ho
  cases he : writei ip (.user m root va) off n (s.withLog []) with
  | error msg =>
    rw [he] at hempty
    exact hempty
  | ok r =>
    rw [he] at hempty
    obtain ⟨⟨-, -, P, hP, hle, hnd, -⟩, -⟩ := hempty
    have hlh : r.2.lh = P := hP
    refine ⟨hlh ▸ hnd, hlh ▸ hle, ?_⟩
    have hsame := (writei_absorbed ip (.user m root va) off n).run s []
    have hlog := (hgrows s.lh).run ho
    rw [show s.withLog s.lh = s from rfl] at hlog
    cases he' : writei ip (.user m root va) off n s with
    | error msg =>
      rw [he'] at hlog
      exact hlog
    | ok r' =>
      rw [he, he'] at hsame
      obtain ⟨hr, -, P', hs', ht⟩ := hsame
      refine ⟨hr.symm, fun b => ?_⟩
      rw [hs', ht]
      simp

theorem writei_fits_budget_hello : ∃ (s s' : State) (m : Mem) (root : Nat) (r : Int),
    writei 0 (.user m root 3584) 5 1024 s = .ok (r, s') ∧ s'.lh.length ≤ MAXOPBLOCKS := by
  obtain ⟨s, hc, hh, ho, -, hroom, -, hsize, -⟩ := working_hello
  obtain ⟨m, root, htab, -⟩ := demo_edge
  have hfit := writei_fits_budget (n := 1024) 3584 hc hh (by omega) htab hsize.ge (by decide)
  have hcap : ¬ s.capacity < MAXOPBLOCKS := by
    unfold State.room at hroom
    have : MAXOPBLOCKS = 10 := rfl
    omega
  split at hfit
  · next r t he => exact ⟨_, t, m, root, r, he, hfit.2.1⟩
  · exact absurd hfit.2 hcap

end Xv6.Fs
