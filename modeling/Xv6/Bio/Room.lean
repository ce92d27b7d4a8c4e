/-
Does the cache run out? bget needs a buffer without references when its block is not cached. The buffers with
references are those that processes hold, wait for or are giving back, and the pinned ones, so there is room as long
as these are fewer than NBUF (`bread_finds_buffer`). Nothing in the kernel sees to that: NPROC is 64 and NBUF is 30, and
thirty-one processes that each read a block of a file of their own run the cache out (`readers_exhaust_cache`).
-/
import Xv6.Bio.Cache

namespace Xv6.Bio

open Lib

variable {α : Type}

/-! ## Counting -/

namespace St

variable (s : St α)

/-- The process has the buffer locked, waits for it or is giving it back. -/
def Has (t : Fin NPROC) (b : Fin NBUF) : Prop := (s.buf b).lock = some t ∨ (s.pc t).refs b ≠ 0

instance (t : Fin NPROC) (b : Fin NBUF) : Decidable (s.Has t b) := inferInstanceAs (Decidable (_ ∨ _))

/-- How many buffers are spoken for: those that processes have, for each process, and those of blocks in the log. -/
def demand : Nat :=
  ∑ t, (Finset.univ.filter fun b => s.Has t b).card + (Finset.univ.filter fun b => s.pins b ≠ 0).card

/-- The same, buffer by buffer. -/
theorem demand_eq : s.demand = ∑ b, ((∑ t, if s.Has t b then 1 else 0) + if s.pins b ≠ 0 then 1 else 0) := by
  rw [demand, Finset.sum_add_distrib, Finset.sum_comm]
  simp only [Finset.card_filter]

end St

/-- A process calls bread while fewer than NBUF buffers are spoken for. -/
def Room (s : St α) : Label α → Prop
  | .bread _ _ _ => s.demand < NBUF
  | .bwrite _ _ | .brelse _ _ | .bpin _ _ | .bunpin _ _ | .change _ _ _ | .run _ => True

/-- A buffer with references belongs to a process or is pinned. -/
theorem Refs.used {s : St α} {b : Fin NBUF} (h : Refs s) (hb : (s.buf b).refcnt ≠ 0) :
    (∃ t, s.Has t b) ∨ s.pins b ≠ 0 := by
  have hcount := h.count b
  have hpos : (s.buf b).refcnt.toNat ≠ 0 := fun h0 => hb (UInt32.toNat_inj.mp h0)
  by_cases hp : s.pins b = 0
  · left
    cases hl : (s.buf b).lock with
    | some t => exact ⟨t, .inl hl⟩
    | none =>
      rw [hl] at hcount
      have hu : s.users b ≠ 0 := by simpa [hp, hcount] using hpos
      obtain ⟨t, -, ht⟩ := Finset.exists_ne_zero_of_sum_ne_zero hu
      exact ⟨t, .inr ht⟩
  · exact .inr hp

theorem exists_eq_zero {n : Nat} {f : Fin n → Nat} (h : ∑ i, f i < n) : ∃ i, f i = 0 := by
  obtain ⟨i, -, hi⟩ := Finset.exists_lt_of_sum_lt (s := Finset.univ) (f := f) (g := fun _ => 1) (by simpa using h)
  exact ⟨i, by omega⟩

theorem Refs.exists_unused {s : St α} (h : Refs s) (hd : s.demand < NBUF) : ∃ b, (s.buf b).refcnt = 0 := by
  obtain ⟨b, hb⟩ := exists_eq_zero (s.demand_eq ▸ hd)
  obtain ⟨hno, hp⟩ := Nat.add_eq_zero_iff.mp hb
  refine ⟨b, of_not_not fun h0 => ?_⟩
  rcases h.used h0 with ⟨t, ht⟩ | hpin
  · have ht0 := Finset.sum_eq_zero_iff.mp hno t (Finset.mem_univ t)
    rw [if_pos ht] at ht0
    cases ht0
  · rw [if_pos hpin] at hp
    cases hp

/-! ## Every run -/

section Steps

variable {s : St α} {t : Fin NPROC}

theorem bget_room (h : Inv s) (hd : s.demand < NBUF) (dev blockno : UInt32) (msg : String) :
    s.bget t dev blockno ≠ .panic msg := by
  obtain ⟨order, hlist⟩ := h.list
  obtain ⟨b, hb⟩ := h.refs.exists_unused hd
  unfold St.bget
  rw [hlist.cached_eq, hlist.unused_eq]
  cases order.find? fun b => (s.buf b).dev = dev ∧ (s.buf b).blockno = blockno with
  | some b => exact fun he => by cases he
  | none =>
    have hfound : (order.reverse.find? fun b => (s.buf b).refcnt = 0).isSome :=
      List.find?_isSome.mpr ⟨b, List.mem_reverse.mpr (hlist.all b), by simpa using hb⟩
    obtain ⟨c, hc⟩ := Option.isSome_iff_exists.mp hfound
    rw [hc]
    exact fun he => by cases he

theorem run_ne_panic (msg : String) : s.run t ≠ .panic msg := by
  unfold St.run
  repeat' split
  all_goals exact fun he => by cases he

/-- The other calls panic for reasons of their own. -/
theorem step_room {lb : Label α} (h : Inv s) (hr : Room s lb) : step s lb ≠ .panic "bget: no buffers" := by
  have hcall : call s lb ≠ .panic "bget: no buffers" := by
    cases lb with
    | bread t dev blockno => exact bget_room h hr dev blockno _
    | bwrite t b =>
      dsimp only [call]
      split <;> exact fun he => by simp at he
    | brelse t b =>
      dsimp only [call]
      split <;> exact fun he => by simp at he
    | bpin | bunpin | change | run => exact fun he => by cases he
  cases lb with
  | run t => exact run_ne_panic _
  | bread | bwrite | brelse | bpin | bunpin | change =>
    dsimp only [step]
    split
    · exact hcall
    · exact fun he => by cases he

end Steps

/-- **There is a buffer for every bread** in every run of clients that keep the rules and call bread only while fewer
than NBUF buffers are spoken for. -/
theorem bread_finds_buffer {s₀ : St α} {as : List (Label α)} (h0 : init s₀)
    (hc : Along step (fun s lb => Client s lb ∧ Room s lb) s₀ as) : runs step s₀ as ≠ .panic "bget: no buffers" := by
  exact hc.not_panic (I := Inv) (fun _ _ _ hi hcl he => step_inv hi hcl.1 he) (fun _ _ hi hcl => step_room hi hcl.2)
    (init_inv h0)

deriving instance DecidableEq for Label

instance (s : St α) (lb : Label α) : Decidable (Room s lb) :=
  match lb with
  | .bread _ _ _ => inferInstanceAs (Decidable (_ < _))
  | .bwrite _ _ | .brelse _ _ | .bpin _ _ | .bunpin _ _ | .change _ _ _ | .run _ => .isTrue trivial

/-- One process has a pinned buffer and another one reads the block. -/
theorem bread_finds_buffer_pinned : Along step (fun s lb => Client s lb ∧ Room s lb) booted readPinned ∧
    runs step booted readPinned ≠ .panic "bget: no buffers" := by
  have hc : Along step (fun s lb => Client s lb ∧ Room s lb) booted readPinned := by decide +kernel
  exact ⟨hc, bread_finds_buffer ⟨_, 0, rfl⟩ hc⟩

/-! ## Too many readers -/

/-- What readi does with the cache for a block that has an address and is not cached: bread gets the buffer, locks it
and reads it, the bytes are copied out, brelse gives it back. -/
def readiBlock (t : Fin NPROC) (blockno : UInt32) (b : Fin NBUF) : List (Label α) :=
  [.bread t ROOTDEV blockno, .run t, .run t, .run t, .run t, .brelse t b, .run t]

/-- Process `t` starts to read block `100 + t`. -/
def readers : List (Label Nat) :=
  (List.finRange 31).map fun t : Fin 31 => .bread (t.castLE (by decide)) ROOTDEV (UInt32.ofNat (100 + t))

/-- Thirty-one processes, each at the beginning of a readi of its own, and there is no buffer for the last. -/
theorem readers_exhaust_cache : init booted ∧
    (∀ t : Fin NPROC, readers.filter (fun lb => lb.proc = t) <+: readiBlock t (UInt32.ofNat (100 + t)) 0) ∧
    Along step Client booted readers ∧ runs step booted readers = .panic "bget: no buffers" := by
  refine ⟨⟨_, 0, rfl⟩, by decide +kernel, by decide +kernel, Outcome.eq_panic_of_stops (by decide +kernel)⟩

end Xv6.Bio
