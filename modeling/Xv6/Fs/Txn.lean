/-
Running file-system code inside a transaction. `Runs D k c s Q`: from `s`, within an
operation, `c` makes at most `k` calls of log_write; it can only panic because the log has
no room for that many, and otherwise `Q` holds of what it returns. What it changes in the
cache is logged, the blocks in `D` apart. The rules follow the code.
-/
import Xv6.Fs.Model

namespace Xv6.Fs

open Lib

theorem bread_bind {α : Type} {s : State} {b : Nat} (f : Block → Code State α) : (bread b >>= f) s = f (s.block b) s := rfl

theorem inode_bind {α : Type} {s : State} {ip : Fin NINODE} (f : Inode → Code State α) :
    (inode ip >>= f) s = f (s.itable ip) s := rfl

/-- How many blocks the log takes: one fewer than it has room for. -/
def State.capacity (s : State) : Nat := min LOGSIZE (s.sb.nlog - 1)

/-- How many more blocks the log takes. -/
def State.room (s : State) : Nat := s.capacity - s.lh.length

/-- What file-system code within an operation leaves alone. -/
structure Kept (D : Nat → Prop) (k : Nat) (s s' : State) : Prop where
  sb : s'.sb = s.sb
  disk : s'.disk = s.disk
  outstanding : s'.outstanding = s.outstanding
  logged : s.lh ⊆ s'.lh
  length : s'.lh.length ≤ s.lh.length + k
  fits : s'.lh.length ≤ max s.lh.length s.capacity
  block : ∀ b, ¬ D b → b ∉ s'.lh → s'.block b = s.block b

variable {α β : Type} {D : Nat → Prop} {k l : Nat} {s s' s'' : State}

theorem State.logFull_iff : s.logFull ↔ s.room = 0 := by
  unfold logFull room capacity
  omega

namespace Kept

theorem rfl : Kept D k s s :=
  ⟨Eq.refl _, Eq.refl _, Eq.refl _, fun _ h => h, Nat.le_add_right _ _, le_max_left _ _, fun _ _ _ => Eq.refl _⟩

theorem capacity (h : Kept D k s s') : s'.capacity = s.capacity := by rw [State.capacity, h.sb, State.capacity]

theorem trans (h : Kept D k s s') (h' : Kept D l s' s'') : Kept D (k + l) s s'' where
  sb := h'.sb.trans h.sb
  disk := h'.disk.trans h.disk
  outstanding := h'.outstanding.trans h.outstanding
  logged := fun _ hb => h'.logged (h.logged hb)
  length := by
    have := h.length
    have := h'.length
    omega
  fits := by
    have := h.fits
    have := h'.fits
    rw [h.capacity] at this
    omega
  block := fun b hD hb => (h'.block b hD hb).trans (h.block b hD fun hmem => hb (h'.logged hmem))

theorem mono (h : Kept D k s s') (hkl : k ≤ l) : Kept D l s s' := { h with length := by have := h.length; omega }

theorem room (h : Kept D k s s') : s.room ≤ s'.room + k := by
  have := h.length
  unfold State.room
  rw [h.capacity]
  omega

theorem updInode (ip : Fin NINODE) (f : Inode → Inode) : Kept D k s (s.updInode ip f) :=
  ⟨Eq.refl _, Eq.refl _, Eq.refl _, fun _ h => h, Nat.le_add_right _ _, le_max_left _ _, fun _ _ _ => Eq.refl _⟩

end Kept

/-- The outcome of file-system code within an operation. -/
def Runs (D : Nat → Prop) (k : Nat) (c : Code State α) (s : State) (Q : α → State → Prop) : Prop :=
  0 < s.outstanding →
    match c s with
    | .ok (a, s') => Kept D k s s' ∧ Q a s'
    | .error msg => msg = "too big a transaction" ∧ s.room < k

namespace Runs

variable {c : Code State α} {f : α → Code State β} {Q Q' : α → State → Prop} {T : β → State → Prop} {a : α}

theorem of_ok (hc : c s = .ok (a, s')) (hk : Kept D k s s') (hQ : Q a s') : Runs D k c s Q := by
  intro _
  rw [hc]
  exact ⟨hk, hQ⟩

theorem pure (h : Q a s) : Runs D k (pure a) s Q := of_ok rfl .rfl h

theorem mono (h : Runs D k c s Q) (hkl : k ≤ l) (hQ : ∀ a s', Kept D k s s' → Q a s' → Q' a s') : Runs D l c s Q' := by
  intro ho
  have hc := h ho
  cases he : c s with
  | ok r =>
    rw [he] at hc
    exact ⟨hc.1.mono hkl, hQ r.1 r.2 hc.1 hc.2⟩
  | error msg =>
    rw [he] at hc
    exact ⟨hc.1, hc.2.trans_le hkl⟩

theorem bind (h : Runs D k c s Q) (hf : ∀ a s', Kept D k s s' → Q a s' → Runs D l (f a) s' T) :
    Runs D (k + l) (c >>= f) s T := by
  intro ho
  have hc := h ho
  cases he : c s with
  | error msg =>
    rw [he] at hc
    rw [Code.bind_error he]
    exact ⟨hc.1, by have := hc.2; omega⟩
  | ok r =>
    rw [he] at hc
    rw [Code.bind_ok he]
    have hr := hf r.1 r.2 hc.1 hc.2 (by rw [hc.1.outstanding]; exact ho)
    have hroom := hc.1.room
    cases hg : f r.1 r.2 with
    | error msg =>
      rw [hg] at hr
      exact ⟨hr.1, by have := hr.2; omega⟩
    | ok t =>
      rw [hg] at hr
      exact ⟨hc.1.trans hr.1, hr.2⟩

/-- Run a first command, with `l` of the `n` calls of log_write left for the rest. -/
theorem seq {n : Nat} (h : Runs D k c s Q) (l : Nat) (hn : k + l ≤ n)
    (hf : ∀ a s', Kept D k s s' → Q a s' → Runs D l (f a) s' T) : Runs D n (c >>= f) s T :=
  (bind h hf).mono hn fun _ _ _ ht => ht

/-- Run a first command whose result is known and that does not log. -/
theorem step (hc : c s = .ok (a, s')) (hk : Kept D 0 s s') (hf : Runs D k (f a) s' T) : Runs D k (c >>= f) s T := by
  refine seq (Q := fun b t => b = a ∧ t = s') (of_ok hc hk ⟨rfl, rfl⟩) k (Nat.zero_add k).le fun b t _ hbt => ?_
  obtain ⟨rfl, rfl⟩ := hbt
  exact hf

theorem get {g : State → Code State β} (h : Runs D k (g s) s T) : Runs D k (MonadState.get >>= g) s T := h

theorem bread {b : Nat} {g : Block → Code State β} (h : Runs D k (g (s.block b)) s T) :
    Runs D k (Fs.bread b >>= g) s T := h

theorem inode {ip : Fin NINODE} {g : Inode → Code State β} (h : Runs D k (g (s.itable ip)) s T) :
    Runs D k (Fs.inode ip >>= g) s T := h

theorem setInode {ip : Fin NINODE} {m : Inode → Inode} {g : Unit → Code State β}
    (h : Runs D k (g ()) (s.updInode ip m) T) : Runs D k (Fs.setInode ip m >>= g) s T :=
  step rfl (Kept.updInode ip m) h

/-- A store that is not logged, or logged already. -/
theorem dirty {b : Nat} {c : Block} {g : Unit → Code State β} (hb : D b ∨ b ∈ s.lh)
    (h : Runs D k (g ()) (s.setBlock b c) T) : Runs D k (Fs.store b c >>= g) s T := by
  have hstore : Fs.store b c s = .ok ((), s.setBlock b c) := rfl
  refine step hstore ⟨rfl, rfl, rfl, fun _ h => h, le_rfl, le_max_left _ _, fun b' hD hlh => ?_⟩ h
  refine Function.update_of_ne ?_ _ _
  rintro rfl
  exact hb.elim hD hlh

/-- With room in the log the code returns. -/
theorem returns (h : Runs D k c s Q) (ho : 0 < s.outstanding) (hr : k ≤ s.room) :
    c.Returns s fun a s' => Kept D k s s' ∧ Q a s' := by
  have hc := h ho
  cases he : c s with
  | ok r =>
    rw [he] at hc
    exact ⟨r.1, r.2, he, hc⟩
  | error msg =>
    rw [he] at hc
    omega

end Runs

/-- The state after a block was changed and logged. -/
def State.log (s : State) (b : Nat) (c : Block) : State :=
  { s.setBlock b c with lh := if b ∈ s.lh then s.lh else s.lh ++ [b] }

theorem State.mem_log {b : Nat} {c : Block} : b ∈ (s.log b c).lh := by
  unfold log
  dsimp only
  split
  · assumption
  · simp

theorem State.log_subset {b : Nat} {c : Block} : s.lh ⊆ (s.log b c).lh := by
  unfold log
  dsimp only
  split
  · exact fun _ h => h
  · exact List.subset_append_left _ _

theorem State.length_log {b : Nat} {c : Block} : (s.log b c).lh.length ≤ s.lh.length + 1 := by
  unfold log
  dsimp only
  split <;> simp

theorem Kept.log (b : Nat) (c : Block) (hr : 0 < s.room) : Kept D 1 s (s.log b c) where
  sb := Eq.refl _
  disk := Eq.refl _
  outstanding := Eq.refl _
  logged := State.log_subset
  length := State.length_log
  fits := by
    have := State.length_log (s := s) (b := b) (c := c)
    unfold State.room at hr
    omega
  block b' _ hb' := Function.update_of_ne (by rintro rfl; exact hb' State.mem_log) _ _

theorem logWrite_ok {b : Nat} (ho : 0 < s.outstanding) (hr : 0 < s.room) :
    logWrite b s = .ok ((), { s with lh := if b ∈ s.lh then s.lh else s.lh ++ [b] }) := by
  have hfull : ¬ s.logFull := by rw [State.logFull_iff]; omega
  unfold logWrite
  rw [Code.get_bind, if_neg hfull, if_neg (by omega)]
  split <;> rfl

/-- **The code's way to change a block**: store, then log_write. -/
theorem Runs.log_last {b : Nat} {c : Block} {Q : Unit → State → Prop} (h : Q () (s.log b c)) :
    Runs D 1 (store b c >>= fun _ => logWrite b) s Q := by
  intro ho
  have hstore : (store b c >>= fun _ => logWrite b) s = logWrite b (s.setBlock b c) := rfl
  rw [hstore]
  by_cases hr : 0 < s.room
  · rw [logWrite_ok (s := s.setBlock b c) ho hr]
    exact ⟨Kept.log b c hr, h⟩
  · have hfull : (s.setBlock b c).logFull := State.logFull_iff.mpr (Nat.eq_zero_of_not_pos hr)
    unfold logWrite
    rw [Code.get_bind, if_pos hfull]
    exact ⟨rfl, by omega⟩

theorem Runs.log {g : Unit → Code State α} {b : Nat} {c : Block} {Q : α → State → Prop}
    (h : Runs D k (g ()) (s.log b c) Q) : Runs D (k + 1) (store b c >>= fun _ => logWrite b >>= g) s Q := by
  change Runs D (k + 1) ((store b c >>= fun _ => logWrite b) >>= g) s Q
  exact Runs.seq (Q := fun _ s' => s' = s.log b c) (Runs.log_last rfl) k (by omega) fun _ s' _ hs' => hs' ▸ h

end Xv6.Fs
