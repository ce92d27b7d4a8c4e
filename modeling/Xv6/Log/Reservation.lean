/-
The log space begin_op reserves. begin_op admits an operation when the blocks already
logged and MAXOPBLOCKS for each operation outstanding, this one included, are at most
LOGSIZE; mkfs makes a log of LOGSIZE blocks, of which one is the header, so log_write
accepts at most LOGSIZE - 1 blocks. Three operations that each log MAXOPBLOCKS distinct
blocks are all admitted, and the last block of the last one stops the machine
(`full_log_panics`). log_write succeeds exactly while fewer than LOGSIZE - 1 distinct
blocks have been logged since the last commit, which operations that log at most
MAXOPBLOCKS - 1 blocks never exceed (`log_space`).
-/
import Xv6.Log.GroupCommitFacts

namespace Xv6.GroupCommit

open Lib

set_option linter.unusedSectionVars false

variable {P : Type} [DecidableEq P]

/-- The log size mkfs writes in the superblock. -/
def nlog : Nat := LOGSIZE

/-- The blocks `p` has logged in its current operation. -/
def mine (p : P) : List (Event P) → List Nat
  | [] => []
  | .begin q :: h => if q = p then [] else mine p h
  | .write q b :: h => if q = p then b :: mine p h else mine p h
  | _ :: h => mine p h

/-- An operation logs at most `n` distinct blocks, the one it logs now included. -/
def WithinBudget (n : Nat) (s : State P) : Action P → Prop
  | .logWrite p b => (b :: mine p s.hist).dedup.length ≤ n
  | _ => True

/-- log_write is called while fewer than LOGSIZE - 1 distinct blocks are logged and not committed. -/
def HasRoom (s : State P) : Action P → Prop
  | .logWrite p b => s.pc p = .op → s.owner b = some p → (pend s.hist).dedup.length < LOGSIZE - 1
  | _ => True

/-! ## When log_write panics -/

theorem step_size {s s' : State P} {a : Action P} (he : step s a = .ok s') : s'.log.size = s.log.size := by
  cases a with
  | tryBegin p =>
    simp only [step, tryBegin] at he
    split at he
    · cases he; split <;> first | rfl | (split <;> rfl)
    · cases he
  | logWrite p b =>
    simp only [step, logWrite] at he
    split at he
    · split at he
      · cases he
      split at he
      · cases he
      split at he <;> cases he <;> rfl
    · cases he
  | endOp p =>
    simp only [step, endOp] at he
    split at he
    · split at he
      · cases he
      split at he <;> cases he <;> rfl
    · cases he
  | commitStep p =>
    simp only [step, commitStep] at he
    split at he <;> first
      | (cases he; rfl)
      | (split at he <;> first | (cases he; rfl) | (split at he <;> cases he; rfl))
      | cases he
  | beginOp | bread | brelse =>
    simp only [step] at he
    split at he <;> cases he; rfl

/-- Between commits the header is as long as the pending blocks are many. -/
theorem Inv.lh_length {s : State P} (h : Inv s) (hc : s.log.committing = false) :
    s.log.lh.length = (pend s.hist).dedup.length := by
  refine List.Perm.length_eq ((List.perm_ext_iff_of_nodup h.nodup (List.nodup_dedup _)).mpr fun b => ?_)
  rw [List.mem_dedup]
  exact (h.between hc).listed b

theorem step_tooBig_iff {s : State P} {a : Action P} (h : Inv s) (hs : s.log.size = nlog) :
    step s a = .panic "too big a transaction" ↔ ¬ HasRoom s a := by
  cases a with
  | logWrite p b =>
    simp only [step, HasRoom, Classical.not_imp, not_lt]
    by_cases hp : s.pc p = .op ∧ s.owner b = some p
    · rw [if_pos hp, ← h.lh_length (h.not_committing_of_op hp.1)]
      have hn : s.log.size = LOGSIZE := hs
      have hL : LOGSIZE = 30 := rfl
      simp only [hp.1, hp.2, true_and, logWrite]
      split
      · next hbig => simp only [true_iff]; omega
      next hfit =>
      have hlt : ¬ LOGSIZE - 1 ≤ s.log.lh.length := by omega
      simp only [hlt, iff_false]
      split
      · simp
      split <;> simp
    · rw [if_neg hp]
      simp only [reduceCtorEq, false_iff, not_and]
      exact fun h1 h2 => absurd ⟨h1, h2⟩ hp
  | endOp p =>
    simp only [step, endOp, HasRoom, not_true_eq_false, iff_false]
    split
    · split
      · simp
      split <;> simp
    · simp
  | commitStep p =>
    simp only [step, commitStep, HasRoom, not_true_eq_false, iff_false]
    split <;> first | simp | (split <;> first | simp | (split <;> simp))
  | beginOp | tryBegin | bread | brelse =>
    simp only [step, HasRoom, not_true_eq_false, iff_false]
    split <;> simp

/-- A run stops with the log full exactly when some log_write in it finds no room. -/
theorem runs_tooBig_iff {s : State P} {as : List (Action P)} (h : Inv s) (hs : s.log.size = nlog) :
    runs step s as ≠ .panic "too big a transaction" ↔ Along step HasRoom s as := by
  induction as generalizing s with
  | nil => simp [runs, Along]
  | cons a as ih =>
    have hiff := step_tooBig_iff (a := a) h hs
    simp only [runs, Along]
    split
    · next s' he =>
      rw [he] at hiff
      have hroom : HasRoom s a := by_contra fun hn => by simp [hn] at hiff
      rw [ih (h.step he) ((step_size he).trans hs)]
      simp [hroom]
    · next m he =>
      rw [he] at hiff
      simp only [and_true, ne_eq]
      rw [hiff, not_not]
    · next he =>
      rw [he] at hiff
      simpa using hiff

/-! ## Operations one block short of their budget -/

/-- What is left to `p`'s operation of a budget of MAXOPBLOCKS - 1 blocks. -/
def slack (h : List (Event P)) (p : P) : Nat := MAXOPBLOCKS - 1 - (mine p h).dedup.length

/-- Between commits the logged blocks and what is left to the operations in progress fit
in the log; what an operation has logged is pending. -/
structure Reserved (s : State P) : Prop where
  fits : s.log.committing = false → ∀ l : List P, l.Nodup → (∀ p, p ∈ l ↔ s.pc p = .op) → l ≠ [] →
    s.log.lh.length + (l.map (slack s.hist)).sum ≤ LOGSIZE - 2
  pending : ∀ p, s.pc p = .op → ∀ b ∈ mine p s.hist, b ∈ pend s.hist

/-- The operations in progress are the same, and so is what each has logged. -/
theorem Reserved.congr {s t : State P} (h : Reserved s) (hl : t.log.lh = s.log.lh)
    (hc : t.log.committing = s.log.committing) (hp : ∀ p, t.pc p = .op ↔ s.pc p = .op) (hh : t.hist = s.hist) :
    Reserved t := by
  refine ⟨fun hct l hn hm hne => ?_, fun p hpc => ?_⟩
  · have := h.fits (hc ▸ hct) l hn (fun p => by rw [hm, hp]) hne
    rwa [hl, hh]
  · rw [hh]
    exact h.pending p ((hp p).mp hpc)

theorem dedup_length_le_cons (b : Nat) (l : List Nat) : l.dedup.length ≤ (b :: l).dedup.length := by
  by_cases hb : b ∈ l
  · rw [List.dedup_cons_of_mem hb]
  · rw [List.dedup_cons_of_notMem hb]; simp

/-- A sum over distinct elements, one of them set apart. -/
theorem sum_map_erase {l : List P} {p : P} (hp : p ∈ l) (f : P → Nat) :
    (l.map f).sum = f p + ((l.erase p).map f).sum := by
  rw [((List.perm_cons_erase hp).map f).sum_eq, List.map_cons, List.sum_cons]

theorem Reserved.tryBegin {s : State P} (h : Inv s) (hr : Reserved s) {p : P} (hp : s.pc p = .waiting) :
    Reserved (tryBegin s p) := by
  rw [GroupCommit.tryBegin]
  split
  · exact hr
  next hc =>
  split
  · exact hr
  next hroom =>
  have hcf : s.log.committing = false := by simpa using hc
  obtain ⟨l₀, hn₀, hm₀, ho₀⟩ := h.ops
  refine ⟨fun _ l hn hm hne => ?_, fun q hq b hb => ?_⟩
  · simp only [State.note_pc, State.goto_pc] at hm
    -- every operation but the new one was in progress
    have hlen : l.length ≤ l₀.length + 1 := by
      have hsub : l ⊆ p :: l₀ := fun q hq => by
        have := (hm q).mp hq
        by_cases hqp : q = p
        · simp [hqp]
        · rw [if_neg hqp] at this
          exact List.mem_cons_of_mem _ ((hm₀ q).mpr this)
      simpa using (List.subperm_of_subset hn hsub).length_le
    have h1 : (l.map (slack (.begin p :: s.hist))).sum ≤ l.length * (MAXOPBLOCKS - 1) := by
      refine (List.sum_le_card_nsmul _ (MAXOPBLOCKS - 1) fun x hx => ?_).trans (by simp)
      obtain ⟨q, -, rfl⟩ := List.mem_map.mp hx
      exact Nat.sub_le _ _
    have hL : LOGSIZE = 30 := rfl
    have hM : MAXOPBLOCKS = 10 := rfl
    simp only [State.note_log, State.goto_log, State.note_hist, State.goto_hist]
    simp only [hL, hM, ho₀] at hroom h1 ⊢
    rcases Nat.eq_zero_or_pos l₀.length with h0 | h0
    · have := h.quiet hcf (by omega)
      simp only [this, List.length_nil]
      omega
    · omega
  · simp only [State.note_pc, State.goto_pc, State.note_hist, State.goto_hist, mine, pend] at *
    by_cases hqp : q = p
    · subst hqp; simp at hb
    · rw [if_neg (Ne.symm hqp)] at hb
      rw [if_neg hqp] at hq
      exact hr.pending q hq b hb

theorem Reserved.logWrite {s s' : State P} (h : Inv s) (hr : Reserved s) {p : P} {b : Nat} (hp : s.pc p = .op)
    (hb : (b :: mine p s.hist).dedup.length ≤ MAXOPBLOCKS - 1) (he : logWrite s p b = .ok s') : Reserved s' := by
  have hcf := h.not_committing_of_op hp
  have hlisted := (h.between hcf).listed
  -- what remains to each operation once `p` has logged `b`
  have hslack : ∀ l : List P, l.Nodup → p ∈ l → (l.map (slack (.write p b :: s.hist))).sum +
      (b :: mine p s.hist).dedup.length = (l.map (slack s.hist)).sum + (mine p s.hist).dedup.length := by
    intro l hn hpl
    have hrest : (l.erase p).map (slack (.write p b :: s.hist)) = (l.erase p).map (slack s.hist) :=
      List.map_congr_left fun q hq => by
        have hqp : q ≠ p := (hn.mem_erase_iff.mp hq).1
        simp [slack, mine, Ne.symm hqp]
    have h3 := dedup_length_le_cons b (mine p s.hist)
    rw [sum_map_erase hpl, sum_map_erase hpl, hrest, slack, slack]
    simp only [mine, if_true]
    omega
  have hpend : ∀ t : State P, t.pc = s.pc → t.hist = .write p b :: s.hist ∨ t.hist = .write p b :: .pin b :: s.hist →
      ∀ q, t.pc q = .op → ∀ x ∈ mine q t.hist, x ∈ pend t.hist := by
    intro t ht hh q hq x hx
    rw [ht] at hq
    rcases hh with hh | hh <;>
    · rw [hh] at hx ⊢
      simp only [mine, pend, List.mem_cons] at hx ⊢
      split at hx
      · rcases List.mem_cons.mp hx with rfl | hx
        · exact .inl rfl
        · exact .inr (hr.pending q hq x hx)
      · exact .inr (hr.pending q hq x hx)
  rw [GroupCommit.logWrite] at he
  split at he
  · cases he
  split at he
  · cases he
  split at he
  · next hmem =>
    cases he
    refine ⟨fun _ l hn hm hne => ?_, hpend _ rfl (.inl rfl)⟩
    have h1 := hr.fits hcf l hn hm hne
    have h2 := hslack l hn ((hm p).mpr hp)
    have h3 := dedup_length_le_cons b (mine p s.hist)
    simp only [State.note_log, State.note_hist]
    omega
  · next hmem =>
    cases he
    refine ⟨fun _ l hn hm hne => ?_, hpend _ rfl (.inr rfl)⟩
    have h1 := hr.fits hcf l hn hm hne
    have h2 := hslack l hn ((hm p).mpr hp)
    -- the block is new to the log, so it is new to the operation
    have h3 : b ∉ mine p s.hist := fun hx => hmem ((hlisted b).mpr (hr.pending p hp b hx))
    rw [List.dedup_cons_of_notMem h3, List.length_cons] at h2
    have h4 : slack (.write p b :: .pin b :: s.hist) = slack (.write p b :: s.hist) := rfl
    simp only [State.note_log, State.note_hist, State.bpin, List.length_append, List.length_singleton, h4]
    omega

theorem Reserved.endOp {s s' : State P} (h : Inv s) (hr : Reserved s) {p : P} (hp : s.pc p = .op)
    (he : endOp s p = .ok s') : Reserved s' := by
  have hcf := h.not_committing_of_op hp
  have hpc : ∀ c : Pc, c ≠ .op → ∀ q, (if q = p then c else s.pc q) = .op ↔ q ≠ p ∧ s.pc q = .op := fun c hc q => by
    by_cases hq : q = p <;> simp [hq, hc]
  have hpend : ∀ c : Pc, c ≠ .op → ∀ q, (if q = p then c else s.pc q) = .op →
      ∀ b ∈ mine q (.finish p :: s.hist), b ∈ pend (.finish p :: s.hist) :=
    fun c hc q hq => hr.pending q ((hpc c hc q).mp hq).2
  rw [GroupCommit.endOp] at he
  simp only [hcf, Bool.false_eq_true, if_false] at he
  split at he
  · cases he
    refine ⟨fun hc => by simp at hc, fun q hq => ?_⟩
    rw [State.note_pc, State.goto_pc] at hq
    exact hpend _ (by simp) q hq
  · cases he
    refine ⟨fun _ l hn hm hne => ?_, fun q hq => ?_⟩
    · simp only [State.note_pc, State.goto_pc] at hm
      -- the operation that ends gives back what was left to it
      have hnp : p ∉ l := fun hpl => ((hpc .user (by simp) p).mp ((hm p).mp hpl)).1 rfl
      have h1 := hr.fits hcf (p :: l) (List.nodup_cons.mpr ⟨hnp, hn⟩) (fun q => by
        rw [List.mem_cons, hm, hpc .user (by simp)]
        by_cases hq : q = p <;> simp [hq, hp]) (by simp)
      rw [List.map_cons, List.sum_cons] at h1
      have h2 : slack (.finish p :: s.hist) = slack s.hist := rfl
      simp only [State.note_log, State.goto_log, State.note_hist, State.goto_hist, h2]
      omega
    · rw [State.note_pc, State.goto_pc] at hq
      exact hpend _ (by simp) q hq

/-- While a process commits, and right after, no operation is in progress. -/
theorem Reserved.commitStep {s s' : State P} (h : Inv s) {p : P} (he : commitStep s p = .ok s') : Reserved s' := by
  have h' := h.commitStep he
  have hin : (s.pc p).inCommit = true := by
    by_contra hi
    rw [GroupCommit.commitStep] at he
    cases hp : s.pc p <;> simp [hp, Pc.inCommit] at hi he
  have h0 : s'.log.outstanding = 0 := by
    have := (h.committing p hin).2
    rw [GroupCommit.commitStep] at he
    split at he <;> first
      | (cases he; exact this)
      | (split at he <;> first | (cases he; exact this) | (split at he <;> cases he; exact this))
      | cases he
  obtain ⟨l, -, hl2, hl3⟩ := h'.ops
  have hl : l = [] := List.length_eq_zero_iff.mp (by omega)
  have hno : ∀ q, s'.pc q ≠ .op := fun q hq => by
    have := (hl2 q).mpr hq
    simp [hl] at this
  refine ⟨fun _ m _ hm hne => ?_, fun q hq => absurd hq (hno q)⟩
  obtain ⟨q, hq⟩ := List.exists_mem_of_ne_nil m hne
  exact absurd ((hm q).mp hq) (hno q)

theorem Reserved.step {s s' : State P} {a : Action P} (h : Inv s) (hr : Reserved s)
    (hb : WithinBudget (MAXOPBLOCKS - 1) s a) (he : step s a = .ok s') : Reserved s' := by
  cases a with
  | beginOp p =>
    simp only [GroupCommit.step] at he
    split at he
    · next hp =>
      cases he
      refine hr.congr rfl rfl (fun q => ?_) rfl
      rw [State.goto_pc]
      by_cases hq : q = p
      · subst hq; simp [hp]
      · simp [hq]
    · cases he
  | tryBegin p =>
    simp only [GroupCommit.step] at he
    split at he
    · next hp => cases he; exact hr.tryBegin h hp
    · cases he
  | bread | brelse =>
    simp only [GroupCommit.step] at he
    split at he
    · cases he; exact hr.congr rfl rfl (fun _ => Iff.rfl) rfl
    · cases he
  | logWrite p b =>
    simp only [GroupCommit.step] at he
    split at he
    · next hp => exact hr.logWrite h hp.1 hb he
    · cases he
  | endOp p =>
    simp only [GroupCommit.step] at he
    split at he
    · next hp => exact hr.endOp h hp he
    · cases he
  | commitStep p => exact Reserved.commitStep h he

/-- With room reserved for every operation a log_write within its budget finds room. -/
theorem Reserved.hasRoom {s : State P} (h : Inv s) (hr : Reserved s) (a : Action P) : HasRoom s a := by
  cases a with
  | logWrite p b =>
    intro hp _
    have hcf := h.not_committing_of_op hp
    obtain ⟨l, hl1, hl2, -⟩ := h.ops
    have := hr.fits hcf l hl1 hl2 (List.ne_nil_of_mem ((hl2 p).mpr hp))
    have hL : LOGSIZE = 30 := rfl
    rw [← h.lh_length hcf]
    omega
  | beginOp | tryBegin | bread | brelse | endOp | commitStep => trivial

theorem Reserved.along {s : State P} {as : List (Action P)} (h : Inv s) (hr : Reserved s)
    (hb : Along GroupCommit.step (WithinBudget (MAXOPBLOCKS - 1)) s as) : Along GroupCommit.step HasRoom s as := by
  induction as generalizing s with
  | nil => trivial
  | cons a as ih =>
    simp only [Along] at hb ⊢
    refine ⟨hr.hasRoom h a, ?_⟩
    split
    · next s' he =>
      rw [he] at hb
      exact ih (h.step he) (hr.step h hb.1 he) hb.2
    · trivial
    · trivial

/-- **When the reservation is enough.** On the log mkfs makes, a run never stops with "too
big a transaction" exactly when no process calls log_write once LOGSIZE - 1 distinct blocks
have been logged since the last commit; runs whose operations log at most MAXOPBLOCKS - 1
distinct blocks are among them. -/
theorem log_space {s : State P} (hi : Init s) (hs : s.log.size = nlog) (as : List (Action P)) :
    (runs step s as ≠ .panic "too big a transaction" ↔ Along step HasRoom s as) ∧
    (Along step (WithinBudget (MAXOPBLOCKS - 1)) s as → runs step s as ≠ .panic "too big a transaction") := by
  have h := inv_init hi
  have hr : Reserved s := by
    obtain ⟨-, -, -, -, -, hp, -⟩ := hi
    refine ⟨fun _ m _ hm hne => ?_, fun q hq => by simp [hp] at hq⟩
    obtain ⟨q, hq⟩ := List.exists_mem_of_ne_nil m hne
    have := (hm q).mp hq
    simp [hp] at this
  exact ⟨runs_tooBig_iff h hs, fun hb => (runs_tooBig_iff h hs).mpr (hr.along h hb)⟩

/-- Operation `p` logs the blocks from `b` on. -/
def logBlocks (p : Fin 3) (b : Nat) : Nat → List (Action (Fin 3))
  | 0 => []
  | n + 1 => [.bread p b, .logWrite p b, .brelse p b] ++ logBlocks p (b + 1) n

/-- Three operations admitted together, each logging MAXOPBLOCKS blocks of its own. -/
def fullLog : List (Action (Fin 3)) :=
  [.beginOp 0, .tryBegin 0, .beginOp 1, .tryBegin 1, .beginOp 2, .tryBegin 2] ++
    logBlocks 0 100 MAXOPBLOCKS ++ logBlocks 1 200 MAXOPBLOCKS ++ logBlocks 2 300 MAXOPBLOCKS

instance (n : Nat) (s : State P) (a : Action P) : Decidable (WithinBudget n s a) :=
  match a with
  | .logWrite _ _ => inferInstanceAs (Decidable (_ ≤ _))
  | .beginOp _ | .tryBegin _ | .bread _ _ | .brelse _ _ | .endOp _ | .commitStep _ => .isTrue trivial

/-- Operations within their budget of MAXOPBLOCKS blocks fill the log. -/
theorem full_log_panics : Init (boot nlog : State (Fin 3)) ∧ (boot nlog : State (Fin 3)).log.size = nlog ∧
    Along step (WithinBudget MAXOPBLOCKS) (boot nlog) fullLog ∧
    runs step (boot nlog) fullLog = .panic "too big a transaction" :=
  ⟨boot_init _, rfl, by decide +kernel, Outcome.eq_panic_of_stops (by decide +kernel)⟩

/-- The same operations, each one block short, with all the room they need. -/
theorem log_space_short_ops :
    runs step (boot nlog) ([.beginOp 0, .tryBegin 0, .beginOp 1, .tryBegin 1, .beginOp 2, .tryBegin 2] ++
      logBlocks 0 100 9 ++ logBlocks 1 200 9 ++ logBlocks 2 300 9) ≠ .panic "too big a transaction" :=
  (log_space (boot_init nlog) rfl _).2 (by decide +kernel)

end Xv6.GroupCommit
