/-
Crash atomicity of the redo log. A run of commit is a list of disk writes, and a
crash keeps a prefix of it; recovery is again a list of disk writes that a further
crash may cut. Whatever the cuts, the disk is in one of three phases: the header is
empty and the home blocks are as before the transaction (`Before`), the header and
the log copies describe the transaction (`Logged`: home blocks of the transaction may
hold anything, installing overwrites them), or the header is empty and the home blocks
are as after it (`After`). A cut recovery keeps the phase or takes `Logged` to `After`,
a completed one ends in `Before` or `After`.
-/
import Xv6.Log.Model

namespace Xv6.Log

open Lib Lib.Device Bufs

/-! ## The header round trip -/

theorem putBlocks_getLE_low {hb : Block} {i off n : Nat} {bs : List Nat} (h : off + n ≤ 4 + 4 * i)
    (hB : off + n ≤ BSIZE) : (putBlocks hb i bs).getLE off n = hb.getLE off n := by
  induction bs generalizing hb i with
  | nil => rfl
  | cons b bs ih =>
    simp only [putBlocks]
    rw [ih (by omega), Buffer.getLE_putLE_disjoint hB (by omega)]

theorem putBlocks_getLE (hb : Block) {i j : Nat} {bs : List Nat} (hB : 4 + 4 * (i + bs.length) ≤ BSIZE)
    (hj : j < bs.length) : (putBlocks hb i bs).getLE (4 + 4 * (i + j)) 4 = bs[j] % 2 ^ 32 := by
  induction bs generalizing hb i j with
  | nil => simp at hj
  | cons b bs ih =>
    simp only [List.length_cons] at hB hj
    simp only [putBlocks]
    cases j with
    | zero =>
      rw [putBlocks_getLE_low (by omega) (by omega), Nat.add_zero, Buffer.getLE_putLE (by omega)]
      simp
    | succ j =>
      have := ih (hb.putLE (4 + 4 * i) 4 b) (i := i + 1) (j := j) (by omega) (by omega)
      rw [show i + (j + 1) = i + 1 + j by omega, this, List.getElem_cons_succ]

theorem headCount_putHead (hb : Block) {lh : List Nat} (h : lh.length ≤ LOGSIZE) :
    headCount (putHead hb lh) = lh.length := by
  have hL : LOGSIZE = 30 := rfl
  rw [headCount, putHead, putBlocks_getLE_low (by omega) (by decide), Buffer.getLE_putLE (by decide)]
  rw [Nat.mod_eq_of_lt (by omega), BitVec.toInt_eq_toNat_of_lt] <;> simp only [BitVec.toNat_ofNat] <;> omega

/-- A header block lists the blocks it was written with. -/
theorem getHead_putHead {hb : Block} {lh : List Nat} (h : lh.length ≤ LOGSIZE) (hb32 : ∀ b ∈ lh, b < 2 ^ 32) :
    getHead (putHead hb lh) = lh := by
  have hL : LOGSIZE = 30 := rfl
  have hBS : BSIZE = 1024 := rfl
  rw [getHead, headCount_putHead hb h, Int.toNat_natCast]
  refine List.ext_getElem (by simp) fun i h1 h2 => ?_
  rw [List.getElem_map, List.getElem_range, putHead]
  have := putBlocks_getLE (hb.putLE 0 4 lh.length) (i := 0) (by omega) h2
  rw [Nat.zero_add] at this
  rw [this, Nat.mod_eq_of_lt (hb32 _ (List.getElem_mem h2))]

theorem getHead_of_count {hb : Block} (h : headCount hb = 0) : getHead hb = [] := by
  simp [getHead, h]

/-! ## What each function writes -/

/-- From `s` to `s'` exactly the writes `ws` were issued, and a reader sees their result. -/
structure Does (s : Bufs) (ws : List (Nat × Block)) (s' : Bufs) : Prop where
  issued : s'.issued = s.issued ++ ws
  disk : s'.disk = applyWrites ws s.disk
  view : s'.view = applyWrites ws s.view

theorem Does.refl {s : Bufs} : Does s [] s := ⟨by simp, rfl, rfl⟩

theorem Does.trans {s s' s'' : Bufs} {ws vs} (h : Does s ws s') (h' : Does s' vs s'') :
    Does s (ws ++ vs) s'' :=
  ⟨by rw [h'.issued, h.issued, List.append_assoc], by rw [h'.disk, h.disk, applyWrites_append],
    by rw [h'.view, h.view, applyWrites_append]⟩

theorem Does.bread (s : Bufs) (b : Nat) : Does s [] (s.bread b).2 := by
  refine ⟨by simp [Bufs.bread], rfl, ?_⟩
  funext x
  by_cases h : x = b
  · subst h; simp [Bufs.bread, Bufs.view]
  · simp [Bufs.bread, Bufs.view, h]

theorem Does.brelse (s : Bufs) (b : Nat) : Does s [] (s.brelse b) := ⟨by simp [Bufs.brelse], rfl, rfl⟩

theorem Does.bunpin (s : Bufs) (b : Nat) : Does s [] (s.bunpin b) := ⟨by simp [Bufs.bunpin], rfl, rfl⟩

theorem Does.bwrite (s : Bufs) (b : Nat) (v : Block) : Does s [(b, v)] (s.bwrite b v) := by
  refine ⟨rfl, rfl, ?_⟩
  funext x
  by_cases h : x = b
  · subst h; simp [Bufs.bwrite, Bufs.view]
  · simp [Bufs.bwrite, Bufs.view, h]

theorem writeHead_does (log : Log) (s : Bufs) :
    Does s [(log.start, putHead (s.view log.start) log.lh)] (writeHead log s) :=
  (Does.bread s log.start).trans ((Does.bwrite _ _ _).trans (Does.brelse _ _))

theorem writeLogBlock_does (log : Log) (tail b : Nat) (s : Bufs) :
    Does s [(log.start + tail + 1, s.view b)] (writeLogBlock log tail b s) := by
  have h := Does.bread s (log.start + tail + 1)
  have hv : ((s.bread (log.start + tail + 1)).2.bread b).1 = s.view b := by
    simp only [Bufs.bread]
    exact congrFun h.view b
  have h' := (h.trans (Does.bread _ b)).trans ((Does.bwrite _ (log.start + tail + 1) (s.view b)).trans
    ((Does.brelse _ b).trans (Does.brelse _ (log.start + tail + 1))))
  rw [writeLogBlock]
  simp only [hv]
  exact h'

/-- The log copies of `vs`, from index `tail` on. -/
def logCopies (start : Nat) : Nat → List Block → List (Nat × Block)
  | _, [] => []
  | tail, v :: vs => (start + tail + 1, v) :: logCopies start (tail + 1) vs

theorem logCopies_mem {start tail : Nat} {vs : List Block} {w} (h : w ∈ logCopies start tail vs) :
    start + tail < w.1 ∧ w.1 ≤ start + tail + vs.length := by
  induction vs generalizing tail with
  | nil => simp [logCopies] at h
  | cons v vs ih =>
    simp only [logCopies, List.mem_cons] at h
    simp only [List.length_cons]
    rcases h with rfl | h
    · dsimp only; omega
    · have := ih h; omega

theorem logCopies_apply (start tail : Nat) {i : Nat} {vs : List Block} (d : Nat → Block) (hi : i < vs.length) :
    applyWrites (logCopies start tail vs) d (start + (tail + i) + 1) = vs[i] := by
  induction vs generalizing tail i d with
  | nil => simp at hi
  | cons v vs ih =>
    rw [logCopies, applyWrites_cons]
    cases i with
    | zero =>
      rw [applyWrites_other fun w hw => by have := (logCopies_mem hw).1; omega]
      simp
    | succ i =>
      have := ih (tail + 1) (i := i) (Function.update d (start + tail + 1) v) (by simpa using hi)
      rw [show tail + (i + 1) = tail + 1 + i by omega, this, List.getElem_cons_succ]

theorem logCopies_length (start tail : Nat) (vs : List Block) : (logCopies start tail vs).length = vs.length := by
  induction vs generalizing tail with
  | nil => rfl
  | cons v vs ih => simp [logCopies, ih]

/-- Blocks outside the log area. -/
def Outside (log : Log) (b : Nat) : Prop := b < log.start ∨ log.start + log.size ≤ b

theorem writeLogFrom_does {log : Log} (tail : Nat) {bs : List Nat} (s : Bufs)
    (hroom : tail + bs.length < log.size) (hout : ∀ b ∈ bs, Outside log b) :
    Does s (logCopies log.start tail (bs.map s.view)) (writeLogFrom log tail bs s) := by
  induction bs generalizing tail s with
  | nil => exact Does.refl
  | cons b bs ih =>
    simp only [List.length_cons] at hroom
    have h1 := writeLogBlock_does log tail b s
    have h2 := ih (tail + 1) (writeLogBlock log tail b s) (by omega)
      fun c hc => hout c (List.mem_cons_of_mem _ hc)
    -- the copy just written is in the log area, so the home blocks still read as before
    have hv : bs.map (writeLogBlock log tail b s).view = bs.map s.view := by
      refine List.map_congr_left fun c hc => ?_
      have := hout c (List.mem_cons_of_mem _ hc)
      rw [h1.view, applyWrites_other]
      simp only [List.mem_singleton, forall_eq, Outside] at *
      omega
    rw [hv] at h2
    exact h1.trans h2

theorem installBlock_does (recovering : Bool) (log : Log) (tail b : Nat) (s : Bufs) :
    Does s [(b, s.view (log.start + tail + 1))] (installBlock recovering log tail b s) := by
  have h := (Does.bread s (log.start + tail + 1)).trans
    ((Does.bread _ b).trans (Does.bwrite _ b (s.view (log.start + tail + 1))))
  have hr := fun t : Bufs => (Does.brelse t (log.start + tail + 1)).trans (Does.brelse _ b)
  cases recovering with
  | true => exact h.trans (hr _)
  | false => exact h.trans ((Does.bunpin _ b).trans (hr _))

/-- Installing writes to each listed block the log copy at its index. -/
theorem installTransFrom_does (recovering : Bool) {log : Log} (tail : Nat) {bs : List Nat} (s : Bufs)
    (hroom : tail + bs.length < log.size) (hout : ∀ b ∈ bs, Outside log b) :
    Does s (bs.zip ((List.range' tail bs.length).map fun i => s.view (log.start + i + 1)))
      (installTransFrom recovering log tail bs s) := by
  induction bs generalizing tail s with
  | nil => exact Does.refl
  | cons b bs ih =>
    simp only [List.length_cons] at hroom
    have h1 := installBlock_does recovering log tail b s
    have h2 := ih (tail + 1) (installBlock recovering log tail b s) (by omega)
      fun c hc => hout c (List.mem_cons_of_mem _ hc)
    have hb := hout b List.mem_cons_self
    -- the home block just written is not in the log area, so the copies still read as before
    have hv : ((List.range' (tail + 1) bs.length).map fun i =>
          (installBlock recovering log tail b s).view (log.start + i + 1)) =
        (List.range' (tail + 1) bs.length).map fun i => s.view (log.start + i + 1) := by
      refine List.map_congr_left fun i hi => ?_
      rw [List.mem_range'_1] at hi
      rw [h1.view, applyWrites_other]
      simp only [List.mem_singleton, forall_eq, Outside] at *
      omega
    rw [hv] at h2
    simp only [List.length_cons, List.range'_succ, List.map_cons, List.zip_cons_cons]
    exact h1.trans h2

/-! ## Transactions, crashes and recoveries -/

/-- What a transaction is when commit starts: distinct home blocks outside the log area,
at most `log.size - 1` of them, in a header of LOGSIZE slots. -/
structure Txn (log : Log) : Prop where
  room : log.lh.length < log.size
  slots : log.lh.length ≤ LOGSIZE
  nodup : log.lh.Nodup
  home : ∀ b ∈ log.lh, Outside log b
  uint : ∀ b ∈ log.lh, b < 2 ^ 32

/-- The on-disk header lists nothing. -/
def EmptyHead (log : Log) (d : Nat → Block) : Prop := headCount (d log.start) = 0

/-- The home blocks after the whole transaction: its blocks as cached, the others as they were. -/
def afterTxn (log : Log) (s : Bufs) (b : Nat) : Block := if b ∈ log.lh then s.view b else s.disk b

/-- The disk when commit is cut after `k` disk writes. -/
def crashCommit (log : Log) (s : Bufs) (k : Nat) : Nat → Block :=
  applyWrites (((commit log s).2.issued.drop s.issued.length).take k) s.disk

/-- The first `write_head` of commit is among its first `k` disk writes. -/
def HeadReached (log : Log) (s : Bufs) (k : Nat) : Prop :=
  ∃ w ∈ ((commit log s).2.issued.drop s.issued.length).take k, w.1 = log.start

/-- Any number of boots whose recovery is cut after some disk write. -/
inductive CutRecoveries (log : Log) (d : Nat → Block) : (Nat → Block) → Prop
  | none : CutRecoveries log d d
  | cut {d'} (k : Nat) : CutRecoveries log d d' →
      CutRecoveries log d (applyWrites ((recoverFromLog log (boot d')).issued.take k) d')

/-! ## The three phases -/

/-- The header is empty and the home blocks hold `f`. -/
structure Settled (log : Log) (f d : Nat → Block) : Prop where
  head : EmptyHead log d
  home : ∀ b, Outside log b → d b = f b

/-- The header and the log copies describe the transaction. -/
structure Logged (log : Log) (s : Bufs) (d : Nat → Block) : Prop where
  head : getHead (d log.start) = log.lh
  copies : ∀ i (h : i < log.lh.length), d (log.start + i + 1) = s.view log.lh[i]
  rest : ∀ b, Outside log b → b ∉ log.lh → d b = s.disk b

theorem emptyHead_putHead {log : Log} {d : Nat → Block} {hb : Block} :
    EmptyHead log (Function.update d log.start (putHead hb [])) := by
  have h : ([] : List Nat).length ≤ LOGSIZE := Nat.zero_le LOGSIZE
  simpa [EmptyHead] using headCount_putHead hb h

theorem Outside.ne_start {log : Log} {b : Nat} (h : Outside log b) (hs : 0 < log.size) : b ≠ log.start := by
  simp only [Outside] at h; omega

/-- The writes that install `log.lh` from the log copies of its blocks. -/
def homeWrites (log : Log) (s : Bufs) : List (Nat × Block) := log.lh.zip (log.lh.map s.view)

theorem homeWrites_fst (log : Log) (s : Bufs) : (homeWrites log s).map Prod.fst = log.lh := by
  simp [homeWrites, List.map_fst_zip]

theorem homeWrites_mem {log : Log} {s : Bufs} {w} (h : w ∈ homeWrites log s) : w.1 ∈ log.lh ∧ w.2 = s.view w.1 := by
  have h1 : w.1 ∈ log.lh := homeWrites_fst log s ▸ List.mem_map_of_mem h
  refine ⟨h1, ?_⟩
  simp only [homeWrites, List.zip_map_right, List.mem_map] at h
  obtain ⟨⟨x, y⟩, hxy, rfl⟩ := h
  obtain ⟨i, hi, he⟩ := List.getElem_of_mem hxy
  simp only [List.getElem_zip, Prod.mk.injEq] at he
  simp [← he.1, ← he.2]

/-- Installing everything over a disk whose other home blocks are as before. -/
theorem applyWrites_home {log : Log} {s : Bufs} {d : Nat → Block} (ht : Txn log) {b : Nat}
    (hd : b ∉ log.lh → d b = s.disk b) : applyWrites (homeWrites log s) d b = afterTxn log s b := by
  by_cases hb : b ∈ log.lh
  · have hmem : b ∈ (homeWrites log s).map Prod.fst := by rwa [homeWrites_fst]
    obtain ⟨w, hw, rfl⟩ := List.mem_map.mp hmem
    rw [applyWrites_mem (by rw [homeWrites_fst]; exact ht.nodup) hw, afterTxn, if_pos hb, (homeWrites_mem hw).2]
  · rw [applyWrites_other fun w hw (he : w.1 = b) => hb (he ▸ (homeWrites_mem hw).1), hd hb, afterTxn, if_neg hb]

/-- Part of the installation leaves the log area, so the phase, alone. -/
theorem Logged.install {log : Log} {s : Bufs} {d : Nat → Block} (ht : Txn log) (h : Logged log s d) (k : Nat) :
    Logged log s (applyWrites ((homeWrites log s).take k) d) := by
  have hw : ∀ w ∈ (homeWrites log s).take k, w.1 ∈ log.lh := fun w hw =>
    (homeWrites_mem (List.mem_of_mem_take hw)).1
  have hin : ∀ b, ¬ Outside log b → applyWrites ((homeWrites log s).take k) d b = d b := fun b hb =>
    applyWrites_other fun w hm he => hb (he ▸ ht.home _ (hw w hm))
  have hroom := ht.room
  refine ⟨?_, fun i hi => ?_, fun b hb hn => ?_⟩
  · rw [hin _ (by simp only [Outside]; omega), h.head]
  · rw [hin _ (by simp only [Outside]; omega), h.copies i hi]
  · rw [applyWrites_other fun w hm (he : w.1 = b) => hn (he ▸ hw w hm), h.rest b hb hn]

/-- Installing everything and clearing the header completes the transaction. -/
theorem Logged.complete {log : Log} {s : Bufs} {d : Nat → Block} (ht : Txn log) (h : Logged log s d) (hb : Block) :
    Settled log (afterTxn log s) (applyWrites (homeWrites log s ++ [(log.start, putHead hb [])]) d) := by
  have hroom := ht.room
  rw [applyWrites_append]
  refine ⟨emptyHead_putHead, fun b hb' => ?_⟩
  rw [applyWrites_cons, applyWrites_nil, Function.update_of_ne (hb'.ne_start (by omega))]
  exact applyWrites_home ht (h.rest b hb')

/-! ## Recovery -/

/-- The machine once `read_head` has read the header. -/
def headRead (log : Log) (d : Nat → Block) : Bufs := ((boot d).bread log.start).2.brelse log.start

theorem headRead_does (log : Log) (d : Nat → Block) : Does (boot d) [] (headRead log d) :=
  (Does.bread _ _).trans (Does.brelse _ _)

theorem recoverFromLog_eq (log : Log) (d : Nat → Block) :
    recoverFromLog log (boot d) = writeHead { log with lh := [] }
      (installTransFrom true { log with lh := getHead (d log.start) } 0 (getHead (d log.start)) (headRead log d)) := rfl

/-- With an empty header recovery only writes an empty header. -/
theorem recover_emptyHead {log : Log} {d : Nat → Block} (h : EmptyHead log d) :
    ∃ hb, Does (boot d) [(log.start, putHead hb [])] (recoverFromLog log (boot d)) := by
  have hg : getHead (d log.start) = [] := getHead_of_count h
  rw [recoverFromLog_eq, hg]
  exact ⟨_, (headRead_does log d).trans (writeHead_does { log with lh := [] } _)⟩

/-- With the transaction logged recovery installs it and then writes an empty header. -/
theorem recover_logged {log : Log} {s : Bufs} {d : Nat → Block} (ht : Txn log) (h : Logged log s d) :
    ∃ hb, Does (boot d) (homeWrites log s ++ [(log.start, putHead hb [])]) (recoverFromLog log (boot d)) := by
  have h1 := installTransFrom_does true 0 (headRead log d) (by simpa using ht.room) ht.home
  -- the copies recovery reads are the transaction's contents
  have hz : (log.lh.zip ((List.range' 0 log.lh.length).map fun i => (headRead log d).view (log.start + i + 1))) =
      homeWrites log s := by
    rw [(headRead_does log d).view, homeWrites]
    congr 1
    refine List.ext_getElem (by simp) fun i h1 h2 => ?_
    simp only [List.getElem_map, List.getElem_range', Nat.zero_add, Nat.one_mul]
    exact h.copies i (by simpa using h2)
  rw [hz] at h1
  rw [recoverFromLog_eq, h.head]
  exact ⟨_, ((headRead_does log d).trans h1).trans (writeHead_does { log with lh := [] } _)⟩

/-- A recovery cut anywhere leaves a settled disk settled. -/
theorem Settled.cut {log : Log} {f d : Nat → Block} (hs : 0 < log.size) (h : Settled log f d) (k : Nat) :
    Settled log f (applyWrites ((recoverFromLog log (boot d)).issued.take k) d) := by
  obtain ⟨hb, hd⟩ := recover_emptyHead h.head
  rw [hd.issued, boot, List.nil_append]
  cases k with
  | zero => exact h
  | succ k =>
    rw [List.take_of_length_le (by simp)]
    refine ⟨emptyHead_putHead, fun b hb' => ?_⟩
    rw [applyWrites_cons, applyWrites_nil, Function.update_of_ne (hb'.ne_start hs), h.home b hb']

/-- A recovery cut anywhere keeps the transaction logged or completes it. -/
theorem Logged.cut {log : Log} {s : Bufs} {d : Nat → Block} (ht : Txn log) (h : Logged log s d) (k : Nat) :
    Logged log s (applyWrites ((recoverFromLog log (boot d)).issued.take k) d) ∨
      Settled log (afterTxn log s) (applyWrites ((recoverFromLog log (boot d)).issued.take k) d) := by
  obtain ⟨hb, hd⟩ := recover_logged ht h
  rw [hd.issued, boot, List.nil_append]
  by_cases hk : k ≤ (homeWrites log s).length
  · rw [List.take_append_of_le_length hk]
    exact .inl (h.install ht k)
  · rw [List.take_of_length_le (by simp; omega)]
    exact .inr (h.complete ht hb)

theorem CutRecoveries.settled {log : Log} {f d d' : Nat → Block} (hs : 0 < log.size)
    (hc : CutRecoveries log d d') (h : Settled log f d) : Settled log f d' := by
  induction hc with
  | none => exact h
  | cut k _ ih => exact ih.cut hs k

theorem CutRecoveries.logged {log : Log} {s : Bufs} {d d' : Nat → Block} (ht : Txn log)
    (hc : CutRecoveries log d d') (h : Logged log s d ∨ Settled log (afterTxn log s) d) :
    Logged log s d' ∨ Settled log (afterTxn log s) d' := by
  induction hc with
  | none => exact h
  | cut k _ ih =>
    rcases ih with ih | ih
    · exact ih.cut ht k
    · exact .inr (ih.cut (by have := ht.room; omega) k)

theorem recover_settled {log : Log} {f d : Nat → Block} (hs : 0 < log.size) (h : Settled log f d) :
    Settled log f (recoverFromLog log (boot d)).disk := by
  obtain ⟨hb, hd⟩ := recover_emptyHead h.head
  have := h.cut hs 1
  rw [hd.issued, boot, List.nil_append, List.take_of_length_le (by simp)] at this
  rw [hd.disk]
  exact this

theorem recover_completes {log : Log} {s : Bufs} {d : Nat → Block} (ht : Txn log) (h : Logged log s d) :
    Settled log (afterTxn log s) (recoverFromLog log (boot d)).disk := by
  obtain ⟨hb, hd⟩ := recover_logged ht h
  rw [hd.disk]
  exact h.complete ht hb

/-! ## Commit -/

/-- The disk writes of commit: the log copies, the header, the home blocks, the empty header. -/
theorem commit_does {log : Log} {s : Bufs} (ht : Txn log) (hn : 0 < log.lh.length) :
    ∃ hb hb', Does s (logCopies log.start 0 (log.lh.map s.view) ++ [(log.start, putHead hb log.lh)] ++
      (homeWrites log s ++ [(log.start, putHead hb' [])])) (commit log s).2 := by
  have hroom := ht.room
  have h1 : Does s (logCopies log.start 0 (log.lh.map s.view)) (writeLog log s) :=
    writeLogFrom_does 0 s (by omega) ht.home
  have h2 := h1.trans (writeHead_does log _)
  have h3 := installTransFrom_does false 0 (writeHead log (writeLog log s)) (by omega) ht.home
  -- commit installs what it has just copied to the log
  have hz : (log.lh.zip ((List.range' 0 log.lh.length).map fun i =>
      (writeHead log (writeLog log s)).view (log.start + i + 1))) = homeWrites log s := by
    rw [homeWrites]
    congr 1
    refine List.ext_getElem (by simp) fun i h1' h2' => ?_
    have hi : i < (log.lh.map s.view).length := by simpa using h2'
    have hc := logCopies_apply log.start 0 s.view hi
    rw [Nat.zero_add] at hc
    simp only [List.getElem_map, List.getElem_range', Nat.zero_add, Nat.one_mul]
    rw [h2.view, applyWrites_append, applyWrites_cons, applyWrites_nil, Function.update_of_ne (by omega), hc,
      List.getElem_map]
  rw [hz] at h3
  rw [commit, if_pos hn]
  exact ⟨_, _, h2.trans (h3.trans (writeHead_does { log with lh := [] } _))⟩

/-- The log copies and the header written: the transaction is logged. -/
theorem logged_of_head {log : Log} {s : Bufs} (ht : Txn log) (hb : Block) :
    Logged log s (applyWrites (logCopies log.start 0 (log.lh.map s.view) ++ [(log.start, putHead hb log.lh)]) s.disk) := by
  have hroom := ht.room
  rw [applyWrites_append, applyWrites_cons, applyWrites_nil]
  refine ⟨?_, fun i hi => ?_, fun b hb' _ => ?_⟩
  · rw [Function.update_self, getHead_putHead ht.slots ht.uint]
  · have hi' : i < (log.lh.map s.view).length := by simpa using hi
    have hc := logCopies_apply log.start 0 s.disk hi'
    rw [Nat.zero_add] at hc
    rw [Function.update_of_ne (by omega), hc, List.getElem_map]
  · rw [Function.update_of_ne (hb'.ne_start (by omega)), applyWrites_other fun w hw => ?_]
    have := logCopies_mem hw
    simp only [List.length_map, Outside] at *
    omega

/-- Commit cut before its header reached the disk leaves the home blocks as they were. -/
theorem crashCommit_settled {log : Log} {s : Bufs} {k : Nat} (ht : Txn log) (he : EmptyHead log s.disk)
    (hk : ¬ HeadReached log s k) : Settled log s.disk (crashCommit log s k) := by
  have hroom := ht.room
  by_cases hn : 0 < log.lh.length
  · obtain ⟨hb, hb', hd⟩ := commit_does (s := s) ht hn
    rw [HeadReached, hd.issued, List.drop_left] at hk
    rw [crashCommit, hd.issued, List.drop_left]
    have hlen := logCopies_length log.start 0 (log.lh.map s.view)
    by_cases hkl : k ≤ log.lh.length
    · rw [List.append_assoc, List.take_append_of_le_length (by simp [hlen, hkl])]
      have hw : ∀ w ∈ (logCopies log.start 0 (log.lh.map s.view)).take k,
          log.start < w.1 ∧ w.1 < log.start + log.size := fun w hw => by
        have := logCopies_mem (List.mem_of_mem_take hw)
        simp only [List.length_map] at this
        omega
      refine ⟨?_, fun b hb => applyWrites_other fun w hm => ?_⟩
      · rw [EmptyHead, applyWrites_other fun w hm => by have := hw w hm; omega]
        exact he
      · have := hw w hm
        simp only [Outside] at hb
        omega
    · refine absurd ⟨(log.start, putHead hb log.lh), ?_, rfl⟩ hk
      rw [List.append_assoc, List.take_append]
      refine List.mem_append_right _ ?_
      obtain ⟨j, hj⟩ : ∃ j, k - (logCopies log.start 0 (log.lh.map s.view)).length = j + 1 :=
        ⟨k - log.lh.length - 1, by simp [hlen]; omega⟩
      rw [hj]
      simp
  · rw [crashCommit, commit, if_neg hn]
    simp only [List.drop_length, List.take_nil]
    exact ⟨he, fun _ _ => rfl⟩

/-- Commit cut after its header reached the disk leaves the transaction logged or complete. -/
theorem crashCommit_logged {log : Log} {s : Bufs} {k : Nat} (ht : Txn log) (hk : HeadReached log s k) :
    Logged log s (crashCommit log s k) ∨ Settled log (afterTxn log s) (crashCommit log s k) := by
  by_cases hn : 0 < log.lh.length
  · obtain ⟨hb, hb', hd⟩ := commit_does (s := s) ht hn
    rw [HeadReached, hd.issued, List.drop_left] at hk
    rw [crashCommit, hd.issued, List.drop_left]
    obtain ⟨w, hw, hws⟩ := hk
    have hlen := logCopies_length log.start 0 (log.lh.map s.view)
    have hkl : log.lh.length < k := by
      by_contra hle
      rw [List.append_assoc, List.take_append_of_le_length (by simp [hlen]; omega)] at hw
      have := logCopies_mem (List.mem_of_mem_take hw)
      omega
    rw [List.take_append, List.take_of_length_le (by simp [hlen]; omega), applyWrites_append]
    generalize k - _ = j
    by_cases hj : j ≤ (homeWrites log s).length
    · rw [List.take_append_of_le_length hj]
      exact .inl ((logged_of_head ht hb).install ht j)
    · rw [List.take_of_length_le (by simp; omega)]
      exact .inr ((logged_of_head ht hb).complete ht hb')
  · obtain ⟨w, hw, -⟩ := hk
    rw [commit, if_neg hn] at hw
    simp at hw

/-- **Crash atomicity of the redo log.** Cut commit after any number of its disk writes,
then cut any number of recoveries after any number of theirs: the first recovery that
completes leaves an empty header and every block outside the log area as after the whole
transaction when commit's first `write_head` reached the disk, as before it otherwise. -/
theorem commit_crash_atomic {log : Log} {s : Bufs} {k : Nat} {d : Nat → Block} (ht : Txn log)
    (he : EmptyHead log s.disk) (hc : CutRecoveries log (crashCommit log s k) d) :
    EmptyHead log (recoverFromLog log (boot d)).disk ∧
    (HeadReached log s k → ∀ b, Outside log b → (recoverFromLog log (boot d)).disk b = afterTxn log s b) ∧
    (¬ HeadReached log s k → ∀ b, Outside log b → (recoverFromLog log (boot d)).disk b = s.disk b) := by
  have hs : 0 < log.size := by have := ht.room; omega
  by_cases hk : HeadReached log s k
  · have h : Settled log (afterTxn log s) (recoverFromLog log (boot d)).disk := by
      rcases hc.logged ht (crashCommit_logged ht hk) with h | h
      · exact recover_completes ht h
      · exact recover_settled hs h
    exact ⟨h.head, fun _ => h.home, fun hn => absurd hk hn⟩
  · have h := recover_settled hs (hc.settled hs (crashCommit_settled ht he hk))
    exact ⟨h.head, fun h' => absurd h' hk, fun _ => h.home⟩

/-- Two blocks committed, the power cut after the second log copy and the header (three
writes), the first recovery cut after one write. -/
theorem commit_crash_atomic_two_blocks :
    let log : Log := { start := 2, size := 30, lh := [46, 47] }
    let s : Bufs := { boot (fun _ => Buffer.fill 0) with cache := fun b => some fun _ => UInt8.ofNat b }
    let d := applyWrites ((recoverFromLog log (boot (crashCommit log s 3))).issued.take 1) (crashCommit log s 3)
    HeadReached log s 3 ∧ (recoverFromLog log (boot d)).disk 47 = fun _ => 47 := by
  intro log s d
  have hr : HeadReached log s 3 := ⟨(2, putHead (fun _ => 2) [46, 47]), List.mem_of_getElem? (i := 2) rfl, rfl⟩
  refine ⟨hr, ?_⟩
  have ht : Txn log := ⟨by decide, by decide, by decide, by simp [log, Outside], by simp [log]⟩
  have he : headCount (s.disk log.start) = 0 := by decide +kernel
  exact (commit_crash_atomic ht he (.cut 1 .none)).2.1 hr 47 (by simp [log, Outside])

end Xv6.Log
