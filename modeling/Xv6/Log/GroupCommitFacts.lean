/-
Operation atomicity of group commit: the invariant that ties `outstanding`,
`committing`, the block list of the header and the pins of the buffer cache together
in every reachable state of `Xv6.GroupCommit`, and what it says about whole
operations: no commit falls inside one, and the first commit after it lists every
block it logged.
-/
import Xv6.Log.GroupCommit

namespace Xv6.GroupCommit

open Lib

set_option linter.unusedSectionVars false

variable {P : Type} [DecidableEq P]

/-! ## What the history says -/

/-- The blocks log_written since the last commit. -/
def pend : List (Event P) → List Nat
  | [] => []
  | .commit _ :: _ => []
  | .write _ b :: h => b :: pend h
  | _ :: h => pend h

/-- How often block `b` was pinned. -/
def pins (b : Nat) : List (Event P) → Nat
  | [] => 0
  | .pin c :: h => (if c = b then 1 else 0) + pins b h
  | _ :: h => pins b h

/-- How often block `b` was unpinned. -/
def unpins (b : Nat) : List (Event P) → Nat
  | [] => 0
  | .unpin c :: h => (if c = b then 1 else 0) + unpins b h
  | _ :: h => unpins b h

/-- `p` has begun an operation and not finished it. -/
def OpenOp (p : P) : List (Event P) → Prop
  | [] => False
  | .begin q :: h => q = p ∨ OpenOp p h
  | .finish q :: h => q ≠ p ∧ OpenOp p h
  | _ :: h => OpenOp p h

/-- At every commit no operation was open, and the header listed everything pending. -/
def CommitsWhole : List (Event P) → Prop
  | [] => True
  | .commit bs :: h => (∀ p, ¬ OpenOp p h) ∧ (∀ b ∈ pend h, b ∈ bs) ∧ CommitsWhole h
  | _ :: h => CommitsWhole h

/-- Each pin but those of `l` has been released, each of those of `l` has not. -/
def Pinned (s : State P) (l : List Nat) : Prop :=
  ∀ b, pins b s.hist = unpins b s.hist + l.count b

/-- The header in memory lists the pending blocks, each pinned once. -/
structure Pending (s : State P) : Prop where
  listed : ∀ b, b ∈ s.log.lh ↔ b ∈ pend s.hist
  pinned : Pinned s s.log.lh

/-- What holds at each point of commit. -/
def Stage (s : State P) : Pc → Prop
  | .commit | .writeLog _ | .writeHead => Pending s
  | .install tail => pend s.hist = [] ∧ Pinned s (s.log.lh.drop tail)
  | .clear => pend s.hist = [] ∧ Pinned s []
  | .eraseHead | .committed => s.log.lh = [] ∧ pend s.hist = [] ∧ Pinned s []
  | _ => True

/-- The share of a buffer's reference count that its holder has. -/
def held : Option P → Nat
  | none => 0
  | some _ => 1

/-- **The group commit invariant.** -/
structure Inv (s : State P) : Prop where
  ops : ∃ l : List P, l.Nodup ∧ (∀ p, p ∈ l ↔ s.pc p = .op) ∧ s.log.outstanding = l.length
  committing : ∀ p, (s.pc p).inCommit = true → s.log.committing = true ∧ s.log.outstanding = 0
  alone : ∀ p q, (s.pc p).inCommit = true → (s.pc q).inCommit = true → p = q
  someone : s.log.committing = true → ∃ p, (s.pc p).inCommit = true
  nodup : s.log.lh.Nodup
  stage : ∀ p, Stage s (s.pc p)
  between : s.log.committing = false → Pending s
  opened : ∀ p, s.pc p = .op ↔ OpenOp p s.hist
  whole : CommitsWhole s.hist
  refs : ∀ b, s.refcnt b + unpins b s.hist = held (s.owner b) + pins b s.hist
  /-- Between operations nothing is left in the log. -/
  quiet : s.log.committing = false → s.log.outstanding = 0 → s.log.lh = []

theorem inv_init {s : State P} (h : Init s) : Inv s := by
  obtain ⟨ho, hc, hl, hr, hw, hp, hh⟩ := h
  refine ⟨⟨[], by simp, by simp [hp], by simp [ho]⟩, ?_, ?_, by simp [hc], by simp [hl], ?_, ?_, ?_, ?_, ?_, ?_⟩
  · intro p h; simp [hp, Pc.inCommit] at h
  · intro p q h; simp [hp, Pc.inCommit] at h
  · intro p; simp [hp, Stage]
  · intro _; exact ⟨by simp [hl, hh, pend], by simp [Pinned, hl, hh, pins, unpins]⟩
  · intro p; simp [hp, hh, OpenOp]
  · simp [hh, CommitsWhole]
  · intro b; simp [hr, hh, hw, held, pins, unpins]
  · intro _ _; exact hl

/-! ## One lemma for each step -/

namespace State

@[simp] theorem note_log (s : State P) (e : Event P) : (s.note e).log = s.log := rfl

@[simp] theorem note_hist (s : State P) (e : Event P) : (s.note e).hist = e :: s.hist := rfl

@[simp] theorem note_refcnt (s : State P) (e : Event P) : (s.note e).refcnt = s.refcnt := rfl

@[simp] theorem note_owner (s : State P) (e : Event P) : (s.note e).owner = s.owner := rfl

@[simp] theorem note_pc (s : State P) (e : Event P) : (s.note e).pc = s.pc := rfl

@[simp] theorem goto_log (s : State P) (p : P) (c : Pc) : (s.goto p c).log = s.log := rfl
@[simp] theorem goto_hist (s : State P) (p : P) (c : Pc) : (s.goto p c).hist = s.hist := rfl
@[simp] theorem goto_refcnt (s : State P) (p : P) (c : Pc) : (s.goto p c).refcnt = s.refcnt := rfl
@[simp] theorem goto_owner (s : State P) (p : P) (c : Pc) : (s.goto p c).owner = s.owner := rfl
@[simp] theorem goto_pc_self (s : State P) (p : P) (c : Pc) : (s.goto p c).pc p = c := by simp [goto]

theorem goto_pc (s : State P) (p q : P) (c : Pc) : (s.goto p c).pc q = if q = p then c else s.pc q := by
  simp [goto, Function.update_apply]

theorem goto_pc_of_ne {s : State P} {p q : P} {c : Pc} (h : q ≠ p) : (s.goto p c).pc q = s.pc q := by
  simp [goto, h]

end State

/-- The stages depend on the header and the history only. -/
theorem Stage.congr {s t : State P} {c : Pc} (h : Stage s c) (hl : t.log.lh = s.log.lh) (hh : t.hist = s.hist) :
    Stage t c := by
  have hp : ∀ l, Pinned s l → Pinned t l := fun l h b => by rw [hh]; exact h b
  have hq : Pending s → Pending t := fun h => ⟨by rw [hl, hh]; exact h.listed, by rw [hl]; exact hp _ h.pinned⟩
  cases c with
  | commit | writeLog | writeHead => exact hq h
  | install tail => exact ⟨by rw [hh]; exact h.1, by rw [hl]; exact hp _ h.2⟩
  | clear => exact ⟨by rw [hh]; exact h.1, hp _ h.2⟩
  | eraseHead | committed => exact ⟨hl.trans h.1, by rw [hh]; exact h.2.1, hp _ h.2.2⟩
  | user | waiting | op => trivial

/-- A process that is in no operation and not in commit moves between `user` and `waiting`. -/
theorem Inv.goto_outside {s : State P} (h : Inv s) {p : P} {c : Pc} (hp : s.pc p ≠ .op)
    (hi : (s.pc p).inCommit = false) (hc : c ≠ .op) (hci : c.inCommit = false) : Inv (s.goto p c) := by
  have hin : ∀ q, ((s.goto p c).pc q).inCommit = true → (s.pc q).inCommit = true := fun q hq => by
    by_cases hqp : q = p
    · subst hqp; simp [hci] at hq
    · rwa [State.goto_pc_of_ne hqp] at hq
  have hop : ∀ q, (s.goto p c).pc q = .op ↔ s.pc q = .op := fun q => by
    by_cases hqp : q = p
    · subst hqp; simp [hp, hc]
    · rw [State.goto_pc_of_ne hqp]
  refine ⟨?_, fun q hq => h.committing q (hin q hq), fun q r hq hr => h.alone q r (hin q hq) (hin r hr), ?_,
    h.nodup, ?_, fun hc' => ⟨(h.between hc').listed, (h.between hc').pinned⟩, ?_, h.whole, h.refs, h.quiet⟩
  · obtain ⟨l, h1, h2, h3⟩ := h.ops
    exact ⟨l, h1, fun q => by rw [h2, hop], h3⟩
  · intro hcm
    obtain ⟨q, hq⟩ := h.someone hcm
    have hqp : q ≠ p := fun he => by subst he; simp [hi] at hq
    exact ⟨q, by rwa [State.goto_pc_of_ne hqp]⟩
  · intro q
    by_cases hqp : q = p
    · subst hqp
      rw [State.goto_pc_self]
      cases c <;> trivial
    · rw [State.goto_pc_of_ne hqp]
      exact (h.stage q).congr rfl rfl
  · intro q; rw [hop]; exact h.opened q

/-- Some list says which pins are still held. -/
theorem Inv.pinned {s : State P} (h : Inv s) : ∃ l : List Nat, l.Nodup ∧ Pinned s l := by
  by_cases hc : s.log.committing = true
  · obtain ⟨p, hp⟩ := h.someone hc
    have hs := h.stage p
    cases hpc : s.pc p with
    | user | waiting | op => simp [hpc, Pc.inCommit] at hp
    | commit | writeLog | writeHead => rw [hpc] at hs; exact ⟨_, h.nodup, hs.pinned⟩
    | install => rw [hpc] at hs; exact ⟨_, h.nodup.sublist (List.drop_sublist _ _), hs.2⟩
    | clear => rw [hpc] at hs; exact ⟨_, List.nodup_nil, hs.2⟩
    | eraseHead | committed => rw [hpc] at hs; exact ⟨_, List.nodup_nil, hs.2.2⟩
  · exact ⟨_, h.nodup, (h.between (by simpa using hc)).pinned⟩

theorem Inv.bread {s : State P} (h : Inv s) {p : P} {b : Nat} (hb : s.owner b = none) :
    Inv { s with owner := Function.update s.owner b (some p),
                 refcnt := Function.update s.refcnt b (s.refcnt b + 1) } := by
  refine ⟨h.ops, h.committing, h.alone, h.someone, h.nodup, fun q => (h.stage q).congr rfl rfl,
    fun hc => ⟨(h.between hc).listed, (h.between hc).pinned⟩, h.opened, h.whole, fun x => ?_, h.quiet⟩
  have := h.refs x
  by_cases hx : x = b
  · subst hx; simp [hb, held] at this ⊢; omega
  · simpa [hx] using this

theorem Inv.brelse {s : State P} (h : Inv s) {p : P} {b : Nat} (hb : s.owner b = some p) :
    Inv { s with owner := Function.update s.owner b none,
                 refcnt := Function.update s.refcnt b (s.refcnt b - 1) } := by
  refine ⟨h.ops, h.committing, h.alone, h.someone, h.nodup, fun q => (h.stage q).congr rfl rfl,
    fun hc => ⟨(h.between hc).listed, (h.between hc).pinned⟩, h.opened, h.whole, fun x => ?_, h.quiet⟩
  have := h.refs x
  by_cases hx : x = b
  · subst hx
    -- the holder counts once, and no pin is released twice
    obtain ⟨l, -, hl⟩ := h.pinned
    have := hl x
    simp [hb, held] at *; omega
  · simpa [hx] using this

theorem Inv.idle {s : State P} (h : Inv s) (hc : s.log.committing = false) (q : P) : (s.pc q).inCommit = false := by
  by_contra hq
  rw [(h.committing q (by simpa using hq)).1] at hc
  cases hc

theorem stage_of_idle {s : State P} {c : Pc} (hc : c.inCommit = false) : Stage s c := by
  cases c <;> trivial

/-- The invariant of a state in which no process commits. -/
theorem Inv.of_idle {s : State P}
    (ops : ∃ l : List P, l.Nodup ∧ (∀ p, p ∈ l ↔ s.pc p = .op) ∧ s.log.outstanding = l.length)
    (hc : s.log.committing = false) (hno : ∀ q, (s.pc q).inCommit = false) (nodup : s.log.lh.Nodup)
    (pending : Pending s) (opened : ∀ p, s.pc p = .op ↔ OpenOp p s.hist) (whole : CommitsWhole s.hist)
    (refs : ∀ b, s.refcnt b + unpins b s.hist = held (s.owner b) + pins b s.hist)
    (quiet : s.log.outstanding = 0 → s.log.lh = []) : Inv s where
  ops := ops
  committing q hq := by rw [hno q] at hq; cases hq
  alone q r hq := by rw [hno q] at hq; cases hq
  someone h := by rw [hc] at h; cases h
  nodup := nodup
  stage q := stage_of_idle (hno q)
  between _ := pending
  opened := opened
  whole := whole
  refs := refs
  quiet _ := quiet

theorem Inv.tryBegin {s : State P} (h : Inv s) {p : P} (hp : s.pc p = .waiting) : Inv (tryBegin s p) := by
  rw [GroupCommit.tryBegin]
  split
  · exact h
  next hc =>
  split
  · exact h
  have hcf : s.log.committing = false := by simpa using hc
  have hb := h.between hcf
  obtain ⟨l, hl1, hl2, hl3⟩ := h.ops
  have hnp : p ∉ l := fun hm => by rw [hl2, hp] at hm; cases hm
  refine .of_idle ⟨p :: l, List.nodup_cons.mpr ⟨hnp, hl1⟩, fun q => ?_, by simp [hl3]⟩ hcf (fun q => ?_) h.nodup
    ⟨hb.listed, hb.pinned⟩ (fun q => ?_) h.whole h.refs fun ho => ?_
  · rw [State.note_pc, State.goto_pc, List.mem_cons, hl2]
    by_cases hq : q = p <;> simp [hq]
  · rw [State.note_pc, State.goto_pc]
    split
    · rfl
    · exact h.idle hcf q
  · rw [State.note_pc, State.goto_pc]
    simp only [State.note_hist, State.goto_hist, OpenOp]
    by_cases hq : q = p
    · simp [hq]
    · simp [hq, Ne.symm hq, h.opened q]
  · simp only [State.note_log, State.goto_log] at ho
    omega

theorem Inv.not_committing_of_op {s : State P} (h : Inv s) {p : P} (hp : s.pc p = .op) :
    s.log.committing = false := by
  by_contra hc
  obtain ⟨q, hq⟩ := h.someone (by simpa using hc)
  obtain ⟨l, -, hl2, hl3⟩ := h.ops
  have h0 := (h.committing q hq).2
  have hl : l = [] := List.length_eq_zero_iff.mp (by omega)
  have := (hl2 p).mpr hp
  simp [hl] at this

/-- log_write adds the block to the pending ones and pins it if it is new. -/
theorem Inv.logWrite {s s' : State P} (h : Inv s) {p : P} {b : Nat} (hp : s.pc p = .op)
    (he : logWrite s p b = .ok s') : Inv s' := by
  have hcf := h.not_committing_of_op hp
  have hb := h.between hcf
  rw [GroupCommit.logWrite] at he
  split at he
  · cases he
  split at he
  · cases he
  next hout =>
  split at he
  · next hmem =>
    cases he
    refine .of_idle h.ops hcf (h.idle hcf) h.nodup ⟨fun x => ?_, hb.pinned⟩ h.opened h.whole h.refs (h.quiet hcf)
    simp only [State.note_log, State.note_hist, pend, List.mem_cons]
    refine ⟨fun hx => .inr ((hb.listed x).mp hx), ?_⟩
    rintro (rfl | hx)
    · exact hmem
    · exact (hb.listed x).mpr hx
  · next hmem =>
    cases he
    refine .of_idle h.ops hcf (h.idle hcf) ?_ ⟨fun x => ?_, fun x => ?_⟩ h.opened h.whole (fun x => ?_) fun ho => ?_
    · exact List.nodup_append.mpr ⟨h.nodup, by simp, by rintro x hx y hy rfl; simp at hy; exact hmem (hy ▸ hx)⟩
    · have := hb.listed x
      simp only [State.note_log, State.note_hist, State.bpin, pend, List.mem_append, List.mem_cons,
        List.not_mem_nil, or_false] at *
      tauto
    · have := hb.pinned x
      simp only [State.note_log, State.note_hist, State.bpin, pins, unpins, List.count_append] at *
      by_cases hx : x = b
      · subst hx; simp at *; omega
      · simp [Ne.symm hx, this]
    · have := h.refs x
      simp only [State.note_refcnt, State.note_owner, State.note_hist, State.bpin, pins, unpins] at *
      by_cases hx : x = b
      · subst hx; simp at *; omega
      · simp [hx, Ne.symm hx, this]
    · simp only [State.note_log, State.bpin] at ho
      omega

theorem Inv.endOp {s s' : State P} (h : Inv s) {p : P} (hp : s.pc p = .op) (he : endOp s p = .ok s') : Inv s' := by
  have hcf := h.not_committing_of_op hp
  have hb := h.between hcf
  obtain ⟨l, hl1, hl2, hl3⟩ := h.ops
  have hpl : p ∈ l := (hl2 p).mpr hp
  have hlen : (l.erase p).length = l.length - 1 := List.length_erase_of_mem hpl
  have hpos : 0 < l.length := List.length_pos_of_mem hpl
  have hmem : ∀ c : Pc, c ≠ .op → ∀ q, q ∈ l.erase p ↔ (if q = p then c else s.pc q) = .op := fun c hc q => by
    rw [hl1.mem_erase_iff, hl2]
    by_cases hq : q = p <;> simp [hq, hc]
  have hopen : ∀ c : Pc, c ≠ .op → ∀ q, (if q = p then c else s.pc q) = .op ↔ OpenOp q (.finish p :: s.hist) :=
    fun c hc q => by
      simp only [OpenOp]
      by_cases hq : q = p
      · simp [hq, hc]
      · simp [hq, Ne.symm hq, h.opened q]
  rw [GroupCommit.endOp] at he
  simp only [hcf, Bool.false_eq_true, if_false] at he
  split at he
  · next hzero =>
    cases he
    have hin : ∀ q, (if q = p then Pc.commit else s.pc q).inCommit = true ↔ q = p := fun q => by
      by_cases hq : q = p
      · simp [hq, Pc.inCommit]
      · simp [hq, h.idle hcf q]
    refine ⟨⟨l.erase p, hl1.erase _, fun q => ?_, ?_⟩, fun q _ => ⟨rfl, hzero⟩, fun q r hq hr => ?_, fun _ => ⟨p, ?_⟩,
      h.nodup, fun q => ?_, ?_, fun q => ?_, h.whole, h.refs, ?_⟩
    · rw [State.note_pc, State.goto_pc]; exact hmem _ (by simp) q
    · simp only [State.note_log, State.goto_log]; omega
    · rw [State.note_pc, State.goto_pc, hin] at hq hr
      exact hq.trans hr.symm
    · rw [State.note_pc, State.goto_pc, hin]
    · rw [State.note_pc, State.goto_pc]
      by_cases hq : q = p
      · simp only [hq, if_true]
        exact ⟨hb.listed, hb.pinned⟩
      · simp only [hq, if_false]
        exact stage_of_idle (h.idle hcf q)
    · intro hc'; simp at hc'
    · rw [State.note_pc, State.goto_pc]; exact hopen _ (by simp) q
    · intro hc'; simp at hc'
  · next hnz =>
    cases he
    refine .of_idle ⟨l.erase p, hl1.erase _, fun q => ?_, ?_⟩ rfl (fun q => ?_) h.nodup ⟨hb.listed, hb.pinned⟩
      (fun q => ?_) h.whole h.refs fun ho => absurd ho hnz
    · rw [State.note_pc, State.goto_pc]; exact hmem _ (by simp) q
    · simp only [State.note_log, State.goto_log]; omega
    · rw [State.note_pc, State.goto_pc]
      split
      · rfl
      · exact h.idle hcf q
    · rw [State.note_pc, State.goto_pc]; exact hopen _ (by simp) q

/-- A step of the committing process that keeps it in commit: the process stays alone
there, so only its own stage is new. -/
theorem Inv.commit_goto {s t : State P} (h : Inv s) {p : P} {c : Pc} (hp : (s.pc p).inCommit = true)
    (hc : c.inCommit = true) (hpc : t.pc = Function.update s.pc p c) (hcm : t.log.committing = s.log.committing)
    (ho : t.log.outstanding = s.log.outstanding) (nodup : t.log.lh.Nodup) (stage : Stage t c)
    (opened : ∀ q, OpenOp q t.hist ↔ OpenOp q s.hist) (whole : CommitsWhole t.hist)
    (refs : ∀ b, t.refcnt b + unpins b t.hist = held (t.owner b) + pins b t.hist) : Inv t := by
  have hct := (h.committing p hp).1
  have hin : ∀ q, (t.pc q).inCommit = true ↔ (s.pc q).inCommit = true := fun q => by
    by_cases hq : q = p
    · subst hq; simp [hpc, hc, hp]
    · simp [hpc, hq]
  have hop : ∀ q, t.pc q = .op ↔ s.pc q = .op := fun q => by
    by_cases hq : q = p
    · subst hq
      have h1 : s.pc q ≠ .op := fun he => by simp [he, Pc.inCommit] at hp
      have h2 : c ≠ .op := fun he => by simp [he, Pc.inCommit] at hc
      simp [hpc, h1, h2]
    · simp [hpc, hq]
  refine ⟨?_, fun q hq => ?_, fun q r hq hr => h.alone q r ((hin q).mp hq) ((hin r).mp hr), fun _ => ⟨p, (hin p).mpr hp⟩,
    nodup, fun q => ?_, fun hc' => ?_, fun q => ?_, whole, refs, fun hc' => ?_⟩
  · obtain ⟨l, h1, h2, h3⟩ := h.ops
    exact ⟨l, h1, fun q => by rw [h2, hop], by rw [ho, h3]⟩
  · rw [hcm, ho]; exact h.committing q ((hin q).mp hq)
  · by_cases hq : q = p
    · subst hq; rw [hpc, Function.update_self]; exact stage
    · refine stage_of_idle ?_
      by_contra hi
      exact hq (h.alone q p ((hin q).mp (by simpa using hi)) hp)
  · rw [hcm, hct] at hc'; cases hc'
  · rw [hop, opened, h.opened]
  · rw [hcm, hct] at hc'; cases hc'

theorem drop_eq_cons {l : List Nat} {i b : Nat} (h : l[i]? = some b) : l.drop i = b :: l.drop (i + 1) := by
  obtain ⟨hi, rfl⟩ := List.getElem?_eq_some_iff.mp h
  exact List.drop_eq_getElem_cons hi

theorem Inv.install {s : State P} (h : Inv s) {p : P} {tail b : Nat} (hp : s.pc p = .install tail)
    (hb : s.log.lh[tail]? = some b) : Inv ((s.bunpin b).goto p (.install (tail + 1))) := by
  have hst := h.stage p
  rw [hp] at hst
  obtain ⟨hpend, hpin⟩ := hst
  have hd := drop_eq_cons hb
  refine h.commit_goto (p := p) (c := .install (tail + 1)) (by rw [hp]; rfl) rfl rfl rfl rfl h.nodup ⟨hpend, fun x => ?_⟩
    (fun _ => Iff.rfl) h.whole fun x => ?_
  · have := hpin x
    simp only [State.goto_hist, State.goto_log, State.bunpin, pins, unpins, hd, List.count_cons] at *
    by_cases hx : x = b
    · subst hx; simp at *; omega
    · simpa [Ne.symm hx] using this
  · have h1 := h.refs x
    have h2 := hpin x
    simp only [State.goto_refcnt, State.goto_owner, State.goto_hist, State.bunpin, pins, unpins, hd, List.count_cons] at *
    by_cases hx : x = b
    · subst hx; simp at *; omega
    · simpa [hx, Ne.symm hx] using h1

theorem Inv.commitStep {s s' : State P} (h : Inv s) {p : P} (he : commitStep s p = .ok s') : Inv s' := by
  have hst := h.stage p
  rw [GroupCommit.commitStep] at he
  split at he
  · next hp =>
    cases he
    rw [hp] at hst
    have hin : (s.pc p).inCommit = true := by rw [hp]; rfl
    split
    · exact h.commit_goto hin rfl rfl rfl rfl h.nodup ⟨hst.listed, hst.pinned⟩ (fun _ => Iff.rfl) h.whole h.refs
    · next hn =>
      have hl : s.log.lh = [] := List.length_eq_zero_iff.mp (by omega)
      have hpe : pend s.hist = [] := List.eq_nil_iff_forall_not_mem.mpr fun b hb => by
        have := (hst.listed b).mpr hb
        simp [hl] at this
      refine h.commit_goto hin rfl rfl rfl rfl h.nodup ⟨hl, hpe, ?_⟩ (fun _ => Iff.rfl) h.whole h.refs
      have := hst.pinned
      rwa [hl] at this
  · next tail hp =>
    rw [hp] at hst
    have hin : (s.pc p).inCommit = true := by rw [hp]; rfl
    have hst' : ∀ c : Pc, Stage (s.goto p c) (.writeLog tail) := fun c => hst.congr rfl rfl
    split at he
    · split at he
      · cases he
        exact h.commit_goto hin rfl rfl rfl rfl h.nodup (hst' (.writeLog (tail + 1))) (fun _ => Iff.rfl) h.whole h.refs
      · cases he
    · cases he
      exact h.commit_goto hin rfl rfl rfl rfl h.nodup (hst' .writeHead) (fun _ => Iff.rfl) h.whole h.refs
  · next hp =>
    cases he
    rw [hp] at hst
    have hin : (s.pc p).inCommit = true := by rw [hp]; rfl
    have hnone : ∀ q, ¬ OpenOp q s.hist := fun q hq => by
      obtain ⟨l, -, hl2, hl3⟩ := h.ops
      have hl : l = [] := List.length_eq_zero_iff.mp (by have := (h.committing p hin).2; omega)
      have := (hl2 q).mpr ((h.opened q).mpr hq)
      simp [hl] at this
    exact h.commit_goto hin rfl rfl rfl rfl h.nodup ⟨rfl, hst.pinned⟩ (fun _ => Iff.rfl)
      ⟨hnone, fun b hb => (hst.listed b).mpr hb, h.whole⟩ h.refs
  · next tail hp =>
    split at he
    · next b hb =>
      split at he
      · cases he
        exact h.install hp hb
      · cases he
    · next hb =>
      cases he
      rw [hp] at hst
      have hd : s.log.lh.drop tail = [] := List.drop_eq_nil_of_le (List.getElem?_eq_none_iff.mp hb)
      refine h.commit_goto (by rw [hp]; rfl) rfl rfl rfl rfl h.nodup ⟨hst.1, ?_⟩ (fun _ => Iff.rfl) h.whole h.refs
      have := hst.2
      rwa [hd] at this
  · next hp =>
    cases he
    rw [hp] at hst
    exact h.commit_goto (by rw [hp]; rfl) rfl rfl rfl rfl List.nodup_nil ⟨rfl, hst.1, hst.2⟩ (fun _ => Iff.rfl)
      h.whole h.refs
  · next hp =>
    cases he
    rw [hp] at hst
    exact h.commit_goto (by rw [hp]; rfl) rfl rfl rfl rfl h.nodup hst (fun _ => Iff.rfl) h.whole h.refs
  · next hp =>
    cases he
    rw [hp] at hst
    have hin : (s.pc p).inCommit = true := by rw [hp]; rfl
    obtain ⟨hl, hpe, hpin⟩ := hst
    obtain ⟨l, hl1, hl2, hl3⟩ := h.ops
    have hop : ∀ q, (if q = p then Pc.user else s.pc q) = .op ↔ s.pc q = .op := fun q => by
      by_cases hq : q = p
      · subst hq; simp [hp]
      · simp [hq]
    refine .of_idle ⟨l, hl1, fun q => ?_, hl3⟩ rfl (fun q => ?_) h.nodup ⟨fun b => ?_, ?_⟩ (fun q => ?_) h.whole h.refs
      fun _ => hl
    · rw [State.goto_pc, hop, hl2]
    · rw [State.goto_pc]
      by_cases hq : q = p
      · simp [hq, Pc.inCommit]
      · simp only [hq, if_false]
        by_contra hi
        exact hq (h.alone q p (by simpa using hi) hin)
    · simp [hl, hpe]
    · intro b; simpa [hl] using hpin b
    · rw [State.goto_pc, hop, h.opened]; rfl
  · cases he

/-- Every step keeps the invariant. -/
theorem Inv.step {s s' : State P} {a : Action P} (h : Inv s) (he : step s a = .ok s') : Inv s' := by
  cases a with
  | beginOp p =>
    simp only [GroupCommit.step] at he
    split at he
    · next hp => cases he; exact h.goto_outside (by simp [hp]) (by simp [hp, Pc.inCommit]) (by simp) rfl
    · cases he
  | tryBegin p =>
    simp only [GroupCommit.step] at he
    split at he
    · next hp => cases he; exact h.tryBegin hp
    · cases he
  | bread p b =>
    simp only [GroupCommit.step] at he
    split at he
    · next hb => cases he; exact h.bread hb
    · cases he
  | brelse p b =>
    simp only [GroupCommit.step] at he
    split at he
    · next hb => cases he; exact h.brelse hb
    · cases he
  | logWrite p b =>
    simp only [GroupCommit.step] at he
    split at he
    · next hp => exact h.logWrite hp.1 he
    · cases he
  | endOp p =>
    simp only [GroupCommit.step] at he
    split at he
    · next hp => exact h.endOp hp he
    · cases he
  | commitStep p => exact h.commitStep he

theorem reach_inv {s : State P} (h : Reach step Init s) : Inv s :=
  h.invariant (fun _ => inv_init) fun _ _ _ => Inv.step

/-! ## Whole operations -/

theorem OpenOp.append {p : P} {h t : List (Event P)} (hf : .finish p ∉ h) (ht : OpenOp p t) : OpenOp p (h ++ t) := by
  induction h with
  | nil => exact ht
  | cons e h ih =>
    simp only [List.mem_cons, not_or] at hf
    have := ih hf.2
    cases e with
    | begin q => exact .inr this
    | finish q => exact ⟨fun he => hf.1 (he ▸ rfl), this⟩
    | write | commit | pin | unpin => exact this

theorem mem_pend {p : P} {b : Nat} {h t : List (Event P)} (hc : ∀ bs, .commit bs ∉ h) (hw : .write p b ∈ h) :
    b ∈ pend (h ++ t) := by
  induction h with
  | nil => simp at hw
  | cons e h ih =>
    simp only [List.mem_cons, not_or] at hc hw
    rcases hw with rfl | hw
    · simp [pend]
    · have := ih (fun bs => (hc bs).2) hw
      cases e with
      | write => exact List.mem_cons_of_mem _ this
      | commit bs => exact absurd rfl (hc bs).1
      | begin | finish | pin | unpin => exact this

theorem CommitsWhole.of_append {h t : List (Event P)} (hw : CommitsWhole (h ++ t)) : CommitsWhole t := by
  induction h with
  | nil => exact hw
  | cons e h ih =>
    cases e with
    | commit => exact ih hw.2.2
    | begin | finish | write | pin | unpin => exact ih hw

/-- No commit falls inside an operation. -/
theorem CommitsWhole.not_inside {p : P} {h t : List (Event P)} (hw : CommitsWhole (h ++ .begin p :: t))
    (hf : .finish p ∉ h) (bs : List Nat) : .commit bs ∉ h := by
  intro hm
  obtain ⟨h₂, h₁, rfl⟩ := List.append_of_mem hm
  rw [List.append_assoc, List.cons_append] at hw
  refine hw.of_append.1 p (OpenOp.append (fun he => hf ?_) (.inl rfl))
  exact List.mem_append_right _ (List.mem_cons_of_mem _ he)

/-- The first commit after an operation lists every block the operation logged. -/
theorem CommitsWhole.lists {p : P} {b : Nat} {bs : List Nat} {h₃ h₂ h₁ : List (Event P)}
    (hw : CommitsWhole (.commit bs :: (h₃ ++ .finish p :: (h₂ ++ .begin p :: h₁))))
    (hf : .finish p ∉ h₂) (hc : ∀ cs, .commit cs ∉ h₃) (hb : .write p b ∈ h₂) : b ∈ bs := by
  have hin : CommitsWhole (h₂ ++ .begin p :: h₁) := (hw.2.2.of_append : CommitsWhole (.finish p :: _))
  have hno := hin.not_inside hf
  have hmem := mem_pend (h := h₃ ++ .finish p :: h₂) (t := .begin p :: h₁) (p := p) (b := b)
    (fun cs hm => by
      simp only [List.mem_append, List.mem_cons, reduceCtorEq, false_or] at hm
      exact hm.elim (hc cs) (hno cs))
    (by simp [hb])
  rw [List.append_assoc, List.cons_append] at hmem
  exact hw.2.1 b hmem

/-- A process leaves begin_op only by its own test, and not while `committing` is set. -/
theorem step_waiting {s s' : State P} {a : Action P} {q : P} (hc : s.log.committing = true) (hq : s.pc q = .waiting)
    (he : step s a = .ok s') : s'.pc q ≠ .op := by
  have hgoto : ∀ (t : State P) (p : P) (c : Pc), t.pc = s.pc → s.pc p ≠ .waiting → (t.goto p c).pc q ≠ .op :=
    fun t p c ht hp => by
      have hqp : q ≠ p := fun h => hp (h ▸ hq)
      rw [State.goto_pc_of_ne hqp, ht, hq]
      simp
  cases a with
  | beginOp p =>
    simp only [step] at he
    split at he
    · next hp => cases he; exact hgoto s p _ rfl (by simp [hp])
    · cases he
  | tryBegin p =>
    simp only [step, tryBegin, hc, if_true] at he
    split at he
    · cases he; simp [hq]
    · cases he
  | bread p b =>
    simp only [step] at he
    split at he
    · cases he; simp [hq]
    · cases he
  | brelse p b =>
    simp only [step] at he
    split at he
    · cases he; simp [hq]
    · cases he
  | logWrite p b =>
    simp only [step, logWrite] at he
    split at he
    · split at he
      · cases he
      split at he
      · cases he
      split at he <;> cases he <;> simp [hq, State.bpin]
    · cases he
  | endOp p =>
    simp only [step, endOp, hc, if_true] at he
    split at he <;> cases he
  | commitStep p =>
    simp only [step, commitStep] at he
    split at he
    · next hp => cases he; exact hgoto s p _ rfl (by simp [hp])
    · next hp =>
      split at he
      · split at he
        · cases he; exact hgoto s p _ rfl (by simp [hp])
        · cases he
      · cases he; exact hgoto s p _ rfl (by simp [hp])
    · next hp => cases he; exact hgoto s p _ rfl (by simp [hp])
    · next hp =>
      split at he
      · split at he
        · cases he; exact hgoto _ p _ rfl (by simp [hp])
        · cases he
      · cases he; exact hgoto s p _ rfl (by simp [hp])
    · next hp => cases he; exact hgoto _ p _ rfl (by simp [hp])
    · next hp => cases he; exact hgoto s p _ rfl (by simp [hp])
    · next hp => cases he; exact hgoto _ p _ rfl (by simp [hp])
    · cases he

/-- end_op never finds `committing` set. -/
theorem Inv.no_committing_panic {s : State P} (h : Inv s) (a : Action P) :
    GroupCommit.step s a ≠ .panic "log.committing" := by
  intro he
  cases a with
  | endOp p =>
    simp only [GroupCommit.step] at he
    split at he
    · next hp =>
      simp only [GroupCommit.endOp, h.not_committing_of_op hp, Bool.false_eq_true, if_false] at he
      split at he <;> cases he
    · cases he
  | logWrite p b =>
    simp only [GroupCommit.step, GroupCommit.logWrite] at he
    split at he
    · split at he
      · simp at he
      split at he
      · simp at he
      split at he <;> cases he
    · cases he
  | commitStep p =>
    simp only [GroupCommit.step, GroupCommit.commitStep] at he
    split at he <;> first | cases he | (split at he <;> first | cases he | (split at he <;> cases he))
  | beginOp | tryBegin | bread | brelse =>
    simp only [GroupCommit.step] at he
    split at he <;> cases he

/-- **Operation atomicity of group commit**, in every reachable state, whatever the
interleaving: commit runs alone, with no operation outstanding and `committing` set; while
it runs no begin_op returns; end_op's `log.committing` panic is unreachable; between
commits the header lists the distinct blocks log_written since the last one, each pinned
once, and a buffer's reference count is its holder and its pin; no commit falls inside an
operation, and the first one after it lists all the blocks it logged; each pin is released
by one bunpin before the block can be pinned again, and when commit is over no pin is left. -/
theorem group_commit_atomic {s : State P} (hr : Reach step Init s) :
    (∀ p, (s.pc p).inCommit = true → s.log.outstanding = 0 ∧ s.log.committing = true) ∧
    (∀ p q, (s.pc p).inCommit = true → (s.pc q).inCommit = true → p = q) ∧
    (∀ p a s', (s.pc p).inCommit = true → step s a = .ok s' → ∀ q, s.pc q = .waiting → s'.pc q ≠ .op) ∧
    (∀ a, step s a ≠ .panic "log.committing") ∧
    ((∀ p, (s.pc p).inCommit = false) →
      s.log.lh.Nodup ∧ (∀ b, b ∈ s.log.lh ↔ b ∈ pend s.hist) ∧
      (∀ b, pins b s.hist = unpins b s.hist + if b ∈ s.log.lh then 1 else 0) ∧
      (∀ b, s.refcnt b = held (s.owner b) + if b ∈ s.log.lh then 1 else 0)) ∧
    (∀ p h₁ h₂ h₃, s.hist = h₃ ++ .finish p :: (h₂ ++ .begin p :: h₁) → .finish p ∉ h₂ →
      (∀ bs, .commit bs ∉ h₂) ∧
      ∀ b, .write p b ∈ h₂ → ∀ bs h₄ h₅, h₃ = h₅ ++ .commit bs :: h₄ → (∀ cs, .commit cs ∉ h₄) → b ∈ bs) ∧
    (∀ b, pins b s.hist = unpins b s.hist ∨ pins b s.hist = unpins b s.hist + 1) ∧
    (∀ p, s.pc p = .committed → ∀ b, pins b s.hist = unpins b s.hist) := by
  have h := reach_inv hr
  refine ⟨fun p hp => (h.committing p hp).symm, h.alone, fun p a s' hp he q hq =>
    step_waiting (h.committing p hp).1 hq he, h.no_committing_panic, fun hno => ?_, fun p h₁ h₂ h₃ hh hf => ?_, ?_, ?_⟩
  · have hcf : s.log.committing = false := by
      by_contra hc
      obtain ⟨p, hp⟩ := h.someone (by simpa using hc)
      rw [hno p] at hp
      cases hp
    have hb := h.between hcf
    have hpin : ∀ b, pins b s.hist = unpins b s.hist + if b ∈ s.log.lh then 1 else 0 := fun b => by
      rw [hb.pinned b, h.nodup.count]
    refine ⟨h.nodup, hb.listed, hpin, fun b => ?_⟩
    have h1 := h.refs b
    have h2 := hpin b
    omega
  · have hw := h.whole
    rw [hh] at hw
    have hin : CommitsWhole (h₂ ++ .begin p :: h₁) := (hw.of_append : CommitsWhole (.finish p :: _))
    refine ⟨hin.not_inside hf, fun b hb bs h₄ h₅ h3 h4 => ?_⟩
    rw [h3, List.append_assoc, List.cons_append] at hw
    exact hw.of_append.lists hf h4 hb
  · intro b
    obtain ⟨l, hl, hp⟩ := h.pinned
    have h1 := hp b
    have h2 := List.nodup_iff_count_le_one.mp hl b
    omega
  · intro p hp b
    have hst := h.stage p
    rw [hp] at hst
    simpa using hst.2.2 b

/-- The machine after boot with a log of `size` blocks. -/
def boot (size : Nat) : State P where
  log := { start := 2, size }
  refcnt _ := 0
  owner _ := none
  pc _ := .user
  hist := []

theorem boot_init (size : Nat) : Init (boot size : State P) :=
  ⟨rfl, rfl, rfl, fun _ => rfl, fun _ => rfl, fun _ => rfl, rfl⟩

/-- Two overlapping operations that both log block 46, then the commit up to the installation. -/
def twoOps : List (Action (Fin 2)) :=
  [.beginOp 0, .tryBegin 0, .beginOp 1, .tryBegin 1, .bread 0 46, .logWrite 0 46, .brelse 0 46, .endOp 0,
    .bread 1 46, .logWrite 1 46, .brelse 1 46, .endOp 1, .commitStep 1, .commitStep 1, .commitStep 1, .commitStep 1,
    .commitStep 1]

theorem group_commit_atomic_two_ops :
    ∃ s, runs step (boot 30) twoOps = .ok s ∧ s.pc 1 = .install 1 ∧ s.log.outstanding = 0 ∧
      s.log.committing = true ∧ ∀ a, step s a ≠ .panic "log.committing" := by
  obtain ⟨s, hr, hp⟩ : ∃ s, runs step (boot 30) twoOps = .ok s ∧ s.pc 1 = .install 1 := ⟨_, rfl, rfl⟩
  have h := group_commit_atomic (Reach.of_runs (.init (boot_init 30)) hr)
  have hc := h.1 1 (by rw [hp]; rfl)
  exact ⟨s, hr, hp, hc.1, hc.2, h.2.2.2.1⟩

end Xv6.GroupCommit
