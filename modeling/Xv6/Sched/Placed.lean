/-
Where every process and every processor is: the invariant behind the hand-off, and that
the steps which stay on their stack keep it. A frame that runs has the process lock it
expects; a stack that nobody runs is to be resumed at a point that expects exactly its own
process's lock, or has never been used, or is of a process that has exited.
-/
import Xv6.Sched.Step

namespace Xv6.Sched

open Lib

/-! ## Where everything is -/

/-- A process's state says whether it runs, and where it goes on if it does not. -/
def St.StateOk (s : St) (p : Fin NPROC) : Prop :=
  match (s.proc p).state with
  | .RUNNING => ∃ c, (s.cpu c).cur = .kstack p
  | .RUNNABLE | .SLEEPING => (∀ c, (s.cpu c).cur ≠ .kstack p) ∧ (s.proc p).context = .kstack p ∧
    ∃ f rest, s.frames (.kstack p) = f :: rest ∧ f.Resumes p
  | .USED | .UNUSED => ∀ c, (s.cpu c).cur ≠ .kstack p
  | .ZOMBIE => ∀ c, (s.cpu c).cur = .kstack p → ∃ rest, s.frames (.kstack p) = .exit4 p :: rest

structure Placed (s : St) : Prop where
  locks : LocksOk s
  /-- the frame that runs has the lock it expects, and no frame below expects one -/
  top : ∀ c f rest, s.frames (s.cpu c).cur = f :: rest → ∀ q, f.crit = some q → s.lock (.proc q) = some c
  lower : ∀ k, ∀ g ∈ (s.frames k).tail, g.crit = none
  lk : ∀ k, ∀ f ∈ s.frames k, f.LkOk
  /-- a processor is in scheduler(), or runs the process it says while scheduler() waits in swtch -/
  place : ∀ c, ((s.cpu c).cur = .cpu c ∧ ∀ i, (s.cpu c).proc = some i → s.frames (.cpu c) = [.back i]) ∨
    ∃ p, (s.cpu c).cur = .kstack p ∧ (s.cpu c).proc = some p ∧ (s.cpu c).context = .cpu c ∧ s.frames (.cpu c) = [.back p]
  shape : ∀ c, ∃ pre g, s.frames (.cpu c) = pre ++ [g] ∧ g.IsSched ∧ (∀ f ∈ pre, f.IsIntr) ∧ (pre ≠ [] → g.crit = none)
  mine : ∀ p, ∀ f ∈ s.frames (.kstack p), ¬ f.IsSched ∧ ∀ q, f.self = some q → q = p
  alone : ∀ c d, (s.cpu c).cur = (s.cpu d).cur → c = d
  state : ∀ p, s.StateOk p
  /-- a process that fork is making has not started, and one fork is making it -/
  made : ∀ k, ∀ np ∈ owned (s.frames k),
    (s.proc np).state = .USED ∧ (s.proc np).context = .kstack np ∧ s.frames (.kstack np) = [.forkret np]
  once : ∀ k, (owned (s.frames k)).Nodup
  apart : ∀ k k' np, np ∈ owned (s.frames k) → np ∈ owned (s.frames k') → k = k'

namespace Placed

variable {s : St} {c d : Fin NCPU} {f : Frame} {rest : List Frame} {p : Fin NPROC}

/-- A processor without locks runs a frame that expects none. -/
theorem crit_none (h : Placed s) (hf : s.frames (s.cpu c).cur = f :: rest) (h0 : (s.cpu c).noff = 0) : f.crit = none := by
  cases hq : f.crit with
  | none => rfl
  | some q => exact absurd h0 (h.locks.noff_pos (h.top c f rest hf q hq))

/-- A processor on its own stack is on no other's. -/
theorem cur_cpu (h : Placed s) (hc : (s.cpu c).cur = .cpu d) : d = c := by
  rcases h.place c with ⟨hcur, -⟩ | ⟨p, hcur, -⟩
  · rw [hc, Stack.cpu.injEq] at hcur
    exact hcur
  · rw [hc] at hcur
    cases hcur

theorem cur_kstack (h : Placed s) (hc : (s.cpu c).cur = .kstack p) : (s.cpu c).proc = some p := by
  rcases h.place c with ⟨hcur, -⟩ | ⟨q, hcur, hq, -⟩
  · rw [hc] at hcur
    cases hcur
  · rw [hc, Stack.kstack.injEq] at hcur
    rw [hq, hcur]

/-- A process on a processor is RUNNING, or on its way out of exit. -/
theorem running (h : Placed s) (hc : (s.cpu c).cur = .kstack p) : (s.proc p).state = .RUNNING ∨
    (s.proc p).state = .ZOMBIE ∧ ∃ rest, s.frames (.kstack p) = .exit4 p :: rest := by
  have hs := h.state p
  unfold St.StateOk at hs
  split at hs
  · next he => exact .inl he
  · exact absurd hc (hs.1 c)
  · exact absurd hc (hs.1 c)
  · exact absurd hc (hs c)
  · exact absurd hc (hs c)
  · next he => exact .inr ⟨he, hs c hc⟩

theorem not_running (h : Placed s) (hs : (s.proc p).state ≠ .RUNNING) (hz : (s.proc p).state ≠ .ZOMBIE) (c : Fin NCPU) :
    (s.cpu c).cur ≠ .kstack p := by
  intro hc
  rcases h.running hc with hr | ⟨hr, -⟩
  · exact hs hr
  · exact hz hr

/-- The thread of a process is on that process's stack. -/
theorem cur_self (h : Placed s) (hon : s.frames (s.cpu c).cur = f :: rest) (hr : f.self = some p) :
    (s.cpu c).cur = .kstack p := by
  rcases h.place c with ⟨hcur, -⟩ | ⟨q, hcur, -⟩
  · obtain ⟨pre, g, hfr, hsched, hintr, -⟩ := h.shape c
    rw [hcur, hfr] at hon
    cases pre with
    | nil =>
      obtain ⟨rfl, -⟩ := List.cons.inj hon
      cases g <;> simp_all
    | cons x pre =>
      obtain ⟨rfl, -⟩ := List.cons.inj hon
      have hx := hintr x (by simp)
      cases x <;> simp_all
  · rw [hcur] at hon ⊢
    rw [(h.mine q f (by rw [hon]; simp)).2 p hr]

/-- scheduler() is on the processor's own stack, and alone there but for interrupts. -/
theorem cur_sched (h : Placed s) (hon : s.frames (s.cpu c).cur = f :: rest) (hs : f.IsSched) :
    (s.cpu c).cur = .cpu c ∧ rest = [] := by
  rcases h.place c with ⟨hcur, -⟩ | ⟨q, hcur, -⟩
  · refine ⟨hcur, ?_⟩
    obtain ⟨pre, g, hfr, -, hintr, -⟩ := h.shape c
    rw [hcur, hfr] at hon
    cases pre with
    | nil => exact (List.cons.inj hon).2.symm
    | cons x pre =>
      obtain ⟨rfl, -⟩ := List.cons.inj hon
      have hx := hintr x (by simp)
      cases x <;> simp_all
  · rw [hcur] at hon
    exact absurd hs (h.mine q f (by rw [hon]; simp)).1

end Placed

/-! ## Steps that do not switch -/

/-- A step of `c` from `f` that stays on its stack: `Local`, and what it leaves alone. -/
structure Quiet (s s' : St) (c : Fin NCPU) (f : Frame) (rest : List Frame) (a : Act) : Prop where
  onTop : s.frames (s.cpu c).cur = f :: rest
  acts : Local s c f a
  stay : a.go = .stay
  change : Change s f a
  locks : LocksOk s'
  lock : ∀ l d, s'.lock l = some d ↔ (a.op = .acquire l ∧ d = c) ∨ (s.lock l = some d ∧ a.op ≠ .release l)
  held : ∀ l, a.op = .release l → s.lock l = some c
  cpu : ∀ d, (s'.cpu d).cur = (s.cpu d).cur ∧ (s'.cpu d).proc = (s.cpu d).proc ∧ (s'.cpu d).context = (s.cpu d).context
  unused : ∀ q, a.start = some q → ∀ d, (s.cpu d).cur ≠ .kstack q
  fresh : ∀ q, a.start = some q → s'.frames (.kstack q) = [.forkret q]
  stack : s'.frames (s.cpu c).cur = a.next ++ rest
  frames : ∀ k, k ≠ (s.cpu c).cur → (∀ q, a.start = some q → k ≠ .kstack q) → s'.frames k = s.frames k
  proc : ∀ p, (∀ v, a.write ≠ some (p, v)) → s'.proc p = s.proc p
  written : ∀ p v, a.write = some (p, v) → s'.proc p = v

theorem Placed.quiet {s s1 : St} {c : Fin NCPU} {f : Frame} {rest : List Frame} {a : Act} (h : Placed s)
    (hf : s.frames (s.cpu c).cur = f :: rest) (hl : Local s c f a) (hop : s.doOp c a.op = .ok s1) (hgo : a.go = .stay)
    (hch : Change s f a) : Quiet s (s1.put (s.cpu c).cur rest a) c f rest a := by
  obtain ⟨hproc, hframes, -, hcpu⟩ := doOp_frame hop
  have hstart : ∀ q, a.start = some q → ∀ d, (s.cpu d).cur ≠ .kstack q := by
    intro q hq
    rcases hch with ⟨-, hn, -⟩ | ⟨-, -, -, hn, -⟩ | ⟨-, -, -, hn, -⟩ | ⟨r, -, -, hr, hu, -⟩ | ⟨-, -, -, hn, -⟩ |
      ⟨-, -, -, hn, -⟩ | ⟨-, -, -, hn, -⟩ | ⟨-, -, -, hn, -⟩
    case alloc =>
      rw [hq, Option.some.injEq] at hr
      exact h.not_running (by rw [hr, hu]; simp) (by rw [hr, hu]; simp)
    all_goals
      rw [hq] at hn
      cases hn
  refine ⟨hf, hl, hgo, hch, (h.locks.doOp hop).congr rfl fun _ => rfl, fun l d => show s1.lock l = some d ↔ _ from doOp_lock hop, ?_, hcpu, hstart, ?_, ?_, ?_, ?_, ?_⟩
  · intro l hr
    rw [hr] at hop
    exact (release_ok hop).1
  · intro q hq
    simp [St.put, hq]
  · unfold St.put
    cases hs : a.start with
    | none => simp
    | some q => simp [hstart q hs c]
  · intro k hk hq
    unfold St.put
    cases hs : a.start with
    | none => simp [hk, hframes]
    | some q => simp [hk, hq q hs, hframes]
  · intro p hw
    unfold St.put
    cases hs : a.write with
    | none => simp [hproc]
    | some pv =>
      have hne : p ≠ pv.1 := fun he => hw pv.2 (by rw [hs, he])
      simp [hne, hproc]
  · intro p v hw
    simp [St.put, hw]

namespace Quiet

variable {s s' : St} {c : Fin NCPU} {f : Frame} {rest : List Frame} {a : Act}

/-- The step is invisible on the stacks of other processors. -/
theorem other (q : Quiet s s' c f rest a) (h : Placed s) {d : Fin NCPU} (hd : d ≠ c) :
    s'.frames (s.cpu d).cur = s.frames (s.cpu d).cur :=
  q.frames _ (fun he => hd (h.alone _ _ he)) fun _ hr => q.unused _ hr d

/-- A stack that nobody runs changes only by being set up. -/
theorem idle (q : Quiet s s' c f rest a) {p : Fin NPROC} (hp : ∀ d, (s.cpu d).cur ≠ .kstack p) (hs : a.start ≠ some p) :
    s'.frames (.kstack p) = s.frames (.kstack p) :=
  q.frames _ (fun he => hp c he.symm) fun r hr he => hs (by rw [hr, Stack.kstack.inj he])

/-- Others keep their locks. -/
theorem lock_other (q : Quiet s s' c f rest a) {d : Fin NCPU} (hd : d ≠ c) {l : Lock} (hl : s.lock l = some d) :
    s'.lock l = some d := by
  refine (q.lock l d).mpr (.inr ⟨hl, fun hr => hd ?_⟩)
  have := q.held l hr
  rw [hl, Option.some.injEq] at this
  exact this

theorem top (q : Quiet s s' c f rest a) (h : Placed s) : ∀ d g gs, s'.frames (s'.cpu d).cur = g :: gs →
    ∀ r, g.crit = some r → s'.lock (.proc r) = some d := by
  intro d g gs hg r hr
  rw [(q.cpu d).1] at hg
  by_cases hd : d = c
  · subst hd
    rw [q.stack] at hg
    cases hn : a.next with
    | nil =>
      -- a return: the frames below expect no lock
      rw [hn, List.nil_append] at hg
      have hlow := h.lower (s.cpu d).cur g (by rw [q.onTop, hg]; simp)
      rw [hr] at hlow
      cases hlow
    | cons g' gs' =>
      rw [hn, List.cons_append, List.cons.injEq] at hg
      obtain ⟨rfl, -⟩ := hg
      rcases q.acts.crit _ _ hn r hr with hacq | ⟨hcrit, hrel⟩
      · exact (q.lock _ _).mpr (.inl ⟨hacq, rfl⟩)
      · exact (q.lock _ _).mpr (.inr ⟨h.top d f rest q.onTop r hcrit, hrel⟩)
  · rw [q.other h hd] at hg
    exact q.lock_other hd (h.top d g gs hg r hr)

/-- A frame is new, or was there. -/
theorem mem_frames (q : Quiet s s' c f rest a) {k : Stack} {g : Frame} (hg : g ∈ s'.frames k) :
    g ∈ s.frames k ∨ (k = (s.cpu c).cur ∧ g ∈ a.next) ∨ ∃ r, a.start = some r ∧ k = .kstack r ∧ g = .forkret r := by
  by_cases hr : ∃ r, a.start = some r ∧ k = .kstack r
  · obtain ⟨r, hr, rfl⟩ := hr
    rw [q.fresh r hr, List.mem_singleton] at hg
    exact .inr (.inr ⟨r, hr, rfl, hg⟩)
  by_cases hk : k = (s.cpu c).cur
  · rw [hk, q.stack, List.mem_append] at hg
    rcases hg with hg | hg
    · exact .inr (.inl ⟨hk, hg⟩)
    · refine .inl ?_
      rw [hk, q.onTop]
      exact List.mem_cons_of_mem _ hg
  · rw [q.frames k hk fun r hs he => hr ⟨r, hs, he⟩] at hg
    exact .inl hg

theorem lower (q : Quiet s s' c f rest a) (h : Placed s) : ∀ k, ∀ g ∈ (s'.frames k).tail, g.crit = none := by
  intro k g hg
  by_cases hr : ∃ r, a.start = some r ∧ k = .kstack r
  · obtain ⟨r, hr, rfl⟩ := hr
    rw [q.fresh r hr] at hg
    cases hg
  by_cases hk : k = (s.cpu c).cur
  · have hrest : ∀ g ∈ rest, g.crit = none := fun g hg => h.lower (s.cpu c).cur g (by rw [q.onTop]; exact hg)
    subst hk
    rw [q.stack] at hg
    cases hn : a.next with
    | nil =>
      rw [hn, List.nil_append] at hg
      exact hrest g (List.mem_of_mem_tail hg)
    | cons g' gs =>
      rw [hn, List.cons_append, List.tail_cons, List.mem_append] at hg
      rcases hg with hg | hg
      · rcases q.acts.lower g (by rw [hn]; exact hg) with hc | ⟨h0, rfl⟩
        · exact hc
        · exact h.crit_none q.onTop h0
      · exact hrest g hg
  · rw [q.frames k hk fun r hs he => hr ⟨r, hs, he⟩] at hg
    exact h.lower k g hg

theorem lk (q : Quiet s s' c f rest a) (h : Placed s) : ∀ k, ∀ g ∈ s'.frames k, g.LkOk := by
  intro k g hg
  rcases q.mem_frames hg with hg | ⟨-, hg⟩ | ⟨r, -, -, rfl⟩
  · exact h.lk k g hg
  · exact q.acts.lk g hg
  · trivial

/-- scheduler()'s stack while scheduler() waits in swtch. -/
theorem frames_cpu (q : Quiet s s' c f rest a) {d : Fin NCPU} (hd : (s.cpu c).cur ≠ .cpu d) :
    s'.frames (.cpu d) = s.frames (.cpu d) :=
  q.frames _ (Ne.symm hd) fun _ _ he => by cases he

/-- With `c->proc` set, scheduler() is about to clear it. -/
theorem no_proc (q : Quiet s s' c f rest a) (h : Placed s) (hc : (s.cpu c).cur = .cpu c) : (s.cpu c).proc = none := by
  rcases h.place c with ⟨-, hback⟩ | ⟨p, hcur, -⟩
  · cases hp : (s.cpu c).proc with
    | none => rfl
    | some i =>
      have hf := q.onTop
      rw [hc, hback i hp, List.cons.injEq] at hf
      rcases q.acts.leaves q.stay with ⟨hb, -⟩ | h0
      · exact absurd hf.1.symm (hb i)
      · have hcrit := h.crit_none q.onTop h0
        rw [← hf.1] at hcrit
        cases hcrit
  · rw [hc] at hcur
    cases hcur

theorem place (q : Quiet s s' c f rest a) (h : Placed s) : ∀ d,
    ((s'.cpu d).cur = .cpu d ∧ ∀ i, (s'.cpu d).proc = some i → s'.frames (.cpu d) = [.back i]) ∨
    ∃ p, (s'.cpu d).cur = .kstack p ∧ (s'.cpu d).proc = some p ∧ (s'.cpu d).context = .cpu d ∧
      s'.frames (.cpu d) = [.back p] := by
  intro d
  obtain ⟨hcur, hproc, hctx⟩ := q.cpu d
  rw [hcur, hproc, hctx]
  by_cases hd : (s.cpu c).cur = .cpu d
  · obtain rfl := h.cur_cpu hd
    refine .inl ⟨hd, fun i hi => ?_⟩
    rw [q.no_proc h hd] at hi
    cases hi
  · rw [q.frames_cpu hd]
    exact h.place d

theorem shape (q : Quiet s s' c f rest a) (h : Placed s) : ∀ d, ∃ pre g, s'.frames (.cpu d) = pre ++ [g] ∧ g.IsSched ∧
    (∀ x ∈ pre, x.IsIntr) ∧ (pre ≠ [] → g.crit = none) := by
  intro d
  by_cases hd : (s.cpu c).cur = .cpu d
  · obtain rfl := h.cur_cpu hd
    have hnone := q.no_proc h hd
    obtain ⟨pre, g, hfr, hsched, hintr, hcrit⟩ := h.shape d
    have hst := q.stack
    have hon := q.onTop
    rw [hd] at hst hon
    rw [hst]
    rw [hon] at hfr
    cases pre with
    | nil =>
      obtain ⟨rfl, rfl⟩ := List.cons.inj hfr
      rcases q.acts.sched hsched with ⟨g', hn, hg'⟩ | ⟨h0, i, hn, hi⟩
      · exact ⟨[], g', by rw [hn]; rfl, hg', by simp, by simp⟩
      · rcases hi with rfl | ⟨-, hp⟩
        · exact ⟨[.handler], f, by rw [hn]; rfl, hsched, by simp, fun _ => h.crit_none q.onTop h0⟩
        · exact absurd hnone hp
    | cons x pre =>
      obtain ⟨rfl, rfl⟩ := List.cons.inj hfr
      refine ⟨a.next ++ pre, g, by simp, hsched, ?_, fun _ => hcrit (by simp)⟩
      intro x hx
      rcases List.mem_append.mp hx with hx | hx
      · rcases q.acts.intr (hintr f (by simp)) x hx with hx | ⟨-, -, hp⟩
        · exact hx
        · exact absurd hnone hp
      · exact hintr x (List.mem_cons_of_mem _ hx)
  · rw [q.frames_cpu hd]
    exact h.shape d

theorem mine (q : Quiet s s' c f rest a) (h : Placed s) : ∀ p, ∀ g ∈ s'.frames (.kstack p),
    ¬ g.IsSched ∧ ∀ r, g.self = some r → r = p := by
  intro p g hg
  rcases q.mem_frames hg with hg | ⟨hk, hg⟩ | ⟨r, -, he, rfl⟩
  · exact h.mine p g hg
  · have hf := h.mine p f (by rw [hk, q.onTop]; simp)
    refine ⟨q.acts.kernel hf.1 g hg, fun r hr => ?_⟩
    rcases q.acts.self g hg r hr with hr | hr
    · exact hf.2 r hr
    · unfold St.myproc at hr
      rw [h.cur_kstack hk.symm, Option.some.injEq] at hr
      exact hr.symm
  · rw [Stack.kstack.injEq] at he
    subst he
    simp

/-- A process whose entry keeps its state and context is where it was. -/
theorem state_keep (q : Quiet s s' c f rest a) (h : Placed s) {p : Fin NPROC} (hs : a.start ≠ some p)
    (hstate : (s'.proc p).state = (s.proc p).state) (hctx : (s'.proc p).context = (s.proc p).context) : s'.StateOk p := by
  have hold := h.state p
  have hcpu : ∀ d, (s'.cpu d).cur = (s.cpu d).cur := fun d => (q.cpu d).1
  by_cases hp : ∃ d, (s.cpu d).cur = .kstack p
  · obtain ⟨d, hd⟩ := hp
    rcases h.running hd with hr | ⟨hz, gs, hgs⟩
    · unfold St.StateOk
      rw [hstate, hr]
      exact ⟨d, by rw [hcpu, hd]⟩
    · unfold St.StateOk
      rw [hstate, hz]
      intro e he
      rw [hcpu] at he
      refine ⟨gs, ?_⟩
      by_cases hec : e = c
      · -- sched() is the only way on from here
        subst hec
        have hon := q.onTop
        rw [he, hgs, List.cons.injEq] at hon
        rcases q.acts.leaves q.stay with ⟨-, hne⟩ | h0
        · exact absurd hon.1.symm (hne p)
        · have hcrit := h.crit_none q.onTop h0
          rw [← hon.1] at hcrit
          cases hcrit
      · rw [← he, q.other h hec, he, hgs]
  · have hp : ∀ d, (s.cpu d).cur ≠ .kstack p := fun d hd => hp ⟨d, hd⟩
    unfold St.StateOk at hold ⊢
    rw [hstate, hctx, q.idle hp hs]
    simp only [hcpu]
    exact hold

/-- A process that a fork on `c` has made so far does not run. -/
theorem made_idle (h : Placed s) {k : Stack} {r : Fin NPROC} (hr : r ∈ owned (s.frames k)) (d : Fin NCPU) :
    (s.cpu d).cur ≠ .kstack r :=
  h.not_running (by rw [(h.made k r hr).1]; simp) (by rw [(h.made k r hr).1]; simp) d

theorem mem_owned (q : Quiet s s' c f rest a) {r : Fin NPROC} (hr : f.owns = some r) : r ∈ owned (s.frames (s.cpu c).cur) := by
  rw [q.onTop]
  exact List.mem_filterMap.mpr ⟨f, by simp, hr⟩

theorem state (q : Quiet s s' c f rest a) (h : Placed s) : ∀ p, s'.StateOk p := by
  intro p
  have hcpu : ∀ d, (s'.cpu d).cur = (s.cpu d).cur := fun d => (q.cpu d).1
  -- every entry but the written one
  have hkeep : ∀ r v, a.write = some (r, v) → a.start ≠ some p → p ≠ r → s'.StateOk p := by
    intro r v hw hs hne
    have hp : s'.proc p = s.proc p := q.proc p fun v' hw' => by
      rw [hw, Option.some.injEq, Prod.mk.injEq] at hw'
      exact hne hw'.1.symm
    exact q.state_keep h hs (by rw [hp]) (by rw [hp])
  cases q.change with
  | none hw hs ho =>
    have hp : s'.proc p = s.proc p := q.proc p fun v hw' => by
      rw [hw] at hw'
      cases hw'
    exact q.state_keep h (by rw [hs]; simp) (by rw [hp]) (by rw [hp])
  | keep r v hw hs hst hctx ho =>
    by_cases hpr : p = r
    · subst hpr
      exact q.state_keep h (by rw [hs]; simp) (by rw [q.written p v hw, hst]) (by rw [q.written p v hw, hctx])
    · exact hkeep r v hw (by rw [hs]; simp) hpr
  | wake r v hw hs hsl hst hctx ho =>
    by_cases hpr : p = r
    · subst hpr
      have hold := h.state p
      unfold St.StateOk at hold ⊢
      rw [hsl] at hold
      rw [q.written p v hw, hst, hctx, q.idle hold.1 (by rw [hs]; simp)]
      simp only [hcpu]
      exact hold
    · exact hkeep r v hw (by rw [hs]; simp) hpr
  | alloc r v hw hs hun hst hctx hf ho =>
    by_cases hpr : p = r
    · subst hpr
      unfold St.StateOk
      rw [q.written p v hw, hst]
      intro d
      rw [hcpu]
      exact q.unused p hs d
    · exact hkeep r v hw (by rw [hs]; simpa using Ne.symm hpr) hpr
  | drop r v hw hs hf hst ho =>
    by_cases hpr : p = r
    · subst hpr
      unfold St.StateOk
      rw [q.written p v hw, hst]
      intro d
      rw [hcpu]
      exact made_idle h (q.mem_owned hf) d
    · exact hkeep r v hw (by rw [hs]; simp) hpr
  | ready r v hw hs hf hst hctx ho =>
    by_cases hpr : p = r
    · subst hpr
      have hidle := made_idle h (q.mem_owned hf)
      obtain ⟨-, hm, hfr⟩ := h.made _ p (q.mem_owned hf)
      unfold St.StateOk
      rw [q.written p v hw, hst, hctx, hm, q.idle hidle (by rw [hs]; simp), hfr]
      simp only [hcpu]
      exact ⟨hidle, trivial, .forkret p, [], rfl, rfl⟩
    · exact hkeep r v hw (by rw [hs]; simp) hpr
  | reap r v hw hs hz hst hf hne ho =>
    by_cases hpr : p = r
    · subst hpr
      unfold St.StateOk
      rw [q.written p v hw, hst]
      intro d hd
      rw [hcpu] at hd
      -- a zombie that still runs has its own lock
      rcases h.running hd with hr | ⟨-, gs, hgs⟩
      · rw [hz] at hr
        cases hr
      · have hlock := h.top d (.exit4 p) gs (by rw [hd, hgs]) p rfl
        rw [h.top c f rest q.onTop p hf, Option.some.injEq] at hlock
        subst hlock
        have hon := q.onTop
        rw [hd, hgs, List.cons.injEq] at hon
        exact hne hon.1.symm
    · exact hkeep r v hw (by rw [hs]; simp) hpr
  | exits r v hw hs hst hf hcrit hn ho =>
    by_cases hpr : p = r
    · subst hpr
      unfold St.StateOk
      rw [q.written p v hw, hst]
      intro d hd
      have hstack := q.stack
      rw [h.cur_self q.onTop hf, hn] at hstack
      exact ⟨rest, hstack⟩
    · exact hkeep r v hw (by rw [hs]; simp) hpr

/-! The processes that forks are making. -/

theorem owned_append (fs gs : List Frame) : owned (fs ++ gs) = owned fs ++ owned gs := List.filterMap_append

theorem owned_onTop (q : Quiet s s' c f rest a) : owned (s.frames (s.cpu c).cur) = owned [f] ++ owned rest := by
  rw [q.onTop, ← owned_append]
  rfl

theorem owned_stack (q : Quiet s s' c f rest a) : owned (s'.frames (s.cpu c).cur) = owned a.next ++ owned rest := by
  rw [q.stack, owned_append]

/-- Forks on other stacks are making what they were. -/
theorem owned_other (q : Quiet s s' c f rest a) {k : Stack} (hk : k ≠ (s.cpu c).cur) :
    owned (s'.frames k) = owned (s.frames k) ∨ ∃ r, a.start = some r ∧ k = .kstack r ∧ owned (s'.frames k) = [] := by
  by_cases hr : ∃ r, a.start = some r ∧ k = .kstack r
  · obtain ⟨r, hr, rfl⟩ := hr
    exact .inr ⟨r, hr, rfl, by rw [q.fresh r hr]; rfl⟩
  · exact .inl (by rw [q.frames k hk fun r hs he => hr ⟨r, hs, he⟩])

/-- What a fork is making now, it was making before, or it has just been allocated. -/
theorem owned_mem (q : Quiet s s' c f rest a) {k : Stack} {np : Fin NPROC} (hnp : np ∈ owned (s'.frames k)) :
    np ∈ owned (s.frames k) ∨ k = (s.cpu c).cur ∧ a.start = some np := by
  by_cases hk : k = (s.cpu c).cur
  · rw [hk, q.owned_stack, List.mem_append] at hnp
    rw [hk, q.owned_onTop, List.mem_append]
    rcases hnp with hnp | hnp
    · cases q.change with
      | none _ _ ho => exact .inl (.inl (ho ▸ hnp))
      | keep _ _ _ _ _ _ ho => exact .inl (.inl (ho ▸ hnp))
      | wake _ _ _ _ _ _ _ ho => exact .inl (.inl (ho ▸ hnp))
      | alloc r v hw hs _ _ _ _ ho =>
        rw [ho, List.mem_singleton] at hnp
        exact .inr ⟨rfl, hnp ▸ hs⟩
      | drop _ _ _ _ _ _ ho =>
        rw [ho] at hnp
        cases hnp
      | ready _ _ _ _ _ _ _ ho =>
        rw [ho] at hnp
        cases hnp
      | reap _ _ _ _ _ _ _ _ ho => exact .inl (.inl (ho ▸ hnp))
      | exits _ _ _ _ _ _ _ hn =>
        rw [hn] at hnp
        cases hnp
    · exact .inl (.inr hnp)
  · rcases q.owned_other hk with ho | ⟨r, -, -, ho⟩
    · exact .inl (ho ▸ hnp)
    · rw [ho] at hnp
      cases hnp

/-- A slot that is not being made is made by no fork. -/
theorem fresh_owned (h : Placed s) {k : Stack} {np : Fin NPROC} (hu : (s.proc np).state = .UNUSED) :
    np ∉ owned (s.frames k) := by
  intro hnp
  have := (h.made k np hnp).1
  rw [hu] at this
  cases this

theorem start_unused (q : Quiet s s' c f rest a) {r : Fin NPROC} (hr : a.start = some r) :
    (s.proc r).state = .UNUSED ∧ (s'.proc r).state = .USED ∧ (s'.proc r).context = .kstack r := by
  cases q.change with
  | alloc r' v hw hs hun hst hctx hf ho =>
    rw [hr, Option.some.injEq] at hs
    subst hs
    rw [q.written r v hw]
    exact ⟨hun, hst, hctx⟩
  | none hw hs => exact absurd (hr.symm.trans hs) (by simp)
  | keep _ _ hw hs => exact absurd (hr.symm.trans hs) (by simp)
  | wake _ _ hw hs => exact absurd (hr.symm.trans hs) (by simp)
  | drop _ _ hw hs => exact absurd (hr.symm.trans hs) (by simp)
  | ready _ _ hw hs => exact absurd (hr.symm.trans hs) (by simp)
  | reap _ _ hw hs => exact absurd (hr.symm.trans hs) (by simp)
  | exits _ _ hw hs => exact absurd (hr.symm.trans hs) (by simp)

/-- A process that fork lets go of is made by no fork. -/
theorem let_go (q : Quiet s s' c f rest a) (h : Placed s) {r : Fin NPROC} (hf : f.owns = some r) (hn : owned a.next = [])
    (k : Stack) : r ∉ owned (s'.frames k) := by
  intro hr
  by_cases hk : k = (s.cpu c).cur
  · have hnd := h.once (s.cpu c).cur
    rw [q.owned_onTop, show owned [f] = [r] by simp only [owned, List.filterMap_cons, hf, List.filterMap_nil]] at hnd
    rw [hk, q.owned_stack, hn] at hr
    exact (List.nodup_cons.mp hnd).1 hr
  · rcases q.owned_mem hr with hr | ⟨hc, -⟩
    · exact hk (h.apart _ _ r hr (q.mem_owned hf))
    · exact hk hc

theorem made (q : Quiet s s' c f rest a) (h : Placed s) : ∀ k, ∀ np ∈ owned (s'.frames k),
    (s'.proc np).state = .USED ∧ (s'.proc np).context = .kstack np ∧ s'.frames (.kstack np) = [.forkret np] := by
  intro k np hnp
  rcases q.owned_mem hnp with hold | ⟨-, hs⟩
  · obtain ⟨hst, hctx, hfr⟩ := h.made k np hold
    have hs : a.start ≠ some np := fun hs => by
      rw [(q.start_unused hs).1] at hst
      cases hst
    rw [q.idle (made_idle h hold) hs, hfr]
    -- the entry that is written is no other than with a state of its own
    have hkeep : (∀ r v, a.write = some (r, v) → np = r → v.state = (s.proc r).state ∧ v.context = (s.proc r).context) →
        (s'.proc np).state = .USED ∧ (s'.proc np).context = .kstack np ∧ [Frame.forkret np] = [.forkret np] := by
      intro hw
      by_cases hwr : ∃ v, a.write = some (np, v)
      · obtain ⟨v, hv⟩ := hwr
        obtain ⟨h1, h2⟩ := hw np v hv rfl
        rw [q.written np v hv, h1, h2]
        exact ⟨hst, hctx, rfl⟩
      · rw [q.proc np fun v hv => hwr ⟨v, hv⟩]
        exact ⟨hst, hctx, rfl⟩
    apply hkeep
    rintro r v hw rfl
    cases q.change with
    | none hw' => exact absurd (hw.symm.trans hw') (by simp)
    | keep _ _ hw' hs hst' hctx' => 
      obtain ⟨rfl, rfl⟩ := Prod.mk.inj (Option.some.inj (hw.symm.trans hw'))
      exact ⟨hst', hctx'⟩
    | wake _ _ hw' hs hst' =>
      obtain ⟨rfl, rfl⟩ := Prod.mk.inj (Option.some.inj (hw.symm.trans hw'))
      exact absurd (hst.symm.trans hst') (by simp)
    | alloc _ _ hw' hs' =>
      obtain ⟨rfl, rfl⟩ := Prod.mk.inj (Option.some.inj (hw.symm.trans hw'))
      exact absurd hs' hs
    | drop _ _ hw' hs hf hst' ho =>
      obtain ⟨rfl, rfl⟩ := Prod.mk.inj (Option.some.inj (hw.symm.trans hw'))
      exact absurd hnp (q.let_go h hf ho k)
    | ready _ _ hw' hs hf hst' hctx' ho =>
      obtain ⟨rfl, rfl⟩ := Prod.mk.inj (Option.some.inj (hw.symm.trans hw'))
      exact absurd hnp (q.let_go h hf ho k)
    | reap _ _ hw' hs hz =>
      obtain ⟨rfl, rfl⟩ := Prod.mk.inj (Option.some.inj (hw.symm.trans hw'))
      exact absurd (hst.symm.trans hz) (by simp)
    | exits _ _ hw' hs hz hf =>
      obtain ⟨rfl, rfl⟩ := Prod.mk.inj (Option.some.inj (hw.symm.trans hw'))
      exact absurd (h.cur_self q.onTop hf) (made_idle h hold c)
  · obtain ⟨-, hst, hctx⟩ := q.start_unused hs
    exact ⟨hst, hctx, q.fresh np hs⟩

theorem once (q : Quiet s s' c f rest a) (h : Placed s) : ∀ k, (owned (s'.frames k)).Nodup := by
  intro k
  by_cases hk : k = (s.cpu c).cur
  · have hnd := h.once (s.cpu c).cur
    rw [q.owned_onTop] at hnd
    rw [hk, q.owned_stack]
    have hrest := (List.nodup_append.mp hnd).2.1
    cases q.change with
    | alloc r v hw hs hun hst hctx hf ho =>
      rw [ho]
      refine List.nodup_cons.mpr ⟨fun hr => fresh_owned h (k := (s.cpu c).cur) hun ?_, hrest⟩
      rw [q.owned_onTop]
      exact List.mem_append_right _ hr
    | none _ _ ho => rwa [ho]
    | keep _ _ _ _ _ _ ho => rwa [ho]
    | wake _ _ _ _ _ _ _ ho => rwa [ho]
    | drop _ _ _ _ _ _ ho => rwa [ho]
    | ready _ _ _ _ _ _ _ ho => rwa [ho]
    | reap _ _ _ _ _ _ _ _ ho => rwa [ho]
    | exits _ _ _ _ _ _ _ hn => rwa [hn]
  · rcases q.owned_other hk with ho | ⟨r, -, -, ho⟩
    · rw [ho]
      exact h.once k
    · rw [ho]
      exact List.nodup_nil

theorem apart (q : Quiet s s' c f rest a) (h : Placed s) : ∀ k k' np, np ∈ owned (s'.frames k) → np ∈ owned (s'.frames k') →
    k = k' := by
  intro k k' np hk hk'
  rcases q.owned_mem hk with hold | ⟨rfl, hs⟩ <;> rcases q.owned_mem hk' with hold' | ⟨rfl, hs'⟩
  · exact h.apart k k' np hold hold'
  · exact absurd hold (fresh_owned h (q.start_unused hs').1)
  · exact absurd hold' (fresh_owned h (q.start_unused hs).1)
  · rfl

theorem placed (q : Quiet s s' c f rest a) (h : Placed s) : Placed s' where
  locks := q.locks
  top := q.top h
  lower := q.lower h
  lk := q.lk h
  place := q.place h
  shape := q.shape h
  mine := q.mine h
  alone := fun d e he => h.alone d e (by rw [← (q.cpu d).1, ← (q.cpu e).1, he])
  state := q.state h
  made := q.made h
  once := q.once h
  apart := q.apart h

end Quiet

end Xv6.Sched
