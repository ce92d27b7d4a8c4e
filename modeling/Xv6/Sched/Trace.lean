/-
A step of the machine as later results use it: what is on the stack after it, which entry
of the process table it may have written, and which stack its processor is on.
-/
import Xv6.Sched.Handoff

namespace Xv6.Sched

open Lib

/-- Which stack a processor goes on with. -/
inductive Goes (s s' : St) (c : Fin NCPU) (f : Frame) : Prop where
  | stay : (s'.cpu c).cur = (s.cpu c).cur → (s'.cpu c).proc = (s.cpu c).proc → Goes s s' c f
  | clear (i : Fin NPROC) : f = .back i → (s.cpu c).cur = .cpu c → (s'.cpu c).cur = .cpu c → (s'.cpu c).proc = none →
    s'.frames (.cpu c) = [.scan (i + 1)] → Goes s s' c f
  | run (i : Fin NPROC) (g : Frame) (gs : List Frame) : f = .chosen i → (s.cpu c).cur = .cpu c → (s'.cpu c).cur = .kstack i →
    (s'.cpu c).proc = some i → s'.frames (.kstack i) = g :: gs → g.Resumes i → Goes s s' c f
  | sched (p : Fin NPROC) : f.self = some p → (s.cpu c).cur = .kstack p → (s'.cpu c).cur = .cpu c →
    (s'.cpu c).proc = (s.cpu c).proc → s'.frames (.cpu c) = [.back p] → s.lock (.proc p) = some c → (s.cpu c).noff = 1 →
    s'.lock = s.lock → Goes s s' c f

/-- A step that `f` on top of its processor's stack makes. -/
structure Stepped (s s' s1 : St) (lb : Label) (f : Frame) (rest : List Frame) (a : Act) : Prop where
  onTop : s.frames (s.cpu lb.cpu).cur = f :: rest
  act : labelAct s f lb = .ok a
  acts : Local s lb.cpu f a
  op : s.doOp lb.cpu a.op = .ok s1
  lock : s'.lock = s1.lock
  log : s'.log = s1.takeNote a.note
  initproc : s'.initproc = s.initproc
  noff : ∀ d, (s'.cpu d).noff = (s1.cpu d).noff
  other : ∀ d, d ≠ lb.cpu → s'.cpu d = s.cpu d
  goes : Goes s s' lb.cpu f
  empty : ∀ q, a.start = some q → (s.proc q).state = .UNUSED
  unused : ∀ q, a.start = some q → ∀ d, (s.cpu d).cur ≠ .kstack q
  fresh : ∀ q, a.start = some q → s'.frames (.kstack q) = [.forkret q]
  stack : s'.frames (s.cpu lb.cpu).cur = a.next ++ rest
  frames : ∀ k, k ≠ (s.cpu lb.cpu).cur → (∀ q, a.start = some q → k ≠ .kstack q) → s'.frames k = s.frames k
  proc : ∀ p, (∀ v, a.write ≠ some (p, v)) → ∃ k, s'.proc p = { s.proc p with context := k }
  written : ∀ p v, a.write = some (p, v) → ∃ k, s'.proc p = { v with context := k }

/-- An operation of a processor is nobody else's. -/
theorem doOp_other {s s1 : St} {c : Fin NCPU} {op : Op} (he : s.doOp c op = .ok s1) {d : Fin NCPU} (hd : d ≠ c) :
    s1.cpu d = s.cpu d := by
  cases op with
  | none =>
    cases he
    rfl
  | acquire l =>
    obtain ⟨-, rfl⟩ := acquire_ok he
    simp [St.setCpu, hd]
  | release l =>
    obtain ⟨-, rfl⟩ := release_ok he
    simp [St.setCpu, hd]

/-- A process that sched() has left goes on where it says; scheduler() waits on the processor's stack. -/
theorem Placed.goes {s s1 s' : St} {c : Fin NCPU} {f : Frame} {rest : List Frame} {a : Act} (h : Placed s)
    (hf : s.frames (s.cpu c).cur = f :: rest) (hop : s.doOp c a.op = .ok s1) (hch : a.go = .stay ∨ Switch s f a)
    (hsw : (s1.put (s.cpu c).cur rest a).switch c a.go = .ok s') : Goes s s' c f := by
  obtain ⟨-, hframes, -, hcpu⟩ := doOp_frame hop
  obtain ⟨hfr', hlk', -⟩ := switch_frame hsw
  rcases hch with hgo | hsw'
  · rw [hgo] at hsw
    cases hsw
    exact .stay (hcpu c).1 (hcpu c).2.1
  · cases hsw' with
    | run i hfi hr hai =>
      subst hfi hai
      cases hop
      have hst := h.state i
      unfold St.StateOk at hst
      rw [hr] at hst
      obtain ⟨-, hctx, g, gs, hgs, hres⟩ := hst
      have hcur := (h.cur_sched hf trivial).1
      simp only [St.switch, Outcome.ok.injEq] at hsw
      refine .run i g gs rfl hcur ?_ ?_ ?_ hres
      · rw [← hsw]
        simp [St.setCpu, St.put, hctx]
      · rw [← hsw]
        simp [St.setCpu]
      · rw [hfr', ← hgs]
        simp [St.put, hcur]
    | clear i hfi hai =>
      subst hfi hai
      obtain ⟨hcur, rfl⟩ := h.cur_sched hf trivial
      simp only [St.switch, Outcome.ok.injEq] at hsw
      refine .clear i rfl hcur ?_ ?_ ?_
      · rw [← hsw]
        simp [St.setCpu, St.put, (hcpu c).1, hcur]
      · rw [← hsw]
        simp [St.setCpu]
      · rw [hfr']
        simp [St.put, hcur]
    | sched p g hgo hopn hstart hself hcrit hn hof hog hw =>
      rw [hopn] at hop
      cases hop
      rw [hgo] at hsw
      have hcur := h.cur_self hf hself
      rcases h.place c with ⟨hc, -⟩ | ⟨q, hc, hq, hctx, hback⟩
      · rw [hcur] at hc
        cases hc
      rw [hcur, Stack.kstack.injEq] at hc
      subst hc
      unfold St.switch at hsw
      rw [show (s.put (s.cpu c).cur rest a).myproc c = some p from hq] at hsw
      simp only at hsw
      split at hsw
      · cases hsw
      split at hsw
      · cases hsw
      next hnoff =>
      split at hsw
      · cases hsw
      simp only [Outcome.ok.injEq] at hsw
      refine .sched p hself hcur ?_ ?_ ?_ (h.top c f rest hf p hcrit) ?_ hlk'
      · rw [← hsw]
        simp [St.setCpu, St.setProc, St.put, hctx]
      · rw [← hsw]
        simp [St.setCpu, St.setProc, St.put]
      · rw [hfr', ← hback]
        simp [St.put, hstart, hcur]
      · simpa [St.put] using hnoff

theorem Placed.stepped {s s' : St} {lb : Label} (h : Placed s) (he : step s lb = .ok s') :
    ∃ f rest a s1, Stepped s s' s1 lb f rest a := by
  obtain ⟨f, rest, a, s1, hf, ha, hop, hsw⟩ := step_ok he
  have hl := labelAct_local ha (h.lk _ f (by rw [hf]; simp))
  obtain ⟨hproc, hframes, hinit, -⟩ := doOp_frame hop
  obtain ⟨hfr', hlk', hlog', hinit', hnoff', hcpu', hproc'⟩ := switch_frame hsw
  have hempty : ∀ q, a.start = some q → (s.proc q).state = .UNUSED := by
    intro q hq
    rcases hl.change with ⟨hgo, hch⟩ | hsw'
    · exact ((h.quiet hf hl hop hgo hch).start_unused hq).1
    · cases hsw' with
      | run i hfi hr hai =>
        subst hai
        cases hq
      | clear i hfi hai =>
        subst hai
        cases hq
      | sched p g hgo hopn hs => exact absurd (hq.symm.trans hs) (by simp)
  have hstart : ∀ q, a.start = some q → ∀ d, (s.cpu d).cur ≠ .kstack q := fun q hq =>
    h.not_running (by rw [hempty q hq]; simp) (by rw [hempty q hq]; simp)
  refine ⟨f, rest, a, s1, hf, ha, hl, hop, hlk', hlog', hinit'.trans hinit, hnoff', fun d hd => ?_,
    h.goes hf hop (hl.change.imp And.left id) hsw, hempty, hstart, fun q hq => ?_, ?_, fun k hk hq => ?_, fun p hw => ?_, fun p v hw => ?_⟩
  · rw [hcpu' d hd]
    exact doOp_other hop hd
  · rw [hfr']
    simp [St.put, hq]
  · rw [hfr']
    unfold St.put
    cases hs : a.start with
    | none => simp
    | some q => simp [hstart q hs lb.cpu]
  · rw [hfr']
    unfold St.put
    cases hs : a.start with
    | none => simp [hk, hframes]
    | some q => simp [hk, hq q hs, hframes]
  · obtain ⟨k, hk⟩ := hproc' p
    refine ⟨k, ?_⟩
    rw [hk]
    unfold St.put
    cases hs : a.write with
    | none => simp [hproc]
    | some pv =>
      have hne : p ≠ pv.1 := fun he => hw pv.2 (by rw [hs, he])
      simp [hne, hproc]
  · obtain ⟨k, hk⟩ := hproc' p
    refine ⟨k, ?_⟩
    rw [hk]
    simp [St.put, hw]

namespace Stepped

variable {s s' s1 : St} {lb : Label} {f : Frame} {rest : List Frame} {a : Act}

theorem lock_iff (t : Stepped s s' s1 lb f rest a) (l : Lock) (d : Fin NCPU) :
    s'.lock l = some d ↔ (a.op = .acquire l ∧ d = lb.cpu) ∨ (s.lock l = some d ∧ a.op ≠ .release l) := by
  rw [t.lock]
  exact doOp_lock t.op

/-- Others keep their locks. -/
theorem lock_other (t : Stepped s s' s1 lb f rest a) {d : Fin NCPU} (hd : d ≠ lb.cpu) {l : Lock} :
    s'.lock l = some d ↔ s.lock l = some d := by
  rw [t.lock_iff]
  constructor
  · rintro (⟨-, he⟩ | ⟨hl, -⟩)
    · exact absurd he hd
    · exact hl
  · refine fun hl => .inr ⟨hl, fun hr => hd ?_⟩
    have hop := t.op
    rw [hr] at hop
    rw [(release_ok hop).1, Option.some.injEq] at hl
    exact hl.symm

/-- Others' stacks are left alone. -/
theorem frames_other (t : Stepped s s' s1 lb f rest a) (h : Placed s) {d : Fin NCPU} (hd : d ≠ lb.cpu) :
    s'.frames (s'.cpu d).cur = s.frames (s.cpu d).cur := by
  rw [t.other d hd]
  exact t.frames _ (fun he => hd (h.alone _ _ he)) fun q hq => t.unused q hq d

/-- A frame is on a stack the step leaves alone, or was below the top, or the step has put it there. -/
theorem mem_stack (t : Stepped s s' s1 lb f rest a) {k : Stack} {g : Frame} (hg : g ∈ s'.frames k) :
    (k ≠ (s.cpu lb.cpu).cur ∧ g ∈ s.frames k) ∨ (k = (s.cpu lb.cpu).cur ∧ (g ∈ a.next ∨ g ∈ rest)) ∨
      ∃ r, a.start = some r ∧ k = .kstack r ∧ g = .forkret r := by
  by_cases hr : ∃ r, a.start = some r ∧ k = .kstack r
  · obtain ⟨r, hr, rfl⟩ := hr
    rw [t.fresh r hr, List.mem_singleton] at hg
    exact .inr (.inr ⟨r, hr, rfl, hg⟩)
  by_cases hk : k = (s.cpu lb.cpu).cur
  · rw [hk, t.stack, List.mem_append] at hg
    exact .inr (.inl ⟨hk, hg⟩)
  · rw [t.frames k hk fun r hs he => hr ⟨r, hs, he⟩] at hg
    exact .inl ⟨hk, hg⟩

/-- A frame was there, or the step has put it there. -/
theorem mem_frames (t : Stepped s s' s1 lb f rest a) {k : Stack} {g : Frame} (hg : g ∈ s'.frames k) :
    g ∈ s.frames k ∨ (k = (s.cpu lb.cpu).cur ∧ g ∈ a.next) ∨ ∃ r, a.start = some r ∧ k = .kstack r ∧ g = .forkret r := by
  rcases t.mem_stack hg with ⟨-, hg⟩ | ⟨hk, hg | hg⟩ | hr
  · exact .inl hg
  · exact .inr (.inl ⟨hk, hg⟩)
  · refine .inl ?_
    rw [hk, t.onTop]
    exact List.mem_cons_of_mem _ hg
  · exact .inr (.inr hr)

end Stepped

/-! ## The record -/

/-- What an operation puts on record: when a lock was acquired, and by whom. -/
theorem doOp_log {s s1 : St} {c : Fin NCPU} {op : Op} (he : s.doOp c op = .ok s1) :
    s1.log.completed = s.log.completed ∧ s1.log.exited = s.log.exited ∧ s1.log.reaped = s.log.reaped ∧
    s1.log.nextuid = s.log.nextuid ∧ s.log.clock ≤ s1.log.clock ∧
    (∀ l, op = .acquire l → s.log.clock < s1.log.clock ∧ s1.log.lockTime l = s.log.clock ∧ s1.log.lockBy l = s.myproc c) ∧
    ∀ l, op ≠ .acquire l → s1.log.lockTime l = s.log.lockTime l ∧ s1.log.lockBy l = s.log.lockBy l := by
  cases op with
  | none =>
    cases he
    simp
  | release l =>
    obtain ⟨-, rfl⟩ := release_ok he
    simp [St.setCpu]
  | acquire l =>
    obtain ⟨-, rfl⟩ := acquire_ok he
    refine ⟨rfl, rfl, rfl, rfl, Nat.le_succ _, ?_, ?_⟩
    · rintro m ⟨⟩
      simp
    · intro m hm
      have hml : m ≠ l := fun he => hm (by rw [he])
      simp [hml]

end Xv6.Sched
