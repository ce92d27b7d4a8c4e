/-
The hand-off of a process between processors. p->lock is acquired on one side of swtch and
released on the other; what makes that safe is that a stack which nobody runs expects
exactly that lock, and that a processor which switches holds exactly that lock.
`handoff`: in every reachable state a kernel stack is run by at most one processor, and
while p->lock is free `p->state` says whether and where p runs.
-/
import Xv6.Sched.Placed

namespace Xv6.Sched

open Lib

/-! ## Steps that switch -/

/-- A step of `c` from one stack to another one, or to another process: what it has to leave. -/
structure Handover (s s' : St) (c : Fin NCPU) : Prop where
  locks : LocksOk s'
  lock : ∀ l d, d ≠ c → s.lock l = some d → s'.lock l = some d
  cpu : ∀ d, d ≠ c → s'.cpu d = s.cpu d
  frames : ∀ k, k ≠ (s.cpu c).cur → s'.frames k = s.frames k
  owned : owned (s'.frames (s.cpu c).cur) = owned (s.frames (s.cpu c).cur)
  lower : ∀ g ∈ (s'.frames (s.cpu c).cur).tail, g.crit = none
  lk : ∀ g ∈ s'.frames (s.cpu c).cur, g.LkOk
  mine : ∀ p, (s.cpu c).cur = .kstack p → ∀ f ∈ s'.frames (.kstack p), ¬ f.IsSched ∧ ∀ q, f.self = some q → q = p
  shape : (s.cpu c).cur = .cpu c → ∃ g, s'.frames (.cpu c) = [g] ∧ g.IsSched
  top : ∀ f rest, s'.frames (s'.cpu c).cur = f :: rest → ∀ q, f.crit = some q → s'.lock (.proc q) = some c
  place : ((s'.cpu c).cur = .cpu c ∧ ∀ i, (s'.cpu c).proc = some i → s'.frames (.cpu c) = [.back i]) ∨
    ∃ p, (s'.cpu c).cur = .kstack p ∧ (s'.cpu c).proc = some p ∧ (s'.cpu c).context = .cpu c ∧
      s'.frames (.cpu c) = [.back p]
  alone : ∀ d, d ≠ c → (s.cpu d).cur ≠ (s'.cpu c).cur
  made : ∀ p, (s.proc p).state = .USED → (s'.proc p).state = .USED ∧ (s'.proc p).context = (s.proc p).context
  state : ∀ p, s'.StateOk p

namespace Placed

variable {s s' : St} {c : Fin NCPU} {f : Frame} {rest : List Frame} {a : Act} {i : Fin NPROC}

theorem handover (h : Placed s) (v : Handover s s' c) : Placed s' := by
  have hne : ∀ d, d ≠ c → (s.cpu d).cur ≠ (s.cpu c).cur := fun d hd he => hd (h.alone d c he)
  have howned : ∀ k, Sched.owned (s'.frames k) = Sched.owned (s.frames k) := by
    intro k
    by_cases hk : k = (s.cpu c).cur
    · rw [hk, v.owned]
    · rw [v.frames k hk]
  refine ⟨v.locks, ?_, ?_, ?_, ?_, ?_, ?_, ?_, v.state, ?_, ?_, ?_⟩
  · intro d f rest hd q hq
    by_cases hdc : d = c
    · subst hdc
      exact v.top f rest hd q hq
    · rw [v.cpu d hdc, v.frames _ (hne d hdc)] at hd
      exact v.lock _ d hdc (h.top d f rest hd q hq)
  · intro k g hg
    by_cases hk : k = (s.cpu c).cur
    · subst hk
      exact v.lower g hg
    · rw [v.frames k hk] at hg
      exact h.lower k g hg
  · intro k g hg
    by_cases hk : k = (s.cpu c).cur
    · subst hk
      exact v.lk g hg
    · rw [v.frames k hk] at hg
      exact h.lk k g hg
  · intro d
    by_cases hdc : d = c
    · subst hdc
      exact v.place
    · rw [v.cpu d hdc, v.frames _ fun he => hdc (h.cur_cpu he.symm)]
      exact h.place d
  · intro d
    by_cases hd : .cpu d = (s.cpu c).cur
    · obtain rfl := h.cur_cpu hd.symm
      obtain ⟨g, hg, hs⟩ := v.shape hd.symm
      exact ⟨[], g, hg, hs, by simp, by simp⟩
    · rw [v.frames _ hd]
      exact h.shape d
  · intro p
    by_cases hp : .kstack p = (s.cpu c).cur
    · exact v.mine p hp.symm
    · rw [v.frames _ hp]
      exact h.mine p
  · intro d e hde
    by_cases hdc : d = c <;> by_cases hec : e = c
    · rw [hdc, hec]
    · rw [hdc, v.cpu e hec] at hde
      exact absurd hde.symm (v.alone e hec)
    · rw [hec, v.cpu d hdc] at hde
      exact absurd hde (v.alone d hdc)
    · rw [v.cpu d hdc, v.cpu e hec] at hde
      exact h.alone d e hde
  · intro k np hnp
    rw [howned] at hnp
    obtain ⟨h1, h2, h3⟩ := h.made k np hnp
    obtain ⟨h4, h5⟩ := v.made np h1
    rw [v.frames _ (Ne.symm (Quiet.made_idle h hnp c))]
    exact ⟨h4, h5.trans h2, h3⟩
  · intro k
    rw [howned]
    exact h.once k
  · intro k k' np hk hk'
    rw [howned] at hk hk'
    exact h.apart k k' np hk hk'

/-- A process that is not switched to or from is where it was. -/
theorem state_other (h : Placed s) {p : Fin NPROC} (hcur : ∀ d, (s'.cpu d).cur = .kstack p ↔ (s.cpu d).cur = .kstack p)
    (hproc : s'.proc p = s.proc p) (hfr : s'.frames (.kstack p) = s.frames (.kstack p)) : s'.StateOk p := by
  have hold := h.state p
  unfold St.StateOk at hold ⊢
  rw [hproc, hfr]
  simp only [ne_eq, hcur]
  exact hold

/-- scheduler() starts a process it has found RUNNABLE. -/
theorem run (h : Placed s) (hf : s.frames (s.cpu c).cur = .chosen i :: rest) (hr : (s.proc i).state = .RUNNABLE)
    (he : (s.put (s.cpu c).cur rest
      { next := [.back i], write := some (i, { s.proc i with state := .RUNNING }), go := .run i }).switch c (.run i) = .ok s') :
    Placed s' := by
  obtain ⟨hcur, rfl⟩ := h.cur_sched hf trivial
  have hlock := h.top c _ _ hf i rfl
  have hst := h.state i
  unfold St.StateOk at hst
  rw [hr] at hst
  obtain ⟨hidle, hctx, g, gs, hgs, hres⟩ := hst
  have hcrit : g.crit = some i := by cases g <;> simp_all [Frame.Resumes]
  -- the parts of the new state
  simp only [St.switch, Outcome.ok.injEq] at he
  have hlk : s'.lock = s.lock := by rw [← he]; rfl
  have hfr : ∀ k, k ≠ (s.cpu c).cur → s'.frames k = s.frames k := fun k hk => by
    rw [← he]
    simp [St.put, St.setCpu, hk]
  have hfc : s'.frames (s.cpu c).cur = [.back i] := by rw [← he]; simp [St.put, St.setCpu]
  have hoc : ∀ d, d ≠ c → s'.cpu d = s.cpu d := fun d hd => by rw [← he]; simp [St.put, St.setCpu, hd]
  have hcc : (s'.cpu c).cur = .kstack i ∧ (s'.cpu c).proc = some i ∧ (s'.cpu c).context = .cpu c ∧
      (s'.cpu c).noff = (s.cpu c).noff := by
    rw [← he]
    simp [St.put, St.setCpu, hctx, hcur]
  have hop : ∀ p, p ≠ i → s'.proc p = s.proc p := fun p hp => by rw [← he]; simp [St.put, St.setCpu, hp]
  have hpi : (s'.proc i).state = .RUNNING := by rw [← he]; simp [St.put, St.setCpu]
  refine h.handover (c := c) ⟨?_, fun l d _ hd => by rw [hlk, hd], hoc, hfr, by rw [hfc, hf]; rfl, by rw [hfc]; simp,
    by rw [hfc]; simp, ?_, fun _ => ⟨.back i, by rw [← hcur, hfc], trivial⟩, ?_, .inr ⟨i, hcc.1, hcc.2.1, hcc.2.2.1, ?_⟩,
    fun d _ => by rw [hcc.1]; exact hidle d, ?_, ?_⟩
  · refine h.locks.congr hlk fun d => ?_
    by_cases hd : d = c
    · rw [hd, hcc.2.2.2]
    · rw [hoc d hd]
  · intro p hp
    rw [hcur] at hp
    cases hp
  · intro f rest hd q hq
    rw [hcc.1, hfr _ (by rw [hcur]; simp), hgs, List.cons.injEq] at hd
    rw [← hd.1, hcrit, Option.some.injEq] at hq
    rw [hlk, ← hq, hlock]
  · rw [← hcur, hfc]
  · intro p hp
    have hpi : p ≠ i := fun he => by
      rw [he, hr] at hp
      cases hp
    rw [hop p hpi]
    exact ⟨hp, rfl⟩
  · intro p
    by_cases hp : p = i
    · subst hp
      unfold St.StateOk
      rw [hpi]
      exact ⟨c, hcc.1⟩
    · refine h.state_other (fun d => ?_) (hop p hp) (hfr _ (by rw [hcur]; simp))
      by_cases hdc : d = c
      · rw [hdc, hcc.1, hcur]
        simpa using Ne.symm hp
      · rw [hoc d hdc]

/-- scheduler() is back from a process. -/
theorem clear {s1 : St} (h : Placed s) (hf : s.frames (s.cpu c).cur = .back i :: rest) (hop : s.doOp c (.release (.proc i)) = .ok s1)
    (he : (s1.put (s.cpu c).cur rest { op := .release (.proc i), next := [.scan (i + 1)], go := .clear }).switch c .clear = .ok s') :
    Placed s' := by
  obtain ⟨hcur, rfl⟩ := h.cur_sched hf trivial
  obtain ⟨hproc, hframes, -, hcpu⟩ := doOp_frame hop
  have hlocks := h.locks.doOp hop
  simp only [St.switch, Outcome.ok.injEq] at he
  have hlk : s'.lock = s1.lock := by rw [← he]; rfl
  have hfr : ∀ k, k ≠ (s.cpu c).cur → s'.frames k = s.frames k := fun k hk => by
    rw [← he]
    simp [St.put, St.setCpu, hk, hframes]
  have hfc : s'.frames (s.cpu c).cur = [.scan (i + 1)] := by rw [← he]; simp [St.put, St.setCpu]
  have hoc : ∀ d, d ≠ c → s'.cpu d = s.cpu d := fun d hd => by
    obtain ⟨-, rfl⟩ := release_ok hop
    rw [← he]
    simp [St.put, St.setCpu, hd]
  have hcc : (s'.cpu c).cur = .cpu c ∧ (s'.cpu c).proc = none ∧ (s'.cpu c).noff = (s1.cpu c).noff := by
    rw [← he]
    simp [St.put, St.setCpu, (hcpu c).1, hcur]
  have hnoff : ∀ d, (s'.cpu d).noff = (s1.cpu d).noff := by
    intro d
    by_cases hd : d = c
    · rw [hd, hcc.2.2]
    · rw [← he]
      simp [St.put, St.setCpu, hd]
  have hop' : s'.proc = s.proc := by rw [← he, ← hproc]; rfl
  refine h.handover (c := c) ⟨hlocks.congr hlk hnoff, ?_, hoc, hfr, by rw [hfc, hf]; rfl, by rw [hfc]; simp,
    by rw [hfc]; simp, ?_, fun _ => ⟨.scan (i + 1), by rw [← hcur, hfc], trivial⟩, ?_, .inl ⟨hcc.1, ?_⟩, ?_,
    fun p hp => by rw [hop']; exact ⟨hp, rfl⟩, ?_⟩
  · intro l d hd hl
    rw [hlk, doOp_lock hop]
    refine .inr ⟨hl, fun hr => ?_⟩
    rw [Op.release.injEq] at hr
    subst hr
    rw [(release_ok hop).1, Option.some.injEq] at hl
    exact hd hl.symm
  · intro p hp
    rw [hcur] at hp
    cases hp
  · intro f rest hd q hq
    rw [hcc.1, ← hcur, hfc, List.cons.injEq] at hd
    rw [← hd.1] at hq
    cases hq
  · intro j hj
    rw [hcc.2.1] at hj
    cases hj
  · intro d hd he
    exact hd (h.alone d c (he.trans (hcc.1.trans hcur.symm)))
  · intro p
    refine h.state_other (fun d => ?_) (by rw [hop']) (hfr _ (by rw [hcur]; simp))
    by_cases hdc : d = c
    · rw [hdc, hcc.1, hcur]
    · rw [hoc d hdc]

/-- A process leaves its processor: sched(), from yield, sleep or exit. -/
theorem sched {p : Fin NPROC} {g : Frame} (h : Placed s) (hf : s.frames (s.cpu c).cur = f :: rest) (hl : Local s c f a)
    (hstart : a.start = none) (hself : f.self = some p) (hcrit : f.crit = some p) (hn : a.next = [g]) (hof : owned [f] = [])
    (hog : owned [g] = []) (hw : a.write = none ∧ f = .exit4 p ∨
      ∃ v, a.write = some (p, v) ∧ (v.state = .RUNNABLE ∨ v.state = .SLEEPING) ∧ g.Resumes p)
    (he : (s.put (s.cpu c).cur rest a).switch c .sched = .ok s') : Placed s' := by
  have hcur := h.cur_self hf hself
  have hlock := h.top c f rest hf p hcrit
  have hproc := h.cur_kstack hcur
  obtain ⟨hctx, hback⟩ : (s.cpu c).context = .cpu c ∧ s.frames (.cpu c) = [.back p] := by
    rcases h.place c with ⟨hc, -⟩ | ⟨q, hc, hq, hctx, hback⟩
    · rw [hcur] at hc
      cases hc
    · rw [hcur, Stack.kstack.injEq] at hc
      rw [hctx, hback, hc]
      exact ⟨rfl, rfl⟩
  -- the parts of the new state
  unfold St.switch at he
  rw [show (s.put (s.cpu c).cur rest a).myproc c = some p from hproc] at he
  simp only at he
  split at he
  · cases he
  split at he
  · cases he
  split at he
  · cases he
  next hrun =>
  simp only [Outcome.ok.injEq] at he
  have hlk : s'.lock = s.lock := by rw [← he]; rfl
  have hfr : ∀ k, k ≠ (s.cpu c).cur → s'.frames k = s.frames k := fun k hk => by
    rw [← he]
    simp [St.put, St.setCpu, St.setProc, hk, hstart]
  have hfc : s'.frames (s.cpu c).cur = g :: rest := by rw [← he]; simp [St.put, St.setCpu, St.setProc, hstart, hn]
  have hoc : ∀ d, d ≠ c → s'.cpu d = s.cpu d := fun d hd => by rw [← he]; simp [St.put, St.setCpu, St.setProc, hd]
  have hcc : (s'.cpu c).cur = .cpu c ∧ (s'.cpu c).proc = some p ∧ (s'.cpu c).noff = (s.cpu c).noff := by
    rw [← he]
    simp [St.put, St.setCpu, St.setProc, hctx, hproc]
  have hop : ∀ q, q ≠ p → s'.proc q = s.proc q := by
    intro q hq
    rw [← he]
    rcases hw with ⟨hw, -⟩ | ⟨v, hw, -⟩ <;> simp [St.put, St.setCpu, St.setProc, hw, hq]
  have hpp : (s'.proc p).context = .kstack p := by rw [← he]; simp [St.put, St.setCpu, St.setProc, hcur]
  have hidle : ∀ d, (s'.cpu d).cur ≠ .kstack p := by
    intro d hd
    by_cases hdc : d = c
    · rw [hdc, hcc.1] at hd
      cases hd
    · rw [hoc d hdc, ← hcur] at hd
      exact hdc (h.alone d c hd)
  have hcpu : .cpu c ≠ (s.cpu c).cur := by rw [hcur]; simp
  refine h.handover (c := c) ⟨?_, fun l d _ hd => by rw [hlk, hd], hoc, hfr, ?_, ?_, ?_, ?_, ?_, ?_, .inl ⟨hcc.1, ?_⟩, ?_, ?_, ?_⟩
  · refine h.locks.congr hlk fun d => ?_
    by_cases hd : d = c
    · rw [hd, hcc.2.2]
    · rw [hoc d hd]
  · rw [hfc, hf, ← List.singleton_append, ← List.singleton_append (x := f), Quiet.owned_append, Quiet.owned_append, hof, hog]
  · rw [hfc]
    intro x hx
    exact h.lower (s.cpu c).cur x (by rw [hf]; exact hx)
  · rw [hfc]
    intro x hx
    rcases List.mem_cons.mp hx with rfl | hx
    · exact hl.lk x (by rw [hn]; simp)
    · exact h.lk (s.cpu c).cur x (by rw [hf]; exact List.mem_cons_of_mem _ hx)
  · intro q hq x hx
    rw [← hq, hfc] at hx
    have hmine := h.mine q
    rw [← hq, hf] at hmine
    rcases List.mem_cons.mp hx with rfl | hx
    · refine ⟨hl.kernel (hmine f (by simp)).1 x (by rw [hn]; simp), fun r hr => ?_⟩
      rw [hcur, Stack.kstack.injEq] at hq
      rcases hl.self x (by rw [hn]; simp) r hr with hr | hr
      · rw [hself, Option.some.injEq] at hr
        rw [← hr, hq]
      · rw [show s.myproc c = some p from hproc, Option.some.injEq] at hr
        rw [← hr, hq]
    · exact hmine x (List.mem_cons_of_mem _ hx)
  · intro hc
    rw [hcur] at hc
    cases hc
  · intro x gs hx q hq
    rw [hcc.1, hfr _ hcpu, hback, List.cons.injEq] at hx
    rw [← hx.1] at hq
    rw [hlk, ← Option.some.inj hq, hlock]
  · intro j hj
    rw [hcc.2.1] at hj
    rw [hfr _ hcpu, hback, Option.some.inj hj]
  · intro d hd he
    rw [hcc.1] at he
    exact hd (h.cur_cpu he).symm
  · intro q hq
    have hqp : q ≠ p := by
      rintro rfl
      rcases h.running hcur with hr | ⟨hr, -⟩
      · rw [hr] at hq
        cases hq
      · rw [hr] at hq
        cases hq
    rw [hop q hqp]
    exact ⟨hq, rfl⟩
  · intro q
    by_cases hqp : q = p
    · subst hqp
      unfold St.StateOk
      rcases hw with ⟨hw, rfl⟩ | ⟨v, hw, hv, hres⟩
      · -- exit: the processor was the last to be on this stack
        have hz : (s'.proc q).state = .ZOMBIE := by
          have hrun : (s.proc q).state ≠ .RUNNING := by simpa [St.put, hw] using hrun
          rw [← he]
          rcases h.running hcur with hr | ⟨hr, -⟩
          · exact absurd hr hrun
          · simp [St.put, St.setCpu, St.setProc, hw, hr]
        rw [hz]
        intro d hd
        exact absurd hd (hidle d)
      · have hst : (s'.proc q).state = v.state := by rw [← he]; simp [St.put, St.setCpu, St.setProc, hw]
        have hgo : (∀ d, (s'.cpu d).cur ≠ .kstack q) ∧ (s'.proc q).context = .kstack q ∧
            ∃ f rest, s'.frames (.kstack q) = f :: rest ∧ f.Resumes q := ⟨hidle, hpp, g, rest, by rw [← hcur, hfc], hres⟩
        rcases hv with hv | hv
        · rw [hst, hv]
          exact hgo
        · rw [hst, hv]
          exact hgo
    · refine h.state_other (fun d => ?_) (hop q hqp) (hfr _ (by rw [hcur]; simpa using hqp))
      by_cases hdc : d = c
      · rw [hdc, hcc.1, hcur]
        simpa using Ne.symm hqp
      · rw [hoc d hdc]

end Placed

/-! ## The hand-off -/

theorem placed_init {s : St} (hs : init s) : Placed s := by
  subst hs
  refine ⟨fun c => ⟨[], by simp [booted]⟩, ?_, ?_, ?_, fun c => .inl ⟨rfl, by simp [booted]⟩, fun c => ⟨[], .scan 0, by simp [booted]⟩, ?_, ?_, ?_, ?_, ?_, ?_⟩
  · rintro c f rest ⟨⟩ q ⟨⟩
  · rintro (c | p) g hg
    · cases hg
    · by_cases hp : p = 0 <;> simp [hp, booted] at hg
  · rintro (c | p) g hg
    · simp_all [booted]
    · by_cases hp : p = 0 <;> simp_all [booted]
  · intro p f hf
    by_cases hp : p = 0 <;> simp_all [booted]
  · intro c d hcd
    simpa [booted] using hcd
  · intro p
    unfold St.StateOk
    by_cases hp : p = 0
    · simp [hp, Frame.Resumes, booted]
    · simp [hp, booted]
  · rintro (c | p) np hnp
    · cases hnp
    · by_cases hp : p = 0 <;> simp [hp, owned, booted] at hnp
  · rintro (c | p)
    · exact List.nodup_nil
    · by_cases hp : p = 0 <;> simp [hp, owned, List.filterMap_cons, booted]
  · rintro (c | p) k' np hnp
    · cases hnp
    · by_cases hp : p = 0 <;> simp [hp, owned, booted] at hnp

theorem placed_step {s s' : St} {lb : Label} (h : Placed s) (he : step s lb = .ok s') : Placed s' := by
  obtain ⟨f, rest, a, s1, hf, ha, hop, hsw⟩ := step_ok he
  have hl := labelAct_local ha (h.lk _ f (by rw [hf]; simp))
  rcases hl.change with ⟨hgo, hch⟩ | hsw'
  · rw [hgo] at hsw
    cases hsw
    exact (h.quiet hf hl hop hgo hch).placed h
  · cases hsw' with
    | run i hfi hr hai =>
      subst hfi hai
      cases hop
      exact h.run hf hr hsw
    | clear i hfi hai =>
      subst hfi hai
      exact h.clear hf hop hsw
    | sched p g hgo hopn hstart hself hcrit hn hof hog hw =>
      rw [hopn] at hop
      cases hop
      rw [hgo] at hsw
      exact h.sched hf hl hstart hself hcrit hn hof hog hw hsw

/-- Whoever frees a process, no processor is on its stack. -/
theorem step_free {s s' : St} {lb : Label} {p : Fin NPROC} (h : Placed s) (he : step s lb = .ok s')
    (hp : (s'.proc p).state = .UNUSED) (c : Fin NCPU) : (s.cpu c).cur ≠ .kstack p := by
  have h' := (placed_step h he).not_running (p := p) (by rw [hp]; simp) (by rw [hp]; simp)
  obtain ⟨f, rest, a, s1, hf, ha, hop, hsw⟩ := step_ok he
  have hl := labelAct_local ha (h.lk _ f (by rw [hf]; simp))
  rcases hl.change with ⟨hgo, hch⟩ | hsw'
  · rw [hgo] at hsw
    cases hsw
    have := ((h.quiet hf hl hop hgo hch).cpu c).1
    rw [← this]
    exact h' c
  · -- a switch frees nothing
    have hs : (s.proc p).state = .UNUSED := by
      obtain ⟨k, hput⟩ := (switch_frame hsw).2.2.2.2.2.2 p
      replace hput := congrArg Proc.state hput
      rw [hp] at hput
      have hproc := (doOp_frame hop).1
      cases hsw' with
      | run i hfi hr hai =>
        subst hai
        by_cases hpi : p = i
        · simp [St.put, hpi] at hput
        · simpa [St.put, hpi, hproc, eq_comm] using hput
      | clear i hfi hai =>
        subst hai
        simpa [St.put, hproc, eq_comm] using hput
      | sched q g hgo hopn hstart hself hcrit hn hof hog hw =>
        rcases hw with ⟨hw, -⟩ | ⟨v, hw, hv, -⟩
        · simpa [St.put, hw, hproc, eq_comm] using hput
        · by_cases hpq : p = q
          · rcases hv with hv | hv <;> simp [St.put, hw, hpq, hv] at hput
          · simpa [St.put, hw, hpq, hproc, eq_comm] using hput
    exact h.not_running (by rw [hs]; simp) (by rw [hs]; simp) c

/-- **The hand-off is safe.** A kernel stack is run by at most one processor; while a process's lock is free its state
says whether it runs, and where; and no step, wait's among them, frees a process that runs. -/
theorem handoff {s : St} (hs : Reach step init s) :
    (∀ p c d, (s.cpu c).cur = .kstack p → (s.cpu d).cur = .kstack p → c = d) ∧
    (∀ p, s.lock (.proc p) = none →
      ((s.proc p).state = .RUNNING ↔ ∃! c, (s.cpu c).proc = some p) ∧
      ((s.proc p).state = .RUNNABLE ∨ (s.proc p).state = .SLEEPING ∨ (s.proc p).state = .ZOMBIE →
        ∀ c, (s.cpu c).cur ≠ .kstack p)) ∧
    ∀ lb s' p, step s lb = .ok s' → (s'.proc p).state = .UNUSED → ∀ c, (s.cpu c).cur ≠ .kstack p := by
  have h : Placed s := hs.invariant (fun _ => placed_init) fun _ _ _ hi he => placed_step hi he
  refine ⟨fun p c d hc hd => h.alone c d (hc.trans hd.symm), fun p hfree => ?_, fun lb s' p he hp => step_free h he hp⟩
  -- with the lock free, to be `c->proc` is to run
  have hon : ∀ c, (s.cpu c).proc = some p → (s.cpu c).cur = .kstack p := by
    intro c hc
    rcases h.place c with ⟨hcur, hback⟩ | ⟨q, hcur, hq, -⟩
    · have hlock := h.top c (.back p) [] (by rw [hcur, hback p hc]) p rfl
      rw [hfree] at hlock
      cases hlock
    · rw [hq, Option.some.injEq] at hc
      rw [hcur, hc]
  have hexit : ∀ c rest, (s.cpu c).cur = .kstack p → s.frames (.kstack p) ≠ .exit4 p :: rest := by
    intro c rest hc he
    have hlock := h.top c (.exit4 p) rest (by rw [hc, he]) p rfl
    rw [hfree] at hlock
    cases hlock
  constructor
  · constructor
    · intro hr
      have hst := h.state p
      unfold St.StateOk at hst
      rw [hr] at hst
      obtain ⟨c, hc⟩ := hst
      exact ⟨c, h.cur_kstack hc, fun d hd => h.alone d c ((hon d hd).trans hc.symm)⟩
    · rintro ⟨c, hc, -⟩
      rcases h.running (hon c hc) with hr | ⟨-, rest, he⟩
      · exact hr
      · exact absurd he (hexit c rest (hon c hc))
  · intro hst c hc
    rcases h.running hc with hr | ⟨hz, rest, he⟩
    · simp [hr] at hst
    · exact hexit c rest hc he

/-- init starts on processor 0, yields to the timer there, and goes on on processor 1. -/
def migrate : List Label :=
  [.run 0 true, .run 0 true, .run 0 true, .timer 0, .run 0 true, .run 0 true, .run 0 true,
    .run 1 true, .run 1 true, .run 1 true]

theorem handoff_migrate : ∃ s, runs step booted migrate = .ok s ∧ s.lock (.proc 0) = none ∧
    (s.cpu 1).cur = .kstack 0 ∧ ∃! c, (s.cpu c).proc = some 0 := by
  have he : (runs step booted migrate).goesOn (fun s => s.lock (.proc 0) = none ∧ (s.cpu 1).cur = .kstack 0 ∧
      (s.proc 0).state = .RUNNING) = true := by
    decide +kernel
  obtain ⟨s, hr, hs⟩ := Outcome.exists_of_goesOn he
  obtain ⟨hl, hc, hst⟩ := of_decide_eq_true hs
  have h := handoff (Reach.of_runs (.init rfl) hr)
  exact ⟨s, hr, hl, hc, (h.2.1 0 hl).1.mp hst⟩

end Xv6.Sched
