/-
Process locks are innermost: a processor that holds one takes neither another process's lock nor wait_lock before it has
released it or handed it over in swtch, so whoever spins for one spins for a processor that goes on. The locks that
allocpid, kalloc, filedup and idup hold for a moment are inside a step.
-/
import Xv6.Sched.Trace

namespace Xv6.Sched

open Lib

variable {s s' : St} {c : Fin NCPU} {ok : Bool} {f : Frame} {a : Act} {lb : Label}

/-- The lock of `q` is held here, if any process's is. Nothing comes after `dead`. -/
def Frame.Holds (q : Fin NPROC) (f : Frame) : Prop := f.crit = some q ∨ f = .dead

/-- A function that takes a process's lock has none and goes on where it is held; one that has it takes none, and
releases it or goes on where it is held. -/
theorem act_holds (ha : act s c ok f = .ok a) (hlk : f.LkOk) (hme : ∀ p, f.self = some p → s.myproc c = some p)
    (q : Fin NPROC) : (a.op = .acquire (.proc q) → f.crit = none ∧ ∃ g gs, a.next = g :: gs ∧ g.Holds q) ∧
      (f.Holds q → (∀ l, a.op ≠ .acquire l) ∧ (a.op = .release (.proc q) ∨ ∃ g gs, a.next = g :: gs ∧ g.Holds q)) := by
  cases f <;> simp only [act, withProc, wakeupAct, wakeup1Act, kill1Act, alloc1Act, reparentAct, kidsAct, kidAct] at ha <;>
    grind [Frame.Holds, Frame.crit, Frame.self, Frame.LkOk]

theorem act_ne_disabled {q : Fin NPROC} (hf : f.Holds q) : act s c ok f ≠ .disabled := by
  cases f <;> simp only [act, withProc] <;> grind [Frame.Holds, Frame.crit]

/-- With a process's lock held or to be taken, it is the function on top that goes on. -/
theorem labelAct_run {q : Fin NPROC} (ha : labelAct s f lb = .ok a)
    (h : f.Holds q ∧ (s.cpu lb.cpu).noff ≠ 0 ∨ a.op = .acquire (.proc q)) : ∃ ok, act s lb.cpu ok f = .ok a := by
  cases lb with
  | run c ok => exact ⟨ok, ha⟩
  | call c k =>
    cases k <;> simp only [labelAct, handlerAct, callAct, withProc] at ha <;> grind [Frame.Holds, Frame.crit]
  | _ =>
    simp only [labelAct, Label.cpu] at ha h
    grind

/-- A processor that holds a process's lock is at a point where it is held. -/
def Held (s : St) : Prop := ∀ c q, s.lock (.proc q) = some c → ∃ f rest, s.frames (s.cpu c).cur = f :: rest ∧ f.Holds q

theorem Held.step (h : Held s) (hp : Placed s) (he : step s lb = .ok s') : Held s' := by
  obtain ⟨f, rest, a, s1, t⟩ := hp.stepped he
  have hon (q : Fin NPROC) (hq : s.lock (.proc q) = some lb.cpu) : f.Holds q := by
    obtain ⟨g, gs, hg, hcrit⟩ := h _ q hq
    rw [t.onTop] at hg
    cases hg
    exact hcrit
  intro c q hq
  by_cases hc : c = lb.cpu
  · subst hc
    have hcase := (t.lock_iff _ _).mp hq
    obtain ⟨ok, ha⟩ := labelAct_run t.act (q := q) (hcase.symm.imp (fun hl => ⟨hon q hl.1, hp.locks.noff_pos hl.1⟩) And.left)
    obtain ⟨hacq, hkeep⟩ := act_holds ha (hp.lk _ f (by rw [t.onTop]; simp))
      (fun p hs => hp.cur_kstack (hp.cur_self t.onTop hs)) q
    cases t.goes with
    | stay hcur =>
      obtain ⟨g, gs, hn, hg⟩ : ∃ g gs, a.next = g :: gs ∧ g.Holds q := by
        rcases hcase with ⟨hop, -⟩ | ⟨hl, hop⟩
        · exact (hacq hop).2
        · exact (hkeep (hon q hl)).2.resolve_left hop
      exact ⟨g, gs ++ rest, by rw [hcur, t.stack, hn, List.cons_append], hg⟩
    -- these have the lock of one process, and hand it over or release it
    | clear i hf hcur hcur' hproc hfr =>
      grind [Frame.Holds, Frame.crit, act]
    | run i g gs hf hcur hcur' hproc hfr hres =>
      have hg : g.crit = some i := by cases g <;> simp_all [Frame.Resumes]
      exact ⟨g, gs, by rw [hcur', hfr], by grind [Frame.Holds, Frame.crit]⟩
    | sched p hself hcur hcur' hproc hfr hlp =>
      exact ⟨.back p, [], by rw [hcur', hfr], by grind [Frame.Holds, Frame.crit, Frame.self]⟩
  · rw [t.frames_other hp hc]
    exact h c q ((t.lock_other hc).mp hq)

end Xv6.Sched
