/-
What exit and wait put on record. Every process of all times has a number of its own; one
that has exited is a zombie with its pid and status, or some wait, and one only, has
returned them.
-/
import Xv6.Sched.Kin

namespace Xv6.Sched

open Lib

/-- Numbers of processes, and what exit and wait have put on record. -/
structure Record (s : St) : Prop where
  fresh : ∀ p, (s.proc p).state ≠ .UNUSED → (s.proc p).uid < s.log.nextuid
  inj : ∀ p q, (s.proc p).state ≠ .UNUSED → (s.proc q).state ≠ .UNUSED → (s.proc p).uid = (s.proc q).uid → p = q
  old : ∀ e ∈ s.log.exited, e.uid < s.log.nextuid
  alive : ∀ p, (s.proc p).state ≠ .UNUSED → (s.proc p).state ≠ .ZOMBIE → ∀ e ∈ s.log.exited, e.uid ≠ (s.proc p).uid
  zombie : ∀ p, (s.proc p).state = .ZOMBIE → ⟨(s.proc p).uid, (s.proc p).pid, (s.proc p).xstate⟩ ∈ s.log.exited
  exits : (s.log.exited.map Exit.uid).Nodup
  reaps : (s.log.reaped.map Reap.child).Nodup
  reaped : ∀ r ∈ s.log.reaped, ⟨r.child, r.pid, r.status⟩ ∈ s.log.exited ∧
    ∀ p, (s.proc p).state ≠ .UNUSED → (s.proc p).uid ≠ r.child
  kept : ∀ e ∈ s.log.exited, (∃ p, (s.proc p).state = .ZOMBIE ∧ (⟨(s.proc p).uid, (s.proc p).pid, (s.proc p).xstate⟩ : Exit) = e) ∨
    ∃ r ∈ s.log.reaped, (⟨r.child, r.pid, r.status⟩ : Exit) = e
  waiter : ∀ r ∈ s.log.reaped, r.waiter = if r.orphan then 0 else r.creator

namespace Record

variable {s s' : St}

/-- Nobody starts or exits: each process that is there was there, with the same number. -/
theorem shrink (h : Record s) (hlive : ∀ q, (s'.proc q).state ≠ .UNUSED → (s.proc q).state ≠ .UNUSED ∧
      (s'.proc q).uid = (s.proc q).uid ∧ (s'.proc q).pid = (s.proc q).pid ∧ (s'.proc q).xstate = (s.proc q).xstate ∧
      ((s'.proc q).state = .ZOMBIE ↔ (s.proc q).state = .ZOMBIE))
    (hz : ∀ q, (s.proc q).state = .ZOMBIE → (s'.proc q).state = .ZOMBIE) (hexited : s'.log.exited = s.log.exited)
    (hreaped : s'.log.reaped = s.log.reaped) (hnext : s.log.nextuid ≤ s'.log.nextuid) : Record s' := by
  refine ⟨fun p hp => ?_, fun p q hp hq he => ?_, fun e he => ?_, fun p hp hpz e he => ?_, fun p hp => ?_, ?_, ?_,
    fun r hr => ⟨?_, fun p hp => ?_⟩, fun e he => ?_, ?_⟩
  · obtain ⟨hp, hu, -⟩ := hlive p hp
    rw [hu]
    exact Nat.lt_of_lt_of_le (h.fresh p hp) hnext
  · obtain ⟨hp, hu, -⟩ := hlive p hp
    obtain ⟨hq, hv, -⟩ := hlive q hq
    rw [hu, hv] at he
    exact h.inj p q hp hq he
  · rw [hexited] at he
    exact Nat.lt_of_lt_of_le (h.old e he) hnext
  · obtain ⟨hp, hu, -, -, hzz⟩ := hlive p hp
    rw [hexited] at he
    rw [hu]
    exact h.alive p hp (fun hc => hpz (hzz.mpr hc)) e he
  · obtain ⟨-, hu, hpid, hx, hzz⟩ := hlive p (by rw [hp]; simp)
    rw [hexited, hu, hpid, hx]
    exact h.zombie p (hzz.mp hp)
  · rw [hexited]
    exact h.exits
  · rw [hreaped]
    exact h.reaps
  · rw [hreaped] at hr
    rw [hexited]
    exact (h.reaped r hr).1
  · obtain ⟨hp, hu, -⟩ := hlive p hp
    rw [hreaped] at hr
    rw [hu]
    exact (h.reaped r hr).2 p hp
  · rw [hexited] at he
    rw [hreaped]
    rcases h.kept e he with ⟨p, hp, hpe⟩ | hr
    · obtain ⟨-, hu, hpid, hx, -⟩ := hlive p (by rw [hz p hp]; simp)
      exact .inl ⟨p, hz p hp, by rw [hu, hpid, hx, hpe]⟩
    · exact .inr hr
  · rw [hreaped]
    exact h.waiter

/-- Nobody starts, exits or is freed. -/
theorem keep (h : Record s) (hq : ∀ q, (s'.proc q).uid = (s.proc q).uid ∧ (s'.proc q).pid = (s.proc q).pid ∧
      (s'.proc q).xstate = (s.proc q).xstate ∧ ((s'.proc q).state = .UNUSED ↔ (s.proc q).state = .UNUSED) ∧
      ((s'.proc q).state = .ZOMBIE ↔ (s.proc q).state = .ZOMBIE)) (hexited : s'.log.exited = s.log.exited)
    (hreaped : s'.log.reaped = s.log.reaped) (hnext : s'.log.nextuid = s.log.nextuid) : Record s' :=
  h.shrink (fun q hu => ⟨fun hc => hu ((hq q).2.2.2.1.mpr hc), (hq q).1, (hq q).2.1, (hq q).2.2.1, (hq q).2.2.2.2⟩)
    (fun q hz => (hq q).2.2.2.2.mpr hz) hexited hreaped (Nat.le_of_eq hnext.symm)

/-- A slot that is no zombie's is freed. -/
theorem free {i : Fin NPROC} (h : Record s) (hsame : ∀ q, q ≠ i → s'.proc q = s.proc q) (hi : (s'.proc i).state = .UNUSED)
    (hz : (s.proc i).state ≠ .ZOMBIE) (hexited : s'.log.exited = s.log.exited) (hreaped : s'.log.reaped = s.log.reaped)
    (hnext : s.log.nextuid ≤ s'.log.nextuid) : Record s' := by
  refine h.shrink (fun q hq => ?_) (fun q hq => ?_) hexited hreaped hnext
  · have hqi : q ≠ i := fun hc => hq (by rw [hc, hi])
    rw [hsame q hqi] at hq ⊢
    exact ⟨hq, rfl, rfl, rfl, Iff.rfl⟩
  · have hqi : q ≠ i := fun hc => hz (hc ▸ hq)
    rw [hsame q hqi, hq]

/-- allocproc gives out a new number. -/
theorem alloc {i : Fin NPROC} (h : Record s) (hsame : ∀ q, q ≠ i → s'.proc q = s.proc q) (hi : (s'.proc i).state = .USED)
    (hun : (s.proc i).state = .UNUSED) (hu : (s'.proc i).uid = s.log.nextuid) (hexited : s'.log.exited = s.log.exited)
    (hreaped : s'.log.reaped = s.log.reaped) (hnext : s'.log.nextuid = s.log.nextuid + 1) : Record s' := by
  refine ⟨fun p hp => ?_, fun p q hp hq he => ?_, fun e he => ?_, fun p hp hpz e he => ?_, fun p hp => ?_, ?_, ?_,
    fun r hr => ⟨?_, fun p hp => ?_⟩, fun e he => ?_, ?_⟩
  · rw [hnext]
    by_cases hpi : p = i
    · rw [hpi, hu]
      exact Nat.lt_succ_self _
    · rw [hsame p hpi] at hp ⊢
      exact Nat.lt_succ_of_lt (h.fresh p hp)
  · by_cases hpi : p = i <;> by_cases hqi : q = i
    · rw [hpi, hqi]
    · rw [hpi, hu, hsame q hqi] at he
      rw [hsame q hqi] at hq
      exact absurd (h.fresh q hq) (by rw [← he]; exact Nat.lt_irrefl _)
    · rw [hqi, hu, hsame p hpi] at he
      rw [hsame p hpi] at hp
      exact absurd (h.fresh p hp) (by rw [he]; exact Nat.lt_irrefl _)
    · rw [hsame p hpi] at hp he
      rw [hsame q hqi] at hq he
      exact h.inj p q hp hq he
  · rw [hexited] at he
    rw [hnext]
    exact Nat.lt_succ_of_lt (h.old e he)
  · rw [hexited] at he
    by_cases hpi : p = i
    · rw [hpi, hu]
      exact Nat.ne_of_lt (h.old e he)
    · rw [hsame p hpi] at hp hpz ⊢
      exact h.alive p hp hpz e he
  · by_cases hpi : p = i
    · rw [hpi, hi] at hp
      cases hp
    · rw [hsame p hpi] at hp ⊢
      rw [hexited]
      exact h.zombie p hp
  · rw [hexited]
    exact h.exits
  · rw [hreaped]
    exact h.reaps
  · rw [hreaped] at hr
    rw [hexited]
    exact (h.reaped r hr).1
  · rw [hreaped] at hr
    obtain ⟨hin, hno⟩ := h.reaped r hr
    by_cases hpi : p = i
    · rw [hpi, hu]
      exact Nat.ne_of_gt (h.old _ hin)
    · rw [hsame p hpi] at hp ⊢
      exact hno p hp
  · rw [hexited] at he
    rw [hreaped]
    rcases h.kept e he with ⟨p, hp, hpe⟩ | hr
    · have hpi : p ≠ i := fun hc => by
        rw [hc, hun] at hp
        cases hp
      exact .inl ⟨p, by rw [hsame p hpi, hp], by rw [hsame p hpi, hpe]⟩
    · exact .inr hr
  · rw [hreaped]
    exact h.waiter

/-- A process exits. -/
theorem exit {p : Fin NPROC} {status : Int} (h : Record s) (hp : Alive (s.proc p).state = true)
    (hsame : ∀ q, q ≠ p → s'.proc q = s.proc q) (hproc : s'.proc p = { s.proc p with xstate := status, state := .ZOMBIE })
    (hexited : s'.log.exited = ⟨(s.proc p).uid, (s.proc p).pid, status⟩ :: s.log.exited)
    (hreaped : s'.log.reaped = s.log.reaped) (hnext : s'.log.nextuid = s.log.nextuid) : Record s' := by
  have hne : (s.proc p).state ≠ .UNUSED ∧ (s.proc p).state ≠ .ZOMBIE := by
    constructor <;> intro hc <;> rw [hc] at hp <;> cases hp
  have hu : ∀ q, (s'.proc q).uid = (s.proc q).uid := by
    intro q
    by_cases hq : q = p
    · rw [hq, hproc]
    · rw [hsame q hq]
  have hlive : ∀ q, (s'.proc q).state ≠ .UNUSED → (s.proc q).state ≠ .UNUSED := by
    intro q hq
    by_cases hqp : q = p
    · rw [hqp]
      exact hne.1
    · rw [hsame q hqp] at hq
      exact hq
  refine ⟨fun q hq => ?_, fun q r hq hr he => ?_, fun e he => ?_, fun q hq hqz e he => ?_, fun q hq => ?_, ?_, ?_,
    fun r hr => ⟨?_, fun q hq => ?_⟩, fun e he => ?_, ?_⟩
  · rw [hu, hnext]
    exact h.fresh q (hlive q hq)
  · rw [hu, hu] at he
    exact h.inj q r (hlive q hq) (hlive r hr) he
  · rw [hexited] at he
    rw [hnext]
    rcases List.mem_cons.mp he with rfl | he
    · exact h.fresh p hne.1
    · exact h.old e he
  · have hqp : q ≠ p := fun hc => hqz (by rw [hc, hproc])
    rw [hsame q hqp] at hq hqz ⊢
    rw [hexited] at he
    rcases List.mem_cons.mp he with rfl | he
    · exact fun hc => hqp (h.inj q p hq hne.1 hc.symm)
    · exact h.alive q hq hqz e he
  · rw [hexited]
    by_cases hqp : q = p
    · rw [hqp, hproc]
      exact List.mem_cons_self
    · rw [hsame q hqp] at hq ⊢
      exact List.mem_cons_of_mem _ (h.zombie q hq)
  · rw [hexited, List.map_cons, List.nodup_cons]
    refine ⟨fun hin => ?_, h.exits⟩
    obtain ⟨e, he, heq⟩ := List.mem_map.mp hin
    exact h.alive p hne.1 hne.2 e he heq
  · rw [hreaped]
    exact h.reaps
  · rw [hreaped] at hr
    rw [hexited]
    exact List.mem_cons_of_mem _ (h.reaped r hr).1
  · rw [hreaped] at hr
    rw [hu]
    exact (h.reaped r hr).2 q (hlive q hq)
  · rw [hexited] at he
    rw [hreaped]
    rcases List.mem_cons.mp he with rfl | he
    · exact .inl ⟨p, by rw [hproc], by rw [hproc]⟩
    · rcases h.kept e he with ⟨q, hq, hqe⟩ | hr
      · have hqp : q ≠ p := fun hc => hne.2 (hc ▸ hq)
        exact .inl ⟨q, by rw [hsame q hqp, hq], by rw [hsame q hqp, hqe]⟩
      · exact .inr hr
  · rw [hreaped]
    exact h.waiter

/-- wait returns a zombie and frees it. -/
theorem reap {i : Fin NPROC} {r : Reap} (h : Record s) (hz : (s.proc i).state = .ZOMBIE)
    (hsame : ∀ q, q ≠ i → s'.proc q = s.proc q) (hi : (s'.proc i).state = .UNUSED) (hexited : s'.log.exited = s.log.exited)
    (hreaped : s'.log.reaped = r :: s.log.reaped) (hnext : s'.log.nextuid = s.log.nextuid)
    (hr : (⟨r.child, r.pid, r.status⟩ : Exit) = ⟨(s.proc i).uid, (s.proc i).pid, (s.proc i).xstate⟩)
    (hw : r.waiter = if r.orphan then 0 else r.creator) : Record s' := by
  have hne : (s.proc i).state ≠ .UNUSED := by rw [hz]; simp
  have hchild : r.child = (s.proc i).uid := congrArg Exit.uid hr
  have hlive : ∀ q, (s'.proc q).state ≠ .UNUSED → q ≠ i := fun q hq hc => hq (hc ▸ hi)
  refine ⟨fun p hp => ?_, fun p q hp hq he => ?_, fun e he => ?_, fun p hp hpz e he => ?_, fun p hp => ?_, ?_, ?_,
    fun x hx => ⟨?_, fun p hp => ?_⟩, fun e he => ?_, ?_⟩
  · have hpi := hlive p hp
    rw [hsame p hpi] at hp ⊢
    rw [hnext]
    exact h.fresh p hp
  · have hpi := hlive p hp
    have hqi := hlive q hq
    rw [hsame p hpi] at hp he
    rw [hsame q hqi] at hq he
    exact h.inj p q hp hq he
  · rw [hexited] at he
    rw [hnext]
    exact h.old e he
  · have hpi := hlive p hp
    rw [hsame p hpi] at hp hpz ⊢
    rw [hexited] at he
    exact h.alive p hp hpz e he
  · have hpi := hlive p (by rw [hp]; simp)
    rw [hsame p hpi] at hp ⊢
    rw [hexited]
    exact h.zombie p hp
  · rw [hexited]
    exact h.exits
  · rw [hreaped, List.map_cons, List.nodup_cons]
    refine ⟨fun hin => ?_, h.reaps⟩
    obtain ⟨x, hx, hxe⟩ := List.mem_map.mp hin
    exact (h.reaped x hx).2 i hne (hchild.symm.trans hxe.symm)
  · rw [hreaped] at hx
    rw [hexited]
    rcases List.mem_cons.mp hx with rfl | hx
    · rw [hr]
      exact h.zombie i hz
    · exact (h.reaped x hx).1
  · have hpi := hlive p hp
    rw [hsame p hpi] at hp ⊢
    rw [hreaped] at hx
    rcases List.mem_cons.mp hx with rfl | hx
    · rw [hchild]
      exact fun hc => hpi (h.inj p i hp hne hc)
    · exact (h.reaped x hx).2 p hp
  · rw [hexited] at he
    rw [hreaped]
    rcases h.kept e he with ⟨p, hp, hpe⟩ | ⟨x, hx, hxe⟩
    · by_cases hpi : p = i
      · subst hpi
        exact .inr ⟨r, List.mem_cons_self, hr.trans hpe⟩
      · exact .inl ⟨p, by rw [hsame p hpi, hp], by rw [hsame p hpi, hpe]⟩
    · exact .inr ⟨x, List.mem_cons_of_mem _ hx, hxe⟩
  · rw [hreaped]
    intro x hx
    rcases List.mem_cons.mp hx with rfl | hx
    · exact hw
    · exact h.waiter x hx

end Record

end Xv6.Sched
