/-
Who goes to sleep and who wakes: each step of the machine as one of the steps of sleep and
wakeup, or as one that concerns neither.
-/
import Xv6.Sched.WaitLock

namespace Xv6.Sched

open Lib

namespace Frame

/-- The call of wakeup this frame is in. -/
@[simp] def wake : Frame → Option Wake
  | wakeup w _ | wakeup1 w _ => some w
  | _ => none

/-- How far that call has come. -/
@[simp] def idx : Frame → Nat
  | wakeup _ i => i
  | wakeup1 _ i => i
  | _ => 0

/-- Neither in wakeup nor in sleep before it switches. -/
@[simp] def neutral : Frame → Bool
  | sleep _ _ | sleep1 _ _ _ | sleep2 _ _ _ | wakeup _ _ | wakeup1 _ _ => false
  | _ => true

end Frame

/-- Nobody goes to sleep by this write. -/
def KeepsSleep (s : St) (a : Act) : Prop :=
  ∀ q v, a.write = some (q, v) → v.locked = (s.proc q).locked ∧ v.checked = (s.proc q).checked ∧
    (v.state = .SLEEPING → (s.proc q).state = .SLEEPING ∧ ∀ ch, v.chan = some ch → (s.proc q).chan = some ch)

/-- Not about wakeup. -/
@[simp] def Note.calm : Note → Bool
  | .wakes | .woke _ => false
  | _ => true

inductive Does (s : St) (lb : Label) (f : Frame) (a : Act) : Prop where
  /-- sleep takes p->lock -/
  | sleeps (p : Fin NPROC) (ch : Chan) (lk : Lock) : f = .sleep ch lk → s.myproc lb.cpu = some p →
    a = { op := .acquire (.proc p), next := [.sleep1 p ch lk]
          write := some (p, { s.proc p with locked := s.log.lockTime lk, checked := s.log.clock }) } → Does s lb f a
  /-- sleep releases lk -/
  | unlocks (p : Fin NPROC) (ch : Chan) (lk : Lock) : f = .sleep1 p ch lk →
    a = { op := .release lk, next := [.sleep2 p ch lk] } → Does s lb f a
  | asleep (p : Fin NPROC) (ch : Chan) (lk : Lock) : f = .sleep2 p ch lk →
    a = { next := [.sleep3 p lk], write := some (p, { s.proc p with chan := some ch, state := .SLEEPING }), go := .sched } →
    Does s lb f a
  /-- a call of sleep -/
  | calls (ch : Chan) (lk : Lock) (g : Frame) : a.next = [.sleep ch lk, g] → g.neutral = true → f.neutral = true →
    a.write = none → a.start = none → a.go = .stay → a.note = .none →
    (∃ n, lb = .call lb.cpu (.sleep ch n) ∧ lk = .other n ∧ a.op = .none) ∨
      (∃ p, f = .waitKilled p ∧ ch = .proc p ∧ lk = .wait ∧ a.op = .release (.proc p)) → Does s lb f a
  /-- a call of wakeup -/
  | wakes (ch : Option Chan) (g : Frame) : a.next = [.wakeup ⟨ch, s.myproc lb.cpu, s.log.clock⟩ 0, g] → g.neutral = true →
    f.neutral = true → a.op = .none → a.start = none → a.go = .stay → a.note = .wakes → KeepsSleep s a →
    (∃ x, ch = some x ∧ lb = .call lb.cpu (.wakeup x)) ∨ ((∃ p st i, f = .reparent p st i) ∧ ∀ x, ch = some x → ∃ q, x = .proc q) →
    (f = .body ∨ f = .handler ∨ ∃ p, f.self = some p) → Does s lb f a
  | scan (w : Wake) (i : Nat) : f = .wakeup w i → a = wakeupAct s lb.cpu w i → Does s lb f a
  | wake (w : Wake) (i : Fin NPROC) : f = .wakeup1 w i → a = wakeup1Act s w i → Does s lb f a
  | intr (h : Frame) : (s.cpu lb.cpu).noff = 0 → a = { next := [h, f] } → h.neutral = true → Does s lb f a
  | other : f.neutral = true → (∀ g ∈ a.next, g.neutral = true) → KeepsSleep s a → a.note.calm = true → Does s lb f a

section Does

variable {s : St} {c : Fin NCPU} {ok : Bool} {lb : Label} {f : Frame} {a : Act}

theorem KeepsSleep.none (h : a.write = none) : KeepsSleep s a := by
  intro q v hw
  rw [h] at hw
  cases hw

theorem KeepsSleep.some {p : Fin NPROC} {v : Proc} (hw : a.write = some (p, v)) (hl : v.locked = (s.proc p).locked)
    (hc : v.checked = (s.proc p).checked)
    (hs : v.state = .SLEEPING → (s.proc p).state = .SLEEPING ∧ ∀ ch, v.chan = some ch → (s.proc p).chan = some ch) :
    KeepsSleep s a := by
  intro q u hu
  rw [hw, Option.some.injEq, Prod.mk.injEq] at hu
  obtain ⟨rfl, rfl⟩ := hu
  exact ⟨hl, hc, hs⟩

theorem kill1Act_does {pid : Int32} {i : Fin NPROC} : Does s lb (.kill1 pid i) (kill1Act s pid i) := by
  unfold kill1Act
  dsimp only
  split
  · refine .other rfl (by simp) (.some rfl rfl rfl fun hs => ?_) rfl
    dsimp only at hs
    split at hs
    · cases hs
    · exact ⟨hs, fun _ => id⟩
  · exact .other rfl (by simp) (.none rfl) rfl

theorem alloc1Act_does {p i : Fin NPROC} : Does s lb (.alloc1 p i) (alloc1Act s ok p i) := by
  unfold alloc1Act
  dsimp only
  split
  · split
    · exact .other rfl (by simp) (.some rfl rfl rfl fun hs => by cases hs) rfl
    · exact .other rfl (by simp) (.some rfl rfl rfl fun hs => by cases hs) rfl
  · exact .other rfl (by simp) (.none rfl) rfl

theorem reparentAct_does {p : Fin NPROC} {status : Int} {i : Nat} :
    Does s lb (.reparent p status i) (reparentAct s lb.cpu p status i) := by
  unfold reparentAct
  split
  · dsimp only
    split
    · refine .wakes _ _ rfl rfl rfl rfl rfl rfl rfl (.some rfl rfl rfl fun hs => ⟨hs, fun _ => id⟩) (.inr ⟨⟨_, _, _, rfl⟩, ?_⟩)
        (.inr (.inr ⟨p, rfl⟩))
      rintro x ⟨⟩
      exact ⟨_, rfl⟩
    · exact .other rfl (by simp) (.none rfl) rfl
  · refine .wakes _ _ rfl rfl rfl rfl rfl rfl rfl (.none rfl) (.inr ⟨⟨_, _, _, rfl⟩, ?_⟩) (.inr (.inr ⟨p, rfl⟩))
    intro x hx
    obtain ⟨q, -, rfl⟩ := Option.map_eq_some_iff.mp hx
    exact ⟨q, rfl⟩

theorem kidsAct_does {p : Fin NPROC} {i : Nat} {havekids : Bool} :
    Does s lb (.kids p i havekids) (kidsAct s p i havekids) := by
  unfold kidsAct
  split
  · split <;> exact .other rfl (by simp) (.none rfl) rfl
  · split <;> exact .other rfl (by simp) (.none rfl) rfl

theorem kidAct_does {p i : Fin NPROC} : Does s lb (.kid p i) (kidAct s ok p i) := by
  unfold kidAct
  dsimp only
  split
  · split
    · exact .other rfl (by simp) (.some rfl rfl rfl fun hs => by cases hs) rfl
    · exact .other rfl (by simp) (.none rfl) rfl
  · exact .other rfl (by simp) (.none rfl) rfl

theorem act_does (ha : act s c ok f = .ok a) : Does s (.run c ok) f a := by
  cases f with
  | body | handler | dead => cases ha
  | forkret | yield | setkilled | wait =>
    obtain ⟨p, -, ha⟩ := withProc_ok ha
    cases ha
    exact .other rfl (by simp) (.none rfl) rfl
  | exit status =>
    obtain ⟨p, -, ha⟩ := withProc_ok ha
    split at ha
    · cases ha
    · cases ha
      exact .other rfl (by simp) (.none rfl) rfl
  | chosen i =>
    simp only [act] at ha
    split at ha
    · cases ha
      exact .other rfl (by simp) (.some rfl rfl rfl fun hs => by cases hs) rfl
    · cases ha
      exact .other rfl (by simp) (.none rfl) rfl
  | kill | alloc =>
    simp only [act] at ha
    split at ha <;> cases ha <;> exact .other rfl (by simp) (.none rfl) rfl
  | sleep ch lk =>
    obtain ⟨p, hp, ha⟩ := withProc_ok ha
    cases ha
    exact .sleeps p ch lk rfl hp rfl
  | sleep1 p ch lk =>
    cases ha
    exact .unlocks p ch lk rfl rfl
  | sleep2 p ch lk =>
    cases ha
    exact .asleep p ch lk rfl rfl
  | sleep3 p lk =>
    cases ha
    exact .other rfl (by simp) (.some rfl rfl rfl fun hs => ⟨hs, fun _ hc => by cases hc⟩) rfl
  | wakeup w i =>
    cases ha
    exact .scan w i rfl rfl
  | wakeup1 w i =>
    cases ha
    exact .wake w i rfl rfl
  | kill1 pid i =>
    cases ha
    exact kill1Act_does
  | alloc1 p i =>
    cases ha
    exact alloc1Act_does
  | fork1 p np =>
    simp only [act] at ha
    split at ha
    · cases ha
      exact .other rfl (by simp) (.none rfl) rfl
    · cases ha
      exact .other rfl (by simp) (.some rfl rfl rfl fun hs => by cases hs) rfl
  | yield1 | fork5 | exit3 =>
    cases ha
    exact .other rfl (by simp) (.some rfl rfl rfl fun hs => by cases hs) rfl
  | setkilled1 | fork3 =>
    cases ha
    exact .other rfl (by simp) (.some rfl rfl rfl fun hs => ⟨hs, fun _ => id⟩) rfl
  | reparent p status i =>
    cases ha
    exact reparentAct_does
  | kids p i havekids =>
    cases ha
    exact kidsAct_does
  | kid p i =>
    cases ha
    exact kidAct_does
  | waitKilled p =>
    simp only [act] at ha
    split at ha
    · cases ha
      exact .other rfl (by simp) (.none rfl) rfl
    · cases ha
      exact .calls _ _ _ rfl rfl rfl rfl rfl rfl rfl (.inr ⟨p, rfl, rfl, rfl, rfl⟩)
  | _ =>
    cases ha
    exact .other rfl (by simp) (.none rfl) rfl

theorem callAct_does {k : Call} (hf : f = .body ∨ f = .handler) (ha : callAct s c f k = .ok a) : Does s (.call c k) f a := by
  have hn : f.neutral = true := by rcases hf with rfl | rfl <;> rfl
  cases k with
  | sleep ch n =>
    cases ha
    exact .calls _ _ _ rfl hn hn rfl rfl rfl rfl (.inl ⟨n, rfl, rfl, rfl⟩)
  | wakeup ch =>
    cases ha
    exact .wakes _ _ rfl hn hn rfl rfl rfl rfl (.none rfl) (.inl ⟨ch, rfl, rfl⟩) (hf.imp id .inl)
  | fork =>
    obtain ⟨p, -, ha⟩ := withProc_ok ha
    cases ha
    exact .other hn (by rcases hf with rfl | rfl <;> simp) (.none rfl) rfl
  | ret => cases ha
  | _ =>
    cases ha
    exact .other hn (by rcases hf with rfl | rfl <;> simp) (.none rfl) rfl

theorem handlerAct_does {k : Call} (ha : handlerAct s c k = .ok a) : Does s (.call c k) .handler a := by
  cases k with
  | acquire n => exact callAct_does (.inr rfl) ha
  | release n => exact callAct_does (.inr rfl) ha
  | wakeup ch => exact callAct_does (.inr rfl) ha
  | ret =>
    simp only [handlerAct] at ha
    split at ha <;> cases ha
    exact .other rfl (by simp) (.none rfl) rfl
  | _ => cases ha

/-- **Every step** is a step of sleep or wakeup, a call of them, an interrupt, or concerns neither. -/
theorem labelAct_does (ha : labelAct s f lb = .ok a) : Does s lb f a := by
  cases lb with
  | run c ok => exact act_does ha
  | call c k =>
    simp only [labelAct] at ha
    split at ha
    · exact callAct_does (.inl rfl) ha
    · exact handlerAct_does ha
    · cases ha
  | intr c =>
    simp only [labelAct] at ha
    split at ha
    · next h0 =>
      cases ha
      exact .intr _ h0 rfl rfl
    · cases ha
  | timer c =>
    simp only [labelAct] at ha
    split at ha
    · next h0 =>
      split at ha
      · cases ha
        exact .intr _ h0 rfl rfl
      · cases ha
    · cases ha

end Does

end Xv6.Sched
