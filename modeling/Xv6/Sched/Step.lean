/-
What one step of a function does, once for every function: which locks a frame expects,
what it leaves on its stack, and which entries of the process table it may write.
-/
import Xv6.Sched.Model

namespace Xv6.Sched

open Lib

/-! ## What a frame says about its thread -/

namespace Frame

/-- The process whose lock is held here. -/
@[simp] def crit : Frame → Option (Fin NPROC)
  | chosen i | back i | wakeup1 _ i | kill1 _ i | alloc1 _ i | kid _ i => some i
  | forkret p | yield1 p | yield2 p | sleep1 p _ _ | sleep2 p _ _ | sleep3 p _ | setkilled1 p | exit3 p _ | exit4 p
  | waitKilled p => some p
  | fork1 _ np | fork5 _ np => some np
  | _ => none

/-- The process this thread is, as the function has it in a variable. -/
@[simp] def self : Frame → Option (Fin NPROC)
  | forkret p | yield1 p | yield2 p | sleep1 p _ _ | sleep2 p _ _ | sleep3 p _ | setkilled1 p | alloc p _ | alloc1 p _
  | fork1 p _ | fork2 p _ | fork3 p _ | fork4 p _ | fork5 p _ | reparent p _ _ | exit2 p _ | exit3 p _ | exit4 p
  | kids p _ _ | kid p _ | waitKilled p | waitFail p _ => some p
  | _ => none

/-- The process fork is making. -/
@[simp] def owns : Frame → Option (Fin NPROC)
  | fork1 _ np | fork2 _ np | fork3 _ np | fork4 _ np | fork5 _ np => some np
  | _ => none

/-- Of scheduler(). -/
@[simp] def IsSched : Frame → Prop
  | scan _ | chosen _ | back _ => True
  | _ => False

/-- Of a device's interrupt. -/
@[simp] def IsIntr : Frame → Prop
  | handler | wakeup _ _ | wakeup1 _ _ => True
  | _ => False

/-- Where a process that does not run goes on. -/
def Resumes (p : Fin NPROC) : Frame → Prop
  | forkret q | yield2 q | sleep3 q _ => q = p
  | _ => False

/-- sleep is not called with a process's lock. -/
@[simp] def LkOk : Frame → Prop
  | sleep _ lk | sleep1 _ _ lk | sleep2 _ _ lk | sleep3 _ lk | sleep4 lk => ∀ q, lk ≠ .proc q
  | _ => True

end Frame

/-! ## The locks of a processor -/

/-- `noff` counts the locks a processor holds. -/
def LocksOk (s : St) : Prop :=
  ∀ c, ∃ ls : List Lock, ls.Nodup ∧ ls.length = (s.cpu c).noff ∧ ∀ l, l ∈ ls ↔ s.lock l = some c

theorem LocksOk.congr {s s' : St} (h : LocksOk s) (hl : s'.lock = s.lock) (hn : ∀ c, (s'.cpu c).noff = (s.cpu c).noff) :
    LocksOk s' := by
  intro c
  obtain ⟨ls, hnd, hlen, hmem⟩ := h c
  exact ⟨ls, hnd, hlen.trans (hn c).symm, fun l => by rw [hl]; exact hmem l⟩

theorem LocksOk.noff_pos {s : St} (h : LocksOk s) {c : Fin NCPU} {l : Lock} (hl : s.lock l = some c) : (s.cpu c).noff ≠ 0 := by
  obtain ⟨ls, -, hlen, hmem⟩ := h c
  intro h0
  rw [h0, List.length_eq_zero_iff] at hlen
  rw [← hmem, hlen] at hl
  cases hl

/-- A processor with one lock has only that lock. -/
theorem LocksOk.only {s : St} (h : LocksOk s) {c : Fin NCPU} {l l' : Lock} (h1 : (s.cpu c).noff = 1)
    (hl : s.lock l = some c) (hl' : s.lock l' = some c) : l' = l := by
  obtain ⟨ls, -, hlen, hmem⟩ := h c
  rw [h1, List.length_eq_one_iff] at hlen
  obtain ⟨x, rfl⟩ := hlen
  rw [← hmem, List.mem_singleton] at hl hl'
  rw [hl, hl']

theorem acquire_ok {s s' : St} {c : Fin NCPU} {l : Lock} (he : s.acquire c l = .ok s') :
    s.lock l = none ∧ s' = { s.setCpu c { s.cpu c with noff := (s.cpu c).noff + 1 } with
      lock := Function.update s.lock l (some c)
      log := { s.log with
        clock := s.log.clock + 1
        lockTime := Function.update s.log.lockTime l s.log.clock
        lockBy := Function.update s.log.lockBy l (s.myproc c) } } := by
  unfold St.acquire at he
  split at he
  · split at he <;> cases he
  · next h =>
    cases he
    exact ⟨h, rfl⟩

theorem release_ok {s s' : St} {c : Fin NCPU} {l : Lock} (he : s.release c l = .ok s') :
    s.lock l = some c ∧ s' = { s.setCpu c { s.cpu c with noff := (s.cpu c).noff - 1 } with
      lock := Function.update s.lock l none } := by
  unfold St.release at he
  split at he
  · next h =>
    cases he
    exact ⟨h, rfl⟩
  · cases he

theorem LocksOk.doOp {s s' : St} {c : Fin NCPU} {op : Op} (h : LocksOk s) (he : s.doOp c op = .ok s') : LocksOk s' := by
  cases op with
  | none =>
    cases he
    exact h
  | acquire l =>
    obtain ⟨hl, rfl⟩ := acquire_ok he
    intro d
    obtain ⟨ls, hnd, hlen, hmem⟩ := h d
    by_cases hdc : d = c
    · subst hdc
      have hn : l ∉ ls := fun hin => by
        rw [hmem, hl] at hin
        cases hin
      refine ⟨l :: ls, List.nodup_cons.mpr ⟨hn, hnd⟩, by simp [St.setCpu, hlen], fun m => ?_⟩
      rw [List.mem_cons, hmem]
      by_cases hml : m = l
      · simp [hml]
      · simp [hml]
    · refine ⟨ls, hnd, by simp [St.setCpu, hdc, hlen], fun m => ?_⟩
      rw [hmem]
      by_cases hml : m = l
      · simp [hml, hl, Ne.symm hdc]
      · simp [hml]
  | release l =>
    obtain ⟨hl, rfl⟩ := release_ok he
    intro d
    obtain ⟨ls, hnd, hlen, hmem⟩ := h d
    by_cases hdc : d = c
    · subst hdc
      have hin : l ∈ ls := (hmem l).mpr hl
      refine ⟨ls.erase l, hnd.erase l, by simp [St.setCpu, List.length_erase_of_mem hin, hlen], fun m => ?_⟩
      rw [hnd.mem_erase_iff, hmem]
      by_cases hml : m = l
      · simp [hml]
      · simp [hml]
    · refine ⟨ls, hnd, by simp [St.setCpu, hdc, hlen], fun m => ?_⟩
      rw [hmem]
      by_cases hml : m = l
      · simp [hml, hl, Ne.symm hdc]
      · simp [hml]

/-! ## The parts of a step -/

/-- A lock is held after the operation if it is acquired, or was held and is not released. -/
theorem doOp_lock {s s' : St} {c d : Fin NCPU} {op : Op} {l : Lock} (he : s.doOp c op = .ok s') :
    s'.lock l = some d ↔ (op = .acquire l ∧ d = c) ∨ (s.lock l = some d ∧ op ≠ .release l) := by
  cases op with
  | none =>
    cases he
    simp
  | acquire m =>
    obtain ⟨hl, rfl⟩ := acquire_ok he
    by_cases hml : l = m
    · subst hml
      simp [hl, eq_comm]
    · simp [hml, Ne.symm hml]
  | release m =>
    obtain ⟨hl, rfl⟩ := release_ok he
    by_cases hml : l = m
    · subst hml
      simp
    · simp [hml, Ne.symm hml]

theorem doOp_frame {s s' : St} {c : Fin NCPU} {op : Op} (he : s.doOp c op = .ok s') :
    s'.proc = s.proc ∧ s'.frames = s.frames ∧ s'.initproc = s.initproc ∧
    ∀ d, (s'.cpu d).cur = (s.cpu d).cur ∧ (s'.cpu d).proc = (s.cpu d).proc ∧ (s'.cpu d).context = (s.cpu d).context := by
  have cpu : ∀ n d, (Function.update s.cpu c { s.cpu c with noff := n } d).cur = (s.cpu d).cur ∧
      (Function.update s.cpu c { s.cpu c with noff := n } d).proc = (s.cpu d).proc ∧
      (Function.update s.cpu c { s.cpu c with noff := n } d).context = (s.cpu d).context := by
    intro n d
    by_cases hdc : d = c
    · subst hdc
      simp
    · simp [hdc]
  cases op with
  | none =>
    cases he
    exact ⟨rfl, rfl, rfl, fun _ => ⟨rfl, rfl, rfl⟩⟩
  | acquire l =>
    obtain ⟨-, rfl⟩ := acquire_ok he
    exact ⟨rfl, rfl, rfl, cpu _⟩
  | release l =>
    obtain ⟨-, rfl⟩ := release_ok he
    exact ⟨rfl, rfl, rfl, cpu _⟩

/-- A switch changes which stack its processor is on, `c->proc` and the saved contexts, nothing else. -/
theorem switch_frame {s s' : St} {c : Fin NCPU} {go : Go} (he : s.switch c go = .ok s') :
    s'.frames = s.frames ∧ s'.lock = s.lock ∧ s'.log = s.log ∧ s'.initproc = s.initproc ∧
    (∀ d, (s'.cpu d).noff = (s.cpu d).noff) ∧ (∀ d, d ≠ c → s'.cpu d = s.cpu d) ∧
    ∀ p, ∃ k, s'.proc p = { s.proc p with context := k } := by
  have cpu : ∀ o k k', (∀ d, (Function.update s.cpu c ⟨o, k, k', (s.cpu c).noff⟩ d).noff = (s.cpu d).noff) ∧
      ∀ d, d ≠ c → Function.update s.cpu c ⟨o, k, k', (s.cpu c).noff⟩ d = s.cpu d := by
    refine fun o k k' => ⟨fun d => ?_, fun d hd => by simp [hd]⟩
    by_cases hd : d = c
    · subst hd
      simp
    · simp [hd]
  unfold St.switch at he
  split at he
  · cases he
    exact ⟨rfl, rfl, rfl, rfl, fun _ => rfl, fun _ _ => rfl, fun _ => ⟨_, rfl⟩⟩
  · cases he
    exact ⟨rfl, rfl, rfl, rfl, (cpu _ _ _).1, (cpu _ _ _).2, fun _ => ⟨_, rfl⟩⟩
  · cases he
    exact ⟨rfl, rfl, rfl, rfl, (cpu _ _ _).1, (cpu _ _ _).2, fun _ => ⟨_, rfl⟩⟩
  · split at he
    · cases he
    · next q hq =>
      split at he
      · cases he
      split at he
      · cases he
      split at he
      · cases he
      cases he
      refine ⟨rfl, rfl, rfl, rfl, (cpu _ _ _).1, (cpu _ _ _).2, fun p => ?_⟩
      by_cases hpq : p = q
      · subst hpq
        exact ⟨_, by simp [St.setCpu, St.setProc]; rfl⟩
      · exact ⟨_, by simp [St.setCpu, St.setProc, hpq]; rfl⟩

/-- A step as its parts. -/
theorem step_ok {s s' : St} {lb : Label} (he : step s lb = .ok s') :
    ∃ f rest a s1, s.frames (s.cpu lb.cpu).cur = f :: rest ∧ labelAct s f lb = .ok a ∧ s.doOp lb.cpu a.op = .ok s1 ∧
      (s1.put (s.cpu lb.cpu).cur rest a).switch lb.cpu a.go = .ok s' := by
  unfold step at he
  split at he
  · cases he
  next f rest hf =>
  split at he
  · next a ha =>
    unfold apply at he
    split at he
    · next s1 h1 => exact ⟨f, rest, a, s1, hf, ha, h1, he⟩
    · cases he
    · cases he
  · cases he
  · cases he

/-! ## What each step of a function does -/

/-- The processes that the forks of a stack are making. -/
def owned (fs : List Frame) : List (Fin NPROC) := fs.filterMap Frame.owns

/-- What a step does to the process table, and to who is making which process. -/
inductive Change (s : St) (f : Frame) (a : Act) : Prop where
  | none : a.write = none → a.start = none → owned a.next = owned [f] → Change s f a
  | keep (q : Fin NPROC) (v : Proc) : a.write = some (q, v) → a.start = none → v.state = (s.proc q).state →
    v.context = (s.proc q).context → owned a.next = owned [f] → Change s f a
  | wake (q : Fin NPROC) (v : Proc) : a.write = some (q, v) → a.start = none → (s.proc q).state = .SLEEPING →
    v.state = .RUNNABLE → v.context = (s.proc q).context → owned a.next = owned [f] → Change s f a
  | alloc (q : Fin NPROC) (v : Proc) : a.write = some (q, v) → a.start = some q → (s.proc q).state = .UNUSED →
    v.state = .USED → v.context = .kstack q → f.owns = none → owned a.next = [q] → Change s f a
  | drop (q : Fin NPROC) (v : Proc) : a.write = some (q, v) → a.start = none → f.owns = some q → v.state = .UNUSED →
    owned a.next = [] → Change s f a
  | ready (q : Fin NPROC) (v : Proc) : a.write = some (q, v) → a.start = none → f.owns = some q → v.state = .RUNNABLE →
    v.context = (s.proc q).context → owned a.next = [] → Change s f a
  | reap (q : Fin NPROC) (v : Proc) : a.write = some (q, v) → a.start = none → (s.proc q).state = .ZOMBIE →
    v.state = .UNUSED → f.crit = some q → f ≠ .exit4 q → owned a.next = owned [f] → Change s f a
  | exits (q : Fin NPROC) (v : Proc) : a.write = some (q, v) → a.start = none → v.state = .ZOMBIE →
    f.self = some q → f.crit = some q → a.next = [.exit4 q] → owned [f] = [] → Change s f a

/-- The steps that switch: scheduler() to a process and back, and a process to scheduler(). -/
inductive Switch (s : St) (f : Frame) (a : Act) : Prop where
  | run (i : Fin NPROC) : f = .chosen i → (s.proc i).state = .RUNNABLE →
    a = { next := [.back i], write := some (i, { s.proc i with state := .RUNNING }), go := .run i } → Switch s f a
  | clear (i : Fin NPROC) : f = .back i →
    a = { op := .release (.proc i), next := [.scan (i + 1)], go := .clear } → Switch s f a
  | sched (p : Fin NPROC) (g : Frame) : a.go = .sched → a.op = .none → a.start = none → f.self = some p → f.crit = some p →
    a.next = [g] → owned [f] = [] → owned [g] = [] → (a.write = none ∧ f = .exit4 p ∨
      ∃ v, a.write = some (p, v) ∧ (v.state = .RUNNABLE ∨ v.state = .SLEEPING) ∧ g.Resumes p) → Switch s f a

/-- What a step on a stack with `f` on top does to that stack. -/
structure Local (s : St) (c : Fin NCPU) (f : Frame) (a : Act) : Prop where
  /-- a frame that expects a process's lock comes with that lock -/
  crit : ∀ g gs, a.next = g :: gs → ∀ q, g.crit = some q →
    a.op = .acquire (.proc q) ∨ f.crit = some q ∧ a.op ≠ .release (.proc q)
  lower : ∀ g ∈ a.next.tail, g.crit = none ∨ (s.cpu c).noff = 0 ∧ g = f
  sched : f.IsSched → (∃ g, a.next = [g] ∧ g.IsSched) ∨
    (s.cpu c).noff = 0 ∧ ∃ h, a.next = [h, f] ∧ (h = .handler ∨ h = .yield ∧ s.myproc c ≠ none)
  intr : f.IsIntr → ∀ g ∈ a.next, g.IsIntr ∨ (s.cpu c).noff = 0 ∧ g = .yield ∧ s.myproc c ≠ none
  kernel : ¬ f.IsSched → ∀ g ∈ a.next, ¬ g.IsSched
  self : ∀ g ∈ a.next, ∀ q, g.self = some q → f.self = some q ∨ s.myproc c = some q
  lk : ∀ g ∈ a.next, g.LkOk
  /-- these two only switch -/
  leaves : a.go = .stay → (∀ i, f ≠ .back i) ∧ (∀ p, f ≠ .exit4 p) ∨ (s.cpu c).noff = 0
  change : a.go = .stay ∧ Change s f a ∨ Switch s f a

section Local

variable {s : St} {c : Fin NCPU} {ok : Bool} {f : Frame} {a : Act}

theorem withProc_ok {o : Option (Fin NPROC)} {k : Fin NPROC → Outcome Act} (h : withProc o k = .ok a) :
    ∃ p, o = some p ∧ k p = .ok a := by
  cases o with
  | none => cases h
  | some p => exact ⟨p, rfl, h⟩

theorem wakeupAct_local {w : Wake} {i : Nat} : Local s c (.wakeup w i) (wakeupAct s c w i) := by
  unfold wakeupAct
  split
  · split <;> refine ⟨?_, ?_, ?_, ?_, ?_, ?_, ?_, ?_, .inl ⟨rfl, .none rfl rfl rfl⟩⟩ <;> simp
  · refine ⟨?_, ?_, ?_, ?_, ?_, ?_, ?_, ?_, .inl ⟨rfl, .none rfl rfl rfl⟩⟩ <;> simp

theorem wakeup1Act_local {w : Wake} {i : Fin NPROC} : Local s c (.wakeup1 w i) (wakeup1Act s w i) := by
  refine ⟨?_, ?_, ?_, ?_, ?_, ?_, ?_, ?_, .inl ⟨rfl, ?_⟩⟩
  case refine_9 =>
    by_cases hs : (s.proc i).state = .SLEEPING ∧ (s.proc i).chan = w.chan
    · exact .wake i _ rfl rfl hs.1 (by rw [if_pos hs]) (by rw [if_pos hs]) rfl
    · exact .keep i _ rfl rfl (by rw [if_neg hs]) (by rw [if_neg hs]) rfl
  all_goals simp [wakeup1Act]

theorem kill1Act_local {pid : Int32} {i : Fin NPROC} : Local s c (.kill1 pid i) (kill1Act s pid i) := by
  unfold kill1Act
  dsimp only
  split
  · refine ⟨?_, ?_, ?_, ?_, ?_, ?_, ?_, ?_, .inl ⟨rfl, ?_⟩⟩
    case refine_9 =>
      by_cases hs : (s.proc i).state = .SLEEPING
      · exact .wake i _ rfl rfl hs (if_pos hs) rfl rfl
      · exact .keep i _ rfl rfl (if_neg hs) rfl rfl
    all_goals simp
  · refine ⟨?_, ?_, ?_, ?_, ?_, ?_, ?_, ?_, .inl ⟨rfl, .none rfl rfl rfl⟩⟩ <;> simp

theorem alloc1Act_local {p i : Fin NPROC} : Local s c (.alloc1 p i) (alloc1Act s ok p i) := by
  unfold alloc1Act
  dsimp only
  split
  · next hs =>
    split
    · refine ⟨?_, ?_, ?_, ?_, ?_, ?_, ?_, ?_, .inl ⟨rfl, .alloc i _ rfl rfl hs rfl rfl rfl rfl⟩⟩ <;> simp
    · refine ⟨?_, ?_, ?_, ?_, ?_, ?_, ?_, ?_, .inl ⟨rfl, .keep i _ rfl rfl hs.symm rfl rfl⟩⟩ <;> simp
  · refine ⟨?_, ?_, ?_, ?_, ?_, ?_, ?_, ?_, .inl ⟨rfl, .none rfl rfl rfl⟩⟩ <;> simp

theorem reparentAct_local {p : Fin NPROC} {status : Int} {i : Nat} :
    Local s c (.reparent p status i) (reparentAct s c p status i) := by
  unfold reparentAct
  split
  · dsimp only
    split
    · refine ⟨?_, ?_, ?_, ?_, ?_, ?_, ?_, ?_, .inl ⟨rfl, .keep _ _ rfl rfl rfl rfl rfl⟩⟩ <;> simp
    · refine ⟨?_, ?_, ?_, ?_, ?_, ?_, ?_, ?_, .inl ⟨rfl, .none rfl rfl rfl⟩⟩ <;> simp
  · refine ⟨?_, ?_, ?_, ?_, ?_, ?_, ?_, ?_, .inl ⟨rfl, .none rfl rfl rfl⟩⟩ <;> simp

theorem kidsAct_local {p : Fin NPROC} {i : Nat} {havekids : Bool} :
    Local s c (.kids p i havekids) (kidsAct s p i havekids) := by
  unfold kidsAct
  split
  · split <;> refine ⟨?_, ?_, ?_, ?_, ?_, ?_, ?_, ?_, .inl ⟨rfl, .none rfl rfl rfl⟩⟩ <;> simp
  · split <;> refine ⟨?_, ?_, ?_, ?_, ?_, ?_, ?_, ?_, .inl ⟨rfl, .none rfl rfl rfl⟩⟩ <;> simp

theorem kidAct_local {p i : Fin NPROC} : Local s c (.kid p i) (kidAct s ok p i) := by
  unfold kidAct
  dsimp only
  split
  · next hs =>
    split
    · refine ⟨?_, ?_, ?_, ?_, ?_, ?_, ?_, ?_, .inl ⟨rfl, .reap i _ rfl rfl hs rfl rfl (by simp) rfl⟩⟩ <;> simp
    · refine ⟨?_, ?_, ?_, ?_, ?_, ?_, ?_, ?_, .inl ⟨rfl, .none rfl rfl rfl⟩⟩ <;> simp
  · refine ⟨?_, ?_, ?_, ?_, ?_, ?_, ?_, ?_, .inl ⟨rfl, .none rfl rfl rfl⟩⟩ <;> simp

theorem act_local (ha : act s c ok f = .ok a) (hlk : f.LkOk) : Local s c f a := by
  cases f with
  | scan i =>
    cases ha
    refine ⟨?_, ?_, ?_, ?_, ?_, ?_, ?_, ?_, .inl ⟨rfl, .none rfl rfl rfl⟩⟩ <;> simp
  | chosen i =>
    simp only [act] at ha
    split at ha
    · next hs =>
      cases ha
      refine ⟨?_, ?_, ?_, ?_, ?_, ?_, ?_, ?_, .inr (.run i rfl hs rfl)⟩ <;> simp
    · cases ha
      refine ⟨?_, ?_, ?_, ?_, ?_, ?_, ?_, ?_, .inl ⟨rfl, .none rfl rfl rfl⟩⟩ <;> simp
  | back i =>
    cases ha
    refine ⟨?_, ?_, ?_, ?_, ?_, ?_, ?_, ?_, .inr (.clear i rfl rfl)⟩ <;> simp
  | forkret q =>
    obtain ⟨p, hp, ha⟩ := withProc_ok ha
    cases ha
    refine ⟨?_, ?_, ?_, ?_, ?_, ?_, ?_, ?_, .inl ⟨rfl, .none rfl rfl rfl⟩⟩ <;> simp [hp]
  | body => cases ha
  | handler => cases ha
  | yield =>
    obtain ⟨p, hp, ha⟩ := withProc_ok ha
    cases ha
    refine ⟨?_, ?_, ?_, ?_, ?_, ?_, ?_, ?_, .inl ⟨rfl, .none rfl rfl rfl⟩⟩ <;> simp [hp]
  | yield1 p =>
    cases ha
    refine ⟨?_, ?_, ?_, ?_, ?_, ?_, ?_, ?_, .inr (.sched p _ rfl rfl rfl rfl rfl rfl rfl rfl (.inr ⟨_, rfl, .inl rfl, rfl⟩))⟩ <;> simp
  | yield2 p =>
    cases ha
    refine ⟨?_, ?_, ?_, ?_, ?_, ?_, ?_, ?_, .inl ⟨rfl, .none rfl rfl rfl⟩⟩ <;> simp
  | sleep ch lk =>
    obtain ⟨p, hp, ha⟩ := withProc_ok ha
    cases ha
    have hlk : ∀ q, lk ≠ .proc q := hlk
    refine ⟨?_, ?_, ?_, ?_, ?_, ?_, ?_, ?_, .inl ⟨rfl, .keep _ _ rfl rfl rfl rfl rfl⟩⟩ <;> simp [hp, hlk]
  | sleep1 p ch lk =>
    cases ha
    have hlk : ∀ q, lk ≠ .proc q := hlk
    refine ⟨?_, ?_, ?_, ?_, ?_, ?_, ?_, ?_, .inl ⟨rfl, .none rfl rfl rfl⟩⟩ <;> simp [hlk]
  | sleep2 p ch lk =>
    cases ha
    have hlk : ∀ q, lk ≠ .proc q := hlk
    refine ⟨?_, ?_, ?_, ?_, ?_, ?_, ?_, ?_, .inr (.sched p _ rfl rfl rfl rfl rfl rfl rfl rfl (.inr ⟨_, rfl, .inr rfl, rfl⟩))⟩ <;> simp [hlk]
  | sleep3 p lk =>
    cases ha
    have hlk : ∀ q, lk ≠ .proc q := hlk
    refine ⟨?_, ?_, ?_, ?_, ?_, ?_, ?_, ?_, .inl ⟨rfl, .keep _ _ rfl rfl rfl rfl rfl⟩⟩ <;> simp [hlk]
  | sleep4 lk =>
    cases ha
    refine ⟨?_, ?_, ?_, ?_, ?_, ?_, ?_, ?_, .inl ⟨rfl, .none rfl rfl rfl⟩⟩ <;> simp
  | wakeup w i =>
    cases ha
    exact wakeupAct_local
  | wakeup1 w i =>
    cases ha
    exact wakeup1Act_local
  | kill pid i =>
    simp only [act] at ha
    split at ha <;> cases ha <;> refine ⟨?_, ?_, ?_, ?_, ?_, ?_, ?_, ?_, .inl ⟨rfl, .none rfl rfl rfl⟩⟩ <;> simp
  | kill1 pid i =>
    cases ha
    exact kill1Act_local
  | setkilled =>
    obtain ⟨p, hp, ha⟩ := withProc_ok ha
    cases ha
    refine ⟨?_, ?_, ?_, ?_, ?_, ?_, ?_, ?_, .inl ⟨rfl, .none rfl rfl rfl⟩⟩ <;> simp [hp]
  | setkilled1 p =>
    cases ha
    refine ⟨?_, ?_, ?_, ?_, ?_, ?_, ?_, ?_, .inl ⟨rfl, .keep _ _ rfl rfl rfl rfl rfl⟩⟩ <;> simp
  | alloc p i =>
    simp only [act] at ha
    split at ha <;> cases ha <;> refine ⟨?_, ?_, ?_, ?_, ?_, ?_, ?_, ?_, .inl ⟨rfl, .none rfl rfl rfl⟩⟩ <;> simp
  | alloc1 p i =>
    cases ha
    exact alloc1Act_local
  | fork1 p np =>
    simp only [act] at ha
    split at ha
    · cases ha
      refine ⟨?_, ?_, ?_, ?_, ?_, ?_, ?_, ?_, .inl ⟨rfl, .none rfl rfl rfl⟩⟩ <;> simp
    · cases ha
      refine ⟨?_, ?_, ?_, ?_, ?_, ?_, ?_, ?_, .inl ⟨rfl, .drop _ _ rfl rfl rfl rfl rfl⟩⟩ <;> simp
  | fork2 p np =>
    cases ha
    refine ⟨?_, ?_, ?_, ?_, ?_, ?_, ?_, ?_, .inl ⟨rfl, .none rfl rfl rfl⟩⟩ <;> simp
  | fork3 p np =>
    cases ha
    refine ⟨?_, ?_, ?_, ?_, ?_, ?_, ?_, ?_, .inl ⟨rfl, .keep _ _ rfl rfl rfl rfl rfl⟩⟩ <;> simp
  | fork4 p np =>
    cases ha
    refine ⟨?_, ?_, ?_, ?_, ?_, ?_, ?_, ?_, .inl ⟨rfl, .none rfl rfl rfl⟩⟩ <;> simp
  | fork5 p np =>
    cases ha
    refine ⟨?_, ?_, ?_, ?_, ?_, ?_, ?_, ?_, .inl ⟨rfl, .ready _ _ rfl rfl rfl rfl rfl rfl⟩⟩ <;> simp
  | exit status =>
    obtain ⟨p, hp, ha⟩ := withProc_ok ha
    split at ha
    · cases ha
    · cases ha
      refine ⟨?_, ?_, ?_, ?_, ?_, ?_, ?_, ?_, .inl ⟨rfl, .none rfl rfl rfl⟩⟩ <;> simp [hp]
  | reparent p status i =>
    cases ha
    exact reparentAct_local
  | exit2 p status =>
    cases ha
    refine ⟨?_, ?_, ?_, ?_, ?_, ?_, ?_, ?_, .inl ⟨rfl, .none rfl rfl rfl⟩⟩ <;> simp
  | exit3 p status =>
    cases ha
    refine ⟨?_, ?_, ?_, ?_, ?_, ?_, ?_, ?_, .inl ⟨rfl, .exits _ _ rfl rfl rfl rfl rfl rfl rfl⟩⟩ <;> simp
  | exit4 p =>
    cases ha
    refine ⟨?_, ?_, ?_, ?_, ?_, ?_, ?_, ?_, .inr (.sched p _ rfl rfl rfl rfl rfl rfl rfl rfl (.inl ⟨rfl, rfl⟩))⟩ <;> simp
  | dead => cases ha
  | wait =>
    obtain ⟨p, hp, ha⟩ := withProc_ok ha
    cases ha
    refine ⟨?_, ?_, ?_, ?_, ?_, ?_, ?_, ?_, .inl ⟨rfl, .none rfl rfl rfl⟩⟩ <;> simp [hp]
  | kids p i havekids =>
    cases ha
    exact kidsAct_local
  | kid p i =>
    cases ha
    exact kidAct_local
  | waitKilled p =>
    simp only [act] at ha
    split at ha <;> cases ha <;> refine ⟨?_, ?_, ?_, ?_, ?_, ?_, ?_, ?_, .inl ⟨rfl, .none rfl rfl rfl⟩⟩ <;> simp
  | waitDone pid =>
    cases ha
    refine ⟨?_, ?_, ?_, ?_, ?_, ?_, ?_, ?_, .inl ⟨rfl, .none rfl rfl rfl⟩⟩ <;> simp
  | waitFail p why =>
    cases ha
    refine ⟨?_, ?_, ?_, ?_, ?_, ?_, ?_, ?_, .inl ⟨rfl, .none rfl rfl rfl⟩⟩ <;> simp

theorem callAct_local {k : Call} (ha : callAct s c f k = .ok a) (hf : f = .body ∨ f = .handler ∧ (∃ n, k = .acquire n) ∨
    f = .handler ∧ (∃ n, k = .release n) ∨ f = .handler ∧ ∃ ch, k = .wakeup ch) : Local s c f a := by
  have hbody : f = .body ∨ f = .handler := by
    rcases hf with hf | ⟨hf, -⟩ | ⟨hf, -⟩ | ⟨hf, -⟩ <;> simp [hf]
  cases k with
  | acquire n =>
    cases ha
    rcases hbody with rfl | rfl <;> refine ⟨?_, ?_, ?_, ?_, ?_, ?_, ?_, ?_, .inl ⟨rfl, .none rfl rfl rfl⟩⟩ <;> simp
  | release n =>
    cases ha
    rcases hbody with rfl | rfl <;> refine ⟨?_, ?_, ?_, ?_, ?_, ?_, ?_, ?_, .inl ⟨rfl, .none rfl rfl rfl⟩⟩ <;> simp
  | wakeup ch =>
    cases ha
    rcases hbody with rfl | rfl <;> refine ⟨?_, ?_, ?_, ?_, ?_, ?_, ?_, ?_, .inl ⟨rfl, .none rfl rfl rfl⟩⟩ <;> simp
  | fork =>
    obtain rfl : f = .body := by simpa using hf
    obtain ⟨p, hp, ha⟩ := withProc_ok ha
    cases ha
    refine ⟨?_, ?_, ?_, ?_, ?_, ?_, ?_, ?_, .inl ⟨rfl, .none rfl rfl rfl⟩⟩ <;> simp [hp]
  | ret => cases ha
  | _ =>
    obtain rfl : f = .body := by simpa using hf
    cases ha
    refine ⟨?_, ?_, ?_, ?_, ?_, ?_, ?_, ?_, .inl ⟨rfl, .none rfl rfl rfl⟩⟩ <;> simp

theorem handlerAct_local {k : Call} (ha : handlerAct s c k = .ok a) : Local s c .handler a := by
  cases k with
  | acquire n => exact callAct_local (k := .acquire n) ha (by simp)
  | release n => exact callAct_local (k := .release n) ha (by simp)
  | wakeup ch => exact callAct_local (k := .wakeup ch) ha (by simp)
  | ret =>
    simp only [handlerAct] at ha
    split at ha <;> cases ha
    refine ⟨?_, ?_, ?_, ?_, ?_, ?_, ?_, ?_, .inl ⟨rfl, .none rfl rfl rfl⟩⟩ <;> simp
  | _ => cases ha

/-- An interrupt comes on top of a frame that holds no lock. -/
theorem push_local {g : Frame} (h0 : (s.cpu c).noff = 0) (hg : g = .handler ∨ g = .yield ∧ s.myproc c ≠ none) (hlk : f.LkOk)
    (ha : a = { next := [g, f] }) : Local s c f a := by
  subst ha
  have hlocal : ¬ g.IsSched ∧ g.crit = none ∧ g.self = none ∧ g.LkOk ∧ owned [g, f] = owned [f] := by
    rcases hg with rfl | ⟨rfl, -⟩ <;> simp [owned, List.filterMap_cons]
  obtain ⟨h1, h2, h3, h4, h5⟩ := hlocal
  refine ⟨?_, ?_, fun _ => .inr ⟨h0, g, rfl, hg⟩, ?_, ?_, ?_, ?_, fun _ => .inr h0, .inl ⟨rfl, .none rfl rfl h5⟩⟩
  · rintro x gs ⟨⟩ q hq
    rw [h2] at hq
    cases hq
  · simp [h0]
  · intro hf x hx
    simp only [List.mem_cons, List.not_mem_nil, or_false] at hx
    rcases hx with rfl | rfl
    · rcases hg with rfl | hg
      · exact .inl trivial
      · exact .inr ⟨h0, hg⟩
    · exact .inl hf
  · simp only [List.mem_cons, List.not_mem_nil, or_false]
    rintro hf x (rfl | rfl)
    · exact h1
    · exact hf
  · simp only [List.mem_cons, List.not_mem_nil, or_false]
    rintro x (rfl | rfl) q hq
    · rw [h3] at hq
      cases hq
    · exact .inl hq
  · simp only [List.mem_cons, List.not_mem_nil, or_false]
    rintro x (rfl | rfl)
    · exact h4
    · exact hlk

theorem labelAct_local {lb : Label} (ha : labelAct s f lb = .ok a) (hlk : f.LkOk) : Local s lb.cpu f a := by
  cases lb with
  | run c ok => exact act_local ha hlk
  | call c k =>
    simp only [labelAct] at ha
    split at ha
    · exact callAct_local ha (.inl rfl)
    · exact handlerAct_local ha
    · cases ha
  | intr c =>
    simp only [labelAct] at ha
    split at ha
    · next h0 =>
      cases ha
      exact push_local h0 (.inl rfl) hlk rfl
    · cases ha
  | timer c =>
    simp only [labelAct] at ha
    split at ha
    · next h0 =>
      split at ha
      · next p hp =>
        cases ha
        exact push_local h0 (.inr ⟨rfl, by simp [Label.cpu, hp]⟩) hlk rfl
      · cases ha
    · cases ha

end Local

end Xv6.Sched
