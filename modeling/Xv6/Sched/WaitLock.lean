/-
wait_lock: fork, exit and wait use the family tree only while they hold it. exit keeps it
through its calls of wakeup; wait gives it to sleep and has it back when sleep returns.
-/
import Xv6.Sched.Trace

namespace Xv6.Sched

open Lib

namespace Frame

/-- wait_lock is held here. -/
@[simp] def waits : Frame → Bool
  | fork3 _ _ | reparent _ _ _ | exit2 _ _ | exit3 _ _ | kids _ _ _ | kid _ _ | waitKilled _ | waitDone _ | waitFail _ _ => true
  | _ => false

/-- It is held here, or in a call of sleep that is about to release it. -/
@[simp] def expects : Frame → Bool
  | sleep _ lk | sleep1 _ _ lk => lk = .wait
  | f => f.waits

/-- The functions that fork, exit and wait call with wait_lock. -/
inductive Kind where
  | plain
  | wakes
  | sleeps (lk : Lock)
  deriving DecidableEq

@[simp] def kind : Frame → Kind
  | wakeup _ _ | wakeup1 _ _ => .wakes
  | sleep _ lk | sleep1 _ _ lk | sleep2 _ _ lk | sleep3 _ lk | sleep4 lk => .sleeps lk
  | _ => .plain

end Frame

/-- A processor on this stack holds wait_lock. -/
def Need : List Frame → Prop
  | [] => False
  | g :: gs => g.expects = true ∨ g.kind = .wakes ∧ ∃ h hs, gs = h :: hs ∧ h.waits = true

/-- `f` is a call made with wait_lock: wakeup by exit, sleep by wait. -/
def Over (f : Frame) : List Frame → Prop
  | .reparent _ _ _ :: _ | .exit2 _ _ :: _ => f.kind = .wakes
  | .kids _ i _ :: _ => f.kind = .sleeps .wait ∧ i = 0
  | _ => False

/-- With wait_lock nothing else is called, and no interrupt comes. -/
def Stacked : List Frame → Prop
  | [] => True
  | f :: rest => (Need rest → Over f rest) ∧ Stacked rest

theorem Over.kind {f : Frame} {fs : List Frame} (h : Over f fs) : f.kind = .wakes ∨ f.kind = .sleeps .wait := by
  unfold Over at h
  split at h
  · exact .inl h
  · exact .inl h
  · exact .inr h.1
  · exact absurd h id

theorem Over.congr {f g : Frame} {fs : List Frame} (h : Over f fs) (hk : g.kind = f.kind) : Over g fs := by
  unfold Over at *
  split <;> simp_all

/-! ## Each step -/

/-- What a step of a function does with wait_lock. -/
structure WaitLocal (s : St) (c : Fin NCPU) (f : Frame) (a : Act) : Prop where
  kind : ∀ g, a.next = [g] → f.kind ≠ .plain → g.kind = f.kind
  one : ∀ g, a.next = [g] → g.expects = true → a.op = .acquire .wait ∨ f.expects = true ∧ a.op ≠ .release .wait
  pop : a.next = [] → ∀ lk, f.kind = .sleeps lk → a.op = .acquire lk
  wakes : f.kind = .wakes → a.op ≠ .release .wait
  /-- a call: by code without wait_lock, or by exit or wait -/
  two : ∀ h g gs, a.next = h :: g :: gs → gs = [] ∧
    (g = f ∧ h.expects = false ∧ ((s.cpu c).noff = 0 ∨ f.expects = false ∧ f.kind = .plain) ∨
      f.expects = true ∧ f.kind = .plain ∧ a.op ≠ .release .wait ∧ Over h [g])

section WaitLocal

variable {s : St} {c : Fin NCPU} {ok : Bool} {f : Frame} {a : Act}

theorem wakeupAct_waitLocal {w : Wake} {i : Nat} : WaitLocal s c (.wakeup w i) (wakeupAct s c w i) := by
  unfold wakeupAct
  split
  · split <;> constructor <;> simp
  · constructor <;> simp

theorem kill1Act_waitLocal {pid : Int32} {i : Fin NPROC} : WaitLocal s c (.kill1 pid i) (kill1Act s pid i) := by
  unfold kill1Act
  dsimp only
  split <;> constructor <;> simp

theorem alloc1Act_waitLocal {p i : Fin NPROC} : WaitLocal s c (.alloc1 p i) (alloc1Act s ok p i) := by
  unfold alloc1Act
  dsimp only
  split
  · split <;> constructor <;> simp
  · constructor <;> simp

theorem reparentAct_waitLocal {p : Fin NPROC} {status : Int} {i : Nat} :
    WaitLocal s c (.reparent p status i) (reparentAct s c p status i) := by
  unfold reparentAct
  split
  · dsimp only
    split
    · constructor
      case two =>
        rintro x g gs ⟨⟩
        simp [Over]
      all_goals simp
    · constructor <;> simp
  · constructor
    case two =>
      rintro x g gs ⟨⟩
      simp [Over]
    all_goals simp

theorem kidsAct_waitLocal {p : Fin NPROC} {i : Nat} {havekids : Bool} :
    WaitLocal s c (.kids p i havekids) (kidsAct s p i havekids) := by
  unfold kidsAct
  split
  · split <;> constructor <;> simp
  · split <;> constructor <;> simp

theorem kidAct_waitLocal {p i : Fin NPROC} : WaitLocal s c (.kid p i) (kidAct s ok p i) := by
  unfold kidAct
  dsimp only
  split
  · split <;> constructor <;> simp
  · constructor <;> simp

theorem act_waitLocal (ha : act s c ok f = .ok a) : WaitLocal s c f a := by
  cases f with
  | body | handler | dead => cases ha
  | forkret | yield | setkilled | wait =>
    obtain ⟨p, -, ha⟩ := withProc_ok ha
    cases ha
    constructor <;> simp
  | sleep ch lk =>
    obtain ⟨p, -, ha⟩ := withProc_ok ha
    cases ha
    constructor <;> simp
  | exit status =>
    obtain ⟨p, -, ha⟩ := withProc_ok ha
    split at ha
    · cases ha
    · cases ha
      constructor <;> simp
  | chosen | kill | alloc | fork1 =>
    simp only [act] at ha
    split at ha <;> cases ha <;> constructor <;> simp
  | waitKilled p =>
    simp only [act] at ha
    split at ha
    · cases ha
      constructor <;> simp
    · cases ha
      constructor
      case two =>
        rintro x g gs ⟨⟩
        simp [Over]
      all_goals simp
  | wakeup w i =>
    cases ha
    exact wakeupAct_waitLocal
  | wakeup1 w i =>
    cases ha
    constructor <;> simp [wakeup1Act]
  | kill1 pid i =>
    cases ha
    exact kill1Act_waitLocal
  | alloc1 p i =>
    cases ha
    exact alloc1Act_waitLocal
  | reparent p status i =>
    cases ha
    exact reparentAct_waitLocal
  | kids p i havekids =>
    cases ha
    exact kidsAct_waitLocal
  | kid p i =>
    cases ha
    exact kidAct_waitLocal
  | _ =>
    cases ha
    constructor <;> simp

/-- A call by code that does not have wait_lock, or an interrupt. -/
theorem push_waitLocal {x : Frame} (hop : a.op = .none) (hn : a.next = [x, f]) (hx : x.expects = false)
    (hf : (s.cpu c).noff = 0 ∨ f.expects = false ∧ f.kind = .plain) : WaitLocal s c f a := by
  constructor
  case two =>
    intro h g gs he
    rw [hn] at he
    cases he
    exact ⟨rfl, .inl ⟨rfl, hx, hf⟩⟩
  all_goals simp [hop, hn]

theorem callAct_waitLocal {k : Call} (hf : f = .body ∨ f = .handler) (ha : callAct s c f k = .ok a) : WaitLocal s c f a := by
  have hfree : f.expects = false ∧ f.kind = .plain := by rcases hf with rfl | rfl <;> simp
  cases k with
  | acquire n | release n =>
    cases ha
    rcases hf with rfl | rfl <;> constructor <;> simp
  | fork =>
    obtain ⟨p, -, ha⟩ := withProc_ok ha
    cases ha
    exact push_waitLocal rfl rfl rfl (.inr hfree)
  | ret => cases ha
  | _ =>
    cases ha
    exact push_waitLocal rfl rfl rfl (.inr hfree)

theorem handlerAct_waitLocal {k : Call} (ha : handlerAct s c k = .ok a) : WaitLocal s c .handler a := by
  cases k with
  | acquire n => exact callAct_waitLocal (k := .acquire n) (.inr rfl) ha
  | release n => exact callAct_waitLocal (k := .release n) (.inr rfl) ha
  | wakeup ch => exact callAct_waitLocal (k := .wakeup ch) (.inr rfl) ha
  | ret =>
    simp only [handlerAct] at ha
    split at ha <;> cases ha
    constructor <;> simp
  | _ => cases ha

theorem labelAct_waitLocal {lb : Label} (ha : labelAct s f lb = .ok a) : WaitLocal s lb.cpu f a := by
  cases lb with
  | run c ok => exact act_waitLocal ha
  | call c k =>
    simp only [labelAct] at ha
    split at ha
    · exact callAct_waitLocal (.inl rfl) ha
    · exact handlerAct_waitLocal ha
    · cases ha
  | intr c =>
    simp only [labelAct] at ha
    split at ha
    · next h0 =>
      cases ha
      exact push_waitLocal rfl rfl rfl (.inl h0)
    · cases ha
  | timer c =>
    simp only [labelAct] at ha
    split at ha
    · next h0 =>
      split at ha
      · cases ha
        exact push_waitLocal rfl rfl rfl (.inl h0)
      · cases ha
    · cases ha

end WaitLocal

/-! ## Runs -/

structure Guarded (s : St) : Prop where
  stacked : ∀ k, Stacked (s.frames k)
  held : ∀ c, Need (s.frames (s.cpu c).cur) → s.lock .wait = some c

namespace Guarded

variable {s s' s1 : St} {lb : Label} {f : Frame} {rest : List Frame} {a : Act}

/-- The stack after the step, and wait_lock if it is needed there. -/
theorem next (h : Guarded s) (hp : Placed s) (t : Stepped s s' s1 lb f rest a) :
    Stacked (a.next ++ rest) ∧ (Need (a.next ++ rest) → s'.lock .wait = some lb.cpu) := by
  have w := labelAct_waitLocal t.act
  have hst := h.stacked (s.cpu lb.cpu).cur
  have hneed := h.held lb.cpu
  rw [t.onTop] at hst hneed
  obtain ⟨hover, hrest⟩ := hst
  have hkeep : a.op ≠ .release .wait → Need (f :: rest) → s'.lock .wait = some lb.cpu := fun hop hn =>
    (t.lock_iff _ _).mpr (.inr ⟨hneed hn, hop⟩)
  match hn : a.next with
  | [] =>
    refine ⟨hrest, fun hr => ?_⟩
    rw [List.nil_append] at hr
    rcases (hover hr).kind with hk | hk
    · -- wakeup returns to exit
      refine hkeep (w.wakes hk) (.inr ⟨hk, ?_⟩)
      have ho := hover hr
      unfold Over at ho
      split at ho
      · exact ⟨_, _, rfl, rfl⟩
      · exact ⟨_, _, rfl, rfl⟩
      · exact absurd (hk.symm.trans ho.1) (by simp)
      · exact absurd ho id
    · -- sleep returns to wait
      exact (t.lock_iff _ _).mpr (.inl ⟨w.pop hn .wait hk, rfl⟩)
  | [g] =>
    have hg : Need rest → Over g rest := fun hr => by
      refine (hover hr).congr (w.kind g hn fun hk => ?_)
      rcases (hover hr).kind with h1 | h1 <;> exact absurd (hk.symm.trans h1) (by simp)
    refine ⟨⟨hg, hrest⟩, fun hr => ?_⟩
    rcases hr with hr | ⟨hk, x, xs, rfl, hx⟩
    · rcases w.one g hn hr with hop | ⟨hf, hop⟩
      · exact (t.lock_iff _ _).mpr (.inl ⟨hop, rfl⟩)
      · exact hkeep hop (.inl hf)
    · have hr : Need (x :: xs) := by
        left
        cases x <;> simp_all
      have hfk : f.kind = .wakes := by
        rcases (hover hr).kind with h1 | h1
        · exact h1
        · have := w.kind g hn (by rw [h1]; simp)
          rw [hk, h1] at this
          cases this
      exact hkeep (w.wakes hfk) (.inr ⟨hfk, x, xs, rfl, hx⟩)
  | x :: g :: gs =>
    obtain ⟨rfl, ⟨rfl, hx, hfree⟩ | ⟨hf, hk, hop, ho⟩⟩ := w.two x g gs hn
    · have hno : ¬ Need (g :: rest) := by
        intro hr
        rcases hfree with h0 | ⟨h1, h2⟩
        · exact hp.locks.noff_pos (hneed hr) h0
        · rcases hr with hr | ⟨hr, -⟩
          · rw [h1] at hr
            cases hr
          · rw [h2] at hr
            cases hr
      refine ⟨⟨fun hr => absurd hr hno, hover, hrest⟩, fun hr => ?_⟩
      rcases hr with hr | ⟨-, y, ys, hy, hw⟩
      · rw [hx] at hr
        cases hr
      · obtain ⟨rfl, rfl⟩ := List.cons.inj hy
        refine absurd (.inl ?_) hno
        cases g <;> simp_all
    · have hno : ¬ Need rest := fun hr => by
        rcases (hover hr).kind with h1 | h1 <;> exact absurd (hk.symm.trans h1) (by simp)
      have ho' : Over x (g :: rest) := by
        unfold Over at ho ⊢
        split at ho <;> simp_all
      exact ⟨⟨fun _ => ho', fun hr => absurd hr hno, hrest⟩, fun _ => hkeep hop (.inl hf)⟩

theorem step {s s' : St} {lb : Label} (h : Guarded s) (hp : Placed s) (he : Sched.step s lb = .ok s') : Guarded s' := by
  obtain ⟨f, rest, a, s1, t⟩ := hp.stepped he
  obtain ⟨hst, hneed⟩ := h.next hp t
  refine ⟨fun k => ?_, fun d hd => ?_⟩
  · by_cases hq : ∃ q, a.start = some q ∧ k = .kstack q
    · obtain ⟨q, hq, rfl⟩ := hq
      rw [t.fresh q hq]
      exact ⟨fun hn => absurd hn id, trivial⟩
    by_cases hk : k = (s.cpu lb.cpu).cur
    · rw [hk, t.stack]
      exact hst
    · rw [t.frames k hk fun q hs hc => hq ⟨q, hs, hc⟩]
      exact h.stacked k
  · by_cases hdc : d = lb.cpu
    · subst hdc
      cases t.goes with
      | stay hcur hproc =>
        rw [hcur, t.stack] at hd
        exact hneed hd
      | clear i hf hc hc' hproc hfr =>
        rw [hc', hfr] at hd
        simp [Need] at hd
      | run i g gs hf hc hc' hproc hfr hres =>
        -- a process goes on without wait_lock
        rw [hc', hfr] at hd
        exfalso
        cases g <;> simp_all [Need, Frame.Resumes]
      | sched p hf hc hc' hproc hfr =>
        rw [hc', hfr] at hd
        simp [Need] at hd
    · rw [t.frames_other hp hdc] at hd
      exact (t.lock_other hdc).mpr (h.held d hd)

theorem init {s : St} (hs : Sched.init s) : Guarded s := by
  subst hs
  refine ⟨?_, fun c hc => ?_⟩
  · rintro (c | p)
    · simp [booted, Stacked, Need]
    · by_cases hp : p = 0 <;> simp [booted, Stacked, Need, hp]
  · simp [booted, Need] at hc

end Guarded

end Xv6.Sched
