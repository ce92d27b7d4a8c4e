/-
The family tree: each step of the machine as one that makes, links, adopts, ends or frees
a process, or as one that does none of these; and what a point in fork, exit or wait
knows of the tree.
-/
import Xv6.Sched.WaitLock

namespace Xv6.Sched

open Lib

/-- Has been started and has not exited. -/
@[simp] def Alive : ProcState → Bool
  | .SLEEPING | .RUNNABLE | .RUNNING => true
  | _ => false

namespace Frame

/-- What is known of the tree here. -/
@[simp] def Knows (s : St) : Frame → Prop
  | fork1 p np | fork2 p np | fork3 p np => (s.proc np).creator = (s.proc p).uid ∧ (s.proc np).parent = none
  | fork4 _ np | fork5 _ np => (s.proc np).parent ≠ none
  | reparent p _ i => p ≠ s.initproc ∧ ∀ q : Fin NPROC, q.val < i → (s.proc q).parent ≠ some p
  | exit2 p _ | exit3 p _ => p ≠ s.initproc ∧ ∀ q, (s.proc q).parent ≠ some p
  | kids p i havekids => havekids = false → ∀ q : Fin NPROC, q.val < i → (s.proc q).parent ≠ some p
  | kid p i => (s.proc i).parent = some p
  | waitFail p .noKids => ∀ q, (s.proc q).parent ≠ some p
  | waitFail p .killed => (s.proc p).killed = true
  | _ => True

/-- In exit, with wait_lock: the children are being given to init. -/
@[simp] def exiting : Frame → Bool
  | reparent _ _ _ | exit2 _ _ | exit3 _ _ => true
  | _ => false

end Frame

/-- Nobody enters or leaves the tree by this write. -/
def KeepsKin (s : St) (f : Frame) (a : Act) : Prop :=
  ∀ q v, a.write = some (q, v) → v.uid = (s.proc q).uid ∧ v.creator = (s.proc q).creator ∧ v.parent = (s.proc q).parent ∧
    v.parentUid = (s.proc q).parentUid ∧ v.pid = (s.proc q).pid ∧ v.xstate = (s.proc q).xstate ∧
    ((s.proc q).killed = true → v.killed = true) ∧
    (v.state = (s.proc q).state ∨
      Alive v.state = true ∧ (Alive (s.proc q).state = true ∨ f.self = some q ∧ f ≠ .exit4 q))

/-- Not about processes. -/
@[simp] def Note.plain : Note → Bool
  | .none | .wakes | .woke _ => true
  | _ => false

inductive Kin (s : St) (f : Frame) (a : Act) : Prop where
  /-- allocproc finds a slot -/
  | alloc (p i : Fin NPROC) : f = .alloc1 p i → (s.proc i).state = .UNUSED → a.next = [.fork1 p i] → a.note = .allocpid →
    a.write = some (i, { s.proc i with
      pid := s.nextpid, state := .USED, uid := s.log.nextuid, creator := (s.proc p).uid, context := .kstack i }) → Kin s f a
  /-- … and gives it back, for lack of memory -/
  | dud (p i : Fin NPROC) (v : Proc) : f = .alloc1 p i → (s.proc i).state = .UNUSED → a.next = [] → a.note = .allocpid →
    a.write = some (i, freeproc v) → Kin s f a
  /-- fork fails -/
  | drop (p np : Fin NPROC) : f = .fork1 p np → a.next = [] → a.note = .none →
    a.write = some (np, freeproc (s.proc np)) → Kin s f a
  /-- fork sets the parent -/
  | link (p np : Fin NPROC) : f = .fork3 p np → a.next = [.fork4 p np] → a.note = .none →
    a.write = some (np, { s.proc np with parent := some p, parentUid := (s.proc p).uid }) → Kin s f a
  | ready (p np : Fin NPROC) : f = .fork5 p np → a.next = [] → a.note = .none →
    a.write = some (np, { s.proc np with state := .RUNNABLE }) → Kin s f a
  /-- reparent gives a child to init -/
  | adopt (p i : Fin NPROC) (status : Int) (w : Wake) : f = .reparent p status i → (s.proc i).parent = some p →
    a.next = [.wakeup w 0, .reparent p status (i + 1)] → a.note = .wakes →
    a.write = some (i, { s.proc i with parent := some s.initproc, parentUid := (s.proc s.initproc).uid }) → Kin s f a
  | exits (p : Fin NPROC) (status : Int) : f = .exit3 p status → a.next = [.exit4 p] → a.note = .exits p status →
    a.write = some (p, { s.proc p with xstate := status, state := .ZOMBIE }) → Kin s f a
  /-- wait returns a child -/
  | reap (p i : Fin NPROC) (pid : Int32) : f = .kid p i → (s.proc i).state = .ZOMBIE → a.next = [.waitDone pid] →
    a.note = .reaps ⟨(s.proc i).uid, (s.proc i).pid, (s.proc i).xstate, (s.proc p).uid, (s.proc i).creator,
      goneUid s.log (s.proc i).creator⟩ →
    a.write = some (i, freeproc (s.proc i)) → Kin s f a
  | calm : KeepsKin s f a → a.note.plain = true → (f.Knows s → ∀ g ∈ a.next, g.Knows s) →
    (f.exiting = true → ∃ g ∈ a.next, g.exiting = true) → Kin s f a

section Kin

variable {s : St} {c : Fin NCPU} {ok : Bool} {lb : Label} {f : Frame} {a : Act}

theorem KeepsKin.none (h : a.write = none) : KeepsKin s f a := by
  intro q v hw
  rw [h] at hw
  cases hw

theorem KeepsKin.some {p : Fin NPROC} {v : Proc} (hw : a.write = some (p, v)) (hu : v.uid = (s.proc p).uid)
    (hc : v.creator = (s.proc p).creator) (hp : v.parent = (s.proc p).parent) (hpu : v.parentUid = (s.proc p).parentUid)
    (hpid : v.pid = (s.proc p).pid) (hx : v.xstate = (s.proc p).xstate) (hk : (s.proc p).killed = true → v.killed = true)
    (hs : v.state = (s.proc p).state ∨
      Alive v.state = true ∧ (Alive (s.proc p).state = true ∨ f.self = some p ∧ f ≠ .exit4 p)) : KeepsKin s f a := by
  intro q u hu'
  rw [hw, Option.some.injEq, Prod.mk.injEq] at hu'
  obtain ⟨rfl, rfl⟩ := hu'
  exact ⟨hu, hc, hp, hpu, hpid, hx, hk, hs⟩

/-- A step that leads to points which know nothing of the tree. -/
theorem Kin.dull (hk : KeepsKin s f a) (hn : a.note.plain = true) (hg : ∀ g ∈ a.next, g.Knows s) (hf : f.exiting = false) :
    Kin s f a :=
  .calm hk hn (fun _ => hg) fun h => by rw [hf] at h; cases h

theorem wakeupAct_kin {w : Wake} {i : Nat} : Kin s (.wakeup w i) (wakeupAct s c w i) := by
  unfold wakeupAct
  split
  · split <;> exact .dull (.none rfl) rfl (by simp) rfl
  · exact .dull (.none rfl) rfl (by simp) rfl

theorem wakeup1Act_kin {w : Wake} {i : Fin NPROC} : Kin s (.wakeup1 w i) (wakeup1Act s w i) := by
  by_cases hs : (s.proc i).state = .SLEEPING ∧ (s.proc i).chan = w.chan
  · refine .dull (.some (v := { s.proc i with state := .RUNNABLE }) ?_ rfl rfl rfl rfl rfl rfl id ?_) rfl (by simp [wakeup1Act]) rfl
    · simp [wakeup1Act, hs]
    · exact .inr ⟨rfl, .inl (by rw [hs.1]; rfl)⟩
  · refine .dull (.some (v := s.proc i) ?_ rfl rfl rfl rfl rfl rfl id (.inl rfl)) rfl (by simp [wakeup1Act]) rfl
    simp [wakeup1Act, hs]

theorem kill1Act_kin {pid : Int32} {i : Fin NPROC} : Kin s (.kill1 pid i) (kill1Act s pid i) := by
  unfold kill1Act
  dsimp only
  split
  · refine .dull (.some rfl rfl rfl rfl rfl rfl rfl (fun _ => rfl) ?_) rfl (by simp) rfl
    by_cases hs : (s.proc i).state = .SLEEPING
    · exact .inr ⟨by rw [if_pos hs]; rfl, .inl (by rw [hs]; rfl)⟩
    · exact .inl (if_neg hs)
  · exact .dull (.none rfl) rfl (by simp) rfl

theorem alloc1Act_kin {p i : Fin NPROC} : Kin s (.alloc1 p i) (alloc1Act s ok p i) := by
  unfold alloc1Act
  dsimp only
  split
  · next hs =>
    split
    · exact .alloc p i rfl hs rfl rfl rfl
    · exact .dud p i _ rfl hs rfl rfl rfl
  · exact .dull (.none rfl) rfl (by simp) rfl

theorem reparentAct_kin {p : Fin NPROC} {status : Int} {i : Nat} :
    Kin s (.reparent p status i) (reparentAct s c p status i) := by
  unfold reparentAct
  split
  · next hi =>
    dsimp only
    split
    · next hp => exact .adopt p ⟨i, hi⟩ status _ rfl hp rfl rfl rfl
    · next hp =>
      refine .calm (.none rfl) rfl ?_ (by simp)
      rintro ⟨hinit, hq⟩ g hg
      rw [List.mem_singleton] at hg
      subst hg
      refine ⟨hinit, fun q hlt => ?_⟩
      rcases Nat.lt_succ_iff_lt_or_eq.mp hlt with hlt | rfl
      · exact hq q hlt
      · exact hp
  · next hi =>
    refine .calm (.none rfl) rfl ?_ (by simp)
    rintro ⟨hinit, hq⟩ g hg
    simp only [List.mem_cons, List.not_mem_nil, or_false] at hg
    rcases hg with rfl | rfl
    · trivial
    · exact ⟨hinit, fun q => hq q (Nat.lt_of_lt_of_le q.isLt (Nat.le_of_not_lt hi))⟩

theorem kidsAct_kin {p : Fin NPROC} {i : Nat} {havekids : Bool} : Kin s (.kids p i havekids) (kidsAct s p i havekids) := by
  unfold kidsAct
  split
  · next hi =>
    split
    · next hp => exact .dull (.none rfl) rfl (by simpa using hp) rfl
    · next hp =>
      refine .calm (.none rfl) rfl ?_ (by simp)
      intro hf g hg
      rw [List.mem_singleton] at hg
      subst hg
      intro hk q hlt
      rcases Nat.lt_succ_iff_lt_or_eq.mp hlt with hlt | rfl
      · exact hf hk q hlt
      · exact hp
  · next hi =>
    split
    · exact .dull (.none rfl) rfl (by simp) rfl
    · next hk =>
      refine .calm (.none rfl) rfl ?_ (by simp)
      intro hf g hg
      rw [List.mem_singleton] at hg
      subst hg
      exact fun q => hf (by simpa using hk) q (Nat.lt_of_lt_of_le q.isLt (Nat.le_of_not_lt hi))

theorem kidAct_kin {p i : Fin NPROC} : Kin s (.kid p i) (kidAct s ok p i) := by
  unfold kidAct
  dsimp only
  split
  · next hs =>
    split
    · exact .reap p i _ rfl hs rfl rfl rfl
    · exact .dull (.none rfl) rfl (by simp) rfl
  · exact .dull (.none rfl) rfl (by simp) rfl

theorem act_kin (ha : act s c ok f = .ok a) : Kin s f a := by
  cases f with
  | body | handler | dead => cases ha
  | forkret | yield | setkilled | wait =>
    obtain ⟨p, -, ha⟩ := withProc_ok ha
    cases ha
    exact .dull (.none rfl) rfl (by simp) rfl
  | sleep ch lk =>
    obtain ⟨p, -, ha⟩ := withProc_ok ha
    cases ha
    exact .dull (.some rfl rfl rfl rfl rfl rfl rfl id (.inl rfl)) rfl (by simp) rfl
  | exit status =>
    obtain ⟨p, -, ha⟩ := withProc_ok ha
    split at ha
    · cases ha
    · next hp =>
      cases ha
      exact .dull (.none rfl) rfl (by simpa using hp) rfl
  | chosen i =>
    simp only [act] at ha
    split at ha
    · next hr =>
      cases ha
      exact .dull (.some rfl rfl rfl rfl rfl rfl rfl id (.inr ⟨rfl, .inl (by rw [hr]; rfl)⟩)) rfl (by simp) rfl
    · cases ha
      exact .dull (.none rfl) rfl (by simp) rfl
  | kill | alloc =>
    simp only [act] at ha
    split at ha <;> cases ha <;> exact .dull (.none rfl) rfl (by simp) rfl
  | yield1 | sleep2 =>
    cases ha
    exact .dull (.some rfl rfl rfl rfl rfl rfl rfl id (.inr ⟨rfl, .inr ⟨rfl, by simp⟩⟩)) rfl (by simp) rfl
  | sleep3 =>
    cases ha
    exact .dull (.some rfl rfl rfl rfl rfl rfl rfl id (.inl rfl)) rfl (by simp) rfl
  | setkilled1 =>
    cases ha
    exact .dull (.some rfl rfl rfl rfl rfl rfl rfl (fun _ => rfl) (.inl rfl)) rfl (by simp) rfl
  | wakeup w i =>
    cases ha
    exact wakeupAct_kin
  | wakeup1 w i =>
    cases ha
    exact wakeup1Act_kin
  | kill1 pid i =>
    cases ha
    exact kill1Act_kin
  | alloc1 p i =>
    cases ha
    exact alloc1Act_kin
  | fork1 p np =>
    simp only [act] at ha
    split at ha
    · cases ha
      exact .calm (.none rfl) rfl (by simp) (by simp)
    · cases ha
      exact .drop p np rfl rfl rfl rfl
  | fork2 | fork4 | exit2 =>
    cases ha
    exact .calm (.none rfl) rfl (by simp) (by simp)
  | fork3 p np =>
    cases ha
    exact .link p np rfl rfl rfl rfl
  | fork5 p np =>
    cases ha
    exact .ready p np rfl rfl rfl rfl
  | reparent p status i =>
    cases ha
    exact reparentAct_kin
  | exit3 p status =>
    cases ha
    exact .exits p status rfl rfl rfl rfl
  | kids p i havekids =>
    cases ha
    exact kidsAct_kin
  | kid p i =>
    cases ha
    exact kidAct_kin
  | waitKilled p =>
    simp only [act] at ha
    split at ha
    · next hk =>
      cases ha
      exact .dull (.none rfl) rfl (by simpa using hk) rfl
    · cases ha
      exact .dull (.none rfl) rfl (by simp) rfl
  | _ =>
    cases ha
    exact .dull (.none rfl) rfl (by simp) rfl

theorem callAct_kin {k : Call} (hf : f = .body ∨ f = .handler) (ha : callAct s c f k = .ok a) : Kin s f a := by
  have hs : ∀ x, Frame.Knows s x → ∀ g ∈ [x, f], g.Knows s := by
    intro x hx g hg
    simp only [List.mem_cons, List.not_mem_nil, or_false] at hg
    rcases hg with rfl | rfl
    · exact hx
    · rcases hf with rfl | rfl <;> trivial
  have he : f.exiting = false := by rcases hf with rfl | rfl <;> rfl
  cases k with
  | acquire n | release n =>
    cases ha
    exact .dull (.none rfl) rfl (by rcases hf with rfl | rfl <;> simp) he
  | fork =>
    obtain ⟨p, -, ha⟩ := withProc_ok ha
    cases ha
    exact .dull (.none rfl) rfl (hs _ trivial) he
  | ret => cases ha
  | _ =>
    cases ha
    exact .dull (.none rfl) rfl (hs _ trivial) he

theorem handlerAct_kin {k : Call} (ha : handlerAct s c k = .ok a) : Kin s .handler a := by
  cases k with
  | acquire n => exact callAct_kin (c := c) (k := .acquire n) (.inr rfl) ha
  | release n => exact callAct_kin (c := c) (k := .release n) (.inr rfl) ha
  | wakeup ch => exact callAct_kin (c := c) (k := .wakeup ch) (.inr rfl) ha
  | ret =>
    simp only [handlerAct] at ha
    split at ha <;> cases ha
    exact .dull (.none rfl) rfl (by simp) rfl
  | _ => cases ha

/-- An interrupt. -/
theorem push_kin {x : Frame} (ha : a = { next := [x, f] }) (hx : Frame.Knows s x) : Kin s f a := by
  subst ha
  refine .calm (.none rfl) rfl (fun hf g hg => ?_) fun hf => ⟨f, by simp, hf⟩
  simp only [List.mem_cons, List.not_mem_nil, or_false] at hg
  rcases hg with rfl | rfl
  · exact hx
  · exact hf

/-- **Every step** makes, links, adopts, ends or frees a process, or does none of these. -/
theorem labelAct_kin (ha : labelAct s f lb = .ok a) : Kin s f a := by
  cases lb with
  | run c ok => exact act_kin ha
  | call c k =>
    simp only [labelAct] at ha
    split at ha
    · exact callAct_kin (.inl rfl) ha
    · exact handlerAct_kin ha
    · cases ha
  | intr c =>
    simp only [labelAct] at ha
    split at ha <;> cases ha
    exact push_kin rfl trivial
  | timer c =>
    simp only [labelAct] at ha
    split at ha
    · split at ha <;> cases ha
      exact push_kin rfl trivial
    · cases ha

end Kin

/-! ## Where wait_lock is held -/

/-- A point of fork, exit or wait that has wait_lock is on top, or waits for the call it has made. -/
theorem Stacked.position {fs : List Frame} {g : Frame} (h : Stacked fs) (hg : g ∈ fs) (hw : g.waits = true)
    (hk : ∀ p i b, g ≠ .kids p i b) : (∃ rest, fs = g :: rest) ∨ ∃ x rest, fs = x :: g :: rest ∧ x.kind = .wakes := by
  induction fs with
  | nil => cases hg
  | cons f rest ih =>
    obtain ⟨hover, hrest⟩ := h
    rcases List.mem_cons.mp hg with rfl | hg
    · exact .inl ⟨rest, rfl⟩
    · have hex : g.expects = true := by cases g <;> simp_all
      rcases ih hrest hg with ⟨r, rfl⟩ | ⟨x, r, rfl, hx⟩
      · refine .inr ⟨f, r, rfl, ?_⟩
        have ho := hover (.inl hex)
        cases g <;> simp_all [Over]
      · have ho := hover (.inr ⟨hx, g, r, rfl, hw⟩)
        cases x <;> simp_all [Over]

/-- Below the top, it has called wakeup. -/
theorem Stacked.below {f g : Frame} {rest : List Frame} (h : Stacked (f :: rest)) (hg : g ∈ rest) (hw : g.waits = true)
    (hk : ∀ p i b, g ≠ .kids p i b) : f.kind = .wakes := by
  have hex : g.expects = true := by cases g <;> simp_all
  rcases h.2.position hg hw hk with ⟨r, rfl⟩ | ⟨x, r, rfl, hx⟩
  · have ho := h.1 (.inl hex)
    cases g <;> simp_all [Over]
  · have ho := h.1 (.inr ⟨hx, g, r, rfl, hw⟩)
    cases x <;> simp_all [Over]

/-- wait's scan is on top, or will start over. -/
theorem Stacked.kids {fs : List Frame} {p : Fin NPROC} {i : Nat} {b : Bool} (h : Stacked fs) (hg : .kids p i b ∈ fs) :
    (∃ rest, fs = .kids p i b :: rest) ∨ i = 0 := by
  induction fs with
  | nil => cases hg
  | cons f rest ih =>
    obtain ⟨hover, hrest⟩ := h
    rcases List.mem_cons.mp hg with rfl | hg
    · exact .inl ⟨rest, rfl⟩
    · rcases ih hrest hg with ⟨r, rfl⟩ | h0
      · exact .inr (hover (.inl rfl)).2
      · exact .inr h0

end Xv6.Sched
