/-
No wakeup is lost. sleep gives up `lk` only when it has p->lock, and keeps p->lock until p
is SLEEPING and off its stack; wakeup looks at p only with p->lock. So a call of
wakeup(chan) made with `lk` after p took `lk` finds p SLEEPING, or has still to come to p.
`no_lost_wakeup`: while p is SLEEPING on a channel, every wakeup of that channel that has
returned began before p took the lock under which it last checked its condition.
-/
import Xv6.Sched.Sleepers

namespace Xv6.Sched

open Lib

/-! ## Who holds a lock -/

/-- A lock that is not a process's: on its own stack a processor holds it only in an interrupt, and whoever acquired it
still runs there. -/
structure Owner (lk : Lock) (s : St) : Prop where
  cpu : ∀ c, s.lock lk = some c → (s.cpu c).cur = .cpu c → .handler ∈ s.frames (.cpu c)
  lockBy : ∀ c, s.lock lk = some c → s.log.lockBy lk = s.myproc c

/-- On a processor's own stack only an interrupt takes locks, and it returns without any. -/
theorem labelAct_onCpu {s : St} {f : Frame} {lb : Label} {a : Act} (ha : labelAct s f lb = .ok a) (hf : f.IsSched ∨ f.IsIntr) :
    (∀ l, a.op = .acquire l → (∃ q, l = .proc q) ∨ f = .handler ∧ .handler ∈ a.next) ∧
    (f = .handler → .handler ∈ a.next ∨ (s.cpu lb.cpu).noff = 0) := by
  cases lb with
  | run c ok =>
    simp only [labelAct] at ha
    cases f with
    | scan i | back i =>
      cases ha
      simp
    | chosen i =>
      simp only [act] at ha
      split at ha <;> cases ha <;> simp
    | handler => cases ha
    | wakeup w i =>
      cases ha
      refine ⟨fun l hl => ?_, fun h => by cases h⟩
      unfold wakeupAct at hl
      split at hl
      · split at hl
        · cases hl
        · cases hl
          exact .inl ⟨_, rfl⟩
      · cases hl
    | wakeup1 w i =>
      cases ha
      simp [wakeup1Act]
    | _ => simp at hf
  | call c k =>
    simp only [labelAct] at ha
    split at ha
    · simp at hf
    · cases k with
      | acquire n | release n | wakeup ch =>
        cases ha
        simp
      | ret =>
        simp only [handlerAct] at ha
        split at ha
        · next h0 =>
          cases ha
          simp [Label.cpu, h0]
        · cases ha
      | _ => cases ha
    · cases ha
  | intr c =>
    simp only [labelAct] at ha
    split at ha
    · next h0 =>
      cases ha
      simp [Label.cpu, h0]
    · cases ha
  | timer c =>
    simp only [labelAct] at ha
    split at ha
    · next h0 =>
      split at ha
      · cases ha
        simp [Label.cpu, h0]
      · cases ha
    · cases ha

namespace Owner

variable {lk : Lock} {s s' s1 : St} {lb : Label} {f : Frame} {rest : List Frame} {a : Act}

/-- scheduler() holds no such lock. -/
theorem not_sched {c : Fin NCPU} (h : Owner lk s) (hp : Placed s) (hon : s.frames (s.cpu c).cur = f :: rest) (hf : f.IsSched) :
    s.lock lk ≠ some c := by
  intro hl
  obtain ⟨hcur, rfl⟩ := hp.cur_sched hon hf
  have hin := h.cpu c hl hcur
  rw [← hcur, hon, List.mem_singleton] at hin
  subst hin
  exact hf

theorem step (h : Owner lk s) (hp : Placed s) (hlk : ∀ q, lk ≠ .proc q) (t : Stepped s s' s1 lb f rest a) : Owner lk s' := by
  obtain ⟨-, -, -, -, -, hacq, hkeep⟩ := doOp_log t.op
  have hby : s'.log.lockBy = s1.log.lockBy := by
    rw [t.log]
    cases a.note <;> rfl
  have hcpu : (s.cpu lb.cpu).cur = .cpu lb.cpu → f.IsSched ∨ f.IsIntr := by
    intro hc
    obtain ⟨pre, g, hfr, hs, hi, -⟩ := hp.shape lb.cpu
    have hon := t.onTop
    rw [hc, hfr] at hon
    cases pre with
    | nil =>
      obtain ⟨rfl, -⟩ := List.cons.inj hon
      exact .inl hs
    | cons x pre =>
      obtain ⟨rfl, -⟩ := List.cons.inj hon
      exact .inr (hi x (by simp))
  constructor
  · intro d hd hcur
    by_cases hdc : d = lb.cpu
    · subst hdc
      cases t.goes with
      | stay hc hproc =>
        rw [hc] at hcur
        obtain ⟨ha1, ha2⟩ := labelAct_onCpu t.act (hcpu hcur)
        have hst := t.stack
        rw [hcur] at hst
        rw [hst, List.mem_append]
        rcases (t.lock_iff _ _).mp hd with ⟨hop, -⟩ | ⟨hl, -⟩
        · rcases ha1 lk hop with ⟨q, hq⟩ | ⟨-, hin⟩
          · exact absurd hq (hlk q)
          · exact .inl hin
        · have hin := h.cpu _ hl hcur
          rw [← hcur, t.onTop, List.mem_cons] at hin
          rcases hin with hin | hin
          · rcases ha2 hin.symm with hin | h0
            · exact .inl hin
            · exact absurd h0 (hp.locks.noff_pos hl)
          · exact .inr hin
      | clear i hf hc hc' hproc hfr =>
        subst hf
        rcases (t.lock_iff _ _).mp hd with ⟨hop, -⟩ | ⟨hl, -⟩
        · rcases (labelAct_onCpu t.act (hcpu hc)).1 lk hop with ⟨q, hq⟩ | ⟨he, -⟩
          · exact absurd hq (hlk q)
          · cases he
        · exact absurd hl (h.not_sched hp t.onTop trivial)
      | run i g gs hf hc hc' hproc hfr hres =>
        rw [hc'] at hcur
        cases hcur
      | sched p hf hc hc' hproc hfr hl hn hlock =>
        -- sched() is called with p->lock alone
        rw [hlock] at hd
        exact absurd (hp.locks.only hn hl hd) (hlk p)
    · have hfr := t.frames_other hp hdc
      rw [t.other d hdc] at hcur hfr
      rw [← hcur, hfr, hcur]
      exact h.cpu d ((t.lock_other hdc).mp hd) hcur
  · intro d hd
    rw [hby]
    by_cases hdc : d = lb.cpu
    · subst hdc
      have hproc : s.lock lk = some lb.cpu ∨ a.op = .acquire lk → s'.myproc lb.cpu = s.myproc lb.cpu := by
        intro hor
        have hno : f.IsSched → (s.cpu lb.cpu).cur = .cpu lb.cpu → f ≠ .handler → False := by
          intro hs hc hne
          rcases hor with hl | hop
          · exact h.not_sched hp t.onTop hs hl
          · rcases (labelAct_onCpu t.act (hcpu hc)).1 lk hop with ⟨q, hq⟩ | ⟨he, -⟩
            · exact absurd hq (hlk q)
            · exact hne he
        cases t.goes with
        | stay hc hproc => exact hproc
        | clear i hf hc hc' hproc hfr => exact (hno (by rw [hf]; trivial) hc (by rw [hf]; simp)).elim
        | run i g gs hf hc hc' hproc hfr hres => exact (hno (by rw [hf]; trivial) hc (by rw [hf]; simp)).elim
        | sched p hf hc hc' hproc => exact hproc
      rcases (t.lock_iff _ _).mp hd with ⟨hop, -⟩ | ⟨hl, -⟩
      · rw [(hacq lk hop).2.2, hproc (.inr hop)]
      · have hne : a.op ≠ .acquire lk := fun hop => by
          have := t.op
          rw [hop] at this
          rw [(acquire_ok this).1] at hl
          cases hl
        rw [(hkeep lk hne).2, h.lockBy _ hl, hproc (.inl hl)]
    · have hl := (t.lock_other hdc).mp hd
      have hne : a.op ≠ .acquire lk := fun hop => by
        have := t.op
        rw [hop] at this
        rw [(acquire_ok this).1] at hl
        cases hl
      rw [(hkeep lk hne).2, h.lockBy d hl]
      unfold St.myproc
      rw [t.other d hdc]

end Owner

/-! ## Sleepers and wakeups -/

/-- p is SLEEPING on the channel, or in sleep with p->lock and about to be. -/
def St.Waiting (s : St) (ch : Chan) (p : Fin NPROC) : Prop :=
  (s.proc p).state = .SLEEPING ∧ (s.proc p).chan = some ch ∨
  ∃ d lk rest, (s.cpu d).cur = .kstack p ∧
    (s.frames (.kstack p) = .sleep1 p ch lk :: rest ∨ s.frames (.kstack p) = .sleep2 p ch lk :: rest)

/-- A call of wakeup, returned or not. -/
def St.Known (s : St) (w : Wake) : Prop := w ∈ s.log.completed ∨ ∃ k, ∃ f ∈ s.frames k, f.wake = some w

/-- A call of wakeup that has looked at p. -/
def St.Seen (s : St) (p : Fin NPROC) (w : Wake) : Prop :=
  w ∈ s.log.completed ∨ ∃ k, ∃ f ∈ s.frames k, f.wake = some w ∧ p.val < f.idx

theorem St.Seen.known {s : St} {p : Fin NPROC} {w : Wake} (h : s.Seen p w) : s.Known w := by
  rcases h with h | ⟨k, f, hf, hw, -⟩
  · exact .inl h
  · exact .inr ⟨k, f, hf, hw⟩

/-- The process whose stack it is. -/
def Stack.proc : Stack → Option (Fin NPROC)
  | .cpu _ => none
  | .kstack p => some p

section Steps

variable {s s' s1 : St} {lb : Label} {f : Frame} {rest : List Frame} {a : Act}

/-- Outside scheduler(), myproc() is the process whose stack it is. -/
theorem Placed.myproc_eq {c : Fin NCPU} (h : Placed s) (hon : s.frames (s.cpu c).cur = f :: rest) (hf : ∀ i, f ≠ .back i) :
    s.myproc c = (s.cpu c).cur.proc := by
  rcases h.place c with ⟨hcur, hback⟩ | ⟨p, hcur, hp, -⟩
  · rw [hcur]
    cases hq : (s.cpu c).proc with
    | none => exact hq
    | some i =>
      rw [hcur, hback i hq, List.cons.injEq] at hon
      exact absurd hon.1.symm (hf i)
  · rw [hcur]
    exact hp

theorem completed_step (t : Stepped s s' s1 lb f rest a) {w : Wake} (hw : w ∈ s'.log.completed) :
    w ∈ s.log.completed ∨ a.note = .woke w := by
  have hop := (doOp_log t.op).1
  rw [t.log] at hw
  unfold St.takeNote at hw
  split at hw
  case h_4 =>
    next w' he =>
    rcases List.mem_cons.mp hw with rfl | hw
    · exact .inr he
    · exact .inl (hop ▸ hw)
  all_goals exact .inl (hop ▸ hw)

theorem Frame.wake_of_neutral {g : Frame} (hg : g.neutral = true) : g.wake = none := by
  cases g <;> simp_all

theorem Does.woke (d : Does s lb f a) {w : Wake} (hn : a.note = .woke w) : ∃ i, f = .wakeup w i ∧ NPROC ≤ i := by
  cases d with
  | scan w' i hf ha =>
    subst hf ha
    unfold wakeupAct at hn
    split at hn
    · split at hn <;> cases hn
    · next hi =>
      cases hn
      exact ⟨i, rfl, Nat.le_of_not_lt hi⟩
  | sleeps p ch lk hf hp ha | unlocks p ch lk hf ha | asleep p ch lk hf ha | wake w' i hf ha =>
    subst ha
    cases hn
  | intr h h0 ha hh =>
    subst ha
    cases hn
  | calls ch lk g hnx hg hf hwr hst hgo hnote => exact absurd (hn.symm.trans hnote) (by simp)
  | wakes ch g hnx hg hf hop hst hgo hnote => exact absurd (hn.symm.trans hnote) (by simp)
  | other hf hg hk hc =>
    rw [hn] at hc
    cases hc

/-- How a call of wakeup begins: made by code outside proc.c, or by exit. -/
def Begins (s : St) (lb : Label) (f : Frame) (a : Act) (w : Wake) : Prop :=
  w.caller = s.myproc lb.cpu ∧ w.start = s.log.clock ∧ a.note = .wakes ∧ a.op = .none ∧ f.neutral = true ∧ (∀ i, f ≠ .back i) ∧
    ((∃ x, w.chan = some x ∧ lb = .call lb.cpu (.wakeup x)) ∨
      (∃ p st i, f = .reparent p st i) ∧ ∀ x, w.chan = some x → ∃ q, x = .proc q)

/-- A frame of wakeup goes on from the one before it, past itself or past a process whose lock it had; or it begins. -/
theorem Does.next_wake (d : Does s lb f a) {g : Frame} {w : Wake} (hg : g ∈ a.next) (hw : g.wake = some w) :
    f.wake = some w ∧ (∀ p : Fin NPROC, p.val < g.idx → p.val < f.idx ∨ s.myproc lb.cpu = some p ∨
      f = .wakeup1 w p ∧ a = wakeup1Act s w p) ∨ g.idx = 0 ∧ Begins s lb f a w := by
  cases d with
  | sleeps p ch lk hf hp ha | unlocks p ch lk hf ha | asleep p ch lk hf ha =>
    subst ha
    rw [List.mem_singleton] at hg
    subst hg
    cases hw
  | calls ch lk g' hnx hg' =>
    rw [hnx] at hg
    simp only [List.mem_cons, List.not_mem_nil, or_false] at hg
    rcases hg with rfl | rfl
    · cases hw
    · rw [Frame.wake_of_neutral hg'] at hw
      cases hw
  | wakes ch g' hnx hg' hf hop hst hgo hnote hk hby hfrom =>
    rw [hnx] at hg
    simp only [List.mem_cons, List.not_mem_nil, or_false] at hg
    rcases hg with rfl | rfl
    · cases hw
      refine .inr ⟨rfl, rfl, rfl, hnote, hop, hf, fun i hi => ?_, hby⟩
      subst hi
      simp at hfrom
    · rw [Frame.wake_of_neutral hg'] at hw
      cases hw
  | scan w' i hf ha =>
    subst hf ha
    unfold wakeupAct at hg
    split at hg
    · next hi =>
      split at hg
      · next hm =>
        rw [List.mem_singleton] at hg
        subst hg
        cases hw
        refine .inl ⟨rfl, fun p hp => ?_⟩
        rcases Nat.lt_succ_iff_lt_or_eq.mp hp with hp | hp
        · exact .inl hp
        · exact .inr (.inl (by rw [hm]; exact congrArg some (Fin.ext hp.symm)))
      · rw [List.mem_singleton] at hg
        subst hg
        cases hw
        exact .inl ⟨rfl, fun p hp => .inl hp⟩
    · cases hg
  | wake w' i hf ha =>
    subst hf ha
    obtain rfl : g = .wakeup w' (i + 1) := List.mem_singleton.mp hg
    cases hw
    refine .inl ⟨rfl, fun p hp => ?_⟩
    rcases Nat.lt_succ_iff_lt_or_eq.mp hp with hp | hp
    · exact .inl hp
    · obtain rfl : p = i := Fin.ext hp
      exact .inr (.inr ⟨rfl, rfl⟩)
  | intr h h0 ha hh =>
    subst ha
    simp only [List.mem_cons, List.not_mem_nil, or_false] at hg
    rcases hg with rfl | rfl
    · rw [Frame.wake_of_neutral hh] at hw
      cases hw
    · exact .inl ⟨hw, fun p hp => .inl hp⟩
  | other hf hn hk hc =>
    rw [Frame.wake_of_neutral (hn g hg)] at hw
    cases hw

/-- A call of wakeup was there, or begins with this step. -/
theorem known_step (t : Stepped s s' s1 lb f rest a) {w : Wake} (hw : s'.Known w) : s.Known w ∨ Begins s lb f a w := by
  have d := labelAct_does t.act
  have hmem : f ∈ s.frames (s.cpu lb.cpu).cur := by rw [t.onTop]; simp
  rcases hw with hw | ⟨k, g, hg, hw⟩
  · rcases completed_step t hw with hw | hn
    · exact .inl (.inl hw)
    · obtain ⟨i, rfl, -⟩ := d.woke hn
      exact .inl (.inr ⟨_, _, hmem, rfl⟩)
  · rcases t.mem_frames hg with hg | ⟨-, hg⟩ | ⟨r, -, -, rfl⟩
    · exact .inl (.inr ⟨k, g, hg, hw⟩)
    · rcases d.next_wake hg hw with ⟨hf, -⟩ | ⟨-, hb⟩
      · exact .inl (.inr ⟨_, f, hmem, hf⟩)
      · exact .inr hb
    · cases hw

/-- A call of wakeup has looked at p before, or goes past p as its own caller's processor or with p->lock. -/
theorem seen_step (t : Stepped s s' s1 lb f rest a) {p : Fin NPROC} {w : Wake} (hw : s'.Seen p w) :
    s.Seen p w ∨ f.wake = some w ∧ (s.myproc lb.cpu = some p ∨ f = .wakeup1 w p ∧ a = wakeup1Act s w p) := by
  have d := labelAct_does t.act
  have hmem : f ∈ s.frames (s.cpu lb.cpu).cur := by rw [t.onTop]; simp
  rcases hw with hw | ⟨k, g, hg, hw, hp⟩
  · rcases completed_step t hw with hw | hn
    · exact .inl (.inl hw)
    · obtain ⟨i, rfl, hi⟩ := d.woke hn
      exact .inl (.inr ⟨_, _, hmem, rfl, Nat.lt_of_lt_of_le p.isLt hi⟩)
  · rcases t.mem_frames hg with hg | ⟨-, hg⟩ | ⟨r, -, -, rfl⟩
    · exact .inl (.inr ⟨k, g, hg, hw, hp⟩)
    · rcases d.next_wake hg hw with ⟨hf, hidx⟩ | ⟨h0, -⟩
      · rcases hidx p hp with hp | hp
        · exact .inl (.inr ⟨_, f, hmem, hf, hp⟩)
        · exact .inr ⟨hf, hp⟩
      · rw [h0] at hp
        cases hp
    · cases hw

/-- A write to p's entry leaves its times alone and does not put it to sleep, but by p itself in sleep. -/
theorem Does.write (d : Does s lb f a) {p : Fin NPROC} {v : Proc} (hw : a.write = some (p, v)) :
    (∃ ch lk, f = .sleep ch lk ∧ s.myproc lb.cpu = some p ∧
      v = { s.proc p with locked := s.log.lockTime lk, checked := s.log.clock }) ∨
    v.locked = (s.proc p).locked ∧ v.checked = (s.proc p).checked ∧
      (v.state = .SLEEPING → (∃ lk ch, f = .sleep2 p ch lk ∧ v.chan = some ch) ∨
        (s.proc p).state = .SLEEPING ∧ ∀ ch, v.chan = some ch → (s.proc p).chan = some ch) := by
  have keeps : KeepsSleep s a → v.locked = (s.proc p).locked ∧ v.checked = (s.proc p).checked ∧
      (v.state = .SLEEPING → (∃ lk ch, f = .sleep2 p ch lk ∧ v.chan = some ch) ∨
        (s.proc p).state = .SLEEPING ∧ ∀ ch, v.chan = some ch → (s.proc p).chan = some ch) := fun hk =>
    have ⟨h1, h2, h3⟩ := hk p v hw
    ⟨h1, h2, fun hs => .inr (h3 hs)⟩
  cases d with
  | sleeps q ch lk hf hp ha =>
    subst ha
    cases hw
    exact .inl ⟨ch, lk, hf, hp, rfl⟩
  | unlocks q ch lk hf ha =>
    subst ha
    cases hw
  | asleep q ch lk hf ha =>
    subst ha
    cases hw
    exact .inr ⟨rfl, rfl, fun _ => .inl ⟨lk, ch, hf, rfl⟩⟩
  | calls ch lk g hnx hg hf hwr =>
    rw [hwr] at hw
    cases hw
  | wakes ch g hnx hg hf hop hst hgo hnote hk => exact .inr (keeps hk)
  | scan w i hf ha =>
    subst ha
    unfold wakeupAct at hw
    split at hw
    · split at hw <;> cases hw
    · cases hw
  | wake w i hf ha =>
    subst ha
    cases hw
    refine .inr ?_
    split
    · exact ⟨rfl, rfl, fun h => by cases h⟩
    · exact ⟨rfl, rfl, fun h => .inr ⟨h, fun _ => id⟩⟩
  | intr h h0 ha hh =>
    subst ha
    cases hw
  | other hf hn hk hc => exact .inr (keeps hk)

/-- On the way to sleep p comes from the frame before. -/
theorem Does.head_sleep (d : Does s lb f a) {g : Frame} {gs : List Frame} {p : Fin NPROC} {ch : Chan} {lk : Lock}
    (hn : a.next = g :: gs) (hg : g = .sleep1 p ch lk ∨ g = .sleep2 p ch lk) :
    f = .sleep ch lk ∧ s.myproc lb.cpu = some p ∧
      a.write = some (p, { s.proc p with locked := s.log.lockTime lk, checked := s.log.clock }) ∨
    f = .sleep1 p ch lk ∧ a.write = none := by
  have hnn : g.neutral = false ∧ g.wake = none := by rcases hg with rfl | rfl <;> simp
  cases d with
  | sleeps q x l hf hm ha =>
    subst ha
    obtain ⟨rfl, -⟩ := List.cons.inj hn
    rcases hg with hg | hg
    · cases hg
      exact .inl ⟨hf, hm, rfl⟩
    · cases hg
  | unlocks q x l hf ha =>
    subst ha
    obtain ⟨rfl, -⟩ := List.cons.inj hn
    rcases hg with hg | hg
    · cases hg
    · cases hg
      exact .inr ⟨hf, rfl⟩
  | asleep q x l hf ha =>
    subst ha
    obtain ⟨rfl, -⟩ := List.cons.inj hn
    cases hnn.1
  | calls x l g' hnx =>
    rw [hnx] at hn
    obtain ⟨rfl, -⟩ := List.cons.inj hn
    rcases hg with hg | hg <;> cases hg
  | wakes x g' hnx =>
    rw [hnx] at hn
    obtain ⟨rfl, -⟩ := List.cons.inj hn
    cases hnn.2
  | scan w i hf ha =>
    subst ha
    unfold wakeupAct at hn
    split at hn
    · split at hn
      · obtain ⟨rfl, -⟩ := List.cons.inj hn
        cases hnn.2
      · obtain ⟨rfl, -⟩ := List.cons.inj hn
        cases hnn.2
    · cases hn
  | wake w i hf ha =>
    subst ha
    obtain ⟨rfl, -⟩ := List.cons.inj hn
    cases hnn.2
  | intr h h0 ha hh =>
    subst ha
    obtain ⟨rfl, -⟩ := List.cons.inj hn
    rw [hh] at hnn
    cases hnn.1
  | other hf ho hk hc =>
    rw [ho g (by rw [hn]; simp)] at hnn
    cases hnn.1

/-- What calls sleep, and with which lock. -/
theorem Does.head_call (d : Does s lb f a) {gs : List Frame} {ch : Chan} {lk : Lock} (hn : a.next = .sleep ch lk :: gs) :
    (∃ n, lb = .call lb.cpu (.sleep ch n) ∧ lk = .other n ∧ a.op = .none) ∨
    ∃ p, f = .waitKilled p ∧ ch = .proc p ∧ lk = .wait ∧ a.op = .release (.proc p) := by
  cases d with
  | sleeps q x l hf hm ha | unlocks q x l hf ha | asleep q x l hf ha =>
    subst ha
    cases hn
  | wake w i hf ha =>
    subst ha
    cases hn
  | calls x l g hnx hg hf hwr hst hgo hnote hcall =>
    rw [hnx] at hn
    cases hn
    exact hcall
  | wakes x g hnx =>
    rw [hnx] at hn
    cases hn
  | scan w i hf ha =>
    subst ha
    unfold wakeupAct at hn
    split at hn
    · split at hn <;> cases hn
    · cases hn
  | intr h h0 ha hh =>
    subst ha
    cases hn
    cases hh
  | other hf ho hk hc => cases ho (.sleep ch lk) (by rw [hn]; simp)

/-- What stays below the top is neither in sleep nor in wakeup, but when an interrupt comes. -/
theorem Does.tail (d : Does s lb f a) {g : Frame} (hg : g ∈ a.next.tail) :
    g.neutral = true ∨ (s.cpu lb.cpu).noff = 0 ∧ g = f := by
  cases d with
  | sleeps q x l hf hm ha | unlocks q x l hf ha | asleep q x l hf ha =>
    subst ha
    cases hg
  | wake w i hf ha =>
    subst ha
    cases hg
  | calls x l g' hnx hg' =>
    rw [hnx, List.tail_cons, List.mem_singleton] at hg
    exact .inl (hg ▸ hg')
  | wakes x g' hnx hg' =>
    rw [hnx, List.tail_cons, List.mem_singleton] at hg
    exact .inl (hg ▸ hg')
  | scan w i hf ha =>
    subst ha
    unfold wakeupAct at hg
    split at hg
    · split at hg <;> cases hg
    · cases hg
  | intr h h0 ha hh =>
    subst ha
    exact .inr ⟨h0, List.mem_singleton.mp hg⟩
  | other hf ho hk hc => exact .inl (ho g (List.mem_of_mem_tail hg))

/-- The entry of p after the step, as far as sleep and wakeup go. -/
theorem entry_step (t : Stepped s s' s1 lb f rest a) (p : Fin NPROC) :
    (∃ ch lk, f = .sleep ch lk ∧ s.myproc lb.cpu = some p ∧ (s'.proc p).state = (s.proc p).state ∧
      (s'.proc p).locked = s.log.lockTime lk ∧ (s'.proc p).checked = s.log.clock) ∨
    (s'.proc p).locked = (s.proc p).locked ∧ (s'.proc p).checked = (s.proc p).checked ∧
      ((s'.proc p).state = .SLEEPING → (∃ lk ch, f = .sleep2 p ch lk ∧ (s'.proc p).chan = some ch) ∨
        (s.proc p).state = .SLEEPING ∧ ∀ ch, (s'.proc p).chan = some ch → (s.proc p).chan = some ch) := by
  by_cases hw : ∃ v, a.write = some (p, v)
  · obtain ⟨v, hw⟩ := hw
    obtain ⟨k, hk⟩ := t.written p v hw
    rw [hk]
    rcases (labelAct_does t.act).write hw with ⟨ch, lk, hf, hm, rfl⟩ | hv
    · exact .inl ⟨ch, lk, hf, hm, rfl, rfl, rfl⟩
    · exact .inr hv
  · obtain ⟨k, hk⟩ := t.proc p fun v hv => hw ⟨v, hv⟩
    rw [hk]
    exact .inr ⟨rfl, rfl, fun h => .inr ⟨h, fun _ => id⟩⟩

/-- Code in a function that is not scheduler()'s or an interrupt's runs on the stack of its process. -/
theorem Placed.cur_of_myproc {c : Fin NCPU} {p : Fin NPROC} (h : Placed s) (hon : s.frames (s.cpu c).cur = f :: rest)
    (hf : ∀ i, f ≠ .back i) (hp : s.myproc c = some p) : (s.cpu c).cur = .kstack p := by
  rw [h.myproc_eq hon hf] at hp
  cases hc : (s.cpu c).cur with
  | cpu d =>
    rw [hc] at hp
    cases hp
  | kstack q =>
    rw [hc] at hp
    rw [Option.some.inj hp]

/-- Who waits after a step waited before, or has just called sleep. -/
theorem waiting_step (hp : Placed s) (t : Stepped s s' s1 lb f rest a) {ch : Chan} {p : Fin NPROC} (hw : s'.Waiting ch p) :
    s.Waiting ch p ∧ (s'.proc p).locked = (s.proc p).locked ∧ (s'.proc p).checked = (s.proc p).checked ∨
    ∃ lk, f = .sleep ch lk ∧ s.myproc lb.cpu = some p ∧ (s'.proc p).locked = s.log.lockTime lk ∧
      (s'.proc p).checked = s.log.clock := by
  rcases hw with ⟨hst, hch⟩ | ⟨d, lk, gs, hcur, hfr⟩
  · rcases entry_step t p with ⟨ch', lk', hf, hm, hst', -⟩ | ⟨h1, h2, h3⟩
    · -- who runs is not SLEEPING
      have hc := hp.cur_of_myproc t.onTop (by rw [hf]; simp) hm
      rw [hst'] at hst
      rcases hp.running hc with hr | ⟨hr, -⟩
      · rw [hst] at hr
        cases hr
      · rw [hst] at hr
        cases hr
    · rcases h3 hst with ⟨lk', ch', hf, hch'⟩ | ⟨hs, hc⟩
      · obtain rfl : ch' = ch := Option.some.inj (hch'.symm.trans hch)
        have hc := hp.cur_self (p := p) t.onTop (by rw [hf]; rfl)
        have hon := t.onTop
        rw [hc, hf] at hon
        exact .inl ⟨.inr ⟨lb.cpu, lk', rest, hc, .inr hon⟩, h1, h2⟩
      · exact .inl ⟨.inl ⟨hs, hc ch hch⟩, h1, h2⟩
  · by_cases hdc : d = lb.cpu
    · subst hdc
      cases t.goes with
      | stay hc hproc =>
        rw [hc] at hcur
        have hst := t.stack
        rw [hcur] at hst
        have htop : ∃ g, (g = .sleep1 p ch lk ∨ g = .sleep2 p ch lk) ∧ a.next ++ rest = g :: gs := by
          rcases hfr with hfr | hfr
          · exact ⟨_, .inl rfl, hst.symm.trans hfr⟩
          · exact ⟨_, .inr rfl, hst.symm.trans hfr⟩
        obtain ⟨g, hg, hnext⟩ := htop
        cases hn : a.next with
        | nil =>
          -- below the top no frame expects a lock
          rw [hn, List.nil_append] at hnext
          have hcrit := hp.lower (s.cpu lb.cpu).cur g (by rw [t.onTop, hnext]; simp)
          rcases hg with rfl | rfl <;> cases hcrit
        | cons g' gs' =>
          rw [hn, List.cons_append, List.cons.injEq] at hnext
          rw [hnext.1] at hn
          rcases (labelAct_does t.act).head_sleep hn hg with ⟨hf, hm, hw⟩ | ⟨hf, hw⟩
          · obtain ⟨k, hk⟩ := t.written p _ hw
            exact .inr ⟨lk, hf, hm, by rw [hk], by rw [hk]⟩
          · have hon := t.onTop
            rw [hcur, hf] at hon
            obtain ⟨k, hk⟩ := t.proc p fun v hv => by
              rw [hw] at hv
              cases hv
            exact .inl ⟨.inr ⟨_, lk, rest, hcur, .inl hon⟩, by rw [hk], by rw [hk]⟩
      | clear i hf hc hc' =>
        rw [hc'] at hcur
        cases hcur
      | run i g gs' hf hc hc' hproc hfr' hres =>
        rw [hc', Stack.kstack.injEq] at hcur
        subst hcur
        rw [hfr'] at hfr
        rcases hfr with hfr | hfr
        · rw [(List.cons.inj hfr).1] at hres
          exact absurd hres id
        · rw [(List.cons.inj hfr).1] at hres
          exact absurd hres id
      | sched q hf hc hc' =>
        rw [hc'] at hcur
        cases hcur
    · have hfr' := t.frames_other hp hdc
      rw [hcur] at hfr'
      rw [t.other d hdc] at hcur
      rw [hfr', hcur] at hfr
      have hwait : s.Waiting ch p := .inr ⟨d, lk, gs, hcur, hfr⟩
      rcases entry_step t p with ⟨ch', lk', hf, hm, -⟩ | ⟨h1, h2, -⟩
      · have hc := hp.cur_of_myproc t.onTop (by rw [hf]; simp) hm
        exact absurd (hp.alone d lb.cpu (hcur.trans hc.symm)) hdc
      · exact .inl ⟨hwait, h1, h2⟩

end Steps

/-! ## No wakeup is lost -/

/-- What is asked of the code that uses the channel: it calls sleep with `lk`, which it holds, and wakeup with `lk` held. -/
def Disciplined (ch : Chan) (lk : Lock) (s : St) : Label → Prop
  | .call c (.sleep x n) => x = ch → lk = .other n ∧ s.lock lk = some c
  | .call c (.wakeup x) => x = ch → s.lock lk = some c
  | _ => True

instance Disciplined.decidable (ch : Chan) (lk : Lock) (s : St) : ∀ lb, Decidable (Disciplined ch lk s lb)
  | .run _ _ => .isTrue trivial
  | .intr _ => .isTrue trivial
  | .timer _ => .isTrue trivial
  | .call _ k => match k with
    | .sleep _ _ => inferInstanceAs (Decidable (_ → _))
    | .wakeup _ => inferInstanceAs (Decidable (_ → _))
    | .acquire _ => .isTrue trivial
    | .release _ => .isTrue trivial
    | .kill _ => .isTrue trivial
    | .setkilled => .isTrue trivial
    | .fork => .isTrue trivial
    | .exit _ => .isTrue trivial
    | .wait => .isTrue trivial
    | .ret => .isTrue trivial

structure Awake (ch : Chan) (lk : Lock) (s : St) : Prop where
  /-- sleep on the channel starts with `lk`, and nothing comes between -/
  top : ∀ c rest l, s.frames (s.cpu c).cur = .sleep ch l :: rest → l = lk ∧ s.lock lk = some c
  tail : ∀ k, ∀ g ∈ (s.frames k).tail, ∀ l, g ≠ .sleep ch l
  caller : ∀ k, ∀ g ∈ s.frames k, ∀ w, g.wake = some w → w.caller = k.proc
  time : ∀ w, s.Known w → w.start < s.log.clock
  /-- who wakes the channel has the lock since before, or had it before who has it now -/
  holder : ∀ w, s.Known w → w.chan = some ch → w.start < s.log.lockTime lk ∨ w.caller = s.log.lockBy lk
  own : ∀ p w, s.Waiting ch p → s.Known w → w.caller = some p → w.start < (s.proc p).checked
  seen : ∀ p w, s.Waiting ch p → w.chan = some ch → s.Seen p w → w.caller ≠ some p → w.start < (s.proc p).locked
  clock : s.log.lockTime lk ≤ s.log.clock
  order : ∀ p, s.Waiting ch p → (s.proc p).locked ≤ (s.proc p).checked

/-- The step's note does not turn back the clock. -/
theorem clock_le {s s' s1 : St} {lb : Label} {f : Frame} {rest : List Frame} {a : Act} (t : Stepped s s' s1 lb f rest a) :
    s1.log.clock ≤ s'.log.clock := by
  rw [t.log]
  cases a.note <;> simp [St.takeNote]

namespace Awake

variable {ch : Chan} {lk : Lock} {s s' s1 : St} {lb : Label} {f : Frame} {rest : List Frame} {a : Act}

theorem time_step (h : Awake ch lk s) (t : Stepped s s' s1 lb f rest a) : ∀ w, s'.Known w → w.start < s'.log.clock := by
  intro w hw
  have hle : s.log.clock ≤ s1.log.clock := (doOp_log t.op).2.2.2.2.1
  rcases known_step t hw with hk | ⟨-, hst, hn, -⟩
  · exact Nat.lt_of_lt_of_le (h.time w hk) (Nat.le_trans hle (clock_le t))
  · rw [hst, t.log, hn]
    exact Nat.lt_succ_of_le hle

theorem clock_step (h : Awake ch lk s) (t : Stepped s s' s1 lb f rest a) : s'.log.lockTime lk ≤ s'.log.clock := by
  obtain ⟨-, -, -, -, hle, hacq, hkeep⟩ := doOp_log t.op
  have hlog : s'.log.lockTime = s1.log.lockTime := by
    rw [t.log]
    cases a.note <;> rfl
  refine Nat.le_trans ?_ (Nat.le_trans hle (clock_le t))
  rw [hlog]
  by_cases hop : a.op = .acquire lk
  · exact Nat.le_of_eq (hacq lk hop).2.1
  · rw [(hkeep lk hop).1]
    exact h.clock

theorem order_step (h : Awake ch lk s) (hp : Placed s) (t : Stepped s s' s1 lb f rest a) :
    ∀ p, s'.Waiting ch p → (s'.proc p).locked ≤ (s'.proc p).checked := by
  intro p hw
  rcases waiting_step hp t hw with ⟨hw', hlocked, hchecked⟩ | ⟨l, hf, hm, hlocked, hchecked⟩
  · rw [hlocked, hchecked]
    exact h.order p hw'
  · have hon := t.onTop
    rw [hf] at hon
    obtain ⟨rfl, -⟩ := h.top _ _ _ hon
    rw [hlocked, hchecked]
    exact h.clock

theorem caller_step (h : Awake ch lk s) (hp : Placed s) (t : Stepped s s' s1 lb f rest a) :
    ∀ k, ∀ g ∈ s'.frames k, ∀ w, g.wake = some w → w.caller = k.proc := by
  intro k g hg w hw
  rcases t.mem_frames hg with hg | ⟨hk, hg⟩ | ⟨r, -, -, rfl⟩
  · exact h.caller k g hg w hw
  · rcases (labelAct_does t.act).next_wake hg hw with ⟨hf, -⟩ | ⟨-, hc, -, -, -, -, hback, -⟩
    · exact h.caller k f (by rw [hk, t.onTop]; simp) w hf
    · rw [hc, hk]
      exact hp.myproc_eq t.onTop hback
  · cases hw

/-- Whoever begins a wakeup of the channel holds the lock. -/
theorem begins_lock (hch : ∀ q, ch = .proc q → lk = .wait) (hg : Guarded s) (hd : Disciplined ch lk s lb)
    (t : Stepped s s' s1 lb f rest a) {w : Wake} (hb : Begins s lb f a w) (hw : w.chan = some ch) :
    s.lock lk = some lb.cpu := by
  obtain ⟨-, -, -, -, -, -, ⟨x, hx, hlb⟩ | ⟨⟨p, st, i, hf⟩, hx⟩⟩ := hb
  · rw [hlb] at hd
    exact hd (Option.some.inj (hx.symm.trans hw))
  · obtain ⟨q, hq⟩ := hx ch hw
    rw [hch q hq]
    refine hg.held lb.cpu ?_
    rw [t.onTop, hf]
    exact .inl rfl

theorem holder_step (h : Awake ch lk s) (hch : ∀ q, ch = .proc q → lk = .wait) (hg : Guarded s) (ho : Owner lk s)
    (hd : Disciplined ch lk s lb) (t : Stepped s s' s1 lb f rest a) :
    ∀ w, s'.Known w → w.chan = some ch → w.start < s'.log.lockTime lk ∨ w.caller = s'.log.lockBy lk := by
  intro w hw hc
  obtain ⟨-, -, -, -, -, hacq, hkeep⟩ := doOp_log t.op
  have hlog : s'.log.lockTime = s1.log.lockTime ∧ s'.log.lockBy = s1.log.lockBy := by
    rw [t.log]
    cases a.note <;> exact ⟨rfl, rfl⟩
  rw [hlog.1, hlog.2]
  rcases known_step t hw with hk | hb
  · by_cases hop : a.op = .acquire lk
    · rw [(hacq lk hop).2.1]
      exact .inl (h.time w hk)
    · rw [(hkeep lk hop).1, (hkeep lk hop).2]
      exact h.holder w hk hc
  · have hl := begins_lock hch hg hd t hb hc
    obtain ⟨hcaller, -, -, hop, -⟩ := hb
    rw [(hkeep lk (by rw [hop]; simp)).2, ho.lockBy _ hl]
    exact .inr hcaller

/-- Who waits makes no calls. -/
theorem not_begins (hp : Placed s) (t : Stepped s s' s1 lb f rest a) {p : Fin NPROC} {w : Wake} (hw : s.Waiting ch p)
    (hb : Begins s lb f a w) : w.caller ≠ some p := by
  intro hc
  obtain ⟨hcaller, -, -, -, hn, hback, -⟩ := hb
  have hcur := hp.cur_of_myproc t.onTop hback (hcaller.symm.trans hc)
  rcases hw with ⟨hst, -⟩ | ⟨d, l, gs, hd, hfr⟩
  · rcases hp.running hcur with hr | ⟨hr, -⟩
    · rw [hst] at hr
      cases hr
    · rw [hst] at hr
      cases hr
  · have hon := t.onTop
    rw [hcur] at hon
    rcases hfr with hfr | hfr
    · rw [hfr, List.cons.injEq] at hon
      rw [← hon.1] at hn
      cases hn
    · rw [hfr, List.cons.injEq] at hon
      rw [← hon.1] at hn
      cases hn

theorem own_step (h : Awake ch lk s) (hp : Placed s) (t : Stepped s s' s1 lb f rest a) :
    ∀ p w, s'.Waiting ch p → s'.Known w → w.caller = some p → w.start < (s'.proc p).checked := by
  intro p w hw hk hc
  rcases waiting_step hp t hw with ⟨hw', -, hchecked⟩ | ⟨l, hf, hm, -, hchecked⟩
  · rw [hchecked]
    rcases known_step t hk with hk | hb
    · exact h.own p w hw' hk hc
    · exact absurd hc (not_begins hp t hw' hb)
  · rw [hchecked]
    rcases known_step t hk with hk | ⟨-, -, -, -, hn, -⟩
    · exact h.time w hk
    · rw [hf] at hn
      cases hn

theorem seen_step (h : Awake ch lk s) (hp : Placed s) (hp' : Placed s') (ho : Owner lk s) (t : Stepped s s' s1 lb f rest a) :
    ∀ p w, s'.Waiting ch p → w.chan = some ch → s'.Seen p w → w.caller ≠ some p → w.start < (s'.proc p).locked := by
  intro p w hw hc hs hne
  rcases waiting_step hp t hw with ⟨hw', hlocked, -⟩ | ⟨l, hf, hm, hlocked, -⟩
  · rw [hlocked]
    rcases Sched.seen_step t hs with hs | ⟨hfw, hm | ⟨hf, ha⟩⟩
    · exact h.seen p w hw' hc hs hne
    · -- wakeup goes past its own process
      have hcaller := h.caller _ f (by rw [t.onTop]; simp) w hfw
      rw [← hp.myproc_eq t.onTop fun i hi => by rw [hi] at hfw; cases hfw] at hcaller
      exact absurd (hcaller.trans hm) hne
    · -- wakeup has had p->lock: p is not on its way to sleep, nor SLEEPING on the channel any more
      subst ha
      exfalso
      rcases hw with ⟨hst, hch⟩ | ⟨d, l, gs, hcur, hfr⟩
      · obtain ⟨k, hk⟩ := t.written p _ rfl
        rw [hk] at hst hch
        dsimp only at hst hch
        split at hst
        · cases hst
        · next hno =>
          rw [if_neg hno] at hch
          exact hno ⟨hst, hch.trans hc.symm⟩
      · have hlock : s'.lock (.proc p) = some d := by
          rcases hfr with hfr | hfr
          · exact hp'.top d _ _ (by rw [hcur, hfr]) p rfl
          · exact hp'.top d _ _ (by rw [hcur, hfr]) p rfl
        rcases (t.lock_iff _ _).mp hlock with ⟨hop, -⟩ | ⟨-, hop⟩
        · cases hop
        · exact hop rfl
  · -- p holds `lk`, so no other process has begun a wakeup since p took it
    have hon := t.onTop
    rw [hf] at hon
    obtain ⟨rfl, hl⟩ := h.top _ _ _ hon
    rw [hlocked]
    rcases Sched.seen_step t hs with hs | ⟨hfw, -⟩
    · rcases h.holder w hs.known hc with hlt | hby
      · exact hlt
      · rw [ho.lockBy _ hl, hm] at hby
        exact absurd hby hne
    · rw [hf] at hfw
      cases hfw

theorem top_step (h : Awake ch lk s) (hch : ∀ q, ch = .proc q → lk = .wait) (hp : Placed s) (hg : Guarded s)
    (hd : Disciplined ch lk s lb) (t : Stepped s s' s1 lb f rest a) :
    ∀ c gs l, s'.frames (s'.cpu c).cur = .sleep ch l :: gs → l = lk ∧ s'.lock lk = some c := by
  intro c gs l hfr
  by_cases hc : c = lb.cpu
  · subst hc
    cases t.goes with
    | stay hcur hproc =>
      rw [hcur, t.stack] at hfr
      cases hn : a.next with
      | nil =>
        rw [hn, List.nil_append] at hfr
        exact absurd rfl (h.tail (s.cpu lb.cpu).cur (.sleep ch l) (by rw [t.onTop, hfr]; simp) l)
      | cons g gs' =>
        rw [hn, List.cons_append, List.cons.injEq] at hfr
        rw [hfr.1] at hn
        rcases (labelAct_does t.act).head_call hn with ⟨n, hlb, rfl, hop⟩ | ⟨p, hf, hchp, rfl, hop⟩
        · rw [hlb] at hd
          obtain ⟨rfl, hl⟩ := hd rfl
          exact ⟨rfl, (t.lock_iff _ _).mpr (.inr ⟨hl, by rw [hop]; simp⟩)⟩
        · rw [hch p hchp]
          have hl : s.lock .wait = some lb.cpu := hg.held lb.cpu (by rw [t.onTop, hf]; exact .inl rfl)
          exact ⟨rfl, (t.lock_iff _ _).mpr (.inr ⟨hl, by rw [hop]; simp⟩)⟩
    | clear i hf hcur hcur' hproc hfr' =>
      rw [hcur', hfr'] at hfr
      cases hfr
    | run i g gs' hf hcur hcur' hproc hfr' hres =>
      rw [hcur', hfr'] at hfr
      rw [(List.cons.inj hfr).1] at hres
      exact absurd hres id
    | sched p hf hcur hcur' hproc hfr' =>
      rw [hcur', hfr'] at hfr
      cases hfr
  · rw [t.frames_other hp hc] at hfr
    obtain ⟨hl, hlock⟩ := h.top c gs l hfr
    exact ⟨hl, (t.lock_other hc).mpr hlock⟩

theorem tail_step (h : Awake ch lk s) (hp : Placed s) (t : Stepped s s' s1 lb f rest a) :
    ∀ k, ∀ g ∈ (s'.frames k).tail, ∀ l, g ≠ .sleep ch l := by
  rintro k g hg l rfl
  have hrest : ∀ g ∈ rest, ∀ l, g ≠ .sleep ch l := fun g hg => h.tail (s.cpu lb.cpu).cur g (by rw [t.onTop]; exact hg)
  by_cases hr : ∃ r, a.start = some r ∧ k = .kstack r
  · obtain ⟨r, hr, rfl⟩ := hr
    rw [t.fresh r hr] at hg
    cases hg
  by_cases hk : k = (s.cpu lb.cpu).cur
  · rw [hk, t.stack] at hg
    cases hn : a.next with
    | nil =>
      rw [hn, List.nil_append] at hg
      exact hrest _ (List.mem_of_mem_tail hg) l rfl
    | cons x xs =>
      rw [hn, List.cons_append, List.tail_cons, List.mem_append] at hg
      rcases hg with hg | hg
      · rcases (labelAct_does t.act).tail (by rw [hn]; exact hg) with hx | ⟨h0, hx⟩
        · cases hx
        · have hon := t.onTop
          rw [← hx] at hon
          exact hp.locks.noff_pos (h.top _ _ _ hon).2 h0
      · exact hrest _ hg l rfl
  · rw [t.frames k hk fun r hs he => hr ⟨r, hs, he⟩] at hg
    exact h.tail k _ hg l rfl

end Awake

/-- All that is known along a run whose calls keep to the discipline. -/
structure Kept (ch : Chan) (lk : Lock) (s : St) : Prop where
  placed : Placed s
  guarded : Guarded s
  owner : Owner lk s
  awake : Awake ch lk s

theorem Kept.init {ch : Chan} {lk : Lock} : Kept ch lk booted := by
  have known : ∀ w, ¬ booted.Known w := by
    rintro w (hw | ⟨k, f, hf, hw⟩)
    · cases hw
    · rcases k with c | p
      · simp [booted] at hf
        subst hf
        cases hw
      · by_cases hp : p = 0
        · simp [booted, hp] at hf
          subst hf
          cases hw
        · simp [booted, hp] at hf
  refine ⟨placed_init rfl, Guarded.init rfl, ⟨?_, ?_⟩, ⟨?_, ?_, ?_, ?_, ?_, ?_, ?_, Nat.le_refl _, ?_⟩⟩
  · rintro c ⟨⟩
  · rintro c ⟨⟩
  · rintro c rest l ⟨⟩
  · rintro (c | p) g hg
    · cases hg
    · by_cases hp : p = 0 <;> simp [booted, hp] at hg
  · exact fun k g hg w hw => absurd (.inr ⟨k, g, hg, hw⟩) (known w)
  · exact fun w hw => absurd hw (known w)
  · exact fun w hw => absurd hw (known w)
  · exact fun p w _ hw => absurd hw (known w)
  · exact fun p w _ _ hw => absurd hw.known (known w)
  · intro p _
    by_cases hp : p = 0 <;> simp [booted, hp]

theorem Kept.step {ch : Chan} {lk : Lock} (hlk : ∀ q, lk ≠ .proc q) (hch : ∀ q, ch = .proc q → lk = .wait) {s s' : St}
    {lb : Label} (h : Kept ch lk s) (hd : Disciplined ch lk s lb) (he : Sched.step s lb = .ok s') : Kept ch lk s' := by
  obtain ⟨hp, hg, ho, hw⟩ := h
  obtain ⟨f, rest, a, s1, t⟩ := hp.stepped he
  have hp' := placed_step hp he
  exact ⟨hp', hg.step hp he, ho.step hp hlk t, hw.top_step hch hp hg hd t, hw.tail_step hp t, hw.caller_step hp t,
    hw.time_step t, hw.holder_step hch hg ho hd t, hw.own_step hp t, hw.seen_step hp hp' ho t,
    hw.clock_step t, hw.order_step hp t⟩

/-- **No wakeup is lost.** For a channel used under a lock (sleep called with it, wakeup called while it is held; the
channel of a process is wait's and exit's, under wait_lock): while p is SLEEPING on the channel, every wakeup of it that has
returned began before p called sleep, and unless p itself made it, before p took the lock. -/
theorem no_lost_wakeup {ch : Chan} {lk : Lock} (hlk : ∀ q, lk ≠ .proc q) (hch : ∀ q, ch = .proc q → lk = .wait) {s : St}
    {as : List Label} (hc : Along step (Disciplined ch lk) booted as) (hr : runs step booted as = .ok s) (p : Fin NPROC)
    (hs : (s.proc p).state = .SLEEPING) (hp : (s.proc p).chan = some ch) :
    ∀ w ∈ s.log.completed, w.chan = some ch →
      w.start < (s.proc p).checked ∧ (w.caller ≠ some p → w.start < (s.proc p).locked) := by
  have h : Kept ch lk s := hc.invariant (I := Kept ch lk) (fun _ _ _ hi hd he => hi.step hlk hch hd he) Kept.init hr
  have hwait : s.Waiting ch p := .inl ⟨hs, hp⟩
  intro w hw hwc
  have hseen : w.caller ≠ some p → w.start < (s.proc p).locked := h.awake.seen p w hwait hwc (.inl hw)
  refine ⟨?_, hseen⟩
  by_cases hcaller : w.caller = some p
  · exact h.awake.own p w hwait (.inl hw) hcaller
  · exact Nat.lt_of_lt_of_le (hseen hcaller) (h.awake.order p hwait)

/-- init starts on processor 0; a device's interrupt on processor 1 wakes a channel under lock 0; then init sleeps on it. -/
def wakeThenSleep : List Label :=
  [.run 0 true, .run 0 true, .run 0 true, .intr 1, .call 1 (.acquire 0), .call 1 (.wakeup (.other 7))] ++
  List.replicate (2 * NPROC + 1) (.run 1 true) ++
  [.call 1 (.release 0), .call 1 .ret, .call 0 (.acquire 0), .call 0 (.sleep (.other 7) 0), .run 0 true, .run 0 true, .run 0 true]

theorem no_lost_wakeup_earlier : ∃ s, runs step booted wakeThenSleep = .ok s ∧ (s.proc 0).state = .SLEEPING ∧
    ∃ w ∈ s.log.completed, w.chan = some (.other 7) ∧ w.caller = none ∧ w.start < (s.proc 0).locked := by
  have he : (runs step booted wakeThenSleep).goesOn (fun s => (s.proc 0).state = .SLEEPING ∧
      (s.proc 0).chan = some (.other 7) ∧ ∃ w ∈ s.log.completed, w.chan = some (.other 7) ∧ w.caller = none) = true := by
    decide +kernel
  obtain ⟨s, hr, hs⟩ := Outcome.exists_of_goesOn he
  obtain ⟨hst, hch, w, hw, hwc, hcaller⟩ := of_decide_eq_true hs
  have h := @no_lost_wakeup (.other 7) (.other 0) (by simp) (by simp) s wakeThenSleep (by decide +kernel) hr 0 hst hch
  exact ⟨s, hr, hst, w, hw, hwc, hcaller, (h w hw hwc).2 (by rw [hcaller]; simp)⟩

end Xv6.Sched
