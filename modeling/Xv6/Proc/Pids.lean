/-
Pids. As long as every fork finds the counter positive, the processes in use have
positive and different pids, so a pid names one process: fork's value is not -1 or 0, kill
and wait act on the process whose pid they are given or give, and holdingsleep tells the
holder of a lock from everybody else. The counter wraps: a process that forks often enough
(the forks may all fail) reaches 0x7fffffff, and from then on pids are negative, and later
on those of processes that are still there, such as init's.
-/
import Xv6.Proc.Turns
import Xv6.Proc.Memory

namespace Xv6

open Lib

/-! ## sleeplock.c -/

/-- struct sleeplock, as far as it says who holds it. -/
structure Sleeplock where
  locked : Bool := false
  pid : Int := 0

/-- acquiresleep by the process `me`, from where the lock is free. -/
def acquiresleep (me : Proc) (lk : Sleeplock) : Sleeplock := { lk with locked := true, pid := me.pid }

def holdingsleep (me : Proc) (lk : Sleeplock) : Bool := lk.locked && lk.pid == me.pid

namespace Sys

/-! ## Pids in the process table -/

/-- Pids of processes are positive and different; the counter, as long as it is positive, is above all of them. -/
structure Numbered (T : Table) : Prop where
  unused : ∀ q, (T.faces q).live = false → (T.faces q).pid = 0
  pos : ∀ q, (T.faces q).live = true → 0 < (T.faces q).pid
  inj : ∀ p q, (T.faces p).live = true → (T.faces q).live = true → (T.faces p).pid = (T.faces q).pid → p = q
  below : 0 < T.nextpid → ∀ q, (T.faces q).live = true → (T.faces q).pid < T.nextpid
  small : T.nextpid < 2 ^ 31

theorem i32_succ {x : Int} (h0 : 0 < x) (h1 : x < 2 ^ 31) :
    i32 (x + 1) = x + 1 ∧ x + 1 < 2 ^ 31 ∨ i32 (x + 1) < 0 := by
  simp only [i32, Int.bmod]
  split <;> omega

theorem i32_lt (x : Int) : i32 x < 2 ^ 31 := by
  simp only [i32, Int.bmod]
  split <;> omega

variable {T T' : Table} {p q : Fin NPROC}

/-- One pid further on, with one entry changed to a process of the old number, or to none. -/
theorem Numbered.next {x : Face} (h : Numbered T) (hpos : 0 < T.nextpid)
    (hx : x.live = false ∧ x.pid = 0 ∨ x.live = true ∧ x.pid = T.nextpid) : Numbered (T.upd q x).next := by
  have hi := i32_succ hpos h.small
  have hb := h.below hpos
  have hf : ∀ k, (T.upd q x).next.faces k = if k = q then x else T.faces k := T.upd_apply
  obtain ⟨hun, hp, hinj, -, -⟩ := h
  constructor
  · grind
  · grind
  · grind
  · intro hn k hk
    rw [Table.next_nextpid, Table.upd_nextpid] at hn ⊢
    grind
  · exact i32_lt _

/-- An entry changed in nothing that pids depend on, or freed. -/
theorem Numbered.upd {x : Face} (h : Numbered T)
    (hx : x.live = false ∧ x.pid = 0 ∨ x.live = (T.faces q).live ∧ x.pid = (T.faces q).pid) : Numbered (T.upd q x) := by
  have hf : ∀ k, (T.upd q x).faces k = if k = q then x else T.faces k := T.upd_apply
  obtain ⟨hun, hp, hinj, hb, hs⟩ := h
  constructor
  · grind
  · grind
  · grind
  · intro hn k hk
    rw [Table.upd_nextpid] at hn ⊢
    grind
  · exact hs

theorem Numbered.withFiles (h : Numbered T) (F : Fin NFILE → Option File) : Numbered (T.withFiles F) :=
  ⟨h.unused, h.pos, h.inj, h.below, h.small⟩

/-- **A turn keeps pids apart**, a fork as long as the counter is positive. -/
theorem Numbered.turn {c : Call} {r : Result} (h : Numbered T) (ht : Turn T p c r T')
    (hc : c = .fork → 0 < T.nextpid) : Numbered T' := by
  cases ht with
  | keeps _ => exact h
  | files _ hf _ _ =>
    obtain ⟨o, F, rfl⟩ := hf
    exact (h.upd (x := { T.faces p with ofile := o }) (.inr ⟨rfl, rfl⟩)).withFiles F
  | refused hk => exact h.next (hc rfl) (.inl ⟨rfl, rfl⟩)
  | forks hk _ => exact (h.next (hc rfl) (.inr ⟨rfl, rfl⟩)).withFiles _
  | reaps hk hne => exact h.upd (.inl ⟨rfl, rfl⟩)
  | kills hk => exact h.upd (.inr ⟨rfl, rfl⟩)

/-! ## Along a run -/

def Action.forks : Action → Bool
  | .call _ .fork _ => true
  | _ => false

/-- A fork is only tried while the counter is positive. -/
def ForksInTime (s : Sys) (a : Action) : Prop := a.forks = true → 0 < s.nextpid

instance (s : Sys) (a : Action) : Decidable (ForksInTime s a) := inferInstanceAs (Decidable (_ → _))

variable {K : Layout} {s s' : Sys}

theorem face_live {x : Proc} : x.face.live = true ↔ x.state ≠ .UNUSED := by
  simp [Proc.face]

theorem Numbered.step {a : Action} (h : Numbered s.table) (ha : ForksInTime s a) (he : step s a = .ok s') :
    Numbered s'.table := by
  obtain he | ⟨p, c, fails, r, rfl, -, ht⟩ := step_turn he
  · rwa [he]
  · refine h.turn ht fun hc => ?_
    subst hc
    exact ha rfl

theorem Booted.numbered (h : Booted K s) : Numbered s.table := by
  obtain ⟨q, hq⟩ := h.table
  rw [hq]
  refine Numbered.next ⟨fun _ _ => rfl, fun _ hk => ?_, fun _ _ hk => ?_, fun _ _ hk => ?_, by decide⟩ (by decide) (.inr ⟨rfl, rfl⟩)
  · cases hk
  · cases hk
  · cases hk

/-- A process has its pid as long as it is there. -/
theorem pid_step {a : Action} {q : Fin NPROC} (he : step s a = .ok s') (h : (s.proc q).state ≠ .UNUSED)
    (h' : (s'.proc q).state ≠ .UNUSED) : (s'.proc q).pid = (s.proc q).pid := by
  rw [← face_live, ← table_faces] at h h'
  change (s'.table.faces q).pid = (s.table.faces q).pid
  obtain he | ⟨p, c, fails, r, rfl, -, ht⟩ := step_turn he
  · rw [he]
  · revert h'
    generalize s'.table = T' at ht
    cases ht with
    | keeps _ => exact fun _ => rfl
    | files _ hf _ _ =>
      obtain ⟨o, F, rfl⟩ := hf
      rw [Table.withFiles_faces]
      grind [Table.upd_apply]
    | refused hk =>
      rw [Table.next_faces]
      grind [Table.upd_apply]
    | forks hk _ =>
      rw [Table.withFiles_faces, Table.next_faces]
      grind [Table.upd_apply]
    | reaps hk hne => grind [Table.upd_apply, Face.freed]
    | kills hk => grind [Table.upd_apply]

theorem pid_runs {q : Fin NPROC} {as : List Action} (hl : Along step (fun s _ => (s.proc q).state ≠ .UNUSED) s as)
    (hr : runs step s as = .ok s') (h' : (s'.proc q).state ≠ .UNUSED) : (s'.proc q).pid = (s.proc q).pid := by
  induction as generalizing s with
  | nil =>
    cases hr
    rfl
  | cons a as ih =>
    obtain ⟨hq, hl⟩ := hl
    simp only [runs] at hr
    split at hr
    · next s1 he =>
      rw [he] at hl
      have hq1 : (s1.proc q).state ≠ .UNUSED := by
        cases as with
        | nil =>
          cases hr
          exact h'
        | cons b bs => exact hl.1
      exact (ih hl hr).trans (pid_step he hq hq1)
    · cases hr
    · cases hr

/-- What kill does to the entry it finds. -/
def hit (x : Proc) : Proc := { x with killed := true, state := if x.state = .SLEEPING then .RUNNABLE else x.state }

theorem kill_eq (n : Int) : kill n s = match (List.finRange NPROC).find? fun q => (s.proc q).pid = n with
    | none => .ok (-1, s)
    | some q => .ok (0, s.updProc q hit) := by
  rw [kill, Code.get_bind]
  generalize (List.finRange NPROC).find? (fun q => decide ((s.proc q).pid = n)) = o
  cases o <;> rfl

/-- kill by the pid of a process that is there. -/
theorem Numbered.kill {q : Fin NPROC} (h : Numbered s.table) (hq : (s.proc q).state ≠ .UNUSED) :
    kill (s.proc q).pid s = .ok (0, s.updProc q hit) := by
  have hfind : (List.finRange NPROC).find? (fun k => (s.proc k).pid = (s.proc q).pid) = some q := by
    cases hf : (List.finRange NPROC).find? (fun k => decide ((s.proc k).pid = (s.proc q).pid)) with
    | none => simpa using List.find?_eq_none.mp hf q (List.mem_finRange q)
    | some k =>
      have hk : (s.proc k).pid = (s.proc q).pid := by simpa using List.find?_some hf
      have hlive : (s.table.faces q).live = true := face_live.mpr hq
      have hpos := h.pos q hlive
      cases hkl : (s.table.faces k).live with
      | false =>
        have := h.unused k hkl
        simp only [table_faces, Proc.face] at this hpos
        omega
      | true => rw [h.inj k q hkl hlive hk]
  rw [kill_eq, hfind]

/-- **A pid names one process.** In every run whose forks find the counter positive, the processes of each state have
positive and different pids. So fork returns a positive number when it makes a process; kill with a process's pid
reaches that process alone; what wait returns is the pid of one process, which is the one that is gone; and a lock
taken by a process that has been there since is held, as holdingsleep sees it, by nobody else. -/
theorem pids_identify {s₀ : Sys} {as : List Action} (h₀ : Booted K s₀) (hc : Along step ForksInTime s₀ as)
    (hr : runs step s₀ as = .ok s) :
    (∀ p, (s.proc p).state ≠ .UNUSED → 0 < (s.proc p).pid) ∧
    (∀ p q, (s.proc p).state ≠ .UNUSED → (s.proc q).state ≠ .UNUSED → (s.proc p).pid = (s.proc q).pid → p = q) ∧
    (∀ p r s', 0 < s.nextpid → fork p s = .ok (r, s') →
      r = -1 ∧ (∀ q, (s'.proc q).state ≠ .UNUSED ↔ (s.proc q).state ≠ .UNUSED) ∨
      0 < r ∧ ∃ q, (s.proc q).state = .UNUSED ∧ (s'.proc q).state ≠ .UNUSED ∧ (s'.proc q).pid = r) ∧
    (∀ q, (s.proc q).state ≠ .UNUSED → ∃ s', kill (s.proc q).pid s = .ok (0, s') ∧ (s'.proc q).killed = true ∧
      ∀ k, k ≠ q → s'.proc k = s.proc k) ∧
    (∀ p addr r s', (s.proc p).state = .RUNNABLE → wait p addr s = .ok (some r, s') → r = -1 ∨
      ∃ q, (s.proc q).state ≠ .UNUSED ∧ (s.proc q).pid = r ∧ (s'.proc q).state = .UNUSED ∧
        ∀ k, k ≠ q → ((s'.proc k).state ≠ .UNUSED ↔ (s.proc k).state ≠ .UNUSED) ∧
          ((s.proc k).state ≠ .UNUSED → (s.proc k).pid ≠ r)) ∧
    ∀ q bs s' p lk, Along step (fun s a => ForksInTime s a ∧ (s.proc q).state ≠ .UNUSED) s bs → runs step s bs = .ok s' →
      (s'.proc q).state ≠ .UNUSED → (s'.proc p).state ≠ .UNUSED →
      (holdingsleep (s'.proc p) (acquiresleep (s.proc q) lk) = true ↔ p = q) := by
  have hrun {t t' : Sys} {bs : List Action} (ht : Numbered t.table) (hc : Along step ForksInTime t bs)
      (hr : runs step t bs = .ok t') : Numbered t'.table :=
    hc.invariant (I := fun t => Numbered t.table) (fun _ _ _ hi ha he => hi.step ha he) ht hr
  have hn := hrun h₀.numbered hc hr
  refine ⟨fun p hp => hn.pos p (face_live.mpr hp), fun p q hp hq => hn.inj p q (face_live.mpr hp) (face_live.mpr hq),
    fun p r s' hpos he => ?_, fun q hq => ⟨_, hn.kill hq, ?_, fun k hk => ?_⟩, fun p addr r s' hp he => ?_, ?_⟩
  · obtain ⟨hr1, hq⟩ | ⟨rfl, q, hq, hq', hpid⟩ := (fork_turn r s' he).fork
    · exact .inl ⟨hr1, fun q => by rw [← face_live, ← face_live, ← table_faces, hq, table_faces]⟩
    · exact .inr ⟨hpos, q, by simpa [Proc.face] using hq, face_live.mp hq', hpid⟩
  · simp [hit]
  · simp [hk]
  · refine (wait_turn hp addr (some r) s' he).wait.imp_right fun h => ?_
    obtain ⟨q, hq, hpid, hT⟩ := h
    refine ⟨q, face_live.mp hq, hpid, ?_, fun k hk => ?_⟩
    · have := congrArg (fun T : Table => (T.faces q).live) hT
      simpa [Proc.face, Face.freed] using this
    · refine ⟨?_, fun hkl he => hk (hn.inj k q (face_live.mpr hkl) hq (he.trans hpid.symm))⟩
      rw [← face_live, ← face_live, ← table_faces, hT, Table.upd_apply, if_neg hk, table_faces]
  · intro q bs s' p lk hb hr' hq hp
    have hpid : (s'.proc q).pid = (s.proc q).pid := pid_runs (hb.mono fun _ _ h => h.2) hr' hq
    have hn' := hrun hn (hb.mono fun _ _ h => h.1) hr'
    simp only [holdingsleep, acquiresleep, Bool.true_and, beq_iff_eq, ← hpid]
    exact ⟨fun he => (hn'.inj q p (face_live.mpr hq) (face_live.mpr hp) he).symm, fun he => by rw [he]⟩

/-- The demo's machine when it is up. -/
def demoBoot : Option Sys :=
  match main 1 demoOn with
  | .error _ => none
  | .ok (_, s) => if firstPage s then some s else none

theorem demoBoot_booted (h : demoBoot = some s) : Booted demoLayout s := by
  unfold demoBoot at h
  split at h
  · cases h
  · next hm =>
    split at h
    · next hf =>
      cases h
      exact ⟨1, demoOn, ⟨_, _, rfl⟩, hm, hf⟩
    · cases h

def demoForks (s : Sys) : Bool :=
  Along step ForksInTime s demoRun ∧
    (runs step s demoRun).goesOn fun t => (t.proc 0).state = .RUNNABLE ∧ (t.proc 1).state = .RUNNABLE

theorem demo_forks : demoBoot.any demoForks = true := by decide +kernel

theorem pids_identify_demo : ∃ s₀ s, Booted demoLayout s₀ ∧ Along step ForksInTime s₀ demoRun ∧
    runs step s₀ demoRun = .ok s ∧ 0 < (s.proc 0).pid ∧ 0 < (s.proc 1).pid ∧ (s.proc 0).pid ≠ (s.proc 1).pid := by
  obtain ⟨s₀, hs, ht⟩ := (Option.any_eq_true _ _).mp demo_forks
  simp only [demoForks, decide_eq_true_eq] at ht
  obtain ⟨s, hr, hst⟩ := Outcome.exists_of_goesOn ht.2
  simp only [decide_eq_true_eq] at hst
  have h := pids_identify (demoBoot_booted hs) ht.1 hr
  have h0 : (s.proc 0).state ≠ .UNUSED := by simp [hst]
  have h1 : (s.proc 1).state ≠ .UNUSED := by simp [hst]
  exact ⟨s₀, s, demoBoot_booted hs, ht.1, hr, h.1 0 h0, h.1 1 h1, fun he => absurd (h.2.1 0 1 h0 h1 he) (by decide)⟩

/-! ## The counter wraps -/

/-- Another counter. -/
def withNextpid (s : Sys) (n : Int) : Sys := { s with nextpid := n }

/-- No memory from now on. -/
def starved (s : Sys) : Sys := s.withMem (s.mem.withFails fun _ => true)

/-- A refused fork of `p` leaves its trace in the counter only: the entry `q` it would take is as freeproc leaves it,
and -1 is already in the saved a0. -/
structure Stalled (s : Sys) (p q : Fin NPROC) : Prop where
  caller : (s.proc p).state = .RUNNABLE
  entry : (List.finRange NPROC).find? (fun k => (s.proc k).state = .UNUSED) = some q
  clean : s.proc q = { ofile := (s.proc q).ofile }
  access : PGROUNDDOWN ((s.proc p).trapframe + trapframeA0) ∈ s.mem.layout.pages
  value : (s.mem.ram (PGROUNDDOWN ((s.proc p).trapframe + trapframeA0))).getLE
    (((s.proc p).trapframe + trapframeA0) % PGSIZE) 8 = u64OfInt (-1)

theorem Stalled.withNextpid {p q : Fin NPROC} (h : Stalled s p q) (n : Int) : Stalled (s.starved.withNextpid n) p q :=
  ⟨h.caller, h.entry, h.clean, h.access, h.value⟩

theorem kalloc_refused (h : s.mem.fails = fun _ => true) : (vm Mem.kalloc).Returns s fun r t => r = 0 ∧ t = s := by
  refine ⟨0, s, ?_, rfl, rfl⟩
  obtain ⟨⟨layout, ram, freelist, fails⟩, proc, file, nextpid, initproc, kernelPages⟩ := s
  cases h
  rfl

theorem updProc_self {q : Fin NPROC} {f : Proc → Proc} (h : f (s.proc q) = s.proc q) : s.updProc q f = s := by
  rw [updProc, h, Function.update_eq_self]

theorem freeproc_clean {q : Fin NPROC} (htf : (s.proc q).trapframe = 0) (hpt : (s.proc q).pagetable = 0) :
    (freeproc q).Returns s fun _ t => t = s.updProc q freed := by
  have skip {b : Prop} [Decidable b] {c : Code Sys Unit} {t : Sys} (hb : ¬ b) : (Code.when b c).Returns t fun _ t' => t' = t :=
    .when (fun h => absurd h hb) fun _ => rfl
  refine .get (.bind (skip (not_not.mpr htf)) fun _ t ht => .modify ?_)
  subst ht
  refine .bind (skip (not_not.mpr hpt)) fun _ t' ht' => .update ?_
  subst ht'
  rw [updProc_updProc]
  rfl

theorem Stalled.allocproc {p q : Fin NPROC} (h : Stalled s p q) (hf : s.mem.fails = fun _ => true) :
    allocproc.Returns s fun r t => r = none ∧ t = s.withNextpid (i32 (s.nextpid + 1)) := by
  refine .get ?_
  simp only [h.entry]
  refine .bind allocpid_spec fun pid s0 h0 => .modify ?_
  obtain ⟨rfl, rfl⟩ := h0
  refine .bind (kalloc_refused hf) fun r t ht => .modify ?_
  obtain ⟨rfl, rfl⟩ := ht
  rw [if_pos rfl]
  have hclean := h.clean
  refine .bind (freeproc_clean (by simp) (by simp; rw [hclean])) fun _ t ht => .pure ⟨rfl, ht.trans ?_⟩
  rw [updProc_updProc, updProc_updProc]
  exact updProc_self (s := s.withNextpid (i32 (s.nextpid + 1))) hclean.symm

theorem Stalled.fork {p q : Fin NPROC} (h : Stalled s p q) :
    step s (.call p .fork fun _ => true) = .ok (s.starved.withNextpid (i32 (s.nextpid + 1))) := by
  set t := s.starved.withNextpid (i32 (s.nextpid + 1)) with ht
  have hstore : vm (Mem.store ((t.proc p).trapframe + trapframeA0) 8 (u64OfInt (-1))) t = .ok ((), t) := by
    have hsame : Mem.store ((s.proc p).trapframe + trapframeA0) 8 (u64OfInt (-1)) s.starved.mem = .ok ((), s.starved.mem) := by
      have hv : (s.starved.mem.ram (PGROUNDDOWN ((s.proc p).trapframe + trapframeA0))).getLE
        (((s.proc p).trapframe + trapframeA0) % PGSIZE) 8 = u64OfInt (-1) := h.value
      rw [← hv, Mem.store, Mem.modifyPage_eq _ h.access, Buffer.putLE_getLE, Function.update_eq_self]
    rw [vm, show t.mem = s.starved.mem from rfl, show t.proc = s.proc from rfl, hsame]
    rfl
  obtain ⟨r, t', halloc, rfl, rfl⟩ := (h.withNextpid s.nextpid).allocproc rfl
  have hfork : Sys.fork p s.starved = .ok (-1, t) := (Code.bind_ok halloc).trans rfl
  have hdisp : dispatch p .fork s.starved = .ok (.ret (-1), t) := (Code.bind_ok hfork).trans rfl
  have hcall : syscall p .fork s.starved = .ok (true, t) :=
    (Code.bind_ok hdisp).trans ((Code.get_bind _ t).trans ((Code.bind_ok hstore).trans rfl))
  rw [step, if_pos h.caller, ← starved, hcall]

/-- Any counter can be reached from a stalled state. -/
theorem Stalled.reach {init : Sys → Prop} {p q : Fin NPROC} (h : Stalled s p q) (hs : Reach step init s) (n : Nat) :
    Reach step init (s.starved.withNextpid (i32 (s.nextpid + (n + 1 : Nat)))) := by
  induction n with
  | zero => exact hs.step h.fork
  | succ n ih =>
    have hstep := ih.step (h.withNextpid (i32 (s.nextpid + (n + 1 : Nat)))).fork
    have hadd : i32 (i32 (s.nextpid + (n + 1 : Nat)) + 1) = i32 (s.nextpid + (n + 1 + 1 : Nat)) := by
      simp only [i32, Int.bmod_add_bmod]
      congr 1
      push_cast
      ring
    exact hadd ▸ hstep

/-- The demo's machine after one refused fork. -/
def stalled : Outcome Sys := demoBoot.elim .disabled fun s => step s (.call 0 .fork fun _ => true)

theorem stalled_reach (h : stalled = .ok s) : Reach step (Booted demoLayout) s := by
  unfold stalled at h
  cases hd : demoBoot with
  | none =>
    rw [hd] at h
    cases h
  | some s₀ =>
    rw [hd, Option.elim_some] at h
    exact (Reach.init (demoBoot_booted hd)).step h

/-- Two processes of the same pid. -/
def twins (t : Sys) : Bool :=
  (t.proc 0).state = .RUNNABLE ∧ (t.proc 1).state = .RUNNABLE ∧ (t.proc 0).pid = 1 ∧ (t.proc 1).pid = 1

/-- The refused fork leaves a stalled state with pid 3 to come, and there is memory for a process once pid 1 is next. -/
def stalledTest (s : Sys) : Bool :=
  let tf := (s.proc 0).trapframe + trapframeA0
  let x := s.proc 1
  (s.proc 0).state = .RUNNABLE ∧
  (List.finRange NPROC).find? (fun k => (s.proc k).state = .UNUSED) = some 1 ∧
  (x.state, x.killed, x.xstate, x.pid) = (.UNUSED, false, 0, 0) ∧
  (x.parent, x.sz, x.pagetable, x.trapframe, x.name) = (none, 0, 0, 0, []) ∧
  PGROUNDDOWN tf ∈ s.mem.layout.pages ∧ (s.mem.ram (PGROUNDDOWN tf)).getLE (tf % PGSIZE) 8 = u64OfInt (-1) ∧
  s.nextpid = 3 ∧ (step (s.starved.withNextpid 1) (.call 0 .fork fun _ => false)).goesOn twins

theorem stalled_test : stalled.goesOn stalledTest = true := by decide +kernel

theorem stalled_of_test (h : stalledTest s = true) : Stalled s 0 1 ∧ s.nextpid = 3 ∧
    (step (s.starved.withNextpid 1) (.call 0 .fork fun _ => false)).goesOn twins = true := by
  simp only [stalledTest, decide_eq_true_eq, Prod.mk.injEq] at h
  obtain ⟨hp, hq, ⟨h1, h2, h3, h4⟩, ⟨h5, h6, h7, h8, h9⟩, ha, hv, hn, ht⟩ := h
  refine ⟨⟨hp, hq, ?_, ha, hv⟩, hn, ht⟩
  cases hx : s.proc 1
  simp_all

/-- **After enough forks two processes have one pid**: a child gets init's. -/
theorem pids_wrap : ∃ s, Reach step (Booted demoLayout) s ∧ ∃ p q : Fin NPROC, p ≠ q ∧ (s.proc p).state ≠ .UNUSED ∧
    (s.proc q).state ≠ .UNUSED ∧ (s.proc p).pid = (s.proc q).pid := by
  obtain ⟨s, hs, ht⟩ := Outcome.exists_of_goesOn stalled_test
  obtain ⟨hst, hn, hgo⟩ := stalled_of_test ht
  have hreach := hst.reach (stalled_reach hs) (2 ^ 32 - 3)
  rw [hn, show i32 (3 + (2 ^ 32 - 3 + 1 : Nat)) = 1 by decide] at hreach
  obtain ⟨t, he, htw⟩ := Outcome.exists_of_goesOn hgo
  simp only [twins, decide_eq_true_eq] at htw
  exact ⟨t, hreach.step he, 0, 1, by decide, by simp [htw], by simp [htw], by simp [htw]⟩

end Sys

end Xv6
