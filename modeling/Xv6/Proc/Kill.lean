/-
kill. An entry of the process table that is not in use has pid 0, and kill does not look at
the state: kill(0) finds such an entry, marks it and returns 0, and since allocproc does not
reset the mark, the next process that gets the entry is born killed. Any other number
reaches the process of that pid and nobody else, and fails if there is none; in runs
without kill(0) a process is killed only if it was hit by its own pid, or faulted, while
it was there (`Watched` keeps that history).
-/
import Xv6.Proc.Pids

namespace Xv6

open Lib

namespace Sys

def setkilled (p : Fin NPROC) : Code Sys Unit := setProc p fun x => { x with killed := true }

/-- The kernel's state, with which of the processes there are were hit by a kill with their pid, or faulted. -/
structure Watched where
  sys : Sys
  struck : Fin NPROC → Bool

/-- A step of the kernel, or a fault of `p`, which usertrap answers with setkilled. -/
inductive Event where
  | act (a : Action)
  | fault (p : Fin NPROC)

/-- A kill with this pid. -/
def Action.strikes (pid : Int) : Action → Bool
  | .call _ (.kill n) _ => argint n = pid
  | _ => false

def watch (w : Watched) : Event → Outcome Watched
  | .act a =>
    match step w.sys a with
    | .ok s => .ok ⟨s, fun q => (w.sys.proc q).state ≠ .UNUSED && (w.struck q || a.strikes (w.sys.proc q).pid)⟩
    | .panic msg => .panic msg
    | .disabled => .disabled
  | .fault p =>
    if (w.sys.proc p).state = .RUNNABLE then
      match setkilled p w.sys with
      | .ok (_, s) => .ok ⟨s, Function.update w.struck p true⟩
      | .error msg => .panic msg
    else .disabled

/-- No kill(0). -/
def Event.Aimed : Event → Prop
  | .act a => a.strikes 0 = false
  | .fault _ => True

instance : (e : Event) → Decidable e.Aimed
  | .act _ => inferInstanceAs (Decidable (_ = _))
  | .fault _ => .isTrue trivial

/-- Entries that are not in use are unmarked, and a marked process has been struck. -/
structure Marked (T : Table) (struck : Fin NPROC → Bool) : Prop where
  unused : ∀ q, (T.faces q).live = false → (T.faces q).pid = 0 ∧ (T.faces q).killed = false
  killed : ∀ q, (T.faces q).live = true → (T.faces q).killed = true → struck q = true

variable {K : Layout} {s s' : Sys} {T T' : Table} {p q : Fin NPROC} {w : Watched} {c : Call} {r : Result}
  {struck : Fin NPROC → Bool}

theorem Marked.turn {fails : Nat → Bool} (h : Marked T struck) (ht : Turn T p c r T')
    (hc : ∀ n, c = .kill n → argint n ≠ 0) :
    Marked T' fun q => (T.faces q).live && (struck q || (Action.call p c fails).strikes (T.faces q).pid) := by
  obtain ⟨hun, hk⟩ := h
  cases ht with
  | keeps _ => exact ⟨hun, fun q hq hkd => by simp [hq, hk q hq hkd]⟩
  | files _ hf _ _ =>
    obtain ⟨o, F, rfl⟩ := hf
    constructor <;> (simp only [Table.withFiles_faces]; grind [Table.upd_apply])
  | refused _ => constructor <;> (simp only [Table.next_faces]; grind [Table.upd_apply, Face.freed])
  | forks _ _ => constructor <;> (simp only [Table.withFiles_faces, Table.next_faces]; grind [Table.upd_apply])
  | reaps _ _ => constructor <;> grind [Table.upd_apply, Face.freed]
  | kills hpid =>
    have := hc _ rfl
    constructor <;> grind [Table.upd_apply, Action.strikes]

theorem Marked.step {w' : Watched} {e : Event} (h : Marked w.sys.table w.struck) (he : e.Aimed)
    (hs : watch w e = .ok w') : Marked w'.sys.table w'.struck := by
  cases e with
  | act a =>
    simp only [watch] at hs
    split at hs
    · next s hstep =>
      cases hs
      obtain ht | ⟨p, c, fails, r, rfl, -, ht⟩ := step_turn hstep
      · rw [ht]
        refine ⟨h.unused, fun q hq hk => ?_⟩
        simp [face_live.mp hq, h.killed q hq hk]
      · refine h.turn ht fun n hn h0 => ?_
        subst hn
        simp [Event.Aimed, Action.strikes, h0] at he
    · cases hs
    · cases hs
  | fault p =>
    simp only [watch] at hs
    split at hs
    · next hp =>
      cases hs
      have hf : (w.sys.updProc p fun x => { x with killed := true }).table =
          w.sys.table.upd p { w.sys.table.faces p with killed := true } := table_updProc
      have hlive : (w.sys.table.faces p).live = true := by simp [Proc.face, hp]
      obtain ⟨hun, hk⟩ := h
      rw [hf]
      constructor
      · grind [Table.upd_apply]
      · grind [Table.upd_apply, Function.update_apply]
    · cases hs

theorem Booted.marked (h : Booted K s) : Marked s.table fun _ => false := by
  obtain ⟨q, hq⟩ := h.table
  rw [hq]
  constructor <;> (simp only [Table.next_faces]; grind [Table.upd_apply, powerOnTable, Proc.face])

/-- kill finds a process of that pid, or fails. -/
theorem Marked.finds {n : Int} (h : Marked s.table struck) (hn : n ≠ 0) :
    (∃ p, (s.proc p).state ≠ .UNUSED ∧ (s.proc p).pid = n ∧ kill n s = .ok (0, s.updProc p hit)) ∨
      (∀ p, (s.proc p).state ≠ .UNUSED → (s.proc p).pid ≠ n) ∧ kill n s = .ok (-1, s) := by
  rw [kill_eq]
  cases hf : (List.finRange NPROC).find? fun q => decide ((s.proc q).pid = n) with
  | none =>
    refine .inr ⟨fun p _ hp => ?_, rfl⟩
    simpa [hp] using List.find?_eq_none.mp hf p (List.mem_finRange p)
  | some p =>
    have hp : (s.proc p).pid = n := by simpa using List.find?_some hf
    refine .inl ⟨p, fun hu => hn ?_, hp, rfl⟩
    rw [← hp]
    exact (h.unused p (by simp [Proc.face, hu])).1

/-- **kill hits its target.** In every run without kill(0): kill(n) for another n returns 0 if and only if a process
has pid n, marks such a process and changes nothing else, and otherwise returns -1 and changes nothing; what allocproc
returns is not marked; and every process that is marked was struck while it was there. -/
theorem kill_exact {s₀ : Sys} {es : List Event} (h₀ : Booted K s₀)
    (hc : Along watch (fun _ e => e.Aimed) ⟨s₀, fun _ => false⟩ es) (hr : runs watch ⟨s₀, fun _ => false⟩ es = .ok w) :
    (∀ n ≠ 0, ∃ r s', kill n w.sys = .ok (r, s') ∧
      (r = 0 ↔ ∃ p, (w.sys.proc p).state ≠ .UNUSED ∧ (w.sys.proc p).pid = n) ∧
      (r = 0 → ∃ p, (w.sys.proc p).state ≠ .UNUSED ∧ (w.sys.proc p).pid = n ∧ s' = w.sys.updProc p hit) ∧
      (r ≠ 0 → r = -1 ∧ s' = w.sys)) ∧
    (∀ m p s', allocproc (w.sys.withMem m) = .ok (some p, s') → (s'.proc p).killed = false) ∧
    ∀ p, (w.sys.proc p).state ≠ .UNUSED → (w.sys.proc p).killed = true → w.struck p = true := by
  have hm : Marked w.sys.table w.struck :=
    hc.invariant (I := fun w => Marked w.sys.table w.struck) (fun _ _ _ hi he hs => hi.step he hs) h₀.marked hr
  refine ⟨fun n hn => ?_, fun m p s' he => ?_, fun p hp hk => hm.killed p (face_live.mpr hp) hk⟩
  · obtain ⟨p, hp, hpid, hk⟩ | ⟨hno, hk⟩ := hm.finds hn
    · exact ⟨0, _, hk, by simpa using ⟨p, hp, hpid⟩, fun _ => ⟨p, hp, hpid, rfl⟩, fun h => absurd rfl h⟩
    · refine ⟨-1, _, hk, by simpa using hno, fun h => ?_, fun _ => ⟨rfl, rfl⟩⟩
      cases h
  · obtain ⟨hun, ht⟩ := allocproc_allocates (some p) s' he
    have hk : (s'.table.faces p).killed = (w.sys.table.faces p).killed := by
      rw [ht]
      simp
    exact hk.trans (hm.unused p hun).2

/-- init forks, and kills the child by its pid, 2. -/
def killChild : List Event :=
  [.act (.call 0 .fork fun _ => false), .act (.call 0 (.kill 2) fun _ => false)]

def killChildTest (s : Sys) : Bool :=
  Along watch (fun _ e => e.Aimed) ⟨s, fun _ => false⟩ killChild ∧
    (runs watch ⟨s, fun _ => false⟩ killChild).goesOn fun w =>
      (w.sys.proc 1).state = .RUNNABLE ∧ (w.sys.proc 1).killed ∧ (w.sys.proc 0).killed = false

theorem killChild_test : demoBoot.any killChildTest = true := by decide +kernel

theorem kill_exact_child : ∃ s₀ w, Booted demoLayout s₀ ∧ Along watch (fun _ e => e.Aimed) ⟨s₀, fun _ => false⟩ killChild ∧
    runs watch ⟨s₀, fun _ => false⟩ killChild = .ok w ∧ (w.sys.proc 1).killed = true ∧ w.struck 1 = true := by
  obtain ⟨s₀, hs, ht⟩ := (Option.any_eq_true _ _).mp killChild_test
  simp only [killChildTest, decide_eq_true_eq] at ht
  obtain ⟨w, hr, hw⟩ := Outcome.exists_of_goesOn ht.2
  simp only [decide_eq_true_eq] at hw
  have h := kill_exact (demoBoot_booted hs) ht.1 hr
  exact ⟨s₀, w, demoBoot_booted hs, ht.1, hr, hw.2.1, h.2.2 1 (by simp [hw.1]) hw.2.1⟩

/-- init calls kill(0), and forks. -/
def killNobody : List Event :=
  [.act (.call 0 (.kill 0) fun _ => false), .act (.call 0 .fork fun _ => false)]

def killNobodyTest (s : Sys) : Bool :=
  decide (∀ p, (s.proc p).state ≠ .UNUSED → (s.proc p).pid ≠ 0) &&
  (match kill 0 s with
    | .ok (r, s') => r = 0 ∧ (s'.proc 1).killed ∧ (s.proc 1).state = .UNUSED
    | .error _ => false) &&
  (runs watch ⟨s, fun _ => false⟩ killNobody).goesOn fun w =>
    (w.sys.proc 1).state = .RUNNABLE ∧ (w.sys.proc 1).killed ∧ w.struck 1 = false

theorem killNobody_test : demoBoot.any killNobodyTest = true := by decide +kernel

/-- **kill(0) succeeds** though no process has pid 0, and the next process is killed at birth. -/
theorem kill_zero : ∃ s₀, Booted demoLayout s₀ ∧ (∀ p, (s₀.proc p).state ≠ .UNUSED → (s₀.proc p).pid ≠ 0) ∧
    (∃ s', kill 0 s₀ = .ok (0, s') ∧ (s'.proc 1).killed = true ∧ (s₀.proc 1).state = .UNUSED) ∧
    ∃ w, runs watch ⟨s₀, fun _ => false⟩ killNobody = .ok w ∧ (w.sys.proc 1).state ≠ .UNUSED ∧
      (w.sys.proc 1).killed = true ∧ w.struck 1 = false := by
  obtain ⟨s₀, hs, ht⟩ := (Option.any_eq_true _ _).mp killNobody_test
  simp only [killNobodyTest, Bool.and_eq_true, decide_eq_true_eq] at ht
  obtain ⟨⟨hno, hk⟩, hrun⟩ := ht
  obtain ⟨w, hr, hw⟩ := Outcome.exists_of_goesOn hrun
  simp only [decide_eq_true_eq] at hw
  refine ⟨s₀, demoBoot_booted hs, hno, ?_, w, hr, by simp [hw.1], hw.2.1, hw.2.2⟩
  split at hk
  · next r s' he =>
    simp only [decide_eq_true_eq] at hk
    obtain ⟨rfl, hk⟩ := hk
    exact ⟨s', he, hk⟩
  · cases hk

end Sys

end Xv6
