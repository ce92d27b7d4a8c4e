/-
Deterministic transition systems whose steps may be disabled or stop the machine.
A run is a list of labels; nondeterminism (which party moves, what its environment
answers) is in the labels. `Reach` is the set of states some run ends in, and
`Reach.invariant` the rule every safety result of a machine goes through: what holds
at the start and is kept by each step that succeeds holds in every state reached.
-/
import Mathlib

namespace Xv6.Lib

/-- What a step does: go on, stop the machine with a message, or nothing because the label
is not enabled. -/
inductive Outcome (σ : Type) where
  | ok (s : σ)
  | panic (msg : String)
  | disabled

/-- The step stops the machine with this message; a test that evaluates. -/
def Outcome.stops {σ : Type} (msg : String) : Outcome σ → Bool
  | .panic m => m == msg
  | _ => false

theorem Outcome.eq_panic_of_stops {σ : Type} {msg : String} {o : Outcome σ} (h : o.stops msg = true) :
    o = .panic msg := by
  cases o <;> simp_all [Outcome.stops]

/-- The step goes on, to a state with this property; a test that evaluates. -/
def Outcome.goesOn {σ : Type} (P : σ → Bool) : Outcome σ → Bool
  | .ok s => P s
  | _ => false

theorem Outcome.exists_of_goesOn {σ : Type} {P : σ → Bool} {o : Outcome σ} (h : o.goesOn P = true) :
    ∃ s, o = .ok s ∧ P s = true := by
  cases o with
  | ok s => exact ⟨s, rfl, h⟩
  | panic _ => cases h
  | disabled => cases h

/-- Take the labels in order, as long as each step goes on. -/
def runs {σ α : Type} (step : σ → α → Outcome σ) : σ → List α → Outcome σ
  | s, [] => .ok s
  | s, a :: as =>
    match step s a with
    | .ok s' => runs step s' as
    | .panic m => .panic m
    | .disabled => .disabled

/-- The states runs from an initial state end in. -/
inductive Reach {σ α : Type} (step : σ → α → Outcome σ) (init : σ → Prop) : σ → Prop
  | init {s} : init s → Reach step init s
  | step {s a s'} : Reach step init s → step s a = .ok s' → Reach step init s'

/-- Every step the run tries meets `C`, read in the state before the step. -/
def Along {σ α : Type} (step : σ → α → Outcome σ) (C : σ → α → Prop) : σ → List α → Prop
  | _, [] => True
  | s, a :: as => C s a ∧ match step s a with
    | .ok s' => Along step C s' as
    | .panic _ => True
    | .disabled => True

instance Along.decidable {σ α : Type} (step : σ → α → Outcome σ) (C : σ → α → Prop) [∀ s a, Decidable (C s a)] :
    ∀ s as, Decidable (Along step C s as)
  | _, [] => .isTrue trivial
  | s, a :: as =>
    have : Decidable (match step s a with
        | .ok s' => Along step C s' as
        | .panic _ => True
        | .disabled => True) :=
      match step s a with
      | .ok s' => Along.decidable step C s' as
      | .panic _ => .isTrue trivial
      | .disabled => .isTrue trivial
    inferInstanceAs (Decidable (_ ∧ _))

variable {σ α : Type} {step : σ → α → Outcome σ} {init : σ → Prop}

/-- **The invariant rule.** -/
theorem Reach.invariant {I : σ → Prop} (h0 : ∀ s, init s → I s)
    (hs : ∀ s a s', I s → step s a = .ok s' → I s') {s : σ} (h : Reach step init s) : I s := by
  induction h with
  | init hi => exact h0 _ hi
  | step _ he ih => exact hs _ _ _ ih he

theorem Along.of_forall {C : σ → α → Prop} {as : List α} (h : ∀ a ∈ as, ∀ s, C s a) (s : σ) : Along step C s as := by
  induction as generalizing s with
  | nil => trivial
  | cons a as ih =>
    refine ⟨h a List.mem_cons_self s, ?_⟩
    split
    · exact ih (fun b hb => h b (List.mem_cons_of_mem a hb)) _
    · trivial
    · trivial

theorem Along.mono {C C' : σ → α → Prop} (h : ∀ s a, C s a → C' s a) {s : σ} {as : List α} (hc : Along step C s as) :
    Along step C' s as := by
  induction as generalizing s with
  | nil => trivial
  | cons a as ih =>
    refine ⟨h s a hc.1, ?_⟩
    have hc := hc.2
    split at hc
    · exact ih hc
    · trivial
    · trivial

/-- The invariant rule for runs whose steps all meet a condition. -/
theorem Along.invariant {C : σ → α → Prop} {I : σ → Prop} (hs : ∀ s a s', I s → C s a → step s a = .ok s' → I s')
    {as : List α} {s s' : σ} (hc : Along step C s as) (hi : I s) (hr : runs step s as = .ok s') : I s' := by
  induction as generalizing s with
  | nil =>
    cases hr
    exact hi
  | cons a as ih =>
    obtain ⟨ha, hc⟩ := hc
    simp only [runs] at hr
    split at hr
    · next s1 he =>
      rw [he] at hc
      exact ih hc (hs s a s1 hi ha he) hr
    · cases hr
    · cases hr

/-- If no step that meets the condition stops the machine with this message, no such run does. -/
theorem Along.not_panic {C : σ → α → Prop} {I : σ → Prop} {msg : String}
    (hs : ∀ s a s', I s → C s a → step s a = .ok s' → I s') (hp : ∀ s a, I s → C s a → step s a ≠ .panic msg)
    {as : List α} {s : σ} (hc : Along step C s as) (hi : I s) : runs step s as ≠ .panic msg := by
  induction as generalizing s with
  | nil => exact fun h => by cases h
  | cons a as ih =>
    obtain ⟨ha, hc⟩ := hc
    simp only [runs]
    split
    · next s1 he =>
      rw [he] at hc
      exact ih hc (hs s a s1 hi ha he)
    · next m he =>
      rintro ⟨⟩
      exact hp s a hi ha he
    · exact fun h => by cases h

theorem Reach.of_runs {s s' : σ} {as : List α} (h : Reach step init s) (hr : runs step s as = .ok s') :
    Reach step init s' := by
  induction as generalizing s with
  | nil => simp only [runs, Outcome.ok.injEq] at hr; exact hr ▸ h
  | cons a as ih =>
    simp only [runs] at hr
    split at hr
    · next he => exact ih (h.step he) hr
    · cases hr
    · cases hr

end Xv6.Lib
