/-
A program logic for code that changes a state and may panic. `Triple W P c Q` is total
and framed: wherever `P` is owned beside anything else, `c` returns, does not panic,
and leaves `Q` beside the same rest. What the world keeps for itself (a free list, a
bitmap) is its `reserve`, so a triple need not mention it. `Triple.seq` is the rule
most proofs use: run a first command on the part of the precondition it needs.
-/
import Xv6.Lib.Ownership

namespace Xv6.Lib

/-- Code over a state that returns a value or panics with a message. -/
abbrev Code (σ α : Type) := StateT σ (Except String) α

/-- Stop the machine. -/
def Code.panic {σ α : Type} (msg : String) : Code σ α := fun _ => .error msg

/-- An if statement without an else. -/
def Code.when {σ : Type} (b : Prop) [Decidable b] (c : Code σ Unit) : Code σ Unit := if b then c else pure ()

theorem Code.bind_ok {σ α β : Type} {c : Code σ α} {f : α → Code σ β} {s s' : σ} {a : α} (h : c s = .ok (a, s')) :
    (c >>= f) s = f a s' := by
  change (c s >>= fun p => f p.1 p.2) = _
  rw [h]
  rfl

theorem Code.bind_error {σ α β : Type} {c : Code σ α} {f : α → Code σ β} {s : σ} {msg : String} (h : c s = .error msg) :
    (c >>= f) s = .error msg := by
  change (c s >>= fun p => f p.1 p.2) = _
  rw [h]
  rfl

theorem Code.get_bind {σ β : Type} (f : σ → Code σ β) (s : σ) : (get >>= f) s = f s s := rfl

theorem Code.modify_bind {σ β : Type} (g : σ → σ) (f : PUnit → Code σ β) (s : σ) :
    ((modify g : Code σ PUnit) >>= f) s = f ⟨⟩ (g s) := rfl

/-- How assertions read a state: its memory, all locations there are, and what the state itself accounts for. -/
structure World (σ L V : Type) where
  mem : σ → L → V
  locs : Multiset L
  nodup : locs.Nodup
  reserve : σ → Own L V

variable {σ L V α β : Type} {W : World σ L V}

/-- `P` and the reserve own all locations between them. -/
def World.Sat (W : World σ L V) (s : σ) (P : Own L V) : Prop := (W.reserve s + P).holds (W.mem s) W.locs

theorem World.Sat.mono {s : σ} {P Q : Own L V} (h : W.Sat s P) (hPQ : P ≤ Q) : W.Sat s Q :=
  add_le_add_right hPQ _ _ _ h

theorem World.sat_fact_add {s : σ} {φ : Prop} {P : Own L V} : W.Sat s (Own.fact φ + P) ↔ φ ∧ W.Sat s P := by
  rw [World.Sat, add_left_comm, Own.holds_fact_add, World.Sat]

theorem World.sat_ex_add {s : σ} {ι : Type} {P : ι → Own L V} {R : Own L V} :
    W.Sat s (Own.ex P + R) ↔ ∃ i, W.Sat s (P i + R) := by
  simp only [World.Sat]
  rw [Own.ex_add, add_comm, Own.ex_add]
  simp only [add_comm _ (W.reserve s)]
  exact Iff.rfl

/-- The locations of a part, as memory has them. -/
theorem World.Sat.asIs {s : σ} {P R : Own L V} (h : W.Sat s (P + R)) :
    ∃ S, P.holds (W.mem s) S ∧ W.Sat s (Own.asIs (W.mem s) S + R) := by
  obtain ⟨S₁, _, hlocs, h₁, S, T, rfl, hP, hR⟩ := h
  exact ⟨S, hP, S₁, _, hlocs, h₁, S, T, rfl, ⟨rfl, fun _ _ => rfl⟩, hR⟩

/-- Total correctness with the frame built in. -/
def Triple (W : World σ L V) (P : Own L V) (c : Code σ α) (Q : α → Own L V) : Prop :=
  ∀ R s, W.Sat s (P + R) → ∃ a s', c s = .ok (a, s') ∧ W.Sat s' (Q a + R)

namespace Triple

variable {P P' R : Own L V} {Q Q' : α → Own L V} {c : Code σ α} {a : α}

theorem conseq (h : Triple W P c Q) (hP : P' ≤ P) (hQ : ∀ a, Q a ≤ Q' a) : Triple W P' c Q' := by
  intro R s hs
  obtain ⟨a, s', hc, hs'⟩ := h R s (hs.mono (add_le_add_left hP R))
  exact ⟨a, s', hc, hs'.mono (add_le_add_left (hQ a) R)⟩

theorem frame (h : Triple W P c Q) (F : Own L V) : Triple W (P + F) c fun a => Q a + F := by
  intro R s hs
  rw [add_assoc] at hs
  obtain ⟨a, s', hc, hs'⟩ := h (F + R) s hs
  exact ⟨a, s', hc, by rwa [add_assoc]⟩

theorem ret (h : P ≤ Q a) : Triple W P (pure a) Q := fun R s hs =>
  ⟨a, s, rfl, hs.mono (add_le_add_left h R)⟩

theorem bind {f : α → Code σ β} {Q' : β → Own L V} (h : Triple W P c Q) (hf : ∀ a, Triple W (Q a) (f a) Q') :
    Triple W P (c >>= f) Q' := by
  intro R s hs
  obtain ⟨a, s', hc, hs'⟩ := h R s hs
  obtain ⟨b, s'', hb, hs''⟩ := hf a R s' hs'
  exact ⟨b, s'', (Code.bind_ok hc).trans hb, hs''⟩

/-- Run `c` on the part of `P` it needs, then go on with what it leaves and the rest. -/
theorem seq {P₀ : Own L V} {Q₀ : α → Own L V} {f : α → Code σ β} {Q' : β → Own L V} (h : Triple W P₀ c Q₀)
    (F : Own L V) (hP : P ≤ P₀ + F) (hf : ∀ a, Triple W (Q₀ a + F) (f a) Q') : Triple W P (c >>= f) Q' :=
  bind ((h.frame F).conseq hP fun _ => le_rfl) hf

theorem fact {φ : Prop} (h : φ → Triple W P c Q) : Triple W (Own.fact φ + P) c Q := by
  intro R s hs
  rw [add_assoc, World.sat_fact_add] at hs
  exact h hs.1 R s hs.2

theorem ex {ι : Type} {P : ι → Own L V} (h : ∀ i, Triple W (P i) c Q) : Triple W (Own.ex P) c Q := by
  intro R s hs
  obtain ⟨i, hi⟩ := World.sat_ex_add.mp hs
  exact h i R s hi

theorem when {b : Prop} [Decidable b] {c : Code σ Unit} {Q : Own L V} (ht : b → Triple W P c fun _ => Q)
    (hf : ¬ b → P ≤ Q) : Triple W P (Code.when b c) fun _ => Q := by
  unfold Code.when
  split
  · next h => exact ht h
  · next h => exact ret (hf h)

/-- What a rule frames is left as it is, location by location. -/
theorem keeps (h : Triple W P c Q) {s : σ} (hs : W.Sat s (P + R)) :
    ∃ a s' S, c s = .ok (a, s') ∧ S ≤ W.locs ∧ R.holds (W.mem s) S ∧ (∀ l ∈ S, W.mem s' l = W.mem s l) ∧
      W.Sat s' (Q a + R) := by
  rw [add_comm] at hs
  obtain ⟨S, hR, hs⟩ := hs.asIs
  rw [add_comm] at hs
  obtain ⟨a, s', hc, hsat⟩ := h _ s hs
  obtain ⟨S₁, _, hlocs, -, S₂, T, rfl, -, hT, hkeep⟩ := id hsat
  have hle : S ≤ W.locs := by
    rw [hlocs, hT, ← add_assoc]
    exact Multiset.le_add_left S _
  exact ⟨a, s', S, hc, hle, hR, fun l hl => (hkeep l hl).symm, hsat.mono (add_le_add_right (Own.asIs_le hR) _)⟩

/-- Whatever every state with `P` satisfies may be assumed. -/
theorem assume {φ : Prop} (hφ : ∀ R s, W.Sat s (P + R) → φ) (h : φ → Triple W P c Q) : Triple W P c Q :=
  fun R s hs => h (hφ R s hs) R s hs

end Triple

/-! ## Total correctness from one state -/

/-- The code, run from `s`, returns a value and a state of which `Q` holds. -/
def Code.Returns (c : Code σ α) (s : σ) (Q : α → σ → Prop) : Prop := ∃ a s', c s = .ok (a, s') ∧ Q a s'

namespace Code.Returns

variable {c : Code σ α} {f : α → Code σ β} {s : σ} {a : α} {Q Q' : α → σ → Prop} {T : β → σ → Prop}

theorem mono (h : c.Returns s Q) (hQ : ∀ a s', Q a s' → Q' a s') : c.Returns s Q' := by
  obtain ⟨a, s', hc, hq⟩ := h
  exact ⟨a, s', hc, hQ a s' hq⟩

theorem pure (h : Q a s) : (pure a : Code σ α).Returns s Q := ⟨a, s, rfl, h⟩

theorem bind (h : c.Returns s Q) (hf : ∀ a s', Q a s' → (f a).Returns s' T) : (c >>= f).Returns s T := by
  obtain ⟨a, s', hc, hq⟩ := h
  obtain ⟨b, s'', hb, ht⟩ := hf a s' hq
  exact ⟨b, s'', (Code.bind_ok hc).trans hb, ht⟩

/-- Run a first command whose result is known. -/
theorem step {s' : σ} (h : c s = .ok (a, s')) (hf : (f a).Returns s' T) : (c >>= f).Returns s T := by
  obtain ⟨b, s'', hb, ht⟩ := hf
  exact ⟨b, s'', (Code.bind_ok h).trans hb, ht⟩

theorem get {g : σ → Code σ β} (h : (g s).Returns s T) : (MonadState.get >>= g).Returns s T := h

theorem modify {m : σ → σ} {g : PUnit → Code σ β} (h : (g ⟨⟩).Returns (m s) T) :
    ((modify m : Code σ PUnit) >>= g).Returns s T := h

theorem when {b : Prop} [Decidable b] {c : Code σ Unit} {Q : Unit → σ → Prop} (ht : b → c.Returns s Q)
    (hf : ¬ b → Q () s) : (Code.when b c).Returns s Q := by
  unfold Code.when
  split
  · next h => exact ht h
  · next h => exact pure (hf h)

theorem update {m : σ → σ} {Q : PUnit → σ → Prop} (h : Q ⟨⟩ (m s)) :
    (MonadState.modifyGet fun s => (⟨⟩, m s) : Code σ PUnit).Returns s Q := ⟨⟨⟩, m s, rfl, h⟩

end Code.Returns

/-! ## Partial correctness from one state -/

/-- If the code returns at all, `Q` holds of what it returns. -/
def Code.Ensures (c : Code σ α) (s : σ) (Q : α → σ → Prop) : Prop := ∀ a s', c s = .ok (a, s') → Q a s'

namespace Code.Ensures

variable {c : Code σ α} {f : α → Code σ β} {s : σ} {Q : α → σ → Prop} {T : β → σ → Prop}

theorem of_returns (h : c.Returns s Q) : c.Ensures s Q := by
  intro a s' he
  obtain ⟨b, s'', hb, hq⟩ := h
  rw [he] at hb
  cases hb
  exact hq

theorem of_triple {P R : Own L V} {F : α → Own L V} (h : Triple W P c F) (hs : W.Sat s (P + R)) :
    c.Ensures s fun a s' => W.Sat s' (F a + R) :=
  of_returns (h R s hs)

theorem get {g : σ → Code σ β} (h : (g s).Ensures s T) : (MonadState.get >>= g).Ensures s T := h

theorem modify {m : σ → σ} {g : PUnit → Code σ β} (h : (g ⟨⟩).Ensures (m s) T) :
    ((modify m : Code σ PUnit) >>= g).Ensures s T := h

theorem panic {msg : String} : (Code.panic msg : Code σ α).Ensures s Q := fun _ _ h => by cases h

theorem bind (h : c.Ensures s Q) (hf : ∀ a s', Q a s' → (f a).Ensures s' T) : (c >>= f).Ensures s T := by
  intro b s'' he
  cases hc : c s with
  | ok r =>
    rw [Code.bind_ok hc] at he
    exact hf r.1 r.2 (h r.1 r.2 hc) b s'' he
  | error msg =>
    rw [Code.bind_error hc] at he
    cases he

theorem pure {a : α} (h : Q a s) : (pure a : Code σ α).Ensures s Q := fun _ _ he => by
  cases he
  exact h

theorem mono {Q' : α → σ → Prop} (h : c.Ensures s Q) (hQ : ∀ a s', Q a s' → Q' a s') : c.Ensures s Q' :=
  fun a s' he => hQ a s' (h a s' he)

theorem update {m : σ → σ} {Q : PUnit → σ → Prop} (h : Q ⟨⟩ (m s)) :
    (MonadState.modifyGet fun s => (⟨⟩, m s) : Code σ PUnit).Ensures s Q :=
  of_returns (.update h)

end Code.Ensures

/-! ## What code leaves alone -/

/-- The code leaves `f` of the state as it is. -/
def Code.Keeps {τ : Type} (f : σ → τ) (c : Code σ α) : Prop := ∀ s, c.Ensures s fun _ s' => f s' = f s

namespace Code.Keeps

variable {τ : Type} {f : σ → τ} {c : Code σ α}

theorem pure (a : α) : Code.Keeps f (pure a : Code σ α) := fun _ => Ensures.pure rfl

theorem panic (msg : String) : Code.Keeps f (Code.panic msg : Code σ α) := fun _ => Ensures.panic

theorem modify {m : σ → σ} (h : ∀ s, f (m s) = f s) : Code.Keeps f (modify m : Code σ PUnit) := fun s => Ensures.update (h s)

theorem bind {g : α → Code σ β} (h : c.Keeps f) (hg : ∀ a, (g a).Keeps f) : (c >>= g).Keeps f := fun s =>
  (h s).bind fun a s' hs => (hg a s').mono fun _ _ hs' => hs'.trans hs

theorem get {g : σ → Code σ β} (hg : ∀ s, (g s).Keeps f) : (MonadState.get >>= g).Keeps f := fun s => hg s s

theorem ite {b : Prop} [Decidable b] {c' : Code σ α} (h : c.Keeps f) (h' : c'.Keeps f) : (if b then c else c').Keeps f := by
  split
  · exact h
  · exact h'

theorem when {b : Prop} [Decidable b] {c : Code σ Unit} (h : c.Keeps f) : (Code.when b c).Keeps f := ite h (pure ())

end Code.Keeps

end Xv6.Lib
