/-
Assertions that own memory. An `Own` says something about a memory and a multiset of
its locations: the locations it owns, each as often as it owns it. It reads nothing
else. `P + Q` splits what is owned between `P` and `Q`, `0` owns nothing, and these
form a commutative monoid, so an iterated conjunction is a `Finset` sum and a
rearrangement is `abel`. Nothing is ever dropped: an assertion that holds of a memory
and the multiset of all locations accounts for every location exactly once
(`Footprint`), and when that multiset has no duplicates, changing one owned location
leaves every other part as it is (`cell_update`).
-/
import Mathlib

namespace Xv6.Lib

/-- A property of a memory and of the locations it owns; it depends on no other location. -/
@[ext]
structure Own (L V : Type) where
  holds : (L → V) → Multiset L → Prop
  reads : ∀ {m m' S}, (∀ l ∈ S, m l = m' l) → holds m S → holds m' S

namespace Own

variable {L V : Type} {P Q R : Own L V} {m : L → V} {S : Multiset L}

/-! ## The monoid of assertions -/

instance : Zero (Own L V) := ⟨⟨fun _ S => S = 0, fun _ h => h⟩⟩

instance : Add (Own L V) where
  add P Q := {
    holds := fun m S => ∃ S₁ S₂, S = S₁ + S₂ ∧ P.holds m S₁ ∧ Q.holds m S₂
    reads := by
      rintro m m' S h ⟨S₁, S₂, rfl, h₁, h₂⟩
      exact ⟨S₁, S₂, rfl, P.reads (fun l hl => h l (Multiset.mem_add.mpr (.inl hl))) h₁,
        Q.reads (fun l hl => h l (Multiset.mem_add.mpr (.inr hl))) h₂⟩ }

theorem holds_zero : (0 : Own L V).holds m S ↔ S = 0 := Iff.rfl

theorem ext_iff' : P = Q ↔ ∀ m S, P.holds m S ↔ Q.holds m S :=
  ⟨fun h _ _ => h ▸ Iff.rfl, fun h => Own.ext (funext fun m => funext fun S => propext (h m S))⟩

instance : AddCommMonoid (Own L V) where
  add_assoc P Q R := by
    refine ext_iff'.mpr fun m S => ⟨?_, ?_⟩
    · rintro ⟨_, S₃, rfl, ⟨S₁, S₂, rfl, h₁, h₂⟩, h₃⟩
      exact ⟨S₁, S₂ + S₃, add_assoc .., h₁, S₂, S₃, rfl, h₂, h₃⟩
    · rintro ⟨S₁, _, rfl, h₁, S₂, S₃, rfl, h₂, h₃⟩
      exact ⟨S₁ + S₂, S₃, (add_assoc ..).symm, ⟨S₁, S₂, rfl, h₁, h₂⟩, h₃⟩
  zero_add P := by
    refine ext_iff'.mpr fun m S => ⟨?_, fun h => ⟨0, S, (zero_add S).symm, rfl, h⟩⟩
    rintro ⟨_, S₂, rfl, rfl, h⟩
    rwa [zero_add]
  add_zero P := by
    refine ext_iff'.mpr fun m S => ⟨?_, fun h => ⟨S, 0, (add_zero S).symm, h, rfl⟩⟩
    rintro ⟨S₁, _, rfl, h, rfl⟩
    rwa [add_zero]
  add_comm P Q := by
    refine ext_iff'.mpr fun m S => ⟨?_, ?_⟩
    · rintro ⟨S₁, S₂, rfl, h₁, h₂⟩
      exact ⟨S₂, S₁, add_comm .., h₂, h₁⟩
    · rintro ⟨S₁, S₂, rfl, h₁, h₂⟩
      exact ⟨S₂, S₁, add_comm .., h₂, h₁⟩
  nsmul := nsmulRec

/-- Wherever `P` holds, `Q` holds of the same locations. -/
def Entails (P Q : Own L V) : Prop := ∀ m S, P.holds m S → Q.holds m S

instance : PartialOrder (Own L V) where
  le := Entails
  le_refl _ _ _ h := h
  le_trans _ _ _ h₁ h₂ m S h := h₂ m S (h₁ m S h)
  le_antisymm _ _ h₁ h₂ := ext_iff'.mpr fun m S => ⟨h₁ m S, h₂ m S⟩

instance : IsOrderedAddMonoid (Own L V) where
  add_le_add_left _ _ h _ := by
    rintro m S ⟨S₁, S₂, rfl, h₁, h₂⟩
    exact ⟨S₁, S₂, rfl, h _ _ h₁, h₂⟩

theorem sum_erase_le {ι : Type} [DecidableEq ι] {s : Finset ι} {i : ι} {A B : ι → Own L V}
    (h : ∀ j, j ≠ i → A j ≤ B j) : ∑ j ∈ s.erase i, A j ≤ ∑ j ∈ s.erase i, B j :=
  Finset.sum_le_sum fun j hj => h j (Finset.ne_of_mem_erase hj)

/-- A sum over a table with one entry replaced. -/
theorem sum_apply_update {ι α M : Type} [Fintype ι] [DecidableEq ι] [AddCommMonoid M] (g : α → M) (f : ι → α) (i : ι)
    (x : α) : ∑ j, g (Function.update f i x j) = g x + ∑ j ∈ Finset.univ.erase i, g (f j) := by
  rw [← Finset.add_sum_erase _ _ (Finset.mem_univ i), Function.update_self]
  congr 1
  exact Finset.sum_congr rfl fun j hj => by rw [Function.update_of_ne (Finset.ne_of_mem_erase hj)]

/-! ## Facts, existentials, the wand -/

/-- A fact about no location. -/
def fact (φ : Prop) : Own L V := ⟨fun _ S => S = 0 ∧ φ, fun _ h => h⟩

/-- These locations, whatever they hold. -/
def owns (S : Multiset L) : Own L V := ⟨fun _ S' => S' = S, fun _ h => h⟩

/-- These locations, as `m` has them. -/
def asIs (m : L → V) (S : Multiset L) : Own L V :=
  ⟨fun m' S' => S' = S ∧ ∀ l ∈ S, m l = m' l, fun h ⟨hS, hm⟩ => ⟨hS, fun l hl => (hm l hl).trans (h l (hS ▸ hl))⟩⟩

/-- Some `P i` holds. -/
def ex {ι : Type} (P : ι → Own L V) : Own L V :=
  ⟨fun m S => ∃ i, (P i).holds m S, fun h ⟨i, hi⟩ => ⟨i, (P i).reads h hi⟩⟩

/-- What `P` completes to `Q`: joined with any `P`, in any memory that keeps the owned locations, it makes a `Q`. -/
def wand (P Q : Own L V) : Own L V where
  holds m S := ∀ m' S', (∀ l ∈ S, m l = m' l) → P.holds m' S' → Q.holds m' (S + S')
  reads h hw m' S' hm hP := hw m' S' (fun l hl => (h l hl).trans (hm l hl)) hP

/-- All `P i` hold of the same locations. -/
def all {ι : Type} (P : ι → Own L V) : Own L V :=
  ⟨fun m S => ∀ i, (P i).holds m S, fun h hi i => (P i).reads h (hi i)⟩

theorem asIs_le (h : P.holds m S) : asIs m S ≤ P := by
  rintro m' _ ⟨rfl, hm⟩
  exact P.reads hm h

theorem asIs_add (S T : Multiset L) : asIs m (S + T) = asIs m S + asIs m T := by
  refine ext_iff'.mpr fun m' U => ⟨?_, ?_⟩
  · rintro ⟨rfl, h⟩
    exact ⟨S, T, rfl, ⟨rfl, fun l hl => h l (Multiset.mem_add.mpr (.inl hl))⟩,
      rfl, fun l hl => h l (Multiset.mem_add.mpr (.inr hl))⟩
  · rintro ⟨_, _, rfl, ⟨rfl, h⟩, rfl, h'⟩
    exact ⟨rfl, fun l hl => (Multiset.mem_add.mp hl).elim (h l) (h' l)⟩

theorem holds_fact_add {φ : Prop} : (fact φ + P).holds m S ↔ φ ∧ P.holds m S := by
  refine ⟨?_, fun ⟨hφ, h⟩ => ⟨0, S, (zero_add S).symm, ⟨rfl, hφ⟩, h⟩⟩
  rintro ⟨_, S₂, rfl, ⟨rfl, hφ⟩, h⟩
  exact ⟨hφ, by rwa [zero_add]⟩

theorem fact_add_le {φ : Prop} (h : φ → P ≤ Q) : fact φ + P ≤ Q := fun m S hp =>
  have ⟨hφ, hP⟩ := holds_fact_add.mp hp
  h hφ m S hP

theorem le_fact_add {φ : Prop} (hφ : φ) (h : P ≤ Q) : P ≤ fact φ + Q := fun m S hp =>
  holds_fact_add.mpr ⟨hφ, h m S hp⟩

@[simp] theorem fact_true : (fact True : Own L V) = 0 := ext_iff'.mpr fun _ _ => by simp [fact, holds_zero]

theorem fact_of {φ : Prop} (h : φ) : (fact φ : Own L V) = 0 := by rw [eq_true h, fact_true]

theorem ex_le {ι : Type} {P : ι → Own L V} (h : ∀ i, P i ≤ Q) : ex P ≤ Q := fun m S ⟨i, hi⟩ => h i m S hi

theorem le_ex {ι : Type} {Q : ι → Own L V} (i : ι) (h : P ≤ Q i) : P ≤ ex Q := fun m S hP => ⟨i, h m S hP⟩

theorem ex_add {ι : Type} {P : ι → Own L V} : ex P + R = ex fun i => P i + R := by
  refine ext_iff'.mpr fun m S => ⟨?_, ?_⟩
  · rintro ⟨S₁, S₂, rfl, ⟨i, hi⟩, h₂⟩
    exact ⟨i, S₁, S₂, rfl, hi, h₂⟩
  · rintro ⟨i, S₁, S₂, rfl, hi, h₂⟩
    exact ⟨S₁, S₂, rfl, ⟨i, hi⟩, h₂⟩

/-- The wand is what a frame that makes `Q` out of `P` entails. -/
theorem le_wand (h : R + P ≤ Q) : R ≤ wand P Q := fun _ S hR _ S' hm hP =>
  h _ _ ⟨S, S', rfl, R.reads hm hR, hP⟩

theorem wand_add_le : wand P Q + P ≤ Q := by
  rintro m S ⟨S₁, S₂, rfl, hw, hP⟩
  exact hw m S₂ (fun _ _ => rfl) hP

theorem le_all {ι : Type} {Q : ι → Own L V} (h : ∀ i, P ≤ Q i) : P ≤ all Q := fun m S hP i => h i m S hP

theorem all_le {ι : Type} {P : ι → Own L V} (i : ι) : all P ≤ P i := fun _ _ h => h i

/-! ## One location -/

/-- Location `l` is owned and holds `v`. -/
def cell (l : L) (v : V) : Own L V := ⟨fun m S => S = {l} ∧ m l = v, by
  rintro m m' _ h ⟨rfl, hv⟩
  exact ⟨rfl, (h l (Multiset.mem_singleton_self l)) ▸ hv⟩⟩

theorem cell_value {l : L} {v : V} (h : (cell l v + R).holds m S) : m l = v := by
  obtain ⟨_, _, -, ⟨-, hv⟩, -⟩ := h
  exact hv

theorem cell_mem {l : L} {v : V} (h : (cell l v + R).holds m S) : l ∈ S := by
  obtain ⟨_, S₂, rfl, ⟨rfl, -⟩, -⟩ := h
  exact Multiset.mem_add.mpr (.inl (Multiset.mem_singleton_self l))

/-- A location is owned once. -/
theorem cell_ne {l l' : L} {v v' : V} (hS : S.Nodup) (h : (cell l v + (cell l' v' + R)).holds m S) : l ≠ l' := by
  rintro rfl
  obtain ⟨_, S₂, rfl, ⟨rfl, -⟩, hR⟩ := h
  rw [Multiset.singleton_add, Multiset.nodup_cons] at hS
  exact hS.1 (cell_mem hR)

/-- **The frame rule of a store.** Changing an owned location changes nothing the rest says. -/
theorem cell_update [DecidableEq L] {l : L} {v v' : V} (hS : S.Nodup) (h : (cell l v + R).holds m S) :
    (cell l v' + R).holds (Function.update m l v') S := by
  obtain ⟨_, S₂, rfl, ⟨rfl, -⟩, hR⟩ := h
  refine ⟨{l}, S₂, rfl, ⟨rfl, Function.update_self ..⟩, R.reads (fun x hx => ?_) hR⟩
  have hne : x ≠ l := by
    rintro rfl
    rw [Multiset.singleton_add, Multiset.nodup_cons] at hS
    exact hS.1 hx
  rw [Function.update_of_ne hne]

/-- Each part of a sum holds of some of the locations. -/
theorem holds_of_mem_sum {ι : Type} [DecidableEq ι] {s : Finset ι} {P : ι → Own L V} {i : ι}
    (h : (∑ j ∈ s, P j).holds m S) (hi : i ∈ s) : ∃ S', S' ≤ S ∧ (P i).holds m S' := by
  rw [← Finset.add_sum_erase _ _ hi] at h
  obtain ⟨S₁, S₂, rfl, h₁, -⟩ := h
  exact ⟨S₁, Multiset.le_add_right S₁ S₂, h₁⟩

/-! ## Footprints -/

/-- In memory `m`, among the locations of `A`, the assertion can own nothing but `F`. -/
def Footprint (m : L → V) (A : Set L) (P : Own L V) (F : Multiset L) : Prop :=
  ∀ S, (∀ x ∈ S, x ∈ A) → P.holds m S → S = F

namespace Footprint

variable {A : Set L} {F G : Multiset L}

theorem add (hP : Footprint m A P F) (hQ : Footprint m A Q G) : Footprint m A (P + Q) (F + G) := by
  rintro _ hA ⟨S₁, S₂, rfl, h₁, h₂⟩
  rw [hP S₁ (fun x hx => hA x (Multiset.mem_add.mpr (.inl hx))) h₁,
    hQ S₂ (fun x hx => hA x (Multiset.mem_add.mpr (.inr hx))) h₂]

theorem sum {ι : Type} {s : Finset ι} {P : ι → Own L V} {F : ι → Multiset L}
    (h : ∀ i ∈ s, Footprint m A (P i) (F i)) : Footprint m A (∑ i ∈ s, P i) (∑ i ∈ s, F i) := by
  classical
  induction s using Finset.induction_on with
  | empty => exact fun S _ hS => hS
  | insert a s ha ih =>
    rw [Finset.sum_insert ha, Finset.sum_insert ha]
    exact (h a (Finset.mem_insert_self a s)).add (ih fun i hi => h i (Finset.mem_insert_of_mem hi))

theorem cell {l : L} {v : V} : Footprint m A (cell l v) {l} := fun _ _ h => h.1

theorem zero : Footprint m A (0 : Own L V) 0 := fun _ _ h => h

end Footprint

/-- Where all parts together have a location once, one part has it. -/
theorem existsUnique_of_nodup_sum {ι : Type} [Fintype ι] {F : ι → Multiset L} {l : L} (h : (∑ i, F i).Nodup)
    (hl : l ∈ ∑ i, F i) : ∃! i, l ∈ F i := by
  classical
  obtain ⟨i, -, hi⟩ := Multiset.mem_sum.mp hl
  refine ⟨i, hi, fun j hj => ?_⟩
  by_contra hne
  rw [← Finset.add_sum_erase _ _ (Finset.mem_univ i), Multiset.nodup_add] at h
  have hj' : l ∈ ∑ k ∈ Finset.univ.erase i, F k :=
    Multiset.mem_sum.mpr ⟨j, Finset.mem_erase.mpr ⟨hne, Finset.mem_univ j⟩, hj⟩
  exact Multiset.disjoint_left.mp h.2.2 hi hj'

theorem nodup_of_nodup_sum {ι : Type} [Fintype ι] {F : ι → Multiset L} (h : (∑ i, F i).Nodup) (i : ι) : (F i).Nodup := by
  classical
  rw [← Finset.add_sum_erase _ _ (Finset.mem_univ i), Multiset.nodup_add] at h
  exact h.1

end Own

end Xv6.Lib
