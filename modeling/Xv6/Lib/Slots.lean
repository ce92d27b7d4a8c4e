/-
A table of slots as a finite map: each slot is empty or holds a key and a value, no key is
in two slots, and a search goes through the slots in order. Filling an empty slot, or a
new one at the end, with a key that is not there adds it to the map; emptying a slot
takes its key out.
-/
import Mathlib

namespace Xv6.Lib

/-- Slots that are empty or hold a key and a value. -/
abbrev Slots (κ ν : Type) := List (Option (κ × ν))

namespace Slots

variable {κ ν : Type} {t : Slots κ ν} {k k' : κ} {v w : ν} {i j : Nat}

/-- No key is in two slots. -/
def Distinct (t : Slots κ ν) : Prop :=
  ∀ (i j : Nat) (k : κ) (v w : ν), t[i]? = some (some (k, v)) → t[j]? = some (some (k, w)) → i = j

theorem Distinct.mem_inj (h : t.Distinct) (hv : some (k, v) ∈ t) (hw : some (k, w) ∈ t) : v = w := by
  obtain ⟨i, hi⟩ := List.mem_iff_getElem?.mp hv
  obtain ⟨j, hj⟩ := List.mem_iff_getElem?.mp hw
  obtain rfl := h i j k v w hi hj
  rw [hi] at hj
  cases hj
  rfl

/-- Filling slot `i`, which holds nothing but perhaps `k`. -/
theorem Distinct.fill (h : t.Distinct) (hk : ∀ j w, t[j]? = some (some (k, w)) → j = i) :
    Distinct (List.set t i (some (k, v))) := by
  have hkey {a : Nat} {q : κ} {x : ν} (ha : (List.set t i (some (k, v)))[a]? = some (some (q, x))) :
      a = i ∧ q = k ∨ a ≠ i ∧ t[a]? = some (some (q, x)) := by
    rw [List.getElem?_set] at ha
    split at ha
    · next hia =>
      split at ha
      · cases ha
        exact .inl ⟨hia.symm, rfl⟩
      · cases ha
    · next hia => exact .inr ⟨fun he => hia he.symm, ha⟩
  intro a b q x y ha hb
  rcases hkey ha with ⟨rfl, rfl⟩ | ⟨hai, ha'⟩
  · rcases hkey hb with ⟨rfl, -⟩ | ⟨hbi, hb'⟩
    · rfl
    · exact absurd (hk b y hb') hbi
  · rcases hkey hb with ⟨rfl, rfl⟩ | ⟨hbi, hb'⟩
    · exact absurd (hk a x ha') hai
    · exact h a b q x y ha' hb'

theorem Distinct.clear (h : t.Distinct) : Distinct (List.set t i none) := by
  have hold {a : Nat} {q : κ} {x : ν} (ha : (List.set t i none)[a]? = some (some (q, x))) : t[a]? = some (some (q, x)) := by
    rw [List.getElem?_set] at ha
    split at ha
    · split at ha <;> cases ha
    · exact ha
  exact fun a b q x y ha hb => h a b q x y (hold ha) (hold hb)

variable [DecidableEq κ]

/-- Whether a slot holds the key. -/
def has (k : κ) (e : Option (κ × ν)) : Bool := e.any fun p => p.1 = k

/-- The first slot that holds the key. -/
def find (t : Slots κ ν) (k : κ) : Option Nat := t.findIdx? (has k)

/-- The value in the first slot that holds the key. -/
def lookup (t : Slots κ ν) (k : κ) : Option ν := t.findSome? fun e => e.bind fun p => if p.1 = k then some p.2 else none

theorem has_iff {e : Option (κ × ν)} : has k e = true ↔ ∃ v, e = some (k, v) := by
  unfold has
  cases e with
  | none => simp
  | some p => simp [Prod.ext_iff]

theorem find_some (h : t.find k = some i) : ∃ v, t[i]? = some (some (k, v)) := by
  obtain ⟨hi, hp, -⟩ := List.findIdx?_eq_some_iff_getElem.mp h
  obtain ⟨v, hv⟩ := has_iff.mp hp
  exact ⟨v, by rw [List.getElem?_eq_getElem hi, hv]⟩

theorem find_none : t.find k = none ↔ ∀ v, some (k, v) ∉ t := by
  unfold find
  rw [List.findIdx?_eq_none_iff]
  constructor
  · intro h v hv
    have := h _ hv
    rw [← Bool.not_eq_true, has_iff] at this
    exact this ⟨v, rfl⟩
  · intro h e he
    rw [← Bool.not_eq_true, has_iff]
    rintro ⟨v, rfl⟩
    exact h v he

theorem lookup_some (h : t.Distinct) : t.lookup k = some v ↔ some (k, v) ∈ t := by
  have hmem {w : ν} (hw : t.lookup k = some w) : some (k, w) ∈ t := by
    obtain ⟨e, he, hf⟩ := List.exists_of_findSome?_eq_some hw
    cases e with
    | none => cases hf
    | some p =>
      simp only [Option.bind_some] at hf
      split at hf
      · next hp =>
        cases hf
        rw [← hp]
        exact he
      · cases hf
  refine ⟨hmem, fun hv => ?_⟩
  cases hl : t.lookup k with
  | none =>
    have hnone := List.findSome?_eq_none_iff.mp hl _ hv
    simp at hnone
  | some w => rw [h.mem_inj (hmem hl) hv]

theorem lookup_none (h : t.Distinct) : t.lookup k = none ↔ t.find k = none := by
  rw [find_none]
  constructor
  · intro hl v hv
    rw [(lookup_some h).mpr hv] at hl
    cases hl
  · intro hf
    cases hl : t.lookup k with
    | none => rfl
    | some v => exact absurd ((lookup_some h).mp hl) (hf v)

theorem lookup_of_find (h : t.Distinct) (hf : t.find k = some i) (hi : t[i]? = some (some (k', v))) :
    k' = k ∧ t.lookup k = some v := by
  obtain ⟨w, hw⟩ := find_some hf
  rw [hi] at hw
  cases hw
  exact ⟨rfl, (lookup_some h).mpr (List.mem_of_getElem? hi)⟩

/-- An empty slot is filled. -/
theorem lookup_set (k' : κ) (h : t.Distinct) (hf : t.find k = none) (hi : t[i]? = some none) :
    Distinct (List.set t i (some (k, v))) ∧
      lookup (List.set t i (some (k, v))) k' = if k' = k then some v else t.lookup k' := by
  have hlt := (List.getElem?_eq_some_iff.mp hi).1
  have hd : Distinct (List.set t i (some (k, v))) :=
    h.fill fun j w hj => absurd (List.mem_of_getElem? hj) (find_none.mp hf w)
  refine ⟨hd, ?_⟩
  split
  · next he =>
    rw [he, lookup_some hd]
    exact List.mem_set hlt _
  · next hne =>
    refine Option.ext fun x => ?_
    rw [lookup_some hd, lookup_some h]
    constructor
    · intro hx
      rcases List.mem_or_eq_of_mem_set hx with hx | hx
      · exact hx
      · cases hx
        exact absurd rfl hne
    · intro hx
      obtain ⟨j, hj⟩ := List.mem_iff_getElem?.mp hx
      refine List.mem_iff_getElem?.mpr ⟨j, ?_⟩
      rw [List.getElem?_set_ne]
      · exact hj
      · rintro rfl
        rw [hi] at hj
        cases hj

/-- A new slot is added at the end. -/
theorem lookup_append (k' : κ) (h : t.Distinct) (hf : t.find k = none) :
    Distinct (t ++ [some (k, v)]) ∧ lookup (t ++ [some (k, v)]) k' = if k' = k then some v else t.lookup k' := by
  have hd : Distinct (t ++ [some (k, v)]) := by
    have hkey {a : Nat} {q : κ} {x : ν} (ha : (t ++ [some (k, v)])[a]? = some (some (q, x))) :
        a = t.length ∧ q = k ∨ t[a]? = some (some (q, x)) := by
      rw [List.getElem?_append] at ha
      split at ha
      · exact .inr ha
      · next hge =>
        rw [List.getElem?_singleton] at ha
        split at ha
        · cases ha
          exact .inl ⟨by omega, rfl⟩
        · cases ha
    intro a b q x y ha hb
    rcases hkey ha with ⟨rfl, rfl⟩ | ha'
    · rcases hkey hb with ⟨rfl, -⟩ | hb'
      · rfl
      · exact absurd (List.mem_of_getElem? hb') (find_none.mp hf y)
    · rcases hkey hb with ⟨rfl, rfl⟩ | hb'
      · exact absurd (List.mem_of_getElem? ha') (find_none.mp hf x)
      · exact h a b q x y ha' hb'
  refine ⟨hd, ?_⟩
  split
  · next he =>
    rw [he, lookup_some hd]
    simp
  · next hne =>
    refine Option.ext fun x => ?_
    rw [lookup_some hd, lookup_some h, List.mem_append, List.mem_singleton]
    constructor
    · rintro (hx | hx)
      · exact hx
      · cases hx
        exact absurd rfl hne
    · exact .inl

/-- A slot is emptied. -/
theorem lookup_clear (h : t.Distinct) (hi : t[i]? = some (some (k, v))) :
    lookup (List.set t i none) k' = if k' = k then none else t.lookup k' := by
  have hd : Distinct (List.set t i none) := h.clear
  split
  · next he =>
    rw [he, lookup_none hd, find_none]
    intro w hw
    obtain ⟨j, hj⟩ := List.mem_iff_getElem?.mp hw
    rw [List.getElem?_set] at hj
    split at hj
    · split at hj <;> cases hj
    · next hij => exact hij (h i j k v w hi hj)
  · next hne =>
    refine Option.ext fun x => ?_
    rw [lookup_some hd, lookup_some h]
    constructor
    · intro hx
      rcases List.mem_or_eq_of_mem_set hx with hx | hx
      · exact hx
      · cases hx
    · intro hx
      obtain ⟨j, hj⟩ := List.mem_iff_getElem?.mp hx
      refine List.mem_iff_getElem?.mpr ⟨j, ?_⟩
      rw [List.getElem?_set_ne]
      · exact hj
      · rintro rfl
        rw [hi] at hj
        cases hj
        exact hne rfl

end Slots

end Xv6.Lib
