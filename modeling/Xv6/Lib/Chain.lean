/-
Singly linked lists in a memory of nodes. `Chain` is the list of the nodes between one
node and another; a circular list is a chain from a node to itself. `walk` follows the
links up to the first node with a property.
-/
import Mathlib

namespace Xv6.Lib

variable {N : Type} {next next' : N → N} {a b x z : N} {xs ys zs : List N} {P : N → Bool}

/-- The nodes `xs` lie between `a` and `b`. -/
def Chain (next : N → N) : N → List N → N → Prop
  | a, [], b => next a = b
  | a, x :: xs, b => next a = x ∧ Chain next x xs b

/-- The first node with the property, from `a` on. Nothing if that takes more steps than given. -/
def walk (next : N → N) (P : N → Bool) : Nat → N → Option N
  | 0, _ => none
  | k + 1, a => if P a then some a else walk next P k (next a)

theorem getLastD_of_append (h : a :: xs = ys ++ x :: zs) : zs.getLastD x = xs.getLastD a := by
  have hl := congrArg (List.getLastD · a) h
  simpa [List.getLastD_eq_getLast?, List.getLast?_cons, List.getLast?_append] using hl.symm

namespace Chain

theorem append_iff : Chain next a (xs ++ x :: ys) b ↔ Chain next a xs x ∧ Chain next x ys b := by
  induction xs generalizing a with
  | nil => exact Iff.rfl
  | cons y xs ih => simp only [List.cons_append, Chain, ih, and_assoc]

/-- The part behind a node. -/
theorem behind (h : Chain next a xs b) (he : a :: xs = ys ++ x :: zs) : Chain next x zs b := by
  cases ys with
  | nil =>
    cases he
    exact h
  | cons y ys =>
    cases he
    exact (append_iff.mp h).2

/-- A circle, seen from another of its nodes. -/
theorem rotate (h : Chain next a xs a) (he : a :: xs = ys ++ x :: zs) : Chain next x (zs ++ ys) x := by
  cases ys with
  | nil =>
    cases he
    rwa [List.append_nil]
  | cons y ys =>
    cases he
    obtain ⟨h₁, h₂⟩ := append_iff.mp h
    exact append_iff.mpr ⟨h₂, h₁⟩

theorem last (h : Chain next a xs b) : next (xs.getLastD a) = b := by
  induction xs generalizing a with
  | nil => exact h
  | cons x xs ih =>
    rw [List.getLastD_cons]
    exact ih h.2

theorem congr (h : Chain next a xs b) (hn : ∀ x ∈ a :: xs, next' x = next x) : Chain next' a xs b := by
  induction xs generalizing a with
  | nil => exact (hn a (by simp)).trans h
  | cons x xs ih => exact ⟨(hn a (by simp)).trans h.1, ih h.2 fun y hy => hn y (List.mem_cons_of_mem _ hy)⟩

/-- The same list behind another node. -/
theorem rehead (h : Chain next a xs b) (hx : next' x = next a) (hn : ∀ y ∈ xs, next' y = next y) : Chain next' x xs b := by
  cases xs with
  | nil => exact hx.trans h
  | cons y ys => exact ⟨hx.trans h.1, h.2.congr hn⟩

/-- A node is taken out: the one before is linked to the next. -/
theorem unlink [DecidableEq N] (h : Chain next a (xs ++ x :: ys) b) (hd : (a :: (xs ++ x :: ys)).Nodup) :
    Chain (Function.update next (xs.getLastD a) (next x)) a (xs ++ ys) b := by
  induction xs generalizing a with
  | nil =>
    have ha := (List.nodup_cons.mp hd).1
    refine h.2.rehead (Function.update_self ..) fun y hy => Function.update_of_ne ?_ ..
    rintro rfl
    exact ha (by simp [hy])
  | cons y xs ih =>
    obtain ⟨ha, hd⟩ := List.nodup_cons.mp hd
    rw [List.getLastD_cons]
    refine ⟨(Function.update_of_ne (fun he => ha ?_) ..).trans h.1, ih h.2 hd⟩
    have hm := List.getLastD_mem_cons (l := xs) (a := y)
    rw [he]
    exact List.mem_append_left (x :: ys) hm

theorem next_mem (h : Chain next a xs b) (hx : x ∈ a :: xs) : next x ∈ xs ++ [b] := by
  induction xs generalizing a with
  | nil =>
    obtain rfl : x = a := by simpa using hx
    simpa [Chain] using h
  | cons y xs ih =>
    rcases List.mem_cons.mp hx with rfl | hx
    · exact h.1 ▸ by simp
    · exact List.mem_cons_of_mem y (ih h.2 hx)

/-- In a list in some order, a node that is not the last is before its next. -/
theorem next_of_pairwise {r : N → N → Prop} (h : Chain next a xs b) (hr : (a :: xs).Pairwise r)
    (hx : x ∈ (a :: xs).dropLast) : next x ∈ xs ∧ r x (next x) := by
  induction xs generalizing a with
  | nil => simp at hx
  | cons y xs ih =>
    rw [List.dropLast_cons_of_ne_nil (List.cons_ne_nil y xs), List.mem_cons] at hx
    obtain ⟨ha, hr⟩ := List.pairwise_cons.mp hr
    rcases hx with rfl | hx
    · rw [h.1]
      exact ⟨List.mem_cons_self, ha y List.mem_cons_self⟩
    · exact (ih h.2 hr hx).imp_left fun hm => List.mem_cons_of_mem y hm

/-- Only one node is linked to `b`. -/
theorem pred (h : Chain next a (xs ++ x :: ys) b) (hd : (xs ++ x :: ys ++ [b]).Nodup) (hz : z ∈ a :: (xs ++ x :: ys))
    (hx : next z = x) : z = xs.getLastD a := by
  induction xs generalizing a with
  | nil =>
    rcases List.mem_cons.mp hz with rfl | hz
    · rfl
    · have hmem := next_mem h.2 hz
      rw [hx] at hmem
      exact absurd hmem (List.nodup_cons.mp hd).1
  | cons y xs ih =>
    obtain ⟨hy, hd⟩ := List.nodup_cons.mp hd
    rw [List.getLastD_cons]
    rcases List.mem_cons.mp hz with rfl | hz
    · rw [← hx, h.1] at hy
      exact absurd (by simp) hy
    · exact ih h.2 hd hz

theorem walk_pass (h : Chain next a xs b) (hP : ∀ x ∈ a :: xs, P x = false) (k : Nat) :
    walk next P (k + (xs.length + 1)) a = walk next P k b := by
  induction xs generalizing a with
  | nil => simp [walk, hP a, show next a = b from h]
  | cons x xs ih =>
    rw [List.length_cons, ← Nat.add_assoc, walk, hP a (by simp), h.1]
    exact ih h.2 fun y hy => hP y (List.mem_cons_of_mem _ hy)

theorem walk_found (h : Chain next a xs b) (hP : ∀ x ∈ (a :: xs).dropLast, P x = false) (hl : P (xs.getLastD a) = true)
    (k : Nat) : walk next P (k + (xs.length + 1)) a = some (xs.getLastD a) := by
  induction xs generalizing a with
  | nil => exact if_pos hl
  | cons x xs ih =>
    rw [List.length_cons, ← Nat.add_assoc, walk, hP a (by simp), h.1]
    rw [List.getLastD_cons] at hl ⊢
    exact ih h.2 (fun y hy => hP y (by simp [hy])) hl

end Chain

end Xv6.Lib
