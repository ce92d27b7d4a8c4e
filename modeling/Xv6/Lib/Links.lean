/-
Doubly linked lists in a memory of nodes, each with a `next` and a `prev`. `Seg` is the
segment from one node through a list of others to a last one; a circular list is a
segment from a node to itself. The two surgeries on one (taking a node out, putting
one in after another) are written as the assignments they consist of, and a search
along the pointers is the search of the list.
-/
import Mathlib

namespace Xv6.Lib

structure Links (N : Type) where
  next : N → N
  prev : N → N

namespace Links

variable {N : Type} [DecidableEq N] {l l' : Links N} {a b c h : N} {xs ys : List N}

/-- `b->next->prev = b->prev; b->prev->next = b->next` -/
def unlink (l : Links N) (b : N) : Links N :=
  let l := { l with prev := Function.update l.prev (l.next b) (l.prev b) }
  { l with next := Function.update l.next (l.prev b) (l.next b) }

/-- `b->next = h->next; b->prev = h; h->next->prev = b; h->next = b` -/
def insertAfter (l : Links N) (h b : N) : Links N :=
  let l := { l with next := Function.update l.next b (l.next h) }
  let l := { l with prev := Function.update l.prev b h }
  let l := { l with prev := Function.update l.prev (l.next h) b }
  { l with next := Function.update l.next h b }

/-- The nodes `xs` lie between `a` and `b`, linked both ways. -/
def Seg (l : Links N) : N → List N → N → Prop
  | a, [], b => l.next a = b ∧ l.prev b = a
  | a, x :: xs, b => (l.next a = x ∧ l.prev x = a) ∧ Seg l x xs b

/-- Follow `next` (or `prev`) from a node up to `h`, looking for a node with this property. Nothing if that takes more
steps than given. -/
def walk (next : N → N) (h : N) (P : N → Bool) : Nat → N → Option (Option N)
  | 0, _ => none
  | n + 1, a => if a = h then some none else if P a then some (some a) else walk next h P n (next a)

omit [DecidableEq N] in
theorem seg_append {x : N} : Seg l a (xs ++ x :: ys) b ↔ Seg l a xs x ∧ Seg l x ys b := by
  induction xs generalizing a with
  | nil => exact Iff.rfl
  | cons y xs ih => simp only [List.cons_append, Seg, ih, and_assoc]

namespace Seg

omit [DecidableEq N] in
theorem congr (hs : Seg l a xs b) (hn : ∀ x ∈ a :: xs, l'.next x = l.next x)
    (hp : ∀ x ∈ xs ++ [b], l'.prev x = l.prev x) : Seg l' a xs b := by
  induction xs generalizing a with
  | nil => exact ⟨(hn a (by simp)).trans hs.1, (hp b (by simp)).trans hs.2⟩
  | cons x xs ih =>
    refine ⟨⟨(hn a (by simp)).trans hs.1.1, (hp x (by simp)).trans hs.1.2⟩, ih hs.2 ?_ ?_⟩
    · exact fun y hy => hn y (List.mem_cons_of_mem _ hy)
    · exact fun y hy => hp y (by simp only [List.cons_append, List.mem_cons]; exact .inr hy)

omit [DecidableEq N] in
/-- The node before the end is the last of the segment. -/
theorem prev_mem (hs : Seg l a xs b) : l.prev b ∈ a :: xs := by
  induction xs generalizing a with
  | nil => exact hs.2 ▸ List.mem_singleton_self _
  | cons x xs ih => exact List.mem_cons_of_mem _ (ih hs.2)

omit [DecidableEq N] in
theorem next_mem (hs : Seg l a xs b) : l.next a ∈ xs ++ [b] := by
  cases xs with
  | nil => exact hs.1 ▸ List.mem_singleton_self _
  | cons x xs => exact hs.1.1 ▸ List.mem_cons_self

omit [DecidableEq N] in
/-- Two segments become one when the nodes on either side of `b` are linked past it. -/
theorem glue (h1 : Seg l a xs b) (h2 : Seg l b ys c) (hnd : (a :: xs).Nodup) (hnd' : (ys ++ [c]).Nodup)
    (hn : l'.next (l.prev b) = l.next b) (hp : l'.prev (l.next b) = l.prev b)
    (hn' : ∀ x ∈ a :: xs ++ ys, x ≠ l.prev b → l'.next x = l.next x)
    (hp' : ∀ x ∈ xs ++ (ys ++ [c]), x ≠ l.next b → l'.prev x = l.prev x)
    (hya : l.prev b ∉ ys) (hxb : l.next b ∉ xs) : Seg l' a (xs ++ ys) c := by
  induction xs generalizing a with
  | nil =>
    have ha : l.prev b = a := h1.2
    rw [ha] at hn hp hn' hya
    cases ys with
    | nil =>
      have hc : l.next b = c := h2.1
      rw [hc] at hn hp
      exact ⟨hn, hp⟩
    | cons y ys =>
      have hy : l.next b = y := h2.1.1
      rw [hy] at hn hp hp'
      refine ⟨⟨hn, hp⟩, h2.2.congr (fun x hx => hn' x (by simp_all) ?_) fun x hx => hp' x (by simp_all) ?_⟩
      · exact fun he => hya (he ▸ hx)
      · rintro rfl
        exact (List.nodup_cons.mp hnd').1 hx
  | cons x xs ih =>
    -- `a` is not next to `b`
    have hne : a ≠ l.prev b := fun he => (List.nodup_cons.mp hnd).1 (he ▸ h1.2.prev_mem)
    rw [List.mem_cons, not_or] at hxb
    refine ⟨⟨?_, ?_⟩, ih h1.2 (List.nodup_cons.mp hnd).2 ?_ ?_ hxb.2⟩
    · rw [hn' a (by simp) hne]
      exact h1.1.1
    · rw [hp' x (by simp) (Ne.symm hxb.1)]
      exact h1.1.2
    · exact fun y hy => hn' y (List.mem_cons_of_mem _ hy)
    · exact fun y hy => hp' y (List.mem_cons_of_mem _ hy)

/-- Taking a node out. -/
theorem unlink (hs : Seg l h (xs ++ b :: ys) h) (hnd : (h :: (xs ++ b :: ys)).Nodup) :
    Seg (l.unlink b) h (xs ++ ys) h := by
  obtain ⟨h1, h2⟩ := seg_append.mp hs
  have hp := h1.prev_mem
  have hn := h2.next_mem
  simp only [List.nodup_cons, List.mem_append, List.mem_cons, not_or, List.nodup_append] at hnd
  obtain ⟨⟨hhx, hhb, hhy⟩, hx, ⟨hby, hy⟩, hxy⟩ := hnd
  simp only [List.mem_cons, List.mem_append, List.not_mem_nil, or_false] at hp hn
  -- neither neighbour is `b` itself
  have hnb : l.next b ≠ b := by
    rintro he
    rw [he] at hn
    rcases hn with hn | hn
    · exact hby hn
    · exact hhb hn.symm
  have hnext : (l.unlink b).next = Function.update l.next (l.prev b) (l.next b) := by
    simp only [Links.unlink]
    rw [Function.update_of_ne (Ne.symm hnb)]
  have hprev : (l.unlink b).prev = Function.update l.prev (l.next b) (l.prev b) := rfl
  refine glue h1 h2 (by simp [hx, hhx]) ?_ (by rw [hnext, Function.update_self]) (by rw [hprev, Function.update_self])
    (fun x _ hne => by rw [hnext, Function.update_of_ne hne]) (fun x _ hne => by rw [hprev, Function.update_of_ne hne]) ?_ ?_
  · rw [List.nodup_append]
    exact ⟨hy, by simp, fun a ha c hc => by rw [List.mem_singleton] at hc; rintro rfl; exact hhy (hc ▸ ha)⟩
  · rcases hp with hp | hp
    · exact hp ▸ hhy
    · exact fun hmem => hxy _ hp _ (.inr hmem) rfl
  · rcases hn with hn | hn
    · exact fun hmem => hxy _ hmem _ (.inr hn) rfl
    · exact hn ▸ hhx

/-- Putting a node in at the front. -/
theorem insertAfter (hs : Seg l h xs h) (hnd : (b :: h :: xs).Nodup) : Seg (l.insertAfter h b) h (b :: xs) h := by
  simp only [List.nodup_cons, List.mem_cons, not_or] at hnd
  obtain ⟨⟨hbh, hbx⟩, hhx, hx⟩ := hnd
  have hne : l.next h ≠ b := fun he => by
    have := hs.next_mem
    simp only [he, List.mem_append, List.mem_singleton] at this
    exact this.elim hbx hbh
  have hnext : (l.insertAfter h b).next = Function.update (Function.update l.next b (l.next h)) h b := rfl
  have hprev : (l.insertAfter h b).prev = Function.update (Function.update l.prev b h) (l.next h) b := by
    simp only [Links.insertAfter]
    rw [Function.update_of_ne (Ne.symm hbh)]
  refine ⟨⟨by rw [hnext, Function.update_self], ?_⟩, ?_⟩
  · rw [hprev, Function.update_of_ne (Ne.symm hne), Function.update_self]
  cases xs with
  | nil =>
    have hh : l.next h = h := hs.1
    constructor
    · rw [hnext, Function.update_of_ne hbh, Function.update_self, hh]
    · rw [hprev, hh, Function.update_self]
  | cons x xs =>
    have hh : l.next h = x := hs.1.1
    rw [hh] at hnext hprev
    simp only [List.mem_cons, not_or] at hbx hhx
    refine ⟨⟨?_, ?_⟩, hs.2.congr (fun y hy => ?_) fun y hy => ?_⟩
    · rw [hnext, Function.update_of_ne hbh, Function.update_self]
    · rw [hprev, Function.update_self]
    · rw [hnext, Function.update_of_ne, Function.update_of_ne] <;> rintro rfl
      · exact (List.mem_cons.mp hy).elim hbx.1 hbx.2
      · exact (List.mem_cons.mp hy).elim hhx.1 hhx.2
    · simp only [List.mem_append, List.mem_singleton] at hy
      rw [hprev, Function.update_of_ne, Function.update_of_ne] <;> rintro rfl
      · exact hy.elim hbx.2 hbh
      · exact hy.elim (List.nodup_cons.mp hx).1 (Ne.symm hhx.1)

/-- A search along `next` is the search of the list. -/
theorem walk_next {P : N → Bool} {n : Nat} (hs : Seg l a xs h) (hh : h ∉ xs) (hn : xs.length < n) :
    walk l.next h P n (l.next a) = some (xs.find? P) := by
  induction xs generalizing a n with
  | nil =>
    obtain ⟨n, rfl⟩ : ∃ m, n = m + 1 := ⟨n - 1, by simp at hn; omega⟩
    rw [hs.1, walk, if_pos rfl]
    rfl
  | cons x xs ih =>
    obtain ⟨n, rfl⟩ : ∃ m, n = m + 1 := ⟨n - 1, by simp at hn; omega⟩
    rw [List.mem_cons, not_or] at hh
    rw [hs.1.1, walk, if_neg (Ne.symm hh.1), List.find?_cons]
    cases hx : P x with
    | true => rfl
    | false => exact ih hs.2 hh.2 (by simpa using hn)

/-- A search along `prev` is the search of the list from its end. -/
theorem walk_prev {P : N → Bool} {n : Nat} (hs : Seg l h xs b) (hh : h ∉ xs) (hn : xs.length < n) :
    walk l.prev h P n (l.prev b) = some (xs.reverse.find? P) := by
  induction xs using List.reverseRecOn generalizing b n with
  | nil =>
    obtain ⟨n, rfl⟩ : ∃ m, n = m + 1 := ⟨n - 1, by simp at hn; omega⟩
    rw [hs.2, walk, if_pos rfl]
    rfl
  | append_singleton xs x ih =>
    obtain ⟨n, rfl⟩ : ∃ m, n = m + 1 := ⟨n - 1, by simp at hn; omega⟩
    obtain ⟨h1, -, h2⟩ := seg_append.mp hs
    rw [List.mem_append, not_or, List.mem_singleton] at hh
    rw [h2, walk, if_neg (Ne.symm hh.2), List.reverse_append, List.reverse_singleton, List.singleton_append,
      List.find?_cons]
    cases hx : P x with
    | true => rfl
    | false => exact ih h1 hh.1 (by simpa using hn)

end Seg

end Links

end Xv6.Lib
