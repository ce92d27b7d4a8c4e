/-
Ranges of addresses, and lists of them as tilings. How many ranges of a list cover an
address is additive, so cutting a range in two, joining two that meet and reordering keep
it; a list that covers no address twice is pairwise disjoint.
-/
import Mathlib

namespace Xv6.Lib

/-- The addresses from `addr` on, `len` of them. -/
structure Extent where
  addr : Nat
  len : Nat
deriving DecidableEq, Repr

namespace Extent

variable {b c : Extent} {l l' : List Extent} {x : Nat}

def stop (b : Extent) : Nat := b.addr + b.len

def Has (b : Extent) (x : Nat) : Prop := b.addr ≤ x ∧ x < b.stop

instance (b : Extent) (x : Nat) : Decidable (b.Has x) := inferInstanceAs (Decidable (_ ∧ _))

def Disjoint (b c : Extent) : Prop := b.stop ≤ c.addr ∨ c.stop ≤ b.addr

instance : Std.Symm Disjoint := ⟨fun _ _ => Or.symm⟩

/-- How many extents of a list have the address. -/
def cover (l : List Extent) (x : Nat) : Nat := l.countP fun b => b.Has x

/-- How many addresses the extents of a list have. -/
def total (l : List Extent) : Nat := (l.map len).sum

@[simp] theorem cover_nil : cover [] x = 0 := rfl

theorem cover_cons : cover (b :: l) x = (if b.Has x then 1 else 0) + cover l x := by
  rw [cover, List.countP_cons, Nat.add_comm, cover]
  simp

theorem cover_perm (h : l.Perm l') : cover l x = cover l' x := h.countP_eq _

theorem cover_pos : 0 < cover l x ↔ ∃ b ∈ l, b.Has x := by simp [cover, List.countP_pos_iff]

@[simp] theorem total_nil : total [] = 0 := rfl

@[simp] theorem total_cons : total (b :: l) = b.len + total l := by simp [total]

theorem total_perm (h : l.Perm l') : total l = total l' := (h.map len).sum_eq

theorem len_le_total (h : b ∈ l) : b.len ≤ total l := List.single_le_sum (by simp) _ (List.mem_map_of_mem h)

/-- Two extents that meet are one. -/
theorem cover_join {a n m : Nat} : cover [⟨a, n⟩, ⟨a + n, m⟩] x = cover [⟨a, n + m⟩] x := by
  simp only [cover_cons, cover_nil]
  split_ifs <;> simp only [Has, stop] at * <;> omega

/-- What a list covers at most once is covered by one extent only. -/
theorem disjoint_of_cover (hb : 0 < b.len) (hc : 0 < c.len) (h : ∀ x, cover [b, c] x ≤ 1) : b.Disjoint c := by
  have h₁ := h b.addr
  have h₂ := h c.addr
  simp only [cover_cons, cover_nil] at h₁ h₂
  split_ifs at h₁ h₂ <;> simp only [Has, Disjoint, stop] at * <;> omega

theorem pairwise_disjoint (hl : ∀ b ∈ l, 0 < b.len) (h : ∀ x, cover l x ≤ 1) : l.Pairwise Disjoint := by
  induction l with
  | nil => exact List.Pairwise.nil
  | cons b l ih =>
    refine List.pairwise_cons.mpr ⟨fun c hc => ?_, ih (fun c hc => hl c (by simp [hc])) fun x => ?_⟩
    · refine disjoint_of_cover (hl b (by simp)) (hl c (by simp [hc])) fun x => le_trans ?_ (h x)
      rw [cover_cons, cover_cons, cover_cons, cover_nil, Nat.add_zero]
      refine Nat.add_le_add_left ?_ _
      split
      · next hx => exact cover_pos.mpr ⟨c, hc, hx⟩
      · exact Nat.zero_le _
    · have := h x
      rw [cover_cons] at this
      omega

end Extent

end Xv6.Lib
