/-
A ring of `N` cells between two 32-bit counters that wrap. Counter `c` stands at cell
`c % N`; the counters are never reduced, so full and empty differ. `Holds buf r e xs`
says that the cells from `r` up to `e` carry exactly the list `xs`; `push`, `pop` and
`unpush` say what moving one of the counters by one does to that list.
Everything rests on `N` dividing 2^32: only then do cells not jump when a counter wraps.
-/
import Mathlib

namespace Xv6.Lib.Ring

variable {α : Type} {N : Nat} [NeZero N]

/-- The cell a counter stands at. -/
def cell (N : Nat) [NeZero N] (c : UInt32) : Fin N := Fin.ofNat N c.toNat

/-- The `n` cells from counter `r` on. -/
def window (buf : Fin N → α) (r : UInt32) : Nat → List α
  | 0 => []
  | n + 1 => buf (cell N r) :: window buf (r + 1) n

/-- The ring carries exactly `xs` between `r` and `e`. -/
structure Holds (buf : Fin N → α) (r e : UInt32) (xs : List α) : Prop where
  span : e = r + UInt32.ofNat xs.length
  fits : xs.length ≤ N
  cells : window buf r xs.length = xs

theorem add_ofNat_succ (r : UInt32) (n : Nat) : r + UInt32.ofNat (n + 1) = r + 1 + UInt32.ofNat n := by
  rw [UInt32.ofNat_add, UInt32.add_assoc, UInt32.add_comm (UInt32.ofNat n)]
  rfl

theorem window_add (buf : Fin N → α) (r : UInt32) (m n : Nat) :
    window buf r (m + n) = window buf r m ++ window buf (r + UInt32.ofNat m) n := by
  induction m generalizing r with
  | zero => simp [window]
  | succ m ih => rw [Nat.succ_add, window, ih, window, add_ofNat_succ, List.cons_append]

theorem window_snoc (buf : Fin N → α) (r : UInt32) (n : Nat) :
    window buf r (n + 1) = window buf r n ++ [buf (cell N (r + UInt32.ofNat n))] := window_add buf r n 1

@[simp] theorem length_window (buf : Fin N → α) (r : UInt32) (n : Nat) : (window buf r n).length = n := by
  induction n generalizing r with
  | zero => rfl
  | succ n ih => rw [window, List.length_cons, ih]

/-- Cells less than a round apart are different. -/
theorem cell_add_ne (hN : N ∣ 2 ^ 32) {r : UInt32} {n : Nat} (h0 : 0 < n) (hn : n < N) :
    cell N (r + UInt32.ofNat n) ≠ cell N r := by
  intro he
  have hlt : n < 2 ^ 32 := hn.trans_le (Nat.le_of_dvd (by decide) hN)
  have hmod : (r.toNat + n) % N = r.toNat % N := by
    have := congrArg Fin.val he
    simp only [cell, Fin.val_ofNat, UInt32.toNat_add, UInt32.toNat_ofNat', Nat.mod_eq_of_lt hlt,
      Nat.mod_mod_of_dvd _ hN] at this
    exact this
  have hd : N ∣ n := (Nat.modEq_zero_iff_dvd.mp (Nat.ModEq.add_left_cancel' r.toNat hmod))
  exact absurd (Nat.le_of_dvd h0 hd) (by omega)

theorem window_update (hN : N ∣ 2 ^ 32) {buf : Fin N → α} {r : UInt32} {n m : Nat} {x : α} (hn : n ≤ m) (hm : m < N) :
    window (Function.update buf (cell N (r + UInt32.ofNat m)) x) r n = window buf r n := by
  induction n generalizing r m with
  | zero => rfl
  | succ n ih =>
    obtain ⟨m, rfl⟩ : ∃ k, m = k + 1 := ⟨m - 1, by omega⟩
    rw [window, window, Function.update_of_ne (cell_add_ne hN (by omega) hm).symm, add_ofNat_succ,
      ih (by omega) (by omega)]

namespace Holds

variable {buf : Fin N → α} {r e : UInt32} {xs : List α} {x : α}

theorem empty (buf : Fin N → α) (r : UInt32) : Holds buf r r [] := ⟨by simp, by simp, rfl⟩

/-- How far the counters are apart. -/
theorem sub_eq (h : Holds buf r e xs) (hlt : N < 2 ^ 32) : (e - r).toNat = xs.length := by
  have := h.fits
  have hs : e - r = UInt32.ofNat xs.length := by rw [h.span, UInt32.add_comm, UInt32.add_sub_cancel]
  rw [hs, UInt32.toNat_ofNat', Nat.mod_eq_of_lt (by omega)]

theorem eq_iff (h : Holds buf r e xs) (hlt : N < 2 ^ 32) : r = e ↔ xs = [] := by
  rw [← List.length_eq_zero_iff, ← h.sub_eq hlt]
  constructor
  · rintro rfl
    simp
  · intro h0
    have : e - r = 0 := UInt32.toNat_inj.mp (by simpa using h0)
    rw [← UInt32.sub_add_cancel e r, this, UInt32.zero_add]

theorem push (hN : N ∣ 2 ^ 32) (h : Holds buf r e xs) (hlt : xs.length < N) :
    Holds (Function.update buf (cell N e) x) r (e + 1) (xs ++ [x]) where
  span := by
    rw [h.span, List.length_append, List.length_singleton, UInt32.ofNat_add, UInt32.add_assoc]
    rfl
  fits := by simp; omega
  cells := by
    rw [List.length_append, List.length_singleton, window_snoc, h.span, window_update hN le_rfl hlt, h.cells,
      Function.update_self]

theorem pop (h : Holds buf r e (x :: xs)) : buf (cell N r) = x ∧ Holds buf (r + 1) e xs := by
  have hc := h.cells
  rw [List.length_cons, window, List.cons.injEq] at hc
  refine ⟨hc.1, ?_, ?_, hc.2⟩
  · rw [h.span, List.length_cons, add_ofNat_succ]
  · have := h.fits
    simp only [List.length_cons] at this
    omega

theorem unpush (h : Holds buf r e (xs ++ [x])) : buf (cell N (e - 1)) = x ∧ Holds buf r (e - 1) xs := by
  have hl : (xs ++ [x]).length = xs.length + 1 := by simp
  have he : e - 1 = r + UInt32.ofNat xs.length := by
    rw [h.span, hl, UInt32.ofNat_add, ← UInt32.add_assoc]
    exact UInt32.add_sub_cancel _ _
  have hc := h.cells
  rw [hl, window_snoc] at hc
  have := List.append_inj' hc rfl
  have hf := h.fits
  rw [hl] at hf
  exact ⟨by rw [he]; simpa using this.2, he, by omega, this.1⟩

end Holds

end Xv6.Lib.Ring
