/-
A growing log that one party feeds to another through a ring of `N` cells. The writer
puts entry `k` into cell `k % N` and counts the entries it has put; the reader counts the
entries it has taken. Both counters are kept in 16 bits and wrap. As long as the reader is
at most `N` entries behind, the ring shows the part of the log it has not taken
(`Shows`), and the wrapped counters are equal exactly when it has taken everything
(`ofNat_eq_iff`). A cell does not jump when a counter wraps, for `N` divides 2^16.
-/
import Mathlib

namespace Xv6.Lib.Feed

variable {α : Type} {N : Nat}

/-- Every entry of the log from `pos` on is in its cell. -/
def Shows (N : Nat) (ring : Nat → α) (log : List α) (pos : Nat) : Prop :=
  ∀ k x, pos ≤ k → log[k]? = some x → ring (k % N) = x

theorem toNat_ofNat_mod (hN : N ∣ 2 ^ 16) (k : Nat) : (UInt16.ofNat k).toNat % N = k % N := by
  rw [UInt16.toNat_ofNat', Nat.mod_mod_of_dvd _ hN]

theorem ofNat_succ (k : Nat) : UInt16.ofNat (k + 1) = UInt16.ofNat k + 1 := by
  rw [UInt16.ofNat_add]
  rfl

/-- Wrapped counters that are less than a whole turn apart are equal exactly when the counts are. -/
theorem ofNat_eq_iff {a b : Nat} (hle : a ≤ b) (hlt : b < a + 2 ^ 16) : UInt16.ofNat a = UInt16.ofNat b ↔ a = b := by
  constructor
  · intro h
    have h := congrArg UInt16.toNat h
    simp only [UInt16.toNat_ofNat'] at h
    omega
  · rintro rfl
    rfl

namespace Shows

variable {ring : Nat → α} {log : List α} {pos : Nat}

theorem nil (ring : Nat → α) (pos : Nat) : Shows N ring [] pos := by
  intro k x _ h
  simp at h

theorem mono (h : Shows N ring log pos) {pos' : Nat} (hle : pos ≤ pos') : Shows N ring log pos' :=
  fun k x hk => h k x (hle.trans hk)

/-- The next entry put into its cell leaves those not taken yet in theirs, if fewer than `N` are. -/
theorem update (h : Shows N ring log pos) (x : α) (hlt : log.length < pos + N) :
    Shows N (Function.update ring (log.length % N) x) log pos := by
  intro k y hk hy
  have hkl : k < log.length := (List.getElem?_eq_some_iff.mp hy).1
  have hne : k % N ≠ log.length % N := by
    intro he
    have hd : N ∣ log.length - k := (Nat.modEq_iff_dvd' hkl.le).mp he
    exact absurd (Nat.le_of_dvd (by omega) hd) (by omega)
  rw [Function.update_of_ne hne]
  exact h k y hk hy

/-- Counting the entry that is in its cell already. -/
theorem push (h : Shows N ring log pos) {x : α} (hx : ring (log.length % N) = x) : Shows N ring (log ++ [x]) pos := by
  intro k y hk hy
  rcases Nat.lt_trichotomy k log.length with hlt | rfl | hgt
  · exact h k y hk (by rwa [List.getElem?_append_left hlt] at hy)
  · simp only [List.getElem?_concat_length, Option.some.injEq] at hy
    exact hx.trans hy
  · rw [List.getElem?_eq_none (by simp; omega)] at hy
    cases hy

end Shows

end Xv6.Lib.Feed
