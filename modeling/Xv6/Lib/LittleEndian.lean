/-
Little-endian integers in a byte-addressed store. A store is a function from
addresses to bytes; `get f a n` reads the `n`-byte integer at `a`, `put f a n v`
stores one. What a reader may rely on: an integer is read back as it was stored
(`get_put`), a store leaves every byte outside its range alone (`put_apply`), and
so every integer whose range is disjoint from it (`get_put_disjoint`).
-/
import Mathlib

namespace Xv6.Lib.LittleEndian

/-- The `n`-byte integer at address `a`. -/
def get (f : Nat → UInt8) (a : Nat) : Nat → Nat
  | 0 => 0
  | n + 1 => (f a).toNat + 256 * get f (a + 1) n

/-- Store the low `n` bytes of `v` at address `a`. -/
def put (f : Nat → UInt8) (a : Nat) : Nat → Nat → Nat → UInt8
  | 0, _ => f
  | n + 1, v => put (Function.update f a (UInt8.ofNat v)) (a + 1) n (v / 256)

theorem put_apply_of_lt {f a n v x} (h : x < a) : put f a n v x = f x := by
  induction n generalizing f a v with
  | zero => rfl
  | succ n ih =>
    simp only [put]
    rw [ih (by omega), Function.update_of_ne (by omega)]

theorem put_apply_of_le {f a n v x} (h : a + n ≤ x) : put f a n v x = f x := by
  induction n generalizing f a v with
  | zero => rfl
  | succ n ih =>
    simp only [put]
    rw [ih (by omega), Function.update_of_ne (by omega)]

/-- A store changes nothing outside its range. -/
theorem put_apply {f a n v x} (h : x < a ∨ a + n ≤ x) : put f a n v x = f x := by
  rcases h with h | h
  · exact put_apply_of_lt h
  · exact put_apply_of_le h

theorem get_congr {f g : Nat → UInt8} {a n} (h : ∀ x, a ≤ x → x < a + n → f x = g x) :
    get f a n = get g a n := by
  induction n generalizing a with
  | zero => rfl
  | succ n ih =>
    simp only [get]
    rw [h a (by omega) (by omega), ih fun x h1 h2 => h x (by omega) (by omega)]

/-- An integer is read back as it was stored, cut to its width. -/
theorem get_put (f : Nat → UInt8) (a n v : Nat) : get (put f a n v) a n = v % 256 ^ n := by
  induction n generalizing f a v with
  | zero => simp [get, Nat.mod_one]
  | succ n ih =>
    have byte : (UInt8.ofNat v).toNat = v % 256 := by simp
    simp only [get, put]
    rw [put_apply_of_lt (by omega), Function.update_self, ih, byte, pow_succ, Nat.mul_comm (256 ^ n), Nat.mod_mul]

theorem get_put_disjoint {f a n v b m} (h : b + m ≤ a ∨ a + n ≤ b) :
    get (put f a n v) b m = get f b m :=
  get_congr fun x h1 h2 => put_apply (by omega)

theorem get_zero (a n : Nat) : get (fun _ => 0) a n = 0 := by
  induction n generalizing a with
  | zero => rfl
  | succ n ih => simp [get, ih]

/-- Storing the integer that is there changes nothing. -/
theorem put_get (f : Nat → UInt8) (a n : Nat) : put f a n (get f a n) = f := by
  induction n generalizing a with
  | zero => rfl
  | succ n ih =>
    have low : UInt8.ofNat ((f a).toNat + 256 * get f (a + 1) n) = f a := by
      apply UInt8.toNat_inj.mp
      simp
    have high : ((f a).toNat + 256 * get f (a + 1) n) / 256 = get f (a + 1) n := by
      have := (f a).toNat_lt
      omega
    simp only [get, put]
    rw [low, high, Function.update_eq_self, ih]

theorem get_lt (f : Nat → UInt8) (a n : Nat) : get f a n < 256 ^ n := by
  induction n generalizing a with
  | zero => simp [get]
  | succ n ih =>
    simp only [get]
    have h1 := ih (a + 1)
    have h2 := (f a).toNat_lt
    calc (f a).toNat + 256 * get f (a + 1) n < 256 + 256 * get f (a + 1) n := by omega
      _ = 256 * (get f (a + 1) n + 1) := by ring
      _ ≤ 256 * 256 ^ n := Nat.mul_le_mul_left _ h1
      _ = 256 ^ (n + 1) := by ring

end Xv6.Lib.LittleEndian
