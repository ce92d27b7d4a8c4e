/-
memmove, in the kernel (string.c) and in the user library (ulib.c). Each copies upwards
or downwards, byte by byte, and picks the direction by a test of its own. Copying upwards
is a simultaneous copy unless dst lies inside the source above its start, and downwards
unless src lies so inside the destination (`copyUp_eq`, `copyDown_eq`); pointers are 64
bits and wrap, so "above" is the distance mod 2^64, which the loops leave alone. Both
tests avoid the bad case when neither range wraps.
-/
import Mathlib

namespace Xv6.Memmove

/-- Memory, by byte address. -/
abbrev Mem := UInt64 → UInt8

/-- while(n-- > 0) *d++ = *s++; -/
def copyUp : Nat → UInt64 → UInt64 → Mem → Mem
  | 0, _, _, m => m
  | n + 1, d, s, m => copyUp n (d + 1) (s + 1) (Function.update m d (m s))

/-- while(n-- > 0) *--d = *--s; -/
def copyDown : Nat → UInt64 → UInt64 → Mem → Mem
  | 0, _, _, m => m
  | n + 1, d, s, m => copyDown n (d - 1) (s - 1) (Function.update m (d - 1) (m (s - 1)))

/-- The kernel's memmove: what it returns, and the memory after it. -/
def Kernel.memmove (dst src : UInt64) (n : UInt32) (m : Mem) : UInt64 × Mem :=
  if n = 0 then (dst, m)
  else if src < dst ∧ src + n.toUInt64 > dst then
    (dst, copyDown n.toNat (dst + n.toUInt64) (src + n.toUInt64) m)
  else (dst, copyUp n.toNat dst src m)

/-- The user library's memmove. -/
def User.memmove (vdst vsrc : UInt64) (n : Int32) (m : Mem) : UInt64 × Mem :=
  if vsrc > vdst then (vdst, copyUp n.toNatClampNeg vdst vsrc m)
  else (vdst, copyDown n.toNatClampNeg (vdst + n.toInt64.toUInt64) (vsrc + n.toInt64.toUInt64) m)

/-! ## The two directions -/

/-- `n` bytes of `m` copied at once from `s` to `d`. -/
def moved (n : Nat) (d s : UInt64) (m : Mem) : Mem := fun a => if (a - d).toNat < n then m (s + (a - d)) else m a

theorem toNat_sub_add_one {a d : UInt64} (h : a ≠ d) : (a - (d + 1)).toNat + 1 = (a - d).toNat := by
  have hne : a.toNat ≠ d.toNat := fun he => h (UInt64.toNat_inj.mp he)
  have := a.toNat_lt
  have := d.toNat_lt
  simp only [UInt64.toNat_sub, UInt64.toNat_add, UInt64.toNat_one]
  omega

/-- Upwards, no byte is read after it was overwritten if `d` is not above `s` by less than `n`. -/
theorem copyUp_eq {n : Nat} {d s : UInt64} {m : Mem} (hn : n ≤ 2 ^ 64) (h : d = s ∨ n ≤ (d - s).toNat) :
    copyUp n d s m = moved n d s m := by
  induction n generalizing d s m with
  | zero => rfl
  | succ n ih =>
    have := d.toNat_lt
    have := s.toNat_lt
    have hdist : d + 1 - (s + 1) = d - s := by
      apply UInt64.toNat_inj.mp
      simp only [UInt64.toNat_sub, UInt64.toNat_add, UInt64.toNat_one]
      omega
    rw [copyUp, ih (by omega) (h.imp (congrArg (· + 1)) fun h => by rw [hdist]; omega)]
    funext a
    by_cases ha : a = d
    · -- the byte just written, which the rest of the loop does not reach
      subst ha
      have hfar : (a - (a + 1)).toNat = 2 ^ 64 - 1 := by
        have := a.toNat_lt
        simp only [UInt64.toNat_sub, UInt64.toNat_add, UInt64.toNat_one]
        omega
      simp only [moved, hfar, UInt64.sub_self, UInt64.toNat_zero, UInt64.add_zero, Function.update_self]
      rw [if_neg (by omega), if_pos (by omega)]
    · have := a.toNat_lt
      have hone := toNat_sub_add_one ha
      have hsrc : s + 1 + (a - (d + 1)) = s + (a - d) := by
        apply UInt64.toNat_inj.mp
        simp only [UInt64.toNat_sub, UInt64.toNat_add, UInt64.toNat_one]
        omega
      simp only [moved, hsrc, Function.update_of_ne ha]
      by_cases hlt : (a - d).toNat < n + 1
      · rw [if_pos (by omega), if_pos hlt, Function.update_of_ne]
        rintro he
        have he := congrArg UInt64.toNat he
        simp only [UInt64.toNat_sub, UInt64.toNat_add] at he hlt hone h
        rcases h with rfl | h
        · omega
        · omega
      · rw [if_neg (by omega), if_neg hlt]

/-- Downwards, if `s` is not above `d` by less than `n`. -/
theorem copyDown_eq {n : Nat} {d s : UInt64} {m : Mem} (hn : n ≤ 2 ^ 64) (h : s = d ∨ n ≤ (s - d).toNat) :
    copyDown n (d + UInt64.ofNat n) (s + UInt64.ofNat n) m = moved n d s m := by
  induction n generalizing m with
  | zero => rfl
  | succ n ih =>
    have hpred : ∀ p : UInt64, p + UInt64.ofNat (n + 1) - 1 = p + UInt64.ofNat n := by
      intro p
      rw [UInt64.ofNat_add, ← UInt64.add_assoc]
      exact UInt64.add_sub_cancel _ _
    rw [copyDown, hpred, hpred, ih (by omega) (h.imp_right (by omega))]
    funext a
    have hlast : (a - d).toNat = n ↔ a = d + UInt64.ofNat n := by
      constructor
      · intro he
        rw [← he, UInt64.ofNat_toNat, UInt64.add_comm, UInt64.sub_add_cancel]
      · rintro rfl
        rw [UInt64.add_comm, UInt64.add_sub_cancel, UInt64.toNat_ofNat', Nat.mod_eq_of_lt (by omega)]
    by_cases ha : a = d + UInt64.ofNat n
    · have hto := hlast.mpr ha
      simp only [moved, hto, Nat.lt_irrefl, if_false, Nat.lt_succ_self, if_true]
      rw [ha, Function.update_self, UInt64.add_comm d, UInt64.add_sub_cancel]
    · have hto : (a - d).toNat ≠ n := fun he => ha (hlast.mp he)
      simp only [moved, Function.update_of_ne ha]
      by_cases hlt : (a - d).toNat < n
      · rw [if_pos hlt, if_pos (by omega), Function.update_of_ne]
        intro he
        have he := congrArg UInt64.toNat he
        simp only [UInt64.toNat_sub, UInt64.toNat_add, UInt64.toNat_ofNat'] at he hlt h
        have := a.toNat_lt
        have := d.toNat_lt
        have := s.toNat_lt
        rcases h with rfl | h
        · omega
        · omega
      · rw [if_neg hlt, if_neg (by omega)]

/-! ## memmove -/

/-- The `n` bytes at `dst` are those that were at `src`, and no other byte is changed. -/
structure Moved (m m' : Mem) (dst src : UInt64) (n : Nat) : Prop where
  copied : ∀ i < n, m' (dst + UInt64.ofNat i) = m (src + UInt64.ofNat i)
  frame : ∀ a : UInt64, ¬(dst.toNat ≤ a.toNat ∧ a.toNat < dst.toNat + n) → m' a = m a

theorem Moved.of_moved {m : Mem} {dst src : UInt64} {n : Nat} (hd : dst.toNat + n ≤ 2 ^ 64) :
    Moved m (moved n dst src m) dst src n where
  copied i hi := by
    have hto : dst + UInt64.ofNat i - dst = UInt64.ofNat i := by rw [UInt64.add_comm, UInt64.add_sub_cancel]
    rw [moved, hto, UInt64.toNat_ofNat', Nat.mod_eq_of_lt (by omega), if_pos hi]
  frame a ha := by
    have := a.toNat_lt
    rw [moved, if_neg]
    rw [UInt64.toNat_sub]
    omega

theorem Kernel.memmove_eq {dst src : UInt64} {n : UInt32} {m : Mem} (hs : src.toNat + n.toNat ≤ 2 ^ 64)
    (hd : dst.toNat + n.toNat ≤ 2 ^ 64) : Kernel.memmove dst src n m = (dst, moved n.toNat dst src m) := by
  have hn := n.toNat_lt
  have hcast : n.toUInt64 = UInt64.ofNat n.toNat := by simp
  rw [Kernel.memmove]
  split
  · next h0 =>
    subst h0
    rfl
  · split
    · next h =>
      have hlt := UInt64.lt_iff_toNat_lt.mp h.1
      rw [hcast, copyDown_eq (by omega)]
      right
      rw [UInt64.toNat_sub]
      omega
    · next h =>
      rw [copyUp_eq (by omega)]
      by_cases he : dst = src
      · exact .inl he
      · right
        have hne : dst.toNat ≠ src.toNat := fun h => he (UInt64.toNat_inj.mp h)
        simp only [gt_iff_lt, UInt64.lt_iff_toNat_lt, UInt64.toNat_add, UInt32.toNat_toUInt64] at h
        rw [UInt64.toNat_sub]
        omega

theorem toNat_toInt_of_nonneg {w : Nat} {b : BitVec w} (h : 0 ≤ b.toInt) : b.toInt.toNat = b.toNat := by
  have hcond := BitVec.toInt_eq_toNat_cond b
  have := b.isLt
  split at hcond
  · omega
  · omega

/-- `p + n` for a pointer and an int that is not negative. -/
theorem toUInt64_of_nonneg {n : Int32} (hn : 0 ≤ n) : n.toInt64.toUInt64 = UInt64.ofNat n.toNatClampNeg := by
  have hint : 0 ≤ n.toInt := Int32.le_iff_toInt_le.mp hn
  have hext : n.toInt64.toBitVec.toInt = n.toInt := n.toInt_toInt64
  have hto : n.toNatClampNeg = n.toInt64.toUInt64.toNat := by
    rw [Int32.toNatClampNeg, ← hext]
    exact toNat_toInt_of_nonneg (hext ▸ hint)
  rw [hto, UInt64.ofNat_toNat]

theorem User.memmove_eq {dst src : UInt64} {n : Int32} {m : Mem} (hn : 0 ≤ n)
    (hs : src.toNat + n.toNatClampNeg ≤ 2 ^ 64) (hd : dst.toNat + n.toNatClampNeg ≤ 2 ^ 64) :
    User.memmove dst src n m = (dst, moved n.toNatClampNeg dst src m) := by
  rw [User.memmove]
  split
  · next h =>
    have hlt := UInt64.lt_iff_toNat_lt.mp h
    rw [copyUp_eq (by omega)]
    right
    rw [UInt64.toNat_sub]
    omega
  · next h =>
    have hle := UInt64.le_iff_toNat_le.mp (UInt64.not_lt.mp h)
    rw [toUInt64_of_nonneg hn, copyDown_eq (by omega)]
    by_cases he : src = dst
    · exact .inl he
    · right
      have hne : src.toNat ≠ dst.toNat := fun h => he (UInt64.toNat_inj.mp h)
      rw [UInt64.toNat_sub]
      omega

/-- **memmove.** For ranges that do not wrap, disjoint or overlapping in any way, the kernel's and the user library's
memmove both leave in dst what was in src and every other byte alone; so they are the same function where both have an
answer. -/
theorem memmove_simultaneous (m : Mem) (dst src : UInt64) :
    (∀ n : UInt32, src.toNat + n.toNat ≤ 2 ^ 64 → dst.toNat + n.toNat ≤ 2 ^ 64 →
      (Kernel.memmove dst src n m).1 = dst ∧ Moved m (Kernel.memmove dst src n m).2 dst src n.toNat) ∧
    (∀ n : Int32, 0 ≤ n → src.toNat + n.toNatClampNeg ≤ 2 ^ 64 → dst.toNat + n.toNatClampNeg ≤ 2 ^ 64 →
      (User.memmove dst src n m).1 = dst ∧ Moved m (User.memmove dst src n m).2 dst src n.toNatClampNeg ∧
      Kernel.memmove dst src n.toUInt32 m = User.memmove dst src n m) := by
  refine ⟨fun n hs hd => ?_, fun n hn hs hd => ?_⟩
  · rw [Kernel.memmove_eq hs hd]
    exact ⟨rfl, .of_moved hd⟩
  · have hsame : n.toUInt32.toNat = n.toNatClampNeg := (toNat_toInt_of_nonneg (Int32.le_iff_toInt_le.mp hn)).symm
    rw [User.memmove_eq hn hs hd, Kernel.memmove_eq (by omega) (by omega), hsame]
    exact ⟨rfl, .of_moved hd, rfl⟩

/-- Three bytes moved up by one, over themselves. -/
theorem memmove_simultaneous_overlap :
    (Kernel.memmove 101 100 3 fun a => a.toUInt8).2 103 = 102 ∧
    (User.memmove 101 100 3 fun a => a.toUInt8).2 103 = 102 ∧
    Kernel.memmove 101 100 3 (fun a => a.toUInt8) = User.memmove 101 100 3 fun a => a.toUInt8 := by
  obtain ⟨hk, hu⟩ := memmove_simultaneous (fun a => a.toUInt8) 101 100
  have hk := hk 3 (by decide) (by decide)
  have hu := hu 3 (by decide) (by decide) (by decide)
  exact ⟨hk.2.copied 2 (by decide), hu.2.1.copied 2 (by decide), hu.2.2⟩

end Xv6.Memmove
