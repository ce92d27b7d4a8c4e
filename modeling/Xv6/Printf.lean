/-
The user library's printf (printf.c). Every number goes through printint, whose parameter
is an int, or printptr. printint writes the digits of a 32-bit value backwards into a
buffer of 16 bytes; the digits are those of Mathlib's `Nat.digits`, and what is printed
reads back as the value (`conversion_exact`). The one exception is %l, whose 64-bit
argument is cut to an int on the way: from 2^32 on, the upper half is lost.
-/
import Mathlib

namespace Xv6.Printf

/-- `"0123456789ABCDEF"`, as bytes -/
def digits : List UInt8 := [48, 49, 50, 51, 52, 53, 54, 55, 56, 57, 65, 66, 67, 68, 69, 70]

def digit (n : Nat) : UInt8 := digits.getD n 0

/-- The size of printint's buffer. -/
def BUF : Nat := 16

/-- do buf[i++] = digits[x % base]; while((x /= base) != 0); for a number of turns. No answer is a store behind the end
of the buffer. -/
def digitLoop (base : UInt32) : Nat → (Nat → UInt8) → Nat → UInt32 → Option ((Nat → UInt8) × Nat)
  | 0, _, _, _ => none
  | turns + 1, buf, i, x =>
    if i ≥ BUF then none
    else
      let buf := Function.update buf i (digit (x % base).toNat)
      let x := x / base
      if x ≠ 0 then digitLoop base turns buf (i + 1) x else some (buf, i + 1)

/-- `if(neg) buf[i++] = '-';` -/
def minusSign (neg : Bool) (buf : Nat → UInt8) (i : Nat) : Option ((Nat → UInt8) × Nat) :=
  if neg then if i ≥ BUF then none else some (Function.update buf i 45, i + 1)
  else some (buf, i)

/-- What printint writes to fd. The negation wraps. -/
def printint (xx : Int32) (base : UInt32) (sgn : Bool) : Option (List UInt8) := do
  let neg := sgn && decide (xx < 0)
  let x := if neg then (-xx).toUInt32 else xx.toUInt32
  let (buf, i) ← digitLoop base (BUF + 1) (fun _ => 0) 0 x
  let (buf, i) ← minusSign neg buf i
  return (List.range i).reverse.map buf

/-- for(i = 0; i < sizeof(uint64) * 2; i++, x <<= 4) putc(fd, digits[x >> 60]); -/
def nibbles : Nat → UInt64 → List UInt8
  | 0, _ => []
  | n + 1, x => digit (x >>> 60).toNat :: nibbles n (x <<< 4)

/-- What printptr writes to fd. -/
def printptr (x : UInt64) : List UInt8 := 48 :: 120 :: nibbles 16 x

/-- va_arg(ap, int), of an argument's 64-bit slot -/
def toInt (v : UInt64) : Int32 := v.toUInt32.toInt32

def NULL : List UInt8 := [40, 110, 117, 108, 108, 41]

/-- What vprintf writes to fd, from a point in the format on. `state` is whether a '%' came just before, `ap` the
arguments left and `str` the string at an address. No answer is a store behind the end of printint's buffer, or an
argument that is not there. -/
def vprintf (str : UInt64 → List UInt8) : Bool → List UInt8 → List UInt64 → Option (List UInt8)
  | _, [], _ => some []
  | false, c :: fmt, ap =>
    if c = 37 then vprintf str true fmt ap
    else return c :: (← vprintf str false fmt ap)
  | true, c :: fmt, ap =>
    if c = 100 then do
      let v :: ap := ap | none
      return (← printint (toInt v) 10 true) ++ (← vprintf str false fmt ap)
    else if c = 108 then do
      let v :: ap := ap | none
      return (← printint (toInt v) 10 false) ++ (← vprintf str false fmt ap)
    else if c = 120 then do
      let v :: ap := ap | none
      return (← printint (toInt v) 16 false) ++ (← vprintf str false fmt ap)
    else if c = 112 then do
      let v :: ap := ap | none
      return printptr v ++ (← vprintf str false fmt ap)
    else if c = 115 then do
      let s :: ap := ap | none
      return (if s = 0 then NULL else str s) ++ (← vprintf str false fmt ap)
    else if c = 99 then do
      let v :: ap := ap | none
      return v.toUInt8 :: (← vprintf str false fmt ap)
    else if c = 37 then return c :: (← vprintf str false fmt ap)
    else return 37 :: c :: (← vprintf str false fmt ap)

/-! ## Numerals -/

/-- The value of a digit, in either case. -/
def digitValue (c : UInt8) : Option Nat :=
  if 48 ≤ c ∧ c ≤ 57 then some (c.toNat - 48)
  else if 65 ≤ c ∧ c ≤ 70 then some (c.toNat - 55)
  else if 97 ≤ c ∧ c ≤ 102 then some (c.toNat - 87)
  else none

/-- The value of the numeral whose digits are these, least significant first. -/
def valueLow (base : Nat) : List UInt8 → Option Nat
  | [] => some 0
  | c :: cs => do
    let d ← digitValue c
    if d < base then return d + base * (← valueLow base cs) else none

/-- The value of a numeral in a base. -/
def numeral (base : Nat) (cs : List UInt8) : Option Nat := if cs = [] then none else valueLow base cs.reverse

theorem digitValue_digit {d : Nat} (h : d < 16) : digitValue (digit d) = some d := by
  interval_cases d <;> rfl

theorem valueLow_map_digit {base : Nat} (hb : base ≤ 16) {ds : List Nat} (h : ∀ d ∈ ds, d < base) :
    valueLow base (ds.map digit) = some (Nat.ofDigits base ds) := by
  induction ds with
  | nil => rfl
  | cons d ds ih =>
    have hd := h d List.mem_cons_self
    have ih := ih fun e he => h e (List.mem_cons_of_mem d he)
    simp [valueLow, digitValue_digit (hd.trans_le hb), hd, ih, Nat.ofDigits_cons]

/-! ## printint -/

/-- The digits printint finds: those of the value, and one for zero. -/
def found (base x : Nat) : List Nat := if x = 0 then [0] else Nat.digits base x

theorem found_step {base x : Nat} (hb : 1 < base) (hx : x / base ≠ 0) :
    found base x = x % base :: found base (x / base) := by
  have h0 : x ≠ 0 := by
    rintro rfl
    simp at hx
  rw [found, if_neg h0, found, if_neg hx, Nat.digits_def' hb (by omega)]

theorem found_last {base x : Nat} (hb : 1 < base) (hx : x / base = 0) : found base x = [x % base] := by
  rw [found]
  split
  · next h => simp [h]
  · next h => rw [Nat.digits_def' hb (by omega), hx, Nat.digits_zero]

theorem lt_of_mem_found {base x d : Nat} (hb : 1 < base) (h : d ∈ found base x) : d < base := by
  rw [found] at h
  split at h
  · simp only [List.mem_singleton] at h
    omega
  · exact Nat.digits_lt_base hb h

theorem ofDigits_found (base x : Nat) : Nat.ofDigits base (found base x) = x := by
  rw [found]
  split
  · next h => simp [h]
  · exact Nat.ofDigits_digits base x

theorem length_found_le {base x k : Nat} (hb : 1 < base) (hx : x < base ^ (k + 1)) : (found base x).length ≤ k + 1 := by
  rw [found]
  split
  · simp
  · exact (Nat.digits_length_le_iff hb _).mpr hx

/-- The loop stores the digits, the least significant first, behind what is there. -/
theorem digitLoop_eq {base : UInt32} (hb : 1 < base.toNat) {turns : Nat} {buf : Nat → UInt8} {i : Nat} {x : UInt32}
    (hi : i + (found base.toNat x.toNat).length ≤ BUF) (ht : (found base.toNat x.toNat).length ≤ turns) :
    ∃ buf', digitLoop base turns buf i x = some (buf', i + (found base.toNat x.toNat).length) ∧
      (List.range' i (found base.toNat x.toNat).length).map buf' = (found base.toNat x.toNat).map digit ∧
      ∀ k < i, buf' k = buf k := by
  induction turns generalizing buf i x with
  | zero =>
    exfalso
    have hne : found base.toNat x.toNat ≠ [] := by
      rw [found]
      split
      · simp
      · exact Nat.digits_ne_nil_iff_ne_zero.mpr ‹_›
    exact hne (List.length_eq_zero_iff.mp (by omega))
  | succ turns ih =>
    by_cases hx : x / base = 0
    · have hx0 : x.toNat / base.toNat = 0 := by rw [← UInt32.toNat_div, hx]; rfl
      rw [found_last hb hx0] at hi ⊢
      simp only [List.length_singleton] at hi ⊢
      refine ⟨Function.update buf i (digit (x % base).toNat), ?_, ?_, ?_⟩
      · rw [digitLoop, if_neg (by omega)]
        simp [hx]
      · simp
      · intro k hk
        exact Function.update_of_ne (by omega) _ _
    · have hx0 : x.toNat / base.toNat ≠ 0 := by
        rw [← UInt32.toNat_div]
        exact fun h => hx (UInt32.toNat_inj.mp h)
      rw [found_step hb hx0, ← UInt32.toNat_div] at hi ht ⊢
      simp only [List.length_cons] at hi ht ⊢
      obtain ⟨buf', hloop, hcells, hkeep⟩ :=
        @ih (Function.update buf i (digit (x % base).toNat)) (i + 1) (x / base) (by omega) (by omega)
      refine ⟨buf', ?_, ?_, ?_⟩
      · rw [digitLoop, if_neg (by omega)]
        simp only [hx, ne_eq, not_false_eq_true, if_true, hloop]
        congr 2
        omega
      · rw [List.range'_succ, List.map_cons, hcells, hkeep i (by omega), Function.update_self, List.map_cons,
          UInt32.toNat_mod]
      · intro k hk
        rw [hkeep k (by omega), Function.update_of_ne (by omega)]

/-- **printint.** Every value fits into the buffer; what comes out is the sign and the digits. -/
theorem printint_eq (xx : Int32) {base : UInt32} (hb : 10 ≤ base.toNat) (sgn : Bool) :
    printint xx base sgn = some (if sgn ∧ xx < 0 then 45 :: (found base.toNat (-xx).toUInt32.toNat).reverse.map digit
      else (found base.toNat xx.toUInt32.toNat).reverse.map digit) := by
  have hlen : ∀ x : UInt32, (found base.toNat x.toNat).length ≤ 10 := fun x =>
    length_found_le (by omega) (x.toNat_lt.trans_le (le_trans (by decide) (Nat.pow_le_pow_left hb 10)))
  have hloop : ∀ x : UInt32, ∃ buf,
      digitLoop base (BUF + 1) (fun _ => 0) 0 x = some (buf, (found base.toNat x.toNat).length) ∧
      (List.range (found base.toNat x.toNat).length).map buf = (found base.toNat x.toNat).map digit := by
    intro x
    have hx := hlen x
    obtain ⟨buf, h, hcells, -⟩ :=
      @digitLoop_eq base (by omega) (BUF + 1) (fun _ => 0) 0 x (by simp only [BUF]; omega) (by simp only [BUF]; omega)
    rw [← List.range_eq_range'] at hcells
    exact ⟨buf, by rw [h, Nat.zero_add], hcells⟩
  by_cases hneg : sgn ∧ xx < 0
  · obtain ⟨buf, h, hcells⟩ := hloop (-xx).toUInt32
    have hx := hlen (-xx).toUInt32
    have hroom : ¬(found base.toNat (-xx).toUInt32.toNat).length ≥ BUF := by simp only [BUF]; omega
    simp only [printint, hneg, decide_true, Bool.and_true, if_true, h, minusSign, Option.bind_eq_bind, Option.bind_some,
      if_neg hroom, and_self]
    rw [List.range_succ, List.reverse_append, List.map_append, List.reverse_singleton, List.map_singleton,
      Function.update_self, List.map_reverse, List.map_reverse, ← hcells]
    simp only [List.singleton_append, Option.pure_def, Option.some.injEq, List.cons.injEq, true_and, List.reverse_inj]
    apply List.map_congr_left
    intro k hk
    exact Function.update_of_ne (by simpa using (List.mem_range.mp hk).ne) _ _
  · obtain ⟨buf, h, hcells⟩ := hloop xx.toUInt32
    have hfalse : (sgn && decide (xx < 0)) = false := by
      simpa using hneg
    simp only [printint, hfalse, h, minusSign, Option.bind_eq_bind, Option.bind_some, if_neg hneg, Bool.false_eq_true,
      if_false]
    rw [List.map_reverse, hcells, ← List.map_reverse]
    rfl

theorem numeral_found {base : Nat} (h1 : 1 < base) (hb : base ≤ 16) (x : Nat) :
    numeral base ((found base x).reverse.map digit) = some x := by
  have hne : (found base x).reverse.map digit ≠ [] := by
    rw [found]
    split
    · simp
    · simp [Nat.digits_ne_nil_iff_ne_zero, *]
  rw [numeral, if_neg hne, ← List.map_reverse, List.reverse_reverse,
    valueLow_map_digit hb fun d hd => lt_of_mem_found h1 hd, ofDigits_found]

/-- Only zero starts with a zero. -/
theorem head_found {base : Nat} (h1 : 1 < base) (hb : base ≤ 16) {x : Nat}
    (h : ((found base x).reverse.map digit).head? = some 48) : (found base x).reverse.map digit = [48] := by
  rw [found] at h ⊢
  split
  · rfl
  · next hx =>
    exfalso
    rw [if_neg hx] at h
    have hne : Nat.digits base x ≠ [] := Nat.digits_ne_nil_iff_ne_zero.mpr hx
    have hlast := Nat.getLast_digit_ne_zero base hx
    rw [List.head?_map, List.head?_reverse, List.getLast?_eq_getLast_of_ne_nil hne, Option.map_some,
      Option.some.injEq] at h
    have hlt := Nat.digits_lt_base h1 (List.getLast_mem hne)
    have hzero := congrArg digitValue h
    rw [digitValue_digit (hlt.trans_le hb)] at hzero
    exact hlast (Option.some.inj hzero)

/-! ## printptr -/

/-- The `n` lowest hexadecimal digits, the least significant first. -/
def low : Nat → Nat → List Nat
  | 0, _ => []
  | n + 1, y => y % 16 :: low n (y / 16)

theorem low_succ (n y : Nat) : low (n + 1) y = low n y ++ [y / 16 ^ n % 16] := by
  induction n generalizing y with
  | zero => simp [low]
  | succ n ih =>
    rw [low, ih, low, List.cons_append, Nat.div_div_eq_div_mul, ← Nat.pow_succ']

theorem low_mod (n y : Nat) : low n (y % 16 ^ n) = low n y := by
  induction n generalizing y with
  | zero => rfl
  | succ n ih =>
    rw [low, low, Nat.mod_mod_of_dvd _ (Dvd.intro_left _ (Nat.pow_succ ..).symm), Nat.pow_succ',
      Nat.mod_mul_right_div_self, ih]

theorem ofDigits_low (n y : Nat) : Nat.ofDigits 16 (low n y) = y % 16 ^ n := by
  induction n generalizing y with
  | zero => simp [low, Nat.mod_one]
  | succ n ih => rw [low, Nat.ofDigits_cons, ih, Nat.pow_succ', Nat.mod_mul]

@[simp] theorem length_low (n y : Nat) : (low n y).length = n := by
  induction n generalizing y with
  | zero => rfl
  | succ n ih => rw [low, List.length_cons, ih]

theorem lt_of_mem_low {n y d : Nat} (h : d ∈ low n y) : d < 16 := by
  induction n generalizing y with
  | zero => simp [low] at h
  | succ n ih =>
    rcases List.mem_cons.mp h with rfl | h
    · omega
    · exact ih h

theorem nibbles_eq {n : Nat} (hn : n ≤ 16) (x : UInt64) :
    nibbles n x = (low n (x.toNat / 16 ^ (16 - n))).reverse.map digit := by
  induction n generalizing x with
  | zero => rfl
  | succ n ih =>
    obtain ⟨k, hk⟩ : ∃ k, k + n = 15 := ⟨15 - n, by omega⟩
    rw [show 16 - (n + 1) = k by omega]
    have hshift : (x <<< 4).toNat / 16 ^ (k + 1) = x.toNat / 16 ^ k % 16 ^ n := by
      have hpow : (2 : Nat) ^ 64 = 16 ^ (k + 1) * 16 ^ n := by
        rw [← Nat.pow_add, show k + 1 + n = 16 by omega]
        rfl
      rw [UInt64.toNat_shiftLeft, hpow, Nat.mod_mul_right_div_self, Nat.shiftLeft_eq, Nat.pow_succ]
      exact congrArg (· % 16 ^ n) (Nat.mul_div_mul_right _ _ (by decide))
    have htop : (x >>> 60).toNat = x.toNat / 16 ^ k / 16 ^ n % 16 := by
      have hlt := x.toNat_lt
      rw [Nat.div_div_eq_div_mul, ← Nat.pow_add, hk, UInt64.toNat_shiftRight, Nat.shiftRight_eq_div_pow]
      change x.toNat / 2 ^ 60 = x.toNat / 2 ^ 60 % 16
      omega
    rw [nibbles, ih (by omega), show 16 - n = k + 1 by omega, hshift, low_mod, low_succ,
      List.reverse_append, List.map_append, htop]
    rfl

/-! ## Conversions -/

/-- The conversions of numbers. -/
inductive Conv where
  | d | x | l | p
  deriving DecidableEq

namespace Conv

def letter : Conv → UInt8
  | d => 100
  | x => 120
  | l => 108
  | p => 112

/-- The value of the argument in a 64-bit slot: an int for %d, unsigned of 32 bits for %x and of 64 for the others. -/
def value : Conv → UInt64 → Int
  | d, v => (toInt v).toInt
  | x, v => v.toUInt32.toNat
  | l, v => v.toNat
  | p, v => v.toNat

def signed (cs : List UInt8) : Bool := cs.head? = some 45

/-- A numeral without its sign. -/
def unsigned (cs : List UInt8) : List UInt8 := if signed cs then cs.tail else cs

def readBack : Conv → List UInt8 → Option Int
  | d, cs => (numeral 10 (unsigned cs)).map fun n : Nat => if signed cs then -(n : Int) else n
  | x, cs => (numeral 16 cs).map Int.ofNat
  | l, cs => (numeral 10 cs).map Int.ofNat
  | p, cs => if cs.take 2 = [48, 120] then (numeral 16 (cs.drop 2)).map Int.ofNat else none

/-- The characters are the numeral of the argument: they read back as its value, and there is no leading zero; %p has 16
digits. -/
structure Exact (c : Conv) (v : UInt64) (out : List UInt8) : Prop where
  value : c.readBack out = some (c.value v)
  zeros : c ≠ p → (unsigned out).head? = some 48 → unsigned out = [48]
  width : c = p → out.length = 18

/-- What a conversion writes. -/
def print : Conv → UInt64 → Option (List UInt8)
  | d, v => printint (toInt v) 10 true
  | x, v => printint (toInt v) 16 false
  | l, v => printint (toInt v) 10 false
  | p, v => some (printptr v)

/-- Wherever vprintf comes upon a conversion, it writes this and goes on behind it. -/
theorem vprintf_conversion (str : UInt64 → List UInt8) (c : Conv) (v : UInt64) (fmt : List UInt8) (ap : List UInt64) :
    vprintf str false (37 :: c.letter :: fmt) (v :: ap) =
      (c.print v).bind fun out => (vprintf str false fmt ap).map (out ++ ·) := by
  cases c <;> simp [vprintf, letter, print, Option.map_eq_bind]

theorem toUInt32_toInt (v : UInt64) : (toInt v).toUInt32 = v.toUInt32 := rfl

theorem toInt_of_neg {z : Int32} (h : z < 0) : z.toInt = -((-z).toUInt32.toNat : Int) := by
  have hlt : z.toBitVec.toInt < 0 := Int32.lt_iff_toInt_lt.mp h
  have hcond := BitVec.toInt_eq_toNat_cond z.toBitVec
  have := z.toBitVec.isLt
  change z.toBitVec.toInt = -((-z.toBitVec).toNat : Int)
  rw [BitVec.toNat_neg]
  split at hcond
  · omega
  · omega

theorem toInt_of_nonneg {z : Int32} (h : ¬z < 0) : z.toInt = z.toUInt32.toNat := by
  have hge : 0 ≤ z.toBitVec.toInt := Int32.le_iff_toInt_le.mp (Int32.not_lt.mp h)
  have hcond := BitVec.toInt_eq_toNat_cond z.toBitVec
  have := z.toBitVec.isLt
  change z.toBitVec.toInt = z.toBitVec.toNat
  split at hcond
  · omega
  · omega

/-- The digits do not start with a sign. -/
theorem signed_found {base : Nat} (h1 : 1 < base) (hb : base ≤ 16) (n : Nat) :
    signed ((found base n).reverse.map digit) = false := by
  rw [signed, decide_eq_false_iff_not, List.head?_map, Option.map_eq_some_iff]
  rintro ⟨k, hk, hdigit⟩
  have hlt := lt_of_mem_found h1 (List.mem_reverse.mp (List.mem_of_head? hk))
  have hval := digitValue_digit (hlt.trans_le hb)
  rw [hdigit] at hval
  cases hval

theorem exact_d (v : UInt64) : ∃ out, print d v = some out ∧ Exact d v out := by
  refine ⟨_, printint_eq (toInt v) (by decide) true, ?_⟩
  by_cases hneg : toInt v < 0
  · have hun : unsigned (45 :: (found 10 (-toInt v).toUInt32.toNat).reverse.map digit) =
      (found 10 (-toInt v).toUInt32.toNat).reverse.map digit := rfl
    rw [if_pos ⟨rfl, hneg⟩]
    refine ⟨?_, fun _ => ?_, nofun⟩
    · simp only [readBack, UInt32.reduceToNat, hun, numeral_found (show 1 < 10 by decide) (by decide), Option.map_some,
        value, toInt_of_neg hneg]
      rfl
    · simp only [UInt32.reduceToNat, hun]
      exact head_found (by decide) (by decide)
  · have hsign := signed_found (show 1 < 10 by decide) (by decide) (toInt v).toUInt32.toNat
    have hun : unsigned ((found 10 (toInt v).toUInt32.toNat).reverse.map digit) =
      (found 10 (toInt v).toUInt32.toNat).reverse.map digit := by rw [unsigned, hsign]; rfl
    rw [if_neg fun h => hneg h.2]
    refine ⟨?_, fun _ => ?_, nofun⟩
    · simp only [readBack, UInt32.reduceToNat, hun, hsign, numeral_found (show 1 < 10 by decide) (by decide),
        Option.map_some, value, toInt_of_nonneg hneg]
      rfl
    · simp only [UInt32.reduceToNat, hun]
      exact head_found (by decide) (by decide)

/-- An unsigned number in the low half of the slot is printed exactly. -/
theorem print_unsigned (v : UInt64) {base : UInt32} (h1 : 10 ≤ base.toNat) (hb : base.toNat ≤ 16) :
    ∃ out, printint (toInt v) base false = some out ∧ numeral base.toNat out = some v.toUInt32.toNat ∧
      ((unsigned out).head? = some 48 → unsigned out = [48]) := by
  have hsign := signed_found (show 1 < base.toNat by omega) hb v.toUInt32.toNat
  refine ⟨_, printint_eq (toInt v) h1 false, ?_⟩
  simp only [Bool.false_eq_true, false_and, if_false, toUInt32_toInt]
  refine ⟨numeral_found (by omega) hb _, ?_⟩
  rw [unsigned, hsign]
  exact head_found (by omega) hb

theorem exact_x (v : UInt64) : ∃ out, print x v = some out ∧ Exact x v out := by
  obtain ⟨out, hout, hnum, hzero⟩ := @print_unsigned v 16 (by decide) (by decide)
  exact ⟨out, hout, by rw [readBack]; exact congrArg (Option.map Int.ofNat) hnum, fun _ => hzero, nofun⟩

/-- %l prints the argument modulo 2^32. -/
theorem exact_l (v : UInt64) : ∃ out, print l v = some out ∧ (Exact l v out ↔ v.toNat < 2 ^ 32) := by
  obtain ⟨out, hout, hnum, hzero⟩ := @print_unsigned v 10 (by decide) (by decide)
  have hread : readBack l out = some ((v.toNat % 2 ^ 32 : Nat) : Int) := by
    rw [readBack]
    exact congrArg (Option.map Int.ofNat) hnum
  refine ⟨out, hout, ?_, ?_⟩
  · intro h
    have hval := hread.symm.trans h.value
    simp only [value, Option.some.injEq, Nat.cast_inj] at hval
    omega
  · intro h
    exact ⟨by rw [hread, value, Nat.mod_eq_of_lt h], fun _ => hzero, nofun⟩

theorem exact_p (v : UInt64) : ∃ out, print p v = some out ∧ Exact p v out := by
  have hnib : nibbles 16 v = (low 16 v.toNat).reverse.map digit := by
    rw [nibbles_eq le_rfl, Nat.sub_self, Nat.pow_zero, Nat.div_one]
  have hne : nibbles 16 v ≠ [] := by
    rw [hnib]
    simp [← List.length_eq_zero_iff]
  have hval : numeral 16 (nibbles 16 v) = some v.toNat := by
    rw [numeral, if_neg hne, hnib, ← List.map_reverse, List.reverse_reverse,
      valueLow_map_digit le_rfl fun d hd => lt_of_mem_low hd, ofDigits_low]
    exact congrArg some (Nat.mod_eq_of_lt v.toNat_lt)
  refine ⟨printptr v, rfl, ?_, fun h => absurd rfl h, fun _ => ?_⟩
  · have htwo : (printptr v).take 2 = [48, 120] := rfl
    rw [readBack, if_pos htwo]
    exact congrArg (Option.map Int.ofNat) hval
  · rw [printptr, hnib]
    simp

/-- **User printf.** A conversion writes the numeral of its argument, and only a %l whose argument does not fit into 32
bits writes another one. The buffer holds in any case. -/
theorem conversion_exact (str : UInt64 → List UInt8) (c : Conv) (v : UInt64) :
    ∃ out, (∀ fmt ap, vprintf str false (37 :: c.letter :: fmt) (v :: ap) = (vprintf str false fmt ap).map (out ++ ·)) ∧
      (Exact c v out ↔ (c = l → v.toNat < 2 ^ 32)) := by
  obtain ⟨out, hout, hexact⟩ : ∃ out, c.print v = some out ∧ (Exact c v out ↔ (c = l → v.toNat < 2 ^ 32)) := by
    cases c with
    | d =>
      obtain ⟨out, hout, h⟩ := exact_d v
      exact ⟨out, hout, iff_of_true h nofun⟩
    | x =>
      obtain ⟨out, hout, h⟩ := exact_x v
      exact ⟨out, hout, iff_of_true h nofun⟩
    | l =>
      obtain ⟨out, hout, h⟩ := exact_l v
      exact ⟨out, hout, h.trans ⟨fun h _ => h, fun h => h rfl⟩⟩
    | p =>
      obtain ⟨out, hout, h⟩ := exact_p v
      exact ⟨out, hout, iff_of_true h nofun⟩
  refine ⟨out, fun fmt ap => ?_, hexact⟩
  rw [vprintf_conversion, hout, Option.bind_some]

/-- printf("%l", 1UL << 32) writes "0". -/
theorem conversion_loses_half : ∃ out, vprintf (fun _ => []) false [37, 108] [4294967296] = some out ∧ out = [48] ∧
    readBack l out = some 0 ∧ value l 4294967296 = 4294967296 :=
  ⟨[48], by decide, rfl, by decide, by decide⟩

end Conv

end Xv6.Printf
