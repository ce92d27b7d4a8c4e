/-
Fixed-size byte buffers (a disk block, a page of memory) read and written through
the little-endian integers of the structs stored in them, and through byte strings.
-/
import Xv6.Lib.LittleEndian

namespace Xv6.Lib

/-- `n` bytes. -/
abbrev Buffer (n : Nat) := Fin n → UInt8

namespace Buffer

variable {N : Nat}

/-- The bytes of a buffer as a store; nothing is behind its end. -/
def bytes (b : Buffer N) (i : Nat) : UInt8 := if h : i < N then b ⟨i, h⟩ else 0

def ofBytes (f : Nat → UInt8) : Buffer N := fun i => f i

/-- Every byte is `x`: what memset leaves. -/
def fill (x : UInt8) : Buffer N := fun _ => x

/-- The `n`-byte integer at byte offset `off`. -/
def getLE (b : Buffer N) (off n : Nat) : Nat := LittleEndian.get b.bytes off n

/-- The buffer with the `n`-byte integer at `off` set to `v`. -/
def putLE (b : Buffer N) (off n v : Nat) : Buffer N := ofBytes (LittleEndian.put b.bytes off n v)

/-- The `n` bytes from `off` on. -/
def read (b : Buffer N) (off n : Nat) : List UInt8 := (List.range n).map fun i => b.bytes (off + i)

/-- The buffer with `data` stored from `off` on. -/
def write (b : Buffer N) (off : Nat) (data : List UInt8) : Buffer N := fun i =>
  if off ≤ i then data.getD (i - off) (b i) else b i

theorem bytes_ofBytes {f : Nat → UInt8} {i : Nat} (h : i < N) : (ofBytes f : Buffer N).bytes i = f i := by
  simp [bytes, ofBytes, h]

theorem getLE_putLE {b : Buffer N} {off n v : Nat} (h : off + n ≤ N) :
    (b.putLE off n v).getLE off n = v % 256 ^ n := by
  rw [getLE, putLE, ← LittleEndian.get_put b.bytes off n v]
  exact LittleEndian.get_congr fun x _ hx => bytes_ofBytes (by omega)

theorem getLE_putLE_disjoint {b : Buffer N} {off n v off' m : Nat} (hm : off' + m ≤ N)
    (h : off' + m ≤ off ∨ off + n ≤ off') : (b.putLE off n v).getLE off' m = b.getLE off' m := by
  rw [getLE, putLE, getLE, ← LittleEndian.get_put_disjoint (f := b.bytes) (a := off) (n := n) (v := v) h]
  exact LittleEndian.get_congr fun x _ hx => bytes_ofBytes (by omega)

theorem getLE_lt (b : Buffer N) (off n : Nat) : b.getLE off n < 256 ^ n := LittleEndian.get_lt b.bytes off n

/-- Storing the integer that is there changes nothing. -/
theorem putLE_getLE (b : Buffer N) (off n : Nat) : b.putLE off n (b.getLE off n) = b := by
  funext i
  rw [putLE, getLE, LittleEndian.put_get]
  simp [ofBytes, bytes]

theorem getLE_fill_zero {off n : Nat} : (fill 0 : Buffer N).getLE off n = 0 := by
  rw [getLE, LittleEndian.get_congr (g := fun _ => 0) fun x _ _ => by simp [bytes, fill],
    LittleEndian.get_zero]

/-! ## Parts: a struct in a buffer -/

/-- The `n` bytes at `off`. -/
def part (b : Buffer N) (off n : Nat) : Buffer n := fun i => b.bytes (off + i)

/-- The buffer with a struct stored at `off`. -/
def setPart {n : Nat} (b : Buffer N) (off : Nat) (p : Buffer n) : Buffer N := fun i =>
  if off ≤ i ∧ i < off + n then p.bytes (i - off) else b i

variable {b : Buffer N} {off n : Nat} {p : Buffer n}

theorem bytes_eq {i : Nat} (h : i < N) : b.bytes i = b ⟨i, h⟩ := dif_pos h

theorem bytes_setPart {i : Nat} (h : i < N) :
    (b.setPart off p).bytes i = if off ≤ i ∧ i < off + n then p.bytes (i - off) else b.bytes i := by
  rw [bytes_eq h, setPart, bytes_eq h]

theorem part_setPart (h : off + n ≤ N) : (b.setPart off p).part off n = p := by
  funext i
  have hi := i.isLt
  rw [part, bytes_setPart (by omega), if_pos (by omega), bytes_eq (by omega)]
  congr 1
  exact Fin.ext (by simp)

theorem part_setPart_disjoint {off' n' : Nat} (h : off' + n' ≤ N) (hd : off' + n' ≤ off ∨ off + n ≤ off') :
    (b.setPart off p).part off' n' = b.part off' n' := by
  funext i
  have hi := i.isLt
  rw [part, bytes_setPart (by omega), if_neg (by omega), part]

theorem bytes_fill {x : UInt8} {i : Nat} (h : i < N) : (fill x : Buffer N).bytes i = x := dif_pos h

theorem part_fill {x : UInt8} (h : off + n ≤ N) : (fill x : Buffer N).part off n = fill x := by
  funext i
  have hi := i.isLt
  rw [part, bytes_fill (by omega), fill]

/-- Bytes written are read back, the others stay. -/
theorem bytes_write {data : List UInt8} {i : Nat} (h : i < N) : (b.write off data).bytes i =
    if h : off ≤ i ∧ i - off < data.length then data[i - off] else b.bytes i := by
  rw [bytes_eq h, write, bytes_eq h]
  by_cases hoff : off ≤ i
  · by_cases hl : i - off < data.length
    · simp [hoff, hl, List.getD_eq_getElem?_getD]
    · simp [hoff, hl, List.getD_eq_getElem?_getD]
  · simp [hoff]

/-! ## Byte strings in a buffer -/

theorem length_read (b : Buffer N) (off n : Nat) : (b.read off n).length = n := by simp [read]

theorem getElem?_read (b : Buffer N) (off n i : Nat) :
    (b.read off n)[i]? = if i < n then some (b.bytes (off + i)) else none := by
  unfold read
  rw [List.getElem?_map]
  split
  · next h => rw [List.getElem?_range h, Option.map_some]
  · next h => rw [List.getElem?_eq_none (by simpa using h), Option.map_none]

theorem take_read {m : Nat} (h : m ≤ n) : (b.read off n).take m = b.read off m := by
  refine List.ext_getElem? fun i => ?_
  rw [List.getElem?_take, getElem?_read, getElem?_read]
  split
  · rw [if_pos (by omega)]
  · rfl

theorem drop_read {m : Nat} : (b.read off n).drop m = b.read (off + m) (n - m) := by
  refine List.ext_getElem? fun i => ?_
  rw [List.getElem?_drop, getElem?_read, getElem?_read, Nat.add_assoc]
  split
  · rw [if_pos (by omega)]
  · rw [if_neg (by omega)]

/-- The bytes after a write within them. -/
theorem read_write (b : Buffer N) (off n m : Nat) (data : List UInt8) (hm : m + data.length ≤ n) (h : off + n ≤ N) :
    (b.write (off + m) data).read off n = (b.read off n).take m ++ data ++ (b.read off n).drop (m + data.length) := by
  refine List.ext_getElem? fun i => ?_
  have htake : ((b.read off n).take m).length = m := by
    rw [List.length_take, length_read]
    omega
  rw [getElem?_read, List.append_assoc, List.getElem?_append, htake, List.getElem?_take, List.getElem?_append,
    List.getElem?_drop, getElem?_read, getElem?_read]
  by_cases hi : i < n
  · rw [if_pos hi, bytes_write (by omega)]
    by_cases h₁ : i < m
    · rw [dif_neg (by omega), if_pos h₁, if_pos h₁, if_pos hi]
    · rw [if_neg h₁]
      by_cases h₂ : i - m < data.length
      · rw [dif_pos ⟨by omega, by omega⟩, if_pos h₂, List.getElem?_eq_getElem h₂]
        congr 2
        omega
      · rw [dif_neg (by omega), if_neg h₂, if_pos (by omega)]
        congr 2
        omega
  · rw [if_neg hi, if_neg (by omega), if_neg (by omega), if_neg (by omega)]

/-! ## Bits: a bitmap in a buffer -/

/-- The mask of bit `i` in its byte, `1 << (i % 8)`. -/
def mask (i : Nat) : UInt8 := 1 <<< UInt8.ofNat (i % 8)

/-- Whether bit `i` is set. -/
def bit (b : Buffer N) (i : Nat) : Bool := b.bytes (i / 8) &&& mask i ≠ 0

def setBit (b : Buffer N) (i : Nat) : Buffer N := fun j => if j.val = i / 8 then b j ||| mask i else b j

def clearBit (b : Buffer N) (i : Nat) : Buffer N := fun j => if j.val = i / 8 then b j &&& ~~~ mask i else b j

theorem toNat_mask (i : Nat) : (mask i).toNat = 2 ^ (i % 8) := by
  have h : ∀ k < 8, ((1 : UInt8) <<< UInt8.ofNat k).toNat = 2 ^ k := by decide
  exact h _ (Nat.mod_lt _ (by decide))

theorem and_mask (x : UInt8) (i : Nat) : x &&& mask i ≠ 0 ↔ x.toNat.testBit (i % 8) := by
  rw [Ne, ← UInt8.toNat_inj, UInt8.toNat_and, toNat_mask, UInt8.toNat_zero, Nat.and_two_pow]
  simp

theorem bit_eq (b : Buffer N) (i : Nat) : b.bit i = (b.bytes (i / 8)).toNat.testBit (i % 8) := by
  rw [bit, Bool.eq_iff_iff, decide_eq_true_eq, and_mask]

theorem index_eq {i j : Nat} (h : j / 8 = i / 8) : j % 8 = i % 8 ↔ j = i := by omega

theorem bit_setBit {i j : Nat} (hj : j / 8 < N) : (b.setBit i).bit j = (decide (j = i) || b.bit j) := by
  rw [bit_eq, bit_eq, bytes_eq hj, setBit, bytes_eq hj]
  dsimp only
  split
  · next h =>
    rw [UInt8.toNat_or, Nat.testBit_or, toNat_mask, Nat.testBit_two_pow, Bool.or_comm]
    congr 1
    simp only [decide_eq_decide]
    rw [eq_comm, index_eq h]
  · next h =>
    have hne : j ≠ i := by
      rintro rfl
      exact h rfl
    simp [hne]

end Buffer

end Xv6.Lib
