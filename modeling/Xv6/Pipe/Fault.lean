/-
piperead into a user buffer that ends in memory the process may not use. piperead takes a
byte out of the ring before it copies it out, so the byte at which copyout fails is
lost: the call returns how many were stored, 0 if it was the first, which looks like the
end of the file. Nothing is lost if and only if the bytes to deliver end before the
fault.
-/
import Xv6.Pipe.Model
import Xv6.Proc.Copyout

namespace Xv6.Pipes

open Lib Mem

/-- The loop of piperead from byte `i` on, with `k` bytes still wanted. -/
def pipereadLoop (pagetable addr : Nat) : Nat → Nat → Pipe → Code Mem (Int × Pipe)
  | 0, i, pi => return (i, pi)
  | k + 1, i, pi => do
    if pi.nread = pi.nwrite then return (i, pi)
    let ch := pi.data (Ring.cell PIPESIZE pi.nread)
    let pi := { pi with nread := pi.nread + 1 }
    if (← copyout pagetable (u64 (addr + i)) [ch]) = -1 then return (i, pi)
    pipereadLoop pagetable addr k (i + 1) pi

/-- A piperead that has the lock: what it returns, with the pipe it leaves, or nothing if it goes to sleep. -/
def piperead (killed : Bool) (pi : Pipe) (pagetable addr : Nat) (n : Int) : Code Mem (Option (Int × Pipe)) := do
  if pi.nread = pi.nwrite ∧ pi.writeopen then return if killed then some (-1, pi) else none
  return some (← pipereadLoop pagetable addr n.toNat 0 pi)

/-- The bytes in the ring. -/
def Pipe.Has (pi : Pipe) (xs : List UInt8) : Prop := Ring.Holds pi.data pi.nread pi.nwrite xs

variable {m : Mem} {root addr : Nat} {pi : Pipe} {xs : List UInt8}

theorem Pipe.Has.length {ys : List UInt8} (h : pi.Has xs) (h' : pi.Has ys) : xs.length = ys.length := by
  have hlt : PIPESIZE < 2 ^ 32 := by decide
  rw [← Ring.Holds.sub_eq h hlt, Ring.Holds.sub_eq h' hlt]

/-- The first byte is taken out. -/
theorem Pipe.Has.pop {x : UInt8} (h : pi.Has (x :: xs)) : pi.nread ≠ pi.nwrite ∧
    pi.data (Ring.cell PIPESIZE pi.nread) = x ∧ Pipe.Has { pi with nread := pi.nread + 1 } xs := by
  obtain ⟨hx, hrest⟩ := Ring.Holds.pop h
  refine ⟨fun he => ?_, hx, hrest⟩
  have := (Ring.Holds.eq_iff h (by decide)).mp he
  cases this

/-- **The loop of piperead**, `i` bytes into a call for `n`. The induction is on the bytes still wanted; the bytes so far
are stored and out of the ring. -/
theorem pipereadLoop_spec (hu : UserTable m root) (haddr : addr < 2 ^ 64) {n : Nat} : ∀ {k i : Nat} {pi : Pipe} {m' : Mem},
    i + k = n → i ≤ reach m root addr n → i ≤ xs.length → pi.Has (xs.drop i) → Stored m root addr (xs.take i) m' →
    ∃ (j l : Nat) (pi' : Pipe) (m'' : Mem), pipereadLoop root addr k i pi m' = .ok (((j : Int), pi'), m'') ∧
      Stored m root addr (xs.take j) m'' ∧ pi'.Has (xs.drop l) ∧ j = min (reach m root addr n) (min n xs.length) ∧
      l = if min n xs.length ≤ reach m root addr n then j else j + 1 := by
  intro k
  induction k with
  | zero =>
    intro i pi m' hik hi hx hpi hm
    have hr := reach_le m root addr n
    exact ⟨i, i, pi, m', rfl, hm, hpi, by omega, by rw [if_pos (by omega)]⟩
  | succ k ih =>
    intro i pi m' hik hi hx hpi hm
    have hr := reach_le m root addr n
    rw [pipereadLoop]
    cases hxs : xs.drop i with
    | nil =>
      -- the ring is empty
      have hlen : xs.length = i := by
        have := List.drop_eq_nil_iff.mp hxs
        omega
      rw [hxs] at hpi
      rw [if_pos ((Ring.Holds.eq_iff hpi (by decide)).mpr rfl)]
      refine ⟨i, i, pi, m', rfl, hm, hxs ▸ hpi, by omega, by rw [if_pos (by omega)]⟩
    | cons x rest =>
      rw [hxs] at hpi
      obtain ⟨hne, hx', hrest⟩ := hpi.pop
      have hlt : i < xs.length := by
        by_contra hge
        rw [List.drop_of_length_le (by omega)] at hxs
        cases hxs
      have hget : xs.drop (i + 1) = rest ∧ xs.take (i + 1) = xs.take i ++ [x] := by
        have hx0 : xs[i]? = some x := by
          have := congrArg List.head? hxs
          simpa [List.head?_drop] using this
        refine ⟨?_, ?_⟩
        · rw [← List.drop_drop, hxs]
          rfl
        · rw [List.take_add_one, hx0]
          rfl
      have hlen : (xs.take i).length = i := by
        rw [List.length_take]
        omega
      have haddr' : u64 (addr + i) = addr + i := by
        cases i with
        | zero => exact Nat.mod_eq_of_lt haddr
        | succ i =>
          have := ((lt_reach.mp (show i < reach m root addr n by omega)).2 i le_rfl).1
          have hM : MAXVA = 2 ^ 38 := rfl
          exact Nat.mod_eq_of_lt (by omega)
      obtain ⟨m₁, hcopy, hst⟩ := copyout_eq (hm.table.userTable hu) (addr + i) [x]
      rw [hm.table.reach, show [x].length = 1 from rfl] at hcopy hst
      rw [if_neg hne, hx', haddr', Code.bind_ok hcopy]
      by_cases hlti : i < reach m root addr n
      · have hacc := (lt_reach.mp hlti).2
        have hone : reach m root (addr + i) 1 = 1 := reach_eq_iff.mpr fun a ha => by
          obtain rfl : a = 0 := by omega
          exact hacc i le_rfl
        rw [hone] at hst ⊢
        rw [if_neg (by decide)]
        refine ih (by omega) (by omega) (by omega) (hget.1 ▸ hrest) ?_
        rw [hget.2]
        refine hm.append hu (by rw [hlen]; exact hst) fun a ha => ?_
        rw [List.length_append, hlen, List.length_singleton] at ha
        exact hacc a (by omega)
      · -- copyout fails, and the byte is out of the ring
        have hno : ¬ Accessible m root (addr + i) := fun hacc => hlti <| lt_reach.mpr ⟨by omega, fun a ha => by
          obtain rfl | hlt := ha.eq_or_lt
          · exact hacc
          · exact (lt_reach.mp (show a < reach m root addr n by omega)).2 a le_rfl⟩
        have hzero : reach m root (addr + i) 1 = 0 := by rw [reach, if_neg hno]
        rw [hzero] at hst ⊢
        rw [if_pos (by decide)]
        refine ⟨i, i + 1, _, m₁, rfl, ?_, hget.1 ▸ hrest, by omega, by rw [if_neg (by omega)]⟩
        have happ : Stored m root addr (xs.take i ++ []) m₁ := hm.append hu (by rw [hlen]; exact hst) fun a ha => by
          rw [List.append_nil, hlen] at ha
          exact (lt_reach.mp (show a < reach m root addr n by omega)).2 a le_rfl
        rwa [List.append_nil] at happ

/-- **Nothing is lost**: the bytes that left the ring are those stored in the buffer, their number is returned if there are
any, and 0 is returned at the end of the file only. -/
def LosesNothing (m : Mem) (root addr : Nat) (pi : Pipe) (xs : List UInt8) (r : Int) (pi' : Pipe) (m' : Mem) : Prop :=
  ∃ j ≤ xs.length, (∀ i < j, Accessible m root (addr + i)) ∧ Stored m root addr (xs.take j) m' ∧ pi'.Has (xs.drop j) ∧
    (0 < j → r = j) ∧ (r = 0 → xs = [] ∧ pi.writeopen = false)

/-- **A faulting pipe read loses no data if and only if there is no fault**: the bytes it is to deliver are no more than
copyout can store. -/
theorem piperead_loses_nothing_iff (killed : Bool) (hu : UserTable m root) (haddr : addr < 2 ^ 64) (hpi : pi.Has xs)
    (hready : xs ≠ [] ∨ pi.writeopen = false) {n : Int} (hn : 0 < n) :
    ∃ r pi' m', piperead killed pi root addr n m = .ok (some (r, pi'), m') ∧
      (LosesNothing m root addr pi xs r pi' m' ↔ min n.toNat xs.length ≤ reach m root addr n.toNat) := by
  obtain ⟨j, l, pi', m', hrun, hst, hpi', hj, hl⟩ := pipereadLoop_spec (n := n.toNat) hu haddr (Nat.zero_add _)
    (Nat.zero_le _) (Nat.zero_le _) hpi (.nil m root addr)
  have hgo : ¬ (pi.nread = pi.nwrite ∧ pi.writeopen = true) := by
    rintro ⟨he, hw⟩
    rcases hready with hxs | hclosed
    · exact hxs ((Ring.Holds.eq_iff hpi (by decide)).mp he)
    · rw [hclosed] at hw
      cases hw
  refine ⟨j, pi', m', ?_, ?_⟩
  · unfold piperead
    rw [if_neg hgo, Code.bind_ok hrun]
    rfl
  constructor
  · -- the byte at the fault is gone, and was not stored
    rintro ⟨i, hi, hacc, -, hring, -⟩
    by_contra hfault
    rw [if_neg hfault] at hl
    have hlen := hpi'.length hring
    rw [List.length_drop, List.length_drop] at hlen
    have hil : i = j + 1 := by omega
    exact hfault (by
      have := lt_reach.mpr ⟨show j < n.toNat by omega, fun a ha => hacc a (by omega)⟩
      omega)
  · intro hfits
    rw [if_pos hfits] at hl
    refine ⟨j, by omega, fun i hi => (lt_reach.mp (show i < reach m root addr n.toNat by omega)).2 i le_rfl, hst, hl ▸ hpi',
      fun _ => rfl, fun h0 => ?_⟩
    have hnil : xs = [] := List.length_eq_zero_iff.mp (by omega)
    exact ⟨hnil, hready.resolve_left (absurd hnil)⟩

/-- A pipe with one byte in it, both ends open. -/
def oneByte : Pipe := ⟨fun _ => 7, 0, 1, true, true⟩

theorem oneByte_has : oneByte.Has [7] := ⟨by decide, by decide, by decide⟩

/-- A read of one byte into memory of a running process. -/
theorem piperead_loses_nothing_demo : ∃ s, Sys.demo = some s ∧ ∃ r pi' m',
    piperead false oneByte (s.proc ⟨1, by decide⟩).pagetable 0 1 s.mem = .ok (some (r, pi'), m') ∧
    LosesNothing s.mem (s.proc ⟨1, by decide⟩).pagetable 0 oneByte [7] r pi' m' := by
  obtain ⟨s, hs, hd, hu⟩ := demo_child
  have hacc : Accessible s.mem (s.proc ⟨1, by decide⟩).pagetable 0 := (of_decide_eq_true hd).2.1
  obtain ⟨r, pi', m', hrun, hiff⟩ := piperead_loses_nothing_iff false hu (by decide : 0 < 2 ^ 64) oneByte_has (.inl (by decide))
    (by decide : (0 : Int) < 1)
  refine ⟨s, hs, r, pi', m', hrun, hiff.mpr ?_⟩
  rw [reach_eq_iff.mpr fun i hi => by
    obtain rfl : i = 0 := by
      change i < 1 at hi
      omega
    exact hacc]
  exact Nat.min_le_left _ _

/-- **A fault reads as the end of the file**, and the byte is gone. -/
theorem piperead_fault_is_eof : oneByte.Has [7] ∧ oneByte.writeopen = true ∧ ∀ m root, ∃ pi',
    piperead false oneByte root MAXVA 1 m = .ok (some (0, pi'), m) ∧ pi'.Has [] :=
  ⟨oneByte_has, rfl, fun _ _ => ⟨{ oneByte with nread := 1 }, rfl, by decide, by decide, by decide⟩⟩

end Xv6.Pipes
