/-
What sbrk does to the size of a process. A request is added to the size as a uint64, and
uvmdealloc takes a sum that wrapped for no request at all: then sbrk reports success and
leaves the break where it was. For every other request the break moves by what was asked,
or the call fails and changes nothing (`sbrk_exact_iff`).
-/
import Xv6.Proc.Memory
import Xv6.Vm.PageMap

namespace Xv6

open Lib Lib.Own Mem

/-- Memory shows the entries of an address space as a map. -/
theorem holds_pageMap {K : Layout} {root tf n : Nat} {leaf : Nat → Nat} {data : Nat → Page} {ram : Nat → Page}
    {S : Multiset Nat} (h : (Space K root tf n leaf data).holds ram S) (hS : ∀ x ∈ S, x ∈ K.pages) :
    pageMap ram root = mapOf leaf := by
  rw [Space, holds_fact_add] at h
  obtain ⟨-, S₁, S₂, rfl, h₁, -⟩ := h
  exact mapOf_congr (holds_PT h₁ fun x hx => hS x (Multiset.mem_add.mpr (.inl hx))).2

theorem sat_pageMap {K : Layout} {root tf n : Nat} {leaf : Nat → Nat} {data : Nat → Page} {m : Mem} {R : Own Nat Page}
    (h : (world K).Sat m (Space K root tf n leaf data + R)) : pageMap m.ram root = mapOf leaf := by
  obtain ⟨T, -, hsub, S, U, rfl, hS, -⟩ := sat_split h
  exact holds_pageMap hS fun x hx => hsub x (Multiset.mem_add.mpr (.inl hx))

namespace Sys

variable {K : Layout} {s : Sys} {p : Fin NPROC}

/-- What is not process `p`'s address space, seen from `p`. -/
def beside (K : Layout) (s : Sys) (p : Fin NPROC) : Own Nat Page :=
  page (s.proc p).trapframe + (pipes K s.file + restMem K s p)

/-- The address space of a live process, and what is beside it. -/
theorem Inv.space (h : Inv K s) (hp : (s.proc p).state ≠ .UNUSED) : ∃ leaf data, (world K).Sat s.mem
    (Space K (s.proc p).pagetable (s.proc p).trapframe (pagesBelow (s.proc p).sz) leaf data + beside K s p) := by
  have hs := (h.live hp).sat
  rw [userMem, show pipes K s.file + (page (s.proc p).trapframe + AnySpace K (s.proc p).pagetable (s.proc p).trapframe
    (s.proc p).sz + restMem K s p) = AnySpace K (s.proc p).pagetable (s.proc p).trapframe (s.proc p).sz + beside K s p by
      rw [beside]; abel, AnySpace, World.sat_ex_add] at hs
  obtain ⟨q, hq⟩ := hs
  exact ⟨q.1, q.2, hq⟩

/-- The tables of the other processes are beside it. -/
theorem beside_pageMap {q : Fin NPROC} {S : Multiset Nat} {m : Mem} (hq : q ≠ p) (hlive : (s.proc q).state ≠ .UNUSED)
    (h : (beside K s p).holds s.mem.ram S) (hS : S ≤ K.pages) (hkeep : ∀ x ∈ S, m.ram x = s.mem.ram x) :
    pageMap m.ram (s.proc q).pagetable = pageMap s.mem.ram (s.proc q).pagetable := by
  obtain ⟨S₁, _, rfl, -, S₂, _, rfl, -, S₃, S₄, rfl, h₃, -⟩ := h
  obtain ⟨S', hle, hc⟩ := holds_of_mem_sum h₃ (Finset.mem_erase.mpr ⟨hq, Finset.mem_univ q⟩)
  rw [procMem_live hlive] at hc
  obtain ⟨T₁, T, rfl, -, x, hx⟩ := hc
  have hin (l : Nat) (hl : l ∈ T) : l ∈ S₁ + (S₂ + (S₃ + S₄)) := by
    have : l ∈ S₃ := Multiset.mem_of_le hle (Multiset.mem_add.mpr (.inr hl))
    simp [this]
  have hpages (l : Nat) (hl : l ∈ T) : l ∈ K.pages := Multiset.mem_coe.mp (Multiset.mem_of_le hS (hin l hl))
  rw [holds_pageMap hx hpages]
  exact holds_pageMap ((Space ..).reads (fun l hl => (hkeep l (hin l hl)).symm) hx) hpages

/-! ## sbrk -/

/-- What sbrk is to do: on success the size has moved by the argument and the old size is returned; on failure the
size and all mappings are as they were; a request for less than nothing fails. -/
def SbrkExact (s : Sys) (p : Fin NPROC) (a : Nat) : Prop :=
  ∃ r s', sysSbrk p a s = .ok (r, s') ∧
    (r ≠ -1 → ((s'.proc p).sz : Int) = (s.proc p).sz + argint a ∧ r = (s.proc p).sz) ∧
    (r = -1 → (s'.proc p).sz = (s.proc p).sz ∧ ∀ q, (s.proc q).state ≠ .UNUSED →
      pageMap s'.mem.ram (s.proc q).pagetable = pageMap s.mem.ram (s.proc q).pagetable) ∧
    ((s.proc p).sz + argint a < 0 → r = -1)

theorem argint_lt (a : Nat) : -2 ^ 31 ≤ argint a ∧ argint a < 2 ^ 31 := by
  rw [argint]
  split <;> omega

/-- The size of a process is far from wrapping. -/
theorem Inv.sz_le (h : Inv K s) (hp : (s.proc p).state ≠ .UNUSED) : (s.proc p).sz ≤ 32768 * PGSIZE := by
  obtain ⟨leaf, data, hs⟩ := h.space hp
  exact (le_pagesBelow_mul _).trans (Nat.mul_le_mul_right _ (sat_space_le hs))

theorem u64OfInt_of_nonneg {x : Int} (h0 : 0 ≤ x) (hlt : x < 2 ^ 64) : (u64OfInt x : Int) = x := by
  rw [u64OfInt, Int.emod_eq_of_lt h0 hlt, Int.toNat_of_nonneg h0]

theorem grow_exact (h : Inv K s) (hp : (s.proc p).state ≠ .UNUSED) {n : Int} (hn : 0 < n) (hlt : n < 2 ^ 31) :
    ∃ r s', growproc p n s = .ok (r, s') ∧
      (r = 0 ∧ ((s'.proc p).sz : Int) = (s.proc p).sz + n ∨
        r = -1 ∧ (s'.proc p).sz = (s.proc p).sz ∧ ∀ q, (s.proc q).state ≠ .UNUSED →
          pageMap s'.mem.ram (s.proc q).pagetable = pageMap s.mem.ram (s.proc q).pagetable) := by
  have hsz := h.sz_le hp
  rw [show PGSIZE = 4096 from rfl] at hsz
  have hu : (u64OfInt ((s.proc p).sz + n) : Int) = (s.proc p).sz + n := u64OfInt_of_nonneg (by omega) (by omega)
  obtain ⟨leaf, data, hs⟩ := h.space hp
  have hle : (s.proc p).sz ≤ u64OfInt ((s.proc p).sz + n) := by omega
  obtain ⟨sz, m, S, hrun, hS, hbeside, hkeep, hsat⟩ := (uvmalloc_spec (show PTE_W < 2 ^ 10 by decide) rfl hle).keeps hs
  have hvm : vm (uvmalloc (s.proc p).pagetable (s.proc p).sz (u64OfInt ((s.proc p).sz + n)) PTE_W) s =
      .ok (sz, s.withMem m) := by rw [vm, hrun]
  rw [growproc, Code.get_bind, if_pos hn, Code.bind_ok hvm]
  split
  next h0 =>
    refine ⟨-1, s.withMem m, rfl, .inr ⟨rfl, rfl, fun q hq => ?_⟩⟩
    by_cases hqp : q = p
    · subst hqp
      rw [Allocated, if_pos h0] at hsat
      exact (sat_pageMap hsat).trans (sat_pageMap hs).symm
    · exact beside_pageMap hqp hq hbeside hS hkeep
  next h0 =>
    rw [Allocated, if_neg h0, World.sat_ex_add] at hsat
    obtain ⟨x, hx⟩ := hsat
    rw [add_assoc, World.sat_fact_add] at hx
    refine ⟨0, _, rfl, .inl ⟨rfl, ?_⟩⟩
    simp [hx.1.1, hu]

theorem shrink_exact (h : Inv K s) (hp : (s.proc p).state ≠ .UNUSED) {n : Int} (hn : n < 0)
    (h0 : 0 ≤ (s.proc p).sz + n) : ∃ s', growproc p n s = .ok (0, s') ∧
      ((s'.proc p).sz : Int) = (s.proc p).sz + n := by
  have hsz := h.sz_le hp
  rw [show PGSIZE = 4096 from rfl] at hsz
  have hu : (u64OfInt ((s.proc p).sz + n) : Int) = (s.proc p).sz + n := u64OfInt_of_nonneg h0 (by omega)
  obtain ⟨leaf, data, hs⟩ := h.space hp
  have hle : u64OfInt ((s.proc p).sz + n) ≤ (s.proc p).sz := by omega
  obtain ⟨sz, m, hrun, hsat⟩ := uvmdealloc_spec rfl hle _ _ hs
  rw [add_assoc, World.sat_fact_add] at hsat
  have hvm : vm (uvmdealloc (s.proc p).pagetable (s.proc p).sz (u64OfInt ((s.proc p).sz + n))) s =
      .ok (sz, s.withMem m) := by rw [vm, hrun]
  rw [growproc, Code.get_bind, if_neg (by omega), if_pos hn, Code.bind_ok hvm]
  refine ⟨_, rfl, ?_⟩
  simp [hsat.1, hu]

/-- A request for less than nothing wraps to a size above the old one, which uvmdealloc leaves alone. -/
theorem shrink_wraps (h : Inv K s) (hp : (s.proc p).state ≠ .UNUSED) {n : Int} (hlt : -2 ^ 31 ≤ n)
    (h0 : (s.proc p).sz + n < 0) : ∃ s', growproc p n s = .ok (0, s') ∧ (s'.proc p).sz = (s.proc p).sz := by
  have hsz := h.sz_le hp
  rw [show PGSIZE = 4096 from rfl] at hsz
  have hle : (s.proc p).sz ≤ u64OfInt ((s.proc p).sz + n) := by
    rw [u64OfInt]
    omega
  have hvm : vm (uvmdealloc (s.proc p).pagetable (s.proc p).sz (u64OfInt ((s.proc p).sz + n))) s =
      .ok ((s.proc p).sz, s) := by
    rw [vm, uvmdealloc, if_pos hle]
    rfl
  rw [growproc, Code.get_bind, if_neg (by omega), if_pos (by omega), Code.bind_ok hvm]
  exact ⟨_, rfl, by simp⟩

theorem sysSbrk_eq {a : Nat} {r : Int} {s' : Sys} (h : growproc p (argint a) s = .ok (r, s')) :
    sysSbrk p a s = .ok (if r < 0 then -1 else ((s.proc p).sz : Int), s') := by
  rw [sysSbrk, Code.get_bind, Code.bind_ok h]
  split <;> rfl

/-- **sbrk moves the break by what was asked, unless it is asked for less than nothing.** In every state between
system calls, and whichever allocations are refused, sbrk keeps its promise exactly if the new size would not be
negative. -/
theorem sbrk_exact_iff (h : Reach step (Booted K) s) (hp : (s.proc p).state ≠ .UNUSED) (fails : Nat → Bool) (a : Nat) :
    SbrkExact (s.withMem (s.mem.withFails fails)) p a ↔ 0 ≤ (s.proc p).sz + argint a := by
  have hi := (inv_of_reach h).withFails fails
  have hlt := argint_lt a
  refine ⟨fun hex => ?_, fun h0 => ?_⟩
  · by_contra hneg
    obtain ⟨s', hrun, -⟩ := shrink_wraps hi hp hlt.1 (lt_of_not_ge hneg)
    obtain ⟨r, s₂, hrun', -, -, hr⟩ := hex
    rw [sysSbrk_eq hrun, if_neg (by decide)] at hrun'
    cases hrun'
    have : ((s.proc p).sz : Int) = -1 := hr (lt_of_not_ge hneg)
    omega
  · rcases lt_trichotomy (argint a) 0 with hn | hn | hn
    · obtain ⟨s', hrun, hsz⟩ := shrink_exact hi hp hn h0
      exact ⟨_, s', sysSbrk_eq hrun, fun _ => ⟨hsz, rfl⟩, fun hr => absurd hr (by simp),
        fun hneg => absurd hneg (not_lt.mpr h0)⟩
    · have hrun : growproc p (argint a) (s.withMem (s.mem.withFails fails)) =
          .ok (0, s.withMem (s.mem.withFails fails)) := by
        rw [hn]
        rfl
      refine ⟨_, _, sysSbrk_eq hrun, fun _ => ⟨by simp [hn], rfl⟩, fun hr => absurd hr (by simp),
        fun hneg => absurd hneg (not_lt.mpr h0)⟩
    · obtain ⟨r, s', hrun, ⟨rfl, hsz⟩ | ⟨rfl, hsz, hmap⟩⟩ := grow_exact hi hp hn hlt.2
      · exact ⟨_, s', sysSbrk_eq hrun, fun _ => ⟨hsz, rfl⟩, fun hr => absurd hr (by simp),
          fun hneg => absurd hneg (not_lt.mpr h0)⟩
      · exact ⟨_, s', sysSbrk_eq hrun, fun hr => absurd rfl hr, fun _ => ⟨hsz, hmap⟩,
          fun hneg => absurd hneg (not_lt.mpr h0)⟩

/-- The second process of the demo has one page. -/
def demoPage (s : Sys) : Bool :=
  (s.proc ⟨1, one_lt_NPROC⟩).state = .RUNNABLE ∧ (s.proc ⟨1, one_lt_NPROC⟩).sz = PGSIZE

theorem demo_page : ∃ s, demo = some s ∧ demoPage s = true := by
  have hany : demo.any demoPage = true := by decide +kernel
  exact (Option.any_eq_true _ _).mp hany

theorem sbrk_exact_iff_demo : ∃ s, demo = some s ∧
    SbrkExact (s.withMem (s.mem.withFails fun n => n == 1)) ⟨1, by decide⟩ (8 * PGSIZE) := by
  obtain ⟨s, hs, hd⟩ := demo_page
  have hlive : (s.proc ⟨1, by decide⟩).state ≠ .UNUSED := by
    rw [(of_decide_eq_true hd).1]
    decide
  refine ⟨s, hs, (sbrk_exact_iff (demo_reach hs) hlive _ _).mpr ?_⟩
  rw [(of_decide_eq_true hd).2]
  decide

/-- Asked to give up two pages, a process with one keeps it and is told of no failure. -/
theorem sbrk_below_zero : ∃ s, demo = some s ∧ (s.proc ⟨1, by decide⟩).sz = PGSIZE ∧ argint (2 ^ 64 - 2 * PGSIZE) = -8192 ∧
    ∃ s', sysSbrk ⟨1, by decide⟩ (2 ^ 64 - 2 * PGSIZE) s = .ok (PGSIZE, s') ∧ (s'.proc ⟨1, by decide⟩).sz = PGSIZE := by
  obtain ⟨s, hs, hd⟩ := demo_page
  have hsz := (of_decide_eq_true hd).2
  have hlive : (s.proc ⟨1, by decide⟩).state ≠ .UNUSED := by
    rw [(of_decide_eq_true hd).1]
    decide
  obtain ⟨s', hrun, hsz'⟩ := shrink_wraps (p := ⟨1, by decide⟩) (n := argint (2 ^ 64 - 2 * PGSIZE))
    (inv_of_reach (demo_reach hs)) hlive (by decide) (by rw [hsz]; decide)
  refine ⟨s, hs, hsz, by decide, s', ?_, hsz'.trans hsz⟩
  rw [sysSbrk_eq hrun, hsz]
  rfl

end Sys

end Xv6
