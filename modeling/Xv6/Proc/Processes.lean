/-
The process table. A process in use has a trapframe page and an address space of its
size, mapped by its page table; an unused one has nothing. With the file table and the
pages of the kernel this accounts for all of memory (`Inv`). Every function of proc.c and
every system call over it returns, and keeps the account, whichever allocations fail.
-/
import Xv6.Proc.Files

namespace Xv6

open Lib Lib.Own Mem

/-! ## Address spaces by their size alone -/

namespace AnySpace

variable {K : Layout} {root tf sz newsz : Nat}

theorem uvmalloc_spec {xperm : Nat} (hx : xperm < 2 ^ 10) :
    Triple (world K) (AnySpace K root tf sz) (uvmalloc root sz newsz xperm) fun r =>
      if r = 0 then AnySpace K root tf sz else AnySpace K root tf r := by
  refine .ex fun p => ?_
  by_cases hlt : newsz < sz
  · rw [uvmalloc, if_pos hlt]
    refine .ret ?_
    rw [if_neg (by omega)]
    exact le_ex p le_rfl
  · refine (Xv6.uvmalloc_spec hx rfl (by omega)).conseq le_rfl fun r => ?_
    rw [Allocated]
    split
    · exact le_ex p le_rfl
    · exact ex_le fun q => fact_add_le fun hq => hq.1 ▸ le_ex q le_rfl

theorem uvmdealloc_spec :
    Triple (world K) (AnySpace K root tf sz) (uvmdealloc root sz newsz) fun r => AnySpace K root tf r := by
  refine .ex fun p => ?_
  by_cases hge : newsz ≥ sz
  · rw [uvmdealloc, if_pos hge]
    exact .ret (le_ex p le_rfl)
  · refine (Xv6.uvmdealloc_spec rfl (by omega)).conseq le_rfl fun r => fact_add_le fun hr => ?_
    subst hr
    exact le_ex (_, _) le_rfl

theorem procFreepagetable_spec :
    Triple (world K) (AnySpace K root tf sz) (procFreepagetable root sz) fun _ => 0 :=
  .ex fun _ => Xv6.procFreepagetable_spec rfl

theorem procPagetable_spec (htf : tf ∈ K.pages) :
    Triple (world K) 0 (procPagetable tf) fun r => if r = 0 then 0 else AnySpace K r tf 0 := by
  refine (Xv6.procPagetable_spec htf).conseq le_rfl fun r => ?_
  split
  · exact le_rfl
  · exact ex_le fun leaf => le_ex (leaf, _) le_rfl

end AnySpace

/-- A process with other descriptors. -/
def Proc.withFiles (x : Proc) (o : Fin NOFILE → Option (Fin NFILE)) : Proc := { x with ofile := o }

namespace Sys

/-- The memory of a process in use. -/
def userMem (K : Layout) (trapframe pagetable sz : Nat) : Own Nat Page :=
  page trapframe + AnySpace K pagetable trapframe sz

def procMem (K : Layout) (x : Proc) : Own Nat Page :=
  if x.state = .UNUSED then 0 else userMem K x.trapframe x.pagetable x.sz

/-- What changes the address space leaves the trapframe. -/
theorem userMem_triple {α : Type} {K : Layout} {tf root sz : Nat} {c : Code Mem α} {Q : α → Own Nat Page}
    (h : Triple (world K) (AnySpace K root tf sz) c Q) : Triple (world K) (userMem K tf root sz) c fun a => page tf + Q a :=
  (h.frame (page tf)).conseq (add_comm _ _).le fun _ => (add_comm _ _).le

/-- What reads and writes the trapframe leaves the address space. -/
theorem userMem_trapframe {α : Type} {K : Layout} {tf root sz : Nat} {c : Code Mem α}
    (h : Triple (world K) (page tf) c fun _ => page tf) : Triple (world K) (userMem K tf root sz) c fun _ => userMem K tf root sz :=
  h.frame (AnySpace K root tf sz)

/-- The memory of a new process, copied from `leaf` and `data`. -/
def childMem (K : Layout) (trapframe pagetable sz : Nat) (leaf : Nat → Nat) (data : Nat → Page) : Own Nat Page :=
  page trapframe + CopyOf K pagetable trapframe (pagesBelow sz) leaf data

theorem childMem_le {K : Layout} {tf root sz : Nat} {leaf : Nat → Nat} {data : Nat → Page} :
    childMem K tf root sz leaf data ≤ userMem K tf root sz :=
  add_le_add_right (ex_le fun p => fact_add_le fun _ => le_ex p le_rfl) _

/-- The parent's memory `S` is copied, and left as it is. -/
theorem userMem_copy {K : Layout} {tf root sz tf' new : Nat} {leaf : Nat → Nat} {data : Nat → Page} {ram₀ : Nat → Page}
    {S : Multiset Nat} (h : (page tf + Space K root tf (pagesBelow sz) leaf data).holds ram₀ S) :
    Triple (world K) (asIs ram₀ S + userMem K tf' new 0) (uvmcopy root new sz) fun r =>
      asIs ram₀ S + if r = 0 then childMem K tf' new sz leaf data else fact (r = -1) + userMem K tf' new 0 := by
  obtain ⟨S₁, S₂, rfl, -, hold⟩ := h
  rw [userMem, childMem, ← add_assoc, add_comm, AnySpace, ex_add]
  refine .ex fun q => ?_
  have hcopy : Triple (world K) (asIs ram₀ S₂ + Space K new tf' 0 q.1 q.2) (uvmcopy root new sz) _ :=
    uvmcopy_space_spec hold rfl
  rw [asIs_add]
  refine (hcopy.frame (asIs ram₀ S₁ + page tf')).conseq (le_of_eq ?_) fun r => ?_
  · rw [show pagesBelow 0 = 0 from rfl]
    abel
  · rw [show ∀ A B C D : Own Nat Page, A + B + (C + D) = C + A + (D + B) from fun A B C D => by abel]
    refine add_le_add_right ?_ _
    split
    · exact le_rfl
    · rw [add_left_comm]
      exact add_le_add_right (add_le_add_right (show _ ≤ AnySpace K new tf' 0 from le_ex q le_rfl) _) _

/-- An unused process has nothing, and one that has exited has no files. -/
structure ProcWf (x : Proc) : Prop where
  unused : x.state = .UNUSED → x.trapframe = 0 ∧ x.pagetable = 0 ∧ x.sz = 0
  closed : x.state = .UNUSED ∨ x.state = .ZOMBIE → ∀ fd, x.ofile fd = none

/-- The memory of all processes, and of the kernel. -/
def allMem (K : Layout) (s : Sys) : Own Nat Page := ∑ p, procMem K (s.proc p) + argPages s.kernelPages

@[simp] theorem allMem_withMem (K : Layout) (s : Sys) (m : Mem) : allMem K (s.withMem m) = allMem K s := by
  rw [allMem, allMem, withMem_proc, withMem_kernelPages]

/-- The same without one process. -/
def restMem (K : Layout) (s : Sys) (p : Fin NPROC) : Own Nat Page :=
  ∑ q ∈ Finset.univ.erase p, procMem K (s.proc q) + argPages s.kernelPages

/-- **The invariant between system calls.** -/
structure Inv (K : Layout) (s : Sys) : Prop where
  files : Files K s (refsOf s.proc) (allMem K s)
  procs : ∀ p, ProcWf (s.proc p)

variable {K : Layout} {s s' : Sys} {p : Fin NPROC} {l : Multiset (Fin NFILE)} {R : Own Nat Page}

theorem allMem_eq (K : Layout) (s : Sys) (p : Fin NPROC) : allMem K s = procMem K (s.proc p) + restMem K s p := by
  rw [allMem, restMem, ← Finset.add_sum_erase _ _ (Finset.mem_univ p), add_assoc]

theorem procMem_live {x : Proc} (h : x.state ≠ .UNUSED) : procMem K x = userMem K x.trapframe x.pagetable x.sz := if_neg h

theorem procMem_unused {x : Proc} (h : x.state = .UNUSED) : procMem K x = 0 := if_pos h

/-- The account of a process in use. -/
theorem Inv.live (h : Inv K s) (hp : (s.proc p).state ≠ .UNUSED) :
    Files K s (refsOf s.proc)
      (userMem K (s.proc p).trapframe (s.proc p).pagetable (s.proc p).sz + restMem K s p) := by
  rw [← procMem_live hp, ← allMem_eq]
  exact h.files

/-- Back to the invariant after a change of one process. -/
theorem Inv.of_update {x : Proc} (h : Inv K s) (hf : Files K s' (refsOf s'.proc) (procMem K x + restMem K s p))
    (hp : s'.proc = Function.update s.proc p x) (hk : s'.kernelPages = s.kernelPages) (hx : ProcWf x) : Inv K s' := by
  have hall : allMem K s' = procMem K x + restMem K s p := by
    rw [allMem, hp, hk, sum_apply_update (procMem K), restMem, add_assoc]
  refine ⟨hall ▸ hf, fun q => ?_⟩
  rw [hp]
  by_cases hq : q = p
  · subst hq
    rwa [Function.update_self]
  · rw [Function.update_of_ne hq]
    exact h.procs q

/-- The same when the process keeps its descriptors. -/
theorem Inv.of_update_same {x : Proc} (h : Inv K s) (hf : Files K s' (refsOf s.proc) (procMem K x + restMem K s p))
    (hp : s'.proc = Function.update s.proc p x) (hk : s'.kernelPages = s.kernelPages) (hx : ProcWf x)
    (ho : x.ofile = (s.proc p).ofile) : Inv K s' := by
  refine h.of_update ?_ hp hk hx
  rw [hp, refsOf_congr ho]
  exact hf

/-! ## proc.c -/

/-- An entry of the process table after freeproc. -/
def freed (x : Proc) : Proc := { x with
  trapframe := 0, pagetable := 0, sz := 0, pid := 0, parent := none, name := [], killed := false, xstate := 0, state := .UNUSED }

/-- What freeproc is given to free. -/
def freeing (K : Layout) (x : Proc) : Own Nat Page :=
  (if x.trapframe = 0 then 0 else page x.trapframe) +
  (if x.pagetable = 0 then 0 else ex fun tf => AnySpace K x.pagetable tf x.sz)

theorem freeproc_spec (h : Files K s l (freeing K (s.proc p) + R)) : (freeproc p).Returns s fun _ s' =>
    s'.proc = Function.update s.proc p (freed (s.proc p)) ∧ s'.initproc = s.initproc ∧
      s'.kernelPages = s.kernelPages ∧ Files K s' l R := by
  rw [freeproc]
  refine .get ?_
  dsimp only
  refine h.when_bind kfree_spec ((if (s.proc p).pagetable ≠ 0 then
    ex fun tf => AnySpace K (s.proc p).pagetable tf (s.proc p).sz else 0) + R) ?_ fun m hm => ?_
  · rw [freeing, add_assoc, ite_not, ite_not]
  · refine .modify ?_
    have hm' : Files K ((s.withMem m).updProc p fun x => { x with trapframe := 0 }) l _ := hm.congr rfl rfl
    refine hm'.when_bind (.ex fun tf => AnySpace.procFreepagetable_spec) R le_rfl fun m' h' => ?_
    refine ⟨(), _, rfl, ?_, rfl, rfl, h'.congr rfl rfl⟩
    simp [freed]

/-- What allocproc leaves: the table as it was, but for an unused entry, or a new process of size 0. -/
def Allocproc (K : Layout) (s : Sys) (l : Multiset (Fin NFILE)) (R : Own Nat Page) (r : Option (Fin NPROC)) (s' : Sys) :
    Prop :=
  s'.initproc = s.initproc ∧ s'.kernelPages = s.kernelPages ∧
  match r with
  | none => Files K s' l R ∧ (s'.proc = s.proc ∨
      ∃ q, (s.proc q).state = .UNUSED ∧ s'.proc = Function.update s.proc q (freed (s.proc q)))
  | some p => (s.proc p).state = .UNUSED ∧ ∃ x : Proc, s'.proc = Function.update s.proc p x ∧ x.state ≠ .UNUSED ∧
      x.sz = 0 ∧ x.ofile = (s.proc p).ofile ∧ Files K s' l (userMem K x.trapframe x.pagetable 0 + R)

/-- allocproc's way back. -/
theorem allocproc_undo {s1 : Sys} {y : Proc} (hun : (s.proc p).state = .UNUSED) (hp : s1.proc = Function.update s.proc p y)
    (hy : freed y = freed (s.proc p)) (hi : s1.initproc = s.initproc) (hk : s1.kernelPages = s.kernelPages)
    (h : Files K s1 l (freeing K y + R)) :
    (freeproc p >>= fun _ => pure none).Returns s1 (Allocproc K s l R) := by
  have hy1 : s1.proc p = y := by rw [hp, Function.update_self]
  refine .bind (freeproc_spec (K := K) (hy1.symm ▸ h)) fun _ s' h' => .pure ?_
  obtain ⟨hp', hi', hk', hf'⟩ := h'
  refine ⟨hi'.trans hi, hk'.trans hk, hf', .inr ⟨p, hun, ?_⟩⟩
  rw [hp', hy1, hp, Function.update_idem, hy]

theorem allocpid_spec : allocpid.Returns s fun pid s' => pid = s.nextpid ∧ s' = { s with nextpid := i32 (s.nextpid + 1) } :=
  ⟨_, _, rfl, rfl, rfl⟩

theorem allocproc_spec (h : Files K s l R) (hwf : ∀ p, ProcWf (s.proc p)) :
    allocproc.Returns s (Allocproc K s l R) := by
  rw [allocproc]
  refine .get ?_
  split
  · exact .pure ⟨rfl, rfl, h, .inl rfl⟩
  · next p hp =>
    have hun : (s.proc p).state = .UNUSED := by simpa using List.find?_some hp
    obtain ⟨htf, hpt, hsz⟩ := (hwf p).unused hun
    refine .bind allocpid_spec fun pid s0 h0 => ?_
    obtain ⟨rfl, rfl⟩ := h0
    refine .modify ?_
    set s1 : Sys := ({ s with nextpid := i32 (s.nextpid + 1) } : Sys).updProc p
      fun x => { x with pid := s.nextpid, state := .USED } with hs1
    have h1 : Files K s1 l R := h.congr rfl rfl
    refine h1.vm_bind kalloc_spec R (zero_add R).symm.le fun trapframe m h2 => .modify ?_
    split
    · next h0 =>
      rw [if_pos h0, zero_add] at h2
      refine allocproc_undo (p := p) (y := { s.proc p with pid := s.nextpid, state := .USED, trapframe }) hun ?_ rfl rfl rfl
        ((h2.mono ?_).congr rfl rfl)
      · simp [hs1]
      · rw [freeing, if_pos h0, if_pos hpt, zero_add, zero_add]
    · next htf0 =>
      rw [if_neg htf0] at h2
      have h3 : Files K ((s1.withMem m).updProc p fun x => { x with trapframe }) l (cell trapframe (Buffer.fill 5) + R) :=
        h2.congr rfl rfl
      have hmem : trapframe ∈ K.pages := by
        have hs := h2.sat
        rw [add_left_comm] at hs
        exact sat_cell_mem hs
      refine h3.vm_bind (AnySpace.procPagetable_spec hmem) _ (zero_add _).symm.le fun pagetable m' h4 => .modify ?_
      split
      · next h0 =>
        rw [if_pos h0, zero_add] at h4
        refine allocproc_undo (p := p) (y := { s.proc p with pid := s.nextpid, state := .USED, trapframe, pagetable }) hun ?_
          rfl rfl rfl ((h4.mono ?_).congr rfl rfl)
        · simp [hs1]
        · rw [freeing, if_neg htf0, if_pos h0, add_zero]
          exact add_le_add_left cell_le_page R
      · next hpt0 =>
        rw [if_neg hpt0] at h4
        refine .pure ⟨rfl, rfl, hun, { s.proc p with pid := s.nextpid, state := .USED, trapframe, pagetable }, ?_, ?_, hsz, rfl,
          (h4.mono ?_).congr rfl rfl⟩
        · simp [hs1]
        · exact fun h => by cases h
        · rw [userMem, ← add_assoc, add_comm (AnySpace _ _ _ _)]
          exact add_le_add_left (add_le_add_left cell_le_page _) _

/-- The invariant, and process `p` is still there. -/
def Kept (K : Layout) (p : Fin NPROC) (s : Sys) : Prop := Inv K s ∧ (s.proc p).state ≠ .UNUSED

/-- Back to the invariant after a change of the caller's memory. -/
theorem Inv.kept {x : Proc} (h : Inv K s)
    (hf : Files K s' (refsOf s.proc) (userMem K x.trapframe x.pagetable x.sz + restMem K s p))
    (hp : s'.proc = Function.update s.proc p x) (hk : s'.kernelPages = s.kernelPages) (hst : (s.proc p).state ≠ .UNUSED)
    (hxst : x.state = (s.proc p).state) (ho : x.ofile = (s.proc p).ofile) : Kept K p s' := by
  have hx : x.state ≠ .UNUSED := hxst ▸ hst
  refine ⟨h.of_update_same ((procMem_live (K := K) hx).symm ▸ hf) hp hk ⟨fun h0 => absurd h0 hx, fun h0 => ?_⟩ ho, ?_⟩
  · rw [ho]
    exact (h.procs p).closed (hxst ▸ h0)
  · rw [hp, Function.update_self]
    exact hx

theorem growproc_kept {n : Int} (h : Inv K s) (hp : (s.proc p).state ≠ .UNUSED) :
    (growproc p n).Returns s fun _ s' => Kept K p s' := by
  have hf := h.live hp
  have hsame (m : Mem) (hm : Files K (s.withMem m) (refsOf s.proc)
      (userMem K (s.proc p).trapframe (s.proc p).pagetable (s.proc p).sz + restMem K s p)) : Kept K p (s.withMem m) :=
    h.kept hm (Function.update_eq_self p s.proc).symm rfl hp rfl rfl
  rw [growproc]
  refine .get ?_
  dsimp only
  split
  · refine hf.vm_bind (userMem_triple (AnySpace.uvmalloc_spec (by decide))) (restMem K s p) le_rfl fun sz m hm => ?_
    split
    · next h0 =>
      rw [if_pos h0] at hm
      exact .pure (hsame m hm)
    · next h0 =>
      rw [if_neg h0] at hm
      exact .modify (.pure (h.kept (x := { s.proc p with sz }) (hm.congr rfl rfl) rfl rfl hp rfl rfl))
  · split
    · refine hf.vm_bind (userMem_triple AnySpace.uvmdealloc_spec) (restMem K s p) le_rfl fun sz m hm => ?_
      exact .modify (.pure (h.kept (x := { s.proc p with sz }) (hm.congr rfl rfl) rfl rfl hp rfl rfl))
    · exact .pure ⟨h, hp⟩

/-! ## fork -/

/-- The child's descriptors while fork copies the parent's. -/
theorem forkFiles_spec {np : Fin NPROC} {fds : List (Fin NOFILE)} {s : Sys} (h : Files K s (refsOf s.proc) R)
    (hnd : fds.Nodup) (hno : ∀ fd ∈ fds, (s.proc np).ofile fd = none) :
    (forkFiles p np fds).Returns s fun _ s' => ∃ o, s'.proc = Function.update s.proc np ((s.proc np).withFiles o) ∧
      s'.initproc = s.initproc ∧ s'.kernelPages = s.kernelPages ∧ Files K s' (refsOf s'.proc) R := by
  induction fds generalizing s with
  | nil => exact .pure ⟨(s.proc np).ofile, (Function.update_eq_self np s.proc).symm, rfl, rfl, h⟩
  | cons fd fds ih =>
    rw [List.nodup_cons] at hnd
    rw [forkFiles]
    refine .get ?_
    split
    · exact ih h hnd.2 fun fd' hfd' => hno fd' (List.mem_cons_of_mem fd hfd')
    · next f hf =>
      refine .bind (filedup_spec h (h.ref_pos (mem_refsOf hf))) fun _ s1 h1 => .modify ?_
      obtain ⟨ho, h1⟩ := h1
      set s2 := s1.updProc np (·.setFd fd (some f)) with hs2
      have hp2 : s2.proc = Function.update s.proc np
          ((s.proc np).setFd fd (some f)) := by
        rw [hs2, updProc_proc, ho.proc]
      have h2 : Files K s2 (refsOf s2.proc) R := by
        rw [hp2, refsOf_open (hno fd List.mem_cons_self)]
        exact h1.congr rfl rfl
      have hno2 : ∀ fd' ∈ fds, (s2.proc np).ofile fd' = none := by
        intro fd' hfd'
        have hne : fd' ≠ fd := fun he => hnd.1 (he ▸ hfd')
        rw [hp2, Function.update_self, Proc.setFd_ofile, Function.update_of_ne hne]
        exact hno fd' (List.mem_cons_of_mem fd hfd')
      refine (ih h2 hnd.2 hno2).mono fun _ s' h' => ?_
      obtain ⟨o, hp', hi', hk', hf'⟩ := h'
      refine ⟨o, ?_, hi'.trans ho.initproc, hk'.trans ho.kernelPages, hf'⟩
      rw [hp', hp2, Function.update_idem, Function.update_self]
      rfl

/-! Code that reads and writes fields of a page keeps it. -/

theorem storeBytes_page {tf : Nat} {data : List UInt8} :
    Triple (world K) (page tf) (storeBytes tf data) fun _ => page tf :=
  .ex fun _ => .assume (fun _ _ h => PGROUNDDOWN_page (sat_cell_mem h)) fun h =>
    (modifyPage_spec _ h).conseq le_rfl fun _ => cell_le_page

theorem store_page {tf off n v : Nat} (ho : off < PGSIZE) :
    Triple (world K) (page tf) (store (tf + off) n v) fun _ => page tf :=
  .ex fun _ => (store_field_spec ho).conseq le_rfl fun _ => cell_le_page

theorem sat_anySpace_mem {root tf sz : Nat} {m : Mem} (h : (world K).Sat m (AnySpace K root tf sz + R)) : root ∈ K.pages := by
  rw [AnySpace, World.sat_ex_add] at h
  obtain ⟨q, hq⟩ := h
  rw [Space, add_assoc, World.sat_fact_add, add_assoc] at hq
  exact sat_PT_mem hq.2

/-- A process that has its memory may be given to freeproc. -/
theorem Files.freeing {x : Proc} (h : Files K s l (userMem K x.trapframe x.pagetable x.sz + R)) :
    Files K s l (freeing K x + R) := by
  have htf : x.trapframe ∈ K.pages := by
    have hs := h.sat
    rw [userMem, add_assoc, add_left_comm] at hs
    exact sat_page_mem hs
  have hpt : x.pagetable ∈ K.pages := by
    have hs := h.sat
    rw [userMem, add_comm (page _), add_assoc, add_left_comm] at hs
    exact sat_anySpace_mem hs
  rw [Sys.freeing, if_neg (Layout.ne_zero_of_mem htf), if_neg (Layout.ne_zero_of_mem hpt)]
  have hle : AnySpace K x.pagetable x.trapframe x.sz ≤ ex fun tf => AnySpace K x.pagetable tf x.sz := le_ex _ le_rfl
  exact h.mono (add_le_add_left (add_le_add_right hle _) _)

/-- Freeing a process that has no files. -/
theorem Inv.freed {x : Proc} (h : Inv K s) (hf : Files K s' (refsOf s.proc) (restMem K s p))
    (hp : s'.proc = Function.update s.proc p (freed x)) (hk : s'.kernelPages = s.kernelPages)
    (hno : ∀ fd, (s.proc p).ofile fd = none) (ho : x.ofile = (s.proc p).ofile) : Inv K s' := by
  refine h.of_update_same ?_ hp hk ⟨fun _ => ⟨rfl, rfl, rfl⟩, fun _ fd => ?_⟩ ho
  · rw [procMem_unused (x := Sys.freed x) rfl, zero_add]
    exact hf
  · exact (congrFun ho fd).trans (hno fd)

theorem restMem_unused (h : (s.proc p).state = .UNUSED) : restMem K s p = allMem K s := by
  rw [allMem_eq K s p, procMem_unused h, zero_add]

/-- What fork leaves beside the memory `R` there was: the table as it was, but for an unused entry, or a new process
with a copy of the caller's memory, which is `leaf` and `data`. -/
def Forked (K : Layout) (s : Sys) (p : Fin NPROC) (leaf : Nat → Nat) (data : Nat → Page) (R : Own Nat Page) (r : Int)
    (s' : Sys) : Prop :=
  s'.kernelPages = s.kernelPages ∧
  ((r = -1 ∧ Files K s' (refsOf s.proc) R ∧ (s'.proc = s.proc ∨
      ∃ q x, (s.proc q).state = .UNUSED ∧ x.ofile = (s.proc q).ofile ∧ s'.proc = Function.update s.proc q (freed x))) ∨
    ∃ np x, (s.proc np).state = .UNUSED ∧ s'.proc = Function.update s.proc np x ∧ x.state = .RUNNABLE ∧
      x.sz = (s.proc p).sz ∧ Files K s' (refsOf s'.proc) (childMem K x.trapframe x.pagetable x.sz leaf data + R))

section

variable {leaf : Nat → Nat} {data : Nat → Page} {ram₀ : Nat → Page} {S : Multiset Nat}

/-- fork from where the child has its copy of the parent's memory. -/
theorem fork_finish {np : Fin NPROC} {s1 : Sys} {x : Proc} {name : List UInt8} {pid : Int} (hwf : ProcWf (s.proc np))
    (hnp : (s.proc np).state = .UNUSED) (hs1 : s1.proc = Function.update s.proc np x)
    (hk : s1.kernelPages = s.kernelPages) (ho : x.ofile = (s.proc np).ofile) (hsz : x.sz = (s.proc p).sz)
    (hf : Files K s1 (refsOf s.proc) (childMem K x.trapframe x.pagetable x.sz leaf data + R)) :
    (do forkFiles p np (List.finRange NOFILE)
        setProc np fun x => { x with name }
        setProc np fun x => { x with parent := some p }
        setProc np fun x => { x with state := .RUNNABLE }
        return pid).Returns s1 (Forked K s p leaf data R) := by
  have hf1 : Files K s1 (refsOf s1.proc) (childMem K x.trapframe x.pagetable x.sz leaf data + R) := by
    rwa [hs1, refsOf_congr ho]
  refine .bind (forkFiles_spec hf1 (List.nodup_finRange NOFILE) fun fd _ => ?_) fun _ s2 h2 => .modify (.modify (.modify (.pure ?_)))
  · rw [hs1, Function.update_self, ho]
    exact hwf.closed (.inl hnp) fd
  · obtain ⟨o, hs2, -, hk2, hf2⟩ := h2
    have hs2 : s2.proc = Function.update s.proc np (x.withFiles o) := by
      rw [hs2, hs1, Function.update_idem, Function.update_self]
    rw [updProc_updProc, updProc_updProc]
    refine ⟨hk2.trans hk, .inr ⟨np, { x.withFiles o with name, parent := some p, state := .RUNNABLE }, hnp, ?_, rfl, hsz, ?_⟩⟩
    · simp [hs2]
    · rw [refsOf_updProc]
      · exact hf2.congr rfl rfl
      · rfl

theorem loadBytes_trapframe {tf n : Nat} {P : Own Nat Page} (h : (page tf + P).holds ram₀ S)
    (hs : (world K).Sat s.mem (asIs ram₀ S + R)) :
    ∃ regs, vm (loadBytes tf n) s = .ok (regs, s) := by
  have hs := hs.mono (add_le_add_left (asIs_le h) _)
  rw [add_assoc] at hs
  have htf := sat_page_mem hs
  have hread := readPage_eq (K := K) (a := tf) (fun c => c.read (tf % PGSIZE) n) (by rwa [PGROUNDDOWN_page htf]) s.mem
  refine ⟨(s.mem.ram (PGROUNDDOWN tf)).read (tf % PGSIZE) n, ?_⟩
  rw [vm, loadBytes, hread]
  rfl

/-- fork returns, copies or gives back what it took, and leaves the caller's memory `S` as it is. -/
theorem fork_spec (hwf : ∀ q, ProcWf (s.proc q)) (hp : (s.proc p).state ≠ .UNUSED) (hS : (page (s.proc p).trapframe +
      Space K (s.proc p).pagetable (s.proc p).trapframe (pagesBelow (s.proc p).sz) leaf data).holds ram₀ S)
    (h : Files K s (refsOf s.proc) (asIs ram₀ S + R)) :
    (fork p).Returns s (Forked K s p leaf data (asIs ram₀ S + R)) := by
  rw [fork]
  refine .bind (allocproc_spec h hwf) fun r s1 h1 => ?_
  cases r with
  | none =>
    obtain ⟨-, hk, hf, hs⟩ := h1
    refine .pure ⟨hk, .inl ⟨rfl, hf, hs.imp_right fun ⟨q, hq, hs⟩ => ⟨q, s.proc q, hq, rfl, hs⟩⟩⟩
  | some np =>
    obtain ⟨-, hk, hnp, x, hs1, hx, hsz, ho, hf⟩ := h1
    have hne : p ≠ np := fun he => hp (he ▸ hnp)
    have hpr : s1.proc p = s.proc p := by rw [hs1, Function.update_of_ne hne]
    have hnpr : s1.proc np = x := by rw [hs1, Function.update_self]
    dsimp only
    refine .get (.get ?_)
    rw [hpr, hnpr]
    rw [← add_assoc, add_comm (userMem _ _ _ _)] at hf
    refine hf.vm_bind (userMem_copy hS) R le_rfl fun r m hm => ?_
    split
    · next hr =>
      rw [if_neg (by omega), add_assoc, add_left_comm, add_assoc] at hm
      have hm := hm.fact.2
      rw [← hsz] at hm
      refine .bind (freeproc_spec (K := K) (p := np) (hnpr ▸ hm.freeing)) fun _ s' h' => .pure ?_
      obtain ⟨hs', -, hk', hf'⟩ := h'
      rw [withMem_proc, hnpr, hs1, Function.update_idem] at hs'
      exact ⟨hk'.trans hk, .inl ⟨rfl, hf', .inr ⟨np, x, hnp, ho, hs'⟩⟩⟩
    · next hr =>
      refine .modify ?_
      have hr0 : r = 0 := by
        by_contra h0
        rw [if_neg h0, add_assoc, add_left_comm, add_assoc] at hm
        have := hm.fact.1
        omega
      rw [if_pos hr0, add_assoc] at hm
      have hm : Files K ((s1.withMem m).updProc np fun x => { x with sz := (s.proc p).sz }) (refsOf s.proc) _ :=
        hm.congr rfl rfl
      obtain ⟨regs, hregs⟩ := loadBytes_trapframe (n := trapframeSize) hS (by have := hm.sat; rwa [add_left_comm] at this)
      refine .step hregs ?_
      rw [add_left_comm] at hm
      refine hm.vm_bind (storeBytes_page.frame _) _ le_rfl fun _ m2 hm => ?_
      refine hm.vm_bind ((store_page (by decide)).frame _) _ le_rfl fun _ m3 hm => ?_
      refine fork_finish (x := { x with sz := (s.proc p).sz }) (hwf np) hnp ?_ hk ho rfl hm
      simp [hs1]

end

/-- The locations of a part of the account, as memory has them. -/
theorem Files.asIs {P : Own Nat Page} (h : Files K s l (P + R)) :
    ∃ S, P.holds s.mem.ram S ∧ Files K s l (Own.asIs s.mem.ram S + R) := by
  have hs := h.sat
  rw [add_left_comm] at hs
  obtain ⟨S, hP, hs⟩ := hs.asIs
  refine ⟨S, hP, h.table, ?_, h.refs⟩
  rw [add_left_comm]
  exact hs

theorem fork_kept (h : Inv K s) (hp : (s.proc p).state ≠ .UNUSED) : (fork p).Returns s fun _ s' => Kept K p s' := by
  obtain ⟨S, hS, hf⟩ := (h.live hp).asIs
  have hle : Own.asIs s.mem.ram S + restMem K s p ≤ allMem K s := by
    rw [allMem_eq K s p, procMem_live hp]
    exact add_le_add_left (asIs_le hS) _
  obtain ⟨S₁, S₂, rfl, h₁, q, h₂⟩ := hS
  have hS : (page (s.proc p).trapframe + Space K (s.proc p).pagetable (s.proc p).trapframe (pagesBelow (s.proc p).sz)
      q.1 q.2).holds s.mem.ram (S₁ + S₂) := ⟨S₁, S₂, rfl, h₁, h₂⟩
  refine (fork_spec h.procs hp hS hf).mono fun r s' h' => ?_
  obtain ⟨hk, ⟨-, hf, hs | ⟨q, x, hq, ho, hs⟩⟩ | ⟨np, x, hnp, hs, hx, -, hf⟩⟩ := h'
  · refine ⟨⟨?_, hs ▸ h.procs⟩, hs ▸ hp⟩
    rw [hs, allMem, hs, hk]
    exact hf.mono hle
  · have hne : p ≠ q := fun he => hp (he ▸ hq)
    refine ⟨h.freed (restMem_unused (K := K) hq ▸ hf.mono hle) hs hk ((h.procs q).closed (.inl hq)) ho, ?_⟩
    rw [hs, Function.update_of_ne hne]
    exact hp
  · have hne : p ≠ np := fun he => hp (he ▸ hnp)
    have hx' : x.state ≠ .UNUSED := fun h0 => by rw [hx] at h0; cases h0
    refine ⟨h.of_update (p := np) (x := x) ?_ hs hk ⟨fun h0 => absurd h0 hx', fun h0 => ?_⟩, ?_⟩
    · rw [procMem_live hx', restMem_unused hnp]
      exact hf.mono (add_le_add childMem_le hle)
    · rw [hx] at h0
      obtain h0 | h0 := h0 <;> cases h0
    · rw [hs, Function.update_of_ne hne]
      exact hp

/-! ## exit and wait -/

/-- The descriptors while exit closes them. -/
theorem closeFiles_spec {fds : List (Fin NOFILE)} {s : Sys} (h : Files K s (refsOf s.proc) R) :
    (closeFiles p fds).Returns s fun _ s' => ∃ o, s'.proc = Function.update s.proc p ((s.proc p).withFiles o) ∧
      (∀ fd, fd ∈ fds ∨ (s.proc p).ofile fd = none → o fd = none) ∧ s'.kernelPages = s.kernelPages ∧
      Files K s' (refsOf s'.proc) R := by
  induction fds generalizing s with
  | nil =>
    refine .pure ⟨(s.proc p).ofile, (Function.update_eq_self p s.proc).symm, fun fd hfd => ?_, rfl, h⟩
    exact hfd.resolve_left List.not_mem_nil
  | cons fd fds ih =>
    rw [closeFiles]
    refine .get ?_
    split
    · next hnone =>
      refine (ih h).mono fun _ s' h' => ?_
      obtain ⟨o, hp', ho, hk', hf'⟩ := h'
      refine ⟨o, hp', fun fd' hfd' => ho fd' ?_, hk', hf'⟩
      obtain hm | hn := hfd'
      · obtain rfl | hm := List.mem_cons.mp hm
        · exact .inr hnone
        · exact .inl hm
      · exact .inr hn
    · next f hf =>
      rw [← refsOf_close hf] at h
      refine .bind (fileclose_spec h) fun _ s1 h1 => .modify ?_
      obtain ⟨ho1, h1⟩ := h1
      set s2 := s1.updProc p (·.setFd fd none) with hs2
      have hp2 : s2.proc = Function.update s.proc p ((s.proc p).setFd fd none) := by
        rw [hs2, updProc_proc, ho1.proc]
      have h2 : Files K s2 (refsOf s2.proc) R := by
        rw [hp2]
        exact h1.congr rfl rfl
      refine (ih h2).mono fun _ s' h' => ?_
      obtain ⟨o, hp', ho, hk', hf'⟩ := h'
      refine ⟨o, ?_, fun fd' hfd' => ho fd' ?_, hk'.trans ho1.kernelPages, hf'⟩
      · rw [hp', hp2, Function.update_idem, Function.update_self]
        rfl
      · rw [hp2, Function.update_self, Proc.setFd_ofile]
        by_cases he : fd' = fd
        · subst he
          exact .inr (Function.update_self ..)
        · rw [Function.update_of_ne he]
          exact hfd'.imp_left fun hm => (List.mem_cons.mp hm).resolve_left he

/-- What of a process the account does not see may change. -/
theorem Inv.congr (h : Inv K s) (hm : s'.mem = s.mem) (hf : s'.file = s.file) (hk : s'.kernelPages = s.kernelPages)
    (hp : ∀ q, (s'.proc q).state = (s.proc q).state ∧ (s'.proc q).trapframe = (s.proc q).trapframe ∧
      (s'.proc q).pagetable = (s.proc q).pagetable ∧ (s'.proc q).sz = (s.proc q).sz ∧
      (s'.proc q).ofile = (s.proc q).ofile) : Inv K s' := by
  have hrefs : refsOf s'.proc = refsOf s.proc :=
    Finset.sum_congr rfl fun q _ => by rw [(hp q).2.2.2.2]
  have hall : allMem K s' = allMem K s := by
    rw [allMem, allMem, hk]
    refine congrArg (· + argPages s.kernelPages) (Finset.sum_congr rfl fun q _ => ?_)
    obtain ⟨h1, h2, h3, h4, -⟩ := hp q
    rw [procMem, procMem, h1, h2, h3, h4]
  refine ⟨?_, fun q => ⟨fun hst => ?_, fun hst => ?_⟩⟩
  · rw [hrefs, hall]
    exact h.files.congr hm hf
  · obtain ⟨h1, h2, h3, h4, -⟩ := hp q
    rw [h2, h3, h4]
    exact (h.procs q).unused (h1 ▸ hst)
  · obtain ⟨h1, -, -, -, h5⟩ := hp q
    rw [h5]
    exact (h.procs q).closed (h1 ▸ hst)

theorem reparent_inv (h : Inv K s) : (reparent p).Returns s fun _ s' =>
    Inv K s' ∧ (s'.proc p).state = (s.proc p).state ∧ (s'.proc p).ofile = (s.proc p).ofile := by
  refine ⟨(), _, rfl, h.congr rfl rfl rfl fun q => ?_, ?_, ?_⟩
  · dsimp only
    split
    · exact ⟨rfl, rfl, rfl, rfl, rfl⟩
    · exact ⟨rfl, rfl, rfl, rfl, rfl⟩
  · dsimp only
    split
    · rfl
    · rfl
  · dsimp only
    split
    · rfl
    · rfl

theorem exit_inv {status : Int} (h : Inv K s) (hp : (s.proc p).state ≠ .UNUSED) (hinit : s.initproc ≠ some p) :
    (exit p status).Returns s fun _ s' => Inv K s' := by
  rw [exit]
  refine .get ?_
  rw [if_neg hinit]
  refine .bind (closeFiles_spec h.files) fun _ s1 h1 => ?_
  obtain ⟨o, hp1, ho, hk1, hf1⟩ := h1
  have hno (fd : Fin NOFILE) : o fd = none := ho fd (.inl (List.mem_finRange fd))
  have hx : ((s.proc p).withFiles o).state ≠ .UNUSED := hp
  have h1 : Inv K s1 := by
    refine h.of_update ?_ hp1 hk1 ⟨fun h0 => absurd h0 hx, fun _ => hno⟩
    rw [procMem_live hx]
    have hall := allMem_eq K s p
    rw [procMem_live hp] at hall
    rw [hall] at hf1
    exact hf1
  refine .bind (reparent_inv (p := p) h1) fun _ s2 h2 => ?_
  obtain ⟨h2, hst2, hof2⟩ := h2
  rw [hp1, Function.update_self] at hst2 hof2
  have hp2 : (s2.proc p).state ≠ .UNUSED := hst2 ▸ hp
  refine ⟨(), _, rfl, h2.of_update_same (p := p) ?_ rfl rfl ⟨fun h0 => (by cases h0), fun _ fd => ?_⟩ rfl⟩
  · rw [procMem_live fun h0 => by cases h0]
    exact (h2.live hp2).congr rfl rfl
  · exact (congrFun hof2 fd).trans (hno fd)

/-- wait by a process that is running. -/
theorem wait_kept {addr : Nat} (h : Inv K s) (hp : (s.proc p).state = .RUNNABLE) :
    (wait p addr).Returns s fun _ s' => Kept K p s' := by
  have hlive : (s.proc p).state ≠ .UNUSED := by rw [hp]; decide
  rw [wait]
  refine .get ?_
  split
  · next q hq =>
    have hq : (s.proc q).parent = some p ∧ (s.proc q).state = .ZOMBIE := by simpa using List.find?_some hq
    have hne : p ≠ q := by
      rintro rfl
      rw [hp] at hq
      cases hq.2
    refine .bind (Q := fun _ s1 => ∃ m, s1 = s.withMem m ∧ Inv K s1) ?_ fun r s1 h1 => ?_
    · rw [waitCopyout]
      split
      · exact .pure ⟨s.mem, rfl, h⟩
      · refine .get ((h.live hlive).vm_returns (userMem_triple AnySpace.copyout_spec) _ le_rfl fun _ m hm => ⟨m, rfl, ?_⟩)
        exact (h.kept hm (Function.update_eq_self p s.proc).symm rfl hlive rfl rfl).1
    · obtain ⟨m, rfl, h1⟩ := h1
      split
      · exact .pure ⟨h1, hlive⟩
      · have hqlive : ((s.withMem m).proc q).state ≠ .UNUSED := by rw [withMem_proc, hq.2]; decide
        refine .bind (freeproc_spec (K := K) (h1.live hqlive).freeing) fun _ s' h' => .pure ?_
        obtain ⟨hs', -, hk', hf'⟩ := h'
        refine ⟨h1.freed hf' hs' hk' ((h1.procs q).closed (.inr hq.2)) rfl, ?_⟩
        rw [hs', Function.update_of_ne hne]
        exact hlive
  · split
    · exact .pure ⟨h, hlive⟩
    · exact .pure ⟨h, hlive⟩

theorem kill_kept {pid : Int} (h : Inv K s) (hp : (s.proc p).state ≠ .UNUSED) :
    (kill pid).Returns s fun _ s' => Kept K p s' := by
  rw [kill]
  refine .get ?_
  split
  · exact .pure ⟨h, hp⟩
  · next q hq =>
    by_cases hst : (s.proc q).state = .SLEEPING
    · have hlive : (s.proc q).state ≠ .UNUSED := by rw [hst]; decide
      set x : Proc := { s.proc q with killed := true, state := .RUNNABLE } with hx
      have hxl : x.state ≠ .UNUSED := fun h0 => by cases h0
      have hs' : (s.updProc q fun x => { x with killed := true, state := if x.state = .SLEEPING then .RUNNABLE else x.state }).proc =
          Function.update s.proc q x := by
        rw [updProc_proc, if_pos hst]
      refine .modify (.pure ⟨h.of_update_same (x := x) (p := q) ?_ hs' rfl ⟨fun h0 => absurd h0 hxl, fun h0 => ?_⟩ rfl, ?_⟩)
      · rw [procMem_live hxl]
        exact (h.live hlive).congr rfl rfl
      · obtain h0 | h0 := h0 <;> cases h0
      · rw [hs']
        by_cases he : p = q
        · subst he
          rw [Function.update_self]
          exact hxl
        · rw [Function.update_of_ne he]
          exact hp
    · have hs' (q' : Fin NPROC) : ((s.updProc q fun x =>
          { x with killed := true, state := if x.state = .SLEEPING then .RUNNABLE else x.state }).proc q').state =
            (s.proc q').state := by
        rw [updProc_proc]
        by_cases he : q' = q
        · subst he
          rw [Function.update_self, if_neg hst]
        · rw [Function.update_of_ne he]
      refine .modify (.pure ⟨h.congr rfl rfl rfl fun q' => ⟨hs' q', ?_⟩, (hs' p).symm ▸ hp⟩)
      rw [updProc_proc]
      by_cases he : q' = q
      · subst he
        rw [Function.update_self]
        exact ⟨rfl, rfl, rfl, rfl⟩
      · rw [Function.update_of_ne he]
        exact ⟨rfl, rfl, rfl, rfl⟩

end Sys

end Xv6
