/-
fork copies the caller's memory or leaves no trace. uvmcopy, whichever of its allocations
is refused, makes a table with the same virtual pages, flags and contents on pages of its
own, or gives back all it took but for table pages (`uvmcopy_outcome`); fork then frees
those and the trapframe. Seen from outside, a fork takes from the free list exactly what
the child owns, or nothing (`fork_outcome`), and changes no page in use.
-/
import Xv6.Proc.Memory
import Xv6.Vm.PageMap

namespace Xv6

open Lib Lib.Own Mem

/-! ## uvmcopy -/

/-- The physical pages of the first `n` virtual pages. -/
def firstPages (ram : Nat → Page) (root n : Nat) : Multiset Nat :=
  (Multiset.range n).map fun k => PTE2PA (leafAt ram 2 root k)

/-- What uvmcopy is given: in memory `m` the table `old` maps the pages below `sz`, each to a page of its own, and the
table `new` maps none of them; the pages `S` are used for something else, and what is left is free. -/
structure CopyInput (K : Layout) (m : Mem) (old new sz : Nat) (S : Multiset Nat) : Prop where
  sat : (world K).Sat m (PT 2 old (leafAt m.ram 2 old) +
    userPages (pagesBelow sz) (leafAt m.ram 2 old) (fun k => m.ram (PTE2PA (leafAt m.ram 2 old k))) +
      (PT 2 new (leafAt m.ram 2 new) + owns S))
  mapped : ∀ k < pagesBelow sz, Maps (leafAt m.ram 2 old k)
  unmapped : ∀ k < pagesBelow sz, leafAt m.ram 2 new k = 0

/-- What is in use besides the table `new`. -/
def inUse (m : Mem) (old sz : Nat) (S : Multiset Nat) : Multiset Nat :=
  tablePages m.ram 2 old + firstPages m.ram old (pagesBelow sz) + S

/-- The new table has the same pages below `sz` with the same flags, and others as before; its pages are fresh, no two
are one, and hold what the old ones hold. -/
structure CopyMade (m m' : Mem) (old new sz : Nat) (S : Multiset Nat) : Prop where
  flags : ∀ k < pagesBelow sz, PTE_FLAGS (leafAt m'.ram 2 new k) = PTE_FLAGS (leafAt m.ram 2 old k)
  rest : ∀ k, pagesBelow sz ≤ k → k < 512 ^ 3 → leafAt m'.ram 2 new k = leafAt m.ram 2 new k
  fresh : ∀ pg ∈ firstPages m'.ram new (pagesBelow sz), pg ∉ inUse m old sz S
  distinct : (firstPages m'.ram new (pagesBelow sz)).Nodup
  contents : ∀ k < pagesBelow sz,
    m'.ram (PTE2PA (leafAt m'.ram 2 new k)) = m.ram (PTE2PA (leafAt m.ram 2 old k))

/-- The new table maps what it mapped before, and what was allocated is free again or a table of it. -/
structure CopyUndone (m m' : Mem) (new : Nat) : Prop where
  leaves : ∀ k < 512 ^ 3, leafAt m'.ram 2 new k = leafAt m.ram 2 new k
  account : (m'.freeList : Multiset Nat) + tablePages m'.ram 2 new = m.freeList + tablePages m.ram 2 new

variable {K : Layout} {m : Mem} {old new sz root n : Nat} {leaf : Nat → Nat} {data : Nat → Page} {ram : Nat → Page}
  {S : Multiset Nat}

/-- A table and the pages it maps, as memory shows them. -/
theorem holds_pages (h : (PT 2 root leaf + userPages n leaf data).holds ram S) (hS : ∀ x ∈ S, x ∈ K.pages)
    (hn : n ≤ 512 ^ 3) : S = tablePages ram 2 root + firstPages ram root n ∧
      (∀ k < 512 ^ 3, leafAt ram 2 root k = leaf k) ∧ ∀ k < n, ram (PTE2PA (leaf k)) = data k := by
  obtain ⟨S₁, S₂, rfl, h₁, h₂⟩ := h
  simp only [Multiset.mem_add, or_imp, forall_and] at hS
  obtain ⟨rfl, hleaf⟩ := holds_PT h₁ hS.1
  have hfoot : Footprint ram {x | x ∈ K.pages} (userPages n leaf data) (∑ k ∈ Finset.Ico 0 n, {PTE2PA (leaf k)}) :=
    .sum fun k _ => .cell
  refine ⟨congrArg _ ?_, hleaf, fun k hk => ?_⟩
  · rw [hfoot S₂ hS.2 h₂, sum_singleton, firstPages, ← Finset.range_eq_Ico]
    refine Multiset.map_congr rfl fun k hk => ?_
    rw [hleaf k ((Finset.mem_range.mp hk).trans_le hn)]
  · rw [userPages_split hk] at h₂
    exact cell_value h₂

theorem CopyMade.of_holds {m' : Mem} {T F : Multiset Nat} {leaf' : Nat → Nat} {data' : Nat → Page}
    (hc : Copied (pagesBelow sz) (leafAt m.ram 2 old) (fun k => m.ram (PTE2PA (leafAt m.ram 2 old k)))
      (leafAt m.ram 2 new) leaf' data')
    (h : (PT 2 new leaf' + userPages (pagesBelow sz) leaf' data').holds m'.ram T) (hn : pagesBelow sz ≤ 512 ^ 3)
    (hT : ∀ x ∈ T, x ∈ K.pages) (hpages : (K.pages : Multiset Nat) = F + (inUse m old sz S + T)) :
    CopyMade m m' old new sz S := by
  obtain ⟨rfl, hleaf, hdata⟩ := holds_pages h hT hn
  have hnd : (F + (inUse m old sz S + (tablePages m'.ram 2 new + firstPages m'.ram new (pagesBelow sz)))).Nodup := by
    rw [← hpages]
    exact Multiset.coe_nodup.mpr K.nodup_pages
  simp only [Multiset.nodup_add, Multiset.disjoint_add_right] at hnd
  obtain ⟨-, ⟨-, ⟨-, hfirst, -⟩, -, hfresh⟩, -⟩ := hnd
  refine ⟨fun k hk => ?_, fun k hk hlt => ?_, fun pg hpg hin => ?_, hfirst, fun k hk => ?_⟩
  · rw [hleaf k (hk.trans_le hn), (hc.same k hk).1]
  · rw [hleaf k hlt, hc.above k hk]
  · exact Multiset.disjoint_left.mp hfresh hin hpg
  · rw [hleaf k (hk.trans_le hn), hdata k hk, (hc.same k hk).2]

/-- **uvmcopy copies all or nothing.** -/
theorem uvmcopy_outcome (h : CopyInput K m old new sz S) : ∃ r m', uvmcopy old new sz m = .ok (r, m') ∧
    (∀ pg ∈ inUse m old sz S, m'.ram pg = m.ram pg) ∧ (∀ k < 512 ^ 3, leafAt m'.ram 2 old k = leafAt m.ram 2 old k) ∧
    (r = 0 ∧ CopyMade m m' old new sz S ∨ r = -1 ∧ CopyUndone m m' new) := by
  have hn : pagesBelow sz ≤ 512 ^ 3 := by
    have hs := h.sat
    rw [add_comm (PT 2 old _), add_assoc] at hs
    exact (sat_userPages_le hs).trans (by decide)
  obtain ⟨U, hold, hs⟩ := h.sat.asIs
  rw [← add_assoc] at hs
  obtain ⟨r, m', S', hrun, -, hS, hkeep, hs'⟩ := (uvmcopy_spec (K := K) hold h.mapped rfl h.unmapped).keeps hs
  obtain rfl : S' = S := hS
  obtain ⟨_, hfree, hsub, _, _, rfl, ⟨_, T₀, rfl, ⟨rfl, -⟩, h₀⟩, rfl⟩ := sat_split hs
  obtain ⟨_, hfree', hsub', _, S, rfl, ⟨U, T, rfl, ⟨rfl, hkeep'⟩, hdone⟩, rfl⟩ := sat_split hs'
  simp only [Multiset.mem_add, or_imp, forall_and] at hsub hsub'
  obtain ⟨hU, -, -⟩ := holds_pages hold hsub.1.1 hn
  obtain ⟨rfl, -⟩ := holds_PT h₀ hsub.1.2
  refine ⟨r, m', hrun, fun pg hpg => ?_, ?_, ?_⟩
  · rw [inUse, Multiset.mem_add] at hpg
    rcases hpg with hpg | hpg
    · rw [hU] at hkeep'
      exact (hkeep' pg hpg).symm
    · exact hkeep pg hpg
  · exact (holds_pages ((PT 2 old _ + userPages _ _ _).reads hkeep' hold) hsub.1.1 hn).2.1
  · have hpages₀ : (K.pages : Multiset Nat) = m.freeList + (inUse m old sz S + tablePages m.ram 2 new) := by
      rw [hfree, inUse, add_right_comm, hU]
      rfl
    have hpages : (K.pages : Multiset Nat) = m'.freeList + (inUse m old sz S + T) := by
      rw [hfree', inUse, add_right_comm, hU]
      rfl
    rw [CopyDone] at hdone
    split at hdone
    · next hr =>
      obtain ⟨p, hp⟩ := hdone
      rw [holds_fact_add] at hp
      exact .inl ⟨hr, .of_holds hp.1 hp.2 hn hsub'.1.2 hpages⟩
    · rw [holds_fact_add] at hdone
      obtain ⟨hr, h₁⟩ := hdone
      obtain ⟨rfl, hleaf⟩ := holds_PT h₁ hsub'.1.2
      refine .inr ⟨hr, hleaf, ?_⟩
      rw [hpages₀, add_left_comm, add_left_comm _ (inUse m old sz S)] at hpages
      exact (add_left_cancel hpages).symm

/-! ## fork -/

namespace Sys

variable {s s' : Sys} {p q : Fin NPROC}

/-- What a file is, whoever counts it. -/
def kinds (s : Sys) (f : Fin NFILE) : FileType × Nat := ((s.file f).type, (s.file f).pipe)

theorem freeproc_kinds : (freeproc p).Keeps kinds :=
  .get fun _ => .bind (.when (keeps_vm _ fun _ _ => rfl)) fun _ => .bind (.modify fun _ => rfl) fun _ =>
    .bind (.when (keeps_vm _ fun _ _ => rfl)) fun _ => .modify fun _ => rfl

theorem allocproc_kinds : allocproc.Keeps kinds := by
  refine .get fun s => ?_
  split
  · exact .pure _
  · refine .bind (.get fun _ => .bind (.modify fun _ => rfl) fun _ => .pure _) fun pid => .bind (.modify fun _ => rfl) fun _ =>
      .bind (keeps_vm _ fun _ _ => rfl) fun tf => .bind (.modify fun _ => rfl) fun _ => ?_
    refine .ite (.bind freeproc_kinds fun _ => .pure _) (.bind (keeps_vm _ fun _ _ => rfl) fun pt => ?_)
    exact .bind (.modify fun _ => rfl) fun _ => .ite (.bind freeproc_kinds fun _ => .pure _) (.pure _)

theorem filedup_kinds (f : Fin NFILE) : (filedup f).Keeps kinds := by
  refine .get fun s => ?_
  split
  · exact .panic _
  · refine .modify fun s => funext fun g => ?_
    by_cases hg : g = f
    · subst hg
      simp [kinds]
    · simp [kinds, hg]

theorem forkFiles_kinds {np : Fin NPROC} {fds : List (Fin NOFILE)} : (forkFiles p np fds).Keeps kinds := by
  induction fds with
  | nil => exact .pure _
  | cons fd fds ih =>
    refine .get fun s => ?_
    split
    · exact ih
    · exact .bind (filedup_kinds _) fun _ => .bind (.modify fun _ => rfl) fun _ => ih

theorem fork_kinds : (fork p).Keeps kinds := by
  refine .bind allocproc_kinds fun r => ?_
  cases r with
  | none => exact .pure _
  | some np =>
    refine .get fun s => .get fun s' => .bind (keeps_vm _ fun _ _ => rfl) fun r => ?_
    refine .ite (.bind freeproc_kinds fun _ => .pure _) (.bind (.modify fun _ => rfl) fun _ => ?_)
    refine .bind (keeps_vm _ fun _ _ => rfl) fun regs => .bind (keeps_vm _ fun _ _ => rfl) fun _ =>
      .bind (keeps_vm _ fun _ _ => rfl) fun _ => .bind forkFiles_kinds fun _ => ?_
    exact .bind (.modify fun _ => rfl) fun _ => .bind (.modify fun _ => rfl) fun _ => .bind (.modify fun _ => rfl) fun _ =>
      .pure _

/-- The pages of a process. -/
def pagesOf (s : Sys) (q : Fin NPROC) : Multiset Nat :=
  holdings s (.user q) + holdings s (.table q) + holdings s (.trapframe q)

theorem pagesOf_unused (h : Inv K s) (hq : (s.proc q).state = .UNUSED) : pagesOf s q = 0 := by
  obtain ⟨htf, hpt, -⟩ := (h.procs q).unused hq
  rw [pagesOf, holdings, holdings, holdings, if_pos hpt, if_pos hpt, if_pos htf]
  rfl

/-- A process whose entry and pages are left alone has the same pages. -/
theorem Inv.pagesOf_eq (h : Inv K s) (h' : Inv K s') {T : Multiset Nat} (hT : (allMem K s).holds s.mem.ram T)
    (hsub : ∀ x ∈ T, x ∈ K.pages) (hkeep : ∀ x ∈ T, s.mem.ram x = s'.mem.ram x) (hq : s'.proc q = s.proc q) :
    pagesOf s' q = pagesOf s q ∧ ∀ x ∈ pagesOf s q, s'.mem.ram x = s.mem.ram x := by
  obtain ⟨T₁, T₂, rfl, h₁, -⟩ := hT
  obtain ⟨S, hle, hS⟩ := holds_of_mem_sum h₁ (Finset.mem_univ q)
  have hin (x : Nat) (hx : x ∈ S) : x ∈ T₁ + T₂ := Multiset.mem_add.mpr (.inl (Multiset.mem_of_le hle hx))
  have hS' : (procMem K (s'.proc q)).holds s'.mem.ram S := by
    rw [hq]
    exact (procMem K (s.proc q)).reads (fun x hx => hkeep x (hin x hx)) hS
  have he : S = pagesOf s q := (holds_procMem (h.procs q) hS fun x hx => hsub x (hin x hx)).1
  have he' : S = pagesOf s' q := (holds_procMem (h'.procs q) hS' fun x hx => hsub x (hin x hx)).1
  exact ⟨he'.symm.trans he, fun x hx => (hkeep x (hin x (he ▸ hx))).symm⟩

/-- What is not free. -/
theorem Inv.free_add (h : Inv K s) : (K.pages : Multiset Nat) =
    holdings s .free + (holdings s .pipe + holdings s .kernel + ∑ q, pagesOf s q) := by
  rw [← h.sum_holdings, sum_owner, add_assoc, add_assoc, add_assoc]
  rfl

/-- What is taken for processes is taken from the free list. -/
theorem Inv.free_eq (h : Inv K s) (h' : Inv K s') (hkinds : s'.kinds = s.kinds) (hk : s'.kernelPages = s.kernelPages)
    {X : Multiset Nat} (hsum : ∑ q, pagesOf s' q = X + ∑ q, pagesOf s q) :
    holdings s .free = holdings s' .free + X := by
  have hpipe : holdings s' .pipe = holdings s .pipe := by
    have he (f : Fin NFILE) := Prod.ext_iff.mp (congrFun hkinds f)
    simp only [kinds] at he
    simp only [holdings, he]
  have hkernel : holdings s' .kernel = holdings s .kernel := congrArg (Multiset.ofList) hk
  have hpages := h'.free_add
  rw [h.free_add, hsum, hpipe, hkernel, add_left_comm _ X, ← add_assoc _ X] at hpages
  exact add_right_cancel hpages

/-- What fork does from outside: it changes no page in use; it takes nothing, or a child's pages, which are a copy of the
caller's with the same flags. -/
def ForkOutcome (s : Sys) (p : Fin NPROC) (r : Int) (s' : Sys) : Prop :=
  (∀ q, (s.proc q).state ≠ .UNUSED → s'.proc q = s.proc q ∧ ∀ pg ∈ pagesOf s q, s'.mem.ram pg = s.mem.ram pg) ∧
  ((r = -1 ∧ (∀ q, (s.proc q).state = .UNUSED → (s'.proc q).state = .UNUSED) ∧ holdings s' .free = holdings s .free) ∨
    ∃ np, (s.proc np).state = .UNUSED ∧ (s'.proc np).state = .RUNNABLE ∧ (s'.proc np).sz = (s.proc p).sz ∧
      (∀ n < pagesBelow (s.proc p).sz, PTE_FLAGS (pteOf s' np n) = PTE_FLAGS (pteOf s p n) ∧
        s'.mem.ram (PTE2PA (pteOf s' np n)) = s.mem.ram (PTE2PA (pteOf s p n))) ∧
      holdings s .free = holdings s' .free + pagesOf s' np)

theorem sat_asIs {m₀ : Mem} {T : Multiset Nat} {P : Own Nat Page} (h : (world K).Sat m (P + asIs m₀.ram T)) :
    (∀ x ∈ T, x ∈ K.pages) ∧ ∀ x ∈ T, m₀.ram x = m.ram x := by
  obtain ⟨_, -, hsub, S₁, _, rfl, -, rfl, hkeep⟩ := sat_split h
  exact ⟨fun x hx => hsub x (by simp [hx]), hkeep⟩

section

variable {T : Multiset Nat} {leaf : Nat → Nat} {data : Nat → Page} (h : Inv K s) (h' : Inv K s')
  (hT : (allMem K s).holds s.mem.ram T) (hsub : ∀ x ∈ T, x ∈ K.pages) (hkeep : ∀ x ∈ T, s.mem.ram x = s'.mem.ram x)
  (hkinds : s'.kinds = s.kinds) (hk : s'.kernelPages = s.kernelPages)

include h h' hT hsub hkeep hkinds hk

theorem ForkOutcome.of_undone (hproc : s'.proc = s.proc ∨
      ∃ q x, (s.proc q).state = .UNUSED ∧ x.ofile = (s.proc q).ofile ∧ s'.proc = Function.update s.proc q (freed x)) :
    ForkOutcome s p (-1) s' := by
  have hsame (q : Fin NPROC) : s'.proc q = s.proc q ∨ (s.proc q).state = .UNUSED ∧ (s'.proc q).state = .UNUSED := by
    rcases hproc with hproc | ⟨q', x, hq', -, hproc⟩
    · exact .inl (congrFun hproc q)
    · by_cases hq : q = q'
      · subst hq
        rw [hproc, Function.update_self]
        exact .inr ⟨hq', rfl⟩
      · rw [hproc, Function.update_of_ne hq]
        exact .inl rfl
  have hpages (q : Fin NPROC) : pagesOf s' q = pagesOf s q := by
    rcases hsame q with hq | ⟨hq, hq'⟩
    · exact (h.pagesOf_eq h' hT hsub hkeep hq).1
    · rw [pagesOf_unused h hq, pagesOf_unused h' hq']
  refine ⟨fun q hq => ?_, .inl ⟨rfl, fun q hq => ?_, ?_⟩⟩
  · have hq' : s'.proc q = s.proc q := (hsame q).resolve_right fun hu => hq hu.1
    exact ⟨hq', (h.pagesOf_eq h' hT hsub hkeep hq').2⟩
  · rcases hsame q with hq' | ⟨-, hq'⟩
    · rw [hq', hq]
    · exact hq'
  · have hsum : ∑ q, pagesOf s' q = 0 + ∑ q, pagesOf s q := by
      rw [zero_add]
      exact Finset.sum_congr rfl fun q _ => hpages q
    rw [h.free_eq h' hkinds hk hsum, add_zero]

theorem ForkOutcome.of_made {np : Fin NPROC} {y : Proc} {r : Int} (hnp : (s.proc np).state = .UNUSED)
    (hs' : s'.proc = Function.update s.proc np y) (hy : y.state = .RUNNABLE) (hsz : y.sz = (s.proc p).sz)
    (hcopy : ∀ n < pagesBelow (s.proc p).sz, PTE_FLAGS (leafAt s'.mem.ram 2 y.pagetable n) = PTE_FLAGS (pteOf s p n) ∧
      s'.mem.ram (PTE2PA (leafAt s'.mem.ram 2 y.pagetable n)) = s.mem.ram (PTE2PA (pteOf s p n))) :
    ForkOutcome s p r s' := by
  have hother (q : Fin NPROC) (hq : q ≠ np) : s'.proc q = s.proc q := by rw [hs', Function.update_of_ne hq]
  have hchild : s'.proc np = y := by rw [hs', Function.update_self]
  refine ⟨fun q hq => ?_, .inr ⟨np, hnp, hchild ▸ hy, hchild ▸ hsz, ?_, ?_⟩⟩
  · have hq' := hother q fun he => hq (he ▸ hnp)
    exact ⟨hq', (h.pagesOf_eq h' hT hsub hkeep hq').2⟩
  · intro n hn
    rw [pteOf, hchild]
    exact hcopy n hn
  · refine h.free_eq h' hkinds hk ?_
    rw [← Finset.add_sum_erase _ _ (Finset.mem_univ np), ← Finset.add_sum_erase (a := np) _ (pagesOf s) (Finset.mem_univ np),
      pagesOf_unused h hnp, zero_add]
    exact congrArg _ (Finset.sum_congr rfl fun q hq =>
      (h.pagesOf_eq h' hT hsub hkeep (hother q (Finset.ne_of_mem_erase hq))).1)

end

/-- The child's pages are those the copy was made of. -/
theorem childMem_copied {tf root sz : Nat} {C T : Multiset Nat} {leaf : Nat → Nat} {data : Nat → Page} {ram ram' : Nat → Page}
    (h : (Space K root tf (pagesBelow sz) leaf data).holds ram T) (hT : ∀ x ∈ T, x ∈ K.pages) {tf' root' : Nat}
    (hc : (childMem K tf' root' sz leaf data).holds ram' C) (hC : ∀ x ∈ C, x ∈ K.pages) :
    ∀ n < pagesBelow sz, PTE_FLAGS (leafAt ram' 2 root' n) = PTE_FLAGS (leafAt ram 2 root n) ∧
      ram' (PTE2PA (leafAt ram' 2 root' n)) = ram (PTE2PA (leafAt ram 2 root n)) := by
  obtain ⟨C₁, C₂, rfl, -, x, hx⟩ := hc
  rw [holds_fact_add, Space, holds_fact_add] at hx
  obtain ⟨hsame, -, hx⟩ := hx
  rw [Space, holds_fact_add] at h
  obtain ⟨hshape, h⟩ := h
  have hn : pagesBelow sz ≤ 512 ^ 3 := hshape.fits.trans (by decide)
  obtain ⟨-, hleaf, hdata⟩ := holds_pages h hT hn
  obtain ⟨-, hleaf', hdata'⟩ := holds_pages hx (fun x hx => hC x (Multiset.mem_add.mpr (.inr hx))) hn
  intro n hlt
  rw [hleaf n (hlt.trans_le hn), hleaf' n (hlt.trans_le hn), hdata n hlt, hdata' n hlt]
  exact hsame n hlt

theorem Inv.fork_outcome (h : Inv K s) (hp : (s.proc p).state ≠ .UNUSED) :
    (fork p).Returns s (ForkOutcome s p) := by
  obtain ⟨S, hS, hf⟩ := (h.live hp).asIs
  rw [add_comm] at hf
  obtain ⟨T, hT, hf⟩ := hf.asIs
  rw [add_comm] at hf
  have hall : (allMem K s).holds s.mem.ram (S + T) := by
    rw [allMem_eq K s p, procMem_live hp]
    exact ⟨S, T, rfl, hS, hT⟩
  obtain ⟨S₁, S₂, rfl, h₁, x, h₂⟩ := hS
  have hfork : (fork p).Returns s (Forked K s p x.1 x.2 _) := fork_spec h.procs hp ⟨S₁, S₂, rfl, h₁, h₂⟩ hf
  rw [← asIs_add] at hfork hf
  obtain ⟨r, s', hrun, hk, hcase⟩ := hfork
  have h' : Inv K s' := by
    obtain ⟨_, _, hrun', hkept⟩ := fork_kept h hp
    rw [hrun] at hrun'
    cases hrun'
    exact hkept.1
  have hkinds : s'.kinds = s.kinds := fork_kinds s r s' hrun
  have hsub := (sat_asIs hf.sat).1
  refine ⟨r, s', hrun, ?_⟩
  rcases hcase with ⟨rfl, hf', hproc⟩ | ⟨np, y, hnp, hs', hy, hsz, hf'⟩
  · exact .of_undone h h' hall hsub (sat_asIs hf'.sat).2 hkinds hk hproc
  · have hs := hf'.sat
    rw [← add_assoc] at hs
    have hkeep := (sat_asIs hs).2
    obtain ⟨_, -, hsub', _, _, rfl, ⟨_, C, rfl, -, hC⟩, -⟩ := sat_split hs
    rw [hsz] at hC
    exact .of_made h h' hall hsub hkeep hkinds hk hnp hs' hy hsz
      (childMem_copied h₂ (fun x hx => hsub x (by simp [hx])) hC fun x hx => hsub' x (by simp [hx]))

end Sys

/-- **fork copies memory or leaves no trace.** Whichever allocations are refused: uvmcopy makes a copy of every address
space it is given, on fresh pages, or undoes what it did; and a fork from any state between system calls makes a child
with a copy of the caller's memory, on pages of the free list, or leaves the free list as it was. Neither changes a page
in use. -/
theorem fork_copies_or_undoes (K : Layout) :
    (∀ m old new sz S, CopyInput K m old new sz S → ∃ r m', uvmcopy old new sz m = .ok (r, m') ∧
      (∀ pg ∈ inUse m old sz S, m'.ram pg = m.ram pg) ∧ (∀ k < 512 ^ 3, leafAt m'.ram 2 old k = leafAt m.ram 2 old k) ∧
      (r = 0 ∧ CopyMade m m' old new sz S ∨ r = -1 ∧ CopyUndone m m' new)) ∧
    ∀ (s : Sys) (p : Fin NPROC) (fails : Nat → Bool), Reach Sys.step (Sys.Booted K) s → (s.proc p).state ≠ .UNUSED →
      ∃ r s', Sys.fork p (s.withMem (s.mem.withFails fails)) = .ok (r, s') ∧ Sys.ForkOutcome s p r s' :=
  ⟨fun _ _ _ _ _ h => uvmcopy_outcome h, fun _ _ fails h hp => ((Sys.inv_of_reach h).withFails fails).fork_outcome hp⟩

/-- What uvmcopy finds when fork calls it. -/
theorem CopyInput.of_sat {tf tf' : Nat} {R : Own Nat Page}
    (hs : (world K).Sat m (AnySpace K old tf sz + (AnySpace K new tf' 0 + R))) : ∃ S, CopyInput K m old new sz S := by
  rw [AnySpace, World.sat_ex_add] at hs
  obtain ⟨⟨leaf, data⟩, hs⟩ := hs
  rw [add_left_comm, AnySpace, World.sat_ex_add] at hs
  obtain ⟨⟨leaf₀, data₀⟩, hs⟩ := hs
  rw [add_left_comm, show pagesBelow 0 = 0 from rfl] at hs
  rw [Space, Space, add_assoc, World.sat_fact_add, add_left_comm, add_assoc, World.sat_fact_add, userPages_zero, add_zero,
    add_left_comm] at hs
  obtain ⟨h, h0, hs⟩ := hs
  have hf := h.fits
  have h1 := trapframeVpn_eq
  have h2 := trampolineVpn_eq
  have hn : pagesBelow sz ≤ 512 ^ 3 := by omega
  obtain ⟨_, -, hsub, S₁, _, rfl, hold, S₂, S, rfl, hnew, -⟩ := sat_split hs
  simp only [Multiset.mem_add, or_imp, forall_and] at hsub
  obtain ⟨-, hleaf, hdata⟩ := holds_pages hold hsub.1 hn
  have hleaf₀ : ∀ k < 512 ^ 3, leafAt m.ram 2 new k = leaf₀ k := (holds_PT hnew hsub.2.1).2
  rw [← add_assoc, add_comm] at hs
  obtain ⟨S, -, hs⟩ := hs.asIs
  rw [add_comm, add_assoc] at hs
  refine ⟨S, hs.mono (add_le_add (add_le_add (PT_congr fun k hk => (hleaf k hk).symm) (le_of_eq ?_)) (add_le_add
    (PT_congr fun k hk => (hleaf₀ k hk).symm) fun _ _ hS => hS.1)), fun k hk => ?_, fun k hk => ?_⟩
  · refine userPages_congr (fun k hk => (hleaf k (by omega)).symm) fun k hk => ?_
    rw [hleaf k (by omega), hdata k hk]
  · rw [hleaf k (by omega)]
    exact h.maps hk
  · rw [hleaf₀ k (by omega)]
    exact h0.rest k (Nat.zero_le k) (by omega) (by omega) (by omega)

/-- The second process of the demo has one page, and there is room for a third process. -/
def demoRoom (s : Sys) : Bool :=
  ((s.proc ⟨1, one_lt_NPROC⟩).state = .RUNNABLE ∧ (s.proc ⟨1, one_lt_NPROC⟩).sz = PGSIZE) &&
    match Sys.allocproc s with
    | .ok (some _, _) => true
    | _ => false

theorem demo_room : ∃ s, Sys.demo = some s ∧ demoRoom s = true := by
  have hany : Sys.demo.any demoRoom = true := by decide +kernel
  exact (Option.any_eq_true _ _).mp hany

/-- A page table and one for its copy, on the demo's machine. -/
theorem copyInput_demo : ∃ m old new S, CopyInput Sys.demoLayout m old new PGSIZE S := by
  obtain ⟨s, hs, hd⟩ := demo_room
  rw [demoRoom, Bool.and_eq_true, decide_eq_true_eq] at hd
  obtain ⟨⟨hst, hsz⟩, hroom⟩ := hd
  have h := Sys.inv_of_reach (Sys.demo_reach hs)
  have hp : (s.proc ⟨1, by decide⟩).state ≠ .UNUSED := by
    rw [hst]
    decide
  obtain ⟨r, s₁, hrun, -, -, ha⟩ := Sys.allocproc_spec (h.live hp) h.procs
  rw [hrun] at hroom
  cases r with
  | none => cases hroom
  | some np =>
    obtain ⟨-, x, -, -, -, -, hf⟩ := ha
    have hsat := hf.sat
    rw [hsz, Sys.userMem, Sys.userMem, show ∀ A B C D E F : Own Nat Page, A + (B + C + (D + E + F)) =
      E + (C + (A + B + D + F)) from fun A B C D E F => by abel] at hsat
    exact ⟨_, _, _, CopyInput.of_sat hsat⟩

theorem fork_copies_or_undoes_demo :
    (∃ m old new S r m', CopyInput Sys.demoLayout m old new PGSIZE S ∧ uvmcopy old new PGSIZE m = .ok (r, m') ∧
      (r = 0 ∧ CopyMade m m' old new PGSIZE S ∨ r = -1 ∧ CopyUndone m m' new)) ∧
    ∃ s r s', Sys.demo = some s ∧ Sys.fork ⟨1, by decide⟩ (s.withMem (s.mem.withFails fun n => n == 4)) = .ok (r, s') ∧
      Sys.ForkOutcome s ⟨1, by decide⟩ r s' := by
  constructor
  · obtain ⟨m, old, new, S, h⟩ := copyInput_demo
    obtain ⟨r, m', hrun, -, -, hr⟩ := (fork_copies_or_undoes Sys.demoLayout).1 m old new PGSIZE S h
    exact ⟨m, old, new, S, r, m', h, hrun, hr⟩
  · obtain ⟨s, hs, hd⟩ := demo_room
    rw [demoRoom, Bool.and_eq_true, decide_eq_true_eq] at hd
    have hp : (s.proc ⟨1, by decide⟩).state ≠ .UNUSED := by
      rw [hd.1.1]
      decide
    obtain ⟨r, s', hrun, hr⟩ := (fork_copies_or_undoes Sys.demoLayout).2 s _ _ (Sys.demo_reach hs) hp
    exact ⟨s, r, s', hs, hrun, hr⟩

end Xv6
