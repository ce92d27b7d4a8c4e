/-
Who uses which page, read off the memory itself: the free list from its head, the tables
under a page table root, the pages its entries point to, trapframes, pipes, and the pages
the kernel keeps. Between system calls these partition physical memory, and every live
process's page table maps exactly its pages below its size.
-/
import Xv6.Proc.Boot
import Xv6.Vm.Reading

namespace Xv6

open Lib Lib.Own Mem

variable {K : Layout} {ram : Nat → Page} {S : Multiset Nat} {pg : Nat}

theorem holds_argPages_eq {l : List Nat} (h : (argPages l).holds ram S) : S = l := by
  induction l generalizing S with
  | nil => exact h
  | cons pg l ih =>
    rw [argPages, List.map_cons, List.sum_cons] at h
    obtain ⟨S₁, S₂, rfl, h₁, h₂⟩ := h
    rw [holds_page h₁, ih h₂]
    rfl

namespace Sys

/-- What a page may be used for. -/
inductive Owner where
  | free
  | user (p : Fin NPROC)
  | table (p : Fin NPROC)
  | trapframe (p : Fin NPROC)
  | pipe
  | kernel
  deriving DecidableEq

/-- The pages in that use, one occurrence for each time they are. -/
def holdings (s : Sys) : Owner → Multiset Nat
  | .free => freePages s.mem.ram (PHYSTOP / PGSIZE + 1) s.mem.freelist
  | .user p => if (s.proc p).pagetable = 0 then 0 else mappedPages s.mem.ram (s.proc p).pagetable
  | .table p => if (s.proc p).pagetable = 0 then 0 else tablePages s.mem.ram 2 (s.proc p).pagetable
  | .trapframe p => if (s.proc p).trapframe = 0 then 0 else {(s.proc p).trapframe}
  | .pipe => ((Finset.univ.filter fun f => (s.file f).type = .FD_PIPE).image fun f => (s.file f).pipe).val
  | .kernel => s.kernelPages

local instance : NeZero 3 := ⟨by decide⟩

/-- The six uses as a sum over the processes. -/
def Owner.equiv : Fin 3 ⊕ (Fin NPROC × Fin 3) ≃ Owner where
  toFun
    | .inl 0 => .free
    | .inl 1 => .pipe
    | .inl 2 => .kernel
    | .inr (p, 0) => .user p
    | .inr (p, 1) => .table p
    | .inr (p, 2) => .trapframe p
  invFun
    | .free => .inl 0
    | .pipe => .inl 1
    | .kernel => .inl 2
    | .user p => .inr (p, 0)
    | .table p => .inr (p, 1)
    | .trapframe p => .inr (p, 2)
  left_inv x := by
    rcases x with i | ⟨p, i⟩ <;> fin_cases i <;> rfl
  right_inv o := by cases o <;> rfl

@[irreducible] instance : Fintype Owner := .ofEquiv _ Owner.equiv

theorem sum_owner {M : Type} [AddCommMonoid M] (F : Owner → M) :
    ∑ o, F o = F .free + F .pipe + F .kernel + ∑ p, (F (.user p) + F (.table p) + F (.trapframe p)) := by
  rw [← Owner.equiv.sum_comp F, Fintype.sum_sum_type, Fin.sum_univ_three, Fintype.sum_prod_type]
  simp only [Fin.sum_univ_three]
  rfl

variable {s : Sys} {p : Fin NPROC}

/-- The processes' part of the account, as memory shows it. -/
theorem holds_procMem (hwf : ProcWf (s.proc p)) (h : (procMem K (s.proc p)).holds s.mem.ram S)
    (hS : ∀ x ∈ S, x ∈ K.pages) : S = holdings s (.user p) + holdings s (.table p) + holdings s (.trapframe p) ∧
      ((s.proc p).state ≠ .UNUSED → (s.proc p).pagetable ≠ 0 ∧
        Shape K (s.proc p).trapframe (pagesBelow (s.proc p).sz) (leafAt s.mem.ram 2 (s.proc p).pagetable)) := by
  by_cases hst : (s.proc p).state = .UNUSED
  · obtain ⟨htf, hpt, -⟩ := hwf.unused hst
    rw [procMem_unused hst] at h
    obtain rfl : S = 0 := h
    refine ⟨?_, fun h0 => absurd hst h0⟩
    rw [holdings, holdings, holdings, if_pos hpt, if_pos hpt, if_pos htf]
    rfl
  · rw [procMem_live hst] at h
    obtain ⟨S₁, S₂, rfl, h₁, q, h₂⟩ := h
    obtain rfl := holds_page h₁
    have hS₂ : ∀ x ∈ S₂, x ∈ K.pages := fun x hx => hS x (Multiset.mem_add.mpr (.inr hx))
    have htf : (s.proc p).trapframe ≠ 0 :=
      Layout.ne_zero_of_mem (hS _ (Multiset.mem_add.mpr (.inl (Multiset.mem_singleton_self _))))
    have hpt : (s.proc p).pagetable ≠ 0 := by
      have h₂' : (Space K (s.proc p).pagetable (s.proc p).trapframe (pagesBelow (s.proc p).sz) q.1 q.2).holds s.mem.ram S₂ := h₂
      rw [Space, holds_fact_add] at h₂'
      obtain ⟨-, T₁, T₂, rfl, hT, -⟩ := h₂'
      exact Layout.ne_zero_of_mem (hS₂ _ (Multiset.mem_add.mpr (.inl (holds_PT_mem hT))))
    obtain ⟨rfl, hshape⟩ := holds_space h₂ hS₂
    refine ⟨?_, fun _ => ⟨hpt, hshape⟩⟩
    rw [holdings, holdings, holdings, if_neg hpt, if_neg hpt, if_neg htf, add_comm, add_comm (mappedPages _ _)]

theorem pipeOwn_footprint {r w : Bool} :
    Footprint ram {x | x ∈ K.pages} (pipeOwn pg r w) (if r || w then {pg} else 0) := by
  unfold pipeOwn
  split
  · exact fun S hS h => holds_page (pipeCell_le ram S h)
  · exact .zero

/-- Nothing but the pipes of open files. -/
theorem holds_pipes (h : FileTable K s.file) (hp : (pipes K s.file).holds s.mem.ram S) (hS : ∀ x ∈ S, x ∈ K.pages) :
    S = holdings s .pipe := by
  rw [Footprint.sum (fun pg _ => pipeOwn_footprint) S hS hp, ← Finset.sum_filter, sum_singleton, Multiset.map_id', holdings]
  congr 1
  ext pg
  simp only [Finset.mem_filter, List.mem_toFinset, Bool.or_eq_true, hasEnd, decide_eq_true_eq, Finset.mem_image,
    Finset.mem_univ, true_and]
  constructor
  · rintro ⟨-, ⟨f, hf, rfl, -⟩ | ⟨f, hf, rfl, -⟩⟩
    · exact ⟨f, hf, rfl⟩
    · exact ⟨f, hf, rfl⟩
  · rintro ⟨f, hf, rfl⟩
    refine ⟨h.mem f hf, ?_⟩
    cases hw : (s.file f).writable with
    | false => exact .inl ⟨f, hf, rfl, hw⟩
    | true => exact .inr ⟨f, hf, rfl, hw⟩

/-- **All of memory is accounted for**: the uses add up to the pages there are. -/
theorem Inv.sum_holdings (h : Inv K s) : ∑ o, holdings s o = K.pages := by
  obtain ⟨T, hT, hsub, S₂, U, rfl, h₂, S₃, S₄, rfl, h₃, h₄⟩ := sat_split h.files.sat
  simp only [Multiset.mem_add, or_imp, forall_and] at hsub
  obtain ⟨hs2, hs3, -⟩ := hsub
  have h3 : S₃ = ∑ p, (holdings s (.user p) + holdings s (.table p) + holdings s (.trapframe p)) :=
    Footprint.sum (A := {x | x ∈ K.pages}) (fun p _ S hS hc => (holds_procMem (h.procs p) hc hS).1) S₃ hs3 h₃
  rw [hT, sum_owner, ← h3, ← holds_pipes h.files.table h₂ hs2, holdings, holdings, holds_argPages_eq h₄]
  abel

/-- Memory shows the shape of every address space. -/
theorem Inv.shape (h : Inv K s) (hp : (s.proc p).state ≠ .UNUSED) : (s.proc p).pagetable ≠ 0 ∧
    Shape K (s.proc p).trapframe (pagesBelow (s.proc p).sz) (leafAt s.mem.ram 2 (s.proc p).pagetable) := by
  obtain ⟨-, fl, S₁, T, hT, h₁, S₂, U, rfl, h₂, S₃, S₄, rfl, h₃, h₄⟩ := sat_iff.mp h.files.sat
  obtain ⟨S', hle, hc⟩ := holds_of_mem_sum h₃ (Finset.mem_univ p)
  refine (holds_procMem (h.procs p) hc fun x hx => ?_).2 hp
  rw [← Multiset.mem_coe, hT]
  simp only [Multiset.mem_add]
  exact .inr (.inr (.inl (Multiset.mem_of_le hle hx)))

/-! ## Along every run -/

theorem inv_of_reach (h : Reach step (Booted K) s) : Inv K s := by
  refine h.invariant (fun _ => Booted.inv) fun s a s' hi he => ?_
  have hs := step_inv (a := a) hi
  rw [he] at hs
  exact hs

/-- The entry of virtual page `n` in the page table of process `p`. -/
def pteOf (s : Sys) (p : Fin NPROC) (n : Nat) : Nat := leafAt s.mem.ram 2 (s.proc p).pagetable n

/-- Process `p` can use virtual page `n` in user mode. -/
def UserAccessible (s : Sys) (p : Fin NPROC) (n : Nat) : Prop :=
  (s.proc p).state ≠ .UNUSED ∧ n < 512 ^ 3 ∧ Flag (pteOf s p n) PTE_V ∧ Flag (pteOf s p n) PTE_U

/-- What is accessible to a user is one of the process's own pages. -/
theorem Inv.mem_user {n : Nat} (h : Inv K s) (hn : UserAccessible s p n) :
    holdings s (.user p) = mappedPages s.mem.ram (s.proc p).pagetable ∧ n ∈ userVpns s.mem.ram (s.proc p).pagetable := by
  obtain ⟨hp, hlt, hv, hu⟩ := hn
  obtain ⟨hpt, hshape⟩ := h.shape hp
  refine ⟨if_neg hpt, ?_⟩
  rw [userVpns, Finset.mem_filter, mem_vpns]
  refine ⟨hlt, fun he => ?_, fun he => ?_, hv⟩
  · subst he
    rw [pteOf, show TRAMPOLINE / PGSIZE = trampolineVpn from rfl, hshape.trampoline, Layout.trampolinePte, Nat.or_assoc,
      Flag, or_and_flag (by decide) (by decide)] at hu
    exact hu rfl
  · subst he
    rw [pteOf, show TRAPFRAME / PGSIZE = trapframeVpn from rfl, hshape.trapframe, trapframePte, Nat.or_assoc,
      Flag, or_and_flag (by decide) (by decide)] at hu
    exact hu rfl

theorem Inv.nodup_holdings (h : Inv K s) : (∑ o, holdings s o).Nodup := by
  rw [h.sum_holdings]
  exact Multiset.coe_nodup.mpr K.nodup_pages

/-- A page has one use. -/
theorem Inv.owner_unique (h : Inv K s) {o o' : Owner} (ho : pg ∈ holdings s o) (ho' : pg ∈ holdings s o') : o = o' :=
  (existsUnique_of_nodup_sum h.nodup_holdings (Multiset.mem_sum.mpr ⟨o, Finset.mem_univ o, ho⟩)).unique ho ho'

theorem Inv.owner_exists (h : Inv K s) (hpg : pg ∈ K.pages) : ∃ o, pg ∈ holdings s o := by
  have hm : pg ∈ ∑ o, holdings s o := by
    rw [h.sum_holdings]
    exact Multiset.mem_coe.mpr hpg
  obtain ⟨o, -, ho⟩ := Multiset.mem_sum.mp hm
  exact ⟨o, ho⟩

/-- A machine of twenty pages: booted, a pipe, and a second process. -/
def demoLayout : Layout := ⟨PHYSTOP - 20 * PGSIZE, KERNBASE, by decide, by decide, by decide⟩

def demoOn : Sys := { mem := { layout := demoLayout, ram := fun _ => Buffer.fill 0, freelist := 0, fails := fun _ => false } }

def demoRun : List Action :=
  [.call ⟨0, by decide⟩ (.pipe 4088) (fun _ => false), .call ⟨0, by decide⟩ .fork (fun _ => false)]

def demo : Option Sys :=
  match main 1 demoOn with
  | .error _ => none
  | .ok (_, s) =>
    if firstPage s then
      match runs step s demoRun with
      | .ok s' => some s'
      | _ => none
    else none

theorem demo_reach {s : Sys} (h : demo = some s) : Reach step (Booted demoLayout) s := by
  unfold demo at h
  split at h
  · cases h
  · next s₁ hm =>
    split at h
    · next hf =>
      split at h
      · next s₂ hr =>
        cases h
        exact Reach.of_runs (.init ⟨1, demoOn, ⟨_, _, rfl⟩, hm, hf⟩) hr
      · cases h
    · cases h

/-- **Physical pages have one owner.** In every state between system calls, however many allocations were refused on
the way, the uses of memory add up to the pages of [PGROUNDUP(end), PHYSTOP): each page has exactly one, and has it
once. So no page is lost, free twice, or accessible to a user at two virtual pages. -/
theorem page_ownership (h : Reach step (Booted K) s) :
    ∑ o, holdings s o = K.pages ∧ (∀ pg ∈ K.pages, ∃! o, pg ∈ holdings s o) ∧ (∀ o, (holdings s o).Nodup) ∧
      ∀ p q n n', UserAccessible s p n → UserAccessible s q n' → PTE2PA (pteOf s p n) = PTE2PA (pteOf s q n') →
        p = q ∧ n = n' := by
  have hi := inv_of_reach h
  have hone (o : Owner) : (holdings s o).Nodup := nodup_of_nodup_sum hi.nodup_holdings o
  refine ⟨hi.sum_holdings, fun pg hpg => ?_, hone, fun p q n n' hn hn' he => ?_⟩
  · obtain ⟨o, ho⟩ := hi.owner_exists hpg
    exact ⟨o, ho, fun o' ho' => hi.owner_unique ho' ho⟩
  · obtain ⟨hu, hm⟩ := hi.mem_user hn
    obtain ⟨hu', hm'⟩ := hi.mem_user hn'
    have hx : PTE2PA (pteOf s p n) ∈ holdings s (.user p) := by
      rw [hu]
      exact mem_mappedPages hm
    have hx' : PTE2PA (pteOf s p n) ∈ holdings s (.user q) := by
      rw [he, hu']
      exact mem_mappedPages hm'
    obtain rfl : p = q := by
      have hpq := hi.owner_unique hx hx'
      cases hpq
      rfl
    have hnd := hone (.user p)
    rw [hu] at hnd
    exact ⟨rfl, Multiset.inj_on_of_nodup_map hnd n hm n' hm' he⟩

/-- Two processes and a pipe are in the demo's last state. -/
def demoBusy (s : Sys) : Bool :=
  (s.proc ⟨1, by decide⟩).state = .RUNNABLE ∧ (s.file ⟨0, by decide⟩).type = .FD_PIPE ∧ (s.file ⟨0, by decide⟩).ref = 2

theorem demo_busy : ∃ s, demo = some s ∧ demoBusy s = true := by
  have h : demo.any demoBusy = true := by decide +kernel
  cases hd : demo with
  | none =>
    rw [hd] at h
    cases h
  | some s =>
    rw [hd] at h
    exact ⟨s, rfl, h⟩

theorem page_ownership_demo : ∃ s, demo = some s ∧ demoBusy s = true ∧
    (∑ o, holdings s o = demoLayout.pages) ∧ ∀ pg ∈ demoLayout.pages, ∃! o, pg ∈ holdings s o := by
  obtain ⟨s, hs, hb⟩ := demo_busy
  have h := page_ownership (demo_reach hs)
  exact ⟨s, hs, hb, h.1, h.2.1⟩

/-- **The shape of address spaces.** In every state between system calls the page table of a live process maps,
besides TRAMPOLINE and TRAPFRAME, exactly the pages below its size, each readable; and no step panics, but for init's
exit, so none of vm.c's and exec's own checks can fail. -/
theorem address_space_shape (h : Reach step (Booted K) s) :
    (∀ p, (s.proc p).state ≠ .UNUSED → PGROUNDUP (s.proc p).sz ≤ TRAPFRAME ∧
      ∀ n < 512 ^ 3, n ≠ TRAMPOLINE / PGSIZE → n ≠ TRAPFRAME / PGSIZE →
        (Flag (pteOf s p n) PTE_V ↔ n * PGSIZE < PGROUNDUP (s.proc p).sz) ∧
        (n * PGSIZE < PGROUNDUP (s.proc p).sz → Flag (pteOf s p n) PTE_R)) ∧
    ∀ a msg, step s a = .panic msg → msg = "init exiting" := by
  have hi := inv_of_reach h
  refine ⟨fun p hp => ?_, fun a msg he => ?_⟩
  · obtain ⟨-, hshape⟩ := hi.shape hp
    rw [PGROUNDUP_small hshape.fits]
    refine ⟨Nat.mul_le_mul_right PGSIZE hshape.fits, fun n hn htr htf => ?_⟩
    rw [Nat.mul_lt_mul_right (by decide)]
    refine ⟨⟨fun hv => ?_, fun hlt => (hshape.user n hlt).1⟩, fun hlt => (hshape.user n hlt).2⟩
    by_contra hge
    rw [pteOf, hshape.rest n (by omega) hn htf htr] at hv
    exact hv (Nat.zero_and _)
  · have hs := step_inv (a := a) hi
    rw [he] at hs
    exact hs

theorem address_space_shape_demo : ∃ s, demo = some s ∧ demoBusy s = true ∧
    ∀ a msg, step s a = .panic msg → msg = "init exiting" := by
  obtain ⟨s, hs, hb⟩ := demo_busy
  exact ⟨s, hs, hb, (address_space_shape (demo_reach hs)).2⟩

end Sys

end Xv6
