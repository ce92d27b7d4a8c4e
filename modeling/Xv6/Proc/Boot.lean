/-
Booting establishes the account of memory. kinit puts every page on the free list, the
kernel keeps the pages it takes, and userinit makes the first process. userinit does not
look at what uvmfirst did, so the machine is up (`Booted`) only if the first page of the
first process is there afterwards.
-/
import Xv6.Proc.Syscalls

namespace Xv6

open Lib Lib.Own Mem

variable {K : Layout} {root tf n : Nat} {R : Own Nat Page} {m m' : Mem}

/-! ## Memory -/

theorem holds_argPages (ram : Nat → Page) (l : List Nat) : (argPages l).holds ram l := by
  induction l with
  | nil => exact rfl
  | cons pg l ih =>
    rw [argPages, List.map_cons, List.sum_cons]
    exact ⟨{pg}, l, rfl, ⟨ram pg, rfl, rfl⟩, ih⟩

/-- Memory before kinit: all pages there, none on the free list. -/
theorem sat_powerOn (hl : m.layout = K) (hf : m.freelist = 0) : (world K).Sat m (argPages K.pages) := by
  rw [sat_iff]
  refine ⟨hl, [], ?_⟩
  rw [freeChain, fact_of hf, zero_add]
  exact holds_argPages m.ram K.pages

namespace Sys

theorem freerangeLoop_spec {paEnd fuel start k : Nat} (hfuel : k ≤ fuel)
    (hk : ∀ i, i < k ↔ start + i * PGSIZE + PGSIZE ≤ paEnd) :
    Triple (world K) (argPages ((List.range k).map fun i => start + i * PGSIZE)) (freerangeLoop paEnd fuel start)
      fun _ => 0 := by
  induction fuel generalizing start k with
  | zero =>
    obtain rfl : k = 0 := by omega
    exact .ret le_rfl
  | succ fuel ih =>
    have h0 := hk 0
    rw [Nat.zero_mul, Nat.add_zero] at h0
    rw [freerangeLoop]
    split
    · next hlt =>
      obtain ⟨k, rfl⟩ : ∃ j, k = j + 1 := Nat.exists_eq_succ_of_ne_zero (h0.mpr hlt).ne'
      have htail : ((List.range k).map Nat.succ).map (fun i => start + i * PGSIZE) =
          (List.range k).map fun i => start + PGSIZE + i * PGSIZE := by
        rw [List.map_map]
        refine List.map_congr_left fun i _ => ?_
        simp only [Function.comp_apply, Nat.succ_eq_add_one, Nat.add_mul]
        omega
      rw [List.range_succ_eq_map, List.map_cons, htail, argPages, List.map_cons, List.sum_cons, Nat.zero_mul, Nat.add_zero]
      refine .seq kfree_spec _ le_rfl fun _ => ?_
      rw [zero_add]
      refine ih (by omega) fun i => ?_
      have hi := hk (i + 1)
      rw [Nat.add_mul] at hi
      omega
    · next hge =>
      obtain rfl : k = 0 := by omega
      exact .ret le_rfl

theorem kinit_spec : Triple (world K) (argPages K.pages) kinit fun _ => 0 := by
  have h1 := K.kend_le
  have h2 : PHYSTOP = 2281701376 := rfl
  have hp : PGSIZE = 4096 := rfl
  have h3 : PGROUNDUP K.kend = (K.kend + 4095) / 4096 * 4096 := by
    rw [PGROUNDUP_eq (by simp only [PGSIZE]; omega)]
    rfl
  intro R s hs
  obtain ⟨hl, -⟩ := sat_iff.mp hs
  rw [kinit, Code.get_bind, hl]
  refine freerangeLoop_spec ?_ (fun i => ?_) R s hs
  · rw [h3, hp]
    omega
  · rw [h3, hp]
    omega

theorem bootAlloc_ensures {k : Nat} {l : List Nat} (h : (world K).Sat m (argPages l + R)) :
    (bootAlloc k l).Ensures m fun l' m' => (world K).Sat m' (argPages l' + R) := by
  induction k generalizing l m with
  | zero =>
    intro _ _ he
    cases he
    exact h
  | succ k ih =>
    rw [← zero_add (argPages l + R)] at h
    refine .bind (.of_triple kalloc_spec h) fun pa m1 h1 => ?_
    split
    · exact .panic
    · next hpa =>
      refine ih ?_
      rw [if_neg hpa, ← add_assoc] at h1
      exact h1.mono (add_le_add_left (add_le_add_left cell_le_page _) R)

/-- uvmfirst from where it has its page: mapped afterwards, or left over. -/
theorem uvmfirst_page {src : List UInt8} {mem : Nat} {c : Page} :
    Triple (world K) (cell mem c + AnySpace K root tf 0)
      (do memset mem 0
          let _ ← mappages root 0 PGSIZE mem (PTE_W ||| PTE_R ||| PTE_X ||| PTE_U)
          storeBytes mem src)
      fun _ => ex fun b : Bool => if b then AnySpace K root tf PGSIZE else page mem + AnySpace K root tf 0 := by
  rw [AnySpace, add_comm, ex_add]
  refine .ex fun q => ?_
  rw [Space, add_assoc]
  refine .fact fun hshape => ?_
  rw [add_comm]
  refine .assume (fun R s h => sat_cell_mem (add_assoc _ _ R ▸ h)) fun hmem => ?_
  refine .seq memset_spec _ le_rfl fun _ => ?_
  refine .bind (map_next_spec (by decide) (by decide) hshape) fun r => ?_
  split
  · set leaf := Function.update q.1 (pagesBelow 0) (PA2PTE mem ||| (PTE_W ||| PTE_R ||| PTE_X ||| PTE_U ||| PTE_V)) with hleaf
    have hpa : PTE2PA (leaf 0) = mem := by
      obtain ⟨ha, -, hlt⟩ := Layout.mem_pages.mp hmem
      exact PTE2PA_or (by decide) ha (hlt.trans (by decide))
    rw [Space]
    refine .fact fun hshape' => ?_
    rw [← hpa]
    refine ((storeUser_spec src Nat.one_pos).frame (PT 2 root leaf)).conseq (add_comm _ _).le fun _ => ?_
    refine le_ex true ?_
    rw [ex_add]
    refine ex_le fun data => le_ex (leaf, data) (le_fact_add hshape' ?_)
    exact (add_comm _ _).le
  · refine .fact fun _ => (storeBytes_page.frame _).conseq (add_le_add_left cell_le_page _) fun _ => le_ex false ?_
    have hle : Space K root tf (pagesBelow 0) q.1 q.2 ≤ AnySpace K root tf 0 := le_ex q le_rfl
    exact add_le_add_right hle _

/-- uvmfirst, which panics without memory for the page, and does not say whether the page is mapped. -/
theorem uvmfirst_ensures {src : List UInt8} (h : (world K).Sat m (AnySpace K root tf 0 + R)) :
    (uvmfirst root src).Ensures m fun _ m' => (world K).Sat m' (AnySpace K root tf PGSIZE + R) ∨
      ∃ mem, (world K).Sat m' (AnySpace K root tf 0 + (page mem + R)) := by
  rw [uvmfirst]
  split
  · exact .panic
  · rw [← zero_add (AnySpace K root tf 0 + R)] at h
    refine .bind (.of_triple kalloc_spec h) fun mem m1 h1 => ?_
    by_cases h0 : mem = 0
    · subst h0
      intro _ _ he
      cases he
    · rw [if_neg h0, ← add_assoc] at h1
      refine .of_returns (Code.Returns.mono (uvmfirst_page R m1 h1) fun _ m' h' => ?_)
      rw [World.sat_ex_add] at h'
      obtain ⟨b, hb⟩ := h'
      cases b with
      | true => exact .inl hb
      | false =>
        rw [if_neg (by decide), add_comm (page mem), add_assoc] at hb
        exact .inr ⟨mem, hb⟩

/-! ## The kernel -/

variable {s : Sys} {l : Multiset (Fin NFILE)}

theorem vm_ensures {α : Type} {c : Code Mem α} {Q : α → Mem → Prop} (h : c.Ensures s.mem Q) :
    (vm c).Ensures s fun a s' => ∃ m, s' = s.withMem m ∧ Q a m := by
  intro a s' he
  rw [vm] at he
  cases hc : c s.mem with
  | ok r =>
    rw [hc] at he
    cases he
    exact ⟨r.2, rfl, h r.1 r.2 hc⟩
  | error e =>
    rw [hc] at he
    cases he

/-- The tables before booting: nothing open. -/
theorem files_empty (hf : s.file = fun _ => {}) (hs : (world K).Sat s.mem R) : Files K s 0 R := by
  have hend (pg : Nat) (b : Bool) : hasEnd s.file pg b = false := by
    rw [hasEnd, decide_eq_false_iff_not, hf]
    rintro ⟨f, h, -⟩
    cases h
  have hpipes : pipes K s.file = 0 := Finset.sum_eq_zero fun pg _ => by rw [hend, hend]; rfl
  refine ⟨?_, ?_, fun f => ?_⟩
  · rw [hf]
    exact ⟨fun _ _ => rfl, fun _ h => (by cases h), fun _ _ h => (by cases h)⟩
  · rw [hpipes, zero_add]
    exact hs
  · rw [hf]
    rfl

/-- The machine before main(). -/
def PowerOn (K : Layout) (s : Sys) : Prop := ∃ ram fails, s = { mem := { layout := K, ram, freelist := 0, fails } }

/-- uvmfirst mapped the first page of the first process. -/
def firstPage (s : Sys) : Bool :=
  match s.initproc with
  | none => false
  | some p =>
    match walkaddr (s.proc p).pagetable 0 s.mem with
    | .ok (pa, _) => pa ≠ 0
    | .error _ => false

/-- The machine after main(). -/
def Booted (K : Layout) (s : Sys) : Prop := ∃ k s₀, PowerOn K s₀ ∧ main k s₀ = .ok ((), s) ∧ firstPage s = true

/-- A process of size 0 has no first page. -/
theorem not_firstPage {p : Fin NPROC} (hi : s.initproc = some p)
    (h : (world K).Sat s.mem (AnySpace K (s.proc p).pagetable tf 0 + R)) : firstPage s ≠ true := by
  rw [AnySpace, World.sat_ex_add] at h
  obtain ⟨q, hq⟩ := h
  rw [Space, add_assoc, World.sat_fact_add, add_assoc] at hq
  obtain ⟨hshape, hq⟩ := hq
  obtain ⟨r, m', hr, hm'⟩ := walkaddr_spec 0 _ _ hq
  rw [add_assoc, World.sat_fact_add] at hm'
  have h0 : q.1 0 = 0 := hshape.rest 0 (Nat.le_refl 0) (by decide) (by decide) (by decide)
  have hr0 : r = 0 := hm'.1.trans (if_neg fun hc => hc.2.1 (by rw [Nat.zero_div, h0, Nat.zero_and]))
  rw [firstPage, hi]
  dsimp only
  rw [hr, hr0]
  exact Bool.false_ne_true

theorem uvmfirst_files {src : List UInt8} (h : Files K s l (AnySpace K root tf 0 + R)) :
    (vm (uvmfirst root src)).Ensures s fun _ s' => ∃ m, s' = s.withMem m ∧
      (Files K s' l (AnySpace K root tf PGSIZE + R) ∨ ∃ mem, Files K s' l (AnySpace K root tf 0 + (page mem + R))) := by
  have hs := h.sat
  rw [add_left_comm] at hs
  intro a s' he
  obtain ⟨m, rfl, hm⟩ := vm_ensures (uvmfirst_ensures hs) a s' he
  refine ⟨m, rfl, ?_⟩
  obtain hm | ⟨mem, hm⟩ := hm
  · rw [add_left_comm] at hm
    exact .inl ⟨h.table, hm, h.refs⟩
  · rw [add_left_comm (page mem), add_left_comm] at hm
    exact .inr ⟨mem, h.table, hm, h.refs⟩

/-- The tables before userinit meet the invariant. -/
theorem inv_empty (hproc : s.proc = fun _ => {}) (hf : s.file = fun _ => {})
    (hs : (world K).Sat s.mem (argPages s.kernelPages)) : Inv K s := by
  have hrefs : refsOf s.proc = 0 := by
    rw [refsOf, hproc]
    exact Finset.sum_eq_zero fun p _ => Finset.sum_eq_zero fun fd _ => rfl
  have hall : allMem K s = argPages s.kernelPages := by
    rw [allMem, hproc, Finset.sum_eq_zero fun p _ => procMem_unused rfl, zero_add]
  refine ⟨?_, fun q => ?_⟩
  · rw [hrefs, hall]
    exact files_empty hf hs
  · rw [hproc]
    exact ⟨fun _ => ⟨rfl, rfl, rfl⟩, fun _ _ => rfl⟩

theorem userinit_ensures (h : Inv K s) : userinit.Ensures s fun _ s' => firstPage s' = true → Inv K s' := by
  refine .bind (.of_returns (allocproc_spec h.files h.procs)) fun r s1 h1 => ?_
  cases r with
  | none => exact .panic
  | some p =>
    obtain ⟨-, hk, hun, x, hp1, hx, hsz, ho, hf1⟩ := h1
    refine .modify (.get ?_)
    dsimp only
    rw [hp1, Function.update_self]
    rw [userMem, add_assoc, add_left_comm] at hf1
    refine .bind (uvmfirst_files (hf1.congr rfl rfl)) fun _ s2 h2 => ?_
    obtain ⟨m2, hs2, h2⟩ := h2
    -- the process has its page, or none and a page is lost
    obtain ⟨z, R, hz, hf2⟩ : ∃ z R, ((z = PGSIZE ∧ R = allMem K s) ∨ z = 0) ∧
        Files K s2 (refsOf s.proc) (userMem K x.trapframe x.pagetable z + R) := by
      obtain h2 | ⟨mem, h2⟩ := h2
      · rw [add_left_comm, ← add_assoc] at h2
        exact ⟨PGSIZE, _, .inl ⟨rfl, rfl⟩, h2⟩
      · rw [add_left_comm (page mem), add_left_comm, ← add_assoc] at h2
        exact ⟨0, _, .inr rfl, h2⟩
    refine .modify (.of_returns ?_)
    have hf3 : Files K (s2.updProc p fun x => { x with sz := PGSIZE }) (refsOf s.proc) _ := hf2.congr rfl rfl
    refine hf3.vm_bind (userMem_trapframe (store_page (by decide))) _ le_rfl fun _ m3 hm => ?_
    refine hm.vm_bind (userMem_trapframe (store_page (by decide))) _ le_rfl fun _ m4 hm => ?_
    set s4 := ((s2.updProc p fun x => { x with sz := PGSIZE }).withMem m3).withMem m4 with hs4
    set s5 := s4.updProc p fun x => { x with name := "initcode".toUTF8.toList, state := .RUNNABLE } with hs5
    set y : Proc := { x with sz := PGSIZE, name := "initcode".toUTF8.toList, state := .RUNNABLE } with hy
    have hp5 : s5.proc = Function.update s.proc p y := by
      rw [hs5, hs4, hs2]
      simp [hy]
    have hi5 : s5.initproc = some p := by
      rw [hs5, hs4, hs2]
      rfl
    have hf5 : Files K s5 (refsOf s.proc) (userMem K x.trapframe x.pagetable z + R) := hm.congr rfl rfl
    refine ⟨(), s5, rfl, fun hfirst => ?_⟩
    obtain ⟨rfl, rfl⟩ | rfl := hz
    · have hyst : y.state ≠ .UNUSED := fun h0 => by cases h0
      refine h.of_update_same (p := p) (x := y) ?_ hp5 ?_ ⟨fun h0 => absurd h0 hyst, fun h0 => ?_⟩ ho
      · rw [procMem_live hyst, restMem_unused hun]
        have e : userMem K y.trapframe y.pagetable y.sz = userMem K x.trapframe x.pagetable PGSIZE := rfl
        rw [e]
        exact hf5
      · rw [hs5, hs4, hs2]
        exact hk
      · obtain h0 | h0 := h0 <;> cases h0
    · have hs := hf5.sat
      rw [userMem, add_comm (page _), add_assoc, add_left_comm] at hs
      have hpt : (s5.proc p).pagetable = x.pagetable := by rw [hp5, Function.update_self]
      rw [← hpt] at hs
      exact absurd hfirst (not_firstPage hi5 hs)

theorem main_ensures {k : Nat} (h : PowerOn K s) : (main k).Ensures s fun _ s' => firstPage s' = true → Inv K s' := by
  obtain ⟨ram, fails, rfl⟩ := h
  have h0 : (world K).Sat { layout := K, ram, freelist := 0, fails } (argPages K.pages + 0) := by
    rw [add_zero]
    exact sat_powerOn rfl rfl
  refine .bind (vm_ensures (.of_triple kinit_spec h0)) fun _ s1 h1 => ?_
  obtain ⟨m1, rfl, h1⟩ := h1
  refine .bind (vm_ensures (bootAlloc_ensures (l := []) h1)) fun l s2 h2 => .modify ?_
  obtain ⟨m2, rfl, h2⟩ := h2
  rw [add_zero] at h2
  exact userinit_ensures (inv_empty rfl rfl h2)

theorem Booted.inv (h : Booted K s) : Inv K s := by
  obtain ⟨k, s₀, h₀, hm, hfirst⟩ := h
  exact main_ensures h₀ () s hm hfirst

end Sys

end Xv6
