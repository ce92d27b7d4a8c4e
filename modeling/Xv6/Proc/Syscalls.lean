/-
Every system call keeps the account of memory (`Inv`) and returns: the only panic a step
can end in is init's own exit. Booting establishes the account, so it holds along every
run.
-/
import Xv6.Proc.Processes

namespace Xv6

open Lib Lib.Own Mem

namespace Sys

variable {K : Layout} {s s' : Sys} {p : Fin NPROC} {l : Multiset (Fin NFILE)} {R : Own Nat Page} {f : Fin NFILE}

/-! ## exec -/

theorem exec_spec {namei : List UInt8 → Option Inode} {path : List UInt8} {argv : List Nat}
    (hf : Files K s l (userMem K (s.proc p).trapframe (s.proc p).pagetable (s.proc p).sz + (argPages argv + R))) :
    (exec namei p path argv).Returns s fun _ s' => ∃ x : Proc, s'.proc = Function.update s.proc p x ∧
      x.state = (s.proc p).state ∧ x.ofile = (s.proc p).ofile ∧ s'.kernelPages = s.kernelPages ∧
      Files K s' l (userMem K x.trapframe x.pagetable x.sz + (argPages argv + R)) := by
  have hsame (m : Mem) (hm : Files K (s.withMem m) l
      (userMem K (s.proc p).trapframe (s.proc p).pagetable (s.proc p).sz + (argPages argv + R))) :
      ∃ x : Proc, (s.withMem m).proc = Function.update s.proc p x ∧ x.state = (s.proc p).state ∧
        x.ofile = (s.proc p).ofile ∧ (s.withMem m).kernelPages = s.kernelPages ∧
        Files K (s.withMem m) l (userMem K x.trapframe x.pagetable x.sz + (argPages argv + R)) :=
    ⟨s.proc p, (Function.update_eq_self p s.proc).symm, rfl, rfl, rfl, hm⟩
  have htf : (s.proc p).trapframe ∈ K.pages := by
    have hs := hf.sat
    rw [userMem, add_assoc, add_left_comm] at hs
    exact sat_page_mem hs
  rw [exec]
  split
  · exact .pure (hsame s.mem hf)
  · next ip hip =>
    refine .get ?_
    have hf' := hf.mono (add_left_comm _ _ _).le
    refine hf'.vm_bind (execImage_spec htf) _ le_rfl fun r m hm => ?_
    cases r with
    | none =>
      rw [ImageSpace, zero_add, add_left_comm] at hm
      exact .pure (hsame m hm)
    | some img =>
      -- the old space and the new one, and the trapframe the two share
      have hm : Files K (s.withMem m) l (page (s.proc p).trapframe +
          (AnySpace K (s.proc p).pagetable (s.proc p).trapframe (s.proc p).sz +
            (AnySpace K img.pagetable (s.proc p).trapframe img.sz + (argPages argv + R)))) := by
        refine hm.mono (le_of_eq ?_)
        rw [ImageSpace, userMem]
        abel
      refine hm.vm_bind (store_page (by decide)) _ le_rfl fun _ m1 hm => .modify ?_
      have hm : Files K (((s.withMem m).withMem m1).updProc p fun x =>
          { x with name := execName path, pagetable := img.pagetable, sz := img.sz }) l _ := hm.congr rfl rfl
      refine hm.vm_bind (store_page (by decide)) _ le_rfl fun _ m2 hm => ?_
      refine hm.vm_bind (store_page (by decide)) _ le_rfl fun _ m3 hm => ?_
      rw [add_left_comm] at hm
      refine hm.vm_bind AnySpace.procFreepagetable_spec _ le_rfl fun _ m4 hm => .pure ?_
      rw [zero_add, ← add_assoc] at hm
      exact ⟨_, rfl, rfl, rfl, rfl, hm⟩

theorem sysExec_kept {namei : List UInt8 → Option Inode} {upath uargv : Nat} (h : Inv K s)
    (hp : (s.proc p).state ≠ .UNUSED) : (sysExec namei p upath uargv).Returns s fun _ s' => Kept K p s' := by
  have hsame (m : Mem) (hm : Files K (s.withMem m) (refsOf s.proc)
      (userMem K (s.proc p).trapframe (s.proc p).pagetable (s.proc p).sz + restMem K s p)) : Kept K p (s.withMem m) :=
    h.kept hm (Function.update_eq_self p s.proc).symm rfl hp rfl rfl
  rw [sysExec]
  refine .get ((h.live hp).vm_bind (userMem_triple fetchstr_spec) _ le_rfl fun r m hm => ?_)
  cases r with
  | none => exact .pure (hsame m hm)
  | some path =>
    have hm : Files K (s.withMem m) (refsOf s.proc)
        ((AnySpace K (s.proc p).pagetable (s.proc p).trapframe (s.proc p).sz + argPages []) +
          (page (s.proc p).trapframe + restMem K s p)) := by
      refine hm.mono (le_of_eq ?_)
      rw [show argPages [] = 0 from rfl]
      abel
    dsimp only
    refine hm.vm_bind fetchArgs_spec _ le_rfl fun r m1 hm => ?_
    obtain ⟨ok, argv⟩ := r
    have hm1 : Files K ((s.withMem m).withMem m1) (refsOf s.proc)
        (userMem K (s.proc p).trapframe (s.proc p).pagetable (s.proc p).sz + (argPages argv + restMem K s p)) := by
      refine hm.mono (le_of_eq ?_)
      rw [userMem]
      abel
    cases ok with
    | false =>
      rw [add_left_comm] at hm1
      refine hm1.vm_bind freeArgs_spec _ le_rfl fun _ m2 hm2 => .pure ?_
      rw [zero_add] at hm2
      exact hsame m2 hm2
    | true =>
      refine .bind (exec_spec hm1) fun _ s2 h2 => ?_
      obtain ⟨x, hp2, hst, ho, hk, hf⟩ := h2
      rw [add_left_comm] at hf
      refine hf.vm_bind freeArgs_spec _ le_rfl fun _ m3 hm3 => .pure ?_
      rw [zero_add] at hm3
      exact h.kept hm3 hp2 hk hp hst ho

theorem sysSbrk_kept {a : Nat} (h : Inv K s) (hp : (s.proc p).state ≠ .UNUSED) :
    (sysSbrk p a).Returns s fun _ s' => Kept K p s' := by
  rw [sysSbrk]
  refine .get (.bind (growproc_kept h hp) fun r s' h' => ?_)
  split
  · exact .pure h'
  · exact .pure h'

/-! ## The calls on descriptors -/

/-- Back to the invariant after a change of the caller's descriptors. -/
theorem Inv.kept_files {o : Fin NOFILE → Option (Fin NFILE)} (h : Inv K s) (hp : (s.proc p).state = .RUNNABLE)
    (hs' : s'.proc = Function.update s.proc p ((s.proc p).withFiles o)) (hk : s'.kernelPages = s.kernelPages)
    (hf : Files K s' (refsOf s'.proc) (allMem K s)) : Kept K p s' := by
  have hx : ((s.proc p).withFiles o).state = .RUNNABLE := hp
  refine ⟨h.of_update ?_ hs' hk ⟨fun h0 => ?_, fun h0 => ?_⟩, ?_⟩
  · rw [allMem_eq K s p] at hf
    exact hf
  · rw [hx] at h0
    cases h0
  · rw [hx] at h0
    obtain h0 | h0 := h0 <;> cases h0
  · rw [hs', Function.update_self, hx]
    decide

/-- The same when the caller's descriptors are what they were. -/
theorem Inv.kept_same (h : Inv K s) (hp : (s.proc p).state = .RUNNABLE) (hs' : s'.proc = s.proc)
    (hk : s'.kernelPages = s.kernelPages) (hf : Files K s' (refsOf s.proc) (allMem K s)) : Kept K p s' :=
  h.kept_files hp (o := (s.proc p).ofile) (hs'.trans (Function.update_eq_self p s.proc).symm) hk (hs'.symm ▸ hf)

theorem sysDup_kept {a : Nat} (h : Inv K s) (hp : (s.proc p).state = .RUNNABLE) :
    (sysDup p a).Returns s fun _ s' => Kept K p s' := by
  rw [sysDup]
  refine .bind argfd_spec fun r s0 h0 => ?_
  obtain ⟨rfl, hr⟩ := h0
  cases r with
  | none => exact .pure (h.kept_same hp rfl rfl h.files)
  | some x =>
    obtain ⟨fd, f⟩ := x
    refine .bind fdalloc_spec fun r s1 h1 => ?_
    cases r with
    | none =>
      obtain rfl : s1 = s0 := h1
      exact .pure (h.kept_same hp rfl rfl h.files)
    | some fd' =>
      obtain ⟨hno, rfl⟩ := h1
      have hf1 : Files K (s0.updProc p (·.setFd fd' (some f))) (refsOf s0.proc) (allMem K s0) := h.files.congr rfl rfl
      refine .bind (filedup_spec hf1 (hf1.ref_pos (mem_refsOf (hr _ rfl)))) fun _ s2 h2 => .pure ?_
      obtain ⟨ho, hf2⟩ := h2
      refine h.kept_files hp ho.proc ho.kernelPages ?_
      rw [ho.proc, updProc_proc, refsOf_open hno]
      exact hf2

theorem sysClose_kept {a : Nat} (h : Inv K s) (hp : (s.proc p).state = .RUNNABLE) :
    (sysClose p a).Returns s fun _ s' => Kept K p s' := by
  rw [sysClose]
  refine .bind argfd_spec fun r s0 h0 => ?_
  obtain ⟨rfl, hr⟩ := h0
  cases r with
  | none => exact .pure (h.kept_same hp rfl rfl h.files)
  | some x =>
    obtain ⟨fd, f⟩ := x
    refine .modify ?_
    have hf1 := h.files
    rw [← refsOf_close (hr _ rfl)] at hf1
    have hf1 : Files K (s0.updProc p (·.setFd fd none)) _ _ := hf1.congr rfl rfl
    refine .bind (fileclose_spec hf1) fun _ s2 h2 => .pure ?_
    obtain ⟨ho, hf2⟩ := h2
    refine h.kept_files hp ho.proc ho.kernelPages ?_
    rw [ho.proc]
    exact hf2

theorem sysOpen_kept {found : Option Opened} (h : Inv K s) (hp : (s.proc p).state = .RUNNABLE) :
    (sysOpen p found).Returns s fun _ s' => Kept K p s' := by
  unfold sysOpen
  split
  · exact .pure (h.kept_same hp rfl rfl h.files)
  · next ip _ =>
    refine .bind (filealloc_spec h.files) fun r s1 h1 => ?_
    cases r with
    | none =>
      obtain rfl : s1 = s := h1
      exact .pure (h.kept_same hp rfl rfl h.files)
    | some f =>
      obtain ⟨hr0, rfl, hf1⟩ := h1
      refine .bind fdalloc_spec fun r s2 h2 => ?_
      cases r with
      | none =>
        obtain rfl : s2 = _ := h2
        refine .bind (fileclose_spec hf1) fun _ s3 h3 => .pure ?_
        exact h.kept_same hp h3.1.proc h3.1.kernelPages h3.2
      | some fd =>
        obtain ⟨hno, rfl⟩ := h2
        refine .modify (.pure (h.kept_files hp rfl rfl ?_))
        have ht : ((s.updFile f fun x => { x with ref := 1 }).file f).type = .FD_NONE := by
          rw [updFile_file, Function.update_self]
          exact h.files.table.free f hr0
        rw [updFile_proc, updProc_proc, refsOf_open hno]
        refine Files.setFile (hf1.congr rfl rfl) ?_ ?_ ?_ rfl
        · rw [updProc_file, ht]
          decide
        · exact (hf1.ref_pos (Multiset.mem_cons_self f _)).ne'
        · dsimp only
          split <;> decide

/-- Both ends of a pipe are given back. -/
theorem pipeUndo_spec {fds : List (Fin NOFILE)} {rf wf : Fin NFILE} (h : Files K s (rf ::ₘ wf ::ₘ l) R) :
    (pipeUndo p fds rf wf).Returns s fun _ s' =>
      s'.proc = Function.update s.proc p (fds.foldl (fun x fd => x.setFd fd none) (s.proc p)) ∧
      s'.kernelPages = s.kernelPages ∧ Files K s' l R := by
  rw [pipeUndo]
  refine .modify (.bind (fileclose_spec (h.congr rfl rfl)) fun _ s1 h1 => .bind (fileclose_spec h1.2) fun _ s2 h2 => .pure ?_)
  exact ⟨h2.1.proc.trans h1.1.proc, h2.1.kernelPages.trans h1.1.kernelPages, h2.2⟩

/-- Taking descriptors away again. -/
theorem foldl_setFd {x y : Proc} {fds : List (Fin NOFILE)} (hy : y = x.withFiles y.ofile)
    (hin : ∀ fd ∈ fds, x.ofile fd = none) (hout : ∀ fd ∉ fds, y.ofile fd = x.ofile fd) :
    fds.foldl (fun x fd => x.setFd fd none) y = x := by
  induction fds generalizing y with
  | nil =>
    have : y.ofile = x.ofile := funext fun fd => hout fd List.not_mem_nil
    rw [List.foldl_nil, hy, this]
    rfl
  | cons fd fds ih =>
    refine ih ?_ (fun fd' h' => hin fd' (List.mem_cons_of_mem fd h')) fun fd' h' => ?_
    · rw [hy]
      rfl
    · rw [Proc.setFd_ofile]
      by_cases he : fd' = fd
      · rw [he, Function.update_self, hin fd List.mem_cons_self]
      · rw [Function.update_of_ne he]
        exact hout fd' fun hm => (List.mem_cons.mp hm).elim he h'

/-- The copyouts of sys_pipe, to the caller's memory. -/
theorem Files.copyout_bind {β : Type} {va : Nat} {data : List UInt8} {x : Proc} {g : Int → Code Sys β} {T : β → Sys → Prop}
    (h : Files K s l (userMem K x.trapframe x.pagetable x.sz + R))
    (hT : ∀ r m, Files K (s.withMem m) l (userMem K x.trapframe x.pagetable x.sz + R) → (g r).Returns (s.withMem m) T) :
    (vm (copyout x.pagetable va data) >>= g).Returns s T :=
  h.vm_bind (userMem_triple AnySpace.copyout_spec) R le_rfl hT

theorem sysPipe_kept {fdarray : Nat} (h : Inv K s) (hp : (s.proc p).state = .RUNNABLE) :
    (sysPipe p fdarray).Returns s fun _ s' => Kept K p s' := by
  have hlive : (s.proc p).state ≠ .UNUSED := by rw [hp]; decide
  rw [sysPipe]
  refine .bind (pipealloc_spec h.files) fun r s1 h1 => ?_
  obtain ⟨ho1, hf1⟩ := h1
  cases r with
  | none => exact .pure (h.kept_same hp ho1.proc ho1.kernelPages hf1)
  | some x =>
    obtain ⟨rf, wf⟩ := x
    change Files K s1 (rf ::ₘ wf ::ₘ refsOf s.proc) (allMem K s) at hf1
    -- every way back ends in the descriptors of before the call
    have hback {s2 : Sys} {y : Proc} {fds : List (Fin NOFILE)} (hf2 : Files K s2 (rf ::ₘ wf ::ₘ refsOf s.proc) (allMem K s))
        (hs2 : s2.proc = Function.update s.proc p y) (hk2 : s2.kernelPages = s.kernelPages)
        (hy : y = (s.proc p).withFiles y.ofile) (hin : ∀ fd ∈ fds, (s.proc p).ofile fd = none)
        (hout : ∀ fd ∉ fds, y.ofile fd = (s.proc p).ofile fd) :
        (pipeUndo p fds rf wf).Returns s2 fun _ s' => Kept K p s' := by
      refine (pipeUndo_spec hf2).mono fun _ s' h' => h.kept_same hp ?_ (h'.2.1.trans hk2) h'.2.2
      rw [h'.1, hs2, Function.update_self, foldl_setFd hy hin hout, Function.update_idem, Function.update_eq_self]
    refine .bind fdalloc_spec fun r s2 h2 => ?_
    cases r with
    | none =>
      obtain rfl : s2 = s1 := h2
      refine hback hf1 (ho1.proc.trans (Function.update_eq_self p s.proc).symm) ho1.kernelPages rfl ?_ fun _ _ => rfl
      exact fun _ h => absurd h List.not_mem_nil
    | some fd0 =>
      obtain ⟨hno0, hs2⟩ := h2
      rw [ho1.proc] at hno0
      have hp2 : s2.proc = Function.update s.proc p ((s.proc p).setFd fd0 (some rf)) := by
        rw [hs2, updProc_proc, ho1.proc]
      have hk2 : s2.kernelPages = s.kernelPages := by rw [hs2]; exact ho1.kernelPages
      have hf2 : Files K s2 (rf ::ₘ wf ::ₘ refsOf s.proc) (allMem K s) := by rw [hs2]; exact hf1.congr rfl rfl
      refine .bind fdalloc_spec fun r s3 h3 => ?_
      cases r with
      | none =>
        obtain rfl : s3 = s2 := h3
        refine hback hf2 hp2 hk2 rfl (fun fd h => ?_) fun fd h => ?_
        · rw [List.mem_singleton.mp h]
          exact hno0
        · exact Function.update_of_ne (fun he => h (List.mem_singleton.mpr he)) ..
      | some fd1 =>
        obtain ⟨hno1, hs3⟩ := h3
        rw [hp2, Function.update_self] at hno1
        have hne : fd1 ≠ fd0 := by
          rintro rfl
          rw [Proc.setFd_ofile, Function.update_self] at hno1
          cases hno1
        rw [Proc.setFd_ofile, Function.update_of_ne hne] at hno1
        set y := ((s.proc p).setFd fd0 (some rf)).setFd fd1 (some wf) with hy
        have hp3 : s3.proc = Function.update s.proc p y := by
          rw [hs3, updProc_proc, hp2, Function.update_idem, Function.update_self]
        have hk3 : s3.kernelPages = s.kernelPages := by rw [hs3]; exact hk2
        have hf3 : Files K s3 (rf ::ₘ wf ::ₘ refsOf s.proc) (allMem K s) := by rw [hs3]; exact hf2.congr rfl rfl
        have hback3 {m : Mem} (hm : Files K (s3.withMem m) (rf ::ₘ wf ::ₘ refsOf s.proc) (allMem K s)) :
            (pipeUndo p [fd0, fd1] rf wf).Returns (s3.withMem m) fun _ s' => Kept K p s' := by
          refine hback hm hp3 hk3 rfl (fun fd h => ?_) fun fd h => ?_
          · obtain rfl | h := List.mem_cons.mp h
            · exact hno0
            · rw [List.mem_singleton.mp h]
              exact hno1
          · rw [List.mem_cons, List.mem_singleton, not_or] at h
            rw [hy, Proc.setFd_ofile, Proc.setFd_ofile, Function.update_of_ne h.2, Function.update_of_ne h.1]
        have hall : allMem K s = userMem K (s.proc p).trapframe (s.proc p).pagetable (s.proc p).sz + restMem K s p := by
          rw [allMem_eq K s p, procMem_live hlive]
        have hpt : (s3.proc p).pagetable = (s.proc p).pagetable := by
          rw [hp3, Function.update_self]
          rfl
        refine .get ?_
        dsimp only
        rw [hpt]
        rw [hall] at hf3 hback3
        refine hf3.copyout_bind fun r m hm => ?_
        split
        · exact hback3 hm
        · refine hm.copyout_bind fun r m' hm' => ?_
          split
          · exact hback3 hm'
          · refine .pure (h.kept_files (o := y.ofile) hp hp3 hk3 ?_)
            have hrefs : refsOf s3.proc = rf ::ₘ wf ::ₘ refsOf s.proc := by
              rw [hs3, updProc_proc, refsOf_open, hp2, refsOf_open hno0, Multiset.cons_swap]
              rw [hp2, Function.update_self, Proc.setFd_ofile, Function.update_of_ne hne]
              exact hno1
            rw [withMem_proc, withMem_proc, hrefs, hall]
            exact hm'

/-! ## Steps -/

theorem dispatch_inv {c : Call} (h : Inv K s) (hp : (s.proc p).state = .RUNNABLE)
    (hexit : ∀ status, c = .exit status → s.initproc ≠ some p) :
    (dispatch p c).Returns s fun r s' => match r with
      | .gone => Inv K s'
      | _ => Kept K p s' := by
  have hlive : (s.proc p).state ≠ .UNUSED := by rw [hp]; decide
  cases c with
  | fork => exact .bind (fork_kept h hlive) fun _ _ h' => .pure h'
  | exec namei path uargv => exact .bind (sysExec_kept h hlive) fun _ _ h' => .pure h'
  | sbrk n => exact .bind (sysSbrk_kept h hlive) fun _ _ h' => .pure h'
  | pipe fdarray => exact .bind (sysPipe_kept h hp) fun _ _ h' => .pure h'
  | openf found => exact .bind (sysOpen_kept h hp) fun _ _ h' => .pure h'
  | dup fd => exact .bind (sysDup_kept h hp) fun _ _ h' => .pure h'
  | close fd => exact .bind (sysClose_kept h hp) fun _ _ h' => .pure h'
  | exit status => exact .bind (exit_inv h hlive (hexit status rfl)) fun _ _ h' => .pure h'
  | wait addr =>
    refine .bind (wait_kept h hp) fun r s' h' => ?_
    cases r with
    | none => exact .pure h'
    | some r => exact .pure h'
  | kill pid => exact .bind (kill_kept h hlive) fun _ _ h' => .pure h'

theorem syscall_inv {c : Call} (h : Inv K s) (hp : (s.proc p).state = .RUNNABLE)
    (hexit : ∀ status, c = .exit status → s.initproc ≠ some p) : (syscall p c).Returns s fun _ s' => Inv K s' := by
  rw [syscall]
  refine .bind (dispatch_inv h hp hexit) fun r s1 h1 => ?_
  cases r with
  | ret r =>
    obtain ⟨h1, hp1⟩ := h1
    refine .get ((h1.live hp1).vm_bind (userMem_trapframe (store_page (by decide))) _ le_rfl fun _ m hm => .pure ?_)
    exact (h1.kept hm (Function.update_eq_self p s1.proc).symm rfl hp1 rfl rfl).1
  | sleeps => exact .pure h1.1
  | gone => exact .pure h1

/-- Which allocations will fail is no part of the account. -/
theorem Inv.withFails (h : Inv K s) (fails : Nat → Bool) : Inv K (s.withMem (s.mem.withFails fails)) := by
  have hf : Files K (s.withMem (s.mem.withFails fails)) (refsOf s.proc) (allMem K s) :=
    ⟨h.files.table, sat_withFails.mpr h.files.sat, h.files.refs⟩
  refine ⟨?_, h.procs⟩
  rw [allMem_withMem, withMem_proc]
  exact hf

theorem syscall_init_exit {status : Nat} (hi : s.initproc = some p) :
    syscall p (.exit status) s = .error "init exiting" := by
  have hx : exit p (argint status) s = .error "init exiting" := by
    rw [exit, Code.get_bind, if_pos hi]
    rfl
  exact Code.bind_error (Code.bind_error hx)

/-- A user's store to its own memory. -/
theorem userStore_inv (va : Nat) (b : UInt8) (h : Inv K s) (hp : (s.proc p).state ≠ .UNUSED) :
    (vm (copyout (s.proc p).pagetable va [b])).Returns s fun _ s' => Inv K s' :=
  (h.live hp).vm_returns (userMem_triple AnySpace.copyout_spec) _ le_rfl fun _ _ hm =>
    (h.kept hm (Function.update_eq_self p s.proc).symm rfl hp rfl rfl).1

/-- **One step keeps the account**, and does not panic but for init's exit. -/
theorem step_inv {a : Action} (h : Inv K s) :
    match step s a with
    | .ok s' => Inv K s'
    | .panic msg => msg = "init exiting"
    | .disabled => True := by
  cases a with
  | call p c fails =>
    rw [step]
    by_cases hp : (s.proc p).state = .RUNNABLE
    · rw [if_pos hp]
      by_cases hexit : ∃ status, c = .exit status ∧ s.initproc = some p
      · obtain ⟨status, rfl, hi⟩ := hexit
        rw [syscall_init_exit (s := s.withMem (s.mem.withFails fails)) hi]
      · have hexit : ∀ status, c = .exit status → (s.withMem (s.mem.withFails fails)).initproc ≠ some p :=
          fun status hc hi => hexit ⟨status, hc, hi⟩
        obtain ⟨r, s', hr, h'⟩ := syscall_inv (h.withFails fails) hp hexit
        rw [hr]
        cases r with
        | false => trivial
        | true => exact h'
    · rw [if_neg hp]
      trivial
  | store p va b =>
    rw [step]
    by_cases hp : (s.proc p).state = .RUNNABLE
    · rw [if_pos hp]
      obtain ⟨r, s', hr, h'⟩ := userStore_inv (p := p) va b h (by rw [hp]; decide)
      rw [hr]
      exact h'
    · rw [if_neg hp]
      trivial

end Sys

end Xv6
