/-
References to files are counted exactly. Between system calls a file's `ref` is the number
of descriptors that refer to it, and a failed call leaves every count and every descriptor
as it was. A pipe's page is not on the free list while one of its ends is open, and the
call that closes the last end puts it there, once: what such a call leaves of memory beside
the pipes and the free list is the pages it was before (`Files.of_owns`).
-/
import Xv6.Proc.Turns
import Xv6.Proc.Memory

namespace Xv6

open Lib Lib.Own Mem

namespace Sys

variable {K : Layout} {s s' : Sys} {p : Fin NPROC} {f : Fin NFILE} {pg : Nat}

/-! ## Counting -/

/-- The descriptors that refer to `f`. -/
def slotsOf (s : Sys) (f : Fin NFILE) : Finset (Fin NPROC × Fin NOFILE) :=
  Finset.univ.filter fun x => (s.proc x.1).ofile x.2 = some f

theorem slotsOf_card_ne_zero {fd : Fin NOFILE} (h : (s.proc p).ofile fd = some f) : (slotsOf s f).card ≠ 0 := by
  refine Finset.card_ne_zero_of_mem (a := (p, fd)) ?_
  simp [slotsOf, h]

theorem count_refsOf (s : Sys) (f : Fin NFILE) : (refsOf s.proc).count f = (slotsOf s f).card := by
  have hone (o : Option (Fin NFILE)) : (o.elim 0 ({·}) : Multiset (Fin NFILE)).count f = if o = some f then 1 else 0 := by
    cases o with
    | none => simp
    | some g => simp [Multiset.count_singleton, eq_comm]
  simp only [refsOf, ofileRefs, Multiset.count_sum', hone, slotsOf, Finset.card_filter, Fintype.sum_prod_type]

/-! ## Failed calls -/

theorem ref_of_opened {x y : File} (h : x.opened = y.opened) : x.ref = y.ref := by
  simp only [File.opened] at h
  split at h <;> split at h <;> simp_all

/-- A call that returns -1 and makes no process leaves the descriptors and the files in use. -/
theorem Turn.failed {T T' : Table} {c : Call} (h : Turn T p c (.ret (-1)) T')
    (hf : c = .fork → ∀ q, (T'.faces q).live = true → (T.faces q).live = true) :
    (∀ q, (T'.faces q).ofile = (T.faces q).ofile) ∧ T'.opened = T.opened := by
  generalize hr : Result.ret (-1) = r at h
  cases h with
  | keeps _ => exact ⟨fun _ => rfl, rfl⟩
  | files _ _ h _ => exact absurd hr.symm h
  | refused _ =>
    refine ⟨fun q => ?_, rfl⟩
    rw [Table.next_faces, Table.upd_apply]
    split
    · next h => rw [h, Face.freed]
    · rfl
  | @forks k o F hk _ =>
    have := hf rfl k (by simp)
    rw [hk] at this
    cases this
  | reaps _ _ =>
    refine ⟨fun q => ?_, rfl⟩
    rw [Table.upd_apply]
    split
    · next h => rw [h, Face.freed]
    · rfl
  | kills _ => cases hr

/-! ## The pages of pipes -/

/-- An end of the pipe at `pg` is open. -/
def PipeOpen (s : Sys) (pg : Nat) : Prop :=
  ∃ i, 0 < (s.file i).ref ∧ (s.file i).type = .FD_PIPE ∧ (s.file i).pipe = pg

theorem pipeOpen_iff (h : FileTable K s.file) : PipeOpen s pg ↔ pg ∈ holdings s .pipe := by
  have href (i : Fin NFILE) (hi : (s.file i).type = .FD_PIPE) : 0 < (s.file i).ref := by
    refine Nat.pos_of_ne_zero fun h0 => ?_
    rw [h.free i h0] at hi
    cases hi
  simp only [PipeOpen, holdings, Finset.mem_val, Finset.mem_image, Finset.mem_filter, Finset.mem_univ, true_and]
  exact exists_congr fun i => ⟨fun hi => hi.2, fun hi => ⟨href i hi.1, hi⟩⟩

/-- Files in use that stay what they are keep their pipes open. -/
theorem PipeOpen.opens (h : PipeOpen s pg) (ho : Opens s.table.opened s'.table.opened) : PipeOpen s' pg := by
  obtain ⟨i, hr, ht, hp⟩ := h
  obtain ⟨y, hy, h1, h2, -⟩ := ho i (s.file i) (if_neg (by omega))
  simp only [table, File.opened] at hy
  split at hy
  · cases hy
  · next h0 =>
    cases hy
    exact ⟨i, Nat.pos_of_ne_zero h0, h1.trans ht, h2.trans hp⟩

/-- **What is neither a pipe nor free is the rest**: so the free list and the pipes make up the other pages. -/
theorem Files.of_owns {l : Multiset (Fin NFILE)} {S : Multiset Nat} (h : Files K s l (owns S)) :
    holdings s .free + holdings s .pipe + S = K.pages := by
  obtain ⟨T, hT, hsub, S₂, U, rfl, h₂, rfl⟩ := sat_split h.sat
  simp only [Multiset.mem_add, or_imp, forall_and] at hsub
  rw [hT, ← holds_pipes h.table h₂ hsub.1, holdings, add_assoc]

/-- Whatever the rest of memory is used for, it is some pages. -/
theorem Files.owns {l : Multiset (Fin NFILE)} {P R : Own Nat Page} (h : Files K s l (P + R)) :
    ∃ S, Files K s l (P + owns S) := by
  obtain ⟨hK, fl, S₁, T, hT, h₁, S₂, U, rfl, h₂, S₃, S₄, rfl, h₃, h₄⟩ := sat_iff.mp h.sat
  exact ⟨S₄, h.table, sat_iff.mpr ⟨hK, fl, S₁, _, hT, h₁, S₂, _, rfl, h₂, S₃, S₄, rfl, h₃, rfl⟩, h.refs⟩

theorem page_add_owns {pa : Nat} {S : Multiset Nat} : page pa + owns S ≤ owns (pa ::ₘ S) := by
  rintro m T ⟨S₁, S₂, rfl, h₁, rfl⟩
  rw [holds_page h₁]
  rfl

theorem sysClose_files {R : Own Nat Page} {a : Nat} (h : Files K s (refsOf s.proc) R) :
    (sysClose p a).Ensures s fun _ s' => (s'.proc p).trapframe = (s.proc p).trapframe ∧ ∃ l, Files K s' l R := by
  refine .bind (.of_returns argfd_spec) fun r s0 h0 => ?_
  obtain ⟨rfl, hr⟩ := h0
  cases r with
  | none => exact .pure ⟨rfl, _, h⟩
  | some x =>
    rw [← refsOf_close (hr _ rfl)] at h
    refine .modify (.bind (.of_returns (fileclose_spec (h.congr rfl rfl))) fun _ s2 h2 => .pure ⟨?_, _, h2.2⟩)
    rw [h2.1.proc]
    simp [Proc.setFd]

theorem exit_files {R : Own Nat Page} {status : Int} (h : Files K s (refsOf s.proc) R) :
    (exit p status).Ensures s fun _ s' => ∃ l, Files K s' l R := by
  refine .get ?_
  split
  · exact .panic
  · refine .bind (.of_returns (closeFiles_spec h)) fun _ s1 h1 => .modify (.update ?_)
    obtain ⟨o, -, -, -, hf⟩ := h1
    exact ⟨_, hf.congr rfl rfl⟩

/-- Two accounts of memory with the same rest. -/
theorem freed_of_rest {S : Multiset Nat} (h : holdings s .free + holdings s .pipe + S = K.pages)
    (h' : holdings s' .free + holdings s' .pipe + S = K.pages) (hpg : pg ∈ holdings s .pipe)
    (hpg' : pg ∉ holdings s' .pipe) : (holdings s' .free).count pg = 1 := by
  have hle : (K.pages : Multiset Nat).count pg ≤ 1 := Multiset.nodup_iff_count_le_one.mp (Multiset.coe_nodup.mpr K.nodup_pages) pg
  have hpos := Multiset.count_pos.mpr hpg
  have h0 := Multiset.count_eq_zero_of_notMem hpg'
  have hc := congrArg (Multiset.count pg) h
  have hc' := congrArg (Multiset.count pg) h'
  rw [Multiset.count_add, Multiset.count_add] at hc hc'
  omega

/-- **A call that closes the last end of a pipe puts its page on the free list.** -/
theorem syscall_frees {c : Call} (h : Inv K s) (hp : (s.proc p).state = .RUNNABLE) (hc : c.closes = true)
    (hpg : pg ∈ holdings s .pipe) :
    (syscall p c).Ensures s fun _ s' => pg ∉ holdings s' .pipe → (holdings s' .free).count pg = 1 := by
  have hlive : (s.proc p).state ≠ .UNUSED := by simp [hp]
  cases c with
  | close a =>
    have hf := h.live hlive
    rw [userMem, add_assoc] at hf
    obtain ⟨S, hf⟩ := hf.owns
    have hd : (dispatch p (.close a)).Ensures s fun r s' => (∃ v, r = .ret v) ∧
        (s'.proc p).trapframe = (s.proc p).trapframe ∧ ∃ l, Files K s' l (page (s.proc p).trapframe + owns S) :=
      .bind (sysClose_files hf) fun v s1 h1 => .pure ⟨⟨v, rfl⟩, h1⟩
    refine .bind hd fun r s1 h1 => ?_
    obtain ⟨⟨v, rfl⟩, htf, l, h1⟩ := h1
    refine .get (.of_returns ?_)
    rw [htf]
    refine h1.vm_bind (store_page (by decide)) _ le_rfl fun _ m hm => .pure fun hno => ?_
    exact freed_of_rest (hf.mono page_add_owns).of_owns (hm.mono page_add_owns).of_owns hpg hno
  | exit status =>
    have hf := h.files
    rw [← zero_add (allMem K s)] at hf
    obtain ⟨S, hf⟩ := hf.owns
    rw [zero_add] at hf
    have hd : (dispatch p (.exit status)).Ensures s fun r s' => r = .gone ∧ ∃ l, Files K s' l (owns S) :=
      .bind (exit_files hf) fun _ s1 h1 => .pure ⟨rfl, h1⟩
    refine .bind hd fun r s1 h1 => ?_
    obtain ⟨rfl, l, h1⟩ := h1
    exact .pure fun hno => freed_of_rest hf.of_owns h1.of_owns hpg hno
  | _ => cases hc

/-- The same of a step: a pipe that is closed in it is freed in it. -/
theorem step_frees {a : Action} (h : Inv K s) (hs : step s a = .ok s') (hpg : PipeOpen s pg) (hno : ¬ PipeOpen s' pg) :
    (holdings s' .free).count pg = 1 := by
  have h' : Inv K s' := by
    have := step_inv (a := a) h
    rwa [hs] at this
  obtain ht | ⟨p, c, fails, r, rfl, hp, ht⟩ := step_turn hs
  · exact absurd (hpg.opens (ht ▸ .refl _)) hno
  · cases hc : c.closes with
    | true =>
      rw [pipeOpen_iff h'.files.table] at hno
      rw [pipeOpen_iff h.files.table] at hpg
      simp only [step, if_pos hp] at hs
      split at hs
      · next he =>
        cases hs
        exact syscall_frees (h.withFails fails) hp hc hpg _ _ he hno
      · cases hs
      · cases hs
    | false =>
      refine absurd (hpg.opens ?_) hno
      generalize s'.table = T' at ht
      cases ht with
      | keeps _ | refused _ | reaps _ _ | kills _ => exact .refl _
      | files _ _ _ ho => exact ho hc
      | forks _ ho => exact ho

/-- **File references are exact.** In every state between system calls: a file's count is the number of descriptors
that refer to it; a file without references is referred to by none and has no type; a call that fails (returns -1, and
made no process if it was a fork) leaves every count and every descriptor as it was; neither filedup nor fileclose
panics; and the page of a pipe with an open end is not on the free list, while the step after which the pipe has no
open end leaves it there exactly once. -/
theorem file_refs_exact (h : Reach step (Booted K) s) :
    (∀ i, (s.file i).ref = (slotsOf s i).card) ∧
    (∀ i, (s.file i).ref = 0 → (∀ p fd, (s.proc p).ofile fd ≠ some i) ∧ (s.file i).type = .FD_NONE) ∧
    (∀ p c fails s', (s.proc p).state = .RUNNABLE →
      dispatch p c (s.withMem (s.mem.withFails fails)) = .ok (.ret (-1), s') →
      (c = .fork → ∀ q, (s'.proc q).state ≠ .UNUSED → (s.proc q).state ≠ .UNUSED) →
      (∀ i, (s'.file i).ref = (s.file i).ref) ∧ ∀ q, (s'.proc q).ofile = (s.proc q).ofile) ∧
    (∀ a, step s a ≠ .panic "filedup" ∧ step s a ≠ .panic "fileclose") ∧
    ∀ pg, PipeOpen s pg → pg ∉ holdings s .free ∧
      ∀ a s', step s a = .ok s' → ¬ PipeOpen s' pg → (holdings s' .free).count pg = 1 := by
  have hi := inv_of_reach h
  have hcount (i : Fin NFILE) : (s.file i).ref = (slotsOf s i).card := by rw [hi.files.refs, count_refsOf]
  refine ⟨hcount, fun i h0 => ⟨fun p fd hfd => ?_, hi.files.table.free i h0⟩, fun p c fails s' hp he hf => ?_, fun a => ?_,
    fun pg hpg => ⟨fun hfree => ?_, fun a s' hs hno => step_frees hi hs hpg hno⟩⟩
  · rw [hcount] at h0
    exact slotsOf_card_ne_zero hfd h0
  · have ht := dispatch_turn (s := s.withMem (s.mem.withFails fails)) hp c _ _ he
    obtain ⟨ho, hopen⟩ := ht.failed fun hc q hq => by simpa [Proc.face] using hf hc q (by simpa [Proc.face] using hq)
    exact ⟨fun i => ref_of_opened (congrFun hopen i), ho⟩
  · have hpanic {msg : String} (he : step s a = .panic msg) : msg = "init exiting" := by
      have := step_inv (a := a) hi
      rwa [he] at this
    exact ⟨fun he => absurd (hpanic he) (by decide), fun he => absurd (hpanic he) (by decide)⟩
  · cases hi.owner_unique hfree ((pipeOpen_iff hi.files.table).mp hpg)

theorem file_refs_exact_demo : ∃ s, demo = some s ∧ demoBusy s = true ∧ (slotsOf s ⟨0, by decide⟩).card = 2 := by
  obtain ⟨s, hs, hb⟩ := demo_busy
  have h := (file_refs_exact (demo_reach hs)).1 ⟨0, by decide⟩
  refine ⟨s, hs, hb, ?_⟩
  simp only [demoBusy, decide_eq_true_eq] at hb
  rw [← h, hb.2.2]

end Sys

end Xv6
