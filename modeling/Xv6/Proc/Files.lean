/-
The file table and the pipes. A file's `ref` counts the references to it; a file without
references has no type; an open pipe is one page, owned by its (at most two) ends.
`Files K s held R` says so of the references `held`, beside whatever else (`R`) memory is
used for. The functions of file.c and pipe.c keep it and do not panic. Between system
calls `held` is what the descriptor tables refer to (`refsOf`).
-/
import Xv6.Proc.Model

namespace Xv6

open Lib Lib.Own Mem

namespace Sys

/-! ## Memory code in the kernel -/

theorem vm_returns {α : Type} {K : Layout} {P R : Own Nat Page} {c : Code Mem α} {Q : α → Own Nat Page}
    {T : α → Sys → Prop} {s : Sys} (h : Triple (world K) P c Q) (hs : (world K).Sat s.mem (P + R))
    (hT : ∀ a m, (world K).Sat m (Q a + R) → T a (s.withMem m)) : (vm c).Returns s T := by
  obtain ⟨a, m, hc, hm⟩ := h R s.mem hs
  exact ⟨a, s.withMem m, by rw [vm, hc], hT a m hm⟩

theorem keeps_vm {α τ : Type} {g : Sys → τ} (c : Code Mem α) (h : ∀ s m, g (s.withMem m) = g s) : (vm c).Keeps g := by
  intro s a s' he
  simp only [vm] at he
  split at he
  · cases he
    exact h s _
  · cases he

/-- The call changed memory and the file table only. -/
structure OnlyFiles (s s' : Sys) : Prop where
  proc : s'.proc = s.proc
  initproc : s'.initproc = s.initproc
  kernelPages : s'.kernelPages = s.kernelPages

theorem OnlyFiles.refl (s : Sys) : OnlyFiles s s := ⟨rfl, rfl, rfl⟩

theorem OnlyFiles.trans {s s' s'' : Sys} (h : OnlyFiles s s') (h' : OnlyFiles s' s'') : OnlyFiles s s'' :=
  ⟨h'.proc.trans h.proc, h'.initproc.trans h.initproc, h'.kernelPages.trans h.kernelPages⟩

theorem onlyFiles_withMem (s : Sys) (m : Mem) : OnlyFiles s (s.withMem m) := ⟨rfl, rfl, rfl⟩

theorem onlyFiles_updFile (s : Sys) (f : Fin NFILE) (g : File → File) : OnlyFiles s (s.updFile f g) := ⟨rfl, rfl, rfl⟩

/-! ## Who refers to a file -/

/-- The files of a descriptor table, one occurrence for each descriptor. -/
def ofileRefs (o : Fin NOFILE → Option (Fin NFILE)) : Multiset (Fin NFILE) := ∑ fd, (o fd).elim 0 ({·})

def refsOf (proc : Fin NPROC → Proc) : Multiset (Fin NFILE) := ∑ p, ofileRefs (proc p).ofile

theorem ofileRefs_update (o : Fin NOFILE → Option (Fin NFILE)) (fd : Fin NOFILE) (v : Option (Fin NFILE)) :
    ofileRefs (Function.update o fd v) + (o fd).elim 0 ({·}) = ofileRefs o + v.elim 0 ({·}) := by
  rw [ofileRefs, ofileRefs, sum_apply_update (fun v : Option (Fin NFILE) => v.elim 0 ({·})),
    ← Finset.add_sum_erase _ _ (Finset.mem_univ fd)]
  abel

theorem refsOf_update (proc : Fin NPROC → Proc) (p : Fin NPROC) (x : Proc) :
    refsOf (Function.update proc p x) + ofileRefs (proc p).ofile = refsOf proc + ofileRefs x.ofile := by
  rw [refsOf, refsOf, sum_apply_update (fun x : Proc => ofileRefs x.ofile), ← Finset.add_sum_erase _ _ (Finset.mem_univ p)]
  abel

/-- Changing one descriptor. -/
theorem refsOf_setFd (proc : Fin NPROC → Proc) (p : Fin NPROC) (fd : Fin NOFILE) (v : Option (Fin NFILE)) :
    refsOf (Function.update proc p ((proc p).setFd fd v)) +
      ((proc p).ofile fd).elim 0 ({·}) = refsOf proc + v.elim 0 ({·}) := by
  have h := refsOf_update proc p ((proc p).setFd fd v)
  have h' := ofileRefs_update (proc p).ofile fd v
  refine add_right_cancel (b := ofileRefs (proc p).ofile) ?_
  calc _ = (refsOf (Function.update proc p _) + ofileRefs (proc p).ofile) + ((proc p).ofile fd).elim 0 ({·}) := by abel
    _ = refsOf proc + (ofileRefs (Function.update (proc p).ofile fd v) + ((proc p).ofile fd).elim 0 ({·})) := by
      rw [h, add_assoc]
      rfl
    _ = _ := by rw [h']; abel

theorem refsOf_open {proc : Fin NPROC → Proc} {p : Fin NPROC} {fd : Fin NOFILE} {f : Fin NFILE}
    (h : (proc p).ofile fd = none) :
    refsOf (Function.update proc p ((proc p).setFd fd (some f))) =
      f ::ₘ refsOf proc := by
  have hs := refsOf_setFd proc p fd (some f)
  rw [h] at hs
  rw [← Multiset.singleton_add, add_comm, ← add_zero (refsOf (Function.update _ _ _))]
  exact hs

theorem refsOf_close {proc : Fin NPROC → Proc} {p : Fin NPROC} {fd : Fin NOFILE} {f : Fin NFILE}
    (h : (proc p).ofile fd = some f) :
    f ::ₘ refsOf (Function.update proc p ((proc p).setFd fd none)) = refsOf proc := by
  have hs := refsOf_setFd proc p fd none
  rw [h] at hs
  rw [← Multiset.singleton_add, add_comm, ← add_zero (refsOf proc)]
  exact hs

/-- A change of a process that leaves its descriptors alone. -/
theorem refsOf_congr {proc : Fin NPROC → Proc} {p : Fin NPROC} {x : Proc} (h : x.ofile = (proc p).ofile) :
    refsOf (Function.update proc p x) = refsOf proc := by
  refine add_right_cancel (b := ofileRefs (proc p).ofile) ?_
  rw [refsOf_update, h]

theorem refsOf_updProc {s : Sys} {p : Fin NPROC} {g : Proc → Proc} (h : (g (s.proc p)).ofile = (s.proc p).ofile) :
    refsOf (s.updProc p g).proc = refsOf s.proc :=
  refsOf_congr h

theorem mem_refsOf {proc : Fin NPROC → Proc} {p : Fin NPROC} {fd : Fin NOFILE} {f : Fin NFILE}
    (h : (proc p).ofile fd = some f) : f ∈ refsOf proc := by
  refine Multiset.mem_sum.mpr ⟨p, Finset.mem_univ p, Multiset.mem_sum.mpr ⟨fd, Finset.mem_univ fd, ?_⟩⟩
  rw [h]
  exact Multiset.mem_singleton_self f

/-! ## Pipes -/

/-- A pipe with the given ends open. -/
def pipeCell (pg : Nat) (r w : Bool) : Own Nat Page :=
  ex fun c : Page => fact (c.getLE pipeReadopen 4 = r.toNat ∧ c.getLE pipeWriteopen 4 = w.toNat) + cell pg c

/-- A pipe is there as long as one of its ends is. -/
def pipeOwn (pg : Nat) (r w : Bool) : Own Nat Page := if r || w then pipeCell pg r w else 0

theorem pipeCell_le : pipeCell pg r w ≤ page pg := ex_le fun c => fact_add_le fun _ => le_ex c le_rfl

variable {K : Layout} {pg : Nat} {r w : Bool}

theorem pipeinit_spec : Triple (world K) (page pg) (pipeinit pg) fun _ => pipeCell pg true true := by
  refine .ex fun c => .bind (store_field_spec (by decide)) fun _ => .bind (store_field_spec (by decide)) fun _ =>
    .bind (store_field_spec (by decide)) fun _ => (store_field_spec (by decide)).conseq le_rfl fun _ => ?_
  refine le_ex _ (le_fact_add ?_ le_rfl)
  constructor
  · rw [Buffer.getLE_putLE_disjoint (by decide) (by decide), Buffer.getLE_putLE_disjoint (by decide) (by decide),
      Buffer.getLE_putLE_disjoint (by decide) (by decide), Buffer.getLE_putLE (by decide)]
    decide
  · rw [Buffer.getLE_putLE_disjoint (by decide) (by decide), Buffer.getLE_putLE_disjoint (by decide) (by decide),
      Buffer.getLE_putLE (by decide)]
    decide

/-- The flags after one end is closed. -/
theorem pipe_flags {c : Page} {b : Bool} (hc : c.getLE pipeReadopen 4 = r.toNat ∧ c.getLE pipeWriteopen 4 = w.toNat) :
    (c.putLE (if b then pipeWriteopen else pipeReadopen) 4 0).getLE pipeReadopen 4 = (r && b).toNat ∧
      (c.putLE (if b then pipeWriteopen else pipeReadopen) 4 0).getLE pipeWriteopen 4 = (w && !b).toNat := by
  cases b with
  | true =>
    rw [if_pos rfl, Buffer.getLE_putLE_disjoint (by decide) (by decide), Buffer.getLE_putLE (by decide), hc.1]
    simp
  | false =>
    rw [if_neg (by decide), Buffer.getLE_putLE (by decide), Buffer.getLE_putLE_disjoint (by decide) (by decide), hc.2]
    simp

/-- Closing an end, and the pipe with its last end. -/
theorem pipeclose_spec {b : Bool} :
    Triple (world K) (pipeCell pg r w) (pipeclose pg b) fun _ => pipeOwn pg (r && b) (w && !b) := by
  refine .ex fun c => .fact fun hc => ?_
  have hf := pipe_flags (b := b) hc
  refine .bind (store_field_spec (by cases b <;> decide)) fun _ => ?_
  refine .bind (load_field_spec (by decide)) fun x => .fact fun hx => ?_
  refine .bind (load_field_spec (by decide)) fun y => .fact fun hy => ?_
  rw [hf.1] at hx
  rw [hf.2] at hy
  subst hx hy
  refine .when (fun h => ?_) fun h => ?_
  · have hrw : ((r && b) || (w && !b)) = false := by
      revert h
      cases r <;> cases w <;> cases b <;> decide
    rw [pipeOwn, hrw]
    exact kfree_spec.conseq cell_le_page fun _ => le_rfl
  · have hrw : ((r && b) || (w && !b)) = true := by
      revert h
      cases r <;> cases w <;> cases b <;> decide
    rw [pipeOwn, hrw, if_pos rfl]
    exact le_ex _ (le_fact_add hf le_rfl)

/-- One end of the pipe at `pg` is a file. -/
def hasEnd (file : Fin NFILE → File) (pg : Nat) (writable : Bool) : Bool :=
  decide (∃ f, (file f).type = .FD_PIPE ∧ (file f).pipe = pg ∧ (file f).writable = writable)

/-- All pipes there are. -/
def pipes (K : Layout) (file : Fin NFILE → File) : Own Nat Page :=
  ∑ pg ∈ K.pages.toFinset, pipeOwn pg (hasEnd file pg false) (hasEnd file pg true)

/-- The pipes but one. -/
def otherPipes (K : Layout) (file : Fin NFILE → File) (pi : Nat) : Own Nat Page :=
  ∑ pg ∈ K.pages.toFinset.erase pi, pipeOwn pg (hasEnd file pg false) (hasEnd file pg true)

theorem pipes_eq {file : Fin NFILE → File} {pi : Nat} (h : pi ∈ K.pages) :
    pipes K file = pipeOwn pi (hasEnd file pi false) (hasEnd file pi true) + otherPipes K file pi :=
  (Finset.add_sum_erase _ _ (List.mem_toFinset.mpr h)).symm

theorem otherPipes_congr {file file' : Fin NFILE → File} {pi : Nat}
    (h : ∀ pg b, pg ≠ pi → hasEnd file' pg b = hasEnd file pg b) : otherPipes K file' pi = otherPipes K file pi :=
  Finset.sum_congr rfl fun pg hpg => by rw [h pg _ (Finset.ne_of_mem_erase hpg), h pg _ (Finset.ne_of_mem_erase hpg)]

theorem pipes_congr {file file' : Fin NFILE → File} (h : ∀ pg b, hasEnd file' pg b = hasEnd file pg b) :
    pipes K file' = pipes K file :=
  Finset.sum_congr rfl fun pg _ => by rw [h, h]

/-- What a file must look like for a change of it to leave the pipes alone. -/
theorem hasEnd_update {file : Fin NFILE → File} {f : Fin NFILE} {x : File} {pg : Nat} {b : Bool}
    (h : (x.type = .FD_PIPE ∧ x.pipe = pg ∧ x.writable = b) ↔
      ((file f).type = .FD_PIPE ∧ (file f).pipe = pg ∧ (file f).writable = b)) :
    hasEnd (Function.update file f x) pg b = hasEnd file pg b := by
  rw [hasEnd, hasEnd, decide_eq_decide]
  refine exists_congr fun g => ?_
  by_cases hg : g = f
  · subst hg
    rw [Function.update_self]
    exact h
  · rw [Function.update_of_ne hg]

/-- The file table in itself: no type without references, and one file for each end of a pipe. -/
structure FileTable (K : Layout) (file : Fin NFILE → File) : Prop where
  free : ∀ f, (file f).ref = 0 → (file f).type = .FD_NONE
  mem : ∀ f, (file f).type = .FD_PIPE → (file f).pipe ∈ K.pages
  ends : ∀ f g, (file f).type = .FD_PIPE → (file g).type = .FD_PIPE → (file f).pipe = (file g).pipe →
    (file f).writable = (file g).writable → f = g

/-- **The file table is accounted for**: `held` are all references to files, `R` is the memory that is not a pipe. -/
structure Files (K : Layout) (s : Sys) (held : Multiset (Fin NFILE)) (R : Own Nat Page) : Prop where
  table : FileTable K s.file
  sat : (world K).Sat s.mem (pipes K s.file + R)
  refs : ∀ f, (s.file f).ref = held.count f

variable {s : Sys} {l : Multiset (Fin NFILE)} {R : Own Nat Page} {f : Fin NFILE}

theorem Files.ref_pos (h : Files K s l R) (hf : f ∈ l) : 0 < (s.file f).ref := by
  rw [h.refs]
  exact Multiset.count_pos.mpr hf

/-- Code that only changes memory changes what memory is used for. -/
theorem Files.vm_returns {α : Type} {P : Own Nat Page} {c : Code Mem α} {Q : α → Own Nat Page} {T : α → Sys → Prop}
    (h : Files K s l R) (hc : Triple (world K) P c Q) (F : Own Nat Page) (hR : R ≤ P + F)
    (hT : ∀ a m, Files K (s.withMem m) l (Q a + F) → T a (s.withMem m)) : (vm c).Returns s T := by
  have hle : pipes K s.file + R ≤ P + (F + pipes K s.file) := by
    rw [add_comm, ← add_assoc]
    exact add_le_add_left hR _
  have hge (a : α) : Q a + (F + pipes K s.file) ≤ pipes K s.file + (Q a + F) := by
    rw [← add_assoc, add_comm]
  exact Sys.vm_returns hc (h.sat.mono hle) fun a m hm => hT a m ⟨h.table, hm.mono (hge a), h.refs⟩

theorem Files.vm_bind {α β : Type} {P : Own Nat Page} {c : Code Mem α} {Q : α → Own Nat Page} {g : α → Code Sys β}
    {T : β → Sys → Prop} (h : Files K s l R) (hc : Triple (world K) P c Q) (F : Own Nat Page) (hR : R ≤ P + F)
    (hT : ∀ a m, Files K (s.withMem m) l (Q a + F) → (g a).Returns (s.withMem m) T) :
    (vm c >>= g).Returns s T :=
  .bind (h.vm_returns (T := fun a s' => (g a).Returns s' T) hc F hR hT) fun _ _ h => h

theorem Files.fact {φ : Prop} (h : Files K s l (fact φ + R)) : φ ∧ Files K s l R := by
  have hs := h.sat
  rw [add_left_comm, World.sat_fact_add] at hs
  exact ⟨hs.1, h.table, hs.2, h.refs⟩

/-- The account is of memory and the file table alone. -/
theorem Files.congr {s' : Sys} (h : Files K s l R) (hm : s'.mem = s.mem) (hf : s'.file = s.file) : Files K s' l R :=
  ⟨hf ▸ h.table, by rw [hm, hf]; exact h.sat, hf ▸ h.refs⟩

/-- Code that frees something if it is there. -/
theorem Files.when_bind {β : Type} {b : Prop} [Decidable b] {P : Own Nat Page} {c : Code Mem Unit} {g : Unit → Code Sys β}
    {T : β → Sys → Prop} (h : Files K s l R) (hc : Triple (world K) P c fun _ => 0) (F : Own Nat Page)
    (hR : R ≤ (if b then P else 0) + F) (hT : ∀ m, Files K (s.withMem m) l F → (g ()).Returns (s.withMem m) T) :
    (Code.when b (vm c) >>= g).Returns s T := by
  unfold Code.when
  split
  · next hb =>
    rw [if_pos hb] at hR
    refine h.vm_bind hc F hR fun _ m hm => hT m ?_
    rwa [zero_add] at hm
  · next hb =>
    rw [if_neg hb, zero_add] at hR
    exact hT s.mem ⟨h.table, h.sat.mono (add_le_add_right hR _), h.refs⟩

/-- The rest of memory may be described differently. -/
theorem Files.mono {R' : Own Nat Page} (h : Files K s l R) (hR : R ≤ R') : Files K s l R' :=
  ⟨h.table, h.sat.mono (add_le_add_right hR _), h.refs⟩

/-! ## Changing the table -/

/-- A new count for a file that keeps its type. -/
theorem FileTable.setRef {file : Fin NFILE → File} {n : Nat} (h : FileTable K file)
    (hn : n = 0 → (file f).type = .FD_NONE) :
    FileTable K (Function.update file f { file f with ref := n }) := by
  have hsame (g : Fin NFILE) : (Function.update file f { file f with ref := n } g).type = (file g).type ∧
      (Function.update file f { file f with ref := n } g).pipe = (file g).pipe ∧
      (Function.update file f { file f with ref := n } g).writable = (file g).writable := by
    by_cases hg : g = f
    · subst hg
      simp
    · simp [hg]
  constructor
  · intro g hg
    by_cases hgf : g = f
    · subst hgf
      rw [Function.update_self] at hg ⊢
      exact hn hg
    · rw [Function.update_of_ne hgf] at hg ⊢
      exact h.free g hg
  · intro g
    rw [(hsame g).1, (hsame g).2.1]
    exact h.mem g
  · intro g g'
    rw [(hsame g).1, (hsame g).2.1, (hsame g).2.2, (hsame g').1, (hsame g').2.1, (hsame g').2.2]
    exact h.ends g g'

theorem Files.setRef {n : Nat} {l' : Multiset (Fin NFILE)} (h : Files K s l R)
    (hn : n = 0 → (s.file f).type = .FD_NONE) (hl : n + l.count f = (s.file f).ref + l'.count f)
    (hl' : ∀ g, g ≠ f → l'.count g = l.count g) :
    Files K (s.updFile f fun x => { x with ref := n }) l' R := by
  refine ⟨h.table.setRef hn, ?_, fun g => ?_⟩
  · have hp : pipes K (Function.update s.file f { s.file f with ref := n }) = pipes K s.file :=
      pipes_congr fun pg b => hasEnd_update Iff.rfl
    have hs := h.sat
    rw [← hp] at hs
    exact hs
  · have hg := h.refs g
    rw [updFile_file]
    by_cases hgf : g = f
    · subst hgf
      rw [Function.update_self]
      dsimp only
      omega
    · rw [Function.update_of_ne hgf, hg, hl' g hgf]

/-- Taking a file out of the table, as far as pipes see it. -/
theorem hasEnd_clear {file : Fin NFILE → File} {pg : Nat} {b : Bool} {x : File} (hx : x.type = .FD_NONE)
    (h : ¬ ((file f).type = .FD_PIPE ∧ (file f).pipe = pg ∧ (file f).writable = b)) :
    hasEnd (Function.update file f x) pg b = hasEnd file pg b :=
  hasEnd_update ⟨fun hx' => absurd hx'.1 (by rw [hx]; decide), fun hf => absurd hf h⟩

theorem FileTable.clear {file : Fin NFILE → File} {x : File} (h : FileTable K file) (hx : x.type = .FD_NONE) :
    FileTable K (Function.update file f x) := by
  have hne {g : Fin NFILE} (hg : (Function.update file f x g).type = .FD_PIPE) : g ≠ f := by
    rintro rfl
    rw [Function.update_self, hx] at hg
    cases hg
  constructor
  · intro g hg
    by_cases hgf : g = f
    · subst hgf
      rw [Function.update_self]
      exact hx
    · rw [Function.update_of_ne hgf] at hg ⊢
      exact h.free g hg
  · intro g hg
    have hgf := hne hg
    rw [Function.update_of_ne hgf] at hg ⊢
    exact h.mem g hg
  · intro g g' hg hg'
    have hgf := hne hg
    have hgf' := hne hg'
    rw [Function.update_of_ne hgf] at hg ⊢
    rw [Function.update_of_ne hgf'] at hg' ⊢
    exact h.ends g g' hg hg'

/-- A file with references becomes one that is not a pipe. -/
theorem Files.setFile {g : File → File} (h : Files K s l R) (hf : (s.file f).type ≠ .FD_PIPE) (hr : (s.file f).ref ≠ 0)
    (hg : (g (s.file f)).type ≠ .FD_PIPE) (hgr : (g (s.file f)).ref = (s.file f).ref) : Files K (s.updFile f g) l R := by
  have hne {i : Fin NFILE} (hi : (Function.update s.file f (g (s.file f)) i).type = .FD_PIPE) : i ≠ f := by
    rintro rfl
    rw [Function.update_self] at hi
    exact hg hi
  refine ⟨⟨fun i => ?_, fun i hi => ?_, fun i j hi hj => ?_⟩, ?_, fun i => ?_⟩
  · rw [updFile_file]
    by_cases hif : i = f
    · subst hif
      rw [Function.update_self, hgr]
      exact fun h0 => absurd h0 hr
    · rw [Function.update_of_ne hif]
      exact h.table.free i
  · rw [updFile_file] at hi ⊢
    have := hne hi
    rw [Function.update_of_ne this] at hi ⊢
    exact h.table.mem i hi
  · rw [updFile_file] at hi hj ⊢
    have hif := hne hi
    have hjf := hne hj
    rw [Function.update_of_ne hif] at hi ⊢
    rw [Function.update_of_ne hjf] at hj ⊢
    exact h.table.ends i j hi hj
  · have hp : pipes K (s.updFile f g).file = pipes K s.file :=
      pipes_congr fun pg b => hasEnd_update ⟨fun h => absurd h.1 hg, fun h => absurd h.1 hf⟩
    rw [hp]
    exact h.sat
  · rw [updFile_file, ← h.refs i]
    by_cases hif : i = f
    · subst hif
      rw [Function.update_self, hgr]
    · rw [Function.update_of_ne hif]

/-! ## file.c and pipe.c -/

theorem filealloc_spec (h : Files K s l R) : filealloc.Returns s fun r s' =>
    match r with
    | none => s' = s
    | some f => (s.file f).ref = 0 ∧ s' = s.updFile f (fun x => { x with ref := 1 }) ∧ Files K s' (f ::ₘ l) R := by
  rw [filealloc]
  refine .get ?_
  split
  · exact .pure rfl
  · next f hf =>
    have hf0 : (s.file f).ref = 0 := by simpa using List.find?_some hf
    refine .modify (.pure ⟨hf0, rfl, h.setRef (fun h => by cases h) ?_ fun g hg => Multiset.count_cons_of_ne hg _⟩)
    rw [hf0, Multiset.count_cons_self]
    omega

theorem filedup_spec (h : Files K s l R) (hf : 0 < (s.file f).ref) : (filedup f).Returns s fun _ s' =>
    OnlyFiles s s' ∧ Files K s' (f ::ₘ l) R := by
  rw [filedup]
  refine .get ?_
  rw [if_neg (by omega)]
  refine ⟨(), _, rfl, onlyFiles_updFile .., h.setRef (by omega) ?_ fun g hg => Multiset.count_cons_of_ne hg _⟩
  rw [Multiset.count_cons_self]
  omega

/-- Closing the file of one end leaves the other. -/
theorem hasEnd_close {file : Fin NFILE → File} {x : File} {b : Bool} (h : FileTable K file) (hx : x.type = .FD_NONE)
    (hf : (file f).type = .FD_PIPE) :
    hasEnd (Function.update file f x) (file f).pipe b = (hasEnd file (file f).pipe b && (b != (file f).writable)) := by
  by_cases hb : b = (file f).writable
  · rw [bne_eq_false_iff_eq.mpr hb, Bool.and_false, hasEnd, decide_eq_false_iff_not]
    rintro ⟨g, hg, hp, hw⟩
    have hgf : g ≠ f := by
      rintro rfl
      rw [Function.update_self, hx] at hg
      cases hg
    rw [Function.update_of_ne hgf] at hg hp hw
    exact hgf (h.ends g f hg hf hp (hw.trans hb))
  · rw [bne_iff_ne.mpr hb, Bool.and_true]
    exact hasEnd_clear hx fun hf' => hb hf'.2.2.symm

theorem fileclose_spec (h : Files K s (f ::ₘ l) R) : (fileclose f).Returns s fun _ s' =>
    OnlyFiles s s' ∧ Files K s' l R := by
  have hpos := h.ref_pos (f := f) (by simp)
  have hcount (g : Fin NFILE) (hg : g ≠ f) : l.count g = (f ::ₘ l).count g := (Multiset.count_cons_of_ne hg _).symm
  rw [fileclose]
  refine .get ?_
  dsimp only
  rw [if_neg (by omega)]
  split
  · next hr =>
    refine ⟨(), _, rfl, onlyFiles_updFile .., h.setRef (by omega) ?_ hcount⟩
    rw [Multiset.count_cons_self]
    omega
  · next hr =>
    set x : File := { s.file f with ref := 0, type := .FD_NONE } with hx
    have ht := h.table.clear (f := f) (x := x) rfl
    have hrefs (g : Fin NFILE) : (Function.update s.file f x g).ref = l.count g := by
      have hg := h.refs g
      by_cases hgf : g = f
      · subst hgf
        rw [Multiset.count_cons_self] at hg
        rw [Function.update_self, hx]
        dsimp only
        omega
      · rw [Function.update_of_ne hgf, hg, hcount g hgf]
    refine .modify (.when (fun hp => ?_) fun hp => ⟨onlyFiles_updFile .., ht, ?_, hrefs⟩)
    · have hmem := h.table.mem f hp
      have hend : hasEnd s.file (s.file f).pipe (s.file f).writable = true := decide_eq_true ⟨f, hp, rfl, rfl⟩
      have hown : pipes K s.file = pipeCell (s.file f).pipe (hasEnd s.file (s.file f).pipe false)
          (hasEnd s.file (s.file f).pipe true) + otherPipes K s.file (s.file f).pipe := by
        rw [pipes_eq hmem, pipeOwn, if_pos]
        cases hw : (s.file f).writable <;> rw [hw] at hend <;> simp [hend]
      have hs := h.sat
      rw [hown, add_assoc] at hs
      refine Sys.vm_returns pipeclose_spec hs fun _ m hm => ⟨(onlyFiles_updFile ..).trans (onlyFiles_withMem ..), ht, ?_, hrefs⟩
      have hp' : pipes K (Function.update s.file f x) = _ := pipes_eq hmem
      rw [hasEnd_close h.table rfl hp, hasEnd_close h.table rfl hp, Bool.false_bne, Bool.true_bne,
        otherPipes_congr fun pg b hpg => hasEnd_clear rfl fun hf => hpg hf.2.1.symm] at hp'
      change (world K).Sat m (pipes K (Function.update s.file f x) + R)
      rw [hp', add_assoc]
      exact hm
    · have hp' : pipes K (Function.update s.file f x) = pipes K s.file :=
        pipes_congr fun pg b => hasEnd_clear rfl fun hf => hp hf.1
      have hs := h.sat
      rw [← hp'] at hs
      exact hs

/-- A page in use is not a pipe. -/
theorem hasEnd_fresh {file : Fin NFILE → File} {m : Mem} {b : Bool} (h : (world K).Sat m (pipes K file + (page pg + R))) :
    hasEnd file pg b = false := by
  by_contra hb
  rw [add_left_comm] at h
  have hor : (hasEnd file pg false || hasEnd file pg true) = true := by
    rw [Bool.not_eq_false] at hb
    cases b <;> simp [hb]
  rw [pipes_eq (sat_page_mem h), pipeOwn, if_pos hor, add_assoc] at h
  exact sat_page_ne (h.mono (add_le_add_right (add_le_add_left pipeCell_le _) _)) rfl

/-- The two files of a new pipe. -/
def readEnd (x : File) (pi : Nat) : File := { x with type := .FD_PIPE, readable := true, writable := false, pipe := pi }
def writeEnd (x : File) (pi : Nat) : File := { x with type := .FD_PIPE, readable := false, writable := true, pipe := pi }

def withPipe (file : Fin NFILE → File) (f0 f1 : Fin NFILE) (pi : Nat) : Fin NFILE → File :=
  Function.update (Function.update file f0 (readEnd (file f0) pi)) f1 (writeEnd (file f1) pi)

section Opening

variable {file : Fin NFILE → File} {f0 f1 : Fin NFILE}

theorem withPipe_first (hne : f0 ≠ f1) : withPipe file f0 f1 pg f0 = readEnd (file f0) pg := by
  rw [withPipe, Function.update_of_ne hne, Function.update_self]

theorem withPipe_second : withPipe file f0 f1 pg f1 = writeEnd (file f1) pg := by
  rw [withPipe, Function.update_self]

theorem withPipe_other {g : Fin NFILE} (h0 : g ≠ f0) (h1 : g ≠ f1) : withPipe file f0 f1 pg g = file g := by
  rw [withPipe, Function.update_of_ne h1, Function.update_of_ne h0]

/-- A file of the new table is one of the two ends or an old file. -/
theorem withPipe_cases (file : Fin NFILE → File) (pg : Nat) (hne : f0 ≠ f1) (g : Fin NFILE) :
    (g = f0 ∧ withPipe file f0 f1 pg g = readEnd (file g) pg) ∨
      (g = f1 ∧ withPipe file f0 f1 pg g = writeEnd (file g) pg) ∨
      (g ≠ f0 ∧ g ≠ f1 ∧ withPipe file f0 f1 pg g = file g) := by
  by_cases h0 : g = f0
  · subst h0
    exact .inl ⟨rfl, withPipe_first hne⟩
  · by_cases h1 : g = f1
    · subst h1
      exact .inr (.inl ⟨rfl, withPipe_second⟩)
    · exact .inr (.inr ⟨h0, h1, withPipe_other h0 h1⟩)

variable (hne : f0 ≠ f1) (h0 : (file f0).type = .FD_NONE) (h1 : (file f1).type = .FD_NONE)
include hne

theorem hasEnd_withPipe_self (b : Bool) : hasEnd (withPipe file f0 f1 pg) pg b = true := by
  cases b with
  | false => exact decide_eq_true ⟨f0, by rw [withPipe_first hne]; exact ⟨rfl, rfl, rfl⟩⟩
  | true => exact decide_eq_true ⟨f1, by rw [withPipe_second]; exact ⟨rfl, rfl, rfl⟩⟩

include h0 h1

theorem hasEnd_withPipe_other {pi : Nat} {b : Bool} (hpi : pi ≠ pg) :
    hasEnd (withPipe file f0 f1 pg) pi b = hasEnd file pi b := by
  rw [hasEnd, hasEnd, decide_eq_decide]
  refine exists_congr fun g => ?_
  obtain ⟨rfl, hg⟩ | ⟨rfl, hg⟩ | ⟨-, -, hg⟩ := withPipe_cases file pg hne g
  · rw [hg, h0]
    exact iff_of_false (fun h => hpi h.2.1.symm) fun h => by cases h.1
  · rw [hg, h1]
    exact iff_of_false (fun h => hpi h.2.1.symm) fun h => by cases h.1
  · rw [hg]

theorem FileTable.withPipe (h : FileTable K file) (hr0 : (file f0).ref ≠ 0) (hr1 : (file f1).ref ≠ 0)
    (hpg : pg ∈ K.pages) (hfresh : ∀ b, hasEnd file pg b = false) : FileTable K (withPipe file f0 f1 pg) := by
  have hcases := withPipe_cases file pg hne
  have hnew (g : Fin NFILE) (hg : (file g).type = .FD_PIPE) : (file g).pipe ≠ pg := fun hp =>
    absurd (hfresh (file g).writable) (by rw [hasEnd, decide_eq_true ⟨g, hg, hp, rfl⟩]; decide)
  constructor
  · intro g
    obtain ⟨rfl, hg⟩ | ⟨rfl, hg⟩ | ⟨-, -, hg⟩ := hcases g
    · rw [hg]
      exact fun hr => absurd hr hr0
    · rw [hg]
      exact fun hr => absurd hr hr1
    · rw [hg]
      exact h.free g
  · intro g
    obtain ⟨-, hg⟩ | ⟨-, hg⟩ | ⟨-, -, hg⟩ := hcases g
    · exact fun _ => hg ▸ hpg
    · exact fun _ => hg ▸ hpg
    · rw [hg]
      exact h.mem g
  · intro g g'
    obtain ⟨e, hg⟩ | ⟨e, hg⟩ | ⟨-, -, hg⟩ := hcases g <;>
      obtain ⟨e', hg'⟩ | ⟨e', hg'⟩ | ⟨-, -, hg'⟩ := hcases g' <;> rw [hg, hg']
    · exact fun _ _ _ _ => e.trans e'.symm
    · exact fun _ _ _ hw => by cases hw
    · exact fun _ ht hp _ => absurd hp.symm (hnew g' ht)
    · exact fun _ _ _ hw => by cases hw
    · exact fun _ _ _ _ => e.trans e'.symm
    · exact fun _ ht hp _ => absurd hp.symm (hnew g' ht)
    · exact fun ht _ hp _ => absurd hp (hnew g ht)
    · exact fun ht _ hp _ => absurd hp (hnew g ht)
    · exact h.ends g g'

end Opening

theorem Files.openPipe {f0 f1 : Fin NFILE} (h : Files K s l (pipeCell pg true true + R)) (hne : f0 ≠ f1)
    (h0 : (s.file f0).type = .FD_NONE) (h1 : (s.file f1).type = .FD_NONE) (hr0 : (s.file f0).ref ≠ 0)
    (hr1 : (s.file f1).ref ≠ 0) :
    Files K ((s.updFile f0 fun x => readEnd x pg).updFile f1 fun x => writeEnd x pg) l R := by
  have hpage := (h.mono (add_le_add_left pipeCell_le R)).sat
  have hfresh (b : Bool) : hasEnd s.file pg b = false := hasEnd_fresh hpage
  have hpg : pg ∈ K.pages := by
    rw [add_left_comm] at hpage
    exact sat_page_mem hpage
  have hfile : ((s.updFile f0 fun x => readEnd x pg).updFile f1 fun x => writeEnd x pg).file =
      withPipe s.file f0 f1 pg := by
    rw [updFile_file, updFile_file, Function.update_of_ne hne.symm, withPipe]
  refine ⟨?_, ?_, fun g => ?_⟩
  · rw [hfile]
    exact h.table.withPipe hne h0 h1 hr0 hr1 hpg hfresh
  · have hs := h.sat
    rw [pipes_eq hpg, hfresh, hfresh, pipeOwn, if_neg (by decide), zero_add] at hs
    rw [hfile, pipes_eq hpg, hasEnd_withPipe_self hne, hasEnd_withPipe_self hne, pipeOwn, if_pos (by decide),
      otherPipes_congr fun pi b hpi => hasEnd_withPipe_other hne h0 h1 hpi, add_assoc]
    rw [add_left_comm] at hs
    exact hs
  · rw [hfile, ← h.refs]
    obtain ⟨-, hg⟩ | ⟨-, hg⟩ | ⟨-, -, hg⟩ := withPipe_cases s.file pg hne g <;> rw [hg]
    · rfl
    · rfl

theorem pipealloc_spec (h : Files K s l R) : pipealloc.Returns s fun r s' => OnlyFiles s s' ∧
    Files K s' (r.elim l fun p => p.1 ::ₘ p.2 ::ₘ l) R := by
  rw [pipealloc]
  refine .bind (filealloc_spec h) fun r0 s0 h0 => ?_
  cases r0 with
  | none =>
    obtain rfl : s0 = s := h0
    exact .pure ⟨.refl _, h⟩
  | some f0 =>
    obtain ⟨hr0, hs0, h0⟩ := h0
    have ho0 : OnlyFiles s s0 := hs0 ▸ onlyFiles_updFile ..
    dsimp only
    refine .bind (filealloc_spec h0) fun r1 s1 h1 => ?_
    cases r1 with
    | none =>
      obtain rfl : s1 = s0 := h1
      exact .bind (fileclose_spec h0) fun _ s' h' => .pure ⟨ho0.trans h'.1, h'.2⟩
    | some f1 =>
      obtain ⟨hr1, hs1, h1⟩ := h1
      have ho1 : OnlyFiles s s1 := ho0.trans (hs1 ▸ onlyFiles_updFile ..)
      have hpos0 := h0.ref_pos (f := f0) (by simp)
      have hne : f0 ≠ f1 := by
        rintro rfl
        omega
      dsimp only
      refine h1.vm_bind kalloc_spec R (zero_add R).symm.le fun pi m h2 => ?_
      have hpos1 := h2.ref_pos (f := f1) (by simp)
      split
      · next hpi =>
        rw [if_pos hpi, zero_add, Multiset.cons_swap] at h2
        refine .bind (fileclose_spec h2) fun _ s3 h3 => .bind (fileclose_spec h3.2) fun _ s4 h4 => .pure ⟨?_, h4.2⟩
        exact ((ho1.trans (onlyFiles_withMem ..)).trans h3.1).trans h4.1
      · next hpi =>
        rw [if_neg hpi] at h2
        refine h2.vm_bind pipeinit_spec R (add_le_add_left cell_le_page R) fun _ m' h3 => ?_
        refine .modify (.modify (.pure ⟨ho1.trans ⟨rfl, rfl, rfl⟩, ?_⟩))
        have ht0 : (s1.file f0).type = .FD_NONE := by
          rw [hs1, updFile_file, Function.update_of_ne hne, hs0, updFile_file, Function.update_self]
          exact h.table.free f0 hr0
        have ht1 : (s1.file f1).type = .FD_NONE := by
          rw [hs1, updFile_file, Function.update_self]
          exact h0.table.free f1 hr1
        have hpos0 := h1.ref_pos (f := f0) (by simp)
        rw [Multiset.cons_swap] at h3
        exact h3.openPipe hne ht0 ht1 hpos0.ne' hpos1.ne'

/-! ## Descriptors -/

theorem fdalloc_spec {p : Fin NPROC} : (fdalloc p f).Returns s fun r s' =>
    match r with
    | none => s' = s
    | some fd => (s.proc p).ofile fd = none ∧
        s' = s.updProc p (·.setFd fd (some f)) := by
  rw [fdalloc]
  refine .get ?_
  split
  · exact .pure rfl
  · next fd hfd =>
    have hnone : (s.proc p).ofile fd = none := by simpa using List.find?_some hfd
    exact .modify (.pure ⟨hnone, rfl⟩)

theorem argfd_spec {p : Fin NPROC} {a : Nat} : (argfd p a).Returns s fun r s' =>
    s' = s ∧ ∀ x, r = some x → (s.proc p).ofile x.1 = some x.2 := by
  rw [argfd]
  split
  · refine .get ?_
    split
    · exact .pure ⟨rfl, fun _ h => by cases h⟩
    · next f hf =>
      refine .pure ⟨rfl, fun x hx => ?_⟩
      cases hx
      exact hf
  · exact .pure ⟨rfl, fun _ h => by cases h⟩

end Sys

end Xv6
