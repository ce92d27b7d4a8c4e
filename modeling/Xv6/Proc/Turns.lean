/-
What one system call can do to the tables other processes see: who is alive, under which
pid, killed or not, with which descriptors (`Face`), the pid to come, and the files in use
(`Table`). A call takes one of six turns (`Turn`), and each changes one entry of the
process table. Only fork's failures leave a trace, a pid that nobody gets. The results
about pids and kill, and about descriptors and files after a failed call, are read off this.
-/
import Xv6.Proc.Boot

namespace Xv6

open Lib

/-- An entry of the process table, as far as the calls of other processes depend on it. -/
@[ext] structure Face where
  live : Bool
  pid : Int
  killed : Bool
  ofile : Fin NOFILE → Option (Fin NFILE)

def Proc.face (x : Proc) : Face := ⟨x.state ≠ .UNUSED, x.pid, x.killed, x.ofile⟩

namespace Face

/-- What freeproc leaves. -/
def freed (x : Face) : Face := { x with live := false, pid := 0, killed := false }

def setFd (x : Face) (fd : Fin NOFILE) (v : Option (Fin NFILE)) : Face := { x with ofile := Function.update x.ofile fd v }

end Face

/-- A file, if it is in use. -/
def File.opened (x : File) : Option File := if x.ref = 0 then none else some x

/-- The process table, the next pid, and the files in use. -/
@[ext] structure Table where
  faces : Fin NPROC → Face
  nextpid : Int
  opened : Fin NFILE → Option File

namespace Table

def upd (T : Table) (q : Fin NPROC) (x : Face) : Table := { T with faces := Function.update T.faces q x }

/-- One pid later. -/
def next (T : Table) : Table := { T with nextpid := Sys.i32 (T.nextpid + 1) }

def setFile (T : Table) (i : Fin NFILE) (v : Option File) : Table := { T with opened := Function.update T.opened i v }

def withFiles (T : Table) (F : Fin NFILE → Option File) : Table := { T with opened := F }

variable {T : Table} {q : Fin NPROC} {x y : Face} {i : Fin NFILE} {v v' : Option File} {F F' : Fin NFILE → Option File}

@[simp] theorem upd_faces : (T.upd q x).faces = Function.update T.faces q x := rfl
@[simp] theorem upd_nextpid : (T.upd q x).nextpid = T.nextpid := rfl
@[simp] theorem upd_opened : (T.upd q x).opened = T.opened := rfl
@[simp] theorem next_faces : T.next.faces = T.faces := rfl
@[simp] theorem next_nextpid : T.next.nextpid = Sys.i32 (T.nextpid + 1) := rfl
@[simp] theorem next_opened : T.next.opened = T.opened := rfl
@[simp] theorem withFiles_faces : (T.withFiles F).faces = T.faces := rfl
@[simp] theorem withFiles_nextpid : (T.withFiles F).nextpid = T.nextpid := rfl
@[simp] theorem withFiles_opened : (T.withFiles F).opened = F := rfl
@[simp] theorem upd_upd : (T.upd q x).upd q y = T.upd q y := by simp [upd]
@[simp] theorem upd_same : T.upd q (T.faces q) = T := by simp [upd]
@[simp] theorem upd_next : T.next.upd q x = (T.upd q x).next := rfl
@[simp] theorem upd_withFiles : (T.withFiles F).upd q x = (T.upd q x).withFiles F := rfl
@[simp] theorem next_withFiles : (T.withFiles F).next = T.next.withFiles F := rfl
@[simp] theorem withFiles_withFiles : (T.withFiles F).withFiles F' = T.withFiles F' := rfl
@[simp] theorem withFiles_same : T.withFiles T.opened = T := rfl

theorem setFile_eq : T.setFile i v = T.withFiles (Function.update T.opened i v) := rfl

theorem setFile_comm {j : Fin NFILE} (h : i ≠ j) : (T.setFile j v').setFile i v = (T.setFile i v).setFile j v' :=
  Table.ext rfl rfl (Function.update_comm h _ _ _).symm

theorem upd_apply (k : Fin NPROC) : (T.upd q x).faces k = if k = q then x else T.faces k := by
  simp [Function.update_apply]

end Table

namespace Sys

def table (s : Sys) : Table := ⟨fun q => (s.proc q).face, s.nextpid, fun i => (s.file i).opened⟩

variable {s s' : Sys} {p q : Fin NPROC} {f : Proc → Proc}

@[simp] theorem table_withMem (m : Mem) : (s.withMem m).table = s.table := rfl
@[simp] theorem table_faces : s.table.faces q = (s.proc q).face := rfl
@[simp] theorem table_nextpid : s.table.nextpid = s.nextpid := rfl

@[simp] theorem table_updProc : (s.updProc p f).table = s.table.upd p (f (s.proc p)).face := by
  refine Table.ext (funext fun q => ?_) rfl rfl
  by_cases hq : q = p
  · subst hq
    simp
  · simp [hq]

@[simp] theorem table_updFile (i : Fin NFILE) (g : File → File) :
    (s.updFile i g).table = s.table.setFile i (g (s.file i)).opened := by
  refine Table.ext rfl rfl (funext fun j => ?_)
  by_cases hj : j = i
  · subst hj
    simp [table, Table.setFile]
  · simp [table, Table.setFile, hj]

/-! ## What leaves the tables alone -/

theorem vm_keeps {α : Type} (c : Code Mem α) : (vm c).Keeps table := keeps_vm c fun _ _ => rfl

theorem setProc_keeps (h : ∀ x, (f x).face = x.face) : (setProc p f).Keeps table := .modify fun s => by
  rw [table_updProc, h, ← table_faces, Table.upd_same]

theorem growproc_keeps (n : Int) : (growproc p n).Keeps table :=
  .get fun _ => .ite
    (.bind (vm_keeps _) fun _ => .ite (.pure _) (.bind (setProc_keeps fun _ => rfl) fun _ => .pure _)) <|
    .ite (.bind (vm_keeps _) fun _ => .bind (setProc_keeps fun _ => rfl) fun _ => .pure _) (.pure _)

theorem sysSbrk_keeps (a : Nat) : (sysSbrk p a).Keeps table :=
  .get fun _ => .bind (growproc_keeps _) fun _ => .ite (.pure _) (.pure _)

theorem exec_keeps (namei : List UInt8 → Option Inode) (path : List UInt8) (argv : List Nat) :
    (exec namei p path argv).Keeps table := by
  unfold exec
  split
  · exact .pure _
  · refine .get fun s => .bind (vm_keeps _) fun r => ?_
    cases r with
    | none => exact .pure _
    | some img =>
      exact .bind (vm_keeps _) fun _ => .bind (setProc_keeps fun _ => rfl) fun _ => .bind (vm_keeps _) fun _ =>
        .bind (vm_keeps _) fun _ => .bind (vm_keeps _) fun _ => .pure _

theorem sysExec_keeps (namei : List UInt8 → Option Inode) (upath uargv : Nat) :
    (sysExec namei p upath uargv).Keeps table := by
  refine .get fun s => .bind (vm_keeps _) fun r => ?_
  cases r with
  | none => exact .pure _
  | some path =>
    refine .bind (vm_keeps _) fun r => ?_
    obtain ⟨ok, argv⟩ := r
    cases ok with
    | true => exact .bind (exec_keeps _ _ _) fun _ => .bind (vm_keeps _) fun _ => .pure _
    | false => exact .bind (vm_keeps _) fun _ => .pure _

theorem waitCopyout_keeps (addr : Nat) : (waitCopyout p q addr).Keeps table :=
  .ite (.pure _) (.get fun _ => vm_keeps _)

theorem reparent_keeps : (reparent p).Keeps table := .modify fun s => by
  refine Table.ext (funext fun q => ?_) rfl rfl
  simp only [table]
  split <;> rfl

/-! ## What changes an entry -/

theorem freeproc_table : (freeproc p).Ensures s fun _ s' => s'.table = s.table.upd p (s.table.faces p).freed := by
  refine .get (.bind (Code.Keeps.when (vm_keeps _) s) fun _ s1 h1 =>
    .bind (setProc_keeps (by exact fun _ => rfl) s1) fun _ s2 h2 =>
    .bind (Code.Keeps.when (vm_keeps _) s2) fun _ s3 h3 => .update ?_)
  rw [table_updProc, ← h1, ← h2, ← h3]
  rfl

/-- What allocproc does: nothing, or it takes the next pid, for a new process or for nobody. -/
def Allocates (T : Table) (r : Option (Fin NPROC)) (T' : Table) : Prop :=
  match r with
  | none => T' = T ∨ ∃ q, (T.faces q).live = false ∧ T' = (T.upd q (T.faces q).freed).next
  | some q => (T.faces q).live = false ∧ T' = (T.upd q { T.faces q with live := true, pid := T.nextpid }).next

theorem allocproc_allocates : allocproc.Ensures s fun r s' => Allocates s.table r s'.table := by
  refine .get ?_
  split
  · exact .pure (.inl rfl)
  · next q hq =>
    have hun : (s.table.faces q).live = false := by simpa [Proc.face] using List.find?_some hq
    refine .bind (.of_returns allocpid_spec) fun pid s0 h0 => ?_
    obtain ⟨rfl, rfl⟩ := h0
    refine .bind (Q := fun _ s1 => s1.table =
      (s.table.upd q { s.table.faces q with live := true, pid := s.nextpid }).next) (.update ?_) fun _ s1 h1 => ?_
    · rw [table_updProc]
      rfl
    -- a refused allocation gives the entry back
    have hfree {s2 : Sys} (h2 : s2.table = s1.table) :
        (freeproc q >>= fun _ => pure none).Ensures s2 fun r s' => Allocates s.table r s'.table := by
      refine .bind freeproc_table fun _ s3 h3 => .pure (.inr ⟨q, hun, ?_⟩)
      rw [h3, h2, h1]
      simp [Face.freed]
    refine .bind (vm_keeps _ _) fun trapframe s2 h2 => .bind (setProc_keeps (by exact fun _ => rfl) s2) fun _ s3 h3 => ?_
    have h3 := h3.trans h2
    split
    · exact hfree h3
    · refine .bind (vm_keeps _ _) fun pagetable s4 h4 => .bind (setProc_keeps (by exact fun _ => rfl) s4) fun _ s5 h5 => ?_
      have h5 := h5.trans (h4.trans h3)
      split
      · exact hfree h5
      · exact .pure ⟨hun, h5.trans h1⟩

/-! ## Files -/

theorem filealloc_table : filealloc.Ensures s fun r s' =>
    match r with
    | none => s'.table = s.table
    | some i => s.table.opened i = none ∧ ∃ x : File, x.ref = 1 ∧ s'.table = s.table.setFile i (some x) := by
  refine .get ?_
  split
  · exact .pure rfl
  · next i hi =>
    have h0 : (s.file i).ref = 0 := by simpa using List.find?_some hi
    exact .modify (.pure ⟨if_pos h0, { s.file i with ref := 1 }, rfl, table_updFile i _⟩)

theorem filedup_table (i : Fin NFILE) : (filedup i).Ensures s fun _ s' =>
    ∃ x : File, s.table.opened i = some x ∧ s'.table = s.table.setFile i (some { x with ref := x.ref + 1 }) := by
  refine .get ?_
  split
  · exact .panic
  · next h => exact .update ⟨s.file i, if_neg (by omega), table_updFile i _⟩

theorem fileclose_table (i : Fin NFILE) : (fileclose i).Ensures s fun _ s' => ∃ x : File, s.table.opened i = some x ∧
    s'.table = s.table.setFile i (if x.ref = 1 then none else some { x with ref := x.ref - 1 }) := by
  refine .get ?_
  dsimp only
  split
  · exact .panic
  · next h =>
    have hx : s.table.opened i = some (s.file i) := if_neg (by omega)
    split
    · next h1 =>
      refine .update ⟨s.file i, hx, ?_⟩
      rw [table_updFile, if_neg (by omega), File.opened, if_neg (by dsimp only; omega)]
    · next h1 =>
      refine .bind (Q := fun _ t => t.table = s.table.setFile i none) (.update ?_) fun _ t ht =>
        (Code.Keeps.when (vm_keeps _) t).mono fun _ s' hs' => ⟨s.file i, hx, ?_⟩
      · rw [table_updFile, File.opened, if_pos rfl]
      · rw [hs', ht, if_pos (by omega)]

/-- A change of a file that is in use, but for its references. -/
theorem setFile_table {i : Fin NFILE} {g : File → File} {x : File} (h : s.table.opened i = some x) (hg : (g x).ref = x.ref) :
    (setFile i g).Ensures s fun _ s' => s'.table = s.table.setFile i (some (g x)) := by
  refine .update ?_
  have hx : s.file i = x ∧ x.ref ≠ 0 := by
    simp only [table, File.opened] at h
    split at h
    · cases h
    · next h0 =>
      cases h
      exact ⟨rfl, h0⟩
  rw [table_updFile, hx.1, File.opened, if_neg (by rw [hg]; exact hx.2)]

/-- Closing a file with one reference, in a table that may differ from `T` in that file only. -/
theorem fileclose_last {T : Table} {i : Fin NFILE} {x : File} (h : s.table = T.setFile i (some x)) (hx : x.ref = 1)
    (hi : T.opened i = none) : (fileclose i).Ensures s fun _ s' => s'.table = T := by
  refine (fileclose_table i).mono fun _ s' h' => ?_
  obtain ⟨y, hy, h'⟩ := h'
  obtain rfl : x = y := by simpa [h, Table.setFile] using hy
  rw [h', h, if_pos hx]
  refine Table.ext rfl rfl (funext fun j => ?_)
  by_cases hj : j = i
  · simp [Table.setFile, hj, hi]
  · simp [Table.setFile, hj]

theorem pipealloc_table : pipealloc.Ensures s fun r s' =>
    match r with
    | none => s'.table = s.table
    | some (i, j) => s.table.opened i = none ∧ s.table.opened j = none ∧ i ≠ j ∧
        ∃ x y : File, x.ref = 1 ∧ y.ref = 1 ∧ s'.table = (s.table.setFile i (some x)).setFile j (some y) := by
  refine .bind filealloc_table fun r s1 h1 => ?_
  cases r with
  | none => exact .pure h1
  | some i =>
    obtain ⟨hi, x, hx, h1⟩ := h1
    refine .bind filealloc_table fun r s2 h2 => ?_
    cases r with
    | none => exact .bind (fileclose_last (h2.trans h1) hx hi) fun _ s3 h3 => .pure h3
    | some j =>
      obtain ⟨hj, y, hy, h2⟩ := h2
      have hne : i ≠ j := by
        rintro rfl
        simp [h1, Table.setFile] at hj
      have hj' : s.table.opened j = none := by simpa [h1, Table.setFile, hne.symm] using hj
      rw [h1] at h2
      refine .bind (vm_keeps _ s2) fun pi s3 h3 => ?_
      split
      · have hswap : s3.table = (s.table.setFile j (some y)).setFile i (some x) := by
          rw [h3, h2, Table.setFile_comm hne]
        refine .bind (fileclose_last hswap hx (by simpa [Table.setFile, hne] using hi)) fun _ s4 h4 => ?_
        exact .bind (fileclose_last h4 hy hj') fun _ s5 h5 => .pure h5
      · refine .bind (vm_keeps _ s3) fun _ s4 h4 => ?_
        have h4 := h4.trans (h3.trans h2)
        have hi4 : s4.table.opened i = some x := by simp [h4, Table.setFile, hne]
        refine .bind (setFile_table hi4 rfl) fun _ s5 h5 => ?_
        have hj5 : s5.table.opened j = some y := by simp [h5, h4, Table.setFile, hne.symm]
        refine .bind (setFile_table hj5 rfl) fun _ s6 h6 => .pure ⟨hi, hj', hne,
          { x with type := .FD_PIPE, readable := true, writable := false, pipe := pi },
          { y with type := .FD_PIPE, readable := false, writable := true, pipe := pi }, hx, hy, ?_⟩
        rw [h6, h5, h4]
        refine Table.ext rfl rfl ?_
        simp [Table.setFile, Function.update_comm hne.symm]

/-- The files in use are still in use, as what they were. -/
def Opens (F F' : Fin NFILE → Option File) : Prop := ∀ i x, F i = some x →
  ∃ y, F' i = some y ∧ y.type = x.type ∧ y.pipe = x.pipe ∧ y.writable = x.writable

theorem Opens.refl (F : Fin NFILE → Option File) : Opens F F := fun _ x h => ⟨x, h, rfl, rfl, rfl⟩

theorem Opens.trans {F F' F'' : Fin NFILE → Option File} (h : Opens F F') (h' : Opens F' F'') : Opens F F'' := by
  intro i x hx
  obtain ⟨y, hy, h1, h2, h3⟩ := h i x hx
  obtain ⟨z, hz, h4, h5, h6⟩ := h' i y hy
  exact ⟨z, hz, h4.trans h1, h5.trans h2, h6.trans h3⟩

/-- A file that was not in use may change. -/
theorem Opens.update {F : Fin NFILE → Option File} {i : Fin NFILE} {v : Option File} (h : F i = none) :
    Opens F (Function.update F i v) := by
  intro j x hx
  have hj : j ≠ i := by
    rintro rfl
    rw [h] at hx
    cases hx
  exact ⟨x, by simpa [hj] using hx, rfl, rfl, rfl⟩

theorem filedup_opens (i : Fin NFILE) : (filedup i).Ensures s fun _ s' => ∃ F, s'.table = s.table.withFiles F ∧
    Opens s.table.opened F := by
  refine (filedup_table i).mono fun _ s' h => ?_
  obtain ⟨x, hx, h⟩ := h
  refine ⟨_, h, fun j y hy => ?_⟩
  by_cases hj : j = i
  · subst hj
    obtain rfl : x = y := by simpa [hx] using hy
    exact ⟨{ x with ref := x.ref + 1 }, by simp, rfl, rfl, rfl⟩
  · exact ⟨y, by simpa [hj] using hy, rfl, rfl, rfl⟩

/-! ## Descriptors -/

/-- `T'` differs from `T` in the descriptors of `p` and in the files only. -/
def Refiles (T : Table) (p : Fin NPROC) (T' : Table) : Prop :=
  ∃ o F, T' = (T.upd p { T.faces p with ofile := o }).withFiles F

theorem Refiles.refl (T : Table) (p : Fin NPROC) : Refiles T p T := ⟨_, _, by rw [Table.upd_same, Table.withFiles_same]⟩

theorem Refiles.trans {T T' T'' : Table} (h : Refiles T p T') (h' : Refiles T' p T'') : Refiles T p T'' := by
  obtain ⟨o, F, rfl⟩ := h
  obtain ⟨o', F', rfl⟩ := h'
  exact ⟨o', F', by simp⟩

theorem Refiles.files {T : Table} (F : Fin NFILE → Option File) : Refiles T p (T.withFiles F) :=
  ⟨_, F, by rw [Table.upd_same]⟩

theorem table_setFd (fd : Fin NOFILE) (v : Option (Fin NFILE)) :
    (s.updProc p (·.setFd fd v)).table = s.table.upd p ((s.table.faces p).setFd fd v) := table_updProc

theorem refiles_setFd (fd : Fin NOFILE) (v : Option (Fin NFILE)) : Refiles s.table p (s.updProc p (·.setFd fd v)).table :=
  ⟨_, _, table_setFd fd v⟩

theorem forkFiles_refiles {np : Fin NPROC} (fds : List (Fin NOFILE)) :
    (forkFiles p np fds).Ensures s fun _ s' => Refiles s.table np s'.table ∧
      Opens s.table.opened s'.table.opened := by
  induction fds generalizing s with
  | nil => exact .pure ⟨.refl _ _, .refl _⟩
  | cons fd fds ih =>
    refine .get ?_
    split
    · exact ih
    · refine .bind (filedup_opens _) fun _ s1 h1 => .modify (ih.mono fun _ s' h' => ?_)
      obtain ⟨F, h1, ho⟩ := h1
      refine ⟨(h1 ▸ Refiles.files F).trans ((refiles_setFd _ _).trans h'.1), ho.trans ?_⟩
      rw [table_setFd, h1] at h'
      exact h'.2

theorem closeFiles_refiles (fds : List (Fin NOFILE)) : (closeFiles p fds).Ensures s fun _ s' => Refiles s.table p s'.table := by
  induction fds generalizing s with
  | nil => exact .pure (.refl _ _)
  | cons fd fds ih =>
    refine .get ?_
    split
    · exact ih
    · refine .bind (fileclose_table _) fun _ s1 h1 => .modify (ih.mono fun _ s' h' => ?_)
      obtain ⟨x, -, h1⟩ := h1
      have h1 : Refiles s.table p s1.table := h1 ▸ Refiles.files _
      exact h1.trans ((refiles_setFd _ _).trans h')

/-! ## The calls -/

/-- The calls whose result says which process they were about. -/
def Call.names : Call → Bool
  | .fork | .wait _ | .kill _ => true
  | _ => false

/-- The calls that may close a file. -/
def Call.closes : Call → Bool
  | .close _ | .exit _ => true
  | _ => false

/-- **What a call of `p` does to the tables**, and with which result. -/
inductive Turn (T : Table) (p : Fin NPROC) : Call → Result → Table → Prop
  | keeps {c : Call} {r : Result} : (c.names = true → r = .ret (-1) ∨ r = .sleeps) → Turn T p c r T
  | files {c : Call} {r : Result} {T' : Table} : c.names = false → Refiles T p T' → r ≠ .ret (-1) →
      (c.closes = false → Opens T.opened T'.opened) → Turn T p c r T'
  | refused {k : Fin NPROC} : (T.faces k).live = false → Turn T p .fork (.ret (-1)) (T.upd k (T.faces k).freed).next
  | forks {k : Fin NPROC} {o : Fin NOFILE → Option (Fin NFILE)} {F : Fin NFILE → Option File} :
      (T.faces k).live = false → Opens T.opened F →
      Turn T p .fork (.ret T.nextpid) ((T.upd k ⟨true, T.nextpid, (T.faces k).killed, o⟩).next.withFiles F)
  | reaps {k : Fin NPROC} {addr : Nat} : (T.faces k).live = true → k ≠ p →
      Turn T p (.wait addr) (.ret (T.faces k).pid) (T.upd k (T.faces k).freed)
  | kills {k : Fin NPROC} {pid : Nat} : (T.faces k).pid = argint pid →
      Turn T p (.kill pid) (.ret 0) (T.upd k { T.faces k with killed := true })

theorem Turn.fork {T T' : Table} {r : Int} (h : Turn T p .fork (.ret r) T') :
    r = -1 ∧ (∀ q, (T'.faces q).live = (T.faces q).live) ∨
      r = T.nextpid ∧ ∃ q, (T.faces q).live = false ∧ (T'.faces q).live = true ∧ (T'.faces q).pid = T.nextpid := by
  cases h with
  | keeps hr => exact .inl ⟨by simpa using hr rfl, fun _ => rfl⟩
  | files hc => cases hc
  | refused hk =>
    refine .inl ⟨rfl, fun q => ?_⟩
    rw [Table.next_faces, Table.upd_apply]
    split
    · next h => rw [h, hk, Face.freed]
    · rfl
  | forks hk _ => exact .inr ⟨rfl, _, hk, by simp⟩

theorem Turn.wait {T T' : Table} {addr : Nat} {r : Int} (h : Turn T p (.wait addr) (.ret r) T') :
    r = -1 ∨ ∃ q, (T.faces q).live = true ∧ (T.faces q).pid = r ∧ T' = T.upd q (T.faces q).freed := by
  cases h with
  | keeps hr => exact .inl (by simpa using hr rfl)
  | files hc => cases hc
  | reaps hk _ => exact .inr ⟨_, hk, rfl, rfl⟩

theorem fork_turn : (fork p).Ensures s fun r s' => Turn s.table p .fork (.ret r) s'.table := by
  refine .bind allocproc_allocates fun r s1 h1 => ?_
  cases r with
  | none =>
    obtain h1 | ⟨q, hq, h1⟩ := h1
    · exact .pure (h1 ▸ .keeps fun _ => .inl rfl)
    · exact .pure (h1 ▸ .refused hq)
  | some q =>
    obtain ⟨hq, h1⟩ := h1
    have hq1 : s1.table.faces q = { s.table.faces q with live := true, pid := s.nextpid } := by
      rw [h1]
      simp [table]
    refine .get (.get (.bind (vm_keeps _ s1) fun r s2 h2 => ?_))
    split
    · refine .bind freeproc_table fun _ s3 h3 => .pure ?_
      have h3 : s3.table = (s.table.upd q (s.table.faces q).freed).next := by
        rw [h3, h2, hq1, h1]
        simp [Face.freed]
      rw [h3]
      exact .refused hq
    · refine .bind (setProc_keeps (by exact fun _ => rfl) s2) fun _ s3 h3 => .bind (vm_keeps _ s3) fun _ s4 h4 =>
        .bind (vm_keeps _ s4) fun _ s5 h5 => .bind (vm_keeps _ s5) fun _ s6 h6 =>
        .bind (forkFiles_refiles _) fun _ s7 h7 => .bind (setProc_keeps (by exact fun _ => rfl) s7) fun _ s8 h8 =>
        .bind (setProc_keeps (by exact fun _ => rfl) s8) fun _ s9 h9 => .modify (.pure ?_)
      obtain ⟨⟨o, F, h7⟩, ho⟩ := h7
      have h9 : s9.table = (s1.table.upd q ⟨true, s.nextpid, (s.table.faces q).killed, o⟩).withFiles F := by
        rw [h9, h8, h7, h6, h5, h4, h3, h2, hq1]
      have hx : (s9.proc q).face = ⟨true, s.nextpid, (s.table.faces q).killed, o⟩ := by
        rw [← table_faces, h9]
        simp
      have hend : (s9.updProc q fun x => { x with state := .RUNNABLE }).table =
          ((s.table.upd q ⟨true, s.nextpid, (s.table.faces q).killed, o⟩).next).withFiles F := by
        have hface : ({ s9.proc q with state := .RUNNABLE } : Proc).face = ⟨true, s.nextpid, (s.table.faces q).killed, o⟩ := by
          rw [← hx]
          simpa [Proc.face] using (congrArg Face.live hx).symm
        rw [table_updProc, hface, h9, h1]
        simp
      rw [hend, show (s1.proc q).pid = s.nextpid from congrArg Face.pid hq1]
      rw [h7, h6, h5, h4, h3, h2, h1] at ho
      exact .forks hq ho

theorem exit_turn (hp : (s.proc p).state ≠ .UNUSED) (status : Int) (a : Nat) :
    (exit p status).Ensures s fun _ s' => Turn s.table p (.exit a) .gone s'.table := by
  refine .get ?_
  split
  · exact .panic
  · refine .bind (closeFiles_refiles _) fun _ s1 h1 => .bind (reparent_keeps s1) fun _ s2 h2 => .update ?_
    obtain ⟨o, F, h1⟩ := h1
    refine .files rfl ⟨o, F, ?_⟩ (by simp) nofun
    have hx : (s2.proc p).face = { s.table.faces p with ofile := o } := by
      rw [← table_faces, h2, h1]
      simp
    have hface : ({ s2.proc p with xstate := status, state := .ZOMBIE } : Proc).face = { s.table.faces p with ofile := o } := by
      rw [← hx]
      have hlive := congrArg Face.live hx
      simp only [table_faces, Proc.face] at hlive
      simp [Proc.face, hlive, hp]
    rw [table_updProc, hface, h2, h1]
    simp

theorem wait_turn (hp : (s.proc p).state = .RUNNABLE) (addr : Nat) : (wait p addr).Ensures s fun r s' =>
    Turn s.table p (.wait addr) (r.elim .sleeps .ret) s'.table := by
  refine .get ?_
  split
  · next q hq =>
    have hz : (s.proc q).parent = some p ∧ (s.proc q).state = .ZOMBIE := by simpa using List.find?_some hq
    refine .bind (waitCopyout_keeps addr s) fun r s1 h1 => ?_
    split
    · exact .pure (h1 ▸ .keeps fun _ => .inl rfl)
    · refine .bind freeproc_table fun _ s2 h2 => .pure ?_
      have hne : q ≠ p := by
        rintro rfl
        rw [hz.2] at hp
        cases hp
      rw [h2, h1]
      exact .reaps (by simp [Proc.face, hz.2]) hne
  · split
    · exact .pure (.keeps fun _ => .inl rfl)
    · exact .pure (.keeps fun _ => .inr rfl)

theorem kill_turn (a : Nat) : (kill (argint a)).Ensures s fun r s' => Turn s.table p (.kill a) (.ret r) s'.table := by
  refine .get ?_
  split
  · exact .pure (.keeps fun _ => .inl rfl)
  · next q hq =>
    have hpid : (s.table.faces q).pid = argint a := by simpa [Proc.face] using List.find?_some hq
    refine .modify (.pure ?_)
    have hface : ({ s.proc q with
        killed := true, state := if (s.proc q).state = .SLEEPING then .RUNNABLE else (s.proc q).state } : Proc).face =
        { s.table.faces q with killed := true } := by
      refine Face.ext ?_ rfl rfl rfl
      simp only [Proc.face, table_faces]
      split
      · next h => simp [h]
      · rfl
    rw [table_updProc, hface]
    exact .kills hpid

theorem sysDup_turn (a : Nat) : (sysDup p a).Ensures s fun r s' => Turn s.table p (.dup a) (.ret r) s'.table := by
  refine .bind (.of_returns argfd_spec) fun r s1 h1 => ?_
  obtain ⟨rfl, -⟩ := h1
  cases r with
  | none => exact .pure (.keeps nofun)
  | some x =>
    refine .bind (.of_returns fdalloc_spec) fun r s2 h2 => ?_
    cases r with
    | none =>
      obtain rfl : s2 = s1 := h2
      exact .pure (.keeps nofun)
    | some fd =>
      obtain ⟨-, rfl⟩ := h2
      refine .bind (filedup_opens _) fun _ s3 h3 => .pure ?_
      obtain ⟨F, h3, ho⟩ := h3
      refine .files rfl ((refiles_setFd fd _).trans (h3 ▸ Refiles.files F)) (by simp) fun _ => ?_
      rw [h3]
      exact ho

theorem sysClose_turn (a : Nat) : (sysClose p a).Ensures s fun r s' => Turn s.table p (.close a) (.ret r) s'.table := by
  refine .bind (.of_returns argfd_spec) fun r s1 h1 => ?_
  obtain ⟨rfl, -⟩ := h1
  cases r with
  | none => exact .pure (.keeps nofun)
  | some x =>
    refine .modify (.bind (fileclose_table _) fun _ s2 h2 => .pure ?_)
    obtain ⟨y, -, h2⟩ := h2
    exact .files rfl ((refiles_setFd x.1 none).trans (h2 ▸ Refiles.files _)) (by simp) nofun

theorem sysOpen_turn (found : Option Opened) :
    (sysOpen p found).Ensures s fun r s' => Turn s.table p (.openf found) (.ret r) s'.table := by
  unfold sysOpen
  split
  · exact .pure (.keeps nofun)
  · refine .bind filealloc_table fun r s1 h1 => ?_
    cases r with
    | none => exact .pure (h1 ▸ .keeps nofun)
    | some i =>
      obtain ⟨hi, x, hx, h1⟩ := h1
      refine .bind (.of_returns fdalloc_spec) fun r s2 h2 => ?_
      cases r with
      | none =>
        obtain rfl : s2 = s1 := h2
        exact .bind (fileclose_last h1 hx hi) fun _ s3 h3 => .pure (h3 ▸ .keeps nofun)
      | some fd =>
        obtain ⟨-, rfl⟩ := h2
        have hi2 : (s1.updProc p (·.setFd fd (some i))).table.opened i = some x := by simp [h1, Table.setFile]
        refine .bind (setFile_table hi2 rfl) fun _ s3 h3 => .pure (.files rfl ?_ (by simp) fun _ => ?_)
        · have h1 : Refiles s.table p s1.table := h1 ▸ Refiles.files _
          have h3 : Refiles (s1.updProc p (·.setFd fd (some i))).table p s3.table := h3 ▸ Refiles.files _
          exact h1.trans ((refiles_setFd fd _).trans h3)
        · rw [h3, table_setFd, h1]
          dsimp only [Table.setFile, Table.upd]
          rw [Function.update_idem]
          exact .update hi

theorem face_foldl_setFd (fds : List (Fin NOFILE)) (x : Proc) : (fds.foldl (fun x fd => x.setFd fd none) x).face =
    { x.face with ofile := fun fd => if fd ∈ fds then none else x.face.ofile fd } := by
  induction fds generalizing x with
  | nil => exact Face.ext rfl rfl rfl (funext fun fd => by simp)
  | cons fd fds ih =>
    rw [List.foldl_cons, ih]
    refine Face.ext rfl rfl rfl (funext fun fd' => ?_)
    by_cases h : fd' = fd
    · simp [h, Proc.face]
    · simp [h, Proc.face]

/-- sys_pipe's way back, from two new files and descriptors that differ at `fds` only, where there were none. -/
theorem pipeUndo_turn {T : Table} {fds : List (Fin NOFILE)} {o : Fin NOFILE → Option (Fin NFILE)} {rf wf : Fin NFILE}
    {x y : File} {c : Call} (hrf : T.opened rf = none) (hwf : T.opened wf = none) (hne : rf ≠ wf) (hx : x.ref = 1)
    (hy : y.ref = 1) (h : s.table = ((T.setFile rf (some x)).setFile wf (some y)).upd p { T.faces p with ofile := o })
    (hin : ∀ fd ∈ fds, (T.faces p).ofile fd = none) (hout : ∀ fd ∉ fds, o fd = (T.faces p).ofile fd)
    (hc : c.names = true → False) : (pipeUndo p fds rf wf).Ensures s fun r s' => Turn T p c (.ret r) s'.table := by
  have hback : (s.updProc p fun x => fds.foldl (fun x fd => x.setFd fd none) x).table =
      (T.setFile wf (some y)).setFile rf (some x) := by
    have hf : (fds.foldl (fun x fd => x.setFd fd none) (s.proc p)).face = T.faces p := by
      rw [face_foldl_setFd, ← table_faces, h]
      refine Face.ext (by simp) (by simp) (by simp) (funext fun fd => ?_)
      by_cases hfd : fd ∈ fds
      · simp [hfd, hin fd hfd]
      · simp [hfd, hout fd hfd]
    rw [table_updProc, hf, h, Table.setFile_comm hne.symm, Table.upd_upd]
    exact Table.upd_same
  refine .modify (.bind (fileclose_last hback hx ?_) fun _ s2 h2 => .bind (fileclose_last h2 hy hwf) fun _ s3 h3 => .pure ?_)
  · simpa [Table.setFile, hne] using hrf
  · exact h3 ▸ .keeps fun h => (hc h).elim

theorem sysPipe_turn (a : Nat) : (sysPipe p a).Ensures s fun r s' => Turn s.table p (.pipe a) (.ret r) s'.table := by
  refine .bind pipealloc_table fun r s1 h1 => ?_
  cases r with
  | none => exact .pure (h1 ▸ .keeps nofun)
  | some ends =>
    obtain ⟨rf, wf⟩ := ends
    obtain ⟨hrf, hwf, hne, x, y, hx, hy, h1⟩ := h1
    have hp1 : s1.table.faces p = s.table.faces p := by rw [h1]; rfl
    refine .bind (.of_returns fdalloc_spec) fun r s2 h2 => ?_
    cases r with
    | none =>
      obtain rfl : s2 = s1 := h2
      refine pipeUndo_turn hrf hwf hne hx hy (h1.trans ?_) (fun _ h => by simp at h) (fun _ _ => rfl) nofun
      exact Table.upd_same.symm
    | some fd0 =>
      obtain ⟨hno0, hs2⟩ := h2
      replace hno0 : (s.table.faces p).ofile fd0 = none := by rw [← hp1]; exact hno0
      have h2 : s2.table = s1.table.upd p ((s.table.faces p).setFd fd0 (some rf)) := by
        rw [hs2, table_setFd, hp1]
      refine .bind (.of_returns fdalloc_spec) fun r s3 h3 => ?_
      cases r with
      | none =>
        obtain rfl : s3 = s2 := h3
        refine pipeUndo_turn hrf hwf hne hx hy (h1 ▸ h2) (fun fd h => ?_) (fun fd h => ?_) nofun
        · rw [List.mem_singleton.mp h]
          exact hno0
        · simp_all
      | some fd1 =>
        obtain ⟨hno1, hs3⟩ := h3
        replace hno1 : ((s.table.faces p).setFd fd0 (some rf)).ofile fd1 = none := by
          have := congrArg (fun T : Table => (T.faces p).ofile fd1) h2
          rw [← hno1]
          simpa [Proc.face] using this.symm
        have hne1 : fd1 ≠ fd0 := fun he => by simp [Face.setFd, he] at hno1
        replace hno1 : (s.table.faces p).ofile fd1 = none := by simpa [Face.setFd, hne1] using hno1
        have h3 : s3.table = s1.table.upd p (((s.table.faces p).setFd fd0 (some rf)).setFd fd1 (some wf)) := by
          rw [hs3, table_setFd, h2]
          simp
        have hback {s4 : Sys} (h4 : s4.table = s3.table) :
            (pipeUndo p [fd0, fd1] rf wf).Ensures s4 fun r s' => Turn s.table p (.pipe a) (.ret r) s'.table := by
          refine pipeUndo_turn hrf hwf hne hx hy (h4.trans (h1 ▸ h3)) (fun fd h => ?_) (fun fd h => ?_) nofun
          · obtain rfl | rfl := by simpa using h
            · exact hno0
            · exact hno1
          · simp_all [Face.setFd]
        refine .get (.bind (vm_keeps _ _) fun r s4 h4 => ?_)
        split
        · exact hback h4
        · refine .bind (vm_keeps _ _) fun r s5 h5 => ?_
          split
          · exact hback (h5.trans h4)
          · have h5 := h5.trans (h4.trans (h3.trans (by rw [h1])))
            refine .pure (.files rfl ⟨_, _, h5⟩ (by simp) fun _ => ?_)
            rw [h5]
            refine (Opens.update hrf).trans (.update ?_)
            simpa [hne.symm] using hwf

/-- **Every call takes one of these turns.** -/
theorem dispatch_turn (hp : (s.proc p).state = .RUNNABLE) (c : Call) :
    (dispatch p c).Ensures s fun r s' => Turn s.table p c r s'.table := by
  cases c with
  | fork => exact .bind fork_turn fun _ _ h => .pure h
  | exec namei path uargv => exact .bind (sysExec_keeps namei path uargv s) fun _ _ h => .pure (h ▸ .keeps nofun)
  | sbrk n => exact .bind (sysSbrk_keeps n s) fun _ _ h => .pure (h ▸ .keeps nofun)
  | pipe fdarray => exact .bind (sysPipe_turn fdarray) fun _ _ h => .pure h
  | openf found => exact .bind (sysOpen_turn found) fun _ _ h => .pure h
  | dup fd => exact .bind (sysDup_turn fd) fun _ _ h => .pure h
  | close fd => exact .bind (sysClose_turn fd) fun _ _ h => .pure h
  | exit status => exact .bind (exit_turn (by simp [hp]) _ status) fun _ _ h => .pure h
  | wait addr =>
    refine .bind (wait_turn hp addr) fun r _ h => ?_
    cases r with
    | none => exact .pure h
    | some r => exact .pure h
  | kill pid => exact .bind (kill_turn pid) fun _ _ h => .pure h

/-- The same of a whole system call that returned: all that comes after is the saved a0. -/
theorem syscall_turn (hp : (s.proc p).state = .RUNNABLE) (c : Call) :
    (syscall p c).Ensures s fun done s' => done = true → ∃ r, Turn s.table p c r s'.table := by
  refine .bind (dispatch_turn hp c) fun r s1 h1 => ?_
  cases r with
  | ret r => exact .get (.bind (vm_keeps _ _) fun _ s2 h2 => .pure fun _ => ⟨.ret r, h2 ▸ h1⟩)
  | sleeps => exact .pure fun h => by cases h
  | gone => exact .pure fun _ => ⟨_, h1⟩

/-- And of a step: a call of some process with one of its results, or nothing. -/
theorem step_turn {a : Action} (h : step s a = .ok s') :
    s'.table = s.table ∨ ∃ p c fails r, a = .call p c fails ∧ (s.proc p).state = .RUNNABLE ∧
      Turn s.table p c r s'.table := by
  cases a with
  | call p c fails =>
    simp only [step] at h
    split at h
    · next hp =>
      split at h
      · next he =>
        cases h
        obtain ⟨r, hr⟩ := syscall_turn (s := s.withMem (s.mem.withFails fails)) hp c true _ he rfl
        exact .inr ⟨p, c, fails, r, rfl, hp, hr⟩
      · cases h
      · cases h
    · cases h
  | store p va b =>
    simp only [step] at h
    split at h
    · split at h
      · next he =>
        cases h
        exact .inl (vm_keeps _ _ _ _ he)
      · cases h
    · cases h

/-! ## Booting -/

/-- The tables before there is a process. -/
def powerOnTable : Table := ⟨fun _ => ({} : Proc).face, 1, fun _ => none⟩

theorem userinit_table : userinit.Ensures s fun _ s' => ∃ q, (s.table.faces q).live = false ∧
    s'.table = (s.table.upd q { s.table.faces q with live := true, pid := s.nextpid }).next := by
  refine .bind allocproc_allocates fun r s1 h1 => ?_
  cases r with
  | none => exact .panic
  | some q =>
    obtain ⟨hq, h1⟩ := h1
    refine .bind (Code.Keeps.modify (f := table) (by exact fun _ => rfl) s1) fun _ s2 h2 => .get (.bind (vm_keeps _ s2) fun _ s3 h3 =>
      .bind (setProc_keeps (by exact fun _ => rfl) s3) fun _ s4 h4 => .bind (vm_keeps _ s4) fun _ s5 h5 =>
      .bind (vm_keeps _ s5) fun _ s6 h6 => .update ⟨q, hq, ?_⟩)
    have h6 : s6.table = (s.table.upd q { s.table.faces q with live := true, pid := s.nextpid }).next := by
      rw [h6, h5, h4, h3, h2, h1]
      rfl
    have hx : (s6.proc q).face = { s.table.faces q with live := true, pid := s.nextpid } := by
      rw [← table_faces, h6]
      simp
    have hface : ({ s6.proc q with name := "initcode".toUTF8.toList, state := .RUNNABLE } : Proc).face =
        { s.table.faces q with live := true, pid := s.nextpid } := by
      rw [← hx]
      simpa [Proc.face] using (congrArg Face.live hx).symm
    rw [table_updProc, hface, h6]
    simp

/-- **The first process** is the only one there is, and has pid 1. -/
theorem Booted.table {K : Layout} (h : Booted K s) :
    ∃ q, s.table = (powerOnTable.upd q { powerOnTable.faces q with live := true, pid := 1 }).next := by
  obtain ⟨k, s₀, ⟨ram, fails, hs₀⟩, hm, -⟩ := h
  have hboot : (main k).Ensures s₀ fun _ s' =>
      ∃ q, s'.table = (powerOnTable.upd q { powerOnTable.faces q with live := true, pid := 1 }).next := by
    refine .bind (vm_keeps _ _) fun _ s1 h1 => .bind (vm_keeps _ s1) fun l s2 h2 =>
      .bind (Code.Keeps.modify (f := Sys.table) (by exact fun _ => rfl) s2) fun _ s3 h3 => userinit_table.mono fun _ s4 h4 => ?_
    have h3 : s3.table = powerOnTable := h3.trans (h2.trans (h1.trans (by rw [hs₀]; rfl)))
    obtain ⟨q, -, h4⟩ := h4
    refine ⟨q, h4.trans ?_⟩
    rw [h3, show s3.nextpid = 1 from congrArg Table.nextpid h3]
  exact hboot () s hm

end Sys

end Xv6
