/-
The order of redirections. `parseredirs` wraps each redirection around what it has,
so the last one of the text is the outermost REDIR node, and `runcmd` opens the
file of a node before it goes on inside: the files are opened from the last to the
first, and it is the first redirection of a kind that the command runs with.
**They take effect from left to right if and only if they read the same
backwards** (`redirs_left_to_right_iff`); so with one redirection, and not with
`cat <a <b`.
-/
import Xv6.Sh.Words

namespace Xv6.Sh

/-! ## `runcmd` on REDIR nodes -/

/-- What a descriptor refers to: what the shell was started with there, or what an open returned. -/
inductive OpenFile where
  | inherited (fd : Nat)
  | opened (file : List UInt8) (mode : Nat)
deriving DecidableEq, Repr

/-- The descriptors of the process, and the opens it has made. -/
structure Fds where
  ofile : Nat → Option OpenFile
  opens : List (List UInt8 × Nat) := []

def NOFILE : Nat := 16

namespace Fds

def close (st : Fds) (fd : Nat) : Fds := { st with ofile := Function.update st.ofile fd none }

/-- `fdalloc`: the lowest free descriptor. -/
def lowest (st : Fds) : Option Nat := (List.range NOFILE).find? fun fd => (st.ofile fd).isNone

/-- An open that finds the file; it fails for want of a descriptor only. -/
def openFile (st : Fds) (file : List UInt8) (mode : Nat) : Option Fds :=
  st.lowest.map fun fd =>
    { ofile := Function.update st.ofile fd (some (.opened file mode)), opens := st.opens ++ [(file, mode)] }

end Fds

/-- `runcmd` at a REDIR node: the command it goes on with. The other nodes run the command itself. -/
def runRedir : Cmd (List UInt8) × Fds → Option (Cmd (List UInt8) × Fds)
  | (.redir cmd file mode fd, st) => ((st.close fd).openFile file mode).map fun st => (cmd, st)
  | _ => none

/-- `k` REDIR nodes in turn. -/
def runRedirs : Nat → Cmd (List UInt8) × Fds → Option (Cmd (List UInt8) × Fds)
  | 0, p => some p
  | k + 1, p => (runRedir p).bind (runRedirs k)

/-! ## The commands -/

/-- A simple command, or a block, with its redirections in the order of the text around the command itself. -/
inductive Redirected : List Tok → List Redirection → Cmd (List UInt8) → Prop
  | block {u v : List Tok} {c : Cmd (List UInt8)} {rs : List Redirection} (hu : Derives .line u c) (hv : Redirs v rs) :
      Redirected (.lparen :: (u ++ .rparen :: v)) rs c
  | simple {u v : List Tok} {ws : List (List UInt8)} {rs rs' : List Redirection}
      (hu : Redirs u rs) (hv : Args v ws rs') (hlen : ws.length < MAXARGS) : Redirected (u ++ v) (rs ++ rs') (.exec ws)

variable {u : List Tok} {rs : List Redirection} {c : Cmd (List UInt8)} {st : Fds}

theorem Redirected.derives (h : Redirected u rs c) : Derives .line u (rs.foldl Cmd.redirect c) := by
  have hexec : Derives .exec u (rs.foldl Cmd.redirect c) := by
    cases h with
    | block hu hv => exact .block hu hv
    | simple hu hv hlen => exact .simple hu hv hlen
  have hline := Derives.line 0 (.one hexec)
  simpa using hline

/-- As the grammar makes them: input on descriptor 0, output on 1. -/
def Redirection.Made (r : Redirection) : Prop := r.fd = if r.mode = O_RDONLY then 0 else 1

theorem Redirection.Made.fd_le {r : Redirection} (h : r.Made) : r.fd ≤ 1 := by
  rw [h]
  split <;> omega

theorem Redirs.made {u : List Tok} (h : Redirs u rs) : ∀ r ∈ rs, r.Made := by
  induction h with
  | nil => simp
  | cons hr hu ih =>
    intro r hmem
    obtain rfl | hmem := List.mem_cons.mp hmem
    · cases hr <;> exact rfl
    · exact ih r hmem

theorem Args.made {u : List Tok} {ws : List (List UInt8)} (h : Args u ws rs) : ∀ r ∈ rs, r.Made := by
  induction h with
  | nil => simp
  | cons hu hv ih => exact fun r hr => (List.mem_append.mp hr).elim (hu.made r) (ih r)

theorem Redirected.made (h : Redirected u rs c) : ∀ r ∈ rs, r.Made := by
  cases h with
  | block hu hv => exact hv.made
  | simple hu hv hlen => exact fun r hr => (List.mem_append.mp hr).elim (hu.made r) (hv.made r)

/-! ## What they do -/

/-- Descriptors 0 and 1 are open. -/
def Fds.Std (st : Fds) : Prop := st.ofile 0 ≠ none ∧ st.ofile 1 ≠ none

/-- The file of the redirection. -/
def Redirection.opened (r : Redirection) : OpenFile := .opened r.file r.mode

/-- The state after a redirection has been made. -/
def Fds.redirect (st : Fds) (r : Redirection) : Fds :=
  { ofile := Function.update st.ofile r.fd (some r.opened), opens := st.opens ++ [(r.file, r.mode)] }

theorem Fds.Std.redirect (h : st.Std) (r : Redirection) : (st.redirect r).Std := by
  unfold Fds.Std Fds.redirect
  constructor
  · by_cases h0 : 0 = r.fd
    · simp [← h0]
    · simpa [h0] using h.1
  · by_cases h1 : 1 = r.fd
    · simp [← h1]
    · simpa [h1] using h.2

/-- The descriptor that was closed is the lowest free one. -/
theorem open_close (h : st.Std) {r : Redirection} (hr : r.fd ≤ 1) :
    (st.close r.fd).openFile r.file r.mode = some (st.redirect r) := by
  have hlow : (st.close r.fd).lowest = some r.fd := by
    unfold Fds.lowest Fds.close
    rw [show List.range NOFILE = 0 :: 1 :: (List.range NOFILE).drop 2 from rfl]
    obtain h0 | h1 : r.fd = 0 ∨ r.fd = 1 := by omega
    · simp [h0]
    · have : (st.ofile 0).isNone = false := by
        rw [← Bool.not_eq_true, Option.isNone_iff_eq_none]
        exact h.1
      simp [h1, this]
  unfold Fds.openFile
  rw [hlow, Option.map_some, Fds.redirect, Fds.close, Function.update_idem]
  rfl

/-- The nodes are run from the outermost in, which is the last redirection first. -/
theorem runRedirs_eq (h : st.Std) (hrs : ∀ r ∈ rs, r.Made) :
    runRedirs rs.length (rs.foldl Cmd.redirect c, st) = some (c, rs.reverse.foldl Fds.redirect st) := by
  induction rs using List.reverseRecOn generalizing st with
  | nil => rfl
  | append_singleton rs r ih =>
    rw [List.foldl_append, List.length_append, List.reverse_append]
    change ((runRedir (.redir (rs.foldl Cmd.redirect c) r.file r.mode r.fd, st)).bind _) = _
    rw [runRedir, open_close h (hrs r (by simp)).fd_le, Option.map_some, Option.bind_some]
    exact ih (h.redirect r) fun r hr => hrs r (List.mem_append_left _ hr)

/-- The redirections made one after the other. -/
theorem foldl_redirect (rs : List Redirection) (st : Fds) :
    (rs.foldl Fds.redirect st).opens = st.opens ++ rs.map (fun r => (r.file, r.mode)) ∧
    ∀ fd, (rs.foldl Fds.redirect st).ofile fd =
      match (rs.filter fun r => r.fd = fd).getLast? with
      | some r => some r.opened
      | none => st.ofile fd := by
  induction rs using List.reverseRecOn with
  | nil => simp
  | append_singleton rs r ih =>
    rw [List.foldl_append, List.foldl_cons, List.foldl_nil]
    constructor
    · simp [Fds.redirect, ih.1]
    · intro fd
      rw [List.filter_append, Fds.redirect]
      by_cases hfd : r.fd = fd
      · simp [hfd]
      · have hne : fd ≠ r.fd := Ne.symm hfd
        simp only [Function.update_of_ne hne, ih.2 fd]
        simp [hfd]

/-- **The redirections took effect from left to right**: they were opened in that order, and each descriptor is what the
last of its kind made of it, or what it was. -/
def LeftToRight (rs : List Redirection) (st st' : Fds) : Prop :=
  st'.opens = st.opens ++ rs.map (fun r => (r.file, r.mode)) ∧
  ∀ fd, fd = 0 ∨ fd = 1 → st'.ofile fd =
    match (rs.filter fun r => r.fd = fd).getLast? with
    | some r => some r.opened
    | none => st.ofile fd

/-- The call that opens the file. -/
def Redirection.call (r : Redirection) : List UInt8 × Nat := (r.file, r.mode)

/-- The calls determine the redirections. -/
theorem eq_of_map_call {rs rs' : List Redirection} (h : ∀ r ∈ rs, r.Made) (h' : ∀ r ∈ rs', r.Made)
    (he : rs.map Redirection.call = rs'.map Redirection.call) : rs = rs' := by
  have hback {l : List Redirection} (hl : ∀ r ∈ l, r.Made) :
      (l.map Redirection.call).map (fun p => ⟨p.1, p.2, if p.2 = O_RDONLY then 0 else 1⟩) = l := by
    rw [List.map_map]
    conv_rhs => rw [← List.map_id l]
    refine List.map_congr_left fun r hr => ?_
    exact congrArg (Redirection.mk r.file r.mode) (hl r hr).symm
  rw [← hback h, ← hback h', he]

/-- **Redirections take effect from left to right if and only if they read the same backwards.** For a simple command or a
block, parsed and run up to the command itself. -/
theorem redirs_left_to_right_iff {s : List UInt8} (hs : 0 ∉ s) {fuel : Nat} (hfuel : 4 * s.length + 5 ≤ fuel)
    {rs : List Redirection} {c : Cmd (List UInt8)} (h : Redirected (tokens s) rs c) {st : Fds} (hst : st.Std) :
    ∃ r st', parsecmd fuel s = .ok r ∧ runRedirs rs.length (strings r, st) = some (c, st') ∧
      (LeftToRight rs st st' ↔ rs.reverse = rs) := by
  obtain ⟨t, hr, ht⟩ := parsecmd_finds hs hfuel h.derives
  refine ⟨_, rs.reverse.foldl Fds.redirect st, hr, ?_, ?_⟩
  · rw [strings_nulterminate hs ht]
    exact runRedirs_eq hst h.made
  · obtain ⟨hopens, hfds⟩ := foldl_redirect rs.reverse st
    constructor
    · rintro ⟨horder, -⟩
      rw [hopens, List.append_cancel_left_eq] at horder
      exact eq_of_map_call (fun r hr => h.made r (List.mem_reverse.mp hr)) h.made horder
    · intro hrev
      rw [hrev] at hopens hfds ⊢
      exact ⟨hopens, fun fd _ => hfds fd⟩

/-- The shell's own descriptors. -/
def Fds.start : Fds := { ofile := fun fd => if fd < 3 then some (.inherited fd) else none }

/-- `a <f`: one redirection. -/
theorem redirs_left_to_right_one : ∃ r st', parsecmd 64 ("a <f".toList.map Char.toUInt8) = .ok r ∧
    runRedirs 1 (strings r, .start) = some (.exec [['a'.toUInt8]], st') ∧
    LeftToRight [⟨['f'.toUInt8], O_RDONLY, 0⟩] .start st' := by
  have htokens : tokens ("a <f".toList.map Char.toUInt8) = [.word ['a'.toUInt8], .lt, .word ['f'.toUInt8]] := by
    decide +kernel
  have hcmd : Redirected (tokens ("a <f".toList.map Char.toUInt8)) [⟨['f'.toUInt8], O_RDONLY, 0⟩] (.exec [['a'.toUInt8]]) := by
    rw [htokens]
    exact .simple .nil (.cons (.cons .lt .nil) .nil) (by decide)
  obtain ⟨r, st', hr, hrun, hiff⟩ := @redirs_left_to_right_iff _ (by decide) 64 (by decide) _ _ hcmd .start
    ⟨by decide, by decide⟩
  exact ⟨r, st', hr, hrun, hiff.mpr rfl⟩

/-- **`cat <a <b` reads `a`**: `b` is opened first, and closed again for `a`. -/
theorem redirs_right_to_left : ∃ r st', parsecmd 64 ("cat <a <b".toList.map Char.toUInt8) = .ok r ∧
    runRedirs 2 (strings r, .start) = some (.exec ["cat".toList.map Char.toUInt8], st') ∧
    st'.opens = [(['b'.toUInt8], O_RDONLY), (['a'.toUInt8], O_RDONLY)] ∧
    st'.ofile 0 = some (.opened ['a'.toUInt8] O_RDONLY) := by
  have hparse : ∃ r, parsecmd 64 ("cat <a <b".toList.map Char.toUInt8) = .ok r ∧ strings r =
      .redir (.redir (.exec ["cat".toList.map Char.toUInt8]) ['a'.toUInt8] O_RDONLY 0) ['b'.toUInt8] O_RDONLY 0 :=
    ⟨(.redir (.redir (.exec [(0, 3)]) (5, 6) 0 0) (8, 9) 0 0, ['c', 'a', 't', '\x00', '<', 'a', '\x00', '<', 'b'].map Char.toUInt8),
      by decide +kernel, by decide +kernel⟩
  obtain ⟨r, hr, hs⟩ := hparse
  refine ⟨r, (Fds.start.redirect ⟨['b'.toUInt8], O_RDONLY, 0⟩).redirect ⟨['a'.toUInt8], O_RDONLY, 0⟩, hr, ?_, rfl, rfl⟩
  rw [hs]
  exact @runRedirs_eq [⟨['a'.toUInt8], O_RDONLY, 0⟩, ⟨['b'.toUInt8], O_RDONLY, 0⟩] _ _ ⟨by decide, by decide⟩
    (by simp [Redirection.Made])

end Xv6.Sh
