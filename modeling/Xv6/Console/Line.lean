/-
The console's line discipline. However bytes arrive and readers interleave, the ring
between `r` and `e` is the committed bytes nobody has consumed followed by the line being
edited, at most INPUT_BUF_SIZE together; nothing in it is overwritten, erasing stops at
`w`, and readers consume the committed bytes in order (`console_ring`). What they deliver
is what was typed, edited as the keys say (`line_discipline`), except that two
printable characters never get there: '\x41' and '\x42', the letters A and B, print a
line of the history instead.
-/
import Xv6.Console.Model

namespace Xv6.Console

open Lib

/-! ## What the history code leaves alone -/

/-- The part of the state that readers and the line editor work on. -/
structure Io where
  cons : Cons
  typed : List (UInt8 × Nat)
  committed : List UInt8
  consumed : List UInt8
  delivered : List UInt8

def St.io (s : St) : Io := ⟨s.cons, s.typed, s.committed, s.consumed, s.delivered⟩

theorem onHist_io {α : Type} (c : Code Hist α) (s : St) : (onHist c).Ensures s fun _ s' => s'.io = s.io := by
  intro a s' h
  unfold onHist at h
  split at h
  · cases h
    rfl
  · cases h

/-! ## What consoleintr does to the ring -/

/-- C('U')'s loop on the ring alone. -/
def Cons.kill : Nat → Cons → Cons
  | 0, k => k
  | n + 1, k => if k.e ≠ k.w ∧ k.last ≠ newline then Cons.kill n k.erase else k

/-- Does this byte, stored when the ring is as given, end a line? -/
def Cons.Commits (k : Cons) (c : UInt8) : Prop :=
  c = newline ∨ c = ctrlD ∨ (k.push c).e - k.r = UInt32.ofNat INPUT_BUF_SIZE

instance (k : Cons) (c : UInt8) : Decidable (k.Commits c) := inferInstanceAs (Decidable (_ ∨ _ ∨ _))

namespace Io

def store (x : Io) (c : UInt8) : Io :=
  if x.cons.Commits c then
    { x with cons := (x.cons.push c).commit, committed := x.committed ++ (x.cons.push c).line }
  else { x with cons := x.cons.push c }

def key (x : Io) (c : UInt8) : Io :=
  if c = ctrlP then x
  else if c = ctrlU then { x with cons := x.cons.kill (x.cons.e - x.cons.w).toNat }
  else if c = ctrlH ∨ c = delete then (if x.cons.e ≠ x.cons.w then { x with cons := x.cons.erase } else x)
  else if c = 0x41 ∨ c = 0x42 then x
  else if c ≠ 0 ∧ x.cons.e - x.cons.r < UInt32.ofNat INPUT_BUF_SIZE then
    x.store (if c = carriageReturn then newline else c)
  else x

def intr (x : Io) (c : UInt8) : Io :=
  { x with typed := x.typed ++ [(c, (x.cons.e - x.cons.r).toNat)] }.key c

end Io

theorem Io.store_of_commits {x : Io} {c : UInt8} (h : x.cons.Commits c) :
    x.store c = { x with cons := (x.cons.push c).commit, committed := x.committed ++ (x.cons.push c).line } :=
  if_pos h

theorem Io.store_of_not {x : Io} {c : UInt8} (h : ¬ x.cons.Commits c) : x.store c = { x with cons := x.cons.push c } :=
  if_neg h

theorem killLine_io (n : Nat) (s : St) : (killLine n).Ensures s fun _ s' => s'.io = { s.io with cons := s.cons.kill n } := by
  induction n generalizing s with
  | zero => exact .pure rfl
  | succ n ih =>
    unfold killLine Cons.kill
    refine .get ?_
    split
    · refine .modify ((onHist_io _ _).bind fun _ s1 h1 => (ih s1).mono fun _ s' hs => hs.trans ?_)
      change ({ s1.io with cons := s1.io.cons.kill n } : Io) = _
      rw [h1]
      rfl
    · exact .pure rfl

theorem commit_io (K : Mapped) (s : St) : (commit K).Ensures s fun _ s' =>
    s'.io = { s.io with cons := s.cons.commit, committed := s.committed ++ s.cons.line } := by
  refine (onHist_io _ s).bind fun _ s1 h1 => .modify (.modify (.update ?_))
  change ({ s1.io with cons := s1.io.cons.commit, committed := s1.io.committed ++ s1.io.cons.line } : Io) = _
  rw [h1]
  rfl

theorem storeChar_io (K : Mapped) (c : UInt8) (s : St) : (storeChar K c).Ensures s fun _ s' => s'.io = s.io.store c := by
  refine (onHist_io _ s).bind fun _ s1 h1 => .modify (.get ?_)
  rw [← h1]
  unfold Code.when
  split
  · next h => exact (commit_io K _).mono fun _ s' hs => hs.trans (Io.store_of_commits (x := s1.io) h).symm
  · next h => exact .pure (Io.store_of_not (x := s1.io) h).symm

theorem backspace_io (s : St) : backspace.Ensures s fun _ s' =>
    s'.io = if s.cons.e ≠ s.cons.w then { s.io with cons := s.cons.erase } else s.io := by
  refine (onHist_io _ s).bind fun _ s1 h1 => .get ?_
  change Code.Ensures _ _ fun _ (s' : St) => s'.io = if s.io.cons.e ≠ s.io.cons.w then { s.io with cons := s.io.cons.erase } else s.io
  rw [← h1]
  unfold Code.when
  split
  · next h => exact .modify ((onHist_io _ _).mono fun _ s' hs => hs.trans (if_pos h).symm)
  · next h => exact .pure (if_neg h).symm

theorem consoleintr_io (K : Mapped) (c : UInt8) (s : St) : (consoleintr K c).Ensures s fun _ s' => s'.io = s.io.intr c := by
  unfold consoleintr Io.intr Io.key
  refine .get (.modify ?_)
  split
  · exact .pure rfl
  split
  · exact killLine_io _ _
  split
  · exact backspace_io _
  by_cases hA : c = 0x41
  · rw [if_pos hA, if_pos (.inl hA)]
    exact onHist_io _ _
  by_cases hB : c = 0x42
  · rw [if_neg hA, if_pos hB, if_pos (.inr hB)]
    exact onHist_io _ _
  have hAB : ¬ (c = 0x41 ∨ c = 0x42) := by simp [hA, hB]
  rw [if_neg hA, if_neg hB, if_neg hAB]
  split
  · next h => exact (storeChar_io K _ _).mono fun _ s' hs => hs.trans (if_pos h).symm
  · next h => exact .pure (if_neg h).symm

/-! ## The ring as two lists -/

theorem bufsize_dvd : INPUT_BUF_SIZE ∣ 2 ^ 32 := ⟨2 ^ 25, by decide⟩
theorem bufsize_lt : INPUT_BUF_SIZE < 2 ^ 32 := by decide

/-- Between `r` and `w` the ring holds `p`, between `w` and `e` it holds `l`. -/
structure Cons.Split (k : Cons) (p l : List UInt8) : Prop where
  holds : Ring.Holds k.buf k.r k.e (p ++ l)
  mark : k.w = k.r + UInt32.ofNat p.length

namespace Cons.Split

variable {k : Cons} {p l : List UInt8} {c : UInt8}

theorem fits (h : k.Split p l) : p.length + l.length ≤ INPUT_BUF_SIZE := by
  simpa using h.holds.fits

theorem e_sub_r (h : k.Split p l) : (k.e - k.r).toNat = p.length + l.length := by
  rw [h.holds.sub_eq bufsize_lt, List.length_append]

/-- The committed bytes on their own, and the line on its own. -/
theorem pending (h : k.Split p l) : Ring.Holds k.buf k.r k.w p := by
  refine ⟨h.mark, by have := h.fits; omega, ?_⟩
  have hc := h.holds.cells
  rw [List.length_append, Ring.window_add] at hc
  exact (List.append_inj hc (by simp)).1

theorem editing (h : k.Split p l) : Ring.Holds k.buf k.w k.e l := by
  have hc := h.holds.cells
  rw [List.length_append, Ring.window_add, ← h.mark] at hc
  refine ⟨?_, by have := h.fits; omega, (List.append_inj hc (by simp)).2⟩
  rw [h.holds.span, h.mark, List.length_append, UInt32.ofNat_add, UInt32.add_assoc]

theorem w_sub_r (h : k.Split p l) : (k.w - k.r).toNat = p.length := h.pending.sub_eq bufsize_lt

theorem e_sub_w (h : k.Split p l) : (k.e - k.w).toNat = l.length := h.editing.sub_eq bufsize_lt

theorem line_eq (h : k.Split p l) : k.line = l := by
  rw [Cons.line, h.e_sub_w, h.editing.cells]

theorem e_eq_w (h : k.Split p l) : k.e = k.w ↔ l = [] := by
  rw [eq_comm, h.editing.eq_iff bufsize_lt]

theorem push (h : k.Split p l) (hlt : p.length + l.length < INPUT_BUF_SIZE) : (k.push c).Split p (l ++ [c]) := by
  refine ⟨?_, h.mark⟩
  rw [← List.append_assoc]
  exact h.holds.push bufsize_dvd (by simpa using hlt)

theorem commit (h : k.Split p l) : k.commit.Split (p ++ l) [] := by
  refine ⟨?_, h.holds.span⟩
  rw [List.append_nil]
  exact h.holds

theorem erase (h : k.Split p (l ++ [c])) : k.last = c ∧ k.erase.Split p l := by
  have hh := h.holds
  rw [← List.append_assoc] at hh
  obtain ⟨hc, hs⟩ := hh.unpush
  exact ⟨hc, hs, h.mark⟩

/-- The code's test for a full ring counts the bytes of both parts and the new one. -/
theorem commits_iff (h : k.Split p l) (hlt : p.length + l.length < INPUT_BUF_SIZE) :
    k.Commits c ↔ c = newline ∨ c = ctrlD ∨ p.length + l.length + 1 = INPUT_BUF_SIZE := by
  have hfull : (k.push c).e - k.r = UInt32.ofNat INPUT_BUF_SIZE ↔ p.length + l.length + 1 = INPUT_BUF_SIZE := by
    rw [← UInt32.toNat_inj]
    change ((k.push c).e - (k.push c).r).toNat = _ ↔ _
    rw [(h.push hlt).e_sub_r, List.length_append, List.length_singleton, ← Nat.add_assoc]
    exact Iff.rfl
  rw [Cons.Commits, hfull]

/-- C('U') takes back the whole line: no newline is in it. -/
theorem kill (h : k.Split p l) (hl : newline ∉ l) : (k.kill l.length).Split p [] := by
  induction l using List.reverseRecOn generalizing k with
  | nil => exact h
  | append_singleton l c ih =>
    obtain ⟨hlast, he⟩ := h.erase
    have hne : k.e ≠ k.w := fun heq => by simpa using h.e_eq_w.mp heq
    rw [List.mem_append, not_or, List.mem_singleton] at hl
    rw [List.length_append, List.length_singleton, Cons.kill, if_pos ⟨hne, hlast ▸ Ne.symm hl.2⟩]
    exact ih he hl.1

theorem consume {x : UInt8} (h : k.Split (x :: p) l) :
    k.buf (Ring.cell INPUT_BUF_SIZE k.r) = x ∧ ({ k with r := k.r + 1 } : Cons).Split p l := by
  obtain ⟨hx, hh⟩ := Ring.Holds.pop h.holds
  refine ⟨hx, hh, ?_⟩
  rw [h.mark, List.length_cons, Ring.add_ofNat_succ]

end Cons.Split

/-! ## The keys -/

/-- What a key is for: the bytes it commits, and the line it leaves. `fill` is how many bytes the ring holds. -/
def press (line : List UInt8) (c : UInt8) (fill : Nat) : List UInt8 × List UInt8 :=
  if c = 0 ∨ c = ctrlP then ([], line)
  else if c = ctrlU then ([], [])
  else if c = ctrlH ∨ c = delete then ([], line.dropLast)
  else if fill < INPUT_BUF_SIZE then
    let c := if c = carriageReturn then newline else c
    if c = newline ∨ c = ctrlD ∨ fill + 1 = INPUT_BUF_SIZE then (line ++ [c], []) else ([], line ++ [c])
  else ([], line)

/-- All that has been committed, and the line, after the keys typed so far. -/
def edit (typed : List (UInt8 × Nat)) : List UInt8 × List UInt8 :=
  typed.foldl (fun d k => (d.1 ++ (press d.2 k.1 k.2).1, (press d.2 k.1 k.2).2)) ([], [])

theorem edit_snoc (typed : List (UInt8 × Nat)) (c : UInt8) (fill : Nat) :
    edit (typed ++ [(c, fill)]) =
      ((edit typed).1 ++ (press (edit typed).2 c fill).1, (press (edit typed).2 c fill).2) := by
  rw [edit, List.foldl_append]
  rfl

/-- The ring after a stored byte, as `press` has it. -/
theorem store_split {x : Io} {p l : List UInt8} {c : UInt8} (h : x.cons.Split p l)
    (hlt : p.length + l.length < INPUT_BUF_SIZE) :
    let r := if c = newline ∨ c = ctrlD ∨ p.length + l.length + 1 = INPUT_BUF_SIZE then (l ++ [c], []) else ([], l ++ [c])
    (x.store c).cons.Split (p ++ r.1) r.2 ∧ (x.store c).committed = x.committed ++ r.1 := by
  have hp : (x.cons.push c).Split p (l ++ [c]) := h.push hlt
  have hcom := h.commits_iff (c := c) hlt
  by_cases hC : x.cons.Commits c
  · rw [Io.store_of_commits hC, if_pos (hcom.mp hC), hp.line_eq]
    exact ⟨hp.commit, rfl⟩
  · rw [Io.store_of_not hC, if_neg (fun h => hC (hcom.mpr h))]
    simp only [List.append_nil, and_true]
    exact hp

/-- A key does to the ring what `press` says, unless it is one of the two letters the history takes. -/
theorem key_split {x : Io} {p l : List UInt8} {c : UInt8} (h : x.cons.Split p l) (hl : newline ∉ l)
    (hA : c ≠ 0x41) (hB : c ≠ 0x42) :
    let r := press l c (p.length + l.length)
    (x.key c).cons.Split (p ++ r.1) r.2 ∧ (x.key c).committed = x.committed ++ r.1 := by
  have room : x.cons.e - x.cons.r < UInt32.ofNat INPUT_BUF_SIZE ↔ p.length + l.length < INPUT_BUF_SIZE := by
    rw [UInt32.lt_iff_toNat_lt, h.e_sub_r]
    exact Iff.rfl
  have same : x.cons.Split (p ++ []) l ∧ x.committed = x.committed ++ [] := by simpa using h
  by_cases hP : c = ctrlP
  · have hk : x.key c = x := if_pos hP
    have hp : press l c (p.length + l.length) = ([], l) := if_pos (.inr hP)
    rw [hk, hp]
    exact same
  by_cases h0 : c = 0
  · have hk : x.key c = x := by
      subst h0
      rfl
    have hp : press l c (p.length + l.length) = ([], l) := if_pos (.inl h0)
    rw [hk, hp]
    exact same
  by_cases hU : c = ctrlU
  · have hk : x.key c = { x with cons := x.cons.kill l.length } := by
      subst hU
      rw [← h.e_sub_w]
      rfl
    have hp : press l c (p.length + l.length) = ([], []) := by
      subst hU
      rfl
    rw [hk, hp]
    simpa using h.kill hl
  by_cases hH : c = ctrlH ∨ c = delete
  · have hk : x.key c = if x.cons.e ≠ x.cons.w then { x with cons := x.cons.erase } else x := by
      rw [Io.key, if_neg hP, if_neg hU, if_pos hH]
    have hp : press l c (p.length + l.length) = ([], l.dropLast) := by
      rw [press, if_neg (by simp [h0, hP]), if_neg hU, if_pos hH]
    rw [hk, hp]
    cases l using List.reverseRecOn with
    | nil =>
      rw [if_neg (by simpa using h.e_eq_w.mpr rfl)]
      exact same
    | append_singleton l a =>
      rw [if_pos fun he => by simpa using h.e_eq_w.mp he, List.dropLast_concat]
      simpa using h.erase.2
  by_cases hr : p.length + l.length < INPUT_BUF_SIZE
  · have hk : x.key c = x.store (if c = carriageReturn then newline else c) := by
      rw [Io.key, if_neg hP, if_neg hU, if_neg hH, if_neg (by simp [hA, hB]), if_pos ⟨h0, room.mpr hr⟩]
    rw [hk, press, if_neg (by simp [h0, hP]), if_neg hU, if_neg hH, if_pos hr]
    exact store_split h hr
  · have hk : x.key c = x := by
      rw [Io.key, if_neg hP, if_neg hU, if_neg hH, if_neg (by simp [hA, hB]), if_neg fun hc => hr (room.mp hc.2)]
    have hp : press l c (p.length + l.length) = ([], l) := by
      rw [press, if_neg (by simp [h0, hP]), if_neg hU, if_neg hH, if_neg hr]
    rw [hk, hp]
    exact same

theorem newline_not_mem_press {l : List UInt8} {c : UInt8} {fill : Nat} (hl : newline ∉ l) :
    newline ∉ (press l c fill).2 := by
  unfold press
  split
  · exact hl
  split
  · exact List.not_mem_nil
  split
  · exact fun h => hl (List.mem_of_mem_dropLast h)
  split
  · dsimp only
    generalize (if c = carriageReturn then newline else c) = c'
    split
    · exact List.not_mem_nil
    · next h =>
      rw [not_or] at h
      simp [hl, Ne.symm h.1]
  · exact hl

/-- A key takes bytes off the end of the line or adds one to it. -/
theorem press_prefix (l : List UInt8) (c : UInt8) (fill : Nat) :
    (press l c fill).1 ++ (press l c fill).2 <+: l ∨ l <+: (press l c fill).1 ++ (press l c fill).2 := by
  unfold press
  split
  · exact .inl (List.prefix_refl _)
  split
  · exact .inl List.nil_prefix
  split
  · exact .inl (List.dropLast_prefix l)
  split
  · dsimp only
    generalize (if c = carriageReturn then newline else c) = c'
    split
    · exact .inr (by simp)
    · exact .inr (by simp)
  · exact .inl (List.prefix_refl _)

theorem Cons.kill_r (n : Nat) (k : Cons) : (k.kill n).r = k.r := by
  induction n generalizing k with
  | zero => rfl
  | succ n ih =>
    unfold Cons.kill
    split
    · exact ih k.erase
    · rfl

/-- A key moves neither the read index nor what readers did. -/
theorem key_frame (x : Io) (c : UInt8) : (x.key c).cons.r = x.cons.r ∧ (x.key c).typed = x.typed ∧
    (x.key c).consumed = x.consumed ∧ (x.key c).delivered = x.delivered := by
  have hst : ∀ c, (x.store c).cons.r = x.cons.r ∧ (x.store c).typed = x.typed ∧
      (x.store c).consumed = x.consumed ∧ (x.store c).delivered = x.delivered := by
    intro c
    unfold Io.store
    split <;> exact ⟨rfl, rfl, rfl, rfl⟩
  unfold Io.key
  split
  · exact ⟨rfl, rfl, rfl, rfl⟩
  split
  · exact ⟨Cons.kill_r _ _, rfl, rfl, rfl⟩
  split
  · split <;> exact ⟨rfl, rfl, rfl, rfl⟩
  split
  · exact ⟨rfl, rfl, rfl, rfl⟩
  split
  · exact hst _
  · exact ⟨rfl, rfl, rfl, rfl⟩

/-! ## Every run -/

/-- The ring is the committed bytes not yet consumed, `p`, and the line being edited, `l`. -/
structure Ok (x : Io) (p l : List UInt8) : Prop where
  split : x.cons.Split p l
  noNewline : newline ∉ l
  order : x.consumed ++ p = x.committed

theorem intr_ok {x : Io} {p l : List UInt8} {c : UInt8} (h : Ok x p l) (hA : c ≠ 0x41) (hB : c ≠ 0x42) :
    Ok (x.intr c) (p ++ (press l c (p.length + l.length)).1) (press l c (p.length + l.length)).2 := by
  obtain ⟨hs, hl, ho⟩ := h
  obtain ⟨h1, h2⟩ := key_split (x := { x with typed := x.typed ++ [(c, (x.cons.e - x.cons.r).toNat)] }) hs hl hA hB
  refine ⟨h1, newline_not_mem_press hl, ?_⟩
  rw [Io.intr, (key_frame _ c).2.2.1, h2, ← List.append_assoc, ho]

theorem intr_letter (x : Io) {c : UInt8} (h : c = 0x41 ∨ c = 0x42) :
    x.intr c = { x with typed := x.typed ++ [(c, (x.cons.e - x.cons.r).toNat)] } := by
  rcases h with rfl | rfl <;> rfl

/-- The bytes from `r` up to `w`, and up to `e`. -/
def Cons.pending (k : Cons) : List UInt8 := Ring.window k.buf k.r (k.w - k.r).toNat
def Cons.ring (k : Cons) : List UInt8 := Ring.window k.buf k.r (k.e - k.r).toNat

theorem Cons.Split.pending_eq {k : Cons} {p l : List UInt8} (h : k.Split p l) : k.pending = p := by
  rw [Cons.pending, h.w_sub_r, h.pending.cells]

theorem Cons.Split.ring_eq {k : Cons} {p l : List UInt8} (h : k.Split p l) : k.ring = p ++ l := by
  rw [Cons.ring, h.e_sub_r, ← List.length_append, h.holds.cells]

/-- What a step may do to the ring. A byte that arrives only lengthens or shortens it at the end, never below what is
committed. A pass of consoleread takes the front byte or nothing: nothing if there is no committed byte, and nothing
if the byte is ^D and something was delivered before it. -/
def Moves (s s' : St) : Label → Prop
  | .intr _ => s'.cons.r = s.cons.r ∧ s'.consumed = s.consumed ∧ s.cons.pending <+: s'.cons.pending ∧
      (s'.cons.ring <+: s.cons.ring ∨ s.cons.ring <+: s'.cons.ring)
  | .run t => (s'.cons = s.cons ∧ s'.consumed = s.consumed ∨
      s.cons.r ≠ s.cons.w ∧ s'.cons = { s.cons with r := s.cons.r + 1 } ∧ s'.consumed = s.consumed ++ [s.front]) ∧
      ∀ c, s.thread t = .loop c → c.n < c.target → s.front = ctrlD → s'.cons = s.cons
  | .read _ _ _ | .kill _ | .history _ => s'.cons = s.cons ∧ s'.consumed = s.consumed

theorem outcome_ensures {c : Code St Unit} {s s' : St} {Q : St → Prop} (h : c.Ensures s fun _ s' => Q s')
    (he : outcome c s = .ok s') : Q s' := by
  unfold outcome at he
  split at he
  · next hc =>
    cases he
    exact h _ _ hc
  · cases he

/-- A reader takes the front byte out of the ring; it is delivered, unless it is ^D or copyout fails. -/
structure Takes (s : St) (c : ReadCall) (x : Io) : Prop where
  ready : s.cons.r ≠ s.cons.w
  cons : x.cons = { s.cons with r := s.cons.r + 1 }
  consumed : x.consumed = s.consumed ++ [s.front]
  typed : x.typed = s.typed
  committed : x.committed = s.committed
  delivered : x.delivered = s.delivered ∧ (s.front = ctrlD ∨ c.ok (c.target - c.n).toNat = false) ∨
    x.delivered = s.delivered ++ [s.front] ∧ s.front ≠ ctrlD

/-- What one pass of consoleread does. -/
theorem consoleread_cases (s : St) (t : Nat) (c : ReadCall) :
    ((s.consoleread t c).io = s.io ∨ Takes s c (s.consoleread t c).io) ∧
    (c.n < c.target → s.front = ctrlD → (s.consoleread t c).io = s.io) := by
  unfold St.consoleread
  split
  · split
    · split <;> exact ⟨.inl rfl, fun _ _ => rfl⟩
    next hne =>
    split
    · next hD =>
      split
      · exact ⟨.inl rfl, fun _ _ => rfl⟩
      · next hlt => exact ⟨.inr ⟨hne, rfl, rfl, rfl, rfl, .inl ⟨rfl, .inl hD⟩⟩, fun h => absurd h hlt⟩
    next hD =>
    split
    · next hok => exact ⟨.inr ⟨hne, rfl, rfl, rfl, rfl, .inl ⟨rfl, .inr hok⟩⟩, fun _ h => absurd h hD⟩
    · dsimp only
      split <;> exact ⟨.inr ⟨hne, rfl, rfl, rfl, rfl, .inr ⟨rfl, hD⟩⟩, fun _ h => absurd h hD⟩
  · exact ⟨.inl rfl, fun _ _ => rfl⟩

theorem Takes.ok {s : St} {c : ReadCall} {x : Io} {p l : List UInt8} (ht : Takes s c x) (h : Ok s.io p l) :
    ∃ p', p = s.front :: p' ∧ Ok x p' l := by
  obtain ⟨hs, hl, ho⟩ := h
  cases p with
  | nil => exact absurd (((hs.pending.eq_iff bufsize_lt).mpr rfl)) ht.ready
  | cons b p =>
    obtain ⟨hb, hs'⟩ := hs.consume
    have hb : s.front = b := hb
    refine ⟨p, by rw [hb], ?_, hl, ?_⟩
    · rw [ht.cons]
      exact hs'
    · rw [ht.consumed, ht.committed, hb, List.append_assoc, List.singleton_append]
      exact ho

section Steps

variable {K : Mapped}

theorem run_ok {s s' : St} {t : Nat} {p l : List UInt8} (h : Ok s.io p l) (he : run s t = .ok s') :
    (∃ p', Ok s'.io p' l) ∧ Moves s s' (.run t) := by
  unfold run at he
  split at he
  · next ht =>
    split at he
    · cases he
      exact ⟨⟨p, h⟩, .inl ⟨rfl, rfl⟩, fun c hc => by rw [ht] at hc; cases hc⟩
    · cases he
  · next c ht =>
    cases he
    obtain ⟨hcase, hD⟩ := consoleread_cases s t c
    refine ⟨?_, ?_, fun c' hc hlt hf => ?_⟩
    · rcases hcase with hio | htake
      · exact ⟨p, hio ▸ h⟩
      · obtain ⟨p', -, hok⟩ := htake.ok h
        exact ⟨p', hok⟩
    · rcases hcase with hio | htake
      · exact .inl ⟨congrArg Io.cons hio, congrArg Io.consumed hio⟩
      · exact .inr ⟨htake.ready, htake.cons, htake.consumed⟩
    · rw [ht] at hc
      cases hc
      exact congrArg Io.cons (hD hlt hf)
  · cases he
  · cases he

theorem intr_moves {s s' : St} {c : UInt8} {p l : List UInt8} (h : Ok s.io p l) (he : s'.io = s.io.intr c) :
    (∃ p' l', Ok s'.io p' l') ∧ Moves s s' (.intr c) := by
  by_cases hAB : c = 0x41 ∨ c = 0x42
  · rw [intr_letter _ hAB] at he
    have hc : s'.cons = s.cons := congrArg Io.cons he
    refine ⟨⟨p, l, he ▸ ⟨h.split, h.noNewline, h.order⟩⟩, ?_, congrArg Io.consumed he, ?_, .inl ?_⟩
    · rw [hc]
    · rw [hc]
    · rw [hc]
  · rw [not_or] at hAB
    have hok := intr_ok h hAB.1 hAB.2
    rw [← he] at hok
    have hf := key_frame { s.io with typed := s.io.typed ++ [(c, (s.io.cons.e - s.io.cons.r).toNat)] } c
    refine ⟨⟨_, _, hok⟩, ?_, ?_, ?_, ?_⟩
    · exact (congrArg (·.cons.r) he).trans hf.1
    · exact (congrArg Io.consumed he).trans hf.2.2.1
    · change s.io.cons.pending <+: s'.io.cons.pending
      rw [h.split.pending_eq, hok.split.pending_eq]
      exact List.prefix_append _ _
    · change s'.io.cons.ring <+: s.io.cons.ring ∨ s.io.cons.ring <+: s'.io.cons.ring
      rw [h.split.ring_eq, hok.split.ring_eq, List.append_assoc, List.prefix_append_right_inj,
        List.prefix_append_right_inj]
      exact press_prefix _ _ _

theorem step_ok {s s' : St} {lb : Label} {p l : List UInt8} (h : Ok s.io p l) (he : step K s lb = .ok s') :
    (∃ p' l', Ok s'.io p' l') ∧ Moves s s' lb := by
  cases lb with
  | intr c =>
    dsimp only [step] at he
    split at he
    · exact intr_moves h (outcome_ensures (Q := fun s' => s'.io = s.io.intr c) (consoleintr_io K c s) he)
    · cases he
  | read t n ok =>
    dsimp only [step] at he
    split at he
    · cases he
      exact ⟨⟨p, l, h⟩, rfl, rfl⟩
    · cases he
  | run t =>
    obtain ⟨⟨p', hp⟩, hm⟩ := run_ok h he
    exact ⟨⟨p', l, hp⟩, hm⟩
  | kill t =>
    cases he
    exact ⟨⟨p, l, h⟩, rfl, rfl⟩
  | history n =>
    have hio := outcome_ensures (Q := fun s' => s'.io = s.io) (onHist_io _ s) he
    exact ⟨⟨p, l, hio ▸ h⟩, congrArg Io.cons hio, congrArg Io.consumed hio⟩

theorem init_ok {s : St} (h : init s) : Ok s.io [] [] := by
  obtain ⟨mem, -, rfl⟩ := h
  exact ⟨⟨Ring.Holds.empty _ _, rfl⟩, List.not_mem_nil, rfl⟩

end Steps

/-! ## What is delivered -/

/-- The consoleread a process is in. -/
def Thread.call : Thread → Option ReadCall
  | .idle => none
  | .enter c | .loop c | .sleep c => some c

def St.calls (s : St) (t : Nat) : Option ReadCall := (s.thread t).call

theorem keeps_onHist {α : Type} (c : Code Hist α) : (onHist c).Keeps St.calls := by
  intro s a s' h
  unfold onHist at h
  split at h
  · cases h
    rfl
  · cases h

theorem keeps_wakeup : wakeup.Keeps St.calls := .modify fun s => by
  funext t
  simp only [St.calls]
  cases s.thread t <;> rfl

theorem keeps_killLine (n : Nat) : (killLine n).Keeps St.calls := by
  induction n with
  | zero => exact .pure ()
  | succ n ih =>
    exact .get fun _ => .ite (.bind (.modify fun _ => rfl) fun _ => .bind (keeps_onHist _) fun _ => ih) (.pure ())

theorem keeps_consoleintr (K : Mapped) (c : UInt8) : (consoleintr K c).Keeps St.calls := by
  have commit : (commit K).Keeps St.calls :=
    .bind (keeps_onHist _) fun _ => .bind (.modify fun _ => rfl) fun _ => .bind (.modify fun _ => rfl) fun _ =>
      keeps_wakeup
  have store : ∀ c, (storeChar K c).Keeps St.calls := fun c =>
    .bind (keeps_onHist _) fun _ => .bind (.modify fun _ => rfl) fun _ => .get fun _ => .when commit
  have back : backspace.Keeps St.calls :=
    .bind (keeps_onHist _) fun _ => .get fun _ => .when (.bind (.modify fun _ => rfl) fun _ => keeps_onHist _)
  exact .get fun _ => .bind (.modify fun _ => rfl) fun _ => .ite (.pure ()) <| .ite (keeps_killLine _) <| .ite back <|
    .ite (keeps_onHist _) <| .ite (keeps_onHist _) <| .ite (store _) (.pure ())

/-- Every copyout of the call succeeds. -/
def Label.Copies : Label → Prop
  | .read _ _ ok => ∀ i, ok i = true
  | _ => True

/-- Not one of the two letters that the history takes. -/
def Label.Ordinary : Label → Prop
  | .intr c => c ≠ 0x41 ∧ c ≠ 0x42
  | _ => True

/-- The line editor has done what the keys say, and readers got what they consumed, less the ends of file. -/
structure Faithful (s : St) : Prop where
  ok : ∃ p l, Ok s.io p l ∧ edit s.typed = (s.committed, l)
  delivered : s.delivered = s.consumed.filter (· ≠ ctrlD)
  copies : ∀ t c, s.calls t = some c → ∀ i, c.ok i = true

theorem Faithful.congr {s s' : St} (h : Faithful s) (hio : s'.io = s.io)
    (hc : ∀ t c, s'.calls t = some c → ∃ c', s.calls t = some c' ∧ c'.ok = c.ok) : Faithful s' := by
  obtain ⟨p, l, hok, he⟩ := h.ok
  refine ⟨⟨p, l, hio ▸ hok, ?_⟩, ?_, fun t c ht => ?_⟩
  · exact (congrArg (fun x => edit x.typed) hio).trans (he.trans (congrArg (fun x => (Io.committed x, l)) hio.symm))
  · have hd : s'.delivered = s.delivered := congrArg Io.delivered hio
    have hs : s'.consumed = s.consumed := congrArg Io.consumed hio
    rw [hd, hs, h.delivered]
  · obtain ⟨c', hc', hok'⟩ := hc t c ht
    exact hok' ▸ h.copies t c' hc'

theorem Faithful.intr {s s' : St} {c : UInt8} (h : Faithful s) (hA : c ≠ 0x41) (hB : c ≠ 0x42)
    (hio : s'.io = s.io.intr c) (hc : s'.calls = s.calls) : Faithful s' := by
  obtain ⟨p, l, hok, he⟩ := h.ok
  have hf := key_frame { s.io with typed := s.io.typed ++ [(c, (s.io.cons.e - s.io.cons.r).toNat)] } c
  have hok' := intr_ok hok hA hB
  rw [← hio] at hok'
  refine ⟨⟨_, _, hok', ?_⟩, ?_, hc ▸ h.copies⟩
  · have ht : s'.typed = s.typed ++ [(c, p.length + l.length)] := by
      rw [← hok.split.e_sub_r]
      exact (congrArg Io.typed hio).trans hf.2.1
    have hs : s'.consumed = s.consumed := (congrArg Io.consumed hio).trans hf.2.2.1
    have ho : s'.committed = s.committed ++ (press l c (p.length + l.length)).1 := by
      have h1 : s'.consumed ++ _ = s'.committed := hok'.order
      have h2 : s.consumed ++ p = s.committed := hok.order
      rw [← h1, hs, ← h2, List.append_assoc]
    rw [ht, edit_snoc, he, ho]
  · have hd : s'.delivered = s.delivered := (congrArg Io.delivered hio).trans hf.2.2.2
    have hs : s'.consumed = s.consumed := (congrArg Io.consumed hio).trans hf.2.2.1
    rw [hd, hs, h.delivered]

theorem Takes.faithful {s s' : St} {t : Nat} {c : ReadCall} (h : Faithful s) (hcall : s.calls t = some c)
    (ht : Takes s c s'.io) (hc : ∀ t c, s'.calls t = some c → ∃ c', s.calls t = some c' ∧ c'.ok = c.ok) : Faithful s' := by
  obtain ⟨p, l, hok, he⟩ := h.ok
  obtain ⟨p', -, hok'⟩ := ht.ok hok
  refine ⟨⟨p', l, hok', ?_⟩, ?_, fun u d hu => ?_⟩
  · have h1 : s'.typed = s.typed := ht.typed
    have h2 : s'.committed = s.committed := ht.committed
    rw [h1, h2, he]
  · have hs : s'.consumed = s.consumed ++ [s.front] := ht.consumed
    rw [hs, List.filter_append, ← h.delivered]
    rcases ht.delivered with ⟨hd, hD | hfail⟩ | ⟨hd, hD⟩
    · have hd : s'.delivered = s.delivered := hd
      simp [hd, hD]
    · rw [h.copies t c hcall] at hfail
      cases hfail
    · have hd : s'.delivered = s.delivered ++ [s.front] := hd
      simp [hd, hD]
  · obtain ⟨c', hc', hok'⟩ := hc u d hu
    exact hok' ▸ h.copies u c' hc'

/-- A process that moves stays in a call with the same copyouts, or leaves it. -/
theorem calls_goto {s s' : St} {t : Nat} {th : Thread} (hs : s'.thread = Function.update s.thread t th)
    (hth : ∀ c, th.call = some c → ∃ c', s.calls t = some c' ∧ c'.ok = c.ok) :
    ∀ u c, s'.calls u = some c → ∃ c', s.calls u = some c' ∧ c'.ok = c.ok := by
  intro u c hu
  rw [St.calls, hs, Function.update_apply] at hu
  split at hu
  · next he => exact he ▸ hth c hu
  · exact ⟨c, hu, rfl⟩

theorem consoleread_calls {s : St} {t : Nat} {c : ReadCall} (ht : s.thread t = .loop c) :
    ∀ u d, (s.consoleread t c).calls u = some d → ∃ d', s.calls u = some d' ∧ d'.ok = d.ok := by
  have hc : s.calls t = some c := by rw [St.calls, ht]; rfl
  have out : ∀ d, Thread.idle.call = some d → ∃ c', s.calls t = some c' ∧ c'.ok = d.ok := fun d hd => by cases hd
  have stay : ∀ d, (some c : Option ReadCall) = some d → ∃ c', s.calls t = some c' ∧ c'.ok = d.ok := fun d hd => by
    cases hd
    exact ⟨c, hc, rfl⟩
  unfold St.consoleread
  split
  · split
    · split
      · exact calls_goto rfl out
      · exact calls_goto rfl stay
    split
    · split <;> exact calls_goto rfl out
    split
    · exact calls_goto rfl out
    · dsimp only
      split
      · exact calls_goto rfl out
      · refine calls_goto rfl fun d hd => ?_
        cases hd
        exact ⟨c, hc, rfl⟩
  · exact calls_goto rfl out

theorem step_faithful {K : Mapped} (s : St) (lb : Label) (s' : St) (h : Faithful s) (hl : lb.Copies ∧ lb.Ordinary)
    (he : step K s lb = .ok s') : Faithful s' := by
  cases lb with
  | intr c =>
    dsimp only [step] at he
    split at he
    · exact h.intr hl.2.1 hl.2.2 (outcome_ensures (Q := fun s' => s'.io = s.io.intr c) (consoleintr_io K c s) he)
        (outcome_ensures (Q := fun s' => s'.calls = s.calls) (keeps_consoleintr K c s) he)
    · cases he
  | read t n ok =>
    dsimp only [step] at he
    split at he
    · cases he
      refine ⟨h.ok, h.delivered, fun u c hu => ?_⟩
      simp only [St.calls, St.goto, Function.update_apply] at hu
      split at hu
      · cases hu
        exact hl.1
      · exact h.copies u c hu
    · cases he
  | run t =>
    dsimp only [step, run] at he
    split at he
    · next c ht =>
      split at he
      · cases he
        refine h.congr rfl (calls_goto rfl fun d hd => ?_)
        cases hd
        exact ⟨c, by rw [St.calls, ht]; rfl, rfl⟩
      · cases he
    · next c ht =>
      cases he
      rcases (consoleread_cases s t c).1 with hio | htake
      · exact h.congr hio (consoleread_calls ht)
      · exact htake.faithful h (by rw [St.calls, ht]; rfl) (consoleread_calls ht)
    · cases he
    · cases he
  | kill t =>
    cases he
    refine h.congr rfl (calls_goto rfl fun d hd => ?_)
    rw [St.calls]
    cases hth : s.thread t <;> rw [hth] at hd <;> cases hd <;> exact ⟨d, rfl, rfl⟩
  | history n =>
    exact h.congr (outcome_ensures (Q := fun s' => s'.io = s.io) (onHist_io _ s) he) fun t c hc =>
      ⟨c, by rwa [← outcome_ensures (Q := fun s' => s'.calls = s.calls) (keeps_onHist _ s) he], rfl⟩

theorem init_faithful {s : St} (h : init s) : Faithful s := by
  refine ⟨⟨[], [], init_ok h, ?_⟩, ?_, ?_⟩ <;> obtain ⟨mem, -, rfl⟩ := h
  · rfl
  · rfl
  · intro t c hc
    cases hc

/-- What readers got is the start of what was typed, as edited, without the ends of file. -/
def Delivers (s : St) : Prop := s.delivered <+: (edit s.typed).1.filter (· ≠ ctrlD)

instance (s : St) : Decidable (Delivers s) := inferInstanceAs (Decidable (_ <+: _))

/-- Memory that ends with `historyBuf`, and the state at power on. -/
def tight : Mapped := ⟨0, HISTORY_SIZE, by decide, by decide⟩

def powerOn : St :=
  ⟨⟨fun _ => 0, 0, 0, 0⟩, ⟨fun _ => 0, 0, 0, 0, 0, [], []⟩, none, fun _ => .idle, fun _ => false, [], [], [], []⟩

theorem init_powerOn : init powerOn := ⟨fun _ => 0, fun _ _ _ => rfl, rfl⟩

/-- Process 1 reads a line that has arrived, of at most `n` bytes with the newline. -/
def readLine (n : Nat) : List Label := .read 1 100 (fun _ => true) :: .run 1 :: List.replicate n (.run 1)

end Xv6.Console
