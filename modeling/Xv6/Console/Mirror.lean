/-
The line kept twice. consoleintr keeps what is being typed in `cons.buf` from `w` to `e` and, by statements of its own,
in `historyBuf.current_cm` from 0 to `index`. The two copies agree, and each newline stores the line in the history,
as long as no backspace meets an empty line, no C('U') meets one that is not, and lines end by their newline while
there is a row left (`history_mirrors_line`). A backspace on the empty line, C('U') on "a", and C('D') after "a" each
break it (`mirror_breaks`).
-/
import Xv6.Console.Recall

namespace Xv6.Console

open Lib

/-! ## What agrees -/

/-- `current_cm` holds the line and `index` is its length. -/
structure Mirrors (h : Hist) (l : List UInt8) : Prop where
  index : h.index = l.length
  current : HoldsAt h.mem CURRENT_CM l
  row : 0 ≤ h.row

/-- The row holds the line, and `lengthsArr` its length. -/
structure RowHolds (h : Hist) (row : Int) (l : List UInt8) : Prop where
  line : HoldsAt h.mem (INPUT_BUF_SIZE * row) l
  length : word h.mem (LENGTHS_ARR + 4 * row) = UInt32.ofNat l.length

/-- The keys that treat both copies alike. A backspace finds something to erase; C('U') finds nothing; and a byte that
ends a line is its newline, with a row left for it. -/
def InStep (s : St) : Label → Prop
  | .intr c => (c = ctrlH ∨ c = delete → s.cons.e ≠ s.cons.w) ∧ (c = ctrlU → s.cons.e = s.cons.w) ∧
    (Stores s c → s.cons.Commits (stored c) → stored c = newline ∧ s.hist.row < MAX_HISTORY)
  | .read _ _ _ | .run _ | .kill _ | .history _ => True

instance (s : St) (lb : Label) : Decidable (InStep s lb) :=
  match lb with
  | .intr _ => inferInstanceAs (Decidable (_ ∧ _ ∧ _))
  | .read _ _ _ | .run _ | .kill _ | .history _ => .isTrue trivial

theorem Mirrors.congr {h h' : Hist} {l : List UInt8} (hm : Mirrors h l)
    (he : (h'.mem, h'.index, h'.row) = (h.mem, h.index, h.row)) : Mirrors h' l := by
  obtain ⟨hmem, hi, hr⟩ : h'.mem = h.mem ∧ h'.index = h.index ∧ h'.row = h.row := by simpa using he
  exact ⟨hi ▸ hm.index, hmem ▸ hm.current, hr ▸ hm.row⟩

theorem Mirrors.dropLast {h : Hist} {l : List UInt8} (hm : Mirrors h l) (hl : l ≠ []) :
    Mirrors { h with index := h.index - 1 } l.dropLast := by
  have hpos := List.length_pos_of_ne_nil hl
  refine ⟨?_, fun j hj => ?_, hm.row⟩
  · change h.index - 1 = _
    rw [hm.index, List.length_dropLast]
    omega
  · rw [List.getElem_dropLast]
    exact hm.current j _

/-! ## What is stored -/

section Stored

variable (K : Mapped) {h : Hist} {s : St} {p l : List UInt8} {c : UInt8}

theorem recordChar_mirrors (hm : Mirrors h l) (hlen : l.length < INPUT_BUF_SIZE) :
    (recordChar K c).Returns h fun _ h' => Mirrors h' (l ++ [c]) ∧ h'.row = h.row := by
  have hi := hm.index
  refine (recordChar_returns K ⟨by omega, by omega⟩).mono fun _ h' ⟨hmem, hidx, hr, _⟩ => ⟨⟨?_, ?_, hr ▸ hm.row⟩, hr⟩
  · rw [hidx, hi]
    simp
  · rw [hmem, hi]
    exact hm.current.snoc

theorem recordLine_mirrors (hm : Mirrors h (l ++ [newline])) (hl : newline ∉ l) (h16 : h.row < MAX_HISTORY)
    (hlen : l.length < INPUT_BUF_SIZE) :
    (recordLine K).Returns h fun _ h' => Mirrors h' [] ∧ RowHolds h' h.row l := by
  have hlast := hm.current l.length (by simp)
  rw [List.getElem_concat_length rfl] at hlast
  have hrow : Access.InBounds (.row h.row) := ⟨hm.row, h16⟩
  refine (recordLine_returns K hrow ⟨l.length, hlen, hlast⟩).mono fun _ h' ⟨n, h1, hf, hn, hr, he, _⟩ => ?_
  have hnl := hf.eq_length hm.current hl
  subst hnl he
  have hbuf := bufferArr_in (i := l.length) hrow hlen
  have hlens := lengthsArr_in hrow
  -- lastCommandIndex lies above the rows and their lengths
  have below : ∀ o, o < LAST_COMMAND_INDEX → (h1.setMem (setWord h1.mem LAST_COMMAND_INDEX
      (word h1.mem LAST_COMMAND_INDEX + 1))).mem o = h1.mem o := fun o ho => setWord_apply (.inl ho)
  refine ⟨⟨hr.index, fun j hj => absurd hj (by simp), ?_⟩, fun j hj => ?_, ?_⟩
  · change 0 ≤ h1.row
    rw [hr.row]
    exact Int.add_nonneg hm.row (by decide)
  · have hcur := hm.current j (by simp; omega)
    rw [List.getElem_append_left hj] at hcur
    rw [below _ (by rw [lastCommandIndex_eq, lengthsArr_eq] at *; omega), ← hcur]
    exact hr.line j hj
  · refine Eq.trans (word_congr fun a _ ha => below a (by omega)) ?_
    rw [hr.lengths _ hrow, if_pos rfl]

/-- The newline ends the line in both copies, and the history gets it. -/
theorem storeChar_ends (hm : Mirrors s.hist l) (hl : newline ∉ l) (hlen : l.length < INPUT_BUF_SIZE)
    (h16 : s.hist.row < MAX_HISTORY) :
    (storeChar K newline).Returns s fun _ s' => Mirrors s'.hist [] ∧ RowHolds s'.hist s.hist.row l := by
  refine onHist_bind rfl (recordChar_mirrors K hm hlen) fun _ s1 ⟨h1, hrow⟩ _ => .modify (.get ?_)
  refine .when (fun _ => ?_) fun hC => absurd (.inl rfl) hC
  rw [← hrow] at h16 ⊢
  exact onHist_bind rfl (recordLine_mirrors K h1 hl h16 hlen) fun _ s2 h2 _ => .modify (.modify (.update h2))

theorem storeChar_goes_on (hm : Mirrors s.hist l) (hlen : l.length < INPUT_BUF_SIZE) (hc : ¬ s.cons.Commits c) :
    (storeChar K c).Returns s fun _ s' => Mirrors s'.hist (l ++ [c]) := by
  refine onHist_bind rfl (recordChar_mirrors K hm hlen) fun _ s1 ⟨h1, _⟩ hc1 => .modify (.get ?_)
  refine .when (fun hC => ?_) fun _ => h1
  have hC : s1.cons.Commits c := hC
  exact absurd (hc1 ▸ hC) hc

/-- The two keys that print a row of the history only read. -/
theorem keeps_printLast : (printLast K).Keeps fun h => (h.mem, h.index, h.row) :=
  .bind (keeps_loadWord K _) fun _ => .bind (.modify fun _ => rfl) fun _ =>
    .bind (.bind (.modify fun _ => rfl) fun _ => keeps_loadWord K _) fun _ => keeps_printRow K _ _ _

theorem keeps_printNext : (printNext K).Keeps fun h => (h.mem, h.index, h.row) :=
  .bind (keeps_loadWord K _) fun _ => .bind (.modify fun _ => rfl) fun _ =>
    .bind (.bind (.modify fun _ => rfl) fun _ => keeps_loadWord K _) fun _ => keeps_printRow K _ _ _

/-- The ring is unread bytes `p` and the line `l`, and `current_cm` has the line too. -/
structure Twin (s : St) (p l : List UInt8) : Prop where
  ok : Ok s.io p l
  mirrors : Mirrors s.hist l

/-- A byte that is stored. -/
theorem storeChar_mirrors (ht : Twin s p l) (hlt : p.length + l.length < INPUT_BUF_SIZE)
    (hends : s.cons.Commits c → c = newline ∧ s.hist.row < MAX_HISTORY) :
    (storeChar K c).Returns s fun _ s' =>
      Mirrors s'.hist (if c = newline ∨ c = ctrlD ∨ p.length + l.length + 1 = INPUT_BUF_SIZE then [] else l ++ [c]) ∧
      (s.cons.Commits c → RowHolds s'.hist s.hist.row l) := by
  have hcom : s.cons.Commits c ↔ _ := Cons.Split.commits_iff ht.ok.split hlt
  by_cases hC : s.cons.Commits c
  · obtain ⟨rfl, h16⟩ := hends hC
    rw [if_pos (.inl rfl)]
    refine (storeChar_ends K ht.mirrors ht.ok.noNewline (by omega) h16).mono fun _ s' ⟨hm, hr⟩ => ⟨hm, fun _ => hr⟩
  · rw [if_neg (mt hcom.mpr hC)]
    refine (storeChar_goes_on K ht.mirrors (by omega) hC).mono fun _ s' hm => ⟨hm, fun h => absurd h hC⟩

/-- One key: both copies become the line that `press` leaves. -/
theorem consoleintr_mirrors (ht : Twin s p l) (hc : InStep s (.intr c)) (hA : c ≠ 0x41) (hB : c ≠ 0x42) :
    (consoleintr K c).Returns s fun _ s' => Mirrors s'.hist (press l c (p.length + l.length)).2 ∧
      (Stores s c → s.cons.Commits (stored c) → RowHolds s'.hist s.hist.row l) := by
  obtain ⟨hback, hkill, hends⟩ := hc
  have hm := ht.mirrors
  have hsplit : s.cons.Split p l := ht.ok.split
  have hfill := hsplit.e_sub_r
  unfold consoleintr press
  refine .get (.modify ?_)
  by_cases hP : c = ctrlP
  · rw [if_pos hP, if_pos (.inr hP)]
    exact .pure ⟨hm, fun hs => absurd hP hs.2.1⟩
  rw [if_neg hP]
  by_cases hU : c = ctrlU
  · -- there is nothing to take back
    have hempty := hkill hU
    rw [if_pos hU, hU, if_neg (by decide), if_pos rfl, hempty, UInt32.sub_self]
    rw [hsplit.e_eq_w.mp hempty] at hm
    exact .pure ⟨hm, fun hs => absurd rfl hs.2.2.1⟩
  rw [if_neg hU]
  by_cases hH : c = ctrlH ∨ c = delete
  · have hl : l ≠ [] := fun h => hback hH (hsplit.e_eq_w.mpr h)
    have h0 : ¬ (c = 0 ∨ c = ctrlP) := by rcases hH with rfl | rfl <;> decide
    have hno : ¬ Stores s c := fun hs => hH.elim hs.2.2.2.1 hs.2.2.2.2.1
    rw [if_pos hH, if_neg h0, if_neg hU, if_pos hH]
    have hdec : Code.Returns (modify fun h : Hist => { h with index := h.index - 1 }) s.hist
        fun _ h' => Mirrors h' l.dropLast := .update (hm.dropLast hl)
    refine onHist_bind rfl hdec fun _ s1 h1 _ => .get (.when (fun _ => .modify ?_) fun _ => ?_)
    · exact .update ⟨h1.congr rfl, fun hs => absurd hs hno⟩
    · exact ⟨h1, fun hs => absurd hs hno⟩
  rw [if_neg hH, if_neg hA, if_neg hB]
  by_cases h0 : c = 0
  · rw [if_neg fun h => h.1 h0, if_pos (.inl h0)]
    exact .pure ⟨hm, fun hs => absurd h0 hs.1⟩
  have h0P : ¬ (c = 0 ∨ c = ctrlP) := not_or.mpr ⟨h0, hP⟩
  rw [if_neg h0P, if_neg hU, if_neg hH]
  by_cases hroom : s.cons.e - s.cons.r < UInt32.ofNat INPUT_BUF_SIZE
  · have hlt : p.length + l.length < INPUT_BUF_SIZE := hfill ▸ UInt32.lt_iff_toNat_lt.mp hroom
    rw [not_or] at hH
    have hst : Stores s c := ⟨h0, hP, hU, hH.1, hH.2, hA, hB, hroom⟩
    rw [if_pos ⟨h0, hroom⟩, if_pos hlt]
    change Code.Returns (storeChar K (stored c)) _ _
    have ht' : Twin { s with typed := s.typed ++ [(c, (s.cons.e - s.cons.r).toNat)] } p l :=
      ⟨⟨ht.ok.split, ht.ok.noNewline, ht.ok.order⟩, hm⟩
    refine (storeChar_mirrors K ht' hlt (hends hst)).mono fun _ s' ⟨h1, h2⟩ => ⟨?_, fun _ => h2⟩
    dsimp only
    rw [apply_ite Prod.snd]
    exact h1
  · have hfull : ¬ p.length + l.length < INPUT_BUF_SIZE := fun h =>
      hroom (UInt32.lt_iff_toNat_lt.mpr (hfill.trans_lt h))
    rw [if_neg fun h => hroom h.2, if_neg hfull]
    exact .pure ⟨hm, fun hs => absurd hs.2.2.2.2.2.2.2 hroom⟩

end Stored

/-! ## Every run -/

section Steps

variable (K : Mapped) {s s' : St} {p l : List UInt8} {c : UInt8}

/-- What a commit leaves: the line and its newline go to the readers, the line alone to the history. -/
structure Stored (s s' : St) : Prop where
  committed : s'.committed = s.committed ++ s.cons.line ++ [newline]
  row : RowHolds s'.hist s.hist.row s.cons.line

theorem press_newline {fill : Nat} (hs : Stores s c) (hn : stored c = newline) (hlt : fill < INPUT_BUF_SIZE) :
    press l c fill = (l ++ [newline], []) := by
  obtain ⟨h0, hP, hU, hH, hdel, -⟩ := hs
  unfold press
  rw [if_neg (not_or.mpr ⟨h0, hP⟩), if_neg hU, if_neg (not_or.mpr ⟨hH, hdel⟩), if_pos hlt]
  have hn : (if c = carriageReturn then newline else c) = newline := hn
  simp only [hn, true_or, if_true]

theorem intr_twin (ht : Twin s p l) (hc : InStep s (.intr c)) (he : step K s (.intr c) = .ok s') :
    (∃ p' l', Twin s' p' l') ∧ (Stores s c → s.cons.Commits (stored c) → Stored s s') := by
  dsimp only [step] at he
  split at he
  case h_2 => cases he
  have hio := outcome_ensures (Q := fun s' => s'.io = s.io.intr c) (consoleintr_io K c s) he
  by_cases hletter : c = 0x41 ∨ c = 0x42
  · -- the letter goes into neither copy
    have hh : (s'.hist.mem, s'.hist.index, s'.hist.row) = (s.hist.mem, s.hist.index, s.hist.row) := by
      refine outcome_ensures (Q := fun s' => (s'.hist.mem, s'.hist.index, s'.hist.row) = _) ?_ he
      rcases hletter with rfl | rfl
      · exact .get (.modify (onHist_ensures (s := { s with typed := s.typed ++ [(0x41, (s.cons.e - s.cons.r).toNat)] })
          (keeps_printLast K s.hist)))
      · exact .get (.modify (onHist_ensures (s := { s with typed := s.typed ++ [(0x42, (s.cons.e - s.cons.r).toNat)] })
          (keeps_printNext K s.hist)))
    refine ⟨⟨p, l, ?_, ht.mirrors.congr hh⟩, fun hs => (hletter.elim hs.2.2.2.2.2.1 hs.2.2.2.2.2.2.1).elim⟩
    rw [hio, intr_letter _ hletter]
    exact ⟨ht.ok.split, ht.ok.noNewline, ht.ok.order⟩
  rw [not_or] at hletter
  have hok := intr_ok ht.ok hletter.1 hletter.2
  obtain ⟨s1, h1, hm, hrow⟩ := outcome_returns (consoleintr_mirrors K ht hc hletter.1 hletter.2)
  rw [he] at h1
  cases h1
  refine ⟨⟨_, _, hio ▸ hok, hm⟩, fun hs hC => ⟨?_, ?_⟩⟩
  · have hfill : (s.cons.e - s.cons.r).toNat = p.length + l.length := ht.ok.split.e_sub_r
    have hlt : p.length + l.length < INPUT_BUF_SIZE := hfill ▸ UInt32.lt_iff_toNat_lt.mp hs.2.2.2.2.2.2.2
    have hline : s.cons.line = l := ht.ok.split.line_eq
    have hord := hok.order
    rw [← hio, press_newline hs (hc.2.2 hs hC).1 hlt] at hord
    have hcons : s'.consumed = s.consumed := (congrArg Io.consumed hio).trans (key_frame _ c).2.2.1
    have hcom : s.consumed ++ p = s.committed := ht.ok.order
    change s'.consumed ++ (p ++ (l ++ [newline])) = s'.committed at hord
    rw [hline, ← hord, hcons, ← hcom]
    simp
  · have hline : s.cons.line = l := ht.ok.split.line_eq
    rw [hline]
    exact hrow hs hC

theorem step_twin {lb : Label} (ht : Twin s p l) (hc : InStep s lb) (he : step K s lb = .ok s') :
    ∃ p' l', Twin s' p' l' := by
  have hok := ht.ok
  cases lb with
  | intr c => exact (intr_twin K ht hc he).1
  | read t n ok =>
    dsimp only [step] at he
    split at he
    · cases he
      exact ⟨p, l, hok, ht.mirrors⟩
    · cases he
  | run t =>
    obtain ⟨⟨p', hp⟩, -⟩ := run_ok hok he
    refine ⟨p', l, hp, ?_⟩
    dsimp only [step, run] at he
    split at he
    · split at he
      · cases he
        exact ht.mirrors
      · cases he
    · cases he
      rw [consoleread_hist]
      exact ht.mirrors
    · cases he
    · cases he
  | kill t =>
    cases he
    exact ⟨p, l, hok, ht.mirrors⟩
  | history n =>
    have hio := outcome_ensures (Q := fun s' => s'.io = s.io) (onHist_io _ s) he
    refine ⟨p, l, hio ▸ hok, ht.mirrors.congr ?_⟩
    exact outcome_ensures (Q := fun s' => (s'.hist.mem, s'.hist.index, s'.hist.row) = _)
      (onHist_ensures (keeps_sysHistory K n s.hist)) he

theorem init_twin (h : init s) : Twin s [] [] := by
  refine ⟨init_ok h, ?_⟩
  obtain ⟨mem, -, rfl⟩ := h
  exact ⟨rfl, fun j hj => absurd hj (Nat.not_lt_zero j), le_rfl⟩

end Steps

/-- **The history mirrors the line.** In every run whose keys treat both copies alike, after each of them `index` is
the number of bytes typed and not committed and `current_cm` begins with these bytes; and each such key that ends a
line stores it in the history, without its newline. -/
theorem history_mirrors_line {K : Mapped} {s₀ s : St} {as : List Label} (h0 : init s₀)
    (hc : Along (step K) InStep s₀ as) (hr : runs (step K) s₀ as = .ok s) :
    s.hist.index = (s.cons.e - s.cons.w).toNat ∧ HoldsAt s.hist.mem CURRENT_CM s.cons.line ∧
    ∀ c s', InStep s (.intr c) → step K s (.intr c) = .ok s' → Stores s c → s.cons.Commits (stored c) → Stored s s' := by
  obtain ⟨p, l, ht⟩ := hc.invariant (I := fun s => ∃ p l, Twin s p l)
    (fun s lb s' ⟨p, l, ht⟩ hc he => step_twin K ht hc he) ⟨[], [], init_twin h0⟩ hr
  have hsplit : s.cons.Split p l := ht.ok.split
  refine ⟨?_, ?_, fun c s' hin he => (intr_twin K ht hin he).2⟩
  · rw [ht.mirrors.index, hsplit.e_sub_w]
  · rw [hsplit.line_eq]
    exact ht.mirrors.current

/-- "ls", an "x" taken back, and the newline. -/
theorem history_mirrors_line_ls : ∃ s s', runs (step tight) powerOn [.intr 108, .intr 115, .intr 120, .intr 8] = .ok s ∧
    s.hist.index = 2 ∧ s.cons.line = [108, 115] ∧ HoldsAt s.hist.mem CURRENT_CM [108, 115] ∧
    step tight s (.intr 10) = .ok s' ∧ RowHolds s'.hist 0 [108, 115] := by
  have he : (runs (step tight) powerOn [.intr 108, .intr 115, .intr 120, .intr 8]).goesOn
      (fun s => (s.cons.e - s.cons.w).toNat = 2 ∧ s.cons.line = [108, 115] ∧ InStep s (.intr 10) ∧ Stores s 10 ∧
        s.cons.Commits (stored 10) ∧ s.hist.row = 0 ∧ (step tight s (.intr 10)).goesOn (fun _ => True) = true) = true := by
    decide +kernel
  obtain ⟨s, hr, hs⟩ := Outcome.exists_of_goesOn he
  obtain ⟨h2, hline, hin, hst, hC, hrow, hgo⟩ := of_decide_eq_true hs
  obtain ⟨s', hs', -⟩ := Outcome.exists_of_goesOn hgo
  obtain ⟨hidx, hcur, hstored⟩ := history_mirrors_line init_powerOn (by decide +kernel) hr
  have hd := (hstored 10 s' hin hs' hst hC).row
  rw [hline, hrow] at hd
  exact ⟨s, s', hr, by rw [hidx, h2]; rfl, hline, hline ▸ hcur, hs', hd⟩

/-- Three ways out of step: a backspace on the empty line leaves `index` at -1; C('U') takes back the "a" and leaves
`index` at 1; and C('D') ends the line "a" after a line "ab", and two bytes are stored. -/
theorem mirror_breaks : init powerOn ∧
    (∃ s, runs (step tight) powerOn [.intr 8] = .ok s ∧ s.hist.index = -1 ∧ s.cons.e - s.cons.w = 0) ∧
    (∃ s, runs (step tight) powerOn [.intr 97, .intr 21] = .ok s ∧ s.hist.index = 1 ∧ s.cons.e - s.cons.w = 0) ∧
    (∃ s s', runs (step tight) powerOn [.intr 97, .intr 98, .intr 10, .intr 97] = .ok s ∧ s.cons.line = [97] ∧
      step tight s (.intr ctrlD) = .ok s' ∧ word s'.hist.mem (LENGTHS_ARR + 4 * s.hist.row) = 2) := by
  have h1 : (runs (step tight) powerOn [.intr 8]).goesOn
      (fun s => s.hist.index = -1 ∧ s.cons.e - s.cons.w = 0) = true := by decide +kernel
  have h2 : (runs (step tight) powerOn [.intr 97, .intr 21]).goesOn
      (fun s => s.hist.index = 1 ∧ s.cons.e - s.cons.w = 0) = true := by decide +kernel
  have h3 : (runs (step tight) powerOn [.intr 97, .intr 98, .intr 10, .intr 97]).goesOn
      (fun s => s.cons.line = [97] ∧ (step tight s (.intr ctrlD)).goesOn
        (fun s' => word s'.hist.mem (LENGTHS_ARR + 4 * s.hist.row) = 2) = true) = true := by decide +kernel
  obtain ⟨s1, hr1, hs1⟩ := Outcome.exists_of_goesOn h1
  obtain ⟨s2, hr2, hs2⟩ := Outcome.exists_of_goesOn h2
  obtain ⟨s3, hr3, hs3⟩ := Outcome.exists_of_goesOn h3
  obtain ⟨hline, hgo⟩ := of_decide_eq_true hs3
  obtain ⟨s4, hr4, hs4⟩ := Outcome.exists_of_goesOn hgo
  exact ⟨init_powerOn, ⟨s1, hr1, of_decide_eq_true hs1⟩, ⟨s2, hr2, of_decide_eq_true hs2⟩,
    s3, s4, hr3, hline, hr4, of_decide_eq_true hs4⟩

end Xv6.Console
