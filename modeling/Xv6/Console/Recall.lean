/-
Recalling a line. The history stores a line at `row` and finds it again relative to
`lastCommandIndex`. For the first fifteen lines the two agree and sys_history(n) prints
the line n back (`history_recall`). At the sixteenth `lastCommandIndex` starts over at 0
while `row` goes on (`recall_wraps`).
-/
import Xv6.Console.History

namespace Xv6.Console

open Lib

/-! ## What is typed -/

/-- The lines ended so far and the one being typed, with one more byte. -/
def enter (x : List (List UInt8) × List UInt8) (c : UInt8) : List (List UInt8) × List UInt8 :=
  if c = 0 ∨ c = ctrlP then x
  else if stored c = newline then (x.1 ++ [x.2], [])
  else (x.1, x.2 ++ [c])

def lines (bytes : List UInt8) : List (List UInt8) × List UInt8 := bytes.foldl enter ([], [])

def St.lines (s : St) : List (List UInt8) × List UInt8 := Console.lines (s.typed.map Prod.fst)

/-- No key edits the line, and no line ends but by its newline: a byte that is stored leaves room in the ring for
another one, or is the newline. -/
def Types (s : St) : Label → Prop
  | .intr c => c ≠ ctrlU ∧ c ≠ ctrlH ∧ c ≠ delete ∧ c ≠ ctrlD ∧
    (c = 0 ∨ c = ctrlP ∨ (s.cons.e - s.cons.r).toNat + 1 < INPUT_BUF_SIZE ∨
      stored c = newline ∧ (s.cons.e - s.cons.r).toNat < INPUT_BUF_SIZE)
  | .read _ _ _ | .run _ | .kill _ | .history _ => True

/-- What sys_history puts out, unless it traps. -/
def printed (K : Mapped) (h : Hist) (n : Int32) : Option (List UInt8) :=
  match sysHistory K n h with
  | .ok (_, h') => some (h'.uart.drop h.uart.length)
  | .error _ => none

/-- What sys_history(n) prints starts with the line `n` back from the last one. -/
def Recalls (K : Mapped) (s : St) (n : Nat) : Prop :=
  ∃ line out, s.lines.1.reverse[n]? = some line ∧ printed K s.hist (Int32.ofNat n) = some out ∧ line <+: out

/-! ## What the history holds -/

def HoldsAt (m : Int → UInt8) (o : Int) (bs : List UInt8) : Prop := ∀ j (h : j < bs.length), m (o + j) = bs[j]

theorem HoldsAt.congr {m m' : Int → UInt8} {o : Int} {bs : List UInt8} (h : HoldsAt m o bs)
    (he : ∀ j : Nat, j < bs.length → m' (o + j) = m (o + j)) : HoldsAt m' o bs :=
  fun j hj => (he j hj).trans (h j hj)

theorem HoldsAt.snoc {m : Int → UInt8} {o : Int} {bs : List UInt8} {c : UInt8} (h : HoldsAt m o bs) :
    HoldsAt (Function.update m (o + bs.length) c) o (bs ++ [c]) := by
  intro j hj
  rw [List.length_append, List.length_singleton] at hj
  by_cases he : j = bs.length
  · subst he
    simp
  · rw [Function.update_of_ne (by omega), h j (by omega), List.getElem_append_left]

/-- Row `i` holds line `i`, `current_cm` the line being typed, and both counters count the lines. -/
structure Kept (h : Hist) (x : List (List UInt8) × List UInt8) : Prop where
  index : h.index = x.2.length
  current : HoldsAt h.mem CURRENT_CM x.2
  row : h.row = x.1.length
  last : word h.mem LAST_COMMAND_INDEX = UInt32.ofNat x.1.length
  rows : ∀ i (hi : i < x.1.length), HoldsAt h.mem (INPUT_BUF_SIZE * i) x.1[i] ∧ x.1[i].length < INPUT_BUF_SIZE

theorem Kept.congr {h h' : Hist} {x : List (List UInt8) × List UInt8} (hk : Kept h x)
    (he : (h'.mem, h'.index, h'.row) = (h.mem, h.index, h.row)) : Kept h' x := by
  obtain ⟨hm, hi, hr⟩ : h'.mem = h.mem ∧ h'.index = h.index ∧ h'.row = h.row := by simpa using he
  exact ⟨hi ▸ hk.index, hm ▸ hk.current, hr ▸ hk.row, hm ▸ hk.last, hm ▸ hk.rows⟩

section Kept

variable (K : Mapped) {h : Hist} {ls : List (List UInt8)} {l : List UInt8} {c : UInt8}

theorem recordChar_kept (hk : Kept h (ls, l)) (h16 : ls.length < MAX_HISTORY) (hlen : l.length < INPUT_BUF_SIZE) :
    (recordChar K c).Returns h fun _ h' => Kept h' (ls, l ++ [c]) := by
  have hi : h.index = l.length := hk.index
  refine (recordChar_returns K ⟨by omega, by omega⟩).mono fun _ h' ⟨hm, hidx, hr, _⟩ => ?_
  -- nothing below current_cm changes
  have below : ∀ o, o < CURRENT_CM → h'.mem o = h.mem o := fun o ho => by
    rw [hm, Function.update_of_ne (by omega)]
  refine ⟨?_, ?_, hr ▸ hk.row, ?_, fun i hlt => ?_⟩
  · rw [hidx, hi]
    simp
  · rw [hm, hi]
    exact HoldsAt.snoc hk.current
  · rw [← hk.last]
    exact word_congr fun a _ ha => below a (by have := lastCommandIndex_le; omega)
  · obtain ⟨hrow, hl⟩ := hk.rows i hlt
    refine ⟨hrow.congr fun j hj => below _ ?_, hl⟩
    have hlt : i < ls.length := hlt
    have h1 : INPUT_BUF_SIZE = 128 := rfl
    have h2 : MAX_HISTORY = 16 := rfl
    rw [currentCm_eq, bufsize_cast]
    omega

/-- The newline found is the one just stored: there is none in the line. -/
theorem FirstNewline.eq_length {m : Int → UInt8} {n : Nat} (hf : FirstNewline m 0 n)
    (hh : HoldsAt m CURRENT_CM (l ++ [newline])) (hl : newline ∉ l) : n = l.length := by
  obtain ⟨-, hn, hbefore⟩ := hf
  rcases Nat.lt_trichotomy n l.length with hlt | heq | hgt
  · have hj := hh n (by simp; omega)
    rw [hn, List.getElem_append_left hlt] at hj
    exact absurd (hj ▸ List.getElem_mem hlt) hl
  · exact heq
  · have hj := hh l.length (by simp)
    rw [List.getElem_concat_length] at hj
    · exact absurd hj (hbefore _ (by omega) hgt)
    · rfl

theorem recordLine_kept (hk : Kept h (ls, l ++ [newline])) (hl : newline ∉ l) (h16 : ls.length + 1 < MAX_HISTORY)
    (hlen : l.length < INPUT_BUF_SIZE) : (recordLine K).Returns h fun _ h' => Kept h' (ls ++ [l], []) := by
  have hrow : h.row = ls.length := hk.row
  have hm : MAX_HISTORY = 16 := rfl
  have hb : INPUT_BUF_SIZE = 128 := rfl
  have hlast := hk.current l.length (by simp)
  rw [List.getElem_concat_length rfl] at hlast
  refine (recordLine_returns K ⟨by omega, by omega⟩ ⟨l.length, hlen, hlast⟩).mono fun _ h' ⟨n, h1, hf, hn, hr, he, _⟩ => ?_
  have hnl := hf.eq_length hk.current hl
  subst hnl he
  -- the rows lie below lastCommandIndex
  have hrows : ∀ o, o < LENGTHS_ARR → (h1.setMem (setWord h1.mem LAST_COMMAND_INDEX
      (word h1.mem LAST_COMMAND_INDEX + 1))).mem o = h1.mem o := fun o ho =>
    setWord_apply (.inl (by rw [lengthsArr_eq] at ho; rw [lastCommandIndex_eq]; omega))
  have hcount : word h1.mem LAST_COMMAND_INDEX = UInt32.ofNat ls.length := by
    have hw : word h.mem LAST_COMMAND_INDEX = UInt32.ofNat ls.length := hk.last
    have hne : UInt32.ofNat ls.length ≠ 15 := fun he => by
      have := congrArg UInt32.toNat he
      rw [UInt32.toNat_ofNat', Nat.mod_eq_of_lt (by omega)] at this
      have h15 : (15 : UInt32).toNat = 15 := rfl
      omega
    rw [hr.last]
    change (if word h.mem _ = 15 then _ else word h.mem _) = _
    rw [hw, if_neg hne]
  refine ⟨hr.index, fun j hj => absurd hj (by simp), ?_, ?_, fun i hi => ?_⟩
  · change h1.row = _
    rw [hr.row]
    change h.row + 1 = _
    rw [hrow]
    simp
  · rw [Hist.setMem, word_setWord, hcount]
    simp [UInt32.ofNat_add]
  · rw [List.length_append, List.length_singleton] at hi
    by_cases hil : i = ls.length
    · subst hil
      rw [List.getElem_concat_length rfl]
      refine ⟨fun j hj => ?_, hlen⟩
      have hnew := hr.line j hj
      have hcur := hk.current j (by simp; omega)
      rw [List.getElem_append_left hj] at hcur
      rw [hrows _ (by rw [lengthsArr_eq, bufsize_cast]; omega), ← hcur, ← hnew]
      change _ = h1.mem (INPUT_BUF_SIZE * h.row + j)
      rw [hrow]
    · have hi' : i < ls.length := by omega
      rw [List.getElem_append_left hi']
      obtain ⟨hold, hlt⟩ := hk.rows i hi'
      have hlt : ls[i].length < INPUT_BUF_SIZE := hlt
      refine ⟨hold.congr fun j hj => ?_, hlt⟩
      have hj : j < ls[i].length := hj
      rw [hrows _ (by rw [lengthsArr_eq, bufsize_cast]; omega),
        hr.others _ (by rw [lengthsArr_eq, bufsize_cast]; omega)]
      left
      change _ < INPUT_BUF_SIZE * h.row
      rw [hrow, bufsize_cast]
      omega

end Kept

/-! ## What one step does -/

section Steps

variable (K : Mapped) {s : St} {ls : List (List UInt8)} {l : List UInt8} {c : UInt8}

/-- A byte within a line. -/
theorem storeChar_byte (hk : Kept s.hist (ls, l)) (h16 : ls.length < MAX_HISTORY) (hlen : l.length < INPUT_BUF_SIZE)
    (hc : ¬ s.cons.Commits c) : (storeChar K c).Returns s fun _ s' => Kept s'.hist (ls, l ++ [c]) := by
  refine onHist_bind rfl (recordChar_kept K hk h16 hlen) fun _ s1 h1 hc1 => .modify (.get ?_)
  refine .when (fun hC => ?_) fun _ => h1
  have hC : s1.cons.Commits c := hC
  exact absurd (hc1 ▸ hC) hc

/-- The newline. -/
theorem storeChar_newline (hk : Kept s.hist (ls, l)) (hl : newline ∉ l) (h16 : ls.length + 1 < MAX_HISTORY)
    (hlen : l.length < INPUT_BUF_SIZE) :
    (storeChar K newline).Returns s fun _ s' => Kept s'.hist (ls ++ [l], []) := by
  refine onHist_bind rfl (recordChar_kept K hk (by omega) hlen) fun _ s1 h1 _ => .modify (.get ?_)
  refine .when (fun _ => ?_) fun hC => absurd (.inl rfl) hC
  exact onHist_bind rfl (recordLine_kept K h1 hl h16 hlen) fun _ s2 h2 _ => .modify (.modify (.update h2))

theorem consoleintr_kept {x : List (List UInt8) × List UInt8} {p : List UInt8} (hk : Kept s.hist x)
    (hok : Ok s.io p x.2) (hc : Types s (.intr c)) (hA : c ≠ 0x41) (hB : c ≠ 0x42)
    (h16 : (enter x c).1.length < MAX_HISTORY) :
    (consoleintr K c).Returns s fun _ s' => Kept s'.hist (enter x c) := by
  obtain ⟨ls, l⟩ := x
  obtain ⟨hU, hH, hdel, hD, hroom⟩ := hc
  have hfill : (s.cons.e - s.cons.r).toNat = p.length + l.length := hok.split.e_sub_r
  unfold consoleintr
  refine .get (.modify ?_)
  by_cases h0 : c = 0 ∨ c = ctrlP
  · have he : enter (ls, l) c = (ls, l) := if_pos h0
    rw [he]
    by_cases hP : c = ctrlP
    · rw [if_pos hP]
      exact .pure hk
    · rw [if_neg hP, if_neg hU, if_neg (by simp [hH, hdel]), if_neg hA, if_neg hB,
        if_neg fun h => h.1 (h0.resolve_right hP)]
      exact .pure hk
  rw [not_or] at h0
  have hfits : (s.cons.e - s.cons.r).toNat < INPUT_BUF_SIZE := by
    rcases hroom with h | h | h | h
    · exact absurd h h0.1
    · exact absurd h h0.2
    · omega
    · exact h.2
  rw [if_neg h0.2, if_neg hU, if_neg (by simp [hH, hdel]), if_neg hA, if_neg hB,
    if_pos ⟨h0.1, UInt32.lt_iff_toNat_lt.mpr hfits⟩]
  by_cases hn : stored c = newline
  · have he : enter (ls, l) c = (ls ++ [l], []) := by rw [enter, if_neg (by simp [h0]), if_pos hn]
    rw [he] at h16 ⊢
    rw [List.length_append, List.length_singleton] at h16
    change Code.Returns (storeChar K (stored c)) _ _
    rw [hn]
    exact storeChar_newline K hk hok.noNewline h16 (by omega)
  · have hcr : c ≠ carriageReturn := fun h => hn (by rw [stored, if_pos h])
    have hst : stored c = c := if_neg hcr
    have he : enter (ls, l) c = (ls, l ++ [c]) := by rw [enter, if_neg (by simp [h0]), if_neg hn]
    rw [he] at h16 ⊢
    rw [if_neg hcr]
    refine storeChar_byte K hk h16 (by omega) ?_
    -- there is room for another byte after this one
    have hroom : (s.cons.e - s.cons.r).toNat + 1 < INPUT_BUF_SIZE := by
      rcases hroom with h | h | h | h
      · exact absurd h h0.1
      · exact absurd h h0.2
      · exact h
      · exact absurd h.1 hn
    have hpush : (s.cons.push c).Split p (l ++ [c]) := hok.split.push (by change _ + l.length < _; omega)
    rintro (h | h | h)
    · exact hn (hst.trans h)
    · exact hD h
    · have hsub := hpush.e_sub_r
      have hb : (UInt32.ofNat INPUT_BUF_SIZE).toNat = INPUT_BUF_SIZE := rfl
      change ((s.cons.push c).e - s.cons.r).toNat = _ at hsub
      rw [h, hb, List.length_append, List.length_singleton] at hsub
      omega

/-- Such a key leaves the ring with the line that `enter` leaves. -/
theorem press_enter {x : List (List UInt8) × List UInt8} {fill : Nat} (hU : c ≠ ctrlU) (hH : c ≠ ctrlH)
    (hdel : c ≠ delete) (hD : c ≠ ctrlD) (hroom : c = 0 ∨ c = ctrlP ∨ fill + 1 < INPUT_BUF_SIZE ∨
      stored c = newline ∧ fill < INPUT_BUF_SIZE) : (press x.2 c fill).2 = (enter x c).2 := by
  unfold press enter
  by_cases h0 : c = 0 ∨ c = ctrlP
  · rw [if_pos h0, if_pos h0]
  rw [if_neg h0, if_neg h0]
  rw [not_or] at h0
  rw [if_neg hU, if_neg (by simp [hH, hdel])]
  have hfits : fill < INPUT_BUF_SIZE := by
    rcases hroom with h | h | h | h
    · exact absurd h h0.1
    · exact absurd h h0.2
    · omega
    · exact h.2
  rw [if_pos hfits]
  change (if stored c = newline ∨ stored c = ctrlD ∨ fill + 1 = INPUT_BUF_SIZE then (x.2 ++ [stored c], []) else
    ([], x.2 ++ [stored c])).2 = _
  by_cases hn : stored c = newline
  · rw [if_pos (.inl hn), if_pos hn]
  · have hst : stored c = c := if_neg fun h => hn (by rw [stored, if_pos h])
    rw [hst] at hn ⊢
    have hroom : fill + 1 < INPUT_BUF_SIZE := by
      rcases hroom with h | h | h | h
      · exact absurd h h0.1
      · exact absurd h h0.2
      · exact h
      · exact absurd (hst ▸ h.1) hn
    rw [if_neg (by simp [hn, hD]; omega), if_neg hn]

/-- Reading leaves memory and both cursors as they are. -/
theorem keeps_load (o : Int) : (load K o).Keeps fun h => (h.mem, h.index, h.row) :=
  .get fun _ => .ite (.pure _) (.panic _)

theorem keeps_loadWord (o : Int) : (loadWord K o).Keeps fun h => (h.mem, h.index, h.row) :=
  .bind (keeps_load K _) fun _ => .bind (keeps_load K _) fun _ => .bind (keeps_load K _) fun _ =>
    .bind (keeps_load K _) fun _ => .pure _

theorem keeps_printRow (row : Int) (n i : Nat) : (printRow K row n i).Keeps fun h => (h.mem, h.index, h.row) := by
  induction n generalizing i with
  | zero => exact .pure ()
  | succ n ih =>
    exact .bind (.bind (.modify fun _ => rfl) fun _ => keeps_load K _) fun _ => .bind (.modify fun _ => rfl) fun _ =>
      ih (i + 1)

/-- sys_history only prints. -/
theorem keeps_sysHistory (n : Int32) : (sysHistory K n).Keeps fun h => (h.mem, h.index, h.row) :=
  .bind (keeps_loadWord K _) fun _ => .bind (keeps_printRow K _ _ _) fun _ => .modify fun _ => rfl

/-- The line being typed is the one in the ring, and the history holds the lines while there are fewer than sixteen. -/
structure Recalling (s : St) : Prop where
  ok : ∃ p, Ok s.io p s.lines.2
  kept : s.lines.1.length < MAX_HISTORY → Kept s.hist s.lines

theorem Recalling.congr {s' : St} (h : Recalling s) (ht : s'.typed = s.typed) (hok : ∃ p, Ok s'.io p s.lines.2)
    (hh : (s'.hist.mem, s'.hist.index, s'.hist.row) = (s.hist.mem, s.hist.index, s.hist.row)) : Recalling s' := by
  have hl : s'.lines = s.lines := by rw [St.lines, St.lines, ht]
  exact ⟨hl ▸ hok, hl ▸ fun h16 => (h.kept h16).congr hh⟩

theorem length_enter (x : List (List UInt8) × List UInt8) : x.1.length ≤ (enter x c).1.length := by
  unfold enter
  split
  · exact le_rfl
  split
  · simp
  · exact le_rfl

theorem intr_recalling {s' : St} (h : Recalling s) (hc : Types s (.intr c)) (hA : c ≠ 0x41) (hB : c ≠ 0x42)
    (he : outcome (consoleintr K c) s = .ok s') : Recalling s' := by
  obtain ⟨p, hok⟩ := h.ok
  have hio := outcome_ensures (Q := fun s' => s'.io = s.io.intr c) (consoleintr_io K c s) he
  have hf := key_frame { s.io with typed := s.io.typed ++ [(c, (s.io.cons.e - s.io.cons.r).toNat)] } c
  have ht : s'.typed = s.typed ++ [(c, (s.cons.e - s.cons.r).toNat)] := (congrArg Io.typed hio).trans hf.2.1
  have hl : s'.lines = enter s.lines c := by
    rw [St.lines, ht, List.map_append, lines, List.foldl_append]
    rfl
  refine ⟨?_, ?_⟩ <;> rw [hl]
  · have hok' := intr_ok hok hA hB
    obtain ⟨hU, hH, hdel, hD, hroom⟩ := hc
    have hfill : (s.cons.e - s.cons.r).toNat = p.length + s.lines.2.length := hok.split.e_sub_r
    rw [← hio, press_enter hU hH hdel hD (hfill ▸ hroom)] at hok'
    exact ⟨_, hok'⟩
  · intro h16
    have hk := h.kept (lt_of_le_of_lt (length_enter _) h16)
    obtain ⟨s1, h1, hk1⟩ := outcome_returns (consoleintr_kept K hk hok hc hA hB h16)
    rw [he] at h1
    cases h1
    exact hk1

theorem step_recalling {lb : Label} {s' : St} (h : Recalling s) (hc : Types s lb ∧ lb.Ordinary)
    (he : step K s lb = .ok s') : Recalling s' := by
  obtain ⟨p, hok⟩ := h.ok
  cases lb with
  | intr c =>
    dsimp only [step] at he
    split at he
    · exact intr_recalling K h hc.1 hc.2.1 hc.2.2 he
    · cases he
  | read t n ok =>
    dsimp only [step] at he
    split at he
    · cases he
      exact h.congr rfl ⟨p, hok⟩ rfl
    · cases he
  | run t =>
    obtain ⟨hp, -⟩ := run_ok hok he
    dsimp only [step, run] at he
    split at he
    · split at he
      · cases he
        exact h.congr rfl hp rfl
      · cases he
    · next c _ =>
      cases he
      refine h.congr ?_ hp (by rw [consoleread_hist])
      rcases (consoleread_cases s t c).1 with hio | htake
      · exact congrArg Io.typed hio
      · exact htake.typed
    · cases he
    · cases he
  | kill t =>
    cases he
    exact h.congr rfl ⟨p, hok⟩ rfl
  | history n =>
    have hio := outcome_ensures (Q := fun s' => s'.io = s.io) (onHist_io _ s) he
    refine h.congr (congrArg Io.typed hio) ⟨p, hio ▸ hok⟩ ?_
    exact outcome_ensures (Q := fun s' => (s'.hist.mem, s'.hist.index, s'.hist.row) = _)
      (onHist_ensures (keeps_sysHistory K n s.hist)) he

theorem init_recalling (h : init s) : Recalling s := by
  refine ⟨⟨[], ?_⟩, fun _ => ?_⟩
  · have hl : s.lines = ([], []) := by
      obtain ⟨mem, -, rfl⟩ := h
      rfl
    rw [hl]
    exact init_ok h
  · obtain ⟨mem, hz, rfl⟩ := h
    refine ⟨rfl, fun j hj => absurd hj (Nat.not_lt_zero j), rfl, ?_, fun i hi => absurd hi (Nat.not_lt_zero i)⟩
    refine word_eq_zero fun a ha ha' => hz a ?_ ?_
    · rw [lastCommandIndex_eq] at ha
      omega
    · have := lastCommandIndex_le
      have := currentCm_le
      omega

end Steps

/-! ## Every run -/

/-- sys_history on a history that holds fewer than sixteen lines. -/
theorem Kept.printed {K : Mapped} {h : Hist} {x : List (List UInt8) × List UInt8} (hk : Kept h x)
    (h16 : x.1.length < MAX_HISTORY) {n : Nat} (hn : n < x.1.length) :
    ∃ out, Console.printed K h (Int32.ofNat n) = some out ∧ x.1[x.1.length - 1 - n] <+: out := by
  have hm : MAX_HISTORY = 16 := rfl
  have hlast : (word h.mem LAST_COMMAND_INDEX).toNat = x.1.length := by
    rw [hk.last, UInt32.toNat_ofNat', Nat.mod_eq_of_lt (by omega)]
  have hnum : (Int32.ofNat n).toInt = n := by
    rw [Int32.toInt_ofNat_of_lt (by omega)]
  obtain ⟨_, h', hr, -, hu⟩ := sysHistory_returns K (h := h) (n := Int32.ofNat n) (by omega) (by omega)
  refine ⟨_, by rw [Console.printed, hr], ?_⟩
  obtain ⟨hrow, hlen⟩ := hk.rows (x.1.length - 1 - n) (by omega)
  rw [hu, List.append_assoc, List.drop_left]
  refine List.IsPrefix.trans ?_ (List.prefix_append _ _)
  rw [List.prefix_iff_eq_take]
  refine List.ext_getElem (by simp; omega) fun j h1 h2 => ?_
  have hpos : ((word h.mem LAST_COMMAND_INDEX).toNat : Int) - (Int32.ofNat n).toInt - 1 =
      ((x.1.length - 1 - n : Nat) : Int) := by omega
  rw [List.getElem_take, List.getElem_map, List.getElem_range, hpos, hrow j h1]

/-- **Recalling a line.** After fewer than sixteen lines, typed without editing keys and without the two letters the
history takes, sys_history(n) prints the line `n` back from the last one. -/
theorem history_recall {K : Mapped} {s₀ s : St} {as : List Label} (h0 : init s₀)
    (hc : Along (step K) (fun s l => Types s l ∧ l.Ordinary) s₀ as) (hr : runs (step K) s₀ as = .ok s)
    (h16 : s.lines.1.length < MAX_HISTORY) {n : Nat} (hn : n < s.lines.1.length) : Recalls K s n := by
  have h : Recalling s := hc.invariant (I := Recalling) (fun s lb s' hi hl he => step_recalling K hi hl he)
    (init_recalling h0) hr
  obtain ⟨out, hout, hp⟩ := (h.kept h16).printed h16 hn
  refine ⟨_, out, ?_, hout, hp⟩
  rw [List.getElem?_reverse hn, List.getElem?_eq_getElem]

instance (s : St) (lb : Label) : Decidable (Types s lb) :=
  match lb with
  | .intr _ => inferInstanceAs (Decidable (_ ∧ _ ∧ _ ∧ _ ∧ _))
  | .read _ _ _ | .run _ | .kill _ | .history _ => .isTrue trivial

instance (lb : Label) : Decidable lb.Ordinary :=
  match lb with
  | .intr _ => inferInstanceAs (Decidable (_ ∧ _))
  | .read _ _ _ | .run _ | .kill _ | .history _ => .isTrue trivial

/-- The lines "a" and "bc": the first of them is one back. -/
theorem history_recall_two : ∃ s, runs (step tight) powerOn
    [.intr 97, .intr 10, .intr 98, .intr 99, .intr 13] = .ok s ∧ s.lines = ([[97], [98, 99]], []) ∧ Recalls tight s 1 := by
  have he : (runs (step tight) powerOn [.intr 97, .intr 10, .intr 98, .intr 99, .intr 13]).goesOn
      (fun s => s.lines = ([[97], [98, 99]], [])) = true := by decide +kernel
  obtain ⟨s, hr, hl⟩ := Outcome.exists_of_goesOn he
  have hl : s.lines = ([[97], [98, 99]], []) := of_decide_eq_true hl
  exact ⟨s, hr, hl, history_recall init_powerOn (by decide +kernel) hr (by rw [hl]; decide) (by rw [hl]; decide)⟩

/-- The sixteen lines "a", "b", ..., "p". -/
def sixteen : List Label := (List.range 16).flatMap fun i => [.intr (UInt8.ofNat (97 + i)), .intr 10]

/-- After sixteen lines sys_history(0) prints the first one. -/
theorem recall_wraps : init powerOn ∧ ∃ s, runs (step tight) powerOn sixteen = .ok s ∧
    Along (step tight) (fun s l => Types s l ∧ l.Ordinary) powerOn sixteen ∧ s.lines.1.length = 16 ∧
    s.lines.1.reverse[0]? = some [112] ∧ (printed tight s.hist 0).map (List.take 1) = some [97] ∧ ¬ Recalls tight s 0 := by
  have he : (runs (step tight) powerOn sixteen).goesOn (fun s => s.lines.1.length = 16 ∧
      s.lines.1.reverse[0]? = some [112] ∧ (printed tight s.hist 0).map (List.take 1) = some [97]) = true := by
    decide +kernel
  obtain ⟨s, hr, hs⟩ := Outcome.exists_of_goesOn he
  obtain ⟨hlen, hline, hout⟩ := of_decide_eq_true hs
  refine ⟨init_powerOn, s, hr, by decide +kernel, hlen, hline, hout, ?_⟩
  rintro ⟨line, out, hl, ho, hp⟩
  rw [hline, Option.some.injEq] at hl
  have ho : printed tight s.hist 0 = some out := ho
  rw [ho, Option.map_some, Option.some.injEq] at hout
  have h1 := List.prefix_iff_eq_take.mp hp
  rw [← hl, List.length_singleton, hout] at h1
  exact absurd h1 (by decide)

end Xv6.Console
