/-
The command history. Its four cursors (`index`, `row`, `lastCommandIndex`, and the row a
key or sys_history asks for) are kept in range by nothing but what is typed:
`history_in_bounds` says which keys, in which states, keep every access inside its array.
-/
import Xv6.Console.Line

namespace Xv6.Console

open Lib

/-! ## Words of memory -/

def word (m : Int → UInt8) (o : Int) : UInt32 :=
  UInt32.ofNat ((m o).toNat + 256 * (m (o + 1)).toNat + 256 ^ 2 * (m (o + 2)).toNat + 256 ^ 3 * (m (o + 3)).toNat)

def setWord (m : Int → UInt8) (o : Int) (v : UInt32) : Int → UInt8 :=
  Function.update (Function.update (Function.update (Function.update m o (UInt8.ofNat v.toNat))
    (o + 1) (UInt8.ofNat (v.toNat / 256))) (o + 2) (UInt8.ofNat (v.toNat / 256 ^ 2)))
    (o + 3) (UInt8.ofNat (v.toNat / 256 ^ 3))

theorem setWord_apply {m : Int → UInt8} {o : Int} {v : UInt32} {a : Int} (h : a < o ∨ o + 4 ≤ a) :
    setWord m o v a = m a := by
  unfold setWord
  rw [Function.update_of_ne (by omega), Function.update_of_ne (by omega), Function.update_of_ne (by omega),
    Function.update_of_ne (by omega)]

theorem word_congr {m m' : Int → UInt8} {o : Int} (h : ∀ a, o ≤ a → a < o + 4 → m a = m' a) : word m o = word m' o := by
  unfold word
  rw [h o (by omega) (by omega), h (o + 1) (by omega) (by omega), h (o + 2) (by omega) (by omega),
    h (o + 3) (by omega) (by omega)]

theorem word_eq_zero {m : Int → UInt8} {o : Int} (h : ∀ a, o ≤ a → a < o + 4 → m a = 0) : word m o = 0 := by
  have hz : word m o = word (fun _ => 0) o := word_congr h
  rw [hz]
  rfl

theorem word_setWord (m : Int → UInt8) (o : Int) (v : UInt32) : word (setWord m o v) o = v := by
  have h0 : setWord m o v o = UInt8.ofNat v.toNat := by
    unfold setWord
    rw [Function.update_of_ne (by omega), Function.update_of_ne (by omega), Function.update_of_ne (by omega),
      Function.update_self]
  have h1 : setWord m o v (o + 1) = UInt8.ofNat (v.toNat / 256) := by
    unfold setWord
    rw [Function.update_of_ne (by omega), Function.update_of_ne (by omega), Function.update_self]
  have h2 : setWord m o v (o + 2) = UInt8.ofNat (v.toNat / 256 ^ 2) := by
    unfold setWord
    rw [Function.update_of_ne (by omega), Function.update_self]
  have h3 : setWord m o v (o + 3) = UInt8.ofNat (v.toNat / 256 ^ 3) := Function.update_self _ _ _
  have hv := v.toNat_lt
  apply UInt32.toNat_inj.mp
  simp only [word, h0, h1, h2, h3, UInt32.toNat_ofNat', UInt8.toNat_ofNat']
  omega

/-! ## What each piece of code does -/

namespace Hist

def touch (h : Hist) (a : Access) : Hist := { h with touched := h.touched ++ [a] }

def setMem (h : Hist) (m : Int → UInt8) : Hist := { h with mem := m }

end Hist

section Code

variable (K : Mapped) {h : Hist}

theorem load_returns {o : Int} (h0 : 0 ≤ o) (hlt : o < HISTORY_SIZE) :
    (load K o).Returns h fun b h' => b = h.mem o ∧ h' = h := by
  refine .get ?_
  rw [if_pos ⟨K.lo_le.trans h0, hlt.trans_le K.le_hi⟩]
  exact .pure ⟨rfl, rfl⟩

theorem store_returns {o : Int} {b : UInt8} (h0 : 0 ≤ o) (hlt : o < HISTORY_SIZE) :
    (store K o b).Returns h fun _ h' => h' = h.setMem (Function.update h.mem o b) := by
  unfold store
  rw [if_pos ⟨K.lo_le.trans h0, hlt.trans_le K.le_hi⟩]
  exact .update rfl

theorem loadWord_returns {o : Int} (h0 : 0 ≤ o) (hlt : o + 4 ≤ HISTORY_SIZE) :
    (loadWord K o).Returns h fun v h' => v = word h.mem o ∧ h' = h := by
  refine (load_returns K h0 (by omega)).bind fun b0 h0 ⟨e0, e0'⟩ => ?_
  subst e0 e0'
  refine (load_returns K (by omega) (by omega)).bind fun b1 h1 ⟨e1, e1'⟩ => ?_
  subst e1 e1'
  refine (load_returns K (by omega) (by omega)).bind fun b2 h2 ⟨e2, e2'⟩ => ?_
  subst e2 e2'
  refine (load_returns K (by omega) (by omega)).bind fun b3 h3 ⟨e3, e3'⟩ => ?_
  subst e3 e3'
  exact .pure ⟨rfl, rfl⟩

theorem storeWord_returns {o : Int} {v : UInt32} (h0 : 0 ≤ o) (hlt : o + 4 ≤ HISTORY_SIZE) :
    (storeWord K o v).Returns h fun _ h' => h' = h.setMem (setWord h.mem o v) := by
  refine (store_returns K h0 (by omega)).bind fun _ h0 e0 => ?_
  refine (store_returns K (by omega) (by omega)).bind fun _ h1 e1 => ?_
  refine (store_returns K (by omega) (by omega)).bind fun _ h2 e2 => ?_
  refine (store_returns K (by omega) (by omega)).mono fun _ h3 e3 => ?_
  subst e0 e1 e2 e3
  rfl

/-- Inside the array. -/
def Access.InBounds : Access → Prop
  | .currentCm i => 0 ≤ i ∧ i < INPUT_BUF_SIZE
  | .row i => 0 ≤ i ∧ i < MAX_HISTORY

theorem bufsize_cast : ((INPUT_BUF_SIZE : Nat) : Int) = 128 := rfl
theorem maxHistory_cast : ((MAX_HISTORY : Nat) : Int) = 16 := rfl
theorem lengthsArr_eq : LENGTHS_ARR = 2048 := rfl
theorem lastCommandIndex_eq : LAST_COMMAND_INDEX = 2112 := rfl
theorem currentCm_eq : CURRENT_CM = 2124 := rfl
theorem historySize_eq : HISTORY_SIZE = 2256 := rfl

/-- Elements lie inside the struct. -/
theorem currentCm_in {i : Int} (hi : Access.InBounds (.currentCm i)) : 0 ≤ CURRENT_CM + i ∧ CURRENT_CM + i < HISTORY_SIZE := by
  obtain ⟨h0, h1⟩ := hi
  rw [bufsize_cast] at h1
  rw [currentCm_eq, historySize_eq]
  omega

theorem lengthsArr_in {row : Int} (hr : Access.InBounds (.row row)) :
    0 ≤ LENGTHS_ARR + 4 * row ∧ LENGTHS_ARR + 4 * row + 4 ≤ LAST_COMMAND_INDEX := by
  obtain ⟨h0, h1⟩ := hr
  rw [maxHistory_cast] at h1
  rw [lengthsArr_eq, lastCommandIndex_eq]
  omega

theorem bufferArr_in {row : Int} {i : Nat} (hr : Access.InBounds (.row row)) (hi : i < INPUT_BUF_SIZE) :
    0 ≤ INPUT_BUF_SIZE * row + i ∧ INPUT_BUF_SIZE * row + i < LENGTHS_ARR := by
  obtain ⟨h0, h1⟩ := hr
  have : INPUT_BUF_SIZE = 128 := rfl
  rw [maxHistory_cast] at h1
  rw [bufsize_cast, lengthsArr_eq]
  omega

theorem lengthsArr_le : LENGTHS_ARR ≤ HISTORY_SIZE := by decide
theorem lastCommandIndex_le : LAST_COMMAND_INDEX + 4 ≤ CURRENT_CM := by decide
theorem currentCm_le : CURRENT_CM ≤ HISTORY_SIZE := by decide

theorem currentCm_returns {i : Int} (hi : Access.InBounds (.currentCm i)) :
    (currentCm K i).Returns h fun c h' => c = h.mem (CURRENT_CM + i) ∧ h' = h.touch (.currentCm i) :=
  .modify (load_returns K (currentCm_in hi).1 (currentCm_in hi).2)

theorem setCurrentCm_returns {i : Int} {c : UInt8} (hi : Access.InBounds (.currentCm i)) :
    (setCurrentCm K i c).Returns h fun _ h' =>
      h' = (h.touch (.currentCm i)).setMem (Function.update h.mem (CURRENT_CM + i) c) :=
  .modify (store_returns K (currentCm_in hi).1 (currentCm_in hi).2)

theorem lengthsArr_returns {row : Int} (hr : Access.InBounds (.row row)) :
    (lengthsArr K row).Returns h fun v h' => v = word h.mem (LENGTHS_ARR + 4 * row) ∧ h' = h.touch (.row row) := by
  have := lengthsArr_in hr
  have := lastCommandIndex_le
  have := currentCm_le
  exact .modify (loadWord_returns K (by omega) (by omega))

theorem setLengthsArr_returns {row : Int} {v : UInt32} (hr : Access.InBounds (.row row)) :
    (setLengthsArr K row v).Returns h fun _ h' =>
      h' = (h.touch (.row row)).setMem (setWord h.mem (LENGTHS_ARR + 4 * row) v) := by
  have := lengthsArr_in hr
  have := lastCommandIndex_le
  have := currentCm_le
  exact .modify (storeWord_returns K (by omega) (by omega))

theorem bufferArr_returns {row : Int} {i : Nat} (hr : Access.InBounds (.row row)) (hi : i < INPUT_BUF_SIZE) :
    (bufferArr K row i).Returns h fun c h' => c = h.mem (INPUT_BUF_SIZE * row + i) ∧ h' = h.touch (.row row) :=
  .modify (load_returns K (bufferArr_in hr hi).1 ((bufferArr_in hr hi).2.trans_le lengthsArr_le))

theorem setBufferArr_returns {row : Int} {i : Nat} {c : UInt8} (hr : Access.InBounds (.row row)) (hi : i < INPUT_BUF_SIZE) :
    (setBufferArr K row i c).Returns h fun _ h' =>
      h' = (h.touch (.row row)).setMem (Function.update h.mem (INPUT_BUF_SIZE * row + i) c) :=
  .modify (store_returns K (bufferArr_in hr hi).1 ((bufferArr_in hr hi).2.trans_le lengthsArr_le))

theorem lastCommandIndex_returns :
    (lastCommandIndex K).Returns h fun v h' => v = word h.mem LAST_COMMAND_INDEX ∧ h' = h :=
  loadWord_returns K (by decide) (by decide)

theorem setLastCommandIndex_returns {v : UInt32} :
    (setLastCommandIndex K v).Returns h fun _ h' => h' = h.setMem (setWord h.mem LAST_COMMAND_INDEX v) :=
  storeWord_returns K (by decide) (by decide)

end Code

/-- No access so far was outside its array. -/
def Hist.Safe (h : Hist) : Prop := ∀ a ∈ h.touched, a.InBounds

theorem Hist.Safe.touch {h : Hist} {a : Access} (hs : h.Safe) (ha : a.InBounds) : (h.touch a).Safe := by
  intro b hb
  rcases List.mem_append.mp hb with hb | hb
  · exact hs b hb
  · exact List.mem_singleton.mp hb ▸ ha

/-- The cursors and the output stay. -/
structure Hist.Quiet (h h' : Hist) : Prop where
  index : h'.index = h.index
  row : h'.row = h.row
  uart : h'.uart = h.uart

/-- `n` is the place of the first newline of `current_cm` from `i` on. -/
def FirstNewline (m : Int → UInt8) (i n : Nat) : Prop :=
  i ≤ n ∧ m (CURRENT_CM + n) = newline ∧ ∀ j, i ≤ j → j < n → m (CURRENT_CM + j) ≠ newline

/-- The scan ends in `current_cm` if there is a newline in it. -/
theorem scanNewline_returns (K : Mapped) {fuel i j : Nat} {h : Hist} (hij : i ≤ j) (hj : j < INPUT_BUF_SIZE)
    (hnl : h.mem (CURRENT_CM + j) = newline) (hf : j < i + fuel) : (scanNewline K fuel i).Returns h fun n h' =>
    FirstNewline h.mem i n ∧ n < INPUT_BUF_SIZE ∧ h'.mem = h.mem ∧ h.Quiet h' ∧ (h.Safe → h'.Safe) := by
  induction fuel generalizing i h with
  | zero => omega
  | succ fuel ih =>
    have hi : Access.InBounds (.currentCm i) := ⟨by omega, by omega⟩
    refine (currentCm_returns K hi).bind fun c h1 ⟨hc, h1e⟩ => ?_
    subst hc h1e
    split
    · next hn =>
      exact .pure ⟨⟨le_rfl, hn, fun j h1 h2 => by omega⟩, by omega, rfl, ⟨rfl, rfl, rfl⟩, fun hs => hs.touch hi⟩
    · next hn =>
      have hne : i ≠ j := fun he => hn (he ▸ hnl)
      have := ih (i := i + 1) (h := h.touch (.currentCm i)) (by omega) hnl (by omega)
      refine this.mono fun n h' ⟨⟨hle, hnl, hfst⟩, hlt, hm, hq, hsafe⟩ => ?_
      refine ⟨⟨by omega, hnl, fun j h1 h2 => ?_⟩, hlt, hm, ⟨hq.index, hq.row, hq.uart⟩, fun hs => hsafe (hs.touch hi)⟩
      rcases Nat.eq_or_lt_of_le h1 with rfl | h1
      · exact hn
      · exact hfst j h1 h2

/-- The copy of a line into a row, and nothing else. -/
structure Copied (m m' : Int → UInt8) (row : Int) (i n : Nat) : Prop where
  new : ∀ j : Nat, i ≤ j → j < i + n → m' (INPUT_BUF_SIZE * row + j) = m (CURRENT_CM + j)
  old : ∀ o, o < INPUT_BUF_SIZE * row + i ∨ INPUT_BUF_SIZE * row + i + n ≤ o → m' o = m o

theorem copyLine_returns (K : Mapped) {row : Int} (hr : Access.InBounds (.row row)) {n i : Nat}
    (hn : i + n ≤ INPUT_BUF_SIZE) {h : Hist} : (copyLine K row n i).Returns h fun _ h' =>
    Copied h.mem h'.mem row i n ∧ h.Quiet h' ∧ (h.Safe → h'.Safe) := by
  induction n generalizing i h with
  | zero => exact .pure ⟨⟨fun j h1 h2 => by omega, fun _ _ => rfl⟩, ⟨rfl, rfl, rfl⟩, id⟩
  | succ n ih =>
    have hi : Access.InBounds (.currentCm i) := ⟨by omega, by omega⟩
    have hb := bufferArr_in hr (show i < INPUT_BUF_SIZE by omega)
    refine (currentCm_returns K hi).bind fun c h1 ⟨hc, h1e⟩ => ?_
    refine (setBufferArr_returns K hr (show i < INPUT_BUF_SIZE by omega)).bind fun _ h2 h2e => ?_
    refine (ih (by omega)).mono fun _ h' ⟨hcp, hq, hsafe⟩ => ?_
    subst hc h1e h2e
    refine ⟨⟨fun j h1 h2 => ?_, fun o ho => ?_⟩, ⟨hq.index, hq.row, hq.uart⟩, fun hs => hsafe ((hs.touch hi).touch hr)⟩
    · rcases Nat.eq_or_lt_of_le h1 with rfl | h1
      · rw [hcp.old _ (by omega)]
        exact Function.update_self _ _ _
      · rw [hcp.new j h1 (by omega)]
        -- the row lies below current_cm
        refine Function.update_of_ne ?_ _ _
        rw [lengthsArr_eq] at hb
        rw [currentCm_eq]
        omega
    · rw [hcp.old o (by omega)]
      exact Function.update_of_ne (by omega) _ _

/-- What call_sys_history does: the line goes into the row, its length into `lengthsArr`, the row is used up, and
`lastCommandIndex` starts over if it is 15. -/
structure Recorded (h h' : Hist) (n : Nat) : Prop where
  line : ∀ j : Nat, j < n → h'.mem (INPUT_BUF_SIZE * h.row + j) = h.mem (CURRENT_CM + j)
  others : ∀ o, o < LENGTHS_ARR → o < INPUT_BUF_SIZE * h.row ∨ INPUT_BUF_SIZE * h.row + n ≤ o → h'.mem o = h.mem o
  lengths : ∀ r, Access.InBounds (.row r) → word h'.mem (LENGTHS_ARR + 4 * r) =
    if r = h.row then UInt32.ofNat n else word h.mem (LENGTHS_ARR + 4 * r)
  last : word h'.mem LAST_COMMAND_INDEX =
    if word h.mem LAST_COMMAND_INDEX = 15 then 0 else word h.mem LAST_COMMAND_INDEX
  index : h'.index = h.index
  row : h'.row = h.row + 1
  uart : h'.uart = h.uart

theorem callSysHistory_returns (K : Mapped) {h : Hist} (hr : Access.InBounds (.row h.row))
    (hnl : ∃ j : Nat, j < INPUT_BUF_SIZE ∧ h.mem (CURRENT_CM + j) = newline) :
    (callSysHistory K).Returns h fun _ h' =>
      ∃ n, FirstNewline h.mem 0 n ∧ n < INPUT_BUF_SIZE ∧ Recorded h h' n ∧ (h.Safe → h'.Safe) := by
  obtain ⟨j, hj, hjn⟩ := hnl
  -- lastCommandIndex starts over
  have reset : (Code.when (word h.mem LAST_COMMAND_INDEX = 15) (setLastCommandIndex K 0)).Returns h fun _ h' =>
      h' = h.setMem h'.mem ∧ word h'.mem LAST_COMMAND_INDEX =
        (if word h.mem LAST_COMMAND_INDEX = 15 then 0 else word h.mem LAST_COMMAND_INDEX) ∧
      ∀ o, o < LAST_COMMAND_INDEX ∨ LAST_COMMAND_INDEX + 4 ≤ o → h'.mem o = h.mem o := by
    refine .when (fun h15 => (setLastCommandIndex_returns K).mono fun _ h' he => ?_) fun h15 => ?_
    · subst he
      rw [if_pos h15]
      exact ⟨rfl, word_setWord _ _ _, fun o ho => setWord_apply ho⟩
    · rw [if_neg h15]
      exact ⟨rfl, rfl, fun _ _ => rfl⟩
  refine (lastCommandIndex_returns K).bind fun last h1 ⟨hlast, h1e⟩ => ?_
  subst hlast h1e
  refine reset.bind fun _ h2 ⟨h2e, hw2, hm2⟩ => ?_
  have hcm : ∀ i : Nat, h2.mem (CURRENT_CM + i) = h1.mem (CURRENT_CM + i) := fun i =>
    hm2 _ (.inr (by have := lastCommandIndex_le; omega))
  have hfuel : j < 0 + K.hi.toNat := by
    have := K.le_hi
    have : INPUT_BUF_SIZE = 128 := rfl
    rw [historySize_eq] at *
    omega
  refine (scanNewline_returns K (Nat.zero_le j) hj ((hcm j).trans hjn) hfuel).bind ?_
  intro n h3 ⟨hfst, hn, hm3, hq3, hs3⟩
  refine .get ?_
  have hr3 : h3.row = h1.row := by rw [hq3.row, h2e]; rfl
  rw [hr3]
  refine (setLengthsArr_returns K hr).bind fun _ h4 h4e => ?_
  refine (copyLine_returns K hr (show 0 + n ≤ INPUT_BUF_SIZE by omega)).bind fun _ h5 ⟨hcp, hq5, hs5⟩ => .update ?_
  have hlen := lengthsArr_in hr
  have hle := lastCommandIndex_le
  have hb : INPUT_BUF_SIZE * h1.row + n ≤ LENGTHS_ARR := by
    have := hr.2
    have : INPUT_BUF_SIZE = 128 := rfl
    rw [maxHistory_cast] at *
    rw [bufsize_cast, lengthsArr_eq]
    omega
  have hm4 : ∀ o, o < LENGTHS_ARR + 4 * h1.row ∨ LENGTHS_ARR + 4 * h1.row + 4 ≤ o → h4.mem o = h2.mem o := by
    intro o ho
    rw [h4e, ← hm3]
    exact setWord_apply ho
  have hrow0 : 0 ≤ h1.row := hr.1
  refine ⟨n, ⟨Nat.zero_le n, hcm n ▸ hfst.2.1, fun i h1 h2 => hcm i ▸ hfst.2.2 i h1 h2⟩, hn, ?_, fun hs => ?_⟩
  · constructor
    · intro i hi
      change h5.mem _ = _
      rw [hcp.new i (by omega) (by omega), hm4 _ (by omega), hcm]
    · intro o ho hout
      change h5.mem _ = _
      rw [hcp.old o (by omega), hm4 o (by omega), hm2 o (by omega)]
    · intro r hrow
      have hlr := lengthsArr_in hrow
      have h5w : word h5.mem (LENGTHS_ARR + 4 * r) = word h4.mem (LENGTHS_ARR + 4 * r) :=
        word_congr fun a ha ha' => hcp.old a (.inr (by have := hrow.1; omega))
      change word h5.mem _ = _
      rw [h5w]
      split
      · next he =>
        rw [he, h4e]
        exact word_setWord _ _ _
      · next hne => exact word_congr fun a ha ha' => by rw [hm4 a (by omega), hm2 a (by omega)]
    · change word h5.mem _ = _
      rw [← hw2]
      exact word_congr fun a ha ha' => by rw [hcp.old a (by omega), hm4 a (by omega)]
    · change h5.index = _
      rw [hq5.index, h4e]
      exact hq3.index.trans (by rw [h2e]; rfl)
    · change h5.row + 1 = _
      rw [hq5.row, h4e]
      exact congrArg (· + 1) hr3
    · change h5.uart = _
      rw [hq5.uart, h4e]
      exact hq3.uart.trans (by rw [h2e]; rfl)
  · have hs2 : h2.Safe := by rw [h2e]; exact hs
    have hs4 : h4.Safe := by rw [h4e]; exact (hs3 hs2).touch hr
    exact hs5 hs4

/-- `index = 0; call_sys_history(); lastCommandIndex++` -/
theorem recordLine_returns (K : Mapped) {h : Hist} (hr : Access.InBounds (.row h.row))
    (hnl : ∃ j : Nat, j < INPUT_BUF_SIZE ∧ h.mem (CURRENT_CM + j) = newline) :
    (recordLine K).Returns h fun _ h' => ∃ n h1, FirstNewline h.mem 0 n ∧ n < INPUT_BUF_SIZE ∧
      Recorded { h with index := 0 } h1 n ∧ h' = h1.setMem (setWord h1.mem LAST_COMMAND_INDEX
        (word h1.mem LAST_COMMAND_INDEX + 1)) ∧ (h.Safe → h'.Safe) := by
  refine .modify ((callSysHistory_returns K (h := { h with index := 0 }) hr hnl).bind ?_)
  intro _ h1 ⟨n, hfst, hn, hrec, hsafe⟩
  refine (lastCommandIndex_returns K).bind fun last h2 ⟨he, h2e⟩ => ?_
  subst he h2e
  refine (setLastCommandIndex_returns K).mono fun _ h3 h3e => ?_
  subst h3e
  exact ⟨n, h2, hfst, hn, hrec, rfl, hsafe⟩

theorem recordChar_returns (K : Mapped) {c : UInt8} {h : Hist} (hi : Access.InBounds (.currentCm h.index)) :
    (recordChar K c).Returns h fun _ h' => h'.mem = Function.update h.mem (CURRENT_CM + h.index) c ∧
      h'.index = h.index + 1 ∧ h'.row = h.row ∧ (h.Safe → h'.Safe) := by
  refine .get ((setCurrentCm_returns K hi).bind fun _ h1 h1e => .modify (.update ?_))
  subst h1e
  exact ⟨rfl, rfl, rfl, fun hs => hs.touch hi⟩

/-- Printing from a row puts its bytes out. -/
theorem printRow_returns (K : Mapped) {row : Int} (hr : Access.InBounds (.row row)) {n i : Nat}
    (hn : i + n ≤ INPUT_BUF_SIZE) {h : Hist} : (printRow K row n i).Returns h fun _ h' =>
      h'.mem = h.mem ∧ h'.index = h.index ∧ h'.row = h.row ∧ (h.Safe → h'.Safe) ∧
      h'.uart = h.uart ++ (List.range' i n).map fun j : Nat => h.mem (INPUT_BUF_SIZE * row + j) := by
  induction n generalizing i h with
  | zero => exact .pure ⟨rfl, rfl, rfl, id, by simp⟩
  | succ n ih =>
    refine (bufferArr_returns K hr (show i < INPUT_BUF_SIZE by omega)).bind fun c h1 ⟨hc, h1e⟩ => .modify ?_
    subst hc h1e
    refine (ih (i := i + 1) (by omega)).mono fun _ h' ⟨hm, hi, hrow, hs, hu⟩ =>
      ⟨hm, hi, hrow, fun h0 => hs (h0.touch hr), ?_⟩
    rw [hu, List.range'_succ, List.map_cons]
    change h.uart ++ [_] ++ _ = _
    rw [List.append_assoc]
    rfl

theorem onHist_returns {α : Type} {c : Code Hist α} {s : St} {h₀ : Hist} {Q : α → Hist → Prop} (hs : s.hist = h₀)
    (h : c.Returns h₀ Q) : (onHist c).Returns s fun a s' => Q a s'.hist ∧ s'.cons = s.cons := by
  subst hs
  obtain ⟨a, h', hc, hq⟩ := h
  refine ⟨a, { s with hist := h' }, ?_, hq, rfl⟩
  rw [onHist, hc]

theorem onHist_ensures {α : Type} {c : Code Hist α} {s : St} {Q : α → Hist → Prop} (h : c.Ensures s.hist Q) :
    (onHist c).Ensures s fun a s' => Q a s'.hist := by
  intro a s' he
  unfold onHist at he
  split at he
  · next hc =>
    cases he
    exact h _ _ hc
  · cases he

theorem onHist_bind {α β : Type} {c : Code Hist α} {f : α → Code St β} {s : St} {h₀ : Hist} {Q : α → Hist → Prop}
    {T : β → St → Prop} (hs : s.hist = h₀) (h : c.Returns h₀ Q)
    (hf : ∀ a s', Q a s'.hist → s'.cons = s.cons → (f a).Returns s' T) : (onHist c >>= f).Returns s T :=
  (onHist_returns hs h).bind fun a s' h' => hf a s' h'.1 h'.2

/-! ## The cursors stay in range -/

/-- `historyBuf.lastCommandIndex` -/
def St.last (s : St) : UInt32 := word s.hist.mem LAST_COMMAND_INDEX

/-- The byte goes into the ring and into `current_cm`. -/
def Stores (s : St) (c : UInt8) : Prop :=
  c ≠ 0 ∧ c ≠ ctrlP ∧ c ≠ ctrlU ∧ c ≠ ctrlH ∧ c ≠ delete ∧ c ≠ 0x41 ∧ c ≠ 0x42 ∧
  s.cons.e - s.cons.r < UInt32.ofNat INPUT_BUF_SIZE

/-- The byte as it is stored. -/
def stored (c : UInt8) : UInt8 := if c = carriageReturn then newline else c

/-- The keys and arguments that leave the history in bounds. A backspace finds something in `current_cm`; a byte that
is stored finds room there; a byte that ends a line finds a row free, and is a newline or meets one that an earlier line
left in `current_cm`; and the rows asked for exist. -/
def Careful (s : St) : Label → Prop
  | .intr c => (c = ctrlH ∨ c = delete → 0 < s.hist.index) ∧ (c = 0x41 → 1 ≤ s.last) ∧ (c = 0x42 → s.last ≤ 13) ∧
    (Stores s c → s.hist.index < INPUT_BUF_SIZE ∧
      (s.cons.Commits (stored c) → s.hist.row < MAX_HISTORY ∧
        (stored c = newline ∨
          ∃ j : Nat, j < INPUT_BUF_SIZE ∧ (j : Int) ≠ s.hist.index ∧ s.hist.mem (CURRENT_CM + j) = newline)))
  | .history n => 1 ≤ s.last.toNat - n.toInt ∧ s.last.toNat - n.toInt ≤ MAX_HISTORY
  | .read _ _ _ | .run _ | .kill _ => True

/-- The cursors in range, and no access out of it so far. -/
structure Hist.Bounded (h : Hist) : Prop where
  safe : h.Safe
  index : 0 ≤ h.index
  row : 0 ≤ h.row
  last : (word h.mem LAST_COMMAND_INDEX).toNat < MAX_HISTORY
  lengths : ∀ r, Access.InBounds (.row r) → (word h.mem (LENGTHS_ARR + 4 * r)).toNat < INPUT_BUF_SIZE

section Bounded

variable (K : Mapped) {s : St} {h : Hist}

theorem onHist_bounded {c : Code Hist Unit} (hs : s.hist = h) (hc : c.Returns h fun _ h' => h'.Bounded) :
    (onHist c).Returns s fun _ s' => s'.hist.Bounded :=
  (onHist_returns hs hc).mono fun _ _ h' => h'.1

theorem backspace_bounded (hb : h.Bounded) : consputBackspace.Returns h fun _ h' => h'.Bounded :=
  .update ⟨hb.safe, hb.index, hb.row, hb.last, hb.lengths⟩

theorem killLine_bounded (n : Nat) (hb : s.hist.Bounded) : (killLine n).Returns s fun _ s' => s'.hist.Bounded := by
  induction n generalizing s with
  | zero => exact .pure hb
  | succ n ih =>
    unfold killLine
    refine .get ?_
    split
    · exact .modify (onHist_bind rfl (backspace_bounded hb) fun _ s1 h1 _ => ih h1)
    · exact .pure hb

theorem printRow_bounded {row : Int} (hr : Access.InBounds (.row row)) {n : Nat} (hn : n ≤ INPUT_BUF_SIZE)
    (hb : h.Bounded) : (printRow K row n 0).Returns h fun _ h' => h'.Bounded :=
  (printRow_returns K hr (by omega)).mono fun _ _ ⟨hm, hi, hrow, hs, _⟩ =>
    ⟨hs hb.safe, hi ▸ hb.index, hrow ▸ hb.row, hm ▸ hb.last, hm ▸ hb.lengths⟩

/-- The two keys that print a row of the history, given that the row exists. -/
theorem printKey_bounded {row : Int} (hr : Access.InBounds (.row row)) (hb : h.Bounded) :
    (lengthsArr K row >>= fun len => printRow K row len.toNat 0).Returns h fun _ h' => h'.Bounded := by
  refine (lengthsArr_returns K hr).bind fun len h2 ⟨hlen, h2e⟩ => ?_
  subst hlen h2e
  exact printRow_bounded K hr (hb.lengths row hr).le ⟨hb.safe.touch hr, hb.index, hb.row, hb.last, hb.lengths⟩

theorem printLast_bounded (hb : h.Bounded) (hl : 1 ≤ word h.mem LAST_COMMAND_INDEX) :
    (printLast K).Returns h fun _ h' => h'.Bounded := by
  refine (lastCommandIndex_returns K).bind fun last h1 ⟨he, h1e⟩ => .modify ?_
  subst he h1e
  refine printKey_bounded K ⟨by omega, ?_⟩ ⟨hb.safe, hb.index, hb.row, hb.last, hb.lengths⟩
  have h1 : 1 ≤ (word h1.mem LAST_COMMAND_INDEX).toNat := UInt32.le_iff_toNat_le.mp hl
  have h2 := hb.last
  rw [UInt32.toNat_sub_of_le _ _ hl, UInt32.toNat_one]
  omega

theorem printNext_bounded (hb : h.Bounded) (hl : word h.mem LAST_COMMAND_INDEX ≤ 13) :
    (printNext K).Returns h fun _ h' => h'.Bounded := by
  refine (lastCommandIndex_returns K).bind fun last h1 ⟨he, h1e⟩ => .modify ?_
  subst he h1e
  refine printKey_bounded K ⟨by omega, ?_⟩ ⟨hb.safe, hb.index, hb.row, hb.last, hb.lengths⟩
  have h1 : (word h1.mem LAST_COMMAND_INDEX).toNat ≤ 13 := UInt32.le_iff_toNat_le.mp hl
  rw [UInt32.toNat_add, maxHistory_cast]
  simp only [UInt32.reduceToNat]
  omega

theorem recordLine_bounded (hb : h.Bounded) (h16 : h.row < MAX_HISTORY)
    (hnl : ∃ j : Nat, j < INPUT_BUF_SIZE ∧ h.mem (CURRENT_CM + j) = newline) :
    (recordLine K).Returns h fun _ h' => h'.Bounded := by
  refine (recordLine_returns K ⟨hb.row, h16⟩ hnl).mono fun _ h' ⟨n, h1, _, hn, hr, he, hs⟩ => ?_
  subst he
  have hm : MAX_HISTORY = 16 := rfl
  refine ⟨hs hb.safe, ?_, ?_, ?_, fun r hrow => ?_⟩
  · exact le_of_eq hr.index.symm
  · have := hb.row
    change 0 ≤ h1.row
    rw [hr.row]
    change 0 ≤ h.row + 1
    omega
  · have hlast := hb.last
    rw [Hist.setMem, word_setWord, hr.last]
    change ((if word h.mem _ = 15 then _ else _) + 1 : UInt32).toNat < _
    split
    · decide
    · next hne =>
      have : (word h.mem LAST_COMMAND_INDEX).toNat ≠ 15 := fun he => hne (UInt32.toNat_inj.mp he)
      change (word h.mem LAST_COMMAND_INDEX + 1).toNat < _
      rw [UInt32.toNat_add, UInt32.toNat_one]
      omega
  · have hlr := lengthsArr_in hrow
    have hw : word (setWord h1.mem LAST_COMMAND_INDEX (word h1.mem LAST_COMMAND_INDEX + 1)) (LENGTHS_ARR + 4 * r) =
        word h1.mem (LENGTHS_ARR + 4 * r) := word_congr fun a ha ha' => setWord_apply (.inl (by omega))
    rw [Hist.setMem, hw, hr.lengths r hrow]
    split
    · rw [UInt32.toNat_ofNat', Nat.mod_eq_of_lt (hn.trans (by decide))]
      exact hn
    · exact hb.lengths r hrow

/-- A byte stored in `current_cm` reaches no other field. -/
theorem recordChar_bounded {c : UInt8} (hb : h.Bounded) (h128 : h.index < INPUT_BUF_SIZE) :
    (recordChar K c).Returns h fun _ h' => h'.Bounded ∧
      h'.mem = Function.update h.mem (CURRENT_CM + h.index) c ∧ h'.row = h.row := by
  have hi := hb.index
  refine (recordChar_returns K ⟨hi, h128⟩).mono fun _ h' ⟨hm, hidx, hr, hs⟩ => ⟨⟨hs hb.safe, ?_, hr ▸ hb.row, ?_, ?_⟩, hm, hr⟩
  · omega
  · have hw : word h'.mem LAST_COMMAND_INDEX = word h.mem LAST_COMMAND_INDEX := word_congr fun a ha ha' => by
      have := lastCommandIndex_le
      rw [hm, Function.update_of_ne (by omega)]
    rw [hw]
    exact hb.last
  · intro r hrow
    have hw : word h'.mem (LENGTHS_ARR + 4 * r) = word h.mem (LENGTHS_ARR + 4 * r) := word_congr fun a ha ha' => by
      have := lengthsArr_in hrow
      have := lastCommandIndex_le
      rw [hm, Function.update_of_ne (by omega)]
    rw [hw]
    exact hb.lengths r hrow

theorem storeChar_bounded {c : UInt8} (hb : s.hist.Bounded) (h128 : s.hist.index < INPUT_BUF_SIZE)
    (hcom : s.cons.Commits c → s.hist.row < MAX_HISTORY ∧ (c = newline ∨
      ∃ j : Nat, j < INPUT_BUF_SIZE ∧ (j : Int) ≠ s.hist.index ∧ s.hist.mem (CURRENT_CM + j) = newline)) :
    (storeChar K c).Returns s fun _ s' => s'.hist.Bounded := by
  refine onHist_bind rfl (recordChar_bounded K hb h128) fun _ s1 ⟨hb1, hm, hr⟩ hc1 => .modify (.get ?_)
  refine .when (fun hC => ?_) fun _ => hb1
  have hC : s1.cons.Commits c := hC
  rw [hc1] at hC
  obtain ⟨h16, hnl⟩ := hcom hC
  refine onHist_bind rfl (recordLine_bounded K hb1 (hr ▸ h16) ?_) fun _ s2 h2 _ => .modify (.modify (.update h2))
  rw [hm]
  rcases hnl with hc | ⟨j, hj, hne, hjn⟩
  · obtain ⟨i, hi⟩ := Int.eq_ofNat_of_zero_le hb.index
    refine ⟨i, by omega, ?_⟩
    rw [hi, Function.update_self, hc]
  · refine ⟨j, hj, ?_⟩
    rwa [Function.update_of_ne (by omega)]

theorem consoleintr_bounded {c : UInt8} (hb : s.hist.Bounded) (hc : Careful s (.intr c)) :
    (consoleintr K c).Returns s fun _ s' => s'.hist.Bounded := by
  obtain ⟨hback, hA, hB, hstore⟩ := hc
  unfold consoleintr
  refine .get (.modify ?_)
  split
  · exact .pure hb
  split
  · exact killLine_bounded _ hb
  split
  · next hH =>
    have hpos := hback hH
    have hdec : Code.Returns (modify fun h : Hist => { h with index := h.index - 1 }) s.hist fun _ h' => h'.Bounded :=
      .update ⟨hb.safe, by change 0 ≤ s.hist.index - 1; omega, hb.row, hb.last, hb.lengths⟩
    refine onHist_bind rfl hdec fun _ s1 h1 _ => .get (.when (fun _ => ?_) fun _ => h1)
    exact .modify (onHist_bounded rfl (backspace_bounded h1))
  split
  · next h => exact onHist_bounded rfl (printLast_bounded K hb (hA h))
  split
  · next h => exact onHist_bounded rfl (printNext_bounded K hb (hB h))
  split
  · next hP hU hH hA hB hS =>
    rw [not_or] at hH
    obtain ⟨h128, hcom⟩ := hstore ⟨hS.1, hP, hU, hH.1, hH.2, hA, hB, hS.2⟩
    exact storeChar_bounded K hb h128 hcom
  · exact .pure hb

/-- `target` is the difference, where that is small. -/
theorem target_eq {last : UInt32} {n : Int32} (h1 : -2 ^ 31 ≤ last.toNat - n.toInt) (h2 : last.toNat - n.toInt < 2 ^ 31) :
    (last - n.toUInt32).toInt32.toInt = last.toNat - n.toInt := by
  have hs : (last - n.toUInt32).toInt32 = last.toInt32 - n := by
    rw [UInt32.toInt32_sub]
    simp
  have hl : last.toInt32.toInt = (last.toNat : Int).bmod (2 ^ 32) := by
    rw [Int32.toInt, BitVec.toInt_eq_toNat_bmod]
    rfl
  rw [hs, Int32.toInt_sub, hl, Int.bmod_sub_bmod, Int.bmod_eq_of_le (by omega) (by omega)]

/-- sys_history prints the row that its argument selects, all of it. -/
theorem sysHistory_returns {n : Int32} (h1 : 1 ≤ (word h.mem LAST_COMMAND_INDEX).toNat - n.toInt)
    (h2 : (word h.mem LAST_COMMAND_INDEX).toNat - n.toInt ≤ MAX_HISTORY) : (sysHistory K n).Returns h fun _ h' =>
      (h.Bounded → h'.Bounded) ∧ h'.uart = h.uart ++ (List.range INPUT_BUF_SIZE).map (fun j : Nat =>
        h.mem (INPUT_BUF_SIZE * ((word h.mem LAST_COMMAND_INDEX).toNat - n.toInt - 1) + j)) ++ [newline] := by
  rw [maxHistory_cast] at h2
  refine (lastCommandIndex_returns K).bind fun last h0 ⟨he, h0e⟩ => ?_
  subst he h0e
  have hr : Access.InBounds (.row ((word h0.mem LAST_COMMAND_INDEX).toNat - n.toInt - 1)) :=
    ⟨by omega, by rw [maxHistory_cast]; omega⟩
  dsimp only
  rw [target_eq (by omega) (by omega)]
  refine (printRow_returns K hr (show 0 + INPUT_BUF_SIZE ≤ INPUT_BUF_SIZE by omega)).bind ?_
  intro _ h' ⟨hm, hi, hrow, hs, hu⟩
  refine .update ⟨fun hb => ⟨hs hb.safe, hi ▸ hb.index, hrow ▸ hb.row, hm ▸ hb.last, hm ▸ hb.lengths⟩, ?_⟩
  change h'.uart ++ [newline] = _
  rw [hu, List.range_eq_range']

theorem outcome_returns {c : Code St Unit} {s : St} {Q : St → Prop} (h : c.Returns s fun _ s' => Q s') :
    ∃ s', outcome c s = .ok s' ∧ Q s' := by
  obtain ⟨a, s', hc, hq⟩ := h
  exact ⟨s', by rw [outcome, hc], hq⟩

theorem consoleread_hist (s : St) (t : Nat) (c : ReadCall) : (s.consoleread t c).hist = s.hist := by
  unfold St.consoleread
  repeat' split
  all_goals rfl

/-- A careful step goes on, with the cursors in range, or waits. -/
theorem step_bounded {lb : Label} (hb : s.hist.Bounded) (hc : Careful s lb) :
    step K s lb = .disabled ∨ ∃ s', step K s lb = .ok s' ∧ s'.hist.Bounded := by
  cases lb with
  | intr c =>
    dsimp only [step]
    split
    · exact .inr (outcome_returns (consoleintr_bounded K hb hc))
    · exact .inl rfl
  | read t n ok =>
    dsimp only [step]
    split
    · exact .inr ⟨_, rfl, hb⟩
    · exact .inl rfl
  | run t =>
    dsimp only [step, run]
    split
    · split
      · exact .inr ⟨_, rfl, hb⟩
      · exact .inl rfl
    · next c ht =>
      refine .inr ⟨_, rfl, ?_⟩
      rw [consoleread_hist]
      exact hb
    · exact .inl rfl
    · exact .inl rfl
  | kill t => exact .inr ⟨_, rfl, hb⟩
  | history n =>
    refine .inr (outcome_returns (onHist_bounded (h := s.hist) rfl ?_))
    exact (sysHistory_returns K hc.1 hc.2).mono fun _ _ h' => h'.1 hb

end Bounded

theorem init_bounded {s : St} (h : init s) : s.hist.Bounded := by
  obtain ⟨mem, hz, rfl⟩ := h
  have zero : ∀ o, 0 ≤ o → o + 4 ≤ HISTORY_SIZE → word mem o = 0 := fun o h0 h4 =>
    word_eq_zero fun a ha ha' => hz a (by omega) (by omega)
  refine ⟨fun a ha => absurd ha List.not_mem_nil, le_rfl, le_rfl, ?_, fun r hr => ?_⟩
  · change (word mem _).toNat < _
    rw [zero _ (by decide) (by decide)]
    decide
  · have hlr := lengthsArr_in hr
    have := lastCommandIndex_le
    have := currentCm_le
    change (word mem _).toNat < _
    rw [zero _ (by omega) (by omega)]
    decide

/-- **The history stays in its arrays** as long as the keys and arguments are careful: no such run traps, and every
access of it is in bounds. -/
theorem history_in_bounds {K : Mapped} {s₀ : St} {as : List Label} (h0 : init s₀) (hc : Along (step K) Careful s₀ as) :
    (∀ msg, runs (step K) s₀ as ≠ .panic msg) ∧
    ∀ s, runs (step K) s₀ as = .ok s → ∀ a ∈ s.hist.touched, a.InBounds := by
  have keep : ∀ s lb s', s.hist.Bounded → Careful s lb → step K s lb = .ok s' → s'.hist.Bounded := by
    intro s lb s' hb hc he
    rcases step_bounded K hb hc with hd | ⟨s1, h1, hb1⟩
    · rw [he] at hd
      cases hd
    · rw [he] at h1
      cases h1
      exact hb1
  have go : ∀ s lb msg, s.hist.Bounded → Careful s lb → step K s lb ≠ .panic msg := by
    intro s lb msg hb hc he
    rcases step_bounded K hb hc with hd | ⟨s1, h1, -⟩
    · rw [he] at hd
      cases hd
    · rw [he] at h1
      cases h1
  exact ⟨fun msg => hc.not_panic keep (fun s lb => go s lb msg) (init_bounded h0), fun s hr => (hc.invariant keep (init_bounded h0) hr).safe⟩

instance (a : Access) : Decidable a.InBounds := by
  cases a <;> exact inferInstanceAs (Decidable (_ ∧ _))

instance (s : St) (c : UInt8) : Decidable (Stores s c) := inferInstanceAs (Decidable (_ ∧ _))

instance (s : St) (lb : Label) : Decidable (Careful s lb) := by
  cases lb <;> unfold Careful <;> infer_instance

/-- A line, a backspace within the next one, a recall by the key and one by the system call. -/
theorem history_in_bounds_recall : ∃ s, runs (step tight) powerOn
    [.intr 97, .intr 10, .intr 120, .intr 8, .intr 65, .intr 98, .intr 10, .history 1] = .ok s ∧
    s.hist.touched ≠ [] ∧ ∀ a ∈ s.hist.touched, a.InBounds := by
  have he : (runs (step tight) powerOn
      [.intr 97, .intr 10, .intr 120, .intr 8, .intr 65, .intr 98, .intr 10, .history 1]).goesOn
      (fun s => s.hist.touched ≠ []) = true := by decide +kernel
  obtain ⟨s, hr, hs⟩ := Outcome.exists_of_goesOn he
  exact ⟨s, hr, of_decide_eq_true hs, (history_in_bounds init_powerOn (by decide +kernel)).2 s hr⟩

/-- A backspace at the start of the first line sends the next byte in front of `current_cm`, and sys_history(1) before
any line has been typed reads in front of `bufferArr`. -/
theorem history_out_of_bounds : init powerOn ∧
    (∃ s, runs (step tight) powerOn [.intr 8, .intr 120] = .ok s ∧ ¬ ∀ a ∈ s.hist.touched, a.InBounds) ∧
    runs (step tight) powerOn [.history 1] = .panic "kerneltrap" := by
  have he : (runs (step tight) powerOn [.intr 8, .intr 120]).goesOn
      (fun s => ¬ ∀ a ∈ s.hist.touched, a.InBounds) = true := by decide +kernel
  obtain ⟨s, hr, hs⟩ := Outcome.exists_of_goesOn he
  exact ⟨init_powerOn, ⟨s, hr, of_decide_eq_true hs⟩,
    Outcome.eq_panic_of_stops (by decide +kernel)⟩

end Xv6.Console
