/-
What grep prints. However read() splits its input, grep prints the matching lines up to the
first line of 1023 bytes or more, and stops there: such a line fills the buffer, the
next read is for no bytes, and its result 0 is taken for the end of the input. So all
matching lines are printed if and only if none is behind that line, nor is it one.
-/
import Xv6.Grep.Model

namespace Xv6.Grep

open Lib

/-- The lines of `s` that end in a newline, without it; `cur` is the beginning of the first. -/
def linesFrom (cur : List UInt8) : List UInt8 → List (List UInt8)
  | [] => []
  | c :: s => if c = newline then cur :: linesFrom [] s else linesFrom (cur ++ [c]) s

/-- What is behind the last newline. -/
def restFrom (cur : List UInt8) : List UInt8 → List UInt8
  | [] => cur
  | c :: s => if c = newline then restFrom [] s else restFrom (cur ++ [c]) s

/-- The lines of a stream. -/
def lines (stream : List UInt8) : List (List UInt8) := linesFrom [] stream

/-- The matching lines, as they are to be printed. -/
def matching (pattern : List UInt8) (ls : List (List UInt8)) : List UInt8 :=
  (ls.filter (matchText pattern)).flatMap (· ++ [newline])

/-- The lines that fit in the buffer with their newline. -/
def short (l : List UInt8) : Bool := l.length < BUF - 1

variable {pattern cur s t u v : List UInt8}

theorem restFrom_append : restFrom cur (s ++ t) = restFrom (restFrom cur s) t := by
  induction s generalizing cur with
  | nil => rfl
  | cons c s ih =>
    simp only [List.cons_append, restFrom]
    split <;> exact ih

theorem linesFrom_append : linesFrom cur (s ++ t) = linesFrom cur s ++ linesFrom (restFrom cur s) t := by
  induction s generalizing cur with
  | nil => rfl
  | cons c s ih =>
    simp only [List.cons_append, linesFrom, restFrom]
    split
    · rw [ih, List.cons_append]
    · exact ih

theorem linesFrom_none (cur : List UInt8) (h : newline ∉ u) : linesFrom cur u = [] ∧ restFrom cur u = cur ++ u := by
  induction u generalizing cur with
  | nil => simp [linesFrom, restFrom]
  | cons c u ih =>
    have hc : c ≠ newline := fun he => h (he ▸ List.mem_cons_self)
    obtain ⟨h₁, h₂⟩ := ih (cur ++ [c]) fun hm => h (List.mem_cons_of_mem c hm)
    simp [linesFrom, restFrom, hc, h₁, h₂]

/-- The first line. -/
theorem linesFrom_line (h : newline ∉ u) : linesFrom [] (u ++ newline :: v) = u :: linesFrom [] v ∧
    restFrom [] (u ++ newline :: v) = restFrom [] v := by
  obtain ⟨h₁, h₂⟩ := linesFrom_none [] h
  rw [linesFrom_append, restFrom_append, h₁, h₂]
  simp [linesFrom, restFrom]

/-- The rest of a text is an end of it, without a newline. -/
theorem restFrom_spec (s : List UInt8) (h : newline ∉ cur) : newline ∉ restFrom cur s ∧ ∃ w, cur ++ s = w ++ restFrom cur s := by
  induction s generalizing cur with
  | nil => exact ⟨h, [], by simp [restFrom]⟩
  | cons c s ih =>
    simp only [restFrom]
    split
    · obtain ⟨h₁, w, hw⟩ := ih (List.not_mem_nil (a := newline))
      refine ⟨h₁, cur ++ c :: w, ?_⟩
      rw [List.nil_append] at hw
      rw [List.append_assoc, List.cons_append, ← hw]
    · next hc =>
      obtain ⟨h₁, w, hw⟩ := ih (show newline ∉ cur ++ [c] by simpa [h] using Ne.symm hc)
      exact ⟨h₁, w, by rw [← hw]; simp⟩

/-- A line is no longer than the text it is in, less its newline. -/
theorem length_lt_of_mem_linesFrom {l : List UInt8} (h : l ∈ linesFrom cur s) : l.length < cur.length + s.length := by
  induction s generalizing cur with
  | nil => cases h
  | cons c s ih =>
    simp only [linesFrom] at h
    split at h
    · rcases List.mem_cons.mp h with rfl | h
      · simp
      · have := ih h
        simp only [List.length_nil, List.length_cons] at this ⊢
        omega
    · have := ih h
      simp only [List.length_append, List.length_cons, List.length_nil] at this ⊢
      omega

/-- The first line begins with `cur`. -/
theorem length_le_of_head_linesFrom {l : List UInt8} (h : (linesFrom cur s).head? = some l) :
    cur.length ≤ l.length := by
  induction s generalizing cur with
  | nil => cases h
  | cons c s ih =>
    simp only [linesFrom] at h
    split at h
    · cases h
      exact le_rfl
    · have := ih h
      rw [List.length_append] at this
      omega

theorem matching_append {ls ls' : List (List UInt8)} :
    matching pattern (ls ++ ls') = matching pattern ls ++ matching pattern ls' := by
  simp [matching]

theorem matching_cons {l : List UInt8} {ls : List (List UInt8)} : matching pattern (l :: ls) =
    (if matchText pattern l then l ++ [newline] else []) ++ matching pattern ls := by
  unfold matching
  rw [List.filter_cons]
  split <;> rfl

theorem matching_eq_nil {ls : List (List UInt8)} : matching pattern ls = [] ↔ ∀ l ∈ ls, matchText pattern l = false := by
  simp [matching]

/-! ## One buffer -/

theorem strchr_some {w : List UInt8} (h0 : 0 ∉ u) (h : newline ∉ u) :
    strchr newline (u ++ newline :: w) = some u.length := by
  induction u with
  | nil => simp [strchr, newline]
  | cons a u ih =>
    have ha0 : a ≠ 0 := fun he => h0 (he ▸ List.mem_cons_self)
    have ha : a ≠ newline := fun he => h (he ▸ List.mem_cons_self)
    rw [List.cons_append, strchr, if_neg ha0, if_neg ha, ih (fun hm => h0 (List.mem_cons_of_mem a hm))
      fun hm => h (List.mem_cons_of_mem a hm)]
    rfl

theorem strchr_none {w : List UInt8} (h0 : 0 ∉ u) (h : newline ∉ u) : strchr newline (u ++ 0 :: w) = none := by
  induction u with
  | nil => simp [strchr]
  | cons a u ih =>
    have ha0 : a ≠ 0 := fun he => h0 (he ▸ List.mem_cons_self)
    have ha : a ≠ newline := fun he => h (he ▸ List.mem_cons_self)
    rw [List.cons_append, strchr, if_neg ha0, if_neg ha, ih (fun hm => h0 (List.mem_cons_of_mem a hm))
      fun hm => h (List.mem_cons_of_mem a hm)]
    rfl

theorem cstr_append {w : List UInt8} (h0 : 0 ∉ u) : cstr (u ++ 0 :: w) = u := by
  unfold cstr
  rw [List.takeWhile_append_of_pos (fun a ha => by simpa using fun he : a = 0 => h0 (he ▸ ha))]
  simp

theorem length_fromP (buf : Buffer BUF) (p : Nat) : (fromP buf p).length = BUF - p := Buffer.length_read ..

theorem drop_fromP (buf : Buffer BUF) (p m : Nat) : (fromP buf p).drop m = fromP buf (p + m) := by
  rw [fromP, Buffer.drop_read, fromP, Nat.sub_sub]

/-- Memory from `p` on after one byte of it is set. -/
theorem fromP_write {buf : Buffer BUF} {p : Nat} {a b : UInt8} {w : List UInt8} (h : fromP buf p = u ++ a :: w) :
    fromP (buf.write (p + u.length) [b]) p = u ++ b :: w := by
  have hlen := length_fromP buf p
  rw [h, List.length_append, List.length_cons] at hlen
  unfold fromP at h ⊢
  rw [Buffer.read_write _ _ _ _ _ (by simp only [List.length_cons, List.length_nil]; omega) (by omega), h]
  simp

/-- One line of the buffer, and what the loop does with it. -/
theorem scan_line {buf : Buffer BUF} {p : Nat} {w : List UInt8} (pattern : List UInt8) (k : Nat) (out : List UInt8) (h : fromP buf p = u ++ newline :: w) (h0 : 0 ∉ u)
    (hn : newline ∉ u) : ∃ buf', fromP buf' (p + u.length + 1) = w ∧ scan pattern (k + 1) buf p out =
      scan pattern k buf' (p + u.length + 1) (out ++ if matchText pattern u then u ++ [newline] else []) := by
  have hrest {buf' : Buffer BUF} {b : UInt8} (h' : fromP buf' p = u ++ b :: w) : fromP buf' (p + u.length + 1) = w := by
    rw [Nat.add_assoc, ← drop_fromP, h']
    simp
  have hzero := fromP_write (b := 0) h
  have hback := fromP_write (b := newline) hzero
  rw [scan, h, strchr_some h0 hn]
  dsimp only
  rw [hzero, cstr_append h0]
  split
  · refine ⟨_, hrest hback, ?_⟩
    congr 2
    have hlen := length_fromP buf p
    rw [h, List.length_append, List.length_cons] at hlen
    rw [← Buffer.take_read (n := BUF - p) (by omega), ← fromP, hback,
      show p + u.length + 1 - p = u.length + 1 by omega, List.take_length_add_append]
    rfl
  · exact ⟨_, hrest hzero, by rw [List.append_nil]⟩

/-- **The loop over the lines of a buffer** that holds the text `v` and a NUL. The induction is on the rounds left; there
are more of them than newlines. -/
theorem scan_spec {k p : Nat} {buf : Buffer BUF} {w : List UInt8} (pattern out : List UInt8) (hk : v.length < k)
    (h : fromP buf p = v ++ 0 :: w) (h0 : 0 ∉ v) : ∃ buf', scan pattern k buf p out =
      (buf', p + (v.length - (restFrom [] v).length), out ++ matching pattern (linesFrom [] v)) ∧
      fromP buf' (p + (v.length - (restFrom [] v).length)) = restFrom [] v ++ 0 :: w := by
  induction k generalizing p buf out v with
  | zero => omega
  | succ k ih =>
    by_cases hn : newline ∈ v
    · obtain ⟨u, x, rfl, hu⟩ := List.eq_append_cons_of_mem hn
      rw [List.append_assoc, List.cons_append] at h
      obtain ⟨buf₁, h₁, hscan⟩ := scan_line pattern k out h
        (fun hm => h0 (List.mem_append_left _ hm)) hu
      have hlen : (u ++ newline :: x).length = u.length + 1 + x.length := by
        simp only [List.length_append, List.length_cons]
        omega
      obtain ⟨buf₂, hscan₂, h₂⟩ := ih (out ++ if matchText pattern u then u ++ [newline] else [])
        (by omega) h₁ fun hm => h0 (List.mem_append_right _ (List.mem_cons_of_mem _ hm))
      obtain ⟨hlines, hrest⟩ := linesFrom_line (v := x) hu
      have hle : (restFrom [] x).length ≤ x.length := by
        obtain ⟨-, y, hy⟩ := restFrom_spec x (List.not_mem_nil (a := newline))
        have := congrArg List.length hy
        rw [List.nil_append, List.length_append] at this
        omega
      have hp : p + u.length + 1 + (x.length - (restFrom [] x).length) =
          p + ((u ++ newline :: x).length - (restFrom [] x).length) := by omega
      rw [hp] at hscan₂ h₂
      rw [hlines, hrest, matching_cons, ← List.append_assoc]
      exact ⟨buf₂, hscan.trans hscan₂, h₂⟩
    · obtain ⟨h₁, h₂⟩ := linesFrom_none [] hn
      rw [h₁, h₂, List.nil_append, Nat.sub_self, Nat.add_zero]
      refine ⟨buf, ?_, h⟩
      rw [scan, h, strchr_none h0 hn]
      simp [matching]

/-! ## All reads -/

theorem takeWhile_short_append {ls ls' : List (List UInt8)} (h : ∀ l ∈ ls, short l = true) :
    (ls ++ ls').takeWhile short = ls ++ ls'.takeWhile short := List.takeWhile_append_of_pos h

/-- The buffer after a read, with the NUL behind what was read. -/
theorem fromP_store {buf : Buffer BUF} {cur data : List UInt8} (hbuf : (fromP buf 0).take cur.length = cur)
    (hlen : cur.length + data.length < BUF) :
    ∃ w, fromP ((buf.write cur.length data).write (cur.length + data.length) [0]) 0 = (cur ++ data) ++ 0 :: w := by
  have hfull := length_fromP buf 0
  have hstore : fromP (buf.write cur.length data) 0 = (cur ++ data) ++ (fromP buf 0).drop (cur.length + data.length) := by
    have := buf.read_write 0 BUF cur.length data (by omega) (by omega)
    rw [Nat.zero_add] at this
    unfold fromP at hbuf ⊢
    rw [Nat.sub_zero] at hbuf ⊢
    rw [this, hbuf]
  cases hdrop : (fromP buf 0).drop (cur.length + data.length) with
  | nil =>
    have := List.drop_eq_nil_iff.mp hdrop
    omega
  | cons a w =>
    rw [hdrop] at hstore
    refine ⟨w, ?_⟩
    have := fromP_write (b := 0) hstore
    rwa [Nat.zero_add, List.length_append] at this

/-- The tail of the buffer is moved to its beginning. -/
theorem fromP_move {buf : Buffer BUF} {p : Nat} {w : List UInt8} (h : fromP buf p = u ++ w) :
    (fromP (buf.write 0 (buf.read p u.length)) 0).take u.length = u := by
  have hlen := length_fromP buf p
  rw [h, List.length_append] at hlen
  have hread : buf.read p u.length = u := by
    rw [← Buffer.take_read (n := BUF - p) (by omega), ← fromP, h, List.take_left]
  have := buf.read_write 0 BUF 0 u (by omega) (by omega)
  rw [Nat.zero_add] at this
  rw [hread, fromP, Nat.sub_zero, this, List.take_zero, List.nil_append, List.take_left]

/-- **The loop of grep**, with `cur` in the buffer. The induction is on the rounds left; each reads a byte. -/
theorem grepLoop_spec {k : Nat} {stream : List UInt8} (pattern : List UInt8) (choice : Nat → Nat)
    (cur out : List UInt8) (buf : Buffer BUF) (hk : stream.length < k) (hbuf : (fromP buf 0).take cur.length = cur) (hcur : cur.length < BUF)
    (hnl : newline ∉ cur) (h0 : 0 ∉ cur) (hs : 0 ∉ stream) :
    grepLoop pattern k choice stream buf cur.length out =
      out ++ matching pattern ((linesFrom cur stream).takeWhile short) := by
  induction k generalizing stream cur out buf with
  | zero => omega
  | succ k ih =>
    rw [grepLoop]
    dsimp only
    generalize hdata : read (choice k) stream (BUF - cur.length - 1) = data
    split
    · next hnil =>
      -- nothing read: the end of the input, or a buffer that is full of one line
      have hend : (linesFrom cur stream).takeWhile short = [] := by
        cases hl : linesFrom cur stream with
        | nil => rfl
        | cons l ls =>
          have hle : cur.length ≤ l.length := length_le_of_head_linesFrom (by rw [hl]; rfl)
          have hfull : BUF - cur.length - 1 = 0 := by
            cases stream with
            | nil => cases hl
            | cons c stream =>
              rw [hnil, read] at hdata
              have := List.take_eq_nil_iff.mp hdata
              simp only [reduceCtorEq, or_false] at this
              omega
          rw [List.takeWhile_cons, if_neg]
          unfold short
          simp only [decide_eq_true_eq]
          omega
      rw [hend]
      simp [matching]
    · next hne =>
      obtain ⟨rest, hstream⟩ : ∃ rest, stream = data ++ rest := ⟨_, by
        rw [← hdata, read]
        exact (List.take_append_drop _ stream).symm⟩
      have hlen : cur.length + data.length < BUF := by
        have : data.length ≤ BUF - cur.length - 1 := by
          rw [← hdata, read]
          exact (List.length_take_le _ _).trans (Nat.min_le_left _ _)
        omega
      rw [hstream] at hk hs ⊢
      have hdata0 : 0 < data.length := List.length_pos_iff.mpr hne
      rw [List.length_append] at hk
      have hrest0 : 0 ∉ rest := fun hm => hs (List.mem_append_right _ hm)
      have htext0 : 0 ∉ cur ++ data := fun hm =>
        (List.mem_append.mp hm).elim h0 fun hd => hs (List.mem_append_left _ hd)
      obtain ⟨w, hw⟩ := fromP_store hbuf hlen
      obtain ⟨buf', hscan, hbuf'⟩ := scan_spec (k := BUF) pattern out
        (by rw [List.length_append]; exact hlen) hw htext0
      obtain ⟨hlines, hsame⟩ := linesFrom_none [] hnl
      rw [linesFrom_append, restFrom_append, hlines, hsame, List.nil_append, List.nil_append] at hscan
      rw [restFrom_append, hsame, List.nil_append] at hbuf'
      rw [Nat.add_sub_cancel, hscan]
      dsimp only
      obtain ⟨hnl', x, hx⟩ := restFrom_spec data hnl
      have hle := congrArg List.length hx
      rw [List.length_append, List.length_append] at hle
      have hm : cur.length + data.length - (0 + ((cur ++ data).length - (restFrom cur data).length)) =
          (restFrom cur data).length := by
        rw [List.length_append]
        omega
      have hnext0 : 0 ∉ restFrom cur data := fun hm => htext0 (by rw [hx]; exact List.mem_append_right _ hm)
      rw [hm, List.drop_left, ih _ _ _ (by omega) (fromP_move hbuf') (by omega) hnl' hnext0 hrest0, List.append_assoc,
        linesFrom_append, takeWhile_short_append, matching_append]
      intro l hl
      have := length_lt_of_mem_linesFrom hl
      unfold short
      simp only [decide_eq_true_eq]
      omega

/-- The output of grep. -/
theorem grep_eq (pattern stream : List UInt8) (choice : Nat → Nat) (buf : Buffer BUF) (hs : 0 ∉ stream) :
    grep pattern choice stream buf = matching pattern ((lines stream).takeWhile short) := by
  unfold grep lines
  have h := grepLoop_spec pattern choice [] [] buf
    (Nat.lt_succ_self stream.length) (List.take_zero ..) (by decide) (by simp) (by simp) hs
  rwa [List.nil_append] at h

/-- **grep prints exactly the matching lines** if and only if no line matches from the first that does not fit in the
buffer on. -/
theorem grep_prints_matching_iff (pattern stream : List UInt8) (choice : Nat → Nat) (buf : Buffer BUF) (hs : 0 ∉ stream) :
    grep pattern choice stream buf = matching pattern (lines stream) ↔
      ∀ l ∈ (lines stream).dropWhile short, matchText pattern l = false := by
  rw [grep_eq pattern stream choice buf hs, ← matching_eq_nil]
  have hsplit : matching pattern (lines stream) =
      matching pattern ((lines stream).takeWhile short) ++ matching pattern ((lines stream).dropWhile short) := by
    rw [← matching_append, List.takeWhile_append_dropWhile]
  rw [hsplit, List.self_eq_append_right]

/-- "hi" and "b", read byte by byte, searched for "b". -/
theorem grep_prints_matching_hi : grep [98] (fun _ => 0) [104, 105, newline, 98, newline] (Buffer.fill 0) = [98, newline] := by
  have h := (grep_prints_matching_iff [98] [104, 105, newline, 98, newline] (fun _ => 0) (Buffer.fill 0) (by decide)).mpr
    (by decide)
  rw [h]
  decide

/-- A line of 1023 bytes 'a', and a line "b". -/
def longLine : List UInt8 := List.replicate 1023 97 ++ newline :: [98, newline]

/-- **The line behind the long one is lost**, with reads of at most 1023 bytes. -/
theorem grep_loses_line : grep [98] (fun _ => 1022) longLine (Buffer.fill 0) = [] ∧
    matching [98] (lines longLine) = [98, newline] := by
  have hna : newline ∉ List.replicate 1023 (97 : UInt8) := by
    rw [List.mem_replicate]
    exact fun h => absurd h.2 (by decide)
  have hlines : lines longLine = [List.replicate 1023 97, [98]] := (linesFrom_line hna).1
  have h0 : 0 ∉ longLine := by
    unfold longLine
    rw [List.mem_append, List.mem_replicate]
    rintro (h | h)
    · exact absurd h.2 (by decide)
    · exact absurd h (by decide)
  have hlong : short (List.replicate 1023 97) = false := by
    unfold short
    rw [List.length_replicate]
    rfl
  constructor
  · rw [grep_eq _ _ _ _ h0, hlines, List.takeWhile_cons, hlong]
    rfl
  · have hno (n : Nat) : matchText [98] (List.replicate n 97) = false := by
      change matchLoop [98] (List.replicate n 97) = false
      induction n with
      | zero => rfl
      | succ n ih =>
        rw [List.replicate_succ, matchLoop, ih]
        rfl
    rw [hlines, matching_cons, hno]
    decide

end Xv6.Grep
