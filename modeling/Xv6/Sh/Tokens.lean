/-
The token sequence of a command string, and what `gettoken` and `peek` make of
it: `gettoken` takes the first token of the rest of the string and moves the
cursor past it (`gettoken_cons`, `gettoken_nil`), `peek` looks at the first
character of that token and leaves the tokens as they are (`peek_tokens`).
-/
import Xv6.Sh.Model

namespace Xv6.Sh

/-! ## Tokens -/

inductive Tok where
  | word (w : List UInt8)
  | bar | lparen | rparen | semi | amp | lt | gt | gtgt
deriving DecidableEq, Repr

/-- The token of a symbol that stands alone. -/
def symTok (c : UInt8) : Option Tok :=
  if c = '|'.toUInt8 then some .bar
  else if c = '('.toUInt8 then some .lparen
  else if c = ')'.toUInt8 then some .rparen
  else if c = ';'.toUInt8 then some .semi
  else if c = '&'.toUInt8 then some .amp
  else if c = '<'.toUInt8 then some .lt
  else if c = '>'.toUInt8 then some .gt
  else none

/-- The first token of a string that starts with no whitespace, and what follows it. -/
def firstTok : List UInt8 → Option (Tok × List UInt8)
  | [] => none
  | c :: r =>
    if c = '>'.toUInt8 ∧ r.head? = some '>'.toUInt8 then some (.gtgt, r.tail)
    else match symTok c with
      | some t => some (t, r)
      | none => some (.word ((c :: r).takeWhile wordChar), (c :: r).dropWhile wordChar)

def isSpace (c : UInt8) : Bool := strchr whitespace c

theorem symTok_eq_none {c : UInt8} : symTok c = none ↔ strchr symbols c = false := by
  unfold symTok
  split_ifs <;> simp_all [strchr, symbols]

theorem wordChar_of_symTok {c : UInt8} (hc : isSpace c = false) (h : symTok c = none) : wordChar c = true := by
  rw [symTok_eq_none] at h
  rw [isSpace] at hc
  simp [wordChar, hc, h]

theorem dropWhile_length_le (p : UInt8 → Bool) (s : List UInt8) : (s.dropWhile p).length ≤ s.length :=
  (List.dropWhile_sublist p).length_le

/-- A token takes at least one character. -/
theorem firstTok_length {s r : List UInt8} {t : Tok} (hs : ∀ c ∈ s.head?, isSpace c = false)
    (h : firstTok s = some (t, r)) : r.length < s.length := by
  cases s with
  | nil => simp [firstTok] at h
  | cons c s =>
    simp only [firstTok] at h
    split at h
    · simp only [Option.some.injEq, Prod.mk.injEq] at h
      simp [← h.2]
    · split at h
      · simp only [Option.some.injEq, Prod.mk.injEq] at h
        simp [← h.2]
      next hsym =>
        simp only [Option.some.injEq, Prod.mk.injEq] at h
        rw [← h.2, List.dropWhile_cons_of_pos (wordChar_of_symTok (hs c rfl) hsym)]
        exact Nat.lt_succ_of_le (dropWhile_length_le _ _)

theorem head_dropWhile (s : List UInt8) : ∀ c ∈ (s.dropWhile isSpace).head?, isSpace c = false := by
  intro c hc
  have := List.head?_dropWhile_not isSpace s
  simp_all

def tokens (s : List UInt8) : List Tok :=
  match _h : firstTok (s.dropWhile isSpace) with
  | none => []
  | some (t, r) => t :: tokens r
termination_by s.length
decreasing_by
  exact (firstTok_length (head_dropWhile s) _h).trans_le (dropWhile_length_le _ _)

theorem firstTok_eq_none {s : List UInt8} : firstTok s = none ↔ s = [] := by
  cases s with
  | nil => simp [firstTok]
  | cons c r =>
    simp only [firstTok]
    split
    · simp
    · split <;> simp

theorem tokens_eq_nil {s : List UInt8} : tokens s = [] ↔ s.dropWhile isSpace = [] := by
  rw [tokens, ← firstTok_eq_none]
  split <;> simp_all

theorem tokens_eq_cons {s : List UInt8} {t : Tok} {ts : List Tok} :
    tokens s = t :: ts ↔ ∃ r, firstTok (s.dropWhile isSpace) = some (t, r) ∧ tokens r = ts := by
  rw [tokens]
  split <;> simp_all

theorem tokens_dropWhile (s : List UInt8) : tokens (s.dropWhile isSpace) = tokens s := by
  have h : (s.dropWhile isSpace).dropWhile isSpace = s.dropWhile isSpace := List.dropWhile_idempotent ..
  cases ht : tokens s with
  | nil => rwa [tokens_eq_nil, h, ← tokens_eq_nil]
  | cons t ts => rwa [tokens_eq_cons, h, ← tokens_eq_cons]

namespace Tok

/-- What `gettoken` returns for the token. -/
def code : Tok → UInt8
  | word _ => 'a'.toUInt8
  | bar => '|'.toUInt8
  | lparen => '('.toUInt8
  | rparen => ')'.toUInt8
  | semi => ';'.toUInt8
  | amp => '&'.toUInt8
  | lt => '<'.toUInt8
  | gt => '>'.toUInt8
  | gtgt => '+'.toUInt8

/-- The symbol that the token starts with. -/
def symbol : Tok → Option Char
  | word _ => none
  | bar => '|'
  | lparen => '('
  | rparen => ')'
  | semi => ';'
  | amp => '&'
  | lt => '<'
  | gt | gtgt => '>'

/-- Whether the token starts with one of `toks`. -/
def among (toks : List Char) (t : Tok) : Bool := t.symbol.any toks.contains

theorem code_ne_zero (t : Tok) : t.code ≠ 0 := by
  cases t <;> simp only [code] <;> decide

theorem code_eq_word {t : Tok} (h : t.code = 'a'.toUInt8) : ∃ w, t = word w := by
  cases t with
  | word w => exact ⟨w, rfl⟩
  | _ => exact absurd h (by decide)

theorem among_eq_true {toks : List Char} {t : Tok} : t.among toks = true ↔ ∃ c ∈ toks, t.symbol = some c := by
  cases h : t.symbol <;> simp [among, h]

end Tok

/-! ## The cursor -/

section
variable {s : List UInt8} {i q : Nat} {p : UInt8 → Bool}

theorem charAt_of_drop {c : UInt8} {r : List UInt8} (h : s.drop i = c :: r) : charAt s i = c := by
  have : s[i]? = some c := by
    rw [← Nat.add_zero i, ← List.getElem?_drop, h]
    rfl
  simp [charAt, this]

theorem charAt_of_drop_nil (h : s.drop i = []) : charAt s i = 0 := by
  simp_all [charAt]

theorem drop_succ {c : UInt8} {r : List UInt8} (h : s.drop i = c :: r) : s.drop (i + 1) = r := by
  rw [← List.drop_drop, h]
  rfl

theorem lt_of_drop {c : UInt8} {r : List UInt8} (h : s.drop i = c :: r) : i < s.length := by
  by_contra hi
  simp [List.drop_eq_nil_of_le (not_lt.mp hi)] at h

/-- The loop stops at the first character that fails the test, or at the end. -/
theorem scanLoop_eq (p : UInt8 → Bool) :
    ∀ {n i : Nat}, i + n = s.length → scanLoop s p n i = i + ((s.drop i).takeWhile p).length
  | 0, i, hi => by simp [scanLoop, List.drop_eq_nil_of_le (show s.length ≤ i by omega)]
  | n + 1, i, hi => by
    cases h : s.drop i with
    | nil => simp at h; omega
    | cons c r =>
      rw [scanLoop, charAt_of_drop h]
      by_cases hc : p c
      · rw [if_pos hc, scanLoop_eq p (by omega), drop_succ h, List.takeWhile_cons_of_pos hc]
        simp
        omega
      · rw [if_neg hc, List.takeWhile_cons_of_neg hc]
        rfl

theorem scan_eq (hi : i ≤ s.length) : scan s p i = i + ((s.drop i).takeWhile p).length :=
  scanLoop_eq p (by omega)

theorem scan_le (hi : i ≤ s.length) : scan s p i ≤ s.length := by
  have := (List.takeWhile_sublist p (l := s.drop i)).length_le
  rw [scan_eq hi]
  simp at this
  omega

theorem drop_scan (hi : i ≤ s.length) : s.drop (scan s p i) = (s.drop i).dropWhile p := by
  rw [scan_eq hi, ← List.drop_drop]
  nth_rewrite 2 [← List.takeWhile_append_dropWhile (p := p) (l := s.drop i)]
  exact List.drop_left

/-- The word `w` stands between the two cursors, and is a maximal run. -/
def Spans (s : List UInt8) (a : Cursors) (w : List UInt8) : Prop :=
  a.2 = a.1 + w.length ∧ (s.drop a.1).takeWhile wordChar = w

/-- The characters of `symbols[]`. -/
def syms : List Char := ['<', '|', '>', '&', ';', '(', ')']

theorem symTok_symbol {c : UInt8} {t : Tok} (h : symTok c = some t) :
    ∃ d ∈ syms, t.symbol = some d ∧ d.toUInt8 = c := by
  unfold symTok at h
  split_ifs at h <;> cases h <;> exact ⟨_, by decide, rfl, by simp_all⟩

theorem symTok_code {c : UInt8} {t : Tok} (h : symTok c = some t) :
    t.code = c ∧ (c ∈ ['|', '(', ')', ';', '&', '<'].map Char.toUInt8 ∨ c = '>'.toUInt8) ∧ ∀ w, t ≠ .word w := by
  unfold symTok at h
  split_ifs at h <;> cases h <;> simp_all [Tok.code]

theorem kindAt_tok {t : Tok} {r : List UInt8} (hs : 0 ∉ s) (hq : q ≤ s.length)
    (h : firstTok (s.drop q) = some (t, r)) :
    (kindAt s q).1 = t.code ∧ s.drop (kindAt s q).2 = r ∧ (kindAt s q).2 ≤ s.length ∧
      ∀ w, t = .word w → Spans s (q, (kindAt s q).2) w := by
  cases hd : s.drop q with
  | nil => simp [hd, firstTok] at h
  | cons c r' =>
    have hc : charAt s q = c := charAt_of_drop hd
    have hlt : q < s.length := lt_of_drop hd
    have h0 : c ≠ 0 := fun h0 => hs (h0 ▸ List.mem_of_mem_drop (hd ▸ List.mem_cons_self))
    have hnext : s.drop (q + 1) = r' := drop_succ hd
    simp only [hd, firstTok] at h
    split at h
    next hgt =>
      -- `>>`
      simp only [Option.some.injEq, Prod.mk.injEq] at h
      obtain ⟨rfl, rfl⟩ := h
      cases r' with
      | nil => simp at hgt
      | cons d r' =>
        have hd' : charAt s (q + 1) = '>'.toUInt8 := by
          rw [charAt_of_drop hnext]; simpa using hgt.2
        have hk : kindAt s q = ('+'.toUInt8, q + 2) := by
          simp only [kindAt, hc, hgt.1, hd']
          rfl
        rw [hk]
        exact ⟨rfl, drop_succ hnext, lt_of_drop hnext, by simp⟩
    next hgt =>
      split at h
      next t' hsym =>
        simp only [Option.some.injEq, Prod.mk.injEq] at h
        obtain ⟨rfl, rfl⟩ := h
        obtain ⟨hcode, hsix, hword⟩ := symTok_code hsym
        have hk : kindAt s q = (c, q + 1) := by
          simp only [kindAt, hc, if_neg h0]
          obtain hsix | rfl := hsix
          · rw [if_pos hsix]
          · have : charAt s (q + 1) ≠ '>'.toUInt8 := by
              intro hch
              cases hr : r' with
              | nil => rw [charAt_of_drop_nil (hnext.trans hr)] at hch; exact absurd hch (by decide)
              | cons d r'' =>
                rw [charAt_of_drop (hnext.trans hr)] at hch
                exact hgt ⟨rfl, by simp [hr, hch]⟩
            rw [if_neg this]
            rfl
        rw [hk]
        exact ⟨hcode.symm, hnext, hlt, fun w hw => absurd hw (hword w)⟩
      next hsym =>
        simp only [Option.some.injEq, Prod.mk.injEq] at h
        obtain ⟨rfl, rfl⟩ := h
        have hns : strchr symbols c = false := symTok_eq_none.mp hsym
        have hk : kindAt s q = ('a'.toUInt8, scan s wordChar q) := by
          simp only [kindAt, hc, if_neg h0]
          rw [if_neg (by simp_all [strchr, symbols]), if_neg (by simp_all [strchr, symbols])]
        rw [hk]
        refine ⟨rfl, by rw [drop_scan hq, hd], scan_le hq, ?_⟩
        rintro w hw
        cases hw
        exact ⟨by rw [scan_eq hq, hd], by rw [hd]⟩

/-- The tokens from a cursor on. -/
def rest (s : List UInt8) (i : Nat) : List Tok := tokens (s.drop i)

theorem rest_scan (hi : i ≤ s.length) : rest s (scan s isSpace i) = rest s i := by
  rw [rest, drop_scan hi, tokens_dropWhile]
  rfl

theorem gettoken_cons {t : Tok} {ts : List Tok} (hs : 0 ∉ s) (hi : i ≤ s.length) (h : rest s i = t :: ts) :
    (gettoken s i).tok = t.code ∧ rest s (gettoken s i).ps = ts ∧ (gettoken s i).ps ≤ s.length ∧
      ∀ w, t = .word w → Spans s ((gettoken s i).q, (gettoken s i).eq) w := by
  obtain ⟨r, hfirst, hr⟩ := tokens_eq_cons.mp h
  rw [← drop_scan hi] at hfirst
  obtain ⟨htok, hdrop, hle, hword⟩ := kindAt_tok hs (scan_le hi) hfirst
  exact ⟨htok, (rest_scan hle).trans (by rw [rest, hdrop, hr]), scan_le hle, hword⟩

theorem gettoken_nil (hi : i ≤ s.length) (h : rest s i = []) :
    (gettoken s i).tok = 0 ∧ rest s (gettoken s i).ps = [] ∧ (gettoken s i).ps ≤ s.length := by
  have hd : s.drop (scan s isSpace i) = [] := by
    rw [drop_scan hi]
    exact tokens_eq_nil.mp h
  have hk : kindAt s (scan s isSpace i) = (0, scan s isSpace i) := by
    simp [kindAt, charAt_of_drop_nil hd]
  have hg : gettoken s i = ⟨0, scan s isSpace i, scan s isSpace i, scan s isSpace (scan s isSpace i)⟩ := by
    change Got.mk (kindAt s (scan s isSpace i)).1 _ (kindAt s (scan s isSpace i)).2
      (scan s isSpace (kindAt s (scan s isSpace i)).2) = _
    rw [hk]
    rfl
  rw [hg]
  exact ⟨rfl, by rw [rest_scan (scan_le hi), rest_scan hi, h], scan_le (scan_le hi)⟩

theorem strchr_map {toks : List Char} {d : Char} (hd : d ∈ syms) (htoks : toks ⊆ syms) :
    strchr (toks.map Char.toUInt8) d.toUInt8 = toks.contains d := by
  have hnodup : (syms.map Char.toUInt8).Nodup := by decide
  rw [Bool.eq_iff_iff]
  simp only [strchr, List.contains_iff_mem, List.mem_map]
  exact ⟨fun ⟨c, hc, hcd⟩ => List.inj_on_of_nodup_map hnodup (htoks hc) hd hcd ▸ hc, fun h => ⟨d, h, rfl⟩⟩

theorem firstTok_among {c : UInt8} {r r' : List UInt8} {t : Tok} {toks : List Char}
    (htoks : toks ⊆ syms) (h : firstTok (c :: r) = some (t, r')) :
    t.among toks = strchr (toks.map Char.toUInt8) c := by
  simp only [firstTok] at h
  split at h
  next hgt =>
    cases h
    rw [hgt.1, strchr_map (by decide) htoks]
    rfl
  · split at h
    next t' hsym =>
      cases h
      obtain ⟨d, hd, hsymbol, rfl⟩ := symTok_symbol hsym
      rw [strchr_map hd htoks, Tok.among, hsymbol]
      rfl
    next hsym =>
      cases h
      have : ∀ d ∈ syms, d.toUInt8 ≠ c := by
        rintro d hd rfl
        have hsymbol : strchr symbols d.toUInt8 = true := List.contains_iff_mem.mpr (List.mem_map_of_mem hd)
        simp [symTok_eq_none.mp hsym] at hsymbol
      simp only [Tok.among, Tok.symbol, strchr, Option.any_none, Bool.false_eq, List.contains_eq_mem]
      simpa using fun d hd => this d (htoks hd)

/-- `peek` answers whether the next token starts with one of `toks`, and moves
the cursor over whitespace only. -/
theorem peek_tokens (toks : List Char) (hs : 0 ∉ s) (hi : i ≤ s.length)
    (htoks : toks ⊆ syms) :
    (peek s i toks).1 = (rest s i).head?.any (Tok.among toks) ∧ rest s (peek s i toks).2 = rest s i ∧
      (peek s i toks).2 ≤ s.length := by
  refine ⟨?_, rest_scan hi, scan_le hi⟩
  change decide (charAt s (scan s isSpace i) ≠ 0 ∧ strchr _ (charAt s (scan s isSpace i)) = true) = _
  cases hd : s.drop (scan s isSpace i) with
  | nil =>
    have hnil : rest s i = [] := tokens_eq_nil.mpr (by rw [← drop_scan hi, hd])
    simp [charAt_of_drop_nil hd, hnil]
  | cons c r =>
    have h0 : c ≠ 0 := fun h0 => hs (h0 ▸ List.mem_of_mem_drop (hd ▸ List.mem_cons_self))
    cases hr : rest s i with
    | nil =>
      rw [rest, tokens_eq_nil, ← drop_scan hi, hd] at hr
      cases hr
    | cons t ts =>
      obtain ⟨r', hfirst, -⟩ := tokens_eq_cons.mp hr
      rw [← drop_scan hi, hd] at hfirst
      simp [charAt_of_drop hd, h0, firstTok_among htoks hfirst]

/-- Only whitespace is left exactly if no token is. -/
theorem peek_end (toks : List Char) (hi : i ≤ s.length) : (peek s i toks).2 = s.length ↔ rest s i = [] := by
  have hle : scan s isSpace i ≤ s.length := scan_le hi
  rw [rest, tokens_eq_nil, ← drop_scan hi, List.drop_eq_nil_iff]
  exact ⟨fun h => h.ge, fun h => le_antisymm hle h⟩

end

end Xv6.Sh
