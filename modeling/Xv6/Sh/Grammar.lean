/-
The grammar of the shell's command language, and that the parser follows it.

The parser looks one token ahead and its grammar is deterministic, so the two
directions go separately. With budget enough for the tokens left a call
answers, and what it returns is what the tokens it moved over derive
(`parse_answers`, by induction on the budget). Where tokens derive a tree and a
token follows that can follow, the call returns that tree (`parse_finds`, by
induction on the derivation).
-/
import Xv6.Sh.Tokens

namespace Xv6.Sh

/-! ## The grammar -/

structure Redirection where
  file : List UInt8
  mode : Nat
  fd : Nat

/-- One REDIR around the tree. -/
def Cmd.redirect (c : Cmd (List UInt8)) (r : Redirection) : Cmd (List UInt8) := .redir c r.file r.mode r.fd

/-- `redir ::= ('<' | '>' | '>>') word` -/
inductive Redir : Tok → List UInt8 → Redirection → Prop
  | lt {w : List UInt8} : Redir .lt w ⟨w, O_RDONLY, 0⟩
  | gt {w : List UInt8} : Redir .gt w ⟨w, O_WRONLY ||| O_CREATE ||| O_TRUNC, 1⟩
  | gtgt {w : List UInt8} : Redir .gtgt w ⟨w, O_WRONLY ||| O_CREATE, 1⟩

/-- `redir*` -/
inductive Redirs : List Tok → List Redirection → Prop
  | nil : Redirs [] []
  | cons {op : Tok} {w : List UInt8} {r : Redirection} {u : List Tok} {rs : List Redirection}
      (hr : Redir op w r) (hu : Redirs u rs) : Redirs (op :: .word w :: u) (r :: rs)

/-- `(word redir*)*`: the words, and the redirections between them. -/
inductive Args : List Tok → List (List UInt8) → List Redirection → Prop
  | nil : Args [] [] []
  | cons {w : List UInt8} {u v : List Tok} {ws : List (List UInt8)} {rs rs' : List Redirection}
      (hu : Redirs u rs) (hv : Args v ws rs') : Args (.word w :: (u ++ v)) (w :: ws) (rs ++ rs')

inductive Symbol where
  | line | pipe | exec

/-- The tokens that derive from a symbol of the grammar, with the tree that the
derivation denotes:
`line ::= pipe '&'* [';' line]`, `pipe ::= exec ['|' pipe]` and
`exec ::= '(' line ')' redir* | redir* (word redir*)*`, the latter with fewer
than `MAXARGS` words. -/
inductive Derives : Symbol → List Tok → Cmd (List UInt8) → Prop
  | line {u : List Tok} {c : Cmd (List UInt8)} (k : Nat) (hu : Derives .pipe u c) :
      Derives .line (u ++ List.replicate k .amp) (Cmd.back^[k] c)
  | seq {u v : List Tok} {c d : Cmd (List UInt8)} (k : Nat) (hu : Derives .pipe u c) (hv : Derives .line v d) :
      Derives .line (u ++ List.replicate k .amp ++ .semi :: v) (.list (Cmd.back^[k] c) d)
  | one {u : List Tok} {c : Cmd (List UInt8)} (hu : Derives .exec u c) : Derives .pipe u c
  | pipe {u v : List Tok} {c d : Cmd (List UInt8)} (hu : Derives .exec u c) (hv : Derives .pipe v d) :
      Derives .pipe (u ++ .bar :: v) (.pipe c d)
  | block {u v : List Tok} {c : Cmd (List UInt8)} {rs : List Redirection}
      (hu : Derives .line u c) (hv : Redirs v rs) :
      Derives .exec (.lparen :: (u ++ .rparen :: v)) (rs.foldl Cmd.redirect c)
  | simple {u v : List Tok} {ws : List (List UInt8)} {rs rs' : List Redirection}
      (hu : Redirs u rs) (hv : Args v ws rs') (hlen : ws.length < MAXARGS) :
      Derives .exec (u ++ v) ((rs ++ rs').foldl Cmd.redirect (.exec ws))

/-! ## Trees of cursors and trees of words -/

/-- The tree `t` is `c` with its words written out. -/
inductive Spells (s : List UInt8) : Cmd Cursors → Cmd (List UInt8) → Prop
  | exec {argv : List Cursors} {ws : List (List UInt8)} (h : List.Forall₂ (Spans s) argv ws) :
      Spells s (.exec argv) (.exec ws)
  | redir {c : Cmd Cursors} {t : Cmd (List UInt8)} {a : Cursors} {w : List UInt8} {mode fd : Nat}
      (h : Spells s c t) (hw : Spans s a w) : Spells s (.redir c a mode fd) (.redir t w mode fd)
  | pipe {c d : Cmd Cursors} {t u : Cmd (List UInt8)} (hl : Spells s c t) (hr : Spells s d u) :
      Spells s (.pipe c d) (.pipe t u)
  | list {c d : Cmd Cursors} {t u : Cmd (List UInt8)} (hl : Spells s c t) (hr : Spells s d u) :
      Spells s (.list c d) (.list t u)
  | back {c : Cmd Cursors} {t : Cmd (List UInt8)} (h : Spells s c t) : Spells s (.back c) (.back t)

variable {s : List UInt8}

theorem Spells.pushArg {c : Cmd Cursors} {t : Cmd (List UInt8)} {a : Cursors} {w : List UInt8}
    (h : Spells s c t) (hw : Spans s a w) : Spells s (c.pushArg a) (t.pushArg w) := by
  induction h with
  | exec h => exact .exec (List.rel_append h (.cons hw .nil))
  | redir h hf ih => exact .redir ih hf
  | pipe hl hr => exact .pipe hl hr
  | list hl hr => exact .list hl hr
  | back h => exact .back h

theorem pushArg_redirects (rs : List Redirection) (c : Cmd (List UInt8)) (w : List UInt8) :
    (rs.foldl Cmd.redirect c).pushArg w = rs.foldl Cmd.redirect (c.pushArg w) := by
  induction rs generalizing c with
  | nil => rfl
  | cons r rs ih => exact ih (c.redirect r)

/-- The node `parseredirs` makes for an operator. -/
theorem Spells.redircmd {c : Cmd Cursors} {t : Cmd (List UInt8)} {a : Cursors} {w : List UInt8} {op : Tok}
    {r : Redirection} (h : Spells s c t) (hw : Spans s a w) (hr : Redir op w r) :
    Spells s (Sh.redircmd op.code c a) (t.redirect r) := by
  cases hr <;> exact .redir h hw

/-! ## What a function of the parser answers

`Moves s i u j` says that the cursor went from `i` over the tokens `u` to `j`. -/

structure Moves (s : List UInt8) (i : Nat) (u : List Tok) (j : Nat) : Prop where
  le : j ≤ s.length
  rest : rest s i = u ++ rest s j

namespace Moves

variable {i j k : Nat} {u v : List Tok}

theorem trans (h : Moves s i u j) (h' : Moves s j v k) : Moves s i (u ++ v) k :=
  ⟨h'.le, by rw [h.rest, h'.rest, List.append_assoc]⟩

theorem length (h : Moves s i u j) : (Sh.rest s i).length = u.length + (Sh.rest s j).length := by
  rw [h.rest, List.length_append]

end Moves

section
variable (hs : 0 ∉ s) {i : Nat} (hi : i ≤ s.length)
include hs hi

theorem peek_eq (toks : List Char) (htoks : toks ⊆ syms) :
    ∃ j, Moves s i [] j ∧ peek s i toks = ((rest s i).head?.any (Tok.among toks), j) := by
  obtain ⟨hans, hrest, hle⟩ := peek_tokens toks hs hi htoks
  exact ⟨_, ⟨hle, hrest.symm⟩, Prod.ext hans rfl⟩

theorem gettoken_takes {t : Tok} {ts : List Tok} (h : rest s i = t :: ts) :
    (gettoken s i).tok = t.code ∧ Moves s i [t] (gettoken s i).ps ∧
      ∀ w, t = .word w → Spans s ((gettoken s i).q, (gettoken s i).eq) w := by
  obtain ⟨htok, hts, hle, hw⟩ := gettoken_cons hs hi h
  exact ⟨htok, ⟨hle, by rw [h, hts]; rfl⟩, hw⟩

/-- `gettoken` returns `'a'` for a word only. -/
theorem gettoken_word (h : (gettoken s i).tok = 'a'.toUInt8) :
    ∃ w, Moves s i [.word w] (gettoken s i).ps ∧ Spans s ((gettoken s i).q, (gettoken s i).eq) w := by
  cases hr : rest s i with
  | nil =>
    rw [(gettoken_nil hi hr).1] at h
    exact absurd h (by decide)
  | cons t ts =>
    obtain ⟨htok, hmoves, hw⟩ := gettoken_takes hs hi hr
    obtain ⟨w, rfl⟩ := Tok.code_eq_word (htok ▸ h)
    exact ⟨w, hmoves, hw w rfl⟩

/-- `gettoken` returns 0 at the end of the string only. -/
theorem gettoken_zero (h : (gettoken s i).tok = 0) : Moves s i [] (gettoken s i).ps := by
  cases hr : rest s i with
  | nil =>
    obtain ⟨-, hrest, hle⟩ := gettoken_nil hi hr
    exact ⟨hle, by rw [hr, hrest]; rfl⟩
  | cons t ts =>
    rw [(gettoken_takes hs hi hr).1] at h
    exact absurd h t.code_ne_zero

end

/-- A call answers: with a tree that `P` relates to the tokens moved over, or
with a panic, but not for want of budget. -/
def Answers (s : List UInt8) (P : Cmd Cursors → List Tok → Prop) (i : Nat) : Parse (Cmd Cursors × Nat) → Prop
  | .ok (c, j) => ∃ u, Moves s i u j ∧ P c u
  | .panic _ => True
  | .hungry => False

namespace Answers

variable {P Q : Cmd Cursors → List Tok → Prop} {i j : Nat} {x : Parse (Cmd Cursors × Nat)}

theorem after {u : List Tok} (hm : Moves s i u j) (h : Answers s P j x) (hPQ : ∀ c v, P c v → Q c (u ++ v)) :
    Answers s Q i x := by
  match x, h with
  | .ok (c, k), ⟨v, hv, hP⟩ => exact ⟨u ++ v, hm.trans hv, hPQ c v hP⟩
  | .panic _, _ => trivial

theorem bind {f : Cmd Cursors × Nat → Parse (Cmd Cursors × Nat)} (h : Answers s P i x)
    (hf : ∀ c j u, Moves s i u j → P c u → Answers s Q i (f (c, j))) : Answers s Q i (x >>= f) := by
  match x, h with
  | .ok (c, j), ⟨u, hu, hP⟩ => exact hf c j u hu hP
  | .panic _, _ => trivial

theorem ok {c : Cmd Cursors} {u : List Tok} (hm : Moves s i u j) (hP : P c u) : Answers s P i (.ok (c, j)) :=
  ⟨u, hm, hP⟩

end Answers

/-! ## The loops -/

section
variable (hs : 0 ∉ s)
include hs

theorem parseredirs_answers : ∀ {fuel i : Nat} {c : Cmd Cursors} {t : Cmd (List UInt8)}, i ≤ s.length →
    (rest s i).length < fuel → Spells s c t →
    Answers s (fun c' u => ∃ rs, Redirs u rs ∧ Spells s c' (rs.foldl Cmd.redirect t)) i (parseredirs s fuel c i)
  | fuel + 1, i, c, t, hi, hfuel, hc => by
    obtain ⟨j, hj, hpeek⟩ := peek_eq hs hi ['<', '>'] (by decide)
    simp only [parseredirs, hpeek]
    split
    next hmore =>
      -- the operator
      cases hr : rest s j with
      | nil => simp [hj.rest, hr] at hmore
      | cons op ts =>
        obtain ⟨htok, hop, -⟩ := gettoken_takes hs hj.le hr
        have hamong : op.among ['<', '>'] = true := by simpa [hj.rest, hr] using hmore
        split
        · trivial
        next hfile =>
          obtain ⟨w, hw, hspan⟩ := gettoken_word hs hop.le (not_not.mp hfile)
          obtain ⟨r, hred⟩ : ∃ r, Redir op w r := by
            cases op with
            | lt => exact ⟨_, .lt⟩
            | gt => exact ⟨_, .gt⟩
            | gtgt => exact ⟨_, .gtgt⟩
            | _ => simp [Tok.among_eq_true, Tok.symbol] at hamong
          have hmoves := (hj.trans hop).trans hw
          have hlen := hmoves.length
          rw [htok]
          refine (parseredirs_answers hw.le (by simp at hlen; omega) (hc.redircmd hspan hred)).after hmoves ?_
          rintro c' v ⟨rs, hrs, hspells⟩
          exact ⟨r :: rs, .cons hred hrs, hspells⟩
    · exact .ok hj ⟨[], .nil, hc⟩

theorem parsebacks_answers : ∀ {fuel i : Nat} {c : Cmd Cursors} {t : Cmd (List UInt8)}, i ≤ s.length →
    (rest s i).length < fuel → Spells s c t →
    Answers s (fun c' u => ∃ k, u = List.replicate k .amp ∧ Spells s c' (Cmd.back^[k] t)) i (parsebacks s fuel c i)
  | fuel + 1, i, c, t, hi, hfuel, hc => by
    obtain ⟨j, hj, hpeek⟩ := peek_eq hs hi ['&'] (by decide)
    simp only [parsebacks, hpeek]
    split
    next hmore =>
      cases hr : rest s j with
      | nil => simp [hj.rest, hr] at hmore
      | cons op ts =>
        obtain ⟨-, hop, -⟩ := gettoken_takes hs hj.le hr
        obtain rfl : op = .amp := by
          have hamong : op.among ['&'] = true := by simpa [hj.rest, hr] using hmore
          cases op <;> simp_all [Tok.among_eq_true, Tok.symbol]
        have hmoves := hj.trans hop
        have hlen := hmoves.length
        refine (parsebacks_answers hop.le (by simp at hlen; omega) (.back hc)).after hmoves ?_
        rintro c' v ⟨k, rfl, hspells⟩
        exact ⟨k + 1, rfl, hspells⟩
    · exact .ok hj ⟨0, rfl, hc⟩

theorem parseargs_answers : ∀ {fuel i argc : Nat} {ret : Cmd Cursors} {ws : List (List UInt8)}
    {rs : List Redirection}, i ≤ s.length → (rest s i).length < fuel → argc = ws.length → argc < MAXARGS →
    Spells s ret (rs.foldl Cmd.redirect (.exec ws)) →
    Answers s (fun ret' u => ∃ ws' rs', Args u ws' rs' ∧ (ws ++ ws').length < MAXARGS ∧
      Spells s ret' ((rs ++ rs').foldl Cmd.redirect (.exec (ws ++ ws')))) i (parseargs s fuel ret argc i)
  | fuel + 1, i, argc, ret, ws, rs, hi, hfuel, hargc, hmax, hret => by
    have hstop : ∀ j, Moves s i [] j → Answers s (fun ret' u => ∃ ws' rs', Args u ws' rs' ∧
        (ws ++ ws').length < MAXARGS ∧ Spells s ret' ((rs ++ rs').foldl Cmd.redirect (.exec (ws ++ ws')))) i
        (.ok (ret, j)) := fun j hj =>
      .ok hj ⟨[], [], .nil, by simpa [← hargc] using hmax, by simpa using hret⟩
    obtain ⟨j, hj, hpeek⟩ := peek_eq hs hi ['|', ')', '&', ';'] (by decide)
    simp only [parseargs, hpeek]
    split
    · exact hstop j hj
    split
    next hzero => exact hstop _ (hj.trans (gettoken_zero hs hj.le hzero))
    split
    · trivial
    next hword =>
    split
    · trivial
    next hroom =>
      obtain ⟨w, hw, hspan⟩ := gettoken_word hs hj.le (not_not.mp hword)
      have hmoves := hj.trans hw
      have hlen := hmoves.length
      have hpush := hret.pushArg hspan
      rw [pushArg_redirects] at hpush
      refine .after hmoves ((parseredirs_answers hs hw.le (by simp at hlen; omega) hpush).bind ?_)
        (P := fun ret' v => ∃ ws' rs', Args (.word w :: v) ws' rs' ∧ (ws ++ ws').length < MAXARGS ∧
          Spells s ret' ((rs ++ rs').foldl Cmd.redirect (.exec (ws ++ ws')))) fun _ _ h => h
      rintro ret k u hk ⟨rs₁, hrs₁, hspells⟩
      rw [← List.foldl_append] at hspells
      have hlen' := hk.length
      refine (parseargs_answers hk.le (by simp at hlen; omega) (by simp [hargc]) (by omega) hspells).after hk ?_
      rintro ret' v ⟨ws', rs₂, hargs, hroom', hspells'⟩
      exact ⟨w :: ws', rs₁ ++ rs₂, .cons hrs₁ hargs, by simpa using hroom', by simpa using hspells'⟩

/-! ## The five functions -/

/-- A `peek` for one symbol that is there, and the `gettoken` over it. -/
theorem take_symbol {i j : Nat} {ch : Char} (op : Tok) (hj : Moves s i [] j)
    (hop : ∀ t : Tok, t.among [ch] = true → t = op) (hmore : (rest s i).head?.any (Tok.among [ch]) = true) :
    Moves s i [op] (gettoken s j).ps := by
  cases hr : rest s j with
  | nil => simp [hj.rest, hr] at hmore
  | cons t ts =>
    obtain ⟨-, ht, -⟩ := gettoken_takes hs hj.le hr
    rw [← hop t (by simpa [hj.rest, hr] using hmore)]
    exact hj.trans ht

omit hs in
/-- The tree of cursors `c` is one that the tokens derive. -/
def Denotes (s : List UInt8) (n : Symbol) (c : Cmd Cursors) (u : List Tok) : Prop :=
  ∃ t, Derives n u t ∧ Spells s c t

/-- From every cursor from which the budget is enough for the tokens left. -/
def Covers (s : List UInt8) (n : Symbol) (extra fuel : Nat) (f : Nat → Parse (Cmd Cursors × Nat)) : Prop :=
  ∀ ⦃i⦄, i ≤ s.length → 4 * (rest s i).length + extra ≤ fuel → Answers s (Denotes s n) i (f i)

variable {fuel : Nat}

theorem parseline_answers (hpipe : Covers s .pipe 4 fuel (parsepipe s fuel))
    (hline : Covers s .line 5 fuel (parseline s fuel)) : Covers s .line 5 (fuel + 1) (parseline s (fuel + 1)) := by
  intro i hi hfuel
  rw [parseline]
  refine (hpipe hi (by omega)).bind ?_
  rintro c j u hj ⟨t, ht, hc⟩
  have hlen := hj.length
  refine .after hj ((parsebacks_answers hs hj.le (by omega) hc).bind ?_)
    (P := fun c v => Denotes s .line c (u ++ v)) fun _ _ h => h
  rintro c k _ hk ⟨n, rfl, hc⟩
  have hlen' := hk.length
  obtain ⟨l, hl, hpeek⟩ := peek_eq hs hk.le [';'] (by decide)
  simp only [hpeek]
  split
  next hmore =>
    have hsemi := take_symbol hs .semi hl (by rintro (_ | _) <;> simp [Tok.among_eq_true, Tok.symbol]) hmore
    have hlen'' := hsemi.length
    refine .after (hk.trans hsemi) ((hline hsemi.le (by simp at hlen''; omega)).bind ?_)
      (P := fun c v => Denotes s .line c (u ++ List.replicate n .amp ++ .semi :: v)) (by simp)
    rintro d m v hm ⟨t', ht', hd⟩
    exact .ok hm ⟨_, .seq n ht ht', .list hc hd⟩
  · exact .ok (hk.trans hl) ⟨_, by simpa using .line n ht, hc⟩

theorem parsepipe_answers (hexec : Covers s .exec 3 fuel (parseexec s fuel))
    (hpipe : Covers s .pipe 4 fuel (parsepipe s fuel)) : Covers s .pipe 4 (fuel + 1) (parsepipe s (fuel + 1)) := by
  intro i hi hfuel
  rw [parsepipe]
  refine (hexec hi (by omega)).bind ?_
  rintro c j u hj ⟨t, ht, hc⟩
  have hlen := hj.length
  obtain ⟨l, hl, hpeek⟩ := peek_eq hs hj.le ['|'] (by decide)
  simp only [hpeek]
  split
  next hmore =>
    have hbar := take_symbol hs .bar hl (by rintro (_ | _) <;> simp [Tok.among_eq_true, Tok.symbol]) hmore
    have hlen' := hbar.length
    refine .after (hj.trans hbar) ((hpipe hbar.le (by simp at hlen'; omega)).bind ?_)
      (P := fun c v => Denotes s .pipe c (u ++ .bar :: v)) (by simp)
    rintro d m v hm ⟨t', ht', hd⟩
    exact .ok hm ⟨_, .pipe ht ht', .pipe hc hd⟩
  · exact .ok (hj.trans hl) ⟨_, by simpa using .one ht, hc⟩

theorem parseblock_answers (hline : Covers s .line 5 fuel (parseline s fuel)) :
    Covers s .exec 2 (fuel + 1) (parseblock s (fuel + 1)) := by
  intro i hi hfuel
  obtain ⟨j, hj, hpeek⟩ := peek_eq hs hi ['('] (by decide)
  simp only [parseblock, hpeek]
  split
  · trivial
  next hopen =>
    have hlparen := take_symbol hs .lparen hj
      (by rintro (_ | _) <;> simp [Tok.among_eq_true, Tok.symbol]) (not_not.mp hopen)
    have hlen := hlparen.length
    refine .after hlparen ((hline hlparen.le (by simp at hlen; omega)).bind ?_)
      (P := fun c v => Denotes s .exec c (.lparen :: v)) fun _ _ h => h
    rintro c k u hk ⟨t, ht, hc⟩
    have hlen' := hk.length
    obtain ⟨l, hl, hpeek⟩ := peek_eq hs hk.le [')'] (by decide)
    simp only [hpeek]
    split
    · trivial
    next hclose =>
      have hrparen := take_symbol hs .rparen hl
        (by rintro (_ | _) <;> simp [Tok.among_eq_true, Tok.symbol]) (not_not.mp hclose)
      have hlen'' := hrparen.length
      refine (parseredirs_answers hs hrparen.le (by simp at hlen hlen''; omega) hc).after (hk.trans hrparen) ?_
      rintro c v ⟨rs, hrs, hc⟩
      exact ⟨_, by simpa using .block ht hrs, hc⟩

theorem parseexec_answers (hblock : Covers s .exec 2 fuel (parseblock s fuel)) :
    Covers s .exec 3 (fuel + 1) (parseexec s (fuel + 1)) := by
  intro i hi hfuel
  obtain ⟨j, hj, hpeek⟩ := peek_eq hs hi ['('] (by decide)
  have hlen := hj.length
  simp only [parseexec, hpeek]
  split
  · exact (hblock hj.le (by simp at hlen; omega)).after hj fun _ _ h => h
  · refine .after hj ((parseredirs_answers hs hj.le (by simp at hlen; omega) (.exec .nil)).bind ?_)
      (P := Denotes s .exec) fun _ _ h => h
    rintro ret k u hk ⟨rs, hrs, hret⟩
    have hlen' := hk.length
    refine (parseargs_answers hs hk.le (by simp at hlen; omega) rfl (by decide) hret).after hk ?_
    rintro ret' v ⟨ws, rs', hargs, hroom, hret'⟩
    exact ⟨_, .simple hrs hargs hroom, hret'⟩

/-- With budget enough every function answers, and what it returns is what the
tokens it moved over derive. -/
theorem parse_answers : ∀ fuel : Nat,
    Covers s .line 5 fuel (parseline s fuel) ∧ Covers s .pipe 4 fuel (parsepipe s fuel) ∧
      Covers s .exec 2 fuel (parseblock s fuel) ∧ Covers s .exec 3 fuel (parseexec s fuel)
  | 0 => by refine ⟨?_, ?_, ?_, ?_⟩ <;> intro i hi hfuel <;> omega
  | fuel + 1 => by
    obtain ⟨hline, hpipe, hblock, hexec⟩ := parse_answers fuel
    exact ⟨parseline_answers hs hpipe hline, parsepipe_answers hs hexec hpipe, parseblock_answers hs hline,
      parseexec_answers hs hblock⟩

/-! ## What derives is found

A call is made at `i` with the tokens `u` before it and `v` after them; it must
stop before `v`, so `v` starts with a token that can follow. -/

omit hs in
/-- The symbols that can follow. -/
def Symbol.follow : Symbol → List Char
  | .line => [')']
  | .pipe => [')', '&', ';']
  | .exec => ['|', ')', '&', ';']

omit hs in
def Follows (n : Symbol) (v : List Tok) : Prop := ∀ t ∈ v.head?, t.among n.follow = true

omit hs in
theorem Follows.not_among {n : Symbol} {v : List Tok} {toks : List Char} (h : Follows n v)
    (hdis : ∀ c ∈ toks, c ∉ n.follow) : v.head?.any (Tok.among toks) = false := by
  cases hv : v.head? with
  | none => rfl
  | some t =>
    obtain ⟨c, hc, hsym⟩ := Tok.among_eq_true.mp (h t hv)
    refine Bool.eq_false_iff.mpr fun hany => ?_
    obtain ⟨c', hc', hsym'⟩ := Tok.among_eq_true.mp (by simpa using hany)
    exact hdis c' hc' (Option.some.inj (hsym'.symm.trans hsym) ▸ hc)

omit hs in
theorem not_among_sublist {v : List Tok} {toks toks' : List Char} (h : v.head?.any (Tok.among toks) = false)
    (hsub : toks' ⊆ toks) : v.head?.any (Tok.among toks') = false := by
  cases hv : v.head? with
  | none => rfl
  | some t =>
    rw [hv, Option.any_some, ← Bool.not_eq_true, Tok.among_eq_true] at h
    rw [Option.any_some, ← Bool.not_eq_true, Tok.among_eq_true]
    exact fun ⟨c, hc, hsym⟩ => h ⟨c, hsub hc, hsym⟩

omit hs in
/-- The call returns the tree `t` and leaves the cursor before `v`. -/
def Finds (s : List UInt8) (t : Cmd (List UInt8)) (v : List Tok) (x : Parse (Cmd Cursors × Nat)) : Prop :=
  ∃ c j, x = .ok (c, j) ∧ j ≤ s.length ∧ rest s j = v ∧ Spells s c t

omit hs in
theorem Finds.bind {t t' : Cmd (List UInt8)} {v v' : List Tok} {x : Parse (Cmd Cursors × Nat)}
    {f : Cmd Cursors × Nat → Parse (Cmd Cursors × Nat)} (h : Finds s t v x)
    (hf : ∀ c j, j ≤ s.length → rest s j = v → Spells s c t → Finds s t' v' (f (c, j))) :
    Finds s t' v' (x >>= f) := by
  obtain ⟨c, j, rfl, hj, hv, hc⟩ := h
  exact hf c j hj hv hc

omit hs in
theorem Finds.ok {t : Cmd (List UInt8)} {v : List Tok} {c : Cmd Cursors} {j : Nat} (hj : j ≤ s.length)
    (hv : rest s j = v) (hc : Spells s c t) : Finds s t v (.ok (c, j)) :=
  ⟨c, j, rfl, hj, hv, hc⟩

theorem parseredirs_finds {u v : List Tok} {rs : List Redirection} (hu : Redirs u rs)
    (hv : v.head?.any (Tok.among ['<', '>']) = false) :
    ∀ {fuel i : Nat} {c : Cmd Cursors} {t : Cmd (List UInt8)}, i ≤ s.length → rest s i = u ++ v →
      u.length < fuel → Spells s c t → Finds s (rs.foldl Cmd.redirect t) v (parseredirs s fuel c i) := by
  induction hu with
  | nil =>
    intro fuel i c t hi hrest hfuel hc
    obtain ⟨fuel, rfl⟩ := Nat.exists_eq_succ_of_ne_zero (by simp at hfuel; omega : fuel ≠ 0)
    obtain ⟨j, hj, hpeek⟩ := peek_eq hs hi ['<', '>'] (by decide)
    rw [List.nil_append] at hrest
    simp only [parseredirs, hpeek, hrest, hv, Bool.false_eq_true, if_false]
    exact .ok hj.le (hj.rest.symm.trans hrest) hc
  | @cons op w r u rs hr hu ih =>
    intro fuel i c t hi hrest hfuel hc
    obtain ⟨fuel, rfl⟩ := Nat.exists_eq_succ_of_ne_zero (by omega : fuel ≠ 0)
    obtain ⟨j, hj, hpeek⟩ := peek_eq hs hi ['<', '>'] (by decide)
    have hyes : op.among ['<', '>'] = true := by cases hr <;> rfl
    obtain ⟨htok, hop, -⟩ := gettoken_takes hs hj.le (hj.rest.symm.trans hrest)
    have hnext : rest s (gettoken s j).ps = .word w :: (u ++ v) :=
      List.append_cancel_left ((hj.trans hop).rest.symm.trans hrest)
    obtain ⟨hword, hw, hspan⟩ := gettoken_takes hs hop.le hnext
    simp only [parseredirs, hpeek, hrest, List.cons_append, List.head?_cons, Option.any_some, hyes, if_true,
      hword, Tok.code, ne_eq, not_true, if_false, htok]
    refine ih hw.le ?_ (by simp at hfuel; omega) (hc.redircmd (hspan w rfl) hr)
    exact List.append_cancel_left (((hj.trans hop).trans hw).rest.symm.trans hrest)

theorem parsebacks_finds {v : List Tok} (hv : v.head?.any (Tok.among ['&']) = false) :
    ∀ (k : Nat) {fuel i : Nat} {c : Cmd Cursors} {t : Cmd (List UInt8)}, i ≤ s.length →
      rest s i = List.replicate k .amp ++ v → k < fuel → Spells s c t →
      Finds s (Cmd.back^[k] t) v (parsebacks s fuel c i)
  | 0, fuel + 1, i, c, t, hi, hrest, hfuel, hc => by
    obtain ⟨j, hj, hpeek⟩ := peek_eq hs hi ['&'] (by decide)
    rw [List.replicate_zero, List.nil_append] at hrest
    simp only [parsebacks, hpeek, hrest, hv, Bool.false_eq_true, if_false]
    exact .ok hj.le (hj.rest.symm.trans hrest) hc
  | k + 1, fuel + 1, i, c, t, hi, hrest, hfuel, hc => by
    obtain ⟨j, hj, hpeek⟩ := peek_eq hs hi ['&'] (by decide)
    rw [List.replicate_succ, List.cons_append] at hrest
    have hmore : (rest s i).head?.any (Tok.among ['&']) = true := by rw [hrest]; rfl
    obtain ⟨-, hop, -⟩ := gettoken_takes hs hj.le (hj.rest.symm.trans hrest)
    simp only [parsebacks, hpeek, hmore, if_true]
    exact parsebacks_finds hv k hop.le (List.append_cancel_left ((hj.trans hop).rest.symm.trans hrest))
      (by omega) (.back hc)

/-- The words of a simple command, with the redirections between them. -/
theorem parseargs_finds {u v : List Tok} {ws : List (List UInt8)} {rs : List Redirection} (hu : Args u ws rs)
    (hv : Follows .exec v) : ∀ {fuel i argc : Nat} {ret : Cmd Cursors} {ws₀ : List (List UInt8)}
    {rs₀ : List Redirection}, i ≤ s.length → rest s i = u ++ v → u.length < fuel → argc = ws₀.length →
    (ws₀ ++ ws).length < MAXARGS → Spells s ret (rs₀.foldl Cmd.redirect (.exec ws₀)) →
    Finds s ((rs₀ ++ rs).foldl Cmd.redirect (.exec (ws₀ ++ ws))) v (parseargs s fuel ret argc i) := by
  induction hu with
  | nil =>
    intro fuel i argc ret ws₀ rs₀ hi hrest hfuel hargc hmax hret
    obtain ⟨fuel, rfl⟩ := Nat.exists_eq_succ_of_ne_zero (by simp at hfuel; omega : fuel ≠ 0)
    obtain ⟨j, hj, hpeek⟩ := peek_eq hs hi ['|', ')', '&', ';'] (by decide)
    rw [List.nil_append] at hrest
    have hret : Spells s ret ((rs₀ ++ []).foldl Cmd.redirect (.exec (ws₀ ++ []))) := by simpa using hret
    cases v with
    | nil =>
      -- the end of the string
      obtain ⟨hzero, hend, hle⟩ := gettoken_nil hj.le (hj.rest.symm.trans hrest)
      simp only [parseargs, hpeek, hrest, List.head?_nil, Option.any_none, Bool.false_eq_true, if_false, hzero,
        if_true]
      exact .ok hle hend hret
    | cons t ts =>
      have hstop : t.among ['|', ')', '&', ';'] = true := hv t rfl
      simp only [parseargs, hpeek, hrest, List.head?_cons, Option.any_some, hstop, if_true]
      exact .ok hj.le (hj.rest.symm.trans hrest) hret
  | @cons w u v' ws rs rs' hu hv' ih =>
    intro fuel i argc ret ws₀ rs₀ hi hrest hfuel hargc hmax hret
    obtain ⟨fuel, rfl⟩ := Nat.exists_eq_succ_of_ne_zero (by omega : fuel ≠ 0)
    obtain ⟨j, hj, hpeek⟩ := peek_eq hs hi ['|', ')', '&', ';'] (by decide)
    obtain ⟨hword, hw, hspan⟩ := gettoken_takes hs hj.le (hj.rest.symm.trans hrest)
    have hrest' : rest s (gettoken s j).ps = u ++ (v' ++ v) := by
      rw [← List.append_assoc]
      exact List.append_cancel_left ((hj.trans hw).rest.symm.trans hrest)
    have hroom : ¬ argc + 1 ≥ MAXARGS := by simp at hmax; omega
    have hpush := hret.pushArg (hspan w rfl)
    rw [pushArg_redirects] at hpush
    simp only [parseargs, hpeek, hrest, List.cons_append, List.head?_cons, Option.any_some, Tok.among, Tok.symbol,
      Option.any_none, Bool.false_eq_true, if_false, hword, Tok.code, ne_eq, not_true, hroom]
    rw [if_neg (by decide)]
    have hnext : (v' ++ v).head?.any (Tok.among ['<', '>']) = false := by
      cases hv' with
      | nil => exact hv.not_among (by simp [Symbol.follow])
      | cons => rfl
    refine (parseredirs_finds hs hu hnext hw.le hrest' (by simp at hfuel; omega) hpush).bind ?_
    intro ret k hk hrest hret
    rw [← List.foldl_append] at hret
    have hlen : v'.length < fuel := by simp at hfuel; omega
    have hargc' : argc + 1 = (ws₀ ++ [w]).length := by simp [hargc]
    simpa using ih hk hrest hlen hargc' (by simpa using hmax) hret

omit hs in
/-- The function of the parser for a symbol, and the budget it needs beside
four for each token. -/
def Symbol.parse (s : List UInt8) : Symbol → Nat → Nat → Parse (Cmd Cursors × Nat)
  | .line => parseline s
  | .pipe => parsepipe s
  | .exec => parseexec s

omit hs in
def Symbol.extra : Symbol → Nat
  | .line => 5
  | .pipe => 4
  | .exec => 3

/-- A `peek` for one symbol and the `gettoken` over it, where it is the next token. -/
theorem take_next {i : Nat} {ch : Char} {op : Tok} {ts : List Tok} (hi : i ≤ s.length) (hrest : rest s i = op :: ts)
    (hch : ch ∈ syms) (hop : op.among [ch] = true) :
    ∃ j, peek s i [ch] = (true, j) ∧ (gettoken s j).ps ≤ s.length ∧ rest s (gettoken s j).ps = ts := by
  obtain ⟨j, hj, hpeek⟩ := peek_eq hs hi [ch] (by simpa using hch)
  obtain ⟨-, hget, -⟩ := gettoken_takes hs hj.le (hj.rest.symm.trans hrest)
  refine ⟨j, by rw [hpeek, hrest]; simpa using hop, hget.le, ?_⟩
  exact List.append_cancel_left ((hj.trans hget).rest.symm.trans hrest)

/-- A `peek` for symbols that are not next. -/
theorem pass_next {i : Nat} {v : List Tok} (toks : List Char) (hi : i ≤ s.length) (hrest : rest s i = v)
    (htoks : toks ⊆ syms) (hv : v.head?.any (Tok.among toks) = false) :
    ∃ j, peek s i toks = (false, j) ∧ j ≤ s.length ∧ rest s j = v := by
  obtain ⟨j, hj, hpeek⟩ := peek_eq hs hi toks htoks
  exact ⟨j, by rw [hpeek, hrest, hv], hj.le, hj.rest.symm.trans hrest⟩

omit hs in
theorem Follows.mono {n m : Symbol} {v : List Tok} (h : Follows n v) (hnm : n.follow ⊆ m.follow) : Follows m v := by
  intro t ht
  obtain ⟨c, hc, hsym⟩ := Tok.among_eq_true.mp (h t ht)
  exact Tok.among_eq_true.mpr ⟨c, hnm hc, hsym⟩

omit hs in
theorem follows_cons {n : Symbol} {t : Tok} {ts : List Tok} (h : t.among n.follow = true) : Follows n (t :: ts) := by
  rintro t' ht'
  cases ht'
  exact h

omit hs in
theorem follows_amps {v : List Tok} (hv : Follows .pipe v) (k : Nat) : Follows .pipe (List.replicate k .amp ++ v) := by
  cases k with
  | zero => simpa using hv
  | succ k => exact follows_cons rfl

/-- **What derives is found.** -/
theorem parse_finds {n : Symbol} {u : List Tok} {t : Cmd (List UInt8)} (h : Derives n u t) :
    ∀ {v : List Tok} {fuel i : Nat}, Follows n v → i ≤ s.length → rest s i = u ++ v →
      4 * (u ++ v).length + n.extra ≤ fuel → Finds s t v (n.parse s fuel i) := by
  induction h with
  | @line u c k hu ih =>
    intro v fuel i hv hi hrest hfuel
    obtain ⟨fuel, rfl⟩ := Nat.exists_eq_succ_of_ne_zero (by simp [Symbol.extra] at hfuel; omega : fuel ≠ 0)
    have hpipe : Follows .pipe v := hv.mono (by decide)
    rw [List.append_assoc] at hrest
    rw [Symbol.parse, parseline]
    refine (ih (follows_amps hpipe k) hi hrest (by simp [Symbol.extra] at hfuel ⊢; omega)).bind ?_
    intro c j hj hrest hc
    have hk : k < fuel := by simp [Symbol.extra] at hfuel; omega
    refine (parsebacks_finds hs (hv.not_among (by simp [Symbol.follow])) k hj hrest hk hc).bind ?_
    intro c j hj hrest hc
    obtain ⟨l, hpeek, hl, hrest⟩ := pass_next hs [';'] hj hrest (by decide) (hv.not_among (by simp [Symbol.follow]))
    simp only [hpeek, Bool.false_eq_true, if_false]
    exact .ok hl hrest hc
  | @seq u w c d k hu hw ihu ihw =>
    intro v fuel i hv hi hrest hfuel
    obtain ⟨fuel, rfl⟩ := Nat.exists_eq_succ_of_ne_zero (by simp [Symbol.extra] at hfuel; omega : fuel ≠ 0)
    simp only [List.append_assoc, List.cons_append] at hrest hfuel
    rw [Symbol.parse, parseline]
    refine (ihu (follows_amps (follows_cons rfl) k) hi hrest (by simp [Symbol.extra] at hfuel ⊢; omega)).bind ?_
    intro c j hj hrest hc
    have hk : k < fuel := by simp [Symbol.extra] at hfuel; omega
    refine (parsebacks_finds hs rfl k hj hrest hk hc).bind ?_
    intro c j hj hrest hc
    obtain ⟨l, hpeek, hl, hrest⟩ := take_next hs hj hrest (by decide) (rfl : Tok.among [';'] .semi = true)
    simp only [hpeek, if_true]
    refine (ihw hv hl hrest (by simp [Symbol.extra] at hfuel ⊢; omega)).bind ?_
    intro d j hj hrest hd
    exact .ok hj hrest (.list hc hd)
  | @one u c hu ih =>
    intro v fuel i hv hi hrest hfuel
    obtain ⟨fuel, rfl⟩ := Nat.exists_eq_succ_of_ne_zero (by simp [Symbol.extra] at hfuel; omega : fuel ≠ 0)
    rw [Symbol.parse, parsepipe]
    refine (ih (hv.mono (by decide)) hi hrest (by simp [Symbol.extra] at hfuel ⊢; omega)).bind ?_
    intro c j hj hrest hc
    obtain ⟨l, hpeek, hl, hrest⟩ := pass_next hs ['|'] hj hrest (by decide) (hv.not_among (by simp [Symbol.follow]))
    simp only [hpeek, Bool.false_eq_true, if_false]
    exact .ok hl hrest hc
  | @pipe u w c d hu hw ihu ihw =>
    intro v fuel i hv hi hrest hfuel
    obtain ⟨fuel, rfl⟩ := Nat.exists_eq_succ_of_ne_zero (by simp [Symbol.extra] at hfuel; omega : fuel ≠ 0)
    simp only [List.append_assoc, List.cons_append] at hrest hfuel
    rw [Symbol.parse, parsepipe]
    refine (ihu (follows_cons rfl) hi hrest (by simp [Symbol.extra] at hfuel ⊢; omega)).bind ?_
    intro c j hj hrest hc
    obtain ⟨l, hpeek, hl, hrest⟩ := take_next hs hj hrest (by decide) (rfl : Tok.among ['|'] .bar = true)
    simp only [hpeek, if_true]
    refine (ihw hv hl hrest (by simp [Symbol.extra] at hfuel ⊢; omega)).bind ?_
    intro d j hj hrest hd
    exact .ok hj hrest (.pipe hc hd)
  | @block u w c rs hu hw ih =>
    intro v fuel i hv hi hrest hfuel
    obtain ⟨fuel, rfl⟩ : ∃ fuel', fuel = fuel' + 2 := ⟨fuel - 2, by simp [Symbol.extra] at hfuel; omega⟩
    simp only [List.append_assoc, List.cons_append] at hrest hfuel
    -- `parseexec` and `parseblock` both look at the `(`
    obtain ⟨j, hj, hpeek⟩ := peek_eq hs hi ['('] (by decide)
    have hopen : peek s i ['('] = (true, j) := by rw [hpeek, hrest]; rfl
    obtain ⟨l, hopen', hl, hrest'⟩ :=
      take_next hs hj.le (hj.rest.symm.trans hrest) (by decide) (rfl : Tok.among ['('] .lparen = true)
    simp only [Symbol.parse, parseexec, parseblock, hopen, hopen', if_true, not_true, if_false]
    refine (ih (follows_cons rfl) hl hrest' (by simp [Symbol.extra] at hfuel ⊢; omega)).bind ?_
    intro c k hk hrest hc
    obtain ⟨m, hclose, hm, hrest⟩ := take_next hs hk hrest (by decide) (rfl : Tok.among [')'] .rparen = true)
    simp only [hclose, not_true, if_false]
    exact parseredirs_finds hs hw (hv.not_among (by simp [Symbol.follow])) hm hrest (by simp [Symbol.extra] at hfuel; omega) hc
  | @simple u w ws rs rs' hu hw hlen =>
    intro v fuel i hv hi hrest hfuel
    obtain ⟨fuel, rfl⟩ := Nat.exists_eq_succ_of_ne_zero (by simp [Symbol.extra] at hfuel; omega : fuel ≠ 0)
    rw [List.append_assoc] at hrest
    have hargs : (w ++ v).head?.any (Tok.among ['<', '>', '(']) = false := by
      cases hw with
      | nil => exact hv.not_among (by simp [Symbol.follow])
      | cons => rfl
    have hblock : (u ++ (w ++ v)).head?.any (Tok.among ['(']) = false := by
      cases hu with
      | nil => exact not_among_sublist hargs (by decide)
      | cons hr => cases hr <;> rfl
    obtain ⟨j, hpeek, hj, hrest⟩ := pass_next hs ['('] hi hrest (by decide) hblock
    simp only [Symbol.parse, parseexec, hpeek, Bool.false_eq_true, if_false]
    refine (parseredirs_finds hs hu (not_among_sublist hargs (by decide)) hj hrest
      (by simp [Symbol.extra] at hfuel; omega) (.exec .nil)).bind ?_
    intro ret k hk hrest hret
    refine parseargs_finds hs hw hv hk hrest ?_ ?_ ?_ hret
    · simp [Symbol.extra] at hfuel
      omega
    · rfl
    · simpa using hlen

end

end Xv6.Sh
