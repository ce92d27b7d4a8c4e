/-
**Every word of the tree is its token's text** (`nulterminate_exact`): after
`nulterminate`, each `argv[i]` and each `file` is read from the buffer as what
stood between its two cursors in the command string, a word of its tokens. No
NUL stored for one word falls into another or on its start, and each `argv` has
room for the null pointer behind its last word.
-/
import Xv6.Sh.Words

namespace Xv6.Sh

namespace Cmd

/-- The strings of the tree: the words of each EXEC node and the file of each REDIR node. -/
def words {α : Type} : Cmd α → List α
  | exec argv => argv
  | redir c file _ _ => c.words ++ [file]
  | pipe l r => l.words ++ r.words
  | list l r => l.words ++ r.words
  | back c => c.words

/-- The `argv` of each EXEC node. -/
def argvs {α : Type} : Cmd α → List (List α)
  | exec argv => [argv]
  | redir c _ _ _ => c.argvs
  | pipe l r => l.argvs ++ r.argvs
  | list l r => l.argvs ++ r.argvs
  | back c => c.argvs

theorem ends_eq_words (c : Cmd Cursors) : c.ends = c.words.map (·.2) := by
  induction c with
  | exec argv => rfl
  | redir c file mode fd ih => rw [ends, words, List.map_append, ih]; rfl
  | pipe l r ihl ihr => rw [ends, words, List.map_append, ihl, ihr]
  | list l r ihl ihr => rw [ends, words, List.map_append, ihl, ihr]
  | back c ih => exact ih

end Cmd

/-- What stands between two cursors. -/
def text (s : List UInt8) (a : Cursors) : List UInt8 := (s.drop a.1).take (a.2 - a.1)

section
variable {s : List UInt8} {c : Cmd Cursors} {t : Cmd (List UInt8)} {a : Cursors} {w : List UInt8}

theorem Spans.text (h : Spans s a w) : text s a = w := by
  rw [Sh.text, h.split, h.1, Nat.add_sub_cancel_left, List.take_left]

theorem Spells.words (h : Spells s c t) : List.Forall₂ (Spans s) c.words t.words := by
  induction h with
  | exec h => exact h
  | redir h hw ih => exact List.rel_append ih (.cons hw .nil)
  | pipe hl hr ihl ihr => exact List.rel_append ihl ihr
  | list hl hr ihl ihr => exact List.rel_append ihl ihr
  | back h ih => exact ih

theorem Spells.argvs (h : Spells s c t) : List.Forall₂ (List.Forall₂ (Spans s)) c.argvs t.argvs := by
  induction h with
  | exec h => exact .cons h .nil
  | redir h hw ih => exact ih
  | pipe hl hr ihl ihr => exact List.rel_append ihl ihr
  | list hl hr ihl ihr => exact List.rel_append ihl ihr
  | back h ih => exact ih

theorem exists_of_forall₂ {α β : Type} {R : α → β → Prop} {l : List α} {l' : List β} (h : List.Forall₂ R l l') {x : α}
    (hx : x ∈ l) : ∃ y ∈ l', R x y := by
  induction h with
  | nil => cases hx
  | cons hr h ih =>
    obtain rfl | hx := List.mem_cons.mp hx
    · exact ⟨_, List.mem_cons_self, hr⟩
    · obtain ⟨y, hy, hxy⟩ := ih hx
      exact ⟨y, List.mem_cons_of_mem _ hy, hxy⟩

end

/-! ## The words of a derivation -/

section
variable {u : List Tok} {t : Cmd (List UInt8)}

theorem words_redirects (rs : List Redirection) (c : Cmd (List UInt8)) :
    (rs.foldl Cmd.redirect c).words = c.words ++ rs.map (·.file) ∧ (rs.foldl Cmd.redirect c).argvs = c.argvs := by
  induction rs generalizing c with
  | nil => simp
  | cons r rs ih =>
    obtain ⟨h₁, h₂⟩ := ih (c.redirect r)
    rw [List.foldl_cons, h₁, h₂]
    simp [Cmd.redirect, Cmd.words, Cmd.argvs]

theorem words_backs (k : Nat) (c : Cmd (List UInt8)) : (Cmd.back^[k] c).words = c.words ∧ (Cmd.back^[k] c).argvs = c.argvs := by
  induction k generalizing c with
  | zero => exact ⟨rfl, rfl⟩
  | succ k ih => exact ih (.back c)

theorem Redirs.mem_tokens {rs : List Redirection} (h : Redirs u rs) : ∀ r ∈ rs, Tok.word r.file ∈ u := by
  induction h with
  | nil => simp
  | cons hr hu ih =>
    intro r hmem
    obtain rfl | hmem := List.mem_cons.mp hmem
    · cases hr <;> simp
    · exact List.mem_cons_of_mem _ (List.mem_cons_of_mem _ (ih r hmem))

theorem Args.mem_tokens {ws : List (List UInt8)} {rs : List Redirection} (h : Args u ws rs) :
    (∀ w ∈ ws, Tok.word w ∈ u) ∧ ∀ r ∈ rs, Tok.word r.file ∈ u := by
  induction h with
  | nil => simp
  | cons hu hv ih =>
    refine ⟨fun w hw => ?_, fun r hr => ?_⟩
    · obtain rfl | hw := List.mem_cons.mp hw
      · exact List.mem_cons_self
      · exact List.mem_cons_of_mem _ (List.mem_append_right _ (ih.1 w hw))
    · refine List.mem_cons_of_mem _ ?_
      obtain hr | hr := List.mem_append.mp hr
      · exact List.mem_append_left _ (hu.mem_tokens r hr)
      · exact List.mem_append_right _ (ih.2 r hr)

/-- The words of the tree are words of the tokens, and no command has `MAXARGS` of them. -/
theorem Derives.words_bound {n : Symbol} (h : Derives n u t) :
    (∀ w ∈ t.words, Tok.word w ∈ u) ∧ ∀ ws ∈ t.argvs, ws.length < MAXARGS := by
  induction h with
  | line k hu ih =>
    rw [(words_backs k _).1, (words_backs k _).2]
    exact ⟨fun w hw => List.mem_append_left _ (ih.1 w hw), ih.2⟩
  | seq k hu hv ihu ihv =>
    simp only [Cmd.words, Cmd.argvs, (words_backs k _).1, (words_backs k _).2, List.mem_append, List.mem_cons]
    refine ⟨fun w hw => ?_, fun ws hws => hws.elim (ihu.2 ws) (ihv.2 ws)⟩
    exact hw.elim (fun hw => .inl (.inl (ihu.1 w hw))) fun hw => .inr (.inr (ihv.1 w hw))
  | one hu ih => exact ih
  | pipe hu hv ihu ihv =>
    simp only [Cmd.words, Cmd.argvs, List.mem_append, List.mem_cons]
    refine ⟨fun w hw => ?_, fun ws hws => hws.elim (ihu.2 ws) (ihv.2 ws)⟩
    exact hw.elim (fun hw => .inl (ihu.1 w hw)) fun hw => .inr (.inr (ihv.1 w hw))
  | @block u v c rs hu hv ih =>
    rw [(words_redirects rs c).1, (words_redirects rs c).2]
    simp only [List.mem_append, List.mem_map, List.mem_cons]
    refine ⟨fun w hw => ?_, ih.2⟩
    rcases hw with hw | ⟨r, hr, rfl⟩
    · exact .inr (.inl (ih.1 w hw))
    · exact .inr (.inr (.inr (hv.mem_tokens r hr)))
  | @simple u v ws rs rs' hu hv hlen =>
    rw [(words_redirects (rs ++ rs') _).1, (words_redirects (rs ++ rs') _).2]
    simp only [Cmd.words, Cmd.argvs, List.mem_append, List.mem_map, List.mem_singleton]
    refine ⟨fun w hw => ?_, fun _ h => h ▸ hlen⟩
    rcases hw with hw | ⟨r, hr | hr, rfl⟩
    · exact .inr (hv.mem_tokens.1 w hw)
    · exact .inl (hu.mem_tokens r hr)
    · exact .inr (hv.mem_tokens.2 r hr)

end

/-- A word token has a character. -/
theorem word_ne_nil {s w : List UInt8} (h : Tok.word w ∈ tokens s) : w ≠ [] := by
  induction hn : (tokens s).length generalizing s with
  | zero =>
    rw [List.length_eq_zero_iff.mp hn] at h
    cases h
  | succ n ih =>
    obtain ⟨t, ts, hts⟩ := List.exists_cons_of_length_eq_add_one hn
    obtain ⟨r, hfirst, hr⟩ := tokens_eq_cons.mp hts
    rw [hts] at h
    obtain h | h := List.mem_cons.mp h
    · -- the word is a run that starts with its first character
      cases hd : s.dropWhile isSpace with
      | nil => rw [hd] at hfirst; cases hfirst
      | cons c x =>
        have hc : isSpace c = false := head_dropWhile s c (by rw [hd]; rfl)
        rw [hd, firstTok, ← h] at hfirst
        split at hfirst
        · cases hfirst
        · split at hfirst
          next hsym =>
            simp only [Option.some.injEq, Prod.mk.injEq] at hfirst
            obtain ⟨d, -, hd, -⟩ := symTok_symbol (hfirst.1 ▸ hsym)
            cases hd
          next hsym =>
            simp only [Option.some.injEq, Prod.mk.injEq, Tok.word.injEq] at hfirst
            rw [← hfirst.1, List.takeWhile_cons_of_pos (wordChar_of_symTok hc hsym)]
            exact List.cons_ne_nil _ _
    · rw [← hr] at h
      exact ih h (by rw [hr]; simpa [hts] using hn)

/-- **In-place termination yields the exact words.** -/
theorem nulterminate_exact {s : List UInt8} (hs : 0 ∉ s) {fuel : Nat} (hfuel : 4 * s.length + 5 ≤ fuel)
    {c : Cmd Cursors} {buf : List UInt8} (h : parsecmd fuel s = .ok (c, buf)) :
    (∀ a ∈ c.words, Tok.word (text s a) ∈ tokens s ∧ a.1 < a.2 ∧ a.2 ≤ s.length ∧ cstr buf a = text s a) ∧
    (∀ a ∈ c.words, ∀ b ∈ c.words, ¬ (a.1 ≤ b.2 ∧ b.2 < a.2)) ∧
    ∀ argv ∈ c.argvs, argv.length < MAXARGS := by
  obtain ⟨rfl, t, ht, hc⟩ := parsecmd_denotes hs hfuel h
  obtain ⟨hwords, hbound⟩ := ht.words_bound
  have hspan (a : Cursors) (ha : a ∈ c.words) : ∃ w ∈ t.words, Spans s a w := exists_of_forall₂ hc.words ha
  refine ⟨fun a ha => ?_, fun a ha b hb hin => ?_, fun argv hargv => ?_⟩
  · obtain ⟨w, hw, hspans⟩ := hspan a ha
    rw [hspans.text]
    have hpos := List.length_pos_iff.mpr (word_ne_nil (hwords w hw))
    have hend := hspans.1
    have hle : w.length ≤ s.length - a.1 := by
      have := congrArg List.length hspans.split
      rw [List.length_drop, List.length_append] at this
      omega
    refine ⟨hwords w hw, by omega, by omega, ?_⟩
    rw [nulterminate_eq]
    refine cstr_set hs hc.ends_break hspans ?_
    rw [Cmd.ends_eq_words]
    exact List.mem_map_of_mem ha
  · -- a character of a word is not what ends one
    obtain ⟨w, -, hw⟩ := hspan a ha
    obtain ⟨v, -, hv⟩ := hspan b hb
    have hlt : b.2 - a.1 < w.length := by
      have := hw.1
      omega
    have hget : s[b.2]? = some w[b.2 - a.1] := by
      have := congrArg (fun l => l[b.2 - a.1]?) hw.split
      simp only [List.getElem?_drop] at this
      rw [List.getElem?_append_left hlt, List.getElem?_eq_getElem hlt, Nat.add_sub_cancel' hin.1] at this
      exact this
    have hchar : wordChar w[b.2 - a.1] = true := by
      have hmem : w[b.2 - a.1] ∈ (s.drop a.1).takeWhile wordChar := by
        rw [hw.2]
        exact List.getElem_mem hlt
      exact List.mem_takeWhile_imp hmem
    rw [hv.break hget] at hchar
    cases hchar
  · obtain ⟨ws, hws, hlen⟩ := exists_of_forall₂ hc.argvs hargv
    rw [hlen.length_eq]
    exact hbound ws hws

/-- `a>f&;(b)`, with nothing between words and operators. -/
theorem nulterminate_exact_back : parsecmd 64 ("a>f&;(b)".toList.map Char.toUInt8) =
      .ok (.list (.back (.redir (.exec [(0, 1)]) (2, 3) 0x601 1)) (.exec [(6, 7)]),
        ['a', '\x00', 'f', '\x00', ';', '(', 'b', '\x00'].map Char.toUInt8) ∧
    cstr (['a', '\x00', 'f', '\x00', ';', '(', 'b', '\x00'].map Char.toUInt8) (2, 3) = ['f'.toUInt8] := by
  have hparse : parsecmd 64 ("a>f&;(b)".toList.map Char.toUInt8) =
      .ok (.list (.back (.redir (.exec [(0, 1)]) (2, 3) 0x601 1)) (.exec [(6, 7)]),
        ['a', '\x00', 'f', '\x00', ';', '(', 'b', '\x00'].map Char.toUInt8) := by decide +kernel
  have hwords := (nulterminate_exact (by decide) (by decide) hparse).1 (2, 3) (by decide)
  exact ⟨hparse, hwords.2.2.2⟩

end Xv6.Sh
