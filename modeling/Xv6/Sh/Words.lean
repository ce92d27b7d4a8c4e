/-
**The shell parser accepts its grammar and no other string**
(`parsecmd_iff_derives`): with step budget enough it answers, and it answers
with the tree `t` exactly if the tokens of the string derive `t` from `line`.

The tree's words are C strings in the buffer by then. `nulterminate` ends each
with a NUL in place of the character after it, which is in no word: a word is a
maximal run (`cstr_nulterminate`).
-/
import Xv6.Sh.Grammar

namespace Xv6.Sh

/-! ## The NULs -/

/-- The cursors at which `nulterminate` stores a NUL. -/
def Cmd.ends : Cmd Cursors → List Nat
  | .exec argv => argv.map (·.2)
  | .redir c file _ _ => c.ends ++ [file.2]
  | .pipe l r => l.ends ++ r.ends
  | .list l r => l.ends ++ r.ends
  | .back c => c.ends

theorem nulterminate_eq (c : Cmd Cursors) (s : List UInt8) :
    nulterminate c s = c.ends.foldl (fun s e => s.set e 0) s := by
  induction c generalizing s with
  | exec argv => rw [nulterminate, Cmd.ends, List.foldl_map]
  | redir c file mode fd ih => rw [nulterminate, Cmd.ends, List.foldl_append, ih]; rfl
  | pipe l r ihl ihr => rw [nulterminate, Cmd.ends, List.foldl_append, ihl, ihr]
  | list l r ihl ihr => rw [nulterminate, Cmd.ends, List.foldl_append, ihl, ihr]
  | back c ih => exact ih s

theorem getElem?_foldl_set (es : List Nat) (s : List UInt8) (i : Nat) :
    (es.foldl (fun s e => s.set e 0) s)[i]? = if i ∈ es then s[i]?.map fun _ => 0 else s[i]? := by
  induction es generalizing s with
  | nil => simp
  | cons e es ih =>
    rw [List.foldl_cons, ih, List.getElem?_set']
    by_cases hi : e = i
    · subst hi
      cases s[e]? <;> simp
    · have hi' : i ≠ e := Ne.symm hi
      simp [hi, hi']

section
variable {s : List UInt8} {c : Cmd Cursors} {t : Cmd (List UInt8)}

theorem Spans.drop_end {a : Cursors} {w : List UInt8} (h : Spans s a w) :
    s.drop a.2 = (s.drop a.1).dropWhile wordChar := by
  rw [h.1, ← List.drop_drop, ← h.2]
  nth_rewrite 2 [← List.takeWhile_append_dropWhile (p := wordChar) (l := s.drop a.1)]
  exact List.drop_left

theorem Spans.split {a : Cursors} {w : List UInt8} (h : Spans s a w) : s.drop a.1 = w ++ s.drop a.2 := by
  rw [h.drop_end, ← h.2, List.takeWhile_append_dropWhile]

/-- What follows a word is no character of a word. -/
theorem Spans.break {a : Cursors} {w : List UInt8} (h : Spans s a w) {x : UInt8} (hx : s[a.2]? = some x) :
    wordChar x = false := by
  have hhead := List.head?_dropWhile_not wordChar (s.drop a.1)
  rw [← h.drop_end, List.head?_drop, hx] at hhead
  simpa using hhead

/-- Every NUL is stored at the end of a word. -/
theorem Spells.ends_break (h : Spells s c t) : ∀ e ∈ c.ends, ∀ x, s[e]? = some x → wordChar x = false := by
  induction h with
  | exec h =>
    induction h with
    | nil => simp [Cmd.ends]
    | cons hw h ih =>
      intro e he
      obtain rfl | he := List.mem_cons.mp he
      · exact fun x => hw.break
      · exact ih e he
  | redir h hw ih =>
    intro e he
    obtain he | he := List.mem_append.mp he
    · exact ih e he
    · rw [List.mem_singleton.mp he]
      exact fun x => hw.break
  | pipe hl hr ihl ihr => exact fun e he => (List.mem_append.mp he).elim (ihl e) (ihr e)
  | list hl hr ihl ihr => exact fun e he => (List.mem_append.mp he).elim (ihl e) (ihr e)
  | back h ih => exact ih

/-- A word is read back from a buffer in which NULs were stored at ends of words,
its own among them. -/
theorem cstr_set (hs : 0 ∉ s) {es : List Nat} (hes : ∀ e ∈ es, ∀ x, s[e]? = some x → wordChar x = false)
    {a : Cursors} {w : List UInt8} (hw : Spans s a w) (ha : a.2 ∈ es) :
    cstr (es.foldl (fun s e => s.set e 0) s) a = w := by
  have hsplit := hw.split
  obtain ⟨hend, hrun⟩ := hw
  set s' := es.foldl (fun s e => s.set e 0) s with hs'
  -- the characters of the word are kept
  have hkeep : s'.drop a.1 = w ++ s'.drop a.2 := by
    apply List.ext_getElem?
    intro k
    have hk := congrArg (fun l => l[k]?) hsplit
    simp only [List.getElem?_drop, List.getElem?_append] at hk ⊢
    split
    next hlt =>
      rw [if_pos hlt] at hk
      have hchar : wordChar w[k] = true := by
        have : w[k] ∈ (s.drop a.1).takeWhile wordChar := by rw [hrun]; exact List.getElem_mem hlt
        exact List.mem_takeWhile_imp this
      have hnot : a.1 + k ∉ es := fun he => by
        have := hes _ he w[k] (hk.trans (List.getElem?_eq_getElem hlt))
        simp [hchar] at this
      rw [hs', getElem?_foldl_set, if_neg hnot, hk]
    next hge => rw [hend]; congr 1; omega
  have hnul : ∀ x ∈ w, x ≠ 0 := fun x hx h0 =>
    hs (List.mem_of_mem_drop (hsplit ▸ List.mem_append_left _ (h0 ▸ hx)))
  have hstop : (s'.drop a.2).takeWhile (· ≠ 0) = [] := by
    have hhead : (s'.drop a.2).head? = s[a.2]?.map fun _ => 0 := by
      rw [List.head?_drop, hs', getElem?_foldl_set, if_pos ha]
    cases h : s'.drop a.2 with
    | nil => rfl
    | cons x r =>
      rw [h] at hhead
      obtain ⟨-, -, rfl⟩ := Option.map_eq_some_iff.mp hhead.symm
      rfl
  rw [cstr, hkeep, List.takeWhile_append_of_pos (by simpa using hnul), hstop, List.append_nil]

theorem map_cstr (hs : 0 ∉ s) {es : List Nat} (hes : ∀ e ∈ es, ∀ x, s[e]? = some x → wordChar x = false)
    (h : Spells s c t) (hc : ∀ e ∈ c.ends, e ∈ es) : c.map (cstr (es.foldl (fun s e => s.set e 0) s)) = t := by
  induction h with
  | exec h =>
    rw [Cmd.map]
    congr 1
    induction h with
    | nil => rfl
    | cons hw h ih =>
      rw [List.map_cons, cstr_set hs hes hw (hc _ List.mem_cons_self)]
      rw [ih fun e he => hc e (List.mem_cons_of_mem _ he)]
  | redir h hw ih =>
    rw [Cmd.map, ih fun e he => hc e (List.mem_append_left _ he),
      cstr_set hs hes hw (hc _ (List.mem_append_right _ (List.mem_singleton_self _)))]
  | pipe hl hr ihl ihr =>
    rw [Cmd.map, ihl fun e he => hc e (List.mem_append_left _ he), ihr fun e he => hc e (List.mem_append_right _ he)]
  | list hl hr ihl ihr =>
    rw [Cmd.map, ihl fun e he => hc e (List.mem_append_left _ he), ihr fun e he => hc e (List.mem_append_right _ he)]
  | back h ih => rw [Cmd.map, ih hc]

/-- After `nulterminate` the tree is read as it was spelt. -/
theorem strings_nulterminate (hs : 0 ∉ s) (h : Spells s c t) : strings (c, nulterminate c s) = t := by
  rw [strings, nulterminate_eq]
  exact map_cstr hs h.ends_break h fun _ he => he

end

/-! ## `parsecmd` -/

theorem tokens_length_le (s : List UInt8) : (tokens s).length ≤ s.length := by
  induction h : (tokens s).length generalizing s with
  | zero => exact Nat.zero_le _
  | succ n ih =>
    obtain ⟨t, ts, hts⟩ := List.exists_cons_of_length_eq_add_one h
    obtain ⟨r, hfirst, hr⟩ := tokens_eq_cons.mp hts
    have hshort := (firstTok_length (head_dropWhile s) hfirst).trans_le (dropWhile_length_le isSpace s)
    have := ih r (by rw [hr]; simpa [hts] using h)
    omega

section
variable {s : List UInt8} (hs : 0 ∉ s) {fuel : Nat} (hfuel : 4 * s.length + 5 ≤ fuel)
include hs hfuel

/-- The budget is enough for the whole string. -/
theorem parseline_answers_all : Answers s (Denotes s .line) 0 (parseline s fuel 0) := by
  have hlen := tokens_length_le s
  have hrest : rest s 0 = tokens s := by rw [rest, List.drop_zero]
  exact (parse_answers hs fuel).1 (Nat.zero_le _) (by rw [hrest]; omega)

omit hs hfuel in
/-- What `parsecmd` does after `parseline`. -/
theorem parsecmd_of_parseline {c : Cmd Cursors} {j : Nat} (hj : j ≤ s.length) (h : parseline s fuel 0 = .ok (c, j)) :
    parsecmd fuel s = if rest s j = [] then .ok (c, nulterminate c s) else .panic "syntax" := by
  simp only [parsecmd, h, Parse.ok_bind, ne_eq, peek_end [] hj]
  split <;> simp_all

/-- A tree that `parsecmd` returns is one the tokens of the string derive. -/
theorem parsecmd_denotes {c : Cmd Cursors} {buf : List UInt8} (h : parsecmd fuel s = .ok (c, buf)) :
    buf = nulterminate c s ∧ Denotes s .line c (tokens s) := by
  have hanswers := parseline_answers_all hs hfuel
  obtain ⟨⟨c', j⟩, hline, -⟩ := Parse.bind_eq_ok.mp h
  rw [hline] at hanswers
  obtain ⟨u, hu, hc⟩ := hanswers
  rw [parsecmd_of_parseline hu.le hline] at h
  split at h
  next hnil =>
    cases h
    have hrest := hu.rest
    rw [hnil, List.append_nil, rest, List.drop_zero] at hrest
    exact ⟨rfl, hrest ▸ hc⟩
  · cases h

/-- A tree that the tokens of the string derive is what `parsecmd` returns. -/
theorem parsecmd_finds {t : Cmd (List UInt8)} (ht : Derives .line (tokens s) t) :
    ∃ c, parsecmd fuel s = .ok (c, nulterminate c s) ∧ Spells s c t := by
  have hlen := tokens_length_le s
  have hrest : rest s 0 = tokens s := by rw [rest, List.drop_zero]
  have hend : Follows .line [] := by simp [Follows]
  have hcover : 4 * (tokens s ++ []).length + Symbol.line.extra ≤ fuel := by simp [Symbol.extra]; omega
  have hfinds := parse_finds hs ht hend (Nat.zero_le _) (by rw [hrest, List.append_nil]) hcover
  obtain ⟨c, j, hline, hj, hnil, hc⟩ := hfinds
  exact ⟨c, (parsecmd_of_parseline hj hline).trans (if_pos hnil), hc⟩

end

/-- **The parser accepts exactly its grammar.** For a string of any length, and
any budget that covers it, `parsecmd` returns or panics, and it returns a tree
exactly if the tokens of the string derive it. -/
theorem parsecmd_iff_derives (s : List UInt8) (hs : 0 ∉ s) (fuel : Nat) (hfuel : 4 * s.length + 5 ≤ fuel) :
    parsecmd fuel s ≠ .hungry ∧
      ∀ t, (∃ r, parsecmd fuel s = .ok r ∧ strings r = t) ↔ Derives .line (tokens s) t := by
  have hanswers := parseline_answers_all hs hfuel
  constructor
  · cases h : parseline s fuel 0 with
    | hungry => rw [h] at hanswers; exact hanswers.elim
    | panic msg => simp [parsecmd, h]
    | ok r =>
      rw [h] at hanswers
      obtain ⟨u, hu, -⟩ := hanswers
      rw [parsecmd_of_parseline hu.le h]
      split <;> simp
  · intro t
    constructor
    · rintro ⟨⟨c, buf⟩, hr, rfl⟩
      obtain ⟨rfl, t, ht, hc⟩ := parsecmd_denotes hs hfuel hr
      rwa [strings_nulterminate hs hc]
    · intro ht
      obtain ⟨c, hr, hc⟩ := parsecmd_finds hs hfuel ht
      exact ⟨_, hr, strings_nulterminate hs hc⟩

theorem parsecmd_iff_derives_back :
    0 ∉ "a>f&;(b)".toList.map Char.toUInt8 ∧ Derives .line (tokens ("a>f&;(b)".toList.map Char.toUInt8))
      (.list (.back (.redir (.exec [['a'.toUInt8]]) ['f'.toUInt8] 0x601 1)) (.exec [['b'.toUInt8]])) := by
  refine ⟨by decide, ((parsecmd_iff_derives _ (by decide) 64 (by decide)).2 _).mp ?_⟩
  exact ⟨(.list (.back (.redir (.exec [(0, 1)]) (2, 3) 0x601 1)) (.exec [(6, 7)]),
    ['a', '\x00', 'f', '\x00', ';', '(', 'b', '\x00'].map Char.toUInt8), by decide +kernel, by decide +kernel⟩

end Xv6.Sh
