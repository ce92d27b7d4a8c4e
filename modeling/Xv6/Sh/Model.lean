/-
The command parser of the shell (`user/sh.c`, from `gettoken` to
`nulterminate`), over the command string as the list of its bytes before the
terminating NUL.

A cursor is an index into the string, as `*ps` is a pointer into the buffer; a
tree holds its words as the two cursors `q` and `eq`. The five parsing
functions call each other, and four of them loop, so each takes a step budget:
a call that used it up answers `hungry`, which is none of the source's own
answers.
-/
import Mathlib

namespace Xv6.Sh

/-! ## Trees -/

/-- `struct cmd` with its five kinds. The words are cursors before
`nulterminate` and strings after it. -/
inductive Cmd (α : Type) where
  | exec (argv : List α)
  | redir (cmd : Cmd α) (file : α) (mode fd : Nat)
  | pipe (left right : Cmd α)
  | list (left right : Cmd α)
  | back (cmd : Cmd α)
deriving DecidableEq, Repr

namespace Cmd

def map {α β : Type} (f : α → β) : Cmd α → Cmd β
  | exec argv => exec (argv.map f)
  | redir c file mode fd => redir (c.map f) (f file) mode fd
  | pipe l r => pipe (l.map f) (r.map f)
  | list l r => list (l.map f) (r.map f)
  | back c => back (c.map f)

/-- `cmd->argv[argc] = q; cmd->eargv[argc] = eq` of `parseexec`: `cmd` is the
EXEC node, by then at the bottom of the REDIR nodes of `ret`. -/
def pushArg {α : Type} (a : α) : Cmd α → Cmd α
  | exec argv => exec (argv ++ [a])
  | redir c file mode fd => redir (c.pushArg a) file mode fd
  | c => c

end Cmd

def MAXARGS : Nat := 10

/-! ### `kernel/fcntl.h` -/

def O_RDONLY : Nat := 0x000
def O_WRONLY : Nat := 0x001
def O_CREATE : Nat := 0x200
def O_TRUNC : Nat := 0x400

/-! ## Answers -/

inductive Parse (α : Type) where
  | ok (a : α)
  | panic (msg : String)
  | hungry
deriving DecidableEq, Repr

namespace Parse

def bind {α β : Type} : Parse α → (α → Parse β) → Parse β
  | ok a, f => f a
  | panic msg, _ => panic msg
  | hungry, _ => hungry

instance : Monad Parse where
  pure := ok
  bind := bind

variable {α β : Type} {x : Parse α} {f : α → Parse β}

@[simp] theorem pure_eq (a : α) : (pure a : Parse α) = ok a := rfl
@[simp] theorem ok_bind (a : α) : (ok a >>= f) = f a := rfl
@[simp] theorem panic_bind (msg : String) : (panic msg >>= f) = panic msg := rfl
@[simp] theorem hungry_bind : ((hungry : Parse α) >>= f) = hungry := rfl

theorem bind_eq_ok {b : β} : (x >>= f) = ok b ↔ ∃ a, x = ok a ∧ f a = ok b := by
  cases x <;> simp

end Parse

/-! ## Tokens -/

/-- `whitespace[]`: `" \t\r\n\v"`. -/
def whitespace : List UInt8 := [' ', '\t', '\r', '\n', '\x0b'].map Char.toUInt8

/-- `symbols[]`: `"<|>&;()"`. -/
def symbols : List UInt8 := ['<', '|', '>', '&', ';', '(', ')'].map Char.toUInt8

/-- `strchr(str, c)` as a test; the terminator of `str` is never found. -/
def strchr (str : List UInt8) (c : UInt8) : Bool := str.contains c

/-- The characters that `gettoken` reads on over in a word. -/
def wordChar (c : UInt8) : Bool := !strchr whitespace c && !strchr symbols c

section
variable (s : List UInt8)

/-- `*p` at a cursor: the terminator stands at `es`. -/
def charAt (i : Nat) : UInt8 := s.getD i 0

/-- `while(s < es && p(*s)) s++`, where `n` is the way left to `es`. -/
def scanLoop (p : UInt8 → Bool) : Nat → Nat → Nat
  | 0, i => i
  | n + 1, i => if p (charAt s i) then scanLoop p n (i + 1) else i

def scan (p : UInt8 → Bool) (i : Nat) : Nat := scanLoop s p (s.length - i) i

/-- What `gettoken` returns, and what it stores through `q`, `eq` and `ps`. -/
structure Got where
  tok : UInt8
  q : Nat
  eq : Nat
  ps : Nat
deriving DecidableEq, Repr

/-- The switch of `gettoken` at `q`: the token's kind and its end. -/
def kindAt (q : Nat) : UInt8 × Nat :=
  let c := charAt s q
  if c = 0 then (0, q)
  else if c ∈ ['|', '(', ')', ';', '&', '<'].map Char.toUInt8 then (c, q + 1)
  else if c = '>'.toUInt8 then
    if charAt s (q + 1) = '>'.toUInt8 then ('+'.toUInt8, q + 2) else (c, q + 1)
  else ('a'.toUInt8, scan s wordChar q)

def gettoken (ps : Nat) : Got :=
  let q := scan s (strchr whitespace) ps
  let kind := kindAt s q
  ⟨kind.1, q, kind.2, scan s (strchr whitespace) kind.2⟩

/-- `peek`: its answer and where it leaves `*ps`. -/
def peek (ps : Nat) (toks : List Char) : Bool × Nat :=
  let ps := scan s (strchr whitespace) ps
  (charAt s ps ≠ 0 ∧ strchr (toks.map Char.toUInt8) (charAt s ps), ps)

/-! ## The parser -/

abbrev Cursors := Nat × Nat

/-- The REDIR node of `parseredirs` for the token `tok`. -/
def redircmd (tok : UInt8) (cmd : Cmd Cursors) (file : Cursors) : Cmd Cursors :=
  if tok = '<'.toUInt8 then .redir cmd file O_RDONLY 0
  else if tok = '>'.toUInt8 then .redir cmd file (O_WRONLY ||| O_CREATE ||| O_TRUNC) 1
  else if tok = '+'.toUInt8 then .redir cmd file (O_WRONLY ||| O_CREATE) 1
  else cmd

def parseredirs : Nat → Cmd Cursors → Nat → Parse (Cmd Cursors × Nat)
  | 0, _, _ => .hungry
  | fuel + 1, cmd, ps =>
    let (more, ps) := peek s ps ['<', '>']
    if more then
      let op := gettoken s ps
      let file := gettoken s op.ps
      if file.tok ≠ 'a'.toUInt8 then .panic "missing file for redirection"
      else parseredirs fuel (redircmd op.tok cmd (file.q, file.eq)) file.ps
    else .ok (cmd, ps)

/-- The loop of `parseline` over the `&`s. -/
def parsebacks : Nat → Cmd Cursors → Nat → Parse (Cmd Cursors × Nat)
  | 0, _, _ => .hungry
  | fuel + 1, cmd, ps =>
    let (more, ps) := peek s ps ['&']
    if more then parsebacks fuel (.back cmd) (gettoken s ps).ps else .ok (cmd, ps)

/-- The loop of `parseexec` over the words. -/
def parseargs : Nat → Cmd Cursors → Nat → Nat → Parse (Cmd Cursors × Nat)
  | 0, _, _, _ => .hungry
  | fuel + 1, ret, argc, ps =>
    let (stop, ps) := peek s ps ['|', ')', '&', ';']
    if stop then .ok (ret, ps)
    else
      let g := gettoken s ps
      if g.tok = 0 then .ok (ret, g.ps)
      else if g.tok ≠ 'a'.toUInt8 then .panic "syntax"
      else if argc + 1 ≥ MAXARGS then .panic "too many args"
      else do
        let (ret, ps) ← parseredirs s fuel (ret.pushArg (g.q, g.eq)) g.ps
        parseargs fuel ret (argc + 1) ps

mutual

def parseline : Nat → Nat → Parse (Cmd Cursors × Nat)
  | 0, _ => .hungry
  | fuel + 1, ps => do
    let (cmd, ps) ← parsepipe fuel ps
    let (cmd, ps) ← parsebacks s fuel cmd ps
    let (more, ps) := peek s ps [';']
    if more then do
      let (rest, ps) ← parseline fuel (gettoken s ps).ps
      return (.list cmd rest, ps)
    else return (cmd, ps)

def parsepipe : Nat → Nat → Parse (Cmd Cursors × Nat)
  | 0, _ => .hungry
  | fuel + 1, ps => do
    let (cmd, ps) ← parseexec fuel ps
    let (more, ps) := peek s ps ['|']
    if more then do
      let (rest, ps) ← parsepipe fuel (gettoken s ps).ps
      return (.pipe cmd rest, ps)
    else return (cmd, ps)

def parseblock : Nat → Nat → Parse (Cmd Cursors × Nat)
  | 0, _ => .hungry
  | fuel + 1, ps =>
    let (opened, ps) := peek s ps ['(']
    if ¬ opened then .panic "parseblock"
    else do
      let (cmd, ps) ← parseline fuel (gettoken s ps).ps
      let (closed, ps) := peek s ps [')']
      if ¬ closed then .panic "syntax - missing )"
      else parseredirs s fuel cmd (gettoken s ps).ps

def parseexec : Nat → Nat → Parse (Cmd Cursors × Nat)
  | 0, _ => .hungry
  | fuel + 1, ps =>
    let (block, ps) := peek s ps ['(']
    if block then parseblock fuel ps
    else do
      let (ret, ps) ← parseredirs s fuel (.exec []) ps
      parseargs s fuel ret 0 ps

end

end

/-! ## `parsecmd` -/

/-- `nulterminate`: the stores of a NUL at the end of each word of the tree. -/
def nulterminate : Cmd Cursors → List UInt8 → List UInt8
  | .exec argv, s => argv.foldl (fun s a => s.set a.2 0) s
  | .redir c file _ _, s => (nulterminate c s).set file.2 0
  | .pipe l r, s => nulterminate r (nulterminate l s)
  | .list l r, s => nulterminate r (nulterminate l s)
  | .back c, s => nulterminate c s

/-- `parsecmd`: the tree and the buffer its words are in afterwards. -/
def parsecmd (fuel : Nat) (s : List UInt8) : Parse (Cmd Cursors × List UInt8) := do
  let (cmd, ps) ← parseline s fuel 0
  let (_, ps) := peek s ps []
  if ps ≠ s.length then .panic "syntax" else return (cmd, nulterminate cmd s)

/-- The C string that starts at `q` in the buffer. -/
def cstr (s : List UInt8) (a : Cursors) : List UInt8 := (s.drop a.1).takeWhile (· ≠ 0)

/-- The tree as its user reads it: `argv[i]` and `file` are C strings in the buffer. -/
def strings (t : Cmd Cursors × List UInt8) : Cmd (List UInt8) := t.1.map (cstr t.2)

end Xv6.Sh
