/-
grep.c. A string is the list of its characters before the NUL: behind the last one the
code reads the NUL. How read() splits its input is an oracle: the number of bytes the
next call returns is any from one to what was asked for, and none only at the end of the
input, or if none was asked for.
-/
import Xv6.Lib.Buffer

namespace Xv6.Grep

open Lib

/-- '^', '$', '.', '*' and '\n' -/
def caret : UInt8 := 94
def dollar : UInt8 := 36
def dot : UInt8 := 46
def star : UInt8 := 42
def newline : UInt8 := 10

/-! ## The matcher -/

/-- The loop of matchstar; `here` is matchhere for the pattern behind the star. -/
def starLoop (c : UInt8) (here : List UInt8 → Bool) : List UInt8 → Bool
  | [] => here []
  | t :: text => here (t :: text) || (t = c || c = dot) && starLoop c here text

/-- Search for re at beginning of text. -/
def matchhere : List UInt8 → List UInt8 → Bool
  | [], _ => true
  | [c], text =>
    -- re[1] is the NUL
    if c = dollar then text.isEmpty
    else match text with
      | [] => false
      | t :: _ => c = dot || c = t
  | c :: d :: re, text =>
    if d = star then starLoop c (matchhere re) text
    else match text with
      | [] => false
      | t :: text => (c = dot || c = t) && matchhere (d :: re) text

/-- Search for c*re at beginning of text. -/
def matchstar (c : UInt8) (re text : List UInt8) : Bool := starLoop c (matchhere re) text

/-- The loop of match over the ends of the text, the empty one included. -/
def matchLoop (re : List UInt8) : List UInt8 → Bool
  | [] => matchhere re []
  | t :: text => matchhere re (t :: text) || matchLoop re text

/-- The source's match. -/
def matchText : List UInt8 → List UInt8 → Bool
  | [], text => matchLoop [] text
  | c :: re, text => if c = caret then matchhere re text else matchLoop (c :: re) text

/-! ## The lines -/

/-- sizeof(buf) -/
def BUF : Nat := 1024

/-- The string in memory `s`. -/
def cstr (s : List UInt8) : List UInt8 := s.takeWhile (· ≠ 0)

/-- Where the first `c` of the string is. -/
def strchr (c : UInt8) : List UInt8 → Option Nat
  | [] => none
  | a :: s => if a = 0 then none else if a = c then some 0 else (strchr c s).map (· + 1)

/-- Memory from `p` to the end of the buffer. -/
def fromP (buf : Buffer BUF) (p : Nat) : List UInt8 := buf.read p (BUF - p)

/-- The loop over the lines in the buffer: the buffer, p and what has been written after it. Every round passes a
newline of the buffer. -/
def scan (pattern : List UInt8) : Nat → Buffer BUF → Nat → List UInt8 → Buffer BUF × Nat × List UInt8
  | 0, buf, p, out => (buf, p, out)
  | k + 1, buf, p, out =>
    match strchr newline (fromP buf p) with
    | none => (buf, p, out)
    | some i =>
      let q := p + i
      let buf := buf.write q [0]
      if matchText pattern (cstr (fromP buf p)) then
        let buf := buf.write q [newline]
        scan pattern k buf (q + 1) (out ++ buf.read p (q + 1 - p))
      else scan pattern k buf (q + 1) out

/-- The bytes a read of `n` bytes returns; `choice` is up to whatever is read from. -/
def read (choice : Nat) (stream : List UInt8) (n : Nat) : List UInt8 := stream.take (min n (choice + 1))

/-- The loop of grep: `m` bytes are in the buffer, and `stream` is left to read. Every round reads a byte. -/
def grepLoop (pattern : List UInt8) : Nat → (Nat → Nat) → List UInt8 → Buffer BUF → Nat → List UInt8 → List UInt8
  | 0, _, _, _, _, out => out
  | k + 1, choice, stream, buf, m, out =>
    let data := read (choice k) stream (BUF - m - 1)
    if data = [] then out
    else
      let m := m + data.length
      let (buf, p, out) := scan pattern BUF ((buf.write (m - data.length) data).write m [0]) 0 out
      grepLoop pattern k choice (stream.drop data.length) (buf.write 0 (buf.read p (m - p))) (m - p) out

/-- What grep writes; `buf` is what the buffer holds from before. -/
def grep (pattern : List UInt8) (choice : Nat → Nat) (stream : List UInt8) (buf : Buffer BUF) : List UInt8 :=
  grepLoop pattern (stream.length + 1) choice stream buf 0 []

end Xv6.Grep
