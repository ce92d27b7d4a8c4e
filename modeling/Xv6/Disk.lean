/-
The disk as the kernel sees it: blocks of BSIZE bytes. A block is read and written through the
little-endian integers of its structs (`Buffer.getLE`, `Buffer.putLE`): an `int` or
`uint` is four bytes, a `short` two.
-/
import Xv6.Lib.Buffer
import Xv6.Param

namespace Xv6

open Lib

/-- Block size, of fs.h. -/
def BSIZE : Nat := 1024

/-- The data of one disk block. -/
abbrev Block := Buffer BSIZE

end Xv6
