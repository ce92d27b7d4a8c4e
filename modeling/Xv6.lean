import Xv6.Log.Reservation
import Xv6.Proc.Sbrk
import Xv6.Proc.Fork
import Xv6.Proc.Kill
import Xv6.Proc.Refs
import Xv6.Fs.Budget
import Xv6.Fs.Agree
import Xv6.Pipe.Fault
import Xv6.Pipe.Sleepers
import Xv6.Console.Mirror
import Xv6.Bio.Room
import Xv6.Sched.Wakeup
import Xv6.Sched.Family
import Xv6.Sched.Innermost
import Xv6.Sh.Strings
import Xv6.Sh.Redirect
import Xv6.Grep.Match
import Xv6.Grep.Lines
import Xv6.Umalloc.Kernel
import Xv6.Memmove
import Xv6.Printf
import Xv6.Spinlock.Nesting
import Xv6.Virtio.Protocol
