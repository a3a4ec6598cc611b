import V7Besm.Slp.Collision
import V7Besm.Bio.Order
import V7Besm.Tty.Delim
import V7Besm.Exec.Hand
import V7Besm.Pipe.Deliver
import V7Besm.Alloc.Range
import V7Besm.Swap.Runs
import V7Besm.Fs.Drain
import V7Besm.Libc.Allocator
import V7Besm.Stdio.Deliver
import V7Besm.Ld.Library
import V7Besm.Ld.Merge
import V7Besm.Ld.Agree
import V7Besm.Ar.Ranlib
import V7Besm.Fs.Iget
import V7Besm.Fs.Trunc
import V7Besm.Fs.Bmap
import V7Besm.Mem.Ucopy
import V7Besm.Mem.Resize
import V7Besm.Fs.Writei
import V7Besm.Clock.Callout
import V7Besm.Sig.Frame
import V7Besm.Time.Calendar
import V7Besm.Sim.Divide
import V7Besm.Sim.Gather
