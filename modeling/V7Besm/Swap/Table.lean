import V7Besm.Kernel
import V7Besm.Map.Pool

/-!
Process images and shared texts: the tables that `slp.c`, `text.c` and `sys1.c` keep.

The image of a process is one run of core, or one run of blocks of the paging store; so is
a shared text, which keeps its blocks as long as it has an entry. `Place`, `mover`, `counted`,
`held`, `owner` and `args` are history: they say what a run taken from a map is for, and no
code looks at them.
-/

namespace V7Besm.Swap

open Coop Map Function

/-- The index of an entry of `text`. -/
abbrev Xid := Nat

/-- An inode, by its place in the table. -/
abbrev Ino := Nat

/-- `wtodb`: the blocks of so many words. -/
def wtodb (n : Nat) : Nat := n / 512

/-- `p_stat`. A process that is `live` runs, sleeps or is stopped, and `wchan` tells; `born`
is one that has never been on the run queue. -/
inductive Stat where
  | null | born | live | idl | zomb
  deriving DecidableEq, Repr

/-- Where the image of a process is, and what has been taken to move it. -/
inductive Place where
  /-- There is none. -/
  | nowhere
  | core
  | disk
  /-- `n` words of core, which are to be written out; `p_size` may be another size already. -/
  | leaving (n : Nat)
  /-- The image of the parent, of which a copy is to be made. -/
  | shared
  /-- `os` words of core are being written to the blocks at `a`. -/
  | out (os a : Nat)
  /-- The image of the parent is being written to the blocks at `a`. -/
  | copy (a : Nat)
  /-- The blocks are to be read to `a`; `counted` once the text is there. -/
  | inn (a : Nat) (counted : Bool)
  deriving DecidableEq, Repr

/-- The text that goes with the image is in use in core. -/
def Place.inCore : Place → Bool
  | .core | .leaving _ | .shared => true
  | .inn _ counted => counted
  | _ => false

/-- `struct proc`. -/
structure Proc where
  stat : Stat
  /-- `SLOAD` -/
  load : Bool
  /-- `SLOCK` -/
  lock : Bool
  addr : Nat
  size : Nat
  textp : Option Xid
  place : Place
  /-- The process that moves the image. -/
  mover : Option Pid
  /-- The text whose `x_ccount` counts the process. -/
  counted : Option Xid
  deriving DecidableEq, Repr

/-- `struct text`. There are fewer processes than the two counts can number. -/
structure Text where
  (daddr caddr size : Nat)
  iptr : Option Ino
  count : Int
  ccount : Int
  /-- `XLOAD` -/
  load : Bool
  /-- `XLOCK` -/
  lock : Bool
  /-- `XWRIT` -/
  writ : Bool
  /-- The core at `caddr` is allocated. -/
  held : Bool
  /-- The process that has set `XLOCK`. -/
  owner : Option Pid
  deriving DecidableEq, Repr

/-- What a process can sleep on: a transfer, or a text. -/
inductive Chan where
  | io
  | text (x : Xid)
  deriving DecidableEq, Repr

structure World where
  proc : Pid → Proc
  text : Xid → Text
  /-- `XWANT` -/
  want : Xid → Bool
  wchan : Pid → Option Chan
  coremap : List Entry
  swapmap : List Entry
  /-- `ITEXT` -/
  itext : Ino → Bool
  /-- `ISVTX` -/
  sticky : Ino → Bool
  /-- `i_dev` -/
  dev : Ino → Dev
  /-- The blocks in which `exece` collects arguments. -/
  args : Pid → Option Entry
  /-- Some process has unlocked a text that another one had locked. -/
  foul : Bool
  /-- A text has been given up before a process that waited for it got it. -/
  slipped : Bool

/-! ### Who owns the runs -/

inductive Owner where
  | proc (p : Pid)
  | text (x : Xid)
  | args (p : Pid)
  deriving DecidableEq, Repr

def Proc.coreRun (k : Proc) : Option Entry :=
  match k.place with
  | .core => some ⟨k.size, k.addr⟩
  | .leaving n => some ⟨n, k.addr⟩
  | .out os _ => some ⟨os, k.addr⟩
  | .inn a _ => some ⟨k.size, a⟩
  | _ => none

def Proc.swapRun (k : Proc) : Option Entry :=
  match k.place with
  | .disk => some ⟨wtodb k.size, k.addr⟩
  | .out _ a => some ⟨wtodb k.size, a⟩
  | .copy a => some ⟨wtodb k.size, a⟩
  | .inn _ _ => some ⟨wtodb k.size, k.addr⟩
  | _ => none

def Text.coreRun (k : Text) : Option Entry := if k.held then some ⟨k.size, k.caddr⟩ else none

def Text.swapRun (k : Text) : Option Entry :=
  if k.iptr.isSome then some ⟨wtodb k.size, k.daddr⟩ else none

/-- The run of `coremap` that belongs to an owner. -/
def World.coreRun (s : World) : Owner → Option Entry
  | .proc p => (s.proc p).coreRun
  | .text x => (s.text x).coreRun
  | .args _ => none

/-- The run of `swapmap` that belongs to an owner. -/
def World.swapRun (s : World) : Owner → Option Entry
  | .proc p => (s.proc p).swapRun
  | .text x => (s.text x).swapRun
  | .args p => s.args p

/-! ### Changes of the tables -/

namespace World

def setProc (q : Pid) (k : Proc) (s : World) : World := { s with proc := update s.proc q k }

def setText (x : Xid) (k : Text) (s : World) : World := { s with text := update s.text x k }

def onProc (q : Pid) (f : Proc → Proc) (s : World) : World := s.setProc q (f (s.proc q))

def onText (x : Xid) (f : Text → Text) (s : World) : World := s.setText x (f (s.text x))

def setCore (m : List Entry) (s : World) : World := { s with coremap := m }

def setSwap (m : List Entry) (s : World) : World := { s with swapmap := m }

def setArgs (p : Pid) (r : Option Entry) (s : World) : World := { s with args := update s.args p r }

def setChan (p : Pid) (c : Option Chan) (s : World) : World :=
  { s with wchan := update s.wchan p c }

def wakeup (chan : Chan) (s : World) : World :=
  { s with wchan := fun p => if s.wchan p = some chan then none else s.wchan p }

def giveCore (n a : Nat) (s : World) : World := s.setCore (mfree s.coremap n a)

def giveSwap (n a : Nat) (s : World) : World := s.setSwap (mfree s.swapmap n a)

/-- A process goes on with an entry that has been given up. -/
def slip (gone : Bool) (s : World) : World := { s with slipped := s.slipped || gone }

end World

end V7Besm.Swap
