import V7Besm.Coop.Code

/-!
The state of the kernel.

The block buffers and the drivers are part of every state; what the rest of the
kernel keeps is the parameter `σ`, so the routines of `dev/bio.c` cannot touch it.
Pointers to buffer headers are values of `Hdr`: the pool, the head of the
available list and the heads of the two device chains.
-/

namespace V7Besm

open Coop Function

abbrev Pid := Nat

/-- `dev_t`, a signed number. -/
abbrev Dev := Int

def NODEV : Dev := -1

def major (x : Dev) : Int := x / 256

def minor (x : Dev) : Int := x % 256

abbrev NBUF : Nat := 16
abbrev BSIZEW : Int := 512

/-- The rows of `bdevsw`: the disks and the drums. -/
inductive Major where
  | md | mb
  deriving DecidableEq, Repr

/-- `&bdevsw[major(dev)]`, if there is such a row. -/
def bdevsw (dev : Dev) : Option Major :=
  if major dev = 0 then some .md else if major dev = 1 then some .mb else none

/-- `struct buf *`. -/
inductive Hdr where
  | pool (i : Fin NBUF)
  | bfreelist
  | tab (m : Major)
  deriving DecidableEq, Repr

/-- A header of the pool, not the head of a list. -/
def Hdr.isPool : Hdr → Bool
  | .pool _ => true
  | _ => false

/-- The words of a block. -/
abbrev Words := Nat → Int

/-- `b_flags`. -/
structure Flags where
  read : Bool := false
  done : Bool := false
  error : Bool := false
  busy : Bool := false
  wanted : Bool := false
  age : Bool := false
  async : Bool := false
  delwri : Bool := false
  tape : Bool := false
  deriving DecidableEq, Repr

/-- `struct buf`, with the words its `b_addr` leads to. -/
structure Buf where
  flags : Flags
  (forw back avForw avBack : Hdr)
  dev : Dev
  (wcount blkno error resid : Int)
  data : Words

/-- The headers, the platters and the queues of the drivers.

A transfer may fail only where `faulty` says so, and a driver refuses such a
transfer outright while the device is `down`. `last` and `lastResid` are history: the
words of a block when a buffer was last written, and the residue it was last
put off with. -/
structure Cache where
  buf : Hdr → Buf
  disk : Dev → Int → Words
  queue : Major → List Hdr
  faulty : Dev → Int → Bool
  down : Bool
  last : Dev → Int → Words
  lastResid : Dev → Int → Int

/-- What a process can sleep on. -/
inductive Chan where
  | buf (bp : Hdr)
  deriving DecidableEq, Repr

/-- The state of the kernel: what each process sleeps on, its `u_error`, the
buffers, and the rest. -/
structure Kernel (σ : Type) where
  wchan : Pid → Option Chan
  error : Pid → Int
  cache : Cache
  core : σ

/-- Code of the kernel. -/
abbrev K (σ α : Type) := Code Pid (Kernel σ) α

namespace Cache

def set (c : Cache) (bp : Hdr) (f : Buf → Buf) : Cache :=
  { c with buf := update c.buf bp (f (c.buf bp)) }

/-- Change the flags of a header. -/
def flag (c : Cache) (bp : Hdr) (f : Flags → Flags) : Cache :=
  c.set bp fun b => { b with flags := f b.flags }

def setForw (c : Cache) (bp x : Hdr) : Cache := c.set bp fun b => { b with forw := x }

def setBack (c : Cache) (bp x : Hdr) : Cache := c.set bp fun b => { b with back := x }

def setAvForw (c : Cache) (bp x : Hdr) : Cache := c.set bp fun b => { b with avForw := x }

def setAvBack (c : Cache) (bp x : Hdr) : Cache := c.set bp fun b => { b with avBack := x }

/-- Put words on a platter. -/
def write (c : Cache) (dev : Dev) (blkno : Int) (w : Words) : Cache :=
  { c with disk := update c.disk dev (update (c.disk dev) blkno w) }

def setLast (c : Cache) (dev : Dev) (blkno : Int) (w : Words) : Cache :=
  { c with last := update c.last dev (update (c.last dev) blkno w) }

end Cache

namespace Kernel

variable {σ : Type}

def buf (s : Kernel σ) (bp : Hdr) : Buf := s.cache.buf bp

def onCache (f : Cache → Cache) (s : Kernel σ) : Kernel σ := { s with cache := f s.cache }

@[simp] theorem cache_onCache (f : Cache → Cache) (s : Kernel σ) :
    (s.onCache f).cache = f s.cache := rfl

/-- Everybody who sleeps on `chan` is ready to run. -/
def wakeup (chan : Chan) (s : Kernel σ) : Kernel σ :=
  { s with wchan := fun p => if s.wchan p = some chan then none else s.wchan p }

end Kernel

section Code

variable {σ : Type}

def onCache (f : Cache → Cache) : K σ Unit := .modify (Kernel.onCache f)

/-- Give the processor up until somebody calls `wakeup chan`. -/
def sleep (chan : Chan) : K σ Unit := do
  .act fun p s => ((), { s with wchan := update s.wchan p (some chan) })
  .yield

/-- The interrupt level a routine runs at. -/
inductive Level where
  | spl0 | spl6

/-- Interrupts are taken between two statements at level 0. -/
def pause : Level → K σ Unit
  | .spl0 => .window
  | .spl6 => .ret ()

end Code

end V7Besm
