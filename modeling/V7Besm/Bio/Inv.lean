import V7Besm.Bio.Cache
import V7Besm.Links.Ring

/-!
What is always true of the buffers.

Every header is in one of a few conditions (`Cond`): free, held by a process, in
the hands of a driver for a process or for nobody, or pinned by the kernel.
`Fit` says what the header and the words it stands for look like in each, and
`Wired` how the headers are linked. What a process owns of the buffers is its
tokens, one for each header it holds or waits for.
-/

namespace V7Besm.Bio

open Links

/-- The driver can address the block. -/
def reach : Major → Dev → Int → Bool
  | .md, dev, blkno => 0 ≤ blkno && minor dev < 64 && blkno + 1 ≤ 2000
  | .mb, _, blkno => 0 ≤ blkno && blkno * 2 + 2 ≤ 2048

theorem bad_eq {m : Major} {b : Buf} (full : b.wcount = BSIZEW) :
    bad m b = !reach m b.dev b.blkno := by
  cases m with
  | md | mb =>
    simp only [bad, reach, full, BSIZEW]
    rw [Bool.eq_iff_iff]
    simp

/-- Transfers of the block cannot fail. -/
def Reliable (c : Cache) (dev : Dev) (blkno : Int) : Prop :=
  ∃ m, bdevsw dev = some m ∧ reach m dev blkno = true ∧ c.faulty dev blkno = false

theorem bdevsw_nodev : bdevsw NODEV = none := by decide

theorem Reliable.ne_nodev {c : Cache} {dev : Dev} {blkno : Int} (r : Reliable c dev blkno) :
    dev ≠ NODEV := by
  rintro rfl
  obtain ⟨m, row, -⟩ := r
  simp [bdevsw_nodev] at row

/-- A header and the block it stands for, without the links: its fields, the
drivers that have it, and the words of the block on the platter and in the
history. -/
structure Look where
  flags : Flags
  dev : Dev
  (blkno wcount resid : Int)
  data : Words
  inQueue : Major → Prop
  reliable : Prop
  disk : Words
  last : Words
  lastResid : Int

/-- How a header looks if it has the fields of `b`. -/
def lookOf (c : Cache) (bp : Hdr) (b : Buf) : Look :=
  { flags := b.flags, dev := b.dev, blkno := b.blkno, wcount := b.wcount, resid := b.resid
    data := b.data, inQueue := fun m => bp ∈ c.queue m, reliable := Reliable c b.dev b.blkno
    disk := c.disk b.dev b.blkno, last := c.last b.dev b.blkno
    lastResid := c.lastResid b.dev b.blkno }

def look (c : Cache) (bp : Hdr) : Look := lookOf c bp (c.buf bp)

/-- What a process that holds a header knows of it. Others may still ask for
the buffer, so `wanted` is not known. -/
structure Snap where
  dev : Dev
  (blkno wcount resid : Int)
  flags : Flags
  data : Words
  last : Words
  lastResid : Int

/-- What the kernel knows of a header it refers to: `dirty` if the header must not
be released without being written, and whether an earlier write is put off. -/
structure Pin where
  dirty : Bool := false
  delwri : Bool := false
  deriving DecidableEq, Repr

namespace Look

variable (v : Look)

def snap : Snap :=
  { dev := v.dev, blkno := v.blkno, wcount := v.wcount, resid := v.resid
    flags := { v.flags with wanted := false }, data := v.data, last := v.last
    lastResid := v.lastResid }

/-- No driver has the header. -/
def Idle : Prop := ∀ m, ¬ v.inQueue m

/-- Exactly the driver of its device has the header. -/
def Queued : Prop := bdevsw v.dev ≠ none ∧ ∀ m, v.inQueue m ↔ bdevsw v.dev = some m

/-- The residue is that of a transfer, or what the buffer was put off with. -/
def ResidOk : Prop := v.resid = 0 ∨ v.resid = v.lastResid

/-- The request of a header in a queue will do what it should. -/
def Request : Prop :=
  v.reliable → v.flags.error = false ∧
    if v.flags.read then v.disk = v.last else v.data = v.last

/-- A transfer is over and went well. -/
def Settled : Prop :=
  v.reliable → v.flags.error = false ∧ v.data = v.last ∧ v.disk = v.last ∧ v.resid = 0

structure Free : Prop where
  busy : v.flags.busy = false
  async : v.flags.async = false
  idle : v.Idle
  delwri : v.dev ≠ NODEV → v.flags.delwri = true → v.flags.done = true ∧ v.data = v.last
  error : v.reliable → v.flags.error = false
  done : v.reliable → v.flags.done = true → v.data = v.last ∧ v.ResidOk
  disk : v.reliable → v.flags.delwri = false → v.disk = v.last

structure Held (k : Snap) (writing : Bool) : Prop where
  busy : v.flags.busy = true
  idle : v.Idle
  snap : v.snap = k
  delwri : v.dev ≠ NODEV → v.flags.delwri = true → v.flags.done = true
  error : v.reliable → v.flags.error = false
  disk : v.reliable → v.flags.delwri = false → writing = false → v.disk = v.last

structure Io (read : Bool) (dev : Dev) (blkno : Int) : Prop where
  busy : v.flags.busy = true
  async : v.flags.async = false
  delwri : v.flags.delwri = false
  read : v.flags.read = read
  dev : v.dev = dev
  blkno : v.blkno = blkno
  state : v.flags.done = false ∧ v.Queued ∧ v.Request ∨ v.flags.done = true ∧ v.Idle ∧ v.Settled

structure Async : Prop where
  busy : v.flags.busy = true
  async : v.flags.async = true
  delwri : v.flags.delwri = false
  done : v.flags.done = false
  queued : v.Queued
  request : v.Request

/-- Nothing would be lost if the header were released as it is. -/
structure Clean : Prop where
  delwri : v.dev ≠ NODEV → v.flags.delwri = true → v.data = v.last
  done : v.reliable → v.flags.done = true → v.data = v.last ∧ v.ResidOk
  disk : v.reliable → v.flags.delwri = false → v.disk = v.last

structure Pinned (x : Pin) : Prop where
  async : v.flags.async = false
  held : v.Held v.snap false
  delwri : v.flags.delwri = x.delwri
  clean : x.dirty = false → v.flags.error = false → v.Clean

end Look

/-- The condition of a header. `writing` is set while a write is being
prepared. -/
inductive Cond where
  | head
  | free
  | held (p : Pid) (k : Snap) (writing : Bool)
  | io (p : Pid) (read : Bool) (dev : Dev) (blkno : Int)
  | async
  | pinned (x : Pin)

/-- What a process owns of a header. -/
inductive Token where
  | held (k : Snap) (writing : Bool)
  | io (read : Bool) (dev : Dev) (blkno : Int)

/-- The headers a process owns. -/
abbrev Hold := Hdr → Option Token

def Cond.token : Cond → Pid → Option Token
  | .held p k w, q => if q = p then some (.held k w) else none
  | .io p r dev blkno, q => if q = p then some (.io r dev blkno) else none
  | _, _ => none

def Cond.pin : Cond → Option Pin
  | .pinned x => some x
  | _ => none

/-- The header looks as its condition asks. No device is a tape. -/
def Fit (v : Look) : Cond → Prop
  | .head => v.Idle ∧ v.flags.tape = false
  | .free => v.Free
  | .held _ k w => v.Held k w
  | .io _ r dev blkno => v.Io r dev blkno
  | .async => v.Async
  | .pinned x => v.Pinned x

/-- The lists the headers are on: the available list, and for each head its
device chain. -/
structure Lists where
  av : List Hdr
  chain : Hdr → List Hdr
  home : Hdr → Hdr

/-- The links form the lists. Every header of the pool is on the chain of its
home and on no other, and it is available exactly when it is not busy. -/
structure Wired (c : Cache) (L : Lists) : Prop where
  av : Ring (fun h => (c.buf h).avForw) (fun h => (c.buf h).avBack) .bfreelist L.av
  chain : ∀ h, h.isPool = false →
    Ring (fun h => (c.buf h).forw) (fun h => (c.buf h).back) h (L.chain h)
  head : ∀ bp, (L.home bp).isPool = false
  mem : ∀ bp h, h.isPool = false → (bp ∈ L.chain h ↔ bp.isPool = true ∧ L.home bp = h)
  avail : ∀ bp, bp ∈ L.av ↔ bp.isPool = true ∧ (c.buf bp).flags.busy = false
  dev : ∀ bp, bp.isPool = true → (c.buf bp).dev ≠ NODEV →
    ∃ m, bdevsw (c.buf bp).dev = some m ∧ L.home bp = .tab m
  unique : ∀ bp bq, bp.isPool = true → bq.isPool = true → (c.buf bp).dev ≠ NODEV →
    (c.buf bp).dev = (c.buf bq).dev → (c.buf bp).blkno = (c.buf bq).blkno → bp = bq

/-- The block is in no buffer. -/
def Absent (c : Cache) (dev : Dev) (blkno : Int) : Prop :=
  ∀ bp, bp.isPool = true → ¬ ((c.buf bp).dev = dev ∧ (c.buf bp).blkno = blkno)

/-- The buffers are in order, with the lists `L` and the conditions `st`. -/
structure Inv (c : Cache) (L : Lists) (st : Hdr → Cond) : Prop where
  wired : Wired c L
  head : ∀ bp, st bp = .head ↔ bp.isPool = false
  fit : ∀ bp, Fit (look c bp) (st bp)
  nodup : ∀ m, (c.queue m).Nodup
  away : ∀ dev blkno, Reliable c dev blkno → Absent c dev blkno →
    c.disk dev blkno = c.last dev blkno

/-- The buffers are in order, the processes own the tokens `G` and the headers
of `pin` are pinned. -/
def Cached (c : Cache) (G : Pid → Hold) (pin : Hdr → Option Pin) : Prop :=
  ∃ L st, Inv c L st ∧ (∀ p bp, G p bp = (st bp).token p) ∧ ∀ bp, pin bp = (st bp).pin

end V7Besm.Bio
