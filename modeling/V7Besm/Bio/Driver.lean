import V7Besm.Kernel

/-!
The drivers of the disks and the drums (`dev/md.c`, `dev/mb.c`), as far as the
buffers see them, and the part of `dev/bio.c` that runs at interrupt level.

A driver keeps a queue of headers and works on the first one. It refuses a
request it cannot address, gives up on one the device does not take, and
otherwise ends it by an interrupt, having moved all the words or only some.
-/

namespace V7Besm.Bio

open Coop

variable {σ : Type}

/-! ### `brelse` and `iodone` -/

/-- Wake those who wait for this buffer. -/
def wakeWanted (bp : Hdr) (s : Kernel σ) : Kernel σ :=
  if (s.buf bp).flags.wanted then s.wakeup (.buf bp) else s

/-- Wake those who wait for any buffer. -/
def wakeFree (s : Kernel σ) : Kernel σ :=
  if (s.buf .bfreelist).flags.wanted then
    (s.onCache (·.flag .bfreelist fun f => { f with wanted := false })).wakeup (.buf .bfreelist)
  else s

/-- No association on error. -/
def dropError (bp : Hdr) (c : Cache) : Cache :=
  if (c.buf bp).flags.error then c.set bp fun b => { b with dev := NODEV } else c

def linkFront (bp : Hdr) (c : Cache) : Cache :=
  let c := c.setAvBack (c.buf .bfreelist).avForw bp
  let c := c.setAvForw bp (c.buf .bfreelist).avForw
  let c := c.setAvForw .bfreelist bp
  c.setAvBack bp .bfreelist

def linkBack (bp : Hdr) (c : Cache) : Cache :=
  let c := c.setAvForw (c.buf .bfreelist).avBack bp
  let c := c.setAvBack bp (c.buf .bfreelist).avBack
  let c := c.setAvBack .bfreelist bp
  c.setAvForw bp .bfreelist

/-- Put the header on the available list, in front if it is aged. -/
def putAvail (bp : Hdr) (c : Cache) : Cache :=
  (if (c.buf bp).flags.age then linkFront bp c else linkBack bp c).flag bp fun f =>
    { f with wanted := false, busy := false, async := false, age := false }

/-- `brelse` at interrupt level. -/
def release (bp : Hdr) (s : Kernel σ) : Kernel σ :=
  (wakeFree (wakeWanted bp s)).onCache fun c => putAvail bp (dropError bp c)

/-- `iodone` at interrupt level. -/
def complete (bp : Hdr) (s : Kernel σ) : Kernel σ :=
  let s := s.onCache (·.flag bp fun f => { f with done := true })
  if (s.buf bp).flags.async then release bp s
  else (s.onCache (·.flag bp fun f => { f with wanted := false })).wakeup (.buf bp)

/-! ### The queue -/

/-- The driver cannot express the request. -/
def bad : Major → Buf → Bool
  | .md, b => b.wcount == 0 || b.wcount % 512 != 0 || b.blkno < 0 || minor b.dev ≥ 64 ||
      b.blkno + b.wcount / 512 > 2000
  | .mb, b => b.wcount == 0 || b.wcount % 256 != 0 || b.blkno < 0 ||
      b.blkno * 2 + b.wcount / 256 > 2048

/-- The device does not take the request. -/
def refused (c : Cache) (bp : Hdr) : Bool := c.down && c.faulty (c.buf bp).dev (c.buf bp).blkno

def setQueue (m : Major) (l : List Hdr) (c : Cache) : Cache :=
  { c with queue := Function.update c.queue m l }

/-- The first words of one block, the rest of another. -/
def mix (n : Nat) (a b : Words) : Words := fun i => if i < n then a i else b i

/-- Move words: `into` the buffer of a request to read, `onto` the platter
otherwise. -/
def transfer (bp : Hdr) (into onto : Words) (c : Cache) : Cache :=
  let b := c.buf bp
  if b.flags.read then c.set bp fun b => { b with data := into } else c.write b.dev b.blkno onto

/-- Move the first `n` words of a request that fails. -/
def movePart (bp : Hdr) (n : Nat) (c : Cache) : Cache :=
  let b := c.buf bp
  let platter := c.disk b.dev b.blkno
  transfer bp (mix n platter b.data) (mix n b.data platter) c

/-- Move all the words of a request. -/
def moveAll (bp : Hdr) (c : Cache) : Cache :=
  let b := c.buf bp
  transfer bp (c.disk b.dev b.blkno) b.data c

/-- End the request with an error, `n` words into it. -/
def giveUp (bp : Hdr) (n : Nat) (s : Kernel σ) : Kernel σ :=
  complete bp (s.onCache (·.set bp fun b =>
    { b with flags := { b.flags with error := true }, resid := b.wcount - n }))

/-- `mdstart`, `mbstart`: start the first request of the queue that the device
takes, giving up on those before it. -/
def start (m : Major) : List Hdr → Kernel σ → Kernel σ
  | [], s => s
  | bp :: rest, s =>
    if refused s.cache bp then start m rest (giveUp bp 0 (s.onCache (setQueue m rest)))
    else s

/-- Put a request at the end of the queue; an idle driver starts it. -/
def enqueue (m : Major) (bp : Hdr) (s : Kernel σ) : Kernel σ :=
  let l := s.cache.queue m ++ [bp]
  let t := s.onCache (setQueue m l)
  if s.cache.queue m = [] then start m l t else t

/-! ### Interrupts -/

/-- A request ends well or badly, or the devices go down or come back. -/
inductive Intr where
  | done (m : Major)
  | fail (m : Major) (moved : Nat)
  | power (down : Bool)
  deriving DecidableEq, Repr

/-- The words a request of one block can have moved before it fails: the drums
move it in two exchanges. -/
def chunk : Major → Nat → Bool
  | .md, n => n == 0
  | .mb, n => n == 0 || n == 256

def intr : Intr → Kernel σ → Option (Kernel σ)
  | .done m, s =>
    match s.cache.queue m with
    | [] => none
    | bp :: rest =>
      let s := s.onCache fun c =>
        setQueue m rest ((moveAll bp c).set bp fun b => { b with resid := 0 })
      some (start m rest (complete bp s))
  | .fail m n, s =>
    match s.cache.queue m with
    | [] => none
    | bp :: rest =>
      if s.cache.faulty (s.buf bp).dev (s.buf bp).blkno && chunk m n then
        some (start m rest (giveUp bp n (s.onCache fun c => setQueue m rest (movePart bp n c))))
      else none
  | .power b, s => some (s.onCache fun c => { c with down := b })

end V7Besm.Bio
