import V7Besm.Bio.Driver

/-!
The buffer cache (`dev/bio.c`), as processes run it.

Each routine takes the interrupt level it is called at where that matters. A
step is one statement; the statements that move a header from one list to
another are one step together, as no interrupt looks at the device chains and
the available list is changed with interrupts blocked.
-/

namespace V7Besm.Bio

open Coop

variable {σ : Type}

def EIO : Int := 5

def bufOf (bp : Hdr) : K σ Buf := .read (·.buf bp)

/-- Pass the error of the device to the user. -/
def geterror (bp : Hdr) : K σ Unit := .act fun p s =>
  let e := if (s.buf bp).error = 0 then EIO else (s.buf bp).error
  ((), if (s.buf bp).flags.error then { s with error := Function.update s.error p e } else s)

/-- Release the buffer, with no I/O implied. -/
def brelse (lv : Level) (bp : Hdr) : K σ Unit := do
  .modify (wakeWanted bp)
  pause lv
  .modify wakeFree
  pause lv
  onCache (dropError bp)
  pause lv
  onCache (putAvail bp)
  pause lv

/-- Mark I/O complete on a buffer. -/
def iodone (lv : Level) (bp : Hdr) : K σ Unit := do
  onCache (·.flag bp fun f => { f with done := true })
  pause lv
  let b ← bufOf bp
  if b.flags.async then brelse lv bp
  else do
    onCache (·.flag bp fun f => { f with wanted := false })
    pause lv
    .modify (·.wakeup (.buf bp))
    pause lv

/-- `(*bdevsw[..].d_strategy)(bp)`. -/
def strategy (lv : Level) (m : Major) (bp : Hdr) : K σ Unit := do
  let b ← bufOf bp
  if bad m b then
    onCache (·.flag bp fun f => { f with error := true })
    pause lv
    onCache (·.set bp fun b => { b with resid := b.wcount })
    pause lv
    iodone lv bp
  else
    .modify (enqueue m bp)
    pause lv

/-- Wait for I/O completion on the buffer. -/
def iowait (bp : Hdr) : K σ Unit := do
  .loop (fun _ : Unit => do
    let b ← bufOf bp
    if b.flags.done then return .inr ()
    else
      sleep (.buf bp)
      return .inl ()) ()
  .window
  geterror bp

def unlinkAvail (bp : Hdr) (c : Cache) : Cache :=
  let c := c.setAvForw (c.buf bp).avBack (c.buf bp).avForw
  c.setAvBack (c.buf bp).avForw (c.buf bp).avBack

/-- Unlink a buffer from the available list and mark it busy. -/
def notavail (bp : Hdr) (c : Cache) : Cache :=
  (unlinkAvail bp c).flag bp fun f => { f with busy := true }

def unchain (bp : Hdr) (c : Cache) : Cache :=
  let c := c.setForw (c.buf bp).back (c.buf bp).forw
  c.setBack (c.buf bp).forw (c.buf bp).back

def chainFront (bp dp : Hdr) (c : Cache) : Cache :=
  let c := c.setForw bp (c.buf dp).forw
  let c := c.setBack bp dp
  let c := c.setBack (c.buf dp).forw bp
  c.setForw dp bp

/-- Give a header that is off the available list to another block: move it to
the front of the chain of `dp`. -/
def assign (bp dp : Hdr) (dev : Dev) (blkno : Int) (c : Cache) : Cache :=
  let c := c.flag bp fun _ => { busy := true }
  (chainFront bp dp (unchain bp c)).set bp fun b => { b with dev := dev, blkno := blkno }

/-- History: the words of the buffer are the block's from now on. -/
def written (bp : Hdr) (c : Cache) : Cache :=
  let b := c.buf bp
  if b.dev = NODEV then c else c.setLast b.dev b.blkno b.data

/-- History: the residue the buffer is put off with. -/
def putOff (bp : Hdr) (c : Cache) : Cache :=
  let b := c.buf bp
  let row := Function.update (c.lastResid b.dev) b.blkno b.resid
  { c with lastResid := Function.update c.lastResid b.dev row }

/-- The end of `bwrite`: unless the write was asynchronous, wait for completion
and release the buffer. -/
def afterWrite (lv : Level) (flag : Flags) (bp : Hdr) : K σ Unit := do
  if !flag.async then
    iowait bp
    brelse lv bp
  else if flag.delwri then
    onCache (·.flag bp fun f => { f with age := true })
    pause lv
  else geterror bp

/-- Write the buffer. -/
def bwrite (lv : Level) (bp : Hdr) : K σ Unit := do
  let b ← bufOf bp
  onCache fun c => (written bp c).flag bp fun f =>
    { f with read := false, done := false, error := false, delwri := false, age := false }
  pause lv
  onCache (·.set bp fun b => { b with wcount := BSIZEW })
  pause lv
  match bdevsw b.dev with
  | none => .halt
  | some m =>
    strategy lv m bp
    afterWrite lv b.flags bp

/-- Release the buffer, start I/O on it, but don't wait for completion. -/
def bawrite (lv : Level) (bp : Hdr) : K σ Unit := do
  onCache (·.flag bp fun f => { f with async := true })
  pause lv
  bwrite lv bp

/-- Release the buffer, marking it to be written before it is given up. -/
def bdwrite (lv : Level) (bp : Hdr) : K σ Unit := do
  let b ← bufOf bp
  match bdevsw b.dev with
  | none => .halt
  | some m =>
    let dp ← bufOf (.tab m)
    if dp.flags.tape then bawrite lv bp
    else
      onCache fun c => (putOff bp (written bp c)).flag bp fun f =>
        { f with delwri := true, done := true }
      pause lv
      brelse lv bp

/-! ### Finding a buffer -/

/-- Follow the chain of a device to the header of a block. -/
def chained (m : Major) (dev : Dev) (blkno : Int) : K σ (Option Hdr) := do
  let dp ← bufOf (.tab m)
  .loop (fun bp => do
    if bp = .tab m then return .inr none
    else
      let b ← bufOf bp
      if b.blkno ≠ blkno ∨ b.dev ≠ dev then
        .window
        return .inl b.forw
      else
        return .inr (some bp)) dp.forw

/-- See if the block is associated with some buffer. -/
def incore (dev : Dev) (blkno : Int) : K σ Bool :=
  match bdevsw dev with
  | none => .halt
  | some m => do
      let found ← chained m dev blkno
      return found.isSome

/-- Take the first header off the available list. If its write was put off,
start it and answer nothing. -/
def takeFirst : K σ (Option Hdr) := do
  .window
  let f ← bufOf .bfreelist
  .window
  onCache (notavail f.avForw)
  .window
  let b ← bufOf f.avForw
  if b.flags.delwri then
    onCache (·.flag f.avForw fun f => { f with async := true })
    .window
    bwrite .spl0 f.avForw
    return none
  else
    return some f.avForw

/-- Wait until there is a header on the available list; answers whether there
was one without waiting. -/
def awaitFree : K σ Bool := do
  let f ← bufOf .bfreelist
  if f.avForw = .bfreelist then
    onCache (·.flag .bfreelist fun f => { f with wanted := true })
    sleep (.buf .bfreelist)
    return false
  else return true

/-- Assign a buffer for the given block. -/
def getblk (dev : Dev) (blkno : Int) : K σ Hdr :=
  match bdevsw dev with
  | none => .halt
  | some m => .loop (fun _ : Unit => do
      .window
      match ← chained m dev blkno with
      | some bp =>
        .window
        let b ← bufOf bp
        if b.flags.busy then
          onCache (·.flag bp fun f => { f with wanted := true })
          sleep (.buf bp)
          return .inl ()
        else
          .window
          onCache (notavail bp)
          .window
          return .inr bp
      | none =>
        if ← awaitFree then
          match ← takeFirst with
          | none => return .inl ()
          | some bp =>
            .window
            onCache (assign bp (.tab m) dev blkno)
            .window
            return .inr bp
        else return .inl ()) ()

/-- Get an empty block, not assigned to any particular device. -/
def geteblk : K σ Hdr :=
  .loop (fun _ : Unit => do
    if ← awaitFree then
      match ← takeFirst with
      | none => return .inl ()
      | some bp =>
        .window
        onCache fun c => assign bp .bfreelist NODEV (c.buf bp).blkno c
        .window
        return .inr bp
    else return .inl ()) ()

/-! ### Reading and flushing -/

/-- Start to read a buffer. -/
def startRead (async : Bool) (m : Major) (bp : Hdr) : K σ Unit := do
  onCache (·.flag bp fun f => { f with read := true, async := f.async || async })
  .window
  onCache (·.set bp fun b => { b with wcount := BSIZEW })
  .window
  strategy .spl0 m bp

/-- Read in (if necessary) the block and return a buffer pointer. -/
def bread (dev : Dev) (blkno : Int) : K σ Hdr :=
  match bdevsw dev with
  | none => .halt
  | some m => do
      let bp ← getblk dev blkno
      let b ← bufOf bp
      if b.flags.done then return bp
      else
        startRead false m bp
        iowait bp
        return bp

/-- The first half of `breada`: start to read the block itself, unless it is
in core. -/
def readOne (m : Major) (dev : Dev) (blkno : Int) : K σ (Option Hdr) := do
  if ← incore dev blkno then return none
  else
    let bp ← getblk dev blkno
    let b ← bufOf bp
    if b.flags.done then return some bp
    else
      startRead false m bp
      return some bp

/-- The second half: start to read the block after it. -/
def readAhead (m : Major) (dev : Dev) (rablkno : Int) : K σ Unit := do
  if rablkno = 0 then return ()
  else if ← incore dev rablkno then return ()
  else
    let rabp ← getblk dev rablkno
    let b ← bufOf rabp
    if b.flags.done then brelse .spl0 rabp
    else startRead true m rabp

/-- Read in the block, like `bread`, but also start I/O on the read-ahead block. -/
def breada (dev : Dev) (blkno rablkno : Int) : K σ Hdr :=
  match bdevsw dev with
  | none => .halt
  | some m => do
      let bp ← readOne m dev blkno
      readAhead m dev rablkno
      match bp with
      | none => bread dev blkno
      | some bp =>
        iowait bp
        return bp

/-- The next header on the available list whose write was put off. -/
def delayed (dev : Dev) : K σ (Option Hdr) := do
  let f ← bufOf .bfreelist
  .loop (fun bp => do
    if bp = .bfreelist then return .inr none
    else
      let b ← bufOf bp
      if b.flags.delwri ∧ (dev = NODEV ∨ dev = b.dev) then return .inr (some bp)
      else return .inl b.avForw) f.avForw

/-- Make sure all write-behind blocks on `dev` (or `NODEV` for all) are flushed
out. -/
def bflush (dev : Dev) : K σ Unit := do
  .loop (fun _ : Unit => do
    match ← delayed dev with
    | none => return .inr ()
    | some bp =>
      -- With interrupts blocked nobody sees the two statements apart.
      onCache fun c => (notavail bp c).flag bp fun f => { f with async := true }
      bwrite .spl6 bp
      return .inl ()) ()
  .window

end V7Besm.Bio
