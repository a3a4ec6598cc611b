import V7Besm.Kernel

/-!
Pipes: `pipe.c`, with `readi` and `writei` of `rdwri.c` on the file of the pipe.

The file is an array of bytes; `bmap`, `bread` and `getblk` are a wait for the
disk, which may put the process to sleep any number of times. `b_resid` of the
buffer they return is whatever an earlier transfer left there. No call meets a device
error, a full device or a bad user address.
-/

namespace V7Besm.Pipe

open Coop
open Function (update)

abbrev Byte := BitVec 8

abbrev PIPSIZ : Int := 4096
abbrev BSIZE : Int := 3072

def EINTR : Int := 4
def EINVAL : Int := 22
def EPIPE : Int := 32

/-- Words to bytes. -/
def wtob (x : Int) : Int := x * 6

/-- `n` bytes of an array, from `o` on; none if `n` is negative. -/
def slice (f : Int → Byte) (o n : Int) : List Byte :=
  (List.range n.toNat).map fun i : Nat => f (o + i)

/-- Copy `n` bytes of `g`, from `b` on, to `o`. -/
def fill (f : Int → Byte) (o : Int) (g : Int → Byte) (b n : Int) : Int → Byte :=
  fun i => if o ≤ i ∧ i < o + n then g (b + (i - o)) else f i

/-! ### State -/

/-- A read that ended: the number it returned, and the bytes it put into the
buffer of the caller. -/
structure Read where
  val1 : Int
  bytes : List Byte

/-- What `writep` gave to one call of `writei`: `left` bytes were left of the write. -/
structure Chunk where
  left : Int
  bytes : List Byte

/-- The file of the pipe and `f_offset` of its read end. The rest is history:
the reads in the order in which they held the lock, the chunks, and the bytes
in the order in which `writei` stored them. -/
structure Store where
  size : Int
  data : Int → Byte
  offset : Int
  reads : List Read
  chunks : List Chunk
  stored : List Byte

/-- What a process can sleep on: `ip`, `CHANOF(ip, 1)`, `CHANOF(ip, 2)`, or a buffer. -/
inductive Chan where
  | inode | full | empty | io
  deriving DecidableEq, Repr

/-- The inode of a pipe (`lock` and `want` of `i_flag`, `iread` and `iwrite` of
`i_mode`, `i_count`), its file, the processes, and the disk. -/
structure World where
  (lock want iread iwrite : Bool)
  count : Int
  store : Store
  wchan : Pid → Option Chan
  sig : Pid → Bool
  error : Pid → Int
  ready : Bool
  resid : Int

namespace World

def setChan (s : World) (p : Pid) (c : Option Chan) : World :=
  { s with wchan := update s.wchan p c }

def wakeup (chan : Chan) (s : World) : World :=
  { s with wchan := fun p => if s.wchan p = some chan then none else s.wchan p }

/-- Unlock the inode, and wake up who wants it. -/
def prele (s : World) : World :=
  let s := { s with lock := false }
  if s.want then wakeup .inode { s with want := false } else s

/-- If the reader has caught up with the writer, reset offset and size. -/
def caughtUp (s : World) : World :=
  if s.store.offset = s.store.size then
    let s := { s with store := { s.store with offset := 0, size := 0 } }
    if s.iwrite then wakeup .full { s with iwrite := false } else s
  else s

/-- Let a sleeping reader know that there is something to read. -/
def notify (s : World) : World :=
  if s.iread then wakeup .empty { s with iread := false } else s

/-- Post a signal. -/
def psignal (p : Pid) (s : World) : World :=
  let s := { s with sig := update s.sig p true }
  -- `setrun` of a process that sleeps at a priority above `PZERO` is a `wakeup`
  match s.wchan p with
  | some .full => s.wakeup .full
  | some .empty => s.wakeup .empty
  | _ => s

end World

/-! ### Code -/

abbrev C := Code Pid World

/-- Give the processor up until `wakeup chan`. -/
def sleep (chan : Chan) : C Unit := do
  .act fun p s => ((), s.setChan p (some chan))
  .loop (fun _ => do
    .yield
    if ← .act fun p s => (decide (s.wchan p = none), s) then return .inr () else return .inl ()) ()

def issig : C Bool := .act fun p s => (s.sig p, s)

def setError (e : Int) : C Unit := .act fun p s =>
  ((), { s with error := update s.error p e })

/-- `sleep` at a priority above `PZERO`: a signal ends the call. -/
def sleepSig (chan : Chan) : C Bool := do
  if ← issig then
    setError EINTR
    return false
  else
    sleep chan
    if ← issig then
      setError EINTR
      return false
    else return true

def plock : C Unit := .loop (fun _ => do
  if ← .read World.lock then
    .modify fun s => { s with want := true }
    sleep .inode
    return .inl ()
  else
    .modify fun s => { s with lock := true }
    return .inr ()) ()

def prele : C Unit := .modify World.prele

/-- Have a block of the file in a buffer, and return its `b_resid`. -/
def bread : C Int := .loop (fun _ => do
  .window
  if ← .read World.ready then
    let resid ← .read World.resid
    return .inr resid
  else
    sleep .io
    return .inl ()) ()

/-- `u_base`, `u_count`, `u_offset`, and the bytes copied out to the user. -/
structure Io where
  (base count offset : Int)
  bytes : List Byte := []

/-- `iomove` has moved `n` bytes. -/
def Io.moved (io : Io) (n : Int) (bytes : List Byte) : Io :=
  ⟨io.base + n, io.count - n, io.offset + n, io.bytes ++ bytes⟩

def readi (io : Io) : C Io :=
  if io.count = 0 then .ret io
  else if io.offset < 0 then do
    setError EINVAL
    return io
  else .loop (fun io => do
    let on := io.offset % BSIZE
    let n := min (BSIZE - on) io.count
    let store ← .read World.store
    let diff := store.size - io.offset
    if diff ≤ 0 then return .inr io
    else
      let n := if diff < n then diff else n
      let resid ← bread
      let n := min n (BSIZE - wtob resid)
      let store ← .read World.store
      let io := if n ≠ 0 then io.moved n (slice store.data io.offset n) else io
      if io.count ≠ 0 ∧ 0 < n then return .inl io else return .inr io) io

/-- `iomove` into the file, and `i_size`. -/
def Store.put (k : Store) (src : Int → Byte) (io : Io) (n : Int) : Store :=
  { k with
    data := fill k.data io.offset src io.base n
    stored := k.stored ++ slice src io.base n
    size := if io.offset + n > k.size then io.offset + n else k.size }

def writei (src : Int → Byte) (io : Io) : C Io :=
  if io.offset < 0 then do
    setError EINVAL
    return io
  else if io.count = 0 then .ret io
  else .loop (fun io => do
    let on := io.offset % BSIZE
    let n := min (BSIZE - on) io.count
    let _ ← bread
    .modify fun s => { s with store := s.store.put src io n }
    let io := io.moved n []
    if io.count ≠ 0 then return .inl io else return .inr io) io

/-- The end of the transfer of a read of `count` bytes: `f_offset = u_offset`. -/
def Store.took (k : Store) (count : Int) (io : Io) : Store :=
  { k with offset := io.offset, reads := k.reads ++ [⟨count - io.count, io.bytes⟩] }

/-- A read of `count` bytes directed to the pipe. -/
def readp (count : Int) : C Unit := .loop (fun _ => do
  plock
  let store ← .read World.store
  if store.size = 0 then
    prele
    if (← .read World.count) < 2 then return .inr ()
    else
      .modify fun s => { s with iread := true }
      if ← sleepSig .empty then return .inl () else return .inr ()
  else
    let io ← readi { base := 0, count, offset := store.offset }
    .modify fun s => { s with store := s.store.took count io }
    .modify World.caughtUp
    prele
    return .inr ()) ()

/-- The beginning of a call of `writei`, when `c` bytes are left of the write. -/
def Store.begin (k : Store) (src : Int → Byte) (base c : Int) : Store :=
  { k with chunks := k.chunks ++ [⟨c, slice src base (min c PIPSIZ)⟩] }

/-- A write of `count` bytes of `src` directed to the pipe. -/
def writep (src : Int → Byte) (count : Int) : C Unit := .loop (fun x => do
  let (c, base) := x
  plock
  if c = 0 then
    prele
    return .inr ()
  else if (← .read World.count) < 2 then
    prele
    setError EPIPE
    .act fun p s => ((), s.psignal p)
    return .inr ()
  else if PIPSIZ ≤ (← .read World.store).size then
    .modify fun s => { s with iwrite := true }
    prele
    if ← sleepSig .full then return .inl (c, base) else return .inr ()
  else
    let offset ← .act fun _ s =>
      (s.store.size, { s with store := s.store.begin src base c })
    let io ← writei src { base, count := min c PIPSIZ, offset }
    prele
    .modify World.notify
    return .inl (c - min c PIPSIZ, io.base)) (count, 0)

/-- The last descriptor of one end is closed. -/
def closef : C Unit := do
  plock
  .modify fun s => (({ s with iread := false, iwrite := false }).wakeup .full).wakeup .empty
  .modify fun s => { s with count := s.count - 1 }
  prele

/-! ### Processes that share a pipe -/

inductive Call where
  | read (count : Int)
  | write (src : Int → Byte) (count : Int)
  | close

def Call.code : Call → C Unit
  | .read count => do setError 0; readp count
  | .write src count => do setError 0; writep src count
  | .close => do setError 0; closef

/-- What happens beside the calls: the disk has the next block or not, a signal
is posted, a signal has been taken. -/
inductive Intr where
  | disk (ready : Bool) (resid : Int)
  | signal (p : Pid)
  | taken (p : Pid)

def intr : Intr → World → Option World
  | .disk ready resid, s =>
    if 0 ≤ resid ∧ resid ≤ BSIZEW then some ({ s with ready, resid }.wakeup .io) else none
  | .signal p, s => some (s.psignal p)
  | .taken p, s => some { s with sig := update s.sig p false }

/-- Any number of processes that share the two ends of one pipe. -/
def sharing : System Pid World Call Intr where
  code := Call.code
  entry p s _ := s.wchan p = none
  awake p s := s.wchan p = none
  intr := intr

/-- A pipe that `pipe` has just made, over a file with bytes `data`. -/
def fresh (data : Int → Byte) : World where
  lock := false
  want := false
  iread := false
  iwrite := false
  count := 2
  store := ⟨0, data, 0, [], [], []⟩
  wchan := fun _ => none
  sig := fun _ => false
  error := fun _ => 0
  ready := true
  resid := 0

end V7Besm.Pipe
