import V7Besm.Bio.Inv

/-!
Processes that use the buffer cache.

Each process makes calls of `dev/bio.c`, one after the other. The desk records who
holds which header, and keeps a history: what `bread` returned, and what `bflush`
left. A process releases only headers it holds, and one whose words it has
changed only by writing it.
-/

namespace V7Besm.Bio

open Coop

/-! ### The start -/

/-- `binit` for one buffer: chain it, and release it. -/
def binitOne (bp : Hdr) (c : Cache) : Cache :=
  let c := c.set bp fun b => { b with dev := NODEV }
  let c := chainFront bp .bfreelist c
  putAvail bp (c.flag bp fun _ => { busy := true })

/-- The headers of the pool, in the order of the array `buf`. -/
def pool : List Hdr := (List.finRange NBUF).map .pool

/-- A head with nothing on its chain. -/
def selfChain (h : Hdr) (c : Cache) : Cache := (c.setForw h h).setBack h h

/-- Initialize the buffer I/O system by freeing all buffers. -/
def binit (c : Cache) : Cache :=
  let c := ((selfChain .bfreelist c).setAvForw .bfreelist .bfreelist).setAvBack .bfreelist .bfreelist
  let c := pool.foldl (fun c bp => binitOne bp c) c
  selfChain (.tab .mb) (selfChain (.tab .md) c)

/-- A header that nothing has touched. -/
def blank : Buf where
  flags := {}
  forw := .bfreelist
  back := .bfreelist
  avForw := .bfreelist
  avBack := .bfreelist
  dev := 0
  wcount := 0
  blkno := 0
  error := 0
  resid := 0
  data := fun _ => 0

/-- The cache when the system starts, over the platters `disk`. -/
def boot (disk : Dev → Int → Words) (faulty : Dev → Int → Bool) : Cache :=
  binit { buf := fun _ => blank, disk, queue := fun _ => [], faulty, down := false, last := disk
          lastResid := fun _ _ => 0 }

/-! ### Calls -/

/-- A return of `bread`: the words of the buffer, and those the block was last
written with. -/
structure Reading where
  dev : Dev
  blkno : Int
  data : Words
  last : Words

/-- A call of `bflush(NODEV)`: the buffers busy with a delayed write when it began,
and the buffers with a delayed write when it returned. -/
structure Flush where
  busy : List Hdr
  left : List Hdr

structure Desk where
  mine : Hdr → List (Pid × Pin)
  reads : List Reading
  flushes : List Flush

inductive Call where
  | getblk (dev : Dev) (blkno : Int)
  | geteblk
  | bread (dev : Dev) (blkno : Int)
  | breada (dev : Dev) (blkno rablkno : Int)
  | fill (bp : Hdr) (words : Words)
  | bwrite (bp : Hdr)
  | bdwrite (bp : Hdr)
  | bawrite (bp : Hdr)
  | brelse (bp : Hdr)
  | bflush (dev : Dev)

namespace Desk

def set (k : Desk) (bp : Hdr) (l : List (Pid × Pin)) : Desk :=
  { k with mine := Function.update k.mine bp l }

/-- Process `p` holds one more header. -/
def keep (k : Desk) (p : Pid) (bp : Hdr) (x : Pin) : Desk := k.set bp ((p, x) :: k.mine bp)

/-- Process `p` gives a header up. -/
def give (k : Desk) (p : Pid) (bp : Hdr) : Desk := k.set bp ((k.mine bp).filter (·.1 ≠ p))

/-- Process `p` has changed the words of a header. -/
def soil (k : Desk) (p : Pid) (bp : Hdr) : Desk :=
  k.set bp ((k.mine bp).map fun x => if x.1 = p then (p, { x.2 with dirty := true }) else x)

/-- Process `p` holds the header, and may release it as it is. -/
def holds (k : Desk) (p : Pid) (bp : Hdr) : Bool := (k.mine bp).any fun x => x.1 = p

def holdsClean (k : Desk) (p : Pid) (bp : Hdr) : Bool :=
  (k.mine bp).any fun x => x.1 = p && !x.2.dirty

end Desk

/-- The buffers with a delayed write. -/
def delayedWrites (s : Kernel Desk) : List Hdr := pool.filter fun bp => (s.buf bp).flags.delwri

/-- Those of them that are busy. -/
def busyWrites (s : Kernel Desk) : List Hdr :=
  pool.filter fun bp => (s.buf bp).flags.busy && (s.buf bp).flags.delwri

def keep (bp : Hdr) : K Desk Unit := .act fun p s =>
  ((), { s with core := s.core.keep p bp { delwri := (s.buf bp).flags.delwri } })

def give (bp : Hdr) : K Desk Unit := .act fun p s => ((), { s with core := s.core.give p bp })

def noteRead (dev : Dev) (blkno : Int) (bp : Hdr) : K Desk Unit := .modify fun s =>
  let r : Reading := ⟨dev, blkno, (s.buf bp).data, s.cache.last dev blkno⟩
  { s with core := { s.core with reads := r :: s.core.reads } }

def noteFlush (busy : List Hdr) : K Desk Unit := .modify fun s =>
  { s with core := { s.core with flushes := ⟨busy, delayedWrites s⟩ :: s.core.flushes } }

/-- The code behind a call. -/
def Call.code : Call → K Desk Unit
  | .getblk dev blkno => do keep (← Bio.getblk dev blkno)
  | .geteblk => do keep (← Bio.geteblk)
  | .bread dev blkno => do
      let bp ← Bio.bread dev blkno
      noteRead dev blkno bp
      keep bp
  | .breada dev blkno rablkno => do
      let bp ← Bio.breada dev blkno rablkno
      noteRead dev blkno bp
      keep bp
  | .fill bp words => .act fun p s =>
    ((), { s.onCache (·.set bp fun b => { b with data := words }) with core := s.core.soil p bp })
  | .bwrite bp => do give bp; Bio.bwrite .spl0 bp
  | .bdwrite bp => do give bp; Bio.bdwrite .spl0 bp
  | .bawrite bp => do give bp; Bio.bawrite .spl0 bp
  | .brelse bp => do give bp; Bio.brelse .spl0 bp
  | .bflush dev => do
      let busy ← .read busyWrites
      Bio.bflush dev
      if dev = NODEV then noteFlush busy

/-- A process releases, or changes, only what it holds. -/
def Call.allowed (p : Pid) (s : Kernel Desk) : Call → Bool
  | .fill bp _ | .bwrite bp | .bdwrite bp | .bawrite bp => s.core.holds p bp
  | .brelse bp => s.core.holdsClean p bp
  | _ => true

/-- Any number of processes that use the cache. -/
def traffic : System Pid (Kernel Desk) Call Intr where
  code := Call.code
  entry := Call.allowed
  awake p s := s.wchan p = none
  intr := intr

/-- The system starts, over the platters `disk`. -/
def started (disk : Dev → Int → Words) (faulty : Dev → Int → Bool) : Kernel Desk where
  wchan := fun _ => none
  error := fun _ => 0
  cache := boot disk faulty
  core := ⟨fun _ => [], [], []⟩

end V7Besm.Bio
