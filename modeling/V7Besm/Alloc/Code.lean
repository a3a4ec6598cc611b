import V7Besm.Kernel

/-!
Free blocks and free inodes: `alloc.c` on the superblock of one volume.

What stands in the blocks of the volume, which inodes are in core and what `iget`
returns is up to the surroundings, which may change between any two sleeps; `bread`,
`getblk`, `bwrite`, `iget` and `iput` are sleeps of any number. The blocks and inodes that
`iput` frees with the last reference are calls of `free` and `ifree` like any other.
-/

namespace V7Besm.Alloc

open Coop Function

abbrev NICFREE : Int := 320
abbrev NICINOD : Int := 160
abbrev INOPB : Nat := 32
abbrev NADDR : Int := 8
abbrev SUPERB : Int := 0
abbrev ROOTINO : Int := 2
def FS_MAGIC : Int := 0xBE50006F11E5

def ENOSPC : Int := 28

/-- `struct filsys`. The two arrays go on beyond their ends, into what stands behind them. -/
structure Filsys where
  (magic bsize inopb naddr isize fsize tfree tinode flock ilock fmod nfree : Int)
  free : Int → Int
  ninode : Int
  inode : Int → Int

/-- Is this plausibly a superblock? -/
def sbcheck (fp : Filsys) : Bool :=
  if fp.magic ≠ FS_MAGIC then true
  else if fp.bsize ≠ BSIZEW ∨ fp.inopb ≠ INOPB ∨ fp.naddr ≠ NADDR then true
  else if fp.isize ≤ SUPERB ∨ fp.isize ≥ fp.fsize then true
  else if fp.nfree < 0 ∨ fp.nfree > NICFREE ∨ fp.ninode < 0 ∨ fp.ninode > NICINOD then true
  else false

def badblock (fp : Filsys) (bn : Int) : Bool := decide (bn < fp.isize ∨ bn ≥ fp.fsize)

/-- What a process can sleep on: `s_flock`, `s_ilock`, a block, an inode. -/
inductive Chan where
  | flock | ilock | block | inode
  deriving DecidableEq, Repr

/-- The surroundings: the words of the blocks, the blocks that cannot be had yet and those
that cannot be read; the inodes in core, whether an inode can be had, and the mode
with which `iget` returns it (none if it does not). -/
structure Around where
  word : Int → Nat → Int
  busy : Int → Bool
  failed : Int → Bool
  incore : Int → Bool
  locked : Bool
  mode : Int → Option Int

/-- `len` words were stored, the first at index `start`. -/
structure Span where
  start : Int
  len : Int

/-- The superblock and the processes that use it. The rest is history: the stores to `s_free`
and to `s_inode`, the processes that scan the i-list, and whether `ifree` has stored
an i-number while one of them did. -/
structure World where
  fs : Filsys
  around : Around
  wchan : Pid → Option Chan
  error : Pid → Int
  frees : List Span
  inodes : List Int
  scanning : List Pid
  slipped : Bool

namespace World

def onFs (f : Filsys → Filsys) (s : World) : World := { s with fs := f s.fs }

def setChan (s : World) (p : Pid) (c : Option Chan) : World :=
  { s with wchan := update s.wchan p c }

def wakeup (chan : Chan) (s : World) : World :=
  { s with wchan := fun p => if s.wchan p = some chan then none else s.wchan p }

/-- `s_free[i] = bno`. -/
def putFree (i bno : Int) (s : World) : World :=
  { s with fs := { s.fs with free := update s.fs.free i bno }
           frees := ⟨i, 1⟩ :: s.frees }

/-- `s_inode[s_ninode++] = ino`. -/
def putInode (ino : Int) (s : World) : World :=
  { s with fs := { s.fs with inode := update s.fs.inode s.fs.ninode ino
                             ninode := s.fs.ninode + 1 }
           inodes := s.fs.ninode :: s.inodes }

/-- The free list goes on in the chain block `bno`. -/
def loadChain (bno : Int) (s : World) : World :=
  { s with fs := { s.fs with nfree := s.around.word bno 0
                             free := fun i => if 0 ≤ i ∧ i < NICFREE then
                               s.around.word bno (1 + i.toNat) else s.fs.free i }
           frees := ⟨0, NICFREE⟩ :: s.frees }

/-- The free list is put into the chain block `bno`. -/
def storeChain (bno : Int) (s : World) : World :=
  let words : Nat → Int := fun i =>
    if i = 0 then s.fs.nfree else if i ≤ NICFREE.toNat then s.fs.free (i - 1 : Nat) else 0
  { s with around := { s.around with word := update s.around.word bno words }
           fs := { s.fs with nfree := 0 } }

end World

/-! ### Code -/

abbrev C := Code Pid World

/-- Give the processor up until `wakeup chan`. -/
def sleep (chan : Chan) : C Unit := do
  .act fun p s => ((), s.setChan p (some chan))
  .yield

def setError (e : Int) : C Unit := .act fun p s =>
  ((), { s with error := update s.error p e })

/-- Sleep as long as the surroundings say so. -/
def await (busy : Around → Bool) (chan : Chan) : C Unit := .loop (fun _ => do
  .window
  if busy (← .read World.around) then
    sleep chan
    return .inl ()
  else return .inr ()) ()

/-- Have a block in a buffer, and say whether it could not be read. -/
def bread (bno : Int) : C Bool := do
  await (·.busy bno) .block
  return (← .read World.around).failed bno

def getblk (bno : Int) : C Unit := await (·.busy bno) .block

def bwrite (bno : Int) : C Unit := await (·.busy bno) .block

/-- The mode of the inode that `iget` returns, if it returns one. -/
def iget (ino : Int) : C (Option Int) := do
  await (·.locked) .inode
  return (← .read World.around).mode ino

def iput : C Unit := await (·.locked) .inode

/-- The superblock, after a check of its counts. -/
def getfs : C Unit := .modify <| World.onFs fun fp =>
  if fp.nfree > NICFREE ∨ fp.ninode > NICINOD then { fp with nfree := 0, ninode := 0 } else fp

def waitFlock : C Unit := .loop (fun _ => do
  if (← .read World.fs).flock ≠ 0 then
    sleep .flock
    return .inl ()
  else return .inr ()) ()

def waitIlock : C Unit := .loop (fun _ => do
  if (← .read World.fs).ilock ≠ 0 then
    sleep .ilock
    return .inl ()
  else return .inr ()) ()

def releaseFlock : C Unit := .modify fun s =>
  (s.onFs fun fp => { fp with flock := 0 }).wakeup .flock

/-- Take the next block off the free list, past the bad ones. -/
def pop : C (Option Int) := .loop (fun _ => do
  let fp ← .read World.fs
  if fp.nfree ≤ 0 then return .inr none
  else if fp.nfree > NICFREE then return .inr none
  else
    .modify <| World.onFs fun fp => { fp with nfree := fp.nfree - 1 }
    let bno := fp.free (fp.nfree - 1)
    if bno = 0 then return .inr none
    else if badblock fp bno then return .inl ()
    else return .inr (some bno)) ()

def nospace : C (Option Int) := do
  .modify <| World.onFs fun fp => { fp with nfree := 0, tfree := 0, fmod := 1 }
  setError ENOSPC
  return none

/-- The end of `alloc`: the block is cleared and counted. -/
def handOut (bno : Int) : C (Option Int) := do
  getblk bno
  .modify <| World.onFs fun fp => { fp with fmod := 1, tfree := fp.tfree - 1 }
  return some bno

/-- Obtain a free block. -/
def alloc : C (Option Int) := do
  getfs
  waitFlock
  match ← pop with
  | none => nospace
  | some bno =>
    if (← .read World.fs).nfree ≤ 0 then
      .modify <| World.onFs fun fp => { fp with flock := fp.flock + 1 }
      let failed ← bread bno
      if failed then
        releaseFlock
        if (← .read World.fs).nfree ≤ 0 then nospace else handOut bno
      else
        .modify <| World.loadChain bno
        releaseFlock
        if (← .read World.fs).nfree ≤ 0 then nospace else handOut bno
    else handOut bno

/-- The block is the next one on the free list. -/
def push (bno : Int) : C Unit := .modify fun s =>
  (s.putFree s.fs.nfree bno).onFs fun fp =>
    { fp with nfree := fp.nfree + 1, tfree := fp.tfree + 1, fmod := 1 }

/-- Put a block back on the free list. -/
def free (bno : Int) : C Unit := do
  getfs
  .modify <| World.onFs fun fp => { fp with fmod := 1 }
  waitFlock
  if badblock (← .read World.fs) bno then return ()
  else
    .modify fun s =>
      if s.fs.nfree ≤ 0 then World.putFree 0 0 (s.onFs fun fp => { fp with nfree := 1 }) else s
    if (← .read World.fs).nfree ≥ NICFREE then
      .modify <| World.onFs fun fp => { fp with flock := fp.flock + 1 }
      getblk bno
      .modify <| World.storeChain bno
      bwrite bno
      releaseFlock
      push bno
    else push bno

/-- The inodes of a block of the i-list, from `ino` on: `n` of them are left. -/
def scanBlock (adr : Int) : Nat → Int → World → World
  | 0, _, s => s
  | n + 1, ino, s =>
    if s.around.word adr (16 * (INOPB - (n + 1))) ≠ 0 ∨ s.around.incore ino then
      scanBlock adr n (ino + 1) s
    else
      let s := s.putInode ino
      if s.fs.ninode ≥ NICINOD then s else scanBlock adr n (ino + 1) s

def World.enterScan (p : Pid) (s : World) : World :=
  { s with fs := { s.fs with ilock := s.fs.ilock + 1 }, scanning := p :: s.scanning }

def World.leaveScan (p : Pid) (s : World) : World :=
  { s with fs := { s.fs with ilock := 0 }, scanning := s.scanning.filter (· ≠ p) }.wakeup .ilock

/-- Search the i-list for free inodes. -/
def scan : C Unit := do
  .act fun p s => ((), s.enterScan p)
  .loop (fun x => do
    let (adr, ino) := x
    if adr < (← .read World.fs).isize then
      let failed ← bread adr
      if failed then return .inl (adr + 1, ino + INOPB)
      else
        .modify (scanBlock adr INOPB ino)
        if (← .read World.fs).ninode ≥ NICINOD then return .inr ()
        else return .inl (adr + 1, ino + INOPB)
    else return .inr ()) (SUPERB + 1, 1)
  .act fun p s => ((), s.leaveScan p)

/-- Allocate an unused inode. -/
def ialloc : C (Option Int) := do
  getfs
  waitIlock
  .loop (fun _ => do
    let fp ← .read World.fs
    if fp.ninode > 0 then
      .modify <| World.onFs fun fp => { fp with ninode := fp.ninode - 1 }
      let ino := fp.inode (fp.ninode - 1)
      if ino < ROOTINO then return .inl ()
      else
        match ← iget ino with
        | none => return .inr none
        | some mode =>
          if mode = 0 then
            .modify <| World.onFs fun fp => { fp with fmod := 1, tinode := fp.tinode - 1 }
            return .inr (some ino)
          else
            iput
            return .inl ()
    else
      scan
      if (← .read World.fs).ninode > 0 then return .inl ()
      else
        setError ENOSPC
        return .inr none) ()

/-- Free an inode. -/
def ifree (ino : Int) : C Unit := do
  getfs
  .modify <| World.onFs fun fp => { fp with tinode := fp.tinode + 1, fmod := 1 }
  let fp ← .read World.fs
  if fp.ilock ≠ 0 then return ()
  else if fp.ninode ≥ NICINOD then return ()
  else .modify fun s => { s.putInode ino with slipped := s.slipped || !s.scanning.isEmpty }

/-! ### Processes on one volume -/

inductive Call where
  | alloc
  | free (bno : Int)
  | ialloc
  | ifree (ino : Int)
  | getfs

def Call.code : Call → C Unit
  | .alloc => do let _ ← Alloc.alloc
  | .free bno => Alloc.free bno
  | .ialloc => do let _ ← Alloc.ialloc
  | .ifree ino => Alloc.ifree ino
  | .getfs => Alloc.getfs

/-- The surroundings change, and the sleepers look again. -/
def change (around : Around) (s : World) : Option World :=
  some (({ s with around }.wakeup .block).wakeup .inode)

/-- Any number of processes that use one volume. -/
def volume : System Pid World Call Around where
  code := Call.code
  entry _ _ _ := true
  awake p s := s.wchan p = none
  intr := change

/-- A volume that has just been mounted. -/
def mounted (fs : Filsys) (around : Around) : World where
  fs
  around
  wchan := fun _ => none
  error := fun _ => 0
  frees := []
  inodes := []
  scanning := []
  slipped := false

end V7Besm.Alloc
