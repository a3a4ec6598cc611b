import V7Besm.Fs.Kernel

/-!
The host tool's allocators (`alloc.cpp`, and the block access of `image.cpp`).

A function that throws leaves the superblock as far as it has come, so its result is an
outcome and a state. The image is open for writing and the file below it has no errors
of its own.
-/

namespace V7Besm.Fs

open Alloc Function

/-- What an `FsError` says. -/
inductive FsError where
  | noSpace
  | badFreeCount (nfree : Int)
  | badChainCount (bno nfree : Int)
  | outsideImage (bno nblk : Int)
  | notDataBlock (bno isize fsize : Int)
  | doesNotFit (v : Int)
  | outOfInodes (count : Int)
  | notAllocatable (ino : Int)
  | noInode (ino : Int)
  | pastIlist (ino : Int)
  | negativeBlock
  | fileTooLarge
deriving DecidableEq, Repr

def FsError.text : FsError → String
  | noSpace => "no space: the free list is exhausted"
  | badFreeCount nfree => s!"bad free count: s_nfree is {nfree}"
  | badChainCount bno nfree => s!"chain block {bno} has a bad count ({nfree})"
  | outsideImage bno nblk => s!"block {bno} is outside the image ({nblk} blocks)"
  | notDataBlock bno isize fsize =>
    s!"block {bno} is not a data block (i-list ends at {isize}, volume is {fsize})"
  | doesNotFit v => s!"value {v} does not fit a BESM-6 int"
  | outOfInodes count => s!"out of inodes: the i-list is full ({count} inodes)"
  | notAllocatable ino => s!"inode {ino} is not allocatable"
  | noInode ino => s!"inode {ino} does not exist"
  | pastIlist ino => s!"inode {ino} is past the end of the i-list"
  | negativeBlock => "negative block number in bmap"
  | fileTooLarge => "file too large: block number is past the double indirect"

/-- `Filesystem`: the superblock's mirror and the image. -/
structure Filesystem where
  sb : Filsys
  disk : Disk
  nblk : Int

namespace Filesystem

/-- `seek_block` refuses the block. -/
def outside (f : Filesystem) (bno : Int) : Bool := decide (bno < 0 ∨ bno ≥ f.nblk)

def badBlock (f : Filesystem) (bno : Int) : Bool := decide (bno < f.sb.isize ∨ bno ≥ f.sb.fsize)

def inodeCount (f : Filesystem) : Int := (f.sb.isize - SUPERB - 1) * INOPB

/-- A block is written. -/
def put (f : Filesystem) (bno : Int) (words : Nat → Nat) : Filesystem :=
  { f with disk := update f.disk bno words }

end Filesystem

/-! ### Blocks -/

/-- The loop of `block_alloc` over the cache. -/
def popCache (f : Filesystem) : Nat → Except FsError Int × Filesystem
  | 0 => (.error .noSpace, f)
  | n + 1 =>
    let bno := f.sb.free n
    let f := { f with sb := { f.sb with nfree := n } }
    if bno = 0 then (.error .noSpace, f)
    else if f.badBlock bno then popCache f n
    else (.ok bno, f)

/-- The cache is read back from the chain block `bno`. -/
def loadChain (f : Filesystem) (bno : Int) : Except FsError Unit × Filesystem :=
  if f.outside bno then (.error (.outsideImage bno f.nblk), f)
  else
    let nfree := f.disk.get bno 0
    let f := { f with sb := { f.sb with nfree := nfree } }
    if nfree < 0 ∨ nfree > NICFREE then (.error (.badChainCount bno nfree), f)
    else
      let f := { f with sb := { f.sb with free := chainFree f.disk bno f.sb.free } }
      if nfree ≤ 0 then (.error .noSpace, f) else (.ok (), f)

/-- The end of `block_alloc`: the block is cleared and counted. -/
def clearBlock (f : Filesystem) (bno : Int) : Except FsError Int × Filesystem :=
  if f.outside bno then (.error (.outsideImage bno f.nblk), f)
  else
    let f := f.put bno fun _ => 0
    (.ok bno, { f with sb := { f.sb with tfree := f.sb.tfree - 1 } })

def blockAlloc (f : Filesystem) : Except FsError Int × Filesystem :=
  if f.sb.nfree ≤ 0 then (.error .noSpace, f)
  else if f.sb.nfree > NICFREE then (.error (.badFreeCount f.sb.nfree), f)
  else
    match popCache f f.sb.nfree.toNat with
    | (.error e, f) => (.error e, f)
    | (.ok bno, f) =>
      if f.sb.nfree ≤ 0 then
        match loadChain f bno with
        | (.error e, f) => (.error e, f)
        | (.ok (), f) => clearBlock f bno
      else clearBlock f bno

/-- The first of the values that go into a chain block that does not fit a word. -/
def unfit (sb : Filsys) : Option Int :=
  (sb.nfree :: (List.range NICFREE.toNat).map fun i : Nat => sb.free i).find? fun v => ¬ Fits v

/-- `free[nfree++] = bno`. -/
def cacheBlock (f : Filesystem) (bno : Int) : Filesystem :=
  { f with sb := { f.sb with
      free := update f.sb.free f.sb.nfree bno
      nfree := f.sb.nfree + 1
      tfree := f.sb.tfree + 1 } }

def blockFree (f : Filesystem) (bno : Int) : Except FsError Unit × Filesystem :=
  if f.badBlock bno then (.error (.notDataBlock bno f.sb.isize f.sb.fsize), f)
  else
    let f := { f with sb := sentinel f.sb }
    if f.sb.nfree ≥ NICFREE then
      match unfit f.sb with
      | some v => (.error (.doesNotFit v), f)
      | none =>
        if f.outside bno then (.error (.outsideImage bno f.nblk), f)
        else
          let f := f.put bno (chainWords f.sb)
          (.ok (), cacheBlock { f with sb := { f.sb with nfree := 0 } } bno)
    else (.ok (), cacheBlock f bno)

/-! ### Inodes -/

/-- The slots of a block of the i-list, `n` of them left, the next one that of `ino`. -/
def refillBlock (adr : Int) : Nat → Int → Filesystem → Filesystem
  | 0, _, f => f
  | n + 1, ino, f =>
    if ino < ROOTINO then refillBlock adr n (ino + 1) f
    else if f.disk.get adr ((INOPB - (n + 1)) * 16) ≠ 0 then refillBlock adr n (ino + 1) f
    else
      let f := { f with sb := { f.sb with
        inode := update f.sb.inode f.sb.ninode ino
        ninode := f.sb.ninode + 1 } }
      if f.sb.ninode ≥ NICINOD then f else refillBlock adr n (ino + 1) f

/-- The search of the i-list from the block `adr` on, `n` blocks of it left. -/
def refill : Nat → Int → Int → Filesystem → Except FsError Unit × Filesystem
  | 0, _, _, f => (.ok (), f)
  | n + 1, adr, ino, f =>
    if f.outside adr then (.error (.outsideImage adr f.nblk), f)
    else
      let f := refillBlock adr INOPB ino f
      if f.sb.ninode ≥ NICINOD then (.ok (), f) else refill n (adr + 1) (ino + INOPB) f

/-- One turn of the loops of `inode_alloc`: a number from the cache, or the search. -/
def inodeAllocTurn (f : Filesystem) : Filesystem ⊕ (Except FsError Int × Filesystem) :=
  if f.sb.ninode > 0 then
    let ino := f.sb.inode (f.sb.ninode - 1)
    let f := { f with sb := { f.sb with ninode := f.sb.ninode - 1 } }
    if ino < ROOTINO then .inl f
    else if f.outside (itod ino) then .inr (.error (.outsideImage (itod ino) f.nblk), f)
    else if f.disk.dinode ino DI_MODE = 0 then
      .inr (.ok ino, { f with sb := { f.sb with tinode := f.sb.tinode - 1 } })
    else .inl f
  else
    match refill (f.sb.isize - 1).toNat (SUPERB + 1) 1 f with
    | (.error e, f) => .inr (.error e, f)
    | (.ok (), f) =>
      if f.sb.ninode > 0 then .inl f else .inr (.error (.outOfInodes f.inodeCount), f)

/-- `inode_alloc` returns, or throws. -/
def InodeAlloc (f : Filesystem) (out : Except FsError Int) (f' : Filesystem) : Prop :=
  Spin.Returns inodeAllocTurn f (out, f')

def inodeFree (f : Filesystem) (ino : Int) : Except FsError Unit × Filesystem :=
  if ino < ROOTINO then (.error (.notAllocatable ino), f)
  else
    let f :=
      if f.sb.ninode < NICINOD then
        { f with sb := { f.sb with
          inode := update f.sb.inode f.sb.ninode ino
          ninode := f.sb.ninode + 1 } }
      else f
    (.ok (), { f with sb := { f.sb with tinode := f.sb.tinode + 1 } })

end V7Besm.Fs
