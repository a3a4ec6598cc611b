import V7Besm.Fs.Disk
import V7Besm.Spin.Turns

/-!
The kernel's allocators for one process (`alloc.c`, and of `iget.c` what `ialloc` calls).

One process, a mounted volume and no device errors: nobody holds the locks of the
superblock, every block can be read, and what is read is what was last written. What
remains of sleeping is waiting for oneself, for an inode or a buffer that the process
itself holds; a function that does so never returns, and its result is `none`.
-/

namespace V7Besm.Fs

open Alloc Function

/-- An inode in core: whether `iget` would have to wait for its lock, and the mode of the
inode it returns (that of the mounted root, if something is mounted there). -/
structure Incore where
  number : Int
  locked : Bool
  mode : Int
deriving DecidableEq, Repr

/-- The mounted volume and the inode table: its inodes of this volume and the number of
entries other volumes' inodes take. -/
structure Kern where
  fs : Filsys
  disk : Disk
  core : List Incore
  others : Nat

/-- Entries of the inode table. -/
def NINODE : Nat := 24

namespace Kern

/-- `getfs`: the counts are checked. -/
def getfs (s : Kern) : Kern :=
  if s.fs.nfree > NICFREE ∨ s.fs.ninode > NICINOD then
    { s with fs := { s.fs with nfree := 0, ninode := 0 } }
  else s

def write (s : Kern) (bno : Int) (words : Nat → Nat) : Kern :=
  { s with disk := update s.disk bno words }

end Kern

/-- The words of a chain block: the count, the cached numbers, zeroes. -/
def chainWords (fs : Filsys) (i : Nat) : Nat :=
  if i = 0 then toWord fs.nfree
  else if i ≤ NICFREE.toNat then toWord (fs.free (i - 1 : Nat)) else 0

/-- The cached numbers in a chain block. -/
def chainFree (d : Disk) (bno : Int) (old : Int → Int) (i : Int) : Int :=
  if 0 ≤ i ∧ i < NICFREE then d.get bno (1 + i.toNat) else old i

/-! ### Blocks -/

/-- The loop of `alloc` over the cache, past the bad numbers: the block, if any, and the
superblock behind the pop. -/
def popBlock (fs : Filsys) : Nat → Filsys × Option Int
  | 0 => (fs, none)
  | n + 1 =>
    let bno := fs.free n
    let fs' := { fs with nfree := n }
    if bno = 0 then (fs', none)
    else if badblock fs bno then popBlock fs' n
    else (fs', some bno)

/-- No space: nothing more can be allocated. -/
def nospace (s : Kern) : Kern := { s with fs := { s.fs with nfree := 0, tfree := 0, fmod := 1 } }

/-- An emptied cache is filled from the block that was popped last. -/
def reload (d : Disk) (fs : Filsys) (bno : Int) : Filsys :=
  if fs.nfree ≤ 0 then { fs with nfree := d.get bno 0, free := chainFree d bno fs.free } else fs

/-- The end of `alloc`: the block is cleared and counted. -/
def handOutBlock (s : Kern) (bno : Int) : Option Int × Kern :=
  let s := { s with fs := { s.fs with fmod := 1, tfree := s.fs.tfree - 1 } }
  (some bno, s.write bno fun _ => 0)

/-- `alloc`: the block, or none for `ENOSPC`. -/
def alloc (s : Kern) : Option Int × Kern :=
  let s := s.getfs
  if s.fs.nfree ≤ 0 then (none, nospace s)
  else
    match popBlock s.fs s.fs.nfree.toNat with
    | (fs, none) => (none, nospace { s with fs := fs })
    | (fs, some bno) =>
      let s := { s with fs := reload s.disk fs bno }
      if s.fs.nfree ≤ 0 then (none, nospace s) else handOutBlock s bno

/-- An empty cache gets the end mark of the chain first. -/
def sentinel (fs : Filsys) : Filsys :=
  if fs.nfree ≤ 0 then { fs with nfree := 1, free := update fs.free 0 0 } else fs

/-- `s_free[s_nfree++] = bno`. -/
def pushBlock (fs : Filsys) (bno : Int) : Filsys :=
  { fs with
    free := update fs.free fs.nfree bno
    nfree := fs.nfree + 1
    tfree := fs.tfree + 1
    fmod := 1 }

/-- `free` while the process holds the buffer of the block `held`. -/
def free (held : Option Int) (s : Kern) (bno : Int) : Option Kern :=
  let s := s.getfs
  let s := { s with fs := { s.fs with fmod := 1 } }
  if badblock s.fs bno then some s
  else
    let fs := sentinel s.fs
    if fs.nfree ≥ NICFREE then
      -- the buffer of this very block is busy, and its owner is asleep here
      if held = some bno then none
      else
        some { s.write bno (chainWords fs) with fs := pushBlock { fs with nfree := 0 } bno }
    else some { s with fs := pushBlock fs bno }

-- the blocks that cannot be read; `ialloc` meets none
variable (bad : Int → Bool)

/-- `tloop`: the blocks an indirect block names, from the last one of `i` on, then the block
itself. `one` is what is done with each. -/
def tloop (one : Kern → Int → Option Kern) (bn : Int) : Nat → Kern → Option Kern
  | 0, s => free none s bn
  | i + 1, s =>
    if bad bn then some s
    else
      let nb := s.disk.get bn i
      if nb = 0 then tloop one bn i s
      else do
        let s ← one s nb
        tloop one bn i s

/-- A single indirect block, its buffer held through the loop. -/
def tloopSingle (s : Kern) (bn : Int) : Option Kern := tloop bad (free (some bn)) bn NINDIR s

/-- A double indirect block, its buffer released for each of the inner loops. -/
def tloopDouble (s : Kern) (bn : Int) : Option Kern := tloop bad (tloopSingle bad) bn NINDIR s

/-- What `itrunc` does with the address `bn` in slot `i`: 7 is the double indirect block, 6 the
single one. -/
def freeSlot (i : Nat) (s : Kern) (bn : Int) : Option Kern :=
  if i = 7 then tloopDouble bad s bn
  else if i = 6 then tloopSingle bad s bn
  else free none s bn

/-- The loop of `itrunc` over the addresses of an inode in core, from the last one of `i` on. -/
def itruncLoop : Nat → (Nat → Int) → Kern → Option ((Nat → Int) × Kern)
  | 0, ip, s => some (ip, s)
  | i + 1, ip, s =>
    let bn := ip (DI_ADDR + i)
    if bn = 0 then itruncLoop i ip s
    else do
      let s ← freeSlot bad i s bn
      itruncLoop i (update ip (DI_ADDR + i) 0) s

/-- `itrunc`: the blocks of a regular file or directory are freed. -/
def itrunc (ip : Nat → Int) (s : Kern) : Option ((Nat → Int) × Kern) :=
  if fmt (ip DI_MODE) ≠ IFREG ∧ fmt (ip DI_MODE) ≠ IFDIR then some (ip, s)
  else do
    let (ip, s) ← itruncLoop bad 8 ip s
    some (update ip DI_SIZE 0, s)

/-! ### Inodes -/

def ifree (s : Kern) (ino : Int) : Kern :=
  let s := s.getfs
  let s := { s with fs := { s.fs with tinode := s.fs.tinode + 1, fmod := 1 } }
  if s.fs.ninode ≥ NICINOD then s
  else
    { s with fs := { s.fs with
        inode := update s.fs.inode s.fs.ninode ino
        ninode := s.fs.ninode + 1 } }

/-- `iupdat` of a changed inode: the words of the inode, with the time `now` as those of the
last write and change. The time of the last access stays. -/
def iupdat (now : Int) (ino : Int) (ip : Nat → Int) (s : Kern) : Kern :=
  s.write (itod ino) fun i =>
    let j := i - 16 * itoo ino
    if i < 16 * itoo ino ∨ 16 ≤ j ∨ j = 5 then s.disk (itod ino) i
    else if j = DI_MTIME ∨ j = DI_CTIME then toWord now
    else toWord (ip j)

/-- `iput` of an inode that nobody else has: without links it is freed. -/
def iput (now : Int) (ino : Int) (ip : Nat → Int) (s : Kern) : Option Kern :=
  if ip DI_NLINK ≤ 0 then do
    let (ip, s) ← itrunc (fun _ => false) ip s
    let s := ifree s ino
    some (iupdat now ino (update ip DI_MODE 0) s)
  else some s

/-- The inode table has no free entry. -/
def Kern.full (s : Kern) : Bool := decide (s.core.length + s.others ≥ NINODE)

/-- The entry of the inode table for an inode of this volume. -/
def Kern.incore (s : Kern) (ino : Int) : Option Incore := s.core.find? fun ip => ip.number = ino

/-- The slots of a block of the i-list, `n` of them left, the next one that of `ino`. -/
def scanBlock (adr : Int) : Nat → Int → Kern → Kern
  | 0, _, s => s
  | n + 1, ino, s =>
    if s.disk.get adr (16 * (INOPB - (n + 1))) ≠ 0 ∨ (s.incore ino).isSome then
      scanBlock adr n (ino + 1) s
    else
      let s := { s with fs := { s.fs with
        inode := update s.fs.inode s.fs.ninode ino
        ninode := s.fs.ninode + 1 } }
      if s.fs.ninode ≥ NICINOD then s else scanBlock adr n (ino + 1) s

/-- The blocks of the i-list from `adr` on, `n` of them left. -/
def scanBlocks : Nat → Int → Int → Kern → Kern
  | 0, _, _, s => s
  | n + 1, adr, ino, s =>
    let s := scanBlock adr INOPB ino s
    if s.fs.ninode ≥ NICINOD then s else scanBlocks n (adr + 1) (ino + INOPB) s

/-- The search of the i-list. -/
def scan (s : Kern) : Kern := scanBlocks (s.fs.isize - 1).toNat (SUPERB + 1) 1 s

/-- How `ialloc` ends: with an inode, with `ENOSPC`, with `ENFILE`, or never. -/
inductive Out where
  | inode (ino : Int)
  | nospace
  | tableFull
  | asleep
deriving DecidableEq, Repr

/-- An inode is handed out. -/
def handOut (s : Kern) (core : List Incore) (ino : Int) : Out × Kern :=
  (.inode ino, { s with
    fs := { s.fs with fmod := 1, tinode := s.fs.tinode - 1 }
    core := core })

/-- The inode is locked now. -/
def lockInode (core : List Incore) (ino : Int) : List Incore :=
  core.map fun ip => if ip.number = ino then { ip with locked := true } else ip

/-- What the loop of `ialloc` does with a number it has popped. -/
def iallocNumber (now : Int) (s : Kern) (ino : Int) : Kern ⊕ (Out × Kern) :=
  if ino < ROOTINO then .inl s
  else
    match s.incore ino with
    | some ip =>
      if ip.locked then .inr (.asleep, s)
      else if ip.mode = 0 then .inr (handOut s (lockInode s.core ino) ino)
      else .inl s
    | none =>
      if s.full then .inr (.tableFull, s)
      else if s.disk.dinode ino DI_MODE = 0 then
        .inr (handOut s (⟨ino, true, 0⟩ :: s.core) ino)
      else
        match iput now ino (s.disk.dinode ino) s with
        | none => .inr (.asleep, s)
        | some s => .inl s

/-- `n` numbers are left in the cache of inodes. -/
def Kern.withCache (s : Kern) (n : Int) : Kern := { s with fs := { s.fs with ninode := n } }

/-- One turn of the loop of `ialloc`. -/
def iallocTurn (now : Int) (s : Kern) : Kern ⊕ (Out × Kern) :=
  if s.fs.ninode > 0 then
    iallocNumber now (s.withCache (s.fs.ninode - 1)) (s.fs.inode (s.fs.ninode - 1))
  else
    let s := scan s
    if s.fs.ninode > 0 then .inl s else .inr (.nospace, s)

/-- `ialloc` returns, or sleeps for ever. -/
def Ialloc (now : Int) (s : Kern) (out : Out) (s' : Kern) : Prop :=
  Spin.Returns (iallocTurn now) s.getfs (out, s')

end V7Besm.Fs
