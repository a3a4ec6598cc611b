import V7Besm.Fs.Host

/-!
The host tool's `fsck` (`check.cpp`, with the inode and directory access it uses).

A run ends with a count of problems, or it is cut short: an `FsError` escapes, or the
program does what C++ leaves undefined (an index beyond a vector, a counter of 32 bits
that overflows). The image is only read, so the state is that of the checker alone.
-/

namespace V7Besm.Fs

open Alloc Function

/-! ### Inodes -/

structure Inode where
  (number mode nlink size : Int)
  addr : Nat → Int

namespace Inode

def isDir (ip : Inode) : Bool := fmt ip.mode = IFDIR

def isDev (ip : Inode) : Bool := fmt ip.mode = IFCHR ∨ fmt ip.mode = IFBLK

def get (f : Filesystem) (ino : Int) : Except FsError Inode :=
  if ino < 1 then .error (.noInode ino)
  else if itod ino ≥ f.sb.isize then .error (.pastIlist ino)
  else if f.outside (itod ino) then .error (.outsideImage (itod ino) f.nblk)
  else .ok {
    number := ino
    mode := f.disk.dinode ino DI_MODE
    nlink := f.disk.dinode ino DI_NLINK
    size := f.disk.dinode ino DI_SIZE
    addr := fun i => f.disk.dinode ino (DI_ADDR + i) }

/-- One step down an indirect block: the address in slot `i`. -/
def down (f : Filesystem) (nb : Int) (i : Nat) : Except FsError Int :=
  if f.outside nb then .error (.outsideImage nb f.nblk) else .ok (f.disk.get nb i)

/-- `bmap` without allocation: the block, or -1 for a hole. -/
def bmap (f : Filesystem) (ip : Inode) (lbn : Int) : Except FsError Int :=
  if lbn < 0 then .error .negativeBlock
  else if lbn < 6 then
    let nb := ip.addr lbn.toNat
    .ok (if nb = 0 then -1 else nb)
  else if lbn - 6 < NINDIR then
    if ip.addr 6 = 0 then .ok (-1)
    else do
      let nb ← down f (ip.addr 6) (lbn - 6).toNat
      .ok (if nb = 0 then -1 else nb)
  else if lbn - 6 - NINDIR < NINDIR * NINDIR then
    if ip.addr 7 = 0 then .ok (-1)
    else do
      let nb ← down f (ip.addr 7) ((lbn - 6 - NINDIR).toNat / NINDIR)
      if nb = 0 then .ok (-1)
      else do
        let nb ← down f nb ((lbn - 6 - NINDIR).toNat % NINDIR)
        .ok (if nb = 0 then -1 else nb)
  else .error .fileTooLarge

end Inode

/-! ### Directories -/

/-- The bytes of a name. -/
abbrev Name := List Nat

structure DirEntry where
  ino : Int
  name : Name
deriving DecidableEq, Repr

/-- Byte `k` of a word. -/
def charOf (w k : Nat) : Nat := w / 2 ^ (40 - 8 * k) % 256

/-- The name as the C library reads it: up to the first zero. -/
def unpackName (words : Nat → Nat) : Name :=
  ((List.range 18).map fun i => charOf (words (i / 6)) (i % 6)).takeWhile (· ≠ 0)

def unpackEntry (block : Nat → Nat) (base : Nat) : DirEntry where
  ino := fromWord (block base)
  name := unpackName fun w => block (base + 1 + w)

/-- The number of entries. -/
def entryCount (dp : Inode) : Nat := (dp.size / 24).toNat

/-- Entry `ent`, as `dir::scan` reads it. A hole reads as zeroes. -/
def dirEntry (f : Filesystem) (dp : Inode) (ent : Nat) : Except FsError DirEntry := do
  let bno ← dp.bmap f (ent / 128 : Nat)
  if bno < 0 then .ok (unpackEntry (fun _ => 0) (ent % 128 * 4))
  else if f.outside bno then .error (.outsideImage bno f.nblk)
  else .ok (unpackEntry (f.disk bno) (ent % 128 * 4))

/-! ### Problems -/

/-- What a block is claimed as. -/
inductive What where
  | data
  | single
  | double
deriving DecidableEq, Repr

def What.text : What → String
  | data => "data"
  | single => "single indirect"
  | double => "double indirect"

inductive Problem where
  | outsideData (ino : Int) (what : What) (bno isize fsize : Int)
  | claimedTwice (ino : Int) (what : What) (bno : Int)
  | freeWithLinks (ino nlink : Int)
  | noLinks (ino nlink : Int)
  | badType (ino mode : Int)
  | negativeSize (ino size : Int)
  | sizeTooLarge (ino size : Int)
  | dirSize (ino size : Int)
  | tinode (told holds : Int)
  | treeLoop (path : Name) (ino : Int)
  | outsideIlist (child : Name) (ent : Nat) (ino : Int)
  | dot (child : Name) (ino want : Int)
  | dotdot (child : Name) (ino want : Int)
  | notAllocated (child : Name) (ino : Int)
  | noDot (path : Name)
  | noDotdot (path : Name)
  | noRoot
  | rootNotDir
  | orphan (ino : Int)
  | linkCount (ino : Int) (path : Option Name) (links refs : Int)
  | badNfree (nfree : Int)
  | freeOutside (bno : Int)
  | freeTwice (bno : Int)
  | usedAndFree (bno : Int)
  | chainLoop (bno : Int)
  | chainCount (bno nfree : Int)
  | tfree (told holds : Int)
  | lost (count : Nat)
deriving DecidableEq, Repr

def Name.text (name : Name) : String := String.ofList (name.map Char.ofNat)

/-- The root has no path of its own. -/
def Name.orRoot (path : Name) : Name := if path = [] then [47] else path

/-- A mode in octal, of a value of 64 bits. -/
def octal (v : Int) : String := "0" ++ String.ofList (Nat.toDigits 8 (v % 2 ^ 64).toNat)

def Problem.text : Problem → String
  | outsideData ino what bno isize fsize =>
    s!"inode {ino}: " ++ what.text ++ s!" block {bno} is outside the data area ({isize}..{fsize - 1})"
  | claimedTwice ino what bno =>
    s!"inode {ino}: " ++ what.text ++ s!" block {bno} is already claimed by another file"
  | freeWithLinks ino nlink => s!"inode {ino}: free but has nlink {nlink}"
  | noLinks ino nlink => s!"inode {ino}: allocated but has nlink {nlink}"
  | badType ino mode => s!"inode {ino}: bad file type in mode " ++ octal mode
  | negativeSize ino size => s!"inode {ino}: negative size {size}"
  | sizeTooLarge ino size => s!"inode {ino}: size {size} needs more blocks than an inode can address"
  | dirSize ino size => s!"inode {ino}: directory size {size} is not a multiple of 24"
  | tinode told holds =>
    s!"superblock: s_tinode says {told} free inodes, the i-list holds {holds}"
  | treeLoop path ino =>
    path.text ++ s!": directory inode {ino} appears in the tree more than once (a loop)"
  | outsideIlist child ent ino =>
    child.text ++ s!": entry {ent} points at i-number {ino}, which is outside the i-list"
  | dot child ino want => child.text ++ s!": `.' points at inode {ino}, not {want}"
  | dotdot child ino want => child.text ++ s!": `..' points at inode {ino}, not {want}"
  | notAllocated child ino => child.text ++ s!": points at inode {ino}, which is not allocated"
  | noDot path => path.orRoot.text ++ ": has no `.' entry"
  | noDotdot path => path.orRoot.text ++ ": has no `..' entry"
  | noRoot => "the root inode (2) is not allocated"
  | rootNotDir => "the root inode is not a directory"
  | orphan ino => s!"inode {ino}: allocated but unreferenced (orphan)"
  | linkCount ino path links refs =>
    s!"inode {ino}" ++ (match path with | none => "" | some path => " (" ++ path.text ++ ")") ++
      s!": link count is {links} but {refs} directory entries point at it"
  | badNfree nfree => s!"superblock: s_nfree is {nfree}, outside 0..320"
  | freeOutside bno => s!"free list: block {bno} is outside the data area"
  | freeTwice bno => s!"free list: block {bno} appears twice"
  | usedAndFree bno => s!"block {bno} is both in use and on the free list"
  | chainLoop bno => s!"free list: chain block {bno} revisited (a loop)"
  | chainCount bno nfree => s!"free list: chain block {bno} has a bad count ({nfree})"
  | tfree told holds => s!"superblock: s_tfree says {told} free blocks, the list holds {holds}"
  | lost count => s!"{count} block(s) are neither in use nor on the free list (lost space)"

/-! ### The checker -/

/-- How a run is cut short. `fuel` is the model's own: it never happens. -/
inductive Abort where
  | thrown (e : FsError)
  | undefined
  | fuel
deriving DecidableEq, Repr

/-- The state of a run; `problems` has the last one first. -/
structure Checker where
  problems : List Problem
  used : Int → Bool
  freed : Int → Bool
  refs : Int → Int
  links : Int → Int
  allocated : Int → Bool
  isDir : Int → Bool
  seen : Int → Bool
  names : Int → Option Name

namespace Checker

def start : Checker where
  problems := []
  used := fun _ => false
  freed := fun _ => false
  refs := fun _ => 0
  links := fun _ => 0
  allocated := fun _ => false
  isDir := fun _ => false
  seen := fun _ => false
  names := fun _ => none

def error (c : Checker) (p : Problem) : Checker := { c with problems := p :: c.problems }

/-- A problem, if the condition holds. -/
def errorIf (c : Checker) (bad : Bool) (p : Problem) : Checker := if bad then c.error p else c

/-- What is written about the problems: the first hundred, and that there were more. -/
def report (c : Checker) : List String :=
  (c.problems.reverse.take 100).map Problem.text ++
    if c.problems.length > 100 then ["... further problems suppressed"] else []

end Checker

def lift {α : Type} : Except FsError α → Except Abort α
  | .ok a => .ok a
  | .error e => .error (.thrown e)

/-- `int32_t(v)`. -/
def narrow (v : Int) : Int := (v + 2 ^ 31) % 2 ^ 32 - 2 ^ 31

/-! ### Pass 1: blocks and sizes -/

def claim (f : Filesystem) (ino : Int) (what : What) (c : Checker) (bno : Int) : Bool × Checker :=
  if bno = 0 then (true, c)
  else if bno < f.sb.isize ∨ bno ≥ f.sb.fsize then
    (false, c.error (.outsideData ino what bno f.sb.isize f.sb.fsize))
  else if c.used bno then (false, c.error (.claimedTwice ino what bno))
  else (true, { c with used := update c.used bno true })

/-- `walk_indirect` of level 1. -/
def walkSingle (f : Filesystem) (ino : Int) (c : Checker) (bno : Int) : Except Abort Checker :=
  match claim f ino .single c bno with
  | (false, c) => .ok c
  | (true, c) =>
    if f.outside bno then .error (.thrown (.outsideImage bno f.nblk))
    else .ok ((List.range NINDIR).foldl (fun c i =>
      let nb := f.disk.get bno i
      if nb = 0 then c else (claim f ino .data c nb).2) c)

/-- `walk_indirect` of level 2. -/
def walkDouble (f : Filesystem) (ino : Int) (c : Checker) (bno : Int) : Except Abort Checker :=
  match claim f ino .double c bno with
  | (false, c) => .ok c
  | (true, c) =>
    if f.outside bno then .error (.thrown (.outsideImage bno f.nblk))
    else (List.range NINDIR).foldlM (fun c i =>
      let nb := f.disk.get bno i
      if nb = 0 then .ok c else walkSingle f ino c nb) c

def legalType (mode : Int) : Bool :=
  fmt mode = IFDIR ∨ fmt mode = IFREG ∨ fmt mode = IFCHR ∨ fmt mode = IFBLK ∨ fmt mode = IFMPC ∨
    fmt mode = IFMPB

/-- How many blocks an inode can address. -/
def maxBlocks : Int := 6 + NINDIR + NINDIR * NINDIR

/-- An address of 0 is no block. -/
def walkSlot (walk : Checker → Int → Except Abort Checker) (c : Checker) (bno : Int) :
    Except Abort Checker :=
  if bno ≠ 0 then walk c bno else .ok c

/-- The block list of an inode. -/
def walkBlocks (f : Filesystem) (ip : Inode) (c : Checker) : Except Abort Checker := do
  let c := (List.range 6).foldl (fun c i => (claim f ip.number .data c (ip.addr i)).2) c
  let c ← walkSlot (walkSingle f ip.number) c (ip.addr 6)
  walkSlot (walkDouble f ip.number) c (ip.addr 7)

/-- Where the sizes are looked at. -/
def checkSize (ip : Inode) (c : Checker) : Checker :=
  let c := c.errorIf ((ip.size + 3071).tdiv 3072 > maxBlocks) (.sizeTooLarge ip.number ip.size)
  c.errorIf (ip.isDir ∧ ip.size % 24 ≠ 0) (.dirSize ip.number ip.size)

/-- An allocated inode is entered into the tables, and its link count and type looked at. -/
def enterInode (ip : Inode) (c : Checker) : Checker :=
  let c := { c with
    allocated := update c.allocated ip.number true
    links := update c.links ip.number (narrow ip.nlink)
    isDir := update c.isDir ip.number ip.isDir }
  let c := c.errorIf (ip.nlink ≤ 0) (.noLinks ip.number ip.nlink)
  c.errorIf (!legalType ip.mode) (.badType ip.number ip.mode)

/-- The body of the loop of `pass1_inodes`. -/
def checkInode (f : Filesystem) (c : Checker) (ino : Int) : Except Abort Checker := do
  let ip ← lift (Inode.get f ino)
  if ip.mode = 0 then .ok (c.errorIf (ip.nlink ≠ 0) (.freeWithLinks ino ip.nlink))
  else
    let c := enterInode ip c
    if ip.isDev then .ok c
    else do
      let c ← walkBlocks f ip (c.errorIf (ip.size < 0) (.negativeSize ino ip.size))
      .ok (checkSize ip c)

/-- The inodes that are looked at. -/
def checkedInodes (f : Filesystem) : List Int :=
  (List.range (f.inodeCount - 1).toNat).map fun i : Nat => ROOTINO + i

def pass1Inodes (f : Filesystem) (c : Checker) : Except Abort Checker := do
  let c ← (checkedInodes f).foldlM (checkInode f) c
  let nalloc := ((checkedInodes f).filter c.allocated).length
  let holds := f.inodeCount - 1 - nalloc
  .ok (c.errorIf (holds ≠ f.sb.tinode) (.tinode f.sb.tinode holds))

/-! ### Pass 2: the directory tree -/

/-- One more reference. -/
def bump (c : Checker) (ino : Int) : Except Abort Checker :=
  if c.refs ino ≥ 2 ^ 31 - 1 then .error .undefined
  else .ok { c with refs := update c.refs ino (c.refs ino + 1) }

/-- What `walk_directory` keeps while it looks at the entries. -/
structure Look where
  checker : Checker
  sawDot : Bool
  sawDotdot : Bool
  subdirs : List (Name × Int)

/-- What is done with an entry. -/
def visitEntry (f : Filesystem) (ino : Int) (path : Name) (parent : Int) (look : Look) (ent : Nat)
    (e : DirEntry) : Except Abort Look :=
  let c := look.checker
  let child := path ++ [47] ++ e.name
  if e.ino = 0 then .ok look
  else if e.ino < ROOTINO ∨ e.ino > f.inodeCount then
    .ok { look with checker := c.error (.outsideIlist child ent e.ino) }
  else if e.name = [46] then do
    let c ← bump (c.errorIf (e.ino ≠ ino) (.dot child e.ino ino)) e.ino
    .ok { look with checker := c, sawDot := true }
  else if e.name = [46, 46] then do
    let c ← bump (c.errorIf (e.ino ≠ parent) (.dotdot child e.ino parent)) e.ino
    .ok { look with checker := c, sawDotdot := true }
  else if !c.allocated e.ino then .ok { look with checker := c.error (.notAllocated child e.ino) }
  else do
    let subdirs := if c.isDir e.ino then look.subdirs ++ [(child, e.ino)] else look.subdirs
    let c ← bump c e.ino
    .ok { look with checker := c, subdirs := subdirs }

/-- The entries of a directory, and whether `.` and `..` are there. -/
def lookAt (f : Filesystem) (dp : Inode) (path : Name) (parent : Int) (c : Checker) :
    Except Abort (Checker × List (Name × Int)) := do
  let look ← (List.range (entryCount dp)).foldlM (fun look ent => do
    let e ← lift (dirEntry f dp ent)
    visitEntry f dp.number path parent look ent e) ⟨c, false, false, []⟩
  let c := look.checker.errorIf (!look.sawDot) (.noDot path)
  let c := c.errorIf (!look.sawDotdot) (.noDotdot path)
  .ok (c, look.subdirs)

/-- `walk_directory`, to a depth of `fuel`. -/
def walkDirectory (f : Filesystem) : Nat → Int → Name → Int → Checker → Except Abort Checker
  | 0, _, _, _, _ => .error .fuel
  | fuel + 1, ino, path, parent, c =>
    if c.seen ino then .ok (c.error (.treeLoop path ino))
    else do
      let c := { c with
        seen := update c.seen ino true
        names := update c.names ino (some path.orRoot) }
      let dp ← lift (Inode.get f ino)
      let (c, subdirs) ← lookAt f dp path parent c
      subdirs.foldlM (fun c (sd : Name × Int) => walkDirectory f fuel sd.2 sd.1 ino c) c

/-- `pass2_directories`. The tables have an entry for every inode of the i-list. -/
def pass2Directories (f : Filesystem) (c : Checker) : Except Abort Checker :=
  if f.inodeCount < ROOTINO then .error .undefined
  else if !c.allocated ROOTINO then .ok (c.error .noRoot)
  else if !c.isDir ROOTINO then .ok (c.error .rootNotDir)
  else walkDirectory f (f.inodeCount.toNat + 1) ROOTINO [] ROOTINO c

/-! ### Pass 3: link counts -/

def checkLinks (c : Checker) (ino : Int) : Checker :=
  if !c.allocated ino then c
  else if c.refs ino = 0 then c.error (.orphan ino)
  else
    c.errorIf (c.refs ino ≠ c.links ino) (.linkCount ino (c.names ino) (c.links ino) (c.refs ino))

def pass3LinkCounts (f : Filesystem) (c : Checker) : Checker := (checkedInodes f).foldl checkLinks c

/-! ### Pass 4: the free list -/

/-- What the loop of `pass4_free_list` keeps. -/
structure Chain where
  checker : Checker
  nfree : Int
  cache : Int → Int
  chains : Int → Bool
  count : Int

/-- The next chain block, if the cache is empty; `none` if the walk ends. -/
def nextChain (f : Filesystem) (w : Chain) (bno : Int) : Except Abort (Chain × Bool) :=
  if w.nfree ≤ 0 then
    if w.chains bno then .ok ({ w with checker := w.checker.error (.chainLoop bno) }, false)
    else if f.outside bno then .error (.thrown (.outsideImage bno f.nblk))
    else
      let nfree := f.disk.get bno 0
      let w := { w with chains := update w.chains bno true, nfree := nfree }
      if nfree < 0 ∨ nfree > NICFREE then
        .ok ({ w with checker := w.checker.error (.chainCount bno nfree) }, false)
      else .ok ({ w with cache := chainFree f.disk bno w.cache }, true)
  else .ok (w, true)

/-- The loop of `pass4_free_list`, at most `fuel` times around. -/
def walkFree (f : Filesystem) : Nat → Chain → Except Abort Chain
  | 0, _ => .error .fuel
  | fuel + 1, w =>
    if w.nfree ≤ 0 then .ok w
    else
      let w := { w with nfree := w.nfree - 1 }
      let bno := w.cache w.nfree
      if bno = 0 then .ok w
      else if bno < f.sb.isize ∨ bno ≥ f.sb.fsize then
        .ok { w with checker := w.checker.error (.freeOutside bno) }
      else if w.checker.freed bno then .ok { w with checker := w.checker.error (.freeTwice bno) }
      else do
        let c := { w.checker with freed := update w.checker.freed bno true }
        let c := c.errorIf (c.used bno) (.usedAndFree bno)
        let (w, go) ← nextChain f { w with checker := c, count := w.count + 1 } bno
        if go then walkFree f fuel w else .ok w

def pass4FreeList (f : Filesystem) (c : Checker) : Except Abort Checker :=
  if f.sb.nfree < 0 ∨ f.sb.nfree > NICFREE then .ok (c.error (.badNfree f.sb.nfree))
  else do
    let w ← walkFree f ((f.sb.fsize - f.sb.isize).toNat + 1)
      ⟨c, f.sb.nfree, f.sb.free, fun _ => false, 0⟩
    .ok (w.checker.errorIf
      (w.checker.problems.length = c.problems.length ∧ w.count ≠ f.sb.tfree)
      (.tfree f.sb.tfree w.count))

/-! ### Pass 5: every block accounted for -/

def dataBlocks (f : Filesystem) : List Int :=
  (List.range (f.sb.fsize - f.sb.isize).toNat).map fun i : Nat => f.sb.isize + i

def pass5Accounting (f : Filesystem) (c : Checker) : Checker :=
  let lost := ((dataBlocks f).filter fun bno => !c.used bno && !c.freed bno).length
  c.errorIf (lost > 0) (.lost lost)

/-- What the five passes find wrong, counted without a limit. -/
def problemCount (f : Filesystem) : Except Abort Nat := do
  let c ← pass1Inodes f .start
  let c ← pass2Directories f c
  let c := pass3LinkCounts f c
  let c ← pass4FreeList f c
  .ok (pass5Accounting f c).problems.length

/-- `Checker::run`: the number of problems. `nerror` is an `int` and is only counted up, so that
a look at the end says whether it has gone out of its range on the way. -/
def check (f : Filesystem) : Except Abort Nat :=
  if sbcheck f.sb then .ok 1
  else if f.sb.fsize > f.nblk then .ok 1
  else do
    let nerror ← problemCount f
    if nerror ≥ 2 ^ 31 then .error .undefined else .ok nerror

end V7Besm.Fs
