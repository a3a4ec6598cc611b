import V7Besm.Swap.Table

/-!
Swapping, shared texts and the calls that move images: `xswap` to `xuntext` in `text.c`,
`swapin`, `newproc`, `expand` and the two choices of `sched` in `slp.c`, `exece`, `exit`,
`wait` and `fork` in `sys1.c`.

`me` is `u.u_procp`, the entry under which the running process sleeps; inside `newproc` that
is the entry of the child. A transfer, however many exchanges it takes, is one sleep, and so
are `iput` and `readi`. Which process `sched` picks is left open, as long as it may be picked.
-/

namespace V7Besm.Swap

open Coop Map Function

abbrev C := Code Pid World

/-! ### Sleeping -/

/-- Give the processor up until the process is awake and in core. -/
def pause (me : Pid) : C Unit := .loop (fun _ => do
  .yield
  if ← .read fun s => (s.wchan me).isNone && (s.proc me).load then return .inr ()
  else return .inl ()) ()

def sleep (me : Pid) (chan : Chan) : C Unit := do
  .modify (World.setChan me (some chan))
  pause me

def swap (me : Pid) : C Unit := sleep me .io

def readi (me : Pid) : C Unit := sleep me .io

def iput (me : Pid) : C Unit := sleep me .io

/-! ### Texts -/

namespace World

def takeLock (p : Pid) (x : Xid) : World → World :=
  onText x fun k => { k with lock := true, owner := some p }

/-- `x_flag &= ~XLOCK`. -/
def dropLock (x : Xid) : World → World := onText x fun k => { k with lock := false, owner := none }

def xunlock (p : Pid) (x : Xid) (s : World) : World :=
  let t := if s.want x then s.wakeup (.text x) else s
  { t.dropLock x with
    want := update s.want x false
    foul := s.foul || ((s.text x).lock && (s.text x).owner != some p) }

/-- `mfree(coremap, x_size, x_caddr)`. -/
def freeText (x : Xid) (s : World) : World :=
  (s.giveCore (s.text x).size (s.text x).caddr).onText x fun k => { k with held := false }

/-- `x_caddr = malloc(coremap, x_size)`, which is 0 if there is no room. -/
def coreText (x : Xid) (s : World) : Nat × World :=
  let r := malloc s.coremap (s.text x).size
  if r.1 = 0 then (0, s.onText x fun k => { k with caddr := 0 })
  else (r.1, (s.setCore r.2).onText x fun k => { k with caddr := r.1, held := true })

/-- The text is in use in core by one process more, `q`. -/
def countText (q : Pid) (x : Xid) (s : World) : World :=
  (s.onText x fun k => { k with ccount := k.ccount + 1 }).onProc q
    fun k => { k with counted := some x }

end World

/-- Lock a text segment from swapping. -/
def xlock (me : Pid) (x : Xid) : C Unit := do
  .loop (fun _ => do
    if ← .read fun s => (s.text x).lock then
      .modify fun s => { s with want := update s.want x true }
      sleep me (.text x)
      return .inl ()
    else return .inr ()) ()
  .act fun p s => ((), s.takeLock p x)

def xunlock (x : Xid) : C Unit := .act fun p s => ((), s.xunlock p x)

/-- The core of a text that nobody in core uses any more is freed, written out first
if it has to be. -/
def xflush (me : Pid) (x : Xid) : C Unit := do
  if ← .read fun s => (s.text x).writ then
    .modify (World.onText x fun k => { k with writ := false })
    swap me
  .modify (World.freeText x)

/-- Decrement the in-core usage count of a shared text segment. When it drops to zero, free
the core space. -/
def xccdec (me : Pid) : Option Xid → C Unit
  | none => return ()
  | some x => do
    if (← .read fun s => (s.text x).ccount) = 0 then return ()
    else
      xlock me x
      .modify (World.onText x fun k => { k with ccount := k.ccount - 1 })
      if (← .read fun s => (s.text x).ccount) = 0 then xflush me x
      xunlock x

/-! ### Images -/

namespace World

/-- Blocks for the image of `q`, which `p` is to write out. -/
def startOut (p q : Pid) (ff : Bool) (os : Nat) (s : World) : Nat × World :=
  let k := s.proc q
  let r := malloc s.swapmap (wtodb k.size)
  if r.1 = 0 then (0, s)
  else (r.1, (s.setSwap r.2).setProc q
    { k with lock := true, place := if ff then .out os r.1 else .copy r.1,
             mover := some p, counted := none })

/-- The image of `q` is in the blocks at `a`. -/
def finishOut (q : Pid) (ff : Bool) (os a : Nat) (s : World) : World :=
  let k := s.proc q
  (if ff then s.giveCore os k.addr else s).setProc q
    { k with addr := a, load := false, lock := false, place := .disk, mover := none }

/-- Core for the image of `q`, which `p` is to read. -/
def startIn (p q : Pid) (s : World) : Nat × World :=
  let k := s.proc q
  let r := malloc s.coremap k.size
  if r.1 = 0 then (0, s)
  else (r.1, (s.setCore r.2).setProc q { k with place := .inn r.1 false, mover := some p })

/-- The core at `a` is not used after all. -/
def cancelIn (q : Pid) (a : Nat) (s : World) : World :=
  let k := s.proc q
  (s.giveCore k.size a).setProc q { k with place := .disk, mover := none }

/-- The text of `q` is in core, for `q` too. -/
def countIn (q : Pid) (x : Xid) (a : Nat) (s : World) : World :=
  (s.countText q x).onProc q fun k => { k with place := .inn a true }

/-- The image of `q` is in core at `a`. -/
def finishIn (q : Pid) (a : Nat) (s : World) : World :=
  let k := s.proc q
  (s.giveSwap (wtodb k.size) k.addr).setProc q
    { k with addr := a, load := true, place := .core, mover := none }

end World

/-- Swap out process `q`. `ff` causes its core to be freed; it is off when an image is
created for a child in `newproc`. `os` is the old size of the image during core expansion
swaps. -/
def xswap (me q : Pid) (ff : Bool) (os : Nat) : C Unit := do
  let size ← .read fun s => (s.proc q).size
  let os := if os = 0 then size else os
  let a ← .act fun p s => s.startOut p q ff os
  if a = 0 then .halt
  else
    xccdec me (← .read fun s => (s.proc q).textp)
    swap me
    .modify (World.finishOut q ff os a)

/-- Assure core for a text segment that is locked and has `x_ccount` 0. -/
def xexpand (me : Pid) (x : Xid) : C Unit := do
  let a ← .act fun _ s => s.coreText x
  if a ≠ 0 then
    if !(← .read fun s => (s.text x).load) then swap me
    .modify (World.countText me x)
    xunlock x
  else
    xswap me me true 0
    xunlock x
    pause me

/-- The text of a process that is to be swapped in. Answers false if there is no core. -/
def textIn (me : Pid) (x : Xid) : C Bool := do
  if (← .read fun s => (s.text x).ccount) = 0 then
    -- here the address of the text is stored only if there is one
    let c ← .act fun _ s =>
      let r := malloc s.coremap (s.text x).size
      if r.1 = 0 then (0, s) else s.coreText x
    if c = 0 then return false
    else
      if !(← .read fun s => (s.text x).load) then swap me
      return true
  else return true

/-- The image of `q` is read to `a`. -/
def imageIn (me q : Pid) (a : Nat) : C Bool := do
  swap me
  .modify (World.finishIn q a)
  return true

/-- Swap a process in. Allocate data and possible text separately. -/
def swapin (me q : Pid) : C Bool := do
  let a ← .act fun p s => s.startIn p q
  if a = 0 then return false
  else
    match ← .read fun s => (s.proc q).textp with
    | none => imageIn me q a
    | some x =>
      xlock me x
      if ← textIn me x then
        .modify (World.countIn q x a)
        xunlock x
        imageIn me q a
      else
        xunlock x
        .modify (World.cancelIn q a)
        return false

/-! ### Attaching and leaving a text -/

namespace World

/-- `p` leaves the text `x`. Answers whether the entry has been given up. -/
def detach (p : Pid) (x : Xid) (s : World) : Bool × World :=
  let k := s.text x
  let t := s.onProc p fun k => { k with textp := none, counted := none }
  if k.count - 1 = 0 ∧ (k.iptr.map s.sticky).getD false = false then
    (true, { ((t.giveSwap (wtodb k.size) k.daddr).giveCore k.size k.caddr).setText x
        { k with count := k.count - 1, iptr := none, held := false } with
      itext := fun i => if k.iptr = some i then false else s.itext i })
  else (false, t.setText x { k with count := k.count - 1 })

/-- `p` has the text `x`. -/
def attach (p : Pid) (x : Xid) (s : World) : World :=
  (s.onText x fun k => { k with count := k.count + 1 }).onProc p
    fun k => { k with textp := some x }

/-- A new entry for the text of `ip`, of `ts` words, locked by `p`. -/
def newText (p : Pid) (x : Xid) (ip : Ino) (ts : Nat) (s : World) : Nat × World :=
  let r := malloc s.swapmap (wtodb ts)
  if r.1 = 0 then (0, s)
  else (r.1, { ((s.setSwap r.2).onText x fun k =>
        { k with daddr := r.1, size := ts, iptr := some ip, count := 1, ccount := 0, load := true,
                 lock := true, writ := false, owner := some p }).onProc p
        fun k => { k with textp := some x } with
      want := update s.want x false
      itext := update s.itext ip true })

/-- `x_flag = XWRIT`. -/
def loaded (x : Xid) (s : World) : World :=
  { s.onText x fun k => { k with load := false, lock := false, writ := true, owner := none } with
    want := update s.want x false }

def findText (ip : Ino) (s : World) : Option Xid :=
  (List.range NTEXT).find? fun x => (s.text x).iptr = some ip

def freeEntry (s : World) : Option Xid := (List.range NTEXT).find? fun x => (s.text x).iptr = none

/-- An entry that nobody uses is given up. -/
def untext (x : Xid) (s : World) : World :=
  let k := s.text x
  { (s.giveSwap (wtodb k.size) k.daddr).setText x
      { k with lock := false, owner := none, iptr := none } with
    itext := fun i => if k.iptr = some i then false else s.itext i }

end World

/-- Relinquish use of the shared text segment of a process. -/
def xfree (me : Pid) : C Unit := do
  match ← .read fun s => (s.proc me).textp with
  | none => return ()
  | some x =>
    xlock me x
    .modify (World.dropLock x)
    let last ← .act fun _ s => s.detach me x
    if last then iput me else xccdec me (some x)

/-- Attach to a text that is locked. -/
def xattach (me : Pid) (x : Xid) : C Unit := do
  .modify (World.attach me x)
  if (← .read fun s => (s.text x).ccount) = 0 then xexpand me x
  else .modify (World.countText me x)
  xunlock x

/-- A text that already has an entry. -/
def xjoin (me : Pid) (ip : Ino) (x : Xid) : C Unit := do
  xlock me x
  -- the code goes on with the entry it has found, whatever it has become
  .modify fun s => s.slip ((s.text x).iptr != some ip)
  xattach me x

/-- A text that is read in from the inode. -/
def xload (me : Pid) (ip : Ino) (ts : Nat) (x : Xid) : C Unit := do
  let a ← .act fun p s => s.newText p x ip ts
  if a = 0 then .halt
  else
    xexpand me x
    .modify (World.onProc me fun k => { k with lock := true })
    readi me
    .modify (World.onProc me fun k => { k with lock := false })
    .modify (World.loaded x)

/-- Attach to a shared text segment of `ts` words. -/
def xalloc (me : Pid) (ip : Ino) (ts : Nat) : C Unit := do
  if ts = 0 then return ()
  else
    match ← .read (World.findText ip) with
    | some x => xjoin me ip x
    | none =>
      match ← .read World.freeEntry with
      | some x => xload me ip ts x
      | none => return ()

/-- Remove text image from the text table. The use count must be zero. -/
def xuntext (me : Pid) (x : Xid) : C Unit := do
  xlock me x
  if (← .read fun s => (s.text x).count) ≠ 0 then xunlock x
  else
    .modify fun s => s.slip (s.text x).iptr.isNone
    .modify (World.untext x)
    iput me

/-- `xuntext` of the entries that are hit. -/
def sweep (me : Pid) (hit : World → Xid → Bool) : List Xid → C Unit
  | [] => return ()
  | x :: xs => do
    if ← .read fun s => hit s x then xuntext me x
    sweep me hit xs

def xumount (me : Pid) (dev : Dev) : C Unit :=
  sweep me (fun s x => (s.text x).iptr.any fun ip => s.dev ip = dev) (List.range NTEXT)

def xrele (me : Pid) (ip : Ino) : C Unit := do
  if ← .read fun s => s.itext ip then
    sweep me (fun s x => (s.text x).iptr = some ip) (List.range NTEXT)

def chmod (me : Pid) (ip : Ino) (sticky : Bool) : C Unit := do
  .modify fun s => { s with sticky := update s.sticky ip sticky }
  if !sticky then xrele me ip
  iput me

/-! ### Processes -/

namespace World

/-- The core behind the new size is freed. -/
def shrink (p : Pid) (newsize : Nat) (s : World) : World :=
  let k := s.proc p
  (s.giveCore (k.size - newsize) (k.addr + newsize)).setProc p { k with size := newsize }

/-- The image moves to a larger run, if there is one. -/
def grow (p q : Pid) (newsize : Nat) (s : World) : Nat × World :=
  let k := s.proc q
  let r := malloc s.coremap newsize
  if r.1 = 0 then
    (0, s.setProc q { k with size := newsize, place := .leaving k.size, mover := some p })
  else
    (r.1, ((s.setCore r.2).giveCore k.size k.addr).setProc q { k with size := newsize, addr := r.1 })

def freeSlot (s : World) : Option Pid :=
  (List.range Slp.NPROC).find? fun q => (s.proc q).stat = .null

/-- The entry of a child of `p`. -/
def makeChild (p c : Pid) (s : World) : World :=
  let k := s.proc p
  let t := s.setProc c
    { stat := .born, load := true, lock := false, addr := k.addr, size := k.size,
      textp := k.textp, place := .shared, mover := some p, counted := k.textp }
  match k.textp with
  | none => t
  | some x => t.onText x fun k => { k with count := k.count + 1, ccount := k.ccount + 1 }

/-- Core for the image of the child. -/
def childCore (c : Pid) (s : World) : Nat × World :=
  let k := s.proc c
  let r := malloc s.coremap k.size
  if r.1 = 0 then (0, s)
  else (r.1, (s.setCore r.2).setProc c { k with addr := r.1, place := .core, mover := none })

/-- The last of `exit`: the core is freed, and the end of the entry is overlaid. -/
def endProc (p : Pid) (rv utime : Nat) (s : World) : World :=
  let k := s.proc p
  (s.giveCore k.size k.addr).setProc p
    { k with stat := .zomb, addr := rv, size := utime, place := .nowhere }

/-- A terminated child is laid to rest. -/
def bury (c : Pid) (s : World) : World :=
  if (s.proc c).stat = .zomb then
    s.onProc c fun k => { k with stat := .null, load := false, lock := false }
  else s

def setStat (p : Pid) (stat : Stat) : World → World := onProc p fun k => { k with stat := stat }

end World

/-- Change the size of the data and stack regions of the process. -/
def expand (me : Pid) (newsize : Nat) : C Unit := do
  if newsize ≤ (← .read fun s => (s.proc me).size) then .modify (World.shrink me newsize)
  else
    let n ← .read fun s => (s.proc me).size
    let a ← .act fun p s => s.grow p me newsize
    if a = 0 then
      xswap me me true n
      pause me

/-- Create a new process: the internal version of `fork`. -/
def newproc (me : Pid) : C Unit := do
  match ← .read World.freeSlot with
  | none => .halt
  | some c =>
    .modify (World.makeChild me c)
    let a ← .act fun _ s => s.childCore c
    if a = 0 then
      .modify (World.setStat me .idl)
      xswap c c false 0
      .modify (World.setStat me .live)
    .modify (World.setStat c .live)

/-- `MAXMEM`: the core of one process at most. -/
def MAXMEM : Nat := NPAGE * PGSZ

def fork (me : Pid) : C Unit := do
  let a ← .act fun _ s =>
    let r := malloc s.swapmap (wtodb MAXMEM)
    if r.1 = 0 then (0, s)
    else (r.1, (s.setSwap r.2).giveSwap (wtodb MAXMEM) r.1)
  if a = 0 then return ()
  else if (← .read World.freeSlot).isNone then return ()
  else newproc me

/-- `exit`. The first sleep is for the files and directories that are closed, the second for
the accounting. -/
def exit (me : Pid) (rv utime : Nat) : C Unit := do
  iput me
  xfree me
  readi me
  .modify (World.endProc me rv utime)

/-- The blocks for the arguments of a program: `(NCARGS + BSIZE - 1) / BSIZE`. -/
def NARGBLK : Nat := 2

namespace World

def takeArgs (p : Pid) (s : World) : Nat × World :=
  let r := malloc s.swapmap NARGBLK
  if r.1 = 0 then (0, s) else (r.1, (s.setSwap r.2).setArgs p (some ⟨NARGBLK, r.1⟩))

def giveArgs (p : Pid) (bno : Nat) (s : World) : World := (s.giveSwap NARGBLK bno).setArgs p none

end World

/-- `getxfile`, once it is committed to the new image. -/
def getxfile (me : Pid) (ip : Ino) (ts size : Nat) : C Unit := do
  xfree me
  expand me size
  xalloc me ip ts
  readi me

/-- `exece`. The header of the file and the arguments may be found bad, and then the old
image goes on. -/
def exece (me : Pid) (ip : Ino) (ts size : Nat) (bad : Bool) : C Unit := do
  let bno ← .act fun _ s => s.takeArgs me
  if bno = 0 then .halt
  else
    readi me
    if !bad then
      getxfile me ip ts size
      readi me
    .modify (World.giveArgs me bno)
    iput me

/-! ### The processes of the system -/

/-- What the processes do. The sizes of images and texts are in pages; an image starts with
the page of its u-area. -/
inductive Call where
  /-- Process 0, at boot. -/
  | newproc
  /-- `sched` has found `q` to swap in. -/
  | swapin (q : Pid)
  /-- `sched` has found `q` to swap out. -/
  | swapout (q : Pid)
  | fork
  | exec (ip : Ino) (text image : Nat) (bad : Bool)
  | exit (rv utime : Nat)
  | wait (c : Pid)
  /-- `sbreak`, and `grow` of the stack. -/
  | expand (image : Nat)
  | xrele (ip : Ino)
  | xumount (dev : Dev)
  | chmod (ip : Ino) (sticky : Bool)

/-- `q` is ready to run, but out of core. -/
def World.wantsIn (q : Pid) (s : World) : Bool :=
  (s.proc q).stat == .live && (s.wchan q).isNone && !(s.proc q).load

/-- `q` can be swapped out. -/
def World.canGo (q : Pid) (s : World) : Bool :=
  q != 0 && (s.proc q).stat == .live && (s.proc q).load && !(s.proc q).lock &&
    !((s.proc q).textp.any fun x => (s.text x).lock)

/-- `p_flag &= ~SLOAD`: `p` swaps `q` out. -/
def World.evict (p q : Pid) : World → World :=
  onProc q fun k => { k with load := false, place := .leaving k.size, mover := some p }

def swapout (me q : Pid) : C Unit := do
  if ← .read (World.canGo q) then
    .act fun p s => ((), s.evict p q)
    xswap me q true 0

def pages (image : Nat) : Nat := USIZE + image * PGSZ

def Call.code (k : Call) : C Unit := do
  let me ← .self
  match k with
  | .newproc => Swap.newproc me
  | .swapin q => if ← .read (World.wantsIn q) then let _ ← Swap.swapin me q
  | .swapout q => Swap.swapout me q
  | .fork => Swap.fork me
  | .exec ip text image bad => Swap.exece me ip (text * PGSZ) (pages image) bad
  | .exit rv utime => Swap.exit me rv utime
  | .wait c => .modify (World.bury c)
  | .expand image => Swap.expand me (pages image)
  | .xrele ip => Swap.xrele me ip
  | .xumount dev => Swap.xumount me dev
  | .chmod ip sticky => Swap.chmod me ip sticky

/-- What process 0 does, and what the others do. -/
def Call.system : Call → Bool
  | .newproc | .swapin _ | .swapout _ => true
  | _ => false

/-- A transfer of `p` is done. -/
def done (p : Pid) (s : World) : Option World :=
  if s.wchan p = some .io then some (s.setChan p none) else none

/-- Any number of processes, and the swapper. -/
def machine : System Pid World Call Pid where
  code := Call.code
  entry p s k := (s.proc p).stat == .live && (s.proc p).load && (s.wchan p).isNone &&
    (k.system == (p == 0))
  awake _ _ := true
  intr := done

/-- The machine after `startup`: process 0 is in the core below the pool. -/
def booted (dev : Ino → Dev) (sticky : Ino → Bool) : World where
  proc p :=
    { stat := if p = 0 then .live else .null, load := p = 0, lock := false,
      addr := NPAGE * PGSZ, size := USIZE, textp := none, place := .nowhere, mover := none,
      counted := none }
  text _ :=
    { daddr := 0, caddr := 0, size := 0, iptr := none, count := 0, ccount := 0, load := false,
      lock := false, writ := false, held := false, owner := none }
  want _ := false
  wchan _ := none
  coremap := corePool.map
  swapmap := swapPool.map
  itext _ := false
  sticky := sticky
  dev := dev
  args _ := none
  foul := false
  slipped := false

end V7Besm.Swap
