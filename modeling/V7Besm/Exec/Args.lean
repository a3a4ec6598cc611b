import V7Besm.Map.Pool
import V7Besm.Words.Packed

/-!
The arguments of `exec` (`sys1.c`).

`exece` collects the strings of its caller in two blocks of the paging store, makes the
new image, and copies them back to the base of its stack, behind a vector of pointers to
them. The strings are read and written byte by byte through `char *`s, which on this
machine are fat pointers: a marker, the place of the byte in its word, and the address of
the word. Finding and checking the file, and loading it, are not part of the model; what
matters of the new image is its size and that its stack is mapped.
-/

namespace V7Besm.Exec

open Words Function
open Map (PGSZ NPAGE USIZE)

abbrev NBPW : Nat := 6
abbrev BSIZE : Nat := 3072
abbrev NCARGS : Nat := 5120
abbrev USTKPAGE : Nat := 28
abbrev SSIZE : Nat := PGSZ
abbrev MAXMEM : Nat := NPAGE * PGSZ

abbrev Word := BitVec (8 * NBPW)
abbrev Byte := BitVec 8

def btow (x : Nat) : Nat := (x + 5) / 6

def wtob (x : Nat) : Nat := x * 6

/-- Round a word count up to a whole page. -/
def pground (x : Nat) : Nat := (x + PGSZ - 1) / PGSZ * PGSZ

/-! ### Pointers -/

/-- A `char *` as the compiler makes it; byte 5 of a word is its first. -/
structure Ptr where
  word : Nat
  off : Nat
  deriving DecidableEq, Repr

/-- `p++`: on to the next byte, from the last byte of a word to the first of the next. -/
def Ptr.inc (p : Ptr) : Ptr := if p.off = 0 then ⟨p.word + 1, 5⟩ else ⟨p.word, p.off - 1⟩

/-- The pointer as a word: the marker in bit 48, the byte in bits 47-45, the word address
in bits 15-1. -/
def Ptr.enc (p : Ptr) : Word := BitVec.ofNat _ (2 ^ 47 + p.off * 2 ^ 44 + p.word)

def ptrword (w : Word) : Nat := w.toNat % 2 ^ 15

def ptrbyte (w : Word) : Nat := w.toNat / 2 ^ 44 % 8

def Ptr.dec (w : Word) : Ptr := ⟨ptrword w, ptrbyte w⟩

/-! ### User memory -/

/-- The words a process can get at. -/
abbrev User := Nat → Option Word

/-- The integer -1. -/
def mone : Word := BitVec.ofNat _ (2 ^ 41 - 1)

def fuword (u : User) (addr : Nat) : Word := (u (addr % 2 ^ 15)).getD mone

def fubyte (u : User) (p : Ptr) : Option Byte := (u (p.word % 2 ^ 15)).map (byte · p.off)

/-- The new image: text and data from 0 on, and the stack. -/
structure Image where
  mem : Nat → Word
  (tsize dsize ssize : Nat)

def Image.Mapped (i : Image) (a : Nat) : Prop :=
  a < i.tsize + i.dsize ∨ (USTKPAGE * PGSZ ≤ a ∧ a < USTKPAGE * PGSZ + i.ssize)

instance (i : Image) (a : Nat) : Decidable (i.Mapped a) := inferInstanceAs (Decidable (_ ∨ _))

/-- The memory of the image, as its program sees it. -/
def Image.user (i : Image) : User := fun a => if i.Mapped a then some (i.mem a) else none

def suword (i : Image) (addr : Nat) (v : Word) : Image :=
  let a := addr % 2 ^ 15
  if i.Mapped a then { i with mem := update i.mem a v } else i

def subyte (i : Image) (p : Ptr) (c : Byte) : Image :=
  let a := p.word % 2 ^ 15
  if i.Mapped a then { i with mem := update i.mem a (setByte (i.mem a) p.off c) } else i

/-! ### The new image -/

/-- What `getxfile` finds in the file: the sizes of the two regions, in whole pages, and
the words that go there. -/
structure File where
  ts : Nat
  ds : Nat
  mem : Nat → Word

inductive Errno where
  | e2big | efault | enomem
  deriving DecidableEq, Repr

/-- `estabur`: do the sizes fit? -/
def estabur (maxmem nt nd ns : Nat) : Bool :=
  nt + nd + ns ≤ MAXMEM && nt + nd ≤ USTKPAGE * PGSZ && ns ≤ (NPAGE - USTKPAGE) * PGSZ &&
    nt + nd + ns + USIZE ≤ maxmem

/-- The image for `nargc` bytes of arguments; its stack is clear. -/
def getxfile (maxmem : Nat) (f : File) (nargc : Nat) : Except Errno Image :=
  let ss := SSIZE + pground (btow nargc)
  if estabur maxmem f.ts f.ds ss then
    .ok ⟨fun a => if a < f.ts + f.ds then f.mem a else 0, f.ts, f.ds, ss⟩
  else .error .enomem

/-! ### Collecting the strings -/

/-- The blocks of the paging store, through the buffers. -/
abbrev Swap := Nat → Nat → Byte

/-- The variables of the first loop. `bp` is the block of the buffer in hand, `cp` the byte
in it that is next. -/
structure Stage where
  na : Nat := 0
  ne : Nat := 0
  nc : Nat := 0
  bp : Option Nat := none
  cp : Nat := 0
  swap : Swap

/-- `*cp++ = c`, in the buffer of the next block if the last one is full. `base` is the
number of the first block. -/
def Stage.put (base : Nat) (s : Stage) (c : Byte) : Stage :=
  let s := if s.nc % BSIZE = 0 then { s with bp := some (base + s.nc / BSIZE), cp := 0 } else s
  match s.bp with
  | none => s
  | some b =>
    { s with
      nc := s.nc + 1
      cp := s.cp + 1
      swap := update s.swap b (update (s.swap b) s.cp c) }

/-- The loop over one string, for at most `n` bytes; `err` is `u.u_error`. -/
def stageString (base : Nat) (u : User) : Nat → Ptr → Option Errno → Stage → Except Errno Stage
  | 0, _, _, _ => .error .e2big
  | n + 1, up, err, s =>
    let err := if s.nc ≥ NCARGS - 1 then some .e2big else err
    match fubyte u up, err with
    | none, _ => .error .efault
    | some _, some e => .error e
    | some c, none =>
      let s := s.put base c
      if c = 0 then .ok s else stageString base u n up.inc none s

/-- The string at `ap` is counted and collected. -/
def stageArg (base : Nat) (u : User) (ap : Word) (s : Stage) : Except Errno Stage :=
  stageString base u NCARGS (.dec ap) (if ap = mone then some .efault else none)
    { s with na := s.na + 1 }

/-- The loop over the vectors, for at most `n` strings. A pointer that is `NULL` is 0. -/
def stageArgs (base : Nat) (u : User) : Nat → Nat → Nat → Stage → Except Errno Stage
  | 0, _, _, _ => .error .e2big
  | n + 1, argp, envp, s =>
    let ap := if argp ≠ 0 then fuword u argp else 0
    let argp := if argp ≠ 0 then argp + 1 else argp
    if ap = 0 ∧ envp ≠ 0 then
      let ap := fuword u envp
      if ap = 0 then .ok s
      else stageArg base u ap { s with ne := s.ne + 1 } >>= stageArgs base u n 0 (envp + 1)
    else if ap = 0 then .ok s
    else stageArg base u ap s >>= stageArgs base u n argp envp

/-! ### Copying them back -/

/-- The variables of the second loop. -/
structure Back where
  image : Image
  ap : Nat
  up : Ptr
  nc : Nat := 0
  bp : Option Nat := none
  cp : Nat := 0

/-- The loop over one string, for at most `n` bytes. -/
def copyString (base : Nat) (swap : Swap) : Nat → Back → Back
  | 0, b => b
  | n + 1, b =>
    let b := if b.nc % BSIZE = 0 then { b with bp := some (base + b.nc / BSIZE), cp := 0 } else b
    let c := match b.bp with
      | none => 0
      | some k => swap k b.cp
    let b := { b with
      image := subyte b.image b.up c, up := b.up.inc, nc := b.nc + 1, cp := b.cp + 1 }
    if c = 0 then b else copyString base swap n b

/-- The head of the loop: the `NULL` between the vectors comes where `na == ne`. -/
def nextSlot (ne na : Nat) (b : Back) : Back :=
  let b := { b with ap := b.ap + 1 }
  if na = ne then { b with image := suword b.image b.ap 0, ap := b.ap + 1 } else b

/-- The loop over the strings, `na` of them left. -/
def copyArgs (base : Nat) (swap : Swap) (ne : Nat) : Nat → Back → Back
  | 0, b => nextSlot ne 0 b
  | na + 1, b =>
    let b := nextSlot ne (na + 1) b
    let b := { b with image := suword b.image b.ap b.up.enc }
    copyArgs base swap ne na (copyString base swap NCARGS b)

/-- The image a program starts with, and its `r15`. -/
structure Started where
  image : Image
  r15 : Nat

/-- From the copying on: the block goes to the base of the stack. -/
def handOver (base : Nat) (swap : Swap) (na ne : Nat) (image : Image) : Started :=
  let ap := USTKPAGE * PGSZ
  let ucp := ap + 1 + na + 2
  let b : Back := { image := suword image ap (BitVec.ofNat _ (na - ne)), ap := ap, up := ⟨ucp, 5⟩ }
  let b := copyArgs base swap ne na b
  let image := suword b.image b.ap 0
  let ucp := if b.up.off ≠ 5 then b.up.word + 1 else b.up.word
  { image := suword image ucp 0, r15 := ucp + 1 }

/-- The bytes of stack that `na` strings of `nc` bytes need: argc, the pointers, the two
`NULL`s, the strings in whole words, and the word behind them. -/
def nargc (na nc : Nat) : Nat := wtob (btow nc) + (na + 4) * NBPW

/-- `exece`, from the point where it has its two blocks, the first of them `base`. -/
def exece (base maxmem : Nat) (swap : Swap) (u : User) (argp envp : Nat) (f : File) :
    Except Errno Started := do
  let s ← if argp ≠ 0 then stageArgs base u NCARGS argp envp { swap := swap }
    else .ok { swap := swap }
  let image ← getxfile maxmem f (nargc s.na s.nc)
  return handOver base s.swap s.na s.ne image

end V7Besm.Exec
