import V7Besm.Ld.Files

/-!
The command line of the linker (`pass1` and `pass2`, `scan_file`, `relocate_file`,
`library.c`, the header of `output.c`).

The two passes read the arguments with code of their own. The reading depends on nothing
but the arguments, so it comes first: `letters1` and `letters2` are the two switches over
the letters of an option, and what they yield is a list of acts. The acts are then carried
out, by pass 1 on the linker and by pass 2 on the list of members pass 1 has left.

What pass 2 writes for a file is `Strip.writeObject`. A diagnostic of severity 1 does not end
it: the symbol or the half-word is reported and pass 2 goes on.
-/

namespace V7Besm.Ld

/-- An argument. -/
abbrev Arg := List UInt8

/-- The sizes of the tables that only the command line uses, and of the numbers in it. -/
structure Build extends Profile where
  RANTABSZ : Nat
  NLIBDIR : Nat
  (INT_MAX LONG_MAX ULONG_MAX : Nat)

def Build.host : Build :=
  { Profile.host with
    RANTABSZ := 1000
    NLIBDIR := 32
    INT_MAX := 2 ^ 31 - 1
    LONG_MAX := 2 ^ 63 - 1
    ULONG_MAX := 2 ^ 64 - 1 }

def Build.besm6 : Build :=
  { Profile.besm6 with
    RANTABSZ := 512
    NLIBDIR := 8
    INT_MAX := 2 ^ 40 - 1
    LONG_MAX := 2 ^ 40 - 1
    ULONG_MAX := 2 ^ 48 - 1 }

/-- What ends a pass. `argumentAbsent` is the `atoi` of a missing argument, `undefined` an `int`
that overflows; a `-T` that makes `basaddr` negative is not followed. -/
inductive Stop where
  | diag (d : Diag)
  | argumentMissed (letter : UInt8)
  | argumentAbsent
  | undefined
  | negativeBase
  | unknownFlag
  | dataTooSmall
  | tooManyDirectories
  | cannotOpen
  | badFormat
  | libraryTableOverflow
  | ranlibOverflow
deriving DecidableEq, Repr

/-- What an argument asks for. -/
inductive Act where
  | file (cp : Arg)
  | lib (name : Arg)
  | out (name : Arg)
  | use (name : Arg)
  | entry (name : Arg)
  | size (num : Int)
  | base (addr : Nat)
  | dir (name : Arg)
  | flag (letter : UInt8)
deriving DecidableEq, Repr

def digit (c : UInt8) : Option Nat :=
  if 48 ≤ c ∧ c ≤ 57 then some (c.toNat - 48)
  else if 97 ≤ c ∧ c ≤ 102 then some (c.toNat - 87)
  else if 65 ≤ c ∧ c ≤ 70 then some (c.toNat - 55)
  else none

/-- The digits to the base `base` at the front. -/
def digits (base : Nat) : Nat → List UInt8 → Nat
  | n, [] => n
  | n, c :: rest =>
    match digit c with
    | none => n
    | some d => if d < base then digits base (n * base + d) rest else n

/-- `isspace` -/
def isspace (c : UInt8) : Bool := decide (c = 32 ∨ 9 ≤ c ∧ c ≤ 13)

/-- White space and a sign at the front: whether the sign is a minus, and what is behind it. -/
def sign (a : Arg) : Bool × Arg :=
  match a.dropWhile isspace with
  | [] => (false, [])
  | c :: rest => if c = 45 then (true, rest) else if c = 43 then (false, rest) else (false, c :: rest)

/-- A result of `int` arithmetic. -/
def Build.int (b : Build) (n : Int) : Except Stop Int :=
  if -(b.INT_MAX : Int) - 1 ≤ n ∧ n ≤ b.INT_MAX then .ok n else .error .undefined

def atoi (b : Build) (a : Arg) : Except Stop Int :=
  let (neg, a) := sign a
  let n : Int := digits 10 0 a
  b.int (if neg then -n else n)

/-- The switch of pass 2. -/
def letters2 (b : Build) : List UInt8 → List Arg → Except Stop (List Act × List Arg)
  | [], p => .ok ([], p)
  | c :: ap, p =>
    if c = 68 then                                     -- D
      match p with
      | [] => .error .argumentAbsent
      | a :: p => do
        let dnum ← atoi b a
        let (acts, p) ← letters2 b ap p
        .ok (.size dnum :: acts, p)
    else if c = 117 ∨ c = 101 ∨ c = 111 ∨ c = 118 then -- u, e, o, v
      letters2 b ap p.tail
    else if c = 76 then .ok ([], if ap = [] then p.tail else p)
    else if c = 108 then .ok ([.lib ap], p)
    else letters2 b ap p

/-- The loop over the arguments. Each turn takes at least one, so as many turns as there are
arguments are enough. -/
def readArgs (letters : List UInt8 → List Arg → Except Stop (List Act × List Arg)) :
    Nat → List Arg → Except Stop (List Act)
  | 0, _ => .ok []
  | _ + 1, [] => .ok []
  | fuel + 1, ap :: p =>
    match ap with
    | [] => do
      let acts ← readArgs letters fuel p
      .ok (.file ap :: acts)
    | c :: option =>
      if c = 45 then do
        let (acts, p) ← letters option p
        let more ← readArgs letters fuel p
        .ok (acts ++ more)
      else do
        let acts ← readArgs letters fuel p
        .ok (.file ap :: acts)

def read2 (b : Build) (args : List Arg) : Except Stop (List Act) :=
  readArgs (letters2 b) args.length args

/-! ### Files -/

/-- A member of an archive: its name, its size in bytes and the object it holds, if it is
one. -/
structure Member where
  name : Name
  size : Nat
  obj : Option Obj

/-- The size of a member's header. -/
def arhdrsz (name : Name) : Nat := (1 + name.length + 5) / 6 * 6 + 30

/-- From one header to the next. -/
def Member.span (m : Member) : Nat := (m.size + 5) / 6 * 6 + arhdrsz m.name

/-- The member whose header is at the offset `loc`, the first one being at `pos`. -/
def memberAt (loc : Nat) : Nat → List Member → Option Member
  | _, [] => none
  | pos, m :: rest => if pos = loc then some m else memberAt loc (pos + m.span) rest

/-- The name of the table of contents. -/
def SYMDEF : Name := [95, 95, 46, 83, 89, 77, 68, 69, 70]

/-- An archive; `toc` is what its first member holds if that is a table of contents, `stale`
says that the file is younger than the table. Every entry of the table is the offset of a
member. -/
structure Archive where
  members : List Member
  toc : List (Name × Nat)
  stale : Bool
  toc_at : ∀ e ∈ toc, ∃ m, memberAt e.2 6 members = some m

/-- What `open_input` may find; `other` is neither an object nor an archive. -/
inductive File where
  | object (o : Obj)
  | archive (a : Archive)
  | other

/-- The files that can be opened. -/
abbrev Disk := Name → Option File

/-- `%s/lib%s.a` -/
def libPath (dir name : Name) : Name := dir ++ [47, 108, 105, 98] ++ name ++ [46, 97]

/-- The path a library is opened under: the first directory that has it, or none. -/
def libFile (disk : Disk) (libdir : List Name) (name : Arg) : Name :=
  let name := if name = [] then [97] else name
  match libdir.find? fun dir => (disk (libPath dir name)).isSome with
  | some dir => libPath dir name
  | none => [108, 105, 98] ++ name ++ [46, 97]

/-- The name without the directories, which the file symbol is made of. -/
def baseName (cp : Arg) : Name := (cp.reverse.takeWhile (· ≠ 47)).reverse

/-- One file that pass 1 or pass 2 opened: what the argument calls it, its path and, of an
archive, the members that were taken. -/
inductive Visit where
  | object (cp : Arg) (path : Name)
  | archive (cp : Arg) (path : Name) (members : List Nat)
deriving DecidableEq, Repr

/-- The call and the path. -/
def Visit.opened : Visit → Arg × Name
  | .object cp path => (cp, path)
  | .archive cp path _ => (cp, path)

/-! ### Pass 1 -/

/-- Pass 1 between two arguments. `files` and `visits` say which objects it has taken so far,
and `early` how many data words were counted in front of a `-D`. -/
structure Pass1 where
  l : Linker
  opt : Options
  strip : Strip
  libdir : List Name
  out : Name
  liblist : List (Option Nat)
  files : List Obj
  visits : List Visit
  early : Nat

/-- `l.out` -/
def lOut : Name := [108, 46, 111, 117, 116]

def Pass1.init : Pass1 := ⟨.init, {}, {}, [], lOut, [], [], [], 0⟩

/-- Which members of an archive were taken, while it is scanned. -/
structure Taken where
  l : Linker
  liblist : List (Option Nat)
  files : List Obj
  members : List Nat

/-- Bytes declared or written for the segments and the symbols. -/
@[ext]
structure Bytes where
  (const text data syms : Nat)
deriving DecidableEq, Repr

def namesSize (extra : Nat) (syms : List Nlist) : Nat := (syms.map fun s => s.name.length + extra).sum

/-- The size of the symbol table as `assign_addresses` adds it up. -/
def symsSize (strip : Strip) (l : Linker) (globals : List Nlist) : Nat :=
  if strip.sflag then 0
  else (if strip.xflag then 0 else l.ssize) + namesSize 6 globals + 1

/-- The header that `setup_output` writes. -/
def declared (st : Pass1) (y : Layout) : Bytes where
  const := 6 * st.l.csize
  text := 6 * if y.nflag then y.dorigin - y.torigin else st.l.tsize
  data := 6 * st.l.dsize
  syms := ALIGN (symsSize (st.strip.settled y) st.l y.symtab.symtab) 6

/-! ### Pass 2 -/

/-- What pass 2 writes for: a file, or the words of a `-D`. -/
inductive Emit where
  | file (o : Obj)
  | zeros (count : Nat)

/-- Pass 2 between two arguments. -/
structure Pass2 where
  liblist : List (Option Nat)
  visits : List Visit
  emits : List Emit

/-- The entries of `liblist` up to the next mark, and those behind it. -/
def uptoMark : List (Option Nat) → Option (List Nat × List (Option Nat))
  | [] => none
  | none :: rest => some ([], rest)
  | some loc :: rest => (uptoMark rest).map fun r => (loc :: r.1, r.2)

/-- The member that pass 1 took at `loc`. -/
def memberEmit (a : Archive) (loc : Nat) : Except Stop Emit :=
  match memberAt loc 6 a.members with
  | none => .error .badFormat
  | some m =>
    match m.obj with
    | none => .error .badFormat
    | some o => .ok (.file { o with file := baseName m.name })

/-- `relocate_file`, up to the relocation. -/
def relocateFile (disk : Disk) (w : Pass2) (path : Name) (cp : Arg) : Except Stop Pass2 := do
  match disk path with
  | none => .error .cannotOpen
  | some .other => .error .badFormat
  | some (.object o) =>
    .ok { w with
      visits := w.visits ++ [.object cp path]
      emits := w.emits ++ [.file { o with file := baseName cp }] }
  | some (.archive a) =>
    match uptoMark w.liblist with
    | none => .error .badFormat
    | some (members, rest) =>
      let emits ← members.mapM (memberEmit a)
      .ok { liblist := rest
            visits := w.visits ++ [.archive cp path members]
            emits := w.emits ++ emits }

def act2 (disk : Disk) (libdir : List Name) (w : Pass2) : Act → Except Stop Pass2
  | .file cp => relocateFile disk w cp cp
  | .lib name => relocateFile disk w (libFile disk libdir name) ([45, 108] ++ name)
  | .size num => .ok { w with emits := w.emits ++ [.zeros num.toNat] }
  | _ => .ok w

/-- The files as pass 2 finds them: the output has been created. -/
def Pass1.disk (st : Pass1) (disk : Disk) : Disk :=
  fun path => if path = st.out then some .other else disk path

/-- Pass 2, up to the relocation. -/
def runPass2 (b : Build) (disk : Disk) (st : Pass1) (args : List Arg) : Except Stop Pass2 := do
  let acts ← read2 b args
  acts.foldlM (act2 (st.disk disk) st.libdir) ⟨st.liblist, [], []⟩

/-- A redefinition is reported and the loop over the symbols goes on. -/
def goOn (st : Symbols) : Except Diag Symbols → Except Diag Symbols
  | .error (.redefined _) => .ok st
  | r => r

namespace Strip

variable (strip : Strip)

/-- The loop over the symbols of a file. -/
def walkSymbols (pr : Profile) (newindex : List Nat) (cbasaddr : Int) (b : Bias) (s : Symtab) :
    Symbols → Nat → List Nlist → Except Diag Symbols
  | st, _, [] => .ok st
  | st, symno, cursym :: rest => do
    let st ← goOn st (strip.readSymbol pr newindex cbasaddr b s st symno cursym)
    walkSymbols pr newindex cbasaddr b s st (symno + 1) rest

/-- What `relocate_object` writes. A short address out of range is reported and stored as under
`-r`, so here `rflag` is set. -/
def writeObject (pr : Profile) (l : Linker) (y : Layout) (org : Origins) (coptsize : Nat)
    (o : Obj) : Except Diag Parts := do
  let (constab, newindex) ← loadConstants pr (l.constab.take org.nconst) o.const
  let b := (readHeader o).shift org.torigin org.dorigin org.borigin
  let st ← strip.walkSymbols pr newindex y.corigin b y.symtab ⟨[], []⟩ 0 o.syms
  let env : Env :=
    { newindex := newindex
      cbasaddr := y.corigin
      bias := b
      «local» := st.local
      symtab := y.symtab.symtab
      nsym := l.nsym
      rflag := true }
  let const ← relocateSegment env ((constab.drop org.nconst).take coptsize)
  let text ← relocateSegment env o.text
  let data ← relocateSegment env o.data
  .ok { const := const
        text := text
        data := data
        syms := (if strip.marksFiles then [makeFileSymbol o org.torigin] else []) ++
          st.written.map fun s => { s with value := halfword s.value } }

/-- Everything pass 2 writes; the words of `-D` move no origin. -/
def writeEmits (pr : Profile) (l : Linker) (y : Layout) :
    Origins → List Nat → List Emit → Except Diag Parts
  | _, _, [] => .ok ⟨[], [], [], []⟩
  | org, coptsize, .zeros count :: rest => do
    let more ← writeEmits pr l y org coptsize rest
    .ok { more with data := List.replicate count zeroCell ++ more.data }
  | org, coptsize, .file o :: rest => do
    let copt := coptsize.headD 0
    let one ← strip.writeObject pr l y org copt o
    let more ← writeEmits pr l y (org.past copt o) coptsize.tail rest
    .ok { const := one.const ++ more.const
          text := one.text ++ more.text
          data := one.data ++ more.data
          syms := one.syms ++ more.syms }

end Strip

/-- Words up to the next page. -/
def padding (n : Nat) : Nat := (1024 - n % 1024) % 1024

/-- What `finish_output` puts into the file: the segments pass 2 has written, the padding of the
text under `-n`, and the symbols with the zero byte behind them and as many more as the
declared size wants. -/
def written (st : Pass1) (y : Layout) (parts : Parts) : Bytes :=
  let strip := st.strip.settled y
  let text := parts.text.length
  let ssize := symsSize strip st.l y.symtab.symtab
  { const := 6 * parts.const.length
    text := 6 * (text + if y.nflag then padding (y.torigin + text) else 0)
    data := 6 * parts.data.length
    syms := if strip.sflag then 0
      else (if strip.xflag then 0 else namesSize 5 parts.syms) +
        namesSize 5 y.symtab.symtab + 1 + (ALIGN ssize 6 - ssize) }

end V7Besm.Ld
