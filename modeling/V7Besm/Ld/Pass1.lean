import V7Besm.Ld.Symtab

/-!
The linker's first pass and the layout (`pass1.c`, `assign_addresses` in `ld.c`).

Pass 1 reads every file once: it pools the const segments, adds up the segment
sizes and enters the external symbols, with values relative to their segments.
`assignAddresses` then chooses the origins, gives every common symbol its slot and
turns the values into addresses.

A diagnostic of severity 2 ends the link; one of severity 1 is remembered and makes
the exit code. Here the first of either kind ends the computation: what is claimed of
a link is claimed of those without any. The options that only select which symbols
are written (`-s`, `-x`, `-X`, `-S`), the entry point, `-u` and `-D` are left out.
-/

namespace V7Besm.Ld

/-- The command line: `-r`, `-d`, `-n` and `-T`. -/
structure Options where
  rflag : Bool := false
  dflag : Bool := false
  nflag : Bool := false
  basaddr : Nat := BADDR
deriving DecidableEq, Repr

/-- The limit of a segment, in words. -/
def SEGTOP : Nat := 0o100000

/-- `a + b`, unless that overflows the address range. -/
def addSize (a b : Nat) (seg : Seg) : Except Diag Nat :=
  if a + b ≥ SEGTOP then .error (.segmentOverflow seg) else .ok (a + b)

/-! ### The pool of constants -/

/-- An anonymous literal without relocation: it may be merged away. -/
def mergeable (c : Cell) : Bool := decide (c.rhi = RMERGE ∧ c.rlo = RABS)

/-- `p` is a word without relocation of the value of `c`. -/
def survives (c p : Cell) : Bool :=
  decide (p.rlo = RABS ∧ { p.rhi with merge := false } = RABS ∧ c.hi = p.hi ∧ c.lo = p.lo)

/-- The index the word ends up at: that of an earlier one, or a new one. -/
def poolIndex (constab : List Cell) (c : Cell) : Nat :=
  if mergeable c then constab.findIdx (survives c) else constab.length

/-- The words of one file after the pool so far: the new pool and `newindex`. -/
def pool (pr : Profile) : List Cell → List Cell → Except Diag (List Cell × List Nat)
  | constab, [] => .ok (constab, [])
  | constab, c :: rest => do
    let p := poolIndex constab c
    if p = constab.length then
      if constab.length + 1 ≥ pr.NCONST then .error .constantTableOverflow
      else
        let (tab, newindex) ← pool pr (constab ++ [c]) rest
        .ok (tab, p :: newindex)
    else
      let (tab, newindex) ← pool pr constab rest
      .ok (tab, p :: newindex)

def loadConstants (pr : Profile) (constab const : List Cell) : Except Diag (List Cell × List Nat) :=
  if const.length > pr.NCINDEX then .error .constIndexOverflow else pool pr constab const

/-! ### The symbols of a file -/

/-- What is added to an address in the file to make it relative to its segment, or,
in pass 2, an address of the program. -/
structure Bias where
  (ctrel cdrel cbrel : Int)
deriving DecidableEq, Repr

/-- The biases `read_header` computes. -/
def readHeader (o : Obj) : Bias where
  ctrel := -BADDR - o.const.length
  cdrel := -BADDR - (o.const.length + o.text.length)
  cbrel := -BADDR - (o.const.length + o.text.length + o.data.length)

/-- Segment bases are added to the biases. -/
def Bias.shift (b : Bias) (text data bss : Int) : Bias :=
  ⟨b.ctrel + text, b.cdrel + data, b.cbrel + bss⟩

/-- The value of the symbol just read, after the merge of the segments. -/
def relocateCursym (newindex : List Nat) (cbasaddr : Int) (b : Bias) (cursym : Nlist) :
    Except Diag Nlist :=
  match cursym.seg with
  | .const =>
    let i := cursym.value - BADDR
    if i < 0 then .error (.constOutside cursym.name cursym.value)
    else
      match newindex[i.toNat]? with
      | none => .error (.constOutside cursym.name cursym.value)
      | some p => .ok { cursym with value := p + cbasaddr }
  | .text => .ok { cursym with value := cursym.value + b.ctrel }
  | .data => .ok { cursym with value := cursym.value + b.cdrel }
  | .bss => .ok { cursym with value := cursym.value + b.cbrel }
  | .undf => .ok cursym
  | .comm => .ok cursym
  | _ => .ok (if cursym.ext then { cursym with seg := .abs } else cursym)

/-- The linker between two files of pass 1; the segment sizes count words, `ssize`
bytes. -/
structure Linker where
  symtab : Symtab
  constab : List Cell
  coptsize : List Nat
  (csize tsize dsize bsize ssize nsym : Nat)

def Linker.init : Linker := ⟨.empty, [], [], 0, 0, 0, 0, 0, 0⟩

/-- The counters of `scan_object` while it reads the symbols. -/
structure Scan where
  symtab : Symtab
  (nsymbol nloc ndef : Nat)

/-- Type and value of the entry `sp` after a second sighting of its name, and whether
that counts as a definition. -/
def mergeSymbol (sp cursym : Nlist) : Seg × Int × Bool :=
  if cursym.seg = .undf then (sp.seg, sp.value, false)
  else if sp.seg = .undf ∨ sp.seg = .comm then
    if cursym.seg = .comm then
      (.comm, if cursym.value > sp.value then cursym.value else sp.value, false)
    else if sp.seg = .undf ∨ cursym.seg = .data ∨ cursym.seg = .bss then
      (cursym.seg, cursym.value, true)
    else (sp.seg, sp.value, false)
  else (sp.seg, sp.value, false)

/-- One turn of the loop over the symbols: a local symbol is counted, an external one
entered or merged. -/
def scanSymbol (pr : Profile) (newindex : List Nat) (b : Bias) (st : Scan) (cursym : Nlist) :
    Except Diag Scan :=
  if !cursym.ext then
    .ok { st with nsymbol := st.nsymbol + 1, nloc := st.nloc + cursym.name.length + 5 }
  else do
    let cursym ← relocateCursym newindex 0 b cursym
    match lookupSymbol pr st.symtab cursym.name with
    | none => .error .symbolNotFound
    | some hp =>
      let (symtab, lastsym, new) ← enterSymbol pr st.symtab cursym hp
      if new then .ok { st with symtab := symtab }
      else
        match symtab.symtab[lastsym]? with
        | none => .error .symbolNotFound
        | some sp =>
          let (seg, value, defines) := mergeSymbol sp cursym
          .ok { st with
            symtab := symtab.merge lastsym seg value
            ndef := if defines then st.ndef + 1 else st.ndef }

def scanSymbols (pr : Profile) (newindex : List Nat) (b : Bias) :
    Scan → List Nlist → Except Diag Scan
  | st, [] => .ok st
  | st, cursym :: rest => do
    let st ← scanSymbol pr newindex b st cursym
    scanSymbols pr newindex b st rest

/-- The running totals after a file that is kept. -/
def keepObject (l : Linker) (o : Obj) (constab : List Cell) (st : Scan) :
    Except Diag Linker := do
  let coptsize := constab.length - l.constab.length
  let csize ← addSize l.csize coptsize .const
  let tsize ← addSize l.tsize o.text.length .text
  let dsize ← addSize l.dsize o.data.length .data
  let bsize ← addSize l.bsize o.bss .bss
  if l.ssize + st.nloc ≥ SEGTOP * 6 then .error .symbolSizeOverflow
  else
    .ok { symtab := st.symtab
          constab := constab
          coptsize := l.coptsize ++ [coptsize]
          csize := csize
          tsize := tsize
          dsize := dsize
          bsize := bsize
          ssize := l.ssize + st.nloc
          nsym := l.nsym + st.nsymbol }

/-- One file of pass 1. A library member (`libflg`) that defines nothing needed is
rolled back. `coptsize` has `LLSIZE` entries and no check; a link with more files is
not followed. -/
def scanObject (pr : Profile) (libflg : Bool) (l : Linker) (o : Obj) :
    Except Diag (Linker × Bool) :=
  if o.relflg then .error .notRelocatable
  else if l.coptsize.length ≥ pr.LLSIZE then .error .fileTableOverrun
  else do
    let (constab, newindex) ← loadConstants pr l.constab o.const
    let b := (readHeader o).shift l.tsize l.dsize l.bsize
    let st ← scanSymbols pr newindex b ⟨l.symtab, 1, o.file.length + 6, 0⟩ o.syms
    if !libflg || st.ndef ≠ 0 then
      let l ← keepObject l o constab st
      .ok (l, true)
    else
      let savindex := l.symtab.symtab.length
      .ok ({ l with symtab := st.symtab.rip (st.symtab.symtab.length - savindex) }, false)

/-- Pass 1 over a list of plain object files. -/
def pass1 (pr : Profile) : Linker → List Obj → Except Diag Linker
  | l, [] => .ok l
  | l, o :: rest => do
    let (l, _) ← scanObject pr false l o
    pass1 pr l rest

/-! ### The layout -/

/-- Where the segments go, and what the link became: `rflag` may be forced on, and
then `nflag` is cleared. -/
structure Layout where
  symtab : Symtab
  (corigin torigin dorigin cmorigin borigin bsize : Nat)
  rflag : Bool
  nflag : Bool

/-- `x` rounded up to a multiple of `y`. -/
def ALIGN (x y : Nat) : Nat := x + y - 1 - (x + y - 1) % y

/-- `lookup_name` of one of the linker's own symbols. -/
def lookupName (pr : Profile) (s : Symtab) (n : Name) : Option Nat :=
  (lookupSymbol pr s n).bind s.hshtab

/-- `econst`, `etext`, `edata`, `ebss` and `end`. -/
def econst : Name := [101, 99, 111, 110, 115, 116]
def etext : Name := [101, 116, 101, 120, 116]
def edata : Name := [101, 100, 97, 116, 97]
def ebss : Name := [101, 98, 115, 115]
def «end» : Name := [101, 110, 100]

/-- Give the undefined symbol `sp` a definition. -/
def defineSymbol (s : Symtab) (sp : Option Nat) (value : Int) (seg : Seg) : Except Diag Symtab :=
  match sp with
  | none => .ok s
  | some sp =>
    match s.symtab[sp]? with
    | none => .ok s
    | some e => if e.seg = .undf then .ok (s.merge sp seg value) else .error (.redefined e.name)

/-- Slots for the common symbols, in the order of the table: the entries with the
offset in place of the size, and the size of all slots. -/
def layCommons : Nat → List Nlist → Except Diag (List Nlist × Nat)
  | cmsize, [] => .ok ([], cmsize)
  | cmsize, sp :: rest =>
    if sp.seg = .comm then do
      let next ← addSize cmsize sp.value.toNat .bss
      let (tab, size) ← layCommons next rest
      .ok ({ sp with value := cmsize } :: tab, size)
    else do
      let (tab, size) ← layCommons cmsize rest
      .ok (sp :: tab, size)

/-- The address of a symbol from its segment's origin. -/
def placeSymbol (arflag : Bool) (corigin torigin dorigin cmorigin borigin : Nat) (sp : Nlist) :
    Except Diag Nlist :=
  let placed : Except Diag Nlist :=
    match sp.seg with
    | .undf => if arflag then .ok sp else .error (.undefinedReference sp.name)
    | .const => .ok { sp with value := sp.value + corigin }
    | .text => .ok { sp with value := sp.value + torigin }
    | .data => .ok { sp with value := sp.value + dorigin }
    | .bss => .ok { sp with value := sp.value + borigin }
    | .comm => .ok { sp with seg := .bss, value := sp.value + cmorigin }
    | _ => .ok sp
  match placed with
  | .error d => .error d
  | .ok sp =>
    if sp.value < 0 ∨ sp.value ≥ 0o100000000 then .error (.longAddress sp.name sp.value)
    else .ok sp

/-- Some symbol other than the linker's own is still undefined. -/
def anyUndefined (tab : List Nlist) (own : List (Option Nat)) : Bool :=
  (List.range tab.length).any fun sp =>
    decide ((tab[sp]?.map Nlist.seg) = some .undf ∧ some sp ∉ own)

/-- The five boundary symbols get their definitions. -/
def defineEnds (s : Symtab) (own : List (Option Nat)) (l : Linker) (etextValue : Nat) :
    Except Diag Symtab := do
  let s ← defineSymbol s own[0]?.join l.csize .const
  let s ← defineSymbol s own[1]?.join etextValue .text
  let s ← defineSymbol s own[2]?.join l.dsize .data
  let s ← defineSymbol s own[3]?.join l.bsize .bss
  defineSymbol s own[4]?.join l.bsize .bss

/-- The flags after the search for undefined symbols, and the linker's own entries. -/
structure Mode where
  own : List (Option Nat)
  (rflag dflag nflag : Bool)

/-- A symbol that is still undefined forces the output to stay relocatable. -/
def chooseMode (pr : Profile) (opt : Options) (l : Linker) : Mode :=
  let own := [econst, etext, edata, ebss, «end»].map (lookupName pr l.symtab)
  let forced := !opt.rflag && anyUndefined l.symtab.symtab own
  { own := own
    rflag := opt.rflag || forced
    dflag := opt.dflag && !forced
    nflag := opt.nflag && !(opt.rflag || forced) }

/-- Boundary and common symbols are defined unless the output stays relocatable. The
result has the values relative to the segments, and the size of the commons. -/
def defineCommons (opt : Options) (mode : Mode) (l : Linker) : Except Diag (Symtab × Nat) :=
  if mode.dflag || !mode.rflag then do
    let text := opt.basaddr + l.csize
    let s ← defineEnds l.symtab mode.own l
      (if mode.nflag then ALIGN (text + l.tsize) 1024 - text else l.tsize)
    let (tab, cmsize) ← layCommons 0 s.symtab
    .ok ({ s with symtab := tab }, cmsize)
  else .ok (l.symtab, 0)

/-- The segments one behind the other, and the addresses of the symbols. -/
def stackSegments (opt : Options) (mode : Mode) (l : Linker) (s : Symtab) (cmsize : Nat) :
    Except Diag Layout :=
  let torigin := opt.basaddr + l.csize
  if l.csize ≠ 0 ∧ torigin - 1 > CONSTTOP then .error (.constTooLarge (torigin - 1))
  else do
    let dorigin := if mode.nflag then ALIGN (torigin + l.tsize) 1024 else torigin + l.tsize
    let cmorigin := dorigin + l.dsize
    let borigin := cmorigin + cmsize
    let tab ← s.symtab.mapM (placeSymbol opt.rflag opt.basaddr torigin dorigin cmorigin borigin)
    let bsize ← addSize l.bsize cmsize .bss
    .ok { symtab := { s with symtab := tab }
          corigin := opt.basaddr
          torigin := torigin
          dorigin := dorigin
          cmorigin := cmorigin
          borigin := borigin
          bsize := bsize
          rflag := mode.rflag
          nflag := mode.nflag }

def assignAddresses (pr : Profile) (opt : Options) (l : Linker) : Except Diag Layout := do
  let mode := chooseMode pr opt l
  let (s, cmsize) ← defineCommons opt mode l
  stackSegments opt mode l s cmsize

end V7Besm.Ld
