import V7Besm.Ld.Pass1

/-!
The linker's second pass (`pass2.c`, `reloc.c`, `output.c`).

Every file is read again. Its symbols give the map from the file's symbol numbers to
the global entries, its const words are pooled once more over the same prefix of the
pool, and each half-word of its segments is patched by its relocation record. The
result is a file of the same format, with the records when it stays relocatable.
-/

namespace V7Besm.Ld

/-- The relocation code for the segment of a symbol. -/
def relocType : Seg → Rel
  | .const => .const
  | .text => .text
  | .data => .data
  | .bss => .bss
  | .strng => .data
  | .comm => .bss
  | _ => .abs

/-- What relocating a half-word of the current file looks at. -/
structure Env where
  newindex : List Nat
  cbasaddr : Int
  bias : Bias
  «local» : List (Nat × Nat)
  symtab : List Nlist
  nsym : Nat
  rflag : Bool

/-- The global entry for the file's symbol number `sn`. -/
def lookupLocal (env : Env) (sn : Nat) : Except Diag Nat :=
  match env.local.find? (fun lp => lp.1 == sn) with
  | none => .error .badSymbolReference
  | some lp => .ok lp.2

/-- The address in the field of `t` that the record describes. -/
def field (t : Nat) (r : Rec) : Nat :=
  if r.short then shortAddrGet t else longGet t

/-- The second step of `relocate_halfword`: what is added to the address `a`, the record
of the output and the name for a diagnostic. -/
def addend (env : Env) (a : Nat) (r : Rec) : Except Diag (Int × Rec × Option Name) :=
  match r.rel with
  | .const =>
    if a < BADDR then .error (.constReferenceOutside a)
    else
      match env.newindex[a - BADDR]? with
      | none => .error (.constReferenceOutside a)
      | some p => .ok (env.cbasaddr + p - a, r, none)
  | .text => .ok (env.bias.ctrel, r, none)
  | .data => .ok (env.bias.cdrel, r, none)
  | .bss => .ok (env.bias.cbrel, r, none)
  | .ext => do
    let sp ← lookupLocal env r.index
    match env.symtab[sp]? with
    | none => .error .badSymbolReference
    | some e =>
      if e.seg = .undf ∨ e.seg = .comm then
        .ok (0, ⟨r.short, false, false, .ext, env.nsym + sp⟩, none)
      else .ok (e.value, ⟨r.short, false, false, relocType e.seg, 0⟩, some e.name)
  | _ => .ok (0, r, none)

/-- The patched half-word and its record. -/
def relocateHalfword (env : Env) (t : Nat) (r : Rec) : Except Diag (Nat × Rec) := do
  let a := field t r
  let (ad, r', name) ← addend env a r
  if r'.short then
    if !env.rflag && !shortAddrFits (a + ad) then .error (.shortOutOfRange name (a + ad))
    else .ok (shortAddrPut t (a + ad), r')
  else .ok (longPut t (a + ad), r')

def relocateCell (env : Env) (c : Cell) : Except Diag Cell := do
  let (hi, rhi) ← relocateHalfword env c.hi c.rhi
  let (lo, rlo) ← relocateHalfword env c.lo c.rlo
  .ok ⟨hi, lo, rhi, rlo⟩

/-- `relocate_segment`, and `relocate_constants` over the file's part of the pool. -/
def relocateSegment (env : Env) (cells : List Cell) : Except Diag (List Cell) :=
  cells.mapM (relocateCell env)

/-- What pass 2 has read of a file's symbols: the local ones for the output, relocated,
and the map of its unresolved external ones. -/
structure Symbols where
  written : List Nlist
  «local» : List (Nat × Nat)

/-- One turn of the loop over the symbols, for the symbol with number `symno`. -/
def readSymbol (pr : Profile) (newindex : List Nat) (cbasaddr : Int) (b : Bias) (s : Symtab)
    (st : Symbols) (symno : Nat) (cursym : Nlist) : Except Diag Symbols := do
  let cursym ← relocateCursym newindex cbasaddr b cursym
  if !cursym.ext then
    .ok { st with written := st.written ++ [cursym] }
  else
    match lookupName pr s cursym.name with
    | none => .error .symbolNotFound
    | some sp =>
      if cursym.seg = .undf ∨ cursym.seg = .comm then
        if st.local.length ≥ pr.NSYMPR then .error .localTableOverflow
        else .ok { st with «local» := st.local ++ [(symno, sp)] }
      else
        match s.symtab[sp]? with
        | none => .error .symbolNotFound
        | some e =>
          if cursym.seg ≠ e.seg ∨ cursym.value ≠ e.value then .error (.redefined e.name)
          else .ok st

def readSymbols (pr : Profile) (newindex : List Nat) (cbasaddr : Int) (b : Bias) (s : Symtab) :
    Symbols → Nat → List Nlist → Except Diag Symbols
  | st, _, [] => .ok st
  | st, symno, cursym :: rest => do
    let st ← readSymbol pr newindex cbasaddr b s st symno cursym
    readSymbols pr newindex cbasaddr b s st (symno + 1) rest

/-- The running origins of pass 2. -/
structure Origins where
  (nconst torigin dorigin borigin : Nat)
deriving DecidableEq, Repr

/-- The origins pass 2 starts from. -/
def Layout.origins (y : Layout) : Origins := ⟨0, y.torigin, y.dorigin, y.borigin⟩

/-- The output of one file, or of all. -/
structure Parts where
  (const text data : List Cell)
  syms : List Nlist

/-- `fputh` of a value. -/
def halfword (v : Int) : Int := v % 0o100000000

/-- The debugger's symbol for the file. -/
def makeFileSymbol (o : Obj) (torigin : Nat) : Nlist := ⟨o.file, false, .fn, torigin⟩

/-- One file of pass 2, with the number of const words pass 1 counted for it. -/
def relocateObject (pr : Profile) (l : Linker) (y : Layout) (org : Origins) (coptsize : Nat)
    (o : Obj) : Except Diag Parts := do
  let (constab, newindex) ← loadConstants pr (l.constab.take org.nconst) o.const
  let b := (readHeader o).shift org.torigin org.dorigin org.borigin
  let st ← readSymbols pr newindex y.corigin b y.symtab ⟨[], []⟩ 0 o.syms
  let env : Env :=
    { newindex := newindex
      cbasaddr := y.corigin
      bias := b
      «local» := st.local
      symtab := y.symtab.symtab
      nsym := l.nsym
      rflag := y.rflag }
  let const ← relocateSegment env ((constab.drop org.nconst).take coptsize)
  let text ← relocateSegment env o.text
  let data ← relocateSegment env o.data
  .ok { const := const
        text := text
        data := data
        syms := makeFileSymbol o org.torigin ::
          st.written.map fun s => { s with value := halfword s.value } }

/-- The origins behind the file. -/
def Origins.past (org : Origins) (coptsize : Nat) (o : Obj) : Origins where
  nconst := org.nconst + coptsize
  torigin := org.torigin + o.text.length
  dorigin := org.dorigin + o.data.length
  borigin := org.borigin + o.bss

/-- Pass 2 over the files and what pass 1 counted for each. -/
def pass2 (pr : Profile) (l : Linker) (y : Layout) :
    Origins → List Nat → List Obj → Except Diag Parts
  | _, _, [] => .ok ⟨[], [], [], []⟩
  | org, coptsize, o :: rest => do
    let copt := coptsize.headD 0
    let one ← relocateObject pr l y org copt o
    let more ← pass2 pr l y (org.past copt o) coptsize.tail rest
    .ok { const := one.const ++ more.const
          text := one.text ++ more.text
          data := one.data ++ more.data
          syms := one.syms ++ more.syms }

/-- A zero word of the padding between text and data. -/
def zeroCell : Cell := ⟨0, 0, RABS, RABS⟩

/-- The link of object files into the file named `out`. The relocation records of the
result mean something only if it is relocatable. -/
def link (pr : Profile) (opt : Options) (out : Name) (objs : List Obj) : Except Diag Obj := do
  let l ← pass1 pr .init objs
  let y ← assignAddresses pr opt l
  let parts ← pass2 pr l y ⟨0, y.torigin, y.dorigin, y.borigin⟩ l.coptsize objs
  let pad := if y.nflag then y.dorigin - (y.torigin + l.tsize) else 0
  .ok { file := out
        const := parts.const
        text := parts.text ++ List.replicate pad zeroCell
        data := parts.data
        bss := y.bsize
        syms := parts.syms ++ y.symtab.symtab
        relflg := !y.rflag }

end V7Besm.Ld
