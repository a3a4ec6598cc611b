import V7Besm.Fallible.Steps
import V7Besm.Ld.Pass2

/-!
Links with libraries and with the options that discard symbols.

`-s`, `-x`, `-X` and `-S` say which symbols go to the output. Pass 1 looks at them when it
counts the symbols of a file, with the options it has seen by then; pass 2 looks at them
when it writes the symbols, with the options of the whole command line. A file may be a
member of a library, which pass 1 keeps only if it defines something needed.

With none of the options and no library these are the passes of `Ld.Pass1` and
`Ld.Pass2` (`linkItems_plain`).
-/

namespace V7Besm.Ld

open Fallible

/-- `-s` (which sets `xflag` too), `-x`, `-X` and `-S`. -/
structure Strip where
  sflag : Bool := false
  xflag : Bool := false
  Xflag : Bool := false
  Sflag : Bool := false
deriving DecidableEq, Repr

/-- `(n_type & N_TYPE) > N_COMM`. -/
def Seg.aboveComm : Seg → Bool
  | .fn => true
  | .other code => decide (code > 0o10)
  | _ => false

/-- Local symbols whose name starts with it are discarded under `-X`. -/
def LOCSYM : UInt8 := 46

namespace Strip

variable (strip : Strip)

/-- `-S` drops absolute and debug symbols. -/
def drops (sym : Nlist) : Bool := strip.Sflag && (decide (sym.seg = .abs) || sym.seg.aboveComm)

/-- A local symbol goes to the output. -/
def writes (sym : Nlist) : Bool :=
  !strip.sflag && !strip.xflag && (!strip.Xflag || sym.name.head? != some LOCSYM)

/-- The loops over the symbols of a file do something with `sym`. -/
def takes (sym : Nlist) : Bool := !strip.drops sym && (sym.ext || strip.writes sym)

/-- A symbol for the file itself goes to the output. -/
def marksFiles : Bool := !(strip.sflag || strip.xflag)

/-- What `make_file_symbol` says the file's symbol will take. -/
def fileSymbolSize (o : Obj) : Nat := if strip.marksFiles then o.file.length + 6 else 0

/-- `scan_object` with the options seen so far. -/
def scanObject (pr : Profile) (libflg : Bool) (l : Linker) (o : Obj) :
    Except Diag (Linker × Bool) :=
  if o.relflg then .error .notRelocatable
  else if l.coptsize.length ≥ pr.LLSIZE then .error .fileTableOverrun
  else do
    let (constab, newindex) ← loadConstants pr l.constab o.const
    let b := (readHeader o).shift l.tsize l.dsize l.bsize
    let nloc := strip.fileSymbolSize o
    let st ← scanSymbols pr newindex b ⟨l.symtab, if nloc = 0 then 0 else 1, nloc, 0⟩
      (o.syms.filter strip.takes)
    if !libflg || st.ndef ≠ 0 then
      let l ← keepObject l o constab st
      .ok (l, true)
    else
      let savindex := l.symtab.symtab.length
      .ok ({ l with symtab := st.symtab.rip (st.symtab.symtab.length - savindex) }, false)

/-- One turn of the loop over the symbols in pass 2. The value is relocated before the
options are looked at. -/
def readSymbol (pr : Profile) (newindex : List Nat) (cbasaddr : Int) (b : Bias) (s : Symtab)
    (st : Symbols) (symno : Nat) (cursym : Nlist) : Except Diag Symbols := do
  let sym ← relocateCursym newindex cbasaddr b cursym
  if strip.takes sym then Ld.readSymbol pr newindex cbasaddr b s st symno cursym else .ok st

def readSymbols (pr : Profile) (newindex : List Nat) (cbasaddr : Int) (b : Bias) (s : Symtab) :
    Symbols → Nat → List Nlist → Except Diag Symbols
  | st, _, [] => .ok st
  | st, symno, cursym :: rest => do
    let st ← readSymbol strip pr newindex cbasaddr b s st symno cursym
    readSymbols pr newindex cbasaddr b s st (symno + 1) rest

/-- `relocate_object` with the options of the command line. -/
def relocateObject (pr : Profile) (l : Linker) (y : Layout) (org : Origins) (coptsize : Nat)
    (o : Obj) : Except Diag Parts := do
  let (constab, newindex) ← loadConstants pr (l.constab.take org.nconst) o.const
  let b := (readHeader o).shift org.torigin org.dorigin org.borigin
  let st ← strip.readSymbols pr newindex y.corigin b y.symtab ⟨[], []⟩ 0 o.syms
  let env : Env :=
    { newindex := newindex
      cbasaddr := y.corigin
      bias := b
      «local» := st.local
      symtab := y.symtab.symtab
      nsym := l.nsym
      rflag := y.rflag }
  let const ← relocateSegment env ((constab.drop org.nconst).take coptsize)
  let text ← relocateSegment env o.text
  let data ← relocateSegment env o.data
  .ok { const := const
        text := text
        data := data
        syms := (if strip.marksFiles then [makeFileSymbol o org.torigin] else []) ++
          st.written.map fun s => { s with value := halfword s.value } }

def pass2 (pr : Profile) (l : Linker) (y : Layout) :
    Origins → List Nat → List Obj → Except Diag Parts
  | _, _, [] => .ok ⟨[], [], [], []⟩
  | org, coptsize, o :: rest => do
    let copt := coptsize.headD 0
    let one ← strip.relocateObject pr l y org copt o
    let more ← pass2 pr l y (org.past copt o) coptsize.tail rest
    .ok { const := one.const ++ more.const
          text := one.text ++ more.text
          data := one.data ++ more.data
          syms := one.syms ++ more.syms }

/-- The options pass 2 works with: a relocatable output keeps its symbols. -/
def settled (y : Layout) : Strip := if y.rflag then { strip with sflag := false } else strip

end Strip

/-- A file for pass 1, with the options seen before it. -/
structure Item where
  strip : Strip
  libflg : Bool
  obj : Obj

/-- Pass 1 over files and library members: the linker and the files that were kept. -/
def scanItems (pr : Profile) : Linker → List Item → Except Diag (Linker × List Obj)
  | l, [] => .ok (l, [])
  | l, item :: rest => do
    let (l, kept) ← item.strip.scanObject pr item.libflg l item.obj
    let (l, objs) ← scanItems pr l rest
    .ok (l, if kept then item.obj :: objs else objs)

/-- The rest of the link, of the files pass 1 has kept. -/
def finishLink (pr : Profile) (opt : Options) (strip : Strip) (out : Name) (l : Linker)
    (kept : List Obj) : Except Diag Obj := do
  let y ← assignAddresses pr opt l
  let strip := strip.settled y
  let parts ← strip.pass2 pr l y ⟨0, y.torigin, y.dorigin, y.borigin⟩ l.coptsize kept
  let pad := if y.nflag then y.dorigin - (y.torigin + l.tsize) else 0
  .ok { file := out
        const := parts.const
        text := parts.text ++ List.replicate pad zeroCell
        data := parts.data
        bss := y.bsize
        syms := if strip.sflag then [] else parts.syms ++ y.symtab.symtab
        relflg := !y.rflag }

/-- The link of files and library members into the file named `out`; `strip` holds the
options of the whole command line. -/
def linkItems (pr : Profile) (opt : Options) (strip : Strip) (out : Name) (items : List Item) :
    Except Diag Obj := do
  let (l, kept) ← scanItems pr .init items
  finishLink pr opt strip out l kept

/-! ### One file of pass 1 -/

theorem addSize_ok {a b c : Nat} {seg : Seg} (ok : addSize a b seg = .ok c) :
    c = a + b ∧ a + b < SEGTOP := by
  unfold addSize at ok
  split at ok
  next => cases ok
  next fits =>
    cases ok
    exact ⟨rfl, by omega⟩

/-- What `scan_object` makes of the linker. A file that is kept adds to the totals; of a library
member that defines nothing needed the table forgets the names. -/
inductive Leaves (libflg : Bool) (l : Linker) (o : Obj) (constab : List Cell) (st : Scan) :
    Linker → Bool → Prop where
  | keeps : Leaves libflg l o constab st
      { symtab := st.symtab
        constab := constab
        coptsize := l.coptsize ++ [constab.length - l.constab.length]
        csize := l.csize + (constab.length - l.constab.length)
        tsize := l.tsize + o.text.length
        dsize := l.dsize + o.data.length
        bsize := l.bsize + o.bss
        ssize := l.ssize + st.nloc
        nsym := l.nsym + st.nsymbol } true
  | skips : libflg = true → st.ndef = 0 → Leaves libflg l o constab st
      { l with symtab := st.symtab.rip (st.symtab.symtab.length - l.symtab.symtab.length) } false

section Scan

variable {pr : Profile} {libflg kept : Bool} {l l' : Linker} {o : Obj}

theorem keepObject_leaves {constab : List Cell} {st : Scan}
    (ok : keepObject l o constab st = .ok l') : Leaves libflg l o constab st l' true := by
  obtain ⟨csize, c_ok, ok⟩ := bind_eq_ok.mp ok
  obtain ⟨tsize, t_ok, ok⟩ := bind_eq_ok.mp ok
  obtain ⟨dsize, d_ok, ok⟩ := bind_eq_ok.mp ok
  obtain ⟨bsize, b_ok, ok⟩ := bind_eq_ok.mp ok
  split at ok
  next => cases ok
  next =>
    cases ok
    rw [(addSize_ok c_ok).1, (addSize_ok t_ok).1, (addSize_ok d_ok).1, (addSize_ok b_ok).1]
    exact .keeps

/-- What a scan does: it pools the constants, goes through the symbols and keeps the file or not. -/
theorem Strip.scanObject_cases {strip : Strip}
    (ok : strip.scanObject pr libflg l o = .ok (l', kept)) :
    ∃ constab newindex st, loadConstants pr l.constab o.const = .ok (constab, newindex) ∧
      scanSymbols pr newindex ((readHeader o).shift l.tsize l.dsize l.bsize)
        ⟨l.symtab, if strip.fileSymbolSize o = 0 then 0 else 1, strip.fileSymbolSize o, 0⟩
        (o.syms.filter strip.takes) = .ok st ∧ Leaves libflg l o constab st l' kept := by
  unfold Strip.scanObject at ok
  split at ok
  next => cases ok
  next =>
    split at ok
    next => cases ok
    next =>
      obtain ⟨⟨constab, newindex⟩, consts, ok⟩ := bind_eq_ok.mp ok
      obtain ⟨st, symbols, ok⟩ := bind_eq_ok.mp ok
      refine ⟨constab, newindex, st, consts, symbols, ?_⟩
      split at ok
      next =>
        obtain ⟨kept_l, keeps, ok⟩ := bind_eq_ok.mp ok
        cases ok
        exact keepObject_leaves keeps
      next skipped =>
        cases ok
        simp only [Bool.or_eq_true, Bool.not_eq_true', decide_eq_true_eq, not_or, not_not,
          Bool.not_eq_false] at skipped
        exact .skips skipped.1 skipped.2

end Scan

/-! ### Without options -/

/-- Object files without options. -/
def plain (o : Obj) : Item := ⟨{}, false, o⟩

@[simp]
theorem Strip.takes_none (sym : Nlist) : ({} : Strip).takes sym = true := by
  simp [Strip.takes, Strip.drops, Strip.writes]

theorem Strip.filter_takes_none (syms : List Nlist) : syms.filter ({} : Strip).takes = syms :=
  List.filter_eq_self.mpr fun sym _ => takes_none sym

theorem Strip.scanObject_none (pr : Profile) (libflg : Bool) (l : Linker) (o : Obj) :
    ({} : Strip).scanObject pr libflg l o = Ld.scanObject pr libflg l o := by
  simp [Strip.scanObject, Ld.scanObject, filter_takes_none, Strip.fileSymbolSize, Strip.marksFiles]

theorem scanObject_cases {pr : Profile} {libflg kept : Bool} {l l' : Linker} {o : Obj}
    (ok : scanObject pr libflg l o = .ok (l', kept)) :
    ∃ constab newindex st, loadConstants pr l.constab o.const = .ok (constab, newindex) ∧
      scanSymbols pr newindex ((readHeader o).shift l.tsize l.dsize l.bsize)
        ⟨l.symtab, 1, o.file.length + 6, 0⟩ o.syms = .ok st ∧
      Leaves libflg l o constab st l' kept := by
  rw [← Strip.scanObject_none] at ok
  have marks : ({} : Strip).fileSymbolSize o = o.file.length + 6 := rfl
  have := Strip.scanObject_cases ok
  rwa [Strip.filter_takes_none, marks] at this

theorem Strip.readSymbol_none (pr : Profile) (newindex : List Nat) (cbasaddr : Int) (b : Bias)
    (s : Symtab) (st : Symbols) (symno : Nat) (cursym : Nlist) :
    ({} : Strip).readSymbol pr newindex cbasaddr b s st symno cursym =
      Ld.readSymbol pr newindex cbasaddr b s st symno cursym := by
  simp only [Strip.readSymbol, takes_none, if_true, Ld.readSymbol]
  cases relocateCursym newindex cbasaddr b cursym with
  | error d => rfl
  | ok sym => rfl

theorem Strip.readSymbols_none (pr : Profile) (newindex : List Nat) (cbasaddr : Int) (b : Bias)
    (s : Symtab) (st : Symbols) (symno : Nat) (syms : List Nlist) :
    ({} : Strip).readSymbols pr newindex cbasaddr b s st symno syms =
      Ld.readSymbols pr newindex cbasaddr b s st symno syms := by
  induction syms generalizing st symno with
  | nil => rfl
  | cons cursym rest ih => simp only [Strip.readSymbols, Ld.readSymbols, readSymbol_none, ih]

theorem Strip.pass2_none (pr : Profile) (l : Linker) (y : Layout) (org : Origins)
    (coptsize : List Nat) (objs : List Obj) :
    ({} : Strip).pass2 pr l y org coptsize objs = Ld.pass2 pr l y org coptsize objs := by
  induction objs generalizing org coptsize with
  | nil => rfl
  | cons o rest ih =>
    simp [Strip.pass2, Ld.pass2, ih, Strip.relocateObject, Ld.relocateObject, readSymbols_none,
      Strip.marksFiles]

theorem scanItems_plain (pr : Profile) (l : Linker) (objs : List Obj) :
    scanItems pr l (objs.map plain) = (pass1 pr l objs).map fun l => (l, objs) := by
  induction objs generalizing l with
  | nil => rfl
  | cons o rest ih =>
    simp only [List.map_cons, scanItems, pass1, plain, Strip.scanObject_none]
    cases scans : scanObject pr false l o with
    | error d => rfl
    | ok r =>
      obtain ⟨l', kept⟩ := r
      obtain ⟨_, _, _, -, -, left⟩ := scanObject_cases scans
      obtain rfl : kept = true := by
        cases left with
        | keeps => rfl
        | skips lib => cases lib
      change (do
        let (l, objs) ← scanItems pr l' (rest.map plain)
        .ok (l, o :: objs) : Except Diag _) = _
      rw [ih]
      cases passes : pass1 pr l' rest with
      | error d | ok l'' => simp [passes, bind, Except.bind, Except.map]

/-- Without options and libraries this is the link of the object files. -/
theorem linkItems_plain (pr : Profile) (opt : Options) (out : Name) (objs : List Obj) :
    linkItems pr opt {} out (objs.map plain) = link pr opt out objs := by
  have settled (y : Layout) : ({} : Strip).settled y = {} := by
    unfold Strip.settled
    split <;> rfl
  unfold linkItems link
  rw [scanItems_plain]
  cases pass1 pr .init objs with
  | error d => rfl
  | ok l =>
    simp only [Except.map, bind, Except.bind, finishLink, settled, Strip.pass2_none]
    rfl

end V7Besm.Ld
