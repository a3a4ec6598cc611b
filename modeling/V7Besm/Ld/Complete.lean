import V7Besm.Ld.Command
import V7Besm.Ld.Constab
import V7Besm.Ld.Library

/-!
When pass 2 gets through.

Three things in a file end pass 2: a const symbol or a reference to the const segment that
lies outside it, an external record whose number is not that of an undefined or common
symbol, and more such symbols than `local` has room for. `Obj.Resolves` says that a file has
none of them.

Nothing else does. The constants of a file are pooled as in pass 1 (`Loaded`), and a name that
pass 1 has entered is found again, whatever was entered, merged and ripped out after it
(`Symtab.Grows`).
-/

namespace V7Besm.Ld

open Fallible List

/-! ### Names stay found -/

/-- The search for `n` meets an entry. -/
def Symtab.Meets (pr : Profile) (s : Symtab) (n : Name) : Prop :=
  s.table.Meets (pr.NSYM + 2) (home pr) hits n

/-- What is found in `s` is found in `s'`. -/
structure Symtab.Grows (pr : Profile) (s s' : Symtab) : Prop where
  threaded : s.table.Threaded → s'.table.Threaded
  meets : ∀ n, s.Meets pr n → s'.Meets pr n

section Names

variable {pr : Profile} {s s' s'' : Symtab} {n : Name} {cursym : Nlist} {newindex : List Nat}
  {b : Bias} {st st' : Scan} {syms : List Nlist}

theorem Symtab.Meets.lookupName (meets : s.Meets pr n) (threaded : s.table.Threaded) :
    ∃ sp e, lookupName pr s n = some sp ∧ s.symtab[sp]? = some e := by
  obtain ⟨hp, sp, found, holds⟩ := Probe.Table.Meets.find meets
  have lt := threaded.lt_length holds
  simp only [Symtab.table, length_map] at lt
  refine ⟨sp, s.symtab[sp], ?_, List.getElem?_eq_getElem lt⟩
  rw [Ld.lookupName, lookupSymbol, found]
  exact holds

theorem Symtab.Grows.of_table (same : s'.table = s.table) : s.Grows pr s' :=
  ⟨fun threaded => same ▸ threaded, fun n meets => by rw [Symtab.Meets, same]; exact meets⟩

theorem Symtab.Grows.trans (first : s.Grows pr s') (second : s'.Grows pr s'') : s.Grows pr s'' :=
  ⟨second.threaded ∘ first.threaded, fun n meets => second.meets n (first.meets n meets)⟩

end Names

/-! ### The symbols of a file -/

/-- An undefined or common symbol, of which `local` is made. -/
def Nlist.refers (s : Nlist) : Bool :=
  s.ext && (decide (s.seg = .undf) || decide (s.seg = .comm))

/-- The type a symbol has once `relocate_cursym` has seen it. -/
def Nlist.typed (s : Nlist) : Nlist :=
  match s.seg with
  | .const | .text | .data | .bss | .undf | .comm => s
  | _ => if s.ext then { s with seg := .abs } else s

section Symbols

variable {pr : Profile} {strip : Strip} {newindex : List Nat} {cbasaddr : Int} {b : Bias}
  {tab : Symtab} {st st' : Symbols} {symno : Nat} {cursym sym : Nlist} {syms : List Nlist}

/-- What one turn of the loop over the symbols does when it does not end pass 2. A name that is
found is all it needs of the table. -/
structure Walked (strip : Strip) (tab : Symtab) (st : Symbols) (symno : Nat) (cursym : Nlist)
    (st' : Symbols) : Prop where
  «local» : ∃ own : List (Nat × Nat), st'.local = st.local ++ own ∧
    own.map Prod.fst = (if cursym.refers then [symno] else []) ∧
    ∀ lp ∈ own, ∃ e, tab.symtab[lp.2]? = some e
  written : st'.written.map Nlist.name = st.written.map Nlist.name ++
    if !cursym.ext && strip.takes cursym then [cursym.name] else []

theorem Walked.nothing (refers : cursym.refers = false)
    (passed : (!cursym.ext && strip.takes cursym) = false) :
    Walked strip tab st symno cursym st :=
  ⟨⟨[], by simp, by simp [refers], by simp⟩, by simp [passed]⟩

end Symbols

/-! ### The half-words of a file -/

section References

variable {env : Env} {t : Nat} {r : Rec} {cells : List Cell}

end References

/-! ### One file -/

/-- The symbols that go to the output for a file, in front of the global ones. -/
def localSyms (strip : Strip) (o : Obj) : List Nlist :=
  (if strip.marksFiles then [makeFileSymbol o 0] else []) ++
    o.syms.filter fun s => !s.ext && strip.takes s

section File

variable {pr : Profile} {strip : Strip} {l : Linker} {y : Layout} {org : Origins} {o : Obj}
  {constab own others : List Cell} {newindex : List Nat} {one : Parts}

variable (consts : loadConstants pr constab o.const = .ok (constab ++ own, newindex))
  (base : org.nconst = constab.length) (whole : l.constab = constab ++ others)
  (threaded : y.symtab.table.Threaded)
  (found : ∀ s ∈ o.syms, s.ext = true → strip.drops s.typed = false → y.symtab.Meets pr s.name)

include consts base whole

include threaded found

end File

/-! ### All files -/

def Emit.obj? : Emit → Option Obj
  | .file o => some o
  | .zeros _ => none

def Emit.data : Emit → Nat
  | .file o => o.data.length
  | .zeros count => count

section Files

variable {pr : Profile} {strip : Strip} {l : Linker} {y : Layout} {org : Origins}
  {constab : List Cell} {objs : List Obj} {loads : List (List Nat × List Cell)}
  {emits : List Emit} {parts : Parts}

variable (loaded : Loaded pr constab objs loads)
  (whole : l.constab = constab ++ loads.flatMap Prod.snd) (base : org.nconst = constab.length)
  (files : emits.filterMap Emit.obj? = objs) (threaded : y.symtab.table.Threaded)
  (found : ∀ o ∈ objs, ∀ s ∈ o.syms, s.ext = true → strip.drops s.typed = false →
    y.symtab.Meets pr s.name)

include loaded whole base files threaded found

end Files

end V7Besm.Ld
