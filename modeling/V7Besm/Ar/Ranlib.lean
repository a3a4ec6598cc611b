import V7Besm.Ar.Edit
import Mathlib.Algebra.Ring.Int.Defs

/-!
The table of contents that `ranlib` puts in front of an archive.

`ranlib` takes the offsets in the old archive, adds what the new table will make of
them, and has the archiver insert the table before the first member, or replace the
old one if the first member is one. The linker reads the table with `fgetran`.

The table is right if the first member's name is found again by the archiver, which
looks for its base name, and if no old table stands further back: that one would be
replaced where it is.
-/

namespace V7Besm.Ar

open Function List

open Ld (Name Obj Nlist Member arhdrsz SYMDEF)

/-! ### The format of the table -/

/-- An entry of the table: the name and the offset of the member. -/
abbrev Ran := Name × Int

def fgeth (b : List UInt8) : Nat :=
  (b.getD 0 0).toNat * 65536 + (b.getD 1 0).toNat * 256 + (b.getD 2 0).toNat

/-- `fgetran`: an entry and what follows, or nothing at a zero byte or the end. -/
def fgetran : List UInt8 → Option ((Name × Nat) × List UInt8)
  | [] => none
  | len :: b =>
    if len = 0 then none
    else some (((b.drop 3).take len.toNat, fgeth b), (b.drop 3).drop len.toNat)

/-- `read_ranlib`, at most `fuel` entries. -/
def readRanlib : Nat → List UInt8 → List (Name × Nat)
  | 0, _ => []
  | fuel + 1, b =>
    match fgetran b with
    | none => []
    | some (r, rest) => r :: readRanlib fuel rest

/-- The entries of a table. -/
def tableOf (b : List UInt8) : List (Name × Nat) := readRanlib b.length b

/-! ### Building it -/

/-- `(sym.n_type & N_EXT) && (sym.n_type & N_TYPE) != N_UNDF` -/
def exports (s : Nlist) : Bool := s.ext && decide (s.seg ≠ .undf)

/-- The external names a member's symbol table holds with a type other than undefined. -/
def Entry.exported (e : Entry) : List Name :=
  match e.body with
  | .object o => (o.syms.filter exports).map (·.name)
  | .bytes _ => []

/-- What a well-formed archive is made of: padded members, symbols with names of a length a
byte can hold, and tables under the name of a table only. -/
structure Entry.Wf (e : Entry) : Prop where
  padded : e.Padded
  names : ∀ n ∈ e.exported, 0 < n.length ∧ n.length ≤ 255
  table : e.name = SYMDEF → e.exported = []

/-- The members besides the table, in their order. -/
def others (arch : List Entry) : List Entry := arch.eraseP (·.name = SYMDEF)

variable {tab : List Ran}

/-- The entries the members call for, the first one being at `pos`. -/
def index (pos : Nat) (es : List Entry) : List Ran :=
  (placed pos es).flatMap fun p => p.2.exported.map fun n => (n, (p.1 : Int))

variable {pos : Nat} {es : List Entry}

variable {off : Nat}

section Outcome

variable {table : Source} {first : Entry} {rest arch arch' : List Entry}

end Outcome

/-! ### The index -/

section Index

variable {TABSZ now : Nat} {stat : Stat} {first : Entry} {rest arch arch' : List Entry}

end Index

/-- A member as the linker sees it. -/
def Entry.toMember (e : Entry) : Member :=
  ⟨e.name, e.size, match e.body with | .object o => some o | .bytes _ => none⟩

/-- Every entry of the table leads the linker to a member of `old` that exports the name, and there
is one for every name that a member exports. -/
def Serves (old new : List Entry) : Prop :=
  ∃ table b, new.head? = some table ∧ table.body = .bytes b ∧
    (∀ name off, (name, off) ∈ tableOf b → ∃ e ∈ others old, name ∈ e.exported ∧
      Ld.memberAt off 6 (new.map Entry.toMember) = some e.toMember) ∧
    ∀ e ∈ others old, ∀ name ∈ e.exported, ∃ off, (name, off) ∈ tableOf b ∧
      Ld.memberAt off 6 (new.map Entry.toMember) = some e.toMember

end V7Besm.Ar
