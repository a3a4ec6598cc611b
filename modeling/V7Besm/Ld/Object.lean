import Mathlib.Algebra.GroupWithZero.Nat

/-!
Object files as the linker reads them.

A file is a const, a text and a data segment of 48-bit words, each with a word
of two relocation records, the size of its bss and its symbols. Sizes count
words; the header's byte counts are six times as many. Inside a file the
segments are numbered through from `BADDR`: const, text, data, bss.
-/

namespace V7Besm.Ld

/-- A symbol's name, without the length byte and the NUL. -/
abbrev Name := List UInt8

/-- `n_type & N_TYPE`, the segment a symbol belongs to. -/
inductive Seg where
  | undf | abs | const | text | data | bss | strng | comm | fn
  | other (code : Nat)
deriving DecidableEq, Repr

/-- An entry of a symbol table. `ext` is the `N_EXT` bit. -/
structure Nlist where
  name : Name
  ext : Bool
  seg : Seg
  value : Int
deriving DecidableEq, Repr

/-- The field of a relocation record under the mask `REXT`. -/
inductive Rel where
  | abs | const | text | data | bss | five | strng | ext
deriving DecidableEq, Repr

/-- A relocation record: `RSHORT`, `RMERGE`, the unused bit 04, what the address is
relative to and, for `REXT`, the number of the symbol. -/
structure Rec where
  (short merge spare : Bool)
  rel : Rel
  index : Nat
deriving DecidableEq, Repr

/-- The record 0: an absolute half-word with a long address field. -/
def RABS : Rec := ⟨false, false, false, .abs, 0⟩

/-- The mark of an anonymous literal. -/
def RMERGE : Rec := { RABS with merge := true }

/-- A word with its relocation word, high half first. -/
structure Cell where
  hi : Nat
  lo : Nat
  rhi : Rec
  rlo : Rec
deriving DecidableEq, Repr

/-- `HDRSZ / W`: memory below is free. -/
def BADDR : Nat := 8

/-- The last address of a const word. -/
def CONSTTOP : Nat := 0o7777

/-- A file as `read_header` and `fgetsym` deliver it; `file` is the base name the
linker makes a file symbol of, `relflg` the header's flag of a linked file. -/
structure Obj where
  file : Name
  (const text data : List Cell)
  bss : Nat
  syms : List Nlist
  relflg : Bool
deriving DecidableEq, Repr

/-! ### The address fields of an instruction -/

/-- The address in a long field. -/
def longGet (t : Nat) : Nat := t % 0o100000

/-- `a & 077777` into the long field of `t`. -/
def longPut (t : Nat) (a : Int) : Nat := t / 0o100000 * 0o100000 + (a % 0o100000).toNat

/-- The effective address in a short field: twelve bits, and 070000 for the segment
bit. -/
def shortAddrGet (t : Nat) : Nat := t % 0o10000 + if t / 0o1000000 % 2 = 1 then 0o70000 else 0

def shortAddrFits (a : Int) : Bool :=
  if a < 0 ∨ a > 0o77777 then false else decide (a ≤ 0o7777 ∨ a ≥ 0o70000)

/-- `a & 077777` into the short field of `t`, masked to what the field holds. -/
def shortAddrPut (t : Nat) (a : Int) : Nat :=
  let a := (a % 0o100000).toNat
  t / 0o2000000 * 0o2000000 + t / 0o10000 % 0o100 * 0o10000 + a % 0o10000 +
    if a ≥ 0o70000 then 0o1000000 else 0

theorem longGet_longPut {t : Nat} {a : Int} : (longGet (longPut t a) : Int) = a % 0o100000 := by
  unfold longGet longPut
  omega

theorem shortAddrGet_shortAddrPut {t : Nat} {a : Int} (fits : shortAddrFits a = true) :
    (shortAddrGet (shortAddrPut t a) : Int) = a := by
  have range : 0 ≤ a ∧ a ≤ 0o77777 ∧ (a ≤ 0o7777 ∨ a ≥ 0o70000) := by
    unfold shortAddrFits at fits
    split at fits
    · cases fits
    · have := of_decide_eq_true fits
      omega
  unfold shortAddrGet shortAddrPut
  dsimp only
  split <;> split <;> omega

end V7Besm.Ld
