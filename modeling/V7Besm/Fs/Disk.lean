import V7Besm.Alloc.Code
import Mathlib.Algebra.GroupWithZero.Nat
import Mathlib.Algebra.Ring.Int.Defs

/-!
The words of a volume, as the kernel and the host tool read them.

A disk is 48-bit words in blocks. A number on it is a 41-bit signed value in one word;
`fromWord` and `toWord` are the conversions (`from_word`, `to_word` in `fsutil.h`, and
what an `int` is on the machine). The superblock's fields are those of `Alloc.Filsys`.
-/

namespace V7Besm.Fs

open Alloc

/-- Raw words by block number and offset. -/
abbrev Disk := Int → Nat → Nat

def WORD_MAX : Int := 0x10000000000 - 1
def WORD_MIN : Int := -0x10000000000

/-- Disk word to value: the sign is bit 41. -/
def fromWord (w : Nat) : Int :=
  let v : Int := w % 0x20000000000
  if v ≥ 0x10000000000 then v - 0x20000000000 else v

/-- Value to disk word, for a value that fits. -/
def toWord (v : Int) : Nat := (v % 0x20000000000).toNat

/-- The value fits in a word. -/
def Fits (v : Int) : Prop := WORD_MIN ≤ v ∧ v ≤ WORD_MAX

instance (v : Int) : Decidable (Fits v) := inferInstanceAs (Decidable (_ ∧ _))

theorem fromWord_toWord {v : Int} (fits : Fits v) : fromWord (toWord v) = v := by
  obtain ⟨low, high⟩ := fits
  simp only [WORD_MIN, WORD_MAX] at low high
  unfold fromWord toWord
  by_cases neg : v < 0
  · rw [if_pos (by omega)]
    omega
  · rw [if_neg (by omega)]
    omega

/-- The value of a word of a block. -/
def Disk.get (d : Disk) (bno : Int) (i : Nat) : Int := fromWord (d bno i)

/-- The block and the slot of an inode. -/
def itod (ino : Int) : Int := (ino + (INOPB - 1 : Nat)) / INOPB

def itoo (ino : Int) : Nat := ((ino + (INOPB - 1 : Nat)) % INOPB).toNat

/-- Word `i` of the on-disk inode `ino`: mode, nlink, uid, gid, size, three times, addresses. -/
def Disk.dinode (d : Disk) (ino : Int) (i : Nat) : Int := d.get (itod ino) (16 * itoo ino + i)

abbrev DI_MODE : Nat := 0
abbrev DI_NLINK : Nat := 1
abbrev DI_SIZE : Nat := 4
abbrev DI_MTIME : Nat := 6
abbrev DI_CTIME : Nat := 7
abbrev DI_ADDR : Nat := 8

/-- `mode & IFMT`, as the digit behind twelve bits. -/
def fmt (mode : Int) : Int := mode / 4096 % 16

abbrev IFDIR : Int := 4
abbrev IFREG : Int := 8
abbrev IFCHR : Int := 2
abbrev IFBLK : Int := 6
abbrev IFMPC : Int := 3
abbrev IFMPB : Int := 7

abbrev NINDIR : Nat := 512

end V7Besm.Fs
