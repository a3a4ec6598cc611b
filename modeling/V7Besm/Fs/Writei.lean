import Mathlib.Order.Lattice

/-!
`writei` on a regular file or directory (`rdwri.c`).

`bmap` returns 0 where it sets an error other than `ENOSPC`, and `writei` looks for a negative
number only. So it goes on with block 0, the superblock: the user's bytes are put into its
buffer, the offset and the size of the file move, and only then the error is seen. The count is
whatever the user has given, a negative number also: it is one piece then, of no bytes, by which
the offset moves back. A negative offset and a count of 0 do not get as far as the loop.
-/

namespace V7Besm.Fs.Writei

open Function

abbrev BSIZE : Int := 3072

/-- What `bmap` returns: a block, -1, or 0 with an error. -/
inductive Mapped where
  | block (nb : Int)
  | missing
  | failed

/-- What does not change: `bmap`, the user's byte for each offset in the file (none if it
cannot be read), whether block 0 has a buffer with its contents in it, and for which logical
blocks `bread` of what `bmap` returned fails. -/
structure Call where
  bmap : Int → Mapped
  user : Int → Option UInt8
  cached : Bool
  broken : Int → Bool

/-- `u_offset`, `u_count`, `i_size` and what `bread` finds in each block. The rest is history: the
offset behind the last byte stored in a block of the file, if there is one, and these blocks. -/
structure State where
  (offset count isize : Int)
  buf : Int → Int → UInt8
  stored : Option Int
  touched : List Int

variable (c : Call) (w : State)

/-- The length of the next piece. -/
def piece : Int := min (BSIZE - w.offset % BSIZE) w.count

/-- The user's bytes of the piece can be read: `iomove` moves all of them or none. -/
def Readable : Prop := ∀ i < (piece w).toNat, (c.user (w.offset + i)).isSome

instance : Decidable (Readable c w) := inferInstanceAs (Decidable (∀ i < (piece w).toNat, _))

/-- The contents of the block `b` with the piece in it. -/
def fill (b j : Int) : UInt8 :=
  if w.offset % BSIZE ≤ j ∧ j < w.offset % BSIZE + piece w then
    (c.user (w.offset + (j - w.offset % BSIZE))).getD (w.buf b j)
  else w.buf b j

/-- `iomove`, and what comes of the size. -/
def moved : State :=
  { w with
    offset := w.offset + piece w
    count := w.count - piece w
    isize := max w.isize (w.offset + piece w) }

/-- The buffer is given up: it could not be read. A whole block is not read at all. -/
def GivenUp : Prop := piece w ≠ BSIZE ∧ c.broken (w.offset / BSIZE)

instance : Decidable (GivenUp c w) := inferInstanceAs (Decidable (_ ∧ _))

/-- What is put into the buffer of block 0 is lost: it has been given up, or has been got with
`getblk` and had no contents, and stays so when it is released with an error. -/
def Lost : Prop := c.cached = false ∧ (piece w = BSIZE ∨ c.broken (w.offset / BSIZE))

instance : Decidable (Lost c w) := inferInstanceAs (Decidable (_ ∧ _))

/-- The piece is in the buffer of a block of the file. -/
def kept (b : Int) : State :=
  let w' := { moved w with buf := update w.buf b (fill c w b) }
  if 0 < piece w then
    { w' with stored := some (w.offset + piece w), touched := b :: w.touched }
  else w'

/-- One turn of the loop. -/
def turn : State ⊕ State :=
  match c.bmap (w.offset / BSIZE) with
  | .missing => .inr w
  | .block b =>
    if ¬ Readable c w then .inr { w with isize := max w.isize w.offset }
    else if GivenUp c w then .inr (moved w)
    else if (moved w).count = 0 then .inr (kept c w b)
    else .inl (kept c w b)
  | .failed =>
    if ¬ Readable c w then .inr { w with isize := max w.isize w.offset }
    else if Lost c w then .inr (moved w)
    else .inr { moved w with buf := update w.buf 0 (fill c w 0) }

/-- The states at the head of the loop. -/
inductive Reaches (w₀ : State) : State → Prop where
  | start : Reaches w₀ w₀
  | again {w w' : State} : Reaches w₀ w → turn c w = .inl w' → Reaches w₀ w'

/-- The size is the end of what is stored in the file, or the old one if that is larger, and
the other blocks are as they were. -/
def Clean (w₀ w : State) : Prop :=
  w.isize = w.stored.elim w₀.isize (max w₀.isize) ∧ ∀ b ∉ w.touched, w.buf b = w₀.buf b

/-- The piece does not reach beyond the size, and what is put into the buffer of block 0 is
lost or there already. -/
def Harmless : Prop :=
  if Readable c w then
    w.offset + piece w ≤ w.isize ∧ (Lost c w ∨ ∀ i < (piece w).toNat,
      c.user (w.offset + i) = some (w.buf 0 (w.offset % BSIZE + i)))
  else w.offset ≤ w.isize

variable {c w} {w₀ w' : State}

/-- A turn that goes on has stored a piece in a block of the file. -/
theorem turn_inl (goes_on : turn c w = .inl w') : ∃ b, c.bmap (w.offset / BSIZE) = .block b ∧
    0 < piece w ∧ w'.offset = w.offset + piece w ∧ w'.isize = max w.isize w'.offset ∧
    w'.stored = some w'.offset ∧ w'.touched = b :: w.touched ∧ w'.buf = update w.buf b (fill c w b) := by
  unfold turn at goes_on
  split at goes_on
  next => cases goes_on
  next b mapped =>
    split_ifs at goes_on with unreadable given_up done
    cases goes_on
    -- a piece of no bytes would have been the last one
    have bytes : 0 < piece w := by
      simp only [moved, piece, BSIZE] at done ⊢
      omega
    unfold kept
    rw [if_pos bytes]
    exact ⟨b, mapped, bytes, rfl, rfl, rfl, rfl, rfl⟩
  next => split_ifs at goes_on

theorem Reaches.clean (reached : Reaches c w₀ w) (fresh : w₀.stored = none ∧ w₀.touched = [])
    (blocks : ∀ bn, c.bmap bn ≠ .block 0) :
    Clean w₀ w ∧ (∀ o ∈ w.stored, o ≤ w.offset) ∧ 0 ∉ w.touched := by
  induction reached with
  | start =>
    rw [Clean, fresh.1, fresh.2]
    exact ⟨⟨rfl, fun _ _ => rfl⟩, fun _ none => absurd none (by simp), List.not_mem_nil⟩
  | @again w w' _ goes_on ih =>
    obtain ⟨⟨size, same⟩, low, zero⟩ := ih
    obtain ⟨b, mapped, bytes, offset, isize, stored, touched, buf⟩ := turn_inl goes_on
    refine ⟨⟨?_, fun d other => ?_⟩, by simp [stored], ?_⟩
    · rw [isize, size, stored]
      cases before : w.stored with
      | none => rfl
      | some o =>
        have behind := low o before
        simp only [Option.elim_some]
        omega
    · rw [touched, List.mem_cons, not_or] at other
      rw [buf, update_of_ne other.1, same d other.2]
    · rw [touched, List.mem_cons, not_or]
      exact ⟨fun is_zero => blocks _ (is_zero ▸ mapped), zero⟩

theorem fill_eq_iff (readable : Readable c w) (b : Int) : fill c w b = w.buf b ↔
    ∀ i < (piece w).toNat, c.user (w.offset + i) = some (w.buf b (w.offset % BSIZE + i)) := by
  constructor
  · intro same i low
    have byte := congrFun same (w.offset % BSIZE + i)
    have at_byte : w.offset % BSIZE + i - w.offset % BSIZE = i := by omega
    rw [fill, if_pos (by omega), at_byte] at byte
    obtain ⟨v, read⟩ := Option.isSome_iff_exists.mp (readable i low)
    rw [← byte, read, Option.getD_some]
  · intro same
    funext j
    unfold fill
    split
    next inside =>
      have byte := same (j - w.offset % BSIZE).toNat (by omega)
      have at_byte : w.offset % BSIZE + (j - w.offset % BSIZE) = j := by omega
      rw [Int.toNat_of_nonneg (by omega), at_byte] at byte
      rw [byte, Option.getD_some]
    next => rfl

/-- When `bmap` fails in a write, the write ends there, and it has changed nothing it should not
if and only if the piece is harmless. -/
theorem writei_clean_iff (c : Call) (w₀ w : State) (fresh : w₀.stored = none ∧ w₀.touched = [])
    (blocks : ∀ bn, c.bmap bn ≠ .block 0) (reached : Reaches c w₀ w)
    (fails : c.bmap (w.offset / BSIZE) = .failed) :
    ∃ w', turn c w = .inr w' ∧ (Clean w₀ w' ↔ Harmless c w) := by
  obtain ⟨⟨size, same⟩, -, zero⟩ := reached.clean fresh blocks
  -- the size moves just when the piece ends beyond it
  have grows : ∀ o, max w.isize o = w.stored.elim w₀.isize (max w₀.isize) ↔ o ≤ w.isize := by
    intro o
    rw [← size]
    omega
  unfold turn Harmless Clean
  simp only [fails]
  by_cases readable : Readable c w
  · rw [if_neg (not_not.mpr readable), if_pos readable]
    by_cases lost : Lost c w
    · rw [if_pos lost]
      exact ⟨_, rfl, and_congr (grows _) ⟨fun _ => .inl lost, fun _ => same⟩⟩
    · rw [if_neg lost]
      refine ⟨_, rfl, and_congr (grows _) ?_⟩
      rw [or_iff_right lost, ← fill_eq_iff readable]
      constructor
      · intro all
        have there : update w.buf 0 (fill c w 0) 0 = w₀.buf 0 := all 0 zero
        rw [update_self] at there
        rw [there, same 0 zero]
      · intro there b other
        dsimp only
        rw [there, update_eq_self, same b other]
  · rw [if_pos readable, if_neg readable]
    exact ⟨_, rfl, ⟨fun clean => (grows _).mp clean.1, fun low => ⟨(grows _).mpr low, same⟩⟩⟩

/-- Bytes for the first block behind the direct ones, and the indirect block cannot be read. -/
def unreadable (cached : Bool) : Call := ⟨fun _ => .failed, fun _ => some 7, cached, fun _ => false⟩

def behindDirect (count isize : Int) : State := ⟨6 * BSIZE, count, isize, fun _ _ => 0, none, []⟩

theorem writei_clean_iff_inside : ∃ w', turn (unreadable false) (behindDirect BSIZE (7 * BSIZE)) =
    .inr w' ∧ Clean (behindDirect BSIZE (7 * BSIZE)) w' := by
  obtain ⟨w', ends, clean⟩ := writei_clean_iff (unreadable false) _
    (behindDirect BSIZE (7 * BSIZE)) ⟨rfl, rfl⟩ (fun _ => Mapped.noConfusion) .start rfl
  refine ⟨w', ends, clean.mpr ?_⟩
  have readable : Readable (unreadable false) (behindDirect BSIZE (7 * BSIZE)) := fun _ _ => rfl
  rw [Harmless, if_pos readable]
  exact ⟨by decide, .inl ⟨rfl, .inl (by decide)⟩⟩

/-- In an empty file one byte is enough: the size is behind it and it is in the superblock. -/
theorem writei_stores_in_superblock : ∃ w', turn (unreadable true) (behindDirect 1 0) = .inr w' ∧
    w'.isize = 6 * BSIZE + 1 ∧ w'.stored = none ∧ w'.buf 0 0 = 7 :=
  ⟨_, rfl, by decide, rfl, by decide⟩

end V7Besm.Fs.Writei
