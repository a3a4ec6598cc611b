import Mathlib.Algebra.GroupWithZero.Nat
import Mathlib.Logic.Function.Basic

/-!
Memory of words with bytes packed into them.

A word has `k` bytes and is addressed as a whole; byte `off` of a word is the one `8 * off`
bits above its low end, so the first byte of a word is byte `k - 1`. A byte address counts
the bytes of memory in order. Storing a byte rewrites its word and leaves every other byte
as it was.
-/

namespace V7Besm.Words

open Function

/-! ### Runs of cells -/

section Cells

variable {α : Type*} {f : Nat → α} {a : Nat} {x : α} {l l' : List α}

/-- The cells of `f` from `a` on are the elements of `l`. -/
def At (f : Nat → α) (a : Nat) (l : List α) : Prop := ∀ i (lt : i < l.length), f (a + i) = l[i]

theorem at_nil : At f a [] := fun _ lt => absurd lt (Nat.not_lt_zero _)

theorem at_cons : At f a (x :: l) ↔ f a = x ∧ At f (a + 1) l := by
  constructor
  · intro cells
    refine ⟨cells 0 (by simp), fun i lt => ?_⟩
    rw [Nat.add_assoc, Nat.add_comm 1 i]
    exact cells (i + 1) (by simpa using lt)
  · rintro ⟨first, rest⟩ i lt
    cases i with
    | zero => exact first
    | succ i =>
      rw [← Nat.add_assoc, Nat.add_right_comm]
      exact rest i (by simpa using lt)

theorem at_append : At f a (l ++ l') ↔ At f a l ∧ At f (a + l.length) l' := by
  induction l generalizing a with
  | nil => simp [at_nil]
  | cons x l ih =>
    rw [List.cons_append, at_cons, at_cons, ih, List.length_cons, Nat.add_assoc,
      Nat.add_comm 1, and_assoc]

theorem At.congr {g : Nat → α} (cells : At f a l)
    (same : ∀ i < l.length, g (a + i) = f (a + i)) : At g a l :=
  fun i lt => (same i lt).trans (cells i lt)

end Cells

/-! ### Bytes of words -/

variable {k : Nat}

/-- Byte `off` of a word. -/
def byte (w : BitVec (8 * k)) (off : Nat) : BitVec 8 := (w >>> (8 * off)).setWidth 8

/-- The word with byte `off` replaced. -/
def setByte (w : BitVec (8 * k)) (off : Nat) (c : BitVec 8) : BitVec (8 * k) :=
  (w &&& ~~~((BitVec.allOnes 8).setWidth (8 * k) <<< (8 * off))) |||
    (c.setWidth (8 * k) <<< (8 * off))

variable {w : BitVec (8 * k)} {off off' : Nat} {c : BitVec 8}

theorem getLsbD_byte {i : Nat} (lt : i < 8) : (byte w off).getLsbD i = w.getLsbD (8 * off + i) := by
  simp [byte, lt]

theorem getLsbD_setByte {j : Nat} : (setByte w off c).getLsbD j =
    if 8 * off ≤ j ∧ j < 8 * off + 8 ∧ j < 8 * k then c.getLsbD (j - 8 * off) else w.getLsbD j := by
  simp only [setByte, BitVec.getLsbD_or, BitVec.getLsbD_and, BitVec.getLsbD_not,
    BitVec.getLsbD_shiftLeft, BitVec.getLsbD_setWidth, BitVec.getLsbD_allOnes]
  by_cases inside : j < 8 * k
  · by_cases before : j < 8 * off
    · have := Nat.not_le.mpr before
      simp [inside, before, this]
    · have back : j - 8 * off < 8 * k := by omega
      by_cases within : j < 8 * off + 8
      · have byte : j - 8 * off < 8 := by omega
        simp [inside, before, within, byte, back, Nat.not_lt.mp before]
      · have past : ¬ j - 8 * off < 8 := by omega
        simp [inside, before, within, past, BitVec.getLsbD_of_ge c _ (Nat.not_lt.mp past)]
  · simp [inside, BitVec.getLsbD_of_ge w j (Nat.not_lt.mp inside)]

theorem byte_setByte_self (lt : off < k) : byte (setByte w off c) off = c := by
  refine BitVec.eq_of_getLsbD_eq fun i hi => ?_
  rw [getLsbD_byte hi, getLsbD_setByte, if_pos (by omega), Nat.add_sub_cancel_left]

theorem byte_setByte_of_ne (ne : off' ≠ off) : byte (setByte w off c) off' = byte w off' := by
  refine BitVec.eq_of_getLsbD_eq fun i hi => ?_
  rw [getLsbD_byte hi, getLsbD_byte hi, getLsbD_setByte, if_neg (by omega)]

/-- Two words side by side, `s` bytes to the left. -/
theorem byte_funnel {w' : BitVec (8 * k)} {s : Nat} (lt : off < k) (le : s ≤ k) :
    byte (w <<< (8 * s) ||| w' >>> (8 * (k - s))) off =
      if s ≤ off then byte w (off - s) else byte w' (off + (k - s)) := by
  refine BitVec.eq_of_getLsbD_eq fun i hi => ?_
  have inside : 8 * off + i < 8 * k := by omega
  rw [getLsbD_byte hi, BitVec.getLsbD_or, BitVec.getLsbD_shiftLeft, BitVec.getLsbD_ushiftRight]
  split
  next left =>
    have past : 8 * k ≤ 8 * (k - s) + (8 * off + i) := by omega
    have back : 8 * off + i - 8 * s = 8 * (off - s) + i := by omega
    have high : ¬ 8 * off + i < 8 * s := by omega
    rw [getLsbD_byte hi, BitVec.getLsbD_of_ge w' _ past, back]
    simp [inside, high]
  next right =>
    have low : 8 * off + i < 8 * s := by omega
    have forth : 8 * (k - s) + (8 * off + i) = 8 * (off + (k - s)) + i := by omega
    rw [getLsbD_byte hi, forth]
    simp [low]

/-! ### Byte addresses -/

/-- The byte at a byte address. -/
def byteAt (m : Nat → BitVec (8 * k)) (n : Nat) : BitVec 8 := byte (m (n / k)) (k - 1 - n % k)

/-- Memory with the byte at a byte address replaced. -/
def pokeAt (m : Nat → BitVec (8 * k)) (n : Nat) (c : BitVec 8) : Nat → BitVec (8 * k) :=
  update m (n / k) (setByte (m (n / k)) (k - 1 - n % k) c)

variable {m : Nat → BitVec (8 * k)} {n n' : Nat}

theorem byteAt_pokeAt_self (pos : 0 < k) : byteAt (pokeAt m n c) n = c := by
  rw [byteAt, pokeAt, update_self]
  exact byte_setByte_self (by omega)

theorem byteAt_pokeAt_of_ne (pos : 0 < k) (ne : n' ≠ n) :
    byteAt (pokeAt m n c) n' = byteAt m n' := by
  rw [byteAt, pokeAt]
  by_cases same : n' / k = n / k
  · rw [same, update_self, byteAt, same]
    refine byte_setByte_of_ne fun eq => ne ?_
    have lt := Nat.mod_lt n pos
    have lt' := Nat.mod_lt n' pos
    rw [← Nat.div_add_mod n k, ← Nat.div_add_mod n' k, same]
    omega
  · rw [update_of_ne same, byteAt]

theorem byteAt_update_of_ne {a : Nat} {v : BitVec (8 * k)} (ne : n / k ≠ a) :
    byteAt (update m a v) n = byteAt m n := by
  rw [byteAt, byteAt, update_of_ne ne]

end V7Besm.Words
