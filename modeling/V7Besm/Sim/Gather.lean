import V7Besm.Words.Scatter

/-!
Gather and scatter of the simulator (`besm6_arch.cpp`).

The instructions `apx` and `aux` are loops over a word: packing walks the mask from the low
end and lets the selected bits in at the top, unpacking walks it from the top.
-/

namespace V7Besm.Sim

open Words List

abbrev BIT48 : Nat := 2 ^ 47

/-- A `uint64_t`, one to the left. -/
def shl (x : Nat) : Nat := 2 * x % 2 ^ 64

/-- The loop of `besm6_pack`. -/
def packLoop (result val mask : Nat) : Nat :=
  if mask = 0 then result
  else if mask.testBit 0 then
    packLoop (if val.testBit 0 then result / 2 ||| BIT48 else result / 2) (val / 2) (mask / 2)
  else packLoop result (val / 2) (mask / 2)
termination_by mask

/-- Pack a value by mask. -/
def besm6Pack (val mask : Nat) : Nat := packLoop 0 val mask

/-- `n` turns of the loop of `besm6_unpack`. -/
def unpackLoop : Nat → Nat → Nat → Nat → Nat
  | 0, result, _, _ => result
  | n + 1, result, val, mask =>
    if mask.testBit 47 then
      unpackLoop n (if val.testBit 47 then shl result ||| 1 else shl result) (shl val) (shl mask)
    else unpackLoop n (shl result) val (shl mask)

/-- Unpack a value by mask. -/
def besm6Unpack (val mask : Nat) : Nat := unpackLoop 48 0 val mask

variable {v m : Nat}

/-! ### Packing gathers -/

theorem value_shiftIn {l : List Bool} (b : Bool) (len : l.length = 48) :
    (if b then value l / 2 ||| BIT48 else value l / 2) = value (shiftIn l b) := by
  obtain rfl | ⟨l, c, rfl⟩ := eq_nil_or_concat l
  · cases len
  rw [concat_eq_append] at len ⊢
  have len : l.length = 47 := by simpa using len
  have fits := len ▸ value_lt l
  have half : value (l ++ [c]) / 2 = value l := by
    rw [value_append]
    cases c <;> simp [value]
    omega
  rw [half, shiftIn, dropLast_concat, value, len]
  cases b with
  | false => simp
  | true => simpa [BIT48, Nat.or_comm] using (Nat.two_pow_add_eq_or_of_lt fits 1).symm

theorem packLoop_eq {n : Nat} {l : List Bool} (v : Nat) (len : l.length = 48)
    (fits : m < 2 ^ n) : packLoop (value l) v m =
      value (((bits n m).zip (bits n v)).foldr (fun p r => if p.1 then shiftIn r p.2 else r) l) := by
  induction n generalizing l v m with
  | zero =>
    rw [packLoop, if_pos (by omega)]
    rfl
  | succ n ih =>
    have rest {l : List Bool} (len : l.length = 48) := ih (v / 2) len (show m / 2 < 2 ^ n by omega)
    rw [bits_append n 1, bits_append n 1, zip_append (by simp), foldr_append, packLoop]
    simp only [bits, zip_cons_cons, foldr_cons, Nat.pow_one, zip_nil_left, foldr_nil]
    split
    next zero =>
      -- the loop has ended early, the rest of the mask selects nothing
      subst zero
      simpa [packLoop] using rest len
    next =>
      split
      · rw [value_shiftIn _ len, rest (by simp [shiftIn, len])]
      · exact rest len

theorem besm6Pack_eq (v : Nat) (fits : m < 2 ^ 48) :
    besm6Pack v m = value (gather (bits 48 m) (bits 48 v)) := by
  have run := packLoop_eq v (@length_replicate Bool 48 false) fits
  rwa [value_replicate, ← besm6Pack] at run

/-! ### Unpacking scatters -/

theorem testBit_shifted {n k : Nat} (x : Nat) (place : n + 1 + k = 48) :
    (x * 2 ^ k % 2 ^ 64).testBit 47 = x.testBit n := by
  rw [Nat.testBit_mod_two_pow, Nat.testBit_mul_two_pow, show 47 - k = n by omega]
  simp [show k ≤ 47 by omega]

theorem shl_shifted (x k : Nat) : shl (x * 2 ^ k % 2 ^ 64) = x * 2 ^ (k + 1) % 2 ^ 64 := by
  rw [shl, Nat.mul_mod_mod, Nat.mul_left_comm, ← Nat.pow_succ']

/-- The mask has moved by `k` places so far, the value by the `j` of them it was used in. -/
theorem unpackLoop_eq {n k i j r : Nat} (mask_at : n + k = 48) (val_at : i + j = 48)
    (left : n ≤ i) (fits : r < 2 ^ k) :
    unpackLoop n r (v * 2 ^ j % 2 ^ 64) (m * 2 ^ k % 2 ^ 64) =
      r * 2 ^ n + value (scatter (bits n m) (bits i v)) := by
  induction n generalizing k i j r with
  | zero => simp [unpackLoop, bits, scatter, value]
  | succ n ih =>
    have small : 2 ^ (k + 1) ≤ 2 ^ 48 := Nat.pow_le_pow_right (by decide) (by omega)
    have double : shl r = 2 * r := Nat.mod_eq_of_lt (by omega)
    rw [unpackLoop, testBit_shifted m mask_at, shl_shifted m, bits]
    cases m.testBit n with
    | false =>
      rw [if_neg (by decide), double, ih (by omega) val_at (by omega) (by omega), scatter, value]
      grind
    | true =>
      obtain ⟨i, rfl⟩ : ∃ i', i = i' + 1 := ⟨i - 1, by omega⟩
      have next : (if v.testBit i then shl r ||| 1 else shl r) = 2 * r + (v.testBit i).toNat := by
        rw [double]
        cases v.testBit i with
        | false => rfl
        | true => exact (Nat.two_pow_add_eq_or_of_lt (show 1 < 2 ^ 1 by decide) r).symm
      have bit := Bool.toNat_le (v.testBit i)
      rw [if_pos rfl, testBit_shifted v val_at, next, shl_shifted v,
        ih (i := i) (by omega) (by omega) (by omega) (by omega), bits, scatter, value,
        length_scatter, length_bits]
      simp only [headD_cons, tail_cons]
      grind

theorem besm6Unpack_eq (word : v < 2 ^ 48) (mask : m < 2 ^ 48) :
    besm6Unpack v m = value (scatter (bits 48 m) (bits 48 v)) := by
  have run := @unpackLoop_eq v m 48 0 48 0 0 rfl rfl (Nat.le_refl _) (by decide)
  rwa [Nat.pow_zero, Nat.mul_one, Nat.mul_one, Nat.mod_eq_of_lt (by omega),
    Nat.mod_eq_of_lt (by omega), Nat.zero_mul, Nat.zero_add, ← besm6Unpack] at run

/-- Scattering the gathered bits gives back the selected ones; gathering the scattered bits
gives back as many leading ones as the mask has bits. -/
theorem pack_unpack_inverse (word : v < 2 ^ 48) (mask : m < 2 ^ 48) :
    besm6Unpack (besm6Pack v m) m = v &&& m ∧
      besm6Pack (besm6Unpack v m) m =
        v / 2 ^ (48 - (bits 48 m).count true) * 2 ^ (48 - (bits 48 m).count true) := by
  constructor
  · have len : (gather (bits 48 m) (bits 48 v)).length = 48 := by
      have room := length_selected_le (bits 48 m) (bits 48 v)
      rw [gather_eq, length_append, length_replicate, Nat.add_sub_of_le room, length_bits]
    have fits := value_lt (gather (bits 48 m) (bits 48 v))
    have back := bits_value (gather (bits 48 m) (bits 48 v))
    rw [len] at fits back
    rw [besm6Pack_eq v mask, besm6Unpack_eq fits mask, back, gather_eq,
      scatter_selected (by simp), ← bits_and, value_bits]
    exact Nat.mod_eq_of_lt (Nat.lt_of_le_of_lt Nat.and_le_left word)
  · have back := bits_value (scatter (bits 48 m) (bits 48 v))
    rw [length_scatter, length_bits] at back
    rw [besm6Unpack_eq word mask, besm6Pack_eq _ mask, back, gather_eq, selected_scatter]
    have ones : (bits 48 m).count true ≤ 48 := by simpa using @count_le_length _ _ true (bits 48 m)
    generalize (bits 48 m).count true = c at ones ⊢
    obtain ⟨k, split⟩ := Nat.exists_eq_add_of_le ones
    have high : v / 2 ^ k < 2 ^ c := by
      rwa [Nat.div_lt_iff_lt_mul (Nat.two_pow_pos k), ← Nat.pow_add, ← split]
    have top : (bits 48 v).takeD c false = bits c (v / 2 ^ k) := by
      rw [split, bits_append, takeD_eq_take _ (by simp), List.take_left' (length_bits ..)]
    rw [top, value_append, value_replicate, value_bits, Nat.mod_eq_of_lt high]
    simp [split]

theorem pack_unpack_inverse_nibble :
    besm6Unpack (besm6Pack 0b1010 0b0110) 0b0110 = 0b0010 ∧
      besm6Pack (besm6Unpack (2 ^ 47 + 1) 0b0110) 0b0110 = 2 ^ 47 := by
  obtain ⟨scattered, _⟩ := @pack_unpack_inverse 0b1010 0b0110 (by decide) (by decide)
  obtain ⟨_, gathered⟩ := @pack_unpack_inverse (2 ^ 47 + 1) 0b0110 (by decide) (by decide)
  exact ⟨scattered, gathered.trans (by decide +kernel)⟩

end V7Besm.Sim
