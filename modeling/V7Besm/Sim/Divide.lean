import Mathlib.Data.Rat.Floor
import Mathlib.Tactic.FieldSimp
import Mathlib.Tactic.Linarith
import Mathlib.Tactic.LinearCombination
import Mathlib.Tactic.Ring

/-!
Division of the simulator (`arithmetic.cpp`).

The quotient is formed digit by digit. A digit is left out where the partial remainder is
small, and is otherwise taken by the signs alone, so that the remainder can turn negative.
What carries the result is that the remainder stays below the divisor in magnitude.
-/

namespace V7Besm.Sim

abbrev BIT40 : Int := 2 ^ 39
abbrev BIT41 : BitVec 48 := .twoPow 48 40

/-- A floating point value in the ALU. The exponent is an `unsigned`, offset by 64. -/
structure MantissaExponent where
  mantissa : Int
  exponent : BitVec 32

namespace MantissaExponent

/-- The constructor from a word: seven bits of exponent, then the mantissa with its sign. -/
def ofWord (val : BitVec 48) : MantissaExponent :=
  ⟨(val.setWidth 41).toInt, (val >>> 41).setWidth 32⟩

def normalizeToTheRight (x : MantissaExponent) : MantissaExponent :=
  ⟨x.mantissa >>> (1 : Nat), x.exponent + 1⟩

/-- A unit of the 40-bit mantissa. An exponent that has wrapped around is a negative one. -/
def unit (x : MantissaExponent) : ℚ := 2 ^ (x.exponent.toInt - 64 - 40)

/-- What the pair denotes. -/
def value (x : MantissaExponent) : ℚ := x.mantissa * x.unit

end MantissaExponent

open MantissaExponent

/-- The last `k` turns of the loop of `nrdiv`: `bitmask` is `2 ^ (k - 1)`. -/
def digits (d : Int) : Nat → Int → Int → Int
  | 0, _, quot => quot
  | k + 1, n, quot =>
    if n = 0 then quot
    else if n.natAbs < BIT40 then digits d k (n * 2) quot
    else if (0 < n) = (0 < d) then digits d k (n * 2 - d) (quot + 2 ^ k)
    else digits d k (n * 2 + d) (quot - 2 ^ k)

/-- Non-restoring division. -/
def nrdiv (n d : MantissaExponent) : MantissaExponent :=
  if d.mantissa = BIT40 then ⟨n.mantissa, n.exponent - d.exponent + 64 + 1⟩
  else
    let n : MantissaExponent := ⟨n.mantissa <<< (1 : Nat), n.exponent⟩
    let dm := d.mantissa <<< (1 : Nat)
    let n := if n.mantissa.natAbs ≥ dm.natAbs then n.normalizeToTheRight else n
    ⟨digits dm 40 n.mantissa 0, n.exponent - d.exponent + 64⟩

/-- What `arith_divide` does not refuse: bits 41 and 40 of the divisor differ. -/
def Normalized (val : BitVec 48) : Prop := (val ^^^ val <<< 1) &&& BIT41 ≠ 0

theorem digits_spec {d : Int} (large : BIT40 * 2 < d.natAbs) (k : Nat) {n : Int} (quot : Int)
    (below : n.natAbs < d.natAbs) :
    ∃ r : Int, r.natAbs < d.natAbs ∧ n * 2 ^ k = (digits d k n quot - quot) * d + r := by
  induction k generalizing n quot with
  | zero => exact ⟨n, below, by simp [digits]⟩
  | succ k ih =>
    rw [digits]
    split
    next zero => exact ⟨0, by omega, by simp [zero]⟩
    next some =>
      split
      next small =>
        obtain ⟨r, bound, eq⟩ := ih quot (n := n * 2) (by omega)
        exact ⟨r, bound, by rw [← eq]; ring⟩
      next =>
        split
        next same =>
          obtain ⟨r, bound, eq⟩ := ih (quot + 2 ^ k) (n := n * 2 - d) (by grind)
          exact ⟨r, bound, by linear_combination eq⟩
        next differ =>
          obtain ⟨r, bound, eq⟩ := ih (quot - 2 ^ k) (n := n * 2 + d) (by grind)
          exact ⟨r, bound, by linear_combination eq⟩

/-- The remainder, by how much the quotient has been shifted to the right, and that the dividend
is not too large for a quotient of 40 bits then. -/
theorem nrdiv_spec {n d : MantissaExponent} (within : n.mantissa.natAbs ≤ 2 ^ 40)
    (normal : 2 ^ 39 ≤ d.mantissa ∨ d.mantissa < -2 ^ 39) :
    ∃ (k : Nat) (r : Int), k ≤ 1 ∧
      (nrdiv n d).exponent = n.exponent - d.exponent + 64 + BitVec.ofNat 32 k ∧
      2 * n.mantissa * 2 ^ (40 - k) = (nrdiv n d).mantissa * (2 * d.mantissa) + r ∧
      r.natAbs < (2 * d.mantissa).natAbs ∧ n.mantissa.natAbs ≤ d.mantissa.natAbs * 2 ^ k := by
  simp only [nrdiv, Int.shiftLeft_eq, BIT40]
  split
  next power =>
    exact ⟨1, 0, le_rfl, rfl, by simp [power]; ring, by omega, by omega⟩
  next other =>
    have large : BIT40 * 2 < (d.mantissa * 2 ^ 1).natAbs := by simp only [BIT40]; omega
    split
    next beyond =>
      obtain ⟨r, bound, eq⟩ := digits_spec large 40 (n := n.mantissa) 0 (by omega)
      have back : (n.mantissa * 2 ^ 1) >>> (1 : Nat) = n.mantissa := by
        rw [Int.shiftRight_eq_div_pow]
        omega
      refine ⟨1, r, le_rfl, ?_, ?_, by omega, by omega⟩
      · simp only [normalizeToTheRight]
        bv_omega
      · simp only [normalizeToTheRight, back]
        linear_combination eq
    next =>
      obtain ⟨r, bound, eq⟩ := digits_spec large 40 (n := n.mantissa * 2 ^ 1) 0 (by omega)
      exact ⟨0, r, by omega, by simp, by linear_combination eq, by omega, by omega⟩

/-- The quotient's mantissa has 40 bits besides its sign. -/
theorem natAbs_nrdiv_mantissa_le {n d : MantissaExponent} (within : n.mantissa.natAbs ≤ 2 ^ 40)
    (normal : 2 ^ 39 ≤ d.mantissa ∨ d.mantissa < -2 ^ 39) :
    (nrdiv n d).mantissa.natAbs ≤ 2 ^ 40 := by
  obtain ⟨k, r, few, -, division, below, room⟩ := nrdiv_spec within normal
  have dividend : (2 * n.mantissa * 2 ^ (40 - k)).natAbs ≤ (2 * d.mantissa).natAbs * 2 ^ 40 := by
    obtain rfl | rfl : k = 0 ∨ k = 1 := by omega
    · omega
    · omega
  have product : ((nrdiv n d).mantissa * (2 * d.mantissa)).natAbs <
      (2 ^ 40 + 1) * (2 * d.mantissa).natAbs := by
    rw [eq_sub_of_add_eq division.symm]
    omega
  rw [Int.natAbs_mul] at product
  exact Nat.le_of_lt_succ (Nat.lt_of_mul_lt_mul_right product)

/-! ### Words -/

theorem mantissa_of_normalized {val : BitVec 48} (normal : Normalized val) :
    2 ^ 39 ≤ (ofWord val).mantissa ∨ (ofWord val).mantissa < -2 ^ 39 := by
  have bits : val.toNat / 2 ^ 40 % 2 ≠ val.toNat / 2 ^ 39 % 2 := by
    intro same
    apply normal
    have equal : val.getLsbD 40 = val.getLsbD 39 := by
      simp only [BitVec.getLsbD, Nat.testBit_eq_decide_div_mod_eq, same]
    rw [BitVec.and_twoPow, BitVec.getLsbD_xor, BitVec.getLsbD_shiftLeft, equal]
    simp
  simp only [ofWord, BitVec.toInt_eq_toNat_cond, BitVec.toNat_setWidth]
  omega

theorem natAbs_mantissa_le (val : BitVec 48) : (ofWord val).mantissa.natAbs ≤ 2 ^ 40 := by
  have low := BitVec.le_toInt (val.setWidth 41)
  have high := @BitVec.toInt_lt _ (val.setWidth 41)
  simp only [ofWord]
  omega

theorem exponent_lt (val : BitVec 48) : (ofWord val).exponent.toNat < 128 := by
  simp [ofWord]
  omega

/-- The exponents of words leave room for their difference. -/
theorem toInt_difference {e e' : BitVec 32} (small : e.toNat < 128) (small' : e'.toNat < 128)
    {k : Nat} (few : k ≤ 1) :
    (e - e' + 64 + BitVec.ofNat 32 k).toInt = e.toInt - e'.toInt + 64 + k := by
  simp [BitVec.toInt_eq_toNat_cond]
  omega

/-- What `nrdiv` leaves out is less than a unit. -/
theorem quotient_eq (n : BitVec 48) {d : BitVec 48} (normal : Normalized d) :
    let q := nrdiv (ofWord n) (ofWord d)
    ∃ x : ℚ, |x| < 1 ∧ (ofWord n).value / (ofWord d).value = (q.mantissa + x) * q.unit := by
  intro q
  have large := mantissa_of_normalized normal
  obtain ⟨k, r, few, exponent, division, below, -⟩ := nrdiv_spec (natAbs_mantissa_le n) large
  have units : (ofWord n).unit = (ofWord d).unit * (2 ^ (40 - k) * q.unit) := by
    simp only [unit, q, exponent, toInt_difference (exponent_lt n) (exponent_lt d) few]
    rw [← zpow_natCast, ← zpow_add₀ two_ne_zero, ← zpow_add₀ two_ne_zero]
    congr 1
    omega
  have ne : (ofWord d).unit ≠ 0 := zpow_ne_zero _ two_ne_zero
  have divisor : ((ofWord d).mantissa : ℚ) ≠ 0 := by
    norm_cast
    omega
  refine ⟨r / (2 * (ofWord d).mantissa), ?_, ?_⟩
  · rw [abs_div, div_lt_one (abs_pos.mpr (mul_ne_zero two_ne_zero divisor))]
    norm_cast
    rwa [Int.abs_eq_natAbs, Int.abs_eq_natAbs, Int.ofNat_lt]
  · have division : (2 * (ofWord n).mantissa * 2 ^ (40 - k) : ℚ) =
        q.mantissa * (2 * (ofWord d).mantissa) + r := by exact_mod_cast division
    rw [value, value, units]
    field_simp
    linear_combination q.unit * division

/-- The quotient has the difference of the exponents for its own, one more where the dividend was
shifted, and a mantissa of 40 bits; it is off by less than a unit of this mantissa, and not at all
where the exact quotient is a multiple of the unit. -/
theorem nrdiv_accurate (n : BitVec 48) {d : BitVec 48} (normal : Normalized d) :
    let q := nrdiv (ofWord n) (ofWord d)
    let exact := (ofWord n).value / (ofWord d).value
    (∃ k ≤ 1, q.exponent = (ofWord n).exponent - (ofWord d).exponent + 64 + BitVec.ofNat 32 k) ∧
      q.mantissa.natAbs ≤ 2 ^ 40 ∧
      |q.value - exact| < q.unit ∧ ((∃ k : ℤ, exact = k * q.unit) → q.value = exact) := by
  intro q exact
  have large := mantissa_of_normalized normal
  obtain ⟨k, r, few, exponent, -⟩ := nrdiv_spec (natAbs_mantissa_le n) large
  refine ⟨⟨k, few, exponent⟩, natAbs_nrdiv_mantissa_le (natAbs_mantissa_le n) large, ?_⟩
  obtain ⟨x, less, eq⟩ := quotient_eq n normal
  have pos : 0 < q.unit := zpow_pos two_pos _
  constructor
  · have off : q.value - exact = -x * q.unit := by
      simp only [exact, eq, value, q]
      ring
    rw [off, abs_mul, abs_neg, abs_of_pos pos]
    exact mul_lt_of_lt_one_left pos less
  · rintro ⟨k, multiple⟩
    -- less than a unit and a whole number of them
    have sum : q.mantissa + x = k := mul_right_cancel₀ pos.ne' (eq.symm.trans multiple)
    have whole : x = (k - q.mantissa : ℤ) := by
      push_cast
      linarith
    rw [whole] at less
    norm_cast at less
    rw [multiple, value, eq_of_sub_eq_zero (Int.abs_lt_one_iff.mp less)]

/-- One third, which no mantissa holds. -/
theorem nrdiv_accurate_third :
    let q := nrdiv (ofWord 0o4050000000000000) (ofWord 0o4114000000000000)
    q.mantissa = 733007751851 ∧ q.exponent = 63 ∧
      |q.value - (ofWord 0o4050000000000000).value / (ofWord 0o4114000000000000).value| < q.unit :=
  ⟨by decide +kernel, by decide +kernel,
    (nrdiv_accurate 0o4050000000000000 (by unfold Normalized; decide)).2.2.1⟩

end V7Besm.Sim
