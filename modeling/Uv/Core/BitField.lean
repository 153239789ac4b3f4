import Mathlib

/-!
# Bit fields of a machine word

A packed word stores several numbers at fixed bit offsets.  Code reads a field
by shifting and masking, and writes it by clearing the field's bits and
or-ing the shifted value in.  These lemmas turn each of those idioms into
division, remainder and addition on `toNat`, so that a proof about a packed
representation never has to look at single bits again.
-/

namespace Uv.Core.BitField

variable {width : ℕ}

theorem getLsbD_lowMask {length : ℕ} (index : ℕ) (hindex : index < width) :
    (BitVec.ofNat width (2 ^ length - 1)).getLsbD index =
      decide (index < length) := by
  rw [BitVec.getLsbD_ofNat, Nat.testBit_two_pow_sub_one]
  simp [hindex]

private theorem getLsbD_of_toNat_lt {word : BitVec width} {length index : ℕ}
    (hword : word.toNat < 2 ^ length) (hindex : length ≤ index) :
    word.getLsbD index = false := by
  rw [← BitVec.testBit_toNat]
  exact Nat.testBit_lt_two_pow
    (lt_of_lt_of_le hword (Nat.pow_le_pow_right (by omega) hindex))

/-- Shifting right and masking reads the field at `offset`. -/
theorem toNat_getField (word : BitVec width) (offset length : ℕ)
    (hlength : length ≤ width) :
    ((word >>> offset) &&& BitVec.ofNat width (2 ^ length - 1)).toNat =
      word.toNat / 2 ^ offset % 2 ^ length := by
  have hmask : 2 ^ length - 1 < 2 ^ width := by
    have := Nat.pow_le_pow_right (show 0 < 2 by omega) hlength
    have := Nat.two_pow_pos length
    omega
  rw [BitVec.toNat_and, BitVec.toNat_ushiftRight, BitVec.toNat_ofNat,
    Nat.mod_eq_of_lt hmask, Nat.and_two_pow_sub_one_eq_mod,
    Nat.shiftRight_eq_div_pow]

/-- Clearing the field at `offset` and or-ing a new value in replaces exactly
that field. -/
theorem toNat_setField (word field : BitVec width) (offset length : ℕ)
    (hwidth : offset + length ≤ width) (hfield : field.toNat < 2 ^ length) :
    ((word &&& ~~~(BitVec.ofNat width (2 ^ length - 1) <<< offset)) |||
        field <<< offset).toNat =
      word.toNat / 2 ^ (offset + length) * 2 ^ (offset + length) +
        field.toNat * 2 ^ offset + word.toNat % 2 ^ offset := by
  have hsplit :
      word.toNat / 2 ^ (offset + length) * 2 ^ (offset + length) +
          field.toNat * 2 ^ offset + word.toNat % 2 ^ offset =
        2 ^ offset * (2 ^ length * (word.toNat / 2 ^ (offset + length)) +
          field.toNat) + word.toNat % 2 ^ offset := by
    rw [pow_add]
    ring
  rw [hsplit]
  apply Nat.eq_of_testBit_eq
  intro index
  rw [Nat.testBit_two_pow_mul_add _ (Nat.mod_lt _ (by positivity)),
    Nat.testBit_two_pow_mul_add _ hfield, Nat.testBit_mod_two_pow,
    Nat.testBit_div_two_pow]
  simp only [BitVec.testBit_toNat, BitVec.getLsbD_or, BitVec.getLsbD_and,
    BitVec.getLsbD_not, BitVec.getLsbD_shiftLeft]
  by_cases hindex : index < width
  · by_cases hoffset : index < offset
    · simp [hindex, hoffset]
    · rw [getLsbD_lowMask _ (by omega)]
      by_cases hinside : index - offset < length
      · simp [hindex, hoffset, hinside]
      · have hzero : field.getLsbD (index - offset) = false :=
          getLsbD_of_toNat_lt hfield (by omega)
        have hindexed : index - offset - length + (offset + length) = index := by
          omega
        simp [hindex, hoffset, hinside, hzero, hindexed]
  · have hword : word.getLsbD index = false :=
      BitVec.getLsbD_of_ge _ _ (by omega)
    have hhigh :
        word.getLsbD (index - offset - length + (offset + length)) = false :=
      BitVec.getLsbD_of_ge _ _ (by omega)
    have hoffset : ¬ index < offset := by omega
    have hinside : ¬ index - offset < length := by omega
    simp [hindex, hword, hhigh, hoffset, hinside]

/-- Clearing the field at `offset` leaves everything else. -/
theorem toNat_clearField (word : BitVec width) (offset length : ℕ)
    (hwidth : offset + length ≤ width) :
    (word &&& ~~~(BitVec.ofNat width (2 ^ length - 1) <<< offset)).toNat =
      word.toNat / 2 ^ (offset + length) * 2 ^ (offset + length) +
        word.toNat % 2 ^ offset := by
  have hset := toNat_setField word (0 : BitVec width) offset length hwidth (by simp)
  simpa using hset

/-- Or-ing a value into a field that is still zero adds it. -/
theorem toNat_fillField (word field : BitVec width) (offset length : ℕ)
    (hwidth : offset + length ≤ width) (hfield : field.toNat < 2 ^ length)
    (hempty : word.toNat / 2 ^ offset % 2 ^ length = 0) :
    (word ||| field <<< offset).toNat =
      word.toNat + field.toNat * 2 ^ offset := by
  have hparts := Nat.div_add_mod word.toNat (2 ^ offset)
  have hquotient : word.toNat / 2 ^ offset =
      2 ^ length * (word.toNat / 2 ^ (offset + length)) := by
    have hdivide := Nat.div_add_mod (word.toNat / 2 ^ offset) (2 ^ length)
    rw [hempty, Nat.div_div_eq_div_mul, ← pow_add] at hdivide
    omega
  have hsame : (word &&& ~~~(BitVec.ofNat width (2 ^ length - 1) <<< offset)) =
      word := by
    apply BitVec.eq_of_toNat_eq
    rw [toNat_clearField word offset length hwidth]
    calc
      word.toNat / 2 ^ (offset + length) * 2 ^ (offset + length) +
            word.toNat % 2 ^ offset =
          2 ^ offset * (2 ^ length * (word.toNat / 2 ^ (offset + length))) +
            word.toNat % 2 ^ offset := by
        rw [pow_add]
        ring
      _ = word.toNat := by rw [← hquotient, hparts]
  have hset := toNat_setField word field offset length hwidth hfield
  rw [hsame] at hset
  rw [hset]
  have hclear := toNat_clearField word offset length hwidth
  rw [hsame] at hclear
  omega

end Uv.Core.BitField
