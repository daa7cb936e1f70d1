/-
# Words and their bytes

Words of 16 and 32 bits are put together from bytes by shifting, and taken apart by shifting and
masking.  As numbers they are the sums that one expects, so that each undoes the other.
-/
import Mathlib

/-- The lower bits are added to the upper bits. -/
theorem lor_eq_add {b : ℕ} (i a : ℕ) (h : b < 2 ^ i) : 2 ^ i * a ||| b = 2 ^ i * a + b :=
  (Nat.two_pow_add_eq_or_of_lt h a).symm

/-! ## Words of 16 bits -/

section

variable (x y : UInt8) (v : UInt16)

/-- The value of two bytes, the higher one first. -/
theorem toNat_joinBytes16 : ((x.toUInt16 <<< 8) ||| y.toUInt16).toNat = 2 ^ 8 * x.toNat + y.toNat := by
  have hx := x.toNat_lt
  have hy := y.toNat_lt
  have hshift : (x.toUInt16 <<< 8).toNat = 2 ^ 8 * x.toNat := by
    rw [UInt16.toNat_shiftLeft, UInt8.toNat_toUInt16, Nat.shiftLeft_eq, Nat.mul_comm]
    show 2 ^ 8 * x.toNat % 2 ^ 16 = _
    exact Nat.mod_eq_of_lt (by omega)
  rw [UInt16.toNat_or, hshift, UInt8.toNat_toUInt16, lor_eq_add 8 _ hy]

/-- What is written first of a word. -/
theorem toNat_upperByte16 : (v >>> 8).toUInt8.toNat = v.toNat / 2 ^ 8 := by
  have hv := v.toNat_lt
  have hshift : (v >>> 8).toNat = v.toNat / 2 ^ 8 := by
    rw [UInt16.toNat_shiftRight]
    exact Nat.shiftRight_eq_div_pow _ _
  rw [UInt16.toNat_toUInt8, hshift]
  omega

/-- What is written last of it. -/
theorem toNat_lowerByte16 : (v &&& 0xff).toUInt8.toNat = v.toNat % 2 ^ 8 := by
  have hmask : (v &&& 0xff).toNat = v.toNat % 2 ^ 8 := by
    rw [UInt16.toNat_and]
    exact Nat.and_two_pow_sub_one_eq_mod v.toNat 8
  rw [UInt16.toNat_toUInt8, hmask, Nat.mod_mod]

/-- A word is the join of its bytes. -/
theorem joinBytes16_bytes :
    ((v >>> 8).toUInt8.toUInt16 <<< 8) ||| (v &&& 0xff).toUInt8.toUInt16 = v := by
  apply UInt16.toNat_inj.mp
  rw [toNat_joinBytes16, toNat_upperByte16, toNat_lowerByte16, Nat.div_add_mod]

/-- The bytes of a join are the bytes that were joined. -/
theorem upperByte16_joinBytes : (((x.toUInt16 <<< 8) ||| y.toUInt16) >>> 8).toUInt8 = x := by
  have hy := y.toNat_lt
  apply UInt8.toNat_inj.mp
  rw [toNat_upperByte16, toNat_joinBytes16]
  omega

theorem lowerByte16_joinBytes : (((x.toUInt16 <<< 8) ||| y.toUInt16) &&& 0xff).toUInt8 = y := by
  have hy := y.toNat_lt
  apply UInt8.toNat_inj.mp
  rw [toNat_lowerByte16, toNat_joinBytes16]
  omega

end

/-! ## Words of 32 bits -/

section

variable (x y z w : UInt8) (v : UInt32)

/-- No bit is lost when a byte is shifted into its place. -/
theorem toNat_shiftLeft32 (k : UInt32) (hk : k.toNat ≤ 24) :
    (x.toUInt32 <<< k).toNat = 2 ^ k.toNat * x.toNat := by
  have hx := x.toNat_lt
  rw [UInt32.toNat_shiftLeft, Nat.mod_eq_of_lt (by omega : k.toNat < 32), UInt8.toNat_toUInt32,
    Nat.shiftLeft_eq, Nat.mul_comm]
  apply Nat.mod_eq_of_lt
  calc 2 ^ k.toNat * x.toNat < 2 ^ k.toNat * 2 ^ 8 := by gcongr
    _ ≤ 2 ^ 24 * 2 ^ 8 := by gcongr; decide
    _ = 2 ^ 32 := by norm_num

/-- The value of four bytes, the highest one first. -/
theorem toNat_joinBytes32 :
    ((x.toUInt32 <<< 24) ||| (y.toUInt32 <<< 16) ||| (z.toUInt32 <<< 8) ||| w.toUInt32).toNat
      = 2 ^ 24 * x.toNat + 2 ^ 16 * y.toNat + 2 ^ 8 * z.toNat + w.toNat := by
  have hy := y.toNat_lt
  have hz := z.toNat_lt
  have hw := w.toNat_lt
  have h₁ : (x.toUInt32 <<< 24).toNat = 2 ^ 24 * x.toNat := toNat_shiftLeft32 x 24 (by decide)
  have h₂ : (y.toUInt32 <<< 16).toNat = 2 ^ 16 * y.toNat := toNat_shiftLeft32 y 16 (by decide)
  have h₃ : (z.toUInt32 <<< 8).toNat = 2 ^ 8 * z.toNat := toNat_shiftLeft32 z 8 (by decide)
  rw [UInt32.toNat_or, UInt32.toNat_or, UInt32.toNat_or, h₁, h₂, h₃, UInt8.toNat_toUInt32,
    lor_eq_add 24 _ (by omega),
    show 2 ^ 24 * x.toNat + 2 ^ 16 * y.toNat = 2 ^ 16 * (2 ^ 8 * x.toNat + y.toNat) by omega,
    lor_eq_add 16 _ (by omega),
    show 2 ^ 16 * (2 ^ 8 * x.toNat + y.toNat) + 2 ^ 8 * z.toNat
      = 2 ^ 8 * (2 ^ 8 * (2 ^ 8 * x.toNat + y.toNat) + z.toNat) by omega,
    lor_eq_add 8 _ hw]

/-- What is written last of a word. -/
theorem toNat_lowerByte32 : (v &&& 0xff).toUInt8.toNat = v.toNat % 2 ^ 8 := by
  have hmask : (v &&& 0xff).toNat = v.toNat % 2 ^ 8 := by
    rw [UInt32.toNat_and]
    exact Nat.and_two_pow_sub_one_eq_mod v.toNat 8
  rw [UInt32.toNat_toUInt8, hmask, Nat.mod_mod]

/-- What is written of a word after a shift. -/
theorem toNat_byte32 (k : UInt32) (hk : k.toNat < 32) :
    ((v >>> k) &&& 0xff).toUInt8.toNat = v.toNat / 2 ^ k.toNat % 2 ^ 8 := by
  rw [toNat_lowerByte32, UInt32.toNat_shiftRight, Nat.mod_eq_of_lt hk,
    Nat.shiftRight_eq_div_pow]

/-- The upper half of a word. -/
theorem toNat_upperHalf32 : ((v >>> 16) &&& 0xffff).toUInt16.toNat = v.toNat / 2 ^ 16 := by
  have hv := v.toNat_lt
  have hmask : ((v >>> 16) &&& 0xffff).toNat = v.toNat / 2 ^ 16 % 2 ^ 16 := by
    rw [UInt32.toNat_and, UInt32.toNat_shiftRight, ← Nat.shiftRight_eq_div_pow]
    exact Nat.and_two_pow_sub_one_eq_mod _ 16
  rw [UInt32.toNat_toUInt16, hmask]
  omega

/-- The lower half. -/
theorem toNat_lowerHalf32 : (v &&& 0xffff).toUInt16.toNat = v.toNat % 2 ^ 16 := by
  have hmask : (v &&& 0xffff).toNat = v.toNat % 2 ^ 16 := by
    rw [UInt32.toNat_and]
    exact Nat.and_two_pow_sub_one_eq_mod v.toNat 16
  rw [UInt32.toNat_toUInt16, hmask, Nat.mod_mod]

/-- A word is the join of its bytes. -/
theorem joinBytes32_bytes :
    (((v >>> 24) &&& 0xff).toUInt8.toUInt32 <<< 24) |||
      (((v >>> 16) &&& 0xff).toUInt8.toUInt32 <<< 16) |||
      (((v >>> 8) &&& 0xff).toUInt8.toUInt32 <<< 8) ||| (v &&& 0xff).toUInt8.toUInt32 = v := by
  have hv := v.toNat_lt
  apply UInt32.toNat_inj.mp
  rw [toNat_joinBytes32, toNat_byte32 v 24 (by decide), toNat_byte32 v 16 (by decide),
    toNat_byte32 v 8 (by decide), toNat_lowerByte32]
  simp only [UInt32.reduceToNat]
  omega

end
