/-
# The product of the interpreter

`I_MULT` and `I_MULTU` of `bin/execute.c` put the upper word of a product together from the products
of the halves, each of which is shifted on its own. The carry out of the lower words is lost, and a
product of two halves that reaches `2 ^ 31` is shifted as a negative number. `Mult` of
`machine/mipssim.cc` loses neither, and the two agree exactly where there is nothing to lose.
-/

import Nachos.Bin.Execute
import Nachos.Machine.Multiply

namespace Nachos

namespace Execute

/-- The products of the halves are `int`s, and what is shifted out of them adds up to no carry. -/
structure NoCarry (a b : ℕ) : Prop where
  upper : a / 2 ^ 16 * (b % 2 ^ 16) < 2 ^ 31
  lower : b / 2 ^ 16 * (a % 2 ^ 16) < 2 ^ 31
  carry : a / 2 ^ 16 * (b % 2 ^ 16) % 2 ^ 16 + b / 2 ^ 16 * (a % 2 ^ 16) % 2 ^ 16 +
    a % 2 ^ 16 * (b % 2 ^ 16) / 2 ^ 16 < 2 ^ 16

theorem noCarry_iff {a b : ℕ} : NoCarry a b ↔
    a / 2 ^ 16 * (b % 2 ^ 16) < 2 ^ 31 ∧ b / 2 ^ 16 * (a % 2 ^ 16) < 2 ^ 31 ∧
      a / 2 ^ 16 * (b % 2 ^ 16) % 2 ^ 16 + b / 2 ^ 16 * (a % 2 ^ 16) % 2 ^ 16 +
        a % 2 ^ 16 * (b % 2 ^ 16) / 2 ^ 16 < 2 ^ 16 :=
  ⟨fun h => ⟨h.upper, h.lower, h.carry⟩, fun h => ⟨h.1, h.2.1, h.2.2⟩⟩

instance (a b : ℕ) : Decidable (NoCarry a b) := decidable_of_iff _ noCarry_iff.symm

theorem toNat_low_half (x : BitVec 32) : (x &&& 0xffff).toNat = x.toNat % 2 ^ 16 := by
  rw [BitVec.toNat_and]
  exact Nat.and_two_pow_sub_one_eq_mod _ 16

theorem toNat_sshiftRight_half (x : BitVec 32) : (x.sshiftRight 16).toNat =
    x.toNat / 2 ^ 16 + if 2 ^ 31 ≤ x.toNat then 2 ^ 32 - 2 ^ 16 else 0 := by
  have hx := x.isLt
  rw [BitVec.toNat_sshiftRight, BitVec.msb_eq_decide, Nat.shiftRight_eq_div_pow,
    Nat.shiftRight_eq_div_pow]
  by_cases hsign : 2 ^ 31 ≤ x.toNat
  · rw [if_pos (by simpa using hsign), if_pos hsign]
    omega
  · rw [if_neg (by simpa using hsign), if_neg hsign, Nat.add_zero]

theorem toNat_high_half (x : BitVec 32) :
    (x.sshiftRight 16 &&& 0xffff).toNat = x.toNat / 2 ^ 16 := by
  have hx := x.isLt
  rw [toNat_low_half, toNat_sshiftRight_half]
  split <;> omega

/-- The upper word of a product, by the products of the halves. -/
theorem mul_div_eq (a b : ℕ) :
    a * b / 2 ^ 32 = a / 2 ^ 16 * (b / 2 ^ 16) + a / 2 ^ 16 * (b % 2 ^ 16) / 2 ^ 16 +
      b / 2 ^ 16 * (a % 2 ^ 16) / 2 ^ 16 +
      (a / 2 ^ 16 * (b % 2 ^ 16) % 2 ^ 16 + b / 2 ^ 16 * (a % 2 ^ 16) % 2 ^ 16 +
        a % 2 ^ 16 * (b % 2 ^ 16) / 2 ^ 16) / 2 ^ 16 := by
  have hproduct : a * b = a / 2 ^ 16 * (b / 2 ^ 16) * 2 ^ 32 +
      (a / 2 ^ 16 * (b % 2 ^ 16) + b / 2 ^ 16 * (a % 2 ^ 16)) * 2 ^ 16 +
      a % 2 ^ 16 * (b % 2 ^ 16) := by
    have ha := Nat.div_add_mod a (2 ^ 16)
    have hb := Nat.div_add_mod b (2 ^ 16)
    calc a * b = (2 ^ 16 * (a / 2 ^ 16) + a % 2 ^ 16) * (2 ^ 16 * (b / 2 ^ 16) + b % 2 ^ 16) := by
          rw [ha, hb]
      _ = _ := by ring
  generalize a / 2 ^ 16 * (b / 2 ^ 16) = high at hproduct ⊢
  generalize a / 2 ^ 16 * (b % 2 ^ 16) = p at hproduct ⊢
  generalize b / 2 ^ 16 * (a % 2 ^ 16) = q at hproduct ⊢
  generalize a % 2 ^ 16 * (b % 2 ^ 16) = low at hproduct ⊢
  omega

/-- **The upper word is right** exactly where no carry is lost. -/
theorem mulHigh_eq_iff (x y : BitVec 32) :
    (mulHigh x y).toNat = x.toNat * y.toNat / 2 ^ 32 ↔ NoCarry x.toNat y.toNat := by
  have hx := x.isLt
  have hy := y.isLt
  have hhalf (n m : ℕ) (hn : n < 2 ^ 16) (hm : m < 2 ^ 16) : n * m ≤ (2 ^ 16 - 1) * (2 ^ 16 - 1) :=
    Nat.mul_le_mul (by omega) (by omega)
  have hhigh := hhalf (x.toNat / 2 ^ 16) (y.toNat / 2 ^ 16) (by omega) (by omega)
  have hp := hhalf (x.toNat / 2 ^ 16) (y.toNat % 2 ^ 16) (by omega) (by omega)
  have hq := hhalf (y.toNat / 2 ^ 16) (x.toNat % 2 ^ 16) (by omega) (by omega)
  have hlow := hhalf (x.toNat % 2 ^ 16) (y.toNat % 2 ^ 16) (by omega) (by omega)
  have hvalue : (mulHigh x y).toNat = (x.toNat / 2 ^ 16 * (y.toNat / 2 ^ 16) +
      (x.toNat / 2 ^ 16 * (y.toNat % 2 ^ 16) / 2 ^ 16 +
        if 2 ^ 31 ≤ x.toNat / 2 ^ 16 * (y.toNat % 2 ^ 16) then 2 ^ 32 - 2 ^ 16 else 0) +
      (y.toNat / 2 ^ 16 * (x.toNat % 2 ^ 16) / 2 ^ 16 +
        if 2 ^ 31 ≤ y.toNat / 2 ^ 16 * (x.toNat % 2 ^ 16) then 2 ^ 32 - 2 ^ 16 else 0)) % 2 ^ 32 := by
    rw [mulHigh, BitVec.toNat_add, BitVec.toNat_add, BitVec.toNat_mul, toNat_sshiftRight_half,
      toNat_sshiftRight_half, BitVec.toNat_mul, BitVec.toNat_mul, toNat_high_half, toNat_high_half,
      toNat_low_half, toNat_low_half, Nat.mod_eq_of_lt (a := _ / 2 ^ 16 * (_ % 2 ^ 16)) (by omega),
      Nat.mod_eq_of_lt (a := y.toNat / 2 ^ 16 * (x.toNat % 2 ^ 16)) (by omega)]
    simp only [Nat.mod_add_mod]
  have hcarry : NoCarry x.toNat y.toNat ↔ _ := noCarry_iff
  rw [hvalue, mul_div_eq, hcarry]
  generalize x.toNat / 2 ^ 16 * (y.toNat / 2 ^ 16) = high at hhigh ⊢
  generalize x.toNat / 2 ^ 16 * (y.toNat % 2 ^ 16) = p at hp ⊢
  generalize y.toNat / 2 ^ 16 * (x.toNat % 2 ^ 16) = q at hq ⊢
  generalize x.toNat % 2 ^ 16 * (y.toNat % 2 ^ 16) = low at hlow ⊢
  -- What is wrong is at most a carry of two, less a multiple of `2 ^ 16`.
  split_ifs <;> omega

/-- The words of `I_MULTU` are those of the product where no carry is lost. -/
theorem multUnsigned_eq_iff (a b : BitVec 32) :
    multUnsigned a b = mult a b false ↔ NoCarry a.toNat b.toNat := by
  have hproduct := toNat_mult_unsigned a b
  rw [toNat_double] at hproduct
  have hlow := (mult a b false).2.isLt
  have hlo : a * b = (mult a b false).2 := by
    apply BitVec.eq_of_toNat_eq
    rw [BitVec.toNat_mul]
    omega
  have hhi : (mult a b false).1.toNat = a.toNat * b.toNat / 2 ^ 32 := by omega
  rw [← mulHigh_eq_iff, ← hhi, BitVec.toNat_inj, multUnsigned, Prod.ext_iff]
  exact and_iff_left hlo

/-- Without a sign the two words stand for one number. -/
theorem double_inj {hi lo hi' lo' : BitVec 32} : hi ++ lo = hi' ++ lo' ↔ hi = hi' ∧ lo = lo' := by
  constructor
  · intro h
    have hvalue := congrArg BitVec.toNat h
    rw [toNat_double, toNat_double] at hvalue
    have hlo := lo.isLt
    have hlo' := lo'.isLt
    exact ⟨BitVec.eq_of_toNat_eq (by omega), BitVec.eq_of_toNat_eq (by omega)⟩
  · rintro ⟨rfl, rfl⟩
    rfl

/-- The words of `I_MULT` as one number: the sign is put on as `Mult` does. -/
theorem double_multSigned (a b : BitVec 32) :
    (multSigned a b).1 ++ (multSigned a b).2 =
      if a.msb != b.msb then
        -(mulHigh (if a.msb then -a else a) (if b.msb then -b else b) ++
          ((if a.msb then -a else a) * if b.msb then -b else b))
      else mulHigh (if a.msb then -a else a) (if b.msb then -b else b) ++
        ((if a.msb then -a else a) * if b.msb then -b else b) := by
  simp only [multSigned]
  by_cases hneg : (a.msb != b.msb) = true
  · rw [if_pos hneg, if_pos hneg]
    exact double_neg _ _
  · rw [if_neg hneg, if_neg hneg]

/-- The words of `I_MULT` are those of the product where no carry is lost from the magnitudes. -/
theorem multSigned_eq_iff (a b : BitVec 32) :
    multSigned a b = mult a b true ↔ NoCarry a.toInt.natAbs b.toInt.natAbs := by
  have ha := toNat_magnitude a
  have hb := toNat_magnitude b
  have hpair : multSigned a b = mult a b true ↔ (multSigned a b).1 ++ (multSigned a b).2 =
      (mult a b true).1 ++ (mult a b true).2 := by
    rw [double_inj, Prod.ext_iff]
  rw [hpair, double_multSigned, mult_signed, ofInt_mul_eq, ← ha, ← hb, ← mulHigh_eq_iff]
  generalize (if a.msb then -a else a) = x
  generalize (if b.msb then -b else b) = y
  have hwords : mulHigh x y ++ x * y = BitVec.ofNat 64 (x.toNat * y.toNat) ↔
      (mulHigh x y).toNat = x.toNat * y.toNat / 2 ^ 32 := by
    have hproduct : x.toNat * y.toNat < 2 ^ 32 * 2 ^ 32 := Nat.mul_lt_mul'' x.isLt y.isLt
    rw [← BitVec.toNat_inj, toNat_double, BitVec.toNat_mul, BitVec.toNat_ofNat,
      Nat.mod_eq_of_lt (a := x.toNat * y.toNat) (b := 2 ^ 64) (by omega)]
    omega
  rw [← hwords]
  split
  · exact neg_inj
  · exact Iff.rfl

/-- **The products of the two simulators.** They agree exactly where the interpreter loses no carry. -/
theorem products_agree_iff (a b : BitVec 32) :
    (multSigned a b = mult a b true ↔ NoCarry a.toInt.natAbs b.toInt.natAbs) ∧
      (multUnsigned a b = mult a b false ↔ NoCarry a.toNat b.toNat) :=
  ⟨multSigned_eq_iff a b, multUnsigned_eq_iff a b⟩

/-- The square of `0x1ffff` loses a carry of two. -/
example : multUnsigned 0x1ffff 0x1ffff = (1, 0xfffc0001) ∧
    mult 0x1ffff 0x1ffff false = (3, 0xfffc0001) := by decide

end Execute

end Nachos
