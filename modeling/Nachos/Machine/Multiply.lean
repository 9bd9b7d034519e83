/-
# The product of two words

`Mult` builds a product of 64 bits out of words of 32 bits: it adds a shifted copy of `b`
for each bit of `a`, carries from one half into the other by hand, and negates the two
halves at the end if the signs differ.

The loop shifts `a` to the right as an `int`, so the sign bit stays where it is. In 32
rounds none of its copies gets to the end that is tested.
-/

import Mathlib.Data.BitVec
import Mathlib.Tactic.Ring
import Nachos.Machine.Mips

namespace Nachos

/-! ## Two words as a double word -/

theorem toNat_double (hi lo : BitVec 32) : (hi ++ lo).toNat = hi.toNat * 2 ^ 32 + lo.toNat := by
  rw [BitVec.toNat_append, ← Nat.shiftLeft_add_eq_or_of_lt lo.isLt, Nat.shiftLeft_eq]

/-- Adding the halves, with the carry. -/
theorem double_add (hi lo bHi bLo : BitVec 32) :
    ((if lo + bLo < bLo then hi + 1 else hi) + bHi) ++ (lo + bLo) =
      (hi ++ lo) + (bHi ++ bLo) := by
  apply BitVec.eq_of_toNat_eq
  rw [BitVec.toNat_add, toNat_double, toNat_double, toNat_double, BitVec.toNat_add lo]
  have hlo := lo.isLt
  have hbLo := bLo.isLt
  -- The sum of the low halves is less than one of them when it does not fit.
  by_cases hfits : lo.toNat + bLo.toNat < 2 ^ 32
  · have hcarry : ¬ lo + bLo < bLo := by
      rw [BitVec.lt_def, BitVec.toNat_add, Nat.mod_eq_of_lt hfits]
      omega
    rw [if_neg hcarry, BitVec.toNat_add]
    omega
  · have hcarry : lo + bLo < bLo := by
      rw [BitVec.lt_def, BitVec.toNat_add]
      omega
    rw [if_pos hcarry, BitVec.toNat_add, BitVec.toNat_add, show (1 : BitVec 32).toNat = 1 from rfl]
    omega

/-- The test of the top bit. -/
theorem and_top_ne_zero (x : BitVec 32) : x &&& 0x80000000 ≠ 0 ↔ 2 ^ 31 ≤ x.toNat := by
  have htop : x &&& 0x80000000 = if x.getLsbD 31 then BitVec.twoPow 32 31 else 0 :=
    BitVec.and_twoPow x 31
  have hmsb : x.getLsbD 31 = decide (2 ^ 31 ≤ x.toNat) := BitVec.getLsbD_last x
  rw [htop, hmsb]
  simp

/-- A one where a shift has put a zero. -/
theorem toNat_shiftLeft_or_one (x : BitVec 32) :
    ((x <<< 1) ||| 1).toNat = 2 * x.toNat % 2 ^ 32 + 1 := by
  have hshift : (x <<< 1).toNat = (x.toNat % 2 ^ 31) <<< 1 := by
    rw [BitVec.toNat_shiftLeft, Nat.shiftLeft_eq, Nat.shiftLeft_eq]
    omega
  rw [BitVec.toNat_or, hshift, show (1 : BitVec 32).toNat = 1 from rfl,
    ← Nat.shiftLeft_add_eq_or_of_lt (by decide), Nat.shiftLeft_eq]
  omega

/-- Shifting the halves, with the bit that goes from one to the other. -/
theorem double_shift (bHi bLo : BitVec 32) :
    (if bLo &&& 0x80000000 ≠ 0 then (bHi <<< 1) ||| 1 else bHi <<< 1) ++ (bLo <<< 1) =
      (bHi ++ bLo) + (bHi ++ bLo) := by
  apply BitVec.eq_of_toNat_eq
  rw [BitVec.toNat_add, toNat_double, toNat_double, BitVec.toNat_shiftLeft, Nat.shiftLeft_eq]
  have hbLo := bLo.isLt
  by_cases htop : bLo &&& 0x80000000 ≠ 0
  · rw [if_pos htop, toNat_shiftLeft_or_one]
    have hle := (and_top_ne_zero bLo).mp htop
    omega
  · rw [if_neg htop, BitVec.toNat_shiftLeft, Nat.shiftLeft_eq]
    have hlt := mt (and_top_ne_zero bLo).mpr htop
    omega

/-- The two's complement of the halves. -/
theorem double_neg (hi lo : BitVec 32) :
    (if ~~~lo + 1 = 0 then ~~~hi + 1 else ~~~hi) ++ (~~~lo + 1) = -(hi ++ lo) := by
  apply BitVec.eq_of_toNat_eq
  have hone : (1 : BitVec 32).toNat = 1 := rfl
  have hlo := lo.isLt
  have hhi := hi.isLt
  have hcarry : ~~~lo + 1 = 0 ↔ lo.toNat = 0 := by
    rw [← BitVec.toNat_inj, BitVec.toNat_add, BitVec.toNat_not, hone,
      show (0 : BitVec 32).toNat = 0 from rfl]
    omega
  rw [BitVec.toNat_neg, toNat_double, toNat_double, BitVec.toNat_add, BitVec.toNat_not, hone]
  by_cases hzero : lo.toNat = 0
  · rw [if_pos (hcarry.mpr hzero), BitVec.toNat_add, BitVec.toNat_not, hone]
    omega
  · rw [if_neg (mt hcarry.mp hzero), BitVec.toNat_not]
    omega

/-- The bits of `a` that `n` rounds look at: the first one, and those that the other rounds
look at after the shift. -/
theorem low_bits_succ (a : BitVec 32) {n : ℕ} (hn : n < 32) :
    a.toNat % 2 ^ (n + 1) = a.toNat % 2 + 2 * ((a.sshiftRight 1).toNat % 2 ^ n) := by
  have hshift : (a.sshiftRight 1).toNat % 2 ^ n = a.toNat / 2 % 2 ^ n := by
    rw [BitVec.toNat_sshiftRight, BitVec.msb_eq_decide, Nat.shiftRight_eq_div_pow,
      Nat.shiftRight_eq_div_pow]
    by_cases hsign : 2 ^ (32 - 1) ≤ a.toNat
    · -- The copy of the sign bit is above the bits that are left.
      have hlt := a.isLt
      have hvalue : 2 ^ 32 - 1 - (2 ^ 32 - 1 - a.toNat) / 2 ^ 1 = a.toNat / 2 + 2 ^ 31 := by
        omega
      obtain ⟨c, hc⟩ : 2 ^ n ∣ 2 ^ 31 := pow_dvd_pow 2 (by omega)
      rw [if_pos (by simpa using hsign), hvalue, hc, Nat.add_mul_mod_self_left]
    · rw [if_neg (by simpa using hsign), pow_one]
  rw [hshift, pow_succ', Nat.mod_mul]

/-- The test of the bit that a round looks at. -/
theorem and_one_ne_zero (a : BitVec 32) : a &&& 1 ≠ 0 ↔ a.toNat % 2 = 1 := by
  rw [Ne, ← BitVec.toNat_inj, BitVec.toNat_and, show (1 : BitVec 32).toNat = 1 from rfl,
    Nat.and_one_is_mod, show (0 : BitVec 32).toNat = 0 from rfl]
  omega

/-- The test for being done: no other bit is set. -/
theorem and_rest_eq_zero (a : BitVec 32) : a &&& 0xfffffffe = 0 ↔ a.toNat / 2 = 0 := by
  constructor
  · intro hrest
    have hlast : a = a &&& 1 := by
      calc a = a &&& (0xfffffffe ||| 1) := (BitVec.and_allOnes).symm
        _ = (a &&& 0xfffffffe) ||| (a &&& 1) := BitVec.and_or_distrib_left
        _ = a &&& 1 := by rw [hrest]; exact BitVec.zero_or
    have hvalue : a.toNat = a.toNat % 2 := by
      rw [← Nat.and_one_is_mod]
      exact congrArg BitVec.toNat hlast
    omega
  · intro hdone
    obtain hzero | hone : a.toNat = 0 ∨ a.toNat = 1 := by omega
    · rw [BitVec.eq_of_toNat_eq (x := a) (y := 0) hzero]
      decide
    · rw [BitVec.eq_of_toNat_eq (x := a) (y := 1) hone]
      decide

/-- What one round adds. -/
theorem double_round (a bLo bHi lo hi : BitVec 32) :
    (if a.toNat % 2 = 1 then
        (if (if a.toNat % 2 = 1 then lo + bLo else lo) < bLo then hi + 1 else hi) + bHi
      else hi) ++ (if a.toNat % 2 = 1 then lo + bLo else lo) =
      (hi ++ lo) + BitVec.ofNat 64 (a.toNat % 2) * (bHi ++ bLo) := by
  by_cases hodd : a.toNat % 2 = 1
  · simp only [if_pos hodd]
    rw [double_add, hodd]
    simp
  · have heven : a.toNat % 2 = 0 := by omega
    simp only [if_neg hodd]
    rw [heven]
    simp

/-- **The loop** adds the multiple of `b` that the bits of `a` say. -/
theorem multLoop_eq (n : ℕ) (hn : n ≤ 32) (a bLo bHi lo hi : BitVec 32) :
    (multLoop n a bLo bHi lo hi).1 ++ (multLoop n a bLo bHi lo hi).2 =
      (hi ++ lo) + BitVec.ofNat 64 (a.toNat % 2 ^ n) * (bHi ++ bLo) := by
  induction n generalizing a bLo bHi lo hi with
  | zero => simp [multLoop, Nat.mod_one]
  | succ n ih =>
      have hbits := low_bits_succ a (n := n) (by omega)
      rw [multLoop]
      simp only [and_one_ne_zero, and_rest_eq_zero]
      split
      · rename_i hdone
        obtain ⟨hodd, hrest⟩ := hdone
        have hone : a.toNat % 2 ^ (n + 1) = a.toNat % 2 := by
          rw [Nat.mod_eq_of_lt]
          · omega
          · have hpow : 2 ^ 1 ≤ 2 ^ (n + 1) := Nat.pow_le_pow_right (by decide) (by omega)
            omega
        rw [hone]
        exact double_round a bLo bHi lo hi
      · rw [ih (by omega), double_round, double_shift, hbits, BitVec.ofNat_add, BitVec.ofNat_mul,
          show BitVec.ofNat 64 2 = 2 from rfl]
        ring

/-- The loop on two words read without a sign. -/
theorem toNat_multLoop (a b : BitVec 32) :
    ((multLoop 32 a b 0 0 0).1 ++ (multLoop 32 a b 0 0 0).2).toNat = a.toNat * b.toNat := by
  have hproduct : a.toNat * b.toNat < 2 ^ 32 * 2 ^ 32 := Nat.mul_lt_mul'' a.isLt b.isLt
  have ha := a.isLt
  have hb := b.isLt
  have hzero : (0 : BitVec 32) ++ (0 : BitVec 32) = (0 : BitVec 64) := rfl
  have hword : ((0 : BitVec 32) ++ b).toNat = b.toNat := by
    rw [toNat_double, show (0 : BitVec 32).toNat = 0 from rfl, Nat.zero_mul, Nat.zero_add]
  rw [multLoop_eq 32 le_rfl, Nat.mod_eq_of_lt a.isLt, hzero, zero_add, BitVec.toNat_mul, hword,
    BitVec.toNat_ofNat, Nat.mod_eq_of_lt (a := a.toNat) (by omega), Nat.mod_eq_of_lt (by omega)]

/-- What `Mult` makes of a signed operand. -/
theorem toNat_magnitude (x : BitVec 32) : (if x.msb then -x else x).toNat = x.toInt.natAbs := by
  rw [BitVec.toInt_eq_msb_cond]
  have hx := x.isLt
  cases hsign : x.msb with
  | false => simp
  | true =>
      have hle := BitVec.msb_eq_true_iff_two_mul_ge.mp hsign
      simp only [↓reduceIte, BitVec.toNat_neg]
      omega

/-- The sign of a product, and its magnitude. -/
theorem ofInt_mul_eq (a b : BitVec 32) :
    BitVec.ofInt 64 (a.toInt * b.toInt) =
      if a.msb != b.msb then -BitVec.ofNat 64 (a.toInt.natAbs * b.toInt.natAbs)
      else BitVec.ofNat 64 (a.toInt.natAbs * b.toInt.natAbs) := by
  rw [← BitVec.ofInt_natCast, ← BitVec.ofInt_neg, ← apply_ite (BitVec.ofInt 64), Nat.cast_mul]
  congr 1
  have hsign : ∀ x : BitVec 32, x.msb = true → (x.toInt.natAbs : ℤ) = -x.toInt := by
    intro x hx
    have hneg := BitVec.toInt_neg_of_msb_true hx
    omega
  have hpositive : ∀ x : BitVec 32, x.msb = false → (x.toInt.natAbs : ℤ) = x.toInt := by
    intro x hx
    rw [BitVec.toInt_eq_toNat_of_msb hx, Int.natAbs_natCast]
  cases ha : a.msb <;> cases hb : b.msb
  · rw [hpositive a ha, hpositive b hb]
    rfl
  · rw [hpositive a ha, hsign b hb, mul_neg, neg_neg]
    rfl
  · rw [hsign a ha, hpositive b hb, neg_mul, neg_neg]
    rfl
  · rw [hsign a ha, hsign b hb, neg_mul_neg]
    rfl

/-- With the signs. -/
theorem mult_signed (a b : BitVec 32) :
    (mult a b true).1 ++ (mult a b true).2 = BitVec.ofInt 64 (a.toInt * b.toInt) := by
  rw [mult]
  split
  · rename_i hzero
    have hproduct : a.toInt * b.toInt = 0 := by
      rcases hzero with rfl | rfl
      · simp
      · simp
    rw [hproduct]
    rfl
  have hloop : ∀ x y : BitVec 32, (multLoop 32 x y 0 0 0).1 ++ (multLoop 32 x y 0 0 0).2 =
      BitVec.ofNat 64 (x.toNat * y.toNat) := by
    intro x y
    rw [← toNat_multLoop, BitVec.ofNat_toNat, BitVec.setWidth_eq]
  simp only [Bool.true_and]
  rw [ofInt_mul_eq]
  split
  · rw [double_neg, hloop, toNat_magnitude, toNat_magnitude]
  · rw [hloop, toNat_magnitude, toNat_magnitude]

/-- Without them. -/
theorem toNat_mult_unsigned (a b : BitVec 32) :
    ((mult a b false).1 ++ (mult a b false).2).toNat = a.toNat * b.toNat := by
  rw [mult]
  split
  · rename_i hzero
    rcases hzero with rfl | rfl
    · rw [show (0 : BitVec 32).toNat = 0 from rfl, Nat.zero_mul]
      rfl
    · rw [show (0 : BitVec 32).toNat = 0 from rfl, Nat.mul_zero]
      rfl
  · simp only [Bool.false_and]
    exact toNat_multLoop a b

/-- The double word is large enough for the signed product. -/
theorem toInt_mult_signed (a b : BitVec 32) :
    ((mult a b true).1 ++ (mult a b true).2).toInt = a.toInt * b.toInt := by
  -- The product is at most that of the two smallest numbers.
  have hbound : ∀ x : BitVec 32, x.toInt.natAbs ≤ 2 ^ 31 := by
    intro x
    have hlt := x.isLt
    rw [BitVec.toInt_eq_toNat_cond]
    split <;> omega
  have hproduct : (a.toInt * b.toInt).natAbs ≤ 2 ^ 31 * 2 ^ 31 := by
    rw [Int.natAbs_mul]
    exact Nat.mul_le_mul (hbound a) (hbound b)
  rw [mult_signed, BitVec.toInt_ofInt]
  exact Int.bmod_eq_of_le (by omega) (by omega)

/-- **`Mult` computes the product** of 64 bits, with the signs and without them. -/
theorem mult_eq (a b : BitVec 32) :
    (mult a b true).1 ++ (mult a b true).2 = BitVec.ofInt 64 (a.toInt * b.toInt) ∧
      ((mult a b true).1 ++ (mult a b true).2).toInt = a.toInt * b.toInt ∧
      ((mult a b false).1 ++ (mult a b false).2).toNat = a.toNat * b.toNat :=
  ⟨mult_signed a b, toInt_mult_signed a b, toNat_mult_unsigned a b⟩

example : mult (BitVec.intMin 32) (BitVec.intMin 32) true = (0x40000000, 0) := by decide

/-! ## The instructions -/

namespace Instruction

variable (instr : Instruction) (pcAfter : BitVec 32) (m : Machine)

/-- The instructions that set `Hi` and `Lo` leave the halves of their result there. -/
theorem registers_hiLo (f : BitVec 32 → BitVec 32 → BitVec 32 × BitVec 32) :
    ∃ m', instr.hiLo pcAfter f m = .ok (⟨pcAfter, 0, 0⟩, m') ∧
      (m'.registers HiReg, m'.registers LoReg) =
        f (m.registers (gpr instr.rs)) (m.registers (gpr instr.rt)) := by
  refine ⟨_, rfl, Prod.ext ?_ ?_⟩
  · dsimp only
    rw [Machine.registers_writeRegister_of_ne _ _ (by decide)]
    exact Machine.registers_writeRegister_self ..
  · dsimp only
    exact Machine.registers_writeRegister_self ..

/-- `OP_MULT` leaves the signed product of two registers in `Hi` and `Lo`. -/
theorem execute_MULT (hcode : instr.opCode = .MULT) :
    ∃ m', instr.execute pcAfter m = .ok (⟨pcAfter, 0, 0⟩, m') ∧
      (m'.registers HiReg ++ m'.registers LoReg).toInt =
        (m.registers (gpr instr.rs)).toInt * (m.registers (gpr instr.rt)).toInt := by
  obtain ⟨m', hrun, hresult⟩ := instr.registers_hiLo pcAfter m fun a b => mult a b true
  obtain ⟨hhi, hlo⟩ := Prod.ext_iff.mp hresult
  refine ⟨m', by rw [execute, hcode]; exact hrun, ?_⟩
  rw [← toInt_mult_signed, ← hhi, ← hlo]

/-- `OP_MULTU` leaves the unsigned one. -/
theorem execute_MULTU (hcode : instr.opCode = .MULTU) :
    ∃ m', instr.execute pcAfter m = .ok (⟨pcAfter, 0, 0⟩, m') ∧
      (m'.registers HiReg ++ m'.registers LoReg).toNat =
        (m.registers (gpr instr.rs)).toNat * (m.registers (gpr instr.rt)).toNat := by
  obtain ⟨m', hrun, hresult⟩ := instr.registers_hiLo pcAfter m fun a b => mult a b false
  obtain ⟨hhi, hlo⟩ := Prod.ext_iff.mp hresult
  refine ⟨m', by rw [execute, hcode]; exact hrun, ?_⟩
  rw [← toNat_mult_unsigned, ← hhi, ← hlo]

end Instruction

end Nachos
