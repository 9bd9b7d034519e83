/-
# One instruction word, two decoders

`Instruction::Decode` of `machine/mipssim.cc` looks an instruction up in two tables of opcodes; the
interpreter of `bin/` has a numbered case for each opcode and takes the fields out of the word where
it needs them. A word that `Decode` implements is the same instruction to both. Three opcodes are
implemented by one of the two only: `BREAK` by the interpreter, `SWL` and `SWR` by the simulator.
-/

import Nachos.Bin.Execute

namespace Nachos

open Base

namespace Execute

/-! ## Fields -/

/-- An arithmetic shift leaves the low bits that a logical one does. -/
theorem toNat_sshiftRight_and (i : BitVec 32) {n k : ℕ} (h : n + k ≤ 32) :
    (i.sshiftRight n &&& BitVec.ofNat 32 (2 ^ k - 1)).toNat = (i >>> n).toNat % 2 ^ k := by
  apply Nat.eq_of_testBit_eq
  intro b
  rw [Nat.testBit_mod_two_pow, ← BitVec.getLsbD, ← BitVec.getLsbD, BitVec.getLsbD_and,
    BitVec.getLsbD_sshiftRight, BitVec.getLsbD_ofNat, Nat.testBit_two_pow_sub_one,
    BitVec.getLsbD_ushiftRight]
  by_cases hb : b < k
  · simp [hb, show b < 32 by omega, show n + b < 32 by omega]
  · simp [hb]

/-- The five bits of a register field. -/
theorem ofNat_field (i : BitVec 32) {n : ℕ} (h : n ≤ 27) :
    Fin.ofNat 32 (i.sshiftRight n &&& 0x1f).toNat = Instruction.field i n := by
  apply Fin.ext
  have hlow := toNat_sshiftRight_and i (n := n) (k := 5) (by omega)
  rw [Instruction.field, Fin.ofNat, Fin.ofNat]
  simp only [show (2 ^ 5 - 1 : ℕ) = 31 from rfl] at hlow
  rw [show (0x1f : BitVec 32) = BitVec.ofNat 32 31 from rfl, hlow]
  exact Nat.mod_mod_of_dvd _ (dvd_refl 32)

theorem rs_eq (i : BitVec 32) : rs i = (Instruction.decode i).rs := ofNat_field i (by omega)

theorem rt_eq (i : BitVec 32) : rt i = (Instruction.decode i).rt := ofNat_field i (by omega)

theorem rd_eq (i : BitVec 32) : rd i = (Instruction.decode i).rd := ofNat_field i (by omega)

theorem and_sign_ne_zero (i : BitVec 32) : i &&& 0x8000 ≠ 0 ↔ i.getLsbD 15 = true := by
  have htop : ∀ b < 32, (0x8000 : BitVec 32).getLsbD b = decide (b = 15) := by decide
  constructor
  · intro h
    by_contra hclear
    refine h (BitVec.eq_of_getLsbD_eq fun b hb => ?_)
    rw [BitVec.getLsbD_and, htop b hb]
    by_cases hb15 : b = 15
    · rw [hb15, Bool.eq_false_iff.mpr hclear]
      rfl
    · simp [hb15]
  · intro h hzero
    have hclear := congrArg (fun x => x.getLsbD 15) hzero
    rw [BitVec.getLsbD_and, h] at hclear
    cases hclear

/-- The sign-extended immediate. -/
theorem immed_eq (i : BitVec 32) : immed i = Instruction.decodeExtra i .IFMT := by
  have hsign : (i &&& 0xffff) &&& 0x8000 = i &&& 0x8000 := by
    rw [BitVec.and_assoc]
    rfl
  have hlow : ∀ b < 32, (0xffff : BitVec 32).getLsbD b = decide (b < 16) := by decide
  have hrest : ∀ b < 32, (0x7fff : BitVec 32).getLsbD b = decide (b < 15) := by decide
  have hhigh : ∀ b < 32, (0xffff0000 : BitVec 32).getLsbD b = decide (16 ≤ b) := by decide
  have hfill : ∀ b < 32, (0xffff8000 : BitVec 32).getLsbD b = decide (15 ≤ b) := by decide
  simp only [immed, Instruction.decodeExtra, hsign]
  split_ifs with h
  · have hset := (and_sign_ne_zero i).mp h
    refine BitVec.eq_of_getLsbD_eq fun b hb => ?_
    rw [BitVec.getLsbD_or, BitVec.getLsbD_or, BitVec.getLsbD_and, hfill b hb, hlow b hb, hhigh b hb]
    rcases Nat.lt_trichotomy b 15 with hlt | rfl | hgt
    · simp [show b < 16 by omega, show ¬ 15 ≤ b by omega, show ¬ 16 ≤ b by omega]
    · rw [hset]
      rfl
    · simp [show 16 ≤ b by omega, show 15 ≤ b by omega]
  · have hclear := Bool.eq_false_iff.mpr (mt (and_sign_ne_zero i).mpr h)
    refine BitVec.eq_of_getLsbD_eq fun b hb => ?_
    rw [BitVec.getLsbD_and, BitVec.getLsbD_and, hrest b hb, hlow b hb]
    rcases Nat.lt_trichotomy b 15 with hlt | rfl | hgt
    · simp [hlt, show b < 16 by omega]
    · rw [hclear]
      rfl
    · simp [show ¬ b < 15 by omega, show ¬ b < 16 by omega]

theorem shamt_eq (i : BitVec 32) : shamt i = Instruction.decodeExtra i .RFMT := by
  apply BitVec.eq_of_toNat_eq
  have hlow := toNat_sshiftRight_and i (n := 6) (k := 5) (by omega)
  have hand : (i >>> 6 &&& (0x1f : BitVec 32)).toNat = (i >>> 6).toNat % 2 ^ 5 := by
    rw [BitVec.toNat_and]
    exact Nat.and_two_pow_sub_one_eq_mod _ 5
  rw [shamt, Instruction.decodeExtra, hand]
  exact hlow

/-! ## Opcodes -/

theorem opcode_eq (i : BitVec 32) : (i.sshiftRight 26 &&& 0x3f).toNat = (i >>> 26).toNat := by
  have hlow := toNat_sshiftRight_and i (n := 26) (k := 6) (by omega)
  have hlt := i.isLt
  rw [Nat.mod_eq_of_lt (by rw [BitVec.toNat_ushiftRight, Nat.shiftRight_eq_div_pow]; omega)] at hlow
  exact hlow

theorem opcode_lt (i : BitVec 32) : (i >>> 26).toNat < 64 := by
  have hlt := i.isLt
  rw [BitVec.toNat_ushiftRight, Nat.shiftRight_eq_div_pow]
  omega

theorem funct_lt (i : BitVec 32) : (i &&& 0x3f).toNat < 64 := by
  rw [BitVec.toNat_and]
  exact Nat.lt_of_le_of_lt Nat.and_le_right (by decide)

/-- The opcode in the tables of the simulator of `machine/`, for a case of the interpreter. That
simulator does not implement `BREAK`; the interpreter does. -/
def Case.decoded : Option Case → OpCode
  | some (.op opCode) => opCode
  | some .BREAK => .UNIMP
  | some .coprocessor => .UNIMP
  | none => .RES

/-- The opcodes that are implemented at all. -/
def Implemented (opCode : OpCode) : Prop := opCode ≠ .UNIMP ∧ opCode ≠ .RES

instance (opCode : OpCode) : Decidable (Implemented opCode) := inferInstanceAs (Decidable (_ ∧ _))

theorem Case.eq_of_decoded {c : Option Case} (h : Implemented (Case.decoded c)) :
    c = some (.op (Case.decoded c)) := by
  cases c with
  | none => exact absurd rfl h.2
  | some c =>
      cases c with
      | op opCode => rfl
      | BREAK => exact absurd rfl h.1
      | coprocessor => exact absurd rfl h.1

/-- The format of the instructions with an opcode. -/
def formatOf : OpCode → Format
  | .J | .JAL => .JFMT
  | .SLL | .SRL | .SRA | .SLLV | .SRLV | .SRAV | .JR | .JALR | .SYSCALL | .MFHI | .MTHI | .MFLO
  | .MTLO | .MULT | .MULTU | .DIV | .DIVU | .ADD | .ADDU | .SUB | .SUBU | .AND | .OR | .XOR | .NOR
  | .SLT | .SLTU => .RFMT
  | _ => .IFMT

/-- The tables of the two programs agree. -/
theorem normal_eq : ∀ n < 64, 2 ≤ n → opTable.getD n (.imm .RES) =
    .op (Case.decoded (normalOps.lookup n)) (formatOf (Case.decoded (normalOps.lookup n))) := by
  decide

theorem special_eq : ∀ n < 64, specialTable.getD n .RES = Case.decoded (specialOps.lookup n) ∧
    (Implemented (specialTable.getD n .RES) → formatOf (specialTable.getD n .RES) = .RFMT) := by
  decide

/-- The field that tells the `BCOND` instructions apart. -/
theorem and_rt_eq_iff (i : BitVec 32) {n : ℕ} (hn : n < 32) :
    i &&& 0x1f0000 = BitVec.ofNat 32 (n * 2 ^ 16) ↔ (rt i : ℕ) = n := by
  have hand : (i &&& 0x1f0000).toNat = (i.toNat / 2 ^ 16 % 2 ^ 5) * 2 ^ 16 := by
    apply Nat.eq_of_testBit_eq
    intro b
    rw [BitVec.toNat_and, Nat.testBit_and, Nat.testBit_mul_two_pow, Nat.testBit_mod_two_pow,
      Nat.testBit_div_two_pow,
      show (0x1f0000 : BitVec 32).toNat = (2 ^ 5 - 1) * 2 ^ 16 from rfl, Nat.testBit_mul_two_pow,
      Nat.testBit_two_pow_sub_one]
    by_cases hb : 16 ≤ b
    · simp [hb, Bool.and_comm]
    · simp [hb]
  have hfield : (rt i : ℕ) = i.toNat / 2 ^ 16 % 2 ^ 5 := by
    rw [rt_eq]
    simp [Instruction.decode, Instruction.field, Fin.ofNat, BitVec.toNat_ushiftRight,
      Nat.shiftRight_eq_div_pow]
  have hnumber : (BitVec.ofNat 32 (n * 2 ^ 16)).toNat = n * 2 ^ 16 := by
    rw [BitVec.toNat_ofNat]
    exact Nat.mod_eq_of_lt (by omega)
  rw [hfield, ← BitVec.toNat_inj, hand, hnumber]
  omega

theorem bcond_eq (i : BitVec 32) :
    Case.decoded (bcondOps.lookup (rt i).val) = Instruction.decodeBranch i ∧
        formatOf (Instruction.decodeBranch i) = .IFMT ∨
      bcondOps.lookup (rt i).val = none ∧ Instruction.decodeBranch i = .UNIMP := by
  have h₀ := and_rt_eq_iff i (n := 0) (by omega)
  have h₁ := and_rt_eq_iff i (n := 1) (by omega)
  have h₁₆ := and_rt_eq_iff i (n := 16) (by omega)
  have h₁₇ := and_rt_eq_iff i (n := 17) (by omega)
  have hnone : ∀ n < 32, n ≠ 0 → n ≠ 1 → n ≠ 16 → n ≠ 17 → bcondOps.lookup n = none := by decide
  simp only [Nat.reduceMul, Nat.reducePow] at h₀ h₁ h₁₆ h₁₇
  simp only [Instruction.decodeBranch]
  split_ifs with hzero hone hsixteen hseventeen
  · rw [h₀.mp hzero]
    exact .inl ⟨rfl, rfl⟩
  · rw [h₁.mp hone]
    exact .inl ⟨rfl, rfl⟩
  · rw [h₁₆.mp hsixteen]
    exact .inl ⟨rfl, rfl⟩
  · rw [h₁₇.mp hseventeen]
    exact .inl ⟨rfl, rfl⟩
  · exact .inr ⟨hnone _ (rt i).isLt (mt h₀.mpr hzero) (mt h₁.mpr hone) (mt h₁₆.mpr hsixteen)
      (mt h₁₇.mpr hseventeen), rfl⟩

/-- The word as the interpreter takes it apart. -/
structure SameWord (i : BitVec 32) (instr : Instruction) : Prop where
  case : caseOf i = some (.op instr.opCode)
  rs : rs i = instr.rs
  rt : rt i = instr.rt
  rd : rd i = instr.rd
  extra : instr.extra = match formatOf instr.opCode with
    | .IFMT => immed i
    | .RFMT => shamt i
    | .JFMT => i &&& 0x03ffffff

/-- The opcode, and the field `extra` that comes with it. -/
theorem decode_cases (i : BitVec 32) :
    (Instruction.decode i).opCode = Case.decoded (caseOf i) ∧
        (Implemented (Instruction.decode i).opCode → (Instruction.decode i).extra =
          Instruction.decodeExtra i (formatOf (Instruction.decode i).opCode)) ∨
      ¬ Implemented (Instruction.decode i).opCode ∧ ¬ Implemented (Case.decoded (caseOf i)) := by
  simp only [Instruction.decode, caseOf, opcode_eq]
  by_cases hspecial : (i >>> 26).toNat = 0
  · obtain ⟨hcase, hformat⟩ := special_eq _ (funct_lt i)
    rw [hspecial, if_pos rfl]
    exact .inl ⟨hcase, fun h => congrArg _ (hformat h).symm⟩
  · rw [if_neg hspecial]
    by_cases hbcond : (i >>> 26).toNat = 1
    · rw [hbcond, if_pos rfl]
      obtain ⟨hcase, hformat⟩ | ⟨hcase, hbranch⟩ := bcond_eq i
      · exact .inl ⟨hcase.symm, fun _ => congrArg _ hformat.symm⟩
      · refine .inr ⟨?_, ?_⟩
        · show ¬ Implemented (Instruction.decodeBranch i)
          rw [hbranch]
          decide
        · rw [hcase]
          decide
    · rw [if_neg hbcond, normal_eq _ (opcode_lt i) (by omega)]
      exact .inl ⟨rfl, fun _ => rfl⟩

/-- The tables implement the same words, with the same opcode and the same fields. -/
theorem sameWord_iff (i : BitVec 32) :
    (Implemented (Instruction.decode i).opCode ↔ Implemented (Case.decoded (caseOf i))) ∧
      (Implemented (Instruction.decode i).opCode → SameWord i (Instruction.decode i)) := by
  obtain ⟨hopcode, hextra⟩ | ⟨hleft, hright⟩ := decode_cases i
  · refine ⟨by rw [hopcode], fun h => ⟨?_, rs_eq i, rt_eq i, rd_eq i, ?_⟩⟩
    · rw [hopcode] at h ⊢
      exact Case.eq_of_decoded h
    · rw [hextra h]
      cases formatOf (Instruction.decode i).opCode with
      | IFMT => exact (immed_eq i).symm
      | RFMT => exact (shamt_eq i).symm
      | JFMT => rfl
  · exact ⟨iff_of_false hleft hright, fun h => absurd h hleft⟩

/-! ## Refused words -/

/-- The word of a breakpoint: `I_SPECIAL` with `I_BREAK`. -/
def IsBreak (i : BitVec 32) : Prop := (i >>> 26).toNat = 0 ∧ (i &&& 0x3f).toNat = 0o15

theorem caseOf_eq_break_iff (i : BitVec 32) : caseOf i = some .BREAK ↔ IsBreak i := by
  have hspecial : ∀ n < 64, specialOps.lookup n = some .BREAK ↔ n = 0o15 := by decide
  have hbcond : ∀ n < 32, bcondOps.lookup n ≠ some .BREAK := by decide
  have hnormal : ∀ n < 64, normalOps.lookup n ≠ some .BREAK := by decide
  simp only [caseOf, opcode_eq, IsBreak]
  split_ifs with hzero hone
  · rw [hspecial _ (funct_lt i), hzero]
    simp
  · exact iff_of_false (hbcond _ (rt i).isLt) fun h => hzero h.1
  · exact iff_of_false (hnormal _ (opcode_lt i)) fun h => hzero h.1

/-- The interpreter does not call `u()`, nor does it miss a coprocessor. -/
def Accepted {α : Type} (x : Except Stop α) : Prop := x ≠ .error .unimplemented

namespace Accepted

variable {α β : Type} {x y : Except Stop α}

theorem ok (a : α) : Accepted (.ok a) := fun h => by cases h

theorem bind {f : α → Except Stop β} (hx : Accepted x) (hf : ∀ a, Accepted (f a)) :
    Accepted (x >>= f) := by
  cases x with
  | error stop => exact fun h => hx (congrArg _ (Except.error.inj h))
  | ok a => exact hf a

theorem ite {c : Prop} [Decidable c] (hx : Accepted x) (hy : Accepted y) :
    Accepted (if c then x else y) := by
  split
  · exact hx
  · exact hy

/-- Every access to the memory begins with its index. -/
theorem index (addr : BitVec 32) (size : ℕ) {f : ℕ → Except Stop α}
    (hf : ∀ i, Accepted (f i)) : Accepted (State.index addr size >>= f) := by
  refine bind ?_ hf
  exact ite (ok _) fun h => by cases h

theorem shiftReg (s : State) (i : BitVec 32) (f : BitVec 32 → ℕ → BitVec 32) :
    Accepted (s.shiftReg i f) := ite (ok _) fun h => by cases h

end Accepted

/-- The opcodes that the interpreter executes. -/
theorem accepted_of_case {i : BitVec 32} (xpc : BitVec 32) (s : State) {opCode : OpCode}
    (hcase : caseOf i = some (.op opCode)) (himplemented : Implemented opCode)
    (hswl : opCode ≠ .SWL) (hswr : opCode ≠ .SWR) : Accepted (execute i xpc s) := by
  rw [execute, hcase]
  cases opCode with
  | UNIMP => exact absurd rfl himplemented.1
  | RES => exact absurd rfl himplemented.2
  | SWL => exact absurd rfl hswl
  | SWR => exact absurd rfl hswr
  | SYSCALL => exact fun h => by cases h
  | SLLV | SRLV | SRAV => exact .shiftReg s i _
  | DIV | DIVU => exact .ite (fun h => by cases h) (.ok _)
  | LB | LBU | LH | LHU | LW | LWL | LWR =>
      exact .bind (.index _ _ fun _ => .ok _) fun _ => .ok _
  | SB | SH | SW => exact .index _ _ fun _ => .ok _
  | _ => exact .ok _

/-- A breakpoint is a system call to the interpreter. -/
theorem execute_break {i : BitVec 32} (h : IsBreak i) (xpc : BitVec 32) (s : State) :
    execute i xpc s = .error .systemTrap := by
  rw [execute, (caseOf_eq_break_iff i).mpr h]

theorem decode_break {i : BitVec 32} (h : IsBreak i) : (Instruction.decode i).opCode = .UNIMP := by
  simp only [Instruction.decode, h.1, h.2]
  rfl

/-- Of the words that `Decode` does not implement, the interpreter executes the breakpoints. -/
theorem refused_of_not_implemented {i : BitVec 32}
    (h : ¬ Implemented (Instruction.decode i).opCode) (hbreak : ¬ IsBreak i) (xpc : BitVec 32)
    (s : State) : execute i xpc s = .error .unimplemented := by
  have hcase := mt (sameWord_iff i).1.mpr h
  rw [execute]
  cases hword : caseOf i with
  | none => rfl
  | some c =>
      rw [hword] at hcase
      cases c with
      | BREAK => exact absurd ((caseOf_eq_break_iff i).mp hword) hbreak
      | coprocessor => rfl
      | op opCode =>
          cases opCode with
          | UNIMP | RES => rfl
          | _ => exact absurd (by decide) hcase

/-- **Both decoders.** A word that `Decode` implements is the same instruction to the interpreter,
with the same opcode and the same fields. The interpreter refuses the words that `Decode` does not
implement, but for breakpoints, which are system calls to it, and it refuses `SWL` and `SWR`. -/
theorem decoders_agree (i : BitVec 32) :
    (Implemented (Instruction.decode i).opCode → SameWord i (Instruction.decode i)) ∧
      (IsBreak i → (Instruction.decode i).opCode = .UNIMP ∧
        ∀ xpc s, execute i xpc s = .error .systemTrap) ∧
      ∀ xpc s, execute i xpc s = .error .unimplemented ↔
        (¬ Implemented (Instruction.decode i).opCode ∧ ¬ IsBreak i) ∨
          (Instruction.decode i).opCode = .SWL ∨ (Instruction.decode i).opCode = .SWR := by
  refine ⟨(sameWord_iff i).2, fun h => ⟨decode_break h, execute_break h⟩, fun xpc s => ⟨?_, ?_⟩⟩
  · intro hrefused
    by_cases himplemented : Implemented (Instruction.decode i).opCode
    · have hcase := ((sameWord_iff i).2 himplemented).case
      by_contra hnot
      push Not at hnot
      exact accepted_of_case xpc s hcase himplemented hnot.2.1 hnot.2.2 hrefused
    · refine .inl ⟨himplemented, fun hbreak => ?_⟩
      cases (execute_break hbreak xpc s).symm.trans hrefused
  · rintro (⟨hnot, hbreak⟩ | hstore | hstore)
    · exact refused_of_not_implemented hnot hbreak xpc s
    · have hcase := ((sameWord_iff i).2 (by rw [hstore]; decide)).case
      rw [execute, hcase, hstore]
    · have hcase := ((sameWord_iff i).2 (by rw [hstore]; decide)).case
      rw [execute, hcase, hstore]

end Execute

end Nachos
