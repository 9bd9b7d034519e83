/-
# Two simulators in step

A program that the machine of `machine/` executes without an exception is executed alike by the
interpreter of `bin/execute.c`, as long as it keeps to what both of them do. What the interpreter does
otherwise: it knows no delay after a load, takes the target of a branch from the address of the
branch and not from the delay slot, sign-extends the operand of a logical instruction, loses carries
of a product, and has no unaligned accesses.

Between two instructions the machine may have a load pending that the interpreter has done already,
so the states are compared as if it were completed.
-/

import Nachos.Bin.Decoding
import Nachos.Bin.Product
import Nachos.Machine.RegisterFile
import Nachos.Machine.LittleEndian

namespace Nachos

open Base
open Machine.Interrupted (gpr_ne)

attribute [local instance] Execute.neZero_registers

namespace Machine

/-- A general register, other than `0`, as it is when the pending load is completed. -/
def general (m : Machine) (r : Fin 32) : BitVec 32 :=
  if m.registers LoadReg = BitVec.ofNat 32 r then m.registers LoadValueReg
  else m.registers (gpr r)

/-- No load is pending for the register. -/
def Free (m : Machine) (r : Fin 32) : Prop := r = 0 ∨ m.registers LoadReg ≠ BitVec.ofNat 32 r

instance (m : Machine) (r : Fin 32) : Decidable (m.Free r) := inferInstanceAs (Decidable (_ ∨ _))

theorem general_writeRegister_of_ne (m : Machine) {r : Fin 32} {q : Fin NumTotalRegs}
    (value : BitVec 32) (hr : gpr r ≠ q) (hload : LoadReg ≠ q) (hvalue : LoadValueReg ≠ q) :
    (m.writeRegister q value).general r = m.general r := by
  rw [general, registers_writeRegister_of_ne m value hload,
    registers_writeRegister_of_ne m value hvalue, registers_writeRegister_of_ne m value hr, general]

/-- A general register that no load is pending for is written. -/
theorem general_writeRegister (m : Machine) {t : Fin 32} (value : BitVec 32) (hfree : m.Free t)
    {r : Fin 32} (hr : r ≠ 0) :
    (m.writeRegister (gpr t) value).general r = if r = t then value else m.general r := by
  by_cases hrt : r = t
  · subst hrt
    rw [if_pos rfl, general, registers_writeRegister_of_ne m value (gpr_ne (by decide)).symm,
      if_neg (hfree.resolve_left hr), registers_writeRegister_self]
  · rw [if_neg hrt]
    exact m.general_writeRegister_of_ne value (fun h => hrt (gpr_injective h))
      (gpr_ne (by decide)).symm (gpr_ne (by decide)).symm

theorem touch_store_sameMapping (m : Machine) (vpn : ℕ) (mainMemory : Mem) :
    m.SameMapping { m.touch vpn true with mainMemory } := by
  have htouch : m.SameMapping (m.touch vpn true) := touch_sameMapping m vpn
  exact ⟨htouch.pageTableSize, htouch.valid, htouch.readOnly, htouch.pageFrame⟩

theorem general_advance (m : Machine) (pcAfter : BitVec 32) (r : Fin 32) :
    (m.advance pcAfter).general r = m.general r := by
  rw [advance, general_writeRegister_of_ne _ _ (gpr_ne (by decide)) (by decide) (by decide),
    general_writeRegister_of_ne _ _ (gpr_ne (by decide)) (by decide) (by decide),
    general_writeRegister_of_ne _ _ (gpr_ne (by decide)) (by decide) (by decide)]

/-- The pending load is completed and another one left. -/
theorem general_completed (m : Machine) (nextReg nextValue : BitVec 32) {r : Fin 32} (hr : r ≠ 0) :
    { m with registers := m.completed nextReg nextValue }.general r =
      if nextReg = BitVec.ofNat 32 r then nextValue else m.general r := by
  have hzero : gpr r ≠ reg 0 := fun h => hr (gpr_injective h)
  have hpending : (gpr r : ℕ) = (m.registers LoadReg).toNat ↔
      m.registers LoadReg = BitVec.ofNat 32 r := by
    have hlt := r.isLt
    refine ⟨fun h => BitVec.eq_of_toNat_eq ?_, fun h => ?_⟩
    · rw [← h, BitVec.toNat_ofNat, Nat.mod_eq_of_lt (by omega)]
      rfl
    · rw [h, BitVec.toNat_ofNat, Nat.mod_eq_of_lt (by omega)]
      rfl
  have hreg : m.completed nextReg nextValue LoadReg = nextReg := by
    rw [completed, if_neg (by decide), if_neg (by decide), if_pos rfl]
  have hvalue : m.completed nextReg nextValue LoadValueReg = nextValue := by
    rw [completed, if_neg (by decide), if_pos rfl]
  have hgpr : m.completed nextReg nextValue (gpr r) = m.general r := by
    rw [completed, if_neg hzero, if_neg (gpr_ne (by decide)), if_neg (gpr_ne (by decide)), general]
    simp only [hpending]
  rw [general]
  simp only [hreg, hvalue, hgpr]

end Machine

namespace Execute

variable {m m' m₁ : Machine} {s s₁ : State} {after : After}

/-! ## States that agree -/

/-- The bytes that the machine maps are those of the interpreter. -/
structure SameMemory (m : Machine) (s : State) : Prop where
  framesDistinct : m.FramesDistinct
  inMemory : ∀ a, m.Maps a false → (a - memoffset).toNat < MEMSIZE
  byte : ∀ a, m.Maps a false → s.mem (a - memoffset).toNat = m.mainMemory (m.physAddr a)

/-- The states of the two simulators between two instructions. -/
structure Agrees (m : Machine) (s : State) : Prop where
  inv : m.RegisterInv
  memory : SameMemory m s
  general : ∀ r, r ≠ 0 → s.Reg r = m.general r
  hi : s.HI = m.registers HiReg
  lo : s.LO = m.registers LoReg
  pc : s.pc = m.registers PCReg
  npc : s.npc = m.registers NextPCReg

/-- The states when the instruction is fetched. -/
structure Ready (m : Machine) (s : State) : Prop where
  inv : m.RegisterInv
  memory : SameMemory m s
  general : ∀ r, r ≠ 0 → s.Reg r = m.general r
  zero : s.Reg 0 = 0
  hi : s.HI = m.registers HiReg
  lo : s.LO = m.registers LoReg
  pc : s.pc = m.registers NextPCReg
  npc : s.npc = m.registers NextPCReg + 4

/-- The states behind the `switch`. -/
structure Ends (after : After) (m : Machine) (s : State) : Prop where
  load : m.LoadsGeneral
  memory : SameMemory m s
  next : after.nextLoadReg.toNat < 32
  general : ∀ r : Fin 32, r ≠ 0 → s.Reg r =
    if after.nextLoadReg = BitVec.ofNat 32 r then after.nextLoadValue else m.general r
  hi : s.HI = m.registers HiReg
  lo : s.LO = m.registers LoReg
  pc : s.pc = m.registers NextPCReg
  npc : s.npc = after.pcAfter

theorem ofNat_inj {a b : Fin 32} : BitVec.ofNat 32 a = BitVec.ofNat 32 b ↔ a = b := by
  refine ⟨fun h => Fin.ext ?_, fun h => by rw [h]⟩
  have hvalue := congrArg BitVec.toNat h
  simp only [BitVec.toNat_ofNat] at hvalue
  omega

theorem zero_ne_ofNat {r : Fin 32} (h : r ≠ 0) : (0 : BitVec 32) ≠ BitVec.ofNat 32 r :=
  fun heq => h (ofNat_inj.mp heq.symm : r = 0)

/-- A register is found as it is when the load is completed. -/
theorem Ready.value (h : Ready m s) {r : Fin 32} (hfree : m.Free r) :
    m.registers (gpr r) = s.Reg r := by
  by_cases hr : r = 0
  · rw [hr, h.zero]
    exact h.inv.zero
  · rw [h.general r hr, Machine.general, if_neg (hfree.resolve_left hr)]

/-- Setting use and dirty bits changes nothing. -/
theorem SameMemory.congr (h : SameMemory m s) (hsame : m.SameMapping m')
    (hmemory : m'.mainMemory = m.mainMemory) (hmem : s₁.mem = s.mem) : SameMemory m' s₁ where
  framesDistinct := hsame.framesDistinct h.framesDistinct
  inMemory a ha := h.inMemory a (hsame.maps_iff.mp ha)
  byte a ha := by
    rw [hmem, hmemory, hsame.physAddr]
    exact h.byte a (hsame.maps_iff.mp ha)

theorem Ready.congr (h : Ready m s) (hsame : m.SameMapping m')
    (hmemory : m'.mainMemory = m.mainMemory) (hregs : m'.registers = m.registers) : Ready m' s where
  inv := h.inv.congr hregs
  memory := h.memory.congr hsame hmemory rfl
  general r hr := by
    rw [h.general r hr, Machine.general, Machine.general, hregs]
  zero := h.zero
  hi := by rw [hregs, h.hi]
  lo := by rw [hregs, h.lo]
  pc := by rw [hregs, h.pc]
  npc := by rw [hregs, h.npc]

/-- Writing a register leaves the memory. -/
theorem SameMemory.writeRegister (h : SameMemory m s) (r : Fin NumTotalRegs) (value : BitVec 32)
    (hmem : s₁.mem = s.mem) : SameMemory (m.writeRegister r value) s₁ :=
  h.congr ⟨rfl, fun _ => rfl, fun _ => rfl, fun _ => rfl⟩ rfl hmem

/-! ## The end of an instruction -/

/-- **The end of `OneInstruction`.** -/
theorem Ends.retire (h : Ends after m s) :
    ∃ m', Cpu.retire after m = .ok ((), m') ∧ Agrees m' s := by
  have hcompletes := h.load.completesLoad after.nextLoadReg after.nextLoadValue
  have hframe (r : Fin NumTotalRegs) (hr : 32 ≤ (r : ℕ)) (hload : r ≠ LoadReg ∧ r ≠ LoadValueReg) :
      m.completed after.nextLoadReg after.nextLoadValue r = m.registers r :=
    hcompletes.frame r hr hload.1 hload.2
  have hother (c : Machine) (r : Fin NumTotalRegs)
      (hr : r ≠ PrevPCReg ∧ r ≠ PCReg ∧ r ≠ NextPCReg) :
      (c.advance after.pcAfter).registers r = c.registers r := by
    rw [Machine.advance, Machine.registers_writeRegister_of_ne _ _ hr.2.2,
      Machine.registers_writeRegister_of_ne _ _ hr.2.1,
      Machine.registers_writeRegister_of_ne _ _ hr.1]
  obtain ⟨c, hc⟩ : ∃ c : Machine,
      c = { m with registers := m.completed after.nextLoadReg after.nextLoadValue } := ⟨_, rfl⟩
  have hregs (r : Fin NumTotalRegs) :
      c.registers r = m.completed after.nextLoadReg after.nextLoadValue r := by rw [hc]
  refine ⟨c.advance after.pcAfter, by rw [Cpu.retire_eq, hcompletes.call, hc]; rfl, ?_⟩
  exact
    { inv := by
        rw [hc]
        exact (hcompletes.inv h.next).advance after.pcAfter
      memory := by
        rw [hc]
        exact h.memory.congr ⟨rfl, fun _ => rfl, fun _ => rfl, fun _ => rfl⟩ rfl rfl
      general := fun r hr => by
        rw [h.general r hr, Machine.general_advance, hc, m.general_completed _ _ hr]
      hi := by
        rw [h.hi, hother c HiReg (by decide), hregs, hframe HiReg (by decide) (by decide)]
      lo := by
        rw [h.lo, hother c LoReg (by decide), hregs, hframe LoReg (by decide) (by decide)]
      pc := by
        rw [h.pc, Machine.advance, Machine.registers_writeRegister_of_ne _ _ (by decide),
          Machine.registers_writeRegister_self, hregs, hframe NextPCReg (by decide) (by decide)]
      npc := h.npc.trans (Machine.registers_writeRegister_self ..).symm }

/-! ## Results -/

theorem State.Reg_set (s : State) (t r : Fin 32) (value : BitVec 32) :
    (s.set t value).Reg r = if r = t then value else s.Reg r := Function.update_apply ..

/-- The instruction has done nothing yet. -/
theorem Ready.ends (h : Ready m s) : Ends ⟨m.registers NextPCReg + 4, 0, 0⟩ m s where
  load := h.inv.load
  memory := h.memory
  next := show (0 : BitVec 32).toNat < 32 by decide
  general r hr := by rw [if_neg (zero_ne_ofNat hr), h.general r hr]
  hi := h.hi
  lo := h.lo
  pc := h.pc
  npc := h.npc

/-- A general register is written. -/
theorem Ends.set {pcAfter : BitVec 32} (h : Ends ⟨pcAfter, 0, 0⟩ m s) {t : Fin 32}
    (hfree : m.Free t) (value : BitVec 32) :
    Ends ⟨pcAfter, 0, 0⟩ (m.writeRegister (gpr t) value) (s.set t value) where
  load := (Machine.loadsGeneral_writeRegister value
    (Nat.ne_of_lt (Nat.lt_trans t.isLt (by decide)))).mpr h.load
  memory := h.memory.writeRegister _ _ rfl
  next := h.next
  general r hr := by
    have hs := h.general r hr
    rw [if_neg (zero_ne_ofNat hr)] at hs ⊢
    rw [m.general_writeRegister value hfree hr, s.Reg_set, hs]
  hi := h.hi.trans (Machine.registers_writeRegister_of_ne m value (gpr_ne (by decide)).symm).symm
  lo := h.lo.trans (Machine.registers_writeRegister_of_ne m value (gpr_ne (by decide)).symm).symm
  pc := h.pc.trans (Machine.registers_writeRegister_of_ne m value (gpr_ne (by decide)).symm).symm
  npc := h.npc

/-- Control goes elsewhere. -/
theorem Ends.jump (h : Ends after m s) (npc : BitVec 32) :
    Ends { after with pcAfter := npc } m { s with npc } :=
  ⟨h.load, h.memory.congr (.refl m) rfl rfl, h.next, h.general, h.hi, h.lo, h.pc, rfl⟩

theorem Ends.setHi (h : Ends after m s) (value : BitVec 32) :
    Ends after (m.writeRegister HiReg value) { s with HI := value } where
  load := (Machine.loadsGeneral_writeRegister value (by decide)).mpr h.load
  memory := h.memory.writeRegister HiReg value rfl
  next := h.next
  general r hr := by
    rw [m.general_writeRegister_of_ne _ (gpr_ne (by decide)) (by decide) (by decide)]
    exact h.general r hr
  hi := (Machine.registers_writeRegister_self ..).symm
  lo := h.lo
  pc := h.pc
  npc := h.npc

theorem Ends.setLo (h : Ends after m s) (value : BitVec 32) :
    Ends after (m.writeRegister LoReg value) { s with LO := value } where
  load := (Machine.loadsGeneral_writeRegister value (by decide)).mpr h.load
  memory := h.memory.writeRegister LoReg value rfl
  next := h.next
  general r hr := by
    rw [m.general_writeRegister_of_ne _ (gpr_ne (by decide)) (by decide) (by decide)]
    exact h.general r hr
  hi := h.hi
  lo := (Machine.registers_writeRegister_self ..).symm
  pc := h.pc
  npc := h.npc

/-- A load is left for the machine, and done by the interpreter. -/
theorem Ends.loaded {pcAfter : BitVec 32} (h : Ends ⟨pcAfter, 0, 0⟩ m s) (t : Fin 32)
    (value : BitVec 32) : Ends ⟨pcAfter, BitVec.ofNat 32 t, value⟩ m (s.set t value) where
  load := h.load
  memory := h.memory.congr (.refl m) rfl rfl
  next := by
    have hlt := t.isLt
    show (BitVec.ofNat 32 t).toNat < 32
    rw [BitVec.toNat_ofNat, Nat.mod_eq_of_lt (by omega)]
    exact hlt
  general r hr := by
    have hs := h.general r hr
    rw [if_neg (zero_ne_ofNat hr)] at hs
    rw [s.Reg_set, hs]
    simp only [ofNat_inj, eq_comm]
  hi := h.hi
  lo := h.lo
  pc := h.pc
  npc := h.npc

/-- A register other than `0` is written, and the instruction goes on. -/
theorem Ready.write (h : Ready m s) {t : Fin 32} (ht : t ≠ 0) (hfree : m.Free t)
    (value : BitVec 32) : Ready (m.writeRegister (gpr t) value) (s.set t value) where
  inv := h.inv.writeRegister value (fun heq => ht (Fin.ext heq))
    (Nat.ne_of_lt (Nat.lt_trans t.isLt (by decide)))
  memory := h.memory.writeRegister _ _ rfl
  general r hr := by
    rw [m.general_writeRegister value hfree hr, s.Reg_set, h.general r hr]
  zero := (Function.update_of_ne (Ne.symm ht) ..).trans h.zero
  hi := h.hi.trans (Machine.registers_writeRegister_of_ne m value (gpr_ne (by decide)).symm).symm
  lo := h.lo.trans (Machine.registers_writeRegister_of_ne m value (gpr_ne (by decide)).symm).symm
  pc := h.pc.trans (Machine.registers_writeRegister_of_ne m value (gpr_ne (by decide)).symm).symm
  npc := by
    rw [Machine.registers_writeRegister_of_ne m value (gpr_ne (by decide)).symm]
    exact h.npc

/-! ## Memory -/

/-- An aligned address has its bytes side by side in the memory of the interpreter too. -/
theorem toNat_add_sub_memoffset {a : BitVec 32} {size : Width} (halign : a.toNat % size.bytes = 0)
    {i : ℕ} (hi : i < size.bytes) :
    (a + BitVec.ofNat 32 i - memoffset).toNat = (a - memoffset).toNat + i := by
  have halign' : (a - memoffset).toNat % size.bytes = 0 := by
    rw [BitVec.toNat_sub, show memoffset.toNat = 2 ^ 28 from rfl]
    cases size <;> simp only [Width.bytes] at halign ⊢ <;> omega
  rw [← Machine.toNat_add_of_aligned halign' hi]
  congr 1
  bv_omega

/-- **An access** to mapped bytes is within the bounds of the interpreter's memory. -/
theorem SameMemory.access (h : SameMemory m s) {a : BitVec 32} {size : Width}
    (halign : a.toNat % size.bytes = 0) (hmaps : m.Maps a false) :
    State.index a size.bytes = .ok (a - memoffset).toNat ∧
      ∀ i < size.bytes, s.mem ((a - memoffset).toNat + i) = m.mainMemory (m.physAddr a + i) := by
  have hbyte (i : ℕ) (hi : i < size.bytes) := Machine.maps_add_of_aligned halign hi hmaps
  refine ⟨?_, fun i hi => ?_⟩
  · have hpos : size.bytes - 1 < size.bytes := by cases size <;> decide
    have hlast := h.inMemory _ (hbyte _ hpos)
    rw [toNat_add_sub_memoffset halign hpos] at hlast
    rw [State.index, if_pos (by omega)]
  · rw [← toNat_add_sub_memoffset halign hi, ← Machine.physAddr_add_of_aligned m halign hi]
    exact h.byte _ (hbyte i hi)

/-- What is loaded depends on the bytes only. -/
theorem load_eq {mem mem' : Mem} {pa pa' : ℕ} {size : Width}
    (h : ∀ i < size.bytes, mem (pa + i) = mem' (pa' + i)) :
    Machine.load mem pa size = Machine.load mem' pa' size := by
  cases size with
  | byte =>
      have h₀ : mem pa = mem' pa' := h 0 (by decide)
      rw [Machine.load, Machine.load, h₀]
  | half =>
      have h₀ : mem pa = mem' pa' := h 0 (by decide)
      rw [Machine.load, Machine.load, h₀, h 1 (by decide)]
  | word => exact Mem.word_congr h

/-- The bytes of a store. -/
theorem store_at (mem : Mem) (pa : ℕ) (value : BitVec 32) {size : Width} {i : ℕ}
    (hi : i < size.bytes) :
    Machine.store mem pa value size (pa + i) = UInt8.ofNat (value.toNat / 256 ^ i) := by
  cases size with
  | byte =>
      obtain rfl : i = 0 := by simpa [Width.bytes] using hi
      rw [Machine.store, Nat.add_zero, Mem.setByte_self, Nat.pow_zero, Nat.div_one]
  | half =>
      obtain rfl | rfl : i = 0 ∨ i = 1 := by
        simp only [Width.bytes] at hi
        omega
      · rw [Machine.store, Mem.setByte_of_ne _ _ (by omega), Nat.add_zero, Mem.setByte_self,
          Nat.pow_zero, Nat.div_one]
      · rw [Machine.store, Mem.setByte_self, Nat.pow_one]
  | word =>
      simp only [Width.bytes] at hi
      rw [Machine.store, Mem.setWord, if_pos (by omega), Nat.add_sub_cancel_left]

/-- **A store** to mapped bytes. -/
theorem SameMemory.store {t : State} (h : SameMemory m s) {a : BitVec 32} {size : Width}
    (halign : a.toNat % size.bytes = 0) (hmaps : m.Maps a false) (hsame : m.SameMapping m')
    (value : BitVec 32) (hmemory : m'.mainMemory =
      Machine.store m.mainMemory (m.physAddr a) value size)
    (hmem : t.mem = Machine.store s.mem (a - memoffset).toNat value size) : SameMemory m' t where
  framesDistinct := hsame.framesDistinct h.framesDistinct
  inMemory b hb := h.inMemory b (hsame.maps_iff.mp hb)
  byte b hb := by
    have hmapsb := hsame.maps_iff.mp hb
    rw [hmem, hmemory, hsame.physAddr]
    by_cases hin : ∃ i < size.bytes, b = a + BitVec.ofNat 32 i
    · obtain ⟨i, hi, rfl⟩ := hin
      rw [toNat_add_sub_memoffset halign hi, Machine.physAddr_add_of_aligned m halign hi,
        store_at _ _ _ hi, store_at _ _ _ hi]
    · rw [Machine.store_of_not_mem _ _ _ fun i hi heq => hin ⟨i, hi, ?_⟩,
        Machine.store_of_not_mem _ _ _ fun i hi heq => hin ⟨i, hi, ?_⟩, h.byte b hmapsb]
      · rw [← Machine.physAddr_add_of_aligned m halign hi] at heq
        exact Machine.physAddr_injective h.framesDistinct hmapsb
          (Machine.maps_add_of_aligned halign hi hmaps) heq
      · rw [← toNat_add_sub_memoffset halign hi] at heq
        have hequal := BitVec.eq_of_toNat_eq heq
        bv_omega

/-- Behind a store. -/
theorem Ends.writeMem (h : Ends after m s) (hregs : m'.registers = m.registers) {mem : Mem}
    (hmemory : SameMemory m' { s with mem }) : Ends after m' { s with mem } where
  load := by
    rw [Machine.LoadsGeneral, hregs]
    exact h.load
  memory := hmemory
  next := h.next
  general r hr := by
    rw [Machine.general, hregs]
    exact h.general r hr
  hi := by rw [hregs, ← h.hi]
  lo := by rw [hregs, ← h.lo]
  pc := by rw [hregs, ← h.pc]
  npc := h.npc

/-! ## The families of instructions -/

/-- What the machine does, if it raises no exception, the interpreter does. -/
def Answered (x : Except Trap (After × Machine)) (y : Except Stop State) : Prop :=
  ∀ after m₁, x = .ok (after, m₁) → ∃ s₁, y = .ok s₁ ∧ Ends after m₁ s₁

theorem Answered.of_ends {a : After} {n : Machine} {t : State} (h : Ends a n t) :
    Answered (.ok (a, n)) (.ok t) := by
  intro _ _ hok
  cases hok
  exact ⟨t, rfl, h⟩

theorem Answered.of_error (trap : Trap) (y : Except Stop State) : Answered (.error trap) y := by
  intro _ _ hok
  cases hok

theorem raise_eq_error {α : Type} (which : ExceptionType) (addr : BitVec 32) (m : Machine) :
    ∃ trap, (Cpu.raise which addr : Cpu α) m = .error trap := by
  rw [Cpu.raise]
  cases (m.writeRegister BadVAddrReg addr).delayedLoad 0 0 with
  | ok m' => exact ⟨_, rfl⟩
  | error fault => exact ⟨_, rfl⟩

theorem Answered.raise {which : ExceptionType} {addr : BitVec 32} {y : Except Stop State} :
    Answered (Cpu.raise which addr m) y := by
  obtain ⟨trap, htrap⟩ := raise_eq_error (α := After) which addr m
  rw [htrap]
  exact .of_error trap y

section Families

variable {raw : BitVec 32} {instr : Instruction}

theorem Ready.three (h : Ready m s) (hword : SameWord raw instr) (hs : m.Free instr.rs)
    (ht : m.Free instr.rt) (hd : m.Free instr.rd) {f g : BitVec 32 → BitVec 32 → BitVec 32}
    (hfg : f (s.Reg instr.rs) (s.Reg instr.rt) = g (s.Reg instr.rs) (s.Reg instr.rt)) :
    Answered (instr.threeReg (m.registers NextPCReg + 4) f m) (s.three raw g) := by
  have hresult := h.ends.set hd (f (s.Reg instr.rs) (s.Reg instr.rt))
  rw [State.three, hword.rs, hword.rt, hword.rd, ← hfg]
  refine .of_ends (n := m.writeRegister (gpr instr.rd) (f (m.registers (gpr instr.rs))
    (m.registers (gpr instr.rt)))) ?_
  rwa [h.value hs, h.value ht]

theorem Ready.threeTrap (h : Ready m s) (hword : SameWord raw instr) (hs : m.Free instr.rs)
    (ht : m.Free instr.rt) (hd : m.Free instr.rd) {f : BitVec 32 → BitVec 32 → BitVec 32}
    {overflow : BitVec 32 → BitVec 32 → BitVec 32 → Bool} :
    Answered (instr.threeRegTrap (m.registers NextPCReg + 4) f overflow m) (s.three raw f) := by
  by_cases htrap : overflow (m.registers (gpr instr.rs)) (m.registers (gpr instr.rt))
      (f (m.registers (gpr instr.rs)) (m.registers (gpr instr.rt)))
  · rw [show instr.threeRegTrap (m.registers NextPCReg + 4) f overflow m =
      Cpu.raise .overflowException 0 m from congrFun (if_pos htrap) m]
    exact .raise
  · rw [show instr.threeRegTrap (m.registers NextPCReg + 4) f overflow m =
      instr.threeReg (m.registers NextPCReg + 4) f m from congrFun (if_neg htrap) m]
    exact h.three hword hs ht hd rfl

theorem Ready.immediate (h : Ready m s) (hword : SameWord raw instr) (hs : m.Free instr.rs)
    (ht : m.Free instr.rt) (himmed : immed raw = instr.extra)
    {f g : BitVec 32 → BitVec 32 → BitVec 32}
    (hfg : f (s.Reg instr.rs) instr.extra = g (s.Reg instr.rs) instr.extra) :
    Answered (instr.immediate (m.registers NextPCReg + 4) f m) (s.immediate raw g) := by
  have hresult := h.ends.set ht (f (s.Reg instr.rs) instr.extra)
  rw [State.immediate, hword.rs, hword.rt, himmed, ← hfg]
  refine .of_ends (n := m.writeRegister (gpr instr.rt) (f (m.registers (gpr instr.rs))
    instr.extra)) ?_
  rwa [h.value hs]

theorem Ready.shift (h : Ready m s) (hword : SameWord raw instr) (ht : m.Free instr.rt)
    (hd : m.Free instr.rd) (hshamt : shamt raw = instr.extra) (f : BitVec 32 → ℕ → BitVec 32) :
    Answered (instr.shift (m.registers NextPCReg + 4) f m) (s.shift raw f) := by
  have hresult := h.ends.set hd (f (s.Reg instr.rt) instr.extra.toNat)
  rw [State.shift, hword.rt, hword.rd, hshamt]
  refine .of_ends (n := m.writeRegister (gpr instr.rd) (f (m.registers (gpr instr.rt))
    instr.extra.toNat)) ?_
  rwa [h.value ht]

/-- A shift by a register, if it is one. -/
theorem Ready.shiftReg (h : Ready m s) (hword : SameWord raw instr) (hs : m.Free instr.rs)
    (ht : m.Free instr.rt) (hd : m.Free instr.rd) (hlt : (s.Reg instr.rs).toNat < 32)
    (f : BitVec 32 → ℕ → BitVec 32) :
    Answered (instr.threeReg (m.registers NextPCReg + 4) (fun a b => f b (a &&& 0x1f).toNat) m)
      (s.shiftReg raw f) := by
  have hcount : (s.Reg instr.rs &&& 0x1f).toNat = (s.Reg instr.rs).toNat := by
    rw [BitVec.toNat_and]
    exact (Nat.and_two_pow_sub_one_eq_mod _ 5).trans (Nat.mod_eq_of_lt hlt)
  rw [State.shiftReg, hword.rs, if_pos hlt, ← hword.rs]
  exact h.three (g := fun a b => f b a.toNat) hword hs ht hd (by rw [hcount])

/-- A branch, of which the target is that of the interpreter. -/
theorem Ready.branchTo (h : Ready m s) {xpc : BitVec 32}
    (htarget : m.registers NextPCReg = xpc + 4) (himmed : immed raw = instr.extra)
    {taken taken' : Bool} (hequal : taken = taken') :
    Answered (.ok (⟨if taken then m.registers NextPCReg + Instruction.indexToAddr instr.extra
      else m.registers NextPCReg + 4, 0, 0⟩, m)) (s.branch raw xpc taken') := by
  subst hequal
  rw [State.branch, himmed]
  cases taken with
  | false => exact .of_ends h.ends
  | true =>
      refine .of_ends ?_
      have hjump := h.ends.jump (m.registers NextPCReg + Instruction.indexToAddr instr.extra)
      rw [htarget] at hjump ⊢
      exact hjump

theorem Ready.branch (h : Ready m s) (hword : SameWord raw instr) (hs : m.Free instr.rs)
    {xpc : BitVec 32} (htarget : m.registers NextPCReg = xpc + 4) (himmed : immed raw = instr.extra)
    (c : BitVec 32 → Bool) :
    Answered (instr.branch (m.registers NextPCReg + 4) c m)
      (s.branch raw xpc (c (s.Reg (rs raw)))) :=
  h.branchTo htarget himmed (by rw [h.value hs, hword.rs])

theorem Ready.branchTwo (h : Ready m s) (hword : SameWord raw instr) (hs : m.Free instr.rs)
    (ht : m.Free instr.rt) {xpc : BitVec 32} (htarget : m.registers NextPCReg = xpc + 4)
    (himmed : immed raw = instr.extra) (c : BitVec 32 → BitVec 32 → Bool) :
    Answered (instr.branchTwo (m.registers NextPCReg + 4) c m)
      (s.branch raw xpc (c (s.Reg (rs raw)) (s.Reg (rt raw)))) :=
  h.branchTo htarget himmed (by rw [h.value hs, h.value ht, hword.rs, hword.rt])

/-- The link register is written before the condition is read. -/
theorem Ready.branchLink (h : Ready m s) (hword : SameWord raw instr) (hs : m.Free instr.rs)
    (hlink : m.Free 31) {xpc : BitVec 32} (htarget : m.registers NextPCReg = xpc + 4)
    (himmed : immed raw = instr.extra) (c : BitVec 32 → Bool) :
    Answered ((do Instruction.link R31; instr.branch (m.registers NextPCReg + 4) c : Cpu After) m)
      ((s.set 31 (xpc + 8)).branch raw xpc (c ((s.set 31 (xpc + 8)).Reg (rs raw)))) := by
  have hvalue : m.registers NextPCReg + 4 = xpc + 8 := by
    rw [htarget]
    bv_omega
  have hwrite : Ready (m.writeRegister (gpr 31) (xpc + 8)) (s.set 31 (xpc + 8)) :=
    h.write (by decide) hlink _
  have hnext : (m.writeRegister (gpr 31) (xpc + 8)).registers NextPCReg = m.registers NextPCReg :=
    Machine.registers_writeRegister_of_ne _ _ (gpr_ne (by decide)).symm
  have hfree : (m.writeRegister (gpr 31) (xpc + 8)).Free instr.rs := by
    rwa [Machine.Free, Machine.registers_writeRegister_of_ne _ _ (gpr_ne (by decide)).symm]
  have hbranch := hwrite.branch hword hfree (hnext.trans htarget) himmed c
  rw [hnext, ← hvalue] at hbranch
  rw [← hvalue]
  exact hbranch

/-- A move to a general register. -/
theorem Ready.moveFrom (h : Ready m s) (hword : SameWord raw instr) (hd : m.Free instr.rd)
    {src : Fin NumTotalRegs} {value : BitVec 32} (hvalue : m.registers src = value) :
    Answered (Instruction.move (m.registers NextPCReg + 4) (gpr instr.rd) src m)
      (.ok (s.set (rd raw) value)) := by
  rw [hword.rd, ← hvalue]
  exact .of_ends (h.ends.set hd _)

theorem Ready.hiLo (h : Ready m s) (hs : m.Free instr.rs) (ht : m.Free instr.rt)
    {f : BitVec 32 → BitVec 32 → BitVec 32 × BitVec 32} {hi lo : BitVec 32}
    (hresult : f (s.Reg instr.rs) (s.Reg instr.rt) = (hi, lo)) :
    Answered (instr.hiLo (m.registers NextPCReg + 4) f m) (.ok { s with HI := hi, LO := lo }) := by
  refine .of_ends (n := (m.writeRegister HiReg (f (m.registers (gpr instr.rs))
    (m.registers (gpr instr.rt))).1).writeRegister LoReg (f (m.registers (gpr instr.rs))
      (m.registers (gpr instr.rt))).2) ?_
  rw [h.value hs, h.value ht, hresult]
  exact (h.ends.setHi hi).setLo lo

/-! ## Loads and stores -/

/-- A successful translation. -/
theorem Ready.touch (h : Ready m s) (vpn : ℕ) (writing : Bool) :
    Ready (m.touch vpn writing) s :=
  h.congr (Machine.touch_sameMapping m vpn) rfl rfl

/-- **A load** from the address that both compute. -/
theorem Ready.loadFrom (h : Ready m s) (hword : SameWord raw instr) {tmp : BitVec 32} {size : Width}
    {extend : BitVec 32 → BitVec 32} {y : Except Stop (BitVec 32)}
    (hfetch : ∀ i, State.index tmp size.bytes = .ok i → y = .ok (extend (Machine.load s.mem i size))) :
    Answered (instr.loadFrom (m.registers NextPCReg + 4) tmp size extend m)
      (do return s.set (rt raw) (← y)) := by
  have hload : instr.loadFrom (m.registers NextPCReg + 4) tmp size extend m =
      (Cpu.readMem tmp size m).bind fun r => .ok (⟨m.registers NextPCReg + 4,
        BitVec.ofNat 32 instr.rt, extend r.1⟩, r.2) := rfl
  rw [hload, Cpu.readMem]
  cases htranslate : m.translate tmp size false with
  | error which =>
      obtain ⟨trap, htrap⟩ := raise_eq_error (α := BitVec 32) which tmp m
      simp only [htrap]
      exact .of_error trap _
  | ok result =>
      obtain ⟨pa, m₁⟩ := result
      obtain ⟨⟨halign, hmaps, rfl⟩, rfl⟩ := Machine.translate_eq_ok htranslate
      obtain ⟨hindex, hbytes⟩ := h.memory.access halign hmaps
      rw [hfetch _ hindex, load_eq hbytes, hword.rt]
      exact .of_ends ((h.touch _ _).ends.loaded instr.rt _)

/-- A load of a byte. -/
theorem Ready.load (h : Ready m s) (hword : SameWord raw instr) (hs : m.Free instr.rs)
    (himmed : immed raw = instr.extra) {size : Width} {extend : BitVec 32 → BitVec 32}
    {fetch : BitVec 32 → Except Stop (BitVec 32)}
    (hfetch : ∀ i, State.index (s.address raw) size.bytes = .ok i →
      fetch (s.address raw) = .ok (extend (Machine.load s.mem i size))) :
    Answered ((do
        let tmp ← instr.address
        instr.loadFrom (m.registers NextPCReg + 4) tmp size extend : Cpu After) m)
      (do return s.set (rt raw) (← fetch (s.address raw))) := by
  have haddress : s.address raw = m.registers (gpr instr.rs) + instr.extra := by
    rw [State.address, hword.rs, himmed, h.value hs]
  rw [haddress] at hfetch ⊢
  exact h.loadFrom hword hfetch

/-- The same, with a check of the address first. -/
theorem Ready.loadAligned (h : Ready m s) (hword : SameWord raw instr) (hs : m.Free instr.rs)
    (himmed : immed raw = instr.extra) {size : Width} {extend : BitVec 32 → BitVec 32}
    {mask : BitVec 32} {fetch : BitVec 32 → Except Stop (BitVec 32)}
    (hfetch : ∀ i, State.index (s.address raw) size.bytes = .ok i →
      fetch (s.address raw) = .ok (extend (Machine.load s.mem i size))) :
    Answered ((do
        let tmp ← instr.address
        if tmp &&& mask ≠ 0 then Cpu.raise .addressErrorException tmp
        else instr.loadFrom (m.registers NextPCReg + 4) tmp size extend : Cpu After) m)
      (do return s.set (rt raw) (← fetch (s.address raw))) := by
  by_cases htrap : (m.registers (gpr instr.rs) + instr.extra) &&& mask ≠ 0
  · exact (congrArg (Answered · _) (congrFun (if_pos htrap) m)).mpr .raise
  · exact (congrArg (Answered · _) (congrFun (if_neg htrap) m)).mpr (h.load hword hs himmed hfetch)

/-- **A store** to the address that both compute. -/
theorem Ready.storeReg (h : Ready m s) (hword : SameWord raw instr) (hs : m.Free instr.rs)
    (ht : m.Free instr.rt) (himmed : immed raw = instr.extra) (size : Width) :
    Answered (instr.storeReg (m.registers NextPCReg + 4) size m)
      (s.store (s.address raw) (s.Reg (rt raw)) size) := by
  have hstore : instr.storeReg (m.registers NextPCReg + 4) size m =
      (Cpu.writeMem (m.registers (gpr instr.rs) + instr.extra) size (m.registers (gpr instr.rt))
        m).bind fun r => .ok (⟨m.registers NextPCReg + 4, 0, 0⟩, r.2) := rfl
  rw [hstore, h.value hs, h.value ht, State.address, hword.rs, hword.rt, himmed, Cpu.writeMem]
  cases htranslate : m.translate (s.Reg instr.rs + instr.extra) size true with
  | error which =>
      obtain ⟨trap, htrap⟩ := raise_eq_error (α := Unit) which (s.Reg instr.rs + instr.extra) m
      simp only [htrap]
      exact .of_error trap _
  | ok result =>
      obtain ⟨pa, m₁⟩ := result
      obtain ⟨⟨halign, hmaps, rfl⟩, rfl⟩ := Machine.translate_eq_ok htranslate
      obtain ⟨hindex, -⟩ := h.memory.access halign hmaps.of_writing
      rw [State.store, hindex]
      have htouch := h.touch ((s.Reg instr.rs + instr.extra).toNat / PageSize) true
      have hmemory := h.memory.store (t := { s with
          mem := Machine.store s.mem (s.Reg instr.rs + instr.extra - memoffset).toNat
            (s.Reg instr.rt) size }) halign hmaps.of_writing
        (m.touch_store_sameMapping ((s.Reg instr.rs + instr.extra).toNat / PageSize) _)
        (s.Reg instr.rt) rfl rfl
      refine .of_ends (htouch.ends.writeMem ?_ hmemory)
      rfl

end Families

/-! ## Operands -/

/-- A byte that is extended twice. -/
theorem extend_byte (b : BitVec 8) :
    Instruction.extend 0x80 0xffffff00 true (b.signExtend 32) = b.signExtend 32 ∧
      Instruction.extend 0x80 0xffffff00 false (b.signExtend 32) = b.setWidth 32 := by
  revert b
  decide

/-- A half word is extended. -/
theorem extend_half {n : ℕ} (hn : n < 2 ^ 16) :
    Instruction.extend 0x8000 0xffff0000 true (BitVec.ofNat 32 n) =
        (BitVec.ofNat 16 n).signExtend 32 ∧
      Instruction.extend 0x8000 0xffff0000 false (BitVec.ofNat 32 n) = BitVec.ofNat 32 n := by
  have hhigh : ∀ b < 32, (0xffff0000 : BitVec 32).getLsbD b = decide (16 ≤ b) := by decide
  have hbit (b : ℕ) (hb : 16 ≤ b) : n.testBit b = false :=
    Nat.testBit_lt_two_pow (Nat.lt_of_lt_of_le hn (Nat.pow_le_pow_right (by decide) hb))
  have hclear : BitVec.ofNat 32 n &&& ~~~(0xffff0000 : BitVec 32) = BitVec.ofNat 32 n := by
    refine BitVec.eq_of_getLsbD_eq fun b hb => ?_
    rw [BitVec.getLsbD_and, BitVec.getLsbD_not, hhigh b hb, BitVec.getLsbD_ofNat]
    by_cases hlow : 16 ≤ b
    · simp [hlow, hbit b hlow]
    · simp [hlow, hb]
  have hsign : BitVec.ofNat 32 n &&& 0x8000 ≠ 0 ↔ n.testBit 15 = true := by
    rw [and_sign_ne_zero, BitVec.getLsbD_ofNat]
    simp
  refine ⟨?_, by rw [Instruction.extend, if_neg (by simp), hclear]⟩
  by_cases htop : n.testBit 15 = true
  · rw [Instruction.extend, if_pos ⟨hsign.mpr htop, rfl⟩]
    refine BitVec.eq_of_getLsbD_eq fun b hb => ?_
    rw [BitVec.getLsbD_or, hhigh b hb, BitVec.getLsbD_signExtend, BitVec.getLsbD_ofNat,
      BitVec.getLsbD_ofNat, BitVec.msb_eq_getLsbD_last, BitVec.getLsbD_ofNat]
    by_cases hlow : b < 16
    · simp [hlow, hb]
    · simp [hlow, hb, htop, Nat.le_of_not_lt hlow]
  · rw [Instruction.extend, if_neg fun hand => htop (hsign.mp hand.1), hclear]
    refine BitVec.eq_of_getLsbD_eq fun b hb => ?_
    rw [BitVec.getLsbD_signExtend, BitVec.getLsbD_ofNat, BitVec.getLsbD_ofNat,
      BitVec.msb_eq_getLsbD_last, BitVec.getLsbD_ofNat]
    by_cases hlow : b < 16
    · simp [hlow, hb]
    · simp [hlow, hb, htop, hbit b (Nat.le_of_not_lt hlow)]

/-- The bits of an immediate operand. -/
theorem getLsbD_immed (i : BitVec 32) {b : ℕ} (hb : b < 32) :
    (immed i).getLsbD b = if b < 15 then i.getLsbD b else i.getLsbD 15 := by
  have hlow : ∀ b < 32, (0x7fff : BitVec 32).getLsbD b = decide (b < 15) := by decide
  have hhigh : ∀ b < 32, (0xffff8000 : BitVec 32).getLsbD b = decide (15 ≤ b) := by decide
  rw [immed]
  by_cases hsign : i.getLsbD 15 = true
  · rw [if_pos ((and_sign_ne_zero i).mpr hsign), BitVec.getLsbD_or, hhigh b hb, hsign]
    by_cases hb' : b < 15
    · simp [hb', Nat.not_le_of_lt hb']
    · simp [hb', Nat.le_of_not_lt hb']
  · rw [if_neg fun hand => hsign ((and_sign_ne_zero i).mp hand), BitVec.getLsbD_and, hlow b hb]
    by_cases hb' : b < 15
    · simp [hb']
    · rw [if_neg hb', Bool.eq_false_iff.mpr hsign]
      simp [hb']

/-- The operand of a logical instruction, if it has no sign. -/
theorem immed_and_low {i : BitVec 32} (h : (immed i).msb = false) : immed i &&& 0xffff = immed i := by
  have hlow : ∀ b < 32, (0xffff : BitVec 32).getLsbD b = decide (b < 16) := by decide
  rw [BitVec.msb_eq_getLsbD_last, getLsbD_immed i (by decide), if_neg (by decide)] at h
  refine BitVec.eq_of_getLsbD_eq fun b hb => ?_
  rw [BitVec.getLsbD_and, hlow b hb]
  by_cases hb' : b < 16
  · simp [hb']
  · rw [getLsbD_immed i hb, if_neg (by omega), h, Bool.false_and]

/-- `LUI` takes the low half of the instruction. -/
theorem immed_shiftLeft (i : BitVec 32) : immed i <<< 16 = i <<< 16 := by
  refine BitVec.eq_of_getLsbD_eq fun b hb => ?_
  rw [BitVec.getLsbD_shiftLeft, BitVec.getLsbD_shiftLeft]
  by_cases hb' : b < 16
  · simp [hb']
  · rw [getLsbD_immed i (by omega)]
    by_cases hlast : b - 16 < 15
    · rw [if_pos hlast]
    · rw [if_neg hlast, show b - 16 = 15 by omega]

/-! ## One instruction -/

/-- The instruction is not in a delay slot whose branch was taken. -/
def Straight (m : Machine) : Prop := m.registers NextPCReg = m.registers PCReg + 4

/-- What both do alike, besides what they compute from the operands: `m` is the machine that
executes the instruction. -/
def Shared (instr : Instruction) (m : Machine) : Prop :=
  match instr.opCode with
  | .LWL | .LWR | .SWL | .SWR => False
  | .ANDI | .ORI | .XORI => instr.extra.msb = false
  | .SLLV | .SRLV | .SRAV => (m.registers (gpr instr.rs)).toNat < 32
  | .MULT => NoCarry (m.registers (gpr instr.rs)).toInt.natAbs
      (m.registers (gpr instr.rt)).toInt.natAbs
  | .MULTU => NoCarry (m.registers (gpr instr.rs)).toNat (m.registers (gpr instr.rt)).toNat
  | .DIV | .DIVU => m.registers (gpr instr.rt) ≠ 0
  | .BEQ | .BNE | .BGEZ | .BGTZ | .BLEZ | .BLTZ | .BGEZAL | .BLTZAL => Straight m
  | .J => (m.registers NextPCReg + 4) &&& 0xf0000000 = m.registers PCReg &&& 0xf0000000
  | .JAL => Straight m ∧
      (m.registers NextPCReg + 4) &&& 0xf0000000 = m.registers PCReg &&& 0xf0000000
  | .JALR => Straight m ∧ instr.rd ≠ instr.rs
  | _ => True

/-- No load is pending for an operand or a result. -/
def Settled (instr : Instruction) (m : Machine) : Prop :=
  ∀ r, gpr r ∈ instr.sources ∨ gpr r ∈ instr.targets → m.Free r

variable {raw : BitVec 32} {instr : Instruction}

/-- What a load of the interpreter finds. -/
theorem fetch_eq (s : State) (a : BitVec 32) :
    (∀ i, State.index a Width.word.bytes = .ok i →
      s.fetch a = .ok (id (Machine.load s.mem i .word))) ∧
    (∀ i, State.index a Width.byte.bytes = .ok i →
      s.cfetch a = .ok (Instruction.extend 0x80 0xffffff00 true (Machine.load s.mem i .byte)) ∧
      s.ucfetch a = .ok (Instruction.extend 0x80 0xffffff00 false (Machine.load s.mem i .byte))) ∧
    ∀ i, State.index a Width.half.bytes = .ok i →
      s.sfetch a = .ok (Instruction.extend 0x8000 0xffff0000 true (Machine.load s.mem i .half)) ∧
      s.usfetch a = .ok (Instruction.extend 0x8000 0xffff0000 false (Machine.load s.mem i .half)) := by
  refine ⟨fun i hi => ?_, fun i hi => ?_, fun i hi => ?_⟩
  · simp only [Width.bytes] at hi
    rw [State.fetch, hi]
    rfl
  · simp only [Width.bytes] at hi
    obtain ⟨hsigned, hunsigned⟩ := extend_byte (s.mem i).toBitVec
    rw [Machine.load, hsigned, hunsigned, State.cfetch, State.ucfetch, hi]
    exact ⟨rfl, rfl⟩
  · simp only [Width.bytes] at hi
    have hlt : s.mem.uint16 i < 2 ^ 16 := by
      have h₀ := (s.mem i).toNat_lt
      have h₁ := (s.mem (i + 1)).toNat_lt
      rw [Mem.uint16]
      omega
    obtain ⟨hsigned, hunsigned⟩ := extend_half hlt
    rw [Machine.load, ← Mem.uint16, hsigned, hunsigned, State.sfetch, State.usfetch, hi]
    exact ⟨rfl, rfl⟩

theorem Straight.add_four (h : Straight m) :
    m.registers NextPCReg + 4 = m.registers PCReg + 8 := by
  rw [Straight] at h
  rw [h]
  bv_omega

/-- A quotient that exists. -/
theorem Ready.div (h : Ready m s) (hs : m.Free instr.rs) (ht : m.Free instr.rt)
    (hne : s.Reg instr.rt ≠ 0) :
    Answered
      ((if m.registers (gpr instr.rs) = BitVec.intMin 32 ∧ m.registers (gpr instr.rt) = -1 then
        fun _ => .error .divide
      else do
        Cpu.setReg LoReg ((m.registers (gpr instr.rs)).sdiv (m.registers (gpr instr.rt)))
        Cpu.setReg HiReg ((m.registers (gpr instr.rs)).srem (m.registers (gpr instr.rt)))
        Instruction.goOn (m.registers NextPCReg + 4) : Cpu After) m)
      (if s.Reg instr.rt = 0 ∨ (s.Reg instr.rs = BitVec.intMin 32 ∧ s.Reg instr.rt = -1) then
        .error .divide
      else return { s with LO := (s.Reg instr.rs).sdiv (s.Reg instr.rt),
                           HI := (s.Reg instr.rs).srem (s.Reg instr.rt) }) := by
  rw [h.value hs, h.value ht]
  by_cases hmin : s.Reg instr.rs = BitVec.intMin 32 ∧ s.Reg instr.rt = -1
  · rw [if_pos hmin]
    exact .of_error _ _
  · rw [if_neg hmin, if_neg (not_or.mpr ⟨hne, hmin⟩)]
    exact .of_ends ((h.ends.setLo _).setHi _)

/-- **The switch.** -/
theorem Ready.execute (h : Ready m s) (hword : SameWord raw instr) (hsettled : Settled instr m)
    (hshared : Shared instr m) :
    Answered (instr.execute (m.registers NextPCReg + 4) m)
      (Execute.execute raw (m.registers PCReg) s) := by
  have himmed (hformat : formatOf instr.opCode = .IFMT) : immed raw = instr.extra := by
    rw [hword.extra, hformat]
  have hshamt (hformat : formatOf instr.opCode = .RFMT) : shamt raw = instr.extra := by
    rw [hword.extra, hformat]
  have htarget (hformat : formatOf instr.opCode = .JFMT) : raw &&& 0x03ffffff = instr.extra := by
    rw [hword.extra, hformat]
  have hrs (hmem : gpr instr.rs ∈ instr.sources) : m.Free instr.rs := hsettled _ (.inl hmem)
  have hrt (hmem : gpr instr.rt ∈ instr.sources ∨ gpr instr.rt ∈ instr.targets) :
      m.Free instr.rt := hsettled _ hmem
  have hrd (hmem : gpr instr.rd ∈ instr.targets) : m.Free instr.rd := hsettled _ (.inr hmem)
  have hlink (hmem : R31 ∈ instr.targets) : m.Free 31 := hsettled 31 (.inr hmem)
  rw [Execute.execute, hword.case]
  cases hop : instr.opCode
  case LWL | LWR | SWL | SWR => simp only [Shared, hop] at hshared
  all_goals
    simp only [formatOf, Instruction.sources, Instruction.targets, Shared, hop, List.mem_cons,
      true_or, or_true, forall_const] at himmed hshamt htarget hrs hrt hrd hlink hshared
    rw [Instruction.execute, hop]
    dsimp only
  case ADD | SUB => exact h.threeTrap hword hrs hrt hrd
  case ADDU | SUBU | AND | OR | XOR | NOR | SLT | SLTU => exact h.three hword hrs hrt hrd rfl
  case ADDIU | SLTI | SLTIU => exact h.immediate hword hrs hrt himmed rfl
  case ANDI | ORI | XORI =>
      refine h.immediate hword hrs hrt himmed ?_
      rw [← himmed] at hshared ⊢
      rw [immed_and_low hshared]
  case ADDI =>
      by_cases htrap : !(m.registers (gpr instr.rs) ^^^ instr.extra).msb &&
          (instr.extra ^^^ (m.registers (gpr instr.rs) + instr.extra)).msb
      · exact (congrArg (Answered · _) (congrFun (if_pos htrap) m)).mpr .raise
      · exact (congrArg (Answered · _) (congrFun (if_neg htrap) m)).mpr
          (h.immediate hword hrs hrt himmed rfl)
  case LUI =>
      have hresult := h.ends.set hrt (raw <<< 16)
      rw [← immed_shiftLeft raw, himmed] at hresult
      rw [hword.rt, ← immed_shiftLeft raw, himmed]
      exact .of_ends hresult
  case SLL | SRL | SRA => exact h.shift hword hrt hrd hshamt _
  case SLLV | SRLV | SRAV =>
      rw [h.value hrs] at hshared
      exact h.shiftReg hword hrs hrt hrd hshared _
  case BEQ | BNE => exact h.branchTwo hword hrs hrt hshared himmed _
  case BGEZ | BLTZ => exact h.branch hword hrs hshared himmed _
  case BGTZ => exact h.branch hword hrs hshared himmed fun a => BitVec.slt 0 a
  case BLEZ => exact h.branch hword hrs hshared himmed fun a => BitVec.sle a 0
  case BGEZAL => exact h.branchLink hword hrs hlink hshared himmed fun a => !a.msb
  case BLTZAL => exact h.branchLink hword hrs hlink hshared himmed fun a => a.msb
  case J =>
      rw [State.jump, htarget, ← hshared]
      exact .of_ends (h.ends.jump _)
  case JAL =>
      have hvalue := hshared.1.add_four
      rw [State.jump, htarget, ← hshared.2, ← hvalue]
      exact .of_ends ((h.write (t := 31) (by decide) hlink _).ends.jump _)
  case JALR =>
      have hset := (h.ends.set hrd (m.registers NextPCReg + 4)).jump (s.Reg instr.rs)
      have hkept : (m.writeRegister (gpr instr.rd) (m.registers NextPCReg + 4)).registers
          (gpr instr.rs) = s.Reg instr.rs := by
        rw [Machine.registers_writeRegister_of_ne _ _ fun heq => hshared.2 (gpr_injective heq).symm]
        exact h.value hrs
      rw [hword.rs, hword.rd, ← hshared.1.add_four]
      refine .of_ends (a := ⟨(m.writeRegister (gpr instr.rd)
        (m.registers NextPCReg + 4)).registers (gpr instr.rs), 0, 0⟩) ?_
      rw [hkept]
      exact hset
  case JR =>
      refine .of_ends (n := m) ?_
      rw [hword.rs, ← h.value hrs]
      exact h.ends.jump _
  case MFHI => exact h.moveFrom hword hrd h.hi.symm
  case MFLO => exact h.moveFrom hword hrd h.lo.symm
  case MTHI =>
      rw [hword.rs, ← h.value hrs]
      exact .of_ends (h.ends.setHi _)
  case MTLO =>
      rw [hword.rs, ← h.value hrs]
      exact .of_ends (h.ends.setLo _)
  case MULT =>
      rw [h.value hrs, h.value hrt] at hshared
      rw [hword.rs, hword.rt]
      exact h.hiLo hrs hrt ((multSigned_eq_iff _ _).mpr hshared).symm
  case MULTU =>
      rw [h.value hrs, h.value hrt] at hshared
      rw [hword.rs, hword.rt]
      exact h.hiLo hrs hrt ((multUnsigned_eq_iff _ _).mpr hshared).symm
  case DIV =>
      have hne : s.Reg instr.rt ≠ 0 := by rwa [← h.value hrt]
      rw [hword.rs, hword.rt]
      exact (congrArg (Answered · _) (congrFun (if_neg hshared) m)).mpr (h.div hrs hrt hne)
  case DIVU =>
      rw [h.value hrt] at hshared
      rw [hword.rs, hword.rt]
      simp only [if_neg hshared]
      refine h.hiLo hrs hrt (if_neg hshared)
  case LB => exact h.load hword hrs himmed fun i hi => ((fetch_eq s _).2.1 i hi).1
  case LBU => exact h.load hword hrs himmed fun i hi => ((fetch_eq s _).2.1 i hi).2
  case LH =>
      exact h.loadAligned hword hrs himmed fun i hi => ((fetch_eq s _).2.2 i hi).1
  case LHU =>
      exact h.loadAligned hword hrs himmed fun i hi => ((fetch_eq s _).2.2 i hi).2
  case LW => exact h.loadAligned hword hrs himmed fun i hi => (fetch_eq s _).1 i hi
  case SB | SH | SW => exact h.storeReg hword hrs hrt himmed _
  case SYSCALL | RES | UNIMP => exact .raise

/-! ## Programs -/

/-- The machine executes an instruction that both do alike, if it can fetch one. -/
def Common (m : Machine) : Prop :=
  ∀ raw fetched, Cpu.readMem (m.registers PCReg) .word m = .ok (raw, fetched) →
    Settled (Instruction.decode raw) m ∧ Shared (Instruction.decode raw) m

/-- The simulators make a step. -/
def MachineStep (m : Machine) (_ : Unit) (m' : Machine) : Prop :=
  Cpu.oneInstruction m = .ok ((), m')

@[inherit_doc MachineStep]
def InterpreterStep (s : State) (_ : Unit) (s' : State) : Prop := step s = .ok s'

theorem Settled.congr (h : Settled instr m) (hregs : m'.registers = m.registers) :
    Settled instr m' := fun r hr => by
  rw [Machine.Free, hregs]
  exact h r hr

theorem Shared.congr (h : Shared instr m) (hregs : m'.registers = m.registers) :
    Shared instr m' := by
  simpa only [Shared, Straight, hregs] using h

/-- The states behind a fetch. -/
theorem Agrees.ready (h : Agrees m s) :
    Ready m ({ s with pc := s.npc, npc := s.npc + 4 }.set 0 0) where
  inv := h.inv
  memory := h.memory.congr (.refl m) rfl rfl
  general r hr := (Function.update_of_ne hr ..).trans (h.general r hr)
  zero := by rw [State.Reg_set, if_pos rfl]
  hi := h.hi
  lo := h.lo
  pc := h.npc
  npc := congrArg (· + 4) h.npc

/-- **No-ops** may be executed like other instructions. -/
theorem execute_zero (xpc : BitVec 32) (hzero : s.Reg 0 = 0) :
    Execute.execute 0 xpc s = .ok s := by
  have hcase : caseOf 0 = some (.op .SLL) := by decide
  have hset : s.set 0 0 = s := by
    rw [State.set, ← hzero, Function.update_eq_self]
  rw [Execute.execute, hcase]
  show Except.ok (s.set (rd 0) (s.Reg (rt 0) <<< (shamt 0).toNat)) = .ok s
  have hshift : (0 : BitVec 32) <<< (shamt 0).toNat = 0 := by decide
  rw [show rd 0 = 0 by decide, show rt 0 = 0 by decide, hzero, hshift, hset]

/-- An iteration of the interpreter, without the elimination of no-ops. -/
theorem step_eq {raw : BitVec 32} (hfetch : s.fetch s.pc = .ok raw) :
    step s = Execute.execute raw s.pc ({ s with pc := s.npc, npc := s.npc + 4 }.set 0 0) := by
  have hstep : step s = if raw ≠ 0 then
      Execute.execute raw s.pc ({ s with pc := s.npc, npc := s.npc + 4 }.set 0 0)
      else .ok ({ s with pc := s.npc, npc := s.npc + 4 }.set 0 0) := by
    rw [step, hfetch]
    rfl
  rw [hstep]
  split
  · rfl
  · rename_i hzero
    rw [not_not.mp hzero, execute_zero _ (by rw [State.Reg_set, if_pos rfl])]

/-- What a fetch leaves. -/
theorem readMem_eq_ok {a raw : BitVec 32} {size : Width} (h : Cpu.readMem a size m = .ok (raw, m')) :
    a.toNat % size.bytes = 0 ∧ m.Maps a false ∧
      raw = Machine.load m.mainMemory (m.physAddr a) size ∧
      m' = m.touch (a.toNat / PageSize) false := by
  rw [Cpu.readMem] at h
  cases htranslate : m.translate a size false with
  | error which =>
      obtain ⟨trap, htrap⟩ := raise_eq_error (α := BitVec 32) which a m
      simp only [htranslate, htrap, reduceCtorEq] at h
  | ok result =>
      obtain ⟨pa, m₁⟩ := result
      obtain ⟨⟨halign, hmaps, rfl⟩, rfl⟩ := Machine.translate_eq_ok htranslate
      simp only [htranslate, Except.ok.injEq, Prod.mk.injEq] at h
      exact ⟨halign, hmaps, h.1.symm, h.2.symm⟩

/-- An instruction that is executed without an exception is implemented. -/
theorem implemented_of_ok {pcAfter : BitVec 32}
    (h : instr.execute pcAfter m = .ok (after, m')) : Implemented instr.opCode := by
  obtain ⟨trap, htrap⟩ := raise_eq_error (α := After) .illegalInstrException 0 m
  refine ⟨fun hop => ?_, fun hop => ?_⟩
  all_goals
    rw [Instruction.execute, hop] at h
    cases htrap.symm.trans h

/-- **One instruction** of both simulators. -/
theorem Agrees.step (h : Agrees m s) (hcommon : Common m) (hstep : MachineStep m () m') :
    ∃ s', InterpreterStep s () s' ∧ Agrees m' s' := by
  have hone : Cpu.oneInstruction m = (Cpu.readMem (m.registers PCReg) .word m).bind fun r =>
      ((Instruction.decode r.1).execute (r.2.registers NextPCReg + 4) r.2).bind fun q =>
        Cpu.retire q.1 q.2 := rfl
  rw [MachineStep, hone] at hstep
  obtain ⟨⟨raw, fetched⟩, hread, hstep⟩ := Except.bind_eq_ok.mp hstep
  obtain ⟨⟨after, m₁⟩, hexecute, hretire⟩ := Except.bind_eq_ok.mp hstep
  obtain ⟨hsettled, hshared⟩ := hcommon raw fetched hread
  have hword := (sameWord_iff raw).2 (implemented_of_ok hexecute)
  obtain ⟨halign, hmaps, rfl, rfl⟩ := readMem_eq_ok hread
  obtain ⟨hindex, hbytes⟩ := h.memory.access halign hmaps
  have hfetch : s.fetch s.pc = .ok (Machine.load m.mainMemory (m.physAddr (m.registers PCReg))
      .word) := by
    simp only [Width.bytes] at hindex
    rw [State.fetch, h.pc, hindex, ← load_eq hbytes]
    rfl
  have hready := h.ready.touch ((m.registers PCReg).toNat / PageSize) false
  obtain ⟨s₁, hs₁, hends⟩ := hready.execute hword (hsettled.congr rfl) (hshared.congr rfl) _ _
    hexecute
  obtain ⟨m₂, hretired, hagrees⟩ := hends.retire
  obtain ⟨-, rfl⟩ := Prod.mk.inj (Except.ok.inj (hretired.symm.trans hretire))
  refine ⟨s₁, ?_, hagrees⟩
  rw [InterpreterStep, step_eq hfetch, h.pc]
  exact hs₁

/-- **The simulators run in step.** -/
theorem Agrees.runs_in_step {steps : List (Step Machine Unit)} (h : Agrees m s)
    (hrun : Trace MachineStep m steps m') (hcommon : ∀ x ∈ steps, Common x.before) :
    ∃ steps' s', Trace InterpreterStep s steps' s' ∧ steps'.length = steps.length ∧
      Agrees m' s' := by
  induction hrun with
  | nil => exact ⟨[], s, .nil s, rfl, h⟩
  | @snoc m₁ m₂ steps i prior hstep ih =>
      obtain ⟨steps', t, htrace, hlength, ht⟩ := ih fun x hx => hcommon x (by simp [hx])
      obtain ⟨s', hs', hagrees⟩ :=
        ht.step (hcommon _ (List.mem_append_right _ (List.mem_singleton.mpr rfl))) hstep
      exact ⟨_, s', htrace.snoc hs', by simp [hlength], hagrees⟩

theorem common_of_fetch {w : BitVec 32} {fetched : Machine}
    (hread : Cpu.readMem (m.registers PCReg) .word m = .ok (w, fetched))
    (hsettled : Settled (Instruction.decode w) m) (hshared : Shared (Instruction.decode w) m) :
    Common m := by
  intro raw' fetched' hread'
  obtain ⟨rfl, rfl⟩ := Prod.mk.inj (Except.ok.inj (hread.symm.trans hread'))
  exact ⟨hsettled, hshared⟩

/-- A page at the address where the interpreter loads programs: `lui r3, 0x1000`, then
`sw r3, 64(r3)`, `lw r4, 64(r3)`, a no-op and `addu r5, r4, r3`. -/
def pageAtMemoffset : Machine where
  registers := fun r =>
    if r = PCReg then memoffset else if r = NextPCReg then memoffset + 4 else 0
  mainMemory := (((Mem.setWord (fun _ => 0) 0 0x3c031000).setWord 4 0xac630040).setWord 8
    0x8c640040).setWord 16 0x00832821
  pageTable := fun i => ⟨i, 0, i = 2097152, false, false, false⟩
  pageTableSize := 2097153

theorem pageAtMemoffset_agrees : Agrees pageAtMemoffset
    ⟨fun _ => 0, 0, 0, pageAtMemoffset.mainMemory, memoffset, memoffset + 4⟩ := by
  have hpage {a : BitVec 32} (ha : pageAtMemoffset.Maps a false) : a.toNat / 128 = 2097152 :=
    of_decide_eq_true ha.valid
  have hindex {a : BitVec 32} (ha : pageAtMemoffset.Maps a false) :
      (a - memoffset).toNat = a.toNat % 128 := by
    have hvalue := hpage ha
    have hlt := a.isLt
    rw [BitVec.toNat_sub, show memoffset.toNat = 2 ^ 28 from rfl]
    omega
  refine ⟨⟨rfl, show (0 : BitVec 32).toNat < 32 by decide⟩,
    ⟨fun i hi j hj hvi hvj _ => ?_, fun a ha => ?_, fun a ha => ?_⟩, fun r hr => ?_, rfl, rfl, rfl, rfl⟩
  · exact (of_decide_eq_true hvi).trans (of_decide_eq_true hvj).symm
  · rw [hindex ha]
    exact Nat.lt_trans (Nat.mod_lt _ (by decide)) (by decide)
  · rw [hindex ha]
    show pageAtMemoffset.mainMemory _ = pageAtMemoffset.mainMemory (0 * 128 + a.toNat % 128)
    rw [Nat.zero_mul, Nat.zero_add]
  · revert r
    decide

theorem runs_in_step_pageAtMemoffset : ∃ (steps : List (Step Machine Unit)) (m' : Machine),
    Trace MachineStep pageAtMemoffset steps m' ∧ steps.length = 5 ∧
      (∀ x ∈ steps, Common x.before) ∧
      ∃ steps' s', Trace InterpreterStep
        ⟨fun _ => 0, 0, 0, pageAtMemoffset.mainMemory, memoffset, memoffset + 4⟩ steps' s' ∧
        steps'.length = steps.length ∧ Agrees m' s' := by
  have hrun := Trace.nil (R := fun m (_ : Unit) m' => Common m ∧ MachineStep m () m')
    pageAtMemoffset
  have hrun := hrun.snoc (i := ())
    ⟨common_of_fetch (w := 0x3c031000) rfl (by unfold Settled; decide) trivial, rfl⟩
  have hrun := hrun.snoc (i := ())
    ⟨common_of_fetch (w := 0xac630040) rfl (by unfold Settled; decide) trivial, rfl⟩
  have hrun := hrun.snoc (i := ())
    ⟨common_of_fetch (w := 0x8c640040) rfl (by unfold Settled; decide) trivial, rfl⟩
  have hrun := hrun.snoc (i := ())
    ⟨common_of_fetch (w := 0) rfl (by unfold Settled; decide) trivial, rfl⟩
  have hrun := hrun.snoc (i := ())
    ⟨common_of_fetch (w := 0x00832821) rfl (by unfold Settled; decide) trivial, rfl⟩
  have hmachine : Trace MachineStep _ _ _ := hrun.mono fun _ _ _ h => h.2
  have hcommon := fun x hx => (hrun.rel_of_mem x hx).1
  exact ⟨_, _, hmachine, rfl, hcommon, pageAtMemoffset_agrees.runs_in_step hmachine hcommon⟩

end Execute

end Nachos
