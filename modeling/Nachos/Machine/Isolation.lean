/-
# Memory isolation

A program reaches main memory through the installed page table only. Whatever it executes,
it cannot change a byte of a frame that its table does not map, and what it computes does not
depend on such bytes. The frames of another process are of this kind.
-/

import Mathlib
import Nachos.Machine.Precise

namespace Nachos

open Base

namespace Cpu

/-- `OneInstruction`, with the handlers left out: an instruction that raises an exception stops
in the state that the handler would find. There is no state after a failed assertion. -/
def step (m : Machine) : Option Machine :=
  match oneInstruction m with
  | .ok (_, m') => some m'
  | .error (.exception _ m') => some m'
  | .error _ => none

/-- A number of instructions. -/
def steps : ℕ → Machine → Option Machine
  | 0, m => some m
  | n + 1, m => (steps n m).bind step

end Cpu

/-- The frames that the valid entries of a page table map to. -/
def frames (pageTable : ℕ → TranslationEntry) (pageTableSize : ℕ) : Set ℕ :=
  {frame | ∃ vpn < pageTableSize, (pageTable vpn).valid = true ∧
    ((pageTable vpn).physicalPage % 2 ^ 32).toNat = frame}

namespace Machine

/-- An aligned access does not leave the frame of its first byte. -/
theorem physAddr_frame (m : Machine) {a : BitVec 32} {size : Width}
    (halign : a.toNat % size.bytes = 0) {i : ℕ} (hi : i < size.bytes) :
    (m.physAddr a + i) / PageSize = m.pageFrame (a.toNat / PageSize) := by
  simp only [physAddr, PageSize, SectorSize]
  cases size with
  | byte =>
      simp only [Width.bytes] at hi
      omega
  | half =>
      simp only [Width.bytes] at hi halign
      omega
  | word =>
      simp only [Width.bytes] at hi halign
      omega

theorem load_congr {mem mem' : Mem} {pa : ℕ} {size : Width}
    (h : ∀ i < size.bytes, mem (pa + i) = mem' (pa + i)) : load mem pa size = load mem' pa size := by
  cases size with
  | byte =>
      have h₀ : mem pa = mem' pa := h 0 (by decide)
      rw [load, load, h₀]
  | half =>
      have h₀ : mem pa = mem' pa := h 0 (by decide)
      rw [load, load, h₀, h 1 (by decide)]
  | word => exact Mem.word_congr h

/-- A store changes the bytes at its address only. -/
theorem store_of_not_mem (mem : Mem) {pa k : ℕ} (value : BitVec 32) (size : Width)
    (h : ∀ i < size.bytes, k ≠ pa + i) : store mem pa value size k = mem k := by
  cases size with
  | byte => exact Mem.setByte_of_ne _ _ (h 0 (by decide))
  | half =>
      rw [store, Mem.setByte_of_ne _ _ (h 1 (by decide))]
      exact Mem.setByte_of_ne _ _ (h 0 (by decide))
  | word =>
      refine Mem.setWord_of_not_mem mem value ?_
      by_contra hk
      exact h (k - pa) (by simp only [Width.bytes]; omega) (by omega)

theorem store_congr {mem mem' : Mem} {k : ℕ} (h : mem k = mem' k) (pa : ℕ) (value : BitVec 32)
    (size : Width) : store mem pa value size k = store mem' pa value size k := by
  cases size with
  | byte => simp only [store, Mem.setByte, h]
  | half => simp only [store, Mem.setByte, h]
  | word => simp only [store, Mem.setWord, h]

/-- Two machines that run the same program and differ in frames out of its reach only. The
first has these frames as `secret` has them. -/
structure Isolated (out : Set ℕ) (secret : Mem) (s t : Machine) : Prop where
  registers : t.registers = s.registers
  pageTable : t.pageTable = s.pageTable
  pageTableSize : t.pageTableSize = s.pageTableSize
  outside : ∀ k, k / PageSize ∉ out → t.mainMemory k = s.mainMemory k
  kept : ∀ k, k / PageSize ∈ out → s.mainMemory k = secret k
  disjoint : Disjoint (frames s.pageTable s.pageTableSize) out

/-- The same exception in related machines, or the same fault. -/
def RelatedTrap (R : Machine → Machine → Prop) : Trap → Trap → Prop
  | .exception which s, .exception which' t => which = which' ∧ R s t
  | .fault fault, .fault fault' => fault = fault'
  | .divide, .divide => True
  | _, _ => False

/-- Setting use and dirty bits leaves the frames of a table. -/
theorem frames_touch (m : Machine) (vpn : ℕ) (writing : Bool) :
    frames (m.touch vpn writing).pageTable m.pageTableSize = frames m.pageTable m.pageTableSize := by
  have hsame : m.SameMapping (m.touch vpn writing) := touch_sameMapping m vpn
  ext frame
  have hframe (i : ℕ) : ((((m.touch vpn writing).pageTable i).physicalPage % 2 ^ 32).toNat = frame) =
      (((m.pageTable i).physicalPage % 2 ^ 32).toNat = frame) :=
    congrArg (· = frame) (hsame.pageFrame i)
  simp only [frames, Set.mem_ofPred_eq, hsame.valid, hframe]

namespace Isolated

variable {out : Set ℕ} {secret : Mem} {s t : Machine}

theorem writeRegister (h : Isolated out secret s t) (r : Fin NumTotalRegs) (value : BitVec 32) :
    Isolated out secret (s.writeRegister r value) (t.writeRegister r value) :=
  ⟨by rw [Machine.writeRegister, Machine.writeRegister, h.registers], h.pageTable,
    h.pageTableSize, h.outside, h.kept, h.disjoint⟩

theorem touch (h : Isolated out secret s t) (vpn : ℕ) (writing : Bool) :
    Isolated out secret (s.touch vpn writing) (t.touch vpn writing) :=
  ⟨h.registers, by simp only [Machine.touch, h.pageTable], h.pageTableSize, h.outside, h.kept,
    by rw [show (s.touch vpn writing).pageTableSize = s.pageTableSize from rfl, frames_touch]
       exact h.disjoint⟩

/-- A load is completed on both sides. -/
theorem delayedLoad (h : Isolated out secret s t) (nextReg nextValue : BitVec 32) :
    (∃ fault, s.delayedLoad nextReg nextValue = .error fault ∧
      t.delayedLoad nextReg nextValue = .error fault) ∨
    ∃ s' t', s.delayedLoad nextReg nextValue = .ok s' ∧ t.delayedLoad nextReg nextValue = .ok t' ∧
      Isolated out secret s' t' := by
  by_cases hlt : (s.registers LoadReg).toNat < NumTotalRegs
  · rw [delayedLoad_of_lt hlt, delayedLoad_of_lt (by rw [h.registers]; exact hlt)]
    refine .inr ⟨_, _, rfl, rfl, ?_, h.pageTable, h.pageTableSize, h.outside, h.kept, h.disjoint⟩
    funext r
    simp only [completed, h.registers]
  · rw [Machine.delayedLoad, Machine.delayedLoad, dif_neg hlt,
      dif_neg (by rw [h.registers]; exact hlt)]
    exact .inl ⟨_, rfl, rfl⟩

theorem agree_raise {α : Type} (h : Isolated out secret s t)
    (Q : α → Machine → α → Machine → Prop) (which : ExceptionType) (addr : BitVec 32) :
    Agree Q (RelatedTrap (Isolated out secret)) (Cpu.raise which addr s) (Cpu.raise which addr t) := by
  rw [Cpu.raise, Cpu.raise]
  obtain ⟨fault, hs, ht⟩ | ⟨s', t', hs, ht, h'⟩ := (h.writeRegister BadVAddrReg addr).delayedLoad 0 0
  · rw [hs, ht]
    rfl
  · rw [hs, ht]
    exact ⟨rfl, h'⟩

theorem agree_retire (h : Isolated out secret s t) (after : After) :
    Agree (fun _ s _ t => Isolated out secret s t) (RelatedTrap (Isolated out secret))
      (Cpu.retire after s) (Cpu.retire after t) := by
  rw [Cpu.retire_eq, Cpu.retire_eq]
  obtain ⟨fault, hs, ht⟩ | ⟨s', t', hs, ht, h'⟩ :=
    h.delayedLoad after.nextLoadReg after.nextLoadValue
  · rw [hs, ht]
    rfl
  · rw [hs, ht]
    simp only [h'.registers]
    exact ((h'.writeRegister _ _).writeRegister _ _).writeRegister _ _

/-- A translation finds the same on both sides, and nothing out of reach. -/
theorem translate (h : Isolated out secret s t) (addr : BitVec 32) (size : Width)
    (writing : Bool) :
    (∃ which, s.translate addr size writing = .error which ∧
      t.translate addr size writing = .error which) ∨
    ∃ pa s' t', s.translate addr size writing = .ok (pa, s') ∧
      t.translate addr size writing = .ok (pa, t') ∧ Isolated out secret s' t' ∧
      ∀ i < size.bytes, (pa + i) / PageSize ∉ out := by
  rw [translate_congr h.pageTable h.pageTableSize]
  cases htranslate : s.translate addr size writing with
  | error which => exact .inl ⟨which, rfl, rfl⟩
  | ok result =>
      obtain ⟨pa, s'⟩ := result
      obtain ⟨⟨halign, hmaps, rfl⟩, rfl⟩ := translate_eq_ok htranslate
      refine .inr ⟨_, _, _, rfl, rfl, h.touch _ _, fun i hi hout => ?_⟩
      rw [physAddr_frame s halign hi] at hout
      exact Set.disjoint_left.mp h.disjoint ⟨_, hmaps.inTable, hmaps.valid, rfl⟩ hout

/-- A store within reach. -/
theorem store (h : Isolated out secret s t) {pa : ℕ} {size : Width}
    (hpa : ∀ i < size.bytes, (pa + i) / PageSize ∉ out) (value : BitVec 32) :
    Isolated out secret { s with mainMemory := Machine.store s.mainMemory pa value size }
      { t with mainMemory := Machine.store t.mainMemory pa value size } := by
  refine ⟨h.registers, h.pageTable, h.pageTableSize, fun k hk => ?_, fun k hk => ?_, h.disjoint⟩
  · exact store_congr (h.outside k hk) pa value size
  · refine (store_of_not_mem s.mainMemory value size fun i hi heq => ?_).trans (h.kept k hk)
    exact hpa i hi (heq ▸ hk)

theorem agree_readMem (h : Isolated out secret s t) (addr : BitVec 32) (size : Width) :
    Agree (fun a s b t => a = b ∧ Isolated out secret s t) (RelatedTrap (Isolated out secret))
      (Cpu.readMem addr size s) (Cpu.readMem addr size t) := by
  simp only [Cpu.readMem]
  obtain ⟨which, hs, ht⟩ | ⟨pa, s', t', hs, ht, h', hpa⟩ := h.translate addr size false
  · rw [hs, ht]
    exact h.agree_raise _ which addr
  · rw [hs, ht]
    exact ⟨load_congr fun i hi => (h'.outside _ (hpa i hi)).symm, h'⟩

theorem agree_writeMem (h : Isolated out secret s t) (addr : BitVec 32) (size : Width)
    (value : BitVec 32) :
    Agree (fun _ s _ t => Isolated out secret s t) (RelatedTrap (Isolated out secret))
      (Cpu.writeMem addr size value s) (Cpu.writeMem addr size value t) := by
  simp only [Cpu.writeMem]
  obtain ⟨which, hs, ht⟩ | ⟨pa, s', t', hs, ht, h', hpa⟩ := h.translate addr size true
  · rw [hs, ht]
    exact h.agree_raise _ which addr
  · rw [hs, ht]
    exact h'.store hpa value

end Isolated

/-- Every instruction is executed in step by isolated machines. -/
theorem inStep_isolated (out : Set ℕ) (secret : Mem) (instr : Instruction) :
    InStep instr (Isolated out secret) (Isolated out secret)
      (RelatedTrap (Isolated out secret)) where
  weaken _ _ h := h
  source _ _ h r _ := by rw [h.registers]
  merge s t h := ⟨by rw [h.registers], h⟩
  target _ _ h r _ value := h.writeRegister r value
  read addr size _ _ h := h.agree_readMem addr size
  write addr size value _ _ h := h.agree_writeMem addr size value
  raise which addr _ _ h := h.agree_raise _ which addr
  assertion := rfl
  divide := trivial

/-- One instruction of isolated machines. -/
theorem Isolated.step {out : Set ℕ} {secret : Mem} {s t : Machine}
    (h : Isolated out secret s t) :
    (Cpu.step s = none ∧ Cpu.step t = none) ∨
      ∃ s' t', Cpu.step s = some s' ∧ Cpu.step t = some t' ∧ Isolated out secret s' t' := by
  have hone : Coupled (Isolated out secret) Cpu.oneInstruction Cpu.oneInstruction
      (fun _ s _ t => Isolated out secret s t) (RelatedTrap (Isolated out secret)) :=
    InStep.oneInstruction (C := fun _ => True) (fun s t h => by rw [h.registers])
      (fun pc s t h => (h.1.agree_readMem pc .word).mono fun _ _ _ _ hread =>
        ⟨hread.1, trivial, hread.2⟩)
      (fun s t h => by rw [h.registers]) (fun raw _ => inStep_isolated out secret _)
      (fun after s t h => h.agree_retire after)
  have hagree := hone s t h
  simp only [Cpu.step]
  match Cpu.oneInstruction s, Cpu.oneInstruction t, hagree with
  | .ok (_, s'), .ok (_, t'), hst => exact .inr ⟨s', t', rfl, rfl, hst⟩
  | .error (.exception _ s'), .error (.exception _ t'), ⟨_, hst⟩ =>
      exact .inr ⟨s', t', rfl, rfl, hst⟩
  | .error (.fault _), .error (.fault _), _ => exact .inl ⟨rfl, rfl⟩
  | .error .divide, .error .divide, _ => exact .inl ⟨rfl, rfl⟩

/-- Any number of instructions. -/
theorem Isolated.steps {out : Set ℕ} {secret : Mem} {s t : Machine}
    (h : Isolated out secret s t) (n : ℕ) :
    (Cpu.steps n s = none ∧ Cpu.steps n t = none) ∨
      ∃ s' t', Cpu.steps n s = some s' ∧ Cpu.steps n t = some t' ∧ Isolated out secret s' t' := by
  induction n with
  | zero => exact .inr ⟨s, t, rfl, rfl, h⟩
  | succ n ih =>
      simp only [Cpu.steps]
      obtain ⟨hs, ht⟩ | ⟨s', t', hs, ht, h'⟩ := ih
      · rw [hs, ht]
        exact .inl ⟨rfl, rfl⟩
      · rw [hs, ht]
        exact h'.step

/-- **Memory isolation.** Another page table maps none of the frames of the installed one. No
instruction sequence changes a byte of its frames, and the registers do not depend on them. -/
theorem memory_isolation (m : Machine) (pageTable : ℕ → TranslationEntry) (pageTableSize : ℕ)
    (hdisjoint : Disjoint (frames m.pageTable m.pageTableSize) (frames pageTable pageTableSize))
    (n : ℕ) :
    (∀ m', Cpu.steps n m = some m' → ∀ k, k / PageSize ∈ frames pageTable pageTableSize →
      m'.mainMemory k = m.mainMemory k) ∧
    ∀ mainMemory : Mem,
      (∀ k, k / PageSize ∉ frames pageTable pageTableSize → mainMemory k = m.mainMemory k) →
      (Cpu.steps n { m with mainMemory := mainMemory }).map registers =
        (Cpu.steps n m).map registers := by
  constructor
  · intro m' hm' k hk
    have hself : Isolated (frames pageTable pageTableSize) m.mainMemory m m :=
      ⟨rfl, rfl, rfl, fun _ _ => rfl, fun _ _ => rfl, hdisjoint⟩
    obtain ⟨hs, -⟩ | ⟨s', t', hs, -, h'⟩ := hself.steps n
    · rw [hs] at hm'
      cases hm'
    · rw [hs] at hm'
      cases hm'
      exact h'.kept k hk
  · intro mainMemory hmem
    have hpair : Isolated (frames pageTable pageTableSize) m.mainMemory m
        { m with mainMemory := mainMemory } :=
      ⟨rfl, rfl, rfl, hmem, fun _ _ => rfl, hdisjoint⟩
    obtain ⟨hs, ht⟩ | ⟨s', t', hs, ht, h'⟩ := hpair.steps n
    · rw [hs, ht]
    · rw [hs, ht]
      exact congrArg some h'.registers

/-- A program in frame `0` stores into its page while another process owns frame `1`. -/
theorem memory_isolation_store :
    let other : ℕ → TranslationEntry := fun i => ⟨i, i + 1, true, false, false, false⟩
    Disjoint (frames (onePage 0xac050000).pageTable (onePage 0xac050000).pageTableSize)
      (frames other 1) ∧
    (∀ m', Cpu.steps 3 (onePage 0xac050000) = some m' → m'.mainMemory 128 = 0) := by
  intro other
  have hdisjoint : Disjoint
      (frames (onePage 0xac050000).pageTable (onePage 0xac050000).pageTableSize)
      (frames other 1) := by
    refine Set.disjoint_left.mpr ?_
    rintro frame ⟨vpn, hvpn, -, rfl⟩ ⟨vpn', hvpn', -, heq⟩
    obtain rfl : vpn = 0 := Nat.lt_one_iff.mp hvpn
    obtain rfl : vpn' = 0 := Nat.lt_one_iff.mp hvpn'
    exact absurd heq (by decide)
  refine ⟨hdisjoint, fun m' hm' => ?_⟩
  exact (memory_isolation _ other 1 hdisjoint 3).1 m' hm' 128 ⟨0, by decide, rfl, rfl⟩

end Machine

end Nachos
