/-
# Strings between the kernel and a user program

`CopyStringFromMachine` and `CopyStringToMachine` of `userprog/synchconsole.cc`. Both stop
at a zero byte or one short of the given size, and end the copy with a zero byte. A byte
that cannot be accessed raises an exception and is skipped; the messages printed then are
not modelled.
-/

import Nachos.Base.CString
import Nachos.Machine.UserMemory

namespace Nachos

open Base

/-- `MAX_STRING_SIZE`. -/
def MaxStringSize : ℕ := 4 * 1024

namespace Machine

/-- The loop of `CopyStringFromMachine`, with `n` rounds left at the index `i`. -/
def copyFromLoop (m : Machine) (src : BitVec 32) (dst : Mem) (i : ℕ) :
    ℕ → Except Fault (ℕ × Mem × Machine)
  | 0 => .ok (i, dst, m)
  | n + 1 => do
      let (ch, m) ← m.readMem (src + BitVec.ofNat 32 i) .byte
      match ch with
      | some ch =>
          let dst := dst.setByte i (UInt8.ofNat ch.toNat)
          if ch = 0 then .ok (i + 1, dst, m) else copyFromLoop m src dst (i + 1) n
      | none => copyFromLoop m src dst (i + 1) n

/-- `SynchConsole::CopyStringFromMachine`. -/
def copyStringFromMachine (m : Machine) (src : BitVec 32) (dst : Mem) (size : BitVec 32) :
    Except Fault (Mem × Machine) := do
  let (i, dst, m) ← m.copyFromLoop src dst 0 (size - 1).toNat
  return (dst.setByte i 0, m)

/-- The loop of `CopyStringToMachine`, with `n` rounds left at the index `i`. -/
def copyToLoop (m : Machine) (src : Mem) (dst : BitVec 32) (i : ℕ) :
    ℕ → Except Fault (ℕ × Machine)
  | 0 => .ok (i, m)
  | n + 1 =>
      if src i = 0 then .ok (i, m)
      else do
        let (_, m) ← m.writeMem (dst + BitVec.ofNat 32 i) .byte ((src i).toBitVec.signExtend 32)
        copyToLoop m src dst (i + 1) n

/-- `SynchConsole::CopyStringToMachine`. -/
def copyStringToMachine (m : Machine) (src : Mem) (dst : BitVec 32) (size : BitVec 32) :
    Except Fault Machine := do
  let (i, m) ← m.copyToLoop src dst 0 (size - 1).toNat
  let (_, m) ← m.writeMem (dst + BitVec.ofNat 32 i) .byte 0
  return m

/-- The bound of both loops, for a positive size. -/
theorem toNat_sub_one {size : BitVec 32} (h : 0 < size.toNat) :
    (size - 1).toNat = size.toNat - 1 := by
  have hone : (1 : BitVec 32).toNat = 1 := rfl
  rw [BitVec.toNat_sub_of_le (by rw [BitVec.le_def, hone]; omega), hone]

variable {m : Machine}

/-- The loop writes the bytes of the string. -/
theorem copyToLoop_eq_writeBytes (m : Machine) (src : Mem) (dst : BitVec 32) (i n : ℕ) :
    m.copyToLoop src dst i n =
      (fun m' => (i + (src.shift i).strnlen n, m')) <$>
        m.writeBytes src dst i ((src.shift i).strnlen n) := by
  induction n generalizing m i with
  | zero => rfl
  | succ n ih =>
      have hshift : (src.shift i).shift 1 = src.shift (i + 1) := by
        funext k
        simp only [Mem.shift_apply]
        congr 1
        omega
      by_cases hzero : src i = 0
      · have hlen : (src.shift i).strnlen (n + 1) = 0 := by simp [Mem.strnlen, hzero]
        rw [copyToLoop, if_pos hzero, hlen]
        rfl
      · have hlen : (src.shift i).strnlen (n + 1) = (src.shift (i + 1)).strnlen n + 1 := by
          rw [Mem.strnlen, if_neg (by simpa using hzero), hshift]
        have hplace : i + ((src.shift (i + 1)).strnlen n + 1) =
            i + 1 + (src.shift (i + 1)).strnlen n := by omega
        rw [copyToLoop, if_neg hzero, hlen, writeBytes, hplace]
        cases m.writeMem (dst + BitVec.ofNat 32 i) .byte ((src i).toBitVec.signExtend 32) with
        | error fault => rfl
        | ok result => exact ih result.2 (i + 1)

/-- The loop copies the string as far as it goes. -/
theorem copyToLoop_eq (src : Mem) (dst : BitVec 32) {n size : ℕ} (h : m.WritableRange dst size)
    (hsize : n ≤ size) :
    ∃ m', m.copyToLoop src dst 0 n = .ok (src.strnlen n, m') ∧ m.SameMapping m' ∧
      m'.registers = m.registers ∧
      (∀ j < src.strnlen n, m'.mainMemory (m.physAddr (dst + BitVec.ofNat 32 j)) = src j) ∧
      ∀ k, (∀ j < src.strnlen n, k ≠ m.physAddr (dst + BitVec.ofNat 32 j)) →
        m'.mainMemory k = m.mainMemory k := by
  have hshift : src.shift 0 = src := by
    funext k
    simp
  obtain ⟨m', hwrite, hsame, hregs, hbytes, hothers⟩ :=
    writeBytes_eq src h ((src.strnlen_le n).trans hsize)
  refine ⟨m', ?_, hsame, hregs, hbytes, hothers⟩
  rw [copyToLoop_eq_writeBytes, hshift, hwrite, Nat.zero_add]
  rfl

/-- **`CopyStringToMachine` into memory that can be written.** The bytes before the first
zero byte, at most `size - 1` of them, and a zero byte behind them replace bytes of the
range; nothing else changes. -/
theorem copyStringToMachine_of_range (src : Mem) (dst size : BitVec 32) (hsize : 0 < size.toNat)
    (h : m.WritableRange dst size.toNat) :
    ∃ m', m.copyStringToMachine src dst size = .ok m' ∧ m.SameMapping m' ∧
      m'.registers = m.registers ∧
      (∀ j < src.strnlen (size.toNat - 1),
        m'.mainMemory (m.physAddr (dst + BitVec.ofNat 32 j)) = src j) ∧
      m'.mainMemory (m.physAddr (dst + BitVec.ofNat 32 (src.strnlen (size.toNat - 1)))) = 0 ∧
      ∀ k, (∀ j ≤ src.strnlen (size.toNat - 1), k ≠ m.physAddr (dst + BitVec.ofNat 32 j)) →
        m'.mainMemory k = m.mainMemory k := by
  obtain ⟨m₁, hloop, hsame₁, hregs₁, hbytes₁, hothers₁⟩ :=
    copyToLoop_eq src dst h (Nat.sub_le size.toNat 1)
  have hbound := src.strnlen_le (size.toNat - 1)
  have hend := (h.of_sameMapping hsame₁).maps (src.strnlen (size.toNat - 1)) (by omega)
  obtain ⟨m', hwrite, hsame, hregs, hmemory⟩ := writeMem_of_maps hend 0
  rw [hsame₁.physAddr] at hmemory
  refine ⟨m', ?_, hsame₁.trans hsame, hregs.trans hregs₁, fun j hj => ?_, ?_, fun k hk => ?_⟩
  · rw [copyStringToMachine, toNat_sub_one hsize, hloop, Except.ok_bind]
    dsimp only
    rw [hwrite]
    rfl
  · rw [hmemory, Mem.setByte_of_ne _ _ fun heq => ?_, hbytes₁ j hj]
    have := h.injective j (by omega) _ (by omega) heq
    omega
  · rw [hmemory, Mem.setByte_self]
    rfl
  · rw [hmemory, Mem.setByte_of_ne _ _ (hk _ le_rfl), hothers₁ k fun j hj => hk j hj.le]

/-- The same, as the program sees it when distinct pages have distinct frames. -/
theorem copyStringToMachine_eq (src : Mem) (dst size : BitVec 32) (hdist : m.FramesDistinct)
    (hsize : 0 < size.toNat)
    (hmaps : ∀ j < size.toNat, m.Maps (dst + BitVec.ofNat 32 j) true) :
    ∃ m', m.copyStringToMachine src dst size = .ok m' ∧ m.SameMapping m' ∧
      m'.registers = m.registers ∧
      (∀ j < src.strnlen (size.toNat - 1),
        m'.userByte (dst + BitVec.ofNat 32 j) = some (src j)) ∧
      m'.userByte (dst + BitVec.ofNat 32 (src.strnlen (size.toNat - 1))) = some 0 ∧
      ∀ a, (∀ j ≤ src.strnlen (size.toNat - 1), a ≠ dst + BitVec.ofNat 32 j) →
        m'.userByte a = m.userByte a := by
  have h := WritableRange.of_framesDistinct hdist size.isLt.le hmaps
  have hbound := src.strnlen_le (size.toNat - 1)
  obtain ⟨m', hcopy, hsame, hregs, hbytes, hterm, hothers⟩ :=
    copyStringToMachine_of_range src dst size hsize h
  have hrange := h.of_sameMapping hsame
  refine ⟨m', hcopy, hsame, hregs, fun j hj => ?_, ?_, fun a ha => ?_⟩
  · rw [hrange.userByte (by omega), hsame.physAddr, hbytes j hj]
  · rw [hrange.userByte (by omega), hsame.physAddr, hterm]
  · refine hsame.userByte_of_others (A := fun c => ∃ j ≤ src.strnlen (size.toNat - 1),
      c = dst + BitVec.ofNat 32 j) hdist ?_ (fun k hk => hothers k fun j hj => hk _ ⟨j, hj, rfl⟩)
      fun ⟨j, hj, heq⟩ => ha j hj heq
    rintro _ ⟨j, hj, rfl⟩
    exact (hmaps j (by omega)).of_writing

/-! ## Strings from a program -/

/-- A load that is pending for a register is finished. -/
theorem delayedLoad_ok (hload : (m.registers LoadReg).toNat < NumTotalRegs)
    (nextReg nextValue : BitVec 32) :
    ∃ m', m.delayedLoad nextReg nextValue = .ok m' ∧ m'.registers LoadReg = nextReg := by
  refine ⟨_, dif_pos hload, ?_⟩
  rw [registers_writeRegister_of_ne _ _ (by decide), registers_writeRegister_of_ne _ _ (by decide),
    registers_writeRegister_self]

theorem updatePC_loadReg (m : Machine) : m.updatePC.registers LoadReg = m.registers LoadReg := by
  simp only [updatePC]
  rw [registers_writeRegister_of_ne _ _ (by decide), registers_writeRegister_of_ne _ _ (by decide),
    registers_writeRegister_of_ne _ _ (by decide)]

/-- `RaiseException` is entered by the kernel with no load pending, and leaves none. -/
theorem raiseException_ok (hload : m.registers LoadReg = 0) (a : BitVec 32) :
    ∃ m', m.raiseException a = .ok m' ∧ m'.registers LoadReg = 0 := by
  have hreg : (m.writeRegister BadVAddrReg a).registers LoadReg = 0 := by
    rw [registers_writeRegister_of_ne _ _ (by decide), hload]
  obtain ⟨m₁, hdelayed, hload₁⟩ := delayedLoad_ok (m := m.writeRegister BadVAddrReg a)
    (by rw [hreg]; decide) 0 0
  refine ⟨m₁.updatePC, ?_, (updatePC_loadReg m₁).trans hload₁⟩
  rw [raiseException, hdelayed]
  rfl

/-- A read whose exception does not find a pending load returns to the kernel. -/
theorem readMem_ok (hload : m.registers LoadReg = 0) (a : BitVec 32) (size : Width) :
    ∃ value m', m.readMem a size = .ok (value, m') ∧ m'.registers LoadReg = 0 := by
  rw [readMem]
  cases htranslate : m.translate a size false with
  | ok r =>
      refine ⟨_, r.2, rfl, ?_⟩
      simp only [translate] at htranslate
      split_ifs at htranslate
      obtain rfl := Except.ok.inj htranslate
      exact hload
  | error exception =>
      obtain ⟨m', hraise, hload'⟩ := raiseException_ok hload a
      exact ⟨none, m', by simp only [hraise, Except.ok_bind, pure, Except.pure], hload'⟩

/-- So `CopyStringFromMachine` always returns. -/
theorem copyFromLoop_ok (src : BitVec 32) (dst : Mem) (i n : ℕ) (hload : m.registers LoadReg = 0) :
    ∃ i' dst' m', m.copyFromLoop src dst i n = .ok (i', dst', m') := by
  induction n generalizing m dst i with
  | zero => exact ⟨i, dst, m, rfl⟩
  | succ n ih =>
      obtain ⟨value, m₁, hread, hload₁⟩ := readMem_ok hload (src + BitVec.ofNat 32 i) .byte
      rw [copyFromLoop, hread, Except.ok_bind]
      cases value with
      | none => exact ih dst (i + 1) hload₁
      | some ch =>
          dsimp only
          split
          · exact ⟨_, _, _, rfl⟩
          · exact ih _ (i + 1) hload₁

theorem copyStringFromMachine_ok (src : BitVec 32) (dst : Mem) (size : BitVec 32)
    (hload : m.registers LoadReg = 0) :
    ∃ string m', m.copyStringFromMachine src dst size = .ok (string, m') := by
  obtain ⟨i, dst', m', hloop⟩ := copyFromLoop_ok src dst 0 (size - 1).toNat hload
  exact ⟨dst'.setByte i 0, m', by rw [copyStringFromMachine, hloop]; rfl⟩

/-- The string `path`, with its terminating zero, is at `src` in the memory of the program. -/
structure UserString (m : Machine) (src : BitVec 32) (path : List UInt8) : Prop where
  noZero : (0 : UInt8) ∉ path
  chars : ∀ j, ∀ hj : j < path.length, m.userByte (src + BitVec.ofNat 32 j) = some path[j]
  terminated : m.userByte (src + BitVec.ofNat 32 path.length) = some 0

theorem signExtend_eq_zero {b : UInt8} : b.toBitVec.signExtend 32 = 0 ↔ b = 0 := by
  constructor
  · intro h
    rw [← ofNat_toNat_signExtend b, h]
    rfl
  · rintro rfl
    rfl

/-- The loop copies bytes of the program up to the first zero byte, which it copies too. -/
theorem copyFromLoop_eq (src : BitVec 32) (dst chars : Mem) {i n : ℕ}
    (hchars : ∀ j < n, j ≤ (chars.shift i).strnlen n →
      m.userByte (src + BitVec.ofNat 32 (i + j)) = some (chars (i + j))) :
    ∃ dst' m', m.copyFromLoop src dst i n =
        .ok (i + min ((chars.shift i).strnlen n + 1) n, dst', m') ∧
      (∀ j < (chars.shift i).strnlen n, dst' (i + j) = chars (i + j)) ∧
      ((chars.shift i).strnlen n < n → dst' (i + (chars.shift i).strnlen n) = 0) ∧
      (∀ k, k < i ∨ i + n ≤ k → dst' k = dst k) ∧ ∀ b, m'.userByte b = m.userByte b := by
  induction n generalizing m dst i with
  | zero =>
      refine ⟨dst, m, by simp [copyFromLoop], fun j hj => ?_, fun h => ?_, fun _ _ => rfl,
        fun _ => rfl⟩
      · cases hj
      · omega
  | succ n ih =>
      obtain ⟨m₁, hread, hsame⟩ := readMem_byte (hchars 0 (by omega) (by omega))
      rw [Nat.add_zero] at hread
      have hnext : m.copyFromLoop src dst i (n + 1) =
          if chars i = 0 then .ok (i + 1, dst.setByte i (chars i), m₁)
          else m₁.copyFromLoop src (dst.setByte i (chars i)) (i + 1) n := by
        rw [copyFromLoop, hread, Except.ok_bind]
        simp only [ofNat_toNat_signExtend, signExtend_eq_zero]
      by_cases hzero : chars i = 0
      · have hlen : (chars.shift i).strnlen (n + 1) = 0 := by simp [Mem.strnlen, hzero]
        rw [hlen, hnext, if_pos hzero]
        refine ⟨dst.setByte i (chars i), m₁, ?_, by simp, fun _ => ?_, fun k hk => ?_, hsame⟩
        · rw [Nat.zero_add, Nat.min_eq_left (by omega)]
        · rw [Nat.add_zero, Mem.setByte_self, hzero]
        · exact Mem.setByte_of_ne _ _ (by omega)
      · have hlen : (chars.shift i).strnlen (n + 1) = (chars.shift (i + 1)).strnlen n + 1 := by
          have hshift : (chars.shift i).shift 1 = chars.shift (i + 1) := by
            funext k
            simp only [Mem.shift_apply, Nat.add_assoc]
          rw [Mem.strnlen, if_neg (by simpa using hzero), hshift]
        rw [hlen] at hchars
        obtain ⟨dst', m', hloop, hcopied, hterm, hframe, hsame'⟩ := ih (m := m₁)
          (dst.setByte i (chars i)) (i := i + 1) (fun j hj hle => by
            rw [hsame, Nat.add_assoc, Nat.add_comm 1 j]
            exact hchars (j + 1) (by omega) (by omega))
        rw [hlen, hnext, if_neg hzero, hloop]
        refine ⟨dst', m', ?_, fun j hj => ?_, fun hlt => ?_, fun k hk => ?_, fun b => ?_⟩
        · congr 2
          omega
        · cases j with
          | zero => rw [Nat.add_zero, hframe i (by omega), Mem.setByte_self]
          | succ j =>
              rw [Nat.add_comm j 1, ← Nat.add_assoc]
              exact hcopied j (by omega)
        · rw [Nat.add_comm _ 1, ← Nat.add_assoc]
          exact hterm (by omega)
        · rw [hframe k (by omega)]
          exact Mem.setByte_of_ne _ _ (by omega)
        · rw [hsame', hsame]

/-- **`CopyStringFromMachine`.** The bytes before the first zero byte, at most `size - 1` of
them, and a zero byte behind them, within the buffer; the program is left alone. -/
theorem copyStringFromMachine_eq_strnlen (src : BitVec 32) (dst chars : Mem) {size : BitVec 32}
    (hsize : 0 < size.toNat)
    (hchars : ∀ j < size.toNat - 1, j ≤ chars.strnlen (size.toNat - 1) →
      m.userByte (src + BitVec.ofNat 32 j) = some (chars j)) :
    ∃ dst' m', m.copyStringFromMachine src dst size = .ok (dst', m') ∧
      (∀ j < chars.strnlen (size.toNat - 1), dst' j = chars j) ∧
      dst' (chars.strnlen (size.toNat - 1)) = 0 ∧
      (∀ k, size.toNat ≤ k → dst' k = dst k) ∧ ∀ b, m'.userByte b = m.userByte b := by
  have hshift : chars.shift 0 = chars := by
    funext k
    simp
  have hbound := chars.strnlen_le (size.toNat - 1)
  obtain ⟨dst', m', hloop, hcopied, hterm, hframe, hsame⟩ := copyFromLoop_eq src dst chars
    (i := 0) (n := size.toNat - 1) (by simpa only [hshift, Nat.zero_add] using hchars)
  simp only [hshift, Nat.zero_add] at hloop hcopied hterm hframe
  -- The zero byte that is put at the end is behind the one that was copied, if one was.
  refine ⟨dst'.setByte (min (chars.strnlen (size.toNat - 1) + 1) (size.toNat - 1)) 0, m', ?_,
    fun j hj => ?_, ?_, fun k hk => ?_, hsame⟩
  · rw [copyStringFromMachine, toNat_sub_one hsize, hloop]
    rfl
  · rw [Mem.setByte_of_ne _ _ (by omega)]
    exact hcopied j hj
  · by_cases hfits : chars.strnlen (size.toNat - 1) < size.toNat - 1
    · rw [Mem.setByte_of_ne _ _ (by omega)]
      exact hterm hfits
    · rw [show min (chars.strnlen (size.toNat - 1) + 1) (size.toNat - 1) =
        chars.strnlen (size.toNat - 1) by omega]
      exact Mem.setByte_self _ _ _
  · rw [Mem.setByte_of_ne _ _ (by omega)]
    exact hframe k (by omega)

/-- What a string of the program has at its places. -/
theorem UserString.userByte_ofString {src : BitVec 32} {path : List UInt8}
    (h : m.UserString src path) {j : ℕ} (hj : j ≤ path.length) :
    m.userByte (src + BitVec.ofNat 32 j) = some (Mem.ofString path j) := by
  rw [Mem.ofString]
  rcases hj.lt_or_eq with hlt | rfl
  · rw [h.chars j hlt, List.getD_eq_getElem _ _ hlt]
  · rw [h.terminated, List.getD_eq_default _ _ le_rfl]

theorem UserString.strnlen {src : BitVec 32} {path : List UInt8} (h : m.UserString src path)
    (n : ℕ) : (Mem.ofString path).strnlen n = min path.length n := by
  refine Mem.strnlen_eq (by omega) (fun j hj hzero => ?_) fun hlt => ?_
  · rw [Mem.ofString, List.getD_eq_getElem _ _ (by omega)] at hzero
    exact h.noZero (hzero ▸ List.getElem_mem _)
  · rw [Mem.ofString, List.getD_eq_default _ _ (by omega)]

/-- **`CopyStringFromMachine` of a string that is there.** It is cut to what fits. -/
theorem copyStringFromMachine_userString (src : BitVec 32) (dst : Mem) {size : BitVec 32}
    {path : List UInt8} (h : m.UserString src path) (hsize : 0 < size.toNat) :
    ∃ string m', m.copyStringFromMachine src dst size = .ok (string, m') ∧
      string.cString 0 size.toNat = path.take (size.toNat - 1) ∧
      (∀ k, size.toNat ≤ k → string k = dst k) ∧ ∀ b, m'.userByte b = m.userByte b := by
  obtain ⟨string, m', hcopy, hchars, hterm, hframe, hsame⟩ :=
    copyStringFromMachine_eq_strnlen src dst (Mem.ofString path) hsize (m := m)
      (fun j hj hle => h.userByte_ofString (by rw [h.strnlen] at hle; omega))
  rw [h.strnlen] at hchars hterm
  refine ⟨string, m', hcopy, ?_, hframe, hsame⟩
  refine Mem.cString_eq (fun hzero => h.noZero (List.mem_of_mem_take hzero)) ?_ (fun j hj => ?_) ?_
  · rw [List.length_take]
    omega
  · rw [List.length_take] at hj
    rw [Nat.zero_add, hchars j (by omega), Mem.ofString, List.getElem_take,
      List.getD_eq_getElem _ _ (by omega)]
  · rw [Nat.zero_add, List.length_take, Nat.min_comm]
    exact hterm

/-- **`CopyStringFromMachine` of a string that is there and fits.** -/
theorem copyStringFromMachine_eq (src : BitVec 32) (dst : Mem) {size : BitVec 32}
    {path : List UInt8} (h : m.UserString src path) (hlength : path.length + 1 < size.toNat) :
    ∃ string m', m.copyStringFromMachine src dst size = .ok (string, m') ∧
      string.cString 0 size.toNat = path := by
  have hsize : 0 < size.toNat := by omega
  obtain ⟨string, m', hcopy, hstring, -⟩ := copyStringFromMachine_userString src dst h hsize
  exact ⟨string, m', hcopy, by rw [hstring, List.take_of_length_le (by omega)]⟩

end Machine

end Nachos
