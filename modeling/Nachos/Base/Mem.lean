/-
# Byte memory

A C object is a run of bytes, and the same bytes are what a device transfers.
Memory is therefore a total map from offsets to bytes: the size of an object is
the business of whoever accesses it, and bytes outside the object are simply the
bytes that happen to lie there. Reading a field is decoding at an offset and
writing one is encoding at an offset, so a copy of raw bytes carries every field
along without any separate serialization step.
-/

import Mathlib.Tactic.Ring
import Mathlib.Tactic.Linarith

namespace Nachos.Base

/-- A map from byte offsets to bytes. -/
abbrev Mem := ℕ → UInt8

namespace Mem

/-- The 32-bit little-endian word stored at offset `a`. -/
def word (m : Mem) (a : ℕ) : BitVec 32 :=
  BitVec.ofNat 32 ((m a).toNat + 256 * (m (a + 1)).toNat + 65536 * (m (a + 2)).toNat +
    16777216 * (m (a + 3)).toNat)

/-- Store a 32-bit word at offset `a`, least significant byte first. -/
def setWord (m : Mem) (a : ℕ) (w : BitVec 32) : Mem :=
  fun k => if a ≤ k ∧ k < a + 4 then UInt8.ofNat (w.toNat / 256 ^ (k - a)) else m k

/-- The C `unsigned short` stored at offset `a`. -/
def uint16 (m : Mem) (a : ℕ) : ℕ := (m a).toNat + 256 * (m (a + 1)).toNat

/-- The C `int` stored at offset `a`. -/
def int32 (m : Mem) (a : ℕ) : ℤ := (m.word a).toInt

/-- Store a C `int` at offset `a`. -/
def setInt32 (m : Mem) (a : ℕ) (v : ℤ) : Mem := m.setWord a (BitVec.ofInt 32 v)

/-- Store one byte. -/
def setByte (m : Mem) (a : ℕ) (b : UInt8) : Mem := fun k => if k = a then b else m k

/-- `bcopy`: the bytes `[s, s + n)` of `src` replace the bytes `[a, a + n)`. -/
def copy (m : Mem) (a : ℕ) (src : Mem) (s n : ℕ) : Mem :=
  fun k => if a ≤ k ∧ k < a + n then src (k - a + s) else m k

/-- The memory that starts `a` bytes further on. -/
def shift (m : Mem) (a : ℕ) : Mem := fun k => m (a + k)

@[simp]
theorem shift_apply (m : Mem) (a k : ℕ) : m.shift a k = m (a + k) := rfl

theorem setByte_self (m : Mem) (a : ℕ) (b : UInt8) : m.setByte a b a = b := if_pos rfl

theorem setByte_of_ne (m : Mem) {a k : ℕ} (b : UInt8) (h : k ≠ a) :
    m.setByte a b k = m k := if_neg h

theorem copy_of_mem (m : Mem) {a s n k : ℕ} (src : Mem) (h : a ≤ k ∧ k < a + n) :
    m.copy a src s n k = src (k - a + s) := if_pos h

theorem copy_of_not_mem (m : Mem) {a s n k : ℕ} (src : Mem) (h : k < a ∨ a + n ≤ k) :
    m.copy a src s n k = m k := if_neg (by omega)

@[simp]
theorem copy_zero (m : Mem) (a s : ℕ) (src : Mem) : m.copy a src s 0 = m := by
  funext k
  exact copy_of_not_mem m src (by omega)

theorem setWord_of_not_mem (m : Mem) {a k : ℕ} (w : BitVec 32) (h : k < a ∨ a + 4 ≤ k) :
    m.setWord a w k = m k := if_neg (by omega)

/-- A word depends on its four bytes only. -/
theorem word_congr {m m' : Mem} {a b : ℕ} (h : ∀ k < 4, m (a + k) = m' (b + k)) :
    m.word a = m'.word b := by
  have h0 := h 0 (by omega)
  simp only [Nat.add_zero] at h0
  simp only [word, h0, h 1 (by omega), h 2 (by omega), h 3 (by omega)]

theorem int32_congr {m m' : Mem} {a b : ℕ} (h : ∀ k < 4, m (a + k) = m' (b + k)) :
    m.int32 a = m'.int32 b := by
  rw [int32, int32, word_congr h]

@[simp]
theorem word_setWord_self (m : Mem) (a : ℕ) (w : BitVec 32) : (m.setWord a w).word a = w := by
  have hw := w.isLt
  apply BitVec.eq_of_toNat_eq
  have byte (i : ℕ) (hi : i < 4) :
      (m.setWord a w (a + i)).toNat = w.toNat / 256 ^ i % 256 := by
    rw [setWord, if_pos (by omega), Nat.add_sub_cancel_left, UInt8.toNat_ofNat']
  have byte0 := byte 0 (by omega)
  rw [Nat.add_zero] at byte0
  simp only [word, byte0, byte 1 (by omega), byte 2 (by omega), byte 3 (by omega),
    BitVec.toNat_ofNat]
  omega

theorem word_setWord_of_disjoint (m : Mem) {a b : ℕ} (w : BitVec 32)
    (h : a + 4 ≤ b ∨ b + 4 ≤ a) : (m.setWord a w).word b = m.word b :=
  word_congr fun k hk => setWord_of_not_mem m w (by omega)

theorem int32_setInt32_self (m : Mem) (a : ℕ) {v : ℤ} (hlow : -2 ^ 31 ≤ v) (hhigh : v < 2 ^ 31) :
    (m.setInt32 a v).int32 a = v := by
  rw [int32, setInt32, word_setWord_self]
  exact BitVec.toInt_ofInt_eq_self (by omega) (by simpa using hlow) (by simpa using hhigh)

theorem int32_setInt32_of_disjoint (m : Mem) {a b : ℕ} (v : ℤ)
    (h : a + 4 ≤ b ∨ b + 4 ≤ a) : (m.setInt32 a v).int32 b = m.int32 b := by
  rw [int32, setInt32, word_setWord_of_disjoint m _ h, int32]

theorem setInt32_of_not_mem (m : Mem) {a k : ℕ} (v : ℤ) (h : k < a ∨ a + 4 ≤ k) :
    m.setInt32 a v k = m k := setWord_of_not_mem m _ h

/-- A stored `int` always lies in the range of the type. -/
theorem int32_range (m : Mem) (a : ℕ) : -2 ^ 31 ≤ m.int32 a ∧ m.int32 a < 2 ^ 31 := by
  have hlow := BitVec.le_toInt (m.word a)
  have hhigh := BitVec.toInt_lt (x := m.word a)
  simpa [int32] using And.intro hlow hhigh

end Mem

end Nachos.Base
