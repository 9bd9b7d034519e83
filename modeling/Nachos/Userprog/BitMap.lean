/-
# Bit maps

`userprog/bitmap.{h,cc}`: an array of bits packed into 32-bit words, used for the
free disk sectors and for the free physical frames. The words live in byte
memory, because the file system stores a bit map on disk by copying its raw
words. Reading and writing the map through a file is in `Filesys.OpenFile`.
-/

import Mathlib.Data.Finset.Card
import Mathlib.Data.Finset.Range
import Mathlib.Order.Interval.Finset.Nat
import Nachos.Base.Mem
import Nachos.Base.Fault

namespace Nachos

open Base

/-- `divRoundUp` of `threads/utility.h`, on C `int`s. -/
def divRoundUp (n s : ℤ) : ℤ := n.tdiv s + (if n.tmod s > 0 then 1 else 0)

/-- Bits in one word of the map. -/
def BitsInWord : ℕ := 32

/-- `class BitMap`. `numWords` is computed where it is used. -/
structure BitMap where
  /-- Number of bits in the bitmap. -/
  numBits : ℕ
  /-- Bit storage. -/
  map : Mem

namespace BitMap

/-- Number of words of bitmap storage. -/
def numWords (b : BitMap) : ℤ := divRoundUp b.numBits BitsInWord

/-- The body of `Test`, for an index that passed the range check. -/
def testBit (b : BitMap) (which : ℕ) : Bool :=
  (b.map.word (4 * (which / 32)) &&& (1#32 <<< (which % 32))) != 0#32

/-- The body of `Mark`, for an index that passed the range check. -/
def markBit (b : BitMap) (which : ℕ) : BitMap :=
  { b with
    map := b.map.setWord (4 * (which / 32))
      (b.map.word (4 * (which / 32)) ||| (1#32 <<< (which % 32))) }

/-- The body of `Clear`, for an index that passed the range check. -/
def clearBit (b : BitMap) (which : ℕ) : BitMap :=
  { b with
    map := b.map.setWord (4 * (which / 32))
      (b.map.word (4 * (which / 32)) &&& ~~~(1#32 <<< (which % 32))) }

/-- The range check that `Mark`, `Clear` and `Test` all start with. -/
def checkIndex (b : BitMap) (which : ℤ) : Except Fault Unit :=
  assert (which ≥ 0 ∧ which < b.numBits)

/-- `BitMap::Mark`. -/
def mark (b : BitMap) (which : ℤ) : Except Fault BitMap := do
  b.checkIndex which
  return b.markBit which.toNat

/-- `BitMap::Clear`. -/
def clear (b : BitMap) (which : ℤ) : Except Fault BitMap := do
  b.checkIndex which
  return b.clearBit which.toNat

/-- `BitMap::Test`. -/
def test (b : BitMap) (which : ℤ) : Except Fault Bool := do
  b.checkIndex which
  return b.testBit which.toNat

/-- `BitMap::BitMap`: every bit is cleared, one after the other, in memory that
holds whatever `uninit` says. -/
def new (uninit : Mem) (nitems : ℕ) : BitMap :=
  (List.range nitems).foldl clearBit ⟨nitems, uninit⟩

/-- `BitMap::Find`: the first clear bit is marked and returned; `-1` if there is
none. The indices tried are all in range, so the checks cannot fail. -/
def find (b : BitMap) : ℤ × BitMap :=
  match (List.range b.numBits).find? fun i => !b.testBit i with
  | some i => (i, b.markBit i)
  | none => (-1, b)

/-- `BitMap::NumClear`. -/
def numClear (b : BitMap) : ℕ := (List.range b.numBits).countP fun i => !b.testBit i

/-! ## The map as a set of marked indices -/

theorem testBit_eq_getLsbD (b : BitMap) (which : ℕ) :
    b.testBit which = (b.map.word (4 * (which / 32))).getLsbD (which % 32) := by
  have hlt : which % 32 < 32 := Nat.mod_lt _ (by norm_num)
  have hbit (w : BitVec 32) : w &&& (1#32 <<< (which % 32)) = 0#32 ↔
      w.getLsbD (which % 32) = false := by
    constructor
    · intro h
      have := congrArg (fun x : BitVec 32 => x.getLsbD (which % 32)) h
      simpa [hlt] using this
    · intro h
      apply BitVec.eq_of_getLsbD_eq
      intro i hi
      by_cases hequal : i = which % 32
      · subst hequal
        simp [h]
      · by_cases hle : i < which % 32
        · simp [hle]
        · have : i - which % 32 ≠ 0 := by omega
          simp [BitVec.getLsbD_one, this]
  unfold testBit
  cases hget : (b.map.word (4 * (which / 32))).getLsbD (which % 32) with
  | false => simpa using (hbit _).mpr hget
  | true =>
      have hne : b.map.word (4 * (which / 32)) &&& (1#32 <<< (which % 32)) ≠ 0#32 := by
        intro h
        rw [(hbit _).mp h] at hget
        cases hget
      simpa using hne

/-- A map whose words agree with another's has the same marked bits. -/
theorem testBit_congr {b c : BitMap} {which : ℕ}
    (h : b.map.word (4 * (which / 32)) = c.map.word (4 * (which / 32))) :
    b.testBit which = c.testBit which := by
  rw [testBit_eq_getLsbD, testBit_eq_getLsbD, h]

private theorem word_offset_cases {i j : ℕ} (h : i / 32 ≠ j / 32) :
    4 * (i / 32) + 4 ≤ 4 * (j / 32) ∨ 4 * (j / 32) + 4 ≤ 4 * (i / 32) := by
  omega

/-- The mask of a bit, looked at in a place of the same word. -/
private theorem getLsbD_mask {i j : ℕ} (hword : i / 32 = j / 32) :
    (1#32 <<< (i % 32)).getLsbD (j % 32) = decide (j = i) := by
  have hj : j % 32 < 32 := Nat.mod_lt _ (by norm_num)
  rw [BitVec.getLsbD_shiftLeft, BitVec.getLsbD_one]
  by_cases hequal : j = i
  · subst hequal
    simp [hj]
  · have hbit : j % 32 ≠ i % 32 := by omega
    by_cases hlt : j % 32 < i % 32
    · simp [hlt, hequal]
    · have hshifted : j % 32 - i % 32 ≠ 0 := by omega
      simp [hshifted, hequal]

@[simp]
theorem testBit_markBit (b : BitMap) (i j : ℕ) :
    (b.markBit i).testBit j = (decide (j = i) || b.testBit j) := by
  rw [testBit_eq_getLsbD, testBit_eq_getLsbD, markBit]
  by_cases hword : i / 32 = j / 32
  · rw [← hword, Mem.word_setWord_self, BitVec.getLsbD_or, getLsbD_mask hword, Bool.or_comm]
  · rw [Mem.word_setWord_of_disjoint _ _ (word_offset_cases hword)]
    have hequal : j ≠ i := by rintro rfl; exact hword rfl
    simp [hequal]

@[simp]
theorem testBit_clearBit (b : BitMap) (i j : ℕ) :
    (b.clearBit i).testBit j = (decide (j ≠ i) && b.testBit j) := by
  rw [testBit_eq_getLsbD, testBit_eq_getLsbD, clearBit]
  have hj : j % 32 < 32 := Nat.mod_lt _ (by norm_num)
  by_cases hword : i / 32 = j / 32
  · rw [← hword, Mem.word_setWord_self, BitVec.getLsbD_and, BitVec.getLsbD_not,
      getLsbD_mask hword, decide_eq_true hj, Bool.true_and, Bool.and_comm, decide_not]
  · rw [Mem.word_setWord_of_disjoint _ _ (word_offset_cases hword)]
    have hequal : j ≠ i := by rintro rfl; exact hword rfl
    simp [hequal]

@[simp]
theorem numBits_markBit (b : BitMap) (i : ℕ) : (b.markBit i).numBits = b.numBits := rfl

@[simp]
theorem numBits_clearBit (b : BitMap) (i : ℕ) : (b.clearBit i).numBits = b.numBits := rfl

private theorem foldl_clearBit (l : List ℕ) (b : BitMap) :
    (l.foldl clearBit b).numBits = b.numBits ∧
      ∀ j, (l.foldl clearBit b).testBit j = (decide (j ∉ l) && b.testBit j) := by
  induction l generalizing b with
  | nil => simp
  | cons i rest ih =>
      obtain ⟨hbits, htest⟩ := ih (b.clearBit i)
      refine ⟨hbits, fun j => ?_⟩
      rw [List.foldl_cons, htest j, testBit_clearBit]
      by_cases hequal : j = i <;> simp [hequal]

@[simp]
theorem numBits_new (uninit : Mem) (n : ℕ) : (new uninit n).numBits = n :=
  (foldl_clearBit _ _).1

/-- A new bit map is clear whatever the memory held. -/
theorem testBit_new (uninit : Mem) {n j : ℕ} (h : j < n) : (new uninit n).testBit j = false := by
  rw [new, (foldl_clearBit _ _).2 j]
  simp [h]

theorem checkIndex_of_lt (b : BitMap) {which : ℤ} (h : 0 ≤ which ∧ which < b.numBits) :
    b.checkIndex which = .ok () := assert_of h

theorem mark_of_lt (b : BitMap) {i : ℕ} (h : i < b.numBits) : b.mark i = .ok (b.markBit i) := by
  rw [mark, checkIndex_of_lt b (by omega), Except.ok_bind, Int.toNat_natCast]
  rfl

/-- What `Find` does: it takes the least clear bit, and only fails on a full map. -/
theorem find_cases (b : BitMap) :
    (∃ i < b.numBits, b.testBit i = false ∧ (∀ j < i, b.testBit j = true) ∧
        b.find = ((i : ℤ), b.markBit i)) ∨
      ((∀ i < b.numBits, b.testBit i = true) ∧ b.find = (-1, b)) := by
  unfold find
  cases hfind : (List.range b.numBits).find? fun i => !b.testBit i with
  | none =>
      refine Or.inr ⟨fun i hi => ?_, rfl⟩
      simpa using List.find?_eq_none.mp hfind i (List.mem_range.mpr hi)
  | some i =>
      obtain ⟨hclear, hless⟩ := List.find?_range_eq_some.mp hfind
      exact Or.inl ⟨i, by simpa using hless.1, by simpa using hclear,
        fun j hj => by simpa using hless.2 j hj, rfl⟩

/-- `Find` on a map with a least clear bit. -/
theorem find_of_least (b : BitMap) {i : ℕ} (hi : i < b.numBits) (hclear : b.testBit i = false)
    (hleast : ∀ j < i, b.testBit j = true) : b.find = ((i : ℤ), b.markBit i) := by
  obtain ⟨k, hk, hkclear, hkleast, hfind⟩ | ⟨hfull, _⟩ := b.find_cases
  · have hequal : k = i := by
      rcases Nat.lt_trichotomy k i with h | h | h
      · rw [hleast k h] at hkclear
        cases hkclear
      · exact h
      · rw [hkleast i h] at hclear
        cases hclear
    rw [hfind, hequal]
  · rw [hfull i hi] at hclear
    cases hclear

/-- `Find` on a map whose marked bits are the first `m`: one more is marked. -/
theorem find_of_marked {b : BitMap} {m : ℕ} (hm : m < b.numBits)
    (h : ∀ i < b.numBits, b.testBit i = decide (i < m)) :
    b.find = ((m : ℤ), b.markBit m) ∧
      ∀ i < b.numBits, (b.markBit m).testBit i = decide (i < m + 1) := by
  refine ⟨b.find_of_least hm (by rw [h m hm]; simp)
    fun i hi => by rw [h i (by omega), decide_eq_true_eq]; exact hi, fun i hi => ?_⟩
  rw [testBit_markBit, h i hi, ← Bool.decide_or, decide_eq_decide]
  omega

/-- The indices that are clear, as a finite set. -/
def clearSet (b : BitMap) : Finset ℕ := (Finset.range b.numBits).filter fun i => b.testBit i = false

@[simp]
theorem mem_clearSet {b : BitMap} {i : ℕ} :
    i ∈ b.clearSet ↔ i < b.numBits ∧ b.testBit i = false := by
  simp [clearSet]

/-- `NumClear` counts the clear set. -/
theorem numClear_eq_card (b : BitMap) : b.numClear = b.clearSet.card := by
  unfold numClear clearSet
  rw [List.countP_eq_length_filter, Finset.card_def, Finset.filter_val, Finset.range_val,
    Multiset.range, Multiset.filter_coe, Multiset.coe_card]
  congr 1
  apply List.filter_congr
  intro i _
  cases b.testBit i <;> simp

/-- `NumClear` depends on the bits in range only. -/
theorem numClear_congr {b c : BitMap} (hbits : b.numBits = c.numBits)
    (h : ∀ i < c.numBits, b.testBit i = c.testBit i) : b.numClear = c.numClear := by
  rw [numClear, numClear, hbits]
  exact List.countP_congr fun i hi => by rw [h i (List.mem_range.mp hi)]

/-- The number of clear bits when the marked ones are the first `m`. -/
theorem numClear_of_marked {b : BitMap} {m : ℕ}
    (h : ∀ i < b.numBits, b.testBit i = decide (i < m)) : b.numClear = b.numBits - m := by
  have hset : b.clearSet = Finset.Ico m b.numBits := by
    ext i
    rw [mem_clearSet, Finset.mem_Ico]
    constructor
    · rintro ⟨hlt, hclear⟩
      rw [h i hlt, decide_eq_false_iff_not] at hclear
      omega
    · rintro ⟨hle, hlt⟩
      refine ⟨hlt, ?_⟩
      rw [h i hlt, decide_eq_false_iff_not]
      omega
  rw [numClear_eq_card, hset, Nat.card_Ico]

theorem clearSet_markBit (b : BitMap) (i : ℕ) : (b.markBit i).clearSet = b.clearSet.erase i := by
  ext j
  by_cases hequal : j = i <;> simp [hequal]

/-- Marking a clear bit. -/
theorem numClear_markBit {b : BitMap} {i : ℕ} (hi : i < b.numBits) (hclear : b.testBit i = false) :
    (b.markBit i).numClear + 1 = b.numClear := by
  rw [numClear_eq_card, numClear_eq_card, clearSet_markBit,
    Finset.card_erase_add_one (mem_clearSet.mpr ⟨hi, hclear⟩)]

theorem numClear_of_full {b : BitMap} (hfull : ∀ i < b.numBits, b.testBit i = true) :
    b.numClear = 0 := by
  rw [numClear_of_marked (m := b.numBits) fun i hi => by simpa [hi] using hfull i hi, Nat.sub_self]

end BitMap

end Nachos
