/-
# Address spaces

`userprog/addrspace.{h,cc}`: what an address space keeps about its threads and its
pages, and the functions on it. The sizes are macros without parentheses, so what
counts is the text they expand to: `UserThreadMax` is `1024 * 2 / PageSize * 3`, and a
division by `UserThreadStackSize` divides by `PageSize` and multiplies by `3`.

The functions on the thread tables are called with the lock of the table held.
-/

import Mathlib.Data.List.FinRange
import Mathlib.Data.Fintype.Basic
import Mathlib.Logic.Function.Basic
import Nachos.Machine.Translate

namespace Nachos

open Base

/-- `UserStackSize`. -/
def UserStackSize : ℕ := 1024 * 2

/-- `UserThreadMax`, as it expands. -/
def UserThreadMax : ℕ := 1024 * 2 / PageSize * 3

/-- `class Condition` of `threads/synch.cc`, by its two counters; each of its functions
works on them under the inner lock of the condition. -/
structure Condition where
  totalSleepers : ℕ
  /-- The value of the semaphore the sleepers wait at. -/
  sleepLock : ℕ

namespace Condition

/-- `Condition::Condition`. -/
def new : Condition := ⟨0, 0⟩

/-- `Condition::Wait` up to the semaphore, where the caller goes to sleep. -/
def wait (c : Condition) : Condition := { c with totalSleepers := c.totalSleepers + 1 }

/-- `Condition::Broadcast`. -/
def broadcast (c : Condition) : Condition := ⟨0, c.sleepLock + c.totalSleepers⟩

/-- The end of `Condition::Wait`: a sleeper passes the semaphore, if it can. -/
def wakeUp (c : Condition) : Option Condition :=
  if 0 < c.sleepLock then some { c with sleepLock := c.sleepLock - 1 } else none

end Condition

/-- `class AddrSpace`, once it is constructed. Of `threadIDs` only the first
`nbThreads` entries are ever read, and they are what is kept here. -/
structure AddrSpace where
  numPages : ℕ
  /-- The constructor asserts it. -/
  numPages_le : numPages ≤ NumPhysPages
  pageTable : List TranslationEntry
  pid : ℕ
  /-- The threads living in this address space. -/
  threadIDs : List ℕ
  maxTIDGiven : ℕ
  threadConditions : Fin UserThreadMax → Condition
  threadExitCond : Condition
  threadStackPointer : Fin UserThreadMax → Bool

namespace AddrSpace

/-- What the constructor sets up after the page table: it already contains the main
thread, and no stack is taken. -/
def init (numPages : ℕ) (hpages : numPages ≤ NumPhysPages) (pageTable : List TranslationEntry)
    (pid : ℕ) : AddrSpace where
  numPages := numPages
  numPages_le := hpages
  pageTable := pageTable
  pid := pid
  threadIDs := [1]
  maxTIDGiven := 1
  threadConditions := fun _ => Condition.new
  threadExitCond := Condition.new
  threadStackPointer := fun _ => false

/-- `AddrSpace::GetTotalThreads`, the value of `nbThreads`. -/
def getTotalThreads (space : AddrSpace) : ℕ := space.threadIDs.length

/-- `AddrSpace::ContainThreadID`. -/
def containThreadID (space : AddrSpace) (ID : ℕ) : Bool := decide (ID ∈ space.threadIDs)

/-- `AddrSpace::GetNextThreadID`, on an `unsigned int`. -/
def getNextThreadID (space : AddrSpace) : ℕ × AddrSpace :=
  let next := (space.maxTIDGiven + 1) % 2 ^ 32
  (next, { space with maxTIDGiven := next })

/-- `AddrSpace::AddThreadID`. The array has `UserThreadMax` entries. -/
def addThreadID (space : AddrSpace) (ID : ℕ) : Except Fault AddrSpace := do
  if space.containThreadID ID then
    return space
  inBounds (space.getTotalThreads < UserThreadMax)
  return { space with threadIDs := space.threadIDs ++ [ID] }

/-- One of the conditions of `threadConditions` is replaced; the index is not checked. -/
def updateCondition (space : AddrSpace) (ID : ℕ) (f : Condition → Condition) :
    Except Fault AddrSpace :=
  if h : ID < UserThreadMax then
    .ok { space with
      threadConditions := Function.update space.threadConditions ⟨ID, h⟩
        (f (space.threadConditions ⟨ID, h⟩)) }
  else .error .bounds

/-- `AddrSpace::ThreadJoinConditionWait`, up to where the caller sleeps. -/
def threadJoinConditionWait (space : AddrSpace) (ID : ℕ) : Except Fault AddrSpace :=
  space.updateCondition ID Condition.wait

/-- `AddrSpace::ThreadJoinConditionBroadcast`. -/
def threadJoinConditionBroadcast (space : AddrSpace) (ID : ℕ) : Except Fault AddrSpace :=
  space.updateCondition ID Condition.broadcast

/-- `AddrSpace::ThreadExitConditionBroadcast`. -/
def threadExitConditionBroadcast (space : AddrSpace) : AddrSpace :=
  { space with threadExitCond := space.threadExitCond.broadcast }

/-- `AddrSpace::RemoveThreadID`: the entries after the first match are shifted down. -/
def removeThreadID (space : AddrSpace) (ID : ℕ) : Except Fault AddrSpace :=
  if ID ∈ space.threadIDs then do
    let space := { space with threadIDs := space.threadIDs.erase ID }
    let space ← space.threadJoinConditionBroadcast ID
    return space.threadExitConditionBroadcast
  else return space

/-- The stack pointer that goes with a slot, in `unsigned int` arithmetic and
returned as an `int`. -/
def stackPointer (space : AddrSpace) (i : ℕ) : ℤ :=
  wrap32 (space.numPages * PageSize - 16 - ((i + 1) * PageSize * 3))

/-- `AddrSpace::GetThreadStackPointer`: the first free slot is taken. -/
def getThreadStackPointer (space : AddrSpace) : Except Fault (ℤ × AddrSpace) :=
  match (List.finRange UserThreadMax).find? fun i => !space.threadStackPointer i with
  | some i => .ok (space.stackPointer i,
      { space with threadStackPointer := Function.update space.threadStackPointer i true })
  | none => .error .assertion

/-- The slot that `RemoveThreadStackPointer` computes: `(UserStackSize - sp) /
UserThreadStackSize` as it expands. -/
def slotIndex (sp : ℤ) : ℤ := ((1024 * 2 - sp).tdiv PageSize) * 3

/-- `AddrSpace::RemoveThreadStackPointer`; the index is not checked. -/
def removeThreadStackPointer (space : AddrSpace) (sp : ℤ) : Except Fault AddrSpace :=
  if h : 0 ≤ slotIndex sp ∧ (slotIndex sp).toNat < UserThreadMax then
    .ok { space with
      threadStackPointer :=
        Function.update space.threadStackPointer ⟨(slotIndex sp).toNat, h.2⟩ false }
  else .error .bounds

/-- Byte `j` of an `unsigned int`, the low byte being the first, is set to zero. -/
def clearByte (x j : ℕ) : ℕ := x - x / 256 ^ j % 256 * 256 ^ j

/-- What becomes of an address space when byte `i` behind `threadStackPointer` is set to
zero. `nbThreads` and `maxTIDGiven` come first; behind them are `isCreated`, which is not
read again, and `numPages` and `pageTable`, which `SaveState` writes back. -/
def clearBehind (space : AddrSpace) (i : ℕ) : AddrSpace :=
  if i < 4 then
    { space with threadIDs := space.threadIDs.take (clearByte space.getTotalThreads i) }
  else if i < 8 then { space with maxTIDGiven := clearByte space.maxTIDGiven (i - 4) }
  else space

/-! ## What the functions do -/

theorem userThreadMax_eq : UserThreadMax = 48 := rfl

theorem pageSize_eq : PageSize = 128 := rfl

theorem numPhysPages_eq : NumPhysPages = 256 := rfl

variable {space : AddrSpace}

/-- Everything but the condition variables. -/
structure SameTables (space space' : AddrSpace) : Prop where
  numPages : space'.numPages = space.numPages
  threadIDs : space'.threadIDs = space.threadIDs
  maxTIDGiven : space'.maxTIDGiven = space.maxTIDGiven
  threadStackPointer : space'.threadStackPointer = space.threadStackPointer

/-- A condition variable that is in the table. -/
theorem updateCondition_of_lt (space : AddrSpace) {ID : ℕ} (h : ID < UserThreadMax)
    (f : Condition → Condition) :
    ∃ space', space.updateCondition ID f = .ok space' ∧ space.SameTables space' := by
  rw [updateCondition, dif_pos h]
  exact ⟨_, rfl, ⟨rfl, rfl, rfl, rfl⟩⟩

/-- Removing an id that is there, if its condition variable is in the table. -/
theorem removeThreadID_of_mem {ID : ℕ} (hmem : ID ∈ space.threadIDs) (hlt : ID < UserThreadMax) :
    ∃ space', space.removeThreadID ID = .ok space' ∧
      { space with threadIDs := space.threadIDs.erase ID }.SameTables space' := by
  obtain ⟨space', hbroadcast, hsame⟩ := updateCondition_of_lt
    { space with threadIDs := space.threadIDs.erase ID } hlt Condition.broadcast
  refine ⟨space'.threadExitConditionBroadcast, ?_, ⟨hsame.numPages, hsame.threadIDs,
    hsame.maxTIDGiven, hsame.threadStackPointer⟩⟩
  simp only [removeThreadID, if_pos hmem, threadJoinConditionBroadcast, hbroadcast,
    Except.ok_bind]
  rfl

/-- Adding a new id while there is room. -/
theorem addThreadID_of_not_mem (space : AddrSpace) {ID : ℕ} (hmem : ID ∉ space.threadIDs)
    (hroom : space.getTotalThreads < UserThreadMax) :
    space.addThreadID ID = .ok { space with threadIDs := space.threadIDs ++ [ID] } := by
  simp [addThreadID, containThreadID, hmem, inBounds_of hroom, pure, Except.pure]

/-- `GetThreadStackPointer` takes a free slot, and fails only when there is none. -/
theorem getThreadStackPointer_cases (space : AddrSpace) :
    (∃ k, space.threadStackPointer k = false ∧ space.getThreadStackPointer =
        .ok (space.stackPointer k, { space with
          threadStackPointer := Function.update space.threadStackPointer k true })) ∨
      ((∀ k, space.threadStackPointer k = true) ∧
        space.getThreadStackPointer = .error .assertion) := by
  unfold getThreadStackPointer
  cases hfind : (List.finRange UserThreadMax).find? fun i => !space.threadStackPointer i with
  | some k => exact Or.inl ⟨k, by simpa using List.find?_some hfind, rfl⟩
  | none =>
      refine Or.inr ⟨fun k => ?_, rfl⟩
      simpa using List.find?_eq_none.mp hfind k (List.mem_finRange k)

/-- For the sizes that occur, the arithmetic does not wrap. -/
theorem stackPointer_eq (space : AddrSpace) (k : Fin UserThreadMax) :
    space.stackPointer k = space.numPages * 128 - 16 - (k + 1) * 384 := by
  have hpages := space.numPages_le
  have hk : (k : ℕ) < 48 := k.isLt
  rw [numPhysPages_eq] at hpages
  rw [stackPointer, pageSize_eq, wrap32_eq_self (by push_cast; omega) (by push_cast; omega)]
  push_cast
  ring

/-- Different slots have different stack pointers. -/
theorem stackPointer_injective (space : AddrSpace) :
    Function.Injective fun k : Fin UserThreadMax => space.stackPointer k := by
  intro j k h
  simp only [stackPointer_eq] at h
  exact Fin.ext (by omega)

/-- A stack pointer is never `0`, which the main thread of a process has in its place. -/
theorem stackPointer_ne_zero (space : AddrSpace) (k : Fin UserThreadMax) :
    space.stackPointer k ≠ 0 := by
  rw [stackPointer_eq]
  omega

/-- The way back from a stack pointer to a slot: above the stack area the quotient is
negative and rounds towards zero. -/
theorem slotIndex_stackPointer (space : AddrSpace) (k : Fin UserThreadMax) :
    slotIndex (space.stackPointer k) =
      if (space.numPages : ℤ) ≤ 19 + 3 * k then 3 * (19 + 3 * (k : ℤ) - space.numPages)
      else 3 * (20 + 3 * (k : ℤ) - space.numPages) := by
  rw [slotIndex, stackPointer_eq, pageSize_eq]
  have hequal : (1024 * 2 - ((space.numPages : ℤ) * 128 - 16 - (k + 1) * 384)) =
      128 * (19 + 3 * k - space.numPages) + 16 := by
    ring
  rw [hequal]
  split
  · rename_i hle
    rw [Int.tdiv_eq_ediv_of_nonneg (by omega)]
    push_cast
    omega
  · rename_i hlt
    have hneg : 128 * (19 + 3 * (k : ℤ) - space.numPages) + 16 =
        -(128 * (space.numPages - 20 - 3 * k) + 112) := by
      ring
    rw [hneg, Int.neg_tdiv, Int.tdiv_eq_ediv_of_nonneg (by omega)]
    push_cast
    omega

/-- The slots that are found again from their stack pointer. -/
def SlotRecovered (space : AddrSpace) (k : Fin UserThreadMax) : Prop :=
  8 * (k : ℕ) + 57 = 3 * space.numPages ∨ (k : ℕ) = 0 ∧ space.numPages = 20

/-- **Exactly when the two computations agree.** -/
theorem slotIndex_stackPointer_eq_iff (space : AddrSpace) (k : Fin UserThreadMax) :
    slotIndex (space.stackPointer k) = k ↔ space.SlotRecovered k := by
  rw [slotIndex_stackPointer, SlotRecovered]
  split <;> omega

/-- Giving back a slot that is found again. -/
theorem removeThreadStackPointer_of_recovered {k : Fin UserThreadMax}
    (h : space.SlotRecovered k) :
    space.removeThreadStackPointer (space.stackPointer k) = .ok { space with
      threadStackPointer := Function.update space.threadStackPointer k false } := by
  have hindex := (space.slotIndex_stackPointer_eq_iff k).mpr h
  have hk := k.isLt
  rw [removeThreadStackPointer, dif_pos (by rw [hindex]; simp)]
  simp only [hindex, Int.toNat_natCast, Fin.eta]

end AddrSpace

end Nachos
