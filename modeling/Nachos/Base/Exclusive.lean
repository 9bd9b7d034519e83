/-
# One unit among the members of a family

A semaphore that starts with one unit is used so that a thread which takes the unit is in a
section of its program until it gives the unit back. Either the unit is there and no thread
is in the section, or it is gone and exactly one thread is. The steps of a thread keep this
when they move it into the section exactly when they take the unit.
-/

import Mathlib.Data.Nat.Notation
import Mathlib.Logic.Function.Basic

namespace Nachos.Base

variable {ι β : Type} {p : β → Bool} {f : ι → β} {units : ℕ}

/-- Either the unit is there, or exactly one member has it. -/
def HeldOnce (p : β → Bool) (f : ι → β) (units : ℕ) : Prop :=
  (units = 1 ∧ ∀ j, p (f j) = false) ∨
    (units = 0 ∧ ∃ i, p (f i) = true ∧ ∀ j, p (f j) = true → j = i)

namespace HeldOnce

/-- No two members have the unit. -/
theorem unique (h : HeldOnce p f units) {i j : ι} (hi : p (f i) = true) (hj : p (f j) = true) :
    i = j := by
  obtain ⟨-, hnone⟩ | ⟨-, k, -, honly⟩ := h
  · rw [hnone i] at hi
    cases hi
  · rw [honly i hi, honly j hj]

/-- While a member has the unit it cannot be taken. -/
theorem eq_zero (h : HeldOnce p f units) {i : ι} (hi : p (f i) = true) : units = 0 := by
  obtain ⟨-, hnone⟩ | ⟨hzero, -⟩ := h
  · rw [hnone i] at hi
    cases hi
  · exact hzero

/-- While the unit is there no member has it. -/
theorem eq_false (h : HeldOnce p f units) (hunits : 0 < units) (i : ι) : p (f i) = false := by
  cases hi : p (f i) with
  | false => rfl
  | true => rw [h.eq_zero hi] at hunits; cases hunits

/-- When no member has the unit, it is there. -/
theorem eq_one (h : HeldOnce p f units) (hnone : ∀ j, p (f j) = false) : units = 1 := by
  obtain ⟨hone, -⟩ | ⟨-, i, hi, -⟩ := h
  · exact hone
  · rw [hnone i] at hi
    cases hi

variable [DecidableEq ι] {i : ι} {c : β}

/-- A member takes the unit. -/
theorem take (h : HeldOnce p f units) (hunits : 0 < units) (hc : p c = true) :
    HeldOnce p (Function.update f i c) (units - 1) := by
  have hnone := h.eq_false hunits
  refine Or.inr ⟨by rw [h.eq_one hnone], i, by rw [Function.update_self, hc], fun j hj => ?_⟩
  by_contra hne
  rw [Function.update_of_ne hne, hnone j] at hj
  cases hj

/-- A member gives the unit back. -/
theorem give (h : HeldOnce p f units) (hi : p (f i) = true) (hc : p c = false) :
    HeldOnce p (Function.update f i c) (units + 1) := by
  refine Or.inl ⟨by rw [h.eq_zero hi], fun j => ?_⟩
  by_cases hj : j = i
  · rw [hj, Function.update_self, hc]
  · rw [Function.update_of_ne hj, Bool.eq_false_iff]
    exact fun htrue => hj (h.unique htrue hi)

/-- A member moves without taking the unit or giving it back. -/
theorem keep (h : HeldOnce p f units) (hc : p c = p (f i)) :
    HeldOnce p (Function.update f i c) units := by
  have hsame : (fun j => p (Function.update f i c j)) = fun j => p (f j) := by
    funext j
    by_cases hj : j = i
    · rw [hj, Function.update_self, hc]
    · rw [Function.update_of_ne hj]
  have hpoint (j : ι) : p (Function.update f i c j) = p (f j) := congrFun hsame j
  simpa only [HeldOnce, hpoint] using h

end HeldOnce

end Nachos.Base
