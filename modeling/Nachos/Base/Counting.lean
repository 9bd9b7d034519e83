/-
# Sums over a family when one member changes

A concurrent system keeps one state for each thread, and a step changes the state of one
thread. Counts and other sums over the threads then change by what that thread contributes.
-/

import Mathlib.Algebra.BigOperators.Group.Finset.Basic
import Mathlib.Algebra.Order.BigOperators.Group.Finset
import Mathlib.Data.Fintype.BigOperators

namespace Nachos.Base

variable {ι β : Type} [DecidableEq ι]

/-- **One member changes.** The sums before and after differ by its contribution. -/
theorem sum_update_of_mem (g : ι → β → ℕ) (f : ι → β) {s : Finset ι} {i : ι} (hi : i ∈ s) (c : β) :
    (∑ j ∈ s, g j (Function.update f i c j)) + g i (f i) = (∑ j ∈ s, g j (f j)) + g i c := by
  rw [← Finset.add_sum_erase _ (fun j => g j (Function.update f i c j)) hi,
    ← Finset.add_sum_erase _ (fun j => g j (f j)) hi]
  have hrest : ∑ j ∈ s.erase i, g j (Function.update f i c j) = ∑ j ∈ s.erase i, g j (f j) := by
    apply Finset.sum_congr rfl
    intro j hj
    rw [Function.update_of_ne (Finset.ne_of_mem_erase hj)]
  rw [hrest, Function.update_self]
  omega

/-- The same over a finite type. -/
theorem sum_update [Fintype ι] (g : ι → β → ℕ) (f : ι → β) (i : ι) (c : β) :
    (∑ j, g j (Function.update f i c j)) + g i (f i) = (∑ j, g j (f j)) + g i c :=
  sum_update_of_mem g f (Finset.mem_univ i) c

end Nachos.Base
