/-
# Members on disjoint queues

A family of queues between which members move. What makes each member be on at most one
queue, and there at most once, is a function that says on which queue a member is: adding a
member that is on no queue and taking off the first of a queue both keep it.
-/

import Mathlib.Data.List.Nodup
import Mathlib.Logic.Function.Basic

namespace Nachos.Base

variable {ι κ : Type} {queues : κ → List ι} {place : ι → Option κ} {i : ι} {q : κ}

/-- Every queue holds the members that have their place there, each of them once. -/
structure Placement (queues : κ → List ι) (place : ι → Option κ) : Prop where
  mem : ∀ q i, i ∈ queues q ↔ place i = some q
  nodup : ∀ q, (queues q).Nodup

namespace Placement

theorem empty : Placement (fun _ : κ => ([] : List ι)) fun _ => none :=
  ⟨fun _ _ => by simp, fun _ => List.nodup_nil⟩

/-- A member is once on its queue and on no other. -/
theorem count_eq [DecidableEq ι] [DecidableEq κ] (h : Placement queues place) (q : κ) (i : ι) :
    (queues q).count i = if place i = some q then 1 else 0 := by
  split
  next hplace => exact List.count_eq_one_of_mem (h.nodup q) ((h.mem q i).mpr hplace)
  next hplace => exact List.count_eq_zero_of_not_mem fun hmem => hplace ((h.mem q i).mp hmem)

variable [DecidableEq ι] [DecidableEq κ]

/-- A member that is on no queue is added at the end of one. -/
theorem push (h : Placement queues place) (hi : place i = none) :
    Placement (Function.update queues q (queues q ++ [i])) (Function.update place i (some q)) := by
  have hnot (r : κ) : i ∉ queues r := fun hmem => by
    have hplace := (h.mem r i).mp hmem
    rw [hi] at hplace
    cases hplace
  refine ⟨fun r j => ?_, fun r => ?_⟩
  · by_cases hr : r = q
    · subst hr
      rw [Function.update_self, List.mem_append, List.mem_singleton, h.mem]
      by_cases hj : j = i
      · simp [hj]
      · simp [hj]
    · rw [Function.update_of_ne hr]
      by_cases hj : j = i
      · subst hj
        simpa [hnot r] using fun heq => hr heq.symm
      · rw [Function.update_of_ne hj, h.mem]
  · by_cases hr : r = q
    · subst hr
      rw [Function.update_self]
      exact List.Nodup.append (h.nodup r) (List.nodup_singleton i)
        (List.disjoint_singleton.mpr (hnot r))
    · rw [Function.update_of_ne hr]
      exact h.nodup r

/-- The first of a queue is taken off. -/
theorem pop (h : Placement queues place) {rest : List ι} (hq : queues q = i :: rest) :
    Placement (Function.update queues q rest) (Function.update place i none) := by
  have hnodup := h.nodup q
  rw [hq, List.nodup_cons] at hnodup
  have hi : place i = some q := (h.mem q i).mp (by rw [hq]; exact List.mem_cons_self ..)
  refine ⟨fun r j => ?_, fun r => ?_⟩
  · by_cases hr : r = q
    · subst hr
      rw [Function.update_self]
      by_cases hj : j = i
      · subst hj
        simpa using hnodup.1
      · rw [Function.update_of_ne hj, ← h.mem, hq, List.mem_cons]
        simp [hj]
    · rw [Function.update_of_ne hr]
      by_cases hj : j = i
      · subst hj
        rw [h.mem, hi, Function.update_self]
        simpa using fun heq => hr heq.symm
      · rw [Function.update_of_ne hj, h.mem]
  · by_cases hr : r = q
    · subst hr
      rw [Function.update_self]
      exact hnodup.2
    · rw [Function.update_of_ne hr]
      exact h.nodup r

end Placement

end Nachos.Base
