/-
# Event calendars

A calendar keeps events until they are due. Time passes, events are added for later, and an
event that is due is fired, the earliest first. That is all that can happen, and it is enough
for the promises that a simulation of time makes: no event is lost, fired twice, fired early or
fired out of order.
-/

import Mathlib.Data.Multiset.AddSub
import Mathlib.Logic.Relation

namespace Nachos.Base

variable {ε τ : Type}

/-- The state of a calendar, with its history. -/
structure Calendar (ε τ : Type) where
  now : τ
  /-- The events that have been added and not fired. -/
  pending : Multiset ε
  /-- Every event that was ever added. -/
  added : Multiset ε
  /-- The events that were fired, with the times they were fired at. -/
  fired : List (ε × τ)

namespace Calendar

/-- The calendar on which nothing has happened yet. -/
def start (now : τ) : Calendar ε τ := ⟨now, 0, 0, []⟩

variable [Preorder τ] {due : ε → τ} {c c' : Calendar ε τ}

/-- What can happen to a calendar whose events have the given due times. -/
inductive Step (due : ε → τ) : Calendar ε τ → Calendar ε τ → Prop
  | wait (c : Calendar ε τ) {now : τ} : c.now ≤ now → Step due c { c with now := now }
  | add (c : Calendar ε τ) {e : ε} : c.now < due e →
      Step due c { c with pending := e ::ₘ c.pending, added := e ::ₘ c.added }
  | fire (c : Calendar ε τ) {e : ε} {rest : Multiset ε} : c.pending = e ::ₘ rest →
      (∀ e' ∈ rest, due e ≤ due e') → due e ≤ c.now →
      Step due c { c with pending := rest, fired := c.fired ++ [(e, c.now)] }

/-- Any number of steps. -/
abbrev Steps (due : ε → τ) : Calendar ε τ → Calendar ε τ → Prop := Relation.ReflTransGen (Step due)

/-- The promises of a calendar, with what is needed to keep them. -/
structure Kept (due : ε → τ) (c : Calendar ε τ) : Prop where
  /-- No event is lost or fired twice. -/
  once : c.pending + (c.fired.map Prod.fst : List ε) = c.added
  /-- No event is early. -/
  onTime : ∀ x ∈ c.fired, due x.1 ≤ x.2
  inOrder : c.fired.Pairwise fun x y => due x.1 ≤ due y.1
  past : ∀ x ∈ c.fired, due x.1 ≤ c.now
  future : ∀ x ∈ c.fired, ∀ e ∈ c.pending, due x.1 ≤ due e

theorem Kept.start (now : τ) : Kept due (start now) where
  once := rfl
  onTime := nofun
  inOrder := .nil
  past := nofun
  future := nofun

theorem Kept.step (h : Kept due c) (hstep : Step due c c') : Kept due c' := by
  cases hstep with
  | wait hle =>
      exact ⟨h.once, h.onTime, h.inOrder, fun x hx => (h.past x hx).trans hle, h.future⟩
  | @add e hlt =>
      refine ⟨?_, h.onTime, h.inOrder, h.past, fun x hx e' he' => ?_⟩
      · rw [Multiset.cons_add, h.once]
      · rcases Multiset.mem_cons.mp he' with rfl | he'
        · exact (h.past x hx).trans hlt.le
        · exact h.future x hx e' he'
  | @fire e rest hpending hmin hdue =>
      have he : e ∈ c.pending := by rw [hpending]; exact Multiset.mem_cons_self e rest
      refine ⟨?_, fun x hx => ?_, ?_, fun x hx => ?_, fun x hx e' he' => ?_⟩
      · rw [← h.once, hpending, List.map_append, ← Multiset.coe_add, List.map_singleton,
          Multiset.coe_singleton, ← Multiset.add_assoc, Multiset.cons_add, Multiset.add_comm,
          Multiset.singleton_add]
      · rcases List.mem_append.mp hx with hx | hx
        · exact h.onTime x hx
        · rw [List.mem_singleton.mp hx]
          exact hdue
      · refine List.pairwise_append.mpr ⟨h.inOrder, List.pairwise_singleton _ _, ?_⟩
        intro x hx y hy
        rw [List.mem_singleton.mp hy]
        exact h.future x hx e he
      · rcases List.mem_append.mp hx with hx | hx
        · exact h.past x hx
        · rw [List.mem_singleton.mp hx]
          exact hdue
      · rcases List.mem_append.mp hx with hx | hx
        · exact h.future x hx e' (by rw [hpending]; exact Multiset.mem_cons_of_mem he')
        · rw [List.mem_singleton.mp hx]
          exact hmin e' he'

/-- **A calendar keeps its promises**, whatever happens to it. -/
theorem Kept.steps (h : Kept due c) (hsteps : Steps due c c') : Kept due c' := by
  induction hsteps with
  | refl => exact h
  | tail _ hstep ih => exact ih.step hstep

/-- Time does not go back. -/
theorem Steps.now_le (hsteps : Steps due c c') : c.now ≤ c'.now := by
  induction hsteps with
  | refl => exact le_rfl
  | tail _ hstep ih =>
      cases hstep with
      | wait hle => exact ih.trans hle
      | add => exact ih
      | fire => exact ih

end Calendar

end Nachos.Base
