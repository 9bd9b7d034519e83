/-
# Channels

A channel carries letters to a box, in the order in which they were put on it and after any
delay. A letter flies until it arrives in the box, and lies there until it is taken.
-/

import Mathlib.Data.List.Basic
import Mathlib.Logic.Relation

namespace Nachos.Base

universe u v

variable {α : Type u} {β : Type v}

/-- The letters that have not arrived yet and those in the box, the first one first. -/
structure Channel (α : Type u) where
  flying : List α
  box : List α
  deriving DecidableEq, Repr

namespace Channel

/-- A channel that nobody has used yet. -/
def empty : Channel α := ⟨[], []⟩

/-- A letter is put on the channel. -/
def put (c : Channel α) (letter : α) : Channel α := { c with flying := c.flying ++ [letter] }

/-- The first letter on its way arrives. -/
def arrive (c : Channel α) : Option (α × Channel α) :=
  match c.flying with
  | [] => none
  | letter :: rest => some (letter, ⟨rest, c.box ++ [letter]⟩)

/-- The first letter in the box is taken. -/
def take (c : Channel α) : Option (α × Channel α) :=
  match c.box with
  | [] => none
  | letter :: rest => some (letter, ⟨c.flying, rest⟩)

/-- The letters that have not been taken, the first one first. -/
def waiting (c : Channel α) : List α := c.box ++ c.flying

variable {c c' : Channel α} {letter : α}

@[simp]
theorem waiting_put : (c.put letter).waiting = c.waiting ++ [letter] :=
  (List.append_assoc ..).symm

theorem arrive_eq_some :
    c.arrive = some (letter, c') ↔ c.flying = letter :: c'.flying ∧ c'.box = c.box ++ [letter] := by
  obtain ⟨flying, box⟩ := c
  obtain ⟨flying', box'⟩ := c'
  cases flying with
  | nil => simp [arrive]
  | cons first rest =>
      simp only [arrive, Option.some.injEq, Prod.mk.injEq, mk.injEq, List.cons.injEq]
      constructor
      · rintro ⟨rfl, rfl, rfl⟩
        exact ⟨⟨rfl, rfl⟩, rfl⟩
      · rintro ⟨⟨rfl, rfl⟩, rfl⟩
        exact ⟨rfl, rfl, rfl⟩

theorem take_eq_some :
    c.take = some (letter, c') ↔ c.box = letter :: c'.box ∧ c'.flying = c.flying := by
  obtain ⟨flying, box⟩ := c
  obtain ⟨flying', box'⟩ := c'
  cases box with
  | nil => simp [take]
  | cons first rest =>
      simp only [take, Option.some.injEq, Prod.mk.injEq, mk.injEq, List.cons.injEq]
      constructor
      · rintro ⟨rfl, rfl, rfl⟩
        exact ⟨⟨rfl, rfl⟩, rfl⟩
      · rintro ⟨⟨rfl, rfl⟩, rfl⟩
        exact ⟨rfl, rfl, rfl⟩

/-- An arrival does not change which letters are waiting. -/
theorem waiting_of_arrive (h : c.arrive = some (letter, c')) : c'.waiting = c.waiting := by
  obtain ⟨hflying, hbox⟩ := arrive_eq_some.mp h
  rw [waiting, waiting, hflying, hbox, List.append_assoc]
  rfl

/-- The letter that is taken is the first one that was waiting. -/
theorem waiting_of_take (h : c.take = some (letter, c')) : c.waiting = letter :: c'.waiting := by
  obtain ⟨hbox, hflying⟩ := take_eq_some.mp h
  rw [waiting, waiting, hbox, hflying]
  rfl

/-! ## Channels by their history -/

/-- The channel on which `letters` were put and of which the first `arrived` have arrived and the
first `taken` were taken. -/
def ofCounts (letters : List α) (arrived taken : ℕ) : Channel α :=
  ⟨letters.drop arrived, (letters.take arrived).drop taken⟩

variable {letters : List α} {arrived taken : ℕ}

theorem waiting_ofCounts (htaken : taken ≤ arrived) (harrived : arrived ≤ letters.length) :
    (ofCounts letters arrived taken).waiting = letters.drop taken := by
  have hlength : taken ≤ (letters.take arrived).length := by
    rw [List.length_take]
    omega
  rw [waiting, ofCounts, ← List.drop_append_of_le_length hlength, List.take_append_drop]

theorem ofCounts_append (letter : α) (harrived : arrived ≤ letters.length) :
    ofCounts (letters ++ [letter]) arrived taken = (ofCounts letters arrived taken).put letter := by
  rw [ofCounts, List.drop_append_of_le_length harrived, List.take_append_of_le_length harrived]
  rfl

theorem arrive_ofCounts (htaken : taken ≤ arrived) (harrived : arrived < letters.length) :
    (ofCounts letters arrived taken).arrive =
      some (letters[arrived], ofCounts letters (arrived + 1) taken) := by
  refine arrive_eq_some.mpr ⟨List.drop_eq_getElem_cons harrived, ?_⟩
  show (letters.take (arrived + 1)).drop taken = (letters.take arrived).drop taken ++ [_]
  rw [← List.take_append_getElem harrived, List.drop_append_of_le_length]
  rw [List.length_take]
  omega

theorem take_ofCounts (htaken : taken < arrived) (harrived : arrived ≤ letters.length) :
    (ofCounts letters arrived taken).take =
      some (letters[taken], ofCounts letters arrived (taken + 1)) := by
  have hlength : taken < (letters.take arrived).length := by
    rw [List.length_take]
    omega
  refine take_eq_some.mpr ⟨?_, rfl⟩
  show (letters.take arrived).drop taken = _
  rw [List.drop_eq_getElem_cons hlength, List.getElem_take]
  rfl

end Channel

end Nachos.Base
