/-
# Computations that can fail

C code has two ways of not returning: an assertion stops the program, and an
access outside every object, or an impossible allocation, has no defined result
at all. Both are errors of an `Except` computation, told apart by `Fault`.

The module also fixes the wrap-around of 32-bit arithmetic.
-/

import Mathlib.Tactic.Linarith

namespace Nachos.Base

/-- Why a call does not return. -/
inductive Fault
  /-- A checked condition is false, and the program is stopped. -/
  | assertion
  /-- An access outside the object, or a call on an object that is not there. -/
  | bounds
  /-- `operator new` is asked for a number of bytes it cannot give. -/
  | badAlloc
  deriving DecidableEq, Repr

namespace Except

variable {ε α β : Type}

/-- A sequence returns exactly when both parts do. -/
theorem bind_eq_ok {x : Except ε α} {f : α → Except ε β} {b : β} :
    (x >>= f) = .ok b ↔ ∃ a, x = .ok a ∧ f a = .ok b := by
  cases x with
  | error e =>
      constructor
      · intro h
        cases h
      · rintro ⟨a, h, _⟩
        cases h
  | ok a =>
      constructor
      · intro h
        exact ⟨a, rfl, h⟩
      · rintro ⟨_, h, hf⟩
        cases h
        exact hf

theorem map_eq_ok {x : Except ε α} {f : α → β} {b : β} :
    f <$> x = .ok b ↔ ∃ a, x = .ok a ∧ f a = b := by
  cases x with
  | error e => simp [Functor.map, Except.map]
  | ok a => simp [Functor.map, Except.map]

@[simp]
theorem ok_bind (a : α) (f : α → Except ε β) : (Except.ok a >>= f) = f a := rfl

@[simp]
theorem error_bind (e : ε) (f : α → Except ε β) :
    ((Except.error e : Except ε α) >>= f) = .error e := rfl

/-- A loop whose rounds cannot fail and each add one entry to a list. -/
theorem foldlM_collect {σ : Type} {f : σ → α → Except ε σ} {g : List β → σ} {entry : α → β}
    (hround : ∀ entries a, f (g entries) a = .ok (g (entries ++ [entry a]))) (l : List α)
    (entries : List β) : l.foldlM f (g entries) = .ok (g (entries ++ l.map entry)) := by
  induction l generalizing entries with
  | nil =>
      rw [List.map_nil, List.append_nil]
      rfl
  | cons a rest ih =>
      rw [List.foldlM_cons, hround, ok_bind, ih, List.append_assoc]
      rfl

end Except

/-- An assertion: stop unless the condition holds. -/
def assert (condition : Prop) [Decidable condition] : Except Fault Unit :=
  if condition then .ok () else .error .assertion

/-- An access that is defined only under a condition. -/
def inBounds (condition : Prop) [Decidable condition] : Except Fault Unit :=
  if condition then .ok () else .error .bounds

theorem assert_eq_ok {condition : Prop} [Decidable condition] {u : Unit} :
    assert condition = .ok u ↔ condition := by
  unfold assert
  split <;> simp_all

theorem inBounds_eq_ok {condition : Prop} [Decidable condition] {u : Unit} :
    inBounds condition = .ok u ↔ condition := by
  unfold inBounds
  split <;> simp_all

theorem assert_of {condition : Prop} [Decidable condition] (h : condition) :
    assert condition = .ok () := if_pos h

theorem inBounds_of {condition : Prop} [Decidable condition] (h : condition) :
    inBounds condition = .ok () := if_pos h

/-- Reduce an exact integer to the C `int` with the same low 32 bits. -/
def wrap32 (x : ℤ) : ℤ := x.bmod (2 ^ 32)

theorem wrap32_eq_self {x : ℤ} (hlow : -2 ^ 31 ≤ x) (hhigh : x < 2 ^ 31) : wrap32 x = x := by
  unfold wrap32
  exact Int.bmod_eq_of_le (by norm_num; omega) (by norm_num; omega)

theorem neg_le_wrap32 (x : ℤ) : -2 ^ 31 ≤ wrap32 x :=
  Int.le_bmod (m := 2 ^ 32) (by norm_num)

theorem wrap32_lt (x : ℤ) : wrap32 x < 2 ^ 31 :=
  Int.bmod_lt (m := 2 ^ 32) (by norm_num)

theorem wrap32_add_left (x y : ℤ) : wrap32 (wrap32 x + y) = wrap32 (x + y) :=
  Int.bmod_add_bmod

theorem wrap32_eq_zero_iff {x : ℤ} : wrap32 x = 0 ↔ 2 ^ 32 ∣ x :=
  Int.dvd_iff_bmod_eq_zero.symm

/-- Just above the range of `int`, the wrapped value is negative. -/
theorem wrap32_of_overflow {x : ℤ} (hlow : 2 ^ 31 ≤ x) (hhigh : x < 2 ^ 32) :
    wrap32 x = x - 2 ^ 32 := by
  unfold wrap32
  rw [Int.bmod_def]
  have hmod : x % ((2 ^ 32 : ℕ) : ℤ) = x := Int.emod_eq_of_lt (by omega) (by norm_num; omega)
  rw [hmod, if_neg (by norm_num; omega)]
  norm_num

end Nachos.Base
