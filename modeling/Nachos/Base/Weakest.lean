/-
# Weakest preconditions

A computation on a state may stop with an error. `wp E x Q` is the set of states from which
`x` either ends with `Q` or stops with an error that is permitted. The rules are equations: they
compute the exact condition under which a program ends well, not only a sufficient one.
-/

import Mathlib.Logic.Basic

namespace Nachos.Base

variable {σ ε α β : Type}

/-- The states from which `x` ends with `Q`, or stops with an error in `E`. -/
def wp (E : ε → Prop) (x : StateT σ (Except ε) α) (Q : α → σ → Prop) (s : σ) : Prop :=
  match x s with
  | .ok (a, s) => Q a s
  | .error e => E e

variable {E : ε → Prop} {s : σ}

theorem wp_of_ok {x : StateT σ (Except ε) α} {Q : α → σ → Prop} {a : α} {s' : σ}
    (h : x s = .ok (a, s')) : wp E x Q s ↔ Q a s' := by
  rw [wp, h]

theorem wp_of_error {x : StateT σ (Except ε) α} {Q : α → σ → Prop} {e : ε}
    (h : x s = .error e) : wp E x Q s ↔ E e := by
  rw [wp, h]

/-- Only the run from the state itself counts. -/
theorem wp_congr {x y : StateT σ (Except ε) α} {Q : α → σ → Prop} (h : x s = y s) :
    wp E x Q s ↔ wp E y Q s := by
  rw [wp, h, wp]

@[simp]
theorem wp_pure (a : α) (Q : α → σ → Prop) : wp E (pure a) Q s ↔ Q a s :=
  Iff.rfl

@[simp]
theorem wp_bind (x : StateT σ (Except ε) α) (f : α → StateT σ (Except ε) β)
    (Q : β → σ → Prop) :
    wp E (x >>= f) Q s ↔ wp E x (fun a => wp E (f a) Q) s := by
  cases h : x s with
  | error e =>
      have hbind : (x >>= f) s = .error e := by simp only [bind, StateT.bind, h, Except.bind]
      rw [wp_of_error h, wp_of_error hbind]
  | ok result =>
      obtain ⟨a, s'⟩ := result
      have hbind : (x >>= f) s = f a s' := by simp only [bind, StateT.bind, h, Except.bind]
      rw [wp_of_ok h, wp, wp, hbind]

@[simp]
theorem wp_ite {c : Prop} [Decidable c] (x y : StateT σ (Except ε) α) (Q : α → σ → Prop) :
    wp E (if c then x else y) Q s ↔ if c then wp E x Q s else wp E y Q s := by
  split <;> rfl

theorem wp_mono {x : StateT σ (Except ε) α} {Q Q' : α → σ → Prop} (h : wp E x Q s)
    (hQ : ∀ a s, Q a s → Q' a s) : wp E x Q' s := by
  rw [wp] at h ⊢
  cases hx : x s with
  | error e =>
      rw [hx] at h
      exact h
  | ok result =>
      rw [hx] at h
      exact hQ _ _ h

/-- One computation after the other, where the run of the first one is remembered. -/
theorem wp_bind_of_run {x : StateT σ (Except ε) α} {f : α → StateT σ (Except ε) β}
    {Q : α → σ → Prop} {S : β → σ → Prop} (hx : wp E x Q s)
    (hf : ∀ a t, x s = .ok (a, t) → Q a t → wp E (f a) S t) : wp E (x >>= f) S s := by
  rw [wp_bind]
  cases h : x s with
  | error e => exact (wp_of_error h).mpr ((wp_of_error h).mp hx)
  | ok result => exact (wp_of_ok h).mpr (hf _ _ h ((wp_of_ok h).mp hx))

/-! ## Invariants along a computation -/

/-- `x` keeps the invariant `I`, its results meet `Q`, and its errors are permitted. -/
def Keeps (I : σ → Prop) (E : ε → Prop) (x : StateT σ (Except ε) α) (Q : α → Prop) : Prop :=
  ∀ s, I s → wp E x (fun a s => Q a ∧ I s) s

namespace Keeps

variable {I : σ → Prop} {x y : StateT σ (Except ε) α} {Q : α → Prop}

theorem pure {a : α} (h : Q a) : Keeps I E (pure a) Q := fun _ hs => ⟨h, hs⟩

/-- One computation after the other. -/
theorem bind {f : α → StateT σ (Except ε) β} {S : β → Prop} (hx : Keeps I E x Q)
    (hf : ∀ a, Q a → Keeps I E (f a) S) : Keeps I E (x >>= f) S := fun s hs =>
  (wp_bind x f _).mpr (wp_mono (hx s hs) fun a t ⟨ha, ht⟩ => hf a ha t ht)

theorem ite {c : Prop} [Decidable c] (hthen : c → Keeps I E x Q) (helse : ¬ c → Keeps I E y Q) :
    Keeps I E (if c then x else y) Q := by
  split
  next hc => exact hthen hc
  next hc => exact helse hc

end Keeps

end Nachos.Base
