/-
# Two runs of one computation

A property of a single run often compares it with another: with a run on other secret data,
with a run from a state that differs in something the program must not notice, or with the
state it started from. Such properties are proved by keeping a relation between the states of
two runs that go in step. The rules below build the relation up along a computation on a
state that may stop with an error; a property of one run is the case of two equal runs.
-/

import Mathlib.Data.Nat.Notation
import Mathlib.Tactic.TypeStar

namespace Nachos.Base

variable {σ ε α β : Type}

/-- Both runs return related results, or both stop with related errors. -/
def Agree (Q : α → σ → α → σ → Prop) (E : ε → ε → Prop) :
    Except ε (α × σ) → Except ε (α × σ) → Prop
  | .ok (a, s), .ok (b, t) => Q a s b t
  | .error e, .error f => E e f
  | _, _ => False

/-- From related states the two computations agree. -/
def Coupled (P : σ → σ → Prop) (x y : StateT σ (Except ε) α) (Q : α → σ → α → σ → Prop)
    (E : ε → ε → Prop) : Prop :=
  ∀ s t, P s t → Agree Q E (x s) (y t)

namespace Agree

variable {Q Q' : α → σ → α → σ → Prop} {E : ε → ε → Prop} {x y : Except ε (α × σ)}

/-- Where the first run returns, so does the second. -/
theorem of_ok (h : Agree Q E x y) {a : α} {s : σ} (hx : x = .ok (a, s)) :
    ∃ b t, y = .ok (b, t) ∧ Q a s b t := by
  subst hx
  match y, h with
  | .ok (b, t), h => exact ⟨b, t, rfl, h⟩

/-- Where the first run stops, so does the second. -/
theorem of_error (h : Agree Q E x y) {e : ε} (hx : x = .error e) : ∃ f, y = .error f ∧ E e f := by
  subst hx
  match y, h with
  | .error f, h => exact ⟨f, rfl, h⟩

theorem mono (h : Agree Q E x y) (hQ : ∀ a s b t, Q a s b t → Q' a s b t) : Agree Q' E x y := by
  match x, y, h with
  | .ok (a, s), .ok (b, t), h => exact hQ a s b t h
  | .error _, .error _, h => exact h

/-- Runs that agree in everything are equal. -/
theorem eq (h : Agree (fun a s b t => a = b ∧ s = t) Eq x y) : x = y := by
  match x, y, h with
  | .ok (a, s), .ok (b, t), ⟨hab, hst⟩ => rw [hab, hst]
  | .error e, .error f, hef => rw [show e = f from hef]

end Agree

namespace Coupled

variable {P P' : σ → σ → Prop} {E : ε → ε → Prop}

theorem pure {Q : α → σ → α → σ → Prop} {a b : α} (h : ∀ s t, P s t → Q a s b t) :
    Coupled P (pure a) (pure b) Q E := h

/-- One computation after the other. -/
theorem bind {x y : StateT σ (Except ε) α} {f g : α → StateT σ (Except ε) β}
    {Q : α → σ → α → σ → Prop} {S : β → σ → β → σ → Prop} (hx : Coupled P x y Q E)
    (hf : ∀ a b, Coupled (fun s t => Q a s b t) (f a) (g b) S E) :
    Coupled P (x >>= f) (y >>= g) S E := by
  intro s t hst
  have h := hx s t hst
  show Agree S E (Except.bind (x s) fun p => f p.1 p.2) (Except.bind (y t) fun p => g p.1 p.2)
  match x s, y t, h with
  | .ok (a, s'), .ok (b, t'), h => exact hf a b s' t' h
  | .error _, .error _, h => exact h

/-- The common case of `bind`: both runs return the same value. -/
theorem bind_eq {x y : StateT σ (Except ε) α} {f g : α → StateT σ (Except ε) β}
    {P' : α → σ → σ → Prop} {S : β → σ → β → σ → Prop}
    (hx : Coupled P x y (fun a s b t => a = b ∧ P' a s t) E)
    (hf : ∀ a, Coupled (P' a) (f a) (g a) S E) : Coupled P (x >>= f) (y >>= g) S E := by
  refine bind hx fun a b s t h => ?_
  obtain ⟨rfl, hst⟩ := h
  exact hf a s t hst

theorem mono {x y : StateT σ (Except ε) α} {Q Q' : α → σ → α → σ → Prop}
    (h : Coupled P x y Q E) (hP : ∀ s t, P' s t → P s t)
    (hQ : ∀ a s b t, Q a s b t → Q' a s b t) : Coupled P' x y Q' E :=
  fun s t hst => (h s t (hP s t hst)).mono hQ

theorem ite {c : Prop} [Decidable c] {x y x' y' : StateT σ (Except ε) α}
    {Q : α → σ → α → σ → Prop} (hthen : c → Coupled P x y Q E)
    (helse : ¬ c → Coupled P x' y' Q E) :
    Coupled P (if c then x else x') (if c then y else y') Q E := by
  by_cases hc : c
  · rw [if_pos hc, if_pos hc]
    exact hthen hc
  · rw [if_neg hc, if_neg hc]
    exact helse hc

/-- Both runs stop, with the errors of their states. -/
theorem error {e f : σ → ε} {Q : α → σ → α → σ → Prop} (h : ∀ s t, P s t → E (e s) (f t)) :
    Coupled P (fun s => .error (e s)) (fun t => .error (f t)) Q E := h

end Coupled

end Nachos.Base
