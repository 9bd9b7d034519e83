/-
# Dispatch with fall-through

A C `switch` jumps to the case with the right label and runs from there on, through the
following cases too, until one of them breaks. What a case invokes on the way matters as
much as what it returns, so the bodies are computations that keep a log of the operations
they invoke; the log is there also when the computation does not return.
-/

import Nachos.Base.Fault

namespace Nachos.Base

/-- A computation that records the operations it invokes. -/
structure Logged (ω α : Type) where
  calls : List ω
  result : Except Fault α

namespace Logged

variable {ω α β : Type}

instance : Monad (Logged ω) where
  pure a := ⟨[], .ok a⟩
  bind x f :=
    match x.result with
    | .ok a => ⟨x.calls ++ (f a).calls, (f a).result⟩
    | .error fault => ⟨x.calls, .error fault⟩

/-- A computation that invokes nothing. -/
def lift (x : Except Fault α) : Logged ω α := ⟨[], x⟩

/-- One operation is invoked. -/
def invoke (op : ω) (x : Except Fault α) : Logged ω α := ⟨[op], x⟩

@[simp]
theorem pure_calls (a : α) : (pure a : Logged ω α).calls = [] := rfl

@[simp]
theorem pure_bind (a : α) (f : α → Logged ω β) : (pure a >>= f) = f a := rfl

/-- What a sequence invokes when its first part returns. -/
theorem bind_calls_of_ok {x : Logged ω α} {a : α} (f : α → Logged ω β) (h : x.result = .ok a) :
    (x >>= f).calls = x.calls ++ (f a).calls := by
  simp only [bind, h]

theorem bind_result_of_ok {x : Logged ω α} {a : α} (f : α → Logged ω β) (h : x.result = .ok a) :
    (x >>= f).result = (f a).result := by
  simp only [bind, h]

theorem bind_of_error {x : Logged ω α} {fault : Fault} (f : α → Logged ω β)
    (h : x.result = .error fault) : (x >>= f) = ⟨x.calls, .error fault⟩ := by
  simp only [bind, h]

/-- A last step that invokes nothing. -/
theorem bind_pure_calls (x : Logged ω α) (f : α → β) :
    (x >>= fun a => pure (f a)).calls = x.calls := by
  cases h : x.result with
  | error fault => rw [bind_of_error _ h]
  | ok a => rw [bind_calls_of_ok _ h, pure_calls, List.append_nil]

/-- A sequence returns exactly when both parts do. -/
theorem bind_result_eq_ok {x : Logged ω α} {f : α → Logged ω β} {b : β} :
    (x >>= f).result = .ok b ↔ ∃ a, x.result = .ok a ∧ (f a).result = .ok b := by
  cases h : x.result with
  | error fault =>
      rw [bind_of_error f h]
      simp
  | ok a =>
      rw [bind_result_of_ok f h]
      simp

end Logged

/-- A case of a `switch`. -/
structure SwitchCase (ω κ σ : Type) where
  label : κ
  body : σ → Logged ω σ
  /-- The body ends with `break`. -/
  breaks : Bool

variable {ω κ σ : Type}

/-- Run a case and, where it does not break, the cases behind it. -/
def runCases : List (SwitchCase ω κ σ) → σ → Logged ω σ
  | [], s => pure s
  | c :: rest, s => if c.breaks then c.body s else c.body s >>= runCases rest

/-- A `switch` on `label`. -/
def runSwitch [DecidableEq κ] (cases : List (SwitchCase ω κ σ)) (default : σ → Logged ω σ)
    (label : κ) (s : σ) : Logged ω σ :=
  match cases.dropWhile fun c => c.label ≠ label with
  | [] => default s
  | found => runCases found s

end Nachos.Base
