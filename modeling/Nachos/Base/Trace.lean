/-
# Runs of a labelled transition system

A run is a finite list of steps, each recording the state before, the label and
the state after. Keeping the intermediate states in the run lets a condition be
put on the state a step starts from, which is how results about the runs of a
program with known defects have to be stated: every run whose steps all meet the
condition keeps the invariant.
-/

import Mathlib.Data.List.Basic

namespace Nachos.Base

universe u v w

variable {σ : Type u} {ι : Type v}

/-- One step of a run. -/
structure Step (σ : Type u) (ι : Type v) where
  before : σ
  label : ι
  after : σ

/-- `Trace R s steps t`: the listed steps lead from `s` to `t`. -/
inductive Trace (R : σ → ι → σ → Prop) : σ → List (Step σ ι) → σ → Prop
  | nil (s : σ) : Trace R s [] s
  | snoc {s t u : σ} {steps : List (Step σ ι)} {i : ι} :
      Trace R s steps t → R t i u → Trace R s (steps ++ [⟨t, i, u⟩]) u

namespace Trace

variable {R : σ → ι → σ → Prop}

/-- Every recorded step is a step of the system. -/
theorem rel_of_mem {s t : σ} {steps : List (Step σ ι)} (htrace : Trace R s steps t) :
    ∀ x ∈ steps, R x.before x.label x.after := by
  induction htrace with
  | nil => intro x hx; cases hx
  | snoc prior hstep ih =>
      intro x hx
      rcases List.mem_append.mp hx with hx | hx
      · exact ih x hx
      · rw [List.mem_singleton.mp hx]
        exact hstep

/-- The states before the steps and the end of a run are all its states. -/
theorem after_of_before {P : σ → Prop} {s t : σ} {steps : List (Step σ ι)}
    (htrace : Trace R s steps t) (hend : P t) (hbefore : ∀ x ∈ steps, P x.before) :
    ∀ x ∈ steps, P x.after := by
  induction htrace with
  | nil => intro x hx; cases hx
  | @snoc t u steps i prior hstep ih =>
      intro x hx
      rcases List.mem_append.mp hx with hx | hx
      · have hprior : P t := hbefore ⟨t, i, u⟩ (List.mem_append_right _ (List.mem_singleton_self _))
        exact ih hprior (fun y hy => hbefore y (List.mem_append_left _ hy)) x hx
      · rw [List.mem_singleton.mp hx]
        exact hend

/-- The run without steps stays where it is. -/
theorem eq_of_nil {s t : σ} (htrace : Trace R s [] t) : s = t := by
  generalize hsteps : ([] : List (Step σ ι)) = steps at htrace
  cases htrace with
  | nil => rfl
  | snoc prior hlast => exact absurd hsteps.symm (List.concat_ne_nil _ _)

/-- A run of one system is a run of every system that has its steps. -/
theorem mono {R' : σ → ι → σ → Prop} (hle : ∀ s i t, R s i t → R' s i t) {s t : σ}
    {steps : List (Step σ ι)} (htrace : Trace R s steps t) : Trace R' s steps t := by
  induction htrace with
  | nil => exact .nil _
  | snoc _ hstep ih => exact .snoc ih (hle _ _ _ hstep)

/-- A step before a run. -/
theorem cons {s t u : σ} {i : ι} {steps : List (Step σ ι)} (htrace : Trace R t steps u)
    (hstep : R s i t) : Trace R s (⟨s, i, t⟩ :: steps) u := by
  induction htrace with
  | nil => exact .snoc (.nil s) hstep
  | snoc _ hlast ih => exact .snoc ih hlast

/-- One run after another. -/
theorem append {s t u : σ} {steps steps' : List (Step σ ι)} (htrace : Trace R s steps t)
    (htrace' : Trace R t steps' u) : Trace R s (steps ++ steps') u := by
  induction htrace' with
  | nil => rwa [List.append_nil]
  | snoc _ hstep ih =>
      rw [← List.append_assoc]
      exact .snoc ih hstep

/-- **The invariant rule.** An invariant that holds at the start and is kept by
every step meeting `C` holds before and after each step of a run whose steps all
meet `C`, and at its end. -/
theorem invariant {I : σ → Prop} {C : Step σ ι → Prop}
    (hstep : ∀ x : Step σ ι, I x.before → R x.before x.label x.after → C x → I x.after)
    {s t : σ} {steps : List (Step σ ι)} (htrace : Trace R s steps t) (hinit : I s)
    (hC : ∀ x ∈ steps, C x) : I t ∧ ∀ x ∈ steps, I x.before ∧ I x.after := by
  induction htrace with
  | nil => exact ⟨hinit, fun x hx => by cases hx⟩
  | @snoc t u steps i prior hrel ih =>
      obtain ⟨hlast, hall⟩ := ih fun x hx => hC x (List.mem_append_left _ hx)
      have hnext : I u := hstep ⟨t, i, u⟩ hlast hrel (hC _ (by simp))
      refine ⟨hnext, fun x hx => ?_⟩
      rcases List.mem_append.mp hx with hx | hx
      · exact hall x hx
      · rw [List.mem_singleton.mp hx]
        exact ⟨hlast, hnext⟩

/-- The unconditional form of the invariant rule. -/
theorem invariant_of_forall {I : σ → Prop}
    (hstep : ∀ x : Step σ ι, I x.before → R x.before x.label x.after → I x.after)
    {s t : σ} {steps : List (Step σ ι)} (htrace : Trace R s steps t) (hinit : I s) :
    I t ∧ ∀ x ∈ steps, I x.before ∧ I x.after :=
  invariant (C := fun _ => True) (fun x hbefore hrel _ => hstep x hbefore hrel) htrace hinit
    fun _ _ => trivial

/-- **The simulation rule.** If every step of one system can be answered by a step of another
with the same label, so that related states stay related, then so can every run. -/
theorem simulation {τ : Type w} {R' : τ → ι → τ → Prop} {Q : σ → τ → Prop}
    (hstep : ∀ s i t x, Q s x → R s i t → ∃ y, R' x i y ∧ Q t y)
    {s t : σ} {steps : List (Step σ ι)} (htrace : Trace R s steps t) {x : τ} (hrel : Q s x) :
    ∃ steps' y, Trace R' x steps' y ∧
      steps'.map (fun z => z.label) = steps.map (fun z => z.label) ∧ Q t y := by
  induction htrace with
  | nil => exact ⟨[], x, .nil x, rfl, hrel⟩
  | @snoc t u steps i prior hlast ih =>
      obtain ⟨steps', y, htrace', hlabels, hy⟩ := ih
      obtain ⟨z, hnext, hz⟩ := hstep t i u y hy hlast
      refine ⟨_, z, htrace'.snoc hnext, ?_, hz⟩
      rw [List.map_append, List.map_append, hlabels]
      rfl

/-- A run whose steps all meet a condition is a run of the system with the condition. -/
theorem restrict {C : Step σ ι → Prop} {s t : σ} {steps : List (Step σ ι)}
    (htrace : Trace R s steps t) (hC : ∀ x ∈ steps, C x) :
    Trace (fun s i t => R s i t ∧ C ⟨s, i, t⟩) s steps t := by
  induction htrace with
  | nil => exact .nil _
  | snoc prior hstep ih =>
      exact .snoc (ih fun x hx => hC x (List.mem_append_left _ hx)) ⟨hstep, hC _ (by simp)⟩

/-- **Bounded activity.** If a measure never grows and every step with a label in `P`
lowers it, a run has at most as many such steps as the measure goes down. -/
theorem countP_add_le {m : σ → ℕ} {P : ι → Bool}
    (hstep : ∀ s i t, R s i t → m t + (if P i then 1 else 0) ≤ m s)
    {s t : σ} {steps : List (Step σ ι)} (htrace : Trace R s steps t) :
    steps.countP (fun x => P x.label) + m t ≤ m s := by
  induction htrace with
  | nil => simp
  | @snoc t u steps i prior hrel ih =>
      have hlast := hstep t i u hrel
      have hcount : [(⟨t, i, u⟩ : Step σ ι)].countP (fun x => P x.label) = if P i then 1 else 0 :=
        List.countP_singleton
      rw [List.countP_append, hcount]
      omega

end Trace

/-! ## Systems given by a step function -/

/-- The state a list of labels leads to, if every step can be made. -/
def execAll (exec : σ → ι → Option σ) : σ → List ι → Option σ
  | s, [] => some s
  | s, i :: rest => (exec s i).bind fun t => execAll exec t rest

theorem execAll_append (exec : σ → ι → Option σ) (s : σ) (labels labels' : List ι) :
    execAll exec s (labels ++ labels') =
      (execAll exec s labels).bind fun t => execAll exec t labels' := by
  induction labels generalizing s with
  | nil => rfl
  | cons i rest ih =>
      rw [List.cons_append, execAll, execAll, Option.bind_assoc]
      exact congrArg _ (funext ih)

/-- The steps of the run that `execAll` computes. -/
def stepsOf (exec : σ → ι → Option σ) : σ → List ι → List (Step σ ι)
  | _, [] => []
  | s, i :: rest =>
      match exec s i with
      | some t => ⟨s, i, t⟩ :: stepsOf exec t rest
      | none => []

/-- What `execAll` computes is a run. -/
theorem trace_of_execAll {exec : σ → ι → Option σ} {labels : List ι} {s t : σ}
    (h : execAll exec s labels = some t) :
    Trace (fun s i t => exec s i = some t) s (stepsOf exec s labels) t := by
  induction labels generalizing s with
  | nil =>
      obtain rfl := Option.some.inj h
      exact .nil _
  | cons i rest ih =>
      obtain ⟨u, hu, hrest⟩ := Option.bind_eq_some_iff.mp h
      have htail := (ih hrest).cons hu
      simpa only [stepsOf, hu] using htail

/-- The state that `execAll` computes, if every step passes a check on the state before it. -/
def execChecked (exec : σ → ι → Option σ) (check : σ → ι → Bool) : σ → List ι → Option σ
  | s, [] => some s
  | s, i :: rest =>
      if check s i then (exec s i).bind fun t => execChecked exec check t rest else none

/-- What `execChecked` computes is a run whose steps pass the check. -/
theorem trace_of_execChecked {exec : σ → ι → Option σ} {check : σ → ι → Bool} {labels : List ι}
    {s t : σ} (h : execChecked exec check s labels = some t) :
    ∃ steps, Trace (fun s i t => exec s i = some t) s steps t ∧
      ∀ x ∈ steps, check x.before x.label = true := by
  induction labels generalizing s with
  | nil =>
      obtain rfl := Option.some.inj h
      exact ⟨[], .nil _, nofun⟩
  | cons i rest ih =>
      obtain ⟨hcheck, h⟩ := Option.ite_none_right_eq_some.mp h
      obtain ⟨u, hu, hrest⟩ := Option.bind_eq_some_iff.mp h
      obtain ⟨steps, htrace, hall⟩ := ih hrest
      refine ⟨⟨s, i, u⟩ :: steps, htrace.cons hu, fun x hx => ?_⟩
      rcases List.mem_cons.mp hx with rfl | hx
      · exact hcheck
      · exact hall x hx

end Nachos.Base
