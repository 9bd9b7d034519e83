/-
# Service in order

A queue that members join at the end and leave at the front. In a part of a run some
requests to serve it are made, and each takes the first of the queue off, if there is one.
Whatever joins in the meantime, request number `n` takes the member that had `n` others
before it, and until then that member moves up by one with each request.
-/

import Mathlib
import Nachos.Base.Trace

namespace Nachos.Base

universe u v w

variable {α : Type w} {before mid after out out' : List α} {requests requests' n : ℕ} {a : α}

/-- Between two moments the members in `out` leave the queue, by `requests` requests. -/
structure ServedInOrder (before after : List α) (requests : ℕ) (out : List α) : Prop where
  order : before <+: out ++ after
  /-- A request takes a member off if there is one. -/
  busy : min before.length requests ≤ out.length
  within : out.length ≤ requests

namespace ServedInOrder

/-- Nothing leaves and something may join. -/
theorem join (before extra : List α) : ServedInOrder before (before ++ extra) 0 [] :=
  ⟨List.prefix_append .., Nat.min_le_right .., Nat.le_refl 0⟩

theorem refl (before : List α) : ServedInOrder before before 0 [] := by
  simpa using join before []

/-- One request that takes a member off. -/
theorem head (before : List α) (h : before <+: a :: after) : ServedInOrder before after 1 [a] :=
  ⟨h, Nat.min_le_right .., Nat.le_refl 1⟩

/-- Requests while nothing joins. -/
theorem drop (before : List α) (n : ℕ) :
    ServedInOrder before (before.drop n) n (before.take n) := by
  refine ⟨?_, ?_, List.length_take_le n before⟩
  · exact ⟨[], by rw [List.append_nil, List.take_append_drop]⟩
  · rw [List.length_take]
    exact Nat.le_of_eq (Nat.min_comm ..)

/-- One part of a run after another. -/
theorem trans (h : ServedInOrder before mid requests out)
    (h' : ServedInOrder mid after requests' out') :
    ServedInOrder before after (requests + requests') (out ++ out') := by
  have hlength := h.order.length_le
  rw [List.length_append] at hlength
  refine ⟨?_, ?_, ?_⟩
  · rw [List.append_assoc]
    exact h.order.trans ((List.prefix_append_right_inj out).mpr h'.order)
  · have hbusy := h.busy
    have hbusy' := h'.busy
    rw [List.length_append]
    omega
  · rw [List.length_append]
    exact Nat.add_le_add h.within h'.within

/-- What was on the queue is among what left it and what is on it, in this order. -/
theorem getElem?_append (h : ServedInOrder before after requests out)
    (ha : before[n]? = some a) : (out ++ after)[n]? = some a := by
  obtain ⟨joined, hjoined⟩ := h.order
  obtain ⟨hlt, -⟩ := List.getElem?_eq_some_iff.mp ha
  rw [← hjoined, List.getElem?_append_left hlt, ha]

/-- Request number `n` takes the member that had `n` others before it. -/
theorem getElem?_out (h : ServedInOrder before after requests out) (ha : before[n]? = some a)
    (hn : n < requests) : out[n]? = some a := by
  obtain ⟨hlt, -⟩ := List.getElem?_eq_some_iff.mp ha
  have hbusy := h.busy
  have hout : n < out.length := by omega
  rw [← List.getElem?_append_left hout]
  exact h.getElem?_append ha

/-- Until then the member moves up with each request. -/
theorem getElem?_after (h : ServedInOrder before after requests out) (ha : before[n]? = some a)
    (hn : requests ≤ n) : after[n - requests]? = some a := by
  obtain ⟨hlt, -⟩ := List.getElem?_eq_some_iff.mp ha
  have hbusy := h.busy
  have hwithin := h.within
  have hout : out.length = requests := by omega
  rw [← hout, ← List.getElem?_append_right (by omega)]
  exact h.getElem?_append ha

/-- The first requests take different members, as many as there were. -/
theorem nodup_take (h : ServedInOrder before after requests out) (hnodup : before.Nodup)
    (hn : n ≤ before.length) : (out.take n).Nodup := by
  have hout : out.take n <+: out ++ after :=
    (List.take_prefix n out).trans (List.prefix_append ..)
  have hlength : (out.take n).length ≤ before.length :=
    Nat.le_trans (List.length_take_le n out) hn
  exact (List.prefix_of_prefix_length_le hout h.order hlength).sublist.nodup hnodup

end ServedInOrder

namespace Trace

variable {σ : Type u} {ι : Type v} {R : σ → ι → σ → Prop}

/-- A queue that each step serves in order is served in order by a run. -/
theorem servedInOrder (queue : σ → List α) (made : Step σ ι → ℕ) (left : Step σ ι → List α)
    (hstep : ∀ x : Step σ ι, R x.before x.label x.after →
      ServedInOrder (queue x.before) (queue x.after) (made x) (left x))
    {s t : σ} {steps : List (Step σ ι)} (htrace : Trace R s steps t) :
    ServedInOrder (queue s) (queue t) (steps.map made).sum (steps.flatMap left) := by
  induction htrace with
  | nil => exact .refl _
  | @snoc t u steps i prior hlast ih =>
      have hnext := ih.trans (hstep ⟨t, i, u⟩ hlast)
      simpa using hnext

/-- The same where something is known of each member that leaves. -/
theorem exists_servedInOrder (queue : σ → List α) (made : Step σ ι → ℕ)
    (P : Step σ ι → α → Prop)
    (hstep : ∀ x : Step σ ι, R x.before x.label x.after → ∃ left,
      ServedInOrder (queue x.before) (queue x.after) (made x) left ∧ ∀ a ∈ left, P x a)
    {s t : σ} {steps : List (Step σ ι)} (htrace : Trace R s steps t) :
    ∃ left, ServedInOrder (queue s) (queue t) (steps.map made).sum left ∧
      ∀ a ∈ left, ∃ x ∈ steps, P x a := by
  have hall (x : Step σ ι) : ∃ left, R x.before x.label x.after →
      ServedInOrder (queue x.before) (queue x.after) (made x) left ∧ ∀ a ∈ left, P x a := by
    by_cases hx : R x.before x.label x.after
    · obtain ⟨left, hleft⟩ := hstep x hx
      exact ⟨left, fun _ => hleft⟩
    · exact ⟨[], fun h => absurd h hx⟩
  choose left hleft using hall
  refine ⟨_, htrace.servedInOrder queue made left fun x hx => (hleft x hx).1, fun a ha => ?_⟩
  obtain ⟨x, hx, hmem⟩ := List.mem_flatMap.mp ha
  exact ⟨x, hx, (hleft x (htrace.rel_of_mem x hx)).2 a hmem⟩

end Trace

end Nachos.Base
