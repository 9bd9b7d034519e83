/-
# Semaphores

`Semaphore::P` tests the value in a loop: a thread that finds it zero goes to sleep on the
queue of the semaphore and tests again when it is resumed. `Semaphore::V` takes the first
sleeper off the queue, makes it ready and increments the value, so that the unit is not
handed over: any thread that reaches `P` before the woken one is resumed can take it, and
the woken thread then goes back to sleep.

Both functions run with the interrupts off. A run is therefore a sequence of passes of the
loop of `P` and of calls of `V`, by threads or by interrupt handlers.

The value is an `int`, and `V` does not look at it before it adds one: the largest `int`
becomes the smallest, and the semaphore then has a negative number of units.
-/

import Nachos.Base.Counting
import Nachos.Base.Fault
import Nachos.Base.Trace

namespace Nachos.Synch

open Base

/-- `class Semaphore`. The value is an `int`, which no declaration keeps from being
negative, and counting up or down wraps around. -/
structure Semaphore (ι : Type) where
  value : ℤ
  /-- The threads waiting in `P` for the value to be positive. -/
  queue : List ι

namespace Semaphore

variable {ι : Type}

/-- `Semaphore::Semaphore`. -/
def new (initialValue : ℤ) : Semaphore ι := ⟨initialValue, []⟩

/-- One pass of the loop of `Semaphore::P` by thread `i`, with whether the loop was left.
When it was not, the thread is on the queue and asleep. -/
def tryP (sem : Semaphore ι) (i : ι) : Semaphore ι × Bool :=
  if sem.value = 0 then ({ sem with queue := sem.queue ++ [i] }, false)
  else ({ sem with value := wrap32 (sem.value - 1) }, true)

/-- `Semaphore::V`, with the thread that it makes ready. -/
def V (sem : Semaphore ι) : Semaphore ι × Option ι :=
  (⟨wrap32 (sem.value + 1), sem.queue.tail⟩, sem.queue.head?)

end Semaphore

/-! The users of a semaphore see the number of its units: `P` waits until there is one and
takes it, and `V` adds one. -/

/-- `Semaphore::P` as its users see it; it waits while there is no unit. -/
def Units.P (units : ℕ) : Option ℕ := if 0 < units then some (units - 1) else none

/-- `Semaphore::V` as its users see it. -/
def Units.V (units : ℕ) : ℕ := units + 1

/-- A unit is taken only when there is one. -/
theorem Units.P_eq_some {units units' : ℕ} :
    Units.P units = some units' ↔ 0 < units ∧ units' = units - 1 := by
  rw [Units.P, Option.ite_none_right_eq_some, Option.some.injEq, eq_comm (a := units')]

/-- Where a thread is with respect to one semaphore. -/
inductive SemPlace
  | away
  /-- In `P`, on the queue. -/
  | asleep
  /-- In `P`, taken off the queue by `V` and not yet resumed. -/
  | woken
  deriving DecidableEq, Repr

/-- A semaphore with the threads that use it. The two counters record history. -/
structure SemRun (ι : Type) where
  sem : Semaphore ι
  place : ι → SemPlace
  completedP : ℕ
  completedV : ℕ

/-- What can happen next. A `V` has no thread: it may come from an interrupt handler. -/
inductive SemCall (ι : Type)
  | P (i : ι)
  | resume (i : ι)
  | V
  deriving DecidableEq, Repr

namespace SemRun

variable {ι : Type} [DecidableEq ι]

/-- A semaphore that no thread has used yet. -/
def start (initialValue : ℤ) : SemRun ι := ⟨Semaphore.new initialValue, fun _ => .away, 0, 0⟩

/-- A pass of the loop of `P` by thread `i`. -/
def pass (st : SemRun ι) (i : ι) : SemRun ι :=
  match st.sem.tryP i with
  | (sem, true) => { st with
      sem := sem, place := Function.update st.place i .away, completedP := st.completedP + 1 }
  | (sem, false) => { st with sem := sem, place := Function.update st.place i .asleep }

/-- A whole `V`. -/
def wake (st : SemRun ι) : SemRun ι :=
  match st.sem.V with
  | (sem, some i) => { st with
      sem := sem, place := Function.update st.place i .woken, completedV := st.completedV + 1 }
  | (sem, none) => { st with sem := sem, completedV := st.completedV + 1 }

/-- One step of a run. -/
def exec (st : SemRun ι) : SemCall ι → Option (SemRun ι)
  | .P i => if st.place i = .away then some (st.pass i) else none
  | .resume i => if st.place i = .woken then some (st.pass i) else none
  | .V => some st.wake

/-- The runs of the semaphore. -/
def Run (st : SemRun ι) (steps : List (Step (SemRun ι) (SemCall ι))) (st' : SemRun ι) : Prop :=
  Trace (fun s call t => exec s call = some t) st steps st'

variable [Fintype ι]

/-- How many threads `V` has taken off the queue that have not been resumed. -/
def wokenCount (st : SemRun ι) : ℕ := ∑ i, if st.place i = .woken then 1 else 0

/-- What the users of a semaphore rely on: the value counts the units, of which there are
never less than none, and for every unit left while a thread sleeps a woken thread is on its
way. -/
structure Safe (initialValue : ℤ) (st : SemRun ι) : Prop where
  nonneg : 0 ≤ st.sem.value
  count : st.sem.value = initialValue + st.completedV - st.completedP
  covered : st.sem.queue ≠ [] → st.sem.value ≤ st.wokenCount

/-- What the code keeps while the value does not wrap around: besides what its users rely on,
the value is an `int` and the queue lists the sleepers. -/
structure Inv (initialValue : ℤ) (st : SemRun ι) : Prop extends Safe initialValue st where
  int : st.sem.value < 2 ^ 31
  asleep : ∀ i, i ∈ st.sem.queue ↔ st.place i = .asleep
  nodup : st.sem.queue.Nodup

/-- A `V` is not made while the value is the largest `int`. -/
def HasRoom (st : SemRun ι) : SemCall ι → Prop
  | .V => st.sem.value ≠ 2147483647
  | .P _ | .resume _ => True

omit [Fintype ι] in
/-- A pass that finds no unit. -/
theorem pass_of_eq_zero {st : SemRun ι} {i : ι} (hvalue : st.sem.value = 0) :
    st.pass i = { st with
      sem := { st.sem with queue := st.sem.queue ++ [i] }
      place := Function.update st.place i .asleep } := by
  rw [pass, Semaphore.tryP, if_pos hvalue]

omit [Fintype ι] in
/-- A pass that takes a unit. -/
theorem pass_of_ne_zero {st : SemRun ι} {i : ι} (hvalue : st.sem.value ≠ 0) :
    st.pass i = { st with
      sem := { st.sem with value := wrap32 (st.sem.value - 1) }
      place := Function.update st.place i .away
      completedP := st.completedP + 1 } := by
  rw [pass, Semaphore.tryP, if_neg hvalue]

omit [Fintype ι] in
theorem wake_value (st : SemRun ι) : st.wake.sem.value = wrap32 (st.sem.value + 1) := by
  cases hqueue : st.sem.queue <;> simp [wake, Semaphore.V, hqueue]

omit [Fintype ι] in
/-- Everything a step can do. -/
theorem exec_eq_some {st st' : SemRun ι} {call : SemCall ι} (hexec : st.exec call = some st') :
    (∃ i, st.place i ≠ .asleep ∧ st' = st.pass i) ∨ (call = .V ∧ st' = st.wake) := by
  cases call with
  | P i =>
      simp only [exec, Option.ite_none_right_eq_some, Option.some.injEq] at hexec
      exact .inl ⟨i, by rw [hexec.1]; decide, hexec.2.symm⟩
  | resume i =>
      simp only [exec, Option.ite_none_right_eq_some, Option.some.injEq] at hexec
      exact .inl ⟨i, by rw [hexec.1]; decide, hexec.2.symm⟩
  | V => exact .inr ⟨rfl, (Option.some.inj hexec).symm⟩

/-- The woken threads when one thread moves. -/
theorem wokenCount_update (st st' : SemRun ι) (i : ι) (p : SemPlace)
    (hplace : st'.place = Function.update st.place i p) :
    st'.wokenCount + (if st.place i = .woken then 1 else 0) =
      st.wokenCount + if p = .woken then 1 else 0 := by
  rw [wokenCount, wokenCount, hplace]
  exact sum_update (fun _ q => if q = SemPlace.woken then 1 else 0) st.place i p

namespace Inv

variable {initialValue : ℤ} {st st' : SemRun ι} {i : ι}

omit [DecidableEq ι] in
theorem start (hinitial : 0 ≤ initialValue) (hint : initialValue < 2 ^ 31) :
    (start initialValue : SemRun ι).Inv initialValue where
  nonneg := hinitial
  count := by simp [SemRun.start, Semaphore.new]
  int := hint
  asleep i := by simp [SemRun.start, Semaphore.new]
  nodup := List.nodup_nil
  covered hqueue := absurd rfl hqueue

omit [DecidableEq ι] in
/-- A unit less is counted without a wrap-around. -/
theorem wrap32_sub_one (h : st.Inv initialValue) :
    wrap32 (st.sem.value - 1) = st.sem.value - 1 := by
  have hnonneg := h.nonneg
  have hint := h.int
  exact wrap32_eq_self (by omega) (by omega)

omit [DecidableEq ι] in
/-- A unit more is counted without a wrap-around if the value is not the largest `int`. -/
theorem wrap32_add_one (h : st.Inv initialValue) (hroom : st.HasRoom .V) :
    wrap32 (st.sem.value + 1) = st.sem.value + 1 := by
  have hnonneg := h.nonneg
  have hint := h.int
  have hne : st.sem.value ≠ 2147483647 := hroom
  exact wrap32_eq_self (by omega) (by omega)

/-- A thread that finds no unit goes to sleep, and a unit taken by a thread that was not
woken leaves one unit less for the woken ones. -/
theorem pass (h : st.Inv initialValue) (hi : st.place i ≠ .asleep) :
    (st.pass i).Inv initialValue := by
  have hint := h.int
  by_cases hvalue : st.sem.value = 0
  · rw [pass_of_eq_zero hvalue]
    refine ⟨⟨h.nonneg, h.count, fun _ => ?_⟩, hint, fun j => ?_, ?_⟩
    · exact hvalue.symm ▸ Int.natCast_nonneg _
    · by_cases hj : j = i
      · subst hj
        simp
      · simp [h.asleep j, hj]
    · apply List.Nodup.append h.nodup (List.nodup_singleton i)
      rw [List.disjoint_singleton]
      exact fun hmem => hi ((h.asleep i).mp hmem)
  · have hwoken := wokenCount_update st (st.pass i) i .away (by rw [pass_of_ne_zero hvalue])
    rw [if_neg (by decide : SemPlace.away ≠ .woken)] at hwoken
    rw [pass_of_ne_zero hvalue, h.wrap32_sub_one] at hwoken ⊢
    have hnonneg := h.nonneg
    refine ⟨⟨?_, ?_, fun hqueue => ?_⟩, ?_, fun j => ?_, h.nodup⟩
    · show 0 ≤ st.sem.value - 1
      omega
    · have hcount := h.count
      push_cast
      omega
    · have hcovered := h.covered hqueue
      show st.sem.value - 1 ≤ _
      split at hwoken <;> omega
    · show st.sem.value - 1 < 2 ^ 31
      omega
    · by_cases hj : j = i
      · subst hj
        simpa using fun hmem => hi ((h.asleep j).mp hmem)
      · simp [Function.update_of_ne hj, h.asleep j]

/-- A `V` adds a unit, and a woken thread if there was a sleeper. -/
theorem wake (h : st.Inv initialValue) (hroom : st.HasRoom .V) : st.wake.Inv initialValue := by
  have hnonneg := h.nonneg
  have hcount := h.count
  have hint := h.int
  have hne : st.sem.value ≠ 2147483647 := hroom
  have hadd := h.wrap32_add_one hroom
  cases hqueue : st.sem.queue with
  | nil =>
      have hwake : st.wake = { st with
          sem := ⟨st.sem.value + 1, []⟩, completedV := st.completedV + 1 } := by
        simp [SemRun.wake, Semaphore.V, hqueue, hadd]
      rw [hwake]
      refine ⟨⟨by show 0 ≤ st.sem.value + 1; omega, ?_, fun hne => absurd rfl hne⟩,
        by show st.sem.value + 1 < 2 ^ 31; omega, fun j => ?_, List.nodup_nil⟩
      · push_cast
        omega
      · rw [← hqueue]
        exact h.asleep j
  | cons i rest =>
      have hwake : st.wake = { st with
          sem := ⟨st.sem.value + 1, rest⟩
          place := Function.update st.place i .woken
          completedV := st.completedV + 1 } := by
        simp [SemRun.wake, Semaphore.V, hqueue, hadd]
      have hnodup := h.nodup
      rw [hqueue, List.nodup_cons] at hnodup
      have hasleep : st.place i = .asleep := (h.asleep i).mp (by simp [hqueue])
      have hwoken := wokenCount_update st st.wake i .woken (by rw [hwake])
      rw [hasleep, if_neg (by decide), if_pos rfl] at hwoken
      rw [hwake] at hwoken ⊢
      refine ⟨⟨by show 0 ≤ st.sem.value + 1; omega, ?_, fun _ => ?_⟩,
        by show st.sem.value + 1 < 2 ^ 31; omega, fun j => ?_, hnodup.2⟩
      · push_cast
        omega
      · have hcovered := h.covered (by simp [hqueue])
        show st.sem.value + 1 ≤ _
        omega
      · have hj := h.asleep j
        rw [hqueue, List.mem_cons] at hj
        by_cases heq : j = i
        · subst heq
          simp [hnodup.1]
        · simpa [Function.update_of_ne heq, heq] using hj

theorem exec (h : st.Inv initialValue) {call : SemCall ι} (hroom : st.HasRoom call)
    (hexec : st.exec call = some st') : st'.Inv initialValue := by
  obtain ⟨i, hi, rfl⟩ | ⟨rfl, rfl⟩ := exec_eq_some hexec
  · exact h.pass hi
  · exact h.wake hroom

end Inv

/-- **The semaphore is a counter of units.** A step takes a unit that is there, adds one, or
puts a thread to sleep because there is none. -/
theorem Inv.exec_units {initialValue : ℤ} {st st' : SemRun ι} (h : st.Inv initialValue)
    {call : SemCall ι} (hroom : st.HasRoom call) (hexec : st.exec call = some st') :
    Units.P st.sem.value.toNat = some st'.sem.value.toNat ∨
      st'.sem.value.toNat = Units.V st.sem.value.toNat ∨
      Units.P st.sem.value.toNat = none ∧ st'.sem.value = st.sem.value := by
  have hnonneg := h.nonneg
  obtain ⟨i, hi, rfl⟩ | ⟨rfl, rfl⟩ := exec_eq_some hexec
  · by_cases hvalue : st.sem.value = 0
    · rw [pass_of_eq_zero hvalue]
      exact .inr (.inr ⟨by rw [hvalue]; rfl, rfl⟩)
    · rw [pass_of_ne_zero hvalue, h.wrap32_sub_one]
      have hpos : 0 < st.sem.value.toNat := by omega
      refine .inl ?_
      rw [Units.P, if_pos hpos, Option.some.injEq]
      show st.sem.value.toNat - 1 = (st.sem.value - 1).toNat
      omega
  · refine .inr (.inl ?_)
    rw [wake_value, h.wrap32_add_one hroom, Units.V]
    omega

omit [Fintype ι] in
/-- At the largest `int`, a `V` leaves the smallest. -/
theorem exec_V_of_not_hasRoom {st st' : SemRun ι} {call : SemCall ι}
    (hroom : ¬ st.HasRoom call) (hexec : st.exec call = some st') : st'.sem.value < 0 := by
  cases call with
  | P i => exact absurd trivial hroom
  | resume i => exact absurd trivial hroom
  | V =>
      have hvalue : st.sem.value = 2147483647 := not_not.mp hroom
      obtain rfl : st.wake = st' := Option.some.inj hexec
      rw [wake_value, hvalue]
      decide

/-- **When a semaphore is safe.** However the threads and the handlers interleave, the value
is the initial value plus the completed `V`s less the completed `P`s, it is never negative,
and while a thread sleeps the units left are at most the woken threads that come to take
them: all this holds throughout a run exactly when no `V` of it is made at the largest
`int`. -/
theorem semaphore_safe {initialValue : ℤ} (hinitial : 0 ≤ initialValue)
    (hint : initialValue < 2 ^ 31) {steps : List (Step (SemRun ι) (SemCall ι))} {st : SemRun ι}
    (hrun : Run (start initialValue) steps st) :
    st.Safe initialValue ∧ (∀ x ∈ steps, x.before.Safe initialValue) ↔
      ∀ x ∈ steps, x.before.HasRoom x.label := by
  constructor
  · rintro ⟨hend, hbefore⟩ x hx
    by_contra hroom
    have hnegative := exec_V_of_not_hasRoom hroom (hrun.rel_of_mem x hx)
    have hnonneg := (hrun.after_of_before hend hbefore x hx).nonneg
    omega
  · intro hroom
    have hinv := hrun.invariant (I := Inv initialValue)
      (fun x hbefore hrel hcall => hbefore.exec hcall hrel) (Inv.start hinitial hint) hroom
    exact ⟨hinv.1.toSafe, fun x hx => (hinv.2 x hx).1.toSafe⟩

/-- Two threads use a semaphore of one unit; the second sleeps, a handler calls `V` and the
second is still on its way. -/
theorem semaphore_safe_two : ∃ (steps : List (Step (SemRun (Fin 2)) (SemCall (Fin 2))))
    (st : SemRun (Fin 2)), Run (start 1) steps st ∧
      steps.map (fun x => x.label) = [.P 0, .P 1, .V] ∧ st.wokenCount = 1 ∧
      (st.Safe 1 ∧ (∀ x ∈ steps, x.before.Safe 1) ↔ ∀ x ∈ steps, x.before.HasRoom x.label) := by
  have hsome : ((execAll exec (start 1 : SemRun (Fin 2)) [.P 0, .P 1, .V]).map
      wokenCount) = some 1 := by decide
  obtain ⟨st, hst, hwoken⟩ := Option.map_eq_some_iff.mp hsome
  have hrun := trace_of_execAll hst
  exact ⟨_, st, hrun, by decide, hwoken, semaphore_safe (by decide) (by decide) hrun⟩

/-- A semaphore made with the largest `int` as its value has the smallest after one `V`. -/
theorem not_safe_at_largest_int : ¬ ∀ (initialValue : ℤ)
    (steps : List (Step (SemRun (Fin 2)) (SemCall (Fin 2)))) (st : SemRun (Fin 2)),
    0 ≤ initialValue → initialValue < 2 ^ 31 → Run (start initialValue) steps st →
      st.Safe initialValue := by
  intro hclaim
  have hrun : Run (start 2147483647 : SemRun (Fin 2)) [⟨_, .V, _⟩]
      (start 2147483647 : SemRun (Fin 2)).wake := (Trace.nil _).snoc rfl
  have hnonneg := (hclaim _ _ _ (by decide) (by decide) hrun).nonneg
  rw [wake_value] at hnonneg
  exact absurd hnonneg (by decide)

end SemRun

end Nachos.Synch
