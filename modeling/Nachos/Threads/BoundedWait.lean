/-
# How long a thread waits

The scheduler has no priorities: the ready list and the queues of the semaphores are served
in order. A thread on the ready list gets the CPU when those before it have had it once, and
a thread on the queue of a semaphore is made ready by the `V` that follows one `V` for each
thread before it, whoever else becomes ready or blocks in the meantime. It need not leave
`P` then: another thread can take the unit first.
-/

import Nachos.Base.Fifo
import Nachos.Threads.Scheduler

namespace Nachos.Kernel

open Base Synch

variable {ι κ : Type} [DecidableEq ι] [DecidableEq κ]

/-! ## What an operation does to the queues -/

/-- The semaphores that handlers call `V` on in the loop of `Sleep`. -/
def handlersV : List (List κ) → Kernel ι κ → List κ
  | idle, st =>
      match st.readyList with
      | _ :: _ => []
      | [] =>
          match idle with
          | [] => []
          | handlers :: idle => handlers ++ handlersV idle (handlers.foldl semV st)

/-- The semaphores that handlers call `V` on while the current thread is in `Sleep`. -/
def sleepV (st : Kernel ι κ) (idle : List (List κ)) : List κ :=
  handlersV idle { st with status := Function.update st.status st.currentThread .blocked }

/-- The same in a pass of the loop of `P`. -/
def passV (st : Kernel ι κ) (k : κ) (idle : List (List κ)) : List κ :=
  match (st.semaphores k).tryP st.currentThread with
  | (_, true) => []
  | (sem, false) => sleepV { st with
      semaphores := Function.update st.semaphores k sem
      inP := Function.update st.inP st.currentThread (some k) } idle

/-- The calls of `V` in an operation, by the current thread and by handlers. -/
def madeV (st : Kernel ι κ) : KernelCall ι κ → List κ
  | .fork _ => []
  | .yield => []
  | .P k idle => st.passV k idle
  | .resumeP idle =>
      match st.inP st.currentThread with
      | some k => st.passV k idle
      | none => []
  | .V k => [k]
  | .finish idle => sleepV { st with threadToBeDestroyed := some st.currentThread } idle

/-- The operation calls `Scheduler::Run`. -/
def switches (st : Kernel ι κ) : KernelCall ι κ → Bool
  | .fork _ => false
  | .yield => !st.readyList.isEmpty
  | .P k _ => (st.semaphores k).value = 0
  | .resumeP _ =>
      match st.inP st.currentThread with
      | some k => (st.semaphores k).value = 0
      | none => false
  | .V _ => false
  | .finish _ => true

/-- The thread that has got the CPU, if `Scheduler::Run` was called. -/
def given (st : Kernel ι κ) (switched : Bool) : List ι :=
  if switched then [st.currentThread] else []

/-- The thread that gets the CPU in a step, if `Scheduler::Run` is called. -/
def dispatched (x : Step (Kernel ι κ) (KernelCall ι κ)) : List ι :=
  x.after.given (x.before.switches x.label)

/-- The calls of `V` wake the first threads of the queues and make them ready. -/
structure Wakes (st st' : Kernel ι κ) (calls : List κ) : Prop where
  ready : st.readyList <+: st'.readyList
  queue : ∀ k, (st'.semaphores k).queue = (st.semaphores k).queue.drop (calls.count k)
  woken : ∀ k, ∀ t ∈ (st.semaphores k).queue.take (calls.count k), t ∈ st'.readyList

namespace Wakes

variable {st st' st'' : Kernel ι κ} {calls calls' : List κ}

omit [DecidableEq ι] in
theorem refl (st : Kernel ι κ) : Wakes st st [] where
  ready := List.prefix_rfl
  queue := fun k => by simp
  woken := fun k t ht => by simp at ht

/-- A thread becomes ready. -/
theorem readyToRun (st : Kernel ι κ) (t : ι) : Wakes st (st.readyToRun t) [] where
  ready := List.prefix_append ..
  queue := fun k => by simp [Kernel.readyToRun]
  woken := fun k t ht => by simp at ht

theorem semV (st : Kernel ι κ) (k : κ) : Wakes st (st.semV k) [k] := by
  have hready : (st.semV k).readyList = st.readyList ++ (st.semaphores k).queue.take 1 := by
    cases hqueue : (st.semaphores k).queue <;>
      simp [Kernel.semV, Semaphore.V, hqueue, Kernel.readyToRun]
  have hqueue (r : κ) : ((st.semV k).semaphores r).queue =
      if r = k then (st.semaphores k).queue.tail else (st.semaphores r).queue := by
    by_cases hr : r = k
    · cases h : (st.semaphores k).queue <;> simp [Kernel.semV, Semaphore.V, h, Kernel.readyToRun, hr]
    · cases h : (st.semaphores k).queue <;> simp [Kernel.semV, Semaphore.V, h, Kernel.readyToRun, hr]
  refine ⟨?_, fun r => ?_, fun r t ht => ?_⟩
  · rw [hready]
    exact List.prefix_append ..
  · rw [hqueue]
    by_cases hr : r = k
    · subst hr
      simp
    · simp [hr, Ne.symm hr]
  · by_cases hr : r = k
    · subst hr
      rw [hready]
      exact List.mem_append_right _ (by simpa using ht)
    · simp [Ne.symm hr] at ht

omit [DecidableEq ι] in
theorem trans (h : Wakes st st' calls) (h' : Wakes st' st'' calls') :
    Wakes st st'' (calls ++ calls') := by
  refine ⟨h.ready.trans h'.ready, fun k => ?_, fun k t ht => ?_⟩
  · rw [h'.queue, h.queue, List.drop_drop, List.count_append]
  · rw [List.count_append, List.take_add] at ht
    obtain ht | ht := List.mem_append.mp ht
    · exact h'.ready.subset (h.woken k t ht)
    · exact h'.woken k t (by rw [h.queue]; exact ht)

theorem foldl (st : Kernel ι κ) (handlers : List κ) :
    Wakes st (handlers.foldl Kernel.semV st) handlers := by
  induction handlers generalizing st with
  | nil => exact refl st
  | cons k handlers ih => exact (semV st k).trans (ih (st.semV k))

end Wakes

/-- What an operation with these calls of `V` does to the queues. -/
structure Serves (st st' : Kernel ι κ) (switched : Bool) (calls : List κ) : Prop where
  current : switched = false → st'.currentThread = st.currentThread
  ready : ServedInOrder st.readyList st'.readyList (st'.given switched).length
    (st'.given switched)
  queue : ∀ k, ∃ woken, ServedInOrder (st.semaphores k).queue (st'.semaphores k).queue
    (calls.count k) woken ∧ ∀ t ∈ woken, t = st'.currentThread ∨ t ∈ st'.readyList

omit [DecidableEq ι] in
/-- An operation that does not switch and after which no thread is off the queues. -/
theorem Wakes.serves {st st' : Kernel ι κ} {calls : List κ} (h : Wakes st st' calls)
    (hcurrent : st'.currentThread = st.currentThread) : Serves st st' false calls := by
  refine ⟨fun _ => hcurrent, ?_, fun k => ⟨_, ?_, fun t ht => .inr (h.woken k t ht)⟩⟩
  · obtain ⟨joined, hjoined⟩ := h.ready
    rw [← hjoined]
    exact .join ..
  · rw [h.queue]
    exact .drop ..

omit [DecidableEq ι] in
/-- An operation that ends with a switch to the first of the ready list. -/
theorem Wakes.serves_switch {st mid st' : Kernel ι κ} {calls : List κ} (h : Wakes st mid calls)
    (hready : mid.readyList = st'.currentThread :: st'.readyList)
    (hqueues : st'.semaphores = mid.semaphores) : Serves st st' true calls := by
  refine ⟨fun hfalse => absurd hfalse (by simp), .head _ (hready ▸ h.ready), fun k => ?_⟩
  refine ⟨(st.semaphores k).queue.take (calls.count k), ?_, fun t ht => ?_⟩
  · rw [hqueues, h.queue]
    exact .drop ..
  · have hmem := h.woken k t ht
    rwa [hready, List.mem_cons] at hmem

omit [DecidableEq ι] in
/-- Before the operation a thread has joined a queue. -/
theorem Serves.of_join {st mid st' : Kernel ι κ} {switched : Bool} {calls : List κ}
    (h : Serves mid st' switched calls) (hcurrent : mid.currentThread = st.currentThread)
    (hready : mid.readyList = st.readyList)
    (hqueues : ∀ k, (st.semaphores k).queue <+: (mid.semaphores k).queue) :
    Serves st st' switched calls := by
  refine ⟨fun hfalse => (h.current hfalse).trans hcurrent, hready ▸ h.ready, fun k => ?_⟩
  obtain ⟨woken, hserved, hwoken⟩ := h.queue k
  obtain ⟨joined, hjoined⟩ := hqueues k
  refine ⟨woken, ?_, hwoken⟩
  have hall := (ServedInOrder.join (st.semaphores k).queue joined).trans (hjoined ▸ hserved)
  rwa [Nat.zero_add, List.nil_append] at hall

omit [DecidableEq κ] in
/-- The deletion of a thread leaves the queues alone. -/
theorem deleteFinished_frame {st st' : Kernel ι κ} (h : st.deleteFinished = .ok st') :
    st'.currentThread = st.currentThread ∧ st'.readyList = st.readyList ∧
      st'.semaphores = st.semaphores := by
  cases hdestroy : st.threadToBeDestroyed with
  | none =>
      rw [deleteFinished_of_none hdestroy] at h
      cases h
      exact ⟨rfl, rfl, rfl⟩
  | some t =>
      by_cases ht : t = st.currentThread
      · simp [deleteFinished, hdestroy, deleteThread, assert, ht] at h
      · rw [deleteFinished_of_some hdestroy ht] at h
        cases h
        exact ⟨rfl, rfl, rfl⟩

omit [DecidableEq κ] in
/-- `Scheduler::Run` leaves the queues alone. -/
theorem run_frame {st st' : Kernel ι κ} {t : ι} (h : st.run t = .ok st') :
    st'.currentThread = t ∧ st'.readyList = st.readyList ∧ st'.semaphores = st.semaphores := by
  obtain ⟨started, hrun⟩ := run_eq st t
  rw [hrun] at h
  exact deleteFinished_frame h

/-- The loop of `Sleep`: handlers wake threads until one is ready, and the first of the ready
list gets the CPU. -/
theorem sleepLoop_serves {idle : List (List κ)} {st st' : Kernel ι κ}
    (h : sleepLoop idle st = some (.ok st')) : Serves st st' true (handlersV idle st) := by
  suffices hwakes : ∃ mid, Wakes st mid (handlersV idle st) ∧
      mid.readyList = st'.currentThread :: st'.readyList ∧ st'.semaphores = mid.semaphores by
    obtain ⟨mid, hmid, hready, hqueues⟩ := hwakes
    exact hmid.serves_switch hready hqueues
  have hfirst {st : Kernel ι κ} {nextThread : ι} {rest : List ι}
      (hready : st.readyList = nextThread :: rest)
      (hrun : ({ st with readyList := rest }).run nextThread = .ok st') :
      st.readyList = st'.currentThread :: st'.readyList ∧ st'.semaphores = st.semaphores := by
    obtain ⟨rfl, hrest, hqueues⟩ := run_frame hrun
    exact ⟨hready.trans (by rw [hrest]), hqueues⟩
  induction idle generalizing st with
  | nil =>
      cases hready : st.readyList with
      | nil => simp [sleepLoop, hready] at h
      | cons nextThread rest =>
          simp only [sleepLoop, hready, Option.some.injEq] at h
          refine ⟨st, ?_, hfirst hready h⟩
          simpa [handlersV, hready] using Wakes.refl st
  | cons handlers idle ih =>
      cases hready : st.readyList with
      | nil =>
          simp only [sleepLoop, hready] at h
          obtain ⟨mid, hmid, hrest⟩ := ih h
          refine ⟨mid, ?_, hrest⟩
          simpa [handlersV, hready] using (Wakes.foldl st handlers).trans hmid
      | cons nextThread rest =>
          simp only [sleepLoop, hready, Option.some.injEq] at h
          refine ⟨st, ?_, hfirst hready h⟩
          simpa [handlersV, hready] using Wakes.refl st

theorem sleep_serves {idle : List (List κ)} {st st' : Kernel ι κ}
    (h : st.sleep idle = some (.ok st')) : Serves st st' true (st.sleepV idle) :=
  (sleepLoop_serves h).of_join rfl rfl fun _ => List.prefix_rfl

/-- A pass of the loop of `P` either takes a unit or puts the current thread on the queue. -/
theorem passP_serves {st st' : Kernel ι κ} {k : κ} {idle : List (List κ)}
    (h : st.passP k idle = some (.ok st')) :
    Serves st st' ((st.semaphores k).value = 0) (st.passV k idle) := by
  by_cases hvalue : (st.semaphores k).value = 0
  · simp only [passP, passV, Semaphore.tryP, if_pos hvalue] at h ⊢
    rw [decide_eq_true hvalue]
    refine (sleep_serves h).of_join rfl rfl fun r => ?_
    by_cases hr : r = k
    · subst hr
      simp
    · simp [Function.update_of_ne hr]
  · simp only [passP, passV, Semaphore.tryP, if_neg hvalue, Option.some.injEq] at h ⊢
    cases h
    rw [decide_eq_false hvalue]
    refine (Wakes.refl _).serves rfl |>.of_join rfl rfl fun r => ?_
    by_cases hr : r = k
    · subst hr
      simp
    · simp [Function.update_of_ne hr]

/-- The thread that yields joins the ready list, and the first of it gets the CPU. -/
theorem yield_serves {st st' : Kernel ι κ} (h : st.yield = .ok st') :
    Serves st st' (st.switches .yield) [] := by
  cases hready : st.readyList with
  | nil =>
      simp only [yield, hready] at h
      cases h
      simpa [switches, hready] using (Wakes.refl st).serves rfl
  | cons nextThread rest =>
      simp only [yield, hready] at h
      obtain ⟨rfl, hrest, hqueues⟩ := run_frame h
      have hswitch : Serves st st' true [] := by
        refine ((Wakes.refl st).trans (Wakes.readyToRun st st.currentThread)).serves_switch ?_ hqueues
        rw [hrest]
        simp [readyToRun, hready]
      simpa [switches, hready] using hswitch

theorem finish_serves {st st' : Kernel ι κ} {idle : List (List κ)}
    (h : st.finish idle = some (.ok st')) :
    Serves st st' true (st.madeV (.finish idle)) := by
  by_cases hdestroy : st.threadToBeDestroyed = none
  · rw [finish, if_pos hdestroy] at h
    exact (sleep_serves h).of_join rfl rfl fun _ => List.prefix_rfl
  · simp [finish, hdestroy] at h

/-- What one operation does to the queues. -/
theorem exec_serves {st st' : Kernel ι κ} {call : KernelCall ι κ}
    (h : st.exec call = some (.ok st')) :
    Serves st st' (st.switches call) (st.madeV call) := by
  cases call with
  | resumeP idle =>
      cases hin : st.inP st.currentThread with
      | none => simp [exec, hin] at h
      | some k =>
          simp only [exec, hin, switches, madeV] at h ⊢
          exact passP_serves h
  | fork t =>
      obtain ⟨-, hfork⟩ := Option.ite_none_left_eq_some.mp h
      obtain ⟨-, heq⟩ := Option.ite_none_right_eq_some.mp hfork
      cases heq
      exact (Wakes.readyToRun _ t).serves rfl |>.of_join rfl rfl fun _ => List.prefix_rfl
  | yield =>
      obtain ⟨-, hyield⟩ := Option.ite_none_left_eq_some.mp h
      exact yield_serves (Option.some.inj hyield)
  | P k idle => exact passP_serves (Option.ite_none_left_eq_some.mp h).2
  | V k =>
      obtain ⟨-, hV⟩ := Option.ite_none_left_eq_some.mp h
      cases hV
      exact (Wakes.semV st k).serves (semV_frame st k).2.2
  | finish idle =>
      exact finish_serves (Option.ite_none_left_eq_some.mp h).2

/-! ## Over a run -/

omit [DecidableEq ι] [DecidableEq κ] in
/-- No thread is twice on the ready list. -/
theorem Inv.nodup_readyList {st : Kernel ι κ} (h : st.Inv) : st.readyList.Nodup := by
  obtain ⟨place, hplaced⟩ := h.placed
  exact hplaced.lists.nodup none

/-- The ready list is served in order by the dispatches. -/
theorem Run.readyList_served {st st' : Kernel ι κ}
    {steps : List (Step (Kernel ι κ) (KernelCall ι κ))} (hrun : Run st steps st') :
    ServedInOrder st.readyList st'.readyList (steps.flatMap dispatched).length
      (steps.flatMap dispatched) := by
  rw [List.length_flatMap]
  exact Trace.servedInOrder readyList (fun x => (dispatched x).length) dispatched
    (fun x hx => (exec_serves hx).ready) hrun

/-- The queue of a semaphore is served in order by the calls of `V`. -/
theorem Run.queue_served {st st' : Kernel ι κ}
    {steps : List (Step (Kernel ι κ) (KernelCall ι κ))} (hrun : Run st steps st') (k : κ) :
    ∃ woken, ServedInOrder (st.semaphores k).queue (st'.semaphores k).queue
        (steps.map fun x => (x.before.madeV x.label).count k).sum woken ∧
      ∀ t ∈ woken, ∃ x ∈ steps, t = x.after.currentThread ∨ t ∈ x.after.readyList :=
  Trace.exists_servedInOrder (fun st => (st.semaphores k).queue)
    (fun x => (x.before.madeV x.label).count k)
    (fun x t => t = x.after.currentThread ∨ t ∈ x.after.readyList)
    (fun _ hx => (exec_serves hx).queue k) hrun

/-- **Bounded waiting.** From any state of a run: a thread with `n` others before it on the
ready list is the one that gets the CPU at dispatch number `n`, counted from zero, and no
thread gets it twice up to then; a thread with `n` others before it on the queue of a
semaphore is made ready by the time of call number `n` of `V`. Until then both keep moving
up. The CPU changes hands by a dispatch only. -/
theorem bounded_waiting {main : ι} {values : κ → ℤ}
    {past steps : List (Step (Kernel ι κ) (KernelCall ι κ))} {st st' : Kernel ι κ}
    (hpast : Run (start main values) past st) (hrun : Run st steps st') (t : ι) :
    (∀ n, st.readyList[n]? = some t →
        ((steps.flatMap dispatched).take (n + 1)).Nodup ∧
        (n < (steps.flatMap dispatched).length → (steps.flatMap dispatched)[n]? = some t) ∧
        ((steps.flatMap dispatched).length ≤ n →
          st'.readyList[n - (steps.flatMap dispatched).length]? = some t)) ∧
      (∀ k n, (st.semaphores k).queue[n]? = some t →
        (n < (steps.map fun x => (x.before.madeV x.label).count k).sum →
          ∃ x ∈ steps, t = x.after.currentThread ∨ t ∈ x.after.readyList) ∧
        ((steps.map fun x => (x.before.madeV x.label).count k).sum ≤ n →
          (st'.semaphores k).queue[n -
            (steps.map fun x => (x.before.madeV x.label).count k).sum]? = some t)) ∧
      (∀ x ∈ steps, dispatched x = [] → x.after.currentThread = x.before.currentThread) := by
  have hserved := Run.readyList_served hrun
  have hinv : st.Inv := ((Inv.start main values).deleted_of_run hpast).1
  refine ⟨fun n hn => ⟨?_, hserved.getElem?_out hn, hserved.getElem?_after hn⟩,
    fun k n hn => ?_, fun x hx hnone => ?_⟩
  · obtain ⟨hlt, -⟩ := List.getElem?_eq_some_iff.mp hn
    exact hserved.nodup_take hinv.nodup_readyList hlt
  · obtain ⟨woken, hqueue, hwoken⟩ := Run.queue_served hrun k
    refine ⟨fun hlt => ?_, hqueue.getElem?_after hn⟩
    exact hwoken t (List.mem_of_getElem? (hqueue.getElem?_out hn hlt))
  · refine (exec_serves (hrun.rel_of_mem x hx)).current ?_
    by_contra hswitch
    simp [dispatched, given, hswitch] at hnone

/-- Two forked threads are ready; the initial thread yields, the first of them blocks, and the
second gets the CPU. -/
theorem bounded_waiting_two :
    ∃ (past steps : List (Step (Kernel (Fin 3) Unit) (KernelCall (Fin 3) Unit)))
    (st st' : Kernel (Fin 3) Unit), Run (start 0 fun _ => 0) past st ∧ Run st steps st' ∧
      st.readyList[1]? = some 2 ∧ 1 < (steps.flatMap dispatched).length ∧
      (steps.flatMap dispatched)[1]? = some 2 := by
  let first : Kernel (Fin 3) Unit := start 0 fun _ => 0
  let second : Kernel (Fin 3) Unit := (first.fork 1).fork 2
  have hpast : execAll execOk first [.fork 1, .fork 2] = some second := rfl
  have hsome : (execAll execOk second [.yield, .P () []]).isSome := by decide
  obtain ⟨st', hst'⟩ := Option.isSome_iff_exists.mp hsome
  have hbefore : Run first _ second := (trace_of_execAll hpast).mono fun _ _ _ => exec_of_execOk
  have hafter : Run second _ st' := (trace_of_execAll hst').mono fun _ _ _ => exec_of_execOk
  have hready : second.readyList[1]? = some 2 := by decide
  have hlength : 1 <
      ((stepsOf execOk second [.yield, .P () []]).flatMap dispatched).length := by decide
  exact ⟨_, _, second, st', hbefore, hafter, hready, hlength,
    ((bounded_waiting hbefore hafter 2).1 1 hready).2.1 hlength⟩

end Nachos.Kernel
