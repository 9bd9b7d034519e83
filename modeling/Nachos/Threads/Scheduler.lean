/-
# Threads and the scheduler

At any time one thread has the CPU. The others are on the ready list or on the queue of the
semaphore whose `P` they are in. A thread leaves the CPU in `Yield`, or in `Sleep` when it
blocks or finishes; there it may find no other thread to run, and then interrupt handlers
call `V` until one is ready, possibly the sleeping thread itself. A thread that finished
cannot delete itself: the next thread does it, in `Scheduler::Run` if it was switched out
there and in `SetupThreadState` if it runs for the first time.
-/

import Nachos.Base.Fault
import Nachos.Base.Queues
import Nachos.Threads.Semaphore

namespace Nachos

open Base Synch

/-- `enum ThreadStatus`. -/
inductive ThreadStatus
  | justCreated
  | running
  | ready
  | blocked
  deriving DecidableEq, Repr

/-- Whether a thread exists. It begins to live when it is forked. -/
inductive Life
  | unborn
  | live
  | deleted
  deriving DecidableEq, Repr

/-- The threads, the scheduler and the semaphores. -/
structure Kernel (ι κ : Type) where
  currentThread : ι
  readyList : List ι
  semaphores : κ → Semaphore ι
  status : ι → ThreadStatus
  life : ι → Life
  threadToBeDestroyed : Option ι
  /-- The semaphore in whose `P` the thread is. -/
  inP : ι → Option κ
  /-- The thread has run before. -/
  started : ι → Bool

/-- What happens next. The lists say which semaphores the handlers call `V` on each time the
CPU is idle. -/
inductive KernelCall (ι κ : Type)
  | fork (t : ι)
  | yield
  | P (k : κ) (idle : List (List κ))
  /-- The current thread goes on in the loop of the `P` it was switched out in. -/
  | resumeP (idle : List (List κ))
  /-- By the current thread or by a handler. -/
  | V (k : κ)
  | finish (idle : List (List κ))
  deriving Repr

namespace Kernel

variable {ι κ : Type} [DecidableEq ι] [DecidableEq κ]

/-- `Initialize`: the initial thread runs, and the semaphores have some values. -/
def start (main : ι) (values : κ → ℤ) : Kernel ι κ where
  currentThread := main
  readyList := []
  semaphores := fun k => Semaphore.new (values k)
  status := Function.update (fun _ => .justCreated) main .running
  life := Function.update (fun _ => .unborn) main .live
  threadToBeDestroyed := none
  inP := fun _ => none
  started := Function.update (fun _ => false) main true

/-- `Scheduler::ReadyToRun`. -/
def readyToRun (st : Kernel ι κ) (t : ι) : Kernel ι κ :=
  { st with status := Function.update st.status t .ready, readyList := st.readyList ++ [t] }

/-- `Thread::~Thread`. -/
def deleteThread (st : Kernel ι κ) (t : ι) : Except Fault (Kernel ι κ) := do
  assert (t ≠ st.currentThread)
  return { st with life := Function.update st.life t .deleted }

/-- The deletion of the thread that finished, as two functions make it. -/
def deleteFinished (st : Kernel ι κ) : Except Fault (Kernel ι κ) :=
  match st.threadToBeDestroyed with
  | some t => do
      let st ← st.deleteThread t
      return { st with threadToBeDestroyed := none }
  | none => return st

/-- `SetupThreadState`, for a thread that runs for the first time. -/
def setupThreadState (st : Kernel ι κ) : Except Fault (Kernel ι κ) :=
  ({ st with started := Function.update st.started st.currentThread true }).deleteFinished

/-- The part of `Scheduler::Run` after `SWITCH`, for a thread that was switched out there. -/
def afterSwitch (st : Kernel ι κ) : Except Fault (Kernel ι κ) := st.deleteFinished

/-- `Scheduler::Run`, to where the next thread has the CPU. -/
def run (st : Kernel ι κ) (nextThread : ι) : Except Fault (Kernel ι κ) :=
  let st := { st with
    currentThread := nextThread, status := Function.update st.status nextThread .running }
  if st.started nextThread then st.afterSwitch else st.setupThreadState

/-- `Semaphore::V`. -/
def semV (st : Kernel ι κ) (k : κ) : Kernel ι κ :=
  match (st.semaphores k).V with
  | (sem, some t) => ({ st with semaphores := Function.update st.semaphores k sem }).readyToRun t
  | (sem, none) => { st with semaphores := Function.update st.semaphores k sem }

/-- The loop of `Thread::Sleep`: while no thread is ready, the CPU is idle and handlers run.
None when they make no thread ready. -/
def sleepLoop : List (List κ) → Kernel ι κ → Option (Except Fault (Kernel ι κ))
  | idle, st =>
      match st.readyList with
      | nextThread :: rest => some (({ st with readyList := rest }).run nextThread)
      | [] =>
          match idle with
          | [] => none
          | handlers :: idle => sleepLoop idle (handlers.foldl semV st)

/-- `Thread::Sleep`. -/
def sleep (st : Kernel ι κ) (idle : List (List κ)) : Option (Except Fault (Kernel ι κ)) :=
  sleepLoop idle { st with status := Function.update st.status st.currentThread .blocked }

/-- `Thread::Yield`. -/
def yield (st : Kernel ι κ) : Except Fault (Kernel ι κ) :=
  match st.readyList with
  | nextThread :: rest =>
      (({ st with readyList := rest }).readyToRun st.currentThread).run nextThread
  | [] => return st

/-- `Thread::Finish`. -/
def finish (st : Kernel ι κ) (idle : List (List κ)) : Option (Except Fault (Kernel ι κ)) :=
  if st.threadToBeDestroyed = none then
    sleep { st with threadToBeDestroyed := some st.currentThread } idle
  else some (.error .assertion)

/-- `Thread::Fork`. -/
def fork (st : Kernel ι κ) (t : ι) : Kernel ι κ :=
  ({ st with life := Function.update st.life t .live }).readyToRun t

/-- A pass of the loop of `Semaphore::P` by the current thread. -/
def passP (st : Kernel ι κ) (k : κ) (idle : List (List κ)) : Option (Except Fault (Kernel ι κ)) :=
  match (st.semaphores k).tryP st.currentThread with
  | (sem, true) => some (.ok { st with
      semaphores := Function.update st.semaphores k sem
      inP := Function.update st.inP st.currentThread none })
  | (sem, false) => sleep { st with
      semaphores := Function.update st.semaphores k sem
      inP := Function.update st.inP st.currentThread (some k) } idle

/-- One complete operation. A thread is forked once. -/
def exec (st : Kernel ι κ) : KernelCall ι κ → Option (Except Fault (Kernel ι κ))
  | .resumeP idle =>
      match st.inP st.currentThread with
      | some k => st.passP k idle
      | none => none
  | call =>
      if st.inP st.currentThread ≠ none then none
      else match call with
        | .fork t => if st.life t = .unborn then some (.ok (st.fork t)) else none
        | .yield => some st.yield
        | .P k idle => st.passP k idle
        | .V k => some (.ok (st.semV k))
        | .finish idle => st.finish idle
        | .resumeP _ => none

/-- The runs of the kernel. -/
def Run (st : Kernel ι κ) (steps : List (Step (Kernel ι κ) (KernelCall ι κ))) (st' : Kernel ι κ) :
    Prop :=
  Trace (fun s call t => exec s call = some (.ok t)) st steps st'

/-! ## Where the threads are -/

/-- The ready list and the queues of the semaphores. -/
def queues (st : Kernel ι κ) : Option κ → List ι
  | none => st.readyList
  | some k => (st.semaphores k).queue

/-- The status that goes with a queue. -/
def statusOn : Option κ → ThreadStatus
  | none => .ready
  | some _ => .blocked

/-- Every living thread is on the queue where it has its place or is one of those in `out`,
which are on no queue. -/
structure Placed (st : Kernel ι κ) (place : ι → Option (Option κ)) (out : ι → Prop) : Prop where
  lists : Placement st.queues place
  live : ∀ i, st.life i = .live ↔ place i ≠ none ∨ out i
  outside : ∀ i, out i → place i = none
  status : ∀ i q, place i = some q → st.status i = statusOn q

namespace Placed

variable {st st' : Kernel ι κ} {place : ι → Option (Option κ)} {out out' : ι → Prop} {t : ι}
  {q : Option κ}

omit [DecidableEq ι] [DecidableEq κ] in
/-- Nothing changes but the status of threads that are on no queue. -/
theorem congr (h : Placed st place out) (hqueues : st'.queues = st.queues)
    (hlife : st'.life = st.life) (hstatus : ∀ i, ¬ out i → st'.status i = st.status i) :
    Placed st' place out := by
  refine ⟨hqueues ▸ h.lists, fun i => by rw [hlife, h.live], h.outside, fun i q hq => ?_⟩
  rw [hstatus i, h.status i q hq]
  intro hout
  rw [h.outside i hout] at hq
  cases hq

/-- A thread that is on no queue is added at the end of one. -/
theorem push (h : Placed st place out) (ht : out t)
    (hqueues : st'.queues = Function.update st.queues q (st.queues q ++ [t]))
    (hlife : st'.life = st.life) (hstatus : st'.status = Function.update st.status t (statusOn q))
    (hout : ∀ i, out' i ↔ out i ∧ i ≠ t) :
    Placed st' (Function.update place t (some q)) out' := by
  refine ⟨hqueues ▸ h.lists.push (h.outside t ht), fun i => ?_, fun i hi => ?_, fun i r hr => ?_⟩
  · rw [hlife, h.live, hout]
    by_cases hi : i = t
    · subst hi
      simp [ht]
    · simp [hi]
  · obtain ⟨hold, hne⟩ := (hout i).mp hi
    rw [Function.update_of_ne hne, h.outside i hold]
  · rw [hstatus]
    by_cases hi : i = t
    · subst hi
      rw [Function.update_self] at hr ⊢
      rw [Option.some.inj hr]
    · rw [Function.update_of_ne hi] at hr ⊢
      exact h.status i r hr

/-- The first of a queue is taken off. -/
theorem pop (h : Placed st place out) {rest : List ι} (hq : st.queues q = t :: rest)
    (hqueues : st'.queues = Function.update st.queues q rest) (hlife : st'.life = st.life)
    (hstatus : st'.status = st.status) (hout : ∀ i, out' i ↔ out i ∨ i = t) :
    Placed st' (Function.update place t none) out' := by
  have ht : place t = some q := (h.lists.mem q t).mp (by rw [hq]; exact List.mem_cons_self ..)
  refine ⟨hqueues ▸ h.lists.pop hq, fun i => ?_, fun i hi => ?_, fun i r hr => ?_⟩
  · rw [hlife, h.live, hout]
    by_cases hi : i = t
    · subst hi
      simp [ht]
    · simp [hi]
  · by_cases hit : i = t
    · rw [hit, Function.update_self]
    · rw [Function.update_of_ne hit]
      exact h.outside i (((hout i).mp hi).resolve_right hit)
  · by_cases hit : i = t
    · rw [hit, Function.update_self] at hr
      cases hr
    · rw [Function.update_of_ne hit] at hr
      rw [hstatus]
      exact h.status i r hr

omit [DecidableEq κ] in
/-- A thread that is on no queue begins or ceases to live. -/
theorem setLife (h : Placed st place out) (ht : place t = none) {life : Life}
    (hout : ∀ i, out' i ↔ (i ≠ t ∧ out i) ∨ (i = t ∧ life = .live)) :
    Placed { st with life := Function.update st.life t life } place out' := by
  refine ⟨h.lists, fun i => ?_, fun i hi => ?_, h.status⟩
  · show Function.update st.life t life i = .live ↔ _
    rw [hout]
    by_cases hi : i = t
    · subst hi
      simp [ht]
    · simp [hi, h.live]
  · obtain ⟨-, hold⟩ | ⟨rfl, -⟩ := (hout i).mp hi
    · exact h.outside i hold
    · exact ht

end Placed

theorem queues_readyToRun (st : Kernel ι κ) (t : ι) :
    (st.readyToRun t).queues = Function.update st.queues none (st.queues none ++ [t]) := by
  funext q
  cases q with
  | none => rw [Function.update_self]; rfl
  | some k => rw [Function.update_of_ne (by simp)]; rfl

omit [DecidableEq ι] in
theorem queues_setReady (st : Kernel ι κ) (rest : List ι) :
    ({ st with readyList := rest }).queues = Function.update st.queues none rest := by
  funext q
  cases q with
  | none => rw [Function.update_self]; rfl
  | some k => rw [Function.update_of_ne (by simp)]; rfl

omit [DecidableEq ι] in
theorem queues_setSem (st : Kernel ι κ) (k : κ) (sem : Semaphore ι) :
    ({ st with semaphores := Function.update st.semaphores k sem }).queues =
      Function.update st.queues (some k) sem.queue := by
  funext q
  cases q with
  | none => rw [Function.update_of_ne (by simp)]; rfl
  | some r =>
      by_cases hr : r = k
      · subst hr
        rw [Function.update_self]
        simp [queues]
      · rw [Function.update_of_ne (by simpa using hr)]
        simp [queues, Function.update_of_ne hr]

/-- A `V` moves the first of the queue, if there is one, to the ready list. -/
theorem Placed.semV {st : Kernel ι κ} {place : ι → Option (Option κ)} {out : ι → Prop}
    (h : Placed st place out) (k : κ) : ∃ place', Placed (st.semV k) place' out := by
  cases hqueue : (st.semaphores k).queue with
  | nil =>
      have hV : st.semV k = { st with
          semaphores := Function.update st.semaphores k
            ⟨wrap32 ((st.semaphores k).value + 1), []⟩ } := by
        simp [Kernel.semV, Semaphore.V, hqueue]
      refine ⟨place, hV ▸ h.congr ?_ rfl fun _ _ => rfl⟩
      rw [queues_setSem]
      exact Function.update_eq_self_iff.mpr hqueue.symm
  | cons t rest =>
      have hV : st.semV k = ({ st with
          semaphores := Function.update st.semaphores k
            ⟨wrap32 ((st.semaphores k).value + 1), rest⟩ }).readyToRun t := by
        simp [Kernel.semV, Semaphore.V, hqueue]
      have hnot : ¬ out t := fun hout => by
        have hplace := (h.lists.mem (some k) t).mp (by simp [queues, hqueue])
        rw [h.outside t hout] at hplace
        cases hplace
      have hpop : Placed { st with
          semaphores := Function.update st.semaphores k
            ⟨wrap32 ((st.semaphores k).value + 1), rest⟩ }
          (Function.update place t none) (fun i => out i ∨ i = t) :=
        h.pop (q := some k) hqueue (queues_setSem st k _) rfl rfl fun _ => Iff.rfl
      refine ⟨_, hV ▸ hpop.push (.inr rfl) (queues_readyToRun _ t) rfl rfl fun i => ?_⟩
      constructor
      · exact fun hi => ⟨.inl hi, fun hit => hnot (hit ▸ hi)⟩
      · rintro ⟨hi | hi, hne⟩
        · exact hi
        · exact absurd hi hne

/-- Handlers call `V` while the CPU is idle. -/
theorem Placed.foldl_semV {st : Kernel ι κ} {place : ι → Option (Option κ)}
    {out : ι → Prop} (h : Placed st place out) (handlers : List κ) :
    ∃ place', Placed (handlers.foldl Kernel.semV st) place' out := by
  induction handlers generalizing st place with
  | nil => exact ⟨place, h⟩
  | cons k handlers ih =>
      obtain ⟨place', hV⟩ := h.semV k
      exact ih hV

/-- A thread that was deleted stays deleted. -/
def KeepsDeleted (st st' : Kernel ι κ) : Prop :=
  ∀ i, st.life i = .deleted → st'.life i = .deleted

/-- What holds between complete operations: the current thread is the only living thread on
no queue, and no thread is left to be destroyed. -/
structure Inv (st : Kernel ι κ) : Prop where
  destroyed : st.threadToBeDestroyed = none
  running : st.status st.currentThread = .running
  placed : ∃ place, Placed st place fun i => i = st.currentThread

omit [DecidableEq κ] in
theorem deleteFinished_of_none {st : Kernel ι κ} (hnone : st.threadToBeDestroyed = none) :
    st.deleteFinished = .ok st := by
  rw [deleteFinished, hnone]
  rfl

omit [DecidableEq κ] in
/-- The current thread deletes the thread that finished. -/
theorem deleteFinished_of_some {st : Kernel ι κ} {t : ι} (ht : st.threadToBeDestroyed = some t)
    (hne : t ≠ st.currentThread) : st.deleteFinished = .ok { st with
      life := Function.update st.life t .deleted, threadToBeDestroyed := none } := by
  simp [deleteFinished, ht, deleteThread, assert_of hne]

omit [DecidableEq κ] in
/-- A thread gets the CPU, on one of the two paths. -/
theorem run_eq (st : Kernel ι κ) (nextThread : ι) : ∃ started, st.run nextThread =
    ({ st with
      currentThread := nextThread
      status := Function.update st.status nextThread .running
      started := started }).deleteFinished := by
  by_cases hstarted : st.started nextThread = true
  · exact ⟨st.started, by simp [run, hstarted, afterSwitch]⟩
  · exact ⟨Function.update st.started nextThread true, by simp [run, hstarted, setupThreadState]⟩

omit [DecidableEq κ] in
/-- The switch to a thread that was taken off the ready list. The only other thread that can
be on no queue is the one that finished, and it is deleted. -/
theorem Placed.run {st : Kernel ι κ} {place : ι → Option (Option κ)} {out : ι → Prop}
    {nextThread : ι} (h : Placed st place out)
    (hout : (st.threadToBeDestroyed = none ∧ ∀ i, out i ↔ i = nextThread) ∨
      ∃ t, st.threadToBeDestroyed = some t ∧ t ≠ nextThread ∧ ∀ i, out i ↔ i = nextThread ∨ i = t) :
    ∃ st', st.run nextThread = .ok st' ∧ st'.Inv ∧ st.KeepsDeleted st' := by
  obtain ⟨started, hrun⟩ := run_eq st nextThread
  have hnext : out nextThread := by
    obtain ⟨-, hall⟩ | ⟨t, -, -, hall⟩ := hout
    · exact (hall _).mpr rfl
    · exact (hall _).mpr (.inl rfl)
  have hswitched : Placed { st with
      currentThread := nextThread
      status := Function.update st.status nextThread .running
      started := started } place out := by
    refine h.congr rfl rfl fun i hi => Function.update_of_ne ?_ ..
    rintro rfl
    exact hi hnext
  rw [hrun]
  obtain ⟨hnone, hall⟩ | ⟨t, hsome, hne, hall⟩ := hout
  · refine ⟨_, deleteFinished_of_none hnone, ⟨hnone, Function.update_self .., place, ?_⟩,
      fun _ hi => hi⟩
    obtain rfl : out = fun i => i = nextThread := funext fun i => propext (hall i)
    exact hswitched
  · refine ⟨_, deleteFinished_of_some hsome hne, ⟨rfl, Function.update_self .., place, ?_⟩,
      fun i hi => ?_⟩
    · have ht : place t = none := h.outside t ((hall t).mpr (.inr rfl))
      refine (hswitched.setLife ht fun i => ?_).congr rfl rfl fun _ _ => rfl
      rw [hall]
      constructor
      · rintro rfl
        exact .inl ⟨hne.symm, .inl rfl⟩
      · rintro (⟨hi, hi' | hi'⟩ | ⟨-, hlife⟩)
        · exact hi'
        · exact absurd hi' hi
        · cases hlife
    · by_cases hit : i = t
      · subst hit
        exact Function.update_self ..
      · exact (Function.update_of_ne hit ..).trans hi

theorem semV_frame (st : Kernel ι κ) (k : κ) :
    (st.semV k).threadToBeDestroyed = st.threadToBeDestroyed ∧ (st.semV k).life = st.life ∧
      (st.semV k).currentThread = st.currentThread := by
  cases hqueue : (st.semaphores k).queue <;> simp [semV, Semaphore.V, hqueue, readyToRun]

theorem foldl_semV_frame (handlers : List κ) (st : Kernel ι κ) :
    (handlers.foldl semV st).threadToBeDestroyed = st.threadToBeDestroyed ∧
      (handlers.foldl semV st).life = st.life := by
  induction handlers generalizing st with
  | nil => exact ⟨rfl, rfl⟩
  | cons k handlers ih =>
      obtain ⟨hdestroyed, hlife, -⟩ := semV_frame st k
      exact ⟨(ih _).1.trans hdestroyed, (ih _).2.trans hlife⟩

/-- The first of the ready list gets the CPU from a thread that has gone to a queue or is to
be destroyed. -/
theorem Placed.dispatch {st : Kernel ι κ} {place : ι → Option (Option κ)} {out : ι → Prop}
    (h : Placed st place out) (hout : ∀ i, out i ↔ st.threadToBeDestroyed = some i)
    {nextThread : ι} {rest : List ι} (hready : st.readyList = nextThread :: rest) :
    ∃ st', ({ st with readyList := rest }).run nextThread = .ok st' ∧ st'.Inv ∧
      st.KeepsDeleted st' := by
  have hpop : Placed { st with readyList := rest } (Function.update place nextThread none)
      (fun i => out i ∨ i = nextThread) :=
    h.pop (q := none) hready (queues_setReady st rest) rfl rfl fun _ => Iff.rfl
  refine hpop.run ?_
  cases hdestroy : st.threadToBeDestroyed with
  | none => exact .inl ⟨rfl, fun i => by rw [hout, hdestroy]; simp⟩
  | some t =>
      refine .inr ⟨t, rfl, ?_, fun i => ?_⟩
      · rintro rfl
        have hplace := (h.lists.mem none t).mp (by simp [queues, hready])
        rw [h.outside t ((hout t).mpr hdestroy)] at hplace
        cases hplace
      · rw [hout, hdestroy, Option.some.injEq, eq_comm (a := t), or_comm]

/-- The loop of `Sleep`, by a thread that has gone to a queue or is to be destroyed: it ends
with the switch to a thread that is ready. -/
theorem Placed.sleepLoop {idle : List (List κ)} {st : Kernel ι κ}
    {place : ι → Option (Option κ)} {out : ι → Prop} (h : Placed st place out)
    (hout : ∀ i, out i ↔ st.threadToBeDestroyed = some i)
    {result : Except Fault (Kernel ι κ)} (hresult : sleepLoop idle st = some result) :
    ∃ st', result = .ok st' ∧ st'.Inv ∧ st.KeepsDeleted st' := by
  induction idle generalizing st place with
  | nil =>
      rw [Kernel.sleepLoop] at hresult
      split at hresult
      next nextThread rest hready =>
        cases hresult
        exact h.dispatch hout hready
      next => cases hresult
  | cons handlers idle ih =>
      rw [Kernel.sleepLoop] at hresult
      split at hresult
      next nextThread rest hready =>
        cases hresult
        exact h.dispatch hout hready
      next =>
        obtain ⟨hdestroyed, hlife⟩ := foldl_semV_frame handlers st
        obtain ⟨place', hV⟩ := h.foldl_semV handlers
        obtain ⟨st', hok, hinv, hkeeps⟩ := ih hV (fun i => by rw [hout, hdestroyed]) hresult
        exact ⟨st', hok, hinv, fun i hi => hkeeps i (by rw [hlife]; exact hi)⟩

namespace Inv

variable {st : Kernel ι κ}

/-- The current thread is on no queue, so that `Finish` finds nothing left to destroy. -/
theorem finish (h : st.Inv) {idle : List (List κ)} {result : Except Fault (Kernel ι κ)}
    (hresult : st.finish idle = some result) :
    ∃ st', result = .ok st' ∧ st'.Inv ∧ st.KeepsDeleted st' := by
  obtain ⟨place, hplaced⟩ := h.placed
  rw [Kernel.finish, if_pos h.destroyed] at hresult
  have hasleep : Placed { st with
      threadToBeDestroyed := some st.currentThread
      status := Function.update st.status st.currentThread .blocked } place
      (fun i => i = st.currentThread) :=
    hplaced.congr rfl rfl fun i hi => Function.update_of_ne hi ..
  refine hasleep.sleepLoop (fun i => ?_) hresult
  rw [Option.some.injEq, eq_comm]

/-- A pass of the loop of `P` takes a unit, or moves the current thread to the queue. -/
theorem passP (h : st.Inv) {k : κ} {idle : List (List κ)} {result : Except Fault (Kernel ι κ)}
    (hresult : st.passP k idle = some result) :
    ∃ st', result = .ok st' ∧ st'.Inv ∧ st.KeepsDeleted st' := by
  obtain ⟨place, hplaced⟩ := h.placed
  by_cases hvalue : (st.semaphores k).value = 0
  · rw [Kernel.passP, Semaphore.tryP, if_pos hvalue] at hresult
    have hasleep : Placed { st with
        semaphores := Function.update st.semaphores k
          { st.semaphores k with queue := (st.semaphores k).queue ++ [st.currentThread] }
        inP := Function.update st.inP st.currentThread (some k)
        status := Function.update st.status st.currentThread .blocked }
        (Function.update place st.currentThread (some (some k))) (fun _ => False) :=
      hplaced.push rfl (queues_setSem st k _) rfl rfl fun i => by simp
    exact hasleep.sleepLoop (fun i => by simp [h.destroyed]) hresult
  · rw [Kernel.passP, Semaphore.tryP, if_neg hvalue] at hresult
    cases hresult
    refine ⟨_, rfl, ⟨h.destroyed, h.running, place, hplaced.congr ?_ rfl fun _ _ => rfl⟩,
      fun _ hi => hi⟩
    exact (queues_setSem st k _).trans (Function.update_eq_self_iff.mpr rfl)

/-- The current thread goes to the end of the ready list, if another thread is ready. -/
theorem yield (h : st.Inv) : ∃ st', st.yield = .ok st' ∧ st'.Inv ∧ st.KeepsDeleted st' := by
  obtain ⟨place, hplaced⟩ := h.placed
  cases hready : st.readyList with
  | nil => exact ⟨st, by rw [Kernel.yield, hready]; rfl, h, fun _ hi => hi⟩
  | cons nextThread rest =>
      have hne : nextThread ≠ st.currentThread := by
        intro heq
        have hplace := (hplaced.lists.mem none nextThread).mp (by simp [queues, hready])
        rw [hplaced.outside nextThread heq] at hplace
        cases hplace
      have hpop : Placed { st with readyList := rest } (Function.update place nextThread none)
          (fun i => i = st.currentThread ∨ i = nextThread) :=
        hplaced.pop (q := none) hready (queues_setReady st rest) rfl rfl fun _ => Iff.rfl
      have hpush : Placed (({ st with readyList := rest }).readyToRun st.currentThread)
          (Function.update (Function.update place nextThread none) st.currentThread (some none))
          (fun i => i = nextThread) := by
        refine hpop.push (.inl rfl) (queues_readyToRun _ _) rfl rfl fun i => ?_
        constructor
        · rintro rfl
          exact ⟨.inr rfl, hne⟩
        · rintro ⟨hi | hi, hi'⟩
          · exact absurd hi hi'
          · exact hi
      obtain ⟨st', hrun, hinv, hkeeps⟩ := hpush.run (.inl ⟨h.destroyed, fun _ => Iff.rfl⟩)
      exact ⟨st', by rw [Kernel.yield, hready]; exact hrun, hinv, hkeeps⟩

omit [DecidableEq ι] [DecidableEq κ] in
/-- The current thread is on no queue. -/
theorem not_mem (h : st.Inv) (q : Option κ) : st.currentThread ∉ st.queues q := by
  obtain ⟨place, hplaced⟩ := h.placed
  intro hmem
  have hplace := (hplaced.lists.mem q _).mp hmem
  rw [hplaced.outside _ rfl] at hplace
  cases hplace

theorem semV (h : st.Inv) (k : κ) : (st.semV k).Inv ∧ st.KeepsDeleted (st.semV k) := by
  obtain ⟨place, hplaced⟩ := h.placed
  obtain ⟨hdestroyed, hlife, hcurrent⟩ := semV_frame st k
  obtain ⟨place', hV⟩ := hplaced.semV k
  have hrunning : (st.semV k).status st.currentThread = st.status st.currentThread := by
    have hnot := h.not_mem (some k)
    cases hqueue : (st.semaphores k).queue with
    | nil => simp [Kernel.semV, Semaphore.V, hqueue]
    | cons t rest =>
        have hne : st.currentThread ≠ t := fun heq => hnot (by simp [queues, hqueue, heq])
        simp [Kernel.semV, Semaphore.V, hqueue, readyToRun, hne]
  exact ⟨⟨hdestroyed.trans h.destroyed, by rw [hcurrent, hrunning, h.running], place',
    by rw [hcurrent]; exact hV⟩, fun i hi => by rw [hlife]; exact hi⟩

/-- A new thread begins on the ready list. -/
theorem fork (h : st.Inv) {t : ι} (ht : st.life t = .unborn) :
    (st.fork t).Inv ∧ st.KeepsDeleted (st.fork t) := by
  obtain ⟨place, hplaced⟩ := h.placed
  have hnot : ¬ (place t ≠ none ∨ t = st.currentThread) := by
    rw [← hplaced.live, ht]
    decide
  obtain ⟨hplace, hne⟩ := not_or.mp hnot
  have hborn : Placed { st with life := Function.update st.life t .live } place
      (fun i => i = st.currentThread ∨ i = t) := by
    refine hplaced.setLife (not_not.mp hplace) fun i => ?_
    by_cases hi : i = t
    · simp [hi]
    · simp [hi]
  refine ⟨⟨h.destroyed, ?_, _, hborn.push (.inr rfl) (queues_readyToRun _ t) rfl rfl fun i => ?_⟩,
    fun i hi => ?_⟩
  · exact (Function.update_of_ne (Ne.symm hne) ..).trans h.running
  · constructor
    · rintro rfl
      exact ⟨.inl rfl, Ne.symm hne⟩
    · rintro ⟨hi | hi, hi'⟩
      · exact hi
      · exact absurd hi hi'
  · have hit : i ≠ t := by
      rintro rfl
      rw [ht] at hi
      cases hi
    exact (Function.update_of_ne hit ..).trans hi

/-- Every operation succeeds and keeps the invariant. -/
theorem exec (h : st.Inv) {call : KernelCall ι κ} {result : Except Fault (Kernel ι κ)}
    (hresult : st.exec call = some result) :
    ∃ st', result = .ok st' ∧ st'.Inv ∧ st.KeepsDeleted st' := by
  cases call with
  | resumeP idle =>
      simp only [Kernel.exec] at hresult
      split at hresult
      next k _ => exact h.passP hresult
      next => cases hresult
  | fork t =>
      obtain ⟨-, hfork⟩ := Option.ite_none_left_eq_some.mp hresult
      obtain ⟨ht, heq⟩ := Option.ite_none_right_eq_some.mp hfork
      cases heq
      exact ⟨_, rfl, h.fork ht⟩
  | yield =>
      obtain ⟨-, hyield⟩ := Option.ite_none_left_eq_some.mp hresult
      obtain ⟨st', hok, hst'⟩ := h.yield
      exact ⟨st', (Option.some.inj hyield).symm.trans hok, hst'⟩
  | P k idle => exact h.passP (Option.ite_none_left_eq_some.mp hresult).2
  | V k =>
      obtain ⟨-, hV⟩ := Option.ite_none_left_eq_some.mp hresult
      cases hV
      exact ⟨_, rfl, h.semV k⟩
  | finish idle => exact h.finish (Option.ite_none_left_eq_some.mp hresult).2

omit [DecidableEq κ] in
theorem start (main : ι) (values : κ → ℤ) : (start main values).Inv where
  destroyed := rfl
  running := by simp [Kernel.start]
  placed := by
    refine ⟨fun _ => none, ?_, fun i => ?_, fun _ _ => rfl, fun i q hq => by cases hq⟩
    · have hqueues : (Kernel.start main values).queues = fun _ => [] := by
        funext q
        cases q <;> rfl
      rw [hqueues]
      exact Placement.empty
    · by_cases hi : i = main
      · simp [Kernel.start, hi]
      · simp [Kernel.start, hi]

end Inv

/-- The thread is once on the ready list or in the queue of one semaphore, and nowhere else. -/
def InOnePlace (st : Kernel ι κ) (i : ι) : Prop :=
  (st.readyList.count i = 1 ∧ ∀ k, (st.semaphores k).queue.count i = 0) ∨
    st.readyList.count i = 0 ∧ ∃ k, (st.semaphores k).queue.count i = 1 ∧
      ∀ k', k' ≠ k → (st.semaphores k').queue.count i = 0

/-- Every living thread but the current one is in one place. -/
theorem Inv.inOnePlace {st : Kernel ι κ} (h : st.Inv) {i : ι} (hlive : st.life i = .live)
    (hi : i ≠ st.currentThread) : st.InOnePlace i := by
  obtain ⟨place, hplaced⟩ := h.placed
  have hcount := fun q => hplaced.lists.count_eq q i
  obtain ⟨q, hq⟩ := Option.ne_none_iff_exists'.mp
    (((hplaced.live i).mp hlive).resolve_right hi)
  simp only [hq, Option.some.injEq] at hcount
  have hready : st.readyList.count i = if q = none then 1 else 0 := hcount none
  have hqueue (k : κ) : (st.semaphores k).queue.count i = if q = some k then 1 else 0 :=
    hcount (some k)
  cases q with
  | none => exact .inl ⟨hready, fun k => by rw [hqueue]; simp⟩
  | some k =>
      refine .inr ⟨hready, k, by rw [hqueue]; simp, fun k' hk' => ?_⟩
      rw [hqueue, if_neg]
      exact fun heq => hk' (Option.some.inj heq).symm

omit [DecidableEq ι] [DecidableEq κ] in
/-- The status of a thread on a queue. -/
theorem Inv.status_of_mem {st : Kernel ι κ} (h : st.Inv) {q : Option κ} {i : ι}
    (hi : i ∈ st.queues q) : st.status i = statusOn q := by
  obtain ⟨place, hplaced⟩ := h.placed
  exact hplaced.status i q ((hplaced.lists.mem q i).mp hi)

omit [DecidableEq ι] [DecidableEq κ] in
/-- A deleted thread is not the current one and is on no queue. -/
theorem Inv.of_deleted {st : Kernel ι κ} (h : st.Inv) {i : ι} (hi : st.life i = .deleted) :
    i ≠ st.currentThread ∧ ∀ q, i ∉ st.queues q := by
  obtain ⟨place, hplaced⟩ := h.placed
  have hnot : ¬ (place i ≠ none ∨ i = st.currentThread) := by
    rw [← hplaced.live, hi]
    decide
  obtain ⟨hplace, hne⟩ := not_or.mp hnot
  refine ⟨hne, fun q hmem => hplace ?_⟩
  rw [(hplaced.lists.mem q i).mp hmem]
  exact Option.some_ne_none q

/-- What was deleted in the course of a run is deleted at its end. -/
theorem Inv.deleted_of_run {st st' : Kernel ι κ} {steps : List (Step (Kernel ι κ) (KernelCall ι κ))}
    (h : st.Inv) (hrun : Run st steps st') :
    st'.Inv ∧ ∀ x ∈ steps, x.after.KeepsDeleted st' := by
  induction hrun with
  | nil => exact ⟨h, fun x hx => by cases hx⟩
  | @snoc t u steps call prior hstep ih =>
      obtain ⟨hinv, hall⟩ := ih
      obtain ⟨u', hu', hinv', hkeeps⟩ := hinv.exec hstep
      cases hu'
      refine ⟨hinv', fun x hx i hi => ?_⟩
      obtain hx | hx := List.mem_append.mp hx
      · exact hkeeps i (hall x hx i hi)
      · rw [List.mem_singleton.mp hx] at hi
        exact hi

/-- **Every thread is in one place.** Between complete operations the current thread is on no
list, every other living thread is once on the ready list or in the queue of one semaphore,
with the status that goes with it; a thread that was deleted is never the current thread
again and on no list; and no assertion fails. -/
theorem threads_in_one_place {main : ι} {values : κ → ℤ}
    {steps : List (Step (Kernel ι κ) (KernelCall ι κ))} {st : Kernel ι κ}
    (hrun : Run (start main values) steps st) :
    (st.currentThread ∉ st.readyList ∧ ∀ k, st.currentThread ∉ (st.semaphores k).queue) ∧
      (∀ i, st.life i = .live → i ≠ st.currentThread → st.InOnePlace i) ∧
      (∀ i ∈ st.readyList, st.status i = .ready) ∧
      (∀ k, ∀ i ∈ (st.semaphores k).queue, st.status i = .blocked) ∧
      (∀ x ∈ steps, ∀ i, x.after.life i = .deleted →
        i ≠ st.currentThread ∧ i ∉ st.readyList ∧ ∀ k, i ∉ (st.semaphores k).queue) ∧
      (∀ call fault, st.exec call ≠ some (.error fault)) := by
  obtain ⟨hinv, hdeleted⟩ := (Inv.start main values).deleted_of_run hrun
  refine ⟨⟨hinv.not_mem none, fun k => hinv.not_mem (some k)⟩,
    fun i hlive hi => hinv.inOnePlace hlive hi, fun i hi => hinv.status_of_mem (q := none) hi,
    fun k i hi => hinv.status_of_mem (q := some k) hi, fun x hx i hi => ?_,
    fun call fault hexec => ?_⟩
  · obtain ⟨hne, hnot⟩ := hinv.of_deleted (hdeleted x hx i hi)
    exact ⟨hne, hnot none, fun k => hnot (some k)⟩
  · obtain ⟨st', hok, -⟩ := hinv.exec hexec
    cases hok

/-- The operations of `exec` that succeed. -/
def execOk (st : Kernel ι κ) (call : KernelCall ι κ) : Option (Kernel ι κ) :=
  match st.exec call with
  | some (.ok st') => some st'
  | _ => none

theorem exec_of_execOk {st st' : Kernel ι κ} {call : KernelCall ι κ}
    (h : st.execOk call = some st') : st.exec call = some (.ok st') := by
  rw [execOk] at h
  split at h
  next hexec =>
    cases h
    exact hexec
  next => cases h

/-- The initial thread forks another and blocks; the other finishes, and while the CPU is
idle a handler wakes the initial thread, which deletes the other. -/
theorem threads_in_one_place_two :
    ∃ (steps : List (Step (Kernel (Fin 2) Unit) (KernelCall (Fin 2) Unit)))
    (st : Kernel (Fin 2) Unit), Run (start 0 fun _ => 0) steps st ∧ st.life 1 = .deleted ∧
      (st.currentThread ∉ st.readyList ∧ ∀ k, st.currentThread ∉ (st.semaphores k).queue) ∧
      (∀ i, st.life i = .live → i ≠ st.currentThread → st.InOnePlace i) ∧
      (∀ i ∈ st.readyList, st.status i = .ready) ∧
      (∀ k, ∀ i ∈ (st.semaphores k).queue, st.status i = .blocked) ∧
      (∀ x ∈ steps, ∀ i, x.after.life i = .deleted →
        i ≠ st.currentThread ∧ i ∉ st.readyList ∧ ∀ k, i ∉ (st.semaphores k).queue) ∧
      (∀ call fault, st.exec call ≠ some (.error fault)) := by
  let calls : List (KernelCall (Fin 2) Unit) := [.fork 1, .P () [], .finish [[()]], .resumeP []]
  have hend : (execAll execOk (start 0 fun _ => 0) calls).map (fun st => st.life 1) =
      some .deleted := by decide
  obtain ⟨st, hst, hlife⟩ := Option.map_eq_some_iff.mp hend
  have hrun : Run (start 0 fun _ => 0) _ st :=
    (trace_of_execAll hst).mono fun _ _ _ => exec_of_execOk
  exact ⟨_, st, hrun, hlife, threads_in_one_place hrun⟩

end Kernel

end Nachos
