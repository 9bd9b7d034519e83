/-
# The threads of an address space

`userprog/userthread.cc`. Creating a thread and leaving it are each two critical
sections, the first under the lock of the ids and the second under the lock of the
stacks, and joining sleeps inside its critical section. The threads of an address space
run these sections in any order, so each section is one step of a run.

A run numbers the threads in the order their ids are given out, the main thread being
number `0`. The numbers are for the record only; the code knows the ids.
-/

import Nachos.Userprog.AddrSpace
import Nachos.Base.Trace

namespace Nachos

open Base

/-- Where a thread is. -/
inductive Activity
  /-- Its id has not been given out. -/
  | unborn
  /-- Its id is given out, and its creator is about to take a stack for it. -/
  | embryo
  /-- In user code. -/
  | running
  /-- In `do_UserThreadCreate`, between the critical sections, for thread `child`. -/
  | creating (child : ℕ)
  /-- In `do_UserThreadJoin`, asleep until thread id `t` is gone. -/
  | joining (t : ℕ)
  /-- In `do_UserThreadExit`, between the critical sections. -/
  | exiting
  /-- After `Thread::Finish`. -/
  | finished
  deriving DecidableEq, Repr

namespace Activity

/-- The id is in the table of living threads. -/
def isLive : Activity → Bool
  | embryo | running | creating _ | joining _ => true
  | unborn | exiting | finished => false

/-- The thread has a stack that it has not given back. -/
def holdsStack : Activity → Bool
  | running | creating _ | joining _ | exiting => true
  | unborn | embryo | finished => false

/-- The thread has called `do_UserThreadExit`. -/
def hasExited : Activity → Bool
  | exiting | finished => true
  | _ => false

end Activity

/-- What `Thread` keeps for a user thread, with the result of its last system call. -/
structure UserThread where
  tid : ℕ
  sp : ℤ
  activity : Activity
  result : ℤ
  deriving DecidableEq, Repr

/-- The critical sections of the system calls on threads, by the calling thread. Ids are
compared as 32-bit words, so an argument `t` is given by its unsigned value. -/
inductive ThreadCall
  | create (c : ℕ)
  | takeStack (c : ℕ)
  | exit (c : ℕ)
  | releaseStack (c : ℕ)
  | join (c t : ℕ)
  | wake (c : ℕ)
  deriving DecidableEq, Repr

/-- An address space and its threads. -/
structure ThreadRun where
  space : AddrSpace
  /-- The number of the last thread that got an id. -/
  created : ℕ
  threads : ℕ → UserThread

namespace ThreadRun

/-- The main thread of a process gets the id `1`, and `0` for a stack pointer. -/
def mainThread : UserThread := ⟨1, 0, .running, 0⟩

/-- A number that no thread has yet. -/
def noThread : UserThread := ⟨0, 0, .unborn, 0⟩

/-- A process that has just started. -/
def start (space : AddrSpace) : ThreadRun :=
  ⟨space, 0, Function.update (fun _ => noThread) 0 mainThread⟩

/-- Thread `c` goes on in user code, with a result. -/
def resume (st : ThreadRun) (c : ℕ) (result : ℤ) : ThreadRun :=
  { st with
    threads := Function.update st.threads c
      { st.threads c with activity := .running, result := result } }

/-- Thread `c` goes on to another place of the kernel. -/
def moveTo (st : ThreadRun) (c : ℕ) (activity : Activity) : ThreadRun :=
  { st with threads := Function.update st.threads c { st.threads c with activity := activity } }

/-- `do_UserThreadCreate`, the section under the lock of the ids. -/
def doUserThreadCreate (st : ThreadRun) (c : ℕ) : Except Fault ThreadRun := do
  let totalThreads := st.space.getTotalThreads + 1
  if totalThreads > UserThreadMax then
    return st.resume c (-1)
  let (tid, space) := st.space.getNextThreadID
  let space ← space.addThreadID tid
  let child := st.created + 1
  let st := { st with
    space := space
    created := child
    threads := Function.update st.threads child ⟨tid, 0, .embryo, 0⟩ }
  return st.moveTo c (.creating child)

/-- `do_UserThreadCreate`, the section under the lock of the stacks and the start of the
new thread. -/
def takeStack (st : ThreadRun) (c child : ℕ) : Except Fault ThreadRun := do
  let (sp, space) ← st.space.getThreadStackPointer
  let thread := st.threads child
  let st := { st with
    space := space
    threads := Function.update st.threads child { thread with sp := sp, activity := .running } }
  return st.resume c thread.tid

/-- `do_UserThreadExit`, the section under the lock of the ids. -/
def doUserThreadExit (st : ThreadRun) (c : ℕ) : Except Fault ThreadRun := do
  let space ← st.space.removeThreadID (st.threads c).tid
  return { st with space := space }.moveTo c .exiting

/-- `do_UserThreadExit`, the section under the lock of the stacks. `Thread::Finish`
follows, which does not return. -/
def releaseStack (st : ThreadRun) (c : ℕ) : Except Fault ThreadRun := do
  let space ← st.space.removeThreadStackPointer (st.threads c).sp
  return { st with space := space }.moveTo c .finished

/-- The loop of `do_UserThreadJoin`, from its test to where it sleeps or returns. -/
def joinLoop (st : ThreadRun) (c t : ℕ) : Except Fault ThreadRun := do
  if st.space.containThreadID t then
    let space ← st.space.threadJoinConditionWait t
    return { st with space := space }.moveTo c (.joining t)
  else
    return st.resume c 0

/-- `do_UserThreadJoin`, until it returns or sleeps. -/
def doUserThreadJoin (st : ThreadRun) (c t : ℕ) : Except Fault ThreadRun :=
  if (st.threads c).tid = t then .ok (st.resume c (-1))
  else if st.space.containThreadID t then st.joinLoop c t
  else .ok (st.resume c (-1))

/-- A sleeper of `do_UserThreadJoin` that has been woken goes on with the loop. -/
def wake (st : ThreadRun) (c t : ℕ) : Option (Except Fault ThreadRun) :=
  if h : t < UserThreadMax then
    (st.space.threadConditions ⟨t, h⟩).wakeUp.map fun condition =>
      { st with
        space := { st.space with
          threadConditions := Function.update st.space.threadConditions ⟨t, h⟩ condition }
        }.joinLoop c t
  else none

/-- One critical section; `none` if the thread is not there. -/
def exec (st : ThreadRun) : ThreadCall → Option (Except Fault ThreadRun)
  | .create c =>
      if (st.threads c).activity = .running then some (st.doUserThreadCreate c) else none
  | .takeStack c =>
      match (st.threads c).activity with
      | .creating child => some (st.takeStack c child)
      | _ => none
  | .exit c => if (st.threads c).activity = .running then some (st.doUserThreadExit c) else none
  | .releaseStack c =>
      if (st.threads c).activity = .exiting then some (st.releaseStack c) else none
  | .join c t =>
      if (st.threads c).activity = .running then some (st.doUserThreadJoin c t) else none
  | .wake c =>
      match (st.threads c).activity with
      | .joining t => st.wake c t
      | _ => none

/-- Every section that a thread can carry out, and where the thread is. -/
theorem exec_cases {st : ThreadRun} {call : ThreadCall} {result : Except Fault ThreadRun}
    (h : st.exec call = some result) :
    (∃ c, call = .create c ∧ (st.threads c).activity = .running ∧
        result = st.doUserThreadCreate c) ∨
      (∃ c child, call = .takeStack c ∧ (st.threads c).activity = .creating child ∧
        result = st.takeStack c child) ∨
      (∃ c, call = .exit c ∧ (st.threads c).activity = .running ∧
        result = st.doUserThreadExit c) ∨
      (∃ c, call = .releaseStack c ∧ (st.threads c).activity = .exiting ∧
        result = st.releaseStack c) ∨
      (∃ c t, call = .join c t ∧ (st.threads c).activity = .running ∧
        result = st.doUserThreadJoin c t) ∨
      (∃ c t conditions, call = .wake c ∧ (st.threads c).activity = .joining t ∧
        t < UserThreadMax ∧
        result = { st with
          space := { st.space with threadConditions := conditions } }.joinLoop c t) := by
  cases call with
  | create c =>
      obtain ⟨hc, hresult⟩ := Option.ite_none_right_eq_some.mp h
      exact Or.inl ⟨c, rfl, hc, (Option.some.inj hresult).symm⟩
  | takeStack c =>
      simp only [exec] at h
      split at h
      · rename_i child hc
        exact Or.inr (Or.inl ⟨c, child, rfl, hc, (Option.some.inj h).symm⟩)
      · cases h
  | exit c =>
      obtain ⟨hc, hresult⟩ := Option.ite_none_right_eq_some.mp h
      exact Or.inr (Or.inr (Or.inl ⟨c, rfl, hc, (Option.some.inj hresult).symm⟩))
  | releaseStack c =>
      obtain ⟨hc, hresult⟩ := Option.ite_none_right_eq_some.mp h
      exact Or.inr (Or.inr (Or.inr (Or.inl ⟨c, rfl, hc, (Option.some.inj hresult).symm⟩)))
  | join c t =>
      obtain ⟨hc, hresult⟩ := Option.ite_none_right_eq_some.mp h
      exact Or.inr (Or.inr (Or.inr (Or.inr (Or.inl
        ⟨c, t, rfl, hc, (Option.some.inj hresult).symm⟩))))
  | wake c =>
      simp only [exec] at h
      split at h
      · rename_i t hc
        rw [wake] at h
        split at h
        · rename_i hlt
          obtain ⟨condition, -, hresult⟩ := Option.map_eq_some_iff.mp h
          exact Or.inr (Or.inr (Or.inr (Or.inr (Or.inr
            ⟨c, t, _, rfl, hc, hlt, hresult.symm⟩))))
        · cases h
      · cases h

/-- A step of a run: a critical section that is carried out to its end, inside the arrays of the
address space. -/
def Step (st : ThreadRun) (call : ThreadCall) (st' : ThreadRun) : Prop :=
  st.exec call = some (.ok st')

/-- `RemoveThreadStackPointer` with an index behind `threadStackPointer`, among the members
that follow it. -/
def releaseBehind (st : ThreadRun) (c : ℕ) : Option ThreadRun :=
  let i := AddrSpace.slotIndex (st.threads c).sp
  if UserThreadMax ≤ i ∧ i < UserThreadMax + 20 then
    some ({ st with space := st.space.clearBehind (i.toNat - UserThreadMax) }.moveTo c .finished)
  else none

/-- A step of a run on the machine, which does not stop at the end of the array: it clears
the byte that it finds there, and goes on. -/
inductive MachineStep (st : ThreadRun) : ThreadCall → ThreadRun → Prop
  | inside {call : ThreadCall} {st' : ThreadRun} : st.Step call st' → MachineStep st call st'
  | behind {c : ℕ} {st' : ThreadRun} : (st.threads c).activity = .exiting →
      st.releaseBehind c = some st' → MachineStep st (.releaseStack c) st'

/-- The indices that a section computes are inside `threadConditions` and
`threadStackPointer`. -/
def InArrays (st : ThreadRun) : ThreadCall → Prop
  | .exit c => (st.threads c).tid < UserThreadMax
  | .releaseStack c => 0 ≤ AddrSpace.slotIndex (st.threads c).sp ∧
      AddrSpace.slotIndex (st.threads c).sp < UserThreadMax
  | .join c t => (st.threads c).tid ≠ t → t ∈ st.space.threadIDs → t < UserThreadMax
  | .create _ | .takeStack _ | .wake _ => True

instance (st : ThreadRun) : (call : ThreadCall) → Decidable (st.InArrays call)
  | .exit c => inferInstanceAs (Decidable ((st.threads c).tid < UserThreadMax))
  | .releaseStack c => inferInstanceAs (Decidable (0 ≤ AddrSpace.slotIndex (st.threads c).sp ∧
      AddrSpace.slotIndex (st.threads c).sp < UserThreadMax))
  | .join c t => inferInstanceAs (Decidable ((st.threads c).tid ≠ t →
      t ∈ st.space.threadIDs → t < UserThreadMax))
  | .create _ | .takeStack _ | .wake _ => inferInstanceAs (Decidable True)

/-- Inside the arrays the machine does what the source says. -/
theorem MachineStep.step {st st' : ThreadRun} {call : ThreadCall} (h : st.MachineStep call st')
    (hin : st.InArrays call) : st.Step call st' := by
  cases h with
  | inside hstep => exact hstep
  | behind hc hbehind =>
      obtain ⟨⟨hle, -⟩, -⟩ := Option.ite_none_right_eq_some.mp hbehind
      exact absurd hin.2 (not_lt.mpr hle)

/-- The critical sections one after the other. -/
def execAll (st : ThreadRun) : List ThreadCall → Option ThreadRun
  | [] => some st
  | call :: rest =>
      match st.exec call with
      | some (.ok st') => st'.execAll rest
      | _ => none

/-- The steps of the run that `execAll` computes. -/
def stepsOf (st : ThreadRun) : List ThreadCall → List (Base.Step ThreadRun ThreadCall)
  | [] => []
  | call :: rest =>
      match st.exec call with
      | some (.ok st') => ⟨st, call, st'⟩ :: st'.stepsOf rest
      | _ => []

/-- What `execAll` computes is a run. -/
theorem trace_of_execAll {calls : List ThreadCall} {st st' : ThreadRun}
    (h : st.execAll calls = some st') : Trace Step st (st.stepsOf calls) st' := by
  induction calls generalizing st with
  | nil =>
      cases h
      exact .nil _
  | cons call rest ih =>
      rw [execAll] at h
      rw [stepsOf]
      rcases hstep : st.exec call with _ | (fault | next)
      · simp [hstep] at h
      · simp [hstep] at h
      · rw [hstep] at h
        exact (ih h).cons hstep

end ThreadRun

end Nachos
