/-
# The table of processes

`do_UserProcessCreate`, `do_UserProcessExit` and `do_WaitPid` of `userprog/userprocess.cc`,
with the part of the constructor of `AddrSpace` that takes the frames and the pid. They are
called by the threads of all processes, and other threads run between any two critical
sections: a pid is claimed under one of 64 locks, the process is counted later under another,
and an exit takes both back in the other order. Each section is one step.

A process and its threads have names that the code does not know; of the table of living
threads only `nbThreads` counts. What a process does in user mode, and the ways of waking a
sleeper, are left out: a thread that waits goes on whenever the condition of its loop lets it.
A constructor that finds no frame when it needs one fails an assertion, and stops there.

Two things that the code does are no steps here, for they leave the tables in no state that
could be told. A creation that is refused for want of frames deletes an address space that was
not filled in, and an exit of a thread whose id or stack index is outside the arrays of its
address space overwrites what it finds there; the main thread of a process is always such a
thread.
-/

import Nachos.Base.Trace
import Nachos.Userprog.UserProcess

namespace Nachos

open Base

/-- Where a thread is in the calls on processes. -/
inductive ProcessPhase (π : Type)
  /-- It has not been created. -/
  | unborn
  /-- In user code. -/
  | running
  /-- In the constructor of the address space of `q`, with `k` of its `n` frames. -/
  | loading (q : π) (n k : ℕ)
  /-- In the constructor, about to try pid `k`. -/
  | searching (q : π) (k : ℕ)
  /-- In `do_UserProcessCreate`, about to count the process. -/
  | counting (q : π)
  /-- In `do_UserProcessCreate`, about to start the main thread of the process. -/
  | forking (q : π)
  /-- In `do_UserProcessExit`, in the loop that waits for the other threads. -/
  | exitWait
  /-- In `do_UserProcessExit`, behind the loop. -/
  | exitCount
  /-- In `do_UserProcessExit`, about to test its `nbProcesses`. -/
  | exitTest (nbProcesses : ℤ)
  /-- In `do_UserProcessExit`, about to clear the pid. -/
  | exitClear
  /-- In the loop of `do_WaitPid`. -/
  | waiting (p : Fin 64)
  /-- After `Thread::Finish`. -/
  | finished
  deriving DecidableEq, Repr

/-- What has become of a process. -/
inductive Stage
  | unborn
  /-- Its address space is being constructed. -/
  | building
  /-- It has a pid and is not counted yet. -/
  | claimed
  /-- It is counted. -/
  | live
  /-- Its exit has taken it out of the count. -/
  | exiting
  /-- Its exit has given up the pid. -/
  | dead
  deriving DecidableEq, Repr

namespace Stage

/-- The process has a pid. -/
def holdsPid : Stage → Bool
  | claimed | live | exiting => true
  | _ => false

/-- The process has, or had, a pid. -/
def hasClaimed : Stage → Bool
  | unborn | building => false
  | _ => true

/-- The process is being created. -/
def inCreation : Stage → Bool
  | building | claimed => true
  | _ => false

end Stage

/-- The tables of processes, and the threads that work on them. -/
structure ProcessTable (ι π : Type) where
  fprovider : FrameProvider
  pids : Fin 64 → Bool
  nbProcesses : ℤ
  /-- `interrupt->Halt()` has been called. -/
  halted : Bool
  /-- The member `pid` of the address space of a process. -/
  pidOf : π → ℕ
  /-- The number of frames in the page table of a process. -/
  frames : π → ℕ
  /-- The member `nbThreads` of the address space of a process. -/
  nbThreads : π → ℕ
  /-- History: the living threads of a process. -/
  threads : π → Finset ι
  /-- The process of a thread. -/
  proc : ι → π
  /-- The members `tid` and `sp` of a thread. -/
  tid : ι → ℕ
  sp : ι → ℤ
  phase : ι → ProcessPhase π
  /-- History: the processes whose creation has begun, and how far each has come. -/
  born : Finset π
  stage : π → Stage

/-- The critical sections, by the calling thread. -/
inductive ProcessSection (ι π : Type)
  /-- `do_UserProcessCreate` up to the check for `n` free frames. -/
  | create (c : ι) (q : π) (n : ℕ)
  /-- One round of the loop over the pages. -/
  | takeFrame (c : ι) (rand : ℕ)
  /-- The end of that loop. -/
  | loaded (c : ι)
  /-- One round of the search for a pid; memory holds `uninit` where the pid will be. -/
  | search (c : ι) (uninit : ℕ)
  | count (c : ι)
  | fork (c t : ι)
  /-- A thread of the process is created, with an id and a stack pointer that its address
  space gives out, or leaves by `do_UserThreadExit`. -/
  | spawn (c t : ι) (tid : ℕ) (sp : ℤ)
  | leave (c : ι)
  /-- The sections of `do_UserProcessExit`. -/
  | exit (c : ι)
  | pass (c : ι)
  | uncount (c : ι)
  | test (c : ι)
  | clear (c : ι)
  /-- `do_WaitPid` up to its loop, and a test of the loop. -/
  | waitPid (c : ι) (p : Fin 64)
  | waitTest (c : ι)
  deriving DecidableEq, Repr

namespace ProcessTable

variable {ι π : Type} [DecidableEq ι] [DecidableEq π]

/-- Thread `c` goes on to another place. -/
def moveTo (st : ProcessTable ι π) (c : ι) (phase : ProcessPhase π) : ProcessTable ι π :=
  { st with phase := Function.update st.phase c phase }

/-- Process `q` comes to another stage. -/
def setStage (st : ProcessTable ι π) (q : π) (stage : Stage) : ProcessTable ι π :=
  { st with stage := Function.update st.stage q stage }

/-- `AddrSpace::GetTotalThreads`. -/
def getTotalThreads (st : ProcessTable ι π) (q : π) : ℕ := st.nbThreads q

/-- The constructor of `AddrSpace`, behind its check that there are frames enough. -/
def create (st : ProcessTable ι π) (c : ι) (q : π) (n : ℕ) : ProcessTable ι π :=
  { (st.moveTo c (.loading q n 0)).setStage q .building with born := insert q st.born }

/-- A frame for the next page. -/
def takeFrame (st : ProcessTable ι π) (c : ι) (q : π) (n k rand : ℕ) : ProcessTable ι π :=
  { st.moveTo c (.loading q n (k + 1)) with
    fprovider := (st.fprovider.getEmptyFrame rand).2
    frames := Function.update st.frames q (k + 1) }

/-- All pages have their frames, and the table of threads is set up. -/
def loaded (st : ProcessTable ι π) (c : ι) (q : π) : ProcessTable ι π :=
  { st.moveTo c (.searching q 0) with nbThreads := Function.update st.nbThreads q 1 }

/-- The pid of a process is set, in the address space and in `pids`. -/
def claim (st : ProcessTable ι π) (c : ι) (q : π) (k : Fin 64) : ProcessTable ι π :=
  { (st.moveTo c (.counting q)).setStage q .claimed with
    pids := Function.update st.pids k true
    pidOf := Function.update st.pidOf q k }

/-- One round of the search for a pid, or its end. -/
def search (st : ProcessTable ι π) (c : ι) (q : π) (k uninit : ℕ) : ProcessTable ι π :=
  if h : k < 64 then
    if st.pids ⟨k, h⟩ then st.moveTo c (.searching q (k + 1)) else st.claim c q ⟨k, h⟩
  else
    { (st.moveTo c (.counting q)).setStage q .claimed with
      pidOf := Function.update st.pidOf q uninit }

/-- `SetNbProcesses(GetNbProcesses() + 1)`. -/
def count (st : ProcessTable ι π) (c : ι) (q : π) : ProcessTable ι π :=
  { (st.moveTo c (.forking q)).setStage q .live with nbProcesses := st.nbProcesses + 1 }

/-- Thread `t` starts in process `q`, which has `nbThreads` threads then. -/
def startThread (st : ProcessTable ι π) (q : π) (t : ι) (tid : ℕ) (sp : ℤ) (nbThreads : ℕ) :
    ProcessTable ι π :=
  { st.moveTo t .running with
    nbThreads := Function.update st.nbThreads q nbThreads
    threads := Function.update st.threads q (insert t (st.threads q))
    proc := Function.update st.proc t q
    tid := Function.update st.tid t tid
    sp := Function.update st.sp t sp }

/-- The end of `do_UserProcessCreate`. The main thread has the id `1`, and `0` for a stack
pointer; it is in the table since the table was set up. -/
def fork (st : ProcessTable ι π) (c t : ι) (q : π) : ProcessTable ι π :=
  (st.startThread q t 1 0 (st.nbThreads q)).moveTo c .running

/-- `do_UserThreadCreate`, when it does not refuse. -/
def spawn (st : ProcessTable ι π) (c t : ι) (tid : ℕ) (sp : ℤ) : ProcessTable ι π :=
  st.startThread (st.proc c) t tid sp (st.nbThreads (st.proc c) + 1)

/-- `do_UserThreadExit` of thread `c` takes its indices inside `threadConditions` and
`threadStackPointer`. -/
def LeavesInside (st : ProcessTable ι π) (c : ι) : Prop :=
  st.tid c < UserThreadMax ∧ 0 ≤ AddrSpace.slotIndex (st.sp c) ∧
    AddrSpace.slotIndex (st.sp c) < UserThreadMax

instance (st : ProcessTable ι π) (c : ι) : Decidable (st.LeavesInside c) :=
  inferInstanceAs (Decidable (_ ∧ _ ∧ _))

/-- `do_UserThreadExit`, inside the arrays. -/
def leave (st : ProcessTable ι π) (c : ι) : ProcessTable ι π :=
  { st.moveTo c .finished with
    nbThreads := Function.update st.nbThreads (st.proc c) (st.nbThreads (st.proc c) - 1)
    threads := Function.update st.threads (st.proc c) ((st.threads (st.proc c)).erase c) }

/-- `do_UserProcessExit`, the section under the lock of the processes. -/
def uncount (st : ProcessTable ι π) (c : ι) : ProcessTable ι π :=
  { (st.moveTo c (.exitTest (st.nbProcesses - 1))).setStage (st.proc c) .exiting with
    nbProcesses := st.nbProcesses - 1 }

/-- `do_UserProcessExit`, its test. -/
def test (st : ProcessTable ι π) (c : ι) (nbProcesses : ℤ) : ProcessTable ι π :=
  if nbProcesses = 0 then { st with halted := true } else st.moveTo c .exitClear

/-- `do_UserProcessExit`, the section under the lock of the pid. -/
def clear (st : ProcessTable ι π) (c : ι) (k : Fin 64) : ProcessTable ι π :=
  { (st.moveTo c .finished).setStage (st.proc c) .dead with
    pids := Function.update st.pids k false }

/-- `do_WaitPid` up to its loop. -/
def doWaitPid (st : ProcessTable ι π) (c : ι) (p : Fin 64) : ProcessTable ι π :=
  if (p : ℕ) = st.pidOf (st.proc c) then st else st.moveTo c (.waiting p)

/-- One section; `none` if the thread is not there, the section fails, or it is one of those
that are left out. -/
def run (st : ProcessTable ι π) : ProcessSection ι π → Option (ProcessTable ι π)
  | .create c q n =>
      if st.phase c = .running ∧ q ∉ st.born ∧ ¬ st.fprovider.numAvailFrame < n then
        some (st.create c q n)
      else none
  | .takeFrame c rand =>
      match st.phase c with
      | .loading q n k =>
          if k < n ∧ st.fprovider.isFrameAvail then some (st.takeFrame c q n k rand) else none
      | _ => none
  | .loaded c =>
      match st.phase c with
      | .loading q n k => if k = n then some (st.loaded c q) else none
      | _ => none
  | .search c uninit =>
      match st.phase c with
      | .searching q k => some (st.search c q k uninit)
      | _ => none
  | .count c =>
      match st.phase c with
      | .counting q => some (st.count c q)
      | _ => none
  | .fork c t =>
      match st.phase c with
      | .forking q => if st.phase t = .unborn then some (st.fork c t q) else none
      | _ => none
  | .spawn c t tid sp =>
      if st.phase c = .running ∧ st.phase t = .unborn ∧
          ¬ st.getTotalThreads (st.proc c) + 1 > UserThreadMax then
        some (st.spawn c t tid sp)
      else none
  | .leave c =>
      if st.phase c = .running ∧ st.LeavesInside c then some (st.leave c) else none
  | .exit c => if st.phase c = .running then some (st.moveTo c .exitWait) else none
  | .pass c =>
      if st.phase c = .exitWait ∧ ¬ st.getTotalThreads (st.proc c) > 1 then
        some (st.moveTo c .exitCount)
      else none
  | .uncount c => if st.phase c = .exitCount then some (st.uncount c) else none
  | .test c =>
      match st.phase c with
      | .exitTest nbProcesses => some (st.test c nbProcesses)
      | _ => none
  | .clear c =>
      if st.phase c = .exitClear then
        if h : st.pidOf (st.proc c) < 64 then some (st.clear c ⟨st.pidOf (st.proc c), h⟩) else none
      else none
  | .waitPid c p => if st.phase c = .running then some (st.doWaitPid c p) else none
  | .waitTest c =>
      match st.phase c with
      | .waiting p => some (if st.pids p then st else st.moveTo c .running)
      | _ => none

/-- A step of a run. Nothing runs after the machine is halted. -/
def Step (st : ProcessTable ι π) (call : ProcessSection ι π) (st' : ProcessTable ι π) : Prop :=
  st.halted = false ∧ st.run call = some st'

/-- What a section has done. -/
inductive Outcome (st : ProcessTable ι π) : ProcessSection ι π → ProcessTable ι π → Prop
  | idle (call : ProcessSection ι π) : Outcome st call st
  | building (c : ι) (q : π) (n : ℕ) : st.phase c = .running → q ∉ st.born →
      Outcome st (.create c q n) (st.create c q n)
  | framed (c : ι) (q : π) (n k rand : ℕ) : st.phase c = .loading q n k → k < n →
      st.fprovider.isFrameAvail = true → Outcome st (.takeFrame c rand) (st.takeFrame c q n k rand)
  | loaded (c : ι) (q : π) (n : ℕ) : st.phase c = .loading q n n →
      Outcome st (.loaded c) (st.loaded c q)
  | occupied (c : ι) (q : π) (k : Fin 64) (uninit : ℕ) : st.phase c = .searching q k →
      st.pids k = true → Outcome st (.search c uninit) (st.moveTo c (.searching q (k + 1)))
  | claimed (c : ι) (q : π) (k : Fin 64) (uninit : ℕ) : st.phase c = .searching q k →
      st.pids k = false → Outcome st (.search c uninit) (st.claim c q k)
  | exhausted (c : ι) (q : π) (k uninit : ℕ) (st' : ProcessTable ι π) :
      st.phase c = .searching q k → 64 ≤ k → Outcome st (.search c uninit) st'
  | counted (c : ι) (q : π) : st.phase c = .counting q → Outcome st (.count c) (st.count c q)
  | forked (c t : ι) (q : π) : st.phase c = .forking q → st.phase t = .unborn →
      Outcome st (.fork c t) (st.fork c t q)
  | spawned (c t : ι) (tid : ℕ) (sp : ℤ) : st.phase c = .running → st.phase t = .unborn →
      Outcome st (.spawn c t tid sp) (st.spawn c t tid sp)
  | left (c : ι) : st.phase c = .running → Outcome st (.leave c) (st.leave c)
  | exited (c : ι) : st.phase c = .running → Outcome st (.exit c) (st.moveTo c .exitWait)
  | passed (c : ι) : st.phase c = .exitWait → st.getTotalThreads (st.proc c) ≤ 1 →
      Outcome st (.pass c) (st.moveTo c .exitCount)
  | uncounted (c : ι) : st.phase c = .exitCount → Outcome st (.uncount c) (st.uncount c)
  | halting (c : ι) : st.phase c = .exitTest 0 → Outcome st (.test c) { st with halted := true }
  | tested (c : ι) (nbProcesses : ℤ) : st.phase c = .exitTest nbProcesses → nbProcesses ≠ 0 →
      Outcome st (.test c) (st.moveTo c .exitClear)
  | cleared (c : ι) (k : Fin 64) : st.phase c = .exitClear → st.pidOf (st.proc c) = k →
      Outcome st (.clear c) (st.clear c k)
  | waited (c : ι) (p : Fin 64) : st.phase c = .running → (p : ℕ) ≠ st.pidOf (st.proc c) →
      Outcome st (.waitPid c p) (st.moveTo c (.waiting p))
  | returned (c : ι) (p : Fin 64) : st.phase c = .waiting p → st.pids p = false →
      Outcome st (.waitTest c) (st.moveTo c .running)

/-- **The outcomes of a section.** -/
theorem outcome {st st' : ProcessTable ι π} {call : ProcessSection ι π} (h : st.Step call st') :
    Outcome st call st' := by
  obtain ⟨-, h⟩ := h
  cases call with
  | create c q n =>
      obtain ⟨⟨hc, hq, -⟩, h⟩ := Option.ite_none_right_eq_some.mp h
      cases h
      exact .building c q n hc hq
  | takeFrame c rand =>
      simp only [run] at h
      split at h
      · rename_i q n k hc
        obtain ⟨⟨hk, havail⟩, h⟩ := Option.ite_none_right_eq_some.mp h
        cases h
        exact .framed c q n k rand hc hk havail
      · cases h
  | loaded c =>
      simp only [run] at h
      split at h
      · rename_i q n k hc
        obtain ⟨hk, h⟩ := Option.ite_none_right_eq_some.mp h
        cases h
        exact .loaded c q n (hk ▸ hc)
      · cases h
  | search c uninit =>
      simp only [run] at h
      split at h
      · rename_i q k hc
        cases h
        by_cases hk : k < 64
        · rw [search, dif_pos hk]
          split
          · rename_i hpid
            exact .occupied c q ⟨k, hk⟩ uninit hc hpid
          · rename_i hpid
            exact .claimed c q ⟨k, hk⟩ uninit hc (Bool.eq_false_iff.mpr hpid)
        · exact .exhausted c q k uninit _ hc (Nat.not_lt.mp hk)
      · cases h
  | count c =>
      simp only [run] at h
      split at h
      · rename_i q hc
        cases h
        exact .counted c q hc
      · cases h
  | fork c t =>
      simp only [run] at h
      split at h
      · rename_i q hc
        obtain ⟨ht, h⟩ := Option.ite_none_right_eq_some.mp h
        cases h
        exact .forked c t q hc ht
      · cases h
  | spawn c t tid sp =>
      obtain ⟨⟨hc, ht, -⟩, h⟩ := Option.ite_none_right_eq_some.mp h
      cases h
      exact .spawned c t tid sp hc ht
  | leave c =>
      obtain ⟨⟨hc, -⟩, h⟩ := Option.ite_none_right_eq_some.mp h
      cases h
      exact .left c hc
  | exit c =>
      obtain ⟨hc, h⟩ := Option.ite_none_right_eq_some.mp h
      cases h
      exact .exited c hc
  | pass c =>
      obtain ⟨⟨hc, htotal⟩, h⟩ := Option.ite_none_right_eq_some.mp h
      cases h
      exact .passed c hc (Nat.not_lt.mp htotal)
  | uncount c =>
      obtain ⟨hc, h⟩ := Option.ite_none_right_eq_some.mp h
      cases h
      exact .uncounted c hc
  | test c =>
      simp only [run] at h
      split at h
      · rename_i nb hc
        cases h
        rw [test]
        split
        · rename_i hzero
          subst hzero
          exact .halting c hc
        · rename_i hne
          exact .tested c nb hc hne
      · cases h
  | clear c =>
      obtain ⟨hc, h⟩ := Option.ite_none_right_eq_some.mp h
      split at h
      · cases h
        exact .cleared c _ hc rfl
      · cases h
  | waitPid c p =>
      obtain ⟨hc, h⟩ := Option.ite_none_right_eq_some.mp h
      cases h
      rw [doWaitPid]
      split
      · exact .idle _
      · rename_i hne
        exact .waited c p hc hne
  | waitTest c =>
      simp only [run] at h
      split at h
      · rename_i p hc
        cases h
        split
        · exact .idle _
        · rename_i hpid
          exact .returned c p hc (Bool.eq_false_iff.mpr hpid)
      · cases h

end ProcessTable

end Nachos
