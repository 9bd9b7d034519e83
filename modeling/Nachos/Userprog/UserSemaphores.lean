/-
# Semaphores of user programs

`UserSemaphores` belongs to no process: any thread may create, wait for, post and delete any
of its semaphores. The destructor of a semaphore deletes the queue with whoever is on it, so
a thread that sleeps there is lost, and a thread that was taken off the queue and has not run
since goes on with memory that was freed.

Each system call runs from its test of the table into `P` or `V` without a point at which
another thread could run, so that a run is a sequence of whole calls and of passes of the loop
of `P` by threads that were woken.
-/

import Nachos.Userprog.Handles

namespace Nachos

open Base Synch

/-- Where a user thread is with respect to `UserSemaphores`. -/
inductive SemaphorePlace
  | away
  /-- In `P`, on the queue of the semaphore. -/
  | asleep (sid : Fin 64)
  /-- In `P`, taken off the queue and not yet resumed. -/
  | woken (sid : Fin 64)
  /-- In `P`, on the queue of a semaphore that was deleted. -/
  | lost
  /-- In `P`, taken off the queue of a semaphore that was deleted before it was resumed. -/
  | dangling
  deriving DecidableEq, Repr

namespace SemaphorePlace

/-- The thread is blocked inside `SemWait`. -/
def blocked : SemaphorePlace → Bool
  | asleep _ | lost => true
  | _ => false

/-- The semaphore is deleted. -/
def afterDelete (sid : Fin 64) : SemaphorePlace → SemaphorePlace
  | asleep s => if s = sid then lost else asleep s
  | woken s => if s = sid then dangling else woken s
  | place => place

end SemaphorePlace

/-- `UserSemaphores` with the threads that use it. -/
structure SemaphoreRun (ι : Type) where
  table : SemaphoreTable ι
  place : ι → SemaphorePlace

/-- The system calls by the calling thread, and the passes of the loop of `P` after a thread
was woken. -/
inductive SemaphoreCall (ι : Type)
  | semCreate (c : ι) (val : ℤ)
  | semWait (c : ι) (sid : Fin 64)
  | semPost (c : ι) (sid : Fin 64)
  | semDelete (c : ι) (sid : Fin 64)
  | resume (c : ι)
  deriving DecidableEq, Repr

namespace SemaphoreRun

variable {ι : Type} [DecidableEq ι]

/-- No semaphore has been created. -/
def start : SemaphoreRun ι := ⟨fun _ => none, fun _ => .away⟩

/-- A pass of the loop of `P` by thread `c`. -/
def pass (st : SemaphoreRun ι) (c : ι) (sid : Fin 64) (sem : Semaphore ι) : SemaphoreRun ι where
  table := Function.update st.table sid (some (sem.tryP c).1)
  place := Function.update st.place c (if (sem.tryP c).2 then .away else .asleep sid)

/-- `V`, and the thread that it makes ready. -/
def post (st : SemaphoreRun ι) (sid : Fin 64) (sem : Semaphore ι) : SemaphoreRun ι where
  table := Function.update st.table sid (some sem.V.1)
  place :=
    match sem.V.2 with
    | some i => Function.update st.place i (.woken sid)
    | none => st.place

/-- One call or one pass; `none` if the thread is not there, or would go on with a semaphore
that was freed. -/
def exec (st : SemaphoreRun ι) : SemaphoreCall ι → Option (SemaphoreRun ι)
  | .semCreate c val =>
      if st.place c = .away then some { st with table := (st.table.create val).2 } else none
  | .semWait c sid =>
      if st.place c = .away then
        match st.table sid with
        | some sem => some (st.pass c sid sem)
        | none => some st
      else none
  | .semPost c sid =>
      if st.place c = .away then
        match st.table sid with
        | some sem => some (st.post sid sem)
        | none => some st
      else none
  | .semDelete c sid =>
      if st.place c = .away then
        some ⟨Function.update st.table sid none, fun i => (st.place i).afterDelete sid⟩
      else none
  | .resume c =>
      match st.place c with
      | .woken sid => (st.table sid).map fun sem => st.pass c sid sem
      | _ => none

/-- The runs of the system. -/
def Step (st : SemaphoreRun ι) (call : SemaphoreCall ι) (st' : SemaphoreRun ι) : Prop :=
  st.exec call = some st'

/-- Every thread that is blocked in `SemWait` is on the queue of a semaphore of the table, and
no thread is on its way back into a semaphore that was freed. -/
structure NoneLost (st : SemaphoreRun ι) : Prop where
  queued : ∀ i, (st.place i).blocked → ∃ sid sem, st.table sid = some sem ∧ i ∈ sem.queue
  valid : ∀ i, st.place i ≠ .dangling

/-- A semaphore is deleted only when no thread is inside its `P`. -/
def DeleteSafe (st : SemaphoreRun ι) : SemaphoreCall ι → Prop
  | .semDelete _ sid => ∀ i, st.place i ≠ .asleep sid ∧ st.place i ≠ .woken sid
  | _ => True

/-- Every call and pass, with what it does. -/
theorem exec_cases {st st' : SemaphoreRun ι} {call : SemaphoreCall ι} (h : st.Step call st') :
    st' = st ∨
      (∃ c val, call = .semCreate c val ∧ st' = { st with table := (st.table.create val).2 }) ∨
      (∃ c sid sem, (st.place c = .away ∨ st.place c = .woken sid) ∧ st.table sid = some sem ∧
        st' = st.pass c sid sem) ∨
      (∃ sid sem, st.table sid = some sem ∧ st' = st.post sid sem) ∨
      (∃ c sid, call = .semDelete c sid ∧
        st' = ⟨Function.update st.table sid none, fun i => (st.place i).afterDelete sid⟩) := by
  cases call with
  | semCreate c val =>
      obtain ⟨-, hresult⟩ := Option.ite_none_right_eq_some.mp h
      exact .inr (.inl ⟨c, val, rfl, (Option.some.inj hresult).symm⟩)
  | semWait c sid =>
      obtain ⟨hc, hresult⟩ := Option.ite_none_right_eq_some.mp h
      cases hsem : st.table sid with
      | none =>
          rw [hsem] at hresult
          exact .inl (Option.some.inj hresult).symm
      | some sem =>
          rw [hsem] at hresult
          exact .inr (.inr (.inl ⟨c, sid, sem, .inl hc, hsem, (Option.some.inj hresult).symm⟩))
  | semPost c sid =>
      obtain ⟨-, hresult⟩ := Option.ite_none_right_eq_some.mp h
      cases hsem : st.table sid with
      | none =>
          rw [hsem] at hresult
          exact .inl (Option.some.inj hresult).symm
      | some sem =>
          rw [hsem] at hresult
          exact .inr (.inr (.inr (.inl ⟨sid, sem, hsem, (Option.some.inj hresult).symm⟩)))
  | semDelete c sid =>
      obtain ⟨-, hresult⟩ := Option.ite_none_right_eq_some.mp h
      exact .inr (.inr (.inr (.inr ⟨c, sid, rfl, (Option.some.inj hresult).symm⟩)))
  | resume c =>
      simp only [Step, exec] at h
      split at h
      · rename_i sid hc
        obtain ⟨sem, hsem, hresult⟩ := Option.map_eq_some_iff.mp h
        exact .inr (.inr (.inl ⟨c, sid, sem, .inr hc, hsem, hresult.symm⟩))
      · cases h

/-- What the handler does to the table on a handle in range is the step of its call. -/
theorem step_of_handler (uninit : Uninit) {st : KernelState ι} {sid : Fin 64}
    (hsid : st.handle = sid) {place : ι → SemaphorePlace} (hc : place st.current = .away)
    {call : HandleSyscall} {st' : KernelState ι} {returned : Bool}
    (hbody : st.body uninit call = .ok (st', returned)) :
    (call = .semWait → ∃ place', Step ⟨st.userSemaphores, place⟩ (.semWait st.current sid)
      ⟨st'.userSemaphores, place'⟩) ∧
    (call = .semPost → ∃ place', Step ⟨st.userSemaphores, place⟩ (.semPost st.current sid)
      ⟨st'.userSemaphores, place'⟩) ∧
    (call = .semDelete → ∃ place', Step ⟨st.userSemaphores, place⟩ (.semDelete st.current sid)
      ⟨st'.userSemaphores, place'⟩) := by
  have hlookup := SemaphoreTable.lookup_fin st.userSemaphores hsid
  refine ⟨?_, ?_, ?_⟩
  · rintro rfl
    rw [KernelState.body, KernelState.semWaitCase, hlookup] at hbody
    simp only [Step, exec, if_pos hc]
    cases hsem : st.userSemaphores sid with
    | none =>
        rw [hsem] at hbody
        cases hbody
        exact ⟨place, rfl⟩
    | some sem =>
        rw [hsem] at hbody
        cases hbody
        refine ⟨_, congrArg some (congrArg₂ SemaphoreRun.mk ?_ rfl)⟩
        split <;> rfl
  · rintro rfl
    rw [KernelState.body, KernelState.semPostCase, hlookup] at hbody
    simp only [Step, exec, if_pos hc]
    cases hsem : st.userSemaphores sid with
    | none =>
        rw [hsem] at hbody
        cases hbody
        exact ⟨place, rfl⟩
    | some sem =>
        rw [hsem] at hbody
        cases hbody
        exact ⟨_, rfl⟩
  · rintro rfl
    obtain ⟨i, hindex, hi⟩ := index_of_lt (n := 64) (i := st.handle)
      (by omega) (by have hlt := sid.isLt; omega)
    obtain rfl : i = sid := Fin.ext (by omega)
    rw [KernelState.body, KernelState.semDeleteCase, hindex] at hbody
    cases hbody
    exact ⟨_, if_pos hc⟩

/-- The queues list the sleepers, and whoever is inside `P` is inside a semaphore of the
table. -/
structure Inv (st : SemaphoreRun ι) : Prop where
  asleep : ∀ i sid, st.place i = .asleep sid ↔ ∃ sem, st.table sid = some sem ∧ i ∈ sem.queue
  nodup : ∀ sid sem, st.table sid = some sem → sem.queue.Nodup
  woken : ∀ i sid, st.place i = .woken sid → (st.table sid).isSome
  present : ∀ i, st.place i ≠ .lost ∧ st.place i ≠ .dangling

namespace Inv

variable {st : SemaphoreRun ι}

omit [DecidableEq ι] in
theorem start : (SemaphoreRun.start : SemaphoreRun ι).Inv where
  asleep i sid := by simp [SemaphoreRun.start]
  nodup sid sem hsem := by cases hsem
  woken i sid hi := by cases hi
  present i := by simp [SemaphoreRun.start]

omit [DecidableEq ι] in
theorem noneLost (h : st.Inv) : st.NoneLost := by
  refine ⟨fun i hi => ?_, fun i => (h.present i).2⟩
  cases hplace : st.place i with
  | asleep sid =>
      obtain ⟨sem, hsem, hmem⟩ := (h.asleep i sid).mp hplace
      exact ⟨sid, sem, hsem, hmem⟩
  | lost => exact absurd hplace (h.present i).1
  | away | woken _ | dangling =>
      rw [hplace] at hi
      cases hi

omit [DecidableEq ι] in
/-- A thread that is on no queue. -/
theorem not_mem_queue (h : st.Inv) {i : ι} (hi : (st.place i).blocked = false) {sid : Fin 64}
    {sem : Semaphore ι} (hsem : st.table sid = some sem) : i ∉ sem.queue := by
  intro hmem
  rw [(h.asleep i sid).mpr ⟨sem, hsem, hmem⟩] at hi
  cases hi

omit [DecidableEq ι] in
/-- One semaphore is replaced, and threads move to or from it only. -/
theorem replace (h : st.Inv) {sid : Fin 64} {sem : Semaphore ι} {place : ι → SemaphorePlace}
    (hqueue : ∀ i, place i = .asleep sid ↔ i ∈ sem.queue) (hnodup : sem.queue.Nodup)
    (hasleep : ∀ i s, s ≠ sid → (place i = .asleep s ↔ st.place i = .asleep s))
    (hwoken : ∀ i s, s ≠ sid → place i = .woken s → st.place i = .woken s)
    (hpresent : ∀ i, place i ≠ .lost ∧ place i ≠ .dangling) :
    (⟨Function.update st.table sid (some sem), place⟩ : SemaphoreRun ι).Inv := by
  refine ⟨fun i s => ?_, fun s other hother => ?_, fun i s hi => ?_, hpresent⟩
  · by_cases hs : s = sid
    · subst hs
      simp only [Function.update_self, Option.some.injEq, exists_eq_left']
      exact hqueue i
    · simp only [Function.update_of_ne hs]
      exact (hasleep i s hs).trans (h.asleep i s)
  · by_cases hs : s = sid
    · subst hs
      simp only [Function.update_self, Option.some.injEq] at hother
      exact hother ▸ hnodup
    · simp only [Function.update_of_ne hs] at hother
      exact h.nodup s other hother
  · by_cases hs : s = sid
    · subst hs
      simp only [Function.update_self]
      rfl
    · simp only [Function.update_of_ne hs]
      exact h.woken i s (hwoken i s hs hi)

omit [DecidableEq ι] in
theorem create (h : st.Inv) (val : ℤ) :
    ({ st with table := (st.table.create val).2 } : SemaphoreRun ι).Inv := by
  obtain ⟨-, hequal⟩ | ⟨sid, hfree, hequal⟩ := SemaphoreTable.create_cases st.table val
  · rw [hequal]
    exact h
  · rw [hequal]
    refine h.replace (fun i => ?_) List.nodup_nil (fun _ _ _ => Iff.rfl) (fun _ _ _ hi => hi)
      h.present
    rw [h.asleep i sid, hfree]
    simp [Semaphore.new]

/-- One thread moves within the semaphore that is replaced, in or out. -/
theorem move (h : st.Inv) {c : ι} {sid : Fin 64} {sem : Semaphore ι} {next : SemaphorePlace}
    (hc : st.place c = .away ∨ st.place c = .asleep sid ∨ st.place c = .woken sid)
    (hnext : next = .away ∨ next = .asleep sid ∨ next = .woken sid)
    (hself : next = .asleep sid ↔ c ∈ sem.queue)
    (hothers : ∀ i, i ≠ c → (st.place i = .asleep sid ↔ i ∈ sem.queue))
    (hnodup : sem.queue.Nodup) :
    (⟨Function.update st.table sid (some sem), Function.update st.place c next⟩ :
      SemaphoreRun ι).Inv := by
  have hlocal {place : SemaphorePlace} {s : Fin 64} (hs : s ≠ sid)
      (hplace : place = .away ∨ place = .asleep sid ∨ place = .woken sid) :
      place ≠ .asleep s ∧ place ≠ .woken s := by
    rcases hplace with rfl | rfl | rfl <;> simp [Ne.symm hs]
  refine h.replace (fun i => ?_) hnodup (fun i s hs => ?_) (fun i s hs hwoken => ?_) fun i => ?_
  all_goals by_cases hi : i = c
  · rw [hi, Function.update_self]
    exact hself
  · rw [Function.update_of_ne hi]
    exact hothers i hi
  · rw [hi, Function.update_self]
    exact iff_of_false (hlocal hs hnext).1 (hlocal hs hc).1
  · rw [Function.update_of_ne hi]
  · rw [hi, Function.update_self] at hwoken
    exact absurd hwoken (hlocal hs hnext).2
  · rw [Function.update_of_ne hi] at hwoken
    exact hwoken
  · rw [hi, Function.update_self]
    rcases hnext with rfl | rfl | rfl <;> simp
  · rw [Function.update_of_ne hi]
    exact h.present i

/-- A pass of the loop of `P`, by a thread that is on no queue. -/
theorem pass (h : st.Inv) {c : ι} {sid : Fin 64} {sem : Semaphore ι}
    (hc : st.place c = .away ∨ st.place c = .woken sid) (hsem : st.table sid = some sem) :
    (st.pass c sid sem).Inv := by
  have hblocked : (st.place c).blocked = false := by
    rcases hc with hc | hc <;> rw [hc] <;> rfl
  have hnot : c ∉ sem.queue := h.not_mem_queue hblocked hsem
  have hplace : st.place c = .away ∨ st.place c = .asleep sid ∨ st.place c = .woken sid :=
    hc.imp_right .inr
  have hqueue (i : ι) : st.place i = .asleep sid ↔ i ∈ sem.queue := by
    rw [h.asleep i sid, hsem]
    simp
  rw [SemaphoreRun.pass, Semaphore.tryP]
  split
  · refine h.move hplace (.inr (.inl rfl)) (by simp) (fun i hi => ?_) ?_
    · rw [hqueue, List.mem_append, List.mem_singleton, or_iff_left hi]
    · refine List.nodup_append.mpr ⟨h.nodup sid sem hsem, List.nodup_singleton _, ?_⟩
      rintro a ha b hb rfl
      exact hnot (List.mem_singleton.mp hb ▸ ha)
  · exact h.move hplace (.inl rfl) (iff_of_false (by simp) hnot) (fun i _ => hqueue i)
      (h.nodup sid sem hsem)

/-- A `V`: the first sleeper of the queue is woken. -/
theorem post (h : st.Inv) {sid : Fin 64} {sem : Semaphore ι} (hsem : st.table sid = some sem) :
    (st.post sid sem).Inv := by
  have hqueue (i : ι) : st.place i = .asleep sid ↔ i ∈ sem.queue := by
    rw [h.asleep i sid, hsem]
    simp
  have hnodup := h.nodup sid sem hsem
  obtain ⟨value, queue⟩ := sem
  cases queue with
  | nil =>
      exact h.replace hqueue List.nodup_nil (fun _ _ _ => Iff.rfl) (fun _ _ _ hi => hi) h.present
  | cons first rest =>
      obtain ⟨hfirst, hrest⟩ := List.nodup_cons.mp hnodup
      refine h.move (.inr (.inl ((hqueue first).mpr List.mem_cons_self))) (.inr (.inr rfl))
        (iff_of_false (by simp) hfirst) (fun i hi => ?_) hrest
      rw [hqueue, List.mem_cons, or_iff_right hi]
      rfl

omit [DecidableEq ι] in
/-- A semaphore is deleted that no thread is inside of. -/
theorem delete (h : st.Inv) {sid : Fin 64}
    (hsafe : ∀ i, st.place i ≠ .asleep sid ∧ st.place i ≠ .woken sid) :
    (⟨Function.update st.table sid none, fun i => (st.place i).afterDelete sid⟩ :
      SemaphoreRun ι).Inv := by
  have hplace (i : ι) : (st.place i).afterDelete sid = st.place i := by
    obtain ⟨hasleep, hwoken⟩ := hsafe i
    cases hi : st.place i with
    | asleep s => exact if_neg fun hs => hasleep (by rw [hi, hs])
    | woken s => exact if_neg fun hs => hwoken (by rw [hi, hs])
    | away | lost | dangling => rfl
  simp only [hplace]
  refine ⟨fun i s => ?_, fun s sem hsem => ?_, fun i s hi => ?_, h.present⟩
  · by_cases hs : s = sid
    · subst hs
      simp only [Function.update_self, reduceCtorEq, false_and, exists_false, iff_false]
      exact (hsafe i).1
    · simp only [Function.update_of_ne hs]
      exact h.asleep i s
  · by_cases hs : s = sid
    · subst hs
      simp only [Function.update_self, reduceCtorEq] at hsem
    · simp only [Function.update_of_ne hs] at hsem
      exact h.nodup s sem hsem
  · have hs : s ≠ sid := fun hs => (hsafe i).2 (hs ▸ hi)
    simp only [Function.update_of_ne hs]
    exact h.woken i s hi

/-- **Every safe call and every pass keeps the invariant.** -/
theorem step (h : st.Inv) {st' : SemaphoreRun ι} {call : SemaphoreCall ι}
    (hsafe : st.DeleteSafe call) (hstep : st.Step call st') : st'.Inv := by
  obtain rfl | ⟨c, val, rfl, rfl⟩ | ⟨c, sid, sem, hc, hsem, rfl⟩ | ⟨sid, sem, hsem, rfl⟩ |
    ⟨c, sid, rfl, rfl⟩ := exec_cases hstep
  · exact h
  · exact h.create val
  · exact h.pass hc hsem
  · exact h.post hsem
  · exact h.delete hsafe

end Inv

/-- **No thread is lost as long as semaphores in use are not deleted.** In every run in which a
semaphore is deleted only while no thread is inside its `P`, every thread blocked in `SemWait`
is on the queue of a semaphore of the table and no thread goes on with a freed one; and a
semaphore is created only under an id that no other has. -/
theorem none_lost {steps : List (Base.Step (SemaphoreRun ι) (SemaphoreCall ι))}
    {st : SemaphoreRun ι} (hrun : Trace Step start steps st)
    (hsafe : ∀ x ∈ steps, x.before.DeleteSafe x.label) :
    st.NoneLost ∧ ∀ val, (st.table.create val).1 = -1 ∧ (st.table.create val).2 = st.table ∨
      ∃ sid : Fin 64, (st.table.create val).1 = sid ∧ st.table sid = none ∧
        (st.table.create val).2 = Function.update st.table sid (some (Semaphore.new val)) := by
  have hinv : st.Inv := (hrun.invariant
    (fun _ hbefore hstep hcall => hbefore.step hcall hstep) Inv.start hsafe).1
  refine ⟨hinv.noneLost, fun val => ?_⟩
  obtain ⟨-, hequal⟩ | ⟨sid, hfree, hequal⟩ := SemaphoreTable.create_cases st.table val
  · exact .inl ⟨by rw [hequal], by rw [hequal]⟩
  · exact .inr ⟨sid, by rw [hequal], hfree, by rw [hequal]⟩

instance [Fintype ι] (st : SemaphoreRun ι) :
    (call : SemaphoreCall ι) → Decidable (st.DeleteSafe call)
  | .semDelete _ sid => inferInstanceAs
      (Decidable (∀ i, st.place i ≠ .asleep sid ∧ st.place i ≠ .woken sid))
  | .semCreate _ _ | .semWait _ _ | .semPost _ _ | .resume _ => inferInstanceAs (Decidable True)

/-- A thread waits, is woken and goes on, and then the semaphore is deleted. -/
theorem none_lost_deleted_after : ∃ steps, ∃ st : SemaphoreRun (Fin 2),
    Trace Step start steps st ∧
      steps.map (fun x => x.label) =
        [.semCreate 0 0, .semWait 1 0, .semPost 0 0, .resume 1, .semDelete 0 0] ∧
      (∀ x ∈ steps, x.before.DeleteSafe x.label) ∧ st.NoneLost := by
  set calls : List (SemaphoreCall (Fin 2)) :=
    [.semCreate 0 0, .semWait 1 0, .semPost 0 0, .resume 1, .semDelete 0 0] with hcalls
  have hsome : (execAll exec start calls).isSome := by decide
  obtain ⟨st, hst⟩ := Option.isSome_iff_exists.mp hsome
  have hrun := trace_of_execAll hst
  have hsafe : ∀ x ∈ stepsOf exec start calls, x.before.DeleteSafe x.label := by decide
  exact ⟨_, st, hrun, by decide, hsafe, (none_lost hrun hsafe).1⟩

/-- The semaphore is deleted while a thread waits for it. -/
theorem not_noneLost_after_delete : ¬ ∀ steps, ∀ st : SemaphoreRun (Fin 2),
    Trace Step start steps st → ∀ i, (st.place i).blocked →
      ∃ sid sem, st.table sid = some sem ∧ i ∈ sem.queue := by
  intro hclaim
  set calls : List (SemaphoreCall (Fin 2)) := [.semCreate 0 0, .semWait 1 0, .semDelete 0 0]
    with hcalls
  have hsome : (execAll exec start calls).isSome := by decide
  obtain ⟨st, hst⟩ := Option.isSome_iff_exists.mp hsome
  have hlost : (execAll exec start calls).map
      (fun st => ((st.place 1).blocked, decide (∀ sid, (st.table sid).isNone))) =
        some (true, true) := by decide
  rw [hst] at hlost
  simp only [Option.map_some, Option.some.injEq, Prod.mk.injEq, decide_eq_true_eq] at hlost
  obtain ⟨sid, sem, hsem, -⟩ := hclaim _ st (trace_of_execAll hst) 1 hlost.1
  have hnone := hlost.2 sid
  rw [hsem] at hnone
  cases hnone

end SemaphoreRun

end Nachos
