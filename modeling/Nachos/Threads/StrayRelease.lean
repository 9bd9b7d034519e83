/-
# A `Release` by a thread that does not hold the lock

`Release` compares the owner field with the id of the calling thread. The ids are given in
several places: `1` to the initial thread, to the main thread of every process and to the
postal worker, and the next number of its address space to a user thread. They tell the
threads of one address space apart and nothing more, so the test lets a thread release the
lock of any other thread that was given the same id.
-/

import Nachos.Threads.Lock
import Nachos.Userprog.AddrSpace

namespace Nachos.Synch

open Base

/-- The threads that the kernel creates. -/
inductive KernelThread
  /-- `Initialize`. -/
  | main
  /-- `do_UserProcessCreate`, with the process. -/
  | process (pid : ℕ)
  /-- `do_UserThreadCreate`, the `number`-th call in that process. -/
  | user (pid : ℕ) (number : ℕ)
  /-- `PostOffice::PostOffice`. -/
  | postalWorker
  deriving DecidableEq, Repr

namespace KernelThread

/-- The id that the `number`-th call of `GetNextThreadID` gives. -/
def nextThreadID (space : AddrSpace) : ℕ → ℕ
  | 0 => space.maxTIDGiven
  | number + 1 => nextThreadID space.getNextThreadID.2 number

/-- The id a thread is created with. An address space starts with id `1`, whatever its
pages are. -/
def tid : KernelThread → ℤ
  | main | process _ | postalWorker => 1
  | user _ number => wrap32 (nextThreadID (AddrSpace.init 0 (Nat.zero_le _) [] 0) number)

end KernelThread

/-- `Lock::Release` by a thread with id `tid`, when no other thread runs meanwhile; none when
it has to wait for `innerLock`. -/
def Lock.Release (tid : ℤ) (l : Lock) : Option Lock := do
  let units ← Units.P l.innerLock
  let l := { l with innerLock := units }
  let l := if l.ownerID = tid then { l with ownerID := -1, lock := Units.V l.lock } else l
  return { l with innerLock := Units.V l.innerLock }

/-- The call leaves the owner field and the semaphore as they are exactly when the test
fails. -/
theorem Lock.release_keeps_iff {tid : ℤ} {l l' : Lock} (h : l.Release tid = some l') :
    (l'.ownerID = l.ownerID ∧ l'.lock = l.lock) ↔ l.ownerID ≠ tid := by
  obtain ⟨units, -, heq⟩ := Option.bind_eq_some_iff.mp h
  by_cases htid : l.ownerID = tid
  · simp only [htid, if_true] at heq
    cases heq
    simp [Units.V, htid]
  · simp only [htid, if_false] at heq
    cases heq
    simp [htid]

namespace LockRun

variable {ι : Type} [DecidableEq ι] {origin : ι → KernelThread}

/-- The ids of a set of threads. -/
def tidOf (origin : ι → KernelThread) (i : ι) : ℤ := (origin i).tid

/-- The runs of any programs: every thread may call `Release`. -/
def AnyRun (origin : ι → KernelThread) (st : LockRun ι)
    (steps : List (Step (LockRun ι) (ι × LockAct))) (st' : LockRun ι) : Prop :=
  Trace (fun s call t => s.move (tidOf origin) call.1 call.2 = some t) st steps st'

/-- The thread is in a `Release` of a lock that it does not hold. -/
def Stray (st : LockRun ι) (c : ι) : Prop :=
  (st.threads c).holds = false ∧
    ((st.threads c).pc = .release ∨ (st.threads c).pc = .testRelease ∨
      (st.threads c).pc = .free ∨ (st.threads c).pc = .leaveRelease)

/-- A stray `Release` that comes to the test has another id than the owner of the lock, and
than `-1` when there is none. -/
def OtherId (origin : ι → KernelThread) (st : LockRun ι) : ι × LockAct → Prop
  | (c, .step) => (st.threads c).pc = .testRelease → (st.threads c).holds = false →
      (∀ h, (st.threads h).isOwner = true → (origin h).tid ≠ (origin c).tid) ∧
        ((∀ h, (st.threads h).isOwner = false) → (origin c).tid ≠ -1)
  | _ => True

instance [Fintype ι] (origin : ι → KernelThread) (st : LockRun ι) :
    (call : ι × LockAct) → Decidable (st.OtherId origin call)
  | (c, .step) => inferInstanceAs (Decidable ((st.threads c).pc = .testRelease →
      (st.threads c).holds = false →
      (∀ h, (st.threads h).isOwner = true → (origin h).tid ≠ (origin c).tid) ∧
        ((∀ h, (st.threads h).isOwner = false) → (origin c).tid ≠ -1)))
  | (_, .acquire) | (_, .release) => inferInstanceAs (Decidable True)

omit [DecidableEq ι] in
/-- `OtherId` says that the test fails. -/
theorem Inv.ownerID_ne_iff {st : LockRun ι} (h : st.Inv (tidOf origin)) (c : ι) :
    st.lock.ownerID ≠ tidOf origin c ↔
      (∀ h, (st.threads h).isOwner = true → (origin h).tid ≠ (origin c).tid) ∧
        ((∀ h, (st.threads h).isOwner = false) → (origin c).tid ≠ -1) := by
  constructor
  · intro hne
    refine ⟨fun k hk heq => hne ?_, fun hnone heq => hne ?_⟩
    · rw [h.owner k hk, tidOf, heq, tidOf]
    · rw [h.noOwner hnone, tidOf, heq]
  · rintro ⟨howner, hnone⟩ heq
    by_cases hex : ∃ k, (st.threads k).isOwner = true
    · obtain ⟨k, hk⟩ := hex
      exact howner k hk ((h.owner k hk).symm.trans heq)
    · have hall : ∀ k, (st.threads k).isOwner = false := by simpa using hex
      exact hnone hall (heq.symm.trans (h.noOwner hall))

/-- Any step of any program keeps the invariant, if a stray `Release` has another id. -/
theorem Inv.move {st st' : LockRun ι} (h : st.Inv (tidOf origin)) {call : ι × LockAct}
    (hmove : st.move (tidOf origin) call.1 call.2 = some st') (hother : st.OtherId origin call) :
    st'.Inv (tidOf origin) := by
  obtain ⟨c, act⟩ := call
  by_cases hstep : act = .step
  · subst hstep
    exact h.step hmove fun hpc hholds => (h.ownerID_ne_iff c).mpr (hother hpc hholds)
  · exact h.call hstep hmove

/-- `Lock.Release` is what the steps of the thread do when no other thread runs meanwhile. -/
theorem execAll_release {tid : ι → ℤ} {st : LockRun ι} {c : ι} {l : Lock}
    (hpc : (st.threads c).pc = .away) (hrelease : st.lock.Release (tid c) = some l) :
    ∃ labels st', (∀ x ∈ labels, x = (c, LockAct.release) ∨ x = (c, .step)) ∧
      execAll (fun s call => s.move tid call.1 call.2) st labels = some st' ∧ st'.lock = l ∧
      (st'.threads c).pc = .away := by
  obtain ⟨units, hunits, heq⟩ := Option.bind_eq_some_iff.mp hrelease
  rcases hthread : st.threads c with ⟨pc, holds⟩
  rw [hthread] at hpc
  cases hpc
  by_cases htid : st.lock.ownerID = tid c
  · refine ⟨[(c, .release), (c, .step), (c, .step), (c, .step), (c, .step)], ?_⟩
    simp [execAll, move, LockThread.exec, hthread, hunits, htid] at heq ⊢
    exact heq
  · refine ⟨[(c, .release), (c, .step), (c, .step), (c, .step)], ?_⟩
    simp [execAll, move, LockThread.exec, hthread, hunits, htid] at heq ⊢
    exact heq

/-- A step in a stray `Release` that has another id than the owner. -/
theorem Inv.stray_step {st st' : LockRun ι} (h : st.Inv (tidOf origin)) {c : ι}
    (hstray : st.Stray c) (hother : st.OtherId origin (c, .step))
    (hmove : st.move (tidOf origin) c .step = some st') :
    st'.lock.ownerID = st.lock.ownerID ∧ st'.lock.lock = st.lock.lock := by
  obtain ⟨⟨l, t⟩, hexec, rfl⟩ := Option.map_eq_some_iff.mp hmove
  obtain ⟨hholds, hpc⟩ := hstray
  have hwell := h.wellFormed c
  have hne := fun hpc => (h.ownerID_ne_iff c).mpr (hother hpc hholds)
  rcases hthread : st.threads c with ⟨pc, holds⟩
  rw [hthread] at hexec hwell hne hholds hpc
  obtain rfl | rfl | rfl | rfl := hpc
  · obtain ⟨units, -, heq⟩ := Option.map_eq_some_iff.mp hexec
    cases heq
    exact ⟨rfl, rfl⟩
  · rw [LockThread.exec, if_neg (hne rfl)] at hexec
    cases hexec
    exact ⟨rfl, rfl⟩
  · -- only a thread that holds the lock is there
    obtain rfl : holds = false := hholds
    cases hwell
  · cases hexec
    exact ⟨rfl, rfl⟩

/-- **Stray releases.** Let the threads of any programs call `Release` as they like, and let
every stray `Release` so far have had another id than the owner of the lock. Then at most one
thread holds the lock, the steps of such a `Release` change neither the owner field nor the
semaphore, and the next stray `Release` changes them exactly when the owner was given the id
of the caller, or there is no owner and the caller was given `-1`. -/
theorem stray_release_iff {steps : List (Step (LockRun ι) (ι × LockAct))} {st : LockRun ι}
    (hrun : AnyRun origin start steps st) (hother : ∀ x ∈ steps, x.before.OtherId origin x.label) :
    (∀ i j, (st.threads i).holds = true → (st.threads j).holds = true → i = j) ∧
      (∀ c st', st.Stray c → st.OtherId origin (c, .step) →
        st.move (tidOf origin) c .step = some st' →
        st'.lock.ownerID = st.lock.ownerID ∧ st'.lock.lock = st.lock.lock) ∧
      (∀ c l, (st.threads c).holds = false → st.lock.Release (origin c).tid = some l →
        ((l.ownerID = st.lock.ownerID ∧ l.lock = st.lock.lock) ↔
          (∀ h, (st.threads h).isOwner = true → (origin h).tid ≠ (origin c).tid) ∧
            ((∀ h, (st.threads h).isOwner = false) → (origin c).tid ≠ -1))) := by
  have hinv := (Trace.invariant (I := Inv (tidOf origin))
    (C := fun x => x.before.OtherId origin x.label)
    (fun x hbefore hrel hC => hbefore.move hrel hC) hrun Inv.start hother).1
  refine ⟨fun i j hi hj => ?_, fun c st' hstray hc hmove => hinv.stray_step hstray hc hmove,
    fun c l _ hrelease => ?_⟩
  · apply hinv.unit.unique
    · rw [LockThread.hasUnit, hi, Bool.true_or]
    · rw [LockThread.hasUnit, hj, Bool.true_or]
  · rw [Lock.release_keeps_iff hrelease]
    exact hinv.ownerID_ne_iff c

/-- A thread takes the lock. -/
def takenBy {ι : Type} (i : ι) : List (ι × LockAct) :=
  [(i, .acquire), (i, .step), (i, .step), (i, .step), (i, .step)]

/-- The initial thread takes the lock, and a user thread makes a stray `Release`. -/
theorem stray_release_iff_user : ∃ (origin : Fin 2 → KernelThread)
    (steps : List (Step (LockRun (Fin 2)) (Fin 2 × LockAct))) (st : LockRun (Fin 2)),
    AnyRun origin start steps st ∧ (∀ x ∈ steps, x.before.OtherId origin x.label) ∧
      (st.threads 1).pc = .leaveRelease ∧
      (∀ i j, (st.threads i).holds = true → (st.threads j).holds = true → i = j) ∧
      (∀ c st', st.Stray c → st.OtherId origin (c, .step) →
        st.move (tidOf origin) c .step = some st' →
        st'.lock.ownerID = st.lock.ownerID ∧ st'.lock.lock = st.lock.lock) ∧
      (∀ c l, (st.threads c).holds = false → st.lock.Release (origin c).tid = some l →
        ((l.ownerID = st.lock.ownerID ∧ l.lock = st.lock.lock) ↔
          (∀ h, (st.threads h).isOwner = true → (origin h).tid ≠ (origin c).tid) ∧
            ((∀ h, (st.threads h).isOwner = false) → (origin c).tid ≠ -1))) := by
  let origin : Fin 2 → KernelThread := fun i => if i = 0 then .main else .user 1 1
  let exec := fun (s : LockRun (Fin 2)) (call : Fin 2 × LockAct) =>
    s.move (tidOf origin) call.1 call.2
  let labels := takenBy (0 : Fin 2) ++ [(1, .release), (1, .step), (1, .step)]
  have hend : (execAll exec start labels).map (fun st => (st.threads 1).pc) =
      some .leaveRelease := by decide +kernel
  have hother : ∀ x ∈ stepsOf exec start labels, x.before.OtherId origin x.label := by
    decide +kernel
  obtain ⟨st, hst, hpc⟩ := Option.map_eq_some_iff.mp hend
  have hrun := trace_of_execAll hst
  exact ⟨origin, _, st, hrun, hother, hpc, stray_release_iff hrun hother⟩

/-- The initial thread holds a lock, and the main thread of a process calls `Release`: both
have id `1`, the lock loses its owner, and its semaphore gets a unit. -/
theorem not_release_keeps_of_process :
    ¬ ∀ (origin : Fin 2 → KernelThread) (steps : List (Step (LockRun (Fin 2)) (Fin 2 × LockAct)))
      (st : LockRun (Fin 2)), Run (tidOf origin) start steps st →
      ∀ c l, (st.threads c).holds = false → (st.threads c).pc = .away →
        st.lock.Release (origin c).tid = some l →
        l.ownerID = st.lock.ownerID ∧ l.lock = st.lock.lock := by
  intro hclaim
  let origin : Fin 2 → KernelThread := fun i => if i = 0 then .main else .process 1
  have hend : (execAll (exec (tidOf origin)) start (takenBy (0 : Fin 2))).map (fun st =>
      (st.lock, st.threads 1)) = some (⟨1, 1, 0⟩, LockThread.new) := by decide +kernel
  obtain ⟨st, hst, heq⟩ := Option.map_eq_some_iff.mp hend
  obtain ⟨hlock, hthread⟩ := Prod.mk.inj heq
  have hrelease : st.lock.Release (origin 1).tid = some ⟨-1, 1, 1⟩ := by
    rw [hlock]
    decide
  obtain ⟨howner, -⟩ := hclaim origin _ st (trace_of_execAll hst) 1 ⟨-1, 1, 1⟩
    (by rw [hthread]; rfl) (by rw [hthread]; rfl) hrelease
  rw [hlock] at howner
  exact absurd howner (by decide)

end LockRun

end Nachos.Synch
