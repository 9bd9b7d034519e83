/-
# Locks

A `Lock` is made of two semaphores with one unit each and a field for the owner. `lock` is
what a thread waits for, and `innerLock` protects the owner field, which `Acquire` and
`Release` test and set in steps of their own. A thread can be stopped between any two of
these steps, so mutual exclusion rests on the unit of `lock` being with exactly one thread
from `lock->P()` in its `Acquire` to `lock->V()` in its `Release`.
-/

import Nachos.Base.Exclusive
import Nachos.Threads.Semaphore

namespace Nachos.Synch

open Base

/-- `class Lock`. -/
structure Lock where
  ownerID : ℤ
  innerLock : ℕ
  lock : ℕ
  deriving DecidableEq, Repr

/-- `Lock::Lock`. -/
def Lock.new : Lock := ⟨-1, 1, 1⟩

/-- Where a thread is in the functions of a lock. -/
inductive LockPc
  | away
  /-- `Acquire`, at `lock->P()`. -/
  | acquire
  /-- `Acquire`, at `innerLock->P()`. -/
  | enterAcquire
  /-- `Acquire`, at the test of the owner. -/
  | testAcquire
  /-- `Acquire`, at `lock->V()` in the else-branch. -/
  | giveBack
  /-- `Acquire`, at `innerLock->V()`. -/
  | leaveAcquire
  /-- `Release`, at `innerLock->P()`. -/
  | release
  /-- `Release`, at the test of the owner. -/
  | testRelease
  /-- `Release`, at `lock->V()`. -/
  | free
  /-- `Release`, at `innerLock->V()`. -/
  | leaveRelease
  deriving DecidableEq, Repr

/-- In `Acquire`. -/
def LockPc.inAcquire : LockPc → Bool
  | .acquire | .enterAcquire | .testAcquire | .giveBack | .leaveAcquire => true
  | _ => false

/-- In `Release`. -/
def LockPc.inRelease : LockPc → Bool
  | .release | .testRelease | .free | .leaveRelease => true
  | _ => false

/-- A thread as a user of one lock. It holds the lock from the return of its `Acquire` to
`lock->V()` in its `Release`. -/
structure LockThread where
  pc : LockPc
  holds : Bool
  deriving DecidableEq, Repr

/-- What a thread does next: call one of the two functions, or go on in the one it is in. -/
inductive LockAct
  | acquire
  | release
  | step
  deriving DecidableEq, Repr

namespace LockThread

/-- A thread that has not used the lock. -/
def new : LockThread := ⟨.away, false⟩

/-- The next step of a thread with id `tid`; none while it waits for a unit. -/
def exec (tid : ℤ) (l : Lock) (t : LockThread) : LockAct → Option (Lock × LockThread)
  | .acquire => if t.pc = .away then some (l, { t with pc := .acquire }) else none
  | .release => if t.pc = .away then some (l, { t with pc := .release }) else none
  | .step =>
      match t.pc with
      | .away => none
      | .acquire =>
          (Units.P l.lock).map fun units =>
            ({ l with lock := units }, { t with pc := .enterAcquire })
      | .enterAcquire =>
          (Units.P l.innerLock).map fun units =>
            ({ l with innerLock := units }, { t with pc := .testAcquire })
      | .testAcquire =>
          if l.ownerID = -1 then some ({ l with ownerID := tid }, { t with pc := .leaveAcquire })
          else some (l, { t with pc := .giveBack })
      | .giveBack => some ({ l with lock := Units.V l.lock }, { t with pc := .leaveAcquire })
      | .leaveAcquire => some ({ l with innerLock := Units.V l.innerLock }, ⟨.away, true⟩)
      | .release =>
          (Units.P l.innerLock).map fun units =>
            ({ l with innerLock := units }, { t with pc := .testRelease })
      | .testRelease =>
          if l.ownerID = tid then some ({ l with ownerID := -1 }, { t with pc := .free })
          else some (l, { t with pc := .leaveRelease })
      | .free => some ({ l with lock := Units.V l.lock }, ⟨.leaveRelease, false⟩)
      | .leaveRelease => some ({ l with innerLock := Units.V l.innerLock }, { t with pc := .away })

/-- The thread has the unit of `lock`. -/
def hasUnit (t : LockThread) : Bool :=
  t.holds || match t.pc with
    | .enterAcquire | .testAcquire | .giveBack | .leaveAcquire => true
    | _ => false

/-- The thread is between `innerLock->P()` and `innerLock->V()`. -/
def inside (t : LockThread) : Bool :=
  match t.pc with
  | .testAcquire | .giveBack | .leaveAcquire | .testRelease | .free | .leaveRelease => true
  | _ => false

/-- The owner field has the id of the thread. -/
def isOwner (t : LockThread) : Bool :=
  match t.pc with
  | .leaveAcquire => true
  | .free => false
  | _ => t.holds

/-- The states a thread can be in. -/
def wellFormed (t : LockThread) : Bool :=
  match t.pc with
  | .away | .acquire | .release | .testRelease => true
  | .enterAcquire | .testAcquire | .leaveAcquire | .leaveRelease => !t.holds
  | .free => t.holds
  | .giveBack => false

/-- The thread is not in a `Release` of a lock that it does not hold. -/
def disciplined (t : LockThread) : Bool :=
  match t.pc with
  | .release | .testRelease => t.holds
  | _ => true

/-- The owner has the unit. -/
theorem hasUnit_of_isOwner {t : LockThread} (h : t.isOwner = true) : t.hasUnit = true := by
  obtain ⟨pc, holds⟩ := t
  cases pc <;> cases holds <;> first | rfl | cases h

/-- A thread in `Acquire` stays there until it returns with the lock. -/
theorem acquiring_of_exec {tid : ℤ} {l l' : Lock} {t t' : LockThread}
    (hpc : t.pc.inAcquire = true) (hexec : t.exec tid l .step = some (l', t')) :
    t'.pc.inAcquire = true ∨ t' = ⟨.away, true⟩ := by
  obtain ⟨pc, holds⟩ := t
  cases pc with
  | acquire | enterAcquire =>
      obtain ⟨units, -, heq⟩ := Option.map_eq_some_iff.mp hexec
      cases heq
      exact .inl rfl
  | testAcquire =>
      simp only [exec] at hexec
      split at hexec <;> cases hexec <;> exact .inl rfl
  | giveBack =>
      cases hexec
      exact .inl rfl
  | leaveAcquire =>
      cases hexec
      exact .inr rfl
  | _ => cases hpc

/-- A thread in `Release` stays there until it returns without the lock. -/
theorem releasing_of_exec {tid : ℤ} {l l' : Lock} {t t' : LockThread}
    (hpc : t.pc.inRelease = true) (hwell : t.wellFormed = true)
    (hexec : t.exec tid l .step = some (l', t')) :
    t'.pc.inRelease = true ∨ t' = ⟨.away, false⟩ := by
  obtain ⟨pc, holds⟩ := t
  cases pc with
  | release =>
      obtain ⟨units, -, heq⟩ := Option.map_eq_some_iff.mp hexec
      cases heq
      exact .inl rfl
  | testRelease =>
      simp only [exec] at hexec
      split at hexec <;> cases hexec <;> exact .inl rfl
  | free =>
      cases hexec
      exact .inl rfl
  | leaveRelease =>
      cases hexec
      cases holds with
      | true => cases hwell
      | false => exact .inr rfl
  | _ => cases hpc

/-- A thread that calls `Release` while it holds the lock holds it up to the test. -/
theorem disciplined_of_exec {tid : ℤ} {l l' : Lock} {t t' : LockThread} {act : LockAct}
    (h : t.disciplined = true) (hheld : act = .release → t.holds = true)
    (hexec : t.exec tid l act = some (l', t')) : t'.disciplined = true := by
  obtain ⟨pc, holds⟩ := t
  cases act <;> cases pc <;> simp_all [exec, disciplined, Units.P] <;> grind

end LockThread

/-- A lock with the threads that use it. -/
structure LockRun (ι : Type) where
  lock : Lock
  threads : ι → LockThread

namespace LockRun

variable {ι : Type} [DecidableEq ι]

/-- A new lock. -/
def start : LockRun ι := ⟨Lock.new, fun _ => LockThread.new⟩

/-- The lock and one thread are replaced. -/
def set (st : LockRun ι) (i : ι) (l : Lock) (t : LockThread) : LockRun ι :=
  ⟨l, Function.update st.threads i t⟩

@[simp] theorem set_lock (st : LockRun ι) (i : ι) (l : Lock) (t : LockThread) :
    (st.set i l t).lock = l := rfl

@[simp] theorem set_threads_self (st : LockRun ι) (i : ι) (l : Lock) (t : LockThread) :
    (st.set i l t).threads i = t := Function.update_self ..

theorem set_threads_of_ne (st : LockRun ι) {i j : ι} (hj : j ≠ i) (l : Lock) (t : LockThread) :
    (st.set i l t).threads j = st.threads j := Function.update_of_ne hj ..

/-- Thread `i` makes its next step, whatever it is. -/
def move (tid : ι → ℤ) (st : LockRun ι) (i : ι) (act : LockAct) : Option (LockRun ι) :=
  ((st.threads i).exec (tid i) st.lock act).map fun (l, t) => st.set i l t

/-- One step of a program that keeps to the convention: only a thread that holds the lock
calls `Release`. -/
def exec (tid : ι → ℤ) (st : LockRun ι) : ι × LockAct → Option (LockRun ι)
  | (i, act) => if act = .release ∧ (st.threads i).holds = false then none else st.move tid i act

/-- The runs of the programs that keep to the convention. -/
def Run (tid : ι → ℤ) (st : LockRun ι) (steps : List (Step (LockRun ι) (ι × LockAct)))
    (st' : LockRun ι) : Prop :=
  Trace (fun s call t => exec tid s call = some t) st steps st'

/-- What a lock keeps. Its two units are each with one thread or there, and the owner field
is that of the thread that owns the lock. -/
structure Inv (tid : ι → ℤ) (st : LockRun ι) : Prop where
  wellFormed : ∀ i, (st.threads i).wellFormed = true
  unit : HeldOnce LockThread.hasUnit st.threads st.lock.lock
  inner : HeldOnce LockThread.inside st.threads st.lock.innerLock
  owner : ∀ i, (st.threads i).isOwner = true → st.lock.ownerID = tid i
  noOwner : (∀ i, (st.threads i).isOwner = false) → st.lock.ownerID = -1

namespace Inv

variable {tid : ι → ℤ} {st st' : LockRun ι} {i : ι}

omit [DecidableEq ι] in
theorem start : (start : LockRun ι).Inv tid where
  wellFormed _ := rfl
  unit := Or.inl ⟨rfl, fun _ => rfl⟩
  inner := Or.inl ⟨rfl, fun _ => rfl⟩
  owner _ howner := by cases howner
  noOwner _ := rfl

/-- A thread moves, and the owner field with it: it stays as it was, or the thread that has
the unit enters its id, or erases the owner. -/
theorem update (h : st.Inv tid) {l : Lock} {t : LockThread} (hwell : t.wellFormed = true)
    (hunit : HeldOnce LockThread.hasUnit (Function.update st.threads i t) l.lock)
    (hinner : HeldOnce LockThread.inside (Function.update st.threads i t) l.innerLock)
    (howner : (l.ownerID = st.lock.ownerID ∧ t.isOwner = (st.threads i).isOwner) ∨
      (st.threads i).hasUnit = true ∧
        (l.ownerID = tid i ∧ t.isOwner = true ∨ l.ownerID = -1 ∧ t.isOwner = false)) :
    (st.set i l t).Inv tid := by
  -- another owner would have the unit too
  have hothers (hhas : (st.threads i).hasUnit = true) (j : ι) (hj : j ≠ i) :
      (st.threads j).isOwner = false := by
    rw [Bool.eq_false_iff]
    exact fun htrue => hj (h.unit.unique (LockThread.hasUnit_of_isOwner htrue) hhas)
  refine ⟨fun j => ?_, hunit, hinner, fun j hj => ?_, fun hnone => ?_⟩
  · by_cases hj : j = i
    · rw [hj, set_threads_self, hwell]
    · rw [set_threads_of_ne st hj, h.wellFormed j]
  · by_cases hji : j = i
    · subst hji
      rw [set_threads_self] at hj
      obtain ⟨hsame, hold⟩ | ⟨-, ⟨hid, -⟩ | ⟨-, hno⟩⟩ := howner
      · rw [set_lock, hsame, h.owner j (hold ▸ hj)]
      · exact hid
      · rw [hno] at hj
        cases hj
    · rw [set_threads_of_ne st hji] at hj
      obtain ⟨hsame, -⟩ | ⟨hhas, -⟩ := howner
      · rw [set_lock, hsame, h.owner j hj]
      · rw [hothers hhas j hji] at hj
        cases hj
  · have hi := hnone i
    rw [set_threads_self] at hi
    obtain ⟨hsame, hold⟩ | ⟨-, ⟨-, hyes⟩ | ⟨hfree, -⟩⟩ := howner
    · rw [set_lock, hsame]
      refine h.noOwner fun j => ?_
      by_cases hji : j = i
      · rw [hji, ← hold, hi]
      · rw [← hnone j, set_threads_of_ne st hji]
    · rw [hyes] at hi
      cases hi
    · exact hfree

omit [DecidableEq ι] in
/-- A thread at the test of `Acquire` finds no owner. -/
theorem ownerID_of_testAcquire (h : st.Inv tid) (hpc : (st.threads i).pc = .testAcquire) :
    st.lock.ownerID = -1 := by
  refine h.noOwner fun j => ?_
  rw [Bool.eq_false_iff]
  intro hj
  have hhas : (st.threads i).hasUnit = true := by simp [LockThread.hasUnit, hpc]
  have hwell := h.wellFormed i
  rw [← h.unit.unique hhas (LockThread.hasUnit_of_isOwner hj)] at hj
  simp_all [LockThread.isOwner, LockThread.wellFormed]

omit [DecidableEq ι] in
/-- A thread that holds the lock finds itself the owner at the test of `Release`. -/
theorem ownerID_of_testRelease (h : st.Inv tid) (hpc : (st.threads i).pc = .testRelease)
    (hholds : (st.threads i).holds = true) : st.lock.ownerID = tid i := by
  apply h.owner
  simp [LockThread.isOwner, hpc, hholds]

/-- The step of a thread inside one of the functions. When the thread is in a `Release` of a
lock that it does not hold, it must not find its own id in the owner field. -/
theorem step (h : st.Inv tid) (hmove : st.move tid i .step = some st')
    (hstray : (st.threads i).pc = .testRelease → (st.threads i).holds = false →
      st.lock.ownerID ≠ tid i) : st'.Inv tid := by
  obtain ⟨⟨l, t⟩, hexec, rfl⟩ := Option.map_eq_some_iff.mp hmove
  have hwell := h.wellFormed i
  have hunit := h.unit
  have hinner := h.inner
  have htestAcquire := h.ownerID_of_testAcquire (i := i)
  have htestRelease := h.ownerID_of_testRelease (i := i)
  rcases hthread : st.threads i with ⟨pc, holds⟩
  rw [hthread] at hexec hwell htestAcquire htestRelease hstray
  cases pc with
  | away => cases hexec
  | acquire =>
      obtain ⟨units, hunits, heq⟩ := Option.map_eq_some_iff.mp hexec
      obtain ⟨hpos, rfl⟩ := Units.P_eq_some.mp hunits
      cases heq
      have hholds := hunit.eq_false hpos i
      rw [hthread] at hholds
      cases holds with
      | true => cases hholds
      | false =>
          exact h.update rfl (hunit.take hpos rfl) (hinner.keep (by rw [hthread]; rfl))
            (.inl ⟨rfl, by rw [hthread]; rfl⟩)
  | enterAcquire =>
      obtain ⟨units, hunits, heq⟩ := Option.map_eq_some_iff.mp hexec
      obtain ⟨hpos, rfl⟩ := Units.P_eq_some.mp hunits
      cases heq
      exact h.update hwell (hunit.keep (by rw [hthread]; rfl)) (hinner.take hpos rfl)
        (.inl ⟨rfl, by rw [hthread]; rfl⟩)
  | testAcquire =>
      rw [LockThread.exec, if_pos (htestAcquire rfl)] at hexec
      cases hexec
      exact h.update hwell (hunit.keep (by rw [hthread]; rfl)) (hinner.keep (by rw [hthread]; rfl))
        (.inr ⟨by rw [hthread]; simp [LockThread.hasUnit], .inl ⟨rfl, rfl⟩⟩)
  | giveBack => cases hwell
  | leaveAcquire =>
      cases hexec
      exact h.update rfl (hunit.keep (by rw [hthread]; simp [LockThread.hasUnit]))
        (hinner.give (by rw [hthread]; rfl) rfl) (.inl ⟨rfl, by rw [hthread]; rfl⟩)
  | release =>
      obtain ⟨units, hunits, heq⟩ := Option.map_eq_some_iff.mp hexec
      obtain ⟨hpos, rfl⟩ := Units.P_eq_some.mp hunits
      cases heq
      exact h.update hwell (hunit.keep (by rw [hthread]; rfl)) (hinner.take hpos rfl)
        (.inl ⟨rfl, by rw [hthread]; rfl⟩)
  | testRelease =>
      cases holds with
      | true =>
          rw [LockThread.exec, if_pos (htestRelease rfl rfl)] at hexec
          cases hexec
          exact h.update rfl (hunit.keep (by rw [hthread]; rfl)) (hinner.keep (by rw [hthread]; rfl))
            (.inr ⟨by rw [hthread]; rfl, .inr ⟨rfl, rfl⟩⟩)
      | false =>
          rw [LockThread.exec, if_neg (hstray rfl rfl)] at hexec
          cases hexec
          exact h.update rfl (hunit.keep (by rw [hthread]; rfl)) (hinner.keep (by rw [hthread]; rfl))
            (.inl ⟨rfl, by rw [hthread]; rfl⟩)
  | free =>
      cases hexec
      have hhas : (st.threads i).hasUnit = true := by
        rw [hthread, LockThread.hasUnit, show holds = true from hwell]
        rfl
      exact h.update rfl (hunit.give hhas rfl) (hinner.keep (by rw [hthread]; rfl))
        (.inl ⟨rfl, by rw [hthread]; rfl⟩)
  | leaveRelease =>
      cases hexec
      exact h.update rfl (hunit.keep (by rw [hthread]; rfl))
        (hinner.give (by rw [hthread]; rfl) rfl) (.inl ⟨rfl, by rw [hthread]; rfl⟩)

/-- A call of one of the functions. -/
theorem call (h : st.Inv tid) {act : LockAct} (hact : act ≠ .step)
    (hmove : st.move tid i act = some st') : st'.Inv tid := by
  obtain ⟨⟨l, t⟩, hexec, rfl⟩ := Option.map_eq_some_iff.mp hmove
  rcases hthread : st.threads i with ⟨pc, holds⟩
  rw [hthread] at hexec
  cases act with
  | step => exact absurd rfl hact
  | acquire =>
      obtain ⟨hpc, heq⟩ := Option.ite_none_right_eq_some.mp hexec
      cases hpc
      cases heq
      exact h.update rfl (h.unit.keep (by rw [hthread]; rfl)) (h.inner.keep (by rw [hthread]; rfl))
        (.inl ⟨rfl, by rw [hthread]; rfl⟩)
  | release =>
      obtain ⟨hpc, heq⟩ := Option.ite_none_right_eq_some.mp hexec
      cases hpc
      cases heq
      exact h.update rfl (h.unit.keep (by rw [hthread]; rfl)) (h.inner.keep (by rw [hthread]; rfl))
        (.inl ⟨rfl, by rw [hthread]; rfl⟩)

end Inv

/-- Every thread keeps to the convention. -/
def Disciplined (st : LockRun ι) : Prop := ∀ i, (st.threads i).disciplined = true

theorem Disciplined.exec {tid : ι → ℤ} {st st' : LockRun ι} (h : st.Disciplined)
    {call : ι × LockAct} (hexec : st.exec tid call = some st') : st'.Disciplined := by
  obtain ⟨i, act⟩ := call
  obtain ⟨hlegal, hmove⟩ := Option.ite_none_left_eq_some.mp hexec
  obtain ⟨⟨l, t⟩, hthread, rfl⟩ := Option.map_eq_some_iff.mp hmove
  intro j
  by_cases hj : j = i
  · subst hj
    rw [set_threads_self]
    refine LockThread.disciplined_of_exec (h j) (fun hrelease => ?_) hthread
    simpa using fun hholds => hlegal ⟨hrelease, hholds⟩
  · rw [set_threads_of_ne st hj]
    exact h j

/-- Every step of a program that keeps to the convention keeps the invariant. -/
theorem Inv.exec {tid : ι → ℤ} {st st' : LockRun ι} (h : st.Inv tid) (hdisciplined : st.Disciplined)
    {call : ι × LockAct} (hexec : st.exec tid call = some st') : st'.Inv tid := by
  obtain ⟨i, act⟩ := call
  obtain ⟨-, hmove⟩ := Option.ite_none_left_eq_some.mp hexec
  by_cases hstep : act = .step
  · subst hstep
    refine h.step hmove fun hpc hholds => ?_
    have hi := hdisciplined i
    rw [LockThread.disciplined, hpc] at hi
    rw [hholds] at hi
    cases hi
  · exact h.call hstep hmove

/-- No thread has the unit of the lock: none is past `lock->P()` in `Acquire`, and none that
returned from `Acquire` has not yet made `lock->V()` in its `Release`. -/
def Idle (st : LockRun ι) : Prop := ∀ i, (st.threads i).hasUnit = false

/-- **Mutual exclusion.** In a program in which only a thread that holds the lock calls
`Release`, at most one thread holds it, no thread ever reaches the else-branch of `Acquire`,
and while the lock is idle its semaphore has one unit and it has no owner. -/
theorem mutual_exclusion {tid : ι → ℤ} {steps : List (Step (LockRun ι) (ι × LockAct))}
    {st : LockRun ι} (hrun : Run tid start steps st) :
    (∀ i j, (st.threads i).holds = true → (st.threads j).holds = true → i = j) ∧
      (∀ i, (st.threads i).pc ≠ .giveBack) ∧
      (st.Idle → st.lock.lock = 1 ∧ st.lock.ownerID = -1) := by
  obtain ⟨hinv, -⟩ := (Trace.invariant_of_forall (I := fun s => s.Inv tid ∧ s.Disciplined)
    (fun x hbefore hrel => ⟨hbefore.1.exec hbefore.2 hrel, hbefore.2.exec hrel⟩) hrun
    ⟨Inv.start, fun _ => rfl⟩).1
  refine ⟨fun i j hi hj => ?_, fun i hpc => ?_, fun hidle => ⟨hinv.unit.eq_one hidle, ?_⟩⟩
  · apply hinv.unit.unique
    · rw [LockThread.hasUnit, hi, Bool.true_or]
    · rw [LockThread.hasUnit, hj, Bool.true_or]
  · have hwell := hinv.wellFormed i
    rw [LockThread.wellFormed, hpc] at hwell
    cases hwell
  · refine hinv.noOwner fun i => ?_
    rw [Bool.eq_false_iff]
    intro howner
    have hhas := LockThread.hasUnit_of_isOwner howner
    rw [hidle i] at hhas
    cases hhas

/-- Two threads take the lock in turn. The second has called `Acquire` while the first held
the lock, and holds it at the end. -/
theorem mutual_exclusion_two : ∃ (steps : List (Step (LockRun (Fin 2)) (Fin 2 × LockAct)))
    (st : LockRun (Fin 2)), Run (fun _ => 1) start steps st ∧ (st.threads 1).holds = true ∧
      (∀ i j, (st.threads i).holds = true → (st.threads j).holds = true → i = j) ∧
      (∀ i, (st.threads i).pc ≠ .giveBack) ∧
      (st.Idle → st.lock.lock = 1 ∧ st.lock.ownerID = -1) := by
  let labels : List (Fin 2 × LockAct) :=
    [(0, .acquire), (0, .step), (0, .step), (0, .step), (0, .step), (1, .acquire), (0, .release),
      (0, .step), (0, .step), (0, .step), (0, .step), (1, .step), (1, .step), (1, .step),
      (1, .step)]
  have hend : (execAll (exec fun _ => 1) start labels).map (fun st => (st.threads 1).holds) =
      some true := by decide
  obtain ⟨st, hst, hholds⟩ := Option.map_eq_some_iff.mp hend
  have hrun := trace_of_execAll hst
  exact ⟨_, st, hrun, hholds, mutual_exclusion hrun⟩

end LockRun

end Nachos.Synch
