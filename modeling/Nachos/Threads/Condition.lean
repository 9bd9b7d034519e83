/-
# Condition variables

A `Condition` counts the threads that called `Wait` and gives each of them a unit of the
semaphore `sleepLock` when it is woken. A waiter enters itself in the count, releases the
lock of the caller, leaves the inner section and only then waits at `sleepLock->P()`, so
that a `Signal` or a `Broadcast` can come between any two of these steps. What has to be
right at every moment is the sum: the threads counted and not yet woken, and the units
nobody has taken, are together the threads that are on their way to `sleepLock->P()`.
-/

import Nachos.Threads.Lock

namespace Nachos.Synch

open Base

/-- `class Condition`. -/
structure Condition where
  totalSleepers : ℤ
  sleepLock : ℕ
  innerLock : ℕ
  deriving DecidableEq, Repr

/-- `Condition::Condition`. -/
def Condition.new : Condition := ⟨0, 0, 1⟩

/-- The two functions that wake threads. They differ in that one tests once and the other
in a loop. -/
inductive Waker
  | signal
  | broadcast
  deriving DecidableEq, Repr

/-- Where a thread is in the functions of a condition variable. -/
inductive CondPc
  | away
  /-- `Wait`, at `innerLock->P()`. -/
  | enterWait
  /-- `Wait`, at `totalSleepers ++`. -/
  | register
  /-- `Wait`, at the call of `conditionLock->Release()`. -/
  | release
  /-- `Wait`, in `conditionLock->Release()`. -/
  | releasing
  /-- `Wait`, at `innerLock->V()`. -/
  | leaveWait
  /-- `Wait`, at `sleepLock->P()`. -/
  | sleep
  /-- `Wait`, at the call of `conditionLock->Acquire()`. -/
  | reacquire
  /-- `Wait`, in `conditionLock->Acquire()`. -/
  | reacquiring
  /-- At `innerLock->P()`. -/
  | enter (waker : Waker)
  /-- At the test of `totalSleepers`. -/
  | test (waker : Waker)
  /-- At `sleepLock->V()`. -/
  | wake (waker : Waker)
  /-- At `totalSleepers --`. -/
  | count (waker : Waker)
  /-- At `innerLock->V()`. -/
  | leave (waker : Waker)
  deriving DecidableEq, Repr

/-- In `Wait`. -/
def CondPc.inWait : CondPc → Bool
  | .enterWait | .register | .release | .releasing | .leaveWait | .sleep | .reacquire
  | .reacquiring => true
  | _ => false

/-- In `Signal`. -/
def CondPc.inSignal : CondPc → Bool
  | .enter .signal | .test .signal | .wake .signal | .count .signal | .leave .signal => true
  | _ => false

/-- A thread as a user of one condition variable and of the lock that goes with it. -/
structure CondThread where
  lock : LockThread
  pc : CondPc
  deriving DecidableEq, Repr

/-- What a thread does next: use the lock, call one of the functions, or go on in it. -/
inductive CondAct
  | lock (act : LockAct)
  | wait
  | wake (waker : Waker)
  | step
  deriving DecidableEq, Repr

namespace CondThread

/-- A thread that has used neither. -/
def new : CondThread := ⟨LockThread.new, .away⟩

/-- A step in a function of the lock; when the function returns the thread is at `next`. -/
def lockStep (tid : ℤ) (l : Lock) (c : Condition) (t : CondThread) (next : CondPc) :
    Option (Lock × Condition × CondThread) :=
  (t.lock.exec tid l .step).map fun (l', lt) =>
    (l', c, ⟨lt, if lt.pc = .away then next else t.pc⟩)

/-- The next step of a thread with id `tid`; none while it waits for a unit. -/
def exec (tid : ℤ) (l : Lock) (c : Condition) (t : CondThread) :
    CondAct → Option (Lock × Condition × CondThread)
  | .lock act =>
      if t.pc = .away then (t.lock.exec tid l act).map fun (l', lt) => (l', c, ⟨lt, .away⟩)
      else none
  | .wait =>
      if t.pc = .away ∧ t.lock.pc = .away then some (l, c, ⟨t.lock, .enterWait⟩) else none
  | .wake waker =>
      if t.pc = .away ∧ t.lock.pc = .away then some (l, c, ⟨t.lock, .enter waker⟩) else none
  | .step =>
      match t.pc with
      | .away => none
      | .enterWait =>
          (Units.P c.innerLock).map fun units =>
            (l, { c with innerLock := units }, ⟨t.lock, .register⟩)
      | .register => some (l, { c with totalSleepers := c.totalSleepers + 1 }, ⟨t.lock, .release⟩)
      | .release => (t.lock.exec tid l .release).map fun (l', lt) => (l', c, ⟨lt, .releasing⟩)
      | .releasing => t.lockStep tid l c .leaveWait
      | .leaveWait => some (l, { c with innerLock := Units.V c.innerLock }, ⟨t.lock, .sleep⟩)
      | .sleep =>
          (Units.P c.sleepLock).map fun units =>
            (l, { c with sleepLock := units }, ⟨t.lock, .reacquire⟩)
      | .reacquire => (t.lock.exec tid l .acquire).map fun (l', lt) => (l', c, ⟨lt, .reacquiring⟩)
      | .reacquiring => t.lockStep tid l c .away
      | .enter waker =>
          (Units.P c.innerLock).map fun units =>
            (l, { c with innerLock := units }, ⟨t.lock, .test waker⟩)
      | .test waker =>
          if c.totalSleepers > 0 then some (l, c, ⟨t.lock, .wake waker⟩)
          else some (l, c, ⟨t.lock, .leave waker⟩)
      | .wake waker => some (l, { c with sleepLock := Units.V c.sleepLock }, ⟨t.lock, .count waker⟩)
      | .count waker =>
          some (l, { c with totalSleepers := c.totalSleepers - 1 },
            ⟨t.lock, match waker with | .signal => .leave .signal | .broadcast => .test .broadcast⟩)
      | .leave _ => some (l, { c with innerLock := Units.V c.innerLock }, ⟨t.lock, .away⟩)

/-- The thread is in the inner section of the condition variable. -/
def inside (t : CondThread) : Bool :=
  match t.pc with
  | .register | .release | .releasing | .leaveWait | .test _ | .wake _ | .count _ | .leave _ => true
  | _ => false

/-- The thread has entered itself in `totalSleepers` and not yet passed `sleepLock->P()`. -/
def registered (t : CondThread) : Bool :=
  match t.pc with
  | .release | .releasing | .leaveWait | .sleep => true
  | _ => false

/-- The thread has found a sleeper to wake and not yet decremented `totalSleepers`. -/
def waking (t : CondThread) : Bool :=
  match t.pc with
  | .wake _ | .count _ => true
  | _ => false

/-- The thread is in the inner section of a `Signal`. -/
def inSignal (t : CondThread) : Bool :=
  match t.pc with
  | .test .signal | .wake .signal | .count .signal | .leave .signal => true
  | _ => false

/-- The thread has added a unit for a sleeper that is still counted. -/
def counting (t : CondThread) : Bool :=
  match t.pc with
  | .count _ => true
  | _ => false

/-- What the place of a thread in the condition variable says about its place in the lock. -/
def wellFormed (t : CondThread) : Bool :=
  match t.pc with
  | .away => true
  | .releasing => t.lock.pc.inRelease
  | .leaveWait | .sleep | .reacquire => decide (t.lock = ⟨.away, false⟩)
  | .reacquiring => t.lock.pc.inAcquire
  | _ => decide (t.lock = ⟨.away, true⟩)

/-- The thread has nothing to do with the counters of the condition variable. -/
def outside (t : CondThread) : Bool :=
  match t.pc with
  | .away | .enterWait | .enter _ | .reacquire | .reacquiring => true
  | _ => false

/-- The thread is registered and still in the inner section. -/
def handing (t : CondThread) : Bool :=
  match t.pc with
  | .release | .releasing | .leaveWait => true
  | _ => false

/-- What a step does to the counters of the condition variable. -/
inductive Effect (c : Condition) (t : CondThread) : Condition → CondThread → Prop
  | outside {t' : CondThread} : t.outside = true → t'.outside = true → Effect c t c t'
  | handing {t' : CondThread} : t.handing = true → t'.handing = true → Effect c t c t'
  | enter {t' : CondThread} : 0 < c.innerLock →
      (t.pc = .enterWait ∧ t'.pc = .register ∨ ∃ waker, t.pc = .enter waker ∧ t'.pc = .test waker) →
      Effect c t { c with innerLock := c.innerLock - 1 } t'
  | register {t' : CondThread} : t.pc = .register → t'.pc = .release →
      Effect c t { c with totalSleepers := c.totalSleepers + 1 } t'
  | sleep {t' : CondThread} : 0 < c.sleepLock → t.pc = .sleep → t'.pc = .reacquire →
      Effect c t { c with sleepLock := c.sleepLock - 1 } t'
  | found {t' : CondThread} {waker : Waker} : 0 < c.totalSleepers → t.pc = .test waker →
      t'.pc = .wake waker → Effect c t c t'
  | notFound {t' : CondThread} {waker : Waker} : c.totalSleepers ≤ 0 → t.pc = .test waker →
      t'.pc = .leave waker → Effect c t c t'
  | wake {t' : CondThread} {waker : Waker} : t.pc = .wake waker → t'.pc = .count waker →
      Effect c t { c with sleepLock := c.sleepLock + 1 } t'
  | count {t' : CondThread} {waker : Waker} : t.pc = .count waker →
      (t'.pc = .leave .signal ∨ t'.pc = .test .broadcast) →
      Effect c t { c with totalSleepers := c.totalSleepers - 1 } t'
  | leave {t' : CondThread} :
      (t.pc = .leaveWait ∧ t'.pc = .sleep ∨ ∃ waker, t.pc = .leave waker ∧ t'.pc = .away) →
      Effect c t { c with innerLock := c.innerLock + 1 } t'

theorem outside_iff {t : CondThread} (h : t.outside = true) :
    t.inside = false ∧ t.registered = false ∧ t.counting = false ∧ t.waking = false ∧
      t.pc ≠ .leave .broadcast := by
  obtain ⟨lock, pc⟩ := t
  cases pc <;> first | exact ⟨rfl, rfl, rfl, rfl, nofun⟩ | cases h

theorem handing_iff {t : CondThread} (h : t.handing = true) :
    t.inside = true ∧ t.registered = true ∧ t.counting = false ∧ t.waking = false ∧
      t.pc ≠ .leave .broadcast := by
  obtain ⟨lock, pc⟩ := t
  cases pc <;> first | exact ⟨rfl, rfl, rfl, rfl, nofun⟩ | cases h

theorem inside_of_waking {t : CondThread} (h : t.waking = true) : t.inside = true := by
  obtain ⟨lock, pc⟩ := t
  cases pc <;> first | rfl | cases h

theorem inside_of_counting {t : CondThread} (h : t.counting = true) : t.inside = true := by
  obtain ⟨lock, pc⟩ := t
  cases pc <;> first | rfl | cases h

theorem inside_of_inSignal {t : CondThread} (h : t.inSignal = true) : t.inside = true := by
  obtain ⟨lock, pc⟩ := t
  cases pc <;> first | rfl | cases h

namespace Effect

variable {c c' : Condition} {t t' : CondThread}

/-- Only a thread at `sleepLock->P()` takes a unit. -/
theorem sleepLock_le (h : Effect c t c' t') (hpc : t.pc ≠ .sleep) : c.sleepLock ≤ c'.sleepLock := by
  cases h with
  | sleep _ hsleep => exact absurd hsleep hpc
  | wake => exact Nat.le_succ _
  | _ => exact le_rfl

/-- Only a thread in the inner section changes the count. -/
theorem totalSleepers_eq (h : Effect c t c' t') (hinside : t.inside = false) :
    c'.totalSleepers = c.totalSleepers := by
  cases h with
  | register hpc => rw [CondThread.inside, hpc] at hinside; cases hinside
  | count hpc => rw [CondThread.inside, hpc] at hinside; cases hinside
  | _ => rfl

/-- The steps of a `Signal` in its inner section. -/
theorem of_inSignal (h : Effect c t c' t') (hin : t.inSignal = true) (hin' : t'.inSignal = true) :
    (t.pc = .test .signal ∧ t'.pc = .wake .signal ∧ c' = c) ∨
      (t.pc = .test .signal ∧ t'.pc = .leave .signal ∧ c.totalSleepers ≤ 0 ∧ c' = c) ∨
      (t.pc = .wake .signal ∧ t'.pc = .count .signal ∧
        c' = { c with sleepLock := c.sleepLock + 1 }) ∨
      (t.pc = .count .signal ∧ t'.pc = .leave .signal ∧ c'.sleepLock = c.sleepLock) := by
  obtain ⟨lock, pc⟩ := t
  obtain ⟨lock', pc'⟩ := t'
  cases h <;> simp_all [inSignal, CondThread.outside, CondThread.handing] <;> grind

end Effect

section

variable {tid : ℤ} {l l' : Lock} {c c' : Condition} {t t' : CondThread} {act : CondAct}

/-- Every step has one of these effects. -/
theorem effect_of_exec (h : t.exec tid l c act = some (l', c', t')) : Effect c t c' t' := by
  obtain ⟨lock, pc⟩ := t
  cases act with
  | lock act =>
      obtain ⟨rfl, hmap⟩ := Option.ite_none_right_eq_some.mp h
      obtain ⟨x, -, heq⟩ := Option.map_eq_some_iff.mp hmap
      cases heq
      exact .outside rfl rfl
  | wait =>
      obtain ⟨⟨rfl, -⟩, heq⟩ := Option.ite_none_right_eq_some.mp h
      cases heq
      exact .outside rfl rfl
  | wake waker =>
      obtain ⟨⟨rfl, -⟩, heq⟩ := Option.ite_none_right_eq_some.mp h
      cases heq
      exact .outside rfl rfl
  | step =>
      cases pc with
      | away => cases h
      | enterWait =>
          obtain ⟨units, hunits, heq⟩ := Option.map_eq_some_iff.mp h
          obtain ⟨hpos, rfl⟩ := Units.P_eq_some.mp hunits
          cases heq
          exact .enter hpos (.inl ⟨rfl, rfl⟩)
      | register =>
          cases h
          exact .register rfl rfl
      | release =>
          obtain ⟨x, -, heq⟩ := Option.map_eq_some_iff.mp h
          cases heq
          exact .handing rfl rfl
      | releasing =>
          obtain ⟨⟨l', lt⟩, -, heq⟩ := Option.map_eq_some_iff.mp h
          cases heq
          refine .handing rfl ?_
          by_cases hpc : lt.pc = .away <;> simp [CondThread.handing, hpc]
      | leaveWait =>
          cases h
          exact .leave (.inl ⟨rfl, rfl⟩)
      | sleep =>
          obtain ⟨units, hunits, heq⟩ := Option.map_eq_some_iff.mp h
          obtain ⟨hpos, rfl⟩ := Units.P_eq_some.mp hunits
          cases heq
          exact .sleep hpos rfl rfl
      | reacquire =>
          obtain ⟨x, -, heq⟩ := Option.map_eq_some_iff.mp h
          cases heq
          exact .outside rfl rfl
      | reacquiring =>
          obtain ⟨⟨l', lt⟩, -, heq⟩ := Option.map_eq_some_iff.mp h
          cases heq
          refine .outside rfl ?_
          by_cases hpc : lt.pc = .away <;> simp [CondThread.outside, hpc]
      | enter waker =>
          obtain ⟨units, hunits, heq⟩ := Option.map_eq_some_iff.mp h
          obtain ⟨hpos, rfl⟩ := Units.P_eq_some.mp hunits
          cases heq
          exact .enter hpos (.inr ⟨waker, rfl, rfl⟩)
      | test waker =>
          simp only [exec] at h
          split at h
          next hpos =>
            cases h
            exact .found hpos rfl rfl
          next hpos =>
            cases h
            exact .notFound (not_lt.mp hpos) rfl rfl
      | wake waker =>
          cases h
          exact .wake rfl rfl
      | count waker =>
          cases h
          cases waker with
          | signal => exact .count rfl (.inl rfl)
          | broadcast => exact .count rfl (.inr rfl)
      | leave waker =>
          cases h
          exact .leave (.inr ⟨waker, rfl, rfl⟩)

/-- A step leaves the lock alone, or is a step of a user of the lock. -/
theorem lock_of_exec (h : t.exec tid l c act = some (l', c', t')) :
    (l' = l ∧ t'.lock = t.lock) ∨
      ∃ lockAct, t.lock.exec tid l lockAct = some (l', t'.lock) ∧
        (lockAct = .release → act = .lock .release ∨ t.pc = .release) := by
  obtain ⟨lock, pc⟩ := t
  cases act with
  | lock act =>
      obtain ⟨-, hmap⟩ := Option.ite_none_right_eq_some.mp h
      obtain ⟨x, hx, heq⟩ := Option.map_eq_some_iff.mp hmap
      cases heq
      exact .inr ⟨act, hx, fun hact => .inl (by rw [hact])⟩
  | wait =>
      obtain ⟨-, heq⟩ := Option.ite_none_right_eq_some.mp h
      cases heq
      exact .inl ⟨rfl, rfl⟩
  | wake waker =>
      obtain ⟨-, heq⟩ := Option.ite_none_right_eq_some.mp h
      cases heq
      exact .inl ⟨rfl, rfl⟩
  | step =>
      cases pc with
      | away => cases h
      | release =>
          obtain ⟨x, hx, heq⟩ := Option.map_eq_some_iff.mp h
          cases heq
          exact .inr ⟨.release, hx, fun _ => .inr rfl⟩
      | releasing | reacquiring =>
          obtain ⟨x, hx, heq⟩ := Option.map_eq_some_iff.mp h
          cases heq
          exact .inr ⟨.step, hx, fun hact => by cases hact⟩
      | reacquire =>
          obtain ⟨x, hx, heq⟩ := Option.map_eq_some_iff.mp h
          cases heq
          exact .inr ⟨.acquire, hx, fun hact => by cases hact⟩
      | enterWait | sleep | enter waker =>
          obtain ⟨units, -, heq⟩ := Option.map_eq_some_iff.mp h
          cases heq
          exact .inl ⟨rfl, rfl⟩
      | test waker =>
          refine .inl ?_
          simp only [exec] at h
          split at h <;> cases h <;> exact ⟨rfl, rfl⟩
      | register | leaveWait | wake waker | count waker | leave waker =>
          cases h
          exact .inl ⟨rfl, rfl⟩

/-- A thread in one of the functions makes the next step of it. -/
theorem act_of_exec (h : t.exec tid l c act = some (l', c', t')) (hpc : t.pc ≠ .away) :
    act = .step := by
  cases act with
  | lock act => exact absurd (Option.ite_none_right_eq_some.mp h).1 hpc
  | wait => exact absurd (Option.ite_none_right_eq_some.mp h).1.1 hpc
  | wake waker => exact absurd (Option.ite_none_right_eq_some.mp h).1.1 hpc
  | step => rfl

/-- A thread comes to the beginning of `Wait` only by calling it. -/
theorem act_of_enterWait (h : t.exec tid l c act = some (l', c', t')) (hpc : t'.pc = .enterWait) :
    act = .wait := by
  cases act with
  | wait => rfl
  | lock act =>
      obtain ⟨-, hmap⟩ := Option.ite_none_right_eq_some.mp h
      obtain ⟨x, -, heq⟩ := Option.map_eq_some_iff.mp hmap
      cases heq
      cases hpc
  | wake waker =>
      obtain ⟨-, heq⟩ := Option.ite_none_right_eq_some.mp h
      cases heq
      cases hpc
  | step =>
      obtain ⟨lock, pc⟩ := t
      cases pc with
      | away => cases h
      | enterWait | release | sleep | reacquire | enter waker =>
          obtain ⟨x, -, heq⟩ := Option.map_eq_some_iff.mp h
          cases heq
          cases hpc
      | releasing | reacquiring =>
          obtain ⟨x, -, heq⟩ := Option.map_eq_some_iff.mp h
          cases heq
          simp only at hpc
          split at hpc <;> cases hpc
      | test waker =>
          simp only [exec] at h
          split at h <;> cases h <;> cases hpc
      | count waker => cases waker <;> cases h <;> cases hpc
      | register | leaveWait | wake waker | leave waker =>
          cases h
          cases hpc

/-- A thread comes to `totalSleepers ++` only from the beginning of `Wait`. -/
theorem pc_of_register (h : t.exec tid l c act = some (l', c', t')) (hpc : t'.pc = .register) :
    t.pc = .enterWait := by
  cases effect_of_exec h with
  | outside _ hnew => rw [CondThread.outside, hpc] at hnew; cases hnew
  | handing _ hnew => rw [CondThread.handing, hpc] at hnew; cases hnew
  | enter _ hpcs =>
      obtain ⟨hold, -⟩ | ⟨waker, -, hnew⟩ := hpcs
      · exact hold
      · rw [hpc] at hnew
        cases hnew
  | count _ hnew => obtain hnew | hnew := hnew <;> rw [hpc] at hnew <;> cases hnew
  | leave hpcs =>
      obtain ⟨-, hnew⟩ | ⟨waker, -, hnew⟩ := hpcs <;> rw [hpc] at hnew <;> cases hnew
  | register _ hnew | sleep _ _ hnew | found _ _ hnew | notFound _ _ hnew | wake _ hnew =>
      rw [hpc] at hnew
      cases hnew

/-- A step leads to a place that goes with the place in the lock. -/
theorem wellFormed_of_exec (hwell : t.wellFormed = true) (hlock : t.lock.wellFormed = true)
    (hheld : act = .wait ∨ (∃ waker, act = .wake waker) → t.lock.holds = true)
    (h : t.exec tid l c act = some (l', c', t')) : t'.wellFormed = true := by
  obtain ⟨⟨lpc, holds⟩, pc⟩ := t
  cases act with
  | lock act =>
      obtain ⟨-, hmap⟩ := Option.ite_none_right_eq_some.mp h
      obtain ⟨x, -, heq⟩ := Option.map_eq_some_iff.mp hmap
      cases heq
      rfl
  | wait =>
      obtain ⟨⟨-, hpc⟩, heq⟩ := Option.ite_none_right_eq_some.mp h
      cases heq
      cases hpc
      obtain rfl : holds = true := hheld (.inl rfl)
      rfl
  | wake waker =>
      obtain ⟨⟨-, hpc⟩, heq⟩ := Option.ite_none_right_eq_some.mp h
      cases heq
      cases hpc
      obtain rfl : holds = true := hheld (.inr ⟨waker, rfl⟩)
      rfl
  | step =>
      cases pc with
      | away => cases h
      | release =>
          obtain ⟨⟨l', lt⟩, hlt, heq⟩ := Option.map_eq_some_iff.mp h
          obtain ⟨-, hcall⟩ := Option.ite_none_right_eq_some.mp hlt
          cases hcall
          cases heq
          rfl
      | reacquire =>
          obtain ⟨⟨l', lt⟩, hlt, heq⟩ := Option.map_eq_some_iff.mp h
          obtain ⟨-, hcall⟩ := Option.ite_none_right_eq_some.mp hlt
          cases hcall
          cases heq
          rfl
      | releasing =>
          obtain ⟨⟨l', lt⟩, hlt, heq⟩ := Option.map_eq_some_iff.mp h
          cases heq
          obtain hin | rfl := LockThread.releasing_of_exec hwell hlock hlt
          · have hne : lt.pc ≠ .away := fun hpc => by rw [hpc] at hin; cases hin
            simp only [hne, if_false, wellFormed]
            exact hin
          · rfl
      | reacquiring =>
          obtain ⟨⟨l', lt⟩, hlt, heq⟩ := Option.map_eq_some_iff.mp h
          cases heq
          obtain hin | rfl := LockThread.acquiring_of_exec hwell hlt
          · have hne : lt.pc ≠ .away := fun hpc => by rw [hpc] at hin; cases hin
            simp only [hne, if_false, wellFormed]
            exact hin
          · rfl
      | enterWait | sleep | enter waker =>
          obtain ⟨units, -, heq⟩ := Option.map_eq_some_iff.mp h
          cases heq
          exact hwell
      | test waker =>
          simp only [exec] at h
          split at h <;> cases h <;> exact hwell
      | count waker =>
          cases h
          cases waker <;> exact hwell
      | register | leaveWait | wake waker | leave waker =>
          cases h
          first | exact hwell | rfl

/-- A thread in `Signal` stays there until it returns. -/
theorem signalling_of_exec (hpc : t.pc.inSignal = true) (hwell : t.wellFormed = true)
    (h : t.exec tid l c .step = some (l', c', t')) :
    t'.pc.inSignal = true ∨ t' = ⟨⟨.away, true⟩, .away⟩ := by
  obtain ⟨lock, pc⟩ := t
  cases pc with
  | enter waker =>
      obtain ⟨units, -, heq⟩ := Option.map_eq_some_iff.mp h
      cases heq
      cases waker <;> first | exact .inl rfl | cases hpc
  | test waker =>
      simp only [exec] at h
      split at h <;> cases h <;> cases waker <;> first | exact .inl rfl | cases hpc
  | wake waker | count waker =>
      cases h
      cases waker <;> first | exact .inl rfl | cases hpc
  | leave waker =>
      cases h
      obtain rfl : lock = ⟨.away, true⟩ := of_decide_eq_true hwell
      exact .inr rfl
  | _ => cases hpc

/-- A thread in `Wait` stays there until it returns with the lock. -/
theorem waiting_of_exec (hpc : t.pc.inWait = true)
    (hwell : t.wellFormed = true) (h : t.exec tid l c .step = some (l', c', t')) :
    t'.pc.inWait = true ∨ t' = ⟨⟨.away, true⟩, .away⟩ := by
  obtain ⟨lock, pc⟩ := t
  cases pc with
  | enterWait | release | sleep | reacquire =>
      obtain ⟨x, -, heq⟩ := Option.map_eq_some_iff.mp h
      cases heq
      exact .inl rfl
  | register | leaveWait =>
      cases h
      exact .inl rfl
  | releasing =>
      obtain ⟨⟨l', lt⟩, -, heq⟩ := Option.map_eq_some_iff.mp h
      cases heq
      refine .inl ?_
      show (if lt.pc = .away then CondPc.leaveWait else .releasing).inWait = true
      split <;> rfl
  | reacquiring =>
      obtain ⟨⟨l', lt⟩, hlt, heq⟩ := Option.map_eq_some_iff.mp h
      cases heq
      obtain hin | rfl := LockThread.acquiring_of_exec hwell hlt
      · refine .inl ?_
        have hne : lt.pc ≠ .away := fun hpc => by rw [hpc] at hin; cases hin
        simp only [hne, if_false]
        rfl
      · exact .inr rfl
  | _ => cases hpc

end

end CondThread

/-- A condition variable and its lock with the threads that use them. -/
structure CondRun (ι : Type) where
  lock : Lock
  cond : Condition
  threads : ι → CondThread

namespace CondRun

variable {ι : Type} [DecidableEq ι]

/-- A new condition variable and a new lock. -/
def start : CondRun ι := ⟨Lock.new, Condition.new, fun _ => CondThread.new⟩

/-- The lock, the condition variable and one thread are replaced. -/
def set (st : CondRun ι) (i : ι) (l : Lock) (c : Condition) (t : CondThread) : CondRun ι :=
  ⟨l, c, Function.update st.threads i t⟩

/-- The calls that may be made only by a thread that holds the lock. -/
def needsLock : CondAct → Bool
  | .lock .release | .wait | .wake _ => true
  | _ => false

/-- One step of a program in which the functions of the condition variable, and `Release`,
are called only by a thread that holds the lock. -/
def exec (tid : ι → ℤ) (st : CondRun ι) : ι × CondAct → Option (CondRun ι)
  | (i, act) =>
      if needsLock act ∧ (st.threads i).lock.holds = false then none
      else ((st.threads i).exec (tid i) st.lock st.cond act).map fun (l, c, t) => st.set i l c t

/-- The runs of such programs. -/
def Run (tid : ι → ℤ) (st : CondRun ι) (steps : List (Step (CondRun ι) (ι × CondAct)))
    (st' : CondRun ι) : Prop :=
  Trace (fun s call t => exec tid s call = some t) st steps st'

/-- The lock and the places of the threads in it. -/
def toLock (st : CondRun ι) : LockRun ι := ⟨st.lock, fun i => (st.threads i).lock⟩

variable [Fintype ι]

/-- How many threads have entered themselves in `totalSleepers` and not yet passed
`sleepLock->P()`. -/
def registeredCount (st : CondRun ι) : ℕ := ∑ i, if (st.threads i).registered then 1 else 0

/-- How many threads have added a unit and not yet decremented `totalSleepers`. -/
def countingCount (st : CondRun ι) : ℕ := ∑ i, if (st.threads i).counting then 1 else 0

variable {tid : ι → ℤ} {st st' : CondRun ι} {i : ι} {l : Lock} {c : Condition} {t : CondThread}

omit [Fintype ι] in
theorem toLock_set : (st.set i l c t).toLock = st.toLock.set i l t.lock := by
  simp only [toLock, set, LockRun.set, LockRun.mk.injEq, true_and]
  funext j
  by_cases hj : j = i
  · subst hj
    simp
  · simp [Function.update_of_ne hj]

omit [Fintype ι] in
@[simp] theorem set_threads_self : (st.set i l c t).threads i = t := Function.update_self ..

omit [Fintype ι] in
theorem set_threads_of_ne {j : ι} (hj : j ≠ i) : (st.set i l c t).threads j = st.threads j :=
  Function.update_of_ne hj ..

omit [Fintype ι] in
/-- A fact about every thread, when one is replaced. -/
theorem forall_set {p : CondThread → Prop} (hold : ∀ j, p (st.threads j)) (ht : p t) (j : ι) :
    p ((st.set i l c t).threads j) := by
  by_cases hj : j = i
  · rw [hj, set_threads_self]
    exact ht
  · rw [set_threads_of_ne hj]
    exact hold j

omit [Fintype ι] in
/-- A fact about the threads in some places, when one is replaced. -/
theorem forall_imp_set {q : CondThread → Prop} {P : ι → Prop} (hold : ∀ j, q (st.threads j) → P j)
    (ht : q t → P i) (j : ι) (hj : q ((st.set i l c t).threads j)) : P j := by
  by_cases hji : j = i
  · subst hji
    rw [set_threads_self] at hj
    exact ht hj
  · rw [set_threads_of_ne hji] at hj
    exact hold j hj

theorem registeredCount_set (st : CondRun ι) (i : ι) (l : Lock) (c : Condition) (t : CondThread) :
    (st.set i l c t).registeredCount +
    (if (st.threads i).registered then 1 else 0) =
      st.registeredCount + if t.registered then 1 else 0 :=
  sum_update (fun _ t => if t.registered then 1 else 0) st.threads i t

theorem countingCount_set (st : CondRun ι) (i : ι) (l : Lock) (c : Condition) (t : CondThread) :
    (st.set i l c t).countingCount +
    (if (st.threads i).counting then 1 else 0) =
      st.countingCount + if t.counting then 1 else 0 :=
  sum_update (fun _ t => if t.counting then 1 else 0) st.threads i t

/-! ## The lock of a condition variable -/

omit [Fintype ι] in
/-- What a step does, taken apart. -/
theorem exec_eq_some {call : ι × CondAct} (h : st.exec tid call = some st') :
    ∃ l c t, (needsLock call.2 → (st.threads call.1).lock.holds = true) ∧
      (st.threads call.1).exec (tid call.1) st.lock st.cond call.2 = some (l, c, t) ∧
      st' = st.set call.1 l c t := by
  obtain ⟨i, act⟩ := call
  obtain ⟨hlegal, hmap⟩ := Option.ite_none_left_eq_some.mp h
  obtain ⟨⟨l, c, t⟩, hexec, rfl⟩ := Option.map_eq_some_iff.mp hmap
  refine ⟨l, c, t, fun hneeds => ?_, hexec, rfl⟩
  simpa using fun hholds => hlegal ⟨hneeds, hholds⟩

/-- Where the threads are: the lock is used as it should be. -/
structure Placed (tid : ι → ℤ) (st : CondRun ι) : Prop where
  lock : st.toLock.Inv tid
  disciplined : st.toLock.Disciplined
  wellFormed : ∀ i, (st.threads i).wellFormed = true

namespace Placed

omit [DecidableEq ι] [Fintype ι] in
theorem start : (start : CondRun ι).Placed tid :=
  ⟨LockRun.Inv.start, fun _ => rfl, fun _ => rfl⟩

omit [Fintype ι] in
/-- A program that uses the condition variable uses the lock as it should. -/
theorem exec_toLock (h : st.Placed tid) {call : ι × CondAct} (hexec : st.exec tid call = some st') :
    st'.toLock = st.toLock ∨ ∃ act, st.toLock.exec tid (call.1, act) = some st'.toLock := by
  obtain ⟨l, c, t, hneeds, hthread, rfl⟩ := exec_eq_some hexec
  rw [toLock_set]
  obtain ⟨rfl, hlock⟩ | ⟨act, hact, hrelease⟩ := CondThread.lock_of_exec hthread
  · refine .inl ?_
    rw [hlock]
    simp only [LockRun.set, toLock, LockRun.mk.injEq, true_and]
    exact Function.update_eq_self ..
  · refine .inr ⟨act, ?_⟩
    have hlegal : ¬ (act = .release ∧ (st.toLock.threads call.1).holds = false) := by
      rintro ⟨hact, hholds⟩
      have hheld : (st.threads call.1).lock.holds = true := by
        rcases hrelease hact with hcall | hpc
        · exact hneeds (by rw [hcall]; rfl)
        · have hwell := h.wellFormed call.1
          rw [CondThread.wellFormed, hpc] at hwell
          rw [of_decide_eq_true hwell]
      rw [show (st.toLock.threads call.1).holds = true from hheld] at hholds
      cases hholds
    rw [LockRun.exec, if_neg hlegal, LockRun.move,
      show (st.toLock.threads call.1).exec (tid call.1) st.toLock.lock act = some (l, t.lock) from hact]
    rfl

omit [Fintype ι] in
theorem exec (h : st.Placed tid) {call : ι × CondAct} (hexec : st.exec tid call = some st') :
    st'.Placed tid := by
  have hlock : st'.toLock.Inv tid ∧ st'.toLock.Disciplined := by
    obtain hsame | ⟨act, hact⟩ := h.exec_toLock hexec
    · rw [hsame]
      exact ⟨h.lock, h.disciplined⟩
    · exact ⟨h.lock.exec h.disciplined hact, h.disciplined.exec hact⟩
  refine ⟨hlock.1, hlock.2, ?_⟩
  obtain ⟨l, c, t, hneeds, hthread, rfl⟩ := exec_eq_some hexec
  refine forall_set (p := fun t => t.wellFormed = true) h.wellFormed ?_
  refine CondThread.wellFormed_of_exec (h.wellFormed _) (h.lock.wellFormed call.1)
    (fun hact => hneeds ?_) hthread
  obtain hwait | ⟨waker, hwake⟩ := hact
  · rw [hwait]
    rfl
  · rw [hwake]
    rfl

omit [DecidableEq ι] [Fintype ι] in
/-- At most one thread holds the lock. -/
theorem holder_unique (h : st.Placed tid) {i j : ι} (hi : (st.threads i).lock.holds = true)
    (hj : (st.threads j).lock.holds = true) : i = j := by
  apply h.lock.unit.unique
  · show (st.threads i).lock.hasUnit = true
    rw [LockThread.hasUnit, hi, Bool.true_or]
  · show (st.threads j).lock.hasUnit = true
    rw [LockThread.hasUnit, hj, Bool.true_or]

end Placed

/-! ## The accounts of a condition variable -/

/-- What the counters say. -/
structure Account (st : CondRun ι) : Prop where
  inner : HeldOnce CondThread.inside st.threads st.cond.innerLock
  sum : st.cond.totalSleepers + st.cond.sleepLock = st.registeredCount + st.countingCount
  nonneg : 0 ≤ st.cond.totalSleepers
  positive : ∀ i, (st.threads i).waking = true → 0 < st.cond.totalSleepers
  empty : ∀ i, (st.threads i).pc = .leave .broadcast → st.cond.totalSleepers = 0

namespace Account

omit [DecidableEq ι] in
theorem start : (start : CondRun ι).Account where
  inner := Or.inl ⟨rfl, fun _ => rfl⟩
  sum := by simp [CondRun.start, Condition.new, registeredCount, countingCount, CondThread.new,
    CondThread.registered, CondThread.counting]
  nonneg := le_rfl
  positive _ hwaking := by cases hwaking
  empty _ hpc := by cases hpc

omit [DecidableEq ι] in
/-- A thread in the inner section is alone there. -/
theorem alone (h : st.Account) (hi : (st.threads i).inside = true) {j : ι} (hj : j ≠ i) :
    (st.threads j).inside = false := by
  rw [Bool.eq_false_iff]
  exact fun htrue => hj (h.inner.unique htrue hi)

/-- One thread moves: the counters change only when it is in the inner section, where it
is alone. -/
theorem update (h : st.Account)
    (hinner : HeldOnce CondThread.inside (Function.update st.threads i t) c.innerLock)
    (hsum : c.totalSleepers + c.sleepLock =
      (st.set i l c t).registeredCount + (st.set i l c t).countingCount)
    (hnonneg : 0 ≤ c.totalSleepers)
    (hsame : c.totalSleepers = st.cond.totalSleepers ∨ (st.threads i).inside = true)
    (hpositive : t.waking = true → 0 < c.totalSleepers)
    (hempty : t.pc = .leave .broadcast → c.totalSleepers = 0) : (st.set i l c t).Account := by
  have hothers (j : ι) (hj : j ≠ i) (hinside : (st.threads j).inside = true) :
      c.totalSleepers = st.cond.totalSleepers := by
    rcases hsame with hsame | hi
    · exact hsame
    · rw [h.alone hi hj] at hinside
      cases hinside
  refine ⟨hinner, hsum, hnonneg, fun j hj => ?_, fun j hj => ?_⟩
  · show 0 < c.totalSleepers
    by_cases hji : j = i
    · rw [hji, set_threads_self] at hj
      exact hpositive hj
    · rw [set_threads_of_ne hji] at hj
      rw [hothers j hji (CondThread.inside_of_waking hj)]
      exact h.positive j hj
  · show c.totalSleepers = 0
    by_cases hji : j = i
    · rw [hji, set_threads_self] at hj
      exact hempty hj
    · rw [set_threads_of_ne hji] at hj
      rw [hothers j hji (by rw [CondThread.inside, hj])]
      exact h.empty j hj

/-- The counters after a step. -/
theorem set (h : st.Account) (heffect : CondThread.Effect st.cond (st.threads i) c t) :
    (st.set i l c t).Account := by
  have hregistered := registeredCount_set st i l c t
  have hcounting := countingCount_set st i l c t
  have hsum := h.sum
  have hnonneg := h.nonneg
  have hpositive := h.positive i
  cases heffect with
  | outside hold hnew =>
      obtain ⟨hin, hreg, hcount, -, -⟩ := CondThread.outside_iff hold
      obtain ⟨hin', hreg', hcount', hwaking, hleave⟩ := CondThread.outside_iff hnew
      rw [hreg, hreg'] at hregistered
      rw [hcount, hcount'] at hcounting
      exact h.update (h.inner.keep (hin'.trans hin.symm)) (by omega) hnonneg (.inl rfl)
        (fun hw => by rw [hwaking] at hw; cases hw) fun hpc => absurd hpc hleave
  | handing hold hnew =>
      obtain ⟨hin, hreg, hcount, -, -⟩ := CondThread.handing_iff hold
      obtain ⟨hin', hreg', hcount', hwaking, hleave⟩ := CondThread.handing_iff hnew
      rw [hreg, hreg'] at hregistered
      rw [hcount, hcount'] at hcounting
      exact h.update (h.inner.keep (hin'.trans hin.symm)) (by omega) hnonneg (.inl rfl)
        (fun hw => by rw [hwaking] at hw; cases hw) fun hpc => absurd hpc hleave
  | enter hpos hpcs =>
      obtain ⟨hpc, hpc'⟩ | ⟨waker, hpc, hpc'⟩ := hpcs <;>
      · simp [CondThread.registered, CondThread.counting, hpc, hpc'] at hregistered hcounting
        exact h.update (h.inner.take hpos (by simp [CondThread.inside, hpc'])) (by simp; omega)
          hnonneg (.inl rfl) (by simp [CondThread.waking, hpc']) (by simp [hpc'])
  | register hpc hpc' =>
      simp [CondThread.registered, CondThread.counting, hpc, hpc'] at hregistered hcounting
      exact h.update (h.inner.keep (by simp [CondThread.inside, hpc, hpc']))
        (by push_cast [hregistered, hcounting]; omega) (by simp; omega)
        (.inr (by simp [CondThread.inside, hpc])) (by simp [CondThread.waking, hpc']) (by simp [hpc'])
  | sleep hpos hpc hpc' =>
      simp [CondThread.registered, CondThread.counting, hpc, hpc'] at hregistered hcounting
      exact h.update (h.inner.keep (by simp [CondThread.inside, hpc, hpc'])) (by simp; omega)
        hnonneg (.inl rfl) (by simp [CondThread.waking, hpc']) (by simp [hpc'])
  | found hpos hpc hpc' =>
      simp [CondThread.registered, CondThread.counting, hpc, hpc'] at hregistered hcounting
      exact h.update (h.inner.keep (by simp [CondThread.inside, hpc, hpc'])) (by omega)
        hnonneg (.inl rfl) (fun _ => hpos) (by simp [hpc'])
  | notFound hpos hpc hpc' =>
      simp [CondThread.registered, CondThread.counting, hpc, hpc'] at hregistered hcounting
      exact h.update (h.inner.keep (by simp [CondThread.inside, hpc, hpc'])) (by omega)
        hnonneg (.inl rfl) (by simp [CondThread.waking, hpc']) (fun _ => le_antisymm hpos hnonneg)
  | wake hpc hpc' =>
      simp [CondThread.registered, CondThread.counting, hpc, hpc'] at hregistered hcounting
      exact h.update (h.inner.keep (by simp [CondThread.inside, hpc, hpc'])) (by simp; omega)
        hnonneg (.inl rfl) (fun _ => hpositive (by simp [CondThread.waking, hpc])) (by simp [hpc'])
  | count hpc hpcs =>
      have hpos := hpositive (by simp [CondThread.waking, hpc])
      obtain hpc' | hpc' := hpcs <;>
      · simp [CondThread.registered, CondThread.counting, hpc, hpc'] at hregistered hcounting
        exact h.update (h.inner.keep (by simp [CondThread.inside, hpc, hpc']))
          (by simp; omega) (by simp; omega) (.inr (by simp [CondThread.inside, hpc]))
          (by simp [CondThread.waking, hpc']) (by simp [hpc'])
  | leave hpcs =>
      obtain ⟨hpc, hpc'⟩ | ⟨waker, hpc, hpc'⟩ := hpcs <;>
      · simp [CondThread.registered, CondThread.counting, hpc, hpc'] at hregistered hcounting
        exact h.update (h.inner.give (by simp [CondThread.inside, hpc])
          (by simp [CondThread.inside, hpc'])) (by simp; omega)
          hnonneg (.inl rfl) (by simp [CondThread.waking, hpc']) (by simp [hpc'])

theorem exec (h : st.Account) {call : ι × CondAct} (hexec : st.exec tid call = some st') :
    st'.Account := by
  obtain ⟨l, c, t, -, hthread, rfl⟩ := exec_eq_some hexec
  exact h.set (CondThread.effect_of_exec hthread)

/-- A broadcaster that leaves has given a unit to every sleeper. -/
theorem sleepLock_of_broadcast (h : st.Account) (hpc : (st.threads i).pc = .leave .broadcast)
    (hexec : st.exec tid (i, .step) = some st') : st'.cond.sleepLock = st'.registeredCount := by
  have hempty := h.empty i hpc
  have hafter := (h.exec hexec).sum
  -- nobody else is in the inner section, and the broadcaster has left it
  have hcounting : st'.countingCount = 0 := by
    obtain ⟨l, c, t, -, hthread, rfl⟩ := exec_eq_some hexec
    refine Finset.sum_eq_zero fun j _ => ?_
    by_cases hj : j = i
    · subst hj
      simp only [CondThread.exec, hpc] at hthread
      cases hthread
      simp [CondThread.counting]
    · rw [set_threads_of_ne hj]
      have halone := h.alone (by simp [CondThread.inside, hpc]) hj
      rw [if_neg]
      intro hcounting
      rw [CondThread.inside_of_counting hcounting] at halone
      cases halone
  have hsame : st'.cond.totalSleepers = st.cond.totalSleepers := by
    obtain ⟨l, c, t, -, hthread, rfl⟩ := exec_eq_some hexec
    simp only [CondThread.exec, hpc] at hthread
    cases hthread
    rfl
  omega

omit [DecidableEq ι] in
/-- While no thread is in the inner section, none has added a unit for a sleeper that is
still counted. -/
theorem sum_of_outside (h : st.Account) (houtside : ∀ i, (st.threads i).inside = false) :
    st.cond.totalSleepers + st.cond.sleepLock = st.registeredCount := by
  have hcounting : st.countingCount = 0 := by
    refine Finset.sum_eq_zero fun j _ => ?_
    rw [if_neg]
    intro hcounting
    have hj := houtside j
    rw [CondThread.inside_of_counting hcounting] at hj
    cases hj
  have hsum := h.sum
  omega

end Account

/-! ## Signals -/

/-- The step is a completed `sleepLock->P()`. -/
def Passes (x : Step (CondRun ι) (ι × CondAct)) : Prop :=
  (x.before.threads x.label.1).pc = .sleep

/-- The step is the `sleepLock->V()` of a `Signal` by thread `i`. -/
def SignalsBy (i : ι) (x : Step (CondRun ι) (ι × CondAct)) : Prop :=
  x.label.1 = i ∧ (x.before.threads i).pc = .wake .signal

/-- A thread has passed `sleepLock->P()` since the `sleepLock->V()` of thread `i`. -/
def PassedSince (i : ι) (steps : List (Step (CondRun ι) (ι × CondAct))) : Prop :=
  ∃ before x after, steps = before ++ x :: after ∧ SignalsBy i x ∧ ∃ y ∈ after, Passes y

/-- What a `Signal` by thread `i` has reached after these steps: it has still to wake a
sleeper, or the unit it added is there or was taken, or there was no sleeper. -/
def Signalled (i : ι) (steps : List (Step (CondRun ι) (ι × CondAct))) (st : CondRun ι) : Prop :=
  (st.threads i).pc = .test .signal ∨ (st.threads i).pc = .wake .signal ∨
    (∃ x ∈ steps, SignalsBy i x) ∧ 0 < st.cond.sleepLock ∨ PassedSince i steps ∨
    (st.threads i).pc = .leave .signal ∧ st.cond.totalSleepers = 0

omit [DecidableEq ι] [Fintype ι] in
theorem PassedSince.snoc {steps : List (Step (CondRun ι) (ι × CondAct))} (h : PassedSince i steps)
    (x : Step (CondRun ι) (ι × CondAct)) : PassedSince i (steps ++ [x]) := by
  obtain ⟨before, y, after, rfl, hy, z, hz, hpass⟩ := h
  exact ⟨before, y, after ++ [x], by simp, hy, z, List.mem_append_left _ hz, hpass⟩

omit [DecidableEq ι] [Fintype ι] in
/-- The unit is taken by the step that is added. -/
theorem passedSince_of_passes {steps : List (Step (CondRun ι) (ι × CondAct))}
    (h : ∃ x ∈ steps, SignalsBy i x) {y : Step (CondRun ι) (ι × CondAct)} (hy : Passes y) :
    PassedSince i (steps ++ [y]) := by
  obtain ⟨x, hx, hsignals⟩ := h
  obtain ⟨before, after, rfl⟩ := List.append_of_mem hx
  exact ⟨before, x, after ++ [y], by simp, hsignals, y, by simp, hy⟩

/-- The step of the thread that signals. -/
theorem Signalled.self {steps : List (Step (CondRun ι) (ι × CondAct))} (h : Signalled i steps st)
    (haccount : st.Account) {act : CondAct} (hexec : st.exec tid (i, act) = some st')
    (hin : (st.threads i).inSignal = true) (hin' : (st'.threads i).inSignal = true) :
    Signalled i (steps ++ [⟨st, (i, act), st'⟩]) st' := by
  obtain ⟨l, c, t, -, hthread, hset⟩ := exec_eq_some hexec
  have hself : st'.threads i = t := by rw [hset, set_threads_self]
  have hcond : st'.cond = c := by rw [hset]; rfl
  rw [hself] at hin'
  rw [Signalled, hself, hcond]
  obtain ⟨-, hpc', -⟩ | ⟨-, hpc', hle, rfl⟩ | ⟨hpc, -, rfl⟩ | ⟨hpc, -, hsame⟩ :=
    (CondThread.effect_of_exec hthread).of_inSignal hin hin'
  · exact .inr (.inl hpc')
  · exact .inr (.inr (.inr (.inr ⟨hpc', le_antisymm hle haccount.nonneg⟩)))
  · exact .inr (.inr (.inl ⟨⟨_, List.mem_append_right _ (List.mem_singleton_self _), rfl, hpc⟩,
      Nat.succ_pos _⟩))
  · rw [Signalled, show (st.threads i).pc = .count .signal from hpc] at h
    obtain h | h | ⟨⟨x, hx, hsignals⟩, hpos⟩ | h | ⟨h, -⟩ := h
    · cases h
    · cases h
    · exact .inr (.inr (.inl ⟨⟨x, List.mem_append_left _ hx, hsignals⟩, hsame ▸ hpos⟩))
    · exact .inr (.inr (.inr (.inl (h.snoc _))))
    · cases h

/-- The step of another thread. -/
theorem Signalled.other {steps : List (Step (CondRun ι) (ι × CondAct))} (h : Signalled i steps st)
    (haccount : st.Account) {j : ι} (hj : j ≠ i) {act : CondAct}
    (hexec : st.exec tid (j, act) = some st') (hin : (st.threads i).inSignal = true) :
    Signalled i (steps ++ [⟨st, (j, act), st'⟩]) st' := by
  obtain ⟨l, c, t, -, hthread, hset⟩ := exec_eq_some hexec
  have heffect := CondThread.effect_of_exec hthread
  have hself : st'.threads i = st.threads i := by rw [hset, set_threads_of_ne hj.symm]
  have hcond : st'.cond = c := by rw [hset]; rfl
  rw [Signalled, hself, hcond]
  obtain h | h | ⟨⟨x, hx, hsignals⟩, hpos⟩ | h | ⟨hpc, hzero⟩ := h
  · exact .inl h
  · exact .inr (.inl h)
  · by_cases hsleep : (st.threads j).pc = .sleep
    · exact .inr (.inr (.inr (.inl (passedSince_of_passes ⟨x, hx, hsignals⟩ hsleep))))
    · exact .inr (.inr (.inl ⟨⟨x, List.mem_append_left _ hx, hsignals⟩,
        hpos.trans_le (heffect.sleepLock_le hsleep)⟩))
  · exact .inr (.inr (.inr (.inl (h.snoc _))))
  · refine .inr (.inr (.inr (.inr ⟨hpc, ?_⟩)))
    rw [heffect.totalSleepers_eq (haccount.alone (CondThread.inside_of_inSignal hin) hj), hzero]

/-- What the steps made during a `Signal` lead to. -/
theorem Signalled.run {steps : List (Step (CondRun ι) (ι × CondAct))} (haccount : st.Account)
    (hpc : (st.threads i).pc = .test .signal) (hrun : Run tid st steps st')
    (hin : ∀ x ∈ steps, (x.before.threads i).inSignal = true)
    (hin' : (st'.threads i).inSignal = true) : Signalled i steps st' ∧ st'.Account := by
  induction hrun with
  | nil => exact ⟨.inl hpc, haccount⟩
  | @snoc t u steps call prior hstep ih =>
      have hlast : (t.threads i).inSignal = true :=
        hin ⟨t, call, u⟩ (List.mem_append_right _ (List.mem_singleton_self _))
      obtain ⟨hsignalled, hold⟩ := ih (fun x hx => hin x (List.mem_append_left _ hx)) hlast
      obtain ⟨j, act⟩ := call
      refine ⟨?_, hold.exec hstep⟩
      by_cases hj : j = i
      · subst hj
        exact hsignalled.self hold hstep hlast hin'
      · exact hsignalled.other hold hj hstep hlast

/-- A `Signal` that returns leaves a unit for the sleepers, unless one has taken it. -/
theorem Signalled.leave {steps : List (Step (CondRun ι) (ι × CondAct))} (h : Signalled i steps st)
    (haccount : st.Account) (hpc : (st.threads i).pc = .leave .signal)
    (hexec : st.exec tid (i, .step) = some st') (hregistered : 0 < st'.registeredCount) :
    0 < st'.cond.sleepLock ∨ PassedSince i steps := by
  have hafter := (haccount.exec hexec).sum
  obtain ⟨l, c, t, -, hthread, hset⟩ := exec_eq_some hexec
  simp only [CondThread.exec, hpc] at hthread
  cases hthread
  have hcond : st'.cond = { st.cond with innerLock := Units.V st.cond.innerLock } := by
    rw [hset]
    rfl
  rw [Signalled, hpc] at h
  obtain h | h | ⟨-, hpos⟩ | h | ⟨-, hzero⟩ := h
  · cases h
  · cases h
  · exact .inl (by rw [hcond]; exact hpos)
  · exact .inr h
  · refine .inl ?_
    rw [hcond] at hafter ⊢
    simp only [hzero] at hafter
    show 0 < st.cond.sleepLock
    omega

/-- **The accounts of a condition variable.** In a program that uses the condition variable
while holding the lock, `totalSleepers` is never negative; while no thread is in the inner
section, it and the units of `sleepLock` are together the registered threads; right after a
`Broadcast` there is a unit for each registered thread; and right after a `Signal` there is
one if a thread is registered, unless one was taken between its `sleepLock->V()` and its
return. -/
theorem wakeups_accounted {steps : List (Step (CondRun ι) (ι × CondAct))}
    (hrun : Run tid start steps st) :
    0 ≤ st.cond.totalSleepers ∧
      ((∀ i, (st.threads i).inside = false) →
        st.cond.totalSleepers + st.cond.sleepLock = st.registeredCount) ∧
      (∀ i st', (st.threads i).pc = .leave .broadcast → st.exec tid (i, .step) = some st' →
        st'.cond.sleepLock = st'.registeredCount) ∧
      (∀ i during mid st', (st.threads i).pc = .test .signal → Run tid st during mid →
        (∀ x ∈ during, (x.before.threads i).inSignal = true) →
        (mid.threads i).pc = .leave .signal → mid.exec tid (i, .step) = some st' →
        0 < st'.registeredCount → 0 < st'.cond.sleepLock ∨ PassedSince i during) := by
  have haccount := (Trace.invariant_of_forall (I := Account)
    (fun x hbefore hrel => hbefore.exec hrel) hrun Account.start).1
  refine ⟨haccount.nonneg, haccount.sum_of_outside,
    fun i st' hpc hexec => haccount.sleepLock_of_broadcast hpc hexec,
    fun i during mid st' hpc hduring hin hleave hexec hregistered => ?_⟩
  obtain ⟨hsignalled, hmid⟩ :=
    Signalled.run haccount hpc hduring hin (by rw [CondThread.inSignal, hleave])
  exact hsignalled.leave hmid hleave hexec hregistered

/-- Thread `i` takes the lock. -/
def acquiring (i : ι) : List (ι × CondAct) :=
  (i, .lock .acquire) :: List.replicate 4 (i, .lock .step)

/-- Thread `i` takes the lock and waits; it gets as far as `sleepLock->P()`. -/
def waiting (i : ι) : List (ι × CondAct) :=
  acquiring i ++ (i, .wait) :: List.replicate 8 (i, .step)

/-- Thread `i` takes the lock and wakes; it makes `steps` steps of the function. -/
def wakingBy (i : ι) (waker : Waker) (steps : ℕ) : List (ι × CondAct) :=
  acquiring i ++ (i, .wake waker) :: List.replicate steps (i, .step)

/-- One thread waits and another is about to leave its `Broadcast`. -/
theorem wakeups_accounted_two : ∃ (steps : List (Step (CondRun (Fin 2)) (Fin 2 × CondAct)))
    (st : CondRun (Fin 2)), Run (fun _ => 1) start steps st ∧ st.registeredCount = 1 ∧
      (st.threads 1).pc = .leave .broadcast ∧
      0 ≤ st.cond.totalSleepers ∧
      ((∀ i, (st.threads i).inside = false) →
        st.cond.totalSleepers + st.cond.sleepLock = st.registeredCount) ∧
      (∀ i st', (st.threads i).pc = .leave .broadcast →
        st.exec (fun _ => 1) (i, .step) = some st' →
        st'.cond.sleepLock = st'.registeredCount) ∧
      (∀ i during mid st', (st.threads i).pc = .test .signal → Run (fun _ => 1) st during mid →
        (∀ x ∈ during, (x.before.threads i).inSignal = true) →
        (mid.threads i).pc = .leave .signal → mid.exec (fun _ => 1) (i, .step) = some st' →
        0 < st'.registeredCount → 0 < st'.cond.sleepLock ∨ PassedSince i during) := by
  have hend : (execAll (exec fun _ => 1) start (waiting (0 : Fin 2) ++ wakingBy 1 .broadcast 5)).map
      (fun st => (st.registeredCount, (st.threads 1).pc)) = some (1, .leave .broadcast) := by
    decide +kernel
  obtain ⟨st, hst, heq⟩ := Option.map_eq_some_iff.mp hend
  obtain ⟨hregistered, hpc⟩ := Prod.mk.inj heq
  have hrun := trace_of_execAll hst
  exact ⟨_, st, hrun, hregistered, hpc, wakeups_accounted hrun⟩

/-- Two threads wait and a third signals. One of the two takes the unit before the `Signal`
returns; then the other is registered and there is no unit. -/
theorem not_unit_after_signal :
    ¬ ∀ (steps : List (Step (CondRun (Fin 3)) (Fin 3 × CondAct))) (st : CondRun (Fin 3)),
      Run (fun i => i.val + 1) start steps st → ∀ i st', (st.threads i).pc = .leave .signal →
        st.exec (fun i => i.val + 1) (i, .step) = some st' →
        0 < st'.registeredCount → 0 < st'.cond.sleepLock := by
  intro hclaim
  have hend : (execAll (exec fun i => (i.val : ℤ) + 1) start
      (waiting (0 : Fin 3) ++ waiting 1 ++ wakingBy 2 .signal 4 ++ [(0, .step)])).map
      (fun st => ((st.threads 2).pc, (st.exec (fun i => (i.val : ℤ) + 1) (2, .step)).map fun st' =>
        (st'.registeredCount, st'.cond.sleepLock))) = some (.leave .signal, some (1, 0)) := by
    decide +kernel
  obtain ⟨st, hst, heq⟩ := Option.map_eq_some_iff.mp hend
  obtain ⟨hpc, hnext⟩ := Prod.mk.inj heq
  obtain ⟨st', hexec, heq'⟩ := Option.map_eq_some_iff.mp hnext
  obtain ⟨hregistered, hsleep⟩ := Prod.mk.inj heq'
  have hpos := hclaim _ st (trace_of_execAll hst) 2 st' hpc hexec (by rw [hregistered]; decide)
  rw [hsleep] at hpos
  exact absurd hpos (by decide)

end CondRun

end Nachos.Synch
