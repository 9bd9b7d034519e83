/-
# Synchronous use of a device

`SynchDisk`, the output of `SynchConsole` and `PostOffice::Send` are made alike. A thread takes
a lock, makes a request that the device carries out later, waits on a semaphore for the
interrupt that says so, and releases the lock. The semaphore has no unit when the thread comes
to wait, so that the unit which lets it go on is that of its own interrupt; and the next request
is made when this unit is gone and no interrupt is outstanding.

The requests are numbered in the order in which the device gets them. A failed assertion stops
the machine, so that no step is made there.
-/

import Nachos.Base.Fault
import Nachos.Threads.Lock

namespace Nachos.Synch

open Base

/-- A device, and the call that uses it. -/
structure Driver (κ ρ ω δ α : Type) where
  /-- What the call does before it takes the lock; with `none` it returns at once. -/
  prepare : κ → Except Fault (Option ρ)
  /-- The request, with what it gives the caller. It may depend on `Random`. -/
  request : ω → ρ → δ → Except Fault (α × δ)
  /-- The completion interrupt, up to the call of the handler. -/
  complete : δ → δ

/-- Where a thread is in the call. -/
inductive DevicePc (ρ : Type)
  | away
  /-- At the call of `lock->Acquire()`. -/
  | acquire (r : ρ)
  /-- In `lock->Acquire()`. -/
  | acquiring (r : ρ)
  /-- At the request. -/
  | request (r : ρ)
  /-- At `semaphore->P()`, after request number `k`. -/
  | wait (k : ℕ)
  /-- At the call of `lock->Release()`. -/
  | release (k : ℕ)
  /-- In `lock->Release()`. -/
  | releasing (k : ℕ)
  /-- At the end of the function. -/
  | leave (k : ℕ)
  deriving DecidableEq, Repr

/-- A thread as a user of the device. -/
structure DeviceThread (ρ : Type) where
  lock : LockThread
  pc : DevicePc ρ
  deriving DecidableEq, Repr

/-- What happens next: a thread calls, or goes on, or the interrupt of request `k` comes. -/
inductive DeviceAct (ι κ ω : Type)
  | call (i : ι) (c : κ)
  | step (i : ι) (oracle : ω)
  | interrupt (k : ℕ)
  deriving DecidableEq, Repr

/-- A device with its lock and semaphore, and the threads that use it. -/
structure DeviceRun (ι ρ δ α : Type) where
  lock : Lock
  semaphore : ℕ
  device : δ
  /-- The requests whose completion interrupt is scheduled. -/
  pending : List ℕ
  threads : ι → DeviceThread ρ
  /-- History: the requests, with who made them and what they gave. -/
  requests : List (ι × ρ × α)
  /-- History: the requests whose completion interrupt has come. -/
  completed : List ℕ
  /-- History: the calls that have returned, each with the number of its request. -/
  returned : List (ι × ℕ)

namespace DeviceThread

variable {ρ : Type}

/-- What the place of a thread says about its place in the lock. -/
def wellFormed (t : DeviceThread ρ) : Bool :=
  match t.pc with
  | .away | .acquire _ | .leave _ => decide (t.lock = ⟨.away, false⟩)
  | .acquiring _ => t.lock.pc.inAcquire
  | .request _ | .wait _ | .release _ => decide (t.lock = ⟨.away, true⟩)
  | .releasing _ => t.lock.pc.inRelease

/-- The request of the thread, once it is made. -/
def ticket (t : DeviceThread ρ) : Option ℕ :=
  match t.pc with
  | .wait k | .release k | .releasing k | .leave k => some k
  | _ => none

/-- The request that the thread has come for, before it is made. -/
def plan (t : DeviceThread ρ) : Option ρ :=
  match t.pc with
  | .acquire r | .acquiring r | .request r => some r
  | _ => none

/-- The steps in the lock, with where they lead. -/
inductive LockMove : DevicePc ρ → LockAct → LockThread → DevicePc ρ → Prop
  | acquire (r : ρ) (t : LockThread) : LockMove (.acquire r) .acquire t (.acquiring r)
  | acquiring (r : ρ) (t : LockThread) : LockMove (.acquiring r) .step t
      (if t.pc = .away then .request r else .acquiring r)
  | release (k : ℕ) (t : LockThread) : LockMove (.release k) .release t (.releasing k)
  | releasing (k : ℕ) (t : LockThread) : LockMove (.releasing k) .step t
      (if t.pc = .away then .leave k else .releasing k)

namespace LockMove

variable {tid : ℤ} {l l' : Lock} {old t : LockThread} {pc pc' : DevicePc ρ} {act : LockAct}

/-- The lock is released by a thread that holds it. -/
theorem holds (h : LockMove pc act t pc') (hwell : (⟨old, pc⟩ : DeviceThread ρ).wellFormed = true)
    (hact : act = .release) : old.holds = true := by
  subst hact
  cases h with
  | release k =>
      obtain rfl : old = ⟨.away, true⟩ := of_decide_eq_true hwell
      rfl

/-- A step leads to a place that goes with the place in the lock. -/
theorem wellFormed (h : LockMove pc act t pc') (hwell : (⟨old, pc⟩ : DeviceThread ρ).wellFormed = true)
    (hlock : old.wellFormed = true) (hexec : old.exec tid l act = some (l', t)) :
    (⟨t, pc'⟩ : DeviceThread ρ).wellFormed = true := by
  cases h with
  | acquire r | release k =>
      cases of_decide_eq_true hwell
      cases hexec
      rfl
  | acquiring r =>
      obtain hin | rfl := LockThread.acquiring_of_exec hwell hexec
      · have hne : t.pc ≠ .away := fun hpc => by rw [hpc] at hin; cases hin
        rw [if_neg hne]
        exact hin
      · rfl
  | releasing k =>
      obtain hin | rfl := LockThread.releasing_of_exec hwell hlock hexec
      · have hne : t.pc ≠ .away := fun hpc => by rw [hpc] at hin; cases hin
        rw [if_neg hne]
        exact hin
      · rfl

/-- A step in the lock neither makes a request nor waits for one. -/
theorem ticket (old : LockThread) (h : LockMove pc act t pc') :
    (⟨t, pc'⟩ : DeviceThread ρ).ticket = (⟨old, pc⟩ : DeviceThread ρ).ticket ∧
      (∀ k, pc ≠ .wait k) ∧ ∀ k, pc' ≠ .wait k := by
  cases h with
  | acquire r | release k => exact ⟨rfl, nofun, nofun⟩
  | acquiring r | releasing k => split <;> exact ⟨rfl, nofun, nofun⟩

/-- A step in the lock does not change what the thread has come for. -/
theorem plan (old : LockThread) (h : LockMove pc act t pc') :
    (⟨t, pc'⟩ : DeviceThread ρ).plan = (⟨old, pc⟩ : DeviceThread ρ).plan := by
  cases h with
  | acquire r | release k => rfl
  | acquiring r | releasing k => split <;> rfl

end LockMove

end DeviceThread

namespace DeviceRun

variable {ι κ ρ ω δ α : Type}

/-- A device that nobody has used yet. -/
def start (device : δ) : DeviceRun ι ρ δ α :=
  ⟨Lock.new, 0, device, [], fun _ => ⟨LockThread.new, .away⟩, [], [], []⟩

/-- The lock and the places of the threads in it. -/
def toLock (st : DeviceRun ι ρ δ α) : LockRun ι := ⟨st.lock, fun i => (st.threads i).lock⟩

variable [DecidableEq ι]

/-- One thread is replaced. -/
def put (st : DeviceRun ι ρ δ α) (i : ι) (t : DeviceThread ρ) : ι → DeviceThread ρ :=
  Function.update st.threads i t

/-- Thread `i` goes on to `pc` without a step in the lock. -/
def goto (st : DeviceRun ι ρ δ α) (i : ι) (pc : DevicePc ρ) : DeviceRun ι ρ δ α :=
  { st with threads := st.put i ⟨(st.threads i).lock, pc⟩ }

/-- A step of thread `i` in the lock; it comes to `next`. -/
def lockStep (tid : ι → ℤ) (st : DeviceRun ι ρ δ α) (i : ι) (act : LockAct)
    (next : LockThread → DevicePc ρ) : Option (DeviceRun ι ρ δ α) :=
  ((st.threads i).lock.exec (tid i) st.lock act).map fun (l, t) =>
    { st with lock := l, threads := st.put i ⟨t, next t⟩ }

/-- The request of thread `i`, and the interrupt that it schedules. -/
def ask (st : DeviceRun ι ρ δ α) (i : ι) (r : ρ) (a : α) (device : δ) : DeviceRun ι ρ δ α :=
  { st.goto i (.wait st.requests.length) with
    device := device
    pending := st.pending ++ [st.requests.length]
    requests := st.requests ++ [(i, r, a)] }

/-- The completion interrupt of request `k`: the handler calls `semaphore->V()`. -/
def finish (driver : Driver κ ρ ω δ α) (st : DeviceRun ι ρ δ α) (k : ℕ) : DeviceRun ι ρ δ α :=
  { st with
    device := driver.complete st.device
    pending := st.pending.erase k
    semaphore := Units.V st.semaphore
    completed := st.completed ++ [k] }

/-- One step. -/
def exec (driver : Driver κ ρ ω δ α) (tid : ι → ℤ) (st : DeviceRun ι ρ δ α) :
    DeviceAct ι κ ω → Option (DeviceRun ι ρ δ α)
  | .call i c =>
      match (st.threads i).pc, driver.prepare c with
      | .away, .ok (some r) => some (st.goto i (.acquire r))
      | .away, .ok none => some st
      | _, _ => none
  | .interrupt k => if k ∈ st.pending then some (st.finish driver k) else none
  | .step i oracle =>
      match (st.threads i).pc with
      | .away => none
      | .acquire r => st.lockStep tid i .acquire fun _ => .acquiring r
      | .acquiring r =>
          st.lockStep tid i .step fun t => if t.pc = .away then .request r else .acquiring r
      | .request r =>
          match driver.request oracle r st.device with
          | .ok (a, device) => some (st.ask i r a device)
          | .error _ => none
      | .wait k =>
          (Units.P st.semaphore).map fun units => { st.goto i (.release k) with semaphore := units }
      | .release k => st.lockStep tid i .release fun _ => .releasing k
      | .releasing k =>
          st.lockStep tid i .step fun t => if t.pc = .away then .leave k else .releasing k
      | .leave k => some { st.goto i .away with returned := st.returned ++ [(i, k)] }

/-- The runs of any threads that use the device. -/
def Run (driver : Driver κ ρ ω δ α) (tid : ι → ℤ) (st : DeviceRun ι ρ δ α)
    (steps : List (Step (DeviceRun ι ρ δ α) (DeviceAct ι κ ω))) (st' : DeviceRun ι ρ δ α) : Prop :=
  Trace (fun s act t => exec driver tid s act = some t) st steps st'

/-- Everything a step can do. -/
inductive Move (driver : Driver κ ρ ω δ α) (tid : ι → ℤ) (st : DeviceRun ι ρ δ α) :
    DeviceRun ι ρ δ α → Prop
  | skip : Move driver tid st st
  | call (i : ι) (c : κ) (r : ρ) : (st.threads i).pc = .away → driver.prepare c = .ok (some r) →
      Move driver tid st (st.goto i (.acquire r))
  | lock {i : ι} {act : LockAct} {l : Lock} {t : LockThread} {pc : DevicePc ρ} :
      DeviceThread.LockMove (st.threads i).pc act t pc →
      (st.threads i).lock.exec (tid i) st.lock act = some (l, t) →
      Move driver tid st { st with lock := l, threads := st.put i ⟨t, pc⟩ }
  | ask (i : ι) (r : ρ) (oracle : ω) (a : α) (device : δ) : (st.threads i).pc = .request r →
      driver.request oracle r st.device = .ok (a, device) →
      Move driver tid st (st.ask i r a device)
  | pass (i : ι) (k : ℕ) : (st.threads i).pc = .wait k → 0 < st.semaphore →
      Move driver tid st { st.goto i (.release k) with semaphore := st.semaphore - 1 }
  | leave (i : ι) (k : ℕ) : (st.threads i).pc = .leave k →
      Move driver tid st { st.goto i .away with returned := st.returned ++ [(i, k)] }
  | finish (k : ℕ) : k ∈ st.pending → Move driver tid st (st.finish driver k)

variable {driver : Driver κ ρ ω δ α} {tid : ι → ℤ} {st st' : DeviceRun ι ρ δ α} {i : ι}

theorem move_of_lockStep {act : LockAct} {next : LockThread → DevicePc ρ}
    (hmove : ∀ t, DeviceThread.LockMove (st.threads i).pc act t (next t))
    (h : st.lockStep tid i act next = some st') : Move driver tid st st' := by
  obtain ⟨⟨l, t⟩, hexec, rfl⟩ := Option.map_eq_some_iff.mp h
  exact .lock (hmove t) hexec

/-- **The steps.** -/
theorem move_of_exec {act : DeviceAct ι κ ω} (h : st.exec driver tid act = some st') :
    Move driver tid st st' := by
  cases act with
  | call i c =>
      simp only [exec] at h
      split at h
      next r hpc hprepare =>
        cases h
        exact .call i c r hpc hprepare
      next hpc _ =>
        cases h
        exact .skip
      next => cases h
  | interrupt k =>
      obtain ⟨hk, h⟩ := Option.ite_none_right_eq_some.mp h
      cases h
      exact .finish k hk
  | step i oracle =>
      simp only [exec] at h
      split at h
      next => cases h
      next r hpc => exact move_of_lockStep (fun t => hpc ▸ .acquire r t) h
      next r hpc => exact move_of_lockStep (fun t => hpc ▸ .acquiring r t) h
      next r hpc =>
        split at h
        next a device hrequest =>
          cases h
          exact .ask i r oracle a device hpc hrequest
        next => cases h
      next k hpc =>
        obtain ⟨units, hunits, rfl⟩ := Option.map_eq_some_iff.mp h
        obtain ⟨hpos, rfl⟩ := Units.P_eq_some.mp hunits
        exact .pass i k hpc hpos
      next k hpc => exact move_of_lockStep (fun t => hpc ▸ .release k t) h
      next k hpc => exact move_of_lockStep (fun t => hpc ▸ .releasing k t) h
      next k hpc =>
        cases h
        exact .leave i k hpc

/-! ## The device and its lock -/

theorem put_self (t : DeviceThread ρ) : st.put i t i = t := Function.update_self ..

theorem put_of_ne (t : DeviceThread ρ) {j : ι} (hj : j ≠ i) : st.put i t j = st.threads j :=
  Function.update_of_ne hj ..

/-- A fact about all threads, when one is replaced. -/
theorem forall_put {P : ι → DeviceThread ρ → Prop} {t : DeviceThread ρ}
    (hold : ∀ j, j ≠ i → P j (st.threads j)) (ht : P i t) (j : ι) : P j (st.put i t j) := by
  by_cases hj : j = i
  · rw [hj, put_self]
    exact ht
  · rw [put_of_ne t hj]
    exact hold j hj

/-- What a step does to the device and the list of the requests. -/
theorem requests_of_exec {act : DeviceAct ι κ ω} (h : st.exec driver tid act = some st') :
    (st'.requests = st.requests ∧ (st'.device = st.device ∨ st'.device = driver.complete st.device)) ∨
      ∃ i r oracle a, (st.threads i).plan = some r ∧
        driver.request oracle r st.device = .ok (a, st'.device) ∧
        st'.requests = st.requests ++ [(i, r, a)] := by
  cases move_of_exec h with
  | skip | call | lock | pass | leave => exact .inl ⟨rfl, .inl rfl⟩
  | finish k => exact .inl ⟨rfl, .inr rfl⟩
  | ask i r oracle a device hpc hrequest =>
      exact .inr ⟨i, r, oracle, a, by rw [DeviceThread.plan, hpc], hrequest, rfl⟩

/-- A call that goes on to the lock. -/
theorem call_of_exec {c : κ} (h : st.exec driver tid (.call i c) = some st') :
    (st.threads i).pc = .away ∧ ((driver.prepare c = .ok none ∧ st' = st) ∨
      ∃ r, driver.prepare c = .ok (some r) ∧ st' = st.goto i (.acquire r)) := by
  simp only [exec] at h
  split at h
  next r hpc hprepare => exact ⟨hpc, .inr ⟨r, hprepare, (Option.some.inj h).symm⟩⟩
  next hpc hprepare => exact ⟨hpc, .inl ⟨hprepare, (Option.some.inj h).symm⟩⟩
  next => cases h

/-- What a step in the lock, or on the way out, does to the threads. -/
private theorem plan_put {t : DeviceThread ρ} (ht : t.plan = (st.threads i).plan) (j : ι) :
    (st.put i t j).plan = (st.threads j).plan :=
  forall_put (P := fun j t => t.plan = (st.threads j).plan) (fun _ _ => rfl) ht j

private theorem plan_of_lockStep {act : LockAct} {next : LockThread → DevicePc ρ}
    (hmove : ∀ t, DeviceThread.LockMove (st.threads i).pc act t (next t))
    (h : st.lockStep tid i act next = some st') :
    st'.requests = st.requests ∧ ∀ j, (st'.threads j).plan = (st.threads j).plan := by
  obtain ⟨⟨l, t⟩, -, rfl⟩ := Option.map_eq_some_iff.mp h
  exact ⟨rfl, plan_put ((hmove t).plan (st.threads i).lock)⟩

/-- What a step of a thread does to what the threads have come for: nothing, or it makes the
request of the thread. -/
theorem ask_of_exec {oracle : ω} (h : st.exec driver tid (.step i oracle) = some st') :
    (st'.requests = st.requests ∧ ∀ j, (st'.threads j).plan = (st.threads j).plan) ∨
      ∃ r a device, (st.threads i).plan = some r ∧
        driver.request oracle r st.device = .ok (a, device) ∧ st' = st.ask i r a device := by
  simp only [exec] at h
  split at h
  next => cases h
  next r hpc => exact .inl (plan_of_lockStep (fun t => hpc ▸ .acquire r t) h)
  next r hpc => exact .inl (plan_of_lockStep (fun t => hpc ▸ .acquiring r t) h)
  next r hpc =>
    split at h
    next a device hrequest =>
      cases h
      exact .inr ⟨r, a, device, by rw [DeviceThread.plan, hpc], hrequest, rfl⟩
    next => cases h
  next k hpc =>
    obtain ⟨units, -, rfl⟩ := Option.map_eq_some_iff.mp h
    exact .inl ⟨rfl, plan_put (by rw [DeviceThread.plan, DeviceThread.plan, hpc])⟩
  next k hpc => exact .inl (plan_of_lockStep (fun t => hpc ▸ .release k t) h)
  next k hpc => exact .inl (plan_of_lockStep (fun t => hpc ▸ .releasing k t) h)
  next k hpc =>
    cases h
    exact .inl ⟨rfl, plan_put (by rw [DeviceThread.plan, DeviceThread.plan, hpc])⟩

/-- The requests that the threads have come for are those of calls. -/
def Prepared (driver : Driver κ ρ ω δ α) (st : DeviceRun ι ρ δ α) : Prop :=
  ∀ i r, (st.threads i).plan = some r → ∃ c, driver.prepare c = .ok (some r)

theorem Prepared.exec (h : st.Prepared driver) {act : DeviceAct ι κ ω}
    (hexec : st.exec driver tid act = some st') : st'.Prepared driver := by
  have hput {i : ι} {t : DeviceThread ρ}
      (ht : ∀ r, t.plan = some r → ∃ c, driver.prepare c = .ok (some r)) (j : ι) :
      ∀ r, (st.put i t j).plan = some r → ∃ c, driver.prepare c = .ok (some r) :=
    forall_put (P := fun _ t => ∀ r, t.plan = some r → ∃ c, driver.prepare c = .ok (some r))
      (fun j _ => h j) ht j
  cases move_of_exec hexec with
  | skip => exact h
  | finish k => exact h
  | call i c r hpc hprepare =>
      refine hput fun r' hr' => ?_
      cases hr'
      exact ⟨c, hprepare⟩
  | @lock i act l t pc hmove =>
      refine hput fun r hr => h i r ?_
      rw [← hr]
      exact (hmove.plan (st.threads i).lock).symm
  | ask i r oracle a device => exact hput (by nofun)
  | pass i k => exact hput (by nofun)
  | leave i k => exact hput (by nofun)

/-- A thread that goes on outside the lock leaves the lock as it is. -/
theorem toLock_goto (st : DeviceRun ι ρ δ α) (i : ι) (pc : DevicePc ρ) :
    (st.goto i pc).toLock = st.toLock := by
  simp only [toLock, goto, LockRun.mk.injEq, true_and]
  funext j
  refine forall_put (P := fun j t => t.lock = (st.threads j).lock) (fun _ _ => rfl) ?_ j
  rfl

/-- A step in the lock is a step of a program that keeps to the convention. -/
theorem toLock_exec (hwell : ∀ j, (st.threads j).wellFormed = true) {act : LockAct} {l : Lock}
    {t : LockThread} {pc : DevicePc ρ} (hmove : DeviceThread.LockMove (st.threads i).pc act t pc)
    (hexec : (st.threads i).lock.exec (tid i) st.lock act = some (l, t)) :
    st.toLock.exec tid (i, act) = some
      { st with lock := l, threads := st.put i ⟨t, pc⟩ : DeviceRun ι ρ δ α}.toLock := by
  have hlegal : ¬ (act = .release ∧ (st.toLock.threads i).holds = false) := by
    rintro ⟨hact, hholds⟩
    have hheld : (st.threads i).lock.holds = true := hmove.holds (hwell i) hact
    rw [show (st.toLock.threads i).holds = true from hheld] at hholds
    cases hholds
  have hset : { st with lock := l, threads := st.put i ⟨t, pc⟩ : DeviceRun ι ρ δ α}.toLock =
      st.toLock.set i l t := by
    simp only [toLock, LockRun.set, LockRun.mk.injEq, true_and]
    funext j
    by_cases hj : j = i
    · rw [hj, put_self, Function.update_self]
    · rw [put_of_ne _ hj, Function.update_of_ne hj]
  rw [hset, LockRun.exec, if_neg hlegal, LockRun.move,
    show (st.toLock.threads i).exec (tid i) st.toLock.lock act = some (l, t) from hexec]
  rfl

/-- Request `k` was made by thread `i`. -/
def Made (st : DeviceRun ι ρ δ α) (i : ι) (k : ℕ) : Prop := ∃ r a, st.requests[k]? = some (i, r, a)

/-- Request `k` is outstanding, or its interrupt has come and the unit of the semaphore is there. -/
def InService (st : DeviceRun ι ρ δ α) (k : ℕ) : Prop :=
  (st.semaphore = 0 ∧ st.pending = [k]) ∨
    (st.semaphore = 1 ∧ st.pending = [] ∧ k ∈ st.completed)

/-- What the pattern keeps. `busy` is the flag of the device that the requests check. -/
structure Inv (busy : δ → Bool) (tid : ι → ℤ) (st : DeviceRun ι ρ δ α) : Prop where
  lock : st.toLock.Inv tid
  disciplined : st.toLock.Disciplined
  wellFormed : ∀ i, (st.threads i).wellFormed = true
  idle : (∀ i k, (st.threads i).pc ≠ .wait k) → st.semaphore = 0 ∧ st.pending = []
  waiting : ∀ i k, (st.threads i).pc = .wait k → st.InService k
  flag : st.pending = [] → busy st.device = false
  ticket : ∀ i k, (st.threads i).ticket = some k → st.Made i k
  behind : ∀ i k, (st.threads i).ticket = some k → (st.threads i).pc ≠ .wait k → k ∈ st.completed
  returned : ∀ i k, (i, k) ∈ st.returned → k ∈ st.completed ∧ st.Made i k

namespace Inv

variable {busy : δ → Bool}

omit [DecidableEq ι] in
theorem start {device : δ} (hdevice : busy device = false) :
    (start device : DeviceRun ι ρ δ α).Inv busy tid where
  lock := LockRun.Inv.start
  disciplined _ := rfl
  wellFormed _ := rfl
  idle _ := ⟨rfl, rfl⟩
  waiting _ _ hpc := by cases hpc
  flag _ := hdevice
  ticket _ _ hticket := by cases hticket
  behind _ _ hticket := by cases hticket
  returned _ _ hmem := by cases hmem

omit [DecidableEq ι] in
/-- A thread between its `Acquire` and its `Release` is the only one there. -/
theorem unique (h : st.Inv busy tid) {j : ι} (hi : (st.threads i).lock = ⟨.away, true⟩)
    (hj : (st.threads j).lock = ⟨.away, true⟩) : j = i := by
  have hunit {t : ι} (ht : (st.threads t).lock = ⟨.away, true⟩) :
      (st.toLock.threads t).hasUnit = true := by
    show (st.threads t).lock.hasUnit = true
    rw [ht]
    rfl
  exact h.lock.unit.unique (hunit hj) (hunit hi)

omit [DecidableEq ι] in
theorem lock_of_wait (h : st.Inv busy tid) {k : ℕ} (hpc : (st.threads i).pc = .wait k) :
    (st.threads i).lock = ⟨.away, true⟩ := by
  have hwell := h.wellFormed i
  rw [DeviceThread.wellFormed, hpc] at hwell
  exact of_decide_eq_true hwell

omit [DecidableEq ι] in
theorem lock_of_request (h : st.Inv busy tid) {r : ρ} (hpc : (st.threads i).pc = .request r) :
    (st.threads i).lock = ⟨.away, true⟩ := by
  have hwell := h.wellFormed i
  rw [DeviceThread.wellFormed, hpc] at hwell
  exact of_decide_eq_true hwell

omit [DecidableEq ι] in
/-- **One request at a time.** A thread that is to make a request finds the device idle. -/
theorem idle_of_request (h : st.Inv busy tid) {r : ρ} (hpc : (st.threads i).pc = .request r) :
    st.semaphore = 0 ∧ st.pending = [] ∧ busy st.device = false := by
  have hnone : ∀ j k, (st.threads j).pc ≠ .wait k := by
    intro j k hj
    rw [h.unique (h.lock_of_request hpc) (h.lock_of_wait hj), hpc] at hj
    cases hj
  obtain ⟨hsem, hpending⟩ := h.idle hnone
  exact ⟨hsem, hpending, h.flag hpending⟩

/-- A thread moves that neither waits before nor after. -/
theorem move (h : st.Inv busy tid) {t : DeviceThread ρ} {l : Lock}
    (hlock : LockRun.Inv tid { st with lock := l, threads := st.put i t }.toLock)
    (hdisciplined : LockRun.Disciplined { st with lock := l, threads := st.put i t }.toLock)
    (hwell : t.wellFormed = true) (hold : ∀ k, (st.threads i).pc ≠ .wait k)
    (hnew : ∀ k, t.pc ≠ .wait k)
    (hticket : t.ticket = none ∨ t.ticket = (st.threads i).ticket) :
    Inv busy tid { st with lock := l, threads := st.put i t } := by
  have hkept {k : ℕ} (hk : t.ticket = some k) : (st.threads i).ticket = some k := by
    rcases hticket with hticket | hticket
    · rw [hticket] at hk
      cases hk
    · rw [← hticket]
      exact hk
  refine ⟨hlock, hdisciplined, forall_put (P := fun _ t => t.wellFormed = true)
    (fun j _ => h.wellFormed j) hwell, fun hnone => h.idle fun j k hj => ?_,
    forall_put (P := fun _ t => ∀ k, t.pc = .wait k → st.InService k) (fun j _ => h.waiting j)
      (fun k hk => absurd hk (hnew k)), h.flag,
    forall_put (P := fun j t => ∀ k, t.ticket = some k → st.Made j k) (fun j _ => h.ticket j)
      (fun k hk => h.ticket i k (hkept hk)),
    forall_put (P := fun j t => ∀ k, t.ticket = some k → t.pc ≠ .wait k → k ∈ st.completed)
      (fun j _ => h.behind j) (fun k hk _ => h.behind i k (hkept hk) (hold k)), h.returned⟩
  by_cases hji : j = i
  · rw [hji] at hj
    exact hold k hj
  · refine hnone j k ?_
    show (st.put i t j).pc = .wait k
    rw [put_of_ne t hji]
    exact hj

/-- A thread goes on outside the lock, and neither waits before nor after. -/
theorem goto (h : st.Inv busy tid) {pc : DevicePc ρ}
    (hwell : (⟨(st.threads i).lock, pc⟩ : DeviceThread ρ).wellFormed = true)
    (hold : ∀ k, (st.threads i).pc ≠ .wait k) (hnew : ∀ k, pc ≠ .wait k)
    (hticket : (⟨(st.threads i).lock, pc⟩ : DeviceThread ρ).ticket = none) :
    (st.goto i pc).Inv busy tid :=
  h.move (l := st.lock) (t := ⟨(st.threads i).lock, pc⟩) (toLock_goto st i pc ▸ h.lock)
    (toLock_goto st i pc ▸ h.disciplined) hwell hold hnew (.inl hticket)

/-- A step in the lock. -/
theorem lockStep (h : st.Inv busy tid) {act : LockAct} {l : Lock} {t : LockThread}
    {pc : DevicePc ρ} (hmove : DeviceThread.LockMove (st.threads i).pc act t pc)
    (hexec : (st.threads i).lock.exec (tid i) st.lock act = some (l, t)) :
    Inv busy tid { st with lock := l, threads := st.put i ⟨t, pc⟩ } := by
  have hstep := toLock_exec h.wellFormed hmove hexec
  obtain ⟨hticket, hold, hnew⟩ := hmove.ticket (st.threads i).lock
  exact h.move (h.lock.exec h.disciplined hstep) (h.disciplined.exec hstep)
    (hmove.wellFormed (h.wellFormed i) (h.lock.wellFormed i) hexec) hold hnew (.inr hticket)

/-- A request is made. -/
theorem ask (h : st.Inv busy tid) {r : ρ} (hpc : (st.threads i).pc = .request r) (a : α)
    (device : δ) : (st.ask i r a device).Inv busy tid := by
  obtain ⟨hsem, hpending, -⟩ := h.idle_of_request hpc
  have hlock := h.lock_of_request hpc
  have hself : (st.ask i r a device).threads i = ⟨(st.threads i).lock, .wait st.requests.length⟩ :=
    put_self _
  have hmade {j : ι} {k : ℕ} (hk : st.Made j k) : (st.ask i r a device).Made j k := by
    obtain ⟨r', a', hk⟩ := hk
    exact ⟨r', a', List.getElem?_append_left (List.getElem?_eq_some_iff.mp hk).1 ▸ hk⟩
  have hwait {j : ι} {k : ℕ} (hj : j ≠ i) : (st.threads j).pc ≠ .wait k := by
    intro hpc'
    exact hj (h.unique hlock (h.lock_of_wait hpc'))
  refine ⟨toLock_goto st i _ ▸ h.lock, toLock_goto st i _ ▸ h.disciplined,
    forall_put (P := fun _ t => t.wellFormed = true) (fun j _ => h.wellFormed j) ?_,
    fun hnone => ?_, forall_put (P := fun _ t => ∀ k, t.pc = .wait k →
      (st.ask i r a device).InService k) (fun j hj k hk => absurd hk (hwait hj)) (fun k hk => ?_),
    fun hnil => ?_, forall_put (P := fun j t => ∀ k, t.ticket = some k →
      (st.ask i r a device).Made j k) (fun j _ k hk => hmade (h.ticket j k hk)) (fun k hk => ?_),
    forall_put (P := fun j t => ∀ k, t.ticket = some k → t.pc ≠ .wait k → k ∈ st.completed)
      (fun j _ => h.behind j) (fun k hk hne => ?_),
    fun j k hk => ⟨(h.returned j k hk).1, hmade (h.returned j k hk).2⟩⟩
  · exact decide_eq_true hlock
  · exact absurd (by rw [hself]) (hnone i st.requests.length)
  · cases hk
    exact .inl ⟨hsem, by rw [show (st.ask i r a device).pending = st.pending ++ [st.requests.length]
      from rfl, hpending]; rfl⟩
  · exact absurd hnil (List.append_ne_nil_of_right_ne_nil _ (List.cons_ne_nil _ _))
  · cases hk
    refine ⟨r, a, ?_⟩
    show (st.requests ++ [(i, r, a)])[st.requests.length]? = some (i, r, a)
    rw [List.getElem?_append_right le_rfl, Nat.sub_self]
    rfl
  · cases hk
    exact absurd rfl hne

/-- A thread finds the unit of its interrupt. -/
theorem pass (h : st.Inv busy tid) {k : ℕ} (hpc : (st.threads i).pc = .wait k)
    (hpos : 0 < st.semaphore) :
    Inv busy tid { st.goto i (.release k) with semaphore := st.semaphore - 1 } := by
  obtain ⟨hsem, hpending, hcompleted⟩ : st.semaphore = 1 ∧ st.pending = [] ∧ k ∈ st.completed := by
    rcases h.waiting i k hpc with ⟨hsem, -⟩ | hdone
    · omega
    · exact hdone
  have hlock := h.lock_of_wait hpc
  have hwait {j : ι} {k : ℕ} (hj : j ≠ i) : (st.threads j).pc ≠ .wait k := by
    intro hpc'
    exact hj (h.unique hlock (h.lock_of_wait hpc'))
  have hnone : ∀ j k', (st.put i ⟨(st.threads i).lock, .release k⟩ j).pc ≠ .wait k' :=
    forall_put (P := fun _ t => ∀ k', t.pc ≠ .wait k') (fun j hj k' => hwait hj) (by nofun)
  have hticket : (st.threads i).ticket = some k := by rw [DeviceThread.ticket, hpc]
  refine ⟨toLock_goto st i _ ▸ h.lock, toLock_goto st i _ ▸ h.disciplined,
    forall_put (P := fun _ t => t.wellFormed = true) (fun j _ => h.wellFormed j) ?_,
    fun _ => ⟨by show st.semaphore - 1 = 0; omega, hpending⟩,
    fun j k' hj => absurd hj (hnone j k'), h.flag,
    forall_put (P := fun j t => ∀ k, t.ticket = some k → st.Made j k) (fun j _ => h.ticket j)
      (fun k' hk => ?_),
    forall_put (P := fun j t => ∀ k, t.ticket = some k → t.pc ≠ .wait k → k ∈ st.completed)
      (fun j _ => h.behind j) (fun k' hk _ => ?_), h.returned⟩
  · exact decide_eq_true hlock
  · cases hk
    exact h.ticket i k hticket
  · cases hk
    exact hcompleted

/-- A call returns. -/
theorem leave (h : st.Inv busy tid) {k : ℕ} (hpc : (st.threads i).pc = .leave k) :
    Inv busy tid { st.goto i .away with returned := st.returned ++ [(i, k)] } := by
  have hwell := h.wellFormed i
  rw [DeviceThread.wellFormed, hpc] at hwell
  have hticket : (st.threads i).ticket = some k := by rw [DeviceThread.ticket, hpc]
  have hgone : (st.goto i .away).Inv busy tid := h.goto hwell (by rw [hpc]; nofun) (by nofun) rfl
  refine ⟨hgone.lock, hgone.disciplined, hgone.wellFormed, hgone.idle, hgone.waiting, hgone.flag,
    hgone.ticket, hgone.behind, fun j k' hmem => ?_⟩
  rcases List.mem_append.mp hmem with hmem | hmem
  · exact h.returned j k' hmem
  · cases List.mem_singleton.mp hmem
    exact ⟨h.behind i k hticket (by rw [hpc]; nofun), h.ticket i k hticket⟩

omit [DecidableEq ι] in
/-- A completion interrupt comes. -/
theorem finish (h : st.Inv busy tid) (hcomplete : ∀ device, busy (driver.complete device) = false)
    {k : ℕ} (hk : k ∈ st.pending) : (st.finish driver k).Inv busy tid := by
  have hkept {j : ℕ} (hj : j ∈ st.completed) : j ∈ (st.finish driver k).completed :=
    List.mem_append_left _ hj
  refine ⟨h.lock, h.disciplined, h.wellFormed, fun hnone => ?_, fun i j hpc => ?_,
    fun _ => hcomplete _, h.ticket, fun i j hj hne => hkept (h.behind i j hj hne),
    fun i j hj => ⟨hkept (h.returned i j hj).1, (h.returned i j hj).2⟩⟩
  · rw [(h.idle hnone).2] at hk
    cases hk
  · rcases h.waiting i j hpc with ⟨hsem, hpending⟩ | ⟨-, hpending, -⟩
    · rw [hpending] at hk
      cases List.mem_singleton.mp hk
      refine .inr ⟨congrArg Units.V hsem, ?_, List.mem_append_right _ (List.mem_singleton_self _)⟩
      show st.pending.erase k = []
      rw [hpending, List.erase_cons_head]
    · rw [hpending] at hk
      cases hk

/-- **Every step keeps the invariant.** -/
theorem exec (h : st.Inv busy tid) (hcomplete : ∀ device, busy (driver.complete device) = false)
    {act : DeviceAct ι κ ω} (hexec : st.exec driver tid act = some st') : st'.Inv busy tid := by
  cases move_of_exec hexec with
  | skip => exact h
  | call i c r hpc _ =>
      have hwell := h.wellFormed i
      rw [DeviceThread.wellFormed, hpc] at hwell
      exact h.goto hwell (by rw [hpc]; nofun) (by nofun) rfl
  | lock hmove hthread => exact h.lockStep hmove hthread
  | ask i r oracle a device hpc _ => exact h.ask hpc a device
  | pass i k hpc hpos => exact h.pass hpc hpos
  | leave i k hpc => exact h.leave hpc
  | finish k hk => exact h.finish hcomplete hk

/-- The invariant holds in every run. -/
theorem run (hcomplete : ∀ device, busy (driver.complete device) = false) {device : δ}
    (hdevice : busy device = false) {steps : List (Step (DeviceRun ι ρ δ α) (DeviceAct ι κ ω))}
    (hrun : Run driver tid (DeviceRun.start device) steps st) : st.Inv busy tid :=
  (Trace.invariant_of_forall (I := Inv busy tid) (fun _ hbefore hexec => hbefore.exec hcomplete hexec)
    hrun (Inv.start hdevice)).1

end Inv

/-! ## The calls of a thread -/

/-- Where a thread is with its call. -/
inductive CallPlace (ρ : Type)
  | outside
  /-- It has come with a request that it has not made. -/
  | planned (r : ρ)
  /-- It has made request number `k`. -/
  | made (k : ℕ)
  deriving DecidableEq, Repr

/-- What a thread does with its call. -/
inductive CallEvent (ρ : Type)
  | called (r : ρ)
  | asked (k : ℕ)
  | returned (k : ℕ)
  deriving DecidableEq, Repr

/-- A call of thread `i`, its request and its return, in this order. -/
inductive CallStep (i : ι) (requests : List (ι × ρ × α)) :
    CallPlace ρ → CallEvent ρ → CallPlace ρ → Prop
  | called (r : ρ) : CallStep i requests .outside (.called r) (.planned r)
  | asked (r : ρ) (a : α) (k : ℕ) : requests[k]? = some (i, r, a) →
      CallStep i requests (.planned r) (.asked k) (.made k)
  | returned (k : ℕ) : CallStep i requests (.made k) (.returned k) .outside

/-- The place of a thread with its call. -/
def callPlace (t : DeviceThread ρ) : CallPlace ρ :=
  match t.pc with
  | .away => .outside
  | .acquire r | .acquiring r | .request r => .planned r
  | .wait k | .release k | .releasing k | .leave k => .made k

/-- What thread `i` does with its call in a step: it calls, an entry is added to the requests, or
one to the calls that have returned. -/
def callEvent (driver : Driver κ ρ ω δ α) (i : ι)
    (x : Step (DeviceRun ι ρ δ α) (DeviceAct ι κ ω)) : Option (CallEvent ρ) :=
  match x.label with
  | .call j c =>
      match driver.prepare c with
      | .ok (some r) => if j = i then some (.called r) else none
      | _ => none
  | .step j _ =>
      if j = i then
        if x.before.requests.length < x.after.requests.length then
          some (.asked x.before.requests.length)
        else (x.after.returned.drop x.before.returned.length).head?.map fun entry =>
          .returned entry.2
      else none
  | .interrupt _ => none

/-- The calls, requests and returns of every thread come in this order: a request is made between
the call and the return of its caller. -/
def WithinCalls (driver : Driver κ ρ ω δ α)
    (steps : List (Step (DeviceRun ι ρ δ α) (DeviceAct ι κ ω))) (st : DeviceRun ι ρ δ α) : Prop :=
  ∀ i, ∃ calls, calls.map (fun x => x.label) = steps.filterMap (callEvent driver i) ∧
    Trace (CallStep i st.requests) .outside calls (callPlace (st.threads i))

omit [DecidableEq ι] in
theorem CallStep.mono {requests requests' : List (ι × ρ × α)} (hle : requests <+: requests')
    {place place' : CallPlace ρ} {event : CallEvent ρ}
    (h : CallStep i requests place event place') : CallStep i requests' place event place' := by
  obtain ⟨rest, rfl⟩ := hle
  cases h with
  | called r => exact .called r
  | asked r a k hk =>
      refine .asked r a k ?_
      rw [List.getElem?_append_left (List.getElem?_eq_some_iff.mp hk).1]
      exact hk
  | returned k => exact .returned k

/-- What a step does with the call of a thread. -/
inductive Calls (driver : Driver κ ρ ω δ α) (i : ι) (st : DeviceRun ι ρ δ α)
    (act : DeviceAct ι κ ω) (st' : DeviceRun ι ρ δ α) : Prop
  | same : callEvent driver i ⟨st, act, st'⟩ = none →
      callPlace (st'.threads i) = callPlace (st.threads i) → Calls driver i st act st'
  | event (e : CallEvent ρ) : callEvent driver i ⟨st, act, st'⟩ = some e →
      CallStep i st'.requests (callPlace (st.threads i)) e (callPlace (st'.threads i)) →
      Calls driver i st act st'

/-- A step that adds no entry. -/
theorem Calls.of_same {j : ι} {oracle : ω} (hrequests : st'.requests = st.requests)
    (hreturned : st'.returned = st.returned) {t : DeviceThread ρ}
    (hthreads : st'.threads = st.put j t) (ht : callPlace t = callPlace (st.threads j)) (i : ι) :
    Calls driver i st (.step j oracle) st' := by
  refine .same (by simp [callEvent, hrequests, hreturned]) ?_
  rw [hthreads]
  exact forall_put (P := fun i t => callPlace t = callPlace (st.threads i)) (fun _ _ => rfl) ht i

/-- A step in the lock. -/
theorem Calls.of_lockStep {j : ι} {oracle : ω} {act : LockAct} {next : LockThread → DevicePc ρ}
    (hnext : ∀ t, callPlace ⟨t, next t⟩ = callPlace (st.threads j))
    (h : st.lockStep tid j act next = some st') (i : ι) :
    Calls driver i st (.step j oracle) st' := by
  obtain ⟨⟨l, t⟩, -, rfl⟩ := Option.map_eq_some_iff.mp h
  refine .of_same ?_ ?_ ?_ (hnext t) i <;> rfl

/-- **One step** of a thread is the next of its call, its request and its return, or none of
them. -/
theorem calls_of_exec {act : DeviceAct ι κ ω} (h : st.exec driver tid act = some st') (i : ι) :
    Calls driver i st act st' := by
  cases act with
  | call j c =>
      obtain ⟨hpc, ⟨hprepare, rfl⟩ | ⟨r, hprepare, rfl⟩⟩ := call_of_exec h
      · exact .same (by simp [callEvent, hprepare]) rfl
      · by_cases hj : j = i
        · subst hj
          refine .event (.called r) (by simp [callEvent, hprepare]) ?_
          rw [show (st.goto j (.acquire r)).threads j = ⟨(st.threads j).lock, .acquire r⟩ from
            put_self _, callPlace, hpc]
          exact .called r
        · refine .same (by simp [callEvent, hprepare, hj]) ?_
          rw [show (st.goto j (.acquire r)).threads i = st.threads i from
            put_of_ne _ (Ne.symm hj)]
  | interrupt k =>
      obtain ⟨-, hfinish⟩ := Option.ite_none_right_eq_some.mp h
      cases hfinish
      exact .same rfl rfl
  | step j oracle =>
      simp only [exec] at h
      split at h
      next => cases h
      next r hpc => exact .of_lockStep (fun t => by simp [callPlace, hpc]) h i
      next r hpc =>
        refine .of_lockStep (fun t => ?_) h i
        split <;> simp [callPlace, hpc]
      next r hpc =>
        split at h
        next a device hrequest =>
          obtain rfl := Option.some.inj h
          by_cases hj : j = i
          · subst hj
            refine .event (.asked st.requests.length) (by simp [callEvent, ask]) ?_
            rw [show (st.ask j r a device).threads j =
              ⟨(st.threads j).lock, .wait st.requests.length⟩ from put_self _, callPlace, hpc]
            exact .asked r a _ (by simp [ask])
          · refine .same (by simp [callEvent, hj]) ?_
            rw [show (st.ask j r a device).threads i = st.threads i from put_of_ne _ (Ne.symm hj)]
        next => cases h
      next k hpc =>
        obtain ⟨units, -, rfl⟩ := Option.map_eq_some_iff.mp h
        have hplace : callPlace ⟨(st.threads j).lock, .release k⟩ = callPlace (st.threads j) := by
          simp [callPlace, hpc]
        refine .of_same ?_ ?_ ?_ hplace i <;> rfl
      next k hpc => exact .of_lockStep (fun t => by simp [callPlace, hpc]) h i
      next k hpc =>
        refine .of_lockStep (fun t => ?_) h i
        split <;> simp [callPlace, hpc]
      next k hpc =>
        obtain rfl := Option.some.inj h
        by_cases hj : j = i
        · subst hj
          refine .event (.returned k) (by simp [callEvent, goto]) ?_
          rw [show ({ st.goto j .away with returned := st.returned ++ [(j, k)] } :
            DeviceRun ι ρ δ α).threads j = ⟨(st.threads j).lock, .away⟩ from put_self _,
            callPlace, hpc]
          exact .returned k
        · refine .same (by simp [callEvent, hj]) ?_
          exact congrArg callPlace (put_of_ne _ (Ne.symm hj))

/-- The requests are only added to. -/
theorem requests_grow {act : DeviceAct ι κ ω} (h : st.exec driver tid act = some st') :
    st.requests <+: st'.requests := by
  rcases requests_of_exec h with ⟨hrequests, -⟩ | ⟨i, r, -, a, -, -, hrequests⟩
  · rw [hrequests]
  · rw [hrequests]
    exact List.prefix_append ..

/-- **Every request is made within its call.** -/
theorem withinCalls_of_run {device : δ}
    {steps : List (Step (DeviceRun ι ρ δ α) (DeviceAct ι κ ω))}
    (hrun : Run driver tid (DeviceRun.start device) steps st) : WithinCalls driver steps st := by
  intro i
  generalize hfirst : (DeviceRun.start device : DeviceRun ι ρ δ α) = first at hrun
  induction hrun with
  | nil =>
      subst hfirst
      exact ⟨[], rfl, .nil _⟩
  | @snoc t u steps act _ hexec ih =>
      obtain ⟨calls, hlabels, htrace⟩ := ih
      have htrace' : Trace (CallStep i u.requests) .outside calls (callPlace (t.threads i)) :=
        htrace.mono fun _ _ _ hcall => hcall.mono (requests_grow hexec)
      cases calls_of_exec hexec i with
      | same hnone hplace =>
          refine ⟨calls, ?_, hplace ▸ htrace'⟩
          rw [List.filterMap_append, hlabels, List.filterMap_cons_none hnone]
          exact (List.append_nil _).symm
      | event e hevent hcall =>
          refine ⟨_, ?_, htrace'.snoc hcall⟩
          rw [List.filterMap_append, List.map_append, hlabels, List.filterMap_cons_some hevent]
          rfl

end DeviceRun

end Nachos.Synch
