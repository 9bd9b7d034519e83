/-
# Synchronized lists

`SynchList` is a monitor: `Append` and `Remove` work on the list while they hold a lock, and
a consumer that finds the list empty waits on a condition variable. The condition variable
does not hand anything over. A consumer that never waited can take the item a signal was
for, and a woken consumer can find the list empty again. That no consumer is left asleep
beside a non-empty list is an account: while a sleeper is counted, the list has no more
items than there are units, woken consumers and producers on the way to their signal.
-/

import Nachos.Threads.Condition

namespace Nachos.Synch

open Base

/-- What a thread came for. -/
inductive ListJob (α : Type)
  | append (item : α)
  | remove
  deriving DecidableEq, Repr

/-- Where a thread is in the functions of a synchronized list. -/
inductive ListPc (α : Type)
  | away
  /-- At the call of `lock->Acquire()`. -/
  | acquire (job : ListJob α)
  /-- In `lock->Acquire()`. -/
  | acquiring (job : ListJob α)
  /-- `Append`, at `list->Append(item)`. -/
  | insert (item : α)
  /-- `Append`, at the call of `listEmpty->Signal(lock)`. -/
  | signal
  /-- `Append`, in `listEmpty->Signal(lock)`. -/
  | signalling
  /-- `Remove`, at the test of the loop. -/
  | test
  /-- `Remove`, at the call of `listEmpty->Wait(lock)`. -/
  | wait
  /-- `Remove`, in `listEmpty->Wait(lock)`. -/
  | waiting
  /-- `Remove`, at `list->Remove()` and the assertion. -/
  | take
  /-- At the call of `lock->Release()`. -/
  | release
  /-- In `lock->Release()`. -/
  | releasing
  /-- The assertion has failed. -/
  | aborted
  deriving DecidableEq, Repr

/-- A thread as a user of a synchronized list. -/
structure ListThread (α : Type) where
  cond : CondThread
  pc : ListPc α
  deriving DecidableEq, Repr

/-- The item that a thread in `Append` has not put into the list yet. -/
def ListPc.appending {α : Type} : ListPc α → Option α
  | .acquire (.append item) | .acquiring (.append item) | .insert item => some item
  | _ => none

/-- The thread is in `Remove` and has not taken an item yet. -/
def ListPc.removing {α : Type} : ListPc α → Bool
  | .acquire .remove | .acquiring .remove | .test | .wait | .waiting | .take => true
  | _ => false

/-- What a thread does next. The items are not `NULL`. -/
inductive ListAct (α : Type)
  | call (job : ListJob α)
  | step
  deriving DecidableEq, Repr

/-- A synchronized list with the threads that use it, and the items that were ever appended
and removed. -/
structure ListRun (ι α : Type) where
  lock : Lock
  listEmpty : Condition
  list : List α
  threads : ι → ListThread α
  appended : List α
  removed : List α

namespace ListRun

variable {ι α : Type} [DecidableEq ι]

/-- `SynchList::SynchList`. -/
def start : ListRun ι α :=
  ⟨Lock.new, Condition.new, [], fun _ => ⟨CondThread.new, .away⟩, [], []⟩

/-- A step of thread `i` in the lock or the condition variable; it comes to `next`. -/
def condStep (tid : ι → ℤ) (st : ListRun ι α) (i : ι) (act : CondAct)
    (next : CondThread → ListPc α) : Option (ListRun ι α) :=
  ((st.threads i).cond.exec (tid i) st.lock st.listEmpty act).map fun (l, c, t) =>
    { st with lock := l, listEmpty := c, threads := Function.update st.threads i ⟨t, next t⟩ }

/-- Thread `i` goes on to `pc` without a step in the lock or the condition variable. -/
def goto (st : ListRun ι α) (i : ι) (pc : ListPc α) : ListRun ι α :=
  { st with threads := Function.update st.threads i ⟨(st.threads i).cond, pc⟩ }

/-- Where a thread goes on when it has the lock. -/
def entered : ListJob α → ListPc α
  | .append item => .insert item
  | .remove => .test

/-- One step of thread `i`. -/
def exec (tid : ι → ℤ) (st : ListRun ι α) : ι × ListAct α → Option (ListRun ι α)
  | (i, .call job) =>
      match (st.threads i).pc with
      | .away => some (st.goto i (.acquire job))
      | _ => none
  | (i, .step) =>
      match (st.threads i).pc with
      | .away | .aborted => none
      | .acquire job => st.condStep tid i (.lock .acquire) fun _ => .acquiring job
      | .acquiring job =>
          st.condStep tid i (.lock .step) fun t =>
            if t.lock.pc = .away then entered job else .acquiring job
      | .insert item =>
          some { st.goto i .signal with
            list := st.list ++ [item], appended := st.appended ++ [item] }
      | .signal => st.condStep tid i (.wake .signal) fun _ => .signalling
      | .signalling =>
          st.condStep tid i .step fun t => if t.pc = .away then .release else .signalling
      | .test => some (st.goto i (if st.list.isEmpty then .wait else .take))
      | .wait => st.condStep tid i .wait fun _ => .waiting
      | .waiting => st.condStep tid i .step fun t => if t.pc = .away then .test else .waiting
      | .take =>
          match st.list with
          | [] => some (st.goto i .aborted)
          | item :: rest =>
              some { st.goto i .release with list := rest, removed := st.removed ++ [item] }
      | .release => st.condStep tid i (.lock .release) fun _ => .releasing
      | .releasing =>
          st.condStep tid i (.lock .step) fun t => if t.lock.pc = .away then .away else .releasing

/-- The runs of any producers and consumers. -/
def Run (tid : ι → ℤ) (st : ListRun ι α) (steps : List (Step (ListRun ι α) (ι × ListAct α)))
    (st' : ListRun ι α) : Prop :=
  Trace (fun s call t => exec tid s call = some t) st steps st'

/-- The condition variable, its lock, and the places of the threads in them. -/
def toCond (st : ListRun ι α) : CondRun ι := ⟨st.lock, st.listEmpty, fun i => (st.threads i).cond⟩

end ListRun

namespace ListThread

variable {α : Type}

/-- What the place of a thread in the list says about its place in the condition variable
and the lock. -/
def wellFormed (t : ListThread α) : Bool :=
  match t.pc with
  | .away | .acquire _ => decide (t.cond = ⟨⟨.away, false⟩, .away⟩)
  | .acquiring _ => decide (t.cond.pc = .away) && t.cond.lock.pc.inAcquire
  | .insert _ | .signal | .test | .wait | .take | .release =>
      decide (t.cond = ⟨⟨.away, true⟩, .away⟩)
  | .signalling => t.cond.pc.inSignal
  | .waiting => t.cond.pc.inWait
  | .releasing => decide (t.cond.pc = .away) && t.cond.lock.pc.inRelease
  | .aborted => false

/-- The thread is on its way to look at the list, or to the `sleepLock->V()` of its signal. -/
def enRoute (t : ListThread α) : Bool :=
  match t.pc with
  | .signal | .test | .take => true
  | .signalling => decide (t.cond.pc ∈ [.enter .signal, .test .signal, .wake .signal])
  | .waiting => decide (t.cond.pc ∈ [.reacquire, .reacquiring])
  | _ => false

/-- The thread has found the list empty and is not yet counted as a sleeper. -/
def sawEmpty (t : ListThread α) : Bool :=
  match t.pc with
  | .wait => true
  | .waiting => decide (t.cond.pc ∈ [.enterWait, .register])
  | _ => false

/-- The steps in the lock and the condition variable, with where they lead. -/
inductive CondMove : ListPc α → CondAct → CondThread → ListPc α → Prop
  | acquire (job : ListJob α) (t : CondThread) :
      CondMove (.acquire job) (.lock .acquire) t (.acquiring job)
  | acquiring (job : ListJob α) (t : CondThread) :
      CondMove (.acquiring job) (.lock .step) t
        (if t.lock.pc = .away then ListRun.entered job else .acquiring job)
  | signal (t : CondThread) : CondMove .signal (.wake .signal) t .signalling
  | signalling (t : CondThread) :
      CondMove .signalling .step t (if t.pc = .away then .release else .signalling)
  | wait (t : CondThread) : CondMove .wait .wait t .waiting
  | waiting (t : CondThread) : CondMove .waiting .step t (if t.pc = .away then .test else .waiting)
  | release (t : CondThread) : CondMove .release (.lock .release) t .releasing
  | releasing (t : CondThread) :
      CondMove .releasing (.lock .step) t (if t.lock.pc = .away then .away else .releasing)

namespace CondMove

variable {tid : ℤ} {l l' : Lock} {c c' : Condition} {old t : CondThread} {pc pc' : ListPc α}
  {act : CondAct}

/-- The functions of the lock and the condition variable that need the lock are called by
threads that hold it. -/
theorem needsLock (h : CondMove pc act t pc') (hwell : (⟨old, pc⟩ : ListThread α).wellFormed = true)
    (hneeds : CondRun.needsLock act = true) : old.lock.holds = true := by
  cases h with
  | signal | wait | release =>
      obtain rfl : old = ⟨⟨.away, true⟩, .away⟩ := of_decide_eq_true hwell
      rfl
  | _ => cases hneeds

/-- A step leads to a place that goes with the place in the condition variable. -/
theorem wellFormed (h : CondMove pc act t pc') (hwell : (⟨old, pc⟩ : ListThread α).wellFormed = true)
    (hcond : old.wellFormed = true) (hlock : old.lock.wellFormed = true)
    (hexec : old.exec tid l c act = some (l', c', t)) :
    (⟨t, pc'⟩ : ListThread α).wellFormed = true := by
  obtain ⟨⟨lpc, holds⟩, cpc⟩ := old
  cases h with
  | acquire | signal | wait | release =>
      cases of_decide_eq_true hwell
      cases hexec
      rfl
  | acquiring job =>
      obtain ⟨hpc, hin⟩ := Bool.and_eq_true_iff.mp hwell
      cases of_decide_eq_true hpc
      obtain ⟨⟨l', lt⟩, hlt, heq⟩ := Option.map_eq_some_iff.mp hexec
      cases heq
      obtain hin | rfl := LockThread.acquiring_of_exec hin hlt
      · have hne : lt.pc ≠ .away := fun hpc => by rw [hpc] at hin; cases hin
        simp only [hne, if_false, ListThread.wellFormed, hin]
        rfl
      · cases job <;> rfl
  | releasing =>
      obtain ⟨hpc, hin⟩ := Bool.and_eq_true_iff.mp hwell
      cases of_decide_eq_true hpc
      obtain ⟨⟨l', lt⟩, hlt, heq⟩ := Option.map_eq_some_iff.mp hexec
      cases heq
      obtain hin | rfl := LockThread.releasing_of_exec hin hlock hlt
      · have hne : lt.pc ≠ .away := fun hpc => by rw [hpc] at hin; cases hin
        simp only [hne, if_false, ListThread.wellFormed, hin]
        rfl
      · rfl
  | signalling =>
      obtain hin | rfl := CondThread.signalling_of_exec hwell hcond hexec
      · have hne : t.pc ≠ .away := fun hpc => by rw [hpc] at hin; cases hin
        simp only [hne, if_false, ListThread.wellFormed, hin]
      · rfl
  | waiting =>
      obtain hin | rfl := CondThread.waiting_of_exec hwell hcond hexec
      · have hne : t.pc ≠ .away := fun hpc => by rw [hpc] at hin; cases hin
        simp only [hne, if_false, ListThread.wellFormed, hin]
      · rfl

/-- No step in the condition variable leads to `list->Remove()`. -/
theorem ne_take (h : CondMove pc act t pc') : pc' ≠ .take := by
  cases h with
  | acquire | signal | wait | release => exact nofun
  | acquiring job => cases job <;> simp only [ListRun.entered] <;> split <;> exact nofun
  | signalling | waiting | releasing => split <;> exact nofun

/-- No step in the condition variable appends the item of the thread. -/
theorem appending (h : CondMove pc act t pc') : pc'.appending = pc.appending := by
  cases h with
  | acquire job => cases job <;> rfl
  | signal | wait | release => rfl
  | acquiring job => cases job <;> simp only [ListRun.entered] <;> split <;> rfl
  | signalling | waiting | releasing => split <;> rfl

/-- No step in the condition variable leads into `Remove`. -/
theorem removing (h : CondMove pc act t pc') (hremoving : pc'.removing = true) :
    pc.removing = true := by
  cases h with
  | signal | release => cases hremoving
  | wait | waiting => rfl
  | acquire job =>
      cases job with
      | append item => cases hremoving
      | remove => rfl
  | acquiring job =>
      cases job with
      | append item =>
          simp only [ListRun.entered] at hremoving
          split at hremoving <;> cases hremoving
      | remove => rfl
  | signalling | releasing => split at hremoving <;> cases hremoving

/-- A step in the lock leaves the condition variable alone. -/
theorem cond_of_lock {lockAct : LockAct} (hexec : old.exec tid l c (.lock lockAct) = some (l', c', t)) :
    c' = c := by
  obtain ⟨-, hmap⟩ := Option.ite_none_right_eq_some.mp hexec
  obtain ⟨x, -, heq⟩ := Option.map_eq_some_iff.mp hmap
  cases heq
  rfl

/-- A thread is about to count itself as a sleeper only after it has found the list empty. -/
theorem sawEmpty (h : CondMove pc act t pc') (hexec : old.exec tid l c act = some (l', c', t))
    (hsaw : (⟨t, pc'⟩ : ListThread α).sawEmpty = true) :
    (⟨old, pc⟩ : ListThread α).sawEmpty = true := by
  cases h with
  | acquire | signal | release => cases hsaw
  | acquiring job =>
      cases job <;> by_cases hpc : t.lock.pc = .away <;>
        simp [ListThread.sawEmpty, ListRun.entered, hpc] at hsaw
  | signalling => by_cases hpc : t.pc = .away <;> simp [ListThread.sawEmpty, hpc] at hsaw
  | releasing => by_cases hpc : t.lock.pc = .away <;> simp [ListThread.sawEmpty, hpc] at hsaw
  | wait => rfl
  | waiting =>
      have hpc : t.pc = .enterWait ∨ t.pc = .register := by
        by_cases hpc : t.pc = .away
        · simp [ListThread.sawEmpty, hpc] at hsaw
        · simpa [ListThread.sawEmpty, hpc] using hsaw
      obtain hpc | hpc := hpc
      · cases CondThread.act_of_enterWait hexec hpc
      · simp only [ListThread.sawEmpty, decide_eq_true_eq]
        rw [CondThread.pc_of_register hexec hpc]
        simp

/-- The account in `Signal`. -/
theorem account_signalling (hwell : old.pc.inSignal = true)
    (hexec : old.exec tid l c .step = some (l', c', t)) (hpos : 0 < c'.totalSleepers) :
    0 < c.totalSleepers ∧
      c.sleepLock + (if old.pc ∈ [.enter .signal, .test .signal, .wake .signal] then 1 else 0) ≤
        c'.sleepLock + if t.pc ∈ [.enter .signal, .test .signal, .wake .signal] then 1 else 0 := by
  obtain ⟨lock, cpc⟩ := old
  cases cpc with
  | enter waker =>
      obtain ⟨units, -, heq⟩ := Option.map_eq_some_iff.mp hexec
      cases heq
      cases waker with
      | broadcast => cases hwell
      | signal => exact ⟨hpos, by simp⟩
  | test waker =>
      simp only [CondThread.exec] at hexec
      split at hexec
      next =>
        cases hexec
        cases waker with
        | broadcast => cases hwell
        | signal => exact ⟨hpos, by simp⟩
      next hnot =>
        cases hexec
        exact absurd hpos hnot
  | wake waker =>
      cases hexec
      cases waker with
      | broadcast => cases hwell
      | signal => exact ⟨hpos, by simp [Units.V]⟩
  | count waker =>
      cases hexec
      cases waker with
      | broadcast => cases hwell
      | signal => exact ⟨Int.lt_trans hpos (Int.sub_lt_self _ (by decide)), by simp⟩
  | leave waker =>
      cases hexec
      exact ⟨hpos, by simp⟩
  | _ => cases hwell

/-- The account in `Wait`. -/
theorem account_waiting (hwell : old.pc.inWait = true)
    (hexec : old.exec tid l c .step = some (l', c', t)) (hpos : 0 < c'.totalSleepers) :
    (0 < c.totalSleepers ∨ old.pc = .register) ∧
      c.sleepLock + (if old.pc ∈ [.reacquire, .reacquiring] then 1 else 0) ≤
        c'.sleepLock + if t.pc ∈ [.away, .reacquire, .reacquiring] then 1 else 0 := by
  obtain ⟨lock, cpc⟩ := old
  cases cpc with
  | enterWait =>
      obtain ⟨units, -, heq⟩ := Option.map_eq_some_iff.mp hexec
      cases heq
      exact ⟨.inl hpos, by simp⟩
  | register =>
      cases hexec
      exact ⟨.inr rfl, by simp⟩
  | release | reacquire =>
      obtain ⟨x, -, heq⟩ := Option.map_eq_some_iff.mp hexec
      cases heq
      exact ⟨.inl hpos, by simp⟩
  | releasing =>
      obtain ⟨⟨l', lt⟩, -, heq⟩ := Option.map_eq_some_iff.mp hexec
      cases heq
      exact ⟨.inl hpos, by simp⟩
  | leaveWait =>
      cases hexec
      exact ⟨.inl hpos, by simp⟩
  | sleep =>
      obtain ⟨units, hunits, heq⟩ := Option.map_eq_some_iff.mp hexec
      obtain ⟨hunit, rfl⟩ := Units.P_eq_some.mp hunits
      cases heq
      refine ⟨.inl hpos, ?_⟩
      simp
      omega
  | reacquiring =>
      obtain ⟨⟨l', lt⟩, hlt, heq⟩ := Option.map_eq_some_iff.mp hexec
      cases heq
      refine ⟨.inl hpos, ?_⟩
      by_cases hpc : lt.pc = .away <;> simp [hpc]
  | _ => cases hwell

/-- What a step in the condition variable does to the account of the list. -/
theorem account (h : CondMove pc act t pc') (hwell : (⟨old, pc⟩ : ListThread α).wellFormed = true)
    (hexec : old.exec tid l c act = some (l', c', t)) (hpos : 0 < c'.totalSleepers) :
    (0 < c.totalSleepers ∨ (⟨old, pc⟩ : ListThread α).sawEmpty = true) ∧
      c.sleepLock + (if (⟨old, pc⟩ : ListThread α).enRoute then 1 else 0) ≤
        c'.sleepLock + if (⟨t, pc'⟩ : ListThread α).enRoute then 1 else 0 := by
  cases h with
  | acquire | acquiring | release | releasing =>
      cases cond_of_lock hexec
      exact ⟨.inl hpos, Nat.add_le_add_left (Nat.zero_le _) _⟩
  | signal =>
      obtain ⟨-, heq⟩ := Option.ite_none_right_eq_some.mp hexec
      cases heq
      exact ⟨.inl hpos, le_rfl⟩
  | wait =>
      obtain ⟨-, heq⟩ := Option.ite_none_right_eq_some.mp hexec
      cases heq
      exact ⟨.inl hpos, le_rfl⟩
  | signalling =>
      obtain ⟨hold, hle⟩ := account_signalling hwell hexec hpos
      refine ⟨.inl hold, ?_⟩
      by_cases hpc : t.pc = .away <;> simpa [ListThread.enRoute, hpc] using hle
  | waiting =>
      obtain ⟨hold, hle⟩ := account_waiting hwell hexec hpos
      refine ⟨hold.imp_right fun (hpc : old.pc = .register) => by simp [ListThread.sawEmpty, hpc], ?_⟩
      by_cases hpc : t.pc = .away <;> simpa [ListThread.enRoute, hpc] using hle

end CondMove

end ListThread

namespace ListRun

variable {ι α : Type} [DecidableEq ι] {tid : ι → ℤ} {st st' : ListRun ι α} {i : ι}

/-- One thread is replaced. -/
def put (st : ListRun ι α) (i : ι) (t : ListThread α) : ι → ListThread α :=
  Function.update st.threads i t

theorem put_self (t : ListThread α) : st.put i t i = t := Function.update_self ..

theorem put_of_ne (t : ListThread α) {j : ι} (hj : j ≠ i) : st.put i t j = st.threads j :=
  Function.update_of_ne hj ..

/-- A fact about the threads in some places, when one is replaced. -/
theorem forall_imp_put {q : ListThread α → Prop} {P : ι → Prop} {t : ListThread α}
    (hold : ∀ j, q (st.threads j) → P j) (ht : q t → P i) (j : ι) (hj : q (st.put i t j)) : P j := by
  by_cases hji : j = i
  · subst hji
    rw [put_self] at hj
    exact ht hj
  · rw [put_of_ne t hji] at hj
    exact hold j hj

/-- Everything a step can do. -/
inductive Move (tid : ι → ℤ) (st : ListRun ι α) (i : ι) : ListRun ι α → Prop
  | call (job : ListJob α) : (st.threads i).pc = .away → Move tid st i (st.goto i (.acquire job))
  | insert (item : α) : (st.threads i).pc = .insert item →
      Move tid st i { st.goto i .signal with
        list := st.list ++ [item], appended := st.appended ++ [item] }
  | empty : (st.threads i).pc = .test → st.list = [] → Move tid st i (st.goto i .wait)
  | nonempty : (st.threads i).pc = .test → st.list ≠ [] → Move tid st i (st.goto i .take)
  | abort : (st.threads i).pc = .take → st.list = [] → Move tid st i (st.goto i .aborted)
  | take (item : α) (rest : List α) : (st.threads i).pc = .take → st.list = item :: rest →
      Move tid st i { st.goto i .release with list := rest, removed := st.removed ++ [item] }
  | cond {act : CondAct} {l : Lock} {c : Condition} {t : CondThread} {pc : ListPc α} :
      ListThread.CondMove (st.threads i).pc act t pc →
      (st.threads i).cond.exec (tid i) st.lock st.listEmpty act = some (l, c, t) →
      Move tid st i { st with lock := l, listEmpty := c, threads := st.put i ⟨t, pc⟩ }

theorem move_of_condStep {act : CondAct} {next : CondThread → ListPc α}
    (hmove : ∀ t, ListThread.CondMove (st.threads i).pc act t (next t))
    (h : st.condStep tid i act next = some st') : Move tid st i st' := by
  obtain ⟨⟨l, c, t⟩, hexec, rfl⟩ := Option.map_eq_some_iff.mp h
  exact .cond (hmove t) hexec

theorem move_of_exec {call : ι × ListAct α} (h : st.exec tid call = some st') :
    Move tid st call.1 st' := by
  obtain ⟨i, act⟩ := call
  cases act with
  | call job =>
      simp only [exec] at h
      split at h
      next hpc =>
        cases h
        exact .call job hpc
      next => cases h
  | step =>
      simp only [exec] at h
      split at h
      next => cases h
      next => cases h
      next job hpc => exact move_of_condStep (fun t => hpc ▸ .acquire job t) h
      next job hpc => exact move_of_condStep (fun t => hpc ▸ .acquiring job t) h
      next item hpc =>
        cases h
        exact .insert item hpc
      next hpc => exact move_of_condStep (fun t => hpc ▸ .signal t) h
      next hpc => exact move_of_condStep (fun t => hpc ▸ .signalling t) h
      next hpc =>
        cases h
        cases hlist : st.list with
        | nil => exact .empty hpc hlist
        | cons item rest => exact .nonempty hpc (by rw [hlist]; exact List.cons_ne_nil _ _)
      next hpc => exact move_of_condStep (fun t => hpc ▸ .wait t) h
      next hpc => exact move_of_condStep (fun t => hpc ▸ .waiting t) h
      next hpc =>
        split at h
        next hlist =>
          cases h
          exact .abort hpc hlist
        next item rest hlist =>
          cases h
          exact .take item rest hpc hlist
      next hpc => exact move_of_condStep (fun t => hpc ▸ .release t) h
      next hpc => exact move_of_condStep (fun t => hpc ▸ .releasing t) h

/-! ## What a thread does to the list -/

/-- What a step of a thread can do to the list: nothing, or it appends the item that it has
come with, or it takes the first one. -/
inductive Effect (st st' : ListRun ι α) (i : ι) : Prop
  | none : st'.list = st.list → st'.appended = st.appended → st'.removed = st.removed →
      (st'.threads i).pc.appending = (st.threads i).pc.appending →
      ((st'.threads i).pc.removing = true → (st.threads i).pc.removing = true) → Effect st st' i
  | insert (item : α) : (st.threads i).pc.appending = some item →
      (st'.threads i).pc.appending = Option.none → (st'.threads i).pc.removing = false →
      st'.list = st.list ++ [item] → st'.appended = st.appended ++ [item] →
      st'.removed = st.removed → Effect st st' i
  | take (item : α) : (st.threads i).pc.appending = Option.none →
      (st'.threads i).pc.appending = Option.none → (st.threads i).pc.removing = true →
      (st'.threads i).pc.removing = false → st.list = item :: st'.list →
      st'.appended = st.appended → st'.removed = st.removed ++ [item] → Effect st st' i

/-- **A step of a thread**, with its effect; the other threads stay where they are. -/
theorem effect_of_exec (h : st.exec tid (i, .step) = some st') :
    Effect st st' i ∧ ∀ j, j ≠ i → st'.threads j = st.threads j := by
  have hcall : (st.threads i).pc ≠ .away := by
    intro hpc
    simp only [exec, hpc] at h
    cases h
  have hpc' (pc : ListPc α) : ((st.goto i pc).threads i).pc = pc :=
    congrArg ListThread.pc (put_self _)
  have happending (pc : ListPc α) : ((st.goto i pc).threads i).pc.appending = pc.appending := by
    rw [hpc']
  have hremoving (pc : ListPc α) : ((st.goto i pc).threads i).pc.removing = pc.removing := by
    rw [hpc']
  refine ⟨?_, fun j hj => ?_⟩
  · cases move_of_exec h with
    | call job hpc => exact absurd hpc hcall
    | insert item hpc =>
        exact .insert item (by rw [hpc]; rfl) (happending .signal) (hremoving .signal) rfl rfl rfl
    | empty hpc hlist =>
        exact .none rfl rfl rfl (by rw [hpc]; exact happending .wait) (by rw [hpc]; exact fun _ => rfl)
    | nonempty hpc hlist =>
        exact .none rfl rfl rfl (by rw [hpc]; exact happending .take) (by rw [hpc]; exact fun _ => rfl)
    | abort hpc hlist =>
        exact .none rfl rfl rfl (by rw [hpc]; exact happending .aborted)
          (by rw [hpc]; exact fun _ => rfl)
    | take item rest hpc hlist =>
        exact .take item (by rw [hpc]; rfl) (happending .release) (by rw [hpc]; rfl)
          (hremoving .release) hlist rfl rfl
    | @cond act l c t pc hmove hexec =>
        have hself : (st.put i ⟨t, pc⟩ i).pc = pc := by rw [put_self]
        refine .none rfl rfl rfl ?_ fun hnew => hmove.removing ?_
        · show (st.put i ⟨t, pc⟩ i).pc.appending = _
          rw [hself]
          exact hmove.appending
        · change (st.put i ⟨t, pc⟩ i).pc.removing = true at hnew
          rw [hself] at hnew
          exact hnew
  · cases move_of_exec h with
    | call | insert | empty | nonempty | abort | take | cond => exact Function.update_of_ne hj _ _

/-- A call changes the place of the caller only. -/
theorem call_of_exec {job : ListJob α} (h : st.exec tid (i, .call job) = some st') :
    (st.threads i).pc = .away ∧ st' = st.goto i (.acquire job) := by
  simp only [exec] at h
  split at h
  next hpc => exact ⟨hpc, (Option.some.inj h).symm⟩
  next => cases h

/-! ## The list and its condition variable -/

/-- A step of a thread in the list alone leaves its place in the condition variable. -/
theorem toCond_goto (st : ListRun ι α) (i : ι) (pc : ListPc α) : (st.goto i pc).toCond = st.toCond := by
  simp only [toCond, goto, CondRun.mk.injEq, true_and]
  funext j
  by_cases hj : j = i
  · subst hj
    simp
  · simp [Function.update_of_ne hj]

/-- A step in the condition variable is a step of a program that uses it as it should. -/
theorem toCond_exec (hwell : ∀ j, (st.threads j).wellFormed = true) {act : CondAct} {l : Lock}
    {c : Condition} {t : CondThread} {pc : ListPc α}
    (hmove : ListThread.CondMove (st.threads i).pc act t pc)
    (hexec : (st.threads i).cond.exec (tid i) st.lock st.listEmpty act = some (l, c, t)) :
    st.toCond.exec tid (i, act) = some
      { st with lock := l, listEmpty := c, threads := st.put i ⟨t, pc⟩ : ListRun ι α}.toCond := by
  have hlegal : ¬ (CondRun.needsLock act = true ∧ (st.toCond.threads i).lock.holds = false) := by
    rintro ⟨hneeds, hholds⟩
    have hheld : (st.threads i).cond.lock.holds = true := hmove.needsLock (hwell i) hneeds
    rw [show (st.toCond.threads i).lock.holds = true from hheld] at hholds
    cases hholds
  have hset : { st with lock := l, listEmpty := c, threads := st.put i ⟨t, pc⟩ : ListRun ι α}.toCond =
      st.toCond.set i l c t := by
    simp only [toCond, CondRun.set, CondRun.mk.injEq, true_and]
    funext j
    by_cases hj : j = i
    · subst hj
      simp [put_self]
    · simp [put_of_ne _ hj, Function.update_of_ne hj]
  rw [hset, CondRun.exec, if_neg hlegal,
    show (st.toCond.threads i).exec (tid i) st.toCond.lock st.toCond.cond act = some (l, c, t)
      from hexec]
  rfl

variable [Fintype ι]

/-- How many threads are on their way. -/
def enRouteCount (st : ListRun ι α) : ℕ := ∑ i, if (st.threads i).enRoute then 1 else 0

theorem enRouteCount_put (st st' : ListRun ι α) (t : ListThread α)
    (hthreads : st'.threads = st.put i t) :
    st'.enRouteCount + (if (st.threads i).enRoute then 1 else 0) =
      st.enRouteCount + if t.enRoute then 1 else 0 := by
  rw [enRouteCount, enRouteCount, hthreads]
  exact sum_update (fun _ t => if t.enRoute then 1 else 0) st.threads i t

/-- What a synchronized list keeps. -/
structure Inv (tid : ι → ℤ) (st : ListRun ι α) : Prop where
  placed : st.toCond.Placed tid
  account : st.toCond.Account
  wellFormed : ∀ i, (st.threads i).wellFormed = true
  order : st.appended = st.removed ++ st.list
  nonempty : ∀ i, (st.threads i).pc = .take → st.list ≠ []
  empty : ∀ i, (st.threads i).sawEmpty = true → st.list = []
  coming : 0 < st.listEmpty.totalSleepers →
    st.list.length ≤ st.listEmpty.sleepLock + st.enRouteCount

namespace Inv

omit [DecidableEq ι] in
theorem start : (start : ListRun ι α).Inv tid where
  placed := CondRun.Placed.start
  account := CondRun.Account.start
  wellFormed _ := rfl
  order := rfl
  nonempty _ hpc := by cases hpc
  empty _ hsaw := by cases hsaw
  coming _ := Nat.zero_le _

omit [DecidableEq ι] in
/-- Of two threads that are where the lock is held, one is the other. -/
theorem holder_unique (h : st.Inv tid) {j : ι} (hi : (st.threads i).cond.lock.holds = true)
    (hj : (st.threads j).cond.lock.holds = true) : j = i :=
  h.placed.holder_unique hj hi

omit [DecidableEq ι] in
/-- A thread that has found the list empty holds the lock. -/
theorem holds_of_sawEmpty (h : st.Inv tid) (hsaw : (st.threads i).sawEmpty = true) :
    (st.threads i).cond.lock.holds = true := by
  have hwell := h.wellFormed i
  have hcond : (st.threads i).cond.wellFormed = true := h.placed.wellFormed i
  rw [ListThread.sawEmpty] at hsaw
  split at hsaw
  next hpc =>
    rw [ListThread.wellFormed, hpc] at hwell
    rw [of_decide_eq_true hwell]
  next hpc =>
    have hpc := of_decide_eq_true hsaw
    simp only [List.mem_cons, List.not_mem_nil, or_false] at hpc
    obtain hpc | hpc := hpc <;>
    · rw [CondThread.wellFormed, hpc] at hcond
      rw [of_decide_eq_true hcond]
  next => cases hsaw

/-- A step in the condition variable. -/
theorem cond (h : st.Inv tid) {act : CondAct} {l : Lock} {c : Condition} {t : CondThread}
    {pc : ListPc α} (hmove : ListThread.CondMove (st.threads i).pc act t pc)
    (hexec : (st.threads i).cond.exec (tid i) st.lock st.listEmpty act = some (l, c, t)) :
    Inv tid { st with lock := l, listEmpty := c, threads := st.put i ⟨t, pc⟩ } := by
  have hstep := toCond_exec h.wellFormed hmove hexec
  have hcount := enRouteCount_put st
    { st with lock := l, listEmpty := c, threads := st.put i ⟨t, pc⟩ } ⟨t, pc⟩ rfl
  have hwell := h.wellFormed i
  have hcond : (st.threads i).cond.wellFormed = true := h.placed.wellFormed i
  have hlock : (st.threads i).cond.lock.wellFormed = true := h.placed.lock.wellFormed i
  have hsaw := h.empty i
  refine ⟨h.placed.exec hstep, h.account.exec hstep, fun j => ?_, h.order,
    forall_imp_put (q := fun t => t.pc = .take) h.nonempty fun hpc => ?_,
    forall_imp_put (q := fun t => t.sawEmpty = true) h.empty fun hnew => ?_, fun hpos => ?_⟩
  · by_cases hj : j = i
    · subst hj
      show (st.put j ⟨t, pc⟩ j).wellFormed = true
      rw [put_self]
      exact hmove.wellFormed hwell hcond hlock hexec
    · show (st.put i ⟨t, pc⟩ j).wellFormed = true
      rw [put_of_ne _ hj]
      exact h.wellFormed j
  · exact absurd hpc hmove.ne_take
  · exact hsaw (hmove.sawEmpty hexec hnew)
  · obtain ⟨hold, hle⟩ := hmove.account hwell hexec hpos
    have hle' : st.listEmpty.sleepLock + (if (st.threads i).enRoute then 1 else 0) ≤
        c.sleepLock + if (⟨t, pc⟩ : ListThread α).enRoute then 1 else 0 := hle
    show st.list.length ≤ c.sleepLock + _
    obtain hold | hold := hold
    · have hcoming := h.coming hold
      omega
    · rw [hsaw hold]
      exact Nat.zero_le _

omit [DecidableEq ι] in
/-- A thread at `list->Remove()` holds the lock. -/
theorem holds_of_take (h : st.Inv tid) (hpc : (st.threads i).pc = .take) :
    (st.threads i).cond.lock.holds = true := by
  have hwell := h.wellFormed i
  rw [ListThread.wellFormed, hpc] at hwell
  rw [of_decide_eq_true hwell]

/-- A step on the list. A thread that changes the list holds the lock, so that no other
thread has just looked at it. -/
theorem update (h : st.Inv tid) {pc : ListPc α} {list appended removed : List α}
    (hwell : (⟨(st.threads i).cond, pc⟩ : ListThread α).wellFormed = true)
    (horder : appended = removed ++ list)
    (hlist : list = st.list ∨ (st.threads i).cond.lock.holds = true)
    (htake : pc = .take → list ≠ [])
    (hsaw : (⟨(st.threads i).cond, pc⟩ : ListThread α).sawEmpty = true → list = [])
    (hcoming : list = [] ∨ list.length + (if (st.threads i).enRoute then 1 else 0) ≤
      st.list.length + if (⟨(st.threads i).cond, pc⟩ : ListThread α).enRoute then 1 else 0) :
    Inv tid { st.goto i pc with list := list, appended := appended, removed := removed } := by
  have hcount := enRouteCount_put st
    { st.goto i pc with list := list, appended := appended, removed := removed }
    ⟨(st.threads i).cond, pc⟩ rfl
  have hcond : { st.goto i pc with
      list := list, appended := appended, removed := removed : ListRun ι α }.toCond = st.toCond :=
    toCond_goto st i pc
  have hothers {j : ι} (hj : j ≠ i) (hholds : (st.threads j).cond.lock.holds = true) :
      list = st.list :=
    hlist.resolve_right fun hi => hj (h.holder_unique hi hholds)
  refine ⟨hcond ▸ h.placed, hcond ▸ h.account, fun j => ?_, horder, fun j hpc => ?_,
    fun j hj => ?_, fun hpos => ?_⟩
  · by_cases hj : j = i
    · subst hj
      show (st.put j ⟨(st.threads j).cond, pc⟩ j).wellFormed = true
      rw [put_self]
      exact hwell
    · show (st.put i ⟨(st.threads i).cond, pc⟩ j).wellFormed = true
      rw [put_of_ne _ hj]
      exact h.wellFormed j
  · replace hpc : (st.put i ⟨(st.threads i).cond, pc⟩ j).pc = .take := hpc
    by_cases hj : j = i
    · rw [hj, put_self] at hpc
      exact htake hpc
    · rw [put_of_ne _ hj] at hpc
      show list ≠ []
      rw [hothers hj (h.holds_of_take hpc)]
      exact h.nonempty j hpc
  · replace hj : (st.put i ⟨(st.threads i).cond, pc⟩ j).sawEmpty = true := hj
    by_cases hji : j = i
    · rw [hji, put_self] at hj
      exact hsaw hj
    · rw [put_of_ne _ hji] at hj
      show list = []
      rw [hothers hji (h.holds_of_sawEmpty hj)]
      exact h.empty j hj
  · show list.length ≤ st.listEmpty.sleepLock + _
    obtain hnil | hle := hcoming
    · rw [hnil]
      exact Nat.zero_le _
    · have hold := h.coming hpos
      omega

/-- Every step keeps the invariant. -/
theorem exec (h : st.Inv tid) {call : ι × ListAct α} (hexec : st.exec tid call = some st') :
    st'.Inv tid := by
  obtain ⟨i, act⟩ := call
  have hwell := h.wellFormed i
  have hroute {pc : ListPc α} (hpc : (st.threads i).pc = pc) :
      (st.threads i).enRoute = (⟨(st.threads i).cond, pc⟩ : ListThread α).enRoute := by rw [← hpc]
  rw [ListThread.wellFormed] at hwell
  cases move_of_exec hexec with
  | call job hpc =>
      rw [hpc] at hwell
      exact h.update hwell h.order (.inl rfl) nofun nofun (.inr (by rw [hroute hpc]; rfl))
  | insert item hpc =>
      rw [hpc] at hwell
      refine h.update hwell ?_ (.inr ?_) nofun nofun (.inr ?_)
      · show st.appended ++ [item] = st.removed ++ (st.list ++ [item])
        rw [h.order, List.append_assoc]
      · rw [of_decide_eq_true hwell]
      · rw [hroute hpc, List.length_append]
        rfl
  | empty hpc hlist =>
      rw [hpc] at hwell
      exact h.update hwell h.order (.inl rfl) nofun (fun _ => hlist) (.inl hlist)
  | nonempty hpc hlist =>
      rw [hpc] at hwell
      exact h.update hwell h.order (.inl rfl) (fun _ => hlist) nofun (.inr (by rw [hroute hpc]; rfl))
  | abort hpc hlist => exact absurd hlist (h.nonempty i hpc)
  | take item rest hpc hlist =>
      rw [hpc] at hwell
      refine h.update hwell ?_ (.inr (h.holds_of_take hpc)) nofun nofun (.inr ?_)
      · show st.appended = st.removed ++ [item] ++ rest
        rw [h.order, hlist, List.append_assoc]
        rfl
      · rw [hroute hpc, hlist]
        exact le_rfl
  | cond hmove hthread => exact h.cond hmove hthread

omit [DecidableEq ι] in
/-- A thread that does not use the lock and was not just woken is not on the way. -/
theorem not_enRoute (h : st.Inv tid) (hlock : (st.threads i).cond.lock = ⟨.away, false⟩)
    (hwoken : (st.threads i).cond.pc ≠ .reacquire) : (st.threads i).enRoute ≠ true := by
  intro hroute
  have hwell := h.wellFormed i
  have hcond : (st.threads i).cond.wellFormed = true := h.placed.wellFormed i
  rw [ListThread.enRoute] at hroute
  rw [ListThread.wellFormed] at hwell
  cases hpc : (st.threads i).pc with
  | signal | test | take =>
      rw [hpc] at hwell
      rw [of_decide_eq_true hwell] at hlock
      cases hlock
  | signalling =>
      rw [hpc] at hroute
      have hcpc := of_decide_eq_true hroute
      simp only [List.mem_cons, List.not_mem_nil, or_false] at hcpc
      obtain hcpc | hcpc | hcpc := hcpc <;>
      · rw [CondThread.wellFormed, hcpc] at hcond
        rw [of_decide_eq_true hcond] at hlock
        cases hlock
  | waiting =>
      rw [hpc] at hroute
      have hcpc := of_decide_eq_true hroute
      simp only [List.mem_cons, List.not_mem_nil, or_false] at hcpc
      obtain hcpc | hcpc := hcpc
      · exact hwoken hcpc
      · rw [CondThread.wellFormed, hcpc, hlock] at hcond
        cases hcond
  | _ =>
      rw [hpc] at hroute
      cases hroute

omit [DecidableEq ι] in
/-- While a consumer sleeps beside a non-empty list, a unit is there for it or some thread
is using the lock. -/
theorem not_stranded (h : st.Inv tid) (hlist : st.list ≠ [])
    (hblocked : (st.threads i).cond.pc = .sleep) (hsleep : st.listEmpty.sleepLock = 0)
    (hlock : ∀ j, (st.threads j).cond.lock = ⟨.away, false⟩)
    (hwoken : ∀ j, (st.threads j).cond.pc ≠ .reacquire) : False := by
  -- the sleeper is registered and there is no unit, so it is counted
  have hregistered : 0 < st.toCond.registeredCount := by
    refine Finset.sum_pos' (fun _ _ => Nat.zero_le _) ⟨i, Finset.mem_univ i, ?_⟩
    have hi : (st.toCond.threads i).registered = true := by
      show (st.threads i).cond.registered = true
      rw [CondThread.registered, hblocked]
    rw [hi]
    decide
  have hpos : 0 < st.listEmpty.totalSleepers := by
    have hsum := h.account.sum
    have hsame : st.toCond.cond = st.listEmpty := rfl
    rw [hsame, hsleep] at hsum
    omega
  -- nobody is on the way
  have hnone : st.enRouteCount = 0 := by
    refine Finset.sum_eq_zero fun j _ => ?_
    rw [if_neg]
    intro hj
    exact h.not_enRoute (hlock j) (hwoken j) hj
  have hcoming := h.coming hpos
  rw [hsleep, hnone] at hcoming
  exact hlist (List.length_eq_zero_iff.mp (Nat.le_zero.mp hcoming))

end Inv

omit [DecidableEq ι] [Fintype ι] in
/-- A consumer is asleep beside a non-empty list and nothing will wake it: no thread uses the
lock or waits for it, there is no unit for the consumer, and no other consumer was woken. -/
def Stranded (st : ListRun ι α) : Prop :=
  st.list ≠ [] ∧ (∃ i, (st.threads i).pc = .waiting ∧ (st.threads i).cond.pc = .sleep) ∧
    (∀ j, (st.threads j).cond.lock = ⟨.away, false⟩) ∧ st.listEmpty.sleepLock = 0 ∧
    ∀ j, (st.threads j).cond.pc ≠ .reacquire

/-- **Synchronized lists.** Whatever the producers and the consumers do, the items removed
are the first of the items appended, in the same order; the assertion in `Remove` does not
fail; and no consumer is left asleep beside a non-empty list. -/
theorem synchList_correct {steps : List (Step (ListRun ι α) (ι × ListAct α))}
    (hrun : Run tid start steps st) :
    st.removed <+: st.appended ∧ (∀ i, (st.threads i).pc ≠ .aborted) ∧ ¬ st.Stranded := by
  have hinv := (Trace.invariant_of_forall (I := Inv tid) (fun x hbefore hrel => hbefore.exec hrel)
    hrun Inv.start).1
  refine ⟨⟨st.list, hinv.order.symm⟩, fun i hpc => ?_, ?_⟩
  · have hwell := hinv.wellFormed i
    rw [ListThread.wellFormed, hpc] at hwell
    cases hwell
  · rintro ⟨hlist, ⟨i, -, hblocked⟩, hlock, hsleep, hwoken⟩
    exact hinv.not_stranded hlist hblocked hsleep hlock hwoken

/-- A consumer waits, and a producer appends an item and signals. -/
theorem synchList_correct_two : ∃ (steps : List (Step (ListRun (Fin 2) ℕ) (Fin 2 × ListAct ℕ)))
    (st : ListRun (Fin 2) ℕ), Run (fun _ => 1) start steps st ∧ st.list = [7] ∧
      (st.threads 0).cond.pc = .sleep ∧ st.listEmpty.sleepLock = 1 ∧
      st.removed <+: st.appended ∧ (∀ i, (st.threads i).pc ≠ .aborted) ∧ ¬ st.Stranded := by
  let labels : List (Fin 2 × ListAct ℕ) :=
    (0, .call .remove) :: List.replicate 15 (0, .step) ++
      (1, .call (.append 7)) :: List.replicate 12 (1, .step)
  have hend : (execAll (exec fun _ => 1) start labels).map (fun st =>
      (st.list, (st.threads 0).cond.pc, st.listEmpty.sleepLock)) = some ([7], .sleep, 1) := by
    decide +kernel
  obtain ⟨st, hst, heq⟩ := Option.map_eq_some_iff.mp hend
  simp only [Prod.mk.injEq] at heq
  have hrun := trace_of_execAll hst
  exact ⟨_, st, hrun, heq.1, heq.2.1, heq.2.2, synchList_correct hrun⟩

end ListRun

end Nachos.Synch
