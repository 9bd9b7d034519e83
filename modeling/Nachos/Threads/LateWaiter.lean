/-
# Which waiters a wake-up reaches

The units of `sleepLock` are not addressed to anybody. Here each of them carries the number
of the call of `Signal` or `Broadcast` that added it, and each waiter the number of such
calls that had returned when it called `Wait`. A waiter that comes late can pass
`sleepLock->P()` on a unit of an earlier call, and then one of the threads for which the
unit was added stays asleep. It cannot when a thread registers itself in `Wait` only while
no unit is left.
-/

import Nachos.Threads.Condition

namespace Nachos.Synch

open Base

/-- A condition variable with a record of its calls. -/
structure TaggedRun (ι : Type) where
  base : CondRun ι
  /-- For each unit of `sleepLock`, how many calls had returned when it was added. -/
  permits : List ℕ
  /-- How many calls of `Signal` and `Broadcast` have returned. -/
  calls : ℕ
  /-- How many calls had returned when the thread called `Wait`. -/
  stamp : ι → ℕ
  /-- The number of the last `Broadcast`; the calls are numbered from one. -/
  lastBroadcast : ℕ

namespace TaggedRun

variable {ι : Type} [DecidableEq ι]

/-- A new condition variable. -/
def start : TaggedRun ι := ⟨CondRun.start, [], 0, fun _ => 0, 0⟩

/-- What a step to `base` adds to the record. A thread that passes `sleepLock->P()` takes the
`k`-th unit. -/
def record (st : TaggedRun ι) (base : CondRun ι) (i : ι) (act : CondAct) (k : ℕ) : TaggedRun ι :=
  match act, (st.base.threads i).pc with
  | .wait, _ => { st with base := base, stamp := Function.update st.stamp i st.calls }
  | .step, .wake _ => { st with base := base, permits := st.permits ++ [st.calls] }
  | .step, .sleep => { st with base := base, permits := st.permits.eraseIdx k }
  | .step, .leave .signal => { st with base := base, calls := st.calls + 1 }
  | .step, .leave .broadcast =>
      { st with base := base, calls := st.calls + 1, lastBroadcast := st.calls + 1 }
  | _, _ => { st with base := base }

/-- One step. Which unit a thread takes is left open. -/
def exec (tid : ι → ℤ) (st : TaggedRun ι) : ι × CondAct × ℕ → Option (TaggedRun ι)
  | (i, act, k) =>
      if (st.base.threads i).pc = .sleep ∧ st.permits.length ≤ k then none
      else (st.base.exec tid (i, act)).map fun base => st.record base i act k

/-- The runs of programs that use the condition variable while holding the lock. -/
def Run (tid : ι → ℤ) (st : TaggedRun ι) (steps : List (Step (TaggedRun ι) (ι × CondAct × ℕ)))
    (st' : TaggedRun ι) : Prop :=
  Trace (fun s call t => exec tid s call = some t) st steps st'

/-- No thread passes `sleepLock->P()` on a unit of a call that returned before it called
`Wait`. -/
def OnTime (tid : ι → ℤ) (st : TaggedRun ι) : Prop :=
  ∀ i k st', (st.base.threads i).pc = .sleep → st.exec tid (i, .step, k) = some st' →
    ∀ permit, st.permits[k]? = some permit → st.stamp i ≤ permit

/-- The threads that were waiting when the last `Broadcast` was made and have not yet passed
`sleepLock->P()`. -/
def oldWaiters [Fintype ι] (st : TaggedRun ι) : Finset ι :=
  {i | (st.base.threads i).registered = true ∧ st.stamp i < st.lastBroadcast}

/-- There is a unit for each thread that the last `Broadcast` woke. -/
def Covered [Fintype ι] (st : TaggedRun ι) : Prop := st.oldWaiters.card ≤ st.base.cond.sleepLock

/-- A thread registers itself only while no unit is left. -/
def Dry (st : TaggedRun ι) : ι × CondAct × ℕ → Prop
  | (i, .step, _) => (st.base.threads i).pc = .register → st.base.cond.sleepLock = 0
  | _ => True

instance (st : TaggedRun ι) : (call : ι × CondAct × ℕ) → Decidable (st.Dry call)
  | (i, .step, _) => inferInstanceAs
      (Decidable ((st.base.threads i).pc = .register → st.base.cond.sleepLock = 0))
  | (_, .lock _, _) | (_, .wait, _) | (_, .wake _, _) => inferInstanceAs (Decidable True)

/-- The thread has called `Wait` and is not yet registered. -/
def Entering (t : CondThread) : Prop := t.pc = .enterWait ∨ t.pc = .register

/-- The places whose step adds nothing to the record. -/
def Quiet (pc : CondPc) : Prop :=
  pc ≠ .sleep ∧ (∀ waker, pc ≠ .wake waker) ∧ ∀ waker, pc ≠ .leave waker

theorem quiet_of_outside {t : CondThread} (h : t.outside = true) : Quiet t.pc := by
  obtain ⟨lock, pc⟩ := t
  cases pc <;> simp_all [Quiet, CondThread.outside]

theorem quiet_of_handing {t : CondThread} (h : t.handing = true) : Quiet t.pc := by
  obtain ⟨lock, pc⟩ := t
  cases pc <;> simp_all [Quiet, CondThread.handing]

variable [Fintype ι]

/-- What the record keeps in a run in which the threads register themselves only while no
unit is left. -/
structure Inv (tid : ι → ℤ) (st : TaggedRun ι) : Prop where
  placed : st.base.Placed tid
  account : st.base.Account
  length : st.permits.length = st.base.cond.sleepLock
  fresh : ∀ permit ∈ st.permits, ∀ i, (st.base.threads i).registered = true → st.stamp i ≤ permit
  stamps : ∀ i, st.stamp i ≤ st.calls
  last : st.lastBroadcast ≤ st.calls
  entering : ∀ i, Entering (st.base.threads i) → st.stamp i = st.calls
  covered : (∀ i, (st.base.threads i).registered = true → st.lastBroadcast ≤ st.stamp i) ∨
    st.base.registeredCount ≤ st.base.cond.sleepLock ∧
      ∀ i, (st.base.threads i).registered = true → st.stamp i < st.lastBroadcast

namespace Inv

variable {tid : ι → ℤ} {st st' : TaggedRun ι} {i : ι} {l : Lock} {c : Condition} {t : CondThread}

omit [DecidableEq ι] in
theorem start : (start : TaggedRun ι).Inv tid where
  placed := CondRun.Placed.start
  account := CondRun.Account.start
  length := rfl
  fresh _ hpermit := by cases hpermit
  stamps _ := le_rfl
  last := le_rfl
  entering _ hentering := by obtain hpc | hpc := hentering <;> cases hpc
  covered := .inl fun _ _ => le_rfl

/-- What the last broadcast left stays covered if the thread is registered only if it was, and
if the units stay enough. -/
theorem covered_set (h : st.Inv tid)
    (hregistered : t.registered = true → (st.base.threads i).registered = true)
    (hcount : st.base.registeredCount ≤ st.base.cond.sleepLock →
      (st.base.set i l c t).registeredCount ≤ c.sleepLock) :
    (∀ j, ((st.base.set i l c t).threads j).registered = true → st.lastBroadcast ≤ st.stamp j) ∨
      (st.base.set i l c t).registeredCount ≤ c.sleepLock ∧
        ∀ j, ((st.base.set i l c t).threads j).registered = true →
          st.stamp j < st.lastBroadcast := by
  obtain hnew | ⟨hle, hold⟩ := h.covered
  · exact .inl (CondRun.forall_imp_set (q := fun t => t.registered = true) hnew
      fun hreg => hnew i (hregistered hreg))
  · exact .inr ⟨hcount hle, CondRun.forall_imp_set (q := fun t => t.registered = true) hold
      fun hreg => hold i (hregistered hreg)⟩

/-- A step that neither registers a thread nor touches the units. -/
theorem keep (h : st.Inv tid) (hplaced : (st.base.set i l c t).Placed tid)
    (haccount : (st.base.set i l c t).Account)
    (hregistered : t.registered = (st.base.threads i).registered)
    (hsleep : c.sleepLock = st.base.cond.sleepLock)
    (hentering : Entering t → Entering (st.base.threads i)) :
    Inv tid { st with base := st.base.set i l c t } where
  placed := hplaced
  account := haccount
  length := h.length.trans hsleep.symm
  fresh permit hpermit := CondRun.forall_imp_set (q := fun t => t.registered = true)
    (h.fresh permit hpermit) fun hreg => h.fresh permit hpermit i (hregistered ▸ hreg)
  stamps := h.stamps
  last := h.last
  entering := CondRun.forall_imp_set h.entering fun ht => h.entering i (hentering ht)
  covered := by
    have hcount := CondRun.registeredCount_set st.base i l c t
    rw [hregistered] at hcount
    exact h.covered_set (fun hreg => hregistered ▸ hreg) fun hle => by omega

/-- A thread calls `Wait`. -/
theorem wait (h : st.Inv tid) (hplaced : (st.base.set i l c t).Placed tid)
    (haccount : (st.base.set i l c t).Account) (hpc : (st.base.threads i).pc = .away)
    (hpc' : t.pc = .enterWait) (hsleep : c.sleepLock = st.base.cond.sleepLock) :
    Inv tid { st with
      base := st.base.set i l c t, stamp := Function.update st.stamp i st.calls } := by
  have hnot : (st.base.threads i).registered = false ∧ t.registered = false := by
    simp [CondThread.registered, hpc, hpc']
  have hcount := CondRun.registeredCount_set st.base i l c t
  rw [hnot.1, hnot.2] at hcount
  -- the thread whose stamp changes is not registered
  have hstamp {P : ℕ → Prop} (hold : ∀ j, (st.base.threads j).registered = true → P (st.stamp j))
      (j : ι) (hj : ((st.base.set i l c t).threads j).registered = true) :
      P (Function.update st.stamp i st.calls j) := by
    by_cases hji : j = i
    · rw [hji, CondRun.set_threads_self, hnot.2] at hj
      cases hj
    · rw [CondRun.set_threads_of_ne hji] at hj
      rw [Function.update_of_ne hji]
      exact hold j hj
  refine ⟨hplaced, haccount, h.length.trans hsleep.symm,
    fun permit hpermit => hstamp (P := fun s => s ≤ permit) (h.fresh permit hpermit),
    fun j => ?_, h.last,
    fun j hj => ?_, ?_⟩
  · by_cases hji : j = i
    · rw [hji]
      exact (Function.update_self ..).le
    · show Function.update st.stamp i st.calls j ≤ st.calls
      rw [Function.update_of_ne hji]
      exact h.stamps j
  · by_cases hji : j = i
    · rw [hji]
      exact Function.update_self ..
    · show Function.update st.stamp i st.calls j = st.calls
      rw [Function.update_of_ne hji]
      exact h.entering j (by rwa [CondRun.set_threads_of_ne hji] at hj)
  · obtain hnew | ⟨hle, hold⟩ := h.covered
    · exact .inl (hstamp (P := fun s => st.lastBroadcast ≤ s) hnew)
    · refine .inr ⟨?_, hstamp (P := fun s => s < st.lastBroadcast) hold⟩
      show (st.base.set i l c t).registeredCount ≤ c.sleepLock
      rw [hsleep]
      simp only [Bool.false_eq_true, if_false, Nat.add_zero] at hcount
      omega

/-- A thread registers itself while no unit is left. -/
theorem register (h : st.Inv tid) (hplaced : (st.base.set i l c t).Placed tid)
    (haccount : (st.base.set i l c t).Account) (hpc : (st.base.threads i).pc = .register)
    (hpc' : t.pc = .release) (hsleep : c.sleepLock = st.base.cond.sleepLock)
    (hdry : st.base.cond.sleepLock = 0) : Inv tid { st with base := st.base.set i l c t } := by
  have hnone : st.permits = [] := List.length_eq_zero_iff.mp (h.length.trans hdry)
  have hstamp : st.stamp i = st.calls := h.entering i (.inr hpc)
  -- with no unit left, nobody is left over from the last broadcast
  have hnew (j : ι) (hj : (st.base.threads j).registered = true) : st.lastBroadcast ≤ st.stamp j := by
    obtain hnew | ⟨hle, -⟩ := h.covered
    · exact hnew j hj
    · have hzero : st.base.registeredCount = 0 := Nat.le_zero.mp (hdry ▸ hle)
      have hterm := Finset.sum_eq_zero_iff.mp hzero j (Finset.mem_univ j)
      rw [hj] at hterm
      cases hterm
  refine ⟨hplaced, haccount, h.length.trans hsleep.symm, fun permit hpermit => ?_, h.stamps, h.last,
    CondRun.forall_imp_set h.entering fun ht => ?_,
    .inl (CondRun.forall_imp_set (q := fun t => t.registered = true) hnew fun _ => ?_)⟩
  · rw [hnone] at hpermit
    cases hpermit
  · obtain ht | ht := ht <;> rw [hpc'] at ht <;> cases ht
  · exact h.last.trans hstamp.ge

/-- A thread passes `sleepLock->P()` on one of the units. -/
theorem sleep (h : st.Inv tid) (hplaced : (st.base.set i l c t).Placed tid)
    (haccount : (st.base.set i l c t).Account) (hpc : (st.base.threads i).pc = .sleep)
    (hpc' : t.pc = .reacquire) {k : ℕ} (hk : k < st.permits.length)
    (hsleep : c.sleepLock = st.base.cond.sleepLock - 1) :
    Inv tid { st with base := st.base.set i l c t, permits := st.permits.eraseIdx k } := by
  have hcount := CondRun.registeredCount_set st.base i l c t
  simp only [CondThread.registered, hpc, hpc', if_true, Bool.false_eq_true, if_false] at hcount
  have hnot : t.registered ≠ true := by simp [CondThread.registered, hpc']
  refine ⟨hplaced, haccount, ?_, fun permit hpermit => ?_, h.stamps, h.last,
    CondRun.forall_imp_set h.entering fun ht => ?_, ?_⟩
  · show (st.permits.eraseIdx k).length = c.sleepLock
    rw [List.length_eraseIdx_of_lt hk, h.length, hsleep]
  · exact CondRun.forall_imp_set (q := fun t => t.registered = true)
      (h.fresh permit (List.mem_of_mem_eraseIdx hpermit)) fun hreg => absurd hreg hnot
  · obtain ht | ht := ht <;> rw [hpc'] at ht <;> cases ht
  · exact h.covered_set (fun hreg => absurd hreg hnot) fun hle => by omega

/-- A call adds a unit. -/
theorem wake (h : st.Inv tid) (hplaced : (st.base.set i l c t).Placed tid)
    (haccount : (st.base.set i l c t).Account) {waker : Waker}
    (hpc : (st.base.threads i).pc = .wake waker) (hpc' : t.pc = .count waker)
    (hsleep : c.sleepLock = st.base.cond.sleepLock + 1) :
    Inv tid { st with base := st.base.set i l c t, permits := st.permits ++ [st.calls] } := by
  have hcount := CondRun.registeredCount_set st.base i l c t
  simp only [CondThread.registered, hpc, hpc', Bool.false_eq_true, if_false] at hcount
  have hnot : t.registered ≠ true := by simp [CondThread.registered, hpc']
  refine ⟨hplaced, haccount, ?_, fun permit hpermit => ?_, h.stamps, h.last,
    CondRun.forall_imp_set h.entering fun ht => ?_, ?_⟩
  · show (st.permits ++ [st.calls]).length = c.sleepLock
    rw [List.length_append, h.length, hsleep]
    rfl
  · refine CondRun.forall_imp_set (q := fun t => t.registered = true) (fun j hj => ?_)
      fun hreg => absurd hreg hnot
    obtain hpermit | hpermit := List.mem_append.mp hpermit
    · exact h.fresh permit hpermit j hj
    · rw [List.mem_singleton.mp hpermit]
      exact h.stamps j
  · obtain ht | ht := ht <;> rw [hpc'] at ht <;> cases ht
  · exact h.covered_set (fun hreg => absurd hreg hnot) fun hle => by omega

omit [DecidableEq ι] in
/-- While a call of `Signal` or `Broadcast` is about to return, nobody is entering `Wait`:
both need the lock. -/
theorem not_entering (h : st.Inv tid) {waker : Waker} (hpc : (st.base.threads i).pc = .leave waker)
    (j : ι) : ¬ Entering (st.base.threads j) := by
  intro hj
  have hholds : (st.base.threads i).lock.holds = true := by
    have hwell := h.placed.wellFormed i
    rw [CondThread.wellFormed, hpc] at hwell
    rw [of_decide_eq_true hwell]
  have hholds' : (st.base.threads j).lock.holds = true := by
    have hwell := h.placed.wellFormed j
    obtain hj | hj := hj
    · rw [CondThread.wellFormed, hj] at hwell
      rw [of_decide_eq_true hwell]
    · rw [CondThread.wellFormed, hj] at hwell
      rw [of_decide_eq_true hwell]
  rw [← h.placed.holder_unique hholds hholds', Entering, hpc] at hj
  obtain hj | hj := hj <;> cases hj

/-- A `Signal` returns. -/
theorem leaveSignal (h : st.Inv tid) (hplaced : (st.base.set i l c t).Placed tid)
    (haccount : (st.base.set i l c t).Account) (hpc : (st.base.threads i).pc = .leave .signal)
    (hpc' : t.pc = .away) (hsleep : c.sleepLock = st.base.cond.sleepLock) :
    Inv tid { st with base := st.base.set i l c t, calls := st.calls + 1 } := by
  have hnot : ¬ Entering t := by simp [Entering, hpc']
  have hkeep := h.keep hplaced haccount (by simp [CondThread.registered, hpc, hpc']) hsleep
    fun ht => absurd ht hnot
  exact ⟨hplaced, haccount, hkeep.length, hkeep.fresh, fun j => (h.stamps j).trans (Nat.le_succ _),
    h.last.trans (Nat.le_succ _),
    CondRun.forall_imp_set (fun j hj => absurd hj (h.not_entering hpc j)) fun ht => absurd ht hnot,
    hkeep.covered⟩

/-- A `Broadcast` returns: there is a unit for each registered thread. -/
theorem leaveBroadcast (h : st.Inv tid) (hplaced : (st.base.set i l c t).Placed tid)
    (haccount : (st.base.set i l c t).Account) (hpc : (st.base.threads i).pc = .leave .broadcast)
    (hpc' : t.pc = .away) (hsleep : c.sleepLock = st.base.cond.sleepLock)
    (hexec : st.base.exec tid (i, .step) = some (st.base.set i l c t)) :
    Inv tid { st with
      base := st.base.set i l c t, calls := st.calls + 1, lastBroadcast := st.calls + 1 } := by
  have hnot : ¬ Entering t := by simp [Entering, hpc']
  have hkeep := h.keep hplaced haccount (by simp [CondThread.registered, hpc, hpc']) hsleep
    fun ht => absurd ht hnot
  exact ⟨hplaced, haccount, hkeep.length, hkeep.fresh, fun j => (h.stamps j).trans (Nat.le_succ _),
    le_rfl,
    CondRun.forall_imp_set (fun j hj => absurd hj (h.not_entering hpc j)) fun ht => absurd ht hnot,
    .inr ⟨(h.account.sleepLock_of_broadcast hpc hexec).ge, fun j _ => Nat.lt_succ_of_le (h.stamps j)⟩⟩

omit [Fintype ι] in
/-- A step that leaves the record as it is. -/
theorem record_eq {base : CondRun ι} {act : CondAct} {k : ℕ} (hwait : act ≠ .wait)
    (hquiet : Quiet (st.base.threads i).pc) :
    st.record base i act k = { st with base := base } := by
  unfold record
  split <;> simp_all [Quiet]

/-- Every step keeps the record right, if a thread registers itself only while no unit is
left. -/
theorem exec (h : st.Inv tid) {call : ι × CondAct × ℕ} (hexec : st.exec tid call = some st')
    (hdry : st.Dry call) : st'.Inv tid := by
  obtain ⟨i, act, k⟩ := call
  obtain ⟨hk, hmap⟩ := Option.ite_none_left_eq_some.mp hexec
  obtain ⟨base, hbase, rfl⟩ := Option.map_eq_some_iff.mp hmap
  have hplaced := h.placed.exec hbase
  have haccount := h.account.exec hbase
  obtain ⟨l, c, t, -, hthread, rfl⟩ := CondRun.exec_eq_some hbase
  by_cases hwait : act = .wait
  · subst hwait
    obtain ⟨⟨hpc, -⟩, heq⟩ := Option.ite_none_right_eq_some.mp hthread
    cases heq
    exact h.wait hplaced haccount hpc rfl rfl
  have hact : (st.base.threads i).pc ≠ .away → act = .step := CondThread.act_of_exec hthread
  have hnotEnter : t.pc ≠ .enterWait := fun hpc =>
    hwait (CondThread.act_of_enterWait hthread hpc)
  have hpos (hpc : (st.base.threads i).pc = .sleep) : k < st.permits.length :=
    not_le.mp fun hle => hk ⟨hpc, hle⟩
  have heffect : CondThread.Effect st.base.cond (st.base.threads i) c t :=
    CondThread.effect_of_exec hthread
  cases heffect with
  | outside hold hnew =>
      rw [record_eq hwait (quiet_of_outside hold)]
      refine h.keep hplaced haccount ?_ rfl fun ht => ?_
      · rw [(CondThread.outside_iff hold).2.1, (CondThread.outside_iff hnew).2.1]
      · obtain ht | ht := ht
        · exact absurd ht hnotEnter
        · rw [CondThread.outside, ht] at hnew
          cases hnew
  | handing hold hnew =>
      rw [record_eq hwait (quiet_of_handing hold)]
      refine h.keep hplaced haccount ?_ rfl fun ht => ?_
      · rw [(CondThread.handing_iff hold).2.1, (CondThread.handing_iff hnew).2.1]
      · obtain ht | ht := ht <;> rw [CondThread.handing, ht] at hnew <;> cases hnew
  | enter _ hpcs =>
      obtain ⟨hpc, hpc'⟩ | ⟨waker, hpc, hpc'⟩ := hpcs <;>
      · rw [record_eq hwait (by simp [Quiet, hpc])]
        exact h.keep hplaced haccount (by simp [CondThread.registered, hpc, hpc']) rfl
          (by simp [Entering, hpc, hpc'])
  | register hpc hpc' =>
      obtain rfl := hact (by simp [hpc])
      rw [record_eq hwait (by simp [Quiet, hpc])]
      exact h.register hplaced haccount hpc hpc' rfl (hdry hpc)
  | sleep _ hpc hpc' =>
      obtain rfl := hact (by simp [hpc])
      simp only [record, hpc]
      exact h.sleep hplaced haccount hpc hpc' (hpos hpc) rfl
  | found _ hpc hpc' | notFound _ hpc hpc' =>
      rw [record_eq hwait (by simp [Quiet, hpc])]
      exact h.keep hplaced haccount (by simp [CondThread.registered, hpc, hpc']) rfl
        (by simp [Entering, hpc'])
  | wake hpc hpc' =>
      obtain rfl := hact (by simp [hpc])
      simp only [record, hpc]
      exact h.wake hplaced haccount hpc hpc' rfl
  | count hpc hpcs =>
      rw [record_eq hwait (by simp [Quiet, hpc])]
      obtain hpc' | hpc' := hpcs <;>
        exact h.keep hplaced haccount (by simp [CondThread.registered, hpc, hpc']) rfl
          (by simp [Entering, hpc'])
  | leave hpcs =>
      obtain ⟨hpc, hpc'⟩ | ⟨waker, hpc, hpc'⟩ := hpcs
      · rw [record_eq hwait (by simp [Quiet, hpc])]
        exact h.keep hplaced haccount (by simp [CondThread.registered, hpc, hpc']) rfl
          (by simp [Entering, hpc'])
      · obtain rfl := hact (by simp [hpc])
        cases waker with
        | signal =>
            simp only [record, hpc]
            exact h.leaveSignal hplaced haccount hpc hpc' rfl
        | broadcast =>
            simp only [record, hpc]
            exact h.leaveBroadcast hplaced haccount hpc hpc' rfl hbase

omit [DecidableEq ι] in
/-- The threads left over from the last broadcast have their units. -/
theorem covered_card (h : st.Inv tid) : st.Covered := by
  obtain hnew | ⟨hle, -⟩ := h.covered
  · have hnone : st.oldWaiters = ∅ := by
      refine Finset.filter_eq_empty_iff.mpr fun i _ hi => ?_
      exact absurd hi.2 (not_lt.mpr (hnew i hi.1))
    rw [Covered, hnone]
    exact Nat.zero_le _
  · refine le_trans ?_ hle
    rw [oldWaiters, CondRun.registeredCount, ← Finset.card_filter]
    refine Finset.card_le_card fun i hi => ?_
    rw [Finset.mem_filter] at hi ⊢
    exact ⟨hi.1, hi.2.1⟩

/-- The units left were added after every registered thread had called `Wait`. -/
theorem onTime (h : st.Inv tid) : st.OnTime tid := by
  intro i k st' hpc _ permit hpermit
  exact h.fresh permit (List.mem_of_getElem? hpermit) i (by simp [CondThread.registered, hpc])

end Inv

/-- **Late waiters.** In a run in which the threads register themselves in `Wait` only while
no unit of `sleepLock` is left, no thread returns from `Wait` on a unit of a call that had
returned before, and there is always a unit for each thread that was waiting when the last
`Broadcast` was made and has not yet passed `sleepLock->P()`. -/
theorem waiters_woken {tid : ι → ℤ} {steps : List (Step (TaggedRun ι) (ι × CondAct × ℕ))}
    {st : TaggedRun ι} (hrun : Run tid start steps st)
    (hdry : ∀ x ∈ steps, x.before.Dry x.label) : st.OnTime tid ∧ st.Covered := by
  have hinv := (Trace.invariant (I := Inv tid) (C := fun x => x.before.Dry x.label)
    (fun x hbefore hrel hC => hbefore.exec hrel hC) hrun Inv.start hdry).1
  exact ⟨hinv.onTime, hinv.covered_card⟩

/-- Calls that take the first unit, when they take one. -/
def firstUnit (calls : List (Fin 3 × CondAct)) : List (Fin 3 × CondAct × ℕ) :=
  calls.map fun (i, act) => (i, act, 0)

/-- Thread `0` waits and thread `2` makes a `Broadcast` and releases the lock. -/
def broadcastToOne : List (Fin 3 × CondAct × ℕ) :=
  firstUnit (CondRun.waiting 0 ++ CondRun.wakingBy 2 .broadcast 6 ++
    (2, .lock .release) :: List.replicate 4 (2, .lock .step))

/-- The thread that was waiting has not yet passed `sleepLock->P()`. -/
theorem waiters_woken_one : ∃ (steps : List (Step (TaggedRun (Fin 3)) (Fin 3 × CondAct × ℕ)))
    (st : TaggedRun (Fin 3)), Run (fun i => i.val + 1) start steps st ∧
      (∀ x ∈ steps, x.before.Dry x.label) ∧ st.oldWaiters = {0} ∧
      st.OnTime (fun i => i.val + 1) ∧ st.Covered := by
  have hend : (execAll (exec fun i => (i.val : ℤ) + 1) start broadcastToOne).map oldWaiters =
      some {0} := by decide +kernel
  have hdry : ∀ x ∈ stepsOf (exec fun i => (i.val : ℤ) + 1) start broadcastToOne,
      x.before.Dry x.label := by decide +kernel
  obtain ⟨st, hst, hold⟩ := Option.map_eq_some_iff.mp hend
  have hrun := trace_of_execAll hst
  exact ⟨_, st, hrun, hdry, hold, waiters_woken hrun hdry⟩

/-- Then thread `1` calls `Wait` and comes to `sleepLock->P()`. -/
def lateWaiter : List (Fin 3 × CondAct × ℕ) := broadcastToOne ++ firstUnit (CondRun.waiting 1)

/-- The late waiter passes on the unit of the `Broadcast`, and the thread that was waiting
when it was made stays asleep. -/
theorem not_waiters_woken :
    ¬ ∀ (steps : List (Step (TaggedRun (Fin 3)) (Fin 3 × CondAct × ℕ))) (st : TaggedRun (Fin 3)),
      Run (fun i => i.val + 1) start steps st →
        st.OnTime (fun i => i.val + 1) ∧ st.Covered := by
  intro hclaim
  have hend : (execAll (exec fun i => (i.val : ℤ) + 1) start (lateWaiter ++ [(1, .step, 0)])).map
      (fun st => (st.oldWaiters.card, st.base.cond.sleepLock)) = some (1, 0) := by decide +kernel
  obtain ⟨st, hst, heq⟩ := Option.map_eq_some_iff.mp hend
  obtain ⟨hcard, hsleep⟩ := Prod.mk.inj heq
  have hcovered := (hclaim _ st (trace_of_execAll hst)).2
  rw [Covered, hcard, hsleep] at hcovered
  exact absurd hcovered (by decide)

end TaggedRun

end Nachos.Synch
