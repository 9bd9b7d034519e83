/-
# The table of living threads

`threadIDs` is kept by three system calls that run in any order: creation appends the next
id, leaving shifts the later entries down, and joining looks the id up and sleeps until it is
gone. The table is compared here with the history of the run: at every moment it lists the
main thread and the threads created so far, without those that have left.

That holds as long as the sections stay inside the arrays of the address space. The stack
of a thread is given back by an index that is computed from its stack pointer and not
checked, and behind `threadStackPointer` comes `nbThreads`: the index of the main thread is
that of its low byte, and when the main thread leaves alone the table is empty, whoever is
alive.
-/

import Nachos.Userprog.ThreadIds

namespace Nachos

open Base

namespace Activity

/-- A thread that was created is alive until it has called `do_UserThreadExit`. -/
theorem isLive_iff {activity : Activity} (h : activity ≠ .unborn) :
    activity.isLive = true ↔ ¬ activity.hasExited = true := by
  cases activity with
  | unborn => exact absurd rfl h
  | embryo | running | creating _ | joining _ => simp [isLive, hasExited]
  | exiting | finished => simp [isLive, hasExited]

end Activity

namespace ThreadRun

/-- The id that a creation hands out, if it succeeds. -/
def idGiven (x : Base.Step ThreadRun ThreadCall) : Option ℕ :=
  match x.label with
  | .create c =>
      match (x.after.threads c).activity with
      | .creating child => some (x.after.threads child).tid
      | _ => none
  | _ => none

/-- The id of a thread that leaves. -/
def idExited (x : Base.Step ThreadRun ThreadCall) : Option ℕ :=
  match x.label with
  | .exit c => some (x.before.threads c).tid
  | _ => none

/-- The joined id and the result, if a section is the end of a `do_UserThreadJoin`. -/
def joinResult (st : ThreadRun) (call : ThreadCall) (st' : ThreadRun) : Option (ℕ × ℤ) :=
  match call with
  | .join c t =>
      if (st'.threads c).activity = .running then some (t, (st'.threads c).result) else none
  | .wake c =>
      match (st.threads c).activity with
      | .joining t =>
          if (st'.threads c).activity = .running then some (t, (st'.threads c).result) else none
      | _ => none
  | _ => none

variable {st st' : ThreadRun} {call : ThreadCall}

theorem activity_resume (st : ThreadRun) (c : ℕ) (result : ℤ) (i : ℕ) :
    ((st.resume c result).threads i).activity =
      if i = c then .running else (st.threads i).activity := by
  simp only [resume, Function.update_apply]
  split <;> rfl

theorem result_resume (st : ThreadRun) (c : ℕ) (result : ℤ) :
    ((st.resume c result).threads c).result = result := by
  simp only [resume, Function.update_self]

theorem activity_moveTo (st : ThreadRun) (c : ℕ) (activity : Activity) (i : ℕ) :
    ((st.moveTo c activity).threads i).activity =
      if i = c then activity else (st.threads i).activity := by
  simp only [moveTo, Function.update_apply]
  split <;> rfl

theorem activity_accept (st : ThreadRun) (c i : ℕ) :
    ((st.accept c).threads i).activity = if i = c then .creating (st.created + 1)
      else if i = st.created + 1 then .embryo else (st.threads i).activity := by
  rw [accept, activity_moveTo]
  congr 1
  simp only [addThread, Function.update_apply]
  split <;> rfl

theorem activity_giveStack (st : ThreadRun) (c child : ℕ) (k : Fin UserThreadMax) (i : ℕ) :
    ((st.giveStack c child k).threads i).activity = if i = c then .running
      else if i = child then .running else (st.threads i).activity := by
  simp only [giveStack, Function.update_apply]
  split_ifs <;> rfl

/-- What a section that is carried out to its end has done. -/
inductive Outcome (st : ThreadRun) : ThreadCall → ThreadRun → Prop
  | refused (c : ℕ) : (st.threads c).activity = .running →
      Outcome st (.create c) (st.resume c (-1))
  | accepted (c : ℕ) : (st.threads c).activity = .running →
      Outcome st (.create c) (st.accept c)
  | stack (c child : ℕ) (k : Fin UserThreadMax) : (st.threads c).activity = .creating child →
      Outcome st (.takeStack c) (st.giveStack c child k)
  | exited (c : ℕ) (space : AddrSpace) : (st.threads c).activity = .running →
      Outcome st (.exit c) ({ st with space := space }.moveTo c .exiting)
  | released (c : ℕ) (space : AddrSpace) : (st.threads c).activity = .exiting →
      Outcome st (.releaseStack c) ({ st with space := space }.moveTo c .finished)
  | invalid (c t : ℕ) : (st.threads c).activity = .running →
      (st.threads c).tid = t ∨ t ∉ st.space.threadIDs →
      Outcome st (.join c t) (st.resume c (-1))
  | asleep (c t : ℕ) (space : AddrSpace) : (st.threads c).activity = .running →
      t ∈ st.space.threadIDs →
      Outcome st (.join c t) ({ st with space := space }.moveTo c (.joining t))
  | again (c t : ℕ) (space : AddrSpace) : (st.threads c).activity = .joining t →
      Outcome st (.wake c) ({ st with space := space }.moveTo c (.joining t))
  | joined (c t : ℕ) (space : AddrSpace) : (st.threads c).activity = .joining t →
      t ∉ st.space.threadIDs →
      Outcome st (.wake c) ({ st with space := space }.resume c 0)

namespace IdInv

/-- A section that does not fail is a safe one. -/
theorem idSafe_of_step (h : st.IdInv) (hstep : st.Step call st') : st.IdSafe call := by
  by_contra hbroken
  refine h.not_inTable (Option.isSome_iff_exists.mpr ⟨_, hstep⟩) hbroken fun _ result hresult => ?_
  rw [hstep] at hresult
  exact ⟨st', (Option.some.inj hresult).symm⟩

theorem outcome_join (h : st.IdInv) {c t : ℕ} (hc : (st.threads c).activity = .running)
    (hsafe : st.IdSafe (.join c t)) (hok : st.doUserThreadJoin c t = .ok st') :
    Outcome st (.join c t) st' := by
  rw [doUserThreadJoin] at hok
  split at hok
  · rename_i hself
    cases hok
    exact .invalid c t hc (.inl hself)
  · rename_i hself
    split at hok
    · rename_i hlive
      have hmem : t ∈ st.space.threadIDs := of_decide_eq_true hlive
      obtain ⟨space, -, -, hequal⟩ | ⟨hgone, -⟩ :=
        joinLoop_cases st c (fun hmem => h.lt_of_idSafe hsafe hself hmem)
      · rw [hequal] at hok
        cases hok
        exact .asleep c t space hc hmem
      · exact absurd hmem hgone
    · rename_i hgone
      cases hok
      exact .invalid c t hc (.inr fun hmem => hgone (decide_eq_true hmem))

/-- **The outcomes of a section.** -/
theorem outcome (h : st.IdInv) (hstep : st.Step call st') : Outcome st call st' := by
  have hsafe := h.idSafe_of_step hstep
  obtain ⟨c, rfl, hc, hresult⟩ | ⟨c, child, rfl, hc, hresult⟩ | ⟨c, rfl, hc, hresult⟩ |
    ⟨c, rfl, hc, hresult⟩ | ⟨c, t, rfl, hc, hresult⟩ | ⟨c, t, conditions, rfl, hc, hlt, hresult⟩ :=
    exec_cases hstep
  · obtain ⟨-, hequal⟩ | ⟨-, hequal⟩ := h.doUserThreadCreate_cases c
    · rw [hequal] at hresult
      cases hresult
      exact .refused c hc
    · rw [hequal] at hresult
      cases hresult
      exact .accepted c hc
  · obtain ⟨k, -, hequal⟩ | ⟨-, hequal⟩ := h.takeStack_cases hc
    · rw [hequal] at hresult
      cases hresult
      exact .stack c child k hc
    · rw [hequal] at hresult
      cases hresult
  · obtain ⟨space, hequal, -⟩ := h.doUserThreadExit_eq_ok hc hsafe
    rw [hequal] at hresult
    cases hresult
    exact .exited c space hc
  · have hok := hresult.symm
    rw [ThreadRun.releaseStack, Except.bind_eq_ok] at hok
    obtain ⟨space, -, hequal⟩ := hok
    cases hequal
    exact .released c space hc
  · exact h.outcome_join hc hsafe hresult.symm
  · obtain ⟨space, -, -, hequal⟩ | ⟨hgone, hequal⟩ := joinLoop_cases
      { st with space := { st.space with threadConditions := conditions } } c fun _ => hlt
    · rw [hequal] at hresult
      cases hresult
      exact .again c t space hc
    · rw [hequal] at hresult
      cases hresult
      exact .joined c t _ hc hgone

end IdInv

namespace Outcome

/-- Only `do_UserThreadExit` makes a thread leave. -/
theorem hasExited_iff (h : st.IdInv) (hout : Outcome st call st') (i : ℕ) :
    (st'.threads i).activity.hasExited = true ↔
      (st.threads i).activity.hasExited = true ∨ call = .exit i := by
  cases hout with
  | refused c hc | invalid c t hc | joined c t space hc =>
      rw [activity_resume]
      split
      · rename_i hi
        subst hi
        simp [hc, Activity.hasExited]
      · simp
  | asleep c t space hc | again c t space hc | released c space hc =>
      rw [activity_moveTo]
      split
      · rename_i hi
        subst hi
        simp [hc, Activity.hasExited]
      · simp
  | accepted c hc =>
      rw [activity_accept]
      split_ifs with hi hnew
      · subst hi
        simp [hc, Activity.hasExited]
      · subst hnew
        simp [h.unborn _ (Nat.lt_succ_self _), Activity.hasExited]
      · simp
  | stack c child k hc =>
      rw [activity_giveStack]
      split_ifs with hi hchild
      · subst hi
        simp [hc, Activity.hasExited]
      · subst hchild
        simp [h.child c i hc, Activity.hasExited]
      · simp
  | exited c space hc =>
      rw [activity_moveTo]
      split
      · rename_i hi
        subst hi
        simp [Activity.hasExited]
      · rename_i hi
        simp [Ne.symm hi]

/-- The thread that leaves is one that was created. -/
theorem idExited_eq_some (h : st.IdInv) (hout : Outcome st call st') {ID : ℕ} :
    idExited ⟨st, call, st'⟩ = some ID ↔ ∃ i ≤ st.created, ID = i + 1 ∧ call = .exit i := by
  cases hout with
  | exited c space hc =>
      have hle : c ≤ st.created := h.le_created (by rw [hc]; decide)
      simp only [idExited, Option.some.injEq, h.tid c hle]
      constructor
      · rintro rfl
        exact ⟨c, hle, rfl, rfl⟩
      · rintro ⟨i, -, rfl, hcall⟩
        rw [ThreadCall.exit.inj hcall]
  | refused | accepted | stack | released | invalid | asleep | again | joined =>
      constructor
      · intro hsome
        cases hsome
      · rintro ⟨i, -, -, hcall⟩
        cases hcall

/-- A creation that succeeds hands out the next id. -/
theorem idGiven_eq (h : st.IdInv) (hout : Outcome st call st') :
    (idGiven ⟨st, call, st'⟩ = none ∧ st'.created = st.created) ∨
      (idGiven ⟨st, call, st'⟩ = some (st.created + 2) ∧ st'.created = st.created + 1) := by
  cases hout with
  | refused c hc =>
      have hself := activity_resume st c (-1) c
      rw [if_pos rfl] at hself
      refine .inl ⟨?_, rfl⟩
      simp only [idGiven, hself]
  | accepted c hc =>
      have hle : c ≤ st.created := h.le_created (by rw [hc]; decide)
      have hself := activity_accept st c c
      rw [if_pos rfl] at hself
      have hchild : (st.accept c).threads (st.created + 1) = ⟨st.created + 2, 0, .embryo, 0⟩ :=
        (Function.update_of_ne (by omega) _ _).trans (Function.update_self _ _ _)
      refine .inr ⟨?_, rfl⟩
      simp only [idGiven, hself, hchild]
  | stack | exited | released | invalid | asleep | again | joined => exact .inl ⟨rfl, rfl⟩

/-- A thread that sleeps in a join has found its thread alive. -/
theorem joining_cases (hout : Outcome st call st') {d t : ℕ}
    (hd : (st'.threads d).activity = .joining t) :
    (st.threads d).activity = .joining t ∨ t ∈ st.space.threadIDs := by
  cases hout with
  | refused c | invalid c | joined c =>
      rw [activity_resume] at hd
      split at hd
      · cases hd
      · exact .inl hd
  | exited c | released c =>
      rw [activity_moveTo] at hd
      split at hd
      · cases hd
      · exact .inl hd
  | accepted c =>
      rw [activity_accept] at hd
      split_ifs at hd
      exact .inl hd
  | stack c child k =>
      rw [activity_giveStack] at hd
      split_ifs at hd
      exact .inl hd
  | asleep c u space hc hmem =>
      rw [activity_moveTo] at hd
      split at hd
      · cases hd
        exact .inr hmem
      · exact .inl hd
  | again c u space hc =>
      rw [activity_moveTo] at hd
      split at hd
      · rename_i heq
        cases hd
        exact .inl (heq ▸ hc)
      · exact .inl hd

/-- The result of a join: `0` if its thread is gone after it had been alive, `-1` if it was
the caller itself or not alive. -/
theorem joinResult_cases (hout : Outcome st call st') {t : ℕ} {result : ℤ}
    (h : joinResult st call st' = some (t, result)) :
    (result = 0 ∧ t ∉ st.space.threadIDs ∧ ∃ c, (st.threads c).activity = .joining t) ∨
      (result = -1 ∧ ∃ c, call = .join c t ∧
        ((st.threads c).tid = t ∨ t ∉ st.space.threadIDs)) := by
  cases hout with
  | refused | accepted | stack | exited | released => cases h
  | invalid c u hc hcause =>
      simp only [joinResult, activity_resume, result_resume, if_true, Option.some.injEq,
        Prod.mk.injEq] at h
      obtain ⟨rfl, rfl⟩ := h
      exact .inr ⟨rfl, c, rfl, hcause⟩
  | asleep c u space hc hmem =>
      simp only [joinResult, activity_moveTo, if_true, reduceCtorEq, if_false] at h
  | again c u space hc =>
      simp only [joinResult, hc, activity_moveTo, if_true, reduceCtorEq, if_false] at h
  | joined c u space hc hgone =>
      simp only [joinResult, hc, activity_resume, result_resume, if_true, Option.some.injEq,
        Prod.mk.injEq] at h
      obtain ⟨rfl, rfl⟩ := h
      exact .inl ⟨rfl, hgone, c, hc⟩

end Outcome

/-- The table and the threads as the history of a run explains them. -/
structure History (steps : List (Base.Step ThreadRun ThreadCall)) (st : ThreadRun) : Prop where
  inv : st.IdInv
  given : steps.filterMap idGiven = (List.range st.created).map (· + 2)
  exited : ∀ ID, ID ∈ steps.filterMap idExited ↔
    ∃ i ≤ st.created, ID = i + 1 ∧ (st.threads i).activity.hasExited
  target : ∀ c t, (st.threads c).activity = .joining t → ∃ i ≤ st.created, t = i + 1

namespace History

variable {steps : List (Base.Step ThreadRun ThreadCall)}

theorem snoc (h : History steps st) (hstep : st.Step call st') :
    History (steps ++ [⟨st, call, st'⟩]) st' := by
  have hout := h.inv.outcome hstep
  have hexited := hout.hasExited_iff h.inv
  have hcreated : st.created ≤ st'.created := by
    obtain ⟨-, hequal⟩ | ⟨-, hequal⟩ := hout.idGiven_eq h.inv <;> omega
  refine ⟨h.inv.step (h.inv.idSafe_of_step hstep) hstep, ?_, fun ID => ?_, fun c t hc => ?_⟩
  · rw [List.filterMap_append, h.given]
    obtain ⟨hgiven, hequal⟩ | ⟨hgiven, hequal⟩ := hout.idGiven_eq h.inv
    · rw [List.filterMap_cons_none hgiven, hequal, List.filterMap_nil, List.append_nil]
    · rw [List.filterMap_cons_some hgiven, hequal, List.range_succ, List.map_append]
      rfl
  · have hlast : ID ∈ [(⟨st, call, st'⟩ : Base.Step ThreadRun ThreadCall)].filterMap idExited ↔
        ∃ i ≤ st.created, ID = i + 1 ∧ call = .exit i := by
      rw [← hout.idExited_eq_some h.inv]
      simp [List.mem_filterMap]
    rw [List.filterMap_append, List.mem_append, h.exited, hlast]
    constructor
    · rintro (⟨i, hi, hequal, hbefore⟩ | ⟨i, hi, hequal, hcall⟩)
      · exact ⟨i, hi.trans hcreated, hequal, (hexited i).mpr (.inl hbefore)⟩
      · exact ⟨i, hi.trans hcreated, hequal, (hexited i).mpr (.inr hcall)⟩
    · rintro ⟨i, hi, hequal, hafter⟩
      obtain hbefore | hcall := (hexited i).mp hafter
      · refine .inl ⟨i, h.inv.le_created fun hunborn => ?_, hequal, hbefore⟩
        rw [hunborn] at hbefore
        cases hbefore
      · subst hcall
        cases hout with
        | exited c space hc => exact .inr ⟨i, h.inv.le_created (by rw [hc]; decide), hequal, rfl⟩
  · obtain hbefore | hmem := hout.joining_cases hc
    · obtain ⟨i, hi, hequal⟩ := h.target c t hbefore
      exact ⟨i, hi.trans hcreated, hequal⟩
    · obtain ⟨i, hi, hequal, -⟩ := (h.inv.mem t).mp hmem
      exact ⟨i, hi.trans hcreated, hequal⟩

theorem of_trace {numPages : ℕ} {hpages : numPages ≤ NumPhysPages}
    {pageTable : List TranslationEntry} {pid : ℕ}
    (hrun : Trace Step (ThreadRun.start (AddrSpace.init numPages hpages pageTable pid)) steps st) :
    History steps st := by
  generalize hfirst : ThreadRun.start (AddrSpace.init numPages hpages pageTable pid) = first at hrun
  induction hrun with
  | nil =>
      subst hfirst
      have hinv := IdInv.start hpages pageTable pid
      have hactivity (i : ℕ) :
          ((ThreadRun.start (AddrSpace.init numPages hpages pageTable pid)).threads i).activity =
            if i = 0 then .running else .unborn := by
        simp only [ThreadRun.start, Function.update_apply]
        split <;> rfl
      refine ⟨hinv, rfl, fun ID => ⟨by simp, ?_⟩, fun c t hc => ?_⟩
      · rintro ⟨i, -, -, hexited⟩
        rw [hactivity] at hexited
        split at hexited <;> cases hexited
      · rw [hactivity] at hc
        split at hc <;> cases hc
  | snoc _ hstep ih => exact ih.snoc hstep

/-- The ids in the table are those given out, without those of the threads that left. -/
theorem mem_threadIDs (h : History steps st) (ID : ℕ) : ID ∈ st.space.threadIDs ↔
    (ID = 1 ∨ ID ∈ steps.filterMap idGiven) ∧ ID ∉ steps.filterMap idExited := by
  have hgiven : (ID = 1 ∨ ID ∈ steps.filterMap idGiven) ↔ ∃ i ≤ st.created, ID = i + 1 := by
    rw [h.given, List.mem_map]
    simp only [List.mem_range]
    constructor
    · rintro (rfl | ⟨i, hi, rfl⟩)
      · exact ⟨0, Nat.zero_le _, rfl⟩
      · exact ⟨i + 1, hi, rfl⟩
    · rintro ⟨i, hi, rfl⟩
      cases i with
      | zero => exact .inl rfl
      | succ i => exact .inr ⟨i, hi, rfl⟩
  rw [h.inv.mem, hgiven, h.exited]
  constructor
  · rintro ⟨i, hi, rfl, hlive⟩
    refine ⟨⟨i, hi, rfl⟩, ?_⟩
    rintro ⟨j, hj, hequal, hexited⟩
    obtain rfl : i = j := Nat.add_right_cancel hequal
    exact (Activity.isLive_iff (h.inv.born i hi)).mp hlive hexited
  · rintro ⟨⟨i, hi, rfl⟩, hnot⟩
    refine ⟨i, hi, rfl, (Activity.isLive_iff (h.inv.born i hi)).mpr fun hexited => ?_⟩
    exact hnot ⟨i, hi, rfl, hexited⟩

theorem nodup_given (h : History steps st) : (1 :: steps.filterMap idGiven).Nodup := by
  rw [h.given, List.nodup_cons]
  refine ⟨?_, List.nodup_range.map (add_left_injective 2)⟩
  rw [List.mem_map]
  rintro ⟨i, -, hequal⟩
  omega

/-- A thread that was joined while it was alive and is gone has left. -/
theorem exited_of_gone (h : History steps st) {c t : ℕ}
    (hc : (st.threads c).activity = .joining t) (hgone : t ∉ st.space.threadIDs) :
    t ∈ steps.filterMap idExited := by
  obtain ⟨i, hi, rfl⟩ := h.target c t hc
  rw [h.exited]
  refine ⟨i, hi, rfl, ?_⟩
  by_contra hnot
  exact hgone ((h.inv.mem _).mpr ⟨i, hi, rfl, (Activity.isLive_iff (h.inv.born i hi)).mpr hnot⟩)

end History

/-- **The table of living threads.** In every run whose sections stay inside the arrays, the
table lists, without repetition, the main thread and every thread created, less those that
have left; it never overflows and no id is given out twice. A join of the caller itself or of
a thread that is not alive returns `-1`, a join returns `-1` in no other case, and it returns
`0` only after its thread has left. -/
theorem live_thread_table {numPages : ℕ} (hpages : numPages ≤ NumPhysPages)
    (pageTable : List TranslationEntry) (pid : ℕ) {steps : List (Base.Step ThreadRun ThreadCall)}
    {st : ThreadRun}
    (hrun : Trace MachineStep (start (AddrSpace.init numPages hpages pageTable pid)) steps st)
    (hin : ∀ x ∈ steps, x.before.InArrays x.label) :
    st.space.threadIDs.Nodup ∧
      (∀ ID, ID ∈ st.space.threadIDs ↔
        (ID = 1 ∨ ID ∈ steps.filterMap idGiven) ∧ ID ∉ steps.filterMap idExited) ∧
      st.space.getTotalThreads ≤ UserThreadMax ∧
      (1 :: steps.filterMap idGiven).Nodup ∧
      (∀ c t, (st.threads c).activity = .running →
        ((st.threads c).tid = t ∨ t ∉ st.space.threadIDs) →
        st.exec (.join c t) = some (.ok (st.resume c (-1)))) ∧
      ∀ call st' t result, st.MachineStep call st' → joinResult st call st' = some (t, result) →
        (result = 0 ∧ t ∈ steps.filterMap idExited) ∨
          (result = -1 ∧ ∃ c, call = .join c t ∧
            ((st.threads c).tid = t ∨ t ∉ st.space.threadIDs)) := by
  have h := History.of_trace ((hrun.restrict hin).mono fun _ _ _ hstep => hstep.1.step hstep.2)
  refine ⟨h.inv.nodup, h.mem_threadIDs, h.inv.room, h.nodup_given, fun c t hc hcause => ?_,
    fun call st' t result hstep hresult => ?_⟩
  · rw [exec, if_pos hc, doUserThreadJoin]
    split
    · rfl
    · rename_i hself
      have hgone : ¬ st.space.containThreadID t = true := fun hmem =>
        hcause.elim hself fun hnot => hnot (of_decide_eq_true hmem)
      rw [if_neg hgone]
  · cases hstep with
    | inside hstep =>
        obtain ⟨rfl, hgone, c, hc⟩ | hinvalid := (h.inv.outcome hstep).joinResult_cases hresult
        · exact .inl ⟨rfl, h.exited_of_gone hc hgone⟩
        · exact .inr hinvalid
    | behind hc hbehind => cases hresult

/-- The main thread waits for a thread that leaves and gives back its stack. -/
theorem live_thread_table_joined : ∃ steps st,
    Trace MachineStep (start (AddrSpace.init 18 (by decide) [] 0)) steps st ∧
      steps.map (fun x => x.label) =
        [.create 0, .takeStack 0, .join 0 2, .exit 1, .releaseStack 1, .wake 0] ∧
      (∀ x ∈ steps, x.before.InArrays x.label) ∧
      steps.filterMap idGiven = [2] ∧ steps.filterMap idExited = [2] ∧
      ∀ ID, ID ∈ st.space.threadIDs ↔
        (ID = 1 ∨ ID ∈ steps.filterMap idGiven) ∧ ID ∉ steps.filterMap idExited := by
  set calls : List ThreadCall :=
    [.create 0, .takeStack 0, .join 0 2, .exit 1, .releaseStack 1, .wake 0] with hcalls
  set first := start (AddrSpace.init 18 (by decide) [] 0) with hfirst
  have hsome : (first.execAll calls).isSome := by decide
  obtain ⟨st, hst⟩ := Option.isSome_iff_exists.mp hsome
  have hrun : Trace MachineStep first (first.stepsOf calls) st :=
    (trace_of_execAll hst).mono fun _ _ _ hstep => .inside hstep
  have hin : ∀ x ∈ first.stepsOf calls, x.before.InArrays x.label := by decide
  exact ⟨_, st, hrun, by decide, hin, by decide, by decide,
    (live_thread_table (by decide) [] 0 hrun hin).2.1⟩

/-- The main thread creates a thread and leaves. The thread is alive, and the table empty. -/
theorem not_listed_after_main_left : ¬ ∀ steps st,
    Trace MachineStep (start (AddrSpace.init 18 (by decide) [] 0)) steps st →
      ∀ ID, ID ∈ st.space.threadIDs ↔
        (ID = 1 ∨ ID ∈ steps.filterMap idGiven) ∧ ID ∉ steps.filterMap idExited := by
  intro hclaim
  set calls : List ThreadCall := [.create 0, .takeStack 0, .exit 0] with hcalls
  set first := start (AddrSpace.init 18 (by decide) [] 0) with hfirst
  have hlast : (first.execAll calls).map (fun st => ((st.threads 0).activity,
      (st.releaseBehind 0).map fun st' => st'.space.threadIDs)) = some (.exiting, some []) := by
    decide
  obtain ⟨st, hst, hequal⟩ := Option.map_eq_some_iff.mp hlast
  obtain ⟨hexiting, hbehind⟩ := Prod.mk.inj hequal
  obtain ⟨st', hst', hempty⟩ := Option.map_eq_some_iff.mp hbehind
  have hrun : Trace MachineStep first (first.stepsOf calls ++ [⟨st, .releaseStack 0, st'⟩]) st' :=
    ((trace_of_execAll hst).mono fun _ _ _ hstep => .inside hstep).snoc (.behind hexiting hst')
  have hmem := (hclaim _ st' hrun 2).mpr
  have hgiven : (first.stepsOf calls).filterMap idGiven = [2] := by decide
  have hexited : (first.stepsOf calls).filterMap idExited = [1] := by decide
  rw [List.filterMap_append, List.filterMap_append, hgiven, hexited, hempty] at hmem
  exact absurd (hmem (by simp [idExited])) (List.not_mem_nil)

end ThreadRun

end Nachos
