/-
# The processes of the machine

What holds of the tables of processes in every run. A pid is held from the moment the
constructor claims it until the exit clears it; the process is counted later and taken out of
the count earlier. That a free pid is always found is a matter of frames: every process keeps
its frames for ever, so there are never as many processes as pids.
-/

import Mathlib.Algebra.BigOperators.Group.Finset.Basic
import Mathlib.Algebra.Order.BigOperators.Group.Finset
import Mathlib.Data.Finset.Card
import Nachos.Userprog.ProcessTable

namespace Nachos

open Base

/-- The process that the thread is creating. -/
def ProcessPhase.makes {π : Type} : ProcessPhase π → Option π
  | loading q _ _ | searching q _ | counting q | forking q => some q
  | _ => none

/-- The process that the thread is creating, once its table of threads is set up. -/
def ProcessPhase.loaded {π : Type} : ProcessPhase π → Option π
  | searching q _ | counting q | forking q => some q
  | _ => none

theorem ProcessPhase.makes_of_loaded {π : Type} {phase : ProcessPhase π} {q : π}
    (h : phase.loaded = some q) : phase.makes = some q := by
  cases phase with
  | searching r k | counting r | forking r => exact h
  | unborn | running | loading | exitWait | exitCount | exitTest _ | exitClear | waiting _
  | finished => cases h

theorem Stage.hasClaimed_of_holdsPid {stage : Stage} (h : stage.holdsPid = true) :
    stage.hasClaimed = true := by
  cases stage <;> first | rfl | cases h

namespace ProcessTable

variable {ι π : Type}

/-- The smallest number of frames of an address space: those of the stack. -/
def minFrames : ℕ := UserStackSize / PageSize

/-- The thread is one of a process at the given stage. -/
def Within (st : ProcessTable ι π) (t : ι) (stage : Stage) : Prop :=
  t ∈ st.threads (st.proc t) ∧ st.stage (st.proc t) = stage

/-- The thread is the only one of its process. -/
def Alone (st : ProcessTable ι π) (t : ι) : Prop := ∀ d ∈ st.threads (st.proc t), d = t

/-- A process has, or had, the pid. -/
def Tried (st : ProcessTable ι π) (k : ℕ) : Prop :=
  ∃ r, (st.stage r).hasClaimed = true ∧ st.pidOf r = k

/-- What holds of a thread, by the place where it is. -/
def Fine (st : ProcessTable ι π) (t : ι) : Prop :=
  match st.phase t with
  | .unborn | .finished => True
  | .running | .exitWait | .waiting _ => st.Within t .live
  | .loading q n k => st.Within t .live ∧ st.stage q = .building ∧ st.frames q = k ∧ k ≤ n ∧
      minFrames ≤ n
  | .searching q k => st.Within t .live ∧ st.stage q = .building ∧ minFrames ≤ st.frames q ∧
      ∀ j < k, st.Tried j
  | .counting q => st.Within t .live ∧ st.stage q = .claimed
  | .forking q => st.Within t .live ∧ st.stage q = .live
  | .exitCount => st.Within t .live ∧ st.Alone t
  -- behind `exitTest 0` the machine is halted: no process is left
  | .exitTest nb => st.Within t .exiting ∧ st.Alone t ∧ (nb = 0 → ∀ q, st.stage q ≠ .live)
  | .exitClear => st.Within t .exiting ∧ st.Alone t

/-- The threads, with the processes that they belong to and create. -/
structure ThreadsInv (st : ProcessTable ι π) : Prop where
  fine : ∀ t, st.Fine t
  members : ∀ q t, t ∈ st.threads q → st.proc t = q ∧ st.phase t ≠ .unborn
  made : ∀ q, (st.stage q).inCreation = true → ∃ c, (st.phase c).makes = some q
  maker : ∀ c d q, (st.phase c).makes = some q → (st.phase d).makes = some q → c = d
  empty : ∀ c q, (st.phase c).makes = some q → st.threads q = ∅
  unborn : ∀ q, st.stage q = .unborn → st.threads q = ∅

/-- The tables of threads, of which only the number of entries is kept. -/
structure TotalsInv (st : ProcessTable ι π) : Prop where
  card : ∀ q, st.threads q ≠ ∅ → st.nbThreads q = (st.threads q).card
  one : ∀ c q, (st.phase c).loaded = some q → st.nbThreads q = 1

/-- The tables, as the history of the processes explains them. -/
structure TablesInv (st : ProcessTable ι π) : Prop where
  unborn : ∀ q, q ∉ st.born ↔ st.stage q = .unborn
  frames : st.fprovider.numAvailFrame + ∑ q ∈ st.born, st.frames q = NumPhysPages - 1
  noFrames : ∀ q, st.stage q = .unborn → st.frames q = 0
  enough : ∀ q, (st.stage q).hasClaimed = true → minFrames ≤ st.frames q
  pid_lt : ∀ q, (st.stage q).hasClaimed = true → st.pidOf q < 64
  pids : ∀ k : Fin 64, st.pids k = true ↔ ∃ q, (st.stage q).holdsPid = true ∧ st.pidOf q = k
  pid_inj : ∀ q r, (st.stage q).holdsPid = true → (st.stage r).holdsPid = true →
    st.pidOf q = st.pidOf r → q = r
  count : st.nbProcesses = (st.born.filter fun q => st.stage q = .live).card

namespace Fine

variable {st st' : ProcessTable ι π} {t : ι}

/-- A thread that does not move stays as it is when nothing is taken from it. -/
theorem frame (h : st.Fine t) (hphase : st'.phase t = st.phase t) (hproc : st'.proc t = st.proc t)
    (hmember : t ∈ st.threads (st.proc t) → t ∈ st'.threads (st.proc t) ∧
      st'.stage (st.proc t) = st.stage (st.proc t))
    (halone : st.Alone t → t ∈ st.threads (st.proc t) → ∀ d ∈ st'.threads (st.proc t), d = t)
    (hmakes : ∀ q, (st.phase t).makes = some q → st'.stage q = st.stage q ∧
      st'.frames q = st.frames q)
    (htried : ∀ r, (st.stage r).hasClaimed = true → (st'.stage r).hasClaimed = true ∧
      st'.pidOf r = st.pidOf r)
    (hlast : (∀ q, st.stage q ≠ .live) → ∀ q, st'.stage q ≠ .live) : st'.Fine t := by
  have hwithin {stage : Stage} (hw : st.Within t stage) : st'.Within t stage := by
    obtain ⟨hmem, hstage⟩ := hw
    obtain ⟨hmem', hstage'⟩ := hmember hmem
    exact ⟨hproc ▸ hmem', by rw [hproc, hstage', hstage]⟩
  have halone' {stage : Stage} (hw : st.Within t stage) (ha : st.Alone t) : st'.Alone t := by
    intro d hd
    rw [hproc] at hd
    exact halone ha hw.1 d hd
  rw [Fine] at h ⊢
  rw [hphase]
  cases hp : st.phase t with
  | unborn | finished => trivial
  | running | exitWait | waiting _ =>
      rw [hp] at h
      exact hwithin h
  | loading q n k =>
      rw [hp] at h hmakes
      obtain ⟨hstage, hframes⟩ := hmakes q rfl
      exact ⟨hwithin h.1, hstage.trans h.2.1, hframes.trans h.2.2.1, h.2.2.2⟩
  | searching q k =>
      rw [hp] at h hmakes
      obtain ⟨hstage, hframes⟩ := hmakes q rfl
      refine ⟨hwithin h.1, hstage.trans h.2.1, hframes ▸ h.2.2.1, fun j hj => ?_⟩
      obtain ⟨r, hr, hpid⟩ := h.2.2.2 j hj
      exact ⟨r, (htried r hr).1, (htried r hr).2.trans hpid⟩
  | counting q | forking q =>
      rw [hp] at h hmakes
      exact ⟨hwithin h.1, (hmakes q rfl).1.trans h.2⟩
  | exitCount | exitClear =>
      rw [hp] at h
      exact ⟨hwithin h.1, halone' h.1 h.2⟩
  | exitTest nb =>
      rw [hp] at h
      exact ⟨hwithin h.1, halone' h.1 h.2.1, fun hzero => hlast (h.2.2 hzero)⟩

/-- The process that a thread creates is neither finished nor unborn. -/
theorem stage_of_makes (h : st.Fine t) {q : π} (hq : (st.phase t).makes = some q) :
    st.stage q ≠ .unborn ∧ st.stage q ≠ .exiting ∧ st.stage q ≠ .dead := by
  rw [Fine] at h
  cases hp : st.phase t with
  | loading r n k | searching r k =>
      rw [hp] at h hq
      cases hq
      rw [h.2.1]
      decide
  | counting r | forking r =>
      rw [hp] at h hq
      cases hq
      rw [h.2]
      decide
  | unborn | running | exitWait | exitCount | exitTest _ | exitClear | waiting _ | finished =>
      rw [hp] at hq
      cases hq

/-- A thread that creates a process belongs to one that is counted. -/
theorem within_of_makes (h : st.Fine t) {q : π} (hq : (st.phase t).makes = some q) :
    st.Within t .live := by
  rw [Fine] at h
  cases hp : st.phase t with
  | loading | searching | counting | forking =>
      rw [hp] at h
      exact h.1
  | unborn | running | exitWait | exitCount | exitTest _ | exitClear | waiting _ | finished =>
      rw [hp] at hq
      cases hq

end Fine

/-! ## The threads -/

namespace ThreadsInv

variable {st st' : ProcessTable ι π} {c : ι} {q : π}

/-- A running thread belongs to a process that is counted. -/
theorem within_of_running (h : st.ThreadsInv) (hc : st.phase c = .running) :
    st.Within c .live := by
  have hfine := h.fine c
  rw [Fine, hc] at hfine
  exact hfine

/-- Nobody else is in a process that has one thread, or creates it. -/
theorem others_of_alone (h : st.ThreadsInv) {t : ι} (hmem : c ∈ st.threads (st.proc c))
    (ha : st.Alone c) (ht : t ≠ c) :
    t ∉ st.threads (st.proc c) ∧ (st.phase t).makes ≠ some (st.proc c) := by
  refine ⟨fun htmem => ht (ha t htmem), fun hmakes => ?_⟩
  rw [h.empty t _ hmakes] at hmem
  exact absurd hmem (Finset.notMem_empty c)

/-- Nobody else creates the process, or is in it. -/
theorem others_of_makes (h : st.ThreadsInv) {t : ι} (hc : (st.phase c).makes = some q)
    (ht : t ≠ c) : t ∉ st.threads q ∧ (st.phase t).makes ≠ some q := by
  refine ⟨?_, fun hmakes => ht (h.maker t c q hmakes hc)⟩
  rw [h.empty c q hc]
  exact Finset.notMem_empty t

section Moves

variable [DecidableEq ι]

theorem phase_moveTo (st : ProcessTable ι π) (c : ι) (next : ProcessPhase π) :
    (st.moveTo c next).phase c = next := Function.update_self _ _ _

theorem phase_moveTo_of_ne (st : ProcessTable ι π) {c t : ι} (next : ProcessPhase π)
    (ht : t ≠ c) : (st.moveTo c next).phase t = st.phase t := Function.update_of_ne ht _ _

/-- A thread moves on. If it creates no process any more, the process has been created. -/
theorem moveTo (h : st.ThreadsInv) {next : ProcessPhase π}
    (hmakes : next.makes = (st.phase c).makes ∨ next.makes = none ∧
      ∀ q, (st.phase c).makes = some q → (st.stage q).inCreation = false)
    (hborn : next ≠ .unborn) (hfine : (st.moveTo c next).Fine c) :
    (st.moveTo c next).ThreadsInv := by
  have hold {t : ι} {q : π} (ht : ((st.moveTo c next).phase t).makes = some q) :
      (st.phase t).makes = some q := by
    by_cases htc : t = c
    · subst htc
      rw [phase_moveTo] at ht
      rcases hmakes with hmakes | ⟨hmakes, -⟩
      · exact hmakes ▸ ht
      · rw [hmakes] at ht
        cases ht
    · rw [phase_moveTo_of_ne st next htc] at ht
      exact ht
  refine ⟨fun t => ?_, fun q t ht => ⟨(h.members q t ht).1, ?_⟩, fun q hq => ?_,
    fun d e q hd he => h.maker d e q (hold hd) (hold he), fun d q hd => h.empty d q (hold hd),
    h.unborn⟩
  · by_cases ht : t = c
    · rw [ht]
      exact hfine
    · exact (h.fine t).frame (phase_moveTo_of_ne st next ht) rfl (fun hmem => ⟨hmem, rfl⟩)
        (fun ha _ => ha) (fun q _ => ⟨rfl, rfl⟩) (fun r hr => ⟨hr, rfl⟩) (fun hnone => hnone)
  · by_cases htc : t = c
    · rw [htc, phase_moveTo]
      exact hborn
    · rw [phase_moveTo_of_ne st next htc]
      exact (h.members q t ht).2
  · obtain ⟨d, hd⟩ := h.made q hq
    refine ⟨d, ?_⟩
    by_cases hdc : d = c
    · subst hdc
      rw [phase_moveTo]
      rcases hmakes with hmakes | ⟨-, hover⟩
      · rw [hmakes, hd]
      · rw [show (st.moveTo d next).stage = st.stage from rfl, hover q hd] at hq
        cases hq
    · rw [phase_moveTo_of_ne st next hdc]
      exact hd

/-- A thread starts in a process that is counted. -/
theorem startThread [DecidableEq π] (h : st.ThreadsInv) {t : ι} (ht : st.phase t = .unborn)
    (hlive : st.stage q = .live) (hmakes : ∀ d, (st.phase d).makes ≠ some q)
    (halone : ∀ d, d ∈ st.threads q → st.Alone d → st.phase d = .running) (tid : ℕ) (sp : ℤ)
    (nbThreads : ℕ) : (st.startThread q t tid sp nbThreads).ThreadsInv := by
  set st' := st.startThread q t tid sp nbThreads with hst'
  have hself : st'.phase t = .running := Function.update_self _ _ _
  have hother {d : ι} (hd : d ≠ t) : st'.phase d = st.phase d := Function.update_of_ne hd _ _
  have hproc : st'.proc t = q := Function.update_self _ _ _
  have hproc' {d : ι} (hd : d ≠ t) : st'.proc d = st.proc d := Function.update_of_ne hd _ _
  have hthreads : st'.threads q = insert t (st.threads q) := Function.update_self _ _ _
  have hthreads' {r : π} (hr : r ≠ q) : st'.threads r = st.threads r := Function.update_of_ne hr _ _
  have hnew {d : ι} {r : π} (hd : (st'.phase d).makes = some r) :
      (st.phase d).makes = some r ∧ r ≠ q := by
    have hdt : d ≠ t := by
      rintro rfl
      rw [hself] at hd
      cases hd
    rw [hother hdt] at hd
    refine ⟨hd, ?_⟩
    rintro rfl
    exact hmakes d hd
  constructor
  case fine =>
    intro d
    by_cases hd : d = t
    · rw [hd, Fine, hself]
      refine ⟨?_, by rw [hproc]; exact hlive⟩
      rw [hproc, hthreads]
      exact Finset.mem_insert_self _ _
    · by_cases hq : st.proc d = q ∧ st.phase d = .running
      · have hw := h.within_of_running hq.2
        rw [Fine, hother hd, hq.2]
        refine ⟨?_, by rw [hproc' hd]; exact hw.2⟩
        rw [hproc' hd, hq.1, hthreads, ← hq.1]
        exact Finset.mem_insert_of_mem hw.1
      · refine (h.fine d).frame (hother hd) (hproc' hd) (fun hmem => ⟨?_, rfl⟩) (fun ha hmem => ?_)
          (fun r _ => ⟨rfl, rfl⟩) (fun r hr => ⟨hr, rfl⟩) (fun hnone => hnone)
        · by_cases hdq : st.proc d = q
          · rw [hdq, hthreads, ← hdq]
            exact Finset.mem_insert_of_mem hmem
          · rw [hthreads' hdq]
            exact hmem
        · by_cases hdq : st.proc d = q
          · exact absurd ⟨hdq, halone d (hdq ▸ hmem) ha⟩ hq
          · rw [hthreads' hdq]
            exact ha
  case members =>
    intro r d hd
    have hkept (hold : d ∈ st.threads r) : st'.proc d = r ∧ st'.phase d ≠ .unborn := by
      have hdt : d ≠ t := by
        rintro rfl
        exact (h.members r d hold).2 ht
      rw [hproc' hdt, hother hdt]
      exact h.members r d hold
    by_cases hrq : r = q
    · rw [hrq, hthreads, Finset.mem_insert, ← hrq] at hd
      rcases hd with hd | hold
      · rw [hd, hself, hrq]
        exact ⟨hproc, nofun⟩
      · exact hkept hold
    · rw [hthreads' hrq] at hd
      exact hkept hd
  case made =>
    intro r hr
    obtain ⟨d, hd⟩ := h.made r hr
    have hdt : d ≠ t := by
      rintro rfl
      rw [ht] at hd
      cases hd
    exact ⟨d, by rw [hother hdt]; exact hd⟩
  case maker =>
    exact fun d e r hd he => h.maker d e r (hnew hd).1 (hnew he).1
  case empty =>
    intro d r hd
    obtain ⟨hd, hr⟩ := hnew hd
    rw [hthreads' hr]
    exact h.empty d r hd
  case unborn =>
    intro r hr
    have hrq : r ≠ q := by
      rintro rfl
      rw [show st'.stage r = st.stage r from rfl, hlive] at hr
      cases hr
    rw [hthreads' hrq]
    exact h.unborn r hr

/-- A thread leaves its process. -/
theorem leave [DecidableEq π] (h : st.ThreadsInv) (hc : st.phase c = .running) :
    (st.leave c).ThreadsInv := by
  set st' := st.leave c with hst'
  have hself : st'.phase c = .finished := Function.update_self _ _ _
  have hother {t : ι} (ht : t ≠ c) : st'.phase t = st.phase t := Function.update_of_ne ht _ _
  have hsubset (r : π) : st'.threads r ⊆ st.threads r := by
    by_cases hr : r = st.proc c
    · rw [hr]
      rw [show st'.threads (st.proc c) = (st.threads (st.proc c)).erase c from
        Function.update_self _ _ _]
      exact Finset.erase_subset _ _
    · rw [show st'.threads r = st.threads r from Function.update_of_ne hr _ _]
  have hkept {t : ι} {r : π} (ht : t ≠ c) (hmem : t ∈ st.threads r) : t ∈ st'.threads r := by
    by_cases hr : r = st.proc c
    · rw [hr] at hmem ⊢
      rw [show st'.threads (st.proc c) = (st.threads (st.proc c)).erase c from
        Function.update_self _ _ _]
      exact Finset.mem_erase.mpr ⟨ht, hmem⟩
    · rw [show st'.threads r = st.threads r from Function.update_of_ne hr _ _]
      exact hmem
  have hmakes {t : ι} {r : π} (ht : (st'.phase t).makes = some r) : (st.phase t).makes = some r := by
    by_cases htc : t = c
    · rw [htc, hself] at ht
      cases ht
    · rw [hother htc] at ht
      exact ht
  constructor
  case fine =>
    intro t
    by_cases ht : t = c
    · rw [ht, Fine, hself]
      trivial
    · exact (h.fine t).frame (hother ht) rfl (fun hmem => ⟨hkept ht hmem, rfl⟩)
        (fun ha _ d hd => ha d (hsubset _ hd)) (fun q _ => ⟨rfl, rfl⟩) (fun r hr => ⟨hr, rfl⟩)
        (fun hnone => hnone)
  case members =>
    intro r t ht
    refine ⟨(h.members r t (hsubset r ht)).1, ?_⟩
    by_cases htc : t = c
    · rw [htc, hself]
      nofun
    · rw [hother htc]
      exact (h.members r t (hsubset r ht)).2
  case made =>
    intro r hr
    obtain ⟨d, hd⟩ := h.made r hr
    have hdc : d ≠ c := by
      rintro rfl
      rw [hc] at hd
      cases hd
    exact ⟨d, by rw [hother hdc]; exact hd⟩
  case maker =>
    exact fun d e r hd he => h.maker d e r (hmakes hd) (hmakes he)
  case empty =>
    intro d r hd
    exact Finset.subset_empty.mp (h.empty d r (hmakes hd) ▸ hsubset r)
  case unborn =>
    intro r hr
    exact Finset.subset_empty.mp (h.unborn r hr ▸ hsubset r)

/-- A thread moves on and brings a process that is its own business to another stage. -/
theorem advance [DecidableEq π] (h : st.ThreadsInv) {next : ProcessPhase π} {stage : Stage}
    (hphase : st'.phase = Function.update st.phase c next) (hproc : st'.proc = st.proc)
    (hthreads : st'.threads = st.threads) (hstage : st'.stage = Function.update st.stage q stage)
    (hframes : ∀ r, r ≠ q → st'.frames r = st.frames r)
    (hpid : ∀ r, r ≠ q → st'.pidOf r = st.pidOf r)
    (hothers : ∀ t, t ≠ c → t ∉ st.threads q ∧ (st.phase t).makes ≠ some q)
    (hmade : ∀ r, (st.phase c).makes = some r → r = q)
    (hmakes : ∀ r, next.makes = some r → r = q ∧ st.threads q = ∅)
    (hcreation : stage.inCreation = true → next.makes = some q)
    (hclaimed : (st.stage q).hasClaimed = true → stage.hasClaimed = true ∧ st'.pidOf q = st.pidOf q)
    (hlive : stage = .live → ∃ r, st.stage r = .live) (hborn : next ≠ .unborn)
    (hunborn : stage ≠ .unborn) (hfine : st'.Fine c) : st'.ThreadsInv := by
  have hself : st'.phase c = next := by rw [hphase, Function.update_self]
  have hother {t : ι} (ht : t ≠ c) : st'.phase t = st.phase t := by
    rw [hphase, Function.update_of_ne ht]
  have hstage' {r : π} (hr : r ≠ q) : st'.stage r = st.stage r := by
    rw [hstage, Function.update_of_ne hr]
  have hstageq : st'.stage q = stage := by rw [hstage, Function.update_self]
  constructor
  case fine =>
    intro t
    by_cases ht : t = c
    · rw [ht]
      exact hfine
    · refine (h.fine t).frame (hother ht) (by rw [hproc]) (fun hmem => ⟨by rw [hthreads]; exact hmem,
        hstage' ?_⟩) (fun ha _ => by rw [hthreads]; exact ha) (fun r hr => ?_) (fun r hr => ?_)
        fun hnone r => ?_
      · intro hequal
        rw [hequal] at hmem
        exact (hothers t ht).1 hmem
      · have hne : r ≠ q := by
          rintro rfl
          exact (hothers t ht).2 hr
        exact ⟨hstage' hne, hframes r hne⟩
      · by_cases hrq : r = q
        · rw [hrq] at hr ⊢
          rw [hstageq]
          exact hclaimed hr
        · rw [hstage' hrq]
          exact ⟨hr, hpid r hrq⟩
      · by_cases hrq : r = q
        · rw [hrq, hstageq]
          intro heq
          obtain ⟨r', hr'⟩ := hlive heq
          exact hnone r' hr'
        · rw [hstage' hrq]
          exact hnone r
  case members =>
    intro r t ht
    rw [hthreads] at ht
    obtain ⟨htproc, htphase⟩ := h.members r t ht
    refine ⟨by rw [hproc]; exact htproc, ?_⟩
    by_cases htc : t = c
    · rw [htc, hself]
      exact hborn
    · rw [hother htc]
      exact htphase
  case made =>
    intro r hr
    by_cases hrq : r = q
    · rw [hrq, hstageq] at hr
      exact ⟨c, by rw [hself, hrq]; exact hcreation hr⟩
    · rw [hstage' hrq] at hr
      obtain ⟨d, hd⟩ := h.made r hr
      have hdc : d ≠ c := by
        rintro rfl
        exact hrq (hmade r hd)
      exact ⟨d, by rw [hother hdc]; exact hd⟩
  case maker =>
    intro d e r hd he
    by_cases hdc : d = c <;> by_cases hec : e = c
    · rw [hdc, hec]
    · rw [hdc, hself] at hd
      rw [hother hec, (hmakes r hd).1] at he
      exact absurd he (hothers e hec).2
    · rw [hec, hself] at he
      rw [hother hdc, (hmakes r he).1] at hd
      exact absurd hd (hothers d hdc).2
    · rw [hother hdc] at hd
      rw [hother hec] at he
      exact h.maker d e r hd he
  case empty =>
    intro d r hd
    rw [hthreads]
    by_cases hdc : d = c
    · rw [hdc, hself] at hd
      rw [(hmakes r hd).1]
      exact (hmakes r hd).2
    · rw [hother hdc] at hd
      exact h.empty d r hd
  case unborn =>
    intro r hr
    rw [hthreads]
    have hrq : r ≠ q := by
      rintro rfl
      exact hunborn (hstageq.symm.trans hr)
    rw [hstage' hrq] at hr
    exact h.unborn r hr

end Moves

end ThreadsInv

/-! ## The number of threads -/

namespace TotalsInv

variable {st st' : ProcessTable ι π} {c : ι} {q : π}

/-- No table of threads changes. -/
theorem frame (h : st.TotalsInv) (hthreads : st'.threads = st.threads)
    (hnb : st'.nbThreads = st.nbThreads)
    (hloaded : ∀ t q, (st'.phase t).loaded = some q → (st.phase t).loaded = some q) :
    st'.TotalsInv := by
  refine ⟨fun q hq => ?_, fun t q ht => ?_⟩
  · rw [hthreads] at hq ⊢
    rw [hnb]
    exact h.card q hq
  · rw [hnb]
    exact h.one t q (hloaded t q ht)

section Moves

variable [DecidableEq ι]

/-- A thread moves on, and no table of threads changes. -/
theorem advance (h : st.TotalsInv) {next : ProcessPhase π}
    (hphase : st'.phase = Function.update st.phase c next) (hthreads : st'.threads = st.threads)
    (hnb : st'.nbThreads = st.nbThreads)
    (hloaded : ∀ q, next.loaded = some q → (st.phase c).loaded = some q) : st'.TotalsInv := by
  refine h.frame hthreads hnb fun t q ht => ?_
  rw [hphase, Function.update_apply] at ht
  split at ht
  · rename_i htc
    rw [htc]
    exact hloaded q ht
  · exact ht

variable [DecidableEq π]

/-- The table of threads of a new process is set up. -/
theorem loaded (h : st.TotalsInv) (hq : st.threads q = ∅)
    (hmaker : ∀ d, (st.phase d).makes = some q → d = c) : (st.loaded c q).TotalsInv := by
  have hnb {r : π} (hr : r ≠ q) : (st.loaded c q).nbThreads r = st.nbThreads r :=
    Function.update_of_ne hr _ _
  refine ⟨fun r hr => ?_, fun d r hd => ?_⟩
  · change st.threads r ≠ ∅ at hr
    have hrq : r ≠ q := by
      rintro rfl
      exact hr hq
    rw [hnb hrq]
    exact h.card r hr
  · by_cases hrq : r = q
    · rw [hrq]
      exact Function.update_self _ _ _
    · rw [hnb hrq]
      have hdc : d ≠ c := by
        rintro rfl
        rw [show (st.loaded d q).phase d = .searching q 0 from Function.update_self _ _ _] at hd
        exact hrq (Option.some.inj hd).symm
      rw [show (st.loaded c q).phase d = st.phase d from Function.update_of_ne hdc _ _] at hd
      exact h.one d r hd

/-- A thread starts, and is counted. -/
theorem startThread (h : st.TotalsInv) {t : ι} (hnew : t ∉ st.threads q)
    (hmakes : ∀ d, (st.phase d).makes ≠ some q) (tid : ℕ) (sp : ℤ) {nbThreads : ℕ}
    (hcard : nbThreads = (st.threads q).card + 1) :
    (st.startThread q t tid sp nbThreads).TotalsInv := by
  set st' := st.startThread q t tid sp nbThreads with hst'
  have hnb {r : π} (hr : r ≠ q) : st'.nbThreads r = st.nbThreads r := Function.update_of_ne hr _ _
  refine ⟨fun r hr => ?_, fun d r hd => ?_⟩
  · by_cases hrq : r = q
    · rw [hrq, show st'.nbThreads q = nbThreads from Function.update_self _ _ _,
        show st'.threads q = insert t (st.threads q) from Function.update_self _ _ _,
        Finset.card_insert_of_notMem hnew, hcard]
    · rw [show st'.threads r = st.threads r from Function.update_of_ne hrq _ _] at hr ⊢
      rw [hnb hrq]
      exact h.card r hr
  · have hdt : d ≠ t := by
      rintro rfl
      rw [show st'.phase d = .running from Function.update_self _ _ _] at hd
      cases hd
    rw [show st'.phase d = st.phase d from Function.update_of_ne hdt _ _] at hd
    have hrq : r ≠ q := by
      rintro rfl
      exact hmakes d (ProcessPhase.makes_of_loaded hd)
    rw [hnb hrq]
    exact h.one d r hd

/-- A thread leaves, and is not counted any more. -/
theorem leave (h : st.TotalsInv) (hmem : c ∈ st.threads (st.proc c))
    (hmakes : ∀ d, (st.phase d).makes ≠ some (st.proc c)) : (st.leave c).TotalsInv := by
  have hnb {r : π} (hr : r ≠ st.proc c) : (st.leave c).nbThreads r = st.nbThreads r :=
    Function.update_of_ne hr _ _
  refine ⟨fun r hr => ?_, fun d r hd => ?_⟩
  · by_cases hrc : r = st.proc c
    · rw [hrc, show (st.leave c).nbThreads (st.proc c) = st.nbThreads (st.proc c) - 1 from
          Function.update_self _ _ _,
        show (st.leave c).threads (st.proc c) = (st.threads (st.proc c)).erase c from
          Function.update_self _ _ _, Finset.card_erase_of_mem hmem,
        h.card _ (Finset.ne_empty_of_mem hmem)]
    · rw [show (st.leave c).threads r = st.threads r from Function.update_of_ne hrc _ _] at hr ⊢
      rw [hnb hrc]
      exact h.card r hr
  · have hdc : d ≠ c := by
      rintro rfl
      rw [show (st.leave d).phase d = .finished from Function.update_self _ _ _] at hd
      cases hd
    rw [show (st.leave c).phase d = st.phase d from Function.update_of_ne hdc _ _] at hd
    have hrc : r ≠ st.proc c := by
      rintro rfl
      exact hmakes d (ProcessPhase.makes_of_loaded hd)
    rw [hnb hrc]
    exact h.one d r hd

end Moves

end TotalsInv

end ProcessTable

end Nachos
