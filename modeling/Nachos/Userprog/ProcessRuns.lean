/-
# The table of processes in every run

The threads and the tables put together: one case for each critical section, and from it what
holds in every run, under the assumption that every address space has at least the frames of
its stack.
-/

import Nachos.Userprog.Pids

namespace Nachos

open Base

/-- The thread is in an exit that has taken its process out of the count. -/
def ProcessPhase.leaves {π : Type} : ProcessPhase π → Bool
  | exitTest _ | exitClear => true
  | _ => false

/-- The thread is in `do_UserProcessExit`. -/
def ProcessPhase.exits {π : Type} : ProcessPhase π → Bool
  | exitWait | exitCount | exitTest _ | exitClear => true
  | _ => false

namespace ProcessTable

variable {ι π : Type} {st st' : ProcessTable ι π} {c : ι} {q : π}

/-- A process that is out of the count has a thread that is about to clear its pid. -/
def Leaving (st : ProcessTable ι π) : Prop :=
  ∀ q, st.stage q = .exiting → ∃ c, st.proc c = q ∧ (st.phase c).leaves = true

/-- The invariant of the processes. -/
structure Inv (st : ProcessTable ι π) : Prop where
  threads : st.ThreadsInv
  totals : st.TotalsInv
  tables : st.TablesInv
  leaving : st.Leaving

/-- The address space of the section, if it creates one, has at least a stack. -/
def EnoughFrames : ProcessSection ι π → Prop
  | .create _ _ n => minFrames ≤ n
  | _ => True

/-- No thread that leaves moves elsewhere. -/
theorem Leaving.frame (h : st.Leaving) (hstage : st'.stage = st.stage)
    (hkept : ∀ t, (st.phase t).leaves = true → (st'.phase t).leaves = true ∧
      st'.proc t = st.proc t) : st'.Leaving := by
  intro r hr
  rw [hstage] at hr
  obtain ⟨t, rfl, ht⟩ := h r hr
  exact ⟨t, (hkept t ht).2, (hkept t ht).1⟩

/-- A thread that leaves is not one at another place. -/
theorem ne_of_leaves {t : ι} (ht : (st.phase t).leaves = true) (hc : (st.phase c).leaves = false) :
    t ≠ c := by
  rintro rfl
  rw [hc] at ht
  cases ht

section Sections

variable [DecidableEq ι] [DecidableEq π]

/-- A thread moves on and brings a process to another stage. -/
theorem Leaving.advance (h : st.Leaving) {next : ProcessPhase π} {stage : Stage}
    (hphase : st'.phase = Function.update st.phase c next) (hproc : st'.proc = st.proc)
    (hstage : st'.stage = Function.update st.stage q stage) (hs : stage ≠ .exiting)
    (hc : (st.phase c).leaves = true → st.proc c = q) : st'.Leaving := by
  intro r hr
  have hrq : r ≠ q := by
    rintro rfl
    rw [hstage, Function.update_self] at hr
    exact hs hr
  rw [hstage, Function.update_of_ne hrq] at hr
  obtain ⟨t, rfl, ht⟩ := h r hr
  have htc : t ≠ c := by
    rintro rfl
    exact hrq (hc ht)
  exact ⟨t, by rw [hproc], by rw [hphase, Function.update_of_ne htc]; exact ht⟩

namespace Inv

omit [DecidableEq π] in
/-- A thread moves on and changes nothing else. -/
theorem moveTo (h : st.Inv) {old next : ProcessPhase π} (hc : st.phase c = old)
    (hmakes : next.makes = old.makes ∨ next.makes = none ∧
      ∀ q, old.makes = some q → (st.stage q).inCreation = false)
    (hborn : next ≠ .unborn) (hnext : old.leaves = true → next.leaves = true)
    (hloaded : ∀ q, next.loaded = some q → old.loaded = some q)
    (hfine : (st.moveTo c next).Fine c) : (st.moveTo c next).Inv := by
  subst hc
  refine ⟨h.threads.moveTo hmakes hborn hfine, h.totals.advance rfl rfl rfl hloaded,
    h.tables.congr rfl,
    h.leaving.frame rfl fun t ht => ⟨?_, rfl⟩⟩
  by_cases htc : t = c
  · subst htc
    rw [ThreadsInv.phase_moveTo]
    exact hnext ht
  · rw [ThreadsInv.phase_moveTo_of_ne st next htc]
    exact ht

/-- A thread starts in a process that is counted. -/
theorem startThread (h : st.Inv) {t : ι} (ht : st.phase t = .unborn)
    (hlive : st.stage q = .live) (hmakes : ∀ d, (st.phase d).makes ≠ some q)
    (halone : ∀ d, d ∈ st.threads q → st.Alone d → st.phase d = .running) (tid : ℕ) (sp : ℤ)
    {nbThreads : ℕ} (hcard : nbThreads = (st.threads q).card + 1) :
    (st.startThread q t tid sp nbThreads).Inv := by
  have hnew : t ∉ st.threads q := fun hmem => (h.threads.members q t hmem).2 ht
  refine ⟨h.threads.startThread ht hlive hmakes halone tid sp nbThreads,
    h.totals.startThread hnew hmakes tid sp hcard, h.tables.congr rfl,
    h.leaving.frame rfl fun d hd => ?_⟩
  have hdt : d ≠ t := ne_of_leaves hd (by rw [ht]; rfl)
  have hphase : (st.startThread q t tid sp nbThreads).phase d = st.phase d :=
    Function.update_of_ne hdt _ _
  exact ⟨by rw [hphase]; exact hd, Function.update_of_ne hdt _ _⟩

/-- A thread leaves its process. -/
theorem leave (h : st.Inv) (hc : st.phase c = .running) : (st.leave c).Inv := by
  obtain ⟨hmem, -⟩ := h.threads.within_of_running hc
  refine ⟨h.threads.leave hc, h.totals.leave hmem fun d hd => ?_, h.tables.congr rfl,
    h.leaving.frame rfl fun t ht => ⟨?_, rfl⟩⟩
  · rw [h.threads.empty d _ hd] at hmem
    exact absurd hmem (Finset.notMem_empty c)
  have htc : t ≠ c := ne_of_leaves ht (by rw [hc]; rfl)
  rw [show (st.leave c).phase t = st.phase t from Function.update_of_ne htc _ _]
  exact ht

/-! ## The creation of a process -/

/-- The creation of a process begins. -/
theorem building (h : st.Inv) {n : ℕ} (hc : st.phase c = .running) (hq : q ∉ st.born)
    (hn : minFrames ≤ n) : (st.create c q n).Inv := by
  have hunborn : st.stage q = .unborn := (h.tables.unborn q).mp hq
  have hwithin := h.threads.within_of_running hc
  have hproc : st.proc c ≠ q := by
    rintro rfl
    rw [hwithin.2] at hunborn
    cases hunborn
  refine ⟨h.threads.advance rfl rfl rfl rfl (fun r _ => rfl) (fun r _ => rfl) (fun t ht => ⟨?_, ?_⟩)
    (fun r hr => ?_) (fun r hr => ?_) (fun _ => rfl) (fun hclaimed => ?_) (by simp) (by simp)
    (by simp) ?_, h.totals.advance rfl rfl rfl (by simp [ProcessPhase.loaded]),
    h.tables.building n hq,
    h.leaving.advance rfl rfl rfl (by simp) (by simp [hc, ProcessPhase.leaves])⟩
  · rw [h.threads.unborn q hunborn]
    exact Finset.notMem_empty t
  · exact fun hmakes => ((h.threads.fine t).stage_of_makes hmakes).1 hunborn
  · rw [hc] at hr
    cases hr
  · cases hr
    exact ⟨rfl, h.threads.unborn q hunborn⟩
  · rw [hunborn] at hclaimed
    cases hclaimed
  · rw [Fine, show ProcessTable.phase _ c = .loading q n 0 from Function.update_self _ _ _]
    refine ⟨⟨hwithin.1, ?_⟩, Function.update_self _ _ _, h.tables.noFrames q hunborn, n.zero_le, hn⟩
    exact (Function.update_of_ne hproc _ _).trans hwithin.2

/-- The creator of a process brings it to its next stage. -/
theorem advance (h : st.Inv) {next : ProcessPhase π} {stage : Stage}
    (hmakes : (st.phase c).makes = some q) (hnext : next.makes = some q)
    (hphase : st'.phase = Function.update st.phase c next) (hproc : st'.proc = st.proc)
    (hthreads : st'.threads = st.threads) (hstage : st'.stage = Function.update st.stage q stage)
    (hframes : ∀ r, r ≠ q → st'.frames r = st.frames r)
    (hpid : ∀ r, r ≠ q → st'.pidOf r = st.pidOf r)
    (hclaimed : (st.stage q).hasClaimed = true → stage.hasClaimed = true ∧ st'.pidOf q = st.pidOf q)
    (hstages : stage = .building ∨ stage = .claimed ∨ stage = .live) (htotals : st'.TotalsInv)
    (htables : st'.TablesInv) (hfine : st'.Within c .live → st'.Fine c) : st'.Inv := by
  have hwithin := (h.threads.fine c).within_of_makes hmakes
  have hempty := h.threads.empty c q hmakes
  have hproc' : st.proc c ≠ q := by
    rintro rfl
    have hmem := hwithin.1
    rw [hempty] at hmem
    exact absurd hmem (Finset.notMem_empty c)
  have hwithin' : st'.Within c .live := by
    rw [Within, hproc, hthreads, hstage, Function.update_of_ne hproc']
    exact hwithin
  have hleaves : (st.phase c).leaves = false := by
    cases hp : st.phase c with
    | exitTest _ | exitClear =>
        rw [hp] at hmakes
        cases hmakes
    | _ => rfl
  refine ⟨h.threads.advance hphase hproc hthreads hstage hframes hpid
    (fun t ht => h.threads.others_of_makes hmakes ht)
    (fun r hr => Option.some.inj (hr.symm.trans hmakes))
    (fun r hr => ⟨Option.some.inj (hr.symm.trans hnext), hempty⟩) (fun _ => hnext) hclaimed
    (fun _ => ⟨_, hwithin.2⟩) (fun hunborn => ?_) ?_ (hfine hwithin'), htotals, htables,
    h.leaving.advance hphase hproc hstage ?_ fun hleaves' => ?_⟩
  · rw [hunborn] at hnext
    cases hnext
  · rcases hstages with rfl | rfl | rfl <;> simp
  · rcases hstages with rfl | rfl | rfl <;> simp
  · rw [hleaves] at hleaves'
    cases hleaves'

/-- A page gets its frame. -/
theorem takeFrame (h : st.Inv) {n k : ℕ} (hc : st.phase c = .loading q n k) (hk : k < n)
    (havail : st.fprovider.isFrameAvail = true) (rand : ℕ) : (st.takeFrame c q n k rand).Inv := by
  have hfine := h.threads.fine c
  rw [Fine, hc] at hfine
  obtain ⟨-, hstage, hframes, -, hn⟩ := hfine
  refine h.advance (by rw [hc]; rfl) rfl rfl rfl rfl (Function.update_eq_self_iff.mpr hstage.symm).symm
    (fun r hr => Function.update_of_ne hr _ _) (fun r _ => rfl) (fun hclaimed => ?_) (.inl rfl)
    (h.totals.advance rfl rfl rfl (by simp [ProcessPhase.loaded]))
    (h.tables.takeFrame hstage hframes havail rand) fun hwithin => ?_
  · rw [hstage] at hclaimed
    cases hclaimed
  · rw [Fine, show (st.takeFrame c q n k rand).phase c = .loading q n (k + 1) from
      Function.update_self _ _ _]
    exact ⟨hwithin, hstage, Function.update_self _ _ _, hk, hn⟩

/-- All pages have their frames. -/
theorem loaded (h : st.Inv) {n : ℕ} (hc : st.phase c = .loading q n n) :
    (st.loaded c q).Inv := by
  have hfine := h.threads.fine c
  rw [Fine, hc] at hfine
  obtain ⟨-, hstage, hframes, -, hn⟩ := hfine
  have hmakes : (st.phase c).makes = some q := by rw [hc]; rfl
  refine h.advance hmakes rfl rfl rfl rfl (Function.update_eq_self_iff.mpr hstage.symm).symm
    (fun r _ => rfl) (fun r _ => rfl) (fun hclaimed => ?_) (.inl rfl)
    (h.totals.loaded (h.threads.empty c q hmakes) fun d hd => h.threads.maker d c q hd hmakes)
    (h.tables.congr rfl) fun hwithin => ?_
  · rw [hstage] at hclaimed
    cases hclaimed
  · rw [Fine, show (st.loaded c q).phase c = .searching q 0 from Function.update_self _ _ _]
    exact ⟨hwithin, hstage, hframes.symm ▸ hn, fun j hj => absurd hj j.not_lt_zero⟩

omit [DecidableEq π] in
/-- A pid is in use. -/
theorem occupied (h : st.Inv) {k : Fin 64} (hc : st.phase c = .searching q k)
    (hk : st.pids k = true) : (st.moveTo c (.searching q (k + 1))).Inv := by
  have hfine := h.threads.fine c
  rw [Fine, hc] at hfine
  obtain ⟨hwithin, hstage, hframes, htried⟩ := hfine
  refine h.moveTo hc (.inl rfl) (by simp) (by simp [ProcessPhase.leaves]) (fun _ hr => hr) ?_
  rw [Fine, ThreadsInv.phase_moveTo]
  refine ⟨hwithin, hstage, hframes, fun j hj => ?_⟩
  rcases Nat.lt_succ_iff_lt_or_eq.mp hj with hj | rfl
  · exact htried j hj
  · obtain ⟨r, hr, hpid⟩ := (h.tables.pids k).mp hk
    exact ⟨r, Stage.hasClaimed_of_holdsPid hr, hpid⟩

/-- A free pid is found. -/
theorem claim (h : st.Inv) {k : Fin 64} (hc : st.phase c = .searching q k)
    (hk : st.pids k = false) : (st.claim c q k).Inv := by
  have hfine := h.threads.fine c
  rw [Fine, hc] at hfine
  obtain ⟨-, hstage, hframes, -⟩ := hfine
  refine h.advance (by rw [hc]; rfl) rfl rfl rfl rfl rfl (fun r _ => rfl)
    (fun r hr => Function.update_of_ne hr _ _) (fun hclaimed => ?_) (.inr (.inl rfl))
    (h.totals.advance rfl rfl rfl fun r hr => by rw [hc]; exact hr)
    (h.tables.claim hstage hframes hk) fun hwithin => ?_
  · rw [hstage] at hclaimed
    cases hclaimed
  · rw [Fine, show (st.claim c q k).phase c = .counting q from Function.update_self _ _ _]
    exact ⟨hwithin, Function.update_self _ _ _⟩

/-- The process is counted. -/
theorem count (h : st.Inv) (hc : st.phase c = .counting q) : (st.count c q).Inv := by
  have hfine := h.threads.fine c
  rw [Fine, hc] at hfine
  refine h.advance (by rw [hc]; rfl) rfl rfl rfl rfl rfl (fun r _ => rfl) (fun r _ => rfl)
    (fun _ => ⟨rfl, rfl⟩) (.inr (.inr rfl))
    (h.totals.advance rfl rfl rfl fun r hr => by rw [hc]; exact hr) (h.tables.counted hfine.2)
    fun hwithin => ?_
  rw [Fine, show (st.count c q).phase c = .forking q from Function.update_self _ _ _]
  exact ⟨hwithin, Function.update_self _ _ _⟩

/-- The main thread of the process starts. -/
theorem fork (h : st.Inv) {t : ι} (hc : st.phase c = .forking q) (ht : st.phase t = .unborn) :
    (st.fork c t q).Inv := by
  have hfine := h.threads.fine c
  rw [Fine, hc] at hfine
  obtain ⟨hwithin, hlive⟩ := hfine
  have hmakes : (st.phase c).makes = some q := by rw [hc]; rfl
  have htc : t ≠ c := by
    rintro rfl
    rw [hc] at ht
    cases ht
  have hmoved : (st.moveTo c .running).Inv := by
    refine h.moveTo hc (.inr ⟨rfl, fun r hr => ?_⟩) (by simp) (by simp [ProcessPhase.leaves])
      (by simp [ProcessPhase.loaded]) ?_
    · cases hr
      rw [hlive]
      rfl
    · rw [Fine, ThreadsInv.phase_moveTo]
      exact hwithin
  have hempty : st.threads q = ∅ := h.threads.empty c q hmakes
  have hone : st.nbThreads q = 1 := h.totals.one c q (by rw [hc]; rfl)
  have hequal : st.fork c t q = (st.moveTo c .running).startThread q t 1 0 (st.nbThreads q) := by
    simp only [ProcessTable.fork, ProcessTable.startThread, ProcessTable.moveTo,
      Function.update_comm htc]
  rw [hequal]
  refine hmoved.startThread ?_ hlive (fun d hd => ?_) (fun d hd _ => ?_) 1 0 ?_
  · rw [ThreadsInv.phase_moveTo_of_ne st _ htc]
    exact ht
  · by_cases hdc : d = c
    · rw [hdc, ThreadsInv.phase_moveTo] at hd
      cases hd
    · rw [ThreadsInv.phase_moveTo_of_ne st _ hdc] at hd
      exact (h.threads.others_of_makes hmakes hdc).2 hd
  · rw [show (st.moveTo c .running).threads q = ∅ from hempty] at hd
    exact absurd hd (Finset.notMem_empty d)
  · rw [show (st.moveTo c .running).threads q = ∅ from hempty, hone, Finset.card_empty]

/-- A thread of a process starts another one. -/
theorem spawn (h : st.Inv) {t : ι} (hc : st.phase c = .running) (ht : st.phase t = .unborn)
    (tid : ℕ) (sp : ℤ) : (st.spawn c t tid sp).Inv := by
  obtain ⟨hmem, hlive⟩ := h.threads.within_of_running hc
  have hcard := h.totals.card _ (Finset.ne_empty_of_mem hmem)
  refine h.startThread ht hlive (fun d hd => ?_) (fun d hd halone => ?_) tid sp (by rw [hcard])
  · rw [h.threads.empty d _ hd] at hmem
    exact absurd hmem (Finset.notMem_empty c)
  · rw [Alone, (h.threads.members _ d hd).1] at halone
    rw [← halone c hmem]
    exact hc

/-! ## The exit of a process -/

omit [DecidableEq π] in
/-- The other threads of the process are gone. -/
theorem pass (h : st.Inv) (hc : st.phase c = .exitWait)
    (htotal : st.getTotalThreads (st.proc c) ≤ 1) : (st.moveTo c .exitCount).Inv := by
  have hwithin := h.threads.fine c
  rw [Fine, hc] at hwithin
  rw [getTotalThreads, h.totals.card _ (Finset.ne_empty_of_mem hwithin.1)] at htotal
  refine h.moveTo hc (.inl rfl) (by simp) (by simp [ProcessPhase.leaves]) (fun _ hr => hr) ?_
  rw [Fine, ThreadsInv.phase_moveTo]
  exact ⟨hwithin, fun d hd => Finset.card_le_one.mp htotal d hd c hwithin.1⟩

/-- The process is taken out of the count. -/
theorem uncount (h : st.Inv) (hc : st.phase c = .exitCount) : (st.uncount c).Inv := by
  have hfine := h.threads.fine c
  rw [Fine, hc] at hfine
  obtain ⟨⟨hmem, hlive⟩, halone⟩ := hfine
  have htables := h.tables.uncount hlive
  have hself : (st.uncount c).phase c = .exitTest (st.nbProcesses - 1) := Function.update_self _ _ _
  have hstage : (st.uncount c).stage (st.proc c) = .exiting := Function.update_self _ _ _
  refine ⟨h.threads.advance (q := st.proc c) rfl rfl rfl rfl (fun r _ => rfl) (fun r _ => rfl)
    (fun t ht => h.threads.others_of_alone hmem halone ht) (fun r hr => ?_)
    (by simp [ProcessPhase.makes]) (by simp [Stage.inCreation])
    (fun _ => ⟨rfl, rfl⟩) (by simp) (by simp) (by simp) ?_,
    h.totals.advance rfl rfl rfl (by simp [ProcessPhase.loaded]), htables, fun r hr => ?_⟩
  · rw [hc] at hr
    cases hr
  · rw [Fine, hself]
    exact ⟨⟨hmem, hstage⟩, halone, fun hzero => htables.not_live_of_count hzero⟩
  · by_cases hrq : r = st.proc c
    · exact ⟨c, hrq.symm, by rw [hself]; rfl⟩
    · rw [show (st.uncount c).stage r = st.stage r from Function.update_of_ne hrq _ _] at hr
      obtain ⟨t, htr, ht⟩ := h.leaving r hr
      have htc : t ≠ c := ne_of_leaves ht (by rw [hc]; rfl)
      refine ⟨t, htr, ?_⟩
      rw [show (st.uncount c).phase t = st.phase t from Function.update_of_ne htc _ _]
      exact ht

omit [DecidableEq π] in
/-- The process is not the last one. -/
theorem tested (h : st.Inv) {nbProcesses : ℤ} (hc : st.phase c = .exitTest nbProcesses) :
    (st.moveTo c .exitClear).Inv := by
  have hfine := h.threads.fine c
  rw [Fine, hc] at hfine
  refine h.moveTo hc (.inl rfl) (by simp) (fun _ => rfl) (fun _ hr => hr) ?_
  rw [Fine, ThreadsInv.phase_moveTo]
  exact ⟨hfine.1, hfine.2.1⟩

/-- The process gives up its pid. -/
theorem clear (h : st.Inv) {k : Fin 64} (hc : st.phase c = .exitClear)
    (hk : st.pidOf (st.proc c) = k) : (st.clear c k).Inv := by
  have hfine := h.threads.fine c
  rw [Fine, hc] at hfine
  obtain ⟨⟨hmem, hexiting⟩, halone⟩ := hfine
  refine ⟨h.threads.advance (q := st.proc c) rfl rfl rfl rfl (fun r _ => rfl) (fun r _ => rfl)
    (fun t ht => h.threads.others_of_alone hmem halone ht) (fun r hr => ?_)
    (by simp [ProcessPhase.makes]) (by simp [Stage.inCreation])
    (fun _ => ⟨rfl, rfl⟩) (by simp) (by simp) (by simp) ?_,
    h.totals.advance rfl rfl rfl (by simp [ProcessPhase.loaded]), h.tables.clear hexiting hk,
    h.leaving.advance rfl rfl rfl (by simp) fun _ => rfl⟩
  · rw [hc] at hr
    cases hr
  · rw [Fine, show (st.clear c k).phase c = .finished from Function.update_self _ _ _]
    trivial

omit [DecidableEq ι] [DecidableEq π] in
/-- The machine is halted. -/
theorem halting (h : st.Inv) : Inv { st with halted := true } :=
  ⟨⟨h.threads.fine, h.threads.members, h.threads.made, h.threads.maker, h.threads.empty,
    h.threads.unborn⟩, ⟨h.totals.card, h.totals.one⟩, h.tables.congr rfl, h.leaving⟩

omit [DecidableEq ι] [DecidableEq π] in
/-- The search for a pid ends with one. -/
theorem lt_of_searching (h : st.Inv) {k : ℕ} (hc : st.phase c = .searching q k) : k < 64 := by
  have hfine := h.threads.fine c
  rw [Fine, hc] at hfine
  exact h.tables.lt_of_tried hfine.2.2.2

omit [DecidableEq π] in
/-- A thread moves between places that ask only that its process is counted. -/
theorem wander (h : st.Inv) {old next : ProcessPhase π} (hc : st.phase c = old)
    (hold : old = .running ∨ ∃ p, old = .waiting p)
    (hnext : next = .running ∨ next = .exitWait ∨ ∃ p, next = .waiting p) :
    (st.moveTo c next).Inv := by
  have hwithin : st.Within c .live := by
    have hfine := h.threads.fine c
    rw [Fine, hc] at hfine
    rcases hold with rfl | ⟨p, rfl⟩
    · exact hfine
    · exact hfine
  have hmakes : old.makes = none := by
    rcases hold with rfl | ⟨p, rfl⟩ <;> rfl
  have hleaves : old.leaves = false := by
    rcases hold with rfl | ⟨p, rfl⟩ <;> rfl
  refine h.moveTo hc (.inl (hmakes ▸ ?_)) ?_ (fun hnot => ?_) (fun r hr => ?_) ?_
  · rcases hnext with rfl | rfl | ⟨p, rfl⟩ <;> rfl
  · rcases hnext with rfl | rfl | ⟨p, rfl⟩ <;> simp
  · rw [hleaves] at hnot
    cases hnot
  · rcases hnext with rfl | rfl | ⟨p, rfl⟩ <;> cases hr
  · rw [Fine, ThreadsInv.phase_moveTo]
    rcases hnext with rfl | rfl | ⟨p, rfl⟩ <;> exact hwithin

/-- **A critical section keeps the invariant.** -/
theorem step (h : st.Inv) {call : ProcessSection ι π} (hcall : EnoughFrames call)
    (hstep : st.Step call st') : st'.Inv := by
  cases outcome hstep with
  | idle => exact h
  | building c q n hc hq => exact h.building hc hq hcall
  | framed c q n k rand hc hk havail => exact h.takeFrame hc hk havail rand
  | loaded c q n hc => exact h.loaded hc
  | occupied c q k uninit hc hk => exact h.occupied hc hk
  | claimed c q k uninit hc hk => exact h.claim hc hk
  | exhausted c q k uninit st' hc hk => exact absurd (h.lt_of_searching hc) (Nat.not_lt.mpr hk)
  | counted c q hc => exact h.count hc
  | forked c t q hc ht => exact h.fork hc ht
  | spawned c t tid sp hc ht => exact h.spawn hc ht tid sp
  | left c hc => exact h.leave hc
  | exited c hc => exact h.wander hc (.inl rfl) (.inr (.inl rfl))
  | passed c hc htotal => exact h.pass hc htotal
  | uncounted c hc => exact h.uncount hc
  | halting c hc => exact h.halting
  | tested c nbProcesses hc hne => exact h.tested hc
  | cleared c k hc hk => exact h.clear hc hk
  | waited c p hc hne => exact h.wander hc (.inl rfl) (.inr (.inr ⟨p, rfl⟩))
  | returned c p hc hpid => exact h.wander hc (.inr ⟨p, rfl⟩) (.inl rfl)

end Inv

/-! ## Every run -/

/-- The tables with one process, which has one thread. -/
def started (fprovider : FrameProvider) (pids : ℕ → Bool) (space : AddrSpace) (boot : π)
    (main : ι) : ProcessTable ι π where
  fprovider := fprovider
  pids k := pids k
  nbProcesses := 1
  halted := false
  pidOf := Function.update (fun _ => 0) boot space.pid
  frames := Function.update (fun _ => 0) boot space.numPages
  -- the table of threads has the main thread from the beginning
  nbThreads := Function.update (fun _ => 0) boot 1
  threads := Function.update (fun _ => ∅) boot {main}
  proc _ := boot
  tid _ := 1
  sp _ := 0
  phase := Function.update (fun _ => .unborn) main .running
  born := {boot}
  stage := Function.update (fun _ => .unborn) boot .live

/-- The machine after `StartProcess` has started its first process, which the process count
includes from the beginning. -/
def Started (st : ProcessTable ι π) : Prop :=
  ∃ mem noffH rand uninit space fprovider pids boot main,
    AddrSpace.construct (FrameProvider.new mem NumPhysPages) (fun _ => false) noffH rand uninit =
      .ok (some space, fprovider, pids) ∧ minFrames ≤ space.numPages ∧
    st = started fprovider pids space boot main

/-- No thread is in a creation or an exit. -/
def Quiet (st : ProcessTable ι π) : Prop :=
  ∀ t, (st.phase t).makes = none ∧ (st.phase t).exits = false

/-- A call of `do_WaitPid(p)` by thread `c` returns. -/
def WaitReturns (x : Base.Step (ProcessTable ι π) (ProcessSection ι π)) (c : ι) (p : Fin 64) :
    Prop :=
  (x.label = .waitPid c p ∨ x.label = .waitTest c ∧ x.before.phase c = .waiting p) ∧
    x.after.phase c = .running

omit [DecidableEq ι] [DecidableEq π] in
/-- The address space of the first process. -/
theorem numAvailFrame_of_construct {mem : Mem} {noffH : NoffHeader} {rand : ℕ → ℕ} {uninit : ℕ}
    {space : AddrSpace} {fprovider : FrameProvider} {pids : ℕ → Bool}
    (h : AddrSpace.construct (FrameProvider.new mem NumPhysPages) (fun _ => false) noffH rand
      uninit = .ok (some space, fprovider, pids)) :
    fprovider.numAvailFrame + space.numPages = NumPhysPages - 1 := by
  have halloc := AddrSpace.construct_eq_ok h
  have hcount := ((ProcessRun.Inv.empty mem (fun _ => false) 1).create halloc pids 1).numAvailFrame_eq
  have hlength : (ProcessRun.allFrames ⟨fprovider, pids, 1, [] ++ [space]⟩).length =
      space.numPages := by
    simp [ProcessRun.allFrames, AddrSpace.frames, halloc.length]
  rw [hlength] at hcount
  show fprovider.numAvailFrame + space.numPages = NumPhysPages - 1
  change fprovider.numAvailFrame + space.numPages + 1 = NumPhysPages at hcount
  omega

section Started

variable {fprovider : FrameProvider} {pids : ℕ → Bool} {space : AddrSpace} {boot : π} {main : ι}

theorem started_stage_self :
    (started fprovider pids space boot main : ProcessTable ι π).stage boot = .live := by
  simp [started]

theorem started_stage_of_ne (hq : q ≠ boot) :
    (started fprovider pids space boot main : ProcessTable ι π).stage q = .unborn := by
  simp [started, hq]

/-- Every process but the first one is unborn. -/
theorem started_stage_eq_unborn :
    (started fprovider pids space boot main : ProcessTable ι π).stage q = .unborn ↔ q ≠ boot := by
  refine ⟨?_, started_stage_of_ne⟩
  rintro hq rfl
  rw [started_stage_self] at hq
  cases hq

theorem eq_boot_of_hasClaimed
    (hq : ((started fprovider pids space boot main : ProcessTable ι π).stage q).hasClaimed = true) :
    q = boot := by
  by_contra hne
  rw [started_stage_of_ne hne] at hq
  cases hq

/-- The only thread is one of the first process. -/
theorem started_threadsInv :
    (started fprovider pids space boot main : ProcessTable ι π).ThreadsInv := by
  set st : ProcessTable ι π := started fprovider pids space boot main with hst
  have hmain : st.phase main = .running := by simp [hst, started]
  have hphase {t : ι} (ht : t ≠ main) : st.phase t = .unborn := by simp [hst, started, ht]
  have hmakes (t : ι) : (st.phase t).makes = none := by
    by_cases ht : t = main
    · rw [ht, hmain]
      rfl
    · rw [hphase ht]
      rfl
  have hthreads : st.threads boot = {main} := by simp [hst, started]
  have hempty {q : π} (hq : q ≠ boot) : st.threads q = ∅ := by simp [hst, started, hq]
  refine ⟨fun t => ?_, fun q t ht => ?_, fun q hq => ?_, fun c d q hc => ?_, fun c q hc => ?_,
    fun q hq => hempty (started_stage_eq_unborn.mp hq)⟩
  · by_cases ht : t = main
    · rw [ht, Fine, hmain]
      exact ⟨by rw [show st.proc main = boot from rfl, hthreads]; exact Finset.mem_singleton_self _,
        started_stage_self⟩
    · rw [Fine, hphase ht]
      trivial
  · by_cases hq : q = boot
    · rw [hq, hthreads, Finset.mem_singleton] at ht
      rw [ht, hmain]
      exact ⟨hq.symm, by simp⟩
    · rw [hempty hq] at ht
      exact absurd ht (Finset.notMem_empty t)
  · by_cases hqb : q = boot
    · rw [hqb, hst, started_stage_self] at hq
      cases hq
    · rw [hst, started_stage_of_ne hqb] at hq
      cases hq
  · rw [hmakes c] at hc
    cases hc
  · rw [hmakes c] at hc
    cases hc

/-- The table of threads of the first process has the only thread. -/
theorem started_totalsInv :
    (started fprovider pids space boot main : ProcessTable ι π).TotalsInv := by
  refine ⟨fun q hq => ?_, fun t q ht => ?_⟩
  · have hqb : q = boot := by
      by_contra hne
      exact hq (by simp [started, hne])
    simp [started, hqb]
  · by_cases htm : t = main
    · simp [started, htm, ProcessPhase.loaded] at ht
    · simp [started, htm, ProcessPhase.loaded] at ht

/-- The tables hold what the first address space has taken. -/
theorem started_tablesInv (hframes : fprovider.numAvailFrame + space.numPages = NumPhysPages - 1)
    (henough : minFrames ≤ space.numPages) (hpid : space.pid = 0)
    (hpids : pids = Function.update (fun _ => false) 0 true) :
    (started fprovider pids space boot main : ProcessTable ι π).TablesInv := by
  set st : ProcessTable ι π := started fprovider pids space boot main with hst
  have hframesOf : st.frames boot = space.numPages := by simp [hst, started]
  have hpidOf : st.pidOf boot = 0 := by simp [hst, started, hpid]
  have hpidsOf (k : Fin 64) : st.pids k = true ↔ (k : ℕ) = 0 := by
    show pids k = true ↔ _
    rw [hpids, Function.update_apply]
    split
    · rename_i hk
      exact iff_of_true rfl hk
    · rename_i hk
      exact iff_of_false (by simp) hk
  refine ⟨fun q => ?_, ?_, fun q hq => by simp [hst, started, started_stage_eq_unborn.mp hq],
    fun q hq => ?_, fun q hq => ?_, fun k => ?_, fun q r hq hr _ => ?_, ?_⟩
  · show q ∉ ({boot} : Finset π) ↔ _
    rw [Finset.mem_singleton]
    exact started_stage_eq_unborn.symm
  · show fprovider.numAvailFrame + ∑ q ∈ {boot}, st.frames q = NumPhysPages - 1
    rw [Finset.sum_singleton, hframesOf]
    exact hframes
  · rw [eq_boot_of_hasClaimed hq, hframesOf]
    exact henough
  · rw [eq_boot_of_hasClaimed hq, hpidOf]
    decide
  · rw [hpidsOf]
    constructor
    · intro hk
      exact ⟨boot, by rw [hst, started_stage_self]; rfl, by rw [hpidOf, hk]⟩
    · rintro ⟨q, hq, hk⟩
      rw [← hk, eq_boot_of_hasClaimed (Stage.hasClaimed_of_holdsPid hq), hpidOf]
  · rw [eq_boot_of_hasClaimed (Stage.hasClaimed_of_holdsPid hq),
      eq_boot_of_hasClaimed (Stage.hasClaimed_of_holdsPid hr)]
  · show (1 : ℤ) = (({boot} : Finset π).filter fun q => st.stage q = .live).card
    rw [Finset.filter_singleton, if_pos started_stage_self, Finset.card_singleton]
    rfl

end Started

/-- The machine starts within the invariant. -/
theorem Started.inv (h : st.Started) : st.Inv := by
  obtain ⟨mem, noffH, rand, uninit, space, fprovider, pids, boot, main, hconstruct, henough, rfl⟩ := h
  have htake : (space.pid, pids) = (0, Function.update (fun _ => false) 0 true) :=
    (AddrSpace.takePid_of_construct hconstruct).symm
  refine ⟨started_threadsInv, started_totalsInv, started_tablesInv
    (numAvailFrame_of_construct hconstruct) henough (Prod.mk.inj htake).1 (Prod.mk.inj htake).2,
    fun q hq => ?_⟩
  rw [eq_boot_of_hasClaimed (q := q) (by rw [hq]; rfl), started_stage_self] at hq
  cases hq

omit [DecidableEq ι] [DecidableEq π] in
/-- Where no creation or exit is under way, the processes with a pid are the live ones. -/
theorem Inv.holdsPid_iff (h : st.Inv) (hquiet : st.Quiet) (q : π) :
    (st.stage q).holdsPid = true ↔ st.stage q = .live := by
  refine ⟨fun hq => ?_, fun hq => by rw [hq]; rfl⟩
  cases hstage : st.stage q with
  | live => rfl
  | claimed =>
      obtain ⟨c, hc⟩ := h.threads.made q (by rw [hstage]; rfl)
      rw [(hquiet c).1] at hc
      cases hc
  | exiting =>
      obtain ⟨c, -, hc⟩ := h.leaving q hstage
      have hexits := (hquiet c).2
      cases hp : st.phase c with
      | exitTest _ | exitClear =>
          rw [hp] at hexits
          cases hexits
      | unborn | running | loading | searching | counting | forking | exitWait | exitCount
      | waiting _ | finished =>
          rw [hp] at hc
          cases hc
  | unborn | building | dead =>
      rw [hstage] at hq
      cases hq

omit [DecidableEq ι] [DecidableEq π] in
/-- An exit that is to halt the machine is that of the last process. -/
theorem Inv.last (h : st.Inv) (hc : st.phase c = .exitTest 0) (q : π) :
    st.stage q ≠ .live ∧ (st.stage q).inCreation = false := by
  have hfine := h.threads.fine c
  rw [Fine, hc] at hfine
  have hnone := hfine.2.2 rfl
  refine ⟨hnone q, ?_⟩
  by_contra hcreation
  obtain ⟨d, hd⟩ := h.threads.made q (Bool.not_eq_false _ ▸ hcreation)
  exact hnone _ ((h.threads.fine d).within_of_makes hd).2

/-- The machine is halted by an exit that found no process left. -/
theorem Inv.exists_exitTest (h : st.Inv) {call : ProcessSection ι π} (hstep : st.Step call st')
    (hhalted : st'.halted = true) :
    ∃ c, st.phase c = .exitTest 0 ∧ st' = { st with halted := true } := by
  have hbefore : st.halted = false := hstep.1
  have hnot (hsame : st'.halted = st.halted) : False := by
    rw [hsame, hbefore] at hhalted
    cases hhalted
  cases outcome hstep with
  | halting c hc => exact ⟨c, hc, rfl⟩
  | exhausted c q k uninit st' hc hk => exact absurd (h.lt_of_searching hc) (Nat.not_lt.mpr hk)
  | _ => exact (hnot rfl).elim

/-- A wait for another process returns when the pid is free. -/
theorem pids_of_waitReturns {x : Base.Step (ProcessTable ι π) (ProcessSection ι π)} {p : Fin 64}
    (hstep : x.before.Step x.label x.after) (hreturns : WaitReturns x c p)
    (hother : (p : ℕ) ≠ x.before.pidOf (x.before.proc c)) : x.before.pids p = false := by
  obtain ⟨before, label, after⟩ := x
  obtain ⟨hlabel | ⟨hlabel, hwaiting⟩, hafter⟩ := hreturns
  · change label = _ at hlabel
    subst hlabel
    obtain ⟨-, hrun⟩ := hstep
    obtain ⟨-, hrun⟩ := Option.ite_none_right_eq_some.mp hrun
    rw [← Option.some.inj hrun] at hafter
    rw [doWaitPid, if_neg hother, ThreadsInv.phase_moveTo] at hafter
    cases hafter
  · change label = _ at hlabel
    change before.phase c = _ at hwaiting
    subst hlabel
    obtain ⟨-, hrun⟩ := hstep
    simp only [run, hwaiting, Option.some.injEq] at hrun
    subst hrun
    by_contra hset
    change (if before.pids p then before else _).phase c = _ at hafter
    rw [if_pos (Bool.not_eq_false _ ▸ hset), hwaiting] at hafter
    cases hafter

/-- **The table of processes.** In every run in which each address space has the frames of its
stack, no creation is refused for want of frames, and no exit of a thread takes an index outside
the arrays of its address space: a process that holds a pid has one of the table's that no other
process holds, and `pids` is set exactly for these; `nbProcesses` counts the live processes, which
are those with a pid where no creation or exit is under way; the machine is halted by the exit of
the last process, when none is live or being created; and `do_WaitPid` of another process returns
only when its pid is free. -/
theorem process_table {first : ProcessTable ι π}
    {steps : List (Base.Step (ProcessTable ι π) (ProcessSection ι π))} (hfirst : first.Started)
    (hrun : Trace Step first steps st) (henough : ∀ x ∈ steps, EnoughFrames x.label) :
    (∀ q, (st.stage q).holdsPid = true → st.pidOf q < 64 ∧
      ∀ r, (st.stage r).holdsPid = true → st.pidOf r = st.pidOf q → r = q) ∧
    (∀ k, st.pids k = true ↔ ∃ q, (st.stage q).holdsPid = true ∧ st.pidOf q = k) ∧
    st.nbProcesses = (st.born.filter fun q => st.stage q = .live).card ∧
    (st.Quiet → ∀ q, (st.stage q).holdsPid = true ↔ st.stage q = .live) ∧
    (∀ x ∈ steps, x.after.halted = true →
      ∀ q, x.after.stage q ≠ .live ∧ (x.after.stage q).inCreation = false) ∧
    ∀ x ∈ steps, ∀ c p, WaitReturns x c p → (p : ℕ) ≠ x.before.pidOf (x.before.proc c) →
      x.before.pids p = false := by
  obtain ⟨hlast, hall⟩ := hrun.invariant (fun _ hbefore hstep hcall => Inv.step hbefore hcall hstep)
    hfirst.inv henough
  refine ⟨fun q hq => ⟨hlast.tables.pid_lt q (Stage.hasClaimed_of_holdsPid hq), fun r hr hequal =>
    hlast.tables.pid_inj r q hr hq hequal⟩, hlast.tables.pids, hlast.tables.count,
    fun hquiet => hlast.holdsPid_iff hquiet, fun x hx hhalted => ?_, fun x hx c p hreturns hother =>
    pids_of_waitReturns (hrun.rel_of_mem x hx) hreturns hother⟩
  obtain ⟨c, hc, hafter⟩ := (hall x hx).1.exists_exitTest (hrun.rel_of_mem x hx) hhalted
  rw [hafter]
  exact (hall x hx).1.last hc

end Sections

/-- A machine that has started `smallExecutable`. -/
theorem exists_started : ∃ fprovider space,
    (started fprovider (Function.update (fun _ => false) 0 true) space 0 0 :
      ProcessTable ℕ ℕ).Started ∧ space.pid = 0 ∧ fprovider.numAvailFrame = 239 := by
  have hsize : ProcessRun.smallExecutable.numPages = 16 := by decide
  have hall : (FrameProvider.new (fun _ => 0) NumPhysPages).numAvailFrame = 255 :=
    FrameProvider.numAvailFrame_new _ _
  obtain ⟨space, fprovider, hconstruct, hpages, hpid, hcount⟩ := AddrSpace.exists_construct
    (FrameProvider.new (fun _ => 0) NumPhysPages) ProcessRun.smallExecutable rfl
    (by rw [hsize]; decide) (by rw [hsize, hall]; decide) (fun _ => false) (fun _ => 0) 0
  refine ⟨fprovider, space, ⟨_, _, _, _, _, _, _, 0, 0, hconstruct, ?_, rfl⟩, hpid, by omega⟩
  rw [hpages, hsize]
  decide

/-- One thread creates a process while another one waits for the pid that it will get. -/
theorem process_table_wait : ∃ (first : ProcessTable ℕ ℕ)
    (steps : List (Base.Step (ProcessTable ℕ ℕ) (ProcessSection ℕ ℕ))) (st : ProcessTable ℕ ℕ),
    first.Started ∧ Trace Step first steps st ∧
    steps.map (fun x => x.label) =
      [.spawn 0 1 2 1648, .create 1 1 16, .waitPid 0 1, .waitTest 0] ∧
    (∀ x ∈ steps, EnoughFrames x.label) ∧ st.stage 1 = .building ∧
    st.nbProcesses = (st.born.filter fun q => st.stage q = .live).card ∧
    ∀ x ∈ steps, ∀ c p, WaitReturns x c p → (p : ℕ) ≠ x.before.pidOf (x.before.proc c) →
      x.before.pids p = false := by
  obtain ⟨fprovider, space, hstarted, hpid, havail⟩ := exists_started
  set first : ProcessTable ℕ ℕ :=
    started fprovider (Function.update (fun _ => false) 0 true) space 0 0 with hfirst
  set two := first.spawn 0 1 2 1648 with htwo
  set three := two.create 1 1 16 with hthree
  have hspawn : first.Step (.spawn 0 1 2 1648) two := by
    have hphases : first.phase 0 = .running ∧ first.phase 1 = .unborn ∧
        ¬ first.getTotalThreads (first.proc 0) + 1 > UserThreadMax :=
      ⟨rfl, rfl, show ¬ 1 + 1 > UserThreadMax by decide⟩
    exact ⟨rfl, by rw [run, if_pos hphases]⟩
  have hcreate : two.Step (.create 1 1 16) three := by
    have hmany : ¬ two.fprovider.numAvailFrame < 16 := by
      show ¬ fprovider.numAvailFrame < 16
      omega
    have hnew : two.phase 1 = .running ∧ 1 ∉ two.born ∧ ¬ two.fprovider.numAvailFrame < 16 := by
      refine ⟨rfl, ?_, hmany⟩
      show 1 ∉ ({0} : Finset ℕ)
      decide
    exact ⟨rfl, by rw [run, if_pos hnew]⟩
  have hwait : three.Step (.waitPid 0 1) (three.moveTo 0 (.waiting 1)) := by
    have hother : ((1 : Fin 64) : ℕ) ≠ three.pidOf (three.proc 0) := by
      show 1 ≠ space.pid
      omega
    have hphase : three.phase 0 = .running := rfl
    exact ⟨rfl, by rw [run, if_pos hphase, doWaitPid, if_neg hother]⟩
  have htest : (three.moveTo 0 (.waiting 1)).Step (.waitTest 0)
      ((three.moveTo 0 (.waiting 1)).moveTo 0 .running) := ⟨rfl, rfl⟩
  have hrun := (((Trace.nil first |>.snoc hspawn).snoc hcreate).snoc hwait).snoc htest
  have henough : ∀ x ∈ [⟨first, .spawn 0 1 2 1648, two⟩] ++ [⟨two, .create 1 1 16, three⟩] ++
      [⟨three, .waitPid 0 1, three.moveTo 0 (.waiting 1)⟩] ++
      [(⟨three.moveTo 0 (.waiting 1), .waitTest 0, (three.moveTo 0 (.waiting 1)).moveTo 0 .running⟩ :
        Base.Step (ProcessTable ℕ ℕ) (ProcessSection ℕ ℕ))], EnoughFrames x.label := by
    intro x hx
    simp only [List.cons_append, List.nil_append, List.mem_cons, List.not_mem_nil, or_false] at hx
    rcases hx with rfl | rfl | rfl | rfl
    · trivial
    · show minFrames ≤ 16
      decide
    · trivial
    · trivial
  obtain ⟨-, -, hcount, -, -, hwaits⟩ := process_table hstarted hrun henough
  exact ⟨first, _, _, hstarted, hrun, rfl, henough, rfl, hcount, hwaits⟩

/-- A process that waits for itself does not wait. -/
theorem not_free_of_waitReturns : ¬ ∀ (first st : ProcessTable ℕ ℕ)
    (steps : List (Base.Step (ProcessTable ℕ ℕ) (ProcessSection ℕ ℕ))), first.Started →
    Trace Step first steps st → (∀ x ∈ steps, EnoughFrames x.label) →
    ∀ x ∈ steps, ∀ c p, WaitReturns x c p → x.before.pids p = false := by
  intro hclaim
  obtain ⟨fprovider, space, hstarted, hpid, -⟩ := exists_started
  set first : ProcessTable ℕ ℕ :=
    started fprovider (Function.update (fun _ => false) 0 true) space 0 0 with hfirst
  have hphase : first.phase 0 = .running := by simp [hfirst, started]
  have hown : first.pidOf (first.proc 0) = 0 := by simp [hfirst, started, hpid]
  have hwait : first.Step (.waitPid 0 0) first :=
    ⟨rfl, Option.ite_none_right_eq_some.mpr ⟨hphase, congrArg some (if_pos hown.symm)⟩⟩
  have hfree := hclaim first first [⟨first, .waitPid 0 0, first⟩] hstarted
    ((Trace.nil first).snoc hwait) (fun x hx => by rw [List.mem_singleton.mp hx]; trivial)
    ⟨first, .waitPid 0 0, first⟩ (List.mem_singleton_self _) 0 0 ⟨.inl rfl, hphase⟩
  exact absurd hfree (by simp [hfirst, started])

end ProcessTable

end Nachos
