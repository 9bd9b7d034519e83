/-
# Pids, frames and the count of processes

The tables of the processes in every run. Each stage of a process is told apart by what the
tables hold for it: its frames, its pid and its part of the count. A free pid is always found,
since the frames run out first.
-/

import Nachos.Base.Counting
import Nachos.Userprog.LiveProcesses

namespace Nachos

open Base

namespace ProcessTable

variable {ι π : Type} {st st' : ProcessTable ι π} {c : ι} {q : π}

namespace TablesInv

/-- The invariant is about the tables only. -/
theorem congr (h : st.TablesInv)
    (htables : (st'.fprovider, st'.pids, st'.nbProcesses, st'.pidOf, st'.frames, st'.born,
      st'.stage) = (st.fprovider, st.pids, st.nbProcesses, st.pidOf, st.frames, st.born,
      st.stage)) : st'.TablesInv := by
  simp only [Prod.mk.injEq] at htables
  obtain ⟨hfp, hpids, hcount, hpidOf, hframes, hborn, hstage⟩ := htables
  constructor
  · rw [hborn, hstage]
    exact h.unborn
  · rw [hfp, hborn, hframes]
    exact h.frames
  · rw [hstage, hframes]
    exact h.noFrames
  · rw [hstage, hframes]
    exact h.enough
  · rw [hstage, hpidOf]
    exact h.pid_lt
  · rw [hpids, hstage, hpidOf]
    exact h.pids
  · rw [hstage, hpidOf]
    exact h.pid_inj
  · rw [hcount, hborn, hstage]
    exact h.count

theorem mem_born (h : st.TablesInv) (hq : st.stage q ≠ .unborn) : q ∈ st.born := by
  by_contra hnot
  exact hq ((h.unborn q).mp hnot)

/-! ## A free pid -/

/-- The processes that have, or had, a pid fit into the physical memory. -/
theorem card_claimed (h : st.TablesInv) :
    minFrames * (st.born.filter fun q => (st.stage q).hasClaimed = true).card ≤
      NumPhysPages - 1 := by
  set claimed := st.born.filter fun q => (st.stage q).hasClaimed = true with hclaimed
  calc minFrames * claimed.card = ∑ _q ∈ claimed, minFrames := by
        rw [Finset.sum_const, smul_eq_mul, mul_comm]
    _ ≤ ∑ q ∈ claimed, st.frames q :=
        Finset.sum_le_sum fun q hq => h.enough q (Finset.mem_filter.mp hq).2
    _ ≤ ∑ q ∈ st.born, st.frames q :=
        Finset.sum_le_sum_of_subset (Finset.filter_subset _ _)
    _ ≤ NumPhysPages - 1 := by
        rw [← h.frames]
        exact Nat.le_add_left _ _

/-- The search for a pid does not come to the end of the table. -/
theorem lt_of_tried (h : st.TablesInv) {k : ℕ} (hk : ∀ j < k, st.Tried j) : k < 64 := by
  classical
  by_contra hlarge
  set claimed := st.born.filter fun q => (st.stage q).hasClaimed = true with hclaimed
  have hsubset : Finset.range 64 ⊆ claimed.image st.pidOf := by
    intro j hj
    obtain ⟨r, hr, hpid⟩ := hk j (by have := Finset.mem_range.mp hj; omega)
    have hborn : r ∈ st.born := by
      refine h.mem_born fun hunborn => ?_
      rw [hunborn] at hr
      cases hr
    exact Finset.mem_image.mpr ⟨r, Finset.mem_filter.mpr ⟨hborn, hr⟩, hpid⟩
  have hmany : 64 ≤ claimed.card := by
    have hcard := (Finset.card_le_card hsubset).trans Finset.card_image_le
    rwa [Finset.card_range] at hcard
  have hfew : minFrames * claimed.card ≤ 255 := h.card_claimed
  rw [show minFrames = 16 by decide] at hfew
  omega

/-- No process is counted if the count is zero. -/
theorem not_live_of_count (h : st.TablesInv) (hzero : st.nbProcesses = 0) (q : π) :
    st.stage q ≠ .live := by
  intro hlive
  have hcount := h.count
  rw [hzero, eq_comm, Nat.cast_eq_zero, Finset.card_eq_zero] at hcount
  have hmem : q ∈ st.born.filter fun q => st.stage q = .live :=
    Finset.mem_filter.mpr ⟨h.mem_born (by rw [hlive]; nofun), hlive⟩
  rw [hcount] at hmem
  exact absurd hmem (Finset.notMem_empty q)

/-! ## The sections -/

section Sections

variable [DecidableEq π]

/-- The count of the live processes when one comes to another stage. -/
theorem card_live_update (stage : π → Stage) {born : Finset π} (hq : q ∈ born) (s : Stage) :
    (born.filter fun r => Function.update stage q s r = .live).card +
        (if stage q = .live then 1 else 0) =
      (born.filter fun r => stage r = .live).card + (if s = .live then 1 else 0) := by
  rw [Finset.card_filter, Finset.card_filter]
  exact sum_update_of_mem (fun _ s => if s = .live then 1 else 0) stage hq s

/-- A pid is held by a given process or by another one. -/
theorem pids_iff (h : st.TablesInv) (q : π) (k : Fin 64) : st.pids k = true ↔
    ((st.stage q).holdsPid = true ∧ st.pidOf q = k) ∨
      ∃ r, r ≠ q ∧ (st.stage r).holdsPid = true ∧ st.pidOf r = k := by
  rw [h.pids]
  constructor
  · rintro ⟨r, hr⟩
    by_cases hrq : r = q
    · exact .inl (hrq ▸ hr)
    · exact .inr ⟨r, hrq, hr⟩
  · rintro (hq | ⟨r, -, hr⟩)
    · exact ⟨q, hq⟩
    · exact ⟨r, hr⟩

/-- One process comes to another stage, and the tables follow. -/
theorem restage (h : st.TablesInv) {s : Stage} (hunborn : s ≠ .unborn)
    (hstage : st'.stage = Function.update st.stage q s) (hborn : st'.born = insert q st.born)
    (hfp : st'.fprovider = st.fprovider) (hframes : st'.frames = st.frames)
    (hpidOf : ∀ r, r ≠ q → st'.pidOf r = st.pidOf r)
    (henough : s.hasClaimed = true → minFrames ≤ st.frames q ∧ st'.pidOf q < 64)
    (hpids : ∀ k, st'.pids k = true ↔ (s.holdsPid = true ∧ st'.pidOf q = k) ∨
      ∃ r, r ≠ q ∧ (st.stage r).holdsPid = true ∧ st.pidOf r = k)
    (hfree : s.holdsPid = true →
      ∀ r, r ≠ q → (st.stage r).holdsPid = true → st.pidOf r ≠ st'.pidOf q)
    (hcount : st'.nbProcesses + (if st.stage q = .live then 1 else 0) =
      st.nbProcesses + (if s = .live then 1 else 0)) : st'.TablesInv := by
  have hself : st'.stage q = s := by rw [hstage, Function.update_self]
  have hother {r : π} (hr : r ≠ q) : st'.stage r = st.stage r := by
    rw [hstage, Function.update_of_ne hr]
  constructor
  case unborn =>
    intro r
    by_cases hr : r = q
    · rw [hr, hself, hborn]
      exact iff_of_false (fun hnot => hnot (Finset.mem_insert_self _ _)) hunborn
    · rw [hother hr, hborn, Finset.mem_insert, not_or, ← h.unborn r]
      exact and_iff_right hr
  case frames =>
    have hzero : q ∉ st.born → st.frames q = 0 := fun hq => h.noFrames q ((h.unborn q).mp hq)
    rw [hfp, hborn, hframes, Finset.sum_insert_of_eq_zero_if_notMem hzero]
    exact h.frames
  case noFrames =>
    intro r hr
    have hrq : r ≠ q := by
      rintro rfl
      exact hunborn (hself.symm.trans hr)
    rw [hframes]
    exact h.noFrames r (hother hrq ▸ hr)
  case enough =>
    intro r hr
    rw [hframes]
    by_cases hrq : r = q
    · rw [hrq, hself] at hr
      rw [hrq]
      exact (henough hr).1
    · exact h.enough r (hother hrq ▸ hr)
  case pid_lt =>
    intro r hr
    by_cases hrq : r = q
    · rw [hrq, hself] at hr
      rw [hrq]
      exact (henough hr).2
    · rw [hpidOf r hrq]
      exact h.pid_lt r (hother hrq ▸ hr)
  case pids =>
    intro k
    rw [hpids]
    constructor
    · rintro (⟨hholds, hpid⟩ | ⟨r, hrq, hholds, hpid⟩)
      · exact ⟨q, by rw [hself]; exact hholds, hpid⟩
      · exact ⟨r, by rw [hother hrq]; exact hholds, by rw [hpidOf r hrq]; exact hpid⟩
    · rintro ⟨r, hholds, hpid⟩
      by_cases hrq : r = q
      · rw [hrq, hself] at hholds
        exact .inl ⟨hholds, hrq ▸ hpid⟩
      · rw [hother hrq] at hholds
        rw [hpidOf r hrq] at hpid
        exact .inr ⟨r, hrq, hholds, hpid⟩
  case pid_inj =>
    intro r r' hr hr' hequal
    by_cases hrq : r = q <;> by_cases hrq' : r' = q
    · rw [hrq, hrq']
    · rw [hrq, hself] at hr
      rw [hother hrq'] at hr'
      rw [hrq, hpidOf r' hrq'] at hequal
      exact absurd hequal.symm (hfree hr r' hrq' hr')
    · rw [hrq', hself] at hr'
      rw [hother hrq] at hr
      rw [hrq', hpidOf r hrq] at hequal
      exact absurd hequal (hfree hr' r hrq hr)
    · rw [hother hrq] at hr
      rw [hother hrq'] at hr'
      rw [hpidOf r hrq, hpidOf r' hrq'] at hequal
      exact h.pid_inj r r' hr hr' hequal
  case count =>
    have hbefore : (insert q st.born).filter (fun r => st.stage r = .live) =
        st.born.filter fun r => st.stage r = .live := by
      by_cases hq : q ∈ st.born
      · rw [Finset.insert_eq_of_mem hq]
      · have hnot : st.stage q ≠ .live := by
          rw [(h.unborn q).mp hq]
          nofun
        rw [Finset.filter_insert, if_neg hnot]
    have hcard := card_live_update st.stage (Finset.mem_insert_self q st.born) s
    rw [hbefore] at hcard
    have hold := h.count
    rw [hborn, hstage]
    push_cast [← Nat.cast_inj (R := ℤ)] at hcard
    omega

/-- A process comes to another stage and keeps what it holds. -/
theorem keepPid (h : st.TablesInv) {s : Stage} (hunborn : s ≠ .unborn)
    (hborn : st.stage q ≠ .unborn)
    (hholds : s.holdsPid = (st.stage q).holdsPid) (hclaimed : s.hasClaimed = (st.stage q).hasClaimed)
    (hstage : st'.stage = Function.update st.stage q s)
    (hsame : (st'.fprovider, st'.pids, st'.pidOf, st'.frames, st'.born) =
      (st.fprovider, st.pids, st.pidOf, st.frames, st.born))
    (hcount : st'.nbProcesses + (if st.stage q = .live then 1 else 0) =
      st.nbProcesses + (if s = .live then 1 else 0)) : st'.TablesInv := by
  simp only [Prod.mk.injEq] at hsame
  obtain ⟨hfp, hpids, hpidOf, hframes, hborn'⟩ := hsame
  refine h.restage hunborn hstage ?_ hfp hframes (fun r _ => by rw [hpidOf]) (fun hs => ?_)
    (fun k => ?_) (fun hs r hrq hr hequal => ?_) hcount
  · rw [hborn', Finset.insert_eq_of_mem (h.mem_born hborn)]
  · rw [hclaimed] at hs
    exact ⟨h.enough q hs, by rw [hpidOf]; exact h.pid_lt q hs⟩
  · rw [hpids, hpidOf, hholds]
    exact h.pids_iff q k
  · rw [hpidOf] at hequal
    exact hrq (h.pid_inj r q hr (hholds ▸ hs) hequal)

variable [DecidableEq ι]

/-- The creation of a process begins. -/
theorem building (h : st.TablesInv) (n : ℕ) (hq : q ∉ st.born) :
    TablesInv { (st.moveTo c (.loading q n 0)).setStage q .building with
      born := insert q st.born } := by
  have hunborn : st.stage q = .unborn := (h.unborn q).mp hq
  refine h.restage (by nofun) rfl rfl rfl rfl (fun r _ => rfl) (by nofun) (fun k => ?_)
    (by nofun) (by rw [hunborn]; rfl)
  have hpids := h.pids_iff q k
  rw [hunborn] at hpids
  exact hpids

/-- A page of a process gets its frame. -/
theorem takeFrame (h : st.TablesInv) {n k : ℕ} (hq : st.stage q = .building)
    (hframes : st.frames q = k) (havail : st.fprovider.isFrameAvail = true) (rand : ℕ) :
    (st.takeFrame c q n k rand).TablesInv := by
  have hborn : q ∈ st.born := h.mem_born (by rw [hq]; nofun)
  have hother {r : π} (hr : r ≠ q) : (st.takeFrame c q n k rand).frames r = st.frames r :=
    Function.update_of_ne hr _ _
  refine ⟨h.unborn, ?_, fun r hr => ?_, fun r hr => ?_, h.pid_lt, h.pids, h.pid_inj, h.count⟩
  · obtain ⟨hnone, -⟩ | ⟨f, hf, hget⟩ := st.fprovider.getEmptyFrame_cases rand
    · have hpositive := FrameProvider.isFrameAvail_iff.mp havail
      omega
    have hless := st.fprovider.numAvailFrame_markFrame hf
    have hsum : (∑ r ∈ st.born, Function.update st.frames q (k + 1) r) + st.frames q =
        (∑ r ∈ st.born, st.frames r) + (k + 1) :=
      sum_update_of_mem (fun _ n => n) st.frames hborn (k + 1)
    have hold := h.frames
    show (st.fprovider.getEmptyFrame rand).2.numAvailFrame +
      ∑ r ∈ st.born, Function.update st.frames q (k + 1) r = NumPhysPages - 1
    rw [hget]
    show (st.fprovider.markFrame f).numAvailFrame + _ = _
    omega
  · have hrq : r ≠ q := by
      rintro rfl
      rw [show (st.takeFrame c r n k rand).stage r = st.stage r from rfl, hq] at hr
      cases hr
    rw [hother hrq]
    exact h.noFrames r hr
  · have hrq : r ≠ q := by
      rintro rfl
      rw [show (st.takeFrame c r n k rand).stage r = st.stage r from rfl, hq] at hr
      cases hr
    rw [hother hrq]
    exact h.enough r hr

/-- A process gets a pid that is free. -/
theorem claim (h : st.TablesInv) {k : Fin 64} (hq : st.stage q = .building)
    (henough : minFrames ≤ st.frames q) (hk : st.pids k = false) : (st.claim c q k).TablesInv := by
  have hpid : (st.claim c q k).pidOf q = k := Function.update_self _ _ _
  refine h.restage (by nofun) rfl ?_ rfl rfl (fun r hr => Function.update_of_ne hr _ _)
    (fun _ => ⟨henough, by rw [hpid]; exact k.isLt⟩) (fun j => ?_) (fun _ r hrq hr hequal => ?_)
    (by rw [hq]; rfl)
  · exact (Finset.insert_eq_of_mem (h.mem_born (by rw [hq]; nofun))).symm
  · have hpids := h.pids_iff q j
    rw [hq] at hpids
    show Function.update st.pids k true j = true ↔ _
    rw [hpid]
    by_cases hjk : j = k
    · rw [hjk, Function.update_self]
      exact iff_of_true rfl (.inl ⟨rfl, rfl⟩)
    · rw [Function.update_of_ne hjk, hpids]
      refine or_congr_left (iff_of_false (fun hnot => Bool.noConfusion hnot.1) fun heq => hjk ?_)
      exact Fin.ext heq.2.symm
  · rw [hpid] at hequal
    have hset := (h.pids k).mpr ⟨r, hr, hequal⟩
    rw [hk] at hset
    cases hset

/-- A process is counted. -/
theorem counted (h : st.TablesInv) (hq : st.stage q = .claimed) : (st.count c q).TablesInv :=
  h.keepPid (by nofun) (by rw [hq]; nofun) (by rw [hq]; rfl) (by rw [hq]; rfl) rfl rfl (by
    rw [hq]
    show st.nbProcesses + 1 + 0 = st.nbProcesses + 1
    omega)

/-- A process is taken out of the count. -/
theorem uncount (h : st.TablesInv) (hc : st.stage (st.proc c) = .live) : (st.uncount c).TablesInv :=
  h.keepPid (by nofun) (by rw [hc]; nofun) (by rw [hc]; rfl) (by rw [hc]; rfl) rfl rfl (by
    rw [hc]
    show st.nbProcesses - 1 + 1 = st.nbProcesses + 0
    omega)

/-- A process gives up its pid. -/
theorem clear (h : st.TablesInv) {k : Fin 64} (hc : st.stage (st.proc c) = .exiting)
    (hk : st.pidOf (st.proc c) = k) : (st.clear c k).TablesInv := by
  have hholds : (st.stage (st.proc c)).holdsPid = true := by rw [hc]; rfl
  have hclaimed : (st.stage (st.proc c)).hasClaimed = true := by rw [hc]; rfl
  refine h.restage (by nofun) rfl ?_ rfl rfl (fun r _ => rfl)
    (fun _ => ⟨h.enough _ hclaimed, h.pid_lt _ hclaimed⟩) (fun j => ?_) (by nofun)
    (by rw [hc]; rfl)
  · exact (Finset.insert_eq_of_mem (h.mem_born (by rw [hc]; nofun))).symm
  · show Function.update st.pids k false j = true ↔ _
    by_cases hjk : j = k
    · rw [hjk, Function.update_self]
      refine iff_of_false (by nofun) ?_
      rintro (⟨hnot, -⟩ | ⟨r, hrq, hr, hpid⟩)
      · cases hnot
      · exact hrq (h.pid_inj r _ hr hholds (hpid.trans hk.symm))
    · rw [Function.update_of_ne hjk, h.pids_iff (st.proc c) j]
      refine or_congr_left (iff_of_false (fun heq => hjk ?_) fun hnot => Bool.noConfusion hnot.1)
      exact Fin.ext (heq.2.symm.trans hk)

end Sections

end TablesInv

end ProcessTable

end Nachos
