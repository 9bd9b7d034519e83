/-
# Processes and their frames

`userprog/userprocess.cc` with the constructor of `AddrSpace`, for creations that do not
overlap. A process gets one frame for each page, and the destructor of its address space
would give them back. At its exit the destructor stands after `Thread::Finish`, which does
not return, so the frames of a process stay marked for ever.

What a process runs, its memory and its threads are not kept here; `do_UserProcessExit`
waits for the threads before anything below happens.
-/

import Mathlib.Algebra.BigOperators.Group.List.Basic
import Nachos.Userprog.FrameAllocation

namespace Nachos

open Base

/-- A segment of an executable. -/
structure Segment where
  virtualAddr : ℤ
  inFileAddr : ℤ
  size : ℤ

/-- The header of an executable. -/
structure NoffHeader where
  noffMagic : ℤ
  code : Segment
  initData : Segment
  uninitData : Segment

/-- `NOFFMAGIC`. -/
def NOFFMAGIC : ℤ := 0xbadfad

/-- How big the address space is, in `unsigned int` arithmetic. -/
def NoffHeader.numPages (noffH : NoffHeader) : ℕ :=
  let size := ((noffH.code.size + noffH.initData.size + noffH.uninitData.size + UserStackSize) %
    2 ^ 32).toNat
  size / PageSize + (if size % PageSize > 0 then 1 else 0)

namespace AddrSpace

/-- The loop of the constructor over the pages from `i` on, `n` of them, without other
constructors in between. -/
def allocFrames (rand : ℕ → ℕ) :
    ℕ → ℕ → FrameProvider → Except Fault (List TranslationEntry × FrameProvider)
  | 0, _, fp => .ok ([], fp)
  | n + 1, i, fp =>
      if fp.isFrameAvail then do
        let (frame, fp) := fp.getEmptyFrame (rand i)
        let (rest, fp) ← allocFrames rand n (i + 1) fp
        return (pageEntry i frame :: rest, fp)
      else .error .assertion

/-- The search of the constructor for a pid: the first that is free, and what memory held
if none is. -/
def takePid (pids : ℕ → Bool) (uninit : ℕ) : ℕ × (ℕ → Bool) :=
  match (List.range 64).find? fun k => !pids k with
  | some k => (k, Function.update pids k true)
  | none => (uninit, pids)

/-- `AddrSpace::AddrSpace`, less the copy of the segments into memory; `none` if
`isCreated` is false. -/
def construct (fp : FrameProvider) (pids : ℕ → Bool) (noffH : NoffHeader) (rand : ℕ → ℕ)
    (uninit : ℕ) : Except Fault (Option AddrSpace × FrameProvider × (ℕ → Bool)) := do
  assert (noffH.noffMagic = NOFFMAGIC)
  if hpages : noffH.numPages ≤ NumPhysPages then
    if fp.numAvailFrame < noffH.numPages then
      return (none, fp, pids)
    let (pageTable, fp) ← allocFrames rand noffH.numPages 0 fp
    let (pid, pids) := takePid pids uninit
    return (some (AddrSpace.init noffH.numPages hpages pageTable pid), fp, pids)
  else .error .assertion

/-- `AddrSpace::FreeFrames`. -/
def freeFrames (space : AddrSpace) (fp : FrameProvider) : Except Fault FrameProvider :=
  space.pageTable.foldlM (fun fp entry =>
    if entry.valid then fp.releaseFrame entry.physicalPage else .ok fp) fp

/-- The frames of the page table. -/
def frames (space : AddrSpace) : List ℤ := space.pageTable.map fun e => e.physicalPage

end AddrSpace

/-- The processes of the machine. -/
structure ProcessRun where
  fprovider : FrameProvider
  pids : ℕ → Bool
  nbProcesses : ℤ
  /-- The processes that were created and have not exited. -/
  live : List AddrSpace

/-- The calls of a run. -/
inductive ProcessCall
  | create (noffH : NoffHeader) (rand : ℕ → ℕ) (uninit : ℕ)
  | exit (i : ℕ)

namespace ProcessRun

/-- `Thread::Finish` does not return, so that nothing is done of what follows its call. -/
def finish (_rest : ProcessRun → Except Fault ProcessRun) (st : ProcessRun) :
    Except Fault ProcessRun := .ok st

/-- `do_UserProcessCreate`, once the executable is opened; `none` if the address space was
not created. -/
def doUserProcessCreate (st : ProcessRun) (noffH : NoffHeader) (rand : ℕ → ℕ) (uninit : ℕ) :
    Except Fault (Option ProcessRun) := do
  let (space, fprovider, pids) ← AddrSpace.construct st.fprovider st.pids noffH rand uninit
  match space with
  | none => return none
  | some space => return some ⟨fprovider, pids, st.nbProcesses + 1, st.live ++ [space]⟩

/-- `do_UserProcessExit` by the process at place `i`, after it has waited for its threads;
`none` if it stops the machine. -/
def doUserProcessExit (st : ProcessRun) (i : ℕ) (space : AddrSpace) :
    Except Fault (Option ProcessRun) := do
  let nbProcesses := st.nbProcesses - 1
  if nbProcesses = 0 then
    return none
  inBounds (space.pid < 64)
  let st := { st with
    nbProcesses := nbProcesses
    pids := Function.update st.pids space.pid false
    live := st.live.eraseIdx i }
  let st ← finish (fun st => do
    -- `delete currentThread->space`
    let fprovider ← space.freeFrames st.fprovider
    return { st with fprovider := fprovider }) st
  return some st

/-- A call that is carried out and leaves the machine running. -/
def Step (st : ProcessRun) (call : ProcessCall) (st' : ProcessRun) : Prop :=
  match call with
  | .create noffH rand uninit => st.doUserProcessCreate noffH rand uninit = .ok (some st')
  | .exit i => ∃ space, st.live[i]? = some space ∧ st.doUserProcessExit i space = .ok (some st')

/-- The machine after `StartProcess` has started its first process, which the process count
includes from the beginning. -/
def Started (st : ProcessRun) : Prop :=
  ∃ mem noffH rand uninit space fprovider pids,
    AddrSpace.construct (FrameProvider.new mem NumPhysPages) (fun _ => false) noffH rand uninit =
      .ok (some space, fprovider, pids) ∧ st = ⟨fprovider, pids, 1, [space]⟩

/-- **Frames are conserved.** The clear frames are those that no live process has a page
for, and a marked frame other than `0` is in the page table of exactly one live process. -/
structure FramesConserved (st : ProcessRun) : Prop where
  numAvail : (st.fprovider.numAvailFrame : ℤ) =
    NumPhysPages - 1 - (st.live.map fun space => space.numPages).sum
  owner : ∀ f < NumPhysPages, f ≠ 0 → st.fprovider.bitmap.testBit f = true →
    ∃! i : ℕ, ∃ space : AddrSpace, st.live[i]? = some space ∧ (f : ℤ) ∈ space.frames

/-- A process that exits while the machine goes on has no pages. -/
def ExitSafe (st : ProcessRun) : ProcessCall → Prop
  | .create _ _ _ => True
  | .exit i => ∀ space : AddrSpace, st.live[i]? = some space → space.numPages = 0

end ProcessRun

namespace AddrSpace

/-- What the loop of the constructor leaves: `n` entries with frames that were free, each
once, and these frames marked. -/
structure Allocated (fp : FrameProvider) (n : ℕ) (table : List TranslationEntry)
    (fp' : FrameProvider) : Prop where
  total : fp'.totalFrames = fp.totalFrames
  length : table.length = n
  fresh : ∀ e ∈ table, ∃ f ∈ fp.bitmap.clearSet, e.physicalPage = (f : ℤ)
  nodup : (table.map fun e => e.physicalPage).Nodup
  marked : ∀ f < fp.totalFrames, fp'.bitmap.testBit f = true ↔
    fp.bitmap.testBit f = true ∨ (f : ℤ) ∈ table.map fun e => e.physicalPage

theorem allocated_of_allocFrames {rand : ℕ → ℕ} {n i : ℕ} {fp fp' : FrameProvider}
    {table : List TranslationEntry} (h : allocFrames rand n i fp = .ok (table, fp')) :
    Allocated fp n table fp' := by
  induction n generalizing i fp table with
  | zero =>
      cases h
      refine ⟨rfl, rfl, fun e he => ?_, List.nodup_nil, fun f _ => ?_⟩
      · cases he
      · simp
  | succ n ih =>
      rw [allocFrames] at h
      split at h
      · rename_i havail
        obtain ⟨hnone, -⟩ | ⟨f, hf, hget⟩ := fp.getEmptyFrame_cases (rand i)
        · have hpositive := FrameProvider.isFrameAvail_iff.mp havail
          omega
        rw [hget] at h
        obtain ⟨⟨rest, fp''⟩, hrest, hequal⟩ := Except.bind_eq_ok.mp h
        cases hequal
        obtain ⟨htotal, hlength, hfresh, hnodup, hmarked⟩ := ih hrest
        -- The frames of the rest were free after this one was marked.
        have hafter {g : ℕ} (hg : g ∈ (fp.markFrame f).bitmap.clearSet) :
            g ≠ f ∧ g ∈ fp.bitmap.clearSet := by
          rw [FrameProvider.markFrame, BitMap.clearSet_markBit, Finset.mem_erase] at hg
          exact hg
        have hnot : (f : ℤ) ∉ rest.map fun e => e.physicalPage := by
          intro hmem
          obtain ⟨e, he, hequal⟩ := List.mem_map.mp hmem
          obtain ⟨g, hg, hpage⟩ := hfresh e he
          have hequal : g = f := by exact_mod_cast hpage.symm.trans hequal
          exact (hafter hg).1 hequal
        refine ⟨htotal, congrArg (· + 1) hlength, fun e he => ?_,
          List.nodup_cons.mpr ⟨hnot, hnodup⟩, fun g hg => ?_⟩
        · rcases List.mem_cons.mp he with rfl | he
          · exact ⟨f, hf, rfl⟩
          · obtain ⟨g, hg, hpage⟩ := hfresh e he
            exact ⟨g, (hafter hg).2, hpage⟩
        · rw [hmarked g hg, FrameProvider.markFrame, BitMap.testBit_markBit, Bool.or_eq_true,
            decide_eq_true_iff, List.map_cons, List.mem_cons, pageEntry, Nat.cast_inj, or_comm
              (a := g = f), or_assoc]
      · cases h

/-- A constructor that succeeds. -/
theorem construct_eq_ok {fp fp' : FrameProvider} {pids pids' : ℕ → Bool} {noffH : NoffHeader}
    {rand : ℕ → ℕ} {uninit : ℕ} {space : AddrSpace}
    (h : construct fp pids noffH rand uninit = .ok (some space, fp', pids')) :
    Allocated fp space.numPages space.pageTable fp' := by
  rw [construct, Except.bind_eq_ok] at h
  obtain ⟨-, -, h⟩ := h
  split at h
  · split at h
    · cases h
    · obtain ⟨⟨table, fp''⟩, halloc, h⟩ := Except.bind_eq_ok.mp h
      cases h
      exact allocated_of_allocFrames halloc
  · cases h

/-- The pid of a new address space. -/
theorem takePid_of_construct {fp fp' : FrameProvider} {pids pids' : ℕ → Bool} {noffH : NoffHeader}
    {rand : ℕ → ℕ} {uninit : ℕ} {space : AddrSpace}
    (h : construct fp pids noffH rand uninit = .ok (some space, fp', pids')) :
    takePid pids uninit = (space.pid, pids') := by
  rw [construct, Except.bind_eq_ok] at h
  obtain ⟨-, -, h⟩ := h
  split at h
  · split at h
    · cases h
    · obtain ⟨⟨table, fp''⟩, -, h⟩ := Except.bind_eq_ok.mp h
      cases h
      rfl
  · cases h

/-- With frames enough, the loop of the constructor gets them. -/
theorem exists_allocFrames (rand : ℕ → ℕ) {n : ℕ} (fp : FrameProvider)
    (h : n ≤ fp.numAvailFrame) (i : ℕ) : ∃ table fp', allocFrames rand n i fp = .ok (table, fp') ∧
      fp'.numAvailFrame + n = fp.numAvailFrame := by
  induction n generalizing i fp with
  | zero => exact ⟨[], fp, rfl, rfl⟩
  | succ n ih =>
      have havail : fp.isFrameAvail = true := FrameProvider.isFrameAvail_iff.mpr (by omega)
      obtain ⟨hnone, -⟩ | ⟨f, hf, hget⟩ := fp.getEmptyFrame_cases (rand i)
      · omega
      have hless := fp.numAvailFrame_markFrame hf
      obtain ⟨table, fp', halloc, hcount⟩ := ih (fp.markFrame f) (by omega) (i + 1)
      refine ⟨pageEntry i f :: table, fp', ?_, by omega⟩
      rw [allocFrames, if_pos havail, hget]
      exact Except.bind_eq_ok.mpr ⟨(table, fp'), halloc, rfl⟩

/-- With frames enough, the constructor succeeds. -/
theorem exists_construct (fp : FrameProvider) (noffH : NoffHeader)
    (hmagic : noffH.noffMagic = NOFFMAGIC) (hpages : noffH.numPages ≤ NumPhysPages)
    (havail : noffH.numPages ≤ fp.numAvailFrame) (pids : ℕ → Bool) (rand : ℕ → ℕ) (uninit : ℕ) :
    ∃ space fp', construct fp pids noffH rand uninit =
        .ok (some space, fp', (takePid pids uninit).2) ∧ space.numPages = noffH.numPages ∧
      space.pid = (takePid pids uninit).1 ∧
      fp'.numAvailFrame + noffH.numPages = fp.numAvailFrame := by
  obtain ⟨table, fp', halloc, hcount⟩ := exists_allocFrames rand fp havail 0
  refine ⟨AddrSpace.init noffH.numPages hpages table (takePid pids uninit).1, fp', ?_, rfl, rfl,
    hcount⟩
  rw [construct, assert_of hmagic, Except.ok_bind, dif_pos hpages,
    if_neg (Nat.not_lt.mpr havail)]
  exact Except.bind_eq_ok.mpr ⟨(table, fp'), halloc, rfl⟩

end AddrSpace

namespace ProcessRun

/-- The frames of all live processes. -/
def allFrames (st : ProcessRun) : List ℤ := st.live.flatMap fun space => space.frames

/-- The invariant: the marked frames are frame `0` and the frames of the live processes,
each of which is there once. -/
structure Inv (st : ProcessRun) : Prop where
  total : st.fprovider.totalFrames = NumPhysPages
  marked : ∀ f < NumPhysPages, st.fprovider.bitmap.testBit f = true ↔
    f = 0 ∨ (f : ℤ) ∈ st.allFrames
  inRange : ∀ x ∈ st.allFrames, ∃ f : ℕ, x = f ∧ f ≠ 0 ∧ f < NumPhysPages
  nodup : st.allFrames.Nodup
  pages : ∀ space ∈ st.live, space.pageTable.length = space.numPages

namespace Inv

variable {st st' : ProcessRun}

/-- The frames that are free now are not in use. -/
theorem not_mem_of_clear (h : st.Inv) {f : ℕ} (hf : f ∈ st.fprovider.bitmap.clearSet) :
    f < NumPhysPages ∧ f ≠ 0 ∧ (f : ℤ) ∉ st.allFrames := by
  obtain ⟨hrange, hclear⟩ := BitMap.mem_clearSet.mp hf
  rw [st.fprovider.numBits_eq, h.total] at hrange
  have hmarked := h.marked f hrange
  rw [hclear] at hmarked
  simp only [Bool.false_eq_true, false_iff, not_or] at hmarked
  exact ⟨hrange, hmarked⟩

/-- A machine without processes. -/
theorem empty (mem : Mem) (pids : ℕ → Bool) (nbProcesses : ℤ) :
    (⟨FrameProvider.new mem NumPhysPages, pids, nbProcesses, []⟩ : ProcessRun).Inv where
  total := rfl
  marked f hf := by
    rw [FrameProvider.testBit_new mem hf, decide_eq_true_iff, Nat.lt_one_iff]
    simp [allFrames]
  inRange x hx := by cases hx
  nodup := List.nodup_nil
  pages space hspace := by cases hspace

/-- One more process. -/
theorem create (h : st.Inv) {space : AddrSpace} {fprovider : FrameProvider}
    (halloc : AddrSpace.Allocated st.fprovider space.numPages space.pageTable fprovider)
    (pids : ℕ → Bool) (nbProcesses : ℤ) :
    (⟨fprovider, pids, nbProcesses, st.live ++ [space]⟩ : ProcessRun).Inv := by
  set st' : ProcessRun := ⟨fprovider, pids, nbProcesses, st.live ++ [space]⟩ with hst'
  have hframes : st'.allFrames = st.allFrames ++ space.frames := by
    simp [hst', allFrames]
  have hfresh {x : ℤ} (hx : x ∈ space.frames) :
      ∃ f ∈ st.fprovider.bitmap.clearSet, x = (f : ℤ) := by
    obtain ⟨e, he, rfl⟩ := List.mem_map.mp hx
    exact halloc.fresh e he
  refine ⟨halloc.total.trans h.total, fun f hf => ?_, fun x hx => ?_, ?_, fun space' hs => ?_⟩
  · rw [hframes, List.mem_append, ← or_assoc, ← h.marked f hf]
    exact halloc.marked f (by rw [h.total]; exact hf)
  · rw [hframes, List.mem_append] at hx
    rcases hx with hx | hx
    · exact h.inRange x hx
    · obtain ⟨f, hf, rfl⟩ := hfresh hx
      obtain ⟨hrange, hzero, -⟩ := h.not_mem_of_clear hf
      exact ⟨f, rfl, hzero, hrange⟩
  · rw [hframes]
    refine List.nodup_append.mpr ⟨h.nodup, halloc.nodup, fun x hx y hy => ?_⟩
    rintro rfl
    obtain ⟨f, hf, rfl⟩ := hfresh hy
    exact (h.not_mem_of_clear hf).2.2 hx
  · rcases List.mem_append.mp hs with hs | hs
    · exact h.pages space' hs
    · rw [List.mem_singleton.mp hs]
      exact halloc.length

/-- The frames in use are as many as the pages of the live processes. -/
theorem length_allFrames (h : st.Inv) :
    st.allFrames.length = (st.live.map fun space => space.numPages).sum := by
  rw [allFrames, List.length_flatMap]
  congr 1
  apply List.map_congr_left
  intro space hspace
  rw [AddrSpace.frames, List.length_map]
  exact h.pages space hspace

/-- The free frames, counted. -/
theorem numAvailFrame_eq (h : st.Inv) :
    st.fprovider.numAvailFrame + st.allFrames.length + 1 = NumPhysPages := by
  set used := (st.allFrames.map Int.toNat).toFinset with hused
  have hmem {f : ℕ} : f ∈ used ↔ (f : ℤ) ∈ st.allFrames := by
    rw [hused, List.mem_toFinset, List.mem_map]
    constructor
    · rintro ⟨x, hx, rfl⟩
      obtain ⟨g, rfl, -, -⟩ := h.inRange x hx
      exact hx
    · intro hf
      exact ⟨f, hf, Int.toNat_natCast f⟩
  have hcard : used.card = st.allFrames.length := by
    rw [hused, List.toFinset_card_of_nodup, List.length_map]
    refine h.nodup.map_on fun x hx y hy hequal => ?_
    obtain ⟨f, rfl, -, -⟩ := h.inRange x hx
    obtain ⟨g, rfl, -, -⟩ := h.inRange y hy
    simpa using hequal
  have hsubset : used ⊆ (Finset.range NumPhysPages).erase 0 := by
    intro f hf
    obtain ⟨g, hequal, hzero, hrange⟩ := h.inRange f (hmem.mp hf)
    have hfg : f = g := by exact_mod_cast hequal
    rw [hfg]
    exact Finset.mem_erase.mpr ⟨hzero, Finset.mem_range.mpr hrange⟩
  have hclear : st.fprovider.bitmap.clearSet = (Finset.range NumPhysPages).erase 0 \ used := by
    ext f
    rw [Finset.mem_sdiff, Finset.mem_erase, Finset.mem_range, hmem]
    constructor
    · intro hf
      obtain ⟨hrange, hzero, hnot⟩ := h.not_mem_of_clear hf
      exact ⟨⟨hzero, hrange⟩, hnot⟩
    · rintro ⟨⟨hzero, hrange⟩, hnot⟩
      refine BitMap.mem_clearSet.mpr ⟨by rw [st.fprovider.numBits_eq, h.total]; exact hrange, ?_⟩
      by_contra hmarked
      rcases (h.marked f hrange).mp (by simpa using hmarked) with hf | hf
      · exact hzero hf
      · exact hnot hf
  have hall : ((Finset.range NumPhysPages).erase 0).card = 255 := by
    rw [Finset.card_erase_of_mem (Finset.mem_range.mpr (by decide)), Finset.card_range]
    rfl
  have hle := Finset.card_le_card hsubset
  rw [FrameProvider.numAvailFrame_eq_card, hclear, Finset.card_sdiff_of_subset hsubset, hcard, hall]
  rw [hcard, hall] at hle
  show 255 - _ + _ + 1 = 256
  omega

/-- The invariant gives the accounting of the frames. -/
theorem framesConserved (h : st.Inv) : st.FramesConserved := by
  refine ⟨?_, fun f hf hzero hmarked => ?_⟩
  · have hcount := h.numAvailFrame_eq
    rw [h.length_allFrames] at hcount
    omega
  · have hmem : (f : ℤ) ∈ st.allFrames := ((h.marked f hf).mp hmarked).resolve_left hzero
    obtain ⟨space, hspace, hin⟩ := List.mem_flatMap.mp hmem
    obtain ⟨i, hi⟩ := List.mem_iff_getElem?.mp hspace
    refine ⟨i, ⟨space, hi, hin⟩, ?_⟩
    rintro j ⟨other, hj, hother⟩
    -- Different processes have different frames, because no frame is there twice.
    by_contra hne
    obtain ⟨hilt, hiequal⟩ := List.getElem?_eq_some_iff.mp hi
    obtain ⟨hjlt, hjequal⟩ := List.getElem?_eq_some_iff.mp hj
    have hpairwise := List.pairwise_iff_getElem.mp (List.nodup_flatMap.mp h.nodup).2
    rcases Nat.lt_or_gt_of_ne hne with hlt | hlt
    · have hdisjoint := hpairwise j i hjlt hilt hlt
      rw [hiequal, hjequal] at hdisjoint
      exact hdisjoint hother hin
    · have hdisjoint := hpairwise i j hilt hjlt hlt
      rw [hiequal, hjequal] at hdisjoint
      exact hdisjoint hin hother

end Inv

variable {st st' : ProcessRun}

/-- An exit that leaves the machine running leaves the frames as they are. -/
theorem exit_eq_ok {i : ℕ} (h : st.Step (.exit i) st') :
    ∃ space, st.live[i]? = some space ∧ st'.fprovider = st.fprovider ∧
      st'.live = st.live.eraseIdx i := by
  obtain ⟨space, hspace, hok⟩ := h
  refine ⟨space, hspace, ?_⟩
  rw [doUserProcessExit] at hok
  dsimp only at hok
  split at hok
  · cases hok
  · obtain ⟨-, -, hok⟩ := Except.bind_eq_ok.mp hok
    cases hok
    exact ⟨rfl, rfl⟩

/-- The list of live processes around the one at place `i`. -/
theorem exists_split {i : ℕ} {space : AddrSpace} (h : st.live[i]? = some space) :
    ∃ before after, st.live = before ++ space :: after ∧
      st.live.eraseIdx i = before ++ after := by
  obtain ⟨hlt, hequal⟩ := List.getElem?_eq_some_iff.mp h
  refine ⟨st.live.take i, st.live.drop (i + 1), ?_, List.eraseIdx_eq_take_drop_succ _ _⟩
  rw [← hequal, ← List.drop_eq_getElem_cons hlt, List.take_append_drop]

/-- **Safe calls keep the invariant.** -/
theorem Inv.step (h : st.Inv) {call : ProcessCall} (hsafe : st.ExitSafe call)
    (hstep : st.Step call st') : st'.Inv := by
  cases call with
  | create noffH rand uninit =>
      obtain ⟨⟨space, fprovider, pids⟩, hconstruct, hok⟩ := Except.bind_eq_ok.mp hstep
      cases space with
      | none => cases hok
      | some space =>
          cases hok
          exact h.create (AddrSpace.construct_eq_ok hconstruct) _ _
  | exit i =>
      obtain ⟨space, hspace, hframes, hlive⟩ := exit_eq_ok hstep
      obtain ⟨before, after, hbefore, hafter⟩ := exists_split hspace
      have hmem : space ∈ st.live := List.mem_of_getElem? hspace
      have hnone : space.frames = [] := by
        rw [AddrSpace.frames, List.map_eq_nil_iff, ← List.length_eq_zero_iff, h.pages space hmem]
        exact hsafe space hspace
      have hsame : st'.allFrames = st.allFrames := by
        rw [allFrames, allFrames, hlive, hafter, hbefore, List.flatMap_append, List.flatMap_append,
          List.flatMap_cons, hnone, List.nil_append]
      refine ⟨by rw [hframes]; exact h.total, fun f hf => ?_, ?_, ?_, fun other hother => ?_⟩
      · rw [hframes, hsame]
        exact h.marked f hf
      · rw [hsame]
        exact h.inRange
      · rw [hsame]
        exact h.nodup
      · rw [hlive] at hother
        exact h.pages other (List.mem_of_mem_eraseIdx hother)

/-- An exit keeps the accounting only if the process had no pages. -/
theorem FramesConserved.exitSafe (h : st.FramesConserved) {i : ℕ}
    (hstep : st.Step (.exit i) st') (h' : st'.FramesConserved) : st.ExitSafe (.exit i) := by
  obtain ⟨space, hspace, hframes, hlive⟩ := exit_eq_ok hstep
  obtain ⟨before, after, hbefore, hafter⟩ := exists_split hspace
  have hcount := h'.numAvail
  rw [hframes, hlive, hafter, h.numAvail, hbefore] at hcount
  simp only [List.map_append, List.map_cons, List.sum_append, List.sum_cons] at hcount
  intro other hother
  rw [hspace] at hother
  cases hother
  omega

/-- **Frames are conserved as long as no process with pages exits.** In every run in which
a process that exits while the machine goes on has no pages, the frames are conserved; and
they are after the next call exactly when it keeps to this. -/
theorem frames_conserved {first : ProcessRun} {steps : List (Base.Step ProcessRun ProcessCall)}
    (hfirst : first.Started) (hrun : Trace Step first steps st)
    (hsafe : ∀ x ∈ steps, x.before.ExitSafe x.label) :
    st.FramesConserved ∧ ∀ call st', st.Step call st' →
      (st'.FramesConserved ↔ st.ExitSafe call) := by
  obtain ⟨mem, noffH, rand, uninit, space, fprovider, pids, hconstruct, rfl⟩ := hfirst
  have hstart : (⟨fprovider, pids, 1, [space]⟩ : ProcessRun).Inv :=
    (Inv.empty mem (fun _ => false) 1).create (AddrSpace.construct_eq_ok hconstruct) pids 1
  have hinv : st.Inv := (hrun.invariant
    (fun _ hbefore hstep hcall => hbefore.step hcall hstep) hstart hsafe).1
  refine ⟨hinv.framesConserved, fun call st' hstep => ⟨fun hconserved => ?_, fun hcall => ?_⟩⟩
  · cases call with
    | create noffH rand uninit => trivial
    | exit i => exact hinv.framesConserved.exitSafe hstep hconserved
  · exact (hinv.step hcall hstep).framesConserved

/-- An executable with empty code and data: sixteen pages of stack. -/
def smallExecutable : NoffHeader := ⟨NOFFMAGIC, ⟨0, 0, 0⟩, ⟨0, 0, 0⟩, ⟨0, 0, 0⟩⟩

/-- An executable whose sizes add up to nothing. -/
def emptyExecutable : NoffHeader := ⟨NOFFMAGIC, ⟨0, 0, 0⟩, ⟨0, 0, 0⟩, ⟨0, 0, -2048⟩⟩

/-- Two processes, the first from `smallExecutable`, and the exit of the second. -/
theorem exists_create_exit (noffH : NoffHeader) (hmagic : noffH.noffMagic = NOFFMAGIC)
    (hpages : noffH.numPages ≤ 239) : ∃ (first middle last : ProcessRun) (space : AddrSpace),
      first.Started ∧ first.Step (.create noffH (fun _ => 0) 0) middle ∧
      middle.live[1]? = some space ∧ space.numPages = noffH.numPages ∧
      middle.Step (.exit 1) last := by
  have hsize : smallExecutable.numPages = 16 := by decide
  have hall : (FrameProvider.new (fun _ => 0) NumPhysPages).numAvailFrame = 255 :=
    FrameProvider.numAvailFrame_new _ _
  obtain ⟨one, fp, hone, -, -, hcount⟩ := AddrSpace.exists_construct
    (FrameProvider.new (fun _ => 0) NumPhysPages) smallExecutable rfl
    (by rw [hsize]; decide) (by rw [hsize, hall]; decide) (fun _ => false) (fun _ => 0) 0
  set pids := (AddrSpace.takePid (fun _ => false) 0).2 with hpids
  obtain ⟨two, fp', htwo, hnumPages, hpid, -⟩ := AddrSpace.exists_construct fp noffH hmagic
    (hpages.trans (by decide)) (by omega) pids (fun _ => 0) 0
  have hpid : two.pid = 1 := hpid.trans (by decide)
  refine ⟨⟨fp, pids, 1, [one]⟩, ⟨fp', (AddrSpace.takePid pids 0).2, 2, [one, two]⟩,
    ⟨fp', Function.update (AddrSpace.takePid pids 0).2 1 false, 1, [one]⟩, two,
    ⟨_, _, _, _, _, _, _, hone, rfl⟩, ?_, rfl, hnumPages, two, rfl, ?_⟩
  · exact Except.bind_eq_ok.mpr ⟨_, htwo, rfl⟩
  · rw [doUserProcessExit, hpid]
    rfl

/-- A process without pages comes and goes. -/
theorem frames_conserved_empty : ∃ first steps st, first.Started ∧ Trace Step first steps st ∧
    steps.map (fun x => x.label) = [.create emptyExecutable (fun _ => 0) 0, .exit 1] ∧
    (∀ x ∈ steps, x.before.ExitSafe x.label) ∧ st.FramesConserved ∧
    ∀ call st', st.Step call st' → (st'.FramesConserved ↔ st.ExitSafe call) := by
  have hsize : emptyExecutable.numPages = 0 := by decide
  obtain ⟨first, middle, last, space, hfirst, hcreate, hspace, hpages, hexit⟩ :=
    exists_create_exit emptyExecutable rfl (by rw [hsize]; decide)
  have hrun := (Trace.nil first |>.snoc hcreate).snoc hexit
  have hsafe : ∀ x ∈ [⟨first, .create emptyExecutable (fun _ => 0) 0, middle⟩] ++
      [(⟨middle, .exit 1, last⟩ : Base.Step ProcessRun ProcessCall)],
      x.before.ExitSafe x.label := by
    intro x hx
    rcases List.mem_append.mp hx with hx | hx
    · rw [List.mem_singleton.mp hx]
      trivial
    · rw [List.mem_singleton.mp hx]
      intro other hother
      rw [hspace] at hother
      cases hother
      rw [hpages, hsize]
  exact ⟨first, _, last, hfirst, hrun, rfl, hsafe, frames_conserved hfirst hrun hsafe⟩

/-- A process of sixteen pages comes and goes, and its frames are gone with it. -/
theorem not_framesConserved_after_exit : ¬ ∀ first steps st, first.Started →
    Trace Step first steps st → st.FramesConserved := by
  intro hclaim
  have hsize : smallExecutable.numPages = 16 := by decide
  obtain ⟨first, middle, last, space, hfirst, hcreate, hspace, hpages, hexit⟩ :=
    exists_create_exit smallExecutable rfl (by rw [hsize]; decide)
  have hbefore := hclaim first _ middle hfirst (Trace.nil first |>.snoc hcreate)
  have hafter := hclaim first _ last hfirst ((Trace.nil first |>.snoc hcreate).snoc hexit)
  have hzero := hbefore.exitSafe hexit hafter space hspace
  rw [hpages, hsize] at hzero
  cases hzero

end ProcessRun

end Nachos
