/-
# Address spaces under construction

The part of `AddrSpace::AddrSpace` that takes frames, run by any number of threads at the
same time. The check that there are enough frames, the check before each page and the
allocation are separate calls of the frame provider, and the steps of other constructors
fall between them.

A constructor that has passed its first check needs as many frames as it has pages left.
As long as every constructor that passes the check leaves enough frames for the others
that have passed it, each of them gets its frames.
-/

import Mathlib.Algebra.BigOperators.Fin
import Nachos.Base.Counting
import Nachos.Base.Trace
import Nachos.Userprog.AddrSpace
import Nachos.Userprog.FrameProvider

namespace Nachos

open Base

/-- The entry that the constructor writes for page `i`. -/
def pageEntry (i : ℕ) (frame : ℤ) : TranslationEntry := ⟨i, frame, true, false, false, false⟩

/-- Where a constructor is, with the entries of the page table that it has filled. -/
inductive ConstructorPhase
  /-- Before the check of `NumAvailFrame` against the number of pages. -/
  | checking
  /-- At the head of the loop over the pages. -/
  | looping (pageTable : List TranslationEntry)
  /-- `IsFrameAvail` was true. -/
  | allocating (pageTable : List TranslationEntry)
  /-- Before the `NumAvailFrame` of the debug message. -/
  | reporting (pageTable : List TranslationEntry)
  /-- After the loop: `isCreated` will be true. -/
  | created (pageTable : List TranslationEntry)
  /-- Returned, with `isCreated` false. -/
  | refused

namespace ConstructorPhase

/-- The entries that are filled. -/
def pageTable : ConstructorPhase → List TranslationEntry
  | looping table | allocating table | reporting table | created table => table
  | checking | refused => []

/-- The frames that are taken. -/
def held (phase : ConstructorPhase) : List ℤ := phase.pageTable.map fun e => e.physicalPage

/-- The part that takes frames is over. -/
def isOver : ConstructorPhase → Bool
  | created _ | refused => true
  | _ => false

/-- The frames still to be taken for `n` pages. -/
def need (n : ℕ) : ConstructorPhase → ℕ
  | looping table | allocating table | reporting table => n - table.length
  | checking | created _ | refused => 0

/-- A bound on the steps that are left. -/
def rank (n : ℕ) : ConstructorPhase → ℕ
  | checking => 3 * n + 2
  | looping table => 3 * (n - table.length) + 1
  | allocating table => 3 * (n - table.length - 1) + 3
  | reporting table => 3 * (n - table.length) + 2
  | created _ | refused => 0

/-- The number of entries fits the place. -/
def Fits (n : ℕ) : ConstructorPhase → Prop
  | looping table | reporting table => table.length ≤ n
  | allocating table => table.length < n
  | created table => table.length = n
  | checking | refused => True

end ConstructorPhase

/-- The frame provider and the constructors, one for each `i`. -/
structure Constructors (ι : Type) where
  frames : FrameProvider
  phase : ι → ConstructorPhase

namespace Constructors

variable {ι : Type} [DecidableEq ι]

/-- Every constructor is before its check. -/
def start (frames : FrameProvider) : Constructors ι := ⟨frames, fun _ => .checking⟩

/-- One constructor goes on. -/
def moveTo (st : Constructors ι) (i : ι) (phase : ConstructorPhase) : Constructors ι :=
  { st with phase := Function.update st.phase i phase }

@[simp] theorem phase_moveTo_self (st : Constructors ι) (i : ι) (phase : ConstructorPhase) :
    (st.moveTo i phase).phase i = phase := Function.update_self _ _ _

theorem phase_moveTo_of_ne {i j : ι} (hj : j ≠ i) (st : Constructors ι)
    (phase : ConstructorPhase) : (st.moveTo i phase).phase j = st.phase j :=
  Function.update_of_ne hj _ _

/-- The next call of constructor `i`, for a space of `numPages i` pages and with the value
that `rand` would return; `none` while it has to wait for the lock. -/
def exec (numPages : ι → ℕ) (st : Constructors ι) (i : ι) (rand : ℕ) :
    Option (Except Fault (Constructors ι)) :=
  match st.phase i with
  | .checking =>
      if st.frames.bitmapLock then none
      else if st.frames.numAvailFrame < numPages i then some (.ok (st.moveTo i .refused))
      else some (.ok (st.moveTo i (.looping [])))
  | .looping table =>
      if table.length < numPages i then
        if st.frames.bitmapLock then none
        else if st.frames.isFrameAvail then some (.ok (st.moveTo i (.allocating table)))
        else some (.error .assertion)
      else some (.ok (st.moveTo i (.created table)))
  | .allocating table =>
      if st.frames.bitmapLock then none
      else
        let (nFrame, frames) := st.frames.getEmptyFrame rand
        some (.ok ({ st with frames := frames }.moveTo i
          (.reporting (table ++ [pageEntry table.length nFrame]))))
  | .reporting table =>
      if st.frames.bitmapLock then none else some (.ok (st.moveTo i (.looping table)))
  | .created _ | .refused => none

/-- A step of a run, with the constructor and the random value. -/
def Step (numPages : ι → ℕ) (st : Constructors ι) (label : ι × ℕ) (st' : Constructors ι) : Prop :=
  st.exec numPages label.1 label.2 = some (.ok st')

/-- Everything a constructor can do in one step. -/
theorem step_cases {numPages : ι → ℕ} {st st' : Constructors ι} {i : ι} {rand : ℕ}
    (h : Step numPages st (i, rand) st') :
    (∃ table, st.phase i = .looping table ∧ numPages i ≤ table.length ∧
        st' = st.moveTo i (.created table)) ∨
      st.frames.bitmapLock = false ∧
        ((st.phase i = .checking ∧ st.frames.numAvailFrame < numPages i ∧
            st' = st.moveTo i .refused) ∨
          (st.phase i = .checking ∧ numPages i ≤ st.frames.numAvailFrame ∧
            st' = st.moveTo i (.looping [])) ∨
          (∃ table, st.phase i = .looping table ∧ table.length < numPages i ∧
            st' = st.moveTo i (.allocating table)) ∨
          (∃ table, st.phase i = .allocating table ∧ st' =
            { st with frames := (st.frames.getEmptyFrame rand).2 }.moveTo i
              (.reporting (table ++ [pageEntry table.length (st.frames.getEmptyFrame rand).1]))) ∨
          (∃ table, st.phase i = .reporting table ∧ st' = st.moveTo i (.looping table))) := by
  simp only [Step, exec] at h
  split at h
  · rename_i hphase
    split at h
    · cases h
    · rename_i hlock
      refine Or.inr ⟨by simpa using hlock, ?_⟩
      split at h
      · rename_i hfew
        cases h
        exact Or.inl ⟨hphase, hfew, rfl⟩
      · rename_i henough
        cases h
        exact Or.inr (Or.inl ⟨hphase, Nat.not_lt.mp henough, rfl⟩)
  · rename_i table hphase
    split at h
    · rename_i hlt
      split at h
      · cases h
      · rename_i hlock
        refine Or.inr ⟨by simpa using hlock, ?_⟩
        split at h
        · cases h
          exact Or.inr (Or.inr (Or.inl ⟨table, hphase, hlt, rfl⟩))
        · cases h
    · rename_i hge
      cases h
      exact Or.inl ⟨table, hphase, Nat.not_lt.mp hge, rfl⟩
  · rename_i table hphase
    split at h
    · cases h
    · rename_i hlock
      refine Or.inr ⟨by simpa using hlock, ?_⟩
      cases h
      exact Or.inr (Or.inr (Or.inr (Or.inl ⟨table, hphase, rfl⟩)))
  · rename_i table hphase
    split at h
    · cases h
    · rename_i hlock
      refine Or.inr ⟨by simpa using hlock, ?_⟩
      cases h
      exact Or.inr (Or.inr (Or.inr (Or.inr ⟨table, hphase, rfl⟩)))
  · cases h
  · cases h

/-- The steps of a constructor bring it closer to its end, and leave the others where
they are. -/
theorem rank_step {numPages : ι → ℕ} {st st' : Constructors ι} {label : ι × ℕ}
    (h : Step numPages st label st') (i : ι) :
    (st'.phase i).rank (numPages i) + (if label.1 = i then 1 else 0) ≤
      (st.phase i).rank (numPages i) := by
  obtain ⟨j, rand⟩ := label
  by_cases hequal : j = i
  · subst hequal
    obtain ⟨table, hphase, -, rfl⟩ | ⟨-, ⟨hphase, -, rfl⟩ | ⟨hphase, -, rfl⟩ |
      ⟨table, hphase, hlt, rfl⟩ | ⟨table, hphase, rfl⟩ | ⟨table, hphase, rfl⟩⟩ := step_cases h
    all_goals
      simp only [moveTo, Function.update_self, hphase, ConstructorPhase.rank, List.length_append,
        List.length_nil, List.length_singleton, if_true]
      omega
  · rw [if_neg hequal]
    obtain ⟨table, -, -, rfl⟩ | ⟨-, ⟨-, -, rfl⟩ | ⟨-, -, rfl⟩ | ⟨table, -, -, rfl⟩ |
      ⟨table, -, rfl⟩ | ⟨table, -, rfl⟩⟩ := step_cases h
    all_goals
      rw [moveTo]
      simp only [Function.update_of_ne (Ne.symm hequal), Nat.add_zero, le_refl]

/-! ## Runs in which no check overcommits -/

variable [Fintype ι]

/-- The frames that the constructors past their check still have to take. -/
def outstanding (numPages : ι → ℕ) (st : Constructors ι) : ℕ :=
  ∑ j, (st.phase j).need (numPages j)

/-- If constructor `i` passes its check now, there are frames enough for it and for the
constructors that have passed theirs. -/
def Safe (numPages : ι → ℕ) (st : Constructors ι) (i : ι) : Prop :=
  st.phase i = .checking → numPages i ≤ st.frames.numAvailFrame →
    numPages i + st.outstanding numPages ≤ st.frames.numAvailFrame

/-- What the constructors hold: a constructor past its loop holds a frame for each page;
every frame held was free at the start, is held once and is marked; no other frame
changed; and the lock is free. -/
structure Granted (first : FrameProvider) (numPages : ι → ℕ) (st : Constructors ι) : Prop where
  unlocked : st.frames.bitmapLock = false
  created : ∀ i table, st.phase i = .created table → table.length = numPages i
  fresh : ∀ i, ∀ x ∈ (st.phase i).held, ∃ f ∈ first.bitmap.clearSet, x = (f : ℤ)
  nodup : ∀ i, (st.phase i).held.Nodup
  disjoint : ∀ i j, i ≠ j → ∀ x ∈ (st.phase i).held, x ∉ (st.phase j).held
  marked : ∀ f < first.totalFrames, st.frames.bitmap.testBit f = true ↔
    first.bitmap.testBit f = true ∨ ∃ i, (f : ℤ) ∈ (st.phase i).held

/-- The invariant. -/
structure Inv (first : FrameProvider) (numPages : ι → ℕ) (st : Constructors ι) : Prop
    extends Granted first numPages st where
  total : st.frames.totalFrames = first.totalFrames
  fits : ∀ i, (st.phase i).Fits (numPages i)
  committed : st.outstanding numPages ≤ st.frames.numAvailFrame

/-- How the outstanding frames change with one constructor. -/
theorem outstanding_moveTo (numPages : ι → ℕ) (st : Constructors ι) (i : ι)
    (phase : ConstructorPhase) :
    (st.moveTo i phase).outstanding numPages + (st.phase i).need (numPages i) =
      st.outstanding numPages + phase.need (numPages i) :=
  sum_update (fun j p => ConstructorPhase.need (numPages j) p) st.phase i phase

omit [Fintype ι] in
/-- A frame that was free goes to constructor `i`. -/
theorem Granted.take {first : FrameProvider} {numPages : ι → ℕ} {st : Constructors ι} {i : ι}
    (h : st.Granted first numPages) (htotal : st.frames.totalFrames = first.totalFrames)
    {phase : ConstructorPhase} {f : ℕ} (hheld : phase.held = (st.phase i).held ++ [(f : ℤ)])
    (hnot : ∀ table, phase ≠ .created table) (hf : f ∈ st.frames.bitmap.clearSet) :
    ({ st with frames := st.frames.markFrame f }.moveTo i phase).Granted first numPages := by
  set st' := { st with frames := st.frames.markFrame f }.moveTo i phase with hst'
  have hself : st'.phase i = phase := phase_moveTo_self _ _ _
  have hother {j : ι} (hj : j ≠ i) : st'.phase j = st.phase j := phase_moveTo_of_ne hj _ _
  obtain ⟨hrange, hclear⟩ := BitMap.mem_clearSet.mp hf
  rw [st.frames.numBits_eq, htotal] at hrange
  -- The frame was free, so nobody holds it.
  have hnotmarked : ¬ (first.bitmap.testBit f = true ∨ ∃ j, (f : ℤ) ∈ (st.phase j).held) := by
    rw [← h.marked f hrange, hclear]
    simp
  have hnobody (j : ι) : (f : ℤ) ∉ (st.phase j).held := fun hj => hnotmarked (Or.inr ⟨j, hj⟩)
  have hmem {j : ι} {x : ℤ} : x ∈ (st'.phase j).held ↔ x ∈ (st.phase j).held ∨ j = i ∧ x = f := by
    by_cases hequal : j = i
    · rw [hequal, hself, hheld, List.mem_append, List.mem_singleton]
      simp
    · rw [hother hequal]
      simp [hequal]
  refine ⟨h.unlocked, fun j table' hj => ?_, fun j x hx => ?_, fun j => ?_,
    fun j k hjk x hx hx' => ?_, fun g hg => ?_⟩
  · by_cases hequal : j = i
    · rw [hequal, hself] at hj
      exact absurd hj (hnot table')
    · rw [hother hequal] at hj
      exact h.created j table' hj
  · rcases hmem.mp hx with hx | ⟨-, rfl⟩
    · exact h.fresh j x hx
    · refine ⟨f, BitMap.mem_clearSet.mpr ⟨by rw [first.numBits_eq]; exact hrange, ?_⟩, rfl⟩
      simpa using fun hfirst => hnotmarked (Or.inl hfirst)
  · by_cases hequal : j = i
    · rw [hequal, hself, hheld]
      refine List.nodup_append.mpr ⟨h.nodup i, List.nodup_singleton _, fun x hx y hy => ?_⟩
      rintro rfl
      rw [List.mem_singleton.mp hy] at hx
      exact hnobody i hx
    · rw [hother hequal]
      exact h.nodup j
  · rcases hmem.mp hx with hx | ⟨hj, rfl⟩
    · rcases hmem.mp hx' with hx' | ⟨hk, rfl⟩
      · exact h.disjoint j k hjk x hx hx'
      · exact hnobody j hx
    · rcases hmem.mp hx' with hx' | ⟨hk, -⟩
      · exact hnobody k hx'
      · exact hjk (hj.trans hk.symm)
  · show (st.frames.bitmap.markBit f).testBit g = true ↔ _
    rw [BitMap.testBit_markBit, Bool.or_eq_true, decide_eq_true_iff, h.marked g hg]
    constructor
    · rintro (rfl | hfirst | ⟨j, hj⟩)
      · exact Or.inr ⟨i, hmem.mpr (Or.inr ⟨rfl, rfl⟩)⟩
      · exact Or.inl hfirst
      · exact Or.inr ⟨j, hmem.mpr (Or.inl hj)⟩
    · rintro (hfirst | ⟨j, hj⟩)
      · exact Or.inr (Or.inl hfirst)
      · rcases hmem.mp hj with hj | ⟨-, hequal⟩
        · exact Or.inr (Or.inr ⟨j, hj⟩)
        · exact Or.inl (by exact_mod_cast hequal)

namespace Inv

variable {first : FrameProvider} {numPages : ι → ℕ} {st st' : Constructors ι} {i : ι}

omit [DecidableEq ι] in
/-- Before the checks nobody holds a frame. -/
theorem start (hlock : first.bitmapLock = false) :
    (Constructors.start first : Constructors ι).Inv first numPages where
  unlocked := hlock
  created _ _ h := by cases h
  fresh _ _ h := by cases h
  nodup _ := List.nodup_nil
  disjoint _ _ _ _ h := by cases h
  marked f _ := by simp [Constructors.start, ConstructorPhase.held, ConstructorPhase.pageTable]
  total := rfl
  fits _ := trivial
  committed := by simp [Constructors.start, outstanding, ConstructorPhase.need]

/-- A step that takes no frame. -/
theorem moveTo (h : st.Inv first numPages) {phase : ConstructorPhase}
    (hheld : phase.pageTable = (st.phase i).pageTable) (hfits : phase.Fits (numPages i))
    (hneed : st.outstanding numPages + phase.need (numPages i) ≤
      st.frames.numAvailFrame + (st.phase i).need (numPages i)) :
    (st.moveTo i phase).Inv first numPages := by
  have hsame (j : ι) : ((st.moveTo i phase).phase j).held = (st.phase j).held := by
    by_cases hequal : j = i
    · rw [hequal, phase_moveTo_self, ConstructorPhase.held, ConstructorPhase.held, hheld]
    · rw [phase_moveTo_of_ne hequal]
  have hfitting (j : ι) : ((st.moveTo i phase).phase j).Fits (numPages j) := by
    by_cases hequal : j = i
    · rw [hequal, phase_moveTo_self]
      exact hfits
    · rw [phase_moveTo_of_ne hequal]
      exact h.fits j
  refine ⟨⟨h.unlocked, fun j table hj => ?_, fun j => ?_, fun j => ?_, fun j k hjk => ?_,
    fun f hf => ?_⟩, h.total, hfitting, ?_⟩
  · have hlength := hfitting j
    rw [hj] at hlength
    exact hlength
  · rw [hsame]
    exact h.fresh j
  · rw [hsame]
    exact h.nodup j
  · rw [hsame, hsame]
    exact h.disjoint j k hjk
  · simp only [hsame]
    exact h.marked f hf
  · have hsum := outstanding_moveTo numPages st i phase
    show (st.moveTo i phase).outstanding numPages ≤ st.frames.numAvailFrame
    omega

omit [DecidableEq ι] in
/-- A constructor that is about to allocate finds a frame. -/
theorem avail_of_need (h : st.Inv first numPages) (hneed : 0 < (st.phase i).need (numPages i)) :
    0 < st.frames.numAvailFrame :=
  calc 0 < (st.phase i).need (numPages i) := hneed
    _ ≤ st.outstanding numPages := Finset.single_le_sum
        (fun j _ => Nat.zero_le ((st.phase j).need (numPages j))) (Finset.mem_univ i)
    _ ≤ st.frames.numAvailFrame := h.committed

/-- A step that takes a free frame. -/
theorem allocate (h : st.Inv first numPages) {table : List TranslationEntry}
    (hphase : st.phase i = .allocating table) {f : ℕ} (hf : f ∈ st.frames.bitmap.clearSet) :
    ({ st with frames := st.frames.markFrame f }.moveTo i
      (.reporting (table ++ [pageEntry table.length f]))).Inv first numPages := by
  have hlt : table.length < numPages i := by
    have hfits := h.fits i
    rw [hphase] at hfits
    exact hfits
  set phase := ConstructorPhase.reporting (table ++ [pageEntry table.length f]) with hnew
  set st' := { st with frames := st.frames.markFrame f }.moveTo i phase with hst'
  have hheld : phase.held = (st.phase i).held ++ [(f : ℤ)] := by
    rw [hnew, hphase]
    simp [ConstructorPhase.held, ConstructorPhase.pageTable, pageEntry]
  refine ⟨h.toGranted.take h.total hheld (fun _ => nofun) hf, h.total, fun j => ?_, ?_⟩
  · by_cases hequal : j = i
    · rw [hequal, hst', phase_moveTo_self, hnew]
      show (table ++ [pageEntry table.length f]).length ≤ numPages i
      rw [List.length_append]
      exact hlt
    · rw [hst', phase_moveTo_of_ne hequal]
      exact h.fits j
  · have hsum : st'.outstanding numPages + (st.phase i).need (numPages i) =
        st.outstanding numPages + phase.need (numPages i) :=
      outstanding_moveTo numPages { st with frames := st.frames.markFrame f } i phase
    have hbefore := st.frames.numAvailFrame_markFrame hf
    have hcommitted := h.committed
    have hneed : phase.need (numPages i) + 1 = (st.phase i).need (numPages i) := by
      rw [hnew, hphase]
      simp only [ConstructorPhase.need, List.length_append, List.length_singleton]
      omega
    show st'.outstanding numPages ≤ (st.frames.markFrame f).numAvailFrame
    omega

/-- **Safe steps keep the frames apart.** -/
theorem step (h : st.Inv first numPages) {label : ι × ℕ} (hsafe : st.Safe numPages label.1)
    (hstep : Step numPages st label st') : st'.Inv first numPages := by
  obtain ⟨i, rand⟩ := label
  have hcommitted := h.committed
  have hfits := h.fits i
  obtain ⟨table, hphase, hge, rfl⟩ | ⟨-, ⟨hphase, -, rfl⟩ | ⟨hphase, henough, rfl⟩ |
    ⟨table, hphase, hlt, rfl⟩ | ⟨table, hphase, rfl⟩ | ⟨table, hphase, rfl⟩⟩ := step_cases hstep
  · rw [hphase] at hfits
    apply h.moveTo
    · rw [hphase]
      rfl
    · exact Nat.le_antisymm hfits hge
    · exact Nat.le_add_right_of_le hcommitted
  · apply h.moveTo
    · rw [hphase]
      rfl
    · trivial
    · rw [hphase]
      exact hcommitted
  · have hroom : numPages i + st.outstanding numPages ≤ st.frames.numAvailFrame :=
      hsafe hphase henough
    apply h.moveTo
    · rw [hphase]
      rfl
    · exact Nat.zero_le _
    · rw [hphase]
      simp only [ConstructorPhase.need, List.length_nil]
      omega
  · apply h.moveTo
    · rw [hphase]
      rfl
    · exact hlt
    · rw [hphase]
      exact Nat.add_le_add_right hcommitted _
  · obtain ⟨hnone, -⟩ | ⟨f, hf, hget⟩ := st.frames.getEmptyFrame_cases rand
    · have havail := h.avail_of_need (i := i) (by
        rw [hphase] at hfits ⊢
        exact Nat.sub_pos_of_lt hfits)
      omega
    · rw [hget]
      exact h.allocate hphase hf
  · rw [hphase] at hfits
    apply h.moveTo
    · rw [hphase]
      rfl
    · exact hfits
    · rw [hphase]
      exact Nat.add_le_add_right hcommitted _

/-- A constructor that is not over can go on. -/
theorem exists_step (h : st.Inv first numPages) (hover : (st.phase i).isOver = false) (rand : ℕ) :
    ∃ st', Step numPages st (i, rand) st' := by
  have hunlocked := h.unlocked
  have hfits := h.fits i
  simp only [Step, exec, hunlocked]
  cases hphase : st.phase i with
  | checking =>
      by_cases hfew : st.frames.numAvailFrame < numPages i
      · exact ⟨_, by simp only [hfew]; rfl⟩
      · exact ⟨_, by simp only [hfew]; rfl⟩
  | looping table =>
      by_cases hlt : table.length < numPages i
      · have havail : st.frames.isFrameAvail = true := by
          apply FrameProvider.isFrameAvail_iff.mpr
          apply h.avail_of_need (i := i)
          rw [hphase]
          exact Nat.sub_pos_of_lt hlt
        exact ⟨_, by simp only [hlt, havail]; rfl⟩
      · exact ⟨_, by simp only [hlt]; rfl⟩
  | allocating table => exact ⟨_, rfl⟩
  | reporting table => exact ⟨_, rfl⟩
  | created table =>
      rw [hphase] at hover
      cases hover
  | refused =>
      rw [hphase] at hover
      cases hover

end Inv

/-! ## What an overcommitted check leads to -/

/-- More frames are needed than there are; or a constructor found none and took the lock
with it. -/
def Overcommitted (numPages : ι → ℕ) (st : Constructors ι) : Prop :=
  st.frames.numAvailFrame < st.outstanding numPages ∨
    st.frames.bitmapLock = true ∧ ∃ j table, st.phase j = .reporting table

variable {numPages : ι → ℕ} {st st' : Constructors ι}

/-- There is no way out. -/
theorem Overcommitted.step (h : st.Overcommitted numPages) {label : ι × ℕ}
    (hstep : Step numPages st label st') : st'.Overcommitted numPages := by
  obtain ⟨i, rand⟩ := label
  rcases h with hfew | ⟨hlocked, j, table', hj⟩
  · have hsum (phase : ConstructorPhase) := outstanding_moveTo numPages st i phase
    obtain ⟨table, hphase, hge, rfl⟩ | ⟨-, ⟨hphase, -, rfl⟩ | ⟨hphase, -, rfl⟩ |
      ⟨table, hphase, -, rfl⟩ | ⟨table, hphase, rfl⟩ | ⟨table, hphase, rfl⟩⟩ := step_cases hstep
    · have hafter := hsum (.created table)
      rw [hphase] at hafter
      simp only [ConstructorPhase.need, Nat.sub_eq_zero_of_le hge] at hafter
      exact Or.inl (hfew.trans_eq hafter.symm)
    · have hafter := hsum .refused
      rw [hphase] at hafter
      exact Or.inl (hfew.trans_eq hafter.symm)
    · have hafter := hsum (.looping [])
      rw [hphase] at hafter
      exact Or.inl (hfew.trans_le ((Nat.le_add_right _ _).trans_eq hafter.symm))
    · have hafter := hsum (.allocating table)
      rw [hphase] at hafter
      exact Or.inl (hfew.trans_eq (Nat.add_right_cancel hafter).symm)
    · obtain ⟨-, hget⟩ | ⟨f, hf, hget⟩ := st.frames.getEmptyFrame_cases rand
      · rw [hget]
        exact Or.inr ⟨rfl, i, _, phase_moveTo_self _ _ _⟩
      · rw [hget]
        have hafter : ({ st with frames := st.frames.markFrame f }.moveTo i
            (.reporting (table ++ [pageEntry table.length f]))).outstanding numPages +
              (st.phase i).need (numPages i) = _ :=
          hsum (.reporting (table ++ [pageEntry table.length f]))
        rw [hphase] at hafter
        simp only [ConstructorPhase.need, List.length_append, List.length_singleton] at hafter
        have havail := st.frames.numAvailFrame_markFrame hf
        refine Or.inl ?_
        show (st.frames.markFrame f).numAvailFrame <
          ({ st with frames := st.frames.markFrame f }.moveTo i
            (.reporting (table ++ [pageEntry table.length f]))).outstanding numPages
        omega
    · have hafter := hsum (.looping table)
      rw [hphase] at hafter
      exact Or.inl (hfew.trans_eq (Nat.add_right_cancel hafter).symm)
  · obtain ⟨table, hphase, -, rfl⟩ | ⟨hunlocked, -⟩ := step_cases hstep
    · refine Or.inr ⟨hlocked, j, table', ?_⟩
      have hne : j ≠ i := by
        rintro rfl
        rw [hphase] at hj
        cases hj
      exact (phase_moveTo_of_ne hne _ _).trans hj
    · rw [hlocked] at hunlocked
      cases hunlocked

omit [DecidableEq ι] in
/-- Some constructor is not over. -/
theorem Overcommitted.exists_not_over (h : st.Overcommitted numPages) :
    ∃ j, (st.phase j).isOver = false := by
  rcases h with hfew | ⟨-, j, table, hj⟩
  · obtain ⟨j, -, hj⟩ := Finset.exists_ne_zero_of_sum_ne_zero (Nat.ne_zero_of_lt hfew)
    refine ⟨j, ?_⟩
    cases hphase : st.phase j with
    | checking | looping _ | allocating _ | reporting _ => rfl
    | created _ | refused =>
        rw [hphase] at hj
        exact absurd rfl hj
  · exact ⟨j, by rw [hj]; rfl⟩

/-- A check that is not safe overcommits. -/
theorem overcommitted_of_not_safe {i : ι} {rand : ℕ} (hstep : Step numPages st (i, rand) st')
    (hbroken : ¬ st.Safe numPages i) : st'.Overcommitted numPages := by
  obtain ⟨hchecking, hpass, hover⟩ : st.phase i = .checking ∧
      numPages i ≤ st.frames.numAvailFrame ∧
        st.frames.numAvailFrame < numPages i + st.outstanding numPages := by
    simpa [Safe] using hbroken
  obtain ⟨table, hphase, -, -⟩ | ⟨-, ⟨-, hfew, -⟩ | ⟨-, -, rfl⟩ | ⟨table, hphase, -, -⟩ |
    ⟨table, hphase, -⟩ | ⟨table, hphase, -⟩⟩ := step_cases hstep
  · rw [hchecking] at hphase
    cases hphase
  · omega
  · have hafter := outstanding_moveTo numPages st i (.looping [])
    rw [hchecking] at hafter
    simp only [ConstructorPhase.need, List.length_nil] at hafter
    refine Or.inl ?_
    show st.frames.numAvailFrame < _
    omega
  all_goals
    rw [hchecking] at hphase
    cases hphase

omit [Fintype ι] in
/-- A check that is passed. -/
theorem step_of_check {i : ι} (hlock : st.frames.bitmapLock = false)
    (hphase : st.phase i = .checking) (havail : numPages i ≤ st.frames.numAvailFrame) (rand : ℕ) :
    Step numPages st (i, rand) (st.moveTo i (.looping [])) := by
  simp only [Step, exec, hphase, hlock, if_neg (Nat.not_lt.mpr havail)]
  rfl

/-- Steps can be taken until every constructor is over, if there always is one. -/
theorem exists_all_over (numPages : ι → ℕ) {P : Constructors ι → Prop}
    (hstep : ∀ st, P st → ∀ i, (st.phase i).isOver = false →
      ∃ st', Step numPages st (i, 0) st' ∧ P st')
    {st : Constructors ι} (h : P st) :
    ∃ steps later, Trace (Step numPages) st steps later ∧ ∀ j, (later.phase j).isOver = true := by
  induction hrank : ∑ j, (st.phase j).rank (numPages j) using Nat.strong_induction_on
    generalizing st with
  | _ total ih =>
      by_cases hall : ∀ j, (st.phase j).isOver = true
      · exact ⟨[], st, .nil st, hall⟩
      · obtain ⟨i, hi⟩ : ∃ i, (st.phase i).isOver = false := by simpa using hall
        obtain ⟨st', hst', hP⟩ := hstep st h i hi
        have hless : ∑ j, (st'.phase j).rank (numPages j) < total := by
          rw [← hrank]
          refine Finset.sum_lt_sum (fun j _ => ?_) ⟨i, Finset.mem_univ i, ?_⟩
          · exact (Nat.le_add_right _ _).trans (rank_step hst' j)
          · have hlower := rank_step hst' i
            rw [if_pos rfl] at hlower
            exact hlower
        obtain ⟨steps, later, hrun, hover⟩ := ih _ hless hP rfl
        exact ⟨_, later, hrun.cons hst', hover⟩

/-- **Memory is not overcommitted while the checks are safe.** In every run in which each
constructor that passes its check leaves enough frames for the others past theirs, the
frames held are free ones, held once, and the lock is free; a constructor that is not over
can go on; and it takes at most `3 * numPages i + 2` steps. After a check that is not safe,
the constructors are never all over. -/
theorem frames_granted (numPages : ι → ℕ) {first : FrameProvider}
    (hlock : first.bitmapLock = false) {steps : List (Base.Step (Constructors ι) (ι × ℕ))}
    {st : Constructors ι} (hrun : Trace (Step numPages) (start first) steps st)
    (hsafe : ∀ x ∈ steps, x.before.Safe numPages x.label.1) :
    st.Granted first numPages ∧
      (∀ i rand, (st.phase i).isOver = false → ∃ st', Step numPages st (i, rand) st') ∧
      (∀ i, steps.countP (fun x => x.label.1 = i) ≤ 3 * numPages i + 2) ∧
      ∀ i rand st', Step numPages st (i, rand) st' → ¬ st.Safe numPages i →
        ∀ steps' later, Trace (Step numPages) st' steps' later →
          ∃ j, (later.phase j).isOver = false := by
  have hinv : st.Inv first numPages := (hrun.invariant
    (fun _ hbefore hstep hcall => hbefore.step hcall hstep) (Inv.start hlock) hsafe).1
  refine ⟨hinv.toGranted, fun i rand hover => hinv.exists_step hover rand, fun i => ?_,
    fun i rand st' hstep hbroken steps' later hlater => ?_⟩
  · have hcount := hrun.countP_add_le (m := fun s => (s.phase i).rank (numPages i))
      (P := fun label => label.1 = i) fun s label t hstep => by
        simpa using rank_step hstep i
    exact (Nat.le_add_right _ _).trans hcount
  · have hover := overcommitted_of_not_safe hstep hbroken
    have hafter := (hlater.invariant_of_forall (I := fun s => s.Overcommitted numPages)
      (fun x hbefore hrel => hbefore.step hrel) hover).1
    exact hafter.exists_not_over

/-- Two constructors of sixteen pages, on a machine with no process yet: both checks are
safe. -/
theorem frames_granted_two : ∃ steps st,
    Trace (Step fun _ : Fin 2 => 16) (start (FrameProvider.new (fun _ => 0) NumPhysPages)) steps st ∧
      steps.map (fun x => x.label) = [(0, 0), (1, 0)] ∧
      (∀ x ∈ steps, x.before.Safe (fun _ => 16) x.label.1) ∧
      st.Granted (FrameProvider.new (fun _ => 0) NumPhysPages) (fun _ => 16) ∧
      (∀ i rand, (st.phase i).isOver = false → ∃ st', Step (fun _ => 16) st (i, rand) st') ∧
      (∀ i, steps.countP (fun x => x.label.1 = i) ≤ 3 * 16 + 2) ∧
      ∀ i rand st', Step (fun _ => 16) st (i, rand) st' → ¬ st.Safe (fun _ => 16) i →
        ∀ steps' later, Trace (Step fun _ => 16) st' steps' later →
          ∃ j, (later.phase j).isOver = false := by
  set first := FrameProvider.new (fun _ => 0) NumPhysPages with hfirst
  have havail : first.numAvailFrame = 255 := FrameProvider.numAvailFrame_new _ _
  set zero : Constructors (Fin 2) := start first with hzero
  have hone : Step (fun _ => 16) zero (0, 0) (zero.moveTo 0 (.looping [])) :=
    step_of_check rfl rfl (havail.symm ▸ by decide) 0
  have htwo : Step (fun _ => 16) (zero.moveTo 0 (.looping [])) (1, 0)
      ((zero.moveTo 0 (.looping [])).moveTo 1 (.looping [])) :=
    step_of_check rfl rfl (havail.symm ▸ by decide) 0
  have hrun := (Trace.nil zero |>.snoc hone).snoc htwo
  have hsafe : ∀ x ∈ [⟨zero, (0, 0), zero.moveTo 0 (.looping [])⟩] ++
      [(⟨zero.moveTo 0 (.looping []), (1, 0), (zero.moveTo 0 (.looping [])).moveTo 1
        (.looping [])⟩ : Base.Step (Constructors (Fin 2)) (Fin 2 × ℕ))],
      x.before.Safe (fun _ => 16) x.label.1 := by
    intro x hx
    rcases List.mem_append.mp hx with hx | hx
    · rw [List.mem_singleton.mp hx]
      intro _ _
      show 16 + zero.outstanding _ ≤ first.numAvailFrame
      rw [havail, outstanding, Fin.sum_univ_two]
      decide
    · rw [List.mem_singleton.mp hx]
      intro _ _
      show 16 + (zero.moveTo 0 (.looping [])).outstanding _ ≤ first.numAvailFrame
      rw [havail, outstanding, Fin.sum_univ_two]
      decide
  exact ⟨_, _, hrun, rfl, hsafe, frames_granted (fun _ => 16) rfl hrun hsafe⟩

/-- Two constructors of 130 pages, on a machine with no process yet: both pass the check,
and one of them is lost. -/
theorem not_frames_granted_of_both_pass : ¬ ∀ steps st,
    Trace (Step fun _ : Fin 2 => 130) (start (FrameProvider.new (fun _ => 0) NumPhysPages))
      steps st →
      st.Granted (FrameProvider.new (fun _ => 0) NumPhysPages) (fun _ => 130) ∧
        ∀ i rand, (st.phase i).isOver = false → ∃ st', Step (fun _ => 130) st (i, rand) st' := by
  intro hclaim
  set first := FrameProvider.new (fun _ => 0) NumPhysPages with hfirst
  have havail : first.numAvailFrame = 255 := FrameProvider.numAvailFrame_new _ _
  set zero : Constructors (Fin 2) := start first with hzero
  have hone : Step (fun _ => 130) zero (0, 0) (zero.moveTo 0 (.looping [])) :=
    step_of_check rfl rfl (havail.symm ▸ by decide) 0
  have htwo : Step (fun _ => 130) (zero.moveTo 0 (.looping [])) (1, 0)
      ((zero.moveTo 0 (.looping [])).moveTo 1 (.looping [])) :=
    step_of_check rfl rfl (havail.symm ▸ by decide) 0
  have hover : ((zero.moveTo 0 (.looping [])).moveTo 1 (.looping [])).Overcommitted
      fun _ => 130 := by
    refine Or.inl ?_
    show first.numAvailFrame < _
    rw [havail, outstanding, Fin.sum_univ_two]
    decide
  -- Were there always a step to take, both constructors would end.
  obtain ⟨steps, later, hlater, hall⟩ := exists_all_over (fun _ => 130)
    (P := fun st => ∃ steps, Trace (Step fun _ => 130) zero steps st)
    (fun st hst i hi => by
      obtain ⟨steps, hrun⟩ := hst
      obtain ⟨st', hst'⟩ := (hclaim steps st hrun).2 i 0 hi
      exact ⟨st', hst', _, hrun.snoc hst'⟩)
    ⟨_, (Trace.nil zero |>.snoc hone).snoc htwo⟩
  have hafter := (hlater.invariant_of_forall
    (I := fun st => st.Overcommitted fun _ => 130)
    (fun x hbefore hrel => hbefore.step hrel) hover).1
  obtain ⟨j, hj⟩ := hafter.exists_not_over
  rw [hall j] at hj
  cases hj

end Constructors

end Nachos
