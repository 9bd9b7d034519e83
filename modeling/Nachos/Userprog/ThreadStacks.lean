/-
# The stacks of the threads of an address space

`GetThreadStackPointer` turns a slot into a stack pointer counted from the end of the
address space, and `RemoveThreadStackPointer` turns a stack pointer into a slot counted
from the size of the stack area. The two agree for at most one slot of an address space.
As long as only threads on such a slot leave, the slots that are marked are those of the
threads that have a stack.
-/

import Mathlib.Order.Interval.Finset.Nat
import Nachos.Userprog.ThreadIds

namespace Nachos

open Base

namespace ThreadRun

/-- Thread `i` was created, and has a stack that it has not given back. -/
def Holds (st : ThreadRun) (i : ℕ) : Prop := 1 ≤ i ∧ (st.threads i).activity.holdsStack

/-- The slots that are marked are the slots of the threads with a stack, and no two
threads, the main thread included, have the same stack pointer. -/
structure StacksOwned (st : ThreadRun) : Prop where
  marked_iff : ∀ k, st.space.threadStackPointer k = true ↔
    ∃ i, st.Holds i ∧ (st.threads i).sp = st.space.stackPointer k
  distinct : ∀ i j, i ≠ j → (st.threads i).activity.holdsStack →
    (st.threads j).activity.holdsStack → (st.threads i).sp ≠ (st.threads j).sp

/-- The section ends, and where it gives back a stack it clears the slot of the caller
and no other. -/
def SlotKept (st : ThreadRun) (call : ThreadCall) : Prop :=
  ∀ result, st.exec call = some result → ∃ st', result = .ok st' ∧
    ∀ c, call = .releaseStack c → ∃ k : Fin UserThreadMax, (st.threads c).sp = st.space.stackPointer k ∧
      st'.space.threadStackPointer = Function.update st.space.threadStackPointer k false

/-- The threads between the two sections of `do_UserThreadExit`. -/
def exiting (st : ThreadRun) : Finset ℕ :=
  (Finset.range (st.created + 1)).filter fun i => (st.threads i).activity = .exiting

/-- The created threads that have not finished. -/
def unfinished (st : ThreadRun) : Finset ℕ :=
  (Finset.Icc 1 st.created).filter fun i => (st.threads i).activity ≠ .finished

/-- The slot of thread `i` is found again from its stack pointer. -/
def OnRecoveredSlot (st : ThreadRun) (i : ℕ) : Prop :=
  ∀ k : Fin UserThreadMax, (st.threads i).sp = st.space.stackPointer k → st.space.SlotRecovered k

/-- What a section has to respect. Ids are safe. A creation that passes its check leaves
room for the threads that are on their way out. Only created threads leave, and only from
a slot that is found again. -/
def StackSafe (st : ThreadRun) (call : ThreadCall) : Prop :=
  st.IdSafe call ∧
    match call with
    | .create _ => st.space.getTotalThreads < UserThreadMax →
        st.space.getTotalThreads + st.exiting.card ≤ UserThreadMax
    | .exit c => 1 ≤ c ∧ st.OnRecoveredSlot c
    | _ => True

instance (st : ThreadRun) (i : ℕ) : Decidable (st.OnRecoveredSlot i) :=
  inferInstanceAs (Decidable (∀ k : Fin UserThreadMax,
    (st.threads i).sp = st.space.stackPointer k →
      8 * (k : ℕ) + 57 = 3 * st.space.numPages ∨ (k : ℕ) = 0 ∧ st.space.numPages = 20))

instance (st : ThreadRun) (call : ThreadCall) : Decidable (st.StackSafe call) :=
  match call with
  | .create c => inferInstanceAs (Decidable (st.IdSafe (.create c) ∧
      (st.space.getTotalThreads < UserThreadMax →
        st.space.getTotalThreads + st.exiting.card ≤ UserThreadMax)))
  | .exit c => inferInstanceAs (Decidable (st.IdSafe (.exit c) ∧ 1 ≤ c ∧ st.OnRecoveredSlot c))
  | .takeStack c => inferInstanceAs (Decidable (st.IdSafe (.takeStack c) ∧ True))
  | .releaseStack c => inferInstanceAs (Decidable (st.IdSafe (.releaseStack c) ∧ True))
  | .join c t => inferInstanceAs (Decidable (st.IdSafe (.join c t) ∧ True))
  | .wake c => inferInstanceAs (Decidable (st.IdSafe (.wake c) ∧ True))

/-- The invariant. -/
structure StackInv (st : ThreadRun) : Prop where
  ids : st.IdInv
  owned : st.StacksOwned
  slot : ∀ i, st.Holds i → ∃ k : Fin UserThreadMax, (st.threads i).sp = st.space.stackPointer k
  main : (st.threads 0).activity.isLive ∧ (st.threads 0).activity.holdsStack ∧
    (st.threads 0).sp = 0
  few : st.unfinished.card ≤ UserThreadMax
  recovered : ∀ i, (st.threads i).activity = .exiting → 1 ≤ i ∧ st.OnRecoveredSlot i

namespace StackInv

variable {st st' : ThreadRun} {c : ℕ}

theorem mem_unfinished {i : ℕ} :
    i ∈ st.unfinished ↔ (1 ≤ i ∧ i ≤ st.created) ∧ (st.threads i).activity ≠ .finished := by
  simp [unfinished]

/-- A thread with a stack has not finished. -/
theorem mem_unfinished_of_holds (h : st.IdInv) {i : ℕ} (hi : st.Holds i) : i ∈ st.unfinished := by
  obtain ⟨hone, hholds⟩ := hi
  refine mem_unfinished.mpr ⟨⟨hone, h.le_created ?_⟩, ?_⟩
  · intro hunborn
    rw [hunborn] at hholds
    cases hholds
  · intro hfinished
    rw [hfinished] at hholds
    cases hholds

/-- The created threads that have not finished are alive or on their way out. -/
theorem card_unfinished_le (h : st.StackInv) :
    st.unfinished.card + 1 ≤ st.space.getTotalThreads + st.exiting.card := by
  have hcover : st.unfinished ⊆ (IdInv.live st).erase 0 ∪ st.exiting := by
    intro i hi
    obtain ⟨⟨hone, hle⟩, hfinished⟩ := mem_unfinished.mp hi
    rw [Finset.mem_union, Finset.mem_erase, IdInv.mem_live, exiting, Finset.mem_filter,
      Finset.mem_range]
    cases hactivity : (st.threads i).activity with
    | unborn => exact absurd hactivity (h.ids.born i hle)
    | embryo | running | creating _ | joining _ => exact Or.inl ⟨by omega, hle, rfl⟩
    | exiting => exact Or.inr ⟨by omega, rfl⟩
    | finished => exact absurd hactivity hfinished
  have hzero : 0 ∈ IdInv.live st := IdInv.mem_live.mpr ⟨Nat.zero_le _, h.main.1⟩
  have hcard := (Finset.card_le_card hcover).trans (Finset.card_union_le _ _)
  rw [Finset.card_erase_of_mem hzero, ← h.ids.totalThreads_eq_card] at hcard
  have hpositive : 0 < (IdInv.live st).card := Finset.card_pos.mpr ⟨0, hzero⟩
  rw [← h.ids.totalThreads_eq_card] at hpositive
  omega

/-- Stack pointers depend on the number of pages only. -/
theorem stackPointer_congr {space space' : AddrSpace} (h : space'.numPages = space.numPages)
    (k : ℕ) : space'.stackPointer k = space.stackPointer k := by
  rw [AddrSpace.stackPointer, AddrSpace.stackPointer, h]

/-- A step that keeps the slots, and who has a stack. -/
theorem of_same (h : st.StackInv) (hids : st'.IdInv)
    (hpages : st'.space.numPages = st.space.numPages)
    (hslots : st'.space.threadStackPointer = st.space.threadStackPointer)
    (hholds : ∀ i, (st'.threads i).activity.holdsStack = (st.threads i).activity.holdsStack)
    (hsp : ∀ i, (st.threads i).activity.holdsStack → (st'.threads i).sp = (st.threads i).sp)
    (hmain : (st'.threads 0).activity.isLive) (hfew : st'.unfinished.card ≤ UserThreadMax)
    (hexiting : ∀ i, (st'.threads i).activity = .exiting → (st.threads i).activity = .exiting ∨
      1 ≤ i ∧ st.OnRecoveredSlot i) :
    st'.StackInv := by
  have hpointer (k : ℕ) := stackPointer_congr hpages k
  have hheld (i : ℕ) : st'.Holds i ↔ st.Holds i := by rw [Holds, Holds, hholds]
  refine ⟨hids, ⟨fun k => ?_, fun i j hne hi hj => ?_⟩, fun i hi => ?_, ⟨hmain, ?_, ?_⟩, hfew,
    fun i hi => ?_⟩
  · rw [hslots, h.owned.marked_iff k]
    apply exists_congr
    intro i
    rw [hheld i, hpointer]
    refine and_congr_right fun hi => ?_
    rw [hsp i hi.2]
  · rw [hholds] at hi hj
    rw [hsp i hi, hsp j hj]
    exact h.owned.distinct i j hne hi hj
  · rw [hheld] at hi
    obtain ⟨k, hk⟩ := h.slot i hi
    exact ⟨k, by rw [hsp i hi.2, hpointer, hk]⟩
  · rw [hholds]
    exact h.main.2.1
  · rw [hsp 0 h.main.2.1]
    exact h.main.2.2
  · have hholding : (st.threads i).activity.holdsStack := by
      rw [← hholds, hi]
      rfl
    have hrecovered : 1 ≤ i ∧ st.OnRecoveredSlot i := by
      rcases hexiting i hi with hbefore | hnew
      · exact h.recovered i hbefore
      · exact hnew
    refine ⟨hrecovered.1, fun k hk => ?_⟩
    rw [hsp i hholding, hpointer] at hk
    have hslot := hrecovered.2 k hk
    rw [AddrSpace.SlotRecovered, hpages]
    exact hslot

/-- A step that moves one thread, which keeps its stack. -/
theorem setThread (h : st.StackInv) (space : AddrSpace) {thread : UserThread}
    (hids : ({ st with space := space }.setThread c thread).IdInv)
    (hpages : space.numPages = st.space.numPages)
    (hslots : space.threadStackPointer = st.space.threadStackPointer)
    (hsp : thread.sp = (st.threads c).sp)
    (hholds : thread.activity.holdsStack = (st.threads c).activity.holdsStack)
    (hmain : c = 0 → thread.activity.isLive)
    (hunfinished : (st.threads c).activity ≠ .finished)
    (hexiting : thread.activity = .exiting → 1 ≤ c ∧ st.OnRecoveredSlot c) :
    ({ st with space := space }.setThread c thread).StackInv := by
  set st' := { st with space := space }.setThread c thread with hst'
  have hself : st'.threads c = thread := Function.update_self _ _ _
  have hother {i : ℕ} (hi : i ≠ c) : st'.threads i = st.threads i := Function.update_of_ne hi _ _
  refine h.of_same hids hpages hslots (fun i => ?_) (fun i _ => ?_) ?_ ?_ (fun i hi => ?_)
  · by_cases hequal : i = c
    · rw [hequal, hself, hholds]
    · rw [hother hequal]
  · by_cases hequal : i = c
    · rw [hequal, hself, hsp]
    · rw [hother hequal]
  · by_cases hequal : (0 : ℕ) = c
    · rw [hequal, hself]
      exact hmain hequal.symm
    · rw [hother hequal]
      exact h.main.1
  · refine (Finset.card_le_card fun i hi => ?_).trans h.few
    obtain ⟨hrange, hfinished⟩ := mem_unfinished.mp hi
    refine mem_unfinished.mpr ⟨hrange, ?_⟩
    by_cases hequal : i = c
    · rw [hequal]
      exact hunfinished
    · rw [hother hequal] at hfinished
      exact hfinished
  · by_cases hequal : i = c
    · rw [hequal, hself] at hi
      rw [hequal]
      exact Or.inr (hexiting hi)
    · rw [hother hequal] at hi
      exact Or.inl hi

/-- A thread with a stack goes on running. -/
theorem resume (h : st.StackInv) (hlive : (st.threads c).activity.isLive)
    (hholds : (st.threads c).activity.holdsStack) (result : ℤ) : (st.resume c result).StackInv := by
  apply h.setThread st.space
  · apply h.ids.resume hlive
    intro hembryo
    rw [hembryo] at hholds
    cases hholds
  · rfl
  · rfl
  · rfl
  · exact hholds.symm
  · intro _
    rfl
  · intro hfinished
    rw [hfinished] at hlive
    cases hlive
  · intro hexiting
    cases hexiting

/-- The main thread is there at the start, and no stack is taken. -/
theorem start {numPages : ℕ} (hpages : numPages ≤ NumPhysPages)
    (pageTable : List TranslationEntry) (pid : ℕ) :
    (ThreadRun.start (AddrSpace.init numPages hpages pageTable pid)).StackInv := by
  set st := ThreadRun.start (AddrSpace.init numPages hpages pageTable pid) with hst
  have hother {i : ℕ} (hi : i ≠ 0) : st.threads i = noThread := by
    rw [hst, ThreadRun.start]
    exact Function.update_of_ne hi mainThread fun _ => noThread
  have hnone (i : ℕ) (hi : (st.threads i).activity.holdsStack) : i = 0 := by
    by_contra hne
    rw [hother hne] at hi
    cases hi
  refine ⟨IdInv.start hpages pageTable pid, ⟨fun k => ?_, fun i j hne hi hj => ?_⟩, fun i hi => ?_,
    ⟨rfl, rfl, rfl⟩, Nat.zero_le _, fun i hi => ?_⟩
  · constructor
    · intro hmarked
      cases hmarked
    · rintro ⟨i, ⟨hone, hi⟩, -⟩
      have hzero := hnone i hi
      omega
  · exact absurd ((hnone i hi).trans (hnone j hj).symm) hne
  · have hzero := hnone i hi.2
    have hone := hi.1
    omega
  · by_cases hzero : i = 0
    · rw [hzero] at hi
      cases hi
    · rw [hother hzero] at hi
      cases hi

/-- A creation that leaves room for the threads on their way out. -/
theorem accept (h : st.StackInv) (hc : (st.threads c).activity = .running)
    (hroom : st.space.getTotalThreads < UserThreadMax)
    (hsafe : st.space.getTotalThreads + st.exiting.card ≤ UserThreadMax) :
    (st.accept c).StackInv := by
  have hle : c ≤ st.created := h.ids.le_created (by rw [hc]; decide)
  have hself : (st.accept c).threads c =
      { st.threads c with activity := .creating (st.created + 1) } := by
    rw [ThreadRun.accept, moveTo, addThread]
    simp only [Function.update_self, Function.update_of_ne (show c ≠ st.created + 1 by omega)]
  have hchild : (st.accept c).threads (st.created + 1) = ⟨st.created + 2, 0, .embryo, 0⟩ := by
    rw [ThreadRun.accept, moveTo, addThread]
    simp only [Function.update_self, Function.update_of_ne (show st.created + 1 ≠ c by omega)]
  have hother {i : ℕ} (hi : i ≠ c) (hnew : i ≠ st.created + 1) :
      (st.accept c).threads i = st.threads i := by
    rw [ThreadRun.accept, moveTo, addThread]
    simp only [Function.update_of_ne hi, Function.update_of_ne hnew]
  have hunborn := h.ids.unborn (st.created + 1) (Nat.lt_succ_self _)
  refine h.of_same (h.ids.accept hc hroom) rfl rfl (fun i => ?_) (fun i hi => ?_) ?_ ?_
    (fun i hi => ?_)
  · by_cases hequal : i = c
    · rw [hequal, hself, hc]
      rfl
    · by_cases hnew : i = st.created + 1
      · rw [hnew, hchild, hunborn]
        rfl
      · rw [hother hequal hnew]
  · by_cases hequal : i = c
    · rw [hequal, hself]
    · rw [hother hequal]
      rintro rfl
      rw [hunborn] at hi
      cases hi
  · by_cases hequal : (0 : ℕ) = c
    · rw [hequal, hself]
      rfl
    · rw [hother hequal (by omega)]
      exact h.main.1
  · have hcover : (st.accept c).unfinished ⊆ insert (st.created + 1) st.unfinished := by
      intro i hi
      obtain ⟨⟨hone, hrange⟩, hfinished⟩ := mem_unfinished.mp hi
      have hcreated : i ≤ st.created + 1 := hrange
      rw [Finset.mem_insert, mem_unfinished]
      by_cases hnew : i = st.created + 1
      · exact Or.inl hnew
      · refine Or.inr ⟨⟨hone, by omega⟩, ?_⟩
        by_cases hequal : i = c
        · rw [hequal, hc]
          simp
        · rw [hother hequal hnew] at hfinished
          exact hfinished
    have hcard := (Finset.card_le_card hcover).trans (Finset.card_insert_le _ _)
    have hbefore := h.card_unfinished_le
    omega
  · by_cases hequal : i = c
    · rw [hequal, hself] at hi
      cases hi
    · by_cases hnew : i = st.created + 1
      · rw [hnew, hchild] at hi
        cases hi
      · rw [hother hequal hnew] at hi
        exact Or.inl hi

/-- While a thread is being created, some slot is free. -/
theorem exists_free (h : st.StackInv) {child : ℕ} (hc : (st.threads c).activity = .creating child) :
    ∃ k, st.space.threadStackPointer k = false := by
  by_contra hnone
  have hmarked (k : Fin UserThreadMax) : st.space.threadStackPointer k = true := by
    by_contra hfree
    exact hnone ⟨k, by simpa using hfree⟩
  have hembryo := h.ids.child c child hc
  -- Every slot has its own thread, and the child has none yet.
  choose holder hholder using fun k => (h.owned.marked_iff k).mp (hmarked k)
  have hinjective : Function.Injective holder := by
    intro j k hequal
    apply st.space.stackPointer_injective
    show st.space.stackPointer j = st.space.stackPointer k
    rw [← (hholder j).2, ← (hholder k).2, hequal]
  have hcover : Finset.univ.image holder ⊆ st.unfinished.erase child := by
    intro i hi
    obtain ⟨k, -, rfl⟩ := Finset.mem_image.mp hi
    refine Finset.mem_erase.mpr ⟨?_, mem_unfinished_of_holds h.ids (hholder k).1⟩
    intro hequal
    have hholds := (hholder k).1.2
    rw [hequal, hembryo] at hholds
    cases hholds
  have hchild : child ∈ st.unfinished := by
    refine mem_unfinished.mpr ⟨⟨?_, h.ids.le_created (by rw [hembryo]; decide)⟩,
      by rw [hembryo]; decide⟩
    by_contra hzero
    have hholds := h.main.2.1
    rw [← Nat.lt_one_iff.mp (Nat.lt_of_not_le hzero), hembryo] at hholds
    cases hholds
  have hcard := Finset.card_le_card hcover
  rw [Finset.card_image_of_injective _ hinjective, Finset.card_univ, Fintype.card_fin,
    Finset.card_erase_of_mem hchild] at hcard
  have hpositive : 0 < st.unfinished.card := Finset.card_pos.mpr ⟨child, hchild⟩
  have hfew := h.few
  omega

/-- Nobody is on a slot that is not marked, the main thread included. -/
theorem sp_ne_of_free (h : st.StackInv) {k : Fin UserThreadMax}
    (hfree : st.space.threadStackPointer k = false) {i : ℕ}
    (hholds : (st.threads i).activity.holdsStack) : (st.threads i).sp ≠ st.space.stackPointer k := by
  intro hequal
  by_cases hmain : i = 0
  · rw [hmain, h.main.2.2] at hequal
    exact st.space.stackPointer_ne_zero k hequal.symm
  · have hmarked := (h.owned.marked_iff k).mpr ⟨i, ⟨by omega, hholds⟩, hequal⟩
    rw [hfree] at hmarked
    cases hmarked

section giveStack

variable {child : ℕ} {k : Fin UserThreadMax}

theorem giveStack_creator : (st.giveStack c child k).threads c =
    { st.threads c with activity := .running, result := (st.threads child).tid } :=
  Function.update_self _ _ _

theorem giveStack_child (h : st.IdInv) (hc : (st.threads c).activity = .creating child) :
    (st.giveStack c child k).threads child =
      { st.threads child with sp := st.space.stackPointer k, activity := .running } := by
  rw [ThreadRun.giveStack]
  simp only [Function.update_of_ne (h.child_ne hc), Function.update_self]

theorem giveStack_of_ne {i : ℕ} (hi : i ≠ c) (hnew : i ≠ child) :
    (st.giveStack c child k).threads i = st.threads i := by
  rw [ThreadRun.giveStack]
  simp only [Function.update_of_ne hi, Function.update_of_ne hnew]

/-- Only the child gets a stack pointer. -/
theorem sp_giveStack {i : ℕ} (hi : i ≠ child) :
    ((st.giveStack c child k).threads i).sp = (st.threads i).sp := by
  by_cases hequal : i = c
  · rw [hequal, giveStack_creator]
  · rw [giveStack_of_ne hequal hi]

theorem holdsStack_giveStack (hc : (st.threads c).activity = .creating child) {i : ℕ}
    (hi : i ≠ child) : ((st.giveStack c child k).threads i).activity.holdsStack =
      (st.threads i).activity.holdsStack := by
  by_cases hequal : i = c
  · rw [hequal, giveStack_creator, hc]
    rfl
  · rw [giveStack_of_ne hequal hi]

/-- The main thread is nobody's child. -/
theorem child_ne_zero (h : st.StackInv) (hc : (st.threads c).activity = .creating child) :
    child ≠ 0 := by
  rintro rfl
  have hmain := h.main.2.1
  rw [h.ids.child c 0 hc] at hmain
  cases hmain

/-- The slot is marked now, and the child is the thread on it. -/
theorem owned_giveStack (h : st.StackInv) (hc : (st.threads c).activity = .creating child)
    (hfree : st.space.threadStackPointer k = false) : (st.giveStack c child k).StacksOwned := by
  have hembryo := h.ids.child c child hc
  have hchild := giveStack_child (k := k) h.ids hc
  have hzero := h.child_ne_zero hc
  refine ⟨fun j => ?_, fun i j hij hi hj => ?_⟩
  · show Function.update st.space.threadStackPointer k true j = true ↔ _
    rw [Function.update_apply]
    constructor
    · intro hmarked
      by_cases hequal : j = k
      · exact ⟨child, ⟨by omega, by rw [hchild]; rfl⟩, by rw [hchild, hequal]; rfl⟩
      · rw [if_neg hequal] at hmarked
        obtain ⟨i, ⟨hone, hi⟩, hpointer⟩ := (h.owned.marked_iff j).mp hmarked
        have hnot : i ≠ child := by
          rintro rfl
          rw [hembryo] at hi
          cases hi
        exact ⟨i, ⟨hone, by rw [holdsStack_giveStack hc hnot]; exact hi⟩,
          by rw [sp_giveStack hnot]; exact hpointer⟩
    · rintro ⟨i, ⟨hone, hi⟩, hpointer⟩
      by_cases hequal : i = child
      · rw [hequal, hchild] at hpointer
        rw [if_pos (st.space.stackPointer_injective hpointer).symm]
      · rw [holdsStack_giveStack hc hequal] at hi
        rw [sp_giveStack hequal] at hpointer
        split
        · rfl
        · exact (h.owned.marked_iff j).mpr ⟨i, ⟨hone, hi⟩, hpointer⟩
  · by_cases hi' : i = child
    · have hj' : j ≠ child := by
        rintro rfl
        exact hij hi'
      rw [holdsStack_giveStack hc hj'] at hj
      rw [hi', hchild, sp_giveStack hj']
      exact (h.sp_ne_of_free hfree hj).symm
    · rw [holdsStack_giveStack hc hi'] at hi
      rw [sp_giveStack hi']
      by_cases hj' : j = child
      · rw [hj', hchild]
        exact h.sp_ne_of_free hfree hi
      · rw [holdsStack_giveStack hc hj'] at hj
        rw [sp_giveStack hj']
        exact h.owned.distinct i j hij hi hj

/-- The new thread gets the slot that was free. -/
theorem giveStack (h : st.StackInv) (hc : (st.threads c).activity = .creating child)
    (hfree : st.space.threadStackPointer k = false) : (st.giveStack c child k).StackInv := by
  have hchild := giveStack_child (k := k) h.ids hc
  have hzero := (h.child_ne_zero hc).symm
  refine ⟨h.ids.giveStack hc k, h.owned_giveStack hc hfree, fun i hi => ?_, ⟨?_, ?_, ?_⟩, ?_,
    fun i hi => ?_⟩
  · by_cases hequal : i = child
    · exact ⟨k, by rw [hequal, hchild]; rfl⟩
    · obtain ⟨j, hj⟩ := h.slot i ⟨hi.1, by rw [← holdsStack_giveStack hc hequal]; exact hi.2⟩
      exact ⟨j, by rw [sp_giveStack hequal]; exact hj⟩
  · by_cases hequal : (0 : ℕ) = c
    · rw [hequal, giveStack_creator]
      rfl
    · rw [giveStack_of_ne hequal hzero]
      exact h.main.1
  · rw [holdsStack_giveStack hc hzero]
    exact h.main.2.1
  · rw [sp_giveStack hzero]
    exact h.main.2.2
  · refine (Finset.card_le_card fun i hi => ?_).trans h.few
    obtain ⟨hrange, hfinished⟩ := mem_unfinished.mp hi
    refine mem_unfinished.mpr ⟨hrange, ?_⟩
    by_cases hequal : i = c
    · rw [hequal, hc]
      simp
    · by_cases hnew : i = child
      · rw [hnew, h.ids.child c child hc]
        simp
      · rw [giveStack_of_ne hequal hnew] at hfinished
        exact hfinished
  · have hequal : i ≠ c := by
      rintro rfl
      rw [giveStack_creator] at hi
      cases hi
    have hnew : i ≠ child := by
      rintro rfl
      rw [hchild] at hi
      cases hi
    rw [giveStack_of_ne hequal hnew] at hi
    refine ⟨(h.recovered i hi).1, fun j hj => ?_⟩
    rw [sp_giveStack hnew] at hj
    exact (h.recovered i hi).2 j hj

end giveStack

/-- What giving back a stack does, on a slot that is found again. -/
theorem releaseStack_eq_ok (h : st.StackInv) (hc : (st.threads c).activity = .exiting) :
    ∃ k : Fin UserThreadMax, (st.threads c).sp = st.space.stackPointer k ∧
      st.releaseStack c = .ok ({ st with space := { st.space with
        threadStackPointer := Function.update st.space.threadStackPointer k false }
        }.moveTo c .finished) := by
  obtain ⟨hone, hrecovered⟩ := h.recovered c hc
  obtain ⟨k, hk⟩ := h.slot c ⟨hone, by rw [hc]; rfl⟩
  refine ⟨k, hk, ?_⟩
  rw [ThreadRun.releaseStack, hk, AddrSpace.removeThreadStackPointer_of_recovered (hrecovered k hk),
    Except.ok_bind]
  rfl

/-- The thread is gone, and its slot with it. -/
theorem releaseStack (h : st.StackInv) (hc : (st.threads c).activity = .exiting)
    (hok : st.releaseStack c = .ok st') : st'.StackInv := by
  have hids := h.ids.releaseStack hc hok
  obtain ⟨k, hk, hequal⟩ := h.releaseStack_eq_ok hc
  rw [hequal] at hok
  cases hok
  set st' := { st with space := { st.space with
    threadStackPointer := Function.update st.space.threadStackPointer k false }
    }.moveTo c .finished with hst'
  have hself : st'.threads c = { st.threads c with activity := .finished } :=
    Function.update_self _ _ _
  have hother {i : ℕ} (hi : i ≠ c) : st'.threads i = st.threads i := Function.update_of_ne hi _ _
  have hslots (j : Fin UserThreadMax) : st'.space.threadStackPointer j =
      if j = k then false else st.space.threadStackPointer j := Function.update_apply _ _ _ _
  have hzero : (0 : ℕ) ≠ c := by
    have hone := (h.recovered c hc).1
    omega
  have hleft {i : ℕ} (hi : (st'.threads i).activity.holdsStack) :
      i ≠ c ∧ (st.threads i).activity.holdsStack := by
    have hne : i ≠ c := by
      rintro rfl
      rw [hself] at hi
      cases hi
    rw [hother hne] at hi
    exact ⟨hne, hi⟩
  refine ⟨hids, ⟨fun j => ?_, fun i j hij hi hj => ?_⟩, fun i hi => ?_, ?_, ?_, fun i hi => ?_⟩
  · rw [hslots]
    constructor
    · intro hmarked
      by_cases hjk : j = k
      · rw [if_pos hjk] at hmarked
        cases hmarked
      · rw [if_neg hjk] at hmarked
        obtain ⟨i, hi, hpointer⟩ := (h.owned.marked_iff j).mp hmarked
        have hne : i ≠ c := by
          rintro rfl
          rw [hk] at hpointer
          exact hjk (st.space.stackPointer_injective hpointer).symm
        exact ⟨i, ⟨hi.1, by rw [hother hne]; exact hi.2⟩, by rw [hother hne]; exact hpointer⟩
    · rintro ⟨i, ⟨hone, hi⟩, hpointer⟩
      obtain ⟨hne, hbefore⟩ := hleft hi
      rw [hother hne] at hpointer
      rw [if_neg]
      · exact (h.owned.marked_iff j).mpr ⟨i, ⟨hone, hbefore⟩, hpointer⟩
      · rintro rfl
        exact h.owned.distinct i c hne hbefore (by rw [hc]; rfl) (hpointer.trans hk.symm)
  · obtain ⟨hic, hi⟩ := hleft hi
    obtain ⟨hjc, hj⟩ := hleft hj
    rw [hother hic, hother hjc]
    exact h.owned.distinct i j hij hi hj
  · obtain ⟨hne, hbefore⟩ := hleft hi.2
    rw [hother hne]
    exact h.slot i ⟨hi.1, hbefore⟩
  · rw [hother hzero]
    exact h.main
  · refine (Finset.card_le_card fun i hi => ?_).trans h.few
    obtain ⟨hrange, hfinished⟩ := mem_unfinished.mp hi
    refine mem_unfinished.mpr ⟨hrange, ?_⟩
    by_cases hequal : i = c
    · rw [hequal, hc]
      simp
    · rw [hother hequal] at hfinished
      exact hfinished
  · have hne : i ≠ c := by
      rintro rfl
      rw [hself] at hi
      cases hi
    rw [hother hne] at hi
    refine ⟨(h.recovered i hi).1, fun j hj => ?_⟩
    rw [hother hne] at hj
    exact (h.recovered i hi).2 j hj

/-- A step on the condition variables only. -/
theorem of_conditions (h : st.StackInv) (conditions : Fin UserThreadMax → Condition) :
    ({ st with space := { st.space with threadConditions := conditions } } : ThreadRun).StackInv :=
  h.of_same (h.ids.of_space _ rfl rfl) rfl rfl (fun _ => rfl) (fun _ _ => rfl) h.main.1 h.few
    fun _ hi => Or.inl hi

/-- The loop of a join. -/
theorem joinLoop (h : st.StackInv) (hlive : (st.threads c).activity.isLive)
    (hholds : (st.threads c).activity.holdsStack) {t : ℕ}
    (hlt : t ∈ st.space.threadIDs → t < UserThreadMax) (hok : st.joinLoop c t = .ok st') :
    st'.StackInv := by
  have hembryo : (st.threads c).activity ≠ .embryo := by
    intro hembryo
    rw [hembryo] at hholds
    cases hholds
  have hids := h.ids.joinLoop hlive hembryo hlt hok
  obtain ⟨space, hin, hsame, hequal⟩ | ⟨-, hequal⟩ := IdInv.joinLoop_cases st c hlt
  · rw [hequal] at hok
    cases hok
    apply h.setThread space hids hsame.numPages hsame.threadStackPointer
    · rfl
    · exact hholds.symm
    · intro _
      rfl
    · intro hfinished
      rw [hfinished] at hlive
      cases hlive
    · intro hexiting
      cases hexiting
  · rw [hequal] at hok
    cases hok
    exact h.resume hlive hholds 0

/-- **Safe sections keep the stacks in order.** -/
theorem step (h : st.StackInv) {call : ThreadCall} (hsafe : st.StackSafe call)
    (hstep : st.Step call st') : st'.StackInv := by
  obtain ⟨hidsafe, hrest⟩ := hsafe
  obtain ⟨c, rfl, hc, hresult⟩ | ⟨c, child, rfl, hc, hresult⟩ | ⟨c, rfl, hc, hresult⟩ |
    ⟨c, rfl, hc, hresult⟩ | ⟨c, t, rfl, hc, hresult⟩ | ⟨c, t, conditions, rfl, hc, hlt, hresult⟩ :=
    exec_cases hstep
  · obtain ⟨-, hequal⟩ | ⟨hroom, hequal⟩ := h.ids.doUserThreadCreate_cases c
    · rw [hequal] at hresult
      cases hresult
      exact h.resume (by rw [hc]; rfl) (by rw [hc]; rfl) (-1)
    · rw [hequal] at hresult
      cases hresult
      exact h.accept hc hroom (hrest hroom)
  · obtain ⟨k, hfree, hequal⟩ | ⟨-, hequal⟩ := h.ids.takeStack_cases hc
    · rw [hequal] at hresult
      cases hresult
      exact h.giveStack hc hfree
    · rw [hequal] at hresult
      cases hresult
  · obtain ⟨space, hequal, hsame⟩ := h.ids.doUserThreadExit_eq_ok hc hidsafe
    rw [hequal] at hresult
    cases hresult
    apply h.setThread space (h.ids.moveTo_exiting hc hidsafe hsame) hsame.numPages
      hsame.threadStackPointer
    · rfl
    · show Activity.holdsStack .exiting = _
      rw [hc]
      rfl
    · intro hzero
      have hone := hrest.1
      omega
    · rw [hc]
      simp
    · intro _
      exact hrest
  · exact h.releaseStack hc hresult.symm
  · rcases h.ids.doUserThreadJoin_cases hidsafe with hequal | ⟨hin, hequal⟩
    · rw [hequal] at hresult
      cases hresult
      exact h.resume (by rw [hc]; rfl) (by rw [hc]; rfl) (-1)
    · rw [hequal] at hresult
      exact h.joinLoop (by rw [hc]; rfl) (by rw [hc]; rfl) hin hresult.symm
  · apply (h.of_conditions conditions).joinLoop
    · show (st.threads c).activity.isLive
      rw [hc]
      rfl
    · show (st.threads c).activity.holdsStack
      rw [hc]
      rfl
    · intro _
      exact hlt
    · exact hresult.symm

/-- A safe section ends, and clears no slot but that of its caller. -/
theorem slotKept (h : st.StackInv) {call : ThreadCall} (hsafe : st.StackSafe call) :
    st.SlotKept call := by
  intro result hexec
  obtain ⟨c, rfl, hc, hresult⟩ | ⟨c, child, rfl, hc, hresult⟩ | ⟨c, rfl, hc, hresult⟩ |
    ⟨c, rfl, hc, hresult⟩ | ⟨c, t, rfl, hc, hresult⟩ | ⟨c, t, conditions, rfl, hc, hlt, hresult⟩ :=
    exec_cases hexec
  · obtain ⟨-, hequal⟩ | ⟨-, hequal⟩ := h.ids.doUserThreadCreate_cases c
    · exact ⟨_, hresult.trans hequal, fun d hd => by cases hd⟩
    · exact ⟨_, hresult.trans hequal, fun d hd => by cases hd⟩
  · obtain ⟨k, -, hequal⟩ | ⟨hfull, -⟩ := h.ids.takeStack_cases hc
    · exact ⟨_, hresult.trans hequal, fun d hd => by cases hd⟩
    · obtain ⟨k, hfree⟩ := h.exists_free hc
      rw [hfull k] at hfree
      cases hfree
  · obtain ⟨st', hok⟩ := h.ids.inTable hsafe.1 rfl result hexec
    exact ⟨st', hok, fun d hd => by cases hd⟩
  · obtain ⟨k, hk, hequal⟩ := h.releaseStack_eq_ok hc
    refine ⟨_, hresult.trans hequal, fun d hd => ?_⟩
    cases hd
    exact ⟨k, hk, rfl⟩
  · obtain ⟨st', hok⟩ := h.ids.inTable hsafe.1 rfl result hexec
    exact ⟨st', hok, fun d hd => by cases hd⟩
  · obtain ⟨st', hok⟩ := h.ids.inTable hsafe.1 rfl result hexec
    exact ⟨st', hok, fun d hd => by cases hd⟩

end StackInv

/-- **Stacks are neither shared nor leaked.** In every run in which the creations leave
room for the threads on their way out and only threads on a slot that is found again
leave, the marked slots are the slots of the threads with a stack, and the next section
that keeps to this ends and clears no slot but that of its caller. -/
theorem stacks_owned {numPages : ℕ} (hpages : numPages ≤ NumPhysPages)
    (pageTable : List TranslationEntry) (pid : ℕ) {steps : List (Base.Step ThreadRun ThreadCall)}
    {st : ThreadRun}
    (hrun : Trace Step (start (AddrSpace.init numPages hpages pageTable pid)) steps st)
    (hsafe : ∀ x ∈ steps, x.before.StackSafe x.label) :
    st.StacksOwned ∧ ∀ call, st.StackSafe call → st.SlotKept call := by
  have hinv : st.StackInv := (hrun.invariant
    (fun _ hbefore hstep hcall => hbefore.step hcall hstep)
    (StackInv.start hpages pageTable pid) hsafe).1
  exact ⟨hinv.owned, fun call hcall => hinv.slotKept hcall⟩

/-- With 19 pages, the first slot is found again: a thread is created and leaves, twice. -/
theorem stacks_owned_twice : ∃ steps st,
    Trace Step (start (AddrSpace.init 19 (by decide) [] 0)) steps st ∧
      steps.map (fun x => x.label) = [.create 0, .takeStack 0, .exit 1, .releaseStack 1,
        .create 0, .takeStack 0, .exit 2, .releaseStack 2] ∧
      (∀ x ∈ steps, x.before.StackSafe x.label) ∧
      st.StacksOwned ∧ ∀ call, st.StackSafe call → st.SlotKept call := by
  set calls : List ThreadCall := [.create 0, .takeStack 0, .exit 1, .releaseStack 1,
    .create 0, .takeStack 0, .exit 2, .releaseStack 2] with hcalls
  set first := start (AddrSpace.init 19 (by decide) [] 0) with hfirst
  have hsome : (first.execAll calls).isSome := by decide +kernel
  obtain ⟨st, hst⟩ := Option.isSome_iff_exists.mp hsome
  have hrun := trace_of_execAll hst
  have hsafe : ∀ x ∈ first.stepsOf calls, x.before.StackSafe x.label := by decide +kernel
  exact ⟨_, st, hrun, by decide +kernel, hsafe, stacks_owned (by decide) [] 0 hrun hsafe⟩

/-- With 18 pages, the first slot is not found again: a thread is created and leaves, and
the slot stays marked. -/
theorem not_stacksOwned_after_exit : ¬ ∀ steps st,
    Trace Step (start (AddrSpace.init 18 (by decide) [] 0)) steps st → st.StacksOwned := by
  intro hclaim
  set calls : List ThreadCall := [.create 0, .takeStack 0, .exit 1, .releaseStack 1] with hcalls
  set first := start (AddrSpace.init 18 (by decide) [] 0) with hfirst
  have hend : (first.execAll calls).map (fun st => (st.space.threadStackPointer ⟨0, by decide⟩,
      st.created, (st.threads 1).activity)) = some (true, 1, .finished) := by
    decide +kernel
  obtain ⟨st, hst, hequal⟩ := Option.map_eq_some_iff.mp hend
  obtain ⟨hmarked, hcreated, hfinished⟩ : st.space.threadStackPointer ⟨0, by decide⟩ = true ∧
      st.created = 1 ∧ (st.threads 1).activity = .finished := by
    simpa using hequal
  have hrun := trace_of_execAll hst
  have hsafe : ∀ x ∈ first.stepsOf calls, x.before.IdSafe x.label := by decide +kernel
  have hinv := IdInv.of_trace hrun hsafe
  obtain ⟨i, ⟨hone, hholds⟩, -⟩ := ((hclaim _ st hrun).marked_iff _).mp hmarked
  -- The only thread that was created has finished.
  have hle : i ≤ st.created := by
    apply hinv.le_created
    intro hunborn
    rw [hunborn] at hholds
    cases hholds
  have hequal : i = 1 := by omega
  rw [hequal, hfinished] at hholds
  cases hholds

end ThreadRun

end Nachos
