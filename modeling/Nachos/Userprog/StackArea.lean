/-
# The stack area and the threads in it

The constructor of an address space reserves `UserStackSize` bytes above the code and data
of the program. `UserThreadMax` was meant to be the number of thread stacks that fit there,
but `UserStackSize / UserThreadStackSize` expands to `1024 * 2 / PageSize * 3`: creation
admits 48 threads. The stacks are spaced well, in the area there is room for four of them
below that of the main thread, and the others lie in the program.
-/

import Nachos.Userprog.ThreadStacks

namespace Nachos

open Base

/-- `UserThreadStackSize`. -/
def UserThreadStackSize : ℕ := PageSize * 3

namespace AddrSpace

variable {space : AddrSpace}

/-- The stack pointer of the main thread, which `AddrSpace::InitRegisters` sets. -/
def mainStackPointer (space : AddrSpace) : ℤ := space.numPages * PageSize - 16

/-- The bytes below the stack pointer are in the area that is reserved for stacks. -/
def InStackArea (space : AddrSpace) (sp : ℤ) : Prop :=
  space.numPages * PageSize - UserStackSize ≤ sp - UserThreadStackSize ∧
    sp < space.numPages * PageSize

/-- The stacks of different slots do not overlap, nor does that of the main thread. -/
structure StacksApart (space : AddrSpace) : Prop where
  slots : ∀ j k : Fin UserThreadMax, j ≠ k →
    space.stackPointer j ≤ space.stackPointer k - UserThreadStackSize ∨
      space.stackPointer k ≤ space.stackPointer j - UserThreadStackSize
  main : ∀ k : Fin UserThreadMax,
    space.stackPointer k ≤ space.mainStackPointer - UserThreadStackSize

theorem userThreadStackSize_eq : UserThreadStackSize = 384 := rfl

theorem userStackSize_eq : UserStackSize = 2048 := rfl

/-- **Four stacks fit.** -/
theorem inStackArea_iff (space : AddrSpace) (k : Fin UserThreadMax) :
    space.InStackArea (space.stackPointer k) ↔ (k : ℕ) < 4 := by
  rw [InStackArea, stackPointer_eq, pageSize_eq, userThreadStackSize_eq, userStackSize_eq]
  push_cast
  omega

/-- No two slots are closer than a stack is large. -/
theorem stacksApart (space : AddrSpace) : space.StacksApart := by
  refine ⟨fun j k hne => ?_, fun k => ?_⟩
  · have hne' : (j : ℕ) ≠ k := fun h => hne (Fin.ext h)
    rw [stackPointer_eq, stackPointer_eq, userThreadStackSize_eq]
    push_cast
    omega
  · rw [stackPointer_eq, mainStackPointer, pageSize_eq, userThreadStackSize_eq]
    push_cast
    omega

/-- `GetThreadStackPointer` takes the first slot that is free. -/
theorem getThreadStackPointer_eq_ok {sp : ℤ} {space' : AddrSpace}
    (h : space.getThreadStackPointer = .ok (sp, space')) :
    ∃ k, space.threadStackPointer k = false ∧
      (∀ j < k, space.threadStackPointer j = true) ∧ sp = space.stackPointer k := by
  rw [getThreadStackPointer] at h
  split at h
  · rename_i k hfind
    cases h
    obtain ⟨hfree, i, hi, hk, hbefore⟩ := List.find?_eq_some_iff_getElem.mp hfind
    refine ⟨k, by simpa using hfree, fun j hj => ?_, rfl⟩
    rw [List.getElem_finRange] at hk
    have hlt : (j : ℕ) < i := by
      rw [← hk] at hj
      exact hj
    have htaken := hbefore j hlt
    simpa using htaken
  · cases h

/-- One of the slots whose stack is in the area is free. -/
def HasRoom (space : AddrSpace) : Prop :=
  ∃ k : Fin UserThreadMax, (k : ℕ) < 4 ∧ space.threadStackPointer k = false

instance (space : AddrSpace) : Decidable space.HasRoom :=
  inferInstanceAs (Decidable (∃ _ : Fin UserThreadMax, _ ∧ _))

/-- **When the stack that is given out is in the area.** -/
theorem inStackArea_iff_hasRoom {sp : ℤ} {space' : AddrSpace}
    (h : space.getThreadStackPointer = .ok (sp, space')) :
    space.InStackArea sp ↔ space.HasRoom := by
  obtain ⟨k, hfree, hbefore, rfl⟩ := getThreadStackPointer_eq_ok h
  rw [inStackArea_iff]
  constructor
  · intro hk
    exact ⟨k, hk, hfree⟩
  · rintro ⟨j, hj, hfree'⟩
    have hle : k ≤ j := by
      by_contra hlt
      rw [hbefore j (not_le.mp hlt)] at hfree'
      cases hfree'
    exact lt_of_le_of_lt hle hj

end AddrSpace

namespace ThreadRun

/-- If the step gives a stack to a new thread, the stack is in the area. -/
def GivesStackInArea (x : Base.Step ThreadRun ThreadCall) : Prop :=
  ∀ c, x.label = .takeStack c → ∀ sp space,
    x.before.space.getThreadStackPointer = .ok (sp, space) → x.before.space.InStackArea sp

/-- If the step gives a stack to a new thread, there is room for it in the area. -/
def FindsRoom (x : Base.Step ThreadRun ThreadCall) : Prop :=
  ∀ c, x.label = .takeStack c → x.before.space.HasRoom

/-- A section that gives a stack gets its stack pointer. -/
theorem getThreadStackPointer_of_step {st st' : ThreadRun} {c : ℕ}
    (hstep : st.Step (.takeStack c) st') :
    ∃ sp space, st.space.getThreadStackPointer = .ok (sp, space) := by
  simp only [Step, exec] at hstep
  split at hstep
  · rename_i child hc
    obtain ⟨⟨sp, space⟩, hget, -⟩ := Except.bind_eq_ok.mp (Option.some.inj hstep)
    exact ⟨sp, space, hget⟩
  · cases hstep

/-- **The stacks of the threads are in the stack area** in exactly the runs in which each
new thread finds one of the first four slots free; in all runs they are apart. -/
theorem stacksInArea_iff {numPages : ℕ} (hpages : numPages ≤ NumPhysPages)
    (pageTable : List TranslationEntry) (pid : ℕ) {steps : List (Base.Step ThreadRun ThreadCall)}
    {st : ThreadRun}
    (hrun : Trace Step (start (AddrSpace.init numPages hpages pageTable pid)) steps st) :
    ((∀ x ∈ steps, GivesStackInArea x) ∧ st.space.StacksApart) ↔ ∀ x ∈ steps, FindsRoom x := by
  rw [and_iff_left st.space.stacksApart]
  refine forall₂_congr fun x hx => ?_
  have hstep := hrun.rel_of_mem x hx
  constructor
  · intro hgives c hlabel
    rw [hlabel] at hstep
    obtain ⟨sp, space, hget⟩ := getThreadStackPointer_of_step hstep
    exact (AddrSpace.inStackArea_iff_hasRoom hget).mp (hgives c hlabel sp space hget)
  · intro hroom c hlabel sp space hget
    exact (AddrSpace.inStackArea_iff_hasRoom hget).mpr (hroom c hlabel)

/-- The sections of the main thread that create `n` threads. -/
def creations : ℕ → List ThreadCall
  | 0 => []
  | n + 1 => .create 0 :: .takeStack 0 :: creations n

/-- Four threads are created in an address space of 20 pages. -/
theorem stacksInArea_four : ∃ steps st,
    Trace Step (start (AddrSpace.init 20 (by decide) [] 0)) steps st ∧
      steps.map (fun x => x.label) = creations 4 ∧
      (∀ x ∈ steps, GivesStackInArea x) ∧ st.space.StacksApart := by
  set first := start (AddrSpace.init 20 (by decide) [] 0) with hfirst
  have hsome : (first.execAll (creations 4)).isSome := by decide +kernel
  obtain ⟨st, hst⟩ := Option.isSome_iff_exists.mp hsome
  have hrun := trace_of_execAll hst
  have hroom : ∀ x ∈ first.stepsOf (creations 4), x.before.space.HasRoom := by decide +kernel
  exact ⟨_, st, hrun, by decide +kernel,
    (stacksInArea_iff (by decide) [] 0 hrun).mpr fun x hx _ _ => hroom x hx⟩

/-- The stack of a fifth thread lies in the program. -/
theorem not_stacksInArea_five : ¬ ∀ steps st,
    Trace Step (start (AddrSpace.init 20 (by decide) [] 0)) steps st →
      ∀ x ∈ steps, GivesStackInArea x := by
  intro hclaim
  set first := start (AddrSpace.init 20 (by decide) [] 0) with hfirst
  have hsome : (first.execAll (creations 5)).isSome := by decide +kernel
  obtain ⟨st, hst⟩ := Option.isSome_iff_exists.mp hsome
  have hrun := trace_of_execAll hst
  have hlast : ∃ x ∈ first.stepsOf (creations 5), x.label = .takeStack 0 ∧
      ¬ x.before.space.HasRoom := by
    decide +kernel
  obtain ⟨x, hx, hlabel, hroom⟩ := hlast
  have hstep := hrun.rel_of_mem x hx
  rw [hlabel] at hstep
  obtain ⟨sp, space, hget⟩ := getThreadStackPointer_of_step hstep
  exact hroom ((AddrSpace.inStackArea_iff_hasRoom hget).mp
    (hclaim _ st hrun x hx 0 hlabel sp space hget))

end ThreadRun

end Nachos
