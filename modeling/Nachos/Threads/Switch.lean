/-
# Context switches and user programs

There is one set of machine registers and one current page table. `Scheduler::Run` saves
them for the thread that leaves the CPU, if it runs in an address space, and restores them
for the thread that gets it; a thread that runs for the first time restores them in
`SetupThreadState`. Saving copies the current page table of the machine into the address
space, so it must be the table of that space at every point where a switch can happen.

Two routines put another table in the machine: `ReadAtVirtual`, while it copies a segment
of a new process, and `StartProcess`, between the assignment of the space and
`RestoreState`. The routines are therefore kept as lists of the calls they make, a thread
holds the calls it has still to make, and a switch is possible only in a call that enables
interrupts or waits. The machine registers a program or the kernel computes are arbitrary.
-/

import Nachos.Base.Trace
import Nachos.Machine.Translate

namespace Nachos

open Base

/-- A pointer to a page table with the number of its entries. A table is named by the address
space whose constructor allocated it. -/
structure TableRef (σ : Type) where
  pageTable : Option σ
  pageTableSize : ℕ
  deriving DecidableEq, Repr

/-- The calls of the routines that create and start user programs, as far as they concern
the page table of the machine and the saved state. -/
inductive Call (ι σ : Type)
  /-- Kernel code that touches neither: locks, the frame provider, `InterruptEnable`. -/
  | kernel
  /-- `OpenFile::ReadAt` on the executable, which waits for the disk. -/
  | readAt
  /-- `pageTable = new TranslationEntry[numPages]`. -/
  | newTable (s : σ)
  /-- The table of the machine is kept in `oldTable` and the one of the new space put there. -/
  | install (s : σ)
  /-- `machine->WriteMem`; the handler of an exception in it moves the program counter. -/
  | writeMem
  /-- `machine->pageTable = oldTable`. -/
  | reinstall
  /-- `currentThread->space = space`. -/
  | setSpace (s : σ)
  /-- `AddrSpace::InitRegisters`. -/
  | initRegisters
  /-- `currentThread->space->RestoreState ()`. -/
  | restoreState
  /-- `new Thread` with an address space, and `Thread::Fork` up to `ReadyToRun`. -/
  | fork (t : ι) (space : Option σ)
  deriving DecidableEq, Repr

variable {ι σ : Type}

/-- Interrupts are enabled in the call or the thread sleeps in it. `Machine::WriteMem` and
the assignments do neither. -/
def Call.switches : Call ι σ → Bool
  | .kernel | .readAt => true
  | _ => false

/-- `ReadAtVirtual`, when `ReadAt` returns `nbBytes`. -/
def readAtVirtual (s : σ) (nbBytes : ℕ) : List (Call ι σ) :=
  [.readAt, .install s] ++ List.replicate nbBytes .writeMem ++ [.reinstall]

/-- `AddrSpace::AddrSpace`. A segment of size zero is not read, and neither is one when the
frames do not suffice. -/
def newAddrSpace (s : σ) (code initData : Option ℕ) : List (Call ι σ) :=
  [.readAt, .newTable s, .kernel] ++ code.elim [] (readAtVirtual s) ++
    initData.elim [] (readAtVirtual s) ++ [.kernel]

/-- The routines a thread can begin. -/
inductive Routine (ι σ : Type)
  | startProcess (s : σ) (code initData : Option ℕ)
  | doUserProcessCreate (s : σ) (code initData : Option ℕ) (t : ι)
  | doUserThreadCreate (t : ι)
  | forkKernelThread (t : ι)
  deriving DecidableEq, Repr

/-- The calls of a routine begun by a thread with the given address space. -/
def Routine.calls (space : Option σ) : Routine ι σ → List (Call ι σ)
  | .startProcess s code initData =>
      .kernel :: newAddrSpace s code initData ++
        [.kernel, .setSpace s, .initRegisters, .restoreState]
  | .doUserProcessCreate s code initData t =>
      .kernel :: newAddrSpace s code initData ++ [.kernel, .fork t (some s), .kernel]
  | .doUserThreadCreate t => [.kernel, .fork t space, .kernel]
  | .forkKernelThread t => [.fork t none, .kernel]

/-- `StartUserProcess` and `StartUserThread`, after `SetupThreadState` enabled interrupts. -/
def startUser : List (Call ι σ) := [.kernel, .initRegisters, .restoreState]

/-! ## Tables in the machine -/

/-- A table that a thread with the given address space may have in the machine while other
threads can run: its own. -/
def OwnTable (pages : σ → ℕ) (space : Option σ) (table : TableRef σ) : Prop :=
  ∀ s, space = some s → table = ⟨some s, pages s⟩

/-- Making the listed calls from a state with the given table in the machine, the thread has
its own table in the machine wherever a switch can happen, and at the end. After a switch a
thread without address space finds any table. -/
def KeepsTable (pages : σ → ℕ) : List (Call ι σ) → Option σ → TableRef σ → TableRef σ → Prop
  | [], space, table, _ => OwnTable pages space table
  | .kernel :: rest, space, table, old | .readAt :: rest, space, table, old =>
      OwnTable pages space table ∧
        ∀ table', OwnTable pages space table' → KeepsTable pages rest space table' old
  | .install s :: rest, space, table, _ => KeepsTable pages rest space ⟨some s, pages s⟩ table
  | .reinstall :: rest, space, _, old => KeepsTable pages rest space old old
  | .setSpace s :: rest, _, table, old => KeepsTable pages rest (some s) table old
  | .restoreState :: rest, space, _, old =>
      ∀ s, space = some s → KeepsTable pages rest space ⟨some s, pages s⟩ old
  | _ :: rest, space, table, old => KeepsTable pages rest space table old

section Tables

variable {pages : σ → ℕ} {space : Option σ} {table old : TableRef σ} {rest : List (Call ι σ)}

/-- Where a switch can happen the thread has its own table, and it can continue from every
table that is its own. -/
theorem KeepsTable.of_switches {calls : List (Call ι σ)}
    (hkeeps : KeepsTable pages calls space table old)
    (hswitch : ∀ c ∈ calls.head?, c.switches = true) :
    OwnTable pages space table ∧
      ∀ table', OwnTable pages space table' → KeepsTable pages calls space table' old := by
  cases calls with
  | nil => exact ⟨hkeeps, fun _ hown => hown⟩
  | cons c rest =>
      have hc : c.switches = true := hswitch c rfl
      cases c with
      | kernel => exact ⟨hkeeps.1, fun _ hown => ⟨hown, hkeeps.2⟩⟩
      | readAt => exact ⟨hkeeps.1, fun _ hown => ⟨hown, hkeeps.2⟩⟩
      | _ => cases hc

/-- The `WriteMem` calls of `ReadAtVirtual` leave the tables as they are. -/
theorem keepsTable_replicate_writeMem (n : ℕ) :
    KeepsTable pages (List.replicate n .writeMem ++ rest) space table old ↔
      KeepsTable pages rest space table old := by
  induction n with
  | zero => exact Iff.rfl
  | succ n ih => exact ih

/-- `ReadAtVirtual` puts the table of the thread back before anything else can run. -/
theorem keepsTable_readAtVirtual (s : σ) (nbBytes : ℕ)
    (hrest : ∀ table old, OwnTable pages space table → KeepsTable pages rest space table old)
    (hown : OwnTable pages space table) :
    KeepsTable pages (readAtVirtual s nbBytes ++ rest) space table old := by
  refine ⟨hown, fun table' hown' => ?_⟩
  change KeepsTable pages (List.replicate nbBytes .writeMem ++ [.reinstall] ++ rest) space
    ⟨some s, pages s⟩ table'
  rw [List.append_assoc, keepsTable_replicate_writeMem]
  exact hrest table' table' hown'

/-- The same for a segment that may be absent. -/
theorem keepsTable_segment (s : σ) (segment : Option ℕ)
    (hrest : ∀ table old, OwnTable pages space table → KeepsTable pages rest space table old)
    (hown : OwnTable pages space table) :
    KeepsTable pages (segment.elim [] (readAtVirtual s) ++ rest) space table old := by
  cases segment with
  | none => exact hrest table old hown
  | some nbBytes => exact keepsTable_readAtVirtual s nbBytes hrest hown

/-- A thread keeps its own table through the constructor of another address space. -/
theorem keepsTable_newAddrSpace (s : σ) (code initData : Option ℕ)
    (hrest : ∀ table old, OwnTable pages space table → KeepsTable pages rest space table old)
    (hown : OwnTable pages space table) :
    KeepsTable pages (newAddrSpace s code initData ++ rest) space table old := by
  have hdata (table old : TableRef σ) (hown : OwnTable pages space table) :
      KeepsTable pages (initData.elim [] (readAtVirtual s) ++ (.kernel :: rest)) space table old :=
    keepsTable_segment s initData
      (fun _ old hown => ⟨hown, fun table' hown' => hrest table' old hown'⟩) hown
  have hcode (table old : TableRef σ) (hown : OwnTable pages space table) :
      KeepsTable pages (code.elim [] (readAtVirtual s) ++
        (initData.elim [] (readAtVirtual s) ++ (.kernel :: rest))) space table old :=
    keepsTable_segment s code hdata hown
  simp only [newAddrSpace, List.append_assoc, List.cons_append, List.nil_append]
  exact ⟨hown, fun _ hown₁ => ⟨hown₁, fun table' hown' => hcode table' old hown'⟩⟩

/-- `RestoreState` puts the table of the thread in the machine, whatever was there. -/
theorem keepsTable_initRegisters (space : Option σ) (table old : TableRef σ) :
    KeepsTable (ι := ι) pages [.initRegisters, .restoreState] space table old := by
  intro s hs s' hs'
  rw [hs] at hs'
  cases hs'
  rfl

/-- Every routine keeps the table of the thread that begins it. -/
theorem keepsTable_calls (routine : Routine ι σ) (hown : OwnTable pages space table) :
    KeepsTable pages (routine.calls space) space table old := by
  cases routine with
  | startProcess s code initData =>
      refine ⟨hown, fun _ hown => keepsTable_newAddrSpace s code initData ?_ hown⟩
      -- here the space of the thread changes, and `RestoreState` follows without a switch
      exact fun _ old hown => ⟨hown, fun table' _ => keepsTable_initRegisters (some s) table' old⟩
  | doUserProcessCreate s code initData t =>
      refine ⟨hown, fun _ hown => keepsTable_newAddrSpace s code initData ?_ hown⟩
      exact fun table old hown => ⟨hown, fun _ hown => ⟨hown, fun _ hown => hown⟩⟩
  | doUserThreadCreate t => exact ⟨hown, fun _ hown => ⟨hown, fun _ hown => hown⟩⟩
  | forkKernelThread t => exact ⟨hown, fun _ hown => hown⟩

/-- So does a thread that starts a user program. -/
theorem keepsTable_startUser (hown : OwnTable pages space table) :
    KeepsTable (ι := ι) pages startUser space table old := by
  exact ⟨hown, fun table' _ => keepsTable_initRegisters space table' old⟩

end Tables

/-! ## The machine -/

/-- A thread. -/
structure SwitchThread (ι σ : Type) where
  userRegisters : Registers
  space : Option σ
  created : Bool
  /-- It has run before, and continues after `SWITCH`. -/
  started : Bool
  /-- The calls that the routine it is in has still to make; none in a user program. -/
  calls : List (Call ι σ)
  /-- `oldTable` and `oldTableSize` of `ReadAtVirtual`. -/
  oldTable : TableRef σ

/-- A thread that does not exist yet. -/
def SwitchThread.noThread (registers : Registers) : SwitchThread ι σ :=
  ⟨registers, none, false, false, [], ⟨none, 0⟩⟩

/-- A thread that was forked. A thread with an address space starts a user program. -/
def SwitchThread.newThread (registers : Registers) (space : Option σ) : SwitchThread ι σ :=
  ⟨registers, space, true, false, if space.isSome then startUser else [], ⟨none, 0⟩⟩

/-- The machine, the threads and the address spaces with the tables they hold. -/
structure SwitchRun (ι σ : Type) where
  registers : Registers
  table : TableRef σ
  currentThread : ι
  threads : ι → SwitchThread ι σ
  /-- The page table and the number of pages of an address space, once it has one. -/
  spaces : σ → Option (TableRef σ)

/-- What happens next. -/
inductive SwitchAct (ι σ : Type)
  /-- The user program or kernel code of the current thread changes the registers. -/
  | compute (registers : Registers)
  /-- The current thread begins a routine. -/
  | begin (routine : Routine ι σ)
  /-- The current thread makes its next call; `registers` are what it leaves where it
  changes registers. -/
  | call (registers : Registers)
  /-- `Scheduler::Run`. -/
  | run (nextThread : ι)

namespace SwitchRun

variable [DecidableEq ι] [DecidableEq σ]

/-- The initial thread runs; the machine has no page table. -/
def start (main : ι) (registers : Registers) : SwitchRun ι σ where
  registers := registers
  table := ⟨none, 0⟩
  currentThread := main
  threads := Function.update (fun _ => .noThread registers) main
    { SwitchThread.noThread registers with created := true, started := true }
  spaces := fun _ => none

/-- The thread that has the CPU. -/
def current (st : SwitchRun ι σ) : SwitchThread ι σ := st.threads st.currentThread

/-- The thread that has the CPU is replaced. -/
def setCurrent (st : SwitchRun ι σ) (t : SwitchThread ι σ) : SwitchRun ι σ :=
  { st with threads := Function.update st.threads st.currentThread t }

/-- `Thread::SaveUserState` and `AddrSpace::SaveState`, if the thread has an address space. -/
def save (st : SwitchRun ι σ) : SwitchRun ι σ :=
  match st.current.space with
  | some s => { st.setCurrent { st.current with userRegisters := st.registers } with
      spaces := Function.update st.spaces s (some st.table) }
  | none => st

/-- `Thread::RestoreUserState` and `AddrSpace::RestoreState`, if the thread has an address
space. -/
def restore (st : SwitchRun ι σ) : SwitchRun ι σ :=
  match st.current.space with
  | some s => { st with
      registers := st.current.userRegisters, table := (st.spaces s).getD st.table }
  | none => st

/-- `SetupThreadState`. -/
def setupThreadState (st : SwitchRun ι σ) : SwitchRun ι σ :=
  (st.setCurrent { st.current with started := true }).restore

/-- `Scheduler::Run`. A thread that ran before continues behind `SWITCH`, a new one in
`SetupThreadState`. -/
def run (st : SwitchRun ι σ) (nextThread : ι) : SwitchRun ι σ :=
  let st := { st.save with currentThread := nextThread }
  if st.current.started then st.restore else st.setupThreadState

/-- One call of the current thread. Memory that is allocated is new, and a space that is
used has been allocated. -/
def call (pages : σ → ℕ) (st : SwitchRun ι σ) (registers : Registers) :
    Call ι σ → Option (SwitchRun ι σ)
  | .kernel | .readAt => some st
  | .newTable s =>
      if st.spaces s = none then
        some { st with spaces := Function.update st.spaces s (some ⟨some s, pages s⟩) }
      else none
  | .install s => (st.spaces s).map fun table =>
      { st.setCurrent { st.current with oldTable := st.table } with table }
  | .writeMem | .initRegisters => some { st with registers }
  | .reinstall => some { st with table := st.current.oldTable }
  | .setSpace s =>
      if st.spaces s ≠ none then some (st.setCurrent { st.current with space := some s })
      else none
  | .restoreState => st.current.space.bind fun s => (st.spaces s).map fun table =>
      { st with table }
  | .fork t space =>
      if (st.threads t).created = false ∧ (∀ s ∈ space, st.spaces s ≠ none) then
        some { st with threads := Function.update st.threads t (.newThread registers space) }
      else none

/-- One step. -/
def exec (pages : σ → ℕ) (st : SwitchRun ι σ) : SwitchAct ι σ → Option (SwitchRun ι σ)
  | .compute registers =>
      if ∀ c ∈ st.current.calls.head?, c = .kernel then some { st with registers } else none
  | .begin routine =>
      if st.current.calls = [] then
        some (st.setCurrent { st.current with calls := routine.calls st.current.space })
      else none
  | .call registers =>
      match st.current.calls with
      | [] => none
      | c :: rest => (st.setCurrent { st.current with calls := rest }).call pages registers c
  | .run nextThread =>
      if (∀ c ∈ st.current.calls.head?, c.switches = true) ∧
          (st.threads nextThread).created = true then
        some (st.run nextThread)
      else none

/-- Runs of the machine. -/
abbrev Run (pages : σ → ℕ) (st : SwitchRun ι σ)
    (steps : List (Step (SwitchRun ι σ) (SwitchAct ι σ))) (st' : SwitchRun ι σ) : Prop :=
  Trace (fun st act st' => exec pages st act = some st') st steps st'

section Threads

omit [DecidableEq σ] in
@[simp] theorem current_setCurrent (st : SwitchRun ι σ) (t : SwitchThread ι σ) :
    (st.setCurrent t).current = t := Function.update_self ..

omit [DecidableEq σ] in
@[simp] theorem setCurrent_setCurrent (st : SwitchRun ι σ) (t t' : SwitchThread ι σ) :
    (st.setCurrent t).setCurrent t' = st.setCurrent t' := by
  simp [setCurrent]

end Threads

/-- The thread keeps its own table when it continues with `table` in the machine. -/
def Continues (pages : σ → ℕ) (t : SwitchThread ι σ) (table : TableRef σ) : Prop :=
  KeepsTable pages t.calls t.space table t.oldTable

/-- The thread can be given the CPU. -/
def Resumable (pages : σ → ℕ) (t : SwitchThread ι σ) : Prop :=
  ∀ table, OwnTable pages t.space table → Continues pages t table

/-- **What holds throughout.** An address space holds the table its constructor allocated,
every thread that waits can be given the CPU, and the current thread has the table of its
space in the machine wherever it can lose the CPU. -/
structure Inv (pages : σ → ℕ) (st : SwitchRun ι σ) : Prop where
  created : st.current.created = true
  spaces_own : ∀ s table, st.spaces s = some table → table = ⟨some s, pages s⟩
  has_table : ∀ u s, (st.threads u).space = some s → st.spaces s ≠ none
  current_continues : Continues pages st.current st.table
  others_resumable : ∀ u, u ≠ st.currentThread → Resumable pages (st.threads u)

variable {pages : σ → ℕ} {st st' : SwitchRun ι σ}

omit [DecidableEq σ] in
theorem start_inv (main : ι) (registers : Registers) : Inv pages (start (σ := σ) main registers) where
  created := by simp [start, current]
  spaces_own := fun s table h => by cases h
  has_table := by
    intro u s hs
    by_cases hu : u = main <;> simp [start, hu, SwitchThread.noThread] at hs
  current_continues := by
    simp [start, current, Continues, KeepsTable, OwnTable, SwitchThread.noThread]
  others_resumable := by
    intro u hu table hown
    have hnone : (start (σ := σ) main registers).threads u = .noThread registers := by
      have hmain : u ≠ main := hu
      simp [start, hmain]
    rw [hnone] at hown ⊢
    exact hown

omit [DecidableEq σ] in
/-- The current thread, the registers and the table of the machine change. -/
theorem Inv.setCurrent (hinv : Inv pages st) {t : SwitchThread ι σ} {table : TableRef σ}
    (registers : Registers) (hcreated : t.created = true)
    (hspace : ∀ s, t.space = some s → st.spaces s ≠ none) (hcont : Continues pages t table) :
    Inv pages { st.setCurrent t with registers, table } where
  created := by simpa [current, SwitchRun.setCurrent] using hcreated
  spaces_own := hinv.spaces_own
  has_table := by
    intro u s hs
    by_cases hu : u = st.currentThread
    · subst hu
      exact hspace s (by simpa [SwitchRun.setCurrent] using hs)
    · exact hinv.has_table u s (by simpa [SwitchRun.setCurrent, hu] using hs)
  current_continues := by simpa [current, SwitchRun.setCurrent] using hcont
  others_resumable := by
    intro u hu
    have heq : (st.setCurrent t).threads u = st.threads u := Function.update_of_ne hu ..
    change Resumable pages ((st.setCurrent t).threads u)
    rw [heq]
    exact hinv.others_resumable u hu

omit [DecidableEq ι] in
/-- A new address space gets a table of its own. -/
theorem Inv.newTable (hinv : Inv pages st) {s : σ} :
    Inv pages { st with spaces := Function.update st.spaces s (some ⟨some s, pages s⟩) } where
  created := hinv.created
  spaces_own := by
    intro s' table h
    by_cases hs : s' = s
    · subst hs
      simpa [eq_comm] using h
    · exact hinv.spaces_own s' table (by simpa [hs] using h)
  has_table := by
    intro u s' hs'
    by_cases hs : s' = s
    · simp [hs]
    · simpa [hs] using hinv.has_table u s' hs'
  current_continues := hinv.current_continues
  others_resumable := hinv.others_resumable

omit [DecidableEq σ] in
/-- A thread is forked. -/
theorem Inv.fork (hinv : Inv pages st) {t : ι} {space : Option σ} (registers : Registers)
    (hnew : (st.threads t).created = false) (hspace : ∀ s ∈ space, st.spaces s ≠ none) :
    Inv pages { st with threads := Function.update st.threads t (.newThread registers space) } := by
  have hne : st.currentThread ≠ t := by
    intro heq
    have hcreated := hinv.created
    rw [current, heq, hnew] at hcreated
    cases hcreated
  have hcurrent : (Function.update st.threads t (.newThread registers space)) st.currentThread =
      st.current := Function.update_of_ne hne ..
  constructor
  · simpa only [current, hcurrent] using hinv.created
  · exact hinv.spaces_own
  · intro u s hs
    by_cases hu : u = t
    · subst hu
      exact hspace s (by simpa [SwitchThread.newThread] using hs)
    · exact hinv.has_table u s (by simpa [hu] using hs)
  · simpa only [current, hcurrent] using hinv.current_continues
  · intro u hu table hown
    by_cases hut : u = t
    · subst hut
      simp only [Function.update_self] at hown ⊢
      cases space with
      | none => exact hown
      | some s => exact keepsTable_startUser hown
    · simp only [Function.update_of_ne hut] at hown ⊢
      exact hinv.others_resumable u hu table hown

/-- One call of the current thread keeps the invariant. -/
theorem Inv.call (hinv : Inv pages st) {registers : Registers} {c : Call ι σ}
    {rest : List (Call ι σ)} (hcalls : st.current.calls = c :: rest)
    (h : (st.setCurrent { st.current with calls := rest }).call pages registers c = some st') :
    Inv pages st' := by
  have hcont : KeepsTable pages (c :: rest) st.current.space st.table st.current.oldTable :=
    hcalls ▸ hinv.current_continues
  have hspace : ∀ s, st.current.space = some s → st.spaces s ≠ none := hinv.has_table _
  -- what follows a call that only leaves the rest to be made
  have hpop (registers : Registers)
      (hrest : KeepsTable pages rest st.current.space st.table st.current.oldTable) :
      Inv pages { st.setCurrent { st.current with calls := rest } with registers } :=
    hinv.setCurrent registers hinv.created hspace hrest
  cases c with
  | kernel =>
      obtain rfl := Option.some.inj h
      exact hpop st.registers (hcont.2 _ hcont.1)
  | readAt =>
      obtain rfl := Option.some.inj h
      exact hpop st.registers (hcont.2 _ hcont.1)
  | newTable s =>
      simp only [SwitchRun.call] at h
      split at h
      · obtain rfl := Option.some.inj h
        exact (hpop st.registers hcont).newTable
      · cases h
  | install s =>
      obtain ⟨table, htable, rfl⟩ := Option.map_eq_some_iff.mp h
      obtain rfl := hinv.spaces_own s table htable
      simp only [current_setCurrent, setCurrent_setCurrent]
      exact hinv.setCurrent st.registers hinv.created hspace hcont
  | writeMem =>
      obtain rfl := Option.some.inj h
      exact hpop registers hcont
  | initRegisters =>
      obtain rfl := Option.some.inj h
      exact hpop registers hcont
  | reinstall =>
      obtain rfl := Option.some.inj h
      simp only [current_setCurrent]
      exact hinv.setCurrent st.registers hinv.created hspace hcont
  | setSpace s =>
      simp only [SwitchRun.call, current_setCurrent, setCurrent_setCurrent] at h
      split at h
      · next hs =>
          obtain rfl := Option.some.inj h
          refine hinv.setCurrent st.registers hinv.created ?_ hcont
          intro s' hs'
          obtain rfl := Option.some.inj hs'
          exact hs
      · cases h
  | restoreState =>
      simp only [SwitchRun.call, current_setCurrent] at h
      obtain ⟨s, hs, h⟩ := Option.bind_eq_some_iff.mp h
      obtain ⟨table, htable, rfl⟩ := Option.map_eq_some_iff.mp h
      obtain rfl := hinv.spaces_own s table htable
      exact hinv.setCurrent st.registers hinv.created hspace (hcont s hs)
  | fork t space =>
      simp only [SwitchRun.call] at h
      split at h
      · next hfork =>
          obtain rfl := Option.some.inj h
          exact (hpop st.registers hcont).fork registers hfork.1 hfork.2
      · cases h

/-! ## Switches -/

/-- A thread that leaves the CPU with its own table in the machine saves nothing else than
its registers. -/
theorem save_eq (hinv : Inv pages st) (hown : OwnTable pages st.current.space st.table) :
    st.save.spaces = st.spaces ∧ st.save.table = st.table ∧
      st.save.currentThread = st.currentThread ∧
      (∀ u, u ≠ st.currentThread → st.save.threads u = st.threads u) ∧
      ∃ userRegisters, st.save.current = { st.current with userRegisters } ∧
        ∀ s, st.current.space = some s → userRegisters = st.registers := by
  cases hspace : st.current.space with
  | none =>
      have hsave : st.save = st := by simp only [save, hspace]
      rw [hsave]
      exact ⟨rfl, rfl, rfl, fun _ _ => rfl, st.current.userRegisters, rfl, nofun⟩
  | some s =>
      have htable : st.table = ⟨some s, pages s⟩ := hown s hspace
      obtain ⟨table, hs⟩ := Option.ne_none_iff_exists'.mp (hinv.has_table _ s hspace)
      obtain rfl := hinv.spaces_own s table hs
      have hsave : st.save = st.setCurrent { st.current with userRegisters := st.registers } := by
        have hspaces : Function.update st.spaces s (some st.table) = st.spaces := by
          rw [htable, ← hs, Function.update_eq_self]
        simp only [save, hspace, hspaces]
        rfl
      rw [hsave]
      refine ⟨rfl, rfl, rfl, fun u hu => Function.update_of_ne hu .., st.registers, ?_,
        fun _ _ => rfl⟩
      exact current_setCurrent ..

omit [DecidableEq ι] [DecidableEq σ] in
/-- The registers and the table of a thread that gets the CPU. -/
theorem restore_eq (hhas : ∀ s, st.current.space = some s → st.spaces s = some ⟨some s, pages s⟩) :
    st.restore.threads = st.threads ∧ st.restore.spaces = st.spaces ∧
      st.restore.currentThread = st.currentThread ∧
      OwnTable pages st.current.space st.restore.table ∧
      ∀ s, st.current.space = some s → st.restore.registers = st.current.userRegisters := by
  cases hspace : st.current.space with
  | none =>
      have hrestore : st.restore = st := by simp only [restore, hspace]
      rw [hrestore]
      exact ⟨rfl, rfl, rfl, nofun, nofun⟩
  | some s =>
      have hrestore : st.restore = { st with
          registers := st.current.userRegisters, table := ⟨some s, pages s⟩ } := by
        simp only [restore, hspace, hhas s hspace]
        rfl
      rw [hrestore]
      refine ⟨rfl, rfl, rfl, ?_, fun _ _ => rfl⟩
      intro s' hs'
      obtain rfl := Option.some.inj hs'
      rfl

/-- What a switch changes in a thread does not concern the calls it has still to make. -/
structure SameCalls (t t' : SwitchThread ι σ) : Prop where
  space : t'.space = t.space
  created : t'.created = t.created
  calls : t'.calls = t.calls
  oldTable : t'.oldTable = t.oldTable

omit [DecidableEq ι] [DecidableEq σ] in
theorem SameCalls.resumable {t t' : SwitchThread ι σ} (hsame : SameCalls t t')
    (hres : Resumable pages t) : Resumable pages t' := by
  intro table hown
  rw [Continues, hsame.calls, hsame.space, hsame.oldTable]
  exact hres table (hsame.space ▸ hown)

/-- Saving leaves the calls of every thread. -/
theorem save_sameCalls (hinv : Inv pages st) (hown : OwnTable pages st.current.space st.table)
    (u : ι) : SameCalls (st.threads u) (st.save.threads u) := by
  obtain ⟨-, -, hcurrent, hothers, userRegisters, hsave, -⟩ := save_eq hinv hown
  by_cases hu : u = st.currentThread
  · have heq : st.save.threads u = { st.current with userRegisters } := by
      rw [hu, ← hcurrent]
      exact hsave
    rw [heq, hu]
    exact ⟨rfl, rfl, rfl, rfl⟩
  · rw [hothers u hu]
    exact ⟨rfl, rfl, rfl, rfl⟩

/-- What `Scheduler::Run` does: `t` has the CPU with its own table and the registers that
were saved for it. -/
structure Switched (pages : σ → ℕ) (st : SwitchRun ι σ) (t : ι) (st' : SwitchRun ι σ) : Prop where
  currentThread : st'.currentThread = t
  spaces : st'.spaces = st.spaces
  sameCalls : ∀ u, SameCalls (st.threads u) (st'.threads u)
  others : ∀ u, u ≠ t → st'.threads u = st.save.threads u
  table : OwnTable pages (st.threads t).space st'.table
  registers : ∀ s, (st.threads t).space = some s →
    st'.registers = (st.save.threads t).userRegisters

/-- Both ways to continue end with the same restoring of the state. -/
theorem switched_restore (hinv : Inv pages st) (hown : OwnTable pages st.current.space st.table)
    {t : ι} {x : SwitchRun ι σ} (hspaces : x.spaces = st.spaces) (hcurrent : x.currentThread = t)
    (hothers : ∀ u, u ≠ t → x.threads u = st.save.threads u)
    (hthread : SameCalls (st.threads t) (x.threads t))
    (hregisters : (x.threads t).userRegisters = (st.save.threads t).userRegisters) :
    Switched pages st t x.restore := by
  have hspace : x.current.space = (st.threads t).space := by
    rw [current, hcurrent]
    exact hthread.space
  have hhas : ∀ s, x.current.space = some s → x.spaces s = some ⟨some s, pages s⟩ := by
    intro s hs
    obtain ⟨table, hs'⟩ := Option.ne_none_iff_exists'.mp (hinv.has_table t s (hspace ▸ hs))
    rw [hspaces, hs', hinv.spaces_own s table hs']
  obtain ⟨hthreads, hsp, hct, htable, hreg⟩ := restore_eq hhas
  constructor
  · exact hct.trans hcurrent
  · exact hsp.trans hspaces
  · intro u
    rw [hthreads]
    by_cases hu : u = t
    · rw [hu]
      exact hthread
    · rw [hothers u hu]
      exact save_sameCalls hinv hown u
  · intro u hu
    rw [hthreads]
    exact hothers u hu
  · exact hspace ▸ htable
  · intro s hs
    rw [hreg s (hspace.trans hs), current, hcurrent, hregisters]

/-- **Spec of `Scheduler::Run`.** -/
theorem run_switched (hinv : Inv pages st) (hown : OwnTable pages st.current.space st.table)
    (t : ι) : Switched pages st t (st.run t) := by
  obtain ⟨hspaces, -⟩ := save_eq hinv hown
  have hsame := save_sameCalls hinv hown t
  simp only [run]
  split
  · exact switched_restore hinv hown hspaces rfl (fun _ _ => rfl) hsame rfl
  · refine switched_restore hinv hown hspaces rfl ?_ ?_ ?_
    · exact fun u hu => Function.update_of_ne hu ..
    · simp only [SwitchRun.setCurrent, current, Function.update_self]
      exact ⟨hsame.space, hsame.created, hsame.calls, hsame.oldTable⟩
    · simp only [SwitchRun.setCurrent, current, Function.update_self]

omit [DecidableEq ι] [DecidableEq σ] in
/-- A switch happens where the current thread has its own table in the machine. -/
theorem Inv.own_of_switches (hinv : Inv pages st)
    (hswitch : ∀ c ∈ st.current.calls.head?, c.switches = true) :
    OwnTable pages st.current.space st.table ∧ Resumable pages st.current :=
  hinv.current_continues.of_switches hswitch

/-- A switch keeps the invariant. -/
theorem Switched.inv (hinv : Inv pages st) {t : ι} (hres : Resumable pages st.current)
    (hcreated : (st.threads t).created = true) (hsw : Switched pages st t st') : Inv pages st' := by
  have hall (u : ι) : Resumable pages (st'.threads u) := by
    refine (hsw.sameCalls u).resumable ?_
    by_cases hu : u = st.currentThread
    · rw [hu]
      exact hres
    · exact hinv.others_resumable u hu
  constructor
  · rw [current, hsw.currentThread, (hsw.sameCalls t).created, hcreated]
  · rw [hsw.spaces]
    exact hinv.spaces_own
  · intro u s hs
    rw [hsw.spaces]
    exact hinv.has_table u s ((hsw.sameCalls u).space ▸ hs)
  · rw [current, hsw.currentThread]
    refine hall t st'.table ?_
    rw [(hsw.sameCalls t).space]
    exact hsw.table
  · exact fun u _ => hall u

/-! ## Steps and runs -/

/-- A switch is made with the table of the current thread in the machine. -/
theorem exec_run (hinv : Inv pages st) {t : ι} (h : exec pages st (.run t) = some st') :
    OwnTable pages st.current.space st.table ∧ Switched pages st t st' ∧ Inv pages st' := by
  simp only [exec] at h
  split at h
  · next hcan =>
      obtain rfl := Option.some.inj h
      obtain ⟨hown, hres⟩ := hinv.own_of_switches hcan.1
      have hsw := run_switched hinv hown t
      exact ⟨hown, hsw, hsw.inv hinv hres hcan.2⟩
  · cases h

/-- A step keeps the invariant. -/
theorem exec_inv (hinv : Inv pages st) {act : SwitchAct ι σ} (h : exec pages st act = some st') :
    Inv pages st' := by
  have hspace : ∀ s, st.current.space = some s → st.spaces s ≠ none := hinv.has_table _
  cases act with
  | compute registers =>
      simp only [exec] at h
      split at h
      · obtain rfl := Option.some.inj h
        exact ⟨hinv.created, hinv.spaces_own, hinv.has_table, hinv.current_continues,
          hinv.others_resumable⟩
      · cases h
  | begin routine =>
      simp only [exec] at h
      split at h
      · next hcalls =>
          obtain rfl := Option.some.inj h
          have hown := (hinv.own_of_switches (by simp [hcalls])).1
          exact hinv.setCurrent st.registers hinv.created hspace (keepsTable_calls routine hown)
      · cases h
  | call registers =>
      simp only [exec] at h
      split at h
      · cases h
      · next c rest hcalls => exact hinv.call hcalls h
  | run t => exact (exec_run hinv h).2.2

/-- **The invariant of runs.** -/
theorem Run.inv {main : ι} {registers : Registers}
    {steps : List (Step (SwitchRun ι σ) (SwitchAct ι σ))}
    (hrun : Run pages (start main registers) steps st) : Inv pages st :=
  (hrun.invariant_of_forall (fun _ hinv hstep => exec_inv hinv hstep)
    (start_inv main registers)).1

omit [DecidableEq σ] in
theorem setCurrent_threads_of_ne {u : ι} (hu : u ≠ st.currentThread) (t : SwitchThread ι σ) :
    (st.setCurrent t).threads u = st.threads u := Function.update_of_ne hu ..

/-- A call of the current thread does not change another thread. -/
theorem call_frame {registers : Registers} {c : Call ι σ} {u : ι} (hu : u ≠ st.currentThread)
    (hcreated : (st.threads u).created = true) (h : st.call pages registers c = some st') :
    st'.currentThread = st.currentThread ∧ st'.threads u = st.threads u := by
  cases c with
  | kernel | readAt | writeMem | initRegisters | reinstall =>
      obtain rfl := Option.some.inj h
      exact ⟨rfl, rfl⟩
  | newTable s =>
      simp only [SwitchRun.call] at h
      split at h
      · obtain rfl := Option.some.inj h
        exact ⟨rfl, rfl⟩
      · cases h
  | install s =>
      obtain ⟨table, -, rfl⟩ := Option.map_eq_some_iff.mp h
      exact ⟨rfl, setCurrent_threads_of_ne hu _⟩
  | setSpace s =>
      simp only [SwitchRun.call] at h
      split at h
      · obtain rfl := Option.some.inj h
        exact ⟨rfl, setCurrent_threads_of_ne hu _⟩
      · cases h
  | restoreState =>
      obtain ⟨s, -, h⟩ := Option.bind_eq_some_iff.mp h
      obtain ⟨table, -, rfl⟩ := Option.map_eq_some_iff.mp h
      exact ⟨rfl, rfl⟩
  | fork t space =>
      simp only [SwitchRun.call] at h
      split at h
      · next hfork =>
          obtain rfl := Option.some.inj h
          refine ⟨rfl, Function.update_of_ne ?_ ..⟩
          rintro rfl
          simp [hcreated] at hfork
      · cases h

/-- A thread that does not have the CPU is not changed. -/
theorem exec_frame (hinv : Inv pages st) {act : SwitchAct ι σ} {u : ι}
    (hu : u ≠ st.currentThread) (hcreated : (st.threads u).created = true) (hact : act ≠ .run u)
    (h : exec pages st act = some st') :
    u ≠ st'.currentThread ∧ st'.threads u = st.threads u := by
  cases act with
  | compute registers =>
      simp only [exec] at h
      split at h
      · obtain rfl := Option.some.inj h
        exact ⟨hu, rfl⟩
      · cases h
  | begin routine =>
      simp only [exec] at h
      split at h
      · obtain rfl := Option.some.inj h
        exact ⟨hu, setCurrent_threads_of_ne hu _⟩
      · cases h
  | call registers =>
      simp only [exec] at h
      split at h
      · cases h
      · next c rest hcalls =>
          have hsame := setCurrent_threads_of_ne hu { st.current with calls := rest }
          have hu' : u ≠ (st.setCurrent { st.current with calls := rest }).currentThread := hu
          obtain ⟨hcurrent, hthread⟩ := call_frame hu' (hsame.symm ▸ hcreated) h
          exact ⟨fun heq => hu (heq.trans hcurrent), hthread.trans hsame⟩
  | run t =>
      obtain ⟨hown, hsw, -⟩ := exec_run hinv h
      have hut : u ≠ t := fun heq => hact (heq ▸ rfl)
      refine ⟨fun heq => hut (heq.trans hsw.currentThread), ?_⟩
      obtain ⟨-, -, -, hothers, -⟩ := save_eq hinv hown
      rw [hsw.others u hut, hothers u hu]

/-- A thread is not changed until it gets the CPU again. -/
theorem Run.frame {u : ι} {steps : List (Step (SwitchRun ι σ) (SwitchAct ι σ))}
    (hrun : Run pages st steps st') (hinv : Inv pages st) (hu : u ≠ st.currentThread)
    (hcreated : (st.threads u).created = true) (hsteps : ∀ x ∈ steps, x.label ≠ .run u) :
    Inv pages st' ∧ u ≠ st'.currentThread ∧ st'.threads u = st.threads u := by
  refine (hrun.invariant (I := fun x => Inv pages x ∧ u ≠ x.currentThread ∧
    x.threads u = st.threads u) (C := fun x => x.label ≠ .run u) ?_ ⟨hinv, hu, rfl⟩ hsteps).1
  rintro x ⟨hinv, hu, hthread⟩ hstep hlabel
  obtain ⟨hu', hsame⟩ := exec_frame hinv hu (hthread ▸ hcreated) hlabel hstep
  exact ⟨exec_inv hinv hstep, hu', hsame.trans hthread⟩

/-- A user thread that leaves the CPU keeps the registers of the machine. -/
theorem exec_run_registers (hinv : Inv pages st) {t : ι} {s : σ}
    (hspace : st.current.space = some s) (h : exec pages st (.run t) = some st') :
    (st.save.threads st.currentThread).userRegisters = st.registers := by
  obtain ⟨hown, -, -⟩ := exec_run hinv h
  obtain ⟨-, -, hcurrent, -, userRegisters, hsave, hregs⟩ := save_eq hinv hown
  rw [current, hcurrent] at hsave
  rw [hsave]
  exact hregs s hspace

/-- **Switches are transparent.** In every state that can be reached: an address space holds
its own table; a switch is made with the table of the thread that leaves the CPU in the
machine, which is what `SaveState` stores; the thread that gets the CPU has its own table; and
a user thread that gets the CPU again, at once or after any number of steps in which it did
not have it, finds the registers it had when it was switched out. -/
theorem switches_transparent (pages : σ → ℕ) (main : ι) (registers : Registers)
    {steps : List (Step (SwitchRun ι σ) (SwitchAct ι σ))} {st : SwitchRun ι σ}
    (hrun : Run pages (start main registers) steps st) :
    (∀ s table, st.spaces s = some table → table = ⟨some s, pages s⟩) ∧
    (∀ t st₁, exec pages st (.run t) = some st₁ →
      (∀ s, st.current.space = some s → st.table = ⟨some s, pages s⟩) ∧
      (∀ s, (st.threads t).space = some s →
        st₁.currentThread = t ∧ st₁.table = ⟨some s, pages s⟩)) ∧
    (∀ u s, st.currentThread = u → (st.threads u).space = some s →
      (∀ st₁, exec pages st (.run u) = some st₁ →
        st₁.registers = st.registers ∧ st₁.table = ⟨some s, pages s⟩) ∧
      ∀ t st₁ away st₂ st₃, t ≠ u → exec pages st (.run t) = some st₁ →
        Run pages st₁ away st₂ → (∀ x ∈ away, x.label ≠ .run u) →
        exec pages st₂ (.run u) = some st₃ →
        st₃.registers = st.registers ∧ st₃.table = ⟨some s, pages s⟩) := by
  have hinv := hrun.inv
  refine ⟨hinv.spaces_own, fun t st₁ h₁ => ?_, fun u s hu hspace => ⟨fun st₁ h₁ => ?_, ?_⟩⟩
  · obtain ⟨hown, hsw, -⟩ := exec_run hinv h₁
    exact ⟨hown, fun s hs => ⟨hsw.currentThread, hsw.table s hs⟩⟩
  · subst hu
    obtain ⟨-, hsw, -⟩ := exec_run hinv h₁
    exact ⟨(hsw.registers s hspace).trans (exec_run_registers hinv hspace h₁), hsw.table s hspace⟩
  · intro t st₁ away st₂ st₃ ht h₁ haway hlabels h₃
    subst hu
    obtain ⟨hown, hsw, hinv₁⟩ := exec_run hinv h₁
    have hsame := hsw.sameCalls st.currentThread
    obtain ⟨hinv₂, hne, hthread⟩ := Run.frame haway hinv₁ (hsw.currentThread ▸ ht.symm)
      (hsame.created.trans hinv.created) hlabels
    obtain ⟨hown₂, hsw₃, -⟩ := exec_run hinv₂ h₃
    have hspace₂ : (st₂.threads st.currentThread).space = some s := by
      rw [hthread, hsame.space, hspace]
    refine ⟨?_, hsw₃.table s hspace₂⟩
    -- its registers were saved when it left and not touched since
    calc st₃.registers
        = (st₂.save.threads st.currentThread).userRegisters := hsw₃.registers s hspace₂
      _ = (st₁.threads st.currentThread).userRegisters := by
          obtain ⟨-, -, -, hothers, -⟩ := save_eq hinv₂ hown₂
          rw [hothers _ hne, hthread]
      _ = (st.save.threads st.currentThread).userRegisters := by rw [hsw.others _ ht.symm]
      _ = st.registers := exec_run_registers hinv hspace h₁

/-- The initial thread starts a program, creates a process and loses the CPU to it; the other
program changes the registers, and the first one finds its own again. -/
theorem switches_transparent_two :
    ∃ (steps away : List (Step (SwitchRun (Fin 2) (Fin 2)) (SwitchAct (Fin 2) (Fin 2))))
      (st st₁ st₂ st₃ : SwitchRun (Fin 2) (Fin 2)),
      Run (fun _ => 3) (start 0 fun _ => 0) steps st ∧
      exec (fun _ => 3) st (.run 1) = some st₁ ∧ Run (fun _ => 3) st₁ away st₂ ∧
      exec (fun _ => 3) st₂ (.run 0) = some st₃ ∧ st₂.registers ⟨0, by decide⟩ = 5 ∧
      st₂.table = ⟨some 1, 3⟩ ∧
      st₃.registers = st.registers ∧ st₃.table = ⟨some 0, 3⟩ := by
  let zero : Registers := fun _ => 0
  let before : List (SwitchAct (Fin 2) (Fin 2)) :=
    .begin (.startProcess 0 (some 1) none) :: List.replicate 13 (.call zero) ++
      .compute (fun _ => 7) :: .begin (.doUserProcessCreate 1 (some 2) none 1) ::
      List.replicate 12 (.call zero)
  let labels : List (SwitchAct (Fin 2) (Fin 2)) :=
    [.call zero, .call zero, .call zero, .compute fun _ => 5]
  have hall : ((execAll (exec fun _ => 3) (start 0 zero) before).bind fun st =>
      (exec (fun _ => 3) st (.run 1)).bind fun st₁ =>
      (execAll (exec fun _ => 3) st₁ labels).bind fun st₂ =>
      (exec (fun _ => 3) st₂ (.run 0)).map fun _ =>
        (st.currentThread, (st.threads 0).space, (stepsOf (exec fun _ => 3) st₁ labels).all
          (fun x => match x.label with | .run t => t != 0 | _ => true),
          st₂.registers ⟨0, by decide⟩, st₂.table)) =
      some (0, some 0, true, 5, ⟨some 1, 3⟩) := by decide +kernel
  obtain ⟨st, hst, hall⟩ := Option.bind_eq_some_iff.mp hall
  obtain ⟨st₁, hst₁, hall⟩ := Option.bind_eq_some_iff.mp hall
  obtain ⟨st₂, hst₂, hall⟩ := Option.bind_eq_some_iff.mp hall
  obtain ⟨st₃, hst₃, hall⟩ := Option.map_eq_some_iff.mp hall
  simp only [Prod.mk.injEq, List.all_eq_true] at hall
  obtain ⟨hcurrent, hspace, hlabels, hregs, htable⟩ := hall
  have hrun : Run (fun _ => 3) (start 0 zero) _ st := trace_of_execAll hst
  have haway : Run (fun _ => 3) st₁ _ st₂ := trace_of_execAll hst₂
  have hreturn := ((switches_transparent (fun _ => 3) 0 zero hrun).2.2 0 0 hcurrent hspace).2
    1 st₁ _ st₂ st₃ (by decide) hst₁ haway
    (fun x hx heq => by have := hlabels x hx; simp [heq] at this) hst₃
  exact ⟨_, _, st, st₁, st₂, st₃, hrun, hst₁, haway, hst₃, hregs, htable, hreturn⟩

end SwitchRun

end Nachos
