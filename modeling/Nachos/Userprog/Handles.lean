/-
# System calls on handles

The cases of `ExceptionHandler` for which `r4` is an index into a table of the kernel:
`UserSemaphores`, the tables `ProcessLocks`, `pids` and `ProcessConds` that go by pid, and the
table of open files. What a program leaves in `r4` is any word. Each case makes its own
checks, and they are not the same.

A call that goes to sleep has not returned; the sections under `ProcessLocks[pid]` are
atomic.
-/

import Mathlib.Data.List.FinRange
import Nachos.Threads.Semaphore
import Nachos.Userprog.AddrSpace
import Nachos.Userprog.Exception

namespace Nachos

open Base Synch

/-- The index `i` into an array of `n` elements. -/
def index (n : ℕ) (i : ℤ) : Except Fault (Fin n) :=
  if h : 0 ≤ i ∧ i.toNat < n then .ok ⟨i.toNat, h.2⟩ else .error .bounds

/-- An index that is in bounds. -/
theorem index_of_lt {n : ℕ} {i : ℤ} (h₀ : 0 ≤ i) (h : i < n) :
    ∃ k : Fin n, index n i = .ok k ∧ i = k := by
  have hin : 0 ≤ i ∧ i.toNat < n := ⟨h₀, by omega⟩
  exact ⟨⟨i.toNat, hin.2⟩, by rw [index, dif_pos hin], (Int.toNat_of_nonneg h₀).symm⟩

theorem index_of_not_lt {n : ℕ} {i : ℤ} (h : ¬ (0 ≤ i ∧ i < n)) : index n i = .error .bounds := by
  rw [index, dif_neg]
  rintro ⟨h₀, hlt⟩
  exact h ⟨h₀, by omega⟩

/-- `UserSemaphores`; `none` is a `NULL` entry. -/
abbrev SemaphoreTable (ι : Type) := Fin 64 → Option (Semaphore ι)

namespace SemaphoreTable

variable {ι : Type}

/-- The loop of `case SC_SemCreate`: the first entry that is free gets a semaphore. -/
def create (table : SemaphoreTable ι) (val : ℤ) : ℤ × SemaphoreTable ι :=
  match (List.finRange 64).find? fun i => (table i).isNone with
  | some i => (i, Function.update table i (some (Semaphore.new val)))
  | none => (-1, table)

/-- The test of `SC_SemPost` and `SC_SemWait`, with the entry if there is a semaphore. -/
def lookup (table : SemaphoreTable ι) (sid : ℤ) : Except Fault (Option (Fin 64 × Semaphore ι)) := do
  if sid < 0 ∨ sid > 64 then return none
  let i ← index 64 sid
  return (table i).map fun sem => (i, sem)

/-- The entry that `SC_SemCreate` takes. -/
theorem create_cases (table : SemaphoreTable ι) (val : ℤ) :
    ((∀ i, (table i).isSome) ∧ table.create val = (-1, table)) ∨
      ∃ i, table i = none ∧
        table.create val = ((i : ℤ), Function.update table i (some (Semaphore.new val))) := by
  rw [create]
  cases hfind : (List.finRange 64).find? fun i => (table i).isNone with
  | none =>
      refine .inl ⟨fun i => ?_, rfl⟩
      have hi := List.find?_eq_none.mp hfind i (List.mem_finRange i)
      rw [Option.isNone_iff_eq_none] at hi
      exact Option.isSome_iff_ne_none.mpr hi
  | some i =>
      have hi := List.find?_some hfind
      exact .inr ⟨i, Option.isNone_iff_eq_none.mp hi, rfl⟩

/-- The test of `SC_SemPost` and `SC_SemWait` is right for every value but one. -/
theorem lookup_of_ne (table : SemaphoreTable ι) {sid : ℤ} (h : sid ≠ 64) :
    (table.lookup sid = .ok none ∧ ¬ ∃ i : Fin 64, sid = i ∧ (table i).isSome) ∨
      ∃ i sem, table.lookup sid = .ok (some (i, sem)) ∧ sid = i ∧ table i = some sem := by
  by_cases hrange : sid < 0 ∨ sid > 64
  · refine .inl ⟨by rw [lookup, if_pos hrange]; rfl, ?_⟩
    rintro ⟨i, rfl, -⟩
    have hlt := i.isLt
    omega
  · obtain ⟨i, hindex, hi⟩ := index_of_lt (n := 64) (i := sid) (by omega) (by omega)
    rw [lookup, if_neg hrange, hindex]
    cases hentry : table i with
    | none =>
        refine .inl ⟨by simp only [Except.ok_bind, hentry]; rfl, ?_⟩
        rintro ⟨j, hj, hsome⟩
        obtain rfl : i = j := Fin.ext (by omega)
        rw [hentry] at hsome
        cases hsome
    | some sem => exact .inr ⟨i, sem, by simp only [Except.ok_bind, hentry]; rfl, hi, hentry⟩

/-- The entry of a handle that is an index. -/
theorem lookup_fin (table : SemaphoreTable ι) {handle : ℤ} {sid : Fin 64} (h : handle = sid) :
    table.lookup handle = .ok ((table sid).map fun sem => (sid, sem)) := by
  have hlt := sid.isLt
  obtain ⟨hlookup, hnone⟩ | ⟨i, sem, hlookup, hi, hsem⟩ :=
    table.lookup_of_ne (show handle ≠ 64 by omega)
  · have hfree : table sid = none := by
      by_contra hsome
      exact hnone ⟨sid, h, Option.isSome_iff_ne_none.mpr hsome⟩
    rw [hlookup, hfree]
    rfl
  · obtain rfl : i = sid := Fin.ext (by omega)
    rw [hlookup, hsem]
    rfl

theorem lookup_64 (table : SemaphoreTable ι) : table.lookup 64 = .error .bounds := rfl

end SemaphoreTable

/-- The machine with the tables that handles go to. -/
structure KernelState (ι : Type) extends SystemState where
  /-- `currentThread`. -/
  current : ι
  /-- `currentThread->space->pid`. -/
  pid : ℕ
  userSemaphores : SemaphoreTable ι
  pids : Fin 64 → Bool
  processConds : Fin 64 → Condition

/-- The system calls whose first argument is checked or used as a handle, and `SC_SemCreate`. -/
inductive HandleSyscall
  | semCreate
  | semPost
  | semWait
  | semDelete
  | waitPid
  | close
  deriving DecidableEq, Repr

namespace KernelState

variable {ι : Type}

/-- The handle that the program has put into `r4`, as an `int`. -/
def handle (st : KernelState ι) : ℤ := st.toSystemState.arg1.toInt

/-- `machine->WriteRegister(2, res)`. -/
def writeResult (st : KernelState ι) (res : ℤ) : KernelState ι :=
  { st with toSystemState := st.toSystemState.putResult res }

/-- The word in `r2`. -/
def result (st : KernelState ι) : BitVec 32 := st.machine.readRegister (reg 2)

/-- `case SC_SemCreate`. -/
def semCreateCase (st : KernelState ι) : KernelState ι :=
  let (res, userSemaphores) := st.userSemaphores.create st.handle
  { st with userSemaphores := userSemaphores }.writeResult res

/-- `case SC_SemPost`. -/
def semPostCase (st : KernelState ι) : Except Fault (KernelState ι) := do
  match ← st.userSemaphores.lookup st.handle with
  | none => return st.writeResult (-1)
  | some (i, sem) =>
      let st := { st with
        userSemaphores := Function.update st.userSemaphores i (some sem.V.1) }
      return st.writeResult 1

/-- `case SC_SemWait`, until it returns or sleeps. -/
def semWaitCase (st : KernelState ι) : Except Fault (KernelState ι × Bool) := do
  match ← st.userSemaphores.lookup st.handle with
  | none => return (st.writeResult (-1), true)
  | some (i, sem) =>
      let (sem, passed) := sem.tryP st.current
      let st := { st with userSemaphores := Function.update st.userSemaphores i (some sem) }
      return (if passed then st.writeResult 1 else st, passed)

/-- `case SC_SemDelete`. The index is used unchecked. -/
def semDeleteCase (st : KernelState ι) : Except Fault (KernelState ι) := do
  let i ← index 64 st.handle
  return { st with userSemaphores := Function.update st.userSemaphores i none }

/-- A pass of the loop of `do_WaitPid`, with whether the loop was left. -/
def waitPidLoop (st : KernelState ι) (pid : ℤ) : Except Fault (KernelState ι × Bool) := do
  let k ← index 64 pid
  if st.pids k then
    return ({ st with
      processConds := Function.update st.processConds k (st.processConds k).wait }, false)
  else return (st, true)

/-- `do_WaitPid`, until it returns or sleeps. -/
def doWaitPid (st : KernelState ι) (pid : ℤ) : Except Fault (KernelState ι × Bool) :=
  if pid = st.pid then .ok (st, true) else st.waitPidLoop pid

/-- `case SC_WaitPid`. After the error result the case goes on. -/
def waitPidCase (st : KernelState ι) : Except Fault (KernelState ι × Bool) := do
  let a := st.handle
  let st := if a > 64 ∨ a < 0 ∨ a = st.pid then st.writeResult (-1) else st
  let (st, returned) ← st.doWaitPid a
  return (if returned then st.writeResult 1 else st, returned)

/-- `case SC_Close`. -/
def closeCase (uninit : Uninit) (st : KernelState ι) : Except Fault (KernelState ι) := do
  let s ← (st.toSystemState.closeCase uninit).result
  return { st with toSystemState := s }

/-- The body of a case, with whether it has come to its `break`. -/
def body (uninit : Uninit) (call : HandleSyscall) (st : KernelState ι) :
    Except Fault (KernelState ι × Bool) :=
  match call with
  | .semCreate => .ok (st.semCreateCase, true)
  | .semPost => return (← st.semPostCase, true)
  | .semWait => st.semWaitCase
  | .semDelete => return (← st.semDeleteCase, true)
  | .waitPid => st.waitPidCase
  | .close => return (← st.closeCase uninit, true)

/-- `ExceptionHandler` on one of these calls. -/
def exceptionHandler (uninit : Uninit) (call : HandleSyscall) (st : KernelState ι) :
    Except Fault (KernelState ι × Bool) := do
  let (st, returned) ← st.body uninit call
  return (if returned then { st with machine := st.machine.updatePC } else st, returned)

/-! ## What a call should do -/

/-- The handle is a semaphore that exists, a pid of the table other than the caller's, or the
id of an open file. -/
def ValidHandle (st : KernelState ι) : HandleSyscall → Prop
  | .semCreate => True
  | .semPost | .semWait | .semDelete =>
      ∃ i : Fin 64, st.handle = i ∧ (st.userSemaphores i).isSome
  | .waitPid => 0 ≤ st.handle ∧ st.handle < 64 ∧ st.handle ≠ st.pid
  | .close => (st.fs.fileTable.get st.handle).isSome

/-- None of the tables has changed. -/
def SameTables (st st' : KernelState ι) : Prop :=
  st'.userSemaphores = st.userSemaphores ∧ st'.pids = st.pids ∧
    st'.processConds = st.processConds ∧ st'.fs.fileTable = st.fs.fileTable

/-- The call stays inside the tables. A handle that is not valid changes no table and, where
the call has a result, leaves `-1`; a semaphore that is installed has no negative value. -/
def Validated (uninit : Uninit) (call : HandleSyscall) (st : KernelState ι) : Prop :=
  ∃ st' returned, st.exceptionHandler uninit call = .ok (st', returned) ∧
    -- a sleeper of `do_WaitPid` uses the pid again
    (call = .waitPid → returned = false →
      ∀ later : KernelState ι, ∃ res, later.waitPidLoop st.handle = .ok res) ∧
    (¬ st.ValidHandle call → st.SameTables st' ∧
      (call ∈ [.semPost, .semWait, .waitPid] → returned = true ∧ st'.result = -1)) ∧
    (call = .semCreate → ∀ i sem, st.userSemaphores i = none →
      st'.userSemaphores i = some sem → 0 ≤ sem.value)

/-- When a call does what it should. -/
def HandleSafe (st : KernelState ι) : HandleSyscall → Prop
  | .semPost | .semWait => st.handle ≠ 64
  | .semDelete => 0 ≤ st.handle ∧ st.handle < 64
  | .waitPid => 0 ≤ st.handle ∧ st.handle < 64 ∧ st.handle ≠ st.pid
  | .close => 0 ≤ st.handle ∧ st.handle < NbFileTableEntries
  | .semCreate => 0 ≤ st.handle ∨ ∀ i, (st.userSemaphores i).isSome

/-! ## The checks of the cases -/

theorem result_writeResult (st : KernelState ι) (res : ℤ) :
    (st.writeResult res).result = BitVec.ofInt 32 res :=
  Machine.registers_writeRegister_self _ _ _

theorem result_updatePC (m : Machine) : m.updatePC.readRegister (reg 2) = m.readRegister (reg 2) := by
  rw [Machine.updatePC, Machine.readRegister, Machine.registers_writeRegister_of_ne _ _ (by decide),
    Machine.registers_writeRegister_of_ne _ _ (by decide),
    Machine.registers_writeRegister_of_ne _ _ (by decide)]
  rfl

/-- Moving the program counter on changes neither the tables nor the result. -/
theorem exceptionHandler_of_body {uninit : Uninit} {call : HandleSyscall} {st st₁ : KernelState ι}
    {returned : Bool} (h : st.body uninit call = .ok (st₁, returned)) :
    ∃ st', st.exceptionHandler uninit call = .ok (st', returned) ∧ st₁.SameTables st' ∧
      st'.result = st₁.result := by
  rw [exceptionHandler, h]
  cases returned with
  | true => exact ⟨_, rfl, ⟨rfl, rfl, rfl, rfl⟩, result_updatePC st₁.machine⟩
  | false => exact ⟨_, rfl, ⟨rfl, rfl, rfl, rfl⟩, rfl⟩

/-- A call that leaves the tables must fault or be in bounds. -/
theorem Validated.body_ok {uninit : Uninit} {call : HandleSyscall} {st : KernelState ι}
    (h : st.Validated uninit call) : ∃ st₁ returned, st.body uninit call = .ok (st₁, returned) := by
  obtain ⟨st', returned, hhandler, -⟩ := h
  rw [exceptionHandler] at hhandler
  obtain ⟨⟨st₁, returned₁⟩, hbody, -⟩ := Except.bind_eq_ok.mp hhandler
  exact ⟨st₁, returned₁, hbody⟩

section Cases

variable {uninit : Uninit} {st : KernelState ι}

/-- A call with a handle that is not valid, which is refused. -/
theorem validated_of_refused {call : HandleSyscall} (hcall : call ≠ .semCreate)
    (hbody : st.body uninit call = .ok (st.writeResult (-1), true)) : st.Validated uninit call := by
  obtain ⟨st', hhandler, htables, hresult⟩ := exceptionHandler_of_body hbody
  refine ⟨st', true, hhandler, fun _ => nofun, fun _ => ⟨htables, fun _ => ⟨rfl, ?_⟩⟩,
    fun heq => absurd heq hcall⟩
  rw [hresult, result_writeResult]
  rfl

/-- A call that changes no table and has no result. -/
theorem validated_of_sameTables {call : HandleSyscall} (hcall : call = .semDelete ∨ call = .close)
    {st₁ : KernelState ι} (hbody : st.body uninit call = .ok (st₁, true))
    (hsame : ¬ st.ValidHandle call → st.SameTables st₁) : st.Validated uninit call := by
  obtain ⟨st', hhandler, htables, -⟩ := exceptionHandler_of_body hbody
  refine ⟨st', true, hhandler, fun _ => nofun, fun hnot => ⟨?_, fun hresult => ?_⟩, ?_⟩
  · obtain ⟨h₁, h₂, h₃, h₄⟩ := hsame hnot
    obtain ⟨h₁', h₂', h₃', h₄'⟩ := htables
    exact ⟨h₁'.trans h₁, h₂'.trans h₂, h₃'.trans h₃, h₄'.trans h₄⟩
  · rcases hcall with rfl | rfl <;> exact absurd hresult (by decide)
  · rintro rfl
    exact absurd hcall (by decide)

/-- A call on a valid handle has only to stay in bounds. -/
theorem validated_of_valid {call : HandleSyscall} (hcall : call ≠ .semCreate)
    (hvalid : st.ValidHandle call) (hbody : ∃ res, st.body uninit call = .ok res)
    (hloop : call = .waitPid →
      ∀ later : KernelState ι, ∃ res, later.waitPidLoop st.handle = .ok res) :
    st.Validated uninit call := by
  obtain ⟨⟨st₁, returned⟩, hbody⟩ := hbody
  obtain ⟨st', hhandler, -, -⟩ := exceptionHandler_of_body hbody
  exact ⟨st', returned, hhandler, fun heq _ => hloop heq, fun hnot => absurd hvalid hnot,
    fun heq => absurd heq hcall⟩

theorem validated_semPost : st.Validated uninit .semPost ↔ st.handle ≠ 64 := by
  constructor
  · intro h heq
    obtain ⟨st₁, returned, hbody⟩ := h.body_ok
    rw [body, semPostCase, heq, SemaphoreTable.lookup_64] at hbody
    cases hbody
  · intro h
    obtain ⟨hlookup, -⟩ | ⟨i, sem, hlookup, hi, hsem⟩ := SemaphoreTable.lookup_of_ne st.userSemaphores h
    · refine validated_of_refused (by decide) ?_
      rw [body, semPostCase, hlookup]
      rfl
    · refine validated_of_valid (by decide) ⟨i, hi, by rw [hsem]; rfl⟩ ?_ nofun
      rw [body, semPostCase, hlookup]
      exact ⟨_, rfl⟩

theorem validated_semWait : st.Validated uninit .semWait ↔ st.handle ≠ 64 := by
  constructor
  · intro h heq
    obtain ⟨st₁, returned, hbody⟩ := h.body_ok
    rw [body, semWaitCase, heq, SemaphoreTable.lookup_64] at hbody
    cases hbody
  · intro h
    obtain ⟨hlookup, -⟩ | ⟨i, sem, hlookup, hi, hsem⟩ := SemaphoreTable.lookup_of_ne st.userSemaphores h
    · refine validated_of_refused (by decide) ?_
      rw [body, semWaitCase, hlookup]
      rfl
    · refine validated_of_valid (by decide) ⟨i, hi, by rw [hsem]; rfl⟩ ?_ nofun
      rw [body, semWaitCase, hlookup]
      exact ⟨_, rfl⟩

theorem validated_semDelete :
    st.Validated uninit .semDelete ↔ 0 ≤ st.handle ∧ st.handle < 64 := by
  constructor
  · intro h
    by_contra hrange
    obtain ⟨st₁, returned, hbody⟩ := h.body_ok
    rw [body, semDeleteCase, index_of_not_lt hrange] at hbody
    cases hbody
  · rintro ⟨h₀, hlt⟩
    obtain ⟨i, hindex, hi⟩ := index_of_lt h₀ hlt
    have hbody : st.body uninit .semDelete = .ok ({ st with
        userSemaphores := Function.update st.userSemaphores i none }, true) := by
      rw [body, semDeleteCase, hindex]
      rfl
    refine validated_of_sameTables (by decide) hbody fun hnot => ⟨?_, rfl, rfl, rfl⟩
    -- `delete` of a null pointer, and the entry was `NULL`
    have hnone : st.userSemaphores i = none := by
      by_contra hsome
      exact hnot ⟨i, hi, Option.isSome_iff_ne_none.mpr hsome⟩
    exact Function.update_eq_self_iff.mpr hnone.symm

/-- A process that waits for itself gets the result of success. -/
theorem waitPidCase_self (h : st.handle = st.pid) :
    st.waitPidCase = .ok ((st.writeResult (-1)).writeResult 1, true) := by
  have hpid : (st.writeResult (-1)).pid = st.pid := rfl
  rw [waitPidCase]
  simp only [h, or_true, if_true, doWaitPid, hpid, Except.ok_bind]
  rfl

/-- Any other value goes to the loop, whatever the check has found. -/
theorem waitPidCase_of_ne (hself : st.handle ≠ st.pid) :
    ∃ st₁ : KernelState ι, st.waitPidCase = (do
      let (st, returned) ← st₁.waitPidLoop st.handle
      return (if returned then st.writeResult 1 else st, returned)) := by
  refine ⟨if st.handle > 64 ∨ st.handle < 0 ∨ st.handle = st.pid then st.writeResult (-1) else st,
    ?_⟩
  rw [waitPidCase]
  split
  · rw [doWaitPid, if_neg (show ¬ st.handle = (st.writeResult (-1)).pid from hself)]
  · rw [doWaitPid, if_neg hself]

/-- A value out of range is refused, and used. -/
theorem waitPidCase_out_of_range (hself : st.handle ≠ st.pid)
    (hrange : ¬ (0 ≤ st.handle ∧ st.handle < 64)) : st.waitPidCase = .error .bounds := by
  have hindex : index 64 st.handle = .error .bounds := index_of_not_lt hrange
  obtain ⟨st₁, hcase⟩ := waitPidCase_of_ne hself
  rw [hcase, waitPidLoop, hindex]
  rfl

theorem waitPidLoop_ok (hrange : 0 ≤ st.handle ∧ st.handle < 64) (later : KernelState ι) :
    ∃ res, later.waitPidLoop st.handle = .ok res := by
  obtain ⟨k, hindex, -⟩ := index_of_lt hrange.1 hrange.2
  rw [waitPidLoop, hindex, Except.ok_bind]
  split
  · exact ⟨_, rfl⟩
  · exact ⟨_, rfl⟩

theorem validated_waitPid :
    st.Validated uninit .waitPid ↔ 0 ≤ st.handle ∧ st.handle < 64 ∧ st.handle ≠ st.pid := by
  constructor
  · intro h
    by_contra hinvalid
    by_cases hself : st.handle = st.pid
    · obtain ⟨st', returned, hhandler, -, hrefused, -⟩ := h
      have hbody : st.body uninit .waitPid = .ok ((st.writeResult (-1)).writeResult 1, true) :=
        waitPidCase_self hself
      obtain ⟨st'', hhandler', -, hresult⟩ := exceptionHandler_of_body hbody
      rw [hhandler'] at hhandler
      cases hhandler
      obtain ⟨-, hminus⟩ := (hrefused hinvalid).2 (by decide)
      rw [hresult, result_writeResult] at hminus
      exact absurd hminus (by decide)
    · obtain ⟨st₁, returned, hbody⟩ := h.body_ok
      rw [body, waitPidCase_out_of_range hself fun hrange =>
        hinvalid ⟨hrange.1, hrange.2, hself⟩] at hbody
      cases hbody
  · intro hvalid
    have hloop := waitPidLoop_ok ⟨hvalid.1, hvalid.2.1⟩
    refine validated_of_valid (by decide) hvalid ?_ fun _ => hloop
    obtain ⟨st₁, hcase⟩ := waitPidCase_of_ne hvalid.2.2
    obtain ⟨res, hres⟩ := hloop st₁
    rw [body, hcase, hres]
    exact ⟨_, rfl⟩

/-- What `case SC_Close` does to the file system. -/
theorem closeCase_eq (uninit : Uninit) (st : KernelState ι) :
    st.closeCase uninit = (st.fs.fileTable.close st.handle).map fun res =>
      { st with fs := { st.fs with fileTable := res.2 } } := by
  simp only [closeCase, SystemState.closeCase, SystemState.perform, Logged.invoke,
    FileOperation.apply, FileSystem.close, handle]
  cases st.fs.fileTable.close st.toSystemState.arg1.toInt with
  | error fault => rfl
  | ok res => rfl

theorem close_of_lt (table : OpenFileTable) {i : ℤ} (h : 0 ≤ i ∧ i < NbFileTableEntries) :
    ∃ res, table.close i = .ok res ∧ ((table.get i).isSome = false → res.2 = table) := by
  have hget : table.get i = table.table i.toNat := if_neg (by omega)
  rw [OpenFileTable.close, inBounds_of ⟨h.1, h.2⟩, Except.ok_bind, hget]
  by_cases hnone : (table.table i.toNat).isNone
  · rw [if_pos hnone]
    exact ⟨_, rfl, fun _ => rfl⟩
  · rw [if_neg hnone]
    refine ⟨_, rfl, fun hsome => absurd ?_ hnone⟩
    exact Option.isSome_eq_false_iff.mp hsome

theorem close_of_not_lt (table : OpenFileTable) {i : ℤ}
    (h : ¬ (0 ≤ i ∧ i < NbFileTableEntries)) : table.close i = .error .bounds := by
  have hout : inBounds (i ≥ 0 ∧ i < NbFileTableEntries) = .error .bounds := if_neg h
  rw [OpenFileTable.close, hout]
  rfl

theorem validated_close :
    st.Validated uninit .close ↔ 0 ≤ st.handle ∧ st.handle < NbFileTableEntries := by
  constructor
  · intro h
    by_contra hrange
    obtain ⟨st₁, returned, hbody⟩ := h.body_ok
    rw [body, closeCase_eq, close_of_not_lt _ hrange] at hbody
    cases hbody
  · intro hrange
    obtain ⟨res, hclose, hsame⟩ := close_of_lt st.fs.fileTable hrange
    have hbody : st.body uninit .close =
        .ok ({ st with fs := { st.fs with fileTable := res.2 } }, true) := by
      rw [body, closeCase_eq, hclose]
      rfl
    refine validated_of_sameTables (.inr rfl) hbody fun hnot => ⟨rfl, rfl, rfl, hsame ?_⟩
    exact Bool.eq_false_iff.mpr hnot

theorem validated_semCreate :
    st.Validated uninit .semCreate ↔ 0 ≤ st.handle ∨ ∀ i, (st.userSemaphores i).isSome := by
  obtain ⟨st', hhandler, htables, -⟩ :=
    exceptionHandler_of_body (show st.body uninit .semCreate = .ok (st.semCreateCase, true) from rfl)
  have hafter : st'.userSemaphores = (st.userSemaphores.create st.handle).2 := htables.1
  constructor
  · rintro ⟨st'', returned, hhandler', -, -, hcreate⟩
    rw [hhandler] at hhandler'
    cases hhandler'
    obtain ⟨hfull, -⟩ | ⟨i, hfree, hequal⟩ := SemaphoreTable.create_cases st.userSemaphores st.handle
    · exact .inr hfull
    · refine .inl (hcreate rfl i (Semaphore.new st.handle) hfree ?_)
      rw [hafter, hequal]
      exact Function.update_self _ _ _
  · intro h
    refine ⟨st', true, hhandler, nofun, fun hnot => absurd trivial hnot, fun _ i sem hfree hsem => ?_⟩
    rw [hafter] at hsem
    obtain ⟨-, hequal⟩ | ⟨j, -, hequal⟩ := SemaphoreTable.create_cases st.userSemaphores st.handle
    · rw [hequal] at hsem
      dsimp only at hsem
      rw [hfree] at hsem
      cases hsem
    · rw [hequal] at hsem
      dsimp only at hsem
      have hnew : sem = Semaphore.new st.handle := by
        by_cases hij : i = j
        · rw [hij, Function.update_self] at hsem
          exact (Option.some.inj hsem).symm
        · rw [Function.update_of_ne hij, hfree] at hsem
          cases hsem
      have hnonneg : 0 ≤ st.handle := h.resolve_right fun hfull => by
        have hi := hfull i
        rw [hfree] at hi
        cases hi
      rw [hnew]
      exact hnonneg

end Cases

/-- **Handles are validated only in part.** For every value in `r4` and every state of the
tables, a call does what it should exactly when the value does not get past the check of its
case: `64` for the semaphores, anything outside the table where there is no check, the
caller's own pid or a value out of range where the check does not stop the case, and a
negative value for a new semaphore. -/
theorem handles_validated_iff (uninit : Uninit) (call : HandleSyscall) (st : KernelState ι) :
    st.Validated uninit call ↔ st.HandleSafe call := by
  cases call with
  | semCreate => exact validated_semCreate
  | semPost => exact validated_semPost
  | semWait => exact validated_semWait
  | semDelete => exact validated_semDelete
  | waitPid => exact validated_waitPid
  | close => exact validated_close

/-- A machine that has just started its first process: no semaphore, pid `0` taken, no open
file. The program has made a call with the given argument. -/
def booted (fs : FileSystem) (arg : BitVec 32) : KernelState Unit where
  machine := SystemState.identityMachine (fun r => if r = reg 4 then arg else 0) fun _ => 0
  fs := fs
  current := ()
  pid := 0
  userSemaphores := fun _ => none
  pids := fun k => k = 0
  processConds := fun _ => Condition.new

theorem handle_booted (fs : FileSystem) (arg : BitVec 32) : (booted fs arg).handle = arg.toInt := rfl

/-- The first program of the machine posts and waits for semaphore `64`, deletes semaphore `-1`,
waits for itself, closes file `10` and creates a semaphore with value `-1`. None of these
calls is handled as it should be. -/
theorem not_validated_booted : ¬ ∃ fs uninit, (booted fs 64).Validated uninit .semPost ∨
    (booted fs 64).Validated uninit .semWait ∨ (booted fs (-1)).Validated uninit .semDelete ∨
    (booted fs 0).Validated uninit .waitPid ∨ (booted fs 10).Validated uninit .close ∨
    (booted fs (-1)).Validated uninit .semCreate := by
  rintro ⟨fs, uninit, h⟩
  rw [validated_semPost, validated_semWait, validated_semDelete, validated_waitPid,
    validated_close, validated_semCreate, handle_booted, handle_booted, handle_booted,
    handle_booted] at h
  rcases h with h | h | h | h | h | h
  · exact h (by decide)
  · exact h (by decide)
  · exact absurd h.1 (by decide)
  · exact h.2.2 rfl
  · exact absurd h.2 (by decide)
  · rcases h with h | h
    · exact absurd h (by decide)
    · exact absurd (h 0) nofun

end KernelState

end Nachos
