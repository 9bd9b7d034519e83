/-
# System calls on files

The cases of `ExceptionHandler` in `userprog/exception.cc` that reach the file system. Each
case reads its arguments from the registers, copies a string between the program and a
buffer on the kernel stack, invokes operations of the file system and writes a result to
`r2`. The other system calls are a parameter: the cases before and behind those of the file
system end with `break`.
-/

import Nachos.Base.Dispatch
import Nachos.Filesys.FileSystem
import Nachos.Userprog.StringCopy

namespace Nachos

open Base

/-- The system calls on files. -/
inductive FileSyscall
  | createFile
  | createDir
  | removeFile
  | removeDir
  | list
  | openFile
  | read
  | write
  | close
  deriving DecidableEq, Repr

/-- `SC_CreateFile` and the others of `syscall.h`. -/
def FileSyscall.code : FileSyscall → BitVec 32
  | .createFile => 4
  | .createDir => 5
  | .removeFile => 6
  | .removeDir => 7
  | .list => 8
  | .openFile => 9
  | .read => 10
  | .write => 11
  | .close => 12

/-- A call of a member function of `FileSystem`, with its arguments other than the buffer. -/
inductive FileOperation
  | createFile (path : List UInt8) (initialSize : ℤ)
  | createDir (path : List UInt8)
  | removeFile (path : List UInt8)
  | removeDir (path : List UInt8)
  | list
  | openFile (path : List UInt8) (mode : UInt8)
  | read (i nbOctets : ℤ)
  | write (i nbOctets : ℤ)
  | close (i : ℤ)
  deriving DecidableEq, Repr

/-- What a `bool` is as an `int`. -/
def ofBool (b : Bool) : ℤ := if b then 1 else 0

/-- The operation carried out with a buffer: its result, the buffer and the file system. -/
def FileOperation.apply (heap : Heap) (buf : Mem) (fs : FileSystem) :
    FileOperation → Except Fault (ℤ × Mem × FileSystem)
  | .createFile path initialSize => do
      let (res, fs) ← fs.createFile heap path initialSize
      return (ofBool res, buf, fs)
  | .createDir path => do
      let (res, fs) ← fs.createDir heap path
      return (ofBool res, buf, fs)
  | .removeFile path => do
      let (res, fs) ← fs.removeFile heap path
      return (ofBool res, buf, fs)
  | .removeDir path => do
      let (res, fs) ← fs.removeDir heap path
      return (ofBool res, buf, fs)
  | .list => do
      let _ ← fs.list heap
      return (0, buf, fs)
  | .openFile path mode => do
      let (res, fs) ← fs.openFile heap path mode
      return (res, buf, fs)
  | .read i nbOctets => fs.read i buf nbOctets
  | .write i nbOctets => do
      let (res, fs) ← fs.write (heap 0) i buf nbOctets
      return (res, buf, fs)
  | .close i => do
      let (res, fs) ← fs.close i
      return (res, buf, fs)

/-- The machine and the file system. -/
structure SystemState where
  machine : Machine
  fs : FileSystem

/-- Memory that the handler finds uninitialised. -/
structure Uninit where
  /-- The array `string`. -/
  stack : Mem
  heap : Heap
  /-- The blocks that `List` allocates. -/
  listHeap : Heap

namespace SystemState

/-- The first argument of a system call. -/
def arg1 (st : SystemState) : BitVec 32 := st.machine.readRegister (reg 4)

/-- The second argument. -/
def arg2 (st : SystemState) : BitVec 32 := st.machine.readRegister (reg 5)

/-- The third argument. -/
def arg3 (st : SystemState) : BitVec 32 := st.machine.readRegister (reg 6)

/-- The result is put into `r2`. -/
def putResult (st : SystemState) (res : ℤ) : SystemState :=
  { st with machine := st.machine.writeRegister (reg 2) (BitVec.ofInt 32 res) }

/-- Copy the string at `src` to the array `string` of `MAX_STRING_SIZE` bytes. -/
def copyString (st : SystemState) (uninit : Uninit) (src : BitVec 32) :
    Logged FileOperation (Mem × SystemState) := do
  let (string, machine) ←
    Logged.lift (st.machine.copyStringFromMachine src uninit.stack (BitVec.ofNat 32 MaxStringSize))
  return (string, { st with machine := machine })

/-- Invoke an operation of the file system. -/
def perform (st : SystemState) (heap : Heap) (buf : Mem) (op : FileOperation) :
    Logged FileOperation (ℤ × Mem × SystemState) := do
  let (res, buf, fs) ← Logged.invoke op (op.apply heap buf st.fs)
  return (res, buf, { st with fs := fs })

/-- A case that copies a path, performs an operation on it and returns the result. -/
def onPath (uninit : Uninit) (op : List UInt8 → SystemState → FileOperation)
    (st : SystemState) : Logged FileOperation SystemState := do
  let (string, st') ← st.copyString uninit st.arg1
  let (res, _, st') ← st'.perform uninit.heap string (op (string.cString 0 MaxStringSize) st)
  return st'.putResult res

/-- `case SC_CreateFile`. -/
def createFileCase (uninit : Uninit) : SystemState → Logged FileOperation SystemState :=
  onPath uninit fun path st => .createFile path st.arg2.toInt

/-- `case SC_CreateDir`. -/
def createDirCase (uninit : Uninit) : SystemState → Logged FileOperation SystemState :=
  onPath uninit fun path _ => .createDir path

/-- `case SC_RemoveFile`. -/
def removeFileCase (uninit : Uninit) : SystemState → Logged FileOperation SystemState :=
  onPath uninit fun path _ => .removeFile path

/-- `case SC_RemoveDir`. -/
def removeDirCase (uninit : Uninit) : SystemState → Logged FileOperation SystemState :=
  onPath uninit fun path _ => .removeDir path

/-- `case SC_List`. -/
def listCase (uninit : Uninit) (st : SystemState) : Logged FileOperation SystemState := do
  let (_, _, st) ← st.perform uninit.listHeap uninit.stack .list
  return st

/-- `case SC_Open`. -/
def openCase (uninit : Uninit) : SystemState → Logged FileOperation SystemState :=
  onPath uninit fun path st => .openFile path (UInt8.ofNat st.arg2.toNat)

/-- `case SC_Write`. -/
def writeCase (uninit : Uninit) (st : SystemState) : Logged FileOperation SystemState := do
  let n := st.arg2.toInt
  let i := st.arg3.toInt
  let (string, st) ← st.copyString uninit st.arg1
  -- fileSystem->Read(i, string, n)
  let (_, _, st) ← st.perform uninit.heap string (.read i n)
  return st

/-- `case SC_Read`. The kernel stack is taken to have room for `string[n]`. -/
def readCase (uninit : Uninit) (st : SystemState) : Logged FileOperation SystemState := do
  let dst := st.arg1
  let n := st.arg2
  let i := st.arg3.toInt
  let (res, string, st) ← st.perform uninit.heap uninit.stack (.read i n.toInt)
  let machine ← Logged.lift (st.machine.copyStringToMachine string dst n)
  return putResult { st with machine := machine } res

/-- `case SC_Close`. -/
def closeCase (uninit : Uninit) (st : SystemState) : Logged FileOperation SystemState := do
  let (_, _, st) ← st.perform uninit.heap uninit.stack (.close st.arg1.toInt)
  return st

/-- The cases of the file system, in the order of the source. `SC_List` has no `break`. -/
def fileCases (uninit : Uninit) : List (SwitchCase FileOperation (BitVec 32) SystemState) :=
  [⟨FileSyscall.code .createFile, createFileCase uninit, true⟩,
    ⟨FileSyscall.code .createDir, createDirCase uninit, true⟩,
    ⟨FileSyscall.code .removeFile, removeFileCase uninit, true⟩,
    ⟨FileSyscall.code .removeDir, removeDirCase uninit, true⟩,
    ⟨FileSyscall.code .list, listCase uninit, false⟩,
    ⟨FileSyscall.code .openFile, openCase uninit, true⟩,
    ⟨FileSyscall.code .write, writeCase uninit, true⟩,
    ⟨FileSyscall.code .read, readCase uninit, true⟩,
    ⟨FileSyscall.code .close, closeCase uninit, true⟩]

/-- `ExceptionHandler`. Other system calls are served by `others`; an exception that is not a
system call only moves the program counter. -/
def exceptionHandler (uninit : Uninit) (others : SystemState → Logged FileOperation SystemState)
    (which : ExceptionType) (st : SystemState) : Logged FileOperation SystemState := do
  let type := st.machine.readRegister (reg 2)
  let st ← if which = .syscallException then runSwitch (fileCases uninit) others type st
    else pure st
  return { st with machine := st.machine.updatePC }

/-! ## What a case invokes -/

section Cases

variable (uninit : Uninit) (others : SystemState → Logged FileOperation SystemState)
  (st : SystemState)

/-- The path that a system call is given: what `CopyStringFromMachine` makes of its first
argument. -/
def pathArgument : List UInt8 :=
  match st.machine.copyStringFromMachine st.arg1 uninit.stack (BitVec.ofNat 32 MaxStringSize) with
  | .ok (string, _) => string.cString 0 MaxStringSize
  | .error _ => []

/-- The operation of the file system that a system call is named after, with the arguments
from the registers and the memory of the program. -/
def named : FileSyscall → FileOperation
  | .createFile => .createFile (st.pathArgument uninit) st.arg2.toInt
  | .createDir => .createDir (st.pathArgument uninit)
  | .removeFile => .removeFile (st.pathArgument uninit)
  | .removeDir => .removeDir (st.pathArgument uninit)
  | .list => .list
  | .openFile => .openFile (st.pathArgument uninit) (UInt8.ofNat st.arg2.toNat)
  | .read => .read st.arg3.toInt st.arg2.toInt
  | .write => .write st.arg3.toInt st.arg2.toInt
  | .close => .close st.arg1.toInt

/-- A string that is in the memory of the program and fits the buffer is the path. -/
theorem pathArgument_eq {path : List UInt8} (h : st.machine.UserString st.arg1 path)
    (hlength : path.length + 1 < MaxStringSize) : st.pathArgument uninit = path := by
  have hsize : (BitVec.ofNat 32 MaxStringSize).toNat = MaxStringSize := rfl
  obtain ⟨string, m', hcopy, hstring⟩ :=
    Machine.copyStringFromMachine_eq st.arg1 uninit.stack h (by rw [hsize]; exact hlength)
  rw [pathArgument, hcopy]
  exact hstring

theorem perform_calls (heap : Heap) (buf : Mem) (op : FileOperation) :
    (st.perform heap buf op).calls = [op] :=
  Logged.bind_pure_calls (Logged.invoke op (op.apply heap buf st.fs)) _

/-- An operation that returns leaves everything but the file system. -/
theorem perform_result_eq_ok {heap : Heap} {buf buf' : Mem} {op : FileOperation} {res : ℤ}
    {st' : SystemState} :
    (st.perform heap buf op).result = .ok (res, buf', st') ↔
      ∃ fs', op.apply heap buf st.fs = .ok (res, buf', fs') ∧ st' = { st with fs := fs' } := by
  rw [perform, Logged.bind_result_eq_ok]
  constructor
  · rintro ⟨⟨_, _, fs'⟩, happly, h⟩
    cases h
    exact ⟨fs', happly, rfl⟩
  · rintro ⟨fs', happly, rfl⟩
    exact ⟨(res, buf', fs'), happly, rfl⟩

/-- Copying the path invokes nothing and leaves the file system. -/
theorem copyString_eq (hload : st.machine.registers LoadReg = 0) :
    ∃ string machine, st.copyString uninit st.arg1 = pure (string, { st with machine }) ∧
      string.cString 0 MaxStringSize = st.pathArgument uninit := by
  obtain ⟨string, machine, hcopy⟩ := Machine.copyStringFromMachine_ok st.arg1 uninit.stack
    (BitVec.ofNat 32 MaxStringSize) hload
  refine ⟨string, machine, ?_, ?_⟩
  · rw [copyString, hcopy]
    rfl
  · rw [pathArgument, hcopy]

/-- A case on a path invokes its operation once. -/
theorem onPath_spec (op : List UInt8 → SystemState → FileOperation)
    (hload : st.machine.registers LoadReg = 0) :
    (onPath uninit op st).calls = [op (st.pathArgument uninit) st] ∧
      ∀ st', (onPath uninit op st).result = .ok st' →
        ∃ buf res buf', (op (st.pathArgument uninit) st).apply uninit.heap buf st.fs =
          .ok (res, buf', st'.fs) := by
  obtain ⟨string, machine, hcopy, hpath⟩ := st.copyString_eq uninit hload
  rw [onPath, hcopy, Logged.pure_bind]
  dsimp only
  rw [hpath]
  refine ⟨?_, fun st' h => ?_⟩
  · exact (Logged.bind_pure_calls _ _).trans (perform_calls _ _ _ _)
  · obtain ⟨⟨res, buf', st₁⟩, hperform, h⟩ := Logged.bind_result_eq_ok.mp h
    obtain ⟨fs', happly, rfl⟩ := (perform_result_eq_ok _).mp hperform
    cases h
    exact ⟨string, res, buf', happly⟩

/-- The handler runs the `switch` and moves the program counter. -/
theorem exceptionHandler_syscall :
    exceptionHandler uninit others .syscallException st = (do
      let st ← runSwitch (fileCases uninit) others (st.machine.readRegister (reg 2)) st
      return { st with machine := st.machine.updatePC }) := rfl

/-- What the body of the case invokes is what the handler invokes. -/
theorem handler_spec {body : Logged FileOperation SystemState}
    (hswitch : runSwitch (fileCases uninit) others (st.machine.readRegister (reg 2)) st = body) :
    (exceptionHandler uninit others .syscallException st).calls = body.calls ∧
      ∀ st', (exceptionHandler uninit others .syscallException st).result = .ok st' →
        ∃ st₁, body.result = .ok st₁ ∧ st' = { st₁ with machine := st₁.machine.updatePC } := by
  rw [exceptionHandler_syscall, hswitch]
  refine ⟨Logged.bind_pure_calls _ _, fun st' h => ?_⟩
  obtain ⟨st₁, hbody, h⟩ := Logged.bind_result_eq_ok.mp h
  exact ⟨st₁, hbody, (Except.ok.inj h).symm⟩

end Cases

/-! ## A small state -/

/-- A machine with sixteen pages, each mapped to the frame of its number. -/
def identityMachine (registers : Registers) (mainMemory : Mem) : Machine :=
  ⟨registers, mainMemory, fun i => ⟨i, i, true, false, false, false⟩, 16⟩

/-- The registers of a system call with its code and arguments. -/
def callRegisters (call : FileSyscall) (arg1 arg2 arg3 : BitVec 32) : Registers :=
  fun r => if r = reg 2 then call.code else if r = reg 4 then arg1 else if r = reg 5 then arg2
    else if r = reg 6 then arg3 else 0

end SystemState

end Nachos
