/-
# Each system call and its operation

`ExceptionHandler` is to invoke, for a system call on files, the operation of the file
system of that name, once and with the arguments of the call, and no other. It does for
seven of the nine calls. `SC_List` has no `break`, so that the handler goes on with the case
of `SC_Open` and opens whatever file the registers happen to name; `SC_Write` invokes
`FileSystem::Read`, so that nothing is ever written.
-/

import Nachos.Filesys.Sequential
import Nachos.Userprog.Exception

namespace Nachos

open Base

namespace SystemState

section

variable (uninit : Uninit) (others : SystemState → Logged FileOperation SystemState)
  (st : SystemState)

/-- A system call performs its own operation and nothing else. -/
structure PerformsOnly (call : FileSyscall) : Prop where
  /-- Exactly the operation of that name is invoked, once. -/
  calls : (exceptionHandler uninit others .syscallException st).calls = [st.named uninit call]
  /-- The file system is left as the operation leaves it. -/
  files : ∀ st', (exceptionHandler uninit others .syscallException st).result = .ok st' →
    ∃ buf res buf', (st.named uninit call).apply uninit.heap buf st.fs = .ok (res, buf', st'.fs)
  /-- `List` leaves the table of open files. -/
  list_table : call = .list → ∀ st',
    (exceptionHandler uninit others .syscallException st).result = .ok st' →
    st'.fs.fileTable = st.fs.fileTable
  /-- `Write` on a file opened for writing stores the bytes of the program. -/
  write_bytes : call = .write → ∀ st',
    (exceptionHandler uninit others .syscallException st).result = .ok st' →
    ∀ (L : Layout) (i t pos : ℕ), Consistent st.fs.disk L → t ∈ L.files → st.arg3.toInt = i →
      st.fs.OpenAt i t modeWrite pos →
      ∀ j < min st.arg2.toInt.toNat (st.fs.lengthOf t - pos),
        ∀ byte, st.machine.userByte (st.arg1 + BitVec.ofNat 32 j) = some byte →
          st'.fs.disk.bytes t (pos + j) = byte

variable {uninit others st}

/-- The case of `SC_Write` reads. -/
theorem calls_write (hload : st.machine.registers LoadReg = 0)
    (hcode : st.machine.readRegister (reg 2) = FileSyscall.code .write) :
    (exceptionHandler uninit others .syscallException st).calls =
      [.read st.arg3.toInt st.arg2.toInt] := by
  have hswitch : runSwitch (fileCases uninit) others (st.machine.readRegister (reg 2)) st =
      writeCase uninit st := by
    rw [hcode]
    rfl
  rw [(handler_spec uninit others st hswitch).1]
  obtain ⟨string, machine, hcopy, -⟩ := st.copyString_eq uninit hload
  rw [writeCase, hcopy]
  exact (Logged.bind_pure_calls _ _).trans (perform_calls _ _ _ _)

theorem runSwitch_list (hcode : st.machine.readRegister (reg 2) = FileSyscall.code .list) :
    runSwitch (fileCases uninit) others (st.machine.readRegister (reg 2)) st =
      listCase uninit st >>= openCase uninit := by
  rw [hcode]
  rfl

/-- A listing that stops the machine. -/
theorem listCase_of_error {fault : Fault} (hlist : st.fs.list uninit.listHeap = .error fault) :
    (listCase uninit st).result = .error fault := by
  simp only [listCase, perform, FileOperation.apply, hlist]
  rfl

theorem result_list_of_error (uninit : Uninit)
    (others : SystemState → Logged FileOperation SystemState) {fault : Fault}
    (hcode : st.machine.readRegister (reg 2) = FileSyscall.code .list)
    (hlist : st.fs.list uninit.listHeap = .error fault) :
    (exceptionHandler uninit others .syscallException st).result = .error fault := by
  rw [exceptionHandler_syscall, runSwitch_list hcode,
    Logged.bind_of_error _ (listCase_of_error hlist)]
  rfl

/-- The case of `SC_List` runs into the one of `SC_Open`. -/
theorem calls_list (hload : st.machine.registers LoadReg = 0)
    (hcode : st.machine.readRegister (reg 2) = FileSyscall.code .list) :
    (exceptionHandler uninit others .syscallException st).calls =
      match st.fs.list uninit.listHeap with
      | .ok _ => [.list, .openFile (st.pathArgument uninit) (UInt8.ofNat st.arg2.toNat)]
      | .error _ => [.list] := by
  rw [(handler_spec uninit others st (runSwitch_list hcode)).1]
  have hcalls : (listCase uninit st).calls = [.list] :=
    (Logged.bind_pure_calls _ _).trans (perform_calls _ _ _ _)
  cases hlist : st.fs.list uninit.listHeap with
  | error fault =>
      rw [Logged.bind_of_error _ (listCase_of_error hlist), hcalls]
  | ok rows =>
      have hresult : (listCase uninit st).result = .ok st := by
        simp only [listCase, perform, FileOperation.apply, hlist]
        rfl
      rw [Logged.bind_calls_of_ok _ hresult, hcalls, openCase, (onPath_spec uninit st _ hload).1]
      rfl

/-- A case that is a single operation. -/
theorem performsOnly_of_spec {call : FileSyscall} {body : Logged FileOperation SystemState}
    (hwrite : call ≠ .write) (hlist : call ≠ .list)
    (hswitch : runSwitch (fileCases uninit) others (st.machine.readRegister (reg 2)) st = body)
    (hcalls : body.calls = [st.named uninit call])
    (hfiles : ∀ st', body.result = .ok st' → ∃ buf res buf',
      (st.named uninit call).apply uninit.heap buf st.fs = .ok (res, buf', st'.fs)) :
    PerformsOnly uninit others st call := by
  obtain ⟨hall, hresult⟩ := handler_spec uninit others st hswitch
  refine ⟨hall.trans hcalls, fun st' h => ?_, fun h => absurd h hlist, fun h => absurd h hwrite⟩
  obtain ⟨st₁, hbody, rfl⟩ := hresult st' h
  exact hfiles st₁ hbody

/-- The seven calls that do what they are named after. -/
theorem performsOnly_of_ne {call : FileSyscall} (hload : st.machine.registers LoadReg = 0)
    (hcode : st.machine.readRegister (reg 2) = call.code) (hwrite : call ≠ .write)
    (hlist : call ≠ .list) : PerformsOnly uninit others st call := by
  have honPath (op : List UInt8 → SystemState → FileOperation)
      (hswitch : runSwitch (fileCases uninit) others (st.machine.readRegister (reg 2)) st =
        onPath uninit op st)
      (hop : op (st.pathArgument uninit) st = st.named uninit call) :
      PerformsOnly uninit others st call := by
    obtain ⟨hcalls, hfiles⟩ := onPath_spec uninit st op hload
    rw [hop] at hcalls hfiles
    exact performsOnly_of_spec hwrite hlist hswitch hcalls hfiles
  cases call with
  | createFile =>
      exact honPath (fun path st => .createFile path st.arg2.toInt) (by rw [hcode]; rfl) rfl
  | createDir => exact honPath (fun path _ => .createDir path) (by rw [hcode]; rfl) rfl
  | removeFile => exact honPath (fun path _ => .removeFile path) (by rw [hcode]; rfl) rfl
  | removeDir => exact honPath (fun path _ => .removeDir path) (by rw [hcode]; rfl) rfl
  | openFile =>
      exact honPath (fun path st => .openFile path (UInt8.ofNat st.arg2.toNat))
        (by rw [hcode]; rfl) rfl
  | list => exact absurd rfl hlist
  | write => exact absurd rfl hwrite
  | close =>
      have hswitch : runSwitch (fileCases uninit) others (st.machine.readRegister (reg 2)) st =
          closeCase uninit st := by
        rw [hcode]
        rfl
      refine performsOnly_of_spec hwrite hlist hswitch ?_ fun st' h => ?_
      · exact (Logged.bind_pure_calls _ _).trans (perform_calls _ _ _ _)
      · obtain ⟨⟨res, buf', st₁⟩, hperform, h⟩ := Logged.bind_result_eq_ok.mp h
        obtain ⟨fs', happly, rfl⟩ := (perform_result_eq_ok _).mp hperform
        cases h
        exact ⟨uninit.stack, res, buf', happly⟩
  | read =>
      have hswitch : runSwitch (fileCases uninit) others (st.machine.readRegister (reg 2)) st =
          readCase uninit st := by
        rw [hcode]
        rfl
      refine performsOnly_of_spec hwrite hlist hswitch ?_ fun st' h => ?_
      · cases hperform : (st.perform uninit.heap uninit.stack
            (.read st.arg3.toInt st.arg2.toInt)).result with
        | error fault =>
            rw [readCase, Logged.bind_of_error _ hperform]
            exact perform_calls _ _ _ _
        | ok r =>
            rw [readCase, Logged.bind_calls_of_ok _ hperform, perform_calls]
            exact congrArg (_ :: ·) (Logged.bind_pure_calls (Logged.lift _) _)
      · obtain ⟨⟨res, buf', st₁⟩, hperform, h⟩ := Logged.bind_result_eq_ok.mp h
        obtain ⟨fs', happly, rfl⟩ := (perform_result_eq_ok _).mp hperform
        obtain ⟨machine, -, h⟩ := Logged.bind_result_eq_ok.mp h
        cases h
        exact ⟨uninit.stack, res, buf', happly⟩

/-- **Which calls perform their own operation.** Every call but `SC_Write` and, when the
directory can be listed, `SC_List`; and the path that is handed on is the string of the
program. -/
theorem performsOnly_iff (uninit : Uninit)
    (others : SystemState → Logged FileOperation SystemState) (st : SystemState)
    (call : FileSyscall) (hload : st.machine.registers LoadReg = 0)
    (hcode : st.machine.readRegister (reg 2) = call.code) :
    (PerformsOnly uninit others st call ↔
      call ≠ .write ∧ (call = .list → ∀ rows, st.fs.list uninit.listHeap ≠ .ok rows)) ∧
    ∀ path, st.machine.UserString st.arg1 path → path.length + 1 < MaxStringSize →
      st.pathArgument uninit = path := by
  refine ⟨⟨fun h => ⟨?_, ?_⟩, fun ⟨hwrite, hlist⟩ => ?_⟩,
    fun path hpath hlength => pathArgument_eq uninit st hpath hlength⟩
  · rintro rfl
    have hcalls := h.calls
    rw [calls_write hload hcode] at hcalls
    cases hcalls
  · rintro rfl rows hrows
    have hcalls := h.calls
    rw [calls_list hload hcode, hrows] at hcalls
    cases hcalls
  · by_cases hcall : call = .list
    · subst hcall
      -- the listing stops the machine, and nothing follows it
      cases hresult : st.fs.list uninit.listHeap with
      | ok rows => exact absurd hresult (hlist rfl rows)
      | error fault =>
          have hcalls : (exceptionHandler uninit others .syscallException st).calls = [.list] := by
            rw [calls_list hload hcode, hresult]
          have hfault := result_list_of_error uninit others hcode hresult
          refine ⟨hcalls, fun st' h => ?_, fun _ st' h => ?_, fun h => by cases h⟩
          · rw [hfault] at h
            cases h
          · rw [hfault] at h
            cases h
    · exact performsOnly_of_ne hload hcode hwrite hcall

/-- A file system with an id for writing: `a` was created with two bytes and opened. -/
theorem exists_open_write : ∃ fs disk' fs',
    FileSystem.format (fun _ _ => 0) (fun _ _ => 0) (fun _ => none) = .ok fs ∧
      fs.createFile (fun _ _ => 0) [97] 2 = .ok (true, { fs with disk := disk' }) ∧
      ({ fs with disk := disk' } : FileSystem).openFile (fun _ _ => 0) [97] modeWrite =
        .ok (0, fs') := by
  obtain ⟨fs, disk', i, hformat, hcreate, hvalid, hindex, hsector, -, -, htable, hfiles⟩ :=
    FileSystem.exists_file_of_two
  obtain ⟨fs', hopen, -⟩ := hvalid.openFile_of_null (fun _ _ => 0) modeWrite
    (hvalid.locate_of_component (by decide)) hindex hsector
    (Layout.mem_files_insert.mpr (Or.inr ⟨rfl, rfl⟩)) htable hfiles
  exact ⟨fs, disk', fs', hformat, hcreate, hopen⟩

/-- `Close` of that id performs its own operation. -/
theorem performsOnly_iff_close : ∃ fs disk' fs',
    FileSystem.format (fun _ _ => 0) (fun _ _ => 0) (fun _ => none) = .ok fs ∧
      fs.createFile (fun _ _ => 0) [97] 2 = .ok (true, { fs with disk := disk' }) ∧
      ({ fs with disk := disk' } : FileSystem).openFile (fun _ _ => 0) [97] modeWrite =
        .ok (0, fs') ∧
      PerformsOnly ⟨fun _ => 0, fun _ _ => 0, fun _ _ => 0⟩ pure
        ⟨identityMachine (callRegisters .close 0 0 0) fun _ => 1, fs'⟩ .close := by
  obtain ⟨fs, disk', fs', hformat, hcreate, hopen⟩ := exists_open_write
  exact ⟨fs, disk', fs', hformat, hcreate, hopen,
    (performsOnly_iff _ _ _ .close rfl rfl).1.mpr ⟨by decide, nofun⟩⟩

/-- `Write` of two bytes through that id does not. -/
theorem not_performsOnly_write : ∃ fs disk' fs',
    FileSystem.format (fun _ _ => 0) (fun _ _ => 0) (fun _ => none) = .ok fs ∧
      fs.createFile (fun _ _ => 0) [97] 2 = .ok (true, { fs with disk := disk' }) ∧
      ({ fs with disk := disk' } : FileSystem).openFile (fun _ _ => 0) [97] modeWrite =
        .ok (0, fs') ∧
      ¬ PerformsOnly ⟨fun _ => 0, fun _ _ => 0, fun _ _ => 0⟩ pure
        ⟨identityMachine (callRegisters .write 0 2 0) fun _ => 1, fs'⟩ .write := by
  obtain ⟨fs, disk', fs', hformat, hcreate, hopen⟩ := exists_open_write
  refine ⟨fs, disk', fs', hformat, hcreate, hopen, fun h => ?_⟩
  have hcalls := h.calls
  rw [calls_write rfl rfl] at hcalls
  cases hcalls

end

end SystemState

end Nachos
