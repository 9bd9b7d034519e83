/-
# A process that is not created

`do_UserProcessCreate` of `userprog/userprocess.cc`, with the way out that it takes when there are
not enough frames. The constructor of the address space has then returned half way, and the
destructor goes over what it has not written: the entries of the page table and the pointers to
locks and conditions are what the heap held before. The file that was opened stays open.

Deleting what is not an object is an error here, since nothing is defined about it. A creation
that ends in one does not return.
-/

import Nachos.Filesys.OpenTable
import Nachos.Userprog.Loader

namespace Nachos

open Base

/-- A variable of the object that is used as an entry of a page table or as a pointer although
the program has not written it. -/
inductive StaleUse
  | pageTable (i : ℕ)
  | pointer (p : SpacePointer)
  deriving DecidableEq, Repr

/-- `delete`, on what a pointer holds. -/
def Pointer.delete : Pointer → Except Fault Unit
  | .null | .object => .ok ()
  | .invalid => .error .bounds

namespace SpaceObject

/-- The pointers in the order in which the destructor deletes them. -/
def deleted : List SpacePointer :=
  [.threadIDLock, .threadStackLock, .threadExitCond] ++
    (List.finRange UserThreadMax).map .threadConditions

/-- One round of `AddrSpace::FreeFrames`. -/
def freeFrame (object : SpaceObject) : FrameProvider × List StaleUse → ℕ →
    Except Fault (FrameProvider × List StaleUse)
  | (fp, uses), i => do
      let entry := object.pageTable i
      let uses := if entry.written then uses else uses ++ [.pageTable i]
      if entry.value.valid then
        let fp ← fp.releaseFrame entry.value.physicalPage
        return (fp, uses)
      else return (fp, uses)

/-- `AddrSpace::FreeFrames`. -/
def freeFrames (object : SpaceObject) (fp : FrameProvider) :
    Except Fault (FrameProvider × List StaleUse) :=
  (List.range object.numPages).foldlM object.freeFrame (fp, [])

/-- The `delete` of one of the pointers. -/
def deletePointer (object : SpaceObject) (uses : List StaleUse) (p : SpacePointer) :
    Except Fault (List StaleUse) := do
  let pointer := object.pointers p
  pointer.value.delete
  return if pointer.written then uses else uses ++ [.pointer p]

/-- `AddrSpace::~AddrSpace`. -/
def destroy (object : SpaceObject) (fp : FrameProvider) :
    Except Fault (FrameProvider × List StaleUse) := do
  let (fp, uses) ← object.freeFrames fp
  let uses ← deleted.foldlM object.deletePointer uses
  return (fp, uses)

end SpaceObject

/-- What the creation of a process works on. -/
structure CreationState where
  fs : FileSystem
  machine : Machine
  fprovider : FrameProvider
  pids : ℕ → Bool
  nbProcesses : ℤ

namespace CreationState

/-- `do_UserProcessCreate`, up to the thread of the new process. -/
def doUserProcessCreate (st : CreationState) (heap : Heap) (execFile : List UInt8) (stack : Heap)
    (memory : SpaceMemory) (rand : ℕ → ℕ) :
    Except Fault (ℤ × CreationState × List StaleUse) := do
  let (i, fs) ← st.fs.openFile heap execFile modeRead
  if i = -1 then return (-1, { st with fs := fs }, [])
  else
    match fs.fileTable.get i with
    | none => .error .bounds
    | some entry => do
        let (object, machine, fprovider, pids) ← SpaceObject.construct st.machine st.fprovider
          st.pids fs.disk entry.file stack memory rand
        if !object.isCreated then
          let (fprovider, uses) ← object.destroy fprovider
          return (-1, ⟨fs, machine, fprovider, pids, st.nbProcesses⟩, uses)
        else
          return (object.pid.value, ⟨fs, machine, fprovider, pids, st.nbProcesses + 1⟩, [])

/-- A creation that returns `-1` has changed nothing, and has not used anything stale, whatever
the memory of the new address space held. -/
def LeavesNoTrace (st : CreationState) (heap : Heap) (execFile : List UInt8) (stack : Heap)
    (rand : ℕ → ℕ) : Prop :=
  ∀ memory st' uses,
    st.doUserProcessCreate heap execFile stack memory rand = .ok (-1, st', uses) →
      st'.fprovider.bitmap = st.fprovider.bitmap ∧ st'.pids = st.pids ∧ st'.nbProcesses = st.nbProcesses ∧
        st'.fs.fileTable = st.fs.fileTable ∧ uses = []

/-- If the file is opened and its header passes the assertions, then there are enough frames, and
a pid is free in case the program can be loaded. -/
def HasRoom (st : CreationState) (heap : Heap) (execFile : List UInt8) (stack : Heap)
    (rand : ℕ → ℕ) : Prop :=
  ∀ i fs entry count header, st.fs.openFile heap execFile modeRead = .ok (i, fs) → i ≠ -1 →
    fs.fileTable.get i = some entry →
    entry.file.readAt fs.disk (stack 0) 0 sizeofNoffHeader 0 = .ok (count, header) →
    (NoffHeader.ofMem header).noffMagic = NOFFMAGIC →
    (NoffHeader.ofMem header).numPages ≤ NumPhysPages →
      (NoffHeader.ofMem header).numPages ≤ st.fprovider.numAvailFrame ∧
        ∀ memory result, SpaceObject.loadProgram st.machine st.fprovider fs.disk entry.file stack
            memory rand (NoffHeader.ofMem header) = .ok result →
          ∃ k < 64, st.pids k = false

end CreationState

/-! ## The destructor on memory that is zero -/

namespace SpaceObject

/-- No entry is valid, so no frame is released; but every entry is looked at. -/
theorem freeFrames_zero (fp : FrameProvider) (n : ℕ) :
    (refused .zero n).freeFrames fp = .ok (fp, (List.range n).map .pageTable) :=
  Except.foldlM_collect (g := fun uses => (fp, uses)) (fun _ _ => rfl) (List.range n) []

/-- Every pointer is `NULL`, and is deleted. -/
theorem destroy_zero (fp : FrameProvider) (n : ℕ) :
    (refused .zero n).destroy fp =
      .ok (fp, (List.range n).map .pageTable ++ deleted.map .pointer) := by
  have hpointers : deleted.foldlM (refused .zero n).deletePointer
      ((List.range n).map .pageTable) =
        .ok ((List.range n).map .pageTable ++ deleted.map .pointer) :=
    Except.foldlM_collect (g := fun uses => uses) (fun _ _ => rfl) deleted _
  rw [destroy, freeFrames_zero, Except.ok_bind]
  dsimp only
  rw [hpointers]
  rfl

end SpaceObject

/-- `Open` that fails leaves the table alone. -/
theorem FileSystem.fileTable_of_openFile {fs fs' : FileSystem} {heap : Heap} {path : List UInt8}
    {mode : UInt8} (h : fs.openFile heap path mode = .ok (-1, fs')) :
    fs'.fileTable = fs.fileTable := by
  obtain ⟨name, f, fs₁, hinner, rfl⟩ := FileSystem.atPath_eq_ok h
  obtain ⟨⟨i, t⟩, hopen, hequal⟩ := Except.bind_eq_ok.mp hinner
  cases hequal
  have hrun : (OpenCall.openFile heap fs.disk f name mode).run fs.fileTable = .ok (-1, t) := hopen
  exact OpenCall.eq_of_failed hrun

namespace CreationState

variable {st st' : CreationState} {heap : Heap} {execFile : List UInt8} {stack : Heap}
  {memory : SpaceMemory} {rand : ℕ → ℕ} {i : ℤ} {fs : FileSystem} {entry : OpenFileEntry}
  {count : ℤ} {header : Mem}

/-- Once the file is open, the constructor decides. -/
theorem doUserProcessCreate_of_open (hopen : st.fs.openFile heap execFile modeRead = .ok (i, fs))
    (hi : i ≠ -1) (hget : fs.fileTable.get i = some entry) :
    st.doUserProcessCreate heap execFile stack memory rand = (do
      let (object, machine, fprovider, pids) ← SpaceObject.construct st.machine st.fprovider
        st.pids fs.disk entry.file stack memory rand
      if !object.isCreated then
        let (fprovider, uses) ← object.destroy fprovider
        return (-1, ⟨fs, machine, fprovider, pids, st.nbProcesses⟩, uses)
      else
        return (object.pid.value, ⟨fs, machine, fprovider, pids, st.nbProcesses + 1⟩, [])) := by
  rw [doUserProcessCreate, hopen, Except.ok_bind]
  dsimp only
  rw [if_neg hi, hget]

/-- With too few frames, and zeros in the memory of the new address space. -/
theorem doUserProcessCreate_zero (hopen : st.fs.openFile heap execFile modeRead = .ok (i, fs))
    (hi : i ≠ -1) (hget : fs.fileTable.get i = some entry)
    (hread : entry.file.readAt fs.disk (stack 0) 0 sizeofNoffHeader 0 = .ok (count, header))
    (hmagic : (NoffHeader.ofMem header).noffMagic = NOFFMAGIC)
    (hpages : (NoffHeader.ofMem header).numPages ≤ NumPhysPages)
    (hfew : st.fprovider.numAvailFrame < (NoffHeader.ofMem header).numPages) :
    st.doUserProcessCreate heap execFile stack .zero rand =
      .ok (-1, { st with fs := fs }, (List.range (NoffHeader.ofMem header).numPages).map .pageTable ++
        SpaceObject.deleted.map .pointer) := by
  have hrefused : (!(SpaceObject.refused .zero (NoffHeader.ofMem header).numPages).isCreated) =
      true := rfl
  rw [doUserProcessCreate_of_open hopen hi hget,
    SpaceObject.construct_refused hread hmagic hpages hfew, Except.ok_bind]
  dsimp only
  rw [if_pos hrefused, SpaceObject.destroy_zero]
  rfl

/-- With no pid left, the object keeps the one that was in its memory. -/
theorem doUserProcessCreate_of_full (hopen : st.fs.openFile heap execFile modeRead = .ok (i, fs))
    (hi : i ≠ -1) (hget : fs.fileTable.get i = some entry)
    (hread : entry.file.readAt fs.disk (stack 0) 0 sizeofNoffHeader 0 = .ok (count, header))
    (hmagic : (NoffHeader.ofMem header).noffMagic = NOFFMAGIC)
    (hpages : (NoffHeader.ofMem header).numPages ≤ NumPhysPages)
    (henough : (NoffHeader.ofMem header).numPages ≤ st.fprovider.numAvailFrame)
    {pageTable : ℕ → TranslationEntry} {machine : Machine} {fprovider : FrameProvider}
    (hload : SpaceObject.loadProgram st.machine st.fprovider fs.disk entry.file stack memory rand
      (NoffHeader.ofMem header) = .ok (pageTable, machine, fprovider))
    (hfull : ∀ k < 64, st.pids k = true) :
    st.doUserProcessCreate heap execFile stack memory rand =
      .ok (memory.pid, ⟨fs, machine, fprovider, st.pids, st.nbProcesses + 1⟩, []) := by
  have hnone : (List.range 64).find? (fun k => !st.pids k) = none :=
    List.find?_eq_none.mpr fun k hk => by simp [hfull k (List.mem_range.mp hk)]
  rw [doUserProcessCreate_of_open hopen hi hget,
    SpaceObject.construct_created hread hmagic hpages henough hload, hnone]
  rfl

/-- The ways in which the creation returns `-1`. -/
theorem doUserProcessCreate_eq_neg_one {uses : List StaleUse}
    (h : st.doUserProcessCreate heap execFile stack memory rand = .ok (-1, st', uses)) :
    ∃ i fs, st.fs.openFile heap execFile modeRead = .ok (i, fs) ∧
      (i = -1 ∧ st' = { st with fs := fs } ∧ uses = [] ∨
        i ≠ -1 ∧ ∃ entry, fs.fileTable.get i = some entry ∧
          ∃ object machine fprovider pids, SpaceObject.construct st.machine st.fprovider st.pids
              fs.disk entry.file stack memory rand = .ok (object, machine, fprovider, pids) ∧
            (object.isCreated = true → object.pid.value = -1)) := by
  obtain ⟨⟨i, fs⟩, hopen, hrest⟩ := Except.bind_eq_ok.mp h
  refine ⟨i, fs, hopen, ?_⟩
  dsimp only at hrest
  split at hrest
  · rename_i hi
    cases hrest
    exact Or.inl ⟨hi, rfl, rfl⟩
  · rename_i hi
    refine Or.inr ⟨hi, ?_⟩
    split at hrest
    · cases hrest
    · rename_i entry hget
      obtain ⟨⟨object, machine, fprovider, pids⟩, hconstruct, hrest⟩ := Except.bind_eq_ok.mp hrest
      refine ⟨entry, hget, object, machine, fprovider, pids, hconstruct, fun hcreated => ?_⟩
      dsimp only at hrest
      rw [if_neg (by rw [hcreated]; decide)] at hrest
      exact congrArg Prod.fst (Except.ok.inj hrest)

/-- **When a refused creation leaves no trace**: exactly when there is room for the process, or
there is nothing to be created. -/
theorem leavesNoTrace_iff (st : CreationState) (heap : Heap) (execFile : List UInt8)
    (stack : Heap) (rand : ℕ → ℕ) :
    st.LeavesNoTrace heap execFile stack rand ↔ st.HasRoom heap execFile stack rand := by
  constructor
  · intro hclean i fs entry count header hopen hi hget hread hmagic hpages
    have henough : (NoffHeader.ofMem header).numPages ≤ st.fprovider.numAvailFrame := by
      by_contra hfew
      obtain ⟨-, -, -, -, huses⟩ := hclean _ _ _
        (doUserProcessCreate_zero hopen hi hget hread hmagic hpages (Nat.not_le.mp hfew))
      simp [SpaceObject.deleted] at huses
    refine ⟨henough, fun memory ⟨pageTable, m', fp'⟩ hload => ?_⟩
    by_contra! hfull
    -- The memory may have held `-1`; the program is loaded all the same.
    have hload' : SpaceObject.loadProgram st.machine st.fprovider fs.disk entry.file stack
        { memory with pid := -1 } rand (NoffHeader.ofMem header) = .ok (pageTable, m', fp') :=
      hload
    obtain ⟨-, -, hcount, -⟩ := hclean _ _ _ (doUserProcessCreate_of_full hopen hi hget hread
      hmagic hpages henough hload' fun k hk => by simpa using hfull k hk)
    dsimp only at hcount
    omega
  · intro hroom memory st' uses h
    obtain ⟨i, fs, hopen, ⟨rfl, rfl, rfl⟩ | ⟨hi, entry, hget, object, machine, fprovider, pids,
      hconstruct, hpid⟩⟩ := doUserProcessCreate_eq_neg_one h
    · exact ⟨rfl, rfl, rfl, FileSystem.fileTable_of_openFile hopen, rfl⟩
    · obtain ⟨count, header, hread, hmagic, hpages, ⟨hfew, -⟩ | ⟨-, pageTable, hload,
        ⟨k, -, rfl, -⟩ | ⟨hfull, -⟩⟩⟩ := SpaceObject.construct_eq_ok hconstruct
      · obtain ⟨henough, -⟩ := hroom i fs entry count header hopen hi hget hread hmagic hpages
        omega
      · have hvalue : (k : ℤ) = -1 := hpid rfl
        omega
      · obtain ⟨-, hfree⟩ := hroom i fs entry count header hopen hi hget hread hmagic hpages
        obtain ⟨k, hk, hfree⟩ := hfree memory _ hload
        have hused := List.find?_eq_none.mp hfull k (List.mem_range.mpr hk)
        simp [hfree] at hused

/-- A file header for two sectors. -/
def twoSectorHeader (numBytes numSectors first second : ℤ) : Mem :=
  ((((FileHeader.new fun _ => 0).setNumBytes numBytes).setNumSectors numSectors
    |>.setDataSector 0 first).setDataSector 1 second).mem

/-- A disk with one file, `a`, in which the small program is. -/
def oneProgram : Disk := fun s =>
  if s = 0 then twoSectorHeader 128 1 2 0
  else if s = 1 then twoSectorHeader 200 2 3 4
  else if s = 2 then fun k => if k = 0 then 255 else 0
  else if s = 3 then
    (((Directory.new (fun _ => 0) 10).addSpecialDir 1 1).2.addFile [97] 5).2.table
  else if s = 5 then twoSectorHeader 200 2 6 7
  else if s = 6 then SpaceObject.smallProgram 5
  else fun _ => 0

/-- Fifteen processes of 17 pages each have all the frames. -/
def fifteenProcesses : CreationState where
  fs :=
    { disk := oneProgram
      freeMapFile := ⟨⟨oneProgram 0⟩, 0⟩
      directoryFile := ⟨⟨oneProgram 1⟩, 0⟩
      currentDirectory := ⟨⟨oneProgram 1⟩, 0⟩
      fileTable := OpenFileTable.new fun _ => none }
  machine := ⟨fun _ => 0, fun _ => 0, fun i => pageEntry i i, 17⟩
  fprovider := ⟨⟨NumPhysPages, fun _ => 255⟩, NumPhysPages, false, rfl⟩
  pids := fun k => decide (k < 15)
  nbProcesses := 15

/-- One more process is refused: the file stays open, and the destructor looks at 17 entries and
51 pointers that nobody has written. -/
theorem not_leavesNoTrace_fifteen :
    (fifteenProcesses.doUserProcessCreate (fun _ _ => 0) [97] (fun _ _ => 0) .zero
      (fun _ => 0)).map (fun r => (r.1, r.2.1.fs.fileTable.nbFiles, r.2.2.length)) =
        .ok (-1, 1, 68) ∧
      ¬ fifteenProcesses.LeavesNoTrace (fun _ _ => 0) [97] (fun _ _ => 0) fun _ => 0 := by
  have hcreate : (fifteenProcesses.doUserProcessCreate (fun _ _ => 0) [97] (fun _ _ => 0) .zero
      (fun _ => 0)).map (fun r => (r.1, r.2.1.fs.fileTable.nbFiles, r.2.2.length)) =
        .ok (-1, 1, 68) := by decide +kernel
  refine ⟨hcreate, fun hclean => ?_⟩
  cases hresult : fifteenProcesses.doUserProcessCreate (fun _ _ => 0) [97] (fun _ _ => 0) .zero
      (fun _ => 0) with
  | error fault =>
      rw [hresult] at hcreate
      cases hcreate
  | ok result =>
      obtain ⟨i, st', uses⟩ := result
      rw [hresult] at hcreate
      have hequal := Except.ok.inj hcreate
      simp only [Prod.mk.injEq] at hequal
      obtain ⟨rfl, -, hlength⟩ := hequal
      obtain ⟨-, -, -, -, rfl⟩ := hclean .zero st' uses hresult
      cases hlength

end CreationState

end Nachos
