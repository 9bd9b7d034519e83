/-
# Failing operations change nothing

Creations and removals work on copies in memory and write them back only after
the last test. So a call that reports failure has not written anything, and the
temporary change of directory is undone on every way out.
-/

import Nachos.Filesys.Format
import Nachos.Filesys.Path
import Nachos.Filesys.Removal

namespace Nachos

open Base

/-- The operations that change the tree. -/
inductive Update
  | createFile (path : List UInt8) (initialSize : ℤ)
  | createDir (path : List UInt8)
  | removeFile (path : List UInt8)
  | removeDir (path : List UInt8)

namespace Update

/-- Perform the operation. -/
def run (update : Update) (heap : Heap) (fs : FileSystem) : Except Fault (Bool × FileSystem) :=
  match update with
  | createFile path initialSize => fs.createFile heap path initialSize
  | createDir path => fs.createDir heap path
  | removeFile path => fs.removeFile heap path
  | removeDir path => fs.removeDir heap path

end Update

namespace FileSystem

/-- A call that changes the tree either fails and changes nothing, or succeeds and
changes nothing but the disk. -/
def Outcome (fs : FileSystem) (result : Bool) (fs' : FileSystem) : Prop :=
  result = false ∧ fs' = fs ∨ result = true ∧ ∃ disk, fs' = { fs with disk := disk }

variable {fs fs' : FileSystem} {heap : Heap} {name : Name} {result : Bool}

namespace Outcome

theorem unchanged (h : fs.Outcome false fs') : fs' = fs := by
  rcases h with ⟨-, hsame⟩ | ⟨htrue, -⟩
  · exact hsame
  · cases htrue

theorem fileTable (h : fs.Outcome result fs') : fs'.fileTable = fs.fileTable := by
  rcases h with ⟨-, rfl⟩ | ⟨-, disk, rfl⟩ <;> rfl

/-- A test that reports failure and leaves the state as it is. -/
private theorem of_ite {p : Prop} [Decidable p] {rest : Except Fault (Bool × FileSystem)}
    (hrest : rest = .ok (result, fs') → fs.Outcome result fs')
    (h : (if p then pure (false, fs) else rest) = .ok (result, fs')) : fs.Outcome result fs' := by
  split at h
  · cases h
    exact Or.inl ⟨rfl, rfl⟩
  · exact hrest h

/-- One step of a call. -/
private theorem of_bind {α : Type} {step : Except Fault α}
    {rest : α → Except Fault (Bool × FileSystem)}
    (hrest : ∀ a, rest a = .ok (result, fs') → fs.Outcome result fs')
    (h : step >>= rest = .ok (result, fs')) : fs.Outcome result fs' := by
  obtain ⟨a, -, h⟩ := Except.bind_eq_ok.mp h
  exact hrest a h

private theorem of_true {disk : Disk}
    (h : (pure (true, { fs with disk := disk }) : Except Fault (Bool × FileSystem)) =
      .ok (result, fs')) : fs.Outcome result fs' := by
  cases h
  exact Or.inr ⟨rfl, disk, rfl⟩

theorem createFile {initialSize : ℤ}
    (h : fs.createFileInCurrentDirectory heap name initialSize = .ok (result, fs')) :
    fs.Outcome result fs' := by
  refine of_bind (fun directory h => ?_) h
  refine of_ite (fun h => of_bind (fun freeMap h => ?_) h) h
  refine of_ite (fun h => of_ite (fun h => of_ite (fun h => ?_) h) h) h
  exact of_bind (fun _ h => of_bind (fun _ h => of_bind (fun _ h => of_true h) h) h) h

theorem createDir (h : fs.createDirInCurrentDirectory heap name = .ok (result, fs')) :
    fs.Outcome result fs' := by
  refine of_bind (fun directory h => ?_) h
  refine of_ite (fun h => of_bind (fun freeMap h => ?_) h) h
  refine of_ite (fun h => of_ite (fun h => of_ite (fun h => of_ite (fun h => ?_) h) h) h) h
  refine of_bind (fun _ h => of_bind (fun _ h => of_bind (fun _ h => ?_) h) h) h
  exact of_bind (fun _ h => of_bind (fun _ h => of_true h) h) h

theorem removeEntry {directory : Directory} {header : FileHeader} {sector : ℤ}
    (h : fs.removeEntry heap directory header sector name = .ok (result, fs')) :
    fs.Outcome result fs' := by
  refine of_bind (fun _ h => of_bind (fun _ h => of_bind (fun _ h => ?_) h) h) h
  exact of_bind (fun _ h => of_bind (fun _ h => of_true h) h) h

theorem removeFile (h : fs.removeFileInCurrentDirectory heap name = .ok (result, fs')) :
    fs.Outcome result fs' := by
  refine of_bind (fun directory h => of_ite (fun h => ?_) h) h
  exact of_bind (fun fileHdr h => removeEntry h) h

theorem removeDir (h : fs.removeDirInCurrentDirectory heap name = .ok (result, fs')) :
    fs.Outcome result fs' := by
  refine of_bind (fun directory h => of_ite (fun h => ?_) h) h
  refine of_bind (fun header h => of_bind (fun fileDir h => of_bind (fun rmDir h => ?_) h) h) h
  exact of_ite (fun h => removeEntry h) h

/-- On a path: the directory the thread was in is restored. -/
theorem atPath {path : List UInt8} {run : FileSystem → Name → Except Fault (Bool × FileSystem)}
    (hrun : ∀ {fs fs' : FileSystem} {name : Name} {result : Bool},
      run fs name = .ok (result, fs') → fs.Outcome result fs')
    (h : fs.atPath heap path run = .ok (result, fs')) : fs.Outcome result fs' := by
  obtain ⟨name, f, fs₁, hinner, rfl⟩ := atPath_eq_ok h
  obtain ⟨hfalse, rfl⟩ | ⟨htrue, disk, rfl⟩ := hrun hinner
  · exact Or.inl ⟨hfalse, rfl⟩
  · exact Or.inr ⟨htrue, disk, rfl⟩

end Outcome

end FileSystem

namespace Update

/-- What an operation that changes the tree can do. -/
theorem outcome (update : Update) {heap : Heap} {fs fs' : FileSystem} {result : Bool}
    (h : update.run heap fs = .ok (result, fs')) : fs.Outcome result fs' := by
  cases update with
  | createFile path initialSize =>
      simp only [run, FileSystem.createFile] at h
      refine FileSystem.Outcome.atPath ?_ h
      exact FileSystem.Outcome.createFile
  | createDir path =>
      simp only [run, FileSystem.createDir] at h
      refine FileSystem.Outcome.atPath ?_ h
      exact FileSystem.Outcome.createDir
  | removeFile path =>
      simp only [run, FileSystem.removeFile] at h
      refine FileSystem.Outcome.atPath ?_ h
      exact FileSystem.Outcome.removeFile
  | removeDir path =>
      simp only [run, FileSystem.removeDir] at h
      refine FileSystem.Outcome.atPath ?_ h
      exact FileSystem.Outcome.removeDir

/-- **Failing operations are atomic.** Whatever the path, the size, the disk and the
contents of fresh memory: a call that reports failure leaves every sector and the
thread's current directory as they were. -/
theorem unchanged_of_failure (update : Update) {heap : Heap} {fs fs' : FileSystem}
    (h : update.run heap fs = .ok (false, fs')) :
    (∀ s < NumSectors, fs'.disk s = fs.disk s) ∧ fs'.currentDirectory = fs.currentDirectory := by
  rw [(update.outcome h).unchanged]
  exact ⟨fun _ _ => rfl, rfl⟩

/-- Removing a file that is not there, on a freshly formatted disk. -/
theorem unchanged_of_absent : ∃ fs fs', FileSystem.format (fun _ _ => 0) (fun _ _ => 0)
      (fun _ => none) = .ok fs ∧
    (removeFile [97]).run (fun _ _ => 0) fs = .ok (false, fs') ∧
    (∀ s < NumSectors, fs'.disk s = fs.disk s) ∧ fs'.currentDirectory = fs.currentDirectory := by
  obtain ⟨fs, hformat, hformatted, hvalid, -⟩ :=
    FileSystem.format_eq_ok (fun _ _ => 0) (fun _ _ => 0) (fun _ => none)
  have hrun : (removeFile [97]).run (fun _ _ => 0) fs = .ok (false, fs) := by
    rw [run, FileSystem.removeFile, FileSystem.atPath_of_component (by decide),
      hvalid.removeFile_of_absent _ (hformatted.table.findIndex (by decide) (by decide))]
    rfl
  exact ⟨fs, fs, hformat, hrun, unchanged_of_failure (removeFile [97]) hrun⟩

end Update

end Nachos
