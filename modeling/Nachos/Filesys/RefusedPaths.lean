/-
# Paths through missing components and plain files

An operation on a path walks along its directory part before it does anything.
`SetCurrentDir` opens whatever sector `Find` returns: for a name that is not there
that is sector -1, which the disk does not accept, and for the name of a plain file
it is the file's header, so that the file is taken for a directory from then on. The
entry's own flag is not looked at.

All of this is about any disk and any current directory, consistent or not.
-/

import Nachos.Filesys.Failure
import Nachos.Filesys.PathScan

namespace Nachos

open Base

/-! ## The names a walk looks up -/

/-- A component being stored ends in a call with at least its characters. -/
theorem exists_called (below : ℕ → UInt8) {dirName : Name} (i : ℕ) {path : List UInt8}
    (hne : dirName ≠ []) (hname : (0 : UInt8) ∉ dirName) (hpath : (0 : UInt8) ∉ path) :
    ∃ p ∈ (scan below dirName i path).filterMap ScanStep.called,
      dirName.length ≤ p.2.length := by
  induction path generalizing dirName i with
  | nil =>
      rw [scan, endScan_of_ne _ _ hne hname]
      exact ⟨(i, dirName), by simp [ScanStep.called], le_rfl⟩
  | cons c rest ih =>
      rw [List.mem_cons, not_or] at hpath
      rw [scan]
      split
      · rw [endScan_of_ne _ _ hne hname, List.filterMap_append]
        exact ⟨(i, dirName), by simp [ScanStep.called], le_rfl⟩
      · obtain ⟨p, hp, hlength⟩ := ih (i + 1) (show dirName ++ [c] ≠ [] by simp)
          (by simpa [hpath.1] using hname) hpath.2
        rw [List.length_append, List.length_singleton] at hlength
        exact ⟨p, hp, by omega⟩

/-- The writes of a scan stay inside `dirName` when the names it calls with do. -/
theorem scan_write_iff {below : ℕ → UInt8} {dirName : Name} {i : ℕ} {path : List UInt8}
    (hname : (0 : UInt8) ∉ dirName) (hpath : (0 : UInt8) ∉ path) :
    (∀ k, ScanStep.write k ∈ scan below dirName i path → k < FileNameMaxLen) ↔
      ∀ p ∈ (scan below dirName i path).filterMap ScanStep.called,
        p.2.length < FileNameMaxLen := by
  have hend (b : UInt8) (i : ℕ) (dirName : Name) :
      (∀ k, ScanStep.write k ∈ (endScan b i dirName).1 → k < FileNameMaxLen) ↔
        ∀ p ∈ (endScan b i dirName).1.filterMap ScanStep.called,
          p.2.length < FileNameMaxLen := by
    unfold endScan
    split <;> simp [ScanStep.called]
  induction path generalizing dirName i with
  | nil => exact hend _ _ _
  | cons c rest ih =>
      rw [List.mem_cons, not_or] at hpath
      rw [scan]
      split
      · have hnext : (0 : UInt8) ∉ (endScan (below i) i dirName).2 := by
          unfold endScan
          split
          · exact List.not_mem_nil
          · exact hname
        rw [List.filterMap_append, List.forall_mem_append]
        refine Iff.trans ?_ (and_congr (hend (below i) i dirName) (ih hnext hpath.2))
        simp only [List.mem_append, or_imp, forall_and]
      · have hlonger : (0 : UInt8) ∉ dirName ++ [c] := by
          simpa [hpath.1] using hname
        have hcalled : (ScanStep.write dirName.length :: scan below (dirName ++ [c]) (i + 1)
            rest).filterMap ScanStep.called =
            (scan below (dirName ++ [c]) (i + 1) rest).filterMap ScanStep.called := rfl
        have hrest := ih (i := i + 1) hlonger hpath.2
        rw [hcalled]
        refine Iff.trans ⟨fun h k hk => h k (List.mem_cons_of_mem _ hk), fun h k hk => ?_⟩ hrest
        rcases List.mem_cons.mp hk with hequal | hk
        · -- The character just stored is part of a name that is called with later.
          cases hequal
          obtain ⟨p, hp, hlength⟩ := exists_called below (i + 1)
            (show dirName ++ [c] ≠ [] by simp) hlonger hpath.2
          have hshort := hrest.mp h p hp
          rw [List.length_append, List.length_singleton] at hlength
          omega
        · exact h k hk

namespace FileSystem

/-- The names that `ChangeCurrentDir` looks up, each with the place in the path where it
ends. -/
def lookups (heap : Heap) (path : List UInt8) : List (ℕ × Name) :=
  (scan (heap 8) [] 0 (path.takeWhile (· != 0))).filterMap ScanStep.called

/-- `SetCurrentDir` for one name after the other. -/
def follow (heap : Heap) (fs : FileSystem) (names : List (ℕ × Name)) : Except Fault FileSystem :=
  names.foldlM (fun fs p => fs.setCurrentDir (fun n => heap (9 + 2 * p.1 + n)) p.2) fs

/-- Performing a scan is following its names, as long as the writes are inside. -/
theorem run_eq_ok_iff {heap : Heap} {fs fs' : FileSystem} {steps : List ScanStep} :
    steps.foldlM (ScanStep.run heap) fs = .ok fs' ↔
      (∀ k, ScanStep.write k ∈ steps → k < FileNameMaxLen) ∧
        follow heap fs (steps.filterMap ScanStep.called) = .ok fs' := by
  induction steps generalizing fs with
  | nil => simp [follow]
  | cons step steps ih =>
      rw [List.foldlM_cons]
      cases step with
      | read index =>
          have hcalled : (ScanStep.read index :: steps).filterMap ScanStep.called =
              steps.filterMap ScanStep.called := rfl
          rw [ScanStep.run, Except.ok_bind, ih, hcalled]
          simp
      | write index =>
          have hcalled : (ScanStep.write index :: steps).filterMap ScanStep.called =
              steps.filterMap ScanStep.called := rfl
          rw [ScanStep.run, bind_assoc, Except.bind_eq_ok, hcalled]
          simp only [inBounds_eq_ok, pure_bind, ih, exists_and_left, exists_const, List.mem_cons,
            ScanStep.write.injEq, forall_eq_or_imp, and_assoc]
      | call i name =>
          have hcalled : (ScanStep.call i name :: steps).filterMap ScanStep.called =
              (i, name) :: steps.filterMap ScanStep.called := rfl
          rw [ScanStep.run, Except.bind_eq_ok, hcalled, follow, List.foldlM_cons,
            Except.bind_eq_ok]
          simp only [ih, follow, List.mem_cons, reduceCtorEq, false_or]
          constructor
          · rintro ⟨fs₁, hset, hwrites, hrest⟩
            exact ⟨hwrites, fs₁, hset, hrest⟩
          · rintro ⟨hwrites, fs₁, hset, hrest⟩
            exact ⟨fs₁, hset, hwrites, hrest⟩

/-- **When `ChangeCurrentDir` returns**: the names it looks up fit `dirName`, and each of
the calls returns. -/
theorem changeCurrentDir_eq_ok_iff {heap : Heap} {fs fs' : FileSystem} {path : List UInt8} :
    fs.changeCurrentDir heap path = .ok fs' ↔
      (∀ p ∈ lookups heap path, p.2.length < FileNameMaxLen) ∧
        follow heap fs (lookups heap path) = .ok fs' := by
  have hzero : (0 : UInt8) ∉ path.takeWhile (· != 0) := fun hmem => by
    simpa using List.mem_takeWhile_imp hmem
  rw [changeCurrentDir_eq_run, run_eq_ok_iff, scan_write_iff List.not_mem_nil hzero]
  rfl

/-- The names an operation looks up before the last one: with an empty directory part
there is no walk. -/
def dirLookups (heap : Heap) (path : List UInt8) : List (ℕ × Name) :=
  if (splitText path).2 = [] then [] else lookups heap (splitText path).2

/-- The steps of an operation on a path. -/
theorem atPath_eq {α : Type} (fs : FileSystem) (heap : Heap) (path : List UInt8)
    (run : FileSystem → Name → Except Fault (α × FileSystem)) :
    fs.atPath heap path run = splitPathAndName path >>= fun q =>
      (if q.2 ≠ [] then fs.changeCurrentDir heap q.2 else .ok fs) >>= fun fs₁ =>
        run fs₁ q.1 >>= fun r => .ok (r.1, { r.2 with currentDirectory := fs.currentDirectory }) := by
  unfold atPath
  congr
  funext q
  dsimp only
  split <;> rfl

/-- **When an operation on a relative path returns.** -/
theorem atPath_eq_ok_iff {α : Type} {heap : Heap} {fs fs' : FileSystem} {path : List UInt8}
    {run : FileSystem → Name → Except Fault (α × FileSystem)} {result : α}
    (hrelative : (path.takeWhile (· != 0)).head? ≠ some slash) :
    fs.atPath heap path run = .ok (result, fs') ↔
      ((path.takeWhile (· != 0)).length < PathLenMax ∧
        (splitText path).1.length < FileNameMaxLen ∧
        ∀ p ∈ dirLookups heap path, p.2.length < FileNameMaxLen) ∧
      ∃ fs₁ fs₂, follow heap fs (dirLookups heap path) = .ok fs₁ ∧
        run fs₁ (splitText path).1 = .ok (result, fs₂) ∧
        fs' = { fs₂ with currentDirectory := fs.currentDirectory } := by
  have hgo (fs₁ : FileSystem) :
      (if (splitText path).2 ≠ [] then fs.changeCurrentDir heap (splitText path).2
        else .ok fs) = .ok fs₁ ↔
        (∀ p ∈ dirLookups heap path, p.2.length < FileNameMaxLen) ∧
          follow heap fs (dirLookups heap path) = .ok fs₁ := by
    unfold dirLookups
    by_cases hempty : (splitText path).2 = []
    · simp [hempty, follow, pure, Except.pure]
    · simp only [ne_eq, hempty, not_false_eq_true, if_true, if_false, changeCurrentDir_eq_ok_iff]
  rw [atPath_eq, splitPathAndName_eq, assert_of hrelative, Except.ok_bind]
  constructor
  · intro h
    obtain ⟨q, hsplit, h⟩ := Except.bind_eq_ok.mp h
    simp only [Except.bind_eq_ok, inBounds_eq_ok, pure, Except.pure] at hsplit
    obtain ⟨-, hlength, -, hname, hsplit⟩ := hsplit
    obtain rfl := Except.ok.inj hsplit
    obtain ⟨fs₁, hwalk, h⟩ := Except.bind_eq_ok.mp h
    obtain ⟨⟨result', fs₂⟩, hrun, h⟩ := Except.bind_eq_ok.mp h
    cases h
    obtain ⟨hshort, hfollow⟩ := (hgo fs₁).mp hwalk
    exact ⟨⟨hlength, hname, hshort⟩, fs₁, fs₂, hfollow, hrun, rfl⟩
  · rintro ⟨⟨hlength, hname, hshort⟩, fs₁, fs₂, hfollow, hrun, rfl⟩
    rw [inBounds_of hlength, Except.ok_bind, inBounds_of hname, Except.ok_bind, pure_bind]
    refine Except.bind_eq_ok.mpr ⟨fs₁, (hgo fs₁).mpr ⟨hshort, hfollow⟩, ?_⟩
    exact Except.bind_eq_ok.mpr ⟨_, hrun, rfl⟩

/-! ## Where a walk goes wrong -/

/-- How a walk from directory to directory ends. -/
inductive WalkEnd
  /-- Every name was that of a directory. -/
  | arrives
  /-- A name does not exist in the directory reached so far. -/
  | missing
  /-- A name is that of a plain file with its header in `sector`; `rest` comes after it. -/
  | file (sector : ℤ) (rest : List (ℕ × Name))
  /-- A directory or the header of one cannot be read. -/
  | fault

/-- How the walk along `names` ends, going by the flags of the directory entries. -/
def walkEnd (heap : Heap) (fs : FileSystem) : List (ℕ × Name) → WalkEnd
  | [] => .arrives
  | (i, name) :: rest =>
      match fs.fetchCurrentDirectory (heap (9 + 2 * i)) with
      | .error _ => .fault
      | .ok dir =>
          match dir.findIndex name with
          | none => .missing
          | some j =>
              if dir.isDirectory j then
                match OpenFile.new (heap (9 + 2 * i + 1)) fs.disk (dir.sector j) with
                | .error _ => .fault
                | .ok f => walkEnd heap { fs with currentDirectory := f } rest
              else .file (dir.sector j) rest

/-- The open files from which a table of directory entries is read: along the walk and, if
`last` is set, at its end. -/
def consulted (heap : Heap) (last : Bool) (fs : FileSystem) : List (ℕ × Name) → List OpenFile
  | [] => if last then [fs.currentDirectory] else []
  | (i, name) :: rest =>
      fs.currentDirectory ::
        match fs.setCurrentDir (fun n => heap (9 + 2 * i + n)) name with
        | .error _ => []
        | .ok fs => consulted heap last fs rest

section

variable {heap : Heap} {fs fs' : FileSystem} {names rest : List (ℕ × Name)} {i : ℕ} {name : Name}

theorem follow_nil : follow heap fs [] = .ok fs := rfl

theorem follow_cons : follow heap fs ((i, name) :: rest) =
    fs.setCurrentDir (fun n => heap (9 + 2 * i + n)) name >>= fun fs => follow heap fs rest :=
  rfl

/-- There is no sector -1. -/
theorem setCurrentDir_of_missing {h : Heap} {dir : Directory}
    (hfetch : fs.fetchCurrentDirectory (h 0) = .ok dir) (hnone : dir.findIndex name = none) :
    fs.setCurrentDir h name = .error .assertion := by
  have hfind : dir.find name = -1 := by rw [Directory.find, hnone]
  rw [setCurrentDir, hfetch, Except.ok_bind, hfind]
  rfl

theorem setCurrentDir_of_found {h : Heap} {dir : Directory} {j : ℕ}
    (hfetch : fs.fetchCurrentDirectory (h 0) = .ok dir) (hsome : dir.findIndex name = some j) :
    fs.setCurrentDir h name = OpenFile.new (h 1) fs.disk (dir.sector j) >>= fun f =>
      .ok { fs with currentDirectory := f } := by
  have hfind : dir.find name = dir.sector j := by rw [Directory.find, hsome]
  rw [setCurrentDir, hfetch, Except.ok_bind, hfind]
  rfl

/-- A file without bytes reads as a directory without entries. -/
theorem fetchCurrentDirectory_of_empty (u : Mem) (hempty : fs.currentDirectory.hdr.numBytes ≤ 0) :
    fs.fetchCurrentDirectory u = .ok (Directory.new u NumDirEntries) := by
  rw [fetchCurrentDirectory, Directory.fetchFrom, OpenFile.readAt,
    fs.currentDirectory.checkRequest_eq_none (Or.inr hempty)]
  rfl

theorem findIndex_new (u : Mem) (name : Name) :
    (Directory.new u NumDirEntries).findIndex name = none := by
  refine Directory.findIndex_eq_none.mpr fun j hj => ?_
  rw [Directory.matchesName, Directory.inUse_new u (show j < NumDirEntries from hj),
    Bool.false_and]

/-- In a file without bytes every name is missing. -/
theorem walkEnd_of_empty (hempty : fs.currentDirectory.hdr.numBytes ≤ 0) (hne : names ≠ []) :
    walkEnd heap fs names = .missing := by
  cases names with
  | nil => exact absurd rfl hne
  | cons p rest =>
      rw [walkEnd, fetchCurrentDirectory_of_empty _ hempty]
      simp only [findIndex_new]

/-- A walk to a missing name stops the program. -/
theorem follow_of_missing (h : walkEnd heap fs names = .missing) :
    follow heap fs names = .error .assertion := by
  induction names generalizing fs with
  | nil => cases h
  | cons p rest ih =>
      obtain ⟨i, name⟩ := p
      rw [walkEnd] at h
      split at h
      · cases h
      · rename_i dir hfetch
        split at h
        · rename_i hnone
          have hset := setCurrentDir_of_missing (h := fun n => heap (9 + 2 * i + n)) hfetch hnone
          rw [follow_cons, hset]
          rfl
        · rename_i j hsome
          have hset := setCurrentDir_of_found (h := fun n => heap (9 + 2 * i + n)) hfetch hsome
          split at h
          · split at h
            · cases h
            · rename_i f hopen
              rw [hopen, Except.ok_bind] at hset
              rw [follow_cons, hset, Except.ok_bind]
              exact ih h
          · cases h

/-- **A walk to a plain file goes on through the file**: its header is opened, and what
comes after is looked up in it. -/
theorem follow_of_file {sector : ℤ} (last : Bool) (h : walkEnd heap fs names = .file sector rest) :
    ∃ u, follow heap fs names = (OpenFile.new u fs.disk sector >>= fun f =>
        follow heap { fs with currentDirectory := f } rest) ∧
      fs.currentDirectory ∈ consulted heap last fs names ∧
      ∀ f, OpenFile.new u fs.disk sector = .ok f →
        ∀ g ∈ consulted heap last { fs with currentDirectory := f } rest,
          g ∈ consulted heap last fs names := by
  induction names generalizing fs with
  | nil => cases h
  | cons p names ih =>
      obtain ⟨i, name⟩ := p
      rw [walkEnd] at h
      split at h
      · cases h
      · rename_i dir hfetch
        split at h
        · cases h
        · rename_i j hsome
          have hset := setCurrentDir_of_found (h := fun n => heap (9 + 2 * i + n)) hfetch hsome
          split at h
          · split at h
            · cases h
            · rename_i f hopen
              obtain ⟨u, hfollow, -, hlater⟩ := ih h
              rw [hopen, Except.ok_bind] at hset
              refine ⟨u, ?_, List.mem_cons_self, fun f' hf' g hg => ?_⟩
              · rw [follow_cons, hset, Except.ok_bind]
                exact hfollow
              · rw [consulted, hset]
                exact List.mem_cons_of_mem _ (hlater f' hf' g hg)
          · cases h
            refine ⟨heap (9 + 2 * i + 1), ?_, List.mem_cons_self, fun f hf g hg => ?_⟩
            · rw [follow_cons, hset, bind_assoc]
              rfl
            · rw [hf, Except.ok_bind] at hset
              rw [consulted, hset]
              exact List.mem_cons_of_mem _ hg

theorem follow_eq_ok (h : follow heap fs names = .ok fs') :
    ∃ f, fs' = { fs with currentDirectory := f } := by
  induction names generalizing fs with
  | nil =>
      obtain rfl : fs = fs' := Except.ok.inj h
      exact ⟨fs.currentDirectory, rfl⟩
  | cons p rest ih =>
      obtain ⟨fs₁, hset, hrest⟩ := Except.bind_eq_ok.mp h
      obtain ⟨f, rfl⟩ := setCurrentDir_eq_ok hset
      obtain ⟨g, hg⟩ := ih hrest
      exact ⟨g, hg⟩

/-- An operation that leaves the directory it works in alone returns `result` and changes
nothing exactly when it does so where the walk ends. -/
theorem atPath_unchanged_iff {α : Type} {path : List UInt8}
    {run : FileSystem → Name → Except Fault (α × FileSystem)} {result : α}
    (hrelative : (path.takeWhile (· != 0)).head? ≠ some slash)
    (hstays : ∀ {fs₁ fs₂ : FileSystem} {name : Name}, run fs₁ name = .ok (result, fs₂) →
      fs₂.currentDirectory = fs₁.currentDirectory) :
    fs.atPath heap path run = .ok (result, fs) ↔
      ((path.takeWhile (· != 0)).length < PathLenMax ∧
        (splitText path).1.length < FileNameMaxLen ∧
        ∀ p ∈ dirLookups heap path, p.2.length < FileNameMaxLen) ∧
      ∃ fs₁, follow heap fs (dirLookups heap path) = .ok fs₁ ∧
        run fs₁ (splitText path).1 = .ok (result, fs₁) := by
  rw [atPath_eq_ok_iff hrelative]
  refine and_congr_right fun _ => ⟨?_, ?_⟩
  · rintro ⟨fs₁, fs₂, hfollow, hrun, hequal⟩
    obtain ⟨f, rfl⟩ := follow_eq_ok hfollow
    have hsame : fs₂ = { fs with currentDirectory := f } := by
      have hcurrent := hstays hrun
      cases fs₂
      cases hcurrent
      rw [hequal]
    exact ⟨_, hfollow, by rw [hrun, hsame]⟩
  · rintro ⟨fs₁, hfollow, hrun⟩
    obtain ⟨f, rfl⟩ := follow_eq_ok hfollow
    exact ⟨_, _, hfollow, hrun, rfl⟩

/-- The directory the walk is in is consulted. -/
theorem mem_consulted {last : Bool} (h : last = true ∨ names ≠ []) :
    fs.currentDirectory ∈ consulted heap last fs names := by
  cases names with
  | nil =>
      have hlast : last = true := by simpa using h
      rw [consulted, if_pos hlast]
      exact List.mem_singleton_self _
  | cons p rest => exact List.mem_cons_self

end

end FileSystem

/-! ## Creations in an empty table -/

/-- In a table without entries a creation is only rejected for lack of sectors. -/
theorem rejected_new_iff {u : Mem} {map : BitMap} {name : Name} {isDir : Bool} {size : ℤ}
    {uninit : Mem} (hbits : map.numBits = 1024) (hlow : -2 ^ 31 ≤ size) (hhigh : size < 2 ^ 31) :
    Rejected (Directory.new u NumDirEntries) map name isDir size uninit ↔
      map.numClear < (divRoundUp size 128).toNat + 1 := by
  have hname : (Directory.new u NumDirEntries).find name = -1 := by
    rw [Directory.find, FileSystem.findIndex_new]
  have hslot (s : ℤ) : ((Directory.new u NumDirEntries).addEntry name isDir s).1 = true :=
    Directory.addEntry_of_free isDir s (FileSystem.findIndex_new _ _)
      (show 0 < NumDirEntries by decide) (Directory.inUse_new u (by decide))
  obtain ⟨n, hn, hclear, -, hfind⟩ | ⟨hfull, hfind⟩ := map.find_cases
  · have hcount := BitMap.numClear_markBit hn hclear
    have halloc := (FileHeader.newZeroed uninit).allocate_cases (map.markBit n)
      (by rw [BitMap.numBits_markBit, hbits]; norm_num) hlow hhigh
    constructor
    · intro hrejected
      by_contra hroom
      refine Rejected.not_iff.mpr ⟨hname, by rw [hfind]; simp, hslot _, ?_⟩ hrejected
      rw [hfind]
      obtain ⟨h', -, hfew⟩ | ⟨h₀, h', map', halloc, -⟩ := halloc
      · omega
      · rw [halloc]
    · intro hfew
      refine .noData hname (by rw [hfind]; simp) (hslot _) ?_
      rw [hfind]
      obtain ⟨h', halloc, -⟩ | ⟨h₀, h', map', halloc, done, -⟩ := halloc
      · rw [halloc]
      · have hcard := done.card_clearSet
        rw [← BitMap.numClear_eq_card, ← BitMap.numClear_eq_card] at hcard
        omega
  · have hempty := BitMap.numClear_of_full hfull
    exact ⟨fun _ => by omega, fun _ => .noHeader hname (by rw [hfind])⟩

/-! ## The operations on a path -/

/-- The operations that take a path. -/
inductive PathCall
  | createFile (initialSize : BitVec 32)
  | createDir
  | removeFile
  | removeDir
  | openFile (mode : UInt8)
  | changeCurrentDir

namespace PathCall

/-- The call reports failure, and disk, open-file table and current directory are what
they were. -/
def Refused (call : PathCall) (heap : Heap) (fs : FileSystem) (path : List UInt8) : Prop :=
  match call with
  | createFile size => fs.createFile heap path size.toInt = .ok (false, fs)
  | createDir => fs.createDir heap path = .ok (false, fs)
  | removeFile => fs.removeFile heap path = .ok (false, fs)
  | removeDir => fs.removeDir heap path = .ok (false, fs)
  | openFile mode => fs.openFile heap path mode = .ok (-1, fs)
  | changeCurrentDir => fs.changeCurrentDir heap path = .ok fs

/-- The same of the operation on a name in the current directory. -/
def RefusedHere (call : PathCall) (heap : Heap) (fs : FileSystem) (name : Name) : Prop :=
  match call with
  | createFile size => fs.createFileInCurrentDirectory heap name size.toInt = .ok (false, fs)
  | createDir => fs.createDirInCurrentDirectory heap name = .ok (false, fs)
  | removeFile => fs.removeFileInCurrentDirectory heap name = .ok (false, fs)
  | removeDir => fs.removeDirInCurrentDirectory heap name = .ok (false, fs)
  | openFile mode => fs.openInCurrentDirectory heap name mode = .ok (-1, fs)
  | changeCurrentDir => False

/-- The names looked up along the directory part of the path. -/
def lookups (call : PathCall) (heap : Heap) (path : List UInt8) : List (ℕ × Name) :=
  match call with
  | changeCurrentDir => FileSystem.lookups heap path
  | _ => FileSystem.dirLookups heap path

/-- After the walk the operation looks up the last name. -/
def looksUpName : PathCall → Bool
  | changeCurrentDir => false
  | _ => true

/-- **A path through a missing or non-directory component is refused.** No sector outside
the disk is read, because that stops the program. -/
structure RefusedCleanly (call : PathCall) (heap : Heap) (fs : FileSystem) (path : List UInt8) :
    Prop where
  refused : call.Refused heap fs path
  /-- The contents of the file in the way are not read as directory entries. -/
  entries : ∀ sector rest, fs.walkEnd heap (call.lookups heap path) = .file sector rest →
    ∀ f ∈ fs.consulted heap call.looksUpName (call.lookups heap path),
      f.OpenedOn fs.disk sector.toNat → (fs.disk.header sector.toNat).numBytes ≤ 0

/-- What the operation does in a table without entries: it finds nothing to remove or to
open, and a creation fails when there are not enough free sectors. -/
def FailsInEmpty (call : PathCall) (heap : Heap) (fs : FileSystem) : Prop :=
  match call with
  | createFile size => ∃ map, fs.fetchFreeMap (heap 1) = .ok map ∧
      map.numClear < (divRoundUp size.toInt 128).toNat + 1
  | createDir => ∃ map, fs.fetchFreeMap (heap 1) = .ok map ∧
      map.numClear < (divRoundUp 4000 128).toNat + 1
  | removeFile => True
  | removeDir => True
  | openFile _ => True
  | changeCurrentDir => False

/-- The case in which the path is refused nevertheless: everything fits its buffer, and the
component in the way is the last of the directory part and a file without bytes, in which
the operation fails. -/
structure Spared (call : PathCall) (heap : Heap) (fs : FileSystem) (path : List UInt8) : Prop where
  length : (path.takeWhile (· != 0)).length < PathLenMax
  name : (FileSystem.splitText path).1.length < FileNameMaxLen
  components : ∀ p ∈ call.lookups heap path, p.2.length < FileNameMaxLen
  file : ∃ sector, fs.walkEnd heap (call.lookups heap path) = .file sector [] ∧
    (0 ≤ sector ∧ sector < 1024) ∧ (fs.disk.header sector.toNat).numBytes ≤ 0
  fails : call.FailsInEmpty heap fs

variable {call : PathCall} {heap : Heap} {fs : FileSystem} {path : List UInt8} {name : Name}

/-- An operation with a last name is refused when it is where the walk ends. -/
theorem refused_iff (hcall : call.looksUpName = true)
    (hrelative : (path.takeWhile (· != 0)).head? ≠ some slash) :
    call.Refused heap fs path ↔
      ((path.takeWhile (· != 0)).length < PathLenMax ∧
        (FileSystem.splitText path).1.length < FileNameMaxLen ∧
        ∀ p ∈ call.lookups heap path, p.2.length < FileNameMaxLen) ∧
      ∃ fs₁, FileSystem.follow heap fs (call.lookups heap path) = .ok fs₁ ∧
        call.RefusedHere heap fs₁ (FileSystem.splitText path).1 := by
  cases call with
  | createFile size =>
      exact FileSystem.atPath_unchanged_iff hrelative fun h => by
        rw [(FileSystem.Outcome.createFile h).unchanged]
  | createDir =>
      exact FileSystem.atPath_unchanged_iff hrelative fun h => by
        rw [(FileSystem.Outcome.createDir h).unchanged]
  | removeFile =>
      exact FileSystem.atPath_unchanged_iff hrelative fun h => by
        rw [(FileSystem.Outcome.removeFile h).unchanged]
  | removeDir =>
      exact FileSystem.atPath_unchanged_iff hrelative fun h => by
        rw [(FileSystem.Outcome.removeDir h).unchanged]
  | openFile mode =>
      refine FileSystem.atPath_unchanged_iff hrelative fun h => ?_
      obtain ⟨⟨i, table⟩, -, h⟩ := Except.bind_eq_ok.mp h
      cases h
      rfl
  | changeCurrentDir => cases hcall

/-- A creation that reads the free map and then asks for a number of sectors. -/
theorem creation_fails_iff {create : Except Fault (Bool × FileSystem)} {n : ℕ}
    (herror : ∀ e, fs.fetchFreeMap (heap 1) = .error e → create = .error e)
    (hok : ∀ map, fs.fetchFreeMap (heap 1) = .ok map → map.numBits = 1024 →
      (create = .ok (false, fs) ↔ map.numClear < n)) :
    create = .ok (false, fs) ↔ ∃ map, fs.fetchFreeMap (heap 1) = .ok map ∧ map.numClear < n := by
  cases hmap : fs.fetchFreeMap (heap 1) with
  | error e =>
      rw [herror e hmap]
      exact iff_of_false nofun nofun
  | ok map =>
      have hbits : map.numBits = 1024 :=
        (BitMap.numBits_fetchFrom hmap).trans (BitMap.numBits_new (heap 1) NumSectors)
      rw [hok map hmap hbits]
      simp

/-- What the operations do in a file without bytes. -/
theorem refusedHere_of_empty (hempty : fs.currentDirectory.hdr.numBytes ≤ 0) :
    call.RefusedHere heap fs name ↔ call.FailsInEmpty heap fs := by
  have hfetch := FileSystem.fetchCurrentDirectory_of_empty (heap 0) hempty
  have hfind : (Directory.new (heap 0) NumDirEntries).find name = -1 := by
    rw [Directory.find, FileSystem.findIndex_new]
  cases call with
  | createFile size =>
      have hlow := size.le_toInt
      have hhigh := size.toInt_lt
      refine creation_fails_iff (fun e hmap => ?_) fun map hmap hbits =>
        (FileSystem.createFile_eq_false_iff hfetch hmap).trans
          (rejected_new_iff hbits (by omega) (by omega))
      simp only [FileSystem.createFileInCurrentDirectory, hfetch, Except.ok_bind, hfind, ne_eq,
        not_true_eq_false, if_false, hmap, Except.error_bind]
  | createDir =>
      refine creation_fails_iff (fun e hmap => ?_) fun map hmap hbits =>
        (FileSystem.createDir_eq_false_iff hfetch hmap).trans
          (rejected_new_iff hbits (by omega) (by omega))
      simp only [FileSystem.createDirInCurrentDirectory, hfetch, Except.ok_bind, hfind, ne_eq,
        not_true_eq_false, if_false, hmap, Except.error_bind]
  | removeFile =>
      refine iff_of_true ?_ trivial
      rw [RefusedHere, FileSystem.removeFileInCurrentDirectory, hfetch, Except.ok_bind, hfind]
      rfl
  | removeDir =>
      refine iff_of_true ?_ trivial
      rw [RefusedHere, FileSystem.removeDirInCurrentDirectory, hfetch, Except.ok_bind, hfind]
      rfl
  | openFile mode =>
      refine iff_of_true ?_ trivial
      change FileSystem.openInCurrentDirectory fs heap name mode = _
      rw [FileSystem.openInCurrentDirectory, OpenFileTable.openFile]
      change fs.fetchCurrentDirectory (heap 0) >>= _ >>= _ = _
      rw [hfetch, Except.ok_bind]
      simp only [hfind]
      rfl
  | changeCurrentDir => exact Iff.rfl

/-- The file a walk has gone into is consulted, so it has no bytes when the call is
refused. -/
theorem RefusedCleanly.enters_empty (h : call.RefusedCleanly heap fs path) {sector : ℤ}
    {rest : List (ℕ × Name)} {fs₁ : FileSystem}
    (hend : fs.walkEnd heap (call.lookups heap path) = .file sector rest)
    (hfollow : FileSystem.follow heap fs (call.lookups heap path) = .ok fs₁)
    (hread : call.looksUpName = true ∨ rest ≠ []) :
    (0 ≤ sector ∧ sector < 1024) ∧ (fs.disk.header sector.toNat).numBytes ≤ 0 ∧ rest = [] ∧
      fs₁.currentDirectory.hdr.numBytes ≤ 0 ∧ ∃ f, fs₁ = { fs with currentDirectory := f } := by
  obtain ⟨u, hthrough, -, hlater⟩ :=
    FileSystem.follow_of_file call.looksUpName hend
  rw [hthrough] at hfollow
  obtain ⟨f, hopen, hfollow⟩ := Except.bind_eq_ok.mp hfollow
  obtain ⟨hrange, hopened, -⟩ := OpenFile.new_eq_ok hopen
  have hbytes := h.entries sector rest hend f (hlater f hopen f (FileSystem.mem_consulted hread))
    hopened
  have hempty : ({ fs with currentDirectory := f } : FileSystem).currentDirectory.hdr.numBytes ≤
      0 := by
    rw [FileHeader.SameObject.numBytes hopened]
    exact hbytes
  -- With a further component the walk would have stopped the program.
  have hlast : rest = [] := by
    by_contra hmore
    rw [FileSystem.follow_of_missing (FileSystem.walkEnd_of_empty hempty hmore)] at hfollow
    cases hfollow
  subst hlast
  rw [FileSystem.follow_nil] at hfollow
  rw [← Except.ok.inj hfollow]
  exact ⟨hrange, hbytes, rfl, hempty, f, rfl⟩

/-- `ChangeCurrentDir` never refuses such a path. -/
theorem not_refusedCleanly_changeCurrentDir
    (hbad : fs.walkEnd heap (changeCurrentDir.lookups heap path) = .missing ∨
      ∃ sector rest, fs.walkEnd heap (changeCurrentDir.lookups heap path) = .file sector rest) :
    ¬ changeCurrentDir.RefusedCleanly heap fs path := by
  intro h
  obtain ⟨-, hfollow⟩ := FileSystem.changeCurrentDir_eq_ok_iff.mp h.refused
  change FileSystem.follow heap fs (changeCurrentDir.lookups heap path) = .ok fs at hfollow
  obtain hend | ⟨sector, rest, hend⟩ := hbad
  · rw [FileSystem.follow_of_missing hend] at hfollow
    cases hfollow
  · have hlast : rest = [] := by
      by_contra hmore
      exact hmore (h.enters_empty hend hfollow (Or.inr hmore)).2.2.1
    subst hlast
    -- The thread was in that file before, and found the file's name in it.
    obtain ⟨u, hthrough, hfirst, -⟩ := FileSystem.follow_of_file false hend
    rw [hthrough] at hfollow
    obtain ⟨f, hopen, hequal⟩ := Except.bind_eq_ok.mp hfollow
    obtain ⟨-, hopened, -⟩ := OpenFile.new_eq_ok hopen
    rw [FileSystem.follow_nil] at hequal
    have hcurrent : fs.currentDirectory = f := by rw [← Except.ok.inj hequal]
    rw [← hcurrent] at hopened
    have hbytes := h.entries sector [] hend fs.currentDirectory hfirst hopened
    rw [← FileHeader.SameObject.numBytes hopened] at hbytes
    rw [FileSystem.walkEnd_of_empty hbytes] at hend
    · cases hend
    · intro hnil
      rw [hnil] at hend
      cases hend

/-- **When a path with a missing or non-directory component is refused.** On any disk, from
any directory and whatever the memory holds. -/
theorem refusedCleanly_iff_spared (call : PathCall) (heap : Heap) (fs : FileSystem)
    (path : List UInt8) (hrelative : (path.takeWhile (· != 0)).head? ≠ some slash)
    (hbad : fs.walkEnd heap (call.lookups heap path) = .missing ∨
      ∃ sector rest, fs.walkEnd heap (call.lookups heap path) = .file sector rest) :
    call.RefusedCleanly heap fs path ↔ call.Spared heap fs path := by
  cases hcall : call.looksUpName with
  | false =>
      cases call with
      | changeCurrentDir =>
          exact iff_of_false (not_refusedCleanly_changeCurrentDir hbad) fun h => h.fails
      | _ => cases hcall
  | true =>
      constructor
      · intro h
        obtain ⟨⟨hlength, hname, hshort⟩, fs₁, hfollow, hhere⟩ :=
          (refused_iff hcall hrelative).mp h.refused
        obtain hend | ⟨sector, rest, hend⟩ := hbad
        · rw [FileSystem.follow_of_missing hend] at hfollow
          cases hfollow
        · obtain ⟨hrange, hbytes, rfl, hempty, f, rfl⟩ :=
            h.enters_empty hend hfollow (Or.inl hcall)
          exact ⟨hlength, hname, hshort, ⟨sector, hend, hrange, hbytes⟩,
            (refusedHere_of_empty hempty).mp hhere⟩
      · intro h
        obtain ⟨sector, hend, hrange, hbytes⟩ := h.file
        obtain ⟨u, hthrough, -⟩ := FileSystem.follow_of_file true hend
        obtain ⟨f, hopen, hopened, -⟩ := OpenFile.new_of_lt u fs.disk
          (show sector.toNat < 1024 by omega)
        rw [Int.toNat_of_nonneg hrange.1] at hopen
        rw [hopen, Except.ok_bind, FileSystem.follow_nil] at hthrough
        have hempty : ({ fs with currentDirectory := f } : FileSystem).currentDirectory.hdr.numBytes
            ≤ 0 := by
          rw [FileHeader.SameObject.numBytes hopened]
          exact hbytes
        refine ⟨(refused_iff hcall hrelative).mpr ⟨⟨h.length, h.name, h.components⟩, _, hthrough,
          (refusedHere_of_empty hempty).mpr h.fails⟩, fun sector' rest hend' _ _ _ => ?_⟩
        rw [hend] at hend'
        cases hend'
        exact hbytes

/-- A file `a` without bytes is created on a fresh disk: removing `a/y` is refused. -/
theorem refusedCleanly_empty_file : ∃ fs₀ fs₁,
    FileSystem.format (fun _ _ => 0) (fun _ _ => 0) (fun _ => none) = .ok fs₀ ∧
      fs₀.createFile (fun _ _ => 0) [97] 0 = .ok (true, fs₁) ∧
      fs₁.walkEnd (fun _ _ => 0) (removeFile.lookups (fun _ _ => 0) [97, 47, 121]) = .file 5 [] ∧
      removeFile.RefusedCleanly (fun _ _ => 0) fs₁ [97, 47, 121] := by
  obtain ⟨fs₀, hformat, hformatted, hvalid, -⟩ :=
    FileSystem.format_eq_ok (fun _ _ => 0) (fun _ _ => 0) (fun _ => none)
  obtain ⟨i, disk₁, hcreate, ins, hbytes, -⟩ := hvalid.createFile_of_formatted
    hformatted (fun _ _ => 0) [97] 0 (by decide) (by decide) (by decide) (by omega)
  obtain ⟨dir, hfetch, same⟩ := (hvalid.of_inserted ins).fetchCurrentDirectory fun _ => 0
  have hlookups : removeFile.lookups (fun _ _ => 0) [97, 47, 121] = [(1, [97])] := by decide
  have hindex : dir.findIndex [97] = some i := (same.findIndex _).trans ins.findIndex
  have hentry := same.sameEntry i ins.slot.1
  have hend : ({ fs₀ with disk := disk₁ } : FileSystem).walkEnd (fun _ _ => 0) [(1, [97])] =
      .file 5 [] := by
    simp only [FileSystem.walkEnd, hfetch, hindex, hentry.isDirectory, hentry.sector,
      Consistent.isDirectory_new ins, Consistent.sector_new ins, Bool.false_eq_true, if_false]
    rfl
  refine ⟨fs₀, _, hformat, hcreate, by rw [hlookups, hend], ?_⟩
  refine (refusedCleanly_iff_spared removeFile (fun _ _ => 0) _ [97, 47, 121] (by decide)
    (Or.inr ⟨5, [], by rw [hlookups, hend]⟩)).mpr
    ⟨by decide, by decide, by rw [hlookups]; decide, ⟨5, by rw [hlookups, hend], by decide, ?_⟩,
      trivial⟩
  change (disk₁.header 5).numBytes ≤ 0
  rw [hbytes]
  decide

/-- On a fresh disk, a path through a directory that is not there stops the program. -/
theorem not_refusedCleanly_missing : ∃ fs,
    FileSystem.format (fun _ _ => 0) (fun _ _ => 0) (fun _ => none) = .ok fs ∧
      fs.walkEnd (fun _ _ => 0) (removeFile.lookups (fun _ _ => 0) [120, 47, 121]) = .missing ∧
      ¬ removeFile.RefusedCleanly (fun _ _ => 0) fs [120, 47, 121] := by
  obtain ⟨fs, hformat, hformatted, hvalid, -⟩ :=
    FileSystem.format_eq_ok (fun _ _ => 0) (fun _ _ => 0) (fun _ => none)
  obtain ⟨dir, hfetch, same⟩ := hvalid.fetchCurrentDirectory fun _ => 0
  have hlookups : removeFile.lookups (fun _ _ => 0) [120, 47, 121] = [(1, [120])] := by decide
  have hindex : dir.findIndex [120] = none :=
    (same.findIndex _).trans (hformatted.table.findIndex (by decide) (by decide))
  have hend : fs.walkEnd (fun _ _ => 0) (removeFile.lookups (fun _ _ => 0) [120, 47, 121]) =
      .missing := by
    simp only [hlookups, FileSystem.walkEnd, hfetch, hindex]
  refine ⟨fs, hformat, hend, fun h => ?_⟩
  obtain ⟨-, fs₁, hfollow, -⟩ := (refused_iff rfl (by decide)).mp h.refused
  rw [FileSystem.follow_of_missing hend] at hfollow
  cases hfollow

end PathCall

end Nachos
