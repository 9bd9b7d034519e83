/-
# Runs of one thread on the tree

Neither removal looks at the directory flag of the entry, nor at whether the name is
special, so each can free what is still in use: on a fresh disk `RemoveFile(".")`
frees the root directory. A run that keeps to the conditions below keeps the disk
consistent, and then a removal frees nothing that can still be reached.
-/

import Nachos.Base.Trace
import Nachos.Filesys.Updates

namespace Nachos

open Base

/-- The calls of a thread that change the tree or move in it. -/
inductive TreeCall
  | update (update : Update)
  | changeCurrentDir (path : List UInt8)

/-- A call as it was made: with the contents of fresh memory and what it returned. -/
structure TreeStep where
  call : TreeCall
  heap : Heap
  result : Bool

namespace TreeCall

/-- Perform the call. -/
def run (call : TreeCall) (heap : Heap) (fs : FileSystem) : Except Fault (Bool × FileSystem) :=
  match call with
  | update u => u.run heap fs
  | changeCurrentDir path => (true, ·) <$> fs.changeCurrentDir heap path

/-- The step from one state to the next. -/
def Step (fs : FileSystem) (step : TreeStep) (fs' : FileSystem) : Prop :=
  step.call.run step.heap fs = .ok (step.result, fs')

/-- The entry that `path` stands for satisfies `P`, if there is one. -/
def AtEntry (fs : FileSystem) (path : List UInt8) (P : Directory → Name → ℕ → Prop) : Prop :=
  ∃ p name, fs.locate path = some (p, name) ∧
    ∀ i, (fs.disk.dirTable p).findIndex name = some i → P (fs.disk.dirTable p) name i

/-- What a call has to respect, given the state before it. The directories on a path
exist. A file is no larger than a header can list. The stale header a new directory
is written through fits. `RemoveFile` is not given a directory. `RemoveDir` is given
a directory other than the current one, not by a special name, and the words behind
its header in memory name no sector in use. -/
def Safe (fs : FileSystem) (heap : Heap) : TreeCall → Prop
  | update (.createFile path initialSize) =>
      (fs.locate path).isSome ∧ -2 ^ 31 ≤ initialSize ∧ initialSize ≤ MaxFileSize
  | update (.createDir path) =>
      (fs.locate path).isSome ∧
        ∀ f, OpenFile.new (heap 4) fs.disk fs.disk.freeMap.find.1 = .ok f → f.hdr.FitsNewDir fs.disk
  | update (.removeFile path) => AtEntry fs path fun dir _ i => dir.isDirectory i = false
  | update (.removeDir path) => AtEntry fs path fun dir name i =>
      name ≠ Directory.dot ∧ name ≠ Directory.dotDot ∧ dir.isDirectory i = true ∧
        (dir.sector i).toNat ≠ fs.here ∧
        ∀ header, (FileHeader.newZeroed (heap 1)).fetchFrom fs.disk (dir.sector i).toNat =
            .ok header → ∀ k, 30 ≤ k → k < header.numSectors.toNat →
          ¬ fs.disk.InUse (header.dataSectors k).toNat
  | changeCurrentDir path => (fs.goesTo path).isSome

/-- What a removal that reports success may have removed: `RemoveFile`, an entry
that is not a directory; `RemoveDir`, a directory whose entries in use are special.
In both cases the name is not special. -/
def RemovesRightly (fs : FileSystem) : TreeCall → Prop
  | update (.removeFile path) => ∃ p name i, fs.locate path = some (p, name) ∧
      (fs.disk.dirTable p).findIndex name = some i ∧
      name ≠ Directory.dot ∧ name ≠ Directory.dotDot ∧ (fs.disk.dirTable p).isDirectory i = false
  | update (.removeDir path) => ∃ p name i, fs.locate path = some (p, name) ∧
      (fs.disk.dirTable p).findIndex name = some i ∧
      name ≠ Directory.dot ∧ name ≠ Directory.dotDot ∧ (fs.disk.dirTable p).isDirectory i = true ∧
      ∀ j < 10, (fs.disk.dirTable ((fs.disk.dirTable p).sector i).toNat).inUse j = true →
        (fs.disk.dirTable ((fs.disk.dirTable p).sector i).toNat).matchesName Directory.dot j = true ∨
          (fs.disk.dirTable ((fs.disk.dirTable p).sector i).toNat).matchesName Directory.dotDot j =
            true
  | _ => True

/-- **One safe call** keeps the file system valid, and removes rightly. -/
theorem step {fs fs' : FileSystem} {step : TreeStep} {L : Layout} {c : ℕ} (hfs : fs.Valid L c)
    (hstep : Step fs step fs') (hsafe : step.call.Safe fs step.heap) :
    (∃ L' c', fs'.Valid L' c') ∧ (step.result = true → step.call.RemovesRightly fs) := by
  obtain ⟨call, heap, result⟩ := step
  have h := hfs.consistent
  cases call with
  | changeCurrentDir path =>
      obtain ⟨p, hgoes⟩ := Option.isSome_iff_exists.mp hsafe
      obtain ⟨f, hchange, hvalid⟩ := hfs.changeCurrentDir heap hgoes
      rw [Step, run, hchange] at hstep
      cases hstep
      exact ⟨⟨L, p, hvalid⟩, fun _ => trivial⟩
  | update u =>
      cases u with
      | createFile path initialSize =>
          obtain ⟨hlocate, hlow, hhigh⟩ := hsafe
          obtain ⟨⟨p, name⟩, hlocate⟩ := Option.isSome_iff_exists.mp hlocate
          obtain ⟨-, rfl⟩ | ⟨-, n, i, disk', -, -, -, hvalid⟩ :=
            hfs.createFile_eq_ok hlocate hlow hhigh hstep
          · exact ⟨⟨L, c, hfs⟩, fun _ => trivial⟩
          · exact ⟨⟨_, c, hvalid⟩, fun _ => trivial⟩
      | createDir path =>
          obtain ⟨hlocate, hfits⟩ := hsafe
          obtain ⟨⟨p, name⟩, hlocate⟩ := Option.isSome_iff_exists.mp hlocate
          obtain ⟨-, rfl⟩ | ⟨-, n, i, disk', -, -, hvalid⟩ :=
            hfs.createDir_eq_ok hlocate hfits hstep
          · exact ⟨⟨L, c, hfs⟩, fun _ => trivial⟩
          · exact ⟨⟨_, c, hvalid⟩, fun _ => trivial⟩
      | removeFile path =>
          obtain ⟨p, name, hlocate, hflag⟩ := hsafe
          obtain ⟨rfl, rfl⟩ | ⟨-, i, t, ht, disk', -, hindex, -, hvalid⟩ :=
            hfs.removeFile_eq_ok hlocate hflag hstep
          · exact ⟨⟨L, c, hfs⟩, fun hfalse => by cases hfalse⟩
          · have hp := hfs.locate_mem hlocate
            have hspecial (hname : name = Directory.dot ∨ name = Directory.dotDot) : False := by
              have htrue := h.isDirectory_of_special hp hindex hname
              rw [hflag i hindex] at htrue
              cases htrue
            exact ⟨⟨_, c, hvalid⟩, fun _ => ⟨p, name, i, hlocate, hindex,
              fun hdot => hspecial (Or.inl hdot), fun hdotDot => hspecial (Or.inr hdotDot),
              hflag i hindex⟩⟩
      | removeDir path =>
          obtain ⟨p, name, hlocate, hentry⟩ := hsafe
          rw [hfs.here_eq] at hentry
          obtain ⟨rfl, rfl⟩ | ⟨-, i, t, ht, disk', -, hindex, rem, hvalid⟩ :=
            hfs.removeDir_eq_ok hlocate hentry hstep
          · exact ⟨⟨L, c, hfs⟩, fun hfalse => by cases hfalse⟩
          · obtain ⟨hdot, hdotDot, hflag, -⟩ := hentry i hindex
            refine ⟨⟨_, c, hvalid⟩, fun _ => ⟨p, name, i, hlocate, hindex, hdot, hdotDot, hflag,
              fun j hj hinUse => ?_⟩⟩
            rw [rem.target, Int.toNat_natCast] at hinUse ⊢
            rcases (by omega : j = 0 ∨ j = 1 ∨ 2 ≤ j) with rfl | rfl | hlow
            · exact Or.inl (h.dot t ht).1
            · exact Or.inr (h.dotDot t ht).1
            · exact absurd ⟨hlow, hj, hinUse⟩ (rem.childless ht j)

end TreeCall

/-- **Removal never frees anything still in use.** In every run from a formatted disk
whose calls are all safe, every removal that reports success removed what it may,
and after every call each sector that can be reached is marked. -/
theorem removal_safe {heap : Heap} {disk : Disk} {tableMemory : ℕ → Option OpenFileEntry}
    {fs₀ fs : FileSystem} {steps : List (Step FileSystem TreeStep)}
    (hformat : FileSystem.format heap disk tableMemory = .ok fs₀)
    (hrun : Trace TreeCall.Step fs₀ steps fs)
    (hsafe : ∀ x ∈ steps, x.label.call.Safe x.before x.label.heap) :
    (∀ x, fs.disk.InUse x → fs.disk.freeMap.testBit x = true) ∧
      ∀ y ∈ steps, (y.label.result = true → y.label.call.RemovesRightly y.before) ∧
        ∀ x, y.after.disk.InUse x → y.after.disk.freeMap.testBit x = true := by
  obtain ⟨fs₁, hok, -, hvalid, -⟩ := FileSystem.format_eq_ok heap disk tableMemory
  rw [hok] at hformat
  cases hformat
  obtain ⟨⟨L, c, hfs⟩, hall⟩ := Trace.invariant (I := fun fs => ∃ L c, fs.Valid L c)
    (fun x ⟨_, _, hbefore⟩ hstep hsafe => (TreeCall.step hbefore hstep hsafe).1) hrun
    ⟨_, _, hvalid⟩ hsafe
  refine ⟨fun x hx => hfs.consistent.marked_of_inUse hx, fun y hy => ⟨?_, fun x hx => ?_⟩⟩
  · obtain ⟨⟨_, _, hbefore⟩, -⟩ := hall y hy
    exact (TreeCall.step hbefore (hrun.rel_of_mem y hy) (hsafe y hy)).2
  · obtain ⟨-, _, _, hafter⟩ := hall y hy
    exact hafter.consistent.marked_of_inUse hx

/-- A file created on a blank disk and removed again. -/
theorem removal_safe_file : ∃ fs₀ fs₁ fs₂,
    FileSystem.format (fun _ _ => 0) (fun _ _ => 0) (fun _ => none) = .ok fs₀ ∧
      fs₀.createFile (fun _ _ => 0) [97] 300 = .ok (true, fs₁) ∧
      fs₁.removeFile (fun _ _ => 0) [97] = .ok (true, fs₂) ∧
      (TreeCall.update (.removeFile [97])).RemovesRightly fs₁ ∧
      ∀ x, fs₂.disk.InUse x → fs₂.disk.freeMap.testBit x = true := by
  obtain ⟨fs₀, hformat, hformatted, hvalid, -⟩ :=
    FileSystem.format_eq_ok (fun _ _ => 0) (fun _ _ => 0) (fun _ => none)
  obtain ⟨i, disk₁, hcreate, ins, -, -, -, hmarks⟩ := hvalid.createFile_of_formatted
    hformatted (fun _ _ => 0) [97] 300 (by decide) (by decide) (by decide) (by omega)
  obtain ⟨disk₂, hremove, -⟩ :=
    hvalid.removeFile_of_formatted hformatted (fun _ _ => 0) (by decide) ins hmarks
  have hvalid₁ := hvalid.of_inserted ins
  have hfirst : TreeCall.Step fs₀ ⟨.update (.createFile [97] 300), fun _ _ => 0, true⟩
      { fs₀ with disk := disk₁ } := hcreate
  have hsecond : TreeCall.Step { fs₀ with disk := disk₁ }
      ⟨.update (.removeFile [97]), fun _ _ => 0, true⟩ { fs₀ with disk := disk₂ } := hremove
  obtain ⟨hend, hall⟩ := removal_safe hformat (((Trace.nil fs₀).snoc hfirst).snoc hsecond)
    (fun x hx => by
    rcases List.mem_append.mp hx with hx | hx
    · rw [List.mem_singleton.mp hx]
      refine ⟨?_, by omega, by decide⟩
      rw [hvalid.locate_of_component (by decide)]
      rfl
    · rw [List.mem_singleton.mp hx]
      refine ⟨1, [97], hvalid₁.locate_of_component (by decide), fun j hj => ?_⟩
      rw [ins.findIndex] at hj
      rw [← Option.some.inj hj]
      exact Consistent.isDirectory_new ins)
  have hlast := hall _ (List.mem_append_right _ (List.mem_singleton_self _))
  exact ⟨fs₀, { fs₀ with disk := disk₁ }, { fs₀ with disk := disk₂ }, hformat, hcreate, hremove,
    hlast.1 rfl, hend⟩

/-- On a blank disk `RemoveFile(".")` reports success, though the entry is a
directory, and the header sector of the root directory is then free. -/
theorem removeFile_dot_frees_root : ∃ fs fs',
    FileSystem.format (fun _ _ => 0) (fun _ _ => 0) (fun _ => none) = .ok fs ∧
      fs.removeFile (fun _ _ => 0) Directory.dot = .ok (true, fs') ∧
      ¬ (TreeCall.update (.removeFile Directory.dot)).RemovesRightly fs ∧
      ¬ ∀ x, fs'.disk.InUse x → fs'.disk.freeMap.testBit x = true := by
  obtain ⟨fs, hformat, hformatted, hvalid, -⟩ :=
    FileSystem.format_eq_ok (fun _ _ => 0) (fun _ _ => 0) (fun _ => none)
  have h := hvalid.consistent
  have hroot := hvalid.current_mem
  have hindex : (fs.disk.dirTable 1).findIndex Directory.dot = some 0 := by
    rw [Directory.findIndex, List.find?_range_eq_some]
    exact ⟨(h.dot 1 hroot).1, List.mem_range.mpr (show 0 < 10 by omega), by omega⟩
  obtain ⟨dir, hfetch, same⟩ := hvalid.fetchCurrentDirectory (fun _ => 0)
  obtain ⟨header, hheader, hsame, -⟩ :=
    (FileHeader.new (fun _ => 0)).fetchFrom_of_lt fs.disk (s := 1) (by omega)
  have hlist : header.sectorList header.numSectors.toNat = [3, 4] := by
    rw [hsame.numSectors, hformatted.root.2.1]
    simp [FileHeader.sectorList, List.range_succ, hsame.dataSectors, hformatted.root]
  have hindex' : dir.findIndex Directory.dot = some 0 := (same.findIndex _).trans hindex
  obtain ⟨fs', hremove⟩ := hvalid.removeEntry_of_marked (fun _ _ => 0) header 1 same.tableSize hindex'
    (fun k hk => by
      rw [hsame.numSectors, hformatted.root.2.1] at hk
      rcases (by omega : k = 0 ∨ k = 1) with rfl | rfl
      · rw [hsame.dataSectors (by omega), hformatted.root.2.2.1]
        omega
      · rw [hsame.dataSectors (by omega), hformatted.root.2.2.2]
        omega)
    (by rw [hlist]; decide)
    (fun x hx => by
      rw [hlist] at hx
      have hlt : x < 5 := by
        simp at hx
        omega
      refine ⟨by omega, ?_⟩
      rw [hformatted.marks x (by omega), decide_eq_true_eq]
      exact hlt)
    (by omega)
  obtain ⟨-, map, disk', rfl, htest, hflush⟩ :=
    hvalid.removeEntry_eq_ok same.tableSize hindex' hremove
  refine ⟨fs, { fs with disk := disk' }, hformat, ?_, ?_, fun hall => ?_⟩
  · have hfind : dir.find Directory.dot = (1 : ℕ) := by
      rw [same.find, Directory.find, hindex]
      exact (h.dot 1 hroot).2.2
    rw [FileSystem.removeFile, FileSystem.atPath_of_component (by decide),
      FileSystem.removeFileInCurrentDirectory, hfetch, Except.ok_bind, hfind, if_neg (by decide),
      hheader, Except.ok_bind]
    rw [show ((1 : ℕ) : ℤ) = 1 from rfl, hremove]
    rfl
  · rintro ⟨p, name, i, hlocate, -, hdot, -⟩
    rw [hvalid.locate_of_component (by decide)] at hlocate
    cases hlocate
    exact hdot rfl
  · have hmark := hall 1 (Or.inr ⟨1, true, .root, List.mem_cons_self⟩)
    have hzero : disk' 0 = fs.disk 0 := hflush.frame 0
      (h.header_ne_data Consistent.zero_mem_objects (Consistent.mem_objects_of_dir hroot)
        (h.dirData_mem hroot (by omega)))
      (h.header_ne_data Consistent.zero_mem_objects (Consistent.mem_objects_of_dir hroot)
        (h.dirData_mem hroot (by omega)))
      (h.header_ne_data Consistent.zero_mem_objects Consistent.zero_mem_objects h.mapData_mem)
    rw [hflush.testBit hzero (by omega), htest 1 (by omega)] at hmark
    simp at hmark

end Nachos
