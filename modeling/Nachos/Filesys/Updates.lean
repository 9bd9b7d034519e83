/-
# Updates at a path

What creating or removing an object at a path does to a valid file system, for
every one of the four operations: nothing, if it reports failure, and otherwise one
object more or one less. Each has a condition under which this is so; where the
condition fails, the operation does something else.
-/

import Nachos.Filesys.Failure
import Nachos.Filesys.NewDirectory

namespace Nachos

open Base

namespace FileSystem.Valid

variable {fs fs' fs₁ : FileSystem} {L L' : Layout} {c p i t : ℕ} {name : Name}
  {path : List UInt8} {heap : Heap} {result : Bool}

/-- An operation at a path returns only when it does so in the directory the path
leads to. -/
theorem atPath_eq_ok {α : Type} {result : α} (hfs : fs.Valid L c)
    (hlocate : fs.locate path = some (p, name))
    {run : FileSystem → Name → Except Fault (α × FileSystem)}
    (hok : fs.atPath heap path run = .ok (result, fs')) :
    ∃ f fs₁, ({ fs with currentDirectory := f } : FileSystem).Valid L p ∧
      run { fs with currentDirectory := f } name = .ok (result, fs₁) ∧
      fs' = { fs₁ with currentDirectory := fs.currentDirectory } := by
  obtain ⟨f, hvalid, hrun⟩ := hfs.atPath heap hlocate
  rw [hrun, Except.bind_eq_ok] at hok
  obtain ⟨⟨result', fs₁⟩, hinner, hequal⟩ := hok
  cases hequal
  exact ⟨f, fs₁, hvalid, hinner, rfl⟩

/-- Back in the directory the thread was in, as long as it is still there. -/
theorem back (hfs : fs.Valid L c) (hfs₁ : fs₁.Valid L' p) (hc : c ∈ L'.dirs)
    (hheader : fs₁.disk c = fs.disk c) :
    ({ fs₁ with currentDirectory := fs.currentDirectory } : FileSystem).Valid L' c :=
  ⟨hfs₁.consistent, hfs₁.mapFile, hc, hfs.current.congr hheader⟩

/-- **`CreateFile`** of a size that fits a header. -/
theorem createFile_eq_ok (hfs : fs.Valid L c) (hlocate : fs.locate path = some (p, name))
    {size : ℤ} (hlow : -2 ^ 31 ≤ size) (hhigh : size ≤ 3840)
    (hok : fs.createFile heap path size = .ok (result, fs')) :
    result = false ∧ fs' = fs ∨ result = true ∧ ∃ n i disk', fs' = { fs with disk := disk' } ∧
      fs.disk.Inserted disk' L p n i name false ∧ (disk'.header n).numBytes = size ∧
      fs'.Valid (L.insert n false) c := by
  obtain ⟨f, fs₁, hvalid, hinner, rfl⟩ := hfs.atPath_eq_ok hlocate hok
  obtain hfalse | ⟨n, i, disk', htrue, ins, hbytes, -⟩ :=
    hvalid.createFile_cases heap name size hlow hhigh
  · rw [hfalse] at hinner
    cases hinner
    exact Or.inl ⟨rfl, rfl⟩
  · rw [htrue] at hinner
    cases hinner
    refine Or.inr ⟨rfl, n, i, disk', rfl, ins, hbytes, hfs.back (hvalid.of_inserted ins)
      (Layout.mem_dirs_insert.mpr (Or.inl hfs.current_mem)) ?_⟩
    exact hfs.consistent.header_frame hvalid.current_mem ins.frame
      (Consistent.mem_objects_of_dir hfs.current_mem)

/-- **`CreateDir`** where the stale header fits. -/
theorem createDir_eq_ok (hfs : fs.Valid L c) (hlocate : fs.locate path = some (p, name))
    (hfits : ∀ f, OpenFile.new (heap 4) fs.disk fs.disk.freeMap.find.1 = .ok f →
      f.hdr.FitsNewDir fs.disk)
    (hok : fs.createDir heap path = .ok (result, fs')) :
    result = false ∧ fs' = fs ∨ result = true ∧ ∃ n i disk', fs' = { fs with disk := disk' } ∧
      fs.disk.Inserted disk' L p n i name true ∧ fs'.Valid (L.insert n true) c := by
  obtain ⟨f, fs₁, hvalid, hinner, rfl⟩ := hfs.atPath_eq_ok hlocate hok
  obtain ⟨hfalse, -⟩ | ⟨n, i, dir, hdr, map, newDir, g, res, hg, -⟩ :=
    hvalid.createDirInCurrentDirectory heap name
  · rw [hfalse] at hinner
    cases hinner
    exact Or.inl ⟨rfl, rfl⟩
  · cases result with
    | false => exact Or.inl ⟨rfl, by rw [(Outcome.createDir hinner).unchanged]⟩
    | true =>
        have hopen : OpenFile.new (heap 4) fs.disk fs.disk.freeMap.find.1 = .ok g := by
          rw [res.find_header]
          exact hg
        obtain ⟨n, i, hequal, ins, -⟩ := hvalid.createDir_inserted hinner hopen (hfits g hopen)
        rw [hequal]
        refine Or.inr ⟨rfl, n, i, fs₁.disk, rfl, ins, hfs.back (hvalid.of_inserted ins)
          (Layout.mem_dirs_insert.mpr (Or.inl hfs.current_mem)) ?_⟩
        exact hfs.consistent.header_frame hvalid.current_mem ins.frame
          (Consistent.mem_objects_of_dir hfs.current_mem)

/-- After a removal elsewhere in the tree, the thread's directory is still there. -/
theorem back_of_removed (hfs : fs.Valid L c) {f : OpenFile} {disk' : Disk}
    (hvalid : ({ fs with currentDirectory := f } : FileSystem).Valid L p)
    (rem : fs.disk.Removed disk' L p i t) (hne : c ≠ t) :
    ({ fs with disk := disk' } : FileSystem).Valid (L.erase t) c :=
  hfs.back (hvalid.of_removed rem) (Finset.mem_erase.mpr ⟨hne, hfs.current_mem⟩)
    (hfs.consistent.header_frame hvalid.current_mem rem.frame
      (Consistent.mem_objects_of_dir hfs.current_mem))

/-- **`RemoveFile`** of what is not a directory. -/
theorem removeFile_eq_ok (hfs : fs.Valid L c) (hlocate : fs.locate path = some (p, name))
    (hflag : ∀ i, (fs.disk.dirTable p).findIndex name = some i →
      (fs.disk.dirTable p).isDirectory i = false)
    (hok : fs.removeFile heap path = .ok (result, fs')) :
    result = false ∧ fs' = fs ∨ result = true ∧ ∃ i, ∃ t ∈ L.files, ∃ disk',
      fs' = { fs with disk := disk' } ∧ (fs.disk.dirTable p).findIndex name = some i ∧
      fs.disk.Removed disk' L p i t ∧ fs'.Valid (L.erase t) c := by
  obtain ⟨f, fs₁, hvalid, hinner, rfl⟩ := hfs.atPath_eq_ok hlocate hok
  cases hindex : (fs.disk.dirTable p).findIndex name with
  | none =>
      rw [hvalid.removeFile_of_absent heap hindex] at hinner
      cases hinner
      exact Or.inl ⟨rfl, rfl⟩
  | some i =>
      obtain ⟨t, ht, disk', htrue, rem, -⟩ := hvalid.removeFile_of_file heap hindex (hflag i hindex)
      rw [htrue] at hinner
      cases hinner
      refine Or.inr ⟨rfl, i, t, ht, disk', rfl, rfl, rem, hfs.back_of_removed hvalid rem ?_⟩
      rintro rfl
      exact hfs.consistent.kinds c hfs.current_mem ht

/-- Removing an ordinary entry that is a directory: the words behind the header
object, which `Deallocate` takes for pointers, must not name a sector of another
object. -/
theorem removeDir_of_dir (hfs : fs.Valid L c)
    (hindex : (fs.disk.dirTable c).findIndex name = some i) (hchild : fs.disk.ChildEntry c i)
    (htarget : (fs.disk.dirTable c).sector i = t) (hdir : t ∈ L.dirs)
    (hwords : ∀ header, (FileHeader.newZeroed (heap 1)).fetchFrom fs.disk t = .ok header →
      ∀ k, 30 ≤ k → k < header.numSectors.toNat →
        ∀ s ∈ L.objects, s ≠ t → (header.dataSectors k).toNat ∉ fs.disk.owned s)
    (hok : fs.removeDirInCurrentDirectory heap name = .ok (result, fs')) :
    result = false ∧ fs' = fs ∨ result = true ∧ ∃ disk', fs' = { fs with disk := disk' } ∧
      fs.disk.Removed disk' L c i t := by
  have h := hfs.consistent
  have hobj := Consistent.mem_objects_of_dir (L := L) hdir
  have hlt := (h.inRange t hobj).1
  obtain ⟨dir, hfetch, same⟩ := hfs.fetchCurrentDirectory (heap 0)
  have hfind : dir.find name = t := by
    rw [same.find, Directory.find, hindex]
    exact htarget
  obtain ⟨header, hheader, hsame, -⟩ :=
    (FileHeader.newZeroed (heap 1)).fetchFrom_of_lt fs.disk hlt
  obtain ⟨f, hf, hopen, -⟩ := OpenFile.new_of_lt (heap 2) fs.disk hlt
  obtain ⟨rmDir, hrmDir, hrmSame⟩ := h.fetchDirectory hdir hopen (heap 3)
  rw [removeDirInCurrentDirectory, hfetch, Except.ok_bind] at hok
  simp only [hfind, show ¬ ((t : ℤ) = -1) by omega, if_false, hheader, hf, hrmDir,
    Except.ok_bind] at hok
  cases hempty : rmDir.isEmpty with
  | false =>
      simp only [hempty, Bool.not_false, if_true] at hok
      cases hok
      exact Or.inl ⟨rfl, rfl⟩
  | true =>
      simp only [hempty, Bool.not_true, Bool.false_eq_true, if_false] at hok
      obtain ⟨rfl, map, disk', rfl, htest, hflush⟩ := hfs.removeEntry_eq_ok same.tableSize
        ((same.findIndex name).trans hindex) hok
      have hchildless (j : ℕ) : ¬ fs.disk.ChildEntry t j := by
        rintro ⟨hlow, hhigh, hinUse⟩
        rw [Directory.isEmpty, List.all_eq_true] at hempty
        have hunused := hempty j (List.mem_range.mpr (hrmSame.tableSize ▸ hhigh))
        rw [(hrmSame.sameEntry j hhigh).inUse, hinUse] at hunused
        simp at hunused
        omega
      refine Or.inr ⟨rfl, disk', rfl, h.removed_of_flushed hfs.current_mem same hchild htarget
        hflush (fun s hs hne x hx => ?_) fun _ => hchildless⟩
      rw [htest x (h.owned_lt hs hx), h.marked s hs x hx, Bool.true_and, decide_eq_true_eq,
        Int.toNat_natCast, List.mem_cons, not_or]
      have hother : x ∉ fs.disk.owned t := fun hmem => h.separate s hs t hobj hne hx hmem
      refine ⟨fun hequal => hother (hequal ▸ List.mem_cons_self), fun hmem => ?_⟩
      obtain ⟨k, hk, rfl⟩ := FileHeader.mem_sectorList.mp hmem
      by_cases hlisted : k < 30
      · apply hother
        rw [hsame.numSectors] at hk
        rw [hsame.dataSectors hlisted]
        refine List.mem_cons_of_mem _ (Disk.dataSector_mem (i := k) ?_)
        rw [FileHeader.listed]
        omega
      · exact hwords header hheader k (by omega) hk s hs hne hx

/-- **`RemoveDir`** of a directory that is not special, not the current one, and
whose stray pointers are harmless. -/
theorem removeDir_eq_ok (hfs : fs.Valid L c) (hlocate : fs.locate path = some (p, name))
    (hentry : ∀ i, (fs.disk.dirTable p).findIndex name = some i →
      name ≠ Directory.dot ∧ name ≠ Directory.dotDot ∧
        (fs.disk.dirTable p).isDirectory i = true ∧
        ((fs.disk.dirTable p).sector i).toNat ≠ c ∧
        ∀ header, (FileHeader.newZeroed (heap 1)).fetchFrom fs.disk
            ((fs.disk.dirTable p).sector i).toNat = .ok header →
          ∀ k, 30 ≤ k → k < header.numSectors.toNat →
            ¬ fs.disk.InUse (header.dataSectors k).toNat)
    (hok : fs.removeDir heap path = .ok (result, fs')) :
    result = false ∧ fs' = fs ∨ result = true ∧ ∃ i, ∃ t ∈ L.dirs, ∃ disk',
      fs' = { fs with disk := disk' } ∧ (fs.disk.dirTable p).findIndex name = some i ∧
      fs.disk.Removed disk' L p i t ∧ fs'.Valid (L.erase t) c := by
  obtain ⟨f, fs₁, hvalid, hinner, rfl⟩ := hfs.atPath_eq_ok hlocate hok
  have h := hfs.consistent
  cases hindex : (fs.disk.dirTable p).findIndex name with
  | none =>
      obtain ⟨dir, hfetch, same⟩ := hvalid.fetchCurrentDirectory (heap 0)
      rw [removeDirInCurrentDirectory, hfetch, Except.ok_bind, Directory.find, same.findIndex,
        hindex] at hinner
      cases hinner
      exact Or.inl ⟨rfl, rfl⟩
  | some i =>
      obtain ⟨hdot, hdotDot, hflag, hhere, hwords⟩ := hentry i hindex
      have hchild := h.childEntry_of_name hvalid.current_mem hindex (locate_name hlocate) hdot
        hdotDot
      obtain ⟨t, htarget, hdir⟩ := h.dir_of_child hvalid.current_mem hchild hflag
      rw [htarget, Int.toNat_natCast] at hhere hwords
      obtain ⟨rfl, rfl⟩ | ⟨rfl, disk', rfl, rem⟩ := hvalid.removeDir_of_dir hindex hchild htarget
        hdir (fun header hheader k hlow hhigh s hs _ hmem =>
          hwords header hheader k hlow hhigh (h.inUse_iff.mpr ⟨s, hs, hmem⟩)) hinner
      · exact Or.inl ⟨rfl, rfl⟩
      · exact Or.inr ⟨rfl, i, t, hdir, disk', rfl, rfl, rem,
          hfs.back_of_removed hvalid rem hhere.symm⟩

end FileSystem.Valid

end Nachos
